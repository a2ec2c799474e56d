import Soundworks.Proofs.Plan.Origins
/-!
The two processors side by side. The basic one ends where the advanced block begins: without that
block both make the same plan, and with it the advanced one keeps the settings of the basic plan,
adds filters at the end of its list, and makes a graph exactly when there are layers.
-/

namespace Soundworks

/-- A plan with the settings of another one and some filters more. -/
structure Plan.Extends (p base : Plan) (added : List String) : Prop where
  sampleRate : p.sampleRate = base.sampleRate
  channels : p.channels = base.channels
  codec : p.codec = base.codec
  bitrate : p.bitrate = base.bitrate
  seek : p.seek = base.seek
  duration : p.duration = base.duration
  filters : p.filters = base.filters ++ added

def Advanced.entries (a : Option Advanced) : List String :=
  (a.elim [] Advanced.stages).map Stage.text

namespace OperationSet

def plain (o : OperationSet) : OperationSet := { o with advanced := none }

@[simp] theorem settings_plain (o : OperationSet) : o.plain.settings = o.settings := rfl

@[simp] theorem stages_plain (o : OperationSet) (c : Capability) :
    o.plain.stages c = o.stages .basic := by
  cases c with
  | basic => rfl
  | advanced => exact List.append_nil _

@[simp] theorem mixedLayers_plain (o : OperationSet) (c : Capability) :
    o.plain.mixedLayers c = none := by
  cases c <;> rfl

/-- The basic processor makes a plan of any operation set that can be written, whatever the inputs
are. -/
theorem plan_basic {o : OperationSet} (hw : o.Writable) (inputs : Nat) :
    o.plan .basic inputs = .ok { o.settings with filters := (o.stages .basic).map Stage.text } :=
  if_pos (writable_iff.mpr hw)

/-- Without an advanced block there is nothing that only one processor sees. -/
theorem plan_plain (o : OperationSet) (c : Capability) (inputs : Nat) :
    o.plain.plan c inputs = o.plan .basic inputs := by
  rw [plan, plan, mixedLayers_plain, stages_plain, settings_plain]
  rfl

theorem texts_advanced (o : OperationSet) :
    (o.stages .advanced).map Stage.text =
      (o.stages .basic).map Stage.text ++ Advanced.entries o.advanced := List.map_append

theorem isSome_mixedLayers (o : OperationSet) :
    (o.mixedLayers .advanced).isSome = (o.advanced.bind (·.layering)).isSome :=
  Option.isSome_map

/-- The basic plan of an accepted operation set is the same with and without its advanced block and
for any inputs, and the advanced plan extends it by what the advanced block says. If a loop has too
many plays to be written, neither processor makes a plan. -/
theorem advanced_extends_basic {v : Value} {o : OperationSet}
    (h : OperationSet.form.validate v = .ok o) :
    (∀ c inputs, o.plain.plan c inputs = o.plan .basic inputs) ∧
    (o.Writable → ∃ base, (∀ inputs, o.plan .basic inputs = .ok base) ∧
      ∀ inputs, 1 ≤ inputs → ∃ p, o.plan .advanced inputs = .ok p ∧
        p.Extends base (Advanced.entries o.advanced) ∧
        (p.graph.isSome ↔ (o.advanced.bind (·.layering)).isSome) ∧
        (p.graphOutput.isSome ↔ (o.advanced.bind (·.layering)).isSome)) ∧
    (¬o.Writable → ∀ c inputs, o.plan c inputs = .error .tooManyDigits) := by
  refine ⟨o.plan_plain, fun hw => ?_, fun hw => plan_of_not_writable hw⟩
  refine ⟨_, plan_basic hw, fun inputs hi => ⟨_, plan_eq h hw .advanced hi, ?_, ?_, ?_⟩⟩
  · exact ⟨rfl, rfl, rfl, rfl, rfl, rfl, o.texts_advanced⟩
  · rw [← isSome_mixedLayers, Option.isSome_map]
  · rw [← isSome_mixedLayers, Option.isSome_map]

/-- A gain, a tremolo and a mix of two layers. -/
def tremblingVoice : Value :=
  .object
    [("volume", .object [("adjust_db", .integer (-3))]),
      ("advanced", .object
        [("modulation", .object
            [("tremolo", .object [("rate", .integer 5), ("depth", .number 0.5)])]),
          ("layering", .object [("layers", .list
            [.object [("delay_ms", .integer 250)], .object []])])])]

def tremblingSet : OperationSet where
  volume := some { adjustDb := some (-3) }
  advanced := some
    { modulation := some { tremolo := some { rate := 5, depth := 0.5 } }
      layering := some echoedLayers }

/-- Its basic plan has the gain alone; the advanced one has the tremolo after it, and a graph. -/
theorem advanced_extends_basic_of_tremblingVoice :
    OperationSet.form.validate tremblingVoice = .ok tremblingSet ∧
      ∃ base p : Plan, tremblingSet.plan .basic 2 = .ok base ∧
        tremblingSet.plain.plan .advanced 2 = .ok base ∧
        tremblingSet.plan .advanced 2 = .ok p ∧ base.filters = ["volume=-3dB"] ∧
        p.filters = base.filters ++ ["tremolo=f=5:d=0.5"] ∧ p.graph.isSome := by
  have hread : OperationSet.form.validate tremblingVoice = .ok tremblingSet := rfl
  have hw : tremblingSet.Writable := by decide
  obtain ⟨hplain, hmade, -⟩ := advanced_extends_basic hread
  obtain ⟨base, hbasic, hadvanced⟩ := hmade hw
  obtain ⟨p, hp, hext, hgraph, -⟩ := hadvanced 2 (by decide)
  have hbase := Except.ok.inj ((hbasic 2).symm.trans (plan_basic hw 2))
  have hadded : Advanced.entries tremblingSet.advanced = ["tremolo=f=5:d=0.5"] := by
    decide +kernel
  refine ⟨hread, base, p, hbasic 2, (hplain .advanced 2).trans (hbasic 2), hp, ?_,
    hadded ▸ hext.filters, hgraph.mpr rfl⟩
  rw [hbase]
  decide +kernel

end OperationSet

end Soundworks
