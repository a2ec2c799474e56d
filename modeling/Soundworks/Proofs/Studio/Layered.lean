import Soundworks.Proofs.Job.Mixing
import Soundworks.Studio.Request
/-!
Mixes of several sounds. A request lists its sounds and its layers, and neither list is measured
by the other one. A layer shapes the sound in its place. A layer without a sound is left out, and
so is a sound without a layer: no segment of the graph reads it, and nothing tells of it.
-/

namespace Soundworks

namespace Studio

variable {s : Studio} {inputs : List String} {output : String} {l : Layering} {overwrite : Bool}
  {j : Job}

/-- A mix is made of up to eight sounds, however many layers there are. -/
theorem layered_eq_ok :
    s.layered inputs output l overwrite = .ok j ↔
      s.capability = .advanced ∧ inputs ≠ [] ∧ inputs.length ≤ maxLayers ∧
        j = { inputs, output, operations := { advanced := some { layering := some l } },
              overwrite } := by
  unfold layered require
  cases s.capability with
  | basic => simp [bind, Except.bind]
  | advanced =>
      by_cases hnone : inputs = []
      · simp [hnone, bind, Except.bind, throw, throwThe, MonadExceptOf.throw]
      · by_cases hmany : maxLayers < inputs.length
        · simp [hnone, hmany, bind, Except.bind, throw, throwThe, MonadExceptOf.throw]
        · simp [hnone, hmany, bind, Except.bind, pure, Except.pure, eq_comm, Nat.le_of_not_lt]

theorem mixing_of_layered (hl : l.Valid) (h : s.layered inputs output l overwrite = .ok j) :
    j.Mixing l := by
  obtain ⟨-, hinputs, -, rfl⟩ := layered_eq_ok.mp h
  exact ⟨rfl, hl, hinputs⟩

/-- Which sounds are heard in a mix. If a request is not refused, its mix is made as soon as its
sounds are found and its output can be written. The engine is given all sounds in their order; a
sound goes into the mix exactly if there is a layer in its place, and no segment of the graph reads
any other sound. So no sound is lost exactly if there are as many layers as sounds, or more. -/
theorem sound_in_mix_iff (hl : Layering.form.Reads l)
    (h : s.layered inputs output l overwrite = .ok j) (p : Performer) (t : FileTree) :
    ((j.run p s t).calls ≠ [] ↔
      (∀ path ∈ inputs, ∃ input, t.input s.place path = .ok input) ∧
      (t.outputDirectory s.place (Path.parent (s.place.resolve output))).1 = none ∧
      ((j.withDirectory s t).present s.place.directory (s.place.resolve output) = false ∨
        overwrite = true)) ∧
    ∀ call ∈ (j.run p s t).calls,
      (∀ i path, inputs[i]? = some path →
        call.inputs[i]? = some (s.place.resolve path) ∧
        (call.Carries i ↔ i < l.layers.length) ∧ (call.LeavesOut i ↔ l.layers.length ≤ i)) ∧
      ((∀ i < inputs.length, call.Carries i) ↔ inputs.length ≤ l.layers.length) := by
  have hmixing := mixing_of_layered (Form.valid_of_reads Layering.form_exact hl) h
  obtain ⟨hs, hne, -, rfl⟩ := layered_eq_ok.mp h
  refine ⟨hmixing.calls_run_ne_nil_iff, fun call hcall => ?_⟩
  have hjoins := hmixing.joins hs hcall
  have hplaces : ∀ i path, inputs[i]? = some path →
      call.inputs[i]? = some (s.place.resolve path) ∧
      (call.Carries i ↔ i < l.layers.length) ∧ (call.LeavesOut i ↔ l.layers.length ≤ i) := by
    intro i path hpath
    have hinput := hmixing.getElem?_inputs hs hcall hpath
    obtain ⟨hi, -⟩ := List.getElem?_eq_some_iff.mp hinput
    rw [hjoins.carries_iff, hjoins.leavesOut_iff, List.length_take]
    exact ⟨hinput, by omega, by omega⟩
  refine ⟨hplaces, ?_⟩
  have hcarries : ∀ i < inputs.length, (call.Carries i ↔ i < l.layers.length) :=
    fun i hi => (hplaces i _ (List.getElem?_eq_getElem hi)).2.1
  rw [forall₂_congr hcarries]
  constructor
  · intro hall
    have hpos := List.length_pos_iff.mpr hne
    have hlast := hall (inputs.length - 1) (by omega)
    omega
  · exact fun hle i hi => Nat.lt_of_lt_of_le hi hle

/-! ### Two takes -/

def twoTakes : FileTree := Job.oneSound.put ["in", "take.wav"] (.file "RIFF" 0o644)

def takeStudio : Studio := ⟨⟨"/in", "/root", {}⟩, .advanced⟩

def takesJob (l : Layering) : Job where
  inputs := ["voice.wav", "take.wav"]
  output := "/out/mix.wav"
  operations := { advanced := some { layering := some l } }

def delayedTake : Layering := { layers := [{ delayMs := some 250 }, {}] }

def halvedTake : Layering := { layers := [{ volume := some 0.5 }] }

theorem reads_delayedTake : Layering.form.Reads delayedTake :=
  .inl ⟨.object [("layers", .list [.object [("delay_ms", .integer 250)], .object []])], rfl⟩

theorem reads_halvedTake : Layering.form.Reads halvedTake :=
  .inl ⟨.object [("layers", .list [.object [("volume", .number 0.5)]])], by decide +kernel⟩

theorem layered_takes (l : Layering) :
    takeStudio.layered ["voice.wav", "take.wav"] "/out/mix.wav" l false = .ok (takesJob l) := rfl

theorem takes_found : ∀ path ∈ ["voice.wav", "take.wav"], ∃ input,
    twoTakes.input takeStudio.place path = .ok input := by
  intro path hpath
  rcases List.mem_pair.mp hpath with rfl | rfl
  · exact ⟨"/in/voice.wav", rfl⟩
  · exact ⟨"/in/take.wav", rfl⟩

/-- With two layers both takes go into the mix. -/
theorem both_takes_in_mix :
    ∃ call ∈ ((takesJob delayedTake).run (Performer.rehearsed [] []) takeStudio twoTakes).calls,
      call.inputs[0]? = some "/in/voice.wav" ∧ call.inputs[1]? = some "/in/take.wav" ∧
      call.Carries 0 ∧ call.Carries 1 := by
  obtain ⟨hcalls, hsounds⟩ := sound_in_mix_iff reads_delayedTake (layered_takes delayedTake)
    (Performer.rehearsed [] []) twoTakes
  obtain ⟨call, hcall⟩ := List.exists_mem_of_ne_nil _ (hcalls.mpr ⟨takes_found, rfl, .inl rfl⟩)
  obtain ⟨hplaces, hall⟩ := hsounds call hcall
  have hcarries := hall.mpr (Nat.le_refl 2)
  exact ⟨call, hcall, (hplaces 0 _ rfl).1, (hplaces 1 _ rfl).1, hcarries 0 Nat.zero_lt_two,
    hcarries 1 Nat.one_lt_two⟩

/-- With one layer the second take is not in the mix, which is reported as a success. -/
theorem second_take_left_out :
    Layering.form.Reads halvedTake ∧
    takeStudio.layered ["voice.wav", "take.wav"] "/out/mix.wav" halvedTake false =
      .ok (takesJob halvedTake) ∧
    ((takesJob halvedTake).run (Performer.rehearsed [] []) takeStudio
      twoTakes).report.success = true ∧
    ∃ call ∈ ((takesJob halvedTake).run (Performer.rehearsed [] []) takeStudio twoTakes).calls,
      call.inputs = ["/in/voice.wav", "/in/take.wav"] ∧ call.LeavesOut 1 ∧ ¬call.Carries 1 := by
  have hvalid := Form.valid_of_reads Layering.form_exact reads_halvedTake
  have hmixing := mixing_of_layered hvalid (layered_takes halvedTake)
  refine ⟨reads_halvedTake, layered_takes halvedTake, by decide +kernel, ?_⟩
  have hcalls := (hmixing.calls_run_ne_nil_iff (p := Performer.rehearsed [] [])
    (s := takeStudio) (t := twoTakes)).mpr ⟨takes_found, rfl, .inl rfl⟩
  obtain ⟨call, hcall⟩ := List.exists_mem_of_ne_nil _ hcalls
  have hjoins := hmixing.joins rfl hcall
  have hone : (halvedTake.layers.take call.inputs.length).length ≤ 1 := by
    rw [List.length_take]
    exact Nat.min_le_right _ _
  refine ⟨call, hcall, Job.Mixing.inputs_eq rfl hcall, hjoins.leavesOut_iff.mpr hone, ?_⟩
  rw [hjoins.carries_iff]
  omega

end Studio

end Soundworks
