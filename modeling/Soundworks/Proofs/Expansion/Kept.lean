import Soundworks.Proofs.Expansion.Variation
import Soundworks.Proofs.Validation.Leaves
/-!
What a variation keeps of its base. A gain is put into the volume that is there, so the volume keeps
its other leaves. Pitch, shelves and tempo are put in the place of the whole component: whatever
else the base held in it is gone.
-/

namespace Soundworks

/-! ### The leaves of an operation set -/

theorem Volume.get?_dump_gain (x : Volume) (gain : Option Binary64) {key : String}
    (h : key ≠ "adjust_db") :
    (form.dump { x with adjustDb := gain }).get? key = (form.dump x).get? key := by
  simp [form, h]

theorem Volume.get?_dump_adjustDb (x : Volume) :
    (form.dump x).get? "adjust_db" = x.adjustDb.map .number := by
  simp [form]
  rfl

namespace Advanced

variable (a : Advanced)

theorem get?_dump_tone (pitch : Option Pitch) (spectral : Option Spectral) (tempo : Option Tempo)
    {key : String} (hpitch : key ≠ "pitch") (hspectral : key ≠ "spectral")
    (htempo : key ≠ "tempo") :
    (form.dump { a with pitch, spectral, tempo }).get? key = (form.dump a).get? key := by
  simp [form, hpitch, hspectral, htempo]

theorem get?_dump_pitch : (form.dump a).get? "pitch" = a.pitch.map Pitch.form.dump := by
  simp [form]

theorem get?_dump_spectral : (form.dump a).get? "spectral" = a.spectral.map Spectral.form.dump := by
  simp [form]

theorem get?_dump_tempo : (form.dump a).get? "tempo" = a.tempo.map Tempo.form.dump := by
  simp [form]

end Advanced

namespace OperationSet

def leaf? (o : OperationSet) (path : List String) : Option Value := (form.dump o).leaf? path

variable (o : OperationSet) (path : List String)

theorem leaf?_volume :
    o.leaf? ("volume" :: path) = (Volume.form.dump (o.volume.getD {})).leaf? path := by
  rw [leaf?, Value.leaf?_cons, ← Form.leaf?_getD rfl]
  congr 1
  simp [form]

theorem leaf?_advanced :
    o.leaf? ("advanced" :: path) = (Advanced.form.dump (o.advanced.getD {})).leaf? path := by
  rw [leaf?, Value.leaf?_cons, ← Form.leaf?_getD rfl]
  congr 1
  simp [form]

theorem get?_dump_rest (volume : Option Volume) (advanced : Option Advanced) {key : String}
    (hvolume : key ≠ "volume") (hadvanced : key ≠ "advanced") :
    (form.dump { o with volume, advanced }).get? key = (form.dump o).get? key := by
  simp [form, hvolume, hadvanced]

end OperationSet

/-! ### Where a draw goes -/

namespace Drawn

/-- What a draw is put in the place of: a whole component, or only the leaf itself. -/
def place : Drawn → List String
  | .semitones => ["advanced", "pitch"]
  | .bass | .treble => ["advanced", "spectral"]
  | .factor => ["advanced", "tempo"]
  | .gain => ["volume", "adjust_db"]

def leaves : Drawn → List (List String)
  | .semitones => [["advanced", "pitch", "semitones"]]
  | .bass => [["advanced", "spectral", "bass_boost"]]
  | .treble => [["advanced", "spectral", "treble_boost"]]
  | .factor => [["advanced", "tempo", "factor"], ["advanced", "tempo", "preserve_pitch"]]
  | .gain => [["volume", "adjust_db"]]

end Drawn

namespace Variation

variable {v : Variation} {path : List String}

/-- Under a key of the advanced block a variation keeps what the base has, unless it puts something
in the place of the component. -/
theorem get?_ontoAdvanced (base : Option Advanced) {key : String}
    (h : ∀ k, (v.drawn? k).isSome → k.place ≠ ["advanced", key]) :
    (Advanced.form.dump (v.ontoAdvanced base)).get? key =
      (Advanced.form.dump (base.getD {})).get? key := by
  have hnone : ∀ k, k.place = ["advanced", key] → v.drawn? k = none := fun k hk =>
    Option.not_isSome_iff_eq_none.mp fun hsome => h k hsome hk
  unfold ontoAdvanced
  by_cases hpitch : key = "pitch"
  · subst hpitch
    have hsemitones : v.semitones = none := hnone .semitones rfl
    rw [Advanced.get?_dump_pitch, Advanced.get?_dump_pitch, drawn, hsemitones]
    rfl
  by_cases hspectral : key = "spectral"
  · subst hspectral
    have hshelves : v.shelves = none := Option.map_eq_none_iff.mp (hnone .bass rfl)
    rw [Advanced.get?_dump_spectral, Advanced.get?_dump_spectral, drawn, hshelves]
    rfl
  by_cases htempo : key = "tempo"
  · subst htempo
    have hfactor : v.tempo = none := hnone .factor rfl
    rw [Advanced.get?_dump_tempo, Advanced.get?_dump_tempo, drawn, hfactor]
    rfl
  exact Advanced.get?_dump_tone _ _ _ _ hpitch hspectral htempo

/-- A variation keeps every leaf of its base outside of the places that it draws for. -/
theorem leaf?_onto_of_outside (base : OperationSet)
    (h : ∀ k, (v.drawn? k).isSome → ¬k.place <+: path) :
    (v.onto base).leaf? path = base.leaf? path := by
  cases path with
  | nil => rfl
  | cons key path =>
      by_cases hvolume : key = "volume"
      · subst hvolume
        rw [OperationSet.leaf?_volume, OperationSet.leaf?_volume, volume_onto]
        cases path with
        | nil => rfl
        | cons key path =>
            rw [Value.leaf?_cons, Value.leaf?_cons]
            by_cases hgain : key = "adjust_db"
            · subst hgain
              have hnone : v.gain = none :=
                Option.not_isSome_iff_eq_none.mp fun hsome => h .gain hsome ⟨path, rfl⟩
              rw [hnone, Option.none_or]
            · rw [Volume.get?_dump_gain _ _ hgain]
      by_cases hadvanced : key = "advanced"
      · subst hadvanced
        rw [OperationSet.leaf?_advanced, OperationSet.leaf?_advanced, advanced_onto]
        cases path with
        | nil => rfl
        | cons key path =>
            rw [Value.leaf?_cons, Value.leaf?_cons, get?_ontoAdvanced]
            intro k hk hplace
            exact h k hk ⟨path, by rw [hplace]; rfl⟩
      exact congrArg (fun w : Option Value => w.bind fun v => v.leaf? path)
        (base.get?_dump_rest _ _ hvolume hadvanced)

/-- A drawn component has no leaves but those that are written into it. -/
theorem leaf?_onto_of_component {base : OperationSet} {key : String} {rest : List String}
    {fields : List (String × Value)}
    (hget : (Advanced.form.dump (v.ontoAdvanced base.advanced)).get? key = some (.object fields))
    (hflat : ∀ f ∈ fields, ∀ key, f.2.get? key = none) (hrest : ∀ f ∈ fields, rest ≠ [f.1]) :
    (v.onto base).leaf? ("advanced" :: key :: rest) = none := by
  rw [OperationSet.leaf?_advanced, Value.leaf?_cons, advanced_onto, hget, Option.bind_some]
  exact Value.leaf?_flat hflat hrest

/-- In the place of a draw a variation has the leaves that are set for its draws, and no other. -/
theorem leaf?_onto_of_place (base : OperationSet) {k : Drawn} (hk : (v.drawn? k).isSome)
    (hplace : k.place <+: path) (hpath : ∀ k, (v.drawn? k).isSome → path ∉ k.leaves) :
    (v.onto base).leaf? path = none := by
  obtain ⟨rest, rfl⟩ := hplace
  obtain ⟨x, hx⟩ := Option.isSome_iff_exists.mp hk
  -- the two shelves are drawn together, and into one component
  have hshelves : ∀ y ∈ v.shelves, "advanced" :: "spectral" :: rest ∉ Drawn.bass.leaves →
      "advanced" :: "spectral" :: rest ∉ Drawn.treble.leaves →
      (v.onto base).leaf? ("advanced" :: "spectral" :: rest) = none := by
    intro y hy hbass htreble
    have hget : (Advanced.form.dump (v.ontoAdvanced base.advanced)).get? "spectral" =
        some (.object [("bass_boost", .number y.1), ("treble_boost", .number y.2)]) := by
      rw [Advanced.get?_dump_spectral, ontoAdvanced, drawn, Option.mem_def.mp hy]
      rfl
    exact leaf?_onto_of_component hget (by simp [Value.get?])
      (by simpa [Drawn.leaves] using And.intro hbass htreble)
  cases k with
  | semitones =>
      have hget : (Advanced.form.dump (v.ontoAdvanced base.advanced)).get? "pitch" =
          some (.object [("semitones", .number x)]) := by
        rw [Advanced.get?_dump_pitch, ontoAdvanced, drawn, show v.semitones = some x from hx]
        rfl
      exact leaf?_onto_of_component hget (by simp [Value.get?])
        (by simpa [Drawn.leaves, Drawn.place] using hpath .semitones hk)
  | bass =>
      obtain ⟨y, hy, -⟩ := Option.map_eq_some_iff.mp hx
      exact hshelves y hy (hpath .bass hk) (hpath .treble (by rw [drawn?, hy]; rfl))
  | treble =>
      obtain ⟨y, hy, -⟩ := Option.map_eq_some_iff.mp hx
      exact hshelves y hy (hpath .bass (by rw [drawn?, hy]; rfl)) (hpath .treble hk)
  | factor =>
      have hget : (Advanced.form.dump (v.ontoAdvanced base.advanced)).get? "tempo" =
          some (.object [("factor", .number x), ("preserve_pitch", .bool true)]) := by
        rw [Advanced.get?_dump_tempo, ontoAdvanced, drawn, show v.tempo = some x from hx]
        rfl
      exact leaf?_onto_of_component hget (by simp [Value.get?])
        (by simpa [Drawn.leaves, Drawn.place] using hpath .factor hk)
  | gain =>
      have hrest : rest ≠ [] := by simpa [Drawn.leaves, Drawn.place] using hpath .gain hk
      obtain ⟨key, rest, rfl⟩ := List.exists_cons_of_ne_nil hrest
      show (v.onto base).leaf? ("volume" :: "adjust_db" :: key :: rest) = none
      rw [OperationSet.leaf?_volume, volume_onto, show v.gain = some x from hx, Option.some_or,
        Value.leaf?_cons, Volume.get?_dump_adjustDb]
      rfl

end Variation

namespace VariationRanges

/-- What the variations of an accepted base keep of it. At every path of keys other than that of a
drawn leaf, each variation has the leaf of the base, unless the path leads into the place of a draw:
there it has none, whatever the base has. -/
theorem variations_keep {r : VariationRanges} {base : OperationSet} {source source' : Source}
    {v w : Value} (hr : form.read source v = .ok r)
    (hbase : OperationSet.form.read source' w = .ok base) (chosen : Int) :
    ∃ sets, r.generate base chosen = .ok (r.seed.getD chosen, sets) ∧
      (sets.length : Int) = r.count ∧
      ∀ o ∈ sets, ∀ path, (∀ k, (r.amount k).isSome → path ∉ k.leaves) →
        ((∀ k, (r.amount k).isSome → ¬k.place <+: path) → o.leaf? path = base.leaf? path) ∧
        ∀ k, (r.amount k).isSome → k.place <+: path → o.leaf? path = none := by
  have hvalid : r.Valid := form_exact.sound hr
  have hbase : base.Valid := OperationSet.form_exact.sound hbase
  obtain ⟨sets, hsets, hlength, -⟩ := hvalid.exists_generate hbase chosen
  refine ⟨sets, hsets, hlength, fun o ho path hpath => ?_⟩
  obtain ⟨g, rfl⟩ := hvalid.exists_draw_of_generate hbase hsets ho
  simp only [← Variation.isSome_drawn?_draw r g] at hpath ⊢
  exact ⟨Variation.leaf?_onto_of_outside base, fun k hk hplace =>
    Variation.leaf?_onto_of_place base hk hplace hpath⟩

/-- One variation, with a draw for the pitch and one for the gain. -/
def slidVoice : Value :=
  .object
    [("count", .integer 1), ("pitch_range", .integer 2), ("volume_range", .integer 3),
      ("seed", .integer 1)]

def slid : VariationRanges where
  count := 1
  pitchRange := some 2
  volumeRange := some 3
  seed := some 1

/-- A pitch with cents, and a volume that is normalized. -/
def tunedVoice : Value :=
  .object
    [("volume", .object [("normalize", .bool true)]),
      ("advanced", .object
        [("pitch", .object [("semitones", .integer 1), ("cents", .integer 25)])])]

def tuned : OperationSet where
  volume := some { normalize := some true }
  advanced := some { pitch := some { semitones := 1, cents := some 25 } }

/-- The variation is still normalized, but the cents are gone. -/
theorem variations_keep_of_tuned :
    form.read .document slidVoice = .ok slid ∧
      OperationSet.form.read .document tunedVoice = .ok tuned ∧
      ∃ o, slid.generate tuned 0 = .ok (1, [o]) ∧
        o.leaf? ["volume", "normalize"] = some (.bool true) ∧
        o.leaf? ["advanced", "pitch", "cents"] = none := by
  have hread : form.read .document slidVoice = .ok slid := by decide +kernel
  have hbase : OperationSet.form.read .document tunedVoice = .ok tuned := by decide +kernel
  obtain ⟨sets, hsets, hlength, hkeep⟩ := variations_keep hread hbase 0
  obtain ⟨o, rfl⟩ := List.length_eq_one_iff.mp (Int.ofNat_inj.mp hlength)
  have hnormalize := hkeep o (List.mem_singleton_self o) ["volume", "normalize"]
    (by rintro (_ | _) <;> decide +kernel)
  have hcents := hkeep o (List.mem_singleton_self o) ["advanced", "pitch", "cents"]
    (by rintro (_ | _) <;> decide +kernel)
  exact ⟨hread, hbase, o, hsets, hnormalize.1 (by rintro (_ | _) <;> decide +kernel),
    hcents.2 .semitones (by decide +kernel) (by decide)⟩

/-- A leaf of the base that is not drawn may be lost: the cents of a pitch, once its semitones are
drawn. -/
theorem not_variations_keep_all :
    ¬∀ (r : VariationRanges) (base : OperationSet) (source source' : Source) (v w : Value),
      form.read source v = .ok r → OperationSet.form.read source' w = .ok base →
      ∀ chosen seed sets, r.generate base chosen = .ok (seed, sets) → ∀ o ∈ sets, ∀ path,
        (∀ k, (r.amount k).isSome → path ∉ k.leaves) → o.leaf? path = base.leaf? path := by
  intro h
  have hread : form.read .document slidVoice = .ok slid := by decide +kernel
  have hbase : OperationSet.form.read .document tunedVoice = .ok tuned := by decide +kernel
  obtain ⟨o, hsets, hcents⟩ : ∃ o, slid.generate tuned 0 = .ok (1, [o]) ∧
      o.leaf? ["advanced", "pitch", "cents"] = none :=
    ⟨{ volume := some { adjustDb := some (-0.7843759576790035), normalize := some true }
       advanced := some { pitch := some { semitones := -1.054177898913622 } } },
      by decide +kernel, rfl⟩
  have hkept := h slid tuned .document .document slidVoice tunedVoice hread hbase 0 1 [o] hsets o
    (List.mem_singleton_self o) ["advanced", "pitch", "cents"]
    (by rintro (_ | _) <;> decide +kernel)
  rw [hcents] at hkept
  cases hkept

end VariationRanges

end Soundworks
