import Soundworks.Expansion.Harmonics
import Soundworks.Proofs.Binary64.Complement
import Soundworks.Proofs.Validation.Operations
/-!
The mixes of harmonics are accepted. The level of the sound below an interval is what its level
leaves of one, and the difference does not leave the bounds of a level, however it is rounded.
-/

namespace Soundworks

open Binary64

/-- An interval that can be mixed with a sound. -/
structure Interval.Valid (i : Interval) : Prop where
  mix : 0 ≤ i.mix ∧ i.mix ≤ 1
  semitones : |i.semitones| ≤ 12

namespace Interval

/-- The sound below the shifted copy. -/
def dry (i : Interval) : Layer := { blend := .mix, volume := some (1 - i.mix) }

def shifted (i : Interval) : Layer :=
  { blend := .add, volume := some i.mix, pitchSemitones := some (.ofInt i.semitones) }

def layering (i : Interval) : Layering := { layers := [i.dry, i.shifted] }

theorem volume_of_share {x : Binary64} (h : 0 ≤ x ∧ x ≤ 1) : 0 ≤ x ∧ x ≤ 2 := by
  obtain ⟨hx, -, hhigh⟩ := value_share h
  have htwo : (2 : Binary64).value = 2 := value_ofNat (by norm_num)
  refine ⟨h.1, (le_iff hx (isFinite_ofNat (by norm_num))).mpr ?_⟩
  rw [htwo]
  linarith

variable {i : Interval}

theorem Valid.dry (h : i.Valid) : i.dry.Valid where
  volume := Fallible.forall_mem_some (volume_of_share (one_sub_share h.mix))
  delayMs _ hx := nomatch hx
  pitchSemitones _ hx := nomatch hx
  pan _ hx := nomatch hx

theorem Valid.shifted (h : i.Valid) : i.shifted.Valid where
  volume := Fallible.forall_mem_some (volume_of_share h.mix)
  pitchSemitones := by
    refine Fallible.forall_mem_some ((between_iff (n := 12) (by norm_num)).mpr ?_)
    exact (rounds_ofInt i.semitones).abs_value_le (by norm_num)
      (by exact_mod_cast h.semitones)
  delayMs _ hx := nomatch hx
  pan _ hx := nomatch hx

theorem Valid.layering (h : i.Valid) : i.layering.Valid := by
  refine ⟨fun x hx => ?_, by simp [Interval.layering], by simp [Interval.layering, maxLayers]⟩
  rcases List.mem_pair.mp hx with rfl | rfl
  · exact h.dry
  · exact h.shifted

/-- The mix of an interval is accepted. -/
theorem Valid.operations_eq (h : i.Valid) :
    i.operations = .ok { advanced := some { layering := some i.layering } } := by
  have hdry := Form.accept_eq_ok Layer.form_exact h.dry
  have hshifted := Form.accept_eq_ok Layer.form_exact h.shifted
  simp only [operations, layers, Fallible.map_eq_ok, Fallible.bind_eq_ok, Fallible.pure_eq_ok]
  exact ⟨_, ⟨_, hdry, _, hshifted, rfl⟩, rfl⟩

theorem Valid.exists_operations (h : i.Valid) : ∃ o, i.operations = .ok o ∧ o.Valid :=
  ⟨_, h.operations_eq, OperationSet.valid_layering h.layering⟩

end Interval

namespace Harmonics

variable {h : Harmonics}

/-- The intervals in their order, with the levels that are asked for. -/
def levels (h : Harmonics) : List (String × Int × Option Binary64) :=
  [("octave_up", 12, h.octaveUp), ("octave_down", -12, h.octaveDown), ("fifth_up", 7, h.fifthUp),
    ("third_up", 4, h.thirdUp)]

def added (h : Harmonics) : List Interval :=
  h.levels.filterMap fun (name, semitones, level) =>
    (level.filter (0 < ·)).map (Interval.mk name semitones)

theorem intervals_eq_added (h : Harmonics) : h.intervals = h.added := by
  rw [added, List.filterMap_eq_flatMap_toList]
  simp [intervals, levels]

theorem mem_added {i : Interval} :
    i ∈ h.added ↔ (i.name, i.semitones, some i.mix) ∈ h.levels ∧ 0 < i.mix := by
  rw [added, List.mem_filterMap]
  constructor
  · rintro ⟨⟨name, semitones, level⟩, hmem, hlevel⟩
    obtain ⟨mix, hmix, rfl⟩ := Option.map_eq_some_iff.mp hlevel
    obtain ⟨rfl, hpos⟩ := Option.filter_eq_some_iff.mp hmix
    exact ⟨hmem, of_decide_eq_true hpos⟩
  · rintro ⟨hmem, hpos⟩
    exact ⟨_, hmem, by simp [Option.filter, hpos]⟩

theorem added_eq_nil_iff :
    h.added = [] ↔
      ∀ mix, some mix ∈ [h.octaveUp, h.octaveDown, h.fifthUp, h.thirdUp] → ¬0 < mix := by
  have hlevels : h.levels.map (·.2.2) = [h.octaveUp, h.octaveDown, h.fifthUp, h.thirdUp] := rfl
  rw [← hlevels]
  constructor
  · intro hnone mix hmix hpos
    obtain ⟨⟨name, semitones, level⟩, hmem, rfl⟩ := List.mem_map.mp hmix
    have hadded : ⟨name, semitones, mix⟩ ∈ h.added := mem_added.mpr ⟨hmem, hpos⟩
    rw [hnone] at hadded
    exact List.not_mem_nil hadded
  · intro hall
    refine List.eq_nil_iff_forall_not_mem.mpr fun i hi => ?_
    obtain ⟨hmem, hpos⟩ := mem_added.mp hi
    exact hall i.mix (List.mem_map.mpr ⟨_, hmem, rfl⟩) hpos

theorem Valid.of_mem_levels (hv : h.Valid) {name : String} {semitones : Int} {mix : Binary64}
    (hmem : (name, semitones, some mix) ∈ h.levels) : Interval.Valid ⟨name, semitones, mix⟩ := by
  simp only [levels, List.mem_cons, Prod.mk.injEq, List.not_mem_nil, or_false] at hmem
  rcases hmem with ⟨rfl, rfl, hmix⟩ | ⟨rfl, rfl, hmix⟩ | ⟨rfl, rfl, hmix⟩ | ⟨rfl, rfl, hmix⟩
  · exact ⟨hv.octaveUp mix hmix.symm, by norm_num⟩
  · exact ⟨hv.octaveDown mix hmix.symm, by norm_num⟩
  · exact ⟨hv.fifthUp mix hmix.symm, by norm_num⟩
  · exact ⟨hv.thirdUp mix hmix.symm, by norm_num⟩

/-- The intervals of accepted levels. -/
theorem Valid.intervals (hv : h.Valid) : ∀ i ∈ h.intervals, i.Valid := by
  intro i hi
  rw [intervals_eq_added, mem_added] at hi
  exact hv.of_mem_levels hi.1

end Harmonics

end Soundworks
