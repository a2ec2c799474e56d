import Soundworks.Proofs.Decimal.Plain
import Soundworks.Proofs.Filter.Computed
/-!
Which filters can be written. An integer with too many digits has no text, so a filter with one
cannot be written. The numbers of a filter have far fewer digits, and of its integers only the
extra plays of a loop have no bound.
-/

namespace Soundworks

open Binary64

/-! ### The digits of a number -/

theorem Decimal.width_le_digitLimit_iff {n : ℕ} : width n ≤ digitLimit ↔ n < 10 ^ digitLimit :=
  Nat.length_toDigits_le_iff (by decide) (by decide)

namespace Binary64

/-- An integer in the range of the format has few enough digits. -/
theorem natAbs_lt_digits {n : ℤ} (h : |(n : ℚ)| ≤ 2 ^ (1024 : ℤ)) :
    n.natAbs < 10 ^ Decimal.digitLimit := by
  have hrange : (2 : ℚ) ^ (1024 : ℤ) < 10 ^ Decimal.digitLimit :=
    calc (2 : ℚ) ^ (1024 : ℤ) = 2 ^ (1024 : ℕ) := zpow_natCast 2 1024
      _ < 10 ^ (1024 : ℕ) := pow_lt_pow_left₀ (by norm_num) (by norm_num) (by decide)
      _ ≤ 10 ^ Decimal.digitLimit := pow_le_pow_right₀ (by norm_num) (by decide)
  rw [← Int.cast_abs, Int.abs_eq_natAbs] at h
  exact_mod_cast h.trans_lt hrange

theorem natAbs_floor?_lt (x : Binary64) :
    (x.floor?.getD 0).natAbs < 10 ^ Decimal.digitLimit := by
  cases hx : x.isFinite with
  | true =>
      obtain ⟨range, hrange⟩ : ∃ range : ℤ, (range : ℚ) = 2 ^ (1024 : ℤ) :=
        ⟨2 ^ (1024 : ℕ), (Int.cast_pow 2 1024).trans (zpow_natCast 2 1024).symm⟩
      have hhigh := value_lt_range x
      have hlow := value_lt_range (-x)
      rw [value_neg, ← hrange] at hlow
      have hleast : -range ≤ ⌊x.value⌋ := Int.le_floor.mpr (by push_cast; linarith)
      rw [floor?_eq hx, Option.getD_some]
      refine natAbs_lt_digits (abs_le.mpr ⟨?_, (Int.floor_le x.value).trans hhigh.le⟩)
      rw [← hrange]
      exact_mod_cast hleast
  | false =>
      have hnone : x.floor? = none := by cases x <;> first | rfl | cases hx
      rw [hnone]
      exact Nat.pow_pos (by decide)

theorem natAbs_toInt?_lt {x : Binary64} {n : ℤ} (h : x.toInt? = some n) :
    n.natAbs < 10 ^ Decimal.digitLimit := by
  cases x with
  | finite s m e hc =>
      obtain ⟨N, rfl, hN⟩ := exists_of_toInt?_eq_some h
      refine natAbs_lt_digits ?_
      rw [← Int.cast_abs, abs_signed, Int.cast_natCast, hN]
      exact hc.lt_range.le
  | _ => cases h

end Binary64

namespace Filter

variable {f : Filter}

/-- Only the integers of a filter matter, for its numbers have few digits. -/
theorem writable_iff_integers :
    f.Writable ↔ ∀ n, .integer n ∈ f.fragments → n.natAbs < 10 ^ Decimal.digitLimit := by
  constructor
  · exact fun h n hn => Decimal.width_le_digitLimit_iff.mp (h _ hn n rfl)
  · intro h g hg n hn
    refine Decimal.width_le_digitLimit_iff.mpr ?_
    cases g with
    | words s => cases hn
    | number x => exact natAbs_toInt?_lt hn
    | integer k =>
        cases hn
        exact h n hg

def told : Filter → List ℤ
  | .repeats extra => [extra]
  | .equalizer centre width _ => [centre, width]
  | .reverb ms _ => [ms]
  | _ => []

theorem integer_not_mem_argument (name : String) (setting : Option Binary64) (n : ℤ) :
    .integer n ∉ argument name setting := by
  cases setting <;> simp [argument]

/-- The other ones are constants. -/
theorem mem_integers {n : ℤ} (h : .integer n ∈ f.fragments) :
    n ∈ f.told ∨ n ∈ [referenceRate, loudnessRange, truePeak, fadeOutLength] := by
  cases f <;>
    simp only [fragments, List.mem_append, List.mem_cons, List.not_mem_nil, reduceCtorEq,
      Fragment.integer.injEq, integer_not_mem_argument, or_false, false_or] at h <;>
    simp [told] <;> tauto

theorem natAbs_lt_of_lt {n : ℤ} (h : n.natAbs < 10 ^ 5) :
    n.natAbs < 10 ^ Decimal.digitLimit :=
  h.trans_le (Nat.pow_le_pow_right (by decide) (by decide))

theorem writable_of_told (h : ∀ n ∈ f.told, n.natAbs < 10 ^ Decimal.digitLimit) :
    f.Writable := by
  have hconstants : ∀ n ∈ [referenceRate, loudnessRange, truePeak, fadeOutLength],
      n.natAbs < 10 ^ 5 := by decide
  exact writable_iff_integers.mpr fun n hn =>
    (mem_integers hn).elim (h n) fun hn => natAbs_lt_of_lt (hconstants n hn)

theorem writable_of_told_nil (h : f.told = []) : f.Writable :=
  writable_of_told (by simp [h])

theorem writable_repeats {n : ℤ} :
    (repeats n).Writable ↔ n.natAbs < 10 ^ Decimal.digitLimit := by
  simp [writable_iff_integers, fragments]

theorem writable_shift {ratio : Binary64} (hf : f ∈ shift ratio) : f.Writable := by
  rcases List.mem_pair.mp hf with rfl | rfl <;> exact writable_of_told_nil rfl

end Filter

/-! ### Filters that can be written -/

open Filter

section

variable {f : Filter}

theorem writable_of_mem_whenSet {α : Type} {x : Option α} {filter : α → Filter}
    (hf : f ∈ whenSet x filter) (h : ∀ a, (filter a).Writable) : f.Writable := by
  obtain ⟨a, -, rfl⟩ := mem_whenSet.mp hf
  exact h a

theorem Volume.writable {v : Volume} (hf : f ∈ v.filters) : f.Writable := by
  rcases List.mem_append.mp hf with hf | hf
  · exact writable_of_mem_whenSet hf fun _ => writable_of_told_nil rfl
  · split at hf
    · obtain rfl := List.mem_singleton.mp hf
      exact writable_of_told_nil rfl
    · cases hf

theorem Pitch.writable {p : Pitch} (hf : f ∈ p.filters) : f.Writable := by
  rcases List.mem_append.mp hf with hf | hf
  · exact writable_shift hf
  · split at hf
    · obtain rfl := List.mem_singleton.mp hf
      exact writable_of_told_nil rfl
    · cases hf

theorem Tempo.writable {t : Tempo} (hf : f ∈ t.filters) : f.Writable := by
  unfold filters at hf
  split at hf
  · obtain rfl := List.mem_singleton.mp hf
    exact writable_of_told_nil rfl
  · exact writable_shift hf

theorem Spectral.writable {s : Spectral} (hf : f ∈ s.bands) : f.Writable := by
  have hequalizer : ∀ {centre width : ℤ} {db : Binary64}, centre.natAbs < 10 ^ 5 →
      width.natAbs < 10 ^ 5 → (Filter.equalizer centre width db).Writable :=
    fun hcentre hwidth => writable_of_told (by
      simpa [told] using ⟨natAbs_lt_of_lt hcentre, natAbs_lt_of_lt hwidth⟩)
  simp only [bands, List.mem_append] at hf
  rcases hf with (((hf | hf) | hf) | hf) | hf
  · exact writable_of_mem_whenSet hf fun _ => writable_of_told_nil rfl
  · exact writable_of_mem_whenSet hf fun _ => writable_of_told_nil rfl
  all_goals exact writable_of_mem_whenSet hf fun _ => hequalizer (by decide) (by decide)

theorem Dynamics.writable {d : Dynamics} (hf : f ∈ d.filters) : f.Writable := by
  simp only [filters, List.mem_append] at hf
  rcases hf with (hf | hf) | hf <;>
    exact writable_of_mem_whenSet hf fun _ => writable_of_told_nil rfl

/-- The delay of a reverb is a whole part of a number. -/
theorem Spatial.writable {s : Spatial} (hf : f ∈ s.filters) : f.Writable := by
  simp only [filters, List.mem_append] at hf
  rcases hf with ((hf | hf) | hf) | hf
  · exact writable_of_mem_whenSet hf fun _ => writable_of_told_nil rfl
  · exact writable_of_mem_whenSet hf fun _ => writable_of_told_nil rfl
  · cases htime : s.delayTimeMs with
    | none => simp [htime] at hf
    | some ms =>
        simp only [htime, Option.elim_some, delayFilters, List.mem_cons] at hf
        rcases hf with rfl | hf
        · exact writable_of_told_nil rfl
        · split at hf
          · obtain rfl := List.mem_singleton.mp hf
            exact writable_of_told_nil rfl
          · cases hf
  · exact writable_of_mem_whenSet hf fun send => writable_of_told (by
      simpa [reverbFilter, told] using natAbs_floor?_lt (send * 1000))

theorem Modulation.writable {m : Modulation} (hf : f ∈ m.filters) : f.Writable := by
  simp only [filters, List.mem_append] at hf
  rcases hf with (hf | hf) | hf <;>
    exact writable_of_mem_whenSet hf fun _ => writable_of_told_nil rfl

theorem Advanced.writable {a : Advanced} (hf : f ∈ a.stages.flatten) : f.Writable := by
  rcases mem_stages.mp hf with ⟨p, -, hf⟩ | ⟨t, -, hf⟩ | ⟨s, -, hf⟩ | ⟨d, -, hf⟩ | ⟨s, -, hf⟩ |
    ⟨m, -, hf⟩
  · exact p.writable hf
  · exact t.writable hf
  · unfold Spectral.stages at hf
    split at hf
    · cases hf
    · exact s.writable (by simpa using hf)
  · exact d.writable hf
  · exact s.writable hf
  · exact m.writable hf

/-- The branches of a mix can always be written. -/
theorem Layer.writable {l : Layer} (hf : f ∈ l.filters) : f.Writable := by
  simp only [filters, List.mem_append] at hf
  rcases hf with ((hf | hf) | hf) | hf
  · exact writable_of_mem_whenSet hf fun _ => writable_of_told_nil rfl
  · cases hs : nonzero l.pitchSemitones with
    | none => simp [hs] at hf
    | some s => exact writable_shift (by simpa [hs] using hf)
  · exact writable_of_mem_whenSet hf fun _ => writable_of_told_nil rfl
  · exact writable_of_mem_whenSet hf fun _ => writable_of_told_nil rfl

end

/-! ### Loops -/

/-- The filter of a loop can be written unless the loop is on and its extra plays have too many
digits. -/
theorem Loop.writable_iff {l : Loop} : (∀ f ∈ l.filters, f.Writable) ↔
    (l.enabled = true → l.count ≤ 10 ^ Decimal.digitLimit) := by
  have hcast : (10 : ℤ) ^ Decimal.digitLimit = (10 ^ Decimal.digitLimit : ℕ) :=
    (Nat.cast_pow 10 _).symm
  have hpos : 0 < 10 ^ Decimal.digitLimit := Nat.pow_pos (by decide)
  unfold filters
  rw [hcast]
  split
  · rename_i h
    obtain ⟨hon, hcount⟩ := h
    rw [List.forall_mem_singleton, writable_repeats]
    simp only [hon, true_implies]
    omega
  · rename_i h
    refine iff_of_true (fun f hf => absurd hf List.not_mem_nil) fun hon => ?_
    have hcount : ¬1 < l.count := fun hcount => h ⟨hon, hcount⟩
    omega

namespace OperationSet

variable {o : OperationSet} {c : Capability}

/-- No loop that is on has so many extra plays that their number cannot be written. -/
def Writable (o : OperationSet) : Prop :=
  ∀ e ∈ o.effects, ∀ l ∈ e.loop, l.enabled = true → l.count ≤ 10 ^ Decimal.digitLimit

instance : DecidablePred Writable := fun o =>
  inferInstanceAs (Decidable (∀ e ∈ o.effects, ∀ l ∈ e.loop, _ → _))

theorem writable_or_repeats {f : Filter} (hf : f ∈ (o.stages c).flatten) :
    f.Writable ∨ ∃ e ∈ o.effects, ∃ l ∈ e.loop, f ∈ l.filters := by
  have hbasic : f ∈ o.basicStages.flatten →
      f.Writable ∨ ∃ e ∈ o.effects, ∃ l ∈ e.loop, f ∈ l.filters := by
    rw [basicStages, Stage.flatten_each, List.mem_append]
    rintro (hf | hf)
    · cases hv : o.volume with
      | none => simp [hv] at hf
      | some v => exact .inl (v.writable (by simpa [hv] using hf))
    · cases he : o.effects with
      | none => simp [he] at hf
      | some e =>
          simp only [he, Option.elim_some, Effects.filters, List.mem_append] at hf
          rcases hf with (hf | hf) | hf
          · exact .inl (writable_of_mem_whenSet hf fun _ => writable_of_told_nil rfl)
          · exact .inl (writable_of_mem_whenSet hf fun _ => writable_of_told_nil rfl)
          · cases hl : e.loop with
            | none => simp [hl] at hf
            | some l => exact .inr ⟨e, rfl, l, hl, by simpa [hl] using hf⟩
  cases c with
  | basic => exact hbasic hf
  | advanced =>
      rw [stages, List.flatten_append, List.mem_append] at hf
      rcases hf with hf | hf
      · exact hbasic hf
      · cases ha : o.advanced with
        | none => simp [ha] at hf
        | some a => exact .inl (a.writable (by simpa [ha] using hf))

theorem mem_stages_of_loop {e : Effects} (he : e ∈ o.effects) {l : Loop} (hl : l ∈ e.loop)
    {f : Filter} (hf : f ∈ l.filters) : f ∈ (o.stages c).flatten := by
  have hbasic : f ∈ o.basicStages.flatten := by
    rw [basicStages, Stage.flatten_each, Option.mem_def.mp he, Option.elim_some, Effects.filters,
      Option.mem_def.mp hl]
    exact List.mem_append_right _ (List.mem_append_right _ hf)
  cases c with
  | basic => exact hbasic
  | advanced =>
      rw [stages, List.flatten_append]
      exact List.mem_append_left _ hbasic

/-- The filters of the whole sound can be written exactly if the one of the loop can. -/
theorem writable_iff : (∀ f ∈ (o.stages c).flatten, f.Writable) ↔ o.Writable := by
  constructor
  · exact fun h e he l hl => Loop.writable_iff.mp fun f hf => h f (mem_stages_of_loop he hl hf)
  · intro h f hf
    rcases writable_or_repeats hf with hwritable | ⟨e, he, l, hl, hf⟩
    · exact hwritable
    · exact Loop.writable_iff.mpr (h e he l hl) f hf

end OperationSet

end Soundworks
