import Soundworks.Filter.Chain
import Soundworks.Numeral
import Soundworks.Proofs.Binary64.Exp2
import Soundworks.Proofs.Validation.Operations
/-!
The numbers in the filters of accepted operations. A power of two may be out of range, a quotient
needs a divisor that is not zero, and only a finite number has an integral part; within the bounds
of the operations none of these steps fails.
-/

namespace Soundworks

open Binary64

def Pitch.hundredths (p : Pitch) : Binary64 := p.semitones * 100 + p.cents.getD 0

/-- A pitch shift within its bounds is at most thirteen semitones. -/
theorem Pitch.Valid.hundredths {p : Pitch} (h : p.Valid) :
    p.hundredths.isFinite = true ∧ |p.hundredths.value| ≤ 1300 := by
  obtain ⟨hs, hsbound⟩ := (between_iff (n := 12) (by norm_num)).mp h.semitones
  have hcents : (p.cents.getD 0).isFinite = true ∧ |(p.cents.getD 0).value| ≤ (100 : ℕ) := by
    cases hc : p.cents with
    | none =>
        refine ⟨rfl, ?_⟩
        show |(zero false).value| ≤ _
        simp
    | some cents => exact (between_iff (n := 100) (by norm_num)).mp (h.cents cents hc)
  have hhundred : (100 : Binary64).value = 100 := value_ofNat (by norm_num)
  have hrounds := rounds_mul hs (isFinite_ofNat (n := 100) (by norm_num))
  obtain ⟨hm, hmbound⟩ := hrounds.abs_value_le (n := 1200) (by norm_num) (by
    rw [abs_mul, hhundred]
    norm_num at hsbound ⊢
    linarith)
  exact (rounds_add hm hcents.1).abs_value_le (n := 1300) (by norm_num) (by
    refine (abs_add_le _ _).trans ?_
    have hc := hcents.2
    norm_num at hmbound hc ⊢
    linarith)

theorem Pitch.Valid.rounds_octaves {p : Pitch} (h : p.Valid) :
    Rounds (p.hundredths.value / 1200) (p.hundredths / 1200) := by
  have hdivisor : (1200 : Binary64).value = 1200 := value_ofNat (by norm_num)
  have hrounds := rounds_div h.hundredths.1 (isFinite_ofNat (n := 1200) (by norm_num))
    (by rw [hdivisor]; norm_num)
  rwa [hdivisor] at hrounds

theorem Pitch.Valid.within_octaves {p : Pitch} (h : p.Valid) :
    Within 1 (p.hundredths / 1200) := by
  refine h.rounds_octaves.within (by norm_num) ?_
  have hbound := h.hundredths.2
  rw [abs_div]
  norm_num
  linarith

theorem Pitch.Valid.ratio {p : Pitch} (h : p.Valid) :
    p.ratio.isFinite = true ∧ p.ratio.isZero = false ∧ (1 / p.ratio).isFinite = true := by
  obtain ⟨hfinite, hlow, -⟩ := exp2_between h.within_octaves
  have hratio : 1 / 4 ≤ p.ratio.value := hlow
  have hpos : 0 < p.ratio.value := by linarith
  have hinverse : |(1 : Binary64).value / p.ratio.value| ≤ (4 : ℕ) := by
    rw [value_one, abs_of_pos (by positivity)]
    refine (div_le_iff₀ hpos).mpr ?_
    push_cast
    linarith
  refine ⟨hfinite, ?_,
    ((rounds_div (isFinite_ofNat (n := 1) (by norm_num)) hfinite hpos.ne').abs_value_le
      (by norm_num) hinverse).1⟩
  by_contra hzero
  rw [Bool.not_eq_false, isZero_iff] at hzero
  exact hpos.ne' hzero.2

/-- Within the bounds of a pitch shift the power of two is in range. -/
theorem Pitch.Valid.pitchRatio {p : Pitch} (h : p.Valid) :
    Numeral.pitchRatio (.binary p.semitones) (.binary (p.cents.getD 0)) = .ok p.ratio := by
  have heq : Numeral.pitchRatio (.binary p.semitones) (.binary (p.cents.getD 0)) =
      if (p.hundredths / 1200).isFinite then RangeError.powerTooLarge.unlessFinite p.ratio
      else .ok p.ratio := rfl
  have hinrange : RangeError.powerTooLarge.unlessFinite p.ratio = .ok p.ratio := by
    have hfinite := h.ratio.1
    cases hratio : p.ratio with
    | nan => rfl
    | infinite s =>
        rw [hratio] at hfinite
        cases hfinite
    | finite s m e hc => rfl
  rw [heq, hinrange, ite_self]

theorem Layer.Valid.ratio {l : Layer} (h : l.Valid) {s : Binary64}
    (hs : l.pitchSemitones = some s) : (s / 12).exp2.isFinite = true := by
  obtain ⟨hfinite, hbound⟩ := (between_iff (n := 12) (by norm_num)).mp (h.pitchSemitones s hs)
  have htwelve : (12 : Binary64).value = 12 := value_ofNat (by norm_num)
  refine (exp2_between ((rounds_div hfinite (isFinite_ofNat (n := 12) (by norm_num)) ?_).within
    (by norm_num) ?_)).1
  · rw [htwelve]
    norm_num
  · rw [abs_div, htwelve]
    norm_num at hbound ⊢
    linarith

theorem Binary64.rounds_thousandfold {x : Binary64} (hx : x.isFinite = true)
    (h : |x.value| ≤ 1) :
    (x * 1000).isFinite = true ∧ Rounds (x.value * 1000) (x * 1000) := by
  have hrounds := rounds_mul hx (isFinite_ofNat (n := 1000) (by norm_num))
  rw [show (1000 : Binary64).value = 1000 from value_ofNat (by norm_num)] at hrounds
  refine ⟨(hrounds.abs_value_le (n := 1000) (by norm_num) ?_).1, hrounds⟩
  rw [abs_mul]
  norm_num
  linarith

/-- A send within its bounds. -/
theorem Spatial.Valid.send {s : Spatial} (h : s.Valid) {send : Binary64}
    (hs : s.reverbSend = some send) : send.isFinite = true ∧ 0 ≤ send.value ∧ |send.value| ≤ 1 := by
  obtain ⟨hfinite, hlow, hhigh⟩ := value_share (h.reverbSend send hs)
  exact ⟨hfinite, hlow, abs_le.mpr ⟨by linarith, hhigh⟩⟩

/-- The delay of a reverb in whole milliseconds. -/
theorem Spatial.Valid.reverb {s : Spatial} (h : s.Valid) {send : Binary64}
    (hs : s.reverbSend = some send) : ∃ ms, (send * 1000).floor? = some ms := by
  obtain ⟨hfinite, -, hbound⟩ := h.send hs
  exact ⟨_, floor?_eq (rounds_thousandfold hfinite hbound).1⟩

/-- No filter of an operation set rests on a number that is not defined. -/
structure OperationSet.Computed (o : OperationSet) : Prop where
  pitch : ∀ a ∈ o.advanced, ∀ p ∈ a.pitch,
    p.ratio.isFinite = true ∧ p.ratio.isZero = false ∧ (1 / p.ratio).isFinite = true
  pitchRatio : ∀ a ∈ o.advanced, ∀ p ∈ a.pitch,
    Numeral.pitchRatio (.binary p.semitones) (.binary (p.cents.getD 0)) = .ok p.ratio
  reverb : ∀ a ∈ o.advanced, ∀ s ∈ a.spatial, ∀ send ∈ s.reverbSend,
    ∃ ms, (send * 1000).floor? = some ms
  layers : ∀ a ∈ o.advanced, ∀ l ∈ a.layering, ∀ x ∈ l.layers, ∀ s ∈ x.pitchSemitones,
    (s / 12).exp2.isFinite = true

theorem OperationSet.Valid.computed {o : OperationSet} (h : o.Valid) : o.Computed where
  pitch a ha p hp := ((h.advanced a ha).pitch p hp).ratio
  pitchRatio a ha p hp := ((h.advanced a ha).pitch p hp).pitchRatio
  reverb a ha s hs _ hsend := ((h.advanced a ha).spatial s hs).reverb hsend
  layers a ha l hl x hx _ hs := (((h.advanced a ha).layering l hl).layers x hx).ratio hs

/-! ### The filters of the advanced operations -/

theorem Stage.flatten_each (fs : List Filter) : (Stage.each fs).flatten = fs := by
  induction fs with
  | nil => rfl
  | cons f fs ih =>
      show f :: (Stage.each fs).flatten = f :: fs
      rw [ih]

theorem mem_whenSet {α : Type} {o : Option α} {filter : α → Filter} {f : Filter} :
    f ∈ whenSet o filter ↔ ∃ a ∈ o, filter a = f := by
  simp [whenSet]

theorem Advanced.mem_stages {a : Advanced} {f : Filter} : f ∈ a.stages.flatten ↔
    (∃ p ∈ a.pitch, f ∈ p.filters) ∨ (∃ t ∈ a.tempo, f ∈ t.filters) ∨
      (∃ s ∈ a.spectral, f ∈ s.stages.flatten) ∨ (∃ d ∈ a.dynamics, f ∈ d.filters) ∨
      (∃ s ∈ a.spatial, f ∈ s.filters) ∨ ∃ m ∈ a.modulation, f ∈ m.filters := by
  have helim : ∀ {α : Type} {o : Option α} {g : α → List Filter},
      f ∈ o.elim [] g ↔ ∃ x ∈ o, f ∈ g x := by
    intro α o g
    cases o <;> simp
  have hspectral : f ∈ (a.spectral.elim [] Spectral.stages).flatten ↔
      ∃ s ∈ a.spectral, f ∈ s.stages.flatten := by
    cases a.spectral <;> simp
  simp only [Advanced.stages, List.flatten_append, Stage.flatten_each, List.mem_append, helim,
    hspectral, or_assoc]

end Soundworks
