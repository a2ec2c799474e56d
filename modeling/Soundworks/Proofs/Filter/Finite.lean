import Soundworks.Proofs.Filter.Computed
import Soundworks.Proofs.Filter.Pan
import Soundworks.Proofs.Filter.Words
/-!
The numbers in the filters of valid operations are finite where two bounds enclose them. A loudness
that is aimed at has no bounds, so it may be any number; the times of fades have a lower bound only,
so they may be infinite.
-/

namespace Soundworks

open Binary64

namespace Binary64

theorem isFinite_of_between {x least most : Binary64} (h : least ≤ x ∧ x ≤ most)
    (hleast : least.isFinite = true) (hmost : most.isFinite = true) : x.isFinite = true :=
  isFinite_of_le_of_le hleast hmost h.1 h.2

/-- A number with a lower bound of zero only. -/
theorem isFinite_or_infinite_of_nonneg {x : Binary64} (h : 0 ≤ x) :
    x.isFinite = true ∨ x = .infinite false := by
  cases x with
  | finite => exact .inl rfl
  | nan => exact absurd h (by decide)
  | infinite s =>
      cases s with
      | false => exact .inr rfl
      | true => exact absurd h (by decide)

end Binary64

/-- All numbers of a filter are finite. -/
def Filter.Finite (f : Filter) : Prop := ∀ x ∈ f.numbers, x.isFinite = true

theorem nonzero_eq_some {x : Option Binary64} {y : Binary64} (h : nonzero x = some y) :
    x = some y := (Option.filter_eq_some_iff.mp h).1

namespace Filter

theorem finite_iff {f : Filter} : f.Finite ↔ ∀ x, .number x ∈ f.fragments → x.isFinite = true :=
  forall_congr' fun _ => imp_congr_left mem_numbers

theorem finite_shift {ratio : Binary64} (h : ratio.isFinite = true) {f : Filter}
    (hf : f ∈ shift ratio) : f.Finite := by
  rcases List.mem_pair.mp hf with rfl | rfl <;> simp [finite_iff, fragments, h]

/-- The shares of a position between the two ends. -/
theorem finite_pan {p : Binary64} (h : -1 ≤ p ∧ p ≤ 1) : (pan (.ofPosition p)).Finite := by
  have hleft := (PanMatrix.left_shares h).convex
  have hright := (PanMatrix.right_shares h).convex
  have hnumbers : (pan (.ofPosition p)).numbers =
      [(PanMatrix.ofPosition p).left.own, (PanMatrix.ofPosition p).left.other,
        (PanMatrix.ofPosition p).right.own, (PanMatrix.ofPosition p).right.other] := rfl
  simp only [Finite, hnumbers, List.forall_mem_cons]
  exact ⟨(value_share hleft.own).1, (value_share hleft.other).1, (value_share hright.own).1,
    (value_share hright.other).1, fun _ hx => nomatch hx⟩

end Filter

/-! ### Operations whose filters are finite -/

theorem Pitch.Valid.finite {p : Pitch} (h : p.Valid) {f : Filter} (hf : f ∈ p.filters) :
    f.Finite := by
  obtain ⟨hratio, -, hinverse⟩ := h.ratio
  unfold Pitch.filters at hf
  rcases List.mem_append.mp hf with hf | hf
  · exact Filter.finite_shift hratio hf
  · split at hf
    · obtain rfl := List.mem_singleton.mp hf
      simp [Filter.finite_iff, Filter.fragments, hinverse]
    · cases hf

theorem Tempo.Valid.finite {t : Tempo} (h : t.Valid) {f : Filter} (hf : f ∈ t.filters) :
    f.Finite := by
  have hfactor := isFinite_of_between h.factor rfl rfl
  unfold Tempo.filters at hf
  split at hf
  · obtain rfl := List.mem_singleton.mp hf
    simp [Filter.finite_iff, Filter.fragments, hfactor]
  · exact Filter.finite_shift hfactor hf

/-- A small multiple of what is at most one. -/
theorem Binary64.isFinite_multiple {x : Binary64} (h : 0 ≤ x ∧ x ≤ 1) {n : ℕ}
    (hn : n < 2 ^ 53) : (x * OfNat.ofNat n).isFinite = true := by
  obtain ⟨hfinite, hlow, hhigh⟩ := value_share h
  refine ((rounds_mul hfinite (isFinite_ofNat hn)).abs_value_le (n := n) hn ?_).1
  rw [show (OfNat.ofNat n : Binary64).value = n from value_ofNat hn, abs_mul, abs_of_nonneg hlow,
    abs_of_nonneg (Nat.cast_nonneg n)]
  exact mul_le_of_le_one_left (Nat.cast_nonneg n) hhigh

theorem Spectral.Valid.finite {s : Spectral} (h : s.Valid) {f : Filter} (hf : f ∈ s.bands) :
    f.Finite := by
  simp only [Spectral.bands, List.mem_append, mem_whenSet] at hf
  rcases hf with (((⟨g, hg, rfl⟩ | ⟨g, hg, rfl⟩) | ⟨g, hg, rfl⟩) | ⟨w, hw, rfl⟩) | ⟨b, hb, rfl⟩
  · simp [Filter.finite_iff, Filter.fragments, isFinite_of_between (h.bassBoost g hg) rfl rfl]
  · simp [Filter.finite_iff, Filter.fragments, isFinite_of_between (h.trebleBoost g hg) rfl rfl]
  · simp [Filter.finite_iff, Filter.fragments, isFinite_of_between (h.midCut g hg) rfl rfl]
  · simp [Filter.finite_iff, Filter.fragments,
      isFinite_multiple (h.warmth w hw) (n := 3) (by norm_num)]
  · simp [Filter.finite_iff, Filter.fragments,
      isFinite_multiple (h.brightness b hb) (n := 4) (by norm_num)]

theorem Filter.finite_argument {name : String} {setting : Option Binary64}
    (h : ∀ x ∈ setting, x.isFinite = true) {x : Binary64}
    (hx : .number x ∈ argument name (nonzero setting)) : x.isFinite = true := by
  cases hy : nonzero setting with
  | none => simp [hy, argument] at hx
  | some y =>
      simp only [hy, argument, List.mem_cons, reduceCtorEq, Fragment.number.injEq, List.not_mem_nil,
        or_false, false_or] at hx
      exact h x (hx ▸ nonzero_eq_some hy)

theorem Dynamics.Valid.finite {d : Dynamics} (h : d.Valid) {f : Filter} (hf : f ∈ d.filters) :
    f.Finite := by
  simp only [Dynamics.filters, List.mem_append, mem_whenSet] at hf
  rcases hf with (⟨c, hc, rfl⟩ | ⟨g, hg, rfl⟩) | ⟨l, hl, rfl⟩
  · have hv := h.compressor c hc
    refine Filter.finite_iff.mpr fun x hx => ?_
    simp only [Compressor.filter, Filter.fragments, List.mem_append, List.mem_cons, reduceCtorEq,
      Fragment.number.injEq, List.not_mem_nil, or_false, false_or] at hx
    rcases hx with (rfl | rfl | rfl | rfl) | hx
    · exact isFinite_of_between hv.threshold rfl rfl
    · exact isFinite_of_between hv.ratio rfl rfl
    · exact isFinite_of_between hv.attack rfl rfl
    · exact isFinite_of_between hv.release rfl rfl
    · exact Filter.finite_argument (fun y hy => isFinite_of_between (hv.knee y hy) rfl rfl) hx
  · have hv := h.gate g hg
    refine Filter.finite_iff.mpr fun x hx => ?_
    simp only [Gate.filter, Filter.fragments, List.mem_append, List.mem_cons, reduceCtorEq,
      Fragment.number.injEq, List.not_mem_nil, or_false, false_or] at hx
    rcases hx with ((rfl | rfl) | hx) | hx
    · exact isFinite_of_between hv.threshold rfl rfl
    · exact isFinite_of_between hv.ratio rfl rfl
    · exact Filter.finite_argument (fun y hy => isFinite_of_between (hv.attack y hy) rfl rfl) hx
    · exact Filter.finite_argument (fun y hy => isFinite_of_between (hv.release y hy) rfl rfl) hx
  · have hv := h.limiter l hl
    refine Filter.finite_iff.mpr fun x hx => ?_
    simp only [Limiter.filter, Filter.fragments, List.mem_append, List.mem_cons, reduceCtorEq,
      Fragment.number.injEq, List.not_mem_nil, or_false, false_or] at hx
    rcases hx with rfl | hx
    · exact isFinite_of_between hv.threshold rfl rfl
    · exact Filter.finite_argument (fun y hy => isFinite_of_between (hv.release y hy) rfl rfl) hx

theorem Spatial.Valid.finite {s : Spatial} (h : s.Valid) {f : Filter} (hf : f ∈ s.filters) :
    f.Finite := by
  simp only [Spatial.filters, List.mem_append, mem_whenSet] at hf
  rcases hf with ((⟨w, hw, rfl⟩ | ⟨p, hp, rfl⟩) | hdelay) | ⟨send, hsend, rfl⟩
  · simp [Filter.finite_iff, Filter.fragments, isFinite_of_between (h.stereoWidth w hw) rfl rfl]
  · exact Filter.finite_pan (h.panPosition p hp)
  · cases hms : s.delayTimeMs with
    | none => simp [hms] at hdelay
    | some ms =>
        have htime := isFinite_of_between (h.delayTimeMs ms hms) rfl rfl
        have hdecay : (s.delayFeedback.getD Spatial.defaultFeedback).isFinite = true := by
          cases hd : s.delayFeedback with
          | none => rfl
          | some decay => exact isFinite_of_between (h.delayFeedback decay hd) rfl rfl
        simp only [hms, Option.elim_some, Spatial.delayFilters, List.mem_cons] at hdelay
        rcases hdelay with rfl | hdelay
        · simp [Filter.finite_iff, Filter.fragments, htime]
        · split at hdelay
          · obtain rfl := List.mem_singleton.mp hdelay
            simp [Filter.finite_iff, Filter.fragments, htime, hdecay]
          · cases hdelay
  · have hfinite := isFinite_of_between (h.reverbSend send (nonzero_eq_some hsend)) rfl rfl
    simp [Filter.finite_iff, Filter.fragments, Spatial.reverbFilter, hfinite]

theorem Modulation.Valid.finite {m : Modulation} (h : m.Valid) {f : Filter} (hf : f ∈ m.filters) :
    f.Finite := by
  simp only [Modulation.filters, List.mem_append, mem_whenSet] at hf
  rcases hf with (⟨t, ht, rfl⟩ | ⟨v, hv, rfl⟩) | ⟨c, hc, rfl⟩
  · have hv := h.tremolo t ht
    simp [Filter.finite_iff, Filter.fragments, isFinite_of_between hv.rate rfl rfl,
      isFinite_of_between hv.depth rfl rfl]
  · have hv := h.vibrato v hv
    simp [Filter.finite_iff, Filter.fragments, isFinite_of_between hv.rate rfl rfl,
      isFinite_of_between hv.depth rfl rfl]
  · have hv := h.chorus c hc
    simp [Filter.finite_iff, Filter.fragments, isFinite_of_between hv.rate rfl rfl,
      isFinite_of_between hv.depth rfl rfl, isFinite_of_between hv.delayMs rfl rfl]

theorem Advanced.Valid.finite {a : Advanced} (h : a.Valid) {f : Filter}
    (hf : f ∈ a.stages.flatten) : f.Finite := by
  rcases Advanced.mem_stages.mp hf with ⟨p, hp, hf⟩ | ⟨t, ht, hf⟩ | ⟨s, hs, hf⟩ | ⟨d, hd, hf⟩ |
    ⟨s, hs, hf⟩ | ⟨m, hm, hf⟩
  · exact (h.pitch p hp).finite hf
  · exact (h.tempo t ht).finite hf
  · unfold Spectral.stages at hf
    split at hf
    · cases hf
    · exact (h.spectral s hs).finite (by simpa using hf)
  · exact (h.dynamics d hd).finite hf
  · exact (h.spatial s hs).finite hf
  · exact (h.modulation m hm).finite hf

theorem Layer.Valid.finite {l : Layer} (h : l.Valid) {f : Filter} (hf : f ∈ l.filters) :
    f.Finite := by
  simp only [Layer.filters, List.mem_append, mem_whenSet] at hf
  rcases hf with ((⟨ms, hms, rfl⟩ | hshift) | ⟨g, hg, rfl⟩) | ⟨p, hp, rfl⟩
  · have hfinite := isFinite_of_between (h.delayMs ms (nonzero_eq_some hms)) rfl rfl
    simp [Filter.finite_iff, Filter.fragments, hfinite]
  · cases hs : nonzero l.pitchSemitones with
    | none => simp [hs] at hshift
    | some s =>
        rw [hs] at hshift
        exact Filter.finite_shift (h.ratio (nonzero_eq_some hs)) hshift
  · simp [Filter.finite_iff, Filter.fragments, isFinite_of_between (h.volume g hg) rfl rfl]
  · exact Filter.finite_pan (h.pan p hp)

/-! ### Operations whose filters need not be finite -/

/-- A filter with a number that is not finite: the loudness that a volume operation aims at. -/
theorem Volume.Valid.finite_or {v : Volume} (h : v.Valid) {f : Filter} (hf : f ∈ v.filters) :
    f.Finite ∨ ∃ x ∈ v.targetLufs, v.normalize = some true ∧ x.isFinite = false ∧
      f = .loudness x := by
  simp only [Volume.filters, List.mem_append, mem_whenSet] at hf
  rcases hf with ⟨db, hdb, rfl⟩ | hf
  · have hgain := isFinite_of_between (h.adjustDb db hdb) rfl rfl
    exact .inl (by simp [Filter.finite_iff, Filter.fragments, hgain])
  · split at hf
    · rename_i hnormalize
      obtain rfl := List.mem_singleton.mp hf
      cases ht : v.targetLufs with
      | none =>
          have hdefault : Volume.defaultTarget.isFinite = true := rfl
          exact .inl (by simp [Filter.finite_iff, Filter.fragments, hdefault])
      | some x =>
          cases hx : x.isFinite with
          | true => exact .inl (by simp [Filter.finite_iff, Filter.fragments, hx])
          | false => exact .inr ⟨x, rfl, hnormalize, hx, rfl⟩
    · cases hf

/-- A filter with a number that is not finite: a fade that is endless or never begins. -/
theorem Effects.Valid.finite_or {e : Effects} (h : e.Valid) {f : Filter} (hf : f ∈ e.filters) :
    f.Finite ∨ (e.fadeInSec = some (.infinite false) ∧ f = .fadeIn (.infinite false)) ∨
      (e.fadeOutSec = some (.infinite false) ∧ f = .fadeOut (.infinite false)) := by
  simp only [Effects.filters, List.mem_append, mem_whenSet] at hf
  rcases hf with (⟨x, hx, rfl⟩ | ⟨x, hx, rfl⟩) | hloop
  · rcases isFinite_or_infinite_of_nonneg (h.fadeInSec x hx) with hfinite | rfl
    · exact .inl (by simp [Filter.finite_iff, Filter.fragments, hfinite])
    · exact .inr (.inl ⟨hx, rfl⟩)
  · rcases isFinite_or_infinite_of_nonneg (h.fadeOutSec x hx) with hfinite | rfl
    · exact .inl (by simp [Filter.finite_iff, Filter.fragments, hfinite])
    · exact .inr (.inr ⟨hx, rfl⟩)
  · refine .inl ?_
    cases hl : e.loop with
    | none => simp [hl] at hloop
    | some l =>
        simp only [hl, Option.elim_some, Loop.filters] at hloop
        split at hloop
        · obtain rfl := List.mem_singleton.mp hloop
          simp [Filter.finite_iff, Filter.fragments]
        · cases hloop

end Soundworks
