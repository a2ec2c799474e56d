import Soundworks.Proofs.Filter.Computed
import Soundworks.Proofs.Filter.Text
/-!
Echoes of accepted spatial operations. The engine takes no echo whose delay or decay is zero. Every
decay is positive, and so is the delay of every feedback; the delay of a reverb is counted in whole
milliseconds, and it is zero for exactly the sends that are not zero and below a thousandth.
-/

namespace Soundworks

open Binary64

/-! ### A thousandth -/

namespace Binary64

theorem thousandth_eq :
    (0.001 : Binary64) = .finite false 4611686018427388 (-62) (by decide) := rfl

/-- A thousandfold reaches one exactly from the number nearest to a thousandth on. -/
theorem one_le_thousandfold_iff {x : Binary64} (hx : x.isFinite = true) (h : |x.value| ≤ 1) :
    1 ≤ (x * 1000).value ↔ 0.001 ≤ x := by
  have hleast : (0.001 : Binary64).value = (4611686018427388 : ℕ) * 2 ^ (-62 : ℤ) := by
    rw [thousandth_eq]
    rfl
  obtain ⟨hproduct, hrounds⟩ := rounds_thousandfold hx h
  rw [le_iff (by rw [thousandth_eq]; rfl) hx, hleast]
  constructor
  · intro hle
    by_contra hlt
    -- the product with the number below rounds to the number below one, or to less
    have hbelow := value_le_of_lt (by norm_num) (not_le.mp hlt)
    let y : Binary64 := .finite false (2 ^ 53 - 1) (-53) (by decide)
    have hy : y.value = 1 - 2 ^ (-53 : ℤ) := by
      show ((2 ^ 53 - 1 : ℕ) : ℚ) * 2 ^ (-53 : ℤ) = _
      norm_num
    have hmost := hrounds.value_le hproduct (y := y) rfl (by
      rw [hy]
      norm_num at hbelow ⊢
      linarith)
    rw [hy] at hmost
    norm_num at hmost
    linarith
  · intro hle
    rw [← value_one]
    refine hrounds.le_value hproduct (isFinite_ofNat (n := 1) (by norm_num)) ?_
    rw [value_one]
    norm_num at hle
    linarith

theorem not_lt_thousandth_iff {x : Binary64} (hx : x.isFinite = true) :
    ¬x < 0.001 ↔ 0.001 ≤ x := by
  have hfinite : (0.001 : Binary64).isFinite = true := by
    rw [thousandth_eq]
    rfl
  rw [lt_iff hx hfinite, le_iff hfinite hx, not_lt]

theorem zero_lt_iff {x : Binary64} (hx : x.isFinite = true) (h : 0 ≤ x) :
    0 < x ↔ x.isZero = false := by
  rw [nonneg_iff_value hx] at h
  rw [pos_iff_value hx, ← Bool.not_eq_true, isZero_iff, lt_iff_le_and_ne]
  simp [h, hx, eq_comm]

end Binary64

/-! ### Directives of echoes -/

/-- A number that is written in a filter and is above zero. -/
def Fragment.Positive : Fragment → Prop
  | .words _ => False
  | .number x => 0 < x
  | .integer n => 0 < n

namespace Filter

def echoStart : List Char := "aecho=".toList

/-- The last two arguments of an echo, its delay and its decay. -/
def echo? (f : Filter) : Option (Fragment × Fragment) :=
  match f.fragments with
  | [.words start, time, .words ":", decay] =>
    if echoStart.isPrefixOf start.toList then some (time, decay) else none
  | _ => none

theorem isSome_echo?_of_prefix {f : Filter} (h : echoStart <+: f.text.toList) :
    f.echo?.isSome = true := by
  cases f with
  | feedback => rfl
  | reverb => rfl
  | _ => exact absurd (words_of_start rfl h) (by decide)

end Filter

namespace Spatial

/-- The echoes of a spatial operation are the feedback of its delay and its reverb. -/
theorem echo_cases {s : Spatial} {f : Filter} (hf : f ∈ s.filters) (he : f.echo?.isSome = true) :
    (∃ ms decay, 0 < ms ∧ 0 < decay ∧ f = .feedback ms decay) ∨
      ∃ send, s.reverbSend = some send ∧ send.isZero = false ∧ f = reverbFilter send := by
  simp only [filters, List.mem_append, whenSet, Option.mem_toList, Option.map_eq_some_iff] at hf
  rcases hf with ((⟨width, -, rfl⟩ | ⟨p, -, rfl⟩) | hdelay) | ⟨send, hsend, rfl⟩
  · cases he
  · cases he
  · cases hms : s.delayTimeMs with
    | none => simp [hms] at hdelay
    | some ms =>
        simp only [hms, Option.elim_some, delayFilters, List.mem_cons] at hdelay
        rcases hdelay with rfl | hdelay
        · cases he
        · split at hdelay
          · rename_i hpos
            obtain rfl := List.mem_singleton.mp hdelay
            exact .inl ⟨ms, _, hpos.2, hpos.1, rfl⟩
          · cases hdelay
  · obtain ⟨hsome, hnonzero⟩ := Option.filter_eq_some_iff.mp hsend
    exact .inr ⟨send, hsome, by simpa using hnonzero, rfl⟩

variable {s : Spatial}

theorem Valid.reverb_delay (h : s.Valid) {send : Binary64} (hs : s.reverbSend = some send) :
    0 ≤ (send * 1000).floor?.getD 0 ∧
      (0 < (send * 1000).floor?.getD 0 ↔ 0.001 ≤ send) := by
  obtain ⟨hfinite, hlow, hbound⟩ := h.send hs
  obtain ⟨hproduct, hrounds⟩ := rounds_thousandfold hfinite hbound
  have hnonneg : 0 ≤ (send * 1000).value := hrounds.nonneg hproduct (by positivity)
  rw [floor?_eq hproduct, Option.getD_some]
  refine ⟨Int.floor_nonneg.mpr hnonneg, ?_⟩
  rw [← one_le_thousandfold_iff hfinite hbound, Int.lt_iff_add_one_le, zero_add, Int.le_floor,
    Int.cast_one]

theorem reverbFilter_mem {send : Binary64} (hs : s.reverbSend = some send)
    (hnonzero : send.isZero = false) : reverbFilter send ∈ s.filters := by
  have hsent : s.reverbSend.filter (fun send => !send.isZero) = some send :=
    Option.filter_eq_some_iff.mpr ⟨hs, by simp [hnonzero]⟩
  exact List.mem_append_right _ (Option.mem_toList.mpr
    (Option.map_eq_some_iff.mpr ⟨send, hsent, rfl⟩))

theorem Valid.text_of_faint (h : s.Valid) {send : Binary64} (hs : s.reverbSend = some send)
    (hfaint : send < 0.001) :
    (reverbFilter send).text = "aecho=0.8:0.9:0:" ++ send.plain := by
  obtain ⟨hnonneg, hpos⟩ := h.reverb_delay hs
  rw [← not_lt_thousandth_iff (h.send hs).1] at hpos
  have hms : (send * 1000).floor?.getD 0 = 0 := by
    by_contra hne
    exact hpos.mp (lt_of_le_of_ne hnonneg (Ne.symm hne)) hfaint
  rw [reverbFilter, hms]
  show String.join ["aecho=0.8:0.9:", "0", ":", send.plain] = _
  apply String.toList_inj.mp
  simp

/-- Every echo of an accepted operation has a positive decay, and a positive delay unless it is the
reverb of a send below a thousandth. Such a reverb is there for each of these sends but zero, and
its delay is zero. -/
theorem echo_positive_unless_faint {v : Value} {s : Spatial} (h : form.validate v = .ok s) :
    (∀ f ∈ s.filters, Filter.echoStart <+: f.text.toList →
      ∃ delay decay, f.echo? = some (delay, decay) ∧ decay.Positive ∧
        (delay.Positive ↔ ¬∃ send ∈ s.reverbSend, send < 0.001 ∧ f = reverbFilter send)) ∧
    ∀ send ∈ s.reverbSend, 0 < send → send < 0.001 →
      reverbFilter send ∈ s.filters ∧
        (reverbFilter send).text = "aecho=0.8:0.9:0:" ++ send.plain := by
  have hvalid := Form.valid_of_validate form_exact h
  refine ⟨fun f hf hstart => ?_, fun send hs hpos hfaint => ⟨?_, ?_⟩⟩
  · rcases echo_cases hf (Filter.isSome_echo?_of_prefix hstart) with
      ⟨ms, decay, hms, hdecay, rfl⟩ | ⟨send, hs, hnonzero, rfl⟩
    · refine ⟨_, _, rfl, hdecay, iff_of_true hms ?_⟩
      rintro ⟨send, -, -, hsend⟩
      cases hsend
    · obtain ⟨hfinite, -⟩ := hvalid.send hs
      refine ⟨_, _, rfl, (zero_lt_iff hfinite (hvalid.reverbSend send hs).1).mpr hnonzero, ?_⟩
      refine (hvalid.reverb_delay hs).2.trans ?_
      refine (not_lt_thousandth_iff hfinite).symm.trans (not_congr ?_)
      constructor
      · exact fun hlt => ⟨send, hs, hlt, rfl⟩
      · rintro ⟨send', hs', hlt, -⟩
        exact Option.some.inj (hs.symm.trans hs') ▸ hlt
  · have hfinite := (hvalid.send hs).1
    exact reverbFilter_mem hs ((zero_lt_iff hfinite (hvalid.reverbSend send hs).1).mp hpos)
  · exact hvalid.text_of_faint hs hfaint

def sentDelay (send : Binary64) : Value :=
  .object [("delay_time_ms", .number 80), ("reverb_send", .number send)]

/-- A send of a thousandth is delayed by a millisecond. -/
theorem echo_positive_of_thousandth :
    ∃ s, form.validate (sentDelay 0.001) = .ok s ∧
      s.filters.map Filter.text =
        ["adelay=80|80", "aecho=1:1:80:0.3", "aecho=0.8:0.9:1:0.001"] ∧
      ∀ f ∈ s.filters, Filter.echoStart <+: f.text.toList →
        ∃ delay decay, f.echo? = some (delay, decay) ∧ decay.Positive ∧ delay.Positive := by
  have hread : form.validate (sentDelay 0.001) =
      .ok { delayTimeMs := some 80, reverbSend := some 0.001 } := by decide +kernel
  refine ⟨_, hread, by decide +kernel, fun f hf hstart => ?_⟩
  obtain ⟨delay, decay, he, hdecay, hdelay⟩ := (echo_positive_unless_faint hread).1 f hf hstart
  refine ⟨delay, decay, he, hdecay, hdelay.mpr ?_⟩
  rintro ⟨send, hs, hlt, -⟩
  obtain rfl := Option.some.inj hs
  exact absurd hlt (by decide +kernel)

/-- A fainter send is not delayed at all. -/
theorem not_echo_positive :
    form.validate (sentDelay 0.0005) = .ok { delayTimeMs := some 80, reverbSend := some 0.0005 } ∧
      "aecho=0.8:0.9:0:0.0005" ∈
        (filters { delayTimeMs := some 80, reverbSend := some 0.0005 }).map Filter.text ∧
      ¬∀ (v : Value) (s : Spatial), form.validate v = .ok s →
        ∀ f ∈ s.filters, Filter.echoStart <+: f.text.toList →
          ∃ delay decay, f.echo? = some (delay, decay) ∧ decay.Positive ∧ delay.Positive := by
  have hread : form.validate (sentDelay 0.0005) =
      .ok { delayTimeMs := some 80, reverbSend := some 0.0005 } := by decide +kernel
  refine ⟨hread, by decide +kernel, fun h => ?_⟩
  obtain ⟨delay, decay, he, -, hdelay⟩ := h _ _ hread (.reverb 0 0.0005) (by decide +kernel)
    (by decide +kernel)
  cases he
  exact absurd hdelay (Int.lt_irrefl 0)

end Spatial

end Soundworks
