import Soundworks.Proofs.Binary64.Octave
import Soundworks.Proofs.Filter.Computed
import Soundworks.Proofs.Filter.Text
/-!
Changes of tempo in the filters of accepted operations. The engine is taken to change the tempo by
factors from a half to a hundred. The factors of tempo operations are in this range; the one that
makes up for a shift of pitch is below it for exactly the shifts by more than an octave.
-/

namespace Soundworks

open Binary64

/-! ### The factor that makes up for a shift -/

namespace Pitch.Valid

variable {p : Pitch} (h : p.Valid)
include h

/-- A shift by more than an octave has a ratio above two, any other one at most two. -/
theorem ratio_bounds :
    p.ratio.isFinite = true ∧ 1 / 4 ≤ p.ratio.value ∧ p.ratio.value ≤ 4 ∧
      (2 < p.ratio.value ↔ 1200 < p.hundredths) := by
  obtain ⟨hfinite, hbound⟩ := h.hundredths
  have hrounds := h.rounds_octaves
  have hwithin := h.within_octaves
  have hdivisor : (1200 : Binary64).value = 1200 := value_ofNat (by norm_num)
  have hhigh := (abs_le.mp hbound).2
  obtain ⟨hratio, hlow, -⟩ := exp2_between hwithin
  rw [lt_iff (isFinite_ofNat (n := 1200) (by norm_num)) hfinite, hdivisor]
  rcases lt_or_ge 1200 p.hundredths.value with hlt | hge
  -- the hundredths are at least the neighbour of 1200, so the octaves are rounded to above one
  · have hnext := le_value_of_lt (m := 1200 * 2 ^ 42) (e := -42) (by norm_num)
      (by norm_num; exact hlt)
    have habove : 1 < (p.hundredths / 1200).value := by
      have hnear := hrounds.near hwithin.finite 1 (by norm_num) (by
        rw [abs_of_nonneg (by linarith)]
        norm_num
        linarith)
      have hleast := (abs_le.mp hnear).1
      norm_num at hleast hnext
      linarith
    have hmost : (p.hundredths / 1200).value ≤ 9 / 8 := by
      let y : Binary64 := .finite false (9 * 2 ^ 49) (-52) (by decide)
      have hy : y.value = 9 / 8 := by
        show ((9 * 2 ^ 49 : ℕ) : ℚ) * 2 ^ (-52 : ℤ) = _
        norm_num
      have hle := hrounds.value_le hwithin.finite (y := y) rfl (by
        rw [hy]
        linarith)
      rwa [hy] at hle
    obtain ⟨-, htwo, hfour⟩ := two_lt_exp2 hwithin habove hmost
    exact ⟨hratio, hlow, hfour, iff_of_true htwo hlt⟩
  · have hmost := hrounds.value_le hwithin.finite (isFinite_ofNat (n := 1) (by norm_num)) (by
      rw [show (OfNat.ofNat 1 : Binary64).value = 1 from value_one]
      linarith)
    have htwo := exp2_le_two hwithin (hmost.trans_eq value_one)
    exact ⟨hratio, hlow, htwo.trans (by norm_num), iff_of_false (not_lt.mpr htwo) (not_lt.mpr hge)⟩

/-- The factor that makes up for a shift is at least a half unless the shift is by more than an
octave; in any case it lies between a quarter and four. -/
theorem compensation :
    (1 / p.ratio).isFinite = true ∧ 1 / 4 ≤ (1 / p.ratio).value ∧ (1 / p.ratio).value ≤ 4 ∧
      (1 / 2 ≤ (1 / p.ratio).value ↔ ¬1200 < p.hundredths) := by
  obtain ⟨hratio, hlow, hhigh, habove⟩ := h.ratio_bounds
  have hpos : 0 < p.ratio.value := by linarith
  have hrounds := rounds_div (isFinite_ofNat (n := 1) (by norm_num)) hratio hpos.ne'
  rw [show (OfNat.ofNat 1 : Binary64).value = 1 from value_one] at hrounds
  have hfinite := h.ratio.2.2
  obtain ⟨hquarter, hquarterValue⟩ := value_wholePower (w := -2) (by norm_num) (by norm_num)
  obtain ⟨hhalf, hhalfValue⟩ := value_wholePower (w := -1) (by norm_num) (by norm_num)
  have hfour : (4 : Binary64).value = 4 := value_ofNat (by norm_num)
  refine ⟨hfinite, ?_, ?_, ?_⟩
  · have hle := hrounds.le_value hfinite hquarter (by
      rw [hquarterValue, le_div_iff₀ hpos]
      norm_num
      linarith)
    rw [hquarterValue] at hle
    norm_num at hle ⊢
    exact hle
  · have hle := hrounds.value_le hfinite (isFinite_ofNat (n := 4) (by norm_num)) (by
      rw [show (OfNat.ofNat 4 : Binary64).value = 4 from hfour, div_le_iff₀ hpos]
      linarith)
    exact hle.trans_eq hfour
  · rw [← habove, not_lt]
    constructor
    -- the inverse of what is above two rounds to the number below a half, or to less
    · intro hle
      by_contra hlt
      have hnext := le_value_of_lt (m := 2 ^ 52) (e := -51) le_rfl (by
        norm_num
        exact not_le.mp hlt)
      let y : Binary64 := .finite false (2 ^ 53 - 1) (-54) (by decide)
      have hy : y.value = 1 / 2 - 2 ^ (-54 : ℤ) := by
        show ((2 ^ 53 - 1 : ℕ) : ℚ) * 2 ^ (-54 : ℤ) = _
        norm_num
      have hmost := hrounds.value_le hfinite (y := y) rfl (by
        rw [hy, div_le_iff₀ hpos]
        norm_num at hnext ⊢
        linarith)
      rw [hy] at hmost
      norm_num at hmost hle
      linarith
    · intro hle
      have hleast := hrounds.le_value hfinite hhalf (by
        rw [hhalfValue, le_div_iff₀ hpos]
        norm_num
        linarith)
      rw [hhalfValue] at hleast
      norm_num at hleast ⊢
      exact hleast

end Pitch.Valid

/-! ### Directives of tempo -/

namespace Filter

def tempoStart : List Char := "atempo=".toList

theorem exists_tempo_of_prefix {f : Filter} (h : tempoStart <+: f.text.toList) :
    ∃ x, f = .tempo x := by
  cases f with
  | tempo x => exact ⟨x, rfl⟩
  | _ => exact absurd (words_of_start rfl h) (by decide)

theorem text_tempo (x : Binary64) : (tempo x).text = "atempo=" ++ x.plain := by
  show String.join ["atempo=", x.plain] = _
  apply String.toList_inj.mp
  simp

end Filter

namespace Binary64

theorem value_quarter : (0.25 : Binary64).isFinite = true ∧ (0.25 : Binary64).value = 1 / 4 := by
  have h : (0.25 : Binary64) = .finite false (2 ^ 52) (-54) (by decide) := rfl
  rw [h]
  refine ⟨rfl, ?_⟩
  show ((2 ^ 52 : ℕ) : ℚ) * 2 ^ (-54 : ℤ) = _
  norm_num

theorem half_le_iff {x : Binary64} (hx : x.isFinite = true) : 0.5 ≤ x ↔ 1 / 2 ≤ x.value := by
  rw [le_iff value_half.1 hx, value_half.2]

theorem le_ofNat_iff {x : Binary64} (hx : x.isFinite = true) {n : ℕ} (hn : n < 2 ^ 53) :
    x ≤ OfNat.ofNat n ↔ x.value ≤ n := by
  rw [le_iff hx (isFinite_ofNat hn), show (OfNat.ofNat n : Binary64).value = n from value_ofNat hn]

end Binary64

/-- A factor that the engine is taken to accept. -/
def Binary64.InTempoRange (x : Binary64) : Prop := 0.5 ≤ x ∧ x ≤ 100

theorem Pitch.Valid.inTempoRange_compensation {p : Pitch} (h : p.Valid) :
    0.25 ≤ 1 / p.ratio ∧ 1 / p.ratio ≤ 4 ∧ ((1 / p.ratio).InTempoRange ↔ ¬1200 < p.hundredths) ∧
      (1 / p.ratio < 0.5 ↔ 1200 < p.hundredths) := by
  obtain ⟨hfinite, hleast, hmost, hhalf⟩ := h.compensation
  have hfour : 1 / p.ratio ≤ 4 := (le_ofNat_iff hfinite (n := 4) (by norm_num)).mpr hmost
  have hhundred : 1 / p.ratio ≤ 100 :=
    (le_ofNat_iff hfinite (n := 100) (by norm_num)).mpr (hmost.trans (by norm_num))
  refine ⟨?_, hfour, ?_, ?_⟩
  · rw [le_iff value_quarter.1 hfinite, value_quarter.2]
    exact hleast
  · rw [← hhalf, ← half_le_iff hfinite, Binary64.InTempoRange]
    exact and_iff_left hhundred
  · rw [lt_iff hfinite value_half.1, value_half.2, ← not_le, hhalf, not_not]

theorem Tempo.Valid.inTempoRange_factor {t : Tempo} (h : t.Valid) :
    t.factor.InTempoRange ∧ 0.25 ≤ t.factor ∧ t.factor ≤ 4 := by
  obtain ⟨hfinite, hlow, hhigh⟩ :=
    value_between value_half.1 (isFinite_ofNat (n := 2) (by norm_num)) h.factor
  rw [value_half.2] at hlow
  rw [show (OfNat.ofNat 2 : Binary64).value = 2 from value_ofNat (by norm_num)] at hhigh
  refine ⟨⟨h.factor.1, ?_⟩, ?_, ?_⟩
  · exact (le_ofNat_iff hfinite (n := 100) (by norm_num)).mpr (hhigh.trans (by norm_num))
  · rw [le_iff value_quarter.1 hfinite, value_quarter.2]
    linarith
  · exact (le_ofNat_iff hfinite (n := 4) (by norm_num)).mpr (hhigh.trans (by norm_num))

/-! ### Where the changes of tempo come from -/

/-- A filter that changes the tempo. -/
def Filter.IsTempo (f : Filter) : Prop := ∃ x, f = .tempo x

namespace Filter.IsTempo

variable {f : Filter}

theorem pitch {p : Pitch} (hf : f ∈ p.filters) (h : f.IsTempo) :
    p.preserveFormants = some true ∧ f = .tempo (1 / p.ratio) := by
  obtain ⟨x, rfl⟩ := h
  simp only [Pitch.filters, shift, List.cons_append, List.nil_append, List.mem_cons] at hf
  rcases hf with hf | hf | hf
  · cases hf
  · cases hf
  · split at hf
    · exact ⟨‹_›, List.mem_singleton.mp hf⟩
    · cases hf

theorem tempo {t : Tempo} (hf : f ∈ t.filters) (h : f.IsTempo) :
    t.preservePitch = some true ∧ f = .tempo t.factor := by
  obtain ⟨x, rfl⟩ := h
  unfold Tempo.filters at hf
  split at hf
  · exact ⟨‹_›, List.mem_singleton.mp hf⟩
  · simp [shift] at hf

theorem not_spectral {s : Spectral} (hf : f ∈ s.stages.flatten) : ¬f.IsTempo := by
  rintro ⟨x, rfl⟩
  unfold Spectral.stages at hf
  split at hf
  · cases hf
  · simp [Spectral.bands, mem_whenSet] at hf

theorem not_dynamics {d : Dynamics} (hf : f ∈ d.filters) : ¬f.IsTempo := by
  rintro ⟨x, rfl⟩
  simp [Dynamics.filters, mem_whenSet, Compressor.filter, Gate.filter, Limiter.filter] at hf

theorem not_spatial {s : Spatial} (hf : f ∈ s.filters) : ¬f.IsTempo := by
  rintro ⟨x, rfl⟩
  cases hd : s.delayTimeMs with
  | none => simp [Spatial.filters, mem_whenSet, hd, Spatial.reverbFilter] at hf
  | some ms =>
      simp only [Spatial.filters, hd, Option.elim_some, Spatial.delayFilters, List.mem_append,
        mem_whenSet, List.mem_cons, Spatial.reverbFilter] at hf
      split at hf <;> simp at hf

theorem not_modulation {m : Modulation} (hf : f ∈ m.filters) : ¬f.IsTempo := by
  rintro ⟨x, rfl⟩
  simp [Modulation.filters, mem_whenSet] at hf

end Filter.IsTempo

namespace Advanced

variable {a : Advanced}

/-- The changes of tempo are those of a shift that keeps formants and of a tempo that keeps the
pitch. -/
theorem tempo_cases {f : Filter} (hf : f ∈ a.stages.flatten) (h : f.IsTempo) :
    (∃ p ∈ a.pitch, p.preserveFormants = some true ∧ f = .tempo (1 / p.ratio)) ∨
      ∃ t ∈ a.tempo, t.preservePitch = some true ∧ f = .tempo t.factor := by
  rcases mem_stages.mp hf with ⟨p, hp, hf⟩ | ⟨t, ht, hf⟩ | ⟨s, -, hf⟩ | ⟨d, -, hf⟩ | ⟨s, -, hf⟩ |
    ⟨m, -, hf⟩
  · exact .inl ⟨p, hp, h.pitch hf⟩
  · exact .inr ⟨t, ht, h.tempo hf⟩
  · exact absurd h (Filter.IsTempo.not_spectral hf)
  · exact absurd h (Filter.IsTempo.not_dynamics hf)
  · exact absurd h (Filter.IsTempo.not_spatial hf)
  · exact absurd h (Filter.IsTempo.not_modulation hf)

/-- Every change of tempo of an accepted operation has a factor from a half to a hundred, unless it
makes up for a shift of pitch by more than an octave. Each such shift that keeps formants has one,
and its factor is below a half. -/
theorem tempo_in_range_unless_beyond_octave (h : form.Reads a) :
    (∀ f ∈ a.stages.flatten, Filter.tempoStart <+: f.text.toList →
      ∃ x, f = .tempo x ∧ f.text = "atempo=" ++ x.plain ∧ 0.25 ≤ x ∧ x ≤ 4 ∧
        (0.5 ≤ x ∧ x ≤ 100 ↔ ¬∃ p ∈ a.pitch, p.preserveFormants = some true ∧
          f = .tempo (1 / p.ratio) ∧ 1200 < p.hundredths)) ∧
    ∀ p ∈ a.pitch, p.preserveFormants = some true →
      .tempo (1 / p.ratio) ∈ a.stages.flatten ∧ (1 / p.ratio < 0.5 ↔ 1200 < p.hundredths) := by
  have hvalid := Form.valid_of_reads form_exact h
  constructor
  · intro f hf hstart
    have hbeyond : ∀ {x : Binary64}, f = .tempo x → x.InTempoRange →
        ¬∃ p ∈ a.pitch, p.preserveFormants = some true ∧ f = .tempo (1 / p.ratio) ∧
          1200 < p.hundredths := by
      rintro x rfl hx ⟨p, hp, -, heq, hlarge⟩
      obtain ⟨-, -, hrange, -⟩ := (hvalid.pitch p hp).inTempoRange_compensation
      cases heq
      exact hrange.mp hx hlarge
    rcases tempo_cases hf (Filter.exists_tempo_of_prefix hstart) with
      ⟨p, hp, hkeeps, rfl⟩ | ⟨t, ht, -, rfl⟩
    · obtain ⟨hleast, hmost, hrange, -⟩ := (hvalid.pitch p hp).inTempoRange_compensation
      refine ⟨_, rfl, Filter.text_tempo _, hleast, hmost, hbeyond rfl, fun hno => ?_⟩
      exact hrange.mpr fun hlarge => hno ⟨p, hp, hkeeps, rfl, hlarge⟩
    · obtain ⟨hrange, hleast, hmost⟩ := (hvalid.tempo t ht).inTempoRange_factor
      exact ⟨_, rfl, Filter.text_tempo _, hleast, hmost, hbeyond rfl, fun _ => hrange⟩
  · intro p hp hkeeps
    refine ⟨mem_stages.mpr (.inl ⟨p, hp, ?_⟩), (hvalid.pitch p hp).inTempoRange_compensation.2.2.2⟩
    rw [Pitch.filters, if_pos hkeeps]
    exact List.mem_append_right _ (List.mem_singleton_self _)

/-- A shift by an octave and some hundredths of a semitone that keeps the formants, and a tempo. -/
def octaveShift (cents : Binary64) : Value :=
  .object [("pitch", .object [("semitones", .number 12), ("cents", .number cents),
    ("preserve_formants", .bool true)]),
    ("tempo", .object [("factor", .number 0.5), ("preserve_pitch", .bool true)])]

/-- A shift by less than an octave and a change of tempo by a half. -/
theorem tempo_in_range_of_less :
    ∃ a, form.Reads a ∧
      a.stages.flatten.map Filter.text = ["asetrate=44100*1.8877486253633868",
        "aresample=44100", "atempo=0.5297315471796477", "atempo=0.5"] ∧
      ∀ f ∈ a.stages.flatten, Filter.tempoStart <+: f.text.toList →
        ∃ x, f = .tempo x ∧ 0.5 ≤ x ∧ x ≤ 100 := by
  have hread : form.validate (octaveShift (-100)) = .ok
      { pitch := some ⟨12, some (-100), some true⟩, tempo := some ⟨0.5, some true⟩ } := by
    decide +kernel
  refine ⟨_, .inl ⟨_, hread⟩, by decide +kernel, fun f hf hstart => ?_⟩
  obtain ⟨x, hx, -, -, -, hrange⟩ :=
    (tempo_in_range_unless_beyond_octave (.inl ⟨_, hread⟩)).1 f hf hstart
  refine ⟨x, hx, hrange.mpr ?_⟩
  rintro ⟨p, hp, -, -, hlarge⟩
  obtain rfl := Option.some.inj hp
  exact absurd hlarge (by decide +kernel)

/-- A shift by thirteen semitones is made up for by a factor below a half. -/
theorem not_tempo_in_range :
    form.validate (octaveShift 100) = .ok
        { pitch := some ⟨12, some 100, some true⟩, tempo := some ⟨0.5, some true⟩ } ∧
      (stages { pitch := some ⟨12, some 100, some true⟩
                tempo := some ⟨0.5, some true⟩ }).map Stage.text =
        ["asetrate=44100*2.1189261887185906", "aresample=44100", "atempo=0.4719371563408467",
          "atempo=0.5"] ∧
      ¬∀ a : Advanced, form.Reads a → ∀ f ∈ a.stages.flatten,
        Filter.tempoStart <+: f.text.toList → ∃ x, f = .tempo x ∧ 0.5 ≤ x ∧ x ≤ 100 := by
  have hread : form.validate (octaveShift 100) = .ok
      { pitch := some ⟨12, some 100, some true⟩, tempo := some ⟨0.5, some true⟩ } := by
    decide +kernel
  refine ⟨hread, by decide +kernel, fun h => ?_⟩
  let p : Pitch := ⟨12, some 100, some true⟩
  obtain ⟨x, heq, hlow, -⟩ := h _ (.inl ⟨_, hread⟩) (.tempo (1 / p.ratio))
    (List.mem_cons_of_mem _ (List.mem_cons_of_mem _ List.mem_cons_self)) (by decide +kernel)
  cases heq
  exact absurd hlow (by decide +kernel)

end Advanced

end Soundworks
