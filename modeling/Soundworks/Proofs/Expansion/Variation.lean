import Soundworks.Proofs.Expansion.Bounds
/-!
Variations are accepted. Whatever a variation draws is within its range and so within the bounds of
the operations, and it fits onto every accepted base.
-/

namespace Soundworks

open Binary64

namespace Variation

/-- What is drawn is within the bounds of the operations it is drawn for. -/
structure Valid (v : Variation) : Prop where
  semitones : ∀ x ∈ v.semitones, -12 ≤ x ∧ x ≤ 12
  shelves : ∀ x ∈ v.shelves, (-12 ≤ x.1 ∧ x.1 ≤ 12) ∧ -12 ≤ x.2 ∧ x.2 ≤ 12
  tempo : ∀ x ∈ v.tempo, 0.5 ≤ x ∧ x ≤ 2
  gain : ∀ x ∈ v.gain, -60 ≤ x ∧ x ≤ 20

/-! ### Draws -/

/-- A number of at most an amount, where the amount is at most `n` and that at most `m`. -/
theorem between_of_abs_le {x amount : Binary64} {n m : ℕ} (hm : m < 2 ^ 53)
    (h : x.abs ≤ amount) (hrange : 0 ≤ amount ∧ amount ≤ OfNat.ofNat n) (hnm : n ≤ m) :
    -OfNat.ofNat m ≤ x ∧ x ≤ OfNat.ofNat m := by
  have hn := hnm.trans_lt hm
  obtain ⟨hamount, -, hmost⟩ := value_between (isFinite_zero false) (isFinite_ofNat hn) hrange
  have hx := isFinite_of_abs_le hamount h
  rw [le_iff ((isFinite_abs x).trans hx) hamount, value_abs] at h
  refine (between_iff hm).mpr ⟨hx, ?_⟩
  calc |x.value| ≤ amount.value := h
    _ ≤ n := hmost.trans_eq (value_ofNat hn)
    _ ≤ m := by exact_mod_cast hnm

theorem drawTempo_between {x : Binary64} (h : 0.9 ≤ x ∧ x ≤ 1.1) : 0.5 ≤ x ∧ x ≤ 2 := by
  have hleast : (0.9 : Binary64).isFinite = true := rfl
  have hmost : (1.1 : Binary64).isFinite = true := rfl
  have hhalf := value_half.1
  have htwo := isFinite_ofNat (n := 2) (by norm_num)
  obtain ⟨hx, hlow, hhigh⟩ := value_between hleast hmost h
  have hbelow := (le_iff hhalf hleast).mp (by decide +kernel)
  have habove := (le_iff hmost htwo).mp (by decide +kernel)
  exact ⟨(le_iff hhalf hx).mpr (hbelow.trans hlow), (le_iff hx htwo).mpr (hhigh.trans habove)⟩

theorem valid_draw {r : VariationRanges} (h : r.Valid) (g : Lcg) : (draw r g).1.Valid := by
  have hwithin := fun (k : Drawn) (x : Binary64) => h.within_of_drawn (g := g) (k := k) (x := x)
  constructor
  case semitones =>
    intro x hx
    obtain ⟨amount, hk, hx⟩ := hwithin .semitones x hx
    have hrange := h.pitchRange amount (VariationRanges.mem_of_nonzero hk)
    exact between_of_abs_le (by norm_num) hx hrange le_rfl
  case shelves =>
    intro x hx
    obtain ⟨amount, hk, hbass⟩ := hwithin .bass x.1 (Option.mem_map_of_mem _ hx)
    obtain ⟨amount', hk', htreble⟩ := hwithin .treble x.2 (Option.mem_map_of_mem _ hx)
    have hrange := fun amount hk =>
      h.spectralRange amount (VariationRanges.mem_of_nonzero hk)
    exact ⟨between_of_abs_le (by norm_num) hbass (hrange amount hk) (by norm_num),
      between_of_abs_le (by norm_num) htreble (hrange amount' hk') (by norm_num)⟩
  case tempo =>
    intro x hx
    obtain ⟨amount, -, hx⟩ := hwithin .factor x hx
    exact drawTempo_between hx
  case gain =>
    intro x hx
    obtain ⟨amount, hk, hx⟩ := hwithin .gain x hx
    have hrange := h.volumeRange amount (VariationRanges.mem_of_nonzero hk)
    exact ⟨(between_of_abs_le (m := 60) (by norm_num) hx hrange (by norm_num)).1,
      (between_of_abs_le (m := 20) (by norm_num) hx hrange (by norm_num)).2⟩

theorem valid_of_mem_drawMany {r : VariationRanges} (h : r.Valid) {n : Nat} {g : Lcg}
    {v : Variation} (hv : v ∈ drawMany r n g) : v.Valid := by
  obtain ⟨g', rfl⟩ := exists_draw_of_mem hv
  exact valid_draw h g'

/-! ### A variation onto a base -/

/-- What a variation puts in the place of components of a base. -/
def drawn (v : Variation) : Advanced where
  pitch := v.semitones.map fun s => { semitones := s }
  spectral := v.shelves.map fun x => { bassBoost := some x.1, trebleBoost := some x.2 }
  tempo := v.tempo.map fun f => { factor := f, preservePitch := some true }

theorem Valid.drawn {v : Variation} (h : v.Valid) : v.drawn.Valid where
  pitch p hp := by
    obtain ⟨s, hs, rfl⟩ := Option.map_eq_some_iff.mp hp
    exact ⟨h.semitones s hs, fun _ hx => nomatch hx⟩
  spectral p hp := by
    obtain ⟨x, hx, rfl⟩ := Option.map_eq_some_iff.mp hp
    exact
      { bassBoost := Fallible.forall_mem_some (h.shelves x hx).1
        trebleBoost := Fallible.forall_mem_some (h.shelves x hx).2
        midCut := fun _ hx => nomatch hx
        warmth := fun _ hx => nomatch hx
        brightness := fun _ hx => nomatch hx }
  tempo p hp := by
    obtain ⟨f, hf, rfl⟩ := Option.map_eq_some_iff.mp hp
    exact ⟨h.tempo f hf⟩
  harmonics _ hx := nomatch hx
  dynamics _ hx := nomatch hx
  spatial _ hx := nomatch hx
  modulation _ hx := nomatch hx
  variations _ hx := nomatch hx
  layering _ hx := nomatch hx

theorem components_eq {v : Variation} (h : v.Valid) : v.components = .ok v.drawn := by
  have hdrawn := h.drawn
  have hpitch : ∀ s ∈ v.semitones, Pitch.form.accept { semitones := s } =
      .ok { semitones := s } := fun s hs =>
    Form.accept_eq_ok Pitch.form_exact (hdrawn.pitch _ (Option.mem_map_of_mem _ hs))
  have hspectral : ∀ x ∈ v.shelves, Spectral.form.accept
      { bassBoost := some x.1, trebleBoost := some x.2 } =
      .ok { bassBoost := some x.1, trebleBoost := some x.2 } := fun x hx =>
    Form.accept_eq_ok Spectral.form_exact (hdrawn.spectral _ (Option.mem_map_of_mem _ hx))
  have htempo : ∀ f ∈ v.tempo, Tempo.form.accept { factor := f, preservePitch := some true } =
      .ok { factor := f, preservePitch := some true } := fun f hf =>
    Form.accept_eq_ok Tempo.form_exact (hdrawn.tempo _ (Option.mem_map_of_mem _ hf))
  unfold components
  rw [Fallible.mapM_some_eq hpitch, Fallible.mapM_some_eq hspectral, Fallible.mapM_some_eq htempo]
  rfl

/-- A component that was drawn, or else that of the base. -/
theorem mem_orElse {α : Type} {x y : Option α} {a : α} (h : a ∈ (x <|> y)) : a ∈ x ∨ a ∈ y := by
  cases x with
  | none => exact .inr h
  | some b => exact .inl h

/-- The advanced operations of a base with the drawn components in their place. -/
def ontoAdvanced (v : Variation) (base : Option Advanced) : Advanced :=
  { base.getD {} with
    pitch := v.drawn.pitch <|> (base.getD {}).pitch
    spectral := v.drawn.spectral <|> (base.getD {}).spectral
    tempo := v.drawn.tempo <|> (base.getD {}).tempo }

def ontoVolume (v : Variation) (base : Option Volume) : Option Volume :=
  v.gain.elim base fun db => some { base.getD {} with adjustDb := some db }

def onto (v : Variation) (base : OperationSet) : OperationSet :=
  { base with
    advanced := if v.ontoAdvanced base.advanced = {} then none
      else some (v.ontoAdvanced base.advanced)
    volume := v.ontoVolume base.volume }

theorem Valid.ontoAdvanced {base : Option Advanced} (hbase : ∀ a ∈ base, a.Valid)
    {v : Variation} (h : v.Valid) : (v.ontoAdvanced base).Valid := by
  have hunder : (base.getD {}).Valid := by
    cases base with
    | none => constructor <;> exact fun _ hx => nomatch hx
    | some a => exact hbase a rfl
  exact
    { hunder with
      pitch := fun x hx => (mem_orElse hx).elim (h.drawn.pitch x) (hunder.pitch x)
      spectral := fun x hx => (mem_orElse hx).elim (h.drawn.spectral x) (hunder.spectral x)
      tempo := fun x hx => (mem_orElse hx).elim (h.drawn.tempo x) (hunder.tempo x) }

theorem Valid.ontoVolume {base : Option Volume} (hbase : ∀ x ∈ base, x.Valid)
    {v : Variation} (h : v.Valid) : ∀ x ∈ v.ontoVolume base, x.Valid := by
  unfold Variation.ontoVolume
  cases hgain : v.gain with
  | none => exact hbase
  | some db => exact Fallible.forall_mem_some ⟨Fallible.forall_mem_some (h.gain db hgain)⟩

theorem merge_eq {base : Option Advanced} (hbase : ∀ a ∈ base, a.Valid) {v : Variation}
    (h : v.Valid) : merge base v.drawn =
      .ok (if v.ontoAdvanced base = {} then none else some (v.ontoAdvanced base)) := by
  have hdef : merge base v.drawn = if v.ontoAdvanced base = {} then .ok none
      else (Advanced.form.accept (v.ontoAdvanced base)).map some := rfl
  rw [hdef, Form.accept_eq_ok Advanced.form_exact (h.ontoAdvanced hbase)]
  split <;> rfl

theorem mergeVolume_eq {base : Option Volume} (hbase : ∀ x ∈ base, x.Valid) {v : Variation}
    (h : v.Valid) : mergeVolume base v.gain = .ok (v.ontoVolume base) := by
  have hvalid := h.ontoVolume hbase
  unfold mergeVolume ontoVolume at *
  cases hgain : v.gain with
  | none => rfl
  | some db =>
      rw [hgain] at hvalid
      exact Fallible.map_eq_ok.mpr
        ⟨_, Form.accept_eq_ok Volume.form_exact (hvalid _ rfl), rfl⟩

theorem Valid.onto {base : OperationSet} (hbase : base.Valid) {v : Variation} (h : v.Valid) :
    (v.onto base).Valid where
  volume := h.ontoVolume hbase.volume
  format := hbase.format
  effects := hbase.effects
  advanced := by
    unfold Variation.onto
    dsimp only
    split
    · exact fun _ hx => nomatch hx
    · exact Fallible.forall_mem_some (h.ontoAdvanced hbase.advanced)

theorem applyTo_eq {base : OperationSet} (hbase : base.Valid) {v : Variation} (h : v.Valid) :
    v.applyTo base = .ok (v.onto base) := by
  simp only [applyTo, Fallible.bind_eq_ok, Fallible.pure_eq_ok]
  exact ⟨v.drawn, components_eq h, _, merge_eq hbase.advanced h, _, mergeVolume_eq hbase.volume h,
    rfl⟩

end Variation

namespace VariationRanges.Valid

variable {r : VariationRanges} {base : OperationSet}

/-- The variations of an accepted base are the draws onto it. -/
theorem expand_eq (h : r.Valid) (hbase : base.Valid) (seed : Int) :
    r.expand base seed =
      .ok ((Variation.drawMany r r.count.toNat (.ofSeed seed)).map (·.onto base)) := by
  refine Fallible.mapM_eq_ok.mpr (List.forall₂_map_right_iff.mpr (List.forall₂_same.mpr ?_))
  exact fun v hv => Variation.applyTo_eq hbase (Variation.valid_of_mem_drawMany h hv)

/-- A set of variations of an accepted base has its count, and all of them are accepted. -/
theorem exists_expand (h : r.Valid) (hbase : base.Valid) (seed : Int) :
    ∃ sets, r.expand base seed = .ok sets ∧ (sets.length : Int) = r.count ∧
      ∀ o ∈ sets, o.Valid := by
  have hcount := h.count.1
  refine ⟨_, h.expand_eq hbase seed, ?_, fun o ho => ?_⟩
  · rw [Variation.drawMany_eq, List.length_map, List.length_map, List.length_range]
    omega
  · obtain ⟨v, hv, rfl⟩ := List.mem_map.mp ho
    exact (Variation.valid_of_mem_drawMany h hv).onto hbase

theorem generate_eq (h : r.Valid) (hbase : base.Valid) (chosen : Int) :
    r.generate base chosen = .ok (r.seed.getD chosen,
      (Variation.drawMany r r.count.toNat (.ofSeed (r.seed.getD chosen))).map (·.onto base)) := by
  rw [VariationRanges.generate, h.expand_eq hbase]
  rfl

theorem exists_generate (h : r.Valid) (hbase : base.Valid) (chosen : Int) :
    ∃ sets, r.generate base chosen = .ok (r.seed.getD chosen, sets) ∧
      (sets.length : Int) = r.count ∧ ∀ o ∈ sets, o.Valid := by
  obtain ⟨sets, hsets, hlength, hvalid⟩ := h.exists_expand hbase (r.seed.getD chosen)
  exact ⟨sets, by rw [VariationRanges.generate, hsets]; rfl, hlength, hvalid⟩

theorem exists_draw_of_generate (h : r.Valid) (hbase : base.Valid) {chosen seed : Int}
    {sets : List OperationSet} (hsets : r.generate base chosen = .ok (seed, sets))
    {o : OperationSet} (ho : o ∈ sets) : ∃ g, o = (Variation.draw r g).1.onto base := by
  rw [h.generate_eq hbase, Except.ok.injEq, Prod.mk.injEq] at hsets
  rw [← hsets.2] at ho
  obtain ⟨v, hv, rfl⟩ := List.mem_map.mp ho
  obtain ⟨g, rfl⟩ := Variation.exists_draw_of_mem hv
  exact ⟨g, rfl⟩

end VariationRanges.Valid

/-! ### The settings of a variation -/

def Drawn.get? (o : OperationSet) : Drawn → Option Binary64
  | .semitones => (o.advanced.getD {}).pitch.map (·.semitones)
  | .bass => (o.advanced.getD {}).spectral.bind (·.bassBoost)
  | .treble => (o.advanced.getD {}).spectral.bind (·.trebleBoost)
  | .factor => (o.advanced.getD {}).tempo.map (·.factor)
  | .gain => (o.volume.getD {}).adjustDb

namespace Variation

theorem advanced_onto (v : Variation) (base : OperationSet) :
    (v.onto base).advanced.getD {} = v.ontoAdvanced base.advanced := by
  unfold onto
  dsimp only
  split
  · exact Eq.symm ‹_›
  · rfl

theorem volume_onto (v : Variation) (base : OperationSet) :
    (v.onto base).volume.getD {} =
      { base.volume.getD {} with adjustDb := v.gain.or (base.volume.getD {}).adjustDb } := by
  unfold onto ontoVolume
  cases v.gain <;> rfl

theorem get?_onto (v : Variation) (base : OperationSet) (k : Drawn) :
    k.get? (v.onto base) = (v.drawn? k).or (k.get? base) := by
  cases k <;> simp only [Drawn.get?, advanced_onto, ontoAdvanced, drawn, drawn?]
  case semitones => cases v.semitones <;> rfl
  case bass => cases v.shelves <;> rfl
  case treble => cases v.shelves <;> rfl
  case factor => cases v.tempo <;> rfl
  case gain => rw [volume_onto]

end Variation

namespace VariationRanges

/-- Variations are within their ranges and never fail: for every set of variations and every base
that is accepted from anything, and whatever seed is chosen, there are as many variations as the
set counts, every one passes the checks of an operation set as it is, and every setting that has a
range other than zero is within that range. -/
theorem variations_within_ranges {r : VariationRanges} {base : OperationSet}
    {source source' : Source} {v w : Value} (hr : form.read source v = .ok r)
    (hbase : OperationSet.form.read source' w = .ok base) (chosen : Int) :
    ∃ sets, r.generate base chosen = .ok (r.seed.getD chosen, sets) ∧
      (sets.length : Int) = r.count ∧
      ∀ o ∈ sets, OperationSet.form.accept o = .ok o ∧
        ∀ k amount, r.amount k = some amount → ∃ x, k.get? o = some x ∧ k.Within amount x := by
  have hvalid : r.Valid := form_exact.sound hr
  have hbase : base.Valid := OperationSet.form_exact.sound hbase
  obtain ⟨sets, hsets, hlength, haccepted⟩ := hvalid.exists_generate hbase chosen
  refine ⟨sets, hsets, hlength, fun o ho => ⟨?_, fun k amount hk => ?_⟩⟩
  · exact Form.accept_eq_ok OperationSet.form_exact (haccepted o ho)
  · obtain ⟨g, rfl⟩ := hvalid.exists_draw_of_generate hbase hsets ho
    obtain ⟨x, hx, hwithin⟩ := hvalid.exists_drawn hk g
    exact ⟨x, by rw [Variation.get?_onto, hx, Option.some_or], hwithin⟩

/-- The widest ranges, with a seed that takes more than 64 bits. -/
def widestVoice : Value :=
  .object
    [("count", .integer 3), ("pitch_range", .integer 12), ("volume_range", .text "1e1"),
      ("spectral_range", .number 6), ("timing_range", .number 100000),
      ("seed", .integer (-1180591620717411303424))]

def widest : VariationRanges where
  count := 3
  pitchRange := some 12
  volumeRange := some 10
  spectralRange := some 6
  timingRange := some 100000
  seed := some (-1180591620717411303424)

/-- Three variations over nothing, all within an octave up or down and a tenth of the tempo. -/
theorem variations_of_widest :
    form.read .document widestVoice = .ok widest ∧
      ∃ sets, widest.generate {} 0 = .ok (-1180591620717411303424, sets) ∧
        sets.length = (3 : Int) ∧
        ∀ o ∈ sets, (∃ x, Drawn.semitones.get? o = some x ∧ x.abs ≤ 12) ∧
          ∃ x, Drawn.factor.get? o = some x ∧ 0.9 ≤ x ∧ x ≤ 1.1 := by
  have hread : form.read .document widestVoice = .ok widest := by decide +kernel
  have hempty : OperationSet.form.read .document (.object []) = .ok {} := by decide +kernel
  obtain ⟨sets, hsets, hlength, hwithin⟩ := variations_within_ranges hread hempty 0
  refine ⟨hread, sets, hsets, hlength, fun o ho => ⟨?_, ?_⟩⟩
  · obtain ⟨x, hx, hbound⟩ := (hwithin o ho).2 .semitones 12 (by decide +kernel)
    exact ⟨x, hx, by rwa [Drawn.Within] at hbound⟩
  · obtain ⟨x, hx, hbound⟩ := (hwithin o ho).2 .factor 100000 (by decide +kernel)
    exact ⟨x, hx, by rwa [Drawn.Within] at hbound⟩

end VariationRanges

end Soundworks
