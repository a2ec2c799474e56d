import Mathlib.Data.Int.ModEq
import Soundworks.Proofs.Expansion.Variation
/-!
Variations are reproducible. Each one is made from its own piece of the stream of the seed, so a set
does not depend on how many variations come after it, nor on how the generator was seeded.
-/

namespace Soundworks

namespace VariationRanges

def piece (r : VariationRanges) (g : Lcg) (i : Nat) : Variation :=
  .ofDraws r.amount (g.draws (i * r.drawCount) r.drawCount)

variable {r : VariationRanges} {base : OperationSet}

theorem Valid.valid_piece (h : r.Valid) (g : Lcg) (i : Nat) : (r.piece g i).Valid := by
  have hmem : r.piece g i ∈ Variation.drawMany r (i + 1) g := by
    rw [Variation.drawMany_eq]
    exact List.mem_map_of_mem (List.mem_range.mpr i.lt_succ_self)
  exact Variation.valid_of_mem_drawMany h hmem

theorem Valid.generate_eq_pieces (h : r.Valid) (hbase : base.Valid) (chosen : Int) :
    r.generate base chosen = .ok (r.seed.getD chosen, (List.range r.count.toNat).map fun i =>
      (r.piece (.ofSeed (r.seed.getD chosen)) i).onto base) := by
  rw [h.generate_eq hbase, Variation.drawMany_eq, List.map_map]
  rfl

/-- Variations are reproducible and stable in their prefixes: for every set of variations and every
base that is accepted from anything, and whatever seed is chosen, each variation is the base with
what is made from its own draws of the stream of the seed, taken in the order of the settings. The
same variations come from every seed that agrees modulo `2 ^ 32`, be it given or chosen, and so from
the seed of the answer; and a smaller count gives the first of them. -/
theorem variations_reproducible {source source' : Source} {v w : Value}
    (hr : form.read source v = .ok r) (hbase : OperationSet.form.read source' w = .ok base)
    (chosen : Int) :
    ∃ seed sets, seed = r.seed.getD chosen ∧ (sets.length : Int) = r.count ∧
      r.generate base chosen = .ok (seed, sets) ∧
      (∀ i (hi : i < sets.length), (Variation.ofDraws r.amount
        ((Lcg.ofSeed seed).draws (i * r.drawCount) r.drawCount)).applyTo base = .ok sets[i]) ∧
      (∀ given chosen', given.getD chosen' ≡ seed [ZMOD 2 ^ 32] →
        { r with seed := given }.generate base chosen' = .ok (given.getD chosen', sets)) ∧
      ∀ count, 1 ≤ count → count ≤ r.count →
        { r with count := count }.generate base chosen = .ok (seed, sets.take count.toNat) := by
  have h : r.Valid := form_exact.sound hr
  have hbase : base.Valid := OperationSet.form_exact.sound hbase
  have hcount := h.count.1
  refine ⟨_, _, rfl, ?_, h.generate_eq_pieces hbase chosen, fun i hi => ?_,
    fun given chosen' hgiven => ?_, fun count hleast hmost => ?_⟩
  · rw [List.length_map, List.length_range]
    omega
  · rw [List.getElem_map, List.getElem_range]
    exact Variation.applyTo_eq hbase (h.valid_piece _ i)
  · have hseeded : { r with seed := given }.Valid := { h with }
    have hstream := Lcg.ofSeed_congr hgiven
    rw [hseeded.generate_eq_pieces hbase, hstream]
    rfl
  · have hcounted : { r with count := count }.Valid :=
      { h with count := ⟨hleast, hmost.trans h.count.2⟩ }
    rw [hcounted.generate_eq_pieces hbase, ← List.map_take, List.take_range,
      Nat.min_eq_left (Int.toNat_le_toNat hmost)]
    rfl

/-- Two variations with draws for the shelves and the gain. -/
def shelvedVoice : Value :=
  .object
    [("count", .integer 2), ("spectral_range", .integer 3), ("volume_range", .number 0.5),
      ("seed", .integer 42)]

def shelved : VariationRanges where
  count := 2
  spectralRange := some 3
  volumeRange := some 0.5
  seed := some 42

/-- The same two come without a seed, if one is chosen that is greater by the modulus. The second
one is made from the three draws after the first three. -/
theorem variations_of_shelved :
    form.read .document shelvedVoice = .ok shelved ∧
      ∃ first second, shelved.generate {} 0 = .ok (42, [first, second]) ∧
        (Variation.ofDraws shelved.amount ((Lcg.ofSeed 42).draws 3 3)).applyTo {} = .ok second ∧
        { shelved with seed := none }.generate {} 4294967338 = .ok (4294967338, [first, second]) ∧
        { shelved with count := 1 }.generate {} 0 = .ok (42, [first]) := by
  have hread : form.read .document shelvedVoice = .ok shelved := by decide +kernel
  have hempty : OperationSet.form.read .document (.object []) = .ok {} := by decide +kernel
  obtain ⟨seed, sets, rfl, hlength, hsets, hpiece, hagain, hless⟩ :=
    variations_reproducible hread hempty 0
  obtain ⟨first, second, rfl⟩ := List.length_eq_two.mp (Int.ofNat_inj.mp hlength)
  exact ⟨hread, first, second, hsets, hpiece 1 Nat.one_lt_two, hagain none 4294967338 (by decide),
    hless 1 (by decide) (by decide)⟩

end VariationRanges

end Soundworks
