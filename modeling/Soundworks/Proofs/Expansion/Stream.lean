import Mathlib.Data.List.Basic
import Mathlib.Logic.Function.Iterate
import Soundworks.Expansion.Variation
/-!
The stream that variations are drawn from. The settings that have a range take one draw each, in
the order of the settings, so a variation is made from as many draws as there are such settings,
and the variations of a set from one such piece of the stream after the other.
-/

namespace Soundworks

namespace Lcg

/-- A draw of the stream of a generator; the first one has the number zero. -/
def drawAt (g : Lcg) (n : Nat) : Binary64 := (step^[n] g).next.1

/-- Draws of the stream of a generator, from one on. -/
def draws (g : Lcg) (start count : Nat) : List Binary64 := (List.range' start count).map g.drawAt

theorem spread_eq (amount : Binary64) (g : Lcg) :
    g.spread amount = ((g.drawAt 0 - 0.5) * 2 * amount, g.step) := by
  rw [spread, drawAt, Function.iterate_zero_apply, next]

theorem drawAt_step (g : Lcg) (n : Nat) : g.step.drawAt n = g.drawAt (n + 1) := by
  rw [drawAt, drawAt, Function.iterate_succ_apply]

theorem draws_iterate (g : Lcg) (m start count : Nat) :
    (step^[m] g).draws start count = g.draws (m + start) count := by
  rw [draws, draws, ← List.map_add_range', List.map_map]
  refine List.map_congr_left fun n _ => ?_
  rw [drawAt, Function.comp_apply, drawAt, Nat.add_comm, Function.iterate_add_apply]

theorem length_draws (g : Lcg) (start count : Nat) : (g.draws start count).length = count := by
  rw [draws, List.length_map, List.length_range']

theorem ofSeed_congr {a b : Int} (h : a % modulus = b % modulus) : ofSeed a = ofSeed b := by
  rw [ofSeed, ofSeed, h]

end Lcg

/-- A setting that may be drawn for a variation. -/
inductive Drawn where
  | semitones | bass | treble | factor | gain
  deriving DecidableEq

namespace Drawn

def all : List Drawn := [.semitones, .bass, .treble, .factor, .gain]

/-- What a draw between zero and one stands for, if the range goes up to an amount. -/
def ofDraw (amount x : Binary64) : Drawn → Binary64
  | .factor => 1 + (x - 0.5) * 0.2
  | .semitones | .bass | .treble | .gain => (x - 0.5) * 2 * amount

/-- The settings that are drawn, if each has the amount that is given for it. -/
def active (amount : Drawn → Option Binary64) : List Drawn := all.filter fun k => (amount k).isSome

/-- A setting that is made from draws. It takes the draw that has its place among the settings that
are drawn. -/
def made (k : Drawn) (amount : Drawn → Option Binary64) (xs : List Binary64) : Option Binary64 :=
  (amount k).bind fun a => xs[(active amount).idxOf k]?.map fun x => k.ofDraw a x

end Drawn

namespace Variation

def ofDraws (amount : Drawn → Option Binary64) (xs : List Binary64) : Variation where
  semitones := Drawn.semitones.made amount xs
  shelves := do
    let bass ← Drawn.bass.made amount xs
    let treble ← Drawn.treble.made amount xs
    pure (bass, treble)
  tempo := Drawn.factor.made amount xs
  gain := Drawn.gain.made amount xs

def drawn? (v : Variation) : Drawn → Option Binary64
  | .semitones => v.semitones
  | .bass => v.shelves.map (·.1)
  | .treble => v.shelves.map (·.2)
  | .factor => v.tempo
  | .gain => v.gain

end Variation

namespace VariationRanges

/-- The amount up to which a setting is drawn, if it is drawn. -/
def amount (r : VariationRanges) : Drawn → Option Binary64
  | .semitones => nonzero r.pitchRange
  | .bass | .treble => nonzero r.spectralRange
  | .factor => nonzero r.timingRange
  | .gain => nonzero r.volumeRange

def drawCount (r : VariationRanges) : Nat := (Drawn.active r.amount).length

end VariationRanges

namespace Variation

theorem drawShelves_eq (amount : Binary64) (g : Lcg) :
    drawShelves amount g =
      (((g.drawAt 0 - 0.5) * 2 * amount, (g.drawAt 1 - 0.5) * 2 * amount), g.step.step) := by
  simp only [drawShelves, Lcg.spread_eq, Lcg.drawAt_step]

theorem drawTempo_eq (amount : Binary64) (g : Lcg) :
    drawTempo amount g = (1 + (g.drawAt 0 - 0.5) * 0.2, g.step) := by
  rw [drawTempo, Lcg.next, Lcg.drawAt, Function.iterate_zero_apply, Lcg.next]

theorem draw_eq (r : VariationRanges) (g : Lcg) :
    draw r g = (ofDraws r.amount (g.draws 0 r.drawCount), Lcg.step^[r.drawCount] g) := by
  unfold draw ofDraws Drawn.made VariationRanges.drawCount Drawn.active
  -- which settings are drawn before another one depends on all four ranges
  cases h₁ : nonzero r.pitchRange <;> cases h₂ : nonzero r.spectralRange <;>
    cases h₃ : nonzero r.timingRange <;> cases h₄ : nonzero r.volumeRange <;>
    simp only [drawWithin, drawShelves_eq, drawTempo_eq, Lcg.spread_eq, Lcg.drawAt_step, Lcg.draws,
      List.range'_succ, List.range'_zero, VariationRanges.amount, Drawn.all, Drawn.ofDraw,
      h₁, h₂, h₃, h₄, List.filter_cons, List.filter_nil, Option.isSome_some, Option.isSome_none,
      if_true, Bool.false_eq_true, if_false, List.length_cons, List.length_nil,
      Function.iterate_succ_apply, Function.iterate_zero_apply, Option.bind_some, Option.bind_none,
      ne_eq, reduceCtorEq, not_false_eq_true, List.idxOf_cons_self, List.idxOf_cons_ne] <;>
    rfl

/-- Variations are made from one piece of the stream after the other. -/
theorem drawMany_eq (r : VariationRanges) (n : Nat) (g : Lcg) :
    drawMany r n g = (List.range n).map fun i =>
      ofDraws r.amount (g.draws (i * r.drawCount) r.drawCount) := by
  induction n generalizing g with
  | zero => rfl
  | succ n ih =>
      rw [drawMany, draw_eq]
      simp only [ih, Lcg.draws_iterate, List.range_succ_eq_map, List.map_cons, List.map_map,
        Nat.zero_mul, Function.comp_def, Nat.succ_mul, Nat.add_comm]

theorem exists_draw_of_mem {r : VariationRanges} {n : Nat} {g : Lcg} {v : Variation}
    (h : v ∈ drawMany r n g) : ∃ g', v = (draw r g').1 := by
  induction n generalizing g with
  | zero => cases h
  | succ n ih =>
      rcases List.mem_cons.mp h with rfl | h
      · exact ⟨g, rfl⟩
      · exact ih h

end Variation

/-! ### What a variation holds -/

namespace Drawn

variable {amount : Drawn → Option Binary64} {xs : List Binary64}

theorem exists_made (hxs : xs.length = (active amount).length) {k : Drawn} {a : Binary64}
    (hk : amount k = some a) : ∃ x ∈ xs, k.made amount xs = some (k.ofDraw a x) := by
  have hmem : k ∈ active amount := by
    rw [active, List.mem_filter, hk]
    exact ⟨by cases k <;> decide, rfl⟩
  have hlt : (active amount).idxOf k < xs.length := hxs ▸ List.idxOf_lt_length_of_mem hmem
  refine ⟨xs[(active amount).idxOf k], List.getElem_mem hlt, ?_⟩
  rw [made, hk, Option.bind_some, List.getElem?_eq_getElem hlt, Option.map_some]

theorem made_of_none {k : Drawn} (hk : amount k = none) : k.made amount xs = none := by
  rw [made, hk, Option.bind_none]

end Drawn

namespace Variation

/-- A variation that is made from enough draws holds the settings that are drawn; the shelves have
one range, so none of them is drawn without the other. -/
theorem drawn?_ofDraws {r : VariationRanges} {xs : List Binary64} (hxs : xs.length = r.drawCount)
    (k : Drawn) : (ofDraws r.amount xs).drawn? k = k.made r.amount xs := by
  have hshelves : (∃ bass treble, Drawn.bass.made r.amount xs = some bass ∧
      Drawn.treble.made r.amount xs = some treble) ∨
      Drawn.bass.made r.amount xs = none ∧ Drawn.treble.made r.amount xs = none := by
    cases hrange : nonzero r.spectralRange with
    | none => exact .inr ⟨Drawn.made_of_none hrange, Drawn.made_of_none hrange⟩
    | some a =>
        obtain ⟨x, -, hbass⟩ := Drawn.exists_made hxs (k := .bass) hrange
        obtain ⟨y, -, htreble⟩ := Drawn.exists_made hxs (k := .treble) hrange
        exact .inl ⟨_, _, hbass, htreble⟩
  cases k with
  | semitones | factor | gain => rfl
  | bass | treble =>
      obtain ⟨_, _, hbass, htreble⟩ | ⟨hbass, htreble⟩ := hshelves <;>
        simp only [drawn?, ofDraws, hbass, htreble] <;> rfl

theorem drawn?_draw (r : VariationRanges) (g : Lcg) (k : Drawn) :
    ∃ g' : Lcg, (draw r g).1.drawn? k =
      (r.amount k).map fun amount => k.ofDraw amount g'.next.1 := by
  have hxs := g.length_draws 0 r.drawCount
  rw [draw_eq, drawn?_ofDraws hxs]
  cases hk : r.amount k with
  | none => exact ⟨g, Drawn.made_of_none hk⟩
  | some amount =>
      obtain ⟨x, hx, hmade⟩ := Drawn.exists_made hxs hk
      obtain ⟨n, -, rfl⟩ := List.mem_map.mp hx
      exact ⟨Lcg.step^[n] g, hmade⟩

theorem isSome_drawn?_draw (r : VariationRanges) (g : Lcg) (k : Drawn) :
    ((draw r g).1.drawn? k).isSome = (r.amount k).isSome := by
  obtain ⟨g', hdraw⟩ := drawn?_draw r g k
  rw [hdraw, Option.isSome_map]

end Variation

end Soundworks
