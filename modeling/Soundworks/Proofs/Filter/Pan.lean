import Mathlib.Algebra.Order.Group.MinMax
import Soundworks.Filter.Basic
import Soundworks.Proofs.Binary64.Complement
/-!
The pan of a position. Each output channel is mixed from the input channel on its own side and from
the other one, with two shares that make up one. Only the channel on the side of the position takes
anything from the other side, and the opposite position gives the same shares with the sides
exchanged.

The share of the other side is exact, and what it leaves of one is rounded. So the shares are
compared with those of exact arithmetic, which make up one as they are.
-/

namespace Soundworks

open Binary64

/-! ### Output channels -/

/-- The coefficients of an output channel: that of the input channel on its own side, and that of
the other one. -/
structure Channel (α : Type) where
  own : α
  other : α

namespace Channel

/-- Both coefficients lie between zero and one, and their sum is one. -/
structure Convex {α : Type} [LE α] [Add α] [OfNat α 0] [OfNat α 1] (c : Channel α) : Prop where
  own : 0 ≤ c.own ∧ c.own ≤ 1
  other : 0 ≤ c.other ∧ c.other ≤ 1
  sum : c.own + c.other = 1

/-- The left output channel of a position, in exact arithmetic. -/
def leftAt (p : ℚ) : Channel ℚ := ⟨1 - |min 0 p|, max 0 (-p)⟩

/-- The right output channel of a position, in exact arithmetic. -/
def rightAt (p : ℚ) : Channel ℚ := ⟨1 - |max 0 p|, max 0 p⟩

theorem leftAt_eq (p : ℚ) : leftAt p = ⟨1 - max 0 (-p), max 0 (-p)⟩ := by
  have hfold : |min 0 p| = max 0 (-p) := by
    rw [abs_of_nonpos (min_le_left 0 p), ← max_neg_neg, neg_zero]
  rw [leftAt, hfold]

theorem rightAt_eq (p : ℚ) : rightAt p = ⟨1 - max 0 p, max 0 p⟩ := by
  rw [rightAt, abs_of_nonneg (le_max_left 0 p)]

/-- The coefficients of a channel are shares of one. In exact arithmetic the two make up one. The
coefficient of the other side is the exact one, that of the own side is the exact one, rounded, and
their rounded sum is one again. The sum of the two as they stand is one just if the share of the
other side is a multiple of `2 ^ (-53)`, and misses one by half of that at most. -/
structure Shares (c : Channel Binary64) (exact : Channel ℚ) : Prop where
  exact_convex : exact.Convex
  convex : c.Convex
  other : c.other.value = exact.other
  own : Rounds exact.own c.own
  near : |c.own.value + c.other.value - 1| ≤ 2 ^ (-54 : ℤ)
  whole : c.own.value + c.other.value = 1 ↔ ∃ k : ℕ, exact.other = k * 2 ^ (-53 : ℤ)

theorem shares_of_share {x : Binary64} (h : 0 ≤ x ∧ x ≤ 1) :
    Shares ⟨1 - x, x⟩ ⟨1 - x.value, x.value⟩ := by
  obtain ⟨hx, hlow, hhigh⟩ := value_share h
  refine ⟨⟨⟨?_, ?_⟩, ⟨hlow, hhigh⟩, sub_add_cancel 1 x.value⟩,
    ⟨one_sub_share h, h, one_sub_add_share h⟩, rfl, rounds_one_sub hx, ?_, ?_⟩
  · exact sub_nonneg.mpr hhigh
  · exact sub_le_self 1 hlow
  · rw [add_sub_assoc, ← neg_sub 1 x.value, ← sub_eq_add_neg]
    exact one_sub_near h
  · rw [← one_sub_value_eq_iff h, eq_sub_iff_add_eq]

/-- What a channel is mixed from, with the name of the input channel on its own side and that of the
other one. -/
def text (c : Channel Binary64) (own other : String) : String :=
  own ++ "=" ++ c.own.plain ++ "*" ++ own ++ "+" ++ c.other.plain ++ "*" ++ other

end Channel

/-! ### The matrix of a position -/

namespace Binary64

variable {x : Binary64}

theorem neg_lt_zero_iff : -x < 0 ↔ 0 < x := by
  cases x with
  | nan => decide
  | infinite s => cases s <;> decide
  | finite s m e h =>
      rw [pos_iff_value rfl, lt_iff (isFinite_neg _) rfl, value_neg, value_nought, neg_lt_zero]

theorem lt_zero_iff : x < 0 ↔ 0 < -x := by
  rw [← neg_lt_zero_iff, neg_neg]

end Binary64

namespace PanMatrix

variable {p : Binary64}

def left (m : PanMatrix) : Channel Binary64 := ⟨m.leftFromLeft, m.leftFromRight⟩

def right (m : PanMatrix) : Channel Binary64 := ⟨m.rightFromRight, m.rightFromLeft⟩

theorem text_pan (m : PanMatrix) :
    (Filter.pan m).text =
      "pan=stereo|" ++ m.left.text "c0" "c1" ++ "|" ++ m.right.text "c1" "c0" := by
  apply String.toList_inj.mp
  simp [Filter.text, Filter.fragments, Fragment.text, left, right, Channel.text]

/-- The opposite position exchanges the sides. -/
theorem left_neg (p : Binary64) : (ofPosition (-p)).left = (ofPosition p).right := by
  simp only [ofPosition, left, right, neg_lt_zero_iff, Binary64.neg_neg]

theorem right_neg (p : Binary64) : (ofPosition (-p)).right = (ofPosition p).left := by
  rw [← left_neg, Binary64.neg_neg]

/-! ### Shares -/

/-- What the right channel takes of the left one. -/
theorem right_other (h : -1 ≤ p ∧ p ≤ 1) :
    (0 ≤ (ofPosition p).right.other ∧ (ofPosition p).right.other ≤ 1) ∧
      (ofPosition p).right.other.value = max 0 p.value := by
  obtain ⟨hp, hbound⟩ := (between_iff (n := 1) (by norm_num)).mp h
  show (0 ≤ (if 0 < p then p else 0) ∧ (if 0 < p then p else 0) ≤ 1) ∧
    (if 0 < p then p else 0 : Binary64).value = _
  split
  case isTrue hlt =>
    have hlow := ((pos_iff_value hp).mp hlt).le
    rw [abs_of_nonneg hlow, Nat.cast_one] at hbound
    exact ⟨share_of_value hp hlow hbound, (max_eq_right hlow).symm⟩
  case isFalse hlt =>
    rw [pos_iff_value hp, not_lt] at hlt
    exact ⟨by decide, value_nought.trans (max_eq_left hlt).symm⟩

theorem right_shares (h : -1 ≤ p ∧ p ≤ 1) :
    (ofPosition p).right.Shares (.rightAt p.value) := by
  obtain ⟨hshare, hvalue⟩ := right_other h
  rw [Channel.rightAt_eq, ← hvalue]
  exact Channel.shares_of_share hshare

theorem left_shares (h : -1 ≤ p ∧ p ≤ 1) :
    (ofPosition p).left.Shares (.leftAt p.value) := by
  have hopposite : -1 ≤ -p ∧ -p ≤ 1 := by
    refine ⟨Binary64.neg_le_neg h.2, ?_⟩
    rw [← Binary64.neg_neg 1]
    exact Binary64.neg_le_neg h.1
  -- the left channel is the right one of the opposite position
  have hright := right_shares hopposite
  rwa [right_neg, value_neg, Channel.rightAt_eq, ← Channel.leftAt_eq] at hright

/-! ### The side of a position -/

theorem right_other_pos_iff : 0 < (ofPosition p).right.other ↔ 0 < p := by
  show 0 < (if 0 < p then p else 0) ↔ 0 < p
  split
  case isTrue hlt => exact Iff.rfl
  case isFalse hlt => exact iff_of_false (by decide) hlt

theorem left_other_pos_iff : 0 < (ofPosition p).left.other ↔ p < 0 := by
  rw [← right_neg, right_other_pos_iff, lt_zero_iff]

/-- In the middle each channel is kept as it is, and the sign of the zero does not matter. -/
theorem right_of_isZero (h : p.isZero = true) : (ofPosition p).right = ⟨1, 0⟩ := by
  obtain ⟨hp, hvalue⟩ := isZero_iff.mp h
  have hpos : ¬0 < p := by
    rw [pos_iff_value hp, hvalue]
    exact lt_irrefl 0
  have hkept : (1 : Binary64) - 0 = 1 := by decide +kernel
  simp only [ofPosition, right, if_neg hpos, hkept]

theorem left_of_isZero (h : p.isZero = true) : (ofPosition p).left = ⟨1, 0⟩ := by
  rw [← right_neg]
  refine right_of_isZero (isZero_iff.mpr ?_)
  rw [isFinite_neg, value_neg, neg_eq_zero]
  exact isZero_iff.mp h

/-- The directive of a position between the two ends writes two channels whose coefficients are
shares of one. The left channel takes from the other side for the positions left of the middle, the
right one for those right of it, and none does in the middle, whatever the sign of the zero. The
directive of the opposite position writes the same coefficients, with the channels exchanged. -/
theorem convex_and_mirrored (h : -1 ≤ p ∧ p ≤ 1) :
    ∃ left right : Channel Binary64,
      (Filter.pan (ofPosition p)).text =
        "pan=stereo|" ++ left.text "c0" "c1" ++ "|" ++ right.text "c1" "c0" ∧
      (Filter.pan (ofPosition (-p))).text =
        "pan=stereo|" ++ right.text "c0" "c1" ++ "|" ++ left.text "c1" "c0" ∧
      left.Shares (.leftAt p.value) ∧ right.Shares (.rightAt p.value) ∧
      (0 < left.other ↔ p < 0) ∧ (0 < right.other ↔ 0 < p) ∧
      ¬(0 < left.other ∧ 0 < right.other) ∧
      (p.isZero = true → left = ⟨1, 0⟩ ∧ right = ⟨1, 0⟩) := by
  refine ⟨(ofPosition p).left, (ofPosition p).right, text_pan _, ?_, left_shares h,
    right_shares h, left_other_pos_iff, right_other_pos_iff, ?_,
    fun hzero => ⟨left_of_isZero hzero, right_of_isZero hzero⟩⟩
  · rw [text_pan, left_neg, right_neg]
  · rintro ⟨hleft, hright⟩
    obtain ⟨hp, -⟩ := (between_iff (n := 1) (by norm_num)).mp h
    rw [left_other_pos_iff, lt_zero_iff, pos_iff_value ((isFinite_neg p).trans hp),
      value_neg] at hleft
    rw [right_other_pos_iff, pos_iff_value hp] at hright
    linarith

/-- A tenth to the left, where what is kept is rounded, and the negative zero. -/
theorem convex_and_mirrored_of_tenth :
    (∃ left right : Channel Binary64,
      "pan=stereo|c0=0.9*c0+0.1*c1|c1=1*c1+0*c0" =
        "pan=stereo|" ++ left.text "c0" "c1" ++ "|" ++ right.text "c1" "c0" ∧
      "pan=stereo|c0=1*c0+0*c1|c1=0.9*c1+0.1*c0" =
        "pan=stereo|" ++ right.text "c0" "c1" ++ "|" ++ left.text "c1" "c0" ∧
      left.Shares (.leftAt (-0.1 : Binary64).value) ∧
      right.Shares (.rightAt (-0.1 : Binary64).value) ∧
      0 < left.other ∧ ¬0 < right.other) ∧
    ∃ left right : Channel Binary64,
      "pan=stereo|c0=1*c0+0*c1|c1=1*c1+0*c0" =
        "pan=stereo|" ++ left.text "c0" "c1" ++ "|" ++ right.text "c1" "c0" ∧
      left = ⟨1, 0⟩ ∧ right = ⟨1, 0⟩ := by
  have htext : (Filter.pan (ofPosition (-0.1))).text =
      "pan=stereo|c0=0.9*c0+0.1*c1|c1=1*c1+0*c0" := by decide +kernel
  have hopposite : (Filter.pan (ofPosition (- -0.1))).text =
      "pan=stereo|c0=1*c0+0*c1|c1=0.9*c1+0.1*c0" := by decide +kernel
  have hmiddle : (Filter.pan (ofPosition (-0))).text =
      "pan=stereo|c0=1*c0+0*c1|c1=1*c1+0*c0" := by decide +kernel
  constructor
  · obtain ⟨left, right, hwritten, hwritten', hleft, hright, hmixes, -, honce, -⟩ :=
      convex_and_mirrored (p := -0.1) ⟨by decide +kernel, by decide +kernel⟩
    rw [htext] at hwritten
    rw [hopposite] at hwritten'
    have hpos : 0 < left.other := hmixes.mpr (by decide +kernel)
    exact ⟨left, right, hwritten, hwritten', hleft, hright, hpos, fun h => honce ⟨hpos, h⟩⟩
  · obtain ⟨left, right, hwritten, -, -, -, -, -, -, hzero⟩ :=
      convex_and_mirrored (p := -0) ⟨by decide, by decide⟩
    rw [hmiddle] at hwritten
    exact ⟨left, right, hwritten, hzero rfl⟩

end PanMatrix

end Soundworks
