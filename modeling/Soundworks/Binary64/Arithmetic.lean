import Soundworks.Binary64.Basic
/-!
Arithmetic and order on 64-bit floating-point numbers. Each operation takes the exact result
and rounds it once; `nan` arises from an indeterminate form and compares with nothing.
-/

namespace Soundworks.Binary64

def neg : Binary64 → Binary64
  | .nan => .nan
  | .infinite s => .infinite !s
  | .finite s m e h => .finite (!s) m e h

def abs : Binary64 → Binary64
  | .nan => .nan
  | .infinite _ => .infinite false
  | .finite _ m e h => .finite false m e h

/-- The exact sum on the finer of two grids. -/
def alignedSum (s₁ : Bool) (m₁ : Nat) (e₁ : Int) (s₂ : Bool) (m₂ : Nat) (e₂ : Int) : Int :=
  let e := min e₁ e₂
  signed s₁ (m₁ <<< (e₁ - e).toNat) + signed s₂ (m₂ <<< (e₂ - e).toNat)

/-- The rounded sum; an exact zero is negative only if both terms are. -/
def add : Binary64 → Binary64 → Binary64
  | .nan, _ => .nan
  | _, .nan => .nan
  | .infinite s₁, .infinite s₂ => if s₁ = s₂ then .infinite s₁ else .nan
  | .infinite s, _ => .infinite s
  | _, .infinite s => .infinite s
  | .finite s₁ m₁ e₁ _, .finite s₂ m₂ e₂ _ =>
    let t := alignedSum s₁ m₁ e₁ s₂ m₂ e₂
    if t = 0 then zero (s₁ && s₂) else ofDyadic (t < 0) t.natAbs (min e₁ e₂)

def sub (x y : Binary64) : Binary64 := add x (neg y)

def mul : Binary64 → Binary64 → Binary64
  | .nan, _ => .nan
  | _, .nan => .nan
  | .infinite s₁, .infinite s₂ => .infinite (s₁ != s₂)
  | .infinite s₁, .finite s₂ m _ _ => if m = 0 then .nan else .infinite (s₁ != s₂)
  | .finite s₁ m _ _, .infinite s₂ => if m = 0 then .nan else .infinite (s₁ != s₂)
  | .finite s₁ m₁ e₁ _, .finite s₂ m₂ e₂ _ => ofDyadic (s₁ != s₂) (m₁ * m₂) (e₁ + e₂)

/-- The sum of a product and a third number, rounded once. -/
def fusedMulAdd (x y z : Binary64) : Binary64 :=
  match x, y, z with
  | .finite s₁ m₁ e₁ _, .finite s₂ m₂ e₂ _, .finite s₃ m₃ e₃ _ =>
    let s := s₁ != s₂
    let e := e₁ + e₂
    let t := alignedSum s (m₁ * m₂) e s₃ m₃ e₃
    if t = 0 then zero (s && s₃) else ofDyadic (t < 0) t.natAbs (min e e₃)
  | _, _, _ => add (mul x y) z

/-- The rounded quotient; a zero divisor gives an infinite quotient. -/
def div : Binary64 → Binary64 → Binary64
  | .nan, _ => .nan
  | _, .nan => .nan
  | .infinite _, .infinite _ => .nan
  | .infinite s₁, .finite s₂ _ _ _ => .infinite (s₁ != s₂)
  | .finite s₁ _ _ _, .infinite s₂ => zero (s₁ != s₂)
  | .finite s₁ m₁ e₁ _, .finite s₂ m₂ e₂ _ =>
    if m₂ = 0 then if m₁ = 0 then .nan else .infinite (s₁ != s₂)
    else ofFraction (s₁ != s₂) (m₁ <<< (e₁ - e₂).toNat) (m₂ <<< (e₂ - e₁).toNat)

instance : Neg Binary64 := ⟨neg⟩
instance : Add Binary64 := ⟨add⟩
instance : Sub Binary64 := ⟨sub⟩
instance : Mul Binary64 := ⟨mul⟩
instance : Div Binary64 := ⟨div⟩

/-- The order of two numbers, none if one of them is `nan`; the zeros are equal. -/
def compare? : Binary64 → Binary64 → Option Ordering
  | .nan, _ => none
  | _, .nan => none
  | .infinite s₁, .infinite s₂ => some (compare s₂ s₁)
  | .infinite s, _ => some (if s then .lt else .gt)
  | _, .infinite s => some (if s then .gt else .lt)
  | .finite s₁ m₁ e₁ _, .finite s₂ m₂ e₂ _ =>
    some (compare (alignedSum s₁ m₁ e₁ (!s₂) m₂ e₂) 0)

def le (x y : Binary64) : Bool :=
  match compare? x y with
  | some .lt | some .eq => true
  | _ => false

def lt (x y : Binary64) : Bool := compare? x y = some .lt

instance : LE Binary64 := ⟨fun x y => le x y = true⟩
instance : LT Binary64 := ⟨fun x y => lt x y = true⟩
instance (x y : Binary64) : Decidable (x ≤ y) := inferInstanceAs (Decidable (le x y = true))
instance (x y : Binary64) : Decidable (x < y) := inferInstanceAs (Decidable (lt x y = true))

/-- The number itself between two bounds, or else the bound that it passes. -/
def clamp (least most x : Binary64) : Binary64 :=
  if x < least then least else if most < x then most else x

def isZero : Binary64 → Bool
  | .finite _ m _ _ => m = 0
  | _ => false

end Soundworks.Binary64
