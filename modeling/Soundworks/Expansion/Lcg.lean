import Soundworks.Binary64.Arithmetic
/-!
A linear congruential generator modulo `2 ^ 32`. The seed fixes the whole stream of draws.
-/

namespace Soundworks

/-- The state of a generator. -/
structure Lcg where
  state : Nat
  deriving DecidableEq

namespace Lcg

def modulus : Nat := 4294967296
def multiplier : Nat := 1664525
def increment : Nat := 1013904223

/-- The generator of a seed; seeds that agree modulo `2 ^ 32` give the same stream. -/
def ofSeed (seed : Int) : Lcg := ⟨(seed % modulus).toNat⟩

def step (g : Lcg) : Lcg := ⟨(multiplier * g.state + increment) % modulus⟩

def value (g : Lcg) : Binary64 := .ofFraction false g.state modulus

/-- A draw from zero up to one, and the generator after it. -/
def next (g : Lcg) : Binary64 × Lcg := (g.step.value, g.step)

def spread (amount : Binary64) (g : Lcg) : Binary64 × Lcg :=
  ((g.step.value - 0.5) * 2 * amount, g.step)

end Lcg

end Soundworks
