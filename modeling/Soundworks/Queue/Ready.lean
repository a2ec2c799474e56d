/-!
The order in which things happen. Whatever is ready to go on is taken in the order in which it
became ready. A gate holds back those who wait at it until it is opened, and stays open.
-/

namespace Soundworks

/-- Carries out what is ready, and what becomes ready by it, for at most the given count of
steps. -/
def runReady {σ ι : Type} (step : σ → ι → σ × List ι) : Nat → σ → List ι → σ
  | 0, s, _ => s
  | _, s, [] => s
  | fuel + 1, s, i :: ready =>
    let (s, more) := step s i
    runReady step fuel s (ready ++ more)

/-- The gates that are open, and who waits at the other ones, in order. -/
structure Gates (ι : Type) where
  opened : List String := []
  waiting : List (String × ι) := []

namespace Gates

variable {ι : Type}

def isOpen (g : Gates ι) (gate : String) : Bool := gate ∈ g.opened

def wait (g : Gates ι) (gate : String) (i : ι) : Gates ι :=
  { g with waiting := g.waiting ++ [(gate, i)] }

/-- Opens a gate; those who waited at it are ready. -/
def release (g : Gates ι) (gate : String) : Gates ι × List ι :=
  ({ opened := gate :: g.opened, waiting := g.waiting.filter fun w => w.1 ≠ gate },
    (g.waiting.filter fun w => w.1 = gate).map (·.2))

/-- Lets the one that has waited longest go on, wherever it waits. -/
def releaseFirst (g : Gates ι) : Gates ι × List ι :=
  ({ g with waiting := g.waiting.tail }, (g.waiting.head?.map (·.2)).toList)

end Gates

end Soundworks
