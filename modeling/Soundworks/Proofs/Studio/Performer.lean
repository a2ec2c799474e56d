import Soundworks.Proofs.Files.Tree
import Soundworks.Studio.Performer
/-!
What is asked of an engine. A call waits before it is answered; one that succeeds leaves a file at
its output, and no call takes a file away; what comes of a call is decided by what it is given.
-/

namespace Soundworks

namespace Performer

/-- Every call waits before it is answered. -/
def Suspends (p : Performer) : Prop := ∀ c, (p.gate? c).isSome = true

/-- The outputs of calls last. -/
structure Lasting (p : Performer) : Prop where
  writes : ∀ c t t', p.perform c t = (.ok (), t') → t'.isFile c.output = true
  keeps : ∀ c t path, t.isFile path = true → (p.perform c t).2.isFile path = true
  grounded : ∀ c t, t.Grounded → (p.perform c t).2.Grounded

/-- A call looks only at its inputs, its output and the directory of its output, and touches
nothing but its output. -/
structure Local (p : Performer) : Prop where
  decided : ∀ c t t', (∀ path ∈ c.inputs, t.at? path = t'.at? path) →
    t.at? c.output = t'.at? c.output →
    t.lookup (Path.parts c.output).dropLast = t'.lookup (Path.parts c.output).dropLast →
    (p.perform c t).1 = (p.perform c t').1
  confined : ∀ c t q, q ≠ Path.parts c.output → (p.perform c t).2.lookup q = t.lookup q

/-- The same answers, each of them after a wait. -/
def patient (p : Performer) : Performer := { p with gate? := fun c => some c.output }

theorem suspends_patient (p : Performer) : p.patient.Suspends := fun _ => rfl

theorem Lasting.patient {p : Performer} (h : p.Lasting) : p.patient.Lasting :=
  ⟨h.writes, h.keeps, h.grounded⟩

theorem Local.patient {p : Performer} (h : p.Local) : p.patient.Local :=
  ⟨h.decided, h.confined⟩

theorem perform_rehearsed (held : List String) (failures : List (String × Failure))
    (c : EngineCall) (t : FileTree) :
    (∃ f, (rehearsed held failures).perform c t = (.error f, t)) ∨
      ∃ t', t.write c.output rehearsedText = .ok t' ∧
        (rehearsed held failures).perform c t = (.ok (), t') := by
  unfold rehearsed
  dsimp only
  split
  · exact .inl ⟨_, rfl⟩
  · split
    · rename_i t' h
      exact .inr ⟨t', h, rfl⟩
    · exact .inl ⟨_, rfl⟩

theorem lasting_rehearsed (held : List String) (failures : List (String × Failure)) :
    (rehearsed held failures).Lasting where
  writes := by
    intro c t t' h
    rcases perform_rehearsed held failures c t with ⟨f, hf⟩ | ⟨t₁, hw, hok⟩
    · rw [hf] at h
      cases h
    · rw [hok] at h
      cases h
      exact FileTree.isFile_of_write hw
  keeps := by
    intro c t path h
    rcases perform_rehearsed held failures c t with ⟨f, hf⟩ | ⟨t₁, hw, hok⟩
    · rw [hf]
      exact h
    · rw [hok]
      exact FileTree.isFile_write hw h
  grounded := by
    intro c t h
    rcases perform_rehearsed held failures c t with ⟨f, hf⟩ | ⟨t₁, hw, hok⟩
    · rw [hf]
      exact h
    · rw [hok]
      exact h.write hw

theorem local_rehearsed (held : List String) (failures : List (String × Failure)) :
    (rehearsed held failures).Local where
  decided := by
    intro c t t' _ houtput hdirectory
    unfold rehearsed
    dsimp only
    split
    · rfl
    · rcases FileTree.write_congr rehearsedText houtput hdirectory with
        ⟨e, he, he'⟩ | ⟨t₁, t₂, hw, hw'⟩
      · rw [he, he']
      · rw [hw, hw']
  confined := by
    intro c t q hq
    rcases perform_rehearsed held failures c t with ⟨f, hf⟩ | ⟨t₁, hw, hok⟩
    · rw [hf]
    · rw [hok]
      exact FileTree.lookup_of_write hw hq

end Performer

end Soundworks
