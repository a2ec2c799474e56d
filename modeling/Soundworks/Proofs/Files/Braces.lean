import Mathlib.Data.List.Flatten
import Soundworks.Files.Braces
import Soundworks.Proofs.Text.Split
/-!
The expansion of braces as a replacement: the first group without inner braces is replaced by each
of its options until no group is left. Every replacement removes an opening brace, so that this
ends on every text, whether its braces have partners or not.
-/

namespace Soundworks.Braces

/-! ### The first group without inner braces -/

/-- A text has braces with no brace between them. -/
def HasGroup (cs : List Char) : Prop :=
  ∃ before inside after, cs = before ++ '{' :: (inside ++ '}' :: after) ∧
    ∀ c ∈ inside, c ≠ '{' ∧ c ≠ '}'

/-- A text without groups gets one only from a closing brace after an opening one. -/
theorem not_hasGroup_concat {cs : List Char} {c : Char} (h : ¬ HasGroup cs)
    (hc : c = '}' → '{' ∉ cs) : ¬ HasGroup (cs ++ [c]) := by
  rintro ⟨before, inside, after, heq, hinside⟩
  rcases List.eq_nil_or_concat' after with rfl | ⟨after, d, rfl⟩
  · have hcs : cs ++ [c] = (before ++ '{' :: inside) ++ ['}'] := by simpa using heq
    obtain ⟨rfl, hd⟩ := List.append_inj' hcs rfl
    exact hc (List.singleton_inj.mp hd) (by simp)
  · have hcs : cs ++ [c] = (before ++ '{' :: (inside ++ '}' :: after)) ++ [d] := by
      simpa using heq
    exact h ⟨before, inside, after, (List.append_inj' hcs rfl).1, hinside⟩

theorem not_hasGroup_nil : ¬ HasGroup [] := by
  rintro ⟨before, inside, after, heq, -⟩
  simp at heq

theorem not_hasGroup_append {cs front : List Char} (h : ¬ HasGroup cs)
    (hfront : ∀ c ∈ front, c ≠ '{' ∧ c ≠ '}') : ¬ HasGroup (cs ++ front) := by
  induction front using List.reverseRecOn with
  | nil => rwa [List.append_nil]
  | append_singleton front c ih =>
      rw [List.forall_mem_append] at hfront
      rw [← List.append_assoc]
      exact not_hasGroup_concat (ih hfront.1) fun hc => absurd hc (hfront.2 c (by simp)).2

theorem not_hasGroup_of_cons {c : Char} {cs : List Char} (h : ¬ HasGroup (c :: cs)) :
    ¬ HasGroup cs := by
  rintro ⟨before, inside, after, rfl, hinside⟩
  exact h ⟨c :: before, inside, after, rfl, hinside⟩

/-- What the search finds is a group. -/
theorem of_splitGroup? : ∀ {cs before inside after : List Char},
    splitGroup? cs = some (before, inside, after) →
      cs = before ++ '{' :: (inside ++ '}' :: after) ∧ ∀ c ∈ inside, c ≠ '{' ∧ c ≠ '}'
  | c :: cs, before, inside, after, h => by
      unfold splitGroup? at h
      split at h
      · rename_i rest hrest
        cases h
        refine ⟨?_, fun c hc => by simpa using List.mem_takeWhile_imp hc⟩
        rw [List.nil_append, ← hrest, List.takeWhile_append_dropWhile]
      · obtain ⟨⟨before, inside, after⟩, hsplit, heq⟩ := Option.map_eq_some_iff.mp h
        cases heq
        obtain ⟨rfl, hinside⟩ := of_splitGroup? hsplit
        exact ⟨rfl, hinside⟩

/-- A group at the start of a text is found there. -/
theorem splitGroup?_open {inside : List Char} (hinside : ∀ c ∈ inside, c ≠ '{' ∧ c ≠ '}')
    (after : List Char) :
    splitGroup? ('{' :: (inside ++ '}' :: after)) = some ([], inside, after) := by
  have hpos : ∀ c ∈ inside, (decide (c ≠ '{' ∧ c ≠ '}')) = true := by simpa using hinside
  have hdrop : (inside ++ '}' :: after).dropWhile (fun c => decide (c ≠ '{' ∧ c ≠ '}')) =
      '}' :: after := by
    rw [List.dropWhile_append_of_pos hpos]
    rfl
  rw [splitGroup?.eq_2 _ after hdrop, List.takeWhile_append_of_pos hpos]
  simp

/-- A text that does not start with a group is searched from its second character. -/
theorem splitGroup?_cons {c : Char} {cs : List Char}
    (h : c = '{' → ∀ inside after, cs = inside ++ '}' :: after →
      ¬ ∀ d ∈ inside, d ≠ '{' ∧ d ≠ '}') :
    splitGroup? (c :: cs) =
      (splitGroup? cs).map fun (before, inside, after) => (c :: before, inside, after) := by
  rw [splitGroup?]
  rintro after rfl hafter
  refine h rfl (cs.takeWhile fun d => d ≠ '{' ∧ d ≠ '}') after ?_ fun d hd => ?_
  · rw [← hafter, List.takeWhile_append_dropWhile]
  · simpa using List.mem_takeWhile_imp hd

/-- The search finds the first group to close. -/
theorem splitGroup?_append {before inside : List Char} (hbefore : ¬ HasGroup before)
    (hinside : ∀ c ∈ inside, c ≠ '{' ∧ c ≠ '}') (after : List Char) :
    splitGroup? (before ++ '{' :: (inside ++ '}' :: after)) = some (before, inside, after) := by
  induction before with
  | nil => exact splitGroup?_open hinside after
  | cons c before ih =>
      rw [List.cons_append, splitGroup?_cons, ih (not_hasGroup_of_cons hbefore)]
      · rfl
      · rintro rfl inside' after' heq hwithin
        -- a group that starts here would have to close before the next opening brace
        rcases List.append_eq_append_iff.mp heq with ⟨front, rfl, hrest⟩ | ⟨front, rfl, hrest⟩
        · rcases List.cons_eq_append_iff.mp hrest with ⟨rfl, hc⟩ | ⟨front, rfl, -⟩
          · simp at hc
          · exact (hwithin '{' (by simp)).1 rfl
        · rcases List.cons_eq_append_iff.mp hrest with ⟨rfl, hc⟩ | ⟨front, rfl, -⟩
          · simp at hc
          · exact hbefore ⟨[], inside', front, by simp, hwithin⟩

/-- The search fails only on a text without groups. -/
theorem not_hasGroup_of_splitGroup?_eq_none : ∀ {cs : List Char}, splitGroup? cs = none →
    ¬ HasGroup cs
  | [], _ => not_hasGroup_nil
  | c :: cs, h => by
      rintro ⟨before, inside, after, heq, hinside⟩
      cases before with
      | nil =>
          rw [heq, List.nil_append, splitGroup?_open hinside] at h
          cases h
      | cons d before =>
          obtain ⟨rfl, rfl⟩ := List.cons_eq_cons.mp heq
          unfold splitGroup? at h
          split at h
          · cases h
          · exact not_hasGroup_of_splitGroup?_eq_none (Option.map_eq_none_iff.mp h)
              ⟨before, inside, after, rfl, hinside⟩

theorem splitGroup?_eq_none_iff {cs : List Char} : splitGroup? cs = none ↔ ¬ HasGroup cs := by
  refine ⟨not_hasGroup_of_splitGroup?_eq_none, fun h => ?_⟩
  rw [Option.eq_none_iff_forall_ne_some]
  rintro ⟨before, inside, after⟩ hsplit
  exact h ⟨before, inside, after, of_splitGroup? hsplit⟩

/-! ### The expansion -/

/-- One text is expanded for another one: a group of that one is replaced by one of its options. -/
def Replaces (cs' cs : List Char) : Prop :=
  ∃ before inside after, splitGroup? cs = some (before, inside, after) ∧
    ∃ option ∈ Text.splitAt ',' inside, cs' = before ++ option ++ after

/-- Each replacement removes an opening brace. -/
theorem Replaces.count_lt {cs cs' : List Char} (h : Replaces cs' cs) :
    cs'.count '{' < cs.count '{' := by
  obtain ⟨before, inside, after, hsplit, option, hoption, rfl⟩ := h
  obtain ⟨rfl, hinside⟩ := of_splitGroup? hsplit
  have hcount : option.count '{' = 0 := by
    rw [List.count_eq_zero]
    exact fun hmem => (hinside _ (Text.mem_of_mem_splitAt hoption hmem)).1 rfl
  rw [List.count_append, List.count_append, hcount, List.count_append, List.count_cons_self,
    List.count_append, List.count_cons_of_ne (by decide)]
  omega

/-- No text can be expanded forever. -/
theorem wellFounded_replaces : WellFounded Replaces :=
  Subrelation.wf (fun h => h.count_lt) (measure (List.count '{')).wf

/-- More replacements than opening braces change nothing. -/
theorem expandWithin_eq : ∀ {fuel : ℕ} {cs : List Char}, cs.count '{' ≤ fuel →
    expandWithin fuel cs = expand cs := by
  suffices h : ∀ (n m : ℕ) (cs : List Char), cs.count '{' ≤ n → cs.count '{' ≤ m →
      expandWithin n cs = expandWithin m cs from @fun _ _ hcs => h _ _ _ hcs le_rfl
  intro n
  induction n with
  | zero =>
      intro m cs hn _
      have hnone : splitGroup? cs = none := by
        rw [Option.eq_none_iff_forall_ne_some]
        rintro ⟨before, inside, after⟩ hsplit
        obtain ⟨rfl, -⟩ := of_splitGroup? hsplit
        simp at hn
      cases m <;> simp [expandWithin, hnone]
  | succ n ih =>
      intro m cs hn hm
      cases hsplit : splitGroup? cs with
      | none => cases m <;> simp [expandWithin, hsplit]
      | some found =>
          obtain ⟨before, inside, after⟩ := found
          have hlt : ∀ option ∈ Text.splitAt ',' inside,
              (before ++ option ++ after).count '{' < cs.count '{' := fun option hoption =>
            Replaces.count_lt ⟨before, inside, after, hsplit, option, hoption, rfl⟩
          cases m with
          | zero =>
              obtain ⟨rfl, -⟩ := of_splitGroup? hsplit
              simp at hm
          | succ m =>
              simp only [expandWithin, hsplit]
              refine List.flatMap_congr fun option hoption => ?_
              have := hlt option hoption
              exact ih m _ (by omega) (by omega)

/-- A text without groups stands for itself. -/
theorem expand_of_not_hasGroup {cs : List Char} (h : ¬ HasGroup cs) : expand cs = [cs] := by
  rw [expand]
  cases cs.count '{' with
  | zero => rfl
  | succ n => simp [expandWithin, splitGroup?_eq_none_iff.mpr h]

/-- In any other text the first group is replaced by each of its options. -/
theorem expand_of_splitGroup? {cs before inside after : List Char}
    (h : splitGroup? cs = some (before, inside, after)) :
    expand cs = (Text.splitAt ',' inside).flatMap fun option =>
      expand (before ++ option ++ after) := by
  have hlt : ∀ option ∈ Text.splitAt ',' inside,
      (before ++ option ++ after).count '{' < cs.count '{' := fun option hoption =>
    Replaces.count_lt ⟨before, inside, after, h, option, hoption, rfl⟩
  rw [← expandWithin_eq (Nat.le_succ (cs.count '{'))]
  simp only [expandWithin, h]
  exact List.flatMap_congr fun option hoption => expandWithin_eq (hlt option hoption).le

theorem not_hasGroup_of_mem_expand {cs x : List Char} (hx : x ∈ expand cs) : ¬ HasGroup x := by
  induction cs using wellFounded_replaces.induction with
  | h cs ih =>
      cases hsplit : splitGroup? cs with
      | none =>
          rw [splitGroup?_eq_none_iff] at hsplit
          rw [expand_of_not_hasGroup hsplit, List.mem_singleton] at hx
          exact hx ▸ hsplit
      | some found =>
          obtain ⟨before, inside, after⟩ := found
          rw [expand_of_splitGroup? hsplit] at hx
          obtain ⟨option, hoption, hx⟩ := List.mem_flatMap.mp hx
          exact ih _ ⟨before, inside, after, hsplit, option, hoption, rfl⟩ hx

end Soundworks.Braces
