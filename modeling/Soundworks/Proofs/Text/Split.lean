import Mathlib.Data.List.DropRight
import Soundworks.Text.Split
/-!
Texts that are split at a character. No part holds the character, and two texts with the character
between them are split on their own. The last place of the character cuts a text in two.
-/

namespace Soundworks.Text

theorem splitAt_eq_splitOn (sep : Char) (cs : List Char) : splitAt sep cs = cs.splitOn sep := by
  induction cs with
  | nil => rfl
  | cons c cs ih =>
      rw [List.splitOn_cons_eq_if_modifyHead, splitAt, ih]
      by_cases hc : c = sep
      · simp [hc]
      · obtain ⟨part, parts, h⟩ := List.exists_cons_of_ne_nil (List.splitOn_ne_nil sep cs)
        simp [hc, h]

theorem splitAt_of_not_mem {sep : Char} {cs : List Char} (h : sep ∉ cs) :
    splitAt sep cs = [cs] := by
  rw [splitAt_eq_splitOn, List.splitOn_eq_singleton h]

theorem splitAt_append_sep (sep : Char) (front rest : List Char) :
    splitAt sep (front ++ sep :: rest) = splitAt sep front ++ splitAt sep rest := by
  simp only [splitAt_eq_splitOn, List.splitOn_append_cons_self]

theorem splitAt_append_cons {sep : Char} {front : List Char} (h : sep ∉ front)
    (rest : List Char) : splitAt sep (front ++ sep :: rest) = front :: splitAt sep rest := by
  rw [splitAt_append_sep, splitAt_of_not_mem h, List.singleton_append]

theorem not_mem_of_mem_splitAt {sep : Char} {cs part : List Char} (h : part ∈ splitAt sep cs) :
    sep ∉ part := by
  induction cs generalizing part with
  | nil => simp_all [splitAt]
  | cons c cs ih =>
      rw [splitAt] at h
      split at h
      · rcases List.mem_cons.mp h with rfl | h
        · exact List.not_mem_nil
        · exact ih h
      · rename_i hc
        split at h
        · simp_all [Ne.symm hc]
        · rename_i first rest hsplit
          rcases List.mem_cons.mp h with rfl | h
          · have hfirst : sep ∉ first := ih (by simp [hsplit])
            simp [Ne.symm hc, hfirst]
          · exact ih (by simp [hsplit, h])

theorem mem_of_mem_splitAt {sep : Char} {cs part : List Char} {d : Char}
    (h : part ∈ splitAt sep cs) (hd : d ∈ part) : d ∈ cs := by
  induction cs generalizing part with
  | nil => simp_all [splitAt]
  | cons c cs ih =>
      rw [splitAt] at h
      split at h
      · rcases List.mem_cons.mp h with rfl | h
        · cases hd
        · exact List.mem_cons_of_mem c (ih h hd)
      · split at h
        · simp_all
        · rename_i first rest hsplit
          rw [List.mem_cons] at h
          rcases h with rfl | h
          · rcases List.mem_cons.mp hd with rfl | hd
            · exact List.mem_cons_self
            · exact List.mem_cons_of_mem c (ih (by simp [hsplit]) hd)
          · exact List.mem_cons_of_mem c (ih (by simp [hsplit, h]) hd)

theorem mem_intercalate {sep c : Char} {parts : List (List Char)}
    (h : c ∈ [sep].intercalate parts) : c = sep ∨ ∃ part ∈ parts, c ∈ part := by
  induction parts with
  | nil => exact absurd h (by simp)
  | cons part rest ih =>
      cases rest with
      | nil => exact .inr ⟨part, by simp, by simpa using h⟩
      | cons next rest =>
          rw [List.intercalate_cons_of_ne_nil (by simp)] at h
          simp only [List.mem_append, List.mem_singleton] at h
          rcases h with (h | h) | h
          · exact .inr ⟨part, List.mem_cons_self, h⟩
          · exact .inl h
          · rcases ih h with h | ⟨q, hq, hc⟩
            · exact .inl h
            · exact .inr ⟨q, List.mem_cons_of_mem _ hq, hc⟩

/-! ### The last place of a character -/

theorem throughLast_eq (sep : Char) (cs : List Char) :
    throughLast sep cs = cs.rdropWhile (· ≠ sep) := rfl

theorem afterLast_eq (sep : Char) (cs : List Char) :
    afterLast sep cs = cs.rtakeWhile (· ≠ sep) := rfl

theorem sep_not_mem_afterLast (sep : Char) (cs : List Char) : sep ∉ afterLast sep cs := by
  intro h
  rw [afterLast_eq] at h
  simpa using List.mem_rtakeWhile_imp h

theorem afterLast_of_not_mem {sep : Char} {cs : List Char} (h : sep ∉ cs) :
    afterLast sep cs = cs := by
  rw [afterLast_eq, List.rtakeWhile_eq_self_iff]
  intro c hc
  simpa using ne_of_mem_of_not_mem hc h

/-- What follows the character is after its last place if it does not hold it again. -/
theorem afterLast_append_cons {sep : Char} (front : List Char) {rest : List Char}
    (h : sep ∉ rest) : afterLast sep (front ++ sep :: rest) = rest := by
  induction rest using List.reverseRecOn with
  | nil => simp [afterLast]
  | append_singleton rest c ih =>
      rw [List.mem_append, List.mem_singleton, not_or] at h
      rw [← List.cons_append, ← List.append_assoc, afterLast_eq,
        List.rtakeWhile_concat_pos _ _ _ (by simpa using Ne.symm h.2), ← afterLast_eq, ih h.1]

/-- A text is cut at the last place of the character in one way only. -/
theorem append_cons_inj {sep : Char} {front front' rest rest' : List Char} (h : sep ∉ rest)
    (h' : sep ∉ rest') (heq : front ++ sep :: rest = front' ++ sep :: rest') :
    front = front' ∧ rest = rest' := by
  have hrest : rest = rest' := by
    rw [← afterLast_append_cons front h, heq, afterLast_append_cons front' h']
  exact ⟨List.append_cancel_right (hrest ▸ heq), hrest⟩

theorem exists_throughLast {sep : Char} {cs : List Char} (h : sep ∈ cs) :
    ∃ front, throughLast sep cs = front ++ [sep] := by
  have hne : throughLast sep cs ≠ [] := by
    rw [throughLast_eq, Ne, List.rdropWhile_eq_nil_iff]
    intro hall
    simpa using hall sep h
  have hlast := List.rdropWhile_last_not (· ≠ sep) cs hne
  obtain ⟨front, c, hfront⟩ := (List.eq_nil_or_concat' _).resolve_left hne
  refine ⟨front, ?_⟩
  simp only [← throughLast_eq, hfront, List.getLast_append_singleton] at hlast
  obtain rfl : c = sep := by simpa using hlast
  exact hfront

/-- What is dropped from the right stops at a character that is kept. -/
theorem prefix_rdropWhile {p : Char → Bool} (front rest : List Char) {c : Char}
    (hc : p c = false) : (front ++ [c]) <+: (front ++ [c] ++ rest).rdropWhile p := by
  induction rest using List.reverseRecOn with
  | nil =>
      exact ⟨[], by rw [List.append_nil, List.rdropWhile_concat_neg p front c (by simp [hc])]⟩
  | append_singleton rest d ih =>
      rw [← List.append_assoc]
      by_cases hd : p d = true
      · rw [List.rdropWhile_concat_pos p _ d hd]
        exact ih
      · rw [List.rdropWhile_concat_neg p _ d hd, List.append_assoc]
        exact List.prefix_append _ _

end Soundworks.Text
