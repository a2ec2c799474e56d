import Mathlib.Data.List.Basic
import Soundworks.Filter.Basic
import Soundworks.Proofs.Text.Split
/-!
The characters of filters. A number is written with digits, letters, signs and points, and the
words of a filter add only a few marks to these. So no text of a filter holds a character that
separates filters, segments or labels.
-/

namespace Soundworks

/-! ### Numbers -/

def isNumeric (c : Char) : Bool := c.isAlphanum || c = '-' || c = '+' || c = '.'

theorem isNumeric_of_mem_toDigits {n : Nat} {c : Char} (h : c ∈ Nat.toDigits 10 n) :
    isNumeric c = true := by
  have hdigit : c.isDigit = true := Nat.isDigit_of_mem_toDigits (by decide) (by decide) h
  simp [isNumeric, Char.isAlphanum, hdigit]

theorem isNumeric_of_mem_withSign {negative : Bool} {cs : List Char}
    (h : ∀ c ∈ cs, isNumeric c = true) :
    ∀ c ∈ Decimal.withSign negative cs, isNumeric c = true := by
  intro c hc
  unfold Decimal.withSign at hc
  split at hc
  · rcases List.mem_cons.mp hc with rfl | hc
    · rfl
    · exact h c hc
  · exact h c hc

theorem isNumeric_of_mem_exponentChars {l : Decimal.Layout} {e : Int} {c : Char}
    (h : c ∈ l.exponentChars e) : isNumeric c = true := by
  simp only [Decimal.Layout.exponentChars, List.mem_cons, List.mem_append] at h
  rcases h with rfl | h | h
  · split <;> rfl
  · rw [List.eq_of_mem_replicate h]
    rfl
  · exact isNumeric_of_mem_toDigits h

theorem isNumeric_of_mem_layout {l : Decimal.Layout} {digits : Nat} {k : Int} {c : Char}
    (h : c ∈ l.chars digits k) : isNumeric c = true := by
  have hds : ∀ d ∈ Nat.toDigits 10 digits, isNumeric d = true := fun d => isNumeric_of_mem_toDigits
  have hzeros : ∀ n, ∀ d ∈ List.replicate n '0', isNumeric d = true := fun n d hd => by
    rw [List.eq_of_mem_replicate hd]
    rfl
  unfold Decimal.Layout.chars at h
  dsimp only at h
  split at h
  · split at h
    · rcases List.mem_append.mp h with h | h
      · rcases List.mem_append.mp h with h | h
        · exact hds c h
        · exact hzeros _ c h
      · rcases List.mem_pair.mp h with rfl | rfl <;> rfl
    · split at h
      · rcases List.mem_append.mp h with h | h
        · exact hds c (List.mem_of_mem_take h)
        · rcases List.mem_cons.mp h with rfl | h
          · rfl
          · exact hds c (List.mem_of_mem_drop h)
      · simp only [List.mem_cons, List.mem_append] at h
        rcases h with rfl | rfl | h | h
        · rfl
        · rfl
        · exact hzeros _ c h
        · exact hds c h
  · split at h
    · exact absurd h List.not_mem_nil
    · rename_i d hd
      rcases List.mem_cons.mp h with rfl | h
      · exact hds c (by simp [hd])
      · rcases List.mem_cons.mp h with rfl | h
        · rfl
        · exact isNumeric_of_mem_exponentChars h
    · rename_i d rest _ hd
      simp only [List.mem_cons, List.mem_append] at h
      rcases h with rfl | rfl | h | rfl | h
      · exact hds c (by simp [hd])
      · rfl
      · exact hds c (by simp [hd, h])
      · rfl
      · exact isNumeric_of_mem_exponentChars h

namespace Binary64

theorem isNumeric_of_mem_integerChars {n : Int} {c : Char} (h : c ∈ integerChars n) :
    isNumeric c = true :=
  isNumeric_of_mem_withSign (fun _ => isNumeric_of_mem_toDigits) c h

theorem isNumeric_of_mem_chars {x : Binary64} {c : Char} (h : c ∈ x.chars) :
    isNumeric c = true := by
  unfold chars at h
  split at h
  · exact List.all_eq_true.mp (by decide : "nan".toList.all isNumeric = true) c h
  · exact isNumeric_of_mem_withSign
      (List.all_eq_true.mp (by decide : "inf".toList.all isNumeric = true)) c h
  · split at h
    · exact isNumeric_of_mem_withSign
        (List.all_eq_true.mp (by decide : "0.0".toList.all isNumeric = true)) c h
    · exact isNumeric_of_mem_withSign (fun _ => isNumeric_of_mem_layout) c h

theorem isNumeric_of_mem_plain {x : Binary64} {c : Char} (h : c ∈ x.plain.toList) :
    isNumeric c = true := by
  rw [plain, String.toList_ofList, plainChars] at h
  split at h
  · exact isNumeric_of_mem_integerChars h
  · exact isNumeric_of_mem_chars h

end Binary64

/-! ### Filters -/

def isDirective (c : Char) : Bool := isNumeric c || c = '=' || c = ':' || c = '*' || c = '|'

theorem isDirective_of_isNumeric {c : Char} (h : isNumeric c = true) : isDirective c = true := by
  simp [isDirective, h]

/-- The fixed words of a fragment are written with the characters of filters. -/
def Fragment.isPlain : Fragment → Bool
  | .words s => s.toList.all isDirective
  | .number _ => true
  | .integer _ => true

theorem Fragment.isDirective_of_mem {f : Fragment} (h : f.isPlain = true) {c : Char}
    (hc : c ∈ f.text.toList) : isDirective c = true := by
  cases f with
  | words s => exact List.all_eq_true.mp h c hc
  | number x => exact isDirective_of_isNumeric (Binary64.isNumeric_of_mem_plain hc)
  | integer n =>
      rw [text, String.toList_ofList] at hc
      exact isDirective_of_isNumeric (Binary64.isNumeric_of_mem_integerChars hc)

namespace Filter

theorem all_isPlain_fragments (f : Filter) : f.fragments.all Fragment.isPlain = true := by
  cases f with
  | compressor threshold ratio attack release knee => cases knee <;> rfl
  | gate threshold ratio attack release => cases attack <;> cases release <;> rfl
  | limiter threshold release => cases release <;> rfl
  | _ => rfl

theorem isDirective_of_mem_text {f : Filter} {c : Char} (h : c ∈ f.text.toList) :
    isDirective c = true := by
  rw [text, String.toList_join, List.mem_flatMap] at h
  obtain ⟨s, hs, hc⟩ := h
  obtain ⟨fragment, hmem, rfl⟩ := List.mem_map.mp hs
  exact Fragment.isDirective_of_mem (List.all_eq_true.mp f.all_isPlain_fragments _ hmem) hc

theorem words_of_start {f : Filter} {w : String} {rest : List Fragment} {start : List Char}
    (hf : f.fragments = .words w :: rest) (h : start <+: f.text.toList) :
    start <+: w.toList ∨ w.toList <+: start := by
  have hw : w.toList <+: f.text.toList := by
    rw [text, hf, String.toList_join]
    exact List.prefix_append _ _
  exact List.prefix_or_prefix_of_prefix h hw

end Filter

/-! ### Chains of filters -/

/-- What stands between the commas of a chain is written with the characters of filters. -/
theorem Stage.mem_text {s : Stage} {c : Char} (h : c ∈ s.text.toList) :
    c = ',' ∨ isDirective c = true := by
  rw [text, String.toList_intercalate] at h
  rcases Text.mem_intercalate h with h | ⟨part, hpart, hc⟩
  · exact .inl h
  · obtain ⟨t, ht, rfl⟩ := List.mem_map.mp hpart
    obtain ⟨f, -, rfl⟩ := List.mem_map.mp ht
    exact .inr (Filter.isDirective_of_mem_text hc)

end Soundworks
