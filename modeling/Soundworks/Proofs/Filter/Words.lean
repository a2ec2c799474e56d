import Mathlib.Data.List.Infix
import Soundworks.Proofs.Filter.Decimal
/-!
Texts that hold a word for a number that is not finite. Such a word cannot reach over a character
that is none of its letters. So it stands in one part of a text, and the fixed words of a filter
hold none: the text of a filter holds one exactly if one of its numbers is not finite.
-/

namespace Soundworks

def isWordLetter (c : Char) : Bool := c = 'n' || c = 'a' || c = 'i' || c = 'f'

/-- A text that holds a word for a number that is not finite. -/
def NamesNonFinite (cs : List Char) : Prop := "nan".toList <:+: cs ∨ "inf".toList <:+: cs

instance (cs : List Char) : Decidable (NamesNonFinite cs) :=
  inferInstanceAs (Decidable (_ ∨ _))

/-- A word stands before or behind a character that it does not hold. -/
theorem infix_append_cons_iff {α : Type} {word front rest : List α} {c : α} (h : c ∉ word) :
    word <:+: front ++ c :: rest ↔ word <:+: front ∨ word <:+: rest := by
  constructor
  · intro hin
    rcases List.infix_append_iff.mp hin with hfront | hrest | ⟨start, behind, rfl, hstart, hbehind⟩
    · exact .inl hfront
    · rcases List.infix_cons_iff.mp hrest with hprefix | hrest
      · cases word with
        | nil => exact .inl List.nil_infix
        | cons d word =>
            obtain rfl := (List.cons_prefix_cons.mp hprefix).1
            exact absurd List.mem_cons_self h
      · exact .inr hrest
    -- what reaches over the character begins with it there
    · cases behind with
      | nil => exact .inl (by simpa using hstart.isInfix)
      | cons d behind =>
          obtain rfl := (List.cons_prefix_cons.mp hbehind).1
          exact absurd (List.mem_append_right _ List.mem_cons_self) h
  · rintro (hfront | hrest)
    · exact hfront.trans (List.prefix_append _ _).isInfix
    · exact hrest.trans ((List.suffix_cons _ _).trans (List.suffix_append _ _)).isInfix

namespace NamesNonFinite

variable {front rest cs : List Char} {c : Char}

theorem mono (h : NamesNonFinite front) (hin : front <:+: cs) : NamesNonFinite cs :=
  h.imp (·.trans hin) (·.trans hin)

theorem append_cons_iff (h : isWordLetter c = false) :
    NamesNonFinite (front ++ c :: rest) ↔ NamesNonFinite front ∨ NamesNonFinite rest := by
  simp only [isWordLetter, Bool.or_eq_false_iff, decide_eq_false_iff_not] at h
  obtain ⟨⟨⟨hn, ha⟩, hi⟩, hf⟩ := h
  rw [NamesNonFinite, infix_append_cons_iff (by simp [hn, ha]),
    infix_append_cons_iff (by simp [hi, hn, hf])]
  exact or_or_or_comm

@[simp] theorem not_nil : ¬NamesNonFinite [] := by decide

theorem cons_iff (h : isWordLetter c = false) :
    NamesNonFinite (c :: rest) ↔ NamesNonFinite rest := by
  rw [← List.nil_append (c :: rest), append_cons_iff h]
  simp

/-- What is written without these letters may be left out at the start of a text. -/
theorem quiet_append_iff (h : ∀ c ∈ cs, isWordLetter c = false) :
    NamesNonFinite (cs ++ rest) ↔ NamesNonFinite rest := by
  induction cs with
  | nil => rfl
  | cons c cs ih =>
      rw [List.cons_append, cons_iff (h c List.mem_cons_self),
        ih fun d hd => h d (List.mem_cons_of_mem _ hd)]

theorem not_of_quiet (h : ∀ c ∈ cs, isWordLetter c = false) : ¬NamesNonFinite cs := by
  rw [← List.append_nil cs, quiet_append_iff h]
  exact not_nil

/-- In a row of texts one of them holds the word. -/
theorem intercalate_iff {parts : List (List Char)} (h : isWordLetter c = false) :
    NamesNonFinite ([c].intercalate parts) ↔ ∃ part ∈ parts, NamesNonFinite part := by
  induction parts with
  | nil => simp
  | cons part parts ih =>
      cases parts with
      | nil => simp
      | cons next parts =>
          rw [List.intercalate_cons_of_ne_nil (by simp), List.append_assoc, List.singleton_append,
            append_cons_iff h, ih]
          simp

end NamesNonFinite

/-! ### Numbers -/

theorem isWordLetter_of_isDigit {c : Char} (h : c.isDigit = true) : isWordLetter c = false := by
  have hne : ∀ d : Char, d.isDigit = false → c ≠ d := by
    rintro d hd rfl
    simp [h] at hd
  simp [isWordLetter, hne 'n' rfl, hne 'a' rfl, hne 'i' rfl, hne 'f' rfl]

theorem isWordLetter_of_mem_decimal {cs : List Char} (h : Decimal.IsDecimal cs) :
    ∀ c ∈ cs, isWordLetter c = false := by
  obtain ⟨negative, _, rfl, whole, fraction, exponent, rfl, hwhole, hfraction, hexponent⟩ := h
  have hdigits : ∀ {ds}, Decimal.Digits ds → ∀ c ∈ ds, isWordLetter c = false :=
    fun hds c hc => isWordLetter_of_isDigit (hds.2 c hc)
  have hmagnitude : ∀ c ∈ whole ++ (fraction ++ exponent), isWordLetter c = false := by
    intro c hc
    rcases List.mem_append.mp hc with hc | hc
    · exact hdigits hwhole c hc
    rcases List.mem_append.mp hc with hc | hc
    · rcases hfraction with rfl | ⟨places, rfl, hplaces⟩
      · cases hc
      · rcases List.mem_cons.mp hc with rfl | hc
        · rfl
        · exact hdigits hplaces c hc
    · rcases hexponent with rfl | ⟨sign, places, rfl, hsign, hplaces⟩
      · cases hc
      · rcases List.mem_cons.mp hc with rfl | hc
        · rfl
        rcases List.mem_cons.mp hc with rfl | hc
        · rcases hsign with rfl | rfl <;> rfl
        · exact hdigits hplaces c hc
  cases negative with
  | false => exact hmagnitude
  | true =>
      intro c hc
      rcases List.mem_cons.mp hc with rfl | hc
      · rfl
      · exact hmagnitude c hc

theorem Decimal.IsDecimal.not_namesNonFinite {cs : List Char} (h : IsDecimal cs) :
    ¬NamesNonFinite cs := NamesNonFinite.not_of_quiet (isWordLetter_of_mem_decimal h)

theorem Decimal.IsDecimal.ne_nil {cs : List Char} (h : IsDecimal cs) : cs ≠ [] := by
  rintro rfl
  obtain ⟨d, hd⟩ := h.read
  cases hd

namespace Binary64

/-- The text of a number holds a word exactly if the number is not finite. -/
theorem namesNonFinite_plain_iff {x : Binary64} :
    NamesNonFinite x.plain.toList ↔ x.isFinite = false := by
  rw [plain, String.toList_ofList]
  cases x with
  | nan => exact iff_of_true (by decide) rfl
  | infinite s => exact iff_of_true (by cases s <;> decide) rfl
  | finite s m e h =>
      have hdecimal : Decimal.IsDecimal (finite s m e h).plainChars := isDecimal_plainChars rfl
      exact iff_of_false hdecimal.not_namesNonFinite (by simp [isFinite])

end Binary64

/-! ### Filters -/

namespace Fragment

def isWords : Fragment → Bool
  | .words _ => true
  | _ => false

def isCalm : Fragment → Bool
  | .words s => !decide (NamesNonFinite s.toList)
  | .number x => x.isFinite
  | .integer _ => true

/-- A fragment that may stand behind fixed words: it does not begin with a letter. -/
def separates : Fragment → Bool
  | .words s => s.toList.head?.any fun c => !isWordLetter c
  | _ => true

/-- What stands behind fixed words separates them from the rest. -/
def apart : List Fragment → Bool
  | a :: b :: rest => (!a.isWords || b.separates) && apart (b :: rest)
  | _ => true

theorem isDecimal_text {f : Fragment} (hwords : f.isWords = false) (h : f.isCalm = true) :
    Decimal.IsDecimal f.text.toList := by
  cases f with
  | words s => cases hwords
  | number x =>
      rw [text, Binary64.plain, String.toList_ofList]
      exact Binary64.isDecimal_plainChars h
  | integer n =>
      rw [text, String.toList_ofList]
      exact Binary64.isDecimal_integerChars n

theorem not_namesNonFinite_text {f : Fragment} (h : f.isCalm = true) :
    ¬NamesNonFinite f.text.toList := by
  cases f with
  | words s => simpa [isCalm, text] using h
  | number x => exact (isDecimal_text rfl h).not_namesNonFinite
  | integer n => exact (isDecimal_text rfl h).not_namesNonFinite

theorem exists_head_of_separates {f : Fragment} (h : f.isCalm = true)
    (hseparates : f.separates = true) :
    ∃ c cs, f.text.toList = c :: cs ∧ isWordLetter c = false := by
  cases hf : f.isWords with
  | false =>
      have hdecimal := isDecimal_text hf h
      obtain ⟨c, cs, hcs⟩ := List.exists_cons_of_ne_nil hdecimal.ne_nil
      exact ⟨c, cs, hcs, isWordLetter_of_mem_decimal hdecimal c (hcs ▸ List.mem_cons_self)⟩
  | true =>
      cases f with
      | words s =>
          change (s.toList.head?.any fun c => !isWordLetter c) = true at hseparates
          show ∃ c cs, s.toList = c :: cs ∧ _
          cases hs : s.toList with
          | nil => simp [hs] at hseparates
          | cons c cs => exact ⟨c, cs, rfl, by simpa [hs] using hseparates⟩
      | _ => cases hf

/-- A row of fragments that are apart holds no word for a number that is not finite, unless one of
them does. -/
theorem not_namesNonFinite {fs : List Fragment} (hapart : apart fs = true)
    (h : ∀ f ∈ fs, f.isCalm = true) :
    ¬NamesNonFinite (fs.flatMap fun f => f.text.toList) := by
  induction fs with
  | nil => simp
  | cons f fs ih =>
      have hcalm := h f List.mem_cons_self
      have hrest := fun htail => ih htail fun g hg => h g (List.mem_cons_of_mem _ hg)
      cases fs with
      | nil => simpa using not_namesNonFinite_text hcalm
      | cons g fs =>
          simp only [apart, Bool.and_eq_true, Bool.or_eq_true, Bool.not_eq_true'] at hapart
          rcases hapart with ⟨hnumber | hseparates, htail⟩
          · have hquiet := isWordLetter_of_mem_decimal (isDecimal_text hnumber hcalm)
            rw [List.flatMap_cons, NamesNonFinite.quiet_append_iff hquiet]
            exact hrest htail
          -- a word would have to reach over the first character of the next fragment
          · obtain ⟨c, cs, hcs, hletter⟩ :=
              exists_head_of_separates (h g (List.mem_cons_of_mem _ List.mem_cons_self)) hseparates
            replace hrest := hrest htail
            rw [List.flatMap_cons, hcs, List.cons_append, NamesNonFinite.cons_iff hletter] at hrest
            rw [List.flatMap_cons, List.flatMap_cons, hcs, List.cons_append,
              NamesNonFinite.append_cons_iff hletter]
            exact not_or.mpr ⟨not_namesNonFinite_text hcalm, hrest⟩

end Fragment

namespace Filter

def numbers (f : Filter) : List Binary64 :=
  f.fragments.filterMap fun
    | .number x => some x
    | _ => none

theorem mem_numbers {f : Filter} {x : Binary64} : x ∈ f.numbers ↔ .number x ∈ f.fragments := by
  rw [numbers, List.mem_filterMap]
  constructor
  · rintro ⟨fragment, hmem, h⟩
    cases fragment with
    | number y =>
        cases h
        exact hmem
    | _ => cases h
  · exact fun h => ⟨_, h, rfl⟩

theorem apart_fragments (f : Filter) : Fragment.apart f.fragments = true := by
  cases f with
  | compressor threshold ratio attack release knee => cases knee <;> rfl
  | gate threshold ratio attack release => cases attack <;> cases release <;> rfl
  | limiter threshold release => cases release <;> rfl
  | _ => rfl

theorem isCalm_of_words (f : Filter) {s : String} (h : .words s ∈ f.fragments) :
    (Fragment.words s).isCalm = true := by
  have hall : (f.fragments.all fun g => !g.isWords || g.isCalm) = true := by
    cases f with
    | compressor threshold ratio attack release knee => cases knee <;> rfl
    | gate threshold ratio attack release => cases attack <;> cases release <;> rfl
    | limiter threshold release => cases release <;> rfl
    | _ => rfl
  simpa [Fragment.isWords] using List.all_eq_true.mp hall _ h

/-- The text of a filter holds a word exactly if one of its numbers is not finite. -/
theorem namesNonFinite_text_iff {f : Filter} :
    NamesNonFinite f.text.toList ↔ ∃ x ∈ f.numbers, x.isFinite = false := by
  have htext : f.text.toList = f.fragments.flatMap fun g => g.text.toList := by
    rw [text, String.toList_join, List.flatMap_map]
  rw [htext]
  constructor
  · intro h
    by_contra hfinite
    refine Fragment.not_namesNonFinite f.apart_fragments (fun g hg => ?_) h
    cases g with
    | words s => exact f.isCalm_of_words hg
    | number x =>
        by_contra hx
        exact hfinite ⟨x, mem_numbers.mpr hg, Bool.eq_false_iff.mpr hx⟩
    | integer n => rfl
  · rintro ⟨x, hx, hnot⟩
    have hnames : NamesNonFinite (Fragment.number x).text.toList :=
      Binary64.namesNonFinite_plain_iff.mpr hnot
    refine hnames.mono ?_
    rw [List.flatMap_def]
    exact List.infix_of_mem_flatten (List.mem_map.mpr ⟨_, mem_numbers.mp hx, rfl⟩)

end Filter

theorem Stage.namesNonFinite_text_iff {s : Stage} :
    NamesNonFinite s.text.toList ↔ ∃ f ∈ s, ∃ x ∈ f.numbers, x.isFinite = false := by
  rw [text, String.toList_intercalate]
  show NamesNonFinite ([','].intercalate _) ↔ _
  rw [NamesNonFinite.intercalate_iff rfl]
  simp [Filter.namesNonFinite_text_iff]

end Soundworks
