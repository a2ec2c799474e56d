import Soundworks.Decimal.Loose
import Soundworks.Proofs.Filter.Decimal
/-!
The texts that denote numbers, given by a grammar and not by a reader. Around a number stand blanks,
its digits are of any script, and an underscore may stand between two of them. The readers of
integers and of floating-point numbers accept the texts of the grammar and no other ones, with the
value that the grammar gives.
-/

namespace Soundworks.Decimal

/-! ### Separators -/

/-- The second text is the first one without its underscores, each of which stands between two
digits. -/
inductive Separated : List Char → List Char → Prop
  | nil : Separated [] []
  | keep {c : Char} {cs plain : List Char} :
      c ≠ '_' → Separated cs plain → Separated (c :: cs) (c :: plain)
  | drop {c d : Char} {cs plain : List Char} : c.isDigit = true → d.isDigit = true →
      Separated (d :: cs) plain → Separated (c :: '_' :: d :: cs) (c :: plain)

/-- The rest of a text behind a character, which counts for an underscore that comes next. -/
def SeparatedAfter (last : Char) (cs plain : List Char) : Prop :=
  Separated cs plain ∨
    ∃ d rest, cs = '_' :: d :: rest ∧ last.isDigit = true ∧ d.isDigit = true ∧
      Separated (d :: rest) plain

theorem not_separated_underscore {cs plain : List Char} : ¬Separated ('_' :: cs) plain := by
  intro h
  cases h with
  | keep hne _ => exact hne rfl
  | drop hdigit _ _ => exact absurd hdigit (by decide)

theorem separated_cons_iff {c : Char} {cs plain : List Char} (hc : c ≠ '_') :
    Separated (c :: cs) plain ↔ ∃ rest, plain = c :: rest ∧ SeparatedAfter c cs rest := by
  constructor
  · intro h
    cases h with
    | keep _ h => exact ⟨_, rfl, .inl h⟩
    | drop hc hd h => exact ⟨_, rfl, .inr ⟨_, _, rfl, hc, hd, h⟩⟩
  · rintro ⟨rest, rfl, h | ⟨d, cs, rfl, hdigit, hd, h⟩⟩
    · exact .keep hc h
    · exact .drop hdigit hd h

theorem separatedAfter_iff {last : Char} {cs plain : List Char} (h : last.isDigit = false) :
    SeparatedAfter last cs plain ↔ Separated cs plain := by
  simp [SeparatedAfter, h]

theorem dropSeparators?_eq_some_iff {last : Char} {cs plain : List Char} :
    dropSeparators? last cs = some plain ↔ SeparatedAfter last cs plain := by
  induction cs generalizing last plain with
  | nil =>
      simp only [dropSeparators?, Option.some.injEq]
      constructor
      · rintro rfl
        exact .inl .nil
      · rintro (h | ⟨d, rest, h, -⟩)
        · cases h
          rfl
        · cases h
  | cons c cs ih =>
      by_cases hc : c = '_'
      · subst hc
        cases cs with
        | nil => simp [dropSeparators?, SeparatedAfter, not_separated_underscore]
        | cons d rest =>
            by_cases h : last.isDigit = true ∧ d.isDigit = true
            · rw [dropSeparators?, if_pos rfl, if_pos (by simpa using h), ih,
                separatedAfter_iff (by decide)]
              simp [SeparatedAfter, not_separated_underscore, h]
            · rw [dropSeparators?, if_pos rfl, if_neg (by simpa using h)]
              simp only [reduceCtorEq, SeparatedAfter, not_separated_underscore, false_or,
                false_iff]
              rintro ⟨d', rest', heq, hlast, hd, -⟩
              cases heq
              exact h ⟨hlast, hd⟩
      · simp only [dropSeparators?, if_neg hc, Option.map_eq_some_iff, ih]
        rw [show SeparatedAfter last (c :: cs) plain ↔ Separated (c :: cs) plain by
          simp [SeparatedAfter, hc], separated_cons_iff hc]
        simp only [eq_comm, and_comm]

/-- A character of a text is an underscore, or is kept. -/
theorem Separated.mem {cs plain : List Char} (h : Separated cs plain) {c : Char} (hc : c ∈ cs) :
    c = '_' ∨ c ∈ plain := by
  induction h with
  | nil => cases hc
  | keep _ _ ih => grind
  | drop _ _ _ ih => grind

theorem Separated.mem_of_mem {cs plain : List Char} (h : Separated cs plain) {c : Char}
    (hc : c ∈ plain) : c ∈ cs := by
  induction h with
  | nil => cases hc
  | keep _ _ ih => grind
  | drop _ _ _ ih => grind

/-! ### Digits of other scripts and blanks -/

/-- The code points of the blanks. -/
def spaces : List Nat :=
  [9, 10, 11, 12, 13, 0x20, 0x85, 0xa0, 0x1680, 0x2000, 0x2001, 0x2002, 0x2003, 0x2004, 0x2005,
    0x2006, 0x2007, 0x2008, 0x2009, 0x200a, 0x2028, 0x2029, 0x202f, 0x205f, 0x3000]

theorem toNat_mem_spaces {c : Char} (h : Text.isSpace c = true) : c.toNat ∈ spaces := by
  simp only [Text.isSpace, Bool.or_eq_true, Bool.and_eq_true, decide_eq_true_eq] at h
  simp only [spaces, List.mem_cons, List.not_mem_nil]
  omega

theorem digitValue?_of_isSpace {c : Char} (h : Text.isSpace c = true) :
    Text.digitValue? c = none := by
  have houtside : ∀ n ∈ spaces, ∀ start ∈ Text.decimalZeros, ¬(start ≤ n ∧ n < start + 10) := by
    decide
  simp only [Text.digitValue?, Option.map_eq_none_iff, List.find?_eq_none, Bool.and_eq_true,
    decide_eq_true_eq]
  exact houtside _ (toNat_mem_spaces h)

theorem foldDigit_of_isSpace {c : Char} (h : Text.isSpace c = true) : Text.foldDigit c = c := by
  simp [Text.foldDigit, digitValue?_of_isSpace h]

theorem digitValue?_lt {c : Char} {d : Nat} (h : Text.digitValue? c = some d) : d < 10 := by
  simp only [Text.digitValue?, Option.map_eq_some_iff] at h
  obtain ⟨start, hfind, rfl⟩ := h
  have := List.find?_some hfind
  simp only [Bool.and_eq_true, decide_eq_true_eq] at this
  omega

theorem isSpace_foldDigit (c : Char) : Text.isSpace (Text.foldDigit c) = Text.isSpace c := by
  cases hd : Text.digitValue? c with
  | none => simp [Text.foldDigit, hd]
  | some d =>
      have hc : Text.isSpace c = false := by
        by_contra h
        rw [digitValue?_of_isSpace (by simpa using h)] at hd
        cases hd
      have hdigit : ∀ d < 10, Text.isSpace (Char.ofNat ('0'.toNat + d)) = false := by decide
      simp only [Text.foldDigit, hd, hc]
      exact hdigit d (digitValue?_lt hd)

/-- A text as people write a number: blanks, the characters of the number, and blanks. -/
def Loose (s : String) (plain : List Char) : Prop :=
  ∃ before core after, s.toList = before ++ (core ++ after) ∧
    (∀ c ∈ before, Text.isSpace c = true) ∧ (∀ c ∈ after, Text.isSpace c = true) ∧
    (∀ c ∈ core, Text.isSpace c = false) ∧ Separated (core.map Text.foldDigit) plain

theorem Loose.not_isSpace {s : String} {plain : List Char} (h : Loose s plain) {c : Char}
    (hc : c ∈ plain) : Text.isSpace c = false := by
  obtain ⟨before, core, after, -, -, -, hcore, hplain⟩ := h
  obtain ⟨d, hd, rfl⟩ := List.mem_map.mp (hplain.mem_of_mem hc)
  rw [isSpace_foldDigit]
  exact hcore d hd

theorem trimWhile_eq_of_append {p : Char → Bool} {before core after : List Char}
    (hbefore : ∀ c ∈ before, p c = true) (hafter : ∀ c ∈ after, p c = true)
    (hcore : ∀ c ∈ core, p c = false) :
    Text.trimWhile p (before ++ (core ++ after)) = core := by
  have hdrop : ∀ {cs ds : List Char}, (∀ c ∈ cs, p c = true) → (∀ d ∈ ds.head?, p d = false) →
      (cs ++ ds).dropWhile p = ds := by
    intro cs ds hcs hds
    rw [List.dropWhile_append_of_pos hcs]
    cases ds with
    | nil => rfl
    | cons d ds => rw [List.dropWhile_cons_of_neg (by simpa using hds d rfl)]
  unfold Text.trimWhile
  cases core with
  | nil =>
      have hall : (before ++ after).dropWhile p = [] :=
        List.dropWhile_eq_nil_iff.mpr (List.forall_mem_append.mpr ⟨hbefore, hafter⟩)
      rw [List.nil_append, hall]
      rfl
  | cons c core =>
      rw [hdrop hbefore (by simpa using hcore c List.mem_cons_self), List.reverse_append,
        hdrop (by simpa using hafter), List.reverse_reverse]
      intro d hd
      exact hcore d (List.mem_reverse.mp (List.mem_of_mem_head? hd))

theorem exists_trimWhile (p : Char → Bool) (cs : List Char) : ∃ before after,
    cs = before ++ (Text.trimWhile p cs ++ after) ∧ (∀ c ∈ before, p c = true) ∧
      ∀ c ∈ after, p c = true := by
  refine ⟨cs.takeWhile p, ((cs.dropWhile p).reverse.takeWhile p).reverse, ?_, ?_, ?_⟩
  · rw [Text.trimWhile, ← List.reverse_append, List.takeWhile_append_dropWhile,
      List.reverse_reverse, List.takeWhile_append_dropWhile]
  · exact fun c hc => List.mem_takeWhile_imp hc
  · exact fun c hc => List.mem_takeWhile_imp (List.mem_reverse.mp hc)

/-- The reader of plain forms yields a form without blanks for these texts only. -/
theorem loose_iff {s : String} {plain : List Char} :
    Loose s plain ↔ plainForm? s = some plain ∧ ∀ c ∈ plain, Text.isSpace c = false := by
  have hplain : plainForm? s = some plain ↔
      Separated ((Text.trimWhile Text.isSpace s.toList).map Text.foldDigit) plain := by
    rw [plainForm?, dropSeparators?_eq_some_iff, separatedAfter_iff (by decide)]
  rw [hplain]
  constructor
  · intro h
    refine ⟨?_, fun c => h.not_isSpace⟩
    obtain ⟨before, core, after, hs, hbefore, hafter, hcore, h⟩ := h
    rwa [hs, trimWhile_eq_of_append hbefore hafter hcore]
  · rintro ⟨h, hblank⟩
    obtain ⟨before, after, hs, hbefore, hafter⟩ := exists_trimWhile Text.isSpace s.toList
    refine ⟨before, _, after, hs, hbefore, hafter, fun c hc => ?_, h⟩
    by_contra hspace
    have hspace : Text.isSpace c = true := by simpa using hspace
    have hmem := List.mem_map_of_mem (f := Text.foldDigit) hc
    rw [foldDigit_of_isSpace hspace] at hmem
    rcases h.mem hmem with rfl | hc
    · exact absurd hspace (by decide)
    · rw [hblank c hc] at hspace
      cases hspace

/-! ### Signs -/

/-- A sign or no sign, and whether it is a minus sign. -/
inductive Sign : Bool → List Char → Prop
  | none : Sign false []
  | plus : Sign false ['+']
  | minus : Sign true ['-']

theorem splitSign_eq_iff {cs rest : List Char} {negative : Bool}
    (h : ∀ c ∈ rest.head?, c ≠ '-' ∧ c ≠ '+') :
    splitSign cs = (negative, rest) ↔ ∃ sign, Sign negative sign ∧ cs = sign ++ rest := by
  constructor
  · intro heq
    unfold splitSign at heq
    split at heq
    · cases heq
      exact ⟨_, .minus, rfl⟩
    · cases heq
      exact ⟨_, .plus, rfl⟩
    · cases heq
      exact ⟨_, .none, rfl⟩
  · rintro ⟨sign, hsign, rfl⟩
    cases hsign with
    | none =>
        cases rest with
        | nil => rfl
        | cons c rest =>
            obtain ⟨hminus, hplus⟩ := h c rfl
            rw [List.nil_append]
            unfold splitSign
            split <;> simp_all
    | plus => rfl
    | minus => rfl

theorem Sign.not_isSpace {negative : Bool} {sign : List Char} (h : Sign negative sign) {c : Char}
    (hc : c ∈ sign) : Text.isSpace c = false := by
  cases h with
  | none => cases hc
  | plus =>
      rw [List.mem_singleton.mp hc]
      decide
  | minus =>
      rw [List.mem_singleton.mp hc]
      decide

/-! ### Integers -/

theorem isAlpha_iff {c : Char} : c.isAlpha = true ↔
    (65 ≤ c.toNat ∧ c.toNat ≤ 90) ∨ (97 ≤ c.toNat ∧ c.toNat ≤ 122) := by
  show (decide (65 ≤ c.toNat ∧ c.toNat ≤ 90) ||
    (decide (97 ≤ c.toNat) && decide (c.toNat ≤ 122))) = true ↔ _
  simp

theorem isDigit_iff {c : Char} : c.isDigit = true ↔ 48 ≤ c.toNat ∧ c.toNat ≤ 57 := by
  show (decide (48 ≤ c.toNat) && decide (c.toNat ≤ 57)) = true ↔ _
  simp

theorem not_isSpace_of_isAlphanum {c : Char} (h : c.isAlphanum = true) :
    Text.isSpace c = false := by
  simp only [Char.isAlphanum, Bool.or_eq_true, isAlpha_iff, isDigit_iff] at h
  by_contra hspace
  have hmem := toNat_mem_spaces (by simpa using hspace)
  have hnone : ∀ n ∈ spaces,
      ¬(((65 ≤ n ∧ n ≤ 90) ∨ (97 ≤ n ∧ n ≤ 122)) ∨ (48 ≤ n ∧ n ≤ 57)) := by
    decide
  exact hnone _ hmem h

theorem isAlphanum_of_isDigit {c : Char} (h : c.isDigit = true) : c.isAlphanum = true := by
  simp [Char.isAlphanum, h]

theorem Digits.head_ne_sign {cs : List Char} (h : Digits cs) :
    ∀ c ∈ cs.head?, c ≠ '-' ∧ c ≠ '+' := by
  intro c hc
  have hdigit := h.2 c (List.mem_of_mem_head? hc)
  constructor <;> rintro rfl <;> exact absurd hdigit (by decide)

/-- A text that denotes an integer: a sign or no sign, and digits that are not too many. -/
def IntegerText (s : String) (n : Int) : Prop :=
  ∃ negative sign digits, Loose s (sign ++ digits) ∧ Sign negative sign ∧ Digits digits ∧
    digits.length ≤ digitLimit ∧ n = if negative then -(ofDigits digits : Int) else ofDigits digits

theorem looseInteger?_eq_some_iff {s : String} {n : Int} :
    looseInteger? s = some n ↔ IntegerText s n := by
  constructor
  · intro h
    simp only [looseInteger?, Option.bind_eq_bind, Option.bind_eq_some_iff] at h
    obtain ⟨plain, hplain, h⟩ := h
    rcases hsplit : splitSign plain with ⟨negative, digits⟩
    simp only [hsplit, Option.pure_def, Option.ite_none_right_eq_some, Option.some.injEq] at h
    obtain ⟨⟨hne, hall, hlength⟩, rfl⟩ := h
    have hdigits : Digits digits := ⟨hne, List.all_eq_true.mp hall⟩
    obtain ⟨sign, hsign, rfl⟩ := (splitSign_eq_iff hdigits.head_ne_sign).mp hsplit
    refine ⟨negative, sign, digits, loose_iff.mpr ⟨hplain, ?_⟩, hsign, hdigits, hlength, rfl⟩
    refine List.forall_mem_append.mpr ⟨fun _ => hsign.not_isSpace, fun c hc => ?_⟩
    exact not_isSpace_of_isAlphanum (isAlphanum_of_isDigit (hdigits.2 c hc))
  · rintro ⟨negative, sign, digits, hloose, hsign, hdigits, hlength, rfl⟩
    have hsplit := (splitSign_eq_iff hdigits.head_ne_sign).mpr ⟨sign, hsign, rfl⟩
    simp only [looseInteger?, (loose_iff.mp hloose).1, Option.bind_eq_bind, Option.bind_some,
      hsplit]
    rw [if_pos ⟨hdigits.1, List.all_eq_true.mpr hdigits.2, hlength⟩]
    rfl

/-! ### Floating-point numbers -/

/-- The fraction of a decimal: nothing, or a point and digits, which may be missing. -/
inductive Fraction : List Char → List Char → Prop
  | none : Fraction [] []
  | point {places : List Char} : (∀ c ∈ places, c.isDigit = true) → Fraction places ('.' :: places)

/-- The exponent of a decimal: nothing, or a letter, a sign or no sign, and digits. -/
inductive Exponent : Int → List Char → Prop
  | none : Exponent 0 []
  | digits {letter : Char} {negative : Bool} {sign digits : List Char} :
      (letter = 'e' ∨ letter = 'E') → Sign negative sign → Digits digits →
      Exponent (if negative then -(ofDigits digits : Int) else ofDigits digits)
        (letter :: (sign ++ digits))

/-- A decimal without its sign, its digits without the point and the exponent of the last one. It
has a digit before the point or behind it. -/
inductive Unsigned : Nat → Int → List Char → Prop
  | intro {whole places fraction exponent : List Char} {e : Int} :
      (∀ c ∈ whole, c.isDigit = true) → Fraction places fraction → (whole ≠ [] ∨ places ≠ []) →
      Exponent e exponent →
      Unsigned (ofDigits (whole ++ places)) (e - places.length) (whole ++ (fraction ++ exponent))

/-- A number without its sign: a word for infinity or for the undefined number, or a decimal. -/
inductive Magnitude (negative : Bool) : Binary64 → List Char → Prop
  | infinity {cs : List Char} :
      (cs.map Char.toLower = "inf".toList ∨ cs.map Char.toLower = "infinity".toList) →
      Magnitude negative (.infinite negative) cs
  | undefined {cs : List Char} : cs.map Char.toLower = "nan".toList → Magnitude negative .nan cs
  | decimal {cs : List Char} {digits : Nat} {exponent : Int} : Unsigned digits exponent cs →
      Magnitude negative (toBinary64 ⟨negative, digits, exponent⟩) cs

/-- A text that denotes a floating-point number. -/
def NumberText (s : String) (x : Binary64) : Prop :=
  ∃ negative sign magnitude, Loose s (sign ++ magnitude) ∧ Sign negative sign ∧
    Magnitude negative x magnitude

theorem readExponent?_eq_some_iff {cs : List Char} {e : Int} :
    readExponent? cs = some e ↔ Exponent e cs := by
  constructor
  · intro h
    unfold readExponent? at h
    split at h
    · cases h
      exact .none
    · rename_i letter rest
      rcases hsplit : splitSign rest with ⟨negative, digits⟩
      simp only [hsplit, Option.ite_none_right_eq_some, Option.some.injEq] at h
      obtain ⟨hletter, ⟨hne, hall⟩, rfl⟩ := h
      have hdigits : Digits digits := ⟨hne, List.all_eq_true.mp hall⟩
      obtain ⟨sign, hsign, rfl⟩ := (splitSign_eq_iff hdigits.head_ne_sign).mp hsplit
      exact .digits hletter hsign hdigits
  · intro h
    cases h with
    | none => rfl
    | digits hletter hsign hdigits =>
        have hsplit := (splitSign_eq_iff hdigits.head_ne_sign).mpr ⟨_, hsign, rfl⟩
        simp only [readExponent?, if_pos hletter, hsplit]
        rw [if_pos ⟨hdigits.1, List.all_eq_true.mpr hdigits.2⟩]

theorem Exponent.head {e : Int} {cs : List Char} (h : Exponent e cs) :
    ∀ c ∈ cs.head?, c = 'e' ∨ c = 'E' := by
  cases h with
  | none => simp
  | digits hletter _ _ => simpa using hletter

theorem readUnsigned?_eq_some_iff {negative : Bool} {cs : List Char} {d : Decimal} :
    readUnsigned? negative cs = some d ↔
      ∃ digits exponent, Unsigned digits exponent cs ∧ d = ⟨negative, digits, exponent⟩ := by
  have hdigits : ∀ ds : List Char, ∀ c ∈ ds.takeWhile Char.isDigit, c.isDigit = true :=
    fun _ _ hc => List.mem_takeWhile_imp hc
  have hletter : ∀ {cs : List Char} {e : Int}, Exponent e cs →
      ∀ c ∈ cs.head?, c.isDigit = false := by
    intro cs e h c hc
    rcases h.head c hc with rfl | rfl <;> decide
  constructor
  · intro h
    unfold readUnsigned? at h
    dsimp only at h
    have hcs : cs.takeWhile Char.isDigit ++ cs.dropWhile Char.isDigit = cs :=
      List.takeWhile_append_dropWhile
    split at h
    · rename_i t hrest
      simp only [Option.ite_none_left_eq_some, Option.map_eq_some_iff] at h
      obtain ⟨hne, e, he, rfl⟩ := h
      have hread := Unsigned.intro (hdigits cs) (.point (hdigits t)) (not_and_or.mp hne)
        (readExponent?_eq_some_iff.mp he)
      rw [List.cons_append, List.takeWhile_append_dropWhile, ← hrest, hcs] at hread
      exact ⟨_, _, hread, rfl⟩
    · simp only [and_true, Option.ite_none_left_eq_some, Option.map_eq_some_iff] at h
      obtain ⟨hne, e, he, rfl⟩ := h
      have hread := Unsigned.intro (hdigits cs) .none (.inl hne) (readExponent?_eq_some_iff.mp he)
      rw [List.nil_append, hcs] at hread
      exact ⟨_, _, hread, rfl⟩
  · rintro ⟨_, _, @⟨whole, places, fraction, exponent, e, hwhole, hfraction, hne, hexponent⟩, rfl⟩
    have he := readExponent?_eq_some_iff.mpr hexponent
    cases hfraction with
    | none =>
        obtain ⟨htake, hdrop⟩ := takeWhile_digits exponent hwhole (hletter hexponent)
        have hwholene := hne.resolve_right (by simp)
        simp only [readUnsigned?, List.nil_append, htake, hdrop]
        cases hexponent with
        | none => simp [hwholene, he]
        | digits hletter hsign hplaces => rcases hletter with rfl | rfl <;> simp [hwholene, he]
    | point hplaces =>
        obtain ⟨htake, hdrop⟩ := takeWhile_digits ('.' :: (places ++ exponent)) hwhole (by simp)
        obtain ⟨htakePlaces, hdropPlaces⟩ := takeWhile_digits exponent hplaces (hletter hexponent)
        simp only [readUnsigned?, List.cons_append, htake, hdrop, htakePlaces, hdropPlaces]
        rw [if_neg (not_and_or.mpr hne), he]
        rfl

/-- The words for numbers, in lower case. A word starts with a letter and a decimal with a digit or
a point, so the order in which a reader tries them is of no matter. -/
def words : List (List Char) := ["inf".toList, "infinity".toList, "nan".toList]

theorem isAlpha_of_toLower {c : Char} (h : c.toLower.isAlpha = true) : c.isAlpha = true := by
  unfold Char.toLower at h
  split at h
  · next hupper => exact isAlpha_iff.mpr (.inl hupper)
  · exact h

theorem isAlpha_of_word {cs : List Char} (h : cs.map Char.toLower ∈ words) :
    ∀ c ∈ cs, c.isAlpha = true := by
  intro c hc
  have hletters : words.all (List.all · Char.isAlpha) = true := by decide
  have hword := List.all_eq_true.mp hletters _ h
  exact isAlpha_of_toLower (List.all_eq_true.mp hword _ (List.mem_map_of_mem hc))

theorem Unsigned.head {digits : Nat} {exponent : Int} {cs : List Char}
    (h : Unsigned digits exponent cs) :
    ∃ c rest, cs = c :: rest ∧ (c.isDigit = true ∨ c = '.') := by
  obtain @⟨whole, places, fraction, exponent, e, hwhole, hfraction, hne, -⟩ := h
  cases whole with
  | nil =>
      cases hfraction with
      | none => exact absurd hne (by simp)
      | point _ => exact ⟨'.', _, rfl, .inr rfl⟩
  | cons c rest => exact ⟨c, _, rfl, .inl (hwhole c List.mem_cons_self)⟩

theorem Unsigned.mem {digits : Nat} {exponent : Int} {cs : List Char}
    (h : Unsigned digits exponent cs) {c : Char} (hc : c ∈ cs) :
    c.isDigit = true ∨ c ∈ ['.', 'e', 'E', '+', '-'] := by
  obtain ⟨hwhole, hfraction, hne, hexponent⟩ := h
  rcases List.mem_append.mp hc with hc | hc
  · exact .inl (hwhole c hc)
  rcases List.mem_append.mp hc with hc | hc
  · cases hfraction with
    | none => cases hc
    | point hplaces =>
        rcases List.mem_cons.mp hc with rfl | hc
        · simp
        · exact .inl (hplaces c hc)
  · cases hexponent with
    | none => cases hc
    | digits hletter hsign hdigits =>
        rcases List.mem_cons.mp hc with rfl | hc
        · rcases hletter with rfl | rfl <;> simp
        · rcases List.mem_append.mp hc with hc | hc
          · cases hsign <;> simp_all
          · exact .inl (hdigits.2 c hc)

theorem Unsigned.not_word {digits : Nat} {exponent : Int} {cs : List Char}
    (h : Unsigned digits exponent cs) : cs.map Char.toLower ∉ words := by
  intro hword
  obtain ⟨c, rest, rfl, hc⟩ := h.head
  have halpha := isAlpha_of_word hword c List.mem_cons_self
  rcases hc with hc | rfl
  · rw [isDigit_iff] at hc
    rw [isAlpha_iff] at halpha
    omega
  · exact absurd halpha (by decide)

theorem Magnitude.word_or_unsigned {negative : Bool} {x : Binary64} {cs : List Char}
    (h : Magnitude negative x cs) :
    cs.map Char.toLower ∈ words ∨ ∃ digits exponent, Unsigned digits exponent cs := by
  cases h with
  | infinity h => exact .inl (by rcases h with h | h <;> simp [words, h])
  | undefined h => exact .inl (by simp [words, h])
  | decimal h => exact .inr ⟨_, _, h⟩

theorem Magnitude.not_isSpace {negative : Bool} {x : Binary64} {cs : List Char}
    (h : Magnitude negative x cs) {c : Char} (hc : c ∈ cs) : Text.isSpace c = false := by
  rcases h.word_or_unsigned with hword | ⟨digits, exponent, h⟩
  · exact not_isSpace_of_isAlphanum (by simp [Char.isAlphanum, isAlpha_of_word hword c hc])
  · rcases h.mem hc with hdigit | hmark
    · exact not_isSpace_of_isAlphanum (isAlphanum_of_isDigit hdigit)
    · have hmarks : ['.', 'e', 'E', '+', '-'].all (!Text.isSpace ·) = true := by decide
      simpa using List.all_eq_true.mp hmarks c hmark

theorem Magnitude.head_ne_sign {negative : Bool} {x : Binary64} {cs : List Char}
    (h : Magnitude negative x cs) : ∀ c ∈ cs.head?, c ≠ '-' ∧ c ≠ '+' := by
  intro c hc
  have hstart : c.isAlpha = true ∨ c.isDigit = true ∨ c = '.' := by
    rcases h.word_or_unsigned with hword | ⟨digits, exponent, h⟩
    · exact .inl (isAlpha_of_word hword c (List.mem_of_mem_head? hc))
    · obtain ⟨d, rest, rfl, hd⟩ := h.head
      cases hc
      exact .inr hd
  constructor <;> rintro rfl <;> exact absurd hstart (by decide)

/-- What is left of the reader of numbers once the sign is gone. -/
theorem ofChars?_eq_some_iff {negative : Bool} {cs magnitude : List Char} {x : Binary64}
    (h : splitSign cs = (negative, magnitude)) :
    Binary64.ofChars? cs = some x ↔ Magnitude negative x magnitude := by
  simp only [Binary64.ofChars?, Binary64.ofWord?, read?, h]
  constructor
  · intro heq
    split at heq
    · rename_i y hword
      cases heq
      split at hword
      · rename_i hinfinity
        cases hword
        exact .infinity hinfinity
      · split at hword
        · rename_i hnan
          cases hword
          exact .undefined hnan
        · cases hword
    · simp only [Option.map_eq_some_iff] at heq
      obtain ⟨d, hd, rfl⟩ := heq
      obtain ⟨digits, exponent, hunsigned, rfl⟩ := readUnsigned?_eq_some_iff.mp hd
      exact .decimal hunsigned
  · intro hmagnitude
    cases hmagnitude with
    | infinity hword => rw [if_pos hword]
    | undefined hword =>
        rw [if_neg (by rw [hword]; decide), if_pos hword]
    | decimal hunsigned =>
        have hword := hunsigned.not_word
        simp only [words, List.mem_cons, List.not_mem_nil, or_false, not_or] at hword
        rw [if_neg (not_or.mpr ⟨hword.1, hword.2.1⟩), if_neg hword.2.2]
        simp only [readUnsigned?_eq_some_iff.mpr ⟨_, _, hunsigned, rfl⟩, Option.map_some]

theorem looseNumber?_eq_some_iff {s : String} {x : Binary64} :
    looseNumber? s = some x ↔ NumberText s x := by
  simp only [looseNumber?, Option.bind_eq_bind, Option.bind_eq_some_iff]
  constructor
  · rintro ⟨plain, hplain, h⟩
    rcases hsplit : splitSign plain with ⟨negative, magnitude⟩
    have hmagnitude := (ofChars?_eq_some_iff hsplit).mp h
    obtain ⟨sign, hsign, rfl⟩ := (splitSign_eq_iff hmagnitude.head_ne_sign).mp hsplit
    refine ⟨negative, sign, magnitude, loose_iff.mpr ⟨hplain, ?_⟩, hsign, hmagnitude⟩
    exact List.forall_mem_append.mpr ⟨fun _ => hsign.not_isSpace, fun _ => hmagnitude.not_isSpace⟩
  · rintro ⟨negative, sign, magnitude, hloose, hsign, hmagnitude⟩
    have hsplit := (splitSign_eq_iff hmagnitude.head_ne_sign).mpr ⟨sign, hsign, rfl⟩
    exact ⟨_, (loose_iff.mp hloose).1, (ofChars?_eq_some_iff hsplit).mpr hmagnitude⟩

end Soundworks.Decimal
