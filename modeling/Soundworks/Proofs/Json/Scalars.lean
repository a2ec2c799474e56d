import Soundworks.Json.Printer
import Soundworks.Proofs.Decimal.Standard
import Soundworks.Proofs.Json.Holds
/-!
Numbers and strings as they are printed, and how they are read. Each statement has what follows as a
parameter: a number ends where neither a digit nor a part of a number can come next, and a string
ends by itself.
-/

namespace Soundworks.Json

/-! ### Gaps and words -/

theorem skipGap_append {gap : List Char} (h : ∀ c ∈ gap, isGap c = true) (cs : List Char) :
    skipGap (gap ++ cs) = skipGap cs :=
  List.dropWhile_append_of_pos h

theorem skipGap_cons {c : Char} (h : isGap c = false) (cs : List Char) :
    skipGap (c :: cs) = c :: cs := by
  rw [skipGap, List.dropWhile_cons_of_neg (by simp [h])]

theorem dropWord?_append (word rest : List Char) : dropWord? word (word ++ rest) = some rest := by
  induction word with
  | nil => rfl
  | cons c word ih =>
      rw [List.cons_append, dropWord?, if_pos rfl]
      exact ih

/-- What comes after a value: a gap, a comma, a bracket or nothing. -/
def Ends (rest : List Char) : Prop :=
  ∀ c ∈ rest.head?, isGap c = true ∨ c = ',' ∨ c = ']' ∨ c = '}'

theorem Ends.head {rest : List Char} (h : Ends rest) :
    ∀ c ∈ rest.head?, c.isDigit = false ∧ c ≠ '.' ∧ c ≠ 'e' ∧ c ≠ 'E' := by
  intro c hc
  have hgap : ∀ c, isGap c = true → c = ' ' ∨ c = '\t' ∨ c = '\n' ∨ c = '\r' := by
    intro c hc
    simpa [isGap, or_assoc] using hc
  rcases h c hc with hgap' | rfl | rfl | rfl
  · rcases hgap c hgap' with rfl | rfl | rfl | rfl <;> decide
  all_goals decide

/-! ### Numbers -/

section

variable {d : Dialect} {rest : List Char}

theorem spanDigits_append {ds : List Char} (h : ∀ c ∈ ds, c.isDigit = true)
    (hrest : ∀ c ∈ rest.head?, c.isDigit = false) : spanDigits (ds ++ rest) = (ds, rest) := by
  obtain ⟨htake, hdrop⟩ := Decimal.takeWhile_digits rest h hrest
  rw [spanDigits, htake, hdrop]

theorem readFraction?_places {places fraction : List Char} (h : Decimal.Places places fraction)
    (hrest : ∀ c ∈ rest.head?, c.isDigit = false ∧ c ≠ '.') :
    readFraction? (fraction ++ rest) = some (fraction, rest) := by
  cases h with
  | none =>
      cases rest with
      | nil => rfl
      | cons c rest =>
          rw [List.nil_append]
          unfold readFraction?
          split
          · rename_i heq
            cases heq
            exact absurd rfl (hrest '.' rfl).2
          · rfl
  | point hplaces =>
      rw [List.cons_append]
      simp only [readFraction?, spanDigits_append hplaces.2 fun c hc => (hrest c hc).1,
        if_neg hplaces.1]

def unsignedPower : List Char → List Char
  | 'e' :: '+' :: ds => 'e' :: ds
  | cs => cs

theorem readExponent?_power {e : ℤ} {power : List Char} (h : Decimal.Power e power)
    (hrest : ∀ c ∈ rest.head?, c.isDigit = false ∧ c ≠ 'e' ∧ c ≠ 'E') :
    readExponent? (power ++ rest) = some (unsignedPower power, rest) := by
  cases h with
  | none =>
      cases rest with
      | nil => rfl
      | cons c rest =>
          obtain ⟨-, he, hE⟩ := hrest c rfl
          rw [List.nil_append]
          unfold readExponent?
          exact if_neg (by simp [he, hE])
  | minus hds =>
      simp only [List.cons_append, readExponent?, true_or, if_true,
        spanDigits_append hds.2 fun c hc => (hrest c hc).1, if_neg hds.1]
      rfl
  | plus hds =>
      simp only [List.cons_append, readExponent?, true_or, if_true,
        spanDigits_append hds.2 fun c hc => (hrest c hc).1, if_neg hds.1]
      rfl

theorem exponent_unsignedPower {e : ℤ} {power : List Char} (h : Decimal.Power e power) :
    Decimal.Exponent e (unsignedPower power) := by
  cases h with
  | none => exact .none
  | minus hds => exact .digits (.inl rfl) .minus hds
  | plus hds => exact .digits (.inl rfl) .none hds

theorem unsignedPower_eq_nil {power : List Char} (h : unsignedPower power = []) : power = [] := by
  unfold unsignedPower at h
  split at h
  · cases h
  · exact h

theorem head_power {e : ℤ} {power : List Char} (h : Decimal.Power e power) :
    ∀ c ∈ (power ++ rest).head?, c = 'e' ∨ c ∈ rest.head? := by
  cases h <;> simp +contextual

/-- A number in the standard form is read as what its decimal is rounded to. -/
theorem readMagnitude?_standard (negative : Bool) {digits : ℕ} {exponent : ℤ}
    {whole places fraction power : List Char} {e : ℤ} (hwhole : Decimal.Leading whole)
    (hlength : whole.length ≤ 16) (hplaces : Decimal.Places places fraction)
    (hpower : Decimal.Power e power) (hshown : fraction ≠ [] ∨ power ≠ [])
    (hdigits : digits = Decimal.ofDigits (whole ++ places))
    (hexponent : exponent = e - places.length) (hlimit : 17 ≤ d.digits) (hrest : Ends rest) :
    d.readMagnitude? negative (whole ++ (fraction ++ power) ++ rest) =
      some (.number (Decimal.toBinary64 ⟨negative, digits, exponent⟩), rest) := by
  subst hdigits hexponent
  have hend := hrest.head
  have hpowerHead : ∀ c ∈ (power ++ rest).head?, c.isDigit = false ∧ c ≠ '.' := by
    intro c hc
    rcases head_power hpower c hc with rfl | hc
    · decide
    · exact ⟨(hend c hc).1, (hend c hc).2.1⟩
  have hfractionHead : ∀ c ∈ (fraction ++ (power ++ rest)).head?, c.isDigit = false := by
    cases hplaces with
    | none => exact fun c hc => (hpowerHead c hc).1
    | point _ => simp
  have hspan : spanDigits (whole ++ (fraction ++ power) ++ rest) =
      (whole, fraction ++ (power ++ rest)) := by
    rw [List.append_assoc, List.append_assoc]
    exact spanDigits_append hwhole.1.2 hfractionHead
  have hexponent : readExponent? (power ++ rest) = some (unsignedPower power, rest) :=
    readExponent?_power hpower fun c hc => ⟨(hend c hc).1, (hend c hc).2.2⟩
  have hsize : ¬(whole = [] ∨ (whole.head? = some '0' ∧ whole ≠ ['0']) ∨
      d.digits < whole.length + if negative then 1 else 0) := by
    simp only [not_or, not_and_not_right, not_lt]
    refine ⟨hwhole.1.1, hwhole.2, ?_⟩
    split <;> omega
  have hnumber : ¬(fraction = [] ∧ unsignedPower power = []) := by
    rintro ⟨rfl, hnil⟩
    exact hshown.elim (absurd rfl) (absurd (unsignedPower_eq_nil hnil))
  have hfraction : Decimal.Fraction places fraction := by
    cases hplaces with
    | none => exact .none
    | point hplaces => exact .point hplaces.2
  have hread : Decimal.readUnsigned? negative (whole ++ fraction ++ unsignedPower power) =
      some ⟨negative, Decimal.ofDigits (whole ++ places), e - places.length⟩ := by
    rw [List.append_assoc]
    exact Decimal.readUnsigned?_eq_some_iff.mpr ⟨_, _, .intro hwhole.1.2 hfraction
      (.inl hwhole.1.1) (exponent_unsignedPower hpower), rfl⟩
  unfold Dialect.readMagnitude?
  simp only [hspan, if_neg hsize, readFraction?_places hplaces hpowerHead, hexponent,
    Option.bind_eq_bind, Option.bind_some, if_neg hnumber, hread]
  rfl

/-- An integer is read if it is not too long. -/
theorem readMagnitude?_digits {ds : List Char} (hds : Decimal.Leading ds) (negative : Bool)
    (hrest : Ends rest) {r : Value × List Char} :
    d.readMagnitude? negative (ds ++ rest) = some r ↔
      ds.length + (if negative then 1 else 0) ≤ d.digits ∧
        r = (.integer (if negative then -(Decimal.ofDigits ds : ℤ) else Decimal.ofDigits ds),
          rest) := by
  have hend := hrest.head
  have hspan := spanDigits_append hds.1.2 fun c hc => (hend c hc).1
  have hfraction := readFraction?_places .none fun c hc => ⟨(hend c hc).1, (hend c hc).2.1⟩
  have hexponent := readExponent?_power .none fun c hc => ⟨(hend c hc).1, (hend c hc).2.2⟩
  rw [List.nil_append] at hfraction hexponent
  unfold Dialect.readMagnitude?
  simp only [hspan, hfraction, hexponent, Option.bind_eq_bind, Option.bind_some]
  have hsize : (ds = [] ∨ (ds.head? = some '0' ∧ ds ≠ ['0']) ∨
      d.digits < ds.length + if negative then 1 else 0) ↔
        d.digits < ds.length + if negative then 1 else 0 := by
    simp only [hds.1.1, not_and_not_right.mpr hds.2, false_or]
  rw [if_congr hsize rfl rfl]
  simp [unsignedPower, eq_comm]

theorem readValue_withSign {fuel depth : ℕ} (negative : Bool) {c : Char} {cs : List Char}
    (hc : c.isDigit = true) :
    d.readValue (fuel + 1) depth (Decimal.withSign negative (c :: cs)) =
      d.readMagnitude? negative (c :: cs) := by
  cases negative with
  | true =>
      have hword : d.readWord? "Infinity" (.infinite true) (c :: cs) = none := by
        have hne : 'I' ≠ c := by
          rintro rfl
          cases hc
        simp [Dialect.readWord?, dropWord?, hne]
      show d.readNegative? (c :: cs) = _
      rw [Dialect.readNegative?, hword]
  | false =>
      show d.readValue (fuel + 1) depth (c :: cs) = _
      unfold Dialect.readValue
      split <;> first | rfl | cases hc

theorem exists_cons_of_digits {ds : List Char} (h : Decimal.Digits ds) (cs : List Char) :
    ∃ c ds', ds ++ cs = c :: ds' ∧ c.isDigit = true := by
  obtain ⟨c, ds', rfl⟩ := List.exists_cons_of_ne_nil h.1
  exact ⟨c, _, rfl, h.2 c List.mem_cons_self⟩

theorem withSign_append (negative : Bool) (cs rest : List Char) :
    Decimal.withSign negative cs ++ rest = Decimal.withSign negative (cs ++ rest) := by
  cases negative <;> rfl

variable {fuel depth : ℕ} {r : Value × List Char}

theorem readValue_integer (n : ℤ) (hrest : Ends rest) :
    d.readValue (fuel + 1) depth (Binary64.integerChars n ++ rest) = some r ↔
      d.Holds depth (.integer n) ∧ r = (.integer n, rest) := by
  have hlead := Decimal.leading_toDigits n.natAbs
  obtain ⟨c, cs, hcons, hc⟩ := exists_cons_of_digits hlead.1 rest
  have hvalue : (if decide (n < 0) then -(Decimal.ofDigits (Nat.toDigits 10 n.natAbs) : ℤ)
      else Decimal.ofDigits (Nat.toDigits 10 n.natAbs)) = n := by
    rw [Decimal.ofDigits_toDigits]
    by_cases hn : n < 0
    · rw [if_pos (decide_eq_true hn)]
      omega
    · rw [if_neg (by simpa using hn)]
      omega
  have hlength : (Binary64.integerChars n).length =
      (Nat.toDigits 10 n.natAbs).length + if decide (n < 0) then 1 else 0 := by
    unfold Binary64.integerChars Decimal.withSign
    split <;> rfl
  have hholds : d.Holds depth (.integer n) ↔ (Binary64.integerChars n).length ≤ d.digits :=
    ⟨fun h => by cases h; assumption, .integer⟩
  rw [hholds, hlength, Binary64.integerChars, withSign_append, hcons, readValue_withSign _ hc,
    ← hcons, readMagnitude?_digits hlead _ hrest, hvalue]

theorem readWord?_append (word : String) (x : Binary64) (rest : List Char) :
    d.readWord? word x (word.toList ++ rest) = some r ↔
      d.words = true ∧ r = (.number x, rest) := by
  unfold Dialect.readWord?
  rw [dropWord?_append]
  cases d.words <;> simp [eq_comm]

theorem holds_number_iff {x : Binary64} :
    d.Holds depth (.number x) ↔ d.words = true ∨ x.isFinite = true :=
  ⟨fun h => by cases h; assumption, .number⟩

theorem readValue_negativeInfinity :
    d.readValue (fuel + 1) depth ("-Infinity".toList ++ rest) = some r ↔
      d.words = true ∧ r = (.number (.infinite true), rest) := by
  show d.readNegative? ("Infinity".toList ++ rest) = some r ↔ _
  unfold Dialect.readNegative?
  cases hword : d.readWord? "Infinity" (.infinite true) ("Infinity".toList ++ rest) with
  | some found => rw [← readWord?_append, hword]
  | none =>
      rw [← readWord?_append, hword]
      simp [Dialect.readMagnitude?, spanDigits]

theorem readValue_number (x : Binary64) (hlimit : 17 ≤ d.digits) (hrest : Ends rest) :
    d.readValue (fuel + 1) depth ((numberText x).toList ++ rest) = some r ↔
      d.Holds depth (.number x) ∧ r = (.number x, rest) := by
  have hword : x.isFinite = false → (d.Holds depth (.number x) ↔ d.words = true) := by
    intro hx
    simp [holds_number_iff, hx]
  cases x with
  | nan =>
      rw [hword rfl]
      exact readWord?_append "aN" .nan rest
  | infinite s =>
      rw [hword rfl]
      cases s with
      | true => exact readValue_negativeInfinity
      | false => exact readWord?_append "nfinity" (.infinite false) rest
  | finite s m e hc =>
      obtain ⟨⟨negative, digits, exponent⟩, hstandard, hvalue⟩ :=
        Binary64.exists_standard (x := .finite s m e hc) rfl
      obtain ⟨whole, places, fraction, power, k, hchars, hwhole, hlength, hplaces, hpower, hshown,
        hdigits, hexponent⟩ := hstandard
      have hread := readMagnitude?_standard negative hwhole hlength hplaces hpower
        hshown hdigits hexponent hlimit hrest
      obtain ⟨c, cs, hcons, hdigit⟩ := exists_cons_of_digits hwhole.1 (fraction ++ power ++ rest)
      have htext : (numberText (.finite s m e hc)).toList = (Binary64.finite s m e hc).chars :=
        String.toList_ofList
      rw [htext, hchars, withSign_append, List.append_assoc, hcons, readValue_withSign _ hdigit,
        ← hcons, ← List.append_assoc, hread, hvalue, Option.some.injEq]
      exact ⟨fun h => ⟨.number (.inr rfl), h.symm⟩, fun h => h.2.symm⟩

end

/-! ### Strings -/

/-- The four hexadecimal digits of a code unit. -/
theorem hex_eq {n : ℕ} (h : n < 0x10000) :
    Text.hex 4 n = [Nat.digitChar (n / 4096), Nat.digitChar (n / 256 % 16),
      Nat.digitChar (n / 16 % 16), Nat.digitChar (n % 16)] := by
  have hstep : ∀ m, Nat.toDigits 16 m =
      if m < 16 then [Nat.digitChar m] else Nat.toDigits 16 (m / 16) ++ [Nat.digitChar (m % 16)] :=
    fun m => Nat.toDigits_eq_if (by decide)
  have hdiv : n / 16 / 16 = n / 256 ∧ n / 16 / 16 / 16 = n / 4096 := by omega
  have hzero : '0' = Nat.digitChar 0 := rfl
  unfold Text.hex
  rcases Nat.lt_or_ge n 16 with h₁ | h₁
  · rw [hstep, if_pos h₁, (by omega : n / 4096 = 0), (by omega : n / 256 % 16 = 0),
      (by omega : n / 16 % 16 = 0), Nat.mod_eq_of_lt h₁]
    rfl
  rw [hstep, if_neg (by omega)]
  rcases Nat.lt_or_ge n 256 with h₂ | h₂
  · rw [hstep, if_pos (by omega), (by omega : n / 4096 = 0), (by omega : n / 256 % 16 = 0),
      (by omega : n / 16 % 16 = n / 16)]
    rfl
  rw [hstep (n / 16), if_neg (by omega), hdiv.1]
  rcases Nat.lt_or_ge n 4096 with h₃ | h₃
  · rw [hstep, if_pos (by omega), (by omega : n / 4096 = 0), (by omega : n / 256 % 16 = n / 256)]
    rfl
  · rw [hstep (n / 256), if_neg (by omega), hstep, if_pos (by omega),
      (by omega : n / 256 / 16 = n / 4096)]
    rfl

theorem hexDigit?_digitChar : ∀ n < 16, hexDigit? (Nat.digitChar n) = some n := by decide

theorem codeUnit?_hex {n : ℕ} (h : n < 0x10000) (rest : List Char) :
    codeUnit? (Text.hex 4 n ++ rest) = some (n, rest) := by
  have hdigits : ((n / 4096 * 16 + n / 256 % 16) * 16 + n / 16 % 16) * 16 + n % 16 = n := by omega
  rw [hex_eq h]
  simp only [List.cons_append, List.nil_append, codeUnit?, Option.bind_eq_bind, Option.bind_some,
    hexDigit?_digitChar _ (by omega : n / 4096 < 16),
    hexDigit?_digitChar _ (by omega : n / 256 % 16 < 16),
    hexDigit?_digitChar _ (by omega : n / 16 % 16 < 16),
    hexDigit?_digitChar _ (by omega : n % 16 < 16), hdigits]
  rfl

theorem escaped?_unit (cs : List Char) : escaped? ('u' :: cs) = escapedUnit? cs := rfl

theorem escapedUnit?_hex {n : ℕ} (h : n < 0xd800 ∨ 0xdfff < n ∧ n < 0x10000) (rest : List Char) :
    escapedUnit? (Text.hex 4 n ++ rest) = some (Char.ofNat n, rest) := by
  have hunit : n < 0x10000 := by omega
  simp only [escapedUnit?, codeUnit?_hex hunit, Option.bind_eq_bind, Option.bind_some]
  rw [if_neg (by omega), if_neg (by omega)]
  rfl

/-- Two surrogates are one character. -/
theorem escapedUnit?_pair {high low : ℕ} (hhigh : 0xd800 ≤ high ∧ high < 0xdc00)
    (hlow : 0xdc00 ≤ low ∧ low < 0xe000) (rest : List Char) :
    escapedUnit? (Text.hex 4 high ++ '\\' :: 'u' :: (Text.hex 4 low ++ rest)) =
      some (Char.ofNat (0x10000 + (high - 0xd800) * 0x400 + (low - 0xdc00)), rest) := by
  have hunit : high < 0x10000 := by omega
  have hunit' : low < 0x10000 := by omega
  simp only [escapedUnit?, codeUnit?_hex hunit, codeUnit?_hex hunit', Option.bind_eq_bind,
    Option.bind_some]
  rw [if_pos hhigh, if_pos hlow]
  rfl

/-- The escape of a character, in one code unit or in two, is read as the character. -/
theorem escaped?_unitEscapes (c : Char) (rest : List Char) :
    ∃ cs, unitEscapes c.toNat ++ rest = '\\' :: cs ∧ escaped? cs = some (c, rest) := by
  have hrange : c.toNat < 0xd800 ∨ 0xdfff < c.toNat ∧ c.toNat < 0x110000 := c.valid
  unfold unitEscapes
  split
  · refine ⟨'u' :: (Text.hex 4 c.toNat ++ rest), rfl, ?_⟩
    rw [escaped?_unit, escapedUnit?_hex (by omega), Char.ofNat_toNat]
  · obtain ⟨high, hhigh⟩ : ∃ high, 0xd800 + (c.toNat - 0x10000) / 0x400 = high := ⟨_, rfl⟩
    obtain ⟨low, hlow⟩ : ∃ low, 0xdc00 + (c.toNat - 0x10000) % 0x400 = low := ⟨_, rfl⟩
    have hjoined : 0x10000 + (high - 0xd800) * 0x400 + (low - 0xdc00) = c.toNat := by omega
    simp only [hhigh, hlow, List.cons_append, List.append_assoc]
    refine ⟨_, rfl, ?_⟩
    rw [escaped?_unit, escapedUnit?_pair (by omega) (by omega), hjoined, Char.ofNat_toNat]

theorem readString_stringChar (fuel : ℕ) (read : List Char) (c : Char) (rest : List Char) :
    readString (fuel + 1) read (stringChar c ++ rest) = readString fuel (c :: read) rest := by
  have hescape : ∀ {cs : List Char}, escaped? cs = some (c, rest) →
      readString (fuel + 1) read ('\\' :: cs) = readString fuel (c :: read) rest := by
    intro cs h
    rw [readString, if_neg (by decide), if_pos rfl, h]
  unfold stringChar
  split
  · rename_i h
    subst h
    exact hescape rfl
  rename_i hquote
  split
  · rename_i h
    subst h
    exact hescape rfl
  rename_i hbackslash
  iterate 5
    split
    · rename_i h
      subst h
      exact hescape rfl
  split
  · rename_i hplain
    rw [List.singleton_append, readString, if_neg hquote, if_neg hbackslash, if_neg (by omega)]
  · obtain ⟨cs, hcs, hread⟩ := escaped?_unitEscapes c rest
    rw [hcs]
    exact hescape hread

theorem readString_flatMap {fuel : ℕ} {cs : List Char} (h : cs.length < fuel)
    (read rest : List Char) :
    readString fuel read (cs.flatMap stringChar ++ '"' :: rest) =
      some (String.ofList (read.reverse ++ cs), rest) := by
  induction cs generalizing fuel read with
  | nil =>
      obtain ⟨fuel, rfl⟩ := Nat.exists_eq_add_of_lt h
      rw [List.flatMap_nil, List.nil_append, readString, if_pos rfl, List.append_nil]
  | cons c cs ih =>
      obtain ⟨fuel, rfl⟩ : ∃ n, fuel = n + 1 := ⟨fuel - 1, by omega⟩
      rw [List.flatMap_cons, List.append_assoc, readString_stringChar,
        ih (by rw [List.length_cons] at h; omega)]
      simp

theorem length_le_flatMap (cs : List Char) : cs.length ≤ (cs.flatMap stringChar).length := by
  have hone : ∀ c, 1 ≤ (stringChar c).length := by
    intro c
    obtain ⟨cs, hcs, -⟩ := escaped?_unitEscapes c []
    rw [List.append_nil] at hcs
    unfold stringChar
    rw [hcs]
    repeat' split
    all_goals exact Nat.succ_le_succ (Nat.zero_le _)
  induction cs with
  | nil => exact Nat.le_refl 0
  | cons c cs ih =>
      have hc := hone c
      rw [List.flatMap_cons, List.length_append, List.length_cons]
      omega

theorem toList_quote (s : String) :
    (quote s).toList = '"' :: (s.toList.flatMap stringChar ++ ['"']) := String.toList_ofList

/-- A quoted text is read as the text. -/
theorem readString_quote {fuel : ℕ} {s : String} (h : (quote s).toList.length ≤ fuel)
    (rest : List Char) :
    ∃ cs, (quote s).toList ++ rest = '"' :: cs ∧ readString fuel [] cs = some (s, rest) := by
  have hle := length_le_flatMap s.toList
  rw [toList_quote] at h ⊢
  simp only [List.length_cons, List.length_append, List.length_nil] at h
  refine ⟨s.toList.flatMap stringChar ++ '"' :: rest, by simp, ?_⟩
  rw [readString_flatMap (by omega)]
  simp

end Soundworks.Json
