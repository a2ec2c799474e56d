import Mathlib.Data.List.Infix
import Soundworks.Proofs.Filter.Text
/-!
The numbers in the text of a filter. A finite number is written as a decimal, in which no letter but
that of an exponent stands, and any other one as a word. The fixed words of a filter hold no such
word, and none comes about where two parts meet.
-/

namespace Soundworks

/-! ### Decimals -/

namespace Decimal

/-- Some digits, at least one. -/
def Digits (cs : List Char) : Prop := cs ≠ [] ∧ ∀ c ∈ cs, c.isDigit = true

/-- A decimal without its sign: digits, a point with digits behind it or nothing, and an exponent
or nothing. -/
def IsUnsigned (cs : List Char) : Prop :=
  ∃ whole fraction exponent, cs = whole ++ (fraction ++ exponent) ∧ Digits whole ∧
    (fraction = [] ∨ ∃ places, fraction = '.' :: places ∧ Digits places) ∧
    (exponent = [] ∨ ∃ sign places, exponent = 'e' :: sign :: places ∧
      (sign = '-' ∨ sign = '+') ∧ Digits places)

/-- A decimal with a minus sign or without a sign. -/
def IsDecimal (cs : List Char) : Prop :=
  ∃ negative magnitude, cs = withSign negative magnitude ∧ IsUnsigned magnitude

theorem digits_toDigits (n : Nat) : Digits (Nat.toDigits 10 n) :=
  ⟨Nat.toDigits_ne_nil, fun _ => Nat.isDigit_of_mem_toDigits (by decide) (by decide)⟩

theorem Digits.isUnsigned {cs : List Char} (h : Digits cs) : IsUnsigned cs :=
  ⟨cs, [], [], by simp, h, .inl rfl, .inl rfl⟩

theorem isDigit_of_mem_replicate {n : Nat} {c : Char} (h : c ∈ List.replicate n '0') :
    c.isDigit = true := by
  rw [List.eq_of_mem_replicate h]
  rfl

theorem Digits.append {cs ds : List Char} (h : Digits cs) (hd : ∀ d ∈ ds, d.isDigit = true) :
    Digits (cs ++ ds) := by
  refine ⟨List.append_ne_nil_of_left_ne_nil h.1 _, fun c hc => ?_⟩
  rcases List.mem_append.mp hc with hc | hc
  · exact h.2 c hc
  · exact hd c hc

theorem Digits.prepend {cs ds : List Char} (h : Digits cs) (hd : ∀ d ∈ ds, d.isDigit = true) :
    Digits (ds ++ cs) := by
  refine ⟨List.append_ne_nil_of_right_ne_nil _ h.1, fun c hc => ?_⟩
  rcases List.mem_append.mp hc with hc | hc
  · exact hd c hc
  · exact h.2 c hc

theorem Digits.take {cs : List Char} (h : Digits cs) {n : Nat} (hn : 0 < n) :
    Digits (cs.take n) :=
  ⟨by simpa [h.1] using hn.ne', fun c hc => h.2 c (List.mem_of_mem_take hc)⟩

theorem Digits.drop {cs : List Char} (h : Digits cs) {n : Nat} (hn : n < cs.length) :
    Digits (cs.drop n) :=
  ⟨by simpa using hn, fun c hc => h.2 c (List.mem_of_mem_drop hc)⟩

theorem Digits.tail {c : Char} {cs : List Char} (h : Digits (c :: cs)) (hcs : cs ≠ []) :
    Digits cs :=
  ⟨hcs, fun d hd => h.2 d (List.mem_cons_of_mem _ hd)⟩

namespace Layout

theorem exists_exponentChars (l : Layout) (e : Int) : ∃ sign places,
    l.exponentChars e = sign :: places ∧ (sign = '-' ∨ sign = '+') ∧ Digits places := by
  refine ⟨_, _, rfl, ?_, (digits_toDigits _).prepend fun _ => isDigit_of_mem_replicate⟩
  split
  · exact .inl rfl
  · exact .inr rfl

theorem isUnsigned_chars (l : Layout) (digits : Nat) (k : Int) :
    IsUnsigned (l.chars digits k) := by
  have hdigits := digits_toDigits digits
  obtain ⟨sign, places, hexponent, hsign, hplaces⟩ :=
    l.exists_exponentChars ((Nat.toDigits 10 digits).length + k - 1)
  unfold chars
  dsimp only
  rw [hexponent]
  generalize Nat.toDigits 10 digits = ds at hdigits ⊢
  have hzero : Digits ['0'] := by simp [Digits]
  split
  · split
    · exact ⟨ds ++ List.replicate k.toNat '0', ['.', '0'], [], by simp,
        hdigits.append fun _ => isDigit_of_mem_replicate, .inr ⟨['0'], rfl, hzero⟩, .inl rfl⟩
    · split
      -- the point stands behind the first digit and before the last one
      · exact ⟨ds.take (ds.length + k - 1 + 1).toNat, '.' :: ds.drop (ds.length + k - 1 + 1).toNat,
          [], by simp, hdigits.take (by omega), .inr ⟨_, rfl, hdigits.drop (by omega)⟩, .inl rfl⟩
      · exact ⟨['0'], '.' :: (List.replicate _ '0' ++ ds), [], by rw [List.append_nil]; rfl, hzero,
          .inr ⟨_, rfl, hdigits.prepend fun _ => isDigit_of_mem_replicate⟩, .inl rfl⟩
  · split
    · exact absurd rfl hdigits.1
    · exact ⟨_, [], 'e' :: sign :: places, rfl, hdigits, .inl rfl,
        .inr ⟨sign, places, rfl, hsign, hplaces⟩⟩
    · rename_i d rest hne _
      exact ⟨[d], '.' :: rest, 'e' :: sign :: places, rfl, hdigits.take Nat.one_pos,
        .inr ⟨rest, rfl, hdigits.tail hne⟩, .inr ⟨sign, places, rfl, hsign, hplaces⟩⟩

end Layout

/-! ### Reading decimals -/

theorem splitSign_withSign {negative : Bool} {cs : List Char} (h : IsUnsigned cs) :
    splitSign (withSign negative cs) = (negative, cs) := by
  cases negative with
  | true => rfl
  | false =>
      obtain ⟨whole, _, _, rfl, hwhole, -⟩ := h
      obtain ⟨d, ds, rfl⟩ := List.exists_cons_of_ne_nil hwhole.1
      have hd : d.isDigit = true := hwhole.2 d List.mem_cons_self
      show splitSign (d :: _) = _
      unfold splitSign
      split <;> simp_all

theorem takeWhile_digits {ds : List Char} (rest : List Char) (h : ∀ d ∈ ds, d.isDigit = true)
    (hrest : ∀ c ∈ rest.head?, c.isDigit = false) :
    (ds ++ rest).takeWhile Char.isDigit = ds ∧ (ds ++ rest).dropWhile Char.isDigit = rest := by
  rw [List.takeWhile_append_of_pos h, List.dropWhile_append_of_pos h]
  cases rest with
  | nil => simp
  | cons c rest => simp [hrest c rfl]

theorem exists_readExponent {cs : List Char} (h : cs = [] ∨ ∃ sign places,
    cs = 'e' :: sign :: places ∧ (sign = '-' ∨ sign = '+') ∧ Digits places) :
    ∃ e, readExponent? cs = some e := by
  rcases h with rfl | ⟨sign, places, rfl, rfl | rfl, hne, hall⟩
  · exact ⟨0, rfl⟩
  all_goals
    simp only [readExponent?, splitSign, true_or, if_true, List.all_eq_true]
    rw [if_pos ⟨hne, hall⟩]
    exact ⟨_, rfl⟩

theorem IsDecimal.read {cs : List Char} (h : IsDecimal cs) : ∃ d, read? cs = some d := by
  obtain ⟨negative, magnitude, rfl, hmagnitude⟩ := h
  simp only [read?, splitSign_withSign hmagnitude]
  obtain ⟨whole, fraction, exponent, rfl, hwhole, hfraction, hexponent⟩ := hmagnitude
  obtain ⟨e, he⟩ := exists_readExponent hexponent
  have hstart : ∀ c ∈ exponent.head?, c.isDigit = false := by
    rcases hexponent with rfl | ⟨sign, places, rfl, -⟩ <;> simp
  unfold readUnsigned?
  rcases hfraction with rfl | ⟨places, rfl, hplaces⟩
  · obtain ⟨htake, hdrop⟩ := takeWhile_digits exponent hwhole.2 hstart
    rw [List.nil_append, htake, hdrop]
    rcases hexponent with rfl | ⟨sign, places, rfl, -⟩ <;> simp [hwhole.1, he]
  · obtain ⟨htake, hdrop⟩ := takeWhile_digits ('.' :: (places ++ exponent)) hwhole.2 (by simp)
    obtain ⟨htakePlaces, hdropPlaces⟩ := takeWhile_digits exponent hplaces.2 hstart
    rw [List.cons_append, htake, hdrop]
    simp [hwhole.1, htakePlaces, hdropPlaces, he]

end Decimal

namespace Binary64

open Decimal

theorem isDecimal_integerChars (n : Int) : IsDecimal (integerChars n) :=
  ⟨_, _, rfl, (digits_toDigits _).isUnsigned⟩

theorem isDecimal_plainChars {x : Binary64} (h : x.isFinite = true) : IsDecimal x.plainChars := by
  unfold plainChars
  split
  · exact isDecimal_integerChars _
  · cases x with
    | finite s m e hc =>
        unfold chars
        dsimp only
        split
        · exact ⟨s, ['0', '.', '0'], rfl, ['0'], ['.', '0'], [], rfl, by simp [Digits],
            .inr ⟨['0'], rfl, by simp [Digits]⟩, .inl rfl⟩
        · exact ⟨s, _, rfl, Layout.isUnsigned_chars _ _ _⟩
    | _ => cases h

end Binary64

end Soundworks
