import Mathlib.Data.List.Infix
import Soundworks.Files.Braces
/-!
How a text is read by its braces. A brace and its partner enclose options with commas between
them, each of which is a pattern again, and every other character stands for itself. A brace
without a partner does too, so that every text is the text of a pattern.
-/

namespace Soundworks.Braces

mutual

/-- A text as its braces group it. -/
inductive Pattern where
  | done
  | char (c : Char) (rest : Pattern)
  | group (options : Options) (rest : Pattern)

/-- What stands between two braces. -/
inductive Options where
  | one (option : Pattern)
  | more (option : Pattern) (options : Options)

end

mutual

def Pattern.text : Pattern → List Char
  | .done => []
  | .char c rest => c :: rest.text
  | .group options rest => '{' :: (options.text ++ '}' :: rest.text)

def Options.text : Options → List Char
  | .one option => option.text
  | .more option options => option.text ++ ',' :: options.text

end

/-- The characters outside all groups, which stand for themselves. -/
def Pattern.outer : Pattern → List Char
  | .done => []
  | .char c rest => c :: rest.outer
  | .group _ rest => rest.outer

/-- Every brace has a partner. -/
def Pattern.Paired (p : Pattern) : Prop := ∀ c ∈ p.outer, c ≠ '{' ∧ c ≠ '}'

mutual

/-- A pattern is what its text is read as: an opening brace stands for itself only if every
closing brace after it has another partner. -/
def Pattern.Sound : Pattern → Prop
  | .done => True
  | .char c rest => (c = '{' → '}' ∉ rest.outer) ∧ rest.Sound
  | .group options rest => options.Sound ∧ rest.Sound

/-- In an option neither a brace nor a comma stands for itself. -/
def Options.Sound : Options → Prop
  | .one option => option.Paired ∧ ',' ∉ option.outer ∧ option.Sound
  | .more option options =>
    (option.Paired ∧ ',' ∉ option.outer ∧ option.Sound) ∧ options.Sound

end

/-- A text closes as many groups as it opens, and none before it opens it. -/
def Balanced (cs : List Char) : Prop :=
  cs.count '{' = cs.count '}' ∧ ∀ front ∈ cs.inits, front.count '}' ≤ front.count '{'

instance (cs : List Char) : Decidable (Balanced cs) := inferInstanceAs (Decidable (_ ∧ _))

/-! ### Reading a text -/

def Options.onFirst (f : Pattern → Pattern) : Options → Options
  | .one option => .one (f option)
  | .more option options => .more (f option) options

def Pattern.options : Pattern → Options
  | .done => .one .done
  | .char c rest =>
    if c = ',' then .more .done rest.options else rest.options.onFirst (.char c)
  | .group options rest => rest.options.onFirst (.group options)

def Pattern.close? : Pattern → Option (Pattern × Pattern)
  | .done => none
  | .char c rest =>
    if c = '}' then some (.done, rest)
    else rest.close?.map fun (inside, after) => (.char c inside, after)
  | .group options rest =>
    rest.close?.map fun (inside, after) => (.group options inside, after)

/-- Adds a character in front of a pattern; an opening brace finds its partner there. -/
def Pattern.extend (c : Char) (p : Pattern) : Pattern :=
  if c = '{' then
    match p.close? with
    | some (inside, after) => .group inside.options after
    | none => .char c p
  else .char c p

/-- The pattern of a text, read from its end. -/
def read (cs : List Char) : Pattern := cs.foldr Pattern.extend .done

theorem Options.text_onFirst {f : Pattern → Pattern} {front : List Char}
    (hf : ∀ p : Pattern, (f p).text = front ++ p.text) (options : Options) :
    (options.onFirst f).text = front ++ options.text := by
  cases options with
  | one option => simp [onFirst, text, hf]
  | more option options => simp [onFirst, text, hf]

theorem Pattern.text_options : ∀ p : Pattern, p.options.text = p.text
  | .done => rfl
  | .char c rest => by
      by_cases hc : c = ','
      · simp [options, hc, Options.text, text, text_options rest]
      · rw [options, if_neg hc, Options.text_onFirst fun _ => by rw [text, List.singleton_append],
          text_options rest, text, List.singleton_append]
  | .group options rest => by
      have hgroup : ∀ p : Pattern,
          (group options p).text = '{' :: (options.text ++ ['}']) ++ p.text := by
        intro p
        simp [text]
      rw [Pattern.options, Options.text_onFirst hgroup, text_options rest, hgroup]

/-- An option stays sound with something in front of it that does not separate options. -/
theorem Options.sound_onFirst (f : Pattern → Pattern) (front : List Char)
    (houter : ∀ p : Pattern, (f p).outer = front ++ p.outer)
    (hfront : ∀ c ∈ front, c ≠ '{' ∧ c ≠ '}') (hcomma : ',' ∉ front)
    (hf : ∀ p : Pattern, p.Sound → (f p).Sound) {options : Options} (h : options.Sound) :
    (options.onFirst f).Sound := by
  have hoption : ∀ p : Pattern, p.Paired ∧ ',' ∉ p.outer ∧ p.Sound →
      (f p).Paired ∧ ',' ∉ (f p).outer ∧ (f p).Sound := by
    intro p ⟨hpaired, hp, hsound⟩
    refine ⟨?_, ?_, hf p hsound⟩
    · rw [Pattern.Paired, houter]
      exact List.forall_mem_append.mpr ⟨hfront, hpaired⟩
    · rw [houter, List.mem_append, not_or]
      exact ⟨hcomma, hp⟩
  cases options with
  | one option => exact hoption option h
  | more option options => exact ⟨hoption option h.1, h.2⟩

/-- A pattern whose braces have partners may stand between two braces. -/
theorem Pattern.sound_options : ∀ p : Pattern, p.Sound → p.Paired → p.options.Sound
  | .done, _, _ => ⟨by simp [Paired, outer], by simp [outer], trivial⟩
  | .char c rest, h, hpaired => by
      obtain ⟨hc, hrest⟩ := List.forall_mem_cons.mp hpaired
      have ih := sound_options rest h.2 hrest
      rw [options]
      split
      · exact ⟨⟨by simp [Paired, outer], by simp [outer], trivial⟩, ih⟩
      · rename_i hcomma
        exact Options.sound_onFirst (.char c) [c] (fun _ => rfl)
          (by simpa using hc) (by simpa using Ne.symm hcomma)
          (fun p hp => ⟨fun h => absurd h hc.1, hp⟩) ih
  | .group options rest, h, hpaired =>
      Options.sound_onFirst (.group options) [] (fun _ => rfl) (by simp) (by simp)
        (fun _ hp => ⟨h.1, hp⟩) (sound_options rest h.2 hpaired)

/-- The first closing brace without a partner cuts a pattern in two. -/
theorem Pattern.of_close? : ∀ {p inside after : Pattern}, p.close? = some (inside, after) →
    p.text = inside.text ++ '}' :: after.text ∧ p.outer = inside.outer ++ '}' :: after.outer ∧
      '}' ∉ inside.outer ∧ (p.Sound → inside.Sound ∧ after.Sound)
  | .char c rest, inside, after, h => by
      rw [close?] at h
      split at h
      · rename_i hc
        obtain ⟨rfl, rfl⟩ := Prod.mk.inj (Option.some.inj h)
        exact ⟨by simp [text, hc], by simp [outer, hc], by simp [outer],
          fun hsound => ⟨trivial, hsound.2⟩⟩
      · rename_i hc
        obtain ⟨⟨inside, after⟩, hclose, heq⟩ := Option.map_eq_some_iff.mp h
        obtain ⟨rfl, rfl⟩ := Prod.mk.inj heq
        obtain ⟨htext, houter, hnot, hsound⟩ := of_close? hclose
        refine ⟨by simp [text, htext], by simp [outer, houter],
          by simpa [outer] using ⟨Ne.symm hc, hnot⟩, fun h => ?_⟩
        refine ⟨⟨fun hc => absurd (h.1 hc) ?_, (hsound h.2).1⟩, (hsound h.2).2⟩
        simp [houter]
  | .group options rest, inside, after, h => by
      rw [close?] at h
      obtain ⟨⟨inside, after⟩, hclose, heq⟩ := Option.map_eq_some_iff.mp h
      obtain ⟨rfl, rfl⟩ := Prod.mk.inj heq
      obtain ⟨htext, houter, hnot, hsound⟩ := of_close? hclose
      exact ⟨by simp [text, htext], houter, hnot,
        fun h => ⟨⟨h.1, (hsound h.2).1⟩, (hsound h.2).2⟩⟩

theorem Pattern.close?_eq_none : ∀ {p : Pattern}, p.close? = none → '}' ∉ p.outer
  | .done, _ => by simp [outer]
  | .char c rest, h => by
      rw [close?] at h
      split at h
      · simp at h
      · rename_i hc
        simpa [outer] using ⟨Ne.symm hc, close?_eq_none (Option.map_eq_none_iff.mp h)⟩
  | .group options rest, h => close?_eq_none (p := rest) (Option.map_eq_none_iff.mp h)

/-- No closing brace without a partner follows an opening one. -/
theorem Pattern.Sound.not_mem_of_outer : ∀ {p : Pattern} {front rest : List Char}, p.Sound →
    p.outer = front ++ '{' :: rest → '}' ∉ rest
  | .done, front, rest, _, houter => by simp [outer] at houter
  | .char c p, front, rest, h, houter => by
      rw [outer] at houter
      rcases List.cons_eq_append_iff.mp houter with ⟨rfl, heq⟩ | ⟨front, rfl, heq⟩
      · obtain ⟨rfl, rfl⟩ := List.cons_eq_cons.mp heq
        exact h.1 rfl
      · exact not_mem_of_outer h.2 heq
  | .group options p, front, rest, h, houter => not_mem_of_outer h.2 houter

/-- Before the first closing brace without a partner every brace has one. -/
theorem Pattern.Sound.paired_of_close? {p inside after : Pattern} (h : p.Sound)
    (hclose : p.close? = some (inside, after)) : inside.Paired := by
  obtain ⟨-, houter, hnot, -⟩ := of_close? hclose
  intro c hc
  refine ⟨?_, fun h => hnot (h ▸ hc)⟩
  rintro rfl
  obtain ⟨front, rest, heq⟩ := List.append_of_mem hc
  rw [heq, List.append_assoc, List.cons_append] at houter
  exact h.not_mem_of_outer houter (by simp)

theorem Pattern.text_extend (c : Char) (p : Pattern) : (p.extend c).text = c :: p.text := by
  rw [extend]
  split
  · rename_i hc
    split
    · rename_i inside after hclose
      rw [text, text_options, (of_close? hclose).1, hc]
    · rfl
  · rfl

theorem Pattern.Sound.extend {p : Pattern} (h : p.Sound) (c : Char) : (p.extend c).Sound := by
  rw [Pattern.extend]
  split
  · split
    · rename_i inside after hclose
      obtain ⟨hinside, hafter⟩ := (of_close? hclose).2.2.2 h
      exact ⟨inside.sound_options hinside (h.paired_of_close? hclose), hafter⟩
    · rename_i hnone
      exact ⟨fun _ => close?_eq_none hnone, h⟩
  · rename_i hc
    exact ⟨fun h => absurd h hc, h⟩

theorem text_read (cs : List Char) : (read cs).text = cs := by
  induction cs with
  | nil => rfl
  | cons c cs ih => rw [read, List.foldr_cons, Pattern.text_extend, ← read, ih]

theorem sound_read (cs : List Char) : (read cs).Sound := by
  induction cs with
  | nil => trivial
  | cons c cs ih => exact ih.extend c

/-! ### Balanced texts -/

mutual

/-- A pattern opens more groups than it closes by the braces that stand for themselves. -/
theorem Pattern.Sound.count_text : ∀ {p : Pattern}, p.Sound →
    p.text.count '{' + p.outer.count '}' = p.text.count '}' + p.outer.count '{'
  | .done, _ => by simp [Pattern.text, Pattern.outer]
  | .char c rest, h => by
      have ih := h.2.count_text
      simp only [Pattern.text, Pattern.outer, List.count_cons]
      omega
  | .group options rest, h => by
      have hoptions := h.1.count_text
      have ih := h.2.count_text
      simp only [Pattern.text, Pattern.outer, List.count_cons, List.count_append]
      simp
      omega

theorem Options.Sound.count_text : ∀ {options : Options}, options.Sound →
    options.text.count '{' = options.text.count '}'
  | .one option, h => Pattern.Paired.count_text h.1 h.2.2
  | .more option options, h => by
      have hoption := h.1.1.count_text h.1.2.2
      have ih := h.2.count_text
      simp only [Options.text, List.count_cons, List.count_append]
      simp
      omega

theorem Pattern.Paired.count_text {p : Pattern} (hpaired : p.Paired) (h : p.Sound) :
    p.text.count '{' = p.text.count '}' := by
  have hcount := h.count_text
  rwa [List.count_eq_zero.mpr fun hc => (hpaired _ hc).1 rfl,
    List.count_eq_zero.mpr fun hc => (hpaired _ hc).2 rfl] at hcount

end

theorem Balanced.paired {p : Pattern} (h : p.Sound) (hbalanced : Balanced p.text) :
    p.Paired := by
  have hclose : p.close? = none := by
    rw [Option.eq_none_iff_forall_ne_some]
    rintro ⟨inside, after⟩ hclose
    obtain ⟨htext, -, -, hsound⟩ := Pattern.of_close? hclose
    have hinside := (h.paired_of_close? hclose).count_text (hsound h).1
    have hprefix : inside.text ++ ['}'] <+: p.text := ⟨after.text, by simp [htext]⟩
    have hfront := hbalanced.2 _ (List.mem_inits _ _ |>.mpr hprefix)
    have hopens : ['}'].count '{' = 0 := rfl
    have hcloses : ['}'].count '}' = 1 := rfl
    rw [List.count_append, List.count_append, hinside, hopens, hcloses] at hfront
    omega
  have hcloses := Pattern.close?_eq_none hclose
  have hopens : '{' ∉ p.outer := by
    have hcount := h.count_text
    rw [hbalanced.1, List.count_eq_zero.mpr hcloses] at hcount
    exact List.count_eq_zero.mp (by omega)
  exact fun c hc => ⟨fun h => hopens (h ▸ hc), fun h => hcloses (h ▸ hc)⟩

end Soundworks.Braces
