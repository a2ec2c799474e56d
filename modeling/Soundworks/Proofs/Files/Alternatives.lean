import Mathlib.Computability.Language
import Soundworks.Proofs.Files.Braces
import Soundworks.Proofs.Files.Grouping
/-!
What a pattern with braces stands for: the texts of a group are those of its options, and texts
one after the other are joined in all ways. The expansion, which rewrites the text of the pattern
from its first inner group on, finds these texts.
-/

namespace Soundworks.Braces

mutual

/-- The texts that a pattern stands for: texts one after the other are joined in all ways. -/
def Pattern.language : Pattern → Language Char
  | .done => 1
  | .char c rest => {[c]} * rest.language
  | .group options rest => options.language * rest.language

def Options.language : Options → Language Char
  | .one option => option.language
  | .more option options => option.language + options.language

end

/-! ### The texts in order -/

mutual

/-- The texts of a pattern in order, as often as they are found. -/
def Pattern.expansions : Pattern → List (List Char)
  | .done => [[]]
  | .char c rest => rest.expansions.map (c :: ·)
  | .group options rest =>
    options.choices.flatMap fun texts => texts.flatMap fun x => rest.expansions.map (x ++ ·)

/-- One text for each option, in all ways. -/
def Options.choices : Options → List (List (List Char))
  | .one option => option.expansions.map fun x => [x]
  | .more option options =>
    option.expansions.flatMap fun x => options.choices.map fun texts => x :: texts

end

theorem Options.ne_nil_of_mem_choices {options : Options} {texts : List (List Char)}
    (h : texts ∈ options.choices) : texts ≠ [] := by
  cases options with
  | one option =>
      obtain ⟨x, -, rfl⟩ := List.mem_map.mp h
      exact List.cons_ne_nil x []
  | more option options =>
      obtain ⟨x, -, h⟩ := List.mem_flatMap.mp h
      obtain ⟨texts, -, rfl⟩ := List.mem_map.mp h
      exact List.cons_ne_nil x texts

mutual

theorem Pattern.exists_mem_expansions : ∀ p : Pattern, ∃ x, x ∈ p.expansions
  | .done => ⟨[], List.mem_singleton_self []⟩
  | .char c rest => by
      obtain ⟨x, hx⟩ := rest.exists_mem_expansions
      exact ⟨c :: x, List.mem_map_of_mem hx⟩
  | .group options rest => by
      obtain ⟨texts, htexts⟩ := options.exists_mem_choices
      obtain ⟨x, hx⟩ := List.exists_mem_of_ne_nil _ (Options.ne_nil_of_mem_choices htexts)
      obtain ⟨y, hy⟩ := rest.exists_mem_expansions
      exact ⟨x ++ y, List.mem_flatMap.mpr ⟨texts, htexts, List.mem_flatMap.mpr ⟨x, hx,
        List.mem_map_of_mem hy⟩⟩⟩

theorem Options.exists_mem_choices : ∀ options : Options, ∃ texts, texts ∈ options.choices
  | .one option => by
      obtain ⟨x, hx⟩ := option.exists_mem_expansions
      exact ⟨[x], List.mem_map_of_mem hx⟩
  | .more option options => by
      obtain ⟨x, hx⟩ := option.exists_mem_expansions
      obtain ⟨texts, htexts⟩ := options.exists_mem_choices
      exact ⟨x :: texts, List.mem_flatMap.mpr ⟨x, hx, List.mem_map_of_mem htexts⟩⟩

end

mutual

/-- The order aside, these are the texts that the pattern stands for. -/
theorem Pattern.mem_expansions : ∀ (p : Pattern) {x : List Char},
    x ∈ p.expansions ↔ x ∈ p.language
  | .done, x => by simp [Pattern.expansions, Pattern.language, Language.mem_one]
  | .char c rest, x => by
      simp only [Pattern.expansions, Pattern.language, Language.mem_mul, List.mem_map,
        rest.mem_expansions]
      exact ⟨fun ⟨y, hy, hx⟩ => ⟨[c], rfl, y, hy, hx⟩,
        fun ⟨_, hc, y, hy, hx⟩ => ⟨y, hy, by rwa [Set.mem_singleton_iff.mp hc] at hx⟩⟩
  | .group options rest, x => by
      simp only [Pattern.expansions, Pattern.language, Language.mem_mul, List.mem_flatMap,
        List.mem_map, rest.mem_expansions, ← options.mem_choices]
      constructor
      · rintro ⟨texts, htexts, y, hy, z, hz, rfl⟩
        exact ⟨y, ⟨texts, htexts, hy⟩, z, hz, rfl⟩
      · rintro ⟨y, ⟨texts, htexts, hy⟩, z, hz, rfl⟩
        exact ⟨texts, htexts, y, hy, z, hz, rfl⟩

theorem Options.mem_choices : ∀ (options : Options) {x : List Char},
    (∃ texts ∈ options.choices, x ∈ texts) ↔ x ∈ options.language
  | .one option, x => by simp [Options.choices, Options.language, option.mem_expansions]
  | .more option options, x => by
      -- an option is found together with some text of each other one
      obtain ⟨y, hy⟩ := option.exists_mem_expansions
      obtain ⟨texts, htexts⟩ := options.exists_mem_choices
      rw [Options.language, Language.mem_add, ← option.mem_expansions, ← options.mem_choices]
      simp only [Options.choices, List.mem_flatMap, List.mem_map]
      constructor
      · rintro ⟨_, ⟨z, hz, rest, hrest, rfl⟩, hx⟩
        rcases List.mem_cons.mp hx with rfl | hx
        · exact .inl hz
        · exact .inr ⟨rest, hrest, hx⟩
      · rintro (hx | ⟨rest, hrest, hx⟩)
        · exact ⟨x :: texts, ⟨x, hx, texts, htexts, rfl⟩, List.mem_cons_self⟩
        · exact ⟨y :: rest, ⟨y, hy, rest, hrest, rfl⟩, List.mem_cons_of_mem y hx⟩

end

/-! ### Groups that are not nested -/

/-- A pattern without groups. -/
def Pattern.Plain : Pattern → Prop
  | .done => True
  | .char _ rest => rest.Plain
  | .group _ _ => False

def Options.texts : Options → List (List Char)
  | .one option => [option.text]
  | .more option options => option.text :: options.texts

/-- No option has a group. -/
def Options.Plain : Options → Prop
  | .one option => option.Plain
  | .more option options => option.Plain ∧ options.Plain

/-- No group is inside another one. -/
def Pattern.Flat : Pattern → Prop
  | .done => True
  | .char _ rest => rest.Flat
  | .group options rest => options.Plain ∧ rest.Flat

/-- The parts of a pattern, each with what may stand in its place. -/
def Pattern.factors : Pattern → List (List (List Char))
  | .done => []
  | .char c rest => [[c]] :: rest.factors
  | .group options rest => options.texts :: rest.factors

/-- One text of each part, joined: the texts of the first part in order, and with each of them
those of the other parts. -/
def product : List (List (List Char)) → List (List Char)
  | [] => [[]]
  | factor :: factors => factor.flatMap fun x => (product factors).map (x ++ ·)

theorem Pattern.Plain.expansions_eq : ∀ {p : Pattern}, p.Plain → p.expansions = [p.text]
  | .done, _ => rfl
  | .char c rest, h => by
      rw [Pattern.expansions, Plain.expansions_eq (p := rest) h, Pattern.text]
      rfl

theorem Options.Plain.choices_eq : ∀ {options : Options}, options.Plain →
    options.choices = [options.texts]
  | .one option, h => by
      rw [Options.choices, Pattern.Plain.expansions_eq h, Options.texts]
      rfl
  | .more option options, h => by
      rw [Options.choices, h.1.expansions_eq, choices_eq h.2, Options.texts]
      rfl

/-- The texts of a pattern whose groups are not nested are the product of its parts. -/
theorem Pattern.Flat.expansions_eq : ∀ {p : Pattern}, p.Flat →
    p.expansions = product p.factors
  | .done, _ => rfl
  | .char c rest, h => by
      rw [Pattern.expansions, Flat.expansions_eq (p := rest) h, factors, product]
      simp
  | .group options rest, h => by
      rw [Pattern.expansions, h.1.choices_eq, Flat.expansions_eq h.2, factors, product]
      simp

/-! ### The expansion of a pattern -/

/-- The characters of an option do not end it. -/
theorem Pattern.Paired.separates_none {p : Pattern} (hpaired : p.Paired) (hcomma : ',' ∉ p.outer)
    {x : List Char} (hx : ∀ c ∈ x, c ∈ p.outer ∨ (c ≠ '{' ∧ c ≠ '}' ∧ c ≠ ',')) :
    ∀ c ∈ x, c ≠ '{' ∧ c ≠ '}' ∧ c ≠ ',' := by
  intro c hc
  rcases hx c hc with houter | hother
  · exact ⟨(hpaired c houter).1, (hpaired c houter).2, fun h => hcomma (h ▸ houter)⟩
  · exact hother

mutual

/-- A text that is found has no braces and commas but those that stand for themselves. -/
theorem Pattern.Sound.of_mem_expansions : ∀ {p : Pattern}, p.Sound → ∀ {x : List Char},
    x ∈ p.expansions → ∀ c ∈ x, c ∈ p.outer ∨ (c ≠ '{' ∧ c ≠ '}' ∧ c ≠ ',')
  | .done, _, x, hx, c, hc => by
      rw [List.mem_singleton.mp hx] at hc
      cases hc
  | .char d rest, h, x, hx, c, hc => by
      obtain ⟨y, hy, rfl⟩ := List.mem_map.mp hx
      rw [Pattern.outer, List.mem_cons, or_assoc]
      exact (List.mem_cons.mp hc).imp_right (h.2.of_mem_expansions hy c)
  | .group options rest, h, x, hx, c, hc => by
      obtain ⟨texts, htexts, hx⟩ := List.mem_flatMap.mp hx
      obtain ⟨y, hy, hx⟩ := List.mem_flatMap.mp hx
      obtain ⟨z, hz, rfl⟩ := List.mem_map.mp hx
      rcases List.mem_append.mp hc with hc | hc
      · exact .inr (h.1.of_mem_choices htexts hy c hc)
      · exact h.2.of_mem_expansions hz c hc

theorem Options.Sound.of_mem_choices : ∀ {options : Options}, options.Sound →
    ∀ {texts : List (List Char)}, texts ∈ options.choices → ∀ {x : List Char}, x ∈ texts →
      ∀ c ∈ x, c ≠ '{' ∧ c ≠ '}' ∧ c ≠ ','
  | .one option, h, texts, htexts, x, hx => by
      obtain ⟨y, hy, rfl⟩ := List.mem_map.mp htexts
      obtain rfl := List.mem_singleton.mp hx
      exact Pattern.Paired.separates_none h.1 h.2.1 (h.2.2.of_mem_expansions hy)
  | .more option options, h, texts, htexts, x, hx => by
      obtain ⟨y, hy, htexts⟩ := List.mem_flatMap.mp htexts
      obtain ⟨texts, hrest, rfl⟩ := List.mem_map.mp htexts
      rcases List.mem_cons.mp hx with rfl | hx
      · exact Pattern.Paired.separates_none h.1.1 h.1.2.1 (h.1.2.2.of_mem_expansions hy)
      · exact h.2.of_mem_choices hrest hx

end

/-- A pattern stands behind a text without groups, and closes none that the text opens. -/
def Pattern.After (front : List Char) (p : Pattern) : Prop :=
  ¬ HasGroup front ∧ ('{' ∈ front → '}' ∉ p.outer)

theorem Pattern.After.char {c : Char} {rest : Pattern} {front : List Char}
    (h : (Pattern.char c rest).After front) (hsound : (Pattern.char c rest).Sound) :
    rest.After (front ++ [c]) := by
  obtain ⟨hfront, hopen⟩ := h
  refine ⟨not_hasGroup_concat hfront ?_, fun hmem => ?_⟩
  · rintro rfl hmem
    exact hopen hmem List.mem_cons_self
  · rcases List.mem_append.mp hmem with hmem | hc
    · exact fun hclose => hopen hmem (List.mem_cons_of_mem c hclose)
    · exact hsound.1 (List.mem_singleton.mp hc).symm

theorem Pattern.After.group {options : Options} {rest : Pattern} {front x : List Char}
    (h : (Pattern.group options rest).After front)
    (hx : ∀ c ∈ x, c ≠ '{' ∧ c ≠ '}' ∧ c ≠ ',') : rest.After (front ++ x) := by
  refine ⟨not_hasGroup_append h.1 fun c hc => ⟨(hx c hc).1, (hx c hc).2.1⟩, fun hmem => ?_⟩
  rcases List.mem_append.mp hmem with hmem | hmem
  · exact h.2 hmem
  · exact absurd rfl (hx _ hmem).1

/-- The first group is replaced by each of the chosen texts. -/
theorem Options.Sound.expand_choice {options : Options} (h : options.Sound)
    {texts : List (List Char)} (htexts : texts ∈ options.choices) {front : List Char}
    (hfront : ¬ HasGroup front) (after : List Char) :
    expand (front ++ '{' :: ([','].intercalate texts ++ '}' :: after)) =
      texts.flatMap fun x => expand (front ++ x ++ after) := by
  have hsep : ∀ x ∈ texts, ∀ c ∈ x, c ≠ '{' ∧ c ≠ '}' ∧ c ≠ ',' := fun _ hx =>
    h.of_mem_choices htexts hx
  have hinside : ∀ c ∈ [','].intercalate texts, c ≠ '{' ∧ c ≠ '}' := by
    intro c hc
    rcases Text.mem_intercalate hc with rfl | ⟨x, hx, hc⟩
    · decide
    · exact ⟨(hsep x hx c hc).1, (hsep x hx c hc).2.1⟩
  rw [expand_of_splitGroup? (splitGroup?_append hfront hinside after), Text.splitAt_eq_splitOn,
    List.splitOn_intercalate ',' (fun x hx hc => (hsep x hx _ hc).2.2 rfl)
      (ne_nil_of_mem_choices htexts)]

mutual

/-- Behind a text without groups a pattern is expanded as it stands there. -/
theorem Pattern.Sound.expand_append : ∀ {p : Pattern}, p.Sound → ∀ {front : List Char},
    p.After front → ∀ after : List Char, expand (front ++ p.text ++ after) =
      p.expansions.flatMap fun x => expand (front ++ x ++ after)
  | .done, _, front, _, after => by
      rw [Pattern.expansions, List.flatMap_singleton, Pattern.text]
  | .char c rest, h, front, hfront, after => by
      have ih := h.2.expand_append (hfront.char h) after
      rw [Pattern.expansions, List.flatMap_map, Pattern.text]
      simpa using ih
  | .group options rest, h, front, hfront, after => by
      have hopen : ¬ HasGroup (front ++ ['{']) :=
        not_hasGroup_concat hfront.1 fun hc => absurd hc (by decide)
      calc expand (front ++ (Pattern.group options rest).text ++ after)
          = expand (front ++ ['{'] ++ options.text ++ '}' :: (rest.text ++ after)) := by
            simp [Pattern.text]
        _ = options.choices.flatMap fun texts =>
              expand (front ++
                '{' :: ([','].intercalate texts ++ '}' :: (rest.text ++ after))) := by
            rw [h.1.expand_append hopen]
            simp
        _ = options.choices.flatMap fun texts => texts.flatMap fun x =>
              rest.expansions.flatMap fun y => expand (front ++ (x ++ y) ++ after) := by
            refine List.flatMap_congr fun texts htexts => ?_
            rw [h.1.expand_choice htexts hfront.1]
            refine List.flatMap_congr fun x hx => ?_
            rw [← List.append_assoc,
              h.2.expand_append (hfront.group (h.1.of_mem_choices htexts hx))]
            simp
        _ = (Pattern.group options rest).expansions.flatMap fun x =>
              expand (front ++ x ++ after) := by
            rw [Pattern.expansions, List.flatMap_assoc]
            simp [List.flatMap_assoc, List.flatMap_map]

theorem Options.Sound.expand_append : ∀ {options : Options}, options.Sound →
    ∀ {front : List Char}, ¬ HasGroup front → ∀ after : List Char,
      expand (front ++ options.text ++ after) = options.choices.flatMap fun texts =>
        expand (front ++ [','].intercalate texts ++ after)
  | .one option, h, front, hfront, after => by
      rw [Options.text, Options.choices, List.flatMap_map,
        h.2.2.expand_append ⟨hfront, fun _ hc => (h.1 _ hc).2 rfl⟩]
      simp
  | .more option options, h, front, hfront, after => by
      have hfirst : option.After front := ⟨hfront, fun _ hc => (h.1.1 _ hc).2 rfl⟩
      calc expand (front ++ (Options.more option options).text ++ after)
          = expand (front ++ option.text ++ ',' :: (options.text ++ after)) := by
            simp [Options.text]
        _ = option.expansions.flatMap fun x =>
              expand (front ++ (x ++ [',']) ++ options.text ++ after) := by
            rw [h.1.2.2.expand_append hfirst]
            simp
        _ = option.expansions.flatMap fun x => options.choices.flatMap fun texts =>
              expand (front ++ [','].intercalate (x :: texts) ++ after) := by
            refine List.flatMap_congr fun x hx => ?_
            have hbraces : ∀ c ∈ x ++ [','], c ≠ '{' ∧ c ≠ '}' := by
              have hoption := Pattern.Paired.separates_none h.1.1 h.1.2.1
                (h.1.2.2.of_mem_expansions hx)
              refine List.forall_mem_append.mpr
                ⟨fun c hc => ⟨(hoption c hc).1, (hoption c hc).2.1⟩, ?_⟩
              exact List.forall_mem_singleton.mpr ⟨by decide, by decide⟩
            rw [h.2.expand_append (not_hasGroup_append hfront hbraces)]
            refine List.flatMap_congr fun texts htexts => ?_
            rw [List.intercalate_cons_of_ne_nil (Options.ne_nil_of_mem_choices htexts)]
            simp
        _ = (Options.more option options).choices.flatMap fun texts =>
              expand (front ++ [','].intercalate texts ++ after) := by
            rw [Options.choices, List.flatMap_assoc]
            simp [List.flatMap_map]

end

theorem Pattern.Sound.not_hasGroup : ∀ {p : Pattern}, p.Sound → ∀ {front : List Char},
    p.After front → ∀ {x : List Char}, x ∈ p.expansions → ¬ HasGroup (front ++ x)
  | .done, _, front, hfront, x, hx => by
      rw [List.mem_singleton.mp hx, List.append_nil]
      exact hfront.1
  | .char c rest, h, front, hfront, x, hx => by
      obtain ⟨y, hy, rfl⟩ := List.mem_map.mp hx
      simpa using not_hasGroup h.2 (hfront.char h) hy
  | .group options rest, h, front, hfront, x, hx => by
      obtain ⟨texts, htexts, hx⟩ := List.mem_flatMap.mp hx
      obtain ⟨y, hy, hx⟩ := List.mem_flatMap.mp hx
      obtain ⟨z, hz, rfl⟩ := List.mem_map.mp hx
      have ih := not_hasGroup h.2 (hfront.group (h.1.of_mem_choices htexts hy)) hz
      rwa [List.append_assoc] at ih

theorem Pattern.Sound.expand_text {p : Pattern} (h : p.Sound) : expand p.text = p.expansions := by
  have hnil : p.After [] := ⟨not_hasGroup_nil, fun hmem => absurd hmem List.not_mem_nil⟩
  calc expand p.text = expand ([] ++ p.text ++ []) := by rw [List.append_nil, List.nil_append]
    _ = p.expansions.flatMap fun x => expand ([] ++ x ++ []) := h.expand_append hnil []
    _ = p.expansions.flatMap fun x => [x] := by
        refine List.flatMap_congr fun x hx => ?_
        rw [List.append_nil, List.nil_append]
        exact expand_of_not_hasGroup (h.not_hasGroup hnil hx)
    _ = p.expansions := List.flatMap_singleton' _

/-- The expansion of braces ends on every text, and no group is left in what it finds, which is
expanded to itself. Every text is that of a pattern, whose braces all have partners if they are
balanced; the texts that are found are those that the pattern stands for, and without nested
groups they are the product of its parts in order. -/
theorem expand_eq_language :
    WellFounded Replaces ∧
    (∀ cs, expand cs = match splitGroup? cs with
      | none => [cs]
      | some (before, inside, after) => (Text.splitAt ',' inside).flatMap fun option =>
          expand (before ++ option ++ after)) ∧
    (∀ cs, ∀ x ∈ expand cs, ¬ HasGroup x ∧ expand x = [x]) ∧
    (∀ cs, ∃ p : Pattern, p.Sound ∧ p.text = cs ∧ (Balanced cs → p.Paired)) ∧
    ∀ p : Pattern, p.Sound →
      (∀ x, x ∈ expand p.text ↔ x ∈ p.language) ∧
      (p.Flat → expand p.text = product p.factors) := by
  refine ⟨wellFounded_replaces, fun cs => ?_, fun cs x hx => ?_, fun cs => ?_, fun p hp => ?_⟩
  · split
    · rename_i hnone
      exact expand_of_not_hasGroup (splitGroup?_eq_none_iff.mp hnone)
    · rename_i before inside after hsplit
      exact expand_of_splitGroup? hsplit
  · have hgroup := not_hasGroup_of_mem_expand hx
    exact ⟨hgroup, expand_of_not_hasGroup hgroup⟩
  · refine ⟨read cs, sound_read cs, text_read cs, fun hbalanced => ?_⟩
    exact Balanced.paired (sound_read cs) (by rwa [text_read])
  · rw [hp.expand_text]
    exact ⟨fun x => p.mem_expansions, fun hflat => hflat.expansions_eq⟩

/-- A group in an option of another one, and two groups side by side of which one has the same
option twice. -/
theorem expand_nested_and_flat :
    (∃ p : Pattern, p.Sound ∧ p.Paired ∧
      p.text = ['a', '{', 'b', '{', 'c', ',', 'd', '}', ',', 'e', '}'] ∧
      ['a', 'b', 'd'] ∈ p.language ∧ ['a', 'b'] ∉ p.language) ∧
    expand ['{', 'a', ',', 'b', '}', '{', 'c', ',', 'c', '}'] =
      [['a', 'c'], ['a', 'c'], ['b', 'c'], ['b', 'c']] := by
  obtain ⟨-, -, -, hread, hexpand⟩ := expand_eq_language
  constructor
  · obtain ⟨p, hp, htext, hpaired⟩ :=
      hread ['a', '{', 'b', '{', 'c', ',', 'd', '}', ',', 'e', '}']
    have hmem := (hexpand p hp).1
    rw [htext] at hmem
    exact ⟨p, hp, hpaired (by decide), htext, (hmem _).mp (by decide),
      fun h => absurd ((hmem _).mpr h) (by decide)⟩
  · have hsound := sound_read ['{', 'a', ',', 'b', '}', '{', 'c', ',', 'c', '}']
    have hflat := (hexpand _ hsound).2 ⟨⟨trivial, trivial⟩, ⟨trivial, trivial⟩, trivial⟩
    rw [text_read] at hflat
    exact hflat.trans (by decide)

end Soundworks.Braces
