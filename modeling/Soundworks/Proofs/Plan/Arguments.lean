import Mathlib.Data.List.Basic
import Soundworks.Plan.Command
/-!
Reading a command line of the audio engine. What it asks for can be told from its words in one way
only, and its options are the words that begin with a dash if no value begins with one.
-/

namespace Soundworks

/-! ### The parts of a command line -/

def beginsWithDash (word : String) : Bool := word.toList.head? = some '-'

theorem beginsWithDash_eq_false {word : String} :
    beginsWithDash word = false ↔ word.toList.head? ≠ some '-' := by
  simp [beginsWithDash]

/-- What is done to the sound: nothing, a chain of filters, or a graph of which one stream is
taken. -/
inductive Filtering where
  | nothing
  | chain (text : String)
  | graph (text stream : String)
  deriving DecidableEq

def Filtering.words : Filtering → List String
  | .nothing => []
  | .chain text => ["-af", text]
  | .graph text stream => ["-filter_complex", text, "-map", stream]

def Filtering.options : Filtering → List String
  | .nothing => []
  | .chain _ => ["-af"]
  | .graph _ _ => ["-filter_complex", "-map"]

def Filtering.values : Filtering → List String
  | .nothing => []
  | .chain text => [text]
  | .graph text stream => [text, stream]

/-- What a command line asks for. An input has a start or none. -/
structure Arguments where
  program : String
  inputs : List (Option String × String)
  duration : Option String
  filtering : Filtering
  sampleRate : Option String
  channels : Option String
  codec : Option String
  bitrate : Option String
  output : String
  deriving DecidableEq

namespace Arguments

/-- The words of an input, which stands behind its start. -/
def inputWords (i : Option String × String) : List String := optionArgs "-ss" i.1 ++ ["-i", i.2]

/-- The words of the output format, and the output. -/
def formatWords (a : Arguments) : List String :=
  optionArgs "-ar" a.sampleRate ++ (optionArgs "-ac" a.channels ++
    (optionArgs "-c:a" a.codec ++ (optionArgs "-b:a" a.bitrate ++ [a.output])))

/-- The words in their order: every input behind its start, then the length, the filters, the
format and the output. -/
def words (a : Arguments) : List String :=
  a.program :: "-hide_banner" :: "-loglevel" :: "error" :: "-y" ::
    (a.inputs.flatMap inputWords ++
      (optionArgs "-t" a.duration ++ (a.filtering.words ++ a.formatWords)))

/-! ### Reading -/

def takeOption (name : String) : List String → Option String × List String
  | word :: value :: rest =>
    if word = name then (some value, rest) else (none, word :: value :: rest)
  | rest => (none, rest)

def takeInputs : List String → List (Option String × String) × List String
  | "-ss" :: start :: "-i" :: path :: rest =>
    ((some start, path) :: (takeInputs rest).1, (takeInputs rest).2)
  | "-i" :: path :: rest => ((none, path) :: (takeInputs rest).1, (takeInputs rest).2)
  | rest => ([], rest)

def takeFiltering : List String → Filtering × List String
  | "-af" :: text :: rest => (.chain text, rest)
  | "-filter_complex" :: text :: "-map" :: stream :: rest => (.graph text stream, rest)
  | rest => (.nothing, rest)

def read? : List String → Option Arguments
  | program :: "-hide_banner" :: "-loglevel" :: "error" :: "-y" :: rest =>
    let (inputs, rest) := takeInputs rest
    let (duration, rest) := takeOption "-t" rest
    let (filtering, rest) := takeFiltering rest
    let (sampleRate, rest) := takeOption "-ar" rest
    let (channels, rest) := takeOption "-ac" rest
    let (codec, rest) := takeOption "-c:a" rest
    let (bitrate, rest) := takeOption "-b:a" rest
    match rest with
    | [output] =>
      some { program, inputs, duration, filtering, sampleRate, channels, codec, bitrate, output }
    | _ => none
  | _ => none

/-- Some words do not begin with an option of the given names. -/
def Without (names rest : List String) : Prop :=
  ∀ name ∈ names, ∀ value more, rest ≠ name :: value :: more

theorem without_output (names : List String) (output : String) : Without names [output] :=
  fun _ _ _ _ => nofun

theorem Without.mono {names names' rest : List String} (h : Without names rest)
    (hsub : names' ⊆ names) : Without names' rest := fun name hname => h name (hsub hname)

theorem Without.optionArgs {names rest : List String} {name : String} {value : Option String}
    (h : Without names rest) (hname : name ∉ names := by decide) :
    Without names (optionArgs name value ++ rest) := by
  cases value with
  | none => exact h
  | some value =>
      rintro other hother v more heq
      exact hname ((List.cons.inj heq).1 ▸ hother)

theorem Without.filtering {names rest : List String} {f : Filtering} (h : Without names rest)
    (hchain : "-af" ∉ names := by decide) (hgraph : "-filter_complex" ∉ names := by decide) :
    Without names (f.words ++ rest) := by
  cases f with
  | nothing => exact h
  | chain text => exact fun name hname v more heq => hchain ((List.cons.inj heq).1 ▸ hname)
  | graph text stream => exact fun name hname v more heq => hgraph ((List.cons.inj heq).1 ▸ hname)

theorem without_formatWords (a : Arguments) :
    Without ["-ss", "-i", "-t", "-af", "-filter_complex"] a.formatWords :=
  (without_output _ a.output).optionArgs.optionArgs.optionArgs.optionArgs

theorem takeOption_optionArgs {name : String} {rest : List String} (h : Without [name] rest)
    (value : Option String) : takeOption name (optionArgs name value ++ rest) = (value, rest) := by
  cases value with
  | some value => simp [optionArgs, takeOption]
  | none =>
      show takeOption name rest = (none, rest)
      unfold takeOption
      split
      · rename_i word value more
        exact if_neg fun heq => h name List.mem_cons_self value more (by rw [heq])
      · rfl

theorem takeInputs_of_without {rest : List String} (h : Without ["-ss", "-i"] rest) :
    takeInputs rest = ([], rest) := by
  unfold takeInputs
  split
  · exact absurd rfl (h "-ss" (by decide) _ _)
  · exact absurd rfl (h "-i" (by decide) _ _)
  · rfl

theorem takeInputs_cons (i : Option String × String) (rest : List String) :
    takeInputs (inputWords i ++ rest) = (i :: (takeInputs rest).1, (takeInputs rest).2) := by
  obtain ⟨_ | start, path⟩ := i <;> rfl

theorem takeInputs_words (inputs : List (Option String × String)) {rest : List String}
    (h : Without ["-ss", "-i"] rest) :
    takeInputs (inputs.flatMap inputWords ++ rest) = (inputs, rest) := by
  induction inputs with
  | nil => exact takeInputs_of_without h
  | cons i inputs ih =>
      rw [List.flatMap_cons, List.append_assoc, takeInputs_cons, ih]

theorem takeFiltering_words (f : Filtering) {rest : List String}
    (h : Without ["-af", "-filter_complex"] rest) :
    takeFiltering (f.words ++ rest) = (f, rest) := by
  cases f with
  | chain text => rfl
  | graph text stream => rfl
  | nothing =>
      show takeFiltering rest = (.nothing, rest)
      unfold takeFiltering
      split
      · exact absurd rfl (h "-af" (by decide) _ _)
      · exact absurd rfl (h "-filter_complex" (by decide) _ _)
      · rfl

/-- The words of a command line are read back. -/
theorem read?_words (a : Arguments) : read? a.words = some a := by
  have hformat := a.without_formatWords
  have hfilters : Without ["-ss", "-i", "-t"] (a.filtering.words ++ a.formatWords) :=
    (hformat.mono (by decide)).filtering
  have hlength : Without ["-ss", "-i"]
      (optionArgs "-t" a.duration ++ (a.filtering.words ++ a.formatWords)) :=
    (hfilters.mono (by decide)).optionArgs
  have hbitrate : takeOption "-b:a" (optionArgs "-b:a" a.bitrate ++ [a.output]) = _ :=
    takeOption_optionArgs (without_output _ _) _
  have hcodec : takeOption "-c:a" (optionArgs "-c:a" a.codec ++
      (optionArgs "-b:a" a.bitrate ++ [a.output])) = _ :=
    takeOption_optionArgs (without_output _ _).optionArgs _
  have hchannels : takeOption "-ac" (optionArgs "-ac" a.channels ++ (optionArgs "-c:a" a.codec ++
      (optionArgs "-b:a" a.bitrate ++ [a.output]))) = _ :=
    takeOption_optionArgs (without_output _ _).optionArgs.optionArgs _
  have hrate : takeOption "-ar" (optionArgs "-ar" a.sampleRate ++ (optionArgs "-ac" a.channels ++
      (optionArgs "-c:a" a.codec ++ (optionArgs "-b:a" a.bitrate ++ [a.output])))) = _ :=
    takeOption_optionArgs (without_output _ _).optionArgs.optionArgs.optionArgs _
  simp only [words, read?, takeInputs_words a.inputs hlength,
    takeOption_optionArgs (hfilters.mono (by decide : ["-t"] ⊆ _)),
    takeFiltering_words a.filtering (hformat.mono (by decide))]
  simp only [formatWords, hrate, hchannels, hcodec, hbitrate]

/-- Different requests have different command lines. -/
theorem words_injective : Function.Injective words := fun a a' h => by
  have hread := a.read?_words
  rw [h, a'.read?_words] at hread
  exact (Option.some.inj hread).symm

/-! ### Options -/

def options (a : Arguments) : List String :=
  "-hide_banner" :: "-loglevel" :: "-y" ::
    (a.inputs.flatMap (fun i => (i.1.map fun _ => "-ss").toList ++ ["-i"]) ++
      ((a.duration.map fun _ => "-t").toList ++ (a.filtering.options ++
        ((a.sampleRate.map fun _ => "-ar").toList ++ ((a.channels.map fun _ => "-ac").toList ++
          ((a.codec.map fun _ => "-c:a").toList ++ (a.bitrate.map fun _ => "-b:a").toList))))))

/-- No value and no path is taken for an option. -/
structure Undashed (a : Arguments) : Prop where
  starts : ∀ i ∈ a.inputs, ∀ start ∈ i.1, beginsWithDash start = false
  paths : ∀ i ∈ a.inputs, beginsWithDash i.2 = false
  duration : ∀ x ∈ a.duration, beginsWithDash x = false
  filtering : ∀ word ∈ a.filtering.values, beginsWithDash word = false
  sampleRate : ∀ x ∈ a.sampleRate, beginsWithDash x = false
  channels : ∀ x ∈ a.channels, beginsWithDash x = false
  codec : ∀ x ∈ a.codec, beginsWithDash x = false
  bitrate : ∀ x ∈ a.bitrate, beginsWithDash x = false
  output : beginsWithDash a.output = false

theorem filter_optionArgs {name : String} {value : Option String}
    (hname : beginsWithDash name = true) (h : ∀ x ∈ value, beginsWithDash x = false) :
    (optionArgs name value).filter beginsWithDash = (value.map fun _ => name).toList := by
  cases value with
  | none => rfl
  | some x => simp [optionArgs, hname, h x rfl]

theorem filter_inputWords {inputs : List (Option String × String)}
    (hstarts : ∀ i ∈ inputs, ∀ start ∈ i.1, beginsWithDash start = false)
    (hpaths : ∀ i ∈ inputs, beginsWithDash i.2 = false) :
    (inputs.flatMap inputWords).filter beginsWithDash =
      inputs.flatMap fun i => (i.1.map fun _ => "-ss").toList ++ ["-i"] := by
  rw [List.filter_flatMap]
  refine List.flatMap_congr fun i hi => ?_
  show (inputWords i).filter beginsWithDash = _
  rw [inputWords, List.filter_append, filter_optionArgs (by decide) (hstarts i hi)]
  simp [hpaths i hi, (by decide : beginsWithDash "-i" = true)]

theorem filter_filtering {f : Filtering} (h : ∀ word ∈ f.values, beginsWithDash word = false) :
    f.words.filter beginsWithDash = f.options := by
  cases f with
  | nothing => rfl
  | chain text => simp_all [Filtering.words, Filtering.options, Filtering.values, beginsWithDash]
  | graph text stream =>
      simp_all [Filtering.words, Filtering.options, Filtering.values, beginsWithDash]

/-- The words that begin with a dash are the options. -/
theorem Undashed.filter_words {a : Arguments} (h : a.Undashed) :
    a.words.tail.filter beginsWithDash = a.options := by
  have hfixed : ["-hide_banner", "-loglevel", "error", "-y"].filter beginsWithDash =
      ["-hide_banner", "-loglevel", "-y"] := by decide
  have houtput : [a.output].filter beginsWithDash = [] := by simp [h.output]
  have hsplit : a.words.tail = ["-hide_banner", "-loglevel", "error", "-y"] ++
      (a.inputs.flatMap inputWords ++ (optionArgs "-t" a.duration ++
        (a.filtering.words ++ a.formatWords))) := rfl
  rw [hsplit, List.filter_append, hfixed]
  simp only [formatWords, List.filter_append, filter_inputWords h.starts h.paths,
    filter_filtering h.filtering,
    filter_optionArgs (by decide : beginsWithDash "-t" = true) h.duration,
    filter_optionArgs (by decide : beginsWithDash "-ar" = true) h.sampleRate,
    filter_optionArgs (by decide : beginsWithDash "-ac" = true) h.channels,
    filter_optionArgs (by decide : beginsWithDash "-c:a" = true) h.codec,
    filter_optionArgs (by decide : beginsWithDash "-b:a" = true) h.bitrate, houtput,
    List.append_nil]
  rfl

end Arguments

end Soundworks
