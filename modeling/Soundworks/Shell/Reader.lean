import Soundworks.Shell.Token
/-!
Reading commands from tokens. Each function takes a list of tokens and returns a command with
the tokens behind it, or nothing if the tokens are no command.
-/

namespace Soundworks.Shell

namespace Command

def closers : List String := ["do", "done", "then", "elif", "else", "fi", "esac", "\x7d"]

def ends : List Token → Bool
  | [] => true
  | .mark s :: _ => s = ";;" || s = ")"
  | .word _ w :: _ => (plainText? w).any fun s => s ∈ closers
  | _ => false

def skipLines : List Token → List Token
  | .mark "\n" :: ts => skipLines ts
  | ts => ts

def skipSeparators : List Token → List Token
  | .mark s :: ts => if s = "\n" ∨ s = ";" then skipSeparators ts else .mark s :: ts
  | ts => ts

def keyword? (s : String) : List Token → Option (List Token)
  | .word _ w :: ts => if plainText? w = some s then some ts else none
  | _ => none

def binding? : Word → Option (String × Word)
  | .text false s :: rest =>
    let name := s.toList.takeWhile Token.isNameChar
    match s.toList.dropWhile Token.isNameChar with
    | '=' :: value =>
      if name.head?.any Token.startsName then
        some (String.ofList name, .text false (String.ofList value) :: rest)
      else none
    | _ => none
  | _ => none

def redirection? (stream : Option Nat) (mark : String) (target : Word) : Option Redirection :=
  match mark with
  | ">" | ">|" => some (.toFile (stream.getD 1) false target)
  | ">>" => some (.toFile (stream.getD 1) true target)
  | ">&" => some (.toStream (stream.getD 1) target)
  | "<" => some (.ofFile target)
  | _ => none

def readRedirections : List Token → List Redirection × List Token
  | .redirect line stream mark :: .word wordLine target :: ts =>
    match redirection? stream mark target with
    | some r =>
      let (rs, rest) := readRedirections ts
      (r :: rs, rest)
    | none => ([], .redirect line stream mark :: .word wordLine target :: ts)
  | ts => ([], ts)

/-- What has been read of a simple command. -/
structure Simple where
  line : Nat
  bindings : List (String × Word) := []
  words : List Word := []
  redirections : List Redirection := []

def Simple.command (s : Simple) : Command :=
  .simple s.line s.bindings s.words s.redirections

def readSimple? (s : Simple) : List Token → Option (Command × List Token)
  | .word _ w :: ts =>
    match s.words, binding? w with
    | [], some b => readSimple? { s with bindings := s.bindings ++ [b] } ts
    | _, _ => readSimple? { s with words := s.words ++ [w] } ts
  | .redirect _ stream mark :: .word _ target :: ts => do
    let r ← redirection? stream mark target
    readSimple? { s with redirections := s.redirections ++ [r] } ts
  | .redirect .. :: _ => none
  | ts => some (s.command, ts)

def readWords : List Token → List Word × List Token
  | .word _ w :: ts =>
    let (ws, rest) := readWords ts
    (w :: ws, rest)
  | ts => ([], ts)

def readPatterns? : List Token → Option (List Word × List Token)
  | .word _ w :: .mark ")" :: ts => some ([w], ts)
  | .word _ w :: .mark "|" :: ts => (readPatterns? ts).map fun (ws, rest) => (w :: ws, rest)
  | _ => none

def close (line : Nat) (c : Command) (ts : List Token) : Option (Command × List Token) :=
  match readRedirections ts with
  | ([], rest) => some (c, rest)
  | (rs, rest) => some (.redirected line c rs, rest)

mutual

def readList? : Nat → List Token → Option (Command × List Token)
  | 0, _ => none
  | fuel + 1, ts =>
    let ts := skipSeparators ts
    if ends ts then some (.skip, ts)
    else do
      let (first, ts) ← readChain? fuel ts
      match ts with
      | .mark ";" :: _ | .mark "\n" :: _ =>
        let (rest, ts) ← readList? fuel ts
        some (.sequence first rest, ts)
      | ts => if ends ts then some (first, ts) else none

/-- Commands that depend on the success or failure of the ones before. -/
def readChain? : Nat → List Token → Option (Command × List Token)
  | 0, _ => none
  | fuel + 1, ts => do
    let (first, ts) ← readCommand? fuel ts
    readLinks? fuel first ts

def readLinks? : Nat → Command → List Token → Option (Command × List Token)
  | 0, _, _ => none
  | fuel + 1, first, ts =>
    match ts with
    | .mark "&&" :: ts => do
      let (next, ts) ← readCommand? fuel (skipLines ts)
      readLinks? fuel (.both first next) ts
    | .mark "||" :: ts => do
      let (next, ts) ← readCommand? fuel (skipLines ts)
      readLinks? fuel (.either first next) ts
    | ts => some (first, ts)

def readCommand? : Nat → List Token → Option (Command × List Token)
  | 0, _ => none
  | fuel + 1, ts =>
    match ts with
    | .word line w :: rest =>
      match plainText? w with
      | some "!" => do
        let (c, ts) ← readCommand? fuel rest
        some (.negate c, ts)
      | some "\x7b" => do
        let (c, ts) ← readList? fuel rest
        close line c (← keyword? "\x7d" ts)
      | some "while" => readLoop? fuel line false rest
      | some "until" => readLoop? fuel line true rest
      | some "for" =>
        match rest with
        | .word _ [.text false name] :: ts => readFor? fuel line name ts
        | _ => none
      | some "if" => readBranch? fuel line rest
      | some "case" =>
        match rest with
        | .word _ subject :: ts => do
          let (arms, ts) ← readArms? fuel (← keyword? "in" (skipLines ts))
          close line (.select subject arms) ts
        | _ => none
      | _ => readSimple? { line } ts
    | .redirect line .. :: _ => readSimple? { line } ts
    | _ => none

/-- The body of a loop, up to its closing word. -/
def readBody? : Nat → List Token → Option (Command × List Token)
  | 0, _ => none
  | fuel + 1, ts => do
    let (body, ts) ← readList? fuel (← keyword? "do" (skipSeparators ts))
    some (body, ← keyword? "done" ts)

def readLoop? : Nat → Nat → Bool → List Token → Option (Command × List Token)
  | 0, _, _, _ => none
  | fuel + 1, line, untilTrue, ts => do
    let (condition, ts) ← readList? fuel ts
    let (body, ts) ← readBody? fuel ts
    close line (.loop untilTrue condition body) ts

/-- A loop over words after the name of its variable. -/
def readFor? : Nat → Nat → String → List Token → Option (Command × List Token)
  | 0, _, _, _ => none
  | fuel + 1, line, name, ts => do
    let (items, ts) :=
      match keyword? "in" (skipLines ts) with
      | some ts =>
        let (ws, ts) := readWords ts
        (some ws, ts)
      | none => (none, ts)
    let (body, ts) ← readBody? fuel ts
    close line (.forEach name items body) ts

/-- A choice after its first word. -/
def readBranch? : Nat → Nat → List Token → Option (Command × List Token)
  | 0, _, _ => none
  | fuel + 1, line, ts => do
    let (condition, ts) ← readList? fuel ts
    let (yes, ts) ← readList? fuel (← keyword? "then" ts)
    match keyword? "elif" ts, keyword? "else" ts with
    | some ts, _ => do
      let (no, ts) ← readBranch? fuel line ts
      some (.branch condition yes no, ts)
    | none, some ts => do
      let (no, ts) ← readList? fuel ts
      close line (.branch condition yes no) (← keyword? "fi" ts)
    | none, none => close line (.branch condition yes .skip) (← keyword? "fi" ts)

def readArms? : Nat → List Token → Option (List (List Word × Command) × List Token)
  | 0, _ => none
  | fuel + 1, ts =>
    let ts := skipLines ts
    match keyword? "esac" ts with
    | some ts => some ([], ts)
    | none => do
      let ts := if ts.head? = some (.mark "(") then ts.tail else ts
      let (patterns, ts) ← readPatterns? ts
      let (body, ts) ← readList? fuel ts
      let ts := if ts.head? = some (.mark ";;") then ts.tail else ts
      let (arms, ts) ← readArms? fuel ts
      some ((patterns, body) :: arms, ts)

end

/-- The command that a script holds. No command needs more steps than eight for each token. -/
def ofScript? (script : String) : Option Command := do
  let ts ← Token.ofText? script
  let (c, rest) ← readList? (8 * ts.length + 8) ts
  if rest = [] then some c else none

end Command

end Soundworks.Shell
