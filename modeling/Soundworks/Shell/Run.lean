import Soundworks.Binary64.Arithmetic
import Soundworks.Shell.Format
import Soundworks.Shell.Process
import Soundworks.Shell.Reader
/-!
Running scripts. A run takes a bounded count of steps; one that would go on is taken not to end,
as a script is that waits beyond its time limit.
-/

namespace Soundworks.Shell

/-- How a script goes on after a command. -/
inductive Flow where
  | on
  | leaveLoop
  | nextRound
  | exited
  | killed (signal : Nat)
  | expired
  deriving DecidableEq

/-- A state and how it goes on. -/
abbrev Step := Process × Flow

namespace Process

def createError (e : FileError) : String :=
  match e with
  | .notFound _ => "Directory nonexistent"
  | .notDirectory _ => "Not a directory"
  | .isDirectory _ => "Is a directory"
  | .nameTooLong _ => "File name too long"
  | e => e.message

/-- Opens a file for writing; what it holds is kept only if output is appended. -/
def openFile (p : Process) (path : String) (append : Bool) : Except String (Sink × Process) :=
  if path = "/dev/null" then .ok (.nowhere, p)
  else if path = "/dev/stdout" then .ok (p.streams.1, p)
  else if path = "/dev/stderr" then .ok (p.streams.2, p)
  else
    let whole := Path.absolute p.directory path
    if append ∧ p.tree.isFile whole then .ok (.file whole, p)
    else
      match p.tree.write whole "" with
      | .ok tree => .ok (.file whole, { p with tree := tree })
      | .error e => .error ("cannot create " ++ path ++ ": " ++ createError e)

def connect (p : Process) (stream : Nat) (sink : Sink) : Process :=
  match stream with
  | 1 => { p with streams := (sink, p.streams.2) }
  | 2 => { p with streams := (p.streams.1, sink) }
  | _ => p

def redirect (p : Process) : Redirection → Except String Process
  | .toFile stream append target => do
    let path ← (p.wordText? target).elim (.error "bad substitution") .ok
    let (sink, p) ← p.openFile path append
    pure (p.connect stream sink)
  | .toStream stream target =>
    match p.wordText? target with
    | some "1" => .ok (p.connect stream p.streams.1)
    | some "2" => .ok (p.connect stream p.streams.2)
    | some "-" => .ok (p.connect stream .nowhere)
    | _ => .error "bad file descriptor"
  | .ofFile target =>
    match p.wordText? target with
    | some path =>
      if path = "/dev/null" ∨ (p.tree.resolve p.directory path).isSome then .ok p
      else .error ("cannot open " ++ path ++ ": No such file")
    | none => .error "bad substitution"

/-- Carries out redirections from left to right. -/
def redirectAll (p : Process) (rs : List Redirection) : Except String Process :=
  rs.foldlM redirect p

/-- The test of two operands, if there is one. -/
def compare? (op left right : String) : Option Bool :=
  let numbers := fun (f : Int → Int → Bool) => do
    let m ← Decimal.looseInteger? left
    let n ← Decimal.looseInteger? right
    pure (f m n)
  match op with
  | "=" => some (left = right)
  | "!=" => some (left ≠ right)
  | "-eq" => numbers fun m n => m = n
  | "-ne" => numbers fun m n => m ≠ n
  | "-lt" => numbers fun m n => m < n
  | "-le" => numbers fun m n => m ≤ n
  | "-gt" => numbers fun m n => m > n
  | "-ge" => numbers fun m n => m ≥ n
  | _ => none

/-- The test of one operand, if there is one. -/
def inspect? (p : Process) (op value : String) : Option Bool :=
  let entry := (p.tree.resolve p.directory value).map (·.2)
  match op with
  | "-n" => some (value ≠ "")
  | "-z" => some (value = "")
  | "-e" | "-r" | "-w" => some entry.isSome
  | "-d" => some (entry = some .directory)
  | "-f" => some (entry matches some (Entry.file ..))
  | "-s" => some (match entry with
      | some (.file text _) => text ≠ ""
      | e => e.isSome)
  | "-x" => some (match entry with
      | some (.file _ mode) => mode &&& 0o111 ≠ 0
      | e => e.isSome)
  | _ => none

def test? (p : Process) : List String → Option Bool
  | [] => some false
  | [s] => some (s ≠ "")
  | ["!", s] => some (s = "")
  | [op, s] => p.inspect? op s
  | ["!", op, s] => (p.inspect? op s).map (!·)
  | [left, op, right] => compare? op left right
  | ["!", left, op, right] => (compare? op left right).map (!·)
  | _ => none

def signals : List (String × Nat) :=
  [("HUP", 1), ("INT", 2), ("QUIT", 3), ("ABRT", 6), ("KILL", 9), ("USR1", 10), ("SEGV", 11),
    ("USR2", 12), ("PIPE", 13), ("ALRM", 14), ("TERM", 15)]

def signal? (s : String) : Option Nat := s.toNat? <|> signals.lookup s

/-- Sends a signal; only the script itself can be reached. -/
def kill (p : Process) (args : List String) : Step :=
  let (signal, targets) :=
    match args with
    | "-s" :: name :: rest => (signal? name, rest)
    | first :: rest =>
      if first.startsWith "-" then (signal? (String.ofList first.toList.tail), rest)
      else (some 15, args)
    | [] => (none, [])
  match signal, targets with
  | some 0, _ => (p.withStatus 0, .on)
  | some n, [target] => if target = ownNumber then (p, .killed n) else (p.withStatus 1, .on)
  | _, _ => (p.withStatus 1, .on)

/-- Waits for a count of seconds, unless the time limit comes first. -/
def wait (p : Process) (seconds : Binary64) : Step :=
  let elapsed := p.elapsed + seconds
  if p.limit.any fun l => decide (l ≤ elapsed) then (p, .expired)
  else if elapsed matches .infinite _ then (p, .expired)
  else ({ p with elapsed := elapsed, status := 0 }, .on)

def concatenate (p : Process) : List String → Process
  | [] => p
  | path :: rest =>
    match p.tree.read {} p.directory path with
    | .ok text => concatenate (p.write (Utf8.encode text)) rest
    | .error _ => concatenate (p.withStatus 1) rest

def copy (p : Process) (source target : String) : Process :=
  match p.tree.read {} p.directory source with
  | .ok text =>
    match p.tree.write (Path.absolute p.directory target) text with
    | .ok tree => { p with tree := tree, status := 0 }
    | .error _ => p.withStatus 1
  | .error _ => p.withStatus 1

def runProgram (p : Process) (line : Nat) (name : String) (args : List String) : Step :=
  let known := ["/bin", "/usr/bin"]
  let path := Path.parts ((p.bindings.lookup "PATH").getD "")
  let base := if '/' ∈ name.toList then (if Path.parent name ∈ known then Path.name name else "")
    else if path.any fun d => "/" ++ d ∈ known then name else ""
  match base, args with
  | "sleep", [seconds] =>
    match Decimal.looseNumber? seconds with
    | some x => p.wait x
    | none => (p.withStatus 1, .on)
  | "true", _ => (p.withStatus 0, .on)
  | "false", _ => (p.withStatus 1, .on)
  | "cat", paths => ((p.withStatus 0).concatenate paths, .on)
  | "cp", [source, target] => (p.copy source target, .on)
  | _, _ => ((p.warn line (name ++ ": not found")).withStatus 127, .on)

/-- The commands whose failed redirections end a script. -/
def isSpecial (name : String) : Bool :=
  name ∈ [":", "exec", "exit", "shift", "break", "continue", "set"]

def exit (p : Process) (line : Nat) (args : List String) : Step :=
  match args with
  | [] => (p, .exited)
  | arg :: _ =>
    match arg.toNat? with
    | some n => (p.withStatus (n % 256), .exited)
    | none => ((p.warn line ("exit: Illegal number: " ++ arg)).withStatus 2, .exited)

def runTest (p : Process) (line : Nat) (name : String) (args : List String) : Process :=
  match p.test? args with
  | some b => p.withStatus (if b then 0 else 1)
  | none => (p.warn line (name ++ ": bad test")).withStatus 2

def runNamed (p : Process) (line : Nat) (name : String) (args : List String) : Step :=
  match name with
  | ":" | "true" | "set" => (p.withStatus 0, .on)
  | "false" => (p.withStatus 1, .on)
  | "echo" => ((p.write (Format.echo args)).withStatus 0, .on)
  | "printf" =>
    match args with
    | [] => ((p.warn line "printf: usage: printf format [arg ...]").withStatus 2, .on)
    | format :: rest =>
      let w := Format.printf format rest
      let p := p.write w.bytes
      let p := w.refused.foldl
        (fun p arg => p.warn line ("printf: " ++ arg ++ ": expected numeric value")) p
      (p.withStatus (if w.refused = [] then 0 else 1), .on)
  | "exit" => p.exit line args
  | "exec" =>
    match args with
    | [] => (p.withStatus 0, .on)
    | name :: rest =>
      let (p, flow) := p.runProgram line name rest
      (p, if flow = .on then .exited else flow)
  | "[" =>
    if args.getLast? = some "]" then (p.runTest line name args.dropLast, .on)
    else ((p.warn line "[: missing ]").withStatus 2, .on)
  | "test" => (p.runTest line name args, .on)
  | "shift" =>
    let count := (args.head?.bind String.toNat?).getD 1
    ({ p with args := p.args.drop count, status := 0 }, .on)
  | "kill" => p.kill args
  | "break" => (p.withStatus 0, .leaveLoop)
  | "continue" => (p.withStatus 0, .nextRound)
  | name => p.runProgram line name args

def assignAll (p : Process) : List (String × Word) → Option Process
  | [] => some p
  | (name, value) :: rest => do
    let s ← p.wordText? value
    (p.assign name s).assignAll rest

def failed (p : Process) (line : Nat) : Step :=
  ((p.warn line "arithmetic expression: expecting primary").withStatus 2, .exited)

/-- Runs a command with redirections, which end with it unless `exec` makes them last. -/
def runSimple (p : Process) (line : Nat) (bindings : List (String × Word)) (words : List Word)
    (redirections : List Redirection) : Step :=
  match p.allFields? words with
  | none => p.failed line
  | some fields =>
    let name := fields.headD ":"
    match p.redirectAll redirections with
    | .error message =>
      let special := isSpecial name
      ((p.warn line message).withStatus 2, if special then .exited else .on)
    | .ok q =>
      match (if fields = [] then q.assignAll bindings else some q) with
      | none => p.failed line
      | some q =>
        let (r, flow) := q.runNamed line name fields.tail
        if name = "exec" ∧ fields.tail = [] then (r, flow)
        else ({ r with streams := p.streams }, flow)

end Process

def armMatches (p : Process) (subject : List Char) (arm : List Word × Command) : Bool :=
  arm.1.any fun w => (p.pattern? w).any fun ws => Wildcard.matchesAll ws subject

namespace Command

/-- Runs the next command unless the one before ended something. -/
def andThen (s : Step) (f : Process → Step) : Step :=
  match s with
  | (p, .on) => f p
  | s => s

mutual

def run : Nat → Command → Process → Step
  | 0, _, p => (p, .expired)
  | fuel + 1, c, p =>
    match c with
    | .skip => (p, .on)
    | .simple line bindings words redirections => p.runSimple line bindings words redirections
    | .sequence first second => andThen (run fuel first p) (run fuel second)
    | .both first second =>
      andThen (run fuel first p) fun p => if p.status = 0 then run fuel second p else (p, .on)
    | .either first second =>
      andThen (run fuel first p) fun p => if p.status = 0 then (p, .on) else run fuel second p
    | .negate c =>
      andThen (run fuel c p) fun p => (p.withStatus (if p.status = 0 then 1 else 0), .on)
    | .loop untilTrue condition body => runLoop fuel untilTrue condition body 0 p
    | .forEach name items body =>
      match items.elim (some p.args) p.allFields? with
      | some values => runEach fuel name body values (p.withStatus 0)
      | none => p.failed 1
    | .branch condition yes no =>
      andThen (run fuel condition p) fun p =>
        if p.status = 0 then run fuel yes p else run fuel no (p.withStatus 0)
    | .select subject arms =>
      match p.wordText? subject with
      | some s =>
        let p := p.withStatus 0
        ((arms.find? (armMatches p s.toList)).map fun arm => run fuel arm.2 p).getD (p, .on)
      | none => p.failed 1
    | .redirected line c redirections =>
      match p.redirectAll redirections with
      | .ok q =>
        let (r, flow) := run fuel c q
        ({ r with streams := p.streams }, flow)
      | .error message => ((p.warn line message).withStatus 2, .on)

/-- Runs a loop; the status is that of the last round. -/
def runLoop : Nat → Bool → Command → Command → Nat → Process → Step
  | 0, _, _, _, _, p => (p, .expired)
  | fuel + 1, untilTrue, condition, body, status, p =>
    andThen (run fuel condition p) fun p =>
      if (p.status = 0) = untilTrue then (p.withStatus status, .on)
      else
        match run fuel body p with
        | (p, .on) | (p, .nextRound) => runLoop fuel untilTrue condition body p.status p
        | (p, .leaveLoop) => (p, .on)
        | s => s

def runEach : Nat → String → Command → List String → Process → Step
  | 0, _, _, _, p => (p, .expired)
  | _, _, _, [], p => (p, .on)
  | fuel + 1, name, body, value :: values, p =>
    match run fuel body (p.assign name value) with
    | (p, .on) | (p, .nextRound) => runEach fuel name body values p
    | (p, .leaveLoop) => (p, .on)
    | s => s

end

/-- The bound of nested steps, which no useful script reaches. -/
def stepLimit : Nat := 20000

end Command

def runScript (script : String) (p : Process) : Step :=
  match Command.ofScript? script with
  | some c => c.run Command.stepLimit p
  | none => ((p.warn 1 "Syntax error").withStatus 2, .exited)

end Soundworks.Shell
