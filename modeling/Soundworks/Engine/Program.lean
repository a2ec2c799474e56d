import Soundworks.Engine.Location
import Soundworks.Shell.Run
/-!
Running the programs of a host. A program is a script of the shell; its file has to be
executable and to name the shell in its first line.
-/

namespace Soundworks

/-- What a program left behind: the code it ended with, unless its time ran out, what it wrote,
and the files. A program that a signal ended has the negative number of the signal. -/
structure Completion where
  code : Option Int
  output : List Nat
  errors : List Nat
  tree : FileTree

/-- The programs that read scripts. -/
def shells : List String := ["/bin/sh", "/bin/dash", "/bin/bash", "/usr/bin/sh", "/usr/bin/bash"]

/-- The program that the first line of a script names. -/
def interpreter? (script : String) : Option String :=
  match script.toList with
  | '#' :: '!' :: cs =>
    let isGap := fun c => c = ' ' || c = '\t'
    let rest := (cs.takeWhile (· ≠ '\n')).dropWhile isGap
    some (String.ofList (rest.takeWhile fun c => !isGap c))
  | _ => none

namespace Host

def script (h : Host) (t : FileTree) (path : String) : Except FileError String :=
  match t.resolve h.directory path with
  | none => .error (.notFound path)
  | some (_, .directory) => .error (.permissionDenied path)
  | some (_, .file text mode) =>
    if !isExecutable mode then .error (.permissionDenied path)
    else
      match interpreter? text with
      | none => .error (.notProgram path)
      | some program => if program ∈ shells then .ok text else .error (.notFound path)

/-- The script of a program and its path: the first candidate that can be run. If there is none,
an error other than a missing file counts more. -/
def findScript (h : Host) (t : FileTree) (name : String) : Except FileError (String × String) :=
  let tries := (h.candidates name).map fun path => (path, h.script t path)
  match tries.findSome? fun (path, result) => result.toOption.map fun text => (path, text) with
  | some found => .ok found
  | none =>
    let denied := tries.any fun (_, result) => result matches .error (.permissionDenied _)
    let foreign := tries.any fun (_, result) => result matches .error (.notProgram _)
    .error (if denied then .permissionDenied name
      else if foreign then .notProgram name else .notFound name)

def codeOf : Shell.Step → Option Int
  | (_, .expired) => none
  | (_, .killed signal) => some (-signal)
  | (p, _) => some p.status

/-- Runs a program with its arguments, for at most the given count of seconds. -/
def launch (h : Host) (t : FileTree) (name : String) (args : List String)
    (limit : Option Binary64) : Except FileError Completion :=
  if (name :: args).any fun s => '\x00' ∈ s.toList then .error .nullCharacter
  else
    (h.findScript t name).map fun (path, text) =>
      if limit.any fun l => decide (l ≤ 0) then ⟨none, [], [], t⟩
      else
        let step := Shell.runScript text
          { tree := t
            directory := h.directory
            name := path
            args := args
            bindings :=
              [("HOME", h.home), ("PATH", ":".intercalate h.searchPath), ("PWD", h.directory)]
            limit := limit }
        ⟨codeOf step, step.1.output, step.1.errors, step.1.tree⟩

end Host

end Soundworks
