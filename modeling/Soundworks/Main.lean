import Soundworks.CommandLine.Run
/-!
The command line program. It reads the files below the working directory, carries out a command
on them, and writes back the files that are new or changed. Engines are scripts among these
files.
-/

namespace Soundworks

def variableNames : List String :=
  ["HOME", "PATH", "HOST", "PORT", "AUDIO_TWEAKER_LOG_LEVEL", "AUDIO_TWEAKER_FFMPEG_PATH",
    "AUDIO_TWEAKER_ENGINE_TIMEOUT", "AUDIO_TWEAKER_CONCURRENCY", "AUDIO_TWEAKER_ENABLE_ADVANCED",
    "AUDIO_TWEAKER_TRANSPORT"]

def readEnvironment : IO Environment :=
  variableNames.filterMapM fun name => do
    return (← IO.getEnv name).map fun value => (name, value)

/-- The entry of a file. A script counts as executable, and a file that is no text as empty. -/
def fileEntry (bytes : ByteArray) : Entry :=
  match String.fromUTF8? bytes with
  | some text => .file text (if text.startsWith "#!" then 0o755 else 0o644)
  | none => .file "" 0o644

/-- Adds what lies below a directory, down to the given depth. -/
def readBelow (directory : String) : Nat → FileTree → IO FileTree
  | 0, t => pure t
  | depth + 1, t => do
    let mut t := t
    for name in ← names directory do
      let path := Path.join directory name
      try
        let bytes ← IO.FS.readBinFile path
        t := t.put (Path.parts path) (fileEntry bytes)
      catch _ =>
        t ← readBelow path depth (t.put (Path.parts path) .directory)
    pure t
where
  /-- The names of what lies in a directory. -/
  names (directory : String) : IO (List String) := do
    try
      let here ← IO.FS.realPath directory
      return (← here.readDir).toList.map (·.fileName)
    catch _ => return []

def depthLimit : Nat := 32

def writeBack (before after : FileTree) : IO Unit :=
  after.entries.forM fun (path, entry) => do
    if before.lookup path ≠ some entry then
      match entry with
      | .directory => IO.FS.createDirAll (Path.ofParts path)
      | .file text _ => IO.FS.writeFile (Path.ofParts path) text

/-- What is said of a command line that cannot be read. -/
def usage : String := "usage: soundworks \x7bprocess,batch,presets,check\x7d ..."

/-- Carries out a command line in the working directory. -/
def runProgram (args : List String) : IO UInt32 := do
  let directory := (← IO.currentDir).toString
  let tree ← readBelow directory depthLimit (FileTree.empty.makeDirectories {} directory).2
  match CommandLine.run { directory, environment := ← readEnvironment, tree } args with
  | .error (.stop .help) =>
    IO.println usage
    return 0
  | .error (.stop .usage) =>
    IO.eprintln usage
    return 2
  | .error (.variables e) =>
    IO.eprintln e.message
    return 1
  | .error (.result r) =>
    IO.eprintln r.headline
    return 1
  | .ok finish =>
    IO.print finish.output
    if finish.complaint ≠ "" then IO.eprintln finish.complaint
    writeBack tree finish.tree
    return UInt32.ofNat finish.code

end Soundworks

def main (args : List String) : IO UInt32 := Soundworks.runProgram args
