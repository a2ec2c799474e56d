import Soundworks.Text.Printable
/-!
Quoted texts. `literal` writes a text between quotes with escapes for everything that is not
printable, as error messages show paths. `shellWord` writes one word of a shell command line.
-/

namespace Soundworks.Text

/-- The hexadecimal digits of a number, in at least `width` places. -/
def hex (width n : Nat) : List Char :=
  let ds := Nat.toDigits 16 n
  List.replicate (width - ds.length) '0' ++ ds

def escapeCode (n : Nat) : List Char :=
  if n < 0x100 then '\\' :: 'x' :: hex 2 n
  else if n < 0x10000 then '\\' :: 'u' :: hex 4 n
  else '\\' :: 'U' :: hex 8 n

def literalChar (quote c : Char) : List Char :=
  if c = quote ∨ c = '\\' then ['\\', c]
  else if c = '\n' then ['\\', 'n']
  else if c = '\r' then ['\\', 'r']
  else if c = '\t' then ['\\', 't']
  else if isPrintable c then [c]
  else escapeCode c.toNat

/-- A text between single quotes, or double quotes if it holds only single ones. -/
def literal (s : String) : String :=
  let cs := s.toList
  let quote := if '\'' ∈ cs ∧ '"' ∉ cs then '"' else '\''
  String.ofList (quote :: (cs.flatMap (literalChar quote) ++ [quote]))

def isShellSafe (c : Char) : Bool :=
  c.isAlphanum || c ∈ ['_', '@', '%', '+', '=', ':', ',', '.', '/', '-']

/-- One word of a command line; a single quote leaves the quotes and stands in double ones. -/
def shellWord (s : String) : String :=
  let cs := s.toList
  if cs = [] then "''"
  else if cs.all isShellSafe then s
  else
    String.ofList
      ('\'' :: (cs.flatMap fun c => if c = '\'' then "'\"'\"'".toList else [c]) ++ ['\''])

def shellLine (words : List String) : String :=
  " ".intercalate (words.map shellWord)

end Soundworks.Text
