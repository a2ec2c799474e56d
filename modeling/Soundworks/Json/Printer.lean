import Soundworks.Json.Value
import Soundworks.Text.Quoted
/-!
Writing JSON text in ASCII, on one line or indented. Floating-point numbers are written in
their shortest form; the ones without a value have the words that `Json.read?` accepts.
-/

namespace Soundworks.Json

def unitEscapes (n : Nat) : List Char :=
  if n < 0x10000 then '\\' :: 'u' :: Text.hex 4 n
  else
    let high := 0xd800 + (n - 0x10000) / 0x400
    let low := 0xdc00 + (n - 0x10000) % 0x400
    '\\' :: 'u' :: (Text.hex 4 high ++ '\\' :: 'u' :: Text.hex 4 low)

def stringChar (c : Char) : List Char :=
  if c = '"' then ['\\', '"']
  else if c = '\\' then ['\\', '\\']
  else if c = '\n' then ['\\', 'n']
  else if c = '\r' then ['\\', 'r']
  else if c = '\t' then ['\\', 't']
  else if c = '\x08' then ['\\', 'b']
  else if c = '\x0c' then ['\\', 'f']
  else if 0x20 ≤ c.toNat ∧ c.toNat < 0x7f then [c]
  else unitEscapes c.toNat

def quote (s : String) : String :=
  String.ofList ('"' :: (s.toList.flatMap stringChar ++ ['"']))

/-- A number, in digits or as a word. -/
def numberText (x : Binary64) : String :=
  match x with
  | .nan => "NaN"
  | .infinite s => if s then "-Infinity" else "Infinity"
  | x => x.text

/-- The marks between the parts of a document. -/
structure Style where
  /-- What opens a line at a level of nesting. -/
  line : Nat → String
  comma : String
  colon : String

/-- Everything on one line, without spaces. -/
def Style.compact : Style := ⟨fun _ => "", ",", ":"⟩

/-- One item a line, each level indented by the given count of spaces. -/
def Style.indented (width : Nat) : Style :=
  ⟨fun level => "\n" ++ String.ofList (List.replicate (width * level) ' '), ",", ": "⟩

mutual

def Style.value (st : Style) (level : Nat) : Value → String
  | .null => "null"
  | .bool b => if b then "true" else "false"
  | .integer n => String.ofList (Binary64.integerChars n)
  | .number x => numberText x
  | .text s => quote s
  | .list [] => "[]"
  | .list (v :: vs) =>
    "[" ++ st.line (level + 1) ++ st.value (level + 1) v ++ st.items (level + 1) vs
      ++ st.line level ++ "]"
  | .object [] => "\x7b\x7d"
  | .object ((k, v) :: fs) =>
    "\x7b" ++ st.line (level + 1) ++ quote k ++ st.colon ++ st.value (level + 1) v
      ++ st.fields (level + 1) fs ++ st.line level ++ "\x7d"

def Style.items (st : Style) (level : Nat) : List Value → String
  | [] => ""
  | v :: vs => st.comma ++ st.line level ++ st.value level v ++ st.items level vs

def Style.fields (st : Style) (level : Nat) : List (String × Value) → String
  | [] => ""
  | (k, v) :: fs =>
    st.comma ++ st.line level ++ quote k ++ st.colon ++ st.value level v ++ st.fields level fs

end

def compact (v : Value) : String := Style.compact.value 0 v

def pretty (v : Value) : String := (Style.indented 2).value 0 v

end Soundworks.Json
