/-!
Decoding UTF-8. Bytes that form no character are kept as a piece of their own: the longest part
that could have become a character, and why it did not.
-/

namespace Soundworks.Utf8

/-- Why bytes form no character. -/
inductive Defect where
  | invalidStart
  | invalidContinuation
  | truncated
  deriving DecidableEq

def Defect.message : Defect → String
  | .invalidStart => "invalid start byte"
  | .invalidContinuation => "invalid continuation byte"
  | .truncated => "unexpected end of data"

/-- A piece of decoded bytes. -/
inductive Piece where
  | char (c : Char)
  | broken (bytes : List Nat) (why : Defect)
  deriving DecidableEq

/-- A character of which some bytes are missing: its value so far, its bytes with the last one
first, and the bounds of the next byte. -/
structure Unfinished where
  value : Nat
  bytes : List Nat
  missing : Nat
  least : Nat := 0x80
  most : Nat := 0xbf
  deriving DecidableEq

/-- The pieces that a byte completes, and what it leaves open. -/
abbrev Progress := List Piece × Option Unfinished

/-- The first byte of a character. The bounds of the second byte exclude longer forms than
needed, surrogates and numbers beyond the last character. -/
def start (b : Nat) : Progress :=
  if b < 0x80 then ([.char (Char.ofNat b)], none)
  else if b < 0xc2 then ([.broken [b] .invalidStart], none)
  else if b < 0xe0 then ([], some { value := b - 0xc0, bytes := [b], missing := 1 })
  else if b < 0xf0 then
    ([], some
      { value := b - 0xe0
        bytes := [b]
        missing := 2
        least := if b = 0xe0 then 0xa0 else 0x80
        most := if b = 0xed then 0x9f else 0xbf })
  else if b < 0xf5 then
    ([], some
      { value := b - 0xf0
        bytes := [b]
        missing := 3
        least := if b = 0xf0 then 0x90 else 0x80
        most := if b = 0xf4 then 0x8f else 0xbf })
  else ([.broken [b] .invalidStart], none)

/-- The next byte after what was left open. -/
def step (p : Option Unfinished) (b : Nat) : Progress :=
  match p with
  | none => start b
  | some p =>
    if p.least ≤ b ∧ b ≤ p.most then
      let value := 64 * p.value + (b - 0x80)
      if p.missing = 1 then ([.char (Char.ofNat value)], none)
      else ([], some { value, bytes := b :: p.bytes, missing := p.missing - 1 })
    else
      let (pieces, next) := start b
      (.broken p.bytes.reverse .invalidContinuation :: pieces, next)

/-- The pieces of bytes that follow what was left open. -/
def decodeAfter : Option Unfinished → List Nat → List Piece
  | none, [] => []
  | some p, [] => [.broken p.bytes.reverse .truncated]
  | p, b :: bs =>
    let (pieces, next) := step p b
    pieces ++ decodeAfter next bs

def decode (bytes : List Nat) : List Piece := decodeAfter none bytes

/-- A character for each piece; broken pieces become the replacement character. -/
def lossy (bytes : List Nat) : String :=
  String.ofList <| (decode bytes).map fun
    | .char c => c
    | .broken .. => '\ufffd'

/-- The first broken piece of a sequence of bytes. -/
structure Flaw where
  position : Nat
  bytes : List Nat
  why : Defect
  deriving DecidableEq

def Flaw.message (f : Flaw) : String :=
  let place :=
    match f.bytes with
    | [b] =>
      "byte 0x" ++ String.ofList (Nat.toDigits 16 b) ++ " in position " ++ toString f.position
    | bs => "bytes in position " ++ toString f.position ++ "-" ++
        toString (f.position + bs.length - 1)
  "'utf-8' codec can't decode " ++ place ++ ": " ++ f.why.message

/-- Joins pieces that are all characters; the first broken one is refused with its place. -/
def join : Nat → List Piece → Except Flaw (List Char)
  | _, [] => .ok []
  | position, .char c :: rest => (join (position + c.utf8Size) rest).map (c :: ·)
  | position, .broken bytes why :: _ => .error ⟨position, bytes, why⟩

/-- The text of a sequence of bytes, if all of them form characters. -/
def strict (bytes : List Nat) : Except Flaw String :=
  (join 0 (decode bytes)).map String.ofList

def encode (s : String) : List Nat := s.toUTF8.data.toList.map UInt8.toNat

end Soundworks.Utf8
