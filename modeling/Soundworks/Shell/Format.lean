import Soundworks.Text.Utf8
/-!
What the commands `echo` and `printf` write. Escapes stand for bytes, so that a text may be
written that is not valid in any encoding.
-/

namespace Soundworks.Shell.Format

def isOctal (b : Nat) : Bool := 0x30 ≤ b && b ≤ 0x37

/-- The byte that a letter behind a backslash stands for. -/
def escapeByte? (b : Nat) : Option Nat :=
  match Char.ofNat b with
  | 'a' => some 7
  | 'b' => some 8
  | 'f' => some 12
  | 'n' => some 10
  | 'r' => some 13
  | 't' => some 9
  | 'v' => some 11
  | '\\' => some 0x5c
  | _ => none

/-- The value of octal digits, as a byte. -/
def octalByte (digits : List Nat) : Nat := (digits.foldl (fun n d => 8 * n + (d - 0x30)) 0) % 256

/-- Replaces the escapes of a text, and tells whether it goes on after the escape `c`, which
ends all output. Up to three octal digits may follow a zero. -/
def unescape : List Nat → List Nat × Bool
  | 0x5c :: b :: bs =>
    if b = 0x63 then ([], false)
    else
      let digits := if b = 0x30 ∧ bs.head?.any isOctal then bs else b :: bs
      let octal := (digits.take 3).takeWhile isOctal
      if octal ≠ [] then
        let (rest, more) := unescape (digits.drop octal.length)
        (octalByte octal :: rest, more)
      else
        match escapeByte? b with
        | some e =>
          let (rest, more) := unescape bs
          (e :: rest, more)
        | none =>
          let (rest, more) := unescape (b :: bs)
          (0x5c :: rest, more)
  | b :: bs =>
    let (rest, more) := unescape bs
    (b :: rest, more)
  | [] => ([], true)
termination_by bs => bs.length
decreasing_by all_goals grind

def echo (args : List String) : List Nat :=
  let (words, line) :=
    match args with
    | "-n" :: rest => (rest, [])
    | args => (args, [0x0a])
  let (bytes, more) := unescape (Utf8.encode (" ".intercalate words))
  if more then bytes ++ line else bytes

/-- How a value is laid out. -/
structure Layout where
  left : Bool := false
  zeros : Bool := false
  sign : List Nat := []
  width : Nat := 0
  precision : Option Nat := none

def readFlags (l : Layout) : List Nat → Layout × List Nat
  | 0x2d :: bs => readFlags { l with left := true } bs
  | 0x30 :: bs => readFlags { l with zeros := true } bs
  | 0x2b :: bs => readFlags { l with sign := [0x2b] } bs
  | 0x20 :: bs => readFlags { l with sign := if l.sign = [] then [0x20] else l.sign } bs
  | bs => (l, bs)

def isDigit (b : Nat) : Bool := 0x30 ≤ b && b ≤ 0x39

def decimal (digits : List Nat) : Nat := digits.foldl (fun n d => 10 * n + (d - 0x30)) 0

def readLayout (bs : List Nat) : Layout × List Nat :=
  let (l, bs) := readFlags {} bs
  let l := { l with width := decimal (bs.takeWhile isDigit) }
  match bs.dropWhile isDigit with
  | 0x2e :: bs =>
    ({ l with precision := some (decimal (bs.takeWhile isDigit)) }, bs.dropWhile isDigit)
  | bs => (l, bs)

def repeated (n : Nat) (b : Nat) : List Nat := List.replicate n b

def Layout.fill (l : Layout) (bs : List Nat) : List Nat :=
  let gap := repeated (l.width - bs.length) 0x20
  if l.left then bs ++ gap else gap ++ bs

def Layout.integer (l : Layout) (base : Nat) (upper : Bool) (n : Int) : List Nat :=
  let digits := (Nat.toDigits base n.natAbs).map fun c => (if upper then c.toUpper else c).toNat
  let sign := if n < 0 then [0x2d] else l.sign
  match l.precision with
  | some p => l.fill (sign ++ repeated (p - digits.length) 0x30 ++ digits)
  | none =>
    if l.zeros ∧ !l.left then
      sign ++ repeated (l.width - sign.length - digits.length) 0x30 ++ digits
    else l.fill (sign ++ digits)

/-- A text, cut to its precision. -/
def Layout.text (l : Layout) (bs : List Nat) : List Nat :=
  l.fill (l.precision.elim bs fun p => bs.take p)

/-- The integer of an argument, if it is one; nothing stands for zero. -/
def integerOf? (arg : String) : Option Int :=
  match arg.toList with
  | [] => some 0
  | ['\'', c] | ['"', c] => some c.toNat
  | '+' :: cs => (String.ofList cs).toNat?.map Int.ofNat
  | _ => arg.toInt?

/-- What was written: the bytes, the arguments that are left, those that should have been
integers, and whether output goes on. -/
structure Written where
  bytes : List Nat := []
  rest : List String
  refused : List String := []
  more : Bool := true

def Written.after (bs : List Nat) (w : Written) : Written := { w with bytes := bs ++ w.bytes }

def once : Nat → List Nat → List String → Written
  | 0, _, args => { rest := args }
  | _, [], args => { rest := args }
  | fuel + 1, b :: bs, args =>
    if b ≠ 0x25 then (once fuel bs args).after [b]
    else
      let (l, bs) := readLayout bs
      let arg := args.headD ""
      let number := fun (base : Nat) (upper : Bool) (bs : List Nat) =>
        let w := once fuel bs args.tail
        let w := if (integerOf? arg).isSome then w else { w with refused := arg :: w.refused }
        w.after (l.integer base upper ((integerOf? arg).getD 0))
      match bs with
      | [] => { bytes := [0x25], rest := args }
      | kind :: bs =>
        match Char.ofNat kind with
        | '%' => (once fuel bs args).after [0x25]
        | 's' => (once fuel bs args.tail).after (l.text (Utf8.encode arg))
        | 'c' => (once fuel bs args.tail).after (l.text ((Utf8.encode arg).take 1))
        | 'b' =>
          let (bytes, more) := unescape (Utf8.encode arg)
          if more then (once fuel bs args.tail).after (l.text bytes)
          else { bytes := l.text bytes, rest := [], more := false }
        | 'd' | 'i' | 'u' => number 10 false bs
        | 'o' => number 8 false bs
        | 'x' => number 16 false bs
        | 'X' => number 16 true bs
        | _ => { bytes := [], rest := [], more := false }

def again : Nat → List Nat → List String → Written
  | 0, _, args => { rest := args }
  | fuel + 1, format, args =>
    let w := once (format.length + 1) format args
    if w.more ∧ w.rest ≠ [] ∧ w.rest.length < args.length then
      let next := again fuel format w.rest
      { next with bytes := w.bytes ++ next.bytes, refused := w.refused ++ next.refused }
    else w

def printf (format : String) (args : List String) : Written :=
  let (bytes, more) := unescape (Utf8.encode format)
  let w := again (args.length + 1) bytes args
  { w with more := w.more && more }

end Soundworks.Shell.Format
