-- SUMMARY: Tokens of JSON text: their written form, and scanning a text into them.
import FeatureStore.Numeric.Hexadecimal

/-!
# Tokens of JSON text

A token carries what was written, not what it means. A numeral keeps its digits,
and a string keeps each `\u` escape as the sixteen-bit unit it names, because
neither need have a meaning: `1e400` is out of range and a lone surrogate is no
character, yet both are well-formed and may stand in a part of a text that
nobody reads.

`Token.render` writes a token in its plain form, and `Token.scan` reads a text
into tokens one character at a time.
-/

namespace FeatureStore

namespace Json

/-- A piece of a written string: a character, or the unit of a `\u` escape. -/
inductive Piece
  | char (c : Char)
  | unit (value : Nat)
deriving DecidableEq, Repr, Inhabited

/-- A number as written. The fraction is empty when no point is written. The
    exponent is its sign, set for a minus, and its digits. -/
structure Numeral where
  negative : Bool := false
  whole : List Char := []
  fraction : List Char := []
  exponent : Option (Bool × List Char) := none
deriving DecidableEq, Repr, Inhabited

inductive Token
  | openArray
  | closeArray
  | openObject
  | closeObject
  | comma
  | colon
  | null
  | bool (b : Bool)
  | numeral (n : Numeral)
  | string (pieces : List Piece)
deriving DecidableEq, Repr, Inhabited

/-! ## Written form -/

/-- Only the quote, the backslash and the control characters below U+0020 are
    escaped, five of them by a letter. -/
def Piece.render : Piece → List Char
  | .unit value => '\\' :: 'u' :: Hexadecimal.digits 4 value
  | .char c =>
    if c = '"' then ['\\', '"']
    else if c = '\\' then ['\\', '\\']
    else if c = '\x08' then ['\\', 'b']
    else if c = '\t' then ['\\', 't']
    else if c = '\n' then ['\\', 'n']
    else if c = '\x0c' then ['\\', 'f']
    else if c = '\r' then ['\\', 'r']
    else if c.toNat < 32 then '\\' :: 'u' :: Hexadecimal.digits 4 c.toNat
    else [c]

/-- A numeral with its sign, point and mark. The exponent always shows a sign. -/
def Numeral.render (n : Numeral) : List Char :=
  let sign := if n.negative then ['-'] else []
  let fraction := if n.fraction = [] then [] else '.' :: n.fraction
  let exponent :=
    match n.exponent with
    | none => []
    | some (negative, digits) => 'e' :: (if negative then '-' else '+') :: digits
  sign ++ n.whole ++ fraction ++ exponent

/-- The plain form of a token. -/
def Token.render : Token → List Char
  | .openArray => ['[']
  | .closeArray => [']']
  | .openObject => ['\x7b']
  | .closeObject => ['\x7d']
  | .comma => [',']
  | .colon => [':']
  | .null => ['n', 'u', 'l', 'l']
  | .bool true => ['t', 'r', 'u', 'e']
  | .bool false => ['f', 'a', 'l', 's', 'e']
  | .numeral n => n.render
  | .string pieces => '"' :: (pieces.flatMap Piece.render ++ ['"'])

/-! ## Scanning -/

/-- How much of a numeral has been read. A numeral may end after `zero`, `whole`,
    `fraction` and `exponent`. -/
inductive NumeralPhase
  | minus
  | zero
  | whole
  | point
  | fraction
  | mark
  | markSign
  | exponent
deriving DecidableEq, Repr

/-- Whether a numeral is complete after this phase. -/
def NumeralPhase.isComplete : NumeralPhase → Bool
  | .zero | .whole | .fraction | .exponent => true
  | .minus | .point | .mark | .markSign => false

/-- Add a digit to the exponent. -/
def Numeral.pushExponent (n : Numeral) (c : Char) : Numeral :=
  { n with exponent := n.exponent.map (fun e => (e.1, e.2 ++ [c])) }

/-- Read one more character of a numeral, if it can belong to it. A leading zero
    is followed by no other whole digit. -/
def Numeral.push (n : Numeral) (phase : NumeralPhase) (c : Char) :
    Option (NumeralPhase × Numeral) :=
  let point := (NumeralPhase.point, n)
  let mark := (NumeralPhase.mark, { n with exponent := some (false, []) })
  let wholeDigit := { n with whole := n.whole ++ [c] }
  let isMark := c = 'e' ∨ c = 'E'
  match phase with
  | .minus =>
    if c = '0' then some (.zero, wholeDigit)
    else if c.isDigit then some (.whole, wholeDigit)
    else none
  | .zero =>
    if c = '.' then some point
    else if isMark then some mark
    else none
  | .whole =>
    if c.isDigit then some (.whole, wholeDigit)
    else if c = '.' then some point
    else if isMark then some mark
    else none
  | .point =>
    if c.isDigit then some (.fraction, { n with fraction := n.fraction ++ [c] }) else none
  | .fraction =>
    if c.isDigit then some (.fraction, { n with fraction := n.fraction ++ [c] })
    else if isMark then some mark
    else none
  | .mark =>
    if c = '+' then some (.markSign, n)
    else if c = '-' then some (.markSign, { n with exponent := some (true, []) })
    else if c.isDigit then some (.exponent, n.pushExponent c)
    else none
  | .markSign | .exponent =>
    if c.isDigit then some (.exponent, n.pushExponent c) else none

/-- What has been read of the token at hand. The pieces of a string are in reverse. -/
inductive Scan
  | between
  | word (letters : List Char) (token : Token)
  | numeral (phase : NumeralPhase) (n : Numeral)
  | text (pieces : List Piece)
  | escape (pieces : List Piece)
  | unit (pieces : List Piece) (count value : Nat)
deriving DecidableEq, Repr

/-- The character that an escape letter stands for. -/
def escaped? (c : Char) : Option Char :=
  if c = '"' ∨ c = '\\' ∨ c = '/' then some c
  else if c = 'b' then some '\x08'
  else if c = 'f' then some '\x0c'
  else if c = 'n' then some '\n'
  else if c = 'r' then some '\r'
  else if c = 't' then some '\t'
  else none

/-- JSON knows four blanks. -/
def isBlank (c : Char) : Bool := c = ' ' || c = '\n' || c = '\t' || c = '\r'

/-- The first character of a token, or a blank. -/
def Scan.start (c : Char) : Option (Scan × List Token) :=
  if isBlank c then some (.between, [])
  else if c = '[' then some (.between, [.openArray])
  else if c = ']' then some (.between, [.closeArray])
  else if c = '\x7b' then some (.between, [.openObject])
  else if c = '\x7d' then some (.between, [.closeObject])
  else if c = ',' then some (.between, [.comma])
  else if c = ':' then some (.between, [.colon])
  else if c = 'n' then some (.word ['u', 'l', 'l'] .null, [])
  else if c = 't' then some (.word ['r', 'u', 'e'] (.bool true), [])
  else if c = 'f' then some (.word ['a', 'l', 's', 'e'] (.bool false), [])
  else if c = '"' then some (.text [], [])
  else if c = '-' then some (.numeral .minus { negative := true }, [])
  else (Numeral.push {} .minus c).map (fun (phase, n) => (.numeral phase n, []))

/-- Read one more character: the new state and the tokens completed. -/
def Scan.next : Scan → Char → Option (Scan × List Token)
  | .between, c => start c
  | .word [] _, _ => none
  | .word [letter] token, c => if c = letter then some (.between, [token]) else none
  | .word (letter :: letters) token, c =>
    if c = letter then some (.word letters token, []) else none
  | .numeral phase n, c =>
    match n.push phase c with
    | some (phase, n) => some (.numeral phase n, [])
    | none =>
      if phase.isComplete then (start c).map (fun (scan, tokens) => (scan, .numeral n :: tokens))
      else none
  | .text pieces, c =>
    if c = '"' then some (.between, [.string pieces.reverse])
    else if c = '\\' then some (.escape pieces, [])
    else if c.toNat < 32 then none
    else some (.text (.char c :: pieces), [])
  | .escape pieces, c =>
    if c = 'u' then some (.unit pieces 0 0, [])
    else (escaped? c).map (fun e => (.text (.char e :: pieces), []))
  | .unit pieces count value, c =>
    (Hexadecimal.digitValue? c).map (fun digit =>
      let value := value * 16 + digit
      if count < 3 then (.unit pieces (count + 1) value, [])
      else (.text (.unit value :: pieces), []))

/-- The tokens completed by the end of the text, unless it cuts a token off. -/
def Scan.finish : Scan → Option (List Token)
  | .between => some []
  | .numeral phase n => if phase.isComplete then some [.numeral n] else none
  | .word .. | .text _ | .escape _ | .unit .. => none

/-- The tokens of the rest of a text. -/
def Scan.run : Scan → List Char → Option (List Token)
  | scan, [] => scan.finish
  | scan, c :: rest =>
    match scan.next c with
    | none => none
    | some (scan, tokens) => (scan.run rest).map (tokens ++ ·)

/-- The tokens of a text, or nothing when some part of it is no token. -/
def Token.scan (text : List Char) : Option (List Token) := Scan.run .between text

end Json

end FeatureStore
