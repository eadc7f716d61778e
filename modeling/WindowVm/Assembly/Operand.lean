import WindowVm.Word

/-!
# Operand words

The forms a token can take as an operand. An integer is an optional sign and one or more decimal
digits, leading zeros allowed, whose value lies in the signed 64-bit range; a byteword is such an
integer in `0 .. 65535`. A symbol name is a non-empty run of ASCII letters, digits and
underscores that does not start with a digit. A mnemonic is one to eight ASCII letters.
-/

namespace WindowVm.Assembly

/-- The value of a list of decimal digits. -/
def digitsValue (ds : List Char) : Nat :=
  ds.foldl (fun n d => 10 * n + (d.toNat - '0'.toNat)) 0

/-- The sign and the digits of a numeral: at most one leading `+` or `-` is taken off. -/
def splitSign : List Char → Bool × List Char
  | '-' :: ds => (true, ds)
  | '+' :: ds => (false, ds)
  | ds => (false, ds)

/-- Reads `[+-]?[0-9]+` as an integer in `-2^63 .. 2^63 - 1`. -/
def parseInteger (t : List Char) : Option Int :=
  let (neg, ds) := splitSign t
  if ds.isEmpty || !ds.all Char.isDigit then none
  else
    let v : Int := if neg then -(digitsValue ds : Int) else digitsValue ds
    if -9223372036854775808 ≤ v ∧ v < 9223372036854775808 then some v else none

/-- Reads an integer in `0 .. 65535`, the range of a byteword. -/
def parseHalf (t : List Char) : Option Byteword :=
  match parseInteger t with
  | some v => if 0 ≤ v ∧ v < 65536 then some (UInt16.ofNat v.toNat) else none
  | none => none

/-- A symbol name: ASCII letters, digits and `_`, non-empty, not starting with a digit. -/
def isName : List Char → Bool
  | [] => false
  | c :: cs => !c.isDigit && (c :: cs).all fun d => d.isAlphanum || d == '_'

/-- A mnemonic: one to eight ASCII letters. -/
def isMnemonic (t : List Char) : Bool :=
  0 < t.length && t.length ≤ 8 && t.all Char.isAlpha

end WindowVm.Assembly
