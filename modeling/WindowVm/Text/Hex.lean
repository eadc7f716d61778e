/-!
# Hexadecimal text

Lowercase hexadecimal numerals with the `0x` mark, as register values, exit codes and tags are
shown. `hexPadded w n` pads with zeros after the mark so that the whole text, mark included, is
at least `w` characters long.
-/

namespace WindowVm.Text

/-- Lowercase hexadecimal digits of `n`, with no mark and no leading zeros (`0` for zero). -/
def hexDigits (n : Nat) : String :=
  String.ofList (Nat.toDigits 16 n)

/-- `0x` followed by the lowercase hexadecimal digits of `n`. -/
def hex (n : Nat) : String :=
  "0x" ++ hexDigits n

/-- `0x` and the digits of `n`, zero-padded so that the text has at least `width` characters. -/
def hexPadded (width n : Nat) : String :=
  let digits := hexDigits n
  "0x" ++ String.ofList (List.replicate (width - 2 - digits.length) '0') ++ digits

end WindowVm.Text
