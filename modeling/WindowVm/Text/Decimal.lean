import WindowVm.Word

/-!
# Exact decimal text of a double

A finite double is `m · 2^e` for naturals `m` and an integer `e`, and every such number has a
finite decimal expansion: `m · 2^e` itself when `e ≥ 0`, and `m · 5^k / 10^k` with `k = -e`
otherwise. `dyadicText` writes that expansion in full, with a point and at least one digit after
it, so the text reads back as the same double in any correctly rounding reader and is always
read as a floating-point number, `0.0` and integral values included.
-/

namespace WindowVm.Text

/-- The digits of `n`, padded on the left with zeros to at least `width` digits. -/
def padDigits (width n : Nat) : String :=
  let d := toString n
  String.ofList (List.replicate (width - d.length) '0') ++ d

/-- The exact decimal text of `m · 2^e`, with at least one digit after the point. -/
def dyadicText (m : Nat) (e : Int) : String :=
  if 0 ≤ e then
    toString (m * Nat.pow 2 e.toNat) ++ ".0"
  else
    let k := (-e).toNat
    let digits := (padDigits (k + 1) (m * Nat.pow 5 k)).toList
    let whole := digits.take (digits.length - k)
    let frac := (digits.drop (digits.length - k)).reverse.dropWhile (· == '0') |>.reverse
    String.ofList whole ++ "." ++ (if frac.isEmpty then "0" else String.ofList frac)

end WindowVm.Text

namespace WindowVm.Word

/-- The exact decimal text of the double with the word's bits; `none` for an infinity or a NaN. -/
def doubleText? (w : Word) : Option String :=
  let n := w.toNat
  let sign := if n / 9223372036854775808 = 1 then "-" else ""
  let biased : Nat := n / 4503599627370496 % 2048
  let frac := n % 4503599627370496
  if biased = 2048 - 1 then none
  else if biased = 0 then some (sign ++ Text.dyadicText frac (-1074))
  else some (sign ++ Text.dyadicText (frac + 4503599627370496) ((biased : Int) - 1075))

end WindowVm.Word
