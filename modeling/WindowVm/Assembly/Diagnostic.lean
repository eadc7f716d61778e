import WindowVm.Assembly.Error
import WindowVm.Assembly.Token

/-!
# Rendered diagnostics

A diagnostic names the error and its code, then, when the error has a span, the file, line and
column of the span's start, the source line, and a caret line under the span. Lines and columns
count from 1; columns count characters. A byte offset that falls inside a multi-byte character
has no prefix of its own, and the whole text is then taken as the prefix; an offset past the end
stops at the end.

The source lines are the text split at line feeds, without a last empty line after a final line
feed, each with its trailing carriage returns removed. The caret line has one space per
character before the column and at least one caret, at most as many as the span has bytes and
as the line has characters from the column on.
-/

namespace WindowVm.Assembly

/-- The characters before byte offset `k`, if `k` falls between two characters or at the end. -/
def prefixAt? : List Char → Nat → Option (List Char)
  | [], _ => some []
  | c :: cs, k =>
    if k = 0 then some []
    else if k < c.utf8Size then none
    else (prefixAt? cs (k - c.utf8Size)).map (c :: ·)

/-- The 1-based line and column of a byte offset. -/
def lineCol (src : String) (offset : Nat) : Nat × Nat :=
  let cs := src.toList
  let pre := (prefixAt? cs offset).getD cs
  let line := pre.count '\n' + 1
  let col := (pre.reverse.takeWhile (· != '\n')).length + 1
  (line, col)

/-- The lines of a text as a diagnostic shows them. -/
def sourceLines (src : String) : List (List Char) :=
  let segments := src.toList.splitOn '\n'
  let segments := if src.toList.getLast? == some '\n' || src.isEmpty then segments.dropLast
    else segments
  segments.map fun s => (s.reverse.dropWhile (· == '\r')).reverse

/-- `n` spaces. -/
def spaces (n : Nat) : String := String.ofList (List.replicate n ' ')

/-- The code as four digits, as in `E0003`. -/
def codeText (n : Nat) : String :=
  let d := toString n
  String.ofList (List.replicate (4 - d.length) '0') ++ d

/-- The diagnostic for an error in the text `src` of file `file`. -/
def render (file src : String) (e : Error) : String :=
  let head := "error[E" ++ codeText e.code ++ "]: " ++ e.message ++ "\n"
  match e.span? with
  | none => head
  | some span =>
    let (line, col) := lineCol src span.start
    let place := " --> " ++ file ++ ":" ++ toString line ++ ":" ++ toString col ++ "\n"
    match (sourceLines src)[line - 1]? with
    | none => head ++ place
    | some text =>
      let gutter := spaces (toString line).length
      let room := text.length - (col - 1)
      let carets := String.ofList (List.replicate (max 1 (min span.len room)) '^')
      head ++ place ++ gutter ++ " |\n" ++ toString line ++ " | " ++ String.ofList text ++ "\n" ++
        gutter ++ " | " ++ spaces (col - 1) ++ carets ++ "\n"

end WindowVm.Assembly
