import WindowVm.Span

/-!
# Lines and tokens of an assembly text

An assembly text is a sequence of lines separated by line feeds. Within a line, tokens are the
maximal runs of characters other than the five separators space, tab, line feed, form feed and
carriage return; a vertical tab is not a separator. Offsets are counted in UTF-8 bytes, so every
token carries the byte span it occupies in the whole text. Separators are ASCII, so a token
never splits a character.
-/

namespace WindowVm.Assembly

/-- Space, tab, line feed, form feed and carriage return. -/
def isSeparator (c : Char) : Bool :=
  c == ' ' || c == '\t' || c == '\n' || c == '\x0C' || c == '\r'

/-- The number of UTF-8 bytes of a character list. -/
def byteLength (cs : List Char) : Nat := cs.foldr (fun c n => c.utf8Size + n) 0

/-- A maximal run of non-separators, with the byte offset of its first character. -/
structure Token where
  text : List Char
  start : Nat
deriving DecidableEq, Repr

/-- The byte range a token occupies. -/
def Token.span (t : Token) : Span := ⟨t.start, t.start + byteLength t.text⟩

/-- One line of the text, without its line feed, with the byte offset of its first character. -/
structure Line where
  start : Nat
  chars : List Char
deriving DecidableEq, Repr

/-- The byte offset just past the line: where its line feed stands, or the end of the text. -/
def Line.stop (l : Line) : Nat := l.start + byteLength l.chars

/-- Splits characters starting at byte offset `pos` into lines; `cur` holds the characters of
the line being read, in reverse, and `start` its offset. -/
def splitLines (start pos : Nat) (cur : List Char) : List Char → List Line
  | [] => [⟨start, cur.reverse⟩]
  | c :: cs =>
    if c == '\n' then ⟨start, cur.reverse⟩ :: splitLines (pos + 1) (pos + 1) [] cs
    else splitLines start (pos + c.utf8Size) (c :: cur) cs

/-- The lines of a text; a text with `n` line feeds has `n + 1` lines. -/
def lines (src : String) : List Line := splitLines 0 0 [] src.toList

/-- Splits the characters of a line, starting at byte offset `pos`, into tokens; `cur` is the
token being read, its characters in reverse. -/
def scanTokens (pos : Nat) (cur : Option Token) : List Char → List Token
  | [] => (cur.map fun t => { t with text := t.text.reverse }).toList
  | c :: cs =>
    if isSeparator c then
      (cur.map fun t => { t with text := t.text.reverse }).toList ++
        scanTokens (pos + c.utf8Size) none cs
    else
      match cur with
      | none => scanTokens (pos + c.utf8Size) (some ⟨[c], pos⟩) cs
      | some t => scanTokens (pos + c.utf8Size) (some { t with text := c :: t.text }) cs

/-- The tokens of a line, in order. -/
def Line.tokens (l : Line) : List Token := scanTokens l.start none l.chars

end WindowVm.Assembly
