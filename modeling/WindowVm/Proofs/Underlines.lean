import WindowVm.Assembly.Diagnostic
import WindowVm.Proofs.Diagnostics
import WindowVm.Proofs.Assembler

/-!
# Where a diagnostic underlines

A byte offset that falls between two characters of a text cuts it into the lines above, the line
that holds the offset, split there, and the lines below (`LineAround`). The line and column that
a diagnostic gives for the offset count the line feeds above it and the characters before it on
its line (`lineCol_of_lineAround`), and the line it prints is that line without its trailing
carriage returns (`sourceLines_of_lineAround`).

Main statement (`assemble_error_render`): the diagnostic of a failed assembly whose span starts on
a printed line shows that line, and under it as many spaces as characters stand before the span
on the line, then the carets. The span's characters all lie on that line from the column on;
the carets number at least one, at most as many as the span has bytes and as the printed line
has characters from the column on. So a span of one-byte characters gets one caret per character,
or one caret when it is empty; a span of multi-byte characters gets one caret per byte as far as
the line has room (`accentedMnemonic_carets`).
-/

namespace WindowVm.Assembly

/-- The text `src` around byte offset `k`: the lines above, each ended by its line feed; the line
that holds the offset, cut there into `before` and `after`; and the rest of the text, from the
line feed that ends that line on. -/
structure LineAround (src : List Char) (k : Nat) where
  above : List Char
  before : List Char
  after : List Char
  below : List Char
  split : src = above ++ before ++ after ++ below
  offset : String.utf8Len (above ++ before) = k
  above_ends : ∀ c ∈ above.getLast?, c = '\n'
  before_inline : '\n' ∉ before
  after_inline : '\n' ∉ after
  below_starts : ∀ c ∈ below.head?, c = '\n'

/-- The first element of what `dropWhile` leaves fails the test. -/
theorem head?_dropWhile_eq_false {p : Char → Bool} {l : List Char} {c : Char}
    (h : c ∈ (l.dropWhile p).head?) : p c = false := by
  have := List.head?_dropWhile_not p l
  rw [Option.mem_def.mp h] at this
  exact this

/-- A cut of the text into `pre` and `post` gives the line around the offset at which `pre`
ends. -/
def LineAround.ofSplit {src : List Char} {k : Nat} (pre post : List Char) (h : src = pre ++ post)
    (hk : String.utf8Len pre = k) : LineAround src k where
  above := (pre.reverse.dropWhile (· != '\n')).reverse
  before := (pre.reverse.takeWhile (· != '\n')).reverse
  after := post.takeWhile (· != '\n')
  below := post.dropWhile (· != '\n')
  split := by
    rw [h, List.append_assoc _ _ (post.dropWhile _), List.takeWhile_append_dropWhile,
      ← List.reverse_append, List.takeWhile_append_dropWhile, List.reverse_reverse]
  offset := by
    rw [← List.reverse_append, List.takeWhile_append_dropWhile, List.reverse_reverse, hk]
  above_ends c hc := by
    rw [List.getLast?_reverse] at hc
    simpa using head?_dropWhile_eq_false hc
  before_inline hc := by
    simpa using List.mem_takeWhile_imp (List.mem_reverse.mp hc)
  after_inline hc := by
    simpa using List.mem_takeWhile_imp hc
  below_starts c hc := by
    simpa using head?_dropWhile_eq_false hc

/-- Splitting at a separator gives one piece more than there are separators. -/
theorem length_splitOn (xs : List Char) (a : Char) : (xs.splitOn a).length = xs.count a + 1 := by
  induction xs with
  | nil => simp
  | cons x xs ih =>
    rw [List.splitOn_cons_eq_if_modifyHead, List.count_cons]
    by_cases hx : x = a
    · simp [hx, ih]
    · simp [hx, ih, List.length_modifyHead]

namespace LineAround

variable {src : List Char} {k : Nat} (l : LineAround src k)

/-- No character of the line before the offset is a line feed: reading back from the offset, the
line runs to the line feed that ends the lines above. -/
theorem takeWhile_reverse :
    (l.above ++ l.before).reverse.takeWhile (· != '\n') = l.before.reverse := by
  have hnot : ∀ c ∈ l.before.reverse, (c != '\n') = true := fun c hc => by
    have hne : c ≠ '\n' := fun h => l.before_inline (h ▸ List.mem_reverse.mp hc)
    simpa using hne
  rw [List.reverse_append, List.takeWhile_append_of_pos hnot]
  rcases h : l.above.reverse with _ | ⟨c, rest⟩
  · simp
  · have hc : c = '\n' := l.above_ends c (by rw [Option.mem_def, ← List.head?_reverse, h]; rfl)
    simp [hc]

theorem count_above_before : (l.above ++ l.before).count '\n' = l.above.count '\n' := by
  rw [List.count_append, List.count_eq_zero.mpr l.before_inline, Nat.add_zero]

/-- Splitting the text at line feeds, the line that holds the offset comes after as many pieces
as the lines above have line feeds. -/
theorem splitOn_getElem? :
    (src.splitOn '\n')[l.above.count '\n']? = some (l.before ++ l.after) := by
  obtain ⟨above, before, after, below, rfl, -, habove, hbefore, hafter, hbelow⟩ := l
  dsimp only
  have hline : '\n' ∉ before ++ after := by simpa using ⟨hbefore, hafter⟩
  obtain ⟨rest, hrest⟩ : ∃ rest, (before ++ after ++ below).splitOn '\n' =
      (before ++ after) :: rest := by
    rcases below with _ | ⟨c, below⟩
    · exact ⟨[], by simp [List.splitOn_eq_singleton hline]⟩
    · obtain rfl : c = '\n' := hbelow c rfl
      exact ⟨_, List.splitOn_append_cons_self_of_not_mem hline below⟩
  rw [List.append_assoc above, List.append_assoc above]
  rcases above.eq_nil_or_concat with rfl | ⟨above, c, rfl⟩
  · simp [← List.append_assoc, hrest]
  · obtain rfl : c = '\n' := habove c (by simp)
    rw [List.concat_eq_append, List.append_assoc, List.singleton_append,
      List.splitOn_append_cons_self, hrest,
      List.getElem?_append_right (by rw [length_splitOn]; simp)]
    simp [length_splitOn]

end LineAround

/-! ### Line, column and printed line -/

/-- At the byte length of a prefix of the text, the characters before the offset are that
prefix. -/
theorem prefixAt?_append (pre post : List Char) :
    prefixAt? (pre ++ post) (String.utf8Len pre) = some pre := by
  induction pre with
  | nil => cases post <;> rfl
  | cons c cs ih =>
    have hpos := c.utf8Size_pos
    rw [List.cons_append, prefixAt?, String.utf8Len_cons, if_neg (by omega), if_neg (by omega),
      Nat.add_sub_cancel, ih]
    rfl

/-- The line of an offset counts the line feeds above it, its column the characters before it
on its line. -/
theorem lineCol_of_lineAround {src : String} {k : Nat} (l : LineAround src.toList k) :
    lineCol src k = (l.above.count '\n' + 1, l.before.length + 1) := by
  have hpre := prefixAt?_append (l.above ++ l.before) (l.after ++ l.below)
  rw [l.offset, ← List.append_assoc, ← l.split] at hpre
  simp only [lineCol, hpre, Option.getD_some, l.count_above_before, l.takeWhile_reverse,
    List.length_reverse]

/-- The line a diagnostic prints for the offset is the line that holds it, without its trailing
carriage returns. -/
theorem sourceLines_of_lineAround {src : String} {k : Nat} (l : LineAround src.toList k)
    {text : List Char} (h : (sourceLines src)[l.above.count '\n']? = some text) :
    text = ((l.before ++ l.after).reverse.dropWhile (· == '\r')).reverse := by
  have hline := l.splitOn_getElem?
  unfold sourceLines at h
  dsimp only at h
  split at h
  · rw [List.getElem?_map, List.getElem?_dropLast] at h
    split at h
    · rw [hline] at h
      simpa using h.symm
    · simp at h
  · rw [List.getElem?_map, hline] at h
    simpa using h.symm

/-! ### The caret line -/

/-- Dropping a run from the front of `a ++ c :: b`, where `c` stops the run, leaves `c :: b`
at least. -/
theorem length_dropWhile_append_cons {p : Char → Bool} {c : Char} (hc : p c = false)
    (a b : List Char) : b.length + 1 ≤ ((a ++ c :: b).dropWhile p).length := by
  induction a with
  | nil => simp [hc]
  | cons x a ih =>
    rw [List.cons_append, List.dropWhile_cons]
    split
    · exact ih
    · simp only [List.length_cons, List.length_append]
      omega

/-- Cutting the trailing carriage returns of `xs ++ w ++ ys` keeps `xs ++ w` when `w` holds no
carriage return. -/
theorem length_le_trimmed {xs w ys : List Char} (hw : ∀ c ∈ w, c ≠ '\r') :
    w.length ≤ ((xs ++ w ++ ys).reverse.dropWhile (· == '\r')).reverse.length - xs.length := by
  rcases w.eq_nil_or_concat with rfl | ⟨w, c, rfl⟩
  · simp
  · have hc : (c == '\r') = false := by simpa using hw c (by simp)
    have := length_dropWhile_append_cons (p := (· == '\r')) hc ys.reverse (w.reverse ++ xs.reverse)
    simp only [List.concat_eq_append, List.append_assoc, List.reverse_append,
      List.reverse_cons, List.nil_append, List.cons_append] at this ⊢
    simp only [List.length_reverse, List.length_append, List.length_reverse,
      List.length_singleton] at this ⊢
    omega

theorem length_le_utf8Len (cs : List Char) : cs.length ≤ String.utf8Len cs := by
  induction cs with
  | nil => rfl
  | cons c cs ih =>
    have := c.utf8Size_pos
    rw [List.length_cons, String.utf8Len_cons]
    omega

theorem utf8Len_eq_length {cs : List Char} (h : ∀ c ∈ cs, c.utf8Size = 1) :
    String.utf8Len cs = cs.length := by
  induction cs with
  | nil => rfl
  | cons c cs ih =>
    rw [List.length_cons, String.utf8Len_cons, h c (by simp), ih fun d hd => h d (by simp [hd])]

/-- Carets under a span of characters `w`, at most one per byte and per character of room on
the line, are at least one per character when the line has room for `w`, and exactly that when
every character of `w` is one byte. -/
theorem carets_of_fits {w : List Char} {room : Nat} (hroom : w.length ≤ room) :
    max 1 w.length ≤ max 1 (min (String.utf8Len w) room) ∧
      ((∀ c ∈ w, c.utf8Size = 1) → max 1 (min (String.utf8Len w) room) = max 1 w.length) := by
  have hbytes := length_le_utf8Len w
  refine ⟨by omega, fun hascii => ?_⟩
  rw [utf8Len_eq_length hascii, Nat.min_eq_left hroom]

/-- No separator is a line feed or a carriage return. -/
theorem ne_of_isSeparator_eq_false {c : Char} (h : isSeparator c = false) :
    c ≠ '\n' ∧ c ≠ '\r' := by
  constructor <;> rintro rfl <;> simp [isSeparator] at h

/-- A token covers characters from the span's start on, as many bytes as the span has, none of
them a separator. -/
theorem TokenAt.covers {src : List Char} {sp : Span} {w : List Char} (h : TokenAt src sp w) :
    ∃ pre post, src = pre ++ w ++ post ∧ String.utf8Len pre = sp.start ∧
      String.utf8Len w = sp.len ∧ ∀ c ∈ w, isSeparator c = false := by
  obtain ⟨⟨pre, post, hsrc, hpre, -, -⟩, hstop, -, hsep⟩ := h
  exact ⟨pre, post, hsrc, hpre, by simp only [Span.len]; omega, hsep⟩

/-- The span of a placed error covers characters of the text, none of them a separator: a whole
token, or nothing at the end of a line. -/
theorem Error.Placed.covers {src : String} {e : Error} (h : e.Placed src) :
    ∃ sp pre w post, e.span? = some sp ∧ src.toList = pre ++ w ++ post ∧
      String.utf8Len pre = sp.start ∧ String.utf8Len w = sp.len ∧
      ∀ c ∈ w, isSeparator c = false := by
  cases e with
  | invalidInstruction m sp | invalidSyscall m sp | duplicateSymbol m sp | undefinedSymbol m sp =>
    obtain ⟨pre, post, hcover⟩ := TokenAt.covers h
    exact ⟨sp, pre, _, post, rfl, hcover⟩
  | invalidArgument sp =>
    obtain ⟨w, hw⟩ := h
    obtain ⟨pre, post, hcover⟩ := hw.covers
    exact ⟨sp, pre, w, post, rfl, hcover⟩
  | invalidSymbol sp =>
    obtain ⟨n, -, htok, -⟩ := h
    obtain ⟨pre, post, hcover⟩ := htok.covers
    exact ⟨sp, pre, _, post, rfl, hcover⟩
  | missingArgument sp =>
    obtain ⟨hstop, pre, post, hsrc, hpre, -⟩ := h
    exact ⟨sp, pre, [], post, rfl, by simpa using hsrc, hpre, by simp [Span.len, hstop],
      by simp⟩
  | unreadable p r => exact h.elim

/-- The diagnostic of a failed assembly whose span starts on a printed line. The location and
the printed line are those of the line that holds the span's start; the column counts the
characters before the start on that line, and the caret line has as many spaces. The span's
characters `w` all lie on the line from the column on, and the carets number at least one and at
most as many as the span has bytes and as the printed line has characters from the column on. -/
theorem assemble_error_render {src : String} {e : Error} (h : assemble src = .error e)
    (file : String) {sp : Span} (hsp : e.span? = some sp) {text : List Char}
    (hprinted : (sourceLines src)[(lineCol src sp.start).1 - 1]? = some text) :
    ∃ (l : LineAround src.toList sp.start) (w rest : List Char),
      l.after = w ++ rest ∧ String.utf8Len w = sp.len ∧
      text = ((l.before ++ l.after).reverse.dropWhile (· == '\r')).reverse ∧
      w.length ≤ text.length - l.before.length ∧
      render file src e =
        "error[E" ++ codeText e.code ++ "]: " ++ e.message ++ "\n" ++
        " --> " ++ file ++ ":" ++ toString (l.above.count '\n' + 1) ++ ":" ++
          toString (l.before.length + 1) ++ "\n" ++
        spaces (toString (l.above.count '\n' + 1)).length ++ " |\n" ++
        toString (l.above.count '\n' + 1) ++ " | " ++ String.ofList text ++ "\n" ++
        spaces (toString (l.above.count '\n' + 1)).length ++ " | " ++ spaces l.before.length ++
        String.ofList (List.replicate
          (max 1 (min (String.utf8Len w) (text.length - l.before.length))) '^') ++ "\n" := by
  obtain ⟨sp', pre, w, post, hsp', hsrc, hpre, hlen, hsep⟩ :
      ∃ sp pre w post, e.span? = some sp ∧ src.toList = pre ++ w ++ post ∧
        String.utf8Len pre = sp.start ∧ String.utf8Len w = sp.len ∧
        ∀ c ∈ w, isSeparator c = false := by
    rcases assemble_error_placed_or_end h with hplaced | rfl
    · exact hplaced.covers
    · exact ⟨_, src.toList, [], [], rfl, by simp, (utf8ByteSize_eq_utf8Len src).symm,
        by simp [Span.len, Span.point], by simp⟩
  obtain rfl : sp' = sp := Option.some.inj (hsp'.symm.trans hsp)
  let l : LineAround src.toList sp'.start :=
    .ofSplit pre (w ++ post) (by rw [hsrc, List.append_assoc]) hpre
  have hafter : l.after = w ++ post.takeWhile (· != '\n') :=
    List.takeWhile_append_of_pos fun c hc => by
      simpa using (ne_of_isSeparator_eq_false (hsep c hc)).1
  have hlc := lineCol_of_lineAround l
  rw [hlc, Nat.add_sub_cancel] at hprinted
  have htext := sourceLines_of_lineAround l hprinted
  have hroom : w.length ≤ text.length - l.before.length := by
    rw [htext, hafter, ← List.append_assoc]
    exact length_le_trimmed fun c hc => (ne_of_isSeparator_eq_false (hsep c hc)).2
  refine ⟨l, w, _, hafter, hlen, htext, hroom, ?_⟩
  simp only [render, hsp, hlc, Nat.add_sub_cancel, hprinted, ← hlen, String.append_assoc]

/-- A mnemonic of two characters of two bytes each: the line has room for four carets from the
column on, and the diagnostic draws four, one per byte. -/
theorem accentedMnemonic_carets :
    assemble "éé x" = .error (.invalidInstruction "éé" ⟨0, 4⟩) ∧
      render "input.asm" "éé x" (.invalidInstruction "éé" ⟨0, 4⟩) =
        "error[E0001]: invalid instruction `éé`\n --> input.asm:1:1\n  |\n1 | éé x\n" ++
          "  | ^^^^\n" := by
  constructor <;> rfl

end WindowVm.Assembly
