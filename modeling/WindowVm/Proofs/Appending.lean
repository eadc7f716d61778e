import WindowVm.Proofs.Acceptance

/-!
# Appending text after a failing prefix

The assembler reads a text line by line and stops at the first line that is not a statement.
Splitting at a line feed keeps the lines before it, with their offsets
(`Assembly.lines_append_newline`), so a line that fails before the feed fails the same way
whatever follows. Encoding runs only once every line is read and fails only on an undefined
name (`Assembly.encode_error`).

Main statement: a text that is empty or ends with a line feed, and fails to parse, fails with the
same error, span included, whatever text is appended to it (`Assembly.parse_append_error`).
-/

namespace WindowVm.Assembly

/-- Splitting at a line feed: the lines before it, then the lines after it, counted from the
offset just past it. -/
theorem splitLines_append_newline (start pos : Nat) (cur cs ds : List Char) :
    splitLines start pos cur (cs ++ '\n' :: ds) =
      splitLines start pos cur cs ++
        splitLines (pos + byteLength cs + 1) (pos + byteLength cs + 1) [] ds := by
  induction cs generalizing start pos cur with
  | nil => simp [splitLines, byteLength]
  | cons c cs ih =>
    by_cases hc : c = '\n'
    · subst hc
      have hnl : '\n'.utf8Size = 1 := rfl
      simp only [splitLines, ih, byteLength, List.foldr_cons, hnl, beq_self_eq_true, if_true,
        List.cons_append]
      congr 3 <;> omega
    · simp [splitLines, hc, ih, byteLength, Nat.add_assoc]

theorem lines_append_newline (w v : String) :
    lines (w ++ "\n" ++ v) =
      lines w ++ splitLines (byteLength w.toList + 1) (byteLength w.toList + 1) [] v.toList := by
  have h : (w ++ "\n" ++ v).toList = w.toList ++ '\n' :: v.toList := by simp
  simp only [lines, h, splitLines_append_newline, Nat.zero_add]

/-- A line with no characters is blank. -/
theorem Line.parse_empty (defined : List String) (start : Nat) :
    Line.parse defined ⟨start, []⟩ = .ok .blank := rfl

/-- Resolving fails exactly on a reference whose name has no offset. -/
theorem resolve_eq_error_iff {o : List (String × Nat)} {i : Instruction Ref} {e : Error} :
    resolve o i = .error e ↔
      ∃ r, i.location = some r ∧ o.lookup r.name = none ∧ e = .undefinedSymbol r.name r.span := by
  unfold resolve
  cases hloc : i.location with
  | none => simp
  | some r =>
    cases hl : o.lookup r.name with
    | none =>
      simp only [Except.error.injEq, Option.some.injEq, exists_eq_left', hl, true_and]
      exact eq_comm
    | some n => simp [hl, -List.lookup_eq_none_iff]

/-- Encoding fails only on a name that no label defines. -/
theorem encode_error {ss : List Statement} {e : Error} (h : encode ss = .error e) :
    ∃ n sp, e = .undefinedSymbol n sp := by
  unfold encode at h
  generalize labelOffsets ss 0 = o at h
  generalize Bytecode.empty = c at h
  induction ss generalizing c with
  | nil => cases h
  | cons s ss ih =>
    rw [List.foldlM_cons, Except.bind_eq_error_iff] at h
    rcases h with h | ⟨c', -, h⟩
    · cases s with
      | instr i =>
        simp only [encodeStep, Except.bind_eq_error_iff, pure, Except.pure, reduceCtorEq,
          and_false, exists_false, or_false] at h
        obtain ⟨r, -, -, rfl⟩ := resolve_eq_error_iff.mp h
        exact ⟨_, _, rfl⟩
      | _ => cases h
    · exact ih c' h

/-- A layout that fails other than on an undefined name fails while its lines are read. -/
theorem parse_error_of_layout {src : String} {e : Error} (h : layout src = .error e)
    (he : ∀ n sp, e ≠ .undefinedSymbol n sp) : parse src = .error e := by
  rcases Except.bind_eq_error_iff.mp h with h | ⟨ss, -, h⟩
  · exact h
  · obtain ⟨n, sp, rfl⟩ := encode_error h
    exact absurd rfl (he n sp)

theorem parse_eq_error_iff {src : String} {e : Error} :
    parse src = .error e ↔ (lines src).foldlM parseStep ([], []) = .error e := by
  unfold parse
  split <;> simp_all

/-- A blank last line fails nothing that the lines before it did not. -/
theorem foldlM_parseStep_append_blank {ls : List Line} {acc : List String × List Statement}
    {start : Nat} {e : Error} :
    (ls ++ [Line.mk start []]).foldlM parseStep acc = .error e ↔
      ls.foldlM parseStep acc = .error e := by
  rw [List.foldlM_append, Except.bind_eq_error_iff]
  constructor
  · rintro (h | ⟨acc', -, h⟩)
    · exact h
    · simp [parseStep, Line.parse_empty, bind, Except.bind, pure, Except.pure] at h
  · exact .inl

/-- A text that is empty or ends with a line feed and fails to parse fails the same way, span
and all, whatever text is appended to it. -/
theorem parse_append_error {u v : String} {e : Error} (hu : u = "" ∨ ∃ w, u = w ++ "\n")
    (h : parse u = .error e) : parse (u ++ v) = .error e := by
  have hparse := parse_eq_error_iff.mp h
  rcases hu with rfl | ⟨w, rfl⟩
  · simp [lines, splitLines, parseStep, Line.parse_empty, bind, Except.bind, pure,
      Except.pure] at hparse
  · have hw : (lines w).foldlM parseStep ([], []) = .error e := by
      rw [← String.append_empty (s := w ++ "\n"), lines_append_newline] at hparse
      exact foldlM_parseStep_append_blank.mp hparse
    rw [parse_eq_error_iff, lines_append_newline, List.foldlM_append, hw]
    rfl

end WindowVm.Assembly
