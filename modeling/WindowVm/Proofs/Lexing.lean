import WindowVm.Proofs.Grammar

/-!
# Lines and tokens

The assembler's line splitter and tokenizer agree with the plain list operations the grammar is
stated with: the lines of a text are the pieces between its line feeds (`lines_chars`), and the
tokens of a line are the non-empty pieces between its separators (`Line.tokens_texts`).
Offsets are carried along by both scanners and play no part here.
-/

namespace WindowVm.Assembly

theorem tokensOf_cons_separator {c : Char} (hc : isSeparator c = true) (cs : List Char) :
    tokensOf (c :: cs) = tokensOf cs := by
  simp [tokensOf, List.splitOnP_cons_eq_if_modifyHead, hc]

/-- A run of non-separators that ends at a separator is the first token. -/
theorem tokensOf_run_separator {w : List Char} (hw : w ≠ [])
    (hrun : ∀ d ∈ w, isSeparator d = false) {c : Char} (hc : isSeparator c = true)
    (cs : List Char) : tokensOf (w ++ c :: cs) = w :: tokensOf cs := by
  simp [tokensOf, List.splitOnP_append_cons_of_forall_mem hrun c hc, hw]

/-- A run of non-separators that ends the line is its last token. -/
theorem tokensOf_run {w : List Char} (hw : w ≠ []) (hrun : ∀ d ∈ w, isSeparator d = false) :
    tokensOf w = [w] := by
  simp [tokensOf, List.splitOnP_eq_singleton hrun, hw]

/-- The scanner's two states: between tokens, and inside a token whose characters so far are
held reversed. -/
theorem scanTokens_texts (cs : List Char) (pos : Nat) :
    (scanTokens pos none cs).map Token.text = tokensOf cs ∧
    ∀ t : Token, t.text ≠ [] → (∀ d ∈ t.text, isSeparator d = false) →
      (scanTokens pos (some t) cs).map Token.text = tokensOf (t.text.reverse ++ cs) := by
  induction cs generalizing pos with
  | nil =>
    refine ⟨rfl, fun t ht hrun => ?_⟩
    simp [scanTokens, tokensOf_run (List.reverse_ne_nil_iff.mpr ht) (by simpa using hrun)]
  | cons c cs ih =>
    by_cases hc : isSeparator c = true
    · refine ⟨?_, fun t ht hrun => ?_⟩
      · simp [scanTokens, hc, (ih _).1, tokensOf_cons_separator hc]
      · simp [scanTokens, hc, (ih _).1,
          tokensOf_run_separator (List.reverse_ne_nil_iff.mpr ht) (by simpa using hrun) hc]
    · have hc' : isSeparator c = false := by simpa using hc
      refine ⟨?_, fun t ht hrun => ?_⟩
      · simpa [scanTokens, hc'] using
          (ih (pos + c.utf8Size)).2 ⟨[c], pos⟩ (by simp) (by simpa using hc')
      · have := (ih (pos + c.utf8Size)).2 { t with text := c :: t.text } (by simp)
          (by simpa [hc'] using hrun)
        simpa [scanTokens, hc'] using this

theorem Line.tokens_texts (l : Line) : l.tokens.map Token.text = tokensOf l.chars :=
  (scanTokens_texts l.chars l.start).1

theorem splitLines_chars (cs : List Char) (start pos : Nat) (cur : List Char)
    (hcur : '\n' ∉ cur) :
    (splitLines start pos cur cs).map Line.chars = (cur.reverse ++ cs).splitOn '\n' := by
  have hrev : '\n' ∉ cur.reverse := by simpa using hcur
  induction cs generalizing start pos cur with
  | nil => simp [splitLines, List.splitOn_eq_singleton hrev]
  | cons c cs ih =>
    by_cases hc : c = '\n'
    · subst hc
      rw [List.splitOn_append_cons_self_of_not_mem hrev]
      simp [splitLines, ih]
    · have := ih start (pos + c.utf8Size) (c :: cur) (by simp [Ne.symm hc, hcur])
        (by simp [Ne.symm hc, hcur])
      simpa [splitLines, hc] using this

/-- The lines of a text are the pieces between its line feeds. -/
theorem lines_chars (src : String) : (lines src).map Line.chars = src.toList.splitOn '\n' := by
  have := splitLines_chars src.toList 0 0 [] (by simp)
  rwa [List.reverse_nil, List.nil_append] at this

end WindowVm.Assembly
