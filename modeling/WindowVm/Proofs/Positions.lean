import WindowVm.Proofs.Acceptance

/-!
# Where lines, tokens and label references stand in a text

Offsets into an assembly text count UTF-8 bytes, as `String.utf8Len` does. A line of the text is
a run of characters between two line feeds, or an end of the text (`lines_runAt`); a token of a
line is a whole token of the text (`TokenAt`): a non-empty run of non-separators with a
separator, or an end of the text, on either side, whose span is the bytes it covers
(`Line.tokenAt`). Every offset such a run starts or stops at is a character boundary of the text
(`TokenAt.within`).

A label reference is written as `:` and a name after the first token of a line. The references
of a text that parses, in order, are those tokens with their spans (`parse_refs`).
-/

namespace WindowVm

/-- The span `sp` lies in `src`, its ends in order and on character boundaries. -/
def Span.Within (sp : Span) (src : String) : Prop :=
  sp.start ≤ sp.stop ∧ sp.stop ≤ src.utf8ByteSize ∧
    (⟨sp.start⟩ : String.Pos.Raw).IsValid src ∧ (⟨sp.stop⟩ : String.Pos.Raw).IsValid src

namespace Assembly

@[simp] theorem byteLength_eq_utf8Len (cs : List Char) : byteLength cs = String.utf8Len cs := by
  induction cs with
  | nil => rfl
  | cons c cs ih =>
    show c.utf8Size + byteLength cs = String.utf8Len (c :: cs)
    rw [ih, String.utf8Len_cons, Nat.add_comm]

theorem utf8ByteSize_eq_utf8Len (s : String) : s.utf8ByteSize = String.utf8Len s.toList := by
  rw [← String.utf8ByteSize_ofList, String.ofList_toList]

/-! ### Runs, tokens and line ends -/

/-- The run `w` stands in `src` from byte offset `a` on, with a character of `p`, or an end of
`src`, on either side. -/
def RunAt (p : Char → Bool) (src : List Char) (a : Nat) (w : List Char) : Prop :=
  ∃ pre post, src = pre ++ w ++ post ∧ String.utf8Len pre = a ∧
    (∀ c ∈ pre.getLast?, p c = true) ∧ ∀ c ∈ post.head?, p c = true

/-- `w` is a whole token of `src` at the span `sp`: a non-empty maximal run of non-separators
that covers the bytes of `sp`. -/
def TokenAt (src : List Char) (sp : Span) (w : List Char) : Prop :=
  RunAt isSeparator src sp.start w ∧ sp.stop = sp.start + String.utf8Len w ∧ w ≠ [] ∧
    ∀ c ∈ w, isSeparator c = false

/-- The byte offset `a` of `src` ends a line: the text ends there or a line feed stands there. -/
def LineEndAt (src : List Char) (a : Nat) : Prop :=
  ∃ pre post, src = pre ++ post ∧ String.utf8Len pre = a ∧ ∀ c ∈ post.head?, c = '\n'

/-- The byte length of a prefix of a text is a character boundary of it. -/
theorem isValid_of_toList_eq {s : String} {pre post : List Char} (h : s.toList = pre ++ post) :
    (⟨String.utf8Len pre⟩ : String.Pos.Raw).IsValid s := by
  have hs : s = String.ofList pre ++ String.ofList post := by
    rw [← String.ofList_append, ← h, String.ofList_toList]
  rw [hs, ← String.rawEndPos_ofList]
  exact String.Pos.Raw.isValid_rawEndPos.append_right _

theorem TokenAt.within {src : String} {sp : Span} {w : List Char}
    (h : TokenAt src.toList sp w) : sp.Within src := by
  obtain ⟨⟨pre, post, hsrc, hstart, -, -⟩, hstop, -, -⟩ := h
  have hsize : src.utf8ByteSize = String.utf8Len pre + String.utf8Len w + String.utf8Len post := by
    simp [utf8ByteSize_eq_utf8Len, hsrc, Nat.add_assoc]
  refine ⟨by omega, by omega, ?_, ?_⟩
  · rw [← hstart]
    exact isValid_of_toList_eq (by rw [hsrc, List.append_assoc])
  · have := isValid_of_toList_eq (show src.toList = (pre ++ w) ++ post from hsrc)
    rwa [String.utf8Len_append, hstart, ← hstop] at this

theorem LineEndAt.within {src : String} {a : Nat} (h : LineEndAt src.toList a) :
    (Span.point a).Within src := by
  obtain ⟨pre, post, hsrc, rfl, -⟩ := h
  have hsize : src.utf8ByteSize = String.utf8Len pre + String.utf8Len post := by
    simp [utf8ByteSize_eq_utf8Len, hsrc]
  have hvalid := isValid_of_toList_eq hsrc
  exact ⟨Nat.le_refl _, by simp [Span.point]; omega, hvalid, hvalid⟩

/-! ### Lines and tokens -/

/-- The line splitter's state: `done` is the text before the line being read, `cur` that line
so far, reversed. -/
theorem splitLines_runAt (cs done cur : List Char) {start pos : Nat}
    (hstart : String.utf8Len done = start) (hpos : pos = start + String.utf8Len cur)
    (hdone : ∀ c ∈ done.getLast?, c = '\n') (hcur : '\n' ∉ cur) :
    ∀ l ∈ splitLines start pos cur cs,
      RunAt (· == '\n') (done ++ cur.reverse ++ cs) l.start l.chars ∧ '\n' ∉ l.chars := by
  induction cs generalizing done cur start pos with
  | nil =>
    intro l hl
    simp only [splitLines, List.mem_singleton] at hl
    subst hl
    exact ⟨⟨done, [], by simp, hstart, by simpa using hdone, by simp⟩, by simpa using hcur⟩
  | cons c cs ih =>
    intro l hl
    by_cases hc : c = '\n'
    · subst hc
      simp only [splitLines, beq_self_eq_true, if_true, List.mem_cons] at hl
      rcases hl with rfl | hl
      · exact ⟨⟨done, '\n' :: cs, by simp, hstart, by simpa using hdone, by simp⟩,
          by simpa using hcur⟩
      · have hnl : '\n'.utf8Size = 1 := rfl
        have := ih (done ++ cur.reverse ++ ['\n']) [] (by simp [hnl]; omega) rfl
          (by simp) (by simp) l hl
        simpa using this
    · simp only [splitLines, beq_iff_eq, hc, if_false] at hl
      have := ih done (c :: cur) hstart (by simp; omega) hdone
        (by simp [Ne.symm hc, hcur]) l hl
      simpa using this

/-- Each line of a text stands between two line feeds, or an end of the text. -/
theorem lines_runAt (src : String) :
    ∀ l ∈ lines src, RunAt (· == '\n') src.toList l.start l.chars ∧ '\n' ∉ l.chars := by
  simpa [lines] using splitLines_runAt src.toList [] [] rfl rfl (by simp)
    (by simp)

theorem tokenAt_finish {done : List Char} (post : List Char) {cur : Token}
    (hstart : String.utf8Len done = cur.start) (hne : cur.text ≠ [])
    (hrun : ∀ c ∈ cur.text, isSeparator c = false)
    (hdone : ∀ c ∈ done.getLast?, isSeparator c = true)
    (hpost : ∀ c ∈ post.head?, isSeparator c = true) :
    TokenAt (done ++ cur.text.reverse ++ post) { cur with text := cur.text.reverse }.span
      cur.text.reverse :=
  ⟨⟨done, post, rfl, hstart, hdone, hpost⟩, by simp [Token.span], by simpa using hne,
    by simpa using hrun⟩

/-- The tokenizer's two states, as in `scanTokens_texts`: between tokens, where `done` is the
text read so far, and inside the token `cur`, whose characters so far are held reversed after
`done`. Whatever follows the line, if it starts with a separator, keeps every token whole. -/
theorem scanTokens_tokenAt (cs : List Char) :
    (∀ (done post : List Char) {pos : Nat}, String.utf8Len done = pos →
      (∀ c ∈ done.getLast?, isSeparator c = true) → (∀ c ∈ post.head?, isSeparator c = true) →
      ∀ t ∈ scanTokens pos none cs, TokenAt (done ++ cs ++ post) t.span t.text) ∧
    (∀ (done post : List Char) {pos : Nat} (cur : Token), String.utf8Len done = cur.start →
      pos = cur.start + String.utf8Len cur.text → cur.text ≠ [] →
      (∀ c ∈ cur.text, isSeparator c = false) →
      (∀ c ∈ done.getLast?, isSeparator c = true) → (∀ c ∈ post.head?, isSeparator c = true) →
      ∀ t ∈ scanTokens pos (some cur) cs,
        TokenAt (done ++ cur.text.reverse ++ cs ++ post) t.span t.text) := by
  induction cs with
  | nil =>
    refine ⟨fun _ _ _ _ _ _ t ht => by simp [scanTokens] at ht, ?_⟩
    intro done post pos cur hstart _ hne hrun hdone hpost t ht
    simp only [scanTokens, Option.map_some, Option.toList_some, List.mem_singleton] at ht
    subst ht
    simpa using tokenAt_finish post hstart hne hrun hdone hpost
  | cons c cs ih =>
    by_cases hc : isSeparator c = true
    · constructor
      · intro done post pos hpos hdone hpost t ht
        simp only [scanTokens, hc, if_true, Option.map_none, Option.toList_none,
          List.nil_append] at ht
        have := ih.1 (done ++ [c]) post (by simp [hpos]) (by simpa using hc)
          hpost t ht
        simpa using this
      · intro done post pos cur hstart hpos hne hrun hdone hpost t ht
        simp only [scanTokens, hc, if_true, Option.map_some, Option.toList_some,
          List.singleton_append, List.mem_cons] at ht
        rcases ht with rfl | ht
        · simpa using tokenAt_finish (c :: cs ++ post) hstart hne hrun hdone
            (by simpa using hc)
        · have := ih.1 (done ++ cur.text.reverse ++ [c]) post
            (by simp [hpos, hstart]; omega) (by simpa using hc) hpost t ht
          simpa using this
    · have hc' : isSeparator c = false := by simpa using hc
      constructor
      · intro done post pos hpos hdone hpost t ht
        simp only [scanTokens, hc', Bool.false_eq_true, if_false] at ht
        have := ih.2 done post ⟨[c], pos⟩ hpos (by simp)
          (by simp) (by simpa using hc') hdone hpost t ht
        simpa using this
      · intro done post pos cur hstart hpos hne hrun hdone hpost t ht
        simp only [scanTokens, hc', Bool.false_eq_true, if_false] at ht
        have := ih.2 done post { cur with text := c :: cur.text }
          hstart (by simp [hpos]; omega) (by simp) (by simpa [hc'] using hrun) hdone hpost t ht
        simpa using this

/-- Every token of a line of a text is a whole token of the text, at its span. -/
theorem Line.tokenAt {src : String} {l : Line} (hl : l ∈ lines src) {t : Token}
    (ht : t ∈ l.tokens) : TokenAt src.toList t.span t.text := by
  obtain ⟨⟨pre, post, hsrc, hstart, hpre, hpost⟩, -⟩ := lines_runAt src l hl
  have hsep : ∀ c, (c == '\n') = true → isSeparator c = true := by
    intro c hc
    simp [(beq_iff_eq.mp hc), isSeparator]
  rw [hsrc]
  exact (scanTokens_tokenAt l.chars).1 pre post hstart (fun c hc => hsep c (hpre c hc))
    (fun c hc => hsep c (hpost c hc)) t ht

/-- Every line of a text ends where the text ends or a line feed stands. -/
theorem Line.lineEndAt {src : String} {l : Line} (hl : l ∈ lines src) :
    LineEndAt src.toList l.stop := by
  obtain ⟨⟨pre, post, hsrc, hstart, -, hpost⟩, -⟩ := lines_runAt src l hl
  exact ⟨pre ++ l.chars, post, hsrc, by simp [Line.stop, hstart],
    fun c hc => beq_iff_eq.mp (hpost c hc)⟩

/-! ### Label references -/

/-- The label reference a token writes: `:` and a name, with the token's span. -/
def Token.ref? (t : Token) : Option Ref :=
  match t.text with
  | ':' :: n => some ⟨String.ofList n, t.span⟩
  | _ => none

/-- The label references on a line: its `:name` tokens after the first. -/
def Line.refs (l : Line) : List Ref := l.tokens.tail.filterMap Token.ref?

/-- The label references of a text, in the order they are written. -/
def references (src : String) : List Ref := (lines src).flatMap Line.refs

/-- The label reference of a statement: the location of its instruction. -/
def Statement.ref? : Statement → Option Ref
  | .instr i => i.location
  | _ => none

theorem Token.ref?_of_text {t : Token} {n : List Char} (h : t.text = ':' :: n) :
    t.ref? = some ⟨String.ofList n, t.span⟩ := by
  simp [Token.ref?, h]

theorem Token.ref?_eq_none {t : Token} (h : t.text.head? ≠ some ':') : t.ref? = none := by
  unfold Token.ref?
  split
  · rename_i n hn
    simp [hn] at h
  · rfl

theorem Token.text_of_ref? {t : Token} {r : Ref} (h : t.ref? = some r) :
    t.text = ':' :: r.name.toList ∧ t.span = r.span := by
  unfold Token.ref? at h
  split at h
  · rename_i n hn
    cases h
    simp [hn]
  · cases h

theorem Numeral.head?_ne_colon {w : List Char} {v : Int} (h : Numeral w v) :
    w.head? ≠ some ':' := by
  obtain ⟨ds, hne, hdig, (⟨rfl | rfl, -⟩ | ⟨rfl, -⟩)⟩ := h
  · obtain ⟨d, ds, rfl⟩ := List.exists_cons_of_ne_nil hne
    have := hdig d (by simp)
    intro hd
    simp only [List.head?_cons, Option.some.injEq] at hd
    subst hd
    simp at this
  · simp
  · simp

theorem Denotes.ref?_eq_none {o : Operand (List Char)} {t : Token} (h : Denotes o t.text)
    (ho : ∀ n, o ≠ .loc n) : t.ref? = none := by
  apply Token.ref?_eq_none
  cases o with
  | imb _ | imw _ => exact Numeral.head?_ne_colon h
  | reg r =>
    obtain ⟨u, hu, -⟩ := h
    simp [hu]
  | loc n => exact absurd rfl (ho n)

theorem Token.ref?_of_imb {t : Token} {v : Byteword} (h : Denotes (.imb v) t.text) :
    t.ref? = none :=
  h.ref?_eq_none nofun

theorem Token.ref?_of_imw {t : Token} {w : Word} (h : Denotes (.imw w) t.text) :
    t.ref? = none :=
  h.ref?_eq_none nofun

theorem Token.ref?_of_reg {t : Token} {r : Register} (h : Denotes (.reg r) t.text) :
    t.ref? = none :=
  h.ref?_eq_none nofun

namespace Operands

theorem Writes.filterMap_ref?_of_registers {rs : List Register} {ts rest : List Token}
    (h : Writes (rs.map Operand.reg) ts rest) :
    ts.filterMap Token.ref? = rest.filterMap Token.ref? := by
  induction rs generalizing ts with
  | nil => rw [show ts = rest from h]
  | cons r rs ih =>
    obtain ⟨t, mid, rfl, ht, hmid⟩ := h
    simp [Token.ref?_of_reg ht, ih hmid]

/-- The operand tokens an instruction is read from write its location, and no other label
reference. -/
theorem instruction_refs {stop : Nat} {op : Opcode} {ts rest : List Token} {i : Instruction Ref}
    (h : instruction stop op ts = .ok (i, rest)) :
    ts.filterMap Token.ref? = i.location.toList ++ rest.filterMap Token.ref? := by
  cases op <;> simp only [instruction, bind_eq_ok_iff, pure_eq_ok_iff, half_eq_ok_iff,
    register_eq_ok_iff, wide_eq_ok_iff, target_eq_ok_iff] at h
  case sys =>
    obtain ⟨c, mid, hc, rfl, rfl⟩ := h
    obtain ⟨t, mid', rfl, ht, hw⟩ := systemCall_eq_ok_iff.mp hc
    have hname : t.ref? = none := Token.ref?_eq_none (by rw [ht]; cases c.syscall <;> decide)
    simp [hname, Writes.filterMap_ref?_of_registers hw, Instruction.location]
  all_goals
    casesm* ∃ _, _, _ ∧ _
    subst_vars
    grind [→ Token.ref?_of_imb, → Token.ref?_of_imw, → Token.ref?_of_reg, → Token.ref?_of_text,
      Instruction.location]

end Operands

/-- A line read as a statement refers to what its `:name` tokens write. -/
theorem Line.parse_refs {defined : List String} {l : Line} {st : Statement}
    (h : l.parse defined = .ok st) : st.ref?.toList = l.refs := by
  unfold Line.parse at h
  unfold Line.refs
  cases htok : l.tokens with
  | nil =>
    rw [htok] at h
    cases h
    rfl
  | cons t rest =>
    rw [htok] at h
    dsimp only at h
    split at h
    · split at h
      · cases h
      · split at h
        · cases h
        · obtain ⟨u, hend, h⟩ := Except.bind_eq_ok_iff.mp h
          cases h
          obtain rfl := expectEnd_eq_ok_iff.mp hend
          rfl
    · split at h
      · cases h
      · obtain ⟨⟨i, rest'⟩, hi, h⟩ := Except.bind_eq_ok_iff.mp h
        obtain ⟨u, hend, h⟩ := Except.bind_eq_ok_iff.mp h
        cases h
        obtain rfl := expectEnd_eq_ok_iff.mp hend
        simpa [Statement.ref?] using (Operands.instruction_refs hi).symm

/-- The statements read so far refer, in order, to what the `:name` tokens of their lines
write. -/
theorem foldlM_parseStep_refs {ls : List Line} {d d' : List String} {acc out : List Statement}
    (h : ls.foldlM parseStep (d, acc) = .ok (d', out)) :
    ∃ ss : List Statement, out = ss.reverse ++ acc ∧
      ss.filterMap Statement.ref? = ls.flatMap Line.refs := by
  induction ls generalizing d acc with
  | nil =>
    cases h
    exact ⟨[], rfl, rfl⟩
  | cons l ls ih =>
    rw [List.foldlM_cons, Except.bind_eq_ok_iff] at h
    obtain ⟨_, hstep, hrest⟩ := h
    obtain ⟨st, hst, rfl⟩ := parseStep_eq_ok_iff.mp hstep
    obtain ⟨ss, rfl, hrefs⟩ := ih hrest
    refine ⟨st :: ss, by simp, ?_⟩
    rw [List.flatMap_cons, ← Line.parse_refs hst, ← hrefs, List.filterMap_cons]
    cases st.ref? <;> rfl

/-- The statements of a text that parses refer, in order, to its label references. -/
theorem parse_refs {src : String} {ss : List Statement} (h : parse src = .ok ss) :
    ss.filterMap Statement.ref? = references src := by
  unfold parse at h
  split at h
  · rename_i hfold
    cases h
    obtain ⟨ss, rfl, hrefs⟩ := foldlM_parseStep_refs hfold
    simpa [references] using hrefs
  · cases h

/-- A label reference of a text is a whole token of it: `:` and the name, at the reference's
span. -/
theorem tokenAt_of_mem_references {src : String} {r : Ref} (h : r ∈ references src) :
    TokenAt src.toList r.span (':' :: r.name.toList) := by
  obtain ⟨l, hl, hr⟩ := List.mem_flatMap.mp h
  obtain ⟨t, ht, hre⟩ := List.mem_filterMap.mp hr
  obtain ⟨htext, hspan⟩ := Token.text_of_ref? hre
  rw [← htext, ← hspan]
  exact Line.tokenAt hl (List.mem_of_mem_tail ht)

end Assembly

end WindowVm
