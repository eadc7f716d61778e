import WindowVm.Proofs.Positions
import WindowVm.Proofs.Appending

/-!
# Where the assembler's errors point

Every error of a layout points into the text at the place it names (`Error.Placed`): a
missing operand at the end of its line, every other error at a whole token of the text, with
the mnemonic or name the error carries as that token's text; an invalid name only at a label or
at a location operand (`layout_error_placed`). The span is then in the text, its ends on
character boundaries (`Error.Placed.within`).

Reading a line's operands is followed by one predicate on readers (`Operands.FaultsFrom`), kept
by `bind` and `map` the way the readers are put together, so each opcode's reader is checked by
composing those of its operands (`Operands.faultsFrom_instruction`).

Encoding fails only at the first label reference, in text order, whose name no label defines
(`encode_eq_error_iff`). So a layout fails with an undefined name exactly when its lines are in
the grammar, its labels are distinct, and some reference names no label; the error is then the
first such reference, at the span of its token (`layout_undefinedSymbol_iff`).
-/

namespace WindowVm

/-- The `j`-th operand of `op`, in table order, is a location. -/
def Opcode.LocationAt (op : Opcode) (j : Nat) : Prop :=
  ∃ i : Instruction Unit, i.opcode = op ∧ i.operands[j]? = some (.loc ())

namespace Assembly

namespace Operands

/-- The errors of a reader started after the `j`-th operand of an `op` line, on the tokens `ts`
left: a missing operand at the line end `stop`, an invalid argument at one of the tokens, an
unknown system call at the first token when no operand has been read, or an invalid name at a
token that stands where the table has a location. -/
def Fault (stop : Nat) (op : Opcode) (j : Nat) (ts : List Token) (e : Error) : Prop :=
  e = .missingArgument (Span.point stop) ∨
  (∃ t ∈ ts, e = .invalidArgument t.span) ∨
  (j = 0 ∧ ∃ t, ts.head? = some t ∧ e = .invalidSyscall (String.ofList t.text) t.span) ∨
  ∃ k t n, ts[k]? = some t ∧ t.text = ':' :: n ∧ ¬ IsName n ∧ op.LocationAt (j + k) ∧
    e = .invalidSymbol t.span

/-- Every error of the reader `x` is a `Fault`. -/
def FaultsFrom {α : Type} (stop : Nat) (op : Opcode) (j : Nat) (x : Operands α) : Prop :=
  ∀ ts e, x ts = .error e → Fault stop op j ts e

/-- The reader `x` takes exactly one token when it succeeds. -/
def TakesOne {α : Type} (x : Operands α) : Prop :=
  ∀ ts a rest, x ts = .ok (a, rest) → ∃ t, ts = t :: rest

theorem bind_eq_error_iff {α β : Type} {x : Operands α} {f : α → Operands β}
    {ts : List Token} {e : Error} :
    (x >>= f) ts = .error e ↔ x ts = .error e ∨ ∃ a mid, x ts = .ok (a, mid) ∧ f a mid = .error e := by
  show (do let p ← x ts; f p.1 p.2) = _ ↔ _
  cases h : x ts with
  | error e' => simp [bind, Except.bind]
  | ok p =>
    obtain ⟨a, mid⟩ := p
    simp [bind, Except.bind]

theorem map_eq_error_iff {α β : Type} {x : Operands α} {f : α → β} {ts : List Token}
    {e : Error} : (f <$> x) ts = .error e ↔ x ts = .error e := by
  show (do let p ← x ts; pure (f p.1, p.2)) = _ ↔ _
  cases h : x ts <;> simp [bind, Except.bind, pure, Except.pure]

theorem throw_eq_error_iff {α : Type} {e e' : Error} {ts : List Token} :
    (throw e : Operands α) ts = .error e' ↔ e = e' := by
  simp [throw, throwThe, MonadExceptOf.throw, StateT.lift, bind, Except.bind]

theorem pure_ne_error {α : Type} {a : α} {e : Error} {ts : List Token} :
    (pure a : Operands α) ts ≠ .error e := by
  simp [pure, StateT.pure, Except.pure]

section
variable {stop : Nat} {op : Opcode} {j : Nat}

theorem Fault.cons {t : Token} {ts : List Token} {e : Error} (h : Fault stop op (j + 1) ts e) :
    Fault stop op j (t :: ts) e := by
  rcases h with h | ⟨t', ht', h⟩ | ⟨hj, -⟩ | ⟨k, t', n, hk, htext, hn, hloc, h⟩
  · exact .inl h
  · exact .inr (.inl ⟨t', List.mem_cons_of_mem t ht', h⟩)
  · cases hj
  · refine .inr (.inr (.inr ⟨k + 1, t', n, by simpa using hk, htext, hn, ?_, h⟩))
    rwa [Nat.add_right_comm] at hloc

theorem FaultsFrom.bind {α β : Type} {x : Operands α} {f : α → Operands β}
    (hx : FaultsFrom stop op j x) (hone : TakesOne x) (hf : ∀ a, FaultsFrom stop op (j + 1) (f a)) :
    FaultsFrom stop op j (x >>= f) := by
  intro ts e h
  rcases bind_eq_error_iff.mp h with hfirst | ⟨a, mid, hok, hrest⟩
  · exact hx ts e hfirst
  · obtain ⟨t, rfl⟩ := hone ts a mid hok
    exact (hf a mid e hrest).cons

theorem FaultsFrom.map {α β : Type} {x : Operands α} {f : α → β} (hx : FaultsFrom stop op j x) :
    FaultsFrom stop op j (f <$> x) :=
  fun ts e h => hx ts e (map_eq_error_iff.mp h)

theorem faultsFrom_pure {α : Type} (a : α) : FaultsFrom stop op j (pure a : Operands α) :=
  fun _ _ h => absurd h pure_ne_error

/-- A reader that takes the next token fails at the line end or, after it, as `g` says. -/
theorem faultsFrom_next_bind {α : Type} {g : Token → Operands α}
    (hg : ∀ t ts e, g t ts = .error e → Fault stop op j (t :: ts) e) :
    FaultsFrom stop op j (next stop >>= g) := by
  intro ts e h
  rcases bind_eq_error_iff.mp h with h | ⟨t, mid, hnext, h⟩
  · cases ts with
    | nil =>
      simp only [next, Except.error.injEq] at h
      exact .inl h.symm
    | cons => cases h
  · rw [next_eq_ok_iff] at hnext
    subst hnext
    exact hg t mid e h

theorem faultsFrom_half : FaultsFrom stop op j (half stop) := by
  unfold half
  refine faultsFrom_next_bind fun t ts e h => .inr (.inl ⟨t, List.mem_cons_self .., ?_⟩)
  cases hv : parseHalf t.text <;> simp only [hv] at h
  · exact (throw_eq_error_iff.mp h).symm
  · exact absurd h pure_ne_error

theorem faultsFrom_register : FaultsFrom stop op j (register stop) := by
  unfold register
  refine faultsFrom_next_bind fun t ts e h => .inr (.inl ⟨t, List.mem_cons_self .., ?_⟩)
  rcases ht : t.text with _ | ⟨c, ds⟩
  · rw [ht] at h
    exact (throw_eq_error_iff.mp h).symm
  · by_cases hc : c = '%'
    · subst hc
      rw [ht] at h
      cases hv : parseHalf ds <;> simp only [hv] at h
      · exact (throw_eq_error_iff.mp h).symm
      · exact absurd h pure_ne_error
    · rw [ht] at h
      simp [hc] at h
      exact (throw_eq_error_iff.mp h).symm

theorem faultsFrom_wide : FaultsFrom stop op j (wide stop) := by
  unfold wide
  refine faultsFrom_next_bind fun t ts e h => .inr (.inl ⟨t, List.mem_cons_self .., ?_⟩)
  cases hv : parseInteger t.text <;> simp only [hv] at h
  · exact (throw_eq_error_iff.mp h).symm
  · exact absurd h pure_ne_error

theorem faultsFrom_target (hloc : op.LocationAt j) : FaultsFrom stop op j (target stop) := by
  unfold target
  refine faultsFrom_next_bind fun t ts e h => ?_
  rcases ht : t.text with _ | ⟨c, n⟩
  · rw [ht] at h
    exact .inr (.inl ⟨t, List.mem_cons_self .., (throw_eq_error_iff.mp h).symm⟩)
  · by_cases hc : c = ':'
    · subst hc
      rw [ht] at h
      by_cases hn : isName n = true
      · simp only [hn, if_true] at h
        exact absurd h pure_ne_error
      · simp only [hn] at h
        refine .inr (.inr (.inr ⟨0, t, n, rfl, ht, fun h' => hn (isName_iff.mpr h'), hloc, ?_⟩))
        exact (throw_eq_error_iff.mp h).symm
    · rw [ht] at h
      simp [hc] at h
      exact .inr (.inl ⟨t, List.mem_cons_self .., (throw_eq_error_iff.mp h).symm⟩)

theorem takesOne_register : TakesOne (register stop) := fun _ _ _ h => by
  obtain ⟨t, rfl, -⟩ := register_eq_ok_iff.mp h
  exact ⟨t, rfl⟩

theorem takesOne_target : TakesOne (target stop) := fun _ _ _ h => by
  obtain ⟨t, -, rfl, -⟩ := target_eq_ok_iff.mp h
  exact ⟨t, rfl⟩

/-- After `sys`, the call's name is the first token; its operand follows. -/
theorem faultsFrom_systemCall : FaultsFrom stop op 0 (systemCall stop) := by
  unfold systemCall
  refine faultsFrom_next_bind fun t ts e h => ?_
  generalize (if isMnemonic t.text = true then Syscall.ofMnemonic? (String.ofList t.text)
    else none) = call at h
  rcases call with _ | ⟨_ | _ | _ | _ | _⟩ <;> simp only at h
  · exact .inr (.inr (.inl ⟨rfl, t, rfl, (throw_eq_error_iff.mp h).symm⟩))
  · exact absurd h pure_ne_error
  · exact (faultsFrom_register.bind takesOne_register (fun _ => faultsFrom_pure _) ts e h).cons
  · exact absurd h pure_ne_error
  · exact absurd h pure_ne_error
  · exact (faultsFrom_register.bind takesOne_register (fun _ => faultsFrom_pure _) ts e h).cons

/-- Reading the operands of any opcode fails only with a `Fault`. -/
theorem faultsFrom_instruction (stop : Nat) (op : Opcode) :
    FaultsFrom stop op 0 (instruction stop op) := by
  cases op
  case sys => exact faultsFrom_systemCall.map
  case nop => exact faultsFrom_pure _
  case frm => exact faultsFrom_half.map
  case arg => exact faultsFrom_register.map
  case cas => exact (faultsFrom_target ⟨.cas (), rfl, rfl⟩).map
  case res => exact faultsFrom_half.map
  case ret => exact faultsFrom_register.bind takesOne_register fun _ => faultsFrom_half.map
  case sca => exact faultsFrom_register.bind takesOne_register fun _ => faultsFrom_wide.map
  case loc =>
    exact faultsFrom_register.bind takesOne_register fun _ =>
      (faultsFrom_target ⟨.loc 0 (), rfl, rfl⟩).map
  case loa => exact faultsFrom_register.bind takesOne_register fun _ => faultsFrom_register.map
  case sto => exact faultsFrom_register.bind takesOne_register fun _ => faultsFrom_register.map
  case mov => exact faultsFrom_register.bind takesOne_register fun _ => faultsFrom_register.map
  case jmp => exact (faultsFrom_target ⟨.jmp (), rfl, rfl⟩).map
  case jnz =>
    exact (faultsFrom_target ⟨.jnz () 0, rfl, rfl⟩).bind takesOne_target fun _ =>
      faultsFrom_register.map
  all_goals
    exact faultsFrom_register.bind takesOne_register fun _ =>
      faultsFrom_register.bind takesOne_register fun _ => faultsFrom_register.map

end
theorem Writes.suffix {os : List (Operand (List Char))} {ts rest : List Token}
    (h : Writes os ts rest) : rest <:+ ts := by
  induction os generalizing ts with
  | nil =>
    rw [show ts = rest from h]
  | cons o os ih =>
    obtain ⟨t, mid, rfl, -, hmid⟩ := h
    exact (ih hmid).trans (List.suffix_cons t mid)

/-- The operands are read from the front: what is left is a suffix of the tokens. -/
theorem instruction_suffix {stop : Nat} {op : Opcode} {ts rest : List Token} {i : Instruction Ref}
    (h : instruction stop op ts = .ok (i, rest)) : rest <:+ ts := by
  have hop := opcode_of_instruction_eq_ok h
  by_cases hsys : op = .sys
  · subst hsys
    obtain ⟨c, hc, -⟩ := map_eq_ok_iff.mp h
    obtain ⟨t, mid, rfl, -, hw⟩ := systemCall_eq_ok_iff.mp hc
    exact hw.suffix.trans (List.suffix_cons t mid)
  · subst hop
    have hw := (instruction_eq_ok_iff (j := i.map Ref.chars) (by simpa using hsys)).mp
      ⟨i, by simpa using h, rfl⟩
    exact hw.suffix

end Operands

/-- The token `k` of the line `l` stands where a label name is written: first on the line, as
a label, or where the table of the line's opcode has a location. -/
def Line.NameSlot (l : Line) (k : Nat) : Prop :=
  k = 0 ∨ ∃ (j : Nat) (op : Opcode), k = j + 1 ∧ l.tokens.head?.map Token.text = some op.mnemonic.toList ∧
    op.LocationAt j

/-- Where on the line `l` an error of that line points: at one of its tokens, with the text the
error names, or at the line end for a missing operand. Undefined names and unreadable files are
not errors of a line. -/
def Error.OnLine (l : Line) : Error → Prop
  | .invalidInstruction m sp => ∃ t ∈ l.tokens, t.span = sp ∧ t.text = m.toList
  | .invalidSyscall m sp => ∃ t ∈ l.tokens, t.span = sp ∧ t.text = m.toList
  | .invalidArgument sp => ∃ t ∈ l.tokens, t.span = sp
  | .missingArgument sp => sp = Span.point l.stop
  | .invalidSymbol sp => ∃ k t n, l.tokens[k]? = some t ∧ t.span = sp ∧ t.text = ':' :: n ∧
      ¬ IsName n ∧ l.NameSlot k
  | .duplicateSymbol n sp => ∃ t ∈ l.tokens, t.span = sp ∧ t.text = ':' :: n.toList
  | .undefinedSymbol .. => False
  | .unreadable .. => False

theorem Error.onLine_of_fault {l : Line} {t : Token} {rest : List Token} {op : Opcode}
    {e : Error} (htok : l.tokens = t :: rest) (hop : t.text = op.mnemonic.toList)
    (h : Operands.Fault l.stop op 0 rest e) : e.OnLine l := by
  rcases h with rfl | ⟨t', ht', rfl⟩ | ⟨-, t', ht', rfl⟩ | ⟨k, t', n, hk, htext, hn, hloc, rfl⟩
  · rfl
  · exact ⟨t', by simp [htok, ht'], rfl⟩
  · refine ⟨t', ?_, rfl, by simp⟩
    simp [htok, List.mem_of_mem_head? ht']
  · refine ⟨k + 1, t', n, by simpa [htok] using hk, rfl, htext, hn, Or.inr ⟨k, op, rfl, ?_, ?_⟩⟩
    · simp [htok, hop]
    · simpa using hloc

theorem expectEnd_error {ts : List Token} {e : Error} (h : expectEnd ts = .error e) :
    ∃ t ∈ ts, e = .invalidArgument t.span := by
  cases ts with
  | nil => cases h
  | cons t ts =>
    cases h
    exact ⟨t, List.mem_cons_self .., rfl⟩

/-- A line that fails to parse fails at one of its tokens or at its end. -/
theorem Line.parse_error_onLine {defined : List String} {l : Line} {e : Error}
    (h : l.parse defined = .error e) : e.OnLine l := by
  unfold Line.parse at h
  cases htok : l.tokens with
  | nil =>
    rw [htok] at h
    cases h
  | cons t rest =>
    rw [htok] at h
    dsimp only at h
    split at h
    · rename_i n htext
      by_cases hn : isName n = true
      · simp only [hn, Bool.not_true, Bool.false_eq_true, if_false] at h
        split at h
        · cases h
          exact ⟨t, by simp [htok], rfl, by simp [htext]⟩
        · rcases Except.bind_eq_error_iff.mp h with h | ⟨_, -, h⟩
          · obtain ⟨t', ht', rfl⟩ := expectEnd_error h
            exact ⟨t', by simp [htok, ht'], rfl⟩
          · cases h
      · simp only [hn, Bool.not_false, if_true, Except.error.injEq] at h
        subst h
        exact ⟨0, t, n, by simp [htok], rfl, htext, fun h' => hn (isName_iff.mpr h'), .inl rfl⟩
    · generalize hop : (if isMnemonic t.text = true then Opcode.ofMnemonic? (String.ofList t.text)
        else none) = op at h
      rcases op with _ | op
      · cases h
        exact ⟨t, by simp [htok], rfl, by simp⟩
      · have hmn := Operands.opcode_lookup_iff.mp hop
        rcases Except.bind_eq_error_iff.mp h with h | ⟨⟨i, rest'⟩, hi, h⟩
        · exact Error.onLine_of_fault htok hmn (Operands.faultsFrom_instruction l.stop op rest e h)
        · rcases Except.bind_eq_error_iff.mp h with h | ⟨_, -, h⟩
          · obtain ⟨t', ht', rfl⟩ := expectEnd_error h
            have hrest : t' ∈ rest := (Operands.instruction_suffix hi).subset ht'
            exact ⟨t', by simp [htok, hrest], rfl⟩
          · cases h

/-! ### The errors of a text -/

/-- A failed read of the lines fails at one of them. -/
theorem foldlM_parseStep_error {ls : List Line} {acc : List String × List Statement} {e : Error}
    (h : ls.foldlM parseStep acc = .error e) : ∃ l ∈ ls, ∃ d, l.parse d = .error e := by
  induction ls generalizing acc with
  | nil => cases h
  | cons l ls ih =>
    rw [List.foldlM_cons, Except.bind_eq_error_iff] at h
    rcases h with h | ⟨acc', -, h⟩
    · simp only [parseStep, Except.bind_eq_error_iff] at h
      rcases h with h | ⟨st, -, h⟩
      · exact ⟨l, List.mem_cons_self .., acc.1, h⟩
      · cases st <;> cases h
    · obtain ⟨l', hl', d, h'⟩ := ih h
      exact ⟨l', List.mem_cons_of_mem l hl', d, h'⟩

theorem parse_error_onLine {src : String} {e : Error} (h : parse src = .error e) :
    ∃ l ∈ lines src, e.OnLine l := by
  obtain ⟨l, hl, d, hd⟩ := foldlM_parseStep_error (parse_eq_error_iff.mp h)
  exact ⟨l, hl, Line.parse_error_onLine hd⟩

/-- Encoding fails at the first label reference, in order, whose name has no offset. -/
theorem foldlM_encodeStep_eq_error_iff {o : List (String × Nat)} {ss : List Statement}
    {c : Bytecode} {e : Error} :
    ss.foldlM (encodeStep o) c = .error e ↔
      ∃ r, (ss.filterMap Statement.ref?).find? (fun r => (o.lookup r.name).isNone) = some r ∧
        e = .undefinedSymbol r.name r.span := by
  induction ss generalizing c with
  | nil => simp [pure, Except.pure]
  | cons s ss ih =>
    rw [List.foldlM_cons]
    cases s with
    | blank => exact ih
    | label name span => exact ih
    | instr i =>
      cases hr : resolve o i with
      | error e' =>
        obtain ⟨r, hloc, hl, rfl⟩ := resolve_eq_error_iff.mp hr
        simp [encodeStep, hr, Statement.ref?, hloc, hl, bind, Except.bind, eq_comm]
      | ok j =>
        have hdef := (resolve_eq_ok_iff.mp hr).1
        have hstep : encodeStep o c (.instr i) = .ok (c.push j) := by
          simp [encodeStep, hr, bind, Except.bind, pure, Except.pure]
        rw [hstep]
        show ss.foldlM (encodeStep o) (c.push j) = .error e ↔ _
        rw [ih]
        cases hloc : i.location with
        | none => simp [Statement.ref?, hloc]
        | some r =>
          have hsome := hdef r hloc
          simp [Statement.ref?, hloc, Option.isSome_iff_ne_none.mp hsome]

/-- Encoding fails at the first label reference, in order, whose name no label line defines. -/
theorem encode_eq_error_iff {ss : List Statement} {e : Error} :
    encode ss = .error e ↔
      ∃ r, (ss.filterMap Statement.ref?).find?
          (fun r => r.chars ∉ Form.labels (ss.map Statement.form)) = some r ∧
        e = .undefinedSymbol r.name r.span := by
  have hpred : (fun r : Ref => ((labelOffsets ss 0).lookup r.name).isNone) =
      fun r => decide (r.chars ∉ Form.labels (ss.map Statement.form)) := by
    funext r
    have hlookup := @lookup_labelOffsets ss Bytecode.empty r.name
    rw [show Bytecode.empty.size = 0 from rfl] at hlookup
    by_cases hm : r.name.toList ∈ Form.labels (ss.map Statement.form) <;>
      simp [hlookup, hm, Ref.chars]
  unfold encode
  rw [foldlM_encodeStep_eq_error_iff, hpred]

/-! ### Where each error points -/

/-- Where an assembly error points in the text `src`: a missing operand at the end of a line;
an unknown mnemonic, a duplicate or an undefined name at the whole token that writes it; an
invalid argument at a whole token; an invalid name at a `:` token whose name is not a symbol
name, standing where a label or a location is written. -/
def Error.Placed (src : String) : Error → Prop
  | .invalidInstruction m sp | .invalidSyscall m sp => TokenAt src.toList sp m.toList
  | .invalidArgument sp => ∃ w, TokenAt src.toList sp w
  | .missingArgument sp => sp.stop = sp.start ∧ LineEndAt src.toList sp.start
  | .invalidSymbol sp => ∃ n, ¬ IsName n ∧ TokenAt src.toList sp (':' :: n) ∧
      ∃ l ∈ lines src, ∃ k t, l.tokens[k]? = some t ∧ t.span = sp ∧ l.NameSlot k
  | .duplicateSymbol n sp | .undefinedSymbol n sp => TokenAt src.toList sp (':' :: n.toList)
  | .unreadable .. => False

theorem Error.OnLine.placed {src : String} {l : Line} (hl : l ∈ lines src) {e : Error}
    (h : e.OnLine l) : e.Placed src := by
  cases e with
  | invalidInstruction m sp | invalidSyscall m sp =>
    obtain ⟨t, ht, rfl, htext⟩ := h
    show TokenAt src.toList t.span m.toList
    rw [← htext]
    exact Line.tokenAt hl ht
  | invalidArgument sp =>
    obtain ⟨t, ht, rfl⟩ := h
    exact ⟨t.text, Line.tokenAt hl ht⟩
  | missingArgument sp =>
    subst h
    exact ⟨rfl, Line.lineEndAt hl⟩
  | invalidSymbol sp =>
    obtain ⟨k, t, n, hk, rfl, htext, hn, hslot⟩ := h
    exact ⟨n, hn, htext ▸ Line.tokenAt hl (List.mem_of_getElem? hk), l, hl, k, t, hk, rfl, hslot⟩
  | duplicateSymbol n sp =>
    obtain ⟨t, ht, rfl, htext⟩ := h
    show TokenAt src.toList t.span (':' :: n.toList)
    rw [← htext]
    exact Line.tokenAt hl ht
  | undefinedSymbol n sp => exact h.elim
  | unreadable p r => exact h.elim

/-- A placed error carries a span that lies in the text. -/
theorem Error.Placed.within {src : String} {e : Error} (h : e.Placed src) :
    ∃ sp, e.span? = some sp ∧ sp.Within src := by
  cases e with
  | invalidInstruction _ sp | invalidSyscall _ sp | duplicateSymbol _ sp | undefinedSymbol _ sp =>
    exact ⟨sp, rfl, TokenAt.within h⟩
  | invalidArgument sp =>
    obtain ⟨w, hw⟩ := h
    exact ⟨sp, rfl, hw.within⟩
  | missingArgument sp =>
    obtain ⟨hstop, hend⟩ := h
    obtain ⟨a, b⟩ := sp
    obtain rfl : b = a := hstop
    exact ⟨_, rfl, hend.within⟩
  | invalidSymbol sp =>
    obtain ⟨n, -, htok, -⟩ := h
    exact ⟨sp, rfl, htok.within⟩
  | unreadable p r => exact h.elim

/-- Every error of a layout points where `Error.Placed` says. -/
theorem layout_error_placed {src : String} {e : Error} (h : layout src = .error e) :
    e.Placed src := by
  rcases Except.bind_eq_error_iff.mp h with hp | ⟨ss, hp, he⟩
  · obtain ⟨l, hl, hline⟩ := parse_error_onLine hp
    exact hline.placed hl
  · obtain ⟨r, hfind, rfl⟩ := encode_eq_error_iff.mp he
    have hr : r ∈ references src := parse_refs hp ▸ List.mem_of_find?_eq_some hfind
    exact tokenAt_of_mem_references hr

/-! ### The first undefined name -/

/-- A layout fails with an undefined name exactly when its lines are in the grammar, no label is
defined twice, and some label reference names no label; the error is the first such reference in
the text, with the span of its token. -/
theorem layout_undefinedSymbol_iff {src : String} {name : String} {span : Span} :
    layout src = .error (.undefinedSymbol name span) ↔
      ∃ fs : List Form, List.Forall₂ LineForm ((src.toList.splitOn '\n').map tokensOf) fs ∧
        (Form.labels fs).Nodup ∧
        (references src).find? (fun r => r.chars ∉ Form.labels fs) = some ⟨name, span⟩ := by
  constructor
  · intro h
    rcases Except.bind_eq_error_iff.mp h with hp | ⟨ss, hp, he⟩
    · obtain ⟨l, -, hline⟩ := parse_error_onLine hp
      exact hline.elim
    · obtain ⟨hlines, hnodup⟩ := parse_eq_ok_iff.mp ⟨ss, hp, rfl⟩
      obtain ⟨r, hfind, he⟩ := encode_eq_error_iff.mp he
      cases he
      refine ⟨_, hlines, hnodup, ?_⟩
      rw [← parse_refs hp]
      exact hfind
  · rintro ⟨fs, hlines, hnodup, hfind⟩
    obtain ⟨ss, hp, rfl⟩ := parse_eq_ok_iff.mpr ⟨hlines, hnodup⟩
    have he : encode ss = .error (.undefinedSymbol name span) :=
      encode_eq_error_iff.mpr ⟨⟨name, span⟩, by rw [parse_refs hp]; exact hfind, rfl⟩
    rw [layout, hp]
    exact he

end Assembly

end WindowVm
