import WindowVm.Proofs.Lexing
import WindowVm.Assembly.Statement

/-!
# Reading operands

Each operand reader of the assembler succeeds exactly when the next token writes an operand of
its kind in the form `Denotes` gives, and it returns that operand. Numbers are read through
`Numeral`: a 16-bit immediate is a numeral of its value (`parseHalf_eq_some_iff`), and a wide
immediate is a numeral of the signed value of its word (`parseInteger_ofInt_iff`). The readers
compose into `Operands.instruction_eq_ok_iff` and `Operands.systemCall_eq_ok_iff`: the operands
of an opcode are read exactly when the tokens write them in table order (`Writes`).
-/

namespace WindowVm.Word

theorem toNat_ofInt (i : Int) : (ofInt i).toNat = (i % 18446744073709551616).toNat := by
  simp only [ofInt, toNat_ofNat]
  omega

theorem toInt_ofInt {i : Int} (h₁ : -9223372036854775808 ≤ i) (h₂ : i < 9223372036854775808) :
    (ofInt i).toInt = i := by
  simp only [toInt, toNat_ofInt]
  split <;> omega

theorem ofInt_toInt (w : Word) : ofInt w.toInt = w := by
  apply ext_toNat
  have := w.toNat_lt
  simp only [toNat_ofInt, toInt]
  split <;> omega

theorem toInt_mem (w : Word) : -9223372036854775808 ≤ w.toInt ∧ w.toInt < 9223372036854775808 := by
  have := w.toNat_lt
  simp only [toInt]
  split <;> omega

end WindowVm.Word

namespace WindowVm.Assembly

theorem Operands.bind_eq_ok_iff {α β : Type} {x : Operands α} {f : α → Operands β}
    {ts rest : List Token} {b : β} :
    (x >>= f) ts = .ok (b, rest) ↔ ∃ a mid, x ts = .ok (a, mid) ∧ f a mid = .ok (b, rest) := by
  show (do let p ← x ts; f p.1 p.2) = _ ↔ _
  cases h : x ts with
  | error e => simp [bind, Except.bind]
  | ok p =>
    obtain ⟨a, mid⟩ := p
    simp [bind, Except.bind]

theorem Operands.pure_eq_ok_iff {α : Type} {a b : α} {ts rest : List Token} :
    (pure a : Operands α) ts = .ok (b, rest) ↔ a = b ∧ ts = rest := by
  simp [pure, StateT.pure, Except.pure]

theorem Operands.map_eq_ok_iff {α β : Type} {x : Operands α} {f : α → β}
    {ts rest : List Token} {b : β} :
    (f <$> x) ts = .ok (b, rest) ↔ ∃ a, x ts = .ok (a, rest) ∧ f a = b := by
  show (do let p ← x ts; pure (f p.1, p.2)) = _ ↔ _
  cases h : x ts with
  | error e => simp [bind, Except.bind]
  | ok p =>
    obtain ⟨a, mid⟩ := p
    simp [bind, Except.bind, pure, Except.pure]
    constructor
    · rintro ⟨rfl, rfl⟩
      exact ⟨rfl, rfl⟩
    · rintro ⟨rfl, rfl⟩
      exact ⟨rfl, rfl⟩

theorem Operands.next_eq_ok_iff {stop : Nat} {ts rest : List Token} {t : Token} :
    Operands.next stop ts = .ok (t, rest) ↔ ts = t :: rest := by
  cases ts <;> simp [Operands.next, eq_comm]

theorem splitSign_cases (t : List Char) :
    (splitSign t).1 = true ∧ t = '-' :: (splitSign t).2 ∨
      (splitSign t).1 = false ∧ (t = '+' :: (splitSign t).2 ∨ t = (splitSign t).2) := by
  unfold splitSign
  split <;> simp

theorem splitSign_of_digit {d : Char} (hd : d.isDigit = true) (ds : List Char) :
    splitSign (d :: ds) = (false, d :: ds) := by
  unfold splitSign
  split
  · simp_all [Char.isDigit]
  · simp_all [Char.isDigit]
  · rfl

theorem numeral_iff_splitSign {t : List Char} {v : Int} :
    Numeral t v ↔ (splitSign t).2 ≠ [] ∧ (∀ d ∈ (splitSign t).2, d.isDigit) ∧
      v = if (splitSign t).1 then -(digitsValue (splitSign t).2 : Int)
        else digitsValue (splitSign t).2 := by
  constructor
  · rintro ⟨ds, hne, hdig, ⟨rfl | rfl, rfl⟩ | ⟨rfl, rfl⟩⟩
    · obtain ⟨d, ds, rfl⟩ := List.exists_cons_of_ne_nil hne
      rw [splitSign_of_digit (hdig d (by simp))]
      exact ⟨hne, hdig, rfl⟩
    · exact ⟨hne, hdig, rfl⟩
    · exact ⟨hne, hdig, rfl⟩
  · rintro ⟨hne, hdig, hv⟩
    refine ⟨_, hne, hdig, ?_⟩
    rcases splitSign_cases t with ⟨hneg, ht⟩ | ⟨hpos, ht⟩
    · rw [hneg] at hv
      exact Or.inr ⟨ht, hv⟩
    · rw [hpos] at hv
      exact Or.inl ⟨ht.symm, hv⟩

/-- An integer token is a numeral whose value fits a signed 64-bit word. -/
theorem parseInteger_eq_some_iff {t : List Char} {v : Int} :
    parseInteger t = some v ↔
      Numeral t v ∧ -9223372036854775808 ≤ v ∧ v < 9223372036854775808 := by
  rw [numeral_iff_splitSign]
  rcases h : splitSign t with ⟨neg, ds⟩
  simp only [parseInteger, h]
  by_cases hwell : ds ≠ [] ∧ ∀ d ∈ ds, d.isDigit
  · have hcheck : (ds.isEmpty || !ds.all Char.isDigit) = false := by
      have hall : ds.all Char.isDigit = true := List.all_eq_true.mpr hwell.2
      have hnonempty : ds.isEmpty = false := List.isEmpty_eq_false_iff.mpr hwell.1
      rw [hall, hnonempty]
      rfl
    simp only [hcheck, Bool.false_eq_true, if_false]
    generalize (if neg then -(digitsValue ds : Int) else digitsValue ds) = w
    by_cases hr : -9223372036854775808 ≤ w ∧ w < 9223372036854775808
    · simp only [hr, and_self, if_true, Option.some.injEq]
      constructor
      · rintro rfl
        exact ⟨⟨hwell.1, hwell.2, rfl⟩, hr⟩
      · rintro ⟨⟨-, -, rfl⟩, -⟩
        rfl
    · simp only [hr, if_false, reduceCtorEq, false_iff]
      rintro ⟨⟨-, -, rfl⟩, hv⟩
      exact hr hv
  · have hcheck : (ds.isEmpty || !ds.all Char.isDigit) = true := by
      by_cases hne : ds = []
      · simp [hne]
      · have : ¬ ∀ d ∈ ds, d.isDigit := fun hd => hwell ⟨hne, hd⟩
        simpa [hne, List.all_eq_true] using this
    simp only [hcheck, if_true, reduceCtorEq, false_iff]
    rintro ⟨⟨hne, hd, -⟩, -⟩
    exact hwell ⟨hne, hd⟩

/-- A 16-bit token is a numeral of a value below `2 ^ 16`; a sign is allowed, so `-0` and `+7`
are read too. -/
theorem parseHalf_eq_some_iff {t : List Char} {b : Byteword} :
    parseHalf t = some b ↔ Numeral t b.toNat := by
  have hb := b.toNat_lt
  unfold parseHalf
  constructor
  · intro h
    split at h
    · rename_i v hv
      split at h
      · rename_i hr
        cases h
        have hv' := (parseInteger_eq_some_iff.mp hv).1
        have : ((UInt16.ofNat v.toNat).toNat : Int) = v := by
          simp; omega
        rwa [this]
      · cases h
    · cases h
  · intro h
    rw [parseInteger_eq_some_iff.mpr ⟨h, by omega, by simp at hb ⊢; omega⟩]
    simp only [Int.natCast_nonneg, true_and, Int.toNat_natCast]
    rw [if_pos (by simp at hb ⊢; omega)]
    simp

/-- The words a wide immediate can be read as are those written as numerals of their signed
value. -/
theorem parseInteger_ofInt_iff {t : List Char} {w : Word} :
    (∃ v, parseInteger t = some v ∧ Word.ofInt v = w) ↔ Numeral t w.toInt := by
  constructor
  · rintro ⟨v, hv, rfl⟩
    obtain ⟨hn, h₁, h₂⟩ := parseInteger_eq_some_iff.mp hv
    rwa [Word.toInt_ofInt h₁ h₂]
  · intro h
    have hr := w.toInt_mem
    exact ⟨w.toInt, parseInteger_eq_some_iff.mpr ⟨h, hr⟩, Word.ofInt_toInt w⟩

theorem isName_iff {n : List Char} : isName n = true ↔ IsName n := by
  cases n with
  | nil => simp [isName, IsName]
  | cons c cs => simp [isName, IsName, List.all_eq_true]

/-- The characters of a label reference's name. -/
def Ref.chars (r : Ref) : List Char := r.name.toList

namespace Operands

theorem throw_ne_ok {α : Type} {e : Error} {ts rest : List Token} {a : α} :
    (throw e : Operands α) ts ≠ .ok (a, rest) := by
  simp [throw, throwThe, MonadExceptOf.throw, StateT.lift, bind, Except.bind]

theorem half_eq_ok_iff {stop : Nat} {ts rest : List Token} {v : Byteword} :
    half stop ts = .ok (v, rest) ↔ ∃ t, ts = t :: rest ∧ Denotes (.imb v) t.text := by
  simp only [half, bind_eq_ok_iff, next_eq_ok_iff, Denotes]
  constructor
  · rintro ⟨t, mid, rfl, h⟩
    cases hw : parseHalf t.text with
    | none =>
      rw [hw] at h
      exact absurd h throw_ne_ok
    | some w =>
      rw [hw] at h
      obtain ⟨rfl, rfl⟩ := pure_eq_ok_iff.mp h
      exact ⟨t, rfl, parseHalf_eq_some_iff.mp hw⟩
  · rintro ⟨t, rfl, ht⟩
    refine ⟨t, rest, rfl, ?_⟩
    rw [parseHalf_eq_some_iff.mpr ht]
    rfl

theorem register_eq_ok_iff {stop : Nat} {ts rest : List Token} {v : Register} :
    register stop ts = .ok (v, rest) ↔ ∃ t, ts = t :: rest ∧ Denotes (.reg v) t.text := by
  simp only [register, bind_eq_ok_iff, next_eq_ok_iff, Denotes]
  constructor
  · rintro ⟨t, mid, rfl, h⟩
    rcases ht : t.text with _ | ⟨c, u⟩
    · rw [ht] at h
      exact absurd h throw_ne_ok
    · by_cases hc : c = '%'
      · subst hc
        rw [ht] at h
        cases hw : parseHalf u with
        | none =>
          simp only [hw] at h
          exact absurd h throw_ne_ok
        | some w =>
          simp only [hw] at h
          obtain ⟨rfl, rfl⟩ := pure_eq_ok_iff.mp h
          exact ⟨t, rfl, u, ht, parseHalf_eq_some_iff.mp hw⟩
      · rw [ht] at h
        simp [hc] at h
        exact absurd h throw_ne_ok
  · rintro ⟨t, rfl, u, ht, hu⟩
    refine ⟨t, rest, rfl, ?_⟩
    rw [ht]
    simp only [parseHalf_eq_some_iff.mpr hu]
    rfl

theorem wide_eq_ok_iff {stop : Nat} {ts rest : List Token} {w : Word} :
    wide stop ts = .ok (w, rest) ↔ ∃ t, ts = t :: rest ∧ Denotes (.imw w) t.text := by
  simp only [wide, bind_eq_ok_iff, next_eq_ok_iff, Denotes]
  constructor
  · rintro ⟨t, mid, rfl, h⟩
    cases hv : parseInteger t.text with
    | none =>
      rw [hv] at h
      exact absurd h throw_ne_ok
    | some v =>
      rw [hv] at h
      obtain ⟨rfl, rfl⟩ := pure_eq_ok_iff.mp h
      exact ⟨t, rfl, parseInteger_ofInt_iff.mp ⟨v, hv, rfl⟩⟩
  · rintro ⟨t, rfl, ht⟩
    obtain ⟨v, hv, rfl⟩ := parseInteger_ofInt_iff.mpr ht
    refine ⟨t, rest, rfl, ?_⟩
    rw [hv]
    rfl

theorem target_eq_ok_iff {stop : Nat} {ts rest : List Token} {r : Ref} :
    target stop ts = .ok (r, rest) ↔
      ∃ t n, ts = t :: rest ∧ t.text = ':' :: n ∧ IsName n ∧ r = ⟨String.ofList n, t.span⟩ := by
  simp only [target, bind_eq_ok_iff, next_eq_ok_iff]
  constructor
  · rintro ⟨t, mid, rfl, h⟩
    rcases ht : t.text with _ | ⟨c, n⟩
    · rw [ht] at h
      exact absurd h throw_ne_ok
    · by_cases hc : c = ':'
      · subst hc
        rw [ht] at h
        by_cases hn : isName n = true
        · simp only [hn, if_true] at h
          obtain ⟨rfl, rfl⟩ := pure_eq_ok_iff.mp h
          exact ⟨t, n, rfl, ht, isName_iff.mp hn, rfl⟩
        · simp only [hn] at h
          exact absurd h throw_ne_ok
      · rw [ht] at h
        simp [hc] at h
        exact absurd h throw_ne_ok
  · rintro ⟨t, n, rfl, ht, hn, rfl⟩
    refine ⟨t, rest, rfl, ?_⟩
    rw [ht]
    simp only [isName_iff.mpr hn, if_true]
    rfl

/-- A register read followed by the rest of a reader: the register is the first token. -/
theorem register_bind_eq_ok_iff {β : Type} {stop : Nat} {f : Register → Operands β}
    {ts rest : List Token} {b : β} :
    (register stop >>= f) ts = .ok (b, rest) ↔
      ∃ t mid v, ts = t :: mid ∧ Denotes (.reg v) t.text ∧ f v mid = .ok (b, rest) := by
  simp only [bind_eq_ok_iff, register_eq_ok_iff]
  constructor
  · rintro ⟨v, mid, ⟨t, rfl, ht⟩, h⟩
    exact ⟨t, mid, v, rfl, ht, h⟩
  · rintro ⟨t, mid, v, rfl, ht, h⟩
    exact ⟨v, mid, ⟨t, rfl, ht⟩, h⟩

/-- A label reference followed by the rest of a reader: the reference is the first token, and
it keeps that token's span. -/
theorem target_bind_eq_ok_iff {β : Type} {stop : Nat} {f : Ref → Operands β}
    {ts rest : List Token} {b : β} :
    (target stop >>= f) ts = .ok (b, rest) ↔
      ∃ t mid n, ts = t :: mid ∧ Denotes (.loc n) t.text ∧
        f ⟨String.ofList n, t.span⟩ mid = .ok (b, rest) := by
  simp only [bind_eq_ok_iff, target_eq_ok_iff, Denotes]
  constructor
  · rintro ⟨r, mid, ⟨t, n, rfl, ht, hn, rfl⟩, h⟩
    exact ⟨t, mid, n, rfl, ⟨ht, hn⟩, h⟩
  · rintro ⟨t, mid, n, rfl, ⟨ht, hn⟩, h⟩
    exact ⟨_, mid, ⟨t, n, rfl, ht, hn, rfl⟩, h⟩

/-- The tokens `ts` begin with one token for each operand, each writing its operand, and `rest`
follows them. -/
def Writes : List (Operand (List Char)) → List Token → List Token → Prop
  | [], ts, rest => ts = rest
  | o :: os, ts, rest => ∃ t mid, ts = t :: mid ∧ Denotes o t.text ∧ Writes os mid rest

/-- The operands of an opcode other than `sys` are read exactly when the tokens write them, in
table order; the reader returns them with their references named by the tokens. -/
theorem instruction_eq_ok_iff {stop : Nat} {j : Instruction (List Char)} (hj : j.opcode ≠ .sys)
    {ts rest : List Token} :
    (∃ i, instruction stop j.opcode ts = .ok (i, rest) ∧ i.map Ref.chars = j) ↔
      Writes j.operands ts rest := by
  cases j with
  | sys c => exact absurd rfl hj
  | binary op a b c =>
    cases op <;> simp only [instruction, Instruction.opcode, BinaryOp.opcode, Writes,
      Instruction.operands, register_bind_eq_ok_iff, map_eq_ok_iff, register_eq_ok_iff,
      Instruction.map, bind_pure_comp, Instruction.binary.injEq, exists_and_left,
      exists_and_right, exists_eq_right, exists_eq_right_right, and_true, true_and, existsAndEq]
  | _ =>
    simp only [instruction, Instruction.opcode, Writes, Instruction.operands,
      register_bind_eq_ok_iff, target_bind_eq_ok_iff, pure_eq_ok_iff, map_eq_ok_iff,
      half_eq_ok_iff, register_eq_ok_iff, wide_eq_ok_iff, target_eq_ok_iff, Instruction.map,
      Ref.chars, Denotes, String.toList_ofList, bind_pure_comp, Instruction.arg.injEq,
      Instruction.cas.injEq, Instruction.frm.injEq, Instruction.jmp.injEq, Instruction.jnz.injEq,
      Instruction.loa.injEq, Instruction.loc.injEq, Instruction.mov.injEq, Instruction.res.injEq,
      Instruction.ret.injEq, Instruction.sca.injEq, Instruction.sto.injEq, exists_and_left,
      exists_and_right, exists_eq_right, exists_eq_right_right, exists_exists_and_eq_and,
      and_true, true_and, existsAndEq]

theorem writes_nil_iff {os : List (Operand (List Char))} {ts : List Token} :
    Writes os ts [] ↔ List.Forall₂ Denotes os (ts.map Token.text) := by
  induction os generalizing ts with
  | nil => cases ts <;> simp [Writes]
  | cons o os ih =>
    cases ts with
    | nil => simp [Writes]
    | cons t ts => simp [Writes, ih]

/-- A mnemonic is looked up exactly when it is written as in the table. -/
theorem syscall_lookup_iff {m : List Char} {s : Syscall} :
    (if isMnemonic m then Syscall.ofMnemonic? (String.ofList m) else none) = some s ↔
      m = s.mnemonic.toList := by
  constructor
  · intro h
    split at h
    · have hs := List.find?_some h
      simp only [beq_iff_eq] at hs
      rw [hs, String.toList_ofList]
    · cases h
  · rintro rfl
    have hm : isMnemonic s.mnemonic.toList = true := by cases s <;> decide
    rw [if_pos hm, String.ofList_toList, Syscall.ofMnemonic?_mnemonic]

theorem opcode_lookup_iff {m : List Char} {o : Opcode} :
    (if isMnemonic m then Opcode.ofMnemonic? (String.ofList m) else none) = some o ↔
      m = o.mnemonic.toList := by
  constructor
  · intro h
    split at h
    · have ho := List.find?_some h
      simp only [beq_iff_eq] at ho
      rw [ho, String.toList_ofList]
    · cases h
  · rintro rfl
    have hm : isMnemonic o.mnemonic.toList = true := by cases o <;> decide
    rw [if_pos hm, String.ofList_toList, Opcode.ofMnemonic?_mnemonic]

/-- The reader of an opcode's operands returns an instruction of that opcode. -/
theorem opcode_of_instruction_eq_ok {stop : Nat} {op : Opcode} {ts rest : List Token}
    {i : Instruction Ref} (h : instruction stop op ts = .ok (i, rest)) : i.opcode = op := by
  cases op <;> simp only [instruction, bind_eq_ok_iff, pure_eq_ok_iff] at h
  all_goals first
    | (obtain ⟨-, -, -, rfl, -⟩ := h; rfl)
    | (obtain ⟨-, -, -, -, -, -, rfl, -⟩ := h; rfl)
    | (obtain ⟨-, -, -, -, -, -, -, -, -, rfl, -⟩ := h; rfl)
    | (obtain ⟨rfl, -⟩ := h; rfl)

/-- After `sys`, the call is read exactly when its mnemonic is followed by its operands. -/
theorem systemCall_eq_ok_iff {stop : Nat} {ts rest : List Token} {c : SystemCall} :
    systemCall stop ts = .ok (c, rest) ↔
      ∃ t mid, ts = t :: mid ∧ t.text = c.syscall.mnemonic.toList ∧
        Writes (Instruction.sys c).operands mid rest := by
  simp only [systemCall, bind_eq_ok_iff, next_eq_ok_iff]
  constructor
  · rintro ⟨t, mid, rfl, h⟩
    refine ⟨t, mid, rfl, ?_⟩
    generalize hl : (if isMnemonic t.text = true then Syscall.ofMnemonic? (String.ofList t.text)
      else none) = l at h
    rcases l with _ | s
    · exact absurd h throw_ne_ok
    · rw [syscall_lookup_iff] at hl
      cases s <;> cases c <;> simp [SystemCall.syscall, Instruction.operands,
        SystemCall.registers, Writes, pure_eq_ok_iff, map_eq_ok_iff, register_eq_ok_iff] at h ⊢ <;>
        aesop
  · rintro ⟨t, mid, rfl, ht, hw⟩
    refine ⟨t, mid, rfl, ?_⟩
    rw [syscall_lookup_iff.mpr ht]
    cases c <;> simp [SystemCall.syscall, Instruction.operands, SystemCall.registers, Writes,
      pure_eq_ok_iff, map_eq_ok_iff, register_eq_ok_iff] at hw ⊢ <;> aesop

end Operands

end WindowVm.Assembly