import WindowVm.Proofs.Reassembly

/-!
# Decoding any stream

Decoding at an offset of a stream of bytewords reads the layout of one instruction piece by
piece. `Bytecode.Reads` follows a layout through a stream as it is, not only through streams the
writer made: each piece found moves on to the next, and a piece that runs past the end of the
stream stops the read with that piece's fault (`Piece.endFault`). Decoding is that read
(`Instruction.decode_reads`).

Main statement (`Instruction.decode_inverse_modulo_padding`): decoding at offset `p` succeeds
with the instruction `i` and ends at `q` exactly when the stream holds, from `p` to `q`, what
pushing `i` onto a buffer of `p` bytewords appends, except at the zero padding in front of its
words; and it fails exactly where one of the three faults of `DecodeFault` shows: a tag that
names no opcode, a tag after `sys` that names no system call, or a stream that ends inside a
layout, the fault naming the offset where the read that ran out started.

Offsets and locations are machine words: the stream's length rounded up to a word boundary, and
every location, are below `2 ^ 64`.
-/

namespace WindowVm

open Bytecode

theorem lt_size_of_getElem? {a : Array Byteword} {m : Nat} {b : Byteword} (h : a[m]? = some b) :
    m < a.size :=
  (Array.getElem?_eq_some_iff.mp h).1

theorem alignUp_succ_lt {a : Array Byteword} {m : Nat} {b : Byteword} (h : a[m]? = some b)
    (hfit : alignUp a.size < 2 ^ 64) : alignUp (m + 1) < 2 ^ 64 :=
  Nat.lt_of_le_of_lt (alignUp_mono (lt_size_of_getElem? h)) hfit

namespace Cursor

/-! ### The three reads on any stream, each way they can end -/

theorem readHalf_of_lt {a : Array Byteword} {n : Nat} (h : a.size < n + 1) :
    readHalf ⟨a, n⟩ = .error (.unexpectedEnd n 1 (a.size - n)) := by
  simp [readHalf_eq, Array.getElem?_eq_none (Nat.le_of_lt_succ h)]

theorem readHalf_bind_error {β : Type} {a : Array Byteword} {n : Nat}
    {k : Byteword × Cursor → Except Fault β} {e : Fault} (h : (readHalf ⟨a, n⟩ >>= k) = .error e) :
    (a.size < n + 1 ∧ e = .unexpectedEnd n 1 (a.size - n)) ∨
      ∃ b, a[n]? = some b ∧ k (b, ⟨a, n + 1⟩) = .error e := by
  rw [readHalf_eq] at h
  cases hn : a[n]? with
  | none =>
    simp only [hn, Option.elim_none, bind, Except.bind, Except.error.injEq] at h
    exact .inl ⟨Nat.lt_succ_of_le (Array.getElem?_eq_none_iff.mp hn), h.symm⟩
  | some b =>
    simp only [hn, Option.elim_some, bind, Except.bind] at h
    exact .inr ⟨b, rfl, h⟩

theorem readWord_of_lt {a : Array Byteword} {n : Nat} (h : a.size < alignUp n + 4)
    (hb : alignUp n < 2 ^ 64) :
    readWord ⟨a, n⟩ = .error (.unexpectedEnd n 4 (a.size - alignUp n)) := by
  simp [readWord, wordStart_of_lt hb, Nat.not_le.mpr h]

theorem readWord_eq_error {a : Array Byteword} {n : Nat} {e : Fault}
    (h : readWord ⟨a, n⟩ = .error e) (hb : alignUp n < 2 ^ 64) :
    a.size < alignUp n + 4 ∧ e = .unexpectedEnd n 4 (a.size - alignUp n) := by
  unfold readWord at h
  simp only [wordStart_of_lt hb] at h
  split at h
  · cases h
  · cases h
    exact ⟨by omega, rfl⟩

theorem readWord_bind_error {β : Type} {a : Array Byteword} {n : Nat}
    {k : Word × Cursor → Except Fault β} {e : Fault} (h : (readWord ⟨a, n⟩ >>= k) = .error e)
    (hn : n ≤ a.size) (hfit : alignUp a.size < 2 ^ 64) :
    (a.size < alignUp n + 4 ∧ e = .unexpectedEnd n 4 (a.size - alignUp n)) ∨
      ∃ w, WordAt a (alignUp n) w ∧ k (w, ⟨a, alignUp n + 4⟩) = .error e := by
  cases hw : readWord ⟨a, n⟩ with
  | error e' =>
    rw [hw] at h
    cases h
    exact .inl (readWord_eq_error hw (Nat.lt_of_le_of_lt (alignUp_mono hn) hfit))
  | ok x =>
    obtain ⟨w, c⟩ := x
    obtain ⟨hwat, rfl⟩ := readWord_eq_ok hw hn hfit
    rw [hw] at h
    exact .inr ⟨w, hwat, h⟩

theorem readPlace_bind_error {β : Type} {a : Array Byteword} {n : Nat}
    {k : Nat × Cursor → Except Fault β} {e : Fault} (h : (readPlace ⟨a, n⟩ >>= k) = .error e)
    (hn : n ≤ a.size) (hfit : alignUp a.size < 2 ^ 64) :
    (a.size < alignUp n + 4 ∧ e = .unexpectedEnd n 4 (a.size - alignUp n)) ∨
      ∃ l, WordAt a (alignUp n) (Word.ofNat l) ∧ k (l, ⟨a, alignUp n + 4⟩) = .error e := by
  cases hl : readPlace ⟨a, n⟩ with
  | error e' =>
    rw [hl] at h
    cases h
    unfold readPlace at hl
    cases hw : readWord ⟨a, n⟩ with
    | error e'' =>
      simp only [hw, Except.error.injEq] at hl
      subst hl
      exact .inl (readWord_eq_error hw (Nat.lt_of_le_of_lt (alignUp_mono hn) hfit))
    | ok x => simp [hw] at hl
  | ok x =>
    obtain ⟨l, c⟩ := x
    obtain ⟨hwat, rfl⟩ := readPlace_eq_ok hl hn hfit
    rw [hl] at h
    exact .inr ⟨l, hwat, h⟩

end Cursor

open Cursor

/-- The fault of reading the piece `x` at offset `n` of a stream of `size` bytewords that ends
before the piece does: where the cursor stood, how many bytewords the piece takes, and how many
were left from where it starts. -/
def Piece.endFault {L : Type} (size n : Nat) : Piece L → Fault
  | .half _ => .unexpectedEnd n 1 (size - n)
  | .word _ => .unexpectedEnd n 4 (size - alignUp n)
  | .place _ => .unexpectedEnd n 4 (size - alignUp n)

namespace Bytecode

/-- Reading the layout `ps` from offset `n` of the stream `a`, piece by piece, as the stream
holds it: it ends at an offset once every piece is found, or fails at the first piece that runs
past the end of the stream. -/
inductive Reads (a : Array Byteword) : Nat → List (Piece Nat) → Except Fault Nat → Prop
  | nil {n : Nat} : Reads a n [] (.ok n)
  | short {n : Nat} {x : Piece Nat} {ps : List (Piece Nat)} :
      a.size < pieceSize n x → Reads a n (x :: ps) (.error (x.endFault a.size n))
  | cons {n : Nat} {x : Piece Nat} {ps : List (Piece Nat)} {r : Except Fault Nat} :
      PieceAt a n x → Reads a (pieceSize n x) ps r → Reads a n (x :: ps) r

theorem reads_nil_iff {a : Array Byteword} {n : Nat} {r : Except Fault Nat} :
    Reads a n [] r ↔ r = .ok n := by
  constructor
  · rintro ⟨⟩
    rfl
  · rintro rfl
    exact .nil

theorem reads_cons_iff {a : Array Byteword} {n : Nat} {x : Piece Nat} {ps : List (Piece Nat)}
    {r : Except Fault Nat} :
    Reads a n (x :: ps) r ↔
      (a.size < pieceSize n x ∧ r = .error (x.endFault a.size n)) ∨
        (PieceAt a n x ∧ Reads a (pieceSize n x) ps r) := by
  constructor
  · rintro (_ | ⟨hs⟩ | ⟨hx, hr⟩)
    · exact .inl ⟨hs, rfl⟩
    · exact .inr ⟨hx, hr⟩
  · rintro (⟨hs, rfl⟩ | ⟨hx, hr⟩)
    · exact .short hs
    · exact .cons hx hr

/-- A read that finds every piece is the layout held by the stream. -/
theorem reads_ok_iff_holds {a : Array Byteword} {n q : Nat} {ps : List (Piece Nat)} :
    Reads a n ps (.ok q) ↔ Holds a n ps q := by
  induction ps generalizing n with
  | nil => simp [reads_nil_iff, Holds]
  | cons x ps ih => simp [reads_cons_iff, Holds, ih]

end Bytecode

/-! ### Decoding is the read of a layout -/

theorem SystemCall.decode_of_reads_error {a : Array Byteword} {p : Nat} {call : SystemCall}
    {e : Fault} (h : Reads a p (.half call.syscall.tag :: call.registers.map .half) (.error e)) :
    SystemCall.decode ⟨a, p⟩ = .error e := by
  cases call <;>
    simp only [reads_cons_iff, reads_nil_iff, PieceAt, pieceSize, SystemCall.registers,
      List.map, Piece.endFault, Except.error.injEq, reduceCtorEq, and_false, or_false] at h <;>
    casesm* _ ∨ _, _ ∧ _ <;> subst_vars <;>
    simp_all [SystemCall.decode, readHalf_eq, Syscall.ofTag?_tag, SystemCall.syscall, bind,
      Except.bind]

/-- Decoding past the end of the stream fails on its tag. -/
theorem Instruction.decode_of_lt {a : Array Byteword} {p : Nat} (hs : a.size < p + 1) :
    Instruction.decode ⟨a, p⟩ = .error (.unexpectedEnd p 1 (a.size - p)) := by
  simp [Instruction.decode, readHalf_of_lt hs, bind, Except.bind]

/-- After the tag of a two-register opcode, decoding reads its three registers. -/
theorem Instruction.decode_of_binary_tag {a : Array Byteword} {p : Nat} {op : BinaryOp}
    (h0 : a[p]? = some op.opcode.tag) :
    Instruction.decode ⟨a, p⟩ = Instruction.decodeBinary op ⟨a, p + 1⟩ := by
  cases op <;> simp [Instruction.decode, readHalf_eq, h0, Opcode.ofTag?_tag, BinaryOp.opcode, bind,
    Except.bind]

/-- Where the stream ends inside the layout of an instruction, decoding fails with the fault of
the piece that runs out. -/
theorem Instruction.decode_of_reads_error {a : Array Byteword} {p : Nat} {i : Instruction Nat}
    {e : Fault} (h : Reads a p i.pieces (.error e)) (hfit : alignUp a.size < 2 ^ 64) :
    Instruction.decode ⟨a, p⟩ = .error e := by
  cases i with
  | sys call =>
    rw [Instruction.pieces, reads_cons_iff, Except.error.injEq] at h
    rcases h with ⟨hs, rfl⟩ | ⟨h0, h⟩
    · exact Instruction.decode_of_lt hs
    · simp only [PieceAt, pieceSize] at h0 h
      simp [Instruction.decode, readHalf_eq, h0, Opcode.ofTag?_tag,
        SystemCall.decode_of_reads_error h, bind, Except.bind]
  | cas l | jmp l =>
    simp only [Instruction.pieces, reads_cons_iff, reads_nil_iff, PieceAt, pieceSize,
      Piece.endFault, Except.error.injEq, reduceCtorEq, and_false, or_false] at h
    rcases h with ⟨hs, rfl⟩ | ⟨h0, hs, rfl⟩
    · exact Instruction.decode_of_lt hs
    · simp [Instruction.decode, readHalf_eq, h0, Opcode.ofTag?_tag, readPlace,
        readWord_of_lt hs (alignUp_succ_lt h0 hfit), bind, Except.bind]
  | sca r w =>
    simp only [Instruction.pieces, reads_cons_iff, reads_nil_iff, PieceAt, pieceSize,
      Piece.endFault, Except.error.injEq, reduceCtorEq, and_false, or_false] at h
    rcases h with ⟨hs, rfl⟩ | ⟨h0, ⟨hs, rfl⟩ | ⟨h1, hs, rfl⟩⟩
    · exact Instruction.decode_of_lt hs
    · simp [Instruction.decode, readHalf_eq, h0, Opcode.ofTag?_tag, readHalf_of_lt hs, bind,
        Except.bind]
    · simp [Instruction.decode, readHalf_eq, h0, h1, Opcode.ofTag?_tag,
        readWord_of_lt hs (alignUp_succ_lt h1 hfit), bind, Except.bind]
  | loc r l =>
    simp only [Instruction.pieces, reads_cons_iff, reads_nil_iff, PieceAt, pieceSize,
      Piece.endFault, Except.error.injEq, reduceCtorEq, and_false, or_false] at h
    rcases h with ⟨hs, rfl⟩ | ⟨h0, ⟨hs, rfl⟩ | ⟨h1, hs, rfl⟩⟩
    · exact Instruction.decode_of_lt hs
    · simp [Instruction.decode, readHalf_eq, h0, Opcode.ofTag?_tag, readHalf_of_lt hs, bind,
        Except.bind]
    · simp [Instruction.decode, readHalf_eq, h0, h1, Opcode.ofTag?_tag, readPlace,
        readWord_of_lt hs (alignUp_succ_lt h1 hfit), bind, Except.bind]
  | jnz l r =>
    simp only [Instruction.pieces, reads_cons_iff, reads_nil_iff, PieceAt, pieceSize,
      Piece.endFault, Except.error.injEq, reduceCtorEq, and_false, or_false] at h
    rcases h with ⟨hs, rfl⟩ | ⟨h0, ⟨hs, rfl⟩ | ⟨h1, hs, rfl⟩⟩
    · exact Instruction.decode_of_lt hs
    · simp [Instruction.decode, readHalf_eq, h0, Opcode.ofTag?_tag, readPlace,
        readWord_of_lt hs (alignUp_succ_lt h0 hfit), bind, Except.bind]
    · simp [Instruction.decode, readHalf_eq, h0, Opcode.ofTag?_tag, readHalf_of_lt hs,
        readPlace_of_wordAt h1 (alignUp_succ_lt h0 hfit), bind, Except.bind]
  | binary op d x y =>
    simp only [Instruction.pieces, reads_cons_iff, reads_nil_iff, PieceAt, pieceSize,
      Piece.endFault, Except.error.injEq, reduceCtorEq, and_false, or_false] at h
    rcases h with ⟨hs, rfl⟩ | ⟨h0, h⟩
    · exact Instruction.decode_of_lt hs
    · rw [Instruction.decode_of_binary_tag h0]
      casesm* _ ∨ _, _ ∧ _ <;> subst_vars <;>
        simp_all [Instruction.decodeBinary, readHalf_eq, bind, Except.bind]
  | _ =>
    simp only [Instruction.pieces, reads_cons_iff, reads_nil_iff, PieceAt, pieceSize,
      Piece.endFault, Except.error.injEq, reduceCtorEq, and_false, or_false] at h
    casesm* _ ∨ _, _ ∧ _ <;> subst_vars <;>
      simp_all [Instruction.decode, readHalf_eq, Opcode.ofTag?_tag, bind, Except.bind]

/-- Every layout starts with the opcode's tag, so a layout found in a stream starts inside it. -/
theorem Instruction.lt_size_of_holds {a : Array Byteword} {n q : Nat} {i : Instruction Nat}
    (h : Holds a n i.pieces q) : n < a.size := by
  cases i <;> exact lt_size_of_getElem? h.1

/-- Decoding reads the layout of the instruction it returns: where the stream holds the layout it
returns the instruction, its locations taken as machine words, and where the stream ends inside
the layout it fails as the read does. -/
theorem Instruction.decode_reads {a : Array Byteword} {p : Nat} {i : Instruction Nat}
    {r : Except Fault Nat} (h : Reads a p i.pieces r) (hfit : alignUp a.size < 2 ^ 64) :
    Instruction.decode ⟨a, p⟩ = r.map fun q => (i.map (· % 2 ^ 64), ⟨a, q⟩) := by
  cases r with
  | ok q =>
    have hq := reads_ok_iff_holds.mp h
    have hend := hq.le_size (Nat.le_of_lt (Instruction.lt_size_of_holds hq))
    have := le_alignUp a.size
    rw [Instruction.decode_of_holds hq (by omega)]
    rfl
  | error e => exact Instruction.decode_of_reads_error h hfit

/-! ### The faults -/

/-- How decoding at offset `p` of the stream `a` fails: the tag there names no opcode, the tag
after `sys` names no system call, or the stream holds the start of some instruction's layout and
ends inside it. -/
inductive DecodeFault (a : Array Byteword) (p : Nat) : Fault → Prop
  | invalidOpcode {t : Byteword} : a[p]? = some t → Opcode.ofTag? t = none →
      DecodeFault a p (.invalidOpcode t p)
  | invalidSyscall {t : Byteword} : a[p]? = some Opcode.sys.tag → a[p + 1]? = some t →
      Syscall.ofTag? t = none → DecodeFault a p (.invalidSyscall t (p + 1))
  | runsOut {i : Instruction Nat} {e : Fault} : Reads a p i.pieces (.error e) → DecodeFault a p e

/-- A system call fails to decode on an unknown tag, or runs out inside some call's layout. -/
theorem SystemCall.decodeFault_of_error {a : Array Byteword} {n : Nat} {e : Fault}
    (h : SystemCall.decode ⟨a, n⟩ = .error e) :
    (∃ t, a[n]? = some t ∧ Syscall.ofTag? t = none ∧ e = .invalidSyscall t n) ∨
      ∃ call : SystemCall,
        Reads a n (.half call.syscall.tag :: call.registers.map .half) (.error e) := by
  obtain ⟨hs, rfl⟩ | ⟨t, h0, h⟩ := readHalf_bind_error h
  · exact .inr ⟨.nop, .short hs⟩
  cases hsc : Syscall.ofTag? t with
  | none =>
    simp only [hsc, throw, throwThe, MonadExceptOf.throw, Except.error.injEq] at h
    exact .inl ⟨t, h0, hsc, h.symm⟩
  | some s =>
    obtain rfl := Syscall.tag_of_ofTag? hsc
    cases s <;> simp only [hsc] at h
    case exit =>
      obtain ⟨hs, rfl⟩ | ⟨r, -, h⟩ := readHalf_bind_error h
      · exact .inr ⟨.exit 0, .cons h0 (.short hs)⟩
      · cases h
    case dbg =>
      obtain ⟨hs, rfl⟩ | ⟨r, -, h⟩ := readHalf_bind_error h
      · exact .inr ⟨.dbg 0, .cons h0 (.short hs)⟩
      · cases h
    all_goals cases h

theorem Instruction.decodeBinary_fault {a : Array Byteword} {p : Nat} {op : BinaryOp}
    {e : Fault} (h : Instruction.decodeBinary op ⟨a, p + 1⟩ = .error e)
    (h0 : a[p]? = some op.opcode.tag) : DecodeFault a p e := by
  obtain ⟨hs, rfl⟩ | ⟨d, h1, h⟩ := readHalf_bind_error h
  · exact .runsOut (i := .binary op 0 0 0) (.cons h0 (.short hs))
  obtain ⟨hs, rfl⟩ | ⟨x, h2, h⟩ := readHalf_bind_error h
  · exact .runsOut (i := .binary op d 0 0) (.cons h0 (.cons h1 (.short hs)))
  obtain ⟨hs, rfl⟩ | ⟨y, -, h⟩ := readHalf_bind_error h
  · exact .runsOut (i := .binary op d x 0) (.cons h0 (.cons h1 (.cons h2 (.short hs))))
  · cases h

/-- Every fault of decoding is one of the three: each read that runs out is the read of the
operands found so far, followed by any value for those not yet read. -/
theorem Instruction.decodeFault_of_error {a : Array Byteword} {p : Nat} {e : Fault}
    (h : Instruction.decode ⟨a, p⟩ = .error e) (hfit : alignUp a.size < 2 ^ 64) :
    DecodeFault a p e := by
  obtain ⟨hs, rfl⟩ | ⟨t, h0, h⟩ := readHalf_bind_error h
  · exact .runsOut (i := .nop) (.short hs)
  cases hop : Opcode.ofTag? t with
  | none =>
    simp only [hop, throw, throwThe, MonadExceptOf.throw, Except.error.injEq] at h
    subst h
    exact .invalidOpcode h0 hop
  | some op =>
    obtain rfl := Opcode.tag_of_ofTag? hop
    have hp := lt_size_of_getElem? h0
    cases op <;> simp only [hop] at h
    case sys =>
      rcases Except.bind_eq_error_iff.mp h with h | ⟨_, -, h⟩
      · rcases SystemCall.decodeFault_of_error h with ⟨t, h1, hsc, rfl⟩ | ⟨call, hr⟩
        · exact .invalidSyscall h0 h1 hsc
        · exact .runsOut (i := .sys call) (.cons h0 hr)
      · cases h
    case nop => cases h
    case frm =>
      obtain ⟨hs, rfl⟩ | ⟨n, -, h⟩ := readHalf_bind_error h
      · exact .runsOut (i := .frm 0) (.cons h0 (.short hs))
      · cases h
    case arg =>
      obtain ⟨hs, rfl⟩ | ⟨r, -, h⟩ := readHalf_bind_error h
      · exact .runsOut (i := .arg 0) (.cons h0 (.short hs))
      · cases h
    case res =>
      obtain ⟨hs, rfl⟩ | ⟨n, -, h⟩ := readHalf_bind_error h
      · exact .runsOut (i := .res 0) (.cons h0 (.short hs))
      · cases h
    case cas =>
      obtain ⟨hs, rfl⟩ | ⟨l, -, h⟩ := readPlace_bind_error h hp hfit
      · exact .runsOut (i := .cas 0) (.cons h0 (.short hs))
      · cases h
    case jmp =>
      obtain ⟨hs, rfl⟩ | ⟨l, -, h⟩ := readPlace_bind_error h hp hfit
      · exact .runsOut (i := .jmp 0) (.cons h0 (.short hs))
      · cases h
    case ret =>
      obtain ⟨hs, rfl⟩ | ⟨r, h1, h⟩ := readHalf_bind_error h
      · exact .runsOut (i := .ret 0 0) (.cons h0 (.short hs))
      obtain ⟨hs, rfl⟩ | ⟨n, -, h⟩ := readHalf_bind_error h
      · exact .runsOut (i := .ret r 0) (.cons h0 (.cons h1 (.short hs)))
      · cases h
    case loa =>
      obtain ⟨hs, rfl⟩ | ⟨d, h1, h⟩ := readHalf_bind_error h
      · exact .runsOut (i := .loa 0 0) (.cons h0 (.short hs))
      obtain ⟨hs, rfl⟩ | ⟨r, -, h⟩ := readHalf_bind_error h
      · exact .runsOut (i := .loa d 0) (.cons h0 (.cons h1 (.short hs)))
      · cases h
    case sto =>
      obtain ⟨hs, rfl⟩ | ⟨d, h1, h⟩ := readHalf_bind_error h
      · exact .runsOut (i := .sto 0 0) (.cons h0 (.short hs))
      obtain ⟨hs, rfl⟩ | ⟨r, -, h⟩ := readHalf_bind_error h
      · exact .runsOut (i := .sto d 0) (.cons h0 (.cons h1 (.short hs)))
      · cases h
    case mov =>
      obtain ⟨hs, rfl⟩ | ⟨d, h1, h⟩ := readHalf_bind_error h
      · exact .runsOut (i := .mov 0 0) (.cons h0 (.short hs))
      obtain ⟨hs, rfl⟩ | ⟨r, -, h⟩ := readHalf_bind_error h
      · exact .runsOut (i := .mov d 0) (.cons h0 (.cons h1 (.short hs)))
      · cases h
    case sca =>
      obtain ⟨hs, rfl⟩ | ⟨r, h1, h⟩ := readHalf_bind_error h
      · exact .runsOut (i := .sca 0 Word.zero) (.cons h0 (.short hs))
      obtain ⟨hs, rfl⟩ | ⟨w, -, h⟩ := readWord_bind_error h (lt_size_of_getElem? h1) hfit
      · exact .runsOut (i := .sca r Word.zero) (.cons h0 (.cons h1 (.short hs)))
      · cases h
    case loc =>
      obtain ⟨hs, rfl⟩ | ⟨r, h1, h⟩ := readHalf_bind_error h
      · exact .runsOut (i := .loc 0 0) (.cons h0 (.short hs))
      obtain ⟨hs, rfl⟩ | ⟨l, -, h⟩ := readPlace_bind_error h (lt_size_of_getElem? h1) hfit
      · exact .runsOut (i := .loc r 0) (.cons h0 (.cons h1 (.short hs)))
      · cases h
    case jnz =>
      obtain ⟨hs, rfl⟩ | ⟨l, h1, h⟩ := readPlace_bind_error h hp hfit
      · exact .runsOut (i := .jnz 0 0) (.cons h0 (.short hs))
      obtain ⟨hs, rfl⟩ | ⟨r, -, h⟩ := readHalf_bind_error h
      · exact .runsOut (i := .jnz l 0) (.cons h0 (.cons h1 (.short hs)))
      · cases h
    all_goals exact Instruction.decodeBinary_fault h h0

/-- Each of the three faults is what decoding raises where the stream shows it. -/
theorem Instruction.decode_of_decodeFault {a : Array Byteword} {p : Nat} {e : Fault}
    (h : DecodeFault a p e) (hfit : alignUp a.size < 2 ^ 64) :
    Instruction.decode ⟨a, p⟩ = .error e := by
  cases h with
  | invalidOpcode h0 hop =>
    simp [Instruction.decode, readHalf_eq, h0, hop, bind, Except.bind, throw, throwThe,
      MonadExceptOf.throw]
  | invalidSyscall h0 h1 hsc =>
    simp [Instruction.decode, SystemCall.decode, readHalf_eq, h0, h1, hsc, Opcode.ofTag?_tag,
      bind, Except.bind, throw, throwThe, MonadExceptOf.throw]
  | runsOut hr =>
    rw [Instruction.decode_reads hr hfit]
    rfl

/-! ### Agreeing with a push but for its padding -/

namespace Bytecode

/-- A word pushed where the stream agrees with the word's own bytewords is found there. -/
theorem wordAt_of_agree {a : Array Byteword} {c : Bytecode} {w : Word}
    (h : ∀ k < 4, a[alignUp c.size + k]? = (c.writeWord w).words[alignUp c.size + k]?) :
    WordAt a (alignUp c.size) w := fun k hk => by
  rw [h k hk, getElem?_writeWord_word c w hk]

/-- A piece pushed where the stream agrees with what it writes, but for its padding, is found
there. -/
theorem PieceAt.of_agree {a : Array Byteword} {c : Bytecode} {x : Piece Nat}
    (h : ∀ j, c.size ≤ j → j < pieceSize c.size x → j ∉ gap c.size x →
      a[j]? = (c.writePiece x).words[j]?) :
    PieceAt a c.size x := by
  have hle := le_alignUp c.size
  have hword : ∀ k < 4, alignUp c.size + k ∉ List.range' c.size (alignUp c.size - c.size) := by
    intro k hk
    simp only [List.mem_range'_1]
    omega
  cases x with
  | half b =>
    have := h c.size (Nat.le_refl _) (by simp [pieceSize]) (by simp [gap])
    simpa [PieceAt, writePiece, getElem?_writeHalf] using this
  | word _ | place _ =>
    exact wordAt_of_agree fun k hk =>
      h _ (by omega) (by simp [pieceSize]; omega) (by simpa [gap] using hword k hk)

/-- Pieces pushed where the stream agrees with what they write, but for their padding, are found
there, ending where the push ends. -/
theorem Holds.of_agree {a : Array Byteword} {c : Bytecode} {ps : List (Piece Nat)}
    (h : ∀ j, c.size ≤ j → j < (ps.foldl writePiece c).size → j ∉ skipped c.size ps →
      a[j]? = (ps.foldl writePiece c).words[j]?) :
    Holds a c.size ps (ps.foldl writePiece c).size := by
  induction ps generalizing c with
  | nil => rfl
  | cons x ps ih =>
    have hsize := size_writePiece c x
    have hend : pieceSize c.size x ≤ (ps.foldl writePiece (c.writePiece x)).size := by
      rw [size_foldl_writePiece, hsize]
      exact le_foldl_pieceSize _ _
    refine ⟨PieceAt.of_agree fun j hj hj' hgap => ?_, ?_⟩
    · have hlater := PrefixOf.of_foldl_writePiece
        (prefixOf_words (ps.foldl writePiece (c.writePiece x))) j (by rw [hsize]; exact hj')
      have hskip : j ∉ skipped c.size (x :: ps) := by
        rw [skipped, List.mem_append, not_or]
        exact ⟨hgap, fun hm => by have := (bounds_of_mem_skipped hm).1; omega⟩
      rw [h j hj (by simpa using Nat.lt_of_lt_of_le hj' hend) hskip]
      exact hlater
    · rw [← hsize]
      refine ih fun j hj hj' hskip => h j (by have := lt_pieceSize c.size x; omega) hj' ?_
      rw [skipped, List.mem_append, not_or]
      exact ⟨fun hm => by have := (bounds_of_mem_gap hm).2; omega, by rwa [hsize] at hskip⟩

/-- The writer fills the padding in front of a piece's word with zeros. -/
theorem getElem?_writePiece_gap {c : Bytecode} {x : Piece Nat} {j : Nat} (h : j ∈ gap c.size x) :
    (c.writePiece x).words[j]? = some 0 := by
  cases x <;> simp only [gap, List.not_mem_nil, List.mem_range'_1] at h
  all_goals
    have := le_alignUp c.size
    rw [writePiece, getElem?_writeWord, if_neg (by omega), if_pos (by omega)]

/-- Pushing pieces writes zeros at every offset of their padding: the offsets where a stream may
differ from a push and still decode to it are the push's zero padding. -/
theorem getElem?_foldl_writePiece_skipped {c : Bytecode} {ps : List (Piece Nat)} {j : Nat}
    (h : j ∈ skipped c.size ps) : (ps.foldl writePiece c).words[j]? = some 0 := by
  induction ps generalizing c with
  | nil => simp [skipped] at h
  | cons x ps ih =>
    rw [List.foldl_cons]
    rcases List.mem_append.mp h with h | h
    · rw [PrefixOf.of_foldl_writePiece (prefixOf_words (ps.foldl writePiece (c.writePiece x))) j
        (by rw [size_writePiece]; exact (bounds_of_mem_gap h).2)]
      exact getElem?_writePiece_gap h
    · exact ih (by rwa [size_writePiece])

end Bytecode

/-! ### Decoding inverts pushing -/

/-- Decoding succeeds exactly where the stream holds what pushing the instruction appends, but
for the padding in front of its words. -/
theorem Instruction.decode_eq_ok_iff {a : Array Byteword} (hfit : alignUp a.size < 2 ^ 64)
    {c : Bytecode} {i : Instruction Nat} (hloc : ∀ l ∈ i.location, l < 2 ^ 64) {q : Nat} :
    Instruction.decode ⟨a, c.size⟩ = .ok (i, ⟨a, q⟩) ↔
      q = (c.push i).size ∧ q ≤ a.size ∧
        ∀ j, c.size ≤ j → j < q → j ∉ skipped c.size i.pieces →
          a[j]? = (c.push i).words[j]? := by
  constructor
  · intro h
    obtain ⟨hholds, -⟩ := Instruction.decode_holds h hfit
    refine ⟨by rw [size_push]; exact hholds.eq_foldl,
      hholds.le_size (Nat.le_of_lt (Instruction.lt_size_of_holds hholds)),
      fun j hj hj' hskip => ?_⟩
    rw [push, hholds.getElem?_foldl_writePiece hj hj', if_neg hskip]
  · rintro ⟨rfl, -, hagree⟩
    have hreads := reads_ok_iff_holds.mpr (Holds.of_agree hagree)
    rw [Instruction.decode_reads hreads hfit, Instruction.map_mod_eq_self hloc]
    rfl

/-- Decoding inverts pushing on every stream, up to the padding: at offset `p` it returns `i`
and stops at `q` exactly when the stream agrees, from `p` to `q`, with what pushing `i` onto a
buffer of `p` bytewords appends, the padding in front of its words aside; and it fails with `e`
exactly when the stream shows the fault `e`. -/
theorem Instruction.decode_inverse_modulo_padding {a : Array Byteword}
    (hfit : alignUp a.size < 2 ^ 64) {p : Nat} {c : Bytecode} (hc : c.size = p)
    {i : Instruction Nat} (hloc : ∀ l ∈ i.location, l < 2 ^ 64) (q : Nat) (e : Fault) :
    (Instruction.decode ⟨a, p⟩ = .ok (i, ⟨a, q⟩) ↔
      q = (c.push i).size ∧ q ≤ a.size ∧
        ∀ j, p ≤ j → j < q → j ∉ skipped p i.pieces → a[j]? = (c.push i).words[j]?) ∧
    (Instruction.decode ⟨a, p⟩ = .error e ↔ DecodeFault a p e) := by
  subst hc
  exact ⟨Instruction.decode_eq_ok_iff hfit hloc,
    fun h => Instruction.decodeFault_of_error h hfit,
    fun h => Instruction.decode_of_decodeFault h hfit⟩

/-- A `sca` whose padding holds nines, not zeros: the stream still decodes to it. -/
def scaNonzeroPadding : Array Byteword := #[7, 3, 9, 9, 65534, 65535, 65535, 65535]

theorem decode_sca_nonzeroPadding :
    alignUp scaNonzeroPadding.size < 2 ^ 64 ∧ Bytecode.empty.size = 0 ∧
      (∀ l ∈ (Instruction.sca 3 (Word.ofInt (-2)) : Instruction Nat).location, l < 2 ^ 64) ∧
      ((Instruction.decode ⟨scaNonzeroPadding, 0⟩ =
          .ok (Instruction.sca 3 (Word.ofInt (-2)), ⟨scaNonzeroPadding, 8⟩) ↔
        8 = (Bytecode.empty.push (Instruction.sca 3 (Word.ofInt (-2)))).size ∧
          8 ≤ scaNonzeroPadding.size ∧
          ∀ j, 0 ≤ j → j < 8 →
            j ∉ skipped 0 (Instruction.sca 3 (Word.ofInt (-2)) : Instruction Nat).pieces →
            scaNonzeroPadding[j]? =
              (Bytecode.empty.push (Instruction.sca 3 (Word.ofInt (-2)))).words[j]?) ∧
        (Instruction.decode ⟨scaNonzeroPadding, 0⟩ = .error (.unexpectedEnd 8 1 0) ↔
          DecodeFault scaNonzeroPadding 0 (.unexpectedEnd 8 1 0))) :=
  have hfit : alignUp scaNonzeroPadding.size < 2 ^ 64 := by decide
  have hc : Bytecode.empty.size = 0 := rfl
  have hloc : ∀ l ∈ (Instruction.sca 3 (Word.ofInt (-2)) : Instruction Nat).location,
      l < 2 ^ 64 := by simp [Instruction.location]
  ⟨hfit, hc, hloc, Instruction.decode_inverse_modulo_padding hfit hc hloc 8 _⟩

end WindowVm
