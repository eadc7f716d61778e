import Mathlib
import WindowVm.Proofs.Encoding

/-!
# Decoding is reading a held layout

An instruction's layout is its pieces laid out one after another: a byteword at its offset, a
word from the next multiple of four on (`Bytecode.Holds`). What lies between a byteword and the
next word is not looked at. Decoding reads that layout back wherever a stream holds it
(`Instruction.decode_of_holds`), stopping just past the last piece; a stream that starts with
what the writer pushed holds the pushed layout, so decoding inverts pushing
(`Instruction.decode_push`). Conversely an instruction decoded from any stream is found in it as
its own layout (`Instruction.decode_holds`).

Offsets are machine words. A layout read back must end by 2^64, and its locations are read
modulo 2^64. For the converse the stream must end below 2^64 when rounded up to a word boundary,
or a word read near the end wraps to the start.
-/

namespace WindowVm

namespace Bytecode

/-- The stream `a` holds the word `w` from offset `p` on, least significant byteword first. -/
def WordAt (a : Array Byteword) (p : Nat) (w : Word) : Prop :=
  ∀ k < 4, a[p + k]? = w.toBytewords[k]?

/-- The stream `a` holds the piece `p` laid out from offset `n`: a byteword at `n`, a word from
the next multiple of four on. -/
def PieceAt (a : Array Byteword) (n : Nat) : Piece Nat → Prop
  | .half b => a[n]? = some b
  | .word w => WordAt a (alignUp n) w
  | .place l => WordAt a (alignUp n) (Word.ofNat l)

/-- The stream `a` holds the pieces `ps` laid out from offset `n`, the last one ending at `n'`. -/
def Holds (a : Array Byteword) : Nat → List (Piece Nat) → Nat → Prop
  | n, [], n' => n' = n
  | n, p :: ps, n' => PieceAt a n p ∧ Holds a (pieceSize n p) ps n'

theorem alignUp_mono {m n : Nat} (h : m ≤ n) : alignUp m ≤ alignUp n := by
  unfold alignUp
  omega

theorem PieceAt.size_le {a : Array Byteword} {n : Nat} {p : Piece Nat} (h : PieceAt a n p) :
    pieceSize n p ≤ a.size := by
  have hword : ∀ {w : Word}, WordAt a (alignUp n) w → alignUp n + 4 ≤ a.size := fun hw => by
    have h3 := hw 3 (by omega)
    simp only [Word.toBytewords, List.getElem?_cons_succ, List.getElem?_cons_zero] at h3
    exact Nat.succ_le_of_lt (Array.getElem?_eq_some_iff.mp h3).1
  cases p with
  | half b => exact Nat.succ_le_of_lt (Array.getElem?_eq_some_iff.mp h).1
  | word _ | place _ => exact hword h

theorem Holds.eq_foldl {a : Array Byteword} {n n' : Nat} {ps : List (Piece Nat)}
    (h : Holds a n ps n') : n' = ps.foldl pieceSize n := by
  induction ps generalizing n with
  | nil => exact h
  | cons p ps ih => exact ih h.2

theorem Holds.le_size {a : Array Byteword} {n n' : Nat} {ps : List (Piece Nat)}
    (h : Holds a n ps n') (hn : n ≤ a.size) : n' ≤ a.size := by
  induction ps generalizing n with
  | nil => rw [h]; exact hn
  | cons p ps ih => exact ih h.2 h.1.size_le

/-! ### A stream that starts with a push holds its layout -/

theorem wordAt_of_prefixOf {c : Bytecode} {w : Word} {a : Array Byteword}
    (h : (c.writeWord w).PrefixOf a) : WordAt a (alignUp c.size) w := fun k hk => by
  rw [h _ (by simp; omega), getElem?_writeWord_word c w hk]

theorem PieceAt.of_prefixOf {c : Bytecode} {x : Piece Nat} {a : Array Byteword}
    (h : (c.writePiece x).PrefixOf a) : PieceAt a c.size x := by
  cases x with
  | half b =>
    have hb := h c.size (by simp [writePiece])
    rwa [writePiece, getElem?_writeHalf, if_pos rfl] at hb
  | word _ | place _ => exact wordAt_of_prefixOf h

/-- A stream that starts with the bytewords of written pieces holds the pieces from where the
writer began to where it stopped. -/
theorem Holds.of_prefixOf {c : Bytecode} {ps : List (Piece Nat)} {a : Array Byteword}
    (h : (ps.foldl writePiece c).PrefixOf a) : Holds a c.size ps (ps.foldl writePiece c).size := by
  induction ps generalizing c with
  | nil => rfl
  | cons x ps ih =>
    rw [List.foldl_cons] at h ⊢
    refine ⟨PieceAt.of_prefixOf (PrefixOf.of_foldl_writePiece h), ?_⟩
    rw [← size_writePiece]
    exact ih h

end Bytecode

namespace Cursor

open Bytecode

/-! ### The reads, where the stream holds their piece -/

theorem readHalf_eq (a : Array Byteword) (n : Nat) :
    readHalf ⟨a, n⟩ =
      (a[n]?).elim (.error (.unexpectedEnd n 1 (a.size - n))) fun b => .ok (b, ⟨a, n + 1⟩) := by
  unfold readHalf
  split
  · rename_i h
    simp [Array.getElem?_eq_getElem h]
  · rename_i h
    simp [Array.getElem?_eq_none (Nat.le_of_not_lt h)]

theorem readWord_of_wordAt {a : Array Byteword} {n : Nat} {w : Word}
    (hw : WordAt a (alignUp n) w) (hb : alignUp n < 2 ^ 64) :
    readWord ⟨a, n⟩ = .ok (w, ⟨a, alignUp n + 4⟩) := by
  have h0 := hw 0 (by omega)
  have h1 := hw 1 (by omega)
  have h2 := hw 2 (by omega)
  have h3 := hw 3 (by omega)
  simp only [Word.toBytewords, List.getElem?_cons_zero, List.getElem?_cons_succ,
    Nat.add_zero] at h0 h1 h2 h3
  obtain ⟨hlt, e3⟩ := Array.getElem?_eq_some_iff.mp h3
  obtain ⟨_, e0⟩ := Array.getElem?_eq_some_iff.mp h0
  obtain ⟨_, e1⟩ := Array.getElem?_eq_some_iff.mp h1
  obtain ⟨_, e2⟩ := Array.getElem?_eq_some_iff.mp h2
  have word : Word.ofBytewords (UInt16.ofNat w.toNat) (UInt16.ofNat (w.toNat / 65536))
      (UInt16.ofNat (w.toNat / 4294967296)) (UInt16.ofNat (w.toNat / 281474976710656)) = w := by
    simpa [Word.toBytewords] using w.ofBytewords_toBytewords
  have fits : alignUp n + 4 ≤ a.size := hlt
  simp [readWord, wordStart_of_lt hb, fits, e0, e1, e2, e3, word]

/-- A location is read as a word and taken modulo the machine's word size. -/
theorem readPlace_of_wordAt {a : Array Byteword} {n l : Nat}
    (hw : WordAt a (alignUp n) (Word.ofNat l)) (hb : alignUp n < 2 ^ 64) :
    readPlace ⟨a, n⟩ = .ok (l % 2 ^ 64, ⟨a, alignUp n + 4⟩) := by
  simp [readPlace, readWord_of_wordAt hw hb]

/-! ### What each successful read found -/

theorem readHalf_eq_ok {a : Array Byteword} {n : Nat} {b : Byteword} {c : Cursor}
    (h : readHalf ⟨a, n⟩ = .ok (b, c)) : a[n]? = some b ∧ n < a.size ∧ c = ⟨a, n + 1⟩ := by
  unfold readHalf at h
  split at h
  · cases h
    rename_i hn
    exact ⟨Array.getElem?_eq_getElem hn, hn, rfl⟩
  · cases h

theorem readWord_eq_ok {a : Array Byteword} {n : Nat} {w : Word} {c : Cursor}
    (h : readWord ⟨a, n⟩ = .ok (w, c)) (hn : n ≤ a.size) (hfit : alignUp a.size < 2 ^ 64) :
    WordAt a (alignUp n) w ∧ c = ⟨a, alignUp n + 4⟩ := by
  have hs := wordStart_of_lt (Nat.lt_of_le_of_lt (alignUp_mono hn) hfit)
  unfold readWord at h
  simp only [hs] at h
  split at h
  · cases h
    rename_i hin
    refine ⟨fun k hk => ?_, rfl⟩
    rw [Word.toBytewords_ofBytewords, Array.getElem?_eq_getElem (by omega)]
    rcases (show k = 0 ∨ k = 1 ∨ k = 2 ∨ k = 3 by omega) with rfl | rfl | rfl | rfl <;> rfl
  · cases h

theorem readPlace_eq_ok {a : Array Byteword} {n l : Nat} {c : Cursor}
    (h : readPlace ⟨a, n⟩ = .ok (l, c)) (hn : n ≤ a.size) (hfit : alignUp a.size < 2 ^ 64) :
    WordAt a (alignUp n) (Word.ofNat l) ∧ c = ⟨a, alignUp n + 4⟩ := by
  unfold readPlace at h
  cases hw : readWord ⟨a, n⟩ with
  | error e => simp [hw] at h
  | ok p =>
    obtain ⟨w, c'⟩ := p
    simp only [hw, Except.ok.injEq, Prod.mk.injEq] at h
    obtain ⟨rfl, rfl⟩ := h
    rw [Word.ofNat_toNat]
    exact readWord_eq_ok hw hn hfit

end Cursor

open Bytecode Cursor

/-! ### Decoding a held layout -/

theorem Instruction.map_mod_eq_self {i : Instruction Nat} (hloc : ∀ l ∈ i.location, l < 2 ^ 64) :
    i.map (· % 2 ^ 64) = i := by
  cases i <;> simp_all [Instruction.map, Instruction.location, Nat.mod_eq_of_lt]

theorem SystemCall.decode_of_holds {a : Array Byteword} {p q : Nat} {call : SystemCall}
    (h : Holds a p (.half call.syscall.tag :: call.registers.map .half) q) :
    SystemCall.decode ⟨a, p⟩ = .ok (call, ⟨a, q⟩) := by
  cases call <;> simp only [Holds, PieceAt, pieceSize, SystemCall.registers, List.map] at h <;>
    simp_all [SystemCall.decode, readHalf_eq, Syscall.ofTag?_tag, SystemCall.syscall, bind,
      Except.bind, pure, Except.pure]

/-- Decoding reads back the layout a stream holds: the instruction, its locations taken as
machine words, and the cursor where the layout ends. Only the layout itself has to lie below
2^64, not the whole stream. -/
theorem Instruction.decode_of_holds {a : Array Byteword} {p q : Nat} {i : Instruction Nat}
    (h : Holds a p i.pieces q) (hq : q ≤ 2 ^ 64) :
    Instruction.decode ⟨a, p⟩ = .ok (i.map (· % 2 ^ 64), ⟨a, q⟩) := by
  cases i with
  | sys call =>
    obtain ⟨h0, h⟩ := h
    simp only [PieceAt, pieceSize] at h0 h
    simp [Instruction.decode, readHalf_eq, h0, Opcode.ofTag?_tag, SystemCall.decode_of_holds h,
      Instruction.map, bind, Except.bind, pure, Except.pure]
  | cas l | jmp l =>
    simp only [Instruction.pieces, Holds, PieceAt, pieceSize] at h
    obtain ⟨h0, h1, rfl⟩ := h
    simp [Instruction.decode, readHalf_eq, h0, Opcode.ofTag?_tag, Instruction.map,
      readPlace_of_wordAt h1 (by omega), bind, Except.bind, pure, Except.pure]
  | sca r w =>
    simp only [Instruction.pieces, Holds, PieceAt, pieceSize] at h
    obtain ⟨h0, h1, h2, rfl⟩ := h
    simp [Instruction.decode, readHalf_eq, h0, h1, Opcode.ofTag?_tag, Instruction.map,
      readWord_of_wordAt h2 (by omega), bind, Except.bind, pure, Except.pure]
  | loc r l =>
    simp only [Instruction.pieces, Holds, PieceAt, pieceSize] at h
    obtain ⟨h0, h1, h2, rfl⟩ := h
    simp [Instruction.decode, readHalf_eq, h0, h1, Opcode.ofTag?_tag, Instruction.map,
      readPlace_of_wordAt h2 (by omega), bind, Except.bind, pure, Except.pure]
  | jnz l r =>
    simp only [Instruction.pieces, Holds, PieceAt, pieceSize] at h
    obtain ⟨h0, h1, h2, rfl⟩ := h
    simp [Instruction.decode, readHalf_eq, h0, h2, Opcode.ofTag?_tag, Instruction.map,
      readPlace_of_wordAt h1 (by omega), bind, Except.bind, pure, Except.pure]
  | binary op d x y =>
    simp only [Instruction.pieces, Holds, PieceAt, pieceSize] at h
    cases op <;> simp_all [Instruction.decode, Instruction.decodeBinary, readHalf_eq,
      BinaryOp.opcode, Opcode.ofTag?_tag, Instruction.map, bind, Except.bind, pure, Except.pure]
  | _ =>
    simp only [Instruction.pieces, Holds, PieceAt, pieceSize] at h
    simp_all [Instruction.decode, readHalf_eq, Opcode.ofTag?_tag, Instruction.map, bind,
      Except.bind, pure, Except.pure]

/-- Decoding inverts pushing: a stream that starts with the bytewords of `c.push i` decodes, at
the offset where the push began, to `i`, with the cursor just past it. -/
theorem Instruction.decode_push {c : Bytecode} {i : Instruction Nat} {a : Array Byteword}
    (h : (c.push i).PrefixOf a) (hfit : (c.push i).size ≤ 2 ^ 64)
    (hloc : ∀ l ∈ i.location, l < 2 ^ 64) :
    Instruction.decode ⟨a, c.size⟩ = .ok (i, ⟨a, (c.push i).size⟩) := by
  rw [Instruction.decode_of_holds (Holds.of_prefixOf h) hfit, Instruction.map_mod_eq_self hloc]
  rfl

/-! ### A decoded instruction was held -/

theorem Opcode.tag_of_ofTag? {t : Byteword} {op : Opcode} (h : Opcode.ofTag? t = some op) :
    op.tag = t := by
  unfold Opcode.ofTag? at h
  simpa using List.find?_some h

theorem Syscall.tag_of_ofTag? {t : Byteword} {s : Syscall} (h : Syscall.ofTag? t = some s) :
    s.tag = t := by
  unfold Syscall.ofTag? at h
  simpa using List.find?_some h
theorem SystemCall.decode_holds {a : Array Byteword} {q : Nat} {call : SystemCall} {c : Cursor}
    (h : SystemCall.decode ⟨a, q⟩ = .ok (call, c)) :
    Holds a q (.half call.syscall.tag :: call.registers.map .half) c.pos ∧ c.code = a := by
  unfold SystemCall.decode at h
  rw [Except.bind_eq_ok_iff] at h
  obtain ⟨⟨t, c₁⟩, h₁, h⟩ := h
  obtain ⟨ht, hq, rfl⟩ := readHalf_eq_ok h₁
  cases hs : Syscall.ofTag? t with
  | none => simp [hs, throw, throwThe, MonadExceptOf.throw] at h
  | some s =>
    have htag := Syscall.tag_of_ofTag? hs
    cases s <;> simp only [hs, Except.bind_eq_ok_iff, pure, Except.pure, Except.ok.injEq] at h <;>
      grind [Holds, PieceAt, pieceSize, SystemCall.registers, SystemCall.syscall,
        → readHalf_eq_ok]

theorem Instruction.decodeBinary_holds {a : Array Byteword} {q : Nat} {op : BinaryOp}
    {i : Instruction Nat} {c : Cursor} (h : Instruction.decodeBinary op ⟨a, q⟩ = .ok (i, c)) :
    ∃ d x y, i = .binary op d x y ∧ Holds a q [.half d, .half x, .half y] c.pos ∧ c.code = a := by
  simp only [Instruction.decodeBinary, Except.bind_eq_ok_iff, pure, Except.pure,
    Except.ok.injEq] at h
  grind [Holds, PieceAt, pieceSize, → readHalf_eq_ok]

/-- A decoded instruction is found in the stream as its pieces, from where the decode started to
where it ended: each opcode reads its operands in the order of its layout, each read starting
where the last one stopped. -/
theorem Instruction.decode_holds {a : Array Byteword} {q : Nat} {i : Instruction Nat}
    {c : Cursor} (h : Instruction.decode ⟨a, q⟩ = .ok (i, c)) (hfit : alignUp a.size < 2 ^ 64) :
    Holds a q i.pieces c.pos ∧ c.code = a := by
  unfold Instruction.decode at h
  rw [Except.bind_eq_ok_iff] at h
  obtain ⟨⟨t, c₁⟩, h₁, h⟩ := h
  obtain ⟨ht, hq, rfl⟩ := readHalf_eq_ok h₁
  cases hop : Opcode.ofTag? t with
  | none => simp [hop, throw, throwThe, MonadExceptOf.throw] at h
  | some op =>
    have htag := Opcode.tag_of_ofTag? hop
    cases op <;> simp only [hop, Except.bind_eq_ok_iff, pure, Except.pure, Except.ok.injEq] at h <;>
      grind [Holds, PieceAt, pieceSize, Instruction.pieces, BinaryOp.opcode, → readHalf_eq_ok,
        → readWord_eq_ok, → readPlace_eq_ok, → SystemCall.decode_holds,
        → Instruction.decodeBinary_holds]

end WindowVm
