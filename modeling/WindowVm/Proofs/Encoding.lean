import Mathlib
import WindowVm.Instruction.Decode

/-!
# What pushing writes

Pushing an instruction appends its pieces to the bytewords of the code: a byteword as it is, a
word after zeros up to the next multiple of four, least significant byteword first.
`Bytecode.PrefixOf` says that a stream starts with the bytewords of some code. Writing never
changes what was written before, so a stream that starts with a push starts with everything
pushed before it (`Bytecode.PrefixOf.of_push`), and every instruction takes at least one
byteword (`Bytecode.size_lt_push`).

Offsets are machine words: a word is written from the next multiple of four, and a reader finds
it there only while that offset is below 2^64 (`Cursor.wordStart_of_lt`).
-/

namespace WindowVm

theorem Except.bind_eq_ok_iff {ε α β : Type} {x : Except ε α} {f : α → Except ε β} {b : β} :
    x >>= f = .ok b ↔ ∃ a, x = .ok a ∧ f a = .ok b := by
  cases x <;> simp [bind, Except.bind]

theorem Except.bind_eq_error_iff {ε α β : Type} {x : Except ε α} {f : α → Except ε β}
    {e : ε} : x >>= f = .error e ↔ x = .error e ∨ ∃ a, x = .ok a ∧ f a = .error e := by
  cases x <;> simp [bind, Except.bind]

/-- The stream `a` starts with the bytewords of `c`. -/
def Bytecode.PrefixOf (c : Bytecode) (a : Array Byteword) : Prop :=
  ∀ j < c.size, a[j]? = c.words[j]?

namespace Bytecode

theorem prefixOf_words (c : Bytecode) : c.PrefixOf c.words := fun _ _ => rfl

theorem getElem?_writeHalf (c : Bytecode) (b : Byteword) (j : Nat) :
    (c.writeHalf b).words[j]? = if j = c.size then some b else c.words[j]? :=
  Array.getElem?_push

theorem getElem?_writeWord_of_lt {c : Bytecode} {w : Word} {j : Nat} (h : j < c.size) :
    (c.writeWord w).words[j]? = c.words[j]? := by
  unfold writeWord
  rw [Array.getElem?_append_left (by simp; unfold size at h; omega),
    Array.getElem?_append_left h]

theorem getElem?_writeWord_word (c : Bytecode) (w : Word) {k : Nat} (hk : k < 4) :
    (c.writeWord w).words[alignUp c.size + k]? = w.toBytewords[k]? := by
  have := le_alignUp c.size
  unfold writeWord
  rw [Array.getElem?_append_right (by simp [size] at *; omega)]
  simp only [size, Array.size_append, Array.size_replicate, List.getElem?_toArray] at *
  congr 1
  omega

theorem PrefixOf.of_writeHalf {c : Bytecode} {b : Byteword} {a : Array Byteword}
    (h : (c.writeHalf b).PrefixOf a) : c.PrefixOf a := by
  intro j hj
  rw [h j (by simp; omega), getElem?_writeHalf, if_neg (by omega)]

theorem PrefixOf.of_writeWord {c : Bytecode} {w : Word} {a : Array Byteword}
    (h : (c.writeWord w).PrefixOf a) : c.PrefixOf a := by
  intro j hj
  have := le_alignUp c.size
  rw [h j (by simp; omega), getElem?_writeWord_of_lt hj]

theorem PrefixOf.of_writePiece {c : Bytecode} {p : Piece Nat} {a : Array Byteword}
    (h : (c.writePiece p).PrefixOf a) : c.PrefixOf a := by
  cases p with
  | half b => exact PrefixOf.of_writeHalf h
  | word _ | place _ => exact PrefixOf.of_writeWord h

theorem PrefixOf.of_foldl_writePiece {c : Bytecode} {ps : List (Piece Nat)}
    {a : Array Byteword} (h : (ps.foldl writePiece c).PrefixOf a) : c.PrefixOf a := by
  induction ps generalizing c with
  | nil => exact h
  | cons p ps ih => exact (ih h).of_writePiece

theorem PrefixOf.of_push {c : Bytecode} {i : Instruction Nat} {a : Array Byteword}
    (h : (c.push i).PrefixOf a) : c.PrefixOf a :=
  PrefixOf.of_foldl_writePiece h

theorem size_push (c : Bytecode) (i : Instruction Nat) :
    (c.push i).size = i.pieces.foldl pieceSize c.size :=
  size_foldl_writePiece c i.pieces

theorem lt_foldl_pieceSize {L : Type} (n : Nat) (i : Instruction L) :
    n < i.pieces.foldl pieceSize n := by
  cases i with
  | sys call =>
    cases call <;> simp [Instruction.pieces, pieceSize, SystemCall.registers] <;> omega
  | _ => simp [Instruction.pieces, pieceSize] <;> grind [le_alignUp]

/-- Every instruction takes at least one byteword. -/
theorem size_lt_push (c : Bytecode) (i : Instruction Nat) : c.size < (c.push i).size := by
  rw [size_push]
  exact lt_foldl_pieceSize c.size i

end Bytecode

namespace Cursor

theorem wordStart_of_lt {p : Nat} (hb : alignUp p < 2 ^ 64) : wordStart p = alignUp p :=
  Nat.mod_eq_of_lt hb

end Cursor

end WindowVm
