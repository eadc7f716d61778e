import WindowVm.Proofs.Decoding
import WindowVm.Proofs.Encoding

/-!
# Wide reads

A wide read (`Cursor.readWord`, and `Cursor.readPlace` through it) first rounds the cursor's
position up to a word boundary, skipping the padding, and then takes the four bytewords stored
there, least significant first. A read that fails returns no cursor, so the caller's cursor stays
where it was.

Positions are 64-bit machine offsets. From every position up to the last word boundary of the
address space, `2 ^ 64 - 4`, the boundary is the least multiple of four at or above the position
(`alignUp_least`), so a wide read either fails for lack of room or returns the word stored at
that boundary and stops just past it (`Cursor.readWord_cases`); it never reads behind its
position, and it always fails from the end of the stream on (`Cursor.readWord_of_size_le`).

From the last three positions the rounding wraps to offset 0, and a wide read then returns the
first word of the stream, behind its position (`Cursor.readWord_wraps`).
-/

namespace WindowVm

/-- `alignUp p` is the least multiple of four at or above `p`. -/
theorem alignUp_least (p : Nat) :
    4 ∣ alignUp p ∧ p ≤ alignUp p ∧ ∀ t, 4 ∣ t → p ≤ t → alignUp p ≤ t := by
  refine ⟨⟨(p + 3) / 4, by unfold alignUp; omega⟩, Bytecode.le_alignUp p, ?_⟩
  rintro t ⟨k, rfl⟩ hp
  unfold alignUp
  omega

namespace Cursor

open Bytecode

/-- Rounding up from the last three positions below `2 ^ 64` reaches `2 ^ 64`, which wraps to 0. -/
theorem wordStart_of_top {p : Nat} (hlo : 2 ^ 64 - 4 < p) (hhi : p < 2 ^ 64) :
    wordStart p = 0 := by
  unfold wordStart alignUp
  omega

/-- The word a read at `s` takes is the one the stream holds at `s`. -/
theorem wordAt_ofBytewords {a : Array Byteword} {s : Nat} (h : s + 4 ≤ a.size) :
    WordAt a s (Word.ofBytewords a[s] a[s + 1] a[s + 2] a[s + 3]) := by
  intro k hk
  rw [Word.toBytewords_ofBytewords, Array.getElem?_eq_getElem (by omega)]
  rcases (show k = 0 ∨ k = 1 ∨ k = 2 ∨ k = 3 by omega) with rfl | rfl | rfl | rfl <;> rfl

/-- Up to the last word boundary, a wide read either runs past the end of the stream and fails,
naming its position and what was left from the boundary, or returns the word stored from the
least multiple of four at or above its position and stops just past that word. -/
theorem readWord_cases (a : Array Byteword) {p : Nat} (hp : alignUp p < 2 ^ 64) :
    (a.size < alignUp p + 4 ∧
        readWord ⟨a, p⟩ = .error (.unexpectedEnd p 4 (a.size - alignUp p))) ∨
      ∃ w, WordAt a (alignUp p) w ∧ readWord ⟨a, p⟩ = .ok (w, ⟨a, alignUp p + 4⟩) := by
  rcases Nat.lt_or_ge a.size (alignUp p + 4) with hshort | hroom
  · exact .inl ⟨hshort, by simp [readWord, wordStart_of_lt hp, Nat.not_le.mpr hshort]⟩
  · refine .inr ⟨_, wordAt_ofBytewords hroom, ?_⟩
    simp [readWord, wordStart_of_lt hp, hroom]

/-- A location read is a wide read, its word taken as an unsigned offset. -/
theorem readPlace_cases (a : Array Byteword) {p : Nat} (hp : alignUp p < 2 ^ 64) :
    (a.size < alignUp p + 4 ∧
        readPlace ⟨a, p⟩ = .error (.unexpectedEnd p 4 (a.size - alignUp p))) ∨
      ∃ w, WordAt a (alignUp p) w ∧ readPlace ⟨a, p⟩ = .ok (w.toNat, ⟨a, alignUp p + 4⟩) := by
  rcases readWord_cases a hp with ⟨hshort, h⟩ | ⟨w, hw, h⟩
  · exact .inl ⟨hshort, by simp [readPlace, h]⟩
  · exact .inr ⟨w, hw, by simp [readPlace, h]⟩

/-- From the end of the stream on, up to the last word boundary, a wide read fails. -/
theorem readWord_of_size_le {a : Array Byteword} {p : Nat} (hend : a.size ≤ p)
    (hp : alignUp p < 2 ^ 64) :
    readWord ⟨a, p⟩ = .error (.unexpectedEnd p 4 0) := by
  have hle := le_alignUp p
  rcases readWord_cases a hp with ⟨-, h⟩ | ⟨w, hw, -⟩
  · rw [h, Nat.sub_eq_zero_of_le (by omega)]
  · have := hw 3 (by omega)
    simp [Word.toBytewords, Array.getElem?_eq_none (show a.size ≤ alignUp p + 3 by omega)] at this

/-- From the last three positions below `2 ^ 64` the boundary wraps to offset 0, and a wide read
in a stream of four bytewords or more returns the stream's first word, behind its position. -/
theorem readWord_wraps {a : Array Byteword} {p : Nat} (hlo : 2 ^ 64 - 4 < p) (hhi : p < 2 ^ 64)
    (hsize : 4 ≤ a.size) :
    ∃ w, WordAt a 0 w ∧ readWord ⟨a, p⟩ = .ok (w, ⟨a, 4⟩) := by
  refine ⟨_, wordAt_ofBytewords hsize, ?_⟩
  simp [readWord, wordStart_of_top hlo hhi, hsize]

example : readWord ⟨#[1, 2, 3, 4], 2 ^ 64 - 1⟩ =
    .ok (Word.ofBytewords 1 2 3 4, ⟨#[1, 2, 3, 4], 4⟩) := by
  rfl

end Cursor

end WindowVm
