import WindowVm.Fault

/-!
# The register stack

Registers live on one stack of words that grows without bound and reads as zero wherever
nothing was written. Three pointers divide it: the frame pointer `fp` starts the current window,
`sp` ends it, and `ap` is where the next argument of a call being prepared goes. A register
operand `%r` names slot `fp + r`, and it must lie in the window `[fp, sp)`; a pointer held in a
register may name any live slot below `sp`. Slots at and above `sp` are scratch and may hold
stale values.

Main statement: a write changes exactly the slot written (`read_write`).
-/

namespace WindowVm.Machine

/-- The register stack and its three pointers. -/
structure Stack where
  cells : Array Word := #[]
  fp : Nat := 0
  sp : Nat := 0
  ap : Nat := 0
deriving Repr

namespace Stack

/-- The word in a slot; a slot never written holds zero. -/
def read (s : Stack) (i : Nat) : Word := s.cells.getD i Word.zero

/-- The cells after writing slot `i`, grown with zeros as far as needed. -/
def Cells.write (cells : Array Word) (i : Nat) (v : Word) : Array Word :=
  if h : i < cells.size then cells.set i v h
  else (cells ++ Array.replicate (i - cells.size) Word.zero).push v

/-- Writes a slot. The stack is taken apart first, so that a stack used only here is updated
in place. -/
def write (s : Stack) (i : Nat) (v : Word) : Stack :=
  match s with
  | ⟨cells, fp, sp, ap⟩ => ⟨Cells.write cells i v, fp, sp, ap⟩

/-- The number of registers in the current window. -/
def window (s : Stack) : Nat := s.sp - s.fp

/-- The slot of register `r`, if it lies in the window. -/
def slotOf (s : Stack) (r : Register) : Except Fault Nat :=
  if s.fp + r.toNat < s.sp then .ok (s.fp + r.toNat)
  else .error (.registerOutOfWindow r.toNat s.window)

/-- The value of a register of the window. -/
def get (s : Stack) (r : Register) : Except Fault Word :=
  match s.slotOf r with
  | .ok i => .ok (s.read i)
  | .error e => .error e

/-- Sets a register of the window. -/
def set (s : Stack) (r : Register) (v : Word) : Except Fault Stack :=
  match s.slotOf r with
  | .ok i => .ok (s.write i v)
  | .error e => .error e

/-- The slot a pointer names, if it is live (below `sp`). -/
def address (s : Stack) (p : Word) : Except Fault Nat :=
  if p.toNat < s.sp then .ok p.toNat else .error (.invalidAddress p.toNat s.sp)

/-- Reads the live slot a pointer names. -/
def load (s : Stack) (p : Word) : Except Fault Word :=
  match s.address p with
  | .ok i => .ok (s.read i)
  | .error e => .error e

/-- Writes the live slot a pointer names. -/
def store (s : Stack) (p : Word) (v : Word) : Except Fault Stack :=
  match s.address p with
  | .ok i => .ok (s.write i v)
  | .error e => .error e

/-- Zeroes the `count` slots from `sp` on and adds them to the window. Slots past the written
part of the stack are zero already, so only the written ones are cleared. -/
def extend (s : Stack) (count : Nat) : Stack :=
  let sp := s.sp
  let cleared := (List.range (min count (s.cells.size - sp))).foldl
    (fun t k => t.write (sp + k) Word.zero) s
  { cleared with sp := sp + count }

/-- Copies the `len` slots from `src` on down to the slots from `dst` on, where `dst ≤ src`;
copying upwards from the lowest slot reads every source slot before it is overwritten. -/
def copyDown (s : Stack) (src len dst : Nat) : Stack :=
  (List.range len).foldl (fun t k => t.write (dst + k) (t.read (src + k))) s

theorem read_write (s : Stack) (i j : Nat) (v : Word) :
    (s.write i v).read j = if j = i then v else s.read j := by
  unfold write read Cells.write
  simp only [Array.getD_eq_getD_getElem?]
  split
  · rw [Array.getElem?_set]
    by_cases hj : j = i
    · subst hj; simp
    · simp [hj, Ne.symm hj]
  · rename_i h
    by_cases hj : j = i
    · subst hj
      rw [Array.getElem?_push, if_pos (by simp; omega)]
      simp
    · rw [if_neg hj]
      rcases Nat.lt_or_ge j s.cells.size with hl | hl
      · rw [Array.getElem?_push, if_neg (by simp; omega), Array.getElem?_append_left hl]
      · rw [Array.getElem?_eq_none hl, Array.getElem?_push]
        split
        · simp at *; omega
        · rw [Array.getElem?_append_right hl]
          simp [Array.getElem?_replicate]
          split <;> rfl

end Stack

end WindowVm.Machine
