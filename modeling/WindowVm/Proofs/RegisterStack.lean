import Mathlib
import WindowVm.Machine.Stack

/-!
# Reading the register stack back

What each operation of the register stack leaves in its slots and pointers. Growing the window
zeroes exactly the slots it adds (`Stack.read_extend`), and a downward copy moves a range of
slots without reading a slot it has already written (`Stack.read_copyDown`). Register and
pointer accesses succeed exactly inside the window and below `sp` respectively.
-/

namespace WindowVm.Machine.Stack

@[simp] theorem write_fp (s : Stack) (i : Nat) (v : Word) : (s.write i v).fp = s.fp := by
  cases s; rfl

@[simp] theorem write_sp (s : Stack) (i : Nat) (v : Word) : (s.write i v).sp = s.sp := by
  cases s; rfl

@[simp] theorem write_ap (s : Stack) (i : Nat) (v : Word) : (s.write i v).ap = s.ap := by
  cases s; rfl

/-- Moving the pointers changes no slot. -/
@[simp] theorem read_mk (s : Stack) (fp sp ap i : Nat) :
    (Stack.mk s.cells fp sp ap).read i = s.read i := rfl

theorem read_of_size_le {s : Stack} {i : Nat} (h : s.cells.size ≤ i) : s.read i = Word.zero := by
  simp [read, Array.getD_eq_getD_getElem?, Array.getElem?_eq_none h]

/-- A run of writes keeps the three pointers, whatever slots and values it writes. -/
theorem pointers_foldl_write (l : List Nat) (slot : Stack → Nat → Nat) (val : Stack → Nat → Word)
    (s : Stack) :
    (l.foldl (fun t k => t.write (slot t k) (val t k)) s).fp = s.fp ∧
      (l.foldl (fun t k => t.write (slot t k) (val t k)) s).sp = s.sp ∧
      (l.foldl (fun t k => t.write (slot t k) (val t k)) s).ap = s.ap := by
  induction l generalizing s with
  | nil => exact ⟨rfl, rfl, rfl⟩
  | cons k l ih =>
    obtain ⟨hfp, hsp, hap⟩ := ih (s.write (slot s k) (val s k))
    exact ⟨by simp [hfp], by simp [hsp], by simp [hap]⟩

theorem read_foldl_clear (s : Stack) (b m i : Nat) :
    ((List.range m).foldl (fun t k => t.write (b + k) Word.zero) s).read i =
      if b ≤ i ∧ i < b + m then Word.zero else s.read i := by
  induction m with
  | zero => simp
  | succ m ih =>
    rw [List.range_succ, List.foldl_append, List.foldl_cons, List.foldl_nil, read_write, ih]
    by_cases hi : i = b + m
    · simp [hi]
    · by_cases hin : b ≤ i ∧ i < b + m
      · simp [hi, hin, show b ≤ i ∧ i < b + (m + 1) from ⟨hin.1, by omega⟩]
      · simp only [hi, hin, if_false]
        rw [if_neg (by omega)]

@[simp] theorem extend_fp (s : Stack) (n : Nat) : (s.extend n).fp = s.fp :=
  (pointers_foldl_write _ (fun _ k => s.sp + k) (fun _ _ => Word.zero) s).1

@[simp] theorem extend_sp (s : Stack) (n : Nat) : (s.extend n).sp = s.sp + n := rfl

@[simp] theorem extend_ap (s : Stack) (n : Nat) : (s.extend n).ap = s.ap :=
  (pointers_foldl_write _ (fun _ k => s.sp + k) (fun _ _ => Word.zero) s).2.2

/-- Growing the window by `n` zeroes exactly the `n` slots from `sp` on. Only the written part of
the stack is cleared; the slots past it read as zero already. -/
theorem read_extend (s : Stack) (n i : Nat) :
    (s.extend n).read i = if s.sp ≤ i ∧ i < s.sp + n then Word.zero else s.read i := by
  show ((List.range (min n (s.cells.size - s.sp))).foldl
    (fun t k => t.write (s.sp + k) Word.zero) s).read i = _
  rw [read_foldl_clear]
  by_cases hcleared : s.sp ≤ i ∧ i < s.sp + min n (s.cells.size - s.sp)
  · rw [if_pos hcleared, if_pos ⟨hcleared.1, by omega⟩]
  · rw [if_neg hcleared]
    by_cases hnew : s.sp ≤ i ∧ i < s.sp + n
    · rw [if_pos hnew]
      exact read_of_size_le (by omega)
    · rw [if_neg hnew]

theorem read_extend_of_lt {s : Stack} {n i : Nat} (h : i < s.sp) : (s.extend n).read i = s.read i := by
  rw [read_extend, if_neg (by omega)]

theorem copyDown_succ (s : Stack) (src len dst : Nat) :
    s.copyDown src (len + 1) dst =
      (s.copyDown src len dst).write (dst + len) ((s.copyDown src len dst).read (src + len)) := by
  simp [copyDown, List.range_succ, List.foldl_append]

@[simp] theorem copyDown_fp (s : Stack) (src len dst : Nat) : (s.copyDown src len dst).fp = s.fp :=
  (pointers_foldl_write _ (fun _ k => dst + k) (fun t k => t.read (src + k)) s).1

@[simp] theorem copyDown_sp (s : Stack) (src len dst : Nat) : (s.copyDown src len dst).sp = s.sp :=
  (pointers_foldl_write _ (fun _ k => dst + k) (fun t k => t.read (src + k)) s).2.1

@[simp] theorem copyDown_ap (s : Stack) (src len dst : Nat) : (s.copyDown src len dst).ap = s.ap :=
  (pointers_foldl_write _ (fun _ k => dst + k) (fun t k => t.read (src + k)) s).2.2

/-- Copying `len` slots down from `src` to `dst` moves them, even where the ranges overlap:
slot `src + k` is read before any write reaches it, since every earlier write lies below
`dst + k`. -/
theorem read_copyDown {s : Stack} {src len dst : Nat} (h : dst ≤ src) (i : Nat) :
    (s.copyDown src len dst).read i =
      if dst ≤ i ∧ i < dst + len then s.read (src + (i - dst)) else s.read i := by
  induction len generalizing i with
  | zero => simp [copyDown]
  | succ len ih =>
    rw [copyDown_succ, read_write]
    simp only [ih]
    rw [if_neg (show ¬(dst ≤ src + len ∧ src + len < dst + len) by omega)]
    by_cases hi : i = dst + len
    · simp [hi]
    · by_cases hin : dst ≤ i ∧ i < dst + len
      · simp [hi, hin, show dst ≤ i ∧ i < dst + (len + 1) from ⟨hin.1, by omega⟩]
      · simp only [hi, hin, if_false]
        rw [if_neg (by omega)]

theorem read_copyDown_of_lt {s : Stack} {src len dst i : Nat} (h : dst ≤ src) (hi : i < dst) :
    (s.copyDown src len dst).read i = s.read i := by
  rw [read_copyDown h, if_neg (by omega)]

theorem slotOf_eq_ok_iff {s : Stack} {r : Register} {i : Nat} :
    s.slotOf r = .ok i ↔ i = s.fp + r.toNat ∧ s.fp + r.toNat < s.sp := by
  unfold slotOf
  split <;> simp_all [eq_comm]

theorem get_eq_ok_iff {s : Stack} {r : Register} {v : Word} :
    s.get r = .ok v ↔ s.fp + r.toNat < s.sp ∧ v = s.read (s.fp + r.toNat) := by
  unfold get
  cases h : s.slotOf r with
  | error e =>
    have hout : ¬ s.fp + r.toNat < s.sp := fun hin => by
      simp [slotOf, hin] at h
    simp [hout]
  | ok i =>
    obtain ⟨rfl, hin⟩ := slotOf_eq_ok_iff.mp h
    simp [hin, eq_comm]

/-- A register reads the same from two stacks with the same window that agree below its end. -/
theorem get_congr {s s' : Stack} (hfp : s'.fp = s.fp) (hsp : s'.sp = s.sp)
    (hr : ∀ j < s.sp, s'.read j = s.read j) (r : Register) : s'.get r = s.get r := by
  by_cases hin : s.fp + r.toNat < s.sp
  · have h : s.get r = .ok (s.read (s.fp + r.toNat)) := get_eq_ok_iff.mpr ⟨hin, rfl⟩
    have h' : s'.get r = .ok (s'.read (s'.fp + r.toNat)) := get_eq_ok_iff.mpr ⟨by omega, rfl⟩
    rw [h, h', hfp, hr _ hin]
  · simp only [get, slotOf, window, hfp, hsp, if_neg hin]

theorem address_eq_ok_iff {s : Stack} {p : Word} {i : Nat} :
    s.address p = .ok i ↔ i = p.toNat ∧ p.toNat < s.sp := by
  unfold address
  split <;> simp_all [eq_comm]

end WindowVm.Machine.Stack
