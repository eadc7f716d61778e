import WindowVm.Machine.Stored
import WindowVm.Proofs.StackSafety
import WindowVm.Proofs.RegisterStack

/-!
# The capacity of the stack is unobservable

The stored machine (`Stored.step`) keeps the register stack in a vector that grows on demand;
the machine (`step`) reads it as an unbounded memory of zero words, and its `frm` ignores its
operand. The two run alike.

`Mirrors h m` says that the stored machine `h` stands where the machine `m` stands: the same
pointers, counters and pending frame, a vector whose slots read as `m`'s stack, and `m`'s
pointers within that vector as `StackBounds` says. Growing the vector adds zero slots, which the
memory reads anyway (`Stack.read_ensure`), and within the bounds every index an instruction
uses lies inside the vector, so each instruction does on both the same thing (`execute_tracks`).
A `ret` whose capture would lie below slot 0 aborts the host, and the stored machine stops with
`Stop.underflow` where the machine does; no other step aborts it.

Main statement (`Stored.run_outcome`): by induction over the run, the two runs from the start
make the same calls and stop the same way, at the same instruction pointer after the same
number of steps.
-/

namespace WindowVm.Machine

namespace Stack

/-! ### The vector's operations -/

@[simp] theorem ensure_fp (s : Stack) (len : Nat) : (s.ensure len).fp = s.fp := by
  unfold ensure; split <;> rfl

@[simp] theorem ensure_sp (s : Stack) (len : Nat) : (s.ensure len).sp = s.sp := by
  unfold ensure; split <;> rfl

@[simp] theorem ensure_ap (s : Stack) (len : Nat) : (s.ensure len).ap = s.ap := by
  unfold ensure; split <;> rfl

/-- Making room grows the vector as `grow` says. -/
theorem size_ensure (s : Stack) (len : Nat) :
    (s.ensure len).cells.size = grow s.cells.size len := by
  unfold ensure grow
  split
  · rfl
  · simp only [Array.size_append, Array.size_replicate]
    omega

/-- The slots added to make room are zero, as the memory reads them anyway. -/
@[simp] theorem read_ensure (s : Stack) (len i : Nat) : (s.ensure len).read i = s.read i := by
  unfold ensure
  split
  · rfl
  · simp only [read, Array.getD_eq_getD_getElem?]
    rcases Nat.lt_or_ge i s.cells.size with hi | hi
    · rw [Array.getElem?_append_left hi]
    · rw [Array.getElem?_append_right hi, Array.getElem?_eq_none hi, Array.getElem?_replicate]
      split <;> rfl

theorem size_write (s : Stack) (i : Nat) (v : Word) :
    (s.write i v).cells.size = max s.cells.size (i + 1) := by
  obtain ⟨cells, fp, sp, ap⟩ := s
  simp only [write, Cells.write]
  split
  · simp only [Array.size_set]
    omega
  · simp only [Array.size_push, Array.size_append, Array.size_replicate]
    omega

theorem slot?_of_lt {s : Stack} {i : Nat} (h : i < s.cells.size) : s.slot? i = some (s.read i) := by
  simp [slot?, read, Array.getD_eq_getD_getElem?, Array.getElem?_eq_getElem h]

theorem setSlot?_of_lt {s : Stack} {i : Nat} (h : i < s.cells.size) (v : Word) :
    s.setSlot? i v = some (s.write i v) := by
  simp [setSlot?, h]

/-- A frame slot is always written: room is made for it first. -/
theorem put_eq (s : Stack) (i : Nat) (v : Word) : s.put i v = some ((s.ensure (i + 1)).write i v) :=
  setSlot?_of_lt (by rw [size_ensure]; exact le_grow_need _ _) v

@[simp] theorem reserve_fp (s : Stack) (n : Nat) : (s.reserve n).fp = s.fp := ensure_fp _ _

@[simp] theorem reserve_sp (s : Stack) (n : Nat) : (s.reserve n).sp = s.sp := ensure_sp _ _

@[simp] theorem reserve_ap (s : Stack) (n : Nat) : (s.reserve n).ap = s.ap := ensure_ap _ _

@[simp] theorem read_reserve (s : Stack) (n i : Nat) : (s.reserve n).read i = s.read i :=
  read_ensure _ _ _

theorem size_put (s : Stack) (i : Nat) (v : Word) :
    ((s.ensure (i + 1)).write i v).cells.size = grow s.cells.size (i + 1) := by
  have := le_grow_need s.cells.size (i + 1)
  rw [size_write, size_ensure]
  omega

theorem le_size_put (s : Stack) (i : Nat) (v : Word) :
    s.cells.size ≤ ((s.ensure (i + 1)).write i v).cells.size := by
  rw [size_put]
  exact le_grow _ _

theorem lt_size_put (s : Stack) (i : Nat) (v : Word) :
    i < ((s.ensure (i + 1)).write i v).cells.size := by
  rw [size_put]
  exact le_grow_need _ _

/-- Adding `n` registers to the window grows the vector to hold them and reads zero there. -/
theorem extendWindow_eq (s : Stack) (n : Nat) :
    ∃ s', s.extendWindow n = some s' ∧ s'.fp = s.fp ∧ s'.sp = s.sp + n ∧ s'.ap = s.ap ∧
      s'.cells.size = grow s.cells.size (s.sp + n) ∧
      ∀ i, s'.read i = if s.sp ≤ i ∧ i < s.sp + n then Word.zero else s.read i := by
  have hroom : (s.reserve n).sp + n ≤ (s.reserve n).cells.size := by
    simp only [reserve, ensure_sp, size_ensure]
    exact le_grow_need _ _
  have hclear : ∀ m ≤ n, ((List.range m).foldl (fun t k => t.write ((s.reserve n).sp + k) Word.zero)
      (s.reserve n)).cells.size = (s.reserve n).cells.size := by
    intro m hm
    induction m with
    | zero => rfl
    | succ m ih =>
      rw [List.range_succ, List.foldl_append, List.foldl_cons, List.foldl_nil, size_write,
        ih (by omega)]
      omega
  obtain ⟨hfp, hsp, hap⟩ := pointers_foldl_write (List.range n) (fun _ k => (s.reserve n).sp + k)
    (fun _ _ => Word.zero) (s.reserve n)
  refine ⟨_, if_pos hroom, ?_, ?_, ?_, ?_, fun i => ?_⟩
  · simp only [hfp]
    simp [reserve]
  · simp [reserve]
  · simp only [hap]
    simp [reserve]
  · rw [hclear n le_rfl, reserve, size_ensure]
  · simp only [read_mk, read_foldl_clear, reserve, ensure_sp, read_ensure]

/-- A copy within the vector reads, in the slots written, what their sources held before. -/
theorem copyWithin_eq {s : Stack} {src len dst : Nat} (hsrc : src + len ≤ s.cells.size)
    (hdst : dst + len ≤ s.cells.size) :
    ∃ s', s.copyWithin src len dst = some s' ∧ s'.fp = s.fp ∧ s'.sp = s.sp ∧ s'.ap = s.ap ∧
      s'.cells.size = s.cells.size ∧
      ∀ i, s'.read i = if dst ≤ i ∧ i < dst + len then s.read (src + (i - dst)) else s.read i := by
  refine ⟨_, if_pos ⟨hsrc, hdst⟩, rfl, rfl, rfl, Array.size_ofFn, fun i => ?_⟩
  rcases Nat.lt_or_ge i s.cells.size with hi | hi
  · simp [read, Array.getD_eq_getD_getElem?, hi]
  · rw [if_neg (by omega), read_of_size_le hi]
    exact read_of_size_le (by simpa using hi)

end Stack

@[simp] theorem withStack_steps (m : Machine) (f : Stack → Stack) :
    (withStack m f).steps = m.steps := by
  cases m; rfl

/-! ### The stored machine stands where the machine stands -/

/-- The stored machine `h` stands where the machine `m` stands: the same pointers, counters and
pending frame, a vector whose slots read as `m`'s stack, and `m`'s pointers within the vector. -/
structure Mirrors (h m : Machine) : Prop where
  ip : h.ip = m.ip
  pending : h.pending = m.pending
  depth : h.depth = m.depth
  steps : h.steps = m.steps
  fp : h.stack.fp = m.stack.fp
  sp : h.stack.sp = m.stack.sp
  ap : h.stack.ap = m.stack.ap
  read : ∀ i, h.stack.read i = m.stack.read i
  bounds : StackBounds m h.stack.cells.size

/-- A step of the stored machine that does what a step of the machine does. -/
structure Tracks (t' t : Transition) : Prop where
  machine : Mirrors t'.machine t.machine
  call : t'.call = t.call
  stop : t'.stop = t.stop

/-- The stored machine does not abort the host, and does what the machine does. -/
def Lifts (o : Option Transition) (t : Transition) : Prop := ∃ t', o = some t' ∧ Tracks t' t

theorem Tracks.lifts {t' t : Transition} (h : Tracks t' t) : Lifts (some t') t := ⟨t', rfl, h⟩

theorem Lifts.getD {o : Option Transition} {t : Transition} (h : Lifts o t) (d : Transition) :
    Tracks (o.getD d) t := by
  obtain ⟨t', rfl, ht⟩ := h
  exact ht

namespace Mirrors

open Stack

variable {h m : Machine}

theorem slotOf (hm : Mirrors h m) (r : Register) : h.stack.slotOf r = m.stack.slotOf r := by
  simp only [Stack.slotOf, Stack.window, hm.fp, hm.sp]

theorem address (hm : Mirrors h m) (p : Word) : h.stack.address p = m.stack.address p := by
  simp only [Stack.address, hm.sp]

theorem window (hm : Mirrors h m) : h.stack.window = m.stack.window := by
  simp only [Stack.window, hm.fp, hm.sp]

/-- Every slot below `sp` lies inside the vector. -/
theorem lt_size (hm : Mirrors h m) {i : Nat} (hi : i < m.stack.sp) : i < h.stack.cells.size :=
  Nat.lt_of_lt_of_le hi hm.bounds.sp_le

/-- A register reads from the vector what the machine reads. -/
theorem get? (hm : Mirrors h m) (r : Register) : h.stack.get? r = some (m.stack.get r) := by
  unfold Stack.get? Stack.get
  rw [hm.slotOf]
  cases hs : m.stack.slotOf r with
  | error e => rfl
  | ok i =>
    obtain ⟨rfl, hi⟩ := slotOf_eq_ok_iff.mp hs
    simp only [slot?_of_lt (hm.lt_size hi), hm.read, Option.map_some]

/-- A pointer loads from the vector what the machine loads. -/
theorem load? (hm : Mirrors h m) (p : Word) : h.stack.load? p = some (m.stack.load p) := by
  unfold Stack.load? Stack.load
  rw [hm.address]
  cases hs : m.stack.address p with
  | error e => rfl
  | ok i =>
    obtain ⟨rfl, hi⟩ := address_eq_ok_iff.mp hs
    simp only [slot?_of_lt (hm.lt_size hi), hm.read, Option.map_some]

theorem tracks_fault (hm : Mirrors h m) (e : Fault) : Tracks (fault h e) (fault m e) :=
  ⟨hm, rfl, rfl⟩

theorem lifts_fault (hm : Mirrors h m) (e : Fault) : Lifts (some (fault h e)) (fault m e) :=
  (hm.tracks_fault e).lifts

/-- Both write the same slot. -/
theorem write (hm : Mirrors h m) (i : Nat) (v : Word) :
    Mirrors { h with stack := h.stack.write i v } (withStack m (·.write i v)) where
  ip := by simp [hm.ip]
  pending := by simp [hm.pending]
  depth := by simp [hm.depth]
  steps := by simp [hm.steps]
  fp := by simp [hm.fp]
  sp := by simp [hm.sp]
  ap := by simp [hm.ap]
  read j := by simp [read_write, hm.read]
  bounds := hm.bounds.of_eq (by simp) (by simp) (by simp) (by simp)
    (by rw [size_write]; exact Nat.le_max_left _ _)

/-- Both move past the instruction and count it. -/
theorem move (hm : Mirrors h m) (q : Nat) :
    Mirrors { h with ip := q, steps := h.steps + 1 } { m with ip := q, steps := m.steps + 1 } :=
  ⟨rfl, hm.pending, hm.depth, by simp [hm.steps], hm.fp, hm.sp, hm.ap, hm.read,
    hm.bounds.of_eq rfl rfl rfl rfl le_rfl⟩

/-- Both jump. -/
theorem jump (hm : Mirrors h m) (q : Nat) : Mirrors { h with ip := q } { m with ip := q } :=
  ⟨rfl, hm.pending, hm.depth, hm.steps, hm.fp, hm.sp, hm.ap, hm.read,
    hm.bounds.of_eq rfl rfl rfl rfl le_rfl⟩

/-! ### Each instruction on both -/

theorem setRegister_lifts (hm : Mirrors h m) (r : Register) (v : Word) :
    Lifts (Stored.setRegister h r v) (setRegister m r v) := by
  unfold Stored.setRegister setRegister
  rw [hm.slotOf]
  cases hs : m.stack.slotOf r with
  | error e => exact hm.lifts_fault e
  | ok i =>
    obtain ⟨rfl, hi⟩ := slotOf_eq_ok_iff.mp hs
    simp only [setSlot?_of_lt (hm.lt_size hi), Option.map_some]
    exact ⟨_, rfl, hm.write _ v, rfl, rfl⟩

theorem system_lifts (hm : Mirrors h m) (c : SystemCall) :
    Lifts (Stored.system h c) (system m c) := by
  cases c with
  | nop | hi | bye => exact ⟨_, rfl, hm, rfl, rfl⟩
  | exit r | dbg r =>
    simp only [Stored.system, system, hm.get?, Option.map_some]
    cases m.stack.get r with
    | ok v => exact ⟨_, rfl, hm, rfl, rfl⟩
    | error e => exact hm.lifts_fault e

/-- `frm`: the stored machine makes room for the capture and the arguments, then both write the
capture at `sp`. -/
theorem prepare_mirrors (hm : Mirrors h m) (n : Byteword) :
    ∃ h', Stored.prepare h n = some h' ∧ Mirrors h' (prepare m) := by
  obtain ⟨ip, s, pending, depth, steps⟩ := m
  simp only [Stored.prepare, put_eq, reserve_sp, Option.bind_eq_bind, Option.bind_some,
    Option.pure_def]
  refine ⟨_, rfl, ?_⟩
  have hfs : s.fp ≤ s.sp := hm.bounds.fp_le_sp
  have hroom := lt_size_put (((h.stack.reserve (2 + n.toNat)).ensure (h.stack.sp + 1)).write
    h.stack.sp (Word.ofNat h.ip)) (h.stack.sp + 1) (Word.ofNat h.stack.fp)
  simp only [prepare]
  refine ⟨hm.ip, by simp [hm.sp], hm.depth, hm.steps, by simp [hm.fp], by simp [hm.sp],
    by simp [hm.sp], fun i => ?_, ⟨?_, ?_, ?_, ?_, ?_⟩⟩
  · simp only [read_mk, read_write, read_ensure, read_reserve, hm.read, hm.ip, hm.sp, hm.fp]
  all_goals simp only [write_fp, write_sp, hm.sp, hm.fp, Option.some.injEq] at hroom ⊢
  · exact hfs
  · omega
  · omega
  · omega
  · rintro k rfl
    exact le_rfl

/-- `arg`: the stored machine makes room for the argument slot, then both write it. -/
theorem pass_lifts (hm : Mirrors h m) (r : Register) : Lifts (Stored.pass h r) (pass m r) := by
  simp only [Stored.pass, pass, hm.get?, put_eq, Option.bind_eq_bind, Option.bind_some,
    Option.pure_def]
  cases m.stack.get r with
  | error e => exact hm.lifts_fault e
  | ok v =>
    have hb := hm.bounds
    have hroom := lt_size_put h.stack h.stack.ap v
    have hgrow := le_size_put h.stack h.stack.ap v
    have hfa : m.stack.fp ≤ m.stack.ap := hb.fp_le_ap
    refine ⟨_, rfl, ⟨⟨hm.ip, hm.pending, hm.depth, hm.steps, by simp [hm.fp], by simp [hm.sp],
      by simp [hm.ap], fun i => ?_, ⟨?_, ?_, ?_, ?_, ?_⟩⟩, rfl, rfl⟩⟩
    · simp only [withStack_stack, read_mk, read_write, read_ensure, hm.read, hm.ap]
    all_goals simp only [withStack_stack, withStack_pending, write_fp, write_sp, hm.ap]
      at hroom hgrow ⊢
    · exact hb.fp_le_sp
    · exact Nat.le_trans hb.sp_le hgrow
    · omega
    · exact hroom
    · intro k hk
      have := hb.pending k hk
      omega

/-- `cas`: the capture lies inside the vector; both write the return offset into it and enter
the frame. -/
theorem enter_lifts (hm : Mirrors h m) (o f : Nat) : Lifts (Stored.enter h o f) (enter m o f) := by
  obtain ⟨ip, s, pending, depth, steps⟩ := m
  have hb := hm.bounds
  simp only [Stored.enter, enter, hm.pending, put_eq, Option.bind_eq_bind, Option.bind_some,
    Option.pure_def]
  cases pending with
  | none => exact hm.lifts_fault _
  | some k =>
    have hk : k + 2 ≤ s.ap := hb.pending k rfl
    have hap : s.ap ≤ h.stack.cells.size := hb.ap_le
    have hgrow := le_size_put h.stack k (Word.ofNat h.ip)
    refine ⟨_, rfl, ⟨⟨rfl, rfl, by simp [hm.depth], hm.steps, rfl, by simp [hm.ap],
      by simp [hm.ap], fun i => ?_, ⟨?_, ?_, ?_, ?_, ?_⟩⟩, rfl, rfl⟩⟩
    · simp only [read_mk, read_write, read_ensure, hm.read, hm.ip]
    all_goals simp only [write_ap, reduceCtorEq, false_imp_iff, implies_true]
    all_goals omega

/-- `res`: the stored machine grows the vector to hold the new registers and clears them; the
machine reads them as zero. -/
theorem extend_lifts (hm : Mirrors h m) (n : Byteword) :
    Lifts ((h.stack.extendWindow n.toNat).map fun s => { machine := { h with stack := s } })
      { machine := withStack m (·.extend n.toNat) } := by
  obtain ⟨s', hs', hfp, hsp, hap, hsize, hread⟩ := h.stack.extendWindow_eq n.toNat
  have hb := hm.bounds
  have hroom := le_grow_need h.stack.cells.size (h.stack.sp + n.toNat)
  have hgrow := le_grow h.stack.cells.size (h.stack.sp + n.toNat)
  have hfs : m.stack.fp ≤ m.stack.sp := hb.fp_le_sp
  rw [hs', Option.map_some]
  refine ⟨_, rfl, ⟨⟨hm.ip, hm.pending, hm.depth, hm.steps, by simp [hfp, hm.fp],
    by simp [hsp, hm.sp], by simp [hap, hm.ap], fun i => ?_, ⟨?_, ?_, ?_, ?_, ?_⟩⟩, rfl, rfl⟩⟩
  · simp only [withStack_stack, hread, read_extend, hm.sp, hm.read]
  all_goals simp only [withStack_stack, withStack_pending, extend_fp, extend_sp, extend_ap,
    hsize, hm.sp] at hroom hgrow ⊢
  · omega
  · exact hroom
  · exact hb.fp_le_ap
  · exact Nat.le_trans hb.ap_le hgrow
  · exact hb.pending

theorem loadVia_lifts (hm : Mirrors h m) (d r : Register) :
    Lifts (Stored.loadVia h d r) (loadVia m d r) := by
  simp only [Stored.loadVia, loadVia, hm.get?, hm.load?, Option.bind_eq_bind, Option.bind_some,
    Option.pure_def]
  cases m.stack.get r with
  | error e => exact hm.lifts_fault e
  | ok p =>
    dsimp only
    cases m.stack.load p with
    | error e => exact hm.lifts_fault e
    | ok v => exact hm.setRegister_lifts d v

theorem storeVia_lifts (hm : Mirrors h m) (d r : Register) :
    Lifts (Stored.storeVia h d r) (storeVia m d r) := by
  simp only [Stored.storeVia, storeVia, hm.get?, Option.bind_eq_bind, Option.bind_some,
    Option.pure_def]
  cases m.stack.get d with
  | error e => exact hm.lifts_fault e
  | ok p =>
    dsimp only
    cases m.stack.get r with
    | error e => exact hm.lifts_fault e
    | ok v =>
      dsimp only
      simp only [Stack.store?, Stack.store, hm.address]
      cases ha : m.stack.address p with
      | error e => exact hm.lifts_fault e
      | ok i =>
        obtain ⟨rfl, hi⟩ := address_eq_ok_iff.mp ha
        simp only [setSlot?_of_lt (hm.lt_size hi), Option.map_some, Option.bind_some]
        exact ⟨_, rfl, hm.write _ v, rfl, rfl⟩

theorem compute_lifts (hm : Mirrors h m) (op : BinaryOp) (d a b : Register) :
    Lifts (Stored.compute h op d a b) (compute m op d a b) := by
  simp only [Stored.compute, compute, hm.get?, Option.bind_eq_bind, Option.bind_some,
    Option.pure_def]
  cases m.stack.get a with
  | error e => exact hm.lifts_fault e
  | ok x =>
    dsimp only
    cases m.stack.get b with
    | error e => exact hm.lifts_fault e
    | ok y => exact hm.setRegister_lifts d _

/-- `ret`: the same checks on both. Where the capture would lie below slot 0 the host aborts,
and the machine stops with `Stop.underflow`; otherwise the capture and the returned registers
lie inside the vector, and both move the registers down over the capture. -/
theorem leave_tracks (hm : Mirrors h m) (o : Nat) (v : Register) (n : Byteword) :
    Tracks ((Stored.leave h o v n).getD { machine := h, stop := some .underflow })
      (leave m o v n) := by
  obtain ⟨ip, s, pending, depth, steps⟩ := m
  have hb := hm.bounds
  unfold Stored.leave leave
  simp only [hm.depth, hm.window, hm.fp]
  by_cases hd : depth = 0
  · simp only [if_pos hd, Option.getD_some]
    exact hm.tracks_fault _
  by_cases hw : s.window < v.toNat + n.toNat
  · simp only [hd, hw, if_true, if_false, Option.getD_some]
    exact hm.tracks_fault _
  by_cases hfp : s.fp < 2
  · simp only [hd, hw, hfp, if_true, if_false, Option.getD_none]
    exact ⟨hm, rfl, rfl⟩
  have hfs : s.fp ≤ s.sp := hb.fp_le_sp
  have hsize : s.sp ≤ h.stack.cells.size := hb.sp_le
  have hwin : s.fp + v.toNat + n.toNat ≤ s.sp := by unfold Stack.window at hw; omega
  simp only [hd, hw, hfp, if_false,
    slot?_of_lt (hm.lt_size (show s.fp - 2 < s.sp by omega)),
    slot?_of_lt (hm.lt_size (show s.fp - 2 + 1 < s.sp by omega)), hm.read, Option.bind_eq_bind,
    Option.bind_some]
  by_cases hc : s.fp - 2 < (s.read (s.fp - 2 + 1)).toNat
  · simp only [hc, if_true, Option.pure_def, Option.getD_some]
    exact hm.tracks_fault _
  obtain ⟨s', hs', hfp', hsp', hap', hsize', hread'⟩ := @copyWithin_eq h.stack
    (s.fp + v.toNat) n.toNat (s.fp - 2) (by omega) (by omega)
  simp only [hc, if_false, hs', Option.bind_some, Option.pure_def, Option.getD_some]
  refine ⟨⟨rfl, rfl, rfl, hm.steps, rfl, rfl, rfl, fun i => ?_,
    ⟨?_, ?_, ?_, ?_, ?_⟩⟩, rfl, rfl⟩
  · simp only [read_mk, hread', read_copyDown (show s.fp - 2 ≤ s.fp + v.toNat by omega), hm.read]
  all_goals simp only [hsize', reduceCtorEq, false_imp_iff, implies_true]
  all_goals omega

/-- Each instruction does on both the same thing; a `ret` that aborts the host stops the stored
machine with `Stop.underflow`, where the machine stops with it too. -/
theorem execute_tracks (hm : Mirrors h m) (o : Nat) (i : Instruction Nat) :
    Tracks ((Stored.execute h o i).getD { machine := h, stop := some .underflow })
      (execute m o i) := by
  cases i with
  | nop => exact ⟨hm, rfl, rfl⟩
  | sys c => exact (hm.system_lifts c).getD _
  | frm n =>
    obtain ⟨h', hp, hm'⟩ := hm.prepare_mirrors n
    simp only [Stored.execute, execute, hp, Option.map_some, Option.getD_some]
    exact ⟨hm', rfl, rfl⟩
  | arg r => exact (hm.pass_lifts r).getD _
  | cas f => exact (hm.enter_lifts o f).getD _
  | res n => exact (hm.extend_lifts n).getD _
  | ret v n => exact hm.leave_tracks o v n
  | sca r w => exact (hm.setRegister_lifts r w).getD _
  | loc r l => exact (hm.setRegister_lifts r _).getD _
  | loa d r => exact (hm.loadVia_lifts d r).getD _
  | sto d r => exact (hm.storeVia_lifts d r).getD _
  | mov d r =>
    simp only [Stored.execute, execute, hm.get?, Option.bind_eq_bind, Option.bind_some,
      Option.pure_def]
    cases m.stack.get r with
    | error e => exact hm.tracks_fault e
    | ok v => exact (hm.setRegister_lifts d v).getD _
  | jmp l => exact ⟨hm.jump l, rfl, rfl⟩
  | jnz l r =>
    simp only [Stored.execute, execute, hm.get?, Option.map_some, Option.getD_some]
    cases m.stack.get r with
    | error e => exact hm.tracks_fault e
    | ok v =>
      refine ⟨?_, rfl, rfl⟩
      by_cases hz : v.isZero
      · simp only [hz]
        exact hm
      · simp only [hz]
        exact hm.jump l
  | binary op d a b => exact (hm.compute_lifts op d a b).getD _

end Mirrors

/-- A step does on both the same thing. -/
theorem step_tracks (code : Bytecode) {h m : Machine} (hm : Mirrors h m) :
    Tracks (Stored.step code h) (step code m) := by
  unfold Stored.step step
  dsimp only
  rw [hm.ip]
  split_ifs
  · exact hm.tracks_fault _
  · exact hm.tracks_fault _
  · cases Instruction.decode (Cursor.ofPos code m.ip) with
    | error e => exact hm.tracks_fault e
    | ok p => exact (hm.move p.2.pos).execute_tracks m.ip p.1

/-- Runs from mirroring machines make the same calls and stop the same way, at mirroring
machines. -/
theorem run_tracks (code : Bytecode) (limit : Option Nat) (fuel : Nat) {h m : Machine}
    (hm : Mirrors h m) (calls : Array Call) :
    Mirrors (Stored.run code limit fuel h calls).machine (run code limit fuel m calls).machine ∧
      (Stored.run code limit fuel h calls).calls = (run code limit fuel m calls).calls ∧
      (Stored.run code limit fuel h calls).stop = (run code limit fuel m calls).stop := by
  induction fuel generalizing h m calls with
  | zero => exact ⟨hm, rfl, rfl⟩
  | succ fuel ih =>
    have ht := step_tracks code hm
    simp only [Stored.run, run, hm.steps, ht.call, ht.stop]
    cases limit.filter (· ≤ m.steps) with
    | some l => exact ⟨hm, rfl, rfl⟩
    | none =>
      cases (step code m).stop with
      | some s => exact ⟨ht.machine, rfl, rfl⟩
      | none => exact ih ht.machine _

theorem mirrors_start : Mirrors Stored.start {} where
  ip := rfl
  pending := rfl
  depth := rfl
  steps := rfl
  fp := rfl
  sp := rfl
  ap := rfl
  read i := by
    simp only [Stored.start, Stored.startStack, Stack.read, Array.getD_eq_getD_getElem?,
      Array.getElem?_replicate]
    split <;> rfl
  bounds := StackBounds.start

/-- The stored machine's run from the start shows what the machine's run shows. -/
theorem Stored.run_outcome (code : Bytecode) (limit : Option Nat) (fuel : Nat) :
    (Stored.run code limit fuel Stored.start #[]).outcome =
      (Machine.run code limit fuel {} #[]).outcome := by
  obtain ⟨hm, hcalls, hstop⟩ := run_tracks code limit fuel mirrors_start #[]
  simp only [Run.outcome, hcalls, hstop, hm.ip, hm.steps]

end WindowVm.Machine
