import Mathlib
import WindowVm.Machine.Storage
import WindowVm.Machine.Run
import WindowVm.Proofs.Transitions

/-!
# The register stack stays within its storage

On every run from the start the pointers of the register stack stay within the storage that
holds it (`Machine.StackBounds`): `fp ≤ sp` and `fp ≤ ap`, both `sp` and `ap` at most the
storage's length, and the capture of a prepared frame ends at or below `ap`. Within these bounds
no instruction indexes past the end of the storage (`StackBounds.storageUses_fit`): registers and
pointers index below `sp`, the capture that `ret` reads lies just below `fp`, and `frm`, `arg`,
`cas` and `res` make room before they write. Each instruction that executes keeps the bounds in
the storage its uses leave (`StackBounds.executes`), so by induction over the run the bounds hold
at every machine it reaches (`Machine.registerStack_inBounds`).

The one step that aborts the host is a `ret` in a call whose frame pointer is below 2, where
the capture would lie below slot 0 (`Machine.step_stop_underflow`). A callee reaches it by writing
over its capture through a pointer (`Machine.clobberedCapture`).
-/

namespace WindowVm.Machine

open Stack

/-! ## Uses of the storage -/

@[simp] theorem applyUses_nil (len : Nat) : applyUses [] len = some len := rfl

@[simp] theorem applyUses_reserve (n len : Nat) (us : List Use) :
    applyUses (.reserve n :: us) len = applyUses us (grow len n) := rfl

theorem applyUses_index {lo hi len : Nat} (us : List Use) (h : lo ≤ hi) (h' : hi ≤ len) :
    applyUses (.index lo hi :: us) len = applyUses us len := by
  simp [applyUses, Use.apply, h, h']

theorem applyUses_slot {i len : Nat} (us : List Use) (h : i < len) :
    applyUses (Use.slot i :: us) len = applyUses us len :=
  applyUses_index us (Nat.le_succ i) h

/-- Writing a frame slot makes room for it first, so it never indexes past the end. -/
theorem applyUses_put (i len : Nat) (us : List Use) :
    applyUses (Use.put i ++ us) len = applyUses us (grow len (i + 1)) := by
  simp only [Use.put, List.cons_append, List.nil_append, applyUses_reserve]
  exact applyUses_slot us (le_grow_need len (i + 1))

/-- The storage only grows. -/
theorem le_of_applyUses {us : List Use} {len len' : Nat} (h : applyUses us len = some len') :
    len ≤ len' := by
  induction us generalizing len with
  | nil => exact Nat.le_of_eq (Option.some.inj h)
  | cons u us ih =>
    cases u with
    | reserve n => exact Nat.le_trans (le_grow len n) (ih h)
    | index lo hi =>
      simp only [applyUses, Use.apply] at h
      split at h
      · exact ih h
      · simp at h

/-- Room made along the way is still there at the end. -/
theorem le_of_reserve_mem {us : List Use} {len len' n : Nat} (h : applyUses us len = some len')
    (hn : Use.reserve n ∈ us) : n ≤ len' := by
  induction us generalizing len with
  | nil => simp at hn
  | cons u us ih =>
    rcases List.mem_cons.mp hn with rfl | hmem
    · exact Nat.le_trans (le_grow_need len n)
        (le_of_applyUses (show applyUses us (grow len n) = some len' from h))
    · cases u with
      | reserve m => exact ih h hmem
      | index lo hi =>
        simp only [applyUses, Use.apply] at h
        split at h
        · exact ih h hmem
        · simp at h

theorem applyUses_viaRegister {s : Stack} {r : Register} {rest : Word → List Use} {len : Nat}
    (hsp : s.sp ≤ len) (hrest : ∀ v, ∃ len', applyUses (rest v) len = some len') :
    ∃ len', applyUses (viaRegister s r rest) len = some len' := by
  unfold viaRegister
  cases h : s.slotOf r with
  | error e => exact ⟨len, rfl⟩
  | ok i =>
    obtain ⟨rfl, hi⟩ := slotOf_eq_ok_iff.mp h
    rw [applyUses_slot _ (by omega)]
    exact hrest _

theorem applyUses_viaPointer {s : Stack} {p : Word} {rest : List Use} {len : Nat}
    (hsp : s.sp ≤ len) (hrest : ∃ len', applyUses rest len = some len') :
    ∃ len', applyUses (viaPointer s p rest) len = some len' := by
  unfold viaPointer
  cases h : s.address p with
  | error e => exact ⟨len, rfl⟩
  | ok i =>
    obtain ⟨rfl, hi⟩ := address_eq_ok_iff.mp h
    rw [applyUses_slot _ (by omega)]
    exact hrest

/-! ## The bounds of the register stack -/

/-- The pointers of the register stack within a storage of `len` slots: the window `[fp, sp)`
and the arguments `[fp, ap)` lie in it, and a prepared frame's capture lies below `ap`. -/
structure StackBounds (m : Machine) (len : Nat) : Prop where
  fp_le_sp : m.stack.fp ≤ m.stack.sp
  sp_le : m.stack.sp ≤ len
  fp_le_ap : m.stack.fp ≤ m.stack.ap
  ap_le : m.stack.ap ≤ len
  pending : ∀ k, m.pending = some k → k + 2 ≤ m.stack.ap

theorem StackBounds.start : StackBounds {} initialSlots :=
  ⟨le_rfl, by decide, le_rfl, by decide, by simp⟩

/-- Within the bounds, no instruction indexes past the end of the storage. -/
theorem StackBounds.storageUses_fit {m : Machine} {len : Nat} (hb : StackBounds m len)
    (i : Instruction Nat) : ∃ len', applyUses (storageUses m i) len = some len' := by
  have hsp := hb.sp_le
  have done : ∃ len', applyUses [] len = some len' := ⟨len, rfl⟩
  have reg : ∀ r (rest : Word → List Use), (∀ v, ∃ len', applyUses (rest v) len = some len') →
      ∃ len', applyUses (viaRegister m.stack r rest) len = some len' :=
    fun _ _ h => applyUses_viaRegister hsp h
  cases i with
  | nop | jmp _ => exact done
  | sys c => cases c <;> first | exact done | exact reg _ _ fun _ => done
  | sca r _ | loc r _ | jnz _ r => exact reg _ _ fun _ => done
  | mov d r => exact reg _ _ fun _ => reg _ _ fun _ => done
  | binary _ d a b => exact reg _ _ fun _ => reg _ _ fun _ => reg _ _ fun _ => done
  | loa d r =>
    simp only [storageUses]
    exact reg _ _ fun _ => applyUses_viaPointer hsp (reg _ _ fun _ => done)
  | sto d r =>
    simp only [storageUses]
    exact reg _ _ fun _ => reg _ _ fun _ => applyUses_viaPointer hsp done
  | frm n =>
    simp only [storageUses, List.cons_append, applyUses_reserve]
    rw [applyUses_put, ← List.append_nil (Use.put _), applyUses_put]
    exact ⟨_, rfl⟩
  | arg r =>
    simp only [storageUses]
    refine reg _ _ fun _ => ?_
    rw [← List.append_nil (Use.put _), applyUses_put]
    exact ⟨_, rfl⟩
  | cas f =>
    cases hp : m.pending with
    | none => simp [storageUses, hp]
    | some k =>
      simp only [storageUses, hp]
      rw [← List.append_nil (Use.put _), applyUses_put]
      exact ⟨_, rfl⟩
  | res n =>
    simp only [storageUses, applyUses_reserve]
    rw [applyUses_index _ (Nat.le_add_right _ _) (le_grow_need _ _)]
    exact ⟨_, rfl⟩
  | ret v n =>
    simp only [storageUses, returnUses]
    split
    · exact done
    · rename_i hchecks
      simp only [not_or, Nat.not_lt, window] at hchecks
      obtain ⟨-, hwin, hfp⟩ := hchecks
      have hfpsp := hb.fp_le_sp
      rw [applyUses_slot _ (by omega), applyUses_slot _ (by omega)]
      split
      · exact done
      · rw [applyUses_index _ (by omega) (by omega), applyUses_index _ (by omega) (by omega)]
        exact done

/-- Bounds carry over to a machine with the same pointers and pending frame, in a vector at
least as long. -/
theorem StackBounds.of_eq {m m' : Machine} {len len' : Nat} (hb : StackBounds m len)
    (hfp : m'.stack.fp = m.stack.fp) (hsp : m'.stack.sp = m.stack.sp)
    (hap : m'.stack.ap = m.stack.ap) (hp : m'.pending = m.pending) (hlen : len ≤ len') :
    StackBounds m' len' where
  fp_le_sp := by rw [hfp, hsp]; exact hb.fp_le_sp
  sp_le := by rw [hsp]; exact Nat.le_trans hb.sp_le hlen
  fp_le_ap := by rw [hfp, hap]; exact hb.fp_le_ap
  ap_le := by rw [hap]; exact Nat.le_trans hb.ap_le hlen
  pending := by rw [hp, hap]; exact hb.pending

/-- An instruction that executes keeps the bounds, in the storage its uses leave. `frm`, `arg`
and `res` move a pointer up only as far as the room they make; `cas` starts the window at the
capture's end, which lies below `ap`; `ret` ends the caller's window inside the callee's. -/
theorem StackBounds.executes {code : Bytecode} {m m' : Machine} {i : Instruction Nat}
    {next len len' : Nat} (hb : StackBounds m len) (h : Executes code m i next m')
    (huses : applyUses (storageUses m i) len = some len') : StackBounds m' len' := by
  have hle := le_of_applyUses huses
  cases i with
  | nop | sys _ | sca _ _ | loc _ _ | loa _ _ | mov _ _ | jmp _ | jnz _ _ | binary _ _ _ _ =>
    have keep := h.keepsOutside rfl
    exact hb.of_eq keep.fp keep.sp keep.ap keep.pending hle
  | sto d r =>
    obtain ⟨p, v, -, -, hs, hp, -⟩ := h.sto
    exact hb.of_eq (by rw [hs, write_fp]) (by rw [hs, write_sp]) (by rw [hs, write_ap]) hp hle
  | frm n =>
    obtain ⟨hs, hp, -⟩ := h.frm
    have hroom : m.stack.sp + 1 + 1 ≤ len' :=
      le_of_reserve_mem huses (by simp [storageUses, Use.put])
    have := hb.fp_le_sp
    have := hb.sp_le
    refine ⟨?_, ?_, ?_, ?_, ?_⟩ <;> simp only [hs, hp, write_fp, write_sp, Option.some.injEq]
    · exact hb.fp_le_sp
    · omega
    · omega
    · omega
    · rintro k rfl
      exact le_rfl
  | arg r =>
    obtain ⟨v, hget, hs, hp, -⟩ := h.arg
    obtain ⟨hin, -⟩ := get_eq_ok_iff.mp hget
    have hslot : m.stack.slotOf r = .ok (m.stack.fp + r.toNat) := slotOf_eq_ok_iff.mpr ⟨rfl, hin⟩
    have hroom : m.stack.ap + 1 ≤ len' :=
      le_of_reserve_mem huses (by simp [storageUses, viaRegister, hslot, Use.put])
    have := hb.fp_le_ap
    refine ⟨?_, ?_, ?_, ?_, ?_⟩ <;> simp only [hs, hp, write_fp, write_sp]
    · exact hb.fp_le_sp
    · exact Nat.le_trans hb.sp_le hle
    · omega
    · exact hroom
    · intro k hk
      have := hb.pending k hk
      omega
  | cas f =>
    obtain ⟨k, hk, -, hs, hp, -⟩ := h.cas
    have hcap := hb.pending k hk
    have := hb.ap_le
    refine ⟨?_, ?_, ?_, ?_, ?_⟩ <;> simp only [hs, hp, reduceCtorEq, false_imp_iff, implies_true]
    all_goals omega
  | res n =>
    obtain ⟨hs, hp, -⟩ := h.res
    have hroom : m.stack.sp + n.toNat ≤ len' :=
      le_of_reserve_mem huses (by simp [storageUses])
    have := hb.fp_le_sp
    refine ⟨?_, ?_, ?_, ?_, ?_⟩ <;> simp only [hs, hp, extend_fp, extend_sp, extend_ap]
    · omega
    · exact hroom
    · exact hb.fp_le_ap
    · exact Nat.le_trans hb.ap_le hle
    · exact hb.pending
  | ret v n =>
    obtain ⟨-, hwin, hfp, hcaller, -, hs, hp, -⟩ := h.ret
    have := hb.fp_le_sp
    have := hb.sp_le
    simp only [window] at hwin
    refine ⟨?_, ?_, ?_, ?_, ?_⟩ <;> simp only [hs, hp, reduceCtorEq, false_imp_iff,
      implies_true]
    all_goals omega

/-! ## Runs -/

/-- A step that goes on, with the storage length before it and after it. -/
def GoesWith (code : Bytecode) (p q : Machine × Nat) : Prop :=
  Goes code p.1 q.1 ∧ storageStep code p.1 p.2 = some q.2

theorem storageStep_of_executes {code : Bytecode} {m m' : Machine} {i : Instruction Nat}
    {next : Nat} (h : Executes code m i next m') (len : Nat) :
    storageStep code m len = applyUses (storageUses m i) len := by
  simp only [storageStep, h.decode]

/-- Within the bounds, the next step indexes nothing past the end of the storage. -/
theorem StackBounds.storageStep_fit {m : Machine} {len : Nat} (hb : StackBounds m len)
    (code : Bytecode) : ∃ len', storageStep code m len = some len' := by
  unfold storageStep
  split
  · exact hb.storageUses_fit _
  · exact ⟨len, rfl⟩

theorem StackBounds.goesWith {code : Bytecode} {m m' : Machine} {len len' : Nat}
    (hb : StackBounds m len) (h : GoesWith code (m, len) (m', len')) : StackBounds m' len' := by
  obtain ⟨i, next, hex⟩ := h.1.executes
  exact hb.executes hex (storageStep_of_executes hex len ▸ h.2)

/-- Every machine a run reaches from the start it reaches with the storage alongside, every use
of the storage in bounds on the way, and the bounds hold there. -/
theorem reaches_with_storage {code : Bytecode} {m : Machine}
    (h : Relation.ReflTransGen (Goes code) {} m) :
    ∃ len, Relation.ReflTransGen (GoesWith code) ({}, initialSlots) (m, len) ∧
      StackBounds m len := by
  induction h with
  | refl => exact ⟨initialSlots, .refl, StackBounds.start⟩
  | tail _ hgo ih =>
    obtain ⟨len, hrun, hb⟩ := ih
    obtain ⟨len', hfit⟩ := hb.storageStep_fit code
    have hw : GoesWith code (_, len) (_, len') := ⟨hgo, hfit⟩
    exact ⟨len', hrun.tail hw, hb.goesWith hw⟩

/-- `ret` aborts the host exactly in a call, with its registers in the window and the frame
pointer below 2. -/
theorem leave_stop_underflow {m : Machine} {o : Nat} {v : Register} {n : Byteword} :
    (leave m o v n).stop = some .underflow ↔
      m.depth ≠ 0 ∧ v.toNat + n.toNat ≤ m.stack.window ∧ m.stack.fp < 2 := by
  unfold leave
  by_cases hd : m.depth = 0
  · simp [hd, fault]
  by_cases hw : m.stack.window < v.toNat + n.toNat
  · simp [hd, hw, fault]
  by_cases hfp : m.stack.fp < 2
  · simp [hd, hw, hfp]
    omega
  · simp only [hd, hw, hfp, if_false]
    split <;> simp [fault]

theorem execute_stop_underflow {m : Machine} {o : Nat} {i : Instruction Nat} :
    (execute m o i).stop = some .underflow ↔
      ∃ v n, i = .ret v n ∧ m.depth ≠ 0 ∧ v.toNat + n.toNat ≤ m.stack.window ∧
        m.stack.fp < 2 := by
  cases i with
  | ret v n => simpa [execute] using leave_stop_underflow
  | _ =>
    simp [execute, system, pass, enter, setRegister, loadVia, storeVia, compute, fault]
    repeat' split
    all_goals simp_all

/-- The only step that aborts the host is a `ret` decoded at the instruction pointer, in a call,
with its registers in the window and the frame pointer below 2. -/
theorem step_stop_underflow {code : Bytecode} {m : Machine} :
    (step code m).stop = some .underflow ↔
      ∃ v n c, Instruction.decode (Cursor.ofPos code m.ip) = .ok (.ret v n, c) ∧
        m.depth ≠ 0 ∧ v.toNat + n.toNat ≤ m.stack.window ∧ m.stack.fp < 2 := by
  cases hd : Instruction.decode (Cursor.ofPos code m.ip) with
  | error e =>
    simp only [step, hd]
    split_ifs <;> simp [fault]
  | ok p =>
    obtain ⟨i, c⟩ := p
    rw [step_of_decode hd, execute_stop_underflow]
    simp [window]

/-- A run that has not stopped went from machine to machine by steps that go on. -/
theorem reaches_of_run {code : Bytecode} {limit : Option Nat} {fuel : Nat} {m : Machine}
    {calls : Array Call} (h : (run code limit fuel m calls).stop = none) :
    Relation.ReflTransGen (Goes code) m (run code limit fuel m calls).machine := by
  induction fuel generalizing m calls with
  | zero => exact .refl
  | succ fuel ih =>
    unfold run at h ⊢
    cases hlim : limit.filter (· ≤ m.steps) with
    | some l => simp [hlim] at h
    | none =>
      simp only [hlim] at h ⊢
      cases hstop : (step code m).stop with
      | some s => simp [hstop] at h
      | none =>
        simp only [hstop] at h ⊢
        exact .head ⟨hstop, rfl⟩ (ih h)

/-- On every run from the start, whatever the step limit, the register stack stays within its
storage: the window and the arguments lie in it, a prepared frame's capture lies below `ap`, and
the next step indexes nothing past the end. The one step that aborts the host is a `ret` in a
call with the frame pointer below 2; every other step goes on, exits or faults. -/
theorem registerStack_inBounds (code : Bytecode) {m : Machine}
    (h : Relation.ReflTransGen (Goes code) {} m) :
    ∃ len, Relation.ReflTransGen (GoesWith code) ({}, initialSlots) (m, len) ∧
      StackBounds m len ∧ (∃ len', storageStep code m len = some len') ∧
      ((step code m).stop = some .underflow ↔
        ∃ v n c, Instruction.decode (Cursor.ofPos code m.ip) = .ok (.ret v n, c) ∧
          m.depth ≠ 0 ∧ v.toNat + n.toNat ≤ m.stack.window ∧ m.stack.fp < 2) := by
  obtain ⟨len, hrun, hb⟩ := reaches_with_storage h
  exact ⟨len, hrun, hb, hb.storageStep_fit code, step_stop_underflow⟩

/-- Two nested calls; the inner callee grows its window past the first eight slots and writes
zero over its capture's caller frame pointer through a pointer to it, then returns. Back in the
outer callee the frame pointer is 0 at depth 1, so its own `ret` aborts the host. -/
def clobberedCapture : Bytecode :=
  Bytecode.ofList [.frm 0, .cas 8, .frm 0, .cas 19, .ret 0 0, .res 10, .sca 0 (Word.ofNat 3),
    .sto 0 1, .ret 0 0]

/-- `clobberedCapture` back in the outer callee, at its `ret`. -/
def clobberedReturned : Machine := (run clobberedCapture none 8 {} #[]).machine

theorem clobberedCapture_underflow :
    Relation.ReflTransGen (Goes clobberedCapture) {} clobberedReturned ∧
      (step clobberedCapture clobberedReturned).stop = some .underflow ∧
      ∃ len, Relation.ReflTransGen (GoesWith clobberedCapture) ({}, initialSlots)
          (clobberedReturned, len) ∧
        StackBounds clobberedReturned len ∧
        (∃ len', storageStep clobberedCapture clobberedReturned len = some len') ∧
        ((step clobberedCapture clobberedReturned).stop = some .underflow ↔
          ∃ v n c, Instruction.decode (Cursor.ofPos clobberedCapture clobberedReturned.ip) =
              .ok (.ret v n, c) ∧
            clobberedReturned.depth ≠ 0 ∧ v.toNat + n.toNat ≤ clobberedReturned.stack.window ∧
            clobberedReturned.stack.fp < 2) := by
  have hgoes : (run clobberedCapture none 8 {} #[]).stop = none := by rfl
  have hreach : Relation.ReflTransGen (Goes clobberedCapture) {} clobberedReturned :=
    reaches_of_run hgoes
  have hstop : (step clobberedCapture clobberedReturned).stop = some .underflow := by rfl
  exact ⟨hreach, hstop, registerStack_inBounds clobberedCapture hreach⟩

end WindowVm.Machine
