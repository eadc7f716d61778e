import WindowVm.Proofs.Capacity

/-!
# The storage the machine counts is the stored machine's vector

`storageStep` follows the length of the register stack's storage through a step, from what the
instruction does with it (`storageUses`); the stored machine keeps the storage itself. Where the
stored machine mirrors the machine, the length `storageStep` gives is the length of the stored
machine's vector after its step (`Mirrors.storageStep_eq`): an instruction that makes no room
keeps the vector's length (`KeepsLength`), and `frm`, `arg`, `cas` and `res` grow it as their
uses say.

Main statement (`reaches_stored`): every machine a run reaches from the start is mirrored by a
stored machine that the stored machine's own steps reach, and the storage lengths along the run,
those of `registerStack_inBounds`, are the lengths of that machine's vector.
-/

namespace WindowVm.Machine

open Stack

/-- Every transition the stored machine may take from `h` keeps the length of its vector. -/
def KeepsLength (h : Machine) (o : Option Transition) : Prop :=
  ∀ t ∈ o, t.machine.stack.cells.size = h.stack.cells.size

/-- A slot written inside the vector keeps its length. -/
theorem size_setSlot? {s s' : Stack} {i : Nat} {v : Word} (h : s.setSlot? i v = some s') :
    s'.cells.size = s.cells.size := by
  unfold setSlot? at h
  split at h
  · cases h
    rw [size_write]
    omega
  · cases h

theorem keepsLength_fault (h : Machine) (e : Fault) : KeepsLength h (some (fault h e)) := by
  rintro t ⟨⟩
  rfl

theorem keepsLength_setRegister (h : Machine) (r : Register) (v : Word) :
    KeepsLength h (Stored.setRegister h r v) := by
  intro t ht
  unfold Stored.setRegister at ht
  split at ht
  · exact keepsLength_fault h _ t ht
  · obtain ⟨s, hs, rfl⟩ := Option.map_eq_some_iff.mp ht
    exact size_setSlot? hs

theorem keepsLength_loadVia (h : Machine) (d r : Register) :
    KeepsLength h (Stored.loadVia h d r) := by
  intro t ht
  simp only [Stored.loadVia, Option.bind_eq_bind, Option.mem_def, Option.bind_eq_some_iff] at ht
  obtain ⟨x, -, ht⟩ := ht
  split at ht
  · exact keepsLength_fault h _ t ht
  · obtain ⟨y, -, ht⟩ := Option.bind_eq_some_iff.mp ht
    split at ht
    · exact keepsLength_fault h _ t ht
    · exact keepsLength_setRegister h d _ t ht

theorem keepsLength_storeVia (h : Machine) (d r : Register) :
    KeepsLength h (Stored.storeVia h d r) := by
  intro t ht
  simp only [Stored.storeVia, Option.bind_eq_bind, Option.mem_def, Option.bind_eq_some_iff] at ht
  obtain ⟨x, -, ht⟩ := ht
  split at ht
  · exact keepsLength_fault h _ t ht
  · obtain ⟨y, -, ht⟩ := Option.bind_eq_some_iff.mp ht
    split at ht
    · exact keepsLength_fault h _ t ht
    · obtain ⟨z, hz, ht⟩ := Option.bind_eq_some_iff.mp ht
      split at ht
      · exact keepsLength_fault h _ t ht
      · cases ht
        unfold store? at hz
        split at hz
        · obtain ⟨s, hs, hs'⟩ := Option.map_eq_some_iff.mp hz
          cases hs'
          exact size_setSlot? hs
        · cases hz

theorem keepsLength_compute (h : Machine) (op : BinaryOp) (d a b : Register) :
    KeepsLength h (Stored.compute h op d a b) := by
  intro t ht
  simp only [Stored.compute, Option.bind_eq_bind, Option.mem_def, Option.bind_eq_some_iff] at ht
  obtain ⟨x, -, ht⟩ := ht
  split at ht
  · exact keepsLength_fault h _ t ht
  · obtain ⟨y, -, ht⟩ := Option.bind_eq_some_iff.mp ht
    split at ht
    · exact keepsLength_fault h _ t ht
    · exact keepsLength_setRegister h d _ t ht

theorem keepsLength_system (h : Machine) (c : SystemCall) : KeepsLength h (Stored.system h c) := by
  intro t ht
  cases c with
  | nop | hi | bye => cases ht; rfl
  | exit r | dbg r =>
    obtain ⟨x, -, rfl⟩ := Option.map_eq_some_iff.mp ht
    split <;> rfl

theorem keepsLength_leave (h : Machine) (o : Nat) (v : Register) (n : Byteword) :
    KeepsLength h (Stored.leave h o v n) := by
  intro t ht
  unfold Stored.leave at ht
  dsimp only at ht
  split_ifs at ht
  · exact keepsLength_fault h _ t ht
  · exact keepsLength_fault h _ t ht
  · cases ht
  · simp only [Option.bind_eq_bind, Option.mem_def, Option.bind_eq_some_iff] at ht
    obtain ⟨back, -, callerFp, -, ht⟩ := ht
    split_ifs at ht
    · exact keepsLength_fault h _ t ht
    · obtain ⟨s, hs, ht⟩ := Option.bind_eq_some_iff.mp ht
      cases ht
      unfold copyWithin at hs
      split_ifs at hs
      cases hs
      exact Array.size_ofFn

/-- Uses that make no room leave the length as it is. -/
theorem applyUses_eq_of_not_reserve {us : List Use} {len len' : Nat}
    (h : applyUses us len = some len') (hus : ∀ n, Use.reserve n ∉ us) : len' = len := by
  induction us generalizing len with
  | nil => exact (Option.some.inj h).symm
  | cons u us ih =>
    cases u with
    | reserve n => exact absurd List.mem_cons_self (hus n)
    | index lo hi =>
      simp only [applyUses, Use.apply] at h
      split at h
      · exact ih h fun n hn => hus n (List.mem_cons_of_mem _ hn)
      · simp at h

/-- Reading registers and pointers makes no room. -/
theorem not_reserve_viaRegister {s : Stack} {r : Register} {rest : Word → List Use}
    (hrest : ∀ v n, Use.reserve n ∉ rest v) (n : Nat) : Use.reserve n ∉ viaRegister s r rest := by
  unfold viaRegister
  split
  · simp [Use.slot, hrest]
  · simp

theorem not_reserve_viaPointer {s : Stack} {p : Word} {rest : List Use}
    (hrest : ∀ n, Use.reserve n ∉ rest) (n : Nat) : Use.reserve n ∉ viaPointer s p rest := by
  unfold viaPointer
  split
  · simp [Use.slot, hrest]
  · simp

theorem not_reserve_returnUses (m : Machine) (v : Register) (k : Byteword) (n : Nat) :
    Use.reserve n ∉ returnUses m v k := by
  unfold returnUses
  dsimp only
  split
  · simp
  · simp only [Use.slot, List.mem_cons, reduceCtorEq, false_or]
    split <;> simp

/-- Decoding at or past the end of the code fails on the tag. -/
theorem decode_ofPos_of_size_le {code : Bytecode} {p : Nat} (h : code.size ≤ p) :
    Instruction.decode (Cursor.ofPos code p) = .error (.unexpectedEnd p 1 (code.size - p)) := by
  have hlt : ¬ p < code.words.size := Nat.not_lt.mpr h
  simp [Instruction.decode, Cursor.readHalf, Cursor.ofPos, hlt, Bytecode.size, bind, Except.bind]

namespace Mirrors

variable {h m : Machine}

/-- An instruction that makes no room, run by a stored machine that keeps its vector's length,
leaves the storage length as it is. -/
theorem length_of_keepsLength (hm : Mirrors h m) {i : Instruction Nat} {o : Option Transition}
    (hk : KeepsLength h o) (hnr : ∀ n, Use.reserve n ∉ storageUses m i) :
    applyUses (storageUses m i) h.stack.cells.size =
      some (o.getD { machine := h, stop := some .underflow }).machine.stack.cells.size := by
  obtain ⟨len', hfit⟩ := hm.bounds.storageUses_fit i
  rw [hfit, applyUses_eq_of_not_reserve hfit hnr]
  cases o with
  | none => rfl
  | some t => exact congrArg some (hk t rfl).symm

/-- Each instruction grows the stored machine's vector as its uses of the storage say. -/
theorem length_execute (hm : Mirrors h m) (o : Nat) (i : Instruction Nat) :
    applyUses (storageUses m i) h.stack.cells.size =
      some ((Stored.execute h o i).getD
        { machine := h, stop := some .underflow }).machine.stack.cells.size := by
  have done : ∀ n, Use.reserve n ∉ ([] : List Use) := fun _ => List.not_mem_nil
  cases i with
  | nop | jmp _ => exact hm.length_of_keepsLength (by rintro t ⟨⟩; rfl) done
  | sys c =>
    refine hm.length_of_keepsLength (keepsLength_system h c) ?_
    cases c <;> first | exact done | exact not_reserve_viaRegister fun _ => done
  | sca r _ | loc r _ =>
    exact hm.length_of_keepsLength (keepsLength_setRegister h r _)
      (not_reserve_viaRegister fun _ => done)
  | loa d r =>
    refine hm.length_of_keepsLength (keepsLength_loadVia h d r) ?_
    simp only [storageUses]
    exact not_reserve_viaRegister fun _ =>
      not_reserve_viaPointer (not_reserve_viaRegister fun _ => done)
  | sto d r =>
    refine hm.length_of_keepsLength (keepsLength_storeVia h d r) ?_
    simp only [storageUses]
    exact not_reserve_viaRegister fun _ => not_reserve_viaRegister fun _ =>
      not_reserve_viaPointer done
  | mov d r =>
    refine hm.length_of_keepsLength ?_
      (not_reserve_viaRegister fun _ => not_reserve_viaRegister fun _ => done)
    intro t ht
    simp only [Stored.execute, Option.bind_eq_bind, Option.mem_def, Option.bind_eq_some_iff] at ht
    obtain ⟨x, -, ht⟩ := ht
    split at ht
    · exact keepsLength_fault h _ t ht
    · exact keepsLength_setRegister h d _ t ht
  | jnz l r =>
    refine hm.length_of_keepsLength ?_ (not_reserve_viaRegister fun _ => done)
    intro t ht
    obtain ⟨x, -, rfl⟩ := Option.map_eq_some_iff.mp ht
    split
    · rfl
    · split <;> rfl
  | binary op d a b =>
    exact hm.length_of_keepsLength (keepsLength_compute h op d a b)
      (not_reserve_viaRegister fun _ => not_reserve_viaRegister fun _ =>
        not_reserve_viaRegister fun _ => done)
  | ret v n =>
    exact hm.length_of_keepsLength (keepsLength_leave h o v n) (not_reserve_returnUses m v n)
  | frm n =>
    simp only [storageUses, List.cons_append, applyUses_reserve]
    rw [applyUses_put, ← List.append_nil (Use.put _), applyUses_put, applyUses_nil]
    simp only [Stored.execute, Stored.prepare, put_eq, reserve_sp, Option.bind_eq_bind,
      Option.bind_some, Option.pure_def, Option.map_some, Option.getD_some]
    rw [size_put, size_put, reserve, size_ensure, hm.sp]
  | arg r =>
    simp only [storageUses, viaRegister, Stored.execute, Stored.pass, hm.get?, Stack.get,
      Option.bind_eq_bind, Option.bind_some, Option.pure_def]
    cases hs : m.stack.slotOf r with
    | error e => rfl
    | ok i =>
      obtain ⟨rfl, hi⟩ := slotOf_eq_ok_iff.mp hs
      dsimp only
      rw [applyUses_slot _ (Nat.lt_of_lt_of_le hi hm.bounds.sp_le), ← List.append_nil (Use.put _),
        applyUses_put, applyUses_nil]
      simp only [put_eq, Option.bind_some, Option.getD_some]
      rw [size_put, hm.ap]
  | cas f =>
    simp only [storageUses, Stored.execute, Stored.enter, hm.pending, put_eq, Option.bind_eq_bind,
      Option.bind_some, Option.pure_def]
    cases m.pending with
    | none => rfl
    | some k =>
      dsimp only
      rw [← List.append_nil (Use.put _), applyUses_put, applyUses_nil]
      simp only [Option.getD_some]
      rw [size_put]
  | res n =>
    obtain ⟨s', hs', -, -, -, hsize, -⟩ := h.stack.extendWindow_eq n.toNat
    simp only [storageUses, applyUses_reserve, Stored.execute, hs', Option.map_some,
      Option.getD_some]
    rw [applyUses_index _ (Nat.le_add_right _ _) (le_grow_need _ _),
      applyUses_nil, hsize, hm.sp]

/-- The length `storageStep` gives is the length of the stored machine's vector after its step. -/
theorem storageStep_eq (code : Bytecode) (hm : Mirrors h m) :
    storageStep code m h.stack.cells.size = some (Stored.step code h).machine.stack.cells.size := by
  unfold storageStep Stored.step
  dsimp only
  rw [hm.ip]
  split_ifs with hend hpast
  · rw [decode_ofPos_of_size_le (Nat.le_of_eq hend.symm)]
    rfl
  · rw [decode_ofPos_of_size_le hpast.le]
    rfl
  · cases Instruction.decode (Cursor.ofPos code m.ip) with
    | error e => rfl
    | ok p =>
      obtain ⟨i, c⟩ := p
      exact (hm.move c.pos).length_execute m.ip i

end Mirrors

/-- A step of the stored machine that goes on. -/
def StoredGoes (code : Bytecode) (h h' : Machine) : Prop :=
  (Stored.step code h).stop = none ∧ (Stored.step code h).machine = h'

/-- Every machine a run reaches from the start is mirrored by a stored machine that the stored
machine's own steps reach, and the storage lengths along the run are its vector's lengths. -/
theorem reaches_stored {code : Bytecode} {m : Machine}
    (hr : Relation.ReflTransGen (Goes code) {} m) :
    ∃ h, Relation.ReflTransGen (StoredGoes code) Stored.start h ∧ Mirrors h m ∧
      Relation.ReflTransGen (GoesWith code) ({}, initialSlots) (m, h.stack.cells.size) := by
  induction hr with
  | refl => exact ⟨Stored.start, .refl, mirrors_start, .refl⟩
  | tail _ hgo ih =>
    obtain ⟨h, hrun, hm, hlens⟩ := ih
    have ht := step_tracks code hm
    refine ⟨(Stored.step code h).machine, hrun.tail ⟨?_, rfl⟩, ?_, hlens.tail ⟨hgo, ?_⟩⟩
    · rw [ht.stop]
      exact hgo.1
    · rw [← hgo.2]
      exact ht.machine
    · exact hm.storageStep_eq code

end WindowVm.Machine
