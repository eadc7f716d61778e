import WindowVm.Proofs.Transitions

/-!
# The chain of frames

A call leaves its frame capture on the register stack: `frm` writes the caller's frame pointer
one slot above the capture, `cas` writes the offset after itself into the capture and starts the
callee's window just past it, and `ret` reads both back. Following the calls a run has made and
not yet returned from (`Frame.track`), the captures form a chain (`Frames`): each lies at or
above the frame of its caller and holds the caller's return offset and frame pointer, and the
innermost ends where the current window starts. The chain survives every step as long as `sto`
writes no capture slot and `res` does not run between a `frm` and the `cas` that consumes its
frame (`Frames.executes`).

Main statement: on a run that keeps that discipline, every machine carries the chain of its
active calls, and a `ret` inside a call either fails because the registers it returns lie
outside the window, or returns just after the `cas` that made the call, into the caller's frame
(`disciplined_run_keeps_frame_chain`).
-/

namespace WindowVm.Machine

open Stack

/-- A call made by `cas` and not yet returned from: the slot of its frame capture, the frame
pointer of the frame that made it, and the offset just after the `cas`. -/
structure Frame where
  capture : Nat
  callerFp : Nat
  back : Nat
deriving DecidableEq, Repr

namespace Frame

/-- The frame pointer inside the innermost of the calls `fs`, made from a frame at `base`. -/
def framePointer (base : Nat) : List Frame → Nat
  | [] => base
  | f :: _ => f.capture + 2

/-- The active calls after `i` executes at `m`, the next instruction starting at `next`: `cas`
pushes the call it makes, and `ret` pops the innermost. -/
def track (fs : List Frame) (m : Machine) (next : Nat) : Instruction Nat → List Frame
  | .cas _ =>
    match m.pending with
    | some k => ⟨k, m.stack.fp, next⟩ :: fs
    | none => fs
  | .ret _ _ => fs.tail
  | _ => fs

end Frame

/-- The captures of the calls `fs` on the stack `s`, innermost first: each holds its return
offset and, one slot above, the frame pointer of its caller, which starts at or below it. -/
def Chain (base : Nat) (s : Stack) : List Frame → Prop
  | [] => True
  | f :: fs => f.callerFp = Frame.framePointer base fs ∧ f.callerFp ≤ f.capture ∧
      (s.read f.capture).toNat = f.back ∧ (s.read (f.capture + 1)).toNat = f.callerFp ∧
      Chain base s fs

/-- Slot `j` is no capture slot of the calls `fs`. -/
def Avoids (fs : List Frame) (j : Nat) : Prop := ∀ f ∈ fs, j ≠ f.capture ∧ j ≠ f.capture + 1

namespace Chain

variable {base : Nat} {s s' : Stack}

/-- Every capture lies below the frame pointer of the innermost call. -/
theorem capture_lt {fs : List Frame} (h : Chain base s fs) :
    ∀ f ∈ fs, f.capture + 2 ≤ Frame.framePointer base fs := by
  induction fs with
  | nil => simp
  | cons g gs ih =>
    obtain ⟨hcaller, hle, -, -, hrest⟩ := h
    intro f hf
    rcases List.mem_cons.mp hf with rfl | hf
    · exact Nat.le_refl _
    · have := ih hrest f hf
      show f.capture + 2 ≤ g.capture + 2
      omega

/-- Captures of inner calls lie strictly above those of outer ones. -/
theorem pairwise {fs : List Frame} (h : Chain base s fs) :
    (fs.map Frame.capture).Pairwise (· > ·) := by
  induction fs with
  | nil => exact List.Pairwise.nil
  | cons g gs ih =>
    have hlt := h.2.2.2.2.capture_lt
    obtain ⟨hcaller, hle, -, -, hrest⟩ := h
    refine List.pairwise_cons.mpr ⟨?_, ih hrest⟩
    intro c hc
    obtain ⟨f, hf, rfl⟩ := List.mem_map.mp hc
    have := hlt f hf
    omega

/-- The chain depends only on the capture slots. -/
theorem congr {fs : List Frame} (h : Chain base s fs)
    (hs : ∀ f ∈ fs, s'.read f.capture = s.read f.capture ∧
      s'.read (f.capture + 1) = s.read (f.capture + 1)) : Chain base s' fs := by
  induction fs with
  | nil => trivial
  | cons g gs ih =>
    obtain ⟨hcaller, hle, hback, hfp, hrest⟩ := h
    obtain ⟨h₁, h₂⟩ := hs g (List.mem_cons_self ..)
    exact ⟨hcaller, hle, h₁ ▸ hback, h₂ ▸ hfp,
      ih hrest fun f hf => hs f (List.mem_cons_of_mem _ hf)⟩

/-- A stack that agrees below the innermost frame carries the same chain. -/
theorem of_agree {fs : List Frame} (h : Chain base s fs)
    (hs : ∀ j, j < Frame.framePointer base fs → s'.read j = s.read j) : Chain base s' fs :=
  h.congr fun f hf =>
    ⟨hs _ (by have := h.capture_lt f hf; omega), hs _ (by have := h.capture_lt f hf; omega)⟩

theorem write {fs : List Frame} {j : Nat} {v : Word} (h : Chain base s fs) (hj : Avoids fs j) :
    Chain base (s.write j v) fs :=
  h.congr fun f hf => by
    obtain ⟨h₁, h₂⟩ := hj f hf
    simp [read_write, Ne.symm h₁, Ne.symm h₂]

end Chain

/-- The machine `m` inside the calls `fs`, made from a frame at `base` at depth `d`: the depth
counts the calls, the window starts just past the innermost capture, the captures form a chain,
and a pending frame sits at `sp` with the current frame pointer one slot above it. -/
structure Frames (base d : Nat) (m : Machine) (fs : List Frame) : Prop where
  depth : m.depth = d + fs.length
  fp : m.stack.fp = Frame.framePointer base fs
  chain : Chain base m.stack fs
  fp_le_sp : m.stack.fp ≤ m.stack.sp
  fp_le_ap : m.stack.fp ≤ m.stack.ap
  pending : ∀ k, m.pending = some k →
    k = m.stack.sp ∧ k + 2 ≤ m.stack.ap ∧ (m.stack.read (k + 1)).toNat = m.stack.fp

/-- The discipline of a run at instruction `i` of machine `m`: `sto` writes only slots that
`safe` allows, and `res` does not run while a frame is pending. -/
def Discipline (safe : Nat → Prop) (m : Machine) : Instruction Nat → Prop
  | .sto d _ => ∀ p, m.stack.get d = .ok p → safe p.toNat
  | .res _ => m.pending = none
  | _ => True

theorem Discipline.mono {safe safe' : Nat → Prop} {m : Machine} {i : Instruction Nat}
    (h : Discipline safe m i) (hsafe : ∀ j, safe j → safe' j) : Discipline safe' m i := by
  cases i <;> first | trivial | exact h | exact fun p hp => hsafe _ (h p hp)

/-- `frm` prepares a frame at `sp`: the slot above it holds the frame pointer, which fits a
word, the arguments go from just past it, and no slot below `sp` changes. -/
theorem Executes.frm_prepares {code : Bytecode} {m m' : Machine} {n : Byteword} {next : Nat}
    (h : Executes code m (.frm n) next m') (hle : m.stack.fp ≤ m.stack.sp)
    (hsp : m.stack.sp < 2 ^ 64) :
    m'.stack.fp = m.stack.fp ∧ m'.stack.sp = m.stack.sp ∧ m'.stack.ap = m.stack.sp + 2 ∧
      m'.pending = some m.stack.sp ∧ m'.depth = m.depth ∧
      (m'.stack.read (m.stack.sp + 1)).toNat = m.stack.fp ∧
      ∀ j < m.stack.sp, m'.stack.read j = m.stack.read j := by
  obtain ⟨hs, hp, hd⟩ := h.frm
  have hfit : m.stack.fp < 18446744073709551616 := by omega
  refine ⟨by simp [hs], by simp [hs], by simp [hs], hp, hd, by simp [hs, read_write, hfit],
    fun j hj => ?_⟩
  simp only [hs, read_mk, read_write]
  rw [if_neg (by omega), if_neg (by omega)]

namespace Frames

variable {base d : Nat} {m m' : Machine} {fs : List Frame}

theorem start : Frames 0 0 {} [] :=
  ⟨rfl, rfl, trivial, Nat.le_refl 0, Nat.le_refl 0, fun _ h => by cases h⟩

theorem keepsOutside (hf : Frames base d m fs) (keep : KeepsOutside m m') : Frames base d m' fs where
  depth := keep.depth ▸ hf.depth
  fp := keep.fp ▸ hf.fp
  chain := hf.chain.of_agree fun j hj => keep.read j (.inl (hf.fp ▸ hj))
  fp_le_sp := keep.fp ▸ keep.sp ▸ hf.fp_le_sp
  fp_le_ap := keep.fp ▸ keep.ap ▸ hf.fp_le_ap
  pending := fun k hk => by
    obtain ⟨hsp, hap, hread⟩ := hf.pending k (keep.pending ▸ hk)
    refine ⟨keep.sp ▸ hsp, keep.ap ▸ hap, ?_⟩
    rw [keep.read _ (.inr (by omega)), keep.fp]
    exact hread

variable {code : Bytecode} {i : Instruction Nat} {next : Nat}

/-- `sto` to a slot that is no capture keeps the chain; a pending frame lies at `sp`, above
every live slot `sto` can reach. -/
theorem sto {dst src : Register} (hf : Frames base d m fs) (h : Executes code m (.sto dst src) next m')
    (hdisc : Discipline (Avoids fs) m (.sto dst src)) : Frames base d m' fs := by
  obtain ⟨p, v, hget, hlt, hs, hp, hd⟩ := h.sto
  refine ⟨hd ▸ hf.depth, by simp [hs, hf.fp], hs ▸ hf.chain.write (hdisc p hget), ?_, ?_, ?_⟩
  · simpa [hs] using hf.fp_le_sp
  · simpa [hs] using hf.fp_le_ap
  · intro k hk
    obtain ⟨hsp, hap, hread⟩ := hf.pending k (hp ▸ hk)
    simp only [hs, write_sp, write_ap, write_fp, read_write]
    exact ⟨hsp, hap, by rw [if_neg (by omega)]; exact hread⟩

/-- `frm` writes its capture at `sp`, at or above the window, with the frame pointer one slot
above it. -/
theorem frm {n : Byteword} (hf : Frames base d m fs) (h : Executes code m (.frm n) next m')
    (hsp : m.stack.sp < 2 ^ 64) : Frames base d m' fs := by
  have hle := hf.fp_le_sp
  have hfpb := hf.fp
  obtain ⟨hfp, hsp', hap, hp, hd, hread, hbelow⟩ := h.frm_prepares hle hsp
  refine ⟨hd ▸ hf.depth, hfp ▸ hf.fp, hf.chain.of_agree fun j hj => hbelow j (by omega),
    by omega, by omega, ?_⟩
  intro k hk
  rw [hp, Option.some.injEq] at hk
  subst hk
  exact ⟨hsp'.symm, by omega, hfp ▸ hread⟩

/-- `arg` writes at `ap`, past the window and past a pending capture. -/
theorem arg {r : Register} (hf : Frames base d m fs) (h : Executes code m (.arg r) next m') :
    Frames base d m' fs := by
  obtain ⟨v, -, hs, hp, hd⟩ := h.arg
  have hfp := hf.fp
  have hap := hf.fp_le_ap
  refine ⟨hd ▸ hf.depth, by simp [hs, hf.fp], ?_, ?_, ?_, ?_⟩
  · rw [hs]
    refine hf.chain.of_agree fun j hj => ?_
    simp only [read_mk, read_write]
    rw [if_neg (by omega)]
  · simpa [hs] using hf.fp_le_sp
  · simp only [hs, write_fp]
    omega
  · intro k hk
    obtain ⟨hsp, hap', hread⟩ := hf.pending k (hp ▸ hk)
    simp only [hs, read_mk, read_write, write_sp, write_fp]
    exact ⟨hsp, by omega, by rw [if_neg (by omega)]; exact hread⟩

/-- `res` zeroes slots from `sp` on, above every capture; with no frame pending it has no
capture of its own to clear. -/
theorem res {n : Byteword} (hf : Frames base d m fs) (h : Executes code m (.res n) next m')
    (hdisc : Discipline (Avoids fs) m (.res n)) : Frames base d m' fs := by
  obtain ⟨hs, hp, hd⟩ := h.res
  have hfp := hf.fp
  have hsp := hf.fp_le_sp
  refine ⟨hd ▸ hf.depth, by simp [hs, hf.fp], ?_, ?_, ?_, ?_⟩
  · rw [hs]
    exact hf.chain.of_agree fun j hj => read_extend_of_lt (by omega)
  · simp only [hs, extend_fp, extend_sp]
    omega
  · simpa [hs] using hf.fp_le_ap
  · intro k hk
    have hnone : m.pending = none := hdisc
    rw [hp, hnone] at hk
    cases hk

/-- `cas` turns the pending frame into a call: its capture, at `sp`, now holds the offset after
the `cas`, which fits a word since the code does, and the frame pointer written by `frm`. -/
theorem cas {l : Nat} (hf : Frames base d m fs) (h : Executes code m (.cas l) next m')
    (hcode : code.size < 2 ^ 64) : Frames base d m' (Frame.track fs m next (.cas l)) := by
  obtain ⟨k, hk, -, hs, hp, hd⟩ := h.cas
  obtain ⟨hksp, hkap, hread⟩ := hf.pending k hk
  have hnext := h.next_le
  have hfp := hf.fp
  have hle := hf.fp_le_sp
  simp only [Frame.track, hk]
  refine ⟨by simp [hd, hf.depth]; omega, by simp [hs, Frame.framePointer], ?_, ?_, ?_, ?_⟩
  · rw [hs]
    refine ⟨hf.fp, show m.stack.fp ≤ k by omega, ?_, ?_, ?_⟩
    · have hfit : next < 18446744073709551616 := by omega
      simp [read_write, hfit]
    · simp only [read_mk, read_write, if_neg (by omega : k + 1 ≠ k)]
      exact hread
    · refine hf.chain.of_agree fun j hj => ?_
      simp only [read_mk, read_write]
      rw [if_neg (by omega)]
  · simp [hs]
  · simp [hs]
  · intro k' hk'
    rw [hp] at hk'
    cases hk'

/-- `ret` reads its return offset and the caller's frame pointer from the innermost capture and
copies the returned registers onto it, above every other capture. -/
theorem ret {v : Register} {n : Byteword} (hf : Frames base d m fs)
    (h : Executes code m (.ret v n) next m') (hbase : d = 0 ∨ d < m.depth) :
    Frames base d m' (Frame.track fs m next (.ret v n)) := by
  obtain ⟨hd0, -, hfp2, -, -, hs, hp, hd⟩ := h.ret
  obtain ⟨g, gs, rfl⟩ : ∃ g gs, fs = g :: gs := by
    cases fs with
    | nil => have := hf.depth; simp at this; omega
    | cons g gs => exact ⟨g, gs, rfl⟩
  obtain ⟨hcaller, hle, -, hcfp, hrest⟩ := hf.chain
  have hk : m.stack.fp - 2 = g.capture := by simp [hf.fp, Frame.framePointer]
  simp only [Frame.track, List.tail_cons]
  refine ⟨?_, ?_, ?_, ?_, ?_, ?_⟩
  · rw [hd, hf.depth]
    simp
  · simp [hs, hk, hcfp, hcaller]
  · rw [hs]
    refine hrest.of_agree fun j hj => ?_
    simp only [read_mk]
    exact read_copyDown_of_lt (by omega) (by rw [hk]; omega)
  · simp only [hs, hk, hcfp]
    omega
  · simp only [hs, hk, hcfp]
    omega
  · intro k hk'
    rw [hp] at hk'
    cases hk'

/-- One step of a run that writes no capture slot with `sto` and runs no `res` while a frame is
pending keeps the chain of the calls it tracks. -/
theorem executes (hf : Frames base d m fs) (h : Executes code m i next m')
    (hcode : code.size < 2 ^ 64) (hsp : m.stack.sp < 2 ^ 64)
    (hdisc : Discipline (Avoids fs) m i) (hbase : d = 0 ∨ d < m.depth) :
    Frames base d m' (Frame.track fs m next i) := by
  cases i with
  | nop | sys _ | sca _ _ | loc _ _ | loa _ _ | mov _ _ | jmp _ | jnz _ _ | binary _ _ _ _ =>
    exact hf.keepsOutside (h.keepsOutside rfl)
  | sto dst src => exact hf.sto h hdisc
  | frm n => exact hf.frm h hsp
  | arg r => exact hf.arg h
  | res n => exact hf.res h hdisc
  | cas l => exact hf.cas h hcode
  | ret v n => exact hf.ret h hbase

end Frames

/-- One step of a frame-disciplined run, with the calls active before and after it: `sto` writes
no capture slot of an active call, `res` does not run while a frame is pending, and the register
stack stays below 2^64 slots, as machine offsets require. -/
inductive DisciplinedStep (code : Bytecode) : Machine × List Frame → Machine × List Frame → Prop
  | mk {m m' : Machine} {fs : List Frame} {i : Instruction Nat} {next : Nat} :
      Executes code m i next m' → m.stack.sp < 2 ^ 64 → Discipline (Avoids fs) m i →
      DisciplinedStep code (m, fs) (m', Frame.track fs m next i)

theorem frames_of_disciplined {code : Bytecode} (hcode : code.size < 2 ^ 64)
    {p : Machine × List Frame} (h : Relation.ReflTransGen (DisciplinedStep code) ({}, []) p) :
    Frames 0 0 p.1 p.2 := by
  induction h with
  | refl => exact Frames.start
  | tail _ hstep ih =>
    cases hstep with
    | mk h hsp hdisc => exact ih.executes h hcode hsp hdisc (.inl rfl)

theorem executes_of_decode {code : Bytecode} {m : Machine} {i : Instruction Nat} {c : Cursor}
    (hd : Instruction.decode (Cursor.ofPos code m.ip) = .ok (i, c)) (hstop : (step code m).stop = none) :
    Executes code m i c.pos (step code m).machine := by
  obtain ⟨i', next, h⟩ := Goes.executes ⟨hstop, rfl⟩
  have hsame := h.decode
  rw [hd] at hsame
  cases hsame
  exact h

/-- Within a call, `ret` fails only when the registers it returns lie outside the window;
otherwise it returns to just after the `cas` that made the call, into the caller's frame. -/
theorem Frames.ret_returns {base d : Nat} {code : Bytecode} {m : Machine} {f : Frame}
    {rest : List Frame} {v : Register} {n : Byteword} {c : Cursor} (hf : Frames base d m (f :: rest))
    (hd : Instruction.decode (Cursor.ofPos code m.ip) = .ok (.ret v n, c)) :
    (step code m).stop =
        some (.fault (.returnOutOfWindow v.toNat (v.toNat + n.toNat) m.stack.window)) ∨
      ((step code m).stop = none ∧ (step code m).machine.ip = f.back ∧
        (step code m).machine.stack.fp = f.callerFp ∧ (step code m).machine.depth = m.depth - 1) := by
  obtain ⟨hcaller, hle, hback, hcfp, -⟩ := hf.chain
  have hk : m.stack.fp - 2 = f.capture := by simp [hf.fp, Frame.framePointer]
  have hfp2 : 2 ≤ m.stack.fp := by simp [hf.fp, Frame.framePointer]
  have hdepth : m.depth ≠ 0 := by simp [hf.depth]
  rcases leave_stop (m := { m with ip := c.pos, steps := m.steps + 1 }) (o := m.ip) (v := v) (n := n)
      hdepth hfp2 (by simp only [hk, hcfp]; exact hle) with hgoes | hfails
  · right
    have hstop : (step code m).stop = none := by rw [step_of_decode hd]; exact hgoes
    obtain ⟨-, -, -, -, hip, hs, -, hdep⟩ := (executes_of_decode hd hstop).ret
    refine ⟨hstop, ?_, ?_, hdep⟩
    · rw [hip, hk, hback]
    · rw [hs, hk, hcfp]
  · left
    rw [step_of_decode hd]
    exact hfails

/-- On a run that keeps the frame discipline, the calls not yet returned from form a chain of
captures on the register stack, strictly increasing from the outermost, each holding the offset
after its `cas` and its caller's frame pointer; and a `ret` inside a call either fails because
the registers it returns lie outside the window, or returns to just after its `cas`, into its
caller's frame, one call shallower. -/
theorem disciplined_run_keeps_frame_chain {code : Bytecode} (hcode : code.size < 2 ^ 64)
    {m : Machine} {fs : List Frame}
    (h : Relation.ReflTransGen (DisciplinedStep code) ({}, []) (m, fs)) :
    Frames 0 0 m fs ∧ (fs.map Frame.capture).Pairwise (· > ·) ∧
      ∀ f rest v n c, fs = f :: rest →
        Instruction.decode (Cursor.ofPos code m.ip) = .ok (.ret v n, c) →
        (step code m).stop =
            some (.fault (.returnOutOfWindow v.toNat (v.toNat + n.toNat) m.stack.window)) ∨
          ((step code m).stop = none ∧ (step code m).machine.ip = f.back ∧
            (step code m).machine.stack.fp = f.callerFp ∧
            (step code m).machine.depth = m.depth - 1) := by
  have hf : Frames 0 0 m fs := frames_of_disciplined hcode h
  refine ⟨hf, hf.chain.pairwise, ?_⟩
  rintro f rest v n c rfl hd
  exact hf.ret_returns hd

/-- `frm 0`, then `cas` into `ret %0 0`: a call that returns at once. -/
def callOnce : Bytecode := Bytecode.ofList [.frm 0, .cas 8, .ret 0 0]

/-- `callOnce` inside its call, at the `ret`: the capture at slot 0 holds the offset 8 after the
`cas` and the outermost frame pointer 0. -/
def callOnceInside : Machine :=
  { ip := 8, stack := { cells := #[Word.ofNat 8, Word.ofNat 0], fp := 2, sp := 2, ap := 2 },
    depth := 1, steps := 2 }

theorem callOnce_frame_chain :
    callOnce.size < 2 ^ 64 ∧
      Relation.ReflTransGen (DisciplinedStep callOnce) ({}, []) (callOnceInside, [⟨0, 0, 8⟩]) ∧
      Frames 0 0 callOnceInside [⟨0, 0, 8⟩] ∧
      (([⟨0, 0, 8⟩] : List Frame).map Frame.capture).Pairwise (· > ·) ∧
      ∀ (f : Frame) (rest : List Frame) (v : Register) (n : Byteword) (c : Cursor),
        [⟨0, 0, 8⟩] = f :: rest →
        Instruction.decode (Cursor.ofPos callOnce callOnceInside.ip) = .ok (.ret v n, c) →
        (step callOnce callOnceInside).stop =
            some (.fault (.returnOutOfWindow v.toNat (v.toNat + n.toNat)
              callOnceInside.stack.window)) ∨
          ((step callOnce callOnceInside).stop = none ∧
            (step callOnce callOnceInside).machine.ip = f.back ∧
            (step callOnce callOnceInside).machine.stack.fp = f.callerFp ∧
            (step callOnce callOnceInside).machine.depth = callOnceInside.depth - 1) := by
  have hcode : callOnce.size < 2 ^ 64 := by decide
  have hfrm : Executes callOnce {} (.frm 0) 2
      { ip := 2, stack := { cells := #[Word.ofNat 2, Word.ofNat 0], fp := 0, sp := 0, ap := 2 },
        pending := some 0, steps := 1 } := ⟨rfl, rfl, rfl⟩
  have hcas : Executes callOnce
      { ip := 2, stack := { cells := #[Word.ofNat 2, Word.ofNat 0], fp := 0, sp := 0, ap := 2 },
        pending := some 0, steps := 1 } (.cas 8) 8 callOnceInside := ⟨rfl, rfl, rfl⟩
  have hrun : Relation.ReflTransGen (DisciplinedStep callOnce) ({}, [])
      (callOnceInside, [⟨0, 0, 8⟩]) :=
    .tail (.single (.mk hfrm (by decide) trivial)) (.mk hcas (by decide) trivial)
  exact ⟨hcode, hrun, disciplined_run_keeps_frame_chain hcode hrun⟩

end WindowVm.Machine
