import WindowVm.Proofs.FrameChain
import WindowVm.Machine.Run

/-!
# A call returns to its caller

A call is `frm n`, one `arg` for each argument, and `cas`. The callee starts at the target of the
`cas` in a window made of exactly its arguments, just past the frame capture at the caller's
`sp` (`call_enters`). While the callee keeps to its own frame, with `sto` writing only at or
above the frame pointer and no `res` between a `frm` and its `cas`, the calls it makes sit on
top of its own and nothing it does reaches below its capture (`callee_keeps_caller`). Its first
`ret` at its own depth that succeeds then returns just after the `cas`, into the caller's frame,
with the returned registers copied onto the capture (`Frames.ret_into_caller`).

Each `arg` writes the one slot at `ap` (`Executes.arg_read`). While a frame is pending that slot
lies past the capture at `sp`, so the window and the callers' frames stay
(`Frames.arg_keeps_below_sp`); with no frame pending nothing keeps `ap` at or above `sp`, and
an `arg` after a `res` writes into the window (`argAfterReserve_writes_window`).

Main statement: `call_returns_to_caller`.
-/

namespace WindowVm.Machine

open Stack

/-- `m'` is reached from `m` by executing `arg r` for each `r` of `rs` in turn. -/
inductive Passes (code : Bytecode) : List Register → Machine → Machine → Prop
  | nil (m : Machine) : Passes code [] m m
  | cons {r : Register} {rs : List Register} {m m' m'' : Machine} {next : Nat} :
      Executes code m (.arg r) next m' → Passes code rs m' m'' → Passes code (r :: rs) m m''

namespace Passes

variable {code : Bytecode} {rs : List Register} {m m' : Machine}

theorem frames {base d : Nat} {fs : List Frame} (h : Passes code rs m m')
    (hf : Frames base d m fs) : Frames base d m' fs := by
  induction h with
  | nil => exact hf
  | cons hstep _ ih => exact ih (hf.arg hstep)

/-- The arguments land in order from `ap` on, read from a window that passing them leaves alone;
the pointers other than `ap`, the pending frame, the depth and every slot below `ap` stay. -/
theorem args (h : Passes code rs m m') (hap : m.stack.sp ≤ m.stack.ap) :
    m'.stack.fp = m.stack.fp ∧ m'.stack.sp = m.stack.sp ∧ m'.stack.ap = m.stack.ap + rs.length ∧
      m'.pending = m.pending ∧ m'.depth = m.depth ∧
      (∀ j < m.stack.ap, m'.stack.read j = m.stack.read j) ∧
      ∀ j (hj : j < rs.length), m.stack.get rs[j] = .ok (m'.stack.read (m.stack.ap + j)) := by
  induction h with
  | nil m => exact ⟨rfl, rfl, rfl, rfl, rfl, fun _ _ => rfl, fun j hj => absurd hj (by simp)⟩
  | @cons r rs m₁ m₂ m₃ next hstep _ ih =>
    obtain ⟨v, hget, hs, hp, hd⟩ := hstep.arg
    obtain ⟨hfp, hsp, hap', hp', hd', hbelow, hvals⟩ := ih (by simp [hs]; omega)
    have hkeep : ∀ j < m₁.stack.ap + 1, j ≠ m₁.stack.ap → m₂.stack.read j = m₁.stack.read j :=
      fun j _ hne => by simp [hs, read_write, hne]
    have hwin : m₂.stack.get = m₁.stack.get := funext <| get_congr (by simp [hs]) (by simp [hs])
      fun j hj => hkeep j (by omega) (by omega)
    have hap₂ : m₂.stack.ap = m₁.stack.ap + 1 := by simp [hs]
    refine ⟨by simp [hfp, hs], by simp [hsp, hs], ?_, hp'.trans hp, hd'.trans hd, ?_, ?_⟩
    · simp only [hap', hs, List.length_cons]
      omega
    · intro j hj
      rw [hbelow j (by simp [hs]; omega), hkeep j (by omega) (by omega)]
    · intro j hj
      cases j with
      | zero =>
        have hfirst := hbelow m₁.stack.ap (by simp [hs])
        simp only [List.getElem_cons_zero, Nat.add_zero, hfirst, hget, hs, read_mk, read_write,
          if_pos]
      | succ j =>
        have := hvals j (by simpa using hj)
        rw [hwin, hap₂] at this
        rw [List.getElem_cons_succ, this, show m₁.stack.ap + 1 + j = m₁.stack.ap + (j + 1) by omega]

end Passes

/-- `arg` writes the one slot at `ap` and moves `ap` past it. -/
theorem Executes.arg_read {code : Bytecode} {m m' : Machine} {r : Register} {next : Nat}
    (h : Executes code m (.arg r) next m') :
    ∃ v, m.stack.get r = .ok v ∧ m'.stack.ap = m.stack.ap + 1 ∧
      ∀ j, m'.stack.read j = if j = m.stack.ap then v else m.stack.read j := by
  obtain ⟨v, hget, hs, -, -⟩ := h.arg
  exact ⟨v, hget, by simp [hs], fun j => by simp [hs, read_write]⟩

/-- While a frame is pending, `ap` lies past its capture at `sp`, so `arg` changes no slot below
`sp`: neither the window nor a caller's frame. -/
theorem Frames.arg_keeps_below_sp {base d : Nat} {fs : List Frame} {code : Bytecode}
    {m m' : Machine} {r : Register} {next k : Nat} (hf : Frames base d m fs)
    (hk : m.pending = some k) (h : Executes code m (.arg r) next m') :
    ∀ j < m.stack.sp, m'.stack.read j = m.stack.read j := by
  obtain ⟨v, -, -, hread⟩ := h.arg_read
  obtain ⟨hksp, hkap, -⟩ := hf.pending k hk
  intro j hj
  rw [hread, if_neg (by omega)]

/-- `res 2`, `sca %1 9`, then `arg %1` with no frame pending. -/
def argAfterReserve : Bytecode := Bytecode.ofList [.res 2, .sca 1 (Word.ofNat 9), .arg 1]

/-- Nothing keeps `ap` at or above `sp` when no frame is pending: `res` raises `sp` alone, and the
`arg` of `argAfterReserve` writes register `%0` of the window. -/
theorem argAfterReserve_writes_window :
    (run argAfterReserve none 2 {} #[]).machine.pending = none ∧
      (run argAfterReserve none 2 {} #[]).machine.stack.ap = 0 ∧
      (run argAfterReserve none 2 {} #[]).machine.stack.sp = 2 ∧
      (run argAfterReserve none 2 {} #[]).machine.stack.read 0 = Word.ofNat 0 ∧
      (run argAfterReserve none 3 {} #[]).machine.stack.read 0 = Word.ofNat 9 := by
  refine ⟨rfl, rfl, rfl, rfl, rfl⟩

/-- `frm` starts the frames of a call from any machine whose window lies below `sp`. -/
theorem Frames.of_frm {code : Bytecode} {m m' : Machine} {n : Byteword} {next : Nat}
    (h : Executes code m (.frm n) next m') (hle : m.stack.fp ≤ m.stack.sp)
    (hsp : m.stack.sp < 2 ^ 64) : Frames m.stack.fp m.depth m' [] := by
  obtain ⟨hfp, hsp', hap, hp, hd, hread, -⟩ := h.frm_prepares hle hsp
  refine ⟨by simp [hd], hfp, trivial, by omega, by omega, ?_⟩
  intro k hk
  rw [hp, Option.some.injEq] at hk
  subst hk
  exact ⟨hsp'.symm, by omega, hfp ▸ hread⟩

/-- The callee of `frm n`, `arg r₁ … arg rₖ`, `cas` starts at the target of the `cas`, its
window just past the capture at the caller's `sp` and made of exactly the arguments, in order.
Nothing below `sp` has changed, and the call is one frame with the caller's frame pointer and
the offset after the `cas`. -/
theorem call_enters {code : Bytecode} (hcode : code.size < 2 ^ 64) {m₀ m₁ m₂ m₃ : Machine}
    {n : Byteword} {rs : List Register} {target back next : Nat}
    (hle : m₀.stack.fp ≤ m₀.stack.sp) (hsp : m₀.stack.sp < 2 ^ 64)
    (hfrm : Executes code m₀ (.frm n) next m₁) (hargs : Passes code rs m₁ m₂)
    (hcas : Executes code m₂ (.cas target) back m₃) :
    m₃.ip = target ∧ m₃.stack.fp = m₀.stack.sp + 2 ∧ m₃.stack.window = rs.length ∧
      (∀ j (hj : j < rs.length), m₀.stack.get rs[j] = .ok (m₃.stack.read (m₃.stack.fp + j))) ∧
      (∀ j < m₀.stack.sp, m₃.stack.read j = m₀.stack.read j) ∧
      Frames m₀.stack.fp m₀.depth m₃ [⟨m₀.stack.sp, m₀.stack.fp, back⟩] := by
  obtain ⟨hfp₁, hsp₁, hap₁, hp₁, -, -, hbelow₁⟩ := hfrm.frm_prepares hle hsp
  obtain ⟨hfp₂, hsp₂, hap₂, hp₂, -, hbelow₂, hvals⟩ := hargs.args (by omega)
  obtain ⟨k, hk, hip, hs, -⟩ := hcas.cas
  have hks : k = m₀.stack.sp := by rw [hp₂, hp₁] at hk; exact (Option.some.inj hk).symm
  subst hks
  have hframes := (hargs.frames (Frames.of_frm hfrm hle hsp)).cas hcas hcode
  simp only [Frame.track, hk, hfp₂, hfp₁] at hframes
  have hwin : m₁.stack.get = m₀.stack.get := funext <| get_congr hfp₁ hsp₁ hbelow₁
  refine ⟨hip, by simp [hs], ?_, ?_, ?_, hframes⟩
  · simp only [window, hs, hap₂, hap₁]
    omega
  · intro j hj
    rw [← hwin, hvals j hj, hap₁, hs]
    simp only [read_mk, read_write]
    rw [if_neg (by omega)]
  · intro j hj
    rw [hs]
    simp only [read_mk, read_write]
    rw [if_neg (by omega), hbelow₂ j (by omega), hbelow₁ j hj]

/-- One step of a callee running above depth `d` that keeps to its own frame: `sto` writes only
at or above the frame pointer, `res` does not run while a frame is pending, and the register
stack stays below 2^64 slots, as machine offsets require. -/
inductive CalleeStep (code : Bytecode) (d : Nat) : Machine → Machine → Prop
  | mk {m m' : Machine} {i : Instruction Nat} {next : Nat} :
      Executes code m i next m' → m.stack.sp < 2 ^ 64 → d < m.depth →
      Discipline (m.stack.fp ≤ ·) m i → CalleeStep code d m m'

/-- Tracking keeps the outermost call until it returns. -/
theorem Frame.track_append (fs : List Frame) (g : Frame) (m : Machine) (next : Nat)
    (i : Instruction Nat) :
    Frame.track (fs ++ [g]) m next i = Frame.track fs m next i ++ [g] ∨
      (fs = [] ∧ Frame.track (fs ++ [g]) m next i = []) := by
  cases i with
  | cas l =>
    left
    cases hp : m.pending <;> simp [Frame.track, hp]
  | ret v n =>
    cases fs with
    | nil => exact .inr ⟨rfl, rfl⟩
    | cons f fs => exact .inl rfl
  | _ => exact .inl rfl

namespace Frames

variable {base d : Nat} {code : Bytecode} {m m' : Machine} {fs : List Frame}
  {i : Instruction Nat} {next : Nat}

/-- A slot at or above the frame pointer is no capture slot. -/
theorem avoids_of_le (hf : Frames base d m fs) {j : Nat} (hj : m.stack.fp ≤ j) : Avoids fs j :=
  fun f hf' => by
    have := hf.chain.capture_lt f hf'
    have := hf.fp
    omega

/-- A step that keeps to its frame writes nothing below the innermost capture: its writes go to
the window, to `sp` and past it, to `ap`, to a pending capture at `sp`, or, for `ret`, onto the
innermost capture. -/
theorem read_below (hf : Frames base d m fs) (h : Executes code m i next m')
    (hdisc : Discipline (m.stack.fp ≤ ·) m i) {j : Nat} (hj : j + 2 < m.stack.fp) :
    m'.stack.read j = m.stack.read j := by
  have hsp := hf.fp_le_sp
  have hap := hf.fp_le_ap
  cases i with
  | nop | sys _ | sca _ _ | loc _ _ | loa _ _ | mov _ _ | jmp _ | jnz _ _ | binary _ _ _ _ =>
    exact (h.keepsOutside rfl).read j (.inl (by omega))
  | sto dst src =>
    obtain ⟨p, v, hget, -, hs, -⟩ := h.sto
    have := hdisc p hget
    rw [hs, read_write, if_neg (by omega)]
  | frm n =>
    obtain ⟨hs, -⟩ := h.frm
    simp only [hs, read_mk, read_write]
    rw [if_neg (by omega), if_neg (by omega)]
  | arg r =>
    obtain ⟨v, -, hs, -⟩ := h.arg
    simp only [hs, read_mk, read_write]
    rw [if_neg (by omega)]
  | res n =>
    obtain ⟨hs, -⟩ := h.res
    rw [hs]
    exact read_extend_of_lt (by omega)
  | cas l =>
    obtain ⟨k, hk, -, hs, -⟩ := h.cas
    have := (hf.pending k hk).1
    simp only [hs, read_mk, read_write]
    rw [if_neg (by omega)]
  | ret v n =>
    obtain ⟨-, -, -, -, -, hs, -⟩ := h.ret
    simp only [hs, read_mk]
    exact read_copyDown_of_lt (by omega) (by omega)

/-- The `ret` of a callee at its own depth returns into the caller: just after the `cas`, with
the caller's frame pointer, the returned registers copied onto the capture, and every slot
below the capture as it was. -/
theorem ret_into_caller {g : Frame} {v : Register} {n : Byteword} (hf : Frames base d m [g])
    (h : Executes code m (.ret v n) next m') :
    m'.depth = d ∧ m'.stack.fp = base ∧ m'.stack.sp = g.capture + n.toNat ∧ m'.ip = g.back ∧
      (∀ j < g.capture, m'.stack.read j = m.stack.read j) ∧
      ∀ j < n.toNat, m'.stack.read (g.capture + j) = m.stack.read (m.stack.fp + v.toNat + j) := by
  obtain ⟨hcaller, -, hback, hcfp, -⟩ := hf.chain
  have hk : m.stack.fp - 2 = g.capture := by simp [hf.fp, Frame.framePointer]
  obtain ⟨-, -, -, -, hip, hs, -, hd⟩ := h.ret
  refine ⟨by simp [hd, hf.depth], ?_, by simp [hs, hk], by rw [hip, hk, hback], ?_, ?_⟩
  · simp [hs, hk, hcfp, hcaller, Frame.framePointer]
  · intro j hj
    simp only [hs, read_mk]
    exact read_copyDown_of_lt (by omega) (by omega)
  · intro j hj
    simp only [hs, read_mk]
    rw [read_copyDown (by omega), if_pos (by omega)]
    congr 1
    omega

end Frames

/-- Along a callee's run above its own depth, the calls it makes sit on top of the call that
entered it, and no slot below that call's capture changes. -/
theorem callee_keeps_caller {code : Bytecode} (hcode : code.size < 2 ^ 64) {base d : Nat}
    {g : Frame} {m m' : Machine} (hf : Frames base d m [g])
    (h : Relation.ReflTransGen (CalleeStep code d) m m') (hdepth : d < m'.depth) :
    ∃ fs, Frames base d m' (fs ++ [g]) ∧ ∀ j < g.capture, m'.stack.read j = m.stack.read j := by
  induction h with
  | refl => exact ⟨[], hf, fun _ _ => rfl⟩
  | tail _ hstep ih =>
    cases hstep with
    | @mk i next hex hsp hd hdisc =>
      obtain ⟨fs, hfb, hlow⟩ := ih hd
      have hnext := hfb.executes hex hcode hsp (hdisc.mono fun _ hj => hfb.avoids_of_le hj) (.inr hd)
      have hg := hfb.chain.capture_lt g (by simp)
      have hfp := hfb.fp
      rcases Frame.track_append fs g _ next _ with htr | ⟨-, htr⟩
      · refine ⟨_, htr ▸ hnext, fun j hj => ?_⟩
        rw [hfb.read_below hex hdisc (by omega), hlow j hj]
      · have := hnext.depth
        rw [htr] at this
        simp at this
        omega

/-- A call returns to its caller. From any machine a run reaches, `frm n`, `arg r₁ … arg rₖ`
and `cas` enter the callee at the target of the `cas`, in a window of exactly the arguments.
If the callee then keeps to its own frame, its first successful `ret v len` at its own depth
returns just after the `cas`, at the caller's depth and frame pointer, with `sp` moved up by
`len`; every slot below the caller's `sp` holds what it held before the call, and the `len`
slots from there hold the callee's registers from `v` on. -/
theorem call_returns_to_caller {code : Bytecode} (hcode : code.size < 2 ^ 64)
    {m₀ m₁ m₂ m₃ m₄ m₅ : Machine} {n len : Byteword} {rs : List Register} {v : Register}
    {target back next₀ next₄ : Nat}
    (hreach : Relation.ReflTransGen (Goes code) {} m₀) (hsp : m₀.stack.sp < 2 ^ 64)
    (hfrm : Executes code m₀ (.frm n) next₀ m₁) (hargs : Passes code rs m₁ m₂)
    (hcas : Executes code m₂ (.cas target) back m₃)
    (hcallee : Relation.ReflTransGen (CalleeStep code m₀.depth) m₃ m₄)
    (hdepth : m₄.depth = m₀.depth + 1) (hret : Executes code m₄ (.ret v len) next₄ m₅) :
    (m₃.ip = target ∧ m₃.stack.fp = m₀.stack.sp + 2 ∧ m₃.stack.window = rs.length ∧
      ∀ j (hj : j < rs.length), m₀.stack.get rs[j] = .ok (m₃.stack.read (m₃.stack.fp + j))) ∧
      m₅.depth = m₀.depth ∧ m₅.stack.fp = m₀.stack.fp ∧
      m₅.stack.sp = m₀.stack.sp + len.toNat ∧ m₅.ip = back ∧
      (∀ j < m₀.stack.sp, m₅.stack.read j = m₀.stack.read j) ∧
      ∀ j < len.toNat,
        m₅.stack.read (m₀.stack.sp + j) = m₄.stack.read (m₄.stack.fp + v.toNat + j) := by
  have hle := fp_le_sp_of_reaches hreach
  obtain ⟨hip, hfp, hwin, hvals, hbelow, hframes⟩ :=
    call_enters hcode hle hsp hfrm hargs hcas
  obtain ⟨fs, hf₄, hlow⟩ := callee_keeps_caller hcode hframes hcallee (by omega)
  obtain rfl : fs = [] := by
    have h := hf₄.depth
    rw [hdepth] at h
    simp only [List.length_append, List.length_singleton] at h
    exact List.eq_nil_of_length_eq_zero (by omega)
  obtain ⟨hd₅, hfp₅, hsp₅, hip₅, hlow₅, hvals₅⟩ := hf₄.ret_into_caller hret
  refine ⟨⟨hip, hfp, hwin, hvals⟩, hd₅, hfp₅, hsp₅, hip₅, fun j hj => ?_, hvals₅⟩
  rw [hlow₅ j hj, hlow j hj, hbelow j hj]

/-- `res 1` and `sca %0 7`, then a call passing `%0` to a callee that returns it at once. -/
def passBack : Bytecode :=
  Bytecode.ofList [.res 1, .sca 0 (Word.ofNat 7), .frm 0, .arg 0, .cas 20, .ret 0 1]

/-- `passBack` at its call: one register, holding 7. -/
def passBackCaller : Machine :=
  { ip := 8, stack := { cells := #[Word.ofNat 7], fp := 0, sp := 1, ap := 0 }, steps := 2 }

/-- After `frm 0`: the capture at slot 1, with the caller's frame pointer above it. -/
def passBackFramed : Machine :=
  { ip := 10,
    stack := { cells := #[Word.ofNat 7, Word.ofNat 10, Word.ofNat 0], fp := 0, sp := 1, ap := 3 },
    pending := some 1, steps := 3 }

/-- After `arg %0`: the argument just past the capture. -/
def passBackPassed : Machine :=
  { ip := 12,
    stack := { cells := #[Word.ofNat 7, Word.ofNat 10, Word.ofNat 0, Word.ofNat 7]
               fp := 0, sp := 1, ap := 4 },
    pending := some 1, steps := 4 }

/-- In the callee, at its `ret %0 1`: a window of the one argument. -/
def passBackCalled : Machine :=
  { ip := 20,
    stack := { cells := #[Word.ofNat 7, Word.ofNat 20, Word.ofNat 0, Word.ofNat 7]
               fp := 3, sp := 4, ap := 4 },
    depth := 1, steps := 5 }

/-- Back in the caller, the returned 7 on top of its window. -/
def passBackReturned : Machine :=
  { ip := 20,
    stack := { cells := #[Word.ofNat 7, Word.ofNat 7, Word.ofNat 0, Word.ofNat 7]
               fp := 0, sp := 2, ap := 2 },
    steps := 6 }

theorem passBack_call_returns :
    passBack.size < 2 ^ 64 ∧ Relation.ReflTransGen (Goes passBack) {} passBackCaller ∧
      passBackCaller.stack.sp < 2 ^ 64 ∧
      Executes passBack passBackCaller (.frm 0) 10 passBackFramed ∧
      Passes passBack [0] passBackFramed passBackPassed ∧
      Executes passBack passBackPassed (.cas 20) 20 passBackCalled ∧
      Relation.ReflTransGen (CalleeStep passBack passBackCaller.depth) passBackCalled
        passBackCalled ∧
      passBackCalled.depth = passBackCaller.depth + 1 ∧
      Executes passBack passBackCalled (.ret 0 1) 23 passBackReturned ∧
      ((passBackCalled.ip = 20 ∧ passBackCalled.stack.fp = passBackCaller.stack.sp + 2 ∧
        passBackCalled.stack.window = [(0 : Register)].length ∧
        ∀ j (hj : j < [(0 : Register)].length), passBackCaller.stack.get [(0 : Register)][j] =
          .ok (passBackCalled.stack.read (passBackCalled.stack.fp + j))) ∧
        passBackReturned.depth = passBackCaller.depth ∧
        passBackReturned.stack.fp = passBackCaller.stack.fp ∧
        passBackReturned.stack.sp = passBackCaller.stack.sp + (1 : Byteword).toNat ∧
        passBackReturned.ip = 20 ∧
        (∀ j < passBackCaller.stack.sp,
          passBackReturned.stack.read j = passBackCaller.stack.read j) ∧
        ∀ j < (1 : Byteword).toNat,
          passBackReturned.stack.read (passBackCaller.stack.sp + j) =
            passBackCalled.stack.read (passBackCalled.stack.fp + (0 : Register).toNat + j)) := by
  have hcode : passBack.size < 2 ^ 64 := by decide
  have hreach : Relation.ReflTransGen (Goes passBack) {} passBackCaller :=
    .tail (.single (show Goes passBack {}
      { ip := 2, stack := { cells := #[], fp := 0, sp := 1, ap := 0 }, steps := 1 } from
        ⟨rfl, rfl⟩)) ⟨rfl, rfl⟩
  have hsp : passBackCaller.stack.sp < 2 ^ 64 := by decide
  have hfrm : Executes passBack passBackCaller (.frm 0) 10 passBackFramed := ⟨rfl, rfl, rfl⟩
  have hargs : Passes passBack [0] passBackFramed passBackPassed :=
    @Passes.cons passBack 0 [] passBackFramed passBackPassed passBackPassed 12 ⟨rfl, rfl, rfl⟩
      (.nil _)
  have hcas : Executes passBack passBackPassed (.cas 20) 20 passBackCalled := ⟨rfl, rfl, rfl⟩
  have hdepth : passBackCalled.depth = passBackCaller.depth + 1 := rfl
  have hret : Executes passBack passBackCalled (.ret 0 1) 23 passBackReturned := ⟨rfl, rfl, rfl⟩
  exact ⟨hcode, hreach, hsp, hfrm, hargs, hcas, .refl, hdepth, hret,
    call_returns_to_caller hcode hreach hsp hfrm hargs hcas .refl hdepth hret⟩

end WindowVm.Machine
