import WindowVm.Proofs.FrameChain
import WindowVm.Proofs.Listing
import WindowVm.Proofs.Decoding
import WindowVm.Machine.Run

/-!
# The machine runs on instruction boundaries

The disassembler decodes a stream linearly from offset 0; its boundaries are the offsets it
lists and the end of the stream (`Disassembly.Boundary`). Each listed instruction decodes again
where it is listed and ends on a boundary (`Disassembly.listing_next`), since every decode moves
forward and the fuel covers the stream; for the same reason the listed offsets increase strictly
(`Disassembly.pairwise_listing`). A stream that disassembles names only boundaries in its
location operands.

The machine reaches an offset by falling through, by a jump or a call to a location operand, or
by a `ret` to the offset stored in the capture of the innermost call. On a frame-disciplined run
that capture holds the offset after the call's `cas`, so the instruction pointer and every
return offset stay on boundaries (`Machine.AtBoundaries.executes`).

Main statement: on every frame-disciplined run of a stream that disassembles, the machine either
stands at the end or decodes exactly the instruction the disassembler lists at its offset
(`Machine.disciplined_run_decodes_listed`). Offsets are machine words: the stream ends below 2^64
even when rounded up to a word boundary.
-/

namespace WindowVm

/-- A decode moves the cursor forward: every instruction takes at least its tag. -/
theorem Instruction.decode_advances {a : Array Byteword} {q : Nat} {i : Instruction Nat}
    {c : Cursor} (h : Instruction.decode ⟨a, q⟩ = .ok (i, c)) (hfit : alignUp a.size < 2 ^ 64) :
    q < c.pos := by
  rw [(Instruction.decode_holds h hfit).1.eq_foldl]
  exact Bytecode.lt_foldl_pieceSize q i

namespace Disassembly

/-- Offset `p` starts an instruction of the listing `l` of a stream of `size` bytewords, or is
the end of the stream. -/
def Boundary (size : Nat) (l : List (Nat × Instruction Nat)) (p : Nat) : Prop :=
  p = size ∨ p ∈ l.map Prod.fst

theorem Boundary.cons {size p : Nat} {l : List (Nat × Instruction Nat)}
    (x : Nat × Instruction Nat) (h : Boundary size l p) : Boundary size (x :: l) p :=
  h.imp_right (List.mem_cons_of_mem _)

/-- A decode with fuel left, not at the end, lists the instruction at its start, then what it
decodes from where that one ends. -/
theorem decodeFrom_succ_eq_ok {a : Array Byteword} {fuel q : Nat}
    {l : List (Nat × Instruction Nat)} (h : decodeFrom (fuel + 1) ⟨a, q⟩ = .ok l)
    (hq : q < a.size) :
    ∃ i c rest, Instruction.decode ⟨a, q⟩ = .ok (i, c) ∧ decodeFrom fuel c = .ok rest ∧
      l = (q, i) :: rest := by
  simp only [decodeFrom, Cursor.atEnd, Nat.not_le.mpr hq, decide_false, Bool.false_eq_true,
    if_false] at h
  cases hdec : Instruction.decode ⟨a, q⟩ with
  | error e => simp [hdec] at h
  | ok r =>
    obtain ⟨i, c⟩ := r
    cases hrest : decodeFrom fuel c with
    | error e => simp [hdec, hrest] at h
    | ok rest =>
      simp only [hdec, hrest, Except.ok.injEq] at h
      exact ⟨i, c, rest, rfl, hrest, h.symm⟩

/-- A decode to the end of the stream starts on a boundary of what it lists. -/
theorem boundary_of_decodeFrom {a : Array Byteword} {fuel p : Nat}
    {l : List (Nat × Instruction Nat)} (h : decodeFrom fuel ⟨a, p⟩ = .ok l)
    (hfuel : a.size ≤ p + fuel) (hp : p ≤ a.size) : Boundary a.size l p := by
  rcases Nat.lt_or_ge p a.size with hlt | hge
  · obtain ⟨f, rfl⟩ : ∃ f, fuel = f + 1 := ⟨fuel - 1, by omega⟩
    obtain ⟨i, c, rest, -, -, rfl⟩ := decodeFrom_succ_eq_ok h hlt
    exact .inr (by simp)
  · exact .inl (by omega)

/-- Each instruction of a decode to the end of the stream decodes again where it is listed and
ends on a boundary: where the next one is listed, or at the end. The fuel suffices since every
decode advances. -/
theorem decodeFrom_next {a : Array Byteword} {fuel q : Nat} {l : List (Nat × Instruction Nat)}
    (h : decodeFrom fuel ⟨a, q⟩ = .ok l) (hfuel : a.size ≤ q + fuel)
    (hfit : alignUp a.size < 2 ^ 64) :
    ∀ p i, (p, i) ∈ l → ∃ c, Instruction.decode ⟨a, p⟩ = .ok (i, c) ∧ c.code = a ∧
      Boundary a.size l c.pos := by
  induction fuel generalizing q l with
  | zero =>
    cases h
    simp
  | succ fuel ih =>
    by_cases hend : a.size ≤ q
    · simp only [decodeFrom, Cursor.atEnd, hend, decide_true, if_true, Except.ok.injEq] at h
      subst h
      simp
    obtain ⟨i, ⟨ca, cp⟩, rest, hdec, hrest, rfl⟩ := decodeFrom_succ_eq_ok h (by omega)
    obtain ⟨-, hcode, hle⟩ := Instruction.decode_within hdec
    have hadv := Instruction.decode_advances hdec hfit
    simp only at hcode hle hadv
    subst hcode
    intro p j hmem
    rcases List.mem_cons.mp hmem with heq | hmem
    · obtain ⟨rfl, rfl⟩ := Prod.mk.inj heq
      exact ⟨⟨ca, cp⟩, hdec, rfl, (boundary_of_decodeFrom hrest (by omega) hle).cons _⟩
    · obtain ⟨c', hd, hc, hb⟩ := ih hrest (show ca.size ≤ cp + fuel by omega) p j hmem
      exact ⟨c', hd, hc, hb.cons _⟩

theorem listing_next {code : Bytecode} {l : List (Nat × Instruction Nat)}
    (hl : listing code = .ok l) (hfit : alignUp code.size < 2 ^ 64) {p : Nat}
    {i : Instruction Nat} (hmem : (p, i) ∈ l) :
    ∃ next, Instruction.decode (Cursor.ofPos code p) = .ok (i, Cursor.ofPos code next) ∧
      Boundary code.size l next := by
  obtain ⟨⟨a, next⟩, hd, hcode, hb⟩ :=
    decodeFrom_next (q := 0) hl (by simp [Bytecode.size]) hfit p i hmem
  simp only at hcode
  subst hcode
  exact ⟨next, hd, hb⟩

/-- The offsets a decode lists start at its start and increase strictly, as every decode moves
forward. -/
theorem pairwise_decodeFrom {a : Array Byteword} (hfit : alignUp a.size < 2 ^ 64) {fuel q : Nat}
    {l : List (Nat × Instruction Nat)} (h : decodeFrom fuel ⟨a, q⟩ = .ok l) :
    (∀ p ∈ l.map Prod.fst, q ≤ p) ∧ (l.map Prod.fst).Pairwise (· < ·) := by
  induction fuel generalizing q l with
  | zero =>
    cases h
    simp
  | succ fuel ih =>
    by_cases hend : a.size ≤ q
    · simp only [decodeFrom, Cursor.atEnd, hend, decide_true, if_true, Except.ok.injEq] at h
      subst h
      simp
    obtain ⟨i, ⟨ca, cp⟩, rest, hdec, hrest, rfl⟩ := decodeFrom_succ_eq_ok h (by omega)
    obtain ⟨-, hcode, -⟩ := Instruction.decode_within hdec
    have hadv := Instruction.decode_advances hdec hfit
    simp only at hcode hadv
    subst hcode
    obtain ⟨hge, hpair⟩ := ih hrest
    refine ⟨?_, List.pairwise_cons.mpr ⟨fun p hp => Nat.lt_of_lt_of_le hadv (hge p hp), hpair⟩⟩
    simp only [List.map_cons, List.mem_cons]
    rintro p (rfl | hp)
    · exact le_rfl
    · exact Nat.le_of_lt (Nat.lt_of_lt_of_le hadv (hge p hp))

/-- The offsets of a listing increase strictly: the boundaries come sorted from the decode, so a
binary search over them answers membership. -/
theorem pairwise_listing {code : Bytecode} {l : List (Nat × Instruction Nat)}
    (hl : listing code = .ok l) (hfit : alignUp code.size < 2 ^ 64) :
    (l.map Prod.fst).Pairwise (· < ·) :=
  (pairwise_decodeFrom hfit hl).2

/-- The linear decode starts at offset 0, which is a boundary. -/
theorem boundary_zero {code : Bytecode} {l : List (Nat × Instruction Nat)}
    (hl : listing code = .ok l) : Boundary code.size l 0 :=
  boundary_of_decodeFrom hl (by simp [Bytecode.size]) (Nat.zero_le _)

/-- At a boundary before the end the instruction decoded is the one listed there, and it ends at
a boundary. -/
theorem listed_of_boundary {code : Bytecode} {l : List (Nat × Instruction Nat)}
    (hl : listing code = .ok l) (hfit : alignUp code.size < 2 ^ 64) {p : Nat}
    (hb : Boundary code.size l p) (hp : p < code.size) :
    ∃ i next, Instruction.decode (Cursor.ofPos code p) = .ok (i, Cursor.ofPos code next) ∧
      (p, i) ∈ l ∧ Boundary code.size l next := by
  rcases hb with rfl | hstart
  · exact absurd hp (Nat.lt_irrefl _)
  obtain ⟨⟨p', i⟩, hmem, rfl⟩ := List.mem_map.mp hstart
  obtain ⟨next, hd, hnext⟩ := listing_next hl hfit hmem
  exact ⟨i, next, hd, hmem, hnext⟩

end Disassembly

namespace Machine

/-- Only jumps, calls and returns move the instruction pointer: a jump or a call to its location,
a return to wherever it reads. -/
theorem execute_ip (m : Machine) (o : Nat) (i : Instruction Nat) :
    (execute m o i).machine.ip = m.ip ∨ i.location = some (execute m o i).machine.ip ∨
      ∃ v n, i = .ret v n := by
  obtain ⟨ip, s, pending, depth, steps⟩ := m
  cases i <;> simp only [execute, system, prepare, pass, enter, setRegister, loadVia, storeVia,
    compute, fault, withStack, Instruction.location] <;> (repeat' split) <;> simp

/-- After a step the instruction pointer is where the instruction ended, its location operand,
or, for `ret`, the offset in the capture below the frame pointer. -/
theorem Executes.ip_cases {code : Bytecode} {m m' : Machine} {i : Instruction Nat} {next : Nat}
    (h : Executes code m i next m') :
    m'.ip = next ∨ i.location = some m'.ip ∨
      ∃ v n, i = .ret v n ∧ m'.ip = (m.stack.read (m.stack.fp - 2)).toNat := by
  obtain ⟨-, hm'⟩ := h.execute_goes
  rcases execute_ip { m with ip := next, steps := m.steps + 1 } m.ip i with
    hip | hloc | ⟨v, n, rfl⟩
  · exact .inl (hm' ▸ hip)
  · exact .inr (.inl (hm' ▸ hloc))
  · obtain ⟨-, -, -, -, hip, -⟩ := h.ret
    exact .inr (.inr ⟨v, n, rfl, hip⟩)

/-- A call that `Frame.track` adds returns to where its instruction ended. -/
theorem Frame.mem_track {fs : List Frame} {m : Machine} {next : Nat} {i : Instruction Nat}
    {f : Frame} (h : f ∈ Frame.track fs m next i) : f ∈ fs ∨ f.back = next := by
  cases i with
  | cas l =>
    simp only [Frame.track] at h
    split at h
    · rcases List.mem_cons.mp h with rfl | h
      · exact .inr rfl
      · exact .inl h
    · exact .inl h
  | ret v n => exact .inl (List.mem_of_mem_tail h)
  | _ => exact .inl h

open Disassembly

/-- The instruction pointer and the return offset of every active call lie on boundaries of the
listing `l`. -/
structure AtBoundaries (code : Bytecode) (l : List (Nat × Instruction Nat)) (m : Machine)
    (fs : List Frame) : Prop where
  ip : Boundary code.size l m.ip
  back : ∀ f ∈ fs, Boundary code.size l f.back

variable {code : Bytecode} {l : List (Nat × Instruction Nat)}

/-- One step keeps the machine on boundaries when every location operand is one: a fall-through
goes to where the listed instruction ends, a jump or call to its location, and a `ret` to the
return offset its capture holds, the one of the innermost call. -/
theorem AtBoundaries.executes (hl : listing code = .ok l)
    (hstray : strayTarget? code.size l = none) (hfit : alignUp code.size < 2 ^ 64)
    {m m' : Machine} {fs : List Frame} {i : Instruction Nat} {next : Nat}
    (hf : Frames 0 0 m fs) (hb : AtBoundaries code l m fs) (h : Executes code m i next m') :
    AtBoundaries code l m' (Frame.track fs m next i) := by
  have hlt : m.ip < code.size := (Instruction.decode_within h.decode).1
  obtain ⟨i', next', hd, hmem, hnext⟩ := listed_of_boundary hl hfit hb.ip hlt
  obtain ⟨rfl, hc⟩ := Prod.mk.inj (Except.ok.inj (h.decode.symm.trans hd))
  have hnext : Boundary code.size l next := by
    have : next = next' := congrArg Cursor.pos hc
    exact this ▸ hnext
  refine ⟨?_, fun f hmem =>
    (Frame.mem_track hmem).elim (hb.back f) (fun hback => hback ▸ hnext)⟩
  rcases h.ip_cases with hip | hloc | ⟨v, n, rfl, hip⟩
  · exact hip ▸ hnext
  · have ht : m'.ip ∈ targets l := List.mem_filterMap.mpr ⟨(m.ip, i), hmem, hloc⟩
    exact mem_of_strayTarget?_eq_none hstray _ ht
  · obtain ⟨hdepth, -⟩ := h.ret
    obtain ⟨g, gs, rfl⟩ : ∃ g gs, fs = g :: gs := by
      cases fs with
      | nil => have := hf.depth; simp at this; omega
      | cons g gs => exact ⟨g, gs, rfl⟩
    have hk : m.stack.fp - 2 = g.capture := by simp [hf.fp, Frame.framePointer]
    rw [hip, hk, hf.chain.2.2.1]
    exact hb.back g (List.mem_cons_self ..)

theorem atBoundaries_of_disciplined (hl : listing code = .ok l)
    (hstray : strayTarget? code.size l = none) (hfit : alignUp code.size < 2 ^ 64)
    {p : Machine × List Frame} (h : Relation.ReflTransGen (DisciplinedStep code) ({}, []) p) :
    AtBoundaries code l p.1 p.2 := by
  have hcode : code.size < 2 ^ 64 := Nat.lt_of_le_of_lt (Bytecode.le_alignUp _) hfit
  induction h with
  | refl => exact ⟨boundary_zero hl, fun f hf => by cases hf⟩
  | tail hrun hstep ih =>
    cases hstep with
    | mk hex hsp hdisc =>
      exact ih.executes hl hstray hfit (frames_of_disciplined hcode hrun) hex

/-- On every frame-disciplined run of a stream that disassembles, the machine stands at the end
of the stream or decodes there the instruction that the disassembler lists at that offset: it
never decodes from the middle of an instruction. -/
theorem disciplined_run_decodes_listed {code : Bytecode} (hfit : alignUp code.size < 2 ^ 64)
    {text : String} (hdis : render code = .ok text) {m : Machine} {fs : List Frame}
    (hrun : Relation.ReflTransGen (DisciplinedStep code) ({}, []) (m, fs)) :
    ∃ l, listing code = .ok l ∧
      (m.ip = code.size ∨ ∃ i c, Instruction.decode (Cursor.ofPos code m.ip) = .ok (i, c) ∧
        (m.ip, i) ∈ l) := by
  obtain ⟨l, hl, hstray, -⟩ := render_eq_ok hdis
  refine ⟨l, hl, ?_⟩
  rcases (atBoundaries_of_disciplined hl hstray hfit hrun).ip with heq | hstart
  · exact .inl heq
  · obtain ⟨⟨p, i⟩, hmem, rfl⟩ := List.mem_map.mp hstart
    obtain ⟨next, hd, -⟩ := listing_next hl hfit hmem
    exact .inr ⟨i, _, hd, hmem⟩

/-- A call of a function that returns at once, then an exit: `frm 0`, `cas :s11`, `sys exit %0`,
and at offset 11 `ret %0 0`. -/
def callAndExit : Bytecode := Bytecode.ofList [.frm 0, .cas 11, .sys (.exit 0), .ret 0 0]

/-- `callAndExit` back from its call, at the `sys exit`. -/
def callAndExitReturned : Machine := (run callAndExit none 3 {} #[]).machine

theorem callAndExit_decodes_listed :
    alignUp callAndExit.size < 2 ^ 64 ∧
      render callAndExit = .ok "    frm 0\n    cas :s11\n    sys exit %0\n:s11\n    ret %0 0\n" ∧
      Relation.ReflTransGen (DisciplinedStep callAndExit) ({}, []) (callAndExitReturned, []) ∧
      ∃ l, listing callAndExit = .ok l ∧
        (callAndExitReturned.ip = callAndExit.size ∨
          ∃ i c, Instruction.decode (Cursor.ofPos callAndExit callAndExitReturned.ip) =
              .ok (i, c) ∧ (callAndExitReturned.ip, i) ∈ l) := by
  have hfit : alignUp callAndExit.size < 2 ^ 64 := by decide
  have hdis : render callAndExit =
      .ok "    frm 0\n    cas :s11\n    sys exit %0\n:s11\n    ret %0 0\n" := by rfl
  have hfrm : Executes callAndExit {} (.frm 0) 2 (run callAndExit none 1 {} #[]).machine :=
    ⟨rfl, rfl, rfl⟩
  have hcas : Executes callAndExit (run callAndExit none 1 {} #[]).machine (.cas 11) 8
      (run callAndExit none 2 {} #[]).machine := ⟨rfl, rfl, rfl⟩
  have hret : Executes callAndExit (run callAndExit none 2 {} #[]).machine (.ret 0 0) 14
      callAndExitReturned := ⟨rfl, rfl, rfl⟩
  have hrun : Relation.ReflTransGen (DisciplinedStep callAndExit) ({}, [])
      (callAndExitReturned, []) :=
    .tail (.tail (.single (.mk hfrm (by decide) trivial)) (.mk hcas (by decide) trivial))
      (.mk hret (by decide) trivial)
  exact ⟨hfit, hdis, hrun, disciplined_run_decodes_listed hfit hdis hrun⟩

end Machine

end WindowVm
