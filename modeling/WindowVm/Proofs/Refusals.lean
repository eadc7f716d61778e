import Mathlib
import WindowVm.Proofs.Boundaries

/-!
# Why a stream does not disassemble

The linear decode of a stream (`Disassembly.Scan`) starts at offset 0 and decodes one instruction
after another, each from where the previous one ended, until the position reaches the end of
the stream; it fails with the fault of the first decode that fails. The disassembler's listing
is that decode (`Disassembly.listing_eq_iff_scan`): its fuel never runs out, since every decode
moves forward.

A listed location is stray when it is neither an instruction start nor the end of the stream.
The disassembler's check reports the least stray location (`Disassembly.strayTarget?_eq_some_iff`)
and nothing when there is none.

Main statement (`Disassembly.render_eq_error_iff`): a stream fails to disassemble exactly when
its linear decode fails, with the fault of the first failing decode, or when the decode succeeds
and names a stray location, with `Fault.invalidJumpTarget` at the least one. Offsets are machine
words: the stream ends below `2 ^ 64` even when rounded up to a word boundary.
-/

namespace WindowVm.Disassembly

/-- The linear decode of the stream `a` from offset `p`, with its outcome: the instructions it
lists with their offsets, or the fault of the first decode that fails. -/
inductive Scan (a : Array Byteword) : Nat → Except Fault (List (Nat × Instruction Nat)) → Prop
  | done {p : Nat} : a.size ≤ p → Scan a p (.ok [])
  | fault {p : Nat} {e : Fault} : p < a.size → Instruction.decode ⟨a, p⟩ = .error e →
      Scan a p (.error e)
  | next {p : Nat} {i : Instruction Nat} {c : Cursor}
      {r : Except Fault (List (Nat × Instruction Nat))} :
      p < a.size → Instruction.decode ⟨a, p⟩ = .ok (i, c) → Scan a c.pos r →
      Scan a p (r.map ((p, i) :: ·))

/-- The linear decode has one outcome. -/
theorem Scan.unique {a : Array Byteword} {p : Nat} {r r' : Except Fault (List (Nat × Instruction Nat))}
    (h : Scan a p r) (h' : Scan a p r') : r = r' := by
  induction h generalizing r' with
  | done hend =>
    cases h' with
    | done _ => rfl
    | fault hlt _ | next hlt _ _ => omega
  | fault hlt hdec =>
    cases h' with
    | done hend => omega
    | fault _ hdec' => rw [hdec] at hdec'; cases hdec'; rfl
    | next _ hdec' _ => rw [hdec] at hdec'; cases hdec'
  | next hlt hdec _ ih =>
    cases h' with
    | done hend => omega
    | fault _ hdec' => rw [hdec] at hdec'; cases hdec'
    | next _ hdec' hrest =>
      rw [hdec] at hdec'
      cases hdec'
      rw [ih hrest]

/-- The decode with fuel follows the linear decode as long as the fuel covers the bytewords
left: every decode moves forward, so the fuel never runs out before the end. -/
theorem scan_decodeFrom {a : Array Byteword} (hfit : alignUp a.size < 2 ^ 64) (fuel p : Nat)
    (hfuel : a.size ≤ p + fuel) : Scan a p (decodeFrom fuel ⟨a, p⟩) := by
  induction fuel generalizing p with
  | zero => exact .done (by omega)
  | succ fuel ih =>
    by_cases hend : a.size ≤ p
    · simp only [decodeFrom, Cursor.atEnd, hend, decide_true, if_true]
      exact .done hend
    have hlt : p < a.size := Nat.lt_of_not_le hend
    simp only [decodeFrom, Cursor.atEnd, hend, decide_false, Bool.false_eq_true, if_false]
    cases hdec : Instruction.decode ⟨a, p⟩ with
    | error e => exact .fault hlt hdec
    | ok x =>
      obtain ⟨i, ⟨a', q⟩⟩ := x
      obtain ⟨-, hcode, -⟩ := Instruction.decode_within hdec
      have hadv := Instruction.decode_advances hdec hfit
      simp only at hcode hadv
      subst hcode
      have hrest := ih q (by omega)
      cases hr : decodeFrom fuel ⟨a', q⟩ with
      | error _ | ok _ =>
        rw [hr] at hrest
        simp only [hr]
        exact Scan.next hlt hdec hrest

/-- The listing of a stream is the outcome of its linear decode from offset 0. -/
theorem listing_eq_iff_scan {code : Bytecode} (hfit : alignUp code.size < 2 ^ 64)
    {r : Except Fault (List (Nat × Instruction Nat))} :
    listing code = r ↔ Scan code.words 0 r := by
  have hscan : Scan code.words 0 (listing code) :=
    scan_decodeFrom hfit code.size 0 (by simp [Bytecode.size])
  exact ⟨fun h => h ▸ hscan, fun h => hscan.unique h⟩

/-! ### The least stray location -/

/-- A location of a listing that is neither an instruction start nor the end of the stream. -/
def Stray (size : Nat) (l : List (Nat × Instruction Nat)) (t : Nat) : Prop :=
  t ∈ targets l ∧ ¬ Boundary size l t

/-- `t` is the least stray location of the listing `l`. -/
def LeastStray (size : Nat) (l : List (Nat × Instruction Nat)) (t : Nat) : Prop :=
  Stray size l t ∧ ∀ u, Stray size l u → t ≤ u

/-- A check that, location by location, keeps what it holds when `p` accepts the location and
otherwise holds the least of what it held and the location, ends with the least of what it
started with and the locations `p` rejects. -/
theorem foldl_eq_min? {p : Nat → Bool} {g : Option Nat → Nat → Option Nat}
    (hg : ∀ acc t, g acc t = if p t then acc else some (acc.elim t (min · t))) (ts : List Nat)
    (acc : Option Nat) : ts.foldl g acc = (acc.toList ++ ts.filter fun t => !p t).min? := by
  induction ts generalizing acc with
  | nil => cases acc <;> rfl
  | cons t ts ih =>
    rw [List.foldl_cons, ih, hg]
    by_cases ht : p t = true
    · simp only [ht, if_true, List.filter_cons, Bool.not_true, Bool.false_eq_true, if_false]
    · simp only [ht, List.filter_cons, Bool.not_false, if_true, Bool.false_eq_true, if_false]
      cases acc <;> simp [List.min?, List.foldl_cons]

/-- The check reports `t` exactly when `t` is the least stray location of the listing. -/
theorem strayTarget?_eq_some_iff {size : Nat} {l : List (Nat × Instruction Nat)} {t : Nat} :
    strayTarget? size l = some t ↔ LeastStray size l t := by
  dsimp only [strayTarget?]
  rw [foldl_eq_min? (p := fun t => t = size || (l.map Prod.fst).contains t)
    (fun acc t => by cases acc <;> rfl), Option.toList_none, List.nil_append,
    List.min?_eq_some_iff]
  simp [LeastStray, Stray, Boundary, List.mem_filter]

/-! ### The fault a disassembly reports -/

/-- A stream fails to disassemble exactly when its linear decode from offset 0 fails, with the
fault of the first decode that fails, or when that decode succeeds and some location is neither
an instruction start nor the end of the stream, with `Fault.invalidJumpTarget` at the least such
location. -/
theorem render_eq_error_iff {code : Bytecode} (hfit : alignUp code.size < 2 ^ 64) {e : Fault} :
    render code = .error e ↔
      Scan code.words 0 (.error e) ∨
        ∃ l t, Scan code.words 0 (.ok l) ∧ LeastStray code.size l t ∧
          e = .invalidJumpTarget t := by
  unfold render
  cases hl : listing code with
  | error e' =>
    have hscan := (listing_eq_iff_scan hfit).mp hl
    simp only [bind, Except.bind, Except.error.injEq]
    constructor
    · rintro rfl
      exact .inl hscan
    · rintro (h | ⟨l, t, h, -, -⟩)
      · exact Except.error.inj (hscan.unique h)
      · cases hscan.unique h
  | ok l =>
    have hscan := (listing_eq_iff_scan hfit).mp hl
    have hlisted : ∀ l', Scan code.words 0 (.ok l') → l' = l := fun l' h => by
      cases hscan.unique h
      rfl
    have hnofault : ¬ Scan code.words 0 (.error e) := fun h => by cases hscan.unique h
    simp only [bind, Except.bind]
    cases hs : strayTarget? code.size l with
    | none =>
      simp only [pure, Except.pure, reduceCtorEq, false_iff]
      rintro (h | ⟨l', t, h, ht, -⟩)
      · exact hnofault h
      · rw [hlisted l' h, ← strayTarget?_eq_some_iff, hs] at ht
        cases ht
    | some t =>
      simp only [throw, throwThe, MonadExceptOf.throw, Except.error.injEq]
      constructor
      · rintro rfl
        exact .inr ⟨l, t, hscan, strayTarget?_eq_some_iff.mp hs, rfl⟩
      · rintro (h | ⟨l', u, h, hu, rfl⟩)
        · exact absurd h hnofault
        · rw [hlisted l' h, ← strayTarget?_eq_some_iff, hs] at hu
          cases hu
          rfl

/-- A word immediate followed by a jump into the middle of it. -/
def jumpIntoSca : Bytecode := Bytecode.ofList [.sca 0 (Word.ofNat 1), .jmp 1]

theorem jumpIntoSca_refused :
    alignUp jumpIntoSca.size < 2 ^ 64 ∧ render jumpIntoSca = .error (.invalidJumpTarget 1) ∧
      (Scan jumpIntoSca.words 0 (.error (.invalidJumpTarget 1)) ∨
        ∃ l t, Scan jumpIntoSca.words 0 (.ok l) ∧ LeastStray jumpIntoSca.size l t ∧
          Fault.invalidJumpTarget 1 = .invalidJumpTarget t) := by
  have hfit : alignUp jumpIntoSca.size < 2 ^ 64 := by decide
  have hrender : render jumpIntoSca = .error (.invalidJumpTarget 1) := by rfl
  exact ⟨hfit, hrender, (render_eq_error_iff hfit).mp hrender⟩

end WindowVm.Disassembly
