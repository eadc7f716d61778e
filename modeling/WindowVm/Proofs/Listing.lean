import WindowVm.Disassembly
import WindowVm.Proofs.Decoding

/-!
# The linear decode of pushed code

Instructions pushed after any prefix decode back one after another from where the prefix ends,
each decode starting where the previous one stopped and the last one stopping at the end of the
stream (`Instruction.decodeMany_foldl_push`). In particular code made by pushing a list of
instructions is decoded, from its start, into exactly that list, each instruction at the offset
where it was pushed (`Disassembly.listing_ofList`). The disassembler finds no stray target
exactly when every location operand is one of those offsets or the end of the code
(`Disassembly.strayTarget?_eq_none`, `Disassembly.mem_of_strayTarget?_eq_none`), and a stream
that disassembles has a listing with no stray target, whose text it is (`Disassembly.render_eq_ok`).
-/

namespace WindowVm

namespace Bytecode

/-- Each instruction with the offset at which pushing it after `c` and its predecessors puts
it. -/
def layout : Bytecode → List (Instruction Nat) → List (Nat × Instruction Nat)
  | _, [] => []
  | c, i :: is => (c.size, i) :: layout (c.push i) is

@[simp] theorem layout_nil (c : Bytecode) : c.layout [] = [] := rfl

@[simp] theorem layout_cons (c : Bytecode) (i : Instruction Nat) (is : List (Instruction Nat)) :
    c.layout (i :: is) = (c.size, i) :: (c.push i).layout is := rfl

theorem size_le_foldl_push (c : Bytecode) (is : List (Instruction Nat)) :
    c.size ≤ (is.foldl push c).size := by
  induction is generalizing c with
  | nil => exact Nat.le_refl _
  | cons i is ih => exact Nat.le_of_lt (Nat.lt_of_lt_of_le (size_lt_push c i) (ih _))

/-- The size of pushed code depends only on the size it starts from. -/
theorem size_foldl_push_of_size_eq {c c' : Bytecode} (h : c.size = c'.size)
    (is : List (Instruction Nat)) : (is.foldl push c).size = (is.foldl push c').size := by
  induction is generalizing c c' with
  | nil => exact h
  | cons i is ih => exact ih (by rw [size_push, size_push, h])

theorem length_add_size_le (c : Bytecode) (is : List (Instruction Nat)) :
    is.length + c.size ≤ (is.foldl push c).size := by
  induction is generalizing c with
  | nil => simp
  | cons i is ih =>
    have := ih (c.push i)
    have := size_lt_push c i
    simp only [List.length_cons, List.foldl_cons]
    omega

theorem PrefixOf.of_foldl_push {c : Bytecode} {is : List (Instruction Nat)}
    {a : Array Byteword} (h : (is.foldl push c).PrefixOf a) : c.PrefixOf a := by
  induction is generalizing c with
  | nil => exact h
  | cons i is ih => exact (ih h).of_push

end Bytecode

namespace Instruction

open Bytecode

/-- Decodes `n` instructions one after another, each from where the previous one ended. -/
def decodeMany : Nat → Cursor → Except Fault (List (Instruction Nat) × Cursor)
  | 0, c => .ok ([], c)
  | n + 1, c => do
    let (i, c) ← decode c
    let (is, c) ← decodeMany n c
    pure (i :: is, c)

/-- Pushing instructions after a prefix and decoding as many from the end of the prefix gives
them back in order, and leaves the cursor at the end of the stream. The wide padding before each
word depends on where the instruction lands, so the prefix is generalised in the induction. -/
theorem decodeMany_foldl_push (p : Bytecode) (is : List (Instruction Nat))
    (hfit : (is.foldl push p).size ≤ 2 ^ 64) (hloc : ∀ i ∈ is, ∀ l ∈ i.location, l < 2 ^ 64) :
    decodeMany is.length ⟨(is.foldl push p).words, p.size⟩ =
      .ok (is, ⟨(is.foldl push p).words, (is.foldl push p).size⟩) := by
  induction is generalizing p with
  | nil => rfl
  | cons i is ih =>
    have hfirst : decode ⟨(is.foldl push (p.push i)).words, p.size⟩ =
        .ok (i, ⟨(is.foldl push (p.push i)).words, (p.push i).size⟩) :=
      decode_push (PrefixOf.of_foldl_push (prefixOf_words _))
        (Nat.le_trans (size_le_foldl_push _ is) hfit) (hloc i (by simp))
    have hrest := ih (p.push i) hfit fun j hj => hloc j (by simp [hj])
    simp [decodeMany, hfirst, hrest, bind, Except.bind, pure, Except.pure]

/-- A byteword of earlier code, then a wide immediate whose padding depends on that prefix, a
conditional jump and an exit. -/
theorem decodeMany_after_prefix :
    (([.sca 0 (Word.ofInt (-1)), .jnz 5 2, .sys (.exit 0)] : List (Instruction Nat)).foldl push
        ⟨#[7]⟩).size ≤ 2 ^ 64 ∧
      (∀ i ∈ ([.sca 0 (Word.ofInt (-1)), .jnz 5 2, .sys (.exit 0)] : List (Instruction Nat)),
        ∀ l ∈ i.location, l < 2 ^ 64) ∧
      decodeMany 3 ⟨#[7, Opcode.sca.tag, 0, 0, 65535, 65535, 65535, 65535, Opcode.jnz.tag, 0, 0, 0,
          5, 0, 0, 0, 2, Opcode.sys.tag, Syscall.exit.tag, 0], 1⟩ =
        .ok ([.sca 0 (Word.ofInt (-1)), .jnz 5 2, .sys (.exit 0)],
          ⟨#[7, Opcode.sca.tag, 0, 0, 65535, 65535, 65535, 65535, Opcode.jnz.tag, 0, 0, 0,
            5, 0, 0, 0, 2, Opcode.sys.tag, Syscall.exit.tag, 0], 20⟩) := by
  have hfit : (([.sca 0 (Word.ofInt (-1)), .jnz 5 2, .sys (.exit 0)] : List (Instruction Nat)).foldl
      push ⟨#[7]⟩).size ≤ 2 ^ 64 := by decide
  have hloc : ∀ i ∈ ([.sca 0 (Word.ofInt (-1)), .jnz 5 2, .sys (.exit 0)] : List (Instruction Nat)),
      ∀ l ∈ i.location, l < 2 ^ 64 := by decide
  exact ⟨hfit, hloc, decodeMany_foldl_push ⟨#[7]⟩ _ hfit hloc⟩

end Instruction

namespace Disassembly

open Bytecode

/-- Decoding from where `c` ends reads back the instructions pushed after it, one unit of fuel
each. -/
theorem decodeFrom_layout {c : Bytecode} {is : List (Instruction Nat)} {a : Array Byteword}
    {fuel : Nat} (h : (is.foldl push c).PrefixOf a) (hsize : a.size = (is.foldl push c).size)
    (hfit : a.size ≤ 2 ^ 64) (hloc : ∀ i ∈ is, ∀ l ∈ i.location, l < 2 ^ 64)
    (hfuel : is.length ≤ fuel) :
    decodeFrom fuel ⟨a, c.size⟩ = .ok (c.layout is) := by
  induction is generalizing c fuel with
  | nil =>
    cases fuel with
    | zero => rfl
    | succ fuel => simp [decodeFrom, Cursor.atEnd, hsize]
  | cons i is ih =>
    obtain ⟨fuel, rfl⟩ : ∃ f, fuel = f + 1 := ⟨fuel - 1, by simp at hfuel; omega⟩
    have hpush : (c.push i).size ≤ a.size := by
      rw [hsize]
      exact size_le_foldl_push (c.push i) is
    have hlt : c.size < a.size := Nat.lt_of_lt_of_le (size_lt_push c i) hpush
    have hdecode : Instruction.decode ⟨a, c.size⟩ = .ok (i, ⟨a, (c.push i).size⟩) :=
      Instruction.decode_push (PrefixOf.of_foldl_push h) (Nat.le_trans hpush hfit)
        (hloc i (by simp))
    have hrest : decodeFrom fuel ⟨a, (c.push i).size⟩ = .ok ((c.push i).layout is) :=
      ih h hsize (fun j hj => hloc j (by simp [hj])) (by simp at hfuel; omega)
    simp [decodeFrom, Cursor.atEnd, Nat.not_le.mpr hlt, hdecode, hrest]

/-- The listing of pushed code is the list pushed, at the offsets where it was pushed. -/
theorem listing_ofList {is : List (Instruction Nat)} (hfit : (ofList is).size ≤ 2 ^ 64)
    (hloc : ∀ i ∈ is, ∀ l ∈ i.location, l < 2 ^ 64) :
    listing (ofList is) = .ok (empty.layout is) := by
  have hlen := length_add_size_le empty is
  have h : decodeFrom (ofList is).size ⟨(ofList is).words, empty.size⟩ = .ok (empty.layout is) :=
    decodeFrom_layout (prefixOf_words _) rfl hfit hloc (by simp [ofList, empty, size] at *; omega)
  exact h

theorem foldl_stray_eq_none {size : Nat} {starts ts : List Nat}
    (h : ∀ t ∈ ts, t = size ∨ t ∈ starts) :
    ts.foldl (fun acc t => if t = size || starts.contains t then acc
      else some (match acc with | some a => min a t | none => t)) none = none := by
  induction ts with
  | nil => rfl
  | cons t ts ih =>
    have ht : (t = size || starts.contains t) = true := by
      rcases h t (by simp) with e | e <;> simp [e]
    simp only [List.foldl_cons, ht, if_true]
    exact ih (fun u hu => h u (by simp [hu]))

/-- No location is reported when every location is an instruction start or the end. -/
theorem strayTarget?_eq_none {size : Nat} {l : List (Nat × Instruction Nat)}
    (h : ∀ t ∈ targets l, t = size ∨ t ∈ l.map Prod.fst) : strayTarget? size l = none :=
  foldl_stray_eq_none h

theorem foldl_stray_ne_none {size : Nat} {starts ts : List Nat} (a : Nat) :
    ts.foldl (fun acc t => if t = size || starts.contains t then acc
      else some (match acc with | some a => min a t | none => t)) (some a) ≠ none := by
  induction ts generalizing a with
  | nil => simp
  | cons t ts ih =>
    rw [List.foldl_cons]
    split
    · exact ih a
    · exact ih _

/-- When no location is reported, every location is an instruction start or the end. -/
theorem mem_of_strayTarget?_eq_none {size : Nat} {l : List (Nat × Instruction Nat)}
    (h : strayTarget? size l = none) : ∀ t ∈ targets l, t = size ∨ t ∈ l.map Prod.fst := by
  unfold strayTarget? at h
  generalize targets l = ts at h
  induction ts with
  | nil => simp
  | cons t ts ih =>
    rw [List.foldl_cons] at h
    split at h
    · rename_i ht
      intro u hu
      rcases List.mem_cons.mp hu with rfl | hu
      · simpa using ht
      · exact ih h u hu
    · exact absurd h (foldl_stray_ne_none _)

/-- A stream disassembles exactly to the text of its listing when the listing names no stray
location. -/
theorem render_eq_ok {code : Bytecode} {t : String} (h : render code = .ok t) :
    ∃ l, listing code = .ok l ∧ strayTarget? code.size l = none ∧ t = text code.size l := by
  unfold render at h
  cases hl : listing code with
  | error e => simp [hl, bind, Except.bind] at h
  | ok l =>
    simp only [hl, bind, Except.bind] at h
    split at h
    · simp [throw, throwThe, MonadExceptOf.throw] at h
    · rename_i hs
      simp only [pure, Except.pure, Except.ok.injEq] at h
      exact ⟨l, rfl, hs, h.symm⟩

end Disassembly

end WindowVm
