import Mathlib
import WindowVm.Emitter
import WindowVm.Proofs.Grammar
import WindowVm.Proofs.Listing

/-!
# The emitter refines direct encoding

An emitter writes the index of a symbol where a location belongs and patches it at the end. This
module shows that the placeholders cost nothing: after any sequence of calls the emitter is the
placeholder encoding of a plain record, `Emitter.Direct`, that keeps only the symbols with their
locations and the instructions emitted (`Emitter.session_eq_placeholders`), and finishing it is
pushing those instructions with each symbol replaced by its location, or else the error for the
first instruction whose symbol has no location (`Emitter.finish_placeholders`).

The placeholder words survive because a patch overwrites exactly one word, which lies before
everything written after it, so patching commutes with later pushes
(`Bytecode.patchWord_foldl_push`).
Indices and offsets are machine words: the symbols must number at most 2^64 and the code must
fit in 2^64 bytewords, or an index read back wraps.
-/

namespace WindowVm

namespace Bytecode

/-- The positions where the location words of the pieces `ps`, laid out from size `n`, start. -/
def placements {L : Type} : Nat → List (Piece L) → List Nat
  | _, [] => []
  | n, .half _ :: ps => placements (n + 1) ps
  | n, .word _ :: ps => placements (alignUp n + 4) ps
  | n, .place _ :: ps => alignUp n :: placements (alignUp n + 4) ps

/-- The positions of the location words of instructions pushed one after another from size `n`. -/
def locationWords {L : Type} : Nat → List (Instruction L) → List Nat
  | _, [] => []
  | n, i :: is => placements n i.pieces ++ locationWords (i.pieces.foldl pieceSize n) is

theorem alignUp_alignUp (n : Nat) : alignUp (alignUp n) = alignUp n := by
  unfold alignUp; omega

theorem size_words (c : Bytecode) : c.words.size = c.size := rfl

theorem getElem?_foldl_setIfInBounds (bs : List Byteword) (q k : Nat) (a : Array Byteword)
    (j : Nat) :
    ((bs.zipIdx k).foldl (fun ws p => ws.setIfInBounds (q + p.2) p.1) a)[j]? =
      if q + k ≤ j ∧ j < q + k + bs.length ∧ j < a.size then bs[j - (q + k)]? else a[j]? := by
  induction bs generalizing k a with
  | nil => rw [if_neg (by simp; omega)]; rfl
  | cons b bs ih =>
    rw [List.zipIdx_cons, List.foldl_cons, ih, Array.size_setIfInBounds,
      Array.getElem?_setIfInBounds]
    by_cases hj : j = q + k
    · subst hj
      by_cases hs : q + k < a.size <;> simp [hs]
    · by_cases hin : q + (k + 1) ≤ j ∧ j < q + (k + 1) + bs.length ∧ j < a.size
      · rw [if_pos hin, if_pos (by simp; omega)]
        obtain ⟨m, rfl⟩ : ∃ m, j = q + (k + 1) + m := ⟨j - (q + (k + 1)), by omega⟩
        rw [show q + (k + 1) + m - (q + k) = m + 1 by omega, List.getElem?_cons_succ]
        congr 1
        omega
      · rw [if_neg hin, if_neg (Ne.symm hj), if_neg (by simp; omega)]

theorem size_patchWord (c : Bytecode) (q : Nat) (w : Word) : (c.patchWord q w).size = c.size := by
  simp [patchWord, size, Word.toBytewords, List.zipIdx]

theorem getElem?_patchWord (c : Bytecode) (q : Nat) (w : Word) (j : Nat) :
    (c.patchWord q w).words[j]? =
      if q ≤ j ∧ j < q + 4 ∧ j < c.size then w.toBytewords[j - q]? else c.words[j]? := by
  have h := getElem?_foldl_setIfInBounds w.toBytewords q 0 c.words j
  have hlen : w.toBytewords.length = 4 := rfl
  rw [Nat.add_zero, hlen, size_words] at h
  dsimp only [patchWord]
  exact h

/-- Two codes are equal when they agree at every offset. -/
theorem ext_getElem? {c d : Bytecode} (h : ∀ j : Nat, c.words[j]? = d.words[j]?) : c = d := by
  cases c
  cases d
  rw [Bytecode.mk.injEq]
  exact Array.ext_getElem? h

theorem getElem?_writeWord (c : Bytecode) (w : Word) (j : Nat) :
    (c.writeWord w).words[j]? =
      if j < c.size then c.words[j]?
      else if j < alignUp c.size then some 0 else w.toBytewords[j - alignUp c.size]? := by
  have := le_alignUp c.size
  simp only [writeWord, Array.getElem?_append, Array.size_append, Array.size_replicate,
    Array.getElem?_replicate, List.getElem?_toArray, size_words]
  by_cases hold : j < c.size
  · rw [if_pos (by omega), if_pos hold, if_pos hold]
  · by_cases hpad : j < alignUp c.size
    · rw [if_pos (by omega), if_neg hold, if_pos (by omega), if_neg hold, if_pos hpad]
    · rw [if_neg (by omega), if_neg hold, if_neg hpad]
      congr 1
      omega

/-- A patch of an earlier word commutes with appending a byteword. -/
theorem patchWord_writeHalf {c : Bytecode} {q : Nat} (hq : q + 4 ≤ c.size) (w : Word)
    (b : Byteword) : (c.writeHalf b).patchWord q w = (c.patchWord q w).writeHalf b := by
  apply ext_getElem?
  intro j
  have hsize := size_patchWord c q w
  rw [getElem?_patchWord, getElem?_writeHalf, getElem?_writeHalf, getElem?_patchWord,
    size_writeHalf, hsize]
  split_ifs <;> first | rfl | omega

/-- A patch of an earlier word commutes with appending a word. -/
theorem patchWord_writeWord {c : Bytecode} {q : Nat} (hq : q + 4 ≤ c.size) (w v : Word) :
    (c.writeWord v).patchWord q w = (c.patchWord q w).writeWord v := by
  apply ext_getElem?
  intro j
  have hsize := size_patchWord c q w
  have := le_alignUp c.size
  rw [getElem?_patchWord, getElem?_writeWord, getElem?_writeWord, getElem?_patchWord, hsize,
    size_writeWord]
  split_ifs <;> first | rfl | omega

theorem patchWord_writePiece {c : Bytecode} {q : Nat} (hq : q + 4 ≤ c.size) (w : Word)
    (p : Piece Nat) : (c.writePiece p).patchWord q w = (c.patchWord q w).writePiece p := by
  cases p with
  | half b => exact patchWord_writeHalf hq w b
  | word v => exact patchWord_writeWord hq w v
  | place l => exact patchWord_writeWord hq w _

theorem patchWord_foldl_writePiece {c : Bytecode} {q : Nat} (hq : q + 4 ≤ c.size) (w : Word)
    (ps : List (Piece Nat)) :
    (ps.foldl writePiece c).patchWord q w = ps.foldl writePiece (c.patchWord q w) := by
  induction ps generalizing c with
  | nil => rfl
  | cons p ps ih =>
    have hq' : q + 4 ≤ (c.writePiece p).size := by
      cases p <;> simp [pieceSize] at * <;> grind [le_alignUp]
    simp only [List.foldl_cons, ih hq', patchWord_writePiece hq]

/-- Patching a word of earlier code commutes with pushing more instructions after it. -/
theorem patchWord_foldl_push {c : Bytecode} {q : Nat} (hq : q + 4 ≤ c.size) (w : Word)
    (is : List (Instruction Nat)) :
    (is.foldl push c).patchWord q w = is.foldl push (c.patchWord q w) := by
  induction is generalizing c with
  | nil => rfl
  | cons i is ih =>
    have hq' : q + 4 ≤ (c.push i).size := Nat.le_trans hq (Nat.le_of_lt (size_lt_push c i))
    rw [List.foldl_cons, List.foldl_cons, ih hq']
    exact congrArg (fun d => is.foldl push d) (patchWord_foldl_writePiece hq w i.pieces)

/-- Patching the word just written replaces it. -/
theorem patchWord_writeWord_self (c : Bytecode) (v w : Word) :
    (c.writeWord v).patchWord (alignUp c.size) w = c.writeWord w := by
  apply ext_getElem?
  intro j
  have := le_alignUp c.size
  rw [getElem?_patchWord, getElem?_writeWord, getElem?_writeWord, size_writeWord]
  have hv : v.toBytewords.length = 4 := rfl
  have hw : w.toBytewords.length = 4 := rfl
  split_ifs <;> first | rfl | omega |
    (rw [List.getElem?_eq_none (by omega), List.getElem?_eq_none (by omega)])

end Bytecode

open Bytecode

namespace Instruction

/-- An instruction with a location is its halfwords around one location word: swapping the
location changes that word only. -/
theorem pieces_of_location {i : Instruction Nat} {s : Nat} (h : i.location = some s) :
    ∃ pre post : List Byteword, ∀ f : Nat → Nat,
      (i.map f).pieces = pre.map Piece.half ++ Piece.place (f s) :: post.map Piece.half := by
  cases i <;> simp only [location, Option.some.injEq, reduceCtorEq] at h <;> subst h
  · exact ⟨[Opcode.cas.tag], [], fun f => rfl⟩
  · exact ⟨[Opcode.loc.tag, _], [], fun f => rfl⟩
  · exact ⟨[Opcode.jmp.tag], [], fun f => rfl⟩
  · exact ⟨[Opcode.jnz.tag], [_], fun f => rfl⟩

theorem map_of_location_eq_none {i : Instruction Nat} (h : i.location = none) (f : Nat → Nat) :
    i.map f = i := by
  cases i <;> simp_all [location, map]

theorem placements_of_location_eq_none {i : Instruction Nat} (h : i.location = none) (n : Nat) :
    placements n i.pieces = [] := by
  cases i with
  | sys c => cases c <;> simp [pieces, placements, SystemCall.registers]
  | _ => simp_all [location, pieces, placements]

end Instruction

theorem placements_halves (n : Nat) (bs : List Byteword) (rest : List (Piece Nat)) :
    placements n (bs.map Piece.half ++ rest) = placements (n + bs.length) rest := by
  induction bs generalizing n with
  | nil => rfl
  | cons b bs ih => simp [placements, ih]; congr 1; omega

theorem size_foldl_writePiece_halves (c : Bytecode) (bs : List Byteword) :
    ((bs.map Piece.half).foldl writePiece c).size = c.size + bs.length := by
  induction bs generalizing c with
  | nil => rfl
  | cons b bs ih => simp [ih, writePiece]; omega

/-- An instruction with a location writes one location word, at the first word boundary after
its bytewords in front of it. -/
theorem Instruction.placements_of_location {i : Instruction Nat} {s : Nat}
    {pre post : List Byteword}
    (hpieces : ∀ f : Nat → Nat,
      (i.map f).pieces = pre.map Piece.half ++ Piece.place (f s) :: post.map Piece.half)
    (n : Nat) : placements n i.pieces = [alignUp (n + pre.length)] := by
  have h := hpieces fun l => l
  rw [Instruction.map_id] at h
  have hpost :
      placements (alignUp (n + pre.length) + 4) (post.map (Piece.half (L := Nat))) = [] := by
    simpa [placements] using placements_halves (alignUp (n + pre.length) + 4) post []
  rw [h, placements_halves, placements, hpost]

namespace Cursor

/-- A word read from its own, already aligned, start. -/
theorem readWord_alignUp_of_prefixOf {c : Bytecode} {w : Word} {a : Array Byteword}
    (h : (c.writeWord w).PrefixOf a) (hb : alignUp c.size < 2 ^ 64) :
    readWord ⟨a, alignUp c.size⟩ = .ok (w, ⟨a, alignUp c.size + 4⟩) := by
  have hw : WordAt a (alignUp (alignUp c.size)) w := by
    rw [alignUp_alignUp]
    exact wordAt_of_prefixOf h
  have hr := readWord_of_wordAt hw (by rwa [alignUp_alignUp])
  rwa [alignUp_alignUp] at hr

end Cursor

namespace Emitter

/-- A definition succeeds exactly on an allocated symbol that has no location yet. -/
theorem define_ok_iff (e : Emitter) (s : Nat) :
    (∃ e', e.define s = .ok e') ↔ s < e.locations.size ∧ e.location? s = none := by
  by_cases hs : s < e.locations.size
  · cases hl : e.locations[s] <;> simp [define, location?, hs, hl]
  · simp [define, hs]

/-- An instruction is emitted exactly when its symbol, if it has one, is allocated. -/
theorem emit_ok_iff (e : Emitter) (i : Instruction Nat) :
    (∃ e', e.emit i = .ok e') ↔ ∀ s ∈ i.location, s < e.locations.size := by
  cases hloc : i.location with
  | none => simp [emit, hloc]
  | some s =>
    by_cases hs : e.locations.size ≤ s
    · simp [emit, hloc, hs]
    · simpa [emit, hloc, hs] using Nat.lt_of_not_le hs

/-- One patch of `finish`: the word at `pos` names a symbol, which gives way to its location. -/
def patchStep (e : Emitter) (c : Bytecode) (pos : Nat) : Except Error Bytecode :=
  let s := indexAt c pos
  match e.locations[s]? with
  | some (some l) => .ok (c.patchWord pos (Word.ofNat l))
  | some none => .error (.undefinedSymbol s)
  | none => .error (.unknownSymbol s)

theorem finish_eq_foldlM (e : Emitter) :
    e.finish = e.references.toList.foldlM e.patchStep e.code := by
  rw [Array.foldlM_toList]
  rfl

/-- The symbol of `i`, if it has one and the emitter gives it no location. -/
def unresolved (e : Emitter) (i : Instruction Nat) : Option Nat :=
  i.location.filter fun s => (e.location? s).isNone

/-- The location the emitter gives a symbol; an undefined symbol is never asked for. -/
def resolve (e : Emitter) (s : Nat) : Nat := (e.location? s).getD 0

/-- An instruction whose one location is `s`, pushed after `c` with `f` applied to its location:
its bytewords before the location word, the word of `f s`, then its bytewords after. -/
theorem push_map_of_pieces (c : Bytecode) {i : Instruction Nat} {s : Nat}
    {pre post : List Byteword}
    (hpieces : ∀ f : Nat → Nat,
      (i.map f).pieces = pre.map Piece.half ++ Piece.place (f s) :: post.map Piece.half)
    (f : Nat → Nat) :
    c.push (i.map f) = (post.map Piece.half).foldl writePiece
      (((pre.map Piece.half).foldl writePiece c).writeWord (Word.ofNat (f s))) := by
  simp only [push, hpieces f, List.foldl_append, List.foldl_cons]
  rfl

theorem push_of_pieces (c : Bytecode) {i : Instruction Nat} {s : Nat} {pre post : List Byteword}
    (hpieces : ∀ f : Nat → Nat,
      (i.map f).pieces = pre.map Piece.half ++ Piece.place (f s) :: post.map Piece.half) :
    c.push i = (post.map Piece.half).foldl writePiece
      (((pre.map Piece.half).foldl writePiece c).writeWord (Word.ofNat s)) := by
  simpa only [Instruction.map_id] using push_map_of_pieces c hpieces fun l => l

/-- The location word ends inside the instruction. -/
theorem alignUp_add_le_push (c : Bytecode) {i : Instruction Nat} {s : Nat}
    {pre post : List Byteword}
    (hpieces : ∀ f : Nat → Nat,
      (i.map f).pieces = pre.map Piece.half ++ Piece.place (f s) :: post.map Piece.half) :
    alignUp (c.size + pre.length) + 4 ≤ (c.push i).size := by
  rw [push_of_pieces c hpieces, size_foldl_writePiece_halves, size_writeWord,
    size_foldl_writePiece_halves]
  omega

/-- The location word of an instruction pushed after `c`, with more pushed after it, reads back
as the instruction's location. -/
theorem indexAt_foldl_push {c : Bytecode} {i : Instruction Nat} {s : Nat}
    {pre post : List Byteword}
    (hpieces : ∀ f : Nat → Nat,
      (i.map f).pieces = pre.map Piece.half ++ Piece.place (f s) :: post.map Piece.half)
    (hs : s < 2 ^ 64) (is : List (Instruction Nat))
    (hfit : (is.foldl push (c.push i)).size ≤ 2 ^ 64) :
    indexAt (is.foldl push (c.push i)) (alignUp (c.size + pre.length)) = s := by
  have hqsize := size_foldl_writePiece_halves c pre
  have hword := alignUp_add_le_push c hpieces
  have hend : (c.push i).size ≤ (is.foldl push (c.push i)).size := size_le_foldl_push _ is
  have hprefix : (((pre.map Piece.half).foldl writePiece c).writeWord (Word.ofNat s)).PrefixOf
      (is.foldl push (c.push i)).words := by
    have h : (c.push i).PrefixOf (is.foldl push (c.push i)).words :=
      PrefixOf.of_foldl_push (prefixOf_words _)
    have h' : ((post.map Piece.half).foldl writePiece
        (((pre.map Piece.half).foldl writePiece c).writeWord (Word.ofNat s))).PrefixOf
          (is.foldl push (c.push i)).words := push_of_pieces c hpieces ▸ h
    exact PrefixOf.of_foldl_writePiece h'
  have hs' : s < 18446744073709551616 := hs
  rw [← hqsize] at hword ⊢
  simp [indexAt, Cursor.ofPos, Cursor.readWord_alignUp_of_prefixOf hprefix (by omega),
    Nat.mod_eq_of_lt hs']

/-- Patching that word with a location gives the code of the instruction pushed with the
location in place. -/
theorem patchWord_foldl_push_location {c : Bytecode} {i : Instruction Nat} {s : Nat}
    {pre post : List Byteword}
    (hpieces : ∀ f : Nat → Nat,
      (i.map f).pieces = pre.map Piece.half ++ Piece.place (f s) :: post.map Piece.half)
    (is : List (Instruction Nat)) (l : Nat) :
    (is.foldl push (c.push i)).patchWord (alignUp (c.size + pre.length)) (Word.ofNat l) =
      is.foldl push (c.push (i.map fun _ => l)) := by
  have hqsize := size_foldl_writePiece_halves c pre
  have hword := alignUp_add_le_push c hpieces
  rw [← hqsize] at hword ⊢
  have hw : alignUp ((pre.map Piece.half).foldl writePiece c).size + 4 ≤
      (((pre.map Piece.half).foldl writePiece c).writeWord (Word.ofNat s)).size := by simp
  rw [patchWord_foldl_push hword, push_of_pieces c hpieces, patchWord_foldl_writePiece hw,
    patchWord_writeWord_self]
  exact congrArg (fun d => is.foldl push d) (push_map_of_pieces c hpieces fun _ => l).symm

section Patching

variable (e : Emitter) (hsymbols : e.locations.size ≤ 2 ^ 64)

include hsymbols in
/-- The location word of an instruction pushed after `c`, with more pushed after it: the index
read back is the instruction's symbol, and the patch writes the symbol's location in its place
as if the instruction had been pushed with it. -/
theorem patchStep_push {c : Bytecode} {i : Instruction Nat} {s : Nat}
    {pre post : List Byteword}
    (hpieces : ∀ f : Nat → Nat,
      (i.map f).pieces = pre.map Piece.half ++ Piece.place (f s) :: post.map Piece.half)
    (hsym : s < e.locations.size) (is : List (Instruction Nat))
    (hfit : (is.foldl push (c.push i)).size ≤ 2 ^ 64) :
    e.patchStep (is.foldl push (c.push i)) (alignUp (c.size + pre.length)) =
      match e.location? s with
      | some l => .ok (is.foldl push (c.push (i.map fun _ => l)))
      | none => .error (.undefinedSymbol s) := by
  have hget : e.locations[s]? = some e.locations[s] := Array.getElem?_eq_getElem hsym
  unfold patchStep location?
  simp only [indexAt_foldl_push hpieces (by omega) is hfit, hget, Option.join_some]
  cases e.locations[s] with
  | none => rfl
  | some l => simp only [patchWord_foldl_push_location hpieces is l]

include hsymbols in
/-- Finishing patches the location words of pushed instructions one after another; it fails at
the first instruction whose symbol has no location, and otherwise gives the code of the
instructions with every symbol resolved. -/
theorem foldlM_patchStep (c : Bytecode) (is : List (Instruction Nat))
    (hsyms : ∀ i ∈ is, ∀ s ∈ i.location, s < e.locations.size)
    (hfit : (is.foldl push c).size ≤ 2 ^ 64) :
    (locationWords c.size is).foldlM e.patchStep (is.foldl push c) =
      match is.findSome? e.unresolved with
      | some s => .error (.undefinedSymbol s)
      | none => .ok ((is.map (Instruction.map e.resolve)).foldl push c) := by
  induction is generalizing c with
  | nil => rfl
  | cons i is ih =>
    have hrest : ∀ j ∈ is, ∀ s ∈ j.location, s < e.locations.size :=
      fun j hj => hsyms j (by simp [hj])
    rw [locationWords, ← size_push]
    cases hloc : i.location with
    | none =>
      have hnone : e.unresolved i = none := by simp [unresolved, hloc]
      simp only [Instruction.placements_of_location_eq_none hloc, List.nil_append,
        List.foldl_cons, List.findSome?_cons, hnone, List.map_cons,
        Instruction.map_of_location_eq_none hloc]
      exact ih (c.push i) hrest hfit
    | some s =>
      obtain ⟨pre, post, hpieces⟩ := Instruction.pieces_of_location hloc
      have hplaces := Instruction.placements_of_location hpieces c.size
      have hsym : s < e.locations.size := hsyms i (by simp) s hloc
      rw [hplaces, List.singleton_append, List.foldlM_cons, List.foldl_cons,
        patchStep_push e hsymbols hpieces hsym is hfit]
      cases hl : e.location? s with
      | none =>
        have hfirst : e.unresolved i = some s := by simp [unresolved, hloc, hl]
        simp only [List.findSome?_cons, hfirst]
        rfl
      | some l =>
        have hfirst : e.unresolved i = none := by simp [unresolved, hloc, hl]
        have hresolve : i.map e.resolve = i.map fun _ => l :=
          Instruction.map_congr fun t ht => by
            rw [hloc, Option.mem_some_iff] at ht
            simp [resolve, ← ht, hl]
        have hsize : (c.push (i.map fun _ => l)).size = (c.push i).size := by
          simpa only [Instruction.map_id] using size_push_map c i (fun _ => l) fun t => t
        have hfit' : (is.foldl push (c.push (i.map fun _ => l))).size ≤ 2 ^ 64 := by
          rw [size_foldl_push_of_size_eq hsize]
          exact hfit
        simp only [bind, Except.bind, ← hsize, List.findSome?_cons, hfirst, List.map_cons,
          List.foldl_cons, hresolve]
        exact ih _ hrest hfit'

end Patching

/-! ## Sessions of calls -/

/-- A call of the emitter that changes it. -/
inductive Request where
  | newSymbol
  | define (s : Nat)
  | emit (i : Instruction Nat)
deriving Repr

/-- The emitter after a call. A call that fails returns no emitter, so the caller keeps the one
it had: a failed call changes nothing. -/
def perform (e : Emitter) : Request → Emitter
  | .newSymbol => e.newSymbol.2
  | .define s =>
    match e.define s with
    | .ok e' => e'
    | .error _ => e
  | .emit i =>
    match e.emit i with
    | .ok e' => e'
    | .error _ => e

/-- The emitter after a sequence of calls on a new one. -/
def session (rs : List Request) : Emitter := rs.foldl perform {}

/-- What a sequence of calls means with no placeholders: the symbols allocated, each with the
position at which it was defined if it was, and the instructions emitted, in order. -/
structure Direct where
  symbols : List (Option Nat) := []
  emitted : List (Instruction Nat) := []

namespace Direct

/-- The write position: the size of the emitted instructions' code. -/
def position (d : Direct) : Nat := (Bytecode.ofList d.emitted).size

def location? (d : Direct) (s : Nat) : Option Nat := d.symbols[s]?.join

/-- A symbol is defined, at the current position, if it is allocated and not yet defined; an
instruction is emitted if its symbol, when it has one, is allocated. -/
def perform (d : Direct) : Request → Direct
  | .newSymbol => { d with symbols := d.symbols ++ [none] }
  | .define s =>
    if s < d.symbols.length ∧ d.location? s = none then
      { d with symbols := d.symbols.set s (some d.position) }
    else d
  | .emit i =>
    if ∀ s ∈ i.location, s < d.symbols.length then { d with emitted := d.emitted ++ [i] } else d

def run (rs : List Request) : Direct := rs.foldl perform {}

/-- The first symbol, in the order of the emitted instructions, that has no location. -/
def firstUndefined (d : Direct) : Option Nat :=
  d.emitted.findSome? fun i => i.location.filter fun s => (d.location? s).isNone

/-- Direct encoding: the emitted instructions pushed with every symbol replaced by its location,
or the first symbol used that has none. -/
def finish (d : Direct) : Except Error Bytecode :=
  match d.firstUndefined with
  | some s => .error (.undefinedSymbol s)
  | none => .ok (Bytecode.ofList (d.emitted.map (Instruction.map fun s => (d.location? s).getD 0)))

/-- The emitter that holds the direct meaning with placeholders: the instructions pushed with
their symbols' indices as locations, and the positions of those words. -/
def placeholders (d : Direct) : Emitter :=
  { code := Bytecode.ofList d.emitted
    locations := d.symbols.toArray
    references := (locationWords 0 d.emitted).toArray }

/-- Every emitted instruction names an allocated symbol. -/
def Allocated (d : Direct) : Prop :=
  ∀ i ∈ d.emitted, ∀ s ∈ i.location, s < d.symbols.length

theorem allocated_perform {d : Direct} (h : d.Allocated) (r : Request) :
    (d.perform r).Allocated := by
  cases r with
  | newSymbol =>
    intro i hi s hs
    have := h i hi s hs
    simp only [perform, List.length_append, List.length_singleton]
    omega
  | define t =>
    by_cases ht : t < d.symbols.length ∧ d.location? t = none
    · intro i hi s hs
      simpa [perform, ht] using h i (by simpa [perform, ht] using hi) s hs
    · simpa [perform, ht] using h
  | emit j =>
    by_cases hj : ∀ s ∈ j.location, s < d.symbols.length
    · intro i hi s hs
      rw [show d.perform (.emit j) = { d with emitted := d.emitted ++ [j] } from if_pos hj]
        at hi ⊢
      rcases List.mem_append.mp hi with hi | hi
      · exact h i hi s hs
      · rw [List.mem_singleton.mp hi] at hs
        exact hj s hs
    · rw [show d.perform (.emit j) = d from if_neg hj]
      exact h

theorem allocated_run (rs : List Request) : (run rs).Allocated := by
  unfold run
  induction rs using List.reverseRecOn with
  | nil => intro i hi; simp at hi
  | append_singleton rs r ih =>
    rw [List.foldl_append, List.foldl_cons, List.foldl_nil]
    exact allocated_perform ih r

end Direct

open Direct

theorem placeholders_location? (d : Direct) (s : Nat) :
    d.placeholders.location? s = d.location? s := by
  simp [placeholders, Emitter.location?, Direct.location?]

theorem locationWords_append (n : Nat) (is js : List (Instruction Nat)) :
    locationWords n (is ++ js) = locationWords n is ++
      locationWords (is.foldl (fun m i => i.pieces.foldl pieceSize m) n) js := by
  induction is generalizing n with
  | nil => rfl
  | cons i is ih => simp [locationWords, ih]

theorem size_ofList_eq_foldl (is : List (Instruction Nat)) :
    (Bytecode.ofList is).size = is.foldl (fun m i => i.pieces.foldl pieceSize m) 0 := by
  unfold Bytecode.ofList
  suffices h : ∀ c : Bytecode,
      (is.foldl push c).size = is.foldl (fun m i => i.pieces.foldl pieceSize m) c.size from h _
  induction is with
  | nil => intro c; rfl
  | cons i is ih => intro c; simp [ih, size_push]

theorem ofList_append_singleton (is : List (Instruction Nat)) (i : Instruction Nat) :
    Bytecode.ofList (is ++ [i]) = (Bytecode.ofList is).push i := by
  simp [Bytecode.ofList, List.foldl_append]

/-- Emitting through the emitter writes the pieces of the instruction and records where its
location word starts. -/
theorem foldl_emitPiece (e : Emitter) (ps : List (Piece Nat)) :
    ps.foldl emitPiece e =
      { e with code := ps.foldl writePiece e.code,
               references := e.references ++ (placements e.code.size ps).toArray } := by
  induction ps generalizing e with
  | nil => simp [placements]
  | cons p ps ih =>
    cases p <;> simp [emitPiece, ih, placements, writePiece]

/-- One call on the placeholder emitter of `d` gives the placeholder emitter of `d` after the
call. -/
theorem perform_placeholders (d : Direct) (r : Request) :
    d.placeholders.perform r = (d.perform r).placeholders := by
  cases r with
  | newSymbol => simp [Emitter.perform, newSymbol, Direct.perform, placeholders]
  | define s =>
    by_cases hs : s < d.symbols.length
    · cases hl : d.symbols[s] with
      | none =>
        have hperf : d.perform (.define s) =
            { d with symbols := d.symbols.set s (some d.position) } :=
          if_pos ⟨hs, by simp [Direct.location?, hs, hl]⟩
        have hdef : d.placeholders.define s = .ok { d.placeholders with
            locations := d.placeholders.locations.set! s (some d.placeholders.position) } := by
          simp [define, placeholders, hs, hl]
        simp only [Emitter.perform, hdef, hperf]
        simp [placeholders, Array.set!_eq_setIfInBounds, List.setIfInBounds_toArray,
          Emitter.position, Direct.position]
      | some l =>
        have hperf : d.perform (.define s) = d := if_neg (by simp [Direct.location?, hs, hl])
        have hdef : d.placeholders.define s = .error (.duplicateSymbol s l) := by
          simp [define, placeholders, hs, hl]
        simp only [Emitter.perform, hdef, hperf]
    · have hperf : d.perform (.define s) = d := if_neg fun h => hs h.1
      have hdef : d.placeholders.define s = .error (.unknownSymbol s) := by
        simp [define, placeholders, List.getElem?_eq_none (Nat.le_of_not_lt hs)]
      simp only [Emitter.perform, hdef, hperf]
  | emit i =>
    by_cases hi : ∀ s ∈ i.location, s < d.symbols.length
    · have hperf : d.perform (.emit i) = { d with emitted := d.emitted ++ [i] } := if_pos hi
      have hemit : d.placeholders.emit i = .ok (i.pieces.foldl emitPiece d.placeholders) := by
        unfold emit
        cases hloc : i.location with
        | none => rfl
        | some s => simp [placeholders, Nat.not_le.mpr (hi s hloc)]
      have hcode : i.pieces.foldl emitPiece d.placeholders =
          { d with emitted := d.emitted ++ [i] }.placeholders := by
        rw [foldl_emitPiece, placeholders, placeholders, ofList_append_singleton,
          locationWords_append, ← size_ofList_eq_foldl]
        simp [locationWords, push]
      simp only [Emitter.perform, hemit, hperf, hcode]
    · obtain ⟨s, hloc, hs⟩ : ∃ s, i.location = some s ∧ d.symbols.length ≤ s := by
        cases hloc : i.location with
        | none => simp [hloc] at hi
        | some s => exact ⟨s, rfl, by simpa [hloc] using hi⟩
      have hperf : d.perform (.emit i) = d := if_neg hi
      have hemit : d.placeholders.emit i = .error (.unknownSymbol s) := by
        simp [emit, hloc, placeholders, hs]
      simp only [Emitter.perform, hemit, hperf]

/-- After any sequence of calls the emitter is the placeholder emitter of what the calls mean. -/
theorem session_eq_placeholders (rs : List Request) : session rs = (run rs).placeholders := by
  unfold session run
  induction rs using List.reverseRecOn with
  | nil => rfl
  | append_singleton rs r ih =>
    rw [List.foldl_append, List.foldl_append, List.foldl_cons, List.foldl_cons, List.foldl_nil,
      List.foldl_nil, ih, perform_placeholders]

/-- Finishing the placeholder emitter is direct encoding. -/
theorem finish_placeholders (d : Direct) (hd : d.Allocated)
    (hsymbols : d.symbols.length ≤ 2 ^ 64) (hfit : d.position ≤ 2 ^ 64) :
    d.placeholders.finish = d.finish := by
  have hresolve : d.placeholders.resolve = fun s => (d.location? s).getD 0 := by
    funext s
    simp [resolve, placeholders_location?]
  have hunresolved : d.placeholders.unresolved =
      fun i => i.location.filter fun s => (d.location? s).isNone := by
    funext i
    simp [unresolved, placeholders_location?]
  have h := foldlM_patchStep d.placeholders (by simpa [placeholders] using hsymbols) Bytecode.empty
    d.emitted (fun i hi s hs => by simpa [placeholders] using hd i hi s hs) hfit
  rw [hresolve, hunresolved] at h
  have hrefs :
      d.placeholders.references.toList = locationWords Bytecode.empty.size d.emitted := by
    simp [placeholders]
    rfl
  rw [finish_eq_foldlM, hrefs]
  exact h

/-- The emitter refines direct encoding. After any sequence of calls on a new emitter, with no
more than 2^64 symbols and code that fits in 2^64 bytewords: the write position is the size of
the instructions emitted so far, pushed directly; a symbol's location is the position of its
first successful definition; a definition succeeds exactly on an allocated symbol that has no
location, and an emission exactly when the instruction's symbol, if it has one, is allocated;
and finishing pushes the instructions emitted with each symbol replaced by its location, or
fails with `undefinedSymbol` for the first of them whose symbol has none. -/
theorem session_refines_direct (rs : List Request) (hsymbols : (run rs).symbols.length ≤ 2 ^ 64)
    (hfit : (run rs).position ≤ 2 ^ 64) :
    (session rs).position = (run rs).position ∧
      (∀ s, (session rs).location? s = (run rs).location? s) ∧
      (∀ s, (∃ e, (session rs).define s = .ok e) ↔
        s < (run rs).symbols.length ∧ (run rs).location? s = none) ∧
      (∀ i, (∃ e, (session rs).emit i = .ok e) ↔
        ∀ s ∈ i.location, s < (run rs).symbols.length) ∧
      (session rs).finish = (run rs).finish := by
  have hsize : (run rs).placeholders.locations.size = (run rs).symbols.length := by
    simp [placeholders]
  rw [session_eq_placeholders]
  refine ⟨rfl, placeholders_location? _, fun s => ?_, fun i => ?_,
    finish_placeholders _ (allocated_run rs) hsymbols hfit⟩
  · rw [define_ok_iff, hsize, placeholders_location?]
  · rw [emit_ok_iff, hsize]

/-- A jump to a symbol defined two instructions later, as a compiler emits a forward branch. -/
def forwardJump : List Request :=
  [.newSymbol, .newSymbol, .define 1, .emit (.jmp 0), .emit .nop, .define 0,
    .emit (.sys (.exit 0))]

theorem forwardJump_refines_direct :
    (run forwardJump).symbols.length ≤ 2 ^ 64 ∧ (run forwardJump).position ≤ 2 ^ 64 ∧
      (session forwardJump).position = (run forwardJump).position ∧
      (∀ s, (session forwardJump).location? s = (run forwardJump).location? s) ∧
      (∀ s, (∃ e, (session forwardJump).define s = .ok e) ↔
        s < (run forwardJump).symbols.length ∧ (run forwardJump).location? s = none) ∧
      (∀ i, (∃ e, (session forwardJump).emit i = .ok e) ↔
        ∀ s ∈ i.location, s < (run forwardJump).symbols.length) ∧
      (session forwardJump).finish = (run forwardJump).finish := by
  have hsymbols : (run forwardJump).symbols.length ≤ 2 ^ 64 := by decide
  have hfit : (run forwardJump).position ≤ 2 ^ 64 := by decide
  exact ⟨hsymbols, hfit, session_refines_direct forwardJump hsymbols hfit⟩

end Emitter

end WindowVm
