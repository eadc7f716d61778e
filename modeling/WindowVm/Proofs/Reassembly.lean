import Mathlib
import WindowVm.Proofs.Decoding
import WindowVm.Proofs.Relocation
import WindowVm.Proofs.RoundTrip

/-!
# Reassembling a disassembly

Disassembling a stream and assembling the text gives the stream back with the padding in front
of its words cleared and nothing else changed (`Disassembly.assemble_render_clearsPadding`); the
stream comes back as it was exactly when that padding is zero.

Each instruction the linear decode finds is held by the stream as its layout
(`Instruction.decode_holds`), so pushing it where it was found writes the stream's own bytewords
but for the padding, which the writer fills with zeros (`Bytecode.Holds.getElem?_foldl_writePiece`).
Pushing the whole listing from the empty code then rebuilds the stream, each instruction at the
offset where it was found (`Disassembly.Rebuilds`, one step per decoded instruction). Every
location of a listing without stray targets is such an offset or the end, so the text assembles
to the pushed code (`Disassembly.assemble_text_layout`).
-/

namespace WindowVm

namespace Bytecode

/-- The offsets of the zero padding in front of the piece `p` laid out from offset `n`. -/
def gap {L : Type} (n : Nat) : Piece L → List Nat
  | .half _ => []
  | .word _ => List.range' n (alignUp n - n)
  | .place _ => List.range' n (alignUp n - n)

/-- The offsets of the zero padding in front of the words of the pieces `ps` laid out from
offset `n`. -/
def skipped {L : Type} : Nat → List (Piece L) → List Nat
  | _, [] => []
  | n, p :: ps => gap n p ++ skipped (pieceSize n p) ps

theorem lt_pieceSize {L : Type} (n : Nat) (p : Piece L) : n < pieceSize n p := by
  have := le_alignUp n
  cases p <;> simp [pieceSize] <;> omega

theorem le_foldl_pieceSize {L : Type} (n : Nat) (ps : List (Piece L)) :
    n ≤ ps.foldl pieceSize n := by
  induction ps generalizing n with
  | nil => exact Nat.le_refl n
  | cons p ps ih => exact Nat.le_of_lt (Nat.lt_of_lt_of_le (lt_pieceSize n p) (ih _))

theorem bounds_of_mem_gap {L : Type} {n j : Nat} {p : Piece L} (h : j ∈ gap n p) :
    n ≤ j ∧ j < pieceSize n p := by
  have := le_alignUp n
  cases p <;> simp [gap, pieceSize, List.mem_range'_1] at h ⊢ <;> omega

theorem bounds_of_mem_skipped {L : Type} {n j : Nat} {ps : List (Piece L)}
    (h : j ∈ skipped n ps) : n ≤ j ∧ j < ps.foldl pieceSize n := by
  induction ps generalizing n with
  | nil => simp [skipped] at h
  | cons p ps ih =>
    have hlt := lt_pieceSize n p
    rcases List.mem_append.mp h with h | h
    · obtain ⟨hn, hj⟩ := bounds_of_mem_gap h
      exact ⟨hn, Nat.lt_of_lt_of_le hj (le_foldl_pieceSize _ ps)⟩
    · obtain ⟨hn, hj⟩ := ih h
      exact ⟨by omega, hj⟩

/-- A word written where the stream holds it: zeros up to the boundary, then the stream's own
bytewords. -/
theorem getElem?_writeWord_of_wordAt {a : Array Byteword} {c : Bytecode} {w : Word}
    (hw : WordAt a (alignUp c.size) w) {j : Nat} (hj : c.size ≤ j) (hj' : j < alignUp c.size + 4) :
    (c.writeWord w).words[j]? = if j < alignUp c.size then some 0 else a[j]? := by
  rw [getElem?_writeWord, if_neg (Nat.not_lt.mpr hj)]
  split
  · rfl
  · rw [← hw (j - alignUp c.size) (by omega), Nat.add_sub_cancel' (by omega)]

/-- A piece written where the stream holds it agrees with the stream but for its padding. -/
theorem PieceAt.getElem?_writePiece {a : Array Byteword} {c : Bytecode} {p : Piece Nat}
    (h : PieceAt a c.size p) {j : Nat} (hj : c.size ≤ j) (hj' : j < pieceSize c.size p) :
    (c.writePiece p).words[j]? = if j ∈ gap c.size p then some 0 else a[j]? := by
  have hgap : j ∈ List.range' c.size (alignUp c.size - c.size) ↔ j < alignUp c.size := by
    have := le_alignUp c.size
    simp [List.mem_range'_1]; omega
  cases p with
  | half b =>
    obtain rfl : j = c.size := by simp [pieceSize] at hj'; omega
    rw [writePiece, getElem?_writeHalf, if_pos rfl, ← h]
    rfl
  | word _ | place _ =>
    rw [writePiece, getElem?_writeWord_of_wordAt h hj hj', gap]
    exact if_congr hgap.symm rfl rfl

/-- Pieces written where the stream holds them agree with the stream but for their padding. -/
theorem Holds.getElem?_foldl_writePiece {a : Array Byteword} {c : Bytecode} {n' : Nat}
    {ps : List (Piece Nat)} (h : Holds a c.size ps n') {j : Nat} (hj : c.size ≤ j) (hj' : j < n') :
    (ps.foldl writePiece c).words[j]? = if j ∈ skipped c.size ps then some 0 else a[j]? := by
  induction ps generalizing c with
  | nil => simp only [Holds] at h; omega
  | cons p ps ih =>
    obtain ⟨hp, hrest⟩ := h
    rw [← size_writePiece] at hrest
    rw [List.foldl_cons, skipped]
    by_cases hin : j < pieceSize c.size p
    · have hlater : j ∉ skipped (pieceSize c.size p) ps := fun hm =>
        Nat.lt_irrefl _ (Nat.lt_of_lt_of_le hin (bounds_of_mem_skipped hm).1)
      rw [PrefixOf.of_foldl_writePiece (prefixOf_words _) j (by rw [size_writePiece]; exact hin),
        hp.getElem?_writePiece hj hin]
      simp [hlater]
    · have hfirst : j ∉ gap c.size p := fun hm => hin (bounds_of_mem_gap hm).2
      rw [ih hrest (by rw [size_writePiece]; omega), size_writePiece]
      simp [hfirst]

/-- The code with the bytewords at the offsets `js` set to zero. -/
def zeroAt (c : Bytecode) (js : List Nat) : Bytecode :=
  ⟨c.words.mapIdx fun j b => if j ∈ js then 0 else b⟩

theorem getElem?_zeroAt (c : Bytecode) (js : List Nat) (j : Nat) :
    (c.zeroAt js).words[j]? = if j ∈ js ∧ j < c.size then some 0 else c.words[j]? := by
  unfold zeroAt
  rw [Array.getElem?_mapIdx]
  by_cases hj : j < c.size
  · rw [Array.getElem?_eq_getElem hj]
    by_cases hm : j ∈ js <;> simp [hm, hj]
  · rw [Array.getElem?_eq_none (Nat.le_of_not_lt hj)]
    simp [hj]

/-- Clearing offsets of the code changes nothing exactly when they already hold zero. -/
theorem zeroAt_eq_self_iff {c : Bytecode} {js : List Nat} (h : ∀ j ∈ js, j < c.size) :
    c.zeroAt js = c ↔ ∀ j ∈ js, c.words[j]? = some 0 := by
  constructor
  · intro hc j hj
    rw [← hc, getElem?_zeroAt, if_pos ⟨hj, h j hj⟩]
  · intro hz
    apply ext_getElem?
    intro j
    rw [getElem?_zeroAt]
    split
    · rename_i hj
      exact (hz j hj.1).symm
    · rfl

/-- Every offset in a layout is the size of the code of the instructions before it. -/
theorem exists_take_of_mem_layout {c : Bytecode} {is : List (Instruction Nat)} {p : Nat}
    (h : p ∈ (c.layout is).map Prod.fst) :
    ∃ k < is.length, p = ((is.take k).foldl push c).size := by
  induction is generalizing c with
  | nil => simp at h
  | cons i is ih =>
    simp only [layout_cons, List.map_cons, List.mem_cons] at h
    rcases h with rfl | h
    · exact ⟨0, by simp, rfl⟩
    · obtain ⟨k, hk, rfl⟩ := ih h
      exact ⟨k + 1, by simpa using hk, rfl⟩

end Bytecode

namespace Disassembly

open Bytecode

/-- The offsets of the zero padding in front of the words of a listing's instructions. -/
def paddingOf (l : List (Nat × Instruction Nat)) : List Nat :=
  l.flatMap fun p => skipped p.1 p.2.pieces

/-- An instruction decoded from a stream, pushed where it was found, ends where the decode
stopped and agrees with the stream but for its padding. -/
theorem push_of_decode {a : Array Byteword} {c : Bytecode} {i : Instruction Nat} {c' : Cursor}
    (h : Instruction.decode ⟨a, c.size⟩ = .ok (i, c')) (hc : c.size ≤ a.size)
    (hfit : alignUp a.size < 2 ^ 64) :
    c' = ⟨a, (c.push i).size⟩ ∧ (c.push i).size ≤ a.size ∧
      ∀ j, c.size ≤ j → j < (c.push i).size →
        (c.push i).words[j]? = if j ∈ skipped c.size i.pieces then some 0 else a[j]? := by
  obtain ⟨hholds, hcode⟩ := Instruction.decode_holds h hfit
  have hend : c'.pos = (c.push i).size := by
    rw [size_push]
    exact hholds.eq_foldl
  refine ⟨?_, hend ▸ hholds.le_size hc, fun j hj hj' =>
    hholds.getElem?_foldl_writePiece hj (hend ▸ hj')⟩
  obtain ⟨code, pos⟩ := c'
  simp only at hcode hend
  rw [hcode, hend]

theorem paddingOf_cons (p : Nat × Instruction Nat) (l : List (Nat × Instruction Nat)) :
    paddingOf (p :: l) = skipped p.1 p.2.pieces ++ paddingOf l := by
  simp [paddingOf]

/-- The instructions of `l`, pushed after `c`, rebuild the stream `a` from where `c` ends: each
lies at the offset where it was found, the last ends with the stream, and every byteword but the
padding in front of their words is the stream's own. -/
structure Rebuilds (a : Array Byteword) (c : Bytecode) (l : List (Nat × Instruction Nat)) :
    Prop where
  layout : c.layout (l.map Prod.snd) = l
  size : ((l.map Prod.snd).foldl push c).size = a.size
  bounds : ∀ j ∈ paddingOf l, c.size ≤ j ∧ j < a.size
  words : ∀ j, c.size ≤ j → j < a.size →
    ((l.map Prod.snd).foldl push c).words[j]? = if j ∈ paddingOf l then some 0 else a[j]?

theorem Rebuilds.nil {a : Array Byteword} {c : Bytecode} (h : c.size = a.size) :
    Rebuilds a c [] where
  layout := rfl
  size := h
  bounds := by simp [paddingOf]
  words := fun j hj hj' => by omega

/-- One more instruction in front, decoded where `c` ends. -/
theorem Rebuilds.cons {a : Array Byteword} {c : Bytecode} {i : Instruction Nat}
    {rest : List (Nat × Instruction Nat)} (h : Rebuilds a (c.push i) rest)
    (hwords : ∀ j, c.size ≤ j → j < (c.push i).size →
      (c.push i).words[j]? = if j ∈ skipped c.size i.pieces then some 0 else a[j]?) :
    Rebuilds a c ((c.size, i) :: rest) := by
  have hlt := size_lt_push c i
  have hfirst : ∀ j ∈ skipped c.size i.pieces, c.size ≤ j ∧ j < (c.push i).size := fun j hj => by
    rw [size_push]
    exact bounds_of_mem_skipped hj
  refine ⟨by simp [h.layout], h.size, fun j hj => ?_, fun j hj hj' => ?_⟩
  · rcases List.mem_append.mp ((paddingOf_cons _ _) ▸ hj) with hj | hj
    · have := h.size ▸ size_le_foldl_push (c.push i) (rest.map Prod.snd)
      exact ⟨(hfirst j hj).1, by have := (hfirst j hj).2; omega⟩
    · exact ⟨by have := (h.bounds j hj).1; omega, (h.bounds j hj).2⟩
  · rw [paddingOf_cons, List.map_cons, List.foldl_cons]
    by_cases hin : j < (c.push i).size
    · have hlater : j ∉ paddingOf rest := fun hm => by
        have := (h.bounds j hm).1
        omega
      rw [PrefixOf.of_foldl_push (prefixOf_words _) j hin, hwords j hj hin]
      simp [hlater]
    · have hnot : j ∉ skipped c.size i.pieces := fun hm => hin (hfirst j hm).2
      rw [h.words j (by omega) hj']
      simp [hnot]

/-- Decoding a stream to its end from where `c` ends gives instructions that, pushed after `c`,
rebuild the stream with its padding cleared. The induction is on the fuel, `c` growing by one
instruction at each step. -/
theorem rebuilds_of_decodeFrom {a : Array Byteword} {fuel : Nat} {c : Bytecode}
    {l : List (Nat × Instruction Nat)} (h : decodeFrom fuel ⟨a, c.size⟩ = .ok l)
    (hc : c.size ≤ a.size) (hfuel : a.size ≤ c.size + fuel) (hfit : alignUp a.size < 2 ^ 64) :
    Rebuilds a c l := by
  induction fuel generalizing c l with
  | zero =>
    cases h
    exact Rebuilds.nil (by omega)
  | succ fuel ih =>
    by_cases hend : a.size ≤ c.size
    · simp only [decodeFrom, Cursor.atEnd, hend, decide_true, if_true, Except.ok.injEq] at h
      subst h
      exact Rebuilds.nil (by omega)
    simp only [decodeFrom, Cursor.atEnd, hend, decide_false, Bool.false_eq_true, if_false] at h
    cases hdec : Instruction.decode ⟨a, c.size⟩ with
    | error e => simp [hdec] at h
    | ok r =>
      obtain ⟨i, c'⟩ := r
      obtain ⟨rfl, hpush, hwords⟩ := push_of_decode hdec hc hfit
      cases hrest : decodeFrom fuel ⟨a, (c.push i).size⟩ with
      | error e => simp [hdec, hrest] at h
      | ok rest =>
        simp only [hdec, hrest, Except.ok.injEq] at h
        subst h
        have hlt := size_lt_push c i
        exact (ih hrest hpush (by omega)).cons hwords

/-- The offsets of the padding that the linear decode of a stream skips in front of its
words. -/
def padding (code : Bytecode) : List Nat :=
  match listing code with
  | .ok l => paddingOf l
  | .error _ => []

theorem rebuilds_of_listing {code : Bytecode} {l : List (Nat × Instruction Nat)}
    (h : listing code = .ok l) (hfit : alignUp code.size < 2 ^ 64) :
    Rebuilds code.words empty l :=
  rebuilds_of_decodeFrom h (Nat.zero_le _) (by simp [empty, size]) hfit

/-- Pushing the instructions of the listing rebuilds the stream with its padding cleared. -/
theorem ofList_listing {code : Bytecode} {l : List (Nat × Instruction Nat)}
    (h : listing code = .ok l) (hfit : alignUp code.size < 2 ^ 64) :
    ofList (l.map Prod.snd) = code.zeroAt (paddingOf l) := by
  have hr := rebuilds_of_listing h hfit
  apply ext_getElem?
  intro j
  rw [getElem?_zeroAt]
  by_cases hj : j < code.size
  · rw [if_congr (and_iff_left hj) rfl rfl]
    exact hr.words j (Nat.zero_le j) hj
  · have hend : (ofList (l.map Prod.snd)).size ≤ j := by
      rw [ofList, hr.size, size_words]
      omega
    rw [Array.getElem?_eq_none hend, if_neg (fun h => hj h.2),
      Array.getElem?_eq_none (Nat.le_of_not_lt hj)]

open Assembly in
/-- Disassembling a stream and assembling the text gives the stream back with the padding that
the linear decode skips cleared, and nothing else changed; so the stream comes back as it was
exactly when that padding is zero. Offsets are machine words: the stream ends below 2^64 even
when rounded up to a word boundary. -/
theorem assemble_render_clearsPadding {c : Bytecode} {t : String}
    (hfit : alignUp c.size < 2 ^ 64) (h : render c = .ok t) :
    assemble t = .ok (c.zeroAt (padding c)) ∧
      (assemble t = .ok c ↔ ∀ j ∈ padding c, c.words[j]? = some 0) := by
  obtain ⟨l, hl, hstray, rfl⟩ : ∃ l, listing c = .ok l ∧ strayTarget? c.size l = none ∧
      t = text c.size l := by
    unfold render at h
    cases hl : listing c with
    | error e => simp [hl, bind, Except.bind] at h
    | ok l =>
      simp only [hl, bind, Except.bind] at h
      split at h
      · simp [throw, throwThe, MonadExceptOf.throw] at h
      · rename_i hs
        simp only [pure, Except.pure, Except.ok.injEq] at h
        exact ⟨l, rfl, hs, h.symm⟩
  have hr := rebuilds_of_listing hl hfit
  have hpad : padding c = paddingOf l := by simp [padding, hl]
  set js := l.map Prod.snd
  have hloc : ∀ j ∈ js, ∀ t ∈ j.location,
      ∃ k ≤ js.length, t = (ofList (js.take k)).size := by
    intro j hj t ht
    obtain ⟨⟨p, j⟩, hpj, rfl⟩ := List.mem_map.mp hj
    rcases mem_of_strayTarget?_eq_none hstray t (mem_targets hpj ht) with rfl | hstart
    · exact ⟨js.length, le_rfl, by rw [List.take_length]; exact hr.size.symm⟩
    · rw [← hr.layout] at hstart
      obtain ⟨k, hk, rfl⟩ := exists_take_of_mem_layout hstart
      exact ⟨k, hk.le, rfl⟩
  have hsize : (ofList js).size < 2 ^ 64 := by
    have hsize : (ofList js).size = c.size := hr.size
    have := le_alignUp c.size
    omega
  have hassemble := assemble_text_layout hloc hsize
  rw [hr.layout, show (ofList js).size = c.size from hr.size, ofList_listing hl hfit,
    ← hpad] at hassemble
  refine ⟨hassemble, ?_⟩
  rw [hassemble, Except.ok.injEq]
  exact zeroAt_eq_self_iff fun j hj => (hr.bounds j (hpad ▸ hj)).2

/-- A jump over nonzero padding to the end of the stream, which the text names by a label of its
own. -/
def jumpToEnd : Bytecode :=
  ⟨#[Opcode.jmp.tag, 9, 9, 9, 11, 0, 0, 0, Opcode.sys.tag, Syscall.exit.tag, 0]⟩

open Assembly in
theorem assemble_render_jumpToEnd :
    alignUp jumpToEnd.size < 2 ^ 64 ∧
      render jumpToEnd = .ok "    jmp :s11\n    sys exit %0\n:s11\n" ∧
      padding jumpToEnd = [1, 2, 3] ∧
      assemble "    jmp :s11\n    sys exit %0\n:s11\n" =
        .ok (jumpToEnd.zeroAt (padding jumpToEnd)) ∧
      (assemble "    jmp :s11\n    sys exit %0\n:s11\n" = .ok jumpToEnd ↔
        ∀ j ∈ padding jumpToEnd, jumpToEnd.words[j]? = some 0) := by
  have hfit : alignUp jumpToEnd.size < 2 ^ 64 := by decide
  have hrender : render jumpToEnd = .ok "    jmp :s11\n    sys exit %0\n:s11\n" := by rfl
  have hpadding : padding jumpToEnd = [1, 2, 3] := by rfl
  exact ⟨hfit, hrender, hpadding, assemble_render_clearsPadding hfit hrender⟩

end Disassembly

end WindowVm
