import WindowVm.Proofs.Inverse

/-!
# The placeholders of the emitter

While instructions are emitted, the emitter writes the index of each location's symbol as a word
and records where that word starts; `finish` reads each recorded word back and patches it with
the symbol's location. This module shows that nothing written later disturbs a placeholder and
that the patches do not disturb each other. The recorded positions ascend at least a word apart,
each on a word boundary and ending within the code, and each holds the index of its symbol
(`Bytecode.Placeholders`, kept by every push: `Bytecode.Placeholders.push`). Hence finishing
reads back exactly the recorded symbols (`Emitter.foldlM_patchStep_eq`), and what it returns
differs from the code only inside the placeholders, each of which then holds its symbol's
location (`Emitter.foldlM_patchRecorded_ok`). Together, for every sequence of calls on a new
emitter: `Emitter.session_placeholders_sound`.
-/

namespace WindowVm

namespace Bytecode

/-- The positions `refs` of location words in `c` and the symbol indices `syms` they hold, in
order: the positions ascend at least a word apart, each on a word boundary, each word within
the code. -/
structure Placeholders (c : Bytecode) (refs syms : List Nat) : Prop where
  apart : refs.Pairwise fun r r' => r + 4 ≤ r'
  aligned : ∀ r ∈ refs, r % 4 = 0
  within : ∀ r ∈ refs, r + 4 ≤ c.size
  holds : List.Forall₂ (fun r s => WordAt c.words r (Word.ofNat s)) refs syms

theorem Placeholders.nil (c : Bytecode) : c.Placeholders [] [] :=
  ⟨List.Pairwise.nil, nofun, nofun, .nil⟩

/-- A word found in a stream is found in every stream that extends it. -/
theorem WordAt.of_prefixOf {c : Bytecode} {a : Array Byteword} {r : Nat} {w : Word}
    (hp : c.PrefixOf a) (hw : WordAt c.words r w) : WordAt a r w := fun k hk => by
  have hlt : r + k < c.size := by
    by_contra hge
    have hnone : c.words[r + k]? = none := Array.getElem?_eq_none_iff.mpr (by
      rw [size_words]
      omega)
    rw [hw k hk, List.getElem?_eq_none_iff] at hnone
    have hlen : w.toBytewords.length = 4 := rfl
    omega
  rw [hp _ hlt, hw k hk]

/-- The location word of an instruction pushed after `c` holds the instruction's symbol. -/
theorem wordAt_push_location (c : Bytecode) {i : Instruction Nat} {s : Nat}
    {pre post : List Byteword}
    (hpieces : ∀ f : Nat → Nat,
      (i.map f).pieces = pre.map Piece.half ++ Piece.place (f s) :: post.map Piece.half) :
    WordAt (c.push i).words (alignUp (c.size + pre.length)) (Word.ofNat s) := by
  have hsize := size_foldl_writePiece_halves c pre
  have hprefix : (((pre.map Piece.half).foldl writePiece c).writeWord (Word.ofNat s)).PrefixOf
      (c.push i).words := by
    rw [Emitter.push_of_pieces c hpieces]
    exact PrefixOf.of_foldl_writePiece (prefixOf_words _)
  rw [← hsize]
  refine wordAt_of_agree fun k hk => hprefix _ ?_
  simp only [size_writeWord]
  omega

/-- Pushing an instruction keeps every placeholder and adds the one of its location, if it has
one: later writes only append, and the new word starts at or after the end of the code. -/
theorem Placeholders.push {c : Bytecode} {refs syms : List Nat} (h : c.Placeholders refs syms)
    (i : Instruction Nat) :
    (c.push i).Placeholders (refs ++ placements c.size i.pieces) (syms ++ i.location.toList) := by
  have hprefix : c.PrefixOf (c.push i).words := PrefixOf.of_push (prefixOf_words _)
  have hgrow : c.size ≤ (c.push i).size := Nat.le_of_lt (size_lt_push c i)
  have hold : List.Forall₂ (fun r s => WordAt (c.push i).words r (Word.ofNat s)) refs syms :=
    h.holds.imp fun _ _ hw => hw.of_prefixOf hprefix
  cases hloc : i.location with
  | none =>
    rw [Instruction.placements_of_location_eq_none hloc, List.append_nil, Option.toList_none,
      List.append_nil]
    exact ⟨h.apart, h.aligned, fun r hr => Nat.le_trans (h.within r hr) hgrow, hold⟩
  | some s =>
    obtain ⟨pre, post, hpieces⟩ := Instruction.pieces_of_location hloc
    rw [Instruction.placements_of_location hpieces, Option.toList_some]
    have hle := le_alignUp (c.size + pre.length)
    have hend := Emitter.alignUp_add_le_push c hpieces
    have haligned : alignUp (c.size + pre.length) % 4 = 0 := by
      unfold alignUp
      omega
    refine ⟨?_, ?_, ?_, List.rel_append hold (.cons (wordAt_push_location c hpieces) .nil)⟩
    · refine List.pairwise_append.mpr ⟨h.apart, List.pairwise_singleton _ _, ?_⟩
      intro r hr q hq
      rw [List.mem_singleton.mp hq]
      have := h.within r hr
      omega
    · intro r hr
      rcases List.mem_append.mp hr with hr | hr
      · exact h.aligned r hr
      · rw [List.mem_singleton.mp hr]
        exact haligned
    · intro r hr
      rcases List.mem_append.mp hr with hr | hr
      · exact Nat.le_trans (h.within r hr) hgrow
      · rw [List.mem_singleton.mp hr]
        exact hend

/-- The placeholders of instructions pushed one after another: those of the code before, then
one per location, holding the locations' symbols in order. -/
theorem Placeholders.foldl_push {c : Bytecode} {refs syms : List Nat}
    (h : c.Placeholders refs syms) (is : List (Instruction Nat)) :
    (is.foldl Bytecode.push c).Placeholders (refs ++ locationWords c.size is)
      (syms ++ is.filterMap Instruction.location) := by
  induction is generalizing c refs syms with
  | nil => simpa [locationWords] using h
  | cons i is ih =>
    have hsyms : (i :: is).filterMap Instruction.location =
        i.location.toList ++ is.filterMap Instruction.location := by
      cases hloc : i.location <;> simp [hloc]
    rw [List.foldl_cons, locationWords, hsyms, ← List.append_assoc, ← List.append_assoc,
      ← size_push]
    exact ih (h.push i)

/-- A patch before a word leaves the word as it was. -/
theorem WordAt.patchWord_of_le {c : Bytecode} {q r : Nat} {w v : Word} (hle : q + 4 ≤ r)
    (hv : WordAt c.words r v) : WordAt (c.patchWord q w).words r v := fun k hk => by
  rw [getElem?_patchWord, if_neg (by omega)]
  exact hv k hk

/-- Patching the first placeholder leaves the others as they were. -/
theorem Placeholders.patchWord_head {c : Bytecode} {r s : Nat} {refs syms : List Nat}
    (h : c.Placeholders (r :: refs) (s :: syms)) (w : Word) :
    (c.patchWord r w).Placeholders refs syms := by
  obtain ⟨hapart, haligned, hwithin, hholds⟩ := h
  obtain ⟨hafter, htail⟩ := List.pairwise_cons.mp hapart
  have hlater := (List.forall₂_and_left refs syms).mpr ⟨hafter, (List.forall₂_cons.mp hholds).2⟩
  refine ⟨htail, fun r' hr' => haligned r' (List.mem_cons_of_mem r hr'), fun r' hr' => ?_,
    hlater.imp fun _ _ ⟨hle, hw⟩ => hw.patchWord_of_le hle⟩
  rw [size_patchWord]
  exact hwithin r' (List.mem_cons_of_mem r hr')

/-- A placeholder reads back, at its own position, as the index it holds. -/
theorem readWord_of_placeholder {c : Bytecode} {r s : Nat} (hw : WordAt c.words r (Word.ofNat s))
    (hr : r % 4 = 0) (hb : r < 2 ^ 64) :
    (Cursor.ofPos c r).readWord = .ok (Word.ofNat s, Cursor.ofPos c (r + 4)) := by
  have hal : alignUp r = r := by
    unfold alignUp
    omega
  have hread := Cursor.readWord_of_wordAt (n := r) (by rw [hal]; exact hw) (by rw [hal]; exact hb)
  rw [hal] at hread
  exact hread

/-- The placeholders read back, without fault, as the indices they hold, when the code fits in
2^64 bytewords and the indices are below 2^64. -/
theorem Placeholders.readPlace {c : Bytecode} {refs syms : List Nat}
    (h : c.Placeholders refs syms) (hsize : c.size ≤ 2 ^ 64) (hsyms : ∀ s ∈ syms, s < 2 ^ 64) :
    List.Forall₂ (fun r s => (Cursor.ofPos c r).readPlace = .ok (s, Cursor.ofPos c (r + 4)))
      refs syms := by
  obtain ⟨hlen, hwords⟩ := List.forall₂_iff_zip.mp h.holds
  refine List.forall₂_iff_zip.mpr ⟨hlen, fun {r s} hrs => ?_⟩
  obtain ⟨hr, hs⟩ := List.of_mem_zip hrs
  have hb := h.within r hr
  have hlt : s < 18446744073709551616 := hsyms s hs
  simp [Cursor.readPlace, readWord_of_placeholder (hwords hrs) (h.aligned r hr) (by omega),
    Nat.mod_eq_of_lt hlt]

end Bytecode

namespace Emitter

open Bytecode Direct

/-- The symbols of the locations a sequence of calls emits, in order; a call that fails emits
nothing. -/
def placedSymbols (rs : List Request) : List Nat :=
  (Direct.run rs).emitted.filterMap Instruction.location

/-- The patch `finish` makes at a recorded position once the index there is known: the
symbol's location over the placeholder, or the error for a symbol that has none. -/
def patchRecorded (e : Emitter) (c : Bytecode) : Nat × Nat → Except Error Bytecode
  | (r, s) =>
    match e.location? s with
    | some l => .ok (c.patchWord r (Word.ofNat l))
    | none => .error (.undefinedSymbol s)

theorem patchRecorded_eq_ok {e : Emitter} {c c' : Bytecode} {r s : Nat} :
    e.patchRecorded c (r, s) = .ok c' ↔
      ∃ l, e.location? s = some l ∧ c' = c.patchWord r (Word.ofNat l) := by
  simp only [patchRecorded]
  cases e.location? s <;> simp [eq_comm]

/-- At a placeholder of an allocated symbol, `finish` reads the symbol back: its fallback for
an unreadable word and its error for an unallocated index are never taken. -/
theorem patchStep_eq_patchRecorded (e : Emitter) {c : Bytecode} {r s : Nat}
    (hw : WordAt c.words r (Word.ofNat s)) (hr : r % 4 = 0) (hb : r < 2 ^ 64)
    (hs : s < e.locations.size) (hsymbols : e.locations.size ≤ 2 ^ 64) :
    e.patchStep c r = e.patchRecorded c (r, s) := by
  have hget : e.locations[s]? = some e.locations[s] := Array.getElem?_eq_getElem hs
  have hlt : s < 18446744073709551616 := by omega
  have hindex : indexAt c r = s := by
    simp [indexAt, readWord_of_placeholder hw hr hb, Nat.mod_eq_of_lt hlt]
  unfold patchStep patchRecorded location?
  simp only [hindex, hget, Option.join_some]
  cases e.locations[s] <;> rfl

/-- Finishing reads back at each placeholder the symbol recorded there, the earlier patches
notwithstanding: each patch writes inside its own placeholder, before all the later ones. -/
theorem foldlM_patchStep_eq (e : Emitter) {c : Bytecode} {refs syms : List Nat}
    (h : c.Placeholders refs syms) (hsyms : ∀ s ∈ syms, s < e.locations.size)
    (hsymbols : e.locations.size ≤ 2 ^ 64) (hsize : c.size ≤ 2 ^ 64) :
    refs.foldlM e.patchStep c = (refs.zip syms).foldlM e.patchRecorded c := by
  induction refs generalizing c syms with
  | nil =>
    obtain rfl := List.forall₂_nil_left_iff.mp h.holds
    rfl
  | cons r refs ih =>
    obtain ⟨s, syms, hw, -, rfl⟩ := List.forall₂_cons_left_iff.mp h.holds
    have hr := h.within r List.mem_cons_self
    rw [List.foldlM_cons, List.zip_cons_cons, List.foldlM_cons,
      e.patchStep_eq_patchRecorded hw (h.aligned r List.mem_cons_self) (by omega)
        (hsyms s List.mem_cons_self) hsymbols]
    cases hp : e.patchRecorded c (r, s) with
    | error err => rfl
    | ok c' =>
      obtain ⟨l, -, rfl⟩ := patchRecorded_eq_ok.mp hp
      exact ih (h.patchWord_head _) (fun t ht => hsyms t (List.mem_cons_of_mem s ht))
        (by rw [size_patchWord]; exact hsize)

/-- What finishing returns differs from the code only inside the placeholders, and each
placeholder then holds the location of its own symbol. -/
theorem foldlM_patchRecorded_ok (e : Emitter) {c c' : Bytecode} {refs syms : List Nat}
    (h : c.Placeholders refs syms) (hc : (refs.zip syms).foldlM e.patchRecorded c = .ok c') :
    (∀ j, (∀ r ∈ refs, j < r ∨ r + 4 ≤ j) → c'.words[j]? = c.words[j]?) ∧
      List.Forall₂ (fun r s => ∃ l, e.location? s = some l ∧ WordAt c'.words r (Word.ofNat l))
        refs syms := by
  induction refs generalizing c syms with
  | nil =>
    obtain rfl := List.forall₂_nil_left_iff.mp h.holds
    have hc' : c = c' := by simpa [pure, Except.pure] using hc
    subst hc'
    exact ⟨fun _ _ => rfl, .nil⟩
  | cons r refs ih =>
    obtain ⟨s, syms, -, -, rfl⟩ := List.forall₂_cons_left_iff.mp h.holds
    rw [List.zip_cons_cons, List.foldlM_cons] at hc
    cases hp : e.patchRecorded c (r, s) with
    | error err =>
      rw [hp] at hc
      cases hc
    | ok c₁ =>
      rw [hp] at hc
      obtain ⟨l, hl, rfl⟩ := patchRecorded_eq_ok.mp hp
      obtain ⟨hframe, hwords⟩ := ih (h.patchWord_head _) hc
      have hafter : ∀ r' ∈ refs, r + 4 ≤ r' := (List.pairwise_cons.mp h.apart).1
      have hr := h.within r List.mem_cons_self
      refine ⟨fun j hj => ?_, .cons ⟨l, hl, fun k hk => ?_⟩ hwords⟩
      · have hout := hj r List.mem_cons_self
        rw [hframe j fun r' hr' => hj r' (List.mem_cons_of_mem r hr'), getElem?_patchWord,
          if_neg (by omega)]
      · rw [hframe (r + k) fun r' hr' => .inl (by have := hafter r' hr'; omega),
          getElem?_patchWord, if_pos ⟨by omega, by omega, by omega⟩, Nat.add_sub_cancel_left]

/-- The placeholders after any sequence of calls on a new emitter, with no more than 2^64
symbols and code that fits in 2^64 bytewords. The recorded positions ascend at least a word
apart, each a multiple of four whose word ends within the code, and the word at each reads back
without fault as the index of an allocated symbol: the symbols of the emitted locations, in
order. Finishing therefore reads back exactly those symbols, never an unreadable word or an
unallocated index, and patches each position with its own symbol's location; what it returns
differs from the code only inside the placeholders, each holding its symbol's location. -/
theorem session_placeholders_sound {rs : List Request} {e : Emitter} (he : session rs = e)
    (hsymbols : e.locations.size ≤ 2 ^ 64) (hfit : e.position ≤ 2 ^ 64) :
    e.code.Placeholders e.references.toList (placedSymbols rs) ∧
      (∀ s ∈ placedSymbols rs, s < e.locations.size) ∧
      List.Forall₂
        (fun r s => (Cursor.ofPos e.code r).readPlace = .ok (s, Cursor.ofPos e.code (r + 4)))
        e.references.toList (placedSymbols rs) ∧
      e.finish = (e.references.toList.zip (placedSymbols rs)).foldlM e.patchRecorded e.code ∧
      ∀ c, e.finish = .ok c →
        (∀ j, (∀ r ∈ e.references.toList, j < r ∨ r + 4 ≤ j) → c.words[j]? = e.code.words[j]?) ∧
        List.Forall₂ (fun r s => ∃ l, e.location? s = some l ∧ WordAt c.words r (Word.ofNat l))
          e.references.toList (placedSymbols rs) := by
  subst he
  have hd := session_eq_placeholders rs
  have hcode : (session rs).code = (Direct.run rs).emitted.foldl Bytecode.push Bytecode.empty := by
    rw [hd]
    rfl
  have hrefs : (session rs).references.toList = locationWords 0 (Direct.run rs).emitted := by
    rw [hd]
    simp [placeholders]
  have hp : (session rs).code.Placeholders (session rs).references.toList (placedSymbols rs) := by
    rw [hcode, hrefs]
    simpa [placedSymbols, Bytecode.empty, Bytecode.size] using
      (Placeholders.nil Bytecode.empty).foldl_push (Direct.run rs).emitted
  have halloc : ∀ s ∈ placedSymbols rs, s < (session rs).locations.size := by
    intro s hs
    obtain ⟨i, hi, hloc⟩ := List.mem_filterMap.mp hs
    rw [hd]
    simpa [placeholders] using allocated_run rs i hi s hloc
  have hsize : (session rs).code.size ≤ 2 ^ 64 := hfit
  have hfinish := foldlM_patchStep_eq (session rs) hp halloc hsymbols hsize
  rw [← finish_eq_foldlM] at hfinish
  refine ⟨hp, halloc, hp.readPlace hsize fun s hs => ?_, hfinish, fun c hc => ?_⟩
  · have := halloc s hs
    omega
  · rw [hfinish] at hc
    exact foldlM_patchRecorded_ok (session rs) hp hc

theorem forwardJump_placeholders_sound :
    (session forwardJump).locations.size ≤ 2 ^ 64 ∧ (session forwardJump).position ≤ 2 ^ 64 ∧
      (session forwardJump).code.Placeholders (session forwardJump).references.toList
        (placedSymbols forwardJump) ∧
      (∀ s ∈ placedSymbols forwardJump, s < (session forwardJump).locations.size) ∧
      List.Forall₂ (fun r s => (Cursor.ofPos (session forwardJump).code r).readPlace =
          .ok (s, Cursor.ofPos (session forwardJump).code (r + 4)))
        (session forwardJump).references.toList (placedSymbols forwardJump) ∧
      (session forwardJump).finish = ((session forwardJump).references.toList.zip
        (placedSymbols forwardJump)).foldlM (session forwardJump).patchRecorded
          (session forwardJump).code ∧
      ∀ c, (session forwardJump).finish = .ok c →
        (∀ j, (∀ r ∈ (session forwardJump).references.toList, j < r ∨ r + 4 ≤ j) →
          c.words[j]? = (session forwardJump).code.words[j]?) ∧
        List.Forall₂ (fun r s => ∃ l, (session forwardJump).location? s = some l ∧
            WordAt c.words r (Word.ofNat l))
          (session forwardJump).references.toList (placedSymbols forwardJump) := by
  have hsymbols : (session forwardJump).locations.size ≤ 2 ^ 64 := by decide
  have hfit : (session forwardJump).position ≤ 2 ^ 64 := by decide
  exact ⟨hsymbols, hfit, session_placeholders_sound rfl hsymbols hfit⟩

end Emitter

end WindowVm
