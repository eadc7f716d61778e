import WindowVm.Assembly.Basic
import WindowVm.Proofs.Diagnostics
import WindowVm.Proofs.Relocation

/-!
# The assembler computes the layout

The assembler writes through the emitter's placeholders (`Assembly.assemble`); the layout
(`Assembly.layout`) says what a text means without them. After reading the statements `ss` the
assembler holds the placeholder emitter of `direct ss`: one symbol per name, in the order of the
names' first uses, at the offset of the name's label if it has one, and the instructions with
every reference replaced by its name's symbol (`Represents`). A line fails exactly as parsing it
fails, and otherwise records its statement (`line_eq`), which keeps that picture
(`Represents.record`); so reading the lines is parsing them (`foldlM_line`).

Finishing that emitter is encoding the statements as long as the symbols and the code fit the
emitter's 64-bit indices and offsets (`finish_eq_encode`): the first reference to a symbol with
no location is the first reference to an undefined name, and the symbol's first use, whose name
and span the assembler reports, is that reference. So the assembler computes the layout of every
text of fewer than 2^60 characters (`assemble_eq_layout_of_length`). Without any bound its
errors still point into the text, or at its end (`assemble_error_placed_or_end`).
-/

namespace WindowVm.Assembly

open Emitter

/-! ### Names and their first uses -/

/-- The name a statement writes, with the span of its `:name` token: a label's, or its
instruction's reference. -/
def Statement.use? : Statement → Option Ref
  | .blank => none
  | .label name span => some ⟨name, span⟩
  | .instr i => i.location

/-- The instruction of a statement. -/
def Statement.instr? : Statement → Option (Instruction Ref)
  | .instr i => some i
  | _ => none

/-- A use added to the first uses, unless its name was used before. -/
def addUse (us : List Ref) (u : Ref) : List Ref :=
  if us.any (·.name == u.name) then us else us ++ [u]

/-- The first use of each name, in the order of the statements. -/
def firstUses (ss : List Statement) : List Ref := (ss.filterMap Statement.use?).foldl addUse []

/-- The symbol of a name: the index of its first use. -/
def symbolOf (ss : List Statement) (name : String) : Nat := (firstUses ss).findIdx (·.name == name)

/-- The instructions of the statements, each reference replaced by its name's symbol. -/
def emittedOf (ss : List Statement) : List (Instruction Nat) :=
  (ss.filterMap Statement.instr?).map (Instruction.map fun r => symbolOf ss r.name)

/-- The location of each symbol of `us`: the offset `o` gives its name. -/
def locationsOf (o : List (String × Nat)) (us : List Ref) : List (Option Nat) :=
  us.map fun u => o.lookup u.name

/-- What the statements ask of the emitter, without placeholders. -/
def direct (ss : List Statement) : Direct :=
  ⟨locationsOf (labelOffsets ss 0) (firstUses ss), emittedOf ss⟩

theorem prefix_addUse (us : List Ref) (u : Ref) : us <+: addUse us u := by
  unfold addUse
  split
  · exact List.prefix_refl us
  · exact List.prefix_append us [u]

theorem length_addUse_le (us : List Ref) (u : Ref) : (addUse us u).length ≤ us.length + 1 := by
  unfold addUse
  split <;> simp

theorem nodup_addUse {us : List Ref} (h : (us.map Ref.name).Nodup) (u : Ref) :
    ((addUse us u).map Ref.name).Nodup := by
  unfold addUse
  split
  · exact h
  · rename_i hany
    rw [List.map_append, List.nodup_append]
    refine ⟨h, by simp, fun a ha b hb hab => ?_⟩
    obtain ⟨v, hv, rfl⟩ := List.mem_map.mp ha
    rw [List.mem_singleton.mp hb] at hab
    exact hany (List.any_eq_true.mpr ⟨v, hv, by simp [hab]⟩)

/-- Adding uses keeps the first use of every name: the first use of a name is the first in
`us` and then in `xs`. -/
theorem find?_foldl_addUse (xs us : List Ref) (n : String) :
    (xs.foldl addUse us).find? (·.name == n) = (us ++ xs).find? (·.name == n) := by
  induction xs generalizing us with
  | nil => simp
  | cons x xs ih =>
    rw [List.foldl_cons, ih]
    unfold addUse
    split
    · rename_i hany
      by_cases hx : x.name = n
      · obtain ⟨v, hv, hvn⟩ := List.any_eq_true.mp hany
        have hfound : (us.find? (·.name == n)).isSome :=
          List.find?_isSome.mpr ⟨v, hv, by simpa [hx] using hvn⟩
        obtain ⟨w, hw⟩ := Option.isSome_iff_exists.mp hfound
        simp [List.find?_append, hw]
      · simp [List.find?_append, hx]
    · simp

theorem prefix_foldl_addUse (xs us : List Ref) : us <+: xs.foldl addUse us := by
  induction xs generalizing us with
  | nil => exact List.prefix_refl us
  | cons x xs ih => exact (prefix_addUse us x).trans (ih _)

theorem prefix_firstUses_append (ss ss' : List Statement) : firstUses ss <+: firstUses (ss ++ ss') := by
  unfold firstUses
  rw [List.filterMap_append, List.foldl_append]
  exact prefix_foldl_addUse _ _

theorem firstUses_append_singleton (ss : List Statement) (s : Statement) :
    firstUses (ss ++ [s]) = (s.use?.toList).foldl addUse (firstUses ss) := by
  unfold firstUses
  rw [List.filterMap_append, List.foldl_append, List.filterMap_cons, List.filterMap_nil]
  cases s.use? <;> rfl

theorem nodup_firstUses (ss : List Statement) : ((firstUses ss).map Ref.name).Nodup := by
  unfold firstUses
  suffices h : ∀ xs us : List Ref, (us.map Ref.name).Nodup →
      ((xs.foldl addUse us).map Ref.name).Nodup from
    h _ [] List.nodup_nil
  intro xs
  induction xs with
  | nil => exact fun _ h => h
  | cons x xs ih => exact fun us h => ih _ (nodup_addUse h x)

/-- The first use of a name is its first use among all uses. -/
theorem find?_firstUses (ss : List Statement) (n : String) :
    (firstUses ss).find? (·.name == n) = (ss.filterMap Statement.use?).find? (·.name == n) := by
  rw [firstUses, find?_foldl_addUse, List.nil_append]

theorem getElem?_symbolOf (ss : List Statement) (n : String) :
    (firstUses ss)[symbolOf ss n]? = (ss.filterMap Statement.use?).find? (·.name == n) := by
  rw [symbolOf, ← List.find?_eq_getElem?_findIdx, find?_firstUses]

/-- Every name used has a first use. -/
theorem any_firstUses {ss : List Statement} {u : Ref} (hu : u ∈ ss.filterMap Statement.use?) :
    (firstUses ss).any (·.name == u.name) := by
  have hfind : ((ss.filterMap Statement.use?).find? (·.name == u.name)).isSome :=
    List.find?_isSome.mpr ⟨u, hu, by simp⟩
  rw [← find?_firstUses] at hfind
  obtain ⟨v, hv, hvn⟩ := List.find?_isSome.mp hfind
  exact List.any_eq_true.mpr ⟨v, hv, hvn⟩

theorem symbolOf_lt {ss : List Statement} {n : String} (h : (firstUses ss).any (·.name == n)) :
    symbolOf ss n < (firstUses ss).length :=
  List.findIdx_lt_length.mpr (List.any_eq_true.mp h)

theorem findIdx?_firstUses {ss : List Statement} {n : String}
    (h : (firstUses ss).any (·.name == n)) :
    (firstUses ss).findIdx? (·.name == n) = some (symbolOf ss n) :=
  List.findIdx?_eq_some_of_exists (List.any_eq_true.mp h)

/-- Reading more statements keeps the symbol of every name used so far. -/
theorem symbolOf_append {ss : List Statement} {n : String} (ss' : List Statement)
    (h : (firstUses ss).any (·.name == n)) : symbolOf (ss ++ ss') n = symbolOf ss n :=
  (prefix_firstUses_append ss ss').findIdx_eq_of_findIdx_lt_length (symbolOf_lt h)

/-- Defining the symbol of a name that has no offset gives it the offset `pos`. -/
theorem set_locationsOf {o : List (String × Nat)} {us : List Ref} {n : String} {s : Nat}
    (hnodup : (us.map Ref.name).Nodup) (hs : us.findIdx? (·.name == n) = some s)
    (hn : o.lookup n = none) (pos : Nat) :
    (locationsOf o us).set s (some pos) = locationsOf (o ++ [(n, pos)]) us := by
  obtain ⟨hlt, hname, -⟩ := List.findIdx?_eq_some_iff_getElem.mp hs
  refine List.ext_getElem? fun k => ?_
  rw [List.getElem?_set]
  by_cases hk : s = k
  · subst hk
    simp [locationsOf, hlt, List.lookup_append, hn, beq_iff_eq.mp hname]
  · simp only [hk, if_false, locationsOf, List.getElem?_map]
    cases hu : us[k]? with
    | none => rfl
    | some u =>
      have hne : u.name ≠ n := by
        intro he
        have hsame : (us.map Ref.name)[s]? = (us.map Ref.name)[k]? := by
          simp [List.getElem?_map, hu, he, List.getElem?_eq_getElem hlt, beq_iff_eq.mp hname]
        exact hk ((List.getElem?_inj (by simpa using hlt) hnodup).mp hsame)
      simp [List.lookup_append, List.lookup, beq_eq_false_iff_ne.mpr hne]

/-! ### Offsets and instructions of more statements -/

theorem labelOffsets_append (ss ss' : List Statement) (n : Nat) :
    labelOffsets (ss ++ ss') n = labelOffsets ss n ++ labelOffsets ss'
      ((ss.filterMap Statement.instr?).foldl (fun m i => i.pieces.foldl Bytecode.pieceSize m) n) := by
  induction ss generalizing n with
  | nil => rfl
  | cons s ss ih => cases s <;> simp [labelOffsets, Statement.instr?, List.filterMap_cons, ih]

/-- The code emitted is as long as the offsets count, whatever the symbols. -/
theorem size_ofList_emittedOf (ss : List Statement) :
    (Bytecode.ofList (emittedOf ss)).size =
      (ss.filterMap Statement.instr?).foldl (fun m i => i.pieces.foldl Bytecode.pieceSize m) 0 := by
  simp [size_ofList_eq_foldl, emittedOf, List.foldl_map, Bytecode.foldl_pieceSize_map]

theorem lookup_labelOffsets_eq_none {ss : List Statement} {n : String}
    (h : ∀ sp, .label n sp ∉ ss) (k : Nat) : (labelOffsets ss k).lookup n = none := by
  induction ss generalizing k with
  | nil => rfl
  | cons s ss ih =>
    have hrest : ∀ sp, .label n sp ∉ ss := fun sp hs => h sp (List.mem_cons_of_mem _ hs)
    cases s with
    | label m sp =>
      have hm : (n == m) = false := beq_eq_false_iff_ne.mpr fun he => h sp (by simp [he])
      simp [labelOffsets, List.lookup_cons, hm, ih hrest]
    | _ => exact ih hrest _

theorem lookup_labelOffsets_isSome {ss : List Statement} {n : String} {sp : Span}
    (h : .label n sp ∈ ss) (k : Nat) : ((labelOffsets ss k).lookup n).isSome := by
  induction ss generalizing k with
  | nil => cases h
  | cons s ss ih =>
    rcases List.mem_cons.mp h with rfl | hmem
    · simp [labelOffsets]
    · cases s with
      | label m sp' =>
        by_cases hm : n = m
        · simp [labelOffsets, hm]
        · simpa [labelOffsets, List.lookup_cons, beq_eq_false_iff_ne.mpr hm] using ih hmem k
      | blank => exact ih hmem k
      | instr i => exact ih hmem _

/-- A name never used is never defined. -/
theorem not_label_of_unused {ss : List Statement} {n : String}
    (h : (firstUses ss).any (·.name == n) = false) (sp : Span) : .label n sp ∉ ss := by
  intro hs
  have hu : (⟨n, sp⟩ : Ref) ∈ ss.filterMap Statement.use? :=
    List.mem_filterMap.mpr ⟨_, hs, rfl⟩
  simp [any_firstUses hu] at h

/-- The reference of an instruction is a use. -/
theorem mem_uses_of_location {ss : List Statement} {i : Instruction Ref} {r : Ref}
    (hi : i ∈ ss.filterMap Statement.instr?) (hr : r ∈ i.location) :
    r ∈ ss.filterMap Statement.use? := by
  obtain ⟨s, hs, hsi⟩ := List.mem_filterMap.mp hi
  cases s with
  | instr j =>
    cases hsi
    exact List.mem_filterMap.mpr ⟨_, hs, hr⟩
  | _ => cases hsi

theorem emittedOf_append_singleton (ss : List Statement) (s : Statement) :
    emittedOf (ss ++ [s]) = emittedOf ss ++
      s.instr?.toList.map (Instruction.map fun r => symbolOf (ss ++ [s]) r.name) := by
  unfold emittedOf
  rw [List.filterMap_append, List.map_append, List.filterMap_cons, List.filterMap_nil]
  congr 1
  refine List.map_congr_left fun i hi => Instruction.map_congr fun r hr => ?_
  exact symbolOf_append [s] (any_firstUses (mem_uses_of_location hi hr))

theorem mem_of_mem_foldl_addUse {xs us : List Ref} {u : Ref} (h : u ∈ xs.foldl addUse us) :
    u ∈ us ∨ u ∈ xs := by
  induction xs generalizing us with
  | nil => exact .inl h
  | cons x xs ih =>
    rcases ih h with hu | hu
    · unfold addUse at hu
      split at hu
      · exact .inl hu
      · rcases List.mem_append.mp hu with hu | hu
        · exact .inl hu
        · exact .inr (List.mem_singleton.mp hu ▸ List.mem_cons_self)
    · exact .inr (List.mem_cons_of_mem x hu)

/-- A first use is a use. -/
theorem mem_uses_of_mem_firstUses {ss : List Statement} {u : Ref} (h : u ∈ firstUses ss) :
    u ∈ ss.filterMap Statement.use? := by
  rcases mem_of_mem_foldl_addUse h with hu | hu
  · cases hu
  · exact hu

/-! ### Where uses are written -/

/-- A line read as a statement writes its name, if it has one, as a `:name` token. -/
theorem Line.parse_use {d : List String} {l : Line} {st : Statement} (h : l.parse d = .ok st)
    {u : Ref} (hu : u ∈ st.use?) : u ∈ l.tokens.filterMap Token.ref? := by
  cases st with
  | blank => cases hu
  | instr i =>
    have hr : u ∈ l.refs := by
      rw [← Line.parse_refs h]
      simpa [Statement.ref?, Statement.use?] using hu
    obtain ⟨t, ht, hre⟩ := List.mem_filterMap.mp hr
    exact List.mem_filterMap.mpr ⟨t, List.mem_of_mem_tail ht, hre⟩
  | label n sp =>
    unfold Line.parse at h
    cases htok : l.tokens with
    | nil =>
      rw [htok] at h
      cases h
    | cons t rest =>
      rw [htok] at h
      dsimp only at h
      split at h
      · rename_i m htext
        split at h
        · cases h
        · split at h
          · cases h
          · obtain ⟨_, -, h⟩ := Except.bind_eq_ok_iff.mp h
            cases h
            cases hu
            exact List.mem_filterMap.mpr ⟨t, List.mem_cons_self, Token.ref?_of_text htext⟩
      · split at h
        · cases h
        · obtain ⟨_, -, h⟩ := Except.bind_eq_ok_iff.mp h
          obtain ⟨_, -, h⟩ := Except.bind_eq_ok_iff.mp h
          cases h

theorem foldlM_parseStep_uses {ls : List Line} {d d' : List String} {acc out : List Statement}
    (h : ls.foldlM parseStep (d, acc) = .ok (d', out)) :
    ∃ ss : List Statement, out = ss.reverse ++ acc ∧
      ∀ u ∈ ss.filterMap Statement.use?, ∃ l ∈ ls, u ∈ l.tokens.filterMap Token.ref? := by
  induction ls generalizing d acc with
  | nil =>
    cases h
    exact ⟨[], rfl, by simp⟩
  | cons l ls ih =>
    rw [List.foldlM_cons, Except.bind_eq_ok_iff] at h
    obtain ⟨_, hstep, hrest⟩ := h
    obtain ⟨st, hst, rfl⟩ := parseStep_eq_ok_iff.mp hstep
    obtain ⟨ss, rfl, huses⟩ := ih hrest
    refine ⟨st :: ss, by simp, fun u hu => ?_⟩
    rcases List.mem_filterMap.mp hu with ⟨s, hs, hsu⟩
    rcases List.mem_cons.mp hs with rfl | hs
    · exact ⟨l, List.mem_cons_self, Line.parse_use hst hsu⟩
    · obtain ⟨l', hl', hu'⟩ := huses u (List.mem_filterMap.mpr ⟨s, hs, hsu⟩)
      exact ⟨l', List.mem_cons_of_mem l hl', hu'⟩

/-- Every name a parsed text uses is written as a whole `:name` token at the use's span. -/
theorem tokenAt_of_use {src : String} {ss : List Statement} (h : parse src = .ok ss) {u : Ref}
    (hu : u ∈ ss.filterMap Statement.use?) :
    TokenAt src.toList u.span (':' :: u.name.toList) := by
  unfold parse at h
  split at h
  · rename_i hfold
    cases h
    obtain ⟨ss, rfl, huses⟩ := foldlM_parseStep_uses hfold
    obtain ⟨l, hl, hlu⟩ := huses u (by simpa using hu)
    obtain ⟨t, ht, hre⟩ := List.mem_filterMap.mp hlu
    obtain ⟨htext, hspan⟩ := Token.text_of_ref? hre
    rw [← htext, ← hspan]
    exact Line.tokenAt hl ht
  · cases h

/-! ### Encoding, and finishing the emitter -/

/-- Encoding fails at the first reference whose name has no offset, and otherwise pushes the
instructions with their references resolved. -/
theorem foldlM_encodeStep_eq (o : List (String × Nat)) (ss : List Statement) (c : Bytecode) :
    ss.foldlM (encodeStep o) c =
      match (ss.filterMap Statement.ref?).find? (fun r => (o.lookup r.name).isNone) with
      | some r => .error (.undefinedSymbol r.name r.span)
      | none => .ok (((ss.filterMap Statement.instr?).map
          (Instruction.map fun r => (o.lookup r.name).getD 0)).foldl Bytecode.push c) := by
  induction ss generalizing c with
  | nil => rfl
  | cons s ss ih =>
    rw [List.foldlM_cons]
    cases s with
    | blank => exact ih c
    | label n sp => exact ih c
    | instr i =>
      cases hloc : i.location with
      | none =>
        have hmap : i.map (fun r => (o.lookup r.name).getD 0) = i.map fun _ => 0 :=
          Instruction.map_congr (by simp [hloc])
        simp [encodeStep, resolve, hloc, bind, Except.bind, pure, Except.pure, Statement.ref?,
          Statement.instr?, ih, hmap]
      | some r =>
        cases hl : o.lookup r.name with
        | none => simp [encodeStep, resolve, hloc, hl, bind, Except.bind, Statement.ref?]
        | some m =>
          have hmap : i.map (fun r => (o.lookup r.name).getD 0) = i.map fun _ => m :=
            Instruction.map_congr (by simp [hloc, hl])
          simp [encodeStep, resolve, hloc, hl, bind, Except.bind, pure, Except.pure,
            Statement.ref?, Statement.instr?, ih, hmap]

/-- A name used has the location its label gives it. -/
theorem location?_direct {ss : List Statement} {n : String}
    (h : (firstUses ss).any (·.name == n)) :
    (direct ss).location? (symbolOf ss n) = (labelOffsets ss 0).lookup n := by
  obtain ⟨hlt, hname, -⟩ := List.findIdx?_eq_some_iff_getElem.mp (findIdx?_firstUses h)
  simp [direct, Direct.location?, locationsOf, List.getElem?_eq_getElem hlt, beq_iff_eq.mp hname]

theorem allocated_direct (ss : List Statement) : (direct ss).Allocated := by
  intro j hj s hs
  obtain ⟨i, hi, rfl⟩ := List.mem_map.mp hj
  rw [Instruction.location_map, Option.mem_map] at hs
  obtain ⟨r, hr, rfl⟩ := hs
  simpa [direct, locationsOf] using symbolOf_lt (any_firstUses (mem_uses_of_location hi hr))

/-- The first emitted symbol with no location is that of the first reference to a name with
no offset, among the instructions of `t`, when `ss` uses every name they refer to. -/
theorem findSome?_undefined (ss t : List Statement)
    (ht : ∀ i ∈ t.filterMap Statement.instr?, ∀ r ∈ i.location,
      (firstUses ss).any (·.name == r.name)) :
    ((t.filterMap Statement.instr?).map (Instruction.map fun r => symbolOf ss r.name)).findSome?
        (fun j => j.location.filter fun s => ((direct ss).location? s).isNone) =
      ((t.filterMap Statement.ref?).find?
        (fun r => ((labelOffsets ss 0).lookup r.name).isNone)).map (symbolOf ss ·.name) := by
  induction t with
  | nil => rfl
  | cons s t ih =>
    have hrest : ∀ i ∈ t.filterMap Statement.instr?, ∀ r ∈ i.location,
        (firstUses ss).any (·.name == r.name) := fun i hi =>
      ht i (by cases s <;> simp_all [Statement.instr?])
    cases s with
    | instr i =>
      simp only [List.filterMap_cons, Statement.instr?, Statement.ref?, List.map_cons,
        List.findSome?_cons, Instruction.location_map]
      cases hloc : i.location with
      | none => simpa using ih hrest
      | some r =>
        have hr := ht i (by simp [Statement.instr?]) r hloc
        simp only [Option.map_some, Option.filter_some, location?_direct hr, List.find?_cons]
        by_cases hl : ((labelOffsets ss 0).lookup r.name).isNone
        · simp [hl]
        · simpa only [hl, if_false, Bool.false_eq_true] using ih hrest
    | _ => simpa only [List.filterMap_cons, Statement.instr?, Statement.ref?] using ih hrest

/-- The first undefined reference is the first use of its name: an earlier label would define
it, and an earlier reference to it would be undefined too. -/
theorem find?_uses_of_undefined {o : List (String × Nat)} {ss : List Statement}
    (ho : ∀ n sp, .label n sp ∈ ss → (o.lookup n).isSome) {r : Ref}
    (hr : (ss.filterMap Statement.ref?).find? (fun r => (o.lookup r.name).isNone) = some r) :
    (ss.filterMap Statement.use?).find? (·.name == r.name) = some r := by
  have hundef : (o.lookup r.name).isNone := by simpa using List.find?_some hr
  induction ss with
  | nil => cases hr
  | cons s ss ih =>
    have hrest : ∀ n sp, .label n sp ∈ ss → (o.lookup n).isSome :=
      fun n sp h => ho n sp (List.mem_cons_of_mem _ h)
    cases s with
    | blank => simpa [Statement.use?] using ih hrest (by simpa [Statement.ref?] using hr)
    | label n sp =>
      have hne : n ≠ r.name := by
        intro he
        have hdef := ho n sp List.mem_cons_self
        rw [he, Option.isSome_iff_ne_none] at hdef
        exact hdef (Option.isNone_iff_eq_none.mp hundef)
      simpa [Statement.use?, hne] using ih hrest (by simpa [Statement.ref?] using hr)
    | instr i =>
      cases hloc : i.location with
      | none =>
        simpa [Statement.use?, hloc] using ih hrest (by simpa [Statement.ref?, hloc] using hr)
      | some r' =>
        by_cases hl : (o.lookup r'.name).isNone
        · have : r' = r := by simpa [Statement.ref?, hloc, hl] using hr
          subst this
          simp [Statement.use?, hloc]
        · have hne : r'.name ≠ r.name := fun he => hl (he ▸ hundef)
          simpa [Statement.use?, hloc, hne] using
            ih hrest (by simpa [Statement.ref?, hloc, hl] using hr)

/-- Patching every symbol with its location resolves every reference by its label's offset. -/
theorem emittedOf_resolve (ss : List Statement) :
    (emittedOf ss).map (Instruction.map fun s => ((direct ss).location? s).getD 0) =
      (ss.filterMap Statement.instr?).map
        (Instruction.map fun r => ((labelOffsets ss 0).lookup r.name).getD 0) := by
  rw [emittedOf, List.map_map]
  refine List.map_congr_left fun i hi => ?_
  rw [Function.comp_apply, Instruction.map_map]
  refine Instruction.map_congr fun r hr => ?_
  rw [Function.comp_apply, location?_direct (any_firstUses (mem_uses_of_location hi hr))]

/-! ### Sizes -/

theorem length_foldl_addUse_le (xs us : List Ref) :
    (xs.foldl addUse us).length ≤ us.length + xs.length := by
  induction xs generalizing us with
  | nil => simp
  | cons x xs ih =>
    have := length_addUse_le us x
    have := ih (addUse us x)
    simp only [List.foldl_cons, List.length_cons]
    omega

/-- There are no more symbols than statements. -/
theorem length_firstUses_le (ss : List Statement) : (firstUses ss).length ≤ ss.length := by
  have h := length_foldl_addUse_le (ss.filterMap Statement.use?) []
  have := List.length_filterMap_le Statement.use? ss
  rw [firstUses]
  simp only [List.length_nil, Nat.zero_add] at h
  omega

/-- An instruction takes at most nine bytewords: its opcode, two operands and a word aligned
to four bytewords. -/
theorem Bytecode.foldl_pieceSize_le {L : Type} (n : Nat) (i : Instruction L) :
    i.pieces.foldl Bytecode.pieceSize n ≤ n + 9 := by
  cases i with
  | sys call =>
    cases call <;> simp [Instruction.pieces, Bytecode.pieceSize, SystemCall.registers]
  | _ =>
    simp only [Instruction.pieces, List.foldl_cons, List.foldl_nil, Bytecode.pieceSize, alignUp]
    omega

theorem foldl_pieceSize_le_length {L : Type} (is : List (Instruction L)) (n : Nat) :
    is.foldl (fun m i => i.pieces.foldl Bytecode.pieceSize m) n ≤ n + 9 * is.length := by
  induction is generalizing n with
  | nil => simp
  | cons i is ih =>
    have := Bytecode.foldl_pieceSize_le n i
    have := ih (i.pieces.foldl Bytecode.pieceSize n)
    simp only [List.foldl_cons, List.length_cons]
    omega

/-- The code takes at most nine bytewords a statement. -/
theorem size_ofList_emittedOf_le (ss : List Statement) :
    (Bytecode.ofList (emittedOf ss)).size ≤ 9 * ss.length := by
  have h := foldl_pieceSize_le_length (ss.filterMap Statement.instr?) 0
  have := List.length_filterMap_le Statement.instr? ss
  rw [size_ofList_emittedOf]
  omega

theorem length_splitLines_le (start pos : Nat) (cur cs : List Char) :
    (splitLines start pos cur cs).length ≤ cs.length + 1 := by
  induction cs generalizing start pos cur with
  | nil => simp [splitLines]
  | cons c cs ih =>
    unfold splitLines
    split
    · have := ih (pos + 1) (pos + 1) []
      simp only [List.length_cons]
      omega
    · have := ih start (pos + c.utf8Size) (c :: cur)
      simp only [List.length_cons]
      omega

/-- A text has one line more than it has line feeds, so at most one more than characters. -/
theorem length_lines_le (src : String) : (lines src).length ≤ src.length + 1 := by
  have := length_splitLines_le 0 0 [] src.toList
  rwa [String.length_toList] at this

/-- Every line of a text that parses is one statement. -/
theorem length_parse {src : String} {ss : List Statement} (h : parse src = .ok ss) :
    ss.length = (lines src).length := by
  have hforms := (parse_eq_ok_iff.mp ⟨ss, h, rfl⟩).1
  rw [← lines_chars, List.map_map] at hforms
  simpa using hforms.length_eq.symm

/-- The code pushed for the statements is as long as the code emitted, wherever the locations
point. -/
theorem size_ofList_map_instr (ss : List Statement) (g : Ref → Nat) :
    (Bytecode.ofList ((ss.filterMap Statement.instr?).map (Instruction.map g))).size =
      (Bytecode.ofList (emittedOf ss)).size := by
  simp [size_ofList_eq_foldl, emittedOf, List.foldl_map, Bytecode.foldl_pieceSize_map]

theorem encode_eq_ok {ss : List Statement} {c : Bytecode} (h : encode ss = .ok c) :
    (ss.filterMap Statement.ref?).find? (fun r => ((labelOffsets ss 0).lookup r.name).isNone) =
        none ∧
      c = Bytecode.ofList ((ss.filterMap Statement.instr?).map
        (Instruction.map fun r => ((labelOffsets ss 0).lookup r.name).getD 0)) := by
  unfold encode at h
  rw [foldlM_encodeStep_eq] at h
  split at h
  · cases h
  · rename_i hfind
    cases h
    exact ⟨hfind, rfl⟩

theorem mem_labels_form {ss : List Statement} {n : String} {sp : Span} (h : .label n sp ∈ ss) :
    n.toList ∈ Form.labels (ss.map Statement.form) := by
  induction ss with
  | nil => cases h
  | cons s ss ih =>
    rcases List.mem_cons.mp h with rfl | hmem
    · simp [Statement.form, Form.labels]
    · cases s <;> simp [Statement.form, Form.labels, ih hmem]

/-- The symbols and the code of the statements fit the emitter's 64-bit indices and offsets. -/
def Fits (ss : List Statement) : Prop :=
  (firstUses ss).length ≤ 2 ^ 64 ∧ (Bytecode.ofList (emittedOf ss)).size ≤ 2 ^ 64

/-- Statements that encode fit the emitter when their code does and they have at most 2^64
labels: every name they use is a label's. -/
theorem fits_of_encode {ss : List Statement} {c : Bytecode} (he : encode ss = .ok c)
    (hc : c.size ≤ 2 ^ 64) (hl : (Form.labels (ss.map Statement.form)).length ≤ 2 ^ 64) :
    Fits ss := by
  obtain ⟨hfind, rfl⟩ := encode_eq_ok he
  rw [size_ofList_map_instr] at hc
  refine ⟨?_, hc⟩
  have hnodup : ((firstUses ss).map fun u => u.name.toList).Nodup := by
    have := (nodup_firstUses ss).map (f := String.toList) fun a b h => String.toList_inj.mp h
    simpa [List.map_map, Function.comp_def] using this
  have hsub : (firstUses ss).map (fun u => u.name.toList) ⊆ Form.labels (ss.map Statement.form) := by
    intro n hn
    obtain ⟨u, hu, rfl⟩ := List.mem_map.mp hn
    obtain ⟨s, hs, hsu⟩ := List.mem_filterMap.mp (mem_uses_of_mem_firstUses hu)
    cases s with
    | blank => cases hsu
    | label m sp =>
      cases hsu
      exact mem_labels_form hs
    | instr i =>
      have hdef := List.find?_eq_none.mp hfind u (List.mem_filterMap.mpr ⟨_, hs, hsu⟩)
      by_contra hnot
      exact hdef (by simp [lookup_labelOffsets_eq_none (fun sp hsp => hnot (mem_labels_form hsp)) 0])
  have := (hnodup.subperm hsub).length_le
  simp only [List.length_map] at this
  omega

/-- The statements of a text of fewer than 2^60 characters fit the emitter. -/
theorem fits_of_length {src : String} (hlen : src.length < 2 ^ 60) {ss : List Statement}
    (h : parse src = .ok ss) : Fits ss := by
  have hlines := length_lines_le src
  have hss := length_parse h
  have := length_firstUses_le ss
  have := size_ofList_emittedOf_le ss
  constructor <;> omega

/-! ### The assembler's state -/

namespace Assembler

/-- The assembler holds the symbols `us`, each located by the offsets `o` of its name, and has
emitted `em` through placeholders. -/
structure Holds (a : Assembler) (o : List (String × Nat)) (us : List Ref)
    (em : List (Instruction Nat)) : Prop where
  emitter : a.emitter = (⟨locationsOf o us, em⟩ : Direct).placeholders
  names : a.names.toList = us
  symbols : ∀ n, a.symbols.lookup n = us.findIdx? (·.name == n)
  nodup : (us.map Ref.name).Nodup

/-- The assembler after reading the statements `ss`. -/
def Represents (a : Assembler) (ss : List Statement) : Prop :=
  a.Holds (labelOffsets ss 0) (firstUses ss) (emittedOf ss)

variable {a : Assembler} {o : List (String × Nat)} {us : List Ref} {em : List (Instruction Nat)}

/-- Looking a name up allocates a symbol for it the first time, with no location. -/
theorem Holds.symbol (h : a.Holds o us em) (n : String) (sp : Span)
    (hnew : us.any (·.name == n) = false → o.lookup n = none) :
    (addUse us ⟨n, sp⟩).findIdx? (·.name == n) = some (a.symbol n sp).1 ∧
      (a.symbol n sp).2.Holds o (addUse us ⟨n, sp⟩) em := by
  unfold Assembler.symbol
  rw [h.symbols n]
  cases hf : us.findIdx? (·.name == n) with
  | some s =>
    have hany : us.any (·.name == n) := by rw [← List.findIdx?_isSome, hf]; rfl
    have hadd : addUse us ⟨n, sp⟩ = us := if_pos hany
    rw [hadd, hf]
    exact ⟨rfl, h⟩
  | none =>
    have hany : us.any (·.name == n) = false := by rw [← List.findIdx?_isSome, hf]; rfl
    have hadd : addUse us ⟨n, sp⟩ = us ++ [⟨n, sp⟩] := if_neg (by simp [hany])
    have hsize : a.emitter.locations.size = us.length := by
      simp [h.emitter, Direct.placeholders, locationsOf]
    have hnodup := nodup_addUse h.nodup ⟨n, sp⟩
    rw [hadd] at hnodup ⊢
    refine ⟨by simp [List.findIdx?_append, hf, Emitter.newSymbol, hsize], ⟨?_, ?_, ?_, hnodup⟩⟩
    · simp [Emitter.newSymbol, h.emitter, Direct.placeholders, locationsOf, hnew hany]
    · simp [h.names]
    · intro m
      by_cases hm : m = n
      · subst hm
        simp [List.findIdx?_append, hf, Emitter.newSymbol, hsize]
      · have hb : (m == n) = false := beq_eq_false_iff_ne.mpr hm
        simp [List.lookup_cons, hb, h.symbols, List.findIdx?_append, Ne.symm hm]

/-- Defining the symbol of a name that has no offset succeeds, and locates it at the end of the
code. -/
theorem Holds.define (h : a.Holds o us em) {n : String} {s : Nat}
    (hs : us.findIdx? (·.name == n) = some s) (hn : o.lookup n = none) :
    a.emitter.define s = .ok (a.emitter.perform (.define s)) ∧
      { a with emitter := a.emitter.perform (.define s) }.Holds
        (o ++ [(n, (Bytecode.ofList em).size)]) us em := by
  obtain ⟨hlt, hname, -⟩ := List.findIdx?_eq_some_iff_getElem.mp hs
  have hfree : (⟨locationsOf o us, em⟩ : Direct).location? s = none := by
    simp [Direct.location?, locationsOf, hlt, beq_iff_eq.mp hname, hn]
  have hlen : s < (locationsOf o us).length := by simpa [locationsOf] using hlt
  obtain ⟨e, he⟩ := (define_ok_iff a.emitter s).mpr
    ⟨by simpa [h.emitter, Direct.placeholders] using hlen,
      by rw [h.emitter, placeholders_location?]; exact hfree⟩
  have hperform : a.emitter.perform (.define s) = e := by simp [Emitter.perform, he]
  refine ⟨by rw [he, hperform], ⟨?_, h.names, h.symbols, h.nodup⟩⟩
  rw [h.emitter, perform_placeholders]
  simp only [Direct.perform, if_pos (And.intro hlen hfree), Direct.position]
  rw [set_locationsOf h.nodup hs hn]

/-- Emitting an instruction whose symbol is allocated succeeds, and appends it. -/
theorem Holds.emit (h : a.Holds o us em) {j : Instruction Nat}
    (hj : ∀ s ∈ j.location, s < us.length) :
    a.emitter.emit j = .ok (a.emitter.perform (.emit j)) ∧
      { a with emitter := a.emitter.perform (.emit j) }.Holds o us (em ++ [j]) := by
  have hlen : (locationsOf o us).length = us.length := by simp [locationsOf]
  obtain ⟨e, he⟩ := (emit_ok_iff a.emitter j).mpr
    (by simpa [h.emitter, Direct.placeholders, hlen] using hj)
  have hperform : a.emitter.perform (.emit j) = e := by simp [Emitter.perform, he]
  refine ⟨by rw [he, hperform], ⟨?_, h.names, h.symbols, h.nodup⟩⟩
  rw [h.emitter, perform_placeholders]
  simp only [Direct.perform, hlen, if_pos hj]

/-- The assembler after a statement it read without error: a label's symbol is defined, an
instruction is emitted with its reference's symbol. -/
def record (a : Assembler) : Statement → Assembler
  | .blank => a
  | .label name span =>
    let (s, a) := a.symbol name span
    { a with emitter := a.emitter.perform (.define s) }
  | .instr i =>
    let (j, a) := a.place i
    { a with emitter := a.emitter.perform (.emit j) }

/-- Recording a statement, a label only for a name not yet defined, keeps the assembler's
picture of what it read. -/
theorem Represents.record {ss : List Statement} {st : Statement} (h : a.Represents ss)
    (hfresh : ∀ n sp, st = .label n sp → ∀ sp', .label n sp' ∉ ss) :
    (a.record st).Represents (ss ++ [st]) := by
  unfold Represents at h ⊢
  rw [labelOffsets_append, ← size_ofList_emittedOf, firstUses_append_singleton,
    emittedOf_append_singleton]
  cases st with
  | blank => simpa [labelOffsets, Statement.use?, Statement.instr?, Assembler.record] using h
  | label n sp =>
    have hnone := lookup_labelOffsets_eq_none (hfresh n sp rfl) 0
    obtain ⟨hidx, hsym⟩ := h.symbol n sp fun _ => hnone
    obtain ⟨-, hdef⟩ := hsym.define hidx hnone
    simpa [labelOffsets, Statement.use?, Statement.instr?, Assembler.record] using hdef
  | instr i =>
    simp only [labelOffsets, List.append_nil, Statement.use?, Statement.instr?, Option.toList,
      List.map_cons, List.map_nil, Assembler.record, place]
    cases hloc : i.location with
    | none =>
      have hmap : i.map (fun r => symbolOf (ss ++ [.instr i]) r.name) = i.map fun _ => 0 :=
        Instruction.map_congr (by simp [hloc])
      simpa [hmap] using (h.emit (j := i.map fun _ => 0) (by simp [hloc])).2
    | some r =>
      have hnew : (firstUses ss).any (·.name == r.name) = false →
          (labelOffsets ss 0).lookup r.name = none :=
        fun hu => lookup_labelOffsets_eq_none (not_label_of_unused hu) 0
      obtain ⟨hidx, hsym⟩ := h.symbol r.name r.span hnew
      have hlt : (a.symbol r.name r.span).1 < (addUse (firstUses ss) r).length :=
        (List.findIdx?_eq_some_iff_findIdx_eq.mp hidx).1
      have hsymbol : symbolOf (ss ++ [.instr i]) r.name = (a.symbol r.name r.span).1 := by
        rw [symbolOf, firstUses_append_singleton]
        exact (List.findIdx?_eq_some_iff_findIdx_eq.mp (by simpa [Statement.use?, hloc] using hidx)).2
      have hmap : i.map (fun r' => symbolOf (ss ++ [.instr i]) r'.name) =
          i.map fun _ => (a.symbol r.name r.span).1 :=
        Instruction.map_congr (by simp [hloc, hsymbol])
      have hemit := (hsym.emit (j := i.map fun _ => (a.symbol r.name r.span).1)
        (by simp [hloc, hlt])).2
      simpa [hmap, Statement.use?, hloc] using hemit

/-- The symbol an instruction is emitted with is allocated, so emitting it succeeds. -/
theorem Represents.emit_place {ss : List Statement} (h : a.Represents ss) (i : Instruction Ref) :
    (a.place i).2.emitter.emit (a.place i).1 =
      .ok ((a.place i).2.emitter.perform (.emit (a.place i).1)) := by
  unfold Represents at h
  unfold place
  cases hloc : i.location with
  | none => exact (h.emit (by simp [hloc])).1
  | some r =>
    obtain ⟨hidx, hsym⟩ := h.symbol r.name r.span
      fun hu => lookup_labelOffsets_eq_none (not_label_of_unused hu) 0
    have hlt := (List.findIdx?_eq_some_iff_findIdx_eq.mp hidx).1
    exact (hsym.emit (by simp [hloc, hlt])).1

/-- A label's symbol can be defined exactly when no earlier label defines its name. -/
theorem Represents.define_symbol {ss : List Statement} (h : a.Represents ss) (n : String)
    (sp : Span) :
    (∃ e, (a.symbol n sp).2.emitter.define (a.symbol n sp).1 = .ok e) ↔
      ¬ ∃ sp', .label n sp' ∈ ss := by
  unfold Represents at h
  obtain ⟨hidx, hsym⟩ := h.symbol n sp
    fun hu => lookup_labelOffsets_eq_none (not_label_of_unused hu) 0
  obtain ⟨hlt, hname, -⟩ := List.findIdx?_eq_some_iff_getElem.mp hidx
  rw [define_ok_iff, hsym.emitter, placeholders_location?]
  simp only [Direct.placeholders, locationsOf, List.size_toArray, List.length_map, hlt, true_and,
    Direct.location?, List.getElem?_map, List.getElem?_eq_getElem hlt, beq_iff_eq.mp hname,
    Option.map_some, Option.join_some]
  constructor
  · rintro hnone ⟨sp', hsp'⟩
    have hsome := lookup_labelOffsets_isSome hsp' 0
    rw [hnone] at hsome
    exact absurd hsome (by decide)
  · intro hnot
    exact lookup_labelOffsets_eq_none (fun sp' hsp' => hnot ⟨sp', hsp'⟩) 0

/-- A label line is read as it is parsed. -/
theorem Represents.label_eq {ss : List Statement} {d : List String} (h : a.Represents ss)
    (hd : ∀ n, n ∈ d ↔ ∃ sp, .label n sp ∈ ss) {l : Line} {t : Token} {n : List Char}
    {rest : List Token} (htok : l.tokens = t :: rest) (htext : t.text = ':' :: n) :
    a.label t n rest = (l.parse d).map a.record := by
  simp only [Line.parse, htok, htext]
  unfold label
  by_cases hn : isName n
  · simp only [hn, Bool.not_true, Bool.false_eq_true, if_false]
    by_cases hdef : ∃ sp', .label (String.ofList n) sp' ∈ ss
    · have hmem : String.ofList n ∈ d := (hd _).mpr hdef
      cases hdefine : (a.symbol (String.ofList n) t.span).2.emitter.define
          (a.symbol (String.ofList n) t.span).1 with
      | ok e => exact absurd ⟨e, hdefine⟩ ((h.define_symbol _ _).not.mpr (not_not.mpr hdef))
      | error e => simp [hmem, Except.map]
    · obtain ⟨e, hdefine⟩ := (h.define_symbol (String.ofList n) t.span).mpr hdef
      have hmem : String.ofList n ∉ d := fun hm => hdef ((hd _).mp hm)
      have hperform : (a.symbol (String.ofList n) t.span).2.emitter.perform
          (.define (a.symbol (String.ofList n) t.span).1) = e := by
        simp [Emitter.perform, hdefine]
      cases hend : expectEnd rest with
      | error e' => simp [hdefine, hmem, bind, Except.bind, Except.map]
      | ok u =>
        simp [hdefine, hmem, bind, Except.bind, Except.map, pure, Except.pure,
          Assembler.record, hperform]
  · simp [hn, Except.map]

/-- An instruction line is read as it is parsed. -/
theorem Represents.instruction_eq {ss : List Statement} {d : List String} (h : a.Represents ss)
    {l : Line} {t : Token} {rest : List Token} (htok : l.tokens = t :: rest)
    (hlabel : ∀ n, t.text = ':' :: n → False) :
    a.instruction l.stop t rest = (l.parse d).map a.record := by
  rw [Line.parse, htok]
  dsimp only
  split
  · rename_i n htext
    exact absurd htext (hlabel n)
  · unfold instruction
    by_cases hm : isMnemonic t.text
    · cases hop : Opcode.ofMnemonic? (String.ofList t.text) with
      | none => simp [hm, Except.map]
      | some op =>
        simp only [hm, if_true]
        cases hres : Operands.instruction l.stop op rest with
        | error e => simp [bind, Except.bind, Except.map]
        | ok p =>
          obtain ⟨i, rest'⟩ := p
          cases hend : expectEnd rest' with
          | error e => simp [hend, bind, Except.bind, Except.map, h.emit_place i]
          | ok u =>
            simp [hend, bind, Except.bind, Except.map, h.emit_place i, pure, Except.pure,
              Assembler.record]
    · simp [hm, Except.map]

/-- Reading a line fails exactly as parsing it against the names defined so far fails, and
otherwise records the statement parsed. -/
theorem Represents.line_eq {ss : List Statement} {d : List String} (h : a.Represents ss)
    (hd : ∀ n, n ∈ d ↔ ∃ sp, .label n sp ∈ ss) (l : Line) :
    a.line l = (l.parse d).map a.record := by
  unfold Assembler.line
  cases htok : l.tokens with
  | nil => simp [Line.parse, htok, Except.map, Assembler.record]
  | cons t rest =>
    dsimp only
    split
    · rename_i n htext
      exact h.label_eq hd htok htext
    · rename_i hlabel
      exact h.instruction_eq htok hlabel

theorem represents_empty : ({} : Assembler).Represents [] :=
  ⟨rfl, rfl, fun _ => rfl, List.nodup_nil⟩

/-- The names a parsed line adds to those defined: a label's name, the one a fresh label has. -/
theorem defined_parse {ss : List Statement} {d : List String} {l : Line} {st : Statement}
    (hd : ∀ n, n ∈ d ↔ ∃ sp, .label n sp ∈ ss) (hp : l.parse d = .ok st) (n : String) :
    n ∈ (Form.labels [st.form]).map String.ofList ++ d ↔ ∃ sp, .label n sp ∈ ss ++ [st] := by
  cases st with
  | label m sp =>
    simp only [Statement.form, Form.labels, List.map_cons, List.map_nil, String.ofList_toList,
      List.singleton_append, List.mem_cons, hd, List.mem_append, List.not_mem_nil, or_false,
      Statement.label.injEq]
    constructor
    · rintro (rfl | ⟨sp', hsp'⟩)
      · exact ⟨sp, .inr ⟨rfl, rfl⟩⟩
      · exact ⟨sp', .inl hsp'⟩
    · rintro ⟨sp', hsp' | ⟨rfl, -⟩⟩
      · exact .inr ⟨sp', hsp'⟩
      · exact .inl rfl
  | _ => simp [Statement.form, Form.labels, hd]

/-- Reading the lines is parsing them: the same first error, or an assembler that represents
the statements parsed. -/
theorem Represents.foldlM_line {ls : List Line} {ss : List Statement} {d : List String}
    (h : a.Represents ss) (hd : ∀ n, n ∈ d ↔ ∃ sp, .label n sp ∈ ss) :
    (∀ e, ls.foldlM parseStep (d, ss.reverse) = .error e →
        ls.foldlM Assembler.line a = .error e) ∧
      ∀ d' out, ls.foldlM parseStep (d, ss.reverse) = .ok (d', out) →
        ∃ a', ls.foldlM Assembler.line a = .ok a' ∧ a'.Represents out.reverse := by
  induction ls generalizing a ss d with
  | nil =>
    refine ⟨fun e he => (by cases he), fun d' out hout => ⟨a, rfl, ?_⟩⟩
    cases hout
    simpa using h
  | cons l ls ih =>
    rw [List.foldlM_cons, List.foldlM_cons, h.line_eq hd]
    cases hp : l.parse d with
    | error e =>
      have hstep : parseStep (d, ss.reverse) l = .error e := by
        simp [parseStep, hp, bind, Except.bind]
      simp [hstep, Except.map, bind, Except.bind]
    | ok st =>
      have hfresh : ∀ n sp, st = .label n sp → ∀ sp', .label n sp' ∉ ss := by
        rintro n sp rfl sp' hsp'
        have hnew := (Line.parse_eq_ok_iff.mp ⟨_, hp, rfl⟩).2 n.toList
          (by simp [Statement.form])
        rw [String.ofList_toList] at hnew
        exact hnew ((hd n).mpr ⟨sp', hsp'⟩)
      have hstep := (@parseStep_eq_ok_iff d ss.reverse l _).mpr ⟨st, hp, rfl⟩
      have hrev : st :: ss.reverse = (ss ++ [st]).reverse := by simp
      rw [hrev] at hstep
      obtain ⟨ihe, iho⟩ := ih (h.record hfresh) (defined_parse hd hp)
      simp only [Except.map, hstep, bind, Except.bind]
      exact ⟨ihe, iho⟩

/-- Finishing the emitter is encoding the statements, when their symbols and code fit: the
first symbol with no location is that of the first undefined reference, and the name and span
kept for it are that reference's own. -/
theorem Represents.finish_eq_encode {ss : List Statement} (h : a.Represents ss) (hfit : Fits ss)
    (stop : Nat) : a.finish stop = encode ss := by
  unfold Represents at h
  have hfinish := finish_placeholders (direct ss) (allocated_direct ss)
    (by simpa [direct, locationsOf] using hfit.1) hfit.2
  have hundef := findSome?_undefined ss ss
    fun i hi r hr => any_firstUses (mem_uses_of_location hi hr)
  unfold finish encode
  rw [show a.emitter = (direct ss).placeholders from h.emitter, hfinish, foldlM_encodeStep_eq]
  unfold Direct.finish Direct.firstUndefined
  rw [show (direct ss).emitted = emittedOf ss from rfl, emittedOf_resolve]
  rw [emittedOf, hundef]
  cases hfind : (ss.filterMap Statement.ref?).find?
      (fun r => ((labelOffsets ss 0).lookup r.name).isNone) with
  | some r =>
    have hfirst := find?_uses_of_undefined (fun n sp hs => lookup_labelOffsets_isSome hs 0) hfind
    have hname : a.names[symbolOf ss r.name]? = some r := by
      rw [← Array.getElem?_toList, h.names, getElem?_symbolOf, hfirst]
    simp [hname]
  | none => rfl

end Assembler

open Assembler

/-! ### Assembling a text -/

/-- A text that fails to parse fails to assemble with the same error. -/
theorem assemble_of_parse_error {src : String} {e : Error} (h : parse src = .error e) :
    assemble src = .error e := by
  have hfold : (lines src).foldlM Assembler.line {} = .error e :=
    (represents_empty.foldlM_line (d := []) (by simp)).1 e
      (by simpa using parse_eq_error_iff.mp h)
  simp [assemble, hfold, bind, Except.bind]

/-- A text that parses is assembled by finishing an assembler that represents its
statements. -/
theorem exists_represents_of_parse {src : String} {ss : List Statement}
    (h : parse src = .ok ss) :
    ∃ a : Assembler, a.Represents ss ∧ assemble src = a.finish src.utf8ByteSize := by
  unfold parse at h
  split at h
  · rename_i d out hfold
    cases h
    obtain ⟨a, ha, hrep⟩ := (represents_empty.foldlM_line (d := []) (by simp)).2 d out
      (by simpa using hfold)
    exact ⟨a, hrep, by simp [assemble, ha, bind, Except.bind]⟩
  · cases h

/-- The assembler computes the layout of every text whose symbols and code fit the emitter. -/
theorem assemble_eq_layout {src : String} (hfit : ∀ ss, parse src = .ok ss → Fits ss) :
    assemble src = layout src := by
  cases hp : parse src with
  | error e =>
    rw [assemble_of_parse_error hp, layout, hp]
    rfl
  | ok ss =>
    obtain ⟨a, ha, heq⟩ := exists_represents_of_parse hp
    rw [heq, ha.finish_eq_encode (hfit ss hp), layout, hp]
    rfl

/-- Every error of an assembly points where `Error.Placed` says, or is an invalid symbol at the
end of the text, as finishing reports an error of the emitter it cannot name. -/
theorem assemble_error_placed_or_end {src : String} {e : Error} (h : assemble src = .error e) :
    e.Placed src ∨ e = .invalidSymbol (Span.point src.utf8ByteSize) := by
  cases hp : parse src with
  | error e' =>
    rw [assemble_of_parse_error hp] at h
    cases h
    obtain ⟨l, hl, hline⟩ := parse_error_onLine hp
    exact .inl (hline.placed hl)
  | ok ss =>
    obtain ⟨a, ha, heq⟩ := exists_represents_of_parse hp
    rw [heq] at h
    unfold Assembler.finish at h
    split at h
    · cases h
    · split at h
      · rename_i r hr
        cases h
        have hmem : r ∈ firstUses ss := by
          rw [← ha.names]
          exact List.mem_of_getElem? (by rwa [Array.getElem?_toList])
        exact .inl (tokenAt_of_use hp (mem_uses_of_mem_firstUses hmem))
      · cases h
        exact .inr rfl
    · cases h
      exact .inr rfl

/-- The assembler computes the layout of every text of fewer than 2^60 characters. -/
theorem assemble_eq_layout_of_length {src : String} (hlen : src.length < 2 ^ 60) :
    assemble src = layout src :=
  assemble_eq_layout fun _ => fits_of_length hlen

/-- The code of a text of fewer than 2^60 characters takes fewer than 2^64 bytewords. -/
theorem size_lt_of_layout {src : String} {c : Bytecode} (hlen : src.length < 2 ^ 60)
    (h : layout src = .ok c) : c.size < 2 ^ 64 := by
  obtain ⟨ss, hp, he⟩ := Except.bind_eq_ok_iff.mp h
  obtain ⟨-, rfl⟩ := encode_eq_ok he
  have hlines := length_lines_le src
  have hss := length_parse hp
  have := size_ofList_emittedOf_le ss
  rw [size_ofList_map_instr]
  omega

/-! ### What the assembler accepts, and where it fails -/

/-- A text of fewer than 2^60 characters assembles exactly when each of its lines is in the
grammar, no label name is defined twice and every location names a label; the code is then the
relocated encoding of the lines. -/
theorem assemble_eq_ok_iff {src : String} {c : Bytecode} (hlen : src.length < 2 ^ 60) :
    assemble src = .ok c ↔
      ∃ fs : List Form, List.Forall₂ LineForm ((src.toList.splitOn '\n').map tokensOf) fs ∧
        (Form.labels fs).Nodup ∧
        (∀ i ∈ Form.instructions fs, ∀ n ∈ i.location, n ∈ Form.labels fs) ∧
        c = Form.relocate fs := by
  rw [assemble_eq_layout_of_length hlen]
  exact layout_eq_ok_iff

/-- A loop on its own label is read by the grammar. -/
theorem topLoop_eq_ok_iff :
    ":top\njmp :top".length < 2 ^ 60 ∧
      (assemble ":top\njmp :top" = .ok ⟨#[Opcode.jmp.tag, 0, 0, 0, 0, 0, 0, 0]⟩ ↔
        ∃ fs : List Form,
          List.Forall₂ LineForm ((":top\njmp :top".toList.splitOn '\n').map tokensOf) fs ∧
          (Form.labels fs).Nodup ∧
          (∀ i ∈ Form.instructions fs, ∀ n ∈ i.location, n ∈ Form.labels fs) ∧
          ⟨#[Opcode.jmp.tag, 0, 0, 0, 0, 0, 0, 0]⟩ = Form.relocate fs) :=
  ⟨by decide, assemble_eq_ok_iff (by decide)⟩

/-- A text of fewer than 2^60 characters fails with an undefined name exactly when its lines
are in the grammar, no label is defined twice, and some label reference names no label; the
error is the first such reference in the text, with the span of its token. -/
theorem assemble_undefinedSymbol_iff {src : String} {name : String} {span : Span}
    (hlen : src.length < 2 ^ 60) :
    assemble src = .error (.undefinedSymbol name span) ↔
      ∃ fs : List Form, List.Forall₂ LineForm ((src.toList.splitOn '\n').map tokensOf) fs ∧
        (Form.labels fs).Nodup ∧
        (references src).find? (fun r => r.chars ∉ Form.labels fs) = some ⟨name, span⟩ := by
  rw [assemble_eq_layout_of_length hlen]
  exact layout_undefinedSymbol_iff

/-- Of two jumps to `x`, neither defined, the first is reported. -/
theorem undefinedTwice_firstUse_iff :
    "jmp :x\njmp :y\njmp :x".length < 2 ^ 60 ∧
      (assemble "jmp :x\njmp :y\njmp :x" = .error (.undefinedSymbol "x" ⟨4, 6⟩) ↔
        ∃ fs : List Form,
          List.Forall₂ LineForm (("jmp :x\njmp :y\njmp :x".toList.splitOn '\n').map tokensOf) fs ∧
          (Form.labels fs).Nodup ∧
          (references "jmp :x\njmp :y\njmp :x").find? (fun r => r.chars ∉ Form.labels fs) =
            some ⟨"x", ⟨4, 6⟩⟩) :=
  ⟨by decide, assemble_undefinedSymbol_iff (by decide)⟩

example : assemble "jmp :x\njmp :y\njmp :x" = .error (.undefinedSymbol "x" ⟨4, 6⟩) := by cbv

/-- The first diagnostic of a text that is empty or ends with a line feed, and has fewer than
2^60 characters, is kept, span and all, by every text appended to it; an undefined name is the
exception, as a later line may define it. -/
theorem assemble_append_error_stable {u v : String} {e : Error} (hlen : u.length < 2 ^ 60)
    (hu : u = "" ∨ ∃ w, u = w ++ "\n") (h : assemble u = .error e)
    (he : ∀ n sp, e ≠ .undefinedSymbol n sp) : assemble (u ++ v) = .error e := by
  rw [assemble_eq_layout_of_length hlen] at h
  exact assemble_of_parse_error (parse_append_error hu (parse_error_of_layout h he))

/-- A missing operand at the end of the first line is still the error once an unknown
instruction follows. -/
theorem missingArgument_append_unknown :
    "mov %0\n".length < 2 ^ 60 ∧ ("mov %0\n" = "" ∨ ∃ w, "mov %0\n" = w ++ "\n") ∧
      assemble "mov %0\n" = .error (.missingArgument (Span.point 6)) ∧
      (∀ n sp, Error.missingArgument (Span.point 6) ≠ .undefinedSymbol n sp) ∧
      assemble ("mov %0\n" ++ "foo") = .error (.missingArgument (Span.point 6)) :=
  have hlen : "mov %0\n".length < 2 ^ 60 := by decide
  have hu : "mov %0\n" = "" ∨ ∃ w, "mov %0\n" = w ++ "\n" := .inr ⟨"mov %0", by decide⟩
  have h : assemble "mov %0\n" = .error (.missingArgument (Span.point 6)) := by rfl
  have he : ∀ n sp, Error.missingArgument (Span.point 6) ≠ .undefinedSymbol n sp :=
    fun _ _ => nofun
  ⟨hlen, hu, h, he, assemble_append_error_stable hlen hu h he⟩

/-- The error of a failed assembly of a text of fewer than 2^60 characters carries a span that
lies in the text, its ends on character boundaries, and points where `Error.Placed` says: in
particular an invalid symbol is a label or location token, never the end of the text that
finishing the emitter would report. -/
theorem assemble_error_span_wellFormed {src : String} {e : Error} (hlen : src.length < 2 ^ 60)
    (h : assemble src = .error e) : ∃ sp, e.span? = some sp ∧ sp.Within src ∧ e.Placed src := by
  rw [assemble_eq_layout_of_length hlen] at h
  have hplaced := layout_error_placed h
  obtain ⟨sp, hsp, hwithin⟩ := hplaced.within
  exact ⟨sp, hsp, hwithin, hplaced⟩

/-- A location operand whose name starts with a digit, on the second line. -/
theorem loc_digitName_wellFormed :
    "nop\nloc %0 :1st".length < 2 ^ 60 ∧
      assemble "nop\nloc %0 :1st" = .error (.invalidSymbol ⟨11, 15⟩) ∧
      ∃ sp, (Error.invalidSymbol ⟨11, 15⟩).span? = some sp ∧ sp.Within "nop\nloc %0 :1st" ∧
        (Error.invalidSymbol ⟨11, 15⟩).Placed "nop\nloc %0 :1st" :=
  have hlen : "nop\nloc %0 :1st".length < 2 ^ 60 := by decide
  have h : assemble "nop\nloc %0 :1st" = .error (.invalidSymbol ⟨11, 15⟩) := by rfl
  ⟨hlen, h, assemble_error_span_wellFormed hlen h⟩

end WindowVm.Assembly
