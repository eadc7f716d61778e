import WindowVm.Proofs.Printing
import WindowVm.Proofs.Acceptance
import WindowVm.Proofs.Listing
import WindowVm.Proofs.Assembler

/-!
# Assembling the text of a disassembly

Code the assembler produced is read back by the disassembler, and the text it renders assembles to
the same code (`Disassembly.assemble_render_roundTrip`). The code is pushed from its instructions,
so its linear decode is exactly their layout; each of its locations is the size of some first
instructions, hence an instruction start or the end, and is given a label. The rendered text then
has one line per instruction and per target, its labels are the names of increasing offsets, and
read back by the grammar of `Assembly.layout_eq_ok_iff` each label stands after exactly the
instructions before its offset. That second half holds of any instructions whose locations are
such sizes (`Disassembly.layout_text_layout`), however the code was made; as the text names at
most one label more than there are instructions, the emitter computes the same code whenever it
has fewer than 2^64 bytewords (`Disassembly.assemble_text_layout`).
-/

namespace WindowVm

namespace Bytecode

theorem layout_append (c : Bytecode) (is js : List (Instruction Nat)) :
    c.layout (is ++ js) = c.layout is ++ (is.foldl push c).layout js := by
  induction is generalizing c with
  | nil => rfl
  | cons i is ih => simp [ih]

theorem map_snd_layout (c : Bytecode) (is : List (Instruction Nat)) :
    (c.layout is).map Prod.snd = is := by
  induction is generalizing c with
  | nil => rfl
  | cons i is ih => simp [ih]

/-- Every instruction is laid out at or after the start and before the end. -/
theorem bounds_of_mem_layout {c : Bytecode} {is : List (Instruction Nat)} {p : Nat}
    (h : p ∈ (c.layout is).map Prod.fst) : c.size ≤ p ∧ p < (is.foldl push c).size := by
  induction is generalizing c with
  | nil => simp at h
  | cons i is ih =>
    have hlt := size_lt_push c i
    simp only [layout_cons, List.map_cons, List.mem_cons] at h
    rcases h with rfl | h
    · exact ⟨le_rfl, Nat.lt_of_lt_of_le hlt (size_le_foldl_push _ _)⟩
    · obtain ⟨h₁, h₂⟩ := ih h
      exact ⟨by omega, h₂⟩

/-- Offsets increase along the layout. -/
theorem pairwise_layout (c : Bytecode) (is : List (Instruction Nat)) :
    ((c.layout is).map Prod.fst).Pairwise (· < ·) := by
  induction is generalizing c with
  | nil => exact .nil
  | cons i is ih =>
    simp only [layout_cons, List.map_cons, List.pairwise_cons]
    exact ⟨fun p hp => Nat.lt_of_lt_of_le (size_lt_push c i) (bounds_of_mem_layout hp).1, ih _⟩

/-- Sizes do not depend on where locations point. -/
theorem size_foldl_push_map {L : Type} (f g : L → Nat) (c : Bytecode)
    (is : List (Instruction L)) :
    ((is.map (Instruction.map f)).foldl push c).size =
      ((is.map (Instruction.map g)).foldl push c).size := by
  induction is generalizing c with
  | nil => rfl
  | cons i is ih =>
    rw [List.map_cons, List.map_cons, List.foldl_cons, List.foldl_cons, ih]
    exact size_foldl_push_of_size_eq (size_push_map c i f g) _

/-- The offset of each instruction but the last is the size of the code before it. -/
theorem size_take_mem_layout {c : Bytecode} {is : List (Instruction Nat)} {k : Nat}
    (hk : k < is.length) : ((is.take k).foldl push c).size ∈ (c.layout is).map Prod.fst := by
  induction is generalizing c k with
  | nil => simp at hk
  | cons i is ih =>
    cases k with
    | zero => simp
    | succ k =>
      simp only [List.take_succ_cons, List.foldl_cons, layout_cons, List.map_cons]
      exact List.mem_cons_of_mem _ (ih (by simpa using hk))

/-- The size of the code of some first instructions is the offset of the next one, or the end. -/
theorem size_take_eq_or_mem_layout {js : List (Instruction Nat)} {k : Nat} (hk : k ≤ js.length) :
    (ofList (js.take k)).size = (ofList js).size ∨
      (ofList (js.take k)).size ∈ (empty.layout js).map Prod.fst := by
  rcases Nat.lt_or_eq_of_le hk with hk | rfl
  · exact .inr (size_take_mem_layout hk)
  · exact .inl (by rw [List.take_length])

theorem size_ofList_take_le (is : List (Instruction Nat)) (k : Nat) :
    (ofList (is.take k)).size ≤ (ofList is).size := by
  conv_rhs => rw [← List.take_append_drop k is]
  unfold ofList
  rw [List.foldl_append]
  exact size_le_foldl_push _ _

end Bytecode

namespace Assembly.Form

theorem instructions_append (fs gs : List Form) :
    instructions (fs ++ gs) = instructions fs ++ instructions gs := by
  induction fs with
  | nil => rfl
  | cons f fs ih => cases f <;> simp [instructions, ih]

theorem labels_append (fs gs : List Form) : labels (fs ++ gs) = labels fs ++ labels gs := by
  induction fs with
  | nil => rfl
  | cons f fs ih => cases f <;> simp [labels, ih]

theorem mem_labels_of_mem {fs : List Form} {n : List Char} (h : label n ∈ fs) :
    n ∈ labels fs := by
  induction fs with
  | nil => simp at h
  | cons f fs ih =>
    rcases List.mem_cons.mp h with rfl | hfs
    · simp [labels]
    · cases f <;> simp [labels, ih hfs]

/-- A label's offset is the size of the code of the instructions above it. -/
theorem offset_append_label {G H : List Form} {n : List Char} (h : n ∉ labels G) :
    offset (G ++ .label n :: H) n =
      (Bytecode.ofList ((instructions G).map (Instruction.map fun _ => 0))).size := by
  have hG : ∀ f ∈ G, f ≠ .label n := by
    rintro f hf rfl
    exact h (mem_labels_of_mem hf)
  unfold offset
  rw [List.takeWhile_append_of_pos (by simpa using hG)]
  simp

theorem instructions_takeWhile_prefix (p : Form → Bool) (fs : List Form) :
    instructions (fs.takeWhile p) <+: instructions fs :=
  ⟨instructions (fs.dropWhile p), by rw [← instructions_append, List.takeWhile_append_dropWhile]⟩

/-- Every location of relocated code is the size of the code of some of its first
instructions. -/
theorem location_relocate {fs : List Form} {j : Instruction Nat} {t : Nat}
    (hj : j ∈ (instructions fs).map (Instruction.map (offset fs))) (ht : t ∈ j.location) :
    ∃ k ≤ ((instructions fs).map (Instruction.map (offset fs))).length,
      t = (Bytecode.ofList
        (((instructions fs).map (Instruction.map (offset fs))).take k)).size := by
  obtain ⟨i, -, rfl⟩ := List.mem_map.mp hj
  rw [Instruction.location_map, Option.mem_map] at ht
  obtain ⟨n, -, rfl⟩ := ht
  have hprefix := instructions_takeWhile_prefix (· ≠ label n) fs
  refine ⟨(instructions (fs.takeWhile (· ≠ label n))).length, by simpa using hprefix.length_le, ?_⟩
  rw [← List.map_take, ← List.prefix_iff_eq_take.mp hprefix]
  exact Bytecode.size_foldl_push_map _ _ _ _

end Assembly.Form

namespace Disassembly

open Assembly

theorem entryLines_cons (T : List Nat) (p : Nat × Instruction Nat)
    (l : List (Nat × Instruction Nat)) :
    entryLines T (p :: l) =
      (if T.contains p.1 then [.label p.1] else []) ++ .instr p.2 :: entryLines T l := by
  simp [entryLines]

theorem entryLines_append (T : List Nat) (l₁ l₂ : List (Nat × Instruction Nat)) :
    entryLines T (l₁ ++ l₂) = entryLines T l₁ ++ entryLines T l₂ := by
  simp [entryLines]

theorem labels_entryLines (T : List Nat) (l : List (Nat × Instruction Nat)) :
    Form.labels ((entryLines T l).map TextLine.form) =
      ((l.map Prod.fst).filter T.contains).map fun n => (placeLabel n).toList := by
  induction l with
  | nil => rfl
  | cons p l ih =>
    by_cases h : p.1 ∈ T <;>
      simp [entryLines_cons, h, Form.labels, TextLine.form, ih]

theorem instructions_entryLines (T : List Nat) (l : List (Nat × Instruction Nat)) :
    Form.instructions ((entryLines T l).map TextLine.form) =
      (l.map Prod.snd).map (Instruction.map fun n => (placeLabel n).toList) := by
  induction l with
  | nil => rfl
  | cons p l ih =>
    by_cases h : p.1 ∈ T <;>
      simp [entryLines_cons, h, Form.instructions, TextLine.form, ih]

/-- In the text of the layout of instructions, the label of the size of the first `k` of them,
where that size is a target, comes right after their entries. -/
theorem textLines_eq_append_label {js : List (Instruction Nat)} {k : Nat} (hk : k ≤ js.length)
    (ht : (Bytecode.ofList (js.take k)).size ∈ targets (Bytecode.empty.layout js)) :
    ∃ H, (textLines (Bytecode.ofList js).size (Bytecode.empty.layout js)).map TextLine.form ++
        [.blank] =
      (entryLines (targets (Bytecode.empty.layout js))
        (Bytecode.empty.layout (js.take k))).map TextLine.form ++
        .label (placeLabel (Bytecode.ofList (js.take k)).size).toList :: H := by
  set t := (Bytecode.ofList (js.take k)).size with ht_def
  rcases Nat.lt_or_eq_of_le hk with hk | rfl
  · have hlayout : Bytecode.empty.layout js = Bytecode.empty.layout (js.take k) ++
        (t, js[k]) :: (((js.take k).foldl Bytecode.push Bytecode.empty).push js[k]).layout
          (js.drop (k + 1)) := by
      conv_lhs => rw [← List.take_append_drop k js, List.drop_eq_getElem_cons hk]
      rw [Bytecode.layout_append, Bytecode.layout_cons]
      rfl
    set rest := (((js.take k).foldl Bytecode.push Bytecode.empty).push js[k]).layout
      (js.drop (k + 1))
    have hentries : ∀ T : List Nat, T.contains t →
        entryLines T (Bytecode.empty.layout js) =
          entryLines T (Bytecode.empty.layout (js.take k)) ++
            .label t :: .instr js[k] :: entryLines T rest := by
      intro T hT
      rw [hlayout, entryLines_append, entryLines_cons, if_pos hT]
      rfl
    refine ⟨.instr (js[k].map fun l => (placeLabel l).toList) ::
      ((entryLines (targets (Bytecode.empty.layout js)) rest ++
        if (targets (Bytecode.empty.layout js)).contains (Bytecode.ofList js).size then
          [TextLine.label (Bytecode.ofList js).size] else []).map TextLine.form ++ [.blank]), ?_⟩
    rw [textLines, hentries _ (by simpa using ht)]
    simp [TextLine.form]
  · refine ⟨[.blank], ?_⟩
    have htake : js.take js.length = js := List.take_length
    have hsize : t = (Bytecode.ofList js).size := by rw [ht_def, htake]
    rw [htake, textLines, if_pos (by simpa [hsize] using ht), hsize]
    simp [TextLine.form]

/-- Read back, the label of an offset in the text of a listing stands for that offset: it
stands after exactly the instructions laid out before it. -/
theorem offset_textLines {js : List (Instruction Nat)} {k : Nat} (hk : k ≤ js.length)
    (ht : (Bytecode.ofList (js.take k)).size ∈ targets (Bytecode.empty.layout js)) :
    Form.offset ((textLines (Bytecode.ofList js).size (Bytecode.empty.layout js)).map
        TextLine.form ++ [.blank]) (placeLabel (Bytecode.ofList (js.take k)).size).toList =
      (Bytecode.ofList (js.take k)).size := by
  obtain ⟨H, hsplit⟩ := textLines_eq_append_label hk ht
  set t := (Bytecode.ofList (js.take k)).size with ht_def
  have hfresh : (placeLabel t).toList ∉ Form.labels ((entryLines (targets
      (Bytecode.empty.layout js)) (Bytecode.empty.layout (js.take k))).map TextLine.form) := by
    rw [labels_entryLines, List.mem_map]
    rintro ⟨p, hp, hname⟩
    have hlt := (Bytecode.bounds_of_mem_layout (List.mem_of_mem_filter hp)).2
    rw [placeLabel_injective hname] at hlt
    exact Nat.lt_irrefl _ hlt
  rw [hsplit, Form.offset_append_label hfresh, instructions_entryLines, Bytecode.map_snd_layout,
    List.map_map]
  have hcomp : ((Instruction.map fun _ => 0) ∘ Instruction.map fun n => (placeLabel n).toList) =
      Instruction.map (fun _ => (0 : Nat)) := by
    funext i
    simp [Instruction.map_map, Function.comp_def]
  rw [hcomp]
  calc (Bytecode.ofList ((js.take k).map (Instruction.map fun _ => 0))).size
      = (Bytecode.ofList ((js.take k).map (Instruction.map fun l => l))).size :=
        Bytecode.size_foldl_push_map _ _ _ _
    _ = t := by
      rw [show (Instruction.map fun l : Nat => l) = id from funext Instruction.map_id, List.map_id,
        ht_def]

theorem mem_targets {l : List (Nat × Instruction Nat)} {p : Nat} {j : Instruction Nat} {t : Nat}
    (hj : (p, j) ∈ l) (ht : t ∈ j.location) : t ∈ targets l :=
  List.mem_filterMap.mpr ⟨(p, j), hj, ht⟩

theorem labels_textLines (size : Nat) (l : List (Nat × Instruction Nat)) :
    Form.labels ((textLines size l).map TextLine.form ++ [.blank]) =
      ((l.map Prod.fst).filter (targets l).contains ++
        if (targets l).contains size then [size] else []).map fun n => (placeLabel n).toList := by
  by_cases h : size ∈ targets l <;>
    simp [textLines, h, Form.labels_append, labels_entryLines, Form.labels, TextLine.form]

theorem instructions_textLines (size : Nat) (l : List (Nat × Instruction Nat)) :
    Form.instructions ((textLines size l).map TextLine.form ++ [.blank]) =
      (l.map Prod.snd).map (Instruction.map fun n => (placeLabel n).toList) := by
  by_cases h : size ∈ targets l <;>
    simp [textLines, h, Form.instructions_append, instructions_entryLines, Form.instructions,
      TextLine.form]

/-- The labels of the text of a layout are the names of increasing offsets, so no two are the
same. -/
theorem nodup_labels_textLines (js : List (Instruction Nat)) :
    (Form.labels ((textLines (Bytecode.ofList js).size (Bytecode.empty.layout js)).map
      TextLine.form ++ [.blank])).Nodup := by
  rw [labels_textLines]
  refine List.Nodup.map (fun m n h => placeLabel_injective h)
    (List.Pairwise.nodup (r := (· < ·)) ?_)
  rw [List.pairwise_append]
  refine ⟨(Bytecode.pairwise_layout _ _).filter _, by split <;> simp, fun a ha b hb => ?_⟩
  split at hb
  · rw [List.mem_singleton.mp hb]
    exact (Bytecode.bounds_of_mem_layout (List.mem_of_mem_filter ha)).2
  · simp at hb

/-- A text of a layout names at most one label more than it has instructions. -/
theorem length_labels_textLines_le (js : List (Instruction Nat)) :
    (Form.labels ((textLines (Bytecode.ofList js).size (Bytecode.empty.layout js)).map
      TextLine.form ++ [.blank])).length ≤ js.length + 1 := by
  have hlen : (Bytecode.empty.layout js).length = js.length := by
    simpa using congrArg List.length (Bytecode.map_snd_layout Bytecode.empty js)
  have hfilter := List.length_filter_le (targets (Bytecode.empty.layout js)).contains
    ((Bytecode.empty.layout js).map Prod.fst)
  rw [labels_textLines, List.length_map, List.length_append]
  simp only [List.length_map, hlen] at hfilter
  split <;> simp <;> omega

/-- The text of the layout of instructions lays out back to their code, when every location is
the size of the code of some first instructions: the offset of an instruction, or the end. -/
theorem layout_text_layout {js : List (Instruction Nat)}
    (hloc : ∀ j ∈ js, ∀ t ∈ j.location, ∃ k ≤ js.length, t = (Bytecode.ofList (js.take k)).size) :
    layout (text (Bytecode.ofList js).size (Bytecode.empty.layout js)) =
      .ok (Bytecode.ofList js) := by
  have hnamed : ∀ j ∈ js, ∀ t ∈ j.location, t ∈ targets (Bytecode.empty.layout js) := by
    intro j hj t ht
    rw [← Bytecode.map_snd_layout Bytecode.empty js] at hj
    obtain ⟨⟨p, j⟩, hpj, rfl⟩ := List.mem_map.mp hj
    exact mem_targets hpj ht
  refine (layout_eq_ok_of_forms (lineForms_text _ _) (nodup_labels_textLines js) ?_).trans
    (congrArg Except.ok (Eq.symm ?_))
  · rw [instructions_textLines, labels_textLines, Bytecode.map_snd_layout]
    intro i hi n hn
    obtain ⟨j, hj, rfl⟩ := List.mem_map.mp hi
    rw [Instruction.location_map, Option.mem_map] at hn
    obtain ⟨t, ht, rfl⟩ := hn
    have htarget := hnamed j hj t ht
    obtain ⟨k, hk, rfl⟩ := hloc j hj t ht
    apply List.mem_map_of_mem
    rcases Bytecode.size_take_eq_or_mem_layout hk with hend | hmem
    · rw [hend] at htarget ⊢
      simp [htarget]
    · simp [hmem, htarget]
  · unfold Form.relocate
    rw [instructions_textLines, Bytecode.map_snd_layout, List.map_map]
    congr 1
    conv_lhs => rw [← List.map_id js]
    refine List.map_congr_left fun j hj => ?_
    rw [Function.comp_apply, Instruction.map_map, id, eq_comm]
    conv_rhs => rw [← Instruction.map_id j]
    refine Instruction.map_congr fun t ht => ?_
    have htarget := hnamed j hj t ht
    obtain ⟨k, hk, rfl⟩ := hloc j hj t ht
    exact offset_textLines hk htarget

/-- The text of the layout of instructions assembles back to their code, when every location is
the size of the code of some first instructions and the code has fewer than 2^64 bytewords. -/
theorem assemble_text_layout {js : List (Instruction Nat)}
    (hloc : ∀ j ∈ js, ∀ t ∈ j.location, ∃ k ≤ js.length, t = (Bytecode.ofList (js.take k)).size)
    (hfit : (Bytecode.ofList js).size < 2 ^ 64) :
    assemble (text (Bytecode.ofList js).size (Bytecode.empty.layout js)) =
      .ok (Bytecode.ofList js) := by
  have hlayout := layout_text_layout hloc
  rw [assemble_eq_layout, hlayout]
  intro ss hss
  obtain ⟨ss', hss', hforms⟩ :=
    parse_eq_ok_iff.mpr ⟨lineForms_text _ _, nodup_labels_textLines js⟩
  obtain rfl : ss' = ss := Except.ok.inj (hss'.symm.trans hss)
  have hencode : encode ss' = .ok (Bytecode.ofList js) := by
    rwa [layout, hss'] at hlayout
  have hlabels := length_labels_textLines_le js
  have hlen := Bytecode.length_add_size_le Bytecode.empty js
  refine fits_of_encode hencode hfit.le ?_
  rw [hforms]
  change js.length + 0 ≤ (Bytecode.ofList js).size at hlen
  omega

/-- Code pushed from instructions whose locations are sizes of their first instructions, when it
has fewer than 2^64 bytewords, disassembles to the text of its layout. -/
theorem render_ofList {js : List (Instruction Nat)}
    (hloc : ∀ j ∈ js, ∀ t ∈ j.location, ∃ k ≤ js.length, t = (Bytecode.ofList (js.take k)).size)
    (hfit : (Bytecode.ofList js).size < 2 ^ 64) :
    render (Bytecode.ofList js) =
      .ok (text (Bytecode.ofList js).size (Bytecode.empty.layout js)) := by
  set l := Bytecode.empty.layout js
  have hlisting : listing (Bytecode.ofList js) = .ok l := by
    refine listing_ofList hfit.le fun j hj t ht => ?_
    obtain ⟨k, -, rfl⟩ := hloc j hj t ht
    exact Nat.lt_of_le_of_lt (Bytecode.size_ofList_take_le js k) hfit
  have hstray : strayTarget? (Bytecode.ofList js).size l = none := by
    refine strayTarget?_eq_none fun t ht => ?_
    obtain ⟨⟨p, j⟩, hpj, hjt⟩ := List.mem_filterMap.mp ht
    have hj : j ∈ js := by
      rw [← Bytecode.map_snd_layout Bytecode.empty js]
      exact List.mem_map_of_mem hpj
    obtain ⟨k, hk, rfl⟩ := hloc j hj t hjt
    exact Bytecode.size_take_eq_or_mem_layout hk
  simp [render, hlisting, bind, Except.bind, hstray, pure, Except.pure]

/-- Code that a text of fewer than 2^60 characters assembles to disassembles, and its text
assembles back to the same code. -/
theorem assemble_render_roundTrip {src : String} {c : Bytecode} (hlen : src.length < 2 ^ 60)
    (h : assemble src = .ok c) : ∃ t, render c = .ok t ∧ assemble t = .ok c := by
  rw [assemble_eq_layout_of_length hlen] at h
  have hfit := size_lt_of_layout hlen h
  obtain ⟨fs, -, -, -, rfl⟩ := forms_of_layout_eq_ok h
  set js := (Form.instructions fs).map (Instruction.map (Form.offset fs))
  change (Bytecode.ofList js).size < 2 ^ 64 at hfit
  have hloc : ∀ j ∈ js, ∀ t ∈ j.location,
      ∃ k ≤ js.length, t = (Bytecode.ofList (js.take k)).size :=
    fun j hj t ht => Form.location_relocate hj ht
  exact ⟨_, render_ofList hloc hfit, assemble_text_layout hloc hfit⟩

/-- A loop on its own label comes back from its disassembly. -/
theorem assemble_render_roundTrip_loop :
    ":top\njmp :top".length < 2 ^ 60 ∧
      assemble ":top\njmp :top" = .ok ⟨#[Opcode.jmp.tag, 0, 0, 0, 0, 0, 0, 0]⟩ ∧
      ∃ t, render ⟨#[Opcode.jmp.tag, 0, 0, 0, 0, 0, 0, 0]⟩ = .ok t ∧
        assemble t = .ok ⟨#[Opcode.jmp.tag, 0, 0, 0, 0, 0, 0, 0]⟩ :=
  have hlen : ":top\njmp :top".length < 2 ^ 60 := by decide
  have h : assemble ":top\njmp :top" = .ok ⟨#[Opcode.jmp.tag, 0, 0, 0, 0, 0, 0, 0]⟩ := by cbv
  ⟨hlen, h, assemble_render_roundTrip hlen h⟩

end Disassembly

end WindowVm
