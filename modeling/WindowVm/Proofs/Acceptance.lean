import WindowVm.Proofs.Operands
import WindowVm.Proofs.Encoding
import WindowVm.Assembly.Layout

/-!
# The texts the assembler accepts

`layout_eq_ok_iff`: a text lays out exactly when every line is in the grammar of `LineForm`,
no label name is defined twice and every location names a label, and the code is then
`Form.relocate` of the lines. The proof goes line by line (`Line.parse_eq_ok_iff`), then over
the lines with the names defined so far (`parse_eq_ok_iff`), then over the statements with the
offsets of all labels (`encode_eq_ok_iff`).
-/

namespace WindowVm.Assembly

/-- What a parsed line says, with names as characters and spans dropped. -/
def Statement.form : Statement → Form
  | .blank => .blank
  | .label name _ => .label name.toList
  | .instr i => .instr (i.map Ref.chars)

theorem lineForm_nil_iff {f : Form} : LineForm [] f ↔ f = .blank := by
  constructor
  · rintro ⟨⟩
    rfl
  · rintro rfl
    exact .blank

theorem lineForm_cons_iff {m : List Char} {ts : List (List Char)} {f : Form} :
    LineForm (m :: ts) f ↔
      (∃ n, m = ':' :: n ∧ ts = [] ∧ IsName n ∧ f = .label n) ∨
      (∃ i, m = i.opcode.mnemonic.toList ∧ i.opcode ≠ .sys ∧
        List.Forall₂ Denotes i.operands ts ∧ f = .instr i) ∨
      (∃ c ts', m = "sys".toList ∧ ts = c.syscall.mnemonic.toList :: ts' ∧
        List.Forall₂ Denotes (Instruction.sys c).operands ts' ∧ f = .instr (.sys c)) := by
  constructor
  · rintro (_ | ⟨hn⟩ | ⟨hi, hts⟩ | ⟨hts⟩)
    · exact .inl ⟨_, rfl, rfl, hn, rfl⟩
    · exact .inr (.inl ⟨_, rfl, hi, hts, rfl⟩)
    · exact .inr (.inr ⟨_, _, rfl, rfl, hts, rfl⟩)
  · rintro (⟨n, rfl, rfl, hn, rfl⟩ | ⟨i, rfl, hi, hts, rfl⟩ | ⟨c, ts', rfl, rfl, hts, rfl⟩)
    · exact .label hn
    · exact .instr hi hts
    · exact .sys hts

theorem Opcode.mnemonic_ne_label (o : Opcode) (n : List Char) :
    o.mnemonic.toList ≠ ':' :: n := by
  cases o <;> simp [Opcode.mnemonic]

theorem Opcode.eq_of_mnemonic {a b : Opcode} (h : a.mnemonic.toList = b.mnemonic.toList) :
    a = b := by
  have ha := Operands.opcode_lookup_iff.mpr (rfl : a.mnemonic.toList = a.mnemonic.toList)
  rw [h, Operands.opcode_lookup_iff.mpr rfl] at ha
  exact (Option.some.inj ha).symm

theorem expectEnd_eq_ok_iff {ts : List Token} {u : Unit} : expectEnd ts = .ok u ↔ ts = [] := by
  cases ts <;> simp [expectEnd]

theorem lineForm_sys_iff {ts : List (List Char)} {f : Form} :
    LineForm (Opcode.sys.mnemonic.toList :: ts) f ↔
      ∃ c ts', ts = c.syscall.mnemonic.toList :: ts' ∧
        List.Forall₂ Denotes (Instruction.sys c).operands ts' ∧ f = .instr (.sys c) := by
  rw [lineForm_cons_iff]
  constructor
  · rintro (⟨n, h, -⟩ | ⟨i, h, hi, -⟩ | h)
    · exact absurd h (Opcode.mnemonic_ne_label _ _)
    · exact absurd (Opcode.eq_of_mnemonic h).symm hi
    · obtain ⟨c, ts', -, h⟩ := h
      exact ⟨c, ts', h⟩
  · rintro ⟨c, ts', h⟩
    exact .inr (.inr ⟨c, ts', rfl, h⟩)

theorem lineForm_opcode_iff {op : Opcode} (hop : op ≠ .sys) {ts : List (List Char)} {f : Form} :
    LineForm (op.mnemonic.toList :: ts) f ↔
      ∃ j : Instruction (List Char), j.opcode = op ∧ List.Forall₂ Denotes j.operands ts ∧
        f = .instr j := by
  rw [lineForm_cons_iff]
  constructor
  · rintro (⟨n, h, -⟩ | ⟨j, h, -, hts, rfl⟩ | ⟨c, ts', h, -⟩)
    · exact absurd h (Opcode.mnemonic_ne_label _ _)
    · exact ⟨j, (Opcode.eq_of_mnemonic h).symm, hts, rfl⟩
    · exact absurd (Opcode.eq_of_mnemonic (b := .sys) h) hop
  · rintro ⟨j, rfl, hts, rfl⟩
    exact .inr (.inl ⟨j, rfl, hop, hts, rfl⟩)

/-- The operands after an opcode other than `sys`, up to the line end. -/
theorem instructionLine_iff {stop : Nat} {op : Opcode} (hop : op ≠ .sys) {rest : List Token}
    {f : Form} :
    (∃ i, Operands.instruction stop op rest = .ok (i, []) ∧ .instr (i.map Ref.chars) = f) ↔
      ∃ j : Instruction (List Char), j.opcode = op ∧
        List.Forall₂ Denotes j.operands (rest.map Token.text) ∧ f = .instr j := by
  constructor
  · rintro ⟨i, h, rfl⟩
    have hi := Operands.opcode_of_instruction_eq_ok h
    have hj : (i.map Ref.chars).opcode ≠ .sys := by simpa [hi] using hop
    refine ⟨i.map Ref.chars, by simp [hi], ?_, rfl⟩
    rw [← Operands.writes_nil_iff, ← Operands.instruction_eq_ok_iff hj]
    exact ⟨i, by simpa [hi] using h, rfl⟩
  · rintro ⟨j, rfl, hts, rfl⟩
    obtain ⟨i, h, rfl⟩ := (Operands.instruction_eq_ok_iff hop).mpr (Operands.writes_nil_iff.mpr hts)
    exact ⟨i, h, rfl⟩

/-- A system call and its operands after `sys`, up to the line end. -/
theorem systemCallLine_iff {stop : Nat} {rest : List Token} {f : Form} :
    (∃ i, Operands.instruction stop .sys rest = .ok (i, []) ∧ .instr (i.map Ref.chars) = f) ↔
      ∃ c ts', rest.map Token.text = c.syscall.mnemonic.toList :: ts' ∧
        List.Forall₂ Denotes (Instruction.sys c).operands ts' ∧ f = .instr (.sys c) := by
  simp only [Operands.instruction, Operands.bind_eq_ok_iff, Operands.pure_eq_ok_iff]
  constructor
  · rintro ⟨_, ⟨c, _, h, rfl, rfl⟩, rfl⟩
    obtain ⟨t, mid, rfl, ht, hw⟩ := Operands.systemCall_eq_ok_iff.mp h
    exact ⟨c, mid.map Token.text, by simp [ht], Operands.writes_nil_iff.mp hw, rfl⟩
  · rintro ⟨c, ts', hts, hd, rfl⟩
    obtain ⟨t, mid, rfl, ht, rfl⟩ := List.map_eq_cons_iff.mp hts
    exact ⟨.sys c, ⟨c, [], Operands.systemCall_eq_ok_iff.mpr
      ⟨t, mid, rfl, ht, Operands.writes_nil_iff.mpr hd⟩, rfl, rfl⟩, rfl⟩

theorem Line.parse_eq_ok_iff {defined : List String} {l : Line} {f : Form} :
    (∃ st, l.parse defined = .ok st ∧ st.form = f) ↔
      LineForm (tokensOf l.chars) f ∧ ∀ n, f = .label n → String.ofList n ∉ defined := by
  rw [← l.tokens_texts]
  unfold Line.parse
  cases l.tokens with
  | nil =>
    simp only [List.map_nil, lineForm_nil_iff]
    constructor
    · rintro ⟨st, h, rfl⟩
      cases h
      exact ⟨rfl, fun n h => nomatch h⟩
    · rintro ⟨rfl, -⟩
      exact ⟨.blank, rfl, rfl⟩
  | cons t rest =>
    simp only [List.map_cons]
    generalize t.text = m
    split
    · rename_i n
      have hnot (o : Opcode) : ':' :: n ≠ o.mnemonic.toList := (Opcode.mnemonic_ne_label o n).symm
      have hsys : ':' :: n ≠ "sys".toList := hnot .sys
      simp only [lineForm_cons_iff, List.cons.injEq, true_and, List.map_eq_nil_iff,
        exists_eq_left', hnot, hsys, false_and, exists_false, or_false]
      constructor
      · rintro ⟨st, h, rfl⟩
        split at h
        · cases h
        · rename_i hn
          split at h
          · cases h
          · rename_i hd
            cases rest with
            | cons => cases h
            | nil =>
              cases h
              simp_all [Statement.form, isName_iff]
      · rintro ⟨⟨rfl, hn, rfl⟩, hfresh⟩
        refine ⟨.label (String.ofList n) t.span, ?_, by simp [Statement.form]⟩
        simp [isName_iff.mpr hn, hfresh n rfl, expectEnd]
    · rename_i hm
      generalize hop : (if isMnemonic m = true then Opcode.ofMnemonic? (String.ofList m)
        else none) = op at *
      rcases op with _ | op
      · simp only [reduceCtorEq, false_and, exists_false, false_iff, lineForm_cons_iff]
        rintro ⟨⟨n, h, -⟩ | ⟨i, rfl, -⟩ | ⟨c, ts', h, -⟩, -⟩
        · exact hm n h
        · rw [Operands.opcode_lookup_iff.mpr rfl] at hop
          cases hop
        · rw [h, (Operands.opcode_lookup_iff (m := "sys".toList) (o := .sys)).mpr rfl] at hop
          cases hop
      · obtain rfl := Operands.opcode_lookup_iff.mp hop
        simp only [pure, Except.pure, Except.bind_eq_ok_iff, expectEnd_eq_ok_iff, Except.ok.injEq,
          exists_const, Prod.exists, existsAndEq, true_and, Statement.form,
          exists_exists_and_eq_and]
        by_cases hsys : op = .sys
        · subst hsys
          rw [systemCallLine_iff, lineForm_sys_iff, and_iff_left_of_imp]
          rintro ⟨c, ts', -, -, rfl⟩ n ⟨⟩
        · rw [instructionLine_iff hsys, lineForm_opcode_iff hsys, and_iff_left_of_imp]
          rintro ⟨j, -, -, rfl⟩ n ⟨⟩

namespace Form

theorem labels_cons (f : Form) (fs : List Form) : labels (f :: fs) = labels [f] ++ labels fs := by
  cases f <;> rfl

theorem mem_labels_singleton {f : Form} {n : List Char} : n ∈ labels [f] ↔ f = .label n := by
  cases f <;> simp [labels, eq_comm]

theorem nodup_labels_singleton (f : Form) : (labels [f]).Nodup := by
  cases f <;> simp [labels]

end Form

/-- The names a statement adds to those defined. -/
theorem parseStep_eq_ok_iff {d : List String} {acc : List Statement} {l : Line}
    {r : List String × List Statement} :
    parseStep (d, acc) l = .ok r ↔
      ∃ st, l.parse d = .ok st ∧ r = ((Form.labels [st.form]).map String.ofList ++ d, st :: acc) := by
  simp only [parseStep, Except.bind_eq_ok_iff]
  constructor
  · rintro ⟨st, h, hr⟩
    refine ⟨st, h, ?_⟩
    cases st <;> simp_all [pure, Except.pure, Statement.form, Form.labels]
  · rintro ⟨st, h, rfl⟩
    refine ⟨st, h, ?_⟩
    cases st <;> simp [pure, Except.pure, Statement.form, Form.labels]

/-- What the lines read so far say: each line is in the grammar, and the labels are new. -/
theorem foldlM_parseStep_sound {ls : List Line} {d d' : List String} {acc out : List Statement}
    (h : ls.foldlM parseStep (d, acc) = .ok (d', out)) :
    ∃ ss : List Statement, out = ss.reverse ++ acc ∧
      List.Forall₂ (fun l f => LineForm (tokensOf l.chars) f) ls (ss.map Statement.form) ∧
      (Form.labels (ss.map Statement.form)).Nodup ∧
      ∀ n ∈ Form.labels (ss.map Statement.form), String.ofList n ∉ d := by
  induction ls generalizing d acc with
  | nil =>
    cases h
    exact ⟨[], rfl, .nil, List.nodup_nil, by simp [Form.labels]⟩
  | cons l ls ih =>
    rw [List.foldlM_cons, Except.bind_eq_ok_iff] at h
    obtain ⟨_, hstep, hrest⟩ := h
    obtain ⟨st, hst, rfl⟩ := parseStep_eq_ok_iff.mp hstep
    obtain ⟨ss, rfl, hforms, hnodup, hfresh⟩ := ih hrest
    have hline := Line.parse_eq_ok_iff.mp ⟨st, hst, rfl⟩
    refine ⟨st :: ss, by simp, .cons hline.1 hforms, ?_, ?_⟩
    · rw [List.map_cons, Form.labels_cons, List.nodup_append]
      refine ⟨Form.nodup_labels_singleton _, hnodup, ?_⟩
      rintro n hn m hm rfl
      exact hfresh n hm (List.mem_append_left _ (List.mem_map_of_mem hn))
    · rw [List.map_cons, Form.labels_cons]
      intro n hn
      rcases List.mem_append.mp hn with hn | hn
      · exact hline.2 n (Form.mem_labels_singleton.mp hn)
      · exact fun hd => hfresh n hn (List.mem_append_right _ hd)

/-- Lines in the grammar whose labels are new are all read, each into a statement of its form. -/
theorem foldlM_parseStep_complete {ls : List Line} {fs : List Form}
    (hforms : List.Forall₂ (fun l f => LineForm (tokensOf l.chars) f) ls fs) :
    ∀ {d : List String} {acc : List Statement}, (Form.labels fs).Nodup →
      (∀ n ∈ Form.labels fs, String.ofList n ∉ d) →
      ∃ (d' : List String) (ss : List Statement),
        ls.foldlM parseStep (d, acc) = .ok (d', ss.reverse ++ acc) ∧
        ss.map Statement.form = fs := by
  induction hforms with
  | nil =>
    intro d acc _ _
    exact ⟨d, [], rfl, rfl⟩
  | @cons l f ls fs hlf _ ih =>
    intro d acc hnodup hfresh
    rw [Form.labels_cons] at hnodup hfresh
    obtain ⟨-, hnodupRest, hdisjoint⟩ := List.nodup_append.mp hnodup
    obtain ⟨st, hst, rfl⟩ := Line.parse_eq_ok_iff.mpr ⟨hlf, fun n hn =>
      hfresh n (List.mem_append_left _ (Form.mem_labels_singleton.mpr hn))⟩
    have hfresh' : ∀ n ∈ Form.labels fs,
        String.ofList n ∉ (Form.labels [st.form]).map String.ofList ++ d := by
      intro n hn hd
      rcases List.mem_append.mp hd with hd | hd
      · obtain ⟨m, hm, he⟩ := List.mem_map.mp hd
        exact hdisjoint m hm n hn (String.ofList_injective he)
      · exact hfresh n (List.mem_append_right _ hn) hd
    obtain ⟨d', ss, hfold, rfl⟩ := @ih _ (st :: acc) hnodupRest hfresh'
    refine ⟨d', st :: ss, ?_, rfl⟩
    rw [List.foldlM_cons, parseStep_eq_ok_iff.mpr ⟨st, hst, rfl⟩, List.reverse_cons,
      List.append_assoc]
    exact hfold

/-- A text parses exactly when each of its lines is in the grammar and no label repeats; the
statements read say the forms of the lines. -/
theorem parse_eq_ok_iff {src : String} {fs : List Form} :
    (∃ ss, parse src = .ok ss ∧ ss.map Statement.form = fs) ↔
      List.Forall₂ LineForm ((src.toList.splitOn '\n').map tokensOf) fs ∧
        (Form.labels fs).Nodup := by
  rw [← lines_chars, List.map_map, List.forall₂_map_left_iff]
  constructor
  · rintro ⟨ss, h, rfl⟩
    unfold parse at h
    split at h
    · rename_i hfold
      cases h
      obtain ⟨ss, rfl, hforms, hnodup, -⟩ := foldlM_parseStep_sound hfold
      rw [List.append_nil, List.reverse_reverse]
      exact ⟨hforms, hnodup⟩
    · cases h
  · rintro ⟨hforms, hnodup⟩
    obtain ⟨d', ss, hfold, rfl⟩ :=
      @foldlM_parseStep_complete _ _ hforms [] [] hnodup (by simp)
    exact ⟨ss, by simp [parse, hfold], rfl⟩

/-- A reference resolves exactly when its name has an offset. -/
theorem resolve_eq_ok_iff {o : List (String × Nat)} {i : Instruction Ref} {j : Instruction Nat} :
    resolve o i = .ok j ↔
      (∀ r ∈ i.location, (o.lookup r.name).isSome) ∧ j = i.map fun r => (o.lookup r.name).getD 0 := by
  unfold resolve
  cases hloc : i.location with
  | none =>
    have hmap : i.map (fun _ => 0) = i.map fun r => (o.lookup r.name).getD 0 :=
      Instruction.map_congr (by simp [hloc])
    constructor
    · intro h
      cases h
      exact ⟨by simp, hmap⟩
    · rintro ⟨-, rfl⟩
      rw [hmap]
  | some r =>
    dsimp only
    cases hl : o.lookup r.name with
    | none =>
      simp only [reduceCtorEq, false_iff, not_and]
      intro h
      simpa [hl] using h r rfl
    | some n =>
      have hmap : i.map (fun _ => n) = i.map fun r => (o.lookup r.name).getD 0 :=
        Instruction.map_congr (by simp [hloc, hl])
      have hsome : ∀ r' ∈ some r, (o.lookup r'.name).isSome := by
        intro r' hr
        cases Option.mem_some_iff.mp hr
        rw [hl]
        rfl
      constructor
      · intro h
        cases h
        exact ⟨hsome, hmap⟩
      · rintro ⟨-, rfl⟩
        rw [← hmap]

/-- The code pushed for the statements: their instructions in order, each location replaced by
the offset its name has in `o`, when every location names one. -/
theorem foldlM_encodeStep_eq_ok_iff {o : List (String × Nat)} {ss : List Statement}
    {c₀ c : Bytecode} :
    ss.foldlM (encodeStep o) c₀ = .ok c ↔
      (∀ i ∈ Form.instructions (ss.map Statement.form), ∀ n ∈ i.location,
        (o.lookup (String.ofList n)).isSome) ∧
      c = ((Form.instructions (ss.map Statement.form)).map
        (Instruction.map fun n => (o.lookup (String.ofList n)).getD 0)).foldl Bytecode.push c₀ := by
  induction ss generalizing c₀ with
  | nil =>
    simp only [List.foldlM_nil, List.map_nil, Form.instructions, List.not_mem_nil,
      false_imp_iff, implies_true, true_and, List.foldl_nil]
    constructor
    · intro h
      cases h
      rfl
    · rintro rfl
      rfl
  | cons s ss ih =>
    cases s with
    | blank | label _ _ => simpa [encodeStep, Statement.form, Form.instructions] using ih
    | instr i =>
      have hmap : (i.map Ref.chars).map (fun n => (o.lookup (String.ofList n)).getD 0) =
          i.map fun r => (o.lookup r.name).getD 0 := by
        rw [Instruction.map_map]
        congr
        funext r
        simp [Ref.chars]
      have hdefined : (∀ n ∈ i.location.map Ref.chars, (o.lookup (String.ofList n)).isSome) ↔
          ∀ r ∈ i.location, (o.lookup r.name).isSome := by
        cases i.location <;> simp [Ref.chars]
      simp only [List.foldlM_cons, encodeStep, Except.bind_eq_ok_iff, List.map_cons,
        Statement.form, Form.instructions, List.forall_mem_cons, List.foldl_cons, hmap,
        Instruction.location_map, hdefined, pure, Except.pure, Except.ok.injEq]
      constructor
      · rintro ⟨_, ⟨j, hj, rfl⟩, hrest⟩
        obtain ⟨hdef, rfl⟩ := resolve_eq_ok_iff.mp hj
        exact ⟨⟨hdef, (ih.mp hrest).1⟩, (ih.mp hrest).2⟩
      · rintro ⟨⟨hdef, hss⟩, hc⟩
        exact ⟨_, ⟨_, resolve_eq_ok_iff.mpr ⟨hdef, rfl⟩, rfl⟩, ih.mpr ⟨hss, hc⟩⟩

/-- A label's offset is the size of the code of the instructions above its first label line,
pushed after `c`. -/
theorem lookup_labelOffsets {ss : List Statement} {c : Bytecode} {name : String} :
    (labelOffsets ss c.size).lookup name =
      if name.toList ∈ Form.labels (ss.map Statement.form) then
        some ((((Form.instructions ((ss.map Statement.form).takeWhile
          (· ≠ .label name.toList))).map (Instruction.map fun _ => 0)).foldl Bytecode.push c).size)
      else none := by
  induction ss generalizing c with
  | nil => simp [labelOffsets, Form.labels]
  | cons s ss ih =>
    cases s with
    | blank => simpa [labelOffsets, Statement.form, Form.labels, Form.instructions] using ih
    | label name' span =>
      by_cases h : name = name'
      · subst h
        simp [labelOffsets, Statement.form, Form.labels, Form.instructions]
      · have hne : name'.toList ≠ name.toList := fun e => h (String.toList_inj.mp e).symm
        have hb : (name == name') = false := beq_eq_false_iff_ne.mpr h
        simpa [labelOffsets, Statement.form, Form.labels, Form.instructions, List.lookup, hb, hne,
          Ne.symm hne] using ih
    | instr i =>
      have hsize : i.pieces.foldl Bytecode.pieceSize c.size = (c.push (i.map fun _ => 0)).size := by
        rw [Bytecode.size_push, Bytecode.foldl_pieceSize_map]
      simp only [labelOffsets, hsize, ih]
      simp [Statement.form, Form.labels, Form.instructions, Instruction.map_map, Function.comp_def]

/-- Encoding succeeds exactly when every location names a label, and gives the relocated code. -/
theorem encode_eq_ok_iff {ss : List Statement} {c : Bytecode} :
    encode ss = .ok c ↔
      (∀ i ∈ Form.instructions (ss.map Statement.form), ∀ n ∈ i.location,
        n ∈ Form.labels (ss.map Statement.form)) ∧
      c = Form.relocate (ss.map Statement.form) := by
  have hlookup (n : List Char) : (labelOffsets ss 0).lookup (String.ofList n) =
      if n ∈ Form.labels (ss.map Statement.form) then
        some (Form.offset (ss.map Statement.form) n)
      else none := by
    have := @lookup_labelOffsets ss Bytecode.empty (String.ofList n)
    simpa [String.toList_ofList, Form.offset, Bytecode.ofList, Bytecode.size, Bytecode.empty]
      using this
  have hcode : (∀ i ∈ Form.instructions (ss.map Statement.form), ∀ n ∈ i.location,
      n ∈ Form.labels (ss.map Statement.form)) →
      ((Form.instructions (ss.map Statement.form)).map (Instruction.map fun n =>
        ((labelOffsets ss 0).lookup (String.ofList n)).getD 0)).foldl Bytecode.push
          Bytecode.empty = Form.relocate (ss.map Statement.form) := by
    intro hdef
    unfold Form.relocate Bytecode.ofList
    congr 1
    refine List.map_congr_left fun i hi => Instruction.map_congr fun n hn => ?_
    simp [hlookup, hdef i hi n hn]
  unfold encode
  rw [foldlM_encodeStep_eq_ok_iff]
  simp only [hlookup, Option.isSome_ite] at hcode ⊢
  constructor
  · rintro ⟨hdef, rfl⟩
    exact ⟨hdef, hcode hdef⟩
  · rintro ⟨hdef, rfl⟩
    exact ⟨hdef, (hcode hdef).symm⟩

/-- The grammar of a text that lays out: every line is in `LineForm`, the labels are distinct and
every location names one; the code is the relocated encoding of the lines. -/
theorem forms_of_layout_eq_ok {src : String} {c : Bytecode} (h : layout src = .ok c) :
    ∃ fs : List Form, List.Forall₂ LineForm ((src.toList.splitOn '\n').map tokensOf) fs ∧
      (Form.labels fs).Nodup ∧
      (∀ i ∈ Form.instructions fs, ∀ n ∈ i.location, n ∈ Form.labels fs) ∧
      c = Form.relocate fs := by
  obtain ⟨ss, hparse, hencode⟩ := Except.bind_eq_ok_iff.mp h
  obtain ⟨hlines, hnodup⟩ := parse_eq_ok_iff.mp ⟨ss, hparse, rfl⟩
  obtain ⟨hdefined, rfl⟩ := encode_eq_ok_iff.mp hencode
  exact ⟨_, hlines, hnodup, hdefined, rfl⟩

/-- A text whose lines are in the grammar, with distinct labels that every location names,
lays out to the relocated encoding of its lines. -/
theorem layout_eq_ok_of_forms {src : String} {fs : List Form}
    (hlines : List.Forall₂ LineForm ((src.toList.splitOn '\n').map tokensOf) fs)
    (hnodup : (Form.labels fs).Nodup)
    (hdefined : ∀ i ∈ Form.instructions fs, ∀ n ∈ i.location, n ∈ Form.labels fs) :
    layout src = .ok (Form.relocate fs) := by
  obtain ⟨ss, hparse, rfl⟩ := parse_eq_ok_iff.mpr ⟨hlines, hnodup⟩
  exact Except.bind_eq_ok_iff.mpr ⟨ss, hparse, encode_eq_ok_iff.mpr ⟨hdefined, rfl⟩⟩

/-- A text lays out exactly when each of its lines is in the grammar, no label name is defined
twice and every location names a label; the code is then the relocated encoding of the lines. -/
theorem layout_eq_ok_iff {src : String} {c : Bytecode} :
    layout src = .ok c ↔
      ∃ fs : List Form, List.Forall₂ LineForm ((src.toList.splitOn '\n').map tokensOf) fs ∧
        (Form.labels fs).Nodup ∧
        (∀ i ∈ Form.instructions fs, ∀ n ∈ i.location, n ∈ Form.labels fs) ∧
        c = Form.relocate fs := by
  constructor
  · exact forms_of_layout_eq_ok
  · rintro ⟨fs, hlines, hnodup, hdefined, rfl⟩
    exact layout_eq_ok_of_forms hlines hnodup hdefined

end WindowVm.Assembly
