import WindowVm.Proofs.Lexing
import WindowVm.Proofs.Operands
import WindowVm.Disassembly

/-!
# Printed text is in the grammar

The disassembler prints numbers as numerals of their values, locations as labels `:sN` named by
their offsets, and the operands of an instruction after its mnemonic, one space before each.
Every such line is a line of the assembly grammar (`Instruction.lineForm_text`), and the text
of a listing is its lines, each with a line feed (`Disassembly.lineForms_text`).
-/

namespace WindowVm.Assembly

theorem toDigits_ten_digits (n : Nat) : ∀ d ∈ Nat.toDigits 10 n, d.isDigit :=
  fun _ hd => Nat.isDigit_of_mem_toDigits (by decide) (by decide) hd

/-- A natural number is printed as the numeral of its value. -/
theorem numeral_toString_nat (n : Nat) : Numeral (toString n).toList n :=
  ⟨Nat.toDigits 10 n, Nat.toDigits_ne_nil, toDigits_ten_digits n,
    .inl ⟨.inl (by simp), by rw [Nat.ofDigitChars_ten_toDigits]⟩⟩

/-- An integer is printed as the numeral of its value, with `-` when it is negative. -/
theorem numeral_toString_int (i : Int) : Numeral (toString i).toList i := by
  rw [Int.toString_eq_repr, Int.repr_eq_if]
  split
  · refine ⟨Nat.toDigits 10 i.toNat, Nat.toDigits_ne_nil, toDigits_ten_digits _,
      .inl ⟨.inl (by simp), ?_⟩⟩
    rw [Nat.ofDigitChars_ten_toDigits]
    omega
  · refine ⟨Nat.toDigits 10 (-i).toNat, Nat.toDigits_ne_nil, toDigits_ten_digits _,
      .inr ⟨by simp, ?_⟩⟩
    rw [Nat.ofDigitChars_ten_toDigits]
    omega

/-- The integer operands read exactly their language: a signed 64-bit integer is an optional
sign and decimal digits denoting a value in range, a byteword such a numeral of a value in
`0 .. 65535`, and the printed value of every signed word and every byteword reads back as
itself. -/
theorem integerOperand_language :
    (∀ (t : List Char) (v : Int), parseInteger t = some v ↔
      Numeral t v ∧ -9223372036854775808 ≤ v ∧ v < 9223372036854775808) ∧
    (∀ (t : List Char) (v : Int), (∃ b, parseHalf t = some b ∧ (b.toNat : Int) = v) ↔
      Numeral t v ∧ 0 ≤ v ∧ v ≤ 65535) ∧
    (∀ w : Word, parseInteger (toString w.toInt).toList = some w.toInt) ∧
    ∀ b : Byteword, parseHalf (toString b.toNat).toList = some b := by
  refine ⟨fun _ _ => parseInteger_eq_some_iff, fun t v => ?_,
    fun w => parseInteger_eq_some_iff.mpr ⟨numeral_toString_int _, w.toInt_mem⟩,
    fun b => parseHalf_eq_some_iff.mpr (numeral_toString_nat _)⟩
  constructor
  · rintro ⟨b, hb, rfl⟩
    have hlt := b.toNat_lt
    exact ⟨parseHalf_eq_some_iff.mp hb, by omega, by omega⟩
  · rintro ⟨hn, h₀, h₁⟩
    have hv : ((UInt16.ofNat v.toNat).toNat : Int) = v := by
      simp
      omega
    refine ⟨UInt16.ofNat v.toNat, parseHalf_eq_some_iff.mpr ?_, hv⟩
    rw [hv]
    exact hn

example : parseInteger "-9223372036854775808".toList = some (-9223372036854775808) := by decide

example : parseInteger "9223372036854775808".toList = none := by decide

theorem isName_placeLabel (n : Nat) : IsName (placeLabel n).toList := by
  refine ⟨⟨'s', (toString n).toList, by simp [placeLabel], by decide⟩, ?_⟩
  simp only [placeLabel, String.toList_append, List.mem_append]
  rintro d (hd | hd)
  · simp at hd
    simp [hd]
  · simp at hd
    simp [Char.isAlphanum, toDigits_ten_digits n d hd]

theorem placeLabel_injective {m n : Nat} (h : (placeLabel m).toList = (placeLabel n).toList) :
    m = n := by
  have hdigits : Nat.toDigits 10 m = Nat.toDigits 10 n := by simpa [placeLabel] using h
  have := congrArg (Nat.ofDigitChars 10 · 0) hdigits
  simpa only [Nat.ofDigitChars_ten_toDigits] using this

theorem isSeparator_iff {d : Char} :
    isSeparator d = true ↔ d = ' ' ∨ d = '\t' ∨ d = '\n' ∨ d = '\x0C' ∨ d = '\r' := by
  simp [isSeparator, or_assoc]

theorem isSeparator_eq_false {d : Char} (h : d.isAlphanum = true ∨ d = '_') :
    isSeparator d = false := by
  by_contra hs
  rw [Bool.not_eq_false, isSeparator_iff] at hs
  rcases hs with rfl | rfl | rfl | rfl | rfl <;> revert h <;> decide

/-- A token: a non-empty run of characters that are not separators. -/
def IsToken (t : List Char) : Prop := t ≠ [] ∧ ∀ d ∈ t, isSeparator d = false


theorem IsToken.cons {c : Char} {t : List Char} (hc : isSeparator c = false) (ht : IsToken t) :
    IsToken (c :: t) := by
  refine ⟨List.cons_ne_nil _ _, fun d hd => ?_⟩
  rcases List.mem_cons.mp hd with rfl | hd
  · exact hc
  · exact ht.2 d hd

theorem isToken_of_digits {ds : List Char} (hne : ds ≠ []) (hdig : ∀ d ∈ ds, d.isDigit) :
    IsToken ds :=
  ⟨hne, fun d hd => isSeparator_eq_false (.inl (by simp [Char.isAlphanum, hdig d hd]))⟩

theorem Numeral.isToken {t : List Char} {v : Int} (h : Numeral t v) : IsToken t := by
  obtain ⟨ds, hne, hdig, ⟨rfl | rfl, -⟩ | ⟨rfl, -⟩⟩ := h
  · exact isToken_of_digits hne hdig
  · exact (isToken_of_digits hne hdig).cons (by decide)
  · exact (isToken_of_digits hne hdig).cons (by decide)

theorem IsName.isToken {n : List Char} (h : IsName n) : IsToken n := by
  obtain ⟨⟨c, cs, rfl, -⟩, hchars⟩ := h
  exact ⟨List.cons_ne_nil _ _, fun d hd => isSeparator_eq_false (hchars d hd)⟩

/-- Whatever writes an operand is a single token. -/
theorem Denotes.isToken {o : Operand (List Char)} {t : List Char} (h : Denotes o t) :
    IsToken t := by
  cases o with
  | imb _ | imw _ => exact Numeral.isToken h
  | reg r =>
    obtain ⟨u, rfl, hu⟩ := h
    exact hu.isToken.cons (by decide)
  | loc n =>
    obtain ⟨rfl, hn⟩ := h
    exact hn.isToken.cons (by decide)

/-- A run of tokens, each after one space, follows a token. -/
theorem tokensOf_spaced {w : List Char} (hw : IsToken w) {ts : List (List Char)}
    (hts : ∀ t ∈ ts, IsToken t) : tokensOf (w ++ ts.flatMap (' ' :: ·)) = w :: ts := by
  induction ts generalizing w with
  | nil => simpa using tokensOf_run hw.1 hw.2
  | cons t ts ih =>
    have hrest := ih (hts t (by simp)) (fun u hu => hts u (by simp [hu]))
    rw [List.flatMap_cons, List.cons_append, tokensOf_run_separator hw.1 hw.2 (c := ' ') (by decide),
      hrest]

theorem IsToken.newline_not_mem {t : List Char} (h : IsToken t) : '\n' ∉ t :=
  fun hn => absurd (h.2 _ hn) (by decide)

/-- Tokens joined by single spaces hold no line feed. -/
theorem newline_not_mem_spaced {w : List Char} (hw : IsToken w) {ts : List (List Char)}
    (hts : ∀ t ∈ ts, IsToken t) : '\n' ∉ w ++ ts.flatMap (' ' :: ·) := by
  simp only [List.mem_append, List.mem_flatMap, List.mem_cons, not_or, not_exists, not_and]
  exact ⟨hw.newline_not_mem, fun t ht => ⟨by decide, (hts t ht).newline_not_mem⟩⟩

theorem tokensOf_indent (s : String) : tokensOf ("    " ++ s).toList = tokensOf s.toList := by
  simp [tokensOf_cons_separator (c := ' ') (by decide)]

end WindowVm.Assembly

namespace WindowVm

namespace Operand

/-- The operand with `f` applied to its location. -/
def map {L L' : Type} (f : L → L') : Operand L → Operand L'
  | imb v => imb v
  | imw w => imw w
  | reg r => reg r
  | loc l => loc (f l)

/-- How the disassembler prints an operand, a location as the label of its offset. -/
def text : Operand Nat → String
  | imb v => toString v.toNat
  | imw w => toString w.toInt
  | reg r => "%" ++ toString r.toNat
  | loc l => ":" ++ placeLabel l

theorem denotes_text (o : Operand Nat) :
    Assembly.Denotes (o.map fun l => (placeLabel l).toList) o.text.toList := by
  cases o with
  | imb v => exact Assembly.numeral_toString_nat _
  | imw w => exact Assembly.numeral_toString_int _
  | reg r => exact ⟨_, by simp [text], Assembly.numeral_toString_nat _⟩
  | loc l => exact ⟨by simp [text], Assembly.isName_placeLabel l⟩

theorem isToken_text (o : Operand Nat) : Assembly.IsToken o.text.toList :=
  o.denotes_text.isToken

end Operand

theorem Opcode.isToken_mnemonic (o : Opcode) : Assembly.IsToken o.mnemonic.toList := by
  cases o <;> simp [Assembly.IsToken, Assembly.isSeparator, Opcode.mnemonic]

theorem Syscall.isToken_mnemonic (s : Syscall) : Assembly.IsToken s.mnemonic.toList := by
  cases s <;> simp [Assembly.IsToken, Assembly.isSeparator, Syscall.mnemonic]

theorem isToken_sys : Assembly.IsToken "sys".toList := by
  simp [Assembly.IsToken, Assembly.isSeparator]

namespace Instruction

theorem operands_map {L L' : Type} (f : L → L') (i : Instruction L) :
    (i.map f).operands = i.operands.map (Operand.map f) := by
  cases i <;> simp [map, operands, Operand.map]

/-- Apart from `sys`, an instruction is printed as its mnemonic and its operands. -/
theorem text_toList {i : Instruction Nat} (h : i.opcode ≠ .sys) :
    i.text.toList = i.opcode.mnemonic.toList ++
      (i.operands.map fun o => o.text.toList).flatMap (' ' :: ·) := by
  cases i <;> simp_all [text, reg, imm, place, opcode, operands, Operand.text, Opcode.mnemonic,
    BinaryOp.opcode]

theorem sys_text_toList (c : SystemCall) :
    (sys c).text.toList = "sys".toList ++
      (c.syscall.mnemonic.toList :: (sys c).operands.map fun o => o.text.toList).flatMap
        (' ' :: ·) := by
  cases c <;> simp [text, SystemCall.text, operands, SystemCall.registers, Operand.text]

theorem isToken_operands (i : Instruction Nat) :
    ∀ t ∈ i.operands.map fun o => o.text.toList, Assembly.IsToken t := by
  simp only [List.mem_map]
  rintro t ⟨o, -, rfl⟩
  exact o.isToken_text

/-- A printed instruction line is an instruction line of the grammar, each location written as
the label of its offset. -/
theorem lineForm_text (i : Instruction Nat) :
    Assembly.LineForm (Assembly.tokensOf ("    " ++ i.text).toList)
      (.instr (i.map fun l => (placeLabel l).toList)) := by
  have hden : List.Forall₂ Assembly.Denotes (i.map fun l => (placeLabel l).toList).operands
      (i.operands.map fun o => o.text.toList) := by
    rw [operands_map, List.forall₂_map_left_iff, List.forall₂_map_right_iff, List.forall₂_same]
    exact fun o _ => o.denotes_text
  rw [Assembly.tokensOf_indent]
  by_cases hsys : i.opcode = .sys
  · cases i with
    | sys c =>
      rw [sys_text_toList, Assembly.tokensOf_spaced isToken_sys
        (List.forall_mem_cons.mpr ⟨c.syscall.isToken_mnemonic, isToken_operands _⟩)]
      exact .sys hden
    | binary op a b c => cases op <;> simp [opcode, BinaryOp.opcode] at hsys
    | _ => simp [opcode] at hsys
  · rw [text_toList hsys, Assembly.tokensOf_spaced i.opcode.isToken_mnemonic (isToken_operands i)]
    have hform := Assembly.LineForm.instr (i := i.map fun l => (placeLabel l).toList)
      (by simpa using hsys) hden
    rwa [opcode_map] at hform

theorem newline_not_mem_text (i : Instruction Nat) : '\n' ∉ i.text.toList := by
  by_cases hsys : i.opcode = .sys
  · cases i with
    | sys c =>
      rw [sys_text_toList]
      exact Assembly.newline_not_mem_spaced isToken_sys
        (List.forall_mem_cons.mpr ⟨c.syscall.isToken_mnemonic, isToken_operands _⟩)
    | binary op a b c => cases op <;> simp [opcode, BinaryOp.opcode] at hsys
    | _ => simp [opcode] at hsys
  · rw [text_toList hsys]
    exact Assembly.newline_not_mem_spaced i.opcode.isToken_mnemonic (isToken_operands i)

end Instruction

namespace Disassembly

/-- A line of a disassembly text: the label of an offset, or an instruction. -/
inductive TextLine where
  | label (n : Nat)
  | instr (i : Instruction Nat)

namespace TextLine

/-- The line, without its line feed. -/
def text : TextLine → String
  | label n => ":" ++ placeLabel n
  | instr i => "    " ++ i.text

/-- What the assembler reads in the line: a location is the name of its offset's label. -/
def form : TextLine → Assembly.Form
  | label n => .label (placeLabel n).toList
  | instr i => .instr (i.map fun l => (placeLabel l).toList)

theorem isToken_label (n : Nat) : Assembly.IsToken (':' :: (placeLabel n).toList) :=
  (Assembly.isName_placeLabel n).isToken.cons (by decide)

theorem lineForm (x : TextLine) : Assembly.LineForm (Assembly.tokensOf x.text.toList) x.form := by
  cases x with
  | label n =>
    have htoken := isToken_label n
    simp only [text, form, String.toList_append]
    rw [show (":".toList ++ (placeLabel n).toList) = ':' :: (placeLabel n).toList by simp,
      Assembly.tokensOf_run htoken.1 htoken.2]
    exact .label (Assembly.isName_placeLabel n)
  | instr i => exact i.lineForm_text

theorem newline_not_mem (x : TextLine) : '\n' ∉ x.text.toList := by
  cases x with
  | label n => simpa [text] using (isToken_label n).newline_not_mem
  | instr i => simpa [text] using i.newline_not_mem_text

end TextLine

/-- The lines of the instructions of `l`, each after the label of its offset when `T` holds
that offset. -/
def entryLines (T : List Nat) (l : List (Nat × Instruction Nat)) : List TextLine :=
  l.flatMap fun p => (if T.contains p.1 then [.label p.1] else []) ++ [.instr p.2]

/-- The lines of the text of a listing: each instruction, after the label of its offset when a
location names it, and last the label of the end when a location names the end. -/
def textLines (size : Nat) (l : List (Nat × Instruction Nat)) : List TextLine :=
  entryLines (targets l) l ++ if (targets l).contains size then [.label size] else []

theorem foldl_text_toList (ts : List Nat) (l : List (Nat × Instruction Nat)) (s : String) :
    (l.foldl (fun s p => (if p.1 ∈ ts then s ++ labelLine p.1 else s) ++ "    " ++
      p.2.text ++ "\n") s).toList =
      s.toList ++ (entryLines ts l).flatMap fun x => x.text.toList ++ ['\n'] := by
  induction l generalizing s with
  | nil => simp [entryLines]
  | cons p l ih =>
    rw [List.foldl_cons, ih]
    by_cases h : p.1 ∈ ts <;> simp [h, entryLines, labelLine, TextLine.text]

/-- The text of a listing is its lines, each ended by a line feed. -/
theorem text_toList (size : Nat) (l : List (Nat × Instruction Nat)) :
    (text size l).toList = (textLines size l).flatMap fun x => x.text.toList ++ ['\n'] := by
  have hlabel (n : Nat) : (labelLine n).toList = (TextLine.label n).text.toList ++ ['\n'] := by
    simp [labelLine, TextLine.text]
  unfold text textLines
  by_cases h : size ∈ targets l <;> simp [h, foldl_text_toList, hlabel]

theorem splitOn_flatMap_newline {xs : List (List Char)} (h : ∀ x ∈ xs, '\n' ∉ x) :
    (xs.flatMap (· ++ ['\n'])).splitOn '\n' = xs ++ [[]] := by
  induction xs with
  | nil => rfl
  | cons x xs ih =>
    rw [List.flatMap_cons, List.append_assoc, List.singleton_append,
      List.splitOn_append_cons_self_of_not_mem (h x (by simp)),
      ih (fun y hy => h y (by simp [hy]))]
    rfl

/-- Each line of the text of a listing is in the grammar, and the text ends with a blank line. -/
theorem lineForms_text (size : Nat) (l : List (Nat × Instruction Nat)) :
    List.Forall₂ Assembly.LineForm (((text size l).toList.splitOn '\n').map Assembly.tokensOf)
      ((textLines size l).map TextLine.form ++ [.blank]) := by
  have hlines : (text size l).toList.splitOn '\n' =
      (textLines size l).map (fun x => x.text.toList) ++ [[]] := by
    rw [text_toList, ← splitOn_flatMap_newline, List.flatMap_map]
    simpa using fun x _ => x.newline_not_mem
  rw [hlines, List.map_append, List.map_map]
  refine List.rel_append ?_ (.cons .blank .nil)
  rw [List.forall₂_map_left_iff, List.forall₂_map_right_iff, List.forall₂_same]
  exact fun x _ => x.lineForm

end Disassembly

end WindowVm
