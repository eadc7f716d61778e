import WindowVm.Assembly.Token
import WindowVm.Assembly.Operand
import WindowVm.Bytecode
import Mathlib

/-!
# The line grammar of assembly text

A declarative reading of what the assembler accepts, written without its cursor. A text is split
at line feeds; a line's tokens are its maximal runs of characters other than the five separators.
A line is blank, a label `:name`, or a mnemonic followed by exactly the operands its table entry
lists, each written in the form of its kind. `Form.relocate` is the code such a text stands for:
the instructions in order, each location replaced by the size of the code before its label.
-/

namespace WindowVm

/-- An operand as assembly text writes it. -/
inductive Operand (L : Type) where
  | imb (v : Byteword)
  | imw (w : Word)
  | reg (r : Register)
  | loc (l : L)
deriving DecidableEq, Repr

namespace Instruction

/-- The operands of an instruction in table order; those of `sys` follow the name of its call. -/
def operands {L : Type} : Instruction L → List (Operand L)
  | nop => []
  | sys c => c.registers.map .reg
  | frm n => [.imb n]
  | arg r => [.reg r]
  | cas l => [.loc l]
  | res n => [.imb n]
  | ret r n => [.reg r, .imb n]
  | sca r w => [.reg r, .imw w]
  | loc r l => [.reg r, .loc l]
  | loa a b => [.reg a, .reg b]
  | sto a b => [.reg a, .reg b]
  | mov a b => [.reg a, .reg b]
  | jmp l => [.loc l]
  | jnz l r => [.loc l, .reg r]
  | binary _ a b c => [.reg a, .reg b, .reg c]

theorem map_congr {L L' : Type} {f g : L → L'} {i : Instruction L}
    (h : ∀ l ∈ i.location, f l = g l) : i.map f = i.map g := by
  cases i <;> simp_all [map, location]

theorem map_map {L L' L'' : Type} (f : L → L') (g : L' → L'') (i : Instruction L) :
    (i.map f).map g = i.map (g ∘ f) := by
  cases i <;> rfl

theorem map_id {L : Type} (i : Instruction L) : i.map (fun l => l) = i := by
  cases i <;> rfl

end Instruction

namespace Assembly

/-- The tokens of a line: its maximal runs of non-separators, in order. -/
def tokensOf (line : List Char) : List (List Char) :=
  (line.splitOnP isSeparator).filter (· ≠ [])

/-- `t` is `[+-]?[0-9]+`, and `v` is the integer it denotes. -/
def Numeral (t : List Char) (v : Int) : Prop :=
  ∃ ds, ds ≠ [] ∧ (∀ d ∈ ds, d.isDigit) ∧
    ((t = ds ∨ t = '+' :: ds) ∧ v = Nat.ofDigitChars 10 ds 0 ∨
      t = '-' :: ds ∧ v = -(Nat.ofDigitChars 10 ds 0 : Int))

/-- A symbol name: ASCII letters, digits and underscores, not empty, not starting with a digit. -/
def IsName (n : List Char) : Prop :=
  (∃ c cs, n = c :: cs ∧ c.isDigit = false) ∧ ∀ d ∈ n, d.isAlphanum ∨ d = '_'

/-- The token `t` writes the operand `o`: an immediate as a numeral of its value, a register as
`%` and a numeral of its index, a location as `:` and a label name. -/
def Denotes : Operand (List Char) → List Char → Prop
  | .imb v, t => Numeral t v.toNat
  | .imw w, t => Numeral t w.toInt
  | .reg r, t => ∃ u, t = '%' :: u ∧ Numeral u r.toNat
  | .loc n, t => t = ':' :: n ∧ IsName n

/-- What a line of assembly says. -/
inductive Form where
  | blank
  | label (name : List Char)
  | instr (i : Instruction (List Char))
deriving DecidableEq, Repr

/-- The token lists of the lines of the grammar, and what each says. -/
inductive LineForm : List (List Char) → Form → Prop
  | blank : LineForm [] .blank
  | label {n : List Char} : IsName n → LineForm [':' :: n] (.label n)
  | instr {i : Instruction (List Char)} {ts : List (List Char)} :
      i.opcode ≠ .sys → List.Forall₂ Denotes i.operands ts →
      LineForm (i.opcode.mnemonic.toList :: ts) (.instr i)
  | sys {c : SystemCall} {ts : List (List Char)} :
      List.Forall₂ Denotes (Instruction.sys c).operands ts →
      LineForm ("sys".toList :: c.syscall.mnemonic.toList :: ts) (.instr (.sys c))

namespace Form

/-- The names of the label lines, in order. -/
def labels : List Form → List (List Char)
  | [] => []
  | label n :: fs => n :: labels fs
  | _ :: fs => labels fs

/-- The instructions, in order. -/
def instructions : List Form → List (Instruction (List Char))
  | [] => []
  | instr i :: fs => i :: instructions fs
  | _ :: fs => instructions fs

/-- Where the label `n` stands: the size of the code of the lines before its first label line.
Sizes do not depend on where locations point, so the locations are left at zero. -/
def offset (forms : List Form) (n : List Char) : Nat :=
  (Bytecode.ofList ((instructions (forms.takeWhile (· ≠ label n))).map
    (Instruction.map fun _ => 0))).size

/-- The code the lines stand for: the instructions in order, each location replaced by the
offset of the label it names. -/
def relocate (forms : List Form) : Bytecode :=
  Bytecode.ofList ((instructions forms).map (Instruction.map (offset forms)))

end Form

end Assembly

end WindowVm
