import WindowVm.Text.Hex

/-!
# Words and bytewords

The instruction stream is made of 16-bit bytewords. Registers and wide immediates hold 64-bit
words, and a word is stored as four bytewords, least significant first. The same 64 bits read as
an unsigned number, as a two's-complement signed number or as an IEEE double, depending on the
instruction or host that reads them; `Word` keeps the bits and offers the three readings.

Main statements: splitting a word into bytewords and joining them back is the identity, in both
directions (`ofBytewords_toBytewords`, `toBytewords_ofBytewords`).
-/

namespace WindowVm

/-- The smallest unit of the instruction stream. -/
abbrev Byteword := UInt16

/-- The register index of an operand, counted from the current frame pointer. -/
abbrev Register := UInt16

/-- A 64-bit register value or wide immediate. -/
structure Word where
  bits : UInt64
deriving DecidableEq, Inhabited, Repr

namespace Word

/-- The word whose bits are all clear. -/
def zero : Word := ⟨0⟩

/-- The word whose unsigned reading is `n` modulo 2^64. -/
def ofNat (n : Nat) : Word := ⟨UInt64.ofNat n⟩

/-- The word whose signed reading is `i` modulo 2^64 (two's complement). -/
def ofInt (i : Int) : Word := ofNat (i % 18446744073709551616).toNat

/-- `1` for true and `0` for false. -/
def ofBool (b : Bool) : Word := if b then ⟨1⟩ else zero

/-- The word holding the IEEE bits of a double. -/
def ofFloat (x : Float) : Word := ⟨x.toBits⟩

/-- The unsigned reading, in `0 .. 2^64 - 1`. -/
def toNat (w : Word) : Nat := w.bits.toNat

/-- The two's-complement reading, in `-2^63 .. 2^63 - 1`. -/
def toInt (w : Word) : Int :=
  if w.toNat < 9223372036854775808 then w.toNat else (w.toNat : Int) - 18446744073709551616

/-- The double with the word's bits. -/
def toFloat (w : Word) : Float := Float.ofBits w.bits

def isZero (w : Word) : Bool := w.bits == 0

/-- The four bytewords of a word, least significant first. -/
def toBytewords (w : Word) : List Byteword :=
  [UInt16.ofNat w.toNat, UInt16.ofNat (w.toNat / 65536),
    UInt16.ofNat (w.toNat / 4294967296), UInt16.ofNat (w.toNat / 281474976710656)]

/-- The word made of four bytewords, least significant first. -/
def ofBytewords (b0 b1 b2 b3 : Byteword) : Word :=
  ofNat (b0.toNat + 65536 * b1.toNat + 4294967296 * b2.toNat + 281474976710656 * b3.toNat)

/-- The word as a debugging view shows it: `Word(0x…)` with its unsigned value in hex. -/
def debugText (w : Word) : String :=
  "Word(" ++ Text.hex w.toNat ++ ")"

theorem toNat_lt (w : Word) : w.toNat < 18446744073709551616 := w.bits.toNat_lt

@[simp] theorem toNat_ofNat (n : Nat) : (ofNat n).toNat = n % 18446744073709551616 := by
  simp [ofNat, toNat]

theorem ext_toNat {v w : Word} (h : v.toNat = w.toNat) : v = w := by
  cases v; cases w
  simp only [toNat] at h
  simp [UInt64.toNat_inj.mp h]

theorem ofNat_toNat (w : Word) : ofNat w.toNat = w := by
  apply ext_toNat
  rw [toNat_ofNat, Nat.mod_eq_of_lt w.toNat_lt]

theorem ofBytewords_toBytewords (w : Word) :
    (match w.toBytewords with
      | [b0, b1, b2, b3] => ofBytewords b0 b1 b2 b3
      | _ => zero) = w := by
  apply ext_toNat
  have h := w.toNat_lt
  simp only [toBytewords, ofBytewords, toNat_ofNat, UInt16.toNat_ofNat']
  omega

theorem toBytewords_ofBytewords (b0 b1 b2 b3 : Byteword) :
    (ofBytewords b0 b1 b2 b3).toBytewords = [b0, b1, b2, b3] := by
  have h0 := b0.toNat_lt
  have h1 := b1.toNat_lt
  have h2 := b2.toNat_lt
  have h3 := b3.toNat_lt
  simp only [toBytewords, ofBytewords, toNat_ofNat, List.cons.injEq, and_true]
  refine ⟨?_, ?_, ?_, ?_⟩ <;> apply UInt16.toNat_inj.mp <;> simp <;> omega

end Word

end WindowVm
