import Durinn.Lib.PyText

/-!
# Formatted output

The streams of C++, as far as texts and integers go.  A stream remembers the base and the
character to fill up with until they are changed, and the width only for the next output.

* `text`, `unsigned`, `int` — formatted output of a text, of an unsigned number, and of a
  number of type `int`, which is shown by its bits in any base but ten.
* Between two outputs the width is `0`; there, the lemmas marked `simp` run a chain of
  manipulators and outputs.
* `fromHex_hexText_unsigned`, `fromHex_hexText_signed` — what the texts of bytes are read as that
  were converted to `int` from `unsigned char` and from `char`.
-/

/-- A stream: what was written to it, and how it formats. -/
structure OStream where
  out : List Char
  base : Nat
  fill : Char
  width : Nat
  deriving DecidableEq, Repr

namespace OStream

/-- A stream that was just opened. -/
def fresh : OStream := ⟨[], 10, ' ', 0⟩

/-- `std::dec`. -/
def dec (os : OStream) : OStream := { os with base := 10 }

/-- `std::hex`. -/
def hex (os : OStream) : OStream := { os with base := 16 }

/-- `std::setfill(c)`. -/
def setfill (os : OStream) (c : Char) : OStream := { os with fill := c }

/-- `std::setw(n)`. -/
def setw (os : OStream) (n : Nat) : OStream := { os with width := n }

/-- Output of a text: it is filled up on the left, and the width is used up. -/
def text (os : OStream) (t : List Char) : OStream :=
  { os with out := os.out ++ (List.replicate (os.width - t.length) os.fill ++ t), width := 0 }

/-- Output of an unsigned number. -/
def unsigned (os : OStream) (n : Nat) : OStream := os.text (Nat.toDigits os.base n)

/-- Output of an `int`. -/
def int (os : OStream) (n : BitVec 32) : OStream :=
  os.text <|
    if os.base = 10 then
      if n.msb then '-' :: Nat.toDigits 10 (-n).toNat else Nat.toDigits 10 n.toNat
    else Nat.toDigits os.base n.toNat

/-- `std::endl`: a line break, without formatting. -/
def endl (os : OStream) : OStream := { os with out := os.out ++ ['\n'] }

/-- The bits of an `int` in base 16, filled up to two digits. -/
def hexText (n : BitVec 32) : List Char :=
  let t := Nat.toDigits 16 n.toNat
  List.replicate (2 - t.length) '0' ++ t

section Width

variable (out : List Char) (base : Nat) (fill : Char)

@[simp] theorem dec_mk (width : Nat) : dec ⟨out, base, fill, width⟩ = ⟨out, 10, fill, width⟩ := rfl

@[simp] theorem hex_mk (width : Nat) : hex ⟨out, base, fill, width⟩ = ⟨out, 16, fill, width⟩ := rfl

@[simp] theorem text_mk (t : List Char) :
    text ⟨out, base, fill, 0⟩ t = ⟨out ++ t, base, fill, 0⟩ := by
  simp [text]

@[simp] theorem unsigned_mk (n : Nat) :
    unsigned ⟨out, base, fill, 0⟩ n = ⟨out ++ Nat.toDigits base n, base, fill, 0⟩ :=
  text_mk out base fill _

@[simp] theorem endl_mk (width : Nat) :
    endl ⟨out, base, fill, width⟩ = ⟨out ++ ['\n'], base, fill, width⟩ := rfl

/-- `<< std::setfill('0') << std::setw(2) << n`, after `std::hex`. -/
@[simp] theorem int_setw (n : BitVec 32) :
    int (setw (setfill ⟨out, 16, fill, 0⟩ '0') 2) n = ⟨out ++ hexText n, 16, '0', 0⟩ := by
  simp [int, text, setw, setfill, hexText]

end Width

/-! ## Bytes -/

/-- The conversion from `unsigned char` to `int`. -/
def ofUnsignedChar (b : UInt8) : BitVec 32 := b.toBitVec.setWidth 32

/-- The conversion from `char` to `int`, where `char` is signed. -/
def ofChar (b : UInt8) : BitVec 32 := b.toBitVec.signExtend 32

/-- What the text of a signed byte is read as. -/
def signedBytes (b : UInt8) : List UInt8 := if b < 0x80 then [b] else [0xff, 0xff, 0xff, b]

theorem signedBytes_of_lt {b : UInt8} (h : b < 0x80) : signedBytes b = [b] := if_pos h

theorem fromHex_hexText_unsigned (b : UInt8) :
    PyText.fromHex (hexText (ofUnsignedChar b)) = some [b] := by
  have hall : ∀ n : Fin 256, PyText.fromHex (hexText (ofUnsignedChar (UInt8.ofNat n))) =
      some [UInt8.ofNat n] := by decide +kernel
  simpa using hall ⟨b.toNat, b.toNat_lt⟩

theorem fromHex_hexText_signed (b : UInt8) :
    PyText.fromHex (hexText (ofChar b)) = some (signedBytes b) := by
  have hall : ∀ n : Fin 256, PyText.fromHex (hexText (ofChar (UInt8.ofNat n))) =
      some (signedBytes (UInt8.ofNat n)) := by decide +kernel
  simpa using hall ⟨b.toNat, b.toNat_lt⟩

theorem isDigitChar_of_mem_hexText {n : BitVec 32} {c : Char} (hc : c ∈ hexText n) :
    PyText.IsDigitChar c := by
  rcases List.mem_append.1 hc with hc | hc
  · exact ⟨0, by omega, List.eq_of_mem_replicate hc⟩
  · exact PyText.isDigitChar_of_mem (by omega) (by omega) hc

end OStream
