import Mathlib.Algebra.Group.Nat.Defs
import Mathlib.Data.List.Infix
import Mathlib.Data.List.TakeWhile
import Mathlib.Data.Nat.Basic
import Mathlib.Logic.Function.Basic
import Mathlib.Tactic.Common

/-!
# Bytes, hashes and identifier characters

The part of `common/hashing.h` that the preprocessor and the lexer share.  A C++ `char` is a
`UInt8` here; the one place where its sign matters is `static_cast<uint64_t>(c)` inside the
FNV-1a loop, which sign-extends.

`IDENT_CHAR_BITMASK` packs the non-zero entries of `IDENT_CHAR_LUT` into four words, and the
preprocessor only ever tests membership through it (`isIn`).  `isIn_identCharBitmask` unpacks it
once, so that everything later speaks of `isIdentChar`.
-/

namespace LogicCompiler

/-- A `char`, read as unsigned. -/
abbrev Byte := UInt8

-- a check over a list walks the list, not the whole of a finite type
instance (priority := 1100) decidableForallMemList {α : Type} (s : List α) (P : α → Prop)
    [DecidablePred P] : Decidable (∀ a ∈ s, P a) := List.decidableBAll P s

instance (priority := 1100) decidableForallMemOption {α : Type} (o : Option α) (P : α → Prop)
    [DecidablePred P] : Decidable (∀ a ∈ o, P a) := Option.decidableForallMem o

instance (priority := 1100) decidableExistsMemList {α : Type} (s : List α) (P : α → Prop)
    [DecidablePred P] : Decidable (∃ a ∈ s, P a) := List.decidableBEx P s

/-- A number held in a `uint32_t`. -/
def toUint32 (n : ℕ) : ℕ := n % 2 ^ 32

lemma toUint32_eq {n : ℕ} (h : n < 2 ^ 32) : toUint32 n = n := Nat.mod_eq_of_lt h

/-- The bytes of an ASCII literal of the source. -/
def bytes (s : String) : List Byte := s.toList.map Char.toUInt8

@[simp] lemma bytes_empty : bytes "" = [] := rfl

/-- `static_cast<uint64_t>(char)`: the conversion goes through the signed type. -/
def signExtend (c : Byte) : UInt64 := c.toInt8.toInt64.toUInt64

/-- FNV-1a hash 64-bit. -/
def hashDirective (sv : List Byte) : UInt64 :=
  sv.foldl (fun hash c => (hash ^^^ signExtend c) * 1099511628211) 14695981039346656037

/-- `make_ident_6bit_lut`: the 6-bit code of an identifier character, `0` for any other byte. -/
def identCharLut (c : Byte) : UInt8 :=
  if 'A'.toUInt8 ≤ c ∧ c ≤ 'Z'.toUInt8 then c - 'A'.toUInt8 + 1
  else if 'a'.toUInt8 ≤ c ∧ c ≤ 'z'.toUInt8 then c - 'a'.toUInt8 + 27
  else if '0'.toUInt8 ≤ c ∧ c ≤ '9'.toUInt8 then c - '0'.toUInt8 + 53
  else if c = '_'.toUInt8 then 63
  else 0

/-- `isIdentChar`: the table knows which bytes a name is made of. -/
def isIdentChar (c : Byte) : Bool := identCharLut c != 0

/-- Four words of 64 membership bits. -/
abbrev CharBitLUT := List UInt64

/-- `make_ident_bitmask`. -/
def makeIdentBitmask : CharBitLUT :=
  (List.range 256).foldl
    (fun mask i =>
      if identCharLut i.toUInt8 != 0 then
        mask.modify (i >>> 6) (· ||| (1 <<< (i &&& 63).toUInt64))
      else mask)
    [0, 0, 0, 0]

/-- The same set as one bit for each byte. -/
def identCharBitmask : CharBitLUT := makeIdentBitmask

/-- The bit of a byte in such a set. -/
def isIn (lut : CharBitLUT) (c : Byte) : Bool :=
  (lut.getD (c >>> 6).toNat 0 &&& (1 <<< (c &&& 63).toUInt64)) != 0

lemma identCharBitmask_eq :
    identCharBitmask = [0x03FF000000000000, 0x07FFFFFE87FFFFFE, 0, 0] := by
  decide +kernel

/-- The mask tests exactly the bytes that have a non-zero 6-bit code. -/
@[simp] lemma isIn_identCharBitmask (c : Byte) : isIn identCharBitmask c = isIdentChar c := by
  have table : ∀ i : Fin 256, isIn identCharBitmask (UInt8.ofNat i) = isIdentChar (UInt8.ofNat i) := by
    rw [identCharBitmask_eq]
    decide +kernel
  simpa using table ⟨c.toNat, c.toNat_lt⟩

end LogicCompiler
