import Mathlib.Algebra.Group.Nat.Defs
import Mathlib.Data.Nat.Basic
import Mathlib.Tactic.Common

/-!
# Numbers and records in a byte string

Little-endian numbers of a fixed number of bytes, and a byte string as records of one size behind one
another.  Bytes that do not fill a record are not part of one; a reader that takes one record after
the other gets as many as there are (`readRecords_eq`).
-/

namespace Serial

/-! ## Numbers -/

/-- The lowest `k` bytes of `x`, the lowest first. -/
def encode : ℕ → ℕ → List UInt8
  | 0, _ => []
  | k + 1, x => UInt8.ofNat x :: encode k (x / 256)

/-- The number that bytes stand for, the lowest byte first. -/
def decode : List UInt8 → ℕ
  | [] => 0
  | b :: bytes => b.toNat + 256 * decode bytes

@[simp] lemma length_encode (k x : ℕ) : (encode k x).length = k := by
  induction k generalizing x with
  | zero => rfl
  | succ k ih => rw [encode, List.length_cons, ih]

lemma decode_encode {k x : ℕ} (h : x < 256 ^ k) : decode (encode k x) = x := by
  induction k generalizing x with
  | zero =>
      obtain rfl : x = 0 := by simpa using h
      rfl
  | succ k ih =>
      have hrest : x / 256 < 256 ^ k := by
        rw [Nat.div_lt_iff_lt_mul (by decide), ← Nat.pow_succ]
        exact h
      have hlow : (UInt8.ofNat x).toNat = x % 256 := UInt8.toNat_ofNat'
      rw [encode, decode, ih hrest, hlow, Nat.mod_add_div]

lemma encode_inj {k x y : ℕ} (hx : x < 256 ^ k) (hy : y < 256 ^ k) (h : encode k x = encode k y) :
    x = y := by
  rw [← decode_encode hx, h, decode_encode hy]

/-! ## Records -/

variable {α : Type*} {size : ℕ} {read : List UInt8 → α} {write : α → List UInt8}
  {bytes rest : List UInt8} {records : List α}

/-- The complete records of a byte string. -/
def recordsOf (size : ℕ) (read : List UInt8 → α) (bytes : List UInt8) : List α :=
  (List.range (bytes.length / size)).map fun i => read ((bytes.drop (size * i)).take size)

/-- To read `n` records: whether all of them were there, and those that were, behind `before`. -/
def readRecords (size : ℕ) (read : List UInt8 → α) :
    ℕ → List UInt8 → List α → Bool × List α
  | 0, _, before => (true, before)
  | n + 1, bytes, before =>
      if bytes.length < size then (false, before)
      else readRecords size read n (bytes.drop size) (before ++ [read (bytes.take size)])

@[simp] lemma length_recordsOf (size : ℕ) (read : List UInt8 → α) (bytes : List UInt8) :
    (recordsOf size read bytes).length = bytes.length / size := by
  rw [recordsOf, List.length_map, List.length_range]

/-- One record and the rest. -/
lemma recordsOf_cons (hsize : 0 < size) (h : size ≤ bytes.length) :
    recordsOf size read bytes = read (bytes.take size) :: recordsOf size read (bytes.drop size) := by
  have hcount : bytes.length / size = (bytes.drop size).length / size + 1 := by
    rw [List.length_drop, ← Nat.add_div_right _ hsize, Nat.sub_add_cancel h]
  rw [recordsOf, hcount, List.range_succ_eq_map, List.map_cons, List.map_map, recordsOf, Nat.mul_zero,
    List.drop_zero]
  congr 1
  refine List.map_congr_left fun i _ => ?_
  rw [Function.comp_apply, List.drop_drop, Nat.mul_succ, Nat.add_comm]

lemma recordsOf_short (h : bytes.length < size) : recordsOf size read bytes = [] := by
  rw [recordsOf, Nat.div_eq_of_lt h]
  rfl

/-- **Reading one record after the other** reads the records there are, and fails if that is not
enough. -/
theorem readRecords_eq (hsize : 0 < size) (n : ℕ) (bytes : List UInt8) (before : List α) :
    readRecords size read n bytes before =
      (decide (n ≤ (recordsOf size read bytes).length),
        before ++ (recordsOf size read bytes).take n) := by
  induction n generalizing bytes before with
  | zero => simp [readRecords]
  | succ n ih =>
      rw [readRecords]
      by_cases h : bytes.length < size
      · rw [if_pos h, recordsOf_short h]
        simp
      · rw [if_neg h, ih, recordsOf_cons hsize (Nat.le_of_not_lt h)]
        simp

/-- What was written record by record. -/
lemma recordsOf_flatMap (hsize : 0 < size) (hwrite : ∀ r, (write r).length = size)
    (hread : ∀ r, read (write r) = r) (records : List α) :
    recordsOf size read (records.flatMap write) = records := by
  induction records with
  | nil => exact recordsOf_short hsize
  | cons r records ih =>
      rw [List.flatMap_cons, recordsOf_cons hsize (by rw [List.length_append, hwrite]; omega)]
      have htake : (write r ++ records.flatMap write).take size = write r := by
        rw [← hwrite r, List.take_left]
      have hdrop : (write r ++ records.flatMap write).drop size = records.flatMap write := by
        rw [← hwrite r, List.drop_left]
      rw [htake, hdrop, hread, ih]

end Serial
