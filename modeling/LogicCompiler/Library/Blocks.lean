import Mathlib.Order.Monotone.Basic
import Mathlib.Tactic.Common

/-!
# Blocks in a buffer

A growable buffer that is resized and written to in place, and the blocks that a stack discipline
leaves in it: a new block goes behind all others, and the buffer is cut back to the beginning of
one.  `offset` is where a block begins.
-/

namespace Blocks

variable {α : Type*}

/-! ## The buffer -/

/-- Cut off, or filled up with `d`. -/
def resize (d : α) (n : ℕ) (buf : List α) : List α :=
  buf.take n ++ List.replicate (n - buf.length) d

/-- `new` over what stands at `i`. -/
def write (i : ℕ) (new buf : List α) : List α :=
  buf.take i ++ new ++ buf.drop (i + new.length)

variable {d : α} {pre old new post : List α} {i n : ℕ}

lemma resize_add (d : α) (n : ℕ) (buf : List α) :
    resize d (buf.length + n) buf = buf ++ List.replicate n d := by
  rw [resize, List.take_of_length_le (Nat.le_add_right _ _), Nat.add_sub_cancel_left]

lemma resize_take (h : n ≤ old.length) : resize d n old = old.take n := by
  rw [resize, Nat.sub_eq_zero_of_le h, List.replicate_zero, List.append_nil]

lemma resize_append : resize d pre.length (pre ++ post) = pre := by
  rw [resize_take (by simp), List.take_left]

/-- Writing replaces as many items as it brings. -/
lemma write_append (hi : i = pre.length) (h : old.length = new.length) :
    write i new (pre ++ (old ++ post)) = pre ++ (new ++ post) := by
  rw [write, hi, List.take_left, List.append_assoc, ← h, ← List.drop_drop, List.drop_left,
    List.drop_left]

/-- Where there is room for nothing, nothing need be written. -/
lemma write_room (d : α) (new post : List α) (hi : i = pre.length) (hn : n = new.length) :
    (if 0 < n then write i new (pre ++ (List.replicate n d ++ post))
      else pre ++ (List.replicate n d ++ post)) = pre ++ (new ++ post) := by
  split
  · exact write_append hi (by rw [List.length_replicate, hn])
  · next hzero =>
      rw [List.eq_nil_of_length_eq_zero (show new.length = 0 by omega), show n = 0 by omega]
      rfl

/-! ## The blocks -/

variable {blocks more : List (List α)} {b : List α}

/-- Where block `i` begins, with the first at `base`. -/
def offset (base : ℕ) (blocks : List (List α)) (i : ℕ) : ℕ :=
  base + (blocks.take i).flatten.length

@[simp] lemma offset_zero (base : ℕ) (blocks : List (List α)) : offset base blocks 0 = base := by
  simp [offset]

/-- Each block begins where the one before it ends. -/
lemma offset_succ (base : ℕ) (h : blocks[i]? = some b) :
    offset base blocks (i + 1) = offset base blocks i + b.length := by
  rw [offset, List.take_add_one, h, List.flatten_append, List.length_append, ← Nat.add_assoc]
  simp [offset]

/-- The last one ends with the buffer. -/
lemma offset_length (pre : List α) (blocks : List (List α)) :
    offset pre.length blocks blocks.length = (pre ++ blocks.flatten).length := by
  rw [offset, List.take_length, List.length_append]

/-- Blocks that come later do not move a block. -/
lemma offset_append (base : ℕ) (h : i ≤ blocks.length) :
    offset base (blocks ++ more) i = offset base blocks i := by
  rw [offset, List.take_append_of_le_length h, offset]

lemma offset_take (base : ℕ) (h : i ≤ n) : offset base (blocks.take n) i = offset base blocks i := by
  rw [offset, List.take_take, Nat.min_eq_left h, offset]

lemma offset_mono (base : ℕ) (blocks : List (List α)) : Monotone (offset base blocks) := by
  refine monotone_nat_of_le_succ fun i => ?_
  cases h : blocks[i]? with
  | some b => exact (offset_succ base h).symm ▸ Nat.le_add_right _ _
  | none =>
      have hlen := List.getElem?_eq_none_iff.mp h
      rw [offset, offset, List.take_of_length_le hlen,
        List.take_of_length_le (Nat.le_succ_of_le hlen)]

/-- Blocks that are not empty begin at different places. -/
lemma offset_lt (base : ℕ) {j : ℕ} (h : blocks[i]? = some b) (hb : b ≠ []) (hij : i < j) :
    offset base blocks i < offset base blocks j := by
  have hnext := offset_mono base blocks (Nat.succ_le_of_lt hij)
  have hlen := List.length_pos_iff.mpr hb
  rw [Nat.succ_eq_add_one, offset_succ base h] at hnext
  omega

/-- Blocks of one size. -/
lemma offset_uniform (base k : ℕ) (h : ∀ b ∈ blocks, b.length = k) (hi : i ≤ blocks.length) :
    offset base blocks i = base + k * i := by
  induction i with
  | zero => rw [offset_zero, Nat.mul_zero, Nat.add_zero]
  | succ i ih =>
      have hget : blocks[i]? = some blocks[i] := List.getElem?_eq_getElem hi
      rw [offset_succ base hget, ih (Nat.le_of_succ_le hi), h _ (List.getElem_mem hi),
        Nat.mul_succ, Nat.add_assoc]

lemma flatten_split (blocks : List (List α)) (i : ℕ) :
    blocks.flatten = (blocks.take i).flatten ++ (blocks.drop i).flatten := by
  rw [← List.flatten_append, List.take_append_drop]

/-- The buffer from a block on. -/
lemma drop_offset (pre : List α) (blocks : List (List α)) (i : ℕ) :
    (pre ++ blocks.flatten).drop (offset pre.length blocks i) = (blocks.drop i).flatten := by
  rw [offset, ← List.drop_drop, List.drop_left, flatten_split blocks i, List.drop_left]

/-- The buffer cut back to the beginning of a block. -/
lemma take_offset (pre : List α) (blocks : List (List α)) (i : ℕ) :
    (pre ++ blocks.flatten).take (offset pre.length blocks i) = pre ++ (blocks.take i).flatten := by
  rw [offset, List.take_append, List.take_of_length_le (Nat.le_add_right _ _),
    Nat.add_sub_cancel_left, flatten_split blocks i, List.take_left]

/-- **A block is read back from where it begins.** -/
theorem drop_offset_of_getElem? (pre : List α) (h : blocks[i]? = some b) :
    (pre ++ blocks.flatten).drop (offset pre.length blocks i) =
      b ++ (blocks.drop (i + 1)).flatten := by
  rcases List.getElem?_eq_some_iff.mp h with ⟨hi, rfl⟩
  rw [drop_offset, List.drop_eq_getElem_cons hi, List.flatten_cons]

/-- **Cutting the buffer back to a block leaves the blocks before it.** -/
theorem resize_offset (d : α) (pre : List α) (blocks : List (List α)) (h : i ≤ blocks.length) :
    resize d (offset pre.length blocks i) (pre ++ blocks.flatten) =
      pre ++ (blocks.take i).flatten := by
  rw [resize_take, take_offset]
  rw [← offset_length]
  exact offset_mono _ _ h

end Blocks
