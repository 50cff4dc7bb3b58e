import Mathlib.Data.Nat.Digits.Defs
import Mathlib.Tactic.Common

/-!
# Digits packed into a number

Digits of `b` bits each, the first one lowest, with room for `n` of them and a number `top` above
that room.  Missing digits are zeroes.  Digits that are not zero themselves can be read back, and so
can `top` (`packed_inj`).
-/

namespace Packing

/-- `digits` in the lowest `n` places, `top` above them. -/
def packed (b n top : ℕ) (digits : List ℕ) : ℕ := top <<< (b * n) ||| Nat.ofDigits (2 ^ b) digits

variable {b n top top' x : ℕ} {digits digits' : List ℕ}

lemma ofDigits_lt (hb : 0 < b) (h : ∀ d ∈ digits, d < 2 ^ b) :
    Nat.ofDigits (2 ^ b) digits < 2 ^ (b * digits.length) := by
  have hlt := Nat.ofDigits_lt_base_pow_length (Nat.one_lt_two_pow hb.ne') h
  rwa [← pow_mul] at hlt

/-- The next digit goes behind the others. -/
lemma packed_or (hb : 0 < b) (h : ∀ d ∈ digits, d < 2 ^ b) (x : ℕ) :
    packed b n top digits ||| x <<< (b * digits.length) = packed b n top (digits ++ [x]) := by
  have hdigit : Nat.ofDigits (2 ^ b) (digits ++ [x]) =
      x <<< (b * digits.length) + Nat.ofDigits (2 ^ b) digits := by
    rw [Nat.ofDigits_append, Nat.ofDigits_singleton, Nat.shiftLeft_eq, ← pow_mul, Nat.mul_comm x,
      Nat.add_comm]
  rw [packed, packed, hdigit, Nat.shiftLeft_add_eq_or_of_lt (ofDigits_lt hb h), Nat.or_assoc,
    Nat.or_comm (x <<< _)]

/-- A number of digits is at most the room they take. -/
lemma packed_eq (hb : 0 < b) (h : ∀ d ∈ digits, d < 2 ^ b) (hn : digits.length ≤ n) :
    packed b n top digits =
      Nat.ofDigits (2 ^ b) (digits ++ List.replicate (n - digits.length) 0) + 2 ^ (b * n) * top := by
  have hroom : Nat.ofDigits (2 ^ b) digits < 2 ^ (b * n) :=
    (ofDigits_lt hb h).trans_le (Nat.pow_le_pow_right two_pos (Nat.mul_le_mul_left b hn))
  rw [packed, ← Nat.shiftLeft_add_eq_or_of_lt hroom, Nat.ofDigits_append_replicate_zero,
    Nat.shiftLeft_eq, Nat.mul_comm, Nat.add_comm]

/-- The padding is told from the digits: it is zero and they are not. -/
lemma eq_of_padded (h : ∀ d ∈ digits, d ≠ 0) (h' : ∀ d ∈ digits', d ≠ 0) {k k' : ℕ}
    (heq : digits ++ List.replicate k 0 = digits' ++ List.replicate k' 0) : digits = digits' := by
  have hfilter (l : List ℕ) (hl : ∀ d ∈ l, d ≠ 0) (k : ℕ) :
      (l ++ List.replicate k 0).filter (· != 0) = l := by
    rw [List.filter_append, List.filter_eq_self.mpr (by simpa using hl),
      List.filter_eq_nil_iff.mpr (by simp), List.append_nil]
  rw [← hfilter digits h k, heq, hfilter digits' h' k']

/-- **Digits other than zero, and what stands above them, are determined by the number.** -/
theorem packed_inj (hb : 0 < b) (h : ∀ d ∈ digits, d ≠ 0 ∧ d < 2 ^ b)
    (h' : ∀ d ∈ digits', d ≠ 0 ∧ d < 2 ^ b) (hn : digits.length ≤ n) (hn' : digits'.length ≤ n) :
    packed b n top digits = packed b n top' digits' ↔ digits = digits' ∧ top = top' := by
  refine ⟨fun heq => ?_, fun ⟨hdigits, htop⟩ => by rw [hdigits, htop]⟩
  rw [packed_eq hb (fun d hd => (h d hd).2) hn, packed_eq hb (fun d hd => (h' d hd).2) hn'] at heq
  have hpadded (l : List ℕ) (hl : ∀ d ∈ l, d ≠ 0 ∧ d < 2 ^ b) (hlen : l.length ≤ n) :
      (l ++ List.replicate (n - l.length) 0).length = n ∧
        ∀ d ∈ l ++ List.replicate (n - l.length) 0, d < 2 ^ b := by
    refine ⟨by rw [List.length_append, List.length_replicate, Nat.add_sub_cancel' hlen], ?_⟩
    intro d hd
    rcases List.mem_append.mp hd with hd | hd
    · exact (hl d hd).2
    · rw [List.eq_of_mem_replicate hd]
      exact Nat.two_pow_pos b
  rcases hpadded digits h hn with ⟨hlen, hlt⟩
  rcases hpadded digits' h' hn' with ⟨hlen', hlt'⟩
  have hbelow := ofDigits_lt hb hlt
  have hbelow' := ofDigits_lt hb hlt'
  rw [hlen] at hbelow
  rw [hlen'] at hbelow'
  -- both numbers are a remainder and a quotient by the room
  have htop : top = top' := by
    have hdiv := congrArg (· / 2 ^ (b * n)) heq
    simp only [Nat.add_mul_div_left _ _ (Nat.two_pow_pos (b * n)), Nat.div_eq_of_lt hbelow,
      Nat.div_eq_of_lt hbelow', Nat.zero_add] at hdiv
    exact hdiv
  have hlow := congrArg (· % 2 ^ (b * n)) heq
  simp only [Nat.add_mul_mod_self_left, Nat.mod_eq_of_lt hbelow, Nat.mod_eq_of_lt hbelow'] at hlow
  have hdigits := Nat.ofDigits_inj_of_len_eq (Nat.one_lt_two_pow hb.ne') (hlen.trans hlen'.symm)
    hlt hlt' hlow
  exact ⟨eq_of_padded (fun d hd => (h d hd).1) (fun d hd => (h' d hd).1) hdigits, htop⟩

end Packing
