import LogicCompiler.Common.Hashing
import LogicCompiler.Library.Packing

/-!
# Packed macro names

`macro_name_pack` of `preproc/preproc_token.h`: the six-bit codes of the first ten characters of a
name in the low sixty bits of a word, and how much longer than ten the name is in the four bits above
them.  The code of an identifier character is not zero, so the codes end where the name does; of the
length the four bits keep what is below twenty-five (`macroNamePack_inj`).
-/

namespace LogicCompiler

/-- `char_to_6bit`. -/
def charTo6bit (c : Byte) : UInt64 := (identCharLut c).toUInt64

/-- `macro_name_pack`. -/
def macroNamePack (name : List Byte) : UInt64 :=
  let lOf := name.length ≥ 0xF + 10
  let toPack := if name.length < 10 then name.length else 10
  let packedV : UInt64 := if lOf then (0xF : UInt64) <<< 60 else (name.length - toPack).toUInt64 <<< 60
  (List.range toPack).foldl
    (fun packedV i => packedV ||| charTo6bit (name.getD i 0) <<< (6 * i).toUInt64) packedV

/-! ## The codes -/

/-- The codes of the characters as numbers. -/
def codes (name : List Byte) : List ℕ := name.map fun c => (identCharLut c).toNat

/-- The identifier character that a code stands for. -/
def identCharOf (code : UInt8) : Byte :=
  if code ≤ 26 then 'A'.toUInt8 + (code - 1)
  else if code ≤ 52 then 'a'.toUInt8 + (code - 27)
  else if code ≤ 62 then '0'.toUInt8 + (code - 53)
  else '_'.toUInt8

/-- The code of a byte is below `2 ^ 6`, and the code of an identifier character says which one it is. -/
lemma identCharOf_identCharLut (c : Byte) :
    (identCharLut c).toNat < 2 ^ 6 ∧ (isIdentChar c = true → identCharOf (identCharLut c) = c) := by
  have table : ∀ i : Fin 256, (identCharLut (UInt8.ofNat i)).toNat < 2 ^ 6 ∧
      (isIdentChar (UInt8.ofNat i) = true →
        identCharOf (identCharLut (UInt8.ofNat i)) = UInt8.ofNat i) := by
    decide +kernel
  have hc := table ⟨c.toNat, c.toNat_lt⟩
  rwa [UInt8.ofNat_toNat] at hc

/-- The code of a byte is below `2 ^ 6`, and no two identifier characters share theirs. -/
lemma identCharLut_table (c d : Byte) :
    (identCharLut c).toNat < 2 ^ 6 ∧
      (isIdentChar c = true → identCharLut c = identCharLut d → c = d) := by
  refine ⟨(identCharOf_identCharLut c).1, fun hc hcode => ?_⟩
  have hd : isIdentChar d = true := by
    rw [isIdentChar, hcode] at hc
    exact hc
  calc c = identCharOf (identCharLut c) := ((identCharOf_identCharLut c).2 hc).symm
    _ = identCharOf (identCharLut d) := by rw [hcode]
    _ = d := (identCharOf_identCharLut d).2 hd

lemma codes_lt (name : List Byte) : ∀ x ∈ codes name, x < 2 ^ 6 := by
  intro x hx
  rcases List.mem_map.mp hx with ⟨c, -, rfl⟩
  exact (identCharLut_table c c).1

lemma codes_ne_zero {name : List Byte} (h : ∀ c ∈ name, isIdentChar c = true) :
    ∀ x ∈ codes name, x ≠ 0 ∧ x < 2 ^ 6 := by
  intro x hx
  refine ⟨?_, codes_lt name x hx⟩
  rcases List.mem_map.mp hx with ⟨c, hc, rfl⟩
  have hident := h c hc
  rw [isIdentChar, bne_iff_ne] at hident
  exact fun hzero => hident (UInt8.toNat_inj.mp hzero)

lemma codes_inj {s t : List Byte} (hs : ∀ c ∈ s, isIdentChar c = true) :
    codes s = codes t ↔ s = t := by
  refine ⟨fun h => ?_, fun h => by rw [h]⟩
  induction s generalizing t with
  | nil => exact (List.map_eq_nil_iff.mp h.symm).symm
  | cons c s ih =>
      cases t with
      | nil => exact absurd h (by simp [codes])
      | cons d t =>
          rcases List.cons.inj h with ⟨hcode, hrest⟩
          rw [(identCharLut_table c d).2 (hs c List.mem_cons_self) (UInt8.toNat_inj.mp hcode),
            ih (fun c hc => hs c (List.mem_cons_of_mem _ hc)) hrest]

/-! ## The word -/

/-- The four bits above the codes. -/
def extraLength (name : List Byte) : ℕ := min name.length 25 - min name.length 10

lemma toNat_shiftLeft_of_lt {x k : ℕ} (hk : k < 64) (hx : x <<< k < 2 ^ 64) :
    (x.toUInt64 <<< k.toUInt64).toNat = x <<< k := by
  have hlt : x < 2 ^ 64 := Nat.lt_of_shiftLeft_lt hx
  simp only [UInt64.toNat_shiftLeft, Nat.toUInt64, UInt64.toNat_ofNat', Nat.mod_eq_of_lt hlt,
    Nat.mod_eq_of_lt (hk.trans (by decide : 64 < 2 ^ 64)), Nat.mod_eq_of_lt hk, Nat.mod_eq_of_lt hx]

/-- The length comes first, shifted to its place. -/
lemma toNat_packedV (name : List Byte) :
    (if name.length ≥ 0xF + 10 then (0xF : UInt64) <<< 60
      else (name.length - if name.length < 10 then name.length else 10).toUInt64 <<< 60).toNat =
      extraLength name <<< 60 := by
  have hshort (x : ℕ) (hx : x < 16) : (x.toUInt64 <<< 60).toNat = x <<< 60 :=
    toNat_shiftLeft_of_lt (by decide) (by rw [Nat.shiftLeft_eq]; simp only [Nat.reducePow]; omega)
  rw [extraLength]
  split
  · rw [show min name.length 25 - min name.length 10 = 15 by omega]
    rfl
  · rw [hshort _ (by split <;> omega)]
    congr 1
    split <;> omega

/-- One character: its code goes to its place. -/
lemma toNat_code_shiftLeft (c : Byte) {i : ℕ} (hi : i < 10) :
    (charTo6bit c <<< (6 * i).toUInt64).toNat = (identCharLut c).toNat <<< (6 * i) := by
  have hcode := (identCharLut_table c c).1
  have hpow : (2 : ℕ) ^ (6 * i) ≤ 2 ^ 54 := Nat.pow_le_pow_right two_pos (by omega)
  have hlt : (identCharLut c).toNat <<< (6 * i) < 2 ^ 64 := by
    rw [Nat.shiftLeft_eq]
    calc (identCharLut c).toNat * 2 ^ (6 * i) ≤ 2 ^ 6 * 2 ^ 54 := Nat.mul_le_mul hcode.le hpow
      _ < 2 ^ 64 := by decide
  have hwide : charTo6bit c = (identCharLut c).toNat.toUInt64 := by
    rw [← UInt64.toNat_inj]
    exact (UInt8.toNat_toUInt64 _).trans
      (Nat.mod_eq_of_lt ((Nat.lt_of_shiftLeft_lt hlt))).symm
  rw [hwide, toNat_shiftLeft_of_lt (by omega) hlt]

/-- The loop over the characters. -/
lemma toNat_foldl (name : List Byte) (start : UInt64) {n : ℕ} (hn : n ≤ min name.length 10)
    (hstart : start.toNat = extraLength name <<< 60) :
    ((List.range n).foldl
        (fun packedV i => packedV ||| charTo6bit (name.getD i 0) <<< (6 * i).toUInt64)
        start).toNat =
      Packing.packed 6 10 (extraLength name) (codes (name.take n)) := by
  induction n with
  | zero => simp [Packing.packed, codes, hstart]
  | succ n ih =>
      have hlen : n < name.length := by omega
      have hcodes : codes (name.take (n + 1)) =
          codes (name.take n) ++ [(identCharLut (name.getD n 0)).toNat] := by
        rw [List.take_succ_eq_append_getElem hlen, codes, List.map_append,
          List.getD_eq_getElem?_getD, List.getElem?_eq_getElem hlen]
        rfl
      have hcount : (codes (name.take n)).length = n := by
        rw [codes, List.length_map, List.length_take, Nat.min_eq_left hlen.le]
      have hstep := @Packing.packed_or 6 10 (extraLength name) _ (by decide)
        (codes_lt (name.take n)) (identCharLut (name.getD n 0)).toNat
      rw [hcount] at hstep
      rw [List.range_succ, List.foldl_append, List.foldl_cons, List.foldl_nil, UInt64.toNat_or,
        ih (by omega), toNat_code_shiftLeft _ (by omega), hcodes, hstep]

lemma toNat_macroNamePack (name : List Byte) :
    (macroNamePack name).toNat = Packing.packed 6 10 (extraLength name) (codes (name.take 10)) := by
  have hpack := toNat_foldl name _ (n := if name.length < 10 then name.length else 10)
    (by split <;> omega) (toNat_packedV name)
  rw [macroNamePack, hpack]
  split
  · next hshort => rw [List.take_length, List.take_of_length_le hshort.le]
  · rfl

/-- **What a packed name says about the name**: its first ten characters, and its length below
twenty-five.  Names of at most ten characters are told apart. -/
theorem macroNamePack_inj {s t : List Byte} (hs : ∀ c ∈ s, isIdentChar c = true)
    (ht : ∀ c ∈ t, isIdentChar c = true) :
    (macroNamePack s = macroNamePack t ↔
        s.take 10 = t.take 10 ∧ min s.length 25 = min t.length 25) ∧
      (s.length ≤ 10 → t.length ≤ 10 → macroNamePack s = macroNamePack t → s = t) := by
  have hcount (name : List Byte) : (codes (name.take 10)).length = min 10 name.length := by
    rw [codes, List.length_map, List.length_take]
  have hident {name : List Byte} (h : ∀ c ∈ name, isIdentChar c = true) :
      ∀ c ∈ name.take 10, isIdentChar c = true := fun c hc => h c (List.mem_of_mem_take hc)
  have hword : macroNamePack s = macroNamePack t ↔
      s.take 10 = t.take 10 ∧ extraLength s = extraLength t := by
    rw [← UInt64.toNat_inj, toNat_macroNamePack, toNat_macroNamePack,
      Packing.packed_inj (by decide) (codes_ne_zero (hident hs)) (codes_ne_zero (hident ht))
        (by rw [hcount]; omega) (by rw [hcount]; omega), codes_inj (hident hs)]
  have hlength : s.take 10 = t.take 10 →
      (extraLength s = extraLength t ↔ min s.length 25 = min t.length 25) := by
    intro htake
    have hlen := congrArg List.length htake
    rw [List.length_take, List.length_take] at hlen
    rw [extraLength, extraLength]
    omega
  have hpacked := hword.trans (and_congr_right hlength)
  refine ⟨hpacked, fun hslen htlen heq => ?_⟩
  have htake := (hpacked.mp heq).1
  rwa [List.take_of_length_le hslen, List.take_of_length_le htlen] at htake

theorem macroNamePack_inj_sample :
    macroNamePack (bytes "MACRO_NAME_1") = macroNamePack (bytes "MACRO_NAME_2") ∧
      macroNamePack (bytes "A") ≠ macroNamePack (bytes "AA") := by
  refine ⟨(macroNamePack_inj (by decide) (by decide)).1.mpr (by decide), fun heq => ?_⟩
  exact absurd ((macroNamePack_inj (by decide) (by decide)).1.mp heq).2 (by decide)

end LogicCompiler
