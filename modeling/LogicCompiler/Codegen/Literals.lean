import LogicCompiler.Codegen.Signatures
import LogicCompiler.Lexer.Numerals
import Mathlib.Data.Nat.Digits.Lemmas

/-!
# The value of an integer literal

Both visitors of a literal hand the text of its token to `std::stoi`, which reads decimal digits
whatever the lexer has taken them for.  Of a hexadecimal numeral it reads the leading `0`; and a
token records its length modulo `2 ^ 16`, so of a long numeral it reads the beginning.
`numerals_keep_value` says for which numerals the integer they denote comes out.
-/

namespace LogicCompiler

open TokenType NodeKind LLVM Lexer Fuel

/-! ## `std::stoi` on a numeral -/

variable {w d s : List Byte} {c : Byte} {k : ℕ}

lemma positional_append (base : ℕ) (u v : List Byte) :
    positional base (u ++ v) = positional base v + base ^ v.length * positional base u := by
  rw [positional, List.map_append, List.reverse_append, Nat.ofDigits_append, List.length_reverse,
    List.length_map]
  rfl

lemma foldl_eq_positional (hd : ∀ c ∈ d, isDigit c = true) :
    d.foldl (fun (n : ℤ) c => n * 10 + (c.toNat - 48 : ℕ)) 0 = positional 10 d := by
  induction d using List.reverseRecOn with
  | nil => rfl
  | append_singleton d c ih =>
      have hc := hd c (List.mem_append_right d (List.mem_singleton_self c))
      rw [List.foldl_append, ih fun a ha => hd a (List.mem_append_left _ ha), positional_append]
      have hone : positional 10 [c] = c.toNat - 48 := by
        simp [positional, digitValue, hc]
      rw [hone]
      simp only [List.foldl_cons, List.foldl_nil, List.length_singleton, pow_one, Nat.cast_add,
        Nat.cast_mul, Nat.cast_ofNat]
      ring

/-- A number, if it fits the 32 bits of an `int`. -/
def asInt32 (value : ℕ) : Option ℤ := if value < 2 ^ 31 then some (value : ℤ) else none

lemma digit_plain (hc : isDigit c = true) :
    (c == 32 || (9 ≤ c && c ≤ 13)) = false ∧ c ≠ '-'.toUInt8 ∧ c ≠ '+'.toUInt8 := by
  simp only [isDigit, Bool.and_eq_true, decide_eq_true_eq, UInt8.le_iff_toNat_le] at hc
  have hlow : 48 ≤ c.toNat := hc.1
  have hne {d : Byte} (hd : d.toNat < 48) : c ≠ d := by
    rintro rfl
    omega
  refine ⟨?_, hne (by decide), hne (by decide)⟩
  rw [Bool.or_eq_false_iff, Bool.and_eq_false_iff, beq_eq_false_iff_ne, decide_eq_false_iff_not,
    decide_eq_false_iff_not, UInt8.le_iff_toNat_le, UInt8.le_iff_toNat_le]
  refine ⟨hne (by decide), .inr ?_⟩
  show ¬ c.toNat ≤ 13
  omega

/-- What `stoi` makes of a text that begins with a digit. -/
lemma stoi_of_digit (hc : isDigit c = true) :
    stoi (c :: s) = asInt32 (positional 10 ((c :: s).takeWhile isDigit)) := by
  obtain ⟨hspace, hminus, hplus⟩ := digit_plain hc
  have hsign : ((some c == some '-'.toUInt8) = false) ∧ ((some c == some '+'.toUInt8) = false) := by
    simp [hminus, hplus]
  have hdigits : (c :: s).takeWhile isDigit ≠ [] := by
    rw [List.takeWhile_cons_of_pos hc]
    exact List.cons_ne_nil _ _
  have hvalue := foldl_eq_positional (d := (c :: s).takeWhile isDigit)
    fun a ha => List.mem_takeWhile_imp ha
  rw [stoi, List.dropWhile_cons_of_neg (by simp [hspace])]
  simp only [List.head?_cons, hsign.1, hsign.2, Bool.or_self, Bool.false_eq_true, if_false]
  change (if (c :: s).takeWhile isDigit = [] then none else
    let value : ℤ := ((c :: s).takeWhile isDigit).foldl
      (fun (n : ℤ) c => n * 10 + (c.toNat - 48 : ℕ)) 0
    if -2 ^ 31 ≤ value ∧ value < 2 ^ 31 then some value else none) = _
  rw [if_neg hdigits, hvalue, asInt32]
  dsimp only
  split_ifs with hrange hsmall hsmall
  · rfl
  · omega
  · omega
  · rfl

/-! ## What is left of a numeral -/

lemma positional_split (base : ℕ) (d : List Byte) (k : ℕ) : positional base d =
    positional base (d.drop k) + base ^ (d.length - k) * positional base (d.take k) := by
  rw [← List.length_drop, ← positional_append, List.take_append_drop]

lemma positional_take_le (d : List Byte) (k : ℕ) :
    positional 10 (d.take k) ≤ positional 10 d := by
  rw [positional_split 10 d k]
  exact (Nat.le_mul_of_pos_left _ (Nat.pow_pos (by decide))).trans (Nat.le_add_left _ _)

/-- Digits that denote the same number without the last of them denote zero. -/
lemma positional_eq_zero (hk : k < d.length) (h : positional 10 (d.take k) = positional 10 d) :
    positional 10 d = 0 := by
  have hsplit := positional_split 10 d k
  have hpow : 10 ≤ 10 ^ (d.length - k) := Nat.le_self_pow (by omega) 10
  have hmul := Nat.mul_le_mul_right (positional 10 (d.take k)) hpow
  omega

lemma stoi_take_hex (hw : startsHex w = true) :
    stoi (w.take k) = if k = 0 then none else some 0 := by
  rcases w with _ | ⟨zero, _ | ⟨x, r⟩⟩
  · cases hw
  · cases hw
  · simp only [startsHex, Bool.and_eq_true, Bool.or_eq_true, beq_iff_eq] at hw
    obtain ⟨rfl, hx⟩ := hw
    have hxd : isDigit x = false := by rcases hx with rfl | rfl <;> decide
    rcases k with _ | _ | k
    · rfl
    · rw [List.take_succ_cons, List.take_zero, stoi_of_digit (by decide)]
      decide
    · rw [List.take_succ_cons, List.take_succ_cons, stoi_of_digit (by decide),
        List.takeWhile_cons_of_pos (by decide), List.takeWhile_cons_of_neg (by simp [hxd]),
        if_neg (Nat.succ_ne_zero _)]
      decide

lemma takeWhile_digits (hd : ∀ c ∈ d, isDigit c = true) (hs : IsSuffix s) :
    (d ++ s).takeWhile isDigit = d := by
  have hletter : ∀ c ∈ bytes "fFuUlL", isDigit c = false := by decide
  rw [List.takeWhile_append_of_pos hd]
  cases s with
  | nil => exact List.append_nil d
  | cons c s =>
      have hc := hletter c (head_suffix hs c rfl)
      rw [List.takeWhile_cons_of_neg (by simp [hc]), List.append_nil]

lemma stoi_take_int (hne : d ≠ []) (hd : ∀ c ∈ d, isDigit c = true) (hs : IsSuffix s) :
    stoi ((d ++ s).take k) = if k = 0 then none else asInt32 (positional 10 (d.take k)) := by
  rcases k with _ | k
  · rfl
  · have hcut : ((d ++ s).take (k + 1)).takeWhile isDigit = d.take (k + 1) := by
      rw [List.take_append]
      exact takeWhile_digits (fun c hc => hd c (List.mem_of_mem_take hc))
        fun c hc => hs c (List.mem_of_mem_take hc)
    obtain ⟨c, d, rfl⟩ := List.exists_cons_of_ne_nil hne
    rw [List.cons_append, List.take_succ_cons] at hcut ⊢
    rw [stoi_of_digit (hd c List.mem_cons_self), hcut]
    rfl

/-- The integer of a numeral is kept when only `k` bytes of the numeral are read.  Of a
hexadecimal numeral, which is read as its leading `0`, that is so when it denotes zero. -/
def Kept (k : ℕ) (w : List Byte) : Prop :=
  if startsHex w then if k = 0 then 2 ^ 31 ≤ intValue w else intValue w = 0
  else (w.takeWhile isDigit).length ≤ k ∨ (k ≠ 0 ∧ intValue w = 0) ∨
    (2 ^ 31 ≤ intValue w ∧ (k = 0 ∨ 2 ^ 31 ≤ positional 10 ((w.takeWhile isDigit).take k)))

lemma asInt32_eq_none {v : ℕ} : asInt32 v = none ↔ 2 ^ 31 ≤ v := by
  rw [asInt32]
  split_ifs with h
  · exact ⟨fun h' => (by cases h'), fun h' => absurd h (not_lt.mpr h')⟩
  · exact ⟨fun _ => not_lt.mp h, fun _ => rfl⟩

lemma asInt32_eq_asInt32 {u v : ℕ} :
    asInt32 u = asInt32 v ↔ u = v ∨ 2 ^ 31 ≤ u ∧ 2 ^ 31 ≤ v := by
  simp only [asInt32]
  split_ifs <;> simp <;> omega

lemma startsHex_int (hd : ∀ c ∈ d, isDigit c = true) (hs : IsSuffix s) :
    startsHex (d ++ s) = false := by
  have hno {zero x : Byte} {r : List Byte} (hx : x ≠ 'x'.toUInt8 ∧ x ≠ 'X'.toUInt8) :
      startsHex (zero :: x :: r) = false := by
    simp [startsHex, hx.1, hx.2]
  have hletter : ∀ c ∈ bytes "fFuUlL", c ≠ 'x'.toUInt8 ∧ c ≠ 'X'.toUInt8 := by decide
  have hsuffix : ∀ c ∈ s, c ≠ 'x'.toUInt8 ∧ c ≠ 'X'.toUInt8 := by
    intro c hc
    have htake : IsSuffix [c] := fun a ha => hs a (by rwa [List.mem_singleton.mp ha])
    exact hletter c (head_suffix htake c rfl)
  rcases d with _ | ⟨c, _ | ⟨x, d⟩⟩
  · rcases s with _ | ⟨c, _ | ⟨x, s⟩⟩
    · rfl
    · rfl
    · exact hno (hsuffix x (by simp))
  · rcases s with _ | ⟨x, s⟩
    · rfl
    · exact hno (hsuffix x List.mem_cons_self)
  · refine hno ?_
    have hdigit := hd x (by simp)
    constructor <;> rintro rfl <;> exact absurd hdigit (by decide)

/-- `stoi` finds the integer of the numeral in its first `k` bytes exactly when it is kept. -/
lemma stoi_take_iff (hw : TakesNumber w LInt) :
    stoi (w.take k) = asInt32 (intValue w) ↔ Kept k w := by
  cases hw with
  | @hex h hhex _ =>
      have hstarts : startsHex w = true := by
        obtain ⟨x, suffix, hx, -, -, rfl⟩ := hhex
        rcases hx with rfl | rfl <;> rfl
      rw [stoi_take_hex hstarts, Kept, if_pos hstarts]
      split_ifs with hk
      · rw [eq_comm, asInt32_eq_none]
      · rw [show some (0 : ℤ) = asInt32 0 from rfl, asInt32_eq_asInt32]
        omega
  | @int d s hne hd hs hw =>
      have hstarts : startsHex w = false := hw ▸ startsHex_int hd hs
      have hvalue : intValue w = positional 10 d := by
        rw [intValue, hstarts, hw, takeWhile_digits hd hs]
        rfl
      have hlen := List.length_pos_iff.mpr hne
      rw [hvalue, Kept, hstarts, hw, stoi_take_int hne hd hs, takeWhile_digits hd hs, ← hw, hvalue]
      simp only [Bool.false_eq_true, if_false]
      split_ifs with hk
      · rw [eq_comm, asInt32_eq_none]
        omega
      · rw [asInt32_eq_asInt32]
        by_cases hall : d.length ≤ k
        · rw [List.take_of_length_le hall]
          exact ⟨fun _ => .inl hall, fun _ => .inl rfl⟩
        · have hzero := positional_eq_zero (not_le.mp hall)
          have hle := positional_take_le d k
          omega

/-! ## The visitors of a literal -/

/-- Wherever `x` is run, it returns the 32-bit constant, or fails if the value does not fit. -/
def Yields (x : CodegenM (Option Value)) (value : ℕ) : Prop := ∀ s,
  (value < 2 ^ 31 → x s = some (.ok (some (.constant (.int .int32 value)), s))) ∧
    (2 ^ 31 ≤ value → ∃ failure, x s = some (.error failure))

/-- What a visitor that calls `stoi` returns. -/
def constantOrThrow (value : Option ℤ) : CodegenM (Option Value) := fun s =>
  match value with
  | some value => some (.ok (some (.constant (.int .int32 value)), s))
  | none => some (.error .stdException)

lemma yields_iff {o : Option ℤ} {v : ℕ} : Yields (constantOrThrow o) v ↔ o = asInt32 v := by
  by_cases hv : v < 2 ^ 31
  · rw [asInt32, if_pos hv]
    constructor
    · intro h
      have hvalue := (h {}).1 hv
      cases o with
      | none => cases hvalue
      | some value =>
          simp only [constantOrThrow, Option.some.injEq, Except.ok.injEq, Prod.mk.injEq,
            Value.constant.injEq, Constant.int.injEq, true_and, and_true] at hvalue
          rw [hvalue]
    · rintro rfl s
      exact ⟨fun _ => rfl, fun h => absurd hv (not_lt.mpr h)⟩
  · rw [asInt32, if_neg hv]
    constructor
    · intro h
      obtain ⟨failure, hfail⟩ := (h {}).2 (not_lt.mp hv)
      cases o with
      | none => rfl
      | some value => cases hfail
    · rintro rfl s
      exact ⟨fun h => absurd h hv, fun _ => ⟨_, rfl⟩⟩

namespace Compiler

variable {P : Program} {c : CodegenCalls} {i : NodeId} {tok : Token}

/-- The node `i` is the literal that the parser makes of `tok`. -/
structure IsLiteral (P : Program) (i : NodeId) (tok : Token) : Prop where
  valid : i ≠ kNullNode
  node : P.tree[i]? = some (tokenNode LiteralExpr tok)

/-- Both visitors call `stoi` with the text of the token. -/
lemma IsLiteral.visitors (h : IsLiteral P i tok) (htype : tok.type = LInt)
    (hinside : tok.globalOffset + tok.size ≤ P.source.length) :
    codegenLiteralExpr P i = constantOrThrow (stoi (tok.text P.source)) ∧
      evaluateConstantExpr P c i = constantOrThrow (stoi (tok.text P.source)) := by
  have hop : (tokenNode LiteralExpr tok).data.op = LInt.code := by
    rw [tokenNode, htype]
    exact Data.op_literal _ _
  have hvalue (s : Compiler) : literalValue P LInt.code (tok.text P.source) s =
      constantOrThrow (stoi (tok.text P.source)) s := by
    rw [literalValue, if_pos rfl]
    cases stoi (tok.text P.source) <;> rfl
  constructor
  · funext s
    rw [codegenLiteralExpr, Comp.bind_apply (getNodeSnippet_token s h.valid h.node hinside),
      getNode_eq h.node, Comp.bind_apply (Comp.pure_apply _ s), hop]
    exact hvalue s
  · funext s
    rw [evaluateConstantExpr, if_neg h.valid, getNode_eq h.node,
      Comp.bind_apply (Comp.pure_apply _ s)]
    show (getNodeSnippet P i >>= fun text => _) s = _
    rw [Comp.bind_apply (getNodeSnippet_token s h.valid h.node hinside), hop, Comp.bind_eq,
      hvalue s]
    cases stoi (tok.text P.source) <;> rfl

end Compiler

/-! ## The result -/

open Compiler

/-- The number token that call number `n` returns has a well-formed lexeme, and if it is an
integer, both visitors of its literal yield what the lexeme denotes. -/
structure KeepsValue (src : List Byte) (n : ℕ) : Prop where
  numeral : Numeral (spanAt src n).2
  value : (tokenAt src n).type = LInt → ∀ P c i, P.source = src → IsLiteral P i (tokenAt src n) →
    Yields (codegenLiteralExpr P i) (intValue (spanAt src n).2) ∧
      Yields (evaluateConstantExpr P c i) (intValue (spanAt src n).2)

variable {src : List Byte} {n : ℕ}

lemma text_tokenAt : (tokenAt src n).text src =
    (spanAt src n).2.take ((spanAt src n).2.length % 2 ^ 16) := by
  have hlen := length_spanAt src n
  have hmod := Nat.mod_le (spanAt src n).2.length (2 ^ 16)
  have hsource := (onward_afterCalls src (n + 1)).1
  rw [← recorded_eq, recorded, getText, hsource, size_tokenAt, if_neg (by omega), Token.text,
    snippet, size_tokenAt]

lemma yields_literal_iff {P : Program} {c : CodegenCalls} {i : NodeId} (hP : P.source = src)
    (hi : IsLiteral P i (tokenAt src n)) (htype : (tokenAt src n).type = LInt) :
    (Yields (codegenLiteralExpr P i) (intValue (spanAt src n).2) ∧
      Yields (evaluateConstantExpr P c i) (intValue (spanAt src n).2)) ↔
    Kept ((spanAt src n).2.length % 2 ^ 16) (spanAt src n).2 := by
  have hlen := length_spanAt src n
  have hmod := Nat.mod_le (spanAt src n).2.length (2 ^ 16)
  have hinside : (tokenAt src n).globalOffset + (tokenAt src n).size ≤ P.source.length := by
    rw [hP, size_tokenAt]
    omega
  have htakes : TakesNumber (spanAt src n).2 (tokenAt src n).type :=
    takesNumber_of_isNumber (.inl htype)
  rw [htype] at htakes
  rw [(hi.visitors htype hinside (c := c)).1, (hi.visitors htype hinside (c := c)).2, and_self,
    yields_iff, hP, text_tokenAt, stoi_take_iff htakes]

lemma keepsValue_iff (h : IsNumber (tokenAt src n).type) : KeepsValue src n ↔
    (¬ BareHex (spanAt src n).2 ∧ ¬ BareExponent (spanAt src n).2) ∧
      ((tokenAt src n).type = LInt →
        Kept ((spanAt src n).2.length % 2 ^ 16) (spanAt src n).2) := by
  rw [← (takesNumber_of_isNumber h).numeral_iff]
  constructor
  · rintro ⟨hnumeral, hvalue⟩
    refine ⟨hnumeral, fun htype => ?_⟩
    have hi : IsLiteral ⟨[default, tokenNode LiteralExpr (tokenAt src n)], src, silentHost⟩ 1
        (tokenAt src n) := ⟨by decide, rfl⟩
    exact (yields_literal_iff rfl hi htype (c := ⟨fun _ => pure none, fun _ => pure none⟩)).mp
      (hvalue htype _ _ _ rfl hi)
  · rintro ⟨hnumeral, hkept⟩
    exact ⟨hnumeral, fun htype P c i hP hi =>
      (yields_literal_iff hP hi htype).mpr (hkept htype)⟩

/-- **Numeric literals keep their value** when no digits are missing behind `0x` and in the
exponent, and an integer is decimal, or zero.  From `2 ^ 16` bytes on, the value must be the same
for the bytes that the token records. -/
theorem numerals_keep_value (src : List Byte) (n : ℕ) (h : IsNumber (tokenAt src n).type) :
    KeepsValue src n ↔ (¬ BareHex (spanAt src n).2 ∧ ¬ BareExponent (spanAt src n).2) ∧
      ((tokenAt src n).type = LInt →
        Kept ((spanAt src n).2.length % 2 ^ 16) (spanAt src n).2) := keepsValue_iff h

/-- `42` is kept. -/
theorem numerals_keep_value_sample : IsNumber (tokenAt (bytes "42") 0).type ∧
    KeepsValue (bytes "42") 0 := by
  have hnumber : IsNumber (tokenAt (bytes "42") 0).type := .inl (by decide +kernel)
  have hspan : (spanAt (bytes "42") 0).2 = bytes "42" := by decide +kernel
  refine ⟨hnumber, (numerals_keep_value _ 0 hnumber).mpr ?_⟩
  rw [hspan]
  have hnumeral : Numeral (bytes "42") :=
    .inr (.inl ⟨bytes "42", [], [], by decide, by decide, .inl rfl, fun c hc => (by cases hc), rfl⟩)
  refine ⟨hnumeral.not_bare, fun _ => ?_⟩
  rw [Kept, if_neg (by decide)]
  exact .inl (by decide)

/-- `0x1F` is zero for the code generator. -/
theorem hex_not_kept : ¬ KeepsValue (bytes "0x1F") 0 := by
  have hspan : (spanAt (bytes "0x1F") 0).2 = bytes "0x1F" := by decide +kernel
  have htype : (tokenAt (bytes "0x1F") 0).type = LInt := by decide +kernel
  rw [keepsValue_iff (.inl htype)]
  rintro ⟨-, hkept⟩
  have hzero := hkept htype
  rw [hspan, Kept, if_pos (by decide), if_neg (by decide)] at hzero
  exact absurd hzero (by decide)

end LogicCompiler
