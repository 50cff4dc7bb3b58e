import LogicCompiler.Lexer.Munching
import LogicCompiler.Lexer.Recording
import Mathlib.Data.Nat.Digits.Defs

/-!
# Numerals

`Numeral` is the grammar of numbers: a hexadecimal numeral, or digits with an optional fraction and
an optional exponent, and suffix letters behind either.  `intValue` is the integer that a numeral
without fraction and exponent denotes, in base 16 or 10.

`lexNumber` takes the longest text of its own grammar, in which the hexadecimal digits and the
digits of the exponent may be missing (`Scanned`).  So the lexeme of a number is a numeral unless
it is one of these two (`numeral_iff`).
-/

namespace LogicCompiler

open TokenType

namespace Lexer

/-! ## The grammar -/

/-- Bytes that may all stand in the suffix of a number. -/
def IsSuffix (w : List Byte) : Prop := ∀ c ∈ w, isNumberSuffix c = true

/-- `.` and digits, or nothing. -/
def IsFraction (w : List Byte) : Prop :=
  w = [] ∨ ∃ d, d ≠ [] ∧ w = '.'.toUInt8 :: d ∧ ∀ c ∈ d, isDigit c = true

/-- A sign in front of an exponent, or none. -/
def IsSign (w : List Byte) : Prop := w = [] ∨ w = ['+'.toUInt8] ∨ w = ['-'.toUInt8]

/-- `e` or `E`, with an optional sign, in front of `d`. -/
def Exponent (d w : List Byte) : Prop :=
  ∃ e sign, (e = 'e'.toUInt8 ∨ e = 'E'.toUInt8) ∧ IsSign sign ∧ w = e :: (sign ++ d)

/-- `0x` or `0X`, in front of `h` and a suffix. -/
def HexNumeral (h w : List Byte) : Prop :=
  ∃ x suffix, (x = 'x'.toUInt8 ∨ x = 'X'.toUInt8) ∧ (∀ c ∈ h, isXDigit c = true) ∧
    IsSuffix suffix ∧ w = '0'.toUInt8 :: x :: (h ++ suffix)

/-- Digits, a fraction, an exponent and a suffix. -/
def DecimalNumeral (exponent w : List Byte) : Prop :=
  ∃ d fraction suffix, d ≠ [] ∧ (∀ c ∈ d, isDigit c = true) ∧ IsFraction fraction ∧
    IsSuffix suffix ∧ w = d ++ (fraction ++ (exponent ++ suffix))

/-- A well-formed number. -/
def Numeral (w : List Byte) : Prop :=
  (∃ h, h ≠ [] ∧ HexNumeral h w) ∨ DecimalNumeral [] w ∨
    ∃ d exponent, d ≠ [] ∧ (∀ c ∈ d, isDigit c = true) ∧ Exponent d exponent ∧
      DecimalNumeral exponent w

/-- `0x` without a hexadecimal digit. -/
def BareHex (w : List Byte) : Prop :=
  HexNumeral [] w ∧ ∀ c ∈ (w.drop 2).head?, isXDigit c = false

/-- An exponent without a digit. -/
def BareExponent (w : List Byte) : Prop :=
  ∃ exponent, Exponent [] exponent ∧ DecimalNumeral exponent w

/-- The number a digit stands for, in either case. -/
def digitValue (c : Byte) : ℕ :=
  if isDigit c then c.toNat - 48 else if 'a'.toUInt8 ≤ c then c.toNat - 87 else c.toNat - 55

/-- The number that digits denote, the most significant one first. -/
def positional (base : ℕ) (digits : List Byte) : ℕ :=
  Nat.ofDigits base (digits.map digitValue).reverse

/-- The word starts with `0x` or `0X`. -/
def startsHex : List Byte → Bool
  | zero :: x :: _ => zero == '0'.toUInt8 && (x == 'x'.toUInt8 || x == 'X'.toUInt8)
  | _ => false

/-- The integer that a numeral denotes in its base. -/
def intValue (w : List Byte) : ℕ :=
  if startsHex w then positional 16 ((w.drop 2).takeWhile isXDigit)
  else positional 10 (w.takeWhile isDigit)

/-! ## A number is read in one way -/

variable {w d d' s s' exponent exponent' fraction fraction' suffix : List Byte} {p : Byte → Bool}

/-- Two ways to split a text where a run ends. -/
lemma split_unique (h : d ++ s = d' ++ s') (hd : ∀ c ∈ d, p c = true) (hd' : ∀ c ∈ d', p c = true)
    (hs : ∀ c ∈ s.head?, p c = false) (hs' : ∀ c ∈ s'.head?, p c = false) : d = d' ∧ s = s' := by
  have hrest := congrArg (List.dropWhile p) h
  rw [dropWhile_append_of_head hd hs, dropWhile_append_of_head hd' hs'] at hrest
  subst hrest
  exact ⟨List.append_cancel_right h, rfl⟩

/-- What may stand behind the digits of a number, and behind its fraction. -/
def IsExponent (w : List Byte) : Prop :=
  w = [] ∨ ∃ d, (∀ c ∈ d, isDigit c = true) ∧ Exponent d w

lemma head_suffix (hs : IsSuffix suffix) :
    ∀ c ∈ suffix.head?, c ∈ (bytes "fFuUlL") := by
  intro c hc
  have hsuffix := hs c (List.mem_of_mem_head? hc)
  simp only [isNumberSuffix, Bool.or_eq_true, beq_iff_eq] at hsuffix
  rcases hsuffix with ((((rfl | rfl) | rfl) | rfl) | rfl) | rfl <;> decide

lemma head_exponent (he : IsExponent exponent) (hs : IsSuffix suffix) :
    ∀ c ∈ (exponent ++ suffix).head?, c ∈ bytes "eEfFuUlL" := by
  rcases he with rfl | ⟨d, -, e, sign, he, -, rfl⟩
  · have hsub : ∀ c ∈ bytes "fFuUlL", c ∈ bytes "eEfFuUlL" := by decide
    exact fun c hc => hsub c (head_suffix hs c hc)
  · intro c hc
    obtain rfl : e = c := Option.some.inj hc
    rcases he with rfl | rfl <;> decide

lemma head_fraction (hf : IsFraction fraction) (he : IsExponent exponent) (hs : IsSuffix suffix) :
    ∀ c ∈ (fraction ++ (exponent ++ suffix)).head?, c ∈ bytes ".eEfFuUlL" := by
  rcases hf with rfl | ⟨d, -, rfl, -⟩
  · have hsub : ∀ c ∈ bytes "eEfFuUlL", c ∈ bytes ".eEfFuUlL" := by decide
    exact fun c hc => hsub c (head_exponent he hs c hc)
  · intro c hc
    obtain rfl : '.'.toUInt8 = c := Option.some.inj hc
    decide

lemma fraction_unique (h : fraction ++ s = fraction' ++ s') (hf : IsFraction fraction)
    (hf' : IsFraction fraction') (hs : ∀ c ∈ s.head?, c ∈ bytes "eEfFuUlL")
    (hs' : ∀ c ∈ s'.head?, c ∈ bytes "eEfFuUlL") : s = s' := by
  have hletter : ∀ c ∈ bytes "eEfFuUlL", isDigit c = false := by decide
  have hdot : '.'.toUInt8 ∉ bytes "eEfFuUlL" := by decide
  rcases hf with rfl | ⟨d, -, rfl, hd⟩ <;> rcases hf' with rfl | ⟨d', -, rfl, hd'⟩
  · exact h
  · exact absurd (hs _ (by rw [show s = _ from h]; rfl)) hdot
  · exact absurd (hs' _ (by rw [← show _ = s' from h]; rfl)) hdot
  · exact (split_unique (List.cons.inj h).2 hd hd' (fun c hc => hletter c (hs c hc))
      fun c hc => hletter c (hs' c hc)).2

lemma sign_unique {sign sign' : List Byte} (h : sign ++ s = sign' ++ s') (hsign : IsSign sign)
    (hsign' : IsSign sign') (hs : ∀ c ∈ s.head?, c ≠ '+'.toUInt8 ∧ c ≠ '-'.toUInt8)
    (hs' : ∀ c ∈ s'.head?, c ≠ '+'.toUInt8 ∧ c ≠ '-'.toUInt8) : s = s' := by
  have hplus : '+'.toUInt8 ≠ '-'.toUInt8 := by decide
  rcases hsign with rfl | rfl | rfl <;> rcases hsign' with rfl | rfl | rfl
  · exact h
  · exact absurd rfl (hs _ (by rw [show s = _ from h]; rfl)).1
  · exact absurd rfl (hs _ (by rw [show s = _ from h]; rfl)).2
  · exact absurd rfl (hs' _ (by rw [← show _ = s' from h]; rfl)).1
  · exact (List.cons.inj h).2
  · exact absurd (List.cons.inj h).1 hplus
  · exact absurd rfl (hs' _ (by rw [← show _ = s' from h]; rfl)).2
  · exact absurd (List.cons.inj h).1.symm hplus
  · exact (List.cons.inj h).2

lemma digits_unique {fraction fraction' suffix suffix' : List Byte}
    (hf : IsFraction fraction) (hf' : IsFraction fraction') (he : IsExponent exponent)
    (he' : IsExponent exponent') (hs : IsSuffix suffix) (hs' : IsSuffix suffix')
    (hd : ∀ c ∈ d, isDigit c = true) (hd' : ∀ c ∈ d', isDigit c = true)
    (h : d ++ (fraction ++ (exponent ++ suffix)) = d' ++ (fraction' ++ (exponent' ++ suffix'))) :
    exponent ++ suffix = exponent' ++ suffix' := by
  have hletter : ∀ c ∈ bytes ".eEfFuUlL", isDigit c = false := by decide
  have hbehind := (split_unique h hd hd' (fun c hc => hletter c (head_fraction hf he hs c hc))
    fun c hc => hletter c (head_fraction hf' he' hs' c hc)).2
  exact fraction_unique hbehind hf hf' (head_exponent he hs) (head_exponent he' hs')

/-- An exponent has its digits, or it has none. -/
lemma bareExponent_unique (h : DecimalNumeral exponent w) (h' : DecimalNumeral exponent' w)
    (he : Exponent [] exponent) (he' : IsExponent exponent') : Exponent [] exponent' := by
  obtain ⟨d, fraction, suffix, -, hd, hf, hs, rfl⟩ := h
  obtain ⟨d', fraction', suffix', -, hd', hf', hs', hw⟩ := h'
  have hsame := digits_unique hf hf' (.inr ⟨[], fun _ h => (by cases h), he⟩) he' hs hs' hd hd' hw
  obtain ⟨e, sign, hletter, hsign, rfl⟩ := he
  rcases he' with rfl | ⟨f, hfd, e', sign', hletter', hsign', rfl⟩
  · have hhead := head_suffix hs' e (by rw [← show _ = suffix' from hsame]; rfl)
    rcases hletter with rfl | rfl <;> exact absurd hhead (by decide)
  · refine ⟨e', sign', hletter', hsign', ?_⟩
    rcases f with _ | ⟨c, f⟩
    · rfl
    · have hdigit := hfd c List.mem_cons_self
      have htail : sign ++ suffix = sign' ++ (c :: f ++ suffix') := by
        have h : (sign ++ []) ++ suffix = (sign' ++ c :: f) ++ suffix' := (List.cons.inj hsame).2
        rwa [List.append_nil, List.append_assoc] at h
      have hunsigned : ∀ c ∈ bytes "fFuUlL", c ≠ '+'.toUInt8 ∧ c ≠ '-'.toUInt8 := by decide
      have hcut := sign_unique htail hsign hsign' (fun a ha => hunsigned a (head_suffix hs a ha)) (by
        intro a ha
        obtain rfl : c = a := Option.some.inj ha
        constructor <;> rintro rfl <;> exact absurd hdigit (by decide))
      have hhead := head_suffix hs c (by rw [hcut]; rfl)
      have hletters : ∀ c ∈ bytes "fFuUlL", isDigit c = false := by decide
      rw [hletters c hhead] at hdigit
      cases hdigit

lemma not_exponent_nil : ¬ Exponent d [] := by
  rintro ⟨e, sign, -, -, h⟩
  cases h

/-- The digits of an exponent are determined by the exponent. -/
lemma Exponent.eq_nil (h : Exponent [] w) (h' : Exponent d w) (hd : ∀ c ∈ d, isDigit c = true) :
    d = [] := by
  obtain ⟨e, sign, -, hsign, rfl⟩ := h
  obtain ⟨e', sign', -, hsign', hw⟩ := h'
  refine (sign_unique (List.cons.inj hw).2 hsign hsign' (fun c hc => by cases hc) ?_).symm
  intro c hc
  have hdigit := hd c (List.mem_of_mem_head? hc)
  constructor <;> rintro rfl <;> exact absurd hdigit (by decide)

lemma not_hex_of_decimal (h : DecimalNumeral exponent w) (he : IsExponent exponent) :
    ¬ HexNumeral s w := by
  rintro ⟨x, suffix', hx, -, -, hw⟩
  obtain ⟨d, fraction, suffix, -, hd, hf, hs, rfl⟩ := h
  have hletter : ∀ c ∈ bytes ".eEfFuUlL", isDigit c = false := by decide
  have hsplit : d ++ (fraction ++ (exponent ++ suffix)) = ['0'.toUInt8] ++ x :: (s ++ suffix') := hw
  have hbehind := (split_unique hsplit hd (by decide)
    (fun c hc => hletter c (head_fraction hf he hs c hc)) (by
      intro c hc
      obtain rfl : x = c := Option.some.inj hc
      rcases hx with rfl | rfl <;> decide)).2
  have hhead := head_fraction hf he hs x (by rw [hbehind]; rfl)
  rcases hx with rfl | rfl <;> exact absurd hhead (by decide)

/-- Numerals have the digits that may be missing in what `lexNumber` takes. -/
lemma Numeral.not_bare (h : Numeral w) : ¬ BareHex w ∧ ¬ BareExponent w := by
  constructor
  · rintro ⟨hhex, hbare⟩
    rcases h with ⟨h, hne, x, suffix, -, hdigits, -, rfl⟩ | h | ⟨d, exponent, -, hd, he, h⟩
    · obtain ⟨c, h, rfl⟩ := List.exists_cons_of_ne_nil hne
      have hdigit := hdigits c List.mem_cons_self
      rw [hbare c rfl] at hdigit
      cases hdigit
    · exact not_hex_of_decimal h (.inl rfl) hhex
    · exact not_hex_of_decimal h (.inr ⟨d, hd, he⟩) hhex
  · rintro ⟨exponent', he', hbare⟩
    have hexp : IsExponent exponent' := .inr ⟨[], fun _ h => (by cases h), he'⟩
    rcases h with ⟨h, hne, hhex⟩ | h | ⟨d, exponent, hne, hd, he, h⟩
    · exact not_hex_of_decimal hbare hexp hhex
    · exact not_exponent_nil (bareExponent_unique hbare h he' (.inl rfl))
    · exact hne ((bareExponent_unique hbare h he' (.inr ⟨d, hd, he⟩)).eq_nil he hd)

/-! ## What `lexNumber` takes -/

variable {l : Lexer} {r : List Byte}

/-- A loop takes a run of bytes, up to the first one that fails its test. -/
lemma advanceWhile_takes (hp : p 0 = false) (l : Lexer) : ∃ run, (∀ c ∈ run, p c = true) ∧
    l.rest = run ++ (l.advanceWhile p).rest ∧
      ∀ c ∈ (l.advanceWhile p).rest.head?, p c = false := by
  rw [rest_advanceWhile hp]
  refine ⟨l.rest.takeWhile p, fun c hc => List.mem_takeWhile_imp hc,
    List.takeWhile_append_dropWhile.symm, ?_⟩
  intro c hc
  have hnot := List.head?_dropWhile_not p l.rest
  rw [Option.mem_def.mp hc] at hnot
  exact hnot

lemma rest_of_peek {c : Byte} (hc : c ≠ 0) (h : l.peek = c) : l.rest = c :: l.advance.rest := by
  rw [peek_eq] at h
  rw [advance_rest]
  cases hr : l.rest with
  | nil =>
      rw [hr] at h
      exact absurd h.symm hc
  | cons a r =>
      rw [hr] at h
      rw [List.tail_cons, show a = c from h]

/-- The fraction that is taken; without one the number is no float yet. -/
lemma lexFraction_takes (l : Lexer) : ∃ fraction, IsFraction fraction ∧
    l.rest = fraction ++ l.lexFraction.2.rest ∧ (l.lexFraction.1 = false → fraction = []) := by
  by_cases hfrac : Fraction l.rest
  · rw [lexFraction_of hfrac]
    obtain ⟨d, r, hr, hd⟩ := hfrac
    have hrest : l.advance.rest = d :: r := by rw [advance_rest, hr]; rfl
    obtain ⟨run, hrun, hsplit, hend⟩ := advanceWhile_takes (p := isDigit) (by decide) l.advance
    refine ⟨'.'.toUInt8 :: run, .inr ⟨run, ?_, rfl, hrun⟩, ?_, fun h => by cases h⟩
    · rintro rfl
      rw [List.nil_append, hrest] at hsplit
      rw [← hsplit] at hend
      rw [hend d rfl] at hd
      cases hd
    · rw [List.cons_append, ← hsplit, hrest, hr]
  · rw [lexFraction_of_not hfrac]
    exact ⟨[], .inl rfl, rfl, fun _ => rfl⟩

/-- The exponent that is taken, possibly without digits. -/
lemma lexExponent_takes (isFloat : Bool) (l : Lexer) : ∃ exponent, IsExponent exponent ∧
    l.rest = exponent ++ (lexExponent isFloat l).2.rest ∧
      ((lexExponent isFloat l).1 = false → exponent = [] ∧ isFloat = false) := by
  simp only [lexExponent]
  split_ifs with hletter hsign
  · have hrest : l.rest = l.peek :: l.advance.rest :=
      rest_of_peek (by rcases hletter with h | h <;> rw [h] <;> decide) rfl
    have hrest' : l.advance.rest = l.advance.peek :: l.advance.advance.rest :=
      rest_of_peek (by rcases hsign with h | h <;> rw [h] <;> decide) rfl
    obtain ⟨run, hrun, hsplit, -⟩ :=
      advanceWhile_takes (p := isDigit) (by decide) l.advance.advance
    refine ⟨l.peek :: ([l.advance.peek] ++ run), ?_, ?_, fun h => by cases h⟩
    · refine .inr ⟨run, hrun, _, _, hletter, .inr ?_, rfl⟩
      exact hsign.imp (fun h => by rw [h]) fun h => by rw [h]
    · rw [List.cons_append, List.append_assoc, ← hsplit, hrest]
      exact congrArg _ hrest'
  · have hrest : l.rest = l.peek :: l.advance.rest :=
      rest_of_peek (by rcases hletter with h | h <;> rw [h] <;> decide) rfl
    obtain ⟨run, hrun, hsplit, -⟩ := advanceWhile_takes (p := isDigit) (by decide) l.advance
    refine ⟨l.peek :: ([] ++ run), ?_, ?_, fun h => by cases h⟩
    · exact .inr ⟨run, hrun, _, _, hletter, .inl rfl, rfl⟩
    · rw [List.cons_append, List.nil_append, ← hsplit]
      exact hrest
  · exact ⟨[], .inl rfl, rfl, fun h => ⟨rfl, h⟩⟩

/-- What a number is made of.  The digits of a hexadecimal numeral and of an exponent may be
missing. -/
inductive TakesNumber (w : List Byte) : TokenType → Prop
  | hex {h : List Byte} (hw : HexNumeral h w) (hbare : h = [] → BareHex w) : TakesNumber w LInt
  | float {exponent : List Byte} (he : IsExponent exponent) (hw : DecimalNumeral exponent w) :
      TakesNumber w LFloat
  | int {d suffix : List Byte} (hne : d ≠ []) (hd : ∀ c ∈ d, isDigit c = true)
      (hs : IsSuffix suffix) (hw : w = d ++ suffix) : TakesNumber w LInt

lemma lexNumber_type (l : Lexer) : l.lexNumber.1.type = if l.lexDigits.1 then LFloat else LInt := rfl

lemma lexNumber_rest (l : Lexer) : l.lexNumber.2 = l.lexDigits.2.advanceWhile isNumberSuffix := rfl

lemma lexHex_takes (hhex : Hex l.rest) (hr : l.rest = w ++ l.lexNumber.2.rest) :
    TakesNumber w l.lexNumber.1.type := by
  rw [lexNumber_type, lexDigits_of_hex hhex]
  rw [lexNumber_rest, lexDigits_of_hex hhex] at hr
  show TakesNumber w LInt
  obtain ⟨x, r, hxr, hx⟩ := hhex
  have hbehind : l.advance.advance.rest = r := by rw [advance_rest, advance_rest, hxr]; rfl
  obtain ⟨h, hh, hsplit, hend⟩ := advanceWhile_takes (p := isXDigit) (by decide) l.advance.advance
  obtain ⟨suffix, hs, hsplit', -⟩ := advanceWhile_takes (p := isNumberSuffix) (by decide)
    (l.advance.advance.advanceWhile isXDigit)
  have hw : w = '0'.toUInt8 :: x :: (h ++ suffix) := by
    refine List.append_cancel_right (hr.symm.trans ?_)
    rw [hxr, ← hbehind, hsplit, hsplit']
    simp only [List.cons_append, List.append_assoc]
  refine .hex ⟨x, suffix, hx, hh, hs, hw⟩ ?_
  rintro rfl
  refine ⟨⟨x, suffix, hx, hh, hs, hw⟩, ?_⟩
  intro c hc
  rw [hw] at hc
  refine hend c ?_
  rw [hsplit', List.head?_append, show suffix.head? = some c from hc]
  rfl

lemma lexDecimal_takes (hdigit : isDigit l.peek = true) (hhex : ¬ Hex l.rest)
    (hr : l.rest = w ++ l.lexNumber.2.rest) : TakesNumber w l.lexNumber.1.type := by
  obtain ⟨d, hd, hsplit, hend⟩ := advanceWhile_takes (p := isDigit) (by decide) l
  obtain ⟨fraction, hf, hsplit', hflag⟩ := lexFraction_takes (l.advanceWhile isDigit)
  set l' := l.advanceWhile isDigit
  obtain ⟨exponent, he, hsplit'', hflag'⟩ := lexExponent_takes l'.lexFraction.1 l'.lexFraction.2
  rw [lexNumber_type, lexDigits_of_not_hex hhex]
  rw [lexNumber_rest, lexDigits_of_not_hex hhex] at hr
  rw [show l.lexDecimal = lexExponent l'.lexFraction.1 l'.lexFraction.2 from rfl] at hr ⊢
  set out := lexExponent l'.lexFraction.1 l'.lexFraction.2
  obtain ⟨suffix, hs, hlast, -⟩ := advanceWhile_takes (p := isNumberSuffix) (by decide) out.2
  have hne : d ≠ [] := by
    rintro rfl
    have hpos : l.peek ≠ 0 := fun h => by rw [h] at hdigit; exact absurd hdigit (by decide)
    have hrest := rest_of_peek hpos rfl
    rw [List.nil_append] at hsplit
    rw [← hsplit, hrest] at hend
    rw [hend _ rfl] at hdigit
    cases hdigit
  have hw : w = d ++ (fraction ++ (exponent ++ suffix)) := by
    refine List.append_cancel_right (hr.symm.trans ?_)
    rw [hsplit, hsplit', hsplit'', hlast]
    simp only [List.append_assoc]
  cases hfloat : out.1 with
  | true => exact .float he ⟨d, fraction, suffix, hne, hd, hf, hs, hw⟩
  | false =>
      obtain ⟨rfl, hplain⟩ := hflag' hfloat
      rw [hflag hplain] at hw
      exact .int hne hd hs hw

/-- The only missing parts of what is taken for a number are these two. -/
lemma TakesNumber.numeral_iff {type : TokenType} (h : TakesNumber w type) :
    Numeral w ↔ ¬ BareHex w ∧ ¬ BareExponent w := by
  refine ⟨Numeral.not_bare, fun ⟨hhex, hexp⟩ => ?_⟩
  cases h with
  | @hex h hw hbare =>
      by_cases hnil : h = []
      · exact absurd (hbare hnil) hhex
      · exact .inl ⟨h, hnil, hw⟩
  | float he hw =>
      rcases he with rfl | ⟨d, hd, he⟩
      · exact .inr (.inl hw)
      · by_cases hnil : d = []
        · exact absurd ⟨_, hnil ▸ he, hw⟩ hexp
        · exact .inr (.inr ⟨d, _, hnil, hd, he, hw⟩)
  | int hne hd hs hw => exact .inr (.inl ⟨_, [], _, hne, hd, .inl rfl, hs, hw⟩)

/-! ## Number tokens -/

lemma stringMap_mem (sv : List Byte) : stringMap sv = TBD ∨ stringMap sv ∈ stringMapCases := by
  unfold stringMap
  split
  · next type h =>
      split_ifs
      · exact .inr (List.mem_of_find?_eq_some h)
      · exact .inl rfl
  · exact .inl rfl

lemma lexOperator_type (c : Byte) (l : Lexer) :
    (lexOperator c l).1 = Unknown ∨ IsOperator (lexOperator c l).1 := by
  by_cases hc : c ∈ operatorChars.map Char.toUInt8
  · obtain ⟨d, hd, rfl⟩ := List.mem_map.mp hc
    exact .inr (isOperator_of_mem hd _ (takes_operator hd rfl).mem)
  · rw [lexOperator_unknown hc]
    exact .inl rfl

/-- The token types of numbers. -/
def IsNumber (t : TokenType) : Prop := t = LInt ∨ t = LFloat

/-- The other scanners return no numbers. -/
lemma digit_of_isNumber (h : IsNumber l.lexToken.1.type) :
    isDigit l.peek = true ∧ l.lexToken = l.lexNumber := by
  have hword {t : TokenType} (ht : t = TBD ∨ t ∈ stringMapCases) : ¬ IsNumber t := by
    have htable : ∀ t ∈ stringMapCases, t ≠ LInt ∧ t ≠ LFloat := by decide
    rintro (rfl | rfl) <;> rcases ht with ht | ht
    · cases ht
    · exact (htable _ ht).1 rfl
    · cases ht
    · exact (htable _ ht).2 rfl
  have hoperator {t : TokenType} (ht : t = Unknown ∨ IsOperator t) : ¬ IsNumber t := by
    rintro (rfl | rfl) <;> rcases ht with ht | ht
    · cases ht
    · exact absurd ht (by decide)
    · cases ht
    · exact absurd ht (by decide)
  rw [lexToken] at h ⊢
  split_ifs at h ⊢ with hident hdigit hstring hchar
  · refine absurd h ?_
    simp only [lexIdentifierOrKeyword]
    split_ifs
    · rintro (h | h) <;> cases h
    · exact hword (stringMap_mem _)
  · exact ⟨hdigit, rfl⟩
  · rcases h with h | h <;> cases h
  · rcases h with h | h <;> cases h
  · exact absurd h (hoperator (lexOperator_type _ _))

lemma takesNumber_of_isNumber {src : List Byte} {n : ℕ} (h : IsNumber (tokenAt src n).type) :
    TakesNumber (spanAt src n).2 (tokenAt src n).type := by
  have hne : (tokenAt src n).type ≠ Eof := by
    intro heof
    rw [heof] at h
    rcases h with h | h <;> cases h
  rcases nextToken_lexToken hne with ⟨-, -, htok, hrest, -⟩
  rcases spanAt_append hne with ⟨hsplit, -⟩
  set l := (afterCalls src n).skipWhitespaceAndComments
  rw [htok] at h ⊢
  obtain ⟨hdigit, hnumber⟩ := digit_of_isNumber h
  rw [hnumber] at hrest ⊢
  rw [hrest] at hsplit
  by_cases hhex : Hex l.rest
  · exact lexHex_takes hhex hsplit
  · exact lexDecimal_takes hdigit hhex hsplit

end Lexer

end LogicCompiler
