import Mathlib.Data.Nat.Find
import LogicCompiler.Lexer.Tiling

/-!
# Relexing

The texts of the tokens of a source, joined by single blanks, are lexed to the same tokens.  A
scanner decides where its token ends by the bytes it takes and by what it sees behind them, and a
blank, like the end of the text, ends every token but a literal that is still open.  Such a literal
is the last token of its source.
-/

namespace LogicCompiler

open TokenType

namespace Lexer

/-! ## What a scanner sees behind its token -/

/-- Nothing, or a blank. -/
def Stops (t : List Byte) : Prop := ∀ c ∈ t.head?, c = ' '.toUInt8

/-- The second text is the first one, or it stops. -/
def Ends (r t : List Byte) : Prop := t = r ∨ Stops t

/-- The same for a scanner that looks at one byte only. -/
def Alike (r t : List Byte) : Prop := t.head? = r.head? ∨ Stops t

/-- The same for a scanner that looks at a second byte behind a `.`. -/
def AlikeDot (r t : List Byte) : Prop :=
  Ends r t ∨ t.head? = r.head? ∧ r.head? ≠ some '.'.toUInt8

lemma Ends.alike {r t : List Byte} (h : Ends r t) : Alike r t := by
  rcases h with rfl | h
  · exact Or.inl rfl
  · exact Or.inr h

lemma AlikeDot.alike {r t : List Byte} (h : AlikeDot r t) : Alike r t := by
  rcases h with h | h
  · exact h.alike
  · exact Or.inl h.1

lemma Alike.append {r t : List Byte} (h : Alike r t) (w : List Byte) :
    Alike (w ++ r) (w ++ t) := by
  cases w with
  | nil => exact h
  | cons c w => exact Or.inl rfl

/-- A word that does not begin with a dot hides what is behind it. -/
lemma AlikeDot.append {r t w : List Byte} (h : AlikeDot r t) (hw : w.head? ≠ some '.'.toUInt8) :
    AlikeDot (w ++ r) (w ++ t) := by
  cases w with
  | nil => exact h
  | cons c w => exact Or.inr ⟨rfl, hw⟩

lemma stops_nil : Stops [] := fun _ h => by cases h

lemma stops_blank (t : List Byte) : Stops (' '.toUInt8 :: t) := fun _ h => (Option.some.inj h).symm

/-- Where two continuations look alike, a test that fails on the one fails on the other. -/
lemma Alike.not_head {r t : List Byte} (h : Alike r t) {p : Byte → Bool} (hblank : p ' '.toUInt8 = false)
    (hr : ∀ c ∈ r.head?, p c = false) : ∀ c ∈ t.head?, p c = false := by
  intro c hc
  rcases h with h | h
  · exact hr c (h ▸ hc)
  · rw [h c hc]
    exact hblank

/-! ## Scanners -/

/-- What the scanner does depends on the bytes it takes only, and on what it sees behind them. -/
structure Local (B : List Byte → List Byte → Prop) {α : Type} (X : Lexer → α × Lexer) : Prop where
  suffix : ∀ l, (X l).2.rest <:+ l.rest
  same : ∀ {l l' : Lexer} {w r t : List Byte}, l.rest = w ++ r → (X l).2.rest = r →
    l'.rest = w ++ t → B r t → (X l').1 = (X l).1 ∧ (X l').2.rest = t

namespace Local

variable {α β : Type} {B B' : List Byte → List Byte → Prop} {X : Lexer → α × Lexer}

/-- A condition on what stands behind may be strengthened. -/
lemma mono (h : Local B' X) (hB : ∀ {r t}, B r t → B' r t) : Local B X where
  suffix := h.suffix
  same hl hr hl' hb := h.same hl hr hl' (hB hb)

/-- One scanner behind the other. -/
lemma bind {Y : α → Lexer → β × Lexer} (hX : Local B' X) (hY : ∀ a, Local B (Y a))
    (hB : ∀ {a l w r t}, l.rest = w ++ r → (Y a l).2.rest = r → B r t → B' (w ++ r) (w ++ t)) :
    Local B fun l => Y (X l).1 (X l).2 where
  suffix l := ((hY _).suffix _).trans (hX.suffix l)
  same := by
    intro l l' w r t hl hr hl' hb
    rcases (hY (X l).1).suffix (X l).2 with ⟨w₂, h₂⟩
    rcases hX.suffix l with ⟨w₁, h₁⟩
    rw [hr] at h₂
    rw [← h₂, ← List.append_assoc, hl] at h₁
    obtain rfl : w₁ ++ w₂ = w := List.append_cancel_right h₁
    rw [List.append_assoc] at hl hl'
    rcases hX.same hl h₂.symm hl' (hB h₂.symm hr hb) with ⟨hval, hrest⟩
    show (Y (X l').1 (X l').2).1 = _ ∧ (Y (X l').1 (X l').2).2.rest = t
    rw [hval]
    exact (hY _).same h₂.symm hr hrest hb

/-- A scanner that takes nothing. -/
lemma stay (a : α) : Local B fun l => (a, l) where
  suffix _ := List.suffix_rfl
  same := by
    intro l l' w r t hl hr hl' _
    obtain rfl : w = [] := by simpa using hl.symm.trans hr
    exact ⟨rfl, hl'⟩

end Local

lemma dropWhile_append_eq {p : Byte → Bool} {w r : List Byte} (h : (w ++ r).dropWhile p = r) :
    (∀ c ∈ w, p c = true) ∧ ∀ c ∈ r.head?, p c = false := by
  have hw : w.dropWhile p = [] := by
    by_contra hne
    rw [List.dropWhile_append, if_neg (by simpa using hne)] at h
    exact hne (by simpa using h)
  rw [List.dropWhile_append, if_pos (by simp [hw])] at h
  refine ⟨List.dropWhile_eq_nil_iff.mp hw, fun c hc => ?_⟩
  have hnot := List.head?_dropWhile_not p r
  rw [h, hc] at hnot
  simpa using hnot

lemma dropWhile_append_of_head {p : Byte → Bool} {w t : List Byte} (hw : ∀ c ∈ w, p c = true)
    (ht : ∀ c ∈ t.head?, p c = false) : (w ++ t).dropWhile p = t := by
  rw [List.dropWhile_append, if_pos (by simpa using hw)]
  cases t with
  | nil => rfl
  | cons c t => simp [ht c rfl]

lemma local_advanceWhile {α : Type} {p : Byte → Bool} (hp : p 0 = false)
    (hblank : p ' '.toUInt8 = false) (a : α) : Local Alike fun l => (a, l.advanceWhile p) where
  suffix l := ((Onward.refl l).advanceWhile p).suffix
  same := by
    intro l l' w r t hl hr hl' hb
    rw [rest_advanceWhile hp, hl] at hr
    rcases dropWhile_append_eq hr with ⟨hw, hstop⟩
    refine ⟨rfl, ?_⟩
    rw [rest_advanceWhile hp, hl']
    exact dropWhile_append_of_head hw (hb.not_head hblank hstop)

/-! ## Numbers -/

/-- A fraction begins here. -/
def Fraction (s : List Byte) : Prop := ∃ d r, s = '.'.toUInt8 :: d :: r ∧ isDigit d = true

/-- A fraction is taken where one stands. -/
lemma lexFraction_of {l : Lexer} (h : Fraction l.rest) :
    l.lexFraction = (true, l.advance.advanceWhile isDigit) := by
  rcases h with ⟨d, r, hs, hd⟩
  rw [lexFraction, peek_eq, peek_eq, hs]
  exact if_pos ⟨rfl, hd⟩

lemma lexFraction_of_not {l : Lexer} (h : ¬ Fraction l.rest) : l.lexFraction = (false, l) := by
  rw [lexFraction, if_neg]
  rintro ⟨hdot, hd⟩
  rcases rest_eq_of_peek (by decide) (fun h0 => by rw [h0] at hd; exact absurd hd (by decide)) hdot
    rfl with ⟨r, hs⟩
  exact h ⟨_, r, hs, hd⟩

lemma local_fraction : Local AlikeDot lexFraction where
  suffix l := (Onward.refl l).lexFraction.suffix
  same := by
    intro l l' w r t hl hr hl' hb
    by_cases hfrac : Fraction l.rest
    · have hmore := hfrac
      rcases hmore with ⟨d, s, hs, hd⟩
      rw [lexFraction_of hfrac] at hr ⊢
      have hstep : l.advance.rest = d :: s := by simp [hs]
      -- the dot and its digit are among what is taken
      have hw : ∃ w', w = '.'.toUInt8 :: d :: w' := by
        have hlen := congrArg List.length hr
        rw [rest_advanceWhile (by decide), hstep, List.dropWhile_cons_of_pos hd] at hlen
        have hle := (List.dropWhile_suffix (l := s) isDigit).length_le
        rw [hs] at hl
        rcases w with _ | ⟨a, _ | ⟨b, w⟩⟩
        · rw [List.nil_append] at hl
          rw [← hl] at hlen
          simp at hlen
          omega
        · obtain ⟨-, rfl⟩ := List.cons.inj hl
          simp at hlen
          omega
        · cases hl
          exact ⟨w, rfl⟩
      rcases hw with ⟨w, rfl⟩
      rw [lexFraction_of ⟨d, w ++ t, hl', hd⟩]
      refine ⟨rfl, ((local_advanceWhile (by decide) (by decide) ()).same (w := d :: w) ?_ hr ?_ hb.alike).2⟩
      · simp [hl]
      · simp [hl']
    · rw [lexFraction_of_not hfrac] at hr ⊢
      obtain rfl : w = [] := by simpa using hl.symm.trans hr
      rw [List.nil_append] at hl hl'
      have hnot : ¬ Fraction l'.rest := by
        rintro ⟨d, s, hs, hd⟩
        rw [hl'] at hs
        rcases hb with (rfl | hstop) | ⟨hhead, hdot⟩
        · exact hfrac ⟨d, s, hl.trans hs, hd⟩
        · rw [hs] at hstop
          exact absurd (hstop _ rfl) (by decide)
        · rw [hs] at hhead
          exact hdot hhead.symm
      rw [lexFraction_of_not hnot]
      exact ⟨rfl, hl'⟩

/-- Advances over a byte that passes the test. -/
def advanceIf (p : Byte → Bool) (l : Lexer) : Bool × Lexer :=
  if p l.peek then (true, l.advance) else (false, l)

lemma local_advanceIf {p : Byte → Bool} (hp : p 0 = false) (hblank : p ' '.toUInt8 = false) :
    Local Alike (advanceIf p) where
  suffix l := by
    rw [advanceIf]
    split_ifs
    · exact (Onward.refl l).advance.suffix
    · exact List.suffix_rfl
  same := by
    intro l l' w r t hl hr hl' hb
    by_cases hc : p l.peek = true
    · have hstep : advanceIf p l = (true, l.advance) := if_pos hc
      rw [hstep] at hr ⊢
      rw [peek_eq] at hc
      cases hs : l.rest with
      | nil =>
          rw [hs] at hc
          exact absurd hc (by simp [hp])
      | cons c s =>
          rw [hs] at hc
          obtain rfl : s = r := by simpa [hs] using hr
          obtain rfl : [c] = w := List.append_cancel_right (hs.symm.trans hl)
          have hpeek : p l'.peek = true := by simpa [peek_eq, hl'] using hc
          rw [advanceIf, if_pos hpeek]
          exact ⟨rfl, by simp [hl']⟩
    · have hstep : advanceIf p l = (false, l) := if_neg hc
      rw [hstep] at hr ⊢
      obtain rfl : w = [] := by simpa using hl.symm.trans hr
      have hstop : ∀ c ∈ l.rest.head?, p c = false := by
        intro c hc'
        rcases List.head?_eq_some_iff.mp hc' with ⟨s, hs⟩
        simpa [peek_eq, hs] using hc
      have hpeek : ¬ p l'.peek = true := by
        have hnot := hb.not_head hblank (hr ▸ hstop)
        rw [peek_eq, hl', List.nil_append]
        cases t with
        | nil => simp [hp]
        | cons c t => simpa using hnot c rfl
      rw [advanceIf, if_neg hpeek]
      exact ⟨rfl, hl'⟩

/-- A scanner that goes on in one of two ways, by the byte in front of it. -/
lemma local_branch {α : Type} {B : List Byte → List Byte → Prop} {Y N : Lexer → α × Lexer}
    {p : Byte → Bool} (hp : p 0 = false) (hblank : p ' '.toUInt8 = false)
    (hB : ∀ r t, B r t → Alike r t) (hY : Local B Y) (hN : Local B N) :
    Local B fun l => if p l.peek = true then Y l.advance else N l := by
  have hbind : Local B fun l =>
      (fun (b : Bool) l => if b = true then Y l else N l) (advanceIf p l).1 (advanceIf p l).2 := by
    refine (local_advanceIf hp hblank).bind (B := B) (Y := fun b l => if b = true then Y l else N l)
      (fun b => ?_) fun _ _ hb => (hB _ _ hb).append _
    cases b with
    | true => exact hY
    | false => exact hN
  convert hbind using 2 with l
  by_cases hc : p l.peek = true <;> simp [advanceIf, hc]

lemma local_exponent (isFloat : Bool) : Local Alike (lexExponent isFloat) := by
  have hdigits : Local Alike fun l => (true, advanceWhile isDigit l) :=
    local_advanceWhile (by decide) (by decide) true
  have hsign := local_branch (p := fun c => c == '+'.toUInt8 || c == '-'.toUInt8) (by decide)
    (by decide) (fun _ _ => id) hdigits hdigits
  have hexp := local_branch (p := fun c => c == 'e'.toUInt8 || c == 'E'.toUInt8) (by decide)
    (by decide) (fun _ _ => id) hsign (.stay isFloat)
  convert hexp using 2 with l
  simp only [lexExponent, Bool.or_eq_true, beq_iff_eq]
  split_ifs <;> rfl

/-- A number is nothing but its digits, its exponent and its suffix in front of a fraction. -/
lemma not_dot_of_exponent {isFloat : Bool} {l : Lexer} {w r : List Byte} (hl : l.rest = w ++ r)
    (hr : (lexExponent isFloat l).2.rest = r) : w.head? ≠ some '.'.toUInt8 := by
  intro hdot
  rcases List.head?_eq_some_iff.mp hdot with ⟨w, rfl⟩
  have hpeek : l.peek = '.'.toUInt8 := by rw [peek_eq, hl]; rfl
  have hstay : lexExponent isFloat l = (isFloat, l) := by
    rw [lexExponent, hpeek]
    exact if_neg (by decide)
  have hlen := congrArg List.length hr
  rw [hstay, hl, List.length_append, List.length_cons] at hlen
  omega

lemma not_dot_of_suffix {l : Lexer} {w r : List Byte} (hl : l.rest = w ++ r)
    (hr : (l.advanceWhile isNumberSuffix).rest = r) : w.head? ≠ some '.'.toUInt8 := by
  intro hdot
  rw [rest_advanceWhile (by decide), hl] at hr
  exact absurd ((dropWhile_append_eq hr).1 _ (List.mem_of_mem_head? hdot)) (by decide)

/-- A decimal number without its suffix. -/
def lexDecimal (l : Lexer) : Bool × Lexer :=
  lexExponent (l.advanceWhile isDigit).lexFraction.1 (l.advanceWhile isDigit).lexFraction.2

lemma local_decimal : Local AlikeDot lexDecimal := by
  have hdigits : Local Alike fun l => ((), advanceWhile isDigit l) :=
    local_advanceWhile (by decide) (by decide) ()
  have hfraction : Local AlikeDot fun l => lexExponent l.lexFraction.1 l.lexFraction.2 :=
    local_fraction.bind (fun b => (local_exponent b).mono AlikeDot.alike)
      fun hl hr hb => hb.append (not_dot_of_exponent hl hr)
  exact hdigits.bind (Y := fun _ l => lexExponent l.lexFraction.1 l.lexFraction.2)
    (fun _ => hfraction) fun _ _ hb => hb.alike.append _

/-- The prefix of a hexadecimal number. -/
def Hex (s : List Byte) : Prop :=
  ∃ x r, s = '0'.toUInt8 :: x :: r ∧ (x = 'x'.toUInt8 ∨ x = 'X'.toUInt8)

/-- Behind `0x` there are hexadecimal digits. -/
lemma lexDigits_of_hex {l : Lexer} (h : Hex l.rest) :
    l.lexDigits = (false, l.advance.advance.advanceWhile isXDigit) := by
  rcases h with ⟨x, r, hs, hx⟩
  rw [lexDigits, peek_eq, peek_eq, hs]
  exact if_pos ⟨rfl, hx⟩

lemma lexDigits_of_not_hex {l : Lexer} (h : ¬ Hex l.rest) : l.lexDigits = l.lexDecimal := by
  rw [lexDigits, if_neg]
  · rfl
  · rintro ⟨hzero, hx⟩
    have hx0 : l.peek 1 ≠ 0 := by
      rcases hx with hx | hx <;> rw [hx] <;> decide
    rcases rest_eq_of_peek (by decide) hx0 hzero rfl with ⟨r, hs⟩
    exact h ⟨_, r, hs, hx⟩

/-- Where a decimal number ends at once there is no digit. -/
lemma not_digit_of_decimal {l : Lexer} (h : l.lexDecimal.2.rest = l.rest) :
    ∀ c ∈ l.rest.head?, isDigit c = false := by
  have hsuf : l.lexDecimal.2.rest <:+ l.rest.dropWhile isDigit := by
    rw [← rest_advanceWhile (by decide)]
    exact ((Onward.refl _).lexFraction.lexExponent _).suffix
  have heq : ([] ++ l.rest).dropWhile isDigit = l.rest :=
    (List.dropWhile_suffix isDigit).eq_of_length_le (h ▸ hsuf).length_le
  exact (dropWhile_append_eq heq).2

lemma local_digits : Local AlikeDot lexDigits where
  suffix l := by
    by_cases hhex : Hex l.rest
    · rw [lexDigits_of_hex hhex]
      exact ((Onward.refl l).advance.advance.advanceWhile _).suffix
    · rw [lexDigits_of_not_hex hhex]
      exact local_decimal.suffix l
  same := by
    intro l l' w r t hl hr hl' hb
    by_cases hhex : Hex l.rest
    · rw [lexDigits_of_hex hhex] at hr ⊢
      rcases hhex with ⟨x, s, hs, hx⟩
      have hlen := congrArg List.length hr
      rw [rest_advanceWhile (by decide)] at hlen
      have hle := (List.dropWhile_suffix (l := l.advance.advance.rest) isXDigit).length_le
      rw [advance_rest, advance_rest, hs] at hlen hle
      rw [hs] at hl
      rcases w with _ | ⟨a, _ | ⟨b, w⟩⟩
      · rw [List.nil_append] at hl
        rw [← hl] at hlen
        simp at hlen hle
        omega
      · obtain ⟨-, rfl⟩ := List.cons.inj hl
        simp at hlen hle
        omega
      · cases hl
        rw [lexDigits_of_hex ⟨x, w ++ t, hl', hx⟩]
        refine ⟨rfl, ((local_advanceWhile (by decide) (by decide) ()).same (w := w) ?_ hr ?_
          hb.alike).2⟩
        · simp [hs]
        · simp [hl']
    · rw [lexDigits_of_not_hex hhex] at hr ⊢
      have hnot : ¬ Hex l'.rest := by
        rintro ⟨x, s, hs, hx⟩
        have hx' : x ≠ ' '.toUInt8 := by
          rcases hx with rfl | rfl <;> decide
        rw [hl'] at hs
        rcases w with _ | ⟨a, _ | ⟨b, w⟩⟩
        · rw [List.nil_append] at hl hs
          have hdigit := hb.alike.not_head (p := isDigit) (by decide)
            (hl ▸ not_digit_of_decimal (hr.trans hl.symm))
          rw [hs] at hdigit
          exact absurd (hdigit _ rfl) (by decide)
        · obtain ⟨rfl, rfl⟩ := List.cons.inj hs
          rcases hb.alike with hhead | hstop
          · rcases List.head?_eq_some_iff.mp hhead.symm with ⟨s', rfl⟩
            exact hhex ⟨x, s', hl, hx⟩
          · exact hx' (hstop x rfl)
        · cases hs
          exact hhex ⟨x, w ++ r, hl, hx⟩
      rw [lexDigits_of_not_hex hnot]
      exact local_decimal.same hl hr hl' hb

lemma local_number : Local Ends fun l =>
    ((l.lexDigits.1, l.lexDigits.2.advanceWhile isNumberSuffix) : Bool × Lexer) :=
  local_digits.bind (Y := fun b l => (b, advanceWhile isNumberSuffix l))
    (fun b => (local_advanceWhile (by decide) (by decide) b).mono Ends.alike)
    fun hl hr hb => AlikeDot.append (Or.inl hb) (not_dot_of_suffix hl hr)

/-! ## Operators -/

lemma matches_eq {c : Char} (hc : c.toUInt8 ≠ 0) (l : Lexer) :
    l.matches? c = (l.peek == c.toUInt8) := by
  rw [matches?]
  by_cases h : l.peek = c.toUInt8
  · have hlt := cursor_lt_of_peek (h ▸ hc)
    simp [h, hlt]
  · simp [h]

/-- A second character, other than a blank. -/
lemma local_if_matches (c : Char) {Y N : Lexer → TokenType × Lexer} (hY : Local Ends Y)
    (hN : Local Ends N) (hc : c.toUInt8 ≠ 0 ∧ c.toUInt8 ≠ ' '.toUInt8 := by decide) :
    Local Ends fun l => if l.matches? c then Y l.advance else N l := by
  have h := local_branch (p := fun b => b == c.toUInt8) (by simpa using hc.1.symm)
    (by simpa using hc.2.symm) (fun _ _ => Ends.alike) hY hN
  convert h using 3 with l
  rw [matches_eq hc.1]

lemma local_matchOr (c : Char) {hit : TokenType} {M : Lexer → TokenType × Lexer}
    (hM : Local Ends M) (hc : c.toUInt8 ≠ 0 ∧ c.toUInt8 ≠ ' '.toUInt8 := by decide) :
    Local Ends fun l => l.matchOr c hit (M l) :=
  local_if_matches c (.stay hit) hM hc

/-- Two more dots behind the first one. -/
def TwoDots (s : List Byte) : Prop := ∃ r, s = '.'.toUInt8 :: '.'.toUInt8 :: r

lemma lexOperator_dots {l : Lexer} (h : TwoDots l.rest) :
    lexOperator '.'.toUInt8 l = (Dots, l.advance.advance) := by
  rcases h with ⟨r, hs⟩
  exact if_pos ⟨by rw [peek_eq, hs]; rfl, by rw [peek_eq, hs]; rfl⟩

lemma lexOperator_dot {l : Lexer} (h : ¬ TwoDots l.rest) :
    lexOperator '.'.toUInt8 l = (Dot, l) :=
  if_neg fun hdots => h (rest_eq_of_peek (by decide) (by decide) hdots.1 hdots.2)

lemma local_dots : Local Ends (lexOperator '.'.toUInt8) where
  suffix l := ((Onward.refl l).lexOperator _).suffix
  same := by
    intro l l' w r t hl hr hl' hb
    by_cases hdots : TwoDots l.rest
    · rw [lexOperator_dots hdots] at hr ⊢
      rcases hdots with ⟨s, hs⟩
      obtain rfl : s = r := by simpa [hs] using hr
      obtain rfl : ['.'.toUInt8, '.'.toUInt8] = w := List.append_cancel_right (hs.symm.trans hl)
      rw [lexOperator_dots ⟨t, hl'⟩]
      exact ⟨rfl, by simp [hl']⟩
    · rw [lexOperator_dot hdots] at hr ⊢
      obtain rfl : w = [] := by simpa using hl.symm.trans hr
      have hnot : ¬ TwoDots l'.rest := by
        rintro ⟨s, hs⟩
        rw [hl', List.nil_append] at hs
        rcases hb with rfl | hstop
        · exact hdots ⟨s, hl.trans hs⟩
        · exact absurd (hstop _ (by rw [hs]; rfl)) (by decide)
      rw [lexOperator_dot hnot]
      exact ⟨rfl, hl'⟩

/-- The characters that begin an operator. -/
def operatorChars : List Char :=
  ['+', '-', '*', '/', '%', '&', '|', '^', '~', '!', '=', '<', '>', ':', '.', '?', '(', ')', '[',
    ']', '{', '}', ';', ',']

/-- A byte that begins no operator is of no known type. -/
lemma lexOperator_unknown {c : Byte} (h : c ∉ operatorChars.map Char.toUInt8) :
    lexOperator c = fun l => (Unknown, l) := by
  funext l
  unfold lexOperator
  split
  all_goals first
    | rfl
    | next hc => exact absurd (byte_eq_of_char hc ▸ (by decide)) h

lemma local_operator (c : Byte) : Local Ends (lexOperator c) := by
  by_cases h : c ∈ operatorChars.map Char.toUInt8
  · rcases List.mem_map.mp h with ⟨d, hd, rfl⟩
    simp only [operatorChars, List.mem_cons, List.not_mem_nil, or_false] at hd
    rcases hd with rfl | rfl | rfl | rfl | rfl | rfl | rfl | rfl | rfl | rfl | rfl | rfl | rfl
      | rfl | rfl | hd
    · exact local_matchOr '+' (local_matchOr '=' (.stay _))
    · exact local_matchOr '-' (local_matchOr '=' (local_matchOr '>' (.stay _)))
    · exact local_matchOr '=' (.stay _)
    · exact local_matchOr '=' (local_matchOr '/' (.stay _))
    · exact local_matchOr '=' (.stay _)
    · exact local_matchOr '&' (local_matchOr '=' (.stay _))
    · exact local_matchOr '|' (local_matchOr '=' (.stay _))
    · exact local_matchOr '=' (.stay _)
    · exact local_matchOr '=' (.stay _)
    · exact local_matchOr '=' (.stay _)
    · exact local_matchOr '=' (.stay _)
    · exact local_if_matches '<' (local_matchOr '=' (.stay _)) (local_matchOr '=' (.stay _))
    · exact local_if_matches '>' (local_matchOr '=' (.stay _)) (local_matchOr '=' (.stay _))
    · exact local_matchOr ':' (.stay _)
    · exact local_dots
    · rcases hd with rfl | rfl | rfl | rfl | rfl | rfl | rfl | rfl | rfl <;> exact .stay _
  · rw [lexOperator_unknown h]
    exact .stay _

/-! ## Literals -/

/-- What is left of a text behind the first unescaped quote. -/
def behindQuote (quote : Byte) : List Byte → List Byte
  | [] => []
  | [_] => []
  | c :: d :: s =>
      if c = '\\'.toUInt8 then behindQuote quote s
      else if c = quote then d :: s
      else behindQuote quote (d :: s)

lemma rest_quotedLoop (quote : Byte) (n : ℕ) : ∀ {l : Lexer}, l.rest.length ≤ n → 0 ∉ l.rest →
    (lexQuoted.go quote n l).rest = behindQuote quote l.rest := by
  induction n using Nat.strong_induction_on with
  | _ n ih =>
    intro l hn hnul
    cases n with
    | zero =>
        rw [lexQuoted.go, List.length_eq_zero_iff.mp (Nat.le_zero.mp hn), behindQuote]
    | succ n =>
        -- the loop goes on behind the bytes it has taken
        have hgo (l' : Lexer) (hl' : l'.rest <:+ l.rest.tail) :
            (lexQuoted.go quote n l').rest = behindQuote quote l'.rest := by
          have hle := hl'.length_le
          rw [List.length_tail] at hle
          exact ih n (Nat.lt_succ_self n) (by omega)
            fun h0 => hnul (List.mem_of_mem_tail (hl'.subset h0))
        have hstep := hgo l.advance (by rw [advance_rest])
        have hskip := hgo l.advance.advance
          (by rw [advance_rest, advance_rest]; exact List.tail_suffix _)
        simp only [lexQuoted.go, peek_eq, advance_rest] at hstep hskip ⊢
        rcases hs : l.rest with _ | ⟨c, _ | ⟨d, s⟩⟩
        · simp [hs, behindQuote]
        · have hc : c ≠ 0 := fun h0 => hnul (by simp [hs, h0])
          rw [hs] at hstep
          simp [hc, behindQuote] at hstep ⊢
          split_ifs <;> simp [hs, hstep]
        · have hc : c ≠ 0 := fun h0 => hnul (by simp [hs, h0])
          have hd : d ≠ 0 := fun h0 => hnul (by simp [hs, h0])
          rw [hs] at hstep hskip
          simp [hc, hd, behindQuote] at hstep hskip ⊢
          split_ifs <;> simp [hs, hstep, hskip]

lemma behindQuote_lt (quote : Byte) : ∀ {s : List Byte}, s ≠ [] →
    (behindQuote quote s).length < s.length
  | [], h => absurd rfl h
  | [_], _ => by simp [behindQuote]
  | c :: d :: s, _ => by
      have htail := behindQuote_lt quote (List.cons_ne_nil d s)
      have hle : (behindQuote quote s).length ≤ s.length := by
        cases s with
        | nil => simp [behindQuote]
        | cons e s => exact (behindQuote_lt quote (List.cons_ne_nil e s)).le
      rw [behindQuote]
      simp only [List.length_cons] at htail ⊢
      split_ifs
      · omega
      · simp
      · omega

lemma behindQuote_ne {quote : Byte} {s : List Byte} (hs : s ≠ []) : behindQuote quote s ≠ s :=
  fun h => (behindQuote_lt quote hs).ne (congrArg List.length h)

/-- A literal that ends before the text does ends the same way in front of any text. -/
lemma behindQuote_append {quote : Byte} {r : List Byte} (hr : r ≠ []) (t : List Byte) :
    ∀ {w : List Byte}, behindQuote quote (w ++ r) = r → behindQuote quote (w ++ t) = t
  | [], h => absurd h (behindQuote_ne hr)
  | [c], h => by
      rcases List.exists_cons_of_ne_nil hr with ⟨d, s, rfl⟩
      rw [List.singleton_append, behindQuote] at h
      split_ifs at h with hesc hquote
      · have hlt := behindQuote_lt quote (List.cons_ne_nil d s)
        cases s with
        | nil => cases h
        | cons e s =>
            have hlen := congrArg List.length h
            have hlt := behindQuote_lt quote (List.cons_ne_nil e s)
            simp only [List.length_cons] at hlen hlt
            omega
      · cases t with
        | nil => rfl
        | cons e t => rw [List.singleton_append, behindQuote, if_neg hesc, if_pos hquote]
      · exact absurd h (behindQuote_ne (List.cons_ne_nil d s))
  | c :: d :: w, h => by
      rw [List.cons_append, List.cons_append, behindQuote] at h ⊢
      split_ifs at h ⊢
      · exact behindQuote_append hr t h
      · have hlen := congrArg List.length h
        rw [List.length_cons, List.length_append] at hlen
        omega
      · exact behindQuote_append hr t (w := d :: w) h

/-! ## Tokens -/

variable {l l' : Lexer} {w r t : List Byte}

/-- A literal ends in the same place, whatever stands behind it. -/
lemma lexQuoted_same (quote : Byte) (type : TokenType) (hnul : 0 ∉ l.rest) (hnul' : 0 ∉ l'.rest)
    (hl : l.rest = w ++ r) (hl' : l'.rest = w ++ t) (hw : w ≠ []) (hb : t = r ∨ r ≠ [])
    (hr : (l.lexQuoted quote type).2.rest = r) : (l'.lexQuoted quote type).2.rest = t := by
  have hscan {l : Lexer} (hnul : 0 ∉ l.rest) :
      (l.lexQuoted quote type).2.rest = behindQuote quote l.rest.tail := by
    rw [← advance_rest]
    refine rest_quotedLoop quote _ (remaining_eq l.advance).ge fun h0 => hnul ?_
    rw [advance_rest] at h0
    exact List.mem_of_mem_tail h0
  rcases List.exists_cons_of_ne_nil hw with ⟨c, w, rfl⟩
  rw [hscan hnul, hl] at hr
  rw [hscan hnul', hl']
  rcases hb with rfl | hb
  · exact hr
  · exact behindQuote_append hb t hr

lemma length_taken (h : Onward l l') (hle : l.cursor ≤ l.source.length)
    (hw : l.rest = w ++ l'.rest) : l'.cursor - l.cursor = w.length := by
  have hlen := congrArg List.length hw
  have hbound := h.bound hle
  have hmono := h.le
  simp only [rest, List.length_append, List.length_drop, h.source] at hlen
  omega

/-- The type of a word is told by the bytes it takes. -/
lemma type_identifier (hle : l.cursor ≤ l.source.length)
    (hl : l.rest = w ++ (l.advanceWhile isIdentBody).rest) :
    l.lexIdentifierOrKeyword.1.type =
      if stringMap (w.take (w.length % 2 ^ 16)) = TBD then Ident
      else stringMap (w.take (w.length % 2 ^ 16)) := by
  have hon := (Onward.refl l).advanceWhile isIdentBody
  have hsize : ((l.advanceWhile isIdentBody).tokenFrom l.cursor Ident).size = w.length % 2 ^ 16 := by
    rw [tokenFrom, length_taken hon hle hl]
  have htext : ((l.advanceWhile isIdentBody).source.drop l.cursor).take (w.length % 2 ^ 16)
      = w.take (w.length % 2 ^ 16) := by
    rw [hon.source]
    show l.rest.take _ = _
    rw [hl, List.take_append_of_le_length (Nat.mod_le _ _)]
  simp only [lexIdentifierOrKeyword, hsize, htext]
  split_ifs <;> rfl

/-- **Tokens are told by their own bytes.**  In front of the same bytes, with the same text or a
stop behind them, there is the same token. -/
lemma lexToken_same (hle : l.cursor ≤ l.source.length) (hle' : l'.cursor ≤ l'.source.length)
    (hnul : 0 ∉ l.rest) (hnul' : 0 ∉ l'.rest) (hl : l.rest = w ++ r) (hl' : l'.rest = w ++ t)
    (hw : w ≠ []) (hb : t = r ∨ r ≠ [] ∧ Stops t) (hr : l.lexToken.2.rest = r) :
    l'.lexToken.1.type = l.lexToken.1.type ∧ l'.lexToken.2.rest = t := by
  have hends : Ends r t := hb.imp_right And.right
  have hpeek : l'.peek = l.peek := by
    rcases List.exists_cons_of_ne_nil hw with ⟨c, w, rfl⟩
    rw [peek_eq, peek_eq, hl, hl']
    rfl
  have hscan {type : TokenType} (quote : Byte) (hr : (l.lexQuoted quote type).2.rest = r) :
      (l'.lexQuoted quote type).2.rest = t :=
    lexQuoted_same quote type hnul hnul' hl hl' hw (hb.imp_right And.left) hr
  rw [lexToken] at hr ⊢
  rw [lexToken, hpeek]
  split_ifs at hr ⊢ with hident hdigit hstring hchar
  · have hword := (local_advanceWhile (p := isIdentBody) (by decide) (by decide) ()).same hl hr hl'
      hends.alike
    rw [type_identifier hle (hl.trans (congrArg _ hr.symm)),
      type_identifier hle' (hl'.trans (congrArg _ hword.2.symm))]
    exact ⟨rfl, hword.2⟩
  · have hnumber := local_number.same hl hr hl' hends
    refine ⟨?_, hnumber.2⟩
    show (if l'.lexDigits.1 = true then LFloat else LInt) = _
    rw [hnumber.1]
    rfl
  · exact ⟨rfl, hscan _ hr⟩
  · exact ⟨rfl, hscan _ hr⟩
  · rcases List.exists_cons_of_ne_nil hw with ⟨c, w, rfl⟩
    exact (local_operator l.peek).same (w := w) (by simp [hl]) hr (by simp [hl']) hends

/-! ## Between tokens -/

/-- Nothing is skipped in front of this text. -/
def Solid (s : List Byte) : Prop :=
  ∀ c ∈ s.head?, isWhitespace c = false ∧
    (c = '/'.toUInt8 → ∀ d ∈ s.tail.head?, d ≠ '/'.toUInt8 ∧ d ≠ '*'.toUInt8)

lemma blockLoop_congr (n : ℕ) : ∀ {l l' : Lexer}, l'.rest = l.rest →
    (skipBlockComment.go n l').rest = (skipBlockComment.go n l).rest := by
  induction n with
  | zero => exact fun h => h
  | succ n ih =>
      intro l l' h
      simp only [skipBlockComment.go, peek_eq, h]
      split_ifs
      · exact h
      · simp [h]
      · exact ih (by simp [h])

/-- What is skipped is told by the bytes in front of the lexer. -/
lemma skipLoop_congr (n : ℕ) : ∀ {l l' : Lexer}, l'.rest = l.rest →
    (skipWhitespaceAndComments.go n l').rest = (skipWhitespaceAndComments.go n l).rest := by
  induction n with
  | zero => exact fun h => h
  | succ n ih =>
      intro l l' h
      have hone : l'.advance.rest = l.advance.rest := by simp [h]
      have htwo : l'.advance.advance.rest = l.advance.advance.rest := by simp [h]
      have hblock : l'.advance.advance.skipBlockComment.rest
          = l.advance.advance.skipBlockComment.rest := by
        rw [skipBlockComment, skipBlockComment, remaining_eq, remaining_eq, htwo]
        exact blockLoop_congr _ htwo
      simp only [skipWhitespaceAndComments.go, peek_eq, h]
      split
      · exact ih hone
      · exact ih hone
      · exact ih hone
      · exact ih hone
      · split_ifs
        · exact ih (by rw [rest_advanceWhile (by decide), rest_advanceWhile (by decide), htwo])
        · exact ih hblock
        · exact h
      · exact h

lemma skip_congr (h : l'.rest = l.rest) :
    l'.skipWhitespaceAndComments.rest = l.skipWhitespaceAndComments.rest := by
  rw [skipWhitespaceAndComments, skipWhitespaceAndComments, remaining_eq, remaining_eq, h]
  exact skipLoop_congr _ h

/-- A blank is skipped. -/
lemma skip_blank (h : l.rest = ' '.toUInt8 :: l'.rest) :
    l.skipWhitespaceAndComments.rest = l'.skipWhitespaceAndComments.rest := by
  have hlen : l.remaining = l'.remaining + 1 := by
    rw [remaining_eq, remaining_eq, h, List.length_cons]
  have hpeek : l.peek = ' '.toUInt8 := by rw [peek_eq, h]; rfl
  rw [skipWhitespaceAndComments, skipWhitespaceAndComments, hlen, skipWhitespaceAndComments.go, hpeek]
  exact skipLoop_congr _ (by simp [h])

lemma skipLoop_of_solid (n : ℕ) (h : Solid l.rest) : skipWhitespaceAndComments.go n l = l := by
  cases n with
  | zero => rfl
  | succ n =>
      have hno {c : Char} (hc : Char.ofNat l.peek.toNat = c) (hw : isWhitespace c.toUInt8 = true)
          (hc0 : c.toUInt8 ≠ 0) : False := by
        have hpeek := byte_eq_of_char hc
        rw [peek_eq] at hpeek
        cases hs : l.rest with
        | nil => exact hc0 (by simpa [hs] using hpeek.symm)
        | cons d s =>
            obtain rfl : d = c.toUInt8 := by simpa [hs] using hpeek
            rw [hs] at h
            exact absurd hw (by simp [(h _ rfl).1])
      have hslash {d : Byte} (hc : Char.ofNat l.peek.toNat = '/') (hd : l.peek 1 = d)
          (hd0 : d = '/'.toUInt8 ∨ d = '*'.toUInt8) : False := by
        have hd' : d ≠ 0 := by rcases hd0 with rfl | rfl <;> decide
        rcases rest_eq_of_peek (by decide) hd' (byte_eq_of_char hc) hd with ⟨s, hs⟩
        rw [hs] at h
        have hnot := (h _ rfl).2 rfl d rfl
        exact hd0.elim hnot.1 hnot.2
      rw [skipWhitespaceAndComments.go]
      split
      · next hc => exact (hno hc (by decide) (by decide)).elim
      · next hc => exact (hno hc (by decide) (by decide)).elim
      · next hc => exact (hno hc (by decide) (by decide)).elim
      · next hc => exact (hno hc (by decide) (by decide)).elim
      · next hc =>
          rw [if_neg fun hd => hslash hc hd (Or.inl rfl), if_neg fun hd => hslash hc hd (Or.inr rfl)]
      · rfl

/-- Nothing is skipped in front of a token. -/
lemma skip_of_solid (h : Solid l.rest) : l.skipWhitespaceAndComments = l := skipLoop_of_solid _ h

/-- Where skipping ends, nothing more is skipped. -/
lemma solid_skipLoop (n : ℕ) : ∀ {l : Lexer}, l.rest.length ≤ n →
    Solid (skipWhitespaceAndComments.go n l).rest := by
  induction n with
  | zero =>
      intro l hn c hc
      rw [skipWhitespaceAndComments.go, List.length_eq_zero_iff.mp (Nat.le_zero.mp hn)] at hc
      cases hc
  | succ n ih =>
      intro l hn
      have hgo (l' : Lexer) (hl' : l'.rest <:+ l.rest.tail) :
          Solid (skipWhitespaceAndComments.go n l').rest := by
        have hle := hl'.length_le
        rw [List.length_tail] at hle
        exact ih (by omega)
      have hone := hgo l.advance (by rw [advance_rest])
      have htwo : l.advance.advance.rest <:+ l.rest.tail := by
        rw [advance_rest, advance_rest]
        exact List.tail_suffix _
      rw [skipWhitespaceAndComments.go]
      split
      · exact hone
      · exact hone
      · exact hone
      · exact hone
      · next hc =>
          split_ifs with hline hblock
          · exact hgo _ ((((Onward.refl _).advanceWhile _).suffix).trans htwo)
          · exact hgo _ (((Onward.refl _).skipBlockComment.suffix).trans htwo)
          · have hslash := byte_eq_of_char hc
            intro c hc'
            rcases List.head?_eq_some_iff.mp hc' with ⟨s, hs⟩
            obtain rfl : c = '/'.toUInt8 := by simpa [peek_eq, hs] using hslash
            refine ⟨by decide, fun _ d hd => ?_⟩
            rw [hs] at hd
            rcases List.head?_eq_some_iff.mp hd with ⟨s', rfl⟩
            simpa [peek_eq, hs] using And.intro hline hblock
      · next hspace htab hcr hnl hslash =>
          intro c hc
          rcases List.head?_eq_some_iff.mp hc with ⟨s, hs⟩
          have hpeek : l.peek = c := by simp [peek_eq, hs]
          rw [hpeek] at hspace htab hcr hnl hslash
          refine ⟨?_, fun h => (hslash (by rw [h]; rfl)).elim⟩
          by_contra hw
          rw [Bool.not_eq_false] at hw
          simp only [isWhitespace, Bool.or_eq_true, beq_iff_eq] at hw
          rcases hw with ((rfl | rfl) | rfl) | rfl
          · exact hspace rfl
          · exact htab rfl
          · exact hcr rfl
          · exact hnl rfl

lemma solid_skip (l : Lexer) : Solid l.skipWhitespaceAndComments.rest :=
  solid_skipLoop _ (remaining_eq l).ge

/-! ## Token sequences -/

/-- The lexer in front of a text. -/
abbrev start (s : List Byte) : Lexer := { source := s }

/-- `Lexes s ts`: the text `s` is lexed to tokens with these types and bytes. -/
inductive Lexes : List Byte → List (TokenType × List Byte) → Prop
  | done {s : List Byte} (h : (start s).skipWhitespaceAndComments.rest = []) : Lexes s []
  | token {s w r : List Byte} {type : TokenType} {ts : List (TokenType × List Byte)}
      (hskip : (start s).skipWhitespaceAndComments.rest = w ++ r) (hw : w ≠ [])
      (htype : (start (w ++ r)).lexToken.1.type = type)
      (hrest : (start (w ++ r)).lexToken.2.rest = r) (h : Lexes r ts) : Lexes s ((type, w) :: ts)

@[simp] lemma start_rest (s : List Byte) : (start s).rest = s := rfl

lemma start_cursor (s : List Byte) : (start s).cursor ≤ (start s).source.length := Nat.zero_le _

namespace Lexes

variable {s s' : List Byte} {ts ts' : List (TokenType × List Byte)}

lemma congr (h : Lexes s ts) (heq : (start s').skipWhitespaceAndComments.rest
    = (start s).skipWhitespaceAndComments.rest) : Lexes s' ts := by
  cases h with
  | done hs => exact .done (heq.trans hs)
  | token hskip hw htype hrest h => exact .token (heq.trans hskip) hw htype hrest h

/-- A source has one sequence of tokens. -/
lemma unique (h : Lexes s ts) (h' : Lexes s ts') : ts = ts' := by
  induction h generalizing ts' with
  | done hs =>
      cases h' with
      | done => rfl
      | token hskip hw => exact absurd (List.append_eq_nil_iff.mp (hskip.symm.trans hs)).1 hw
  | token hskip hw htype hrest h ih =>
      cases h' with
      | done hs => exact absurd (List.append_eq_nil_iff.mp (hskip.symm.trans hs)).1 hw
      | token hskip' hw' htype' hrest' h' =>
          have heq := hskip.symm.trans hskip'
          rw [heq] at htype hrest
          have hr := hrest.symm.trans hrest'
          subst hr
          obtain rfl := List.append_cancel_right heq
          rw [htype.symm.trans htype', ih h']

/-- What is left of a text behind its first token is part of the text. -/
lemma suffix_of_token {w r : List Byte}
    (hskip : (start s).skipWhitespaceAndComments.rest = w ++ r) : w ++ r <:+ s := by
  have hsuf := ((Onward.refl (start s)).skipWhitespaceAndComments).suffix
  rwa [hskip, start_rest] at hsuf

end Lexes

/-- The texts of the tokens, joined by single blanks. -/
def join (ts : List (TokenType × List Byte)) : List Byte :=
  List.intercalate [' '.toUInt8] (ts.map Prod.snd)

/-- What stands behind the first text of a joined sequence. -/
def joinTail : List (TokenType × List Byte) → List Byte
  | [] => []
  | ts => ' '.toUInt8 :: join ts

lemma join_cons (type : TokenType) (w : List Byte) (ts : List (TokenType × List Byte)) :
    join ((type, w) :: ts) = w ++ joinTail ts := by
  cases ts with
  | nil => simp [join, joinTail]
  | cons e ts => simp [join, joinTail, List.intercalate]

lemma stops_joinTail (ts : List (TokenType × List Byte)) : Stops (joinTail ts) := by
  cases ts with
  | nil => exact stops_nil
  | cons e ts => exact stops_blank _

/-- Bytes that have been taken for a token are not skipped in front of a stop. -/
lemma Solid.append {w r t : List Byte} (h : Solid (w ++ r)) (hw : w ≠ []) (ht : Stops t) :
    Solid (w ++ t) := by
  rcases w with _ | ⟨c, _ | ⟨d, w⟩⟩
  · exact absurd rfl hw
  · intro a ha
    refine ⟨(h a ha).1, fun _ d hd => ?_⟩
    rw [ht d hd]
    decide
  · exact h

/-- The joined texts are lexed to the tokens they are taken from. -/
lemma Lexes.join {s : List Byte} {ts : List (TokenType × List Byte)} (h : Lexes s ts)
    (hnul : 0 ∉ s) : Lexes (join ts) ts ∧ 0 ∉ join ts := by
  induction h with
  | done => exact ⟨.done rfl, by simp [Lexer.join]⟩
  | @token s w r type ts hskip hw htype hrest h ih =>
      have hsuf := suffix_of_token hskip
      have hnulr : 0 ∉ w ++ r := fun h0 => hnul (hsuf.subset h0)
      rcases ih fun h0 => hnulr (List.mem_append_right _ h0) with ⟨hjoin, hnulj⟩
      have htail : Lexes (joinTail ts) ts ∧ 0 ∉ joinTail ts := by
        cases ts with
        | nil => exact ⟨.done rfl, by simp [joinTail]⟩
        | cons e ts =>
            refine ⟨hjoin.congr (skip_blank rfl), ?_⟩
            show 0 ∉ ' '.toUInt8 :: Lexer.join (e :: ts)
            rw [List.mem_cons, not_or]
            exact ⟨by decide, hnulj⟩
      have hnult : 0 ∉ w ++ joinTail ts := by
        rw [List.mem_append, not_or]
        exact ⟨fun h0 => hnulr (List.mem_append_left _ h0), htail.2⟩
      have hb : joinTail ts = r ∨ r ≠ [] ∧ Stops (joinTail ts) := by
        by_cases hr : r = []
        · subst hr
          cases h with
          | done => exact Or.inl rfl
          | token hskip hw' =>
              have hnil := (suffix_of_token hskip).length_le
              have hpos := List.length_pos_iff.mpr hw'
              rw [List.length_append, List.length_nil] at hnil
              omega
        · exact Or.inr ⟨hr, stops_joinTail ts⟩
      rcases lexToken_same (start_cursor _) (start_cursor _) hnulr hnult rfl rfl hw hb hrest with
        ⟨htype', hrest'⟩
      rw [join_cons]
      refine ⟨.token (w := w) ?_ hw (htype'.trans htype) hrest' htail.1, hnult⟩
      have hsolid : Solid (w ++ joinTail ts) :=
        Solid.append (hskip ▸ solid_skip _) hw (stops_joinTail ts)
      rw [skip_of_solid (l := start (w ++ joinTail ts)) hsolid]
      rfl

/-! ## The tokens of a source -/

/-- The type of token number `n` and the bytes it spans. -/
def spanAt (src : List Byte) (n : ℕ) : TokenType × List Byte :=
  ((tokenAt src n).type, (src.drop (tokenAt src n).globalOffset).take
    ((afterCalls src (n + 1)).cursor - (tokenAt src n).globalOffset))

/-- The types and the lexemes of the tokens in front of `Eof`. -/
def spans (src : List Byte) : List (TokenType × List Byte) :=
  (List.range (tokensOf src).length).map (spanAt src)

/-- The types of the tokens in front of `Eof`, with the texts that `getText` gives. -/
def typesAndTexts (src : List Byte) : List (TokenType × List Byte) :=
  (tokensOf src).map fun tok => (tok.type, getText { source := src } tok)

variable {src : List Byte} {n : ℕ}

/-- The token in front of which the lexer stands behind `n` calls. -/
lemma nextToken_lexToken (h : (tokenAt src n).type ≠ Eof) :
    let l := (afterCalls src n).skipWhitespaceAndComments
    l.cursor < l.source.length ∧ l.source = src ∧ tokenAt src n = l.lexToken.1 ∧
      (afterCalls src (n + 1)).rest = l.lexToken.2.rest ∧
        (afterCalls src (n + 1)).cursor = l.lexToken.2.cursor := by
  intro l
  have hsource : l.source = src :=
    ((Onward.refl _).skipWhitespaceAndComments.source).trans (onward_afterCalls src n).1
  have hlt : l.cursor < l.source.length := by
    by_contra hge
    refine h ?_
    simp only [tokenAt, nextToken]
    rw [if_pos (not_lt.mp hge)]
  have hnext : (afterCalls src n).nextToken = (l.lexToken.1, l.lexToken.2.buffer l.lexToken.1) := by
    simp only [nextToken]
    rw [if_neg (not_le.mpr hlt)]
  refine ⟨hlt, hsource, ?_, ?_, ?_⟩
  · rw [tokenAt, hnext]
  · rw [afterCalls, hnext]
    rfl
  · rw [afterCalls, hnext]
    rfl

lemma skip_of_eof (h : (tokenAt src n).type = Eof) :
    (afterCalls src n).skipWhitespaceAndComments.rest = [] := by
  by_contra hne
  have hlt : (afterCalls src n).skipWhitespaceAndComments.cursor
      < (afterCalls src n).skipWhitespaceAndComments.source.length := by
    by_contra hge
    exact hne (List.drop_eq_nil_of_le (not_lt.mp hge))
  refine (scanned_token hlt).notEof ?_
  simp only [tokenAt, nextToken] at h
  rwa [if_neg (not_le.mpr hlt)] at h

/-- The bytes of a token are followed by what the lexer has in front of it behind the token. -/
lemma spanAt_append (h : (tokenAt src n).type ≠ Eof) :
    (afterCalls src n).skipWhitespaceAndComments.rest
        = (spanAt src n).2 ++ (afterCalls src (n + 1)).rest ∧ (spanAt src n).2 ≠ [] := by
  rcases nextToken_lexToken h with ⟨hlt, hsource, htok, hrest, hcursor⟩
  have hscan := scanned_token hlt
  have hsplit : (afterCalls src n).skipWhitespaceAndComments.rest = (spanAt src n).2
      ++ (afterCalls src (n + 1)).rest := by
    rw [spanAt, htok, hscan.offset, hrest, hcursor, rest, rest, hscan.onward.source, hsource]
    have hdrop := List.take_append_drop
      ((afterCalls src n).skipWhitespaceAndComments.lexToken.2.cursor
        - (afterCalls src n).skipWhitespaceAndComments.cursor)
      (src.drop (afterCalls src n).skipWhitespaceAndComments.cursor)
    rw [List.drop_drop, Nat.add_sub_of_le hscan.onward.le] at hdrop
    exact hdrop.symm
  refine ⟨hsplit, fun hnil => ?_⟩
  rw [hnil, List.nil_append, hrest] at hsplit
  have hlen := congrArg List.length hsplit
  have hprogress := hscan.progress
  simp only [rest, List.length_drop, hscan.onward.source] at hlen
  omega

lemma lexes_range (hnul : 0 ∉ src) (heof : (tokenAt src n).type = Eof)
    (hlt : ∀ m < n, (tokenAt src m).type ≠ Eof) : ∀ k m, m + k = n →
      Lexes (afterCalls src m).rest ((List.range' m k).map (spanAt src)) := by
  intro k
  have hstart (m : ℕ) : (start (afterCalls src m).rest).skipWhitespaceAndComments.rest
      = (afterCalls src m).skipWhitespaceAndComments.rest := skip_congr rfl
  induction k with
  | zero =>
      intro m hm
      obtain rfl : m = n := hm
      exact .done ((hstart m).trans (skip_of_eof heof))
  | succ k ih =>
      intro m hm
      have hm' := hlt m (by omega)
      rcases spanAt_append hm' with ⟨hsplit, hne⟩
      rcases nextToken_lexToken hm' with ⟨hbound, hsource, htok, hrest, -⟩
      have hnul' : 0 ∉ (afterCalls src m).skipWhitespaceAndComments.rest := by
        intro h0
        rw [rest, hsource] at h0
        exact hnul (List.mem_of_mem_drop h0)
      have hinside := start_cursor ((spanAt src m).2 ++ (afterCalls src (m + 1)).rest)
      rcases lexToken_same hbound.le hinside hnul' (hsplit ▸ hnul') hsplit
        rfl hne (Or.inl rfl) hrest.symm with ⟨htype, hrest'⟩
      rw [List.range'_succ, List.map_cons]
      have htoken : (start ((spanAt src m).2 ++ (afterCalls src (m + 1)).rest)).lexToken.1.type
          = (spanAt src m).1 := htype.trans (congrArg Token.type htok).symm
      exact .token ((hstart m).trans hsplit) hne htoken hrest' (ih (m + 1) (by omega))

lemma exists_length_tokensOf (src : List Byte) : (tokenAt src (tokensOf src).length).type = Eof ∧
    (∀ m < (tokensOf src).length, (tokenAt src m).type ≠ Eof) ∧
      tokensOf src = (List.range (tokensOf src).length).map (tokenAt src) := by
  rcases exists_eof src with ⟨n, -, hn⟩
  have hex : ∃ n, (tokenAt src n).type = Eof := ⟨n, hn⟩
  have heq := tokensOf_eq (Nat.find_spec hex) fun m hm => Nat.find_min hex hm
  have hlen : (tokensOf src).length = Nat.find hex := by simp [heq]
  rw [hlen]
  exact ⟨Nat.find_spec hex, fun m hm => Nat.find_min hex hm, heq⟩

/-- The tokens of a source are what it lexes to. -/
lemma lexes_spans (hnul : 0 ∉ src) : Lexes src (spans src) := by
  rcases exists_length_tokensOf src with ⟨heof, hlt, -⟩
  have hall := lexes_range hnul heof hlt (tokensOf src).length 0 (Nat.zero_add _)
  rwa [← List.range_eq_range'] at hall

lemma size_lexToken (l : Lexer) :
    l.lexToken.1.size = (l.lexToken.2.cursor - l.cursor) % 2 ^ 16 := by
  rw [lexToken]
  split_ifs
  · simp only [lexIdentifierOrKeyword]
    split_ifs <;> rfl
  all_goals rfl

/-- The text of a token is a part of the source. -/
lemma token_inside {t : Token} (h : t ∈ tokensOf src) : t.globalOffset + t.size ≤ src.length := by
  rcases exists_length_tokensOf src with ⟨-, hlt, heq⟩
  rw [heq] at h
  rcases List.mem_map.mp h with ⟨n, hn, rfl⟩
  rcases nextToken_lexToken (hlt n (List.mem_range.mp hn)) with ⟨hbound, -, htok, -, hcursor⟩
  have hscan := scanned_token hbound
  have hinside := (onward_afterCalls src (n + 1)).2
  have hle := hscan.onward.le
  have hmod := Nat.mod_le ((afterCalls src (n + 1)).cursor -
    (afterCalls src n).skipWhitespaceAndComments.cursor) (2 ^ 16)
  rw [htok, hscan.offset, size_lexToken, ← hcursor]
  rw [← hcursor] at hle
  omega

/-- Tokens of these lengths are as long as they say. -/
lemma typesAndTexts_eq (hshort : ∀ e ∈ spans src, e.2.length < 2 ^ 16) :
    typesAndTexts src = spans src := by
  rcases exists_length_tokensOf src with ⟨-, hlt, heq⟩
  have hmap : typesAndTexts src = (List.range (tokensOf src).length).map
      fun n => ((tokenAt src n).type, getText { source := src } (tokenAt src n)) := by
    rw [typesAndTexts, heq, List.map_map, List.length_map, List.length_range]
    rfl
  rw [hmap, spans]
  refine List.map_congr_left fun n hn => ?_
  have hn' := hlt n (List.mem_range.mp hn)
  have hlen : (spanAt src n).2.length < 2 ^ 16 := hshort _ (List.mem_map_of_mem hn)
  rcases nextToken_lexToken hn' with ⟨hbound, hsource, htok, -, hcursor⟩
  have hscan := scanned_token hbound
  have hinside := (onward_afterCalls src (n + 1)).2
  have hoffset : (tokenAt src n).globalOffset
      = (afterCalls src n).skipWhitespaceAndComments.cursor := by rw [htok, hscan.offset]
  have hsize : (tokenAt src n).size
      = (afterCalls src (n + 1)).cursor - (tokenAt src n).globalOffset := by
    rw [spanAt, List.length_take, List.length_drop] at hlen
    rw [hoffset] at hlen ⊢
    rw [htok, size_lexToken, ← hcursor]
    exact Nat.mod_eq_of_lt (by omega)
  have hle := hscan.onward.le
  rw [← hcursor, ← hoffset] at hle
  rw [getText, if_neg (by rw [hsize]; show ¬ src.length < _; omega), hsize]
  rfl

/-- **Relexing is stable.** -/
theorem relexing_stable (src : List Byte) (hnul : 0 ∉ src)
    (hshort : ∀ e ∈ spans src, e.2.length < 2 ^ 16) :
    typesAndTexts (join (typesAndTexts src)) = typesAndTexts src := by
  have hsame := typesAndTexts_eq hshort
  rcases (lexes_spans hnul).join hnul with ⟨hjoin, hnulj⟩
  have hspans : spans (join (spans src)) = spans src := (lexes_spans hnulj).unique hjoin
  rw [hsame, typesAndTexts_eq (by rwa [hspans]), hspans]

/-- Tokens that stand close together, and a literal that is still open at the end. -/
theorem relexing_stable_sample :
    typesAndTexts (join (typesAndTexts (bytes "a+++1.5e3/**/0x1F..if'x")))
      = typesAndTexts (bytes "a+++1.5e3/**/0x1F..if'x") :=
  relexing_stable _ (by decide) (by decide +kernel)

end Lexer

end LogicCompiler
