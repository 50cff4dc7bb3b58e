import Mathlib.Order.Monotone.Basic
import LogicCompiler.Lexer.Lexer

/-!
# The lexer tiles its source

`nextToken` is called until the source is used up.  What is proved here is where those calls
leave the cursor: every token spans at least one byte, spans do not overlap, and what lies between
two of them is whitespace and comments.

The two ingredients are kept apart.  `Onward` is the frame condition all scanners share: the
source is untouched and the cursor only moves forward, never past the end.  `Trivia` says what may
be skipped, on the bytes themselves and independently of the lexer.
-/

namespace LogicCompiler

open TokenType

/-! ## What may lie between two tokens -/

/-- The white space that is skipped between tokens. -/
def isWhitespace (c : Byte) : Bool :=
  c == ' '.toUInt8 || c == '\t'.toUInt8 || c == '\r'.toUInt8 || c == '\n'.toUInt8

/-- `Trivia input rest`: `rest` is what is left of `input` behind some whitespace and complete
comments.  A line comment stops in front of its newline; a block comment may only be open-ended
when it runs to the end of the source. -/
inductive Trivia : List Byte → List Byte → Prop
  | done (r : List Byte) : Trivia r r
  | white {c : Byte} {r rest : List Byte} :
      isWhitespace c = true → Trivia r rest → Trivia (c :: r) rest
  | line {body r rest : List Byte} :
      '\n'.toUInt8 ∉ body → (r = [] ∨ r.head? = some '\n'.toUInt8) → Trivia r rest →
      Trivia (bytes "//" ++ body ++ r) rest
  | block {body r rest : List Byte} :
      ¬ bytes "*/" <:+: body ++ bytes "*" → Trivia r rest →
      Trivia (bytes "/*" ++ body ++ bytes "*/" ++ r) rest
  | openBlock {body : List Byte} :
      ¬ bytes "*/" <:+: body → Trivia (bytes "/*" ++ body) []

lemma Trivia.eq_nil {input rest : List Byte} (h : Trivia input rest) (hnil : input = []) :
    rest = [] := by
  cases h with
  | done => exact hnil
  | openBlock => rfl
  | _ => simp [bytes] at hnil

namespace Lexer

/-- The bytes from the cursor on. -/
def rest (l : Lexer) : List Byte := l.source.drop l.cursor

/-- The bytes that are left, counted. -/
lemma remaining_eq (l : Lexer) : l.remaining = l.rest.length := by
  simp [remaining, rest]

/-- `peek` looks into the bytes that are left. -/
lemma peek_eq (l : Lexer) (k : ℕ) : l.peek k = l.rest.getD k 0 := by
  simp [peek, rest, List.getD_eq_getElem?_getD]

@[simp] lemma advance_source (l : Lexer) : l.advance.source = l.source := by
  unfold advance
  split_ifs <;> rfl

@[simp] lemma advance_rest (l : Lexer) : l.advance.rest = l.rest.tail := by
  unfold advance
  split_ifs with h
  · simp [rest, List.drop_eq_nil_of_le h]
  · simp [rest]

/-! ## The frame condition -/

/-- The source is untouched and the cursor moved forward inside it. -/
structure Onward (l l' : Lexer) : Prop where
  source : l'.source = l.source
  le : l.cursor ≤ l'.cursor
  bound : l.cursor ≤ l.source.length → l'.cursor ≤ l.source.length

namespace Onward

variable {l l₁ l₂ : Lexer}

@[refl] lemma refl (l : Lexer) : Onward l l := ⟨rfl, le_rfl, id⟩

/-- One movement behind another. -/
lemma trans (h₁ : Onward l l₁) (h₂ : Onward l₁ l₂) : Onward l l₂ where
  source := h₂.source.trans h₁.source
  le := h₁.le.trans h₂.le
  bound h := by
    have h' := h₁.source ▸ h₁.bound h
    exact h₁.source ▸ h₂.bound (h₁.source.symm ▸ h')

lemma advance (h : Onward l l₁) : Onward l l₁.advance := by
  refine h.trans ⟨advance_source l₁, ?_, ?_⟩ <;> unfold Lexer.advance <;> split_ifs <;> simp
  omega

lemma buffer (tok : Token) (h : Onward l l₁) : Onward l (l₁.buffer tok) :=
  ⟨h.source, h.le, h.bound⟩

/-- A loop that only advances. -/
lemma advanceLoop (p : Byte → Bool) (n : ℕ) (h : Onward l l₁) :
    Onward l (advanceWhile.go p n l₁) := by
  induction n generalizing l₁ with
  | zero => exact h
  | succ n ih =>
      rw [advanceWhile.go]
      split_ifs
      · exact ih h.advance
      · exact h

lemma advanceWhile (p : Byte → Bool) (h : Onward l l₁) : Onward l (l₁.advanceWhile p) :=
  h.advanceLoop p _

lemma blockLoop (n : ℕ) (h : Onward l l₁) : Onward l (skipBlockComment.go n l₁) := by
  induction n generalizing l₁ with
  | zero => exact h
  | succ n ih =>
      rw [skipBlockComment.go]
      split_ifs
      · exact h
      · exact h.advance.advance
      · exact ih h.advance

/-- Over a comment in one go. -/
lemma skipBlockComment (h : Onward l l₁) : Onward l l₁.skipBlockComment := h.blockLoop _

lemma skipLoop (n : ℕ) (h : Onward l l₁) : Onward l (skipWhitespaceAndComments.go n l₁) := by
  induction n generalizing l₁ with
  | zero => exact h
  | succ n ih =>
      rw [skipWhitespaceAndComments.go]
      split
      · exact ih h.advance
      · exact ih h.advance
      · exact ih h.advance
      · exact ih h.advance
      · split_ifs
        · exact ih (h.advance.advance.advanceWhile _)
        · exact ih h.advance.advance.skipBlockComment
        · exact h
      · exact h

/-- Over everything between two tokens. -/
lemma skipWhitespaceAndComments (h : Onward l l₁) : Onward l l₁.skipWhitespaceAndComments :=
  h.skipLoop _

lemma quotedLoop (quote : Byte) (n : ℕ) (h : Onward l l₁) :
    Onward l (lexQuoted.go quote n l₁) := by
  induction n generalizing l₁ with
  | zero => exact h
  | succ n ih =>
      simp only [lexQuoted.go]
      split_ifs
      · exact h
      · exact ih h.advance.advance
      · exact ih h.advance
      · exact h.advance
      · exact ih h.advance

lemma lexFraction (h : Onward l l₁) : Onward l l₁.lexFraction.2 := by
  unfold Lexer.lexFraction
  split_ifs
  · exact h.advance.advanceWhile _
  · exact h

lemma lexExponent (isFloat : Bool) (h : Onward l l₁) :
    Onward l (Lexer.lexExponent isFloat l₁).2 := by
  simp only [Lexer.lexExponent]
  split_ifs
  · exact h.advance.advance.advanceWhile _
  · exact h.advance.advanceWhile _
  · exact h

lemma matchOr {c : Char} {hit : TokenType} {miss : TokenType × Lexer}
    (h : Onward l l₁) (hmiss : Onward l miss.2) : Onward l (l₁.matchOr c hit miss).2 := by
  unfold Lexer.matchOr
  split_ifs
  · exact h.advance
  · exact hmiss

lemma lexOperator (c : Byte) (h : Onward l l₁) : Onward l (lexOperator c l₁).2 := by
  unfold Lexer.lexOperator
  split <;> repeat' first
    | exact h
    | exact h.advance
    | exact h.advance.advance
    | exact h.advance.matchOr h.advance
    | refine h.matchOr ?_
    | split_ifs

end Onward

/-- What is left later was left before. -/
lemma Onward.suffix {l l' : Lexer} (h : Onward l l') : l'.rest <:+ l.rest := by
  have hdrop : l'.rest = l.rest.drop (l'.cursor - l.cursor) := by
    simp only [rest, h.source, List.drop_drop]
    congr 1
    have := h.le
    omega
  exact hdrop ▸ List.drop_suffix _ _

/-! ## Every token consumes at least one byte -/

/-- No word is the end of the source. -/
lemma stringMap_ne_eof (sv : List Byte) : stringMap sv ≠ Eof := by
  unfold stringMap
  split
  · next type h =>
      have hne : ∀ t ∈ stringMapCases, t ≠ Eof := by decide
      split_ifs
      · exact hne type (List.mem_of_find?_eq_some h)
      · decide
  · decide

lemma lexOperator_ne_eof (c : Byte) (l : Lexer) : (lexOperator c l).1 ≠ Eof := by
  unfold lexOperator matchOr
  split <;> (try split_ifs) <;> simp

/-- In front of the end, a byte is left. -/
lemma rest_cons {l : Lexer} (h : l.cursor < l.source.length) : ∃ c r, l.rest = c :: r :=
  List.exists_cons_of_ne_nil (by simpa [rest] using h)

/-- A byte other than `0` is one of the source. -/
lemma cursor_lt_of_peek {l : Lexer} (h : l.peek ≠ 0) : l.cursor < l.source.length := by
  by_contra hge
  exact h (by simp [peek, List.getElem?_eq_none (not_lt.mp hge)])

lemma cursor_lt_advance {l : Lexer} (h : l.cursor < l.source.length) :
    l.cursor < l.advance.cursor := by
  simp [advance, not_le.mpr h]

/-- A loop that starts on a byte it accepts moves the cursor. -/
lemma cursor_lt_advanceWhile {l : Lexer} {p : Byte → Bool} (hlt : l.cursor < l.source.length)
    (hp : p l.peek = true) : l.cursor < (l.advanceWhile p).cursor := by
  obtain ⟨n, hn⟩ : ∃ n, l.remaining = n + 1 := ⟨l.remaining - 1, by simp only [remaining]; omega⟩
  have hgo : Onward l.advance (advanceWhile.go p n l.advance) := (Onward.refl _).advanceLoop p n
  have hstep : l.advanceWhile p = advanceWhile.go p n l.advance := by
    rw [advanceWhile, hn, advanceWhile.go, if_pos hp]
  rw [hstep]
  exact lt_of_lt_of_le (cursor_lt_advance hlt) hgo.le

/-- What a scanner that is entered at `l` returns: a token that starts at the cursor, is not
`Eof`, and has moved the cursor. -/
structure Scanned (l : Lexer) (r : Token × Lexer) : Prop where
  offset : r.1.globalOffset = l.cursor
  notEof : r.1.type ≠ Eof
  onward : Onward l r.2
  progress : l.cursor < r.2.cursor

variable {l : Lexer}

/-- A name takes its first byte, at least. -/
lemma scanned_identifier (hlt : l.cursor < l.source.length) (hc : isIdentStart l.peek = true) :
    Scanned l l.lexIdentifierOrKeyword where
  offset := by
    simp only [lexIdentifierOrKeyword]
    split_ifs <;> rfl
  notEof := by
    simp only [lexIdentifierOrKeyword]
    split_ifs
    · simp [tokenFrom]
    · exact stringMap_ne_eof _
  onward := (Onward.refl l).advanceWhile _
  progress := cursor_lt_advanceWhile hlt (by simp [isIdentBody, hc])

/-- The digits of a number are never empty: a hexadecimal prefix, or the digit that brought
`nextToken` here. -/
lemma lexDigits_progress (hlt : l.cursor < l.source.length) (hc : isDigit l.peek = true) :
    Onward l l.lexDigits.2 ∧ l.cursor < l.lexDigits.2.cursor := by
  unfold lexDigits
  split_ifs with hhex
  · have hon : Onward l.advance (l.advance.advance.advanceWhile isXDigit) :=
      (Onward.refl _).advance.advanceWhile _
    exact ⟨(Onward.refl l).advance.trans hon, lt_of_lt_of_le (cursor_lt_advance hlt) hon.le⟩
  · have hon : Onward (l.advanceWhile isDigit)
        (lexExponent (l.advanceWhile isDigit).lexFraction.1
          (l.advanceWhile isDigit).lexFraction.2).2 :=
      (Onward.refl _).lexFraction.lexExponent _
    exact ⟨((Onward.refl l).advanceWhile _).trans hon,
      lt_of_lt_of_le (cursor_lt_advanceWhile hlt hc) hon.le⟩

lemma scanned_number (hlt : l.cursor < l.source.length) (hc : isDigit l.peek = true) :
    Scanned l l.lexNumber where
  offset := rfl
  notEof := by
    simp only [lexNumber, tokenFrom]
    split_ifs <;> simp
  onward := (lexDigits_progress hlt hc).1.advanceWhile _
  progress := lt_of_lt_of_le (lexDigits_progress hlt hc).2
    ((Onward.refl _).advanceWhile isNumberSuffix).le

/-- A literal takes its opening quote, at least. -/
lemma scanned_quoted (quote : Byte) {type : TokenType} (htype : type ≠ Eof)
    (hlt : l.cursor < l.source.length) : Scanned l (l.lexQuoted quote type) where
  offset := rfl
  notEof := htype
  onward := (Onward.refl l).advance.quotedLoop quote _
  progress := lt_of_lt_of_le (cursor_lt_advance hlt) ((Onward.refl _).quotedLoop quote _).le

/-- An operator takes its first byte, at least. -/
lemma scanned_operator (hlt : l.cursor < l.source.length) :
    Scanned l (let r := lexOperator l.peek l.advance; (r.2.tokenFrom l.cursor r.1, r.2)) where
  offset := rfl
  notEof := lexOperator_ne_eof _ _
  onward := (Onward.refl l).advance.lexOperator _
  progress := lt_of_lt_of_le (cursor_lt_advance hlt) ((Onward.refl _).lexOperator _).le

/-- Every token takes a byte, at least. -/
lemma scanned_token (hlt : l.cursor < l.source.length) : Scanned l l.lexToken := by
  simp only [lexToken]
  split_ifs with hident hdigit hstring hchar
  · exact scanned_identifier hlt hident
  · exact scanned_number hlt hdigit
  · exact scanned_quoted _ (by decide) hlt
  · exact scanned_quoted _ (by decide) hlt
  · exact scanned_operator hlt

/-! ## What the skip loop passes over is trivia -/

lemma rest_advanceLoop {p : Byte → Bool} (hp : p 0 = false) (n : ℕ) :
    ∀ {l : Lexer}, l.rest.length ≤ n →
      (advanceWhile.go p n l).rest = l.rest.dropWhile p := by
  induction n with
  | zero =>
      intro l hn
      simp [List.length_eq_zero_iff.mp (Nat.le_zero.mp hn), advanceWhile.go]
  | succ n ih =>
      intro l hn
      rw [advanceWhile.go, peek_eq]
      cases hr : l.rest with
      | nil => simp [hp, hr]
      | cons c r =>
          by_cases hc : p c = true
          · have hlen : l.advance.rest.length ≤ n := by simp [hr] at hn ⊢; omega
            simp [hc, ih hlen, hr]
          · simp [hc, hr]

/-- What is left behind a loop over bytes with `p`. -/
lemma rest_advanceWhile {p : Byte → Bool} (hp : p 0 = false) (l : Lexer) :
    (l.advanceWhile p).rest = l.rest.dropWhile p :=
  rest_advanceLoop hp _ (remaining_eq l).ge

/-- Where the inner loop of a block comment stops: behind the first `*/`, or at the end of a
source that has none. -/
lemma rest_blockLoop (n : ℕ) : ∀ {l : Lexer}, l.rest.length ≤ n → 0 ∉ l.rest →
    (∃ body, ¬ bytes "*/" <:+: body ++ bytes "*" ∧
        l.rest = body ++ bytes "*/" ++ (skipBlockComment.go n l).rest) ∨
      (¬ bytes "*/" <:+: l.rest ∧ (skipBlockComment.go n l).rest = []) := by
  induction n with
  | zero =>
      intro l hn _
      have hnil := List.length_eq_zero_iff.mp (Nat.le_zero.mp hn)
      exact Or.inr ⟨by rw [hnil]; decide, by simpa [skipBlockComment.go] using hnil⟩
  | succ n ih =>
      intro l hn hnul
      rw [skipBlockComment.go, peek_eq, peek_eq]
      cases hr : l.rest with
      | nil => exact Or.inr ⟨by decide, by simp [hr]⟩
      | cons c r =>
          have hc : c ≠ 0 := fun h => hnul (by simp [hr, h])
          have hr' : l.advance.rest = r := by simp [hr]
          by_cases hclose : c = '*'.toUInt8 ∧ r.getD 0 0 = '/'.toUInt8
          · obtain ⟨rfl, hslash⟩ := hclose
            cases r with
            | nil => exact absurd hslash (by decide)
            | cons d r' =>
                obtain rfl : d = '/'.toUInt8 := by simpa using hslash
                refine Or.inl ⟨[], by decide, ?_⟩
                simp [hr, bytes, hc]
          · have hlen : l.advance.rest.length ≤ n := by simp [hr] at hn ⊢; omega
            have hloop : ¬ (c = '*'.toUInt8 ∧ (c :: r).getD 1 0 = '/'.toUInt8) := by
              simpa using hclose
            simp only [List.getD_cons_zero, if_neg hc, if_neg hloop]
            rcases ih hlen (by rw [hr']; exact fun h => hnul (by simp [hr, h])) with
              ⟨body, hbody, hsplit⟩ | ⟨hnone, hend⟩
            · refine Or.inl ⟨c :: body, ?_, by rw [← hr', hsplit]; simp⟩
              rw [List.cons_append, List.infix_cons_iff, not_or]
              refine ⟨fun hpre => hclose ?_, hbody⟩
              obtain ⟨hstar, hslash⟩ := List.cons_prefix_cons.mp hpre
              refine ⟨hstar.symm, ?_⟩
              rw [← hr', hsplit]
              cases body with
              | nil => exact absurd hslash (by decide)
              | cons d body => exact (List.cons_prefix_cons.mp hslash).1.symm
            · refine Or.inr ⟨?_, hend⟩
              rw [List.infix_cons_iff, not_or]
              refine ⟨fun hpre => hclose ?_, hr' ▸ hnone⟩
              obtain ⟨hstar, hslash⟩ := List.cons_prefix_cons.mp hpre
              obtain ⟨t, rfl⟩ := hslash
              exact ⟨hstar.symm, rfl⟩

lemma toUInt8_ofNat (c : Byte) : (Char.ofNat c.toNat).toUInt8 = c := by
  have table : ∀ i : Fin 256, (Char.ofNat (UInt8.ofNat i).toNat).toUInt8 = UInt8.ofNat i := by
    decide +kernel
  simpa using table ⟨c.toNat, c.toNat_lt⟩

/-- A byte is known from its character. -/
lemma byte_eq_of_char {c : Byte} {d : Char} (h : Char.ofNat c.toNat = d) : c = d.toUInt8 := by
  rw [← h, toUInt8_ofNat]

/-- One white byte in front of trivia. -/
lemma trivia_of_white {l : Lexer} {rest : List Byte} {d : Char} (hd : isWhitespace d.toUInt8 = true)
    (hd0 : d.toUInt8 ≠ 0) (hc : Char.ofNat l.peek.toNat = d) (h : Trivia l.advance.rest rest) :
    Trivia l.rest rest := by
  have hpeek := byte_eq_of_char hc
  rw [peek_eq] at hpeek
  cases hr : l.rest with
  | nil => exact absurd (by simpa [hr] using hpeek.symm) hd0
  | cons c r =>
      obtain rfl : c = d.toUInt8 := by simpa [hr] using hpeek
      exact Trivia.white hd (by simpa [hr] using h)

/-- The two bytes under the cursor, once neither is the end-of-source sentinel. -/
lemma rest_eq_of_peek {l : Lexer} {c d : Byte} (hc0 : c ≠ 0) (hd0 : d ≠ 0) (hc : l.peek = c)
    (hd : l.peek 1 = d) : ∃ r, l.rest = c :: d :: r := by
  rw [peek_eq] at hc hd
  rcases hr : l.rest with _ | ⟨a, _ | ⟨b, r⟩⟩
  · exact absurd (by simpa [hr] using hc.symm) hc0
  · exact absurd (by simpa [hr] using hd.symm) hd0
  · exact ⟨r, by simpa [hr] using And.intro hc hd⟩

/-- A line comment goes up to the first newline. -/
lemma lineComment_split {r : List Byte} (hnul : 0 ∉ r) :
    let p : Byte → Bool := fun c => c != 0 && c != '\n'.toUInt8
    '\n'.toUInt8 ∉ r.takeWhile p ∧ (r.dropWhile p = [] ∨ (r.dropWhile p).head? = some '\n'.toUInt8) := by
  intro p
  refine ⟨fun hmem => by simpa [p] using List.mem_takeWhile_imp hmem, ?_⟩
  cases hd : r.dropWhile p with
  | nil => exact Or.inl rfl
  | cons c t =>
      have hstop : p c = false := by
        have := List.head?_dropWhile_not p r
        simpa [hd] using this
      have hc0 : c ≠ 0 := fun hc => hnul (List.dropWhile_subset p (by simp [hd, hc]))
      exact Or.inr (by simpa [p, hc0] using hstop)

/-- A comment up to the end of its line is trivia. -/
lemma trivia_of_lineComment {r rest : List Byte} (hnul : 0 ∉ r)
    (h : Trivia (r.dropWhile fun c => c != 0 && c != '\n'.toUInt8) rest) :
    Trivia (bytes "//" ++ r) rest := by
  have hsplit := lineComment_split hnul
  have hline := Trivia.line hsplit.1 hsplit.2 h
  rwa [List.append_assoc, List.takeWhile_append_dropWhile] at hline

/-- A comment up to its `*/` is trivia. -/
lemma trivia_of_blockComment {l : Lexer} {rest : List Byte} (hnul : 0 ∉ l.rest)
    (h : Trivia l.skipBlockComment.rest rest) : Trivia (bytes "/*" ++ l.rest) rest := by
  rcases rest_blockLoop _ (remaining_eq l).ge hnul with ⟨body, hbody, hsplit⟩ | ⟨hopen, hend⟩
  · rw [hsplit, ← List.append_assoc, ← List.append_assoc]
    exact Trivia.block hbody h
  · rw [h.eq_nil hend]
    exact Trivia.openBlock hopen

/-- Everything that the loop skips is trivia. -/
lemma trivia_skipLoop (n : ℕ) : ∀ {l : Lexer}, l.rest.length ≤ n → 0 ∉ l.rest →
    Trivia l.rest (skipWhitespaceAndComments.go n l).rest := by
  induction n with
  | zero => exact fun _ _ => Trivia.done _
  | succ n ih =>
      intro l hn hnul
      -- whatever a loop body leaves is a proper suffix of the input, so the hypotheses carry over
      have hsuffix : ∀ {l' : Lexer}, l'.rest <:+ l.rest.tail →
          Trivia l'.rest (skipWhitespaceAndComments.go n l').rest := by
        intro l' hl'
        refine ih ?_ fun h => hnul (List.mem_of_mem_tail (hl'.subset h))
        have := hl'.length_le
        simp only [List.length_tail] at this
        omega
      have hwhite : Trivia l.advance.rest (skipWhitespaceAndComments.go n l.advance).rest :=
        hsuffix (advance_rest l ▸ List.suffix_rfl)
      rw [skipWhitespaceAndComments.go]
      split
      · next h => exact trivia_of_white (by decide) (by decide) h hwhite
      · next h => exact trivia_of_white (by decide) (by decide) h hwhite
      · next h => exact trivia_of_white (by decide) (by decide) h hwhite
      · next h => exact trivia_of_white (by decide) (by decide) h hwhite
      · next h =>
          have hslash := byte_eq_of_char h
          split_ifs with hline hblock
          · obtain ⟨r, hr⟩ := rest_eq_of_peek (by decide) (by decide) hslash hline
            have hr2 : l.advance.advance.rest = r := by simp [hr]
            have hdrop := rest_advanceWhile (p := fun c => c != 0 && c != '\n'.toUInt8) (by decide)
              l.advance.advance
            rw [hr2] at hdrop
            rw [hr]
            refine trivia_of_lineComment (fun h0 => hnul (by simp [hr, h0])) ?_
            rw [← hdrop]
            refine hsuffix ?_
            rw [hdrop, hr]
            exact (List.dropWhile_suffix _).trans (List.suffix_cons _ _)
          · obtain ⟨r, hr⟩ := rest_eq_of_peek (by decide) (by decide) hslash hblock
            have hr2 : l.advance.advance.rest = r := by simp [hr]
            have hstay := ((Onward.refl l.advance.advance).skipBlockComment).suffix
            rw [hr, ← hr2]
            refine trivia_of_blockComment (hr2 ▸ fun h0 => hnul (by simp [hr, h0])) (hsuffix ?_)
            rw [hr]
            exact (hr2 ▸ hstay).trans (List.suffix_cons _ _)
          · exact Trivia.done _
      · exact Trivia.done _

/-! ## Calling `nextToken` repeatedly -/

/-- The lexer behind its first `n` calls of `nextToken`. -/
def afterCalls (src : List Byte) : ℕ → Lexer
  | 0 => { source := src }
  | n + 1 => (afterCalls src n).nextToken.2

/-- The token that call number `n` (counted from zero) returns. -/
def tokenAt (src : List Byte) (n : ℕ) : Token := (afterCalls src n).nextToken.1

/-- A token only goes onward. -/
lemma onward_nextToken (l : Lexer) : Onward l l.nextToken.2 := by
  have hskip := (Onward.refl l).skipWhitespaceAndComments
  simp only [nextToken]
  split_ifs with h
  · exact hskip.buffer _
  · exact (hskip.trans (scanned_token (not_le.mp h)).onward).buffer _

/-- The token returned at the end of the source. -/
def eofToken (src : List Byte) : Token := { globalOffset := src.length, size := 0, type := Eof }

/-- One call on any source: the token starts at or behind the cursor, and either the source is
used up or the token has moved the cursor. -/
lemma nextToken_span {l : Lexer} (hl : l.cursor ≤ l.source.length) :
    l.cursor ≤ l.nextToken.1.globalOffset ∧
      (l.nextToken.1 = eofToken l.source ∨
        (l.nextToken.1.type ≠ Eof ∧ l.nextToken.1.globalOffset < l.nextToken.2.cursor)) := by
  have hskip := (Onward.refl l).skipWhitespaceAndComments
  simp only [nextToken]
  split_ifs with h
  · rw [hskip.source]
    exact ⟨hl, Or.inl rfl⟩
  · have htok := scanned_token (not_le.mp h)
    exact ⟨htok.offset ▸ hskip.le, Or.inr ⟨htok.notEof, htok.offset ▸ htok.progress⟩⟩

/-- What one call skips is trivia. -/
lemma nextToken_trivia {l : Lexer} (hnul : 0 ∉ l.rest) :
    Trivia l.rest (l.source.drop l.nextToken.1.globalOffset) := by
  have hskip := (Onward.refl l).skipWhitespaceAndComments
  have htrivia := trivia_skipLoop _ (remaining_eq l).ge hnul
  simp only [nextToken]
  split_ifs with h
  · have hend : l.skipWhitespaceAndComments.rest = [] := List.drop_eq_nil_of_le h
    rw [hskip.source, List.drop_length]
    exact hend ▸ htrivia
  · rw [(scanned_token (not_le.mp h)).offset, ← hskip.source]
    exact htrivia

lemma onward_afterCalls (src : List Byte) (n : ℕ) :
    (afterCalls src n).source = src ∧ (afterCalls src n).cursor ≤ src.length := by
  induction n with
  | zero => exact ⟨rfl, Nat.zero_le _⟩
  | succ n ih =>
      have h := onward_nextToken (afterCalls src n)
      refine ⟨h.source.trans ih.1, ?_⟩
      have hb := h.bound (by rw [ih.1]; exact ih.2)
      rwa [ih.1] at hb

/-- The calls on `src` tile it: token `n` spans `[globalOffset, cursor)` with the cursor as the
call leaves it. -/
structure Tiles (src : List Byte) : Prop where
  /-- the bytes between two spans (and in front of the first) are whitespace and comments -/
  gap : ∀ n, Trivia (src.drop (afterCalls src n).cursor) (src.drop (tokenAt src n).globalOffset)
  /-- a span starts where the previous one ended, or later -/
  ordered : ∀ n, (afterCalls src n).cursor ≤ (tokenAt src n).globalOffset
  /-- spans are non-empty -/
  nonempty : ∀ n, (tokenAt src n).type ≠ Eof →
    (tokenAt src n).globalOffset < (afterCalls src (n + 1)).cursor
  /-- spans stay inside the source -/
  inside : ∀ n, (afterCalls src n).cursor ≤ src.length
  /-- the gap in front of `Eof` reaches the end of the source -/
  last : ∀ n, (tokenAt src n).type = Eof → (tokenAt src n).globalOffset = src.length
  eofReached : ∃ n ≤ src.length, (tokenAt src n).type = Eof
  eofStable : ∀ n m, n ≤ m → (tokenAt src n).type = Eof → (tokenAt src m).type = Eof

variable {src : List Byte}

/-- A token starts behind the one before and ends in front of the next, unless it is the end. -/
lemma tokenAt_spec (src : List Byte) (n : ℕ) :
    (afterCalls src n).cursor ≤ (tokenAt src n).globalOffset ∧
      (tokenAt src n = eofToken src ∨
        ((tokenAt src n).type ≠ Eof ∧
          (tokenAt src n).globalOffset < (afterCalls src (n + 1)).cursor)) := by
  have hcur := onward_afterCalls src n
  have hspec := nextToken_span (l := afterCalls src n) (hcur.1.symm ▸ hcur.2)
  rw [hcur.1] at hspec
  exact hspec

lemma tokenAt_trivia (hnul : 0 ∉ src) (n : ℕ) :
    Trivia (src.drop (afterCalls src n).cursor) (src.drop (tokenAt src n).globalOffset) := by
  have hsrc := (onward_afterCalls src n).1
  have hspec := nextToken_trivia (l := afterCalls src n) fun h =>
    hnul (hsrc ▸ List.mem_of_mem_drop h)
  simp only [rest, hsrc] at hspec
  exact hspec

/-- As long as `Eof` has not been returned, every call has moved the cursor. -/
lemma le_cursor_of_no_eof (n : ℕ) (h : ∀ m < n, (tokenAt src m).type ≠ Eof) :
    n ≤ (afterCalls src n).cursor := by
  induction n with
  | zero => exact Nat.zero_le _
  | succ n ih =>
      have hn := ih fun m hm => h m (by omega)
      rcases tokenAt_spec src n with ⟨hord, heof | ⟨-, hlt⟩⟩
      · exact absurd (by rw [heof]; rfl) (h n (by omega))
      · omega

/-- The token of type `Eof` is always the same. -/
lemma tokenAt_eq_of_eof {n : ℕ} (h : (tokenAt src n).type = Eof) :
    tokenAt src n = eofToken src :=
  (tokenAt_spec src n).2.resolve_right fun hne => hne.1 h

/-- Behind an `Eof` the cursor is at the end of the source, and there the next call is `Eof`. -/
lemma eof_succ (n : ℕ) (h : (tokenAt src n).type = Eof) : (tokenAt src (n + 1)).type = Eof := by
  have hcur := onward_afterCalls src (n + 1)
  have hend : (afterCalls src (n + 1)).cursor = src.length := by
    have hstep : afterCalls src (n + 1) = (afterCalls src n).nextToken.2 := rfl
    have heof : (afterCalls src n).nextToken.1.type = Eof := h
    rw [hstep] at hcur ⊢
    simp only [nextToken] at heof hcur ⊢
    split_ifs at heof hcur ⊢ with hge
    · have hskip := (Onward.refl (afterCalls src n)).skipWhitespaceAndComments
      rw [hskip.source, (onward_afterCalls src n).1] at hge
      exact le_antisymm hcur.2 hge
    · exact absurd heof (scanned_token (not_le.mp hge)).notEof
  rcases tokenAt_spec src (n + 1) with ⟨hord, heof | ⟨-, hlt⟩⟩
  · rw [heof]
    rfl
  · have := (onward_afterCalls src (n + 1 + 1)).2
    omega

/-- Behind the end comes the end again. -/
lemma eof_le {n m : ℕ} (hnm : n ≤ m) (hn : (tokenAt src n).type = Eof) :
    (tokenAt src m).type = Eof := by
  induction m, hnm using Nat.le_induction with
  | base => exact hn
  | succ m _ ih => exact eof_succ m ih

lemma exists_eof (src : List Byte) : ∃ n ≤ src.length, (tokenAt src n).type = Eof := by
  by_contra hnone
  push Not at hnone
  have hcur := le_cursor_of_no_eof (src.length + 1) fun m hm => hnone m (by omega)
  have := (onward_afterCalls src (src.length + 1)).2
  omega

/-- Offsets increase from token to token. -/
lemma offset_lt_succ {n : ℕ} (h : (tokenAt src n).type ≠ Eof) :
    (tokenAt src n).globalOffset < (tokenAt src (n + 1)).globalOffset := by
  rcases tokenAt_spec src n with ⟨-, heof | ⟨-, hlt⟩⟩
  · exact absurd (by rw [heof]; rfl) h
  · exact lt_of_lt_of_le hlt (tokenAt_spec src (n + 1)).1

/-- The tokens of a source in front of `Eof`. -/
def tokensOf (src : List Byte) : List Token :=
  ((List.range (src.length + 1)).map (tokenAt src)).takeWhile fun t => t.type ≠ Eof

lemma tokensOf_eq {n : ℕ} (hn : (tokenAt src n).type = Eof)
    (hlt : ∀ m < n, (tokenAt src m).type ≠ Eof) :
    tokensOf src = (List.range n).map (tokenAt src) := by
  have hle : n ≤ src.length := by
    rcases exists_eof src with ⟨m, hm, heof⟩
    by_contra hgt
    exact hlt m (by omega) heof
  have hsplit : (List.range (src.length + 1)).map (tokenAt src) =
      (List.range n).map (tokenAt src)
        ++ tokenAt src n :: (List.range' (n + 1) (src.length - n)).map (tokenAt src) := by
    have hrange : List.range (src.length + 1) =
        List.range n ++ n :: List.range' (n + 1) (src.length - n) := by
      rw [← List.range'_succ, List.range_eq_range', List.range_eq_range',
        show src.length + 1 = n + (src.length - n + 1) by omega, ← List.range'_append_1,
        Nat.zero_add]
    rw [hrange, List.map_append, List.map_cons]
  rw [tokensOf, hsplit, List.takeWhile_append_of_pos]
  · simp [hn]
  · intro t ht
    rcases List.mem_map.mp ht with ⟨m, hm, rfl⟩
    simpa using hlt m (List.mem_range.mp hm)

lemma offset_le_succ (n : ℕ) :
    (tokenAt src n).globalOffset ≤ (tokenAt src (n + 1)).globalOffset := by
  by_cases h : (tokenAt src n).type = Eof
  · rw [tokenAt_eq_of_eof h, tokenAt_eq_of_eof (eof_succ n h)]
  · exact (offset_lt_succ h).le

/-- Tokens stand in the order in which they are read. -/
lemma offset_lt {n m : ℕ} (hnm : n < m) (h : (tokenAt src n).type ≠ Eof) :
    (tokenAt src n).globalOffset < (tokenAt src m).globalOffset :=
  lt_of_lt_of_le (offset_lt_succ h) (monotone_nat_of_le_succ offset_le_succ hnm)

/-- **The lexer tiles its source.** -/
theorem nextToken_tiles (src : List Byte) (hnul : 0 ∉ src) : Tiles src where
  gap n := tokenAt_trivia hnul n
  ordered n := (tokenAt_spec src n).1
  nonempty n hn := by
    rcases (tokenAt_spec src n).2 with heof | ⟨-, hlt⟩
    · exact absurd (by rw [heof]; rfl) hn
    · exact hlt
  inside n := (onward_afterCalls src n).2
  last n hn := by rw [tokenAt_eq_of_eof hn]; rfl
  eofReached := exists_eof src
  eofStable _ _ hnm hn := eof_le hnm hn

/-- An unterminated block comment and an unterminated string are among the sources covered. -/
theorem nextToken_tiles_sample : Tiles (bytes "a /* b */+= 1.5e3 // c\n 'x /*") :=
  nextToken_tiles _ (by decide)

end Lexer

end LogicCompiler
