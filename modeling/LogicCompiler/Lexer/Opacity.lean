import LogicCompiler.Lexer.Munching
import LogicCompiler.Lexer.Recording

/-!
# Comments and literals are opaque

`Mode` reads a source byte by byte, without tokens: it knows comment openers, quotes, the newline
and the `*/` that end a comment, and the backslash.  `Inside src i` says that the byte at `i` lies
between a comment opener and the end of the comment, or in a literal before its closing quote.

The scanning loops of the lexer take the byte `0` for the end of the source.  In front of any other
byte they agree with `Mode`: what the lexer takes away leads from code to code
(`Reaches`), unless the source ends there, or a `0` that lies inside a comment or a literal.  There
the loop stops and the `0` is the beginning of a token.  So no token starts inside exactly when no
`0` lies inside.
-/

namespace LogicCompiler

open TokenType Munch

namespace Lexer

/-! ## Reading by bytes -/

/-- What a byte belongs to. -/
inductive Mode where
  | plain
  /-- the second byte of `//` or, for a block comment, `/*` -/
  | opener (isBlock : Bool)
  | line
  | block
  /-- the second byte of the `*/` that ends a comment -/
  | closer
  | literal (quote : Byte)
  /-- the byte behind a backslash in a literal -/
  | escape (quote : Byte)
  deriving DecidableEq

namespace Mode

/-- A line comment ends in front of its newline. -/
def ofLine (r : List Byte) : Mode := if r.head? = some '\n'.toUInt8 then plain else line

/-- The byte `c`, with `r` behind it, lies between a comment opener and the end of the comment, or
in a literal before its closing quote. -/
def inside : Mode → Byte → List Byte → Bool
  | plain, _, _ => false
  | opener _, _, _ => false
  | line, _, _ => true
  | block, c, r => !(c == '*'.toUInt8 && r.head? == some '/'.toUInt8)
  | closer, _, _ => false
  | literal quote, c, _ => c != quote
  | escape _, _, _ => true

/-- The mode behind `c`. -/
def next : Mode → Byte → List Byte → Mode
  | plain, c, r =>
      if c = '/'.toUInt8 ∧ r.head? = some '/'.toUInt8 then opener false
      else if c = '/'.toUInt8 ∧ r.head? = some '*'.toUInt8 then opener true
      else if c = '"'.toUInt8 ∨ c = '\''.toUInt8 then literal c
      else plain
  | opener isBlock, _, r => if isBlock then block else ofLine r
  | line, _, r => ofLine r
  | block, c, r => if c = '*'.toUInt8 ∧ r.head? = some '/'.toUInt8 then closer else block
  | closer, _, _ => plain
  | literal quote, c, _ =>
      if c = '\\'.toUInt8 then escape quote else if c = quote then plain else literal quote
  | escape quote, _, _ => literal quote

/-- The mode behind `w`, with `r` behind it. -/
def walk : Mode → List Byte → List Byte → Mode
  | m, [], _ => m
  | m, c :: w, r => walk (m.next c (w ++ r)) w r

lemma walk_append (m : Mode) (v w r : List Byte) :
    walk m (v ++ w) r = walk (walk m v (w ++ r)) w r := by
  induction v generalizing m with
  | nil => rfl
  | cons c v ih => rw [List.cons_append, walk, ih, List.append_assoc, walk]

end Mode

open Mode

/-- The byte at `i` lies between a comment opener and the end of the comment (a newline, `*/` or
the end of the source), or in a literal before its closing quote or the end of the source. -/
def Inside (src : List Byte) (i : ℕ) : Prop :=
  ∃ w c r, src = w ++ c :: r ∧ w.length = i ∧ (walk plain w (c :: r)).inside c r = true

/-- `w` leads from `m` to `m'` in front of `r`, and no byte `0` of it lies inside. -/
inductive Passes (r : List Byte) : Mode → List Byte → Mode → Prop
  | nil (m : Mode) : Passes r m [] m
  | cons {m m' : Mode} {c : Byte} {w : List Byte} (hc : m.inside c (w ++ r) = true → c ≠ 0)
      (h : Passes r (m.next c (w ++ r)) w m') : Passes r m (c :: w) m'

variable {m m' m'' : Mode} {r s t t' u v w : List Byte} {c quote : Byte}

namespace Passes

lemma append (h : Passes (v ++ r) m u m') (h' : Passes r m' v m'') : Passes r m (u ++ v) m'' := by
  induction h with
  | nil => exact h'
  | cons hc _ ih =>
      rw [List.cons_append]
      refine .cons ?_ ?_ <;> rw [List.append_assoc]
      · exact hc
      · exact ih h'

lemma walk_eq (h : Passes r m w m') : walk m w r = m' := by
  induction h with
  | nil => rfl
  | cons _ _ ih => exact ih

lemma quiet (h : Passes r m w m') (hw : w = u ++ c :: v)
    (hinside : (walk m u (c :: v ++ r)).inside c (v ++ r) = true) : c ≠ 0 := by
  induction h generalizing u with
  | nil => simp at hw
  | cons hc _ ih =>
      rcases u with _ | ⟨a, u⟩
      · obtain ⟨rfl, rfl⟩ := List.cons.inj hw
        exact hc hinside
      · obtain ⟨rfl, rfl⟩ := List.cons.inj hw
        rw [walk, ← List.append_assoc] at hinside
        exact ih rfl hinside

end Passes

/-! ## Where a loop of the lexer stops -/

/-- In front of `t` there is code, or the end of the source, or a byte `0` that lies inside. -/
def Stands (m : Mode) (t : List Byte) : Prop :=
  m = plain ∨ t = [] ∨ ∃ r, t = 0 :: r ∧ m.inside 0 r = true

/-- From the text `s`, read from `m` on, the lexer has come to `t`. -/
def Reaches (m : Mode) (s t : List Byte) : Prop :=
  ∃ w m', s = w ++ t ∧ Passes t m w m' ∧ Stands m' t

/-- Neither a quote nor a `/`. -/
def Ordinary (c : Byte) : Prop := c ≠ '/'.toUInt8 ∧ c ≠ '"'.toUInt8 ∧ c ≠ '\''.toUInt8

instance : DecidablePred Ordinary := fun c =>
  inferInstanceAs (Decidable (c ≠ '/'.toUInt8 ∧ c ≠ '"'.toUInt8 ∧ c ≠ '\''.toUInt8))

namespace Reaches

lemma stop (h : Stands m s) : Reaches m s s := ⟨[], m, rfl, .nil m, h⟩

lemma cons (hc : m.inside c s = true → c ≠ 0) (h : Reaches (m.next c s) s t) :
    Reaches m (c :: s) t := by
  rcases h with ⟨w, m', rfl, hpass, hstands⟩
  exact ⟨c :: w, m', rfl, .cons hc hpass, hstands⟩

/-- A loop that does not move at the end of the source or at a `0` goes on from where another one
has stopped. -/
lemma trans (h : Reaches m s t) (h' : Reaches plain t t')
    (hstay : t = [] ∨ t.head? = some 0 → t' = t) : Reaches m s t' := by
  rcases h with ⟨w, m', rfl, hpass, hstands⟩
  rcases hstands with rfl | hend | ⟨r, hr, hinside⟩
  · rcases h' with ⟨v, m'', rfl, hpass', hstands'⟩
    exact ⟨w ++ v, m'', (List.append_assoc _ _ _).symm, hpass.append hpass', hstands'⟩
  · rw [hstay (.inl hend)]
    exact ⟨w, m', rfl, hpass, .inr (.inl hend)⟩
  · rw [hstay (.inr (by rw [hr]; rfl))]
    exact ⟨w, m', rfl, hpass, .inr (.inr ⟨r, hr, hinside⟩)⟩

/-! ### Code -/

lemma next_ordinary (hc : Ordinary c) : plain.next c s = plain := by
  simp [Mode.next, hc.1, hc.2.1, hc.2.2]

lemma refl : Reaches plain s s := stop (.inl rfl)

lemma ordinary (hw : ∀ c ∈ w, Ordinary c) : Reaches plain (w ++ t) t := by
  induction w with
  | nil => exact refl
  | cons c w ih =>
      have hc := hw c List.mem_cons_self
      refine cons (fun h => by cases h) ?_
      rw [next_ordinary hc]
      exact ih fun d hd => hw d (List.mem_cons_of_mem c hd)

/-! ### Comments -/

lemma ofLine_cons (hc : c ≠ '\n'.toUInt8) : ofLine (c :: s) = line := by
  simp [ofLine, hc]

/-- The loop of a line comment stops in front of the newline, at the end, or at a `0`. -/
lemma lineLoop (s : List Byte) :
    Reaches (ofLine s) s (s.dropWhile fun c => c != 0 && c != '\n'.toUInt8) := by
  induction s with
  | nil => exact stop (.inr (.inl rfl))
  | cons c s ih =>
      by_cases hnewline : c = '\n'.toUInt8
      · have hplain : ofLine (c :: s) = plain := by simp [ofLine, hnewline]
        rw [List.dropWhile_cons_of_neg (by simp [hnewline])]
        exact stop (.inl hplain)
      · rw [ofLine_cons hnewline]
        by_cases hzero : c = 0
        · rw [List.dropWhile_cons_of_neg (by simp [hzero])]
          exact stop (.inr (.inr ⟨s, by rw [hzero], rfl⟩))
        · rw [List.dropWhile_cons_of_pos (by simp [hzero, hnewline])]
          exact cons (fun _ => hzero) ih

/-- The loop of a block comment stops behind the first `*/`, at the end, or at a `0`. -/
lemma blockLoop (n : ℕ) : ∀ {l : Lexer}, l.rest.length ≤ n →
    Reaches block l.rest (skipBlockComment.go n l).rest := by
  induction n with
  | zero =>
      intro l hn
      have hnil := List.length_eq_zero_iff.mp (Nat.le_zero.mp hn)
      exact stop (.inr (.inl hnil))
  | succ n ih =>
      intro l hn
      rw [skipBlockComment.go]
      cases hr : l.rest with
      | nil =>
          have hpeek : l.peek = 0 := by rw [peek_eq, hr]; rfl
          rw [if_pos hpeek, hr]
          exact stop (.inr (.inl rfl))
      | cons c r =>
          have hpeek : l.peek = c := by rw [peek_eq, hr]; rfl
          have hrest : l.advance.rest = r := by rw [advance_rest, hr]; rfl
          split_ifs with hzero hclose
          · rw [hr, ← hpeek, hzero]
            exact stop (.inr (.inr ⟨r, rfl, rfl⟩))
          · obtain ⟨r', hr'⟩ := rest_eq_of_peek (by decide) (by decide) hclose.1 hclose.2
            obtain ⟨rfl, rfl⟩ := List.cons.inj (hr.symm.trans hr')
            rw [advance_rest, hrest]
            refine cons (fun h => by simp [inside] at h) ?_
            simp only [Mode.next, List.head?_cons, and_self, if_true]
            exact cons (fun h => by cases h) (stop (.inl rfl))
          · have hopen : ¬ (c = '*'.toUInt8 ∧ r.head? = some '/'.toUInt8) := by
              rintro ⟨hstar, hslash⟩
              obtain ⟨r', rfl⟩ := List.head?_eq_some_iff.mp hslash
              exact hclose ⟨hpeek.trans hstar, by rw [peek_eq, hr]; rfl⟩
            refine cons (fun _ => hpeek ▸ hzero) ?_
            have hnext : block.next c r = block := if_neg hopen
            rw [hnext, ← hrest]
            refine ih ?_
            rw [hrest]
            rw [hr, List.length_cons] at hn
            omega

/-! ### Literals -/

lemma quotedLoop_zero (n : ℕ) {l : Lexer} (h : l.peek = 0) : lexQuoted.go quote n l = l := by
  cases n with
  | zero => rfl
  | succ n => rw [lexQuoted.go, if_pos h]

/-- The loop of a literal stops behind its closing quote, at the end, or at a `0`. -/
lemma quotedLoop (hquote : quote ≠ 0) (n : ℕ) : ∀ {l : Lexer}, l.rest.length ≤ n →
    Reaches (literal quote) l.rest (lexQuoted.go quote n l).rest := by
  induction n using Nat.strong_induction_on with
  | _ n ih =>
    intro l hn
    cases n with
    | zero =>
        have hnil := List.length_eq_zero_iff.mp (Nat.le_zero.mp hn)
        exact stop (.inr (.inl hnil))
    | succ n =>
        rw [lexQuoted.go]
        cases hr : l.rest with
        | nil =>
            have hpeek : l.peek = 0 := by rw [peek_eq, hr]; rfl
            rw [if_pos hpeek, hr]
            exact stop (.inr (.inl rfl))
        | cons c r =>
            have hpeek : l.peek = c := by rw [peek_eq, hr]; rfl
            have hrest : l.advance.rest = r := by rw [advance_rest, hr]; rfl
            rw [hr, List.length_cons] at hn
            simp only [hpeek]
            split_ifs with hzero hescape hmore hclose
            · rw [hr, hzero]
              refine stop (.inr (.inr ⟨r, rfl, ?_⟩))
              simpa [inside] using hquote.symm
            · -- the escaped byte is taken with its backslash
              refine cons (fun _ => hzero) ?_
              have hnext : (literal quote).next c r = escape quote := if_pos hescape
              rw [hnext]
              cases hr' : r with
              | nil =>
                  rw [peek_eq, hrest, hr'] at hmore
                  exact absurd rfl hmore
              | cons d r' =>
                  have hd : d ≠ 0 := by
                    rw [peek_eq, hrest, hr'] at hmore
                    exact hmore
                  have hrest' : l.advance.advance.rest = r' := by
                    rw [advance_rest, hrest, hr']
                    rfl
                  refine cons (fun _ => hd) ?_
                  rw [← hrest']
                  refine ih n (Nat.lt_succ_self n) ?_
                  rw [hr', List.length_cons] at hn
                  rw [hrest']
                  omega
            · -- nothing is behind the backslash, or a `0`
              have hpeek' := not_not.mp hmore
              refine cons (fun _ => hzero) ?_
              have hnext : (literal quote).next c r = escape quote := if_pos hescape
              rw [hnext, quotedLoop_zero n hpeek', hrest]
              refine stop ?_
              cases hr' : r with
              | nil => exact .inr (.inl rfl)
              | cons d r' =>
                  rw [peek_eq, hrest, hr'] at hpeek'
                  exact .inr (.inr ⟨r', by rw [show d = 0 from hpeek'], rfl⟩)
            · refine cons (fun _ => hzero) ?_
              have hnext : (literal quote).next c r = plain :=
                (if_neg hescape).trans (if_pos hclose)
              rw [hnext, hrest]
              exact refl
            · refine cons (fun _ => hzero) ?_
              have hnext : (literal quote).next c r = literal quote :=
                (if_neg hescape).trans (if_neg hclose)
              rw [hnext, ← hrest]
              exact ih n (Nat.lt_succ_self n) (by rw [hrest]; omega)

/-! ### Between tokens -/

lemma skipLoop_stay (n : ℕ) {l : Lexer} (h : l.rest = [] ∨ l.rest.head? = some 0) :
    (skipWhitespaceAndComments.go n l).rest = l.rest := by
  have hpeek : l.peek = 0 := by
    rw [peek_eq]
    rcases h with h | h
    · rw [h]
      rfl
    · obtain ⟨r, hr⟩ := List.head?_eq_some_iff.mp h
      rw [hr]
      rfl
  cases n with
  | zero => rfl
  | succ n =>
      rw [skipWhitespaceAndComments.go, hpeek]
      rfl

lemma skipLoop (n : ℕ) : ∀ {l : Lexer}, l.rest.length ≤ n →
    Reaches plain l.rest (skipWhitespaceAndComments.go n l).rest := by
  induction n with
  | zero => exact fun _ => refl
  | succ n ih =>
      intro l hn
      have hwhite {d : Char} (hd : Ordinary d.toUInt8 ∧ d.toUInt8 ≠ 0)
          (h : Char.ofNat l.peek.toNat = d) :
          Reaches plain l.rest (skipWhitespaceAndComments.go n l.advance).rest := by
        have hpeek := byte_eq_of_char h
        rw [peek_eq] at hpeek
        cases hr : l.rest with
        | nil =>
            rw [hr] at hpeek
            exact absurd hpeek.symm hd.2
        | cons c r =>
            rw [hr] at hpeek
            obtain rfl : c = d.toUInt8 := hpeek
            have hrest : l.advance.rest = r := by rw [advance_rest, hr]; rfl
            refine cons (fun h => by cases h) ?_
            rw [next_ordinary hd.1, ← hrest]
            refine ih ?_
            rw [hr, List.length_cons] at hn
            rw [hrest]
            omega
      -- behind the body of a comment
      have hbody {l' : Lexer} {m : Mode} {s : List Byte} (h : Reaches m s l'.rest)
          (hle : l'.rest.length ≤ n) :
          Reaches m s (skipWhitespaceAndComments.go n l').rest :=
        h.trans (ih hle) (skipLoop_stay n)
      rw [skipWhitespaceAndComments.go]
      split
      · next h => exact hwhite (by decide) h
      · next h => exact hwhite (by decide) h
      · next h => exact hwhite (by decide) h
      · next h => exact hwhite (by decide) h
      · next h =>
          have hslash := byte_eq_of_char h
          split_ifs with hline hblock
          · obtain ⟨r, hr⟩ := rest_eq_of_peek (by decide) (by decide) hslash hline
            have hr2 : l.advance.advance.rest = r := by rw [advance_rest, advance_rest, hr]; rfl
            have hdrop := rest_advanceWhile (p := fun c => c != 0 && c != '\n'.toUInt8) (by decide)
              l.advance.advance
            rw [hr2] at hdrop
            rw [hr] at hn ⊢
            refine cons (fun h => by cases h) (cons (fun h => by cases h) (hbody ?_ ?_))
            · rw [hdrop]
              exact lineLoop r
            · rw [hdrop]
              have hle := (List.dropWhile_suffix (l := r)
                (fun c => c != 0 && c != '\n'.toUInt8)).length_le
              simp only [List.length_cons] at hn
              omega
          · obtain ⟨r, hr⟩ := rest_eq_of_peek (by decide) (by decide) hslash hblock
            have hr2 : l.advance.advance.rest = r := by rw [advance_rest, advance_rest, hr]; rfl
            have hle := ((Onward.refl l.advance.advance).skipBlockComment).suffix.length_le
            rw [hr] at hn ⊢
            refine cons (fun h => by cases h) (cons (fun h => by cases h) (hbody ?_ ?_))
            · rw [← hr2]
              exact blockLoop _ (remaining_eq _).ge
            · rw [hr2] at hle
              simp only [List.length_cons] at hn
              omega
          · exact refl
      · exact refl

lemma skip (l : Lexer) : Reaches plain l.rest l.skipWhitespaceAndComments.rest :=
  skipLoop _ (remaining_eq l).ge

lemma skip_stay {l : Lexer} (h : l.rest = [] ∨ l.rest.head? = some 0) :
    l.skipWhitespaceAndComments.rest = l.rest := skipLoop_stay _ h

end Reaches

/-! ## Tokens -/

/-- What has been taken on the way from `l` to `l'` has neither a quote nor a `/`. -/
def TakesOrdinary (l l' : Lexer) : Prop :=
  ∃ w, l.rest = w ++ l'.rest ∧ ∀ c ∈ w, Ordinary c

namespace TakesOrdinary

variable {l l' l'' : Lexer} {p : Byte → Bool}

lemma refl : TakesOrdinary l l := ⟨[], rfl, fun _ h => by cases h⟩

lemma trans (h : TakesOrdinary l l') (h' : TakesOrdinary l' l'') : TakesOrdinary l l'' := by
  obtain ⟨w, hw, hord⟩ := h
  obtain ⟨v, hv, hord'⟩ := h'
  refine ⟨w ++ v, by rw [hw, hv, List.append_assoc], ?_⟩
  intro c hc
  rcases List.mem_append.mp hc with hc | hc
  · exact hord c hc
  · exact hord' c hc

/-- The test of a loop fails on quotes and on `/`. -/
lemma advanceWhile (hp : p 0 = false ∧ p '/'.toUInt8 = false ∧ p '"'.toUInt8 = false ∧
    p '\''.toUInt8 = false := by decide) : TakesOrdinary l (l.advanceWhile p) := by
  refine ⟨l.rest.takeWhile p, ?_, ?_⟩
  · rw [rest_advanceWhile hp.1, List.takeWhile_append_dropWhile]
  · intro c hc
    have hpc := List.mem_takeWhile_imp hc
    refine ⟨?_, ?_, ?_⟩ <;> rintro rfl
    · simp [hp.2.1] at hpc
    · simp [hp.2.2.1] at hpc
    · simp [hp.2.2.2] at hpc

lemma advance {c : Byte} (hpeek : l.peek = c) (hc : Ordinary c := by decide) :
    TakesOrdinary l l.advance := by
  rw [peek_eq] at hpeek
  cases hr : l.rest with
  | nil => exact ⟨[], by rw [advance_rest, hr]; rfl, fun _ h => by cases h⟩
  | cons d r =>
      rw [hr] at hpeek
      obtain rfl : d = c := hpeek
      refine ⟨[d], by rw [hr, advance_rest, hr]; rfl, ?_⟩
      intro a ha
      rwa [List.mem_singleton.mp ha]

lemma lexFraction : TakesOrdinary l l.lexFraction.2 := by
  rw [Lexer.lexFraction]
  split_ifs with h
  · exact (advance h.1).trans advanceWhile
  · exact refl

lemma lexExponent (isFloat : Bool) : TakesOrdinary l (l.lexExponent isFloat).2 := by
  have hone {l : Lexer} {c d : Byte} (h : l.peek = c ∨ l.peek = d)
      (hc : Ordinary c ∧ Ordinary d := by decide) : TakesOrdinary l l.advance :=
    h.elim (advance · hc.1) (advance · hc.2)
  simp only [Lexer.lexExponent]
  split_ifs with hexp hsign
  · exact (hone hexp).trans ((hone hsign).trans advanceWhile)
  · exact (hone hexp).trans advanceWhile
  · exact refl

lemma lexDigits : TakesOrdinary l l.lexDigits.2 := by
  by_cases hhex : Hex l.rest
  · rw [lexDigits_of_hex hhex]
    obtain ⟨x, r, hr, hx⟩ := hhex
    have hpeek : l.advance.peek = x := by
      rw [peek_eq, advance_rest, hr]
      rfl
    have hord : Ordinary x := by
      rcases hx with rfl | rfl <;> decide
    refine (advance (c := '0'.toUInt8) (by rw [peek_eq, hr]; rfl)).trans ?_
    exact (advance hpeek hord).trans advanceWhile
  · rw [lexDigits_of_not_hex hhex]
    exact trans advanceWhile (lexFraction.trans (lexExponent _))

lemma reaches (h : TakesOrdinary l l') : Reaches plain l.rest l'.rest := by
  obtain ⟨w, hw, hord⟩ := h
  rw [hw]
  exact .ordinary hord

end TakesOrdinary

namespace Reaches

variable {l : Lexer}

/-- A `/` that opens no comment. -/
lemma next_slash (h : ∀ d ∈ s.head?, d ≠ '/'.toUInt8 ∧ d ≠ '*'.toUInt8) :
    plain.next '/'.toUInt8 s = plain := by
  have hslash : s.head? ≠ some '/'.toUInt8 := fun hs => (h _ hs).1 rfl
  have hstar : s.head? ≠ some '*'.toUInt8 := fun hs => (h _ hs).2 rfl
  simp only [Mode.next, hslash, hstar, and_false, if_false]
  decide

/-- An operator takes neither a quote nor a comment opener: all of it is ordinary, or it is a `/` in
front of something ordinary. -/
lemma operator_takes {r : List Byte} (hr : l.rest = c :: r) (hsolid : Solid l.rest)
    (hstring : c ≠ '"'.toUInt8) (hchar : c ≠ '\''.toUInt8) :
    TakesOrdinary l (lexOperator c l.advance).2 ∨
      c = '/'.toUInt8 ∧ (∀ d ∈ r.head?, d ≠ '/'.toUInt8 ∧ d ≠ '*'.toUInt8) ∧
        ∃ w, r = w ++ (lexOperator c l.advance).2.rest ∧ ∀ d ∈ w, Ordinary d := by
  have hrest : l.advance.rest = r := by rw [advance_rest, hr]; rfl
  by_cases hc : c ∈ operatorChars.map Char.toUInt8
  · obtain ⟨d, hd, rfl⟩ := List.mem_map.mp hc
    have htaken := takes_operator (l := l.advance) hd (s := l.rest) (by rw [hr, hrest]; rfl)
    generalize lexOperator d.toUInt8 l.advance = out at htaken
    by_cases hslash : d = '/'
    · subst hslash
      rw [hr] at hsolid
      have hbehind : ∀ d ∈ r.head?, d ≠ '/'.toUInt8 ∧ d ≠ '*'.toUInt8 := (hsolid _ rfl).2 rfl
      refine .inr ⟨rfl, hbehind, ?_⟩
      have hmem := htaken.mem
      have hsplit := htaken.split
      simp only [beginningWith, List.mem_cons, List.not_mem_nil, or_false] at hmem
      rcases hmem with h | h | h <;> rw [h, hr] at hsplit
      · exact ⟨['='.toUInt8], (List.cons.inj hsplit).2, by decide⟩
      · have hr' : r = '/'.toUInt8 :: out.2.rest := (List.cons.inj hsplit).2
        rw [hr'] at hbehind
        exact absurd rfl (hbehind _ rfl).1
      · exact ⟨[], (List.cons.inj hsplit).2, by simp⟩
    · have htable : ∀ d ∈ operatorChars, d ≠ '/' → ∀ t ∈ beginningWith d, ∀ c ∈ spelling t,
          Ordinary c := by decide
      exact .inl ⟨_, htaken.split, htable d hd hslash _ htaken.mem⟩
  · rw [lexOperator_unknown hc]
    refine .inl ⟨[c], by rw [hrest, hr]; rfl, ?_⟩
    intro d hd
    rw [List.mem_singleton.mp hd]
    refine ⟨?_, hstring, hchar⟩
    rintro rfl
    exact hc (by decide)

lemma operator {r : List Byte} (hr : l.rest = c :: r) (hsolid : Solid l.rest)
    (hstring : c ≠ '"'.toUInt8) (hchar : c ≠ '\''.toUInt8) :
    Reaches plain l.rest (lexOperator c l.advance).2.rest := by
  rcases operator_takes hr hsolid hstring hchar with hord | ⟨rfl, hbehind, w, hw, hord⟩
  · exact hord.reaches
  · rw [hr]
    refine cons (fun h => by cases h) ?_
    rw [next_slash hbehind]
    conv_lhs => rw [hw]
    exact ordinary hord

lemma quoted (hquote : quote = '"'.toUInt8 ∨ quote = '\''.toUInt8) (type : TokenType)
    (hr : l.rest = quote :: r) : Reaches plain l.rest (l.lexQuoted quote type).2.rest := by
  have hrest : l.advance.rest = r := by rw [advance_rest, hr]; rfl
  have hslash : quote ≠ '/'.toUInt8 ∧ quote ≠ 0 := by
    rcases hquote with rfl | rfl <;> decide
  have hnext : plain.next quote r = literal quote := by
    simp only [Mode.next, hslash.1, false_and, if_false]
    exact if_pos hquote
  rw [hr]
  refine cons (fun h => by cases h) ?_
  rw [hnext, ← hrest]
  exact quotedLoop hslash.2 _ (remaining_eq l.advance).ge

/-- A token in code leads from code to code, unless it is a literal that does not end. -/
lemma token (hlt : l.cursor < l.source.length) (hsolid : Solid l.rest) :
    Reaches plain l.rest l.lexToken.2.rest := by
  obtain ⟨c, r, hr⟩ := rest_cons hlt
  have hpeek : l.peek = c := by rw [peek_eq, hr]; rfl
  simp only [lexToken, hpeek]
  split_ifs with hident hdigit hstring hchar
  · exact (TakesOrdinary.advanceWhile (p := isIdentBody)).reaches
  · exact (TakesOrdinary.lexDigits.trans .advanceWhile).reaches
  · exact quoted (.inl rfl) LString (hstring ▸ hr)
  · exact quoted (.inr rfl) LChar (hchar ▸ hr)
  · exact operator hr hsolid hstring hchar

end Reaches

/-! ## The tokens of a source -/

variable {src : List Byte} {n : ℕ}

lemma skip_afterCalls : (afterCalls src n).skipWhitespaceAndComments.rest = ahead src n := by
  by_cases heof : (tokenAt src n).type = Eof
  · rw [skip_of_eof heof, ahead, tokenAt_eq_of_eof heof]
    exact List.drop_length.symm
  · rcases nextToken_lexToken heof with ⟨hlt, hsource, htok, -, -⟩
    rw [ahead, htok, (scanned_token hlt).offset, rest, hsource]

/-- Token number `n` starts in code, or is `Eof`; no `0` in front of it lies inside. -/
def StartsOutside (src : List Byte) (n : ℕ) : Prop :=
  ∃ w m', src = w ++ ahead src n ∧ w.length = (tokenAt src n).globalOffset ∧
    Passes (ahead src n) plain w m' ∧ (m' = plain ∨ ahead src n = [])

/-- No token starts at a `0` inside. -/
def NoNulStart (src : List Byte) : Prop :=
  ∀ n, Inside src (tokenAt src n).globalOffset → src[(tokenAt src n).globalOffset]? ≠ some 0

lemma startsOutside_of_reaches (hfree : NoNulStart src)
    (h : Reaches plain src (afterCalls src n).rest) : StartsOutside src n := by
  have hstart : Reaches plain src (ahead src n) := by
    rw [← skip_afterCalls]
    exact h.trans (.skip _) Reaches.skip_stay
  rcases hstart with ⟨w, m', hsplit, hpass, hstands⟩
  have hlength : w.length = (tokenAt src n).globalOffset := by
    have hlen := congrArg List.length hsplit
    have hinside := length_spanAt src n
    have hahead : (ahead src n).length = src.length - (tokenAt src n).globalOffset :=
      List.length_drop
    rw [List.length_append] at hlen
    omega
  refine ⟨w, m', hsplit, hlength, hpass, ?_⟩
  rcases hstands with hplain | hend | ⟨r, hr, hinside⟩
  · exact .inl hplain
  · exact .inr hend
  · rw [hr] at hsplit hpass
    refine absurd ?_ (hfree n ⟨w, 0, r, hsplit, hlength, hpass.walk_eq ▸ hinside⟩)
    rw [← hlength]
    conv_lhs => rw [hsplit]
    rw [List.getElem?_append_right le_rfl, Nat.sub_self]
    rfl

lemma reaches_succ (h : StartsOutside src n) : Reaches plain src (afterCalls src (n + 1)).rest := by
  rcases h with ⟨w, m', hsplit, hlength, hpass, hstands⟩
  by_cases heof : (tokenAt src n).type = Eof
  · have hskip := skip_of_eof heof
    have hnil : ahead src n = [] := by rw [← skip_afterCalls, hskip]
    have hrest : (afterCalls src (n + 1)).rest = [] := by
      simp only [afterCalls, nextToken]
      rw [if_pos (List.drop_eq_nil_iff.mp hskip)]
      exact hskip
    rw [hrest]
    rw [hnil] at hsplit hpass
    exact ⟨w, m', hsplit, hpass, .inr (.inl rfl)⟩
  · rcases nextToken_lexToken heof with ⟨hlt, hsource, htok, hrest, -⟩
    have htoken := Reaches.token hlt (solid_skip _)
    rw [← hrest, skip_afterCalls] at htoken
    rcases hstands with rfl | hnil
    · rcases htoken with ⟨v, m'', hsplit', hpass', hstands'⟩
      rw [hsplit'] at hpass hsplit
      exact ⟨w ++ v, m'', by rw [List.append_assoc]; exact hsplit, hpass.append hpass', hstands'⟩
    · rw [← skip_afterCalls] at hnil
      rw [rest, List.drop_eq_nil_iff] at hnil
      omega

lemma startsOutside (hfree : NoNulStart src) (n : ℕ) : StartsOutside src n := by
  refine startsOutside_of_reaches hfree ?_
  induction n with
  | zero => exact .refl
  | succ n ih => exact reaches_succ (startsOutside_of_reaches hfree ih)

/-- **Comments and literals are opaque** in the sources that have no byte `0` inside one; sources have
fewer than `2 ^ 32` bytes. -/
theorem tokens_start_outside (src : List Byte) :
    (∀ n, ¬ Inside src (tokenAt src n).globalOffset) ↔ ∀ i, Inside src i → src[i]? ≠ some 0 := by
  constructor
  · intro houtside i hinside hzero
    obtain ⟨n, -, heof⟩ := exists_eof src
    have hnil : ahead src n = [] := by rw [← skip_afterCalls, skip_of_eof heof]
    rcases startsOutside (fun m hm => absurd hm (houtside m)) n with ⟨w, m', hsplit, -, hpass, -⟩
    rcases hinside with ⟨u, c, r, hsrc, rfl, hin⟩
    rw [hnil, List.append_nil] at hsplit
    rw [hnil] at hpass
    refine hpass.quiet (hsplit ▸ hsrc) (by simpa using hin) ?_
    rw [hsrc] at hzero
    simpa using hzero
  · intro hnone n hinside
    rcases startsOutside (fun m hm => hnone _ hm) n with ⟨w, m', hsplit, hlength, hpass, hstands⟩
    rcases hinside with ⟨u, c, r, hsrc, hlen, hin⟩
    obtain ⟨rfl, hahead⟩ := List.append_inj (hsrc.symm.trans hsplit) (hlen.trans hlength.symm)
    rcases hstands with rfl | hnil
    · rw [hahead, hpass.walk_eq] at hin
      cases hin
    · rw [hnil] at hahead
      cases hahead

/-- `//`, a byte `0` and a letter. -/
def nulComment : List Byte := bytes "//" ++ [0, 'x'.toUInt8]

/-- The `0` ends the comment for the lexer, and the letter behind it is an identifier. -/
theorem nulComment_word :
    ¬ (∀ n, ¬ Inside nulComment (tokenAt nulComment n).globalOffset) ∧
      (tokenAt nulComment 1).type = Ident := by
  have hoffset : (tokenAt nulComment 1).globalOffset = (bytes "//" ++ [0]).length := by
    decide +kernel
  refine ⟨fun hall => hall 1 ?_, by decide +kernel⟩
  exact ⟨bytes "//" ++ [0], 'x'.toUInt8, [], rfl, hoffset.symm, rfl⟩

end Lexer

end LogicCompiler
