import LogicCompiler.Lexer.Relexing
import LogicCompiler.Library.Munch

/-!
# Operators are lexed by maximal munch

`TT_STRMAP` spells the operators and the punctuation; the switch of `nextToken` decides between
them by at most two more characters.  `nextToken_munches` compares the two: at a character that
begins a spelling, the token is the operator with the longest spelling that the text begins with.

The table has an entry `//` that no token ever has, since `skipWhitespaceAndComments` takes these
two bytes for a comment.  The switch would return it all the same (`takes_operator`).
-/

namespace LogicCompiler

open TokenType Munch

namespace Lexer

/-- The entry of `TT_STRMAP`, as bytes. -/
def spelling (t : TokenType) : List Byte := bytes (ttStrmap t)

/-- The operators and the punctuation of the enumeration. -/
def IsOperator (t : TokenType) : Prop := Plus.code ≤ t.code ∧ t.code ≤ Comma.code

instance : DecidablePred IsOperator := fun t =>
  inferInstanceAs (Decidable (Plus.code ≤ t.code ∧ t.code ≤ Comma.code))

/-- The operators whose spelling begins with `c`, those with more characters first. -/
def beginningWith (c : Char) : List TokenType :=
  match c with
  | '+' => [PPlus, PlusEquals, Plus]
  | '-' => [MMinus, MinusEquals, Arrow, Minus]
  | '*' => [StarEquals, TokenType.Star]
  | '/' => [SlashEquals, SSlash, Slash]
  | '%' => [PercEquals, Perc]
  | '&' => [AAmp, AmpEquals, Amp]
  | '|' => [BBar, BarEquals, Bar]
  | '^' => [UpEquals, Up]
  | '~' => [TildeEquals, Tilde]
  | '!' => [NEquals, Excl]
  | '=' => [EEquals, Equals]
  | '<' => [LLeEquals, LLesser, LeEquals, Lesser]
  | '>' => [GGrEquals, GGreater, GrEquals, Greater]
  | ':' => [CColon, Colon]
  | '.' => [Dots, Dot]
  | '?' => [Question]
  | '(' => [Left]
  | ')' => [Right]
  | '[' => [SqLeft]
  | ']' => [SqRight]
  | '{' => [BrLeft]
  | '}' => [BrRight]
  | ';' => [Semi]
  | ',' => [Comma]
  | _ => []

/-- The list is complete, and every operator is in the list of its first character. -/
lemma mem_beginningWith {t : TokenType} (ht : IsOperator t) :
    ∃ c ∈ operatorChars, t ∈ beginningWith c ∧ (spelling t).head? = some c.toUInt8 := by
  revert ht
  cases t <;> decide

lemma isOperator_of_mem {c : Char} (hc : c ∈ operatorChars) :
    ∀ t ∈ beginningWith c, IsOperator t := by
  revert c
  decide

lemma operatorChars_injective {c d : Char} (hc : c ∈ operatorChars) (hd : d ∈ operatorChars)
    (h : c.toUInt8 = d.toUInt8) : c = d := by
  have htable : ∀ c ∈ operatorChars, ∀ d ∈ operatorChars, c.toUInt8 = d.toUInt8 → c = d := by
    decide
  exact htable c hc d hd h

/-- What the switch of `nextToken` has found in the text `s`. -/
abbrev Takes (cands : List TokenType) (s : List Byte) (out : TokenType × Lexer) : Prop :=
  Longest spelling cands s out.1 out.2.rest

variable {l : Lexer} {cands : List TokenType} {s p : List Byte} {hit : TokenType}
  {miss : TokenType × Lexer} {d : Char}

lemma rest_of_matches (hd : d.toUInt8 ≠ 0) (h : l.matches? d = true) :
    l.rest = d.toUInt8 :: l.advance.rest := by
  rw [matches_eq hd, beq_iff_eq, peek_eq] at h
  rw [advance_rest]
  cases hr : l.rest with
  | nil =>
      rw [hr] at h
      exact absurd h.symm hd
  | cons c r =>
      rw [hr] at h
      rw [List.tail_cons, ← h]
      rfl

lemma head_of_not_matches (hd : d.toUInt8 ≠ 0) (h : l.matches? d = false) :
    l.rest.head? ≠ some d.toUInt8 := by
  intro hhead
  rcases List.head?_eq_some_iff.mp hhead with ⟨r, hr⟩
  rw [matches_eq hd, peek_eq, hr] at h
  simp at h

/-- `if (match(d)) type = hit; else …` behind `p`, where no candidate has two more characters. -/
lemma takes_matchOr (hs : s = p ++ l.rest) (hspell : spelling hit = p ++ [d.toUInt8])
    (hle : ∀ u ∈ cands, (spelling u).length ≤ p.length + 1) (hmiss : Takes cands s miss)
    (hd : d.toUInt8 ≠ 0 := by decide) : Takes (hit :: cands) s (l.matchOr d hit miss) := by
  rw [matchOr]
  split_ifs with hmatch
  · refine .of_le List.mem_cons_self ?_ ?_
    · rw [hs, rest_of_matches hd hmatch, hspell, List.append_assoc]
      rfl
    · intro u hu
      rw [hspell, List.length_append]
      rcases List.mem_cons.mp hu with rfl | hu
      · rw [hspell, List.length_append]
      · exact hle u hu
  · refine hmiss.cons (not_prefix_of_head hspell hs ?_)
    exact head_of_not_matches hd (Bool.eq_false_iff.mpr hmatch)

/-- The characters that may be doubled in front of a `=`. -/
lemma takes_doubled {one oneEq two twoEq : TokenType} (hd : d.toUInt8 ≠ 0)
    (hs : s = [d.toUInt8] ++ l.rest) (hone : spelling one = [d.toUInt8])
    (honeEq : spelling oneEq = [d.toUInt8] ++ ['='.toUInt8])
    (htwo : spelling two = [d.toUInt8] ++ [d.toUInt8])
    (htwoEq : spelling twoEq = [d.toUInt8, d.toUInt8] ++ ['='.toUInt8]) :
    Takes [twoEq, two, oneEq, one] s
      (if l.matches? d then l.advance.matchOr '=' twoEq (two, l.advance)
        else l.matchOr '=' oneEq (one, l)) := by
  split_ifs with hmatch
  · have hs' : s = [d.toUInt8, d.toUInt8] ++ l.advance.rest := by
      rw [hs, rest_of_matches hd hmatch]
      rfl
    have htaken : Takes [twoEq, two] s (l.advance.matchOr '=' twoEq (two, l.advance)) := by
      refine takes_matchOr hs' htwoEq ?_ (.single (by rw [htwo]; exact hs'))
      intro u hu
      rw [List.mem_singleton.mp hu, htwo]
      exact Nat.le_succ _
    have hlong : 2 ≤ (spelling (l.advance.matchOr '=' twoEq (two, l.advance)).1).length := by
      rcases List.mem_pair.mp htaken.mem with h | h <;> rw [h]
      · rw [htwoEq]
        exact Nat.le_succ 2
      · rw [htwo]
        exact le_rfl
    refine htaken.append_of_le [oneEq, one] ?_
    intro u hu
    rcases List.mem_pair.mp hu with rfl | rfl
    · rw [honeEq]
      exact hlong
    · rw [hone]
      exact (Nat.le_succ 1).trans hlong
  · have hhead := head_of_not_matches hd (Bool.eq_false_iff.mpr hmatch)
    have htaken : Takes [oneEq, one] s (l.matchOr '=' oneEq (one, l)) := by
      refine takes_matchOr hs honeEq ?_ (.single (by rw [hone]; exact hs))
      intro u hu
      rw [List.mem_singleton.mp hu, hone]
      exact Nat.le_succ _
    exact (htaken.cons (not_prefix_of_head htwo hs hhead)).cons
      (not_prefix_of_head (p := [d.toUInt8]) htwoEq hs hhead)

lemma takes_dots (hs : s = ['.'.toUInt8] ++ l.rest) :
    Takes [Dots, Dot] s (lexOperator '.'.toUInt8 l) := by
  by_cases hdots : TwoDots l.rest
  · rw [lexOperator_dots hdots]
    refine .of_le (t := Dots) List.mem_cons_self ?_ (by decide)
    rcases hdots with ⟨r, hr⟩
    rw [hs, show spelling Dots = ['.'.toUInt8, '.'.toUInt8, '.'.toUInt8] from rfl,
      advance_rest, advance_rest, hr]
    rfl
  · rw [lexOperator_dot hdots]
    refine Longest.cons (.single (t := Dot) hs) ?_
    rintro ⟨r, hr⟩
    rw [hs] at hr
    exact hdots ⟨r, (List.cons.inj hr).2.symm⟩

/-- **The switch of `nextToken` munches maximally** among the operators that begin with its
character. -/
lemma takes_operator {c : Char} (hc : c ∈ operatorChars) (hs : s = [c.toUInt8] ++ l.rest) :
    Takes (beginningWith c) s (lexOperator c.toUInt8 l) := by
  simp only [operatorChars, List.mem_cons, List.not_mem_nil, or_false] at hc
  rcases hc with rfl | rfl | rfl | rfl | rfl | rfl | rfl | rfl | rfl | rfl | rfl | rfl | rfl
    | rfl | rfl | hc
  · exact takes_matchOr hs rfl (by decide) (takes_matchOr hs rfl (by decide) (.single hs))
  · exact takes_matchOr hs rfl (by decide)
      (takes_matchOr hs rfl (by decide) (takes_matchOr hs rfl (by decide) (.single hs)))
  · exact takes_matchOr hs rfl (by decide) (.single hs)
  · exact takes_matchOr hs rfl (by decide) (takes_matchOr hs rfl (by decide) (.single hs))
  · exact takes_matchOr hs rfl (by decide) (.single hs)
  · exact takes_matchOr hs rfl (by decide) (takes_matchOr hs rfl (by decide) (.single hs))
  · exact takes_matchOr hs rfl (by decide) (takes_matchOr hs rfl (by decide) (.single hs))
  · exact takes_matchOr hs rfl (by decide) (.single hs)
  · exact takes_matchOr hs rfl (by decide) (.single hs)
  · exact takes_matchOr hs rfl (by decide) (.single hs)
  · exact takes_matchOr hs rfl (by decide) (.single hs)
  · exact takes_doubled (by decide) hs rfl rfl rfl rfl
  · exact takes_doubled (by decide) hs rfl rfl rfl rfl
  · exact takes_matchOr hs rfl (by decide) (.single hs)
  · exact takes_dots hs
  · rcases hc with rfl | rfl | rfl | rfl | rfl | rfl | rfl | rfl | rfl <;> exact .single hs

/-! ## The tokens of a source -/

/-- The text in front of token number `n`. -/
def ahead (src : List Byte) (n : ℕ) : List Byte := src.drop (tokenAt src n).globalOffset

/-- The text goes on with the first character of an operator. -/
def BeginsOperator (s : List Byte) : Prop := ∃ t, IsOperator t ∧ (spelling t).head? = s.head?

/-- The operator with the longest spelling that the text begins with. -/
structure LongestOperator (s : List Byte) (t : TokenType) : Prop where
  isOperator : IsOperator t
  starts : spelling t <+: s
  longest : ∀ u, IsOperator u → spelling u <+: s → (spelling u).length ≤ (spelling t).length

variable {src : List Byte} {n : ℕ} {r : List Byte} {c : Char}

/-- An operator that the text begins with is in the list of the first character. -/
lemma mem_beginningWith_of_spells (hc : c ∈ operatorChars) {u : TokenType} (hu : IsOperator u)
    (hspells : spelling u <+: c.toUInt8 :: r) : u ∈ beginningWith c := by
  rcases mem_beginningWith hu with ⟨d, hd, hmem, hhead⟩
  have hsame : some d.toUInt8 = some c.toUInt8 := by
    rcases List.head?_eq_some_iff.mp hhead with ⟨v, hv⟩
    rcases hspells with ⟨t, ht⟩
    rw [hv, List.cons_append] at ht
    rw [(List.cons.inj ht).1]
  rwa [← operatorChars_injective hd hc (Option.some.inj hsame)]

lemma Takes.longestOperator {out : TokenType × Lexer} (hc : c ∈ operatorChars)
    (h : Takes (beginningWith c) (c.toUInt8 :: r) out) :
    LongestOperator (c.toUInt8 :: r) out.1 where
  isOperator := isOperator_of_mem hc _ h.mem
  starts := ⟨out.2.rest, h.split.symm⟩
  longest u hu hspells := h.longest u (mem_beginningWith_of_spells hc hu hspells) hspells

/-- No operator begins with a character of another token. -/
lemma lexToken_operator (hc : c ∈ operatorChars) (hl : l.peek = c.toUInt8) :
    l.lexToken = ((lexOperator c.toUInt8 l.advance).2.tokenFrom l.cursor
      (lexOperator c.toUInt8 l.advance).1, (lexOperator c.toUInt8 l.advance).2) := by
  have htable : ∀ c ∈ operatorChars, isIdentStart c.toUInt8 = false ∧ isDigit c.toUInt8 = false ∧
      c.toUInt8 ≠ '"'.toUInt8 ∧ c.toUInt8 ≠ '\''.toUInt8 := by decide
  obtain ⟨hident, hdigit, hstring, hchar⟩ := htable c hc
  simp only [lexToken, hl, hident, hdigit, hstring, hchar, if_false, Bool.false_eq_true]

/-- At a character that begins an operator, the token is the longest one. -/
lemma munches_of_begins (h : BeginsOperator (ahead src n)) :
    spelling (tokenAt src n).type = (spanAt src n).2 ∧
      LongestOperator (ahead src n) (tokenAt src n).type := by
  rcases h with ⟨t, ht, hhead⟩
  rcases mem_beginningWith ht with ⟨c, hc, -, hspell⟩
  rw [hspell] at hhead
  rcases List.head?_eq_some_iff.mp hhead.symm with ⟨r, hr⟩
  have hne : (tokenAt src n).type ≠ Eof := by
    intro heof
    rw [ahead, tokenAt_eq_of_eof heof] at hr
    rw [show (eofToken src).globalOffset = src.length from rfl, List.drop_length] at hr
    cases hr
  rcases nextToken_lexToken hne with ⟨hlt, hsource, htok, hrest, -⟩
  rcases spanAt_append hne with ⟨hsplit, -⟩
  set l := (afterCalls src n).skipWhitespaceAndComments
  have hahead : l.rest = c.toUInt8 :: r := by
    rw [← hr, ahead, htok, (scanned_token hlt).offset, rest, hsource]
  have htoken := lexToken_operator hc (l := l) (by rw [peek_eq, hahead]; rfl)
  have htaken := takes_operator (l := l.advance) hc (s := c.toUInt8 :: r)
    (by rw [advance_rest, hahead]; rfl)
  have htype : (tokenAt src n).type = (lexOperator c.toUInt8 l.advance).1 := by
    rw [htok, htoken]
    rfl
  rw [hr, htype]
  refine ⟨?_, htaken.longestOperator hc⟩
  rw [htoken] at hrest
  rw [hahead, hrest] at hsplit
  exact List.append_cancel_right (htaken.split.symm.trans hsplit)

/-- **Operator lexing is maximal munch against the token table.** -/
theorem nextToken_munches (src : List Byte) (n : ℕ) :
    (BeginsOperator (ahead src n) →
      spelling (tokenAt src n).type = (spanAt src n).2 ∧
        LongestOperator (ahead src n) (tokenAt src n).type) ∧
    ((tokenAt src n).type = Unknown →
      ∀ t, IsOperator t → ¬ spelling t <+: ahead src n) := by
  refine ⟨munches_of_begins, ?_⟩
  rintro hunknown t ht ⟨r, hr⟩
  have hbegins : BeginsOperator (ahead src n) := by
    refine ⟨t, ht, ?_⟩
    rcases mem_beginningWith ht with ⟨c, -, -, hhead⟩
    rw [← hr, List.head?_append, hhead]
    rfl
  have hoperator := (munches_of_begins hbegins).2.isOperator
  rw [hunknown] at hoperator
  exact absurd hoperator (by decide)

end Lexer

end LogicCompiler
