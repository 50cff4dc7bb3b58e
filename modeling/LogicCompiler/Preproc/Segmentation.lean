import LogicCompiler.Preproc.Halting
import LogicCompiler.Preproc.Painting

/-!
# Two scanners, one segmentation

The main loop of `process` finds comments and literals byte by byte, the lexer finds them between its
tokens.  On a text without a byte `0`, and without a `#` outside comments and literals, both cut the
text into pieces (`lexer_cutting`, `process_cutting`), so that they take the same bytes as comments and
the same bytes as literals.

A token has its length in sixteen bits, so that the token of a literal of `2 ^ 16` bytes or more does not
reach to the end of it (`same_segmentation_iff`).
-/

namespace LogicCompiler

open TokenType

namespace Lexer

open Mode Preprocessor

variable {k : Kind} {c quote : Byte} {r s t body src : List Byte} {l l' : Lexer} {n i : ℕ}

/-! ## What the lexer takes -/

/-- One iteration of the loop of `skipWhitespaceAndComments`. -/
def skipTurn (l : Lexer) : Option Lexer :=
  match Char.ofNat l.peek.toNat with
  | ' ' | '\t' | '\r' | '\n' => some l.advance
  | '/' =>
      if l.peek 1 = '/'.toUInt8 then
        some (l.advance.advance.advanceWhile fun c => c != 0 && c != '\n'.toUInt8)
      else if l.peek 1 = '*'.toUInt8 then some l.advance.advance.skipBlockComment
      else none
  | _ => none

lemma skipLoop_turn (n : ℕ) (l : Lexer) :
    skipWhitespaceAndComments.go (n + 1) l =
      ((skipTurn l).map (skipWhitespaceAndComments.go n)).getD l := by
  rw [skipWhitespaceAndComments.go, skipTurn]
  generalize Char.ofNat l.peek.toNat = d
  split
  · rfl
  · rfl
  · rfl
  · rfl
  · split_ifs
    · rfl
    · rfl
    · rfl
  · simp

/-- What the tokens of this type belong to. -/
def tokenKind (type : TokenType) : Kind := if type = LString ∨ type = LChar then .literal else .code

/-- The lexer takes the bytes of `src` from `start` to `stop` at once, as this kind: in an iteration of
the loop between the tokens, or as a token. -/
inductive LexerTakes (src : List Byte) : ℕ → ℕ → Kind → Prop
  | white {n : ℕ} {l l' : Lexer}
      (hhead : Relation.ReflTransGen (fun a b => skipTurn a = some b) (afterCalls src n) l)
      (hturn : skipTurn l = some l') (hslash : l.peek ≠ '/'.toUInt8) :
      LexerTakes src l.cursor l'.cursor .code
  | comment {n : ℕ} {l l' : Lexer}
      (hhead : Relation.ReflTransGen (fun a b => skipTurn a = some b) (afterCalls src n) l)
      (hturn : skipTurn l = some l') (hslash : l.peek = '/'.toUInt8) :
      LexerTakes src l.cursor l'.cursor .comment
  | token {n : ℕ} (h : (tokenAt src n).type ≠ Eof) :
      LexerTakes src (tokenAt src n).globalOffset (afterCalls src (n + 1)).cursor
        (tokenKind (tokenAt src n).type)

/-- From `l` to `l'` a piece has been taken. -/
structure TakesPiece (k : Kind) (l l' : Lexer) : Prop where
  onward : Onward l l'
  piece : ∃ s, s ≠ [] ∧ l.rest = s ++ l'.rest ∧ Stretch k s l'.rest

/-- Where the piece ends. -/
lemma TakesPiece.exists_piece (h : TakesPiece k l l') :
    ∃ s, s ≠ [] ∧ l.rest = s ++ l'.rest ∧ Stretch k s l'.rest ∧ l'.cursor = l.cursor + s.length := by
  rcases h.piece with ⟨s, hne, hsplit, hpiece⟩
  refine ⟨s, hne, hsplit, hpiece, ?_⟩
  have hlen := congrArg List.length hsplit
  have hpos := List.length_pos_iff.mpr hne
  have hsource := h.onward.source
  simp only [rest, List.length_append, List.length_drop, hsource] at hlen
  have hbound := h.onward.bound (by omega)
  omega

/-! ### Between tokens -/

lemma takes_white {d : Char} (hd : Ordinary d.toUInt8 ∧ d.toUInt8 ≠ 0)
    (h : Char.ofNat l.peek.toNat = d) : TakesPiece .code l l.advance := by
  have hpeek := byte_eq_of_char h
  rw [peek_eq] at hpeek
  cases hr : l.rest with
  | nil =>
      rw [hr] at hpeek
      exact absurd hpeek.symm hd.2
  | cons c r =>
      rw [hr] at hpeek
      obtain rfl : c = d.toUInt8 := hpeek
      refine ⟨(Onward.refl l).advance, [d.toUInt8], List.cons_ne_nil _ _, ?_, .ordinary ?_⟩
      · rw [advance_rest, hr]
        rfl
      · intro c hc
        rw [List.mem_singleton.mp hc]
        exact hd.1

lemma turn_piece (hnul : 0 ∉ l.rest) (hturn : skipTurn l = some l') :
    TakesPiece (if l.peek = '/'.toUInt8 then .comment else .code) l l' := by
  have hwhite {d : Char} (hd : (Ordinary d.toUInt8 ∧ d.toUInt8 ≠ 0) ∧ d.toUInt8 ≠ '/'.toUInt8)
      (h : Char.ofNat l.peek.toNat = d) (heq : some l.advance = some l') :
      TakesPiece (if l.peek = '/'.toUInt8 then .comment else .code) l l' := by
    cases heq
    rw [byte_eq_of_char h, if_neg hd.2]
    exact takes_white hd.1 h
  rw [skipTurn] at hturn
  split at hturn
  · next h => exact hwhite (by decide) h hturn
  · next h => exact hwhite (by decide) h hturn
  · next h => exact hwhite (by decide) h hturn
  · next h => exact hwhite (by decide) h hturn
  · next h =>
      have hslash := byte_eq_of_char h
      rw [if_pos hslash]
      have honward := (Onward.refl l).advance.advance
      split_ifs at hturn with hline hblock
      · cases hturn
        obtain ⟨r, hr⟩ := rest_eq_of_peek (by decide) (by decide) hslash hline
        have hr2 : l.advance.advance.rest = r := by rw [advance_rest, advance_rest, hr]; rfl
        have hdrop := rest_advanceWhile (p := fun c => c != 0 && c != '\n'.toUInt8) (by decide)
          l.advance.advance
        have hsplit := lineComment_split (r := r) fun h => hnul (by simp [hr, h])
        rw [hr2] at hdrop
        refine ⟨honward.advanceWhile _, _, ?_, ?_, .lineComment hsplit.1 ?_⟩
        · exact List.cons_ne_nil _ _
        · rw [hdrop, hr, List.append_assoc, List.takeWhile_append_dropWhile]
          rfl
        · rw [hdrop]
          intro c hc
          rcases hsplit.2 with hnil | hhead
          · rw [hnil] at hc
            cases hc
          · exact Option.some.inj (hc.symm.trans hhead)
      · cases hturn
        obtain ⟨r, hr⟩ := rest_eq_of_peek (by decide) (by decide) hslash hblock
        have hr2 : l.advance.advance.rest = r := by rw [advance_rest, advance_rest, hr]; rfl
        have hnul2 : 0 ∉ l.advance.advance.rest := by
          rw [hr2]
          exact fun h => hnul (by simp [hr, h])
        rcases rest_blockLoop _ (remaining_eq l.advance.advance).ge hnul2 with
          ⟨body, hbody, hsplit⟩ | ⟨hopen, hend⟩
        · refine ⟨honward.skipBlockComment, _, ?_, ?_, .blockComment hbody⟩
          · exact List.cons_ne_nil _ _
          · rw [hr, ← hr2, hsplit, skipBlockComment]
            simp [bytes]
        · have hnil : l.advance.advance.skipBlockComment.rest = [] := hend
          refine ⟨honward.skipBlockComment, bytes "/*" ++ r, ?_, ?_, ?_⟩
          · exact List.cons_ne_nil _ _
          · rw [hnil, hr, List.append_nil]
            rfl
          · rw [hnil, ← hr2]
            exact .openBlock hopen
  · cases hturn

/-! ### Tokens -/

/-- The loop of a literal goes over the inside of it. -/
lemma quotedLoop_body (hbody : Quoted quote body) : ∀ {n : ℕ} {l : Lexer}, l.rest = body ++ t →
    0 ∉ l.rest → l.rest.length ≤ n → ∃ n' l', lexQuoted.go quote n l = lexQuoted.go quote n' l' ∧
      l'.rest = t ∧ t.length ≤ n' := by
  have hstep {n : ℕ} {l : Lexer} {c : Byte} {s : List Byte} (hr : l.rest = c :: s) (hnul : 0 ∉ l.rest)
      (hn : l.rest.length ≤ n) : ∃ m, n = m + 1 ∧ s.length ≤ m ∧ l.peek = c ∧ c ≠ 0 ∧
        l.advance.rest = s ∧ 0 ∉ s := by
    rw [hr] at hnul hn
    rw [List.mem_cons, not_or] at hnul
    rw [List.length_cons] at hn
    refine ⟨n - 1, by omega, by omega, ?_, Ne.symm hnul.1, ?_, hnul.2⟩
    · rw [peek_eq, hr]
      rfl
    · rw [advance_rest, hr]
      rfl
  induction hbody with
  | nil =>
      intro n l hr hnul hn
      rw [List.nil_append] at hr
      exact ⟨n, l, rfl, hr, hr ▸ hn⟩
  | @plain c body hesc hquote _ ih =>
      intro n l hr hnul hn
      rcases hstep hr hnul hn with ⟨m, rfl, hm, hpeek, hc, hrest, hnul'⟩
      rw [lexQuoted.go]
      simp only [hpeek, if_neg hc, if_neg hesc, if_neg hquote]
      exact ih hrest (hrest ▸ hnul') (hrest ▸ hm)
  | @escape c body _ ih =>
      intro n l hr hnul hn
      rcases hstep hr hnul hn with ⟨m, rfl, hm, hpeek, hzero, hrest, hnul'⟩
      rcases hstep hrest (hrest ▸ hnul') (hrest ▸ hm) with
        ⟨m', rfl, hm', hpeek', hc, hrest', hnul''⟩
      rw [lexQuoted.go]
      simp only [hpeek, hpeek', if_neg hzero, if_true, if_pos hc]
      exact ih hrest' (hrest' ▸ hnul'') (by rw [hrest']; omega)

/-- `lexString` and `lexChar` take a literal. -/
lemma quoted_literal {type : TokenType} (hquote : IsQuote quote) (hr : l.rest = quote :: r)
    (hnul : 0 ∉ l.rest) :
    ∃ s, l.rest = s ++ (l.lexQuoted quote type).2.rest ∧ Literal s (l.lexQuoted quote type).2.rest := by
  have hrest : l.advance.rest = r := by rw [advance_rest, hr]; rfl
  have hnul' : 0 ∉ l.advance.rest := by
    rw [hrest]
    exact fun h => hnul (by simp [hr, h])
  have hle := (remaining_eq l.advance).ge
  rw [hr]
  show ∃ s, quote :: r = s ++ (lexQuoted.go quote l.advance.remaining l.advance).rest ∧
    Literal s (lexQuoted.go quote l.advance.remaining l.advance).rest
  have hpeek {l' : Lexer} {c : Byte} {s : List Byte} (hr' : l'.rest = c :: s) : l'.peek = c := by
    rw [peek_eq, hr']
    rfl
  have hzero {l' : Lexer} (hr' : l'.rest = []) : l'.peek = 0 := by
    rw [peek_eq, hr']
    rfl
  rcases exists_quoted quote r with ⟨body, rest', rfl, hbody⟩ | hbody | ⟨body, rfl, hbody⟩
  · rcases quotedLoop_body hbody hrest hnul' hle with ⟨n, l', hgo, hr', hn⟩
    have hother : quote ≠ 0 ∧ quote ≠ '\\'.toUInt8 := by
      rcases hquote with rfl | rfl <;> decide
    have hstop : lexQuoted.go quote n l' = l'.advance := by
      rw [List.length_cons] at hn
      rcases Nat.exists_eq_add_of_le' hn with ⟨m, rfl⟩
      rw [← Nat.add_assoc, lexQuoted.go]
      simp only [hpeek hr', if_neg hother.1, if_neg hother.2, if_true]
    rw [hgo, hstop, advance_rest, hr']
    refine ⟨quote :: body ++ [quote], ?_, .closed _ hquote hbody⟩
    simp
  · rw [← List.append_nil r] at hrest
    rcases quotedLoop_body hbody hrest hnul' hle with ⟨n, l', hgo, hr', -⟩
    rw [hgo, Reaches.quotedLoop_zero n (hzero hr'), hr']
    exact ⟨quote :: r, by simp, .cut hquote hbody⟩
  · rcases quotedLoop_body hbody hrest hnul' hle with ⟨n, l', hgo, hr', hn⟩
    have hend : l'.advance.rest = [] := by
      rw [advance_rest, hr']
      rfl
    have hstop : lexQuoted.go quote n l' = l'.advance := by
      rcases Nat.exists_eq_add_of_le' hn with ⟨m, rfl⟩
      rw [List.length_singleton, lexQuoted.go]
      simp only [hpeek hr', hzero hend, ne_eq, not_true_eq_false, if_true, if_false]
      rw [if_neg (by decide), Reaches.quotedLoop_zero m (hzero hend)]
    rw [hgo, hstop, hend]
    exact ⟨quote :: body ++ ['\\'.toUInt8], by simp, .cutEscape hquote hbody⟩

/-- Only literals have the types of literals. -/
lemma stringMap_code (w : List Byte) : tokenKind (stringMap w) = .code := by
  unfold stringMap
  split
  · next type h =>
      have hcode : ∀ t ∈ stringMapCases, tokenKind t = .code := by decide
      split_ifs
      · exact hcode _ (List.mem_of_find?_eq_some h)
      · rfl
  · rfl

lemma lexOperator_code (c : Byte) (l : Lexer) : tokenKind (lexOperator c l).1 = .code := by
  unfold lexOperator matchOr
  split <;> (try split_ifs) <;> rfl

/-- A token is a piece. -/
lemma token_piece (hlt : l.cursor < l.source.length) (hnul : 0 ∉ l.rest) (hsolid : Solid l.rest) :
    ∃ s, l.rest = s ++ l.lexToken.2.rest ∧
      Stretch (tokenKind l.lexToken.1.type) s l.lexToken.2.rest ∧
        (tokenKind l.lexToken.1.type = .literal → Literal s l.lexToken.2.rest) := by
  obtain ⟨c, r, hr⟩ := rest_cons hlt
  have hpeek : l.peek = c := by rw [peek_eq, hr]; rfl
  have hord {l' : Lexer} (h : TakesOrdinary l l') {type : TokenType} (htype : tokenKind type = .code) :
      ∃ s, l.rest = s ++ l'.rest ∧ Stretch (tokenKind type) s l'.rest ∧
        (tokenKind type = .literal → Literal s l'.rest) := by
    rcases h with ⟨s, hsplit, hs⟩
    rw [htype]
    exact ⟨s, hsplit, .ordinary hs, fun h => by cases h⟩
  have hquoted {quote : Byte} {type : TokenType} (hquote : IsQuote quote) (hc : c = quote)
      (htype : tokenKind type = .literal) :
      ∃ s, l.rest = s ++ (l.lexQuoted quote type).2.rest ∧
        Stretch (tokenKind (l.lexQuoted quote type).1.type) s (l.lexQuoted quote type).2.rest ∧
          (tokenKind (l.lexQuoted quote type).1.type = .literal →
            Literal s (l.lexQuoted quote type).2.rest) := by
    obtain ⟨s, hsplit, hliteral⟩ : ∃ s, l.rest = s ++ (l.lexQuoted quote type).2.rest ∧
        Literal s (l.lexQuoted quote type).2.rest := quoted_literal hquote (hc ▸ hr) hnul
    have hkind : tokenKind (l.lexQuoted quote type).1.type = .literal := htype
    rw [hkind]
    exact ⟨s, hsplit, .literal hliteral, fun _ => hliteral⟩
  simp only [lexToken, hpeek]
  split_ifs with hident hdigit hstring hchar
  · refine hord (TakesOrdinary.advanceWhile (p := isIdentBody)) ?_
    simp only [lexIdentifierOrKeyword]
    split_ifs
    · rfl
    · exact stringMap_code _
  · refine hord (TakesOrdinary.lexDigits.trans .advanceWhile) ?_
    simp only [lexNumber, tokenFrom]
    split_ifs <;> rfl
  · exact hquoted (.inl rfl) hstring rfl
  · exact hquoted (.inr rfl) hchar rfl
  · have hcode : tokenKind (lexOperator c l.advance).1 = .code := lexOperator_code _ _
    rcases Reaches.operator_takes hr hsolid hstring hchar with htakes | ⟨rfl, hbehind, w, hw, hs⟩
    · exact hord htakes hcode
    · rw [hr]
      simp only [tokenFrom]
      rw [hcode]
      generalize (lexOperator '/'.toUInt8 l.advance).2.rest = t at hw
      rw [hw] at hbehind ⊢
      have hpaints := (Paints.slash hbehind).append (Paints.ordinary (r := t) hs)
      exact ⟨'/'.toUInt8 :: w, rfl, ⟨plain, hpaints, .inl rfl⟩, fun h => by cases h⟩

/-! ### The whole source -/

/-- The lexer stands in code, or at the end. -/
structure Stays (src : List Byte) (l : Lexer) : Prop where
  source : l.source = src
  cursor : l.cursor ≤ src.length
  inCode : InCode src (src.take l.cursor) l.rest

lemma Stays.step (h : Stays src l) (hpiece : TakesPiece k l l') :
    Stays src l' ∧ ∀ i, l.cursor ≤ i → i < l'.cursor → (kinds src)[i]? = some k := by
  rcases hpiece.exists_piece with ⟨s, hne, hsplit, hs, hcursor⟩
  have hin := h.inCode
  have hlen : (src.take l.cursor).length = l.cursor := by
    rw [List.length_take, Nat.min_eq_left h.cursor]
  rw [hsplit] at hin
  have hnext := hin.piece hne hs
  have hbound := hpiece.onward.bound (h.source ▸ h.cursor)
  rw [h.source] at hbound
  have htake : src.take l'.cursor = src.take l.cursor ++ s := by
    conv_lhs => rw [hnext.text]
    exact List.take_left' (by rw [List.length_append, hlen, hcursor])
  refine ⟨⟨hpiece.onward.source.trans h.source, hbound, htake ▸ hnext⟩, fun i hi hlt => ?_⟩
  exact hin.kinds hs (hlen.symm ▸ hi) (by rw [hlen, ← hcursor]; exact hlt)

lemma Stays.noNul (h : Stays src l) (hnul : 0 ∉ src) : 0 ∉ l.rest := fun hmem =>
  hnul (h.source ▸ List.mem_of_mem_drop hmem)

lemma Stays.turns (h : Stays src l) (hnul : 0 ∉ src)
    (hturns : Relation.ReflTransGen (fun a b => skipTurn a = some b) l l') : Stays src l' := by
  induction hturns with
  | refl => exact h
  | tail _ hturn ih => exact (ih.step (turn_piece (ih.noNul hnul) hturn)).1

lemma skipLoop_turns (n : ℕ) (l : Lexer) :
    Relation.ReflTransGen (fun a b => skipTurn a = some b) l (skipWhitespaceAndComments.go n l) := by
  induction n generalizing l with
  | zero => exact .refl
  | succ n ih =>
      rw [skipLoop_turn]
      cases hturn : skipTurn l with
      | none => exact .refl
      | some l' => exact .head hturn (ih l')

lemma skip_turns (l : Lexer) :
    Relation.ReflTransGen (fun a b => skipTurn a = some b) l l.skipWhitespaceAndComments :=
  skipLoop_turns _ l

/-- An iteration of the loop that takes a position which the loop takes. -/
lemma exists_turn (h : Relation.ReflTransGen (fun a b => skipTurn a = some b) l l')
    (hi : l.cursor ≤ i) (hlt : i < l'.cursor) :
    ∃ a b, Relation.ReflTransGen (fun a b => skipTurn a = some b) l a ∧ skipTurn a = some b ∧
      a.cursor ≤ i ∧ i < b.cursor := by
  induction h with
  | refl => omega
  | @tail a b h hturn ih =>
      by_cases hbefore : i < a.cursor
      · exact ih hbefore
      · exact ⟨a, b, h, hturn, not_lt.mp hbefore, hlt⟩

lemma offset_eq_skip (src : List Byte) (n : ℕ) :
    (tokenAt src n).globalOffset = (afterCalls src n).skipWhitespaceAndComments.cursor := by
  by_cases heof : (tokenAt src n).type = Eof
  · have hafter := onward_afterCalls src n
    have hskip := (Onward.refl (afterCalls src n)).skipWhitespaceAndComments
    have hnil := skip_of_eof heof
    have hbound := hskip.bound (by rw [hafter.1]; exact hafter.2)
    rw [rest, List.drop_eq_nil_iff, hskip.source] at hnil
    rw [hafter.1] at hnil hbound
    rw [tokenAt_eq_of_eof heof]
    exact le_antisymm hnil hbound
  · rcases nextToken_lexToken heof with ⟨hlt, -, htok, -, -⟩
    rw [htok, (scanned_token hlt).offset]

/-- The bytes of a token are a piece, and those of a literal are a literal of the text. -/
lemma spanAt_piece (hnul : 0 ∉ src) (h : (tokenAt src n).type ≠ Eof) :
    Stretch (tokenKind (tokenAt src n).type) (spanAt src n).2 (afterCalls src (n + 1)).rest ∧
      (tokenKind (tokenAt src n).type = .literal →
        Literal (spanAt src n).2 (afterCalls src (n + 1)).rest) := by
  rcases nextToken_lexToken h with ⟨hlt, hsource, htok, hrest, -⟩
  have hnul' : 0 ∉ (afterCalls src n).skipWhitespaceAndComments.rest := fun hmem =>
    hnul (hsource ▸ List.mem_of_mem_drop hmem)
  rcases token_piece hlt hnul' (solid_skip _) with ⟨s, hsplit, hpiece, hliteral⟩
  rw [(spanAt_append h).1, ← hrest] at hsplit
  rw [htok, hrest, List.append_cancel_right hsplit, ← hrest]
  exact ⟨hrest ▸ hpiece, hrest ▸ hliteral⟩

lemma token_takes (hnul : 0 ∉ src) (h : (tokenAt src n).type ≠ Eof) :
    TakesPiece (tokenKind (tokenAt src n).type) (afterCalls src n).skipWhitespaceAndComments
      (afterCalls src (n + 1)) := by
  rcases nextToken_lexToken h with ⟨hlt, hsource, -, -, hcursor⟩
  have hscan := scanned_token hlt
  have hafter := onward_afterCalls src (n + 1)
  rcases spanAt_append h with ⟨hsplit, hne⟩
  refine ⟨⟨hafter.1.trans hsource.symm, ?_, fun _ => ?_⟩, _, hne, hsplit, (spanAt_piece hnul h).1⟩
  · rw [hcursor]
    exact hscan.onward.le
  · rw [hsource]
    exact hafter.2

/-- The lexer stands in code, or at the end, behind every call. -/
lemma stays_afterCalls (hnul : 0 ∉ src) (n : ℕ) : Stays src (afterCalls src n) := by
  induction n with
  | zero => exact ⟨rfl, Nat.zero_le _, .start src⟩
  | succ n ih =>
      have hskip := ih.turns hnul (skip_turns _)
      by_cases heof : (tokenAt src n).type = Eof
      · have hafter := onward_afterCalls src (n + 1)
        have hnil : (afterCalls src (n + 1)).rest = [] := by
          have hend := skip_of_eof heof
          simp only [afterCalls, nextToken]
          rw [if_pos (List.drop_eq_nil_iff.mp hend)]
          exact hend
        refine ⟨hafter.1, hafter.2, ?_, .inr hnil⟩
        rw [rest, hafter.1, List.take_append_drop]
      · exact (hskip.step (token_takes hnul heof)).1

/-- **The lexer cuts the source into pieces.** -/
theorem lexer_cutting (hnul : 0 ∉ src) : Cutting src (LexerTakes src) where
  sound h := by
    have hturn {n : ℕ} {l l' : Lexer}
        (hhead : Relation.ReflTransGen (fun a b => skipTurn a = some b) (afterCalls src n) l)
        (hturn : skipTurn l = some l') := by
      have hstays := (stays_afterCalls hnul n).turns hnul hhead
      exact (hstays.step (turn_piece (hstays.noNul hnul) hturn)).2
    cases h with
    | white hhead h hslash =>
        have hkind := hturn hhead h
        rwa [if_neg hslash] at hkind
    | comment hhead h hslash =>
        have hkind := hturn hhead h
        rwa [if_pos hslash] at hkind
    | @token n h =>
        have hstays := (stays_afterCalls hnul n).turns hnul (skip_turns _)
        rw [offset_eq_skip]
        exact (hstays.step (token_takes hnul h)).2
  covers i hi := by
    have hgap {n : ℕ} (hle : (afterCalls src n).cursor ≤ i) (hlt : i < (tokenAt src n).globalOffset) :
        ∃ start stop k, LexerTakes src start stop k ∧ start ≤ i ∧ i < stop := by
      rw [offset_eq_skip] at hlt
      rcases exists_turn (skip_turns _) hle hlt with ⟨a, b, hhead, hturn, hstart, hstop⟩
      by_cases hslash : a.peek = '/'.toUInt8
      · exact ⟨_, _, _, .comment hhead hturn hslash, hstart, hstop⟩
      · exact ⟨_, _, _, .white hhead hturn hslash, hstart, hstop⟩
    have hcover (n : ℕ) : (∃ start stop k, LexerTakes src start stop k ∧ start ≤ i ∧ i < stop) ∨
        (afterCalls src n).cursor ≤ i := by
      induction n with
      | zero => exact .inr (Nat.zero_le _)
      | succ n ih =>
          rcases ih with hdone | hle
          · exact .inl hdone
          by_cases hbefore : i < (tokenAt src n).globalOffset
          · exact .inl (hgap hle hbefore)
          · have hne : (tokenAt src n).type ≠ Eof := by
              intro heof
              rw [tokenAt_eq_of_eof heof] at hbefore
              exact hbefore hi
            by_cases hwithin : i < (afterCalls src (n + 1)).cursor
            · exact .inl ⟨_, _, _, .token hne, not_lt.mp hbefore, hwithin⟩
            · exact .inr (not_lt.mp hwithin)
    rcases exists_eof src with ⟨N, -, heof⟩
    rcases hcover N with hdone | hle
    · exact hdone
    · refine hgap hle ?_
      rw [tokenAt_eq_of_eof heof]
      exact hi

end Lexer

namespace Preprocessor

open Lexer

variable {p q r : Preprocessor} {disk : Disk} {text pre post s rest : List Byte} {seg : Segment}
  {segs : List Segment} {k : Kind} {i : ℕ}

/-! ## What the main loop takes -/

/-- The main loop comes to an iteration over a byte of the frame. -/
structure Reached (disk : Disk) (p q : Preprocessor) : Prop where
  runs : Runs disk p q
  stacked : q.inputStack ≠ []
  open_ : ¬ q.atEnd = true

/-- No comment opens here. -/
def NoComment (q : Preprocessor) : Prop := ¬ q.opensComment '/' = true ∧ ¬ q.opensComment '*' = true

/-- The main loop takes the bytes of its frame from `start` to `stop` at once, as this kind. -/
inductive ProcessTakes (disk : Disk) (p : Preprocessor) : ℕ → ℕ → Kind → Prop
  | line {q : Preprocessor} (hq : Reached disk p q) (h : q.opensComment '/' = true) :
      ProcessTakes disk p q.cursor (q.orSize (q.findNext '\n')) .comment
  /-- the newline that is copied with the comment in front of it -/
  | newline {q : Preprocessor} (hq : Reached disk p q) (h : q.opensComment '/' = true) :
      ProcessTakes disk p (q.orSize (q.findNext '\n')) (q.orSizeAdd (q.findNext '\n') 1) .code
  | block {q : Preprocessor} (hq : Reached disk p q) (hline : ¬ q.opensComment '/' = true)
      (h : q.opensComment '*' = true) :
      ProcessTakes disk p q.cursor ((q.bump 2).orSizeAdd ((q.bump 2).findNextSeq "*/") 2) .comment
  | literal {q : Preprocessor} (hq : Reached disk p q) (hcom : q.NoComment) (h : IsQuote q.currChar) :
      ProcessTakes disk p q.cursor
        (q.cursor + (1 + (literalTail q.currChar (q.bump 1).rest).length)) .literal
  /-- anything else -/
  | other {q r : Preprocessor} (hq : Reached disk p q) (hcom : q.NoComment) (h : ¬ IsQuote q.currChar)
      (hstep : Steps disk q r) : ProcessTakes disk p q.cursor r.cursor .code

/-! ### Segments are pieces -/

lemma isIdentChar_ordinary {c : Byte} (hc : isIdentChar c = true) : Ordinary c := by
  rcases isIdentChar_other hc with ⟨hquote, -, hslash⟩
  exact ⟨hslash, fun h => hquote (.inl h), fun h => hquote (.inr h)⟩

lemma Word.piece (h : Word s rest) : Stretch .code s rest :=
  .ordinary fun c hc => isIdentChar_ordinary (h.run c hc)

lemma Single.piece {c : Byte} (h : Single c rest) : Stretch .code [c] rest := by
  by_cases hslash : c = '/'.toUInt8
  · subst hslash
    refine ⟨_, .slash fun d hd => ?_, .inl rfl⟩
    rcases List.head?_eq_some_iff.mp (Option.mem_def.mp hd) with ⟨t, rfl⟩
    constructor
    · rintro rfl
      exact h.comment (.inl ⟨t, rfl⟩)
    · rintro rfl
      exact h.comment (.inr ⟨t, rfl⟩)
  · refine .ordinary fun d hd => ?_
    rw [List.mem_singleton.mp hd]
    exact ⟨hslash, fun h' => h.quote (.inl h'), fun h' => h.quote (.inr h')⟩

/-- A comment is a piece, or a piece and a newline. -/
lemma Comment.piece (h : Comment s rest) : Stretch .comment s rest ∨
    ∃ body, s = bytes "//" ++ body ++ bytes "\n" ∧ '\n'.toUInt8 ∉ body := by
  cases h with
  | line _ hbody => exact .inr ⟨_, rfl, hbody⟩
  | lineEnd hbody => exact .inl (.lineComment hbody (fun c hc => by cases hc))
  | block _ hbody =>
      rw [List.append_assoc]
      exact .inl (.blockComment hbody)
  | blockEnd hbody => exact .inl (.openBlock hbody)

lemma Literal.ne_nil (h : Literal s rest) : s ≠ [] := by
  cases h <;> simp

lemma piece_newline : Stretch .code (bytes "\n") rest := .ordinary (by decide)

lemma segment_ne_nil (hseg : Segmented rest post (seg :: segs)) : seg.text ≠ [] := by
  cases hseg with
  | comment hc _ => exact hc.ne_nil
  | literal hl _ => exact hl.ne_nil
  | ident hw _ => exact hw.nonempty
  | single _ _ => exact List.cons_ne_nil _ _

/-- Behind a segment there is code again, or the end. -/
lemma inCode_segment {segs : List Segment} (hseg : Segmented [] post (seg :: segs))
    (h : InCode text pre post) :
    ∃ rest, post = seg.text ++ rest ∧ InCode text (pre ++ seg.text) rest := by
  cases hseg with
  | @comment s r _ hc _ =>
      refine ⟨r, rfl, ?_⟩
      rcases hc.piece with hpiece | ⟨body, rfl, hbody⟩
      · exact h.piece hc.ne_nil hpiece
      · rw [List.append_assoc] at h
        have hline := h.piece (by simp [bytes]) (.lineComment hbody (by simp [bytes]))
        have hnewline := hline.piece (by decide) piece_newline
        rwa [List.append_assoc] at hnewline
  | literal hl _ => exact ⟨_, rfl, h.piece hl.ne_nil (.literal hl)⟩
  | ident hw _ => exact ⟨_, rfl, h.piece hw.nonempty hw.piece⟩
  | single hs _ => exact ⟨_, rfl, h.piece (List.cons_ne_nil _ _) hs.piece⟩

/-! ### The whole text -/

/-- Every `#` of the text lies in a comment or in a literal. -/
def HashInside (text : List Byte) : Prop :=
  ∀ i : ℕ, text[i]? = some '#'.toUInt8 → (kinds text)[i]? ≠ some Kind.code

/-- The last frame is the text, and the main loop stands in code or at the end of it. -/
structure Standing (text pre post : List Byte) (q : Preprocessor) : Prop where
  at_ : At q pre post
  inCode : InCode text pre post
  last : q.inputStack.tail = []

/-- The segment in front of the cursor. -/
lemma Standing.segment (h : Standing text pre post q) (hhash : HashInside text) (hne : post ≠ []) :
    ∃ seg segs, Segmented [] post (seg :: segs) ∧ seg ≠ .single '#'.toUInt8 := by
  rcases exists_segmented post with ⟨segs, hsegs⟩
  cases segs with
  | nil =>
      cases hsegs
      exact absurd rfl hne
  | cons seg segs =>
      refine ⟨seg, segs, hsegs, ?_⟩
      rintro rfl
      cases hsegs with
      | @single _ r _ hs _ =>
          have hkind := h.inCode.kinds (s := ['#'.toUInt8]) hs.piece le_rfl (Nat.lt_succ_self _)
          refine hhash pre.length ?_ hkind
          rw [h.inCode.text, List.getElem?_append_right le_rfl, Nat.sub_self]
          rfl

/-- An iteration over the segment in front of the cursor. -/
lemma Standing.step (h : Standing text pre post q) (disk : Disk)
    (hseg : Segmented [] post (seg :: segs)) (hhash : seg ≠ .single '#'.toUInt8) :
    ∃ rest r, post = seg.text ++ rest ∧ Steps disk q r ∧ Standing text (pre ++ seg.text) rest r ∧
      r.cursor = q.cursor + seg.text.length := by
  rcases step_segmented disk hseg hhash h.at_ with ⟨rest, rfl, -, hstep⟩
  rcases inCode_segment hseg h.inCode with ⟨rest', heq, hin⟩
  cases List.append_cancel_left heq
  refine ⟨rest, _, rfl, hstep, ⟨h.at_.bump.emit, hin, ?_⟩, ?_⟩
  · show (q.bump seg.text.length).inputStack.tail = []
    rw [Preprocessor.bump, setCursor_inputStack_tail, h.last]
  · exact bump_cursor h.at_.stacked _

lemma Opens.standing (h : Opens p text) : Standing text [] text p := by
  refine ⟨h.at, .start text, ?_⟩
  rcases h.frame with ⟨f, hf, -⟩
  rw [hf]
  rfl

/-- In every reachable state the main loop stands in code or at the end of the text, or has popped the
frame. -/
lemma standing_runs (h : Opens p text) (hhash : HashInside text) (hruns : Runs disk p q) :
    q.inputStack = [] ∨ ∃ pre post, Standing text pre post q := by
  induction hruns with
  | refl => exact .inr ⟨_, _, h.standing⟩
  | @tail a b _ hstep ih =>
      rcases ih with hnil | ⟨pre, post, hstanding⟩
      · have hturn := turn_of_steps hstep
        cases hturn with
        | pop hs | advance hs | push hs => exact absurd hnil hs
      · by_cases hne : post = []
        · subst hne
          have hpop := (step_pop disk hstanding.at_).unique hstep
          rw [← hpop]
          exact .inl hstanding.last
        · rcases hstanding.segment hhash hne with ⟨seg, segs, hseg, hfree⟩
          rcases hstanding.step disk hseg hfree with ⟨rest, r, -, hr, hstands, -⟩
          rw [← hr.unique hstep]
          exact .inr ⟨_, _, hstands⟩

lemma Reached.standing (h : Reached disk p q) (hopens : Opens p text) (hhash : HashInside text) :
    ∃ pre post, Standing text pre post q ∧ post ≠ [] := by
  rcases standing_runs hopens hhash h.runs with hnil | ⟨pre, post, hstanding⟩
  · exact absurd hnil h.stacked
  · refine ⟨pre, post, hstanding, ?_⟩
    rintro rfl
    exact h.open_ hstanding.at_.atEnd_nil

/-! ### Where the pieces end -/

lemma exists_opener {second : Char} (hat : At q pre post) (h : q.opensComment second = true) :
    ∃ w, post = '/'.toUInt8 :: second.toUInt8 :: w := by
  rcases post with _ | ⟨c, _ | ⟨d, w⟩⟩
  · have hend := (opensComment_eq_true _ _).mp h
    have hsize := hat.size
    rw [hat.cursor, hsize, List.length_nil] at hend
    omega
  · rw [opensComment_last hat] at h
    cases h
  · rw [opensComment_pair hat, Bool.and_eq_true, beq_iff_eq, beq_iff_eq] at h
    exact ⟨w, by rw [h.1, h.2]⟩

lemma line_ends (hat : At q pre post) (h : q.opensComment '/' = true) :
    ∃ body r, post = bytes "//" ++ body ++ r ∧ '\n'.toUInt8 ∉ body ∧ (∀ c ∈ r.head?, c = '\n'.toUInt8) ∧
      q.orSize (q.findNext '\n') = q.cursor + (bytes "//" ++ body).length ∧
        q.orSizeAdd (q.findNext '\n') 1 = q.orSize (q.findNext '\n') + (r.take 1).length := by
  rcases exists_opener hat h with ⟨w, rfl⟩
  by_cases hmem : '\n'.toUInt8 ∈ w
  · rcases exists_split_of_mem hmem with ⟨body, r, rfl, hbody⟩
    have hopener : '\n'.toUInt8 ∉ bytes "//" ++ body := by
      simp only [bytes, List.mem_append, hbody, or_false]
      decide
    have hnewline : At q pre ((bytes "//" ++ body) ++ '\n'.toUInt8 :: r) := hat
    have hfound := hnewline.findNext hopener
    refine ⟨body, '\n'.toUInt8 :: r, rfl, hbody, ?_, ?_, ?_⟩
    · intro c hc
      exact (Option.some.inj hc).symm
    · rw [hfound]
      rfl
    · rw [hfound]
      rfl
  · have hopener : '\n'.toUInt8 ∉ '/'.toUInt8 :: '/'.toUInt8 :: w := by
      simp only [List.mem_cons, hmem, or_false]
      decide
    have hnone := hat.findNext_none hopener
    have hsize : q.size = q.cursor + (bytes "//" ++ w).length := by
      rw [hat.size, hat.cursor]
      rfl
    refine ⟨w, [], by simp [bytes], hmem, fun c hc => ?_, ?_, ?_⟩
    · cases hc
    · rw [hnone, ← hsize]
      rfl
    · rw [hnone]
      rfl

lemma block_ends (hat : At q pre post) (hline : ¬ q.opensComment '/' = true)
    (h : q.opensComment '*' = true) :
    ∃ s rest, post = s ++ rest ∧ s ≠ [] ∧ Stretch .comment s rest ∧
      (q.bump 2).orSizeAdd ((q.bump 2).findNextSeq "*/") 2 = q.cursor + s.length := by
  have hend {s rest : List Byte} (hat : At q pre (s ++ rest)) (hc : Comment s rest) :
      (q.bump 2).orSizeAdd ((q.bump 2).findNextSeq "*/") 2 = q.cursor + s.length := by
    rcases comment_end hat hc with ⟨hslash, -⟩ | ⟨-, -, hmove⟩
    · exact absurd hslash hline
    · have hcursor := congrArg Preprocessor.cursor hmove
      rwa [setCursor_cursor _ _ (bump_stacked hat.stacked 2), bump_cursor hat.stacked] at hcursor
  rcases exists_opener hat h with ⟨w, rfl⟩
  cases hf : Search.findSeq (bytes "*/") w with
  | some k =>
      rcases (Search.findSeq_eq_some_iff (by decide)).mp hf with ⟨body, rest, rfl, -, hfirst⟩
      have hsplit : '/'.toUInt8 :: '*'.toUInt8 :: (body ++ (bytes "*/" ++ rest)) =
          (bytes "/*" ++ body ++ bytes "*/") ++ rest := by simp [bytes]
      rw [hsplit] at hat ⊢
      refine ⟨_, _, rfl, by simp [bytes], ?_, hend hat (.block rest hfirst)⟩
      rw [List.append_assoc]
      exact .blockComment hfirst
  | none =>
      have hnone := (Search.findSeq_eq_none_iff (by decide)).mp hf
      have hsplit : '/'.toUInt8 :: '*'.toUInt8 :: w = (bytes "/*" ++ w) ++ [] := by simp [bytes]
      rw [hsplit] at hat ⊢
      exact ⟨_, _, rfl, by simp [bytes], .openBlock hnone, hend hat (.blockEnd hnone)⟩

lemma literal_ends {c : Byte} (hat : At q pre (c :: post)) (hquote : IsQuote c) :
    ∃ s rest, c :: post = s ++ rest ∧ Literal s rest ∧
      1 + (literalTail c post).length = s.length := by
  rcases exists_literal hquote post with ⟨s, rest, hsplit, -, hl⟩
  refine ⟨s, rest, hsplit, hl, ?_⟩
  have hstep : q.step (fun _ => none) 0 = .next ((q.bump s.length).emit s) :=
    step_literal (hsplit ▸ hat) hl
  rw [step_quote hat hquote] at hstep
  have hcursor := congrArg Preprocessor.cursor (StepResult.next.inj hstep)
  have hsame : (q.bump (1 + (literalTail c post).length)).cursor = (q.bump s.length).cursor := hcursor
  rw [bump_cursor hat.stacked, bump_cursor hat.stacked] at hsame
  omega

lemma Literal.head_quote (h : Literal s rest) : ∃ quote s', s = quote :: s' ∧ IsQuote quote := by
  cases h with
  | closed _ hq _ | cut hq _ | cutEscape hq _ => exact ⟨_, _, rfl, hq⟩

/-- Where no comment and no literal opens, a segment is code. -/
lemma segment_code (hat : At q pre post) (hseg : Segmented [] post (seg :: segs)) (hcom : q.NoComment)
    (hquote : ¬ IsQuote q.currChar) : ∃ rest, post = seg.text ++ rest ∧ Stretch .code seg.text rest := by
  cases hseg with
  | comment hc _ =>
      rcases comment_end hat hc with ⟨hslash, -⟩ | ⟨-, hstar, -⟩
      · exact absurd hslash hcom.1
      · exact absurd hstar hcom.2
  | literal hl _ =>
      rcases hl.head_quote with ⟨quote, s', rfl, hq⟩
      rw [List.cons_append] at hat
      rw [hat.currChar] at hquote
      exact absurd hq hquote
  | ident hw _ => exact ⟨_, rfl, hw.piece⟩
  | single hs _ => exact ⟨_, rfl, hs.piece⟩

/-- What the main loop takes belongs to what it takes it for. -/
lemma ProcessTakes.sound (hopens : Opens p text) (hhash : HashInside text) {start stop : ℕ}
    (h : ProcessTakes disk p start stop k) (hi : start ≤ i) (hlt : i < stop) :
    (kinds text)[i]? = some k := by
  cases h with
  | @line q hq h =>
      rcases hq.standing hopens hhash with ⟨pre, post, hstands, -⟩
      rcases line_ends hstands.at_ h with ⟨body, r, rfl, hbody, hr, hstop, -⟩
      rw [hstands.at_.cursor] at hi hstop
      exact hstands.inCode.kinds (.lineComment hbody hr) hi (hstop ▸ hlt)
  | @newline q hq h =>
      rcases hq.standing hopens hhash with ⟨pre, post, hstands, -⟩
      rcases line_ends hstands.at_ h with ⟨body, r, rfl, hbody, hr, hstop, hnext⟩
      rw [hnext, hstop, hstands.at_.cursor] at hlt
      rw [hstop, hstands.at_.cursor] at hi
      cases r with
      | nil =>
          rw [List.take_nil, List.length_nil] at hlt
          omega
      | cons c r =>
          cases hr c rfl
          have hbehind := hstands.inCode.piece (by simp [bytes]) (.lineComment hbody hr)
          rw [← List.length_append] at hi hlt
          exact hbehind.kinds (s := bytes "\n") piece_newline hi hlt
  | @block q hq hline h =>
      rcases hq.standing hopens hhash with ⟨pre, post, hstands, -⟩
      rcases block_ends hstands.at_ hline h with ⟨s, rest, rfl, -, hpiece, hstop⟩
      rw [hstands.at_.cursor] at hi hstop
      exact hstands.inCode.kinds hpiece hi (hstop ▸ hlt)
  | @literal q hq hcom h =>
      rcases hq.standing hopens hhash with ⟨pre, post, hstands, hne⟩
      rcases List.exists_cons_of_ne_nil hne with ⟨c, post, rfl⟩
      rw [hstands.at_.currChar] at h hlt
      rw [hstands.at_.bump_one.rest, hstands.at_.cursor] at hlt
      rw [hstands.at_.cursor] at hi
      rcases literal_ends hstands.at_ h with ⟨s, rest, hsplit, hl, hlength⟩
      rw [hlength] at hlt
      have hin := hstands.inCode
      rw [hsplit] at hin
      exact hin.kinds (.literal hl) hi hlt
  | @other q r hq hcom hquote hstep =>
      rcases hq.standing hopens hhash with ⟨pre, post, hstands, hne⟩
      rcases hstands.segment hhash hne with ⟨seg, segs, hseg, hfree⟩
      rcases segment_code hstands.at_ hseg hcom hquote with ⟨rest, hsplit, hpiece⟩
      rcases hstands.step disk hseg hfree with ⟨-, r', -, hr, -, hcursor⟩
      rw [← hr.unique hstep, hcursor, hstands.at_.cursor] at hlt
      rw [hstands.at_.cursor] at hi
      have hin := hstands.inCode
      rw [hsplit] at hin
      exact hin.kinds hpiece hi hlt

/-- A position of the segment in front of the cursor is taken. -/
lemma ProcessTakes.of_segment (hreached : Reached disk p q) (hstands : Standing text pre post q)
    (hseg : Segmented [] post (seg :: segs)) (hhash : seg ≠ .single '#'.toUInt8) (hi : q.cursor ≤ i)
    (hlt : i < q.cursor + seg.text.length) :
    ∃ start stop k, ProcessTakes disk p start stop k ∧ start ≤ i ∧ i < stop := by
  have hat := hstands.at_
  rcases hstands.step disk hseg hhash with ⟨rest, r, hsplit, hr, -, hcursor⟩
  rw [← hcursor] at hlt
  obtain ⟨c, post, rfl⟩ : ∃ c post', post = c :: post' := by
    refine List.exists_cons_of_ne_nil ?_
    rintro rfl
    exact hreached.open_ hat.atEnd_nil
  by_cases hline : q.opensComment '/' = true
  · have hstep : Steps disk q ((q.setCursor (q.orSizeAdd (q.findNext '\n') 1)).copyFrom q.cursor) :=
      .of_forall fun n => by rw [step_cons hat, if_pos hline]
    have hend : r.cursor = q.orSizeAdd (q.findNext '\n') 1 := by
      rw [hr.unique hstep]
      exact setCursor_cursor _ _ hat.stacked
    by_cases hbody : i < q.orSize (q.findNext '\n')
    · exact ⟨_, _, _, .line hreached hline, hi, hbody⟩
    · exact ⟨_, _, _, .newline hreached hline, not_lt.mp hbody, hend ▸ hlt⟩
  by_cases hblock : q.opensComment '*' = true
  · have hstep : Steps disk q (((q.bump 2).setCursor
        ((q.bump 2).orSizeAdd ((q.bump 2).findNextSeq "*/") 2)).copyFrom q.cursor) :=
      .of_forall fun n => by rw [step_cons hat, if_neg hline, if_pos hblock]
    have hend : r.cursor = (q.bump 2).orSizeAdd ((q.bump 2).findNextSeq "*/") 2 := by
      rw [hr.unique hstep]
      exact setCursor_cursor _ _ (bump_stacked hat.stacked 2)
    exact ⟨_, _, _, .block hreached hline hblock, hi, hend ▸ hlt⟩
  by_cases hquote : IsQuote c
  · have hstep : Steps disk q
        ((q.bump (1 + (literalTail c post).length)).emit (c :: literalTail c post)) :=
      .of_forall fun n => step_quote hat hquote
    have hend : r.cursor = q.cursor + (1 + (literalTail c post).length) := by
      rw [hr.unique hstep]
      exact bump_cursor hat.stacked _
    have htakes := ProcessTakes.literal hreached ⟨hline, hblock⟩ (hat.currChar.symm ▸ hquote)
    rw [hat.currChar, hat.bump_one.rest, ← hend] at htakes
    exact ⟨_, _, _, htakes, hi, hlt⟩
  · exact ⟨_, _, _, .other hreached ⟨hline, hblock⟩ (hat.currChar.symm ▸ hquote) hr, hi, hlt⟩

/-- **The main loop cuts the text into pieces.** -/
theorem process_cutting (hopens : Opens p text) (hhash : HashInside text) :
    Cutting text (ProcessTakes disk p) where
  sound h _ := h.sound hopens hhash
  covers i hi := by
    have hcover (m : ℕ) : ∀ q pre post, Runs disk p q → Standing text pre post q → q.cursor ≤ i →
        post.length ≤ m → ∃ start stop k, ProcessTakes disk p start stop k ∧ start ≤ i ∧ i < stop := by
      induction m with
      | zero =>
          intro q pre post _ hstands hle hm
          rw [hstands.inCode.text, List.length_append] at hi
          rw [hstands.at_.cursor] at hle
          omega
      | succ m ih =>
          intro q pre post hruns hstands hle hm
          have hne : post ≠ [] := by
            rintro rfl
            rw [hstands.inCode.text, List.append_nil] at hi
            rw [hstands.at_.cursor] at hle
            omega
          rcases hstands.segment hhash hne with ⟨seg, segs, hseg, hfree⟩
          have hreached : Reached disk p q := by
            refine ⟨hruns, hstands.at_.stacked, ?_⟩
            rw [hstands.at_.atEnd]
            simpa using hne
          by_cases hwithin : i < q.cursor + seg.text.length
          · exact ProcessTakes.of_segment hreached hstands hseg hfree hle hwithin
          · rcases hstands.step disk hseg hfree with ⟨rest, r, rfl, hr, hnext, hcursor⟩
            refine ih r _ _ (hruns.tail hr) hnext (hcursor.trans_le (not_lt.mp hwithin)) ?_
            have hpos := List.length_pos_iff.mpr (segment_ne_nil hseg)
            rw [List.length_append] at hm
            omega
    exact hcover _ p [] text .refl hopens.standing (hopens.at.cursor.trans_le (Nat.zero_le i)) le_rfl

/-! ## The two scanners -/

/-- The main loop takes the byte at `i` as a `k`. -/
def ProcessReads (disk : Disk) (p : Preprocessor) (k : Kind) (i : ℕ) : Prop :=
  ∃ start stop, ProcessTakes disk p start stop k ∧ start ≤ i ∧ i < stop

/-- The lexer skips the byte at `i` as part of a comment. -/
def LexerSkips (text : List Byte) (i : ℕ) : Prop :=
  ∃ start stop, LexerTakes text start stop .comment ∧ start ≤ i ∧ i < stop

/-- The byte at `i` is inside an `LString` or `LChar` token, as the lexer returns it. -/
def LexerQuotes (text : List Byte) (i : ℕ) : Prop :=
  ∃ n, tokenKind (tokenAt text n).type = .literal ∧ (tokenAt text n).globalOffset ≤ i ∧
    i < (tokenAt text n).globalOffset + (tokenAt text n).size

/-- The same bytes are inside comments, and the same bytes are inside literals. -/
structure SameSegmentation (disk : Disk) (p : Preprocessor) (text : List Byte) : Prop where
  comment : ∀ i, ProcessReads disk p .comment i ↔ LexerSkips text i
  literal : ∀ i, ProcessReads disk p .literal i ↔ LexerQuotes text i

/-- No literal of the text has `2 ^ 16` bytes or more. -/
def ShortLiterals (text : List Byte) : Prop :=
  ∀ pre s post, text = pre ++ (s ++ post) → Mode.walk .plain pre (s ++ post) = .plain →
    Literal s post → s.length < 2 ^ 16

lemma LexerTakes.of_literal {start stop : ℕ} (h : LexerTakes text start stop k) (hk : k = .literal) :
    ∃ n, tokenKind (tokenAt text n).type = .literal ∧ start = (tokenAt text n).globalOffset ∧
      stop = (afterCalls text (n + 1)).cursor := by
  cases h with
  | white | comment => cases hk
  | @token n _ => exact ⟨n, hk, rfl, rfl⟩

lemma ne_eof_of_literal {type : TokenType} (h : tokenKind type = .literal) : type ≠ Eof := by
  rintro rfl
  cases h

/-- A literal token is a literal of the text, which it records the length of modulo `2 ^ 16`. -/
lemma token_literal (hnul : 0 ∉ text) {n : ℕ} (h : tokenKind (tokenAt text n).type = .literal) :
    ∃ pre s post, text = pre ++ (s ++ post) ∧ Mode.walk .plain pre (s ++ post) = .plain ∧
      Literal s post ∧ pre.length = (tokenAt text n).globalOffset ∧
        (afterCalls text (n + 1)).cursor = (tokenAt text n).globalOffset + s.length ∧
          (tokenAt text n).size = s.length % 2 ^ 16 := by
  have hne := ne_eof_of_literal h
  have hstays := (stays_afterCalls hnul n).turns hnul (skip_turns _)
  rcases spanAt_append hne with ⟨hsplit, hspan⟩
  have hin := hstays.inCode
  rw [hsplit, ← offset_eq_skip] at hin
  have hoffset : (tokenAt text n).globalOffset ≤ text.length := by
    rw [offset_eq_skip]
    exact hstays.cursor
  rcases (token_takes hnul hne).exists_piece with ⟨s, -, hs, -, hcursor⟩
  rw [hsplit] at hs
  rw [← List.append_cancel_right hs, ← offset_eq_skip] at hcursor
  refine ⟨_, _, _, hin.text, hin.plain (by simp [hspan]), (spanAt_piece hnul hne).2 h, ?_, hcursor,
    size_tokenAt⟩
  rw [List.length_take, Nat.min_eq_left hoffset]

/-- What the main loop takes for a literal is in the hands of the lexer when it returns a literal. -/
lemma reads_literal_iff (hopens : Opens p text) (hnul : 0 ∉ text) (hhash : HashInside text) :
    ProcessReads disk p .literal i ↔ ∃ n, tokenKind (tokenAt text n).type = .literal ∧
      (tokenAt text n).globalOffset ≤ i ∧ i < (afterCalls text (n + 1)).cursor := by
  rw [ProcessReads, ← (process_cutting hopens hhash).kinds_iff, (lexer_cutting hnul).kinds_iff]
  constructor
  · rintro ⟨start, stop, htakes, hi, hlt⟩
    rcases LexerTakes.of_literal htakes rfl with ⟨n, hn, rfl, rfl⟩
    exact ⟨n, hn, hi, hlt⟩
  · rintro ⟨n, hn, hi, hlt⟩
    have htakes := LexerTakes.token (ne_eof_of_literal hn)
    rw [hn] at htakes
    exact ⟨_, _, htakes, hi, hlt⟩

/-- Inside a literal there is no code. -/
lemma Quoted.walk_ne_plain {quote : Byte} {body u : List Byte} (h : Quoted quote body)
    (hu : u <+: body) (r : List Byte) : Mode.walk (.literal quote) u r ≠ .plain := by
  induction h generalizing u with
  | nil =>
      rw [List.prefix_nil.mp hu]
      exact fun h => by cases h
  | @plain c body hesc hquote _ ih =>
      rcases u with _ | ⟨d, u⟩
      · exact fun h => by cases h
      · rcases List.cons_prefix_cons.mp hu with ⟨rfl, hu'⟩
        rw [Mode.walk, Mode.next, if_neg hesc, if_neg hquote]
        exact ih hu'
  | @escape c body _ ih =>
      rcases u with _ | ⟨d, _ | ⟨e, u⟩⟩
      · exact fun h => by cases h
      · rw [(List.cons_prefix_cons.mp hu).1, Mode.walk, Mode.next, if_pos rfl]
        exact fun h => by cases h
      · rcases List.cons_prefix_cons.mp hu with ⟨rfl, hu'⟩
        rw [Mode.walk, Mode.next, if_pos rfl, Mode.walk]
        exact ih (List.cons_prefix_cons.mp hu').2

lemma Literal.walk_ne_plain {u v : List Byte} (h : Literal (u ++ v) rest) (hu : u ≠ []) (hv : v ≠ [])
    (r : List Byte) : Mode.walk .plain u r ≠ .plain := by
  obtain ⟨quote, body, w, hsplit, hquote, hbody, hw⟩ : ∃ quote body w, u ++ v = quote :: (body ++ w) ∧
      IsQuote quote ∧ Quoted quote body ∧ w.length ≤ 1 := by
    generalize u ++ v = s at h
    cases h with
    | closed _ hq hbody => exact ⟨_, _, _, rfl, hq, hbody, le_rfl⟩
    | cut hq hbody => exact ⟨_, _, [], by rw [List.append_nil], hq, hbody, Nat.zero_le _⟩
    | cutEscape hq hbody => exact ⟨_, _, _, rfl, hq, hbody, le_rfl⟩
  rcases u with _ | ⟨d, u⟩
  · exact absurd rfl hu
  · rw [List.cons_append, List.cons.injEq] at hsplit
    rcases hsplit with ⟨rfl, hsplit⟩
    have hlen := congrArg List.length hsplit
    have hpos := List.length_pos_iff.mpr hv
    rw [List.length_append, List.length_append] at hlen
    have hu' : u <+: body :=
      List.prefix_of_prefix_length_le ⟨v, hsplit⟩ (List.prefix_append body w) (by omega)
    rw [Mode.walk, Paints.next_quote hquote]
    exact hbody.walk_ne_plain hu' r

/-- Everything is segmented alike, up to what a literal token records. -/
lemma sameSegmentation_iff (hopens : Opens p text) (hnul : 0 ∉ text) (hhash : HashInside text) :
    SameSegmentation disk p text ↔ ShortLiterals text := by
  constructor
  · intro hsame pre s post htext hplain hs
    by_contra hlong
    rw [not_lt] at hlong
    have hquotes (i : ℕ) (hi : pre.length ≤ i) (hlt : i < pre.length + s.length) :
        LexerQuotes text i := by
      have hin : InCode text pre (s ++ post) := ⟨htext, .inl hplain⟩
      have hkind := hin.kinds (.literal hs) hi hlt
      exact (hsame.literal i).mp ((process_cutting hopens hhash).kinds_iff.mp hkind)
    have hends {n : ℕ} (hn : tokenKind (tokenAt text n).type = .literal) :
        (tokenAt text n).globalOffset + (tokenAt text n).size ≤ (afterCalls text (n + 1)).cursor ∧
          (tokenAt text n).size < 2 ^ 16 := by
      rcases token_literal hnul hn with ⟨-, s, -, -, -, -, -, hcursor, hsize⟩
      rw [hcursor, hsize]
      exact ⟨Nat.add_le_add_left (Nat.mod_le _ _) _, Nat.mod_lt _ (by decide)⟩
    have hbefore {n m : ℕ} (hnm : n < m) :
        (afterCalls text (n + 1)).cursor ≤ (tokenAt text m).globalOffset :=
      (tokenAt_spec text (n + 1)).1.trans (monotone_nat_of_le_succ offset_le_succ hnm)
    -- the token at the beginning of the literal, and the one behind what it records
    rcases hquotes pre.length le_rfl (by omega) with ⟨n, hn, hstart, hstop⟩
    have hn' := hends hn
    rcases hquotes ((tokenAt text n).globalOffset + (tokenAt text n).size) hstop.le (by omega) with
      ⟨m, hm, hstart', hstop'⟩
    have hm' := hends hm
    by_cases hinner : pre.length < (tokenAt text m).globalOffset
    · rcases token_literal hnul hm with ⟨pre', s', post', htext', hplain', -, hpre', -, -⟩
      rw [htext] at htext'
      rcases List.append_eq_append_iff.mp htext' with ⟨u, rfl, hu⟩ | ⟨u, rfl, -⟩
      · rcases List.append_eq_append_iff.mp hu with ⟨v, rfl, -⟩ | ⟨v, rfl, hv⟩
        · rw [List.length_append, List.length_append] at hpre'
          omega
        · rw [List.length_append] at hpre' hlong hquotes
          rw [hv] at hplain' hu
          rw [Mode.walk_append, ← List.append_assoc, hplain] at hplain'
          refine hs.walk_ne_plain ?_ ?_ _ hplain'
          · rintro rfl
            rw [List.length_nil] at hpre'
            omega
          · rintro rfl
            rw [List.length_nil] at hlong
            omega
      · rw [List.length_append] at hinner
        omega
    · rcases lt_trichotomy n m with hlt | rfl | hgt
      · have := hbefore hlt
        omega
      · omega
      · have := hbefore hgt
        omega
  · intro hshort
    refine ⟨fun i => ?_, fun i => ?_⟩
    · rw [ProcessReads, LexerSkips, ← (process_cutting hopens hhash).kinds_iff,
        (lexer_cutting hnul).kinds_iff]
    · rw [reads_literal_iff hopens hnul hhash, LexerQuotes]
      refine exists_congr fun n => and_congr_right fun hn => and_congr_right fun _ => ?_
      rcases token_literal hnul hn with ⟨pre, s, post, htext, hplain, hs, -, hcursor, hsize⟩
      rw [hcursor, hsize, Nat.mod_eq_of_lt (hshort pre s post htext hplain hs)]

/-- **Two scanners, one segmentation**, for the texts without a byte `0` whose `#`s all lie in comments and
literals, as long as no literal has `2 ^ 16` bytes or more. -/
theorem same_segmentation_iff (disk : Disk) (hopens : Opens p text) (hnul : 0 ∉ text)
    (hhash : HashInside text) : SameSegmentation disk p text ↔ ShortLiterals text :=
  sameSegmentation_iff hopens hnul hhash

theorem same_segmentation_sample :
    SameSegmentation (fun _ => none) (ofText (bytes "a /*'*/ '#")) (bytes "a /*'*/ '#") := by
  have hlength : (bytes "a /*'*/ '#").length = 10 := rfl
  refine (same_segmentation_iff _ (opens_ofText (by decide)) (by decide) ?_).mpr ?_
  · intro i hi
    have hall : ∀ i < 10, (bytes "a /*'*/ '#")[i]? = some '#'.toUInt8 →
        (kinds (bytes "a /*'*/ '#"))[i]? ≠ some Kind.code := by decide
    exact hall i (hlength ▸ (List.getElem?_eq_some_iff.mp hi).1) hi
  · intro pre s post htext _ _
    have hlen := congrArg List.length htext
    rw [hlength, List.length_append, List.length_append] at hlen
    omega

/-- A literal of `2 ^ 16` bytes. -/
def longLiteral : List Byte := '"'.toUInt8 :: List.replicate (2 ^ 16 - 2) 'a'.toUInt8 ++ ['"'.toUInt8]

lemma mem_longLiteral {c : Byte} (h : c ∈ longLiteral) : c = '"'.toUInt8 ∨ c = 'a'.toUInt8 := by
  rw [longLiteral, List.mem_append, List.mem_cons, List.mem_replicate, List.mem_singleton] at h
  rcases h with (h | ⟨-, h⟩) | h
  · exact .inl h
  · exact .inr h
  · exact .inl h

lemma quoted_replicate {quote c : Byte} (hesc : c ≠ '\\'.toUInt8) (hquote : c ≠ quote) (n : ℕ) :
    Quoted quote (List.replicate n c) := by
  induction n with
  | zero => exact .nil
  | succ n ih => exact .plain hesc hquote ih

/-- The bytes of the long literal are in no token. -/
theorem longLiteral_outside_token :
    longLiteral.length < 2 ^ 32 - 8 ∧ 0 ∉ longLiteral ∧ '#'.toUInt8 ∉ longLiteral ∧
      ¬ SameSegmentation (fun _ => none) (ofText longLiteral) longLiteral := by
  have hlength : longLiteral.length = 2 ^ 16 := by
    rw [longLiteral, List.length_append, List.length_cons, List.length_replicate]
    rfl
  have hnul : 0 ∉ longLiteral := fun h => by
    rcases mem_longLiteral h with h | h <;> exact absurd h (by decide)
  have hhash : '#'.toUInt8 ∉ longLiteral := fun h => by
    rcases mem_longLiteral h with h | h <;> exact absurd h (by decide)
  refine ⟨by omega, hnul, hhash, fun hsame => ?_⟩
  have hinside : HashInside longLiteral := fun i hi =>
    absurd (List.mem_of_getElem? hi) hhash
  have hshort := (sameSegmentation_iff (opens_ofText (by omega)) hnul hinside).mp hsame
  have hliteral : Literal longLiteral [] :=
    .closed [] (.inl rfl) (quoted_replicate (by decide) (by decide) _)
  have hlt := hshort [] longLiteral [] (by simp) rfl hliteral
  omega

end Preprocessor

end LogicCompiler
