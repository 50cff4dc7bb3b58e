import LogicCompiler.Lexer.Tiling
import LogicCompiler.Parser.Soundness

/-!
# Parsing a source

The parser run over the lexer.  Its window holds the next two tokens of the lexer's stream, `Eof`
repeated at the end; statements consume tokens and offsets increase, so the guard of
`parseTranslationUnit` never fires.  A source that is accepted is therefore a list of statements,
and its tree is the root followed by their nodes.
-/

namespace LogicCompiler

open TokenType NodeKind Cat Lexer

/-! ## The window -/

/-- `w` is the window in front of token number `n` of the stream. -/
structure Window (src : List Byte) (n : ℕ) (w : Lookahead Lexer) : Prop where
  first : w.window0 = tokenAt src n
  second : w.window1 = tokenAt src (n + 1)
  /-- behind an `Eof` the lexer is not asked any more -/
  lexer : w.window0.type ≠ Eof → w.lexer = afterCalls src (n + 2)

namespace Window

variable {src : List Byte} {n : ℕ} {w w' : Lookahead Lexer}

lemma init (src : List Byte) : Window src 0 (Lookahead.initWindow (Lexer.mk src 0 [])) where
  first := by simp only [Lookahead.initWindow, TokenSource.nextToken, tokenAt, afterCalls]
  second := by simp only [Lookahead.initWindow, TokenSource.nextToken, tokenAt, afterCalls]
  lexer _ := by simp only [Lookahead.initWindow, TokenSource.nextToken, afterCalls]

lemma advance (h : Window src n w) : Window src (n + 1) w.advance := by
  by_cases heof : w.window0.type = Eof
  · have hn : (tokenAt src n).type = Eof := h.first ▸ heof
    have hstep : w.advance = { w with window0 := w.window1, window1 := w.window0 } := by
      simp [Lookahead.advance, heof]
    rw [hstep]
    refine ⟨h.second, ?_, ?_⟩
    · show w.window0 = _
      rw [h.first, tokenAt_eq_of_eof hn, tokenAt_eq_of_eof (eof_succ _ (eof_succ _ hn))]
    · intro hne
      exact absurd (h.second ▸ eof_succ n hn) hne
  · have hstep : w.advance = { lexer := w.lexer.nextToken.2, window0 := w.window1,
                               window1 := w.lexer.nextToken.1 } := by
      simp [Lookahead.advance, heof, TokenSource.nextToken]
    rw [hstep, h.lexer heof]
    refine ⟨h.second, ?_, fun _ => ?_⟩
    · simp only [tokenAt]
    · simp only [afterCalls]

lemma reads {ts : List Token} (hr : Reads w ts w') (h : Window src n w) :
    Window src (n + ts.length) w' ∧ ts = (List.range' n ts.length).map (tokenAt src) := by
  induction hr generalizing n with
  | nil => exact ⟨h, rfl⟩
  | @cons w w' ts _ ih =>
      rcases ih h.advance with ⟨hw, hts⟩
      refine ⟨?_, ?_⟩
      · rw [List.length_cons, Nat.add_comm ts.length 1, ← Nat.add_assoc]
        exact hw
      · rw [List.length_cons, List.range'_succ, List.map_cons, ← h.first, ← hts]

end Window

/-! ## The ends of a statement -/

/-- The categories whose syntax has tokens, the first and the last of them other than `Eof`. -/
def Cat.solid : Cat → Bool
  | expr | stmt | del | braces => true
  | Cat.conditional keyword => keyword ≠ Eof
  | _ => false

lemma firstOf {types : List TokenType} (heof : Eof ∉ types) (t : TokOf types) :
    t.1.type ≠ Eof := fun h => heof (h ▸ t.2)

/-- A solid piece of syntax starts with a token other than `Eof`. -/
lemma Syn.head_ne_eof {k : Cat} (s : Syn k) (hk : k.solid = true) :
    ∃ t ts, s.tokens = t :: ts ∧ t.type ≠ Eof := by
  have hquals : ∀ (q : QualifierTokens) {us : List Token},
      (∃ t ts, us = t :: ts ∧ t.type ≠ Eof) → ∃ t ts, q.tokens ++ us = t :: ts ∧ t.type ≠ Eof := by
    rintro (_ | ⟨t, q⟩) us h
    · exact h
    · exact ⟨t.1, _, rfl, firstOf (by decide) t⟩
  have happ : ∀ {us vs : List Token}, (∃ t ts, us = t :: ts ∧ t.type ≠ Eof) →
      ∃ t ts, us ++ vs = t :: ts ∧ t.type ≠ Eof := by
    rintro us vs ⟨t, ts, rfl, h⟩
    exact ⟨t, ts ++ vs, rfl, h⟩
  induction s with
  | pre op _ _ => exact ⟨_, _, rfl, firstOf (by decide) op⟩
  | literal t => exact ⟨_, _, rfl, firstOf (by decide) t⟩
  | ident t => exact ⟨_, _, rfl, firstOf (by decide) t⟩
  | eval _ ih => exact ih (by decide)
  | cast l _ _ _ => exact ⟨_, _, rfl, by simp [l.2]⟩
  | blockExpr _ ih => exact ih rfl
  | paren l _ _ _ => exact ⟨_, _, rfl, by simp [l.2]⟩
  | call _ _ _ _ ih _ => exact happ (ih rfl)
  | member _ _ _ ih => exact happ (ih rfl)
  | index _ _ _ _ ih _ => exact happ (ih rfl)
  | post _ _ ih => exact happ (ih rfl)
  | binary _ _ _ ih _ => exact happ (ih rfl)
  | block q _ ih => exact hquals q (ih rfl)
  | ifStmt q _ ih => exact hquals q (ih (by decide))
  | whileStmt q k => exact hquals q ⟨_, _, rfl, by simp [k.2]⟩
  | forStmt q k => exact hquals q ⟨_, _, rfl, by simp [k.2]⟩
  | returnStmt q k => exact hquals q ⟨_, _, rfl, by simp [k.2]⟩
  | jump q k => exact hquals q ⟨_, _, rfl, firstOf (by decide) k⟩
  | structDecl q k => exact hquals q ⟨_, _, rfl, by simp [k.2]⟩
  | namespaceDecl q k => exact hquals q ⟨_, _, rfl, by simp [k.2]⟩
  | deleteStmt q _ _ ih => exact hquals q (happ (ih rfl))
  | requires q k => exact hquals q ⟨_, _, rfl, by simp [k.2]⟩
  | typeDecl q k => exact hquals q ⟨_, _, rfl, by simp [k.2]⟩
  | functionDecl q type name =>
      refine hquals q ?_
      cases type with
      | none => exact ⟨_, _, rfl, by simp [name.2]⟩
      | some t => exact ⟨_, _, rfl, firstOf (by decide) t⟩
  | varDecl q type name =>
      refine hquals q ?_
      cases type with
      | none => exact ⟨_, _, rfl, by simp [name.2]⟩
      | some t => exact ⟨_, _, rfl, firstOf (by decide) t⟩
  | exprStmt q _ _ ih => exact hquals q (happ (ih rfl))
  | delete k => exact ⟨_, _, rfl, by simp [k.2]⟩
  | conditional k => exact ⟨_, _, rfl, by simpa [k.2, Cat.solid] using hk⟩
  | braced l => exact ⟨_, _, rfl, by simp [l.2]⟩
  | _ => simp [Cat.solid] at hk

/-- The last token, if there is one, is not `Eof`. -/
def Ends (ts : List Token) : Prop := ∀ t, ts.getLast? = some t → t.type ≠ Eof

lemma ends_nil : Ends [] := by
  intro t h
  cases h

lemma ends_append {ts us : List Token} (h : Ends ts) (h' : Ends us) : Ends (ts ++ us) := by
  intro t ht
  rw [List.getLast?_append, Option.or_eq_some_iff] at ht
  rcases ht with hu | ⟨-, ht⟩
  · exact h' t hu
  · exact h t ht

lemma ends_single {t : Token} (h : t.type ≠ Eof) : Ends [t] := by
  intro u hu
  obtain rfl : t = u := by simpa using hu
  exact h

lemma ends_cons {t : Token} {ts : List Token} (h : t.type ≠ Eof) (h' : Ends ts) :
    Ends (t :: ts) := ends_append (ends_single h) h'

/-- What stands in front of a non-empty list does not matter. -/
lemma ends_behind {t : Token} {ts us : List Token} (h : Ends (t :: us)) :
    Ends (ts ++ t :: us) := by
  intro u hu
  rw [List.getLast?_append, Option.or_eq_some_iff] at hu
  rcases hu with hu | ⟨hnone, -⟩
  · exact h u hu
  · simp at hnone

lemma ends_optToken {type : TokenType} (htype : type ≠ Eof) (o : Option (Tok type)) :
    Ends (optToken o) := by
  cases o with
  | none => exact ends_nil
  | some t => exact ends_single (by rw [t.2]; exact htype)

lemma ends_quals (q : QualifierTokens) : Ends q.tokens := by
  induction q with
  | nil => exact ends_nil
  | cons t q ih => exact ends_cons (firstOf (by decide) t) ih

/-- The categories whose syntax ends with a token other than `Eof`, if it has any: all but
parameters, whose type can be any token. -/
def Cat.closed : Cat → Bool
  | param => false
  | opt k | list k | orSemi k => k.closed
  | led types k => Eof ∉ types && k.closed
  | seq k l => k.closed && l.closed
  | Cat.conditional keyword => keyword ≠ Eof
  | _ => true

lemma Syn.ends {k : Cat} (s : Syn k) (hk : k.closed = true) : Ends s.tokens := by
  have hty : ∀ {type : TokenType} (t : Tok type), type ≠ Eof → t.1.type ≠ Eof := by
    intro type t h
    rw [t.2]
    exact h
  induction s with
  | pre op _ ih => exact ends_cons (firstOf (by decide) op) (ih rfl)
  | literal t => exact ends_single (firstOf (by decide) t)
  | ident t => exact ends_single (firstOf (by decide) t)
  | eval _ ih => exact ih (by decide)
  | cast l _ r ih =>
      exact ends_cons (hty l (by decide)) (ends_append (ih rfl) (ends_single (hty r (by decide))))
  | blockExpr _ ih => exact ih rfl
  | paren l _ r ih =>
      exact ends_cons (hty l (by decide)) (ends_append (ih rfl) (ends_single (hty r (by decide))))
  | call _ l _ r ihf iha =>
      exact ends_append (ihf rfl) (ends_cons (hty l (by decide))
        (ends_append (iha (by decide)) (ends_single (hty r (by decide)))))
  | member _ op name ih =>
      exact ends_append (ih rfl) (ends_cons (firstOf (by decide) op)
        (ends_single (hty name (by decide))))
  | index _ l _ r ihe ihi =>
      exact ends_append (ihe rfl) (ends_cons (hty l (by decide))
        (ends_append (ihi rfl) (ends_single (hty r (by decide)))))
  | post _ op ih => exact ends_append (ih rfl) (ends_single (firstOf (by decide) op))
  | binary _ op _ ihl ihr =>
      refine ends_append (ihl rfl) (ends_cons (fun h => ?_) (ihr rfl))
      have hop := op.2
      rw [h] at hop
      exact absurd hop (by decide)
  | block q _ ih => exact ends_append (ends_quals q) (ih rfl)
  | ifStmt q _ ih => exact ends_append (ends_quals q) (ih (by decide))
  | whileStmt q k l _ r _ ihc ihb =>
      exact ends_append (ends_quals q) (ends_cons (hty k (by decide))
        (ends_cons (hty l (by decide)) (ends_append (ihc rfl)
          (ends_cons (hty r (by decide)) (ihb rfl)))))
  | forStmt q k l _ _ semi _ r _ ihi ihc ihn ihb =>
      exact ends_append (ends_quals q) (ends_cons (hty k (by decide))
        (ends_cons (hty l (by decide)) (ends_append (ihi rfl) (ends_append (ihc rfl)
          (ends_cons (hty semi (by decide)) (ends_append (ihn rfl)
            (ends_cons (hty r (by decide)) (ihb rfl))))))))
  | returnStmt q k _ semi ih =>
      exact ends_append (ends_quals q) (ends_cons (hty k (by decide))
        (ends_append (ih rfl) (ends_single (hty semi (by decide)))))
  | jump q k semi =>
      exact ends_append (ends_quals q) (ends_cons (firstOf (by decide) k)
        (ends_single (hty semi (by decide))))
  | structDecl q k name _ semi ih =>
      exact ends_append (ends_quals q) (ends_cons (hty k (by decide))
        (ends_cons (hty name (by decide)) (ends_append (ih rfl)
          (ends_optToken (by decide) semi))))
  | namespaceDecl q k name _ ih =>
      exact ends_append (ends_quals q) (ends_cons (hty k (by decide))
        (ends_cons (hty name (by decide)) (ih rfl)))
  | deleteStmt q _ semi ih =>
      exact ends_append (ends_quals q) (ends_append (ih rfl) (ends_optToken (by decide) semi))
  | requires q k colon _ semi ih =>
      exact ends_append (ends_quals q) (ends_cons (hty k (by decide))
        (ends_cons (hty colon (by decide)) (ends_append (ih rfl)
          (ends_optToken (by decide) semi))))
  | typeDecl q k name _ _ semi ihb ihs =>
      exact ends_append (ends_quals q) (ends_cons (hty k (by decide))
        (ends_cons (hty name (by decide)) (ends_append (ihb (by decide)) (ends_append (ihs rfl)
          (ends_optToken (by decide) semi)))))
  | functionDecl q type name l params r body _ ih =>
      have hbody : Ends (r.1 :: body.tokens) := ends_cons (hty r (by decide)) (ih rfl)
      have hassoc : (Syn.functionDecl q type name l params r body).tokens =
          (q.tokens ++ (optToken type ++ name.1 :: l.1 :: params.tokens)) ++ r.1 :: body.tokens := by
        simp [Syn.tokens]
      rw [hassoc]
      exact ends_behind hbody
  | varDecl q type name init semi ih =>
      have hassoc : (Syn.varDecl q type name init semi).tokens =
          (q.tokens ++ (optToken type ++ name.1 :: init.tokens)) ++ [semi.1] := by
        simp [Syn.tokens]
      rw [hassoc]
      exact ends_behind (ends_single (hty semi (by decide)))
  | exprStmt q _ semi ih =>
      exact ends_append (ends_quals q) (ends_append (ih rfl) (ends_optToken (by decide) semi))
  | delete k auto _ ih =>
      exact ends_cons (hty k (by decide)) (ends_append (ends_optToken (by decide) auto) (ih rfl))
  | conditional k l _ r _ _ ihc iht ihe =>
      exact ends_cons (hty k (by simpa [Cat.closed] using hk)) (ends_cons (hty l (by decide))
        (ends_append (ihc rfl) (ends_cons (hty r (by decide)) (ends_append (iht rfl)
          (ihe (by decide))))))
  | braced l _ r ih =>
      exact ends_cons (hty l (by decide)) (ends_append (ih rfl) (ends_single (hty r (by decide))))
  | parameter => simp [Cat.closed] at hk
  | none => exact ends_nil
  | some _ ih => exact ih hk
  | nil => exact ends_nil
  | cons _ _ ihs ihr => exact ends_append (ihs hk) (ihr hk)
  | led t _ ih =>
      simp only [Cat.closed, Bool.and_eq_true, decide_eq_true_eq] at hk
      exact ends_cons (firstOf hk.1 t) (ih hk.2)
  | seq _ _ ihs iht =>
      simp only [Cat.closed, Bool.and_eq_true] at hk
      exact ends_append (ihs hk.1) (iht hk.2)
  | bare semi => exact ends_single (hty semi (by decide))
  | full _ ih => exact ih hk

/-! ## The translation unit -/

/-- `u` is what the source derives to, and `tree` is the root with the nodes of `u`. -/
structure Parses (src : List Byte) (tree : ASTTree) (u : Syn (list stmt)) : Prop where
  tokens : u.tokens = tokensOf src
  grouped : u.Grouped
  arena : tree = default :: u.nodes 1 src.length
  room : tree.length ≤ kNullNode

namespace Parser

variable {src : List Byte}

/-- The loop of `parseTranslationUnit` collects statements up to `Eof`. -/
lemma unitLoop_returns (n : ℕ) {i : ℕ} {p p' : Parser Lexer} (hw : Window src i p.toLookahead)
    (h : (parser n).unitLoop p = some (.ok ((), p'))) :
    ∃ u : Syn (list stmt), Derives u p p' ∧ p'.window0.type = Eof := by
  induction n generalizing i p with
  | zero => cases h
  | succ n ih =>
      rw [parser_succ] at h
      simp only [productions, unitLoop, check_bind, peek_bind, Fuel.Comp.ite_apply,
        beq_iff_eq] at h
      split_ifs at h with heof
      · cases h
        exact ⟨Syn.nil, Derives.nil _, heof⟩
      · rw [Fuel.Comp.bind_eq_ok] at h
        rcases h with ⟨id, p₁, hs, h⟩
        rcases (sound_calls n).statement hs with ⟨s, hs, -⟩
        have hw₁ := (hw.reads hs.reads).1
        simp only [peek_bind, Fuel.Comp.ite_apply, advance_bind] at h
        have hlt : p.window0.globalOffset < p₁.window0.globalOffset := by
          rcases s.head_ne_eof rfl with ⟨t, ts, hts, -⟩
          rw [hw.first, hw₁.first]
          exact Lexer.offset_lt (by simp [hts]) (hw.first ▸ heof)
        split_ifs at h with hguard
        · exact absurd hguard.1 hlt.ne'
        · rcases ih hw₁ h with ⟨u, hu, hend⟩
          exact ⟨Syn.cons s u, hs.cons hu, hend⟩

/-- **An accepted source is a list of statements**, and its tree is the root with their nodes. -/
theorem accepts_unit {tree : ASTTree} (h : Accepts src tree) :
    ∃ u : Syn (list stmt), Parses src tree u := by
  rcases h with ⟨p, ⟨n, hn⟩, rfl⟩
  simp only [parseTranslationUnit, createNode_bind] at hn
  rcases hn with ⟨-, hn⟩
  rcases unitLoop_returns n (Window.init src) hn with ⟨u, hu, heof⟩
  rcases (Window.init src).reads hu.reads with ⟨hw, hts⟩
  rw [Nat.zero_add] at hw
  have hend : (tokenAt src u.tokens.length).type = Eof := hw.first ▸ heof
  have hnext : p.window0.globalOffset = src.length := by
    rw [hw.first, tokenAt_eq_of_eof hend]
    rfl
  rw [← List.range_eq_range'] at hts
  generalize hlen : u.tokens.length = len at hts hend
  have hno : ∀ m < len, (tokenAt src m).type ≠ Eof := by
    intro m hm heof'
    refine u.ends rfl (tokenAt src (len - 1)) ?_ (eof_le (by omega) heof')
    rw [hts, List.getLast?_map, List.getLast?_range, if_neg (by omega)]
    rfl
  have htokens : u.tokens = tokensOf src := by
    rw [tokensOf_eq hend hno]
    exact hts
  have htree : p.tree = default :: u.nodes 1 src.length := by
    rw [hu.tree, hnext]
    rfl
  exact ⟨u, htokens, hu.grouped, htree, hu.room (by simp [Parser.init, kNullNode])⟩

end Parser

end LogicCompiler
