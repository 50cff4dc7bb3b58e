import LogicCompiler.Parser.Canonical

/-!
# The entries of the parser

What a production does when it sees certain tokens, given what the calls do that it makes.  A
statement about a run (`Runs`) is about every amount of fuel from some on, and a production is run
through step by step, in the order of the source.
-/

namespace LogicCompiler

open TokenType NodeKind Cat

variable {σ : Type} [TokenSource σ]

/-- The types that an expression starts with. -/
def expressionStarts : List TokenType :=
  Parser.prefixOperators ++ Parser.literals ++ Parser.identifiers ++ [kEval, Left, BrLeft]

/-- An expression starts with one of its own tokens. -/
lemma Syn.head_expression : (s : Syn expr) →
    ∃ t ts, s.tokens = t :: ts ∧ t.type ∈ expressionStarts
  | pre op _ => ⟨_, _, rfl, by simp [expressionStarts, op.2]⟩
  | literal t => ⟨_, _, rfl, by simp [expressionStarts, t.2]⟩
  | ident t => ⟨_, _, rfl, by simp [expressionStarts, t.2]⟩
  | eval (Syn.conditional k _ _ _ _ _) => ⟨_, _, rfl, by simp [expressionStarts, k.2]⟩
  | cast l _ _ => ⟨_, _, rfl, by simp [expressionStarts, l.2]⟩
  | blockExpr (Syn.braced l _ _) => ⟨_, _, rfl, by simp [expressionStarts, l.2]⟩
  | paren l _ _ => ⟨_, _, rfl, by simp [expressionStarts, l.2]⟩
  | call f _ _ _ => by
      rcases f.head_expression with ⟨t, ts, hts, ht⟩
      exact ⟨t, _, by rw [tokens, hts, List.cons_append], ht⟩
  | member e _ _ => by
      rcases e.head_expression with ⟨t, ts, hts, ht⟩
      exact ⟨t, _, by rw [tokens, hts, List.cons_append], ht⟩
  | index e _ _ _ => by
      rcases e.head_expression with ⟨t, ts, hts, ht⟩
      exact ⟨t, _, by rw [tokens, hts, List.cons_append], ht⟩
  | post e _ => by
      rcases e.head_expression with ⟨t, ts, hts, ht⟩
      exact ⟨t, _, by rw [tokens, hts, List.cons_append], ht⟩
  | binary lhs _ _ => by
      rcases lhs.head_expression with ⟨t, ts, hts, ht⟩
      exact ⟨t, _, by rw [tokens, hts, List.cons_append], ht⟩

/-- A window in front of an expression. -/
lemma Reads.starts {e : Syn expr} {w w' : Lookahead σ} (hr : Reads w e.tokens w') :
    w.window0.type ∈ expressionStarts := by
  rcases e.head_expression with ⟨t, ts, hts, ht⟩
  rwa [(Reads.cons_iff.mp (hts ▸ hr)).1]

lemma Reads.not_starts {e : Syn expr} {w w' : Lookahead σ} (hr : Reads w e.tokens w')
    {type : TokenType} (htype : type ∉ expressionStarts) : w.window0.type ≠ type :=
  fun h => htype (h ▸ hr.starts)

/-- The first of some tokens, as the window in front of them shows it. -/
lemma Reads.firstToken {w w' : Lookahead σ} {ts : List Token} (h : Reads w ts w') :
    firstToken ts w'.window0 = w.window0 := by
  cases h <;> rfl

lemma Lookahead.advance_window0 (w : Lookahead σ) : w.advance.window0 = w.window1 := by
  unfold Lookahead.advance
  split_ifs <;> rfl

/-- A window over a list of tokens moves through the list. -/
lemma reads_list {ts : List Token} (us : List Token) (h : ∀ t ∈ ts, t.type ≠ Eof) :
    Reads (Lookahead.initWindow (ts ++ us)) ts (Lookahead.initWindow us) := by
  induction ts with
  | nil => exact Reads.nil _
  | cons t ts ih =>
      rw [List.forall_mem_cons] at h
      have hstep : (Lookahead.initWindow (t :: ts ++ us)).advance
          = Lookahead.initWindow (ts ++ us) := by
        simp [Lookahead.initWindow, Lookahead.advance, TokenSource.nextToken, h.1]
      exact Reads.cons_iff.mpr ⟨rfl, hstep ▸ ih h.2⟩

namespace Parser

/-- The parser behind some syntax, its window being `w`. -/
def along {k : Cat} (p : Parser σ) (s : Syn k) (w : Lookahead σ) : Parser σ :=
  { toLookahead := w, source := p.source,
    tree := p.tree ++ s.nodes p.tree.length w.window0.globalOffset }

section Along

variable {k : Cat} (p : Parser σ) (s : Syn k) (w : Lookahead σ)

omit [TokenSource σ] in
@[simp] lemma along_toLookahead : (p.along s w).toLookahead = w := rfl

omit [TokenSource σ] in
@[simp] lemma along_source : (p.along s w).source = p.source := rfl

omit [TokenSource σ] in
@[simp] lemma along_tree :
    (p.along s w).tree = p.tree ++ s.nodes p.tree.length w.window0.globalOffset := rfl

omit [TokenSource σ] in
/-- The nodes of a derivation, and those in front of it. -/
lemma along_length : (p.along s w).tree.length = p.tree.length + s.size := by simp

omit [TokenSource σ] in
/-- The nodes of a derivation lie where they were put. -/
lemma along_lies :
    Lies (p.along s w).tree p.tree.length (s.nodes p.tree.length w.window0.globalOffset) := by
  simpa using lies_of_append p.tree (s.nodes p.tree.length w.window0.globalOffset) []

end Along

/-- With enough fuel, `x` takes the parser from `p` to `p'` and returns `a`. -/
abbrev Runs {α : Type} (x : Calls σ → ParseM σ α) (p : Parser σ) (a : α) (p' : Parser σ) : Prop :=
  Fuel.Settles parser x p a p'

/-- The token types that only expressions out of reach here contain. -/
def compound : List TokenType := [kEval, kDelete, BrLeft]

/-- No token of `ts` starts an `eval`, a `delete` or a block. -/
def Simple (ts : List Token) : Prop := ∀ t ∈ ts, t.type ∉ compound

section Simple

variable {t : Token} {ts us : List Token}

@[simp] lemma simple_nil : Simple [] := fun _ h => absurd h List.not_mem_nil

@[simp] lemma simple_cons : Simple (t :: ts) ↔ t.type ∉ compound ∧ Simple ts := by
  simp [Simple]

@[simp] lemma simple_append : Simple (ts ++ us) ↔ Simple ts ∧ Simple us := by
  simp [Simple, or_imp, forall_and]

lemma not_simple_eval (s : Syn (Cat.conditional kEval)) : ¬ Simple (Syn.eval s).tokens := by
  cases s with
  | conditional k => exact fun h => absurd (h k.1 (by simp [Syn.tokens])) (by simp [k.2, compound])

lemma not_simple_cast (l : Tok Left) (d : Syn del) (r : Tok Right) :
    ¬ Simple (Syn.cast l d r).tokens := by
  cases d with
  | delete k => exact fun h => absurd (h k.1 (by simp [Syn.tokens])) (by simp [k.2, compound])

lemma not_simple_blockExpr (b : Syn braces) : ¬ Simple (Syn.blockExpr b).tokens := by
  cases b with
  | braced l => exact fun h => absurd (h l.1 (by simp [Syn.tokens])) (by simp [l.2, compound])

end Simple

/-- The token behind an expression neither continues it nor binds more tightly than it. -/
def Stops (s : Syn expr) (w : Lookahead σ) : Prop :=
  w.window0.type ∉ postfixStarts ∧ getPrecedence w.window0.type ≤ s.level

/-! ## The entries of the parser on what they see -/

section Entries

variable {p p' : Parser σ} {id : NodeId}

/-- The postfix loop ends at a token that starts no postfix. -/
lemma postfix_stops {e : NodeId} (h : p.window0.type ∉ postfixStarts) :
    Runs (fun c => c.parsePostfixExpression e) p e p := by
  simp only [postfixStarts, List.mem_cons, List.not_mem_nil, or_false, not_or] at h
  refine Fuel.Settles.tie ⟨0, fun n _ => ?_⟩
  simp [productions, parsePostfixExpression, h]

/-- The binary loop ends at a token that is no operator or binds too loosely. -/
lemma binary_stops {m : ℕ} {e : NodeId}
    (h : getPrecedence p.window0.type < m ∨ getPrecedence p.window0.type = 0) :
    Runs (fun c => c.binaryLoop m e) p e p := by
  refine Fuel.Settles.tie ⟨0, fun n _ => ?_⟩
  simp [productions, binaryLoop, h]

/-- A literal, and what follows as its postfix. -/
lemma primary_literal (h : p.window0.type ∈ literals) (hroom : p.tree.length < kNullNode)
    (hpost : Runs (fun c => c.parsePostfixExpression p.tree.length)
      (p.bump.push [tokenNode LiteralExpr p.window0]) id p') :
    Runs (fun c => c.parsePrimaryExpression) p id p' := by
  have hpre : p.window0.type ∉ prefixOperators := by
    revert h
    generalize p.window0.type = type
    cases type <;> decide
  refine Fuel.Settles.tie (hpost.imp fun c hc => ?_)
  simp [productions, parsePrimaryExpression, h, hpre, hroom, hc]

lemma primary_ident (h : p.window0.type ∈ identifiers) (hroom : p.tree.length < kNullNode)
    (hpost : Runs (fun c => c.parsePostfixExpression p.tree.length)
      (p.bump.push [tokenNode IdentifierExpr p.window0]) id p') :
    Runs (fun c => c.parsePrimaryExpression) p id p' := by
  have hnot : p.window0.type ∉ prefixOperators ∧ p.window0.type ∉ literals := by
    revert h
    generalize p.window0.type = type
    cases type <;> decide
  refine Fuel.Settles.tie (hpost.imp fun c hc => ?_)
  simp [productions, parsePrimaryExpression, h, hnot, hroom, hc]

/-- An expression in parentheses is itself. -/
lemma primary_paren {e : NodeId} {p₁ : Parser σ} (h : p.window0.type = Left)
    (hnext : p.window1.type ≠ kDelete) (hr : p₁.window0.type = Right)
    (he : Runs (fun c => c.parseExpression 0) p.bump e p₁)
    (hpost : Runs (fun c => c.parsePostfixExpression e) p₁.bump id p') :
    Runs (fun c => c.parsePrimaryExpression) p id p' := by
  have hnot : Left ∉ prefixOperators ∧ Left ∉ literals ∧ Left ∉ identifiers := by decide
  refine Fuel.Settles.tie (he.imp_both hpost fun c hc hd => ?_)
  simp [productions, parsePrimaryExpression, h, hnot, hnext, Fuel.Comp.bind_apply hc, hr, hd]

/-- A prefix operator takes an operand without its postfixes, then all of them. -/
lemma primary_prefix {e : NodeId} {p₁ : Parser σ} (h : p.window0.type ∈ prefixOperators)
    (hroom : p₁.tree.length < kNullNode)
    (he : Runs (fun c => c.parsePrimaryExpression) p.bump e p₁)
    (hpost : Runs (fun c => c.parsePostfixExpression p₁.tree.length)
      (p₁.push [{ tokenNode UnaryExpr p.window0 with data := Data.unary p.window0.type e }])
      id p') :
    Runs (fun c => c.parsePrimaryExpression) p id p' := by
  refine Fuel.Settles.tie (he.imp_both hpost fun c hc hd => ?_)
  simp only [tokenNode] at hd
  simp [productions, parsePrimaryExpression, h, Fuel.Comp.bind_apply hc, hroom, hd]

/-- None of the tests for a prefix operator, a literal and an identifier succeeds. -/
lemma not_leaf {type : TokenType} (h : type ∈ [kEval, Left, BrLeft]) :
    type ∉ prefixOperators ∧ type ∉ literals ∧ type ∉ identifiers := by
  revert h
  cases type <;> decide

lemma primary_eval {i : NodeId} {p₁ : Parser σ} (h : p.window0.type = kEval)
    (he : Runs (fun c => parseEvalExpression c) p i p₁)
    (hpost : Runs (fun c => c.parsePostfixExpression i) p₁ id p') :
    Runs (fun c => c.parsePrimaryExpression) p id p' := by
  have hnot : kEval ∉ prefixOperators ∧ kEval ∉ literals ∧ kEval ∉ identifiers :=
    not_leaf (by decide)
  refine Fuel.Settles.tie (he.imp_both hpost fun c hc hd => ?_)
  simp [productions, parsePrimaryExpression, h, hnot, Fuel.Comp.bind_apply hc, hd]

/-- A `delete` in parentheses is a cast. -/
lemma primary_cast {d : NodeId} {p₁ : Parser σ} (h : p.window0.type = Left)
    (hnext : p.window1.type = kDelete) (hr : p₁.window0.type = Right)
    (hroom : p₁.tree.length < kNullNode)
    (hd : Runs (fun c => parseDeleteStatement c) p.bump d p₁)
    (hpost : Runs (fun c => c.parsePostfixExpression p₁.tree.length)
      (p₁.bump.push [plainNode CastExpr p₁.bump.window0.globalOffset (Data.deleteOp d)]) id p') :
    Runs (fun c => c.parsePrimaryExpression) p id p' := by
  have hnot : Left ∉ prefixOperators ∧ Left ∉ literals ∧ Left ∉ identifiers := not_leaf (by decide)
  refine Fuel.Settles.tie (hd.imp_both hpost fun c hc he => ?_)
  simp only [plainNode, bump_toLookahead] at he
  simp [productions, parsePrimaryExpression, h, hnot, hnext, Fuel.Comp.bind_apply hc, hr, hroom, he]

lemma primary_block {b : NodeId} {p₁ : Parser σ} (h : p.window0.type = BrLeft)
    (hb : Runs (fun c => parseBlock c "Expected '\x7d' at end of block expression") p.bump b p₁)
    (hpost : Runs (fun c => c.parsePostfixExpression b) p₁ id p') :
    Runs (fun c => c.parsePrimaryExpression) p id p' := by
  have hnot : BrLeft ∉ prefixOperators ∧ BrLeft ∉ literals ∧ BrLeft ∉ identifiers :=
    not_leaf (by decide)
  refine Fuel.Settles.tie (hb.imp_both hpost fun c hc hd => ?_)
  simp [productions, parsePrimaryExpression, h, hnot, Fuel.Comp.bind_apply hc, hd]

/-- A call, and what follows it. -/
lemma postfix_call {e a : NodeId} {p₁ : Parser σ} (h : p.window0.type = Left)
    (hr : p₁.window0.type = Right) (hroom : p₁.tree.length < kNullNode)
    (ha : Runs (fun c => parseArguments c) p.bump a p₁)
    (hpost : Runs (fun c => c.parsePostfixExpression p₁.tree.length)
      (p₁.bump.push [plainNode CallExpr p₁.bump.window0.globalOffset (Data.call e a)]) id p') :
    Runs (fun c => c.parsePostfixExpression e) p id p' := by
  refine Fuel.Settles.tie (ha.imp_both hpost fun c hc hd => ?_)
  simp only [plainNode, bump_toLookahead] at hd
  simp [productions, parsePostfixExpression, h, Fuel.Comp.bind_apply hc, hr, hroom, hd]

/-- A member, and what follows it. -/
lemma postfix_member {e : NodeId} (h : p.window0.type ∈ [Dot, Arrow])
    (hname : p.bump.window0.type = Ident) (hroom : p.tree.length + 1 < kNullNode)
    (hpost : Runs (fun c => c.parsePostfixExpression (p.tree.length + 1))
      (p.bump.bump.push [tokenNode IdentifierExpr p.bump.window0,
        plainNode MemberAccessExpr p.window0.globalOffset
          (Data.binary p.window0.type e p.tree.length)]) id p') :
    Runs (fun c => c.parsePostfixExpression e) p id p' := by
  have hnot : p.window0.type ≠ Left := by
    rintro heq
    rw [heq] at h
    exact absurd h (by decide)
  refine Fuel.Settles.tie (hpost.imp fun c hc => ?_)
  simp only [plainNode, bump_toLookahead] at hc
  have hroom' : p.tree.length < kNullNode := by omega
  simp at h hname
  simp [productions, parsePostfixExpression, h, hnot, hname, hroom, hroom', hc]

/-- An index, and what follows it. -/
lemma postfix_index {e i : NodeId} {p₁ : Parser σ} (h : p.window0.type = SqLeft)
    (hr : p₁.window0.type = SqRight) (hroom : p₁.tree.length < kNullNode)
    (hi : Runs (fun c => c.parseExpression 0) p.bump i p₁)
    (hpost : Runs (fun c => c.parsePostfixExpression p₁.tree.length)
      (p₁.bump.push [plainNode BinaryExpr p₁.bump.window0.globalOffset
        (Data.binary SqLeft e i)]) id p') :
    Runs (fun c => c.parsePostfixExpression e) p id p' := by
  refine Fuel.Settles.tie (hi.imp_both hpost fun c hc hd => ?_)
  simp only [plainNode, bump_toLookahead] at hd
  simp [productions, parsePostfixExpression, h, Fuel.Comp.bind_apply hc, hr, hroom, hd]

lemma postfix_post {e : NodeId} (h : p.window0.type ∈ [PPlus, MMinus])
    (hroom : p.tree.length < kNullNode)
    (hpost : Runs (fun c => c.parsePostfixExpression p.tree.length)
      (p.bump.push [plainNode UnaryExpr p.window0.globalOffset
        (Data.unary p.window0.type e)]) id p') :
    Runs (fun c => c.parsePostfixExpression e) p id p' := by
  have hnot : p.window0.type ≠ Left ∧ p.window0.type ∉ [Dot, Arrow] ∧ p.window0.type ≠ SqLeft := by
    revert h
    generalize p.window0.type = type
    cases type <;> decide
  refine Fuel.Settles.tie (hpost.imp fun c hc => ?_)
  simp only [plainNode] at hc
  simp at h hnot
  simp [productions, parsePostfixExpression, h, hnot, hroom, hc]

/-- A primary expression, continued by the loop over the operators. -/
lemma expression_primary {m : ℕ} {e : NodeId} {p₁ : Parser σ}
    (he : Runs (fun c => c.parsePrimaryExpression) p e p₁)
    (hloop : Runs (fun c => c.binaryLoop m e) p₁ id p') :
    Runs (fun c => c.parseExpression m) p id p' :=
  Fuel.Settles.tie (he.bind hloop)

/-- An operator of the loop and its right operand. -/
lemma binary_step {m : ℕ} {e r : NodeId} {p₁ : Parser σ} (hop : 0 < getPrecedence p.window0.type)
    (hm : m ≤ getPrecedence p.window0.type) (hroom : p₁.tree.length < kNullNode)
    (hr : Runs (fun c => c.parseExpression (getPrecedence p.window0.type + 1)) p.bump r p₁)
    (hloop : Runs (fun c => c.binaryLoop m p₁.tree.length)
      (p₁.push [plainNode BinaryExpr p.window0.globalOffset
        (Data.binary p.window0.type e r)]) id p') :
    Runs (fun c => c.binaryLoop m e) p id p' := by
  refine Fuel.Settles.tie (hr.imp_both hloop fun c hc hd => ?_)
  have hgo : ¬ (getPrecedence p.window0.type < m ∨ getPrecedence p.window0.type = 0) := by omega
  simp only [plainNode] at hd
  simp [productions, binaryLoop, hgo, Fuel.Comp.bind_apply hc, hroom, hd]

end Entries

/-! ## Steps of a production -/

section Steps

variable {α β : Type} {p p₁ p₂ : Parser σ} {a : α} {b : β}

namespace Runs

lemma pure (a : α) : Runs (fun _ => (Pure.pure a : ParseM σ α)) p a p := ⟨0, fun _ _ => rfl⟩

/-- Something that calls nothing. -/
lemma step {x : ParseM σ α} {f : Calls σ → α → ParseM σ β} (hx : x p = some (.ok (a, p₁)))
    (hf : Runs (fun c => f c a) p₁ b p₂) : Runs (fun c => x >>= f c) p b p₂ :=
  hf.imp fun _ hc => (Fuel.Comp.bind_apply hx _).trans hc

/-- A call of the table, then the rest. -/
lemma call {x : Calls σ → ParseM σ α} {f : Calls σ → α → ParseM σ β} (hx : Runs x p a p₁)
    (hf : Runs (fun c => f c a) p₁ b p₂) : Runs (fun c => x c >>= f c) p b p₂ :=
  Fuel.Settles.bind hx hf

/-- A token that is in front is consumed. -/
lemma expect {type : TokenType} {msg : String} {f : Calls σ → Token → ParseM σ β}
    (h : p.window0.type = type) (hf : Runs (fun c => f c p.window0) p.bump b p₂) :
    Runs (fun c => Parser.expect type msg >>= f c) p b p₂ :=
  hf.imp fun _ hc => expect_bind type msg _ |>.mpr ⟨h, hc⟩

lemma matched {type : TokenType} {f : Calls σ → Bool → ParseM σ β} (h : p.window0.type = type)
    (hf : Runs (fun c => f c true) p.bump b p₂) :
    Runs (fun c => matchToken type >>= f c) p b p₂ :=
  hf.imp fun _ hc => by rw [matchToken_bind, if_pos h, hc]

lemma unmatched {type : TokenType} {f : Calls σ → Bool → ParseM σ β} (h : p.window0.type ≠ type)
    (hf : Runs (fun c => f c false) p b p₂) :
    Runs (fun c => matchToken type >>= f c) p b p₂ :=
  hf.imp fun _ hc => by rw [matchToken_bind, if_neg h, hc]

lemma checked {type : TokenType} {f : Calls σ → Bool → ParseM σ β} (h : p.window0.type = type)
    (hf : Runs (fun c => f c true) p b p₂) : Runs (fun c => check type >>= f c) p b p₂ :=
  hf.imp fun _ hc => by rw [check_bind, beq_iff_eq.mpr h, hc]

lemma unchecked {type : TokenType} {f : Calls σ → Bool → ParseM σ β} (h : p.window0.type ≠ type)
    (hf : Runs (fun c => f c false) p b p₂) : Runs (fun c => check type >>= f c) p b p₂ :=
  hf.imp fun _ hc => by rw [check_bind, beq_eq_false_iff_ne.mpr h, hc]

lemma same {x : Calls σ → ParseM σ α} {a b : α} (h : Runs x p a p₁) (ha : a = b) (hp : p₁ = p₂) :
    Runs x p b p₂ := by
  rwa [← ha, ← hp]

lemma done {a b : α} (ha : a = b) (hp : p = p₁) :
    Runs (fun _ => (Pure.pure a : ParseM σ α)) p b p₁ := by
  rw [ha, hp]
  exact pure b

/-- A node is created where there is room. -/
lemma created {kind : NodeKind} {offset len : ℕ} {f : Calls σ → NodeId → ParseM σ β}
    (hroom : p.tree.length < kNullNode)
    (hf : Runs (fun c => f c p.tree.length)
      (p.push [{ kind, sourceOffset := offset, sourceLength := len }]) b p₂) :
    Runs (fun c => createNode kind offset len >>= f c) p b p₂ :=
  hf.imp fun _ hc => (createNode_bind kind offset len _).mpr ⟨hroom, hc⟩

/-- A node that is created and written. -/
lemma node {kind : NodeKind} {offset len : ℕ} {data : Data} {f : Calls σ → NodeId → ParseM σ β}
    (hroom : p.tree.length < kNullNode)
    (hf : Runs (fun c => f c p.tree.length)
      (p.push [{ kind, sourceOffset := offset, sourceLength := len, data }]) b p₂) :
    Runs (fun c => createNode kind offset len >>= fun id => setData id data >>= fun _ => f c id)
      p b p₂ :=
  hf.imp fun _ hc => (createNode_setData_bind kind offset len data _).mpr ⟨hroom, hc⟩

lemma tokenNode {kind : NodeKind} {tok : Token} {f : Calls σ → NodeId → ParseM σ β}
    (hroom : p.tree.length < kNullNode)
    (hf : Runs (fun c => f c p.tree.length) (p.push [LogicCompiler.tokenNode kind tok]) b p₂) :
    Runs (fun c => createTokenNode kind tok >>= f c) p b p₂ :=
  hf.imp fun _ hc => (createTokenNode_bind kind tok _).mpr ⟨hroom, hc⟩

/-- A node whose qualifiers are written as well. -/
lemma both {kind : NodeKind} {offset len : ℕ} {q : Qualifiers} {data : Data}
    {f : Calls σ → NodeId → ParseM σ β} (hroom : p.tree.length < kNullNode)
    (hf : Runs (fun c => f c p.tree.length)
      (p.push [{ kind, qualifiers := q, sourceOffset := offset, sourceLength := len, data }]) b p₂) :
    Runs (fun c => createNode kind offset len >>= fun id => setQualifiers id q >>= fun _ =>
      setData id data >>= fun _ => f c id) p b p₂ :=
  hf.imp fun _ hc => (createNode_setBoth_bind kind offset len q data _).mpr ⟨hroom, hc⟩

end Runs

end Steps

end Parser

end LogicCompiler
