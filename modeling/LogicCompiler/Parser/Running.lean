import LogicCompiler.Parser.Syntax

/-!
# Running the parser

How the primitives of the parser act when a production calls them, in the form the proofs about
productions use: a primitive in front of a continuation is rewritten away.  The parser's state
moves in two ways only, `bump` over a token and `push` of nodes.
-/

namespace LogicCompiler

open TokenType NodeKind

/-- `w` gives the tokens `ts` one after the other and is `w'` then. -/
inductive Reads {σ : Type} [TokenSource σ] : Lookahead σ → List Token → Lookahead σ → Prop
  | nil (w : Lookahead σ) : Reads w [] w
  | cons {w w' : Lookahead σ} {ts : List Token} :
      Reads w.advance ts w' → Reads w (w.window0 :: ts) w'

variable {σ : Type} [TokenSource σ]

namespace Reads

variable {w w₁ w₂ : Lookahead σ} {ts us : List Token}

/-- Tokens that are read one piece behind the other. -/
lemma append (h₁ : Reads w ts w₁) (h₂ : Reads w₁ us w₂) : Reads w (ts ++ us) w₂ := by
  induction h₁ with
  | nil => exact h₂
  | cons _ ih => exact Reads.cons (ih h₂)

/-- The token in front is read by advancing. -/
lemma single (w : Lookahead σ) : Reads w [w.window0] w.advance := Reads.cons (Reads.nil _)

/-- The first token that is read stands where the lookahead did. -/
lemma firstOffset (h : Reads w ts w₁) :
    firstOffset ts w₁.window0.globalOffset = w.window0.globalOffset := by
  cases h <;> rfl

/-- Reading a list is reading its first token, then the rest. -/
lemma cons_iff {t : Token} :
    Reads w (t :: ts) w₁ ↔ w.window0 = t ∧ Reads w.advance ts w₁ := by
  constructor
  · intro h
    cases h with
    | cons h => exact ⟨rfl, h⟩
  · rintro ⟨rfl, h⟩
    exact Reads.cons h

@[simp] lemma nil_iff : Reads w [] w₁ ↔ w₁ = w := by
  constructor
  · intro h
    cases h
    rfl
  · rintro rfl
    exact Reads.nil _

/-- Reading two lists is reading one behind the other. -/
lemma append_iff : Reads w (ts ++ us) w₂ ↔ ∃ w₁, Reads w ts w₁ ∧ Reads w₁ us w₂ := by
  constructor
  · intro h
    induction ts generalizing w with
    | nil => exact ⟨w, Reads.nil w, h⟩
    | cons t ts ih =>
        rw [List.cons_append, cons_iff] at h
        rcases ih h.2 with ⟨w₁, h₁, h₂⟩
        exact ⟨w₁, cons_iff.mpr ⟨h.1, h₁⟩, h₂⟩
  · rintro ⟨w₁, h₁, h₂⟩
    exact h₁.append h₂

/-- The tokens read determine where reading ends. -/
lemma unique (h : Reads w ts w₁) (h' : Reads w ts w₂) : w₁ = w₂ := by
  induction h with
  | nil => exact (nil_iff.mp h').symm
  | cons _ ih => exact ih (cons_iff.mp h').2

end Reads

namespace Parser

/-- The parser behind its current token. -/
def bump (p : Parser σ) : Parser σ := { p with toLookahead := p.toLookahead.advance }

/-- The parser with some nodes appended to its arena. -/
def push (p : Parser σ) (ns : List Node) : Parser σ := { p with tree := p.tree ++ ns }

section Fields

variable (p : Parser σ) (ns ms : List Node)

@[simp] lemma bump_toLookahead : p.bump.toLookahead = p.toLookahead.advance := rfl
@[simp] lemma bump_tree : p.bump.tree = p.tree := rfl
@[simp] lemma bump_source : p.bump.source = p.source := rfl

omit [TokenSource σ] in
@[simp] lemma push_toLookahead : (p.push ns).toLookahead = p.toLookahead := rfl

omit [TokenSource σ] in
@[simp] lemma push_tree : (p.push ns).tree = p.tree ++ ns := rfl

omit [TokenSource σ] in
@[simp] lemma push_source : (p.push ns).source = p.source := rfl

omit [TokenSource σ] in
@[simp] lemma push_push : (p.push ns).push ms = p.push (ns ++ ms) := by
  simp [push]

end Fields

/-! ## Primitives in front of a continuation -/

section Primitives

variable {α β : Type} {p : Parser σ} {r : α × Parser σ}

omit [TokenSource σ] in
@[simp] lemma peek_bind (f : Token → ParseM σ α) : (peek >>= f) p = f p.window0 p := rfl

omit [TokenSource σ] in
@[simp] lemma peekType1_bind (f : TokenType → ParseM σ α) :
    (peekType1 >>= f) p = f p.window1.type p := rfl

@[simp] lemma advance_bind (f : Token → ParseM σ α) :
    (advance >>= f) p = f p.window0 p.bump := rfl

@[simp] lemma advance_apply : advance p = some (.ok (p.window0, p.bump)) := rfl

omit [TokenSource σ] in
@[simp] lemma check_bind (type : TokenType) (f : Bool → ParseM σ α) :
    (check type >>= f) p = f (p.window0.type == type) p := rfl

omit [TokenSource σ] in
@[simp] lemma checkAny_bind (types : List TokenType) (f : Bool → ParseM σ α) :
    (checkAny types >>= f) p = f (types.contains p.window0.type) p := rfl

omit [TokenSource σ] in
@[simp] lemma raiseError_apply (tok : Token) (msg : String) :
    (raiseError tok msg : ParseM σ α) p = some (.error (.syntaxError (errorText p.source tok msg))) :=
  rfl

@[simp] lemma matchToken_bind (type : TokenType) (f : Bool → ParseM σ α) :
    (matchToken type >>= f) p =
      if p.window0.type = type then f true p.bump else f false p := by
  rw [Fuel.Comp.bind_eq]
  by_cases h : p.window0.type = type <;> simp [matchToken, h]

@[simp] lemma expect_bind (type : TokenType) (msg : String) (f : Token → ParseM σ α) :
    (expect type msg >>= f) p = some (.ok r) ↔
      p.window0.type = type ∧ f p.window0 p.bump = some (.ok r) := by
  rw [Fuel.Comp.bind_eq]
  by_cases h : p.window0.type = type <;> simp [expect, h]

/-! Creating a node and writing it, which a production always does together. -/

omit [TokenSource σ] in
/-- A node that is created takes the next id, and the arena has room for it. -/
lemma createNode_bind (kind : NodeKind) (offset len : ℕ) (f : NodeId → ParseM σ α) :
    (createNode kind offset len >>= f) p = some (.ok r) ↔
      p.tree.length < kNullNode ∧
        f p.tree.length (p.push [{ kind, sourceOffset := offset, sourceLength := len }])
          = some (.ok r) := by
  rw [Fuel.Comp.bind_eq, createNode, ASTTree.createNode]
  by_cases h : p.tree.length < kNullNode <;> simp [h, push]

/-- The element behind a list is the one at its length. -/
lemma modify_append_length (l ms : List Node) (a : Node) (g : Node → Node) :
    (l ++ a :: ms).modify l.length g = l ++ g a :: ms := by
  induction l with
  | nil => rfl
  | cons b l ih => simp [ih]

omit [TokenSource σ] in
/-- Writing to a node behind which `ms` have been appended since. -/
@[simp] lemma setData_push_bind (a : Node) (ms : List Node) (data : Data)
    (f : Unit → ParseM σ α) :
    (setData p.tree.length data >>= f) (p.push (a :: ms)) =
      f () (p.push ({ a with data } :: ms)) := by
  show f () _ = _
  simp only [push, modify_append_length]

omit [TokenSource σ] in
@[simp] lemma setQualifiers_push_bind (a : Node) (ms : List Node) (q : Qualifiers)
    (f : Unit → ParseM σ α) :
    (setQualifiers p.tree.length q >>= f) (p.push (a :: ms)) =
      f () (p.push ({ a with qualifiers := q } :: ms)) := by
  show f () _ = _
  simp only [push, modify_append_length]

omit [TokenSource σ] in
@[simp] lemma createTokenNode_bind (kind : NodeKind) (tok : Token) (f : NodeId → ParseM σ α) :
    (createTokenNode kind tok >>= f) p = some (.ok r) ↔
      p.tree.length < kNullNode ∧
        f p.tree.length (p.push [tokenNode kind tok]) = some (.ok r) := by
  rw [Fuel.Comp.bind_eq_ok]
  simp only [createTokenNode, createNode_bind, setData_push_bind, Fuel.Comp.pure_apply,
    Option.some.injEq, Except.ok.injEq, Prod.mk.injEq]
  constructor
  · rintro ⟨id, p', ⟨hroom, rfl, rfl⟩, hf⟩
    exact ⟨hroom, hf⟩
  · rintro ⟨hroom, hf⟩
    exact ⟨_, _, ⟨hroom, rfl, rfl⟩, hf⟩

omit [TokenSource σ] in
@[simp] lemma createNode_setData_bind (kind : NodeKind) (offset len : ℕ) (data : Data)
    (f : NodeId → ParseM σ α) :
    (createNode kind offset len >>= fun id => setData id data >>= fun _ => f id) p
        = some (.ok r) ↔
      p.tree.length < kNullNode ∧
        f p.tree.length
          (p.push [{ kind, sourceOffset := offset, sourceLength := len, data }])
          = some (.ok r) := by
  rw [createNode_bind, setData_push_bind]

omit [TokenSource σ] in
@[simp] lemma createNode_setBoth_bind (kind : NodeKind) (offset len : ℕ) (q : Qualifiers)
    (data : Data) (f : NodeId → ParseM σ α) :
    (createNode kind offset len >>= fun id =>
        setQualifiers id q >>= fun _ => setData id data >>= fun _ => f id) p
        = some (.ok r) ↔
      p.tree.length < kNullNode ∧
        f p.tree.length
          (p.push [{ kind, qualifiers := q, sourceOffset := offset, sourceLength := len, data }])
          = some (.ok r) := by
  rw [createNode_bind, setQualifiers_push_bind, setData_push_bind]

end Primitives

omit [TokenSource σ] in
/-- The three nodes of a declaration. -/
lemma createDecl_eq {p : Parser σ} {r : NodeId × Parser σ} (kind : NodeKind) (q : Qualifiers)
    (typeTok nameTok : Token) (initExpr : NodeId) :
    createDecl kind q typeTok nameTok initExpr p = some (.ok r) ↔
      p.tree.length + 2 < kNullNode ∧
        r = (p.tree.length,
          p.push (declNodes kind q typeTok nameTok p.tree.length initExpr)) := by
  simp only [createDecl, createNode_bind, createTokenNode_bind, push_push, push_tree,
    List.length_append, List.length_cons, List.length_nil, List.cons_append, List.nil_append,
    setQualifiers_push_bind, setData_push_bind, Fuel.Comp.pure_apply, Option.some.injEq,
    Except.ok.injEq, declNodes, plainNode]
  constructor
  · rintro ⟨-, -, h, rfl⟩
    exact ⟨h, rfl⟩
  · rintro ⟨h, rfl⟩
    exact ⟨by omega, by omega, h, rfl⟩

/-! ## Monotonicity -/

/-- A table is below another one when each of its calls is. -/
structure Calls.Le (c d : Calls σ) : Prop where
  parseStatement : c.parseStatement ≤ d.parseStatement
  parseExpression : ∀ m, c.parseExpression m ≤ d.parseExpression m
  parsePrimaryExpression : c.parsePrimaryExpression ≤ d.parsePrimaryExpression
  parsePostfixExpression : ∀ e, c.parsePostfixExpression e ≤ d.parsePostfixExpression e
  binaryLoop : ∀ m e, c.binaryLoop m e ≤ d.binaryLoop m e
  argumentLoop : c.argumentLoop ≤ d.argumentLoop
  parameterLoop : c.parameterLoop ≤ d.parameterLoop
  blockLoop : c.blockLoop ≤ d.blockLoop
  qualifierLoop : ∀ q, c.qualifierLoop q ≤ d.qualifierLoop q
  unitLoop : c.unitLoop ≤ d.unitLoop

instance : Preorder (Calls σ) where
  le := Calls.Le
  le_refl _ :=
    ⟨le_rfl, fun _ => le_rfl, le_rfl, fun _ => le_rfl, fun _ _ => le_rfl, le_rfl, le_rfl, le_rfl,
      fun _ => le_rfl, le_rfl⟩
  le_trans _ _ _ h h' :=
    ⟨h.1.trans h'.1, fun m => (h.2 m).trans (h'.2 m), h.3.trans h'.3,
      fun e => (h.4 e).trans (h'.4 e), fun m e => (h.5 m e).trans (h'.5 m e), h.6.trans h'.6,
      h.7.trans h'.7, h.8.trans h'.8, fun q => (h.9 q).trans (h'.9 q), h.10.trans h'.10⟩

section Monotone

open Fuel

omit [TokenSource σ] in
/-- A call is monotone in the table it is looked up in. -/
lemma monotone_calls :
    (Monotone fun c : Calls σ => c.parseStatement) ∧
    (∀ m, Monotone fun c : Calls σ => c.parseExpression m) ∧
    (Monotone fun c : Calls σ => c.parsePrimaryExpression) ∧
    (∀ e, Monotone fun c : Calls σ => c.parsePostfixExpression e) ∧
    (∀ m e, Monotone fun c : Calls σ => c.binaryLoop m e) ∧
    (Monotone fun c : Calls σ => c.argumentLoop) ∧
    (Monotone fun c : Calls σ => c.parameterLoop) ∧
    (Monotone fun c : Calls σ => c.blockLoop) ∧
    (∀ q, Monotone fun c : Calls σ => c.qualifierLoop q) ∧
    (Monotone fun c : Calls σ => c.unitLoop) :=
  ⟨fun _ _ h => h.1, fun m _ _ h => h.2 m, fun _ _ h => h.3, fun e _ _ h => h.4 e,
    fun m e _ _ h => h.5 m e, fun _ _ h => h.6, fun _ _ h => h.7, fun _ _ h => h.8,
    fun q _ _ h => h.9 q, fun _ _ h => h.10⟩

/-- A body only sequences and branches over its calls. -/
lemma monotone_productions : Monotone (productions : Calls σ → Calls σ) := by
  rcases monotone_calls (σ := σ) with
    ⟨hstmt, hexpr, hprimary, hpostfix, hbinary, hargs, hparams, hblock, hquals, hunit⟩
  have hall :
      (Monotone fun c : Calls σ => parseStatement c) ∧
      (∀ m, Monotone fun c : Calls σ => parseExpression c m) ∧
      (Monotone fun c : Calls σ => parsePrimaryExpression c) ∧
      (∀ e, Monotone fun c : Calls σ => parsePostfixExpression c e) ∧
      (∀ m e, Monotone fun c : Calls σ => binaryLoop c m e) ∧
      (Monotone fun c : Calls σ => argumentLoop c) ∧
      (Monotone fun c : Calls σ => parameterLoop c) ∧
      (Monotone fun c : Calls σ => blockLoop c) ∧
      (∀ q, Monotone fun c : Calls σ => qualifierLoop c q) ∧
      (Monotone fun c : Calls σ => unitLoop c) := by
    refine ⟨?_, fun m => ?_, ?_, fun e => ?_, fun m e => ?_, ?_, ?_, ?_, fun q => ?_, ?_⟩
    all_goals
      simp only [parseStatement, parseExpression, parsePrimaryExpression,
        parsePostfixExpression, binaryLoop, argumentLoop, parameterLoop, blockLoop, qualifierLoop,
        unitLoop, parseIfStatement, parseEvalExpression, parseElse, parseConditional,
        parseDeleteStatement, parseBlock, parseArguments, parseQualifiers, parseWhileStatement, parseUnless,
        parseForInit, parseForStatement, parseReturnStatement, parseOptionalBody,
        parseStructDecl, parseNamespaceDecl, parseInitialiser, parseParamDecl, parseParameters,
        parseFunctionBody, parseFunctionDecl, parseBase, parseTypeDecl, parseVarOrTypeDecl]
      repeat' first
        | exact monotone_const
        | exact hstmt
        | exact hexpr _
        | exact hprimary
        | exact hpostfix _
        | exact hbinary _ _
        | exact hargs
        | exact hparams
        | exact hblock
        | exact hquals _
        | exact hunit
        | refine monotone_bind ?_ fun _ => ?_
        | refine monotone_ite _ ?_ ?_
  rcases hall with ⟨h1, h2, h3, h4, h5, h6, h7, h8, h9, h10⟩
  exact fun _ _ h => ⟨h1 h, fun m => h2 m h, h3 h, fun e => h4 e h, fun m e => h5 m e h, h6 h,
    h7 h, h8 h, fun q => h9 q h, h10 h⟩

/-- More fuel changes no answer. -/
lemma monotone_calls_table : Monotone (parser : ℕ → Calls σ) :=
  monotone_tie monotone_productions
    ⟨Comp.spent_le _, fun _ => Comp.spent_le _, Comp.spent_le _, fun _ => Comp.spent_le _,
      fun _ _ => Comp.spent_le _, Comp.spent_le _, Comp.spent_le _, Comp.spent_le _,
      fun _ => Comp.spent_le _, Comp.spent_le _⟩

end Monotone

/-- One more level of fuel is one round of the productions. -/
lemma parser_succ (n : ℕ) : (parser (n + 1) : Calls σ) = productions (parser n) := rfl

end Parser

end LogicCompiler
