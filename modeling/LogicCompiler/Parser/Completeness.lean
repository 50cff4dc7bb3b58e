import LogicCompiler.Parser.Statements

/-!
# Every canonical piece of syntax is parsed

The whole grammar: one induction on the number of tokens, with one case for each form of expression
and of statement.
-/

namespace LogicCompiler

open TokenType NodeKind Cat

variable {σ : Type} [TokenSource σ]

namespace Parser

/-- **Every canonical expression and every canonical statement is found by the parser.** -/
theorem found_all (n : ℕ) : (∀ e : Syn expr, e.tokens.length = n → Found σ e) ∧
    ∀ s : Syn stmt, s.tokens.length = n → FindsStatement σ s := by
  induction n using Nat.strong_induction_on with
  | _ n ih =>
    have hx : ∀ e : Syn expr, e.tokens.length < n → Found σ e := fun e he => (ih _ he).1 e rfl
    have hs : ∀ s : Syn stmt, s.tokens.length < n → FindsStatement σ s :=
      fun s hs => (ih _ hs).2 s rfl
    have hexpr : ∀ e : Syn expr, e.tokens.length = n → Found σ e := by
      rintro e rfl
      cases e with
      | pre op e => exact found_pre op (hx e (by simp [Syn.tokens]))
      | literal t => exact found_literal t
      | ident t => exact found_ident t
      | eval s => exact found_eval hx hs s le_rfl
      | cast l d r => exact found_cast hx l d r (by grind [Syn.tokens])
      | blockExpr b => exact found_blockExpr hs b le_rfl
      | paren l e r => exact found_paren l r (hx e (by grind [Syn.tokens]))
      | call f l args r =>
          simp only [Syn.tokens, List.length_cons, List.length_append] at hx
          exact found_call l args r (hx f (by omega)) fun x h => hx x (by omega)
      | member e op name => exact found_member op name (hx e (by simp [Syn.tokens]))
      | index e l i r =>
          exact found_index l r (hx e (by simp [Syn.tokens])) (hx i (by grind [Syn.tokens]))
      | post e op => exact found_post op (hx e (by simp [Syn.tokens]))
      | binary lhs op rhs =>
          exact found_binary op (hx lhs (by simp [Syn.tokens])) (hx rhs (by grind [Syn.tokens]))
    refine ⟨hexpr, ?_⟩
    rintro s rfl
    cases s with
    | block q b => exact finds_blockStmt hs b (by simp [Syn.tokens])
    | ifStmt q s => exact finds_ifStmt hx hs s (by simp [Syn.tokens])
    | whileStmt q k l cond r body =>
        exact finds_whileStmt hx hs k l cond r body (by grind [Syn.tokens])
          (by grind [Syn.tokens])
    | forStmt q k l init cond semi incr r body =>
        exact finds_forStmt hx hs k l init cond semi incr r body (by grind [Syn.tokens])
          (by grind [Syn.tokens]) (by simp [Syn.tokens]; omega) (by simp [Syn.tokens]; omega)
    | returnStmt q k e semi => exact finds_returnStmt hx k e semi (by grind [Syn.tokens])
    | jump q k semi => exact finds_jump k semi
    | structDecl q k name body semi =>
        exact finds_structDecl hs k name body semi (by grind [Syn.tokens])
    | namespaceDecl q k name body =>
        exact finds_namespaceDecl hs k name body (by grind [Syn.tokens])
    | deleteStmt q d semi => exact finds_deleteStmt hx d semi (by grind [Syn.tokens])
    | requires q k colon e semi =>
        exact finds_requires hx k colon e semi (by grind [Syn.tokens])
    | typeDecl q k name base body semi =>
        exact finds_typeDecl hx hs k name base body semi (by grind [Syn.tokens])
          (by grind [Syn.tokens])
    | functionDecl q type name l params r body =>
        exact finds_functionDecl hx hs type name l params r body (by grind [Syn.tokens])
          (by grind [Syn.tokens])
    | varDecl q type name init semi =>
        exact finds_varDecl hx type name init semi (by grind [Syn.tokens])
    | exprStmt q e semi =>
        refine finds_exprStmt e semi ?_
        rcases Nat.lt_or_ge e.tokens.length (Syn.exprStmt q e semi).tokens.length with h | h
        · exact hx e h
        · refine hexpr e (le_antisymm ?_ h)
          simp [Syn.tokens]
          omega

lemma found (e : Syn expr) : Found σ e := (found_all _).1 e rfl

/-- A canonical statement in front of the parser is what `parseStatement` returns. -/
theorem finds_statement (s : Syn stmt) : FindsStatement σ s := (found_all _).2 s rfl
/-! ## Simple expressions -/

/-- The parser finds `s` wherever its tokens are in front. -/
structure Completes (σ : Type) [TokenSource σ] (s : Syn expr) : Prop where
  primary {p p' : Parser σ} {w : Lookahead σ} {id : NodeId} (hlevel : 13 ≤ s.level)
    (hr : Reads p.toLookahead s.tokens w) (hroom : p.tree.length + s.size ≤ kNullNode)
    (hpost : Runs (fun c => c.parsePostfixExpression (s.root p.tree.length)) (p.along s w) id p') :
    Runs (fun c => c.parsePrimaryExpression) p id p'
  operand {p : Parser σ} {w : Lookahead σ} (hlevel : 12 ≤ s.level)
    (hr : Reads p.toLookahead s.tokens w) (hroom : p.tree.length + s.size ≤ kNullNode)
    (hstop : w.window0.type ∉ postfixStarts) :
    Runs (fun c => c.parsePrimaryExpression) p (s.root p.tree.length) (p.along s w)
  expression {m : ℕ} {p p' : Parser σ} {w : Lookahead σ} {id : NodeId} (hm : m ≤ s.level)
    (hr : Reads p.toLookahead s.tokens w) (hroom : p.tree.length + s.size ≤ kNullNode)
    (hstop : Stops s w)
    (hloop : Runs (fun c => c.binaryLoop m (s.root p.tree.length)) (p.along s w) id p') :
    Runs (fun c => c.parseExpression m) p id p'

/-- An expression in front of a token that ends every expression. -/
lemma Completes.whole {s : Syn expr} (h : Completes σ s) {p : Parser σ} {w : Lookahead σ}
    (hr : Reads p.toLookahead s.tokens w) (hroom : p.tree.length + s.size ≤ kNullNode)
    (hpost : w.window0.type ∉ postfixStarts) (hprec : getPrecedence w.window0.type = 0) :
    Runs (fun c => c.parseExpression 0) p (s.root p.tree.length) (p.along s w) :=
  h.expression (Nat.zero_le _) hr hroom ⟨hpost, by omega⟩ (binary_stops (Or.inr hprec))

/-- A simple expression that is grouped is canonical in front of every token. -/
lemma canonical_of_simple {src : List Byte} {k : Cat} (s : Syn k) (hk : k.operand = true)
    (hg : s.Grouped) (hs : Simple s.tokens) (next : Token) : s.Canonical src next := by
  induction s generalizing next with
  | pre op e ih =>
      simp only [Syn.tokens, simple_cons] at hs
      exact ⟨hg.1, ih rfl hg.2 hs.2 _⟩
  | literal t => trivial
  | ident t => trivial
  | eval s => exact absurd hs (not_simple_eval s)
  | cast l d r => exact absurd hs (not_simple_cast l d r)
  | blockExpr b => exact absurd hs (not_simple_blockExpr b)
  | paren l e r ih =>
      simp only [Syn.tokens, simple_cons, simple_append] at hs
      exact ih rfl hg hs.2.1 _
  | call f l args r ihf iha =>
      simp only [Syn.tokens, simple_cons, simple_append] at hs
      exact ⟨hg.1, ihf rfl hg.2.1 hs.1 _, iha (by decide) hg.2.2 hs.2.2.1 _⟩
  | member e op name ih =>
      simp only [Syn.tokens, simple_append] at hs
      exact ⟨hg.1, ih rfl hg.2 hs.1 _⟩
  | index e l i r ihe ihi =>
      simp only [Syn.tokens, simple_cons, simple_append] at hs
      exact ⟨hg.1, ihe rfl hg.2.1 hs.1 _, ihi rfl hg.2.2 hs.2.2.1 _⟩
  | post e op ih =>
      simp only [Syn.tokens, simple_append] at hs
      exact ⟨hg.1, ih rfl hg.2 hs.1 _⟩
  | binary lhs op rhs ihl ihr =>
      simp only [Syn.tokens, simple_cons, simple_append] at hs
      exact ⟨hg.1, hg.2.1, ihl rfl hg.2.2.1 hs.1 _, ihr rfl hg.2.2.2 hs.2.2 _⟩
  | none => trivial
  | some s ih => exact ih hk hg hs _
  | nil => trivial
  | cons s rest ihs ihr =>
      simp only [Syn.tokens, simple_append] at hs
      exact ⟨ihs hk hg.1 hs.1 _, ihr hk hg.2 hs.2 _⟩
  | led t s ih =>
      simp only [Cat.operand, Bool.and_eq_true] at hk
      simp only [Syn.tokens, simple_cons] at hs
      exact ih hk.2 hg hs.2 _
  | seq s t ihs iht =>
      simp only [Cat.operand, Bool.and_eq_true] at hk
      simp only [Syn.tokens, simple_append] at hs
      exact ⟨ihs hk.1 hg.1 hs.1 _, iht hk.2 hg.2 hs.2 _⟩
  | _ => simp [Cat.operand] at hk

/-- **Grouped expressions are found by the parser.** -/
theorem completes (s : Syn expr) (hg : s.Grouped) (hs : Simple s.tokens) : Completes σ s where
  primary hlevel hr hroom hpost :=
    (found s).primary hlevel ⟨hr, canonical_of_simple s rfl hg hs _, hroom⟩ hpost
  operand hlevel hr hroom hstop :=
    (found s).operand hlevel ⟨hr, canonical_of_simple s rfl hg hs _, hroom⟩ hstop
  expression hm hr hroom hstop hloop :=
    (found s).expression hm ⟨hr, canonical_of_simple s rfl hg hs _, hroom⟩ hstop hloop

end Parser

end LogicCompiler
