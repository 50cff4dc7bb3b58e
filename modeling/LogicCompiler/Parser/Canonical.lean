import LogicCompiler.Parser.Brackets

/-!
# The reading the parser chooses

The grammar is ambiguous: a `;` can be missing, an `else` can belong to several `if`s, and what is
a declaration depends on two tokens only.  `Canonical` singles out the syntax that the parser
makes of its tokens, as a property of the syntax and of the token behind it.  Operands are grouped
by precedence, no part is left out that the next token would begin, and no expression starts like
another form of statement.
-/

namespace LogicCompiler

open TokenType NodeKind Cat LogicCompiler.Parser

/-- The categories of expressions and their arguments. -/
def Cat.operand : Cat → Bool
  | expr => true
  | opt k | list k => k.operand
  | led types k => Eof ∉ types && k.operand
  | seq k l => k.operand && l.operand
  | _ => false

/-- The first of some tokens, `next` when there is none. -/
def firstToken (ts : List Token) (next : Token) : Token := ts.headD next

section FirstToken

variable {t next : Token} {ts us : List Token}

@[simp] lemma firstToken_nil : firstToken [] next = next := rfl

@[simp] lemma firstToken_cons : firstToken (t :: ts) next = t := rfl

@[simp] lemma firstToken_append :
    firstToken (ts ++ us) next = firstToken ts (firstToken us next) := by
  cases ts <;> rfl

end FirstToken

/-- The token neither continues an expression nor is an operator behind one. -/
def EndsExpression (t : Token) : Prop := t.type ∉ postfixStarts ∧ getPrecedence t.type = 0

/-- The tokens in front of an expression statement: no block and no declaration begins there. -/
def BeginsExpression : List Token → Prop
  | t :: u :: _ => t.type ∉ [BrLeft, kByte] ∧ (t.type = Ident → u.type ≠ Ident)
  | _ => False

/-- A `;` is left out only where none stands. -/
def Terminated (semi : Option (Tok Semi)) (next : Token) : Prop := semi = none → next.type ≠ Semi

/-- A declaration has a type of its own unless it is declared with `auto`. -/
def Typed {α : Type} (q : QualifierTokens) (type : Option α) : Prop :=
  q.value.isAuto = true ↔ type = none

/-- The word `using`, which is not a keyword. -/
def IsUsing (src : List Byte) (t : Token) : Prop :=
  t.type = Ident ∧ (src.drop t.globalOffset).take t.size = bytes "using"

namespace Syn

/-- A body in braces, which is there when a brace is. -/
def IsBody : Syn (opt stmt) → Token → Prop
  | none, next => next.type ≠ BrLeft
  | some s, next => (firstToken s.tokens next).type = BrLeft

/-- The body of a function, if it has one, is in braces. -/
def IsFunctionBody : Syn (orSemi stmt) → Prop
  | bare _ => True
  | full s => ∃ t ts, s.tokens = t :: ts ∧ t.type = BrLeft

/-- The base of a type is read by what introduces it. -/
def IsBase (src : List Byte) : Syn (opt Cat.base) → Token → Prop
  | none, next => next.type ∉ [Equals, Colon] ∧ ¬ IsUsing src next
  | some (led t e), next =>
      (t.1.type = Equals → getPrecedence next.type = 0) ∧
      (t.1.type ≠ Equals → 12 ≤ e.level) ∧
      (t.1.type = Ident → IsUsing src t.1) ∧ next.type ∉ postfixStarts

/-- The first parameter is not taken for the end of the list. -/
def IsParameters : Syn (opt (commaList param)) → Token → Prop
  | none, _ => True
  | some s, next => (firstToken s.tokens next).type ≠ Right

/-- The parser, in front of the tokens of `s` and then of `next`, reads `s`. -/
def Canonical (src : List Byte) : {k : Cat} → Syn k → Token → Prop
  | _, pre _ e, next => 12 ≤ e.level ∧ e.Canonical src next
  | _, eval s, next => s.Canonical src next
  | _, cast _ d r, _ => d.Canonical src r.1
  | _, blockExpr b, next => b.Canonical src next
  | _, paren _ e r, _ => e.Canonical src r.1
  | _, call f l args r, _ => 13 ≤ f.level ∧ f.Canonical src l.1 ∧ args.Canonical src r.1
  | _, member e op _, _ => 13 ≤ e.level ∧ e.Canonical src op.1
  | _, index e l i r, _ => 13 ≤ e.level ∧ e.Canonical src l.1 ∧ i.Canonical src r.1
  | _, post e op, _ => 13 ≤ e.level ∧ e.Canonical src op.1
  | _, binary lhs op rhs, next =>
      getPrecedence op.1.type ≤ lhs.level ∧ getPrecedence op.1.type < rhs.level ∧
        lhs.Canonical src op.1 ∧ rhs.Canonical src next
  | _, block _ b, next => b.Canonical src next
  | _, ifStmt _ s, next => s.Canonical src next
  | _, whileStmt _ _ _ cond r body, next => cond.Canonical src r.1 ∧ body.Canonical src next
  | _, forStmt _ _ _ init cond semi incr r body, next =>
      init.Canonical src (firstToken cond.tokens semi.1) ∧ cond.Canonical src semi.1 ∧
        incr.Canonical src r.1 ∧ body.Canonical src next
  | _, returnStmt _ _ e semi, _ => e.Canonical src semi.1
  | _, structDecl _ _ _ body semi, next =>
      body.Canonical src (firstToken (optToken semi) next) ∧
        body.IsBody (firstToken (optToken semi) next) ∧ Terminated semi next
  | _, namespaceDecl _ _ _ body, next => body.Canonical src next
  | _, deleteStmt _ d semi, next =>
      d.Canonical src (firstToken (optToken semi) next) ∧ Terminated semi next
  | _, requires _ _ _ e semi, next =>
      e.Canonical src (firstToken (optToken semi) next) ∧
        EndsExpression (firstToken (optToken semi) next) ∧ Terminated semi next
  | _, typeDecl _ _ _ base body semi, next =>
      base.Canonical src (firstToken (body.tokens ++ optToken semi) next) ∧
        base.IsBase src (firstToken (body.tokens ++ optToken semi) next) ∧
        body.Canonical src (firstToken (optToken semi) next) ∧
        body.IsBody (firstToken (optToken semi) next) ∧ Terminated semi next
  | _, functionDecl q type _ _ params r body, next =>
      Typed q type ∧ params.Canonical src r.1 ∧ params.IsParameters r.1 ∧
        body.Canonical src next ∧ body.IsFunctionBody
  | _, varDecl q type _ init semi, _ => Typed q type ∧ init.Canonical src semi.1
  | _, exprStmt q e semi, next =>
      q.value.isAuto = false ∧ e.Canonical src (firstToken (optToken semi) next) ∧
        EndsExpression (firstToken (optToken semi) next) ∧ Terminated semi next ∧
        BeginsExpression (e.tokens ++ (optToken semi ++ [next]))
  | _, delete _ _ target, next =>
      12 ≤ target.level ∧ target.Canonical src next ∧ next.type ∉ postfixStarts
  | _, conditional _ _ cond r thenBlock elseBlock, next =>
      cond.Canonical src r.1 ∧ thenBlock.Canonical src (firstToken elseBlock.tokens next) ∧
        elseBlock.Canonical src next ∧ (elseBlock.tokens = [] → next.type ≠ kElse)
  | _, braced _ body r, _ => body.Canonical src r.1
  | _, parameter q type name init, next =>
      Typed q type ∧ (type = Option.none → name ≠ Option.none) ∧
        (∀ t ∈ type, t.type ∉ qualifierTypes) ∧
        (name = Option.none → (firstToken init.tokens next).type ≠ Ident) ∧ init.Canonical src next
  | _, some s, next => s.Canonical src next
  | _, cons s rest, next => s.Canonical src (firstToken rest.tokens next) ∧ rest.Canonical src next
  | _, led _ s, next => s.Canonical src next
  | _, seq s t, next => s.Canonical src (firstToken t.tokens next) ∧ t.Canonical src next
  | _, full s, next => s.Canonical src next
  | _, _, _ => True

end Syn

end LogicCompiler
