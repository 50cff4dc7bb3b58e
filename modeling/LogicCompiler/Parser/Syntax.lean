import LogicCompiler.Parser.Parser

/-!
# Concrete syntax

What the productions of the parser derive: a tree that keeps every token it is made of.  Each tree
determines three things, and they are all the parser leaves behind: the tokens it consumes, the
nodes it appends to the arena, and the id it returns.  Ids are relative to the number of nodes the
arena held before, `base`.  Three kinds of nodes record the offset of the token behind their last
one, which is the argument `next`.

Optional and repeated parts are categories of their own, so that all of syntax is one family and a
property of all parts of a program is proved by one induction.
-/

namespace LogicCompiler

open TokenType NodeKind LogicCompiler.Parser

/-- A token of one of the given types. -/
abbrev TokOf (types : List TokenType) := {t : Token // t.type ∈ types}

/-- A token of a given type. -/
abbrev Tok (type : TokenType) := {t : Token // t.type = type}

/-- A binary operator: a token with a precedence. -/
abbrev BinaryOp := {t : Token // 0 < getPrecedence t.type}

/-- The types of the qualifiers. -/
def qualifierTypes : List TokenType := [kConstexpr, kConst, kStatic, kInline, kAuto]

/-- The qualifiers in front of a declaration, in any order and number. -/
abbrev QualifierTokens := List (TokOf qualifierTypes)

/-- One iteration of `parseQualifiers`. -/
def Qualifiers.add (q : Qualifiers) : TokenType → Qualifiers
  | kConstexpr => { q with isConstexpr := true }
  | kConst => { q with isConst := true }
  | kStatic => { q with isStatic := true }
  | kInline => { q with isInline := true }
  | kAuto => { q with isAuto := true }
  | _ => q

/-- The flags that the qualifiers set. -/
def QualifierTokens.value (qs : QualifierTokens) : Qualifiers :=
  qs.foldl (fun q t => q.add t.1.type) {}

/-- The syntactic categories. -/
inductive Cat where
  | expr
  | stmt
  /-- `delete …`, as a statement or in parentheses -/
  | del
  /-- `eval` or `if`, its condition and its branches -/
  | conditional (keyword : TokenType)
  /-- statements in braces, as a statement or as an expression -/
  | braces
  | param
  /-- a part that may be missing -/
  | opt (k : Cat)
  | list (k : Cat)
  /-- a part behind a token -/
  | led (types : List TokenType) (k : Cat)
  | seq (k l : Cat)
  /-- a part that a `;` can stand for -/
  | orSemi (k : Cat)
  deriving DecidableEq

namespace Cat

/-- One or more parts, separated by commas. -/
abbrev commaList (k : Cat) : Cat := seq k (list (led [Comma] k))

/-- The base of a type, behind `=`, `:` or the identifier `using`. -/
abbrev base : Cat := led [Equals, Colon, Ident] expr

end Cat

open Cat

/-- Derivations: what the parser accepts, by category, with every token it consumes. -/
inductive Syn : Cat → Type
  -- expressions
  | pre (op : TokOf prefixOperators) (e : Syn expr) : Syn expr
  | literal (t : TokOf literals) : Syn expr
  | ident (t : TokOf identifiers) : Syn expr
  | eval (s : Syn (conditional kEval)) : Syn expr
  | cast (l : Tok Left) (d : Syn del) (r : Tok Right) : Syn expr
  | blockExpr (b : Syn braces) : Syn expr
  | paren (l : Tok Left) (e : Syn expr) (r : Tok Right) : Syn expr
  | call (f : Syn expr) (l : Tok Left) (args : Syn (opt (commaList expr))) (r : Tok Right) :
      Syn expr
  | member (e : Syn expr) (op : TokOf [Dot, Arrow]) (name : Tok Ident) : Syn expr
  | index (e : Syn expr) (l : Tok SqLeft) (i : Syn expr) (r : Tok SqRight) : Syn expr
  | post (e : Syn expr) (op : TokOf [PPlus, MMinus]) : Syn expr
  | binary (lhs : Syn expr) (op : BinaryOp) (rhs : Syn expr) : Syn expr
  -- statements
  | block (q : QualifierTokens) (b : Syn braces) : Syn stmt
  | ifStmt (q : QualifierTokens) (s : Syn (conditional kIf)) : Syn stmt
  | whileStmt (q : QualifierTokens) (k : Tok kWhile) (l : Tok Left) (cond : Syn expr)
      (r : Tok Right) (body : Syn stmt) : Syn stmt
  | forStmt (q : QualifierTokens) (k : Tok kFor) (l : Tok Left) (init : Syn (orSemi stmt))
      (cond : Syn (opt expr)) (semi : Tok Semi) (incr : Syn (opt expr)) (r : Tok Right)
      (body : Syn stmt) : Syn stmt
  | returnStmt (q : QualifierTokens) (k : Tok kReturn) (e : Syn (opt expr)) (semi : Tok Semi) :
      Syn stmt
  | jump (q : QualifierTokens) (k : TokOf [kBreak, kContinue]) (semi : Tok Semi) : Syn stmt
  | structDecl (q : QualifierTokens) (k : Tok kStruct) (name : Tok Ident) (body : Syn (opt stmt))
      (semi : Option (Tok Semi)) : Syn stmt
  | namespaceDecl (q : QualifierTokens) (k : Tok kNamespace) (name : Tok Ident)
      (body : Syn stmt) : Syn stmt
  | deleteStmt (q : QualifierTokens) (d : Syn del) (semi : Option (Tok Semi)) : Syn stmt
  | requires (q : QualifierTokens) (k : Tok kRequires) (colon : Tok Colon) (e : Syn expr)
      (semi : Option (Tok Semi)) : Syn stmt
  | typeDecl (q : QualifierTokens) (k : Tok kType) (name : Tok Ident) (base : Syn (opt base))
      (body : Syn (opt stmt)) (semi : Option (Tok Semi)) : Syn stmt
  | functionDecl (q : QualifierTokens) (type : Option (TokOf [kByte, Ident])) (name : Tok Ident)
      (l : Tok Left) (params : Syn (opt (commaList param))) (r : Tok Right)
      (body : Syn (orSemi stmt)) : Syn stmt
  | varDecl (q : QualifierTokens) (type : Option (TokOf [kByte, Ident])) (name : Tok Ident)
      (init : Syn (opt (led [Equals] expr))) (semi : Tok Semi) : Syn stmt
  | exprStmt (q : QualifierTokens) (e : Syn expr) (semi : Option (Tok Semi)) : Syn stmt
  -- parts of both
  | delete (k : Tok kDelete) (auto : Option (Tok kAuto)) (target : Syn expr) : Syn del
  | conditional {keyword : TokenType} (k : Tok keyword) (l : Tok Left) (cond : Syn expr)
      (r : Tok Right) (thenBlock : Syn stmt) (elseBlock : Syn (opt (led [kElse] stmt))) :
      Syn (conditional keyword)
  | braced (l : Tok BrLeft) (body : Syn (list stmt)) (r : Tok BrRight) : Syn braces
  | parameter (q : QualifierTokens) (type : Option Token) (name : Option (Tok Ident))
      (init : Syn (opt (led [Equals] expr))) : Syn param
  | none {k : Cat} : Syn (opt k)
  | some {k : Cat} (s : Syn k) : Syn (opt k)
  | nil {k : Cat} : Syn (list k)
  | cons {k : Cat} (s : Syn k) (rest : Syn (list k)) : Syn (list k)
  | led {types : List TokenType} {k : Cat} (t : TokOf types) (s : Syn k) : Syn (led types k)
  | seq {k l : Cat} (s : Syn k) (t : Syn l) : Syn (seq k l)
  | bare {k : Cat} (semi : Tok Semi) : Syn (orSemi k)
  | full {k : Cat} (s : Syn k) : Syn (orSemi k)

/-- The tokens of an optional token. -/
def optToken {p : Token → Prop} : Option {t : Token // p t} → List Token
  | some t => [t.1]
  | none => []

/-- The tokens of the qualifiers. -/
def QualifierTokens.tokens (q : QualifierTokens) : List Token := q.map Subtype.val

/-- The token a declaration takes for its type. -/
def typeToken {p : Token → Prop} : Option {t : Token // p t} → Token
  | some t => t.1
  | none => autoToken

/-- The token a parameter takes for its name. -/
def nameToken : Option (Tok Ident) → Token
  | some t => t.1
  | none => noName

namespace Syn

/-- The tokens, in source order. -/
def tokens : {k : Cat} → Syn k → List Token
  | _, pre op e => op.1 :: e.tokens
  | _, literal t => [t.1]
  | _, ident t => [t.1]
  | _, eval s => s.tokens
  | _, cast l d r => l.1 :: (d.tokens ++ [r.1])
  | _, blockExpr b => b.tokens
  | _, paren l e r => l.1 :: (e.tokens ++ [r.1])
  | _, call f l args r => f.tokens ++ l.1 :: (args.tokens ++ [r.1])
  | _, member e op name => e.tokens ++ [op.1, name.1]
  | _, index e l i r => e.tokens ++ l.1 :: (i.tokens ++ [r.1])
  | _, post e op => e.tokens ++ [op.1]
  | _, binary lhs op rhs => lhs.tokens ++ op.1 :: rhs.tokens
  | _, block q b => q.tokens ++ b.tokens
  | _, ifStmt q s => q.tokens ++ s.tokens
  | _, whileStmt q k l cond r body =>
      q.tokens ++ k.1 :: l.1 :: (cond.tokens ++ r.1 :: body.tokens)
  | _, forStmt q k l init cond semi incr r body =>
      q.tokens ++ k.1 :: l.1 :: (init.tokens ++ (cond.tokens ++
        semi.1 :: (incr.tokens ++ r.1 :: body.tokens)))
  | _, returnStmt q k e semi => q.tokens ++ k.1 :: (e.tokens ++ [semi.1])
  | _, jump q k semi => q.tokens ++ [k.1, semi.1]
  | _, structDecl q k name body semi =>
      q.tokens ++ k.1 :: name.1 :: (body.tokens ++ optToken semi)
  | _, namespaceDecl q k name body => q.tokens ++ k.1 :: name.1 :: body.tokens
  | _, deleteStmt q d semi => q.tokens ++ (d.tokens ++ optToken semi)
  | _, requires q k colon e semi =>
      q.tokens ++ k.1 :: colon.1 :: (e.tokens ++ optToken semi)
  | _, typeDecl q k name base body semi =>
      q.tokens ++ k.1 :: name.1 :: (base.tokens ++ (body.tokens ++ optToken semi))
  | _, functionDecl q type name l params r body =>
      q.tokens ++ (optToken type ++ name.1 :: l.1 :: (params.tokens ++ r.1 :: body.tokens))
  | _, varDecl q type name init semi =>
      q.tokens ++ (optToken type ++ name.1 :: (init.tokens ++ [semi.1]))
  | _, exprStmt q e semi => q.tokens ++ (e.tokens ++ optToken semi)
  | _, delete k auto target => k.1 :: (optToken auto ++ target.tokens)
  | _, conditional k l cond r thenBlock elseBlock =>
      k.1 :: l.1 :: (cond.tokens ++ r.1 :: (thenBlock.tokens ++ elseBlock.tokens))
  | _, braced l body r => l.1 :: (body.tokens ++ [r.1])
  | _, parameter q type name init =>
      q.tokens ++ (type.toList ++ (optToken name ++ init.tokens))
  | _, none => []
  | _, some s => s.tokens
  | _, nil => []
  | _, cons s rest => s.tokens ++ rest.tokens
  | _, led t s => t.1 :: s.tokens
  | _, seq s t => s.tokens ++ t.tokens
  | _, bare semi => [semi.1]
  | _, full s => s.tokens

/-- The number of nodes appended. -/
def size : {k : Cat} → Syn k → ℕ
  | _, pre _ e => e.size + 1
  | _, literal _ => 1
  | _, ident _ => 1
  | _, eval s => s.size
  | _, cast _ d _ => d.size + 1
  | _, blockExpr b => b.size
  | _, paren _ e _ => e.size
  | _, call f _ args _ => f.size + (args.size + 1)
  | _, member e _ _ => e.size + 2
  | _, index e _ i _ => e.size + (i.size + 1)
  | _, post e _ => e.size + 1
  | _, binary lhs _ rhs => lhs.size + (rhs.size + 1)
  | _, block _ b => b.size
  | _, ifStmt _ s => s.size
  | _, whileStmt _ _ _ cond _ body => cond.size + (body.size + 1)
  | _, forStmt _ _ _ init cond _ incr _ body =>
      init.size + (cond.size + (incr.size + (body.size + 1)))
  | _, returnStmt _ _ e _ => e.size + 1
  | _, jump _ _ _ => 1
  | _, structDecl _ _ _ body _ => body.size + 1
  | _, namespaceDecl _ _ _ body => body.size + 1
  | _, deleteStmt _ d _ => d.size
  | _, requires _ _ _ e _ => e.size
  | _, typeDecl _ _ _ base body _ => base.size + (body.size + 3)
  | _, functionDecl _ _ _ _ params _ body => params.size + (body.size + 3)
  | _, varDecl _ _ _ init _ => init.size + 3
  | _, exprStmt _ e _ => e.size
  | _, delete _ _ target => target.size + 1
  | _, conditional _ _ cond _ thenBlock elseBlock =>
      cond.size + (thenBlock.size + (elseBlock.size + 1))
  | _, braced _ body _ => body.size + 1
  | _, parameter _ _ _ init => init.size + 3
  | _, none => 0
  | _, some s => s.size
  | _, nil => 0
  | _, cons s rest => s.size + rest.size
  | _, led _ s => s.size
  | _, seq s t => s.size + t.size
  | _, bare _ => 0
  | _, full s => s.size

/-- The id returned, over an arena of `base` nodes. -/
def root : {k : Cat} → Syn k → (base : ℕ) → NodeId
  | _, pre _ e, base => base + e.size
  | _, literal _, base => base
  | _, ident _, base => base
  | _, eval s, base => s.root base
  | _, cast _ d _, base => base + d.size
  | _, blockExpr b, base => b.root base
  | _, paren _ e _, base => e.root base
  | _, call f _ args _, base => base + (f.size + args.size)
  | _, member e _ _, base => base + (e.size + 1)
  | _, index e _ i _, base => base + (e.size + i.size)
  | _, post e _, base => base + e.size
  | _, binary lhs _ rhs, base => base + (lhs.size + rhs.size)
  | _, block _ b, base => b.root base
  | _, ifStmt _ s, base => s.root base
  | _, whileStmt _ _ _ cond _ body, base => base + (cond.size + body.size)
  | _, forStmt _ _ _ init cond _ incr _ body, base =>
      base + (init.size + (cond.size + (incr.size + body.size)))
  | _, returnStmt _ _ e _, base => base + e.size
  | _, jump _ _ _, base => base
  | _, structDecl _ _ _ body _, base => base + body.size
  | _, namespaceDecl _ _ _ body, base => base + body.size
  | _, deleteStmt _ d _, base => d.root base
  | _, requires _ _ _ e _, base => e.root base
  | _, typeDecl _ _ _ b body _, base => base + (b.size + body.size)
  | _, functionDecl _ _ _ _ params _ body, base => base + (params.size + (body.size + 2))
  | _, varDecl _ _ _ init _, base => base + init.size
  | _, exprStmt _ e _, base => e.root base
  | _, delete _ _ target, base => base + target.size
  | _, conditional _ _ cond _ thenBlock elseBlock, base =>
      base + (cond.size + (thenBlock.size + elseBlock.size))
  | _, braced _ _ _, base => base
  | _, parameter _ _ _ init, base => base + init.size
  | _, none, _ => kNullNode
  | _, some s, base => s.root base
  | _, nil, _ => kNullNode
  | _, cons s _, base => s.root base
  | _, led _ s, base => s.root base
  | _, seq s _, base => s.root base
  | _, bare _, _ => kNullNode
  | _, full s, base => s.root base

end Syn

/-- The offset of the first of some tokens, `next` when there is none. -/
def firstOffset (ts : List Token) (next : ℕ) : ℕ :=
  match ts with
  | [] => next
  | t :: _ => t.globalOffset

/-- A node for a single token. -/
def tokenNode (kind : NodeKind) (t : Token) : Node :=
  { kind, sourceOffset := t.globalOffset, sourceLength := t.size, data := Data.literal t.type 0 }

/-- A node that records the offset of a token, but no length. -/
def plainNode (kind : NodeKind) (offset : ℕ) (data : Data) (qualifiers : Qualifiers := {}) :
    Node :=
  { kind, qualifiers, sourceOffset := offset, data }

/-- The nodes of a declaration whose own node gets the id `id`. -/
def declNodes (kind : NodeKind) (q : Qualifiers) (typeTok nameTok : Token) (id : NodeId)
    (initExpr : NodeId) : List Node :=
  [plainNode kind typeTok.globalOffset (Data.varDecl (id + 1) (id + 2) initExpr) q,
    tokenNode IdentifierExpr typeTok, tokenNode IdentifierExpr nameTok]

namespace Syn

/-- The nodes appended to an arena of `base` nodes, when the offset of the token behind is
`next`. -/
def nodes : {k : Cat} → Syn k → (base next : ℕ) → List Node
  | _, pre op e, base, next =>
      e.nodes base next
        ++ [{ tokenNode UnaryExpr op.1 with data := Data.unary op.1.type (e.root base) }]
  | _, literal t, _, _ => [tokenNode LiteralExpr t.1]
  | _, ident t, _, _ => [tokenNode IdentifierExpr t.1]
  | _, eval s, base, next => s.nodes base next
  | _, cast _ d r, base, next =>
      d.nodes base r.1.globalOffset ++ [plainNode CastExpr next (Data.deleteOp (d.root base))]
  | _, blockExpr b, base, next => b.nodes base next
  | _, paren _ e r, base, _ => e.nodes base r.1.globalOffset
  | _, call f l args r, base, next =>
      f.nodes base l.1.globalOffset
        ++ (args.nodes (base + f.size) r.1.globalOffset
        ++ [plainNode CallExpr next (Data.call (f.root base) (args.root (base + f.size)))])
  | _, member e op name, base, _ =>
      e.nodes base op.1.globalOffset
        ++ [tokenNode IdentifierExpr name.1,
          plainNode MemberAccessExpr op.1.globalOffset
            (Data.binary op.1.type (e.root base) (base + e.size))]
  | _, index e l i r, base, next =>
      e.nodes base l.1.globalOffset
        ++ (i.nodes (base + e.size) r.1.globalOffset
        ++ [plainNode BinaryExpr next
              (Data.binary SqLeft (e.root base) (i.root (base + e.size)))])
  | _, post e op, base, _ =>
      e.nodes base op.1.globalOffset
        ++ [plainNode UnaryExpr op.1.globalOffset (Data.unary op.1.type (e.root base))]
  | _, binary lhs op rhs, base, next =>
      lhs.nodes base op.1.globalOffset
        ++ (rhs.nodes (base + lhs.size) next
        ++ [plainNode BinaryExpr op.1.globalOffset
              (Data.binary op.1.type (lhs.root base) (rhs.root (base + lhs.size)))])
  | _, block _ b, base, next => b.nodes base next
  | _, ifStmt _ s, base, next => s.nodes base next
  | _, whileStmt _ k _ cond r body, base, next =>
      cond.nodes base r.1.globalOffset
        ++ (body.nodes (base + cond.size) next
        ++ [plainNode CompileTimeJump k.1.globalOffset (Data.evalOp (cond.root base)
              (body.root (base + cond.size)) kNullNode)])
  | _, forStmt _ k _ init cond semi incr r body, base, next =>
      init.nodes base (firstOffset cond.tokens semi.1.globalOffset)
        ++ (cond.nodes (base + init.size) semi.1.globalOffset
        ++ (incr.nodes (base + init.size + cond.size) r.1.globalOffset
        ++ (body.nodes (base + init.size + cond.size + incr.size) next
        ++ [plainNode CompileTimeJump k.1.globalOffset (Data.evalOp
              (cond.root (base + init.size))
              (body.root (base + init.size + cond.size + incr.size)) (init.root base))])))
  | _, returnStmt _ k e semi, base, _ =>
      e.nodes base semi.1.globalOffset
        ++ [plainNode UnaryExpr k.1.globalOffset (Data.unary kReturn (e.root base))]
  | _, jump _ k _, _, _ =>
      [plainNode CompileTimeJump k.1.globalOffset (Data.unary k.1.type kNullNode)]
  | _, structDecl _ k name body semi, base, next =>
      body.nodes base (firstOffset (optToken semi) next)
        ++ [plainNode StructDecl k.1.globalOffset
              (Data.call name.1.globalOffset (body.root base))]
  | _, namespaceDecl _ k name body, base, next =>
      body.nodes base next
        ++ [plainNode NamespaceDecl k.1.globalOffset
              (Data.call name.1.globalOffset (body.root base))]
  | _, deleteStmt _ d semi, base, next => d.nodes base (firstOffset (optToken semi) next)
  | _, requires _ _ _ e semi, base, next => e.nodes base (firstOffset (optToken semi) next)
  | _, typeDecl q k name b body semi, base, next =>
      b.nodes base (firstOffset (body.tokens ++ optToken semi) next)
        ++ (body.nodes (base + b.size) (firstOffset (optToken semi) next)
        ++ declNodes TypeDecl q.value k.1 name.1 (base + b.size + body.size)
            (if body.root (base + b.size) ≠ kNullNode then body.root (base + b.size)
              else b.root base))
  | _, functionDecl q type name _ params r body, base, next =>
      params.nodes base r.1.globalOffset
        ++ (body.nodes (base + params.size) next
        ++ [tokenNode IdentifierExpr (typeToken type), tokenNode IdentifierExpr name.1,
            plainNode FunctionDecl name.1.globalOffset
              (Data.varDecl (base + params.size + body.size)
                (base + params.size + body.size + 1) (body.root (base + params.size)))
              q.value])
  | _, varDecl q type name init semi, base, _ =>
      init.nodes base semi.1.globalOffset
        ++ declNodes VarDecl q.value (typeToken type) name.1 (base + init.size)
            (init.root base)
  | _, exprStmt _ e semi, base, next => e.nodes base (firstOffset (optToken semi) next)
  | _, delete k auto target, base, next =>
      target.nodes base next
        ++ [plainNode DeleteExpr k.1.globalOffset (Data.deleteOp (target.root base))
              { isAuto := auto.isSome }]
  | _, conditional k _ cond r thenBlock elseBlock, base, next =>
      cond.nodes base r.1.globalOffset
        ++ (thenBlock.nodes (base + cond.size) (firstOffset elseBlock.tokens next)
        ++ (elseBlock.nodes (base + cond.size + thenBlock.size) next
        ++ [plainNode EvalExpr k.1.globalOffset (Data.evalOp (cond.root base)
              (thenBlock.root (base + cond.size))
              (elseBlock.root (base + cond.size + thenBlock.size)))]))
  | _, braced _ body r, base, _ =>
      plainNode TranslationUnit (firstOffset body.tokens r.1.globalOffset) {}
        :: body.nodes (base + 1) r.1.globalOffset
  | _, parameter q type name init, base, next =>
      init.nodes base next
        ++ declNodes VarDecl q.value (type.getD autoToken) (nameToken name) (base + init.size)
            (init.root base)
  | _, none, _, _ => []
  | _, some s, base, next => s.nodes base next
  | _, nil, _, _ => []
  | _, cons s rest, base, next =>
      s.nodes base (firstOffset rest.tokens next) ++ rest.nodes (base + s.size) next
  | _, led _ s, base, next => s.nodes base next
  | _, seq s t, base, next =>
      s.nodes base (firstOffset t.tokens next) ++ t.nodes (base + s.size) next
  | _, bare _, _, _ => []
  | _, full s, base, next => s.nodes base next

variable {k : Cat}

@[simp] lemma length_nodes (s : Syn k) (base next : ℕ) : (s.nodes base next).length = s.size := by
  induction s generalizing base next <;> simp_all [nodes, size, declNodes]

/-- The id returned for a part is that of one of its nodes, or there is none. -/
lemma root_mem (s : Syn k) (base : ℕ) :
    s.root base = kNullNode ∨ base ≤ s.root base ∧ s.root base < base + s.size := by
  induction s generalizing base
  all_goals simp only [root, size, true_or]
  all_goals first | assumption | grind

/-! ## Grouping -/

/-- How tightly the outermost form of an expression binds: the precedence of a binary operator,
above them the prefix operators, and above these everything a postfix can be attached to. -/
def level : {k : Cat} → Syn k → ℕ
  | _, binary _ op _ => getPrecedence op.1.type
  | _, pre _ _ => 12
  | _, _ => 13

/-- Every operand binds at least as tightly as its operator asks for. -/
def Grouped : {k : Cat} → Syn k → Prop
  | _, pre _ e => 12 ≤ e.level ∧ e.Grouped
  | _, eval s => s.Grouped
  | _, cast _ d _ => d.Grouped
  | _, blockExpr b => b.Grouped
  | _, paren _ e _ => e.Grouped
  | _, call f _ args _ => 13 ≤ f.level ∧ f.Grouped ∧ args.Grouped
  | _, member e _ _ => 13 ≤ e.level ∧ e.Grouped
  | _, index e _ i _ => 13 ≤ e.level ∧ e.Grouped ∧ i.Grouped
  | _, post e _ => 13 ≤ e.level ∧ e.Grouped
  | _, binary lhs op rhs =>
      getPrecedence op.1.type ≤ lhs.level ∧ getPrecedence op.1.type < rhs.level
        ∧ lhs.Grouped ∧ rhs.Grouped
  | _, block _ b => b.Grouped
  | _, ifStmt _ s => s.Grouped
  | _, whileStmt _ _ _ cond _ body => cond.Grouped ∧ body.Grouped
  | _, forStmt _ _ _ init cond _ incr _ body =>
      init.Grouped ∧ cond.Grouped ∧ incr.Grouped ∧ body.Grouped
  | _, returnStmt _ _ e _ => e.Grouped
  | _, structDecl _ _ _ body _ => body.Grouped
  | _, namespaceDecl _ _ _ body => body.Grouped
  | _, deleteStmt _ d _ => d.Grouped
  | _, requires _ _ _ e _ => e.Grouped
  | _, typeDecl _ _ _ base body _ => base.Grouped ∧ body.Grouped
  | _, functionDecl _ _ _ _ params _ body => params.Grouped ∧ body.Grouped
  | _, varDecl _ _ _ init _ => init.Grouped
  | _, exprStmt _ e _ => e.Grouped
  | _, delete _ _ target => 12 ≤ target.level ∧ target.Grouped
  | _, conditional _ _ cond _ thenBlock elseBlock =>
      cond.Grouped ∧ thenBlock.Grouped ∧ elseBlock.Grouped
  | _, braced _ body _ => body.Grouped
  | _, parameter _ _ _ init => init.Grouped
  | _, some s => s.Grouped
  | _, cons s rest => s.Grouped ∧ rest.Grouped
  | _, led _ s => s.Grouped
  | _, seq s t => s.Grouped ∧ t.Grouped
  | _, full s => s.Grouped
  | _, _ => True

end Syn

end LogicCompiler
