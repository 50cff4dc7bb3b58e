import LogicCompiler.Parser.Forest

/-!
# What is below a node

The tree below a node with everything positional taken out: no ids, no source offsets, and no node
that is not held by another.  What stays are the kinds, the qualifiers, the operators, the types of
the leaves and their texts.  How a text is read off its place in the source is a parameter: an arena
does not hold it.

The outline of a node is a function of the syntax it is made for (`Syn.outline`), so that this
function says what two arenas can be told apart by.
-/

namespace LogicCompiler

open TokenType NodeKind Cat LogicCompiler.Parser

/-- A tree of nodes without ids and offsets. -/
inductive Outline where
  | missing
  | node (kind : NodeKind) (qualifiers : Qualifiers) (code : ℕ) (text : List Byte)
      (first second third : Outline)
  deriving DecidableEq

/-- How the text at an offset, of some length, is read. -/
abbrev Reading := ℕ → ℕ → List Byte

/-- A part of the source. -/
def snippet (src : List Byte) (offset len : ℕ) : List Byte := (src.drop offset).take len

namespace Node

/-- The part of the payload that is neither an id nor an offset: an operator, or the type of a
token. -/
def code (n : Node) : ℕ :=
  match n.kind with
  | BinaryExpr | UnaryExpr | MemberAccessExpr | LiteralExpr | IdentifierExpr => n.data.op
  | CompileTimeJump => if n.data.operand = kNullNode then n.data.op else 0
  | _ => 0

/-- The text of a node that has a length. -/
def textBy (read : Reading) (n : Node) : List Byte :=
  if n.sourceLength = 0 then [] else read n.sourceOffset n.sourceLength

/-- The id in a slot. -/
def slot (n : Node) (i : ℕ) : NodeId := n.refs.getD i kNullNode

end Node

/-- The arena shows an outline at an id. -/
inductive Shows (read : Reading) (tree : ASTTree) : NodeId → Outline → Prop
  | missing : Shows read tree kNullNode Outline.missing
  | node {a : NodeId} {n : Node} {u v w : Outline} (h : tree[a]? = some n)
      (hu : Shows read tree (n.slot 0) u) (hv : Shows read tree (n.slot 1) v)
      (hw : Shows read tree (n.slot 2) w) :
      Shows read tree a (Outline.node n.kind n.qualifiers n.code (n.textBy read) u v w)

/-- An id shows one outline. -/
lemma Shows.unique {read : Reading} {tree : ASTTree} (hroom : tree.length ≤ kNullNode)
    {a : NodeId} {o o' : Outline} (h : Shows read tree a o) (h' : Shows read tree a o') : o = o' := by
  have hnull : tree[kNullNode]? = none := List.getElem?_eq_none hroom
  induction h generalizing o' with
  | missing =>
      cases h' with
      | missing => rfl
      | node h => simp [hnull] at h
  | node h hu hv hw ihu ihv ihw =>
      cases h' with
      | missing => simp [hnull] at h
      | node h' hu' hv' hw' =>
          obtain rfl := Option.some.inj (h.symm.trans h')
          rw [ihu hu', ihv hv', ihw hw']

/-- Two arenas are equal below an id each, but for offsets and for what is not held. -/
def EqualBelow (read read' : Reading) (tree tree' : ASTTree) (a a' : NodeId) : Prop :=
  ∃ o, Shows read tree a o ∧ Shows read' tree' a' o

/-! ## The outline of some syntax -/

/-- The text of a token. -/
def Token.textBy (read : Reading) (t : Token) : List Byte :=
  if t.size = 0 then [] else read t.globalOffset t.size

namespace Outline

/-- A node for a single token. -/
def leaf (kind : NodeKind) (read : Reading) (t : Token) : Outline :=
  node kind {} t.type.code (t.textBy read) missing missing missing

/-- A node that holds one id. -/
def one (kind : NodeKind) (code : ℕ) (o : Outline) : Outline := node kind {} code [] o missing missing

/-- A node that holds two ids. -/
def two (kind : NodeKind) (code : ℕ) (o u : Outline) : Outline := node kind {} code [] o u missing

/-- A node that holds three ids. -/
def three (kind : NodeKind) (o u v : Outline) : Outline := node kind {} 0 [] o u v

/-- A declaration: its type, its name and what is behind them. -/
def decl (kind : NodeKind) (read : Reading) (q : Qualifiers) (type name : Token) (o : Outline) :
    Outline :=
  node kind q 0 [] (leaf IdentifierExpr read type) (leaf IdentifierExpr read name) o

end Outline

namespace Syn

open Outline

/-- What the root of some syntax shows.  A block shows none of its statements, a call only the first
of its arguments. -/
def outline (read : Reading) : {k : Cat} → Syn k → Outline
  | _, pre op e =>
      node UnaryExpr {} op.1.type.code (op.1.textBy read) (e.outline read) missing missing
  | _, literal t => leaf LiteralExpr read t.1
  | _, ident t => leaf IdentifierExpr read t.1
  | _, eval s => s.outline read
  | _, cast _ d _ => one CastExpr 0 (d.outline read)
  | _, blockExpr b => b.outline read
  | _, paren _ e _ => e.outline read
  | _, call f _ args _ => two CallExpr 0 (f.outline read) (args.outline read)
  | _, member e op name =>
      two MemberAccessExpr op.1.type.code (e.outline read) (leaf IdentifierExpr read name.1)
  | _, index e _ i _ => two BinaryExpr SqLeft.code (e.outline read) (i.outline read)
  | _, post e op => one UnaryExpr op.1.type.code (e.outline read)
  | _, binary lhs op rhs => two BinaryExpr op.1.type.code (lhs.outline read) (rhs.outline read)
  | _, block _ b => b.outline read
  | _, ifStmt _ s => s.outline read
  | _, whileStmt _ _ _ cond _ body => two CompileTimeJump 0 (cond.outline read) (body.outline read)
  | _, forStmt _ _ _ init cond _ _ _ body =>
      three CompileTimeJump (cond.outline read) (body.outline read) (init.outline read)
  | _, returnStmt _ _ e _ => one UnaryExpr kReturn.code (e.outline read)
  | _, jump _ k _ => one CompileTimeJump k.1.type.code missing
  | _, structDecl _ _ _ body _ => one StructDecl 0 (body.outline read)
  | _, namespaceDecl _ _ _ body => one NamespaceDecl 0 (body.outline read)
  | _, deleteStmt _ d _ => d.outline read
  | _, requires _ _ _ e _ => e.outline read
  | _, typeDecl q k name base none _ => decl TypeDecl read q.value k.1 name.1 (base.outline read)
  | _, typeDecl q k name _ (some s) _ => decl TypeDecl read q.value k.1 name.1 (s.outline read)
  | _, functionDecl q type name _ _ _ body =>
      decl FunctionDecl read q.value (typeToken type) name.1 (body.outline read)
  | _, varDecl q type name init _ =>
      decl VarDecl read q.value (typeToken type) name.1 (init.outline read)
  | _, exprStmt _ e _ => e.outline read
  | _, delete _ auto target =>
      node DeleteExpr { isAuto := auto.isSome } 0 [] (target.outline read) missing missing
  | _, conditional _ _ cond _ thenBlock elseBlock =>
      three EvalExpr (cond.outline read) (thenBlock.outline read) (elseBlock.outline read)
  | _, braced _ _ _ => one TranslationUnit 0 missing
  | _, parameter q type name init =>
      decl VarDecl read q.value (type.getD autoToken) (nameToken name) (init.outline read)
  | _, none => missing
  | _, some s => s.outline read
  | _, nil => missing
  | _, cons s _ => s.outline read
  | _, led _ s => s.outline read
  | _, seq s _ => s.outline read
  | _, bare _ => missing
  | _, full s => s.outline read

end Syn

section Shows

variable {read : Reading} {tree : ASTTree} {a b c d : NodeId} {n : Node} {o u v w : Outline}

/-- What a node shows, its slots being known. -/
lemma Shows.of_slots (h : tree[a]? = some n) (hslots : n.slot 0 = b ∧ n.slot 1 = c ∧ n.slot 2 = d)
    (hu : Shows read tree b u) (hv : Shows read tree c v) (hw : Shows read tree d w) :
    Shows read tree a (Outline.node n.kind n.qualifiers n.code (n.textBy read) u v w) :=
  Shows.node h (hslots.1 ▸ hu) (hslots.2.1 ▸ hv) (hslots.2.2 ▸ hw)

lemma shows_leaf {t : Token} {kind : NodeKind} (hkind : kind = LiteralExpr ∨ kind = IdentifierExpr)
    (h : tree[a]? = some (tokenNode kind t)) :
    Shows read tree a (Outline.leaf kind read t) := by
  have hslots : (tokenNode kind t).slot 0 = kNullNode ∧ (tokenNode kind t).slot 1 = kNullNode ∧
      (tokenNode kind t).slot 2 = kNullNode := by
    rcases hkind with rfl | rfl <;> exact ⟨rfl, rfl, rfl⟩
  have hnode : Shows read tree a _ := Shows.of_slots h hslots .missing .missing .missing
  have hcode : (tokenNode kind t).code = t.type.code := by
    rcases hkind with rfl | rfl <;> exact Data.op_literal t.type 0
  rw [hcode] at hnode
  exact hnode

/-- What a node without a text shows. -/
lemma shows_plain {kind : NodeKind} {offset code : ℕ} {data : Data} {q : Qualifiers}
    (h : tree[a]? = some (plainNode kind offset data q))
    (hcode : (plainNode kind offset data q).code = code)
    (hslots : (plainNode kind offset data q).slot 0 = b ∧ (plainNode kind offset data q).slot 1 = c ∧
      (plainNode kind offset data q).slot 2 = d)
    (hu : Shows read tree b u) (hv : Shows read tree c v) (hw : Shows read tree d w) :
    Shows read tree a (Outline.node kind q code [] u v w) := by
  have hnode := Shows.of_slots h hslots hu hv hw
  rw [hcode] at hnode
  exact hnode

/-- A loop, whose body is a node. -/
lemma shows_loop {offset : ℕ} (h : tree[a]? = some (plainNode CompileTimeJump offset (Data.evalOp b c d)))
    (hc : c ≠ kNullNode) (hu : Shows read tree b u) (hv : Shows read tree c v)
    (hw : Shows read tree d w) : Shows read tree a (Outline.three CompileTimeJump u v w) := by
  refine shows_plain h ?_ ?_ hu hv hw
  · simp [Node.code, plainNode, hc]
  · simp [Node.slot, Node.refs, plainNode, hc]

lemma shows_decl {kind : NodeKind} {q : Qualifiers} {type name : Token}
    (hkind : kind = VarDecl ∨ kind = TypeDecl) (h : Lies tree a (declNodes kind q type name a b))
    (ho : Shows read tree b o) : Shows read tree a (Outline.decl kind read q type name o) := by
  simp only [declNodes, lies_cons, lies_nil, and_true] at h
  have htype : Shows read tree (a + 1) _ := shows_leaf (Or.inr rfl) h.2.1
  have hname : Shows read tree (a + 1 + 1) _ := shows_leaf (Or.inr rfl) h.2.2
  rcases hkind with rfl | rfl
  · exact shows_plain h.1 rfl ⟨rfl, rfl, rfl⟩ htype hname ho
  · exact shows_plain h.1 rfl ⟨rfl, rfl, rfl⟩ htype hname ho

end Shows

/-- **The root of some syntax shows its outline.** -/
lemma Syn.shows (read : Reading) {tree : ASTTree} {k : Cat} (s : Syn k) {base next : ℕ}
    (h : Lies tree base (s.nodes base next)) (hroom : base + s.size ≤ kNullNode) :
    Shows read tree (s.root base) (s.outline read) := by
  induction s generalizing base next
  all_goals simp only [Syn.nodes, lies_append, lies_cons, Syn.length_nodes] at h
  all_goals simp only [Syn.size, ← Nat.add_assoc] at hroom
  all_goals simp only [Syn.root, ← Nat.add_assoc]
  -- expressions
  case pre op e ih =>
      have hnode : Shows read tree (base + e.size) _ :=
        Shows.of_slots h.2.1 ⟨rfl, rfl, rfl⟩ (ih h.1 (by omega)) .missing .missing
      have hcode : Node.code { tokenNode UnaryExpr op.1 with
          data := Data.unary op.1.type (e.root base) } = op.1.type.code := Data.op_unary ..
      rw [hcode] at hnode
      exact hnode
  case literal t => exact shows_leaf (Or.inl rfl) h.1
  case ident t => exact shows_leaf (Or.inr rfl) h.1
  case eval s ih => exact ih h hroom
  case cast l d r ih => exact shows_plain h.2.1 rfl ⟨rfl, rfl, rfl⟩ (ih h.1 (by omega)) .missing .missing
  case blockExpr b ih => exact ih h hroom
  case paren l e r ih => exact ih h hroom
  case call f l args r ihf iha =>
      exact shows_plain h.2.2.1 rfl ⟨rfl, rfl, rfl⟩ (ihf h.1 (by omega)) (iha h.2.1 (by omega)) .missing
  case member e op name ih =>
      exact shows_plain h.2.2.1 (Data.op_binary ..) ⟨rfl, rfl, rfl⟩ (ih h.1 (by omega))
        (shows_leaf (Or.inr rfl) h.2.1) .missing
  case index e l i r ihe ihi =>
      exact shows_plain h.2.2.1 (Data.op_binary ..) ⟨rfl, rfl, rfl⟩ (ihe h.1 (by omega))
        (ihi h.2.1 (by omega)) .missing
  case post e op ih =>
      exact shows_plain h.2.1 (Data.op_unary ..) ⟨rfl, rfl, rfl⟩ (ih h.1 (by omega)) .missing .missing
  case binary lhs op rhs ihl ihr =>
      exact shows_plain h.2.2.1 (Data.op_binary ..) ⟨rfl, rfl, rfl⟩ (ihl h.1 (by omega))
        (ihr h.2.1 (by omega)) .missing
  -- statements
  case block q b ih => exact ih h hroom
  case ifStmt q s ih => exact ih h hroom
  case whileStmt q k l cond r body ihc ihb =>
      exact shows_loop h.2.2.1 (body.root_ne_null rfl _ (by omega)) (ihc h.1 (by omega))
        (ihb h.2.1 (by omega)) .missing
  case forStmt q k l init cond semi incr r body ihi ihc ihn ihb =>
      exact shows_loop h.2.2.2.2.1 (body.root_ne_null rfl _ (by omega)) (ihc h.2.1 (by omega))
        (ihb h.2.2.2.1 (by omega)) (ihi h.1 (by omega))
  case returnStmt q k e semi ih =>
      exact shows_plain h.2.1 (Data.op_unary ..) ⟨rfl, rfl, rfl⟩ (ih h.1 (by omega)) .missing .missing
  case jump q k semi =>
      exact shows_plain h.1 (Data.op_unary ..) ⟨rfl, rfl, rfl⟩ .missing .missing .missing
  case structDecl q k name body semi ih =>
      exact shows_plain h.2.1 rfl ⟨rfl, rfl, rfl⟩ (ih h.1 (by omega)) .missing .missing
  case namespaceDecl q k name body ih =>
      exact shows_plain h.2.1 rfl ⟨rfl, rfl, rfl⟩ (ih h.1 (by omega)) .missing .missing
  case deleteStmt q d semi ih => exact ih h hroom
  case requires q k colon e semi ih => exact ih h hroom
  case typeDecl q k name b body semi ihb ihs =>
      cases body with
      | none => exact shows_decl (Or.inr rfl) h.2.2 (ihb h.1 (by omega))
      | some s =>
          have hsize : (Syn.some s).size = s.size := rfl
          have hne := s.root_ne_null rfl (base + b.size) (by omega)
          simp only [Syn.root, hne, ne_eq, not_false_eq_true, if_true] at h
          exact shows_decl (Or.inr rfl) h.2.2 (ihs h.2.1 (by omega))
  case functionDecl q type name l params r body ihp ihb =>
      exact shows_plain h.2.2.2.2.1 rfl ⟨rfl, rfl, rfl⟩ (shows_leaf (Or.inr rfl) h.2.2.1)
        (shows_leaf (Or.inr rfl) h.2.2.2.1) (ihb h.2.1 (by omega))
  case varDecl q type name init semi ih => exact shows_decl (Or.inl rfl) h.2 (ih h.1 (by omega))
  case exprStmt q e semi ih => exact ih h hroom
  -- parts of both
  case delete k auto target ih =>
      exact shows_plain h.2.1 rfl ⟨rfl, rfl, rfl⟩ (ih h.1 (by omega)) .missing .missing
  case conditional k l cond r thenBlock elseBlock ihc iht ihe =>
      exact shows_plain h.2.2.2.1 rfl ⟨rfl, rfl, rfl⟩ (ihc h.1 (by omega)) (iht h.2.1 (by omega))
        (ihe h.2.2.1 (by omega))
  case braced l body r ih => exact shows_plain h.1 rfl ⟨rfl, rfl, rfl⟩ .missing .missing .missing
  case parameter q type name init ih => exact shows_decl (Or.inl rfl) h.2 (ih h.1 (by omega))
  case none => exact .missing
  case some s ih => exact ih h hroom
  case nil => exact .missing
  case cons s rest ihs ihr => exact ihs h.1 (by omega)
  case led t s ih => exact ih h hroom
  case seq s t ihs iht => exact ihs h.1 (by omega)
  case bare semi => exact .missing
  case full s ih => exact ih h hroom

end LogicCompiler
