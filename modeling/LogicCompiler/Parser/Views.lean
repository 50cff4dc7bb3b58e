import LogicCompiler.Parser.Outlines
import LogicCompiler.Parser.Printing

/-!
# What the arena says about an expression

The outline of an expression with less in it: kinds, operators, children and the texts of the leaves,
which are read off the source.  The view of an expression's root is a function of its syntax, and the
syntax is what has to be compared when two arenas show the same.
-/

namespace LogicCompiler

open TokenType NodeKind Cat LogicCompiler.Parser

/-- The text of a token in the source. -/
def Token.text (src : List Byte) (t : Token) : List Byte := snippet src t.globalOffset t.size

/-- A tree of nodes without ids and offsets. -/
inductive View where
  | missing
  | node (kind : NodeKind) (op : ℕ) (text : List Byte) (first second third : View)
  deriving DecidableEq

namespace Node

/-- The operator of the kinds that have one. -/
def operator (n : Node) : ℕ :=
  match n.kind with
  | BinaryExpr | UnaryExpr | MemberAccessExpr => n.data.op
  | _ => 0

/-- The text of a leaf. -/
def leafText (src : List Byte) (n : Node) : List Byte :=
  match n.kind with
  | LiteralExpr | IdentifierExpr => snippet src n.sourceOffset n.sourceLength
  | _ => []

end Node

/-- The arena shows `v` at the id `a`. -/
inductive Sees (src : List Byte) (tree : ASTTree) : NodeId → View → Prop
  | missing : Sees src tree kNullNode View.missing
  | node {a : NodeId} {n : Node} {u v w : View} (h : tree[a]? = some n)
      (hu : Sees src tree (n.slot 0) u) (hv : Sees src tree (n.slot 1) v)
      (hw : Sees src tree (n.slot 2) w) :
      Sees src tree a (View.node n.kind n.operator (n.leafText src) u v w)

/-- An id shows one view. -/
lemma Sees.unique {src : List Byte} {tree : ASTTree} (hroom : tree.length ≤ kNullNode)
    {a : NodeId} {v v' : View} (h : Sees src tree a v) (h' : Sees src tree a v') : v = v' := by
  have hnull : tree[kNullNode]? = none := List.getElem?_eq_none hroom
  induction h generalizing v' with
  | missing =>
      cases h' with
      | missing => rfl
      | node h => simp [hnull] at h
  | node h hu hv hw ihu ihv ihw =>
      cases h' with
      | missing => simp [hnull] at h
      | node h' hu' hv' hw' =>
          obtain rfl := Option.some.inj (h.symm.trans h')
          rw [ihu hu', ihv hv', ihw hw']

/-- Two arenas agree on what is below an id each. -/
def Agree (src src' : List Byte) (tree tree' : ASTTree) (a a' : NodeId) : Prop :=
  ∃ v, Sees src tree a v ∧ Sees src' tree' a' v

namespace View

/-- A leaf. -/
def leaf (kind : NodeKind) (text : List Byte) : View := node kind 0 text missing missing missing

end View

namespace Syn

/-- What the root of some syntax shows, for the forms of expressions without `eval`, `delete` and
blocks. -/
def view (src : List Byte) : {k : Cat} → Syn k → View
  | _, pre op e => View.node UnaryExpr op.1.type.code [] (e.view src) View.missing View.missing
  | _, literal t => View.leaf LiteralExpr (t.1.text src)
  | _, ident t => View.leaf IdentifierExpr (t.1.text src)
  | _, paren _ e _ => e.view src
  | _, call f _ args _ => View.node CallExpr 0 [] (f.view src) (args.view src) View.missing
  | _, member e op name =>
      View.node MemberAccessExpr op.1.type.code [] (e.view src)
        (View.leaf IdentifierExpr (name.1.text src)) View.missing
  | _, index e _ i _ =>
      View.node BinaryExpr SqLeft.code [] (e.view src) (i.view src) View.missing
  | _, post e op => View.node UnaryExpr op.1.type.code [] (e.view src) View.missing View.missing
  | _, binary lhs op rhs =>
      View.node BinaryExpr op.1.type.code [] (lhs.view src) (rhs.view src) View.missing
  | _, some s => s.view src
  | _, seq s _ => s.view src
  | _, _ => View.missing

end Syn

/-! ## Views and outlines -/

/-- An outline without qualifiers and types of leaves. -/
def Outline.view : Outline → View
  | missing => View.missing
  | node kind _ code text u v w =>
      View.node kind (if kind ∈ [BinaryExpr, UnaryExpr, MemberAccessExpr] then code else 0)
        (if kind ∈ [LiteralExpr, IdentifierExpr] then text else []) u.view v.view w.view

lemma Node.leafText_eq (src : List Byte) (n : Node) : n.leafText src =
    if n.kind ∈ [LiteralExpr, IdentifierExpr] then n.textBy (snippet src) else [] := by
  have htext : n.textBy (snippet src) = snippet src n.sourceOffset n.sourceLength := by
    rw [Node.textBy]
    split_ifs with hzero
    · rw [hzero, snippet, List.take_zero]
    · rfl
  rw [htext, Node.leafText]
  cases n.kind <;> rfl

lemma Node.operator_eq (n : Node) : n.operator =
    if n.kind ∈ [BinaryExpr, UnaryExpr, MemberAccessExpr] then n.code else 0 := by
  rw [Node.operator, Node.code]
  cases n.kind <;> rfl

lemma Shows.sees {src : List Byte} {tree : ASTTree} {a : NodeId} {o : Outline}
    (h : Shows (snippet src) tree a o) : Sees src tree a o.view := by
  induction h with
  | missing => exact Sees.missing
  | node h _ _ _ ihu ihv ihw =>
      rw [Outline.view, ← Node.leafText_eq, ← Node.operator_eq]
      exact Sees.node h ihu ihv ihw

lemma Token.textBy_snippet (src : List Byte) (t : Token) : t.textBy (snippet src) = t.text src := by
  rw [Token.textBy, Token.text]
  split_ifs with hzero
  · rw [hzero, snippet, List.take_zero]
  · rfl

namespace Syn

/-- The view of an expression is that of its outline. -/
lemma view_outline (src : List Byte) : (s : Syn expr) → Simple s.tokens →
    (s.outline (snippet src)).view = s.view src
  | pre op e, h => by
      simp only [tokens, simple_cons] at h
      show View.node UnaryExpr op.1.type.code [] (e.outline _).view View.missing View.missing = _
      rw [view_outline src e h.2]
      rfl
  | literal t, _ => congrArg (View.leaf LiteralExpr) (t.1.textBy_snippet src)
  | ident t, _ => congrArg (View.leaf IdentifierExpr) (t.1.textBy_snippet src)
  | eval s, h => absurd h (not_simple_eval s)
  | cast l d r, h => absurd h (not_simple_cast l d r)
  | blockExpr b, h => absurd h (not_simple_blockExpr b)
  | paren l e r, h => by
      simp only [tokens, simple_cons, simple_append] at h
      exact view_outline src e h.2.1
  | call f l none r, h => by
      simp only [tokens, simple_cons, simple_append] at h
      show View.node CallExpr 0 [] (f.outline _).view View.missing View.missing = _
      rw [view_outline src f h.1]
      rfl
  | call f l (some (seq x more)) r, h => by
      simp only [tokens, simple_cons, simple_append] at h
      show View.node CallExpr 0 [] (f.outline _).view (x.outline _).view View.missing = _
      rw [view_outline src f h.1, view_outline src x h.2.2.1.1]
      rfl
  | member e op name, h => by
      simp only [tokens, simple_append] at h
      show View.node MemberAccessExpr op.1.type.code [] (e.outline _).view
        (View.leaf IdentifierExpr (name.1.textBy _)) View.missing = _
      rw [view_outline src e h.1, Token.textBy_snippet]
      rfl
  | index e l i r, h => by
      simp only [tokens, simple_cons, simple_append] at h
      show View.node BinaryExpr SqLeft.code [] (e.outline _).view (i.outline _).view View.missing = _
      rw [view_outline src e h.1, view_outline src i h.2.2.1]
      rfl
  | post e op, h => by
      simp only [tokens, simple_append] at h
      show View.node UnaryExpr op.1.type.code [] (e.outline _).view View.missing View.missing = _
      rw [view_outline src e h.1]
      rfl
  | binary lhs op rhs, h => by
      simp only [tokens, simple_cons, simple_append] at h
      show View.node BinaryExpr op.1.type.code [] (lhs.outline _).view (rhs.outline _).view
        View.missing = _
      rw [view_outline src lhs h.1, view_outline src rhs h.2.2]
      rfl

end Syn

/-- **The root of an expression shows the expression.** -/
lemma Syn.sees {src : List Byte} {tree : ASTTree} (s : Syn expr) (hs : Simple s.tokens)
    {base next : ℕ} (h : Lies tree base (s.nodes base next)) (hroom : base + s.size ≤ kNullNode) :
    Sees src tree (s.root base) (s.view src) := by
  rw [← s.view_outline src hs]
  exact (s.shows (snippet src) h hroom).sees

end LogicCompiler
