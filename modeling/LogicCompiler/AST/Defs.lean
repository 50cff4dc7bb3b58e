import LogicCompiler.Common.Token

/-!
# The syntax tree

`common/AST/AST_def.h`: an arena of nodes that refer to each other by index.  The payload of a node
is a union of seven records over the same twelve bytes; it is kept here as the three little-endian
words these bytes form, so that what one member writes another member can read.  Every record
consists of whole words, except that `op` and `type` are one byte, the low byte of the first word.
-/

namespace LogicCompiler

/-- The index of a node in the arena. -/
abbrev NodeId := ℕ

/-- The id that stands for no node. -/
def kNullNode : NodeId := 0xFFFFFFFF

/-- `ast::NodeKind`, in the order of the source. -/
inductive NodeKind where
  | TranslationUnit | VarDecl | TypeDecl | StructDecl | NamespaceDecl | FunctionDecl
  | BinaryExpr | UnaryExpr | LiteralExpr | IdentifierExpr | CallExpr | MemberAccessExpr | EvalExpr
  | DeleteExpr | CastExpr
  | CompileTimeJump
  deriving DecidableEq, Repr, Inhabited

/-- The flags of a declaration, one for each keyword that sets it. -/
structure Qualifiers where
  isConstexpr : Bool := false
  isConst : Bool := false
  isStatic : Bool := false
  isInline : Bool := false
  isAuto : Bool := false
  deriving DecidableEq, Repr, Inhabited

/-- The union `data`, as its three words. -/
structure Data where
  word0 : ℕ := 0
  word1 : ℕ := 0
  word2 : ℕ := 0
  deriving DecidableEq, Repr, Inhabited

namespace Data

/-! Writing a member.  A node is written once, over the zeroes it is created with. -/

/-- The payload of a binary expression. -/
def binary (op : TokenType) (lhs rhs : NodeId) : Data := ⟨op.code, lhs, rhs⟩

/-- The payload of an operator with one operand, of a `return` and of a jump. -/
def unary (op : TokenType) (operand : NodeId) : Data := ⟨op.code, operand, 0⟩

/-- The payload of a node that is a single token. -/
def literal (type : TokenType) (tokenIndex : ℕ) : Data := ⟨type.code, tokenIndex, 0⟩

/-- The payload of a declaration: of a variable, of a function and of a type. -/
def varDecl (typeNode nameNode initExpr : NodeId) : Data := ⟨typeNode, nameNode, initExpr⟩

/-- The payload of a call; structs and namespaces are written through it as well. -/
def call (target argsList : NodeId) : Data := ⟨target, argsList, 0⟩

/-- The payload of a `delete`. -/
def deleteOp (target : NodeId) : Data := ⟨target, 0, 0⟩

/-- The payload of a condition, with both of its blocks, and of a loop. -/
def evalOp (cond thenBlock elseBlock : NodeId) : Data := ⟨cond, thenBlock, elseBlock⟩

/-! Reading a member, whichever one was written. -/

section Reading

variable (d : Data)

/-- `data.binary.op`, `data.unary.op` and `data.literal.type`: one byte. -/
def op : ℕ := d.word0 % 256

/-- The left operand of a binary expression. -/
def lhs : NodeId := d.word1

/-- The right operand of a binary expression. -/
def rhs : NodeId := d.word2

/-- The operand of a unary expression. -/
def operand : NodeId := d.word1

/-- The type of a declaration. -/
def typeNode : NodeId := d.word0

/-- The name of a declaration. -/
def nameNode : NodeId := d.word1

/-- What stands behind the name: an initialiser, a body, the base of a type. -/
def initExpr : NodeId := d.word2

/-- `data.call.target` and `data.deleteOp.target`. -/
def target : NodeId := d.word0

/-- The first argument of a call. -/
def argsList : NodeId := d.word1

/-- The condition of an `if`, an `eval` or a loop. -/
def cond : NodeId := d.word0

/-- The first block of a condition; the body of a loop. -/
def thenBlock : NodeId := d.word1

/-- The second block of a condition. -/
def elseBlock : NodeId := d.word2

end Reading

/-! What is read back through the member that was written. -/

section ReadBack

variable (type : TokenType) (a b c : NodeId)

lemma code_mod : type.code % 256 = type.code :=
  Nat.mod_eq_of_lt (lt_trans type.code_lt_count (by decide))

@[simp] lemma op_binary : (binary type a b).op = type.code := code_mod type
@[simp] lemma lhs_binary : (binary type a b).lhs = a := rfl
@[simp] lemma rhs_binary : (binary type a b).rhs = b := rfl
@[simp] lemma op_unary : (unary type a).op = type.code := code_mod type
@[simp] lemma operand_unary : (unary type a).operand = a := rfl
@[simp] lemma op_literal : (literal type a).op = type.code := code_mod type
@[simp] lemma typeNode_varDecl : (varDecl a b c).typeNode = a := rfl
@[simp] lemma nameNode_varDecl : (varDecl a b c).nameNode = b := rfl
@[simp] lemma initExpr_varDecl : (varDecl a b c).initExpr = c := rfl
@[simp] lemma target_call : (call a b).target = a := rfl
@[simp] lemma argsList_call : (call a b).argsList = b := rfl
@[simp] lemma target_deleteOp : (deleteOp a).target = a := rfl
@[simp] lemma cond_evalOp : (evalOp a b c).cond = a := rfl
@[simp] lemma thenBlock_evalOp : (evalOp a b c).thenBlock = b := rfl
@[simp] lemma elseBlock_evalOp : (evalOp a b c).elseBlock = c := rfl

@[simp] lemma operand_evalOp : (evalOp a b c).operand = b := rfl

/-- The overlay: `op` of a payload written through `evalOp` is the low byte of the condition. -/
@[simp] lemma op_evalOp : (evalOp a b c).op = a % 256 := rfl

end ReadBack

end Data

/-- `ast::Node`: the kind, the qualifiers, the piece of the source and the payload. -/
structure Node where
  kind : NodeKind
  qualifiers : Qualifiers := {}
  sourceOffset : ℕ := 0
  sourceLength : ℕ := 0
  data : Data := {}
  deriving DecidableEq, Repr

instance : Inhabited Node := ⟨⟨NodeKind.TranslationUnit, {}, 0, 0, {}⟩⟩

/-- The ids in the payload fields that are in use for the node's kind.  `target` of a struct or a
namespace is a source offset.  A jump is written through `unary`, with no operand; the operand's
bytes are those of a loop's body, which is never missing. -/
def Node.refs (n : Node) : List NodeId :=
  match n.kind with
  | NodeKind.TranslationUnit | NodeKind.LiteralExpr | NodeKind.IdentifierExpr => []
  | NodeKind.VarDecl | NodeKind.TypeDecl | NodeKind.FunctionDecl =>
      [n.data.typeNode, n.data.nameNode, n.data.initExpr]
  | NodeKind.StructDecl | NodeKind.NamespaceDecl => [n.data.argsList]
  | NodeKind.BinaryExpr | NodeKind.MemberAccessExpr => [n.data.lhs, n.data.rhs]
  | NodeKind.UnaryExpr => [n.data.operand]
  | NodeKind.CallExpr => [n.data.target, n.data.argsList]
  | NodeKind.DeleteExpr | NodeKind.CastExpr => [n.data.target]
  | NodeKind.EvalExpr => [n.data.cond, n.data.thenBlock, n.data.elseBlock]
  | NodeKind.CompileTimeJump =>
      if n.data.operand = kNullNode then [n.data.operand]
      else [n.data.cond, n.data.thenBlock, n.data.elseBlock]

/-- `ast::ASTTree`: the vector `nodes`. -/
abbrev ASTTree := List Node

namespace ASTTree

/-- `createNode`.  In the source it never fails; the limit is the model's own.  The vector is not part of the
repository, and is taken to hold as many nodes as have an index other than `kNullNode`. -/
def createNode (tree : ASTTree) (kind : NodeKind) (offset : ℕ := 0) (len : ℕ := 0) :
    Option (NodeId × ASTTree) :=
  if tree.length < kNullNode then
    some (tree.length, tree ++ [{ kind, sourceOffset := offset, sourceLength := len }])
  else none

/-- The node behind an id. -/
def get (tree : ASTTree) (id : NodeId) : Node := tree.getD id default

/-- The node `a` holds the id `b`. -/
def Refers (tree : ASTTree) (a b : NodeId) : Prop := ∃ n, tree[a]? = some n ∧ b ∈ n.refs

end ASTTree

end LogicCompiler
