import LogicCompiler.AST.Defs

/-!
# The dump of a syntax tree

`ASTManager::dumpToString` of `common/AST/AST_manager.cpp`, one line for each node.  The details of
a node are read through the union member that belongs to its kind.
-/

namespace LogicCompiler

open TokenType NodeKind

namespace ASTManager

/-- The name under which a kind is dumped. -/
def nodeKindToString : NodeKind → String
  | TranslationUnit => "TranslationUnit"
  | VarDecl => "VarDecl"
  | TypeDecl => "TypeDecl"
  | StructDecl => "StructDecl"
  | NamespaceDecl => "NamespaceDecl"
  | FunctionDecl => "FunctionDecl"
  | BinaryExpr => "BinaryExpr"
  | UnaryExpr => "UnaryExpr"
  | LiteralExpr => "LiteralExpr"
  | IdentifierExpr => "IdentifierExpr"
  | CallExpr => "CallExpr"
  | MemberAccessExpr => "MemberAccessExpr"
  | EvalExpr => "EvalExpr"
  | DeleteExpr => "DeleteExpr"
  | CastExpr => "CastExpr"
  | CompileTimeJump => "CompileTimeJump"

/-- The lambda `getOpStr`, on the byte of an operator. -/
def getOpStr (op : ℕ) : String :=
  if op < TokenType.count then ttStrmap (TokenType.ofNat op) else "?"

/-- The qualifiers in square brackets, when there are any. -/
def qualifierText (q : Qualifiers) : String :=
  let names := (if q.isConstexpr then ["constexpr"] else []) ++ (if q.isConst then ["const"] else [])
    ++ (if q.isStatic then ["static"] else []) ++ (if q.isInline then ["inline"] else [])
    ++ (if q.isAuto then ["auto"] else [])
  if names = [] then "" else " [" ++ " ".intercalate names ++ "]"

/-- The text of a node in quotes, when it has one; `none` when `substr` throws.  The sum of the
offset and the length is computed in 32 bits. -/
def snippetText (source : List Byte) (node : Node) : Option (List Byte) :=
  if source ≠ [] ∧ 0 < node.sourceLength
      ∧ (node.sourceOffset + node.sourceLength) % 2 ^ 32 ≤ source.length then
    if source.length < node.sourceOffset then none
    else some (bytes " -> \"" ++ (source.drop node.sourceOffset).take node.sourceLength ++ bytes "\"")
  else some []

/-- The details of an `EvalExpr`, and of a `CompileTimeJump` that is a loop. -/
def evalDetails (d : Data) : String :=
  " (Cond: " ++ toString d.cond ++ ", Then/Body: " ++ toString d.thenBlock ++ ", Else/Init: "
    ++ toString d.elseBlock ++ ")"

/-- The details of a `CompileTimeJump` that is a `break` or `continue`. -/
def jumpDetails (op : ℕ) : String := " (Op: '" ++ getOpStr op ++ "')"

/-- The switch over the kind. -/
def details (kind : NodeKind) (d : Data) : String :=
  match kind with
  | BinaryExpr =>
      " (Op: '" ++ getOpStr d.op ++ "', LHS: " ++ toString d.lhs ++ ", RHS: " ++ toString d.rhs ++ ")"
  | UnaryExpr => " (Op: '" ++ getOpStr d.op ++ "', Operand: " ++ toString d.operand ++ ")"
  | VarDecl | TypeDecl | FunctionDecl =>
      " (TypeNode: " ++ toString d.typeNode ++ ", NameNode: " ++ toString d.nameNode
        ++ ", Init/Body: " ++ toString d.initExpr ++ ")"
  | EvalExpr => evalDetails d
  | CompileTimeJump =>
      if d.op = kBreak.code ∨ d.op = kContinue.code then jumpDetails d.op else evalDetails d
  | DeleteExpr | CastExpr => " (Target: " ++ toString d.target ++ ")"
  | CallExpr => " (Target: " ++ toString d.target ++ ", ArgsList: " ++ toString d.argsList ++ ")"
  | MemberAccessExpr =>
      " (Op: '" ++ getOpStr d.op ++ "', Target: " ++ toString d.lhs ++ ", Member: " ++ toString d.rhs
        ++ ")"
  | StructDecl | NamespaceDecl =>
      " (NameOffset: " ++ toString d.target ++ ", BodyNode: " ++ toString d.argsList ++ ")"
  | _ => ""

/-- The line of the node with the id `i`. -/
def dumpNode (source : List Byte) (i : ℕ) (node : Node) : Option (List Byte) :=
  (snippetText source node).map fun snippet =>
    bytes ("[" ++ toString i ++ "] " ++ nodeKindToString node.kind ++ qualifierText node.qualifiers)
      ++ snippet ++ bytes (details node.kind node.data ++ "\n")

/-- `dumpToString`; `none` when it throws. -/
def dumpToString (tree : ASTTree) (source : List Byte) : Option (List Byte) :=
  if tree = [] then some (bytes "<Empty AST>\n")
  else ((tree.zipIdx.mapM fun e => dumpNode source e.2 e.1).map List.flatten)

end ASTManager

end LogicCompiler
