import LogicCompiler.AST.Defs
import LogicCompiler.Common.Fuel
import LogicCompiler.Library.Builder
import Mathlib.Algebra.Group.Int.Defs

/-!
# The code generator

`compiler/compiler.h` and `compiler/compiler.cpp`.  The visiting methods call each other through
`codegen`; each of them is a definition over a table `c` of the two recursive methods, and
`compiler n` ties the table with `n` levels of fuel.

What the generator leaves behind is the list of operations it asked of LLVM; the module is what
they build (`LLVM.Module.build`).  A null pointer is `none`, and its dereference is the failure
`crash`, as is a node id beyond the arena.  `std::stof`, the constant folder and the folder of
`IRBuilder` are parameters.
-/

namespace LogicCompiler

open TokenType NodeKind LLVM

/-- The functions outside the repository. -/
structure Host where
  /-- `std::stof`, as the bits of the result; `none` when it throws -/
  stof : List Byte → Option ℕ
  /-- `llvm::ConstantFoldBinaryOpOperands` -/
  constantFold : Opcode → Value → Value → Option Value
  /-- `IRBuilder`'s folder: a value that needs no instruction -/
  foldBinary : Opcode → Value → Value → Option Value
  foldUnary : Opcode → Value → Option Value

/-- `compiler::ParamInfo`. -/
structure ParamInfo where
  name : List Byte
  type : IRType
  isCompileTime : Bool
  deriving DecidableEq, Repr

/-- `compiler::FunctionInfo`: the function, its declaration and its parameters. -/
structure FunctionInfo where
  llvmFunc : FunctionId
  declNodeId : NodeId := kNullNode
  allParams : List ParamInfo := []
  runtimeParams : List ParamInfo := []
  deriving DecidableEq, Repr

/-- `compiler::Symbol`.  A compile-time symbol without an initialiser has a null value. -/
structure Symbol where
  value : Option Value
  type : IRType
  isConst : Bool
  isCompileTime : Bool
  deriving DecidableEq, Repr

/-- `compiler::Scope`, without its link to the parent. -/
structure Scope where
  symbols : List Byte → Option Symbol := fun _ => none
  customTypes : List Byte → Option IRType := fun _ => none
  functions : List Byte → Option FunctionInfo := fun _ => none

/-- The members of `Compiler` that change: the chain of scopes from `currentScope` to the root,
and what has been asked of LLVM. -/
structure Compiler where
  scopes : List Scope := [{}]
  ops : List BuilderOp := []

/-- The ways in which a visit comes to an end without a value. -/
inductive CodegenFailure where
  | runtimeError (message : List Byte)
  /-- another `std::exception`, thrown by the standard library -/
  | stdException
  /-- a null pointer or an index out of range -/
  | crash
  deriving DecidableEq, Repr

/-- A visit: over the state, with the failures, as far as the fuel goes. -/
abbrev CodegenM := Fuel.Comp Compiler CodegenFailure

/-- `std::stoi`: white space, a sign and the longest run of digits, when the value fits. -/
def stoi (s : List Byte) : Option ℤ :=
  let s := s.dropWhile fun c => c == 32 || (9 ≤ c && c ≤ 13)
  let negative := s.head? == some '-'.toUInt8
  let s := if negative || s.head? == some '+'.toUInt8 then s.tail else s
  let digits := s.takeWhile fun c => '0'.toUInt8 ≤ c && c ≤ '9'.toUInt8
  if digits = [] then none
  else
    let value : ℤ := digits.foldl (fun n c => n * 10 + (c.toNat - 48 : ℕ)) 0
    let value := if negative then -value else value
    if -2 ^ 31 ≤ value ∧ value < 2 ^ 31 then some value else none

namespace Compiler

/-- `module`, with the insertion point of `builder`. -/
def module (s : Compiler) : Module := Module.build s.ops

/-! ## Lookup -/

/-- The symbol under a name, from the inner scopes outwards. -/
def lookupVar (s : Compiler) (name : List Byte) : Option Symbol :=
  s.scopes.findSome? fun scope => scope.symbols name

/-- The function under a name, from the inner scopes outwards. -/
def lookupFunc (s : Compiler) (name : List Byte) : Option FunctionInfo :=
  s.scopes.findSome? fun scope => scope.functions name

/-- The type under a name, from the inner scopes outwards. -/
def lookupType (s : Compiler) (name : List Byte) : Option IRType :=
  s.scopes.findSome? fun scope => scope.customTypes name

/-- A change of `*currentScope`. -/
def onScope (s : Compiler) (change : Scope → Scope) : Compiler :=
  { s with scopes := s.scopes.modifyHead change }

/-! ## Steps -/

/-- The visit fails. -/
def fail {α : Type} (failure : CodegenFailure) : CodegenM α := fun _ => some (.error failure)

/-- A `std::runtime_error` is thrown, with a name in its message. -/
def throwRuntime {α : Type} (message : String) (name : List Byte := []) (rest : String := "") :
    CodegenM α := fail (.runtimeError (bytes message ++ name ++ bytes rest))

/-- A pointer that is dereferenced. -/
def deref {α : Type} : Option α → CodegenM α
  | some a => pure a
  | none => fail .crash

/-- A call of the standard library that may throw. -/
def orThrow {α : Type} : Option α → CodegenM α
  | some a => pure a
  | none => fail .stdException

/-- A reading of the state. -/
def read {α : Type} (f : Compiler → α) : CodegenM α := fun s => some (.ok (f s, s))

/-- A change of the state. -/
def update (f : Compiler → Compiler) : CodegenM Unit := fun s => some (.ok ((), f s))

/-- One more operation is asked of LLVM. -/
def emit (op : BuilderOp) : CodegenM Unit := update fun s => { s with ops := s.ops ++ [op] }

/-- A new scope inside the current one. -/
def pushScope : CodegenM Unit := update fun s => { s with scopes := {} :: s.scopes }

/-- The root scope has no parent. -/
def popScope : CodegenM Unit := update fun s =>
  match s.scopes with
  | _ :: parent :: scopes => { s with scopes := parent :: scopes }
  | _ => s

/-- A symbol in the current scope; an older one under its name is replaced. -/
def defineVar (name : List Byte) (symbol : Symbol) : CodegenM Unit := update fun s =>
  s.onScope fun scope => { scope with symbols := Function.update scope.symbols name (some symbol) }

/-- A function in the current scope; an older one under its name is replaced. -/
def defineFunc (name : List Byte) (info : FunctionInfo) : CodegenM Unit := update fun s =>
  s.onScope fun scope => { scope with functions := Function.update scope.functions name (some info) }

/-- A type in the current scope; an older one under its name is replaced. -/
def defineType (name : List Byte) (type : IRType) : CodegenM Unit := update fun s =>
  s.onScope fun scope => { scope with customTypes := Function.update scope.customTypes name (some type) }

/-! ## The builder -/

/-- `BasicBlock::Create`. -/
def createBlock (name : String) (parent : Option FunctionId := none) : CodegenM BlockId := do
  let b ← read fun s => s.module.blocks.length
  emit (.createBlock name parent)
  pure b

/-- An instruction at the insertion point, given the number of its value. -/
def insert (i : ℕ → Instruction) : CodegenM ℕ := do
  let id ← read fun s => s.module.values
  emit (.append (i id))
  pure id

/-- `builder.GetInsertBlock()`. -/
def insertBlock : CodegenM (Option BlockId) := read fun s => s.module.insertBlock

/-- `builder->GetInsertBlock()->getParent()`. -/
def insertFunction : CodegenM FunctionId := do
  let b ← deref (← insertBlock)
  deref (← read fun s => s.module.parent b)

/-- A binary operation: folded, or an instruction at the insertion point. -/
def createBinary (h : Host) (op : Opcode) (lhs rhs : Value) (name : String) : CodegenM Value := do
  match h.foldBinary op lhs rhs with
  | some v => pure v
  | none =>
      let id ← insert fun id => .binary id op lhs rhs name
      pure (.instruction id (op.resultType (lhs.type.getD .void)))

/-- A unary operation: folded, or an instruction at the insertion point. -/
def createUnary (h : Host) (op : Opcode) (operand : Value) (name : String) : CodegenM Value := do
  match h.foldUnary op operand with
  | some v => pure v
  | none =>
      let id ← insert fun id => .unary id op operand name
      pure (.instruction id (op.resultType (operand.type.getD .void)))

/-- Loads and stores ask the block of the insertion point for the data layout. -/
def createStore (value pointer : Value) : CodegenM Unit := do
  let _ ← deref (← insertBlock)
  let _ ← insert fun _ => .store value pointer
  pure ()

/-- `builder.CreateLoad`, which reads the module through the insertion point. -/
def createLoad (type : IRType) (pointer : Value) (name : List Byte) : CodegenM Value := do
  let _ ← deref (← insertBlock)
  let id ← insert fun id => .load id type pointer name
  pure (.instruction id type)

/-- `builder.CreateRet`, and `builder.CreateRetVoid` without a value. -/
def createRet (value : Option Value) : CodegenM Value := do
  let id ← insert fun _ => .ret value
  pure (.instruction id .void)

/-- `builder.CreateBr`. -/
def createBr (dest : BlockId) : CodegenM Unit := do
  let _ ← insert fun _ => .br dest
  pure ()

/-- `builder.CreateCondBr`. -/
def createCondBr (cond : Option Value) (ifTrue ifFalse : BlockId) : CodegenM Unit := do
  let _ ← insert fun _ => .condBr cond ifTrue ifFalse
  pure ()

/-- `builder.CreateCall`; the result of a `void` function has no name. -/
def createCall (callee : FunctionId) (args : List (Option Value)) : CodegenM Value := do
  let returnType ← read fun s => (s.module.function callee).returnType
  let id ← insert fun id => .call id callee args (if returnType = .void then "" else "calltmp")
  pure (.instruction id returnType)

/-- `tmpBuilder.CreateAlloca` at the beginning of the entry block. -/
def createAlloca (f : FunctionId) (type : IRType) (name : List Byte) : CodegenM Value := do
  let _ ← deref (← read fun s => s.module.first f)
  let id ← read fun s => s.module.values
  emit (.prepend f (.alloca id type name))
  pure (.alloca id)

/-- `if (!builder->GetInsertBlock()->getTerminator())`. -/
def unlessTerminated (x : CodegenM Unit) : CodegenM Unit := do
  let b ← deref (← insertBlock)
  if ← read fun s => s.module.hasTerminator b then pure () else x

end Compiler

/-! ## The visiting methods -/

/-- The recursive methods. -/
structure CodegenCalls where
  codegen : NodeId → CodegenM (Option Value)
  evaluateConstantExpr : NodeId → CodegenM (Option Value)

/-- What a `Compiler` is constructed from. -/
structure Program where
  tree : ASTTree
  source : List Byte
  host : Host

namespace Compiler

variable (P : Program) (c : CodegenCalls)

/-- `tree.get(id)`. -/
def getNode (id : NodeId) : CodegenM Node := deref P.tree[id]?

/-- `getNodeSnippet`.  The sum of the offset and the length is computed in 32 bits. -/
def getNodeSnippet (id : NodeId) : CodegenM (List Byte) := do
  if id = kNullNode then pure []
  else
    let node ← getNode P id
    if node.sourceLength = 0 ∨ P.source.length < (node.sourceOffset + node.sourceLength) % 2 ^ 32 then
      pure []
    else if P.source.length < node.sourceOffset then fail .stdException
    else pure ((P.source.drop node.sourceOffset).take node.sourceLength)

/-- The builtin types of `resolveType`. -/
def builtinTypes : List (String × IRType) :=
  [("int", .int32), ("float", .float), ("bool", .int1), ("byte", .int8), ("void", .void),
    ("auto", .int32)]

/-- The type that a type node names: a built-in one, else what the scopes have for its text. -/
def resolveType (typeNodeId : NodeId) : CodegenM IRType := do
  if typeNodeId = kNullNode then pure .void
  else
    let typeName ← getNodeSnippet P typeNodeId
    match builtinTypes.find? fun e => bytes e.1 == typeName with
    | some e => pure e.2
    | none =>
        match ← read fun s => s.lookupType typeName with
        | some customTy => pure customTy
        | none => throwRuntime "LLVM CodeGen Error: Unknown type '" typeName "'"

/-- The constant of a literal, `none` when its type is none of the four that have one. -/
def literalValue (type : ℕ) (text : List Byte) : CodegenM (Option Value) := do
  if type = LInt.code then
    let value ← orThrow (stoi text)
    pure (some (.constant (.int .int32 value)))
  else if type = LFloat.code then
    let value ← orThrow (P.host.stof text)
    pure (some (.constant (.fp value)))
  else if type = kTrue.code then pure (some (.constant (.int .int1 1)))
  else if type = kFalse.code then pure (some (.constant (.int .int1 0)))
  else pure none

/-- The opcode of a constant binary operation. -/
def constantOpcode (op : ℕ) (isFloat : Bool) : Option Opcode :=
  if op = Plus.code then some (if isFloat then .FAdd else .Add)
  else if op = Minus.code then some (if isFloat then .FSub else .Sub)
  else if op = TokenType.Star.code then some (if isFloat then .FMul else .Mul)
  else if op = Slash.code then some (if isFloat then .FDiv else .SDiv)
  else none

/-- The error for an expression that is none of the constant ones. -/
def notValid {α : Type} : CodegenM α :=
  throwRuntime "CTFE Error: Expression is not valid in a constexpr context."

/-- The evaluator of constant expressions: a literal, a `constexpr` name or an operation on such. -/
def evaluateConstantExpr (exprId : NodeId) : CodegenM (Option Value) := do
  if exprId = kNullNode then pure none
  else
    let node ← getNode P exprId
    match node.kind with
    | LiteralExpr =>
        let text ← getNodeSnippet P exprId
        match ← literalValue P node.data.op text with
        | some value => pure (some value)
        | none => notValid
    | IdentifierExpr =>
        let name ← getNodeSnippet P exprId
        match ← read fun s => s.lookupVar name with
        | some sym =>
            if sym.isCompileTime then
              let value ← deref sym.value
              pure (if value.isConstant then some value else none)
            else throwRuntime "CTFE Error: Symbol '" name "' is not a compile-time constant!"
        | none => throwRuntime "CTFE Error: Symbol '" name "' is not a compile-time constant!"
    | BinaryExpr =>
        let lhs ← c.evaluateConstantExpr node.data.lhs
        let rhs ← c.evaluateConstantExpr node.data.rhs
        match lhs, rhs with
        | some lhs, some rhs =>
            match constantOpcode node.data.op lhs.isFloat with
            | some opcode =>
                match P.host.constantFold opcode lhs rhs with
                | some res => pure (some res)
                | none => throwRuntime "CTFE Error: Constant folding failed."
            | none => throwRuntime "CTFE Error: Unsupported constexpr binary operator."
        | _, _ => throwRuntime "CTFE Error: Expression cannot be evaluated at compile time."
    | _ => notValid

/-- The loop of `codegenTranslationUnit`: the value of the last call. -/
def visitAll : List NodeId → Option Value → CodegenM (Option Value)
  | [], lastVal => pure lastVal
  | i :: ids, _ => do
      let lastVal ← c.codegen i
      visitAll ids lastVal

/-- The ids the loop of `codegenTranslationUnit` runs over. -/
def idsBehind (tree : ASTTree) (id : NodeId) : List NodeId :=
  List.range' (id + 1) (tree.length - (id + 1))

/-- The nodes of the arena behind the root, in a scope of their own. -/
def codegenTranslationUnit (id : NodeId) : CodegenM (Option Value) := do
  pushScope
  let lastVal ← visitAll c (idsBehind P.tree id) none
  popScope
  pure lastVal

/-- A variable: `constexpr`, local to a function or global. -/
def codegenVarDecl (id : NodeId) : CodegenM (Option Value) := do
  let node ← getNode P id
  let varName ← getNodeSnippet P node.data.nameNode
  let varType ← resolveType P node.data.typeNode
  if node.qualifiers.isConstexpr then
    let constVal ← c.evaluateConstantExpr node.data.initExpr
    defineVar varName { value := constVal, type := varType, isConst := true, isCompileTime := true }
    pure constVal
  else
    let initVal ←
      if node.data.initExpr ≠ kNullNode then c.codegen node.data.initExpr
      else do
        let null ← deref (nullValue varType)
        pure (some (.constant null))
    let currentFn := (← insertBlock).bind (← read fun s => s.module.parent)
    match currentFn with
    | some f =>
        let alloca ← createAlloca f varType varName
        match initVal with
        | some value => createStore value alloca
        | none => pure ()
        defineVar varName
          { value := some alloca, type := varType, isConst := node.qualifiers.isConst,
            isCompileTime := false }
        pure (some alloca)
    | none =>
        let value ← deref initVal
        let globalVar := Value.globalVar (← read fun s => s.module.globals.length)
        emit (.createGlobal varName varType node.qualifiers.isConst
          (if value.isConstant then some value else none))
        defineVar varName
          { value := some globalVar, type := varType, isConst := node.qualifiers.isConst,
            isCompileTime := false }
        pure (some globalVar)

/-- A name for a type. -/
def codegenTypeDecl (id : NodeId) : CodegenM (Option Value) := do
  let node ← getNode P id
  let typeName ← getNodeSnippet P node.data.nameNode
  let aliasedType ← resolveType P node.data.initExpr
  defineType typeName aliasedType
  pure none

/-- The epilogue of a function: a return when the last block has no terminator. -/
def closeFunction (retType : IRType) : CodegenM Unit :=
  unlessTerminated do
    if retType = .void then
      let _ ← createRet none
      pure ()
    else
      let null ← deref (nullValue retType)
      let _ ← createRet (some (.constant null))
      pure ()

/-- A function: its entry block and its body, in a scope of its own. -/
def codegenFunctionDecl (id : NodeId) : CodegenM (Option Value) := do
  let node ← getNode P id
  let fnName ← getNodeSnippet P node.data.nameNode
  let retType ← resolveType P node.data.typeNode
  -- no parameter is ever put into `llvmParamTypes`, nor into the lists of `fnInfo`
  let llvmParamTypes : List IRType := []
  let fn ← read fun s => s.module.functions.length
  emit (.createFunction fnName retType llvmParamTypes)
  defineFunc fnName { llvmFunc := fn, declNodeId := id }
  let entryBB ← createBlock "entry" (some fn)
  emit (.setInsertPoint entryBB)
  pushScope
  if node.data.initExpr ≠ kNullNode then
    let _ ← c.codegen node.data.initExpr
  closeFunction retType
  popScope
  pure (some (.function fn))

/-- The opcodes of the binary operators other than assignment, for operands that are floats and
for others, with the name of the result. -/
def binaryOpcodes : List (TokenType × Opcode × Opcode × String) :=
  [(Plus, .FAdd, .Add, "addtmp"), (Minus, .FSub, .Sub, "subtmp"), (.Star, .FMul, .Mul, "multmp"),
    (Slash, .FDiv, .SDiv, "divtmp"), (EEquals, .FCmpOEQ, .ICmpEQ, "eqtmp"),
    (NEquals, .FCmpONE, .ICmpNE, "netmp"), (Lesser, .FCmpOLT, .ICmpSLT, "lttmp"),
    (LeEquals, .FCmpOLE, .ICmpSLE, "letmp"), (Greater, .FCmpOGT, .ICmpSGT, "gttmp"),
    (GrEquals, .FCmpOGE, .ICmpSGE, "getmp")]

/-- A binary expression: both sides, then an assignment or an operation. -/
def codegenBinaryExpr (id : NodeId) : CodegenM (Option Value) := do
  let node ← getNode P id
  let lhs ← c.codegen node.data.lhs
  let rhs ← c.codegen node.data.rhs
  match lhs, rhs with
  | some lhs, some rhs =>
      let isFloat := lhs.isFloat || rhs.isFloat
      match binaryOpcodes.find? fun e => e.1.code == node.data.op with
      | some (_, floatOp, intOp, name) =>
          let value ← createBinary P.host (if isFloat then floatOp else intOp) lhs rhs name
          pure (some value)
      | none =>
          if node.data.op = Equals.code then
            if lhs.isAlloca then
              createStore rhs lhs
              pure (some rhs)
            else throwRuntime "LLVM CodeGen Error: Invalid LHS assignment target"
          else throwRuntime "LLVM CodeGen Error: Unsupported binary operator"
  | _, _ => pure none

/-- A `return`, or the operand with the operation behind it. -/
def codegenUnaryExpr (id : NodeId) : CodegenM (Option Value) := do
  let node ← getNode P id
  if node.data.op = kReturn.code then
    let retVal ← if node.data.operand ≠ kNullNode then c.codegen node.data.operand else pure none
    let value ← createRet retVal
    pure (some value)
  else
    let operand ← c.codegen node.data.operand
    if node.data.op = Minus.code then
      let operand ← deref operand
      let value ← createUnary P.host (if operand.isFloat then .FNeg else .Neg) operand "negtmp"
      pure (some value)
    else if node.data.op = Excl.code then
      let operand ← deref operand
      let value ← createUnary P.host .Not operand "nottmp"
      pure (some value)
    else pure none

/-- A literal, from its text. -/
def codegenLiteralExpr (id : NodeId) : CodegenM (Option Value) := do
  let litStr ← getNodeSnippet P id
  let node ← getNode P id
  literalValue P node.data.op litStr

/-- A name: the value of a compile-time symbol, else a load from its slot. -/
def codegenIdentifierExpr (id : NodeId) : CodegenM (Option Value) := do
  let varName ← getNodeSnippet P id
  match ← read fun s => s.lookupVar varName with
  | none => throwRuntime "LLVM CodeGen Error: Undefined symbol '" varName "'"
  | some sym =>
      let value ← deref sym.value
      if value.isAlloca then
        let loaded ← createLoad sym.type value varName
        pure (some loaded)
      else pure (some value)

/-- The arguments of a call of a known function, one for each of its run-time parameters. -/
def codegenArgs (argNodeId : NodeId) : List ParamInfo → CodegenM (List (Option Value))
  | [] => pure []
  | param :: params =>
      if param.isCompileTime then do
        let _ ← c.evaluateConstantExpr argNodeId
        codegenArgs argNodeId params
      else do
        let runtimeVal ← c.codegen argNodeId
        let llvmArgs ← codegenArgs argNodeId params
        pure (runtimeVal :: llvmArgs)

/-- A call: the function, then the arguments. -/
def codegenCallExpr (id : NodeId) : CodegenM (Option Value) := do
  let node ← getNode P id
  let fnName ← getNodeSnippet P node.data.target
  match ← read fun s => s.lookupFunc fnName with
  | none =>
      match ← read fun s => s.module.getFunction fnName with
      | none => throwRuntime "LLVM CodeGen Error: Unknown function call target '" fnName "'"
      | some externalFn =>
          let args ←
            if node.data.argsList ≠ kNullNode then do
              let arg ← c.codegen node.data.argsList
              pure [arg]
            else pure []
          let value ← createCall externalFn args
          pure (some value)
  | some fnInfo =>
      let llvmArgs ← codegenArgs c node.data.argsList fnInfo.allParams
      let value ← createCall fnInfo.llvmFunc llvmArgs
      pure (some value)

/-- A condition: both branches, and the block where they meet. -/
def codegenEvalExpr (id : NodeId) : CodegenM (Option Value) := do
  let node ← getNode P id
  let condVal ← c.codegen node.data.cond
  let fn ← insertFunction
  let thenBB ← createBlock "then" (some fn)
  let elseBB ← createBlock "else"
  let mergeBB ← createBlock "ifcont"
  createCondBr condVal thenBB elseBB
  emit (.setInsertPoint thenBB)
  let _ ← c.codegen node.data.thenBlock
  unlessTerminated (createBr mergeBB)
  emit (.insertBlock fn elseBB)
  emit (.setInsertPoint elseBB)
  if node.data.elseBlock ≠ kNullNode then
    let _ ← c.codegen node.data.elseBlock
  unlessTerminated (createBr mergeBB)
  emit (.insertBlock fn mergeBB)
  emit (.setInsertPoint mergeBB)
  pure none

/-- The part of `codegenCompileTimeJump` that generates a loop. -/
def codegenLoop (node : Node) : CodegenM (Option Value) := do
  let fn ← insertFunction
  let loopCondBB ← createBlock "loop.cond" (some fn)
  let loopBodyBB ← createBlock "loop.body" (some fn)
  let loopEndBB ← createBlock "loop.end" (some fn)
  createBr loopCondBB
  emit (.setInsertPoint loopCondBB)
  let cond ← c.codegen node.data.cond
  createCondBr cond loopBodyBB loopEndBB
  emit (.setInsertPoint loopBodyBB)
  let _ ← c.codegen node.data.thenBlock
  createBr loopCondBB
  emit (.insertBlock fn loopEndBB)
  emit (.setInsertPoint loopEndBB)
  pure none

/-- A `break` or a `continue`, which emit nothing, or a loop. -/
def codegenCompileTimeJump (id : NodeId) : CodegenM (Option Value) := do
  let node ← getNode P id
  if node.data.op = kBreak.code ∨ node.data.op = kContinue.code then pure none
  else codegenLoop c node

/-- The dispatch over the kinds of nodes. -/
def codegen (id : NodeId) : CodegenM (Option Value) := do
  if id = kNullNode then pure none
  else
    let node ← getNode P id
    match node.kind with
    | TranslationUnit => codegenTranslationUnit P c id
    | VarDecl => codegenVarDecl P c id
    | TypeDecl => codegenTypeDecl P id
    | FunctionDecl => codegenFunctionDecl P c id
    | BinaryExpr => codegenBinaryExpr P c id
    | UnaryExpr => codegenUnaryExpr P c id
    | LiteralExpr => codegenLiteralExpr P id
    | IdentifierExpr => codegenIdentifierExpr P id
    | CallExpr => codegenCallExpr P c id
    | EvalExpr => codegenEvalExpr P c id
    | CompileTimeJump => codegenCompileTimeJump P c id
    | _ => pure none

/-! ## Tying the calls -/

/-- Each method with its body unfolded once. -/
def bodies : CodegenCalls where
  codegen := codegen P c
  evaluateConstantExpr := evaluateConstantExpr P c

/-- The table that has no fuel. -/
def noFuel : CodegenCalls where
  codegen _ := Fuel.Comp.spent
  evaluateConstantExpr _ := Fuel.Comp.spent

/-- The methods with `n` levels of calls. -/
def methods (n : ℕ) : CodegenCalls := Fuel.tie (bodies P) noFuel n

/-- `compile`: whether it returned `true`.  Exceptions are caught, a crash is not. -/
def compile (n : ℕ) : Option (Except CodegenFailure Bool) :=
  if P.tree = [] then some (.ok true)
  else
    match (methods P n).codegen 0 {} with
    | none => none
    | some (.ok _) => some (.ok true)
    | some (.error .crash) => some (.error .crash)
    | some (.error _) => some (.ok false)

end Compiler

end LogicCompiler
