import LogicCompiler.AST.Defs
import LogicCompiler.Common.Fuel
import LogicCompiler.Lexer.Lexer

/-!
# The parser

`parser/parser.h` and `parser/parser.cpp`.  The productions call each other and themselves; each
of them is a definition over a table `c` of the calls it makes (`Calls`), and `parser n` ties the
table with `n` levels of fuel.  Every loop is an entry of the table as well: one call is one
iteration.

The parser asks its lexer for nothing but the next token, so it is stated over anything that
delivers tokens.
-/

namespace LogicCompiler

open TokenType NodeKind

/-- What the parser uses of its lexer. -/
class TokenSource (σ : Type) where
  nextToken : σ → Token × σ

instance : TokenSource Lexer := ⟨Lexer.nextToken⟩

/-- A fixed sequence of tokens, with `Eof` behind it. -/
instance : TokenSource (List Token) where
  nextToken
    | [] => ({ type := Eof }, [])
    | t :: ts => (t, ts)

open TokenSource

/-- The lexer and the lookahead window. -/
structure Lookahead (σ : Type) where
  lexer : σ
  window0 : Token
  window1 : Token
  deriving DecidableEq

namespace Lookahead

variable {σ : Type} [TokenSource σ]

/-- `initWindow`. -/
def initWindow (lexer : σ) : Lookahead σ :=
  let (window0, lexer) := nextToken lexer
  let (window1, lexer) := nextToken lexer
  { lexer, window0, window1 }

/-- The effect of `Parser::advance`. -/
def advance (w : Lookahead σ) : Lookahead σ :=
  if w.window0.type = Eof then { w with window0 := w.window1, window1 := w.window0 }
  else
    let (token, lexer) := nextToken w.lexer
    { lexer, window0 := w.window1, window1 := token }

end Lookahead

/-- `parser::Parser`: the lookahead, the source and the arena. -/
structure Parser (σ : Type) extends Lookahead σ where
  source : List Byte
  tree : ASTTree := []
  deriving DecidableEq

/-- The message of a thrown syntax error, or an arena that cannot grow. -/
inductive Failure where
  | syntaxError (err : List Byte)
  | arenaFull
  deriving DecidableEq, Repr

/-- A parsing method: over the parser, with the failures, as far as the fuel goes. -/
abbrev ParseM (σ : Type) := Fuel.Comp (Parser σ) Failure

namespace Parser

variable {σ : Type} [TokenSource σ]

/-- `Parser::Parser`. -/
def init (lex : σ) (src : List Byte) : Parser σ :=
  { toLookahead := Lookahead.initWindow lex, source := src }

/-! ## Tokens -/

/-- `peek()`: the token in front. -/
def peek : ParseM σ Token := fun p => some (.ok (p.window0, p))

/-- `peek(1).type`. -/
def peekType1 : ParseM σ TokenType := fun p => some (.ok (p.window1.type, p))

/-- `advance()`: the token in front, which is consumed. -/
def advance : ParseM σ Token := fun p =>
  some (.ok (p.window0, { p with toLookahead := p.toLookahead.advance }))

/-- `check(…)`: the token in front has this type. -/
def check (type : TokenType) : ParseM σ Bool := fun p => some (.ok (p.window0.type == type, p))

/-- `check` for one of several types. -/
def checkAny (types : List TokenType) : ParseM σ Bool := fun p =>
  some (.ok (types.contains p.window0.type, p))

/-- `Parser::match`. -/
def matchToken (type : TokenType) : ParseM σ Bool := do
  if ← check type then
    let _ ← advance
    pure true
  else pure false

/-- The line and the column behind `text`, both counted from 1. -/
def position (text : List Byte) : ℕ × ℕ :=
  text.foldl (fun (line, col) c => if c = '\n'.toUInt8 then (line + 1, 1) else (line, col + 1))
    (1, 1)

/-- The text that `raiseError` throws. -/
def errorText (source : List Byte) (tok : Token) (msg : String) : List Byte :=
  let (line, col) := position (source.take (min tok.globalOffset source.length))
  let tokenText :=
    if tok.type = Eof then bytes "<EOF>" else (source.drop tok.globalOffset).take tok.size
  bytes ("[Line " ++ toString line ++ ", Col " ++ toString col ++ "] Syntax Error at '")
    ++ tokenText ++ bytes ("': " ++ msg)

/-- A syntax error at a token is thrown. -/
def raiseError {α : Type} (tok : Token) (msg : String) : ParseM σ α := fun p =>
  some (.error (.syntaxError (errorText p.source tok msg)))

/-- The token in front, which must have this type, is consumed. -/
def expect (type : TokenType) (errorMsg : String) : ParseM σ Token := do
  if ← check type then advance
  else
    let tok ← peek
    raiseError tok errorMsg

/-! ## Nodes -/

/-- `tree.createNode(…)`.  The error is the model's own, for an arena that has no id left. -/
def createNode (kind : NodeKind) (offset : ℕ := 0) (len : ℕ := 0) : ParseM σ NodeId := fun p =>
  match p.tree.createNode kind offset len with
  | some (id, tree) => some (.ok (id, { p with tree }))
  | none => some (.error .arenaFull)

/-- `tree.get(id).data = …`. -/
def setData (id : NodeId) (data : Data) : ParseM σ Unit := fun p =>
  some (.ok ((), { p with tree := p.tree.modify id fun n => { n with data } }))

/-- `tree.get(id).qualifiers = …`. -/
def setQualifiers (id : NodeId) (qualifiers : Qualifiers) : ParseM σ Unit := fun p =>
  some (.ok ((), { p with tree := p.tree.modify id fun n => { n with qualifiers } }))

/-- `createNode` for a token's own node, with the payload `literal`. -/
def createTokenNode (kind : NodeKind) (tok : Token) : ParseM σ NodeId := do
  let id ← createNode kind tok.globalOffset tok.size
  setData id (Data.literal tok.type 0)
  pure id

/-! ## The table of calls -/

/-- The table of the recursive methods, and of the loops that call them. -/
structure Calls (σ : Type) where
  parseStatement : ParseM σ NodeId
  parseExpression : ℕ → ParseM σ NodeId
  parsePrimaryExpression : ParseM σ NodeId
  parsePostfixExpression : NodeId → ParseM σ NodeId
  /-- the loop of `parseExpression`, with its `lhs` -/
  binaryLoop : ℕ → NodeId → ParseM σ NodeId
  /-- `while (match(Comma)) parseExpression(0);` -/
  argumentLoop : ParseM σ Unit
  /-- `while (match(Comma)) parseParamDecl();` -/
  parameterLoop : ParseM σ Unit
  /-- `while (!check(BrRight) && !check(Eof)) parseStatement();` -/
  blockLoop : ParseM σ Unit
  /-- the loop of `parseQualifiers` -/
  qualifierLoop : Qualifiers → ParseM σ Qualifiers
  /-- the loop of `parseTranslationUnit` -/
  unitLoop : ParseM σ Unit

/-! ## Expressions -/

/-- The binding strength of a binary operator; `0` for every other token. -/
def getPrecedence : TokenType → ℕ
  | Equals | PlusEquals | MinusEquals | StarEquals | SlashEquals | PercEquals | AmpEquals
  | BarEquals | UpEquals => 1
  | BBar => 2
  | AAmp => 3
  | Bar => 4
  | Up => 5
  | Amp => 6
  | EEquals | NEquals => 7
  | Lesser | Greater | LeEquals | GrEquals => 8
  | LLesser | GGreater => 9
  | Plus | Minus => 10
  | .Star | Slash | Perc => 11
  | _ => 0

/-- The types tested for a prefix operator. -/
def prefixOperators : List TokenType := [PPlus, MMinus, Excl, Tilde, Minus, Amp, .Star]

/-- The types tested for a literal. -/
def literals : List TokenType := [LInt, LFloat, LString, LChar, kTrue, kFalse]

/-- The types tested for an identifier. -/
def identifiers : List TokenType := [Ident, kVoid, kByte]

variable (c : Calls σ)

/-- `if (match(kElse)) elseBlock = parseStatement();` -/
def parseElse : ParseM σ NodeId := do
  if ← matchToken kElse then c.parseStatement else pure kNullNode

/-- The common body of `parseEvalExpression` and `parseIfStatement`. -/
def parseConditional (keyword : TokenType) (keywordMsg leftMsg rightMsg : String) :
    ParseM σ NodeId := do
  let tok ← expect keyword keywordMsg
  let _ ← expect Left leftMsg
  let cond ← c.parseExpression 0
  let _ ← expect Right rightMsg
  let thenBlock ← c.parseStatement
  let elseBlock ← parseElse c
  let id ← createNode EvalExpr tok.globalOffset
  setData id (Data.evalOp cond thenBlock elseBlock)
  pure id

/-- `eval (…) … else …`. -/
def parseEvalExpression : ParseM σ NodeId :=
  parseConditional c kEval "Expected 'eval'" "Expected '(' after eval"
    "Expected ')' after eval condition"

/-- `if (…) … else …`. -/
def parseIfStatement : ParseM σ NodeId :=
  parseConditional c kIf "Expected 'if'" "Expected '(' after if" "Expected ')' after condition"

/-- `delete x;` and `delete auto x;`. -/
def parseDeleteStatement : ParseM σ NodeId := do
  let delTok ← expect kDelete "Expected 'delete'"
  let isAutoDelete ← matchToken kAuto
  let target ← c.parsePrimaryExpression
  let id ← createNode DeleteExpr delTok.globalOffset
  setQualifiers id { isAuto := isAutoDelete }
  setData id (Data.deleteOp target)
  pure id

/-- A block behind its `{`.  Both callers hold a reference to `window[0]`, which by now is the
token behind the brace. -/
def parseBlock (errorMsg : String) : ParseM σ NodeId := do
  let tok ← peek
  let blockId ← createNode TranslationUnit tok.globalOffset
  c.blockLoop
  let _ ← expect BrRight errorMsg
  pure blockId

/-- A prefix operator with its operand, or an atom with the postfix operators behind it. -/
def parsePrimaryExpression : ParseM σ NodeId := do
  if ← checkAny prefixOperators then
    let op ← advance
    let operand ← c.parsePrimaryExpression
    let id ← createNode UnaryExpr op.globalOffset op.size
    setData id (Data.unary op.type operand)
    c.parsePostfixExpression id
  else if ← checkAny literals then
    let t ← advance
    let id ← createTokenNode LiteralExpr t
    c.parsePostfixExpression id
  else if ← checkAny identifiers then
    let t ← advance
    let id ← createTokenNode IdentifierExpr t
    c.parsePostfixExpression id
  else if ← check kEval then
    let id ← parseEvalExpression c
    c.parsePostfixExpression id
  else if (← check Left) && (← peekType1) == kDelete then
    let _ ← advance
    let delNode ← parseDeleteStatement c
    let _ ← expect Right "Expected ')' after delete expression"
    -- `tok` is a reference to `window[0]`: the token behind the `)`
    let tok ← peek
    let castId ← createNode CastExpr tok.globalOffset
    setData castId (Data.deleteOp delNode)
    c.parsePostfixExpression castId
  else if ← matchToken BrLeft then
    let blockId ← parseBlock c "Expected '\x7d' at end of block expression"
    c.parsePostfixExpression blockId
  else if ← matchToken Left then
    let expr ← c.parseExpression 0
    let _ ← expect Right "Expected ')'"
    c.parsePostfixExpression expr
  else
    let tok ← peek
    raiseError tok "Unexpected token in expression"

/-- The arguments of a call, up to the `)`: the id of the first one. -/
def parseArguments : ParseM σ NodeId := do
  if ← check Right then pure kNullNode
  else
    let argsList ← c.parseExpression 0
    c.argumentLoop
    pure argsList

/-- `parsePostfixExpression`, one iteration of its loop. -/
def parsePostfixExpression (expr : NodeId) : ParseM σ NodeId := do
  if ← matchToken Left then
    let argsList ← parseArguments c
    let _ ← expect Right "Expected ')' after call arguments"
    let tok ← peek
    let callId ← createNode CallExpr tok.globalOffset
    setData callId (Data.call expr argsList)
    c.parsePostfixExpression callId
  else if ← checkAny [Dot, Arrow] then
    let op ← advance
    let member ← expect Ident "Expected member name after access operator"
    let memberNode ← createTokenNode IdentifierExpr member
    let accessId ← createNode MemberAccessExpr op.globalOffset
    setData accessId (Data.binary op.type expr memberNode)
    c.parsePostfixExpression accessId
  else if ← matchToken SqLeft then
    let indexExpr ← c.parseExpression 0
    let _ ← expect SqRight "Expected ']' after array index"
    let tok ← peek
    let idxId ← createNode BinaryExpr tok.globalOffset
    setData idxId (Data.binary SqLeft expr indexExpr)
    c.parsePostfixExpression idxId
  else if ← checkAny [PPlus, MMinus] then
    let op ← advance
    let postFixId ← createNode UnaryExpr op.globalOffset
    setData postFixId (Data.unary op.type expr)
    c.parsePostfixExpression postFixId
  else pure expr

/-- The arguments behind the first one. -/
def argumentLoop : ParseM σ Unit := do
  if ← matchToken Comma then
    let _ ← c.parseExpression 0
    c.argumentLoop
  else pure ()

/-- Precedence climbing: an operand, then the loop over the operators behind it. -/
def parseExpression (minPrecedence : ℕ) : ParseM σ NodeId := do
  let lhs ← c.parsePrimaryExpression
  c.binaryLoop minPrecedence lhs

/-- One iteration: an operator that binds strongly enough, with its right side, becomes the new left
side. -/
def binaryLoop (minPrecedence : ℕ) (lhs : NodeId) : ParseM σ NodeId := do
  let tok ← peek
  let prec := getPrecedence tok.type
  if prec < minPrecedence ∨ prec = 0 then pure lhs
  else
    let opTok ← advance
    let rhs ← c.parseExpression (prec + 1)
    let binId ← createNode BinaryExpr opTok.globalOffset
    setData binId (Data.binary opTok.type lhs rhs)
    c.binaryLoop minPrecedence binId

/-! ## Statements -/

/-- One iteration: a qualifier sets its flag. -/
def qualifierLoop (q : Qualifiers) : ParseM σ Qualifiers := do
  if ← matchToken kConstexpr then c.qualifierLoop { q with isConstexpr := true }
  else if ← matchToken kConst then c.qualifierLoop { q with isConst := true }
  else if ← matchToken kStatic then c.qualifierLoop { q with isStatic := true }
  else if ← matchToken kInline then c.qualifierLoop { q with isInline := true }
  else if ← matchToken kAuto then c.qualifierLoop { q with isAuto := true }
  else pure q

/-- The qualifiers in front of a declaration. -/
def parseQualifiers : ParseM σ Qualifiers := c.qualifierLoop {}

/-- `if (check(Semi)) advance();` -/
def optionalSemi : ParseM σ Unit := do
  if ← check Semi then
    let _ ← advance
    pure ()
  else pure ()

/-- The statements of a block, up to its `\x7d` or the end. -/
def blockLoop : ParseM σ Unit := do
  if ← checkAny [BrRight, Eof] then pure ()
  else
    let _ ← c.parseStatement
    c.blockLoop

/-- `while (…) …`. -/
def parseWhileStatement : ParseM σ NodeId := do
  let whileTok ← expect kWhile "Expected 'while'"
  let _ ← expect Left "Expected '(' after while"
  let cond ← c.parseExpression 0
  let _ ← expect Right "Expected ')' after while condition"
  let body ← c.parseStatement
  let id ← createNode CompileTimeJump whileTok.globalOffset
  setData id (Data.evalOp cond body kNullNode)
  pure id

/-- An expression that is there unless the next token has the type `stop`. -/
def parseUnless (stop : TokenType) : ParseM σ NodeId := do
  if ← check stop then pure kNullNode else c.parseExpression 0

/-- The initialiser of a `for`: a statement, which consumes its own `;`, or a bare `;`. -/
def parseForInit : ParseM σ NodeId := do
  if ← check Semi then
    let _ ← advance
    pure kNullNode
  else c.parseStatement

/-- `for (…; …; …) …`. -/
def parseForStatement : ParseM σ NodeId := do
  let forTok ← expect kFor "Expected 'for'"
  let _ ← expect Left "Expected '(' after for"
  let init ← parseForInit c
  let cond ← parseUnless c Semi
  let _ ← expect Semi "Expected ';' after for condition"
  let _incr ← parseUnless c Right
  let _ ← expect Right "Expected ')' after for clause"
  let body ← c.parseStatement
  let id ← createNode CompileTimeJump forTok.globalOffset
  setData id (Data.evalOp cond body init)
  pure id

/-- `return …;`. -/
def parseReturnStatement : ParseM σ NodeId := do
  let retTok ← expect kReturn "Expected 'return'"
  let expr ← parseUnless c Semi
  let _ ← expect Semi "Expected ';' after return value"
  let id ← createNode UnaryExpr retTok.globalOffset
  setData id (Data.unary kReturn expr)
  pure id

/-- The branch of `parseStatement` for `break` and `continue`. -/
def parseJumpStatement : ParseM σ NodeId := do
  let ctrlTok ← advance
  let _ ← expect Semi "Expected ';' after loop control statement"
  let id ← createNode CompileTimeJump ctrlTok.globalOffset
  setData id (Data.unary ctrlTok.type kNullNode)
  pure id

/-- A body that is there when the next token is `{`. -/
def parseOptionalBody : ParseM σ NodeId := do
  if ← check BrLeft then c.parseStatement else pure kNullNode

/-- `struct S …;`. -/
def parseStructDecl : ParseM σ NodeId := do
  let structTok ← expect kStruct "Expected 'struct'"
  let nameTok ← expect Ident "Expected struct name"
  let body ← parseOptionalBody c
  optionalSemi
  let id ← createNode StructDecl structTok.globalOffset
  setData id (Data.call nameTok.globalOffset body)
  pure id

/-- `namespace N …`. -/
def parseNamespaceDecl : ParseM σ NodeId := do
  let nsTok ← expect kNamespace "Expected 'namespace'"
  let nameTok ← expect Ident "Expected namespace name"
  let body ← c.parseStatement
  let id ← createNode NamespaceDecl nsTok.globalOffset
  setData id (Data.call nameTok.globalOffset body)
  pure id

/-- `if (match(Equals)) initExpr = parseExpression(0);` -/
def parseInitialiser : ParseM σ NodeId := do
  if ← matchToken Equals then c.parseExpression 0 else pure kNullNode

/-- The three nodes of a variable, a parameter or a type: the declaration itself, then its type
and its name. -/
def createDecl (kind : NodeKind) (qual : Qualifiers) (typeTok nameTok : Token)
    (initExpr : NodeId) : ParseM σ NodeId := do
  let id ← createNode kind typeTok.globalOffset
  let typeNode ← createTokenNode IdentifierExpr typeTok
  let nameNode ← createTokenNode IdentifierExpr nameTok
  setQualifiers id qual
  setData id (Data.varDecl typeNode nameNode initExpr)
  pure id

/-- The token that stands for an inferred type. -/
def autoToken : Token := { globalOffset := 0, size := 0, extra := 0, flags := 1, type := kAuto }

/-- The token that stands for the name of an unnamed parameter. -/
def noName : Token := { globalOffset := 0, size := 0, extra := 0, flags := 1, type := Unknown }

/-- The type and the name of a parameter. -/
def parseParamNames (qual : Qualifiers) : ParseM σ (Token × Token) := do
  if qual.isAuto then
    let nameTok ← expect Ident "Expected parameter name after 'auto'"
    pure (autoToken, nameTok)
  else
    let typeTok ← advance
    if ← check Ident then
      let nameTok ← advance
      pure (typeTok, nameTok)
    else pure (typeTok, noName)

/-- A parameter: qualifiers, type, name and default. -/
def parseParamDecl : ParseM σ NodeId := do
  let qual ← parseQualifiers c
  let names ← parseParamNames qual
  let initExpr ← parseInitialiser c
  createDecl VarDecl qual names.1 names.2 initExpr

/-- The parameters behind the first one. -/
def parameterLoop : ParseM σ Unit := do
  if ← matchToken Comma then
    let _ ← parseParamDecl c
    c.parameterLoop
  else pure ()

/-- The parameters of a function, up to the `)`: `paramsList`. -/
def parseParameters : ParseM σ NodeId := do
  if ← check Right then pure kNullNode
  else
    let paramsList ← parseParamDecl c
    c.parameterLoop
    pure paramsList

/-- The body of a function, or the `;` of its declaration. -/
def parseFunctionBody : ParseM σ NodeId := do
  if ← check BrLeft then c.parseStatement
  else
    let _ ← expect Semi "Expected ';' or '\x7b' after function signature"
    pure kNullNode

/-- A function, behind its name.  The ids of its parameters are dropped. -/
def parseFunctionDecl (qual : Qualifiers) (typeTok nameTok : Token) : ParseM σ NodeId := do
  let _ ← expect Left "Expected '(' after function name"
  let _paramsList ← parseParameters c
  let _ ← expect Right "Expected ')' after parameters"
  let body ← parseFunctionBody c
  let typeNode ← createTokenNode IdentifierExpr typeTok
  let nameNode ← createTokenNode IdentifierExpr nameTok
  let fnId ← createNode FunctionDecl nameTok.globalOffset
  setQualifiers fnId qual
  setData fnId (Data.varDecl typeNode nameNode body)
  pure fnId

/-- `check(Ident) && source.substr(…) == "using"`. -/
def checkUsing : ParseM σ Bool := fun p =>
  let tok := p.window0
  some (.ok (tok.type == Ident
    && (p.source.drop tok.globalOffset).take tok.size == bytes "using", p))

/-- The base of a type declaration. -/
def parseBase : ParseM σ NodeId := do
  if ← matchToken Equals then c.parseExpression 0
  else if ← matchToken Colon then c.parsePrimaryExpression
  else if ← checkUsing then
    let _ ← advance
    c.parsePrimaryExpression
  else pure kNullNode

/-- The case `type T …` of `parseVarOrTypeDecl`. -/
def parseTypeDecl (qual : Qualifiers) : ParseM σ NodeId := do
  let typeTok ← advance
  let nameTok ← expect Ident "Expected type name after 'type'"
  let baseTypeNode ← parseBase c
  let bodyNode ← parseOptionalBody c
  optionalSemi
  createDecl TypeDecl qual typeTok nameTok
    (if bodyNode ≠ kNullNode then bodyNode else baseTypeNode)

/-- The type and the name of a variable or a function. -/
def parseDeclNames (qual : Qualifiers) : ParseM σ (Token × Token) := do
  if qual.isAuto then
    let nameTok ← expect Ident "Expected variable name after 'auto'"
    pure (autoToken, nameTok)
  else
    let typeTok ← advance
    let nameTok ← expect Ident "Expected variable name after type specifier"
    pure (typeTok, nameTok)

/-- A declaration: of a type, a function or a variable. -/
def parseVarOrTypeDecl (qual : Qualifiers) : ParseM σ NodeId := do
  if ← check kType then parseTypeDecl c qual
  else
    let names ← parseDeclNames qual
    if ← check Left then parseFunctionDecl c qual names.1 names.2
    else
      let initExpr ← parseInitialiser c
      let _ ← expect Semi "Expected ';' after declaration"
      createDecl VarDecl qual names.1 names.2 initExpr

/-- The test `isDecl` of `parseStatement`. -/
def isDecl (qual : Qualifiers) : ParseM σ Bool := fun p =>
  some (.ok (qual.isAuto || [kType, kByte, kStruct].contains p.window0.type
    || (p.window0.type == Ident && p.window1.type == Ident), p))

/-- The dispatch over the statements. -/
def parseStatement : ParseM σ NodeId := do
  let qual ← parseQualifiers c
  if ← matchToken BrLeft then parseBlock c "Expected '\x7d' at end of block"
  else if ← check kIf then parseIfStatement c
  else if ← check kWhile then parseWhileStatement c
  else if ← check kFor then parseForStatement c
  else if ← check kReturn then parseReturnStatement c
  else if ← checkAny [kBreak, kContinue] then parseJumpStatement
  else if ← check kStruct then parseStructDecl c
  else if ← check kNamespace then parseNamespaceDecl c
  else if ← check kDelete then
    let delNode ← parseDeleteStatement c
    optionalSemi
    pure delNode
  else if ← matchToken kRequires then
    let _ ← expect Colon "Expected ':' after 'requires'"
    let reqExpr ← c.parseExpression 0
    optionalSemi
    pure reqExpr
  else if ← isDecl qual then parseVarOrTypeDecl c qual
  else
    let expr ← c.parseExpression 0
    optionalSemi
    pure expr

/-! ## The translation unit -/

/-- One iteration of `parseTranslationUnit`, with the guard against statements that consume
nothing. -/
def unitLoop : ParseM σ Unit := do
  if ← check Eof then pure ()
  else
    let prev ← peek
    let _ ← c.parseStatement
    let tok ← peek
    if tok.globalOffset = prev.globalOffset ∧ tok.type ≠ Eof then
      let _ ← advance
      c.unitLoop
    else c.unitLoop

/-- Every body, over the table of the calls it makes. -/
def productions : Calls σ where
  parseStatement := parseStatement c
  parseExpression := parseExpression c
  parsePrimaryExpression := parsePrimaryExpression c
  parsePostfixExpression := parsePostfixExpression c
  binaryLoop := binaryLoop c
  argumentLoop := argumentLoop c
  parameterLoop := parameterLoop c
  blockLoop := blockLoop c
  qualifierLoop := qualifierLoop c
  unitLoop := unitLoop c

/-- The table that has no fuel. -/
def noCalls : Calls σ where
  parseStatement := Fuel.Comp.spent
  parseExpression _ := Fuel.Comp.spent
  parsePrimaryExpression := Fuel.Comp.spent
  parsePostfixExpression _ := Fuel.Comp.spent
  binaryLoop _ _ := Fuel.Comp.spent
  argumentLoop := Fuel.Comp.spent
  parameterLoop := Fuel.Comp.spent
  blockLoop := Fuel.Comp.spent
  qualifierLoop _ := Fuel.Comp.spent
  unitLoop := Fuel.Comp.spent

/-- The parser, with calls nested at most `n` deep. -/
def parser : ℕ → Calls σ := Fuel.tie productions noCalls

/-- `parseTranslationUnit`: the root, then the loop. -/
def parseTranslationUnit (c : Calls σ) : ParseM σ Unit := do
  let _root ← createNode TranslationUnit
  c.unitLoop

/-- The parser accepts `src` and returns `tree`. -/
def Accepts (src : List Byte) (tree : ASTTree) : Prop :=
  ∃ p : Parser Lexer, Fuel.Evals parser parseTranslationUnit
    (Parser.init (Lexer.mk src 0 []) src) () p ∧ p.tree = tree

/-- The parser on `src`, with calls nested at most `n` deep. -/
def parse (src : List Byte) (n : ℕ) : Option (Except Failure ASTTree) :=
  (parseTranslationUnit (parser n) (Parser.init (Lexer.mk src 0 []) src)).map
    (Except.map fun r => r.2.tree)

lemma accepts_of_parse {src : List Byte} {n : ℕ} {tree : ASTTree}
    (h : parse src n = some (.ok tree)) : Accepts src tree := by
  rcases Option.map_eq_some_iff.mp h with ⟨r, hr, htree⟩
  cases r with
  | error e => cases htree
  | ok r =>
      refine ⟨r.2, ⟨n, hr⟩, ?_⟩
      simpa [Except.map] using htree

end Parser

end LogicCompiler
