import LogicCompiler.Preproc.State

/-!
# The directive handlers

`evalCondition`, `skip_if_branch` and the `handle_*` functions of `preproc/preprocessor.cpp`.  A
handler returns its C++ result code and the state it leaves; a negative code makes `process`
return.

Two things are cut out of the C++ text so that they have a name.  `skipLoop` is the loop of
`skip_if_branch`; it reports which directive stopped it and where that directive's `#` stands.
And the four handlers that may go on to skip an arm are split into the part that decides
(`ifArm`, `ifndefArm`, `elseArm`, `elifArm`) and the common tail `enterArm`.
-/

namespace LogicCompiler

namespace Preprocessor

/-! ## Conditions -/

/-- The value a side of `==` or `!=` is compared by: the trimmed body of a macro that has one. -/
def resolveSide (p : Preprocessor) (side : List Byte) : List Byte :=
  if p.isDefined side && hasBody (p.findDefined side) then
    trim (p.fileMgr.read (p.findDefined side).content)
  else side

/-- `evalCondition`.  The recursion follows macro bodies; `none` says that it has not come to an
end within the given number of calls. -/
def evalCondition (p : Preprocessor) : ℕ → Snippet → Option ℤ
  | 0, _ => none
  | n + 1, cond =>
      let trimmed := trim (p.fileMgr.read cond)
      if trimmed = [] then some 0
      else if p.currActive = .Ifndef then some (if !p.isDefined trimmed then 1 else 0)
      else if p.currActive = .If ∨ p.currActive = .Elif then
        if trimmed = bytes "0" ∨ trimmed = bytes "false" then some 0
        else if trimmed = bytes "1" ∨ trimmed = bytes "true" then some 1
        else
          let eqPos := Search.findSeq (bytes "==") trimmed
          let neqPos := Search.findSeq (bytes "!=") trimmed
          match eqPos.or neqPos with
          | some opPos =>
              let lhs := trim (trimmed.take opPos)
              let rhs := trim (trimmed.drop (opPos + 2))
              let isMatch := p.resolveSide lhs = p.resolveSide rhs
              if eqPos.isSome then some (if isMatch then 1 else 0)
              else some (if ¬ isMatch then 1 else 0)
          | none =>
              if p.isDefined trimmed then
                if hasBody (p.findDefined trimmed) then
                  evalCondition p n (p.findDefined trimmed).content
                else some 1
              else some 0
      else some (-1)

/-! ## Skipping an arm -/

/-- The `#` under the cursor and the identifier behind it: the directive's type and the state
behind its name. -/
def readDirective (p : Preprocessor) : MacroType × Preprocessor :=
  let startHash := p.cursor
  let p := (p.bump 1).skipIdent
  (macroHashMatch (p.fileMgr.read (p.fromCursor startHash)), p)

/-- How the loop of `skip_if_branch` ends: at a directive of its own group, or because the frame
is used up or the nesting counter is zero. -/
inductive SkipStop where
  | found (directive : MacroType) (startHash : ℕ)
  | exhausted (nestCount : ℕ)
  deriving DecidableEq, Repr

/-- `flags & BranchState::EVER_TAKEN` on the back of `branchFlags`. -/
def everTaken (p : Preprocessor) : Bool := p.topFlags &&& BranchState.everTaken != 0

/-- The loop of `skip_if_branch`.  `nestCount` is a `uint16_t`. -/
def skipLoop : ℕ → Bool → Bool → ℕ → Preprocessor → SkipStop × Preprocessor
  | 0, _, _, nestCount, p => (.exhausted nestCount, p)
  | n + 1, stringed1, stringed2, nestCount, p =>
      if nestCount = 0 ∨ p.atEnd then (.exhausted nestCount, p)
      else
        let currInitial := p.currChar
        if currInitial = '"'.toUInt8 then
          skipLoop n stringed1 (!stringed2) nestCount (p.bump 1)
        else if currInitial = '\''.toUInt8 then
          skipLoop n (!stringed1) stringed2 nestCount (p.bump 1)
        else if stringed1 || stringed2 then
          skipLoop n stringed1 stringed2 nestCount (p.bump 1)
        else if currInitial = '/'.toUInt8 ∧ p.cursor + 1 < p.size
            ∧ p.getChar (p.cursor + 1) = '/'.toUInt8 then
          skipLoop n stringed1 stringed2 nestCount (p.setCursor (p.orSizeAdd (p.findNext '\n') 1))
        else if currInitial = '/'.toUInt8 ∧ p.cursor + 1 < p.size
            ∧ p.getChar (p.cursor + 1) = '*'.toUInt8 then
          let p := p.bump 2
          skipLoop n stringed1 stringed2 nestCount
            (p.setCursor (p.orSizeAdd (p.findNextSeq "*/") 2))
        else if currInitial = '#'.toUInt8 then
          let startHash := p.cursor
          let (matched, p) := p.readDirective
          match matched with
          | .If | .Ifndef => skipLoop n stringed1 stringed2 ((nestCount + 1) % 2 ^ 16) p
          | .Define =>
              skipLoop n stringed1 stringed2 nestCount
                (p.setCursor (p.orSizeAdd (p.findNext '\n') 1))
          | .Define_M =>
              skipLoop n stringed1 stringed2 nestCount
                (p.setCursor (p.orSizeAdd (p.findNextSeq "#enddef") 7))
          | .Skip =>
              let p' := p.setCursor (p.orSizeAdd (p.findNext '\n') 1)
              skipLoop n stringed1 stringed2 nestCount
                (p'.setCursor (p'.orSizeAdd (p'.findNext '\n') 1))
          | .Elif | .Else =>
              if nestCount = 1 then
                if p.everTaken then
                  skipLoop n stringed1 stringed2 nestCount
                    (p.setCursor (p.orSizeAdd (p.findNext '\n') 1))
                else (.found matched startHash, p)
              else skipLoop n stringed1 stringed2 nestCount p
          | .Endif =>
              if nestCount = 1 then (.found .Endif startHash, p)
              else skipLoop n stringed1 stringed2 (nestCount - 1) p
          | _ => skipLoop n stringed1 stringed2 nestCount p
        else skipLoop n stringed1 stringed2 nestCount (p.bump 1)

/-- The lambda `end_branching`. -/
def endBranching (p : Preprocessor) : ℤ × Preprocessor :=
  match p.findNext '\n' with
  | none => (422, p.setCursor p.size)
  | some endLine => (0, p.setCursor (endLine + 1))

/-- The loop of `skip_if_branch` as it is entered; every iteration consumes at least one byte. -/
def skipScan (p : Preprocessor) : SkipStop × Preprocessor := skipLoop p.rest.length false false 1 p

/-- The text of an arm that is not taken is skipped; its end decides how to go on. -/
def skipIfBranch (p : Preprocessor) : ℤ × Preprocessor :=
  match p.skipScan with
  | (.found .Elif _, p) => (105102, p)
  | (.found _ _, p) => endBranching p
  | (.exhausted nestCount, p) => (if nestCount = 0 then 0 else -422, p)

/-! ## `#if`, `#ifndef`, `#else`, `#elif`, `#endif` -/

/-- What a conditional handler has decided before it possibly skips: an error, an arm that is
taken, or an arm that is skipped. -/
inductive Arm where
  | error (code : ℤ) (p : Preprocessor)
  | taken (p : Preprocessor)
  | skipped (p : Preprocessor)

/-- `if (!condPassed) return skip_if_branch(); return 0;`. -/
def enterArm : Arm → ℤ × Preprocessor
  | .error code p => (code, p)
  | .taken p => (0, p)
  | .skipped p => p.skipIfBranch

/-- The flags of an arm whose condition evaluated to `condPassed`. -/
def armFlags (condPassed : Bool) : UInt8 :=
  if condPassed then BranchState.active ||| BranchState.everTaken else 0

/-- `res & 1u`. -/
def condPassed (res : ℤ) : Bool := res % 2 != 0

/-- The condition of `#if` and `#elif`: the rest of the line, blanks trimmed. -/
def readCondition (p : Preprocessor) : Option (Snippet × Preprocessor) :=
  let p := p.ol
  let beginning := p.cursor
  (p.findNext '\n').map fun endLine =>
    (((p.setCursor endLine).olBack).fromCursor beginning, p.setCursor (endLine + 1))

/-- `#if`: the condition is read and evaluated. -/
def ifArm (fuel : ℕ) (p : Preprocessor) : Option Arm :=
  let p := p.setActive .If
  match p.readCondition with
  | none => some (.error (-422) p.ol)
  | some (rawCond, p) =>
      (p.evalCondition fuel rawCond).map fun res =>
        if res < 0 then .error res p
        else if condPassed res then .taken (p.pushFlags (armFlags true))
        else .skipped (p.pushFlags (armFlags false))

/-- `handle_if`. -/
def handleIf (fuel : ℕ) (p : Preprocessor) : Option (ℤ × Preprocessor) := (p.ifArm fuel).map enterArm

/-- `#ifndef`: the name is looked up. -/
def ifndefArm (fuel : ℕ) (p : Preprocessor) : Option Arm :=
  let p := (p.setActive .Ifndef).ol
  let startName := p.cursor
  let p := p.skipIdent
  let nameSnippet := p.fromCursor startName
  let p := p.pastFound (p.findNext '\n')
  (p.evalCondition fuel nameSnippet).map fun res =>
    if condPassed res then .taken (p.pushFlags (armFlags true))
    else .skipped (p.pushFlags (armFlags false))

/-- `handle_ifndef`. -/
def handleIfndef (fuel : ℕ) (p : Preprocessor) : Option (ℤ × Preprocessor) :=
  (p.ifndefArm fuel).map enterArm

/-- `flags &= ~BranchState::ACTIVE`. -/
def clearActive (p : Preprocessor) : Preprocessor :=
  p.setTopFlags (p.topFlags &&& ~~~BranchState.active)

/-- `#else`: taken, unless an arm has been. -/
def elseArm (p : Preprocessor) : Arm :=
  if p.branchFlags = [] then .error (-400) p
  else
    let p := p.pastFound (p.findNext '\n')
    if p.everTaken then .skipped p.clearActive
    else .taken (p.setTopFlags (armFlags true))

/-- `handle_else`. -/
def handleElse (p : Preprocessor) : ℤ × Preprocessor := enterArm p.elseArm

/-- `#elif`: the condition is read only if no arm has been taken. -/
def elifArm (fuel : ℕ) (p : Preprocessor) : Option Arm :=
  if p.branchFlags = [] then some (.error (-400) p)
  else
    let p := p.setActive .Elif
    if p.everTaken then some (.skipped p.clearActive)
    else
      match p.readCondition with
      | none => some (.error (-422) p.ol)
      | some (rawCond, p) =>
          (p.evalCondition fuel rawCond).map fun res =>
            if res < 0 then .error res p
            else if condPassed res then .taken (p.setTopFlags (armFlags true))
            else .skipped (p.setTopFlags (armFlags false))

/-- `handle_elif`. -/
def handleElif (fuel : ℕ) (p : Preprocessor) : Option (ℤ × Preprocessor) :=
  (p.elifArm fuel).map enterArm

/-- `handle_endif`: the flags of the group are dropped, and the rest of the line. -/
def handleEndif (p : Preprocessor) : ℤ × Preprocessor :=
  if p.branchFlags = [] then (-400, p)
  else
    let p := { p with branchFlags := p.branchFlags.tail }
    (0, p.pastFound (p.findNext '\n'))

/-! ## `#define`, `#define_m`, `#skip` -/

/-- Register every `&`-separated alias in `namesCombined`. -/
def registerNames (p : Preprocessor) (namesCombined : List Byte) (d : Defined) : Preprocessor :=
  ((namesCombined.splitOn '&'.toUInt8).map trim).foldl
    (fun p singleName => if singleName = [] then p else p.addMacro singleName d) p

/-- The loop of `handle_define` over names chained with `&`. -/
def aliasLoop : ℕ → Preprocessor → Preprocessor
  | 0, p => p
  | n + 1, p =>
      if !p.atEnd ∧ p.currChar = '&'.toUInt8 then aliasLoop n (p.bump 1).skipIdent else p

/-- `hasCont`: the line holds a continuation marker. -/
def hasContinuation (line : List Byte) : Bool :=
  (Search.findSeq (bytes "__/__") line).isSome || (Search.findSeq (bytes "__ / __") line).isSome

/-- The loop of `handle_define` over continuation lines, returning `contentEnd`. -/
def continuationLoop : ℕ → ℕ → Preprocessor → ℕ × Preprocessor
  | 0, contentEnd, p => (contentEnd, p)
  | n + 1, contentEnd, p =>
      if p.atEnd then (contentEnd, p)
      else
        let endL := p.findNext '\n'
        let lineLimit := p.orSize endL
        let lineStr := p.fileMgr.read (p.toCursor lineLimit)
        match hasContinuation lineStr, endL with
        | true, some endL => continuationLoop n contentEnd (p.setCursor (endL + 1))
        | _, some endL => (lineLimit, p.setCursor (endL + 1))
        | _, none => (lineLimit, p.setCursor lineLimit)

/-- `handle_define`: the names, then the value up to a line that is not continued. -/
def handleDefine (p : Preprocessor) : ℤ × Preprocessor :=
  let p := p.ol
  let startName := p.cursor
  let p := p.skipIdent
  let p := aliasLoop p.rest.length p
  let namesCombined := p.fileMgr.read (p.fromCursor startName)
  let p := p.ol
  let startVal := p.cursor
  let (contentEnd, p) := continuationLoop p.rest.length startVal p
  let body := ((p.fileMgr.read p.sourceContent).take contentEnd).drop startVal
  let trimmedSize := (body.reverse.dropWhile isBlank).length
  let d : Defined :=
    { content := { offset := p.sourceContent.offset + startVal, size := trimmedSize }, t := .Define }
  (0, p.registerNames namesCombined d)

/-- The loop of `handle_define_m` over names connected with `&`. -/
def namesLoop : ℕ → Preprocessor → Preprocessor
  | 0, p => p
  | n + 1, p =>
      if p.atEnd then p
      else
        let p := p.skipIdent.ol
        if !p.atEnd ∧ p.currChar = '&'.toUInt8 then namesLoop n (p.bump 1).ol else p

/-- `handle_define_m`: the names, then the body up to its `#enddef`. -/
def handleDefineM (p : Preprocessor) : ℤ × Preprocessor :=
  let p := p.ol
  let startName := p.cursor
  let p := namesLoop p.rest.length p
  let namesCombined := p.fileMgr.read
    { offset := p.sourceContent.offset + startName, size := p.cursor - startName }
  match p.findNextSeq "#enddef" with
  | none => (-3, p)
  | some endDef =>
      let d : Defined := { content := p.toCursor endDef, t := .Define_M }
      let p := p.setCursor (endDef + 7)
      let p := p.pastFound (p.findNext '\n')
      (0, p.registerNames namesCombined d)

/-- `handle_skip`: the rest of the line and the next line are dropped. -/
def handleSkip (p : Preprocessor) : ℤ × Preprocessor :=
  match p.findNext '\n' with
  | none => (0, p.setCursor p.size)
  | some endLine1 =>
      if p.size ≤ endLine1 + 1 then (0, p.setCursor p.size)
      else
        let p := p.setCursor (endLine1 + 1)
        (0, p.setCursor (p.orSizeAdd (p.findNext '\n') 1))

/-! ## `#include`, `#import`, `#param` -/

/-- `handle_include`: the file is loaded, and its text becomes the new top frame. -/
def handleInclude (disk : Disk) (p : Preprocessor) : ℤ × Preprocessor :=
  let p := p.ol
  if p.atEnd then (-1, p)
  else if p.currChar ≠ '"'.toUInt8 ∧ p.currChar ≠ '<'.toUInt8 then (-1, p)
  else
    let closeChar := if p.currChar = '"'.toUInt8 then '"' else '>'
    let p := p.bump 1
    match p.findNext closeChar with
    | none => (-1, p)
    | some nextC =>
        let includePath := p.fileMgr.read (p.toCursor nextC)
        let p := p.setCursor (nextC + 1)
        let p := p.pastFound (p.findNext '\n')
        let (info, fileMgr) := p.fileMgr.loadFile disk includePath
        let p := { p with fileMgr }
        let includedContent := info.content
        if includedContent.offset = snippetSent.offset ∨ includedContent.size = uint32Max
            ∨ includedContent.size = 0 then (-2, p)
        else (0, { p with inputStack := { content := includedContent, cursor := 0 } :: p.inputStack })

/-- `handle_import`, which is `handle_include`. -/
def handleImport (disk : Disk) (p : Preprocessor) : ℤ × Preprocessor := handleInclude disk p

/-- The parenthesis loop of `handle_param`; `none` is its `return -400` at a newline.
`parenDepth` is a `uint16_t`. -/
def parenLoop : ℕ → ℕ → Preprocessor → Option (ℕ × Preprocessor)
  | 0, parenDepth, p => some (parenDepth, p)
  | n + 1, parenDepth, p =>
      if p.atEnd ∨ parenDepth = 0 then some (parenDepth, p)
      else if p.currChar = '('.toUInt8 then
        parenLoop n ((parenDepth + 1) % 2 ^ 16) (p.bump 1)
      else if p.currChar = ')'.toUInt8 then
        if parenDepth - 1 = 0 then some (0, p) else parenLoop n (parenDepth - 1) (p.bump 1)
      else if p.currChar = '\n'.toUInt8 then none
      else parenLoop n parenDepth (p.bump 1)

/-- `finalVal`: the trimmed body of the macro, `1` for an empty one, or the default. -/
def paramValue (p : Preprocessor) (nameStr defaultStr : List Byte) : List Byte :=
  if p.isDefined nameStr then
    if hasBody (p.findDefined nameStr) then trim (p.fileMgr.read (p.findDefined nameStr).content)
    else bytes "1"
  else defaultStr

/-- The line `handle_param` emits. -/
def paramText (typeStr nameStr finalVal : List Byte) : List Byte :=
  bytes "constexpr (" ++ typeStr ++ bytes ") " ++ nameStr ++ bytes " = static_cast<" ++ typeStr
    ++ bytes ">(" ++ finalVal ++ bytes ");\n"

/-- `handle_param`: a type in parentheses, a name and a default; a cast of the default becomes the
value. -/
def handleParam (p : Preprocessor) : ℤ × Preprocessor :=
  let p := p.ol
  if p.atEnd ∨ p.currChar ≠ '('.toUInt8 then (-400, p)
  else
    let p := p.bump 1
    let startType := p.cursor
    match parenLoop (p.rest.length + 1) 1 p with
    | none => (-400, p)
    | some (parenDepth, p) =>
        if parenDepth ≠ 0 then (-400, p)
        else
          let typeStr := trim (p.fileMgr.read (p.fromCursor startType))
          if typeStr = [] then (-400, p)
          else
            let p := (p.bump 1).ol
            let startName := p.cursor
            let p := p.skipIdent
            let nameStr := trim (p.fileMgr.read (p.fromCursor startName))
            if nameStr = [] then (-400, p)
            else
              let p := p.ol
              if p.atEnd ∨ p.currChar ≠ '='.toUInt8 then (-400, p)
              else
                let p := (p.bump 1).ol
                let startDef := p.cursor
                let endLine := p.findNext '\n'
                let p := p.setCursor (p.orSize endLine)
                let defaultStr := trim (p.fileMgr.read (p.fromCursor startDef))
                let p := if endLine.isSome then p.bump 1 else p
                let finalVal := p.paramValue nameStr defaultStr
                let p := if p.isDefined nameStr then p.forgetMacro nameStr else p
                (0, p.emit (paramText typeStr nameStr finalVal))

/-! ## Dispatch -/

/-- `process_directive`; `none` when a condition does not come to an end. -/
def processDirective (disk : Disk) (fuel : ℕ) (type : MacroType) (p : Preprocessor) :
    Option (ℤ × Preprocessor) :=
  match type with
  | .None => some (0, p)
  | .Unknown => some (-404, p)
  | .Define => some p.handleDefine
  | .Define_M => some p.handleDefineM
  | .Include => some (p.handleInclude disk)
  | .If => p.handleIf fuel
  | .Ifndef => p.handleIfndef fuel
  | .Else => some p.handleElse
  | .Elif => p.handleElif fuel
  | .Endif => some p.handleEndif
  | .Skip => some p.handleSkip
  | .Import => some (p.handleImport disk)
  | .Param => some p.handleParam
  | .Enddef => some (-1, p)

end Preprocessor

end LogicCompiler
