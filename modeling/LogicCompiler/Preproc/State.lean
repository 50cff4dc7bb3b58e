import LogicCompiler.File.FileManager
import LogicCompiler.Library.Search

/-!
# The state of the preprocessor and its scanning helpers

`preproc/preproc_token.h`, the data members of `preproc/preprocessor.h`, and the cursor helpers of
`preprocessor.cpp` (`findNext`, `findNextInv`, `from`, `to`, `ol`, `ol_back`).

A frame is a snippet of the file buffer with a cursor into it.  The scanning loops of the source
run from the cursor to the end of the frame one byte at a time, so here they are recursions over
`rest`, the bytes that lie between the two.  `PCursorMax`, the "not found" answer of a search, is
`none`: a frame has at most `2 ^ 32 - 1` bytes, so no position in it can be the sentinel.  The one
unsigned subtraction that can wrap, `cursor() - start_cursor`, is kept modulo `2 ^ 32` in `from`.
Offsets into the buffer are natural numbers, which is what the source computes as long as the whole
buffer has fewer than `2 ^ 32` bytes.
-/

namespace LogicCompiler

/-- `MacroType`: the kinds of macros and of directives. -/
inductive MacroType where
  | None | Unknown | Define | Define_M | Include | If | Ifndef | Else | Elif | Endif | Enddef
  | Skip | Import | Param
  deriving DecidableEq, Repr, Inhabited

/-- The `case` labels of `macro_hash_match`. -/
def macroHashCases : List (String × MacroType) :=
  [("#define", .Define), ("#define_m", .Define_M), ("#if", .If), ("#ifndef", .Ifndef),
    ("#else", .Else), ("#elif", .Elif), ("#endif", .Endif), ("#enddef", .Enddef),
    ("#include", .Include), ("#skip", .Skip), ("#import", .Import), ("#param", .Param)]

/-- A switch over the hash alone: the text is not compared. -/
def macroHashMatch (token : List Byte) : MacroType :=
  match macroHashCases.find? fun c => hashDirective (bytes c.1) == hashDirective token with
  | some c => c.2
  | none => .Unknown

/-- A frame of the input stack: a piece of the buffer and the cursor in it. -/
structure SourceFrame where
  content : Snippet := snippetSent
  cursor : ℕ := 0
  deriving DecidableEq, Repr, Inhabited

/-- A macro: its value in the buffer, and its kind. -/
structure Defined where
  content : Snippet := { offset := 0, size := 0 }
  t : MacroType := .None
  flags : ℕ := 1
  deriving DecidableEq, Repr, Inhabited

/-- `storedMacros`, as the partial function it stores. -/
abbrev MacroTable := List Byte → Option Defined

/-- The members of `Preprocessor`.  `inputStack` and `branchFlags` have the back of the C++ vector
as their head. -/
structure Preprocessor where
  fileMgr : FileManager
  outputBuffer : List Byte := []
  inputStack : List SourceFrame := []
  storedMacros : MacroTable := fun _ => none
  branchFlags : List UInt8 := []
  currActive : MacroType := .None

/-- The white space inside a line. -/
def isBlank (c : Byte) : Bool := c == ' '.toUInt8 || c == '\t'.toUInt8 || c == '\r'.toUInt8

/-- The characters of `" \t\r\n"`. -/
def isSpace (c : Byte) : Bool := isBlank c || c == '\n'.toUInt8

/-- Drop leading and trailing `" \t\r\n"`. -/
def trim (s : List Byte) : List Byte := ((s.dropWhile isSpace).reverse.dropWhile isSpace).reverse

namespace Preprocessor

variable (p : Preprocessor)

/-! ## The top frame -/

/-- The frame that is being read. -/
def top : SourceFrame := p.inputStack.headD {}

/-- The cursor of the top frame. -/
def cursor : ℕ := p.top.cursor

/-- The piece of the buffer that the top frame reads. -/
def sourceContent : Snippet := p.top.content

/-- The length of that piece. -/
def size : ℕ := p.sourceContent.size

/-- `cursor() = cur`. -/
def setCursor (cur : ℕ) : Preprocessor :=
  { p with inputStack := p.inputStack.modifyHead fun f => { f with cursor := cur } }

/-- `cursor() += n`. -/
def bump (n : ℕ) : Preprocessor := p.setCursor (p.cursor + n)

/-- `end()`. -/
def atEnd : Bool := decide (p.size ≤ p.cursor)

/-- The byte at a cursor of the top frame. -/
def getChar (cur : ℕ) : Byte := p.fileMgr.getChar p.sourceContent cur

/-- The byte at the cursor. -/
def currChar : Byte := p.getChar p.cursor

/-- The bytes of the top frame from the cursor to its end. -/
def rest : List Byte := (p.fileMgr.read p.sourceContent).drop p.cursor

/-- `from(start_cursor)`. -/
def fromCursor (start : ℕ) : Snippet :=
  { offset := p.sourceContent.offset + start, size := (p.cursor + (2 ^ 32 - start)) % 2 ^ 32 }

/-- `to(end_cursor)`. -/
def toCursor (stop : ℕ) : Snippet :=
  { offset := p.sourceContent.offset + p.cursor, size := stop - p.cursor }

/-! ## Searching from the cursor -/

/-- `findNext(c)`. -/
def findNext (c : Char) : Option ℕ :=
  (p.rest.findIdx? (· == c.toUInt8)).map (p.cursor + ·)

/-- `findNext(sequence)`. -/
def findNextSeq (sequence : String) : Option ℕ :=
  (Search.findSeq (bytes sequence) p.rest).map (p.cursor + ·)

/-- `findNextIdentInv()`. -/
def findNextIdentInv : Option ℕ :=
  (p.rest.findIdx? fun c => !isIn identCharBitmask c).map (p.cursor + ·)

/-- `(found == PCursorMax) ? sourceContent().size : found`. -/
def orSize (found : Option ℕ) : ℕ := found.getD p.size

/-- `(found == PCursorMax) ? sourceContent().size : found + n`. -/
def orSizeAdd (found : Option ℕ) (n : ℕ) : ℕ := (found.map (· + n)).getD p.size

/-- `if (found != PCursorMax) cursor() = found + 1;`. -/
def pastFound (found : Option ℕ) : Preprocessor := (found.map fun pos => p.setCursor (pos + 1)).getD p

/-- `cursor()` moved behind the identifier characters it stands on. -/
def skipIdent : Preprocessor := p.setCursor (p.orSize p.findNextIdentInv)

/-- `ol`: the blanks of the line are skipped. -/
def ol : Preprocessor := p.bump (p.rest.takeWhile isBlank).length

/-- `ol_back`: step back over the blanks in front of the cursor. -/
def olBack : Preprocessor :=
  let before := (p.fileMgr.read p.sourceContent).take p.cursor
  p.setCursor (p.cursor - (before.reverse.takeWhile isBlank).length)

/-! ## Output, macros and branch flags -/

/-- Text is put into the output. -/
def emit (s : List Byte) : Preprocessor := { p with outputBuffer := p.outputBuffer ++ s }

/-- A macro is stored under the name. -/
def isDefined (macroName : List Byte) : Bool := (p.storedMacros macroName).isSome

/-- The macro under the name. -/
def findDefined (macroName : List Byte) : Defined :=
  (p.storedMacros macroName).getD { flags := 0 }

/-- A macro is stored; an older one under its name is replaced. -/
def addMacro (macroName : List Byte) (macroC : Defined) : Preprocessor :=
  { p with storedMacros := Function.update p.storedMacros macroName (some macroC) }

/-- No macro is stored under the name any more. -/
def forgetMacro (macroName : List Byte) : Preprocessor :=
  { p with storedMacros := Function.update p.storedMacros macroName none }

/-- `content.size > 0 && content != SNIPPET_SENT`. -/
def hasBody (d : Defined) : Bool := decide (0 < d.content.size) && d.content != snippetSent

/-- `currActive = type`. -/
def setActive (type : MacroType) : Preprocessor := { p with currActive := type }

/-- `branchFlags.back()`, or `0` when there is none. -/
def topFlags : UInt8 := p.branchFlags.headD 0

/-- The flags of the innermost group are replaced. -/
def setTopFlags (flags : UInt8) : Preprocessor :=
  { p with branchFlags := flags :: p.branchFlags.tail }

/-- A group is entered. -/
def pushFlags (flags : UInt8) : Preprocessor := { p with branchFlags := flags :: p.branchFlags }

end Preprocessor

namespace BranchState

/-- The flag of a group whose arm is being read. -/
def active : UInt8 := 1

/-- The flag of a group that has had an arm taken. -/
def everTaken : UInt8 := 2

end BranchState

end LogicCompiler
