import LogicCompiler.Preproc.Directives

/-!
# The main loop

`Preprocessor::process`.  `step` is one iteration of its loop and `process` the loop itself.  A
run ends with an empty input stack, or with the negative code of the directive that failed.
-/

namespace LogicCompiler

namespace Preprocessor

/-- What one iteration of the main loop does. -/
inductive StepResult where
  | next (p : Preprocessor)
  | failed (code : ℤ) (p : Preprocessor)
  /-- the input stack is empty: the loop is left -/
  | finished
  /-- a condition did not come to an end within the given number of calls -/
  | diverged

/-- The loop over a string or character literal, entered behind the opening quote: the bytes it
copies to the output. -/
def literalTail (quote : Byte) : List Byte → List Byte
  | [] => []
  | sc :: r =>
      if sc = '\\'.toUInt8 then
        match r with
        | [] => [sc]
        | esc :: r => sc :: esc :: literalTail quote r
      else if sc = quote then [sc]
      else sc :: literalTail quote r

/-- Copy the bytes between `start` and the cursor to the output. -/
def copyFrom (p : Preprocessor) (start : ℕ) : Preprocessor := p.emit (p.fileMgr.read (p.fromCursor start))

/-- The replacement text of an identifier: the stored body of a macro, nothing when the body is
empty, and the identifier itself when it is no macro. -/
def identText (p : Preprocessor) (identStr : List Byte) : List Byte :=
  if p.isDefined identStr then
    if hasBody (p.findDefined identStr) then p.fileMgr.read (p.findDefined identStr).content else []
  else identStr

/-- The test for a comment opened by `/` and `second`. -/
def opensComment (p : Preprocessor) (second : Char) : Bool :=
  p.currChar == '/'.toUInt8 && decide (p.cursor + 1 < p.size)
    && p.getChar (p.cursor + 1) == second.toUInt8

/-- One iteration of the loop of `process`. -/
def step (disk : Disk) (fuel : ℕ) (p : Preprocessor) : StepResult :=
  match p.inputStack with
  | [] => .finished
  | _ :: frames =>
      if p.atEnd then .next { p with inputStack := frames }
      else
        let c := p.currChar
        if p.opensComment '/' then
          .next ((p.setCursor (p.orSizeAdd (p.findNext '\n') 1)).copyFrom p.cursor)
        else if p.opensComment '*' then
          let q := p.bump 2
          .next ((q.setCursor (q.orSizeAdd (q.findNextSeq "*/") 2)).copyFrom p.cursor)
        else if c = '"'.toUInt8 ∨ c = '\''.toUInt8 then
          let tail := literalTail c (p.bump 1).rest
          .next ((p.bump (1 + tail.length)).emit (c :: tail))
        else if c = '#'.toUInt8 then
          let (type, q) := p.readDirective
          match processDirective disk fuel type (q.setActive type) with
          | none => .diverged
          | some (ret, q) => if ret < 0 then .failed ret q else .next q
        else if isIn identCharBitmask c then
          let q := p.skipIdent
          .next (q.emit (p.identText (q.fileMgr.read (q.fromCursor p.cursor))))
        else .next ((p.emit [c]).bump 1)

/-- The run of `process`: the code it returns at (`0` behind an empty input stack) and the final
state, or `none` if it has not ended within the given number of iterations. -/
def process (disk : Disk) : ℕ → Preprocessor → Option (ℤ × Preprocessor)
  | 0, _ => none
  | n + 1, p =>
      match p.step disk n with
      | .next p => process disk n p
      | .failed code p => some (code, p)
      | .finished => some (0, p)
      | .diverged => none

/-- The constructor: a preprocessor whose only frame is the given file. -/
def ofFile (disk : Disk) (basePath filePath : List Byte) : Preprocessor :=
  let (info, fileMgr) := FileManager.loadFile disk { srcPath := some basePath } filePath
  { fileMgr, inputStack := [{ content := info.content, cursor := 0 }] }

end Preprocessor

end LogicCompiler
