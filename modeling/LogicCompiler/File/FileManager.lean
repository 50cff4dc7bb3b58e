import LogicCompiler.Common.Hashing

/-!
# The file store

`file/file_def.h` and the part of `file/file_manager.cpp` that the preprocessor drives.  All
loaded files live back to back in one byte buffer, each as name, `'\0'`, content; a `Snippet` is
a view of that buffer.  Offsets and sizes are the `uint32_t`s of the source read as numbers: the
buffer is assumed to stay below `2 ^ 32` bytes.

The disk is outside the program.  It is a parameter: what opening and reading a path returns.
-/

namespace LogicCompiler

/-- `Snippet`: a piece of the buffer. -/
structure Snippet where
  offset : ℕ
  size : ℕ
  deriving DecidableEq, Repr, Inhabited

/-- `POffsetMax`, `PCursorMax` and `PLengthMax`. -/
def uint32Max : ℕ := 2 ^ 32 - 1

/-- `SNIPPET_SENT`. -/
def snippetSent : Snippet := { offset := uint32Max, size := uint32Max }

/-- The entry of a loaded file: where it begins, the length of its name and of its text. -/
structure FileInfo where
  offsetBegin : ℕ
  nameSize : ℕ
  fileSize : ℕ
  deriving DecidableEq, Repr, Inhabited

/-- The text of the file, behind its name and a byte `0`. -/
def FileInfo.content (f : FileInfo) : Snippet :=
  { offset := f.offsetBegin + f.nameSize + 1, size := f.fileSize }

/-- The file system: the bytes behind a path, if it can be opened. -/
abbrev Disk := List Byte → Option (List Byte)

/-- `FileManager`: the directory it reads from, the shared buffer and the files in it. -/
structure FileManager where
  srcPath : Option (List Byte) := none
  data : List Byte := []
  loaded : List FileInfo := []

namespace FileManager

/-- `_NOT_FOUND`. -/
def notFound : FileInfo := { offsetBegin := 0, nameSize := 0, fileSize := 0 }

/-- `_EMPTY`, seven `0xFF` bytes. -/
def emptyName : List Byte := List.replicate 7 0xFF

/-- `operator[](Snippet)`. -/
def read (m : FileManager) (s : Snippet) : List Byte := (m.data.drop s.offset).take s.size

/-- A byte of the text of a file. -/
def getChar (m : FileManager) (content : Snippet) (localOffset : ℕ) : Byte :=
  m.data.getD (content.offset + localOffset) 0

/-- The name that a file was loaded under. -/
def getName (m : FileManager) (f : FileInfo) : List Byte :=
  m.read { offset := f.offsetBegin, size := f.nameSize }

/-- The file that was loaded under a name. -/
def findFile (m : FileManager) (name : List Byte) : FileInfo :=
  if name = emptyName then notFound
  else (m.loaded.find? fun i => m.getName i == name).getD notFound

/-- `full_path` of `loadFile`. -/
def fullPath (m : FileManager) (path : List Byte) : List Byte :=
  match m.srcPath with
  | none | some [] => path
  | some base =>
      if base.getLastD 0 = '/'.toUInt8 ∨ base.getLastD 0 = '\\'.toUInt8 then base ++ path
      else base ++ bytes "/" ++ path

/-- The in-place newline pass of `loadFile`: `r` reads, `w` writes, both into `buf`. -/
def sanitize : ℕ → List Byte → ℕ → ℕ → List Byte × ℕ
  | 0, buf, _, w => (buf, w)
  | n + 1, buf, r, w =>
      if r < buf.length then
        let ch := buf.getD r 0
        if ch = '\r'.toUInt8 then
          let buf := buf.set w '\n'.toUInt8
          let paired := r + 1 < buf.length ∧ buf.getD (r + 1) 0 = '\n'.toUInt8
          sanitize n buf (if paired then r + 2 else r + 1) (w + 1)
        else sanitize n (buf.set w ch) (r + 1) (w + 1)
      else (buf, w)

/-- Store `name`, its `'\0'` and `content` behind everything stored so far. -/
def store (m : FileManager) (name content : List Byte) : FileInfo × FileManager :=
  let info : FileInfo :=
    { offsetBegin := m.data.length, nameSize := name.length, fileSize := content.length }
  (info, { m with data := m.data ++ name ++ [0] ++ content, loaded := m.loaded ++ [info] })

/-- `loadFile`; the path is a C string, so it ends at its first `'\0'`. -/
def loadFile (disk : Disk) (m : FileManager) (cpath : List Byte) : FileInfo × FileManager :=
  let path := cpath.takeWhile (· != 0)
  let existing := m.findFile path
  if existing ≠ notFound then (existing, m)
  else
    match disk (m.fullPath path) with
    | none => (notFound, m)
    | some raw =>
        let (buf, sanitizedLen) := sanitize raw.length raw 0 0
        m.store path (buf.take sanitizedLen)

end FileManager

end LogicCompiler
