import LogicCompiler.Common.Token

/-!
# The lexer

`lexer/lexer.h` and `lexer/lexer.cpp`.  A lexer is its source and a cursor; every scanner below
moves the cursor through `advance` and looks ahead through `peek`, which answers `'\0'` past the
end of the source.

The C++ loops have no bound of their own.  Each of them advances by at least one byte per
iteration and stops at the end of the source, so the number of bytes left is the fuel it is given
here; running out of fuel and reaching the end of the source are the same event.

The cursor and the offsets of the tokens are natural numbers, where the source has 32 bits: the sources
meant here and in everything built on tokens have fewer than `2 ^ 32` bytes.
-/

namespace LogicCompiler

open TokenType

/-- A byte that a name starts with. -/
def isIdentStart (c : Byte) : Bool :=
  ('a'.toUInt8 ≤ c && c ≤ 'z'.toUInt8) || ('A'.toUInt8 ≤ c && c ≤ 'Z'.toUInt8) || c == '_'.toUInt8

/-- A decimal digit. -/
def isDigit (c : Byte) : Bool := '0'.toUInt8 ≤ c && c ≤ '9'.toUInt8

/-- A byte inside a name. -/
def isIdentBody (c : Byte) : Bool := isIdentStart c || isDigit c

/-- `std::isxdigit` in the "C" locale. -/
def isXDigit (c : Byte) : Bool :=
  isDigit c || ('a'.toUInt8 ≤ c && c ≤ 'f'.toUInt8) || ('A'.toUInt8 ≤ c && c ≤ 'F'.toUInt8)

/-- The letters of `lexNumber`'s suffix loop. -/
def isNumberSuffix (c : Byte) : Bool :=
  c == 'f'.toUInt8 || c == 'F'.toUInt8 || c == 'u'.toUInt8 || c == 'U'.toUInt8
    || c == 'l'.toUInt8 || c == 'L'.toUInt8

/-- `Lexer`: the source, the cursor, and the tokens it has recorded. -/
structure Lexer where
  source : List Byte
  cursor : ℕ := 0
  thisExpr : List Token := []
  deriving DecidableEq, Inhabited

namespace Lexer

/-- The byte at the cursor or behind it; `0` behind the end. -/
def peek (l : Lexer) (offset : ℕ := 0) : Byte := l.source.getD (l.cursor + offset) 0

/-- One byte on, unless the source is at its end. -/
def advance (l : Lexer) : Lexer :=
  if l.source.length ≤ l.cursor then l else { l with cursor := l.cursor + 1 }

/-- The test of `match`; its effect when the test succeeds is one `advance`. -/
def matches? (l : Lexer) (expected : Char) : Bool :=
  decide (l.cursor < l.source.length) && l.peek == expected.toUInt8

/-- The bytes from the cursor on: what bounds every loop. -/
def remaining (l : Lexer) : ℕ := l.source.length - l.cursor

/-- `while (p(peek())) advance();` for a test that fails on `'\0'`. -/
def advanceWhile (p : Byte → Bool) (l : Lexer) : Lexer :=
  go l.remaining l
where
  go : ℕ → Lexer → Lexer
  | 0, l => l
  | n + 1, l => if p l.peek then go n l.advance else l

/-- The inner loop of a `/* */` comment, entered behind its opener. -/
def skipBlockComment (l : Lexer) : Lexer :=
  go l.remaining l
where
  go : ℕ → Lexer → Lexer
  | 0, l => l
  | n + 1, l =>
      if l.peek = 0 then l
      else if l.peek = '*'.toUInt8 ∧ l.peek 1 = '/'.toUInt8 then l.advance.advance
      else go n l.advance

/-- The loop between the tokens: white space and both kinds of comments. -/
def skipWhitespaceAndComments (l : Lexer) : Lexer :=
  go l.remaining l
where
  go : ℕ → Lexer → Lexer
  | 0, l => l
  | n + 1, l =>
      match Char.ofNat l.peek.toNat with
      | ' ' | '\t' | '\r' | '\n' => go n l.advance
      | '/' =>
          if l.peek 1 = '/'.toUInt8 then
            go n (l.advance.advance.advanceWhile fun c => c != 0 && c != '\n'.toUInt8)
          else if l.peek 1 = '*'.toUInt8 then
            go n l.advance.advance.skipBlockComment
          else l -- the operator '/'
      | _ => l

/-- The token from `start` to the cursor: `cursor - start` is narrowed to the 16-bit `t::Length`. -/
def tokenFrom (start : ℕ) (type : TokenType) (l : Lexer) : Token :=
  { globalOffset := start, size := (l.cursor - start) % 2 ^ 16, extra := 0, flags := 1, type }

/-- A name, which takes the type of a keyword if it is one. -/
def lexIdentifierOrKeyword (l : Lexer) : Token × Lexer :=
  let start := l.cursor
  let l := l.advanceWhile isIdentBody
  let tok := l.tokenFrom start Ident
  let text := (l.source.drop start).take tok.size
  let type := stringMap text
  (if type = TBD then tok else { tok with type }, l)

/-- The fraction of `lexNumber`; the flag is `isFloat`. -/
def lexFraction (l : Lexer) : Bool × Lexer :=
  if l.peek = '.'.toUInt8 ∧ isDigit (l.peek 1) then (true, l.advance.advanceWhile isDigit)
  else (false, l)

/-- The exponent of `lexNumber`. -/
def lexExponent (isFloat : Bool) (l : Lexer) : Bool × Lexer :=
  if l.peek = 'e'.toUInt8 ∨ l.peek = 'E'.toUInt8 then
    let l := l.advance
    let l := if l.peek = '+'.toUInt8 ∨ l.peek = '-'.toUInt8 then l.advance else l
    (true, l.advanceWhile isDigit)
  else (isFloat, l)

/-- `lexNumber` up to its suffix loop. -/
def lexDigits (l : Lexer) : Bool × Lexer :=
  if l.peek = '0'.toUInt8 ∧ (l.peek 1 = 'x'.toUInt8 ∨ l.peek 1 = 'X'.toUInt8) then
    (false, l.advance.advance.advanceWhile isXDigit)
  else
    let (isFloat, l) := (l.advanceWhile isDigit).lexFraction
    lexExponent isFloat l

/-- A number: digits, fraction, exponent and suffix. -/
def lexNumber (l : Lexer) : Token × Lexer :=
  let start := l.cursor
  let (isFloat, l) := l.lexDigits
  let l := l.advanceWhile isNumberSuffix
  (l.tokenFrom start (if isFloat then LFloat else LInt), l)

/-- The common body of `lexString` and `lexChar`: the opening quote, then everything up to the
first unescaped `quote`. -/
def lexQuoted (quote : Byte) (type : TokenType) (l : Lexer) : Token × Lexer :=
  let start := l.cursor
  let l := l.advance
  let l := go l.remaining l
  (l.tokenFrom start type, l)
where
  go : ℕ → Lexer → Lexer
  | 0, l => l
  | n + 1, l =>
      if l.peek = 0 then l
      else
        let c := l.peek
        let l := l.advance
        if c = '\\'.toUInt8 then go n (if l.peek ≠ 0 then l.advance else l)
        else if c = quote then l
        else go n l

/-- A string, up to the quote that ends it. -/
def lexString (l : Lexer) : Token × Lexer := l.lexQuoted '"'.toUInt8 LString

/-- A character literal, up to the quote that ends it. -/
def lexChar (l : Lexer) : Token × Lexer := l.lexQuoted '\''.toUInt8 LChar

/-- `if (match(expected)) type = hit; else …`. -/
def matchOr (l : Lexer) (expected : Char) (hit : TokenType) (miss : TokenType × Lexer) :
    TokenType × Lexer :=
  if l.matches? expected then (hit, l.advance) else miss

/-- The operator switch of `nextToken`, entered behind the character `c`. -/
def lexOperator (c : Byte) (l : Lexer) : TokenType × Lexer :=
  match Char.ofNat c.toNat with
  | '+' => l.matchOr '+' PPlus (l.matchOr '=' PlusEquals (Plus, l))
  | '-' => l.matchOr '-' MMinus (l.matchOr '=' MinusEquals (l.matchOr '>' Arrow (Minus, l)))
  | '*' => l.matchOr '=' StarEquals (TokenType.Star, l)
  | '/' => l.matchOr '=' SlashEquals (l.matchOr '/' SSlash (Slash, l))
  | '%' => l.matchOr '=' PercEquals (Perc, l)
  | '&' => l.matchOr '&' AAmp (l.matchOr '=' AmpEquals (Amp, l))
  | '|' => l.matchOr '|' BBar (l.matchOr '=' BarEquals (Bar, l))
  | '^' => l.matchOr '=' UpEquals (Up, l)
  | '~' => l.matchOr '=' TildeEquals (Tilde, l)
  | '!' => l.matchOr '=' NEquals (Excl, l)
  | '=' => l.matchOr '=' EEquals (Equals, l)
  | '<' =>
      if l.matches? '<' then l.advance.matchOr '=' LLeEquals (LLesser, l.advance)
      else l.matchOr '=' LeEquals (Lesser, l)
  | '>' =>
      if l.matches? '>' then l.advance.matchOr '=' GGrEquals (GGreater, l.advance)
      else l.matchOr '=' GrEquals (Greater, l)
  | ':' => l.matchOr ':' CColon (Colon, l)
  | '.' =>
      if l.peek = '.'.toUInt8 ∧ l.peek 1 = '.'.toUInt8 then (Dots, l.advance.advance)
      else (Dot, l)
  | '?' => (Question, l)
  | '(' => (Left, l)
  | ')' => (Right, l)
  | '[' => (SqLeft, l)
  | ']' => (SqRight, l)
  | '{' => (BrLeft, l)
  | '}' => (BrRight, l)
  | ';' => (Semi, l)
  | ',' => (Comma, l)
  | _ => (Unknown, l)

/-- The token classes of `nextToken`, at a cursor inside the source.  The C++ code advances over
the first character and steps back with `cursor--` before the four scanners that start there. -/
def lexToken (l : Lexer) : Token × Lexer :=
  let start := l.cursor
  let c := l.peek
  if isIdentStart c then l.lexIdentifierOrKeyword
  else if isDigit c then l.lexNumber
  else if c = '"'.toUInt8 then l.lexString
  else if c = '\''.toUInt8 then l.lexChar
  else
    let (type, l) := lexOperator c l.advance
    (l.tokenFrom start type, l)

/-- `thisExpr.push_back(tok)`. -/
def buffer (tok : Token) (l : Lexer) : Lexer := { l with thisExpr := l.thisExpr ++ [tok] }

/-- The next token, and the lexer behind it. -/
def nextToken (l : Lexer) : Token × Lexer :=
  let l := l.skipWhitespaceAndComments
  if l.source.length ≤ l.cursor then
    let eofTok : Token := { globalOffset := l.source.length, size := 0, type := Eof }
    (eofTok, l.buffer eofTok)
  else
    let (tok, l) := l.lexToken
    (tok, l.buffer tok)

/-- The text of a token, or nothing if it reaches behind the source. -/
def getText (l : Lexer) (tok : Token) : List Byte :=
  if l.source.length < tok.globalOffset + tok.size then []
  else (l.source.drop tok.globalOffset).take tok.size

end Lexer

end LogicCompiler
