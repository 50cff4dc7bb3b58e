import LogicCompiler.Common.Hashing

/-!
# Tokens

`common/token/token_def.h`: the token types in the order of the enumeration (the position is the
byte the AST stores), their spellings, the hashed keyword lookup `string_map`, and `Token`.
-/

namespace LogicCompiler

/-- `t::TokenType`.  The trailing `count` of the enumeration is `TokenType.count` below. -/
inductive TokenType where
  | kFalse | kTrue | kIf | kElse | kFor | kWhile | kEval | kBreak | kContinue | kReturn
  | kConstexpr | kConst | kStatic | kInline | kTemplate | kPublic | kPrivate | kRequires
  | kNamespace | kNew | kDelete | kAuto | kSizeof | kTypeof | kType | kByte | kVoid | kStruct
  | kEnum | Ident | LInt | LFloat | LString | LChar | Plus | Minus | Star | Slash | Amp | Bar
  | Up | Tilde | Excl | Perc | Question | Equals | Colon | Greater | Lesser | PPlus | MMinus
  | PlusEquals | MinusEquals | StarEquals | SlashEquals | PercEquals | AmpEquals | BarEquals
  | TildeEquals | UpEquals | EEquals | NEquals | AAmp | BBar | GrEquals | LeEquals | GGreater
  | LLesser | GGrEquals | LLeEquals | CColon | SSlash | Dot | Dots | Arrow | Left | Right
  | SqLeft | SqRight | BrLeft | BrRight | Semi | Comma | WideComment | Eof | Unknown | External
  | TBD
  deriving DecidableEq, Repr, Inhabited

namespace TokenType

/-- The value of the enumerator, a `TypeSize` (one byte). -/
def code (t : TokenType) : ℕ := t.ctorIdx

/-- The number of token types. -/
def count : ℕ := 88

lemma code_lt_count (t : TokenType) : t.code < count := by
  cases t <;> decide

lemma ofNat_code (t : TokenType) : TokenType.ofNat t.code = t := TokenType.ofNat_ctorIdx t

lemma code_injective {s t : TokenType} (h : s.code = t.code) : s = t := by
  rw [← ofNat_code s, h, ofNat_code]

end TokenType

open TokenType

/-- `TT_STRMAP`: the spelling of a token type, empty where the text is not constant. -/
def ttStrmap : TokenType → String
  | kFalse => "false"
  | kTrue => "true"
  | kIf => "if"
  | kElse => "else"
  | kFor => "for"
  | kWhile => "while"
  | kEval => "eval"
  | kBreak => "break"
  | kContinue => "continue"
  | kReturn => "return"
  | kConstexpr => "constexpr"
  | kConst => "const"
  | kStatic => "static"
  | kInline => "inline"
  | kTemplate => "template"
  | kPublic => "public"
  | kPrivate => "private"
  | kRequires => "requires"
  | kNamespace => "namespace"
  | kNew => "new"
  | kDelete => "delete"
  | kAuto => "auto"
  | kSizeof => "sizeof"
  | kTypeof => "typeof"
  | kType => "type"
  | kByte => "byte"
  | kVoid => "void"
  | kStruct => "struct"
  | kEnum => "enum"
  | Plus => "+"
  | Minus => "-"
  | .Star => "*"
  | Slash => "/"
  | Amp => "&"
  | Bar => "|"
  | Up => "^"
  | Tilde => "~"
  | Excl => "!"
  | Perc => "%"
  | Question => "?"
  | Equals => "="
  | Colon => ":"
  | Greater => ">"
  | Lesser => "<"
  | PPlus => "++"
  | MMinus => "--"
  | PlusEquals => "+="
  | MinusEquals => "-="
  | StarEquals => "*="
  | SlashEquals => "/="
  | PercEquals => "%="
  | AmpEquals => "&="
  | BarEquals => "|="
  | TildeEquals => "~="
  | UpEquals => "^="
  | EEquals => "=="
  | NEquals => "!="
  | AAmp => "&&"
  | BBar => "||"
  | GrEquals => ">="
  | LeEquals => "<="
  | GGreater => ">>"
  | LLesser => "<<"
  | GGrEquals => ">>="
  | LLeEquals => "<<="
  | CColon => "::"
  | SSlash => "//"
  | Dot => "."
  | Dots => "..."
  | Arrow => "->"
  | Left => "("
  | Right => ")"
  | SqLeft => "["
  | SqRight => "]"
  | BrLeft => "\x7b"
  | BrRight => "\x7d"
  | Semi => ";"
  | Comma => ","
  | _ => ""

/-- The hash of the text that stands for a token type. -/
def hashToken (type : TokenType) : UInt64 := hashDirective (bytes (ttStrmap type))

/-- The `case` labels of the switch in `string_map`, in source order. -/
def stringMapCases : List TokenType :=
  [kFalse, kTrue, kIf, kElse, kFor, kWhile, kEval, kBreak, kContinue, kReturn, kConstexpr,
   kConst, kStatic, kInline, kTemplate, kPublic, kPrivate, kRequires, kNamespace, kNew,
   kDelete, kAuto, kSizeof, kTypeof, kType, kByte, kVoid, kStruct, kEnum, Plus, Minus, .Star,
   Slash, Amp, Bar, Up, Tilde, Excl, Perc, Question, Equals, Colon, Greater, Lesser, PPlus,
   MMinus, PlusEquals, MinusEquals, StarEquals, SlashEquals, PercEquals, AmpEquals, BarEquals,
   TildeEquals, UpEquals, EEquals, NEquals, AAmp, BBar, GrEquals, LeEquals, GGreater, LLesser,
   GGrEquals, LLeEquals, CColon, SSlash, Dot, Dots, Arrow, Left, Right, SqLeft, SqRight,
   BrLeft, BrRight, Semi, Comma]

/-- `string_map`: a switch over the hash, each case checked against the spelling. -/
def stringMap (sv : List Byte) : TokenType :=
  match stringMapCases.find? fun type => hashToken type == hashDirective sv with
  | some type => if sv = bytes (ttStrmap type) then type else TBD
  | none => TBD

/-- `Token`: its type, where it stands, and how long it is. -/
structure Token where
  globalOffset : ℕ := 0
  size : ℕ := 0
  extra : ℕ := 0
  flags : ℕ := 1
  type : TokenType := Unknown
  deriving DecidableEq, Repr, Inhabited

end LogicCompiler
