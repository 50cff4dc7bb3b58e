import LogicCompiler.Parser.Forest

/-!
# Brackets

Every production takes a bracket together with its partner, with one exception: the type of a
parameter is whatever token comes next.  So the tokens of an accepted source are properly nested
unless a parameter has a bracket for its type.
-/

namespace LogicCompiler

open TokenType NodeKind Cat

/-- The type of the bracket that closes one of the given type. -/
def closer : TokenType → Option TokenType
  | Left => some Right
  | SqLeft => some SqRight
  | BrLeft => some BrRight
  | _ => none

/-- A token that opens or closes a pair. -/
def isBracket (t : Token) : Bool := [Left, Right, SqLeft, SqRight, BrLeft, BrRight].contains t.type

/-- Properly nested tokens. -/
inductive Nested : List Token → Prop
  | nil : Nested []
  | plain {t : Token} (h : isBracket t = false) : Nested [t]
  | pair {l r : Token} {ts : List Token} (h : closer l.type = some r.type) (hts : Nested ts) :
      Nested (l :: (ts ++ [r]))
  | append {ts us : List Token} (hts : Nested ts) (hus : Nested us) : Nested (ts ++ us)

/-- Follow the brackets, with the types of those that are to come on a stack. -/
def scanBrackets : List TokenType → List Token → Option (List TokenType)
  | stack, [] => some stack
  | stack, t :: ts =>
      match closer t.type with
      | some close => scanBrackets (close :: stack) ts
      | none =>
          if isBracket t then
            match stack with
            | close :: stack => if t.type = close then scanBrackets stack ts else none
            | [] => none
          else scanBrackets stack ts

section Nested

variable {t l r : Token} {ts us : List Token} {type : TokenType}

lemma closer_eq_none (h : isBracket t = false) : closer t.type = none := by
  cases ht : t.type <;> simp [isBracket, ht, closer] at h ⊢

lemma closer_closer {a b : TokenType} (h : closer a = some b) : closer b = none := by
  cases a <;> cases h <;> rfl

lemma isBracket_of_closer (h : closer l.type = some r.type) : isBracket r = true := by
  cases hl : l.type <;> simp [hl, closer] at h <;> simp [isBracket, ← h]

/-- Nested tokens leave the stack as it was. -/
lemma Nested.scan (h : Nested ts) (stack : List TokenType) (us : List Token) :
    scanBrackets stack (ts ++ us) = scanBrackets stack us := by
  induction h generalizing stack us with
  | nil => rfl
  | plain h => simp [scanBrackets, closer_eq_none h, h]
  | pair h _ ih =>
      simp [scanBrackets, h, ih, closer_closer h, isBracket_of_closer h]
  | append _ _ ihts ihus => rw [List.append_assoc, ihts, ihus]

lemma Nested.cons (h : isBracket t = false) (hts : Nested ts) : Nested (t :: ts) :=
  (Nested.plain h).append hts

lemma Nested.pair_append (h : closer l.type = some r.type) (hts : Nested ts) (hus : Nested us) :
    Nested (l :: (ts ++ r :: us)) := by
  simpa using (Nested.pair h hts).append hus

lemma not_bracket (htype : isBracket { type } = false) (t : Tok type) : isBracket t.1 = false := by
  simpa [isBracket, t.2] using htype

lemma open_bracket (htype : isBracket { type } = true) (t : Tok type) : isBracket t.1 = true := by
  simpa [isBracket, t.2] using htype

lemma not_brackets {types : List TokenType}
    (htypes : ∀ type ∈ types, isBracket { type } = false) (t : TokOf types) :
    isBracket t.1 = false := by
  simpa [isBracket] using htypes t.1.type t.2

lemma op_not_bracket (op : BinaryOp) : isBracket op.1 = false := by
  have hop := op.2
  cases htype : op.1.type <;> simp [htype, Parser.getPrecedence] at hop <;>
    simp [isBracket, htype]

lemma nested_optToken (htype : isBracket { type } = false) (o : Option (Tok type)) :
    Nested (optToken o) := by
  cases o with
  | none => exact Nested.nil
  | some t => exact Nested.plain (not_bracket htype t)

lemma nested_type (o : Option (TokOf [kByte, Ident])) : Nested (optToken o) := by
  cases o with
  | none => exact Nested.nil
  | some t => exact Nested.plain (not_brackets (by decide) t)

lemma nested_quals (q : QualifierTokens) : Nested q.tokens := by
  induction q with
  | nil => exact Nested.nil
  | cons t q ih => exact ih.cons (not_brackets (by decide) t)

end Nested

/-! ## Who takes a bracket -/

/-- The categories that have no bracket for a keyword: all that occur. -/
def Cat.bracketless : Cat → Bool
  | Cat.conditional keyword => !isBracket { type := keyword }
  | opt k | list k | orSemi k => k.bracketless
  | led types k => types.all (fun type => !isBracket { type }) && k.bracketless
  | seq k l => k.bracketless && l.bracketless
  | _ => true

namespace Syn

/-- The brackets that a production takes in pairs. -/
def pairs : {k : Cat} → Syn k → List (Token × Token)
  | _, cast l _ r => [(l.1, r.1)]
  | _, paren l _ r => [(l.1, r.1)]
  | _, call _ l _ r => [(l.1, r.1)]
  | _, index _ l _ r => [(l.1, r.1)]
  | _, whileStmt _ _ l _ r _ => [(l.1, r.1)]
  | _, forStmt _ _ l _ _ _ _ r _ => [(l.1, r.1)]
  | _, functionDecl _ _ _ l _ r _ => [(l.1, r.1)]
  | _, conditional _ l _ r _ _ => [(l.1, r.1)]
  | _, braced l _ r => [(l.1, r.1)]
  | _, _ => []

/-- The token a parameter takes for its type. -/
def paramType : {k : Cat} → Syn k → List Token
  | _, parameter _ type _ _ => type.toList
  | _, _ => []

end Syn

namespace Part

/-- The brackets that a part's production takes together with their partners. -/
def paired (x : Part) : List Token := x.syn.pairs.flatMap fun p => [p.1, p.2]

/-- The token that a part's production takes for a type, whatever it is. -/
def anyToken (x : Part) : List Token := x.syn.paramType

end Part

namespace Syn

variable {k : Cat}

lemma nested_pair {a b : TokenType} (hab : closer a = Option.some b) (l : Tok a) (r : Tok b)
    {ts us : List Token} (hts : Nested ts) (hus : Nested us) :
    Nested (l.1 :: (ts ++ r.1 :: us)) :=
  Nested.pair_append (by rw [l.2, r.2, hab]) hts hus

/-- Syntax is nested when no parameter has a bracket for its type. -/
lemma nested (s : Syn k) {base next : ℕ} (hk : k.bracketless = true)
    (h : ∀ x ∈ s.parts base next, ∀ t ∈ x.anyToken, isBracket t = false) :
    Nested s.tokens := by
  induction s generalizing base next
  all_goals
    simp only [parts, List.forall_mem_cons, List.forall_mem_append, Part.anyToken, paramType,
      List.not_mem_nil, false_imp_iff, implies_true, true_and, and_true] at h
    simp only [tokens]
  case pre op _ ih => exact (ih rfl h).cons (not_brackets (by decide) op)
  case literal t => exact Nested.plain (not_brackets (by decide) t)
  case ident t => exact Nested.plain (not_brackets (by decide) t)
  case eval ih => exact ih rfl h
  case cast l _ r ih => exact nested_pair rfl l r (ih rfl h) Nested.nil
  case blockExpr ih => exact ih rfl h
  case paren l _ r ih => exact nested_pair rfl l r (ih rfl h) Nested.nil
  case call l _ r ihf iha => exact (ihf rfl h.1).append (nested_pair rfl l r (iha rfl h.2) Nested.nil)
  case member op name ih =>
    exact (ih rfl h).append ((Nested.plain (not_bracket rfl name)).cons (not_brackets (by decide) op))
  case index l _ r ihe ihi => exact (ihe rfl h.1).append (nested_pair rfl l r (ihi rfl h.2) Nested.nil)
  case post op ih => exact (ih rfl h).append (Nested.plain (not_brackets (by decide) op))
  case binary op _ ihl ihr => exact (ihl rfl h.1).append ((ihr rfl h.2).cons (op_not_bracket op))
  case block q _ ih => exact (nested_quals q).append (ih rfl h)
  case ifStmt q _ ih => exact (nested_quals q).append (ih rfl h)
  case whileStmt q k l _ r _ ihc ihb =>
    exact (nested_quals q).append ((nested_pair rfl l r (ihc rfl h.1) (ihb rfl h.2)).cons
      (not_bracket rfl k))
  case forStmt q k l _ _ semi _ r _ ihi ihc ihn ihb =>
    rcases h with ⟨hi, hc, hn, hb⟩
    refine (nested_quals q).append (Nested.cons (not_bracket rfl k) ?_)
    have hhead := (ihi rfl hi).append ((ihc rfl hc).append ((ihn rfl hn).cons (not_bracket rfl semi)))
    simpa using nested_pair rfl l r hhead (ihb rfl hb)
  case returnStmt q k _ semi ih =>
    exact (nested_quals q).append (((ih rfl h).append (Nested.plain (not_bracket rfl semi))).cons
      (not_bracket rfl k))
  case jump q k semi =>
    exact (nested_quals q).append ((Nested.plain (not_bracket rfl semi)).cons
      (not_brackets (by decide) k))
  case structDecl q k name _ semi ih =>
    exact (nested_quals q).append ((((ih rfl h).append (nested_optToken rfl semi)).cons
      (not_bracket rfl name)).cons (not_bracket rfl k))
  case namespaceDecl q k name _ ih =>
    exact (nested_quals q).append (((ih rfl h).cons (not_bracket rfl name)).cons (not_bracket rfl k))
  case deleteStmt q _ semi ih =>
    exact (nested_quals q).append ((ih rfl h).append (nested_optToken rfl semi))
  case requires q k colon _ semi ih =>
    exact (nested_quals q).append ((((ih rfl h).append (nested_optToken rfl semi)).cons
      (not_bracket rfl colon)).cons (not_bracket rfl k))
  case typeDecl q k name _ _ semi ihb ihs =>
    exact (nested_quals q).append ((((ihb rfl h.1).append ((ihs rfl h.2).append
      (nested_optToken rfl semi))).cons (not_bracket rfl name)).cons (not_bracket rfl k))
  case functionDecl q type name l _ r _ ihp ihb =>
    exact (nested_quals q).append ((nested_type type).append
      ((nested_pair rfl l r (ihp rfl h.1) (ihb rfl h.2)).cons (not_bracket rfl name)))
  case varDecl q type name _ semi ih =>
    exact (nested_quals q).append ((nested_type type).append
      (((ih rfl h).append (Nested.plain (not_bracket rfl semi))).cons (not_bracket rfl name)))
  case exprStmt q _ semi ih =>
    exact (nested_quals q).append ((ih rfl h).append (nested_optToken rfl semi))
  case delete k auto _ ih =>
    exact ((nested_optToken rfl auto).append (ih rfl h)).cons (not_bracket rfl k)
  case conditional keyword k l _ r _ _ ihc iht ihe =>
    rcases h with ⟨hc, ht, he⟩
    refine Nested.cons ?_ (nested_pair rfl l r (ihc rfl hc) ((iht rfl ht).append (ihe rfl he)))
    exact not_bracket (by simpa [Cat.bracketless] using hk) k
  case braced l _ r ih => exact nested_pair rfl l r (ih rfl h) Nested.nil
  case parameter q type name _ ih =>
    refine (nested_quals q).append (Nested.append ?_ ((nested_optToken rfl name).append (ih rfl h.2)))
    cases type with
    | none => exact Nested.nil
    | some t => exact Nested.plain (h.1 t (by simp))
  case none => exact Nested.nil
  case some ih => exact ih hk h
  case nil => exact Nested.nil
  case cons ihs ihr => exact (ihs hk h.1).append (ihr hk h.2)
  case led t _ ih =>
    simp only [Cat.bracketless, Bool.and_eq_true, List.all_eq_true, Bool.not_eq_true'] at hk
    exact (ih hk.2 h).cons (not_brackets hk.1 t)
  case seq ihs iht =>
    simp only [Cat.bracketless, Bool.and_eq_true] at hk
    exact (ihs hk.1 h.1).append (iht hk.2 h.2)
  case bare semi => exact Nested.plain (not_bracket rfl semi)
  case full ih => exact ih hk h

lemma filter_quals (q : QualifierTokens) : q.tokens.filter isBracket = [] := by
  induction q with
  | nil => rfl
  | cons t q ih =>
      have ht : isBracket t.1 = false := not_brackets (by decide) t
      simpa [QualifierTokens.tokens, ht] using ih

lemma filter_optToken {type : TokenType} (htype : isBracket { type } = false)
    (o : Option (Tok type)) : (optToken o).filter isBracket = [] := by
  cases o with
  | none => rfl
  | some t => simp [optToken, not_bracket htype t]

lemma filter_type (o : Option (TokOf [kByte, Ident])) : (optToken o).filter isBracket = [] := by
  cases o with
  | none => rfl
  | some t =>
      have ht : isBracket t.1 = false := not_brackets (by decide) t
      simp [optToken, ht]

/-- The brackets among the tokens are those taken in pairs and those taken for types. -/
lemma count_brackets (s : Syn k) {base next : ℕ} (hk : k.bracketless = true) (t : Token) :
    (s.tokens.filter isBracket).count t =
      ((s.parts base next).flatMap Part.paired).count t
        + (((s.parts base next).flatMap Part.anyToken).filter isBracket).count t := by
  have hcats : ∀ k ∈ [Cat.conditional kEval, Cat.conditional kIf, opt Cat.base,
      opt (commaList expr), opt (commaList param), opt (Cat.led [Equals] expr),
      opt (Cat.led [kElse] stmt)], k.bracketless = true := by decide
  simp only [List.forall_mem_cons] at hcats
  induction s generalizing base next
  all_goals
    simp (disch := decide) only [parts, tokens, List.flatMap_cons, List.flatMap_append,
      List.filter_append, List.count_append, List.filter_cons, List.flatMap_nil, List.nil_append,
      List.cons_append, List.filter_nil, List.count_nil, Part.paired, Part.anyToken, pairs,
      paramType, filter_quals, filter_optToken, filter_type,
      op_not_bracket, open_bracket, not_bracket, not_brackets,
      List.count_cons, if_true, Bool.false_eq_true, if_false]
  case conditional k _ _ _ _ _ _ _ _ =>
    rw [not_bracket (by simpa [Cat.bracketless] using hk) k]
    grind [Cat.bracketless]
  case parameter type _ _ _ =>
    cases type <;> grind [Cat.bracketless]
  case led t _ _ =>
    simp only [Cat.bracketless, Bool.and_eq_true, List.all_eq_true, Bool.not_eq_true'] at hk
    rw [not_brackets hk.1 t]
    grind
  all_goals grind [Cat.bracketless]

end Syn

variable {src : List Byte} {tree : ASTTree} {u : Syn (list stmt)}

namespace Parses

/-- Brackets are nested and every one is taken with its partner, unless one is the type of a
parameter. -/
lemma brackets (h : Parses src tree u) :
    (Nested (Lexer.tokensOf src) ∧
        ((Lexer.tokensOf src).filter isBracket).Perm
          ((u.parts 1 src.length).flatMap Part.paired)) ↔
      ∀ x ∈ u.parts 1 src.length, ∀ t ∈ x.anyToken, isBracket t = false := by
  rw [← h.tokens]
  have hcount : ∀ t, (u.tokens.filter isBracket).count t =
      ((u.parts 1 src.length).flatMap Part.paired).count t
        + (((u.parts 1 src.length).flatMap Part.anyToken).filter isBracket).count t :=
    fun t => u.count_brackets rfl t
  constructor
  · rintro ⟨-, hperm⟩ x hx t ht
    by_contra hbracket
    have hmem : t ∈ ((u.parts 1 src.length).flatMap Part.anyToken).filter isBracket :=
      List.mem_filter.mpr ⟨List.mem_flatMap.mpr ⟨x, hx, ht⟩, by simpa using hbracket⟩
    have hpos := List.count_pos_iff.mpr hmem
    have heq := hperm.count_eq t
    have := hcount t
    omega
  · intro hany
    refine ⟨u.nested rfl hany, List.perm_iff_count.mpr fun t => ?_⟩
    have hnone : ((u.parts 1 src.length).flatMap Part.anyToken).filter isBracket = [] := by
      rw [List.filter_eq_nil_iff]
      intro t ht
      rcases List.mem_flatMap.mp ht with ⟨x, hx, htx⟩
      simp [hany x hx t htx]
    simpa [hnone] using hcount t

end Parses

/-- **Brackets of an accepted source.**  Its tokens are properly nested and every bracket is taken
by the production that takes its partner, if and only if no parameter has a bracket for its
type. -/
theorem accepts_brackets (h : Parser.Accepts src tree) :
    (∃ u, Parses src tree u) ∧ ∀ u, Parses src tree u →
      ((Nested (Lexer.tokensOf src) ∧
          ((Lexer.tokensOf src).filter isBracket).Perm
            ((u.parts 1 src.length).flatMap Part.paired)) ↔
        ∀ x ∈ u.parts 1 src.length, ∀ t ∈ x.anyToken, isBracket t = false) :=
  ⟨Parser.accepts_unit h, fun _ hu => hu.brackets⟩

theorem accepts_brackets_sample :
    ∃ tree, (∃ u, Parses (bytes "f(a[0]);") tree u) ∧ ∀ u, Parses (bytes "f(a[0]);") tree u →
      ((Nested (Lexer.tokensOf (bytes "f(a[0]);")) ∧
          ((Lexer.tokensOf (bytes "f(a[0]);")).filter isBracket).Perm
            ((u.parts 1 8).flatMap Part.paired)) ↔
        ∀ x ∈ u.parts 1 8, ∀ t ∈ x.anyToken, isBracket t = false) := by
  have hparse : Parser.parse (bytes "f(a[0]);") 20 = Option.some (.ok
      [default, ⟨IdentifierExpr, {}, 0, 1, Data.literal Ident 0⟩,
        ⟨IdentifierExpr, {}, 2, 1, Data.literal Ident 0⟩,
        ⟨LiteralExpr, {}, 4, 1, Data.literal LInt 0⟩,
        ⟨BinaryExpr, {}, 6, 0, Data.binary SqLeft 2 3⟩, ⟨CallExpr, {}, 7, 0, Data.call 1 4⟩]) := by
    decide +kernel
  exact ⟨_, accepts_brackets (Parser.accepts_of_parse hparse)⟩

/-- `byte f(();` is accepted: the type of the parameter is the second `(`. -/
theorem accepts_unnested :
    ¬ ∀ src tree, Parser.Accepts src tree → Nested (Lexer.tokensOf src) := by
  intro h
  have hparse : Parser.parse (bytes "byte f(();") 20 = Option.some (.ok
      [default, ⟨VarDecl, {}, 7, 0, Data.varDecl 2 3 kNullNode⟩,
        ⟨IdentifierExpr, {}, 7, 1, Data.literal Left 0⟩,
        ⟨IdentifierExpr, {}, 0, 0, Data.literal Unknown 0⟩,
        ⟨IdentifierExpr, {}, 0, 4, Data.literal kByte 0⟩,
        ⟨IdentifierExpr, {}, 5, 1, Data.literal Ident 0⟩,
        ⟨FunctionDecl, {}, 5, 0, Data.varDecl 4 5 kNullNode⟩]) := by
    decide +kernel
  have hscan := (h _ _ (Parser.accepts_of_parse hparse)).scan [] []
  rw [List.append_nil] at hscan
  exact absurd hscan (by decide +kernel)

end LogicCompiler
