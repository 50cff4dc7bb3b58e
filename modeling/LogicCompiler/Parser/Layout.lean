import LogicCompiler.Parser.Recognition
import LogicCompiler.Parser.SourceTracking
import LogicCompiler.Parser.Views

/-!
# Layout

Two sources whose tokens have the same types and texts differ in white space and comments only.  The
reading of one is the reading of the other, with the tokens taken from their new places (`relocate`);
whether it is canonical depends on types, and on the one text that the parser looks at.  So the parser
accepts both or neither, and what it builds is the same but for the offsets (`accepts_layout`).
-/

namespace LogicCompiler

open TokenType NodeKind Cat Lexer LogicCompiler.Parser

/-- New places for tokens, which keep their types. -/
structure Relocation where
  token : Token → Token
  type_eq : ∀ t, (token t).type = t.type

namespace Relocation

variable (f : Relocation)

/-- A token of a given type, changed. -/
def one {type : TokenType} (t : Tok type) : Tok type := ⟨f.token t.1, (f.type_eq t.1).trans t.2⟩

/-- A token of one of several types, changed. -/
def among {types : List TokenType} (t : TokOf types) : TokOf types :=
  ⟨f.token t.1, (f.type_eq t.1).symm ▸ t.2⟩

/-- A binary operator, changed. -/
def operator (t : BinaryOp) : BinaryOp := ⟨f.token t.1, (f.type_eq t.1).symm ▸ t.2⟩

@[simp] lemma one_val {type : TokenType} (t : Tok type) : (f.one t).1 = f.token t.1 := rfl

@[simp] lemma among_val {types : List TokenType} (t : TokOf types) :
    (f.among t).1 = f.token t.1 := rfl

@[simp] lemma operator_val (t : BinaryOp) : (f.operator t).1 = f.token t.1 := rfl

@[simp] lemma optToken_one {type : TokenType} (t : Option (Tok type)) :
    optToken (t.map f.one) = (optToken t).map f.token := by
  cases t <;> rfl

@[simp] lemma optToken_among {types : List TokenType} (t : Option (TokOf types)) :
    optToken (t.map f.among) = (optToken t).map f.token := by
  cases t <;> rfl

@[simp] lemma tokens_among (q : QualifierTokens) :
    QualifierTokens.tokens (q.map f.among) = q.tokens.map f.token := by
  rw [QualifierTokens.tokens, QualifierTokens.tokens, List.map_map, List.map_map]
  rfl

@[simp] lemma value_among (q : QualifierTokens) :
    QualifierTokens.value (q.map f.among) = q.value := by
  rw [QualifierTokens.value, QualifierTokens.value, List.foldl_map]
  simp only [among_val, f.type_eq]

end Relocation

namespace Syn

/-- The same syntax, of tokens in other places. -/
def relocate (f : Relocation) : {k : Cat} → Syn k → Syn k
  | _, pre op e => pre (f.among op) (e.relocate f)
  | _, literal t => literal (f.among t)
  | _, ident t => ident (f.among t)
  | _, eval s => eval (s.relocate f)
  | _, cast l d r => cast (f.one l) (d.relocate f) (f.one r)
  | _, blockExpr b => blockExpr (b.relocate f)
  | _, paren l e r => paren (f.one l) (e.relocate f) (f.one r)
  | _, call e l args r => call (e.relocate f) (f.one l) (args.relocate f) (f.one r)
  | _, member e op name => member (e.relocate f) (f.among op) (f.one name)
  | _, index e l i r => index (e.relocate f) (f.one l) (i.relocate f) (f.one r)
  | _, post e op => post (e.relocate f) (f.among op)
  | _, binary lhs op rhs => binary (lhs.relocate f) (f.operator op) (rhs.relocate f)
  | _, block q b => block (q.map f.among) (b.relocate f)
  | _, ifStmt q s => ifStmt (q.map f.among) (s.relocate f)
  | _, whileStmt q k l cond r body =>
      whileStmt (q.map f.among) (f.one k) (f.one l) (cond.relocate f) (f.one r) (body.relocate f)
  | _, forStmt q k l init cond semi incr r body =>
      forStmt (q.map f.among) (f.one k) (f.one l) (init.relocate f) (cond.relocate f) (f.one semi)
        (incr.relocate f) (f.one r) (body.relocate f)
  | _, returnStmt q k e semi => returnStmt (q.map f.among) (f.one k) (e.relocate f) (f.one semi)
  | _, jump q k semi => jump (q.map f.among) (f.among k) (f.one semi)
  | _, structDecl q k name body semi =>
      structDecl (q.map f.among) (f.one k) (f.one name) (body.relocate f) (semi.map f.one)
  | _, namespaceDecl q k name body =>
      namespaceDecl (q.map f.among) (f.one k) (f.one name) (body.relocate f)
  | _, deleteStmt q d semi => deleteStmt (q.map f.among) (d.relocate f) (semi.map f.one)
  | _, requires q k colon e semi =>
      requires (q.map f.among) (f.one k) (f.one colon) (e.relocate f) (semi.map f.one)
  | _, typeDecl q k name base body semi =>
      typeDecl (q.map f.among) (f.one k) (f.one name) (base.relocate f) (body.relocate f)
        (semi.map f.one)
  | _, functionDecl q type name l params r body =>
      functionDecl (q.map f.among) (type.map f.among) (f.one name) (f.one l) (params.relocate f)
        (f.one r) (body.relocate f)
  | _, varDecl q type name init semi =>
      varDecl (q.map f.among) (type.map f.among) (f.one name) (init.relocate f) (f.one semi)
  | _, exprStmt q e semi => exprStmt (q.map f.among) (e.relocate f) (semi.map f.one)
  | _, delete k auto target => delete (f.one k) (auto.map f.one) (target.relocate f)
  | _, conditional k l cond r thenBlock elseBlock =>
      conditional (f.one k) (f.one l) (cond.relocate f) (f.one r) (thenBlock.relocate f)
        (elseBlock.relocate f)
  | _, braced l body r => braced (f.one l) (body.relocate f) (f.one r)
  | _, parameter q type name init =>
      parameter (q.map f.among) (type.map f.token) (name.map f.one) (init.relocate f)
  | _, none => none
  | _, some s => some (s.relocate f)
  | _, nil => nil
  | _, cons s rest => cons (s.relocate f) (rest.relocate f)
  | _, led t s => led (f.among t) (s.relocate f)
  | _, seq s t => seq (s.relocate f) (t.relocate f)
  | _, bare semi => bare (f.one semi)
  | _, full s => full (s.relocate f)

variable {k : Cat} (f : Relocation)

/-- The tokens of a derivation are changed one by one. -/
@[simp] lemma tokens_relocate (s : Syn k) : (s.relocate f).tokens = s.tokens.map f.token := by
  induction s with
  | parameter q type name init ih => cases type <;> simp [relocate, tokens, ih]
  | _ => simp [relocate, tokens, *]

@[simp] lemma size_relocate (s : Syn k) : (s.relocate f).size = s.size := by
  induction s <;> simp [relocate, size, *]

/-- The nodes stand where they stood. -/
@[simp] lemma root_relocate (s : Syn k) (base : ℕ) : (s.relocate f).root base = s.root base := by
  induction s generalizing base <;> simp [relocate, root, *]

@[simp] lemma level_relocate (s : Syn k) : (s.relocate f).level = s.level := by
  cases s <;> simp [relocate, level, f.type_eq]

end Syn

/-! ## Nodes -/

/-- A node without its place, but with its text. -/
structure Face where
  kind : NodeKind
  qualifiers : Qualifiers
  data : Data
  text : List Byte
  deriving DecidableEq

/-- A struct and a namespace keep the offset of their name, in the place of `target`. -/
def Node.face (src : List Byte) (n : Node) : Face where
  kind := n.kind
  qualifiers := n.qualifiers
  data := if n.kind = StructDecl ∨ n.kind = NamespaceDecl then { n.data with word0 := 0 } else n.data
  text := snippet src n.sourceOffset n.sourceLength

/-- Lists of nodes with the same faces. -/
def SameFaces (src src' : List Byte) (ns ns' : List Node) : Prop :=
  ns'.map (Node.face src') = ns.map (Node.face src)

/-- Tokens with the same type and the same text. -/
def Token.Same (src src' : List Byte) (t t' : Token) : Prop :=
  t'.type = t.type ∧ t'.text src' = t.text src

section Faces

variable {src src' : List Byte} {ns ns' ms ms' : List Node} {n n' : Node} {t t' : Token}

lemma SameFaces.nil : SameFaces src src' [] [] := rfl

lemma SameFaces.cons (hn : n'.face src' = n.face src) (h : SameFaces src src' ns ns') :
    SameFaces src src' (n :: ns) (n' :: ns') := by
  rw [SameFaces, List.map_cons, List.map_cons, hn, h]

/-- Nodes that look alike, piece by piece. -/
lemma SameFaces.append (h : SameFaces src src' ns ns') (hm : SameFaces src src' ms ms') :
    SameFaces src src' (ns ++ ms) (ns' ++ ms') := by
  rw [SameFaces, List.map_append, List.map_append, h, hm]

lemma SameFaces.one (hn : n'.face src' = n.face src) : SameFaces src src' [n] [n'] :=
  SameFaces.nil.cons hn

/-- A node without a length shows no text. -/
lemma face_plainNode (kind : NodeKind) (offset offset' : ℕ) (data : Data) (q : Qualifiers) :
    (plainNode kind offset' data q).face src' = (plainNode kind offset data q).face src :=
  rfl

/-- Tokens that are the same give nodes that look alike. -/
lemma Token.Same.face (h : t.Same src src' t') (kind : NodeKind) (data : Data) :
    Node.face src' { tokenNode kind t' with data := data } =
      Node.face src { tokenNode kind t with data := data } :=
  congrArg _ h.2

lemma Token.Same.face_tokenNode (h : t.Same src src' t') (kind : NodeKind) :
    (tokenNode kind t').face src' = (tokenNode kind t).face src := by
  rw [Node.face, Node.face, tokenNode, tokenNode, h.1]
  exact congrArg _ h.2

lemma Token.Same.of_empty (h : t.size = 0) : t.Same src src' t := by
  rw [Token.Same, Token.text, Token.text, snippet, snippet, h, List.take_zero, List.take_zero]
  exact ⟨rfl, rfl⟩

/-- The faces of a declaration. -/
lemma sameFaces_declNodes {type type' name name' : Token} (htype : type.Same src src' type')
    (hname : name.Same src src' name') (kind : NodeKind) (q : Qualifiers) (id initExpr : NodeId) :
    SameFaces src src' (declNodes kind q type name id initExpr)
      (declNodes kind q type' name' id initExpr) :=
  .cons (face_plainNode _ _ _ _ _)
    (.cons (htype.face_tokenNode _) (.one (hname.face_tokenNode _)))

end Faces

section Relocated

variable {f : Relocation} {src src' : List Byte}

/-- Types that are inferred look alike. -/
lemma same_typeToken {types : List TokenType} (type : Option (TokOf types))
    (h : ∀ t ∈ optToken type, t.Same src src' (f.token t)) :
    (typeToken type).Same src src' (typeToken (type.map f.among)) := by
  cases type with
  | none => exact .of_empty rfl
  | some t => exact h _ (List.mem_singleton_self _)

lemma same_nameToken (name : Option (Tok Ident))
    (h : ∀ t ∈ optToken name, t.Same src src' (f.token t)) :
    (nameToken name).Same src src' (nameToken (name.map f.one)) := by
  cases name with
  | none => exact .of_empty rfl
  | some t => exact h _ (List.mem_singleton_self _)

lemma same_getD (type : Option Token) (h : ∀ t ∈ type.toList, t.Same src src' (f.token t)) :
    (type.getD autoToken).Same src src' ((type.map f.token).getD autoToken) := by
  cases type with
  | none => exact .of_empty rfl
  | some t => exact h _ (List.mem_singleton_self _)

end Relocated

namespace Syn

variable {k : Cat} {f : Relocation} {src src' : List Byte}

/-- The nodes of relocated syntax are the same but for their places. -/
lemma faces_relocate (s : Syn k) (h : ∀ t ∈ s.tokens, t.Same src src' (f.token t))
    (base next next' : ℕ) :
    SameFaces src src' (s.nodes base next) ((s.relocate f).nodes base next') := by
  induction s generalizing base next next'
  all_goals
    simp only [tokens, List.forall_mem_append, List.forall_mem_cons, List.not_mem_nil,
      IsEmpty.forall_iff, implies_true, and_true] at h
    simp only [relocate, nodes, root_relocate, size_relocate, f.type_eq, Relocation.among_val,
      Relocation.one_val, Relocation.operator_val, Relocation.value_among]
  case literal t => exact .one (h.face_tokenNode _)
  case ident t => exact .one (h.face_tokenNode _)
  case pre op e ih => exact (ih h.2 _ _ _).append (.one (h.1.face _ _))
  case cast l d r ih => exact (ih h.2.1 _ _ _).append (.one rfl)
  case call e l args r ih ihargs =>
    exact (ih h.1 _ _ _).append ((ihargs h.2.2.1 _ _ _).append (.one rfl))
  case member e op name ih =>
    exact (ih h.1 _ _ _).append (.cons (h.2.2.face_tokenNode _) (.one rfl))
  case index e l i r ih ihi =>
    exact (ih h.1 _ _ _).append ((ihi h.2.2.1 _ _ _).append (.one rfl))
  case post e op ih => exact (ih h.1 _ _ _).append (.one rfl)
  case binary lhs op rhs ihl ihr =>
    exact (ihl h.1 _ _ _).append ((ihr h.2.2 _ _ _).append (.one rfl))
  case eval s ih => exact ih h _ _ _
  case blockExpr b ih => exact ih h _ _ _
  case paren l e r ih => exact ih h.2.1 _ _ _
  case block q b ih => exact ih h.2 _ _ _
  case ifStmt q s ih => exact ih h.2 _ _ _
  case whileStmt q k l cond r body ihcond ihbody =>
    exact (ihcond h.2.2.2.1 _ _ _).append ((ihbody h.2.2.2.2.2 _ _ _).append (.one rfl))
  case forStmt q k l init cond semi incr r body ihinit ihcond ihincr ihbody =>
    obtain ⟨-, -, -, hinit, hcond, -, hincr, -, hbody⟩ := h
    exact (ihinit hinit _ _ _).append ((ihcond hcond _ _ _).append
      ((ihincr hincr _ _ _).append ((ihbody hbody _ _ _).append (.one rfl))))
  case returnStmt q k e semi ih => exact (ih h.2.2.1 _ _ _).append (.one rfl)
  case jump q k semi => exact .one rfl
  case structDecl q k name body semi ih => exact (ih h.2.2.2.1 _ _ _).append (.one rfl)
  case namespaceDecl q k name body ih => exact (ih h.2.2.2 _ _ _).append (.one rfl)
  case deleteStmt q d semi ih => exact ih h.2.1 _ _ _
  case requires q k colon e semi ih => exact ih h.2.2.2.1 _ _ _
  case typeDecl q k name b body semi ihb ihbody =>
    obtain ⟨-, hk, hname, hb, hbody, -⟩ := h
    exact (ihb hb _ _ _).append
      ((ihbody hbody _ _ _).append (sameFaces_declNodes hk hname _ _ _ _))
  case functionDecl q type name l params r body ihparams ihbody =>
    obtain ⟨-, htype, hname, -, hparams, -, hbody⟩ := h
    exact (ihparams hparams _ _ _).append ((ihbody hbody _ _ _).append
      (.cons ((same_typeToken type htype).face_tokenNode _)
        (.cons (hname.face_tokenNode _) (.one rfl))))
  case varDecl q type name init semi ih =>
    obtain ⟨-, htype, hname, hinit, -⟩ := h
    exact (ih hinit _ _ _).append (sameFaces_declNodes (same_typeToken type htype) hname _ _ _ _)
  case exprStmt q e semi ih => exact ih h.2.1 _ _ _
  case delete k auto target ih =>
    rw [Option.isSome_map]
    exact (ih h.2.2 _ _ _).append (.one rfl)
  case conditional k l cond r thenBlock elseBlock ihcond ihthen ihelse =>
    obtain ⟨-, -, hcond, -, hthen, helse⟩ := h
    exact (ihcond hcond _ _ _).append
      ((ihthen hthen _ _ _).append ((ihelse helse _ _ _).append (.one rfl)))
  case braced l body r ih => exact .cons rfl (ih h.2.1 _ _ _)
  case parameter q type name init ih =>
    obtain ⟨-, htype, hname, hinit⟩ := h
    exact (ih hinit _ _ _).append
      (sameFaces_declNodes (same_getD type htype) (same_nameToken name hname) _ _ _ _)
  case none => exact .nil
  case some s ih => exact ih h _ _ _
  case nil => exact .nil
  case cons s rest ih ihrest => exact (ih h.1 _ _ _).append (ihrest h.2 _ _ _)
  case led t s ih => exact ih h.2 _ _ _
  case seq s t ih iht => exact (ih h.1 _ _ _).append (iht h.2 _ _ _)
  case bare semi => exact .nil
  case full s ih => exact ih h _ _ _

/-! ## The parser's choices -/

section Choices

variable {next next' : Token}

lemma same_firstToken {ts : List Token} (h : ∀ t ∈ ts, t.Same src src' (f.token t))
    (hnext : next.Same src src' next') :
    (firstToken ts next).Same src src' (firstToken (ts.map f.token) next') := by
  cases ts with
  | nil => exact hnext
  | cons t ts => exact h t List.mem_cons_self

/-- The word `using` is known from its text. -/
lemma isUsing_iff_of_same (h : next.Same src src' next') : IsUsing src' next' ↔ IsUsing src next :=
  and_congr (by rw [h.1]) (Eq.congr_left h.2)

lemma endsExpression_of_same (h : next.Same src src' next') (hends : EndsExpression next) :
    EndsExpression next' := by
  rwa [EndsExpression, h.1]

lemma terminated_relocate {semi : Option (Tok Semi)} (h : next.Same src src' next')
    (hsemi : Terminated semi next) : Terminated (semi.map f.one) next' := by
  rw [Terminated, Option.map_eq_none_iff, h.1]
  exact hsemi

/-- What may begin an expression depends on types only. -/
lemma beginsExpression_relocate {ts : List Token} (hnext : next.Same src src' next')
    (h : BeginsExpression (ts ++ [next])) : BeginsExpression (ts.map f.token ++ [next']) := by
  rcases ts with _ | ⟨t, _ | ⟨u, ts⟩⟩
  · exact h
  · simpa [BeginsExpression, f.type_eq, hnext.1] using h
  · simpa [BeginsExpression, f.type_eq] using h

/-- A body stays a body. -/
lemma isBody_relocate {s : Syn (opt stmt)} (h : ∀ t ∈ s.tokens, t.Same src src' (f.token t))
    (hnext : next.Same src src' next') (hs : s.IsBody next) : (s.relocate f).IsBody next' := by
  cases s with
  | none => rwa [relocate, IsBody, hnext.1]
  | some s =>
      have htokens : ∀ t ∈ s.tokens, t.Same src src' (f.token t) := h
      rw [relocate, IsBody, tokens_relocate, (same_firstToken htokens hnext).1]
      exact hs

lemma isFunctionBody_relocate {s : Syn (orSemi stmt)} (hs : s.IsFunctionBody) :
    (s.relocate f).IsFunctionBody := by
  cases s with
  | bare => trivial
  | full s =>
      obtain ⟨t, ts, htokens, ht⟩ := hs
      exact ⟨f.token t, ts.map f.token, by rw [tokens_relocate, htokens, List.map_cons],
        (f.type_eq t).trans ht⟩

lemma isParameters_relocate {s : Syn (opt (commaList param))}
    (h : ∀ t ∈ s.tokens, t.Same src src' (f.token t)) (hnext : next.Same src src' next')
    (hs : s.IsParameters next) : (s.relocate f).IsParameters next' := by
  cases s with
  | none => trivial
  | some s =>
      have htokens : ∀ t ∈ s.tokens, t.Same src src' (f.token t) := h
      rw [relocate, IsParameters, tokens_relocate, (same_firstToken htokens hnext).1]
      exact hs

lemma isBase_relocate {s : Syn (opt Cat.base)} (h : ∀ t ∈ s.tokens, t.Same src src' (f.token t))
    (hnext : next.Same src src' next') (hs : s.IsBase src next) :
    (s.relocate f).IsBase src' next' := by
  cases s with
  | none => rwa [relocate, IsBase, hnext.1, isUsing_iff_of_same hnext]
  | some s =>
      cases s with
      | led t e =>
          simp only [relocate, IsBase, Relocation.among_val, f.type_eq, level_relocate, hnext.1,
            isUsing_iff_of_same (h t.1 List.mem_cons_self)]
          exact hs

lemma typed_map {α β : Type} {q : QualifierTokens} {type : Option α} (g : α → β)
    (h : Typed q type) : Typed (q.map f.among) (type.map g) := by
  rwa [Typed, Relocation.value_among, Option.map_eq_none_iff]

end Choices

/-- The parser's choices do not depend on the places. -/
lemma canonical_relocate (s : Syn k) {next next' : Token}
    (h : ∀ t ∈ s.tokens, t.Same src src' (f.token t)) (hnext : next.Same src src' next')
    (hs : s.Canonical src next) : (s.relocate f).Canonical src' next' := by
  induction s generalizing next next'
  all_goals
    simp only [tokens, List.forall_mem_append, List.forall_mem_cons, List.not_mem_nil,
      IsEmpty.forall_iff, implies_true, and_true] at h
  case pre op e ih => exact ⟨hs.1.trans_eq (level_relocate f e).symm, ih h.2 hnext hs.2⟩
  case literal t => trivial
  case ident t => trivial
  case eval s ih => exact ih h hnext hs
  case cast l d r ih => exact ih h.2.1 h.2.2 hs
  case blockExpr b ih => exact ih h hnext hs
  case paren l e r ih => exact ih h.2.1 h.2.2 hs
  case call e l args r ih ihargs =>
    exact ⟨hs.1.trans_eq (level_relocate f e).symm, ih h.1 h.2.1 hs.2.1,
      ihargs h.2.2.1 h.2.2.2 hs.2.2⟩
  case member e op name ih =>
    exact ⟨hs.1.trans_eq (level_relocate f e).symm, ih h.1 h.2.1 hs.2⟩
  case index e l i r ih ihi =>
    exact ⟨hs.1.trans_eq (level_relocate f e).symm, ih h.1 h.2.1 hs.2.1,
      ihi h.2.2.1 h.2.2.2 hs.2.2⟩
  case post e op ih => exact ⟨hs.1.trans_eq (level_relocate f e).symm, ih h.1 h.2 hs.2⟩
  case binary lhs op rhs ihl ihr =>
    obtain ⟨hl, hr, hlhs, hrhs⟩ := hs
    rw [← f.type_eq, ← level_relocate f] at hl hr
    exact ⟨hl, hr, ihl h.1 h.2.1 hlhs, ihr h.2.2 hnext hrhs⟩
  case block q b ih => exact ih h.2 hnext hs
  case ifStmt q s ih => exact ih h.2 hnext hs
  case whileStmt q k l cond r body ihcond ihbody =>
    obtain ⟨-, -, -, hcond, hr, hbody⟩ := h
    exact ⟨ihcond hcond hr hs.1, ihbody hbody hnext hs.2⟩
  case forStmt q k l init cond semi incr r body ihinit ihcond ihincr ihbody =>
    obtain ⟨-, -, -, hinit, hcond, hsemi, hincr, hr, hbody⟩ := h
    have hfirst := same_firstToken hcond hsemi
    rw [← tokens_relocate] at hfirst
    exact ⟨ihinit hinit hfirst hs.1, ihcond hcond hsemi hs.2.1, ihincr hincr hr hs.2.2.1,
      ihbody hbody hnext hs.2.2.2⟩
  case returnStmt q k e semi ih => exact ih h.2.2.1 h.2.2.2 hs
  case jump q k semi => trivial
  case structDecl q k name body semi ih =>
    obtain ⟨-, -, -, hbody, hsemi⟩ := h
    have hfirst := same_firstToken hsemi hnext
    rw [← f.optToken_one] at hfirst
    exact ⟨ih hbody hfirst hs.1, isBody_relocate hbody hfirst hs.2.1,
      terminated_relocate hnext hs.2.2⟩
  case namespaceDecl q k name body ih => exact ih h.2.2.2 hnext hs
  case deleteStmt q d semi ih =>
    have hfirst := same_firstToken h.2.2 hnext
    rw [← f.optToken_one] at hfirst
    exact ⟨ih h.2.1 hfirst hs.1, terminated_relocate hnext hs.2⟩
  case requires q k colon e semi ih =>
    obtain ⟨-, -, -, he, hsemi⟩ := h
    have hfirst := same_firstToken hsemi hnext
    rw [← f.optToken_one] at hfirst
    exact ⟨ih he hfirst hs.1, endsExpression_of_same hfirst hs.2.1, terminated_relocate hnext hs.2.2⟩
  case typeDecl q k name b body semi ihb ihbody =>
    obtain ⟨-, -, -, hb, hbody, hsemi⟩ := h
    have hfirst := same_firstToken hsemi hnext
    have hbase := same_firstToken (List.forall_mem_append.mpr ⟨hbody, hsemi⟩) hnext
    rw [List.map_append, ← tokens_relocate] at hbase
    rw [← f.optToken_one] at hfirst hbase
    exact ⟨ihb hb hbase hs.1, isBase_relocate hb hbase hs.2.1, ihbody hbody hfirst hs.2.2.1,
      isBody_relocate hbody hfirst hs.2.2.2.1, terminated_relocate hnext hs.2.2.2.2⟩
  case functionDecl q type name l params r body ihparams ihbody =>
    obtain ⟨-, -, -, -, hparams, hr, hbody⟩ := h
    exact ⟨typed_map _ hs.1, ihparams hparams hr hs.2.1, isParameters_relocate hparams hr hs.2.2.1,
      ihbody hbody hnext hs.2.2.2.1, isFunctionBody_relocate hs.2.2.2.2⟩
  case varDecl q type name init semi ih =>
    obtain ⟨-, -, -, hinit, hsemi⟩ := h
    exact ⟨typed_map _ hs.1, ih hinit hsemi hs.2⟩
  case exprStmt q e semi ih =>
    obtain ⟨hauto, he, hends, hsemi, hbegins⟩ := hs
    have hfirst := same_firstToken h.2.2 hnext
    rw [← List.append_assoc] at hbegins
    have hbegins := beginsExpression_relocate (f := f) hnext hbegins
    rw [List.map_append, List.append_assoc, ← tokens_relocate] at hbegins
    rw [← f.optToken_one] at hfirst hbegins
    exact ⟨(f.value_among q).symm ▸ hauto, ih h.2.1 hfirst he, endsExpression_of_same hfirst hends,
      terminated_relocate hnext hsemi, hbegins⟩
  case delete k auto target ih =>
    obtain ⟨hlevel, htarget, hpost⟩ := hs
    rw [← level_relocate f] at hlevel
    rw [← hnext.1] at hpost
    exact ⟨hlevel, ih h.2.2 hnext htarget, hpost⟩
  case conditional k l cond r thenBlock elseBlock ihcond ihthen ihelse =>
    obtain ⟨-, -, hcond, hr, hthen, helse⟩ := h
    obtain ⟨hc, ht, he, hdangling⟩ := hs
    have hfirst := same_firstToken helse hnext
    rw [← tokens_relocate] at hfirst
    refine ⟨ihcond hcond hr hc, ihthen hthen hfirst ht, ihelse helse hnext he, fun hempty => ?_⟩
    rw [tokens_relocate, List.map_eq_nil_iff] at hempty
    rw [hnext.1]
    exact hdangling hempty
  case braced l body r ih => exact ih h.2.1 h.2.2 hs
  case parameter q type name init ih =>
    obtain ⟨htyped, htypeName, htype, hname, hinit⟩ := hs
    have hfirst := same_firstToken h.2.2.2 hnext
    rw [← tokens_relocate] at hfirst
    refine ⟨typed_map _ htyped, ?_, ?_, ?_, ih h.2.2.2 hnext hinit⟩
    · rw [Option.map_eq_none_iff, ne_eq, Option.map_eq_none_iff]
      exact htypeName
    · intro t ht
      obtain ⟨u, hu, rfl⟩ := Option.map_eq_some_iff.mp ht
      rw [f.type_eq]
      exact htype u hu
    · rw [Option.map_eq_none_iff, hfirst.1]
      exact hname
  case none => trivial
  case some s ih => exact ih h hnext hs
  case nil => trivial
  case cons s rest ih ihrest =>
    have hfirst := same_firstToken h.2 hnext
    rw [← tokens_relocate] at hfirst
    exact ⟨ih h.1 hfirst hs.1, ihrest h.2 hnext hs.2⟩
  case led t s ih => exact ih h.2 hnext hs
  case seq s t ih iht =>
    have hfirst := same_firstToken h.2 hnext
    rw [← tokens_relocate] at hfirst
    exact ⟨ih h.1 hfirst hs.1, iht h.2 hnext hs.2⟩
  case bare semi => trivial
  case full s ih => exact ih h hnext hs

end Syn

/-! ## Sources with the same tokens -/

section SameTokens

variable {src src' : List Byte}

/-- Related lists are related by a function if nothing occurs twice. -/
lemma exists_map_of_forall₂ {α : Type} [DecidableEq α] {r : α → α → Prop} {ts ts' : List α}
    (h : List.Forall₂ r ts ts') (hnodup : ts.Nodup) :
    ∃ g : α → α, ts.map g = ts' ∧ (∀ t ∈ ts, r t (g t)) ∧ ∀ t ∉ ts, g t = t := by
  induction h with
  | nil => exact ⟨id, rfl, by simp, fun _ _ => rfl⟩
  | @cons a b ts ts' hab _ ih =>
      obtain ⟨hfresh, hnodup⟩ := List.nodup_cons.mp hnodup
      obtain ⟨g, hmap, hr, hid⟩ := ih hnodup
      have hother : ∀ t, t ≠ a → Function.update g a b t = g t := fun t ht =>
        Function.update_of_ne ht b g
      have hne : ∀ t ∈ ts, t ≠ a := fun t ht hta => hfresh (hta ▸ ht)
      refine ⟨Function.update g a b, ?_, ?_, ?_⟩
      · rw [List.map_cons, Function.update_self, ← hmap]
        exact congrArg _ (List.map_congr_left fun t ht => hother t (hne t ht))
      · rw [List.forall_mem_cons, Function.update_self]
        exact ⟨hab, fun t ht => (hother t (hne t ht)).symm ▸ hr t ht⟩
      · intro t ht
        rw [List.mem_cons, not_or] at ht
        rw [hother t ht.1, hid t ht.2]

lemma nodup_tokensOf (src : List Byte) : (tokensOf src).Nodup := by
  have hpairwise := (pairwise_offsets src).sublist (List.sublist_append_left _ _)
  exact (List.pairwise_map.mp hpairwise).imp fun hlt heq => hlt.ne (congrArg _ heq)

/-- The tokens of a source have their texts. -/
lemma getText_tokensOf {t : Token} (h : t ∈ tokensOf src) :
    getText { source := src } t = t.text src :=
  if_neg (token_inside h).not_gt

/-- Tokens with the same types and texts are the same, one by one. -/
lemma forall₂_same (h : typesAndTexts src' = typesAndTexts src) :
    List.Forall₂ (Token.Same src src') (tokensOf src) (tokensOf src') := by
  have hmap : (tokensOf src').map (fun t => (t.type, t.text src')) =
      (tokensOf src).map fun t => (t.type, t.text src) := by
    have hleft : ∀ src, typesAndTexts src = (tokensOf src).map fun t => (t.type, t.text src) :=
      fun src => List.map_congr_left fun t ht => by rw [getText_tokensOf ht]
    rw [← hleft, ← hleft, h]
  have hforall := List.forall₂_eq_eq_eq.symm ▸ hmap
  rw [List.forall₂_map_left_iff, List.forall₂_map_right_iff] at hforall
  exact hforall.flip.imp fun t t' ht => Prod.mk.inj ht

/-- Sources with the same types and texts are changed into each other token by token. -/
lemma exists_relocation (h : typesAndTexts src' = typesAndTexts src) :
    ∃ f : Relocation, (tokensOf src).map f.token = tokensOf src' ∧
      ∀ t ∈ tokensOf src, t.Same src src' (f.token t) := by
  obtain ⟨g, hmap, hsame, hid⟩ := exists_map_of_forall₂ (forall₂_same h) (nodup_tokensOf src)
  refine ⟨⟨g, fun t => ?_⟩, hmap, hsame⟩
  by_cases ht : t ∈ tokensOf src
  · exact (hsame t ht).1
  · rw [hid t ht]

/-- Sources with the same tokens have the same readings. -/
lemma Parser.Reading.relocate {u : Syn (list stmt)} (hu : Reading src u) {f : Relocation}
    (hmap : (tokensOf src).map f.token = tokensOf src')
    (hsame : ∀ t ∈ tokensOf src, t.Same src src' (f.token t)) : Reading src' (u.relocate f) where
  tokens := by rw [Syn.tokens_relocate, hu.tokens, hmap]
  canonical := by
    have hend : (eofToken src).Same src src' (eofToken src') := ⟨rfl, rfl⟩
    exact Syn.canonical_relocate u (hu.tokens.symm ▸ hsame) hend hu.canonical

/-- What the parser makes of one of the sources it makes of the other. -/
lemma Parser.Accepts.exists_sameFaces {tree : ASTTree} (hacc : Accepts src tree)
    (h : typesAndTexts src' = typesAndTexts src) :
    ∃ tree', Accepts src' tree' ∧ SameFaces src src' tree tree' := by
  obtain ⟨f, hmap, hsame⟩ := exists_relocation h
  obtain ⟨u, hu, hsize⟩ := reading_of_accepts hacc
  have hroom : 1 + u.size ≤ kNullNode := by
    obtain ⟨_, hunit⟩ := accepts_unit hacc
    exact hsize.trans_le hunit.room
  obtain rfl := hacc.unique (accepts_of_reading hu hroom)
  refine ⟨_, accepts_of_reading (hu.relocate hmap hsame) (by rwa [Syn.size_relocate]), ?_⟩
  exact .cons rfl (u.faces_relocate (hu.tokens.symm ▸ hsame) _ _ _)

/-- **White space and comments do not matter to the parser.**  Of two sources whose tokens have the same
types and texts it accepts both or neither, and the trees are the same but for the offsets. -/
theorem accepts_layout (h : typesAndTexts src' = typesAndTexts src) :
    ((∃ tree, Accepts src tree) ↔ ∃ tree', Accepts src' tree') ∧
      ∀ tree tree', Accepts src tree → Accepts src' tree' → SameFaces src src' tree tree' := by
  refine ⟨⟨?_, ?_⟩, fun tree tree' hacc hacc' => ?_⟩
  · rintro ⟨tree, hacc⟩
    obtain ⟨tree', hacc', -⟩ := hacc.exists_sameFaces h
    exact ⟨tree', hacc'⟩
  · rintro ⟨tree', hacc'⟩
    obtain ⟨tree, hacc, -⟩ := hacc'.exists_sameFaces h.symm
    exact ⟨tree, hacc⟩
  · obtain ⟨tree'', hacc'', hfaces⟩ := hacc.exists_sameFaces h
    rwa [hacc'.unique hacc'']

/-- The same tokens, close together and far apart. -/
theorem accepts_layout_sample :
    ((∃ tree, Accepts (bytes "f(a)+1") tree) ↔
        ∃ tree', Accepts (bytes " f ( a )/* */+ 1 // end") tree') ∧
      ∀ tree tree', Accepts (bytes "f(a)+1") tree → Accepts (bytes " f ( a )/* */+ 1 // end") tree' →
        SameFaces (bytes "f(a)+1") (bytes " f ( a )/* */+ 1 // end") tree tree' :=
  accepts_layout (by decide +kernel)

end SameTokens

end LogicCompiler
