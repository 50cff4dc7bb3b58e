import LogicCompiler.Codegen.Compiler
import LogicCompiler.Parser.Layout

/-!
# Compilation and layout

Of a node the generator reads the kind, the qualifiers, the data and the text, and nothing else; in
particular it reads no offset.  So it does the same on two arenas of the same faces (`bodies_congr`),
and what becomes of a source depends on the types and the texts of its tokens only (`codegen_layout`).
-/

namespace LogicCompiler

open TokenType NodeKind LogicCompiler.Parser Lexer

/-- The text of the node is a part of the source. -/
def Node.Inside (src : List Byte) (n : Node) : Prop :=
  n.sourceLength = 0 ∨ n.sourceOffset + n.sourceLength ≤ src.length

section Inside

variable {k : Cat} {src : List Byte} {m : ℕ}

/-- A node without a text of its own lies inside of every source. -/
lemma inside_plainNode (kind : NodeKind) (offset : ℕ) (data : Data) (q : Qualifiers) :
    (plainNode kind offset data q).Inside src := .inl rfl

/-- The node of a token lies where the token does. -/
lemma inside_tokenNode {t : Token} (ht : t.globalOffset + t.size ≤ src.length) (kind : NodeKind)
    (data : Data) : Node.Inside src { tokenNode kind t with data := data } := .inr ht

lemma typeToken_le {types : List TokenType} (type : Option (TokOf types))
    (h : ∀ t ∈ optToken type, t.globalOffset + t.size ≤ m) :
    (typeToken type).globalOffset + (typeToken type).size ≤ m := by
  cases type with
  | none => exact Nat.zero_le m
  | some t => exact h _ (List.mem_singleton_self _)

lemma nameToken_le (name : Option (Tok TokenType.Ident))
    (h : ∀ t ∈ optToken name, t.globalOffset + t.size ≤ m) :
    (nameToken name).globalOffset + (nameToken name).size ≤ m := by
  cases name with
  | none => exact Nat.zero_le m
  | some t => exact h _ (List.mem_singleton_self _)

lemma getD_le (type : Option Token) (h : ∀ t ∈ type.toList, t.globalOffset + t.size ≤ m) :
    (type.getD autoToken).globalOffset + (type.getD autoToken).size ≤ m := by
  cases type with
  | none => exact Nat.zero_le m
  | some t => exact h _ (List.mem_singleton_self _)

/-- The nodes made of tokens inside the source are inside the source. -/
lemma Syn.inside_nodes (s : Syn k) (h : ∀ t ∈ s.tokens, t.globalOffset + t.size ≤ src.length)
    (base next : ℕ) : ∀ n ∈ s.nodes base next, n.Inside src := by
  have htoken : ∀ (kind : NodeKind) (t : Token), t.globalOffset + t.size ≤ src.length →
      (tokenNode kind t).Inside src := fun kind t ht => inside_tokenNode ht kind _
  induction s generalizing base next
  all_goals
    simp only [tokens, List.forall_mem_append, List.forall_mem_cons, List.not_mem_nil,
      IsEmpty.forall_iff, implies_true, and_true] at h
    simp only [nodes, declNodes, List.forall_mem_append, List.forall_mem_cons, List.not_mem_nil,
      IsEmpty.forall_iff, implies_true, and_true, inside_plainNode, true_and]
  case pre op e ih => exact ⟨ih h.2 _ _, inside_tokenNode h.1 _ _⟩
  case functionDecl q type name l params r body ihparams ihbody =>
    obtain ⟨-, htype, hname, -, hparams, -, hbody⟩ := h
    exact ⟨ihparams hparams _ _, ihbody hbody _ _, htoken _ _ (typeToken_le type htype),
      htoken _ _ hname⟩
  case varDecl q type name init semi ih =>
    obtain ⟨-, htype, hname, hinit, -⟩ := h
    exact ⟨ih hinit _ _, htoken _ _ (typeToken_le type htype), htoken _ _ hname⟩
  case parameter q type name init ih =>
    obtain ⟨-, htype, hname, hinit⟩ := h
    exact ⟨ih hinit _ _, htoken _ _ (getD_le type htype), htoken _ _ (nameToken_le name hname)⟩
  all_goals grind

/-- The nodes of an accepted source are inside it. -/
lemma Parser.Accepts.inside {tree : ASTTree} (h : Accepts src tree) : ∀ n ∈ tree, n.Inside src := by
  obtain ⟨u, hu⟩ := accepts_unit h
  rw [hu.arena, List.forall_mem_cons]
  exact ⟨.inl rfl, u.inside_nodes (fun t ht => token_inside (hu.tokens ▸ ht)) _ _⟩

end Inside

/-! ## What the generator reads -/

/-- Programs that look alike to the generator. -/
structure Alike (P P' : Program) : Prop where
  host : P'.host = P.host
  faces : SameFaces P.source P'.source P.tree P'.tree
  inside : ∀ n ∈ P.tree, n.Inside P.source
  inside' : ∀ n ∈ P'.tree, n.Inside P'.source

/-- Nodes that look alike to the generator, which never reads the data of a struct or a namespace. -/
structure AlikeNodes (P P' : Program) (n n' : Node) : Prop where
  kind : n'.kind = n.kind
  qualifiers : n'.qualifiers = n.qualifiers
  data : n.kind ≠ StructDecl ∧ n.kind ≠ NamespaceDecl → n'.data = n.data
  text : snippet P'.source n'.sourceOffset n'.sourceLength =
    snippet P.source n.sourceOffset n.sourceLength
  inside : n.Inside P.source
  inside' : n'.Inside P'.source

namespace Alike

variable {P P' : Program} (h : Alike P P')
include h

/-- The nodes at an id look alike, or there are none. -/
lemma nodes (i : NodeId) : P.tree[i]? = none ∧ P'.tree[i]? = none ∨
    ∃ n n', P.tree[i]? = some n ∧ P'.tree[i]? = some n' ∧ AlikeNodes P P' n n' := by
  have hface : (P'.tree.map (Node.face P'.source))[i]? = (P.tree.map (Node.face P.source))[i]? := by
    rw [show _ = _ from h.faces]
  rw [List.getElem?_map, List.getElem?_map] at hface
  cases hn : P.tree[i]? with
  | none =>
      rw [hn, Option.map_none, Option.map_eq_none_iff] at hface
      exact .inl ⟨rfl, hface⟩
  | some n =>
      rw [hn, Option.map_some] at hface
      obtain ⟨n', hn', hsame⟩ := Option.map_eq_some_iff.mp hface
      have hkind : n'.kind = n.kind := congrArg Face.kind hsame
      refine .inr ⟨n, n', rfl, hn', hkind, congrArg Face.qualifiers hsame, fun hdata => ?_,
        congrArg Face.text hsame, h.inside n (List.mem_of_getElem? hn),
        h.inside' n' (List.mem_of_getElem? hn')⟩
      have hsame := congrArg Face.data hsame
      have hno := not_or.mpr hdata
      rwa [Node.face, Node.face, if_neg hno, if_neg (hkind ▸ hno)] at hsame

/-- Programs that are alike have as many nodes. -/
lemma length_tree : P'.tree.length = P.tree.length := by
  have hfaces := congrArg List.length h.faces
  rwa [List.length_map, List.length_map] at hfaces

end Alike

namespace Compiler

variable {P P' : Program} {c : CodegenCalls} {i : NodeId} {n n' : Node}

/-- What a method does with a node, if it does the same with those that look alike. -/
lemma getNode_bind_congr (h : Alike P P') {α : Type} {f g : Node → CodegenM α}
    (hfg : ∀ n n', P.tree[i]? = some n → AlikeNodes P P' n n' → g n' = f n) :
    (getNode P' i >>= g) = (getNode P i >>= f) := by
  obtain ⟨hn, hn'⟩ | ⟨n, n', hn, hn', hsame⟩ := h.nodes i
  · rw [getNode, getNode, hn, hn']
    rfl
  · rw [getNode, getNode, hn, hn']
    funext s
    exact congrFun (hfg n n' hn hsame) s

/-- The text of a node inside the source is returned, whatever the 32 bits do. -/
lemma snippet_inside {src : List Byte} (hn : n.Inside src) :
    (if n.sourceLength = 0 ∨ src.length < (n.sourceOffset + n.sourceLength) % 2 ^ 32 then pure []
      else if src.length < n.sourceOffset then fail .stdException
      else pure ((src.drop n.sourceOffset).take n.sourceLength) : CodegenM (List Byte)) =
      pure (snippet src n.sourceOffset n.sourceLength) := by
  rcases hn with hzero | hle
  · rw [if_pos (.inl hzero), snippet, hzero, List.take_zero]
  · by_cases hzero : n.sourceLength = 0
    · rw [if_pos (.inl hzero), snippet, hzero, List.take_zero]
    · have hmod := Nat.mod_le (n.sourceOffset + n.sourceLength) (2 ^ 32)
      rw [if_neg (by omega), if_neg (by omega), snippet]

/-- A node has the same text in both. -/
lemma getNodeSnippet_congr (h : Alike P P') (i : NodeId) :
    getNodeSnippet P' i = getNodeSnippet P i := by
  rw [getNodeSnippet, getNodeSnippet]
  split_ifs
  · rfl
  · refine getNode_bind_congr h fun n n' _ hsame => ?_
    rw [snippet_inside hsame.inside, snippet_inside hsame.inside', hsame.text]

/-- A type resolves alike in both. -/
lemma resolveType_congr (h : Alike P P') (i : NodeId) : resolveType P' i = resolveType P i := by
  rw [resolveType, resolveType, getNodeSnippet_congr h]

lemma literalValue_congr (h : Alike P P') (type : ℕ) (text : List Byte) :
    literalValue P' type text = literalValue P type text := by
  rw [literalValue, literalValue, h.host]

/-! ## Visits -/

/-- The id of a node whose data the generator may read. -/
def Readable (P : Program) (i : NodeId) : Prop :=
  ∀ n, P.tree[i]? = some n → n.kind ≠ StructDecl ∧ n.kind ≠ NamespaceDecl

/-- What a visiting method does with a node whose data it reads. -/
lemma getNode_bind_data (h : Alike P P') (hi : Readable P i) {α : Type} {f g : Node → CodegenM α}
    (hfg : ∀ n n', n'.data = n.data → n'.qualifiers = n.qualifiers → g n' = f n) :
    (getNode P' i >>= g) = (getNode P i >>= f) :=
  getNode_bind_congr h fun n n' hn hsame => hfg n n' (hsame.data (hi n hn)) hsame.qualifiers

section Visits

variable (h : Alike P P') (c : CodegenCalls) (i : NodeId)
include h

/-- Constants evaluate alike in both. -/
lemma evaluateConstantExpr_congr : evaluateConstantExpr P' c i = evaluateConstantExpr P c i := by
  rw [evaluateConstantExpr, evaluateConstantExpr]
  split_ifs
  · rfl
  · refine getNode_bind_congr h fun n n' _ hsame => ?_
    rw [hsame.kind, getNodeSnippet_congr h]
    split
    case h_1 hkind => simp only [hsame.data (by simp [hkind]), literalValue_congr h]
    case h_2 => rfl
    case h_3 hkind => rw [hsame.data (by simp [hkind]), h.host]
    case h_4 => rfl

lemma codegenTranslationUnit_congr :
    codegenTranslationUnit P' c i = codegenTranslationUnit P c i := by
  rw [codegenTranslationUnit, codegenTranslationUnit, idsBehind, idsBehind, h.length_tree]

lemma codegenIdentifierExpr_congr : codegenIdentifierExpr P' i = codegenIdentifierExpr P i := by
  rw [codegenIdentifierExpr, codegenIdentifierExpr, getNodeSnippet_congr h]

variable (hi : Readable P i)
include hi

lemma codegenLiteralExpr_congr : codegenLiteralExpr P' i = codegenLiteralExpr P i := by
  rw [codegenLiteralExpr, codegenLiteralExpr, getNodeSnippet_congr h]
  refine bind_congr fun text => getNode_bind_data h hi fun n n' hdata _ => ?_
  rw [hdata, literalValue_congr h]

/-- A variable is read through its texts only. -/
lemma codegenVarDecl_congr : codegenVarDecl P' c i = codegenVarDecl P c i := by
  rw [codegenVarDecl, codegenVarDecl]
  refine getNode_bind_data h hi fun n n' hdata hqualifiers => ?_
  rw [hdata, hqualifiers, getNodeSnippet_congr h, resolveType_congr h]

lemma codegenTypeDecl_congr : codegenTypeDecl P' i = codegenTypeDecl P i := by
  rw [codegenTypeDecl, codegenTypeDecl]
  refine getNode_bind_data h hi fun n n' hdata _ => ?_
  rw [hdata, getNodeSnippet_congr h, resolveType_congr h]

lemma codegenFunctionDecl_congr : codegenFunctionDecl P' c i = codegenFunctionDecl P c i := by
  rw [codegenFunctionDecl, codegenFunctionDecl]
  refine getNode_bind_data h hi fun n n' hdata _ => ?_
  rw [hdata, getNodeSnippet_congr h, resolveType_congr h]

lemma codegenBinaryExpr_congr : codegenBinaryExpr P' c i = codegenBinaryExpr P c i := by
  rw [codegenBinaryExpr, codegenBinaryExpr, h.host]
  refine getNode_bind_data h hi fun n n' hdata _ => ?_
  rw [hdata]

lemma codegenUnaryExpr_congr : codegenUnaryExpr P' c i = codegenUnaryExpr P c i := by
  rw [codegenUnaryExpr, codegenUnaryExpr, h.host]
  refine getNode_bind_data h hi fun n n' hdata _ => ?_
  rw [hdata]

lemma codegenCallExpr_congr : codegenCallExpr P' c i = codegenCallExpr P c i := by
  rw [codegenCallExpr, codegenCallExpr]
  refine getNode_bind_data h hi fun n n' hdata _ => ?_
  rw [hdata, getNodeSnippet_congr h]

lemma codegenEvalExpr_congr : codegenEvalExpr P' c i = codegenEvalExpr P c i := by
  rw [codegenEvalExpr, codegenEvalExpr]
  refine getNode_bind_data h hi fun n n' hdata _ => ?_
  rw [hdata]

lemma codegenCompileTimeJump_congr :
    codegenCompileTimeJump P' c i = codegenCompileTimeJump P c i := by
  rw [codegenCompileTimeJump, codegenCompileTimeJump]
  refine getNode_bind_data h hi fun n n' hdata _ => ?_
  rw [hdata, codegenLoop, codegenLoop, hdata]

end Visits

/-- A visit does the same in programs that look alike, whatever the recursive calls do. -/
lemma bodies_congr (h : Alike P P') : bodies P' = bodies P := by
  funext c
  have hcodegen : codegen P' c = codegen P c := by
    funext i
    rw [codegen, codegen]
    split_ifs
    · rfl
    · refine getNode_bind_congr h fun n n' hn hsame => ?_
      rw [hsame.kind]
      by_cases hno : n.kind ≠ StructDecl ∧ n.kind ≠ NamespaceDecl
      · have hi : Readable P i := fun m hm => Option.some.inj (hn.symm.trans hm) ▸ hno
        rw [codegenTranslationUnit_congr h, codegenVarDecl_congr h c i hi,
          codegenTypeDecl_congr h i hi, codegenFunctionDecl_congr h c i hi,
          codegenBinaryExpr_congr h c i hi, codegenUnaryExpr_congr h c i hi,
          codegenLiteralExpr_congr h i hi, codegenIdentifierExpr_congr h,
          codegenCallExpr_congr h c i hi, codegenEvalExpr_congr h c i hi,
          codegenCompileTimeJump_congr h c i hi]
      · -- nothing is generated for these
        rw [not_and_or, not_not, not_not] at hno
        rcases hno with hkind | hkind <;> rw [hkind]
  rw [bodies, bodies, hcodegen, funext (evaluateConstantExpr_congr h c)]

/-- The visits are the same, at every level of fuel. -/
lemma methods_congr (h : Alike P P') (n : ℕ) : methods P' n = methods P n := by
  rw [methods, methods, bodies_congr h]

/-- The whole compilation is the same. -/
lemma compile_congr (h : Alike P P') (n : ℕ) : compile P' n = compile P n := by
  have hnil : P'.tree = [] ↔ P.tree = [] := by
    rw [← List.length_eq_zero_iff, h.length_tree, List.length_eq_zero_iff]
  rw [compile, compile, methods_congr h]
  simp only [hnil]

/-- Sources with the same tokens become programs that look alike. -/
lemma alike_of_accepts {src src' : List Byte} {tree tree' : ASTTree}
    (h : typesAndTexts src' = typesAndTexts src) (hacc : Accepts src tree)
    (hacc' : Accepts src' tree') (host : Host) :
    Alike ⟨tree, src, host⟩ ⟨tree', src', host⟩ where
  host := rfl
  faces := by
    obtain ⟨tree'', hacc'', hfaces⟩ := hacc.exists_sameFaces h
    rwa [hacc'.unique hacc'']
  inside := hacc.inside
  inside' := hacc'.inside

/-- **White space and comments do not matter to the compiler.**  If one of two sources with the same
types and texts of tokens is accepted, so is the other, and the generator does the same on both: each
of its methods, at each id and in each state, with the same operations and the same errors. -/
theorem codegen_layout {src src' : List Byte} {tree : ASTTree}
    (h : typesAndTexts src' = typesAndTexts src) (hacc : Accepts src tree) :
    (∃ tree', Accepts src' tree') ∧ ∀ tree', Accepts src' tree' → ∀ (host : Host) (n : ℕ),
      methods ⟨tree', src', host⟩ n = methods ⟨tree, src, host⟩ n ∧
        compile ⟨tree', src', host⟩ n = compile ⟨tree, src, host⟩ n := by
  obtain ⟨tree', hacc', -⟩ := hacc.exists_sameFaces h
  refine ⟨⟨tree', hacc'⟩, fun tree' hacc' host n => ?_⟩
  have halike := alike_of_accepts h hacc hacc' host
  exact ⟨methods_congr halike n, compile_congr halike n⟩

/-- A sum, and the same with a comment. -/
theorem codegen_layout_sample : ∃ tree, parse (bytes "a+b") 20 = some (.ok tree) ∧
    (∃ tree', Accepts (bytes " a /* + */ + b") tree') ∧
      ∀ tree', Accepts (bytes " a /* + */ + b") tree' → ∀ (host : Host) (n : ℕ),
        methods ⟨tree', bytes " a /* + */ + b", host⟩ n = methods ⟨tree, bytes "a+b", host⟩ n ∧
          compile ⟨tree', bytes " a /* + */ + b", host⟩ n = compile ⟨tree, bytes "a+b", host⟩ n := by
  have hparse : parse (bytes "a+b") 20 = some (.ok
      [default, ⟨IdentifierExpr, {}, 0, 1, Data.literal Ident 0⟩,
        ⟨IdentifierExpr, {}, 2, 1, Data.literal Ident 0⟩,
        plainNode BinaryExpr 1 (Data.binary Plus 1 2)]) := by
    decide +kernel
  exact ⟨_, hparse, codegen_layout (by decide +kernel) (accepts_of_parse hparse)⟩

end Compiler

end LogicCompiler
