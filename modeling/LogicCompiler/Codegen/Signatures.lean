import LogicCompiler.Codegen.Placement
import LogicCompiler.Lexer.Relexing
import LogicCompiler.Parser.Views

/-!
# Parameters and arguments

What a definition says of its parameters, the generator has to put into the type of the function,
into the scope of its body and into the calls of the function.  It puts them nowhere.
-/

namespace LogicCompiler

open TokenType NodeKind Cat LLVM Fuel LogicCompiler.Parser

/-! ## Lists of parameters and arguments -/

namespace Syn

/-- The parts behind the commas. -/
def ledParts {types : List TokenType} : {k : Cat} → Syn (list (.led types k)) → List (Syn k)
  | _, nil => []
  | _, cons (led _ s) rest => s :: rest.ledParts

/-- The entries of a list, without the commas. -/
def commaParts : {k : Cat} → Syn (opt (commaList k)) → List (Syn k)
  | _, none => []
  | _, some (seq s more) => s :: more.ledParts

/-- Their ids. -/
def commaRoots : {k : Cat} → Syn (opt (commaList k)) → (base : ℕ) → List NodeId
  | _, none, _ => []
  | _, some (seq s more), base => s.root base :: more.listRoots (base + s.size)

/-- The name of a parameter that has one. -/
def paramName (src : List Byte) : Syn param → Option (List Byte)
  | parameter _ _ name _ => name.map fun t => t.1.text src

/-- A parameter of this builtin type that is not marked `constexpr`. -/
def PlainParam (src : List Byte) (type : IRType) : Syn param → Prop
  | parameter q typeTok _ _ =>
      q.value.isConstexpr = false ∧
        ∃ e ∈ Compiler.builtinTypes,
          bytes e.1 = typeTok.elim (bytes "auto") (Token.text src) ∧ e.2 = type

lemma commaParts_eq_nil {k : Cat} {s : Syn (opt (commaList k))} (h : s.commaParts = []) :
    s = none := by
  cases s with
  | none => rfl
  | some s =>
      cases s
      cases h

end Syn

namespace Compiler

variable {P : Program} {c : CodegenCalls} {s t u : Compiler} {id : NodeId}

/-! ## The way into a function -/

/-- The part of `codegenFunctionDecl` in front of the visit of the body. -/
def enterFunction (P : Program) (id : NodeId) : CodegenM (Node × IRType × FunctionId) := do
  let node ← getNode P id
  let fnName ← getNodeSnippet P node.data.nameNode
  let retType ← resolveType P node.data.typeNode
  let llvmParamTypes : List IRType := []
  let fn ← read fun s => s.module.functions.length
  emit (.createFunction fnName retType llvmParamTypes)
  defineFunc fnName { llvmFunc := fn, declNodeId := id }
  let entryBB ← createBlock "entry" (some fn)
  emit (.setInsertPoint entryBB)
  pushScope
  pure (node, retType, fn)

/-- The part behind it. -/
def leaveFunction (retType : IRType) (fn : FunctionId) : CodegenM (Option Value) := do
  closeFunction retType
  popScope
  pure (some (.function fn))

/-- The body is visited in the state that `enterFunction` leaves. -/
lemma codegenFunctionDecl_eq (c : CodegenCalls) (id : NodeId) :
    codegenFunctionDecl P c id = (do
      let r ← enterFunction P id
      if r.1.data.initExpr ≠ kNullNode then
        let _ ← c.codegen r.1.data.initExpr
      leaveFunction r.2.1 r.2.2) := by
  simp only [enterFunction, Comp.bind_assoc]
  rfl

/-- The text of a token, asked for through a node that was made of it. -/
lemma getNodeSnippet_token {tok : Token} {kind : NodeKind} {i : NodeId} (s : Compiler)
    (hi : i ≠ kNullNode) (hnode : P.tree[i]? = some (tokenNode kind tok))
    (htok : tok.globalOffset + tok.size ≤ P.source.length) :
    getNodeSnippet P i s = some (.ok (tok.text P.source, s)) := by
  have hwrap := Nat.mod_le (tok.globalOffset + tok.size) (2 ^ 32)
  rw [getNodeSnippet, if_neg hi, getNode_eq hnode]
  show (if (tokenNode kind tok).sourceLength = 0 ∨ _ then _ else _ : CodegenM (List Byte)) s = _
  split_ifs with hshort hbehind
  · rcases hshort with hzero | hlong
    · rw [Token.text, snippet, show tok.size = 0 from hzero, List.take_zero]
      rfl
    · exact absurd (hlong.trans_le hwrap) (not_lt.mpr htok)
  · exact absurd hbehind (not_lt.mpr ((Nat.le_add_right _ _).trans htok))
  · rfl

/-- Where `x` returns, it has changed nothing. -/
abbrev ReadsOnly {α : Type} (x : CodegenM α) : Prop := Comp.Keeps (fun s t => t = s) x

namespace ReadsOnly

lemma pure {α : Type} (a : α) : ReadsOnly (Pure.pure a : CodegenM α) :=
  fun _ _ _ h => by cases h; rfl

lemma fail {α : Type} (e : CodegenFailure) : ReadsOnly (Compiler.fail e : CodegenM α) :=
  fun _ _ _ h => by cases h

lemma bind {α β : Type} {x : CodegenM α} {f : α → CodegenM β} (hx : ReadsOnly x)
    (hf : ∀ a, ReadsOnly (f a)) : ReadsOnly (x >>= f) :=
  Comp.Keeps.bind (fun _ _ _ h h' => h'.trans h) hx hf

lemma getNodeSnippet (id : NodeId) : ReadsOnly (Compiler.getNodeSnippet P id) := by
  refine .ite (pure _) (bind ?_ fun node => .ite (pure _) (.ite (fail _) (pure _)))
  rw [getNode]
  cases P.tree[id]? with
  | none => exact fail _
  | some node => exact pure _

lemma resolveType (id : NodeId) : ReadsOnly (Compiler.resolveType P id) := by
  refine .ite (pure _) (bind (getNodeSnippet _) fun typeName => ?_)
  split
  · exact pure _
  · refine bind (fun _ _ _ h => by cases h; rfl) fun customTy => ?_
    split
    · exact pure _
    · exact fail _

end ReadsOnly

/-- The state in which the body of a function is visited. -/
def entered (s : Compiler) (id : NodeId) (fnName : List Byte) (retType : IRType) : Compiler :=
  let fn := s.module.functions.length
  let created := s.issue (.createFunction fnName retType [])
  let known := created.onScope fun scope => { scope with
    functions := Function.update scope.functions fnName (some { llvmFunc := fn, declNodeId := id }) }
  let inside := (known.issue (.createBlock "entry" (some fn))).issue
    (.setInsertPoint known.module.blocks.length)
  { inside with scopes := {} :: inside.scopes }

/-- **What `codegenFunctionDecl` has done when it comes to the body.** -/
lemma enterFunction_eq {node : Node} {fnName : List Byte} {retType : IRType}
    (hnode : P.tree[id]? = some node)
    (hname : getNodeSnippet P node.data.nameNode s = some (.ok (fnName, s)))
    (htype : resolveType P node.data.typeNode s = some (.ok (retType, s))) :
    enterFunction P id s =
      some (.ok ((node, retType, s.module.functions.length), s.entered id fnName retType)) := by
  rw [enterFunction, getNode_eq hnode]
  show (getNodeSnippet P node.data.nameNode >>= _) s = _
  rw [Comp.bind_apply hname, Comp.bind_apply htype]
  rfl

lemma enterFunction_inv {node : Node} {fnName : List Byte} {r : Node × IRType × FunctionId}
    (hnode : P.tree[id]? = some node)
    (hname : getNodeSnippet P node.data.nameNode s = some (.ok (fnName, s)))
    (h : enterFunction P id s = some (.ok (r, t))) :
    r.2.2 = s.module.functions.length ∧ t = s.entered id fnName r.2.1 := by
  have hrun := h
  rw [enterFunction, getNode_eq hnode] at h
  change (getNodeSnippet P node.data.nameNode >>= _) s = _ at h
  rw [Comp.bind_apply hname] at h
  rcases Comp.bind_eq_ok.mp h with ⟨retType, s', htype, -⟩
  obtain rfl := ReadsOnly.resolveType _ _ _ _ htype
  rw [enterFunction_eq hnode hname htype] at hrun
  cases hrun
  exact ⟨rfl, rfl⟩

section Entered

variable {fnName : List Byte} {retType : IRType}

/-- The function has no parameters, whatever its definition says. -/
lemma signatures_entered :
    (s.entered id fnName retType).module.signatures = s.module.signatures ++ [[]] := by
  show ((s.ops ++ [_] ++ [_] ++ [_]).foldl Module.exec {}).signatures = _
  rw [List.foldl_append, List.foldl_append, List.foldl_append]
  show (Module.link _ _ _).signatures = _
  rw [Module.signatures_link]
  exact List.map_append

lemma lookupFunc_entered {info : FunctionInfo}
    (h : (s.entered id fnName retType).lookupFunc fnName = some info) :
    info = { llvmFunc := s.module.functions.length, declNodeId := id } := by
  rw [lookupFunc, entered] at h
  cases hscopes : s.scopes with
  | nil => simp [onScope, issue, hscopes] at h
  | cons scope scopes => simpa [onScope, issue, hscopes, eq_comm] using h

end Entered

/-! ## Agreement -/

/-- The call evaluates its arguments once each, in order, and passes all values to `fn`. -/
def Passes (P : Program) (call : NodeId) (args : List NodeId) (fn : FunctionId) (s : Compiler) :
    Prop :=
  ∀ c, codegenCallExpr P c call s = (do
    let values ← args.mapM c.codegen
    let result ← createCall fn values
    pure (some result)) s

/-- From the state behind the creation of the function on, the name means this function. -/
def Calls (entry : Compiler) (fnName : List Byte) (fn : FunctionId) (s : Compiler) : Prop :=
  (∃ info, entry.lookupFunc fnName = some info ∧ s.lookupFunc fnName = some info) ∨
    s.lookupFunc fnName = none ∧ s.module.getFunction fnName = some fn

/-- The function that is made of the definition `id` has the parameters of the definition, and so
do the calls of it in `u`. -/
structure Agrees (P : Program) (u : Syn (list stmt)) (id : NodeId) (fnName : List Byte)
    (params : List (Syn param)) (types : List IRType) : Prop where
  signature : ∀ s r entry, enterFunction P id s = some (.ok (r, entry)) →
    entry.module.signatures[r.2.2]? = some types
  names : ∀ s r entry, enterFunction P id s = some (.ok (r, entry)) →
    ∀ p ∈ params, ∀ name ∈ p.paramName P.source,
      ∃ scope ∈ entry.scopes.head?, (scope.symbols name).isSome
  calls : ∀ s r entry, enterFunction P id s = some (.ok (r, entry)) →
    ∀ f l args right base next,
      (⟨expr, Syn.call f l args right, base, next⟩ : Part) ∈ u.parts 1 P.source.length →
        (∀ v, getNodeSnippet P (f.root base) v = some (.ok (fnName, v))) →
          args.commaParts.length = types.length → ∀ v, Calls entry fnName r.2.2 v →
            Passes P (base + (f.size + args.size)) (args.commaRoots (base + f.size)) r.2.2 v

section Agrees

variable {u : Syn (list stmt)} {fnName : List Byte} {params : List (Syn param)}
  {types : List IRType} {node : Node}

lemma read_apply {α : Type} (f : Compiler → α) (s : Compiler) :
    (read f : CodegenM α) s = some (.ok (f s, s)) := rfl

/-- A call without arguments passes none, along both paths. -/
lemma passes_nothing {entry : Compiler} {call target : NodeId} {fn : FunctionId} {next : ℕ}
    (hcall : P.tree[call]? = some (plainNode CallExpr next (Data.call target kNullNode)))
    (htarget : ∀ v, getNodeSnippet P target v = some (.ok (fnName, v)))
    (hentry : ∀ info, entry.lookupFunc fnName = some info → info.allParams = [] ∧ info.llvmFunc = fn)
    (hs : Calls entry fnName fn s) : Passes P call [] fn s := by
  intro c
  rw [codegenCallExpr, getNode_eq hcall]
  show (getNodeSnippet P target >>= _) s = _
  rw [Comp.bind_apply (htarget s)]
  show (read (fun s => s.lookupFunc fnName) >>= _) s = _
  rw [Comp.bind_apply (read_apply _ s)]
  rcases hs with ⟨info, hinfo, hlookup⟩ | ⟨hnone, hfn⟩
  · rcases hentry info hinfo with ⟨hparams, rfl⟩
    rw [hlookup]
    show (codegenArgs c kNullNode info.allParams >>= _) s = _
    rw [hparams]
    rfl
  · rw [hnone]
    show (read (fun s => s.module.getFunction fnName) >>= _) s = _
    rw [Comp.bind_apply (read_apply _ s), hfn]
    rfl

/-- A node that starts in the source has a text. -/
lemma getNodeSnippet_returns (hnode : P.tree[id]? = some node)
    (hstart : node.sourceOffset ≤ P.source.length) :
    ∃ text, getNodeSnippet P id s = some (.ok (text, s)) := by
  rw [getNodeSnippet]
  split_ifs
  · exact ⟨_, rfl⟩
  · rw [getNode_eq hnode, Comp.bind_apply (Comp.pure_apply node s), if_neg (not_lt.mpr hstart)]
    split_ifs
    · exact ⟨_, rfl⟩
    · exact ⟨_, rfl⟩

/-- Where every name is a type, types are resolved. -/
lemma resolveType_returns (hnode : P.tree[id]? = some node)
    (hstart : node.sourceOffset ≤ P.source.length) (hs : ∀ name, s.lookupType name = some .int32) :
    ∃ type, resolveType P id s = some (.ok (type, s)) := by
  rw [resolveType]
  split_ifs
  · exact ⟨_, rfl⟩
  · rcases getNodeSnippet_returns (s := s) hnode hstart with ⟨text, htext⟩
    rw [Comp.bind_apply htext]
    cases builtinTypes.find? fun e => bytes e.1 == text with
    | some e => exact ⟨_, rfl⟩
    | none =>
        refine ⟨.int32, ?_⟩
        show (read (fun s => s.lookupType text) >>= _) s = _
        rw [Comp.bind_apply (read_apply _ s), hs]
        rfl

/-- A definition in the source: its node, and what its name and its type resolve to. -/
lemma definition_nodes {src : List Byte} {tree : ASTTree} (host : Host) {u : Syn (list stmt)}
    (hu : Parses src tree u) {q : QualifierTokens} {type : Option (TokOf [kByte, Ident])}
    {name : Tok Ident} {l : Tok Left} {params : Syn (opt (commaList param))} {r : Tok Right}
    {body : Syn stmt} {base next : ℕ}
    (hx : (⟨stmt, Syn.functionDecl q type name l params r (Syn.full body), base, next⟩ : Part) ∈
      u.parts 1 src.length) :
    ∃ node, tree[(Syn.functionDecl q type name l params r (Syn.full body)).root base]? = some node ∧
      (∀ s, getNodeSnippet ⟨tree, src, host⟩ node.data.nameNode s =
        some (.ok (name.1.text src, s))) ∧
      ∀ s : Compiler, (∀ name, s.lookupType name = some .int32) →
        ∃ retType, resolveType ⟨tree, src, host⟩ node.data.typeNode s = some (.ok (retType, s)) := by
  have hlies := u.lies_parts hu.lies _ hx
  simp only [Part.nodes, Syn.nodes, lies_append, lies_cons, Syn.length_nodes] at hlies
  obtain ⟨-, -, htype, hname, hfunction, -⟩ := hlies
  have hinside : ∀ t ∈ (Syn.functionDecl q type name l params r (Syn.full body)).tokens,
      t.globalOffset + t.size ≤ src.length := by
    intro t ht
    exact Lexer.token_inside (hu.tokens ▸ u.tokens_parts _ hx t ht)
  have hroot : (Syn.functionDecl q type name l params r (Syn.full body)).root base =
      base + params.size + body.size + 1 + 1 := by
    simp only [Syn.root, Syn.size, Nat.add_assoc]
  refine ⟨_, hroot ▸ hfunction, fun s => ?_, fun s hs => ?_⟩
  · refine getNodeSnippet_token s ?_ hname (hinside _ (by simp [Syn.tokens]))
    have hlt := (List.getElem?_eq_some_iff.mp hname).1
    exact Nat.ne_of_lt (hlt.trans_le hu.room)
  · refine resolveType_returns htype ?_ hs
    cases type with
    | none => exact Nat.zero_le _
    | some t => exact (Nat.le_add_right _ _).trans (hinside t.1 (by simp [Syn.tokens, optToken]))

/-- The type of the function has no parameters, so it is right only when there are none. -/
lemma agrees_only {src : List Byte} {tree : ASTTree} (host : Host) {u : Syn (list stmt)}
    (hu : Parses src tree u) {q : QualifierTokens} {type : Option (TokOf [kByte, Ident])}
    {name : Tok Ident} {l : Tok Left} {params : Syn (opt (commaList param))} {r : Tok Right}
    {body : Syn stmt} {base next : ℕ}
    (hx : (⟨stmt, Syn.functionDecl q type name l params r (Syn.full body), base, next⟩ : Part) ∈
      u.parts 1 src.length)
    (hagrees : Agrees ⟨tree, src, host⟩ u
      ((Syn.functionDecl q type name l params r (Syn.full body)).root base)
      (name.1.text src) params.commaParts types) : types = [] := by
  obtain ⟨node, hnode, hname, htype⟩ := definition_nodes host hu hx
  -- the root scope may know every type
  obtain ⟨retType, hret⟩ := htype { scopes := [{ customTypes := fun _ => some .int32 }] }
    fun _ => rfl
  have hsignature := hagrees.signature _ _ _ (enterFunction_eq hnode (hname _) hret)
  rw [signatures_entered] at hsignature
  exact (Option.some.inj hsignature).symm

/-- **Definitions and calls agree on the parameters** of a function exactly when it has none. -/
theorem agrees_iff {src : List Byte} {tree : ASTTree} (host : Host) (h : Accepts src tree) :
    (∀ c id, codegenFunctionDecl ⟨tree, src, host⟩ c id = do
      let r ← enterFunction ⟨tree, src, host⟩ id
      if r.1.data.initExpr ≠ kNullNode then
        let _ ← c.codegen r.1.data.initExpr
      leaveFunction r.2.1 r.2.2) ∧
    (∃ u, Parses src tree u) ∧ ∀ u, Parses src tree u →
      ∀ q type name l params r body base next,
        (⟨stmt, Syn.functionDecl q type name l params r (Syn.full body), base, next⟩ : Part) ∈
            u.parts 1 src.length →
          ∀ types, List.Forall₂ (Syn.PlainParam src) types params.commaParts →
            (Agrees ⟨tree, src, host⟩ u
                ((Syn.functionDecl q type name l params r (Syn.full body)).root base)
                (name.1.text src) params.commaParts types ↔
              params.commaParts = []) := by
  refine ⟨fun c id => codegenFunctionDecl_eq c id, accepts_unit h, ?_⟩
  intro u hu q type name l params r body base next hx types htypes
  obtain ⟨node, hnode, hname, htype⟩ := definition_nodes host hu hx
  constructor
  · intro hagrees
    exact List.forall₂_nil_left_iff.mp (agrees_only host hu hx hagrees ▸ htypes)
  · intro hnone
    have htypes' : types = [] := List.forall₂_nil_right_iff.mp (hnone ▸ htypes)
    subst htypes'
    refine ⟨fun s r entry henter => ?_, fun s r entry _ p hp => ?_, ?_⟩
    · obtain ⟨hfn, rfl⟩ := enterFunction_inv hnode (hname s) henter
      rw [signatures_entered, hfn]
      simp [Module.signatures]
    · rw [hnone] at hp
      cases hp
    · intro s r entry henter f l args right base next hcall htarget hlength v hv
      obtain ⟨hfn, rfl⟩ := enterFunction_inv hnode (hname s) henter
      obtain rfl := Syn.commaParts_eq_nil (List.length_eq_zero_iff.mp hlength)
      have hlies := u.lies_parts hu.lies _ hcall
      simp only [Part.nodes, Syn.nodes, lies_append, lies_cons, Syn.length_nodes] at hlies
      refine passes_nothing hlies.2.2.1 htarget (fun info hinfo => ?_) hv
      rw [lookupFunc_entered hinfo]
      exact ⟨rfl, hfn.symm⟩

end Agrees

theorem agrees_iff_sample : ∃ tree : ASTTree,
    parse (bytes "byte f(){}") 20 = some (.ok tree) ∧
      ∃ u, Parses (bytes "byte f(){}") tree u ∧
        ∀ q type name l params r body base next,
          (⟨stmt, Syn.functionDecl q type name l params r (Syn.full body), base, next⟩ : Part) ∈
              u.parts 1 (bytes "byte f(){}").length →
            ∀ types, List.Forall₂ (Syn.PlainParam (bytes "byte f(){}")) types params.commaParts →
              (Agrees ⟨tree, bytes "byte f(){}", silentHost⟩ u
                  ((Syn.functionDecl q type name l params r (Syn.full body)).root base)
                  (name.1.text (bytes "byte f(){}")) params.commaParts types ↔
                params.commaParts = []) := by
  have hparse : parse (bytes "byte f(){}") 20 = some (.ok
      [default, plainNode TranslationUnit 9 {}, tokenNode IdentifierExpr ⟨0, 4, 0, 1, kByte⟩,
        tokenNode IdentifierExpr ⟨5, 1, 0, 1, Ident⟩,
        plainNode FunctionDecl 5 (Data.varDecl 2 3 1)]) := by
    decide +kernel
  obtain ⟨-, ⟨u, hu⟩, hall⟩ := agrees_iff silentHost (accepts_of_parse hparse)
  exact ⟨_, hparse, u, hu, hall u hu⟩

/-- The parameter of `byte f(byte a){}` is in no type. -/
theorem parameter_left_out : ∃ (tree : ASTTree) (u : Syn (list stmt)),
    Parses (bytes "byte f(byte a){}") tree u ∧
      ∃ q type name l params r body base next,
        (⟨stmt, Syn.functionDecl q type name l params r (Syn.full body), base, next⟩ : Part) ∈
            u.parts 1 (bytes "byte f(byte a){}").length ∧
          List.Forall₂ (Syn.PlainParam (bytes "byte f(byte a){}")) [.int8] params.commaParts ∧
            ¬ Agrees ⟨tree, bytes "byte f(byte a){}", silentHost⟩ u
                ((Syn.functionDecl q type name l params r (Syn.full body)).root base)
                (name.1.text (bytes "byte f(byte a){}")) params.commaParts [.int8] := by
  let params : Syn (opt (commaList param)) := Syn.some (Syn.seq (Syn.parameter []
    (some ⟨7, 4, 0, 1, kByte⟩) (some ⟨⟨12, 1, 0, 1, Ident⟩, rfl⟩) Syn.none) Syn.nil)
  let body : Syn stmt := Syn.block []
    (Syn.braced ⟨⟨14, 1, 0, 1, BrLeft⟩, rfl⟩ Syn.nil ⟨⟨15, 1, 0, 1, BrRight⟩, rfl⟩)
  let u : Syn (list stmt) := Syn.cons (Syn.functionDecl [] (some ⟨⟨0, 4, 0, 1, kByte⟩, by decide⟩)
    ⟨⟨5, 1, 0, 1, Ident⟩, rfl⟩ ⟨⟨6, 1, 0, 1, Left⟩, rfl⟩ params ⟨⟨13, 1, 0, 1, Right⟩, rfl⟩
    (Syn.full body)) Syn.nil
  have hu : Parses (bytes "byte f(byte a){}") (default :: u.nodes 1 16) u := by
    refine ⟨?_, ?_, rfl, by decide⟩
    · decide +kernel
    · exact ⟨⟨⟨trivial, trivial⟩, trivial⟩, trivial⟩
  have htypes : List.Forall₂ (Syn.PlainParam (bytes "byte f(byte a){}")) [.int8]
      params.commaParts := by
    rw [Syn.commaParts, Syn.ledParts]
    exact .cons ⟨rfl, ("byte", .int8), by decide, rfl, rfl⟩ .nil
  exact ⟨_, u, hu, _, _, _, _, params, _, body, 1, 16,
    List.mem_cons_of_mem _ List.mem_cons_self, htypes,
    fun hagrees => absurd (agrees_only silentHost hu
      (List.mem_cons_of_mem _ List.mem_cons_self) hagrees) (by decide)⟩

end Compiler

end LogicCompiler
