import LogicCompiler.Codegen.Signatures
import LogicCompiler.Library.Graphs

/-!
# The visits that return

What a call of `codegen` that returns has done, as a relation between the state before it and the
state behind it.  A derivation is the tree of the calls that were made.  `asks` says which calls a
method makes; apart from them it changes the state in the ways that the constructors write out.

Every fact about a run that came to its end is an induction over such a derivation, and
`visits_of_codegen` is the only place where the bodies of the visiting methods are looked into.
-/

namespace LogicCompiler

open TokenType NodeKind LLVM Fuel

/-- The text of a node, empty where `getNodeSnippet` does not return. -/
def Program.text (P : Program) (id : NodeId) : List Byte :=
  match Compiler.getNodeSnippet P id {} with
  | some (.ok (x, _)) => x
  | _ => []

/-- A node whose method does nothing to the control flow. -/
def Node.IsPlain (n : Node) : Prop :=
  match n.kind with
  | TranslationUnit | FunctionDecl | EvalExpr => False
  | UnaryExpr => n.data.op ≠ kReturn.code
  | CompileTimeJump => n.data.op = kBreak.code ∨ n.data.op = kContinue.code
  | _ => True

namespace Compiler

variable {P : Program} {c : CodegenCalls} {s t u : Compiler} {i : NodeId} {n : Node}
  {ids : List NodeId} {x : List Byte} {op : BuilderOp} {b : BlockId} {f : FunctionId}

/-! ## States -/

/-- The state behind `pushScope`. -/
def pushed (s : Compiler) : Compiler := { s with scopes := {} :: s.scopes }

/-- A terminator, unless the block of the insertion point has one. -/
def closed (s : Compiler) (i : Instruction) : Compiler :=
  match s.module.insertBlock with
  | some b => if s.module.hasTerminator b then s else s.issue (.append i)
  | none => s

/-- A block is put at the end of a function, and the insertion point into the block. -/
def movedTo (s : Compiler) (f : FunctionId) (b : BlockId) : Compiler :=
  (s.issue (.insertBlock f b)).issue (.setInsertPoint b)

/-- The way into the branches of `codegenEvalExpr`. -/
def branched (s : Compiler) (f : FunctionId) (cond : Option Value) : Compiler :=
  let thenBB := s.module.blocks.length
  ((((s.issue (.createBlock "then" (some f))).issue (.createBlock "else" none)).issue
    (.createBlock "ifcont" none)).issue (.append (.condBr cond thenBB (thenBB + 1)))).issue
      (.setInsertPoint thenBB)

/-- The way to the condition of a loop. -/
def looped (s : Compiler) (f : FunctionId) : Compiler :=
  let loopCondBB := s.module.blocks.length
  ((((s.issue (.createBlock "loop.cond" (some f))).issue (.createBlock "loop.body" (some f))).issue
    (.createBlock "loop.end" (some f))).issue (.append (.br loopCondBB))).issue
      (.setInsertPoint loopCondBB)

/-- The calls of `codegen` that the visit of a node makes, in this order. -/
def asks (P : Program) (lookupFunc : List Byte → Option FunctionInfo) (i : NodeId) (n : Node) :
    List NodeId :=
  match n.kind with
  | TranslationUnit => idsBehind P.tree i
  | VarDecl => if n.qualifiers.isConstexpr then [] else [n.data.initExpr]
  | FunctionDecl => [n.data.initExpr]
  | BinaryExpr => [n.data.lhs, n.data.rhs]
  | UnaryExpr => [n.data.operand]
  | CallExpr =>
      match lookupFunc (P.text n.data.target) with
      | none => [n.data.argsList]
      | some info => (info.allParams.filter fun p => !p.isCompileTime).map fun _ => n.data.argsList
  | EvalExpr => [n.data.cond, n.data.thenBlock, n.data.elseBlock]
  | CompileTimeJump =>
      if n.data.op = kBreak.code ∨ n.data.op = kContinue.code then []
      else [n.data.cond, n.data.thenBlock]
  | _ => []

/-- What is done for a node behind these calls: instructions that are no terminators, and perhaps
a name in the innermost scope. -/
structure Finishes (P : Program) (n : Node) (s t : Compiler) : Prop where
  ops : ∃ ops, t.ops = s.ops ++ ops ∧ ∀ op ∈ ops, op.Plain
  outer : t.scopes.tail = s.scopes.tail
  funcs : t.lookupFunc = s.lookupFunc
  vars : ∀ x, t.lookupVar x = s.lookupVar x ∨ n.kind = VarDecl ∧ x = P.text n.data.nameNode

/-! ## Derivations -/

/-- Visiting the nodes `ids` in this order takes the state `s` to the state `t`. -/
inductive Visits (P : Program) : List NodeId → Compiler → Compiler → Prop
  | nil (s : Compiler) : Visits P [] s s
  | cons {i : NodeId} {ids : List NodeId} {s t u : Compiler} (h : Visits P [i] s t)
      (hrest : Visits P ids t u) : Visits P (i :: ids) s u
  | null (s : Compiler) : Visits P [kNullNode] s s
  | plain {i : NodeId} {n : Node} {s t u : Compiler} (hid : i ≠ kNullNode)
      (hnode : P.tree[i]? = some n) (hkind : n.IsPlain)
      (hname : n.kind = IdentifierExpr → s.lookupVar (P.text i) ≠ none)
      (hcall : n.kind = CallExpr → s.lookupFunc (P.text n.data.target) = none →
        s.module.getFunction (P.text n.data.target) ≠ none)
      (hasks : Visits P (asks P s.lookupFunc i n) s t) (hrest : Finishes P n t u) :
      Visits P [i] s u
  | returns {i : NodeId} {n : Node} {s t : Compiler} {v : Option Value} (hid : i ≠ kNullNode)
      (hnode : P.tree[i]? = some n) (hkind : n.kind = UnaryExpr) (hop : n.data.op = kReturn.code)
      (hoperand : Visits P [n.data.operand] s t) : Visits P [i] s (t.issue (.append (.ret v)))
  | unit {i : NodeId} {n : Node} {s t : Compiler} (hid : i ≠ kNullNode)
      (hnode : P.tree[i]? = some n) (hkind : n.kind = TranslationUnit)
      (hasks : Visits P (idsBehind P.tree i) s.pushed t) : Visits P [i] s t.popped
  | function {i : NodeId} {n : Node} {s t : Compiler} {retType : IRType} {v : Option Value}
      (hid : i ≠ kNullNode) (hnode : P.tree[i]? = some n) (hkind : n.kind = FunctionDecl)
      (hbody : Visits P [n.data.initExpr] (s.entered i (P.text n.data.nameNode) retType) t)
      (hpoint : t.module.insertBlock ≠ none) : Visits P [i] s (t.closed (.ret v)).popped
  | conditional {i : NodeId} {n : Node} {s t u w : Compiler} {v : Option Value} {b : BlockId}
      {f : FunctionId} (hid : i ≠ kNullNode) (hnode : P.tree[i]? = some n) (hkind : n.kind = EvalExpr)
      (hcond : Visits P [n.data.cond] s t) (hblock : t.module.insertBlock = some b)
      (hparent : t.module.parent b = some f)
      (hthen : Visits P [n.data.thenBlock] (t.branched f v) u)
      (hu : u.module.insertBlock ≠ none)
      (helse : Visits P [n.data.elseBlock]
        ((u.closed (.br (t.module.blocks.length + 2))).movedTo f (t.module.blocks.length + 1)) w)
      (hw : w.module.insertBlock ≠ none) :
      Visits P [i] s
        ((w.closed (.br (t.module.blocks.length + 2))).movedTo f (t.module.blocks.length + 2))
  | loop {i : NodeId} {n : Node} {s t u : Compiler} {v : Option Value} {b : BlockId}
      {f : FunctionId} (hid : i ≠ kNullNode) (hnode : P.tree[i]? = some n)
      (hkind : n.kind = CompileTimeJump)
      (hop : ¬ (n.data.op = kBreak.code ∨ n.data.op = kContinue.code))
      (hblock : s.module.insertBlock = some b) (hparent : s.module.parent b = some f)
      (hcond : Visits P [n.data.cond] (s.looped f) t)
      (hbody : Visits P [n.data.thenBlock]
        ((t.issue (.append (.condBr v (s.module.blocks.length + 1) (s.module.blocks.length + 2)))).issue
          (.setInsertPoint (s.module.blocks.length + 1))) u) :
      Visits P [i] s
        ((u.issue (.append (.br s.module.blocks.length))).movedTo f (s.module.blocks.length + 2))

/-! ## Texts -/

/-- The text of a node is read without a change of the state, or it is an error in every state. -/
lemma getNodeSnippet_cases (P : Program) (i : NodeId) :
    (∃ x, ∀ s, getNodeSnippet P i s = some (.ok (x, s))) ∨
      ∃ e, ∀ s, getNodeSnippet P i s = some (.error e) := by
  by_cases hi : i = kNullNode
  · exact .inl ⟨[], fun s => by rw [getNodeSnippet, if_pos hi]; rfl⟩
  cases hnode : P.tree[i]? with
  | none =>
      refine .inr ⟨.crash, fun s => ?_⟩
      rw [getNodeSnippet, if_neg hi, getNode, hnode]
      rfl
  | some n =>
      have hrun (s : Compiler) : getNodeSnippet P i s =
          (if n.sourceLength = 0 ∨ P.source.length < (n.sourceOffset + n.sourceLength) % 2 ^ 32 then
            pure []
          else if P.source.length < n.sourceOffset then fail .stdException
          else pure ((P.source.drop n.sourceOffset).take n.sourceLength) : CodegenM _) s := by
        rw [getNodeSnippet, if_neg hi, getNode_eq hnode]
        rfl
      simp only [hrun]
      split_ifs
      · exact .inl ⟨_, fun s => rfl⟩
      · exact .inr ⟨_, fun s => rfl⟩
      · exact .inl ⟨_, fun s => rfl⟩

/-- Where a text is returned, it is the text, and nothing has changed. -/
lemma getNodeSnippet_ok (h : getNodeSnippet P i s = some (.ok (x, t))) : x = P.text i ∧ s = t := by
  rcases getNodeSnippet_cases P i with ⟨y, hy⟩ | ⟨e, he⟩
  · rw [hy] at h
    cases h
    rw [Program.text, hy]
    exact ⟨rfl, rfl⟩
  · rw [he] at h
    cases h

/-! ## Behind the calls -/

namespace Finishes

/-- Nothing has been done. -/
lemma refl (s : Compiler) : Finishes P n s s :=
  ⟨⟨[], (List.append_nil _).symm, fun _ h => absurd h List.not_mem_nil⟩, rfl, rfl, fun _ => .inl rfl⟩

/-- One piece of work behind another. -/
lemma trans (h : Finishes P n s t) (h' : Finishes P n t u) : Finishes P n s u := by
  obtain ⟨ops, hops, hplain⟩ := h.ops
  obtain ⟨ops', hops', hplain'⟩ := h'.ops
  refine ⟨⟨ops ++ ops', ?_, ?_⟩, h'.outer.trans h.outer, h'.funcs.trans h.funcs, fun x => ?_⟩
  · rw [hops', hops, List.append_assoc]
  · intro op hop
    exact (List.mem_append.mp hop).elim (hplain op) (hplain' op)
  · rcases h'.vars x with hsame | hnew
    · exact (h.vars x).imp_left hsame.trans
    · exact .inr hnew

/-- An instruction that ends no block, at the insertion point. -/
lemma issue (s : Compiler) (hop : op.Plain) : Finishes P n s (s.issue op) :=
  ⟨⟨[op], rfl, fun _ hop' => List.mem_singleton.mp hop' ▸ hop⟩, rfl, rfl, fun _ => .inl rfl⟩

/-- A change of the innermost scope that leaves the functions alone. -/
lemma onScope {change : Scope → Scope} (hfuncs : ∀ scope, (change scope).functions = scope.functions)
    (hvars : ∀ scope x, (change scope).symbols x = scope.symbols x ∨
      n.kind = VarDecl ∧ x = P.text n.data.nameNode) : Finishes P n s (s.onScope change) := by
  refine ⟨⟨[], (List.append_nil _).symm, fun _ h => absurd h List.not_mem_nil⟩,
    List.tail_modifyHead, ?_, fun x => ?_⟩
  · funext x
    rw [lookupFunc, lookupFunc, Compiler.onScope]
    cases s.scopes with
    | nil => rfl
    | cons scope scopes => simp [List.findSome?_cons, hfuncs]
  · rw [lookupVar, lookupVar, Compiler.onScope]
    cases s.scopes with
    | nil => exact .inl rfl
    | cons scope scopes =>
        refine (hvars scope x).imp_left fun hsame => ?_
        simp [List.findSome?_cons, hsame]

end Finishes

/-- Where `x` returns, it has only finished the node `n`. -/
abbrev FinishesAll (P : Program) (n : Node) {α : Type} (x : CodegenM α) : Prop :=
  Comp.Keeps (Finishes P n) x

namespace FinishesAll

variable {α β : Type} {x : CodegenM α} {g : α → CodegenM β}

lemma pure (a : α) : FinishesAll P n (Pure.pure a : CodegenM α) := Comp.Keeps.pure Finishes.refl a

/-- A visit behind another one. -/
lemma bind (hx : FinishesAll P n x) (hg : ∀ a, FinishesAll P n (g a)) : FinishesAll P n (x >>= g) :=
  Comp.Keeps.bind (fun _ _ _ h h' => h.trans h') hx hg

lemma read (g : Compiler → α) : FinishesAll P n (Compiler.read g) :=
  Comp.Keeps.of_same Finishes.refl fun s a s' h => by cases h; rfl

lemma deref (a : Option α) : FinishesAll P n (Compiler.deref a) := by
  cases a with
  | none => exact fun s a s' h => by cases h
  | some a => exact pure a

lemma emit (hop : op.Plain) : FinishesAll P n (Compiler.emit op) := by
  intro s a s' h
  cases h
  exact .issue s hop

/-- An instruction that ends no block. -/
lemma insert {i : ℕ → Instruction} (hi : ∀ id, (i id).isTerminator = false) :
    FinishesAll P n (Compiler.insert i) :=
  bind (read _) fun _ => bind (emit (hi _)) fun _ => pure _

lemma createBinary (h : Host) (op : Opcode) (lhs rhs : Value) (name : String) :
    FinishesAll P n (Compiler.createBinary h op lhs rhs name) := by
  rw [Compiler.createBinary]
  split
  · exact pure _
  · exact bind (insert fun _ => rfl) fun _ => pure _

lemma createUnary (h : Host) (op : Opcode) (operand : Value) (name : String) :
    FinishesAll P n (Compiler.createUnary h op operand name) := by
  rw [Compiler.createUnary]
  split
  · exact pure _
  · exact bind (insert fun _ => rfl) fun _ => pure _

lemma createStore (value pointer : Value) : FinishesAll P n (Compiler.createStore value pointer) :=
  bind (read _) fun _ => bind (deref _) fun _ => bind (insert fun _ => rfl) fun _ => pure _

lemma createLoad (type : IRType) (pointer : Value) (name : List Byte) :
    FinishesAll P n (Compiler.createLoad type pointer name) :=
  bind (read _) fun _ => bind (deref _) fun _ => bind (insert fun _ => rfl) fun _ => pure _

lemma createCall (callee : FunctionId) (args : List (Option Value)) :
    FinishesAll P n (Compiler.createCall callee args) :=
  bind (read _) fun _ => bind (insert fun _ => rfl) fun _ => pure _

/-- A slot is put in front of the function, where no block ends. -/
lemma createAlloca (f : FunctionId) (type : IRType) (name : List Byte) :
    FinishesAll P n (Compiler.createAlloca f type name) :=
  bind (read _) fun _ => bind (deref _) fun _ => bind (read _) fun _ =>
    bind (emit rfl) fun _ => pure _

/-- A variable is bound under the text of its declaration. -/
lemma defineVar {name : List Byte} (hkind : n.kind = VarDecl) (hname : name = P.text n.data.nameNode)
    (symbol : Symbol) : FinishesAll P n (Compiler.defineVar name symbol) := by
  intro s a s' h
  cases h
  refine .onScope (fun _ => rfl) fun scope x => ?_
  by_cases hx : x = name
  · exact .inr ⟨hkind, hx.trans hname⟩
  · exact .inl (Function.update_of_ne hx _ _)

lemma defineType (name : List Byte) (type : IRType) :
    FinishesAll P n (Compiler.defineType name type) := by
  intro s a s' h
  cases h
  exact .onScope (fun _ => rfl) fun _ _ => .inl rfl

/-- A variable of any of the three kinds. -/
lemma declareVar {name : List Byte} (hkind : n.kind = VarDecl)
    (hname : name = P.text n.data.nameNode) (type : IRType) (initVal : Option Value) :
    FinishesAll P n (Compiler.declareVar n name type initVal) := by
  refine bind (read _) fun b => bind (read _) fun parent => ?_
  dsimp only
  split
  · refine bind (createAlloca _ _ _) fun alloca => ?_
    split
    · exact bind (createStore _ _) fun _ => bind (defineVar hkind hname _) fun _ => pure _
    · exact bind (defineVar hkind hname _) fun _ => pure _
  · exact bind (deref _) fun value => bind (read _) fun _ => bind (emit trivial) fun _ =>
      bind (defineVar hkind hname _) fun _ => pure _

end FinishesAll

/-- A node that asks for nothing. -/
lemma Visits.leaf (hid : i ≠ kNullNode) (hnode : P.tree[i]? = some n) (hplain : n.IsPlain)
    (hasks : asks P s.lookupFunc i n = [])
    (hname : n.kind = IdentifierExpr → s.lookupVar (P.text i) ≠ none)
    (hcall : n.kind = CallExpr → s.lookupFunc (P.text n.data.target) = none →
      s.module.getFunction (P.text n.data.target) ≠ none)
    (hrest : Finishes P n s t) : Visits P [i] s t :=
  .plain hid hnode hplain hname hcall (hasks ▸ .nil s) hrest

/-! ## The visiting methods -/

/-- A table whose calls do what the relation says, and whose evaluator changes nothing. -/
structure VisitingCalls (P : Program) (c : CodegenCalls) : Prop where
  codegen : ∀ i s v t, c.codegen i s = some (.ok (v, t)) → Visits P [i] s t
  evaluateConstantExpr : ∀ i, ReadsOnly (c.evaluateConstantExpr i)

/-- A node that is read is the one in the arena. -/
lemma getNode_ok {m : Node} (hnode : P.tree[i]? = some n) (h : getNode P i s = some (.ok (m, t))) :
    m = n ∧ s = t := by
  rw [getNode_eq hnode] at h
  cases h
  exact ⟨rfl, rfl⟩

@[simp] lemma blocks_issue_createBlock (s : Compiler) (name : String) (parent : Option FunctionId) :
    (s.issue (.createBlock name parent)).module.blocks.length = s.module.blocks.length + 1 := by
  rw [module_issue, Module.blocks_length_createBlock]

lemma deref_ok {α : Type} {o : Option α} {a : α} (h : deref o s = some (.ok (a, t))) :
    o = some a ∧ s = t := by
  cases o with
  | none => cases h
  | some b =>
      cases h
      exact ⟨rfl, rfl⟩

/-- The function of the insertion point. -/
lemma insertFunction_ok (h : insertFunction s = some (.ok (f, t))) :
    s = t ∧ ∃ b, s.module.insertBlock = some b ∧ s.module.parent b = some f := by
  rcases Comp.bind_eq_ok.mp h with ⟨o, s₁, ho, h⟩
  cases ho
  rcases Comp.bind_eq_ok.mp h with ⟨b, s₁, hderef, h⟩
  obtain ⟨hb, rfl⟩ := deref_ok hderef
  rcases Comp.bind_eq_ok.mp h with ⟨p, s₂, hp, h⟩
  cases hp
  obtain ⟨hf, rfl⟩ := deref_ok h
  exact ⟨rfl, b, hb, hf⟩

/-- The terminator that is appended in the end of a block, when there is none. -/
lemma unlessTerminated_ok {y : CodegenM Unit} {i : Instruction}
    (hy : ∀ s a t, y s = some (.ok (a, t)) → t = s.issue (.append i))
    (h : unlessTerminated y s = some (.ok ((), t))) :
    s.module.insertBlock ≠ none ∧ t = s.closed i := by
  rcases Comp.bind_eq_ok.mp h with ⟨o, s₁, ho, h⟩
  cases ho
  rcases Comp.bind_eq_ok.mp h with ⟨b, s₁, hderef, h⟩
  obtain ⟨hb, rfl⟩ := deref_ok hderef
  rcases Comp.bind_eq_ok.mp h with ⟨p, s₂, hp, h⟩
  cases hp
  have hpoint : s.module.insertBlock = some b := hb
  refine ⟨by rw [hpoint]; exact Option.some_ne_none _, ?_⟩
  rw [Comp.ite_apply] at h
  simp only [closed, hpoint]
  split_ifs at h ⊢
  · cases h
    rfl
  · exact hy _ _ _ h

/-- A jump is asked for at the insertion point. -/
lemma createBr_ok {dest : BlockId} (s : Compiler) (a : Unit) (t : Compiler)
    (h : createBr dest s = some (.ok (a, t))) : t = s.issue (.append (.br dest)) := by
  cases h
  rfl

lemma createCondBr_ok {cond : Option Value} {ifTrue ifFalse : BlockId} {a : Unit}
    (h : createCondBr cond ifTrue ifFalse s = some (.ok (a, t))) :
    t = s.issue (.append (.condBr cond ifTrue ifFalse)) := by
  cases h
  rfl

/-- A new block takes the next number. -/
lemma createBlock_ok {name : String} {parent : Option FunctionId}
    (h : createBlock name parent s = some (.ok (b, t))) :
    b = s.module.blocks.length ∧ t = s.issue (.createBlock name parent) := by
  cases h
  exact ⟨rfl, rfl⟩

lemma emit_ok {a : Unit} (h : emit op s = some (.ok (a, t))) : t = s.issue op := by
  cases h
  rfl

/-- A function that is closed returns, unless its last block has ended. -/
lemma closeFunction_ok {retType : IRType} (h : closeFunction retType s = some (.ok ((), t))) :
    s.module.insertBlock ≠ none ∧ ∃ v, t = s.closed (.ret v) := by
  rw [closeFunction] at h
  by_cases hvoid : retType = .void
  · simp only [if_pos hvoid] at h
    have hclose := unlessTerminated_ok (i := .ret none) (fun s a t h => by cases h; rfl) h
    exact ⟨hclose.1, _, hclose.2⟩
  · simp only [if_neg hvoid] at h
    cases hnull : nullValue retType with
    | none =>
        have hclose := unlessTerminated_ok (i := .ret none)
          (fun s a t h => by rw [hnull] at h; cases h) h
        exact ⟨hclose.1, _, hclose.2⟩
    | some null =>
        have hclose := unlessTerminated_ok (i := .ret (some (.constant null)))
          (fun s a t h => by rw [hnull] at h; cases h; rfl) h
        exact ⟨hclose.1, _, hclose.2⟩

namespace ReadsOnly

lemma read {α : Type} (g : Compiler → α) : ReadsOnly (Compiler.read g) :=
  fun _ _ _ h => by cases h; rfl

lemma deref {α : Type} (o : Option α) : ReadsOnly (Compiler.deref o) :=
  fun _ _ _ h => (deref_ok h).2.symm

lemma orThrow {α : Type} (o : Option α) : ReadsOnly (Compiler.orThrow o) := by
  cases o with
  | none => exact fail _
  | some a => exact pure _

/-- Either branch reads only. -/
lemma ite {α : Type} {d : Prop} [Decidable d] {x y : CodegenM α} (hx : ReadsOnly x)
    (hy : ReadsOnly y) : ReadsOnly (if d then x else y) := Comp.Keeps.ite hx hy

/-- A literal is computed from its text alone. -/
lemma literalValue (type : ℕ) (text : List Byte) : ReadsOnly (Compiler.literalValue P type text) :=
  ite (bind (orThrow _) fun _ => pure _)
    (ite (bind (orThrow _) fun _ => pure _) (ite (pure _) (ite (pure _) (pure _))))

end ReadsOnly

namespace VisitingCalls

variable (hc : VisitingCalls P c) {v : Option Value} (hid : i ≠ kNullNode)
  (hnode : P.tree[i]? = some n)

include hc

/-- A list of ids is visited from left to right. -/
lemma visitAll {w : Option Value} (h : visitAll c ids w s = some (.ok (v, t))) :
    Visits P ids s t := by
  induction ids generalizing w s with
  | nil =>
      cases h
      exact .nil _
  | cons i ids ih =>
      rcases Comp.bind_eq_ok.mp h with ⟨w', s₁, hi, h⟩
      exact .cons (hc.codegen _ _ _ _ hi) (ih h)

/-- Every parameter at run time visits the first argument again. -/
lemma codegenArgs {params : List ParamInfo} {args : List (Option Value)} {argNodeId : NodeId}
    (h : Compiler.codegenArgs c argNodeId params s = some (.ok (args, t))) :
    Visits P ((params.filter fun p => !p.isCompileTime).map fun _ => argNodeId) s t := by
  induction params generalizing s args with
  | nil =>
      cases h
      exact .nil _
  | cons param params ih =>
      rw [Compiler.codegenArgs, Comp.ite_apply] at h
      split_ifs at h with hcomp
      · rcases Comp.bind_eq_ok.mp h with ⟨_, s₁, hval, h⟩
        obtain rfl := (hc.evaluateConstantExpr _ _ _ _ hval).symm
        simpa [hcomp] using ih h
      · rcases Comp.bind_eq_ok.mp h with ⟨_, s₁, hval, h⟩
        rcases Comp.bind_eq_ok.mp h with ⟨_, s₂, hrest, h⟩
        cases h
        simpa [hcomp] using Visits.cons (hc.codegen _ _ _ _ hval) (ih hrest)

include hid hnode

/-- A unit visits what stands behind it in the arena. -/
lemma codegenTranslationUnit (hkind : n.kind = TranslationUnit)
    (h : Compiler.codegenTranslationUnit P c i s = some (.ok (v, t))) : Visits P [i] s t := by
  rw [Compiler.codegenTranslationUnit, Comp.bind_apply (pushScope_apply s)] at h
  rcases Comp.bind_eq_ok.mp h with ⟨w, s₁, hvisit, hpop⟩
  rw [Comp.bind_apply (popScope_apply s₁)] at hpop
  cases hpop
  exact .unit hid hnode hkind (hc.visitAll hvisit)

lemma codegenVarDecl (hkind : n.kind = VarDecl)
    (h : Compiler.codegenVarDecl P c i s = some (.ok (v, t))) : Visits P [i] s t := by
  have hplain : n.IsPlain := by simp [Node.IsPlain, hkind]
  have hno : ¬ n.kind = IdentifierExpr ∧ ¬ n.kind = CallExpr := by simp [hkind]
  rw [Compiler.codegenVarDecl] at h
  rcases Comp.bind_eq_ok.mp h with ⟨m, s₁, hm, h⟩
  obtain ⟨rfl, rfl⟩ := getNode_ok hnode hm
  rcases Comp.bind_eq_ok.mp h with ⟨varName, s₂, hname, h⟩
  obtain ⟨rfl, rfl⟩ := getNodeSnippet_ok hname
  rcases Comp.bind_eq_ok.mp h with ⟨varType, s₃, htype, h⟩
  obtain rfl := (ReadsOnly.resolveType _ _ _ _ htype).symm
  by_cases hconst : m.qualifiers.isConstexpr = true
  · rw [if_pos hconst] at h
    rcases Comp.bind_eq_ok.mp h with ⟨constVal, s₄, hval, h⟩
    obtain rfl := (hc.evaluateConstantExpr _ _ _ _ hval).symm
    rcases Comp.bind_eq_ok.mp h with ⟨_, s₅, hdefine, h⟩
    cases h
    exact .leaf hid hnode hplain (by simp [asks, hkind, hconst]) (fun h => absurd h hno.1)
      (fun h => absurd h hno.2) (FinishesAll.defineVar hkind rfl _ _ _ _ hdefine)
  · rw [if_neg hconst, Comp.ite_apply] at h
    have hasks : asks P s.lookupFunc i m = [m.data.initExpr] := by simp [asks, hkind, hconst]
    split_ifs at h with hinit
    · rcases Comp.bind_eq_ok.mp h with ⟨initVal, s₄, hval, h⟩
      exact .plain hid hnode hplain (fun h => absurd h hno.1) (fun h => absurd h hno.2)
        (hasks ▸ hc.codegen _ _ _ _ hval) (FinishesAll.declareVar hkind rfl _ _ _ _ _ h)
    · rcases Comp.bind_eq_ok.mp h with ⟨null, s₄, hnull, h⟩
      obtain ⟨-, rfl⟩ := deref_ok hnull
      have hdeclare : declareVar m (P.text m.data.nameNode) varType (some (.constant null)) s =
        some (.ok (v, t)) := h
      rw [not_not] at hinit
      exact .plain hid hnode hplain (fun h => absurd h hno.1) (fun h => absurd h hno.2)
        (hasks ▸ hinit ▸ .null _) (FinishesAll.declareVar hkind rfl _ _ _ _ _ hdeclare)

omit hc in
lemma codegenTypeDecl (hkind : n.kind = TypeDecl)
    (h : Compiler.codegenTypeDecl P i s = some (.ok (v, t))) : Visits P [i] s t := by
  rcases Comp.bind_eq_ok.mp h with ⟨m, s₁, hm, h⟩
  obtain ⟨rfl, rfl⟩ := getNode_ok hnode hm
  rcases Comp.bind_eq_ok.mp h with ⟨typeName, s₂, hname, h⟩
  obtain ⟨-, rfl⟩ := getNodeSnippet_ok hname
  rcases Comp.bind_eq_ok.mp h with ⟨aliasedType, s₃, htype, h⟩
  obtain rfl := (ReadsOnly.resolveType _ _ _ _ htype).symm
  rcases Comp.bind_eq_ok.mp h with ⟨_, s₄, hdefine, h⟩
  cases h
  exact Visits.leaf hid hnode (by simp [Node.IsPlain, hkind]) (by simp [asks, hkind]) (by simp [hkind])
    (by simp [hkind]) (FinishesAll.defineType _ _ _ _ _ hdefine)

/-- A function visits its body. -/
lemma codegenFunctionDecl (hkind : n.kind = FunctionDecl)
    (h : Compiler.codegenFunctionDecl P c i s = some (.ok (v, t))) : Visits P [i] s t := by
  rw [codegenFunctionDecl_eq] at h
  rcases Comp.bind_eq_ok.mp h with ⟨r, s₁, henter, h⟩
  have hrun := henter
  rw [enterFunction, getNode_eq hnode] at hrun
  change (getNodeSnippet P n.data.nameNode >>= _) s = _ at hrun
  rcases Comp.bind_eq_ok.mp hrun with ⟨fnName, s₂, hname, hrun⟩
  obtain ⟨rfl, rfl⟩ := getNodeSnippet_ok hname
  rcases Comp.bind_eq_ok.mp hrun with ⟨retType, s₃, htype, -⟩
  obtain rfl := (ReadsOnly.resolveType _ _ _ _ htype).symm
  rw [enterFunction_eq hnode hname htype] at henter
  cases henter
  -- the epilogue, behind the body
  have hleave {s₄ : Compiler}
      (hbody : Visits P [n.data.initExpr] (s.entered i (P.text n.data.nameNode) retType) s₄)
      (h : leaveFunction retType s.module.functions.length s₄ = some (.ok (v, t))) :
      Visits P [i] s t := by
    rcases Comp.bind_eq_ok.mp h with ⟨_, s₅, hclose, h⟩
    rw [Comp.bind_apply (popScope_apply s₅)] at h
    cases h
    obtain ⟨hpoint, value, rfl⟩ := closeFunction_ok hclose
    exact .function hid hnode hkind hbody hpoint
  rw [Comp.ite_apply] at h
  split_ifs at h with hinit
  · rcases Comp.bind_eq_ok.mp h with ⟨_, s₄, hbody, h⟩
    exact hleave (hc.codegen _ _ _ _ hbody) h
  · rw [not_not] at hinit
    exact hleave (hinit ▸ .null _) h

/-- An operation visits both of its sides. -/
lemma codegenBinaryExpr (hkind : n.kind = BinaryExpr)
    (h : Compiler.codegenBinaryExpr P c i s = some (.ok (v, t))) : Visits P [i] s t := by
  rcases Comp.bind_eq_ok.mp h with ⟨m, s₁, hm, h⟩
  obtain ⟨rfl, rfl⟩ := getNode_ok hnode hm
  rcases Comp.bind_eq_ok.mp h with ⟨lhs, s₂, hlhs, h⟩
  rcases Comp.bind_eq_ok.mp h with ⟨rhs, s₃, hrhs, h⟩
  have hasks : asks P s.lookupFunc i m = [m.data.lhs, m.data.rhs] := by simp [asks, hkind]
  have hoperands := Visits.cons (hc.codegen _ _ _ _ hlhs) (hc.codegen _ _ _ _ hrhs)
  refine .plain hid hnode (by simp [Node.IsPlain, hkind]) (by simp [hkind]) (by simp [hkind])
    (hasks ▸ hoperands) ?_
  refine (?_ : FinishesAll P m _) _ _ _ h
  split
  · next lhs rhs =>
      dsimp only
      split
      · exact FinishesAll.bind (.createBinary _ _ _ _ _) fun _ => .pure _
      · refine Comp.Keeps.ite (Comp.Keeps.ite ?_ fun _ _ _ h => by cases h) fun _ _ _ h => by cases h
        exact FinishesAll.bind (.createStore _ _) fun _ => .pure _
  · exact .pure _

lemma codegenUnaryExpr (hkind : n.kind = UnaryExpr)
    (h : Compiler.codegenUnaryExpr P c i s = some (.ok (v, t))) : Visits P [i] s t := by
  rcases Comp.bind_eq_ok.mp h with ⟨m, s₁, hm, h⟩
  obtain ⟨rfl, rfl⟩ := getNode_ok hnode hm
  by_cases hreturn : m.data.op = kReturn.code
  · rw [if_pos hreturn, Comp.ite_apply] at h
    split_ifs at h with hoperand
    · rcases Comp.bind_eq_ok.mp h with ⟨retVal, s₂, hval, h⟩
      cases h
      exact .returns hid hnode hkind hreturn (hc.codegen _ _ _ _ hval)
    · rw [not_not] at hoperand
      cases h
      exact .returns hid hnode hkind hreturn (hoperand ▸ .null _)
  · rw [if_neg hreturn] at h
    rcases Comp.bind_eq_ok.mp h with ⟨operand, s₂, hoperand, h⟩
    have hasks : asks P s.lookupFunc i m = [m.data.operand] := by simp [asks, hkind]
    refine .plain hid hnode (by simp [Node.IsPlain, hkind, hreturn]) (by simp [hkind])
      (by simp [hkind]) (hasks ▸ hc.codegen _ _ _ _ hoperand) ?_
    refine (?_ : FinishesAll P m _) _ _ _ h
    have hunary (op : Value → Opcode) (name : String) : FinishesAll P m (do
        let operand ← deref operand
        let value ← createUnary P.host (op operand) operand name
        pure (some value)) :=
      FinishesAll.bind (.deref _) fun _ => FinishesAll.bind (.createUnary _ _ _ _) fun _ => .pure _
    exact Comp.Keeps.ite (hunary (fun o => if o.isFloat then .FNeg else .Neg) "negtmp")
      (Comp.Keeps.ite (hunary (fun _ => .Not) "nottmp") (FinishesAll.pure _))

omit hc in
lemma codegenLiteralExpr (hkind : n.kind = LiteralExpr)
    (h : Compiler.codegenLiteralExpr P i s = some (.ok (v, t))) : Visits P [i] s t := by
  rcases Comp.bind_eq_ok.mp h with ⟨litStr, s₁, hname, h⟩
  obtain ⟨-, rfl⟩ := getNodeSnippet_ok hname
  rcases Comp.bind_eq_ok.mp h with ⟨m, s₂, hm, h⟩
  obtain ⟨rfl, rfl⟩ := getNode_ok hnode hm
  obtain rfl := (ReadsOnly.literalValue _ _ _ _ _ h).symm
  exact .leaf hid hnode (by simp [Node.IsPlain, hkind]) (by simp [asks, hkind]) (by simp [hkind])
    (by simp [hkind]) (.refl _)

omit hc in
lemma codegenIdentifierExpr (hkind : n.kind = IdentifierExpr)
    (h : Compiler.codegenIdentifierExpr P i s = some (.ok (v, t))) : Visits P [i] s t := by
  rcases Comp.bind_eq_ok.mp h with ⟨name, s₁, hname, h⟩
  obtain ⟨rfl, rfl⟩ := getNodeSnippet_ok hname
  rw [Comp.bind_apply (read_apply _ _)] at h
  cases hsym : s.lookupVar (P.text i) with
  | none =>
      rw [hsym] at h
      cases h
  | some sym =>
      rw [hsym] at h
      refine Visits.leaf hid hnode (by simp [Node.IsPlain, hkind]) (by simp [asks, hkind])
        (fun _ => by simp [hsym]) (by simp [hkind]) ?_
      have hload : FinishesAll P n (do
          let value ← deref sym.value
          if value.isAlloca then
            let loaded ← createLoad sym.type value (P.text i)
            pure (some loaded)
          else pure (some value)) :=
        FinishesAll.bind (.deref _) fun value => Comp.Keeps.ite
          (FinishesAll.bind (.createLoad _ _ _) fun _ => .pure _) (FinishesAll.pure _)
      exact hload _ _ _ h

/-- A call visits its arguments, in the way its parameters ask for. -/
lemma codegenCallExpr (hkind : n.kind = CallExpr)
    (h : Compiler.codegenCallExpr P c i s = some (.ok (v, t))) : Visits P [i] s t := by
  rcases Comp.bind_eq_ok.mp h with ⟨m, s₁, hm, h⟩
  obtain ⟨rfl, rfl⟩ := getNode_ok hnode hm
  rcases Comp.bind_eq_ok.mp h with ⟨fnName, s₂, hname, h⟩
  obtain ⟨rfl, rfl⟩ := getNodeSnippet_ok hname
  have hplain : m.IsPlain := by simp [Node.IsPlain, hkind]
  have hcall (callee : FunctionId) (args : List (Option Value)) : FinishesAll P m (do
      let value ← createCall callee args
      pure (some value)) := .bind (.createCall _ _) fun _ => .pure _
  rw [Comp.bind_apply (read_apply _ _)] at h
  cases hinfo : s.lookupFunc (P.text m.data.target) with
  | none =>
      have hasks : asks P s.lookupFunc i m = [m.data.argsList] := by simp [asks, hkind, hinfo]
      rw [hinfo] at h
      change (read (fun s => s.module.getFunction (P.text m.data.target)) >>= _) s = _ at h
      rw [Comp.bind_apply (read_apply _ _)] at h
      cases hfn : s.module.getFunction (P.text m.data.target) with
      | none =>
          rw [hfn] at h
          cases h
      | some externalFn =>
          rw [hfn] at h
          change (if m.data.argsList ≠ kNullNode then _ else _ : CodegenM (Option Value)) s = _ at h
          rw [Comp.ite_apply] at h
          split_ifs at h with hargs
          · rcases Comp.bind_eq_ok.mp h with ⟨arg, s₃, harg, h⟩
            exact .plain hid hnode hplain (by simp [hkind]) (fun _ _ => by simp [hfn])
              (hasks ▸ hc.codegen _ _ _ _ harg) (hcall externalFn [arg] _ _ _ h)
          · rw [not_not] at hargs
            exact .plain hid hnode hplain (by simp [hkind]) (fun _ _ => by simp [hfn])
              (hasks ▸ hargs ▸ .null _) (hcall externalFn [] _ _ _ h)
  | some info =>
      have hasks : asks P s.lookupFunc i m =
          (info.allParams.filter fun p => !p.isCompileTime).map fun _ => m.data.argsList := by
        simp [asks, hkind, hinfo]
      rw [hinfo] at h
      rcases Comp.bind_eq_ok.mp h with ⟨args, s₃, hargs, h⟩
      exact .plain hid hnode hplain (by simp [hkind]) (fun _ hnone => by simp [hinfo] at hnone)
        (hasks ▸ hc.codegenArgs hargs) (hcall _ _ _ _ _ h)

/-- A condition visits all of its parts. -/
lemma codegenEvalExpr (hkind : n.kind = EvalExpr)
    (h : Compiler.codegenEvalExpr P c i s = some (.ok (v, t))) : Visits P [i] s t := by
  rcases Comp.bind_eq_ok.mp h with ⟨m, s₁, hm, h⟩
  obtain ⟨rfl, rfl⟩ := getNode_ok hnode hm
  rcases Comp.bind_eq_ok.mp h with ⟨condVal, s₂, hcond, h⟩
  rcases Comp.bind_eq_ok.mp h with ⟨fn, s₃, hfn, h⟩
  obtain ⟨rfl, b, hblock, hparent⟩ := insertFunction_ok hfn
  rcases Comp.bind_eq_ok.mp h with ⟨thenBB, s₄, hthenBB, h⟩
  obtain ⟨rfl, rfl⟩ := createBlock_ok hthenBB
  rcases Comp.bind_eq_ok.mp h with ⟨elseBB, s₄, helseBB, h⟩
  obtain ⟨rfl, rfl⟩ := createBlock_ok helseBB
  rcases Comp.bind_eq_ok.mp h with ⟨mergeBB, s₄, hmergeBB, h⟩
  obtain ⟨rfl, rfl⟩ := createBlock_ok hmergeBB
  rcases Comp.bind_eq_ok.mp h with ⟨_, s₄, hbr, h⟩
  obtain rfl := createCondBr_ok hbr
  rcases Comp.bind_eq_ok.mp h with ⟨_, s₄, hpoint, h⟩
  obtain rfl := emit_ok hpoint
  rcases Comp.bind_eq_ok.mp h with ⟨_, s₄, hthen, h⟩
  rcases Comp.bind_eq_ok.mp h with ⟨_, s₅, hclose, h⟩
  obtain ⟨hu, rfl⟩ := unlessTerminated_ok createBr_ok hclose
  rcases Comp.bind_eq_ok.mp h with ⟨_, s₅, hinsert, h⟩
  obtain rfl := emit_ok hinsert
  rcases Comp.bind_eq_ok.mp h with ⟨_, s₅, hpoint, h⟩
  obtain rfl := emit_ok hpoint
  simp only [blocks_issue_createBlock] at hthen h
  -- the end of the other branch
  have hleave {w : Compiler}
      (helse : Visits P [m.data.elseBlock]
        ((s₄.closed (.br (s₂.module.blocks.length + 2))).movedTo fn (s₂.module.blocks.length + 1)) w)
      (h : (do
        unlessTerminated (createBr (s₂.module.blocks.length + 2))
        emit (.insertBlock fn (s₂.module.blocks.length + 2))
        emit (.setInsertPoint (s₂.module.blocks.length + 2))
        pure (none : Option Value)) w = some (.ok (v, t))) : Visits P [i] s t := by
    rcases Comp.bind_eq_ok.mp h with ⟨_, s₅, hclose, h⟩
    obtain ⟨hw, rfl⟩ := unlessTerminated_ok createBr_ok hclose
    cases h
    exact .conditional hid hnode hkind (hc.codegen _ _ _ _ hcond) hblock hparent
      (hc.codegen _ _ _ _ hthen) hu helse hw
  rw [Comp.ite_apply] at h
  split_ifs at h with helse
  · rcases Comp.bind_eq_ok.mp h with ⟨_, s₅, hvisit, h⟩
    exact hleave (hc.codegen _ _ _ _ hvisit) h
  · rw [not_not] at helse
    exact hleave (helse ▸ .null _) h

/-- A loop visits its condition and its body. -/
lemma codegenCompileTimeJump (hkind : n.kind = CompileTimeJump)
    (h : Compiler.codegenCompileTimeJump P c i s = some (.ok (v, t))) : Visits P [i] s t := by
  rw [codegenCompileTimeJump_eq c hnode, Comp.ite_apply] at h
  split_ifs at h with hop
  · cases h
    exact Visits.leaf hid hnode (by simp [Node.IsPlain, hkind, hop]) (by simp [asks, hkind, hop])
      (by simp [hkind]) (by simp [hkind]) (.refl _)
  · rcases Comp.bind_eq_ok.mp h with ⟨fn, s₁, hfn, h⟩
    obtain ⟨rfl, b, hblock, hparent⟩ := insertFunction_ok hfn
    rcases Comp.bind_eq_ok.mp h with ⟨loopCondBB, s₂, hcondBB, h⟩
    obtain ⟨rfl, rfl⟩ := createBlock_ok hcondBB
    rcases Comp.bind_eq_ok.mp h with ⟨loopBodyBB, s₂, hbodyBB, h⟩
    obtain ⟨rfl, rfl⟩ := createBlock_ok hbodyBB
    rcases Comp.bind_eq_ok.mp h with ⟨loopEndBB, s₂, hendBB, h⟩
    obtain ⟨rfl, rfl⟩ := createBlock_ok hendBB
    rcases Comp.bind_eq_ok.mp h with ⟨_, s₂, hbr, h⟩
    obtain rfl := createBr_ok _ _ _ hbr
    rcases Comp.bind_eq_ok.mp h with ⟨_, s₂, hpoint, h⟩
    obtain rfl := emit_ok hpoint
    rcases Comp.bind_eq_ok.mp h with ⟨cond, s₂, hcond, h⟩
    rcases Comp.bind_eq_ok.mp h with ⟨_, s₃, hbr, h⟩
    obtain rfl := createCondBr_ok hbr
    rcases Comp.bind_eq_ok.mp h with ⟨_, s₃, hpoint, h⟩
    obtain rfl := emit_ok hpoint
    rcases Comp.bind_eq_ok.mp h with ⟨_, s₃, hbody, h⟩
    simp only [blocks_issue_createBlock] at hbody h
    cases h
    exact .loop hid hnode hkind hop hblock hparent (hc.codegen _ _ _ _ hcond)
      (hc.codegen _ _ _ _ hbody)

omit hid hnode in
/-- One node, whatever its kind. -/
lemma codegenNode (h : Compiler.codegen P c i s = some (.ok (v, t))) : Visits P [i] s t := by
  by_cases hid : i = kNullNode
  · rw [Compiler.codegen, if_pos hid] at h
    cases h
    exact hid ▸ .null s
  have hget := h
  rw [Compiler.codegen, if_neg hid] at hget
  rcases Comp.bind_eq_ok.mp hget with ⟨n, s₁, hn, -⟩
  obtain ⟨hnode, rfl⟩ := deref_ok hn
  rw [codegen_of_kind c hid hnode] at h
  cases hkind : n.kind
  all_goals rw [hkind] at h
  case TranslationUnit => exact hc.codegenTranslationUnit hid hnode hkind h
  case VarDecl => exact hc.codegenVarDecl hid hnode hkind h
  case TypeDecl => exact codegenTypeDecl hid hnode hkind h
  case FunctionDecl => exact hc.codegenFunctionDecl hid hnode hkind h
  case BinaryExpr => exact hc.codegenBinaryExpr hid hnode hkind h
  case UnaryExpr => exact hc.codegenUnaryExpr hid hnode hkind h
  case LiteralExpr => exact codegenLiteralExpr hid hnode hkind h
  case IdentifierExpr => exact codegenIdentifierExpr hid hnode hkind h
  case CallExpr => exact hc.codegenCallExpr hid hnode hkind h
  case EvalExpr => exact hc.codegenEvalExpr hid hnode hkind h
  case CompileTimeJump => exact hc.codegenCompileTimeJump hid hnode hkind h
  -- the kinds without a method
  all_goals
    cases h
    exact .leaf hid hnode (by simp [Node.IsPlain, hkind]) (by simp [asks, hkind]) (by simp [hkind])
      (by simp [hkind]) (.refl _)

omit hid hnode in
/-- The evaluator of constants reads only. -/
lemma evaluateBody (i : NodeId) : ReadsOnly (Compiler.evaluateConstantExpr P c i) := by
  refine ReadsOnly.ite (.pure _) (ReadsOnly.bind (.deref _) fun node => ?_)
  split
  · refine ReadsOnly.bind (.getNodeSnippet _) fun text =>
      ReadsOnly.bind (.literalValue _ _) fun value => ?_
    split
    · exact .pure _
    · exact .fail _
  · refine ReadsOnly.bind (.getNodeSnippet _) fun name => ReadsOnly.bind (.read _) fun sym => ?_
    split
    · exact ReadsOnly.ite (ReadsOnly.bind (.deref _) fun _ => .pure _) (.fail _)
    · exact .fail _
  · refine ReadsOnly.bind (hc.evaluateConstantExpr _) fun lhs => ?_
    refine ReadsOnly.bind (hc.evaluateConstantExpr _) fun rhs => ?_
    split
    · split
      · split
        · exact .pure _
        · exact .fail _
      · exact .fail _
    · exact .fail _
  · exact .fail _

end VisitingCalls

/-- **What a call of `codegen` that returns has done.** -/
theorem visiting_methods (P : Program) (k : ℕ) : VisitingCalls P (methods P k) := by
  induction k with
  | zero =>
      refine ⟨fun i s v t h => ?_, fun i => Comp.Keeps.spent⟩
      cases h
  | succ k ih => exact ⟨fun _ _ _ _ => ih.codegenNode, ih.evaluateBody⟩

/-- A visit that ends has visited what `Visits` says. -/
lemma visits_of_codegen {k : ℕ} {v : Option Value}
    (h : (methods P k).codegen i s = some (.ok (v, t))) : Visits P [i] s t :=
  (visiting_methods P k).codegen i s v t h

/-- So has the whole program, from its root on. -/
lemma visits_of_compile {fuel : ℕ} (hroot : P.tree[0]? = some n)
    (h : compile P fuel = some (.ok true)) : ∃ t, Visits P [0] {} t := by
  rw [compile] at h
  split_ifs at h with hempty
  · rw [hempty] at hroot
    cases hroot
  · split at h
    · cases h
    · next r hrun => exact ⟨_, visits_of_codegen hrun⟩
    · cases h
    · cases h

end Compiler

end LogicCompiler
