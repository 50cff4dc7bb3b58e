import LogicCompiler.Codegen.Walk

/-!
# The insertion point

What all visiting methods have in common when they return: they leave the outer scopes, the types
of functions and the place of older blocks as they are, and the insertion point either as it is or
in a new block of a function (`methods_keep`).

`codegenFunctionDecl` always does the latter, and does not go back.
-/

namespace LogicCompiler

open LLVM Fuel

namespace Compiler

variable {s t u : Compiler} {P : Program} {c : CodegenCalls} {op : BuilderOp} {b : BlockId}
  {f : FunctionId} {k : ℕ}

/-! ## States that follow each other -/

/-- The insertion point is in a block of a function, and not in one of the first `k` blocks. -/
def InNewBlock (t : Compiler) (k : ℕ) : Prop :=
  ∃ b f, t.module.insertBlock = some b ∧ k ≤ b ∧ b < t.module.blocks.length ∧
    t.module.parent b = some f

/-- What the state `t` behind a call has kept of the state `s` before it. -/
structure Extends (s t : Compiler) : Prop where
  outer : t.scopes.tail = s.scopes.tail
  signatures : s.module.signatures <+: t.module.signatures
  blocks : s.module.blocks.length ≤ t.module.blocks.length
  parents : ∀ b < s.module.blocks.length, t.module.parent b = s.module.parent b
  point : t.module.insertBlock = s.module.insertBlock ∨ t.InNewBlock s.module.blocks.length

namespace Extends

/-- Nothing has been asked for. -/
lemma refl (s : Compiler) : Extends s s :=
  ⟨rfl, List.prefix_rfl, le_rfl, fun _ _ => rfl, .inl rfl⟩

/-- An insertion point in a new block stays in one. -/
lemma inNewBlock (h : Extends s t) (hs : s.InNewBlock k) (hk : k ≤ s.module.blocks.length) :
    t.InNewBlock k := by
  rcases h.point with hsame | ⟨b, f, hb, hle, hlt, hparent⟩
  · rcases hs with ⟨b, f, hb, hle, hlt, hparent⟩
    exact ⟨b, f, hsame.trans hb, hle, hlt.trans_le h.blocks, (h.parents b hlt).trans hparent⟩
  · exact ⟨b, f, hb, hk.trans hle, hlt, hparent⟩

/-- One piece of work behind another. -/
lemma trans (h : Extends s t) (h' : Extends t u) : Extends s u := by
  refine ⟨h'.outer.trans h.outer, h.signatures.trans h'.signatures, h.blocks.trans h'.blocks,
    fun b hb => (h'.parents b (hb.trans_le h.blocks)).trans (h.parents b hb), ?_⟩
  rcases h'.point with hsame | ⟨b, f, hb, hle, hlt, hparent⟩
  · rcases h.point with hsame' | hnew
    · exact .inl (hsame.trans hsame')
    · exact .inr (h'.inNewBlock hnew h.blocks)
  · exact .inr ⟨b, f, hb, h.blocks.trans hle, hlt, hparent⟩

end Extends

/-- The state behind an operation. -/
def issue (s : Compiler) (op : BuilderOp) : Compiler := { s with ops := s.ops ++ [op] }

@[simp] lemma module_issue (s : Compiler) (op : BuilderOp) :
    (s.issue op).module = s.module.exec op := Module.build_append _ _

@[simp] lemma emit_apply (op : BuilderOp) (s : Compiler) :
    emit op s = some (.ok ((), s.issue op)) := rfl

namespace Extends

/-- A quiet operation. -/
lemma issue (s : Compiler) (hop : op.Quiet) : Extends s (s.issue op) := by
  refine ⟨rfl, ?_, ?_, fun b hb => ?_, .inl ?_⟩
  · rw [module_issue]
    exact Module.signatures_exec _ _
  · rw [module_issue]
    exact Module.blocks_length_exec _ _
  · rw [module_issue]
    exact Module.parent_exec hop hb
  · rw [module_issue]
    exact Module.insertBlock_exec hop

/-- A new block is put at the end of a function. -/
lemma insertBlock (h : Extends s t) (hb : s.module.blocks.length ≤ b)
    (hlt : b < t.module.blocks.length) (f : FunctionId) :
    Extends s (t.issue (.insertBlock f b)) := by
  have hother {b' : BlockId} (hne : b' ≠ b) :
      (t.issue (.insertBlock f b)).module.parent b' = t.module.parent b' := by
    rw [module_issue]
    exact Module.parent_link_ne hne
  refine ⟨h.outer, ?_, ?_, fun b' hb' => ?_, ?_⟩
  · rw [module_issue]
    exact h.signatures.trans (Module.signatures_exec _ _)
  · rw [module_issue]
    exact h.blocks.trans (Module.blocks_length_exec _ _)
  · exact (hother (hb'.trans_le hb).ne).trans (h.parents b' hb')
  · rcases h.point with hsame | ⟨b', f', hb', hle, hlt', hparent⟩
    · left
      rw [module_issue]
      exact Module.insertBlock_link.trans hsame
    · right
      have hlen : b' < (t.issue (.insertBlock f b)).module.blocks.length := by
        rw [module_issue]
        exact hlt'.trans_le (Module.blocks_length_exec _ _)
      have hpoint : (t.issue (.insertBlock f b)).module.insertBlock = some b' := by
        rw [module_issue]
        exact Module.insertBlock_link.trans hb'
      by_cases heq : b' = b
      · refine ⟨b', f, hpoint, hle, hlen, ?_⟩
        rw [module_issue, heq]
        exact Module.parent_link_self hlt
      · exact ⟨b', f', hpoint, hle, hlen, (hother heq).trans hparent⟩

/-- The insertion point goes to a new block of a function. -/
lemma setInsertPoint (h : Extends s t) (hb : s.module.blocks.length ≤ b)
    (hlt : b < t.module.blocks.length) (hparent : t.module.parent b = some f) :
    Extends s (t.issue (.setInsertPoint b)) := by
  have hmodule : (t.issue (.setInsertPoint b)).module = { t.module with insertBlock := some b } :=
    module_issue _ _
  refine ⟨h.outer, ?_, ?_, ?_, .inr ⟨b, f, ?_, hb, ?_, ?_⟩⟩
  all_goals rw [hmodule]
  · exact h.signatures
  · exact h.blocks
  · exact h.parents
  · exact hlt
  · exact hparent

end Extends

/-! ## The steps -/

/-- The last part of `codegenVarDecl`: a variable of the function around it, or a global one. -/
def declareVar (node : Node) (varName : List Byte) (varType : IRType) (initVal : Option Value) :
    CodegenM (Option Value) := do
  let currentFn := (← insertBlock).bind (← read fun s => s.module.parent)
  match currentFn with
  | some f =>
      let alloca ← createAlloca f varType varName
      match initVal with
      | some value => createStore value alloca
      | none => pure ()
      defineVar varName
        { value := some alloca, type := varType, isConst := node.qualifiers.isConst,
          isCompileTime := false }
      pure (some alloca)
  | none =>
      let value ← deref initVal
      let globalVar := Value.globalVar (← read fun s => s.module.globals.length)
      emit (.createGlobal varName varType node.qualifiers.isConst
        (if value.isConstant then some value else none))
      defineVar varName
        { value := some globalVar, type := varType, isConst := node.qualifiers.isConst,
          isCompileTime := false }
      pure (some globalVar)

/-- The last part of `codegenFunctionDecl`: the body in a scope of its own, and the epilogue. -/
def codegenBody (c : CodegenCalls) (node : Node) (retType : IRType) (fn : FunctionId) :
    CodegenM (Option Value) := do
  pushScope
  if node.data.initExpr ≠ kNullNode then
    let _ ← c.codegen node.data.initExpr
  closeFunction retType
  popScope
  pure (some (.function fn))

/-- Of the state before it, the work keeps what `Extends` says. -/
abbrev KeepsAll {α : Type} (x : CodegenM α) : Prop := Comp.Keeps Extends x

namespace KeepsAll

variable {α β : Type} {x : CodegenM α} {g : α → CodegenM β}

lemma pure (a : α) : KeepsAll (Pure.pure a : CodegenM α) := Comp.Keeps.pure Extends.refl a

/-- A visit behind another one. -/
lemma bind (hx : KeepsAll x) (hg : ∀ a, KeepsAll (g a)) : KeepsAll (x >>= g) :=
  Comp.Keeps.bind (fun _ _ _ h h' => h.trans h') hx hg

lemma ite {d : Prop} [Decidable d] {y : CodegenM α} (hx : KeepsAll x) (hy : KeepsAll y) :
    KeepsAll (if d then x else y) := Comp.Keeps.ite hx hy

lemma read (g : Compiler → α) : KeepsAll (Compiler.read g) :=
  Comp.Keeps.of_same Extends.refl fun s a s' h => by cases h; rfl

lemma fail (e : CodegenFailure) : KeepsAll (Compiler.fail e : CodegenM α) := fun s a s' h => by cases h

lemma deref (a : Option α) : KeepsAll (Compiler.deref a) := by
  cases a with
  | none => exact fail _
  | some a => exact pure a

lemma orThrow (a : Option α) : KeepsAll (Compiler.orThrow a) := by
  cases a with
  | none => exact fail _
  | some a => exact pure a

lemma emit (hop : op.Quiet) : KeepsAll (Compiler.emit op) := by
  intro s a s' h
  cases h
  exact .issue s hop

/-- A change of the scope asks LLVM for nothing. -/
lemma onScope (change : Scope → Scope) : KeepsAll (update fun s => s.onScope change) := by
  intro s a s' h
  cases h
  exact ⟨List.tail_modifyHead, List.prefix_rfl, le_rfl, fun _ _ => rfl, .inl rfl⟩

lemma insert (i : ℕ → Instruction) : KeepsAll (Compiler.insert i) :=
  bind (read _) fun _ => bind (emit trivial) fun _ => pure _

lemma createBinary (h : Host) (op : Opcode) (lhs rhs : Value) (name : String) :
    KeepsAll (Compiler.createBinary h op lhs rhs name) := by
  rw [Compiler.createBinary]
  split
  · exact pure _
  · exact bind (insert _) fun _ => pure _

lemma createUnary (h : Host) (op : Opcode) (operand : Value) (name : String) :
    KeepsAll (Compiler.createUnary h op operand name) := by
  rw [Compiler.createUnary]
  split
  · exact pure _
  · exact bind (insert _) fun _ => pure _

lemma createStore (value pointer : Value) : KeepsAll (Compiler.createStore value pointer) :=
  bind (read _) fun _ => bind (deref _) fun _ => bind (insert _) fun _ => pure _

lemma createLoad (type : IRType) (pointer : Value) (name : List Byte) :
    KeepsAll (Compiler.createLoad type pointer name) :=
  bind (read _) fun _ => bind (deref _) fun _ => bind (insert _) fun _ => pure _

lemma createRet (value : Option Value) : KeepsAll (Compiler.createRet value) :=
  bind (insert _) fun _ => pure _

lemma createBr (dest : BlockId) : KeepsAll (Compiler.createBr dest) :=
  bind (insert _) fun _ => pure _

lemma createCondBr (cond : Option Value) (ifTrue ifFalse : BlockId) :
    KeepsAll (Compiler.createCondBr cond ifTrue ifFalse) :=
  bind (insert _) fun _ => pure _

lemma createCall (callee : FunctionId) (args : List (Option Value)) :
    KeepsAll (Compiler.createCall callee args) :=
  bind (read _) fun _ => bind (insert _) fun _ => pure _

/-- A slot is put in front of the function, and the insertion point stays. -/
lemma createAlloca (f : FunctionId) (type : IRType) (name : List Byte) :
    KeepsAll (Compiler.createAlloca f type name) :=
  bind (read _) fun _ => bind (deref _) fun _ => bind (read _) fun _ =>
    bind (emit trivial) fun _ => pure _

lemma unlessTerminated {x : CodegenM Unit} (hx : KeepsAll x) :
    KeepsAll (Compiler.unlessTerminated x) :=
  bind (read _) fun _ => bind (deref _) fun _ => bind (read _) fun _ => ite (pure _) hx

/-- What closes a function stays inside it. -/
lemma closeFunction (retType : IRType) : KeepsAll (Compiler.closeFunction retType) := by
  refine unlessTerminated (ite ?_ ?_)
  · exact bind (createRet _) fun _ => pure _
  · exact bind (deref _) fun _ => bind (createRet _) fun _ => pure _

lemma getNode (id : NodeId) : KeepsAll (Compiler.getNode P id) := deref _

lemma getNodeSnippet (id : NodeId) : KeepsAll (Compiler.getNodeSnippet P id) :=
  ite (pure _) (bind (getNode _) fun _ => ite (pure _) (ite (fail _) (pure _)))

lemma resolveType (id : NodeId) : KeepsAll (Compiler.resolveType P id) := by
  refine ite (pure _) (bind (getNodeSnippet _) fun typeName => ?_)
  split
  · exact pure _
  · refine bind (read _) fun customTy => ?_
    split
    · exact pure _
    · exact fail _

/-- A literal asks for nothing. -/
lemma literalValue (type : ℕ) (text : List Byte) :
    KeepsAll (Compiler.literalValue P type text) :=
  ite (bind (orThrow _) fun _ => pure _)
    (ite (bind (orThrow _) fun _ => pure _) (ite (pure _) (ite (pure _) (pure _))))

/-- A variable may ask for a slot and a store. -/
lemma declareVar (node : Node) (varName : List Byte) (varType : IRType) (initVal : Option Value) :
    KeepsAll (Compiler.declareVar node varName varType initVal) := by
  refine bind (read _) fun b => bind (read _) fun parent => ?_
  dsimp only
  split
  · refine bind (createAlloca _ _ _) fun alloca => ?_
    split
    · exact bind (createStore _ _) fun _ => bind (onScope _) fun _ => pure _
    · exact bind (onScope _) fun _ => pure _
  · exact bind (deref _) fun value => bind (read _) fun _ => bind (emit trivial) fun _ =>
      bind (onScope _) fun _ => pure _

end KeepsAll

/-! ## Scopes and blocks -/

/-- A scope is put in front of the others. -/
lemma pushScope_apply (s : Compiler) :
    pushScope s = some (.ok ((), { s with scopes := {} :: s.scopes })) := rfl

/-- `popScope`, as a function of the state. -/
def popped (t : Compiler) : Compiler :=
  match t.scopes with
  | _ :: parent :: scopes => { t with scopes := parent :: scopes }
  | _ => t

/-- A scope is taken away again. -/
lemma popScope_apply (t : Compiler) : popScope t = some (.ok ((), t.popped)) := rfl

/-- The module does not depend on the scopes. -/
lemma module_popped (t : Compiler) : t.popped.module = t.module := by
  rw [popped]
  split <;> rfl

/-- The scopes are again those before `pushScope`. -/
lemma popped_scopes (h : t.scopes.tail = s.scopes) (hs : s.scopes ≠ []) :
    t.popped.scopes = s.scopes := by
  rw [popped]
  split
  · next scope parent scopes heq =>
      rw [heq] at h
      exact h
  · next hno =>
      rcases hscopes : t.scopes with _ | ⟨scope, _ | ⟨parent, scopes⟩⟩
      · rw [hscopes] at h
        exact absurd h.symm hs
      · rw [hscopes] at h
        exact absurd h.symm hs
      · exact absurd hscopes (hno scope parent scopes)

lemma Extends.popped (h : Extends { s with scopes := {} :: s.scopes } t) : Extends s t.popped := by
  refine ⟨?_, ?_, ?_, ?_, ?_⟩
  · have htail : t.scopes.tail = s.scopes := h.outer
    by_cases hs : s.scopes = []
    · rw [hs] at htail ⊢
      rw [Compiler.popped]
      split
      · next heq =>
          rw [heq] at htail
          cases htail
      · exact htail
    · rw [popped_scopes htail hs]
  · rw [module_popped]
    exact h.signatures
  · rw [module_popped]
    exact h.blocks
  · rw [module_popped]
    exact h.parents
  · rw [InNewBlock, module_popped]
    exact h.point

/-! ## New blocks -/

/-- The blocks `made` were created since the state `base`, and those of them in `homed` are in a
function. -/
structure Since (base : Compiler) (made homed : List BlockId) (t : Compiler) : Prop where
  kept : Extends base t
  isMade : ∀ b ∈ made, base.module.blocks.length ≤ b ∧ b < t.module.blocks.length
  isHomed : ∀ b ∈ homed, b ∈ made ∧ (t.module.parent b).isSome = true

variable {base : Compiler} {made homed : List BlockId}

namespace Since

/-- No block has been made yet. -/
lemma start (s : Compiler) : Since s [] [] s :=
  ⟨.refl s, fun _ hb => absurd hb List.not_mem_nil, fun _ hb => absurd hb List.not_mem_nil⟩

/-- The work of a visit in between. -/
lemma step (h : Since base made homed t) (h' : Extends t u) : Since base made homed u := by
  refine ⟨h.kept.trans h', fun b hb => ?_, fun b hb => ?_⟩
  · exact ⟨(h.isMade b hb).1, (h.isMade b hb).2.trans_le h'.blocks⟩
  · rcases h.isHomed b hb with ⟨hmade, hsome⟩
    exact ⟨hmade, (h'.parents b (h.isMade b hmade).2).symm ▸ hsome⟩

/-- The builder goes to one of the new blocks that have a place. -/
lemma setInsertPoint (h : Since base made homed t) (hb : b ∈ homed) :
    Since base made homed (t.issue (.setInsertPoint b)) := by
  rcases h.isHomed b hb with ⟨hmade, hsome⟩
  rcases Option.isSome_iff_exists.mp hsome with ⟨f, hf⟩
  refine ⟨h.kept.setInsertPoint (h.isMade b hmade).1 (h.isMade b hmade).2 hf, ?_, ?_⟩
  all_goals rw [module_issue]
  · exact h.isMade
  · exact h.isHomed

/-- A new block gets its place. -/
lemma insertBlock (h : Since base made homed t) (hb : b ∈ made) (f : FunctionId) :
    Since base made (b :: homed) (t.issue (.insertBlock f b)) := by
  rcases h.isMade b hb with ⟨hle, hlt⟩
  have hlen : t.module.blocks.length ≤ (t.issue (.insertBlock f b)).module.blocks.length := by
    rw [module_issue]
    exact Module.blocks_length_exec _ _
  refine ⟨h.kept.insertBlock hle hlt f, fun b' hb' => ?_, fun b' hb' => ?_⟩
  · exact ⟨(h.isMade b' hb').1, (h.isMade b' hb').2.trans_le hlen⟩
  · rw [module_issue]
    by_cases heq : b' = b
    · subst heq
      exact ⟨hb, (Module.parent_link_self hlt).symm ▸ rfl⟩
    · rcases h.isHomed b' ((List.mem_cons.mp hb').resolve_left heq) with ⟨hmade, hsome⟩
      exact ⟨hmade, (Module.parent_link_ne heq).symm ▸ hsome⟩

/-- `BasicBlock::Create`. -/
lemma createBlock (h : Since base made homed t) (name : String) (parent : Option FunctionId) :
    Since base (t.module.blocks.length :: made)
      (if parent.isSome then t.module.blocks.length :: homed else homed)
      (t.issue (.createBlock name parent)) := by
  have hkept : Extends t (t.issue (.createBlock name parent)) := Extends.issue t trivial
  have hlater := h.step hkept
  refine ⟨hlater.kept, fun b hb => ?_, fun b hb => ?_⟩
  · rcases List.mem_cons.mp hb with rfl | hb
    · rw [module_issue, Module.blocks_length_createBlock]
      exact ⟨h.kept.blocks, Nat.lt_succ_self _⟩
    · exact hlater.isMade b hb
  · cases parent with
    | none =>
        rcases hlater.isHomed b hb with ⟨hmade, hsome⟩
        exact ⟨List.mem_cons_of_mem _ hmade, hsome⟩
    | some f =>
        rcases List.mem_cons.mp hb with rfl | hb
        · rw [module_issue, Module.parent_createBlock]
          exact ⟨List.mem_cons_self, rfl⟩
        · rcases hlater.isHomed b hb with ⟨hmade, hsome⟩
          exact ⟨List.mem_cons_of_mem _ hmade, hsome⟩

end Since

/-- Going on from such a state, `x` leaves what the state `base` fixes. -/
def Leads (base : Compiler) (made homed : List BlockId) {α : Type} (x : CodegenM α) : Prop :=
  ∀ t a u, Since base made homed t → x t = some (.ok (a, u)) → Extends base u

namespace Leads

variable {α β : Type} {x : CodegenM α} {g : α → CodegenM β}

lemma pure (a : α) : Leads base made homed (Pure.pure a : CodegenM α) := by
  intro t b u ht h
  cases h
  exact ht.kept

/-- A visit in between. -/
lemma bind (hx : KeepsAll x) (hg : ∀ a, Leads base made homed (g a)) :
    Leads base made homed (x >>= g) := by
  intro t b u ht h
  rcases Comp.bind_eq_ok.mp h with ⟨a, t', hs, hg'⟩
  exact hg a t' b u (ht.step (hx t a t' hs)) hg'

lemma ite {d : Prop} [Decidable d] {y : CodegenM α} (hx : Leads base made homed x)
    (hy : Leads base made homed y) : Leads base made homed (if d then x else y) := by
  split_ifs
  · exact hx
  · exact hy

lemma setInsertPoint {g : Unit → CodegenM β} (hb : b ∈ homed)
    (hg : Leads base made homed (g ())) :
    Leads base made homed (emit (.setInsertPoint b) >>= g) := by
  intro t a u ht h
  exact hg _ a u (ht.setInsertPoint hb) h

lemma insertBlock {g : Unit → CodegenM β} (hb : b ∈ made)
    (hg : Leads base made (b :: homed) (g ())) :
    Leads base made homed (emit (.insertBlock f b) >>= g) := by
  intro t a u ht h
  exact hg _ a u (ht.insertBlock hb f) h

/-- A block is made; with a parent it has its place at once. -/
lemma createBlock {name : String} {parent : Option FunctionId} {g : BlockId → CodegenM β}
    (hg : ∀ b, Leads base (b :: made) (if parent.isSome then b :: homed else homed) (g b)) :
    Leads base made homed (Compiler.createBlock name parent >>= g) := by
  intro t a u ht h
  exact hg _ _ a u (ht.createBlock name parent) h

/-- A visit that keeps everything may come last. -/
lemma of_keeps (hx : KeepsAll x) : Leads base made homed x :=
  fun t a u ht h => ht.kept.trans (hx t a u h)

/-- From the beginning. -/
lemma keeps (h : ∀ s, Leads s [] [] x) : KeepsAll x := fun s a t hs => h s s a t (.start s) hs

end Leads

/-! ## The visiting methods -/

/-- A table whose methods keep what they all keep. -/
structure KeepingCalls (c : CodegenCalls) : Prop where
  codegen : ∀ i, KeepsAll (c.codegen i)
  evaluateConstantExpr : ∀ i, KeepsAll (c.evaluateConstantExpr i)

namespace KeepingCalls

variable (hc : KeepingCalls c) (id : NodeId)

include hc

/-- A condition leaves the builder in a block of its own. -/
lemma codegenEvalExpr : KeepsAll (Compiler.codegenEvalExpr P c id) := by
  refine .bind (.getNode _) fun node => .bind (hc.codegen _) fun condVal => ?_
  refine .bind (.bind (.read _) fun _ => .bind (.deref _) fun _ => .bind (.read _) fun _ => .deref _)
    fun fn => Leads.keeps fun s => ?_
  refine .createBlock fun thenBB => .createBlock fun elseBB => .createBlock fun mergeBB => ?_
  refine .bind (.createCondBr _ _ _) fun _ => .setInsertPoint (by simp) ?_
  refine .bind (hc.codegen _) fun _ => .bind (.unlessTerminated (.createBr _)) fun _ => ?_
  refine .insertBlock (by simp) (.setInsertPoint (by simp) ?_)
  have hmerge : Leads s [mergeBB, elseBB, thenBB] [elseBB, thenBB] (do
      Compiler.unlessTerminated (createBr mergeBB)
      emit (.insertBlock fn mergeBB)
      emit (.setInsertPoint mergeBB)
      Pure.pure (none : Option Value)) :=
    .bind (.unlessTerminated (.createBr _)) fun _ =>
      .insertBlock (by simp) (.setInsertPoint (by simp) (.pure _))
  exact .ite (.bind (hc.codegen _) fun _ => hmerge) hmerge

/-- So does a loop. -/
lemma codegenLoop (node : Node) : KeepsAll (Compiler.codegenLoop c node) := by
  refine .bind (.bind (.read _) fun _ => .bind (.deref _) fun _ => .bind (.read _) fun _ => .deref _)
    fun fn => Leads.keeps fun s => ?_
  refine .createBlock fun condBB => .createBlock fun bodyBB => .createBlock fun endBB => ?_
  refine .bind (.createBr _) fun _ => .setInsertPoint (by simp) ?_
  refine .bind (hc.codegen _) fun cond => .bind (.createCondBr _ _ _) fun _ => ?_
  refine .setInsertPoint (by simp) (.bind (hc.codegen _) fun _ => .bind (.createBr _) fun _ => ?_)
  exact .insertBlock (by simp) (.setInsertPoint (by simp) (.pure _))

/-- A list of visits. -/
lemma visitAll (ids : List NodeId) (v : Option Value) : KeepsAll (Compiler.visitAll c ids v) := by
  induction ids generalizing v with
  | nil => exact .pure _
  | cons i ids ih => exact .bind (hc.codegen i) ih

/-- A unit keeps what its statements keep. -/
lemma codegenTranslationUnit : KeepsAll (Compiler.codegenTranslationUnit P c id) := by
  intro s v u h
  rw [Compiler.codegenTranslationUnit, Comp.bind_apply (pushScope_apply s)] at h
  rcases Comp.bind_eq_ok.mp h with ⟨v', t, hvisit, hpop⟩
  rw [Comp.bind_apply (popScope_apply t)] at hpop
  cases hpop
  exact (hc.visitAll _ _ _ _ _ hvisit).popped

lemma codegenVarDecl : KeepsAll (Compiler.codegenVarDecl P c id) := by
  refine .bind (.getNode _) fun node => .bind (.getNodeSnippet _) fun varName => ?_
  refine .bind (.resolveType _) fun varType => .ite ?_ ?_
  · exact .bind (hc.evaluateConstantExpr _) fun _ => .bind (.onScope _) fun _ => .pure _
  · have hdeclare (initVal : Option Value) := KeepsAll.declareVar node varName varType initVal
    exact .ite (.bind (hc.codegen _) hdeclare)
      (.bind (.deref _) fun null => hdeclare (some (.constant null)))

/-- The body of a function, up to its closing. -/
lemma codegenBody (node : Node) (retType : IRType) (fn : FunctionId) :
    KeepsAll (Compiler.codegenBody c node retType fn) := by
  intro s v u h
  rw [Compiler.codegenBody, Comp.bind_apply (pushScope_apply s)] at h
  -- the scope that is left again is the one that was entered
  have hend {t : Compiler} (ht : Extends { s with scopes := {} :: s.scopes } t)
      (hclose : (do
        closeFunction retType
        popScope
        Pure.pure (some (Value.function fn))) t = some (.ok (v, u))) : Extends s u := by
    rcases Comp.bind_eq_ok.mp hclose with ⟨_, t', hret, hpop⟩
    rw [Comp.bind_apply (popScope_apply t')] at hpop
    cases hpop
    exact (ht.trans (KeepsAll.closeFunction retType _ _ _ hret)).popped
  rw [Comp.ite_apply] at h
  split_ifs at h with hbody
  · rcases Comp.bind_eq_ok.mp h with ⟨_, t, hbody, hclose⟩
    exact hend (hc.codegen _ _ _ _ hbody) hclose
  · exact hend (.refl _) h

/-- A function moves the insertion point into a block of its own. -/
lemma codegenFunctionDecl : KeepsAll (Compiler.codegenFunctionDecl P c id) := by
  refine .bind (.getNode _) fun node => .bind (.getNodeSnippet _) fun fnName => ?_
  refine .bind (.resolveType _) fun retType => .bind (.read _) fun fn => ?_
  refine .bind (.emit trivial) fun _ => .bind (.onScope _) fun _ => Leads.keeps fun s => ?_
  refine .createBlock fun entryBB => .setInsertPoint (by simp) ?_
  exact .of_keeps (hc.codegenBody node retType fn)

/-- An operation keeps what its sides keep. -/
lemma codegenBinaryExpr : KeepsAll (Compiler.codegenBinaryExpr P c id) := by
  refine .bind (.getNode _) fun node => .bind (hc.codegen _) fun lhs => ?_
  refine .bind (hc.codegen _) fun rhs => ?_
  split
  · next lhs rhs =>
      dsimp only
      split
      · exact .bind (.createBinary _ _ _ _ _) fun _ => .pure _
      · exact .ite (.ite (.bind (.createStore _ _) fun _ => .pure _) (.fail _)) (.fail _)
  · exact .pure _

lemma codegenUnaryExpr : KeepsAll (Compiler.codegenUnaryExpr P c id) := by
  refine .bind (.getNode _) fun node => .ite ?_ ?_
  · have hret (retVal : Option Value) : KeepsAll (do
        let value ← createRet retVal
        Pure.pure (some value)) := .bind (.createRet _) fun _ => .pure _
    exact .ite (.bind (hc.codegen _) hret) (hret none)
  · refine .bind (hc.codegen _) fun operand => .ite ?_ (.ite ?_ (.pure _))
    · exact .bind (.deref _) fun _ => .bind (.createUnary _ _ _ _) fun _ => .pure _
    · exact .bind (.deref _) fun _ => .bind (.createUnary _ _ _ _) fun _ => .pure _

lemma codegenArgs (argNodeId : NodeId) (params : List ParamInfo) :
    KeepsAll (Compiler.codegenArgs c argNodeId params) := by
  induction params with
  | nil => exact .pure _
  | cons param params ih =>
      refine .ite (.bind (hc.evaluateConstantExpr _) fun _ => ih) ?_
      exact .bind (hc.codegen _) fun _ => .bind ih fun _ => .pure _

/-- A call keeps what its arguments keep. -/
lemma codegenCallExpr : KeepsAll (Compiler.codegenCallExpr P c id) := by
  refine .bind (.getNode _) fun node => .bind (.getNodeSnippet _) fun fnName => ?_
  refine .bind (.read _) fun fnInfo => ?_
  split
  · refine .bind (.read _) fun externalFn => ?_
    split
    · exact .fail _
    · next externalFn =>
        have hcall (args : List (Option Value)) : KeepsAll (do
            let value ← createCall externalFn args
            Pure.pure (some value)) := .bind (.createCall _ _) fun _ => .pure _
        exact .ite (.bind (hc.codegen _) fun arg => hcall [arg]) (hcall [])
  · exact .bind (hc.codegenArgs _ _) fun _ => .bind (.createCall _ _) fun _ => .pure _

lemma codegenCompileTimeJump : KeepsAll (Compiler.codegenCompileTimeJump P c id) :=
  .bind (.getNode _) fun node => .ite (.pure _) (hc.codegenLoop node)

lemma evaluateBody : KeepsAll (Compiler.evaluateConstantExpr P c id) := by
  refine .ite (.pure _) (.bind (.getNode _) fun node => ?_)
  split
  · refine .bind (.getNodeSnippet _) fun text => .bind (.literalValue _ _) fun value => ?_
    split
    · exact .pure _
    · exact .fail _
  · refine .bind (.getNodeSnippet _) fun name => .bind (.read _) fun sym => ?_
    split
    · exact .ite (.bind (.deref _) fun _ => .pure _) (.fail _)
    · exact .fail _
  · refine .bind (hc.evaluateConstantExpr _) fun lhs => ?_
    refine .bind (hc.evaluateConstantExpr _) fun rhs => ?_
    split
    · split
      · split
        · exact .pure _
        · exact .fail _
      · exact .fail _
    · exact .fail _
  · exact .fail _

end KeepingCalls

lemma codegenTypeDecl_keeps (id : NodeId) : KeepsAll (codegenTypeDecl P id) :=
  .bind (.getNode _) fun _ => .bind (.getNodeSnippet _) fun _ => .bind (.resolveType _) fun _ =>
    .bind (.onScope _) fun _ => .pure _

lemma codegenLiteralExpr_keeps (id : NodeId) : KeepsAll (codegenLiteralExpr P id) :=
  .bind (.getNodeSnippet _) fun _ => .bind (.getNode _) fun _ => .literalValue _ _

lemma codegenIdentifierExpr_keeps (id : NodeId) : KeepsAll (codegenIdentifierExpr P id) := by
  refine .bind (.getNodeSnippet _) fun varName => .bind (.read _) fun sym => ?_
  split
  · exact .fail _
  · refine .bind (.deref _) fun value => .ite ?_ (.pure _)
    exact .bind (.createLoad _ _ _) fun _ => .pure _

/-- One node, over calls that keep. -/
lemma KeepingCalls.codegenNode (hc : KeepingCalls c) (id : NodeId) :
    KeepsAll (Compiler.codegen P c id) := by
  refine .ite (.pure _) (.bind (.getNode _) fun node => ?_)
  split
  · exact hc.codegenTranslationUnit id
  · exact hc.codegenVarDecl id
  · exact codegenTypeDecl_keeps id
  · exact hc.codegenFunctionDecl id
  · exact hc.codegenBinaryExpr id
  · exact hc.codegenUnaryExpr id
  · exact codegenLiteralExpr_keeps id
  · exact codegenIdentifierExpr_keeps id
  · exact hc.codegenCallExpr id
  · exact hc.codegenEvalExpr id
  · exact hc.codegenCompileTimeJump id
  · exact .pure _

/-- **What every call of the code generator keeps.** -/
theorem methods_keep (P : Program) (n : ℕ) : KeepingCalls (methods P n) := by
  induction n with
  | zero => exact ⟨fun _ => .spent, fun _ => .spent⟩
  | succ n ih => exact ⟨ih.codegenNode, ih.evaluateBody⟩

/-! ## Functions and the variables behind them -/

/-- The insertion point is none or in a block of the module. -/
def Placed (s : Compiler) : Prop :=
  ∀ b, s.module.insertBlock = some b → b < s.module.blocks.length

/-- Behind `x` the insertion point is in a block that was not among the first `k`. -/
def Settles {α : Type} (k : ℕ) (x : CodegenM α) : Prop :=
  ∀ s a t, k ≤ s.module.blocks.length → x s = some (.ok (a, t)) → t.InNewBlock k

lemma Settles.bind {α β : Type} {x : CodegenM α} {g : α → CodegenM β} (hx : KeepsAll x)
    (hg : ∀ a, Settles k (g a)) : Settles k (x >>= g) := by
  intro s b u hk h
  rcases Comp.bind_eq_ok.mp h with ⟨a, t, hs, ht⟩
  exact hg a t b u (hk.trans (hx s a t hs).blocks) ht

/-- Behind a function, the insertion point is in a block that the function has made. -/
lemma settles_codegenFunctionDecl (hc : KeepingCalls c) (id : NodeId) :
    Settles k (codegenFunctionDecl P c id) := by
  refine .bind (.getNode _) fun node => .bind (.getNodeSnippet _) fun fnName => ?_
  refine .bind (.resolveType _) fun retType => .bind (.read _) fun fn => ?_
  refine .bind (.emit trivial) fun _ => .bind (.onScope _) fun _ => ?_
  intro s v u hk h
  -- the entry block, with the insertion point in it
  have hentry := ((Since.start s).createBlock "entry" (some fn)).setInsertPoint
    (b := s.module.blocks.length) (by simp)
  have hpoint : ((s.issue (.createBlock "entry" (some fn))).issue
      (.setInsertPoint s.module.blocks.length)).InNewBlock k := by
    refine ⟨s.module.blocks.length, fn, ?_, hk, (hentry.isMade _ (by simp)).2, ?_⟩
    · rw [module_issue]
      rfl
    · rw [module_issue, module_issue]
      exact Module.parent_createBlock _ _ _
  exact (hc.codegenBody node retType fn _ _ _ h).inNewBlock hpoint (hk.trans hentry.kept.blocks)

/-- Inside of a function, a variable is a slot. -/
lemma declareVar_alloca {node : Node} {varName : List Byte} {varType : IRType}
    {initVal v : Option Value} (hs : s.InNewBlock 0)
    (h : declareVar node varName varType initVal s = some (.ok (v, t))) :
    ∃ i, v = some (.alloca i) := by
  rcases hs with ⟨b, f, hb, -, -, hf⟩
  have hfn : (s.module.insertBlock.bind s.module.parent) = some f := by rw [hb]; exact hf
  have hlocal : declareVar node varName varType initVal s = (do
      let alloca ← createAlloca f varType varName
      match initVal with
      | some value => createStore value alloca
      | none => pure ()
      defineVar varName
        { value := some alloca, type := varType, isConst := node.qualifiers.isConst,
          isCompileTime := false }
      pure (some alloca)) s := by
    show (match s.module.insertBlock.bind s.module.parent with
      | some f => _
      | none => _ : CodegenM (Option Value)) s = _
    rw [hfn]
  rw [hlocal] at h
  rcases Comp.bind_eq_ok.mp h with ⟨alloca, s', halloca, h⟩
  have hkind : ∃ i, alloca = .alloca i := by
    rcases Comp.bind_eq_ok.mp halloca with ⟨_, _, -, halloca⟩
    rcases Comp.bind_eq_ok.mp halloca with ⟨_, _, -, halloca⟩
    rcases Comp.bind_eq_ok.mp halloca with ⟨i, _, -, halloca⟩
    rcases Comp.bind_eq_ok.mp halloca with ⟨_, _, -, halloca⟩
    cases halloca
    exact ⟨i, rfl⟩
  rcases hkind with ⟨i, rfl⟩
  have hvalue : v = some (.alloca i) := by
    cases initVal with
    | none =>
        cases h
        rfl
    | some value =>
        rcases Comp.bind_eq_ok.mp h with ⟨_, _, -, h⟩
        cases h
        rfl
  exact ⟨i, hvalue⟩

/-- In a function no variable is a global one. -/
lemma codegenVarDecl_alloca (hc : KeepingCalls c) {id : NodeId} {node : Node} {v : Option Value}
    (hs : s.InNewBlock 0) (hnode : P.tree[id]? = some node)
    (hconst : ¬ node.qualifiers.isConstexpr = true)
    (h : codegenVarDecl P c id s = some (.ok (v, t))) : ∃ i, v = some (.alloca i) := by
  rw [codegenVarDecl, getNode_eq hnode] at h
  rcases Comp.bind_eq_ok.mp h with ⟨_, s₁, hs₁, h⟩
  cases hs₁
  rcases Comp.bind_eq_ok.mp h with ⟨varName, s₁, hname, h⟩
  rcases Comp.bind_eq_ok.mp h with ⟨varType, s₂, htype, h⟩
  have hkept := (KeepsAll.getNodeSnippet _ _ _ _ hname).trans (KeepsAll.resolveType _ _ _ _ htype)
  have hplace := hkept.inNewBlock hs (Nat.zero_le _)
  rw [if_neg hconst, Comp.ite_apply] at h
  split_ifs at h with hinit
  · rcases Comp.bind_eq_ok.mp h with ⟨initVal, s₃, hval, h⟩
    exact declareVar_alloca ((hc.codegen _ _ _ _ hval).inNewBlock hplace (Nat.zero_le _)) h
  · rcases Comp.bind_eq_ok.mp h with ⟨null, s₃, hnull, h⟩
    have hdeclare : declareVar node varName varType (some (.constant null)) s₃ = some (.ok (v, t)) :=
      h
    exact declareVar_alloca ((KeepsAll.deref _ _ _ _ hnull).inNewBlock hplace (Nat.zero_le _))
      hdeclare

/-- **A function leaves the insertion point in one of its own blocks**, and a variable that is
declared behind it becomes a local variable of a function. -/
theorem function_moves_insertion_point {n : ℕ} {id : NodeId} {v : Option Value} (hs : s.Placed)
    (h : codegenFunctionDecl P (methods P n) id s = some (.ok (v, t))) :
    t.module.insertBlock ≠ s.module.insertBlock ∧
      ∀ m i node w u, P.tree[i]? = some node → ¬ node.qualifiers.isConstexpr = true →
        codegenVarDecl P (methods P m) i t = some (.ok (w, u)) → ∃ k, w = some (.alloca k) := by
  have hnew := settles_codegenFunctionDecl (methods_keep P n) id s v t le_rfl h
  constructor
  · rcases hnew with ⟨b, f, hb, hle, -, -⟩
    intro hsame
    exact absurd (hs b (hsame.symm.trans hb)) (not_lt.mpr hle)
  · intro m i node w u hnode hconst hvar
    have hinside : t.InNewBlock 0 := by
      rcases hnew with ⟨b, f, hb, -, hlt, hf⟩
      exact ⟨b, f, hb, Nat.zero_le _, hlt, hf⟩
    exact codegenVarDecl_alloca (methods_keep P m) hinside hnode hconst hvar

/-- The nodes that the parser makes of a declared function and a variable behind it. -/
def functionThenVariable : Program where
  tree :=
    [default, ⟨.IdentifierExpr, {}, 0, 4, Data.literal .kByte 0⟩,
      ⟨.IdentifierExpr, {}, 5, 1, Data.literal .Ident 0⟩,
      plainNode .FunctionDecl 5 (Data.varDecl 1 2 kNullNode),
      plainNode .VarDecl 9 (Data.varDecl 5 6 kNullNode),
      ⟨.IdentifierExpr, {}, 9, 4, Data.literal .kByte 0⟩,
      ⟨.IdentifierExpr, {}, 14, 1, Data.literal .Ident 0⟩]
  source := bytes "byte f();byte x;"
  host := silentHost

/-- **The variable behind a function is allocated in the function.** -/
theorem variable_behind_function :
    Parser.parse functionThenVariable.source 20 = some (.ok functionThenVariable.tree) ∧
      ∃ s t, codegenFunctionDecl functionThenVariable (methods functionThenVariable 1) 3 {} =
          some (.ok (some (.function 0), s)) ∧
        s.module.insertBlock ≠ ({} : Compiler).module.insertBlock ∧
          codegenVarDecl functionThenVariable (methods functionThenVariable 1) 4 s =
            some (.ok (some (.alloca 1), t)) ∧ t.module.globals = [] := by
  refine ⟨by decide +kernel, _, _, rfl, ?_, rfl, rfl⟩
  decide

theorem function_moves_insertion_point_sample :
    ∃ t, codegenFunctionDecl functionThenVariable (methods functionThenVariable 1) 3 {} =
        some (.ok (some (.function 0), t)) ∧
      t.module.insertBlock ≠ ({} : Compiler).module.insertBlock := by
  have hplaced : Placed {} := fun b hb => by cases hb
  have hrun : ∃ t, codegenFunctionDecl functionThenVariable (methods functionThenVariable 1) 3 {} =
      some (.ok (some (.function 0), t)) := ⟨_, rfl⟩
  rcases hrun with ⟨t, ht⟩
  exact ⟨t, ht, (function_moves_insertion_point hplaced ht).1⟩

end Compiler

end LogicCompiler
