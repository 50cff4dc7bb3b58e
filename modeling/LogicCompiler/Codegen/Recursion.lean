import LogicCompiler.Codegen.Visits
import LogicCompiler.Parser.Slots

/-!
# Blocks in the place of operands

`codegenTranslationUnit` visits every node behind that of a block, up to the end of the arena.  Where a
block is an operand, as the body of a function, a branch or an initialiser, the node that has the operand
is behind it.  So the visit of the node leads to the block, and the visit of the block to the node: it
does not return, and no program with such a block is ever compiled (`not_compiles_of_blockOperand`).
Without such a block the generator comes to an end, in a depth that the length of the arena bounds
(`compile_halts`).
-/

namespace LogicCompiler

open TokenType NodeKind Cat LLVM Fuel LogicCompiler.Parser

namespace Compiler

variable {P : Program} {c : CodegenCalls} {s t : Compiler} {i j : NodeId} {n m : Node}
  {ids : List NodeId}

/-! ## Calls that are always made -/

/-- Every function is known, and has no parameters. -/
def known : List Byte → Option FunctionInfo := fun _ => some { llvmFunc := 0 }

/-- No function is known. -/
def unknown : List Byte → Option FunctionInfo := fun _ => none

/-- Whatever is known, the visit of `a` makes a call for `b`. -/
def Recurses (P : Program) (a b : NodeId) : Prop :=
  b ≠ kNullNode ∧ ∃ n, P.tree[a]? = some n ∧ b ∈ asks P known a n

/-- What is asked for if every function is known is asked for in any case. -/
lemma asks_of_known {lookup : List Byte → Option FunctionInfo} (h : j ∈ asks P known i n) :
    j ∈ asks P lookup i n := by
  cases hkind : n.kind
  all_goals simp only [asks, hkind] at h ⊢
  case CallExpr => simp [known] at h
  all_goals exact h

/-- What is asked for at all is asked for if no function is known. -/
lemma unknown_of_asks {lookup : List Byte → Option FunctionInfo} (h : j ∈ asks P lookup i n) :
    j ∈ asks P unknown i n := by
  cases hkind : n.kind
  all_goals simp only [asks, hkind] at h ⊢
  case CallExpr =>
    have hargs : j = n.data.argsList := by
      cases hinfo : lookup (P.text n.data.target) with
      | none =>
          rw [hinfo] at h
          exact List.mem_singleton.mp h
      | some info =>
          rw [hinfo] at h
          rcases List.mem_map.mp h with ⟨_, -, rfl⟩
          rfl
    simp [unknown, hargs]
  all_goals exact h

/-- Outside blocks, operands are asked for. -/
lemma mem_operands (hkind : n.kind ≠ TranslationUnit) (h : j ∈ asks P unknown i n) :
    j ∈ n.operands := by
  cases hk : n.kind
  all_goals simp only [asks, Node.operands, hk, unknown] at h ⊢
  case TranslationUnit => exact absurd hk hkind
  case VarDecl =>
    split_ifs at h
    · cases h
    · exact h
  all_goals exact h

/-- A node is accessible if those it asks for are. -/
lemma acc_of_asks (hnode : P.tree[i]? = some n)
    (h : ∀ j ∈ asks P known i n, j ≠ kNullNode → Acc (fun b a => Recurses P a b) j) :
    Acc (fun b a => Recurses P a b) i := by
  refine ⟨_, fun b hb => ?_⟩
  rcases hb with ⟨hb, n', hn', hmem⟩
  obtain rfl := Option.some.inj (hnode.symm.trans hn')
  exact h b hmem hb

/-- **The calls of a visit that returns are well-founded.** -/
theorem Visits.acc (h : Visits P ids s t) :
    ∀ i ∈ ids, i ≠ kNullNode → Acc (fun b a => Recurses P a b) i := by
  induction h with
  | nil => exact fun i hi => absurd hi List.not_mem_nil
  | cons h hrest ih ihrest =>
      intro j hj
      rcases List.mem_cons.mp hj with rfl | hj
      · exact ih j (List.mem_singleton_self j)
      · exact ihrest j hj
  | null => exact fun i hi hne => absurd (List.mem_singleton.mp hi) hne
  | plain hid hnode hkind hname hcall hasks hrest ih =>
      intro j hj _
      obtain rfl := List.mem_singleton.mp hj
      exact acc_of_asks hnode fun b hb => ih b (asks_of_known hb)
  | returns hid hnode hkind hop hoperand ih =>
      intro j hj _
      obtain rfl := List.mem_singleton.mp hj
      exact acc_of_asks hnode fun b hb => ih b (by simpa [asks, hkind] using hb)
  | unit hid hnode hkind hasks ih =>
      intro j hj _
      obtain rfl := List.mem_singleton.mp hj
      exact acc_of_asks hnode fun b hb => ih b (by simpa [asks, hkind] using hb)
  | function hid hnode hkind hbody hpoint ih =>
      intro j hj _
      obtain rfl := List.mem_singleton.mp hj
      exact acc_of_asks hnode fun b hb => ih b (by simpa [asks, hkind] using hb)
  | conditional hid hnode hkind hcond hblock hparent hthen hu helse hw ihc iht ihe =>
      intro j hj _
      obtain rfl := List.mem_singleton.mp hj
      refine acc_of_asks hnode fun b hb => ?_
      simp only [asks, hkind, List.mem_cons, List.not_mem_nil, or_false] at hb
      rcases hb with rfl | rfl | rfl
      · exact ihc _ (List.mem_singleton_self _)
      · exact iht _ (List.mem_singleton_self _)
      · exact ihe _ (List.mem_singleton_self _)
  | loop hid hnode hkind hop hblock hparent hcond hbody ihc ihb =>
      intro j hj _
      obtain rfl := List.mem_singleton.mp hj
      refine acc_of_asks hnode fun b hb => ?_
      simp only [asks, hkind, if_neg hop, List.mem_cons, List.not_mem_nil, or_false] at hb
      rcases hb with rfl | rfl
      · exact ihc _ (List.mem_singleton_self _)
      · exact ihb _ (List.mem_singleton_self _)

/-- Two nodes whose visits lead to each other are not visited. -/
lemma not_acc_of_recurses (h : Acc (fun b a => Recurses P a b) i) (hij : Recurses P i j)
    (hji : Recurses P j i) : False := by
  induction h generalizing j with
  | intro i _ ih => exact ih j hij hji hij

/-- A node other than a block has a block among its operands; `lookup` tells which functions are known,
hence whether the argument of a call is one of them. -/
def BlockOperand (P : Program) (lookup : List Byte → Option FunctionInfo) : Prop :=
  ∃ i n j m, P.tree[i]? = some n ∧ n.kind ≠ TranslationUnit ∧ j ∈ asks P lookup i n ∧
    P.tree[j]? = some m ∧ m.kind = TranslationUnit

/-- The nodes behind a node, up to the end of the arena. -/
lemma mem_idsBehind {tree : ASTTree} {i j : ℕ} : j ∈ idsBehind tree i ↔ i < j ∧ j < tree.length := by
  rw [idsBehind, List.mem_range'_1]
  omega

/-- A node that is there has an id below the length of the arena. -/
lemma lt_length (h : P.tree[i]? = some n) : i < P.tree.length :=
  (List.getElem?_eq_some_iff.mp h).1

/-- A visit of the whole arena visits each node. -/
lemma acc_of_compile (hroot : ∃ root, P.tree[0]? = some root ∧ root.kind = TranslationUnit)
    (hroom : P.tree.length ≤ kNullNode) {k : ℕ} (h : compile P k = some (.ok true))
    (hi : i ≠ 0) (hlt : i < P.tree.length) : Acc (fun b a => Recurses P a b) i := by
  rcases hroot with ⟨root, hroot, hkind⟩
  rcases visits_of_compile hroot h with ⟨t, ht⟩
  have hacc := ht.acc 0 (List.mem_singleton_self 0) (by decide)
  refine hacc.inv ⟨(hlt.trans_le hroom).ne, root, hroot, ?_⟩
  rw [asks, hkind]
  exact mem_idsBehind.mpr ⟨Nat.pos_of_ne_zero hi, hlt⟩

/-- **A program with a block for an operand is never compiled.** -/
theorem not_compiles_of_blockOperand {k : ℕ}
    (hroot : ∃ root, P.tree[0]? = some root ∧ root.kind = TranslationUnit)
    (hroom : P.tree.length ≤ kNullNode) (hslots : ∀ i, Slots P.tree i) (h : BlockOperand P known) :
    compile P k ≠ some (.ok true) := by
  rcases h with ⟨i, n, j, m, hi, hkind, hj, hm, hunit⟩
  intro hcompile
  have hlti := lt_length hi
  have hltj := lt_length hm
  have hj0 : j ≠ kNullNode := (hltj.trans_le hroom).ne
  have hlt : j < i :=
    ((hslots i).before n hi j (mem_operands hkind (unknown_of_asks hj))).resolve_left hj0
  have hback : i ∈ asks P known j m := by
    rw [asks, hunit]
    exact mem_idsBehind.mpr ⟨hlt, hlti⟩
  exact not_acc_of_recurses (acc_of_compile hroot hroom hcompile (Nat.ne_zero_of_lt hlt) hlti)
    ⟨hj0, n, hi, hj⟩ ⟨(hlti.trans_le hroom).ne, m, hm, hback⟩

/-! ## Coming to an end -/

namespace Answers

variable {α β : Type}

lemma createBinary (h : Host) (op : Opcode) (lhs rhs : Value) (name : String) :
    Answers (Compiler.createBinary h op lhs rhs name) := by
  rw [Compiler.createBinary]
  split
  · exact pure _
  · exact bind (insert _) fun _ => pure _

lemma createUnary (h : Host) (op : Opcode) (operand : Value) (name : String) :
    Answers (Compiler.createUnary h op operand name) := by
  rw [Compiler.createUnary]
  split
  · exact pure _
  · exact bind (insert _) fun _ => pure _

lemma createStore (value pointer : Value) : Answers (Compiler.createStore value pointer) :=
  bind (read _) fun _ => bind (deref _) fun _ => bind (insert _) fun _ => pure _

lemma createBlock (name : String) (parent : Option FunctionId) :
    Answers (Compiler.createBlock name parent) :=
  bind (read _) fun _ => bind (update _) fun _ => pure _

lemma createRet (value : Option Value) : Answers (Compiler.createRet value) :=
  bind (insert _) fun _ => pure _

lemma createBr (dest : BlockId) : Answers (Compiler.createBr dest) :=
  bind (insert _) fun _ => pure _

lemma createCondBr (cond : Option Value) (ifTrue ifFalse : BlockId) :
    Answers (Compiler.createCondBr cond ifTrue ifFalse) :=
  bind (insert _) fun _ => pure _

lemma createCall (callee : FunctionId) (args : List (Option Value)) :
    Answers (Compiler.createCall callee args) :=
  bind (read _) fun _ => bind (insert _) fun _ => pure _

lemma insertFunction : Answers Compiler.insertFunction :=
  bind (read _) fun _ => bind (deref _) fun _ => bind (read _) fun _ => deref _

/-- The branch that closes a block. -/
lemma unlessTerminated {x : CodegenM Unit} (hx : Answers x) :
    Answers (Compiler.unlessTerminated x) :=
  bind (read _) fun _ => bind (deref _) fun _ => bind (read _) fun _ => ite (pure _) hx

lemma closeFunction (retType : IRType) : Answers (Compiler.closeFunction retType) := by
  refine unlessTerminated (ite ?_ ?_)
  · exact bind (createRet _) fun _ => pure _
  · exact bind (deref _) fun _ => bind (createRet _) fun _ => pure _

lemma resolveType (id : NodeId) : Answers (Compiler.resolveType P id) := by
  refine ite (pure _) (bind (getNodeSnippet _ _) fun typeName => ?_)
  split
  · exact pure _
  · refine bind (read _) fun customTy => ?_
    split
    · exact pure _
    · exact fail _

lemma declareVar (node : Node) (varName : List Byte) (varType : IRType) (initVal : Option Value) :
    Answers (Compiler.declareVar node varName varType initVal) := by
  refine bind (read _) fun b => bind (read _) fun parent => ?_
  dsimp only
  split
  · refine bind ?_ fun alloca => ?_
    · exact bind (read _) fun _ => bind (deref _) fun _ => bind (read _) fun _ =>
        bind (update _) fun _ => pure _
    · split
      · exact bind (createStore _ _) fun _ => bind (update _) fun _ => pure _
      · exact bind (update _) fun _ => pure _
  · exact bind (deref _) fun value => bind (read _) fun _ => bind (update _) fun _ =>
      bind (update _) fun _ => pure _

end Answers

lemma pure_bind {α β : Type} (a : α) (g : α → CodegenM β) :
    (Pure.pure a >>= g : CodegenM β) = g a := rfl

/-- The calls that the visit of the node `i` may make answer. -/
structure AnsweringCalls (P : Program) (c : CodegenCalls) (i : NodeId) (n : Node) : Prop where
  codegen : ∀ j ∈ asks P unknown i n, Answers (c.codegen j)
  evaluateConstantExpr : ∀ j ∈ n.operands, Answers (c.evaluateConstantExpr j)

namespace AnsweringCalls

variable (hc : AnsweringCalls P c i n) (hnode : P.tree[i]? = some n)

include hc hnode

lemma codegenVarDecl (hkind : n.kind = VarDecl) : Answers (Compiler.codegenVarDecl P c i) := by
  rw [Compiler.codegenVarDecl, getNode_eq hnode, pure_bind]
  refine .bind (.getNodeSnippet _ _) fun varName => .bind (.resolveType _) fun varType => ?_
  by_cases hconst : n.qualifiers.isConstexpr = true
  · rw [if_pos hconst]
    refine .bind (hc.evaluateConstantExpr _ (by simp [Node.operands, hkind])) fun constVal => ?_
    exact .bind (.update _) fun _ => .pure _
  · rw [if_neg hconst]
    have hdeclare (initVal : Option Value) := Answers.declareVar n varName varType initVal
    refine .ite (.bind (hc.codegen _ (by simp [asks, hkind, hconst])) hdeclare) ?_
    exact .bind (.deref _) fun null => hdeclare (some (.constant null))

lemma codegenFunctionDecl (hkind : n.kind = FunctionDecl) :
    Answers (Compiler.codegenFunctionDecl P c i) := by
  rw [Compiler.codegenFunctionDecl, getNode_eq hnode, pure_bind]
  refine .bind (.getNodeSnippet _ _) fun fnName => .bind (.resolveType _) fun retType => ?_
  refine .bind (.read _) fun fn => .bind (.update _) fun _ => .bind (.update _) fun _ => ?_
  refine .bind (.createBlock _ _) fun entryBB => .bind (.update _) fun _ => .bind (.update _) fun _ => ?_
  have hclose : Answers (do
      closeFunction retType
      popScope
      Pure.pure (some (Value.function fn))) :=
    .bind (.closeFunction _) fun _ => .bind (.update _) fun _ => .pure _
  exact .ite (.bind (hc.codegen _ (by simp [asks, hkind])) fun _ => hclose) hclose

lemma codegenBinaryExpr (hkind : n.kind = BinaryExpr) :
    Answers (Compiler.codegenBinaryExpr P c i) := by
  rw [Compiler.codegenBinaryExpr, getNode_eq hnode, pure_bind]
  refine .bind (hc.codegen _ (by simp [asks, hkind])) fun lhs => ?_
  refine .bind (hc.codegen _ (by simp [asks, hkind])) fun rhs => ?_
  split
  · next lhs rhs =>
      dsimp only
      split
      · exact .bind (.createBinary _ _ _ _ _) fun _ => .pure _
      · exact .ite (.ite (.bind (.createStore _ _) fun _ => .pure _) (.fail _)) (.fail _)
  · exact .pure _

lemma codegenUnaryExpr (hkind : n.kind = UnaryExpr) : Answers (Compiler.codegenUnaryExpr P c i) := by
  have hcall := hc.codegen n.data.operand (by simp [asks, hkind])
  rw [Compiler.codegenUnaryExpr, getNode_eq hnode, pure_bind]
  refine .ite ?_ (.bind hcall fun operand => .ite ?_ (.ite ?_ (.pure _)))
  · have hret (retVal : Option Value) : Answers (do
        let value ← createRet retVal
        Pure.pure (some value)) := .bind (.createRet _) fun _ => .pure _
    exact .ite (.bind hcall hret) (hret none)
  · exact .bind (.deref _) fun _ => .bind (.createUnary _ _ _ _) fun _ => .pure _
  · exact .bind (.deref _) fun _ => .bind (.createUnary _ _ _ _) fun _ => .pure _

omit hnode in
/-- The arguments, one for each parameter. -/
lemma codegenArgs (hkind : n.kind = CallExpr) (params : List ParamInfo) :
    Answers (Compiler.codegenArgs c n.data.argsList params) := by
  induction params with
  | nil => exact .pure _
  | cons param params ih =>
      refine .ite (.bind (hc.evaluateConstantExpr _ (by simp [Node.operands, hkind])) fun _ => ih) ?_
      exact .bind (hc.codegen _ (by simp [asks, hkind, unknown])) fun _ => .bind ih fun _ => .pure _

/-- A call answers when its arguments do, as far as they are asked for. -/
lemma codegenCallExpr (hkind : n.kind = CallExpr) : Answers (Compiler.codegenCallExpr P c i) := by
  rw [Compiler.codegenCallExpr, getNode_eq hnode, pure_bind]
  refine .bind (.getNodeSnippet _ _) fun fnName => .bind (.read _) fun fnInfo => ?_
  split
  · refine .bind (.read _) fun externalFn => ?_
    split
    · exact .fail _
    · next externalFn =>
        have hcall (args : List (Option Value)) : Answers (do
            let value ← createCall externalFn args
            Pure.pure (some value)) := .bind (.createCall _ _) fun _ => .pure _
        exact .ite (.bind (hc.codegen _ (by simp [asks, hkind, unknown])) fun arg => hcall [arg])
          (hcall [])
  · exact .bind (hc.codegenArgs hkind _) fun _ => .bind (.createCall _ _) fun _ => .pure _

lemma codegenEvalExpr (hkind : n.kind = EvalExpr) : Answers (Compiler.codegenEvalExpr P c i) := by
  rw [Compiler.codegenEvalExpr, getNode_eq hnode, pure_bind]
  refine .bind (hc.codegen _ (by simp [asks, hkind])) fun condVal => .bind .insertFunction fun fn => ?_
  refine .bind (.createBlock _ _) fun thenBB => .bind (.createBlock _ _) fun elseBB => ?_
  refine .bind (.createBlock _ _) fun mergeBB => .bind (.createCondBr _ _ _) fun _ => ?_
  refine .bind (.update _) fun _ => .bind (hc.codegen _ (by simp [asks, hkind])) fun _ => ?_
  refine .bind (.unlessTerminated (.createBr _)) fun _ => ?_
  refine .bind (.update _) fun _ => .bind (.update _) fun _ => ?_
  have hmerge : Answers (do
      Compiler.unlessTerminated (createBr mergeBB)
      emit (.insertBlock fn mergeBB)
      emit (.setInsertPoint mergeBB)
      Pure.pure (none : Option Value)) :=
    .bind (.unlessTerminated (.createBr _)) fun _ => .bind (.update _) fun _ =>
      .bind (.update _) fun _ => .pure _
  exact .ite (.bind (hc.codegen _ (by simp [asks, hkind])) fun _ => hmerge) hmerge

lemma codegenCompileTimeJump (hkind : n.kind = CompileTimeJump) :
    Answers (Compiler.codegenCompileTimeJump P c i) := by
  rw [codegenCompileTimeJump_eq c hnode]
  split_ifs with hop
  · exact .pure _
  refine .bind .insertFunction fun fn => .bind (.createBlock _ _) fun condBB => ?_
  refine .bind (.createBlock _ _) fun bodyBB => .bind (.createBlock _ _) fun endBB => ?_
  refine .bind (.createBr _) fun _ => .bind (.update _) fun _ => ?_
  refine .bind (hc.codegen _ (by simp [asks, hkind, hop])) fun cond => ?_
  refine .bind (.createCondBr _ _ _) fun _ => .bind (.update _) fun _ => ?_
  refine .bind (hc.codegen _ (by simp [asks, hkind, hop])) fun _ => .bind (.createBr _) fun _ => ?_
  exact .bind (.update _) fun _ => .bind (.update _) fun _ => .pure _

omit hc in
lemma codegenTypeDecl : Answers (Compiler.codegenTypeDecl P i) := by
  rw [Compiler.codegenTypeDecl, getNode_eq hnode, pure_bind]
  exact .bind (.getNodeSnippet _ _) fun _ => .bind (.resolveType _) fun _ => .bind (.update _) fun _ =>
    .pure _

/-- A node answers when those it asks for do. -/
lemma codegenNode (hid : i ≠ kNullNode) : Answers (Compiler.codegen P c i) := by
  rw [codegen_of_kind c hid hnode]
  cases hkind : n.kind
  case TranslationUnit =>
    exact answers_callEach fun j hj => hc.codegen j (by rw [asks, hkind]; exact hj)
  case VarDecl => exact hc.codegenVarDecl hnode hkind
  case TypeDecl => exact codegenTypeDecl hnode
  case FunctionDecl => exact hc.codegenFunctionDecl hnode hkind
  case BinaryExpr => exact hc.codegenBinaryExpr hnode hkind
  case UnaryExpr => exact hc.codegenUnaryExpr hnode hkind
  case LiteralExpr => exact .codegenLiteralExpr P i
  case IdentifierExpr => exact .codegenIdentifierExpr P i
  case CallExpr => exact hc.codegenCallExpr hnode hkind
  case EvalExpr => exact hc.codegenEvalExpr hnode hkind
  case CompileTimeJump => exact hc.codegenCompileTimeJump hnode hkind
  all_goals exact .pure _

end AnsweringCalls

/-- The same for the evaluator of constants. -/
lemma answers_evaluate (hid : i ≠ kNullNode) (hnode : P.tree[i]? = some n)
    (hc : ∀ j ∈ n.operands, Answers (c.evaluateConstantExpr j)) :
    Answers (Compiler.evaluateConstantExpr P c i) := by
  rw [Compiler.evaluateConstantExpr, if_neg hid, getNode_eq hnode, pure_bind]
  split
  · refine .bind (.getNodeSnippet _ _) fun text => .bind (.literalValue _ _ _) fun value => ?_
    split
    · exact .pure _
    · exact .fail _
  · refine .bind (.getNodeSnippet _ _) fun name => .bind (.read _) fun sym => ?_
    split
    · exact .ite (.bind (.deref _) fun _ => .pure _) (.fail _)
    · exact .fail _
  · next hkind =>
    refine .bind (hc _ (by simp [Node.operands, hkind])) fun lhs => ?_
    refine .bind (hc _ (by simp [Node.operands, hkind])) fun rhs => ?_
    split
    · split
      · split
        · exact .pure _
        · exact .fail _
      · exact .fail _
    · exact .fail _
  · exact .fail _

/-- The calls of the two recursive methods, in one family. -/
def call (c : CodegenCalls) : NodeId ⊕ NodeId → CodegenM (Option Value)
  | .inl i => c.codegen i
  | .inr i => c.evaluateConstantExpr i

/-- How many levels of calls are enough.  A block is left for the nodes behind it, every other node for
nodes in front of it. -/
def depth (P : Program) : NodeId ⊕ NodeId → ℕ
  | .inl i =>
      match P.tree[i]? with
      | some n => if n.kind = TranslationUnit then 2 * P.tree.length + 1 - i else i + 1
      | none => 0
  | .inr i => if i < P.tree.length then i + 1 else 0

/-- The level of a block, which asks for nodes behind it. -/
lemma depth_block (hi : P.tree[i]? = some n) (hkind : n.kind = TranslationUnit) :
    depth P (.inl i) = 2 * P.tree.length + 1 - i := by
  simp [depth, hi, hkind]

/-- The level of another node, which asks for nodes in front of it. -/
lemma depth_other (hi : P.tree[i]? = some n) (hkind : n.kind ≠ TranslationUnit) :
    depth P (.inl i) = i + 1 := by
  simp [depth, hi, hkind]

lemma depth_none (hi : P.tree[i]? = none) : depth P (.inl i) = 0 := by
  simp [depth, hi]

/-- The calls of a visit are lighter than it. -/
lemma depth_lt (hroom : P.tree.length ≤ kNullNode) (hslots : ∀ i, Slots P.tree i)
    (h : ¬ BlockOperand P unknown) {i j : ℕ} {n : Node} (hi : P.tree[i]? = some n)
    (hj : j ∈ asks P unknown i n) : depth P (.inl j) < depth P (.inl i) := by
  have hlti : i < P.tree.length := lt_length hi
  cases hm : P.tree[j]? with
  | none =>
      rw [depth_none hm]
      by_cases hkind : n.kind = TranslationUnit
      · rw [depth_block hi hkind]
        omega
      · rw [depth_other hi hkind]
        omega
  | some m =>
      have hltj : j < P.tree.length := lt_length hm
      have hj0 : j ≠ kNullNode := (hltj.trans_le hroom).ne
      by_cases hkind : n.kind = TranslationUnit
      · rw [asks, hkind] at hj
        have hlt := (mem_idsBehind.mp hj).1
        rw [depth_block hi hkind]
        by_cases hunit : m.kind = TranslationUnit
        · rw [depth_block hm hunit]
          omega
        · rw [depth_other hm hunit]
          omega
      · have hunit : m.kind ≠ TranslationUnit := fun hunit => h ⟨i, n, j, m, hi, hkind, hj, hm, hunit⟩
        have hlt := ((hslots i).before n hi j (mem_operands hkind hj)).resolve_left hj0
        rw [depth_other hi hkind, depth_other hm hunit]
        exact Nat.succ_lt_succ hlt

/-- The operands of a constant are below it. -/
lemma depth_constant_lt (hroom : P.tree.length ≤ kNullNode) (hslots : ∀ i, Slots P.tree i) {i j : ℕ}
    {n : Node} (hi : P.tree[i]? = some n) (hj : j ∈ n.operands) : depth P (.inr j) < i + 1 := by
  rw [depth]
  split_ifs with hlt
  · have hj0 : j ≠ kNullNode := (hlt.trans_le hroom).ne
    exact Nat.succ_lt_succ (((hslots i).before n hi j hj).resolve_left hj0)
  · exact Nat.succ_pos i

/-- As many levels of calls as a visit has depth are enough for it. -/
lemma answers_call (hroom : P.tree.length ≤ kNullNode) (hslots : ∀ i, Slots P.tree i)
    (h : ¬ BlockOperand P unknown) {x : NodeId ⊕ NodeId} {k : ℕ} (hk : depth P x < k) :
    Answers (call (methods P k) x) := by
  intro s
  refine Fuel.tie_answers (ρ := fun _ => Option Value) call (fun x _ w => depth P x = w) ?_ rfl hk
  rintro k x s w rfl hcalls
  have hlighter (y : NodeId ⊕ NodeId) (hy : depth P y < depth P x) :
      Answers (call (tie (bodies P) noFuel k) y) := fun t => hcalls y t _ rfl hy
  cases x with
  | inl i =>
      show codegen P _ i s ≠ none
      by_cases hid : i = kNullNode
      · rw [codegen, if_pos hid]
        exact Option.some_ne_none _
      cases hi : P.tree[i]? with
      | none =>
          rw [codegen, if_neg hid, getNode, hi]
          exact Option.some_ne_none _
      | some n =>
          refine AnsweringCalls.codegenNode ⟨fun j hj => ?_, fun j hj => ?_⟩ hi hid s
          · exact hlighter (.inl j) (depth_lt hroom hslots h hi hj)
          · refine hlighter (.inr j) ?_
            have hkind : n.kind ≠ TranslationUnit := by
              intro hkind
              simp [Node.operands, hkind] at hj
            rw [depth_other hi hkind]
            exact depth_constant_lt hroom hslots hi hj
  | inr i =>
      show evaluateConstantExpr P _ i s ≠ none
      by_cases hid : i = kNullNode
      · rw [evaluateConstantExpr, if_pos hid]
        exact Option.some_ne_none _
      cases hi : P.tree[i]? with
      | none =>
          rw [evaluateConstantExpr, if_neg hid, getNode, hi]
          exact Option.some_ne_none _
      | some n =>
          refine answers_evaluate hid hi (fun j hj => hlighter (.inr j) ?_) s
          rw [show depth P (.inr i) = i + 1 from if_pos (lt_length hi)]
          exact depth_constant_lt hroom hslots hi hj

/-- **Without a block for an operand the generator comes to an end**, in a depth of twice the length of
the arena. -/
theorem compile_halts (hroom : P.tree.length ≤ kNullNode) (hslots : ∀ i, Slots P.tree i)
    (h : ¬ BlockOperand P unknown) {k : ℕ} (hk : 2 * P.tree.length + 1 < k) : compile P k ≠ none := by
  have hdepth : depth P (.inl 0) < k := by
    rw [depth]
    split
    · split_ifs
      · omega
      · omega
    · omega
  have hanswers : (methods P k).codegen 0 {} ≠ none := answers_call hroom hslots h hdepth {}
  rw [compile]
  split_ifs
  · exact Option.some_ne_none _
  · split
    · next hnone => exact absurd hnone hanswers
    · exact Option.some_ne_none _
    · exact Option.some_ne_none _
    · exact Option.some_ne_none _

/-! ## Accepted sources -/

variable {src : List Byte} {tree : ASTTree}

/-- The braces of a function definition are an operand. -/
lemma blockOperand_of_definition (host : Host) {u : Syn (list stmt)} (hu : Parses src tree u)
    {q q' : QualifierTokens} {type : Option (TokOf [kByte, Ident])} {name : Tok Ident}
    {l : Tok Left} {params : Syn (opt (commaList param))} {r : Tok Right} {braces : Syn braces}
    {base next : ℕ}
    (hx : (⟨stmt, Syn.functionDecl q type name l params r (Syn.full (Syn.block q' braces)), base,
      next⟩ : Part) ∈ u.parts 1 src.length) : BlockOperand ⟨tree, src, host⟩ known := by
  have hlies := u.lies_parts hu.lies _ hx
  simp only [Part.nodes, Syn.nodes, lies_append, lies_cons, Syn.length_nodes] at hlies
  obtain ⟨-, hbody, -, -, hfunction, -⟩ := hlies
  cases braces with
  | braced l body r =>
      refine ⟨_, _, _, _, hfunction, by simp [plainNode], ?_, (lies_cons.mp hbody).1, rfl⟩
      exact List.mem_singleton_self _

/-- **What becomes of an accepted source.**  With a block for an operand it is never compiled, however
deep the calls may be nested; the body in braces of a function is such an operand.  Without one, calls
nested twice as deep as the tree is long are enough for the generator to come to its end. -/
theorem accepts_compiles (host : Host) (h : Accepts src tree) :
    (BlockOperand ⟨tree, src, host⟩ known → ∀ k, compile ⟨tree, src, host⟩ k ≠ some (.ok true)) ∧
    (¬ BlockOperand ⟨tree, src, host⟩ unknown →
      ∀ k, 2 * tree.length + 1 < k → compile ⟨tree, src, host⟩ k ≠ none) ∧
    ∀ u, Parses src tree u → ∀ q type name l params r q' braces base next,
      (⟨stmt, Syn.functionDecl q type name l params r (Syn.full (Syn.block q' braces)), base,
          next⟩ : Part) ∈ u.parts 1 src.length → BlockOperand ⟨tree, src, host⟩ known := by
  rcases accepts_unit h with ⟨u, hu⟩
  have hroot : ∃ root, tree[0]? = some root ∧ root.kind = TranslationUnit := by
    rw [hu.arena]
    exact ⟨default, rfl, rfl⟩
  refine ⟨fun hblock k => ?_, fun hblock k hk => ?_, fun u hu q type name l params r q' braces base
    next hx => blockOperand_of_definition host hu hx⟩
  · exact not_compiles_of_blockOperand hroot hu.room hu.slots hblock
  · exact compile_halts hu.room hu.slots hblock hk

theorem accepts_compiles_sample : ∃ tree : ASTTree, parse (bytes "byte f(){}") 20 = some (.ok tree) ∧
    BlockOperand ⟨tree, bytes "byte f(){}", silentHost⟩ known ∧
      ∀ k, compile ⟨tree, bytes "byte f(){}", silentHost⟩ k ≠ some (.ok true) := by
  have hparse : parse (bytes "byte f(){}") 20 = some (.ok
      [default, plainNode TranslationUnit 9 {}, tokenNode IdentifierExpr ⟨0, 4, 0, 1, kByte⟩,
        tokenNode IdentifierExpr ⟨5, 1, 0, 1, Ident⟩,
        plainNode FunctionDecl 5 (Data.varDecl 2 3 1)]) := by
    decide +kernel
  have hblock := (⟨4, _, 1, _, rfl, by decide, List.mem_singleton_self _, rfl, rfl⟩ :
    BlockOperand ⟨[default, plainNode TranslationUnit 9 {},
      tokenNode IdentifierExpr ⟨0, 4, 0, 1, kByte⟩, tokenNode IdentifierExpr ⟨5, 1, 0, 1, Ident⟩,
      plainNode FunctionDecl 5 (Data.varDecl 2 3 1)], bytes "byte f(){}", silentHost⟩ known)
  exact ⟨_, hparse, hblock, (accepts_compiles silentHost (accepts_of_parse hparse)).1 hblock⟩

end Compiler

end LogicCompiler
