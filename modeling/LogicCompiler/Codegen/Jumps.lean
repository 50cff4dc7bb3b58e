import LogicCompiler.AST.Dump
import LogicCompiler.Codegen.Compiler
import LogicCompiler.Parser.Forest

/-!
# Loops and jumps

A loop and a `break` or `continue` have nodes of one kind, told apart by the byte `unary.op`.  A
loop is written through `evalOp`, so that byte is the low byte of the id of its condition.
-/

namespace LogicCompiler

open TokenType NodeKind Cat LogicCompiler.Parser

namespace Syn

/-- The node of a loop is generated and dumped as a loop, that of a jump as this jump. -/
def Treated (P : Program) : {k : Cat} → Syn k → (base : ℕ) → Prop
  | _, s@(whileStmt _ _ _ _ _ _), base | _, s@(forStmt _ _ _ _ _ _ _ _ _), base =>
      (∀ c, Compiler.codegenCompileTimeJump P c (s.root base)
          = Compiler.codegenLoop c (P.tree.get (s.root base))) ∧
        ASTManager.details (P.tree.get (s.root base)).kind (P.tree.get (s.root base)).data
          = ASTManager.evalDetails (P.tree.get (s.root base)).data
  | _, s@(jump _ k _), base =>
      (∀ c, Compiler.codegenCompileTimeJump P c (s.root base) = pure Option.none) ∧
        ASTManager.details (P.tree.get (s.root base)).kind (P.tree.get (s.root base)).data
          = ASTManager.jumpDetails k.1.type.code
  | _, _, _ => True

/-- The low byte of the id of a loop's condition is the code of neither `break` nor `continue`. -/
def LoopTold : {k : Cat} → Syn k → (base : ℕ) → Prop
  | _, whileStmt _ _ _ cond _ _, base =>
      cond.root base % 256 ≠ kBreak.code ∧ cond.root base % 256 ≠ kContinue.code
  | _, forStmt _ _ _ init cond _ _ _ _, base =>
      cond.root (base + init.size) % 256 ≠ kBreak.code ∧
        cond.root (base + init.size) % 256 ≠ kContinue.code
  | _, _, _ => True

end Syn

section Treated

variable {P : Program} {a : NodeId} {n : Node}

lemma getNode_eq (h : P.tree[a]? = Option.some n) : Compiler.getNode P a = pure n := by
  rw [Compiler.getNode, h]
  rfl

lemma codegenCompileTimeJump_eq (c : CodegenCalls) (h : P.tree[a]? = Option.some n) :
    Compiler.codegenCompileTimeJump P c a =
      if n.data.op = kBreak.code ∨ n.data.op = kContinue.code then pure Option.none
      else Compiler.codegenLoop c n := by
  rw [Compiler.codegenCompileTimeJump, getNode_eq h]
  rfl

/-- Outside a function a loop is not generated, so that it can be told from a jump. -/
lemma codegenLoop_ne (c : CodegenCalls) (n : Node) :
    Compiler.codegenLoop c n ≠ pure Option.none := by
  intro h
  have hrun := congrFun h {}
  cases hrun

lemma getTree_eq (h : P.tree[a]? = Option.some n) : P.tree.get a = n := by
  simp [ASTTree.get, h]

lemma loop_treated (hkind : n.kind = CompileTimeJump) (h : P.tree[a]? = Option.some n) :
    ((∀ c, Compiler.codegenCompileTimeJump P c a = Compiler.codegenLoop c (P.tree.get a)) ∧
        ASTManager.details (P.tree.get a).kind (P.tree.get a).data
          = ASTManager.evalDetails (P.tree.get a).data) ↔
      n.data.op ≠ kBreak.code ∧ n.data.op ≠ kContinue.code := by
  rw [getTree_eq h, hkind, ← not_or]
  constructor
  · rintro ⟨hgen, -⟩ hbyte
    have hrun := hgen Compiler.noFuel
    rw [codegenCompileTimeJump_eq _ h, if_pos hbyte] at hrun
    exact codegenLoop_ne _ _ hrun.symm
  · intro hbyte
    exact ⟨fun c => (codegenCompileTimeJump_eq c h).trans (if_neg hbyte), if_neg hbyte⟩

/-- Loops are treated as loops when the low byte of the condition's id allows it, and jumps are
always treated as jumps. -/
lemma Syn.treated_iff {k : Cat} (s : Syn k) {base next : ℕ}
    (h : Lies P.tree base (s.nodes base next)) : s.Treated P base ↔ s.LoopTold base := by
  cases s with
  | whileStmt q k l cond r body =>
      simp only [Syn.nodes, lies_append, lies_cons, Syn.length_nodes] at h
      have hnode := h.2.2.1
      rw [Nat.add_assoc] at hnode
      exact loop_treated rfl hnode
  | forStmt q k l init cond semi incr r body =>
      simp only [Syn.nodes, lies_append, lies_cons, Syn.length_nodes] at h
      have hnode := h.2.2.2.2.1
      simp only [Nat.add_assoc] at hnode
      exact loop_treated rfl hnode
  | jump q k semi =>
      have hnode := (lies_cons.mp h).1
      have hcode : k.1.type = kBreak ∨ k.1.type = kContinue := by simpa using k.2
      have hop : (Data.unary k.1.type kNullNode).op = k.1.type.code := Data.op_unary _ _
      have hjump : (Data.unary k.1.type kNullNode).op = kBreak.code ∨
          (Data.unary k.1.type kNullNode).op = kContinue.code := by
        rw [hop]
        exact hcode.imp (congrArg TokenType.code) (congrArg TokenType.code)
      refine iff_of_true ⟨fun c => ?_, ?_⟩ trivial
      · exact (codegenCompileTimeJump_eq c hnode).trans (if_pos hjump)
      · show ASTManager.details (P.tree.get base).kind (P.tree.get base).data = _
        rw [getTree_eq hnode, ← hop]
        exact if_pos hjump
  | _ => exact Iff.rfl

end Treated

/-- **Loops and jumps are told apart** exactly when the low byte of the id of a loop's condition
is neither of the codes of `break` and `continue`. -/
theorem accepts_told {src : List Byte} {tree : ASTTree} (host : Host) (h : Accepts src tree) :
    (∃ u, Parses src tree u) ∧ ∀ u, Parses src tree u → ∀ x ∈ u.parts 1 src.length,
      (x.syn.Treated ⟨tree, src, host⟩ x.base ↔ x.syn.LoopTold x.base) :=
  ⟨accepts_unit h, fun u hu x hx => x.syn.treated_iff (u.lies_parts hu.lies x hx)⟩

/-- A host whose functions have no results. -/
def silentHost : Host where
  stof _ := Option.none
  constantFold _ _ _ := Option.none
  foldBinary _ _ _ := Option.none
  foldUnary _ _ := Option.none

/-- The condition of the only loop is the node 7, and 7 is the code of `break`. -/
theorem loop_taken_for_break : ∃ tree : ASTTree,
    parse (bytes "0;0;0;0;0;0;while(0)0;") 20 = Option.some (.ok tree) ∧
      tree[9]? = Option.some (plainNode CompileTimeJump 12 (Data.evalOp 7 8 kNullNode)) ∧
        (∀ c, Compiler.codegenCompileTimeJump
            ⟨tree, bytes "0;0;0;0;0;0;while(0)0;", silentHost⟩ c 9 = pure Option.none) ∧
          ASTManager.details (tree.get 9).kind (tree.get 9).data = " (Op: 'break')" := by
  have hparse : parse (bytes "0;0;0;0;0;0;while(0)0;") 20 = Option.some (.ok
      [default, ⟨LiteralExpr, {}, 0, 1, Data.literal LInt 0⟩,
        ⟨LiteralExpr, {}, 2, 1, Data.literal LInt 0⟩, ⟨LiteralExpr, {}, 4, 1, Data.literal LInt 0⟩,
        ⟨LiteralExpr, {}, 6, 1, Data.literal LInt 0⟩, ⟨LiteralExpr, {}, 8, 1, Data.literal LInt 0⟩,
        ⟨LiteralExpr, {}, 10, 1, Data.literal LInt 0⟩,
        ⟨LiteralExpr, {}, 18, 1, Data.literal LInt 0⟩,
        ⟨LiteralExpr, {}, 20, 1, Data.literal LInt 0⟩,
        plainNode CompileTimeJump 12 (Data.evalOp 7 8 kNullNode)]) := by
    decide +kernel
  refine ⟨_, hparse, rfl, fun c => ?_, rfl⟩
  rw [codegenCompileTimeJump_eq c (n := plainNode CompileTimeJump 12 (Data.evalOp 7 8 kNullNode)) rfl]
  exact if_pos (Or.inl rfl)

theorem accepts_told_sample : ∃ tree : ASTTree,
    parse (bytes "while(0)0;") 20 = Option.some (.ok tree) ∧
      ∃ u, Parses (bytes "while(0)0;") tree u ∧ ∀ x ∈ u.parts 1 (bytes "while(0)0;").length,
        (x.syn.Treated ⟨tree, bytes "while(0)0;", silentHost⟩ x.base ↔ x.syn.LoopTold x.base) := by
  have hparse : parse (bytes "while(0)0;") 20 = Option.some (.ok
      [default, ⟨LiteralExpr, {}, 6, 1, Data.literal LInt 0⟩,
        ⟨LiteralExpr, {}, 8, 1, Data.literal LInt 0⟩,
        plainNode CompileTimeJump 0 (Data.evalOp 1 2 kNullNode)]) := by
    decide +kernel
  rcases accepts_told silentHost (accepts_of_parse hparse) with ⟨⟨u, hu⟩, htold⟩
  exact ⟨_, hparse, u, hu, htold u hu⟩

end LogicCompiler
