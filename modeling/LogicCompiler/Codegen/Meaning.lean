import LogicCompiler.Codegen.Constants
import LogicCompiler.Codegen.ControlFlow
import LogicCompiler.Library.Tracing

/-!
# What statements mean

The statements without braces and loops that the code generator knows: expressions, `return`, and `if` with
or without `else`, over integers, truth values, local variables and calls without arguments.  What such a
statement means is given here in its own terms (`Runs`): the calls it makes, in their order, and what it
returns.  The blocks that are emitted for it do the same, from the block of the insertion point on, whatever
is built behind them, and they go well into the list of a function that is being built (`statement_means`).

Loops are left out, since the list of their function is broken by them.
-/

namespace LogicCompiler

open TokenType NodeKind LLVM Lexer Fuel

/-! ## Expressions -/

/-- The binary operators of a term. -/
inductive Operator where
  | add | sub | mul | div | eq | ne | lt | le | gt | ge
  deriving DecidableEq, Repr

/-- An integer, modulo `2 ^ 32`. -/
def wrap (v : ℤ) : Word := .int32 (BitVec.ofInt 32 v)

namespace Operator

/-- The token an operator is written with. -/
def token : Operator → TokenType
  | add => Plus
  | sub => Minus
  | mul => .Star
  | div => Slash
  | eq => EEquals
  | ne => NEquals
  | lt => Lesser
  | le => LeEquals
  | gt => Greater
  | ge => GrEquals

/-- The operation of LLVM on integers. -/
def opcode : Operator → Opcode
  | add => .Add
  | sub => .Sub
  | mul => .Mul
  | div => .SDiv
  | eq => .ICmpEQ
  | ne => .ICmpNE
  | lt => .ICmpSLT
  | le => .ICmpSLE
  | gt => .ICmpSGT
  | ge => .ICmpSGE

/-- What an operator does with two signed integers of 32 bits.  A division truncates; it is undefined by
zero, and where the quotient is out of range. -/
def onIntegers : Operator → ℤ → ℤ → Option Word
  | add, a, b => some (wrap (a + b))
  | sub, a, b => some (wrap (a - b))
  | mul, a, b => some (wrap (a * b))
  | div, a, b => if b = 0 ∨ a = -2 ^ 31 ∧ b = -1 then none else some (wrap (a.tdiv b))
  | eq, a, b => some (.int1 (a = b))
  | ne, a, b => some (.int1 (a ≠ b))
  | lt, a, b => some (.int1 (a < b))
  | le, a, b => some (.int1 (a ≤ b))
  | gt, a, b => some (.int1 (a > b))
  | ge, a, b => some (.int1 (a ≥ b))

/-- What the operator comes to: its value on two integers, where there is one. -/
def apply (op : Operator) : Word → Word → Option Word
  | .int32 a, .int32 b => op.onIntegers a.toInt b.toInt
  | _, _ => none

/-- The table of operations has an entry for each operator. -/
lemma find_token (op : Operator) : ∃ floatOp name,
    Compiler.binaryOpcodes.find? (fun e => e.1.code == op.token.code) =
      some (op.token, floatOp, op.opcode, name) := by
  cases op <;> exact ⟨_, _, rfl⟩

section Instruction

variable {a b : BitVec 32} {v : ℤ}

/-- Numbers that are equal modulo `2 ^ 32` are the same word. -/
lemma wrap_eq (h : a.toInt = v.bmod (2 ^ 32)) : wrap v = .int32 a := by
  rw [wrap, ← BitVec.toInt_ofInt, BitVec.toInt_inj] at *
  rw [h]

lemma toInt_eq_min : a.toInt = -2 ^ 31 ↔ a = BitVec.intMin 32 := by
  rw [← BitVec.toInt_inj]
  rfl

lemma toInt_eq_neg_one : b.toInt = -1 ↔ b = -1 := by
  rw [← BitVec.toInt_inj]
  rfl

lemma toInt_eq_zero : b.toInt = 0 ↔ b = 0 := by
  rw [← BitVec.toInt_inj]
  rfl

/-- The instruction for an operator does what the operator means. -/
lemma word_opcode (op : Operator) (a b : Word) : op.opcode.word a b = op.apply a b := by
  cases a with
  | int1 => cases b <;> rfl
  | int32 a =>
      cases b with
      | int1 => rfl
      | int32 b =>
          cases op with
          | add => exact congrArg some (wrap_eq (BitVec.toInt_add a b)).symm
          | sub => exact congrArg some (wrap_eq BitVec.toInt_sub).symm
          | mul => exact congrArg some (wrap_eq (BitVec.toInt_mul a b)).symm
          | div =>
              simp only [opcode, Opcode.word, apply, onIntegers, Opcode.apply32, toInt_eq_min,
                toInt_eq_neg_one, toInt_eq_zero]
              split_ifs
              · rfl
              · exact congrArg some (wrap_eq (BitVec.toInt_sdiv a b)).symm
          | eq => exact congrArg (some ∘ Word.int1) (decide_eq_decide.mpr BitVec.toInt_inj.symm)
          | ne =>
              have hne : (a != b) = decide (a.toInt ≠ b.toInt) := by
                rw [Bool.eq_iff_iff, bne_iff_ne, decide_eq_true_iff, ne_eq, ne_eq, BitVec.toInt_inj]
              exact congrArg (some ∘ Word.int1) hne
          | lt | le | gt | ge => rfl

end Instruction

end Operator

/-- The expressions: integers and truth values, variables, operators and calls without arguments. -/
inductive Term where
  | int (n : ℕ)
  | truth (b : Bool)
  | name (x : List Byte)
  | neg (e : Term)
  | not (e : Term)
  | binary (op : Operator) (l r : Term)
  | call (f : List Byte)
  deriving DecidableEq, Repr

/-- What names stand for: variables for values in stack slots, functions for those of a world. -/
structure Env where
  vars : List Byte → Word
  slots : List Byte → ℕ
  funcs : List Byte → FunctionId
  world : World

/-- Integers can be negated. -/
def negated : Word → Option Word
  | .int32 a => some (wrap (-a.toInt))
  | .int1 _ => none

/-- Truth values can be inverted. -/
def inverted : Word → Option Word
  | .int32 _ => none
  | .int1 b => some (.int1 !b)

namespace Term

/-- The value of a term, behind the calls it makes from left to right. -/
def eval (E : Env) : Term → Effect Word
  | int n => pure (wrap n)
  | truth b => pure (.int1 b)
  | name x => pure (E.vars x)
  | neg e => (e.eval E).map1 negated
  | not e => (e.eval E).map1 inverted
  | binary op l r => (l.eval E).map2 (r.eval E) op.apply
  | call f => fun h => some (E.world (E.funcs f :: h), E.funcs f :: h)

/-- The variables that stand in the term. -/
def names : Term → List (List Byte)
  | int _ | truth _ | call _ => []
  | name x => [x]
  | neg e | not e => e.names
  | binary _ l r => l.names ++ r.names

/-- The functions that the term calls. -/
def calls : Term → List (List Byte)
  | int _ | truth _ | name _ => []
  | neg e | not e => e.calls
  | binary _ l r => l.calls ++ r.calls
  | call f => [f]

/-- The levels of visits that the term takes. -/
def depth : Term → ℕ
  | int _ | truth _ | name _ | call _ => 1
  | neg e | not e => e.depth + 1
  | binary _ l r => max l.depth r.depth + 1

/-- Every term takes a level. -/
lemma depth_pos (e : Term) : 0 < e.depth := by cases e <;> exact Nat.succ_pos _

end Term

/-- Where the language negates, LLVM does. -/
lemma negated_le {a w : Word} (h : negated a = some w) : Opcode.word1 .Neg a = some w := by
  cases a with
  | int32 a =>
      cases h
      exact congrArg some (Operator.wrap_eq BitVec.toInt_neg).symm
  | int1 => cases h

/-- Where the language inverts, LLVM does. -/
lemma inverted_le {a w : Word} (h : inverted a = some w) : Opcode.word1 .Not a = some w := by
  cases a with
  | int32 => cases h
  | int1 => exact h

/-! ## Statements -/

/-- `skip` is the part that a conditional without `else` does not have. -/
inductive Statement where
  | skip
  | expr (e : Term)
  | ret (e : Term)
  | retVoid
  | ite (c : Term) (s s' : Statement)
  deriving DecidableEq, Repr

/-- How a run of a statement ends. -/
inductive Ending where
  | falls
  | returns (w : Option Word)
  deriving DecidableEq, Repr

/-- Running a statement leads from one trace to another. -/
inductive Runs (E : Env) : Statement → Trace → Ending → Trace → Prop
  | skip (h : Trace) : Runs E .skip h .falls h
  | expr {e : Term} {h h' : Trace} {w : Word} (he : e.eval E h = some (w, h')) :
      Runs E (.expr e) h .falls h'
  | ret {e : Term} {h h' : Trace} {w : Word} (he : e.eval E h = some (w, h')) :
      Runs E (.ret e) h (.returns (some w)) h'
  | retVoid (h : Trace) : Runs E .retVoid h (.returns none) h
  | ifTrue {c : Term} {s s' : Statement} {o : Ending} {h h₁ h' : Trace}
      (hc : c.eval E h = some (.int1 true, h₁)) (hs : Runs E s h₁ o h') :
      Runs E (.ite c s s') h o h'
  | ifFalse {c : Term} {s s' : Statement} {o : Ending} {h h₁ h' : Trace}
      (hc : c.eval E h = some (.int1 false, h₁)) (hs : Runs E s' h₁ o h') :
      Runs E (.ite c s s') h o h'

namespace Statement

/-- The variables that stand in the statement. -/
def names : Statement → List (List Byte)
  | skip | retVoid => []
  | expr e | ret e => e.names
  | ite c s s' => c.names ++ (s.names ++ s'.names)

/-- The functions that the statement calls. -/
def calls : Statement → List (List Byte)
  | skip | retVoid => []
  | expr e | ret e => e.calls
  | ite c s s' => c.calls ++ (s.calls ++ s'.calls)

/-- The levels of visits that the statement takes. -/
def depth : Statement → ℕ
  | skip | retVoid => 1
  | expr e => e.depth
  | ret e => e.depth + 1
  | ite c s s' => max c.depth (max s.depth s'.depth) + 1

/-- The statement does not come to its end. -/
def Leaves : Statement → Prop
  | ret _ | retVoid => True
  | _ => False

end Statement

/-! ## Nodes -/

namespace Compiler

variable {P : Program} {c : CodegenCalls} {s t u : Compiler} {n : ℕ} {id : NodeId} {node : Node}
  {E : Env} {e l r : Term} {mem : ℕ → Option Word} {v w : Value} {code : List Instruction}
  {b : BlockId} {f : FunctionId}

/-- The node `id` is the root of the expression `e`. -/
inductive TermAt (P : Program) : NodeId → Term → Prop
  | int {id : NodeId} {node : Node} {d suffix : List Byte} (hid : id ≠ kNullNode)
      (hnode : P.tree[id]? = some node) (hkind : node.kind = LiteralExpr)
      (hop : node.data.op = LInt.code)
      (htext : ∀ s, getNodeSnippet P id s = some (.ok (d ++ suffix, s)))
      (hne : d ≠ []) (hd : ∀ c ∈ d, isDigit c = true) (hsuffix : IsSuffix suffix)
      (hrange : positional 10 d < 2 ^ 31) : TermAt P id (.int (positional 10 d))
  | truth {id : NodeId} {node : Node} {b : Bool} {x : List Byte} (hid : id ≠ kNullNode)
      (hnode : P.tree[id]? = some node) (hkind : node.kind = LiteralExpr)
      (hop : node.data.op = (if b then kTrue else kFalse).code)
      (htext : ∀ s, getNodeSnippet P id s = some (.ok (x, s))) : TermAt P id (.truth b)
  | name {id : NodeId} {x : List Byte} (h : IsName P id x) : TermAt P id (.name x)
  | neg {id : NodeId} {node : Node} {e : Term} (hid : id ≠ kNullNode)
      (hnode : P.tree[id]? = some node) (hkind : node.kind = UnaryExpr)
      (hop : node.data.op = Minus.code) (he : TermAt P node.data.operand e) : TermAt P id (.neg e)
  | not {id : NodeId} {node : Node} {e : Term} (hid : id ≠ kNullNode)
      (hnode : P.tree[id]? = some node) (hkind : node.kind = UnaryExpr)
      (hop : node.data.op = Excl.code) (he : TermAt P node.data.operand e) : TermAt P id (.not e)
  | binary {id : NodeId} {node : Node} {op : Operator} {l r : Term} (hid : id ≠ kNullNode)
      (hnode : P.tree[id]? = some node) (hkind : node.kind = BinaryExpr)
      (hop : node.data.op = op.token.code) (hl : TermAt P node.data.lhs l)
      (hr : TermAt P node.data.rhs r) : TermAt P id (.binary op l r)
  | call {id : NodeId} {node : Node} {x : List Byte} (hid : id ≠ kNullNode)
      (hnode : P.tree[id]? = some node) (hkind : node.kind = CallExpr)
      (htarget : ∀ s, getNodeSnippet P node.data.target s = some (.ok (x, s)))
      (hargs : node.data.argsList = kNullNode) : TermAt P id (.call x)

/-- The node `id` is the root of the statement `s`. -/
inductive StatementAt (P : Program) : NodeId → Statement → Prop
  | skip : StatementAt P kNullNode .skip
  | expr {id : NodeId} {e : Term} (he : TermAt P id e) : StatementAt P id (.expr e)
  | ret {id : NodeId} {node : Node} {e : Term} (hid : id ≠ kNullNode)
      (hnode : P.tree[id]? = some node) (hkind : node.kind = UnaryExpr)
      (hop : node.data.op = kReturn.code) (he : TermAt P node.data.operand e) : StatementAt P id (.ret e)
  | retVoid {id : NodeId} {node : Node} (hid : id ≠ kNullNode)
      (hnode : P.tree[id]? = some node) (hkind : node.kind = UnaryExpr)
      (hop : node.data.op = kReturn.code) (he : node.data.operand = kNullNode) : StatementAt P id .retVoid
  | ite {id : NodeId} {node : Node} {c : Term} {s s' : Statement} (hid : id ≠ kNullNode)
      (hnode : P.tree[id]? = some node) (hkind : node.kind = EvalExpr) (hc : TermAt P node.data.cond c)
      (hs : StatementAt P node.data.thenBlock s) (hs' : StatementAt P node.data.elseBlock s') :
      StatementAt P id (.ite c s s')

/-- A term stands at a node. -/
lemma TermAt.ne_null (h : TermAt P id e) : id ≠ kNullNode := by
  cases h with
  | name h => exact h.valid
  | int hid | truth hid | neg hid | not hid | binary hid | call hid => exact hid

/-- The folder of `IRBuilder`: what it folds has the value that the instruction would have. -/
structure FoldsWords (host : Host) : Prop where
  binary : ∀ (op : Opcode) (l r u : Value), host.foldBinary op l r = some u → l.isFloat = false →
    r.isFloat = false → u.isFloat = false ∧ (∀ k, l.Below k → r.Below k → u.Below k) ∧
      ∀ regs a b w, l.word regs = some a → r.word regs = some b → op.word a b = some w →
        u.word regs = some w
  unary : ∀ (op : Opcode) (v u : Value), host.foldUnary op v = some u → v.isFloat = false →
    u.isFloat = false ∧ (∀ k, v.Below k → u.Below k) ∧
      ∀ regs a w, v.word regs = some a → op.word1 a = some w → u.word regs = some w

/-- The names of variables are those of stack slots, and the names that are called those of functions
without parameters that return a value. -/
structure Scoped (t : Compiler) (E : Env) (names calls : List (List Byte)) : Prop where
  point : t.module.insertBlock ≠ none
  vars : ∀ x ∈ names, ∃ sym, t.lookupVar x = some sym ∧ sym.value = some (.alloca (E.slots x)) ∧
    sym.type.IsWord
  funcs : ∀ x ∈ calls, ∃ info, t.lookupFunc x = some info ∧ info.llvmFunc = E.funcs x ∧
    info.allParams = [] ∧ (t.module.returnType (E.funcs x)).IsWord

/-- The slots hold the values of the variables. -/
def Holds (E : Env) (mem : ℕ → Option Word) (names : List (List Byte)) : Prop :=
  ∀ x ∈ names, mem (E.slots x) = some (E.vars x)

/-- Code without terminators and stack slots. -/
def Straight (code : List Instruction) : Prop :=
  ∀ i ∈ code, i.isTerminator = false ∧ i.isAlloca = false

lemma straight_nil : Straight [] := fun _ h => absurd h List.not_mem_nil

/-- Straight code behind straight code. -/
lemma Straight.append {code' : List Instruction} (h : Straight code) (h' : Straight code') :
    Straight (code ++ code') := List.forall_mem_append.mpr ⟨h, h'⟩

lemma straight_singleton {i : Instruction} (hi : i.isTerminator = false) (ha : i.isAlloca = false) :
    Straight [i] := List.forall_mem_singleton.mpr ⟨hi, ha⟩

/-- At `t`, the node `id` becomes straight-line code that does what `e` means. -/
def EmitsTerm (P : Program) (n : ℕ) (t : Compiler) (id : NodeId) (E : Env) (e : Term) : Prop :=
  ∃ v code, (methods P n).codegen id t = some (.ok (some v, t.appends code)) ∧ Straight code ∧
    v.isFloat = false ∧
    ∀ mem, Holds E mem e.names → Performs E.world mem t.module.values code v (e.eval E)

/-- No operation on integers has a float as its result. -/
lemma resultType_ne_float (op : Opcode) {type : IRType} (htype : type ≠ .float)
    (hop : op.resultType .int32 ≠ .float) : op.resultType type ≠ .float := by
  cases op <;> first | exact htype | exact hop

lemma getD_ne_float (h : v.isFloat = false) : v.type.getD .void ≠ .float := by
  intro hfloat
  cases htype : v.type with
  | none => simp [htype] at hfloat
  | some type => simp_all [Value.isFloat]

/-- An operation is folded, or becomes an instruction behind the code of its operands. -/
lemma createBinary_word (hfold : FoldsWords P.host) (op : Operator) (name : String)
    {code' : List Instruction} (hcode : Straight code) (hcode' : Straight code')
    (hv : v.isFloat = false) (hw : w.isFloat = false) :
    ∃ v' code'', createBinary P.host op.opcode v w name (t.appends (code ++ code')) =
        some (.ok (v', t.appends code'')) ∧ Straight code'' ∧ v'.isFloat = false ∧
      ∀ world mem x y, Performs world mem t.module.values code v x →
        Performs world mem (t.module.values + code.length) code' w y →
          Performs world mem t.module.values code'' v' (x.map2 y op.opcode.word) := by
  rw [createBinary]
  cases hu : P.host.foldBinary op.opcode v w with
  | some u =>
      obtain ⟨hfloat, hbelow, hword⟩ := hfold.binary _ _ _ _ hu hv hw
      exact ⟨u, code ++ code', rfl, hcode.append hcode', hfloat,
        fun world mem x y hx hy => hx.folded hy hfloat hbelow hword⟩
  | none =>
      have hvalues := (values_insertBlock_appends t (code ++ code')).1
      have htype := resultType_ne_float op.opcode (getD_ne_float hv) (by cases op <;> decide)
      refine ⟨_, code ++ code' ++ [.binary (t.module.values + (code ++ code').length) op.opcode v w name],
        ?_, (hcode.append hcode').append (straight_singleton rfl rfl), ?_,
        fun world mem x y hx hy => hx.binary name hy htype⟩
      · rw [appends_snoc, ← hvalues]
        rfl
      · exact Value.isFloat_instruction htype

/-- A unary operation, folded or not, performs what it stands for. -/
lemma createUnary_word (hfold : FoldsWords P.host) (op : Opcode) (hop : op.resultType .int32 ≠ .float)
    (name : String) (hcode : Straight code) (hv : v.isFloat = false) :
    ∃ v' code', createUnary P.host op v name (t.appends code) = some (.ok (v', t.appends code')) ∧
      Straight code' ∧ v'.isFloat = false ∧
      ∀ world mem x, Performs world mem t.module.values code v x →
        Performs world mem t.module.values code' v' (x.map1 op.word1) := by
  rw [createUnary]
  cases hu : P.host.foldUnary op v with
  | some u =>
      obtain ⟨hfloat, hbelow, hword⟩ := hfold.unary _ _ _ hu hv
      exact ⟨u, code, rfl, hcode, hfloat, fun world mem x hx => hx.folded1 hfloat hbelow hword⟩
  | none =>
      have hvalues := (values_insertBlock_appends t code).1
      have htype := resultType_ne_float op (getD_ne_float hv) hop
      refine ⟨_, code ++ [.unary (t.module.values + code.length) op v name], ?_,
        hcode.append (straight_singleton rfl rfl), ?_, fun world mem x hx => hx.unary name htype⟩
      · rw [appends_snoc, ← hvalues]
        rfl
      · exact Value.isFloat_instruction htype

/-- Instructions that are put at the end only let the module grow. -/
lemma grows_appends (t : Compiler) (code : List Instruction) :
    Module.Grows t.module (t.appends code).module := by
  rw [@module_of_ops t (t.appends code) _ rfl]
  refine (Module.Grows.refl _).foldl fun op hop => ?_
  obtain ⟨i, -, rfl⟩ := List.mem_map.mp hop
  trivial

/-- The scopes do not depend on the instructions. -/
lemma Scoped.appends {names calls : List (List Byte)} (h : Scoped t E names calls)
    (code : List Instruction) : Scoped (t.appends code) E names calls where
  point := (values_insertBlock_appends t code).2 ▸ h.point
  vars := h.vars
  funcs x hx := by
    rw [(grows_appends t code).types]
    exact h.funcs x hx

/-- The names of the first part are in scope. -/
lemma Scoped.left {names names' calls calls' : List (List Byte)}
    (h : Scoped t E (names ++ names') (calls ++ calls')) : Scoped t E names calls :=
  ⟨h.point, fun x hx => h.vars x (List.mem_append_left _ hx),
    fun x hx => h.funcs x (List.mem_append_left _ hx)⟩

lemma Scoped.right {names names' calls calls' : List (List Byte)}
    (h : Scoped t E (names ++ names') (calls ++ calls')) : Scoped t E names' calls' :=
  ⟨h.point, fun x hx => h.vars x (List.mem_append_right _ hx),
    fun x hx => h.funcs x (List.mem_append_right _ hx)⟩

/-- The slots hold the names of the first part. -/
lemma Holds.left {names names' : List (List Byte)} (h : Holds E mem (names ++ names')) :
    Holds E mem names := fun x hx => h x (List.mem_append_left _ hx)

lemma Holds.right {names names' : List (List Byte)} (h : Holds E mem (names ++ names')) :
    Holds E mem names' := fun x hx => h x (List.mem_append_right _ hx)

lemma codegen_literal {x : List Byte} (hid : id ≠ kNullNode) (hnode : P.tree[id]? = some node)
    (hkind : node.kind = LiteralExpr) (htext : ∀ s, getNodeSnippet P id s = some (.ok (x, s))) :
    (methods P (n + 1)).codegen id t = literalValue P node.data.op x t := by
  show codegen P (methods P n) id t = _
  rw [codegen_of_kind _ hid hnode, hkind]
  show codegenLiteralExpr P id t = _
  rw [codegenLiteralExpr, Comp.bind_apply (htext t), getNode_eq hnode,
    Comp.bind_apply (Comp.pure_apply _ t)]

/-- A truth value is the constant that stands for it. -/
lemma literalValue_truth (b : Bool) (x : List Byte) :
    literalValue P (if b then kTrue else kFalse).code x t =
      some (.ok (some (.constant (.int .int1 (if b then 1 else 0))), t)) := by
  cases b <;> rfl

/-- The visit of a unary expression, behind that of its operand. -/
lemma codegen_unary (hid : id ≠ kNullNode) (hnode : P.tree[id]? = some node)
    (hkind : node.kind = UnaryExpr) (hop : node.data.op ≠ kReturn.code)
    (hrun : (methods P n).codegen node.data.operand t = some (.ok (some v, u))) :
    (methods P (n + 1)).codegen id t =
      (if node.data.op = Minus.code then do
        let value ← createUnary P.host (if v.isFloat then .FNeg else .Neg) v "negtmp"
        pure (some value)
      else if node.data.op = Excl.code then do
        let value ← createUnary P.host .Not v "nottmp"
        pure (some value)
      else pure none : CodegenM (Option Value)) u := by
  show codegen P (methods P n) id t = _
  rw [codegen_of_kind _ hid hnode, hkind]
  show codegenUnaryExpr P (methods P n) id t = _
  rw [codegenUnaryExpr, getNode_eq hnode, Comp.bind_apply (Comp.pure_apply _ t), if_neg hop,
    Comp.bind_apply hrun]
  rfl

/-- The visit of a call without parameters. -/
lemma codegen_call {x : List Byte} {info : FunctionInfo} (hid : id ≠ kNullNode)
    (hnode : P.tree[id]? = some node) (hkind : node.kind = CallExpr)
    (htarget : ∀ s, getNodeSnippet P node.data.target s = some (.ok (x, s)))
    (hlookup : t.lookupFunc x = some info) (hparams : info.allParams = []) :
    (methods P (n + 1)).codegen id t = (do
      let value ← createCall info.llvmFunc []
      pure (some value) : CodegenM (Option Value)) t := by
  show codegen P (methods P n) id t = _
  rw [codegen_of_kind _ hid hnode, hkind]
  show codegenCallExpr P (methods P n) id t = _
  rw [codegenCallExpr, getNode_eq hnode, Comp.bind_apply (Comp.pure_apply _ t),
    Comp.bind_apply (htarget t), Comp.bind_apply (read_apply _ t), hlookup]
  dsimp only
  rw [hparams]
  rfl

/-- The visit of an expression emits code that does what the expression means. -/
lemma codegen_term (hfold : FoldsWords P.host) (he : TermAt P id e) (hn : e.depth ≤ n)
    (ht : Scoped t E e.names e.calls) : EmitsTerm P n t id E e := by
  induction he generalizing n t with
  | @int id node d suffix hid hnode hkind hop htext hne hd hsuffix hrange =>
      obtain ⟨n, rfl⟩ := Nat.exists_eq_add_of_lt (Nat.lt_of_lt_of_le (Term.depth_pos _) hn)
      refine ⟨.int32 (some (BitVec.ofNat 32 (positional 10 d))), [], ?_, straight_nil,
        Value.isFloat_int32 (Value.type_int32 _), fun mem _ => .constant rfl trivial fun regs => ?_⟩
      · rw [appends_nil, codegen_literal hid hnode hkind htext, hop]
        exact literalValue_int t hne hd hsuffix hrange
      · show some (Word.int32 (BitVec.ofInt 32 (BitVec.toInt _))) = some (wrap _)
        rw [BitVec.ofInt_toInt, wrap, BitVec.ofInt_natCast]
  | @truth id node b x hid hnode hkind hop htext =>
      obtain ⟨n, rfl⟩ := Nat.exists_eq_add_of_lt (Nat.lt_of_lt_of_le (Term.depth_pos _) hn)
      refine ⟨.constant (.int .int1 (if b then 1 else 0)), [], ?_, straight_nil, rfl,
        fun mem _ => .constant rfl trivial fun regs => ?_⟩
      · rw [appends_nil, codegen_literal hid hnode hkind htext, hop]
        exact literalValue_truth b x
      · cases b <;> rfl
  | @name id x h =>
      obtain ⟨n, rfl⟩ := Nat.exists_eq_add_of_lt (Nat.lt_of_lt_of_le (Term.depth_pos _) hn)
      obtain ⟨sym, hlookup, hvalue, htype⟩ := ht.vars x (List.mem_singleton_self x)
      have hrun := codegen_slot (n := 0 + n) h hlookup hvalue ht.point
      exact ⟨_, [.load t.module.values sym.type (.alloca (E.slots x)) x], hrun,
        straight_singleton rfl rfl, Value.isFloat_instruction htype.ne_float,
        fun mem hmem => .load htype.ne_float (hmem x (List.mem_singleton_self x))⟩
  | @neg id node e hid hnode hkind hop he ih =>
      obtain ⟨n, rfl⟩ := Nat.exists_eq_add_of_lt (Nat.lt_of_lt_of_le (Term.depth_pos _) hn)
      rw [Nat.zero_add] at hn ⊢
      obtain ⟨v, code, hrun, hcode, hv, hperform⟩ := ih (n := n) (Nat.le_of_succ_le_succ hn) ht
      obtain ⟨v', code', hcreate, hcode', hv', hperform'⟩ :=
        createUnary_word (t := t) hfold .Neg (by decide) "negtmp" hcode hv
      refine ⟨v', code', ?_, hcode', hv', fun mem hmem => ?_⟩
      · rw [codegen_unary hid hnode hkind (by rw [hop]; decide) hrun, hop, if_pos rfl, hv]
        exact Comp.bind_apply hcreate _
      · exact (hperform' _ _ _ (hperform mem hmem)).weaken (Effect.map1_mono fun _ _ => negated_le)
  | @not id node e hid hnode hkind hop he ih =>
      obtain ⟨n, rfl⟩ := Nat.exists_eq_add_of_lt (Nat.lt_of_lt_of_le (Term.depth_pos _) hn)
      rw [Nat.zero_add] at hn ⊢
      obtain ⟨v, code, hrun, hcode, hv, hperform⟩ := ih (n := n) (Nat.le_of_succ_le_succ hn) ht
      obtain ⟨v', code', hcreate, hcode', hv', hperform'⟩ :=
        createUnary_word (t := t) hfold .Not (by decide) "nottmp" hcode hv
      refine ⟨v', code', ?_, hcode', hv', fun mem hmem => ?_⟩
      · rw [codegen_unary hid hnode hkind (by rw [hop]; decide) hrun, hop, if_neg (by decide), if_pos rfl]
        exact Comp.bind_apply hcreate _
      · exact (hperform' _ _ _ (hperform mem hmem)).weaken (Effect.map1_mono fun _ _ => inverted_le)
  | @binary id node op l r hid hnode hkind hop hl hr ihl ihr =>
      obtain ⟨n, rfl⟩ := Nat.exists_eq_add_of_lt (Nat.lt_of_lt_of_le (Term.depth_pos _) hn)
      rw [Nat.zero_add] at hn ⊢
      have hdepth : max l.depth r.depth ≤ n := Nat.le_of_succ_le_succ hn
      obtain ⟨v, code, hrun, hcode, hv, hperform⟩ := ihl (n := n) (t := t) (by omega)
        ht.left
      obtain ⟨w, code', hrun', hcode', hw, hperform'⟩ := ihr (n := n) (t := t.appends code) (by omega)
        (ht.right.appends code)
      rw [(values_insertBlock_appends t code).1] at hperform'
      obtain ⟨floatOp, name, hfind⟩ := op.find_token
      obtain ⟨v', code'', hcreate, hcode'', hv', hboth⟩ :=
        createBinary_word (t := t) hfold op name hcode hcode' hv hw
      refine ⟨v', code'', ?_, hcode'', hv', fun mem hmem => ?_⟩
      · show codegen P (methods P n) id t = _
        rw [codegen_of_kind _ hid hnode, hkind]
        show codegenBinaryExpr P (methods P n) id t = _
        rw [codegenBinaryExpr, getNode_eq hnode, Comp.bind_apply (Comp.pure_apply _ t),
          Comp.bind_apply hrun, Comp.bind_apply hrun', hop]
        dsimp only
        rw [hfind, hv, hw]
        dsimp only
        rw [Bool.or_self, if_neg (by decide), ← appends_append, Comp.bind_apply hcreate]
        rfl
      · have hword : op.opcode.word = op.apply := funext₂ op.word_opcode
        rw [Term.eval, ← hword]
        exact hboth _ _ _ _ (hperform mem hmem.left) (hperform' mem hmem.right)
  | @call id node x hid hnode hkind htarget hargs =>
      obtain ⟨n, rfl⟩ := Nat.exists_eq_add_of_lt (Nat.lt_of_lt_of_le (Term.depth_pos _) hn)
      obtain ⟨info, hlookup, hfunc, hparams, htype⟩ := ht.funcs x (List.mem_singleton_self x)
      let name := if t.module.returnType (E.funcs x) = .void then "" else "calltmp"
      refine ⟨_, [.call t.module.values (E.funcs x) [] name], ?_, straight_singleton rfl rfl,
        Value.isFloat_instruction htype.ne_float, fun mem hmem => .call htype.ne_float⟩
      rw [codegen_call hid hnode hkind htarget hlookup hparams, hfunc]
      rfl

/-! ## Graphs -/

/-- From `s` to `t` the scopes have stayed, and operations on new blocks and at the insertion point have
been issued. -/
structure Adds (s t : Compiler) : Prop where
  scopes : t.scopes = s.scopes
  ops : ∃ ops, t.ops = s.ops ++ ops ∧ ∀ op ∈ ops, op.Local s.module.blocks.length

namespace Adds

lemma refl (s : Compiler) : Adds s s :=
  ⟨rfl, [], (List.append_nil _).symm, fun _ h => absurd h List.not_mem_nil⟩

lemma grows (h : Adds s t) : Module.Grows s.module t.module := by
  obtain ⟨ops, hops, hlocal⟩ := h.ops
  rw [module_of_ops hops]
  exact (Module.Grows.refl _).foldl hlocal

/-- Work behind work. -/
lemma trans (h : Adds s t) (h' : Adds t u) : Adds s u := by
  obtain ⟨ops, hops, hlocal⟩ := h.ops
  obtain ⟨ops', hops', hlocal'⟩ := h'.ops
  refine ⟨h'.scopes.trans h.scopes, ops ++ ops', by rw [hops', hops, List.append_assoc], ?_⟩
  exact List.forall_mem_append.mpr ⟨hlocal, fun op hop => (hlocal' op hop).mono h.grows.blocks⟩

/-- An operation inside of the function that is being built. -/
lemma issue (h : Adds s t) (op : BuilderOp) (hop : op.Local s.module.blocks.length) :
    Adds s (t.issue op) := by
  obtain ⟨ops, hops, hlocal⟩ := h.ops
  refine ⟨h.scopes, ops ++ [op], ?_, List.forall_mem_append.mpr ⟨hlocal, List.forall_mem_singleton.mpr hop⟩⟩
  show t.ops ++ [op] = _
  rw [hops, List.append_assoc]

lemma appends (s : Compiler) (code : List Instruction) : Adds s (s.appends code) := by
  refine ⟨rfl, code.map .append, rfl, fun op hop => ?_⟩
  obtain ⟨i, -, rfl⟩ := List.mem_map.mp hop
  trivial

lemma closed (h : Adds s t) (i : Instruction) : Adds s (t.closed i) := by
  rw [Compiler.closed]
  split
  · split_ifs
    · exact h
    · exact h.issue (.append i) trivial
  · exact h

lemma movedTo (h : Adds s t) (f : FunctionId) (hb : s.module.blocks.length ≤ b) :
    Adds s (t.movedTo f b) := (h.issue (.insertBlock f b) hb).issue (.setInsertPoint b) hb

end Adds

/-- The names stay in scope while the function is built. -/
lemma Scoped.adds {names calls : List (List Byte)} (h : Scoped s E names calls) (ht : Adds s t)
    (hpoint : t.module.insertBlock ≠ none) : Scoped t E names calls where
  point := hpoint
  vars x hx := by
    rw [lookupVar, ht.scopes]
    exact h.vars x hx
  funcs x hx := by
    rw [lookupFunc, ht.scopes, ht.grows.types]
    exact h.funcs x hx

/-- How the graphs of `M` behave from `start` on: with the trace `h`, and going on at `exit` when they come
to their end. -/
def Behaves (world : World) (M : Module) (start : Config) (exit : List Instruction) (h : Trace) :
    Ending → Prop
  | .falls => ∃ σ, Steps world M start (exit, σ) ∧ σ.mem = start.2.mem ∧ σ.trace = h
  | .returns none => ∃ rest σ, Steps world M start (.ret none :: rest, σ) ∧ σ.trace = h
  | .returns (some w) => ∃ v rest σ, Steps world M start (.ret (some v) :: rest, σ) ∧
      v.word σ.regs = some w ∧ σ.trace = h

/-- Steps in front of a behaviour. -/
lemma Behaves.head {world : World} {M : Module} {start mid : Config} {exit : List Instruction}
    {h : Trace} {o : Ending} (hsteps : Steps world M start mid) (hmem : mid.2.mem = start.2.mem)
    (hmid : Behaves world M mid exit h o) : Behaves world M start exit h o := by
  match o with
  | .falls =>
      obtain ⟨σ, hrest, hsame, htrace⟩ := hmid
      exact ⟨σ, hsteps.trans hrest, hsame.trans hmem, htrace⟩
  | .returns none =>
      obtain ⟨rest, σ, hrest, htrace⟩ := hmid
      exact ⟨rest, σ, hsteps.trans hrest, htrace⟩
  | .returns (some w) =>
      obtain ⟨v, rest, σ, hrest, hv, htrace⟩ := hmid
      exact ⟨v, rest, σ, hsteps.trans hrest, hv, htrace⟩

/-- The exit matters where the graphs come to their end. -/
lemma Behaves.exit {world : World} {M : Module} {start : Config} {exit exit' : List Instruction}
    {h : Trace} {o : Ending} (hend : Behaves world M start exit h o)
    (hexit : o = .falls → ∀ σ, Steps world M (exit, σ) (exit', σ)) : Behaves world M start exit' h o := by
  match o with
  | .falls =>
      obtain ⟨σ, hsteps, hsame, htrace⟩ := hend
      exact ⟨σ, hsteps.trans (hexit rfl σ), hsame, htrace⟩
  | .returns none | .returns (some w) => exact hend

/-- A statement that leaves on every path never falls through. -/
lemma not_falls_of_leaves {st : Statement} {h h' : Trace} (hst : st.Leaves) : ¬ Runs E st h .falls h' := by
  intro hrun
  cases hrun <;> exact hst

/-- What has been built from `t` on, from the end of the block `b` to the end of the block `b'`, behaves
like the statement `s` in every module that is built on it. -/
structure Graph (E : Env) (s : Statement) (f : FunctionId) (t : Compiler) (b : BlockId) (t' : Compiler)
    (b' : BlockId) : Prop where
  adds : Adds t t'
  stands : t'.module.Stands f b'
  ends : OpenCode (t'.module.code b') ∨ s.Leaves ∧ ClosedCode (t'.module.code b')
  building : t.module.Building f b → t'.module.Building f b'
  behaves : ∀ (M : Module) (σ : State) (o : Ending) (h : Trace), Module.Onto t'.module M →
    Holds E σ.mem s.names → Runs E s σ.trace o h →
      Behaves E.world M (M.ahead t.module b, σ) (M.ahead t'.module b') h o

section Stands

variable {code : List Instruction} {i : Instruction} {d : BlockId}

/-- Straight-line code is put at the end of the block. -/
lemma stands_appends (h : t.module.Stands f b) (hcode : Straight code) :
    (t.appends code).module.Stands f b ∧ (t.appends code).module.code b = t.module.code b ++ code ∧
      (t.appends code).module.body b = t.module.body b ++ code := by
  induction code using List.reverseRecOn with
  | nil => rw [appends_nil, List.append_nil, List.append_nil]; exact ⟨h, rfl, rfl⟩
  | append_singleton code i ih =>
      obtain ⟨hcode, hi⟩ := List.forall_mem_append.mp hcode
      obtain ⟨hstands, heq, hbody⟩ := ih hcode
      rw [appends_snoc, module_issue]
      refine ⟨hstands.append i, ?_, ?_⟩
      · rw [hstands.code_append, heq, List.append_assoc]
      · rw [hstands.body_append (hi i (List.mem_singleton_self i)).2, hbody, List.append_assoc]

lemma openCode_appends (h : t.module.Stands f b) (hopen : OpenCode (t.module.code b))
    (hcode : Straight code) : OpenCode ((t.appends code).module.code b) := by
  rw [(stands_appends h hcode).2.1]
  exact openCode_append.mpr ⟨hopen, fun i hi => (hcode i hi).1⟩

lemma building_appends (h : t.module.Building f b) (hopen : OpenCode (t.module.code b))
    (hcode : Straight code) : (t.appends code).module.Building f b := by
  rw [@module_of_ops t (t.appends code) _ rfl]
  refine (h.foldl_plain hopen fun op hop => ?_).1
  obtain ⟨i, hi, rfl⟩ := List.mem_map.mp hop
  exact (hcode i hi).1

/-- A block that is open is closed by its terminator. -/
lemma closed_of_open (h : t.module.Stands f b) (hopen : OpenCode (t.module.code b)) :
    t.closed i = t.issue (.append i) := by
  rw [Compiler.closed, h.point]
  simp only [Module.hasTerminator_of_open hopen]
  rfl

/-- The block of the insertion point is the only one that a terminator changes. -/
lemma code_closed_ne (h : t.module.Stands f b) (hd : d ≠ b) :
    (t.closed i).module.code d = t.module.code d := by
  rcases closed_module (s := t) i with heq | heq
  · rw [heq]
  · rw [heq, Module.code_append_ne]
    rw [h.point]
    exact fun heq => hd (Option.some.inj heq).symm

lemma blocks_closed (t : Compiler) (i : Instruction) :
    (t.closed i).module.blocks.length = t.module.blocks.length := by
  rcases closed_module (s := t) i with heq | heq
  · rw [heq]
  · rw [heq, Module.blocks_length_append]

lemma stands_movedTo (hd : d < t.module.blocks.length) : (t.movedTo f d).module.Stands f d := by
  rw [module_movedTo]
  exact .moveTo hd

lemma code_movedTo : (t.movedTo f d).module.code b = t.module.code b := by
  rw [module_movedTo, Module.code_moveTo]

end Stands

namespace Graph

variable {st st' : Statement} {b' d : BlockId} {t' : Compiler} {M : Module} {σ : State} {o : Ending}
  {h : Trace}

/-- Nothing has been built. -/
lemma skip (hs : t.module.Stands f b) (hopen : OpenCode (t.module.code b)) : Graph E .skip f t b t b where
  adds := .refl t
  stands := hs
  ends := .inl hopen
  building := id
  behaves M σ o h hM hmem hrun := by
    cases hrun with
    | skip => exact ⟨σ, .refl, rfl, rfl⟩

/-- The execution of straight-line code that does what an expression means. -/
lemma steps_term (hs : t.module.Stands f b) (hcode : Straight code)
    (hperform : ∀ mem, Holds E mem e.names → Performs E.world mem t.module.values code v (e.eval E))
    (hM : Module.Onto (t.appends code).module M) (hmem : Holds E σ.mem e.names) {w : Word}
    (heval : e.eval E σ.trace = some (w, h)) :
    ∃ σ', Steps E.world M (M.ahead t.module b, σ) (M.ahead (t.appends code).module b, σ') ∧
      σ'.mem = σ.mem ∧ σ'.trace = h ∧ v.word σ'.regs = some w := by
  obtain ⟨σ', hrun, htrace, hv⟩ := (hperform σ.mem hmem).run σ w h rfl heval
  refine ⟨σ', ?_, hrun.mem, htrace, hv⟩
  rw [Module.ahead_append (stands_appends hs hcode).2.2 hM]
  exact steps_run hrun.run _

/-- An expression statement is straight code. -/
lemma expr (hs : t.module.Stands f b) (hopen : OpenCode (t.module.code b)) (hcode : Straight code)
    (hperform : ∀ mem, Holds E mem e.names → Performs E.world mem t.module.values code v (e.eval E)) :
    Graph E (.expr e) f t b (t.appends code) b where
  adds := .appends t code
  stands := (stands_appends hs hcode).1
  ends := .inl (openCode_appends hs hopen hcode)
  building h := building_appends h hopen hcode
  behaves M σ o h hM hmem hrun := by
    cases hrun with
    | expr he =>
        obtain ⟨σ', hsteps, hmem', htrace, -⟩ := steps_term hs hcode hperform hM hmem he
        exact ⟨σ', hsteps, hmem', htrace⟩

/-- A block that is closed with a `ret`. -/
lemma ret_of {ret : Option Value} (hst : st.Leaves) (hs : t.module.Stands f b)
    (hopen : OpenCode (t.module.code b)) (hadds : Adds s t)
    (hbuilding : s.module.Building f b → t.module.Building f b)
    (hbehaves : ∀ (M : Module) (σ : State) (o : Ending) (h : Trace) (rest : List Instruction),
      Module.Onto t.module M → M.ahead t.module b = .ret ret :: rest → Holds E σ.mem st.names →
        Runs E st σ.trace o h → o ≠ .falls → ∀ exit,
          Behaves E.world M (M.ahead s.module b, σ) exit h o) :
    Graph E st f s b (t.issue (.append (.ret ret))) b where
  adds := hadds.issue (.append (.ret ret)) trivial
  stands := by
    rw [module_issue]
    exact hs.append _
  ends := by
    refine .inr ⟨hst, ?_⟩
    rw [module_issue, hs.code_append]
    exact hopen.close rfl
  building h := by
    rw [module_issue]
    exact (hbuilding h).append _
  behaves M σ o h hM hmem hrun := by
    rw [module_issue] at hM ⊢
    have hahead := Module.ahead_append (hs.body_append (i := .ret ret) rfl) hM
    have hM' := (Module.onto_exec t.module (.append (.ret ret)) trivial).trans hM
    refine hbehaves M σ o h _ hM' hahead hmem hrun ?_ _
    rintro rfl
    exact not_falls_of_leaves hst hrun

/-- A `return` ends the block with the value of its term. -/
lemma ret (hs : t.module.Stands f b) (hopen : OpenCode (t.module.code b)) (hcode : Straight code)
    (hperform : ∀ mem, Holds E mem e.names → Performs E.world mem t.module.values code v (e.eval E)) :
    Graph E (.ret e) f t b ((t.appends code).issue (.append (.ret (some v)))) b := by
  refine ret_of trivial (stands_appends hs hcode).1 (openCode_appends hs hopen hcode) (.appends t code)
    (fun h => building_appends h hopen hcode) fun M σ o h rest hM hahead hmem hrun _ exit => ?_
  cases hrun with
  | ret he =>
      obtain ⟨σ', hsteps, hmem', htrace, hv⟩ := steps_term hs hcode hperform hM hmem he
      rw [hahead] at hsteps
      exact ⟨v, rest, σ', hsteps, hv, htrace⟩

/-- A `return` without a value ends the block. -/
lemma retVoid (hs : t.module.Stands f b) (hopen : OpenCode (t.module.code b)) :
    Graph E .retVoid f t b (t.issue (.append (.ret none))) b := by
  refine ret_of trivial hs hopen (.refl t) id fun M σ o h rest hM hahead hmem hrun _ exit => ?_
  cases hrun with
  | retVoid => exact ⟨rest, σ, hahead ▸ .refl, rfl⟩

lemma onto_closed (t : Compiler) (i : Instruction) : Module.Onto t.module (t.closed i).module := by
  rcases closed_module (s := t) i with heq | heq
  · rw [heq]
    exact .refl _
  · rw [heq]
    exact Module.onto_exec _ (.append i) trivial

/-- The way out of a graph with a jump behind it, unless it is left before. -/
lemma jump_behaves (hg : Graph E st f t b t' b') (hM : Module.Onto t'.module M)
    (hjump : OpenCode (t'.module.code b') → ∃ rest, M.ahead t'.module b' = .br d :: rest)
    (hmem : Holds E σ.mem st.names) (hrun : Runs E st σ.trace o h) :
    Behaves E.world M (M.ahead t.module b, σ) (M.body d) h o := by
  refine (hg.behaves M σ o h hM hmem hrun).exit fun ho σ => ?_
  rcases hg.ends with hopen | ⟨hleaves, -⟩
  · obtain ⟨rest, hahead⟩ := hjump hopen
    rw [hahead]
    exact .single .br
  · subst ho
    exact absurd hrun (not_falls_of_leaves hleaves)

/-- Behind a branch that has been closed, the run goes on at the block it jumps to. -/
lemma closed_behaves (hg : Graph E st f t b t' b') (hM : Module.Onto (t'.closed (.br d)).module M)
    (hmem : Holds E σ.mem st.names) (hrun : Runs E st σ.trace o h) :
    Behaves E.world M (M.ahead t.module b, σ) (M.body d) h o := by
  refine hg.jump_behaves ((onto_closed _ _).trans hM) (fun hopen => ?_) hmem hrun
  rw [closed_of_open hg.stands hopen, module_issue] at hM
  exact ⟨_, Module.ahead_append (hg.stands.body_append (i := .br d) rfl) hM⟩

/-- A graph with a jump behind it, unless it is left before, in a function that is being built. -/
lemma closed_building (hg : Graph E st f t b t' b') (h : t.module.Building f b) :
    Closed (t'.closed (.br d)) f b' := by
  rcases hg.ends with hopen | ⟨-, hclosed⟩
  · exact Open.closed ⟨hg.building h, hopen⟩ rfl
  · exact Closed.closed ⟨hg.building h, hclosed⟩

lemma onto_movedTo (t : Compiler) (f : FunctionId) (d : BlockId) :
    Module.Onto t.module (t.movedTo f d).module := by
  rw [movedTo, module_issue, module_issue]
  exact (Module.onto_exec t.module (.insertBlock f d) trivial).trans
    (Module.onto_exec _ (.setInsertPoint d) trivial)

lemma adds_branched (t : Compiler) (f : FunctionId) (cond : Option Value) :
    Adds t (t.branched f cond) :=
  (((((Adds.refl t).issue (.createBlock _ _) trivial).issue (.createBlock _ _) trivial).issue
    (.createBlock _ _) trivial).issue (.append _) trivial).issue (.setInsertPoint _) le_rfl

/-- A block that was there before the graph, and is not its first one, is still as it was, and the insertion
point is not in it. -/
lemma untouched (hg : Graph E st f t b t' b') (hpoint : t.module.insertBlock = some b)
    (hd : d < t.module.blocks.length) (hne : d ≠ b) : t'.module.code d = t.module.code d ∧ d ≠ b' := by
  have hpoint' : t.module.insertBlock ≠ some d := by
    rw [hpoint]
    exact fun heq => hne (Option.some.inj heq).symm
  refine ⟨hg.adds.grows.others d hd hpoint', ?_⟩
  rintro rfl
  exact hg.adds.grows.point_ne hd hpoint' hg.stands.point

variable {u w : Compiler} {bu bw : BlockId} {k : ℕ}

/-- The three blocks of a condition: where they stand, and that they are empty. -/
lemma branched_spec (hs : t.module.Stands f b) (hk : t.module.blocks.length = k) (cond : Option Value) :
    (t.branched f cond).module.Stands f k ∧ (t.branched f cond).module.blocks.length = k + 3 ∧
      (∀ d, k ≤ d → (t.branched f cond).module.code d = []) ∧
      (t.branched f cond).module.body b = t.module.body b ++ [.condBr cond k (k + 1)] := by
  subst hk
  have hfork : (t.branched f cond).module = t.module.fork f (.condBr cond t.module.blocks.length
    (t.module.blocks.length + 1)) "then" "else" "ifcont" := module_branched
  rw [hfork]
  exact ⟨Module.stands_fork _, Module.blocks_fork, fun d hd => hs.code_fork_new hd, hs.body_fork rfl⟩

lemma body_nil (h : t.module.code d = []) : t.module.body d = [] := by
  rw [Module.body, h]
  rfl

/-- The way from the end of a graph to the beginning of the next one: the blocks `k + 1` and `k + 2` are
still empty. -/
lemma ite_entry {cond : Option Value} (hs : t.module.Stands f b) (hk : t.module.blocks.length = k)
    (hthen : Graph E st f (t.branched f cond) k u bu) :
    ((u.closed (.br (k + 2))).movedTo f (k + 1)).module.Stands f (k + 1) ∧
      (∀ d, k < d → d < k + 3 → ((u.closed (.br (k + 2))).movedTo f (k + 1)).module.code d = []) ∧
      k + 3 ≤ ((u.closed (.br (k + 2))).movedTo f (k + 1)).module.blocks.length := by
  obtain ⟨hstands, hlength, hempty, -⟩ := branched_spec hs hk cond
  have hlengthu : k + 3 ≤ u.module.blocks.length := hlength ▸ hthen.adds.grows.blocks
  have h₁ : k + 1 < k + 3 := Nat.add_lt_add_left (by decide) k
  refine ⟨stands_movedTo (by rw [blocks_closed]; exact h₁.trans_le hlengthu), fun d hlt hd => ?_, ?_⟩
  · obtain ⟨hcode, hne⟩ := hthen.untouched hstands.point (hlength ▸ hd) hlt.ne'
    rw [code_movedTo, code_closed_ne hthen.stands hne, hcode, hempty d hlt.le]
  · rw [module_movedTo, Module.blocks_moveTo, blocks_closed]
    exact hlengthu

/-- The blocks of both graphs are put into the function one after the other. -/
lemma ite_building {cond : Option Value} (ht : Open t f b) (hk : t.module.blocks.length = k)
    (hthen : Graph E st f (t.branched f cond) k u bu)
    (helse : Graph E st' f ((u.closed (.br (k + 2))).movedTo f (k + 1)) (k + 1) w bw) :
    ((w.closed (.br (k + 2))).movedTo f (k + 2)).module.Building f (k + 2) := by
  subst hk
  obtain ⟨hbranched, hwaits₁, hwaits₂⟩ := ht.branched cond
  have hu := beyond_closed hthen.adds.grows.toBeyond (.br (t.module.blocks.length + 2))
  have hleft := hthen.closed_building (d := t.module.blocks.length + 2) hbranched.building
  have hright := hleft.movedTo (hwaits₁.beyond hu)
  have hwaits := (hwaits₂.beyond hu).moveTo (f := f) (Nat.lt_succ_self (t.module.blocks.length + 1)).ne
  rw [← module_movedTo] at hwaits
  have hw := beyond_closed helse.adds.grows.toBeyond (.br (t.module.blocks.length + 2))
  exact ((helse.closed_building hright.building).movedTo (hwaits.beyond hw)).building

/-- Two graphs, with a branch in front of them and a block behind them. -/
lemma ite (hs : t.module.Stands f b) (hopen : OpenCode (t.module.code b)) (hcode : Straight code)
    (hperform : ∀ mem, Holds E mem e.names → Performs E.world mem t.module.values code v (e.eval E))
    (hk : (t.appends code).module.blocks.length = k)
    (hthen : Graph E st f ((t.appends code).branched f (some v)) k u bu)
    (helse : Graph E st' f ((u.closed (.br (k + 2))).movedTo f (k + 1)) (k + 1) w bw) :
    Graph E (.ite e st st') f t b ((w.closed (.br (k + 2))).movedTo f (k + 2)) (k + 2) := by
  obtain ⟨hs₁, -, -⟩ := stands_appends hs hcode
  obtain ⟨hstands, hlength, hempty, hbody⟩ := branched_spec hs₁ hk (some v)
  obtain ⟨hstandse, hemptye, hlengthe⟩ := ite_entry hs₁ hk hthen
  have h₁ : k + 1 < k + 3 := Nat.add_lt_add_left (by decide) k
  have h₂ : k + 2 < k + 3 := Nat.add_lt_add_left (by decide) k
  have hlt₂ : k < k + 2 := Nat.lt_add_of_pos_right (by decide)
  -- the block behind both graphs is empty until it is entered
  obtain ⟨hmerge₁, hmergew⟩ := helse.untouched hstandse.point (h₂.trans_le hlengthe)
    (Nat.lt_add_one (k + 1)).ne'
  have hlengthw := hlengthe.trans helse.adds.grows.blocks
  have hmerge : ((w.closed (.br (k + 2))).movedTo f (k + 2)).module.code (k + 2) = [] := by
    rw [code_movedTo, code_closed_ne helse.stands hmergew, hmerge₁, hemptye _ hlt₂ h₂]
  have hblocks : t.module.blocks.length ≤ k := hk ▸ (grows_appends t code).blocks
  refine ⟨?_, stands_movedTo (by rw [blocks_closed]; exact h₂.trans_le hlengthw), .inl ?_, ?_, ?_⟩
  · have hadds := ((Adds.appends t code).trans (adds_branched _ f (some v))).trans hthen.adds
    have hadds := ((hadds.closed (.br (k + 2))).movedTo f (hblocks.trans (Nat.le_add_right k 1))).trans
      helse.adds
    exact (hadds.closed _).movedTo f (hblocks.trans (Nat.le_add_right k 2))
  · rw [hmerge]
    exact openCode_nil
  · intro h
    have ht : Open (t.appends code) f b :=
      ⟨building_appends h hopen hcode, openCode_appends hs hopen hcode⟩
    exact ite_building ht hk hthen helse
  · intro M σ o h hM hmem hrun
    have hMw := (onto_movedTo _ _ _).trans hM
    have hMu := ((onto_movedTo _ _ _).trans (helse.adds.grows.onto.trans (onto_closed w _))).trans hMw
    have hMb := (hthen.adds.grows.onto.trans (onto_closed u _)).trans hMu
    have hM₁ := (adds_branched (t.appends code) f (some v)).grows.onto.trans hMb
    have hahead := Module.ahead_append hbody hMb
    rw [Module.ahead_of_nil (body_nil hmerge)]
    cases hrun with
    | ifTrue hc hrun =>
        obtain ⟨σ', hsteps, hmem', rfl, hv⟩ := steps_term hs hcode hperform hM₁ hmem.left hc
        rw [hahead] at hsteps
        have hnames : Holds E σ'.mem st.names := hmem'.symm ▸ hmem.right.left
        refine .head (hsteps.tail (.condBr hv)) hmem' ?_
        have hend := hthen.closed_behaves hMu hnames hrun
        rwa [Module.ahead_of_nil (body_nil (hempty k le_rfl))] at hend
    | ifFalse hc hrun =>
        obtain ⟨σ', hsteps, hmem', rfl, hv⟩ := steps_term hs hcode hperform hM₁ hmem.left hc
        rw [hahead] at hsteps
        have hnames : Holds E σ'.mem st'.names := hmem'.symm ▸ hmem.right.right
        refine .head (hsteps.tail (.condBr hv)) hmem' ?_
        have hend := helse.closed_behaves hMw hnames hrun
        rwa [Module.ahead_of_nil (body_nil (hemptye _ (Nat.lt_add_one k) h₁))] at hend

end Graph

/-! ## Statements become graphs -/

section Forward

variable {x y : Option Value} {t₁ w : Compiler} {k : ℕ}

lemma insertFunction_apply (hs : t.module.Stands f b) : insertFunction t = some (.ok (f, t)) := by
  have hread : insertBlock t = some (.ok (some b, t)) := by rw [insertBlock, read, hs.point]
  rw [insertFunction, Comp.bind_apply hread]
  show (read (fun s => s.module.parent b) >>= deref) t = _
  rw [Comp.bind_apply (read_apply _ t), hs.parent]
  rfl

lemma createBlock_apply (name : String) (parent : Option FunctionId) :
    createBlock name parent t = some (.ok (t.module.blocks.length, t.issue (.createBlock name parent))) :=
  rfl

lemma createCondBr_apply (cond : Option Value) (ifTrue ifFalse : BlockId) :
    createCondBr cond ifTrue ifFalse t =
      some (.ok ((), t.issue (.append (.condBr cond ifTrue ifFalse)))) := rfl

lemma unlessTerminated_apply (hs : t.module.Stands f b) (d : BlockId) :
    unlessTerminated (createBr d) t = some (.ok ((), t.closed (.br d))) := by
  have hread : insertBlock t = some (.ok (some b, t)) := by rw [insertBlock, read, hs.point]
  rw [unlessTerminated, Comp.bind_apply hread]
  show (read (fun s => s.module.hasTerminator b) >>= fun z => if z then pure () else createBr d) t = _
  rw [Comp.bind_apply (read_apply _ t), Compiler.closed, hs.point]
  cases hterm : t.module.hasTerminator b with
  | true => simp only [hterm, if_true]; rfl
  | false => simp only [hterm]; rfl

lemma codegen_kNullNode (hn : 0 < n) : (methods P n).codegen kNullNode t = some (.ok (none, t)) := by
  obtain ⟨n, rfl⟩ := Nat.exists_eq_add_of_lt hn
  show codegen P (methods P (0 + n)) kNullNode t = _
  rw [codegen, if_pos rfl]
  rfl

/-- The visit of a condition, from the visits of its parts. -/
lemma codegen_conditional (hid : id ≠ kNullNode) (hnode : P.tree[id]? = some node)
    (hkind : node.kind = EvalExpr) (hn : 0 < n)
    (hcond : (methods P n).codegen node.data.cond t = some (.ok (some v, t₁)))
    (hs : t₁.module.Stands f b) (hk : t₁.module.blocks.length = k)
    (hthen : (methods P n).codegen node.data.thenBlock (t₁.branched f (some v)) = some (.ok (x, u)))
    {bu bw : BlockId} (hu : u.module.Stands f bu)
    (helse : (methods P n).codegen node.data.elseBlock
      ((u.closed (.br (k + 2))).movedTo f (k + 1)) = some (.ok (y, w)))
    (hw : w.module.Stands f bw) :
    (methods P (n + 1)).codegen id t =
      some (.ok (none, (w.closed (.br (k + 2))).movedTo f (k + 2))) := by
  subst hk
  show codegen P (methods P n) id t = _
  rw [codegen_of_kind _ hid hnode, hkind]
  show codegenEvalExpr P (methods P n) id t = _
  rw [codegenEvalExpr, getNode_eq hnode, Comp.bind_apply (Comp.pure_apply _ t), Comp.bind_apply hcond,
    Comp.bind_apply (insertFunction_apply hs), Comp.bind_apply (createBlock_apply _ _),
    Comp.bind_apply (createBlock_apply _ _), Comp.bind_apply (createBlock_apply _ _)]
  simp only [blocks_issue_createBlock]
  rw [Comp.bind_apply (createCondBr_apply _ _ _), Comp.bind_apply (emit_apply _ _)]
  show ((methods P n).codegen node.data.thenBlock >>= fun _ => _) (t₁.branched f (some v)) = _
  rw [Comp.bind_apply hthen, Comp.bind_apply (unlessTerminated_apply hu _),
    Comp.bind_apply (emit_apply _ _), Comp.bind_apply (emit_apply _ _), Comp.ite_apply]
  split_ifs with hnull
  · show ((methods P n).codegen node.data.elseBlock >>= fun _ => _) ((u.closed _).movedTo f _) = _
    rw [Comp.bind_apply helse, Comp.bind_apply (unlessTerminated_apply hw _)]
    rfl
  · rw [not_not.mp hnull, codegen_kNullNode hn] at helse
    cases helse
    show (unlessTerminated _ >>= fun _ => _) ((u.closed _).movedTo f _) = _
    rw [Comp.bind_apply (unlessTerminated_apply hw _)]
    rfl

/-- The visit of a `return`, from that of its operand. -/
lemma codegen_return (hid : id ≠ kNullNode) (hnode : P.tree[id]? = some node)
    (hkind : node.kind = UnaryExpr) (hop : node.data.op = kReturn.code)
    (hrun : (if node.data.operand ≠ kNullNode then (methods P n).codegen node.data.operand
      else pure none) t = some (.ok (x, u))) :
    (methods P (n + 1)).codegen id t = some (.ok (some (.instruction u.module.values .void),
      u.issue (.append (.ret x)))) := by
  show codegen P (methods P n) id t = _
  rw [codegen_of_kind _ hid hnode, hkind]
  show codegenUnaryExpr P (methods P n) id t = _
  rw [codegenUnaryExpr, getNode_eq hnode, Comp.bind_apply (Comp.pure_apply _ t), if_pos hop, Comp.ite_apply]
  split_ifs at hrun ⊢
  · rw [Comp.bind_apply hrun]
    rfl
  · cases hrun
    rfl

end Forward

/-- The visit of a statement builds its graph. -/
lemma codegen_statement {st : Statement} (hfold : FoldsWords P.host) (hst : StatementAt P id st)
    (hn : st.depth ≤ n) (ht : Scoped t E st.names st.calls) (hs : t.module.Stands f b)
    (hopen : OpenCode (t.module.code b)) :
    ∃ x t' b', (methods P n).codegen id t = some (.ok (x, t')) ∧ Graph E st f t b t' b' := by
  induction hst generalizing n t b with
  | skip => exact ⟨none, t, b, codegen_kNullNode hn, .skip hs hopen⟩
  | expr he =>
      obtain ⟨v, code, hrun, hcode, -, hperform⟩ := codegen_term hfold he hn ht
      exact ⟨_, _, b, hrun, .expr hs hopen hcode hperform⟩
  | @ret id node e hid hnode hkind hop he =>
      obtain ⟨n, rfl⟩ := Nat.exists_eq_add_of_lt (Nat.lt_of_lt_of_le (Nat.succ_pos _) hn)
      rw [Nat.zero_add] at hn ⊢
      obtain ⟨v, code, hrun, hcode, -, hperform⟩ := codegen_term hfold he (Nat.le_of_succ_le_succ hn) ht
      refine ⟨_, _, b, codegen_return hid hnode hkind hop ?_, .ret hs hopen hcode hperform⟩
      rw [if_pos he.ne_null]
      exact hrun
  | @retVoid id node hid hnode hkind hop he =>
      obtain ⟨n, rfl⟩ := Nat.exists_eq_add_of_lt hn
      refine ⟨_, _, b, codegen_return hid hnode hkind hop ?_, .retVoid hs hopen⟩
      rw [if_neg (not_not.mpr he)]
      rfl
  | @ite id node e st st' hid hnode hkind he hst hst' ih ih' =>
      obtain ⟨n, rfl⟩ := Nat.exists_eq_add_of_lt (Nat.lt_of_lt_of_le (Nat.succ_pos _) hn)
      rw [Nat.zero_add] at hn ⊢
      have hdepth : max e.depth (max st.depth st'.depth) ≤ n := Nat.le_of_succ_le_succ hn
      obtain ⟨hde, hdst, hdst'⟩ : e.depth ≤ n ∧ st.depth ≤ n ∧ st'.depth ≤ n := by omega
      obtain ⟨v, code, hcond, hcode, -, hperform⟩ := codegen_term hfold he hde ht.left
      have hs₁ := (stands_appends hs hcode).1
      obtain ⟨hstands, -, hempty, -⟩ := Graph.branched_spec hs₁ rfl (some v)
      have hadds := (Adds.appends t code).trans (Graph.adds_branched _ f (some v))
      obtain ⟨x, u, bu, hthen, hgraph⟩ := ih hdst
        (ht.right.left.adds hadds hstands.point_ne_none) hstands (hempty _ le_rfl ▸ openCode_nil)
      obtain ⟨hstandse, hemptye, -⟩ := Graph.ite_entry hs₁ rfl hgraph
      have haddse := ((hadds.trans hgraph.adds).closed
        (.br ((t.appends code).module.blocks.length + 2))).movedTo f
          ((grows_appends t code).blocks.trans (Nat.le_add_right _ 1))
      obtain ⟨y, w, bw, helse, hgraph'⟩ := ih' hdst'
        (ht.right.right.adds haddse hstandse.point_ne_none) hstandse
        (hemptye _ (Nat.lt_add_one _) (Nat.add_lt_add_left (by decide) _) ▸ openCode_nil)
      exact ⟨_, _, _, codegen_conditional hid hnode hkind (e.depth_pos.trans_le hde) hcond hs₁ rfl hthen
        hgraph.stands helse hgraph'.stands, .ite hs hopen hcode hperform rfl hgraph hgraph'⟩

/-! ## The modules that are built on a graph -/

/-- From `s` to `t` operations have been issued, and only stack slots have come at the beginning of
functions. -/
def Built (s t : Compiler) : Prop := ∃ ops, t.ops = s.ops ++ ops ∧ ∀ op ∈ ops, op.Regular

namespace Built

lemma refl (s : Compiler) : Built s s := ⟨[], (List.append_nil _).symm, fun _ h => absurd h List.not_mem_nil⟩

lemma trans (h : Built s t) (h' : Built t u) : Built s u := by
  obtain ⟨ops, hops, hregular⟩ := h
  obtain ⟨ops', hops', hregular'⟩ := h'
  exact ⟨ops ++ ops', by rw [hops', hops, List.append_assoc],
    List.forall_mem_append.mpr ⟨hregular, hregular'⟩⟩

lemma of_ops (h : t.ops = s.ops) : Built s t := by
  rw [Built, h]
  exact refl s

lemma issue (h : Built s t) (op : BuilderOp) (hop : op.Regular) : Built s (t.issue op) :=
  h.trans ⟨[op], rfl, List.forall_mem_singleton.mpr hop⟩

lemma closed (h : Built s t) (i : Instruction) : Built s (t.closed i) := by
  rw [Compiler.closed]
  split
  · split_ifs
    · exact h
    · exact h.issue (.append i) trivial
  · exact h

lemma movedTo (h : Built s t) (f : FunctionId) (b : BlockId) : Built s (t.movedTo f b) :=
  (h.issue (.insertBlock f b) trivial).issue (.setInsertPoint b) trivial

lemma popped (h : Built s t) : Built s t.popped := by
  refine h.trans (of_ops ?_)
  rw [Compiler.popped]
  split <;> rfl

lemma branched (s : Compiler) (f : FunctionId) (v : Option Value) : Built s (s.branched f v) :=
  (((((refl s).issue (.createBlock _ _) trivial).issue (.createBlock _ _) trivial).issue
    (.createBlock _ _) trivial).issue (.append _) trivial).issue (.setInsertPoint _) trivial

lemma looped (s : Compiler) (f : FunctionId) : Built s (s.looped f) :=
  (((((refl s).issue (.createBlock _ _) trivial).issue (.createBlock _ _) trivial).issue
    (.createBlock _ _) trivial).issue (.append _) trivial).issue (.setInsertPoint _) trivial

lemma entered (s : Compiler) (id : NodeId) (name : List Byte) (retType : IRType) :
    Built s (s.entered id name retType) := by
  have hknown : Built s ((s.issue (.createFunction name retType [])).onScope fun scope =>
      { scope with
        functions := Function.update scope.functions name
          (some { llvmFunc := s.module.functions.length, declNodeId := id }) }) :=
    ((refl s).issue (.createFunction name retType []) trivial).trans (of_ops rfl)
  exact ((hknown.issue (.createBlock "entry" _) trivial).issue (.setInsertPoint _) trivial).trans
    (of_ops rfl)

/-- Whatever is visited. -/
lemma visits {ids : List NodeId} (h : Visits P ids s t) : Built s t := by
  induction h with
  | nil s | null s => exact refl s
  | cons _ _ ih ih' => exact ih.trans ih'
  | plain _ _ _ _ _ _ hrest ih =>
      obtain ⟨ops, hops, hplain⟩ := hrest.ops
      exact ih.trans ⟨ops, hops, fun op hop => (hplain op hop).regular⟩
  | returns _ _ _ _ _ ih => exact ih.issue _ trivial
  | unit _ _ _ _ ih => exact Built.popped ih
  | function _ _ _ _ _ ih => exact (((entered ..).trans ih).closed _).popped
  | conditional _ _ _ _ _ _ _ _ _ _ ih ih' ih'' =>
      exact ((((((ih.trans (branched ..)).trans ih').closed _).movedTo _ _).trans ih'').closed _).movedTo _ _
  | loop _ _ _ _ _ _ _ _ ih ih' =>
      refine ((trans ?_ ih').issue (.append _) trivial).movedTo _ _
      exact (((looped ..).trans ih).issue (.append _) trivial).issue (.setInsertPoint _) trivial

lemma codegen {k : ℕ} {x : Option Value} (h : (methods P k).codegen id s = some (.ok (x, t))) :
    Built s t := visits (visits_of_codegen h)

lemma onto (h : Built s t) : Module.Onto s.module t.module := by
  obtain ⟨ops, hops, hregular⟩ := h
  rw [module_of_ops hops]
  exact Module.onto_foldl ops hregular

end Built

/-- The nodes of `if(x<g())g();else return x;`. -/
def conditionalCall : Program where
  tree :=
    [default, ⟨.IdentifierExpr, {}, 3, 1, Data.literal .Ident 0⟩,
      ⟨.IdentifierExpr, {}, 5, 1, Data.literal .Ident 0⟩, plainNode .CallExpr 8 (Data.call 2 kNullNode),
      plainNode .BinaryExpr 4 (Data.binary .Lesser 1 3), ⟨.IdentifierExpr, {}, 9, 1, Data.literal .Ident 0⟩,
      plainNode .CallExpr 12 (Data.call 5 kNullNode), ⟨.IdentifierExpr, {}, 25, 1, Data.literal .Ident 0⟩,
      plainNode .UnaryExpr 18 (Data.unary .kReturn 7), plainNode .EvalExpr 0 (Data.evalOp 4 6 8)]
  source := bytes "if(x<g())g();else return x;"
  host := silentHost

/-- In a function with the variable `x`, and a function `g` that has been declared before. -/
def insideFunction : Compiler where
  scopes :=
    [{ symbols := fun x => if x = bytes "x" then
        some { value := some (.alloca 0), type := .int32, isConst := false, isCompileTime := false } else none
       functions := fun x => if x = bytes "g" then some { llvmFunc := 0 } else none }]
  ops :=
    [.createFunction (bytes "g") .int32 [], .createFunction (bytes "f") .int32 [],
      .createBlock "entry" (some 1), .setInsertPoint 0, .prepend 1 (.alloca 0 .int32 (bytes "x"))]

/-- Its entry block is its only one. -/
lemma building_insideFunction : insideFunction.module.Building 1 0 := by
  let declared : Compiler := ({} : Compiler).issue (.createFunction (bytes "g") .int32 [])
  have hsound : declared.module.Sound := sound_start.same (.createFunction _ _ _ _) (Nat.zero_le _)
  have hopen := open_entered hsound 0 (bytes "f") .int32
  exact (@Module.Building.plain _ _ _ (.prepend 1 (.alloca 0 .int32 (bytes "x"))) hopen.building
    hopen.code rfl).1

end Compiler

end LogicCompiler
