import LogicCompiler.Codegen.Assignments
import LogicCompiler.Codegen.Literals
import LogicCompiler.Library.Execution

/-!
# Constant expressions

Integer expressions are evaluated twice in the code generator: by `evaluateConstantExpr`, over
constants, and by the code that `codegen` emits, over what the stack slots hold.  The emitted code
computes the value in 32-bit arithmetic (`codegen_computes`).  The evaluator has no branch for a unary
minus, and takes the poison of an undefined division for a result (`evaluate_eq`); so that it does what
it should exactly if there is a minus where the value is undefined and none where it is defined
(`evaluates_iff`).
-/

namespace LogicCompiler

open TokenType NodeKind LLVM Lexer Fuel

/-! ## Integer expressions -/

/-- The operations that the evaluator knows. -/
inductive ArithOp where
  | add | sub | mul | div
  deriving DecidableEq, Repr

namespace ArithOp

/-- The token an operation is written with. -/
def token : ArithOp → TokenType
  | add => Plus
  | sub => Minus
  | mul => .Star
  | div => Slash

/-- The operation of LLVM that computes it on integers. -/
def opcode : ArithOp → Opcode
  | add => .Add
  | sub => .Sub
  | mul => .Mul
  | div => .SDiv

lemma isArithmetic (op : ArithOp) : op.opcode.isArithmetic = true := by cases op <;> rfl

lemma constantOpcode_token (op : ArithOp) :
    Compiler.constantOpcode op.token.code false = some op.opcode := by cases op <;> decide

lemma find_token (op : ArithOp) : ∃ floatOp name,
    Compiler.binaryOpcodes.find? (fun e => e.1.code == op.token.code) =
      some (op.token, floatOp, op.opcode, name) := by
  cases op <;> exact ⟨_, _, rfl⟩

end ArithOp

/-- An expression of integer literals, names, unary minus and the four operators. -/
inductive Arith where
  | literal (n : ℕ)
  | name (x : List Byte)
  | neg (e : Arith)
  | binary (op : ArithOp) (l r : Arith)
  deriving DecidableEq, Repr

namespace Arith

/-- The names that stand in the expression, from left to right. -/
def names : Arith → List (List Byte)
  | literal _ => []
  | name x => [x]
  | neg e => e.names
  | binary _ l r => l.names ++ r.names

/-- A negation stands somewhere in the expression. -/
def hasNeg : Arith → Bool
  | literal _ | name _ => false
  | neg _ => true
  | binary _ l r => l.hasNeg || r.hasNeg

/-- The levels of calls that the expression takes. -/
def depth : Arith → ℕ
  | literal _ | name _ => 1
  | neg e => e.depth + 1
  | binary _ l r => max l.depth r.depth + 1

/-- The value in 32-bit arithmetic; `none` when a division is undefined. -/
def value (env : List Byte → BitVec 32) : Arith → Option (BitVec 32)
  | literal n => some (BitVec.ofNat 32 n)
  | name x => some (env x)
  | neg e => (e.value env).map fun v => -v
  | binary op l r => op.opcode.int32 (l.value env) (r.value env)

lemma depth_pos (e : Arith) : 0 < e.depth := by cases e <;> exact Nat.succ_pos _

end Arith

namespace Compiler

variable {P : Program} {c : CodegenCalls} {s t : Compiler} {n : ℕ} {id : NodeId} {node : Node}
  {e l r : Arith} {env : List Byte → BitVec 32} {mem : ℕ → Option (BitVec 32)} {v w : Value}
  {code : List Instruction}

/-- The node `id` is the root of the expression `e`. -/
inductive Represents (P : Program) : NodeId → Arith → Prop
  | literal {id : NodeId} {node : Node} {d suffix : List Byte} (hid : id ≠ kNullNode)
      (hnode : P.tree[id]? = some node) (hkind : node.kind = LiteralExpr)
      (hop : node.data.op = LInt.code)
      (htext : ∀ s, getNodeSnippet P id s = some (.ok (d ++ suffix, s)))
      (hne : d ≠ []) (hd : ∀ c ∈ d, isDigit c = true) (hsuffix : IsSuffix suffix)
      (hrange : positional 10 d < 2 ^ 31) : Represents P id (.literal (positional 10 d))
  | name {id : NodeId} {x : List Byte} (h : IsName P id x) : Represents P id (.name x)
  | neg {id : NodeId} {node : Node} {e : Arith} (hid : id ≠ kNullNode)
      (hnode : P.tree[id]? = some node) (hkind : node.kind = UnaryExpr)
      (hop : node.data.op = Minus.code) (he : Represents P node.data.operand e) :
      Represents P id (.neg e)
  | binary {id : NodeId} {node : Node} {op : ArithOp} {l r : Arith} (hid : id ≠ kNullNode)
      (hnode : P.tree[id]? = some node) (hkind : node.kind = BinaryExpr)
      (hop : node.data.op = op.token.code) (hl : Represents P node.data.lhs l)
      (hr : Represents P node.data.rhs r) : Represents P id (.binary op l r)

/-- The names are compile-time constants, with the values in `env`. -/
def ConstantNames (s : Compiler) (env : List Byte → BitVec 32) (e : Arith) : Prop :=
  ∀ x ∈ e.names, ∃ sym, s.lookupVar x = some sym ∧ sym.isCompileTime = true ∧
    sym.value = some (.int32 (some (env x)))

/-- The names are variables in stack slots, which hold the values in `env`. -/
def RuntimeNames (t : Compiler) (mem : ℕ → Option (BitVec 32)) (env : List Byte → BitVec 32)
    (e : Arith) : Prop :=
  t.module.insertBlock ≠ none ∧ ∀ x ∈ e.names, ∃ sym slot, t.lookupVar x = some sym ∧
    sym.value = some (.alloca slot) ∧ sym.type = .int32 ∧ mem slot = some (env x)

/-- `ConstantFoldBinaryOpOperands` on 32-bit integers; what is undefined is poison. -/
def FoldsInt32 (host : Host) : Prop :=
  ∀ (op : ArithOp) (a b : Option (BitVec 32)),
    host.constantFold op.opcode (.int32 a) (.int32 b) = some (.int32 (op.opcode.int32 a b))

/-- The folder of `IRBuilder` on 32-bit integers: it folds constants, and nothing else. -/
structure BuildsInt32 (host : Host) : Prop where
  binary : ∀ (op : ArithOp) (l r v : Value), l.type = some .int32 → r.type = some .int32 →
    host.foldBinary op.opcode l r = some v →
      ∃ a b, l = .int32 a ∧ r = .int32 b ∧ v = .int32 (op.opcode.int32 a b)
  unary : ∀ l v : Value, l.type = some .int32 → host.foldUnary .Neg l = some v →
    ∃ a, l = .int32 a ∧ v = .int32 (a.map fun a => -a)

/-! ## The evaluator -/

lemma literalValue_int (s : Compiler) {d suffix : List Byte} (hne : d ≠ [])
    (hd : ∀ c ∈ d, isDigit c = true) (hsuffix : IsSuffix suffix)
    (hrange : positional 10 d < 2 ^ 31) :
    literalValue P LInt.code (d ++ suffix) s =
      some (.ok (some (.int32 (some (BitVec.ofNat 32 (positional 10 d)))), s)) := by
  have hk : (d ++ suffix).length ≠ 0 := by
    rw [List.length_append]
    have := List.length_pos_iff.mpr hne
    omega
  have hstoi := stoi_take_int (k := (d ++ suffix).length) hne hd hsuffix
  rw [List.take_length, if_neg hk, List.take_of_length_le (by simp), asInt32, if_pos hrange] at hstoi
  have hvalue : (BitVec.ofNat 32 (positional 10 d)).toInt = positional 10 d := by
    rw [BitVec.toInt_ofNat', Int.bmod_eq_of_le (by omega) (by omega)]
  rw [literalValue, if_pos rfl, hstoi, Value.int32, hvalue]
  rfl

lemma evaluate_literal {d suffix : List Byte} (hid : id ≠ kNullNode) (hnode : P.tree[id]? = some node)
    (hkind : node.kind = LiteralExpr) (hop : node.data.op = LInt.code)
    (htext : ∀ s, getNodeSnippet P id s = some (.ok (d ++ suffix, s))) (hne : d ≠ [])
    (hd : ∀ c ∈ d, isDigit c = true) (hsuffix : IsSuffix suffix)
    (hrange : positional 10 d < 2 ^ 31) :
    evaluateConstantExpr P c id s =
      some (.ok (some (.int32 (some (BitVec.ofNat 32 (positional 10 d)))), s)) := by
  rw [evaluateConstantExpr, if_neg hid, getNode_eq hnode, Comp.bind_apply (Comp.pure_apply _ s), hkind]
  show (getNodeSnippet P id >>= fun text => _) s = _
  rw [Comp.bind_apply (htext s), hop, Comp.bind_apply (literalValue_int s hne hd hsuffix hrange)]
  rfl

lemma evaluate_name {x : List Byte} {sym : Symbol} (h : IsName P id x)
    (hlookup : s.lookupVar x = some sym) (hcomp : sym.isCompileTime = true)
    (hvalue : sym.value = some v) (hv : v.isConstant = true) :
    evaluateConstantExpr P c id s = some (.ok (some v, s)) := by
  rcases h.node with ⟨node, hnode, hkind⟩
  rw [evaluateConstantExpr, if_neg h.valid, getNode_eq hnode, Comp.bind_apply (Comp.pure_apply _ s),
    hkind]
  show (getNodeSnippet P id >>= fun name => _) s = _
  rw [Comp.bind_apply (h.text s), Comp.bind_apply (read_apply _ s), hlookup]
  simp only [hcomp, hvalue]
  show (pure (if v.isConstant then some v else none) : CodegenM (Option Value)) s = _
  rw [hv]
  rfl

/-- There is no branch for a unary expression. -/
lemma evaluate_unary (hid : id ≠ kNullNode) (hnode : P.tree[id]? = some node)
    (hkind : node.kind = UnaryExpr) :
    ∃ message, evaluateConstantExpr P c id s = some (.error (.runtimeError message)) := by
  rw [evaluateConstantExpr, if_neg hid, getNode_eq hnode, Comp.bind_apply (Comp.pure_apply _ s), hkind]
  exact ⟨_, rfl⟩

/-- `evaluateConstantExpr` of a binary expression. -/
lemma evaluate_binary (hid : id ≠ kNullNode) (hnode : P.tree[id]? = some node)
    (hkind : node.kind = BinaryExpr) :
    ∃ combine : Option Value → Option Value → CodegenM (Option Value),
      evaluateConstantExpr P c id s = (do
        let lhs ← c.evaluateConstantExpr node.data.lhs
        let rhs ← c.evaluateConstantExpr node.data.rhs
        combine lhs rhs) s ∧
      ∀ (op : ArithOp) (a b : Option (BitVec 32)) (v : Value), node.data.op = op.token.code →
        P.host.constantFold op.opcode (.int32 a) (.int32 b) = some v →
          combine (some (.int32 a)) (some (.int32 b)) s = some (.ok (some v, s)) := by
  rw [evaluateConstantExpr, if_neg hid, getNode_eq hnode, Comp.bind_apply (Comp.pure_apply _ s), hkind]
  refine ⟨_, rfl, fun op a b v hop hfold => ?_⟩
  dsimp only
  rw [hop, Value.isFloat_int32 (Value.type_int32 a), op.constantOpcode_token]
  dsimp only
  rw [hfold]
  rfl

/-- The evaluator throws at a unary minus, and returns the constant of anything else. -/
lemma evaluate_eq (hfold : FoldsInt32 P.host) (he : Represents P id e) (hn : e.depth ≤ n)
    (hs : ConstantNames s env e) :
    if e.hasNeg then ∃ message,
      (methods P n).evaluateConstantExpr id s = some (.error (.runtimeError message))
    else (methods P n).evaluateConstantExpr id s = some (.ok (some (.int32 (e.value env)), s)) := by
  induction he generalizing n with
  | literal hid hnode hkind hop htext hne hd hsuffix hrange =>
      rcases Nat.exists_eq_add_of_lt (Nat.lt_of_lt_of_le (Arith.depth_pos _) hn) with ⟨n, rfl⟩
      exact evaluate_literal hid hnode hkind hop htext hne hd hsuffix hrange
  | name h =>
      rcases Nat.exists_eq_add_of_lt (Nat.lt_of_lt_of_le (Arith.depth_pos _) hn) with ⟨n, rfl⟩
      rcases hs _ (List.mem_singleton_self _) with ⟨sym, hlookup, hcomp, hvalue⟩
      exact evaluate_name h hlookup hcomp hvalue rfl
  | neg hid hnode hkind hop he ih =>
      rcases Nat.exists_eq_add_of_lt (Nat.lt_of_lt_of_le (Arith.depth_pos _) hn) with ⟨n, rfl⟩
      exact evaluate_unary hid hnode hkind
  | @binary id node op l r hid hnode hkind hop hl hr ihl ihr =>
      rcases Nat.exists_eq_add_of_lt (Nat.lt_of_lt_of_le (Arith.depth_pos _) hn) with ⟨n, rfl⟩
      rw [Nat.zero_add] at hn ⊢
      have hdepth : max l.depth r.depth ≤ n := Nat.le_of_succ_le_succ hn
      replace ihl := ihl (n := n) (by omega) fun x hx => hs x (List.mem_append_left _ hx)
      replace ihr := ihr (n := n) (by omega) fun x hx => hs x (List.mem_append_right _ hx)
      rcases evaluate_binary (c := methods P n) (s := s) hid hnode hkind with ⟨combine, hrun, hcombine⟩
      show if (l.hasNeg || r.hasNeg) = true then ∃ message, evaluateConstantExpr P (methods P n) id s = _
        else evaluateConstantExpr P (methods P n) id s = _
      rw [hrun]
      cases hnegl : l.hasNeg with
      | true =>
          rw [if_pos hnegl] at ihl
          rcases ihl with ⟨message, ihl⟩
          refine ⟨message, ?_⟩
          rw [Comp.bind_eq, ihl]
      | false =>
          rw [if_neg (by simp [hnegl])] at ihl
          rw [Comp.bind_apply ihl]
          cases hnegr : r.hasNeg with
          | true =>
              rw [if_pos hnegr] at ihr
              rcases ihr with ⟨message, ihr⟩
              refine ⟨message, ?_⟩
              rw [Comp.bind_eq, ihr]
          | false =>
              rw [if_neg (by simp [hnegr])] at ihr
              rw [if_neg (by decide), Comp.bind_apply ihr]
              exact hcombine op _ _ _ hop (hfold op _ _)

/-! ## The emitted code -/

/-- Instructions at the insertion point. -/
def appends (t : Compiler) (code : List Instruction) : Compiler :=
  { t with ops := t.ops ++ code.map .append }

lemma appends_nil (t : Compiler) : t.appends [] = t := by
  rw [appends, List.map_nil, List.append_nil]

lemma appends_append (t : Compiler) (code code' : List Instruction) :
    t.appends (code ++ code') = (t.appends code).appends code' := by
  rw [appends, appends, appends, List.map_append, List.append_assoc]

lemma appends_snoc (t : Compiler) (code : List Instruction) (i : Instruction) :
    t.appends (code ++ [i]) = (t.appends code).issue (.append i) := t.appends_append code [i]

lemma values_insertBlock_appends (t : Compiler) (code : List Instruction) :
    (t.appends code).module.values = t.module.values + code.length ∧
      (t.appends code).module.insertBlock = t.module.insertBlock := by
  induction code using List.reverseRecOn with
  | nil => rw [appends_nil]; exact ⟨rfl, rfl⟩
  | append_singleton code i ih =>
      rw [appends_snoc, module_issue, @Module.insertBlock_exec _ (.append i) trivial,
        Module.exec, List.length_append]
      refine ⟨?_, ih.2⟩
      cases (t.appends code).module.insertBlock with
      | none => exact congrArg (· + 1) ih.1
      | some b => exact congrArg (· + 1) ih.1

lemma RuntimeNames.appends (h : RuntimeNames t mem env e) (code : List Instruction) :
    RuntimeNames (t.appends code) mem env e :=
  ⟨(values_insertBlock_appends t code).2 ▸ h.1, h.2⟩

/-- At `t`, the node `id` becomes code that computes `o`. -/
def Emits (P : Program) (n : ℕ) (t : Compiler) (id : NodeId) (mem : ℕ → Option (BitVec 32))
    (o : Option (BitVec 32)) : Prop :=
  ∃ v code, (methods P n).codegen id t = some (.ok (some v, t.appends code)) ∧
    Computes mem t.module.values code v o

/-- An operation is folded, or becomes an instruction behind the code of its operands. -/
lemma createBinary_apply {op : ArithOp} {code' : List Instruction} {a b : Option (BitVec 32)}
    (name : String) (hbuild : BuildsInt32 P.host) (hl : Computes mem t.module.values code v a)
    (hr : Computes mem (t.module.values + code.length) code' w b) :
    ∃ v' code'', createBinary P.host op.opcode v w name (t.appends (code ++ code')) =
        some (.ok (v', t.appends code'')) ∧
      Computes mem t.module.values code'' v' (op.opcode.int32 a b) := by
  rw [createBinary]
  cases hfold : P.host.foldBinary op.opcode v w with
  | some v' =>
      rcases hbuild.binary op v w v' hl.type hr.type hfold with ⟨a', b', rfl, rfl, rfl⟩
      rw [hl.eq_of_int32, hr.eq_of_int32]
      exact ⟨_, code ++ code', rfl, hl.folded hr⟩
  | none =>
      have hvalues := (values_insertBlock_appends t (code ++ code')).1
      refine ⟨_, _, ?_, hl.binary name op.isArithmetic hr⟩
      rw [appends_snoc, ← hvalues]
      have htype : op.opcode.resultType (v.type.getD .void) = .int32 := by
        rw [hl.type]
        cases op <;> rfl
      show some (Except.ok (Value.instruction _ (op.opcode.resultType (v.type.getD .void)), _)) = _
      rw [htype]
      rfl

lemma createUnary_apply {a : Option (BitVec 32)} (name : String) (hbuild : BuildsInt32 P.host)
    (h : Computes mem t.module.values code v a) :
    ∃ v' code', createUnary P.host .Neg v name (t.appends code) = some (.ok (v', t.appends code')) ∧
      Computes mem t.module.values code' v' (a.map fun a => -a) := by
  rw [createUnary]
  cases hfold : P.host.foldUnary .Neg v with
  | some v' =>
      rcases hbuild.unary v v' h.type hfold with ⟨a', rfl, rfl⟩
      rw [h.eq_of_int32]
      exact ⟨_, code, rfl, h.negated⟩
  | none =>
      have hvalues := (values_insertBlock_appends t code).1
      refine ⟨_, _, ?_, h.neg name⟩
      rw [appends_snoc, ← hvalues]
      show some (Except.ok (Value.instruction _ (v.type.getD .void), _)) = _
      rw [h.type]
      rfl

/-- The visit of an expression emits code that computes its value. -/
lemma codegen_computes (hbuild : BuildsInt32 P.host) (he : Represents P id e) (hn : e.depth ≤ n)
    (ht : RuntimeNames t mem env e) : Emits P n t id mem (e.value env) := by
  induction he generalizing n t with
  | @literal id node d suffix hid hnode hkind hop htext hne hd hsuffix hrange =>
      rcases Nat.exists_eq_add_of_lt (Nat.lt_of_lt_of_le (Arith.depth_pos _) hn) with ⟨n, rfl⟩
      refine ⟨_, [], ?_, .int32⟩
      show codegen P (methods P _) id t = _
      rw [appends_nil, codegen_of_kind _ hid hnode, hkind]
      show codegenLiteralExpr P id t = _
      rw [codegenLiteralExpr, Comp.bind_apply (htext t), getNode_eq hnode,
        Comp.bind_apply (Comp.pure_apply _ t), hop]
      exact literalValue_int t hne hd hsuffix hrange
  | @name id x h =>
      rcases Nat.exists_eq_add_of_lt (Nat.lt_of_lt_of_le (Arith.depth_pos _) hn) with ⟨n, rfl⟩
      rcases ht.2 x (List.mem_singleton_self x) with ⟨sym, slot, hlookup, hvalue, htype, hmem⟩
      have hrun := codegen_slot (n := 0 + n) h hlookup hvalue ht.1
      rw [htype] at hrun
      refine ⟨_, [.load t.module.values .int32 (.alloca slot) x], hrun, ?_⟩
      rw [Arith.value, ← hmem]
      exact .load
  | @neg id node e hid hnode hkind hop he ih =>
      rcases Nat.exists_eq_add_of_lt (Nat.lt_of_lt_of_le (Arith.depth_pos _) hn) with ⟨n, rfl⟩
      rw [Nat.zero_add] at hn ⊢
      rcases ih (n := n) (Nat.le_of_succ_le_succ hn) ht with ⟨v, code, hrun, hcode⟩
      rcases createUnary_apply "negtmp" hbuild hcode with ⟨v', code', hcreate, hcode'⟩
      refine ⟨v', code', ?_, hcode'⟩
      show codegen P (methods P n) id t = _
      rw [codegen_of_kind _ hid hnode, hkind]
      show codegenUnaryExpr P (methods P n) id t = _
      rw [codegenUnaryExpr, getNode_eq hnode, Comp.bind_apply (Comp.pure_apply _ t), hop,
        if_neg (by decide), Comp.bind_apply hrun, if_pos rfl]
      show (createUnary P.host (if v.isFloat then .FNeg else .Neg) v "negtmp" >>= fun v => _) _ = _
      rw [Value.isFloat_int32 hcode.type, if_neg (by decide), Comp.bind_apply hcreate]
      rfl
  | @binary id node op l r hid hnode hkind hop hl hr ihl ihr =>
      rcases Nat.exists_eq_add_of_lt (Nat.lt_of_lt_of_le (Arith.depth_pos _) hn) with ⟨n, rfl⟩
      rw [Nat.zero_add] at hn ⊢
      have hdepth : max l.depth r.depth ≤ n := Nat.le_of_succ_le_succ hn
      rcases ihl (n := n) (t := t) (by omega)
        ⟨ht.1, fun x hx => ht.2 x (List.mem_append_left _ hx)⟩ with ⟨v, code, hrun, hcode⟩
      rcases ihr (n := n) (t := t.appends code) (by omega)
        (RuntimeNames.appends ⟨ht.1, fun x hx => ht.2 x (List.mem_append_right _ hx)⟩ code) with
        ⟨w, code', hrun', hcode'⟩
      rw [(values_insertBlock_appends t code).1] at hcode'
      rcases op.find_token with ⟨floatOp, name, hfind⟩
      rcases createBinary_apply name hbuild hcode hcode' with
        ⟨v', code'', hcreate, hcode''⟩
      refine ⟨v', code'', ?_, hcode''⟩
      show codegen P (methods P n) id t = _
      rw [codegen_of_kind _ hid hnode, hkind]
      show codegenBinaryExpr P (methods P n) id t = _
      rw [codegenBinaryExpr, getNode_eq hnode, Comp.bind_apply (Comp.pure_apply _ t),
        Comp.bind_apply hrun, Comp.bind_apply hrun', hop]
      dsimp only
      rw [hfind, Value.isFloat_int32 hcode.type, Value.isFloat_int32 hcode'.type]
      dsimp only
      rw [Bool.or_self, if_neg (by decide), ← appends_append, Comp.bind_apply hcreate]
      rfl

/-! ## The result -/

/-- At `s` the evaluator returns the value of the expression, which is what the code that is emitted at
`t` computes; and it throws exactly if there is none. -/
structure Evaluates (P : Program) (n : ℕ) (s t : Compiler) (id : NodeId)
    (mem : ℕ → Option (BitVec 32)) (value : Option (BitVec 32)) : Prop where
  returns : ∀ v, value = some v →
    (methods P n).evaluateConstantExpr id s = some (.ok (some (.int32 (some v)), s)) ∧
      Emits P n t id mem (some v)
  throws : (∃ failure, failure ≠ .crash ∧
    (methods P n).evaluateConstantExpr id s = some (.error failure)) ↔ value = none

lemma evaluates_of_evaluated {o : Option (BitVec 32)} (hcode : Emits P n t id mem o)
    (hrun : (methods P n).evaluateConstantExpr id s = some (.ok (some (.int32 o), s))) :
    Evaluates P n s t id mem o ↔ o ≠ none := by
  constructor
  · rintro ⟨-, hthrows⟩ hnone
    rcases hthrows.mpr hnone with ⟨failure, -, hfail⟩
    rw [hrun] at hfail
    cases hfail
  · refine fun hsome => ⟨?_, ?_⟩
    · rintro v rfl
      exact ⟨hrun, hcode⟩
    · refine ⟨?_, fun hnone => absurd hnone hsome⟩
      rintro ⟨failure, -, hfail⟩
      rw [hrun] at hfail
      cases hfail

lemma evaluates_of_thrown {o : Option (BitVec 32)} {message : List Byte}
    (hrun : (methods P n).evaluateConstantExpr id s = some (.error (.runtimeError message))) :
    Evaluates P n s t id mem o ↔ o = none := by
  constructor
  · rintro ⟨-, hthrows⟩
    exact hthrows.mp ⟨.runtimeError message, nofun, hrun⟩
  · rintro rfl
    exact ⟨nofun, fun _ => rfl, fun _ => ⟨.runtimeError message, nofun, hrun⟩⟩

/-- **Constant evaluation.**  The evaluator returns the 32-bit value that the emitted code computes,
and throws where there is none, exactly when the expression has a unary minus and no value, or a value
and no unary minus. -/
theorem evaluates_iff (hfold : FoldsInt32 P.host) (hbuild : BuildsInt32 P.host)
    (he : Represents P id e) (hn : e.depth ≤ n) (hs : ConstantNames s env e)
    (ht : RuntimeNames t mem env e) :
    Evaluates P n s t id mem (e.value env) ↔ (e.hasNeg = true ↔ e.value env = none) := by
  have heval := evaluate_eq hfold he hn hs
  split at heval
  · next hneg =>
      rcases heval with ⟨message, hrun⟩
      rw [evaluates_of_thrown hrun, hneg]
      simp
  · next hneg =>
      rw [evaluates_of_evaluated (codegen_computes hbuild he hn ht) heval]
      simp [hneg]

/-- A folder for 32-bit integers, and nothing else. -/
def int32Host : Host where
  stof _ := none
  constantFold op l r := some (.int32 (op.int32 (l.denote fun _ => none) (r.denote fun _ => none)))
  foldBinary op l r :=
    let a := l.denote fun _ => none
    let b := r.denote fun _ => none
    if l = .int32 a ∧ r = .int32 b then some (.int32 (op.int32 a b)) else none
  foldUnary op l :=
    let a := l.denote fun _ => none
    if op = .Neg ∧ l = .int32 a then some (.int32 (a.map fun a => -a)) else none

lemma int32Host_folds : FoldsInt32 int32Host := by
  intro op a b
  show some (Value.int32 (op.opcode.int32 ((Value.int32 a).denote _) ((Value.int32 b).denote _))) = _
  rw [Value.denote_int32, Value.denote_int32]

lemma int32Host_builds : BuildsInt32 int32Host where
  binary := by
    intro op l r v _ _ hfold
    simp only [int32Host, Option.ite_none_right_eq_some, Option.some.injEq] at hfold
    exact ⟨_, _, hfold.1.1, hfold.1.2, hfold.2.symm⟩
  unary := by
    intro l v _ hfold
    simp only [int32Host, Option.ite_none_right_eq_some, Option.some.injEq] at hfold
    exact ⟨_, hfold.1.2, hfold.2.symm⟩

/-- The nodes that the parser makes of a constant and its initialiser, a quotient of two digits. -/
def constantQuotient (a b : Byte) : Program where
  tree :=
    [default, ⟨.LiteralExpr, {}, 16, 1, Data.literal .LInt 0⟩,
      ⟨.LiteralExpr, {}, 18, 1, Data.literal .LInt 0⟩,
      plainNode .BinaryExpr 17 (Data.binary .Slash 1 2),
      plainNode .VarDecl 10 (Data.varDecl 5 6 3) { isConstexpr := true },
      ⟨.IdentifierExpr, {}, 10, 3, Data.literal .Ident 0⟩,
      ⟨.IdentifierExpr, {}, 14, 1, Data.literal .Ident 0⟩]
  source := bytes "constexpr int c=" ++ [a, '/'.toUInt8, b] ++ bytes ";"
  host := int32Host

/-- The nodes of a constant with a negative value. -/
def constantNegation : Program where
  tree :=
    [default, ⟨.LiteralExpr, {}, 17, 1, Data.literal .LInt 0⟩,
      ⟨.UnaryExpr, {}, 16, 1, ⟨Minus.code, 1, 0⟩⟩,
      plainNode .VarDecl 10 (Data.varDecl 4 5 2) { isConstexpr := true },
      ⟨.IdentifierExpr, {}, 10, 3, Data.literal .Ident 0⟩,
      ⟨.IdentifierExpr, {}, 14, 1, Data.literal .Ident 0⟩]
  source := bytes "constexpr int c=-3;"
  host := int32Host

lemma represents_digit {a : Byte} (hid : id ≠ kNullNode) (hnode : P.tree[id]? = some node)
    (hkind : node.kind = LiteralExpr) (hop : node.data.op = LInt.code) (ha : isDigit a = true)
    (htext : ∀ s, getNodeSnippet P id s = some (.ok ([a], s))) :
    Represents P id (.literal (a.toNat - 48)) := by
  have hvalue : positional 10 [a] = a.toNat - 48 := by simp [positional, digitValue, ha]
  have hrange : positional 10 [a] < 2 ^ 31 := by
    rw [hvalue]
    have := a.toNat_lt
    omega
  rw [← hvalue]
  refine .literal hid hnode hkind hop htext (List.cons_ne_nil a []) ?_ ?_ hrange
  · intro c hc
    rwa [List.mem_singleton.mp hc]
  · exact fun c hc => absurd hc List.not_mem_nil

lemma constantQuotient_represents {a b : Byte} (ha : isDigit a = true) (hb : isDigit b = true) :
    Represents (constantQuotient a b) 3
      (.binary .div (.literal (a.toNat - 48)) (.literal (b.toNat - 48))) :=
  .binary (by decide) rfl rfl rfl
    (represents_digit (by decide) rfl rfl rfl ha fun _ => rfl)
    (represents_digit (by decide) rfl rfl rfl hb fun _ => rfl)

lemma constantNegation_represents : Represents constantNegation 2 (.neg (.literal 3)) := by
  have hdigit : isDigit '3'.toUInt8 = true := by decide
  refine .neg (by decide) rfl rfl rfl ?_
  exact @represents_digit _ 1 _ _ (by decide) rfl rfl rfl hdigit fun _ => rfl

/-- `7/2` is evaluated to 3. -/
theorem evaluates_sample :
    let inFunction : Compiler := { ops := [.createBlock "entry" none, .setInsertPoint 0] }
    Evaluates (constantQuotient '7'.toUInt8 '2'.toUInt8) 2 {} inFunction 3 (fun _ => none) (some 3) := by
  intro inFunction
  have he := constantQuotient_represents (a := '7'.toUInt8) (b := '2'.toUInt8) (by decide) (by decide)
  have hnames : ConstantNames {} (fun _ => 0)
      (.binary .div (.literal 7) (.literal 2)) := nofun
  refine (evaluates_iff int32Host_folds int32Host_builds he (by decide) hnames
    ⟨by decide, nofun⟩).mpr ?_
  decide

/-- **`-3` is refused, and `1/0` is a constant.** -/
theorem not_evaluated_sample :
    Parser.parse constantNegation.source 20 = some (.ok constantNegation.tree) ∧
      Parser.parse (constantQuotient '1'.toUInt8 '0'.toUInt8).source 20 =
        some (.ok (constantQuotient '1'.toUInt8 '0'.toUInt8).tree) ∧
      Represents constantNegation 2 (.neg (.literal 3)) ∧
      Represents (constantQuotient '1'.toUInt8 '0'.toUInt8) 3
        (.binary .div (.literal 1) (.literal 0)) ∧
      ∀ n t mem, ¬ Evaluates constantNegation (n + 2) {} t 2 mem (some (-3)) ∧
        ¬ Evaluates (constantQuotient '1'.toUInt8 '0'.toUInt8) (n + 2) {} t 3 mem none := by
  have hquotient := constantQuotient_represents (a := '1'.toUInt8) (b := '0'.toUInt8) (by decide)
    (by decide)
  refine ⟨by decide +kernel, by decide +kernel, constantNegation_represents, hquotient,
    fun n t mem => ⟨?_, ?_⟩⟩
  · have hnames : ConstantNames {} (fun _ => 0) (.neg (.literal 3)) := nofun
    have hrun := evaluate_eq (n := n + 2) int32Host_folds constantNegation_represents
      (Nat.le_add_left 2 n) hnames
    rcases (if_pos (c := (Arith.neg (.literal 3)).hasNeg = true) rfl).mp hrun with ⟨message, hrun⟩
    rw [evaluates_of_thrown hrun]
    decide
  · have hnames : ConstantNames {} (fun _ => 0) (.binary .div (.literal 1) (.literal 0)) := nofun
    have hrun := evaluate_eq (n := n + 2) int32Host_folds hquotient (Nat.le_add_left 2 n) hnames
    rintro ⟨-, hthrows⟩
    rcases hthrows.mpr rfl with ⟨failure, -, hfail⟩
    rw [if_neg (by decide), hfail] at hrun
    cases hrun

end Compiler

end LogicCompiler
