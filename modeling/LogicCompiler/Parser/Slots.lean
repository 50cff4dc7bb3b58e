import LogicCompiler.Parser.SourceTracking

/-!
# Operands

The ids in the payload of a node that stand for what is evaluated: in a tree that the parser makes, they
are ids of earlier nodes (`slots`), and where a value is asked for, no `return` stands.
-/

namespace LogicCompiler

open TokenType NodeKind Cat LogicCompiler.Parser

namespace Node

/-- The ids of the parts that are evaluated or executed. -/
def operands (n : Node) : List NodeId :=
  match n.kind with
  | VarDecl | FunctionDecl => [n.data.initExpr]
  | BinaryExpr => [n.data.lhs, n.data.rhs]
  | UnaryExpr => [n.data.operand]
  | CallExpr => [n.data.argsList]
  | EvalExpr => [n.data.cond, n.data.thenBlock, n.data.elseBlock]
  | CompileTimeJump =>
      if n.data.op = kBreak.code ∨ n.data.op = kContinue.code then []
      else [n.data.cond, n.data.thenBlock]
  | _ => []

/-- The ids of the parts that are asked for a value. -/
def values (n : Node) : List NodeId :=
  match n.kind with
  | VarDecl => [n.data.initExpr]
  | BinaryExpr => [n.data.lhs, n.data.rhs]
  | UnaryExpr => [n.data.operand]
  | CallExpr => [n.data.argsList]
  | EvalExpr => [n.data.cond]
  | CompileTimeJump =>
      if n.data.op = kBreak.code ∨ n.data.op = kContinue.code then [] else [n.data.cond]
  | _ => []

/-- The node of a `return`. -/
def Returns (n : Node) : Prop := n.kind = UnaryExpr ∧ n.data.op = kReturn.code

instance (n : Node) : Decidable n.Returns :=
  inferInstanceAs (Decidable (n.kind = UnaryExpr ∧ n.data.op = kReturn.code))

end Node

/-- The operands of the node `i` are in front of it, and none of its values is a `return` or the
declaration of a variable. -/
structure Slots (tree : ASTTree) (i : NodeId) : Prop where
  before : ∀ n, tree[i]? = some n → ∀ j ∈ n.operands, j = kNullNode ∨ j < i
  noReturn : ∀ n, tree[i]? = some n → ∀ j ∈ n.values, ∀ m, tree[j]? = some m → ¬ m.Returns
  noDecl : ∀ n, tree[i]? = some n → ∀ j ∈ n.values, ∀ m, tree[j]? = some m → m.kind ≠ VarDecl

section Slots

variable {tree : ASTTree} {i base next : ℕ} {n : Node}

lemma slots_of_eq (h : tree[i]? = some n) (hbefore : ∀ j ∈ n.operands, j = kNullNode ∨ j < i)
    (hvalues : ∀ j ∈ n.values, ∀ m, tree[j]? = some m → ¬ m.Returns ∧ m.kind ≠ VarDecl) :
    Slots tree i := by
  constructor
  · intro n' h'
    obtain rfl := Option.some.inj (h.symm.trans h')
    exact hbefore
  · intro n' h' j hj m hm
    obtain rfl := Option.some.inj (h.symm.trans h')
    exact (hvalues j hj m hm).1
  · intro n' h' j hj m hm
    obtain rfl := Option.some.inj (h.symm.trans h')
    exact (hvalues j hj m hm).2

lemma slots_of_forall (h : ∀ i < tree.length, ∀ n ∈ tree[i]?,
    (∀ j ∈ n.operands, j = kNullNode ∨ j < i) ∧
      ∀ j ∈ n.values, ∀ m ∈ tree[j]?, ¬ m.Returns ∧ m.kind ≠ VarDecl) (i : ℕ) : Slots tree i :=
  ⟨fun n hn => (h i (List.getElem?_eq_some_iff.mp hn).1 n hn).1,
    fun n hn j hj m hm => ((h i (List.getElem?_eq_some_iff.mp hn).1 n hn).2 j hj m hm).1,
    fun n hn j hj m hm => ((h i (List.getElem?_eq_some_iff.mp hn).1 n hn).2 j hj m hm).2⟩

/-- A node without operands. -/
lemma slots_of_none (h : tree[i]? = some n) (ho : n.operands = []) (hv : n.values = []) :
    Slots tree i :=
  slots_of_eq h (by simp [ho]) (by simp [hv])

/-- The node of a loop. -/
lemma slots_of_loop {offset cond body init : ℕ}
    (h : tree[i]? = some (plainNode CompileTimeJump offset (Data.evalOp cond body init)))
    (hcond : cond = kNullNode ∨ cond < i) (hbody : body = kNullNode ∨ body < i)
    (hvalue : ∀ m, tree[cond]? = some m → ¬ m.Returns ∧ m.kind ≠ VarDecl) : Slots tree i := by
  by_cases hop : cond % 256 = kBreak.code ∨ cond % 256 = kContinue.code
  · exact slots_of_eq h (by simp [Node.operands, plainNode, hop])
      (by simp [Node.values, plainNode, hop])
  · exact slots_of_eq h (by simpa [Node.operands, plainNode, hop] using ⟨hcond, hbody⟩)
      (by simpa [Node.values, plainNode, hop] using hvalue)

/-- The categories of what has a value. -/
def Cat.hasValue : Cat → Bool
  | expr | del | conditional _ | braces => true
  | opt k | led _ k | seq k _ => k.hasValue
  | _ => false

namespace Syn

/-- The node of a part that has a value is neither a `return` nor a declaration. -/
lemma root_of_value (hroom : tree.length ≤ kNullNode) {k : Cat} (s : Syn k) (hk : k.hasValue = true)
    (h : Lies tree base (s.nodes base next)) {m : Node} (hm : tree[s.root base]? = Option.some m) :
    ¬ m.Returns ∧ m.kind ≠ VarDecl := by
  induction s generalizing base next
  all_goals
    simp only [nodes, lies_append, lies_cons, lies_nil, length_nodes, and_true, Nat.add_assoc] at h
    simp only [root] at hm
  case pre op e ih =>
    obtain rfl := Option.some.inj (h.2.symm.trans hm)
    refine ⟨?_, by simp [tokenNode]⟩
    rintro ⟨-, hcode⟩
    have htype : op.1.type = kReturn := TokenType.code_injective (by simpa using hcode)
    exact absurd (htype ▸ op.2) (by decide)
  case post e op ih =>
    obtain rfl := Option.some.inj (h.2.symm.trans hm)
    refine ⟨?_, by simp [plainNode]⟩
    rintro ⟨-, hcode⟩
    have htype : op.1.type = kReturn := TokenType.code_injective (by simpa [plainNode] using hcode)
    exact absurd (htype ▸ op.2) (by decide)
  case literal | ident =>
    obtain rfl := Option.some.inj (h.symm.trans hm)
    exact ⟨fun hreturn => (by cases hreturn.1), fun hkind => by cases hkind⟩
  case cast | delete =>
    obtain rfl := Option.some.inj (h.2.symm.trans hm)
    exact ⟨fun hreturn => (by cases hreturn.1), fun hkind => by cases hkind⟩
  case call | member | index | binary =>
    obtain rfl := Option.some.inj (h.2.2.symm.trans hm)
    exact ⟨fun hreturn => (by cases hreturn.1), fun hkind => by cases hkind⟩
  case conditional =>
    obtain rfl := Option.some.inj (h.2.2.2.symm.trans hm)
    exact ⟨fun hreturn => (by cases hreturn.1), fun hkind => by cases hkind⟩
  case braced =>
    obtain rfl := Option.some.inj (h.1.symm.trans hm)
    exact ⟨fun hreturn => (by cases hreturn.1), fun hkind => by cases hkind⟩
  case none =>
    rw [List.getElem?_eq_none hroom] at hm
    cases hm
  case eval ih | blockExpr ih => exact ih rfl h hm
  case paren ih => exact ih rfl h hm
  case some ih | led ih => exact ih hk h hm
  case seq ih _ => exact ih hk h.1 hm
  all_goals cases hk

/-- The nodes that a production makes have their operands in front of them. -/
lemma slots (hroom : tree.length ≤ kNullNode) {k : Cat} (s : Syn k)
    (h : Lies tree base (s.nodes base next)) (hi : i ∈ s.ownIds base) : Slots tree i := by
  cases s
  all_goals
    simp only [nodes, lies_append, lies_cons, lies_nil, length_nodes, declNodes, and_true,
      Nat.add_assoc] at h
    simp only [ownIds, List.mem_cons, List.not_mem_nil, or_false] at hi
  case pre op e =>
    obtain rfl := hi
    exact slots_of_eq h.2 (by simpa [Node.operands, tokenNode] using e.root_lt le_rfl)
      (by simpa [Node.values, tokenNode] using fun _ => e.root_of_value hroom rfl h.1)
  case post e op =>
    obtain rfl := hi
    exact slots_of_eq h.2 (by simpa [Node.operands, plainNode] using e.root_lt le_rfl)
      (by simpa [Node.values, plainNode] using fun _ => e.root_of_value hroom rfl h.1)
  case literal | ident =>
    obtain rfl := hi
    exact slots_of_none h rfl rfl
  case cast | delete | structDecl | namespaceDecl =>
    obtain rfl := hi
    exact slots_of_none h.2 rfl rfl
  case braced =>
    obtain rfl := hi
    exact slots_of_none h.1 rfl rfl
  case jump q k semi =>
    obtain rfl := hi
    have hcode : k.1.type = kBreak ∨ k.1.type = kContinue := by simpa using k.2
    have hop : k.1.type.code = kBreak.code ∨ k.1.type.code = kContinue.code :=
      hcode.imp (congrArg TokenType.code) (congrArg TokenType.code)
    exact slots_of_none h (by simp [Node.operands, plainNode, hop])
      (by simp [Node.values, plainNode, hop])
  case call f l args r =>
    obtain rfl := hi
    have hargs := @root_lt _ args (base + f.size) (base + (f.size + args.size)) (by omega)
    exact slots_of_eq h.2.2 (by simpa [Node.operands, plainNode] using hargs)
      (by simpa [Node.values, plainNode] using fun _ => args.root_of_value hroom rfl h.2.1)
  case member e op name =>
    rcases hi with rfl | rfl
    · exact slots_of_none h.2.1 rfl rfl
    · exact slots_of_none h.2.2 rfl rfl
  case index e l x r =>
    obtain rfl := hi
    have he := @root_lt _ e base (base + (e.size + x.size)) (by omega)
    have hx := @root_lt _ x (base + e.size) (base + (e.size + x.size)) (by omega)
    exact slots_of_eq h.2.2 (by simpa [Node.operands, plainNode] using ⟨he, hx⟩)
      (by simpa [Node.values, plainNode] using
        ⟨fun _ => e.root_of_value hroom rfl h.1, fun _ => x.root_of_value hroom rfl h.2.1⟩)
  case binary lhs op rhs =>
    obtain rfl := hi
    have hlhs := @root_lt _ lhs base (base + (lhs.size + rhs.size)) (by omega)
    have hrhs := @root_lt _ rhs (base + lhs.size) (base + (lhs.size + rhs.size)) (by omega)
    exact slots_of_eq h.2.2 (by simpa [Node.operands, plainNode] using ⟨hlhs, hrhs⟩)
      (by simpa [Node.values, plainNode] using
        ⟨fun _ => lhs.root_of_value hroom rfl h.1, fun _ => rhs.root_of_value hroom rfl h.2.1⟩)
  case whileStmt q k l cond r body =>
    obtain rfl := hi
    have hcond := @root_lt _ cond base (base + (cond.size + body.size)) (by omega)
    have hbody := @root_lt _ body (base + cond.size) (base + (cond.size + body.size)) (by omega)
    exact slots_of_loop h.2.2 hcond hbody fun _ => cond.root_of_value hroom rfl h.1
  case forStmt q k l init cond semi incr r body =>
    obtain rfl := hi
    have hcond := @root_lt _ cond (base + init.size)
      (base + (init.size + (cond.size + (incr.size + body.size)))) (by omega)
    have hbody := @root_lt _ body (base + (init.size + (cond.size + incr.size)))
      (base + (init.size + (cond.size + (incr.size + body.size)))) (by omega)
    exact slots_of_loop h.2.2.2.2 hcond hbody fun _ => cond.root_of_value hroom rfl h.2.1
  case returnStmt q k e semi =>
    obtain rfl := hi
    exact slots_of_eq h.2 (by simpa [Node.operands, plainNode] using e.root_lt le_rfl)
      (by simpa [Node.values, plainNode] using fun _ => e.root_of_value hroom rfl h.1)
  case typeDecl =>
    rcases hi with rfl | rfl | rfl
    · exact slots_of_none h.2.2.1 rfl rfl
    · exact slots_of_none h.2.2.2.1 rfl rfl
    · exact slots_of_none h.2.2.2.2 rfl rfl
  case functionDecl q type name l params r body =>
    rcases hi with rfl | rfl | rfl
    · exact slots_of_none h.2.2.1 rfl rfl
    · exact slots_of_none h.2.2.2.1 rfl rfl
    · have hbody := @root_lt _ body (base + params.size)
        (base + (params.size + (body.size + 2))) (by omega)
      exact slots_of_eq h.2.2.2.2 (by simpa [Node.operands, plainNode] using hbody)
        (by simp [Node.values, plainNode])
  case varDecl q type name init semi =>
    rcases hi with rfl | rfl | rfl
    · exact slots_of_eq h.2.1 (by simpa [Node.operands, plainNode] using init.root_lt le_rfl)
        (by simpa [Node.values, plainNode] using fun _ => init.root_of_value hroom rfl h.1)
    · exact slots_of_none h.2.2.1 rfl rfl
    · exact slots_of_none h.2.2.2 rfl rfl
  case parameter q type name init =>
    rcases hi with rfl | rfl | rfl
    · exact slots_of_eq h.2.1 (by simpa [Node.operands, plainNode] using init.root_lt le_rfl)
        (by simpa [Node.values, plainNode] using fun _ => init.root_of_value hroom rfl h.1)
    · exact slots_of_none h.2.2.1 rfl rfl
    · exact slots_of_none h.2.2.2 rfl rfl
  case conditional k l cond r thenBlock elseBlock =>
    obtain rfl := hi
    have hcond := @root_lt _ cond base
      (base + (cond.size + (thenBlock.size + elseBlock.size))) (by omega)
    have hthen := @root_lt _ thenBlock (base + cond.size)
      (base + (cond.size + (thenBlock.size + elseBlock.size))) (by omega)
    have helse := @root_lt _ elseBlock (base + (cond.size + thenBlock.size))
      (base + (cond.size + (thenBlock.size + elseBlock.size))) (by omega)
    exact slots_of_eq h.2.2.2 (by simpa [Node.operands, plainNode] using ⟨hcond, hthen, helse⟩)
      (by simpa [Node.values, plainNode] using fun _ => cond.root_of_value hroom rfl h.1)

end Syn

end Slots

/-- **Operands stand in front of what is computed from them**, in every accepted source. -/
lemma Parses.slots {src : List Byte} {tree : ASTTree} {u : Syn (list stmt)} (h : Parses src tree u)
    (i : NodeId) : Slots tree i := by
  by_cases hlt : i < tree.length
  · by_cases hi : i = 0
    · subst hi
      have hroot : tree[0]? = some default := by rw [h.arena]; rfl
      exact slots_of_none hroot rfl rfl
    · rcases h.exists_maker hi hlt with ⟨x, hx, hown⟩
      exact x.syn.slots h.room (u.lies_parts h.lies x hx) hown
  · have hnone : tree[i]? = none := List.getElem?_eq_none (not_lt.mp hlt)
    constructor
    all_goals
      intro n hn
      rw [hnone] at hn
      cases hn

end LogicCompiler
