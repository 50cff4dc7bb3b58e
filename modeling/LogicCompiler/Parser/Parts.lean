import LogicCompiler.Parser.Stream

/-!
# The parts of a program and their nodes

Every part of a piece of syntax, with the place where its nodes start.  The nodes of a part lie
where they belong in any arena that holds the nodes of the whole.
-/

namespace LogicCompiler

open TokenType NodeKind Cat

/-- A piece of syntax whose first node has the id `base`, in front of a token with the offset
`next`. -/
structure Part where
  cat : Cat
  syn : Syn cat
  base : ℕ
  next : ℕ

namespace Part

/-- The nodes that the part takes up in the arena. -/
def nodes (x : Part) : List Node := x.syn.nodes x.base x.next

/-- The id the parser returned for the part. -/
def root (x : Part) : NodeId := x.syn.root x.base

end Part

namespace Syn

/-- All parts, the whole included. -/
def parts : {k : Cat} → Syn k → (base next : ℕ) → List Part
  | _, pre op e, base, next => ⟨_, pre op e, base, next⟩ :: e.parts base next
  | _, literal t, base, next => [⟨_, literal t, base, next⟩]
  | _, ident t, base, next => [⟨_, ident t, base, next⟩]
  | _, eval s, base, next => ⟨_, eval s, base, next⟩ :: s.parts base next
  | _, cast l d r, base, next => ⟨_, cast l d r, base, next⟩ :: d.parts base r.1.globalOffset
  | _, blockExpr b, base, next => ⟨_, blockExpr b, base, next⟩ :: b.parts base next
  | _, paren l e r, base, next => ⟨_, paren l e r, base, next⟩ :: e.parts base r.1.globalOffset
  | _, call f l args r, base, next =>
      ⟨_, call f l args r, base, next⟩ ::
        (f.parts base l.1.globalOffset ++ args.parts (base + f.size) r.1.globalOffset)
  | _, member e op name, base, next =>
      ⟨_, member e op name, base, next⟩ :: e.parts base op.1.globalOffset
  | _, index e l i r, base, next =>
      ⟨_, index e l i r, base, next⟩ ::
        (e.parts base l.1.globalOffset ++ i.parts (base + e.size) r.1.globalOffset)
  | _, post e op, base, next => ⟨_, post e op, base, next⟩ :: e.parts base op.1.globalOffset
  | _, binary lhs op rhs, base, next =>
      ⟨_, binary lhs op rhs, base, next⟩ ::
        (lhs.parts base op.1.globalOffset ++ rhs.parts (base + lhs.size) next)
  | _, block q b, base, next => ⟨_, block q b, base, next⟩ :: b.parts base next
  | _, ifStmt q s, base, next => ⟨_, ifStmt q s, base, next⟩ :: s.parts base next
  | _, whileStmt q k l cond r body, base, next =>
      ⟨_, whileStmt q k l cond r body, base, next⟩ ::
        (cond.parts base r.1.globalOffset ++ body.parts (base + cond.size) next)
  | _, forStmt q k l init cond semi incr r body, base, next =>
      ⟨_, forStmt q k l init cond semi incr r body, base, next⟩ ::
        (init.parts base (firstOffset cond.tokens semi.1.globalOffset)
        ++ (cond.parts (base + init.size) semi.1.globalOffset
        ++ (incr.parts (base + init.size + cond.size) r.1.globalOffset
        ++ body.parts (base + init.size + cond.size + incr.size) next)))
  | _, returnStmt q k e semi, base, next =>
      ⟨_, returnStmt q k e semi, base, next⟩ :: e.parts base semi.1.globalOffset
  | _, jump q k semi, base, next => [⟨_, jump q k semi, base, next⟩]
  | _, structDecl q k name body semi, base, next =>
      ⟨_, structDecl q k name body semi, base, next⟩ ::
        body.parts base (firstOffset (optToken semi) next)
  | _, namespaceDecl q k name body, base, next =>
      ⟨_, namespaceDecl q k name body, base, next⟩ :: body.parts base next
  | _, deleteStmt q d semi, base, next =>
      ⟨_, deleteStmt q d semi, base, next⟩ :: d.parts base (firstOffset (optToken semi) next)
  | _, requires q k colon e semi, base, next =>
      ⟨_, requires q k colon e semi, base, next⟩ ::
        e.parts base (firstOffset (optToken semi) next)
  | _, typeDecl q k name b body semi, base, next =>
      ⟨_, typeDecl q k name b body semi, base, next⟩ ::
        (b.parts base (firstOffset (body.tokens ++ optToken semi) next)
        ++ body.parts (base + b.size) (firstOffset (optToken semi) next))
  | _, functionDecl q type name l params r body, base, next =>
      ⟨_, functionDecl q type name l params r body, base, next⟩ ::
        (params.parts base r.1.globalOffset ++ body.parts (base + params.size) next)
  | _, varDecl q type name init semi, base, next =>
      ⟨_, varDecl q type name init semi, base, next⟩ :: init.parts base semi.1.globalOffset
  | _, exprStmt q e semi, base, next =>
      ⟨_, exprStmt q e semi, base, next⟩ :: e.parts base (firstOffset (optToken semi) next)
  | _, delete k auto target, base, next =>
      ⟨_, delete k auto target, base, next⟩ :: target.parts base next
  | _, conditional k l cond r thenBlock elseBlock, base, next =>
      ⟨_, conditional k l cond r thenBlock elseBlock, base, next⟩ ::
        (cond.parts base r.1.globalOffset
        ++ (thenBlock.parts (base + cond.size) (firstOffset elseBlock.tokens next)
        ++ elseBlock.parts (base + cond.size + thenBlock.size) next))
  | _, braced l body r, base, next =>
      ⟨_, braced l body r, base, next⟩ :: body.parts (base + 1) r.1.globalOffset
  | _, parameter q type name init, base, next =>
      ⟨_, parameter q type name init, base, next⟩ :: init.parts base next
  | _, @none k, base, next => [⟨_, @none k, base, next⟩]
  | _, some s, base, next => ⟨_, some s, base, next⟩ :: s.parts base next
  | _, @nil k, base, next => [⟨_, @nil k, base, next⟩]
  | _, cons s rest, base, next =>
      ⟨_, cons s rest, base, next⟩ ::
        (s.parts base (firstOffset rest.tokens next) ++ rest.parts (base + s.size) next)
  | _, led t s, base, next => ⟨_, led t s, base, next⟩ :: s.parts base next
  | _, seq s t, base, next =>
      ⟨_, seq s t, base, next⟩ ::
        (s.parts base (firstOffset t.tokens next) ++ t.parts (base + s.size) next)
  | _, @bare k semi, base, next => [⟨_, @bare k semi, base, next⟩]
  | _, full s, base, next => ⟨_, full s, base, next⟩ :: s.parts base next

end Syn

/-! ## Where nodes lie -/

/-- The nodes `ns` stand in the arena from the id `base` on. -/
def Lies (tree : ASTTree) (base : ℕ) (ns : List Node) : Prop :=
  ∀ i (h : i < ns.length), tree[base + i]? = some ns[i]

variable {tree : ASTTree} {base : ℕ}

@[simp] lemma lies_nil : Lies tree base [] := fun _ h => absurd h (Nat.not_lt_zero _)

@[simp] lemma lies_cons {n : Node} {ns : List Node} :
    Lies tree base (n :: ns) ↔ tree[base]? = some n ∧ Lies tree (base + 1) ns := by
  constructor
  · intro h
    refine ⟨h 0 (Nat.succ_pos _), fun i hi => ?_⟩
    have := h (i + 1) (Nat.succ_lt_succ hi)
    rwa [← Nat.add_assoc, Nat.add_right_comm] at this
  · rintro ⟨h0, hrest⟩ (_ | i) hi
    · exact h0
    · rw [← Nat.add_assoc, Nat.add_right_comm]
      exact hrest i (Nat.lt_of_succ_lt_succ hi)

@[simp] lemma lies_append {ns ms : List Node} :
    Lies tree base (ns ++ ms) ↔ Lies tree base ns ∧ Lies tree (base + ns.length) ms := by
  induction ns generalizing base with
  | nil => simp
  | cons n ns ih =>
      simp only [List.cons_append, lies_cons, ih, List.length_cons, and_assoc]
      rw [Nat.add_assoc, Nat.add_comm 1 ns.length]

lemma lies_of_append (pre ns post : List Node) : Lies (pre ++ (ns ++ post)) pre.length ns := by
  intro i hi
  simp [List.getElem?_append_right, List.getElem?_append_left, hi]

/-- The node `id` is the root of a copy of `s`. -/
def Sits {k : Cat} (tree : ASTTree) (id : NodeId) (s : Syn k) : Prop :=
  ∃ base next, Lies tree base (s.nodes base next) ∧ id = s.root base

/-- The nodes of a part lie where it starts. -/
lemma Syn.lies_parts {k : Cat} (s : Syn k) {base next : ℕ}
    (h : Lies tree base (s.nodes base next)) :
    ∀ x ∈ s.parts base next, Lies tree x.base x.nodes := by
  induction s generalizing base next
  all_goals
    have hself := h
    simp only [Syn.nodes, lies_append, lies_cons, lies_nil, Syn.length_nodes, and_true] at h
    simp only [Syn.parts, List.forall_mem_cons, List.forall_mem_append, List.not_mem_nil,
      false_imp_iff, implies_true, and_true]
    first | exact hself | refine ⟨hself, ?_⟩
  -- each part lies where the nodes of the whole have it
  all_goals grind only

/-- The tokens of a part are tokens of the whole. -/
lemma Syn.tokens_parts {k : Cat} (s : Syn k) {base next : ℕ} :
    ∀ x ∈ s.parts base next, ∀ t ∈ x.syn.tokens, t ∈ s.tokens := by
  induction s generalizing base next
  all_goals
    simp only [Syn.parts, Syn.tokens, List.forall_mem_cons, List.forall_mem_append,
      List.not_mem_nil, false_imp_iff, implies_true, and_true]
  all_goals grind only [List.mem_append, List.mem_cons]

/-- The nodes of a part are among those of the whole. -/
lemma Syn.parts_within {k : Cat} (s : Syn k) {base next : ℕ} :
    ∀ x ∈ s.parts base next, base ≤ x.base ∧ x.base + x.syn.size ≤ base + s.size := by
  induction s generalizing base next
  all_goals
    simp only [Syn.parts, Syn.size, List.forall_mem_cons, List.forall_mem_append, List.not_mem_nil,
      false_imp_iff, implies_true, and_true, le_refl, true_and]
  all_goals grind only

end LogicCompiler
