import LogicCompiler.Parser.Parts

/-!
# The arena is a forest

Some productions create a node before the nodes it refers to, others after them.  What all of them
keep to is this: the nodes of a part only refer to nodes of that part, each of these is referred to
at most once, and not at all when it is the one the parser returns for the part.
-/

namespace LogicCompiler

open TokenType NodeKind Cat

/-! ## Roots -/

namespace Syn

lemma root_lt {k : Cat} (s : Syn k) {base m : ℕ} (hm : base + s.size ≤ m) :
    s.root base = kNullNode ∨ s.root base < m :=
  (s.root_mem base).imp_right fun h => lt_of_lt_of_le h.2 hm

/-- Solid parts have a node. -/
lemma root_solid {k : Cat} (s : Syn k) (hk : k.solid = true) (base : ℕ) :
    base ≤ s.root base ∧ s.root base < base + s.size := by
  induction s generalizing base
  all_goals simp only [root, size]
  all_goals first | simp [Cat.solid] at hk; done | grind [Cat.solid]

lemma root_ne_null {k : Cat} (s : Syn k) (hk : k.solid = true) (base : ℕ)
    (hroom : base + s.size ≤ kNullNode) : s.root base ≠ kNullNode :=
  (lt_of_lt_of_le (s.root_solid hk base).2 hroom).ne

end Syn

/-! ## One reference at most -/

/-- How many slots of the nodes `ns` hold the id `r`. -/
def refCount (r : NodeId) (ns : List Node) : ℕ := (ns.flatMap Node.refs).count r

/-- Whether `r` is one of the `size` ids from `base` on, as a number. -/
def within (base size r : ℕ) : ℕ := if base ≤ r ∧ r < base + size then 1 else 0

section RefCount

variable {r : NodeId} {ns ms : List Node} {n : Node}

@[simp] lemma refCount_nil : refCount r [] = 0 := rfl

@[simp] lemma refCount_cons : refCount r (n :: ns) = n.refs.count r + refCount r ns := by
  simp [refCount]

@[simp] lemma refCount_append : refCount r (ns ++ ms) = refCount r ns + refCount r ms := by
  simp [refCount]

lemma within_add (base a b r : ℕ) :
    within base (a + b) r = within base a r + within (base + a) b r := by
  unfold within
  split_ifs <;> omega

@[simp] lemma within_zero (base r : ℕ) : within base 0 r = 0 := by
  unfold within
  split_ifs <;> omega

lemma within_two (base r : ℕ) :
    within base 2 r = within base 1 r + within (base + 1) 1 r := within_add base 1 1 r

lemma within_three (base r : ℕ) :
    within base 3 r = within base 1 r + within (base + 1) 1 r + within (base + 2) 1 r := by
  rw [within_add base 2 1, within_two]

lemma within_null (hr : r < kNullNode) : within kNullNode 1 r = 0 :=
  if_neg fun h => absurd h.1 (Nat.not_le.mpr hr)

/-- A slot that holds `a`. -/
lemma count_slot (r a : NodeId) (l : List NodeId) :
    (a :: l).count r = within a 1 r + l.count r := by
  rw [List.count_cons, Nat.add_comm]
  unfold within
  congr 1
  grind

end RefCount

/-- The references to `r` among the nodes of a part, and the one that its id is returned for. -/
lemma Syn.refs_within {k : Cat} (s : Syn k) {base next : ℕ} (hroom : base + s.size ≤ kNullNode)
    {r : NodeId} (hr : r < kNullNode) :
    within (s.root base) 1 r + refCount r (s.nodes base next) ≤ within base s.size r := by
  induction s generalizing base next
  all_goals
    simp only [Syn.size] at hroom
    simp only [Syn.nodes, Syn.root, Syn.size, refCount_append, refCount_cons, refCount_nil,
      Node.refs, plainNode, tokenNode, declNodes, count_slot, List.count_nil, within_add,
      within_two, within_three, within_null hr, Data.operand_unary, Data.target_deleteOp, 
      Data.target_call, Data.argsList_call, Data.lhs_binary, Data.rhs_binary, 
      Data.typeNode_varDecl, Data.nameNode_varDecl, Data.initExpr_varDecl, Data.cond_evalOp,
      Data.thenBlock_evalOp, Data.elseBlock_evalOp, ← Nat.add_assoc]
  case whileStmt cond _ body _ _ =>
    rw [Data.operand_evalOp, if_neg (body.root_ne_null rfl (base + cond.size) (by omega))]
    simp only [count_slot, List.count_nil, within_null hr]
    grind
  case forStmt init cond _ incr _ body _ _ _ _ =>
    rw [Data.operand_evalOp,
      if_neg (body.root_ne_null rfl (base + init.size + cond.size + incr.size) (by omega))]
    simp only [count_slot, List.count_nil]
    grind
  case braced body _ ih =>
    rw [← within_add, Nat.add_comm body.size 1, within_add]
    grind
  all_goals grind

/-! ## No way back -/

/-- A node with the id `a` refers to nodes in front of it, or to leaves. -/
def Hangs (tree : ASTTree) (a : NodeId) : Prop :=
  ∀ n, tree[a]? = some n → ∀ b ∈ n.refs, b = kNullNode ∨ b < a ∨
    ∃ m, tree[b]? = some m ∧ m.refs = []

lemma hangs_of_eq {tree : ASTTree} {a : NodeId} {n : Node} (h : tree[a]? = some n)
    (hn : ∀ b ∈ n.refs, b = kNullNode ∨ b < a ∨ ∃ m, tree[b]? = some m ∧ m.refs = []) :
    Hangs tree a := by
  intro n' h' b hb
  obtain rfl : n = n' := by simpa [h] using h'
  exact hn b hb

/-- The nodes of a declaration, behind those of its initialiser. -/
lemma hangs_decl {tree : ASTTree} {kind : NodeKind} (hkind : kind = VarDecl ∨ kind = TypeDecl)
    {q : Qualifiers} {t u : Token} {id init : ℕ} (h : Lies tree id (declNodes kind q t u id init))
    (hinit : init = kNullNode ∨ init < id) (a : ℕ) (ha : id ≤ a) (hlt : a < id + 3) :
    Hangs tree a := by
  simp only [declNodes, lies_cons, lies_nil, and_true] at h
  rcases h with ⟨hdecl, htype, hname⟩
  have hleaf : (tokenNode IdentifierExpr t).refs = [] ∧ (tokenNode IdentifierExpr u).refs = [] :=
    ⟨rfl, rfl⟩
  obtain rfl | rfl | rfl : a = id ∨ a = id + 1 ∨ a = id + 1 + 1 := by omega
  · refine hangs_of_eq hdecl fun b hb => ?_
    have hb : b = a + 1 ∨ b = a + 2 ∨ b = init := by
      rcases hkind with rfl | rfl <;> simpa [Node.refs, plainNode] using hb
    rcases hb with rfl | rfl | rfl
    · exact Or.inr (Or.inr ⟨_, htype, hleaf.1⟩)
    · exact Or.inr (Or.inr ⟨_, hname, hleaf.2⟩)
    · exact hinit.imp_right Or.inl
  · exact hangs_of_eq htype (by simp [hleaf.1])
  · exact hangs_of_eq hname (by simp [hleaf.2])

lemma hangs_of_leaf {tree : ASTTree} {a base : ℕ} {n : Node} (h : tree[base]? = some n)
    (hn : n.refs = []) (hlt : a < base + 1) (ha : base ≤ a) : Hangs tree a := by
  obtain rfl : a = base := by omega
  exact hangs_of_eq h (by simp [hn])

/-- A node behind the ones it refers to. -/
lemma hangs_behind {tree : ASTTree} {a last : ℕ} {n : Node} (hbelow : a < last → Hangs tree a)
    (h : tree[last]? = some n) (hn : ∀ b ∈ n.refs, b = kNullNode ∨ b < last)
    (hlt : a < last + 1) : Hangs tree a := by
  by_cases hlast : a < last
  · exact hbelow hlast
  · obtain rfl : a = last := by omega
    exact hangs_of_eq h fun b hb => (hn b hb).imp_right Or.inl

lemma forall_refs_loop {P : NodeId → Prop} {offset : ℕ} {a b c : NodeId} (ha : P a) (hb : P b)
    (hc : P c) : ∀ r ∈ (plainNode CompileTimeJump offset (Data.evalOp a b c)).refs, P r := by
  intro r hr
  simp only [Node.refs, plainNode] at hr
  split_ifs at hr <;> simp at hr <;> grind

/-- The nodes of a part hang below each other. -/
lemma Syn.hangs {k : Cat} (s : Syn k) {tree : ASTTree} {base next : ℕ}
    (h : Lies tree base (s.nodes base next)) (a : ℕ) (ha : base ≤ a)
    (hlt : a < base + s.size) : Hangs tree a := by
  induction s generalizing base next
  all_goals
    simp only [Syn.nodes, lies_append, lies_cons, lies_nil, Syn.length_nodes, and_true] at h
    simp only [Syn.size, ← Nat.add_assoc] at hlt
  case pre e ih =>
    exact hangs_behind (ih h.1 ha) h.2 (by simpa [Node.refs, tokenNode] using e.root_lt le_rfl) hlt
  case literal => exact hangs_of_leaf h rfl hlt ha
  case ident => exact hangs_of_leaf h rfl hlt ha
  case eval ih => exact ih h ha hlt
  case cast d _ ih =>
    exact hangs_behind (ih h.1 ha) h.2 (by simpa [Node.refs, plainNode] using d.root_lt le_rfl) hlt
  case blockExpr ih => exact ih h ha hlt
  case paren ih => exact ih h ha hlt
  case call f _ args _ ihf iha =>
    refine hangs_behind (fun hlt => ?_) h.2.2 ?_ hlt
    · by_cases h1 : a < base + f.size
      · exact ihf h.1 ha h1
      · exact iha h.2.1 (by omega) hlt
    · simpa [Node.refs, plainNode] using ⟨f.root_lt (by omega), args.root_lt le_rfl⟩
  case member e _ _ ih =>
    rcases h with ⟨he, hname, hmember⟩
    refine hangs_behind (fun hlt => ?_) hmember ?_ hlt
    · by_cases h1 : a < base + e.size
      · exact ih he ha h1
      · exact hangs_of_leaf hname rfl hlt (by omega)
    · have hroot : e.root base = kNullNode ∨ e.root base < base + e.size + 1 :=
        e.root_lt (by omega)
      simpa [Node.refs, plainNode] using hroot
  case index e _ i _ ihe ihi =>
    refine hangs_behind (fun hlt => ?_) h.2.2 ?_ hlt
    · by_cases h1 : a < base + e.size
      · exact ihe h.1 ha h1
      · exact ihi h.2.1 (by omega) hlt
    · simpa [Node.refs, plainNode] using ⟨e.root_lt (by omega), i.root_lt le_rfl⟩
  case post e _ ih =>
    exact hangs_behind (ih h.1 ha) h.2 (by simpa [Node.refs, plainNode] using e.root_lt le_rfl) hlt
  case binary lhs _ rhs ihl ihr =>
    refine hangs_behind (fun hlt => ?_) h.2.2 ?_ hlt
    · by_cases h1 : a < base + lhs.size
      · exact ihl h.1 ha h1
      · exact ihr h.2.1 (by omega) hlt
    · simpa [Node.refs, plainNode] using ⟨lhs.root_lt (by omega), rhs.root_lt le_rfl⟩
  case block ih => exact ih h ha hlt
  case ifStmt ih => exact ih h ha hlt
  case whileStmt cond _ body ihc ihb =>
    refine hangs_behind (fun hlt => ?_) h.2.2 ?_ hlt
    · by_cases h1 : a < base + cond.size
      · exact ihc h.1 ha h1
      · exact ihb h.2.1 (by omega) hlt
    · exact forall_refs_loop (cond.root_lt (by omega)) (body.root_lt le_rfl) (Or.inl rfl)
  case forStmt init cond _ incr _ body ihi ihc ihn ihb =>
    rcases h with ⟨hi, hc, hn, hb, hloop⟩
    refine hangs_behind (fun hlt => ?_) hloop ?_ hlt
    · by_cases h1 : a < base + init.size
      · exact ihi hi ha h1
      by_cases h2 : a < base + init.size + cond.size
      · exact ihc hc (by omega) h2
      by_cases h3 : a < base + init.size + cond.size + incr.size
      · exact ihn hn (by omega) h3
      · exact ihb hb (by omega) hlt
    · exact forall_refs_loop (cond.root_lt (by omega)) (body.root_lt le_rfl)
        (init.root_lt (by omega))
  case returnStmt e _ ih =>
    exact hangs_behind (ih h.1 ha) h.2 (by simpa [Node.refs, plainNode] using e.root_lt le_rfl) hlt
  case jump =>
    exact hangs_behind (fun hlt => absurd hlt (by omega)) h (by simp [Node.refs, plainNode]) hlt
  case structDecl body _ ih =>
    exact hangs_behind (ih h.1 ha) h.2 (by simpa [Node.refs, plainNode] using body.root_lt le_rfl)
      hlt
  case namespaceDecl body ih =>
    exact hangs_behind (ih h.1 ha) h.2 (by simpa [Node.refs, plainNode] using body.root_lt le_rfl)
      hlt
  case deleteStmt ih => exact ih h ha hlt
  case requires ih => exact ih h ha hlt
  case typeDecl b body _ ihb ihs =>
    rcases h with ⟨hb, hbody, hdecl⟩
    by_cases h1 : a < base + b.size
    · exact ihb hb ha h1
    by_cases h2 : a < base + b.size + body.size
    · exact ihs hbody (by omega) h2
    · refine hangs_decl (Or.inr rfl) hdecl ?_ a (by omega) (by omega)
      split_ifs
      · exact body.root_lt le_rfl
      · exact b.root_lt (by omega)
  case functionDecl params _ body ihp ihb =>
    rcases h with ⟨hparams, hbody, htype, hname, hdecl⟩
    refine hangs_behind (fun hlt => ?_) hdecl ?_ hlt
    · by_cases h1 : a < base + params.size
      · exact ihp hparams ha h1
      by_cases h2 : a < base + params.size + body.size
      · exact ihb hbody (by omega) h2
      by_cases h3 : a < base + params.size + body.size + 1
      · exact hangs_of_leaf htype rfl h3 (by omega)
      · exact hangs_of_leaf hname rfl hlt (by omega)
    · have hroot : body.root (base + params.size) = kNullNode ∨
          body.root (base + params.size) < base + params.size + body.size + 1 + 1 :=
        body.root_lt (by omega)
      simpa [Node.refs, plainNode, Nat.lt_succ_of_lt] using hroot
  case varDecl init _ ih =>
    by_cases h1 : a < base + init.size
    · exact ih h.1 ha h1
    · exact hangs_decl (Or.inl rfl) h.2 (init.root_lt le_rfl) a (by omega) (by omega)
  case exprStmt ih => exact ih h ha hlt
  case delete target ih =>
    exact hangs_behind (ih h.1 ha) h.2 (by simpa [Node.refs, plainNode] using target.root_lt le_rfl)
      hlt
  case conditional cond _ thenBlock elseBlock ihc iht ihe =>
    rcases h with ⟨hc, ht, he, hcond⟩
    refine hangs_behind (fun hlt => ?_) hcond ?_ hlt
    · by_cases h1 : a < base + cond.size
      · exact ihc hc ha h1
      by_cases h2 : a < base + cond.size + thenBlock.size
      · exact iht ht (by omega) h2
      · exact ihe he (by omega) hlt
    · simpa [Node.refs, plainNode] using
        ⟨cond.root_lt (by omega), thenBlock.root_lt (by omega), elseBlock.root_lt le_rfl⟩
  case braced body _ ih =>
    by_cases h1 : a < base + 1
    · exact hangs_of_leaf h.1 rfl h1 ha
    · exact ih h.2 (by omega) (by omega)
  case parameter init ih =>
    by_cases h1 : a < base + init.size
    · exact ih h.1 ha h1
    · exact hangs_decl (Or.inl rfl) h.2 (init.root_lt le_rfl) a (by omega) (by omega)
  case none => omega
  case some ih => exact ih h ha hlt
  case nil => omega
  case cons s rest ihs ihr =>
    by_cases h1 : a < base + s.size
    · exact ihs h.1 ha h1
    · exact ihr h.2 (by omega) hlt
  case led ih => exact ih h ha hlt
  case seq s t ihs iht =>
    by_cases h1 : a < base + s.size
    · exact ihs h.1 ha h1
    · exact iht h.2 (by omega) hlt
  case bare => omega
  case full ih => exact ih h ha hlt

/-! ## The whole arena -/

/-- Every reference is empty or points to a node; nodes are referred to at most once, the root not
at all; and no node reaches itself. -/
structure Forest (tree : ASTTree) : Prop where
  inArena : ∀ a b, tree.Refers a b → b = kNullNode ∨ b < tree.length
  once : ∀ b < tree.length, refCount b tree ≤ 1
  root : refCount 0 tree = 0
  acyclic : ∀ a, ¬ Relation.TransGen (tree.Refers) a a

/-- How far a node is from the leaves at most. -/
def ASTTree.rank (tree : ASTTree) (a : NodeId) : ℕ :=
  match tree[a]? with
  | none => 0
  | some n => if n.refs = [] then 0 else a + 1

lemma ASTTree.rank_le (tree : ASTTree) (a : NodeId) : tree.rank a ≤ a + 1 := by
  unfold ASTTree.rank
  split
  · exact Nat.zero_le _
  · split_ifs
    · exact Nat.zero_le _
    · exact le_rfl

/-- A reference leads closer to the leaves. -/
lemma Hangs.rank_lt {tree : ASTTree} {a b : NodeId} (hroom : tree.length ≤ kNullNode)
    (h : Hangs tree a) (hab : tree.Refers a b) : tree.rank b < tree.rank a := by
  rcases hab with ⟨n, hn, hb⟩
  have ha : tree.rank a = a + 1 := by
    simp [ASTTree.rank, hn, List.ne_nil_of_mem hb]
  rw [ha]
  rcases h n hn b hb with rfl | hlt | ⟨m, hm, hleaf⟩
  · simp [ASTTree.rank, List.getElem?_eq_none hroom]
  · exact lt_of_le_of_lt (tree.rank_le b) (Nat.succ_lt_succ hlt)
  · simp [ASTTree.rank, hm, hleaf]

variable {src : List Byte} {tree : ASTTree} {u : Syn (list stmt)}

namespace Parses

lemma lies (h : Parses src tree u) : Lies tree 1 (u.nodes 1 src.length) := by
  rw [h.arena]
  simpa using lies_of_append [default] (u.nodes 1 src.length) []

lemma length (h : Parses src tree u) : tree.length = 1 + u.size := by
  rw [h.arena, List.length_cons, Syn.length_nodes, Nat.add_comm]

lemma hangs (h : Parses src tree u) (a : NodeId) : Hangs tree a := by
  intro n hn
  have hlt : a < tree.length := (List.getElem?_eq_some_iff.mp hn).1
  rw [h.length] at hlt
  cases a with
  | zero =>
      obtain rfl : default = n := by simpa [h.arena] using hn
      intro b hb
      cases hb
  | succ a => exact u.hangs h.lies (a + 1) (Nat.le_add_left 1 a) hlt n hn

lemma forest (h : Parses src tree u) : Forest tree where
  inArena := by
    rintro a b ⟨n, hn, hb⟩
    rcases h.hangs a n hn b hb with hnull | hlt | ⟨m, hm, -⟩
    · exact Or.inl hnull
    · exact Or.inr (hlt.trans (List.getElem?_eq_some_iff.mp hn).1)
    · exact Or.inr (List.getElem?_eq_some_iff.mp hm).1
  once := by
    intro b hb
    have hcount : _ + refCount b (u.nodes 1 src.length) ≤ _ :=
      u.refs_within (h.length ▸ h.room) (lt_of_lt_of_le hb h.room)
    have hle : within 1 u.size b ≤ 1 := by
      unfold within
      split_ifs <;> omega
    rw [h.arena, refCount_cons]
    show 0 + _ ≤ 1
    omega
  root := by
    have hcount : _ + refCount 0 (u.nodes 1 src.length) ≤ _ :=
      u.refs_within (h.length ▸ h.room) (show 0 < kNullNode by decide)
    have hnot : within 1 u.size 0 = 0 := if_neg (by omega)
    rw [h.arena, refCount_cons]
    show 0 + _ = 0
    omega
  acyclic := by
    intro a ha
    have hdown : ∀ b, Relation.TransGen tree.Refers a b → tree.rank b < tree.rank a := by
      intro b hb
      induction hb with
      | single hab => exact (h.hangs a).rank_lt h.room hab
      | tail _ hbc ih => exact ((h.hangs _).rank_lt h.room hbc).trans ih
    exact lt_irrefl _ (hdown a ha)

end Parses

/-- **The arena of an accepted source is a forest.**  An arena never grows beyond the ids there
are. -/
theorem accepts_forest (h : Parser.Accepts src tree) : Forest tree := by
  rcases Parser.accepts_unit h with ⟨u, hu⟩
  exact hu.forest

theorem accepts_forest_sample :
    ∃ tree, Parser.parse (bytes "while (a) f(b);") 20 = Option.some (.ok tree) ∧ Forest tree := by
  have hparse : Parser.parse (bytes "while (a) f(b);") 20 = Option.some (.ok
      [default, ⟨IdentifierExpr, {}, 7, 1, Data.literal Ident 0⟩,
        ⟨IdentifierExpr, {}, 10, 1, Data.literal Ident 0⟩,
        ⟨IdentifierExpr, {}, 12, 1, Data.literal Ident 0⟩, ⟨CallExpr, {}, 14, 0, Data.call 2 3⟩,
        ⟨CompileTimeJump, {}, 0, 0, Data.evalOp 1 4 kNullNode⟩]) := by
    decide +kernel
  exact ⟨_, hparse, accepts_forest (Parser.accepts_of_parse hparse)⟩

end LogicCompiler
