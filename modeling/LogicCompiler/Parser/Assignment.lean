import LogicCompiler.Parser.Completeness
import Mathlib.Algebra.Ring.Nat

/-!
# Chains of assignments

`e1 op1 e2 op2 … en`, where every operator assigns.  The generated code stores through the left
operand, so such a chain has a meaning only when it is grouped to the right.  The parser groups
every chain to the left, because the loop of `parseExpression` asks for a higher precedence on the
right of each operator; and its table of precedences lacks three of the operators.
-/

namespace LogicCompiler

open TokenType NodeKind Cat LogicCompiler.Parser

/-- The operators that assign, as the lexer produces them. -/
def assignmentOperators : List TokenType :=
  [Equals, PlusEquals, MinusEquals, StarEquals, SlashEquals, PercEquals, AmpEquals, BarEquals,
    UpEquals, LLeEquals, GGrEquals, TildeEquals]

lemma precedence_assignment {type : TokenType} (h : type ∈ assignmentOperators) :
    getPrecedence type ≤ 1 := by
  revert h
  cases type <;> decide

lemma precedence_pos {type : TokenType} (h : type ∈ assignmentOperators)
    (hknown : type ∉ [LLeEquals, GGrEquals, TildeEquals]) : 0 < getPrecedence type := by
  revert h hknown
  cases type <;> decide

/-- Without a precedence, an assignment operator ends the expression in front of it. -/
lemma endsExpression_assignment {t : Token} (h : t.type ∈ assignmentOperators)
    (hprec : ¬ 0 < getPrecedence t.type) : EndsExpression t := by
  refine ⟨?_, Nat.eq_zero_of_not_pos hprec⟩
  revert h
  cases t.type <;> decide

/-- An operator and the operand behind it. -/
abbrev Link := TokOf assignmentOperators × Syn expr

/-- The tokens of a chain of assignments, up to its last operand. -/
def linkTokens (links : List Link) : List Token := links.flatMap fun x => x.1.1 :: x.2.tokens

/-- The nodes of the operands and of the operators. -/
def linkSize (links : List Link) : ℕ := (links.map fun x => x.2.size + 1).sum

section Links

variable {op : TokOf assignmentOperators} {e : Syn expr} {links : List Link}

@[simp] lemma linkTokens_nil : linkTokens [] = [] := rfl

@[simp] lemma linkTokens_cons :
    linkTokens ((op, e) :: links) = op.1 :: (e.tokens ++ linkTokens links) := rfl

@[simp] lemma linkSize_nil : linkSize [] = 0 := rfl

@[simp] lemma linkSize_cons : linkSize ((op, e) :: links) = e.size + 1 + linkSize links := rfl

end Links

/-- The operands of the links bind more tightly than an assignment, and the parser reads each of
them as it is. -/
def Tight (src : List Byte) : List Link → Token → Prop
  | [], _ => True
  | (_, e) :: rest, next =>
      2 ≤ e.level ∧ e.Canonical src (firstToken (linkTokens rest) next) ∧ Tight src rest next

/-- The node `id` is the chain that starts with `first`, grouped to the right: the left child of
every assignment is an operand of the chain. -/
def GroupsRight (tree : ASTTree) (id : NodeId) (first : Syn expr) : List Link → Prop
  | [] => Sits tree id first
  | (op, e) :: rest => ∃ n, tree[id]? = some n ∧ n.kind = BinaryExpr ∧ n.data.op = op.1.type.code ∧
      Sits tree n.data.lhs first ∧ GroupsRight tree n.data.rhs e rest

section Chain

variable {σ : Type} [TokenSource σ]

/-- A whole chain stands in front of the parser, and `w` is the window behind it. -/
structure IsChain (p : Parser σ) (first : Syn expr) (rest : List Link) (w : Lookahead σ) :
    Prop where
  nonempty : rest ≠ []
  reads : Reads p.toLookahead (first.tokens ++ linkTokens rest) w
  tight : 2 ≤ first.level
  canonical : first.Canonical p.source (firstToken (linkTokens rest) w.window0)
  links : Tight p.source rest w.window0
  room : p.tree.length + (first.size + linkSize rest) ≤ kNullNode
  ends : EndsExpression w.window0
  last : w.window0.type ∉ assignmentOperators

/-- `parseExpression(0)` consumes the chain and groups it to the right. -/
def AssignsRight (p : Parser σ) (first : Syn expr) (rest : List Link) (w : Lookahead σ) : Prop :=
  ∃ id p', Fuel.Evals parser (fun c => c.parseExpression 0) p id p' ∧ p'.toLookahead = w ∧
    GroupsRight p'.tree id first rest

end Chain

/-! ## What the parser makes of a chain -/

/-- The links up to the first operator without a precedence, grouped to the left. -/
def taken (lhs : Syn expr) : List Link → Syn expr
  | [] => lhs
  | (op, e) :: rest =>
      if h : 0 < getPrecedence op.1.type then taken (Syn.binary lhs ⟨op.1, h⟩ e) rest else lhs

/-- The links from there on. -/
def left (links : List Link) : List Link :=
  links.dropWhile fun x => 0 < getPrecedence x.1.1.type

section Taken

variable {src : List Byte} {next : Token} {lhs : Syn expr} {links : List Link}

lemma left_cases (links : List Link) :
    (left links = [] ∧ ∀ x ∈ links, 0 < getPrecedence x.1.1.type) ∨
    ∃ x rest, left links = x :: rest ∧ x ∈ links ∧ ¬ 0 < getPrecedence x.1.1.type := by
  induction links with
  | nil => exact Or.inl ⟨rfl, fun x hx => absurd hx List.not_mem_nil⟩
  | cons x links ih =>
      by_cases h : 0 < getPrecedence x.1.1.type
      · have hleft : left (x :: links) = left links := by simp [left, h]
        rcases ih with ⟨hnil, hall⟩ | ⟨y, rest, hcons, hy, hprec⟩
        · exact Or.inl ⟨hleft.trans hnil, List.forall_mem_cons.mpr ⟨h, hall⟩⟩
        · exact Or.inr ⟨y, rest, hleft.trans hcons, List.mem_cons_of_mem x hy, hprec⟩
      · exact Or.inr ⟨x, links, by simp [left, h], List.mem_cons_self, h⟩

lemma taken_tokens (lhs : Syn expr) (links : List Link) :
    (taken lhs links).tokens ++ linkTokens (left links) = lhs.tokens ++ linkTokens links := by
  induction links generalizing lhs with
  | nil => rfl
  | cons x rest ih =>
      rcases x with ⟨op, e⟩
      by_cases h : 0 < getPrecedence op.1.type
      · simpa [taken, left, h, Syn.tokens] using ih (Syn.binary lhs ⟨op.1, h⟩ e)
      · simp [taken, left, h]

lemma taken_size (lhs : Syn expr) (links : List Link) :
    (taken lhs links).size ≤ lhs.size + linkSize links := by
  induction links generalizing lhs with
  | nil => exact le_rfl
  | cons x rest ih =>
      rcases x with ⟨op, e⟩
      by_cases h : 0 < getPrecedence op.1.type
      · have hsize := ih (Syn.binary lhs ⟨op.1, h⟩ e)
        simp only [Syn.size] at hsize
        simp only [taken, dif_pos h, linkSize_cons]
        omega
      · simp [taken, h]

/-- The operands bind tightly enough for the grouping to the left. -/
lemma taken_canonical (hlevel : 1 ≤ lhs.level)
    (hlhs : lhs.Canonical src (firstToken (linkTokens links) next)) (h : Tight src links next) :
    (taken lhs links).Canonical src (firstToken (linkTokens (left links)) next) := by
  induction links generalizing lhs with
  | nil => exact hlhs
  | cons x rest ih =>
      rcases x with ⟨op, e⟩
      by_cases hprec : 0 < getPrecedence op.1.type
      · have hone : getPrecedence op.1.type ≤ 1 := precedence_assignment op.2
        have hleft : left ((op, e) :: rest) = left rest := by simp [left, hprec]
        rw [taken, dif_pos hprec, hleft]
        exact ih hprec ⟨hone.trans hlevel, lt_of_le_of_lt hone h.1, hlhs, h.2.1⟩ h.2.2
      · have hleft : left ((op, e) :: rest) = (op, e) :: rest := by simp [left, hprec]
        rw [taken, dif_neg hprec, hleft]
        exact hlhs

end Taken

/-! ## The depth on the left -/

/-- How many binary nodes are passed on the way down the left children. -/
inductive Spine (tree : ASTTree) : NodeId → ℕ → Prop
  | operand {id : NodeId} {n : Node} (h : tree[id]? = some n) (hkind : n.kind ≠ BinaryExpr) :
      Spine tree id 0
  | left {id : NodeId} {n : Node} {d : ℕ} (h : tree[id]? = some n) (hkind : n.kind = BinaryExpr)
      (hlhs : Spine tree n.data.lhs d) : Spine tree id (d + 1)

lemma Spine.unique {tree : ASTTree} {id : NodeId} {d d' : ℕ} (h : Spine tree id d)
    (h' : Spine tree id d') : d = d' := by
  induction h generalizing d' with
  | operand hn hkind =>
      cases h' with
      | operand => rfl
      | left hn' hkind' =>
          obtain rfl : _ = _ := Option.some.inj (hn.symm.trans hn')
          exact absurd hkind' hkind
  | left hn hkind _ ih =>
      cases h' with
      | operand hn' hkind' =>
          obtain rfl : _ = _ := Option.some.inj (hn.symm.trans hn')
          exact absurd hkind hkind'
      | left hn' _ hlhs' =>
          obtain rfl : _ = _ := Option.some.inj (hn.symm.trans hn')
          rw [ih hlhs']

/-- The depth of the tree that is built from an expression. -/
def Syn.leftDepth : {k : Cat} → Syn k → ℕ
  | _, paren _ e _ => e.leftDepth
  | _, index e _ _ _ => e.leftDepth + 1
  | _, binary lhs _ _ => lhs.leftDepth + 1
  | _, _ => 0

lemma Syn.spine {tree : ASTTree} : (e : Syn expr) → {base next : ℕ} →
    Lies tree base (e.nodes base next) → Spine tree (e.root base) e.leftDepth
  | pre op e, _, _, h => by
      simp only [nodes, lies_append, lies_cons, length_nodes] at h
      exact Spine.operand h.2.1 (by simp [tokenNode])
  | literal t, _, _, h => Spine.operand (lies_cons.mp h).1 (by simp [tokenNode])
  | ident t, _, _, h => Spine.operand (lies_cons.mp h).1 (by simp [tokenNode])
  | eval (conditional k l cond r thenBlock elseBlock), _, _, h => by
      simp only [nodes, lies_append, lies_cons, length_nodes] at h
      simp only [root, ← Nat.add_assoc]
      exact Spine.operand h.2.2.2.1 (by simp [plainNode])
  | cast l d r, _, _, h => by
      simp only [nodes, lies_append, lies_cons, length_nodes] at h
      exact Spine.operand h.2.1 (by simp [plainNode])
  | blockExpr (braced l body r), _, _, h => by
      simp only [nodes, lies_cons] at h
      exact Spine.operand h.1 (by simp [plainNode])
  | paren l e r, _, _, h => e.spine h
  | call f l args r, _, _, h => by
      simp only [nodes, lies_append, lies_cons, length_nodes] at h
      simp only [root, ← Nat.add_assoc]
      exact Spine.operand h.2.2.1 (by simp [plainNode])
  | member e op name, _, _, h => by
      simp only [nodes, lies_append, lies_cons, length_nodes] at h
      simp only [root, ← Nat.add_assoc]
      exact Spine.operand h.2.2.1 (by simp [plainNode])
  | index e l i r, _, _, h => by
      simp only [nodes, lies_append, lies_cons, length_nodes] at h
      simp only [root, ← Nat.add_assoc]
      exact Spine.left h.2.2.1 rfl (e.spine h.1)
  | post e op, _, _, h => by
      simp only [nodes, lies_append, lies_cons, length_nodes] at h
      exact Spine.operand h.2.1 (by simp [plainNode])
  | binary lhs op rhs, _, _, h => by
      simp only [nodes, lies_append, lies_cons, length_nodes] at h
      simp only [root, ← Nat.add_assoc]
      exact Spine.left h.2.2.1 rfl (lhs.spine h.1)

/-- Every operator of a chain that is grouped to the left adds to the depth. -/
lemma leftDepth_taken (lhs : Syn expr) {links : List Link}
    (h : ∀ x ∈ links, 0 < getPrecedence x.1.1.type) :
    (taken lhs links).leftDepth = lhs.leftDepth + links.length := by
  induction links generalizing lhs with
  | nil => rfl
  | cons x rest ih =>
      rcases x with ⟨op, e⟩
      rw [List.forall_mem_cons] at h
      rw [taken, dif_pos h.1, ih _ h.2, Syn.leftDepth, List.length_cons]
      omega

lemma Sits.spine {tree : ASTTree} {id : NodeId} {e : Syn expr} (h : Sits tree id e) :
    Spine tree id e.leftDepth := by
  rcases h with ⟨base, next, hlies, rfl⟩
  exact e.spine hlies

/-- In a chain that is grouped to the right only the first operator is on the left. -/
lemma GroupsRight.spine {tree : ASTTree} {id : NodeId} {first : Syn expr} {rest : List Link}
    (h : GroupsRight tree id first rest) (hne : rest ≠ []) :
    Spine tree id (first.leftDepth + 1) := by
  cases rest with
  | nil => exact absurd rfl hne
  | cons x rest =>
      rcases h with ⟨n, hn, hkind, -, hlhs, -⟩
      exact Spine.left hn hkind hlhs.spine

section Runs

variable {σ : Type} [TokenSource σ] {p p' : Parser σ} {w : Lookahead σ} {first : Syn expr}
  {rest : List Link} {id : NodeId}

/-- **The parser stops at the first operator without a precedence, and groups what it has read to
the left.** -/
theorem IsChain.runs (h : IsChain p first rest w) : ∃ w',
    Reads w' (linkTokens (left rest)) w ∧
      Fuel.Evals parser (fun c => c.parseExpression 0) p ((taken first rest).root p.tree.length)
        (p.along (taken first rest) w') := by
  rcases Reads.append_iff.mp (taken_tokens first rest ▸ h.reads) with ⟨w', htaken, hleft⟩
  have hends : EndsExpression w'.window0 := by
    rw [← hleft.firstToken]
    rcases left_cases rest with ⟨hnil, -⟩ | ⟨⟨op, e⟩, more, hcons, -, hprec⟩
    · rw [hnil]
      exact h.ends
    · rw [hcons]
      exact endsExpression_assignment op.2 hprec
  have hcan := taken_canonical (Nat.le_of_succ_le h.tight) h.canonical h.links
  have hsize := taken_size first rest
  have hroom := h.room
  have hfront : InFront p (taken first rest) w' :=
    ⟨htaken, hleft.firstToken ▸ hcan, by omega⟩
  exact ⟨w', hleft, ((found _).whole hfront hends).evals⟩

/-- Only the operators that have a precedence are consumed. -/
lemma IsChain.consumed (h : IsChain p first rest w) (hright : AssignsRight p first rest w) :
    ∀ x ∈ rest, 0 < getPrecedence x.1.1.type := by
  rcases hright with ⟨id, p', hrun, hw, -⟩
  rcases h.runs with ⟨w', hleft, hrun'⟩
  rcases left_cases rest with ⟨-, hall⟩ | ⟨⟨op, e⟩, more, hcons, -, -⟩
  · exact hall
  · rcases Fuel.Evals.unique monotone_calls_table (monotone_calls.2.1 0) hrun hrun' with ⟨-, rfl⟩
    rw [hcons, linkTokens_cons] at hleft
    have hop : w.window0 = op.1 := hw ▸ (Reads.cons_iff.mp hleft).1
    exact absurd (hop ▸ op.2) h.last

/-- A chain of known operators has one depth when grouped to the left and another one when grouped
to the right, unless there is only one operator. -/
lemma IsChain.single (h : IsChain p first rest w) (hright : AssignsRight p first rest w) :
    rest.length = 1 := by
  have hall := h.consumed hright
  rcases hright with ⟨id, p', hrun, -, hgroups⟩
  rcases h.runs with ⟨w', -, hrun'⟩
  rcases Fuel.Evals.unique monotone_calls_table (monotone_calls.2.1 0) hrun hrun' with ⟨rfl, rfl⟩
  have hlies := p.along_lies (taken first rest) w'
  have hdepth := (hgroups.spine h.nonempty).unique ((taken first rest).spine hlies)
  rw [leftDepth_taken first hall] at hdepth
  omega

/-- **A chain of assignments is grouped to the right if and only if it is a single assignment, by
an operator that is in the table of precedences.** -/
theorem assigns_right_iff (h : IsChain p first rest w) :
    AssignsRight p first rest w ↔
      ∃ op e, rest = [(op, e)] ∧ op.1.type ∉ [LLeEquals, GGrEquals, TildeEquals] := by
  constructor
  · intro hright
    rcases List.length_eq_one_iff.mp (h.single hright) with ⟨⟨op, e⟩, rfl⟩
    have hprec := h.consumed hright (op, e) List.mem_cons_self
    refine ⟨op, e, rfl, fun hmem => ?_⟩
    simp only [List.mem_cons, List.not_mem_nil, or_false] at hmem
    rcases hmem with htype | htype | htype <;> simp [htype, getPrecedence] at hprec
  · rintro ⟨op, e, rfl, hop⟩
    have hprec : 0 < getPrecedence op.1.type := precedence_pos op.2 hop
    rcases h.runs with ⟨w', hleft, hrun⟩
    have hnil : left [(op, e)] = [] := by simp [left, hprec]
    rw [hnil, linkTokens_nil, Reads.nil_iff] at hleft
    rw [taken, dif_pos hprec, taken] at hrun
    refine ⟨_, _, hrun, hleft.symm, ?_⟩
    have hlies := p.along_lies (Syn.binary first ⟨op.1, hprec⟩ e) w'
    simp only [Syn.nodes, lies_append, lies_cons, Syn.length_nodes] at hlies
    rw [Nat.add_assoc] at hlies
    exact ⟨_, hlies.2.2.1, rfl, by simp [plainNode], ⟨_, _, hlies.1, rfl⟩, ⟨_, _, hlies.2.1, rfl⟩⟩

end Runs

/-! ## Chains of names -/

/-- A name of one letter. -/
def letter (offset : ℕ) : Syn expr := Syn.ident ⟨⟨offset, 1, 0, 0, Ident⟩, List.mem_cons_self⟩

/-- A stream that holds a chain and a `;`. -/
def chainStream (source : List Byte) (first : Syn expr) (rest : List Link) : Parser (List Token) :=
  Parser.init (first.tokens ++ linkTokens rest ++ [{ type := Semi }]) source

/-- A stream of names and operators is a chain. -/
lemma isChain_letters (source : List Byte) (n : ℕ) (x : TokOf assignmentOperators × ℕ)
    (xs : List (TokOf assignmentOperators × ℕ)) (hroom : 2 * xs.length + 3 ≤ kNullNode) :
    IsChain (chainStream source (letter n) ((x :: xs).map fun x => (x.1, letter x.2))) (letter n)
      ((x :: xs).map fun x => (x.1, letter x.2)) (Lookahead.initWindow [{ type := Semi }]) where
  nonempty := List.cons_ne_nil _ _
  reads := by
    show Reads (Lookahead.initWindow ((letter n).tokens ++
      linkTokens ((x :: xs).map fun x => (x.1, letter x.2)) ++ [{ type := Semi }])) _ _
    refine reads_list [{ type := Semi }] fun t ht => ?_
    simp only [linkTokens, letter, Syn.tokens, List.flatMap_map, List.mem_append, List.mem_flatMap,
      List.mem_cons, List.not_mem_nil, or_false] at ht
    rintro htype
    rcases ht with rfl | ⟨y, -, rfl | rfl⟩
    · cases htype
    · exact absurd (htype ▸ y.1.2) (by decide)
    · cases htype
  tight := Nat.le_add_left 2 11
  canonical := trivial
  links := by
    generalize x :: xs = ys
    induction ys with
    | nil => trivial
    | cons y ys ih => exact ⟨Nat.le_add_left 2 11, trivial, ih⟩
  room := by
    have hsize : ∀ ys : List (TokOf assignmentOperators × ℕ),
        linkSize (ys.map fun x => (x.1, letter x.2)) = 2 * ys.length := by
      intro ys
      induction ys with
      | nil => rfl
      | cons y ys ih =>
          rw [List.map_cons, linkSize_cons, ih, letter, Syn.size, List.length_cons]
          omega
    rw [hsize, letter, Syn.size, List.length_cons]
    simp only [chainStream, Parser.init, List.length_nil]
    omega
  ends := ⟨by decide, rfl⟩
  last := by decide

/-- `a=b=c;` is grouped to the left, and of `a~=b;` only `a` is read. -/
theorem assigns_left_sample :
    (∃ rest, rest = [(⟨⟨1, 1, 0, 0, Equals⟩, by decide⟩, letter 2),
        (⟨⟨3, 1, 0, 0, Equals⟩, by decide⟩, letter 4)] ∧
      IsChain (chainStream (bytes "a=b=c;") (letter 0) rest) (letter 0) rest
        (Lookahead.initWindow [{ type := Semi }]) ∧
      ¬ AssignsRight (chainStream (bytes "a=b=c;") (letter 0) rest) (letter 0) rest
        (Lookahead.initWindow [{ type := Semi }])) ∧
    ∃ rest, rest = [(⟨⟨1, 2, 0, 0, TildeEquals⟩, by decide⟩, letter 3)] ∧
      IsChain (chainStream (bytes "a~=b;") (letter 0) rest) (letter 0) rest
        (Lookahead.initWindow [{ type := Semi }]) ∧
      ¬ AssignsRight (chainStream (bytes "a~=b;") (letter 0) rest) (letter 0) rest
        (Lookahead.initWindow [{ type := Semi }]) := by
  have htwo := isChain_letters (bytes "a=b=c;") 0 (⟨⟨1, 1, 0, 0, Equals⟩, by decide⟩, 2)
    [(⟨⟨3, 1, 0, 0, Equals⟩, by decide⟩, 4)] (by decide)
  have htilde := isChain_letters (bytes "a~=b;") 0 (⟨⟨1, 2, 0, 0, TildeEquals⟩, by decide⟩, 3) []
    (by decide)
  refine ⟨⟨_, rfl, htwo, fun hright => ?_⟩, _, rfl, htilde, fun hright => ?_⟩
  · exact absurd (htwo.single hright) (by decide)
  · exact absurd (htilde.consumed hright _ List.mem_cons_self) (by decide)

/-- `a=b;` -/
theorem assigns_right_sample :
    ∃ rest, rest = [(⟨⟨1, 1, 0, 0, Equals⟩, by decide⟩, letter 2)] ∧
      AssignsRight (chainStream (bytes "a=b;") (letter 0) rest) (letter 0) rest
        (Lookahead.initWindow [{ type := Semi }]) :=
  ⟨_, rfl, (assigns_right_iff (isChain_letters (bytes "a=b;") 0
    (⟨⟨1, 1, 0, 0, Equals⟩, by decide⟩, 2) [] (by decide))).mpr ⟨_, _, rfl, by decide⟩⟩

end LogicCompiler
