import LogicCompiler.Parser.Completeness
import Mathlib.Data.List.Forall2

/-!
# Parsing inverts printing

Expression trees, printed with parentheses where precedence and left associativity ask for them.
The printed tokens are those of a grouped piece of syntax, so the parser finds it.
-/

namespace LogicCompiler

open TokenType NodeKind Cat LogicCompiler.Parser

/-- Expression trees.  Leaves carry their token. -/
inductive Expr where
  | literal (t : TokOf literals)
  | ident (t : TokOf identifiers)
  | pre (op : {type // type ∈ prefixOperators}) (e : Expr)
  | post (e : Expr) (op : {type // type ∈ [PPlus, MMinus]})
  | member (e : Expr) (op : {type // type ∈ [Dot, Arrow]}) (name : Tok Ident)
  | index (e i : Expr)
  | call (f : Expr)
  | callWith (f arg : Expr)
  /-- the operators but those of assignment -/
  | binary (lhs : Expr) (op : {type // 2 ≤ getPrecedence type}) (rhs : Expr)

namespace Expr

/-- How tightly the outermost form binds. -/
def level : Expr → ℕ
  | binary _ op _ => getPrecedence op.1
  | pre _ _ => 12
  | _ => 13

/-- The number of nodes. -/
def size : Expr → ℕ
  | literal _ => 1
  | ident _ => 1
  | pre _ e => e.size + 1
  | post e _ => e.size + 1
  | member e _ _ => e.size + 2
  | index e i => e.size + (i.size + 1)
  | call f => f.size + 1
  | callWith f arg => f.size + (arg.size + 1)
  | binary lhs _ rhs => lhs.size + (rhs.size + 1)

/-- A token of which only the type matters. -/
def symbol (type : TokenType) : Token := { type }

/-- Parentheses around what binds less tightly than `least`. -/
def wrap (least level : ℕ) (ts : List Token) : List Token :=
  if level < least then symbol Left :: (ts ++ [symbol Right]) else ts

/-- The tokens of an expression, with parentheses where the levels ask for them. -/
def print : Expr → List Token
  | literal t => [t.1]
  | ident t => [t.1]
  | pre op e => symbol op.1 :: wrap 12 e.level e.print
  | post e op => wrap 13 e.level e.print ++ [symbol op.1]
  | member e op name => wrap 13 e.level e.print ++ [symbol op.1, name.1]
  | index e i => wrap 13 e.level e.print ++ symbol SqLeft :: (i.print ++ [symbol SqRight])
  | call f => wrap 13 f.level f.print ++ [symbol Left, symbol Right]
  | callWith f arg => wrap 13 f.level f.print ++ symbol Left :: (arg.print ++ [symbol Right])
  | binary lhs op rhs =>
      wrap (getPrecedence op.1) lhs.level lhs.print
        ++ symbol op.1 :: wrap (getPrecedence op.1 + 1) rhs.level rhs.print

/-- The node `id` of the arena and those it refers to are the tree `e`. -/
def At (tree : ASTTree) : Expr → NodeId → Prop
  | literal t, id => tree[id]? = some (tokenNode LiteralExpr t.1)
  | ident t, id => tree[id]? = some (tokenNode IdentifierExpr t.1)
  | pre op e, id => ∃ n, tree[id]? = some n ∧ n.kind = UnaryExpr ∧ n.data.op = op.1.code ∧
      At tree e n.data.operand
  | post e op, id => ∃ n, tree[id]? = some n ∧ n.kind = UnaryExpr ∧ n.data.op = op.1.code ∧
      At tree e n.data.operand
  | member e op name, id => ∃ n, tree[id]? = some n ∧ n.kind = MemberAccessExpr ∧
      n.data.op = op.1.code ∧ At tree e n.data.lhs ∧
      tree[n.data.rhs]? = some (tokenNode IdentifierExpr name.1)
  | index e i, id => ∃ n, tree[id]? = some n ∧ n.kind = BinaryExpr ∧
      n.data.op = SqLeft.code ∧ At tree e n.data.lhs ∧ At tree i n.data.rhs
  | call f, id => ∃ n, tree[id]? = some n ∧ n.kind = CallExpr ∧ At tree f n.data.target ∧
      n.data.argsList = kNullNode
  | callWith f arg, id => ∃ n, tree[id]? = some n ∧ n.kind = CallExpr ∧
      At tree f n.data.target ∧ At tree arg n.data.argsList
  | binary lhs op rhs, id => ∃ n, tree[id]? = some n ∧ n.kind = BinaryExpr ∧
      n.data.op = op.1.code ∧ At tree lhs n.data.lhs ∧ At tree rhs n.data.rhs

end Expr

/-- A token that can stand for a printed one: one of the same type, for a leaf the same token. -/
def Stands (t u : Token) : Prop :=
  t.type = u.type ∧ (t.type ∈ literals ∨ t.type ∈ identifiers → u = t)

lemma forall₂_append_left {α β : Type} {R : α → β → Prop} {l m : List α} {u : List β}
    (h : List.Forall₂ R (l ++ m) u) :
    ∃ v w, List.Forall₂ R l v ∧ List.Forall₂ R m w ∧ v ++ w = u := by
  induction l generalizing u with
  | nil => exact ⟨[], u, List.Forall₂.nil, h, rfl⟩
  | cons a l ih =>
      rw [List.cons_append, List.forall₂_cons_left_iff] at h
      rcases h with ⟨b, u, hab, h, rfl⟩
      rcases ih h with ⟨v, w, hv, hw, rfl⟩
      exact ⟨b :: v, w, List.Forall₂.cons hab hv, hw, rfl⟩

lemma stands_single {t : Token} {us : List Token} (h : List.Forall₂ Stands [t] us) :
    ∃ u, Stands t u ∧ [u] = us := by
  rcases List.forall₂_cons_left_iff.mp h with ⟨u, vs, hu, hvs, rfl⟩
  rw [List.forall₂_nil_left_iff.mp hvs]
  exact ⟨u, hu, rfl⟩

lemma stands_pair {t t' : Token} {us : List Token} (h : List.Forall₂ Stands [t, t'] us) :
    ∃ u u', Stands t u ∧ Stands t' u' ∧ [u, u'] = us := by
  rcases List.forall₂_cons_left_iff.mp h with ⟨u, vs, hu, hvs, rfl⟩
  rcases stands_single hvs with ⟨u', hu', rfl⟩
  exact ⟨u, u', hu, hu', rfl⟩

/-- What is printed between two symbols. -/
lemma stands_between {a b : TokenType} {ts us : List Token}
    (h : List.Forall₂ Stands (Expr.symbol a :: (ts ++ [Expr.symbol b])) us) :
    ∃ (l : Tok a) (r : Tok b) (vs : List Token), List.Forall₂ Stands ts vs ∧
      l.1 :: (vs ++ [r.1]) = us := by
  rcases List.forall₂_cons_left_iff.mp h with ⟨l, vs, hl, hvs, rfl⟩
  rcases forall₂_append_left hvs with ⟨xs, ws, hxs, hws, rfl⟩
  rcases stands_single hws with ⟨r, hr, rfl⟩
  exact ⟨⟨l, hl.1.symm⟩, ⟨r, hr.1.symm⟩, xs, hxs, rfl⟩

/-- The syntax `s` is the printed tree `e`. -/
structure Prints (e : Expr) (s : Syn expr) : Prop where
  grouped : s.Grouped
  size : s.size = e.size
  at' {tree : ASTTree} {base next : ℕ} :
    Lies tree base (s.nodes base next) → e.At tree (s.root base)

/-- Wrapped syntax has the level it was wrapped for. -/
lemma wrapped_syntax {e : Expr} {least : ℕ} {us : List Token} (hleast : least ≤ 13)
    (ih : ∀ {us}, List.Forall₂ Stands e.print us →
      ∃ s : Syn expr, s.tokens = us ∧ e.level ≤ s.level ∧ Prints e s)
    (h : List.Forall₂ Stands (Expr.wrap least e.level e.print) us) :
    ∃ s : Syn expr, s.tokens = us ∧ least ≤ s.level ∧ Prints e s := by
  unfold Expr.wrap at h
  split_ifs at h with hlt
  · rcases stands_between h with ⟨l, r, vs, hvs, rfl⟩
    rcases ih hvs with ⟨s, rfl, -, hs⟩
    exact ⟨Syn.paren l s r, rfl, hleast, hs.grouped, hs.size, hs.at'⟩
  · rcases ih h with ⟨s, hs, hlevel, hp⟩
    exact ⟨s, hs, by omega, hp⟩

/-- The printed tokens are those of grouped syntax. -/
lemma Expr.print_syntax (e : Expr) {us : List Token} (h : List.Forall₂ Stands e.print us) :
    ∃ s : Syn expr, s.tokens = us ∧ e.level ≤ s.level ∧ Prints e s := by
  induction e generalizing us with
  | literal t =>
      rcases stands_single h with ⟨u, hu, rfl⟩
      obtain rfl := hu.2 (Or.inl t.2)
      refine ⟨Syn.literal t, rfl, le_rfl, trivial, rfl, ?_⟩
      intro tree base next hlies
      exact (lies_cons.mp hlies).1
  | ident t =>
      rcases stands_single h with ⟨u, hu, rfl⟩
      obtain rfl := hu.2 (Or.inr t.2)
      refine ⟨Syn.ident t, rfl, le_rfl, trivial, rfl, ?_⟩
      intro tree base next hlies
      exact (lies_cons.mp hlies).1
  | pre op e ih =>
      rcases List.forall₂_cons_left_iff.mp h with ⟨u, us, hu, hus, rfl⟩
      rcases wrapped_syntax (by decide) ih hus with ⟨s, rfl, hlevel, hs⟩
      have hop : u.type = op.1 := hu.1.symm
      refine ⟨Syn.pre ⟨u, hop ▸ op.2⟩ s, rfl, le_rfl, ⟨hlevel, hs.grouped⟩, ?_, ?_⟩
      · simp [Syn.size, size, hs.size]
      · intro tree base next hlies
        simp only [Syn.nodes, lies_append, lies_cons, Syn.length_nodes] at hlies
        exact ⟨_, hlies.2.1, rfl, by simp [hop], by simpa using hs.at' hlies.1⟩
  | post e op ih =>
      rcases forall₂_append_left h with ⟨vs, ws, hvs, hws, rfl⟩
      rcases wrapped_syntax le_rfl ih hvs with ⟨s, rfl, hlevel, hs⟩
      rcases stands_single hws with ⟨u, hu, rfl⟩
      have hop : u.type = op.1 := hu.1.symm
      refine ⟨Syn.post s ⟨u, hop ▸ op.2⟩, rfl, le_rfl, ⟨hlevel, hs.grouped⟩, ?_, ?_⟩
      · simp [Syn.size, size, hs.size]
      · intro tree base next hlies
        simp only [Syn.nodes, lies_append, lies_cons, Syn.length_nodes] at hlies
        exact ⟨_, hlies.2.1, rfl, by simp [plainNode, hop],
          by simpa [plainNode] using hs.at' hlies.1⟩
  | member e op name ih =>
      rcases forall₂_append_left h with ⟨vs, ws, hvs, hws, rfl⟩
      rcases wrapped_syntax le_rfl ih hvs with ⟨s, rfl, hlevel, hs⟩
      rcases stands_pair hws with ⟨u, v, hu, hv, rfl⟩
      obtain rfl := hv.2 (Or.inr (by simp [name.2, identifiers]))
      have hop : u.type = op.1 := hu.1.symm
      refine ⟨Syn.member s ⟨u, hop ▸ op.2⟩ name, rfl, le_rfl, ⟨hlevel, hs.grouped⟩, ?_, ?_⟩
      · simp [Syn.size, size, hs.size]
      · intro tree base next hlies
        simp only [Syn.nodes, lies_append, lies_cons, Syn.length_nodes] at hlies
        exact ⟨_, hlies.2.2.1, rfl, by simp [plainNode, hop],
          by simpa [plainNode] using hs.at' hlies.1, by simpa [plainNode] using hlies.2.1⟩
  | index e i ihe ihi =>
      rcases forall₂_append_left h with ⟨vs, ws, hvs, hws, rfl⟩
      rcases wrapped_syntax le_rfl ihe hvs with ⟨s, rfl, hlevel, hs⟩
      rcases stands_between hws with ⟨l, r, xs, hxs, rfl⟩
      rcases ihi hxs with ⟨t, rfl, -, ht⟩
      refine ⟨Syn.index s l t r, rfl, le_rfl, ⟨hlevel, hs.grouped, ht.grouped⟩, ?_, ?_⟩
      · simp [Syn.size, size, hs.size, ht.size]
      · intro tree base next hlies
        simp only [Syn.nodes, lies_append, lies_cons, Syn.length_nodes] at hlies
        exact ⟨_, by rw [Syn.root, ← Nat.add_assoc]; exact hlies.2.2.1, rfl, by simp [plainNode],
          by simpa [plainNode] using hs.at' hlies.1, by simpa [plainNode] using ht.at' hlies.2.1⟩
  | call f ih =>
      rcases forall₂_append_left h with ⟨vs, ws, hvs, hws, rfl⟩
      rcases wrapped_syntax le_rfl ih hvs with ⟨s, rfl, hlevel, hs⟩
      rcases stands_pair hws with ⟨l, r, hl, hr, rfl⟩
      refine ⟨Syn.call s ⟨l, hl.1.symm⟩ Syn.none ⟨r, hr.1.symm⟩, rfl, le_rfl,
        ⟨hlevel, hs.grouped, trivial⟩, ?_, ?_⟩
      · simp [Syn.size, size, hs.size]
      · intro tree base next hlies
        simp only [Syn.nodes, lies_append, lies_cons, Syn.length_nodes] at hlies
        exact ⟨_, by simpa [Syn.root, Syn.size] using hlies.2.2.1, rfl,
          by simpa [plainNode] using hs.at' hlies.1, by simp [plainNode]⟩
  | callWith f arg ihf iha =>
      rcases forall₂_append_left h with ⟨vs, ws, hvs, hws, rfl⟩
      rcases wrapped_syntax le_rfl ihf hvs with ⟨s, rfl, hlevel, hs⟩
      rcases stands_between hws with ⟨l, r, xs, hxs, rfl⟩
      rcases iha hxs with ⟨t, rfl, -, ht⟩
      refine ⟨Syn.call s l (Syn.some (Syn.seq t Syn.nil)) r, by simp [Syn.tokens], le_rfl,
        ⟨hlevel, hs.grouped, ht.grouped, trivial⟩, ?_, ?_⟩
      · simp [Syn.size, size, hs.size, ht.size]
      · intro tree base next hlies
        simp only [Syn.nodes, lies_append, lies_cons, Syn.length_nodes] at hlies
        exact ⟨_, by simpa [Syn.root, Syn.size, Nat.add_assoc] using hlies.2.2.1, rfl,
          by simpa [plainNode] using hs.at' hlies.1,
          by simpa [plainNode, Syn.root] using ht.at' hlies.2.1.1⟩
  | binary lhs op rhs ihl ihr =>
      rcases forall₂_append_left h with ⟨vs, ws, hvs, hws, rfl⟩
      have hle := getPrecedence_le op.1
      rcases wrapped_syntax (by omega) ihl hvs with ⟨s, rfl, hlevel, hs⟩
      rcases List.forall₂_cons_left_iff.mp hws with ⟨u, us, hu, hus, rfl⟩
      rcases wrapped_syntax (by omega) ihr hus with ⟨t, rfl, hlevel', ht⟩
      have hop : u.type = op.1 := hu.1.symm
      have hpos : 0 < getPrecedence u.type := by
        rw [hop]
        exact Nat.zero_lt_of_lt op.2
      refine ⟨Syn.binary s ⟨u, hpos⟩ t, rfl, by simp [level, Syn.level, hop],
        ⟨by simpa [hop] using hlevel, by rw [hop]; exact hlevel', hs.grouped, ht.grouped⟩,
        ?_, ?_⟩
      · simp [Syn.size, size, hs.size, ht.size]
      · intro tree base next hlies
        simp only [Syn.nodes, lies_append, lies_cons, Syn.length_nodes] at hlies
        exact ⟨_, by rw [Syn.root, ← Nat.add_assoc]; exact hlies.2.2.1, rfl,
          by simp [plainNode, hop], by simpa [plainNode] using hs.at' hlies.1,
          by simpa [plainNode] using ht.at' hlies.2.1⟩

/-! ## No token printed is out of reach -/

/-- The types of the tokens that expressions are printed with. -/
def Printable (type : TokenType) : Prop :=
  type ∈ prefixOperators ++ literals ++ identifiers
      ++ [PPlus, MMinus, Dot, Arrow, Left, Right, SqLeft, SqRight] ∨
    2 ≤ getPrecedence type

instance (type : TokenType) : Decidable (Printable type) := instDecidableOr

/-- Every token of `ts` can be one of a printed expression. -/
def AllPrintable (ts : List Token) : Prop := ∀ t ∈ ts, Printable t.type

section AllPrintable

variable {t : Token} {ts us : List Token}

@[simp] lemma allPrintable_nil : AllPrintable [] := fun _ h => absurd h List.not_mem_nil

@[simp] lemma allPrintable_cons : AllPrintable (t :: ts) ↔ Printable t.type ∧ AllPrintable ts := by
  simp [AllPrintable]

@[simp] lemma allPrintable_append :
    AllPrintable (ts ++ us) ↔ AllPrintable ts ∧ AllPrintable us := by
  simp [AllPrintable, or_imp, forall_and]

lemma allPrintable_wrap {least level : ℕ} (h : AllPrintable ts) :
    AllPrintable (Expr.wrap least level ts) := by
  unfold Expr.wrap
  split_ifs
  · simp [h, Expr.symbol, Printable]
  · exact h

end AllPrintable

lemma Expr.print_printable (e : Expr) : AllPrintable e.print := by
  have hof : ∀ {types : List TokenType} {type : TokenType}, (∀ x ∈ types, Printable x) →
      type ∈ types → Printable type := fun h htype => h _ htype
  induction e with
  | literal t => simp [print, hof (by decide) t.2]
  | ident t => simp [print, hof (by decide) t.2]
  | pre op e ih => simp [print, symbol, allPrintable_wrap ih, hof (by decide) op.2]
  | post e op ih => simp [print, symbol, allPrintable_wrap ih, hof (by decide) op.2]
  | member e op name ih =>
      have hname : Printable name.1.type := by rw [name.2]; decide
      simp [print, symbol, allPrintable_wrap ih, hof (by decide) op.2, hname]
  | index e i ihe ihi => simp [print, symbol, allPrintable_wrap ihe, ihi, Printable]
  | call f ih => simp [print, symbol, allPrintable_wrap ih, Printable]
  | callWith f arg ihf iha => simp [print, symbol, allPrintable_wrap ihf, iha, Printable]
  | binary lhs op rhs ihl ihr =>
      have hop : Printable op.1 := Or.inr op.2
      simp [print, symbol, allPrintable_wrap ihl, allPrintable_wrap ihr, hop]

lemma Expr.print_simple (e : Expr) : Simple e.print := by
  intro t ht
  have htype := e.print_printable t ht
  revert htype
  cases t.type <;> decide

lemma simple_of_stands {ts us : List Token} (h : List.Forall₂ Stands ts us) (hts : Simple ts) :
    Simple us := by
  induction h with
  | nil => exact hts
  | cons hab _ ih =>
      rw [simple_cons] at hts ⊢
      exact ⟨hab.1 ▸ hts.1, ih hts.2⟩

/-! ## Printing and parsing -/

variable {σ : Type} [TokenSource σ]

/-- **Parsing inverts printing.**  In front of the tokens of a printed expression and of a token
that continues none, `parseExpression(0)` rebuilds the expression and stops at that token.  The
arena must have ids left for the nodes. -/
theorem parse_print (e : Expr) {p : Parser σ} {ts : List Token} {w : Lookahead σ}
    (hts : List.Forall₂ Stands e.print ts) (hr : Reads p.toLookahead ts w)
    (hpost : w.window0.type ∉ postfixStarts) (hbinary : getPrecedence w.window0.type = 0)
    (hroom : p.tree.length + e.size ≤ kNullNode) :
    ∃ id p', Fuel.Evals parser (fun c => c.parseExpression 0) p id p' ∧ p'.toLookahead = w ∧
      e.At p'.tree id ∧ p'.tree.length = p.tree.length + e.size := by
  rcases e.print_syntax hts with ⟨s, rfl, -, hs⟩
  rw [← hs.size] at hroom
  have hrun := (completes s hs.grouped (simple_of_stands hts e.print_simple)).whole hr hroom hpost
    hbinary
  exact ⟨_, _, hrun.evals, rfl, hs.at' (p.along_lies s w), by rw [along_length, hs.size]⟩

/-- `a*(b+c);` -/
theorem parse_print_sample :
    ∃ id p', Fuel.Evals parser (fun c => c.parseExpression 0)
      (Parser.init ([⟨0, 1, 0, 0, Ident⟩, ⟨1, 1, 0, 0, TokenType.Star⟩, ⟨2, 1, 0, 0, Left⟩,
        ⟨3, 1, 0, 0, Ident⟩, ⟨4, 1, 0, 0, Plus⟩, ⟨5, 1, 0, 0, Ident⟩, ⟨6, 1, 0, 0, Right⟩,
        ⟨7, 1, 0, 0, Semi⟩] : List Token) (bytes "a*(b+c);")) id p' ∧
      p'.toLookahead = ⟨[], ⟨7, 1, 0, 0, Semi⟩, { type := Eof }⟩ ∧
      (Expr.binary (Expr.ident ⟨⟨0, 1, 0, 0, Ident⟩, by decide⟩) ⟨TokenType.Star, by decide⟩
        (Expr.binary (Expr.ident ⟨⟨3, 1, 0, 0, Ident⟩, by decide⟩) ⟨Plus, by decide⟩
          (Expr.ident ⟨⟨5, 1, 0, 0, Ident⟩, by decide⟩))).At p'.tree id ∧ p'.tree.length = 5 := by
  have hreads : Reads (Lookahead.initWindow ([⟨0, 1, 0, 0, Ident⟩, ⟨1, 1, 0, 0, TokenType.Star⟩,
        ⟨2, 1, 0, 0, Left⟩, ⟨3, 1, 0, 0, Ident⟩, ⟨4, 1, 0, 0, Plus⟩, ⟨5, 1, 0, 0, Ident⟩,
        ⟨6, 1, 0, 0, Right⟩, ⟨7, 1, 0, 0, Semi⟩] : List Token))
      [⟨0, 1, 0, 0, Ident⟩, ⟨1, 1, 0, 0, TokenType.Star⟩, ⟨2, 1, 0, 0, Left⟩, ⟨3, 1, 0, 0, Ident⟩,
        ⟨4, 1, 0, 0, Plus⟩, ⟨5, 1, 0, 0, Ident⟩, ⟨6, 1, 0, 0, Right⟩] _ :=
    Reads.cons (Reads.cons (Reads.cons (Reads.cons (Reads.cons (Reads.cons (Reads.cons
      (Reads.nil _)))))))
  refine parse_print _ ?_ hreads (by decide) (by decide) (by decide)
  simp [Expr.print, Expr.wrap, Expr.level, Stands, Expr.symbol, getPrecedence, literals,
    identifiers]

end LogicCompiler
