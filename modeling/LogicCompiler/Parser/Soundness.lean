import LogicCompiler.Parser.Running

/-!
# What the parser returns is concrete syntax

Whenever a production returns, there is a syntax tree whose tokens are the ones it consumed, whose
nodes are the ones it appended, and whose root is the id it returned.  `Sound` says so of a whole
table of calls; each production is shown to keep it, with the calls it makes as hypotheses, and the
parser has it by induction on the fuel.

Expressions carry more: operands are grouped by precedence, and a returned expression could not
have been continued by the token behind it.
-/

namespace LogicCompiler

open TokenType NodeKind Cat

variable {σ : Type} [TokenSource σ] {k l : Cat}

/-- `s` is what has been consumed and appended on the way from `p` to `p'`. -/
structure Derives (s : Syn k) (p p' : Parser σ) : Prop where
  reads : Reads p.toLookahead s.tokens p'.toLookahead
  tree : p'.tree = p.tree ++ s.nodes p.tree.length p'.window0.globalOffset
  source : p'.source = p.source
  room : p.tree.length ≤ kNullNode → p'.tree.length ≤ kNullNode
  grouped : s.Grouped

/-- The tokens `ts` have been consumed on the way from `p` to `p'`, and nothing else happened. -/
structure Passes (ts : List Token) (p p' : Parser σ) : Prop where
  reads : Reads p.toLookahead ts p'.toLookahead
  tree : p'.tree = p.tree
  source : p'.source = p.source

namespace Derives

variable {p p' q : Parser σ} {s : Syn k} {t : Syn l}

/-- A derivation adds as many nodes as it has. -/
lemma length_tree (h : Derives s p p') : p'.tree.length = p.tree.length + s.size := by
  rw [h.tree, List.length_append, Syn.length_nodes]

/-- The offset behind some syntax is that of its continuation's first token. -/
lemma firstOffset (h : Derives s p p') :
    firstOffset s.tokens p'.window0.globalOffset = p.window0.globalOffset :=
  h.reads.firstOffset

/-! The parts that can be missing, repeated or put in sequence. -/

lemma none (p : Parser σ) : Derives (Syn.none : Syn (opt k)) p p :=
  ⟨Reads.nil _, by simp [Syn.nodes], rfl, id, trivial⟩

lemma some (h : Derives s p p') : Derives (Syn.some s) p p' :=
  ⟨h.reads, h.tree, h.source, h.room, h.grouped⟩

lemma nil (p : Parser σ) : Derives (Syn.nil : Syn (list k)) p p :=
  ⟨Reads.nil _, by simp [Syn.nodes], rfl, id, trivial⟩

/-- A list is derived from its first entry and the rest. -/
lemma cons {rest : Syn (list k)} (h : Derives s p q) (hr : Derives rest q p') :
    Derives (Syn.cons s rest) p p' where
  reads := h.reads.append hr.reads
  tree := by
    simp only [Syn.nodes, hr.tree, h.tree, hr.firstOffset, List.append_assoc, List.length_append,
      Syn.length_nodes]
  source := hr.source.trans h.source
  room hp := hr.room (h.room hp)
  grouped := ⟨h.grouped, hr.grouped⟩

lemma seq (h : Derives s p q) (ht : Derives t q p') : Derives (Syn.seq s t) p p' where
  reads := h.reads.append ht.reads
  tree := by
    simp only [Syn.nodes, ht.tree, h.tree, ht.firstOffset, List.append_assoc, List.length_append,
      Syn.length_nodes]
  source := ht.source.trans h.source
  room hp := ht.room (h.room hp)
  grouped := ⟨h.grouped, ht.grouped⟩

/-- A token in front of what it leads. -/
lemma led {types : List TokenType} (ht : p.window0.type ∈ types) (h : Derives s p.bump p') :
    Derives (Syn.led ⟨p.window0, ht⟩ s) p p' :=
  ⟨Reads.cons h.reads, h.tree, h.source, h.room, h.grouped⟩

lemma bare (ht : p.window0.type = Semi) :
    Derives (Syn.bare ⟨p.window0, ht⟩ : Syn (orSemi k)) p p.bump :=
  ⟨Reads.single _, by simp [Syn.nodes], rfl, id, trivial⟩

lemma full (h : Derives s p p') : Derives (Syn.full s) p p' :=
  ⟨h.reads, h.tree, h.source, h.room, h.grouped⟩

end Derives

/-- The tokens that continue an expression in `parsePostfixExpression`. -/
def postfixStarts : List TokenType := [Left, Dot, Arrow, SqLeft, PPlus, MMinus]

namespace Parser

/-- The syntax a call returns. -/
def Returns (s : Syn k) (p : Parser σ) (id : NodeId) (p' : Parser σ) : Prop :=
  Derives s p p' ∧ id = s.root p.tree.length

/-- What an expression satisfies that a loop has collected so far. -/
structure Collected (e : Syn expr) (p₀ : Parser σ) (id : NodeId) (p : Parser σ) : Prop where
  returned : Returns e p₀ id p
  /-- the token behind it does not bind more tightly than its operator -/
  fits : getPrecedence p.window0.type ≤ e.level
  stopped : p.window0.type ∉ postfixStarts

/-- The calls of a table return syntax. -/
structure Sound (c : Calls σ) : Prop where
  statement {p p' : Parser σ} {id : NodeId} :
    c.parseStatement p = some (.ok (id, p')) → ∃ s : Syn stmt, Returns s p id p'
  expression {m : ℕ} {p p' : Parser σ} {id : NodeId} :
    c.parseExpression m p = some (.ok (id, p')) → ∃ e : Syn expr, Collected e p id p' ∧
      min m 12 ≤ e.level ∧
        (getPrecedence p'.window0.type < m ∨ getPrecedence p'.window0.type = 0)
  primary {p p' : Parser σ} {id : NodeId} :
    c.parsePrimaryExpression p = some (.ok (id, p')) →
      ∃ e : Syn expr, Collected e p id p' ∧ 12 ≤ e.level
  postfixed {e : Syn expr} {p₀ p p' : Parser σ} {lhs id : NodeId} :
    Returns e p₀ lhs p → 12 ≤ e.level → (p.window0.type ∈ postfixStarts → 13 ≤ e.level) →
      c.parsePostfixExpression lhs p = some (.ok (id, p')) →
        ∃ e' : Syn expr, Collected e' p₀ id p' ∧ 12 ≤ e'.level
  binary {m : ℕ} {e : Syn expr} {p₀ p p' : Parser σ} {lhs id : NodeId} :
    Collected e p₀ lhs p → min m 12 ≤ e.level →
      c.binaryLoop m lhs p = some (.ok (id, p')) →
        ∃ e' : Syn expr, Collected e' p₀ id p' ∧ min m 12 ≤ e'.level ∧
          (getPrecedence p'.window0.type < m ∨ getPrecedence p'.window0.type = 0)
  arguments {p p' : Parser σ} :
    c.argumentLoop p = some (.ok ((), p')) →
      ∃ s : Syn (list (Cat.led [Comma] expr)), Derives s p p'
  parameters {p p' : Parser σ} :
    c.parameterLoop p = some (.ok ((), p')) →
      ∃ s : Syn (list (Cat.led [Comma] param)), Derives s p p'
  block {p p' : Parser σ} :
    c.blockLoop p = some (.ok ((), p')) → ∃ s : Syn (list stmt), Derives s p p'
  qualifiers {q q' : Qualifiers} {p p' : Parser σ} :
    c.qualifierLoop q p = some (.ok (q', p')) →
      ∃ ts : QualifierTokens, Passes ts.tokens p p' ∧
        q' = ts.foldl (fun q t => q.add t.1.type) q

section Productions

variable {c : Calls σ} (hc : Sound c) {p p' p₀ : Parser σ} {id : NodeId}

/-! ## Parts -/

include hc

lemma Sound.unless {stop : TokenType} (h : parseUnless c stop p = some (.ok (id, p'))) :
    ∃ s : Syn (opt expr), Returns s p id p' := by
  simp only [parseUnless, check_bind, Fuel.Comp.ite_apply, Fuel.Comp.pure_apply] at h
  split_ifs at h
  · cases h
    exact ⟨Syn.none, Derives.none p, rfl⟩
  · rcases hc.expression h with ⟨e, he, -⟩
    exact ⟨Syn.some e, he.returned.1.some, he.returned.2⟩

/-- A body that may be missing. -/
lemma Sound.optionalBody (h : parseOptionalBody c p = some (.ok (id, p'))) :
    ∃ s : Syn (opt stmt), Returns s p id p' := by
  simp only [parseOptionalBody, check_bind, Fuel.Comp.ite_apply, Fuel.Comp.pure_apply] at h
  split_ifs at h
  · rcases hc.statement h with ⟨s, hs⟩
    exact ⟨Syn.some s, hs.1.some, hs.2⟩
  · cases h
    exact ⟨Syn.none, Derives.none p, rfl⟩

/-- The first part of a `for`: a statement or a bare `;`. -/
lemma Sound.forInit (h : parseForInit c p = some (.ok (id, p'))) :
    ∃ s : Syn (orSemi stmt), Returns s p id p' := by
  simp only [parseForInit, check_bind, advance_bind, Fuel.Comp.ite_apply, Fuel.Comp.pure_apply,
    beq_iff_eq] at h
  split_ifs at h with hsemi
  · cases h
    exact ⟨Syn.bare ⟨p.window0, hsemi⟩, Derives.bare hsemi, rfl⟩
  · rcases hc.statement h with ⟨s, hs⟩
    exact ⟨Syn.full s, hs.1.full, hs.2⟩

/-- The body of a function, or the `;` of a declaration. -/
lemma Sound.functionBody (h : parseFunctionBody c p = some (.ok (id, p'))) :
    ∃ s : Syn (orSemi stmt), Returns s p id p' := by
  simp only [parseFunctionBody, check_bind, Fuel.Comp.ite_apply] at h
  split_ifs at h
  · rcases hc.statement h with ⟨s, hs⟩
    exact ⟨Syn.full s, hs.1.full, hs.2⟩
  · simp only [expect_bind, Fuel.Comp.pure_apply, Option.some.injEq, Except.ok.injEq,
      Prod.mk.injEq] at h
    rcases h with ⟨hsemi, rfl, rfl⟩
    exact ⟨Syn.bare ⟨p.window0, hsemi⟩, Derives.bare hsemi, rfl⟩

lemma Sound.initialiser (h : parseInitialiser c p = some (.ok (id, p'))) :
    ∃ s : Syn (opt (Cat.led [Equals] expr)), Returns s p id p' := by
  simp only [parseInitialiser, matchToken_bind, if_true, Bool.false_eq_true, if_false,
    Fuel.Comp.pure_apply] at h
  split_ifs at h with heq
  · have hmem : p.window0.type ∈ [Equals] := by simp [heq]
    rcases hc.expression h with ⟨e, he, -⟩
    exact ⟨Syn.some (Syn.led ⟨p.window0, hmem⟩ e), (he.returned.1.led hmem).some, he.returned.2⟩
  · cases h
    exact ⟨Syn.none, Derives.none p, rfl⟩

/-- The `else` of a condition, if there is one. -/
lemma Sound.elsePart (h : parseElse c p = some (.ok (id, p'))) :
    ∃ s : Syn (opt (Cat.led [kElse] stmt)), Returns s p id p' := by
  simp only [parseElse, matchToken_bind, if_true, Bool.false_eq_true, if_false,
    Fuel.Comp.pure_apply] at h
  split_ifs at h with hkw
  · have hmem : p.window0.type ∈ [kElse] := by simp [hkw]
    rcases hc.statement h with ⟨s, hs⟩
    exact ⟨Syn.some (Syn.led ⟨p.window0, hmem⟩ s), (hs.1.led hmem).some, hs.2⟩
  · cases h
    exact ⟨Syn.none, Derives.none p, rfl⟩

/-! ## Expressions -/

lemma Sound.arguments' (h : parseArguments c p = some (.ok (id, p'))) :
    ∃ s : Syn (opt (commaList expr)), Returns s p id p' := by
  simp only [parseArguments, check_bind, Fuel.Comp.ite_apply] at h
  split_ifs at h
  · cases h
    exact ⟨Syn.none, Derives.none p, rfl⟩
  · simp only [Fuel.Comp.bind_eq_ok, Fuel.Comp.pure_apply, Option.some.injEq, Except.ok.injEq,
      Prod.mk.injEq] at h
    rcases h with ⟨_, p₁, hfirst, ⟨⟩, p₂, hmore, rfl, rfl⟩
    rcases hc.expression hfirst with ⟨e, he, -⟩
    rcases hc.arguments hmore with ⟨more, hmore⟩
    exact ⟨Syn.some (Syn.seq e more), (he.returned.1.seq hmore).some, he.returned.2⟩

/-- `delete`, with or without `auto`. -/
lemma Sound.delete (h : parseDeleteStatement c p = some (.ok (id, p'))) :
    ∃ s : Syn del, Returns s p id p' := by
  simp only [parseDeleteStatement, expect_bind, matchToken_bind] at h
  rcases h with ⟨hk, h⟩
  split_ifs at h with hauto
  all_goals
    rw [Fuel.Comp.bind_eq_ok] at h
    rcases h with ⟨target, p₁, htarget, h⟩
    simp only [createNode_setBoth_bind, Fuel.Comp.pure_apply, Option.some.injEq,
      Except.ok.injEq, Prod.mk.injEq] at h
    rcases h with ⟨hroom, rfl, rfl⟩
    rcases hc.primary htarget with ⟨e, he, hlevel⟩
  · refine ⟨Syn.delete ⟨p.window0, hk⟩ (some ⟨_, hauto⟩) e,
      ⟨Reads.cons (Reads.cons he.returned.1.reads), ?_, he.returned.1.source, fun _ => ?_,
        hlevel, he.returned.1.grouped⟩, ?_⟩
    · simp [Syn.nodes, he.returned.1.tree, he.returned.2, plainNode]
    · simp; omega
    · simp [Syn.root, he.returned.1.length_tree]
  · refine ⟨Syn.delete ⟨p.window0, hk⟩ none e,
      ⟨Reads.cons he.returned.1.reads, ?_, he.returned.1.source, fun _ => ?_,
        hlevel, he.returned.1.grouped⟩, ?_⟩
    · simp [Syn.nodes, he.returned.1.tree, he.returned.2, plainNode]
    · simp; omega
    · simp [Syn.root, he.returned.1.length_tree]

/-- A block, from its `{` on. -/
lemma Sound.braces {msg : String} (hl : p.window0.type = BrLeft)
    (h : parseBlock c msg p.bump = some (.ok (id, p'))) :
    ∃ b : Syn Cat.braces, Returns b p id p' := by
  simp only [parseBlock, peek_bind, createNode_bind] at h
  rcases h with ⟨hroom, h⟩
  rw [Fuel.Comp.bind_eq_ok] at h
  rcases h with ⟨⟨⟩, p₁, hbody, h⟩
  simp only [expect_bind, Fuel.Comp.pure_apply, Option.some.injEq, Except.ok.injEq,
    Prod.mk.injEq] at h
  rcases h with ⟨hr, rfl, rfl⟩
  rcases hc.block hbody with ⟨body, hbody⟩
  refine ⟨Syn.braced ⟨p.window0, hl⟩ body ⟨p₁.window0, hr⟩,
    ⟨Reads.cons (hbody.reads.append (Reads.single _)), ?_, hbody.source, fun _ => ?_,
      hbody.grouped⟩, rfl⟩
  · have hfirst := hbody.firstOffset
    simp only [push_toLookahead] at hfirst
    simp [Syn.nodes, hbody.tree, hfirst, plainNode]
  · have := hbody.room
    simp at this hroom
    exact this hroom

/-- A condition of either kind. -/
lemma Sound.conditional {keyword : TokenType} {msg₁ msg₂ msg₃ : String}
    (h : parseConditional c keyword msg₁ msg₂ msg₃ p = some (.ok (id, p'))) :
    ∃ s : Syn (Cat.conditional keyword), Returns s p id p' := by
  simp only [parseConditional, expect_bind] at h
  rcases h with ⟨hk, hl, h⟩
  rw [Fuel.Comp.bind_eq_ok] at h
  rcases h with ⟨cond, p₁, hcond, h⟩
  rcases hc.expression hcond with ⟨e, ⟨⟨he, rfl⟩, -, -⟩, -⟩
  rw [expect_bind, Fuel.Comp.bind_eq_ok] at h
  rcases h with ⟨hr, thenBlock, p₂, hthen, h⟩
  rcases hc.statement hthen with ⟨t, ht, rfl⟩
  rw [Fuel.Comp.bind_eq_ok] at h
  rcases h with ⟨elseBlock, p₃, helse, h⟩
  rcases hc.elsePart helse with ⟨f, hf, rfl⟩
  simp only [createNode_setData_bind, Fuel.Comp.pure_apply, Option.some.injEq, Except.ok.injEq,
    Prod.mk.injEq] at h
  rcases h with ⟨hroom, rfl, rfl⟩
  refine ⟨Syn.conditional ⟨p.window0, hk⟩ ⟨p.bump.window0, hl⟩ e ⟨p₁.window0, hr⟩ t f,
    ⟨Reads.cons (Reads.cons (he.reads.append (Reads.cons (ht.reads.append hf.reads)))), ?_, ?_,
      fun _ => ?_, he.grouped, ht.grouped, hf.grouped⟩, ?_⟩
  · simp [Syn.nodes, hf.tree, ht.tree, he.tree, hf.firstOffset, plainNode, Nat.add_assoc]
  · simp [hf.source, ht.source, he.source]
  · simp; omega
  · simp [Syn.root, hf.length_tree, ht.length_tree, he.length_tree, Nat.add_assoc]

/-- A `delete` in parentheses, which is read as a cast. -/
lemma Sound.cast (hl : p.window0.type = Left) {d : NodeId} {p₁ : Parser σ}
    (hd : parseDeleteStatement c p.bump = some (.ok (d, p₁))) (hr : p₁.window0.type = Right)
    (hroom : p₁.tree.length < kNullNode) :
    ∃ e : Syn expr, Returns e p p₁.tree.length
        (p₁.bump.push [plainNode CastExpr p₁.bump.window0.globalOffset (Data.deleteOp d)]) ∧
      13 ≤ e.level := by
  rcases hc.delete hd with ⟨s, hs, rfl⟩
  refine ⟨Syn.cast ⟨p.window0, hl⟩ s ⟨p₁.window0, hr⟩,
    ⟨⟨Reads.cons (hs.reads.append (Reads.single _)), ?_, hs.source, fun _ => ?_, hs.grouped⟩,
      ?_⟩, le_rfl⟩
  · simp [Syn.nodes, hs.tree]
  · simp; omega
  · simp [Syn.root, hs.length_tree]

lemma Sound.paren (hl : p.window0.type = Left) {p₁ : Parser σ}
    (h : c.parseExpression 0 p.bump = some (.ok (id, p₁))) (hr : p₁.window0.type = Right) :
    ∃ e : Syn expr, Returns e p id p₁.bump ∧ 13 ≤ e.level := by
  rcases hc.expression h with ⟨e, ⟨⟨he, rfl⟩, -, -⟩, -⟩
  refine ⟨Syn.paren ⟨p.window0, hl⟩ e ⟨p₁.window0, hr⟩,
    ⟨⟨Reads.cons (he.reads.append (Reads.single _)), ?_, he.source, he.room, he.grouped⟩, rfl⟩,
      le_rfl⟩
  simp [Syn.nodes, he.tree]

omit [TokenSource σ] hc in
lemma length_push_le {n : Node} (h : p.tree.length < kNullNode) :
    (p.push [n]).tree.length ≤ kNullNode := by
  simp only [push_tree, List.length_append, List.length_singleton]
  omega

omit hc in
lemma getPrecedence_le (t : TokenType) : getPrecedence t ≤ 11 := by
  cases t <;> decide

/-- The body of `parsePrimaryExpression` collects an operand. -/
lemma Sound.primaryStep (h : parsePrimaryExpression c p = some (.ok (id, p'))) :
    ∃ e : Syn expr, Collected e p id p' ∧ 12 ≤ e.level := by
  simp only [parsePrimaryExpression, checkAny_bind, check_bind, peekType1_bind, peek_bind,
    matchToken_bind, Fuel.Comp.ite_apply, List.contains_iff_mem, Bool.and_eq_true,
    beq_iff_eq, advance_bind, raiseError_apply, if_true, Bool.false_eq_true, if_false] at h
  split_ifs at h with hpre hlit hid heval hcast hbrace hparen
  · rw [Fuel.Comp.bind_eq_ok] at h
    rcases h with ⟨operand, p₁, hoperand, h⟩
    rw [createNode_setData_bind] at h
    rcases h with ⟨hroom, h⟩
    rcases hc.primary hoperand with ⟨e, ⟨⟨he, rfl⟩, -, hstop⟩, hlevel⟩
    refine hc.postfixed (e := Syn.pre ⟨p.window0, hpre⟩ e) ?_ le_rfl ?_ h
    · refine ⟨⟨Reads.cons he.reads, ?_, he.source, fun _ => length_push_le hroom, hlevel,
        he.grouped⟩, ?_⟩
      · simp [Syn.nodes, he.tree, tokenNode]
      · simp [Syn.root, he.length_tree]
    · intro hmem
      exact absurd hmem hstop
  · rw [createTokenNode_bind] at h
    refine hc.postfixed (e := Syn.literal ⟨p.window0, hlit⟩) ?_ (Nat.le_succ 12) (fun _ => le_rfl) h.2
    exact ⟨⟨Reads.single _, rfl, rfl, fun _ => length_push_le h.1, trivial⟩, rfl⟩
  · rw [createTokenNode_bind] at h
    refine hc.postfixed (e := Syn.ident ⟨p.window0, hid⟩) ?_ (Nat.le_succ 12) (fun _ => le_rfl) h.2
    exact ⟨⟨Reads.single _, rfl, rfl, fun _ => length_push_le h.1, trivial⟩, rfl⟩
  · rw [Fuel.Comp.bind_eq_ok] at h
    rcases h with ⟨i, p₁, hi, h⟩
    rcases hc.conditional hi with ⟨s, hs, rfl⟩
    exact hc.postfixed (e := Syn.eval s) ⟨⟨hs.reads, hs.tree, hs.source, hs.room, hs.grouped⟩,
      rfl⟩ (Nat.le_succ 12) (fun _ => le_rfl) h
  · rw [Fuel.Comp.bind_eq_ok] at h
    rcases h with ⟨d, p₁, hd, h⟩
    simp only [expect_bind, peek_bind, createNode_setData_bind] at h
    rcases h with ⟨hr, hroom, h⟩
    rcases hc.cast hcast.1 hd hr hroom with ⟨e, he, hlevel⟩
    exact hc.postfixed he (by omega) (fun _ => hlevel) h
  · rw [Fuel.Comp.bind_eq_ok] at h
    rcases h with ⟨i, p₁, hi, h⟩
    rcases hc.braces hbrace hi with ⟨b, hb, rfl⟩
    exact hc.postfixed (e := Syn.blockExpr b) ⟨⟨hb.reads, hb.tree, hb.source, hb.room,
      hb.grouped⟩, rfl⟩ (Nat.le_succ 12) (fun _ => le_rfl) h
  · rw [Fuel.Comp.bind_eq_ok] at h
    rcases h with ⟨i, p₁, hi, h⟩
    rw [expect_bind] at h
    rcases hc.paren hparen hi h.1 with ⟨e, he, hlevel⟩
    exact hc.postfixed he (by omega) (fun _ => hlevel) h.2
  · cases h

/-- One iteration of the postfix loop, on an expression that ends at `p`. -/
lemma Sound.postfixStep {e : Syn expr} {lhs : NodeId} (he : Returns e p₀ lhs p)
    (hlevel : 12 ≤ e.level) (hpost : p.window0.type ∈ postfixStarts → 13 ≤ e.level)
    (h : parsePostfixExpression c lhs p = some (.ok (id, p'))) :
    ∃ e' : Syn expr, Collected e' p₀ id p' ∧ 12 ≤ e'.level := by
  rcases he with ⟨he, rfl⟩
  simp only [parsePostfixExpression, checkAny_bind, matchToken_bind, Fuel.Comp.ite_apply,
    List.contains_iff_mem, advance_bind, if_true, Bool.false_eq_true, if_false] at h
  split_ifs at h with hcall hmember hindex hpp
  · rw [Fuel.Comp.bind_eq_ok] at h
    rcases h with ⟨i, p₁, hi, h⟩
    rcases hc.arguments' hi with ⟨args, hargs, rfl⟩
    simp only [expect_bind, peek_bind, createNode_setData_bind] at h
    rcases h with ⟨hr, hroom, h⟩
    have hp := hpost (by simp [postfixStarts, hcall])
    refine hc.postfixed (e := Syn.call e ⟨p.window0, hcall⟩ args ⟨p₁.window0, hr⟩) ?_
      (Nat.le_succ 12) (fun _ => le_rfl) h
    refine ⟨⟨he.reads.append (Reads.cons (hargs.reads.append (Reads.single _))), ?_, ?_,
      fun _ => length_push_le hroom, hp, he.grouped, hargs.grouped⟩, ?_⟩
    · simp [Syn.nodes, hargs.tree, he.tree, plainNode]
    · simp [hargs.source, he.source]
    · simp [Syn.root, hargs.length_tree, he.length_tree, Nat.add_assoc]
  · rw [expect_bind] at h
    rcases h with ⟨hname, h⟩
    simp only [createTokenNode_bind, createNode_setData_bind, push_push] at h
    rcases h with ⟨-, hroom, h⟩
    have hp := hpost (by simp [postfixStarts] at hmember ⊢; tauto)
    refine hc.postfixed (e := Syn.member e ⟨p.window0, hmember⟩ ⟨p.bump.window0, hname⟩) ?_
      (Nat.le_succ 12) (fun _ => le_rfl) h
    refine ⟨⟨he.reads.append (Reads.cons (Reads.single _)), ?_, he.source, fun _ => ?_, hp,
      he.grouped⟩, ?_⟩
    · simp [Syn.nodes, he.tree, plainNode]
    · simp at hroom ⊢; omega
    · simp [Syn.root, he.length_tree, Nat.add_assoc]
  · rw [Fuel.Comp.bind_eq_ok] at h
    rcases h with ⟨i, p₁, hi, h⟩
    rcases hc.expression hi with ⟨x, ⟨⟨hx, rfl⟩, -, -⟩, -⟩
    simp only [expect_bind, peek_bind, createNode_setData_bind] at h
    rcases h with ⟨hr, hroom, h⟩
    have hp := hpost (by simp [postfixStarts, hindex])
    refine hc.postfixed (e := Syn.index e ⟨p.window0, hindex⟩ x ⟨p₁.window0, hr⟩) ?_
      (Nat.le_succ 12) (fun _ => le_rfl) h
    refine ⟨⟨he.reads.append (Reads.cons (hx.reads.append (Reads.single _))), ?_, ?_,
      fun _ => length_push_le hroom, hp, he.grouped, hx.grouped⟩, ?_⟩
    · simp [Syn.nodes, hx.tree, he.tree, plainNode]
    · simp [hx.source, he.source]
    · simp [Syn.root, hx.length_tree, he.length_tree, Nat.add_assoc]
  · rw [createNode_setData_bind] at h
    rcases h with ⟨hroom, h⟩
    have hp := hpost (by simp [postfixStarts] at hpp ⊢; tauto)
    refine hc.postfixed (e := Syn.post e ⟨p.window0, hpp⟩) ?_ (Nat.le_succ 12) (fun _ => le_rfl) h
    refine ⟨⟨he.reads.append (Reads.single _), ?_, he.source, fun _ => length_push_le hroom, hp,
      he.grouped⟩, ?_⟩
    · simp [Syn.nodes, he.tree, plainNode]
    · simp [Syn.root, he.length_tree]
  · cases h
    refine ⟨e, ⟨⟨he, rfl⟩, ?_, ?_⟩, hlevel⟩
    · have := getPrecedence_le p.window0.type
      omega
    · simp [postfixStarts] at hmember hpp ⊢
      tauto

/-- The body of `parseExpression` collects an expression whose operators all bind strongly enough. -/
lemma Sound.expressionStep {m : ℕ} (h : parseExpression c m p = some (.ok (id, p'))) :
    ∃ e : Syn expr, Collected e p id p' ∧ min m 12 ≤ e.level ∧
      (getPrecedence p'.window0.type < m ∨ getPrecedence p'.window0.type = 0) := by
  rw [parseExpression, Fuel.Comp.bind_eq_ok] at h
  rcases h with ⟨lhs, p₁, hlhs, h⟩
  rcases hc.primary hlhs with ⟨e, he, hlevel⟩
  exact hc.binary he (by omega) h

/-- One iteration over the operators keeps what has been collected as the left side. -/
lemma Sound.binaryStep {m : ℕ} {e : Syn expr} {lhs : NodeId} (he : Collected e p₀ lhs p)
    (hm : min m 12 ≤ e.level) (h : binaryLoop c m lhs p = some (.ok (id, p'))) :
    ∃ e' : Syn expr, Collected e' p₀ id p' ∧ min m 12 ≤ e'.level ∧
      (getPrecedence p'.window0.type < m ∨ getPrecedence p'.window0.type = 0) := by
  simp only [binaryLoop, peek_bind, Fuel.Comp.ite_apply, advance_bind,
    Fuel.Comp.pure_apply] at h
  split_ifs at h with hprec
  · cases h
    exact ⟨e, he, hm, hprec⟩
  · rw [Fuel.Comp.bind_eq_ok] at h
    rcases h with ⟨i, p₁, hi, h⟩
    rw [createNode_setData_bind] at h
    rcases h with ⟨hroom, h⟩
    rcases he with ⟨⟨he, rfl⟩, hfits, -⟩
    rcases hc.expression hi with ⟨x, ⟨⟨hx, rfl⟩, -, hstop⟩, hlevel, hend⟩
    push Not at hprec
    have hop : 0 < getPrecedence p.window0.type := Nat.pos_of_ne_zero hprec.2
    have hle := getPrecedence_le p.window0.type
    refine hc.binary (e := Syn.binary e ⟨p.window0, hop⟩ x) ?_ ?_ h
    · refine ⟨⟨⟨he.reads.append (Reads.cons hx.reads), ?_, ?_, fun _ => length_push_le hroom,
        hfits, ?_, he.grouped, hx.grouped⟩, ?_⟩, ?_, hstop⟩
      · simp [Syn.nodes, hx.tree, he.tree, plainNode]
      · simp [hx.source, he.source]
      · show getPrecedence p.window0.type < x.level
        omega
      · simp [Syn.root, hx.length_tree, he.length_tree, Nat.add_assoc]
      · show getPrecedence p₁.window0.type ≤ getPrecedence p.window0.type
        omega
    · show min m 12 ≤ getPrecedence p.window0.type
      omega

lemma Sound.argumentStep (h : argumentLoop c p = some (.ok ((), p'))) :
    ∃ s : Syn (list (Cat.led [Comma] expr)), Derives s p p' := by
  simp only [argumentLoop, matchToken_bind, if_true, Bool.false_eq_true, if_false] at h
  split_ifs at h with hcomma
  · rw [Fuel.Comp.bind_eq_ok] at h
    rcases h with ⟨i, p₁, hi, h⟩
    rcases hc.expression hi with ⟨e, he, -⟩
    rcases hc.arguments h with ⟨rest, hrest⟩
    have hmem : p.window0.type ∈ [Comma] := by simp [hcomma]
    exact ⟨Syn.cons (Syn.led ⟨p.window0, hmem⟩ e) rest, (he.returned.1.led hmem).cons hrest⟩
  · cases h
    exact ⟨Syn.nil, Derives.nil p⟩

/-! ## Statements -/

omit hc in
lemma Passes.trans {ts us : List Token} {q : Parser σ} (h : Passes ts p q)
    (h' : Passes us q p') : Passes (ts ++ us) p p' :=
  ⟨h.reads.append h'.reads, h'.tree.trans h.tree, h'.source.trans h.source⟩

/-- The loop over qualifiers consumes tokens of qualifiers and sets their flags. -/
lemma Sound.qualifierStep {q q' : Qualifiers} (h : qualifierLoop c q p = some (.ok (q', p'))) :
    ∃ ts : QualifierTokens, Passes ts.tokens p p' ∧
      q' = ts.foldl (fun q t => q.add t.1.type) q := by
  have hadd : ∀ type, type ∈ qualifierTypes → p.window0.type = type →
      c.qualifierLoop (q.add type) p.bump = some (.ok (q', p')) →
      ∃ ts : QualifierTokens, Passes ts.tokens p p' ∧
        q' = ts.foldl (fun q t => q.add t.1.type) q := by
    intro type hmem htype h
    rcases hc.qualifiers h with ⟨ts, hts, rfl⟩
    refine ⟨⟨p.window0, htype ▸ hmem⟩ :: ts, ⟨Reads.cons hts.reads, hts.tree, hts.source⟩, ?_⟩
    simp [htype]
  simp only [qualifierLoop, matchToken_bind, if_true, Bool.false_eq_true, if_false] at h
  split_ifs at h with h1 h2 h3 h4 h5
  · exact hadd kConstexpr (by simp [qualifierTypes]) h1 h
  · exact hadd kConst (by simp [qualifierTypes]) h2 h
  · exact hadd kStatic (by simp [qualifierTypes]) h3 h
  · exact hadd kInline (by simp [qualifierTypes]) h4 h
  · exact hadd kAuto (by simp [qualifierTypes]) h5 h
  · cases h
    exact ⟨[], ⟨Reads.nil _, rfl, rfl⟩, rfl⟩

omit hc in
/-- A `;` is consumed, if one is in front. -/
lemma optionalSemi_ok {u : Unit} (h : optionalSemi p = some (.ok (u, p'))) :
    ∃ semi : Option (Tok Semi), Passes (optToken semi) p p' := by
  simp only [optionalSemi, check_bind, Fuel.Comp.ite_apply, advance_bind, Fuel.Comp.pure_apply,
    beq_iff_eq] at h
  split_ifs at h with hsemi
  · cases h
    exact ⟨some ⟨p.window0, hsemi⟩, Reads.single _, rfl, rfl⟩
  · cases h
    exact ⟨none, Reads.nil _, rfl, rfl⟩

lemma Sound.blockStep (h : blockLoop c p = some (.ok ((), p'))) :
    ∃ s : Syn (list stmt), Derives s p p' := by
  simp only [blockLoop, checkAny_bind, Fuel.Comp.ite_apply] at h
  split_ifs at h
  · cases h
    exact ⟨Syn.nil, Derives.nil p⟩
  · rw [Fuel.Comp.bind_eq_ok] at h
    rcases h with ⟨i, p₁, hi, h⟩
    rcases hc.statement hi with ⟨s, hs, -⟩
    rcases hc.block h with ⟨rest, hrest⟩
    exact ⟨Syn.cons s rest, hs.cons hrest⟩

variable {q : QualifierTokens} (hq : Passes q.tokens p₀ p)

include hq

/-- A `while` behind its qualifiers, which it drops. -/
lemma Sound.whileStmt (h : parseWhileStatement c p = some (.ok (id, p'))) :
    ∃ s : Syn stmt, Returns s p₀ id p' := by
  simp only [parseWhileStatement, expect_bind] at h
  rcases h with ⟨hk, hl, h⟩
  rw [Fuel.Comp.bind_eq_ok] at h
  rcases h with ⟨cond, p₁, hcond, h⟩
  rcases hc.expression hcond with ⟨e, ⟨⟨he, rfl⟩, -, -⟩, -⟩
  rw [expect_bind, Fuel.Comp.bind_eq_ok] at h
  rcases h with ⟨hr, body, p₂, hbody, h⟩
  rcases hc.statement hbody with ⟨s, hs, rfl⟩
  rw [createNode_setData_bind] at h
  rcases h with ⟨hroom, ⟨⟩⟩
  refine ⟨Syn.whileStmt q ⟨p.window0, hk⟩ ⟨p.bump.window0, hl⟩ e ⟨p₁.window0, hr⟩ s,
    ⟨hq.reads.append (Reads.cons (Reads.cons (he.reads.append (Reads.cons hs.reads)))), ?_, ?_,
      fun _ => length_push_le hroom, he.grouped, hs.grouped⟩, ?_⟩
  · simp [Syn.nodes, hs.tree, he.tree, hq.tree, plainNode]
  · simp [hs.source, he.source, hq.source]
  · simp [Syn.root, hs.length_tree, he.length_tree, hq.tree, Nat.add_assoc]

lemma Sound.forStmt (h : parseForStatement c p = some (.ok (id, p'))) :
    ∃ s : Syn stmt, Returns s p₀ id p' := by
  simp only [parseForStatement, expect_bind] at h
  rcases h with ⟨hk, hl, h⟩
  rw [Fuel.Comp.bind_eq_ok] at h
  rcases h with ⟨i, p₁, hi, h⟩
  rcases hc.forInit hi with ⟨init, hinit, rfl⟩
  rw [Fuel.Comp.bind_eq_ok] at h
  rcases h with ⟨i, p₂, hi, h⟩
  rcases hc.unless hi with ⟨cond, hcond, rfl⟩
  rw [expect_bind, Fuel.Comp.bind_eq_ok] at h
  rcases h with ⟨hsemi, i, p₃, hi, h⟩
  rcases hc.unless hi with ⟨incr, hincr, -⟩
  rw [expect_bind, Fuel.Comp.bind_eq_ok] at h
  rcases h with ⟨hr, i, p₄, hi, h⟩
  rcases hc.statement hi with ⟨body, hbody, rfl⟩
  rw [createNode_setData_bind] at h
  rcases h with ⟨hroom, ⟨⟩⟩
  refine ⟨Syn.forStmt q ⟨p.window0, hk⟩ ⟨p.bump.window0, hl⟩ init cond ⟨p₂.window0, hsemi⟩ incr
    ⟨p₃.window0, hr⟩ body, ⟨hq.reads.append (Reads.cons (Reads.cons (hinit.reads.append
      (hcond.reads.append (Reads.cons (hincr.reads.append (Reads.cons hbody.reads))))))), ?_, ?_,
      fun _ => length_push_le hroom, hinit.grouped, hcond.grouped, hincr.grouped,
      hbody.grouped⟩, ?_⟩
  · simp [Syn.nodes, hbody.tree, hincr.tree, hcond.tree, hinit.tree, hq.tree, plainNode,
      hcond.firstOffset, Nat.add_assoc]
  · simp [hbody.source, hincr.source, hcond.source, hinit.source, hq.source]
  · simp [Syn.root, hbody.length_tree, hincr.length_tree, hcond.length_tree, hinit.length_tree,
      hq.tree, Nat.add_assoc]

lemma Sound.returnStmt (h : parseReturnStatement c p = some (.ok (id, p'))) :
    ∃ s : Syn stmt, Returns s p₀ id p' := by
  simp only [parseReturnStatement, expect_bind] at h
  rcases h with ⟨hk, h⟩
  rw [Fuel.Comp.bind_eq_ok] at h
  rcases h with ⟨i, p₁, hi, h⟩
  rcases hc.unless hi with ⟨e, he, rfl⟩
  rw [expect_bind, createNode_setData_bind] at h
  rcases h with ⟨hsemi, hroom, ⟨⟩⟩
  refine ⟨Syn.returnStmt q ⟨p.window0, hk⟩ e ⟨p₁.window0, hsemi⟩,
    ⟨hq.reads.append (Reads.cons (he.reads.append (Reads.single _))), ?_, ?_,
      fun _ => length_push_le hroom, he.grouped⟩, ?_⟩
  · simp [Syn.nodes, he.tree, hq.tree, plainNode]
  · simp [he.source, hq.source]
  · simp [Syn.root, he.length_tree, hq.tree]

omit hc in
/-- `break` and `continue`. -/
lemma returns_jump (hk : p.window0.type ∈ [kBreak, kContinue])
    (h : parseJumpStatement p = some (.ok (id, p'))) : ∃ s : Syn stmt, Returns s p₀ id p' := by
  simp only [parseJumpStatement, advance_bind, expect_bind, createNode_setData_bind] at h
  rcases h with ⟨hsemi, hroom, ⟨⟩⟩
  refine ⟨Syn.jump q ⟨p.window0, hk⟩ ⟨p.bump.window0, hsemi⟩,
    ⟨hq.reads.append (Reads.cons (Reads.single _)), ?_, hq.source,
      fun _ => length_push_le hroom, trivial⟩, ?_⟩
  · simp [Syn.nodes, hq.tree, plainNode]
  · simp [Syn.root, hq.tree]

/-- A struct behind its qualifiers, which it drops. -/
lemma Sound.structDecl (h : parseStructDecl c p = some (.ok (id, p'))) :
    ∃ s : Syn stmt, Returns s p₀ id p' := by
  simp only [parseStructDecl, expect_bind] at h
  rcases h with ⟨hk, hname, h⟩
  rw [Fuel.Comp.bind_eq_ok] at h
  rcases h with ⟨i, p₁, hi, h⟩
  rcases hc.optionalBody hi with ⟨body, hbody, rfl⟩
  rw [Fuel.Comp.bind_eq_ok] at h
  rcases h with ⟨⟨⟩, p₂, hi, h⟩
  rcases optionalSemi_ok hi with ⟨semi, hsemi⟩
  rw [createNode_setData_bind] at h
  rcases h with ⟨hroom, ⟨⟩⟩
  refine ⟨Syn.structDecl q ⟨p.window0, hk⟩ ⟨p.bump.window0, hname⟩ body semi,
    ⟨hq.reads.append (Reads.cons (Reads.cons (hbody.reads.append hsemi.reads))), ?_, ?_,
      fun _ => length_push_le hroom, hbody.grouped⟩, ?_⟩
  · simp [Syn.nodes, hsemi.tree, hbody.tree, hq.tree, plainNode, hsemi.reads.firstOffset]
  · simp [hsemi.source, hbody.source, hq.source]
  · simp [Syn.root, hsemi.tree, hbody.length_tree, hq.tree]

lemma Sound.namespaceDecl (h : parseNamespaceDecl c p = some (.ok (id, p'))) :
    ∃ s : Syn stmt, Returns s p₀ id p' := by
  simp only [parseNamespaceDecl, expect_bind] at h
  rcases h with ⟨hk, hname, h⟩
  rw [Fuel.Comp.bind_eq_ok] at h
  rcases h with ⟨i, p₁, hi, h⟩
  rcases hc.statement hi with ⟨body, hbody, rfl⟩
  rw [createNode_setData_bind] at h
  rcases h with ⟨hroom, ⟨⟩⟩
  refine ⟨Syn.namespaceDecl q ⟨p.window0, hk⟩ ⟨p.bump.window0, hname⟩ body,
    ⟨hq.reads.append (Reads.cons (Reads.cons hbody.reads)), ?_, ?_,
      fun _ => length_push_le hroom, hbody.grouped⟩, ?_⟩
  · simp [Syn.nodes, hbody.tree, hq.tree, plainNode]
  · simp [hbody.source, hq.source]
  · simp [Syn.root, hbody.length_tree, hq.tree]

omit hc in
/-- A statement that consists of a part and an optional `;`. -/
lemma returns_withSemi {t : Syn k} {s : Option (Tok Semi) → Syn stmt} {p₁ : Parser σ}
    {u : Unit} (ht : Returns t p id p₁) (h : optionalSemi p₁ = some (.ok (u, p')))
    (htokens : ∀ semi, (s semi).tokens = q.tokens ++ (t.tokens ++ optToken semi))
    (hnodes : ∀ semi base next,
      (s semi).nodes base next = t.nodes base (firstOffset (optToken semi) next))
    (hroot : ∀ semi base, (s semi).root base = t.root base)
    (hgrouped : ∀ semi, t.Grouped → (s semi).Grouped) :
    ∃ s : Syn stmt, Returns s p₀ id p' := by
  rcases optionalSemi_ok h with ⟨semi, hsemi⟩
  rcases ht with ⟨ht, rfl⟩
  refine ⟨s semi, ⟨?_, ?_, ?_, ?_, hgrouped semi ht.grouped⟩, ?_⟩
  · rw [htokens]
    exact hq.reads.append (ht.reads.append hsemi.reads)
  · rw [hnodes, hsemi.tree, ht.tree, hsemi.reads.firstOffset, hq.tree]
  · rw [hsemi.source, ht.source, hq.source]
  · rw [hsemi.tree, ← hq.tree]
    exact ht.room
  · rw [hroot, hq.tree]

omit [TokenSource σ] hc hq in
/-- The three nodes of a declaration, behind what its parts have appended. -/
lemma createDecl_ok {kind : NodeKind} {quals : Qualifiers} {typeTok nameTok : Token}
    {init : NodeId} (h : createDecl kind quals typeTok nameTok init p = some (.ok (id, p'))) :
    id = p.tree.length ∧ p.tree.length + 2 < kNullNode ∧
      p' = p.push (declNodes kind quals typeTok nameTok p.tree.length init) := by
  rw [createDecl_eq, Prod.mk.injEq] at h
  exact ⟨h.2.1, h.1, h.2.2⟩

omit hq in
lemma Sound.base (h : parseBase c p = some (.ok (id, p'))) :
    ∃ s : Syn (opt Cat.base), Returns s p id p' := by
  have hled : ∀ {e : Syn expr} (hmem : p.window0.type ∈ [Equals, Colon, Ident]),
      Collected e p.bump id p' → ∃ s : Syn (opt Cat.base), Returns s p id p' :=
    fun {e} hmem he => ⟨Syn.some (Syn.led ⟨p.window0, hmem⟩ e), (he.returned.1.led hmem).some,
      he.returned.2⟩
  have husing : ∀ f : Bool → ParseM σ NodeId, (checkUsing >>= f) p =
      f (p.window0.type == Ident
        && (p.source.drop p.window0.globalOffset).take p.window0.size == bytes "using") p :=
    fun _ => rfl
  simp only [parseBase, matchToken_bind, husing, advance_bind, Fuel.Comp.ite_apply, if_true,
    Bool.false_eq_true, if_false, Bool.and_eq_true, beq_iff_eq] at h
  split_ifs at h with heq hcolon hident
  · rcases hc.expression h with ⟨e, he, -⟩
    exact hled (by simp [heq]) he
  · rcases hc.primary h with ⟨e, he, -⟩
    exact hled (by simp [hcolon]) he
  · rcases hc.primary h with ⟨e, he, -⟩
    exact hled (by simp [hident.1]) he
  · cases h
    exact ⟨Syn.none, Derives.none p, rfl⟩

/-- A type, with its base. -/
lemma Sound.typeDecl (hk : p.window0.type = kType)
    (h : parseTypeDecl c q.value p = some (.ok (id, p'))) :
    ∃ s : Syn stmt, Returns s p₀ id p' := by
  simp only [parseTypeDecl, advance_bind, expect_bind] at h
  rcases h with ⟨hname, h⟩
  rw [Fuel.Comp.bind_eq_ok] at h
  rcases h with ⟨i, p₁, hi, h⟩
  rcases hc.base hi with ⟨base, hbase, rfl⟩
  rw [Fuel.Comp.bind_eq_ok] at h
  rcases h with ⟨i, p₂, hi, h⟩
  rcases hc.optionalBody hi with ⟨body, hbody, rfl⟩
  rw [Fuel.Comp.bind_eq_ok] at h
  rcases h with ⟨⟨⟩, p₃, hi, h⟩
  rcases optionalSemi_ok hi with ⟨semi, hsemi⟩
  rcases createDecl_ok h with ⟨rfl, hroom, rfl⟩
  refine ⟨Syn.typeDecl q ⟨p.window0, hk⟩ ⟨p.bump.window0, hname⟩ base body semi,
    ⟨hq.reads.append (Reads.cons (Reads.cons (hbase.reads.append
      (hbody.reads.append hsemi.reads)))), ?_, ?_, fun _ => ?_, hbase.grouped,
      hbody.grouped⟩, ?_⟩
  · have hfirst := (hbody.reads.append hsemi.reads).firstOffset
    simp [Syn.nodes, hsemi.tree, hbody.tree, hbase.tree, hq.tree, hsemi.reads.firstOffset, hfirst,
      Nat.add_assoc]
  · simp [hsemi.source, hbody.source, hbase.source, hq.source]
  · simp [declNodes]; omega
  · simp [Syn.root, hsemi.tree, hbody.length_tree, hbase.length_tree, hq.tree, Nat.add_assoc]

/-- A variable: type, name, initialiser and `;`. -/
lemma Sound.varDecl {type : Option (TokOf [kByte, Ident])} {name : Tok Ident} {p₁ : Parser σ}
    {initExpr : NodeId} (hnames : Passes (optToken type ++ [name.1]) p p₁) {p₂ : Parser σ}
    (hi : parseInitialiser c p₁ = some (.ok (initExpr, p₂))) (hsemi : p₂.window0.type = Semi)
    (h : createDecl VarDecl q.value (typeToken type) name.1 initExpr p₂.bump
      = some (.ok (id, p'))) : ∃ s : Syn stmt, Returns s p₀ id p' := by
  rcases hc.initialiser hi with ⟨init, hinit, rfl⟩
  rcases createDecl_ok h with ⟨rfl, hroom, rfl⟩
  refine ⟨Syn.varDecl q type name init ⟨p₂.window0, hsemi⟩, ⟨?_, ?_, ?_, fun _ => ?_,
    hinit.grouped⟩, ?_⟩
  · have h := hq.reads.append (hnames.reads.append (hinit.reads.append (Reads.single _)))
    rwa [List.append_assoc] at h
  · simp [Syn.nodes, hinit.tree, hnames.tree, hq.tree]
  · simp [hinit.source, hnames.source, hq.source]
  · simp [declNodes] at hroom ⊢; omega
  · simp [Syn.root, hinit.length_tree, hnames.tree, hq.tree]

/-- A function: type, name, parameters and body. -/
lemma Sound.functionDecl {type : Option (TokOf [kByte, Ident])} {name : Tok Ident} {p₁ : Parser σ}
    (hnames : Passes (optToken type ++ [name.1]) p p₁)
    (hparams : ∀ {p p' : Parser σ} {id : NodeId}, parseParameters c p = some (.ok (id, p')) →
      ∃ s : Syn (opt (commaList param)), Derives s p p')
    (h : parseFunctionDecl c q.value (typeToken type) name.1 p₁ = some (.ok (id, p'))) :
    ∃ s : Syn stmt, Returns s p₀ id p' := by
  rw [parseFunctionDecl, expect_bind, Fuel.Comp.bind_eq_ok] at h
  rcases h with ⟨hl, i, p₂, hi, h⟩
  rcases hparams hi with ⟨params, hparams⟩
  rw [expect_bind, Fuel.Comp.bind_eq_ok] at h
  rcases h with ⟨hr, i, p₃, hi, h⟩
  rcases hc.functionBody hi with ⟨body, hbody, rfl⟩
  simp only [createTokenNode_bind, createNode_setBoth_bind, push_push] at h
  rcases h with ⟨-, -, hroom, ⟨⟩⟩
  refine ⟨Syn.functionDecl q type name ⟨p₁.window0, hl⟩ params ⟨p₂.window0, hr⟩ body,
    ⟨?_, ?_, ?_, fun _ => ?_, hparams.grouped, hbody.grouped⟩, ?_⟩
  · have h := hq.reads.append (hnames.reads.append (Reads.cons (hparams.reads.append
      (Reads.cons hbody.reads))))
    rwa [List.append_assoc] at h
  · simp [Syn.nodes, hbody.tree, hparams.tree, hnames.tree, hq.tree, plainNode, Nat.add_assoc]
  · simp [hbody.source, hparams.source, hnames.source, hq.source]
  · simp at hroom ⊢; omega
  · simp [Syn.root, hbody.length_tree, hparams.length_tree, hnames.tree, hq.tree, Nat.add_assoc]

omit hq

omit hc in
/-- The type and the name of a variable or a function. -/
lemma declNames_ok {quals : Qualifiers} {names : Token × Token}
    (htype : quals.isAuto = true ∨ p.window0.type ∈ [kByte, Ident])
    (h : parseDeclNames quals p = some (.ok (names, p'))) :
    ∃ (type : Option (TokOf [kByte, Ident])) (name : Tok Ident),
      names = (typeToken type, name.1) ∧ Passes (optToken type ++ [name.1]) p p' := by
  simp only [parseDeclNames, Fuel.Comp.ite_apply, advance_bind] at h
  split_ifs at h with hauto
  · rw [expect_bind] at h
    rcases h with ⟨hname, ⟨⟩⟩
    exact ⟨none, ⟨p.window0, hname⟩, rfl, Reads.single _, rfl, rfl⟩
  · rw [expect_bind] at h
    rcases h with ⟨hname, ⟨⟩⟩
    have hmem := htype.resolve_left hauto
    exact ⟨some ⟨p.window0, hmem⟩, ⟨p.bump.window0, hname⟩, rfl, Reads.cons (Reads.single _), rfl,
      rfl⟩

omit hc in
/-- The type and the name of a parameter. -/
lemma paramNames_ok {quals : Qualifiers} {names : Token × Token}
    (h : parseParamNames quals p = some (.ok (names, p'))) :
    ∃ (type : Option Token) (name : Option (Tok Ident)),
      names = (type.getD autoToken, nameToken name) ∧
      Passes (type.toList ++ optToken name) p p' := by
  simp only [parseParamNames, Fuel.Comp.ite_apply, advance_bind, check_bind,
    Fuel.Comp.pure_apply, beq_iff_eq] at h
  split_ifs at h with hauto hname
  · rw [expect_bind] at h
    rcases h with ⟨hname, ⟨⟩⟩
    exact ⟨none, some ⟨p.window0, hname⟩, rfl, Reads.single _, rfl, rfl⟩
  · cases h
    exact ⟨some p.window0, some ⟨p.bump.window0, hname⟩, rfl, Reads.cons (Reads.single _), rfl,
      rfl⟩
  · cases h
    exact ⟨some p.window0, none, rfl, Reads.single _, rfl, rfl⟩

lemma Sound.parameter (h : parseParamDecl c p = some (.ok (id, p'))) :
    ∃ s : Syn param, Returns s p id p' := by
  rw [parseParamDecl, Fuel.Comp.bind_eq_ok] at h
  rcases h with ⟨quals, p₁, hi, h⟩
  rcases hc.qualifiers hi with ⟨q, hq, rfl⟩
  rw [Fuel.Comp.bind_eq_ok] at h
  rcases h with ⟨names, p₂, hi, h⟩
  rcases paramNames_ok hi with ⟨type, name, rfl, hnames⟩
  rw [Fuel.Comp.bind_eq_ok] at h
  rcases h with ⟨i, p₃, hi, h⟩
  rcases hc.initialiser hi with ⟨init, hinit, rfl⟩
  rcases createDecl_ok h with ⟨rfl, hroom, rfl⟩
  refine ⟨Syn.parameter q type name init, ⟨?_, ?_, ?_, fun _ => ?_, hinit.grouped⟩, ?_⟩
  · have h := hq.reads.append (hnames.reads.append hinit.reads)
    rwa [List.append_assoc] at h
  · simp [Syn.nodes, hinit.tree, hnames.tree, hq.tree, QualifierTokens.value]
  · simp [hinit.source, hnames.source, hq.source]
  · simp [declNodes]; omega
  · simp [Syn.root, hinit.length_tree, hnames.tree, hq.tree]

lemma Sound.parameterStep (h : parameterLoop c p = some (.ok ((), p'))) :
    ∃ s : Syn (list (Cat.led [Comma] param)), Derives s p p' := by
  simp only [parameterLoop, matchToken_bind, if_true, Bool.false_eq_true, if_false] at h
  split_ifs at h with hcomma
  · rw [Fuel.Comp.bind_eq_ok] at h
    rcases h with ⟨i, p₁, hi, h⟩
    rcases hc.parameter hi with ⟨s, hs, -⟩
    rcases hc.parameters h with ⟨rest, hrest⟩
    have hmem : p.window0.type ∈ [Comma] := by simp [hcomma]
    exact ⟨Syn.cons (Syn.led ⟨p.window0, hmem⟩ s) rest, (hs.led hmem).cons hrest⟩
  · cases h
    exact ⟨Syn.nil, Derives.nil p⟩

lemma Sound.parameters' (h : parseParameters c p = some (.ok (id, p'))) :
    ∃ s : Syn (opt (commaList param)), Derives s p p' := by
  simp only [parseParameters, check_bind, Fuel.Comp.ite_apply] at h
  split_ifs at h
  · cases h
    exact ⟨Syn.none, Derives.none p⟩
  · rw [Fuel.Comp.bind_eq_ok] at h
    rcases h with ⟨i, p₁, hi, h⟩
    rcases hc.parameter hi with ⟨s, hs, -⟩
    rw [Fuel.Comp.bind_eq_ok] at h
    rcases h with ⟨⟨⟩, p₂, hi, ⟨⟩⟩
    rcases hc.parameters hi with ⟨rest, hrest⟩
    exact ⟨Syn.some (Syn.seq s rest), (hs.seq hrest).some⟩

/-- The three kinds of declarations. -/
lemma Sound.varOrTypeDecl (hq : Passes q.tokens p₀ p)
    (hdecl : q.value.isAuto = true ∨ p.window0.type ∈ [kType, kByte, Ident])
    (h : parseVarOrTypeDecl c q.value p = some (.ok (id, p'))) :
    ∃ s : Syn stmt, Returns s p₀ id p' := by
  simp only [parseVarOrTypeDecl, check_bind, Fuel.Comp.ite_apply, beq_iff_eq] at h
  split_ifs at h with htype
  · exact hc.typeDecl hq htype h
  · rw [Fuel.Comp.bind_eq_ok] at h
    rcases h with ⟨names, p₁, hi, h⟩
    have hmem : q.value.isAuto = true ∨ p.window0.type ∈ [kByte, Ident] :=
      hdecl.imp_right fun hmem => (List.mem_cons.mp hmem).resolve_left htype
    rcases declNames_ok hmem hi with ⟨type, name, rfl, hnames⟩
    simp only [check_bind, Fuel.Comp.ite_apply] at h
    split_ifs at h
    · exact hc.functionDecl hq hnames hc.parameters' h
    · rw [Fuel.Comp.bind_eq_ok] at h
      rcases h with ⟨i, p₂, hi, h⟩
      rw [expect_bind] at h
      exact hc.varDecl hq hnames hi h.1 h.2

/-- The body of `parseStatement` returns a derivation of a statement. -/
lemma Sound.statementStep (h : parseStatement c p = some (.ok (id, p'))) :
    ∃ s : Syn stmt, Returns s p id p' := by
  rw [parseStatement, Fuel.Comp.bind_eq_ok] at h
  rcases h with ⟨quals, p₁, hi, h⟩
  rcases hc.qualifiers hi with ⟨q, hq, hquals⟩
  obtain rfl : quals = q.value := hquals
  have hdecl : ∀ f : Bool → ParseM σ NodeId, (isDecl q.value >>= f) p₁ =
      f (q.value.isAuto || [kType, kByte, kStruct].contains p₁.window0.type
        || (p₁.window0.type == Ident && p₁.window1.type == Ident)) p₁ := fun _ => rfl
  have hembed : ∀ {l : Cat} {t : Syn l} (s : Syn stmt), Returns t p₁ id p' →
      s.tokens = q.tokens ++ t.tokens → (∀ base next, s.nodes base next = t.nodes base next) →
      (∀ base, s.root base = t.root base) → (t.Grouped → s.Grouped) → Returns s p id p' := by
    rintro l t s ⟨ht, rfl⟩ htokens hnodes hroot hgrouped
    refine ⟨⟨htokens ▸ hq.reads.append ht.reads, ?_, ht.source.trans hq.source, ?_,
      hgrouped ht.grouped⟩, ?_⟩
    · rw [hnodes, ht.tree, hq.tree]
    · rw [← hq.tree]
      exact ht.room
    · rw [hroot, hq.tree]
  simp only [matchToken_bind, check_bind, checkAny_bind, Fuel.Comp.ite_apply, if_true,
    Bool.false_eq_true, if_false, beq_iff_eq, List.contains_iff_mem] at h
  by_cases hblock : p₁.window0.type = BrLeft
  · rw [if_pos hblock] at h
    rcases hc.braces hblock h with ⟨b, hb⟩
    exact ⟨Syn.block q b, hembed _ hb rfl (fun _ _ => rfl) (fun _ => rfl) (fun h => h)⟩
  rw [if_neg hblock] at h
  by_cases hif : p₁.window0.type = kIf
  · rw [if_pos hif] at h
    rcases hc.conditional h with ⟨s, hs⟩
    exact ⟨Syn.ifStmt q s, hembed _ hs rfl (fun _ _ => rfl) (fun _ => rfl) (fun h => h)⟩
  rw [if_neg hif] at h
  by_cases hwhile : p₁.window0.type = kWhile
  · rw [if_pos hwhile] at h
    exact hc.whileStmt hq h
  rw [if_neg hwhile] at h
  by_cases hfor : p₁.window0.type = kFor
  · rw [if_pos hfor] at h
    exact hc.forStmt hq h
  rw [if_neg hfor] at h
  by_cases hreturn : p₁.window0.type = kReturn
  · rw [if_pos hreturn] at h
    exact hc.returnStmt hq h
  rw [if_neg hreturn] at h
  by_cases hjump : p₁.window0.type ∈ [kBreak, kContinue]
  · rw [if_pos hjump] at h
    exact returns_jump hq hjump h
  rw [if_neg hjump] at h
  by_cases hstruct : p₁.window0.type = kStruct
  · rw [if_pos hstruct] at h
    exact hc.structDecl hq h
  rw [if_neg hstruct] at h
  by_cases hns : p₁.window0.type = kNamespace
  · rw [if_pos hns] at h
    exact hc.namespaceDecl hq h
  rw [if_neg hns] at h
  by_cases hdelete : p₁.window0.type = kDelete
  · rw [if_pos hdelete, Fuel.Comp.bind_eq_ok] at h
    rcases h with ⟨i, p₂, hi, h⟩
    rw [Fuel.Comp.bind_eq_ok] at h
    rcases h with ⟨u, p₃, hsemi, ⟨⟩⟩
    rcases hc.delete hi with ⟨d, hd⟩
    exact returns_withSemi (s := Syn.deleteStmt q d) hq hd hsemi (fun _ => rfl)
      (fun _ _ _ => rfl) (fun _ _ => rfl) (fun _ h => h)
  rw [if_neg hdelete] at h
  by_cases hreq : p₁.window0.type = kRequires
  · rw [if_pos hreq, expect_bind, Fuel.Comp.bind_eq_ok] at h
    rcases h with ⟨hcolon, i, p₂, hi, h⟩
    rw [Fuel.Comp.bind_eq_ok] at h
    rcases h with ⟨u, p₃, hsemi, ⟨⟩⟩
    rcases hc.expression hi with ⟨e, he, -⟩
    rcases optionalSemi_ok hsemi with ⟨semi, hsemi⟩
    refine ⟨Syn.requires q ⟨p₁.window0, hreq⟩ ⟨p₁.bump.window0, hcolon⟩ e semi,
      ⟨hq.reads.append (Reads.cons (Reads.cons (he.returned.1.reads.append hsemi.reads))), ?_,
        ?_, ?_, he.returned.1.grouped⟩, ?_⟩
    · simp [Syn.nodes, hsemi.tree, he.returned.1.tree, hq.tree, hsemi.reads.firstOffset]
    · simp [hsemi.source, he.returned.1.source, hq.source]
    · rw [hsemi.tree, ← hq.tree]
      exact he.returned.1.room
    · simp [Syn.root, he.returned.2, hq.tree]
  rw [if_neg hreq, hdecl] at h
  split_ifs at h with hisDecl
  · refine hc.varOrTypeDecl hq ?_ h
    simp only [Bool.or_eq_true, Bool.and_eq_true, List.contains_iff_mem, beq_iff_eq] at hisDecl
    simp only [List.mem_cons, hstruct, List.not_mem_nil, or_false] at hisDecl ⊢
    tauto
  · rw [Fuel.Comp.bind_eq_ok] at h
    rcases h with ⟨i, p₂, hi, h⟩
    rw [Fuel.Comp.bind_eq_ok] at h
    rcases h with ⟨u, p₃, hsemi, ⟨⟩⟩
    rcases hc.expression hi with ⟨e, he, -⟩
    exact returns_withSemi (s := Syn.exprStmt q e) hq he.returned hsemi (fun _ => rfl)
      (fun _ _ _ => rfl) (fun _ _ => rfl) (fun _ h => h)

end Productions

/-! ## The parser -/

/-- **The productions keep `Sound`.** -/
lemma sound_productions {c : Calls σ} (hc : Sound c) : Sound (productions c) where
  statement := hc.statementStep
  expression := hc.expressionStep
  primary := hc.primaryStep
  postfixed := hc.postfixStep
  binary := hc.binaryStep
  arguments := hc.argumentStep
  parameters := hc.parameterStep
  block := hc.blockStep
  qualifiers := hc.qualifierStep

/-- All of the calls are sound, at every level of fuel. -/
lemma sound_calls (n : ℕ) : Sound (parser n : Calls σ) := by
  induction n with
  | zero =>
      constructor
      all_goals
        intros
        rename_i h
        cases h
  | succ n ih => exact sound_productions ih

end Parser

end LogicCompiler
