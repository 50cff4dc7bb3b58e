import LogicCompiler.Lexer.Relexing
import LogicCompiler.Parser.Completeness
import LogicCompiler.Parser.Halting

/-!
# The language of the parser

The third part between soundness and completeness: what the parser returns is not just some syntax of
its tokens but the canonical one.  A production looks at the next token wherever it could go on or stop,
and `Canonical` says no more than that it looked (`Accurate`).

Together the three parts describe the parser without its code.  The sources it accepts are those whose
tokens have a canonical reading, and its tree is the one of this reading (`accepts_iff`).
-/

namespace LogicCompiler

open TokenType NodeKind Cat Lexer

variable {σ : Type} [TokenSource σ] {src : List Byte} {k l : Cat}

namespace Parser

/-- From `p` to `p'` the parser has read `s`, which is canonical in front of what is left. -/
structure Chosen (src : List Byte) (s : Syn k) (p p' : Parser σ) : Prop where
  reads : Reads p.toLookahead s.tokens p'.toLookahead
  source : p'.source = src
  canonical : s.Canonical src p'.window0
  length : p'.tree.length = p.tree.length + s.size

namespace Chosen

variable {s : Syn k} {t : Syn l} {p p' q : Parser σ}

lemma none (hp : p.source = src) : Chosen src (Syn.none : Syn (opt k)) p p :=
  ⟨Reads.nil _, hp, trivial, rfl⟩

lemma some (h : Chosen src s p p') : Chosen src (Syn.some s) p p' :=
  ⟨h.reads, h.source, h.canonical, h.length⟩

lemma full (h : Chosen src s p p') : Chosen src (Syn.full s) p p' :=
  ⟨h.reads, h.source, h.canonical, h.length⟩

lemma bare (hp : p.source = src) (ht : p.window0.type = Semi) :
    Chosen src (Syn.bare ⟨p.window0, ht⟩ : Syn (orSemi k)) p p.bump :=
  ⟨Reads.single _, hp, trivial, rfl⟩

lemma nil (hp : p.source = src) : Chosen src (Syn.nil : Syn (list k)) p p :=
  ⟨Reads.nil _, hp, trivial, rfl⟩

/-- A list is chosen from its first entry on. -/
lemma cons {rest : Syn (list k)} (h : Chosen src s p q) (hr : Chosen src rest q p') :
    Chosen src (Syn.cons s rest) p p' where
  reads := h.reads.append hr.reads
  source := hr.source
  canonical := ⟨hr.reads.firstToken.symm ▸ h.canonical, hr.canonical⟩
  length := by rw [hr.length, h.length, Syn.size, Nat.add_assoc]

lemma seq (h : Chosen src s p q) (ht : Chosen src t q p') : Chosen src (Syn.seq s t) p p' where
  reads := h.reads.append ht.reads
  source := ht.source
  canonical := ⟨ht.reads.firstToken.symm ▸ h.canonical, ht.canonical⟩
  length := by rw [ht.length, h.length, Syn.size, Nat.add_assoc]

lemma led (types : List TokenType) (ht : p.window0.type ∈ types) (h : Chosen src s p.bump p') :
    Chosen src (Syn.led ⟨p.window0, ht⟩ s) p p' :=
  ⟨Reads.cons h.reads, h.source, h.canonical, h.length⟩

end Chosen

/-- What an expression satisfies that a loop has collected so far. -/
structure Ended (src : List Byte) (e : Syn expr) (p₀ p : Parser σ) : Prop where
  chosen : Chosen src e p₀ p
  fits : getPrecedence p.window0.type ≤ e.level
  stopped : p.window0.type ∉ postfixStarts

/-- The calls of a table return the canonical reading. -/
structure Accurate (src : List Byte) (c : Calls σ) : Prop where
  sound : Sound c
  statement {p p' : Parser σ} {id : NodeId} :
    p.source = src → c.parseStatement p = some (.ok (id, p')) → ∃ s : Syn stmt, Chosen src s p p'
  expression {m : ℕ} {p p' : Parser σ} {id : NodeId} :
    p.source = src → c.parseExpression m p = some (.ok (id, p')) →
      ∃ e : Syn expr, Ended src e p p' ∧ min m 12 ≤ e.level ∧
        (getPrecedence p'.window0.type < m ∨ getPrecedence p'.window0.type = 0)
  primary {p p' : Parser σ} {id : NodeId} :
    p.source = src → c.parsePrimaryExpression p = some (.ok (id, p')) →
      ∃ e : Syn expr, Ended src e p p' ∧ 12 ≤ e.level
  postfixed {e : Syn expr} {p₀ p p' : Parser σ} {lhs id : NodeId} :
    Chosen src e p₀ p → 12 ≤ e.level → (p.window0.type ∈ postfixStarts → 13 ≤ e.level) →
      c.parsePostfixExpression lhs p = some (.ok (id, p')) →
        ∃ e' : Syn expr, Ended src e' p₀ p' ∧ 12 ≤ e'.level
  binary {m : ℕ} {e : Syn expr} {p₀ p p' : Parser σ} {lhs id : NodeId} :
    Ended src e p₀ p → min m 12 ≤ e.level → c.binaryLoop m lhs p = some (.ok (id, p')) →
      ∃ e' : Syn expr, Ended src e' p₀ p' ∧ min m 12 ≤ e'.level ∧
        (getPrecedence p'.window0.type < m ∨ getPrecedence p'.window0.type = 0)
  arguments {p p' : Parser σ} :
    p.source = src → c.argumentLoop p = some (.ok ((), p')) →
      ∃ s : Syn (list (Cat.led [Comma] expr)), Chosen src s p p'
  parameters {p p' : Parser σ} :
    p.source = src → c.parameterLoop p = some (.ok ((), p')) →
      ∃ s : Syn (list (Cat.led [Comma] param)), Chosen src s p p'
  block {p p' : Parser σ} :
    p.source = src → c.blockLoop p = some (.ok ((), p')) → ∃ s : Syn (list stmt), Chosen src s p p'
  qualifiers {q q' : Qualifiers} {p p' : Parser σ} :
    c.qualifierLoop q p = some (.ok (q', p')) → p'.window0.type ∉ qualifierTypes

section Productions

variable {c : Calls σ} (hc : Accurate src c) {p p' p₀ : Parser σ} {id : NodeId}

/-! ## Parts -/

include hc

lemma Accurate.unless {stop : TokenType} (hp : p.source = src)
    (h : parseUnless c stop p = some (.ok (id, p'))) : ∃ s : Syn (opt expr), Chosen src s p p' := by
  simp only [parseUnless, check_bind, Fuel.Comp.ite_apply, Fuel.Comp.pure_apply] at h
  split_ifs at h
  · cases h
    exact ⟨Syn.none, .none hp⟩
  · rcases hc.expression hp h with ⟨e, he, -⟩
    exact ⟨Syn.some e, he.chosen.some⟩

/-- The body of a type or a struct is there when a brace is. -/
lemma Accurate.optionalBody (hp : p.source = src) (h : parseOptionalBody c p = some (.ok (id, p'))) :
    ∃ s : Syn (opt stmt), Chosen src s p p' ∧ s.IsBody p'.window0 := by
  simp only [parseOptionalBody, check_bind, Fuel.Comp.ite_apply, Fuel.Comp.pure_apply,
    beq_iff_eq] at h
  split_ifs at h with hbrace
  · rcases hc.statement hp h with ⟨s, hs⟩
    refine ⟨Syn.some s, hs.some, ?_⟩
    rw [Syn.IsBody, hs.reads.firstToken]
    exact hbrace
  · cases h
    exact ⟨Syn.none, .none hp, hbrace⟩

lemma Accurate.forInit (hp : p.source = src) (h : parseForInit c p = some (.ok (id, p'))) :
    ∃ s : Syn (orSemi stmt), Chosen src s p p' := by
  simp only [parseForInit, check_bind, advance_bind, Fuel.Comp.ite_apply, Fuel.Comp.pure_apply,
    beq_iff_eq] at h
  split_ifs at h with hsemi
  · cases h
    exact ⟨_, .bare hp hsemi⟩
  · rcases hc.statement hp h with ⟨s, hs⟩
    exact ⟨Syn.full s, hs.full⟩

lemma Accurate.functionBody (hp : p.source = src) (h : parseFunctionBody c p = some (.ok (id, p'))) :
    ∃ s : Syn (orSemi stmt), Chosen src s p p' ∧ s.IsFunctionBody := by
  simp only [parseFunctionBody, check_bind, Fuel.Comp.ite_apply, beq_iff_eq] at h
  split_ifs at h with hbrace
  · rcases hc.statement hp h with ⟨s, hs⟩
    refine ⟨Syn.full s, hs.full, ?_⟩
    rcases s.head_ne_eof rfl with ⟨t, ts, hts, -⟩
    have hfirst := hs.reads.firstToken
    rw [hts, firstToken_cons] at hfirst
    exact ⟨t, ts, hts, hfirst ▸ hbrace⟩
  · simp only [expect_bind, Fuel.Comp.pure_apply, Option.some.injEq, Except.ok.injEq,
      Prod.mk.injEq] at h
    rcases h with ⟨hsemi, rfl, rfl⟩
    exact ⟨_, .bare hp hsemi, trivial⟩

lemma Accurate.initialiser (hp : p.source = src) (h : parseInitialiser c p = some (.ok (id, p'))) :
    ∃ s : Syn (opt (Cat.led [Equals] expr)), Chosen src s p p' := by
  simp only [parseInitialiser, matchToken_bind, if_true, Bool.false_eq_true, if_false,
    Fuel.Comp.pure_apply] at h
  split_ifs at h with heq
  · rcases hc.expression (p := p.bump) hp h with ⟨e, he, -⟩
    exact ⟨_, (he.chosen.led [Equals] (by simp [heq])).some⟩
  · cases h
    exact ⟨Syn.none, .none hp⟩

/-- There is no `else` where the branch for it is left out. -/
lemma Accurate.elsePart (hp : p.source = src) (h : parseElse c p = some (.ok (id, p'))) :
    ∃ s : Syn (opt (Cat.led [kElse] stmt)), Chosen src s p p' ∧
      (s.tokens = [] → p'.window0.type ≠ kElse) := by
  simp only [parseElse, matchToken_bind, if_true, Bool.false_eq_true, if_false,
    Fuel.Comp.pure_apply] at h
  split_ifs at h with hkw
  · rcases hc.statement (p := p.bump) hp h with ⟨s, hs⟩
    refine ⟨_, (hs.led [kElse] (by simp [hkw])).some, fun hnil => ?_⟩
    exact absurd hnil (List.cons_ne_nil _ _)
  · cases h
    exact ⟨Syn.none, .none hp, fun _ => hkw⟩

/-! ## Expressions -/

lemma Accurate.arguments' (hp : p.source = src) (h : parseArguments c p = some (.ok (id, p'))) :
    ∃ s : Syn (opt (commaList expr)), Chosen src s p p' := by
  simp only [parseArguments, check_bind, Fuel.Comp.ite_apply] at h
  split_ifs at h
  · cases h
    exact ⟨Syn.none, .none hp⟩
  · simp only [Fuel.Comp.bind_eq_ok, Fuel.Comp.pure_apply, Option.some.injEq, Except.ok.injEq,
      Prod.mk.injEq] at h
    rcases h with ⟨_, p₁, hfirst, ⟨⟩, p₂, hmore, rfl, rfl⟩
    rcases hc.expression hp hfirst with ⟨e, he, -⟩
    rcases hc.arguments he.chosen.source hmore with ⟨more, hmore⟩
    exact ⟨_, (he.chosen.seq hmore).some⟩

lemma Accurate.delete (hp : p.source = src) (h : parseDeleteStatement c p = some (.ok (id, p'))) :
    ∃ s : Syn del, Chosen src s p p' := by
  simp only [parseDeleteStatement, expect_bind, matchToken_bind] at h
  rcases h with ⟨hk, h⟩
  split_ifs at h with hauto
  all_goals
    rw [Fuel.Comp.bind_eq_ok] at h
    rcases h with ⟨target, p₁, htarget, h⟩
    simp only [createNode_setBoth_bind, Fuel.Comp.pure_apply, Option.some.injEq,
      Except.ok.injEq, Prod.mk.injEq] at h
    rcases h with ⟨hroom, rfl, rfl⟩
  · rcases hc.primary (p := p.bump.bump) hp htarget with ⟨e, he, hlevel⟩
    refine ⟨Syn.delete ⟨p.window0, hk⟩ (some ⟨_, hauto⟩) e,
      Reads.cons (Reads.cons he.chosen.reads), he.chosen.source,
      ⟨hlevel, he.chosen.canonical, he.stopped⟩, ?_⟩
    simp [Syn.size, he.chosen.length, Nat.add_assoc]
  · rcases hc.primary (p := p.bump) hp htarget with ⟨e, he, hlevel⟩
    refine ⟨Syn.delete ⟨p.window0, hk⟩ none e, Reads.cons he.chosen.reads, he.chosen.source,
      ⟨hlevel, he.chosen.canonical, he.stopped⟩, ?_⟩
    simp [Syn.size, he.chosen.length, Nat.add_assoc]

lemma Accurate.braces {msg : String} (hp : p.source = src) (hl : p.window0.type = BrLeft)
    (h : parseBlock c msg p.bump = some (.ok (id, p'))) :
    ∃ b : Syn Cat.braces, Chosen src b p p' := by
  simp only [parseBlock, peek_bind, createNode_bind] at h
  rcases h with ⟨hroom, h⟩
  rw [Fuel.Comp.bind_eq_ok] at h
  rcases h with ⟨⟨⟩, p₁, hbody, h⟩
  simp only [expect_bind, Fuel.Comp.pure_apply, Option.some.injEq, Except.ok.injEq,
    Prod.mk.injEq] at h
  rcases h with ⟨hr, rfl, rfl⟩
  rcases hc.block (by exact hp) hbody with ⟨body, hbody⟩
  refine ⟨Syn.braced ⟨p.window0, hl⟩ body ⟨p₁.window0, hr⟩,
    Reads.cons (hbody.reads.append (Reads.single _)), hbody.source, hbody.canonical, ?_⟩
  have hlength := hbody.length
  simp only [push_tree, bump_tree, List.length_append, List.length_singleton] at hlength
  simp only [bump_tree, Syn.size, hlength]
  omega

lemma Accurate.conditional {keyword : TokenType} {msg₁ msg₂ msg₃ : String} (hp : p.source = src)
    (h : parseConditional c keyword msg₁ msg₂ msg₃ p = some (.ok (id, p'))) :
    ∃ s : Syn (Cat.conditional keyword), Chosen src s p p' := by
  simp only [parseConditional, expect_bind] at h
  rcases h with ⟨hk, hl, h⟩
  rw [Fuel.Comp.bind_eq_ok] at h
  rcases h with ⟨cond, p₁, hcond, h⟩
  rcases hc.expression (p := p.bump.bump) hp hcond with ⟨e, ⟨he, -, -⟩, -⟩
  rw [expect_bind, Fuel.Comp.bind_eq_ok] at h
  rcases h with ⟨hr, thenBlock, p₂, hthen, h⟩
  rcases hc.statement (p := p₁.bump) he.source hthen with ⟨t, ht⟩
  rw [Fuel.Comp.bind_eq_ok] at h
  rcases h with ⟨elseBlock, p₃, helse, h⟩
  rcases hc.elsePart ht.source helse with ⟨f, hf, hnone⟩
  simp only [createNode_setData_bind, Fuel.Comp.pure_apply, Option.some.injEq, Except.ok.injEq,
    Prod.mk.injEq] at h
  rcases h with ⟨hroom, rfl, rfl⟩
  refine ⟨Syn.conditional ⟨p.window0, hk⟩ ⟨p.bump.window0, hl⟩ e ⟨p₁.window0, hr⟩ t f,
    Reads.cons (Reads.cons (he.reads.append (Reads.cons (ht.reads.append hf.reads)))), hf.source,
    ⟨he.canonical, hf.reads.firstToken.symm ▸ ht.canonical, hf.canonical, hnone⟩, ?_⟩
  simp [Syn.size, hf.length, ht.length, he.length, Nat.add_assoc]

lemma Accurate.cast (hp : p.source = src) (hl : p.window0.type = Left) {d : NodeId} {p₁ : Parser σ}
    {n : Node} (hd : parseDeleteStatement c p.bump = some (.ok (d, p₁)))
    (hr : p₁.window0.type = Right) :
    ∃ e : Syn expr, Chosen src e p (p₁.bump.push [n]) ∧ 13 ≤ e.level := by
  rcases hc.delete (p := p.bump) hp hd with ⟨s, hs⟩
  refine ⟨Syn.cast ⟨p.window0, hl⟩ s ⟨p₁.window0, hr⟩,
    ⟨Reads.cons (hs.reads.append (Reads.single _)), hs.source, hs.canonical, ?_⟩, le_rfl⟩
  simp [Syn.size, hs.length, Nat.add_assoc]

lemma Accurate.paren (hp : p.source = src) (hl : p.window0.type = Left) {p₁ : Parser σ}
    (h : c.parseExpression 0 p.bump = some (.ok (id, p₁))) (hr : p₁.window0.type = Right) :
    ∃ e : Syn expr, Chosen src e p p₁.bump ∧ 13 ≤ e.level := by
  rcases hc.expression (p := p.bump) hp h with ⟨e, ⟨he, -, -⟩, -⟩
  exact ⟨Syn.paren ⟨p.window0, hl⟩ e ⟨p₁.window0, hr⟩,
    ⟨Reads.cons (he.reads.append (Reads.single _)), he.source, he.canonical, he.length⟩, le_rfl⟩

/-- The body of `parsePrimaryExpression` makes the choices it has to. -/
lemma Accurate.primaryStep (hp : p.source = src)
    (h : parsePrimaryExpression c p = some (.ok (id, p'))) :
    ∃ e : Syn expr, Ended src e p p' ∧ 12 ≤ e.level := by
  simp only [parsePrimaryExpression, checkAny_bind, check_bind, peekType1_bind, peek_bind,
    matchToken_bind, Fuel.Comp.ite_apply, List.contains_iff_mem, Bool.and_eq_true,
    beq_iff_eq, advance_bind, raiseError_apply, if_true, Bool.false_eq_true, if_false] at h
  split_ifs at h with hpre hlit hid heval hcast hbrace hparen
  · rw [Fuel.Comp.bind_eq_ok] at h
    rcases h with ⟨operand, p₁, hoperand, h⟩
    rw [createNode_setData_bind] at h
    rcases hc.primary (p := p.bump) hp hoperand with ⟨e, ⟨he, -, hstop⟩, hlevel⟩
    refine hc.postfixed (e := Syn.pre ⟨p.window0, hpre⟩ e) ?_ le_rfl ?_ h.2
    · refine ⟨Reads.cons he.reads, he.source, ⟨hlevel, he.canonical⟩, ?_⟩
      simp [Syn.size, he.length, Nat.add_assoc]
    · intro hmem
      exact absurd hmem hstop
  · rw [createTokenNode_bind] at h
    refine hc.postfixed (e := Syn.literal ⟨p.window0, hlit⟩) ?_ (Nat.le_succ 12) (fun _ => le_rfl) h.2
    exact ⟨Reads.single _, hp, trivial, by simp [Syn.size]⟩
  · rw [createTokenNode_bind] at h
    refine hc.postfixed (e := Syn.ident ⟨p.window0, hid⟩) ?_ (Nat.le_succ 12) (fun _ => le_rfl) h.2
    exact ⟨Reads.single _, hp, trivial, by simp [Syn.size]⟩
  · rw [Fuel.Comp.bind_eq_ok] at h
    rcases h with ⟨i, p₁, hi, h⟩
    rcases hc.conditional hp hi with ⟨s, hs⟩
    exact hc.postfixed (e := Syn.eval s) ⟨hs.reads, hs.source, hs.canonical, hs.length⟩
      (Nat.le_succ 12) (fun _ => le_rfl) h
  · rw [Fuel.Comp.bind_eq_ok] at h
    rcases h with ⟨d, p₁, hd, h⟩
    simp only [expect_bind, peek_bind, createNode_setData_bind] at h
    rcases h with ⟨hr, -, h⟩
    rcases hc.cast hp hcast.1 hd hr with ⟨e, he, hlevel⟩
    exact hc.postfixed he (by omega) (fun _ => hlevel) h
  · rw [Fuel.Comp.bind_eq_ok] at h
    rcases h with ⟨i, p₁, hi, h⟩
    rcases hc.braces hp hbrace hi with ⟨b, hb⟩
    exact hc.postfixed (e := Syn.blockExpr b) ⟨hb.reads, hb.source, hb.canonical, hb.length⟩
      (Nat.le_succ 12) (fun _ => le_rfl) h
  · rw [Fuel.Comp.bind_eq_ok] at h
    rcases h with ⟨i, p₁, hi, h⟩
    rw [expect_bind] at h
    rcases hc.paren hp hparen hi h.1 with ⟨e, he, hlevel⟩
    exact hc.postfixed he (by omega) (fun _ => hlevel) h.2
  · cases h

/-- One iteration of the postfix loop, on an expression that ends at `p`. -/
lemma Accurate.postfixStep {e : Syn expr} {lhs : NodeId} (he : Chosen src e p₀ p)
    (hlevel : 12 ≤ e.level) (hpost : p.window0.type ∈ postfixStarts → 13 ≤ e.level)
    (h : parsePostfixExpression c lhs p = some (.ok (id, p'))) :
    ∃ e' : Syn expr, Ended src e' p₀ p' ∧ 12 ≤ e'.level := by
  simp only [parsePostfixExpression, checkAny_bind, matchToken_bind, Fuel.Comp.ite_apply,
    List.contains_iff_mem, advance_bind, if_true, Bool.false_eq_true, if_false] at h
  split_ifs at h with hcall hmember hindex hpp
  · rw [Fuel.Comp.bind_eq_ok] at h
    rcases h with ⟨i, p₁, hi, h⟩
    rcases hc.arguments' (p := p.bump) he.source hi with ⟨args, hargs⟩
    simp only [expect_bind, peek_bind, createNode_setData_bind] at h
    rcases h with ⟨hr, -, h⟩
    have hlevel := hpost (by simp [postfixStarts, hcall])
    refine hc.postfixed (e := Syn.call e ⟨p.window0, hcall⟩ args ⟨p₁.window0, hr⟩) ?_
      (Nat.le_succ 12) (fun _ => le_rfl) h
    refine ⟨he.reads.append (Reads.cons (hargs.reads.append (Reads.single _))), hargs.source,
      ⟨hlevel, he.canonical, hargs.canonical⟩, ?_⟩
    simp [Syn.size, hargs.length, he.length, Nat.add_assoc]
  · rw [expect_bind] at h
    rcases h with ⟨hname, h⟩
    simp only [createTokenNode_bind, createNode_setData_bind, push_push] at h
    rcases h with ⟨-, -, h⟩
    have hlevel := hpost (by simp [postfixStarts] at hmember ⊢; tauto)
    refine hc.postfixed (e := Syn.member e ⟨p.window0, hmember⟩ ⟨p.bump.window0, hname⟩) ?_
      (Nat.le_succ 12) (fun _ => le_rfl) h
    refine ⟨he.reads.append (Reads.cons (Reads.single _)), he.source, ⟨hlevel, he.canonical⟩, ?_⟩
    simp [Syn.size, he.length, Nat.add_assoc]
  · rw [Fuel.Comp.bind_eq_ok] at h
    rcases h with ⟨i, p₁, hi, h⟩
    rcases hc.expression (p := p.bump) he.source hi with ⟨x, ⟨hx, -, -⟩, -⟩
    simp only [expect_bind, peek_bind, createNode_setData_bind] at h
    rcases h with ⟨hr, -, h⟩
    have hlevel := hpost (by simp [postfixStarts, hindex])
    refine hc.postfixed (e := Syn.index e ⟨p.window0, hindex⟩ x ⟨p₁.window0, hr⟩) ?_
      (Nat.le_succ 12) (fun _ => le_rfl) h
    refine ⟨he.reads.append (Reads.cons (hx.reads.append (Reads.single _))), hx.source,
      ⟨hlevel, he.canonical, hx.canonical⟩, ?_⟩
    simp [Syn.size, hx.length, he.length, Nat.add_assoc]
  · rw [createNode_setData_bind] at h
    have hlevel := hpost (by simp [postfixStarts] at hpp ⊢; tauto)
    refine hc.postfixed (e := Syn.post e ⟨p.window0, hpp⟩) ?_ (Nat.le_succ 12) (fun _ => le_rfl) h.2
    refine ⟨he.reads.append (Reads.single _), he.source, ⟨hlevel, he.canonical⟩, ?_⟩
    simp [Syn.size, he.length, Nat.add_assoc]
  · cases h
    refine ⟨e, ⟨he, ?_, ?_⟩, hlevel⟩
    · exact (getPrecedence_le _).trans (Nat.le_of_succ_le hlevel)
    · simp only [postfixStarts, List.mem_cons, List.not_mem_nil, or_false] at hmember hpp ⊢
      tauto

/-- The body of `parseExpression` ends where no operator binds strongly enough. -/
lemma Accurate.expressionStep {m : ℕ} (hp : p.source = src)
    (h : parseExpression c m p = some (.ok (id, p'))) :
    ∃ e : Syn expr, Ended src e p p' ∧ min m 12 ≤ e.level ∧
      (getPrecedence p'.window0.type < m ∨ getPrecedence p'.window0.type = 0) := by
  rw [parseExpression, Fuel.Comp.bind_eq_ok] at h
  rcases h with ⟨lhs, p₁, hlhs, h⟩
  rcases hc.primary hp hlhs with ⟨e, he, hlevel⟩
  exact hc.binary he (by omega) h

lemma Accurate.binaryStep {m : ℕ} {e : Syn expr} {lhs : NodeId} (he : Ended src e p₀ p)
    (hm : min m 12 ≤ e.level) (h : binaryLoop c m lhs p = some (.ok (id, p'))) :
    ∃ e' : Syn expr, Ended src e' p₀ p' ∧ min m 12 ≤ e'.level ∧
      (getPrecedence p'.window0.type < m ∨ getPrecedence p'.window0.type = 0) := by
  simp only [binaryLoop, peek_bind, Fuel.Comp.ite_apply, advance_bind,
    Fuel.Comp.pure_apply] at h
  split_ifs at h with hprec
  · cases h
    exact ⟨e, he, hm, hprec⟩
  · rw [Fuel.Comp.bind_eq_ok] at h
    rcases h with ⟨i, p₁, hi, h⟩
    rw [createNode_setData_bind] at h
    rcases he with ⟨he, hfits, -⟩
    rcases hc.expression (p := p.bump) he.source hi with ⟨x, ⟨hx, -, hstop⟩, hlevel, hend⟩
    push Not at hprec
    have hop : 0 < getPrecedence p.window0.type := Nat.pos_of_ne_zero hprec.2
    have hle := getPrecedence_le p.window0.type
    have hright : getPrecedence p.window0.type < x.level := by omega
    refine hc.binary (e := Syn.binary e ⟨p.window0, hop⟩ x) ?_ ?_ h.2
    · refine ⟨⟨he.reads.append (Reads.cons hx.reads), hx.source, ?_, ?_⟩, ?_, hstop⟩
      · exact ⟨hfits, hright, he.canonical, hx.canonical⟩
      · simp [Syn.size, hx.length, he.length, Nat.add_assoc]
      · show getPrecedence p₁.window0.type ≤ getPrecedence p.window0.type
        omega
    · show min m 12 ≤ getPrecedence p.window0.type
      omega

lemma Accurate.argumentStep (hp : p.source = src) (h : argumentLoop c p = some (.ok ((), p'))) :
    ∃ s : Syn (list (Cat.led [Comma] expr)), Chosen src s p p' := by
  simp only [argumentLoop, matchToken_bind, if_true, Bool.false_eq_true, if_false] at h
  split_ifs at h with hcomma
  · rw [Fuel.Comp.bind_eq_ok] at h
    rcases h with ⟨i, p₁, hi, h⟩
    rcases hc.expression (p := p.bump) hp hi with ⟨e, he, -⟩
    rcases hc.arguments he.chosen.source h with ⟨rest, hrest⟩
    exact ⟨_, (he.chosen.led [Comma] (by simp [hcomma])).cons hrest⟩
  · cases h
    exact ⟨Syn.nil, .nil hp⟩

/-! ## Statements -/

omit hc in
/-- A `;` is left out only where none stands. -/
lemma optionalSemi_chosen {u : Unit} (h : optionalSemi p = some (.ok (u, p'))) :
    ∃ semi : Option (Tok Semi), Passes (optToken semi) p p' ∧ Terminated semi p'.window0 := by
  simp only [optionalSemi, check_bind, Fuel.Comp.ite_apply, advance_bind, Fuel.Comp.pure_apply,
    beq_iff_eq] at h
  split_ifs at h with hsemi
  · cases h
    exact ⟨some ⟨p.window0, hsemi⟩, ⟨Reads.single _, rfl, rfl⟩,
      fun hnone => absurd hnone (Option.some_ne_none _)⟩
  · cases h
    exact ⟨none, ⟨Reads.nil _, rfl, rfl⟩, fun _ => hsemi⟩

lemma Accurate.blockStep (hp : p.source = src) (h : blockLoop c p = some (.ok ((), p'))) :
    ∃ s : Syn (list stmt), Chosen src s p p' := by
  simp only [blockLoop, checkAny_bind, Fuel.Comp.ite_apply] at h
  split_ifs at h
  · cases h
    exact ⟨Syn.nil, .nil hp⟩
  · rw [Fuel.Comp.bind_eq_ok] at h
    rcases h with ⟨i, p₁, hi, h⟩
    rcases hc.statement hp hi with ⟨s, hs⟩
    rcases hc.block hs.source h with ⟨rest, hrest⟩
    exact ⟨Syn.cons s rest, hs.cons hrest⟩

variable {q : QualifierTokens} (hq : Passes q.tokens p₀ p)

include hq

lemma Accurate.whileStmt (hp : p.source = src) (h : parseWhileStatement c p = some (.ok (id, p'))) :
    ∃ s : Syn stmt, Chosen src s p₀ p' := by
  simp only [parseWhileStatement, expect_bind] at h
  rcases h with ⟨hk, hl, h⟩
  rw [Fuel.Comp.bind_eq_ok] at h
  rcases h with ⟨cond, p₁, hcond, h⟩
  rcases hc.expression (p := p.bump.bump) hp hcond with ⟨e, ⟨he, -, -⟩, -⟩
  rw [expect_bind, Fuel.Comp.bind_eq_ok] at h
  rcases h with ⟨hr, body, p₂, hbody, h⟩
  rcases hc.statement (p := p₁.bump) he.source hbody with ⟨s, hs⟩
  simp only [createNode_setData_bind, Fuel.Comp.pure_apply, Option.some.injEq, Except.ok.injEq,
    Prod.mk.injEq] at h
  rcases h with ⟨-, rfl, rfl⟩
  refine ⟨Syn.whileStmt q ⟨p.window0, hk⟩ ⟨p.bump.window0, hl⟩ e ⟨p₁.window0, hr⟩ s,
    hq.reads.append (Reads.cons (Reads.cons (he.reads.append (Reads.cons hs.reads)))), hs.source,
    ⟨he.canonical, hs.canonical⟩, ?_⟩
  simp [Syn.size, hs.length, he.length, hq.tree, Nat.add_assoc]

lemma Accurate.forStmt (hp : p.source = src) (h : parseForStatement c p = some (.ok (id, p'))) :
    ∃ s : Syn stmt, Chosen src s p₀ p' := by
  simp only [parseForStatement, expect_bind] at h
  rcases h with ⟨hk, hl, h⟩
  rw [Fuel.Comp.bind_eq_ok] at h
  rcases h with ⟨i, p₁, hi, h⟩
  rcases hc.forInit (p := p.bump.bump) hp hi with ⟨init, hinit⟩
  rw [Fuel.Comp.bind_eq_ok] at h
  rcases h with ⟨i, p₂, hi, h⟩
  rcases hc.unless hinit.source hi with ⟨cond, hcond⟩
  rw [expect_bind, Fuel.Comp.bind_eq_ok] at h
  rcases h with ⟨hsemi, i, p₃, hi, h⟩
  rcases hc.unless (p := p₂.bump) hcond.source hi with ⟨incr, hincr⟩
  rw [expect_bind, Fuel.Comp.bind_eq_ok] at h
  rcases h with ⟨hr, i, p₄, hi, h⟩
  rcases hc.statement (p := p₃.bump) hincr.source hi with ⟨body, hbody⟩
  simp only [createNode_setData_bind, Fuel.Comp.pure_apply, Option.some.injEq, Except.ok.injEq,
    Prod.mk.injEq] at h
  rcases h with ⟨-, rfl, rfl⟩
  refine ⟨Syn.forStmt q ⟨p.window0, hk⟩ ⟨p.bump.window0, hl⟩ init cond ⟨p₂.window0, hsemi⟩ incr
    ⟨p₃.window0, hr⟩ body, ?_, hbody.source, ⟨?_, hcond.canonical, hincr.canonical,
      hbody.canonical⟩, ?_⟩
  · exact hq.reads.append (Reads.cons (Reads.cons (hinit.reads.append (hcond.reads.append
      (Reads.cons (hincr.reads.append (Reads.cons hbody.reads)))))))
  · show init.Canonical src (firstToken cond.tokens p₂.window0)
    rw [hcond.reads.firstToken]
    exact hinit.canonical
  · simp [Syn.size, hbody.length, hincr.length, hcond.length, hinit.length, hq.tree, Nat.add_assoc]

lemma Accurate.returnStmt (hp : p.source = src) (h : parseReturnStatement c p = some (.ok (id, p'))) :
    ∃ s : Syn stmt, Chosen src s p₀ p' := by
  simp only [parseReturnStatement, expect_bind] at h
  rcases h with ⟨hk, h⟩
  rw [Fuel.Comp.bind_eq_ok] at h
  rcases h with ⟨i, p₁, hi, h⟩
  rcases hc.unless (p := p.bump) hp hi with ⟨e, he⟩
  simp only [expect_bind, createNode_setData_bind, Fuel.Comp.pure_apply, Option.some.injEq,
    Except.ok.injEq, Prod.mk.injEq] at h
  rcases h with ⟨hsemi, -, rfl, rfl⟩
  refine ⟨Syn.returnStmt q ⟨p.window0, hk⟩ e ⟨p₁.window0, hsemi⟩,
    hq.reads.append (Reads.cons (he.reads.append (Reads.single _))), he.source, he.canonical, ?_⟩
  simp [Syn.size, he.length, hq.tree, Nat.add_assoc]

omit hc in
lemma chosen_jump (hp : p.source = src) (hk : p.window0.type ∈ [kBreak, kContinue])
    (h : (parseJumpStatement : ParseM σ NodeId) p = some (.ok (id, p'))) :
    ∃ s : Syn stmt, Chosen src s p₀ p' := by
  simp only [parseJumpStatement, advance_bind, expect_bind, createNode_setData_bind,
    Fuel.Comp.pure_apply, Option.some.injEq, Except.ok.injEq, Prod.mk.injEq] at h
  rcases h with ⟨hsemi, -, rfl, rfl⟩
  refine ⟨Syn.jump q ⟨p.window0, hk⟩ ⟨p.bump.window0, hsemi⟩,
    hq.reads.append (Reads.cons (Reads.single _)), hp, trivial, ?_⟩
  simp [Syn.size, hq.tree]

lemma Accurate.structDecl (hp : p.source = src) (h : parseStructDecl c p = some (.ok (id, p'))) :
    ∃ s : Syn stmt, Chosen src s p₀ p' := by
  simp only [parseStructDecl, expect_bind] at h
  rcases h with ⟨hk, hname, h⟩
  rw [Fuel.Comp.bind_eq_ok] at h
  rcases h with ⟨i, p₁, hi, h⟩
  rcases hc.optionalBody (p := p.bump.bump) hp hi with ⟨body, hbody, hbrace⟩
  rw [Fuel.Comp.bind_eq_ok] at h
  rcases h with ⟨⟨⟩, p₂, hi, h⟩
  rcases optionalSemi_chosen hi with ⟨semi, hsemi, hend⟩
  simp only [createNode_setData_bind, Fuel.Comp.pure_apply, Option.some.injEq, Except.ok.injEq,
    Prod.mk.injEq] at h
  rcases h with ⟨-, rfl, rfl⟩
  refine ⟨Syn.structDecl q ⟨p.window0, hk⟩ ⟨p.bump.window0, hname⟩ body semi,
    hq.reads.append (Reads.cons (Reads.cons (hbody.reads.append hsemi.reads))),
    hsemi.source.trans hbody.source, ⟨?_, ?_, hend⟩, ?_⟩
  · exact hsemi.reads.firstToken.symm ▸ hbody.canonical
  · exact hsemi.reads.firstToken.symm ▸ hbrace
  · simp [Syn.size, hsemi.tree, hbody.length, hq.tree, Nat.add_assoc]

lemma Accurate.namespaceDecl (hp : p.source = src)
    (h : parseNamespaceDecl c p = some (.ok (id, p'))) : ∃ s : Syn stmt, Chosen src s p₀ p' := by
  simp only [parseNamespaceDecl, expect_bind] at h
  rcases h with ⟨hk, hname, h⟩
  rw [Fuel.Comp.bind_eq_ok] at h
  rcases h with ⟨i, p₁, hi, h⟩
  rcases hc.statement (p := p.bump.bump) hp hi with ⟨body, hbody⟩
  simp only [createNode_setData_bind, Fuel.Comp.pure_apply, Option.some.injEq, Except.ok.injEq,
    Prod.mk.injEq] at h
  rcases h with ⟨-, rfl, rfl⟩
  refine ⟨Syn.namespaceDecl q ⟨p.window0, hk⟩ ⟨p.bump.window0, hname⟩ body,
    hq.reads.append (Reads.cons (Reads.cons hbody.reads)), hbody.source, hbody.canonical, ?_⟩
  simp [Syn.size, hbody.length, hq.tree, Nat.add_assoc]

omit hq in
lemma Accurate.base (hp : p.source = src) (h : parseBase c p = some (.ok (id, p'))) :
    ∃ s : Syn (opt Cat.base), Chosen src s p p' ∧ s.IsBase src p'.window0 := by
  have husing : ∀ f : Bool → ParseM σ NodeId, (checkUsing >>= f) p =
      f (p.window0.type == Ident
        && (p.source.drop p.window0.globalOffset).take p.window0.size == bytes "using") p :=
    fun _ => rfl
  simp only [parseBase, matchToken_bind, husing, advance_bind, Fuel.Comp.ite_apply, if_true,
    Bool.false_eq_true, if_false, Bool.and_eq_true, beq_iff_eq] at h
  rw [hp] at h
  split_ifs at h with heq hcolon hident
  · rcases hc.expression (p := p.bump) hp h with ⟨e, he, -, hend⟩
    refine ⟨_, (he.chosen.led [Equals, Colon, Ident] (by simp [heq])).some, ?_⟩
    refine ⟨fun _ => hend.resolve_left (Nat.not_lt_zero _), fun hne => absurd heq hne,
      fun hident => ?_, he.stopped⟩
    rw [heq] at hident
    cases hident
  · rcases hc.primary (p := p.bump) hp h with ⟨e, he, hlevel⟩
    refine ⟨_, (he.chosen.led [Equals, Colon, Ident] (by simp [hcolon])).some, ?_⟩
    refine ⟨fun heq' => absurd heq' heq, fun _ => hlevel, fun hident => ?_, he.stopped⟩
    rw [hcolon] at hident
    cases hident
  · rcases hc.primary (p := p.bump) hp h with ⟨e, he, hlevel⟩
    refine ⟨_, (he.chosen.led [Equals, Colon, Ident] (by simp [hident.1])).some, ?_⟩
    exact ⟨fun heq' => absurd heq' heq, fun _ => hlevel, fun _ => hident, he.stopped⟩
  · cases h
    refine ⟨Syn.none, .none hp, ?_, hident⟩
    simp [heq, hcolon]

lemma Accurate.typeDecl (hp : p.source = src) (hk : p.window0.type = kType)
    (h : parseTypeDecl c q.value p = some (.ok (id, p'))) : ∃ s : Syn stmt, Chosen src s p₀ p' := by
  simp only [parseTypeDecl, advance_bind, expect_bind] at h
  rcases h with ⟨hname, h⟩
  rw [Fuel.Comp.bind_eq_ok] at h
  rcases h with ⟨i, p₁, hi, h⟩
  rcases hc.base (p := p.bump.bump) hp hi with ⟨base, hbase, hbegins⟩
  rw [Fuel.Comp.bind_eq_ok] at h
  rcases h with ⟨i, p₂, hi, h⟩
  rcases hc.optionalBody hbase.source hi with ⟨body, hbody, hbrace⟩
  rw [Fuel.Comp.bind_eq_ok] at h
  rcases h with ⟨⟨⟩, p₃, hi, h⟩
  rcases optionalSemi_chosen hi with ⟨semi, hsemi, hend⟩
  rcases createDecl_ok h with ⟨rfl, -, rfl⟩
  have hfirst := (hbody.reads.append hsemi.reads).firstToken
  refine ⟨Syn.typeDecl q ⟨p.window0, hk⟩ ⟨p.bump.window0, hname⟩ base body semi,
    hq.reads.append (Reads.cons (Reads.cons (hbase.reads.append
      (hbody.reads.append hsemi.reads)))), hsemi.source.trans hbody.source,
    ⟨hfirst.symm ▸ hbase.canonical, hfirst.symm ▸ hbegins, ?_, ?_, hend⟩, ?_⟩
  · exact hsemi.reads.firstToken.symm ▸ hbody.canonical
  · exact hsemi.reads.firstToken.symm ▸ hbrace
  · simp [declNodes, Syn.size, hsemi.tree, hbody.length, hbase.length, hq.tree, Nat.add_assoc]

lemma Accurate.varDecl {type : Option (TokOf [kByte, Ident])} {name : Tok Ident} {p₁ p₂ : Parser σ}
    {initExpr : NodeId} (htyped : Typed q type) (hnames : Passes (optToken type ++ [name.1]) p p₁)
    (hp : p₁.source = src) (hi : parseInitialiser c p₁ = some (.ok (initExpr, p₂)))
    (hsemi : p₂.window0.type = Semi) (h : createDecl VarDecl q.value (typeToken type) name.1 initExpr
      p₂.bump = some (.ok (id, p'))) : ∃ s : Syn stmt, Chosen src s p₀ p' := by
  rcases hc.initialiser hp hi with ⟨init, hinit⟩
  rcases createDecl_ok h with ⟨rfl, -, rfl⟩
  refine ⟨Syn.varDecl q type name init ⟨p₂.window0, hsemi⟩, ?_, hinit.source,
    ⟨htyped, hinit.canonical⟩, ?_⟩
  · have hreads := hq.reads.append (hnames.reads.append (hinit.reads.append (Reads.single _)))
    rwa [List.append_assoc] at hreads
  · simp [declNodes, Syn.size, hinit.length, hnames.tree, hq.tree, Nat.add_assoc]

omit hq in
/-- A parameter takes any token for its type but a qualifier. -/
lemma Accurate.parameter (hp : p.source = src) (h : parseParamDecl c p = some (.ok (id, p'))) :
    ∃ s : Syn param, Chosen src s p p' := by
  rw [parseParamDecl, Fuel.Comp.bind_eq_ok] at h
  rcases h with ⟨quals, p₁, hi, h⟩
  rcases hc.sound.qualifiers hi with ⟨q, hq, hquals⟩
  obtain rfl : quals = q.value := hquals
  have hstop := hc.qualifiers hi
  rw [Fuel.Comp.bind_eq_ok] at h
  rcases h with ⟨names, p₂, hi, h⟩
  have hnames : ∃ (type : Option Token) (name : Option (Tok Ident)),
      Passes (type.toList ++ optToken name) p₁ p₂ ∧ Typed q type ∧
        (type = none → name ≠ none) ∧ (∀ t ∈ type, t.type ∉ qualifierTypes) ∧
        (name = none → p₂.window0.type ≠ Ident) := by
    simp only [parseParamNames, Fuel.Comp.ite_apply, advance_bind, check_bind,
      Fuel.Comp.pure_apply, beq_iff_eq] at hi
    split_ifs at hi with hauto hname
    · rw [expect_bind] at hi
      rcases hi with ⟨hname, ⟨⟩⟩
      exact ⟨none, some ⟨p₁.window0, hname⟩, ⟨Reads.single _, rfl, rfl⟩, iff_of_true hauto rfl,
        fun _ => Option.some_ne_none _, fun t ht => absurd ht (Option.not_mem_none t),
        fun hnone => absurd hnone (Option.some_ne_none _)⟩
    · cases hi
      refine ⟨some p₁.window0, some ⟨p₁.bump.window0, hname⟩,
        ⟨Reads.cons (Reads.single _), rfl, rfl⟩, iff_of_false hauto (Option.some_ne_none _),
        fun _ => Option.some_ne_none _, fun t ht => ?_,
        fun hnone => absurd hnone (Option.some_ne_none _)⟩
      obtain rfl := Option.some.inj ht
      exact hstop
    · cases hi
      refine ⟨some p₁.window0, none, ⟨Reads.single _, rfl, rfl⟩,
        iff_of_false hauto (Option.some_ne_none _),
        fun hnone => absurd hnone (Option.some_ne_none _), fun t ht => ?_, fun _ => hname⟩
      obtain rfl := Option.some.inj ht
      exact hstop
  rcases hnames with ⟨type, name, hnames, htyped, hname, htype, hident⟩
  rw [Fuel.Comp.bind_eq_ok] at h
  rcases h with ⟨i, p₃, hi, h⟩
  rcases hc.initialiser (hnames.source.trans (hq.source.trans hp)) hi with ⟨init, hinit⟩
  rcases createDecl_ok h with ⟨rfl, -, rfl⟩
  refine ⟨Syn.parameter q type name init, ?_, hinit.source,
    ⟨htyped, hname, htype, fun hnone => ?_, hinit.canonical⟩, ?_⟩
  · have hreads := hq.reads.append (hnames.reads.append hinit.reads)
    rwa [List.append_assoc] at hreads
  · show (firstToken init.tokens p₃.window0).type ≠ Ident
    rw [hinit.reads.firstToken]
    exact hident hnone
  · simp [declNodes, Syn.size, hinit.length, hnames.tree, hq.tree, Nat.add_assoc]

omit hq in
lemma Accurate.parameterStep (hp : p.source = src) (h : parameterLoop c p = some (.ok ((), p'))) :
    ∃ s : Syn (list (Cat.led [Comma] param)), Chosen src s p p' := by
  simp only [parameterLoop, matchToken_bind, if_true, Bool.false_eq_true, if_false] at h
  split_ifs at h with hcomma
  · rw [Fuel.Comp.bind_eq_ok] at h
    rcases h with ⟨i, p₁, hi, h⟩
    rcases hc.parameter (p := p.bump) hp hi with ⟨s, hs⟩
    rcases hc.parameters hs.source h with ⟨rest, hrest⟩
    exact ⟨_, (hs.led [Comma] (by simp [hcomma])).cons hrest⟩
  · cases h
    exact ⟨Syn.nil, .nil hp⟩

omit hq in
lemma Accurate.parameters' (hp : p.source = src) (h : parseParameters c p = some (.ok (id, p'))) :
    ∃ s : Syn (opt (commaList param)), Chosen src s p p' ∧ s.IsParameters p'.window0 := by
  simp only [parseParameters, check_bind, Fuel.Comp.ite_apply, beq_iff_eq] at h
  split_ifs at h with hright
  · cases h
    exact ⟨Syn.none, .none hp, trivial⟩
  · rw [Fuel.Comp.bind_eq_ok] at h
    rcases h with ⟨i, p₁, hi, h⟩
    rcases hc.parameter hp hi with ⟨s, hs⟩
    rw [Fuel.Comp.bind_eq_ok] at h
    rcases h with ⟨⟨⟩, p₂, hi, ⟨⟩⟩
    rcases hc.parameters hs.source hi with ⟨rest, hrest⟩
    have hall := hs.seq hrest
    refine ⟨_, hall.some, ?_⟩
    rw [Syn.IsParameters, hall.reads.firstToken]
    exact hright

lemma Accurate.functionDecl {type : Option (TokOf [kByte, Ident])} {name : Tok Ident}
    {p₁ : Parser σ} (htyped : Typed q type) (hnames : Passes (optToken type ++ [name.1]) p p₁)
    (hp : p₁.source = src)
    (h : parseFunctionDecl c q.value (typeToken type) name.1 p₁ = some (.ok (id, p'))) :
    ∃ s : Syn stmt, Chosen src s p₀ p' := by
  rw [parseFunctionDecl, expect_bind, Fuel.Comp.bind_eq_ok] at h
  rcases h with ⟨hl, i, p₂, hi, h⟩
  rcases hc.parameters' (p := p₁.bump) hp hi with ⟨params, hparams, hbegins⟩
  rw [expect_bind, Fuel.Comp.bind_eq_ok] at h
  rcases h with ⟨hr, i, p₃, hi, h⟩
  rcases hc.functionBody (p := p₂.bump) hparams.source hi with ⟨body, hbody, hbrace⟩
  simp only [createTokenNode_bind, createNode_setBoth_bind, push_push] at h
  rcases h with ⟨-, -, -, ⟨⟩⟩
  refine ⟨Syn.functionDecl q type name ⟨p₁.window0, hl⟩ params ⟨p₂.window0, hr⟩ body, ?_,
    hbody.source, ⟨htyped, hparams.canonical, hbegins, hbody.canonical, hbrace⟩, ?_⟩
  · have hreads := hq.reads.append (hnames.reads.append (Reads.cons (hparams.reads.append
      (Reads.cons hbody.reads))))
    rwa [List.append_assoc] at hreads
  · simp [Syn.size, hbody.length, hparams.length, hnames.tree, hq.tree, Nat.add_assoc]

/-- A declaration has a type of its own unless it is declared with `auto`. -/
lemma Accurate.varOrTypeDecl (hp : p.source = src)
    (hdecl : q.value.isAuto = true ∨ p.window0.type ∈ [kType, kByte, Ident])
    (h : parseVarOrTypeDecl c q.value p = some (.ok (id, p'))) :
    ∃ s : Syn stmt, Chosen src s p₀ p' := by
  simp only [parseVarOrTypeDecl, check_bind, Fuel.Comp.ite_apply, beq_iff_eq] at h
  split_ifs at h with htype
  · exact hc.typeDecl hq hp htype h
  · rw [Fuel.Comp.bind_eq_ok] at h
    rcases h with ⟨names, p₁, hi, h⟩
    have hnames : ∃ (type : Option (TokOf [kByte, Ident])) (name : Tok Ident),
        names = (typeToken type, name.1) ∧ Typed q type ∧
          Passes (optToken type ++ [name.1]) p p₁ := by
      simp only [parseDeclNames, Fuel.Comp.ite_apply, advance_bind] at hi
      split_ifs at hi with hauto
      · rw [expect_bind] at hi
        rcases hi with ⟨hname, ⟨⟩⟩
        exact ⟨none, ⟨p.window0, hname⟩, rfl, iff_of_true hauto rfl, Reads.single _, rfl, rfl⟩
      · rw [expect_bind] at hi
        rcases hi with ⟨hname, ⟨⟩⟩
        have hmem := (List.mem_cons.mp (hdecl.resolve_left hauto)).resolve_left htype
        exact ⟨some ⟨p.window0, hmem⟩, ⟨p.bump.window0, hname⟩, rfl,
          iff_of_false hauto (Option.some_ne_none _), Reads.cons (Reads.single _), rfl, rfl⟩
    rcases hnames with ⟨type, name, rfl, htyped, hnames⟩
    have hp₁ := hnames.source.trans hp
    simp only [check_bind, Fuel.Comp.ite_apply] at h
    split_ifs at h
    · exact hc.functionDecl hq htyped hnames hp₁ h
    · rw [Fuel.Comp.bind_eq_ok] at h
      rcases h with ⟨i, p₂, hi, h⟩
      rw [expect_bind] at h
      exact hc.varDecl hq htyped hnames hp₁ hi h.1 h.2

omit hc hq in
/-- The two tokens in the window are the first of what is read and of what follows. -/
lemma reads_two {w w' : Lookahead σ} {ts : List Token} (h : Reads w ts w') (hne : ts ≠ []) :
    ∃ us, ts ++ [w'.window0] = w.window0 :: w.window1 :: us := by
  cases h with
  | nil => exact absurd rfl hne
  | cons h =>
      rw [← w.advance_window0]
      cases h with
      | nil => exact ⟨[], rfl⟩
      | cons h => exact ⟨_, rfl⟩

/-- An expression statement starts neither like a block nor like a declaration. -/
lemma Accurate.exprStmt {p₁ p₂ : Parser σ} {u : Unit} (hp : p.source = src)
    (hblock : p.window0.type ≠ BrLeft)
    (hdecl : ¬ (q.value.isAuto || [kType, kByte, kStruct].contains p.window0.type
      || (p.window0.type == Ident && p.window1.type == Ident)) = true)
    (h : c.parseExpression 0 p = some (.ok (id, p₁))) (hi : optionalSemi p₁ = some (.ok (u, p₂))) :
    ∃ s : Syn stmt, Chosen src s p₀ p₂ := by
  rcases hc.expression hp h with ⟨e, ⟨he, -, hstop⟩, -, hend⟩
  rcases optionalSemi_chosen hi with ⟨semi, hsemi, hterminated⟩
  simp only [Bool.or_eq_true, Bool.and_eq_true, List.contains_iff_mem, beq_iff_eq, not_or,
    not_and, Bool.not_eq_true, List.mem_cons, List.not_mem_nil, or_false] at hdecl
  rcases hdecl with ⟨⟨hauto, hkeyword⟩, hident⟩
  have hall := he.reads.append hsemi.reads
  have hbegins : BeginsExpression (e.tokens ++ (optToken semi ++ [p₂.window0])) := by
    have hne : e.tokens ++ optToken semi ≠ [] := by
      rcases e.head_expression with ⟨t, ts, hts, -⟩
      simp [hts]
    rcases reads_two hall hne with ⟨us, hus⟩
    rw [← List.append_assoc, hus]
    exact ⟨by simp [hblock, hkeyword], hident⟩
  have hbehind := hsemi.reads.firstToken
  refine ⟨Syn.exprStmt q e semi, hq.reads.append hall, hsemi.source.trans he.source,
    ⟨hauto, hbehind.symm ▸ he.canonical, ?_, hterminated, hbegins⟩, ?_⟩
  · rw [hbehind]
    exact ⟨hstop, hend.resolve_left (Nat.not_lt_zero _)⟩
  · simp [Syn.size, hsemi.tree, he.length, hq.tree]

omit hq in
/-- The body of `parseStatement` makes the choices it has to. -/
lemma Accurate.statementStep (hp : p.source = src) (h : parseStatement c p = some (.ok (id, p'))) :
    ∃ s : Syn stmt, Chosen src s p p' := by
  rw [parseStatement, Fuel.Comp.bind_eq_ok] at h
  rcases h with ⟨quals, p₁, hi, h⟩
  rcases hc.sound.qualifiers hi with ⟨q, hq, hquals⟩
  obtain rfl : quals = q.value := hquals
  have hp₁ := hq.source.trans hp
  have hdecl : ∀ f : Bool → ParseM σ NodeId, (isDecl q.value >>= f) p₁ =
      f (q.value.isAuto || [kType, kByte, kStruct].contains p₁.window0.type
        || (p₁.window0.type == Ident && p₁.window1.type == Ident)) p₁ := fun _ => rfl
  have hlength {n : ℕ} (hn : p'.tree.length = p₁.tree.length + n) :
      p'.tree.length = p.tree.length + n := hq.tree ▸ hn
  simp only [matchToken_bind, check_bind, checkAny_bind, Fuel.Comp.ite_apply, if_true,
    Bool.false_eq_true, if_false, beq_iff_eq, List.contains_iff_mem] at h
  by_cases hblock : p₁.window0.type = BrLeft
  · rw [if_pos hblock] at h
    rcases hc.braces hp₁ hblock h with ⟨b, hb⟩
    exact ⟨Syn.block q b, hq.reads.append hb.reads, hb.source, hb.canonical, hlength hb.length⟩
  rw [if_neg hblock] at h
  by_cases hif : p₁.window0.type = kIf
  · rw [if_pos hif] at h
    rcases hc.conditional hp₁ h with ⟨s, hs⟩
    exact ⟨Syn.ifStmt q s, hq.reads.append hs.reads, hs.source, hs.canonical, hlength hs.length⟩
  rw [if_neg hif] at h
  by_cases hwhile : p₁.window0.type = kWhile
  · rw [if_pos hwhile] at h
    exact hc.whileStmt hq hp₁ h
  rw [if_neg hwhile] at h
  by_cases hfor : p₁.window0.type = kFor
  · rw [if_pos hfor] at h
    exact hc.forStmt hq hp₁ h
  rw [if_neg hfor] at h
  by_cases hreturn : p₁.window0.type = kReturn
  · rw [if_pos hreturn] at h
    exact hc.returnStmt hq hp₁ h
  rw [if_neg hreturn] at h
  by_cases hjump : p₁.window0.type ∈ [kBreak, kContinue]
  · rw [if_pos hjump] at h
    exact chosen_jump hq hp₁ hjump h
  rw [if_neg hjump] at h
  by_cases hstruct : p₁.window0.type = kStruct
  · rw [if_pos hstruct] at h
    exact hc.structDecl hq hp₁ h
  rw [if_neg hstruct] at h
  by_cases hns : p₁.window0.type = kNamespace
  · rw [if_pos hns] at h
    exact hc.namespaceDecl hq hp₁ h
  rw [if_neg hns] at h
  by_cases hdelete : p₁.window0.type = kDelete
  · rw [if_pos hdelete, Fuel.Comp.bind_eq_ok] at h
    rcases h with ⟨i, p₂, hi, h⟩
    rw [Fuel.Comp.bind_eq_ok] at h
    rcases h with ⟨u, p₃, hsemi, ⟨⟩⟩
    rcases hc.delete hp₁ hi with ⟨d, hd⟩
    rcases optionalSemi_chosen hsemi with ⟨semi, hsemi, hend⟩
    refine ⟨Syn.deleteStmt q d semi, hq.reads.append (hd.reads.append hsemi.reads),
      hsemi.source.trans hd.source, ⟨hsemi.reads.firstToken.symm ▸ hd.canonical, hend⟩, ?_⟩
    rw [hsemi.tree, hd.length, hq.tree, Syn.size]
  rw [if_neg hdelete] at h
  by_cases hreq : p₁.window0.type = kRequires
  · rw [if_pos hreq, expect_bind, Fuel.Comp.bind_eq_ok] at h
    rcases h with ⟨hcolon, i, p₂, hi, h⟩
    rw [Fuel.Comp.bind_eq_ok] at h
    rcases h with ⟨u, p₃, hsemi, ⟨⟩⟩
    rcases hc.expression (p := p₁.bump.bump) hp₁ hi with ⟨e, ⟨he, -, hstop⟩, -, hprec⟩
    rcases optionalSemi_chosen hsemi with ⟨semi, hsemi, hend⟩
    have hbehind := hsemi.reads.firstToken
    refine ⟨Syn.requires q ⟨p₁.window0, hreq⟩ ⟨p₁.bump.window0, hcolon⟩ e semi,
      hq.reads.append (Reads.cons (Reads.cons (he.reads.append hsemi.reads))),
      hsemi.source.trans he.source, ⟨hbehind.symm ▸ he.canonical, ?_, hend⟩, ?_⟩
    · rw [hbehind]
      exact ⟨hstop, hprec.resolve_left (Nat.not_lt_zero _)⟩
    · simp [Syn.size, hsemi.tree, he.length, hq.tree]
  rw [if_neg hreq, hdecl] at h
  split_ifs at h with hisDecl
  · refine hc.varOrTypeDecl hq hp₁ ?_ h
    simp only [Bool.or_eq_true, Bool.and_eq_true, List.contains_iff_mem, beq_iff_eq] at hisDecl
    simp only [List.mem_cons, hstruct, List.not_mem_nil, or_false] at hisDecl ⊢
    tauto
  · rw [Fuel.Comp.bind_eq_ok] at h
    rcases h with ⟨i, p₂, hi, h⟩
    rw [Fuel.Comp.bind_eq_ok] at h
    rcases h with ⟨u, p₃, hsemi, ⟨⟩⟩
    exact hc.exprStmt hq hp₁ hblock hisDecl hi hsemi

end Productions

/-! ## The parser -/

/-- **The productions keep `Accurate`.** -/
lemma accurate_productions {c : Calls σ} (hc : Accurate src c) : Accurate src (productions c) where
  sound := sound_productions hc.sound
  statement := hc.statementStep
  expression := hc.expressionStep
  primary := hc.primaryStep
  postfixed := hc.postfixStep
  binary := hc.binaryStep
  arguments := hc.argumentStep
  parameters := hc.parameterStep
  block := hc.blockStep
  qualifiers := by
    intro q q' p p' h
    simp only [productions, qualifierLoop, matchToken_bind, if_true, Bool.false_eq_true,
      if_false] at h
    split_ifs at h with h1 h2 h3 h4 h5
    all_goals first
      | exact hc.qualifiers h
      | cases h
        simp [qualifierTypes, h1, h2, h3, h4, h5]

/-- All of the calls are accurate, at every level of fuel. -/
lemma accurate_calls (n : ℕ) : Accurate src (parser n : Calls σ) := by
  induction n with
  | zero =>
      refine ⟨sound_calls 0, ?_, ?_, ?_, ?_, ?_, ?_, ?_, ?_, ?_⟩
      all_goals
        intros
        rename_i h
        cases h
  | succ n ih => exact accurate_productions ih

/-! ## The translation unit -/

/-- `u` is the canonical reading of the source. -/
structure Reading (src : List Byte) (u : Syn (list stmt)) : Prop where
  tokens : u.tokens = tokensOf src
  canonical : u.Canonical src (eofToken src)

section Unit

variable {i : ℕ} {p p' : Parser Lexer} {w : Lookahead Lexer}

/-- Behind a statement, the offset has grown. -/
lemma offset_lt_of_statement {s : Syn stmt} (hw : Window src i p.toLookahead)
    (hr : Reads p.toLookahead s.tokens w) : p.window0.globalOffset < w.window0.globalOffset := by
  rcases s.head_ne_eof rfl with ⟨t, ts, hts, hne⟩
  have hfirst := hr.firstToken
  rw [hts, firstToken_cons] at hfirst
  rw [hw.first, (hw.reads hr).1.first]
  exact offset_lt (by simp [hts]) (hw.first ▸ hfirst ▸ hne)

/-- The loop of `parseTranslationUnit` reads canonical statements up to `Eof`. -/
lemma unitLoop_chosen (n : ℕ) (hw : Window src i p.toLookahead) (hp : p.source = src)
    (h : (parser n).unitLoop p = some (.ok ((), p'))) :
    ∃ u : Syn (list stmt), Chosen src u p p' ∧ p'.window0.type = Eof := by
  induction n generalizing i p with
  | zero => cases h
  | succ n ih =>
      rw [parser_succ] at h
      simp only [productions, unitLoop, check_bind, peek_bind, Fuel.Comp.ite_apply, beq_iff_eq] at h
      split_ifs at h with heof
      · cases h
        exact ⟨Syn.nil, .nil hp, heof⟩
      · rw [Fuel.Comp.bind_eq_ok] at h
        rcases h with ⟨id, p₁, hs, h⟩
        rcases (accurate_calls n).statement hp hs with ⟨s, hs⟩
        have hlt := offset_lt_of_statement hw hs.reads
        simp only [peek_bind, Fuel.Comp.ite_apply, advance_bind] at h
        rw [if_neg fun hguard => absurd hguard.1 hlt.ne'] at h
        rcases ih (hw.reads hs.reads).1 hs.source h with ⟨u, hu, hend⟩
        exact ⟨Syn.cons s u, hs.cons hu, hend⟩

/-- Canonical statements in front of `Eof` are what the loop reads. -/
lemma unitLoop_finds : (u : Syn (list stmt)) → ∀ {i : ℕ} {p : Parser Lexer},
    Window src i p.toLookahead → InFront p u w → w.window0.type = Eof →
      Runs (fun c => c.unitLoop) p () (p.along u w)
  | .nil, i, p, hw, h, heof => by
      obtain rfl : w = p.toLookahead := Reads.nil_iff.mp h.reads
      refine Fuel.Settles.tie ⟨0, fun _ _ => ?_⟩
      simp [productions, unitLoop, heof, along, Syn.nodes]
  | .cons s u, i, p, hw, h, heof => by
      rcases Reads.append_iff.mp h.reads with ⟨w₁, hs, hu⟩
      rcases h.canonical with ⟨hcan, hrest⟩
      rw [hu.firstToken] at hcan
      have hroom := h.room
      rw [Syn.size] at hroom
      have hw₁ := (hw.reads hs).1
      have hlt := offset_lt_of_statement hw hs
      have hne : p.window0.type ≠ Eof := by
        rcases s.head_ne_eof rfl with ⟨t, ts, hts, hne⟩
        rwa [(Reads.cons_iff.mp (hts ▸ hs)).1]
      have hstmt := finds_statement s ⟨hs, hcan, by omega⟩ trivial
      have hlater := unitLoop_finds u (p := p.along s w₁) hw₁
        ⟨hu, hrest, by rw [along_length]; omega⟩ heof
      have hend : (p.along s w₁).along u w = p.along (Syn.cons s u) w := by
        simp [along, Syn.nodes, hu.firstOffset]
      rw [← hend]
      refine Fuel.Settles.tie (hstmt.imp_both hlater fun c hc hd => ?_)
      simp only [productions, unitLoop, check_bind, peek_bind, beq_iff_eq, hne, if_false,
        Fuel.Comp.bind_apply hc]
      rw [if_neg fun hguard => absurd hguard.1 hlt.ne']
      exact hd

end Unit

/-- Tokens up to `Eof` are all the tokens of the source. -/
lemma tokens_of_reads {u : Syn (list stmt)} {w : Lookahead Lexer}
    (hr : Reads (Lookahead.initWindow (Lexer.mk src 0 [])) u.tokens w) (heof : w.window0.type = Eof) :
    u.tokens = tokensOf src ∧ w.window0 = eofToken src := by
  rcases (Window.init src).reads hr with ⟨hw, hts⟩
  rw [Nat.zero_add] at hw
  rw [← List.range_eq_range'] at hts
  have hend : (tokenAt src u.tokens.length).type = Eof := hw.first ▸ heof
  have hno : ∀ m < u.tokens.length, (tokenAt src m).type ≠ Eof := by
    intro m hm heof'
    refine u.ends rfl (tokenAt src (u.tokens.length - 1)) ?_ (eof_le (by omega) heof')
    conv_lhs => rw [hts]
    rw [List.getLast?_map, List.getLast?_range, if_neg (by omega)]
    rfl
  rw [tokensOf_eq hend hno, hw.first, tokenAt_eq_of_eof hend]
  exact ⟨hts, rfl⟩

/-- A window reads the tokens of its stream. -/
lemma reads_stream {w : Lookahead Lexer} {n : ℕ} (hw : Window src n w) (m : ℕ) :
    ∃ w', Reads w ((List.range' n m).map (tokenAt src)) w' ∧ Window src (n + m) w' := by
  induction m generalizing n w with
  | zero => exact ⟨w, Reads.nil w, hw⟩
  | succ m ih =>
      rcases ih hw.advance with ⟨w', hr, hw'⟩
      refine ⟨w', ?_, by rwa [Nat.add_assoc, Nat.add_comm 1] at hw'⟩
      rw [List.range'_succ, List.map_cons, ← hw.first]
      exact Reads.cons hr

/-- The parser finds the canonical reading. -/
lemma accepts_of_reading {u : Syn (list stmt)} (hu : Reading src u) (hroom : 1 + u.size ≤ kNullNode) :
    Accepts src (default :: u.nodes 1 src.length) := by
  let start := (Parser.init (Lexer.mk src 0 []) src).push [default]
  have hwindow : Window src 0 start.toLookahead := Window.init src
  rcases exists_length_tokensOf src with ⟨heof, -, htokens⟩
  rw [List.range_eq_range'] at htokens
  rcases reads_stream hwindow (tokensOf src).length with ⟨w, hr, hw⟩
  rw [← htokens, ← hu.tokens] at hr
  rw [Nat.zero_add] at hw
  have hend : w.window0 = eofToken src := hw.first.trans (tokenAt_eq_of_eof heof)
  have hfront : InFront start u w := ⟨hr, hend.symm ▸ hu.canonical, hroom⟩
  have hrun : Runs (fun c => c.unitLoop) start () (start.along u w) :=
    unitLoop_finds u hwindow hfront (by rw [hend]; rfl)
  have hall : Runs parseTranslationUnit (Parser.init (Lexer.mk src 0 []) src) () (start.along u w) :=
    .created (p := Parser.init (Lexer.mk src 0 []) src) (Nat.zero_lt_succ _) hrun
  refine ⟨start.along u w, hall.evals, ?_⟩
  show [default] ++ u.nodes 1 w.window0.globalOffset = _
  rw [hend]
  rfl

/-- What the parser returns is a canonical reading. -/
lemma reading_of_accepts {tree : ASTTree} (h : Accepts src tree) :
    ∃ u, Reading src u ∧ 1 + u.size = tree.length := by
  rcases h with ⟨p, ⟨n, hn⟩, rfl⟩
  simp only [parseTranslationUnit, createNode_bind] at hn
  rcases unitLoop_chosen n (Window.init src) rfl hn.2 with ⟨u, hu, heof⟩
  rcases tokens_of_reads hu.reads heof with ⟨htokens, hend⟩
  exact ⟨u, ⟨htokens, hend ▸ hu.canonical⟩, hu.length.symm⟩

lemma monotone_parseTranslationUnit :
    Monotone fun c : Calls Lexer => parseTranslationUnit c := by
  rcases monotone_calls (σ := Lexer) with ⟨-, -, -, -, -, -, -, -, -, hunit⟩
  exact Fuel.monotone_bind monotone_const fun _ => hunit

/-- A source has one tree. -/
lemma Accepts.unique {tree tree' : ASTTree} (h : Accepts src tree) (h' : Accepts src tree') :
    tree = tree' := by
  rcases h with ⟨p, hp, rfl⟩
  rcases h' with ⟨p', hp', rfl⟩
  exact congrArg Parser.tree (hp.unique monotone_calls_table monotone_parseTranslationUnit hp').2

/-- What is not accepted is refused, and always for the same reason. -/
lemma refused_of_not_accepts (h : ∀ tree, ¬ Accepts src tree) :
    ∃ n₀ e, ∀ n ≥ n₀, parse src n = some (.error e) := by
  let start := Parser.init (Lexer.mk src 0 []) src
  let n₀ := Call.unit.weight src 0 + 1
  have hanswers : parseTranslationUnit (parser n₀) start ≠ none :=
    calls_answer (y := Call.unit) (Window.init src) (Nat.lt_succ_self _)
  rcases Option.ne_none_iff_exists'.mp hanswers with ⟨r, hr⟩
  cases r with
  | ok r => exact absurd ⟨r.2, ⟨n₀, hr⟩, rfl⟩ (h r.2.tree)
  | error e =>
      refine ⟨n₀, e, fun n hn => ?_⟩
      have hrun : parseTranslationUnit (parser n) start = some (.error e) :=
        Fuel.Comp.eq_of_le (monotone_parseTranslationUnit (monotone_calls_table hn)) hr
      rw [parse, hrun]
      rfl

/-- **The language of the parser.**  A source is accepted exactly if its tokens have a canonical reading
that there are enough ids for; the tree is the root with the nodes of the reading.  Every other source
is refused with an error.  A source has fewer than `2 ^ 32` bytes. -/
theorem accepts_iff (src : List Byte) : (∀ tree : ASTTree, Accepts src tree ↔
      ∃ u, Reading src u ∧ tree = default :: u.nodes 1 src.length ∧ tree.length ≤ kNullNode) ∧
    ((¬ ∃ u, Reading src u ∧ 1 + u.size ≤ kNullNode) →
      ∃ n₀ e, ∀ n ≥ n₀, parse src n = some (.error e)) := by
  have hroom {tree : ASTTree} (h : Accepts src tree) : tree.length ≤ kNullNode := by
    rcases accepts_unit h with ⟨u, hu⟩
    exact hu.room
  refine ⟨fun tree => ⟨fun h => ?_, ?_⟩, fun hno => refused_of_not_accepts fun tree h => hno ?_⟩
  · rcases reading_of_accepts h with ⟨u, hu, hsize⟩
    have hfound := accepts_of_reading hu (hsize.trans_le (hroom h))
    exact ⟨u, hu, h.unique hfound, hroom h⟩
  · rintro ⟨u, hu, rfl, hle⟩
    refine accepts_of_reading hu ?_
    rwa [List.length_cons, Syn.length_nodes, Nat.add_comm] at hle
  · rcases reading_of_accepts h with ⟨u, hu, hsize⟩
    exact ⟨u, hu, hsize.trans_le (hroom h)⟩

end Parser

end LogicCompiler
