import LogicCompiler.Parser.Views
import Mathlib.Logic.Relation

/-!
# When the tree determines the expression

Two forms lose something.  A call keeps the id of its first argument only, and `++` and `--` give
the same node in front of their operand and behind it.  An expression with neither is determined by
its tree up to parentheses, and all of its nodes are reachable; one with either shares its tree
with an expression that differs in more than parentheses.
-/

namespace LogicCompiler

open TokenType NodeKind Cat LogicCompiler.Parser

/-- What a token stands for in an expression, wherever it is. -/
inductive Mark where
  | symbol (type : TokenType)
  | literal (text : List Byte)
  | name (text : List Byte)
  deriving DecidableEq

namespace Syn

/-- The tokens of an expression but for the parentheses that only group. -/
def marks (src : List Byte) : {k : Cat} → Syn k → List Mark
  | _, pre op e => Mark.symbol op.1.type :: e.marks src
  | _, literal t => [Mark.literal (t.1.text src)]
  | _, ident t => [Mark.name (t.1.text src)]
  | _, paren _ e _ => e.marks src
  | _, call f _ args _ => f.marks src ++ Mark.symbol Left :: (args.marks src ++ [Mark.symbol Right])
  | _, member e op name =>
      e.marks src ++ [Mark.symbol op.1.type, Mark.name (name.1.text src)]
  | _, index e _ i _ => e.marks src ++ Mark.symbol SqLeft :: (i.marks src ++ [Mark.symbol SqRight])
  | _, post e op => e.marks src ++ [Mark.symbol op.1.type]
  | _, binary lhs op rhs => lhs.marks src ++ Mark.symbol op.1.type :: rhs.marks src
  | _, some s => s.marks src
  | _, cons s rest => s.marks src ++ rest.marks src
  | _, led t s => Mark.symbol t.1.type :: s.marks src
  | _, seq s t => s.marks src ++ t.marks src
  | _, _ => []

/-- No call has an argument, and no operator is `++` or `--`. -/
def Plain : {k : Cat} → Syn k → Prop
  | _, pre op e => op.1.type ∉ [PPlus, MMinus] ∧ e.Plain
  | _, paren _ e _ => e.Plain
  | _, call f _ args _ => args = Syn.none ∧ f.Plain
  | _, member e _ _ => e.Plain
  | _, index e _ i _ => e.Plain ∧ i.Plain
  | _, post _ _ => False
  | _, binary lhs _ rhs => lhs.Plain ∧ rhs.Plain
  | _, _ => True

/-- An expression without the parentheses around it. -/
lemma core (src : List Byte) : (s : Syn expr) → Simple s.tokens →
    ∃ s' : Syn expr, Simple s'.tokens ∧ s'.view src = s.view src ∧ s'.marks src = s.marks src ∧
      ∀ l e r, s' ≠ paren l e r
  | paren l e r, h => by
      simp only [tokens, simple_cons, simple_append] at h
      exact core src e h.2.1
  | pre op e, h => ⟨_, h, rfl, rfl, fun _ _ _ h => by cases h⟩
  | literal t, h => ⟨_, h, rfl, rfl, fun _ _ _ h => by cases h⟩
  | ident t, h => ⟨_, h, rfl, rfl, fun _ _ _ h => by cases h⟩
  | eval s, h => ⟨_, h, rfl, rfl, fun _ _ _ h => by cases h⟩
  | cast l d r, h => ⟨_, h, rfl, rfl, fun _ _ _ h => by cases h⟩
  | blockExpr b, h => ⟨_, h, rfl, rfl, fun _ _ _ h => by cases h⟩
  | call f l args r, h => ⟨_, h, rfl, rfl, fun _ _ _ h => by cases h⟩
  | member e op name, h => ⟨_, h, rfl, rfl, fun _ _ _ h => by cases h⟩
  | index e l i r, h => ⟨_, h, rfl, rfl, fun _ _ _ h => by cases h⟩
  | post e op, h => ⟨_, h, rfl, rfl, fun _ _ _ h => by cases h⟩
  | binary lhs op rhs, h => ⟨_, h, rfl, rfl, fun _ _ _ h => by cases h⟩

lemma type_eq {a b : TokenType} (h : a.code = b.code) : a = b := TokenType.code_injective h

lemma view_ne_missing {src : List Byte} : (s : Syn expr) → Simple s.tokens →
    s.view src ≠ View.missing
  | eval s, h => absurd h (not_simple_eval s)
  | cast l d r, h => absurd h (not_simple_cast l d r)
  | blockExpr b, h => absurd h (not_simple_blockExpr b)
  | paren l e r, h => by
      simp only [tokens, simple_cons, simple_append] at h
      exact view_ne_missing e h.2.1
  | pre op e, _ => fun h => by cases h
  | literal t, _ => fun h => by cases h
  | ident t, _ => fun h => by cases h
  | call f l args r, _ => fun h => by cases h
  | member e op name, _ => fun h => by cases h
  | index e l i r, _ => fun h => by cases h
  | post e op, _ => fun h => by cases h
  | binary lhs op rhs, _ => fun h => by cases h

/-- A plain expression has the marks of every expression with the same view. -/
theorem marks_eq {src src' : List Byte} : (s : Syn expr) → s.Plain → Simple s.tokens →
    ∀ s' : Syn expr, Simple s'.tokens → s.view src = s'.view src' → s.marks src = s'.marks src'
  | eval s, _, h, _, _, _ => absurd h (not_simple_eval s)
  | cast l d r, _, h, _, _, _ => absurd h (not_simple_cast l d r)
  | blockExpr b, _, h, _, _, _ => absurd h (not_simple_blockExpr b)
  | post _ _, hp, _, _, _, _ => absurd hp id
  | paren l e r, hp, h, s', hs', hview => by
      simp only [tokens, simple_cons, simple_append] at h
      exact marks_eq e hp h.2.1 s' hs' hview
  | literal t, hp, h, s', hs', hview => by
      rcases core src' s' hs' with ⟨x, hx, hxview, hxmarks, hno⟩
      rw [← hxview] at hview
      rw [← hxmarks]
      cases x <;> simp [view, View.leaf] at hview
      case literal u => simp [marks, hview]
      case paren l e r => exact absurd rfl (hno l e r)
  | ident t, hp, h, s', hs', hview => by
      rcases core src' s' hs' with ⟨x, hx, hxview, hxmarks, hno⟩
      rw [← hxview] at hview
      rw [← hxmarks]
      cases x <;> simp [view, View.leaf] at hview
      case ident u => simp [marks, hview]
      case paren l e r => exact absurd rfl (hno l e r)
  | pre op e, hp, h, s', hs', hview => by
      simp only [tokens, simple_cons] at h
      rcases core src' s' hs' with ⟨x, hx, hxview, hxmarks, hno⟩
      rw [← hxview] at hview
      rw [← hxmarks]
      cases x <;> simp only [view, View.leaf, View.node.injEq, reduceCtorEq, false_and, and_false, true_and,
        and_true] at hview
      case pre op' e' =>
        simp only [tokens, simple_cons] at hx
        simp only [marks, type_eq hview.1, marks_eq e hp.2 h.2 e' hx.2 hview.2]
      case paren l e r => exact absurd rfl (hno l e r)
      case post e' op' => exact absurd (type_eq hview.1 ▸ op'.2) hp.1
  | member e op name, hp, h, s', hs', hview => by
      simp only [tokens, simple_append] at h
      rcases core src' s' hs' with ⟨x, hx, hxview, hxmarks, hno⟩
      rw [← hxview] at hview
      rw [← hxmarks]
      cases x <;> simp only [view, View.leaf, View.node.injEq, reduceCtorEq, false_and, and_false, true_and,
        and_true] at hview
      case member e' op' name' =>
        simp only [tokens, simple_append] at hx
        simp only [marks, type_eq hview.1, marks_eq e hp h.1 e' hx.1 hview.2.1, hview.2.2]
      case paren l e r => exact absurd rfl (hno l e r)
  | index e l i r, hp, h, s', hs', hview => by
      simp only [tokens, simple_append, simple_cons] at h
      rcases core src' s' hs' with ⟨x, hx, hxview, hxmarks, hno⟩
      rw [← hxview] at hview
      rw [← hxmarks]
      cases x <;> simp only [view, View.leaf, View.node.injEq, reduceCtorEq, false_and, true_and,
        and_true] at hview
      case index e' l' i' r' =>
        simp only [tokens, simple_append, simple_cons] at hx
        simp only [marks, marks_eq e hp.1 h.1 e' hx.1 hview.1,
          marks_eq i hp.2 h.2.2.1 i' hx.2.2.1 hview.2]
      case paren l e r => exact absurd rfl (hno l e r)
      case binary lhs' op' rhs' => exact absurd (type_eq hview.1 ▸ op'.2) (by decide)
  | binary lhs op rhs, hp, h, s', hs', hview => by
      simp only [tokens, simple_append, simple_cons] at h
      rcases core src' s' hs' with ⟨x, hx, hxview, hxmarks, hno⟩
      rw [← hxview] at hview
      rw [← hxmarks]
      cases x <;> simp only [view, View.leaf, View.node.injEq, reduceCtorEq, false_and, true_and,
        and_true] at hview
      case index e' l' i' r' => exact absurd (type_eq hview.1.symm ▸ op.2) (by decide)
      case paren l e r => exact absurd rfl (hno l e r)
      case binary lhs' op' rhs' =>
        simp only [tokens, simple_append, simple_cons] at hx
        simp only [marks, type_eq hview.1, marks_eq lhs hp.1 h.1 lhs' hx.1 hview.2.1,
          marks_eq rhs hp.2 h.2.2 rhs' hx.2.2 hview.2.2]
  | call f l args r, hp, h, s', hs', hview => by
      obtain rfl := hp.1
      simp only [tokens, simple_append, simple_cons] at h
      rcases core src' s' hs' with ⟨x, hx, hxview, hxmarks, hno⟩
      rw [← hxview] at hview
      rw [← hxmarks]
      cases x <;> simp only [view, View.leaf, View.node.injEq, reduceCtorEq, false_and, and_false, true_and,
        and_true] at hview
      case paren l e r => exact absurd rfl (hno l e r)
      case call f' l' args' r' =>
        simp only [tokens, simple_append, simple_cons] at hx
        cases args' with
        | none => simp only [marks, marks_eq f hp.2 h.1 f' hx.1 hview.1]
        | some s =>
            cases s with
            | seq y more =>
                simp only [tokens, simple_append] at hx
                exact absurd hview.2.symm (view_ne_missing y hx.2.2.1.1)

/-! ## Every node is reachable -/

/-- A plain expression's root reaches all of its nodes. -/
lemma reaches {tree : ASTTree} : (s : Syn expr) → s.Plain → Simple s.tokens →
    ∀ {base next : ℕ}, Lies tree base (s.nodes base next) → ∀ a, base ≤ a → a < base + s.size →
      Relation.ReflTransGen tree.Refers (s.root base) a
  | eval s, _, h, _, _, _, _, _, _ => absurd h (not_simple_eval s)
  | cast l d r, _, h, _, _, _, _, _, _ => absurd h (not_simple_cast l d r)
  | blockExpr b, _, h, _, _, _, _, _, _ => absurd h (not_simple_blockExpr b)
  | post _ _, hp, _, _, _, _, _, _, _ => absurd hp id
  | literal t, _, _, base, _, _, a, hle, hlt => by
      obtain rfl : base = a := by simp only [size] at hlt; omega
      exact Relation.ReflTransGen.refl
  | ident t, _, _, base, _, _, a, hle, hlt => by
      obtain rfl : base = a := by simp only [size] at hlt; omega
      exact Relation.ReflTransGen.refl
  | paren l e r, hp, h, base, next, hl, a, hle, hlt => by
      simp only [tokens, simple_cons, simple_append] at h
      exact reaches e hp h.2.1 hl a hle hlt
  | pre op e, hp, h, base, next, hl, a, hle, hlt => by
      simp only [tokens, simple_cons] at h
      simp only [nodes, lies_append, lies_cons, length_nodes] at hl
      simp only [size] at hlt
      rcases Nat.lt_or_ge a (base + e.size) with hlt' | hge
      · exact (reaches e hp.2 h.2 hl.1 a hle hlt').head ⟨_, hl.2.1, by simp [Node.refs, tokenNode]⟩
      · obtain rfl : base + e.size = a := by omega
        exact Relation.ReflTransGen.refl
  | call f l args r, hp, h, base, next, hl, a, hle, hlt => by
      obtain rfl := hp.1
      simp only [tokens, simple_cons, simple_append] at h
      simp only [nodes, lies_append, lies_cons, length_nodes, List.length_nil] at hl
      simp only [size] at hlt
      rcases Nat.lt_or_ge a (base + f.size) with hlt' | hge
      · exact (reaches f hp.2 h.1 hl.1 a hle hlt').head ⟨_, hl.2.2.1, by simp [Node.refs, plainNode]⟩
      · obtain rfl : base + f.size = a := by omega
        exact Relation.ReflTransGen.refl
  | member e op name, hp, h, base, next, hl, a, hle, hlt => by
      simp only [tokens, simple_append] at h
      simp only [nodes, lies_append, lies_cons, length_nodes] at hl
      simp only [size] at hlt
      have hroot : (member e op name).root base = base + e.size + 1 := rfl
      rcases Nat.lt_or_ge a (base + e.size) with hlt' | hge
      · exact (reaches e hp h.1 hl.1 a hle hlt').head ⟨_, hl.2.2.1, by simp [Node.refs, plainNode]⟩
      · rcases Nat.lt_or_ge a (base + e.size + 1) with hlt' | hge'
        · obtain rfl : base + e.size = a := by omega
          exact Relation.ReflTransGen.single ⟨_, hl.2.2.1, by simp [Node.refs, plainNode]⟩
        · obtain rfl : base + e.size + 1 = a := by omega
          exact Relation.ReflTransGen.refl
  | index e l i r, hp, h, base, next, hl, a, hle, hlt => by
      simp only [tokens, simple_append, simple_cons] at h
      simp only [nodes, lies_append, lies_cons, length_nodes] at hl
      simp only [size] at hlt
      rw [root, ← Nat.add_assoc]
      rcases Nat.lt_or_ge a (base + e.size) with hlt' | hge
      · exact (reaches e hp.1 h.1 hl.1 a hle hlt').head ⟨_, hl.2.2.1, by simp [Node.refs, plainNode]⟩
      · rcases Nat.lt_or_ge a (base + e.size + i.size) with hlt' | hge'
        · exact (reaches i hp.2 h.2.2.1 hl.2.1 a hge hlt').head
            ⟨_, hl.2.2.1, by simp [Node.refs, plainNode]⟩
        · obtain rfl : base + e.size + i.size = a := by omega
          exact Relation.ReflTransGen.refl
  | binary lhs op rhs, hp, h, base, next, hl, a, hle, hlt => by
      simp only [tokens, simple_append, simple_cons] at h
      simp only [nodes, lies_append, lies_cons, length_nodes] at hl
      simp only [size] at hlt
      rw [root, ← Nat.add_assoc]
      rcases Nat.lt_or_ge a (base + lhs.size) with hlt' | hge
      · exact (reaches lhs hp.1 h.1 hl.1 a hle hlt').head
          ⟨_, hl.2.2.1, by simp [Node.refs, plainNode]⟩
      · rcases Nat.lt_or_ge a (base + lhs.size + rhs.size) with hlt' | hge'
        · exact (reaches rhs hp.2 h.2.2 hl.2.1 a hge hlt').head
            ⟨_, hl.2.2.1, by simp [Node.refs, plainNode]⟩
        · obtain rfl : base + lhs.size + rhs.size = a := by omega
          exact Relation.ReflTransGen.refl

/-! ## Expressions that share their tree -/

/-- Some operand stands in every expression. -/
lemma exists_operand (src : List Byte) : (s : Syn expr) → Simple s.tokens →
    ∃ m ∈ s.marks src, ∀ type, m ≠ Mark.symbol type
  | eval s, h => absurd h (not_simple_eval s)
  | cast l d r, h => absurd h (not_simple_cast l d r)
  | blockExpr b, h => absurd h (not_simple_blockExpr b)
  | literal t, _ => ⟨Mark.literal (t.1.text src), by simp [marks], fun _ h => by cases h⟩
  | ident t, _ => ⟨Mark.name (t.1.text src), by simp [marks], fun _ h => by cases h⟩
  | paren l e r, h => by
      simp only [tokens, simple_cons, simple_append] at h
      exact exists_operand src e h.2.1
  | pre op e, h => by
      simp only [tokens, simple_cons] at h
      rcases exists_operand src e h.2 with ⟨m, hm, hne⟩
      exact ⟨m, by simp [marks, hm], hne⟩
  | call f l args r, h => by
      simp only [tokens, simple_append] at h
      rcases exists_operand src f h.1 with ⟨m, hm, hne⟩
      exact ⟨m, by simp [marks, hm], hne⟩
  | member e op name, h => by
      simp only [tokens, simple_append] at h
      rcases exists_operand src e h.1 with ⟨m, hm, hne⟩
      exact ⟨m, by simp [marks, hm], hne⟩
  | index e l i r, h => by
      simp only [tokens, simple_append] at h
      rcases exists_operand src e h.1 with ⟨m, hm, hne⟩
      exact ⟨m, by simp [marks, hm], hne⟩
  | post e op, h => by
      simp only [tokens, simple_append] at h
      rcases exists_operand src e h.1 with ⟨m, hm, hne⟩
      exact ⟨m, by simp [marks, hm], hne⟩
  | binary lhs op rhs, h => by
      simp only [tokens, simple_append] at h
      rcases exists_operand src lhs h.1 with ⟨m, hm, hne⟩
      exact ⟨m, by simp [marks, hm], hne⟩

/-- A symbol in front of an operand is not the same as one behind it. -/
lemma cons_ne_append {type type' : TokenType} {ms : List Mark}
    (h : ∃ m ∈ ms, ∀ type, m ≠ Mark.symbol type) :
    Mark.symbol type :: ms ≠ ms ++ [Mark.symbol type'] := by
  induction ms with
  | nil =>
      rcases h with ⟨m, hm, -⟩
      cases hm
  | cons x ms ih =>
      rcases h with ⟨m, hm, hne⟩
      intro heq
      rw [List.cons_append, List.cons.injEq] at heq
      obtain ⟨rfl, heq⟩ := heq
      rcases List.mem_cons.mp hm with rfl | hm
      · exact hne _ rfl
      · exact ih ⟨m, hm, hne⟩ heq

/-- `s` and `s'` have one tree and differ in more than parentheses; `s'` can stand as an operand
anywhere. -/
structure Shares (src : List Byte) (s s' : Syn expr) : Prop where
  grouped : s'.Grouped
  simple : Simple s'.tokens
  level : s'.level = 13
  size : s'.size ≤ s.size + 1
  view : s'.view src = s.view src
  marks : s'.marks src ≠ s.marks src

/-- An expression in parentheses of its own. -/
def enclose (s : Syn expr) : Syn expr := paren ⟨{ type := Left }, rfl⟩ s ⟨{ type := Right }, rfl⟩

section Enclose

variable {src : List Byte} {s : Syn expr}

@[simp] lemma level_enclose : s.enclose.level = 13 := rfl
@[simp] lemma size_enclose : s.enclose.size = s.size := rfl
@[simp] lemma view_enclose : s.enclose.view src = s.view src := rfl
@[simp] lemma marks_enclose : s.enclose.marks src = s.marks src := rfl
@[simp] lemma grouped_enclose : s.enclose.Grouped ↔ s.Grouped := Iff.rfl

@[simp] lemma simple_enclose : Simple s.enclose.tokens ↔ Simple s.tokens := by
  simp [enclose, tokens, compound]

end Enclose

/-- An argument that no expression has. -/
def spareArgument : Syn (Cat.led [Comma] expr) :=
  led ⟨{ type := Comma }, by decide⟩ (ident ⟨{ type := Ident }, by decide⟩)

/-- **Every expression that is not plain shares its tree.** -/
theorem exists_shares (src : List Byte) : (s : Syn expr) → ¬ s.Plain → s.Grouped →
    Simple s.tokens → ∃ s', Shares src s s'
  | eval s, _, _, h => absurd h (not_simple_eval s)
  | cast l d r, _, _, h => absurd h (not_simple_cast l d r)
  | blockExpr b, _, _, h => absurd h (not_simple_blockExpr b)
  | literal t, hp, _, _ => absurd trivial hp
  | ident t, hp, _, _ => absurd trivial hp
  | paren l e r, hp, hg, h => by
      simp only [tokens, simple_cons, simple_append] at h
      rcases exists_shares src e hp hg h.2.1 with ⟨e', he⟩
      exact ⟨e', he.grouped, he.simple, he.level, he.size, he.view, he.marks⟩
  | post e op, _, hg, h => by
      simp only [tokens, simple_append] at h
      have hop : op.1.type ∈ prefixOperators := by
        have := op.2
        simp only [List.mem_cons, List.not_mem_nil, or_false] at this
        rcases this with h | h <;> rw [h] <;> decide
      have hsimple : op.1.type ∉ compound := h.2 _ (List.mem_singleton_self _)
      refine ⟨enclose (pre ⟨op.1, hop⟩ e.enclose), ?_, ?_, rfl, ?_, rfl, ?_⟩
      · exact ⟨by simp, hg.2⟩
      · simp [tokens, h.1, hsimple]
      · simp [size]
      · exact cons_ne_append (exists_operand src e h.1)
  | pre op e, hp, hg, h => by
      simp only [tokens, simple_cons] at h
      by_cases hop : op.1.type ∈ [PPlus, MMinus]
      · refine ⟨post e.enclose ⟨op.1, hop⟩, ?_, ?_, rfl, ?_, rfl, ?_⟩
        · exact ⟨le_rfl, hg.2⟩
        · simp [tokens, h]
        · simp [size]
        · exact (cons_ne_append (exists_operand src e h.2)).symm
      · rcases exists_shares src e (fun he => hp ⟨hop, he⟩) hg.2 h.2 with ⟨e', he⟩
        refine ⟨enclose (pre op e'), ⟨by rw [he.level]; decide, he.grouped⟩, ?_, rfl, ?_, ?_, ?_⟩
        · simp [tokens, h.1, he.simple]
        · simpa [size] using he.size
        · simp [view, he.view]
        · simpa [marks] using he.marks
  | member e op name, hp, hg, h => by
      simp only [tokens, simple_append] at h
      rcases exists_shares src e hp hg.2 h.1 with ⟨e', he⟩
      refine ⟨member e' op name, ⟨he.level.ge, he.grouped⟩, ?_, rfl, ?_, ?_, ?_⟩
      · simpa [tokens, he.simple] using h.2
      · have := he.size
        simp only [size]
        omega
      · simp [view, he.view]
      · simpa [marks] using he.marks
  | index e l i r, hp, hg, h => by
      simp only [tokens, simple_append, simple_cons] at h
      by_cases he : e.Plain
      · rcases exists_shares src i (fun hi => hp ⟨he, hi⟩) hg.2.2 h.2.2.1 with ⟨i', hi⟩
        refine ⟨index e l i' r, ⟨hg.1, hg.2.1, hi.grouped⟩, ?_, rfl, ?_, ?_, ?_⟩
        · simpa [tokens, hi.simple, h.1] using ⟨h.2.1, h.2.2.2.1⟩
        · have := hi.size
          simp only [size]
          omega
        · simp [view, hi.view]
        · simpa [marks] using hi.marks
      · rcases exists_shares src e he hg.2.1 h.1 with ⟨e', he⟩
        refine ⟨index e' l i r, ⟨he.level.ge, he.grouped, hg.2.2⟩, ?_, rfl, ?_, ?_, ?_⟩
        · simpa [tokens, he.simple] using h.2
        · have := he.size
          simp only [size]
          omega
        · simp [view, he.view]
        · simpa [marks] using he.marks
  | binary lhs op rhs, hp, hg, h => by
      simp only [tokens, simple_append, simple_cons] at h
      have hle := getPrecedence_le op.1.type
      by_cases hlhs : lhs.Plain
      · rcases exists_shares src rhs (fun hr => hp ⟨hlhs, hr⟩) hg.2.2.2 h.2.2 with ⟨rhs', hr⟩
        refine ⟨enclose (binary lhs op rhs'),
          ⟨hg.1, by rw [hr.level]; omega, hg.2.2.1, hr.grouped⟩, ?_, rfl, ?_, ?_, ?_⟩
        · simp [tokens, h.1, h.2.1, hr.simple]
        · have := hr.size
          simp only [size_enclose, size]
          omega
        · simp [view, hr.view]
        · simpa [marks] using hr.marks
      · rcases exists_shares src lhs hlhs hg.2.2.1 h.1 with ⟨lhs', hl⟩
        refine ⟨enclose (binary lhs' op rhs),
          ⟨by rw [hl.level]; omega, hg.2.1, hl.grouped, hg.2.2.2⟩, ?_, rfl, ?_, ?_, ?_⟩
        · simp [tokens, h.2, hl.simple]
        · have := hl.size
          simp only [size_enclose, size]
          omega
        · simp [view, hl.view]
        · simpa [marks] using hl.marks
  | call f l args r, hp, hg, h => by
      simp only [tokens, simple_append, simple_cons] at h
      cases args with
      | none =>
          rcases exists_shares src f (fun hf => hp ⟨rfl, hf⟩) hg.2.1 h.1 with ⟨f', hf⟩
          refine ⟨call f' l none r, ⟨hf.level.ge, hf.grouped, hg.2.2⟩, ?_, rfl, ?_, ?_, ?_⟩
          · simpa [tokens, hf.simple] using h.2
          · have := hf.size
            simp only [size]
            omega
          · simp [view, hf.view]
          · simpa [marks] using hf.marks
      | some s =>
          cases s with
          | seq x more =>
              refine ⟨call f l (some (seq x (cons spareArgument more))) r,
                ⟨hg.1, hg.2.1, hg.2.2.1, trivial, hg.2.2.2⟩, ?_, rfl, ?_, rfl, ?_⟩
              · simp only [tokens, simple_append] at h
                have hspare : Simple (tokens spareArgument) := by simp [spareArgument, tokens, compound]
                simpa [tokens, hspare, and_assoc] using h
              · simp only [size, spareArgument]
                omega
              · intro heq
                have hlen := congrArg List.length heq
                simp [marks, spareArgument] at hlen
                omega

end Syn

/-! ## Expressions in a stream of their own -/

/-- No token of a simple expression is `Eof`. -/
lemma Syn.no_eof {k : Cat} (s : Syn k) (hk : k.operand = true) (hs : Simple s.tokens) :
    ∀ t ∈ s.tokens, t.type ≠ Eof := by
  have htok : ∀ {type : TokenType} (t : Tok type), type ≠ Eof → t.1.type ≠ Eof :=
    fun t h => by rwa [t.2]
  induction s with
  | pre op e ih =>
      simp only [tokens, simple_cons] at hs
      simpa only [tokens, List.forall_mem_cons] using ⟨firstOf (by decide) op, ih rfl hs.2⟩
  | literal t => simpa [tokens] using firstOf (by decide) t
  | ident t => simpa [tokens] using firstOf (by decide) t
  | eval s => exact absurd hs (not_simple_eval s)
  | cast l d r => exact absurd hs (not_simple_cast l d r)
  | blockExpr b => exact absurd hs (not_simple_blockExpr b)
  | paren l e r ih =>
      simp only [tokens, simple_cons, simple_append] at hs
      simpa [tokens, or_imp, forall_and, htok l, htok r] using ih rfl hs.2.1
  | call f l args r ihf iha =>
      simp only [tokens, simple_cons, simple_append] at hs
      simpa [tokens, or_imp, forall_and, htok l, htok r] using
        ⟨ihf rfl hs.1, iha (by decide) hs.2.2.1⟩
  | member e op name ih =>
      simp only [tokens, simple_append] at hs
      simpa [tokens, or_imp, forall_and, firstOf _ op, htok name] using ih rfl hs.1
  | index e l i r ihe ihi =>
      simp only [tokens, simple_cons, simple_append] at hs
      simpa [tokens, or_imp, forall_and, htok l, htok r] using ⟨ihe rfl hs.1, ihi rfl hs.2.2.1⟩
  | post e op ih =>
      simp only [tokens, simple_append] at hs
      simpa [tokens, or_imp, forall_and, firstOf _ op] using ih rfl hs.1
  | binary lhs op rhs ihl ihr =>
      simp only [tokens, simple_cons, simple_append] at hs
      have hop : op.1.type ≠ Eof := by
        rintro heq
        exact absurd (heq ▸ op.2) (by decide)
      simpa [tokens, or_imp, forall_and, hop] using ⟨ihl rfl hs.1, ihr rfl hs.2.2⟩
  | none => simp [tokens]
  | some s ih => exact ih hk hs
  | nil => simp [tokens]
  | cons s rest ihs ihr =>
      simp only [tokens, simple_append] at hs
      simpa only [tokens, List.forall_mem_append] using ⟨ihs hk hs.1, ihr hk hs.2⟩
  | led t s ih =>
      simp only [Cat.operand, Bool.and_eq_true, decide_eq_true_eq] at hk
      simp only [tokens, simple_cons] at hs
      simpa only [tokens, List.forall_mem_cons] using ⟨firstOf hk.1 t, ih hk.2 hs.2⟩
  | seq s t ihs iht =>
      simp only [Cat.operand, Bool.and_eq_true] at hk
      simp only [tokens, simple_append] at hs
      simpa only [tokens, List.forall_mem_append] using ⟨ihs hk.1 hs.1, iht hk.2 hs.2⟩
  | _ => simp [Cat.operand] at hk

namespace Parser

variable {σ : Type} [TokenSource σ]

/-- `parseExpression(0)` returns `id`, having consumed the tokens of the simple expression `s`. -/
structure Consumes (p : Parser σ) (s : Syn expr) (id : NodeId) (p' : Parser σ) : Prop where
  returns : Fuel.Evals parser (fun c => c.parseExpression 0) p id p'
  reads : Reads p.toLookahead s.tokens p'.toLookahead
  grouped : s.Grouped
  simple : Simple s.tokens
  room : p.tree.length + s.size ≤ kNullNode

/-- The tree below `id` says what the tokens of `s` were. -/
structure Determines (p : Parser σ) (s : Syn expr) (id : NodeId) (p' : Parser σ) : Prop where
  /-- each node of the call is reachable -/
  reaches : ∀ a, p.tree.length ≤ a → a < p'.tree.length → Relation.ReflTransGen p'.tree.Refers id a
  /-- an expression with the same tree, from any stream, differs in parentheses only -/
  injective : ∀ {τ : Type} [TokenSource τ] {q q' : Parser τ} {s' : Syn expr} {id' : NodeId},
    Consumes q s' id' q' → Agree p.source q.source p'.tree q'.tree id id' →
      s.marks p.source = s'.marks q.source

section Consumes

variable {p p' : Parser σ} {s : Syn expr} {id : NodeId}

/-- A call leaves the state that the syntax of its tokens describes. -/
lemma Consumes.state (h : Consumes p s id p') :
    id = s.root p.tree.length ∧ p' = p.along s p'.toLookahead := by
  rcases h.returns with ⟨n, hn⟩
  rcases (sound_calls n).expression hn with ⟨e, he, -, hprec⟩
  have hrun := (completes s h.grouped h.simple).whole h.reads h.room he.stopped (by omega)
  exact Fuel.Evals.unique monotone_calls_table (monotone_calls.2.1 0) h.returns hrun.evals

lemma Consumes.length (h : Consumes p s id p') : p'.tree.length = p.tree.length + s.size := by
  rw [h.state.2, along_length]

lemma Consumes.sees (h : Consumes p s id p') : Sees p.source p'.tree id (s.view p.source) := by
  rcases h.state with ⟨rfl, hp'⟩
  have hlies := p.along_lies s p'.toLookahead
  rw [← hp'] at hlies
  exact s.sees h.simple hlies h.room

/-- A stream that gives the tokens of some expression and then a `;`. -/
def stream (source : List Byte) (s : Syn expr) : Parser (List Token) :=
  Parser.init (s.tokens ++ [{ type := Semi }]) source

lemma consumes_stream (source : List Byte) (hg : s.Grouped) (hs : Simple s.tokens)
    (hroom : s.size ≤ kNullNode) :
    ∃ q', Consumes (stream source s) s (s.root 0) q' := by
  have hr : Reads (stream source s).toLookahead s.tokens
      (Lookahead.initWindow [{ type := Semi }]) :=
    reads_list _ (s.no_eof rfl hs)
  have hroom' : (stream source s).tree.length + s.size ≤ kNullNode := by
    simpa [stream, Parser.init] using hroom
  exact ⟨_, ((completes s hg hs).whole hr hroom' (by decide) (by decide)).evals, hr, hg, hs, hroom'⟩

/-- **The tree determines exactly the plain expressions.** -/
theorem determines_iff (h : Consumes p s id p') (hspare : p'.tree.length < kNullNode) :
    Determines p s id p' ↔ s.Plain := by
  have hlength := h.length
  constructor
  · intro hd
    by_contra hp
    rcases Syn.exists_shares p.source s hp h.grouped h.simple with ⟨s', hs'⟩
    have hsize := hs'.size
    rcases consumes_stream p.source hs'.grouped hs'.simple (by omega) with ⟨q', hq⟩
    refine hs'.marks (hd.injective hq ⟨_, h.sees, ?_⟩).symm
    rw [← hs'.view]
    exact hq.sees
  · intro hp
    refine ⟨?_, fun hq hagree => ?_⟩
    · have hlies : Lies p'.tree p.tree.length
          (s.nodes p.tree.length p'.toLookahead.window0.globalOffset) := by
        rw [h.state.2]
        simpa using lies_of_append p.tree (s.nodes p.tree.length p'.window0.globalOffset) []
      intro a hle hlt
      rw [h.state.1]
      exact Syn.reaches s hp h.simple hlies a hle (by omega)
    · rcases hagree with ⟨v, hv, hv'⟩
      have hqview := hq.sees.unique (hq.length.trans_le hq.room) hv'
      exact Syn.marks_eq s hp h.simple _ hq.simple
        ((h.sees.unique hspare.le hv).trans hqview.symm)

end Consumes

/-- **When the tree determines the expression.**  Wherever `parseExpression(0)` returns, it has
consumed the tokens of an expression; for the forms without `eval`, `delete` and blocks, every node
is reachable and no other expression has the same tree exactly when no call has an argument and
neither `++` nor `--` occurs.  One more node must fit into the arena. -/
theorem expression_determined {p p' : Parser σ} {id : NodeId}
    (h : Fuel.Evals parser (fun c => c.parseExpression 0) p id p')
    (hspare : p'.tree.length < kNullNode) :
    ∃ s : Syn expr, s.Grouped ∧ Reads p.toLookahead s.tokens p'.toLookahead ∧
      (Simple s.tokens → (Determines p s id p' ↔ s.Plain)) := by
  rcases h with ⟨n, hn⟩
  rcases (sound_calls n).expression hn with ⟨s, hs, -⟩
  refine ⟨s, hs.returned.1.grouped, hs.returned.1.reads, fun hsimple => ?_⟩
  have hlength := hs.returned.1.length_tree
  exact determines_iff ⟨⟨n, hn⟩, hs.returned.1.reads, hs.returned.1.grouped, hsimple, by omega⟩
    hspare

/-- What is reachable stays in every set of nodes that refer to each other only. -/
lemma reachable_mem {tree : ASTTree} {S : List NodeId} {a b : NodeId} (ha : a ∈ S)
    (hS : ∀ x ∈ S, ∀ y ∈ (tree.get x).refs, y ∈ S)
    (h : Relation.ReflTransGen tree.Refers a b) : b ∈ S := by
  induction h with
  | refl => exact ha
  | @tail x y _ hstep ih =>
      rcases hstep with ⟨n, hn, hy⟩
      have hget : tree.get x = n := by simp [ASTTree.get, hn]
      exact hS x ih y (hget ▸ hy)

/-- The parser in front of `f(a,b)`. -/
def twoArguments : Parser Lexer :=
  Parser.init (Lexer.mk (bytes "f(a,b);") 0 []) (bytes "f(a,b);")

/-- The arena behind the expression. -/
def twoArgumentsTree : ASTTree :=
  [⟨IdentifierExpr, {}, 0, 1, ⟨29, 0, 0⟩⟩, ⟨IdentifierExpr, {}, 2, 1, ⟨29, 0, 0⟩⟩,
    ⟨IdentifierExpr, {}, 4, 1, ⟨29, 0, 0⟩⟩, ⟨CallExpr, {}, 6, 0, ⟨0, 1, 0⟩⟩]

lemma twoArguments_run : ∃ p' : Parser Lexer,
    Fuel.Evals parser (fun c => c.parseExpression 0) twoArguments 3 p' ∧ p'.tree = twoArgumentsTree := by
  have hrun : (((parser 12).parseExpression 0 twoArguments).map
      (Except.map fun r => (r.1, r.2.tree)) : Option (Except Failure _)) =
      some (.ok (3, twoArgumentsTree)) := by
    decide +kernel
  rcases Option.map_eq_some_iff.mp hrun with ⟨r, hr, htree⟩
  cases r with
  | error e => cases htree
  | ok r =>
      simp only [Except.map, Except.ok.injEq, Prod.mk.injEq] at htree
      refine ⟨r.2, ⟨12, ?_⟩, htree.2⟩
      show (parser 12).parseExpression 0 _ = _
      rw [hr, ← htree.1]

/-- The call and what it refers to leave `b` out. -/
lemma not_reaches_argument : ¬ Relation.ReflTransGen twoArgumentsTree.Refers 3 2 := by
  intro h
  exact absurd (reachable_mem (S := [3, 0, 1]) (by simp) (by decide) h) (by decide)

/-- The call `f(a,b)` refers to `a` only. -/
theorem argument_unreachable : ∃ p' : Parser Lexer,
    Fuel.Evals parser (fun c => c.parseExpression 0) twoArguments 3 p' ∧
      p'.tree.length = 4 ∧ ¬ Relation.ReflTransGen p'.tree.Refers 3 2 := by
  rcases twoArguments_run with ⟨p', hrun, htree⟩
  exact ⟨p', hrun, by rw [htree]; rfl, htree ▸ not_reaches_argument⟩

/-- None of the tokens is a keyword of another form. -/
lemma simple_twoArguments {ts : List Token} {w : Lookahead Lexer}
    (h : Reads twoArguments.toLookahead ts w) : Simple ts := by
  have hall : ∀ i < 8, (Lexer.tokenAt (bytes "f(a,b);") i).type ∉ compound := by decide +kernel
  have hend : (Lexer.tokenAt (bytes "f(a,b);") 7).type = Eof := by decide +kernel
  have hwindow : Window (bytes "f(a,b);") 0 twoArguments.toLookahead := Window.init _
  intro t ht
  rw [(hwindow.reads h).2] at ht
  obtain ⟨i, -, rfl⟩ := List.mem_map.mp ht
  by_cases hi : i < 8
  · exact hall i hi
  · rw [Lexer.eof_le (show 7 ≤ i by omega) hend]
    decide

/-- The tree of `f(a,b)` does not determine it, as the call has an argument. -/
theorem expression_determined_sample : ∃ (p' : Parser Lexer) (s : Syn expr),
    p'.tree.length = 4 ∧ Reads twoArguments.toLookahead s.tokens p'.toLookahead ∧
      ¬ Determines twoArguments s 3 p' ∧ ¬ s.Plain := by
  rcases twoArguments_run with ⟨p', hrun, htree⟩
  have hspare : p'.tree.length < kNullNode := by
    rw [htree]
    decide
  rcases expression_determined hrun hspare with ⟨s, -, hreads, hs⟩
  have hiff := hs (simple_twoArguments hreads)
  have hnot : ¬ Determines twoArguments s 3 p' := by
    intro h
    have hreaches := h.reaches 2 (Nat.zero_le _) (by rw [htree]; decide)
    rw [htree] at hreaches
    exact not_reaches_argument hreaches
  exact ⟨p', s, by rw [htree]; rfl, hreads, hnot, fun hplain => hnot (hiff.mpr hplain)⟩

end Parser

end LogicCompiler
