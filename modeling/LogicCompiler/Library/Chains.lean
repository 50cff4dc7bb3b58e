import Mathlib.Logic.Relation
import Mathlib.Order.Preorder.Finite
import Mathlib.Tactic.Common

/-!
# Chains of a partial function

A partial function is followed from a point as long as it is defined.  `Ends` says that this comes
to an end.  Where the function is defined at finitely many points only, the alternative is that the
chain runs into a cycle.
-/

namespace Chain

variable {α : Type*} {next : α → Option α} {a b c : α}

/-- One link of a chain. -/
def Link (next : α → Option α) (a b : α) : Prop := next a = some b

/-- The chain from a point comes to an end. -/
inductive Ends (next : α → Option α) : α → Prop
  | stop {a : α} (h : next a = none) : Ends next a
  | link {a b : α} (h : next a = some b) (hb : Ends next b) : Ends next a

/-- The chain from a point runs into a cycle. -/
def RunsIntoCycle (next : α → Option α) (a : α) : Prop :=
  ∃ b, Relation.ReflTransGen (Link next) a b ∧ Relation.TransGen (Link next) b b

lemma Ends.not_runsIntoCycle (h : Ends next a) : ¬ RunsIntoCycle next a := by
  induction h with
  | @stop a h =>
      rintro ⟨b, hab, hb⟩
      have hno {c : α} : ¬ Link next a c := by
        intro hc
        rw [Link, h] at hc
        cases hc
      rcases hab.cases_head with rfl | ⟨c, hc, -⟩
      · rcases Relation.TransGen.head'_iff.mp hb with ⟨c, hc, -⟩
        exact hno hc
      · exact hno hc
  | @link a a' h hb ih =>
      rintro ⟨b, hab, hcycle⟩
      have hto {c : α} (hc : Link next a c) : c = a' := Option.some.inj (hc.symm.trans h)
      rcases hab.cases_head with rfl | ⟨c, hc, hcb⟩
      · rcases Relation.TransGen.head'_iff.mp hcycle with ⟨c, hc, hca⟩
        exact ih ⟨_, hto hc ▸ hca, hcycle⟩
      · exact ih ⟨b, hto hc ▸ hcb, hcycle⟩

lemma reflTransGen_iterate {f : {a // ¬ Ends next a} → {a // ¬ Ends next a}}
    (hf : ∀ x, Link next x.1 (f x).1) (x : {a // ¬ Ends next a}) (n : ℕ) :
    Relation.ReflTransGen (Link next) x.1 (f^[n] x).1 := by
  induction n with
  | zero => exact .refl
  | succ n ih =>
      rw [Function.iterate_succ_apply']
      exact ih.tail (hf _)

/-- A chain that does not end meets finitely many points, so that it meets one of them twice. -/
lemma runsIntoCycle_of_not_ends (hfin : {a | (next a).isSome = true}.Finite)
    (h : ¬ Ends next a) : RunsIntoCycle next a := by
  have hnext : ∀ x : {a // ¬ Ends next a}, ∃ y : {a // ¬ Ends next a}, Link next x.1 y.1 := by
    rintro ⟨x, hx⟩
    cases hs : next x with
    | none => exact absurd (.stop hs) hx
    | some y => exact ⟨⟨y, fun hy => hx (.link hs hy)⟩, hs⟩
  choose f hf using hnext
  have hmem (n : ℕ) : (f^[n] ⟨a, h⟩).1 ∈ {a | (next a).isSome = true} := by
    show (next _).isSome = true
    rw [hf]
    rfl
  rcases hfin.exists_lt_map_eq_of_forall_mem hmem with ⟨i, j, hij, heq⟩
  refine ⟨(f^[i] ⟨a, h⟩).1, reflTransGen_iterate hf ⟨a, h⟩ i, ?_⟩
  rcases Nat.exists_eq_add_of_lt hij with ⟨k, rfl⟩
  have hback : (f^[k + 1] (f^[i] ⟨a, h⟩)).1 = (f^[i] ⟨a, h⟩).1 := by
    rw [← Function.iterate_add_apply, Nat.add_comm (k + 1) i, ← Nat.add_assoc]
    exact heq.symm
  have htail := reflTransGen_iterate hf (f (f^[i] ⟨a, h⟩)) k
  rw [← Function.iterate_succ_apply, hback] at htail
  exact Relation.TransGen.head' (hf _) htail

/-- **A chain ends or runs into a cycle.** -/
theorem ends_iff (hfin : {a | (next a).isSome = true}.Finite) :
    Ends next a ↔ ¬ RunsIntoCycle next a :=
  ⟨Ends.not_runsIntoCycle, fun h => by_contra fun hnot => h (runsIntoCycle_of_not_ends hfin hnot)⟩

end Chain
