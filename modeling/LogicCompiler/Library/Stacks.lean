import Mathlib.Order.Monotone.Basic
import Mathlib.Tactic.Common

/-!
# Stacks of counters

A machine works on a stack of counters: it drops the top one, lowers it, or lowers it and pushes
another of any height.  Nothing bounds how far such a machine can run, but as long as its stack
stays below some depth it comes to an end.
-/

namespace Stacks

/-- One turn of the machine; the top of the stack is the head of the list. -/
inductive Turn : List ℕ → List ℕ → Prop
  | pop (k : ℕ) (s : List ℕ) : Turn (k :: s) s
  | lower {k l : ℕ} (s : List ℕ) (h : l < k) : Turn (k :: s) (l :: s)
  | push {k l : ℕ} (s : List ℕ) (h : l < k) (m : ℕ) : Turn (k :: s) (m :: l :: s)

/-- A turn that keeps the stack below a depth, read backwards. -/
def Below (depth : ℕ) (t s : List ℕ) : Prop := Turn s t ∧ t.length ≤ depth

variable {depth : ℕ} {s : List ℕ}

/-- A counter runs out if whatever is pushed on it does. -/
lemma acc_cons_of_push (hs : Acc (Below depth) s)
    (hpush : ∀ l m, Acc (Below depth) (l :: s) → (m :: l :: s).length ≤ depth →
      Acc (Below depth) (m :: l :: s)) (k : ℕ) : Acc (Below depth) (k :: s) := by
  induction k using Nat.strong_induction_on with
  | _ k ih =>
    refine ⟨_, fun t ⟨hturn, hlen⟩ => ?_⟩
    cases hturn with
    | pop => exact hs
    | lower _ h => exact ih _ h
    | push _ h m => exact hpush _ m (ih _ h) hlen

/-- The induction is on the room that is left above the stack. -/
lemma acc_cons (room : ℕ) (hs : Acc (Below depth) s) (hroom : depth ≤ s.length + room) (k : ℕ) :
    Acc (Below depth) (k :: s) := by
  induction room generalizing s k with
  | zero =>
      refine acc_cons_of_push hs (fun l m _ hlen => ?_) k
      simp only [List.length_cons] at hlen
      omega
  | succ room ih =>
      refine acc_cons_of_push hs (fun l m hl _ => ih hl ?_ m) k
      simp only [List.length_cons]
      omega

/-- **With a bounded depth every run comes to an end.** -/
theorem wellFounded_below (depth : ℕ) : WellFounded (Below depth) := by
  refine ⟨fun s => ?_⟩
  induction s with
  | nil =>
      refine ⟨_, fun t ⟨hturn, _⟩ => ?_⟩
      cases hturn
  | cons k s ih => exact acc_cons depth ih (Nat.le_add_left _ _) k

end Stacks
