import Mathlib.Order.Monotone.Basic
import Mathlib.Tactic.Common

/-!
# Mutually recursive procedures, tied by fuel

A program whose procedures call each other is given here as one step on tables of procedures: the
new table's bodies call the procedures of the old one.  `tie` iterates the step from a table that
has run out of fuel, so that every induction over calls is an induction on `ℕ`, made once.

A computation reads and writes a state, may stop with an error, and answers `none` when the fuel
is used up.  `≤` orders computations by how much fuel they had: the smaller one either ran out or
did exactly the same.  Bodies are monotone in the table they call, hence so is `tie`, and an
answer does not depend on how much fuel was left when it was given.
-/

namespace Fuel

/-- A computation over states `S` with errors `ε`. -/
def Comp (S ε α : Type) : Type := S → Option (Except ε (α × S))

variable {S ε α β T : Type}

namespace Comp

instance : Monad (Comp S ε) where
  pure a := fun s => some (.ok (a, s))
  bind x f := fun s =>
    match x s with
    | some (.ok (a, s')) => f a s'
    | some (.error e) => some (.error e)
    | none => none

@[simp] lemma pure_apply (a : α) (s : S) : (pure a : Comp S ε α) s = some (.ok (a, s)) := rfl

/-- A computation behind another: it runs if the first one ends well. -/
lemma bind_eq (x : Comp S ε α) (f : α → Comp S ε β) (s : S) :
    (x >>= f) s = match x s with
      | some (.ok (a, s')) => f a s'
      | some (.error e) => some (.error e)
      | none => none := rfl

lemma bind_apply {x : Comp S ε α} {s s' : S} {a : α} (h : x s = some (.ok (a, s')))
    (f : α → Comp S ε β) : (x >>= f) s = f a s' := by
  rw [bind_eq, h]

/-- A sequence returns when its first part does and its second part does from there. -/
lemma bind_eq_ok {x : Comp S ε α} {f : α → Comp S ε β} {s : S} {r : β × S} :
    (x >>= f) s = some (.ok r) ↔
      ∃ a s', x s = some (.ok (a, s')) ∧ f a s' = some (.ok r) := by
  constructor
  · intro h
    rw [bind_eq] at h
    split at h
    · next a s' hx => exact ⟨a, s', hx, h⟩
    · cases h
    · cases h
  · rintro ⟨a, s', hx, hf⟩
    rw [bind_apply hx, hf]

lemma bind_assoc {γ : Type} (x : Comp S ε α) (f : α → Comp S ε β) (g : β → Comp S ε γ) :
    (x >>= f) >>= g = x >>= fun a => f a >>= g := by
  funext s
  rw [bind_eq, bind_eq, bind_eq]
  cases x s with
  | none => rfl
  | some r => cases r <;> rfl

lemma ite_apply (c : Prop) [Decidable c] (x y : Comp S ε α) (s : S) :
    (if c then x else y) s = if c then x s else y s := by
  split_ifs <;> rfl

/-! ## What a computation keeps -/

/-- Where `x` returns, `R` holds between the state before and the state behind. -/
def Keeps (R : S → S → Prop) (x : Comp S ε α) : Prop :=
  ∀ s a s', x s = some (.ok (a, s')) → R s s'

namespace Keeps

variable {R : S → S → Prop}

/-- A computation that leaves the state alone keeps every reflexive relation. -/
lemma of_same (hR : ∀ s, R s s) {x : Comp S ε α} (h : ∀ s a s', x s = some (.ok (a, s')) → s' = s) :
    Keeps R x := by
  intro s a s' hx
  rw [h s a s' hx]
  exact hR s

lemma pure (hR : ∀ s, R s s) (a : α) : Keeps R (Pure.pure a : Comp S ε α) := by
  refine of_same hR fun s b s' h => ?_
  cases h
  rfl

/-- Kept by both, kept by one behind the other. -/
lemma bind (hR : ∀ s t u, R s t → R t u → R s u) {x : Comp S ε α} {f : α → Comp S ε β}
    (hx : Keeps R x) (hf : ∀ a, Keeps R (f a)) : Keeps R (x >>= f) := by
  intro s b u h
  rcases bind_eq_ok.mp h with ⟨a, t, hs, ht⟩
  exact hR s t u (hx s a t hs) (hf a t b u ht)

lemma ite {c : Prop} [Decidable c] {x y : Comp S ε α} (hx : Keeps R x) (hy : Keeps R y) :
    Keeps R (if c then x else y) := by
  split_ifs
  · exact hx
  · exact hy

lemma spent : Keeps R (fun _ => none : Comp S ε α) := fun _ _ _ h => nomatch h

end Keeps

/-! ## What a computation returns -/

/-- Where `x` returns, what it returns satisfies `Q`. -/
def Gives (Q : α → Prop) (x : Comp S ε α) : Prop :=
  ∀ s a s', x s = some (.ok (a, s')) → Q a

namespace Gives

variable {Q : α → Prop} {R : β → Prop} {x y : Comp S ε α}

lemma pure {a : α} (h : Q a) : Gives Q (Pure.pure a : Comp S ε α) := by
  intro s b s' hx
  cases hx
  exact h

lemma bind {f : α → Comp S ε β} (hx : Gives Q x) (hf : ∀ a, Q a → Gives R (f a)) :
    Gives R (x >>= f) := by
  intro s b u h
  rcases bind_eq_ok.mp h with ⟨a, t, hs, ht⟩
  exact hf a (hx s a t hs) t b u ht

/-- The result is that of the last part. -/
lemma last {f : α → Comp S ε β} (hf : ∀ a, Gives R (f a)) : Gives R (x >>= f) :=
  bind (Q := fun _ => True) (fun _ _ _ _ => trivial) fun a _ => hf a

lemma ite {c : Prop} [Decidable c] (hx : c → Gives Q x) (hy : ¬ c → Gives Q y) :
    Gives Q (if c then x else y) := by
  split_ifs with h
  · exact hx h
  · exact hy h

end Gives

/-! ## The order of running out later -/

instance : Preorder (Comp S ε α) where
  le x y := ∀ s, x s = none ∨ x s = y s
  le_refl _ _ := Or.inr rfl
  le_trans x y z hxy hyz := by
    intro s
    rcases hxy s with h | h
    · exact Or.inl h
    · rw [h]
      exact hyz s

/-- The computation that has no fuel. -/
def spent : Comp S ε α := fun _ => none

lemma spent_le (x : Comp S ε α) : spent ≤ x := fun _ => Or.inl rfl

/-- An answer that is given stays with more fuel. -/
lemma eq_of_le {x y : Comp S ε α} (h : x ≤ y) {s : S} {r : Except ε (α × S)}
    (hx : x s = some r) : y s = some r := by
  rcases h s with hn | he
  · rw [hn] at hx
    cases hx
  · rw [← he, hx]

end Comp

open Fuel.Comp

section Monotone

variable [Preorder T]

/-- Monotone pieces, one behind the other. -/
lemma monotone_bind {x : T → Comp S ε α} {f : T → α → Comp S ε β} (hx : Monotone x)
    (hf : ∀ a, Monotone fun c => f c a) : Monotone fun c => x c >>= f c := by
  intro c d hcd s
  show (x c >>= f c) s = none ∨ (x c >>= f c) s = (x d >>= f d) s
  rw [bind_eq, bind_eq]
  rcases hx hcd s with hn | he
  · left
    rw [hn]
  · rw [← he]
    cases x c s with
    | none => exact Or.inl rfl
    | some r =>
        cases r with
        | error e => exact Or.inr rfl
        | ok r => exact hf r.1 hcd r.2

lemma monotone_ite {x y : T → Comp S ε α} (b : Prop) [Decidable b] (hx : Monotone x)
    (hy : Monotone y) : Monotone fun c => if b then x c else y c := by
  split_ifs
  · exact hx
  · exact hy

end Monotone

/-! ## Tying the knot -/

/-- `n` levels of calls over the table `bottom`. -/
def tie (step : T → T) (bottom : T) : ℕ → T
  | 0 => bottom
  | n + 1 => step (tie step bottom n)

/-- The levels of a monotone step are monotone. -/
lemma monotone_tie [Preorder T] {step : T → T} {bottom : T} (hstep : Monotone step)
    (hbot : bottom ≤ step bottom) : Monotone (tie step bottom) := by
  refine monotone_nat_of_le_succ fun n => ?_
  induction n with
  | zero => exact hbot
  | succ n ih => exact hstep ih

/-- `x`, run on the table `c` with enough fuel, takes `s` to `s'` and returns `a`. -/
def Evals (c : ℕ → T) (x : T → Comp S ε α) (s : S) (a : α) (s' : S) : Prop :=
  ∃ n, x (c n) s = some (.ok (a, s'))

namespace Evals

variable [Preorder T] {c : ℕ → T} {x : T → Comp S ε α} {y : T → Comp S ε β} {s s' t t' : S}
  {a : α} {b : β}

/-- From some amount of fuel on, the answer is there. -/
lemma eventually (hc : Monotone c) (hx : Monotone x) (h : Evals c x s a s') :
    ∃ n, ∀ m, n ≤ m → x (c m) s = some (.ok (a, s')) := by
  rcases h with ⟨n, hn⟩
  exact ⟨n, fun m hm => eq_of_le (hx (hc hm)) hn⟩

/-- Answers do not depend on the fuel they took. -/
lemma unique (hc : Monotone c) (hx : Monotone x) {a' : α} (h : Evals c x s a s')
    (h' : Evals c x s a' t) : a = a' ∧ s' = t := by
  rcases h.eventually hc hx with ⟨n, hn⟩
  rcases h'.eventually hc hx with ⟨m, hm⟩
  have heq := (hn (max n m) (le_max_left n m)).symm.trans (hm (max n m) (le_max_right n m))
  simpa using heq

/-- What ends with an error has no answer. -/
lemma ne_error (hc : Monotone c) (hx : Monotone x) (h : Evals c x s a s') (n : ℕ) (e : ε) :
    x (c n) s ≠ some (.error e) := by
  rintro he
  rcases h.eventually hc hx with ⟨m, hm⟩
  have heq := hm (max m n) (le_max_left m n)
  rw [eq_of_le (hx (hc (le_max_right m n))) he] at heq
  cases heq

end Evals

/-! ## Enough fuel -/

/-- From some amount of fuel on, `x` takes `s` to `s'` and returns `a`. -/
def Settles (c : ℕ → T) (x : T → Comp S ε α) (s : S) (a : α) (s' : S) : Prop :=
  ∃ n, ∀ m, n ≤ m → x (c m) s = some (.ok (a, s'))

namespace Settles

variable {c : ℕ → T} {x : T → Comp S ε α} {f : T → α → Comp S ε β} {s s' t : S} {a : α} {b : β}

lemma evals (h : Settles c x s a s') : Evals c x s a s' := by
  rcases h with ⟨n, hn⟩
  exact ⟨n, hn n le_rfl⟩

lemma bind (hx : Settles c x s a s') (hf : Settles c (fun c => f c a) s' b t) :
    Settles c (fun c => x c >>= f c) s b t := by
  rcases hx with ⟨n, hn⟩
  rcases hf with ⟨m, hm⟩
  refine ⟨max n m, fun k hk => ?_⟩
  show (x (c k) >>= f (c k)) s = _
  rw [bind_apply (hn k ((le_max_left n m).trans hk))]
  exact hm k ((le_max_right n m).trans hk)

/-- A call takes one more level than its body. -/
lemma tie {step : T → T} {bottom : T}
    (h : Settles (tie step bottom) (fun c => x (step c)) s a s') :
    Settles (Fuel.tie step bottom) x s a s' := by
  rcases h with ⟨n, hn⟩
  refine ⟨n + 1, fun m hm => ?_⟩
  cases m with
  | zero => omega
  | succ m => exact hn m (Nat.le_of_succ_le_succ hm)

/-- What a computation gives follows from what another one gives, whatever the table. -/
lemma imp {y : T → Comp S ε β} {u : S} (h : Settles c x s a s')
    (hy : ∀ d, x d s = some (.ok (a, s')) → y d u = some (.ok (b, t))) : Settles c y u b t := by
  rcases h with ⟨n, hn⟩
  exact ⟨n, fun m hm => hy _ (hn m hm)⟩

/-- The same for what follows from two computations. -/
lemma imp_both {γ : Type} {y : T → Comp S ε β} {z : T → Comp S ε γ} {u u' v v' : S} {e : γ}
    (h : Settles c x s a s') (h' : Settles c y u b u')
    (hz : ∀ d, x d s = some (.ok (a, s')) → y d u = some (.ok (b, u')) →
      z d v = some (.ok (e, v'))) : Settles c z v e v' := by
  rcases h with ⟨n, hn⟩
  rcases h' with ⟨m, hm⟩
  exact ⟨max n m, fun k hk => hz _ (hn k ((le_max_left n m).trans hk))
    (hm k ((le_max_right n m).trans hk))⟩

end Settles

/-! ## How much fuel is enough -/

section Answers

variable {ι : Type} {ρ : ι → Type} (get : T → (i : ι) → Comp S ε (ρ i)) {step : T → T} {bottom : T}
  (Weighs : ι → S → ℕ → Prop)

/-- Calls have weights, and a body answers when its lighter calls do.  Then as many levels as a call
weighs are enough for it. -/
theorem tie_answers
    (hstep : ∀ k i s n, Weighs i s n →
      (∀ j t m, Weighs j t m → m < n → get (tie step bottom k) j t ≠ none) →
        get (step (tie step bottom k)) i s ≠ none)
    {i : ι} {s : S} {n m : ℕ} (hi : Weighs i s n) (hm : n < m) :
    get (tie step bottom m) i s ≠ none := by
  induction n using Nat.strong_induction_on generalizing i s m with
  | _ n ih =>
    cases m with
    | zero => omega
    | succ m => exact hstep m i s n hi fun j t l hj hl => ih l hl hj (by omega)

end Answers

end Fuel
