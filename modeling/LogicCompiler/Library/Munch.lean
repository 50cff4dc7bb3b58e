import Mathlib.Data.List.Infix

/-!
# Longest spellings

A scanner that decides between spellings of a table by looking at one symbol after the other.
`Longest` says that it has come to the longest spelling the text begins with; the rules follow the
scanner's decisions, one candidate at a time.
-/

namespace LogicCompiler

namespace Munch

variable {τ α : Type*}

/-- Of the candidates, `t` has the longest spelling that `s` begins with; `rest` is behind it. -/
structure Longest (spelling : τ → List α) (cands : List τ) (s : List α) (t : τ) (rest : List α) :
    Prop where
  mem : t ∈ cands
  split : s = spelling t ++ rest
  longest : ∀ u ∈ cands, spelling u <+: s → (spelling u).length ≤ (spelling t).length

variable {spelling : τ → List α} {cands : List τ} {s rest : List α} {t u : τ}

/-- The last symbol of a spelling has been seen, and no candidate is longer. -/
lemma Longest.of_le (hmem : t ∈ cands) (hsplit : s = spelling t ++ rest)
    (hle : ∀ u ∈ cands, (spelling u).length ≤ (spelling t).length) :
    Longest spelling cands s t rest where
  mem := hmem
  split := hsplit
  longest u hu _ := hle u hu

/-- A single candidate. -/
lemma Longest.single (hsplit : s = spelling t ++ rest) : Longest spelling [t] s t rest := by
  refine .of_le (List.mem_singleton_self t) hsplit ?_
  intro u hu
  rw [List.mem_singleton.mp hu]

/-- A candidate that the text does not begin with. -/
lemma Longest.cons (h : Longest spelling cands s t rest) (hu : ¬ spelling u <+: s) :
    Longest spelling (u :: cands) s t rest where
  mem := List.mem_cons_of_mem _ h.mem
  split := h.split
  longest := by
    intro v hv hprefix
    rcases List.mem_cons.mp hv with rfl | hv
    · exact absurd hprefix hu
    · exact h.longest v hv hprefix

/-- Candidates that are no longer than what has been found. -/
lemma Longest.append_of_le (h : Longest spelling cands s t rest) (more : List τ)
    (hle : ∀ u ∈ more, (spelling u).length ≤ (spelling t).length) :
    Longest spelling (cands ++ more) s t rest where
  mem := List.mem_append_left _ h.mem
  split := h.split
  longest := by
    intro v hv hprefix
    rcases List.mem_append.mp hv with hv | hv
    · exact h.longest v hv hprefix
    · exact hle v hv

/-- A text that goes on with another symbol than the spelling does not begin with it. -/
lemma not_prefix_of_head {p q r : List α} {d : α} (hu : spelling u = p ++ d :: q)
    (hs : s = p ++ r) (hr : r.head? ≠ some d) : ¬ spelling u <+: s := by
  rintro ⟨v, hv⟩
  rw [hu, hs, List.append_assoc] at hv
  rw [← List.append_cancel_left hv] at hr
  exact hr rfl

end Munch

end LogicCompiler
