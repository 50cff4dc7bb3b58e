import Mathlib.Data.List.DropRight
import Mathlib.Tactic.Common

/-!
# Stripping both ends of a list

`strip f` drops the elements at either end that `f` holds of.  A list that begins and ends with
other elements is `Bare`; stripping gives the bare list that is left when margins are taken away
(`strip_margins`), and every list is its stripped part with margins around it (`exists_margins`).
-/

namespace Strip

variable {α : Type*} {f : α → Bool} {a b s t : List α}

/-- The elements with `f` are taken away at both ends. -/
def strip (f : α → Bool) (s : List α) : List α := (s.dropWhile f).rdropWhile f

/-- Neither the first nor the last element is one that is stripped. -/
structure Bare (f : α → Bool) (s : List α) : Prop where
  head : ∀ c ∈ s.head?, f c = false
  last : ∀ c ∈ s.getLast?, f c = false

lemma dropWhile_of_head (h : ∀ c ∈ s.head?, f c = false) : s.dropWhile f = s := by
  cases s with
  | nil => rfl
  | cons c s => rw [List.dropWhile_cons_of_neg (by simp [h c rfl])]

lemma rdropWhile_of_last (h : ∀ c ∈ s.getLast?, f c = false) : s.rdropWhile f = s := by
  rw [List.rdropWhile_eq_self_iff]
  intro hs
  simp [h _ (List.getLast?_eq_getLast_of_ne_nil hs)]

lemma strip_bare (h : Bare f s) : strip f s = s := by
  rw [strip, dropWhile_of_head h.head, rdropWhile_of_last h.last]

lemma rdropWhile_append_all (hb : ∀ c ∈ b, f c = true) : (s ++ b).rdropWhile f = s.rdropWhile f := by
  rw [List.rdropWhile, List.reverse_append, List.dropWhile_append_of_pos (by simpa using hb)]
  rfl

lemma strip_append (ha : ∀ c ∈ a, f c = true) : strip f (a ++ s) = strip f s := by
  rw [strip, List.dropWhile_append_of_pos ha, strip]

/-- A margin behind a list makes no difference. -/
lemma strip_append_right (hb : ∀ c ∈ b, f c = true) : strip f (s ++ b) = strip f s := by
  rw [strip, List.dropWhile_append, strip]
  split
  · next h =>
      rw [List.isEmpty_iff.mp h, List.dropWhile_eq_nil_iff.mpr hb]
  · exact rdropWhile_append_all hb

/-- Stripping takes the margins off a bare list. -/
lemma strip_margins (ha : ∀ c ∈ a, f c = true) (hb : ∀ c ∈ b, f c = true) (h : Bare f s) :
    strip f (a ++ (s ++ b)) = s := by
  rw [strip_append ha, strip_append_right hb, strip_bare h]

lemma exists_margins (f : α → Bool) (s : List α) :
    ∃ a b, s = a ++ (strip f s ++ b) ∧ (∀ c ∈ a, f c = true) ∧ ∀ c ∈ b, f c = true := by
  refine ⟨s.takeWhile f, (s.dropWhile f).rtakeWhile f, ?_, fun c hc => ?_, fun c hc => ?_⟩
  · rw [strip, List.rdropWhile_append_rtakeWhile, List.takeWhile_append_dropWhile]
  · exact List.mem_takeWhile_imp hc
  · exact List.mem_rtakeWhile_imp hc

/-- Nothing is left of a list of margins only. -/
lemma strip_eq_nil_iff : strip f s = [] ↔ ∀ c ∈ s, f c = true := by
  constructor
  · intro h c hc
    rcases exists_margins f s with ⟨a, b, hs, ha, hb⟩
    rw [hs, h, List.nil_append, List.mem_append] at hc
    exact hc.elim (ha c) (hb c)
  · intro h
    have hnil := strip_append (s := []) h
    rwa [List.append_nil] at hnil

/-- Two bare parts with anything between them are bare. -/
lemma Bare.append {m : List α} (hs : Bare f s) (ht : Bare f t) (hs' : s ≠ []) (ht' : t ≠ []) :
    Bare f (s ++ (m ++ t)) where
  head c hc := by
    rw [List.head?_append_of_ne_nil _ hs'] at hc
    exact hs.head c hc
  last c hc := by
    rw [← List.append_assoc, List.getLast?_append_of_ne_nil _ ht'] at hc
    exact ht.last c hc

/-- What stands behind an element that is kept is dropped on its own. -/
lemma dropWhile_append_of_head {u v : List α} (h : ∀ c ∈ v.head?, f c = false) :
    (u ++ v).dropWhile f = u.dropWhile f ++ v := by
  rw [List.dropWhile_append]
  split
  · next hu => rw [dropWhile_of_head h, List.isEmpty_iff.mp hu, List.nil_append]
  · rfl

lemma rdropWhile_append_of_last {u v : List α} (h : ∀ c ∈ u.getLast?, f c = false) :
    (u ++ v).rdropWhile f = u ++ v.rdropWhile f := by
  conv_lhs => rw [← List.rdropWhile_append_rtakeWhile (p := f) (l := v), ← List.append_assoc]
  rw [rdropWhile_append_all fun c hc => List.mem_rtakeWhile_imp hc]
  cases hv : v.rdropWhile f with
  | nil => rw [List.append_nil, rdropWhile_of_last h]
  | cons c w =>
      refine rdropWhile_of_last fun d hd => ?_
      have hlast : (c :: w).getLast? = some d := by
        rwa [Option.mem_def, List.getLast?_append_of_ne_nil _ (by simp)] at hd
      have hnot := List.rdropWhile_last_not f v (by simp [hv])
      simp only [hv] at hnot
      rw [List.getLast?_eq_getLast_of_ne_nil (by simp)] at hlast
      rw [← Option.some.inj hlast]
      exact eq_false_of_ne_true hnot

/-- A bare part keeps what stands on the inner sides of it. -/
lemma strip_around {o u v : List α} (ho : Bare f o) (hne : o ≠ []) :
    strip f (u ++ (o ++ v)) = u.dropWhile f ++ (o ++ v.rdropWhile f) := by
  have hleft : (u ++ (o ++ v)).dropWhile f = u.dropWhile f ++ (o ++ v) := by
    refine dropWhile_append_of_head fun c hc => ho.head c ?_
    rwa [List.head?_append_of_ne_nil _ hne] at hc
  have hright : (u.dropWhile f ++ o ++ v).rdropWhile f = u.dropWhile f ++ o ++ v.rdropWhile f := by
    refine rdropWhile_append_of_last fun c hc => ho.last c ?_
    rwa [List.getLast?_append_of_ne_nil _ hne] at hc
  rw [strip, hleft, ← List.append_assoc, hright, List.append_assoc]

lemma strip_dropWhile (f : α → Bool) (s : List α) : strip f (s.dropWhile f) = strip f s := by
  rw [strip, List.dropWhile_idempotent, strip]

lemma strip_rdropWhile (f : α → Bool) (s : List α) : strip f (s.rdropWhile f) = strip f s := by
  conv_rhs => rw [← List.rdropWhile_append_rtakeWhile (p := f) (l := s)]
  rw [strip_append_right fun c hc => List.mem_rtakeWhile_imp hc]

end Strip
