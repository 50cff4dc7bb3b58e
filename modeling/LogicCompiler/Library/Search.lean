import Mathlib.Data.List.Infix
import Mathlib.Data.Nat.Basic
import Mathlib.Tactic.Common

/-!
# Searching a list

First occurrences, over an arbitrary alphabet: of an element (`List.findIdx?` of core, where one
closed form is all that is added) and of a contiguous sub-list (`findSeq`).  The second one is
what `string_view::find` computes; `findSeq_eq_some_iff` describes it by the split of the list it
finds, which is the form in which scanners use it.
-/

namespace Search

variable {α : Type*} [DecidableEq α] {needle : List α}

lemma findIdx?_of_notMem {l : List α} {c : α} (h : c ∉ l) : l.findIdx? (· == c) = none := by
  rw [List.findIdx?_eq_none_iff]
  rintro x hx
  exact beq_false_of_ne fun hxc : x = c => h (hxc ▸ hx)

lemma findIdx?_append_cons {a r : List α} {c : α} (h : c ∉ a) :
    (a ++ c :: r).findIdx? (· == c) = some a.length := by
  have ha : a.findIdx? (· == c) = none := findIdx?_of_notMem h
  simp [List.findIdx?_append, ha, List.findIdx?_cons]

/-- The first position at which `needle` starts. -/
def findSeq (needle : List α) : List α → Option ℕ
  | [] => if needle = [] then some 0 else none
  | b :: bs => if needle.isPrefixOf (b :: bs) then some 0 else (findSeq needle bs).map (· + 1)

lemma findSeq_nil : findSeq needle [] = if needle = [] then some 0 else none := rfl

/-- The search starts at the first element, or behind it. -/
lemma findSeq_cons (b : α) (bs : List α) : findSeq needle (b :: bs) =
    if needle.isPrefixOf (b :: bs) then some 0 else (findSeq needle bs).map (· + 1) := rfl

/-- `body` is what stands in front of the first occurrence of `needle` in `body ++ needle ++ r`,
whatever `r` is: an earlier occurrence would have to end inside `needle`. -/
def FirstBefore (needle body : List α) : Prop := ¬ needle <:+: body ++ needle.dropLast

omit [DecidableEq α] in
lemma FirstBefore.tail {body : List α} {b : α} (h : FirstBefore needle (b :: body)) :
    FirstBefore needle body := fun hin => h (List.infix_cons hin)

omit [DecidableEq α] in
/-- Nowhere inside of the body does the sequence begin. -/
lemma not_prefix_of_firstBefore {body r : List α} {b : α} (h : FirstBefore needle (b :: body)) :
    ¬ needle <+: b :: body ++ (needle ++ r) := by
  intro hpre
  refine h (List.IsPrefix.isInfix (List.prefix_of_prefix_length_le hpre ?_ ?_))
  · rw [List.prefix_append_right_inj]
    exact (List.dropLast_prefix needle).trans (List.prefix_append _ _)
  · simp only [List.cons_append, List.length_cons, List.length_append, List.length_dropLast]
    omega

/-- The first occurrence is the one that is found. -/
lemma findSeq_of_firstBefore {body : List α} (r : List α) (hne : needle ≠ [])
    (h : FirstBefore needle body) : findSeq needle (body ++ (needle ++ r)) = some body.length := by
  induction body with
  | nil =>
      obtain ⟨x, xs, rfl⟩ := List.exists_cons_of_ne_nil hne
      simp [findSeq_cons, List.isPrefixOf_iff_prefix]
  | cons b body ih =>
      have hno := not_prefix_of_firstBefore (r := r) h
      rw [List.cons_append] at hno ⊢
      simp [findSeq_cons, List.isPrefixOf_iff_prefix, hno, ih h.tail]

lemma findSeq_eq_none_iff (hne : needle ≠ []) {l : List α} :
    findSeq needle l = none ↔ ¬ needle <:+: l := by
  induction l with
  | nil => simp [findSeq_nil, hne]
  | cons b bs ih =>
      by_cases hp : needle <+: b :: bs
      · simp [findSeq_cons, List.isPrefixOf_iff_prefix, hp, hp.isInfix]
      · simp [findSeq_cons, List.isPrefixOf_iff_prefix, hp, ih, List.infix_cons_iff]

lemma split_of_findSeq {l : List α} {k : ℕ} (h : findSeq needle l = some k) :
    ∃ body r, l = body ++ (needle ++ r) ∧ body.length = k ∧
      (needle ≠ [] → FirstBefore needle body) := by
  induction l generalizing k with
  | nil =>
      rw [findSeq_nil] at h
      split_ifs at h with hnil
      subst hnil
      exact ⟨[], [], rfl, by simpa using h, fun hne => absurd rfl hne⟩
  | cons b bs ih =>
      rw [findSeq_cons] at h
      split_ifs at h with hp
      · obtain ⟨r, hr⟩ := List.isPrefixOf_iff_prefix.mp hp
        refine ⟨[], r, hr.symm, by simpa using h, fun hne hin => ?_⟩
        have hlen := hin.length_le
        have hpos := List.length_pos_iff.mpr hne
        simp only [List.nil_append, List.length_dropLast] at hlen
        omega
      · obtain ⟨j, hj, rfl⟩ := Option.map_eq_some_iff.mp h
        obtain ⟨body, r, rfl, rfl, hfirst⟩ := ih hj
        refine ⟨b :: body, r, rfl, rfl, fun hne hin => ?_⟩
        rcases List.infix_cons_iff.mp hin with hpre | hin'
        · refine hp (List.isPrefixOf_iff_prefix.mpr (hpre.trans ?_))
          show b :: (body ++ needle.dropLast) <+: b :: (body ++ (needle ++ r))
          rw [List.prefix_cons_inj, List.prefix_append_right_inj]
          exact (List.dropLast_prefix needle).trans (List.prefix_append _ _)
        · exact hfirst hne hin'

/-- What `find` finds, as a split of the list. -/
theorem findSeq_eq_some_iff (hne : needle ≠ []) {l : List α} {k : ℕ} :
    findSeq needle l = some k ↔
      ∃ body r, l = body ++ (needle ++ r) ∧ body.length = k ∧ FirstBefore needle body := by
  constructor
  · intro h
    obtain ⟨body, r, hl, hk, hfirst⟩ := split_of_findSeq h
    exact ⟨body, r, hl, hk, hfirst hne⟩
  · rintro ⟨body, r, rfl, rfl, hfirst⟩
    exact findSeq_of_firstBefore r hne hfirst

omit [DecidableEq α] in
/-- An element that is no part of `needle` separates its occurrences. -/
lemma infix_append_cons {l r : List α} {x : α} (hx : x ∉ needle) (h : needle <:+: l ++ x :: r) :
    needle <:+: l ∨ needle <:+: r := by
  rcases h with ⟨s, t, h⟩
  rw [List.append_assoc] at h
  rcases List.append_eq_append_iff.mp h with ⟨l', rfl, hl⟩ | ⟨s', rfl, hs⟩
  · rcases List.append_eq_append_iff.mp hl with ⟨t', rfl, -⟩ | ⟨n', rfl, hn⟩
    · exact .inl ⟨s, t', by simp⟩
    · cases n' with
      | nil => exact .inl ⟨s, [], by simp⟩
      | cons y n' =>
          cases hn
          exact absurd (by simp) hx
  · cases s' with
    | nil =>
        cases needle with
        | nil => exact .inl (List.nil_infix)
        | cons y needle =>
            cases hs
            exact absurd (by simp) hx
    | cons y s' =>
        cases hs
        exact .inr ⟨s', t, by simp⟩

omit [DecidableEq α] in
/-- What stands in front of the first occurrence may be cut at its beginning. -/
lemma FirstBefore.suffix {body body' : List α} (h : FirstBefore needle body)
    (hs : body' <:+ body) : FirstBefore needle body' := by
  rcases hs with ⟨u, rfl⟩
  exact fun hin => h (hin.trans ⟨u, [], by simp⟩)

end Search
