import LogicCompiler.Common.Token
import Mathlib.Data.List.Nodup

/-!
# Keywords by their hashes

`string_map` switches over the hash of a string and then checks the spelling.  The hashes of the
cases differ (`nodup_hashes`), so that a spelling is found under its own case, and the case list has
every type with a spelling (`mem_stringMapCases`).  Hence the switch is a search in `TT_STRMAP`
(`stringMap_eq`), whatever a string hashes to.
-/

namespace LogicCompiler

open TokenType

/-! ## A switch over hashes -/

section Switch

variable {α H : Type*} [DecidableEq H] {hash : α → H} {cases : List α} {a : α}

/-- Among cases with different hashes, a case is the only one with its hash. -/
lemma find_hash (hnodup : (cases.map hash).Nodup) (ha : a ∈ cases) :
    cases.find? (fun b => hash b == hash a) = some a := by
  have hinj := List.inj_on_of_nodup_map hnodup
  cases hfind : cases.find? (fun b => hash b == hash a) with
  | none => exact absurd (beq_self_eq_true (hash a)) (List.find?_eq_none.mp hfind a ha)
  | some b =>
      have hb := List.find?_some hfind
      rw [hinj (List.mem_of_find?_eq_some hfind) ha (eq_of_beq hb)]

end Switch

/-! ## The cases of `string_map` -/

lemma nodup_hashes : (stringMapCases.map hashToken).Nodup := by
  decide +kernel

/-- Every type with a spelling has its case. -/
lemma mem_stringMapCases {type : TokenType} (h : ttStrmap type ≠ "") : type ∈ stringMapCases := by
  cases type
  all_goals first | exact absurd rfl h | decide

lemma spelling_ne_nil {type : TokenType} (h : type ∈ stringMapCases) :
    bytes (ttStrmap type) ≠ [] := by
  revert type
  decide

/-- A spelling is found under its own case. -/
lemma stringMap_spelling {type : TokenType} (h : ttStrmap type ≠ "") :
    stringMap (bytes (ttStrmap type)) = type := by
  have hfind : stringMapCases.find? (fun t =>
      hashToken t == hashDirective (bytes (ttStrmap type))) = some type :=
    find_hash nodup_hashes (mem_stringMapCases h)
  rw [stringMap, hfind]
  exact if_pos rfl

/-- What is not a spelling fails the check of whatever case it reaches. -/
lemma stringMap_other {sv : List Byte}
    (h : ∀ type, ttStrmap type ≠ "" → bytes (ttStrmap type) ≠ sv) : stringMap sv = TBD := by
  rw [stringMap]
  cases hfind : stringMapCases.find? (fun type => hashToken type == hashDirective sv) with
  | none => rfl
  | some type =>
      have hcase := List.mem_of_find?_eq_some hfind
      have hspelled : ttStrmap type ≠ "" := by
        intro hempty
        exact spelling_ne_nil hcase (by rw [hempty, bytes_empty])
      exact if_neg fun hsv => h type hspelled hsv.symm

/-! ## The search in the table -/

/-- The type whose non-empty spelling the string is, or `TBD`. -/
def tableLookup (sv : List Byte) : TokenType :=
  (((List.range TokenType.count).map TokenType.ofNat).find? fun type =>
    ttStrmap type != "" && bytes (ttStrmap type) == sv).getD TBD

lemma mem_tokenTypes (type : TokenType) :
    type ∈ (List.range TokenType.count).map TokenType.ofNat :=
  List.mem_map.mpr ⟨type.code, List.mem_range.mpr type.code_lt_count, type.ofNat_code⟩

lemma stringMap_eq_tableLookup (sv : List Byte) : stringMap sv = tableLookup sv := by
  rw [tableLookup]
  cases hfind : ((List.range TokenType.count).map TokenType.ofNat).find?
      fun type => ttStrmap type != "" && bytes (ttStrmap type) == sv with
  | none =>
      refine stringMap_other fun type hspelled hsv => ?_
      have hmiss := List.find?_eq_none.mp hfind type (mem_tokenTypes type)
      simp [hspelled, hsv] at hmiss
  | some type =>
      have hfound := List.find?_some hfind
      simp only [Bool.and_eq_true, bne_iff_ne, beq_iff_eq] at hfound
      rw [← hfound.2, stringMap_spelling hfound.1, Option.getD_some]

/-- **The hashed lookup is the search in the table**, and each type with a spelling is found for
that string only. -/
theorem stringMap_eq (sv : List Byte) :
    stringMap sv = tableLookup sv ∧
      ∀ type, ttStrmap type ≠ "" → (stringMap sv = type ↔ sv = bytes (ttStrmap type)) := by
  refine ⟨stringMap_eq_tableLookup sv, fun type hspelled => ⟨fun hmap => ?_, ?_⟩⟩
  · -- otherwise the string has another spelling or none, and the switch says so
    by_contra hne
    have hother : stringMap sv = TBD → False := by
      rintro htbd
      exact hspelled (by rw [← hmap, htbd]; rfl)
    refine hother (stringMap_other fun type' hspelled' hsv => ?_)
    have htype : type' = type := by
      rw [← hmap, ← hsv, stringMap_spelling hspelled']
    exact hne (by rw [← htype, hsv])
  · rintro rfl
    exact stringMap_spelling hspelled

end LogicCompiler
