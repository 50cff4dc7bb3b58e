import LogicCompiler.File.Layout

/-!
# Newlines in the file store

What `loadFile` makes of the line ends of a file: the text behind the pass has no `'\r'`, it has as
many line ends as the file, and a second pass would leave it as it is.
-/

namespace LogicCompiler

namespace FileManager

variable {text : List Byte}

/-- The bytes that end a line: every `'\n'`, and every `'\r'` without a `'\n'` behind it. -/
def lineEnds : List Byte → ℕ
  | [] => 0
  | c :: text =>
      (if c = '\n'.toUInt8 ∨ c = '\r'.toUInt8 ∧ text.head? ≠ some '\n'.toUInt8 then 1 else 0)
        + lineEnds text

example : lineEnds (bytes "a\r\n\rb\n\r") = 4 := by decide

lemma lineEnds_newline (text : List Byte) : lineEnds ('\n'.toUInt8 :: text) = 1 + lineEnds text := by
  rw [lineEnds, if_pos (.inl rfl)]

lemma lineEnds_pair (text : List Byte) :
    lineEnds ('\r'.toUInt8 :: '\n'.toUInt8 :: text) = 1 + lineEnds text := by
  rw [lineEnds, if_neg, Nat.zero_add, lineEnds_newline]
  rintro (h | ⟨-, h⟩)
  · exact absurd h (by decide)
  · exact h rfl

lemma lineEnds_lone (h : text.head? ≠ some '\n'.toUInt8) :
    lineEnds ('\r'.toUInt8 :: text) = 1 + lineEnds text := by
  rw [lineEnds, if_pos (.inr ⟨rfl, h⟩)]

/-- A byte that is not a `'\r'` counts by itself. -/
lemma lineEnds_other {c : Byte} (h : c ≠ '\r'.toUInt8) (text : List Byte) :
    lineEnds (c :: text) = (if c = '\n'.toUInt8 then 1 else 0) + lineEnds text := by
  simp only [lineEnds, h, false_and, or_false]

/-- To go through a text the way the pass does. -/
lemma newline_induction {P : List Byte → Prop} (nil : P [])
    (pair : ∀ text, P text → P ('\r'.toUInt8 :: '\n'.toUInt8 :: text))
    (lone : ∀ text, text.head? ≠ some '\n'.toUInt8 → P text → P ('\r'.toUInt8 :: text))
    (other : ∀ c text, c ≠ '\r'.toUInt8 → P text → P (c :: text)) (text : List Byte) : P text := by
  induction text using normalizeNewlines.induct with
  | case1 => exact nil
  | case2 c =>
      by_cases hc : c = '\r'.toUInt8
      · exact hc ▸ lone [] (by decide) nil
      · exact other c [] hc nil
  | case3 d text ih ih' =>
      by_cases hd : d = '\n'.toUInt8
      · exact hd ▸ pair text ih
      · exact lone (d :: text) (fun h => hd (Option.some.inj h)) ih'
  | case4 c d text hc ih => exact other c (d :: text) hc ih

lemma not_mem_normalizeNewlines (text : List Byte) : '\r'.toUInt8 ∉ normalizeNewlines text := by
  induction text using newline_induction with
  | nil => exact List.not_mem_nil
  | pair text ih =>
      rw [normalizeNewlines_pair]
      exact List.not_mem_cons_of_ne_of_not_mem (by decide) ih
  | lone text h ih =>
      rw [normalizeNewlines_lone h]
      exact List.not_mem_cons_of_ne_of_not_mem (by decide) ih
  | other c text h ih =>
      rw [normalizeNewlines_other h]
      exact List.not_mem_cons_of_ne_of_not_mem (Ne.symm h) ih

lemma lineEnds_normalizeNewlines (text : List Byte) :
    lineEnds (normalizeNewlines text) = lineEnds text := by
  induction text using newline_induction with
  | nil => rfl
  | pair text ih => rw [normalizeNewlines_pair, lineEnds_newline, lineEnds_pair, ih]
  | lone text h ih => rw [normalizeNewlines_lone h, lineEnds_newline, lineEnds_lone h, ih]
  | other c text h ih => rw [normalizeNewlines_other h, lineEnds_other h, lineEnds_other h, ih]

/-- Without a `'\r'` there is nothing to do. -/
lemma length_normalizeNewlines_le (text : List Byte) :
    (normalizeNewlines text).length ≤ text.length := by
  induction text using newline_induction with
  | nil => exact le_rfl
  | pair text ih =>
      rw [normalizeNewlines_pair]
      simp only [List.length_cons]
      omega
  | lone text h ih =>
      rw [normalizeNewlines_lone h]
      simpa using ih
  | other c text h ih =>
      rw [normalizeNewlines_other h]
      simpa using ih

lemma normalizeNewlines_of_not_mem (h : '\r'.toUInt8 ∉ text) : normalizeNewlines text = text := by
  induction text with
  | nil => rfl
  | cons c text ih =>
      rcases not_or.mp (List.mem_cons.not.mp h) with ⟨hc, hrest⟩
      rw [normalizeNewlines_other (Ne.symm hc), ih hrest]

/-- **The newline pass of `loadFile`** on the bytes behind `pre`: it leaves `pre` alone and turns the
file into the text with every pair and every lone `'\r'` replaced.  There is no `'\r'` left, there are
as many line ends as before, and the pass has nothing to do on its own result. -/
theorem newlines_normalised (pre raw : List Byte) :
    let pass := sanitizeAt pre.length raw.length raw.length (pre ++ raw) 0 0
    let text := (pass.1.drop pre.length).take pass.2
    text = normalizeNewlines raw ∧ pass.1.take pre.length = pre ∧ text.length = pass.2 ∧
      '\r'.toUInt8 ∉ text ∧ lineEnds text = lineEnds raw ∧
      (sanitize text.length text 0 0).1.take (sanitize text.length text 0 0).2 = text := by
  intro pass text
  have hpass : pass = (pre ++ (sanitize raw.length raw 0 0).1, (sanitize raw.length raw 0 0).2) :=
    sanitizeAt_eq pre raw.length 0 0 raw
  have htext : text = normalizeNewlines raw := by
    show (pass.1.drop pre.length).take pass.2 = _
    rw [hpass, List.drop_left, sanitize_eq]
  have hlength : text.length = pass.2 := by
    rcases sanitize_spec (n := raw.length) raw (w := 0) le_rfl (Nat.zero_le _) le_rfl
      with ⟨hlen, hle, -⟩
    show ((pass.1.drop pre.length).take pass.2).length = _
    rw [hpass, List.drop_left, List.length_take, hlen, Nat.min_eq_left hle]
  refine ⟨htext, by rw [hpass, List.take_left], hlength, ?_, ?_, ?_⟩
  · rw [htext]
    exact not_mem_normalizeNewlines raw
  · rw [htext, lineEnds_normalizeNewlines]
  · rw [sanitize_eq, htext, normalizeNewlines_of_not_mem (not_mem_normalizeNewlines raw)]

end FileManager

end LogicCompiler
