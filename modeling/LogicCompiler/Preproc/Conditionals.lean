import LogicCompiler.Preproc.Skipping

/-!
# Conditional groups select one arm

A source built from text lines and conditional groups is a tree (`Source`, with the further arms
of a group in `Arms`).  `selected` is what conditional compilation should leave of it: the first
arm whose condition holds, or the `#else` arm.

The code departs from it in three places.  A skip that comes to an `#elif` of a group without a
taken arm gives up without evaluating it, and everything behind the word `#elif` is read as text.
An `#endif` reached inside a skip leaves the flags of its group on the stack, where the next
`#else` or `#elif` takes them for its own.  And the counter of nested groups has sixteen bits.
`clean` says that none of the three shows: `process_selects` is the run over a clean source.
-/

namespace LogicCompiler

namespace Preprocessor

/-! ## Text lines -/

/-- Identifier runs and single characters, none of them a `#`. -/
def Segment.IsPlain : Segment → Prop
  | .comment _ | .literal _ => False
  | .ident _ => True
  | .single c => c ≠ '#'.toUInt8

/-- A stretch of text without quotes, comment openers and `#`, that ends in white space: a line,
or the indentation of a directive. -/
structure TextLine where
  segs : List Segment
  plain : ∀ seg ∈ segs, seg.IsPlain
  segmented : Segmented [] (segs.flatMap Segment.text) segs
  last : ∀ c ∈ (segs.flatMap Segment.text).getLast?, isSpace c = true

/-- The text of a line. -/
def TextLine.text (t : TextLine) : List Byte := t.segs.flatMap Segment.text

/-- The line with its macros replaced. -/
def TextLine.expand (p : Preprocessor) (t : TextLine) : List Byte :=
  t.segs.flatMap (Segment.expand p)

variable {p q : Preprocessor} {pre post rest : List Byte} {disk : Disk}

/-- White space belongs to no directive and to no name. -/
lemma isSpace_inert {c : Byte} (hc : isSpace c = true) :
    Inert c ∧ isIdentChar c = false := by
  simp only [isSpace, isBlank, Bool.or_eq_true, beq_iff_eq] at hc
  rcases hc with ((rfl | rfl) | rfl) | rfl <;> decide

lemma isBlank_isSpace {c : Byte} (hc : isBlank c = true) : isSpace c = true := by
  simp [isSpace, hc]

lemma StartsComment.of_append {c d : Byte} {s : List Byte}
    (h : StartsComment (c :: d :: s ++ rest)) : StartsComment (c :: d :: s) := by
  have hline : bytes "//" = ['/'.toUInt8, '/'.toUInt8] := rfl
  have hblock : bytes "/*" = ['/'.toUInt8, '*'.toUInt8] := rfl
  simpa [StartsComment, hline, hblock, List.cons_prefix_cons] using h

/-- A text that ends in white space is cut in the same way whatever stands behind it. -/
lemma Segmented.append {text : List Byte} {segs : List Segment} (h : Segmented [] text segs)
    (hplain : ∀ seg ∈ segs, seg.IsPlain) (hlast : ∀ c ∈ text.getLast?, isSpace c = true) :
    Segmented rest (text ++ rest) segs := by
  induction h with
  | nil => exact .nil
  | @comment s => exact False.elim (hplain (.comment s) (by simp))
  | @literal s => exact False.elim (hplain (.literal s) (by simp))
  | @ident s r segs hw _ ih =>
      have hr : r ≠ [] := by
        rintro rfl
        rw [List.append_nil, List.getLast?_eq_some_getLast hw.nonempty] at hlast
        have hspace := (isSpace_inert (hlast _ rfl)).2
        rw [hw.run _ (List.getLast_mem hw.nonempty)] at hspace
        cases hspace
      rw [List.append_assoc]
      refine .ident ⟨hw.nonempty, hw.run, ?_⟩
        (ih (fun seg hs => hplain seg (by simp [hs])) ?_)
      · obtain ⟨d, r, rfl⟩ := List.exists_cons_of_ne_nil hr
        exact hw.maximal
      · rwa [List.getLast?_append_of_ne_nil _ hr] at hlast
  | @single c r segs hs _ ih =>
      have hcom : ¬ StartsComment (c :: (r ++ rest)) := by
        rcases r with _ | ⟨d, r⟩
        · exact not_startsComment (isSpace_inert (hlast c rfl)).1.2.2
        · exact fun h => hs.comment h.of_append
      refine .single ⟨hs.quote, hs.ident, hcom⟩
        (ih (fun seg hm => hplain seg (by simp [hm])) fun d hd => hlast d ?_)
      rcases r with _ | ⟨e, r⟩
      · cases hd
      · rwa [List.getLast?_cons_cons]

/-- A line is read in its own segments, whatever stands behind it. -/
lemma TextLine.segmented_append (t : TextLine) : Segmented rest (t.text ++ rest) t.segs :=
  t.segmented.append t.plain t.last

lemma TextLine.hashFree (t : TextLine) : HashFree t.segs := fun h => t.plain _ h rfl

lemma quiet_of_segmented {text : List Byte} {segs : List Segment} (h : Segmented rest text segs)
    (hplain : ∀ seg ∈ segs, seg.IsPlain) : Quiet rest (segs.flatMap Segment.text) := by
  induction h with
  | nil => exact .nil
  | @comment s => exact False.elim (hplain (.comment s) (by simp))
  | @literal s => exact False.elim (hplain (.literal s) (by simp))
  | @ident s r segs hw h ih =>
      have hs : ∀ c ∈ s, Inert c := fun c hc => isIdentChar_other (hw.run c hc)
      exact (Quiet.of_inert hs).append (ih fun seg hm => hplain seg (by simp [hm]))
  | @single c r segs hs h ih =>
      have hcom := hs.comment
      rw [← h.flatMap_text] at hcom
      exact .cons hs.quote (hplain (.single c) (by simp)) hcom
        (ih fun seg hm => hplain seg (by simp [hm]))

/-- A line of text holds no directive. -/
lemma TextLine.quiet (t : TextLine) : Quiet rest t.text :=
  quiet_of_segmented t.segmented_append t.plain

/-- Every text of the kind is a text line. -/
lemma exists_textLine {text : List Byte} (hquote : ∀ c ∈ text, ¬ IsQuote c)
    (hhash : '#'.toUInt8 ∉ text) (hline : ¬ bytes "//" <:+: text) (hblock : ¬ bytes "/*" <:+: text)
    (hlast : ∀ c ∈ text.getLast?, isSpace c = true) : ∃ t : TextLine, t.text = text := by
  obtain ⟨segs, hsegs⟩ := exists_segmented text
  have hplain : ∀ seg ∈ segs, seg.IsPlain := by
    clear hlast
    induction hsegs with
    | nil => simp
    | @comment s r segs hc _ ih =>
        exfalso
        have hstart : StartsComment (s ++ r) := by
          cases hc with
          | line => exact .inl (by simp)
          | lineEnd => exact .inl (by simp)
          | block => exact .inr (by simp)
          | blockEnd => exact .inr (by simp)
        exact hstart.elim (fun hp => hline hp.isInfix) fun hp => hblock hp.isInfix
    | @literal s r segs hl _ ih =>
        exfalso
        cases hl with
        | closed _ hq _ => exact hquote _ (by simp) hq
        | cut hq _ => exact hquote _ (by simp) hq
        | cutEscape hq _ => exact hquote _ (by simp) hq
    | @ident s r segs hw _ ih =>
        have htail := ih (fun c hc => hquote c (by simp [hc])) (fun hm => hhash (by simp [hm]))
          (fun hin => hline (hin.trans (List.suffix_append s r).isInfix))
          (fun hin => hblock (hin.trans (List.suffix_append s r).isInfix))
        simpa [Segment.IsPlain] using htail
    | @single c r segs hs _ ih =>
        have htail := ih (fun d hd => hquote d (by simp [hd])) (fun hm => hhash (by simp [hm]))
          (fun hin => hline (hin.trans (List.suffix_cons c r).isInfix))
          (fun hin => hblock (hin.trans (List.suffix_cons c r).isInfix))
        have hc : c ≠ '#'.toUInt8 := by
          rintro rfl
          exact hhash (by simp)
        simpa [Segment.IsPlain, hc] using htail
  have htext := hsegs.flatMap_text
  rw [List.append_nil] at htext
  exact ⟨⟨segs, hplain, htext ▸ hsegs, htext ▸ hlast⟩, htext⟩

/-! ## Directive lines -/

/-- A run of blanks, as they stand around the words of a directive line. -/
structure Blanks where
  s : List Byte
  blank : ∀ c ∈ s, isBlank c = true

/-- The conditions that are a literal. -/
inductive CondLiteral where
  | Zero | One | False | True
  deriving DecidableEq, Repr

namespace CondLiteral

/-- The text of the literal. -/
def text : CondLiteral → List Byte
  | Zero => bytes "0"
  | One => bytes "1"
  | False => bytes "false"
  | True => bytes "true"

/-- The literals that are true. -/
def holds : CondLiteral → Bool
  | Zero | False => false
  | One | True => true

end CondLiteral

/-- What follows the word `#if` or `#elif`. -/
structure CondLine where
  gap : Blanks
  gap_ne : gap.s ≠ []
  lit : CondLiteral
  trail : Blanks

/-- What follows the word `#ifndef`. -/
structure NameLine where
  gap : Blanks
  gap_ne : gap.s ≠ []
  name : List Byte
  name_ne : name ≠ []
  name_ident : ∀ c ∈ name, isIdentChar c = true
  trail : Blanks

/-- Blanks, up to the end of the line. -/
def Blanks.line (b : Blanks) : List Byte := b.s ++ bytes "\n"

/-- The text behind `#if` or `#elif`. -/
def CondLine.line (c : CondLine) : List Byte := c.gap.s ++ (c.lit.text ++ c.trail.line)

/-- The text behind `#ifndef`. -/
def NameLine.line (n : NameLine) : List Byte := n.gap.s ++ (n.name ++ n.trail.line)

/-- The directives that open a group. -/
inductive Opener where
  | If (c : CondLine)
  | Ifndef (n : NameLine)

namespace Opener

/-- The directive itself. -/
def word : Opener → List Byte
  | If _ => bytes "#if"
  | Ifndef _ => bytes "#ifndef"

/-- What stands behind the directive. -/
def line : Opener → List Byte
  | If c => c.line
  | Ifndef n => n.line

/-- Whether the first arm is selected, given which names are defined. -/
def holds (defined : List Byte → Bool) : Opener → Bool
  | If c => c.lit.holds
  | Ifndef n => !defined n.name

end Opener

/-! ## Sources -/

mutual

/-- A source: lines of text, and groups with whatever is inside. -/
inductive Source where
  | Done
  | Text (t : TextLine) (rest : Source)
  | Group (o : Opener) (body : Source) (arms : Arms) (rest : Source)

/-- What follows the first arm of a group, up to its `#endif`. -/
inductive Arms where
  | Endif (e : Blanks)
  | Else (b : Blanks) (body : Source) (e : Blanks)
  | Elif (c : CondLine) (body : Source) (arms : Arms)

end

mutual

/-- The text of a source. -/
def Source.text : Source → List Byte
  | .Done => []
  | .Text t rest => t.text ++ rest.text
  | .Group o body arms rest => o.word ++ (o.line ++ (body.text ++ (arms.text ++ rest.text)))

/-- The text of the arms, down to the `#endif`. -/
def Arms.text : Arms → List Byte
  | .Endif e => bytes "#endif" ++ e.line
  | .Else b body e => bytes "#else" ++ (b.line ++ (body.text ++ (bytes "#endif" ++ e.line)))
  | .Elif c body arms => bytes "#elif" ++ (c.line ++ (body.text ++ arms.text))

end

section Selection

variable (defined : List Byte → Bool)

mutual

/-- The lines all of whose enclosing arms are selected. -/
def Source.selected : Source → List TextLine
  | .Done => []
  | .Text t rest => t :: rest.selected
  | .Group o body arms rest =>
      (if o.holds defined then body.selected else arms.selected) ++ rest.selected

/-- The same for the arms behind one that is not selected. -/
def Arms.selected : Arms → List TextLine
  | .Endif _ => []
  | .Else _ body _ => body.selected
  | .Elif c body arms => if c.lit.holds then body.selected else arms.selected

end

mutual

/-- How deep groups are nested. -/
def Source.depth : Source → ℕ
  | .Done => 0
  | .Text _ rest => rest.depth
  | .Group _ body arms rest => max (max body.depth arms.depth + 1) rest.depth

/-- How deep groups are nested in the arms. -/
def Arms.depth : Arms → ℕ
  | .Endif _ => 0
  | .Else _ body _ => body.depth
  | .Elif _ body arms => max body.depth arms.depth

end

/-- What remains of the flags in front of the further arms of a group whose first arm is taken. -/
def Arms.closeTaken : Arms → List Bool → List Bool
  | .Endif _, flags => flags.tail
  | .Else _ _ _, flags | .Elif _ _ _, flags => flags

mutual

/-- The groups that leave their flags behind, the last one first: those that are closed inside a
skip.  For each of them, whether an arm was taken.  An `#endif` that is reached outside a skip
takes the last flags there are, which are not its own when something was left behind before it. -/
def Source.leftover : Source → List Bool
  | .Done => []
  | .Text _ rest => rest.leftover
  | .Group o body arms rest =>
      rest.leftover ++ (if o.holds defined then arms.closeTaken (body.leftover ++ [true])
        else arms.leftover)

/-- The same for a group whose first arm is not taken. -/
def Arms.leftover : Arms → List Bool
  | .Endif _ => [false]
  | .Else _ body _ => (body.leftover ++ [false]).tail
  | .Elif _ _ _ => []

end

/-- Whether a skip may start here: the last flags say that an arm has been taken, and no nesting
overflows the counter. -/
def Arms.skippable (flags : List Bool) : Arms → Bool
  | .Endif _ => true
  | .Else b body e => flags.headD false && decide ((Arms.Else b body e).depth < 2 ^ 16 - 1)
  | .Elif c body arms => flags.headD false && decide ((Arms.Elif c body arms).depth < 2 ^ 16 - 1)

mutual

/-- Every skip starts where one may, and no `#elif` stands behind an arm that is not selected. -/
def Source.clean : Source → Bool
  | .Done => true
  | .Text _ rest => rest.clean
  | .Group o body arms rest =>
      (if o.holds defined then
          body.clean && arms.skippable (body.leftover defined ++ [true])
        else decide (body.depth < 2 ^ 16 - 1) && arms.clean) && rest.clean

/-- The same behind an arm that is not selected. -/
def Arms.clean : Arms → Bool
  | .Endif _ => true
  | .Else _ body _ => body.clean
  | .Elif _ _ _ => false

end

end Selection

/-! ## Reading a directive line -/

lemma takeWhile_blanks {b : List Byte} (hb : ∀ c ∈ b, isBlank c = true)
    (hpost : ∀ c ∈ post.head?, isBlank c = false) : (b ++ post).takeWhile isBlank = b := by
  rw [List.takeWhile_append_of_pos hb]
  rcases post with _ | ⟨d, post⟩
  · simp
  · simp [hpost d rfl]

/-- `ol` passes over the blanks. -/
lemma At.ol {b : List Byte} (h : At p pre (b ++ post)) (hb : ∀ c ∈ b, isBlank c = true)
    (hpost : ∀ c ∈ post.head?, isBlank c = false) : p.ol = p.bump b.length := by
  rw [Preprocessor.ol, h.rest, takeWhile_blanks hb hpost]

/-- Back over the blanks behind a word. -/
lemma olBack_bump {w b : List Byte} (h : At p pre ((w ++ b) ++ post)) (hne : w ≠ [])
    (hb : ∀ c ∈ b, isBlank c = true) (hw : ∀ c ∈ w, isBlank c = false) :
    (p.bump (w ++ b).length).olBack = p.bump w.length := by
  have hat := h.bump
  have htake : ((p.bump (w ++ b).length).fileMgr.read (p.bump (w ++ b).length).sourceContent).take
      (p.bump (w ++ b).length).cursor = pre ++ (w ++ b) := by
    rw [hat.text, hat.cursor, List.take_left]
  have hrev : (pre ++ (w ++ b)).reverse = b.reverse ++ (w.reverse ++ pre.reverse) := by simp
  rw [olBack]
  simp only [htake, hrev]
  rw [takeWhile_blanks (by simpa using hb), hat.cursor, Preprocessor.bump, setCursor_setCursor,
    Preprocessor.bump, h.cursor]
  · congr 1
    simp only [List.length_append, List.length_reverse]
    omega
  · intro c hc
    rw [List.head?_append_of_ne_nil _ (by simpa using hne), List.head?_reverse] at hc
    exact hw c (List.mem_of_getLast? hc)

lemma isBlank_not_newline {b : List Byte} (hb : ∀ c ∈ b, isBlank c = true) :
    '\n'.toUInt8 ∉ b := fun hm => absurd (hb _ hm) (by decide)

/-- A newline ends the blanks. -/
lemma newline_not_blank : isBlank '\n'.toUInt8 = false := by decide

lemma isIdentChar_not_blank {c : Byte} (hc : isIdentChar c = true) : isBlank c = false := by
  cases hb : isBlank c with
  | false => rfl
  | true =>
      rw [(isSpace_inert (isBlank_isSpace hb)).2] at hc
      cases hc

lemma isIdentChar_not_newline {s : List Byte} (hs : ∀ c ∈ s, isIdentChar c = true) :
    '\n'.toUInt8 ∉ s := fun hm => absurd (hs _ hm) (by decide)

lemma CondLiteral.text_ident (lit : CondLiteral) : ∀ c ∈ lit.text, isIdentChar c = true := by
  cases lit <;> decide

lemma CondLiteral.text_ne_nil (lit : CondLiteral) : lit.text ≠ [] := by
  cases lit <;> decide

/-- A name has nothing to trim. -/
lemma trim_ident {s : List Byte} (hs : ∀ c ∈ s, isIdentChar c = true) : trim s = s := by
  have hkeep : ∀ t : List Byte, (∀ c ∈ t, isIdentChar c = true) → t.dropWhile isSpace = t := by
    rintro (_ | ⟨c, t⟩) ht
    · rfl
    · have hc : isSpace c = false := by
        cases hc : isSpace c with
        | false => rfl
        | true =>
            have hident := ht c (by simp)
            rw [(isSpace_inert hc).2] at hident
            cases hident
      simp [hc]
  rw [trim, hkeep s hs, hkeep s.reverse (by simpa using hs), List.reverse_reverse]

/-- A literal evaluates to its truth value. -/
lemma evalCondition_literal {n : ℕ} {cond : Snippet} {lit : CondLiteral}
    (hactive : p.currActive = .If ∨ p.currActive = .Elif)
    (hread : p.fileMgr.read cond = lit.text) :
    p.evalCondition (n + 1) cond = some (if lit.holds then 1 else 0) := by
  have hndef : p.currActive ≠ .Ifndef := by rcases hactive with h | h <;> rw [h] <;> decide
  have hne := lit.text_ne_nil
  rw [evalCondition]
  simp only [hread, trim_ident lit.text_ident, hne, hactive, hndef, if_false, if_true]
  cases lit <;> rfl

/-- The condition of a condition line is its literal. -/
lemma readCondition_line {c : CondLine} (h : At p pre (c.line ++ post)) :
    ∃ cond, p.readCondition = some (cond, p.bump c.line.length) ∧
      p.fileMgr.read cond = c.lit.text := by
  obtain ⟨⟨gap, hgap⟩, hgap_ne, lit, trail, htrail⟩ := c
  have hat : At p pre (gap ++ (lit.text ++ (trail ++ '\n'.toUInt8 :: post))) := by
    simpa [CondLine.line, Blanks.line, bytes] using h
  obtain ⟨d, l, hl⟩ := List.exists_cons_of_ne_nil lit.text_ne_nil
  have hol : p.ol = p.bump gap.length := by
    refine hat.ol hgap fun e he => ?_
    rw [hl] at he
    cases Option.mem_def.mp he
    exact isIdentChar_not_blank (lit.text_ident d (by simp [hl]))
  have hlit : At (p.bump gap.length) (pre ++ gap) ((lit.text ++ trail) ++ '\n'.toUInt8 :: post) := by
    simpa using hat.bump
  have hnl : '\n'.toUInt8 ∉ lit.text ++ trail := by
    simp [isIdentChar_not_newline lit.text_ident, isBlank_not_newline htrail]
  have hback := olBack_bump hlit lit.text_ne_nil htrail fun e he =>
    isIdentChar_not_blank (lit.text_ident e he)
  refine ⟨((p.bump gap.length).bump lit.text.length).fromCursor (p.bump gap.length).cursor, ?_, ?_⟩
  · rw [readCondition]
    simp only [hol, hlit.findNext hnl, Option.map_some]
    rw [← Preprocessor.bump, hback, Nat.add_assoc, ← Preprocessor.bump]
    simp [CondLine.line, Blanks.line, bytes, Nat.add_assoc, bump_bump]
  · have hword : At ((p.bump gap.length).bump lit.text.length) ((pre ++ gap) ++ lit.text)
        (trail ++ '\n'.toUInt8 :: post) := At.bump (by simpa using hlit)
    rw [hlit.cursor]
    exact hword.read_from

/-! ## The step over an opening line -/

/-- How the main loop goes on behind a directive. -/
def afterDirective : ℤ × Preprocessor → StepResult
  | (ret, q) => if ret < 0 then .failed ret q else .next q

/-- One iteration of the main loop in front of a directive. -/
lemma step_directive (disk : Disk) (n : ℕ) {s : List Byte} (h : At p pre (s ++ rest))
    (hd : Directive s rest) : p.step disk n =
      match processDirective disk n (macroHashMatch s)
          ((p.bump s.length).setActive (macroHashMatch s)) with
      | none => .diverged
      | some r => afterDirective r := by
  have hread := readDirective_eq h hd
  have hat : At p pre ('#'.toUInt8 :: (s.tail ++ rest)) := by
    rw [hd.eq_cons] at h
    exact h
  have hquote : ¬ IsQuote '#'.toUInt8 := by decide
  have hcom := not_startsComment (s := s.tail ++ rest) (hash_other rfl).2.2
  rw [← opensComment_iff hat, not_or] at hcom
  rw [step_cons hat, if_neg hcom.1, if_neg hcom.2, if_neg hquote, if_pos rfl, hread]
  generalize processDirective disk n (macroHashMatch s)
    ((p.bump s.length).setActive (macroHashMatch s)) = r
  rcases r with _ | ⟨ret, q⟩ <;> rfl

lemma directive_of {s : List Byte} (hs : s.head? = some '#'.toUInt8)
    (hrun : ∀ c ∈ s.tail, isIdentChar c = true)
    (hrest : ∀ c ∈ rest.head?, isSpace c = true) : Directive s rest :=
  ⟨hs, hrun, fun c hc => (isSpace_inert (hrest c hc)).2⟩

lemma head_blanks_line (b : Blanks) : ∀ c ∈ (b.line ++ rest).head?, isSpace c = true := by
  obtain ⟨b, hb⟩ := b
  intro c hc
  rcases b with _ | ⟨d, b⟩
  · cases Option.mem_def.mp hc
    decide
  · cases Option.mem_def.mp hc
    exact isBlank_isSpace (hb c (by simp))

lemma head_gap {b : Blanks} (hne : b.s ≠ []) : ∀ c ∈ (b.s ++ rest).head?, isSpace c = true := by
  intro c hc
  rw [List.head?_append_of_ne_nil _ hne] at hc
  exact isBlank_isSpace (b.blank c (List.mem_of_head? hc))

lemma directive_endif (e : Blanks) : Directive (bytes "#endif") (e.line ++ rest) :=
  directive_of rfl (by decide) (head_blanks_line e)

lemma directive_else (b : Blanks) : Directive (bytes "#else") (b.line ++ rest) :=
  directive_of rfl (by decide) (head_blanks_line b)

lemma directive_elif (c : CondLine) : Directive (bytes "#elif") (c.line ++ rest) := by
  rw [CondLine.line, List.append_assoc]
  exact directive_of rfl (by decide) (head_gap c.gap_ne)

/-- `#if` and `#ifndef`, with their line behind them. -/
lemma directive_opener (o : Opener) : Directive o.word (o.line ++ rest) := by
  cases o with
  | If c =>
      rw [Opener.line, CondLine.line, List.append_assoc]
      show Directive (bytes "#if") _
      exact directive_of rfl (by decide) (head_gap c.gap_ne)
  | Ifndef n =>
      rw [Opener.line, NameLine.line, List.append_assoc]
      show Directive (bytes "#ifndef") _
      exact directive_of rfl (by decide) (head_gap n.gap_ne)

lemma macroHashMatch_opener (o : Opener) :
    macroHashMatch o.word = .If ∨ macroHashMatch o.word = .Ifndef := by
  cases o with
  | If => exact .inl rfl
  | Ifndef => exact .inr rfl

/-- The state in which an arm is entered or skipped. -/
def armState (p : Preprocessor) (active : MacroType) (n : ℕ) (flags : List UInt8) : Preprocessor :=
  { p.bump n with currActive := active, branchFlags := flags }

lemma armState_moved (p : Preprocessor) (active : MacroType) (n : ℕ) (flags : List UInt8) :
    Moved p (p.armState active n flags) n [] := ⟨rfl, rfl, rfl, (List.append_nil _).symm⟩

/-- The state of an arm, counted from in front of the word of the directive. -/
lemma armState_bump (p : Preprocessor) (active active' : MacroType) (n k : ℕ) (flags : List UInt8) :
    ((p.bump n).setActive active').armState active k flags = p.armState active (n + k) flags := by
  have hbump : ((p.bump n).setActive active').bump k = (p.bump (n + k)).setActive active' := by
    rw [← bump_bump]
    rfl
  rw [armState, hbump]
  rfl

/-- `#if` at a literal. -/
lemma ifArm_line {c : CondLine} {n : ℕ} (h : At p pre (c.line ++ post)) :
    p.ifArm (n + 1) = some (if c.lit.holds
      then .taken (p.armState .If c.line.length (armFlags true :: p.branchFlags))
      else .skipped (p.armState .If c.line.length (armFlags false :: p.branchFlags))) := by
  have hat : At (p.setActive .If) pre (c.line ++ post) := h.congr rfl rfl
  obtain ⟨cond, hcond, hread⟩ := readCondition_line hat
  have heval := evalCondition_literal (p := (p.setActive .If).bump c.line.length)
    (n := n) (.inl rfl) hread
  simp only [ifArm, hcond, heval, Option.map_some]
  cases c.lit.holds <;> rfl

/-- `#ifndef` evaluates to whether the name is not defined. -/
lemma evalCondition_name {n : ℕ} {cond : Snippet} {name : List Byte}
    (hactive : p.currActive = .Ifndef) (hread : p.fileMgr.read cond = name) (hne : name ≠ [])
    (hident : ∀ c ∈ name, isIdentChar c = true) :
    p.evalCondition (n + 1) cond = some (if !p.isDefined name then 1 else 0) := by
  rw [evalCondition]
  simp only [hread, trim_ident hident, hne, hactive, if_false, if_true]

/-- A line with its newline. -/
def IsLine (s : List Byte) : Prop := ∃ l, s = l ++ bytes "\n" ∧ '\n'.toUInt8 ∉ l

/-- In front of this text, the search for the end of the line goes over `k` bytes; none when there is no
newline. -/
def PastBy (k : ℕ) (text : List Byte) : Prop :=
  ∀ {p : Preprocessor} {pre : List Byte}, At p pre text → p.pastFound (p.findNext '\n') = p.bump k

/-- `#ifndef` in front of a name. -/
lemma ifndefArm_name {gap name : List Byte} {n k : ℕ} (h : At p pre (gap ++ (name ++ rest)))
    (hgap : ∀ c ∈ gap, isBlank c = true) (hne : name ≠ []) (hname : ∀ c ∈ name, isIdentChar c = true)
    (hrest : ∀ c ∈ rest.head?, isIdentChar c = false) (hpast : PastBy k rest) :
    p.ifndefArm (n + 1) = some (if !p.isDefined name
      then .taken (p.armState .Ifndef (gap.length + name.length + k) (armFlags true :: p.branchFlags))
      else .skipped (p.armState .Ifndef (gap.length + name.length + k)
        (armFlags false :: p.branchFlags))) := by
  have hat : At (p.setActive .Ifndef) pre (gap ++ (name ++ rest)) := h.congr rfl rfl
  set p' := p.setActive .Ifndef with hp'
  have hol : p'.ol = p'.bump gap.length := by
    refine hat.ol hgap fun e he => ?_
    rw [List.head?_append_of_ne_nil _ hne] at he
    exact isIdentChar_not_blank (hname e (List.mem_of_head? he))
  have hskip := hat.bump.skipIdent hname hrest
  have hread := hat.bump.bump.read_from
  rw [← hat.bump.cursor] at hread
  have heval := evalCondition_name (n := n)
    (p := ((p'.bump gap.length).bump name.length).bump k) rfl hread hne hname
  rw [ifndefArm]
  simp only [← hp', hol, hskip, hpast hat.bump.bump, heval, Option.map_some]
  rw [bump_bump, bump_bump, ← Nat.add_assoc]
  have hdef : ∀ k, (p'.bump k).isDefined name = p.isDefined name := fun _ => rfl
  rw [hdef]
  cases p.isDefined name <;> rfl

lemma pastFound_line {line : List Byte} (hline : IsLine line) : PastBy line.length (line ++ post) := by
  intro p pre h
  obtain ⟨l, rfl, hl⟩ := hline
  have hat : At p pre (l ++ '\n'.toUInt8 :: post) := by simpa [bytes] using h
  rw [hat.pastFound hl]
  simp [bytes]

lemma isLine_blanks (b : Blanks) : IsLine b.line := ⟨b.s, rfl, isBlank_not_newline b.blank⟩

lemma moved_active (p : Preprocessor) (n : ℕ) (active : MacroType) :
    Moved p ((p.bump n).setActive active) n [] :=
  ⟨rfl, rfl, rfl, (List.append_nil _).symm⟩

/-- The state behind the word of a directive. -/
lemma at_active {s : List Byte} (active : MacroType) (h : At p pre (s ++ post)) :
    At ((p.bump s.length).setActive active) (pre ++ s) post := h.bump.congr rfl rfl

/-- The state behind an `#ifndef` and the `n` bytes of its line. -/
def behindIfndef (p : Preprocessor) (name : List Byte) (n : ℕ) : Preprocessor :=
  p.armState .Ifndef ((bytes "#ifndef").length + n) (armFlags (!p.isDefined name) :: p.branchFlags)

lemma step_ifndef (disk : Disk) {gap name : List Byte} {k : ℕ}
    (h : At p pre (bytes "#ifndef" ++ (gap ++ (name ++ rest))))
    (hd : Directive (bytes "#ifndef") (gap ++ (name ++ rest))) (hgap : ∀ c ∈ gap, isBlank c = true)
    (hne : name ≠ []) (hname : ∀ c ∈ name, isIdentChar c = true)
    (hrest : ∀ c ∈ rest.head?, isIdentChar c = false) (hpast : PastBy k rest) (n : ℕ) :
    p.step disk (n + 1) = afterDirective (enterArm
      (if !p.isDefined name then .taken (p.behindIfndef name (gap.length + name.length + k))
        else .skipped (p.behindIfndef name (gap.length + name.length + k)))) := by
  have hat := at_active .Ifndef h
  have harm : processDirective disk (n + 1) .Ifndef
      ((p.bump (bytes "#ifndef").length).setActive .Ifndef) = _ :=
    congrArg (Option.map enterArm) (ifndefArm_name (n := n) hat hgap hne hname hrest hpast)
  have hdef : ((p.bump (bytes "#ifndef").length).setActive .Ifndef).isDefined name =
    p.isDefined name := rfl
  rw [step_directive disk (n + 1) h hd, show macroHashMatch (bytes "#ifndef") = .Ifndef from rfl, harm,
    hdef, armState_bump, armState_bump, behindIfndef]
  cases p.isDefined name <;> rfl

/-- A step at the opening of a group. -/
lemma step_opener (disk : Disk) {o : Opener} (h : At p pre (o.word ++ (o.line ++ post))) :
    ∃ q, Moved p q (o.word ++ o.line).length [] ∧
      q.branchFlags = armFlags (o.holds p.isDefined) :: p.branchFlags ∧
      ∀ n, p.step disk (n + 1) =
        afterDirective (enterArm (if o.holds p.isDefined then .taken q else .skipped q)) := by
  have hd : Directive o.word (o.line ++ post) := directive_opener o
  rw [List.length_append]
  cases o with
  | If c =>
      have hat := at_active .If h
      refine ⟨_, (moved_active p _ .If).trans (armState_moved _ .If c.line.length
        (armFlags c.lit.holds :: p.branchFlags)), rfl, fun n => ?_⟩
      have harm : processDirective disk (n + 1) .If
          ((p.bump (Opener.If c).word.length).setActive .If) = _ :=
        congrArg (Option.map enterArm) (ifArm_line (n := n) hat)
      rw [step_directive disk (n + 1) h hd, show macroHashMatch (Opener.If c).word = .If from rfl, harm]
      cases hc : c.lit.holds <;> simp [Opener.holds, hc] <;> rfl
  | Ifndef c =>
      have hline : c.line ++ post = c.gap.s ++ (c.name ++ (c.trail.line ++ post)) := by simp [NameLine.line]
      have hlength : c.line.length = c.gap.s.length + c.name.length + c.trail.line.length := by
        simp [NameLine.line, Nat.add_assoc]
      rw [Opener.line, hline] at h hd
      rw [Opener.line, hlength]
      refine ⟨_, armState_moved p .Ifndef _ _, rfl, fun n => ?_⟩
      exact step_ifndef disk h hd c.gap.blank c.name_ne c.name_ident
        (fun d hd => (isSpace_inert (head_blanks_line c.trail d hd)).2)
        (pastFound_line (isLine_blanks c.trail)) n

/-! ## The passage over what is skipped -/

lemma blanks_line_inert (b : Blanks) : ∀ c ∈ b.line, Inert c := by
  intro c hc
  rcases List.mem_append.mp hc with hc | hc
  · exact (isSpace_inert (isBlank_isSpace (b.blank c hc))).1
  · rw [List.mem_singleton.mp hc]
    decide

lemma condLine_inert (d : CondLine) : ∀ c ∈ d.line, Inert c := by
  intro c hc
  simp only [CondLine.line, List.mem_append] at hc
  rcases hc with hc | hc | hc
  · exact (isSpace_inert (isBlank_isSpace (d.gap.blank c hc))).1
  · exact isIdentChar_other (d.lit.text_ident c hc)
  · exact blanks_line_inert d.trail c hc

lemma opener_line_inert (o : Opener) : ∀ c ∈ o.line, Inert c := by
  cases o with
  | If d => exact condLine_inert d
  | Ifndef d =>
      intro c hc
      simp only [Opener.line, NameLine.line, List.mem_append] at hc
      rcases hc with hc | hc | hc
      · exact (isSpace_inert (isBlank_isSpace (d.gap.blank c hc))).1
      · exact isIdentChar_other (d.name_ident c hc)
      · exact blanks_line_inert d.trail c hc

/-- The skipping loop passes over the text `a`, with the nesting counter going from `k` to `j`. -/
def Passes (k j : ℕ) (a : List Byte) (p : Preprocessor) : Prop :=
  Skips { nestCount := k, p } { nestCount := j, p := p.bump a.length }

variable {k j i : ℕ} {a b : List Byte}

lemma Passes.append (ha : Passes k j a p) (hb : Passes j i b (p.bump a.length)) :
    Passes k i (a ++ b) p := by
  rw [Passes, bump_bump, ← List.length_append] at hb
  exact Skips.trans ha hb

lemma passes_inert (h : At p pre (a ++ post)) (ha : ∀ c ∈ a, Inert c) (hk : k ≠ 0) :
    Passes k k a p := skips_quiet h (.of_inert ha) hk

mutual

/-- Whole groups do not change the nesting counter. -/
lemma Source.passes : ∀ (s : Source) {p : Preprocessor} {pre post : List Byte} {k : ℕ},
    At p pre (s.text ++ post) → k ≠ 0 → k + s.depth < 2 ^ 16 → Passes k k s.text p
  | .Done, p, _, _, k, _, _, _ => by
      rw [Source.text, Passes, List.length_nil, bump_zero]
      exact .refl _
  | .Text t rest, p, _, _, k, h, hk, hdepth => by
      rw [Source.text, List.append_assoc] at h
      rw [Source.depth] at hdepth
      have ht : Passes k k t.text p := skips_quiet h t.quiet hk
      exact ht.append (rest.passes h.bump hk hdepth)
  | .Group o body arms rest, p, _, _, k, h, hk, hdepth => by
      simp only [Source.text, List.append_assoc] at h
      rw [Source.depth] at hdepth
      have hmod : (k + 1) % 2 ^ 16 = k + 1 := Nat.mod_eq_of_lt (by omega)
      have hopen : Passes k ((k + 1) % 2 ^ 16) o.word p :=
        skips_open h (directive_opener o) hk (macroHashMatch_opener o)
      rw [hmod] at hopen
      have hline := passes_inert h.bump (opener_line_inert o) (Nat.succ_ne_zero k)
      have hbody := body.passes h.bump.bump (Nat.succ_ne_zero k) (by omega)
      have harms := arms.passes h.bump.bump.bump hk (by omega)
      have hrest := rest.passes h.bump.bump.bump.bump hk (by omega)
      exact hopen.append (hline.append (hbody.append (harms.append hrest)))

/-- The further arms of a nested group close it. -/
lemma Arms.passes : ∀ (arms : Arms) {p : Preprocessor} {pre post : List Byte} {k : ℕ},
    At p pre (arms.text ++ post) → k ≠ 0 → k + 1 + arms.depth < 2 ^ 16 →
      Passes (k + 1) k arms.text p
  | .Endif e, p, _, _, k, h, hk, _ => by
      simp only [Arms.text, List.append_assoc] at h
      have hend : Passes (k + 1) k (bytes "#endif") p := skips_close h (directive_endif e) hk rfl
      exact hend.append (passes_inert h.bump (blanks_line_inert e) hk)
  | .Else b body e, p, _, _, k, h, hk, hdepth => by
      simp only [Arms.text, List.append_assoc] at h
      rw [Arms.depth] at hdepth
      have helse : Passes (k + 1) (k + 1) (bytes "#else") p :=
        skips_inner_arm h (directive_else b) hk (.inr rfl)
      have hline := passes_inert h.bump (blanks_line_inert b) (Nat.succ_ne_zero k)
      have hbody := body.passes h.bump.bump (Nat.succ_ne_zero k) hdepth
      have hend : Passes (k + 1) k (bytes "#endif") _ :=
        skips_close h.bump.bump.bump (directive_endif e) hk rfl
      have hlast := passes_inert h.bump.bump.bump.bump (blanks_line_inert e) hk
      exact helse.append (hline.append (hbody.append (hend.append hlast)))
  | .Elif c body arms, p, _, _, k, h, hk, hdepth => by
      simp only [Arms.text, List.append_assoc] at h
      rw [Arms.depth] at hdepth
      have helif : Passes (k + 1) (k + 1) (bytes "#elif") p :=
        skips_inner_arm h (directive_elif c) hk (.inl rfl)
      have hline := passes_inert h.bump (condLine_inert c) (Nat.succ_ne_zero k)
      have hbody := body.passes h.bump.bump (Nat.succ_ne_zero k) (by omega)
      have harms := arms.passes h.bump.bump.bump hk (by omega)
      exact helif.append (hline.append (hbody.append harms))

end

lemma isLine_condLine (c : CondLine) : IsLine c.line := by
  refine ⟨c.gap.s ++ (c.lit.text ++ c.trail.s), by simp [CondLine.line, Blanks.line], ?_⟩
  simp [isBlank_not_newline c.gap.blank, isBlank_not_newline c.trail.blank,
    isIdentChar_not_newline c.lit.text_ident]

/-- A further arm of the group itself is passed with its line, when an arm has been taken. -/
lemma passes_own_arm {s line : List Byte} (h : At p pre (s ++ (line ++ post)))
    (hd : Directive s (line ++ post)) (hline : IsLine line) (htaken : p.everTaken = true)
    (hs : macroHashMatch s = .Elif ∨ macroHashMatch s = .Else) : Passes 1 1 (s ++ line) p := by
  obtain ⟨l, rfl, hl⟩ := hline
  rw [List.append_assoc] at h hd
  have hpass := skips_own_arm hd h hl hs htaken
  rw [Passes]
  simpa [bytes] using hpass

/-- Behind an arm that was taken, everything up to the `#endif` of the group is passed. -/
lemma Arms.passes_taken : ∀ (arms : Arms) {p : Preprocessor} {pre post : List Byte},
    At p pre (arms.text ++ post) → p.everTaken = true → 1 + arms.depth < 2 ^ 16 →
      ∃ (a : List Byte) (e : Blanks), arms.text = a ++ (bytes "#endif" ++ e.line) ∧ Passes 1 1 a p
  | .Endif e, p, _, _, _, _, _ => by
      refine ⟨[], e, rfl, ?_⟩
      rw [Passes, List.length_nil, bump_zero]
      exact .refl _
  | .Else b body e, p, _, _, h, htaken, hdepth => by
      simp only [Arms.text, List.append_assoc] at h
      rw [Arms.depth] at hdepth
      have helse := passes_own_arm h (directive_else b) (isLine_blanks b) htaken (.inr rfl)
      rw [← List.append_assoc] at h
      have hbody := body.passes h.bump Nat.one_ne_zero hdepth
      exact ⟨_, e, by simp [Arms.text], helse.append hbody⟩
  | .Elif c body arms, p, _, _, h, htaken, hdepth => by
      simp only [Arms.text, List.append_assoc] at h
      rw [Arms.depth] at hdepth
      have helif := passes_own_arm h (directive_elif c) (isLine_condLine c) htaken (.inl rfl)
      rw [← List.append_assoc] at h
      have hbody := body.passes h.bump Nat.one_ne_zero (by omega)
      obtain ⟨a, e, heq, harms⟩ := arms.passes_taken h.bump.bump htaken (by omega)
      exact ⟨_, e, by simp [Arms.text, heq], helif.append (hbody.append harms)⟩

/-- The rest of the line is passed over. -/
lemma endBranching_line {line : List Byte} (h : At p pre (line ++ post)) (hline : IsLine line) :
    endBranching p = (0, p.bump line.length) := by
  obtain ⟨l, rfl, hl⟩ := hline
  have hat : At p pre (l ++ '\n'.toUInt8 :: post) := by simpa [bytes] using h
  rw [endBranching, hat.findNext hl]
  simp [Preprocessor.bump, bytes, Nat.add_assoc]

lemma skipIfBranch_of_stops {result : Preprocessor} {d : MacroType} {hash : ℕ}
    (h : Stops { nestCount := 1, p } (.found d hash, result)) (hd : d ≠ .Elif) :
    p.skipIfBranch = endBranching result := by
  rw [skipIfBranch, skipScan_eq h]
  cases d <;> first | rfl | exact absurd rfl hd

/-- A skip that comes to the `#endif` of its group goes on behind its line. -/
lemma skipIfBranch_endif {e : Blanks} (hpass : Passes 1 1 a p)
    (h : At p pre (a ++ (bytes "#endif" ++ (e.line ++ post)))) :
    p.skipIfBranch = (0, p.bump (a ++ (bytes "#endif" ++ e.line)).length) := by
  have hstop := Stops.of_skips hpass (stops_endif h.bump (directive_endif e) rfl)
  rw [skipIfBranch_of_stops hstop (by decide), endBranching_line h.bump.bump (isLine_blanks e)]
  simp [bump_bump, Nat.add_assoc]

/-- A skip that comes to the `#else` of its group, when no arm has been taken, goes on behind its
line. -/
lemma skipIfBranch_else {b : Blanks} (hpass : Passes 1 1 a p)
    (h : At p pre (a ++ (bytes "#else" ++ (b.line ++ post)))) (htaken : p.everTaken = false) :
    p.skipIfBranch = (0, p.bump (a ++ (bytes "#else" ++ b.line)).length) := by
  have hstop := Stops.of_skips hpass (stops_arm h.bump (directive_else b) (.inr rfl) htaken)
  rw [show macroHashMatch (bytes "#else") = .Else from rfl] at hstop
  rw [skipIfBranch_of_stops hstop (by decide), endBranching_line h.bump.bump (isLine_blanks b)]
  simp [bump_bump, Nat.add_assoc]

/-! ## The steps over the further arms -/

lemma step_endif (disk : Disk) {f : UInt8} {flags : List UInt8} {k : ℕ}
    (h : At p pre (bytes "#endif" ++ rest)) (hd : Directive (bytes "#endif") rest) (hpast : PastBy k rest)
    (hflags : p.branchFlags = f :: flags) :
    ∃ q, Steps disk p q ∧ Moved p q ((bytes "#endif").length + k) [] ∧ q.branchFlags = flags := by
  have hat : At ((p.bump (bytes "#endif").length).setActive .Endif) (pre ++ bytes "#endif") rest :=
    at_active .Endif h
  set p' := (p.bump (bytes "#endif").length).setActive .Endif with hp'
  have hpop : At { p' with branchFlags := p'.branchFlags.tail } (pre ++ bytes "#endif") rest :=
    hat.congr rfl rfl
  have hend : p'.handleEndif = (0, { p' with branchFlags := p'.branchFlags.tail }.bump k) := by
    have hne : p'.branchFlags ≠ [] := by
      rw [show p'.branchFlags = p.branchFlags from rfl, hflags]
      simp
    rw [handleEndif, if_neg hne]
    simp only [hpast hpop]
  refine ⟨{ p' with branchFlags := p'.branchFlags.tail }.bump k, .of_forall fun n => ?_, ?_, ?_⟩
  · rw [step_directive disk n h hd]
    show afterDirective p'.handleEndif = _
    rw [hend]
    rfl
  · have hpop' : Moved p { p' with branchFlags := p'.branchFlags.tail } (bytes "#endif").length [] :=
      ⟨rfl, rfl, rfl, (List.append_nil _).symm⟩
    exact hpop'.trans_bump _
  · show p'.branchFlags.tail = flags
    rw [show p'.branchFlags = p.branchFlags from rfl, hflags, List.tail_cons]

/-- The flag of an arm that was taken stays when another one is left. -/
lemma everTaken_clearActive (h : p.everTaken = true) : p.clearActive.everTaken = true := by
  have hbits : ∀ f : UInt8,
      (f &&& ~~~BranchState.active) &&& BranchState.everTaken = f &&& BranchState.everTaken := by
    intro f
    rw [UInt8.and_assoc]
    rfl
  simp only [everTaken, clearActive, topFlags, setTopFlags, List.headD_cons, hbits]
  exact h

lemma Moved.clearActive {n : ℕ} {s : List Byte} (h : Moved p q n s) : Moved p q.clearActive n s :=
  ⟨h.fileMgr, h.storedMacros, h.inputStack, h.outputBuffer⟩

/-- A directive whose handler decides to skip, and the skip behind it. -/
lemma steps_skipped {s : List Byte} {r : Preprocessor} {m : ℕ} (h : At p pre (s ++ rest))
    (hd : Directive s rest) (hskip : r.skipIfBranch = (0, r.bump m))
    (harm : ∀ n, processDirective disk n (macroHashMatch s)
      ((p.bump s.length).setActive (macroHashMatch s)) = some (enterArm (.skipped r))) :
    Steps disk p (r.bump m) := by
  refine .of_forall fun n => ?_
  rw [step_directive disk n h hd, harm n, enterArm, hskip]
  rfl

/-- An `#else` or `#elif` behind an arm that was taken: the rest of the group is skipped, and its
flags stay. -/
lemma step_arms_taken (disk : Disk) {arms : Arms} {f : UInt8} {flags : List UInt8}
    (hne : ∀ e, arms ≠ .Endif e) (h : At p pre (arms.text ++ post))
    (hflags : p.branchFlags = f :: flags) (htaken : p.everTaken = true)
    (hdepth : 1 + arms.depth < 2 ^ 16) :
    ∃ q, Steps disk p q ∧ Moved p q arms.text.length [] ∧
      q.branchFlags = (f &&& ~~~BranchState.active) :: flags := by
  have hclear : ∀ r : Preprocessor, r.branchFlags = p.branchFlags →
      r.clearActive.branchFlags = (f &&& ~~~BranchState.active) :: flags := by
    intro r hr
    rw [clearActive, setTopFlags, topFlags, hr, hflags]
    rfl
  have hnonempty : ∀ r : Preprocessor, r.branchFlags = p.branchFlags → r.branchFlags ≠ [] := by
    intro r hr
    rw [hr, hflags]
    simp
  cases arms with
  | Endif e => exact absurd rfl (hne e)
  | Else b body e =>
      simp only [Arms.text, List.append_assoc] at h
      rw [Arms.depth] at hdepth
      have hat := at_active .Else h
      set p' := (p.bump (bytes "#else").length).setActive .Else
      have hbody : At (p'.bump b.line.length).clearActive ((pre ++ bytes "#else") ++ b.line)
          (body.text ++ (bytes "#endif" ++ (e.line ++ post))) := hat.bump.congr rfl rfl
      have hskip := skipIfBranch_endif (body.passes hbody Nat.one_ne_zero hdepth) hbody
      have harm : p'.elseArm = .skipped (p'.bump b.line.length).clearActive := by
        have htaken' : (p'.bump b.line.length).everTaken = true := htaken
        rw [elseArm, if_neg (hnonempty p' rfl)]
        simp only [pastFound_line (isLine_blanks b) hat, htaken', if_true]
      refine ⟨_, steps_skipped h (directive_else b) hskip fun n => ?_, ?_, hclear _ rfl⟩
      · show some (enterArm p'.elseArm) = _
        rw [harm]
      · have hmove : Moved p (p'.bump b.line.length).clearActive
            ((bytes "#else").length + b.line.length) [] :=
          ((moved_active p _ .Else).trans_bump _).clearActive
        have hmove' := hmove.trans_bump (body.text ++ (bytes "#endif" ++ e.line)).length
        simpa [Arms.text, Nat.add_assoc] using hmove'
  | Elif c body arms =>
      simp only [Arms.text, List.append_assoc] at h
      rw [Arms.depth] at hdepth
      have hat := at_active .Elif h
      set p' := (p.bump (bytes "#elif").length).setActive .Elif
      have hline : At p'.clearActive (pre ++ bytes "#elif")
          (c.line ++ (body.text ++ (arms.text ++ post))) := hat.congr rfl rfl
      have htaken' : p'.clearActive.everTaken = true := everTaken_clearActive htaken
      obtain ⟨a, e, heq, harms⟩ := arms.passes_taken hline.bump.bump htaken' (by omega)
      have hpass := (passes_inert hline (condLine_inert c) Nat.one_ne_zero).append
        ((body.passes hline.bump Nat.one_ne_zero (by omega)).append harms)
      have hend : At p'.clearActive (pre ++ bytes "#elif")
          ((c.line ++ (body.text ++ a)) ++ (bytes "#endif" ++ (e.line ++ post))) := by
        rw [heq] at hline
        simpa using hline
      have hskip := skipIfBranch_endif hpass hend
      have harm : ∀ n, p'.elifArm n = some (.skipped p'.clearActive) := by
        intro n
        have htaken'' : (p'.setActive .Elif).everTaken = true := htaken
        rw [elifArm, if_neg (hnonempty p' rfl)]
        simp only [htaken'', if_true]
        rfl
      refine ⟨_, steps_skipped h (directive_elif c) hskip fun n => ?_, ?_, hclear _ rfl⟩
      · show (p'.elifArm n).map enterArm = _
        rw [harm, Option.map_some]
      · have hmove : Moved p p'.clearActive (bytes "#elif").length [] :=
          (moved_active p _ .Elif).clearActive
        have hmove' := hmove.trans_bump
          ((c.line ++ (body.text ++ a)) ++ (bytes "#endif" ++ e.line)).length
        simpa [Arms.text, heq, Nat.add_assoc] using hmove'

/-! ## The run over a clean source -/

/-- What the flags say: for each group, whether an arm was taken. -/
def takenFlags (flags : List UInt8) : List Bool := flags.map fun f => f &&& BranchState.everTaken != 0

lemma everTaken_eq {f : UInt8} {flags : List UInt8} (h : p.branchFlags = f :: flags) :
    p.everTaken = (f &&& BranchState.everTaken != 0) := by
  rw [everTaken, topFlags, h, List.headD_cons]

lemma takenFlags_clear (f : UInt8) (flags : List UInt8) :
    takenFlags ((f &&& ~~~BranchState.active) :: flags) = takenFlags (f :: flags) := by
  have hbits : (f &&& ~~~BranchState.active) &&& BranchState.everTaken
      = f &&& BranchState.everTaken := by
    rw [UInt8.and_assoc]
    rfl
  rw [takenFlags, List.map_cons, hbits]
  rfl

/-- The flags of a new group say whether its first arm is taken. -/
lemma takenFlags_armFlags (taken : Bool) (flags : List UInt8) :
    takenFlags (armFlags taken :: flags) = taken :: takenFlags flags := by
  cases taken <;> rfl

lemma Moved.expand {n : ℕ} {s : List Byte} (h : Moved p q n s) :
    TextLine.expand q = TextLine.expand p := by
  funext t
  rw [TextLine.expand, TextLine.expand, expand_congr h.fileMgr h.storedMacros]

/-- The step over the further arms of a group whose first arm was taken. -/
lemma Arms.steps_taken (disk : Disk) {arms : Arms} {l l' : List Bool}
    (h : At p pre (arms.text ++ post)) (hflags : takenFlags p.branchFlags = l ++ l') (hl : l ≠ [])
    (hskip : arms.skippable l = true) :
    ∃ q, Steps disk p q ∧ Moved p q arms.text.length [] ∧
      takenFlags q.branchFlags = arms.closeTaken l ++ l' := by
  obtain ⟨b, l, rfl⟩ := List.exists_cons_of_ne_nil hl
  obtain ⟨f, flags, hpf, hb, hfs⟩ := List.map_eq_cons_iff.mp hflags
  have hskipped : (∀ e, arms ≠ .Endif e) → b = true → 1 + arms.depth < 2 ^ 16 →
      ∃ q, Steps disk p q ∧ Moved p q arms.text.length [] ∧
        takenFlags q.branchFlags = b :: (l ++ l') := by
    intro hne htrue hdepth
    have htaken : p.everTaken = true := by rw [everTaken_eq hpf, hb, htrue]
    obtain ⟨q, hstep, hmove, hq⟩ := step_arms_taken disk hne h hpf htaken hdepth
    exact ⟨q, hstep, hmove, by rw [hq, takenFlags_clear, ← hpf]; exact hflags⟩
  cases arms with
  | Endif e =>
      rw [Arms.text, List.append_assoc] at h
      obtain ⟨q, hstep, hmove, hq⟩ :=
        step_endif disk h (directive_endif e) (pastFound_line (isLine_blanks e)) hpf
      exact ⟨q, hstep, by rwa [Arms.text, List.length_append], by rw [hq]; exact hfs⟩
  | Else b' body e =>
      simp only [Arms.skippable, List.headD_cons, Bool.and_eq_true, decide_eq_true_eq] at hskip
      exact hskipped (by simp) hskip.1 (by omega)
  | Elif c body arms =>
      simp only [Arms.skippable, List.headD_cons, Bool.and_eq_true, decide_eq_true_eq] at hskip
      exact hskipped (by simp) hskip.1 (by omega)

/-- A step that needs some fuel. -/
lemma Steps.of_succ (h : ∀ n, p.step disk (n + 1) = .next q) : Steps disk p q := by
  refine ⟨1, fun n hn => ?_⟩
  obtain ⟨m, rfl⟩ : ∃ m, n = m + 1 := ⟨n - 1, by omega⟩
  exact h m

mutual

/-- The run over a clean source emits the selected lines; the flags it leaves behind are those of
the groups that are closed inside a skip. -/
lemma Source.runs (disk : Disk) : ∀ (s : Source) {p : Preprocessor} {pre post : List Byte},
    At p pre (s.text ++ post) → s.clean p.isDefined = true →
      ∃ q, Runs disk p q ∧
        Moved p q s.text.length ((s.selected p.isDefined).flatMap (TextLine.expand p)) ∧
        takenFlags q.branchFlags = s.leftover p.isDefined ++ takenFlags p.branchFlags
  | .Done, p, _, _, _, _ => by
      refine ⟨p, .refl, ?_, rfl⟩
      simpa [Source.text, Source.selected] using Moved.bump p 0
  | .Text t rest, p, _, _, h, hclean => by
      rw [Source.text, List.append_assoc] at h
      have hline := runs_segmented disk t.segmented_append t.hashFree h
      have hmove : Moved p ((p.bump t.text.length).emit (t.expand p)) t.text.length (t.expand p) :=
        ⟨rfl, rfl, rfl, rfl⟩
      obtain ⟨q, hrun, hmove', hflags⟩ := rest.runs disk (hmove.at_end h) hclean
      refine ⟨q, hline.trans hrun, ?_, hflags⟩
      have hall := hmove.trans hmove'
      rw [hmove.expand, hmove.isDefined] at hall
      simpa [Source.text, Source.selected] using hall
  | .Group o body arms rest, p, _, _, h, hclean => by
      simp only [Source.text, List.append_assoc] at h
      obtain ⟨q₀, hmove₀, hflags₀, hstep₀⟩ := step_opener disk h
      have hat₀ := hmove₀.at_end (by simpa using h)
      rw [Source.clean, Bool.and_eq_true] at hclean
      -- the group itself; what stands behind it follows by the induction
      have hgroup : ∃ q₁, Runs disk p q₁ ∧
          Moved p q₁ (o.word ++ (o.line ++ (body.text ++ arms.text))).length
            ((if o.holds p.isDefined then body.selected p.isDefined
              else arms.selected p.isDefined).flatMap (TextLine.expand p)) ∧
          takenFlags q₁.branchFlags =
            (if o.holds p.isDefined then arms.closeTaken (body.leftover p.isDefined ++ [true])
              else arms.leftover p.isDefined) ++ takenFlags p.branchFlags := by
        cases hold : o.holds p.isDefined with
        | true =>
            simp only [hold, if_true, Bool.and_eq_true] at hclean hstep₀ hflags₀ ⊢
            have hopen : Steps disk p q₀ := .of_succ hstep₀
            obtain ⟨q, hrun, hmove, hflags⟩ :=
              body.runs disk hat₀ (by rw [hmove₀.isDefined]; exact hclean.1.1)
            rw [hflags₀, takenFlags_armFlags, hmove₀.isDefined, ← List.singleton_append,
              ← List.append_assoc] at hflags
            obtain ⟨q₁, hstep, hmove₁, hflags₁⟩ :=
              Arms.steps_taken disk (hmove.at_end hat₀) hflags (by simp) hclean.1.2
            refine ⟨q₁, (Relation.ReflTransGen.head hopen hrun).tail hstep, ?_, hflags₁⟩
            have hall := (hmove₀.trans hmove).trans hmove₁
            rw [hmove₀.expand, hmove₀.isDefined] at hall
            simpa [Nat.add_assoc] using hall
        | false =>
            simp only [hold, Bool.false_eq_true, if_false, Bool.and_eq_true, decide_eq_true_eq]
              at hclean hstep₀ hflags₀ ⊢
            have hpass := body.passes hat₀ Nat.one_ne_zero (by omega)
            obtain ⟨q', q, hskip, hrun, hmove, hflags⟩ :=
              arms.runs disk hat₀ hpass hflags₀ (by rw [hmove₀.isDefined]; exact hclean.1.2)
            have hopen : Steps disk p q' := .of_succ fun n => by
              rw [hstep₀, enterArm, hskip]
              rfl
            rw [hmove₀.isDefined] at hflags
            refine ⟨q, Relation.ReflTransGen.head hopen hrun, ?_, hflags⟩
            have hall := hmove₀.trans hmove
            rw [hmove₀.expand, hmove₀.isDefined] at hall
            simpa [Nat.add_assoc] using hall
      obtain ⟨q₁, hrun₁, hmove₁, hflags₁⟩ := hgroup
      obtain ⟨q, hrun, hmove, hflags⟩ := rest.runs disk (hmove₁.at_end (by simpa using h))
        (by rw [hmove₁.isDefined]; exact hclean.2)
      refine ⟨q, hrun₁.trans hrun, ?_, ?_⟩
      · have hall := hmove₁.trans hmove
        rw [hmove₁.expand, hmove₁.isDefined] at hall
        simpa [Source.text, Source.selected, Nat.add_assoc] using hall
      · rw [hflags, hflags₁, hmove₁.isDefined, Source.leftover, List.append_assoc]

/-- The run over the further arms of a group whose first arm is skipped: the skip comes out of
that arm and goes on to the `#endif` or behind the `#else`. -/
lemma Arms.runs (disk : Disk) : ∀ (arms : Arms) {p : Preprocessor} {pre post a : List Byte}
    {flags : List UInt8},
    At p pre (a ++ (arms.text ++ post)) → Passes 1 1 a p → p.branchFlags = 0 :: flags →
    arms.clean p.isDefined = true →
      ∃ q' q, p.skipIfBranch = (0, q') ∧ Runs disk q' q ∧
        Moved p q (a ++ arms.text).length
          ((arms.selected p.isDefined).flatMap (TextLine.expand p)) ∧
        takenFlags q.branchFlags = arms.leftover p.isDefined ++ takenFlags flags
  | .Endif e, p, _, _, a, _, h, hpass, hflags, _ => by
      simp only [Arms.text, List.append_assoc] at h
      refine ⟨_, _, skipIfBranch_endif hpass h, .refl, Moved.bump p _, ?_⟩
      show takenFlags p.branchFlags = _
      rw [hflags]
      rfl
  | .Else b body e, p, pre, post, a, flags, h, hpass, hflags, hclean => by
      simp only [Arms.text, List.append_assoc] at h
      have htaken : p.everTaken = false := by rw [everTaken_eq hflags]; rfl
      have hskip := skipIfBranch_else hpass h htaken
      have hmove := Moved.bump p (a ++ (bytes "#else" ++ b.line)).length
      have hat := hmove.at_end (by simpa using h)
      obtain ⟨q, hrun, hmove', hq⟩ := body.runs disk hat hclean
      -- the flags of this group lie below those the body has left
      have hzero : takenFlags ((p.bump (a ++ (bytes "#else" ++ b.line)).length).branchFlags) =
          [false] ++ takenFlags flags := by
        show takenFlags p.branchFlags = _
        rw [hflags]
        rfl
      rw [hzero, ← List.append_assoc] at hq
      have hend : At q (pre ++ (a ++ (bytes "#else" ++ b.line)) ++ body.text)
          ((Arms.Endif e).text ++ post) := by
        rw [Arms.text, List.append_assoc (bytes "#endif")]
        exact hmove'.at_end hat
      obtain ⟨q₁, hstep, hmove₁, hflags₁⟩ := Arms.steps_taken disk hend hq (by simp) rfl
      refine ⟨_, q₁, hskip, hrun.tail hstep, ?_, hflags₁⟩
      have hall := (hmove.trans hmove').trans hmove₁
      rw [hmove.expand, hmove.isDefined] at hall
      simpa [Arms.text, Arms.selected, Nat.add_assoc] using hall
  | .Elif c body arms, p, _, _, _, _, h, hpass, hflags, hclean => by
      exact absurd hclean (by simp [Arms.clean])

end

/-- What conditional compilation is to emit for a frame that holds a source. -/
def EmitsSelected (disk : Disk) (p : Preprocessor) (s : Source) : Prop :=
  ∃ q, Returns disk p (0, q) ∧ q.outputBuffer =
    p.outputBuffer ++ (s.selected p.isDefined).flatMap (TextLine.expand p)

/-- A clean source leaves exactly its selected lines. -/
theorem process_selects (disk : Disk) (p : Preprocessor) (s : Source) (h : Opens p s.text)
    (hclean : s.clean p.isDefined = true) : EmitsSelected disk p s := by
  have hat : At p [] (s.text ++ []) := by rw [List.append_nil]; exact h.at
  obtain ⟨q, hrun, hmove, -⟩ := s.runs disk hat hclean
  have hpop := step_pop disk (hmove.at_end hat)
  obtain ⟨⟨f, hstack, -⟩, -⟩ := h
  have hlast : q.inputStack.tail = [] := by
    rw [hmove.inputStack, Preprocessor.bump, setCursor_inputStack_tail, hstack, List.tail_cons]
  exact ⟨_, Returns.of_runs (hrun.tail hpop) (.of_finished hlast), hmove.outputBuffer⟩

/-! ## An `#elif` behind a skipped arm -/

section Samples

/-- One blank. -/
def blank : Blanks := ⟨bytes " ", by decide⟩

/-- No blank at all. -/
def noBlanks : Blanks := ⟨[], by decide⟩

/-- A condition behind one blank. -/
def condLine (lit : CondLiteral) : CondLine := ⟨blank, by decide, lit, noBlanks⟩

/-- The line `t`. -/
def textLine : TextLine where
  segs := [.ident (bytes "t"), .single '\n'.toUInt8]
  plain := by
    intro seg hseg
    rcases List.mem_pair.mp hseg with rfl | rfl
    · trivial
    · show '\n'.toUInt8 ≠ '#'.toUInt8
      decide
  segmented := by
    have hword : Word (bytes "t") (bytes "\n") := by
      refine ⟨by decide, by decide, fun c hc => ?_⟩
      cases Option.mem_def.mp hc
      decide
    exact .ident hword (.single ⟨by decide, by decide, not_startsComment (by decide)⟩ .nil)
  last := by
    intro c hc
    cases Option.mem_def.mp hc
    decide

/-- The lines `#if 0`, `#elif 1`, `t`, `#endif`. -/
def elifSource : Source :=
  .Group (.If (condLine .Zero)) .Done
    (.Elif (condLine .One) (.Text textLine .Done) (.Endif noBlanks)) .Done

/-- The same with `#else`. -/
def elseSource : Source :=
  .Group (.If (condLine .Zero)) .Done (.Else noBlanks (.Text textLine .Done) noBlanks) .Done

theorem process_selects_sample :
    EmitsSelected (fun _ => none) (ofText elseSource.text) elseSource :=
  process_selects _ _ _ (opens_ofText (by decide)) (by decide)

set_option maxRecDepth 4000 in
/-- The condition behind `#elif` is not evaluated but emitted. -/
theorem elif_emits_condition : Opens (ofText elifSource.text) elifSource.text ∧
    ¬ EmitsSelected (fun _ => none) (ofText elifSource.text) elifSource := by
  refine ⟨opens_ofText (by decide), ?_⟩
  rintro ⟨q, ⟨N, hN⟩, hout⟩
  have hrun : (process (fun _ => none) (N + 12) (ofText elifSource.text)).map
      (fun r => r.2.outputBuffer) = some (bytes " 1\nt\n") := rfl
  rw [hN (N + 12) (by omega), Option.map_some, hout] at hrun
  exact absurd (Option.some.inj hrun) (by decide)

end Samples

end Preprocessor

end LogicCompiler
