import LogicCompiler.Preproc.Conditionals

/-!
# Which unbalanced conditionals are rejected

Here a source is a flat sequence of lines, in which the directives need not fit together; the last one
may be without a newline.  It is well nested when it is the sequence of lines of a `Source`.

`Reader` is what the code keeps of the lines it has read: for each group on the flag stack whether
an arm was taken, and how deep the skip stands that is going on.  `Caught` names two places at
which the code looks for an error: a directive that needs a group while the stack is empty, and a
skip that meets the end of the text.  `Unfinished` is the third one: a condition without the end of its
line.  The run of `process` over lines ends in an error exactly when the source is caught or unfinished
(`consumesInput_iff`).
-/

namespace LogicCompiler

namespace Preprocessor

/-! ## Lines -/

/-- The lines of a source, on their own. -/
inductive Line where
  | Text (t : TextLine)
  | Open (o : Opener)
  | Elif (c : CondLine)
  | Else (b : Blanks)
  | Endif (e : Blanks)

/-- The text of a line. -/
def Line.text : Line → List Byte
  | Text t => t.text
  | Open o => o.word ++ o.line
  | Elif c => bytes "#elif" ++ c.line
  | Else b => bytes "#else" ++ b.line
  | Endif e => bytes "#endif" ++ e.line

/-- The text of a list of lines. -/
def linesText (lines : List Line) : List Byte := lines.flatMap Line.text

/-- The last line of a text that does not end with a newline. -/
def lastText (last : Option Line) : List Byte := (last.map fun l => l.text.dropLast).getD []

mutual

/-- The lines of a source. -/
def Source.lines : Source → List Line
  | .Done => []
  | .Text t rest => .Text t :: rest.lines
  | .Group o body arms rest => .Open o :: (body.lines ++ (arms.lines ++ rest.lines))

/-- The lines of the arms. -/
def Arms.lines : Arms → List Line
  | .Endif e => [.Endif e]
  | .Else b body e => .Else b :: (body.lines ++ [.Endif e])
  | .Elif c body arms => .Elif c :: (body.lines ++ arms.lines)

end

/-- The lines form groups: an opening line, any number of `#elif`, at most one `#else` placed
last, `#endif`. -/
def WellNested (lines : List Line) : Prop := ∃ s : Source, s.lines = lines

lemma linesText_cons (l : Line) (lines : List Line) :
    linesText (l :: lines) = l.text ++ linesText lines := rfl

lemma linesText_append (a b : List Line) : linesText (a ++ b) = linesText a ++ linesText b :=
  List.flatMap_append

mutual

lemma Source.text_lines : ∀ s : Source, linesText s.lines = s.text
  | .Done => rfl
  | .Text t rest => by
      rw [Source.lines, Source.text, linesText_cons, rest.text_lines]
      rfl
  | .Group o body arms rest => by
      simp only [Source.lines, Source.text, linesText_cons, linesText_append, body.text_lines,
        arms.text_lines, rest.text_lines, Line.text, List.append_assoc]

lemma Arms.text_lines : ∀ arms : Arms, linesText arms.lines = arms.text
  | .Endif e => by simp [Arms.lines, Arms.text, linesText, Line.text]
  | .Else b body e => by
      have hend : linesText [.Endif e] = bytes "#endif" ++ e.line := by
        simp [linesText, Line.text]
      simp only [Arms.lines, Arms.text, linesText_cons, linesText_append, body.text_lines, hend,
        Line.text, List.append_assoc]
  | .Elif c body arms => by
      simp only [Arms.lines, Arms.text, linesText_cons, linesText_append, body.text_lines,
        arms.text_lines, Line.text, List.append_assoc]

end

/-! ## What the code keeps of the lines it has read -/

/-- `taken` has one entry for each group on the flag stack, the innermost first.  `skipped` is the
counter of the skip that is going on, `0` outside skips. -/
structure Reader where
  taken : List Bool := []
  skipped : ℕ := 0
  deriving DecidableEq, Repr

/-- The directives that belong to a group that is open already. -/
def Line.needsGroup : Line → Bool
  | Elif _ | Else _ | Endif _ => true
  | Text _ | Open _ => false

section Reading

variable (defined : List Byte → Bool)

/-- Reading one line.  A skip comes to an end at the `#endif` of its group, whose flags stay, at
an `#else` or `#elif` of its group when no arm was taken, and when its counter wraps. -/
def Line.read : Line → Reader → Reader
  | Text _, r => r
  | Open o, ⟨taken, 0⟩ => ⟨o.holds defined :: taken, if o.holds defined then 0 else 1⟩
  | Open _, ⟨taken, k + 1⟩ => ⟨taken, (k + 2) % 2 ^ 16⟩
  | Elif c, ⟨taken, 0⟩ =>
      if taken.headD false then ⟨taken, 1⟩
      else ⟨c.lit.holds :: taken.tail, if c.lit.holds then 0 else 1⟩
  | Else _, ⟨taken, 0⟩ => ⟨true :: taken.tail, if taken.headD false then 1 else 0⟩
  | Elif _, ⟨taken, 1⟩ | Else _, ⟨taken, 1⟩ => ⟨taken, if taken.headD false then 1 else 0⟩
  | Elif _, r | Else _, r => r
  | Endif _, ⟨taken, 0⟩ => ⟨taken.tail, 0⟩
  | Endif _, ⟨taken, k + 1⟩ => ⟨taken, k⟩

/-- Two places at which the code looks for an error. -/
inductive Caught : Reader → List Line → Prop
  | stray {l : Line} {lines : List Line} (h : l.needsGroup = true) :
      Caught {} (l :: lines)
  | unclosed {r : Reader} (h : r.skipped ≠ 0) : Caught r []
  | later {r : Reader} {l : Line} {lines : List Line} (h : Caught (l.read defined r) lines) :
      Caught r (l :: lines)

/-- The directives with a condition, which goes to the end of their line. -/
def Line.hasCondition : Line → Bool
  | Open (.If _) | Elif _ => true
  | _ => false

/-- The third place: such a directive is read outside a skip, and its line has no end. -/
def Unfinished (r : Reader) (lines : List Line) (last : Option Line) : Prop :=
  last.any Line.hasCondition = true ∧ (lines.foldl (fun r l => l.read defined r) r).skipped = 0

instance (r : Reader) (lines : List Line) (last : Option Line) :
    Decidable (Unfinished defined r lines last) := inferInstanceAs (Decidable (_ ∧ _))

end Reading

variable {p q : Preprocessor} {pre post rest : List Byte} {disk : Disk} {defined : List Byte → Bool}

lemma caught_nil {r : Reader} : Caught defined r [] ↔ r.skipped ≠ 0 := by
  constructor
  · rintro ⟨⟩
    assumption
  · exact .unclosed

lemma caught_cons {r : Reader} {l : Line} {lines : List Line} :
    Caught defined r (l :: lines) ↔
      (l.needsGroup = true ∧ r = {}) ∨ Caught defined (l.read defined r) lines := by
  constructor
  · rintro ⟨⟩
    · exact .inl ⟨‹_›, rfl⟩
    · exact .inr ‹_›
  · rintro (⟨hl, rfl⟩ | h)
    · exact .stray hl
    · exact .later h

instance decidableCaught : ∀ (lines : List Line) (r : Reader), Decidable (Caught defined r lines)
  | [], _ => decidable_of_iff _ caught_nil.symm
  | l :: lines, r =>
      have := decidableCaught lines (l.read defined r)
      decidable_of_iff _ caught_cons.symm

/-! ## The end of a skip -/

/-- What `skip_if_branch` does when its loop has ended. -/
def resume : SkipStop × Preprocessor → ℤ × Preprocessor
  | (.found .Elif _, p) => (105102, p)
  | (.found _ _, p) => endBranching p
  | (.exhausted nestCount, p) => (if nestCount = 0 then 0 else -422, p)

lemma skipIfBranch_eq (p : Preprocessor) : p.skipIfBranch = resume p.skipScan := rfl

/-- `process` started in `p` ends, and with an error exactly when `caught` holds. -/
def Verdict (disk : Disk) (caught : Prop) (p : Preprocessor) : Prop :=
  ∃ result, Returns disk p result ∧ ((caught ∧ result.1 < 0) ∨ (¬ caught ∧ result.1 = 0))

/-- The same for a skip that has come to `p` with this nesting counter, and for the run behind
it. -/
def SkipVerdict (disk : Disk) (caught : Prop) (nestCount : ℕ) (p : Preprocessor) : Prop :=
  ∃ result, Stops { nestCount, p } result ∧ ((caught ∧ (resume result).1 < 0) ∨
    (0 ≤ (resume result).1 ∧ Verdict disk caught (resume result).2))

variable {caught : Prop} {k j : ℕ} {a : List Byte}

lemma Verdict.of_runs (hrun : Runs disk p q) (h : Verdict disk caught q) : Verdict disk caught p := by
  obtain ⟨result, hret, hcode⟩ := h
  exact ⟨result, hret.of_runs hrun, hcode⟩

lemma Returns.of_failed {code : ℤ} (h : ∀ n, p.step disk (n + 1) = .failed code q) :
    Returns disk p (code, q) := by
  refine ⟨2, fun n hn => ?_⟩
  obtain ⟨m, rfl⟩ : ∃ m, n = m + 2 := ⟨n - 2, by omega⟩
  rw [process, h]

/-- The run behind a directive that decides to skip. -/
lemma Verdict.of_skip (h : SkipVerdict disk caught 1 q)
    (hstep : ∀ n, p.step disk (n + 1) = afterDirective q.skipIfBranch) : Verdict disk caught p := by
  obtain ⟨result, hstop, hcode⟩ := h
  rw [skipIfBranch_eq, skipScan_eq hstop] at hstep
  rcases hresume : resume result with ⟨code, r⟩
  rw [hresume] at hstep hcode
  rcases hcode with ⟨hcaught, hneg⟩ | ⟨hpos, hrest⟩
  · have hfail : Returns disk p (code, r) := .of_failed fun n => by
      rw [hstep, afterDirective, if_pos hneg]
    exact ⟨_, hfail, .inl ⟨hcaught, hneg⟩⟩
  · have hnot : ¬ code < 0 := fun hneg => absurd (show 0 ≤ code from hpos) (by omega)
    have hnext : Steps disk p r := .of_succ fun n => by
      rw [hstep, afterDirective, if_neg hnot]
    exact hrest.of_runs (.single hnext)

lemma SkipVerdict.of_passes (hpass : Passes k j a p) (h : SkipVerdict disk caught j (p.bump a.length)) :
    SkipVerdict disk caught k p := by
  obtain ⟨result, hstop, hcode⟩ := h
  exact ⟨result, hstop.of_skips hpass, hcode⟩

/-- A skip whose counter has wrapped is over. -/
lemma SkipVerdict.of_wrapped (h : Verdict disk caught p) : SkipVerdict disk caught 0 p := by
  refine ⟨(.exhausted 0, p), fun n _ => ?_, .inr ⟨by simp [resume], h⟩⟩
  cases n with
  | zero => rfl
  | succ n => simp [SkipState.loop, skipLoop]

/-- A skip that meets the end of the frame. -/
lemma SkipVerdict.of_end (h : At p pre []) (hk : k ≠ 0) (hcaught : caught) :
    SkipVerdict disk caught k p := by
  refine ⟨(.exhausted k, p), fun n _ => ?_, .inl ⟨hcaught, ?_⟩⟩
  · cases n with
    | zero => rfl
    | succ n => simp [SkipState.loop, skipLoop, h.atEnd_nil]
  · simp [resume, hk]

/-! ## The rest of a directive line as text -/

/-- A line with its newline, or the end of the text without one. -/
def Ends (line post : List Byte) : Prop := IsLine line ∨ '\n'.toUInt8 ∉ line ∧ post = []

lemma exists_textLine_inert {line : List Byte} (hin : ∀ c ∈ line, Inert c) (hline : IsLine line) :
    ∃ t : TextLine, t.text = line := by
  have hslash : '/'.toUInt8 ∉ line := fun hm => (hin _ hm).2.2 rfl
  refine exists_textLine (fun c hc => (hin c hc).1) (fun hm => (hin _ hm).2.1 rfl)
    (fun hsub => hslash (hsub.subset (by decide))) (fun hsub => hslash (hsub.subset (by decide))) ?_
  obtain ⟨l, rfl, -⟩ := hline
  intro c hc
  rw [List.getLast?_append_of_ne_nil _ (by decide)] at hc
  cases Option.mem_def.mp hc
  decide

/-- The beginning of a plain text is plain. -/
lemma segmented_prefix {a b text : List Byte} {segs : List Segment} (h : Segmented [] text segs)
    (hplain : ∀ seg ∈ segs, seg.IsPlain) (htext : text = a ++ b) :
    ∃ segs', Segmented [] a segs' ∧ ∀ seg ∈ segs', seg.IsPlain := by
  induction h generalizing a with
  | nil =>
      obtain ⟨rfl, -⟩ := List.append_eq_nil_iff.mp htext.symm
      exact ⟨[], .nil, by simp⟩
  | @comment s => exact (hplain (.comment s) (by simp)).elim
  | @literal s => exact (hplain (.literal s) (by simp)).elim
  | @ident s r segs hw _ ih =>
      rcases List.append_eq_append_iff.mp htext with ⟨a', rfl, hr⟩ | ⟨s', rfl, -⟩
      · obtain ⟨segs', hsegs, hplain'⟩ := ih (fun seg hs => hplain seg (by simp [hs])) hr
        have hmaximal : ∀ c ∈ a'.head?, isIdentChar c = false := fun c hc =>
          hw.maximal c (by rw [hr, Option.mem_def, List.head?_append, Option.mem_def.mp hc]; rfl)
        exact ⟨.ident s :: segs', .ident ⟨hw.nonempty, hw.run, hmaximal⟩ hsegs,
          by simpa [Segment.IsPlain] using hplain'⟩
      · by_cases ha : a = []
        · exact ⟨[], ha ▸ .nil, by simp⟩
        · have hword : Word a [] := ⟨ha, fun c hc => hw.run c (List.mem_append_left _ hc), by simp⟩
          refine ⟨[.ident a], ?_, by simp [Segment.IsPlain]⟩
          have hnil : Segmented ([] : List Byte) [] [] := .nil
          simpa using Segmented.ident hword hnil
  | @single c r segs hs _ ih =>
      rcases a with _ | ⟨d, a⟩
      · exact ⟨[], .nil, by simp⟩
      obtain ⟨rfl, hr⟩ := List.cons.inj htext
      obtain ⟨segs', hsegs, hplain'⟩ := ih (fun seg hm => hplain seg (by simp [hm])) hr
      have hcom : ¬ StartsComment (c :: a) := fun hstart => hs.comment <| by
        rw [hr]
        exact hstart.imp (fun h => h.trans (List.prefix_append (c :: a) b))
          fun h => h.trans (List.prefix_append (c :: a) b)
      refine ⟨.single c :: segs', .single ⟨hs.quote, hs.ident, hcom⟩ hsegs, ?_⟩
      have hhead := hplain (.single c) (by simp)
      simp only [List.mem_cons, forall_eq_or_imp]
      exact ⟨hhead, hplain'⟩

/-- The beginning of a text line at the end of the text is copied, its macros replaced. -/
lemma runs_prefix (disk : Disk) (t : TextLine) {a : List Byte} (ha : a <+: t.text) (h : At p pre a) :
    ∃ out, Runs disk p ((p.bump a.length).emit out) := by
  obtain ⟨b, hb⟩ := ha
  obtain ⟨segs, hsegs, hplain⟩ := segmented_prefix t.segmented t.plain hb.symm
  have hrun := runs_segmented disk hsegs (fun hm => hplain _ hm rfl) h
  have htext := hsegs.flatMap_text
  rw [List.append_nil] at htext
  rw [htext] at hrun
  exact ⟨_, hrun⟩

/-- A line that starts nothing is copied, its macros replaced. -/
lemma runs_inert_line (disk : Disk) {line : List Byte} (hin : ∀ c ∈ line, Inert c)
    (hline : Ends line post) (h : At p pre (line ++ post)) :
    ∃ out, Runs disk p ((p.bump line.length).emit out) := by
  rcases hline with hline | ⟨hnl, rfl⟩
  · obtain ⟨t, rfl⟩ := exists_textLine_inert hin hline
    exact ⟨_, runs_segmented disk t.segmented_append t.hashFree h⟩
  · have hin' : ∀ c ∈ line ++ bytes "\n", Inert c := by
      intro c hc
      rcases List.mem_append.mp hc with hc | hc
      · exact hin c hc
      · rw [List.mem_singleton.mp hc]
        decide
    obtain ⟨t, ht⟩ := exists_textLine_inert hin' ⟨line, rfl, hnl⟩
    rw [List.append_nil] at h
    exact runs_prefix disk t (ht ▸ List.prefix_append line _) h

lemma isLine_opener (o : Opener) : IsLine o.line := by
  cases o with
  | If c => exact isLine_condLine c
  | Ifndef n =>
      refine ⟨n.gap.s ++ (n.name ++ n.trail.s), by simp [Opener.line, NameLine.line, Blanks.line], ?_⟩
      simp [isBlank_not_newline n.gap.blank, isBlank_not_newline n.trail.blank,
        isIdentChar_not_newline n.name_ident]

/-- A skip that gives up in front of the rest of a line goes on behind that line. -/
lemma Verdict.of_line {line : List Byte} (hin : ∀ c ∈ line, Inert c) (hline : Ends line post)
    (h : At p pre (line ++ post))
    (hrest : ∀ out, Verdict disk caught ((p.bump line.length).emit out)) : Verdict disk caught p := by
  obtain ⟨out, hrun⟩ := runs_inert_line disk hin hline h
  exact (hrest out).of_runs hrun

/-! ## The steps over directives of an open group -/

lemma processDirective_stray (disk : Disk) (n : ℕ) {t : MacroType} (hflags : q.branchFlags = [])
    (ht : t = .Elif ∨ t = .Else ∨ t = .Endif) :
    processDirective disk n t q = some (-400, q) := by
  rcases ht with rfl | rfl | rfl
  · rw [processDirective, handleElif, elifArm, if_pos hflags]
    rfl
  · rw [processDirective, handleElse, elseArm, if_pos hflags]
    rfl
  · rw [processDirective, handleEndif, if_pos hflags]

lemma step_stray (disk : Disk) {word : List Byte} (h : At p pre (word ++ rest)) (hd : Directive word rest)
    (ht : macroHashMatch word = .Elif ∨ macroHashMatch word = .Else ∨ macroHashMatch word = .Endif)
    (hflags : p.branchFlags = []) : ∃ q, ∀ n, p.step disk n = .failed (-400) q := by
  refine ⟨(p.bump word.length).setActive (macroHashMatch word), fun n => ?_⟩
  rw [step_directive disk n h hd,
    processDirective_stray disk n (q := (p.bump word.length).setActive (macroHashMatch word)) hflags ht]
  rfl

lemma takenFlags_tail (flags : List UInt8) : takenFlags flags.tail = (takenFlags flags).tail :=
  List.map_tail

/-- An `#else` outside a skip: the group counts as taken from here on. -/
lemma step_else (disk : Disk) {taken : List Bool} {k : ℕ} (h : At p pre (bytes "#else" ++ rest))
    (hd : Directive (bytes "#else") rest) (hpast : PastBy k rest) (hne : p.branchFlags ≠ [])
    (hflags : takenFlags p.branchFlags = taken) :
    ∃ q, Moved p q ((bytes "#else").length + k) [] ∧
      takenFlags q.branchFlags = true :: taken.tail ∧
      ∀ n, p.step disk n =
        afterDirective (enterArm (if taken.headD false then .skipped q else .taken q)) := by
  obtain ⟨f, flags, hf⟩ := List.exists_cons_of_ne_nil hne
  subst hflags
  have hat := at_active .Else h
  have hmove := (moved_active p (bytes "#else").length .Else).trans_bump k
  have hstep := fun n => step_directive disk n h hd
  set p' := (p.bump (bytes "#else").length).setActive .Else with hp'
  have hne' : p'.branchFlags ≠ [] := hne
  have htaken : (p'.bump k).everTaken = (takenFlags p.branchFlags).headD false := by
    rw [everTaken_eq (show (p'.bump k).branchFlags = f :: flags from hf), hf]
    rfl
  have harm : p'.elseArm = if (takenFlags p.branchFlags).headD false
      then .skipped (p'.bump k).clearActive
      else .taken ((p'.bump k).setTopFlags (armFlags true)) := by
    rw [elseArm, if_neg hne']
    simp only [hpast hat, htaken]
  cases hold : (takenFlags p.branchFlags).headD false with
  | true =>
      refine ⟨(p'.bump k).clearActive, hmove.clearActive, ?_, fun n => ?_⟩
      · have hfe : (f &&& BranchState.everTaken != 0) = true := by
          rw [hf] at hold
          exact hold
        show takenFlags ((p.topFlags &&& ~~~BranchState.active) :: p.branchFlags.tail) = _
        rw [takenFlags_clear, topFlags, hf, List.headD_cons, List.tail_cons, takenFlags,
          List.map_cons, hfe]
        rfl
      · rw [hstep]
        show afterDirective (enterArm p'.elseArm) = _
        rw [harm, hold, if_pos rfl, if_pos rfl]
  | false =>
      refine ⟨(p'.bump k).setTopFlags (armFlags true),
        ⟨hmove.fileMgr, hmove.storedMacros, hmove.inputStack, hmove.outputBuffer⟩, ?_, fun n => ?_⟩
      · show takenFlags (armFlags true :: p.branchFlags.tail) = _
        rw [takenFlags_armFlags, takenFlags_tail]
      · rw [hstep]
        show afterDirective (enterArm p'.elseArm) = _
        rw [harm, hold, if_neg Bool.false_ne_true, if_neg Bool.false_ne_true]

lemma elifArm_line {c : CondLine} {n : ℕ} (h : At p pre (c.line ++ post))
    (hne : p.branchFlags ≠ []) (htaken : p.everTaken = false) :
    p.elifArm (n + 1) = some (if c.lit.holds
      then .taken (p.armState .Elif c.line.length (armFlags true :: p.branchFlags.tail))
      else .skipped (p.armState .Elif c.line.length (armFlags false :: p.branchFlags.tail))) := by
  have hat : At (p.setActive .Elif) pre (c.line ++ post) := h.congr rfl rfl
  obtain ⟨cond, hcond, hread⟩ := readCondition_line hat
  have heval := evalCondition_literal (p := (p.setActive .Elif).bump c.line.length)
    (n := n) (.inr rfl) hread
  have htaken' : (p.setActive .Elif).everTaken = false := htaken
  rw [elifArm, if_neg hne]
  simp only [htaken', hcond, heval, Option.map_some]
  cases c.lit.holds <;> rfl

/-- An `#elif` outside a skip, when no arm was taken. -/
lemma step_elif (disk : Disk) {c : CondLine} (h : At p pre (bytes "#elif" ++ (c.line ++ post)))
    (hne : p.branchFlags ≠ []) (htaken : p.everTaken = false) :
    ∃ q, Moved p q (bytes "#elif" ++ c.line).length [] ∧
      takenFlags q.branchFlags = c.lit.holds :: (takenFlags p.branchFlags).tail ∧
      ∀ n, p.step disk (n + 1) =
        afterDirective (enterArm (if c.lit.holds then .taken q else .skipped q)) := by
  have hat := at_active .Elif h
  refine ⟨armState ((p.bump (bytes "#elif").length).setActive .Elif) .Elif c.line.length
    (armFlags c.lit.holds :: p.branchFlags.tail), ?_, ?_, fun n => ?_⟩
  · rw [List.length_append]
    exact (moved_active p _ .Elif).trans (armState_moved _ .Elif c.line.length _)
  · show takenFlags (armFlags c.lit.holds :: p.branchFlags.tail) = _
    rw [takenFlags_armFlags, takenFlags_tail]
  · have harm : processDirective disk (n + 1) .Elif
        ((p.bump (bytes "#elif").length).setActive .Elif) = _ :=
      congrArg (Option.map enterArm) (elifArm_line (n := n) hat hne htaken)
    rw [step_directive disk (n + 1) h (directive_elif c),
      show macroHashMatch (bytes "#elif") = .Elif from rfl, harm]
    cases c.lit.holds <;> rfl

/-- An `#elif` outside a skip, when an arm was taken: the skip begins behind the word. -/
lemma step_elif_taken (disk : Disk) (h : At p pre (bytes "#elif" ++ rest))
    (hd : Directive (bytes "#elif") rest) (hne : p.branchFlags ≠ []) (htaken : p.everTaken = true) :
    ∃ q, Moved p q (bytes "#elif").length [] ∧ takenFlags q.branchFlags = takenFlags p.branchFlags ∧
      ∀ n, p.step disk n = afterDirective q.skipIfBranch := by
  refine ⟨((p.bump (bytes "#elif").length).setActive .Elif).clearActive,
    (moved_active p _ .Elif).clearActive, ?_, fun n => ?_⟩
  · obtain ⟨f, flags, hf⟩ := List.exists_cons_of_ne_nil hne
    show takenFlags ((p.topFlags &&& ~~~BranchState.active) :: p.branchFlags.tail) = _
    rw [takenFlags_clear, topFlags, hf, List.headD_cons, List.tail_cons]
  · rw [step_directive disk n h hd]
    have harm : ((p.bump (bytes "#elif").length).setActive .Elif).elifArm n =
        some (.skipped ((p.bump (bytes "#elif").length).setActive .Elif).clearActive) := by
      have htaken' : (((p.bump (bytes "#elif").length).setActive .Elif).setActive .Elif).everTaken =
        true := htaken
      rw [elifArm, if_neg (show ((p.bump _).setActive .Elif).branchFlags ≠ [] from hne)]
      simp only [htaken', if_true]
      rfl
    have hdirective : processDirective disk n .Elif
        ((p.bump (bytes "#elif").length).setActive .Elif) =
          (((p.bump (bytes "#elif").length).setActive .Elif).elifArm n).map enterArm := rfl
    rw [show macroHashMatch (bytes "#elif") = .Elif from rfl, hdirective, harm]
    rfl

/-! ## The run over lines -/

/-- `p` stands in its last frame, in front of `text`, with the flags the reader keeps. -/
structure Reads (defined : List Byte → Bool) (taken : List Bool) (text : List Byte)
    (p : Preprocessor) : Prop where
  ahead : ∃ pre, At p pre text
  last : p.inputStack.tail = []
  flags : takenFlags p.branchFlags = taken
  names : p.isDefined = defined

section Reads

variable {taken taken' : List Bool} {text s out : List Byte}

lemma Reads.moved (h : Reads defined taken (s ++ text) p) (hmove : Moved p q s.length out)
    (hflags : takenFlags q.branchFlags = taken') : Reads defined taken' text q := by
  obtain ⟨⟨pre, hat⟩, hlast, -, hnames⟩ := h
  refine ⟨⟨_, hmove.at_end hat⟩, ?_, hflags, hmove.isDefined.trans hnames⟩
  rw [hmove.inputStack, Preprocessor.bump, setCursor_inputStack_tail, hlast]

lemma Reads.bump (h : Reads defined taken (s ++ text) p) :
    Reads defined taken text (p.bump s.length) :=
  h.moved (Moved.bump p s.length) h.flags

lemma Reads.emit (h : Reads defined taken text p) : Reads defined taken text (p.emit out) := by
  obtain ⟨⟨pre, hat⟩, hlast, hflags, hnames⟩ := h
  exact ⟨⟨pre, hat.emit⟩, hlast, hflags, hnames⟩

lemma Reads.everTaken (h : Reads defined taken text p) : p.everTaken = taken.headD false := by
  have hflags := h.flags
  rcases hp : p.branchFlags with _ | ⟨f, flags⟩
  · rw [hp] at hflags
    subst hflags
    rw [Preprocessor.everTaken, topFlags, hp]
    rfl
  · rw [hp] at hflags
    subst hflags
    exact everTaken_eq hp

lemma Reads.flags_nil (h : Reads defined taken text p) : p.branchFlags = [] ↔ taken = [] := by
  rw [← h.flags, takenFlags, List.map_eq_nil_iff]

end Reads

lemma Verdict.congr {caught' : Prop} (h : Verdict disk caught p) (hiff : caught' ↔ caught) :
    Verdict disk caught' p := by
  rwa [Verdict, hiff]

lemma SkipVerdict.congr {caught' : Prop} (h : SkipVerdict disk caught k p)
    (hiff : caught' ↔ caught) : SkipVerdict disk caught' k p := by
  rwa [SkipVerdict, hiff]

/-- A line that is no error is read. -/
lemma caught_read (defined : List Byte → Bool) (r : Reader) (l : Line) (lines : List Line)
    (h : l.needsGroup = true → r.taken ≠ [] ∨ r.skipped ≠ 0) :
    Caught defined r (l :: lines) ↔ Caught defined (l.read defined r) lines := by
  rw [caught_cons]
  refine or_iff_right ?_
  rintro ⟨hl, rfl⟩
  exact (h hl).elim (fun hne => hne rfl) fun hne => hne rfl

/-! ### What a line consists of -/

/-- The line stands in front of `post` as the bytes `a`: whole, or at the end and without its newline. -/
inductive Line.Stands (l : Line) : List Byte → List Byte → Prop
  | whole (post : List Byte) : l.Stands l.text post
  | last : l.Stands l.text.dropLast []

/-- The word of a directive and what follows it in its line. -/
structure DirectiveLine (word line post : List Byte) : Prop where
  directive : Directive word (line ++ post)
  inert : ∀ c ∈ line, Inert c
  ends : Ends line post

/-- Without its newline a directive is left with the rest of its line. -/
lemma Line.dropLast_text {l : Line} {word line : List Byte} (hl : l.text = word ++ line)
    (hd : ∀ post, Directive word (line ++ post)) (hin : ∀ c ∈ line, Inert c) (hline : IsLine line) :
    ∃ line, l.text.dropLast = word ++ line ∧ '\n'.toUInt8 ∉ line ∧ DirectiveLine word line [] := by
  obtain ⟨line, rfl, hnl⟩ := hline
  have htext : l.text.dropLast = word ++ line := by
    rw [hl, ← List.append_assoc]
    exact List.dropLast_concat
  refine ⟨line, htext, hnl, ⟨(hd []).hash, (hd []).run, fun c hc => (hd []).maximal c ?_⟩,
    fun c hc => hin c (List.mem_append_left _ hc), .inr ⟨hnl, rfl⟩⟩
  rw [List.append_nil] at hc ⊢
  rw [List.head?_append, Option.mem_def.mp hc]
  rfl

lemma Line.Stands.directiveLine {l : Line} {word line : List Byte} (h : l.Stands a post)
    (hl : l.text = word ++ line) (hd : ∀ post, Directive word (line ++ post))
    (hin : ∀ c ∈ line, Inert c) (hline : IsLine line) :
    ∃ line, a = word ++ line ∧ DirectiveLine word line post := by
  cases h with
  | whole => exact ⟨line, hl, hd post, hin, .inl hline⟩
  | last =>
      obtain ⟨line, htext, -, hline⟩ := Line.dropLast_text hl hd hin hline
      exact ⟨line, htext, hline⟩

lemma Line.Stands.open_ {o : Opener} (h : (Line.Open o).Stands a post) :
    ∃ line, a = o.word ++ line ∧ DirectiveLine o.word line post :=
  h.directiveLine rfl (fun _ => directive_opener o) (opener_line_inert o) (isLine_opener o)

lemma Line.Stands.elif {c : CondLine} (h : (Line.Elif c).Stands a post) :
    ∃ line, a = bytes "#elif" ++ line ∧ DirectiveLine (bytes "#elif") line post :=
  h.directiveLine rfl (fun _ => directive_elif c) (condLine_inert c) (isLine_condLine c)

lemma Line.Stands.else_ {b : Blanks} (h : (Line.Else b).Stands a post) :
    ∃ line, a = bytes "#else" ++ line ∧ DirectiveLine (bytes "#else") line post :=
  h.directiveLine rfl (fun _ => directive_else b) (blanks_line_inert b) (isLine_blanks b)

lemma Line.Stands.endif {e : Blanks} (h : (Line.Endif e).Stands a post) :
    ∃ line, a = bytes "#endif" ++ line ∧ DirectiveLine (bytes "#endif") line post :=
  h.directiveLine rfl (fun _ => directive_endif e) (blanks_line_inert e) (isLine_blanks e)

lemma Line.Stands.quiet {t : TextLine} (h : (Line.Text t).Stands a post) : Quiet post a := by
  cases h with
  | whole => exact t.quiet
  | last =>
      obtain ⟨b, hb⟩ := List.dropLast_prefix t.text
      obtain ⟨segs, hsegs, hplain⟩ := segmented_prefix t.segmented t.plain hb.symm
      have hquiet := quiet_of_segmented hsegs hplain
      have htext := hsegs.flatMap_text
      rw [List.append_nil] at htext
      rwa [htext] at hquiet

lemma endBranching_ends {line : List Byte} (h : At p pre (line ++ post)) (hline : Ends line post) :
    ∃ code, 0 ≤ code ∧ endBranching p = (code, p.bump line.length) := by
  rcases hline with hline | ⟨hnl, rfl⟩
  · exact ⟨0, Int.le_refl 0, endBranching_line h hline⟩
  · rw [List.append_nil] at h
    refine ⟨422, by decide, ?_⟩
    rw [endBranching, h.findNext_none hnl, ← h.bump_size]

/-- A further arm of the group itself is passed with its line, when an arm has been taken. -/
lemma passes_taken_arm {word line : List Byte} (h : At p pre (word ++ (line ++ post)))
    (hline : DirectiveLine word line post) (htaken : p.everTaken = true)
    (hs : macroHashMatch word = .Elif ∨ macroHashMatch word = .Else) : Passes 1 1 (word ++ line) p := by
  rcases hline.ends with hends | ⟨hnl, rfl⟩
  · exact passes_own_arm h hline.directive hends htaken hs
  · have hd := hline.directive
    rw [List.append_nil] at h hd
    have hpast := h.bump.pastLine_none hnl
    have hall : At p pre ((word ++ line) ++ []) := by rwa [List.append_nil]
    have hlt := rest_bump_lt (by simp [hd.ne_nil]) hall
    refine .of_iteration hlt fun n => ?_
    rw [SkipState.loop, SkipState.loop, skipLoop_directive h hd Nat.one_ne_zero]
    rcases hs with hs | hs <;> rw [hs] <;> simp [htaken, hpast, bump_bump]

/-! ### The run over one line -/

section Steps

variable {taken : List Bool} {lines : List Line} {text line : List Byte} {C : Reader → Prop} {l : Line}

/-- What the induction over the lines provides: a run from where the reader stands outside a
skip, and a run out of the skip inside of one. -/
structure Follows (disk : Disk) (defined : List Byte → Bool) (text : List Byte) (C : Reader → Prop) :
    Prop where
  verdict : ∀ {p : Preprocessor} {taken : List Bool}, Reads defined taken text p →
    Verdict disk (C ⟨taken, 0⟩) p
  skipVerdict : ∀ {p : Preprocessor} {taken : List Bool} {k : ℕ}, Reads defined taken text p → k ≠ 0 →
    SkipVerdict disk (C ⟨taken, k⟩) k p

lemma Follows.congr {C' : Reader → Prop} (h : Follows disk defined text C) (hiff : ∀ r, C' r ↔ C r) :
    Follows disk defined text C' where
  verdict hp := (h.verdict hp).congr (hiff _)
  skipVerdict hp hk := (h.skipVerdict hp hk).congr (hiff _)

/-- The end of the text is an error inside a skip. -/
lemma follows_nil (disk : Disk) (defined : List Byte → Bool) :
    Follows disk defined [] fun r => r.skipped ≠ 0 where
  verdict {p _} hp := by
    obtain ⟨pre, hat⟩ := hp.ahead
    have hpop := step_pop disk hat
    have hend : Returns disk { p with inputStack := p.inputStack.tail } (0, _) := .of_finished hp.last
    exact ⟨_, hend.of_steps hpop, .inr ⟨not_not.mpr rfl, rfl⟩⟩
  skipVerdict hp hk := by
    obtain ⟨pre, hat⟩ := hp.ahead
    exact .of_end hat hk hk

/-- The same behind bytes that start nothing. -/
lemma follows_inert (disk : Disk) (defined : List Byte → Bool) (hin : ∀ c ∈ line, Inert c)
    (hnl : '\n'.toUInt8 ∉ line) : Follows disk defined line fun r => r.skipped ≠ 0 where
  verdict hp := by
    rw [← List.append_nil line] at hp
    obtain ⟨pre, hat⟩ := hp.ahead
    obtain ⟨out, hrun⟩ := runs_inert_line disk hin (.inr ⟨hnl, rfl⟩) hat
    exact ((follows_nil disk defined).verdict hp.bump.emit).of_runs hrun
  skipVerdict hp hk := by
    rw [← List.append_nil line] at hp
    obtain ⟨pre, hat⟩ := hp.ahead
    exact ((follows_nil disk defined).skipVerdict hp.bump hk).of_passes (passes_inert hat hin hk)

/-- A directive whose arm is taken or skipped, with the state behind it. -/
lemma Follows.enter {b : Bool} (h : Follows disk defined text C) (hq : Reads defined taken text q)
    (hstep : ∀ n, p.step disk (n + 1) = afterDirective (enterArm (if b then .taken q else .skipped q))) :
    Verdict disk (C ⟨taken, if b then 0 else 1⟩) p := by
  cases b with
  | true =>
      have hnext : Steps disk p q := .of_succ hstep
      exact (h.verdict hq).of_runs (.single hnext)
  | false => exact .of_skip (h.skipVerdict hq Nat.one_ne_zero) hstep

/-- A directive that needs a group, where there is none. -/
lemma verdict_stray {caught : Prop} (hp : Reads defined [] (a ++ post) p) (hl : l.needsGroup = true)
    (hstands : l.Stands a post) (hcaught : caught) : Verdict disk caught p := by
  obtain ⟨pre, hat⟩ := hp.ahead
  have hfail : ∀ {word line : List Byte}, a = word ++ line → DirectiveLine word line post →
      (macroHashMatch word = .Elif ∨ macroHashMatch word = .Else ∨ macroHashMatch word = .Endif) →
      Verdict disk caught p := by
    intro word line ha hline ht
    rw [ha, List.append_assoc] at hat
    obtain ⟨q, hfail⟩ := step_stray disk hat hline.directive ht (hp.flags_nil.mpr rfl)
    exact ⟨_, .of_failed fun n => hfail (n + 1), .inl ⟨hcaught, show (-400 : ℤ) < 0 by decide⟩⟩
  cases l with
  | Text | Open => cases hl
  | Elif c =>
      obtain ⟨line, ha, hline⟩ := hstands.elif
      exact hfail ha hline (.inl rfl)
  | Else b =>
      obtain ⟨line, ha, hline⟩ := hstands.else_
      exact hfail ha hline (.inr (.inl rfl))
  | Endif e =>
      obtain ⟨line, ha, hline⟩ := hstands.endif
      exact hfail ha hline (.inr (.inr rfl))

/-- An `#elif` outside a skip when an arm was taken begins a skip. -/
lemma Follows.elif_taken (h : Follows disk defined text C) (hline : DirectiveLine (bytes "#elif") line text)
    (hp : Reads defined taken (bytes "#elif" ++ (line ++ text)) p) (hold : taken.headD false = true) :
    Verdict disk (C ⟨taken, 1⟩) p := by
  obtain ⟨pre, hat⟩ := hp.ahead
  have htaken := hp.everTaken.trans hold
  have hne : p.branchFlags ≠ [] := by
    rintro hnil
    rw [hp.flags_nil.mp hnil] at hold
    cases hold
  obtain ⟨q, hmove, hflags, hstep⟩ := step_elif_taken disk hat hline.directive hne htaken
  have hq := hp.moved hmove (hflags.trans hp.flags)
  obtain ⟨pre', hat'⟩ := hq.ahead
  have hpass := passes_inert hat' hline.inert Nat.one_ne_zero
  exact .of_skip ((h.skipVerdict hq.bump Nat.one_ne_zero).of_passes hpass) fun n => hstep (n + 1)

/-- The step of the main loop over one line. -/
lemma Follows.step (ih : Follows disk defined text C) (l : Line)
    (hp : Reads defined taken (l.text ++ text) p) (hgroup : l.needsGroup = true → taken ≠ []) :
    Verdict disk (C (l.read defined ⟨taken, 0⟩)) p := by
  obtain ⟨pre, hat⟩ := hp.ahead
  have hne (hl : l.needsGroup = true) : p.branchFlags ≠ [] := fun hnil =>
    hgroup hl (hp.flags_nil.mp hnil)
  cases l with
  | Text t =>
      have hrun := runs_segmented disk t.segmented_append t.hashFree hat
      exact (ih.verdict hp.bump.emit).of_runs hrun
  | Open o =>
      rw [Line.text, List.append_assoc] at hat
      obtain ⟨q, hmove, hflags, hstep⟩ := step_opener disk hat
      have hq := hp.moved hmove (by rw [hflags, takenFlags_armFlags, hp.flags])
      rw [hp.names] at hq hstep
      exact ih.enter hq hstep
  | Elif c =>
      have hsplit := hp
      rw [Line.text, List.append_assoc] at hat hsplit
      cases hold : taken.headD false with
      | true =>
          have hread : (Line.Elif c).read defined ⟨taken, 0⟩ = ⟨taken, 1⟩ := by
            simp only [Line.read, hold, if_true]
          rw [hread]
          exact ih.elif_taken ⟨directive_elif c, condLine_inert c, .inl (isLine_condLine c)⟩ hsplit hold
      | false =>
          obtain ⟨q, hmove, hflags, hstep⟩ := step_elif disk hat (hne rfl) (hp.everTaken.trans hold)
          have hq := hp.moved hmove (hflags.trans (by rw [hp.flags]))
          have hread : (Line.Elif c).read defined ⟨taken, 0⟩ =
              ⟨c.lit.holds :: taken.tail, if c.lit.holds then 0 else 1⟩ := by
            simp only [Line.read, hold, Bool.false_eq_true, if_false]
          rw [hread]
          exact ih.enter hq hstep
  | Else b =>
      rw [Line.text, List.append_assoc] at hat
      obtain ⟨q, hmove, hflags, hstep⟩ := step_else disk hat (directive_else b)
        (pastFound_line (isLine_blanks b)) (hne rfl) hp.flags
      rw [← List.length_append] at hmove
      have hq := hp.moved hmove hflags
      have hread : (Line.Else b).read defined ⟨taken, 0⟩ =
          ⟨true :: taken.tail, if !taken.headD false then 0 else 1⟩ := by
        cases hold : taken.headD false <;> simp only [Line.read, hold] <;> rfl
      rw [hread]
      refine ih.enter hq fun n => ?_
      rw [hstep]
      cases taken.headD false <;> rfl
  | Endif e =>
      obtain ⟨f, flags, hf⟩ := List.exists_cons_of_ne_nil (hne rfl)
      rw [Line.text, List.append_assoc] at hat
      obtain ⟨q, hnext, hmove, hflags⟩ :=
        step_endif disk hat (directive_endif e) (pastFound_line (isLine_blanks e)) hf
      rw [← List.length_append] at hmove
      have hq : Reads defined taken.tail text q := hp.moved hmove (by rw [hflags, ← hp.flags, hf]; rfl)
      exact (ih.verdict hq).of_runs (.single hnext)

/-- The passage of a skip over one line. -/
lemma Follows.skip (ih : Follows disk defined text C) (hstands : l.Stands a text)
    (hp : Reads defined taken (a ++ text) p) :
    SkipVerdict disk (C (l.read defined ⟨taken, k + 1⟩)) (k + 1) p := by
  obtain ⟨pre, hat⟩ := hp.ahead
  -- a line that is passed and leaves a skip behind
  have hpassed : ∀ {j : ℕ}, Passes (k + 1) j a p → j ≠ 0 → SkipVerdict disk (C ⟨taken, j⟩) (k + 1) p :=
    fun hpass hj => (ih.skipVerdict hp.bump hj).of_passes hpass
  -- an arm or the end of the group that is skipped
  have hbranch : ∀ {word line : List Byte} {t : MacroType}, a = word ++ line →
      DirectiveLine word line text → t ≠ .Elif →
      Stops { nestCount := k + 1, p } (.found t p.cursor, p.bump word.length) →
      SkipVerdict disk (C ⟨taken, 0⟩) (k + 1) p := by
    intro word line t ha hline ht hstop
    rw [ha, List.append_assoc] at hat
    obtain ⟨code, hcode, hend⟩ := endBranching_ends hat.bump hline.ends
    have hresume : resume (.found t p.cursor, p.bump word.length) = (code, p.bump a.length) := by
      rw [ha, List.length_append, ← bump_bump, ← hend]
      cases t <;> first | rfl | exact absurd rfl ht
    refine ⟨_, hstop, .inr ?_⟩
    rw [hresume]
    exact ⟨hcode, ih.verdict hp.bump⟩
  -- the rest of the line behind a word at which the skip gives up
  have hrest : ∀ {word line : List Byte}, a = word ++ line → DirectiveLine word line text →
      Verdict disk (C ⟨taken, 0⟩) (p.bump word.length) := by
    intro word line ha hline
    rw [ha, List.append_assoc] at hat hp
    refine .of_line hline.inert hline.ends hat.bump fun out => ih.verdict ?_
    exact hp.bump.bump.emit
  have htaken := hp.everTaken
  cases l with
  | Text t => exact hpassed (skips_quiet hat hstands.quiet k.succ_ne_zero) k.succ_ne_zero
  | Open o =>
      obtain ⟨line, ha, hline⟩ := hstands.open_
      have hat' := hat
      rw [ha, List.append_assoc] at hat'
      have hopen : Passes (k + 1) ((k + 2) % 2 ^ 16) o.word p :=
        skips_open hat' hline.directive k.succ_ne_zero (macroHashMatch_opener o)
      show SkipVerdict disk (C ⟨taken, (k + 2) % 2 ^ 16⟩) (k + 1) p
      by_cases hwrap : (k + 2) % 2 ^ 16 = 0
      · rw [hwrap] at hopen ⊢
        exact .of_passes hopen (.of_wrapped (hrest ha hline))
      · exact hpassed (ha ▸ hopen.append (passes_inert hat'.bump hline.inert hwrap)) hwrap
  | Elif c =>
      obtain ⟨line, ha, hline⟩ := hstands.elif
      have hat' := hat
      rw [ha, List.append_assoc] at hat'
      cases k with
      | succ k =>
          have hword : Passes (k + 1 + 1) (k + 1 + 1) (bytes "#elif") p :=
            skips_inner_arm hat' hline.directive k.succ_ne_zero (.inl rfl)
          have hpass := hword.append (passes_inert hat'.bump hline.inert (k + 1).succ_ne_zero)
          exact hpassed (ha ▸ hpass) (k + 1).succ_ne_zero
      | zero =>
          cases hold : taken.headD false with
          | true =>
              have hpass := passes_taken_arm hat' hline (htaken.trans hold) (.inl rfl)
              simp only [Line.read, hold, if_true]
              exact hpassed (ha ▸ hpass) Nat.one_ne_zero
          | false =>
              have hstop := stops_arm hat' hline.directive (.inl rfl) (htaken.trans hold)
              simp only [Line.read, hold, Bool.false_eq_true, if_false]
              refine ⟨_, hstop, .inr ⟨?_, hrest ha hline⟩⟩
              show (0 : ℤ) ≤ 105102
              decide
  | Else b =>
      obtain ⟨line, ha, hline⟩ := hstands.else_
      have hat' := hat
      rw [ha, List.append_assoc] at hat'
      cases k with
      | succ k =>
          have hword : Passes (k + 1 + 1) (k + 1 + 1) (bytes "#else") p :=
            skips_inner_arm hat' hline.directive k.succ_ne_zero (.inr rfl)
          have hpass := hword.append (passes_inert hat'.bump hline.inert (k + 1).succ_ne_zero)
          exact hpassed (ha ▸ hpass) (k + 1).succ_ne_zero
      | zero =>
          cases hold : taken.headD false with
          | true =>
              have hpass := passes_taken_arm hat' hline (htaken.trans hold) (.inr rfl)
              simp only [Line.read, hold, if_true]
              exact hpassed (ha ▸ hpass) Nat.one_ne_zero
          | false =>
              have hstop := stops_arm hat' hline.directive (.inr rfl) (htaken.trans hold)
              simp only [Line.read, hold, Bool.false_eq_true, if_false]
              exact hbranch (t := .Else) ha hline (by decide) hstop
  | Endif e =>
      obtain ⟨line, ha, hline⟩ := hstands.endif
      have hat' := hat
      rw [ha, List.append_assoc] at hat'
      cases k with
      | succ k =>
          have hword : Passes (k + 1 + 1) (k + 1) (bytes "#endif") p :=
            skips_close hat' hline.directive k.succ_ne_zero rfl
          have hpass := hword.append (passes_inert hat'.bump hline.inert k.succ_ne_zero)
          exact hpassed (ha ▸ hpass) k.succ_ne_zero
      | zero => exact hbranch (t := .Endif) ha hline (by decide) (stops_endif hat' hline.directive rfl)

/-! ### The last line without its newline -/

lemma pastFound_none (hnl : '\n'.toUInt8 ∉ text) : PastBy 0 text := by
  intro p pre h
  rw [h.findNext_none hnl, bump_zero]
  rfl

/-- A condition whose line has no end. -/
lemma readCondition_none (h : At p pre text) (hnl : '\n'.toUInt8 ∉ text) : p.readCondition = none := by
  have hsplit := h
  rw [← List.takeWhile_append_dropWhile (p := isBlank) (l := text)] at hsplit
  have hnone := hsplit.bump.findNext_none fun hm => hnl ((List.dropWhile_suffix _).subset hm)
  rw [readCondition, ol, h.rest]
  simp only [hnone, Option.map_none]

/-- The handlers of `#if` and `#elif` report it. -/
lemma verdict_unfinished {caught : Prop} (hp : Reads defined taken l.text.dropLast p)
    (hgroup : l.needsGroup = true → taken ≠ []) (hl : l.hasCondition = true) (hcaught : caught) :
    Verdict disk caught p := by
  obtain ⟨pre, hat⟩ := hp.ahead
  have hfailed : ∀ {q : Preprocessor}, (∀ n, p.step disk (n + 1) = .failed (-422) q) →
      Verdict disk caught p :=
    fun hfail => ⟨_, .of_failed hfail, .inl ⟨hcaught, show (-422 : ℤ) < 0 by decide⟩⟩
  match l with
  | .Open (.If c) =>
      obtain ⟨line, ha, hnl, hline⟩ := Line.dropLast_text (l := .Open (.If c)) rfl
        (fun _ => directive_opener (.If c)) (condLine_inert c) (isLine_condLine c)
      rw [ha] at hat
      have hd := hline.directive
      rw [List.append_nil] at hd
      refine hfailed (q := (((p.bump (Opener.If c).word.length).setActive .If).setActive .If).ol) fun n => ?_
      have hnone := readCondition_none
        ((at_active .If hat).congr (q := ((p.bump _).setActive .If).setActive .If) rfl rfl) hnl
      have harm : processDirective disk (n + 1) .If ((p.bump (Opener.If c).word.length).setActive .If) =
          some (-422, (((p.bump (Opener.If c).word.length).setActive .If).setActive .If).ol) := by
        rw [processDirective, handleIf, ifArm]
        simp only [hnone, Option.map_some]
        rfl
      rw [step_directive disk (n + 1) hat hd, show macroHashMatch (Opener.If c).word = .If from rfl, harm]
      rfl
  | .Elif c =>
      obtain ⟨line, ha, hnl, hline⟩ := Line.dropLast_text (l := .Elif c) rfl
        (fun _ => directive_elif c) (condLine_inert c) (isLine_condLine c)
      rw [ha] at hat hp
      cases hold : taken.headD false with
      | true =>
          have hskip := (follows_nil disk defined).elif_taken hline (by simpa using hp) hold
          exact hskip.congr (iff_of_true hcaught Nat.one_ne_zero)
      | false =>
          have hd := hline.directive
          rw [List.append_nil] at hd
          have hne : p.branchFlags ≠ [] := fun hnil => hgroup rfl (hp.flags_nil.mp hnil)
          refine hfailed (q := (((p.bump (bytes "#elif").length).setActive .Elif).setActive .Elif).ol)
            fun n => ?_
          have hnone := readCondition_none
            ((at_active .Elif hat).congr (q := ((p.bump _).setActive .Elif).setActive .Elif) rfl rfl) hnl
          have htaken : (((p.bump (bytes "#elif").length).setActive .Elif).setActive .Elif).everTaken =
            false := hp.everTaken.trans hold
          have harm : processDirective disk (n + 1) .Elif
              ((p.bump (bytes "#elif").length).setActive .Elif) =
                some (-422, (((p.bump (bytes "#elif").length).setActive .Elif).setActive .Elif).ol) := by
            rw [processDirective, handleElif, elifArm,
              if_neg (show ((p.bump _).setActive .Elif).branchFlags ≠ [] from hne)]
            simp only [htaken, hnone, Bool.false_eq_true, if_false, Option.map_some]
            rfl
          rw [step_directive disk (n + 1) hat hd, show macroHashMatch (bytes "#elif") = .Elif from rfl, harm]
          rfl

/-- The step over the other lines: what follows the word is read as text, or skipped. -/
lemma verdict_last (hp : Reads defined taken l.text.dropLast p) (hgroup : l.needsGroup = true → taken ≠ [])
    (hl : l.hasCondition = false) : Verdict disk ((l.read defined ⟨taken, 0⟩).skipped ≠ 0) p := by
  obtain ⟨pre, hat⟩ := hp.ahead
  have hne (hl : l.needsGroup = true) : p.branchFlags ≠ [] := fun hnil =>
    hgroup hl (hp.flags_nil.mp hnil)
  match l with
  | .Text t =>
      obtain ⟨out, hrun⟩ := runs_prefix disk t (List.dropLast_prefix _) hat
      rw [← List.append_nil (Line.text _).dropLast] at hp
      exact ((follows_nil disk defined).verdict hp.bump.emit).of_runs hrun
  | .Open (.Ifndef c) =>
      have htext : (Line.Open (.Ifndef c)).text.dropLast =
          bytes "#ifndef" ++ (c.gap.s ++ (c.name ++ c.trail.s)) := by
        have hline : (Line.Open (.Ifndef c)).text =
            (bytes "#ifndef" ++ (c.gap.s ++ (c.name ++ c.trail.s))) ++ bytes "\n" := by
          simp [Line.text, Opener.line, NameLine.line, Blanks.line, Opener.word]
        rw [hline]
        exact List.dropLast_concat
      rw [htext] at hat hp
      have hd : Directive (bytes "#ifndef") (c.gap.s ++ (c.name ++ c.trail.s)) :=
        directive_of rfl (by decide) (head_gap c.gap_ne)
      have hnl := isBlank_not_newline c.trail.blank
      have hstep := step_ifndef disk hat hd c.gap.blank c.name_ne c.name_ident
        (fun d hd => (isSpace_inert (isBlank_isSpace (c.trail.blank d (List.mem_of_head? hd)))).2)
        (pastFound_none hnl)
      have hmove := armState_moved p .Ifndef ((bytes "#ifndef").length
        + (c.gap.s.length + c.name.length + 0)) (armFlags (!p.isDefined c.name) :: p.branchFlags)
      have hflags : (p.behindIfndef c.name (c.gap.s.length + c.name.length + 0)).branchFlags =
        armFlags (!p.isDefined c.name) :: p.branchFlags := rfl
      rw [← behindIfndef] at hmove
      set q := p.behindIfndef c.name (c.gap.s.length + c.name.length + 0)
      have hmove' : Moved p q (bytes "#ifndef" ++ (c.gap.s ++ c.name)).length [] := by
        simpa using hmove
      have hsplit : Reads defined taken ((bytes "#ifndef" ++ (c.gap.s ++ c.name)) ++ c.trail.s) p := by
        simpa using hp
      have hq := hsplit.moved hmove' (by rw [hflags, takenFlags_armFlags, hp.flags])
      rw [hp.names] at hq hstep
      have hin : ∀ d ∈ c.trail.s, Inert d := fun d hd =>
        (isSpace_inert (isBlank_isSpace (c.trail.blank d hd))).1
      exact (follows_inert disk defined hin hnl).enter hq hstep
  | .Else b =>
      obtain ⟨line, ha, hnl, hline⟩ := Line.dropLast_text (l := .Else b) rfl
        (fun _ => directive_else b) (blanks_line_inert b) (isLine_blanks b)
      have hd := hline.directive
      rw [List.append_nil] at hd
      rw [ha] at hat hp
      obtain ⟨q, hmove, hflags, hstep⟩ := step_else disk hat hd (pastFound_none hnl) (hne rfl) hp.flags
      have hq := hp.moved hmove hflags
      have hread : (Line.Else b).read defined ⟨taken, 0⟩ =
          ⟨true :: taken.tail, if !taken.headD false then 0 else 1⟩ := by
        cases hold : taken.headD false <;> simp only [Line.read, hold] <;> rfl
      rw [hread]
      refine (follows_inert disk defined hline.inert hnl).enter hq fun n => ?_
      rw [hstep]
      cases taken.headD false <;> rfl
  | .Endif e =>
      obtain ⟨line, ha, hnl, hline⟩ := Line.dropLast_text (l := .Endif e) rfl
        (fun _ => directive_endif e) (blanks_line_inert e) (isLine_blanks e)
      have hd := hline.directive
      rw [List.append_nil] at hd
      rw [ha] at hat hp
      obtain ⟨f, flags, hf⟩ := List.exists_cons_of_ne_nil (hne rfl)
      obtain ⟨q, hnext, hmove, hflags⟩ := step_endif disk hat hd (pastFound_none hnl) hf
      have hq : Reads defined taken.tail line q := hp.moved hmove (by rw [hflags, ← hp.flags, hf]; rfl)
      exact ((follows_inert disk defined hline.inert hnl).verdict hq).of_runs (.single hnext)

/-- The run over the last line. -/
lemma follows_last (disk : Disk) (defined : List Byte → Bool) (l : Line) :
    Follows disk defined l.text.dropLast fun r =>
      Caught defined r [l] ∨ Unfinished defined r [] (some l) := by
  have hend (taken : List Bool) (k : ℕ) (hgroup : l.needsGroup = true → taken ≠ [] ∨ k ≠ 0) :
      Caught defined ⟨taken, k⟩ [l] ↔ (l.read defined ⟨taken, k⟩).skipped ≠ 0 := by
    rw [caught_read _ _ _ _ hgroup, caught_nil]
  refine ⟨fun {p taken} hp => ?_, fun {p taken k} hp hk => ?_⟩
  · by_cases hstray : l.needsGroup = true ∧ taken = []
    · obtain ⟨hl, rfl⟩ := hstray
      rw [← List.append_nil l.text.dropLast] at hp
      exact verdict_stray hp hl .last (.inl (.stray hl))
    have hgroup : l.needsGroup = true → taken ≠ [] := fun hl hnil => hstray ⟨hl, hnil⟩
    cases hl : l.hasCondition with
    | true => exact verdict_unfinished hp hgroup hl (.inr ⟨hl, rfl⟩)
    | false =>
        refine (verdict_last hp hgroup hl).congr ?_
        refine (or_iff_left ?_).trans (hend taken 0 fun hl => .inl (hgroup hl))
        exact fun hnone => absurd (show l.hasCondition = true from hnone.1) (by simp [hl])
  · obtain ⟨k, rfl⟩ := Nat.exists_eq_succ_of_ne_zero hk
    rw [← List.append_nil l.text.dropLast] at hp
    refine ((follows_nil disk defined).skip .last hp).congr ?_
    exact (or_iff_left fun hnone => k.succ_ne_zero hnone.2).trans (hend taken _ fun _ => .inr hk)

end Steps

/-- The run over lines follows the reader. -/
lemma follows (disk : Disk) (defined : List Byte → Bool) (lines : List Line) (last : Option Line) :
    Follows disk defined (linesText lines ++ lastText last) fun r =>
      Caught defined r (lines ++ last.toList) ∨ Unfinished defined r lines last := by
  induction lines with
  | nil =>
      cases last with
      | none =>
          refine (follows_nil disk defined).congr fun r => ?_
          exact (or_iff_left fun hnone => Bool.false_ne_true hnone.1).trans caught_nil
      | some l => exact follows_last disk defined l
  | cons l lines ih =>
      have hread (taken : List Bool) (k : ℕ) (hgroup : l.needsGroup = true → taken ≠ [] ∨ k ≠ 0) :
          Caught defined ⟨taken, k⟩ (l :: lines ++ last.toList) ↔
            Caught defined (l.read defined ⟨taken, k⟩) (lines ++ last.toList) :=
        caught_read defined ⟨taken, k⟩ l _ hgroup
      refine ⟨fun {p taken} hp => ?_, fun {p taken k} hp hk => ?_⟩
      · rw [linesText_cons, List.append_assoc] at hp
        by_cases hstray : l.needsGroup = true ∧ taken = []
        · obtain ⟨hl, rfl⟩ := hstray
          exact verdict_stray hp hl (.whole _) (.inl (.stray hl))
        · have hgroup : l.needsGroup = true → taken ≠ [] := fun hl hnil => hstray ⟨hl, hnil⟩
          exact (ih.step l hp hgroup).congr (or_congr (hread taken 0 fun hl => .inl (hgroup hl)) Iff.rfl)
      · rw [linesText_cons, List.append_assoc] at hp
        obtain ⟨k, rfl⟩ := Nat.exists_eq_succ_of_ne_zero hk
        exact (ih.skip (.whole _) hp).congr (or_congr (hread taken _ fun _ => .inr hk) Iff.rfl)

/-! ## Well-nested lines are read to the end -/

section WellNested

variable (defined : List Byte → Bool)

mutual

/-- Whole groups leave the counter of a skip as it is. -/
lemma Source.caught_skipped : ∀ (s : Source) (taken : List Bool) (k : ℕ) (rest : List Line),
    k + 1 + s.depth < 2 ^ 16 →
      (Caught defined ⟨taken, k + 1⟩ (s.lines ++ rest) ↔ Caught defined ⟨taken, k + 1⟩ rest)
  | .Done, _, _, _, _ => Iff.rfl
  | .Text t s, taken, k, rest, hdepth => by
      rw [Source.lines, List.cons_append, caught_read _ _ _ _ (by simp)]
      exact s.caught_skipped taken k rest hdepth
  | .Group o body arms s, taken, k, rest, hdepth => by
      rw [Source.depth] at hdepth
      have hmod : (k + 2) % 2 ^ 16 = k + 2 := Nat.mod_eq_of_lt (by omega)
      rw [Source.lines, List.cons_append, caught_read _ _ _ _ (by simp), Line.read, hmod, List.append_assoc,
        body.caught_skipped taken (k + 1) _ (by omega), List.append_assoc,
        arms.caught_skipped taken k _ (by omega)]
      exact s.caught_skipped taken k rest (by omega)

/-- The further arms of a group take it off the counter of a skip. -/
lemma Arms.caught_skipped : ∀ (arms : Arms) (taken : List Bool) (k : ℕ) (rest : List Line),
    k + 2 + arms.depth < 2 ^ 16 →
      (Caught defined ⟨taken, k + 2⟩ (arms.lines ++ rest) ↔ Caught defined ⟨taken, k + 1⟩ rest)
  | .Endif e, taken, k, rest, _ => by
      rw [Arms.lines, List.cons_append, caught_read _ _ _ _ (by simp)]
      rfl
  | .Else b body e, taken, k, rest, hdepth => by
      rw [Arms.depth] at hdepth
      rw [Arms.lines, List.cons_append, caught_read _ _ _ _ (by simp), List.append_assoc]
      show Caught defined ⟨taken, k + 2⟩ _ ↔ _
      rw [body.caught_skipped taken (k + 1) _ (by omega), List.cons_append, caught_read _ _ _ _ (by simp)]
      rfl
  | .Elif c body arms, taken, k, rest, hdepth => by
      rw [Arms.depth] at hdepth
      rw [Arms.lines, List.cons_append, caught_read _ _ _ _ (by simp), List.append_assoc]
      show Caught defined ⟨taken, k + 2⟩ _ ↔ _
      rw [body.caught_skipped taken (k + 1) _ (by omega)]
      exact arms.caught_skipped taken k rest (by omega)

end

mutual

/-- Outside a skip, whole groups may leave flags on the stack but take none off it. -/
lemma Source.caught_read : ∀ (s : Source) (taken : List Bool) (rest : List Line),
    s.depth < 2 ^ 16 - 1 → ∃ l, Caught defined ⟨taken, 0⟩ (s.lines ++ rest) ↔
      Caught defined ⟨l ++ taken, 0⟩ rest
  | .Done, taken, rest, _ => ⟨[], Iff.rfl⟩
  | .Text t s, taken, rest, hdepth => by
      obtain ⟨l, hl⟩ := s.caught_read taken rest hdepth
      refine ⟨l, ?_⟩
      rw [Source.lines, List.cons_append, Preprocessor.caught_read _ _ _ _ (by simp [Line.needsGroup])]
      exact hl
  | .Group o body arms s, taken, rest, hdepth => by
      rw [Source.depth] at hdepth
      simp only [Source.lines, List.cons_append, List.append_assoc]
      obtain ⟨own, k, hne, hk, hbody⟩ : ∃ own k, own ≠ [] ∧ k < 2 ∧
          (Caught defined ⟨taken, 0⟩ (.Open o :: (body.lines ++ (arms.lines ++ (s.lines ++ rest)))) ↔
            Caught defined ⟨own ++ taken, k⟩ (arms.lines ++ (s.lines ++ rest))) := by
        rw [Preprocessor.caught_read _ _ _ _ (by simp [Line.needsGroup]), Line.read]
        cases o.holds defined with
        | true =>
            obtain ⟨l, hl⟩ := body.caught_read (true :: taken) (arms.lines ++ (s.lines ++ rest))
              (by omega)
            exact ⟨l ++ [true], 0, by simp, by decide, by simpa using hl⟩
        | false =>
            exact ⟨[false], 1, by simp, by decide,
              body.caught_skipped defined (false :: taken) 0 _ (by omega)⟩
      obtain ⟨l, hl⟩ := arms.caught_read own taken k (s.lines ++ rest) hne hk (by omega)
      obtain ⟨l', hl'⟩ := s.caught_read (l ++ taken) rest (by omega)
      exact ⟨l' ++ l, by rw [hbody, hl, hl', List.append_assoc]⟩

/-- The further arms of a group take off the stack no more than the flags of this group. -/
lemma Arms.caught_read : ∀ (arms : Arms) (own taken : List Bool) (k : ℕ) (rest : List Line),
    own ≠ [] → k < 2 → arms.depth < 2 ^ 16 - 1 →
      ∃ l, Caught defined ⟨own ++ taken, k⟩ (arms.lines ++ rest) ↔
        Caught defined ⟨l ++ taken, 0⟩ rest
  | .Endif e, own, taken, k, rest, hne, hk, _ => by
      obtain ⟨b, own, rfl⟩ := List.exists_cons_of_ne_nil hne
      have hread := Preprocessor.caught_read defined ⟨b :: own ++ taken, k⟩
        (.Endif e) rest fun _ => .inl (by simp)
      rcases k with _ | _ | k
      · exact ⟨own, hread⟩
      · exact ⟨b :: own, hread⟩
      · omega
  | .Else e₀ body e, own, taken, k, rest, hne, hk, hdepth => by
      rw [Arms.depth] at hdepth
      obtain ⟨b, own, rfl⟩ := List.exists_cons_of_ne_nil hne
      have hread := Preprocessor.caught_read defined ⟨b :: own ++ taken, k⟩
        (.Else e₀) (body.lines ++ ([.Endif e] ++ rest)) fun _ => .inl (by simp)
      simp only [Arms.lines, List.cons_append, List.append_assoc] at hread ⊢
      simp only [hread]
      -- the body is read or skipped, and the `#endif` follows it
      have hbody : ∀ (b' : Bool) (j : ℕ), j < 2 →
          ∃ l, Caught defined ⟨b' :: own ++ taken, j⟩ (body.lines ++ ([.Endif e] ++ rest)) ↔
            Caught defined ⟨l ++ taken, 0⟩ rest := by
        intro b' j hj
        rcases j with _ | _ | j
        · obtain ⟨l, hl⟩ := body.caught_read (b' :: own ++ taken) ([.Endif e] ++ rest) hdepth
          refine ⟨(l ++ b' :: own).tail, ?_⟩
          rw [hl, List.singleton_append, Preprocessor.caught_read _ _ _ _ (by simp), Line.read,
            ← List.append_assoc, List.tail_append_of_ne_nil (by simp)]
        · refine ⟨b' :: own, ?_⟩
          rw [body.caught_skipped defined _ 0 _ (by omega), List.singleton_append,
            Preprocessor.caught_read _ _ _ _ (by simp)]
          rfl
        · omega
      rcases k with _ | _ | k
      · exact hbody true (if b then 1 else 0) (by cases b <;> decide)
      · exact hbody b (if b then 1 else 0) (by cases b <;> decide)
      · omega
  | .Elif c body arms, own, taken, k, rest, hne, hk, hdepth => by
      rw [Arms.depth] at hdepth
      obtain ⟨b, own, rfl⟩ := List.exists_cons_of_ne_nil hne
      have hread := Preprocessor.caught_read defined ⟨b :: own ++ taken, k⟩
        (.Elif c) (body.lines ++ (arms.lines ++ rest)) fun _ => .inl (by simp)
      simp only [Arms.lines, List.cons_append, List.append_assoc] at hread ⊢
      simp only [hread]
      have hbody : ∀ (b' : Bool) (j : ℕ), j < 2 →
          ∃ l, Caught defined ⟨b' :: own ++ taken, j⟩ (body.lines ++ (arms.lines ++ rest)) ↔
            Caught defined ⟨l ++ taken, 0⟩ rest := by
        intro b' j hj
        rcases j with _ | _ | j
        · obtain ⟨l, hl⟩ := body.caught_read (b' :: own ++ taken) (arms.lines ++ rest) (by omega)
          obtain ⟨l', hl'⟩ := arms.caught_read (l ++ b' :: own) taken 0 rest (by simp) (by omega)
            (by omega)
          exact ⟨l', by rw [hl, ← List.append_assoc, hl']⟩
        · obtain ⟨l', hl'⟩ := arms.caught_read (b' :: own) taken 1 rest (by simp) (by omega)
            (by omega)
          exact ⟨l', by rw [body.caught_skipped defined _ 0 _ (by omega), hl']⟩
        · omega
      rcases k with _ | _ | k
      · cases b with
        | true => exact hbody true 1 (by decide)
        | false => exact hbody c.lit.holds (if c.lit.holds then 0 else 1) (by split <;> decide)
      · exact hbody b (if b then 1 else 0) (by cases b <;> decide)
      · omega

end

/-- A well-nested source is not caught, as long as its skipped groups do not overflow the
counter. -/
lemma Source.not_caught (s : Source) (hdepth : s.depth < 2 ^ 16 - 1) :
    ¬ Caught defined {} s.lines := by
  obtain ⟨l, hl⟩ := s.caught_read defined [] [] hdepth
  rw [List.append_nil] at hl
  rw [hl, caught_nil, not_not]

end WellNested

/-! ## What `process` accepts -/

/-- `process` leaves an empty input stack. -/
def ConsumesInput (disk : Disk) (p : Preprocessor) : Prop :=
  ∃ q, Returns disk p (0, q) ∧ q.inputStack = []

lemma step_failed {code : ℤ} {n : ℕ} (h : p.step disk n = .failed code q) : code < 0 := by
  rw [step] at h
  split at h
  · cases h
  · dsimp only at h
    split_ifs at h
    split at h
    · cases h
    · split_ifs at h
      cases h
      assumption

lemma step_finished {n : ℕ} (h : p.step disk n = .finished) : p.inputStack = [] := by
  rw [step] at h
  split at h
  · assumption
  · dsimp only at h
    split_ifs at h
    split at h
    · cases h
    · split_ifs at h

lemma process_ends {code : ℤ} {n : ℕ} (h : process disk n p = some (code, q)) :
    code < 0 ∨ (code = 0 ∧ q.inputStack = []) := by
  induction n generalizing p with
  | zero => cases h
  | succ n ih =>
      rw [process] at h
      split at h
      · exact ih h
      · cases h
        exact .inl (step_failed ‹_›)
      · cases h
        exact .inr ⟨rfl, step_finished ‹_›⟩
      · cases h

/-- The source is reported at one of the three places. -/
def Reported (defined : List Byte → Bool) (lines : List Line) (last : Option Line) : Prop :=
  Caught defined {} (lines ++ last.toList) ∨ Unfinished defined {} lines last

instance (lines : List Line) (last : Option Line) : Decidable (Reported defined lines last) :=
  inferInstanceAs (Decidable (_ ∨ _))

lemma consumesInput_iff (disk : Disk) {lines : List Line} {last : Option Line}
    (h : Opens p (linesText lines ++ lastText last)) (hflags : p.branchFlags = []) :
    ConsumesInput disk p ↔ ¬ Reported p.isDefined lines last := by
  obtain ⟨f, hstack, -⟩ := h.frame
  have hreads : Reads p.isDefined [] (linesText lines ++ lastText last) p :=
    ⟨⟨[], h.at⟩, by rw [hstack, List.tail_cons], by rw [hflags]; rfl, rfl⟩
  obtain ⟨⟨code, q⟩, hret, hcode⟩ := (follows disk p.isDefined lines last).verdict hreads
  constructor
  · rintro ⟨q', hret', -⟩ hcaught
    have hzero : code = 0 := congrArg Prod.fst (hret.unique hret')
    rcases hcode with ⟨-, hneg⟩ | ⟨hnot, -⟩
    · rw [hzero] at hneg
      exact absurd hneg (Int.lt_irrefl 0)
    · exact hnot hcaught
  · intro hnot
    rcases hcode with ⟨hcaught, -⟩ | ⟨-, hzero⟩
    · exact absurd hcaught hnot
    · obtain rfl : code = 0 := hzero
      obtain ⟨N, hN⟩ := hret
      rcases process_ends (hN N le_rfl) with hneg | ⟨-, hnil⟩
      · exact absurd hneg (Int.lt_irrefl 0)
      · exact ⟨q, ⟨N, hN⟩, hnil⟩

lemma Arms.getLast_lines : ∀ arms : Arms, ∃ e, arms.lines.getLast? = some (.Endif e)
  | .Endif e => ⟨e, rfl⟩
  | .Else b body e => ⟨e, by simp [Arms.lines, List.getLast?_cons]⟩
  | .Elif c body arms => by
      obtain ⟨e, he⟩ := arms.getLast_lines
      exact ⟨e, by simp [Arms.lines, List.getLast?_cons, List.getLast?_append, he]⟩

/-- The last line of a source has no condition: it is text or an `#endif`. -/
lemma Source.getLast_lines : ∀ (s : Source), ∀ l ∈ s.lines.getLast?, l.hasCondition = false
  | .Done, _, hl => by cases hl
  | .Text t s, l, hl => by
      rw [Source.lines, List.getLast?_cons] at hl
      cases hlast : s.lines.getLast? with
      | none =>
          rw [hlast] at hl
          cases hl
          rfl
      | some l' =>
          rw [hlast] at hl
          cases hl
          exact s.getLast_lines _ hlast
  | .Group o body arms s, l, hl => by
      obtain ⟨e, he⟩ := arms.getLast_lines
      rw [Source.lines, List.getLast?_cons, List.getLast?_append, List.getLast?_append, he] at hl
      cases hlast : s.lines.getLast? with
      | none =>
          rw [hlast] at hl
          cases hl
          rfl
      | some l' =>
          rw [hlast] at hl
          cases hl
          exact s.getLast_lines _ hlast

/-- A well-nested source is read to its end, with or without a newline there. -/
lemma Source.not_reported (s : Source) {lines : List Line} {last : Option Line}
    (hs : s.lines = lines ++ last.toList) (hdepth : s.depth < 2 ^ 16 - 1) :
    ¬ Reported defined lines last := by
  rintro (hcaught | ⟨hcondition, -⟩)
  · exact s.not_caught defined hdepth (hs ▸ hcaught)
  · cases last with
    | none => cases hcondition
    | some l =>
        have hlast := s.getLast_lines l (by rw [hs]; exact List.getLast?_concat)
        exact Bool.false_ne_true (hlast.symm.trans hcondition)

/-- **Unbalanced conditionals.**  `process` reports the sources that are caught or unfinished and no
others, so that it accepts the well-nested ones and no others exactly for the sources that are either
well nested or reported but not both; and a well-nested source without overflow of the counter is
accepted. -/
theorem process_nesting (disk : Disk) (p : Preprocessor) (lines : List Line) (last : Option Line)
    (h : Opens p (linesText lines ++ lastText last)) (hflags : p.branchFlags = []) :
    ((ConsumesInput disk p ↔ WellNested (lines ++ last.toList)) ↔
      (WellNested (lines ++ last.toList) ∧ ¬ Reported p.isDefined lines last) ∨
        (¬ WellNested (lines ++ last.toList) ∧ Reported p.isDefined lines last)) ∧
    ∀ s : Source, s.lines = lines ++ last.toList → s.depth < 2 ^ 16 - 1 → ConsumesInput disk p := by
  have hiff := consumesInput_iff disk h hflags
  refine ⟨?_, fun s hs hdepth => hiff.mpr (s.not_reported hs hdepth)⟩
  rw [hiff]
  tauto

section Samples

/-- A group whose arm is skipped, and an `#if 1` behind it that is the last line and has no newline. -/
def skippedGroup : List Line := [.Open (.If (condLine .Zero)), .Endif noBlanks]

/-- `#if 1` without an `#endif`. -/
def unclosedLines : List Line := [.Open (.If (condLine .One))]

/-- `#if 0`, `#endif` and a stray `#endif`. -/
def leftoverLines : List Line :=
  [.Open (.If (condLine .Zero)), .Endif noBlanks, .Endif noBlanks]

/-- A group with two `#else`. -/
def twoElseLines : List Line :=
  [.Open (.If (condLine .One)), .Else noBlanks, .Else noBlanks, .Endif noBlanks]

mutual

/-- Every opening line has its `#endif`. -/
lemma Source.count_lines : ∀ s : Source,
    s.lines.countP (fun l => l matches .Open _) = s.lines.countP (fun l => l matches .Endif _)
  | .Done => rfl
  | .Text t s => by simpa [Source.lines] using s.count_lines
  | .Group o body arms s => by
      have hbody := body.count_lines
      have harms := arms.count_lines
      have hrest := s.count_lines
      simp only [Source.lines, List.countP_cons, List.countP_append]
      simp
      omega

lemma Arms.count_lines : ∀ arms : Arms,
    arms.lines.countP (fun l => l matches .Open _) + 1 =
      arms.lines.countP (fun l => l matches .Endif _)
  | .Endif e => rfl
  | .Else b body e => by
      have hbody := body.count_lines
      simp only [Arms.lines, List.countP_cons, List.countP_append]
      simp
      omega
  | .Elif c body arms => by
      have hbody := body.count_lines
      have harms := arms.count_lines
      simp only [Arms.lines, List.countP_cons, List.countP_append]
      simp
      omega

end

/-- No source begins with a directive that needs a group. -/
lemma Source.lines_eq_nil : ∀ (s : Source) {a b : List Line} {l : Line}, l.needsGroup = true →
    s.lines ++ a = l :: b → s.lines = []
  | .Done, _, _, _, _, _ => rfl
  | .Text t s, _, _, _, hl, heq => by
      rw [← (List.cons.inj heq).1] at hl
      cases hl
  | .Group o body arms s, _, _, _, hl, heq => by
      rw [← (List.cons.inj heq).1] at hl
      cases hl

lemma not_wellNested_of_count {lines : List Line}
    (h : lines.countP (fun l => l matches .Open _) ≠ lines.countP (fun l => l matches .Endif _)) :
    ¬ WellNested lines := by
  rintro ⟨s, rfl⟩
  exact h s.count_lines

lemma twoElseLines_not_wellNested : ¬ WellNested twoElseLines := by
  rintro ⟨s, hs⟩
  cases s with
  | Done => cases hs
  | Text t s => cases (List.cons.inj hs).1
  | Group o body arms s =>
      have hgroup := (List.cons.inj hs).2
      have hbody := body.lines_eq_nil rfl hgroup
      rw [hbody, List.nil_append] at hgroup
      cases arms with
      | Endif e => cases (List.cons.inj hgroup).1
      | Elif c body' arms => cases (List.cons.inj hgroup).1
      | Else b body' e =>
          rw [Arms.lines, List.cons_append, List.append_assoc] at hgroup
          have helse := (List.cons.inj hgroup).2
          rw [body'.lines_eq_nil rfl helse, List.nil_append] at helse
          cases (List.cons.inj helse).1

theorem process_nesting_sample :
    let text := linesText skippedGroup ++ lastText (some (.Open (.If (condLine .One))))
    ConsumesInput (fun _ => none) (ofText text) ↔
      WellNested (skippedGroup ++ [.Open (.If (condLine .One))]) :=
  (process_nesting _ _ skippedGroup (some _) (opens_ofText (by decide)) rfl).1.mpr
    (.inr ⟨not_wellNested_of_count (by decide), by decide⟩)

/-- The source of these lines is consumed to its end although they are not well nested. -/
def Overlooked (lines : List Line) : Prop :=
  Opens (ofText (linesText lines)) (linesText lines) ∧
    ConsumesInput (fun _ => none) (ofText (linesText lines)) ∧ ¬ WellNested lines

lemma overlooked_of {lines : List Line} (hlen : (linesText lines).length < 2 ^ 32)
    (hnot : ¬ Reported (ofText (linesText lines)).isDefined lines none)
    (hbad : ¬ WellNested lines) : Overlooked lines := by
  have hopens := opens_ofText hlen
  have hopens' : Opens (ofText (linesText lines)) (linesText lines ++ lastText none) := by
    rw [lastText, Option.map_none, Option.getD_none, List.append_nil]
    exact hopens
  exact ⟨hopens, (consumesInput_iff _ hopens' rfl).mpr hnot, hbad⟩

/-- A missing `#endif`, a stray `#endif` and a second `#else` that are not rejected. -/
theorem malformed_consumed :
    Overlooked unclosedLines ∧ Overlooked leftoverLines ∧ Overlooked twoElseLines := by
  refine ⟨overlooked_of (by decide) (by decide) (not_wellNested_of_count (by decide)),
    overlooked_of (by decide) (by decide) (not_wellNested_of_count (by decide)),
    overlooked_of (by decide) (by decide) twoElseLines_not_wellNested⟩

end Samples

end Preprocessor

end LogicCompiler
