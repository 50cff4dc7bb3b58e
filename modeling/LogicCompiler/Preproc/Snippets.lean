import LogicCompiler.File.Newlines
import LogicCompiler.Preproc.Points

/-!
# Snippets

What an iteration of the main loop cuts out of its frame: the pieces between two cursors that it
builds with `from()`, `to()` or by hand and reads through the file store.  Offset and size of a piece are
`uint32_t`s: a piece whose end lies before its beginning is nearly `2 ^ 32` bytes long, and a piece of a
frame that reaches beyond `2 ^ 32` bytes of the buffer could begin anywhere.  So the buffer has to stay
below `2 ^ 32` bytes, all loaded files together (`SmallBuffer`).

All pieces but two lie inside the frame (`snippets_inside_iff`).  The condition of `#if` and `#elif`
begins behind the blanks of the line, and its end is found by stepping back over blanks from the end
of the line; when nothing else is there, the step back passes the beginning.  The name of a `#param`
begins behind the frame when its type is cut off at the end of it.
-/

namespace LogicCompiler

namespace Preprocessor

variable {p q : Preprocessor} {disk : Disk} {pre post : List Byte} {start stop : ℕ}

/-! ## What is cut out -/

/-- The piece of the top frame between two cursors, in the arithmetic of `uint32_t`. -/
def cut (p : Preprocessor) (start stop : ℕ) : Snippet :=
  { offset := (p.sourceContent.offset + start) % 2 ^ 32, size := (stop + (2 ^ 32 - start)) % 2 ^ 32 }

/-- The snippet lies inside the top frame. -/
def Encloses (p : Preprocessor) (s : Snippet) : Prop :=
  p.sourceContent.offset ≤ s.offset ∧ s.offset + s.size ≤ p.sourceContent.offset + p.size

/-- `from`, as long as the frame stays below `2 ^ 32` bytes of the buffer. -/
lemma fromCursor_eq_cut (h : p.sourceContent.offset + start < 2 ^ 32) :
    p.fromCursor start = p.cut start p.cursor := by
  rw [fromCursor, cut, Nat.mod_eq_of_lt h]

/-- `to` is the same piece, as long as its end is not in front of the cursor. -/
lemma toCursor_eq_cut (h : p.cursor ≤ stop) (hstop : p.sourceContent.offset + stop < 2 ^ 32) :
    p.toCursor stop = p.cut p.cursor stop := by
  rw [toCursor, cut, Snippet.mk.injEq]
  exact ⟨(Nat.mod_eq_of_lt (by omega)).symm, by omega⟩

/-- The heads of the iterations of the loop of `handle_define` over the lines of the value. -/
inductive ContinuationLine : Preprocessor → Preprocessor → Prop
  | head (p : Preprocessor) : ContinuationLine p p
  | next {p q : Preprocessor} {endL : ℕ} (hf : p.findNext '\n' = some endL)
      (hcont : hasContinuation (p.fileMgr.read (p.toCursor endL)) = true)
      (h : ContinuationLine (p.setCursor (endL + 1)) q) : ContinuationLine p q

/-- Where the value of a `#define` ends, without the blanks behind it. -/
def defineEnd (p : Preprocessor) : ℕ :=
  let value := p.defineNames.ol
  value.cursor + ((((value.fileMgr.read value.sourceContent).take
    (continuationLoop value.rest.length value.cursor value).1).drop value.cursor).rdropWhile
      isBlank).length

/-- The handler of `t` reads a condition from the line. -/
def ReadsCondition (p : Preprocessor) (t : MacroType) : Prop :=
  t = .If ∨ t = .Elif ∧ p.branchFlags ≠ [] ∧ ¬ p.everTaken = true

/-- What the handlers cut out: the cursors of the pieces. -/
inductive HandlerCut : MacroType → Preprocessor → ℕ → ℕ → Prop
  | defineNames (p : Preprocessor) : HandlerCut .Define p p.ol.cursor p.defineNames.cursor
  | defineLine {p q : Preprocessor} (hline : ContinuationLine p.defineNames.ol q)
      (hend : ¬ q.atEnd = true) : HandlerCut .Define p q.cursor (q.orSize (q.findNext '\n'))
  | defineValue (p : Preprocessor) : HandlerCut .Define p p.defineNames.ol.cursor p.defineEnd
  | defineMNames (p : Preprocessor) : HandlerCut .Define_M p p.ol.cursor p.defineMNames.cursor
  | defineMValue {p : Preprocessor} {endDef : ℕ} (hf : p.defineMNames.findNextSeq "#enddef" = some endDef) :
      HandlerCut .Define_M p p.defineMNames.cursor endDef
  | includePath {p : Preprocessor} {t : MacroType} (ht : t = .Include ∨ t = .Import)
      (hend : ¬ p.ol.atEnd = true) {closeChar : Char} (hclose : p.ol.currChar = '"'.toUInt8 ∧
        closeChar = '"' ∨ p.ol.currChar = '<'.toUInt8 ∧ closeChar = '>') {nextC : ℕ}
      (hf : (p.ol.bump 1).findNext closeChar = some nextC) :
      HandlerCut t p (p.ol.bump 1).cursor nextC
  | condition {p : Preprocessor} {t : MacroType} (ht : p.ReadsCondition t) {endLine : ℕ}
      (hf : p.ol.findNext '\n' = some endLine) :
      HandlerCut t p p.ol.cursor (p.ol.setCursor endLine).olBack.cursor
  | ifndefName (p : Preprocessor) : HandlerCut .Ifndef p p.ol.cursor p.ol.skipIdent.cursor
  | paramType {p q : Preprocessor} (hend : ¬ p.ol.atEnd = true) (hopen : p.ol.currChar = '('.toUInt8)
      (hloop : parenLoop ((p.ol.bump 1).rest.length + 1) 1 (p.ol.bump 1) = some (0, q)) :
      HandlerCut .Param p (p.ol.bump 1).cursor q.cursor
  | paramName {p q : Preprocessor} (hq : p.paramClosed = some q) :
      HandlerCut .Param p (q.bump 1).ol.cursor (q.bump 1).ol.skipIdent.cursor
  | paramDefault {p q : Preprocessor} (hq : p.paramDefault = some q) :
      HandlerCut .Param p q.cursor (q.orSize (q.findNext '\n'))

/-- What the loop of `skip_if_branch` cuts out: the words of the directives it comes to. -/
inductive SkipCut : SkipState → ℕ → ℕ → Prop
  | word {s : SkipState} (hend : ¬ s.p.atEnd = true) (hhash : s.p.currChar = '#'.toUInt8) :
      SkipCut s s.p.cursor s.p.readDirective.2.cursor
  | again {s t : SkipState} {start stop : ℕ} (h : s.turn = .again t) (ht : SkipCut t start stop) :
      SkipCut s start stop

/-- What an iteration of the main loop that begins in `p` cuts out. -/
inductive Cuts (p : Preprocessor) : ℕ → ℕ → Prop
  | line (hs : p.inputStack ≠ []) (h : p.opensComment '/' = true) :
      Cuts p p.cursor (p.orSizeAdd (p.findNext '\n') 1)
  | block (hs : p.inputStack ≠ []) (h : p.opensComment '*' = true) :
      Cuts p p.cursor ((p.bump 2).orSizeAdd ((p.bump 2).findNextSeq "*/") 2)
  | word {t : MacroType} (h : p.directiveAhead = some t) : Cuts p p.cursor p.readDirective.2.cursor
  | ident (hs : p.inputStack ≠ []) (hend : ¬ p.atEnd = true)
      (hc : isIn identCharBitmask p.currChar = true) : Cuts p p.cursor p.skipIdent.cursor
  | handler {t : MacroType} {start stop : ℕ} (h : p.directiveAhead = some t)
      (hcut : HandlerCut t p.handlerState start stop) : Cuts p start stop
  | skip {fuel : ℕ} {r : Preprocessor} {start stop : ℕ} (h : p.decision fuel = some (.skipped r))
      (hcut : SkipCut { nestCount := 1, p := r } start stop) : Cuts p start stop

lemma Cuts.stacked (h : Cuts p start stop) : p.inputStack ≠ [] := by
  cases h with
  | line hs | block hs | ident hs => exact hs
  | word hahead | handler hahead => exact (stacked_of_ahead hahead).1
  | skip hdecision => exact decision_stacked hdecision

/-- Every piece that the iteration cuts out lies inside the frame. -/
def SnippetsInside (p : Preprocessor) : Prop :=
  ∀ start stop, Cuts p start stop → p.Encloses (p.cut start stop)

/-- An ordered piece lies inside, and one whose end is in front of its beginning does not. -/
lemma encloses_cut_iff (hstart : start ≤ p.size + 1) (hstop : stop ≤ p.size) (hsize : p.size < 2 ^ 32 - 8)
    (hroom : p.sourceContent.offset + p.size < 2 ^ 32) :
    p.Encloses (p.cut start stop) ↔ start ≤ stop := by
  rw [Encloses, cut]
  dsimp only
  constructor
  · rintro ⟨hbegin, hend⟩
    omega
  · intro h
    exact ⟨by omega, by omega⟩

/-! ## Most pieces lie inside -/

/-- What two cursors bound when one is reached from the other. -/
lemma ordered_of_forward {a b : Preprocessor} (hpa : Forward p a) (hab : Forward a b)
    (hp : p.cursor ≤ p.size) : a.cursor ≤ b.cursor ∧ b.cursor ≤ p.size := by
  have ha := (hpa.cursor hp).2
  have hb := hab.cursor (hpa.size ▸ ha)
  rw [hpa.size] at hb
  exact hb

/-- The same for a cursor that is found. -/
lemma ordered_of_found {a : Preprocessor} {n : ℕ} (hpa : Forward p a)
    (hab : Forward a (a.setCursor n)) (hs : p.inputStack ≠ []) (hp : p.cursor ≤ p.size) :
    a.cursor ≤ n ∧ n ≤ p.size := by
  have h := ordered_of_forward hpa hab hp
  rwa [setCursor_cursor _ _ (hpa.stacked hs)] at h

lemma ContinuationLine.forward (h : ContinuationLine p q) : Forward p q := by
  induction h with
  | head p => exact .refl p
  | next hf _ _ ih => exact (forward_found hf).trans ih

/-- The value of a `#define` ends inside the frame. -/
lemma defineEnd_bounds (hp : p.cursor ≤ p.size) :
    p.defineNames.ol.cursor ≤ p.defineEnd ∧ p.defineEnd ≤ p.size := by
  have hvalue : Forward p p.defineNames.ol := (forward_defineNames p).trans (forward_ol _)
  rw [defineEnd]
  generalize p.defineNames.ol = v at hvalue
  refine ⟨Nat.le_add_right _ _, ?_⟩
  have hin := hvalue.inside hp
  have hread : (v.fileMgr.read v.sourceContent).length ≤ v.size := by
    rw [FileManager.read, List.length_take]
    exact Nat.min_le_left _ _
  have htrim := (List.rdropWhile_prefix isBlank (((v.fileMgr.read v.sourceContent).take
    (continuationLoop v.rest.length v.cursor v).1).drop v.cursor)).length_le
  rw [List.length_drop, List.length_take] at htrim
  rw [hvalue.size] at hread
  omega

/-- The pieces of a handler are ordered, up to the two that can go wrong. -/
lemma HandlerCut.ordered {t : MacroType} (h : HandlerCut t p start stop) (hs : p.inputStack ≠ [])
    (hp : p.cursor ≤ p.size)
    (hcond : p.ReadsCondition t → ∀ endLine, p.ol.findNext '\n' = some endLine →
      p.ol.cursor ≤ (p.ol.setCursor endLine).olBack.cursor)
    (hno : t = .Param → ∀ r, p.paramClosed = some r → ¬ r.atEnd = true) :
    start ≤ stop ∧ stop ≤ p.size := by
  have hol := forward_ol p
  cases h with
  | defineNames =>
      exact ordered_of_forward hol ((forward_skipIdent _).trans (forward_aliasLoop _ _)) hp
  | defineLine hline hend =>
      have hq := ((forward_defineNames p).trans (forward_ol _)).trans hline.forward
      exact ordered_of_found hq (forward_toLine _ _) hs hp
  | defineValue => exact defineEnd_bounds hp
  | defineMNames => exact ordered_of_forward hol (forward_namesLoop _ _) hp
  | defineMValue hf =>
      have hin := (forward_defineMNames p).inside hp
      have hbounds := findNextSeq_bounds hf
      have hrest := rest_length_le _ ((forward_defineMNames p).size ▸ hin)
      rw [(forward_defineMNames p).size] at hrest
      omega
  | includePath ht hend hclose hf =>
      exact ordered_of_found (hol.trans (forward_bump_one hend)) (forward_foundAt hf) hs hp
  | condition ht hf =>
      have hline := hol.trans (forward_foundAt hf)
      exact ⟨hcond ht _ hf, (olBack_cursor_le (hline.stacked hs)).trans (hline.inside hp)⟩
  | ifndefName => exact ordered_of_forward hol (forward_skipIdent _) hp
  | paramType hend hopen hloop =>
      exact ordered_of_forward (hol.trans (forward_bump_one hend)) (forward_parenLoop hloop) hp
  | paramName hq =>
      have hname := ((forward_paramClosed hq).trans (forward_bump_one (hno rfl _ hq))).trans (forward_ol _)
      exact ordered_of_forward hname (forward_skipIdent _) hp
  | paramDefault hq => exact ordered_of_found (forward_paramDefault hq) (forward_toLine _ _) hs hp

lemma SkipCut.ordered {s : SkipState} (h : SkipCut s start stop) (hs : s.p.inputStack ≠ [])
    (hp : s.p.cursor ≤ s.p.size) : start ≤ stop ∧ stop ≤ s.p.size := by
  induction h with
  | word hend _ => exact ordered_of_forward (.refl _) (forward_readDirective hs hend).1 hp
  | again hturn _ ih =>
      have hforward := (SkipState.turn_again hs hturn).1
      have h := ih (hforward.stacked hs) (hforward.size ▸ hforward.inside hp)
      rwa [hforward.size] at h

/-- The pieces of an iteration are ordered, up to the two that can go wrong. -/
lemma Cuts.ordered (h : Cuts p start stop) (hs : p.inputStack ≠ []) (hp : p.cursor ≤ p.size)
    (hcond : ∀ t, p.directiveAhead = some t → p.handlerState.ReadsCondition t → ∀ endLine,
      p.handlerState.ol.findNext '\n' = some endLine →
        p.handlerState.ol.cursor ≤ (p.handlerState.ol.setCursor endLine).olBack.cursor)
    (hno : ¬ p.Overshoots) : start ≤ stop ∧ stop ≤ p.size := by
  cases h with
  | line _ h => exact ordered_of_found (.refl p) (forward_pastLine p) hs hp
  | block _ h =>
      have hopen := forward_bump_two ((opensComment_eq_true _ '*').mp h).2.1
      have hstart := (hopen.cursor hp).1
      have hend := ordered_of_found hopen (forward_pastSeq _ "*/") hs hp
      exact ⟨hstart.trans hend.1, hend.2⟩
  | word h =>
      exact ordered_of_forward (.refl p) (forward_readDirective hs (stacked_of_ahead h).2).1 hp
  | ident _ hend hc => exact ordered_of_forward (.refl p) (forward_skipIdent p) hp
  | handler h hcut =>
      have hstart := (handlerState_ahead h).1
      rw [← hstart.size]
      refine hcut.ordered (hstart.stacked hs) (hstart.size ▸ hstart.inside hp) (hcond _ h) ?_
      rintro rfl r hr hend
      exact hno ⟨h, r, hr, hend⟩
  | skip h hcut =>
      have hstart : Forward p _ := forward_decision h
      have hbounds := hcut.ordered (hstart.stacked hs) (hstart.size ▸ hstart.inside hp)
      exact ⟨hbounds.1, hbounds.2.trans_eq hstart.size⟩

/-! ## The condition of `#if` and `#elif` -/

lemma olBack_cursor (hat : At p pre post) : p.olBack.cursor = (pre.rdropWhile isBlank).length := by
  have hsplit := congrArg List.length (List.rdropWhile_append_rtakeWhile (p := isBlank) (l := pre))
  rw [List.length_append, List.rtakeWhile, List.length_reverse] at hsplit
  rw [olBack, setCursor_cursor _ _ hat.stacked, hat.text, hat.cursor, List.take_left]
  omega

/-- The step back from the end of the line stays behind the beginning of the condition, unless the
condition is blank and does not begin right behind the word. -/
lemma condition_ordered_iff {endLine : ℕ} (hat : At p pre post)
    (hpre : ∀ c ∈ pre.getLast?, isBlank c = false) (hf : p.ol.findNext '\n' = some endLine) :
    p.ol.cursor ≤ (p.ol.setCursor endLine).olBack.cursor ↔
      ¬ ∃ b r, post = b ++ '\n'.toUInt8 :: r ∧ b ≠ [] ∧ ∀ c ∈ b, isBlank c = true := by
  obtain ⟨b, w, rfl, hb, hw⟩ : ∃ b w, post = b ++ w ∧ (∀ c ∈ b, isBlank c = true) ∧
      ∀ c ∈ w.head?, isBlank c = false := by
    refine ⟨_, _, (List.takeWhile_append_dropWhile (p := isBlank)).symm,
      fun c hc => List.mem_takeWhile_imp hc, fun c hc => ?_⟩
    have hnot := List.head?_dropWhile_not isBlank post
    rw [Option.mem_def.mp hc] at hnot
    simpa using hnot
  have hatw := hat.bump
  rw [hat.ol hb hw] at hf ⊢
  have hmem : '\n'.toUInt8 ∈ w := by
    by_contra hno
    rw [hatw.findNext_none hno] at hf
    cases hf
  rcases List.eq_append_cons_of_mem hmem with ⟨l, r, rfl, hl⟩
  rw [hatw.findNext hl] at hf
  cases hf
  have hback := olBack_cursor hatw.bump
  rw [Preprocessor.bump] at hback
  rw [hback, hatw.cursor]
  cases l with
  | nil =>
      have hlen : ((pre ++ b ++ []).rdropWhile isBlank).length = pre.length := by
        rw [List.append_nil, Strip.rdropWhile_append_all hb, Strip.rdropWhile_of_last hpre]
      rw [hlen, List.length_append]
      constructor
      · rintro hle ⟨b', r', heq, hne, hblank⟩
        have hnil : b = [] := List.length_eq_zero_iff.mp (by omega)
        rw [hnil] at heq
        cases b' with
        | nil => exact hne rfl
        | cons d b' =>
            cases heq
            exact absurd (hblank _ List.mem_cons_self) (by decide)
      · intro hno
        have hnil : b = [] := by
          by_contra hne
          exact hno ⟨b, r, rfl, hne, hb⟩
        rw [hnil]
        exact le_rfl
  | cons c l =>
      have hc : isBlank c = false := hw c rfl
      refine iff_of_true ?_ ?_
      · have hsplit : pre ++ b ++ c :: l = pre ++ b ++ [c] ++ l := by simp
        rw [hsplit, Strip.rdropWhile_append_of_last (by simpa using hc)]
        simp
      · rintro ⟨b', r', heq, -, hblank⟩
        rw [List.cons_append] at heq
        have hnl : c ≠ '\n'.toUInt8 := fun h => hl (h ▸ List.mem_cons_self)
        rcases List.append_eq_append_iff.mp heq with ⟨u, rfl, hu⟩ | ⟨u, rfl, hu⟩
        · cases u with
          | nil => exact hnl (List.cons.inj hu).1
          | cons d u =>
              rw [List.cons_append, List.cons.injEq] at hu
              have hd := hblank d (by simp)
              rw [← hu.1, hc] at hd
              exact Bool.false_ne_true hd
        · cases u with
          | nil => exact hnl (List.cons.inj hu).1.symm
          | cons d u =>
              rw [List.cons_append, List.cons.injEq] at hu
              have hd := hb d (by simp)
              rw [← hu.1, newline_not_blank] at hd
              exact Bool.false_ne_true hd

/-- The condition of the directive in front of the cursor is blank, and does not begin right behind
the word. -/
def BlankCondition (p : Preprocessor) : Prop :=
  ∃ t, p.directiveAhead = some t ∧ p.handlerState.ReadsCondition t ∧
    ∃ b r, p.handlerState.rest = b ++ '\n'.toUInt8 :: r ∧ b ≠ [] ∧ ∀ c ∈ b, isBlank c = true

/-- Behind the word of a directive. -/
lemma handlerState_at {s rest : List Byte} (hat : At p pre (s ++ rest)) (hd : Directive s rest) :
    At p.handlerState (pre ++ s) rest := by
  have hmove : p.readDirective.2 = p.bump s.length := by rw [readDirective_eq hat hd]
  rw [handlerState, hmove]
  exact hat.bump.congr rfl rfl

lemma at_handlerState {t : MacroType} (hat : At p pre post) (h : p.directiveAhead = some t) :
    ∃ s rest, At p.handlerState (pre ++ s) rest ∧ ∀ c ∈ (pre ++ s).getLast?, isBlank c = false := by
  rcases exists_word_of_ahead hat h with ⟨s, rest, rfl, hd, -⟩
  refine ⟨s, rest, handlerState_at hat hd, fun c hc => ?_⟩
  have hne : s ≠ [] := by
    rw [hd.eq_cons]
    exact List.cons_ne_nil _ _
  rw [List.getLast?_append_of_ne_nil _ hne, hd.eq_cons] at hc
  have hmem := List.mem_of_getLast? hc
  rw [List.mem_cons] at hmem
  rcases hmem with rfl | hmem
  · rfl
  · exact isIdentChar_not_blank (hd.run c hmem)

/-- What the iteration cuts out is ordered when the condition is. -/
lemma condition_ordered {t : MacroType} (hat : At p pre post) (h : p.directiveAhead = some t)
    (hread : p.handlerState.ReadsCondition t) {endLine : ℕ}
    (hf : p.handlerState.ol.findNext '\n' = some endLine) :
    p.handlerState.ol.cursor ≤ (p.handlerState.ol.setCursor endLine).olBack.cursor ↔
      ¬ p.BlankCondition := by
  rcases at_handlerState hat h with ⟨s, rest, hword, hlast⟩
  rw [condition_ordered_iff hword hlast hf, not_iff_not, BlankCondition]
  rw [hword.rest]
  constructor
  · intro hblank
    exact ⟨t, h, hread, hblank⟩
  · rintro ⟨-, -, -, hblank⟩
    exact hblank

/-- Behind the end of the frame nothing is read, and the end of a name is the end of the frame. -/
lemma past_end (hs : p.inputStack ≠ []) (hend : p.atEnd = true) :
    (p.bump 1).ol.cursor = p.cursor + 1 ∧ (p.bump 1).ol.skipIdent.cursor = p.size := by
  have hle : p.size ≤ p.cursor := by simpa [atEnd] using hend
  have hmove : (p.bump 1).rest = [] := by
    rw [Preprocessor.rest, List.drop_eq_nil_iff, bump_cursor hs, FileManager.read, List.length_take]
    have hsize : (p.bump 1).sourceContent.size = p.size := setCursor_size _ _
    omega
  have hol : (p.bump 1).ol = p.bump 1 := by
    rw [ol, hmove]
    exact bump_zero _
  have hnone : (p.bump 1).findNextIdentInv = none := by
    rw [findNextIdentInv, hmove]
    rfl
  rw [hol, bump_cursor hs, skipIdent, hnone]
  refine ⟨rfl, ?_⟩
  rw [setCursor_cursor _ _ (bump_stacked hs 1)]
  exact setCursor_size _ _

/-- **What an iteration cuts out lies inside the frame**, unless it reads a blank condition or counts
the parentheses of a type past the end of the frame. -/
lemma snippetsInside_iff (hat : At p pre post) (hsmall : p.size < 2 ^ 32 - 8)
    (hroom : p.sourceContent.offset + p.size < 2 ^ 32) :
    p.SnippetsInside ↔ ¬ p.BlankCondition ∧ ¬ p.WrapsAtEnd := by
  have hp : p.cursor ≤ p.size := by
    rw [hat.cursor, hat.size]
    exact Nat.le_add_right _ _
  rw [← overshoots_iff hat]
  constructor
  · intro hin
    refine ⟨?_, ?_⟩
    · rintro ⟨t, hahead, hread, b, r, hrest, hne, hblank⟩
      rcases at_handlerState hat hahead with ⟨s, rest, hword, -⟩
      have hol := (handlerState_ahead hahead).1.trans (forward_ol _)
      obtain ⟨endLine, hf⟩ : ∃ n, p.handlerState.ol.findNext '\n' = some n := by
        rw [hword.rest] at hrest
        rw [hrest] at hword
        rw [hword.ol hblank (by simpa using newline_not_blank)]
        exact ⟨_, At.findNext (a := []) hword.bump List.not_mem_nil⟩
      have hline := hol.trans (forward_foundAt hf)
      have hencloses := hin _ _ (.handler hahead (.condition hread hf))
      have hstart := hol.inside hp
      have hstop := (olBack_cursor_le (hline.stacked hat.stacked)).trans (hline.inside hp)
      rw [encloses_cut_iff (by omega) hstop hsmall hroom, condition_ordered hat hahead hread hf] at hencloses
      exact hencloses ⟨t, hahead, hread, b, r, hrest, hne, hblank⟩
    · rintro ⟨hahead, q, hq, hend⟩
      have hmove := (handlerState_ahead hahead).1.trans (forward_paramClosed hq)
      have hencloses := hin _ _ (.handler hahead (.paramName hq))
      have hcursor : q.cursor = p.size := by
        have hle : q.size ≤ q.cursor := by simpa [atEnd] using hend
        exact le_antisymm (hmove.inside hp) (hmove.size ▸ hle)
      have hpast := past_end (hmove.stacked hat.stacked) hend
      rw [hpast.1, hpast.2, hmove.size, hcursor, encloses_cut_iff (by omega) le_rfl hsmall hroom] at hencloses
      omega
  · rintro ⟨hblank, hno⟩ start stop hcut
    have hbounds := hcut.ordered hat.stacked hp
      (fun t hahead hread endLine hf => (condition_ordered hat hahead hread hf).mpr hblank) hno
    exact (encloses_cut_iff (by omega) hbounds.2 hsmall hroom).mpr hbounds.1

/-! ## The frames of a run -/

/-- All of the snippet is in the buffer, and it is shorter than `2 ^ 32 - 8` bytes.  The content of
`_NOT_FOUND` has nothing in it and begins at `1`. -/
structure Stored (m : FileManager) (s : Snippet) : Prop where
  length : (m.read s).length = s.size
  small : s.size < 2 ^ 32 - 8
  inside : s.offset + s.size ≤ max 1 m.data.length

/-- What is stored behind it does not matter. -/
lemma Stored.append {m m' : FileManager} {s : Snippet} (h : Stored m s)
    (hdata : m.data <+: m'.data) : Stored m' s := by
  have hle := hdata.length_le
  refine ⟨?_, h.small, h.inside.trans (max_le_max le_rfl hle)⟩
  have hlen := h.length
  rw [FileManager.read, List.length_take, List.length_drop] at hlen ⊢
  omega

/-- No file on the disk has `2 ^ 32 - 8` bytes or more. -/
def SmallDisk (disk : Disk) : Prop := ∀ path raw, disk path = some raw → raw.length < 2 ^ 32 - 8

/-- The buffer is below `2 ^ 32` bytes, and it was when it held a file as it is on the disk, with the
newlines of other systems. -/
structure SmallBuffer (disk : Disk) (m : FileManager) : Prop where
  total : m.data.length < 2 ^ 32
  files : ∀ e ∈ m.loaded, ∀ raw ∈ disk (m.fullPath (m.getName e)),
    e.offsetBegin + (e.nameSize + 1 + raw.length) < 2 ^ 32

/-- Then the file was loaded as the source does it, in `uint32_t`. -/
lemma SmallBuffer.loadFileAt {m : FileManager} {path : List Byte}
    (h : SmallBuffer disk (m.loadFile disk path).2) :
    m.loadFileAt disk (some path) = m.loadFile disk path := by
  rw [FileManager.loadFile_eq] at h ⊢
  by_cases hknown : m.findFile (FileManager.cString path) ≠ FileManager.notFound
  · rw [FileManager.loadFileAt, if_pos hknown, if_pos hknown]
  · rw [← FileManager.loadFile_eq]
    refine FileManager.loadFileAt_eq fun raw hraw => ?_
    rw [if_neg hknown, Option.mem_def.mp hraw] at h
    have h : SmallBuffer disk (m.store (FileManager.cString path) (FileManager.normalizeNewlines raw)).2 := h
    have hname : FileManager.getName (m.store (FileManager.cString path)
        (FileManager.normalizeNewlines raw)).2 (m.store (FileManager.cString path)
          (FileManager.normalizeNewlines raw)).1 = FileManager.cString path := by
      simp [FileManager.getName, FileManager.read, FileManager.store]
    refine h.files _ (List.mem_append_right _ (List.mem_singleton_self _)) raw ?_
    exact hname.symm ▸ hraw

lemma findFile_mem {m : FileManager} {name : List Byte} (h : m.findFile name ≠ FileManager.notFound) :
    m.findFile name ∈ m.loaded := by
  rw [FileManager.findFile] at h ⊢
  split_ifs at h ⊢ with hempty
  · exact absurd rfl h
  · cases hfind : m.loaded.find? fun i => m.getName i == name with
    | none =>
        rw [hfind] at h
        exact absurd rfl h
    | some e => exact List.mem_of_find?_eq_some hfind

/-- A file that is loaded is all there. -/
lemma stored_loadFile {m : FileManager} (hdisk : SmallDisk disk)
    (hfiles : ∀ e ∈ m.loaded, Stored m e.content) (path : List Byte) :
    m.data <+: (m.loadFile disk path).2.data ∧
      Stored (m.loadFile disk path).2 (m.loadFile disk path).1.content ∧
      ∀ e ∈ (m.loadFile disk path).2.loaded, Stored (m.loadFile disk path).2 e.content := by
  rw [FileManager.loadFile_eq]
  by_cases hknown : m.findFile (FileManager.cString path) ≠ FileManager.notFound
  · rw [if_pos hknown]
    exact ⟨List.prefix_rfl, hfiles _ (findFile_mem hknown), hfiles⟩
  · rw [if_neg hknown]
    cases hraw : disk (m.fullPath (FileManager.cString path)) with
    | none =>
        refine ⟨List.prefix_rfl, ⟨?_, ?_, ?_⟩, hfiles⟩
        · simp [FileManager.read, FileInfo.content, FileManager.notFound]
        · simp [FileInfo.content, FileManager.notFound]
        · simp [FileInfo.content, FileManager.notFound]
    | some raw =>
        have hsmall := (FileManager.length_normalizeNewlines_le raw).trans_lt (hdisk _ raw hraw)
        have hdata : m.data <+: m.data ++ FileManager.cString path ++ [0] ++
            FileManager.normalizeNewlines raw :=
          ⟨FileManager.cString path ++ ([0] ++ FileManager.normalizeNewlines raw), by simp⟩
        have hcontent : Stored (m.store (FileManager.cString path) (FileManager.normalizeNewlines raw)).2
            (m.store (FileManager.cString path) (FileManager.normalizeNewlines raw)).1.content := by
          refine ⟨?_, hsmall, ?_⟩
          · rw [FileManager.read, List.length_take, List.length_drop]
            simp only [FileManager.store, FileInfo.content, List.length_append, List.length_singleton]
            omega
          · simp only [FileManager.store, FileInfo.content, List.length_append, List.length_singleton]
            omega
        refine ⟨hdata, hcontent, fun e he => ?_⟩
        rcases List.mem_append.mp he with he | he
        · exact (hfiles e he).append hdata
        · rw [List.mem_singleton.mp he]
          exact hcontent

/-- The frames and the loaded files of a state lie in its buffer. -/
structure Framed (p : Preprocessor) : Prop where
  frame : ∀ f ∈ p.inputStack, Stored p.fileMgr f.content ∧ f.cursor ≤ f.content.size
  file : ∀ e ∈ p.fileMgr.loaded, Stored p.fileMgr e.content

lemma Framed.at (h : Framed p) (hs : p.inputStack ≠ []) :
    p.size < 2 ^ 32 - 8 ∧ p.sourceContent.offset + p.size ≤ max 1 p.fileMgr.data.length ∧
      ∃ pre post, At p pre post := by
  cases hstack : p.inputStack with
  | nil => exact absurd hstack hs
  | cons f frames =>
      have htop : p.top = f := by simp [top, hstack]
      rcases h.frame f (by simp [hstack]) with ⟨hstored, hcursor⟩
      rw [← htop] at hstored hcursor
      have hsplit := List.take_append_drop p.cursor (p.fileMgr.read p.sourceContent)
      have hlen : (p.fileMgr.read p.sourceContent).length = p.size := hstored.length
      have hle : p.cursor ≤ p.size := hcursor
      have hsmall : p.size < 2 ^ 32 - 8 := hstored.small
      refine ⟨hsmall, hstored.inside, _, _, hs, hsplit.symm, ?_, ?_, by omega⟩
      · rw [List.length_take, hlen, Nat.min_eq_left hle]
      · rw [← List.length_append, hsplit, hlen]

lemma Framed.forward (h : Framed p) (hforward : Forward p q) (hs : p.inputStack ≠ []) : Framed q := by
  refine ⟨fun f hf => ?_, ?_⟩
  · rw [hforward.fileMgr]
    rcases List.exists_cons_of_ne_nil hs with ⟨g, frames, hg⟩
    rcases List.exists_cons_of_ne_nil (hforward.stacked hs) with ⟨g', frames', hg'⟩
    have hbelow := hforward.below
    have htop : p.top = g := by simp [top, hg]
    have htop' : q.top = g' := by simp [top, hg']
    have hcontent : q.top.content = p.top.content := hforward.sourceContent
    rw [htop, htop'] at hcontent
    rw [hg, hg', List.tail_cons, List.tail_cons] at hbelow
    rw [hg', List.mem_cons] at hf
    rcases hf with rfl | hf
    · have hstored := h.frame g (by simp [hg])
      have hcursor : q.top.cursor ≤ p.top.content.size := by
        refine hforward.inside ?_
        rw [Preprocessor.cursor, size, Preprocessor.sourceContent, htop]
        exact hstored.2
      rw [htop, htop'] at hcursor
      rw [hcontent]
      exact ⟨hstored.1, hcursor⟩
    · refine h.frame f ?_
      rw [hg]
      exact List.mem_cons_of_mem _ (hbelow ▸ hf)
  · rw [hforward.fileMgr]
    exact h.file

lemma Framed.turn (h : Framed p) (hdisk : SmallDisk disk) (hturn : Turn disk p q) : Framed q := by
  cases hturn with
  | pop hs hend => exact ⟨fun f hf => h.frame f (List.mem_of_mem_tail hf), h.file⟩
  | advance hs hend hforward hlt => exact h.forward hforward hs
  | @push r path hs hend ht hforward hlt hsize =>
      have hr := h.forward hforward hs
      rcases stored_loadFile hdisk hr.file path with ⟨hdata, hcontent, hfiles⟩
      refine ⟨fun f hf => ?_, hfiles⟩
      rcases List.mem_cons.mp hf with rfl | hf
      · exact ⟨hcontent, Nat.zero_le _⟩
      · exact ⟨(hr.frame f hf).1.append hdata, (hr.frame f hf).2⟩

lemma framed_ofFile (hdisk : SmallDisk disk) (basePath filePath : List Byte) :
    Framed (ofFile disk basePath filePath) := by
  have hload := @stored_loadFile disk { srcPath := some basePath } hdisk
    (fun e he => absurd he List.not_mem_nil) filePath
  refine ⟨fun f hf => ?_, hload.2.2⟩
  rw [List.mem_singleton.mp hf]
  exact ⟨hload.2.1, Nat.zero_le _⟩

lemma Framed.runs (h : Framed p) (hdisk : SmallDisk disk) (hruns : Runs disk p q) : Framed q := by
  induction hruns with
  | refl => exact h
  | tail _ hstep ih => exact ih.turn hdisk (turn_of_steps hstep)

/-- **Snippets.**  In every state that is reached with a buffer below `2 ^ 32` bytes, all that the next
iteration cuts out lies inside the frame, unless the iteration reads a blank condition that does not begin
right behind its word, or counts the parentheses of a type past the end of the frame. -/
theorem snippets_inside_iff (hdisk : SmallDisk disk) {basePath filePath : List Byte}
    (hruns : Runs disk (ofFile disk basePath filePath) q) (hbuffer : SmallBuffer disk q.fileMgr) :
    q.SnippetsInside ↔ ¬ q.BlankCondition ∧ ¬ q.WrapsAtEnd := by
  have hframed := (framed_ofFile hdisk basePath filePath).runs hdisk hruns
  by_cases hs : q.inputStack = []
  · have hnone {t : MacroType} : q.directiveAhead ≠ some t := fun h => (stacked_of_ahead h).1 hs
    refine iff_of_true ?_ ⟨?_, fun h => hnone h.1⟩
    · intro start stop hcut
      exact absurd hs hcut.stacked
    · rintro ⟨t, ht, -⟩
      exact hnone ht
  · rcases hframed.at hs with ⟨hsmall, hinside, pre, post, hat⟩
    have htotal := hbuffer.total
    exact snippetsInside_iff hat hsmall (by omega)

/-- The state `process` begins in when the file `/a` has this text. -/
def ofBytes (text : List Byte) : Preprocessor :=
  ofFile (fun path => if path = bytes "/a" then some text else none) (bytes "/") (bytes "a")

lemma at_ofBytes {text : List Byte} (hcr : '\r'.toUInt8 ∉ text) (hsmall : text.length < 2 ^ 32) :
    At (ofBytes text) [] text := by
  have hload : FileManager.loadFile (fun path => if path = bytes "/a" then some text else none)
      { srcPath := some (bytes "/") } (bytes "a") =
        FileManager.store { srcPath := some (bytes "/") } (bytes "a") text := by
    rw [FileManager.loadFile_eq, if_neg (by decide), if_pos (by decide)]
    exact congrArg (FileManager.store { srcPath := some (bytes "/") } (bytes "a"))
      (FileManager.normalizeNewlines_of_not_mem hcr)
  rw [ofBytes, ofFile, hload]
  have hread : ((FileManager.store { srcPath := some (bytes "/") } (bytes "a") text).2.read
      (FileManager.store { srcPath := some (bytes "/") } (bytes "a") text).1.content) = text :=
    List.take_length
  exact ⟨List.cons_ne_nil _ _, hread, rfl, (Nat.zero_add _).symm, hsmall⟩

/-- The first iteration over `#if 1`. -/
theorem snippets_inside_sample : (ofBytes (bytes "#if 1\n")).SnippetsInside := by
  have hat := at_ofBytes (show '\r'.toUInt8 ∉ bytes "#if" ++ bytes " 1\n" by decide) (by decide)
  have hd : Directive (bytes "#if") (bytes " 1\n") := ⟨rfl, by decide, by decide⟩
  have hahead := directiveAhead_eq hat hd
  refine (snippets_inside_iff (fun path raw hraw => ?_) .refl ⟨by decide, fun e he raw hraw => ?_⟩).mpr
    ⟨?_, ?_⟩
  · split_ifs at hraw
    cases hraw
    decide
  · obtain rfl := List.mem_singleton.mp he
    cases hraw
    decide
  · rintro ⟨t, -, -, b, r, hrest, hne, hblank⟩
    have hline : bytes " 1\n" = b ++ '\n'.toUInt8 :: r := (handlerState_at hat hd).rest.symm.trans hrest
    cases b with
    | nil => exact hne rfl
    | cons c b =>
        have htail := (List.cons.inj hline).2
        cases b with
        | nil => exact absurd (List.cons.inj htail).1 (by decide)
        | cons d b =>
            have hd := hblank d (by simp)
            rw [← (List.cons.inj htail).1] at hd
            exact absurd hd (by decide)
  · rintro ⟨hparam, -⟩
    exact absurd (hahead.symm.trans hparam) (by decide)

/-- The first iteration over `#if`, a blank and the end of the line cuts out nearly `2 ^ 32` bytes. -/
theorem blank_condition_leaves_frame :
    (bytes "#if \n").length < 2 ^ 32 - 8 ∧ ¬ (ofBytes (bytes "#if \n")).SnippetsInside := by
  have hat := at_ofBytes (show '\r'.toUInt8 ∉ bytes "#if" ++ bytes " \n" by decide) (by decide)
  have hd : Directive (bytes "#if") (bytes " \n") := ⟨rfl, by decide, by decide⟩
  have hrest := (handlerState_at hat hd).rest
  refine ⟨by decide, fun hin => ?_⟩
  refine ((snippetsInside_iff hat ?_ (by decide)).mp hin).1
    ⟨.If, directiveAhead_eq hat hd, .inl rfl, bytes " ", [], hrest, ?_, ?_⟩
  · rw [hat.size]
    decide
  · decide
  · decide

end Preprocessor

end LogicCompiler
