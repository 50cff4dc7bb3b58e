import LogicCompiler.Preproc.Halting

/-!
# Inside an iteration

The states behind the assignments to `cursor()`, handler by handler.  A loop of a handler only
moves the cursor forward and is represented by the state it ends in.

All of them stand inside the frame, with one exception.  `handle_param` counts the open parentheses
of the type in a `uint16_t`; a count that comes to zero by wrapping is taken for the closing
parenthesis, and the `++cursor()` that is meant to step over it leads out of a frame that ends
there.
-/

namespace LogicCompiler

namespace Preprocessor

variable {p q r : Preprocessor} {disk : Disk} {n : ℕ} {text pre post : List Byte}

/-! ## The points of the handlers -/

/-- The state behind the names of a `#define`. -/
def defineNames (p : Preprocessor) : Preprocessor :=
  aliasLoop p.ol.skipIdent.rest.length p.ol.skipIdent

/-- The state behind the names of a `#define_m`. -/
def defineMNames (p : Preprocessor) : Preprocessor := namesLoop p.ol.rest.length p.ol

/-- Where `handle_param` takes the type of its parameter for closed. -/
def paramClosed (p : Preprocessor) : Option Preprocessor :=
  if p.ol.atEnd ∨ p.ol.currChar ≠ '('.toUInt8 then none
  else
    match parenLoop ((p.ol.bump 1).rest.length + 1) 1 (p.ol.bump 1) with
    | some (0, q) =>
        if trim (q.fileMgr.read (q.fromCursor (p.ol.bump 1).cursor)) = [] then none else some q
    | _ => none

/-- Where `handle_param` begins with the default value. -/
def paramDefault (p : Preprocessor) : Option Preprocessor :=
  match p.paramClosed with
  | none => none
  | some q =>
      let name := (q.bump 1).ol.skipIdent
      if trim (name.fileMgr.read (name.fromCursor (q.bump 1).ol.cursor)) = [] ∨ name.ol.atEnd
          ∨ name.ol.currChar ≠ '='.toUInt8 then none
      else some ((name.ol.bump 1).ol)

/-- The states that the handler of a directive, called in `p`, can come to by an assignment. -/
inductive HandlerPoint : MacroType → Preprocessor → Preprocessor → Prop
  | defineOl (p : Preprocessor) : HandlerPoint .Define p p.ol
  | defineName (p : Preprocessor) : HandlerPoint .Define p p.ol.skipIdent
  | defineNames (p : Preprocessor) : HandlerPoint .Define p p.defineNames
  | defineValue (p : Preprocessor) : HandlerPoint .Define p p.defineNames.ol
  | defineEnd (p : Preprocessor) (contentEnd k : ℕ) :
      HandlerPoint .Define p (continuationLoop k contentEnd p.defineNames.ol).2
  | defineMOl (p : Preprocessor) : HandlerPoint .Define_M p p.ol
  | defineMNames (p : Preprocessor) : HandlerPoint .Define_M p p.defineMNames
  | defineMEnd {p : Preprocessor} {endDef : ℕ}
      (hf : p.defineMNames.findNextSeq "#enddef" = some endDef) :
      HandlerPoint .Define_M p (p.defineMNames.setCursor (endDef + 7))
  | defineMLine {p : Preprocessor} {endDef : ℕ}
      (hf : p.defineMNames.findNextSeq "#enddef" = some endDef) :
      HandlerPoint .Define_M p ((p.defineMNames.setCursor (endDef + 7)).pastFound
        ((p.defineMNames.setCursor (endDef + 7)).findNext '\n'))
  | condOl {t : MacroType} (ht : t = .If ∨ t = .Elif) (p : Preprocessor) : HandlerPoint t p p.ol
  | condLine {t : MacroType} (ht : t = .If ∨ t = .Elif) {p : Preprocessor} {endLine : ℕ}
      (hf : p.ol.findNext '\n' = some endLine) : HandlerPoint t p (p.ol.setCursor endLine)
  | condBack {t : MacroType} (ht : t = .If ∨ t = .Elif) {p : Preprocessor} {endLine : ℕ}
      (hf : p.ol.findNext '\n' = some endLine) : HandlerPoint t p (p.ol.setCursor endLine).olBack
  | condEnd {t : MacroType} (ht : t = .If ∨ t = .Elif) {p : Preprocessor} {endLine : ℕ}
      (hf : p.ol.findNext '\n' = some endLine) : HandlerPoint t p (p.ol.setCursor (endLine + 1))
  | ifndefOl (p : Preprocessor) : HandlerPoint .Ifndef p p.ol
  | ifndefName (p : Preprocessor) : HandlerPoint .Ifndef p p.ol.skipIdent
  | ifndefLine (p : Preprocessor) :
      HandlerPoint .Ifndef p (p.ol.skipIdent.pastFound (p.ol.skipIdent.findNext '\n'))
  | armLine {t : MacroType} (ht : t = .Else ∨ t = .Endif) (p : Preprocessor) :
      HandlerPoint t p (p.pastFound (p.findNext '\n'))
  | skipLine (p : Preprocessor) : HandlerPoint .Skip p (p.setCursor (p.orSizeAdd (p.findNext '\n') 1))
  | skipLines (p : Preprocessor) : HandlerPoint .Skip p p.handleSkip.2
  | paramOl (p : Preprocessor) : HandlerPoint .Param p p.ol
  | paramType {p : Preprocessor} (hopen : ¬ p.ol.atEnd = true) : HandlerPoint .Param p (p.ol.bump 1)
  | paramParens {p q : Preprocessor} {parenDepth : ℕ} (hopen : ¬ p.ol.atEnd = true)
      (hloop : parenLoop ((p.ol.bump 1).rest.length + 1) 1 (p.ol.bump 1) = some (parenDepth, q)) :
      HandlerPoint .Param p q
  | paramClosed {p q : Preprocessor} (hq : p.paramClosed = some q) : HandlerPoint .Param p (q.bump 1)
  | paramNameOl {p q : Preprocessor} (hq : p.paramClosed = some q) :
      HandlerPoint .Param p (q.bump 1).ol
  | paramName {p q : Preprocessor} (hq : p.paramClosed = some q) :
      HandlerPoint .Param p (q.bump 1).ol.skipIdent
  | paramAssign {p q : Preprocessor} (hq : p.paramClosed = some q) :
      HandlerPoint .Param p (q.bump 1).ol.skipIdent.ol
  | paramValue {p q : Preprocessor} (hq : p.paramClosed = some q)
      (hassign : ¬ (q.bump 1).ol.skipIdent.ol.atEnd = true) :
      HandlerPoint .Param p ((q.bump 1).ol.skipIdent.ol.bump 1)
  | paramDefault {p q : Preprocessor} (hq : p.paramDefault = some q) : HandlerPoint .Param p q
  | paramLine {p q : Preprocessor} (hq : p.paramDefault = some q) :
      HandlerPoint .Param p (q.setCursor (q.orSize (q.findNext '\n')))
  | paramEnd {p q : Preprocessor} (hq : p.paramDefault = some q)
      (hline : (q.findNext '\n').isSome = true) :
      HandlerPoint .Param p ((q.setCursor (q.orSize (q.findNext '\n'))).bump 1)

/-- The states within the loop of `skip_if_branch`, entered in `s`. -/
inductive SkipPoint : SkipState → Preprocessor → Prop
  | head (s : SkipState) : SkipPoint s s.p
  | comment {s : SkipState} (h : s.p.opensComment '*' = true) : SkipPoint s (s.p.bump 2)
  | hash {s : SkipState} (hend : ¬ s.p.atEnd = true) : SkipPoint s (s.p.bump 1)
  | name {s : SkipState} (hend : ¬ s.p.atEnd = true) : SkipPoint s s.p.readDirective.2
  | line {s : SkipState} (hend : ¬ s.p.atEnd = true) :
      SkipPoint s (s.p.readDirective.2.setCursor
        (s.p.readDirective.2.orSizeAdd (s.p.readDirective.2.findNext '\n') 1))
  | behind {s : SkipState} (hend : ¬ s.p.atEnd = true) :
      SkipPoint s (endBranching s.p.readDirective.2).2
  | again {s t : SkipState} {q : Preprocessor} (h : s.turn = .again t) (ht : SkipPoint t q) :
      SkipPoint s q

/-- The states within an iteration of the main loop that begins in `p`. -/
inductive Within (p : Preprocessor) : Preprocessor → Prop
  | start : Within p p
  | comment (h : p.opensComment '*' = true) : Within p (p.bump 2)
  | literal (hend : ¬ p.atEnd = true) : Within p (p.bump 1)
  | name {t : MacroType} (h : p.directiveAhead = some t) : Within p p.readDirective.2
  | handler {t : MacroType} {q : Preprocessor} (h : p.directiveAhead = some t)
      (hq : HandlerPoint t p.handlerState q) : Within p q
  | skip {fuel : ℕ} {r q : Preprocessor} (h : p.decision fuel = some (.skipped r))
      (hq : SkipPoint { nestCount := 1, p := r } q) : Within p q

/-! ## All but one stand inside the frame -/

/-- Somewhere in its frame, with the cursor inside it. -/
lemma Forward.inside (h : Forward p q) (hp : p.cursor ≤ p.size) : q.cursor ≤ p.size :=
  (h.cursor hp).2

lemma forward_defineNames (p : Preprocessor) : Forward p p.defineNames :=
  ((forward_ol p).trans (forward_skipIdent _)).trans (forward_aliasLoop _ _)

lemma forward_defineMNames (p : Preprocessor) : Forward p p.defineMNames :=
  (forward_ol p).trans (forward_namesLoop _ _)

lemma forward_foundSeq {sequence : String} {i : ℕ} (h : p.findNextSeq sequence = some i) :
    Forward p (p.setCursor (i + (bytes sequence).length)) := by
  have hseq := forward_pastSeq p sequence
  rwa [h] at hseq

lemma forward_foundAt {c : Char} {i : ℕ} (h : p.findNext c = some i) :
    Forward p (p.setCursor i) := by
  have hline := forward_toLine p c
  rwa [h] at hline

lemma forward_paramClosed (h : p.paramClosed = some q) : Forward p q := by
  rw [Preprocessor.paramClosed] at h
  split_ifs at h with hopen
  split at h
  · next heq =>
      split_ifs at h
      cases h
      exact ((forward_ol p).trans (forward_bump_one fun he => hopen (.inl he))).trans
        (forward_parenLoop heq)
  · cases h

lemma forward_paramDefault (h : p.paramDefault = some q) : Forward p q := by
  rw [Preprocessor.paramDefault] at h
  split at h
  · cases h
  · next r hr =>
      dsimp only at h
      split_ifs at h with hassign
      cases h
      have hname := (forward_paramClosed hr).trans (forward_nextName r)
      exact ((hname.trans (forward_ol _)).trans
        (forward_bump_one fun he => hassign (.inr (.inl he)))).trans (forward_ol _)

lemma olBack_cursor_le (hs : p.inputStack ≠ []) : p.olBack.cursor ≤ p.cursor := by
  rw [olBack, setCursor_cursor _ _ hs]
  exact Nat.sub_le _ _

/-- A point of a handler stands inside the frame, unless it is behind a closing parenthesis that is
none. -/
lemma HandlerPoint.inside {t : MacroType} (h : HandlerPoint t p q) (hs : p.inputStack ≠ [])
    (hp : p.cursor ≤ p.size) (hno : t = .Param → ∀ r, p.paramClosed = some r → ¬ r.atEnd = true) :
    q.cursor ≤ p.size := by
  have hol := forward_ol p
  cases h with
  | defineOl | defineMOl | condOl | ifndefOl | paramOl => exact hol.inside hp
  | defineName => exact (hol.trans (forward_skipIdent _)).inside hp
  | defineNames => exact (forward_defineNames p).inside hp
  | defineValue => exact ((forward_defineNames p).trans (forward_ol _)).inside hp
  | defineEnd contentEnd k =>
      exact (((forward_defineNames p).trans (forward_ol _)).trans
        (forward_continuationLoop _ _ _)).inside hp
  | defineMNames => exact (forward_defineMNames p).inside hp
  | defineMEnd hf => exact ((forward_defineMNames p).trans (forward_foundSeq hf)).inside hp
  | defineMLine hf =>
      exact (((forward_defineMNames p).trans (forward_foundSeq hf)).trans
        (forward_pastFound _ '\n')).inside hp
  | condLine _ hf => exact (hol.trans (forward_foundAt hf)).inside hp
  | condBack _ hf =>
      have hline := hol.trans (forward_foundAt hf)
      exact (olBack_cursor_le (hline.stacked hs)).trans (hline.inside hp)
  | condEnd _ hf => exact (hol.trans (forward_found hf)).inside hp
  | ifndefName => exact (hol.trans (forward_skipIdent _)).inside hp
  | ifndefLine =>
      exact ((hol.trans (forward_skipIdent _)).trans (forward_pastFound _ '\n')).inside hp
  | armLine => exact (forward_pastFound p '\n').inside hp
  | skipLine => exact (forward_pastLine p).inside hp
  | skipLines => exact (forward_handleSkip p).inside hp
  | paramType hopen => exact (hol.trans (forward_bump_one hopen)).inside hp
  | paramParens hopen hloop =>
      exact ((hol.trans (forward_bump_one hopen)).trans (forward_parenLoop hloop)).inside hp
  | paramClosed hq =>
      exact ((forward_paramClosed hq).trans (forward_bump_one (hno rfl _ hq))).inside hp
  | paramNameOl hq =>
      exact (((forward_paramClosed hq).trans (forward_bump_one (hno rfl _ hq))).trans
        (forward_ol _)).inside hp
  | paramName hq => exact ((forward_paramClosed hq).trans (forward_nextName _)).inside hp
  | paramAssign hq =>
      exact (((forward_paramClosed hq).trans (forward_nextName _)).trans (forward_ol _)).inside hp
  | paramValue hq hassign =>
      exact ((((forward_paramClosed hq).trans (forward_nextName _)).trans (forward_ol _)).trans
        (forward_bump_one hassign)).inside hp
  | paramDefault hq => exact (forward_paramDefault hq).inside hp
  | paramLine hq => exact ((forward_paramDefault hq).trans (forward_toLine _ _)).inside hp
  | paramEnd hq hline =>
      have hdef := forward_paramDefault hq
      exact (hdef.trans (forward_throughLine (hdef.stacked hs) hline)).inside hp

lemma SkipState.turn_again {s t : SkipState} (hs : s.p.inputStack ≠ []) (h : s.turn = .again t) :
    Forward s.p t.p ∧ s.p.cursor < t.p.cursor := by
  rcases s.turn_cases hs with ⟨r, hr, -⟩ | ⟨t', ht', hmove⟩
  · rw [h] at hr
    cases hr
  · rw [h] at ht'
    cases ht'
    exact hmove

lemma SkipPoint.forward {s : SkipState} (h : SkipPoint s q) (hs : s.p.inputStack ≠ []) :
    Forward s.p q := by
  induction h with
  | head s => exact .refl _
  | comment h => exact forward_bump_two ((opensComment_eq_true _ '*').mp h).2.1
  | hash hend => exact forward_bump_one hend
  | name hend => exact (forward_readDirective hs hend).1
  | line hend => exact (forward_readDirective hs hend).1.trans (forward_pastLine _)
  | behind hend => exact (forward_readDirective hs hend).1.trans (forward_endBranching _)
  | again h ht ih =>
      have hforward := (SkipState.turn_again hs h).1
      exact hforward.trans (ih (hforward.stacked hs))

lemma forward_decision {arm : Arm} (h : p.decision n = some arm) : Forward p arm.state := by
  rw [decision] at h
  split at h
  · next hahead => exact (handlerState_ahead hahead).1.trans (forward_ifArm h)
  · next hahead => exact (handlerState_ahead hahead).1.trans (forward_ifndefArm h)
  · next hahead =>
      cases h
      exact (handlerState_ahead hahead).1.trans (forward_elseArm _)
  · next hahead => exact (handlerState_ahead hahead).1.trans (forward_elifArm h)
  · cases h

/-- `handle_param` takes the end of the frame for the closing parenthesis. -/
def Overshoots (p : Preprocessor) : Prop :=
  p.directiveAhead = some .Param ∧
    ∃ q, p.handlerState.paramClosed = some q ∧ q.atEnd = true

lemma Within.inside (h : Within p q) (hs : p.inputStack ≠ []) (hp : p.cursor ≤ p.size)
    (hno : ¬ p.Overshoots) : q.cursor ≤ p.size := by
  cases h with
  | start => exact hp
  | comment h => exact (forward_bump_two ((opensComment_eq_true _ '*').mp h).2.1).inside hp
  | literal hend => exact (forward_bump_one hend).inside hp
  | name h => exact (forward_readDirective hs (stacked_of_ahead h).2).1.inside hp
  | handler h hq =>
      have hstart := (handlerState_ahead h).1
      rw [← hstart.size]
      refine hq.inside (hstart.stacked hs) (hstart.size ▸ hstart.inside hp) ?_
      rintro rfl r hr hend
      exact hno ⟨h, r, hr, hend⟩
  | skip h hq =>
      have hstart : Forward p _ := forward_decision h
      exact (hstart.trans (hq.forward (hstart.stacked hs))).inside hp

lemma Overshoots.outside (h : p.Overshoots) (hs : p.inputStack ≠ []) :
    ∃ q, Within p q ∧ p.size < q.cursor := by
  rcases h with ⟨hahead, q, hq, hend⟩
  have hmove := (handlerState_ahead hahead).1.trans (forward_paramClosed hq)
  refine ⟨q.bump 1, .handler hahead (.paramClosed hq), ?_⟩
  have hle : q.size ≤ q.cursor := by simpa [atEnd] using hend
  rw [bump_cursor (hmove.stacked hs), ← hmove.size]
  omega

lemma Forward.at (h : Forward p q) (hs : p.inputStack ≠ []) (hp : p.cursor ≤ p.size)
    (hat : At p pre post) : At q ((pre ++ post).take q.cursor) ((pre ++ post).drop q.cursor) := by
  have hin := h.inside hp
  have hlen : (pre ++ post).length = p.size := by rw [hat.size, List.length_append]
  refine ⟨h.stacked hs, ?_, ?_, ?_, ?_⟩
  · rw [h.fileMgr, h.sourceContent, hat.text, List.take_append_drop]
  · rw [List.length_take, Nat.min_eq_left (hlen ▸ hin)]
  · rw [h.size, ← List.length_append, List.take_append_drop, hlen]
  · exact h.size ▸ hat.small

/-! ### The count of open parentheses -/

section Parens

variable {w : List Byte}

/-- The parentheses that are opened and not closed. -/
def balance (w : List Byte) : ℤ := w.count '('.toUInt8 - w.count ')'.toUInt8

/-- Behind `d` open parentheses, all of `w` lies inside them on one line, and its last byte opens
parenthesis number `2 ^ 16`. -/
structure Wraps (d : ℤ) (w : List Byte) : Prop where
  line : '\n'.toUInt8 ∉ w
  counted : ∀ u v, w = u ++ v → v ≠ [] → 0 < d + balance u ∧ d + balance u < 2 ^ 16
  full : d + balance w = 2 ^ 16

lemma wraps_nil {d : ℤ} : Wraps d [] ↔ d = 2 ^ 16 := by
  constructor
  · intro h
    simpa [balance] using h.full
  · rintro rfl
    refine ⟨by simp, fun u v huv hv => ?_, by simp [balance]⟩
    exact absurd (List.append_eq_nil_iff.mp huv.symm).2 hv

lemma wraps_cons {d : ℤ} {c : Byte} :
    Wraps d (c :: w) ↔ c ≠ '\n'.toUInt8 ∧ (0 < d ∧ d < 2 ^ 16) ∧ Wraps (d + balance [c]) w := by
  have hcons : ∀ u : List Byte, balance (c :: u) = balance [c] + balance u := by
    intro u
    simp only [balance, List.count_cons, List.count_nil]
    push_cast
    split_ifs <;> omega
  constructor
  · intro h
    refine ⟨fun hc => h.line (by simp [hc]), by simpa [balance] using h.counted [] _ rfl (by simp),
      fun hc => h.line (List.mem_cons_of_mem _ hc), fun u v huv hv => ?_, ?_⟩
    · have hu := h.counted (c :: u) v (by rw [huv, List.cons_append]) hv
      rwa [hcons, ← add_assoc] at hu
    · rw [add_assoc, ← hcons]
      exact h.full
  · rintro ⟨hc, hd, h⟩
    refine ⟨fun hmem => ?_, fun u v huv hv => ?_, ?_⟩
    · rcases List.mem_cons.mp hmem with hmem | hmem
      · exact hc hmem.symm
      · exact h.line hmem
    · cases u with
      | nil => simpa [balance] using hd
      | cons b u =>
          cases huv
          rw [hcons, ← add_assoc]
          exact h.counted u v rfl hv
    · rw [hcons, ← add_assoc]
      exact h.full

/-- The loop of `handle_param` ends at the end of the frame with a zero count when the count has
wrapped there. -/
lemma parenLoop_wraps {d : ℕ} (hat : At q pre w) (hn : w.length < n) (hd : 0 < d ∧ d < 2 ^ 16) :
    (∃ r, parenLoop n d q = some (0, r) ∧ r.atEnd = true) ↔ Wraps d w := by
  induction w generalizing q pre n d with
  | nil =>
      cases n with
      | zero => exact absurd hn (lt_irrefl _)
      | succ n =>
          rw [wraps_nil, parenLoop, if_pos (.inl hat.atEnd_nil)]
          refine iff_of_false ?_ (by omega)
          rintro ⟨r, hr, -⟩
          cases hr
          exact absurd hd.1 (lt_irrefl 0)
  | cons c w ih =>
      cases n with
      | zero => exact absurd hn (Nat.not_lt_zero _)
      | succ n =>
          have hlen : w.length < n := Nat.lt_of_succ_lt_succ hn
          have hgo : ¬ (q.atEnd = true ∨ d = 0) := by
            rw [hat.atEnd_cons, not_or]
            exact ⟨Bool.false_ne_true, hd.1.ne'⟩
          have hnext (d' : ℕ) (hd' : 0 < d' ∧ d' < 2 ^ 16) :
              (∃ r, parenLoop n d' (q.bump 1) = some (0, r) ∧ r.atEnd = true) ↔ Wraps d' w :=
            ih hat.bump_one hlen hd'
          rw [wraps_cons, parenLoop, if_neg hgo, hat.currChar]
          by_cases hopen : c = '('.toUInt8
          · have hbal : balance [c] = 1 := by rw [hopen]; rfl
            have hline : c ≠ '\n'.toUInt8 := by rw [hopen]; decide
            rw [if_pos hopen, hbal]
            by_cases hfull : d + 1 = 2 ^ 16
            · -- the count wraps, and the loop takes that for the closing parenthesis
              have hzero : parenLoop n ((d + 1) % 2 ^ 16) (q.bump 1) = some (0, q.bump 1) := by
                rw [hfull, Nat.mod_self]
                cases n with
                | zero => rfl
                | succ n => rw [parenLoop, if_pos (.inr rfl)]
              have hend : (q.bump 1).atEnd = true ↔ w = [] := by
                rw [hat.bump_one.atEnd, decide_eq_true_iff]
              have hwraps : Wraps (d + 1) w ↔ w = [] := by
                cases w with
                | nil => exact iff_of_true (wraps_nil.mpr (by omega)) rfl
                | cons b w => exact iff_of_false (fun h => by have := (wraps_cons.mp h).2.1; omega) (by simp)
              rw [hzero, hwraps, ← hend]
              constructor
              · rintro ⟨r, hr, hrend⟩
                cases hr
                exact ⟨hline, by omega, hrend⟩
              · exact fun h => ⟨_, rfl, h.2.2⟩
            · rw [Nat.mod_eq_of_lt (by omega), hnext (d + 1) (by omega)]
              push_cast
              exact ⟨fun h => ⟨hline, by omega, h⟩, fun h => h.2.2⟩
          rw [if_neg hopen]
          by_cases hclose : c = ')'.toUInt8
          · have hbal : balance [c] = -1 := by rw [hclose]; rfl
            have hline : c ≠ '\n'.toUInt8 := by rw [hclose]; decide
            rw [if_pos hclose, hbal]
            by_cases hlast : d - 1 = 0
            · -- the closing parenthesis is still in front of the end
              rw [if_pos hlast]
              refine iff_of_false ?_ fun h => ?_
              · rintro ⟨r, hr, hrend⟩
                cases hr
                rw [hat.atEnd_cons] at hrend
                cases hrend
              · have hwraps := h.2.2
                cases w with
                | nil =>
                    have hfull := wraps_nil.mp hwraps
                    omega
                | cons b w =>
                    have hpos := (wraps_cons.mp hwraps).2.1
                    omega
            · rw [if_neg hlast, hnext (d - 1) (by omega)]
              have hcast : ((d - 1 : ℕ) : ℤ) = (d : ℤ) + -1 := by omega
              rw [hcast]
              exact ⟨fun h => ⟨hline, by omega, h⟩, fun h => h.2.2⟩
          rw [if_neg hclose]
          by_cases hline : c = '\n'.toUInt8
          · rw [if_pos hline]
            refine iff_of_false ?_ fun h => h.1 hline
            rintro ⟨r, hr, -⟩
            cases hr
          · have hbal : balance [c] = 0 := by simp [balance, hopen, hclose]
            rw [if_neg hline, hnext d hd, hbal, add_zero]
            exact ⟨fun h => ⟨hline, by omega, h⟩, fun h => h.2.2⟩

lemma Wraps.trim_ne_nil {d : ℤ} (h : Wraps d w) (hd : d < 2 ^ 16) : trim w ≠ [] := by
  intro htrim
  rcases Strip.exists_margins isSpace w with ⟨a, b, hw, ha, hb⟩
  rw [show Strip.strip isSpace w = [] from htrim, List.nil_append] at hw
  have hspace : ∀ c ∈ w, isSpace c = true := by
    intro c hc
    rw [hw] at hc
    exact (List.mem_append.mp hc).elim (ha c) (hb c)
  have hnone : w.count '('.toUInt8 = 0 :=
    List.count_eq_zero.mpr fun hmem => absurd (hspace _ hmem) (by decide)
  have hfull := h.full
  rw [balance, hnone] at hfull
  omega

/-- The parameter type that is opened in front of `p` is not closed: its parentheses wrap at the end
of the frame. -/
def WrapsAtEnd (p : Preprocessor) : Prop :=
  p.directiveAhead = some .Param ∧ ∃ w, p.handlerState.ol.rest = '('.toUInt8 :: w ∧ Wraps 1 w

lemma overshoots_iff (hat : At p pre post) : p.Overshoots ↔ p.WrapsAtEnd := by
  rw [Overshoots, WrapsAtEnd]
  refine and_congr_right fun hahead => ?_
  have hle : p.cursor ≤ p.size := by
    rw [hat.cursor, hat.size]
    exact Nat.le_add_right _ _
  have hol : Forward p p.handlerState.ol := (handlerState_ahead hahead).1.trans (forward_ol _)
  have hatol := hol.at hat.stacked hle hat
  generalize (pre ++ post).take p.handlerState.ol.cursor = pre' at hatol
  generalize (pre ++ post).drop p.handlerState.ol.cursor = post' at hatol
  rw [hatol.rest, Preprocessor.paramClosed]
  cases post' with
  | nil =>
      rw [if_pos (.inl hatol.atEnd_nil)]
      simp
  | cons c w =>
      by_cases hc : c = '('.toUInt8
      · subst hc
        have hopen : ¬ (p.handlerState.ol.atEnd = true ∨
            p.handlerState.ol.currChar ≠ '('.toUInt8) := by
          rw [hatol.atEnd_cons, hatol.currChar]
          simp
        have hin := hatol.bump_one
        have hwraps := parenLoop_wraps hin (Nat.lt_succ_self w.length)
          (show 0 < 1 ∧ 1 < 2 ^ 16 by decide)
        rw [if_neg hopen, hin.rest]
        constructor
        · rintro ⟨q, hq, hend⟩
          split at hq
          · next hloop =>
              split_ifs at hq
              cases hq
              exact ⟨w, rfl, hwraps.mp ⟨q, hloop, hend⟩⟩
          · cases hq
        · rintro ⟨w', hw', hw⟩
          cases hw'
          rcases hwraps.mpr hw with ⟨q, hloop, hend⟩
          have hin_le : (p.handlerState.ol.bump 1).cursor ≤ (p.handlerState.ol.bump 1).size := by
            rw [hin.cursor, hin.size]
            exact Nat.le_add_right _ _
          have hforward := forward_parenLoop hloop
          have hatq := hforward.at hin.stacked hin_le hin
          have hcur : q.cursor = ((pre' ++ ['('.toUInt8]) ++ w).length := by
            have hinside := hforward.inside hin_le
            have hbehind : q.size ≤ q.cursor := by simpa [atEnd] using hend
            rw [hforward.size] at hbehind
            rw [List.length_append, ← hin.size]
            exact le_antisymm hinside hbehind
          rw [hcur, List.take_length, List.drop_length] at hatq
          have htype : q.fileMgr.read (q.fromCursor (p.handlerState.ol.bump 1).cursor) = w := by
            rw [hin.cursor]
            exact hatq.read_from
          refine ⟨q, ?_, hend⟩
          rw [hloop]
          simp only [htype, hw.trim_ne_nil (by decide), if_false]
      · rw [if_pos (.inr (by rwa [hatol.currChar]))]
        refine iff_of_false (by simp) ?_
        rintro ⟨w', hw', -⟩
        cases hw'
        exact hc rfl

end Parens

/-! ## A source without inclusions -/

/-- No `#` of the text opens an `#include` or an `#import`. -/
def NoInclusion (text : List Byte) : Prop :=
  ∀ pre s rest, text = pre ++ (s ++ rest) → Directive s rest →
    macroHashMatch s ≠ .Include ∧ macroHashMatch s ≠ .Import

/-- `p` has the one frame of the text, or has popped it. -/
def OneFrame (text : List Byte) (p : Preprocessor) : Prop :=
  p.inputStack = [] ∨
    p.inputStack.tail = [] ∧ p.cursor ≤ text.length ∧
      At p (text.take p.cursor) (text.drop p.cursor)

lemma Opens.oneFrame (h : Opens p text) : OneFrame text p := by
  have hat := h.at
  rcases h.frame with ⟨f, hf, -⟩
  have hcur : p.cursor = 0 := hat.cursor
  rw [OneFrame, hcur]
  exact .inr ⟨by rw [hf]; rfl, Nat.zero_le _, by simpa using hat⟩

lemma OneFrame.size (h : OneFrame text p) (hs : p.inputStack ≠ []) : p.size = text.length := by
  rcases h with h | ⟨-, hle, hat⟩
  · exact absurd h hs
  · rw [hat.size, ← List.length_append, List.take_append_drop]

/-- The word of the directive in front of the cursor is part of the text. -/
lemma exists_word_of_ahead {t : MacroType} (hat : At p pre post) (h : p.directiveAhead = some t) :
    ∃ s rest, post = s ++ rest ∧ Directive s rest ∧ t = macroHashMatch s := by
  have hend := (stacked_of_ahead h).2
  rw [directiveAhead] at h
  split_ifs at h with hno
  simp only [not_or, not_not] at hno
  cases post with
  | nil => exact absurd hat.atEnd_nil hend
  | cons c post =>
      have hc : c = '#'.toUInt8 := hat.currChar.symm.trans hno.2.2.2.2
      rcases exists_directive hc post with ⟨s, rest, heq, hd⟩
      refine ⟨s, rest, heq, hd, ?_⟩
      rw [heq] at hat
      rw [readDirective_eq hat hd] at h
      exact (Option.some.inj h).symm

lemma not_inclusion_ahead {t : MacroType} (hno : NoInclusion text) (h : OneFrame text p)
    (hahead : p.directiveAhead = some t) : t ≠ .Include ∧ t ≠ .Import := by
  rcases h with h | ⟨-, -, hat⟩
  · exact absurd h (stacked_of_ahead hahead).1
  · rcases exists_word_of_ahead hat hahead with ⟨s, rest, heq, hd, rfl⟩
    refine hno (text.take p.cursor) s rest ?_ hd
    rw [← heq, List.take_append_drop]

/-- Without inclusions the one frame stays the only one. -/
lemma OneFrame.turn (h : OneFrame text p) (hno : NoInclusion text) (hturn : Turn disk p q) :
    OneFrame text q := by
  cases hturn with
  | pop hs hend =>
      rcases h with h | ⟨htail, -, -⟩
      · exact absurd h hs
      · exact .inl htail
  | advance hs hend hforward hlt =>
      rcases h with h | ⟨htail, hle, hat⟩
      · exact absurd h hs
      · have hsize : p.size = text.length := OneFrame.size (.inr ⟨htail, hle, hat⟩) hs
        have hat' := hforward.at hs hend.le hat
        rw [List.take_append_drop] at hat'
        exact .inr ⟨hforward.below.trans htail, hsize ▸ hforward.inside hend.le, hat'⟩
  | push hs hend ht hforward hlt hsize =>
      rcases ht with ht | ht
      · exact absurd rfl (not_inclusion_ahead hno h ht).1
      · exact absurd rfl (not_inclusion_ahead hno h ht).2

lemma OneFrame.runs (h : OneFrame text p) (hno : NoInclusion text) (hruns : Runs disk p q) :
    OneFrame text q := by
  induction hruns with
  | refl => exact h
  | tail _ hstep ih => exact ih.turn hno (turn_of_steps hstep)

/-! ## A single pass -/

/-- A run of so many iterations. -/
inductive RunsFor (disk : Disk) : ℕ → Preprocessor → Preprocessor → Prop
  | refl (p : Preprocessor) : RunsFor disk 0 p p
  | tail {k : ℕ} {p q r : Preprocessor} (h : RunsFor disk k p q) (hstep : Steps disk q r) :
      RunsFor disk (k + 1) p r

lemma RunsFor.runs {k : ℕ} (h : RunsFor disk k p q) : Runs disk p q := by
  induction h with
  | refl p => exact .refl
  | tail _ hstep ih => exact ih.tail hstep

/-- An iteration pops the frame, or moves the cursor on in the same text. -/
lemma OneFrame.steps (h : OneFrame text p) (hno : NoInclusion text) (hsteps : Steps disk p q) :
    p.inputStack ≠ [] ∧ (q.inputStack = [] ∨ p.cursor < q.cursor) := by
  have hturn := turn_of_steps hsteps
  cases hturn with
  | pop hs hend =>
      rcases h with h | ⟨htail, -, -⟩
      · exact absurd h hs
      · exact ⟨hs, .inl htail⟩
  | advance hs hend hforward hlt => exact ⟨hs, .inr hlt⟩
  | push hs hend ht hforward hlt hsize =>
      rcases ht with ht | ht
      · exact absurd rfl (not_inclusion_ahead hno h ht).1
      · exact absurd rfl (not_inclusion_ahead hno h ht).2

lemma RunsFor.iterations {k : ℕ} (h : RunsFor disk k p q) (hone : OneFrame text p)
    (hno : NoInclusion text) :
    (q.inputStack ≠ [] → k ≤ q.cursor) ∧ k ≤ text.length + 1 := by
  induction h with
  | refl p => exact ⟨fun _ => Nat.zero_le _, Nat.zero_le _⟩
  | @tail k p q r h hstep ih =>
      rcases ih hone with ⟨hcount, -⟩
      have hq := hone.runs hno h.runs
      rcases hq.steps hno hstep with ⟨hs, hgo⟩
      have hk := hcount hs
      have hle : q.cursor ≤ text.length := by
        rcases hq with hq | ⟨-, hle, -⟩
        · exact absurd hq hs
        · exact hle
      refine ⟨fun hr => ?_, by omega⟩
      rcases hgo with hnil | hlt
      · exact absurd hnil hr
      · omega

lemma decision_stacked {arm : Arm} (h : p.decision n = some arm) : p.inputStack ≠ [] := by
  intro hnil
  have hnone : p.directiveAhead = none := by rw [directiveAhead, if_pos (.inl hnil)]
  rw [decision, hnone] at h
  cases h

lemma stacked_of_decision {arm : Arm} (h : p.decision n = some arm) : arm.state.inputStack ≠ [] :=
  (forward_decision h).stacked (decision_stacked h)

lemma SkipState.stacked_of_again {s t : SkipState}
    (h : Relation.ReflTransGen (fun s t => SkipState.turn s = .again t) s t)
    (hs : s.p.inputStack ≠ []) : t.p.inputStack ≠ [] := by
  induction h with
  | refl => exact hs
  | tail _ hturn ih => exact (SkipState.turn_again ih hturn).1.stacked ih

/-- One pass over the text: the cursor stays inside the frame, every iteration that does not pop
the frame moves it on, and so does every iteration of the loop of `skip_if_branch` that goes on.
The main loop makes at most one iteration more than there are bytes. -/
structure SinglePass (disk : Disk) (p : Preprocessor) : Prop where
  inside : ∀ q, Runs disk p q → q.inputStack ≠ [] → ∀ r, Within q r → r.cursor ≤ p.size
  advances : ∀ q r, Runs disk p q → Steps disk q r → r.inputStack = [] ∨ q.cursor < r.cursor
  skips : ∀ q, Runs disk p q → ∀ fuel arm, q.decision fuel = some (.skipped arm) →
    ∀ s t, Relation.ReflTransGen (fun s t => SkipState.turn s = .again t)
      { nestCount := 1, p := arm } s → s.turn = .again t → s.p.cursor < t.p.cursor
  iterations : ∀ k q, RunsFor disk k p q → q.inputStack ≠ [] → k + 1 ≤ p.size + 1
  halts : Halts disk p

/-- **The preprocessor makes a single pass with its cursor inside the frame, unless the parentheses
of a parameter type wrap at the end of the source.** -/
theorem singlePass_iff (h : Opens p text) (hno : NoInclusion text)
    (hcond : ConditionsReturn disk p) :
    SinglePass disk p ↔ ∀ q, Runs disk p q → ¬ q.WrapsAtEnd := by
  have hone := h.oneFrame
  have hstart : p.inputStack ≠ [] := h.at.stacked
  have hsize {q : Preprocessor} (hq : Runs disk p q) (hs : q.inputStack ≠ []) :
      q.size = p.size := ((hone.runs hno hq).size hs).trans (hone.size hstart).symm
  have hatEnd {q : Preprocessor} (hq : Runs disk p q) (hs : q.inputStack ≠ []) :
      q.cursor ≤ q.size ∧ (q.Overshoots ↔ q.WrapsAtEnd) := by
    rcases hone.runs hno hq with hnil | ⟨-, hle, hat⟩
    · exact absurd hnil hs
    · refine ⟨?_, overshoots_iff hat⟩
      rw [hat.size]
      exact hat.cursor.le.trans (Nat.le_add_right _ _)
  constructor
  · intro hpass q hq hwraps
    have hs := (stacked_of_ahead hwraps.1).1
    rcases ((hatEnd hq hs).2.mpr hwraps).outside hs with ⟨r, hr, hlt⟩
    have hle := hpass.inside q hq hs r hr
    rw [hsize hq hs] at hlt
    exact absurd hle (not_le.mpr hlt)
  · intro hgood
    refine ⟨fun q hq hs r hr => ?_, fun q r hq hstep => ?_, fun q hq fuel arm harm s t hst ht => ?_,
      fun k q hk hs => ?_, ?_⟩
    · rw [← hsize hq hs]
      exact hr.inside hs (hatEnd hq hs).1 fun ho => hgood q hq ((hatEnd hq hs).2.mp ho)
    · exact ((hone.runs hno hq).steps hno hstep).2
    · have hs := (stacked_of_decision harm)
      exact (SkipState.turn_again (SkipState.stacked_of_again hst hs) ht).2
    · have hcount := (hk.iterations hone hno).1 hs
      have hle := (hatEnd hk.runs hs).1
      rw [hsize hk.runs hs] at hle
      omega
    · refine halts_of_depth_bounded hcond fun q hq => (?_ : q.inputStack.length ≤ 1)
      rcases hone.runs hno hq with hnil | ⟨htail, -, -⟩
      · simp [hnil]
      · cases hstack : q.inputStack with
        | nil => simp
        | cons f frames =>
            rw [hstack] at htail
            rw [show frames = [] from htail, List.length_singleton]

/-! ### A source that keeps to it and one that does not -/

/-- Only a conditional directive can come to no end. -/
lemma step_ne_diverged (h : ∀ t ∈ p.directiveAhead, t ≠ .If ∧ t ≠ .Ifndef ∧ t ≠ .Elif) (n : ℕ) :
    p.step disk n ≠ .diverged := by
  cases hahead : p.directiveAhead with
  | some t =>
      rw [step_of_ahead hahead]
      rcases h t hahead with ⟨hif, hifndef, helif⟩
      have hsome : ∃ ret q, processDirective disk n t p.handlerState = some (ret, q) := by
        cases t with
        | If => exact absurd rfl hif
        | Ifndef => exact absurd rfl hifndef
        | Elif => exact absurd rfl helif
        | None | Unknown | Define | Define_M | Include | Else | Endif | Enddef | Skip | Import
          | Param => exact ⟨_, _, rfl⟩
      rcases hsome with ⟨ret, q, hproc⟩
      rw [hproc]
      dsimp only
      split_ifs
      · exact fun hc => by cases hc
      · exact fun hc => by cases hc
  | none =>
      rw [directiveAhead] at hahead
      split_ifs at hahead with hno
      cases hs : p.inputStack with
      | nil => simp [step, hs]
      | cons f frames =>
          rcases hno with hno | hno | hno | hno | hno
          · simp [hs] at hno
          all_goals
            simp only [step, hs, hno, if_true, if_false, ne_eq]
            first
              | (split_ifs <;> exact fun hc => by cases hc)
              | exact fun hc => by cases hc

/-- Every word of a directive in the text is this one. -/
def OnlyWord (text word : List Byte) : Prop :=
  ∀ pre s rest, text = pre ++ (s ++ rest) → Directive s rest → s = word

lemma OnlyWord.ahead {word : List Byte} (h : OnlyWord text word) (hone : OneFrame text p) :
    ∀ t ∈ p.directiveAhead, t = macroHashMatch word := by
  intro t ht
  rcases hone with hnil | ⟨-, -, hat⟩
  · exact absurd hnil (stacked_of_ahead ht).1
  · rcases exists_word_of_ahead hat ht with ⟨s, rest, heq, hd, rfl⟩
    rw [h (text.take p.cursor) s rest (by rw [← heq, List.take_append_drop]) hd]

lemma onlyWord_of_notMem {word : List Byte} (h : '#'.toUInt8 ∉ text) : OnlyWord text word := by
  rintro pre s rest rfl hd
  refine absurd ?_ h
  rw [hd.eq_cons]
  simp

/-- A text that begins with its only `#`. -/
lemma onlyWord_of_head {name rest' : List Byte} (hname : ∀ c ∈ name, isIdentChar c = true)
    (hrest : ∀ c ∈ rest'.head?, isIdentChar c = false) (h : '#'.toUInt8 ∉ rest') :
    OnlyWord ('#'.toUInt8 :: (name ++ rest')) ('#'.toUInt8 :: name) := by
  have htake : ∀ {l r : List Byte}, (∀ c ∈ l, isIdentChar c = true) →
      (∀ c ∈ r.head?, isIdentChar c = false) → (l ++ r).takeWhile isIdentChar = l := by
    intro l r hl hr
    rw [List.takeWhile_append_of_pos hl]
    cases r with
    | nil => simp
    | cons c r => simp [hr c rfl]
  intro pre s rest heq hd
  rw [hd.eq_cons] at heq ⊢
  cases pre with
  | nil =>
      have htail : name ++ rest' = s.tail ++ rest := (List.cons.inj heq).2
      rw [← htake hname hrest, htail, htake hd.run hd.maximal]
  | cons c pre =>
      have hmem : '#'.toUInt8 ∈ name ++ rest' := by
        rw [(List.cons.inj heq).2]
        simp
      rcases List.mem_append.mp hmem with hmem | hmem
      · exact absurd (hname _ hmem) (by decide)
      · exact absurd hmem h

/-- What is known of a run over a text with one kind of directive. -/
lemma OnlyWord.conditionsReturn {word : List Byte} (h : OnlyWord text word)
    (hno : NoInclusion text) (hp : OneFrame text p)
    (hword : macroHashMatch word ≠ .If ∧ macroHashMatch word ≠ .Ifndef ∧
      macroHashMatch word ≠ .Elif) : ConditionsReturn disk p := by
  intro q hq
  refine ⟨0, step_ne_diverged (fun t ht => ?_) 0⟩
  rw [h.ahead (hp.runs hno hq) t ht]
  exact hword

lemma OnlyWord.noInclusion {word : List Byte} (h : OnlyWord text word)
    (hword : macroHashMatch word ≠ .Include ∧ macroHashMatch word ≠ .Import) : NoInclusion text := by
  intro pre s rest heq hd
  rw [h pre s rest heq hd]
  exact hword

theorem singlePass_sample : SinglePass (fun _ => none) (ofText (bytes "a /* b */ 'c'")) := by
  have hopens := opens_ofText (show (bytes "a /* b */ 'c'").length < 2 ^ 32 by decide)
  have hwords : OnlyWord (bytes "a /* b */ 'c'") [] := onlyWord_of_notMem (by decide)
  have hno := hwords.noInclusion (by decide)
  have hcond : ConditionsReturn (fun _ => none) (ofText (bytes "a /* b */ 'c'")) :=
    hwords.conditionsReturn hno hopens.oneFrame (by decide)
  refine (singlePass_iff hopens hno hcond).mpr fun q hq hwraps => ?_
  have hword := hwords.ahead (hopens.oneFrame.runs hno hq) _ hwraps.1
  exact absurd hword (by decide)

/-- A parameter whose type opens one parenthesis more than a `uint16_t` counts. -/
def wrappingText : List Byte :=
  '#'.toUInt8 :: (bytes "param" ++ List.replicate (2 ^ 16) '('.toUInt8)

lemma balance_replicate (k : ℕ) : balance (List.replicate k '('.toUInt8) = k := by
  rw [balance, List.count_replicate_self, List.count_eq_zero.mpr]
  · simp
  · intro hmem
    exact absurd (List.eq_of_mem_replicate hmem) (by decide)

lemma wraps_replicate {d : ℤ} {k : ℕ} (hd : 0 < d) (hk : d + k = 2 ^ 16) :
    Wraps d (List.replicate k '('.toUInt8) := by
  refine ⟨fun hmem => absurd (List.eq_of_mem_replicate hmem) (by decide), fun u v huv hv => ?_, ?_⟩
  · have hu : u = List.replicate u.length '('.toUInt8 :=
      List.eq_replicate_of_mem fun c hc =>
        List.eq_of_mem_replicate (huv ▸ List.mem_append_left v hc)
    have hlen : u.length + v.length = k := by
      rw [← List.length_append, ← huv, List.length_replicate]
    have hpos := List.length_pos_of_ne_nil hv
    rw [hu, balance_replicate]
    omega
  · rw [balance_replicate]
    omega

lemma wrappingText_length : wrappingText.length = 2 ^ 16 + 6 := by
  rw [wrappingText, List.length_cons, List.length_append, List.length_replicate]
  rfl

/-- The directive in front of the cursor. -/
lemma directiveAhead_eq {s rest : List Byte} (hat : At p pre (s ++ rest)) (hd : Directive s rest) :
    p.directiveAhead = some (macroHashMatch s) := by
  have hread := readDirective_eq hat hd
  rw [hd.eq_cons, List.cons_append] at hat
  have hcom := not_startsComment (s := s.tail ++ rest) (hash_other rfl).2.2
  rw [← opensComment_iff hat, not_or] at hcom
  rw [directiveAhead, if_neg, hread]
  rintro (hs | hend | hline | hblock | hhash)
  · exact hat.stacked hs
  · rw [hat.atEnd_cons] at hend
    cases hend
  · exact hcom.1 hline
  · exact hcom.2 hblock
  · exact hhash hat.currChar

/-- **A `#param` whose type opens `2 ^ 16` parentheses leads the cursor out of the source.** -/
theorem wrapping_param_leaves_frame :
    wrappingText.length < 2 ^ 32 - 8 ∧ NoInclusion wrappingText ∧
      ConditionsReturn (fun _ => none) (ofText wrappingText) ∧
        ¬ SinglePass (fun _ => none) (ofText wrappingText) := by
  have hlen := wrappingText_length
  have hopens := opens_ofText (show wrappingText.length < 2 ^ 32 by omega)
  have hhead : ∀ c ∈ (List.replicate (2 ^ 16) '('.toUInt8).head?, isIdentChar c = false := by
    intro c hc
    rw [List.eq_of_mem_replicate (List.mem_of_mem_head? hc)]
    decide
  have hname : Directive (bytes "#param") (List.replicate (2 ^ 16) '('.toUInt8) :=
    ⟨by decide, by decide, hhead⟩
  have hword : macroHashMatch (bytes "#param") = .Param := by decide +kernel
  have honly : OnlyWord wrappingText (bytes "#param") :=
    onlyWord_of_head (by decide) hhead fun hmem =>
      absurd (List.eq_of_mem_replicate hmem) (by decide)
  have hno : NoInclusion wrappingText := honly.noInclusion (by rw [hword]; decide)
  have hcond : ConditionsReturn (fun _ => none) (ofText wrappingText) :=
    honly.conditionsReturn hno hopens.oneFrame (by rw [hword]; decide)
  refine ⟨by omega, hno, hcond, fun hpass => ?_⟩
  have hat : At (ofText wrappingText) []
      (bytes "#param" ++ List.replicate (2 ^ 16) '('.toUInt8) := hopens.at
  have hahead := directiveAhead_eq hat hname
  rw [hword] at hahead
  have hread := readDirective_eq hat hname
  have hbehind : At (ofText wrappingText).handlerState (bytes "#param")
      ([] ++ List.replicate (2 ^ 16) '('.toUInt8) := by
    rw [handlerState, hread]
    exact hat.bump.congr rfl rfl
  have hol := hbehind.ol (by simp) fun c hc => by
    rw [List.eq_of_mem_replicate (List.mem_of_mem_head? hc)]
    decide
  have hopen := hbehind.bump
  rw [← hol] at hopen
  have hwraps : WrapsAtEnd (ofText wrappingText) := by
    refine ⟨hahead, List.replicate (2 ^ 16 - 1) '('.toUInt8, ?_,
      wraps_replicate zero_lt_one (by omega)⟩
    rw [hopen.rest, ← List.replicate_succ]
    rfl
  rcases ((overshoots_iff hat).mpr hwraps).outside hat.stacked with ⟨q, hq, hlt⟩
  have hle := hpass.inside _ .refl hat.stacked q hq
  omega

end Preprocessor

end LogicCompiler
