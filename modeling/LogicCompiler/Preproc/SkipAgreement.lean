import LogicCompiler.Preproc.Progress

/-!
# The two scanners

`skip_if_branch` has a scanner of its own.  `directiveSeen` is what it should find: the directive
of the group that the main loop would see as one, by the lexical rules of the main loop, that is,
outside comments and literals and outside of what the handlers of the directives consume.  Every
handler has its own end: `handled` is the cursor it leaves.

The two part ways where a literal holds a quote character, where a `#define` goes on behind its
line, where the rest of a line that one of them drops is more than quiet text (the handlers of the
conditionals and of `#include`, `#import` and `#param` drop it, the skip reads it), and where groups
are nested deeper than the counter counts.  `agreeable` excludes these along the way of the main
loop, and `skipScan_agrees` is the agreement.
-/

namespace LogicCompiler

namespace Preprocessor

/-! ## What the main loop sees -/

/-- The state behind the segment the main loop reads next, directives apart. -/
def pastSegment (p : Preprocessor) : Preprocessor :=
  if p.opensComment '/' then p.setCursor (p.orSizeAdd (p.findNext '\n') 1)
  else if p.opensComment '*' then
    (p.bump 2).setCursor ((p.bump 2).orSizeAdd ((p.bump 2).findNextSeq "*/") 2)
  else if IsQuote p.currChar then
    p.bump (1 + (literalTail p.currChar (p.bump 1).rest).length)
  else if isIdentChar p.currChar then p.skipIdent
  else p.bump 1

/-- The cursor `handle_include` leaves in its own frame. -/
def pastInclude (p : Preprocessor) : Preprocessor :=
  let p := p.ol
  if p.atEnd then p
  else if p.currChar ≠ '"'.toUInt8 ∧ p.currChar ≠ '<'.toUInt8 then p
  else
    let closeChar := if p.currChar = '"'.toUInt8 then '"' else '>'
    let p := p.bump 1
    match p.findNext closeChar with
    | none => p
    | some nextC =>
        let p := p.setCursor (nextC + 1)
        p.pastFound (p.findNext '\n')

/-- The state behind what the handler of a directive consumes, `p` standing behind its name.  A
condition is read to the end of its line, unless `taken` says that an arm of the group has been
taken: `handle_elif` then leaves the line to the skip. -/
def handled (taken : Bool) (matched : MacroType) (p : Preprocessor) : Preprocessor :=
  match matched with
  | .If => (p.readCondition.map Prod.snd).getD p.ol
  | .Elif => if taken then p else (p.readCondition.map Prod.snd).getD p.ol
  | .Ifndef => let p := p.ol.skipIdent; p.pastFound (p.findNext '\n')
  | .Else | .Endif => p.pastFound (p.findNext '\n')
  | .Define => p.setCursor p.handleDefine.2.cursor
  | .Define_M => p.setCursor p.handleDefineM.2.cursor
  | .Skip => p.setCursor p.handleSkip.2.cursor
  | .Include | .Import => p.pastInclude
  | .Param => p.setCursor p.handleParam.2.cursor
  | .None | .Unknown | .Enddef => p

/-- The first directive that closes or continues the group, as the main loop would see it: its
type and the position of its `#`.  `taken` says that an arm of the group has been taken, so that
only its `#endif` counts; `depth` is the number of nested groups that are open. -/
def directiveSeen (taken : Bool) : ℕ → ℕ → Preprocessor → Option (MacroType × ℕ)
  | 0, _, _ => none
  | n + 1, depth, p =>
      if p.atEnd then none
      else if p.currChar = '#'.toUInt8 then
        let (matched, q) := p.readDirective
        let r := q.handled (taken && depth == 0) matched
        match matched with
        | .If | .Ifndef => directiveSeen taken n (depth + 1) r
        | .Elif | .Else =>
            if depth = 0 ∧ !taken then some (matched, p.cursor) else directiveSeen taken n depth r
        | .Endif =>
            if depth = 0 then some (.Endif, p.cursor) else directiveSeen taken n (depth - 1) r
        | .Define_M => if q.handleDefineM.1 < 0 then none else directiveSeen taken n depth r
        | _ => directiveSeen taken n depth r
      else directiveSeen taken n depth p.pastSegment

/-! ## Where the two agree -/

/-- No quote character stands within the literal at the cursor. -/
def quoteFree (p : Preprocessor) : Bool :=
  (literalTail p.currChar (p.bump 1).rest).dropLast.all fun c => !decide (IsQuote c)

/-- The literal at the cursor ends with its quote. -/
def closed (p : Preprocessor) : Bool :=
  (literalTail p.currChar (p.bump 1).rest).getLast? == some p.currChar

/-- The text from the cursor up to `stop` is read as comments, literals without quotes in them,
identifiers and single characters, the last of which ends at `stop`. -/
def quietTo (stop : ℕ) : ℕ → Preprocessor → Bool
  | 0, p => p.cursor == stop
  | n + 1, p =>
      p.cursor == stop ||
        (!p.atEnd && p.currChar != '#'.toUInt8
          && (!decide (IsQuote p.currChar) || (p.quoteFree && p.closed))
          && quietTo stop n p.pastSegment)

/-- The position behind the line the cursor stands in. -/
def lineEnd (p : Preprocessor) : ℕ := p.orSizeAdd (p.findNext '\n') 1

/-- The position behind the next `#enddef`. -/
def enddefEnd (p : Preprocessor) : ℕ := p.orSizeAdd (p.findNextSeq "#enddef") 7

/-- Along the way of the main loop, the skipping loop passes every piece of the text alike. -/
def agreeable (taken : Bool) : ℕ → ℕ → Preprocessor → Bool
  | 0, _, _ => true
  | n + 1, depth, p =>
      if p.atEnd then true
      else if p.currChar = '#'.toUInt8 then
        let (matched, q) := p.readDirective
        let r := q.handled (taken && depth == 0) matched
        match matched with
        | .If | .Ifndef =>
            decide (depth + 2 < 2 ^ 16) && quietTo r.cursor n q && agreeable taken n (depth + 1) r
        | .Elif | .Else =>
            if depth = 0 then !taken || (quietTo q.lineEnd n r && agreeable taken n depth r)
            else quietTo r.cursor n q && agreeable taken n depth r
        | .Endif =>
            if depth = 0 then true else quietTo r.cursor n q && agreeable taken n (depth - 1) r
        | .Define => r.cursor == q.lineEnd && agreeable taken n depth r
        | .Define_M =>
            decide (q.handleDefineM.1 < 0)
              || (quietTo r.cursor n (q.setCursor q.enddefEnd) && agreeable taken n depth r)
        | .Skip => agreeable taken n depth r
        | _ => quietTo r.cursor n q && agreeable taken n depth r
      else (!decide (IsQuote p.currChar) || p.quoteFree) && agreeable taken n depth p.pastSegment

/-- What `skip_if_branch` has found. -/
def SkipStop.directive : SkipStop → Option (MacroType × ℕ)
  | .found d h => some (d, h)
  | .exhausted _ => none

variable {p q r : Preprocessor} {pre post s rest : List Byte} {k n : ℕ}

/-! ## What the handlers leave -/

/-- The two differ in the cursor of their frame only. -/
def Shifted (p q : Preprocessor) : Prop := ∃ n, q = p.setCursor n

namespace Shifted

lemma refl (p : Preprocessor) : Shifted p p := ⟨p.cursor, (setCursor_self p).symm⟩

lemma setCursor (h : Shifted p q) (n : ℕ) : Shifted p (q.setCursor n) := by
  obtain ⟨m, rfl⟩ := h
  exact ⟨n, setCursor_setCursor p m n⟩

lemma trans (h : Shifted p q) (h' : Shifted q r) : Shifted p r := by
  obtain ⟨n, rfl⟩ := h'
  exact h.setCursor n

lemma pastFound (h : Shifted p q) (found : Option ℕ) : Shifted p (q.pastFound found) := by
  cases found with
  | none => exact h
  | some pos => exact h.setCursor _

lemma readCondition (p : Preprocessor) :
    Shifted p ((p.readCondition.map Prod.snd).getD p.ol) := by
  have hol : Shifted p p.ol := (refl p).setCursor _
  rw [Preprocessor.readCondition]
  cases p.ol.findNext '\n' with
  | none => exact hol
  | some endLine => exact hol.setCursor _

lemma pastInclude (p : Preprocessor) : Shifted p p.pastInclude := by
  have hol : Shifted p p.ol := (refl p).setCursor _
  rw [Preprocessor.pastInclude]
  dsimp only
  split_ifs
  · exact hol
  · exact hol
  · split
    · exact hol.setCursor _
    · exact ((hol.setCursor _).setCursor _).pastFound _
  · split
    · exact hol.setCursor _
    · exact ((hol.setCursor _).setCursor _).pastFound _

/-- A handler moves the cursor of its frame. -/
lemma handled (taken : Bool) (matched : MacroType) (p : Preprocessor) :
    Shifted p (p.handled taken matched) := by
  cases matched with
  | None | Unknown | Enddef => exact refl p
  | Define | Define_M | Skip | Param => exact (refl p).setCursor _
  | Include | Import => exact pastInclude p
  | If => exact readCondition p
  | Elif =>
      rw [Preprocessor.handled]
      split_ifs
      · exact refl p
      · exact readCondition p
  | Else | Endif => exact (refl p).pastFound _
  | Ifndef => exact (((refl p).setCursor _).setCursor _).pastFound _

end Shifted

/-! ### The ends are those of the handlers -/

lemma ifArm_state {n : ℕ} {arm : Arm} {taken : Bool} (h : p.ifArm n = some arm) :
    arm.state.inputStack = (p.handled taken .If).inputStack := by
  have hread : (p.setActive .If).readCondition =
      p.readCondition.map fun c => (c.1, c.2.setActive .If) := by
    rw [readCondition, readCondition, Option.map_map]
    rfl
  rw [ifArm, hread] at h
  rw [handled]
  cases hc : p.readCondition with
  | none =>
      rw [hc] at h
      cases h
      rfl
  | some c =>
      simp only [hc, Option.map_some, Option.map_eq_some_iff] at h
      obtain ⟨res, -, rfl⟩ := h
      split_ifs <;> rfl

lemma elifArm_state {n : ℕ} {arm : Arm} (hflags : p.branchFlags ≠ []) (h : p.elifArm n = some arm) :
    arm.state.inputStack = (p.handled p.everTaken .Elif).inputStack := by
  have hread : (p.setActive .Elif).readCondition =
      p.readCondition.map fun c => (c.1, c.2.setActive .Elif) := by
    rw [readCondition, readCondition, Option.map_map]
    rfl
  have htaken : (p.setActive .Elif).everTaken = p.everTaken := rfl
  rw [elifArm, if_neg hflags] at h
  dsimp only at h
  rw [htaken, hread] at h
  rw [handled]
  split_ifs at h ⊢
  · cases h
    rfl
  cases hc : p.readCondition with
  | none =>
      rw [hc] at h
      cases h
      rfl
  | some c =>
      simp only [hc, Option.map_some, Option.map_eq_some_iff] at h
      obtain ⟨res, -, rfl⟩ := h
      split_ifs <;> rfl

lemma ifndefArm_state {n : ℕ} {arm : Arm} {taken : Bool} (h : p.ifndefArm n = some arm) :
    arm.state.inputStack = (p.handled taken .Ifndef).inputStack := by
  rw [ifndefArm, Option.map_eq_some_iff] at h
  obtain ⟨res, -, rfl⟩ := h
  have hline : ∀ found, ((p.setActive .Ifndef).ol.skipIdent.pastFound found).inputStack =
      (p.ol.skipIdent.pastFound found).inputStack := by
    rintro (_ | pos) <;> rfl
  split_ifs
  · exact hline _
  · exact hline _

lemma elseArm_state {taken : Bool} (hflags : p.branchFlags ≠ []) :
    p.elseArm.state.inputStack = (p.handled taken .Else).inputStack := by
  rw [elseArm, if_neg hflags]
  dsimp only
  split_ifs <;> rfl

lemma handleEndif_inputStack {taken : Bool} (hflags : p.branchFlags ≠ []) :
    p.handleEndif.2.inputStack = (p.handled taken .Endif).inputStack := by
  have hline : ∀ found, (pastFound { p with branchFlags := p.branchFlags.tail } found).inputStack =
      (p.pastFound found).inputStack := by
    rintro (_ | pos) <;> rfl
  rw [handleEndif, if_neg hflags, handled]
  exact hline _

lemma handleInclude_inputStack {taken : Bool} (disk : Disk) :
    ∃ frames, (p.handleInclude disk).2.inputStack =
      frames ++ (p.handled taken .Include).inputStack := by
  rw [handleInclude, handled, pastInclude]
  dsimp only
  split_ifs
  · exact ⟨[], rfl⟩
  · exact ⟨[], rfl⟩
  · cases (p.ol.bump 1).findNext '"' with
    | none => exact ⟨[], rfl⟩
    | some nextC =>
        dsimp only
        split_ifs
        · exact ⟨[], rfl⟩
        · exact ⟨[_], rfl⟩
  · cases (p.ol.bump 1).findNext '>' with
    | none => exact ⟨[], rfl⟩
    | some nextC =>
        dsimp only
        split_ifs
        · exact ⟨[], rfl⟩
        · exact ⟨[_], rfl⟩

/-! ## The positions as pieces of the text -/

lemma exists_lineEnd (h : At p pre post) :
    ∃ a b, post = a ++ b ∧ p.setCursor p.lineEnd = p.bump a.length := by
  by_cases hn : '\n'.toUInt8 ∈ post
  · obtain ⟨a, b, rfl, ha⟩ := exists_split_of_mem hn
    refine ⟨a ++ ['\n'.toUInt8], b, by simp, ?_⟩
    rw [lineEnd, h.pastLine ha]
    simp
  · exact ⟨post, [], by simp, h.pastLine_none hn⟩

lemma exists_enddefEnd (h : At p pre post) :
    ∃ a b, post = a ++ b ∧ p.setCursor p.enddefEnd = p.bump a.length := by
  cases hf : Search.findSeq (bytes "#enddef") post with
  | some j =>
      obtain ⟨a, b, rfl, -, ha⟩ := (Search.findSeq_eq_some_iff (by decide)).mp hf
      refine ⟨a ++ bytes "#enddef", b, by simp, ?_⟩
      rw [enddefEnd, h.pastSeq 7 (by decide) ha, List.length_append]
      rfl
  | none =>
      refine ⟨post, [], by simp, h.pastSeq_none 7 (by decide) ?_⟩
      exact (Search.findSeq_eq_none_iff (by decide)).mp hf

/-- The bytes of a literal are the first bytes of the text, and they end with the quote unless the
text ends. -/
lemma literalTail_split {c : Byte} (hc : IsQuote c) (text : List Byte) :
    ∃ rest, text = literalTail c text ++ rest ∧
      (rest ≠ [] → (literalTail c text).getLast? = some c) := by
  rcases exists_quoted c text with ⟨body, rest, rfl, h⟩ | h | ⟨body, rfl, h⟩
  · refine ⟨rest, ?_, fun _ => ?_⟩
    · rw [literalTail_closed hc h]
      simp
    · rw [literalTail_closed hc h]
      simp
  · exact ⟨[], by rw [literalTail_cut h, List.append_nil], fun hne => absurd rfl hne⟩
  · exact ⟨[], by rw [literalTail_cutEscape h, List.append_nil], fun hne => absurd rfl hne⟩

/-! ## The skipping loop within strings -/

/-- Within a string, a byte that is no quote. -/
lemma skips_stringed {c : Byte} {s1 s2 : Bool} (h : At p pre (c :: rest)) (hk : k ≠ 0)
    (hs : (s1 || s2) = true) (hc : ¬ IsQuote c) :
    Skips ⟨s1, s2, k, p⟩ ⟨s1, s2, k, p.bump 1⟩ := by
  refine .of_iteration (rest_bump_lt (s := [c]) (by simp) h) fun n => ?_
  rw [IsQuote, not_or] at hc
  rw [SkipState.loop, skipLoop]
  simp only [hk, h.atEnd_cons, h.currChar, false_or, Bool.false_eq_true, if_false, hc.1, hc.2, hs,
    if_true]
  rfl

lemma skips_stringed_text {s1 s2 : Bool} (hs : (s1 || s2) = true) (hk : k ≠ 0) :
    ∀ {s : List Byte} {p : Preprocessor} {pre : List Byte}, At p pre (s ++ rest) →
      (∀ c ∈ s, ¬ IsQuote c) → Skips ⟨s1, s2, k, p⟩ ⟨s1, s2, k, p.bump s.length⟩
  | [], p, _, _, _ => by
      rw [List.length_nil, bump_zero]
      exact .refl _
  | c :: s, p, _, h, hq => by
      have hrest := skips_stringed_text hs hk h.bump_one fun d hd => hq d (by simp [hd])
      rw [bump_bump, Nat.add_comm] at hrest
      exact (skips_stringed h hk hs (hq c (by simp))).trans hrest

/-- A quote toggles its flag, whatever the flags are. -/
lemma skips_quote (s1 s2 : Bool) {c : Byte} (h : At p pre (c :: rest)) (hk : k ≠ 0)
    (hc : IsQuote c) :
    Skips ⟨s1, s2, k, p⟩
      ⟨if c = '"'.toUInt8 then s1 else !s1, if c = '"'.toUInt8 then !s2 else s2, k, p.bump 1⟩ := by
  refine .of_iteration (rest_bump_lt (s := [c]) (by simp) h) fun n => ?_
  rw [SkipState.loop, skipLoop]
  simp only [hk, h.atEnd_cons, h.currChar, false_or, Bool.false_eq_true, if_false]
  rcases hc with rfl | rfl
  · rfl
  · rfl

/-- Within a string that `c` has opened. -/
def stringed (c : Byte) (k : ℕ) (p : Preprocessor) : SkipState :=
  if c = '"'.toUInt8 then ⟨false, true, k, p⟩ else ⟨true, false, k, p⟩

lemma skips_opening {c : Byte} (h : At p pre (c :: rest)) (hk : k ≠ 0) (hc : IsQuote c) :
    Skips { nestCount := k, p } (stringed c k (p.bump 1)) := by
  have hopen := skips_quote false false h hk hc
  rcases hc with rfl | rfl
  · exact hopen
  · exact hopen

lemma skips_inside {c : Byte} (h : At p pre (s ++ rest)) (hk : k ≠ 0)
    (hs : ∀ d ∈ s, ¬ IsQuote d) :
    Skips (stringed c k p) (stringed c k (p.bump s.length)) := by
  rw [stringed, stringed]
  split_ifs
  · exact skips_stringed_text rfl hk h hs
  · exact skips_stringed_text rfl hk h hs

/-- A literal without quotes inside is passed as a whole. -/
lemma skips_literal {c : Byte} {body : List Byte} (h : At p pre (c :: (body ++ c :: rest)))
    (hk : k ≠ 0) (hc : IsQuote c) (hbody : ∀ d ∈ body, ¬ IsQuote d) :
    Skips { nestCount := k, p } { nestCount := k, p := p.bump (1 + (body ++ [c]).length) } := by
  have hopen := skips_opening h hk hc
  have hinside := skips_inside (c := c) h.bump_one hk hbody
  have hclose : Skips (stringed c k ((p.bump 1).bump body.length))
      { nestCount := k, p := ((p.bump 1).bump body.length).bump 1 } := by
    rcases hc with rfl | rfl
    · exact skips_quote false true h.bump_one.bump hk (.inl rfl)
    · exact skips_quote true false h.bump_one.bump hk (.inr rfl)
  rw [bump_bump, bump_bump] at hclose
  rw [List.length_append, List.length_singleton, ← Nat.add_assoc]
  rw [bump_bump] at hinside
  exact hopen.trans (hinside.trans hclose)

/-- At the end of the frame the loop has found nothing. -/
lemma stops_end {s1 s2 : Bool} (h : At p pre []) :
    Stops ⟨s1, s2, k, p⟩ (.exhausted k, p) := by
  rintro (_ | n) -
  · rfl
  · rw [SkipState.loop, skipLoop, if_pos (.inr h.atEnd_nil)]

lemma stops_stringed_end {c : Byte} (h : At p pre []) :
    Stops (stringed c k p) (.exhausted k, p) := by
  rw [stringed]
  split_ifs
  · exact stops_end h
  · exact stops_end h

/-- A literal that the text ends in, without quotes up to its last byte: nothing is found. -/
lemma stops_cut {c : Byte} (h : At p pre (c :: s)) (hk : k ≠ 0) (hc : IsQuote c)
    (hs : ∀ d ∈ s.dropLast, ¬ IsQuote d) :
    Stops { nestCount := k, p } (.exhausted k, p.bump (1 + s.length)) := by
  have hopen := skips_opening h hk hc
  rcases List.eq_nil_or_concat s with rfl | ⟨body, d, rfl⟩
  · exact Stops.of_skips hopen (stops_stringed_end h.bump_one)
  rw [List.concat_eq_append] at h hs ⊢
  rw [List.dropLast_concat] at hs
  have hinside := hopen.trans (skips_inside (c := c) h.bump_one hk hs)
  have hlast : At ((p.bump 1).bump body.length) (pre ++ [c] ++ body) [d] := h.bump_one.bump
  have hend := hlast.bump_one
  have hlen : ((p.bump 1).bump body.length).bump 1 = p.bump (1 + (body ++ [d]).length) := by
    rw [bump_bump, bump_bump, List.length_append, List.length_singleton]
  rw [hlen] at hend
  refine Stops.of_skips hinside ?_
  by_cases hd : IsQuote d
  · rw [stringed]
    split_ifs
    · exact Stops.of_skips (hlen ▸ skips_quote _ _ hlast hk hd) (stops_end hend)
    · exact Stops.of_skips (hlen ▸ skips_quote _ _ hlast hk hd) (stops_end hend)
  · have hlast' : At ((p.bump 1).bump body.length) (pre ++ [c] ++ body) ([d] ++ []) := hlast
    have hstep := skips_inside (c := c) hlast' hk (by simpa using hd)
    exact Stops.of_skips (hlen ▸ hstep) (stops_stringed_end hend)

/-! ## One segment -/

/-- Comments, identifier runs and single characters, and literals without quotes inside that end
with their quote, are passed by both scanners alike. -/
lemma skips_segment {c : Byte} (h : At p pre (c :: post)) (hk : k ≠ 0)
    (hhash : c ≠ '#'.toUInt8)
    (hlit : IsQuote c → p.quoteFree = true ∧ p.closed = true) :
    ∃ a b, c :: post = a ++ b ∧ a ≠ [] ∧ p.pastSegment = p.bump a.length ∧
      Skips { nestCount := k, p } { nestCount := k, p := p.bump a.length } := by
  by_cases hcom : StartsComment (c :: post)
  · obtain ⟨s, rest, heq, hs, hc⟩ := exists_comment hcom
    have hat : At p pre (s ++ rest) := heq ▸ h
    refine ⟨s, rest, heq, hs, ?_, skips_comment hat hc hk⟩
    rcases comment_end hat hc with ⟨hline, hmove⟩ | ⟨hline, hblock, hmove⟩
    · rw [pastSegment, if_pos hline, hmove]
    · rw [pastSegment, if_neg (by simp [hline]), if_pos hblock, hmove]
  have hno := hcom
  rw [← opensComment_iff h, not_or] at hno
  by_cases hq : IsQuote c
  · obtain ⟨hfree, hclosed⟩ := hlit hq
    rw [quoteFree, h.currChar, h.bump_one.rest, List.all_eq_true] at hfree
    rw [closed, h.currChar, h.bump_one.rest, beq_iff_eq] at hclosed
    obtain ⟨rest, heq, -⟩ := literalTail_split hq post
    have htail := List.dropLast_append_getLast? _ hclosed
    refine ⟨c :: literalTail c post, rest, by rw [List.cons_append, ← heq], by simp, ?_, ?_⟩
    · rw [pastSegment, if_neg hno.1, if_neg hno.2, h.currChar, if_pos hq, h.bump_one.rest,
        List.length_cons, Nat.add_comm]
    · have hat : At p pre (c :: ((literalTail c post).dropLast ++ c :: rest)) := by
        rw [heq, ← htail] at h
        simpa using h
      have hskip := skips_literal hat hk hq fun d hd => by simpa using hfree d hd
      rw [htail] at hskip
      rwa [List.length_cons, Nat.add_comm]
  cases hid : isIdentChar c with
  | true =>
      obtain ⟨s, rest, heq, hw⟩ := exists_word hid post
      have hat : At p pre (s ++ rest) := heq ▸ h
      have hs : ∀ d ∈ s, Inert d := fun d hd => isIdentChar_other (hw.run d hd)
      refine ⟨s, rest, heq, hw.nonempty, ?_, skips_quiet hat (.of_inert hs) hk⟩
      rw [pastSegment, if_neg hno.1, if_neg hno.2, h.currChar, if_neg hq, if_pos hid,
        hat.skipIdent hw.run hw.maximal]
  | false =>
      refine ⟨[c], post, rfl, by simp, ?_, skips_byte h hk hq hhash hcom⟩
      rw [pastSegment, if_neg hno.1, if_neg hno.2, h.currChar, if_neg hq, if_neg (by simp [hid])]
      rfl

lemma skips_nothing {stop : ℕ} (hcur : p.cursor = stop) :
    ∃ a b, post = a ++ b ∧ p.setCursor stop = p.bump a.length ∧
      Skips { nestCount := k, p } { nestCount := k, p := p.setCursor stop } := by
  subst hcur
  rw [setCursor_self]
  exact ⟨[], post, rfl, (bump_zero p).symm, .refl _⟩

/-- Quiet text is passed by the skipping loop. -/
lemma skips_quietTo {stop : ℕ} (h : At p pre post) (hk : k ≠ 0) (hq : quietTo stop n p = true) :
    ∃ a b, post = a ++ b ∧ p.setCursor stop = p.bump a.length ∧
      Skips { nestCount := k, p } { nestCount := k, p := p.setCursor stop } := by
  induction n generalizing p pre post with
  | zero => exact skips_nothing (by simpa [quietTo] using hq)
  | succ n ih =>
      rw [quietTo, Bool.or_eq_true, beq_iff_eq] at hq
      rcases hq with hq | hq
      · exact skips_nothing hq
      rcases post with _ | ⟨c, post⟩
      · simp [h.atEnd_nil] at hq
      simp only [h.atEnd_cons, h.currChar, Bool.and_eq_true, Bool.or_eq_true, bne_iff_ne,
        Bool.not_eq_true', decide_eq_false_iff_not] at hq
      obtain ⟨⟨⟨-, hhash⟩, hlit⟩, hrest⟩ := hq
      obtain ⟨a, b, heq, ha, hpast, hskip⟩ :=
        skips_segment h hk hhash fun hquote => hlit.resolve_left fun hno => hno hquote
      rw [hpast] at hrest
      have hat : At (p.bump a.length) (pre ++ a) b := At.bump (heq ▸ h)
      obtain ⟨a', b', rfl, hstop, hskip'⟩ := ih hat hrest
      have hset : (p.bump a.length).setCursor stop = p.setCursor stop := by
        rw [Preprocessor.bump, setCursor_setCursor]
      rw [hset] at hstop hskip'
      refine ⟨a ++ a', b', by rw [heq, List.append_assoc], ?_, hskip.trans hskip'⟩
      rw [hstop, bump_bump, List.length_append]

/-! ## One directive -/

lemma infix_of_notMem_head {a b needle : List Byte} {c : Byte} (hc : needle.head? = some c)
    (ha : c ∉ a) (h : needle <:+: a ++ b) : needle <:+: b := by
  induction a with
  | nil => exact h
  | cons d a ih =>
      rw [List.mem_cons, not_or] at ha
      rw [List.cons_append, List.infix_cons_iff] at h
      rcases h with hpre | hin
      · obtain ⟨needle, rfl⟩ : ∃ t, needle = c :: t := ⟨_, (List.cons_head?_tail hc).symm⟩
        exact absurd (List.cons_prefix_cons.mp hpre).1 ha.1
      · exact ih ha.2 hin

/-- From `p` to `q`, the cursor moves over bytes none of which is a `#`. -/
def HashFreeMove (p q : Preprocessor) : Prop :=
  ∀ pre post, At p pre post → ∃ a b, post = a ++ b ∧ '#'.toUInt8 ∉ a ∧ q = p.bump a.length

lemma HashFreeMove.trans {r : Preprocessor} (hpq : HashFreeMove p q) (hqr : HashFreeMove q r) :
    HashFreeMove p r := by
  rintro pre post h
  obtain ⟨a, b, rfl, ha, rfl⟩ := hpq pre post h
  obtain ⟨a', b', rfl, ha', rfl⟩ := hqr _ _ h.bump
  refine ⟨a ++ a', b', (List.append_assoc _ _ _).symm, ?_, ?_⟩
  · simp [ha, ha']
  · rw [bump_bump, List.length_append]

lemma hashFreeMove_refl (p : Preprocessor) : HashFreeMove p p := by
  rintro pre post h
  exact ⟨[], post, rfl, by simp, (bump_zero p).symm⟩

lemma hashFreeMove_ol (p : Preprocessor) : HashFreeMove p p.ol := by
  rintro pre post h
  refine ⟨post.takeWhile isBlank, post.dropWhile isBlank, List.takeWhile_append_dropWhile.symm,
    fun hm => absurd (List.mem_takeWhile_imp hm) (by decide), ?_⟩
  rw [ol, h.rest]

lemma hashFreeMove_skipIdent (p : Preprocessor) : HashFreeMove p p.skipIdent := by
  rintro pre post h
  refine ⟨post.takeWhile isIdentChar, post.dropWhile isIdentChar,
    List.takeWhile_append_dropWhile.symm,
    fun hm => absurd (List.mem_takeWhile_imp hm) (by decide), ?_⟩
  refine At.skipIdent (by rwa [List.takeWhile_append_dropWhile])
    (fun c hc => List.mem_takeWhile_imp hc) fun c hc => ?_
  have hhead := List.head?_dropWhile_not isIdentChar post
  rw [Option.mem_def.mp hc] at hhead
  simpa using hhead

lemma hashFreeMove_namesLoop (n : ℕ) : ∀ p, HashFreeMove p (namesLoop n p) := by
  induction n with
  | zero => exact hashFreeMove_refl
  | succ n ih =>
      intro p
      rw [namesLoop]
      split_ifs with hend
      · exact hashFreeMove_refl p
      have hname := (hashFreeMove_skipIdent p).trans (hashFreeMove_ol p.skipIdent)
      dsimp only
      split_ifs with hand
      · have hstep : HashFreeMove p.skipIdent.ol (p.skipIdent.ol.bump 1) := by
          rintro pre post h
          rcases post with _ | ⟨c, post⟩
          · simp [h.atEnd_nil] at hand
          · rw [h.currChar] at hand
            exact ⟨[c], post, rfl, by rw [hand.2]; decide, rfl⟩
        exact ((hname.trans hstep).trans (hashFreeMove_ol _)).trans (ih _)
      · exact hname

/-- `handle_define_m` fails when no `#enddef` follows. -/
lemma handleDefineM_fails (h : At p pre post) (hfail : p.handleDefineM.1 < 0) :
    ¬ bytes "#enddef" <:+: post := by
  have hnames : HashFreeMove p (namesLoop p.ol.rest.length p.ol) :=
    (hashFreeMove_ol p).trans (hashFreeMove_namesLoop _ _)
  obtain ⟨a, b, rfl, ha, hq⟩ := hnames pre post h
  have hnone : (p.bump a.length).findNextSeq "#enddef" = none := by
    rw [handleDefineM] at hfail
    simp only [hq] at hfail
    split at hfail
    · assumption
    · exact absurd hfail (Int.lt_irrefl 0)
  rw [findNextSeq, h.bump.rest, Option.map_eq_none_iff, Search.findSeq_eq_none_iff (by decide)]
    at hnone
  exact fun hin => hnone (infix_of_notMem_head rfl ha hin)

lemma lineEnd_at_end (h : At p pre []) : p.lineEnd = p.size := by
  rw [lineEnd, h.findNext_none (by simp)]
  rfl

/-- `handle_skip` and the skipping loop pass the same two lines. -/
lemma handleSkip_cursor (h : At p pre post) :
    p.setCursor p.handleSkip.2.cursor =
      (p.setCursor p.lineEnd).setCursor (p.setCursor p.lineEnd).lineEnd := by
  have hend : At (p.setCursor p.size) (pre ++ post) [] := by
    rw [h.bump_size]
    exact At.bump (by rwa [List.append_nil])
  have hlast : (p.setCursor p.size).lineEnd = p.size := by
    rw [lineEnd_at_end hend, setCursor_size]
  have hcur : ∀ n, (p.setCursor n).cursor = n := fun n => setCursor_cursor p n h.stacked
  rw [setCursor_setCursor]
  by_cases hn : '\n'.toUInt8 ∈ post
  · obtain ⟨a, b, rfl, ha⟩ := exists_split_of_mem hn
    have hfind := h.findNext ha
    have hline : p.lineEnd = p.cursor + a.length + 1 := by rw [lineEnd, hfind]; rfl
    rw [handleSkip, hfind, hline]
    dsimp only
    split_ifs with hsize
    · have heq : p.cursor + a.length + 1 = p.size := by
        have hs := h.size
        have hc := h.cursor
        simp only [List.length_append, List.length_cons] at hs
        omega
      rw [heq, hcur, hlast]
    · rw [setCursor_setCursor, hcur, lineEnd]
  · have hfind := h.findNext_none hn
    have hline : p.lineEnd = p.size := by rw [lineEnd, hfind]; rfl
    rw [handleSkip, hfind, hline, hcur, hlast]

/-- One iteration over a directive of no group, from where its name ends to `r`. -/
lemma skips_from_name {r : Preprocessor} {a b : List Byte} (h : At p pre (s ++ rest))
    (hd : Directive s rest) (hrest : rest = a ++ b) (hr : r = (p.bump s.length).bump a.length)
    (hloop : ∀ n, skipLoop (n + 1) false false k p = skipLoop n false false k r) :
    Skips { nestCount := k, p } { nestCount := k, p := r } := by
  refine .of_iteration ?_ hloop
  have hlt := rest_bump_lt hd.ne_nil h
  subst hrest hr
  have hafter := h.bump.bump.rest
  have hname := h.bump.rest
  show ((p.bump s.length).bump a.length).rest.length < p.rest.length
  rw [hafter]
  rw [hname, List.length_append] at hlt
  omega

lemma skips_define (h : At p pre (s ++ rest)) (hd : Directive s rest) (hk : k ≠ 0)
    (hs : macroHashMatch s = .Define) :
    Skips { nestCount := k, p }
      { nestCount := k, p := (p.bump s.length).setCursor (p.bump s.length).lineEnd } := by
  obtain ⟨a, b, hab, hline⟩ := exists_lineEnd h.bump
  refine skips_from_name h hd hab hline fun n => ?_
  rw [skipLoop_directive h hd hk, hs]
  rfl

lemma skips_defineM (h : At p pre (s ++ rest)) (hd : Directive s rest) (hk : k ≠ 0)
    (hs : macroHashMatch s = .Define_M) :
    Skips { nestCount := k, p }
      { nestCount := k, p := (p.bump s.length).setCursor (p.bump s.length).enddefEnd } := by
  obtain ⟨a, b, hab, hend⟩ := exists_enddefEnd h.bump
  refine skips_from_name h hd hab hend fun n => ?_
  rw [skipLoop_directive h hd hk, hs]
  rfl

lemma exists_handleSkip (h : At p pre post) :
    ∃ a b, post = a ++ b ∧ p.setCursor p.handleSkip.2.cursor = p.bump a.length := by
  obtain ⟨a, b, rfl, hline⟩ := exists_lineEnd h
  have hat := h.bump
  rw [← hline] at hat
  obtain ⟨a', b', rfl, hline'⟩ := exists_lineEnd hat
  refine ⟨a ++ a', b', (List.append_assoc _ _ _).symm, ?_⟩
  rw [handleSkip_cursor h, hline', hline, bump_bump, List.length_append]

lemma skips_skip (h : At p pre (s ++ rest)) (hd : Directive s rest) (hk : k ≠ 0)
    (hs : macroHashMatch s = .Skip) :
    Skips { nestCount := k, p }
      { nestCount := k, p := (p.bump s.length).setCursor (p.bump s.length).handleSkip.2.cursor } := by
  obtain ⟨a, b, hab, hend⟩ := exists_handleSkip h.bump
  refine skips_from_name h hd hab hend fun n => ?_
  rw [skipLoop_directive h hd hk, hs, handleSkip_cursor h.bump]
  rfl

/-- The directives whose names the loop reads like words. -/
def ReadAsWord (t : MacroType) : Prop :=
  t = .None ∨ t = .Unknown ∨ t = .Include ∨ t = .Enddef ∨ t = .Import ∨ t = .Param

lemma skips_word (h : At p pre (s ++ rest)) (hd : Directive s rest) (hk : k ≠ 0)
    (hs : ReadAsWord (macroHashMatch s)) :
    Skips { nestCount := k, p } { nestCount := k, p := p.bump s.length } := by
  refine skips_from_name (a := []) h hd rfl (bump_zero _).symm fun n => ?_
  rw [skipLoop_directive h hd hk]
  rcases hs with hs | hs | hs | hs | hs | hs <;> rw [hs]

/-! ## The agreement -/

lemma directiveSeen_end {taken : Bool} {depth : ℕ} (h : At p pre []) :
    directiveSeen taken n depth p = none := by
  cases n with
  | zero => rfl
  | succ n => rw [directiveSeen, if_pos h.atEnd_nil]

lemma pastSegment_quote {c : Byte} (h : At p pre (c :: post)) (hc : IsQuote c) :
    p.pastSegment = p.bump (1 + (literalTail c post).length) := by
  have hslash : c ≠ '/'.toUInt8 := by rcases hc with rfl | rfl <;> decide
  have hcom := not_startsComment (s := post) hslash
  rw [← opensComment_iff h, not_or] at hcom
  rw [pastSegment, if_neg hcom.1, if_neg hcom.2, h.currChar, if_pos hc, h.bump_one.rest]

/-- A literal that is not closed takes the rest of the text along, for both scanners. -/
lemma stops_unclosed {taken : Bool} {c : Byte} {depth : ℕ} (h : At p pre (c :: post))
    (hk : k ≠ 0) (hc : IsQuote c) (hfree : p.quoteFree = true) (hclosed : ¬ p.closed = true) :
    ∃ r, Stops { nestCount := k, p } r ∧
      r.1.directive = directiveSeen taken n depth p.pastSegment := by
  rw [quoteFree, h.currChar, h.bump_one.rest, List.all_eq_true] at hfree
  rw [closed, h.currChar, h.bump_one.rest, beq_iff_eq] at hclosed
  obtain ⟨r, heq, hlast⟩ := literalTail_split hc post
  have hr : r = [] := by
    by_contra hne
    exact hclosed (hlast hne)
  rw [hr, List.append_nil] at heq
  rw [← heq] at hfree
  refine ⟨_, stops_cut h hk hc fun d hd => by simpa using hfree d hd, ?_⟩
  have hend : At (p.bump (c :: post).length) (pre ++ (c :: post)) [] :=
    At.bump (by rwa [List.append_nil])
  rw [pastSegment_quote h hc, ← heq, Nat.add_comm, ← List.length_cons, directiveSeen_end hend]
  rfl

/-- The skipping loop finds what the main loop would see. -/
def Agrees (taken : Bool) (n depth : ℕ) (p : Preprocessor) : Prop :=
  ∃ r, Stops { nestCount := depth + 1, p } r ∧ r.1.directive = directiveSeen taken n depth p

lemma Agrees.of_skips {taken : Bool} {depth d : ℕ} {r : Preprocessor}
    (hskip : Skips { nestCount := depth + 1, p } { nestCount := d + 1, p := r })
    (h : Agrees taken n d r) :
    ∃ r', Stops { nestCount := depth + 1, p } r' ∧
      r'.1.directive = directiveSeen taken n d r := by
  obtain ⟨r', hstop, hfound⟩ := h
  exact ⟨r', hstop.of_skips hskip, hfound⟩

/-- Where the handler of a further arm goes on when an arm has been taken. -/
lemma exists_handled_arm {matched : MacroType} (h : At p pre post)
    (hm : matched = .Elif ∨ matched = .Else) :
    ∃ a b, post = a ++ b ∧ p.handled true matched = p.bump a.length := by
  rcases hm with rfl | rfl
  · exact ⟨[], post, rfl, (bump_zero p).symm⟩
  by_cases hn : '\n'.toUInt8 ∈ post
  · obtain ⟨a, b, rfl, ha⟩ := exists_split_of_mem hn
    exact ⟨a ++ ['\n'.toUInt8], b, by simp, by rw [handled, h.pastFound ha]; simp⟩
  · refine ⟨[], post, rfl, ?_⟩
    rw [handled, h.findNext_none hn]
    exact (bump_zero p).symm

/-- A further arm of the group, when an arm has been taken: the loop drops its line, the main loop
goes on at `q`, behind which the line is quiet. -/
lemma stops_taken_arm {r : SkipStop × Preprocessor} {a b : List Byte} (h : At p pre (s ++ rest))
    (hd : Directive s rest) (hs : macroHashMatch s = .Elif ∨ macroHashMatch s = .Else)
    (htaken : p.everTaken = true) (hab : rest = a ++ b)
    (hq : q = (p.bump s.length).bump a.length)
    (hquiet : quietTo (p.bump s.length).lineEnd n q = true)
    (hstop : Stops { nestCount := 1, p := q } r) : Stops { nestCount := 1, p } r := by
  subst hab hq
  obtain ⟨-, -, -, -, j, -, hloop⟩ := skips_quietTo h.bump.bump Nat.one_ne_zero hquiet
  rw [show (p.bump s.length).bump a.length = (p.bump s.length).setCursor _ from rfl,
    setCursor_setCursor] at hloop
  have hlt := rest_bump_lt hd.ne_nil h
  intro m hm
  have hm' : p.rest.length ≤ m := hm
  obtain ⟨m, rfl⟩ : ∃ i, m = i + 1 := ⟨m - 1, by omega⟩
  have hstep : SkipState.loop (m + 1) { nestCount := 1, p } =
      SkipState.loop m
        { nestCount := 1, p := (p.bump s.length).setCursor (p.bump s.length).lineEnd } := by
    rw [SkipState.loop, SkipState.loop, skipLoop_directive h hd Nat.one_ne_zero]
    rcases hs with hs | hs <;> rw [hs] <;> simp [htaken, lineEnd]
  rw [hstep, ← hloop]
  refine hstop _ ?_
  have hname := h.bump.rest
  have hafter := h.bump.bump.rest
  rw [hname, List.length_append] at hlt
  show ((p.bump s.length).bump a.length).rest.length ≤ m + j
  rw [hafter]
  omega

/-- A skip goes on to the end of the text behind a `#define_m` that does not end. -/
lemma stops_unended (h : At p pre (s ++ rest)) (hd : Directive s rest) (hk : k ≠ 0)
    (hm : macroHashMatch s = .Define_M) (hfail : (p.bump s.length).handleDefineM.1 < 0) :
    ∃ r, Stops { nestCount := k, p } r ∧ r.1.directive = none := by
  have hname := h.bump
  have hnone := hname.pastSeq_none 7 (by decide) (handleDefineM_fails hname hfail)
  have hat : At ((p.bump s.length).setCursor (p.bump s.length).enddefEnd) (pre ++ s ++ rest) [] := by
    rw [enddefEnd, hnone]
    exact At.bump (by rwa [List.append_nil])
  exact ⟨_, Stops.of_skips (skips_defineM h hd hk hm) (stops_end hat), rfl⟩

/-- A skip over a `#define_m`, and over what stands quietly behind its `#enddef`. -/
lemma skips_ended {stop : ℕ} (h : At p pre (s ++ rest)) (hd : Directive s rest) (hk : k ≠ 0)
    (hm : macroHashMatch s = .Define_M)
    (hto : quietTo stop n ((p.bump s.length).setCursor (p.bump s.length).enddefEnd) = true) :
    ∃ a b, rest = a ++ b ∧ (p.bump s.length).setCursor stop = (p.bump s.length).bump a.length ∧
      Skips { nestCount := k, p } { nestCount := k, p := (p.bump s.length).setCursor stop } := by
  have hname := h.bump
  obtain ⟨a, b, hab, hend⟩ := exists_enddefEnd hname
  have hat := hname
  rw [hab] at hat
  have hmid := hat.bump
  rw [← hend] at hmid
  obtain ⟨a', b', hab', hstop, hskip⟩ := skips_quietTo hmid hk hto
  rw [setCursor_setCursor] at hstop hskip
  refine ⟨a ++ a', b', ?_, ?_, (skips_defineM h hd hk hm).trans hskip⟩
  · rw [hab, hab', List.append_assoc]
  · rw [hstop, hend, bump_bump, List.length_append]

/-- Both scanners in front of a directive. -/
lemma agrees_directive {taken : Bool} {depth : ℕ}
    (ih : ∀ {depth : ℕ} {p : Preprocessor} {pre post : List Byte}, At p pre post →
      post.length ≤ n → p.everTaken = taken → agreeable taken n depth p = true →
      Agrees taken n depth p)
    (h : At p pre (s ++ rest)) (hd : Directive s rest) (hlen : (s ++ rest).length ≤ n + 1)
    (htaken : p.everTaken = taken) (hagree : agreeable taken (n + 1) depth p = true) :
    Agrees taken (n + 1) depth p := by
  have hk : depth + 1 ≠ 0 := Nat.succ_ne_zero depth
  have hpos := List.length_pos_iff.mpr hd.ne_nil
  have hat : At p pre ('#'.toUInt8 :: (s.tail ++ rest)) := by
    rw [hd.eq_cons] at h
    exact h
  have hname := h.bump
  -- the induction hypothesis, behind any more of the text
  have ih' : ∀ {d : ℕ} {r : Preprocessor} {a b : List Byte}, rest = a ++ b →
      r = (p.bump s.length).bump a.length → agreeable taken n d r = true → Agrees taken n d r := by
    rintro d r a b rfl rfl hagree
    refine ih hname.bump ?_ htaken hagree
    simp only [List.length_append] at hlen
    omega
  rw [agreeable, hat.atEnd_cons] at hagree
  rw [Agrees, directiveSeen, hat.atEnd_cons]
  simp only [Bool.false_eq_true, if_false, hat.currChar, if_true, readDirective_eq h hd]
    at hagree ⊢
  set q := p.bump s.length with hq
  -- where the handler goes on, behind quiet text
  have hshift : ∀ t, q.handled t (macroHashMatch s) =
      q.setCursor (q.handled t (macroHashMatch s)).cursor := by
    intro t
    obtain ⟨m, hm⟩ := Shifted.handled t (macroHashMatch s) q
    rw [hm, setCursor_cursor _ _ hname.stacked]
  have hquiet : ∀ {t : Bool} {d : ℕ},
      quietTo (q.handled t (macroHashMatch s)).cursor n q = true →
      Skips { nestCount := depth + 1, p } { nestCount := d + 1, p := q } →
      agreeable taken n d (q.handled t (macroHashMatch s)) = true →
      ∃ r, Stops { nestCount := depth + 1, p } r ∧
        r.1.directive = directiveSeen taken n d (q.handled t (macroHashMatch s)) := by
    intro t d hto hskip hagree
    obtain ⟨a, b, hab, hstop, hskip'⟩ := skips_quietTo hname (Nat.succ_ne_zero d) hto
    rw [← hshift] at hstop hskip'
    exact (ih' hab hstop hagree).of_skips (hskip.trans hskip')
  cases hm : macroHashMatch s with
  | If | Ifndef =>
      simp only [hm, Bool.and_eq_true, decide_eq_true_eq] at hagree hquiet ⊢
      have hskip := skips_open h hd hk (by simp [hm])
      rw [Nat.mod_eq_of_lt (by omega)] at hskip
      exact hquiet hagree.1.2 hskip hagree.2
  | Elif | Else =>
      have harm : macroHashMatch s = .Elif ∨ macroHashMatch s = .Else := by simp [hm]
      simp only [hm] at hagree hquiet ⊢
      rcases depth with _ | depth
      · cases taken with
        | false => exact ⟨_, hm ▸ stops_arm h hd harm htaken, rfl⟩
        | true =>
            simp only [if_true, Bool.not_true, Bool.false_or, Bool.and_eq_true] at hagree
            obtain ⟨a, b, hab, hr⟩ := exists_handled_arm hname (hm ▸ harm)
            obtain ⟨r, hstop, hfound⟩ := ih' hab hr hagree.2
            exact ⟨r, stops_taken_arm h hd harm htaken hab hr hagree.1 hstop, by simpa using hfound⟩
      · simp only [Nat.succ_ne_zero, if_false, false_and, Bool.and_eq_true] at hagree ⊢
        exact hquiet hagree.1 (skips_inner_arm h hd (Nat.succ_ne_zero _) harm) hagree.2
  | Endif =>
      simp only [hm] at hagree hquiet ⊢
      rcases depth with _ | depth
      · exact ⟨_, stops_endif h hd hm, rfl⟩
      · simp only [Nat.succ_ne_zero, if_false, Bool.and_eq_true] at hagree ⊢
        exact hquiet hagree.1 (skips_close h hd (Nat.succ_ne_zero _) hm) hagree.2
  | Define =>
      simp only [hm, Bool.and_eq_true, beq_iff_eq] at hagree hshift ⊢
      obtain ⟨hend, hagree⟩ := hagree
      rw [hshift, hend] at hagree ⊢
      obtain ⟨a, b, hab, hline⟩ := exists_lineEnd hname
      exact (ih' hab hline hagree).of_skips (skips_define h hd hk hm)
  | Define_M =>
      simp only [hm, Bool.or_eq_true, decide_eq_true_eq, Bool.and_eq_true] at hagree hshift ⊢
      by_cases hfail : q.handleDefineM.1 < 0
      · rw [if_pos hfail]
        exact stops_unended h hd hk hm hfail
      · rw [if_neg hfail]
        obtain ⟨hto, hagree⟩ := hagree.resolve_left hfail
        obtain ⟨a, b, hab, hstop, hskip⟩ := skips_ended h hd hk hm hto
        rw [← hshift] at hstop hskip
        exact (ih' hab hstop hagree).of_skips hskip
  | Skip =>
      simp only [hm] at hagree ⊢
      obtain ⟨a, b, hab, hend⟩ := exists_handleSkip hname
      exact (ih' hab hend hagree).of_skips (skips_skip h hd hk hm)
  | None | Unknown | Include | Enddef | Import | Param =>
      simp only [hm, Bool.and_eq_true] at hagree hquiet ⊢
      exact hquiet hagree.1 (skips_word h hd hk (by simp [hm, ReadAsWord])) hagree.2

/-- The skipping loop finds what the main loop would see, wherever it starts. -/
lemma agrees_of_agreeable (taken : Bool) : ∀ {n depth : ℕ} {p : Preprocessor} {pre post : List Byte},
    At p pre post → post.length ≤ n → p.everTaken = taken → agreeable taken n depth p = true →
      Agrees taken n depth p := by
  intro n
  induction n with
  | zero =>
      intro depth p pre post h hlen _ _
      cases List.length_eq_zero_iff.mp (Nat.le_zero.mp hlen)
      exact ⟨_, stops_end h, rfl⟩
  | succ n ih =>
      intro depth p pre post h hlen htaken hagree
      have hk : depth + 1 ≠ 0 := Nat.succ_ne_zero depth
      rcases post with _ | ⟨c, post⟩
      · exact ⟨_, stops_end h, by rw [directiveSeen_end h]; rfl⟩
      by_cases hhash : c = '#'.toUInt8
      · obtain ⟨s, rest, heq, hd⟩ := exists_directive hhash post
        rw [heq] at h hlen
        exact agrees_directive ih h hd hlen htaken hagree
      rw [agreeable, h.atEnd_cons] at hagree
      rw [Agrees, directiveSeen, h.atEnd_cons]
      simp only [Bool.false_eq_true, if_false, h.currChar, hhash, Bool.and_eq_true, Bool.or_eq_true,
        Bool.not_eq_true', decide_eq_false_iff_not] at hagree ⊢
      by_cases hcut : IsQuote c ∧ ¬ p.closed = true
      · exact stops_unclosed h hk hcut.1 (hagree.1.resolve_left fun hno => hno hcut.1) hcut.2
      rw [not_and, not_not] at hcut
      obtain ⟨a, b, heq, ha, hpast, hskip⟩ := skips_segment h hk hhash fun hq =>
        ⟨hagree.1.resolve_left fun hno => hno hq, hcut hq⟩
      have hat : At p.pastSegment (pre ++ a) b := hpast ▸ At.bump (heq ▸ h)
      have hpos := List.length_pos_iff.mpr ha
      have hb := congrArg List.length heq
      rw [List.length_append] at hb
      have htaken' : p.pastSegment.everTaken = taken := by rw [hpast]; exact htaken
      exact (ih hat (by omega) htaken' hagree.2).of_skips (hpast ▸ hskip)

/-- The state in front of an arm that is skipped, in a file that starts with `#if 0`. -/
def skippedArm (arm : List Byte) : Preprocessor :=
  (((ofText (bytes "#if 0\n" ++ arm)).setActive .If).setCursor 6).pushFlags 0

end Preprocessor

end LogicCompiler
