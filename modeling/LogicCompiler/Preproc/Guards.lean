import LogicCompiler.Preproc.Points
import LogicCompiler.Preproc.SkipAgreement

/-!
# Include guards

A file that is one `#ifndef` group, whose first line defines the name it asks for, is meant to
leave nothing behind when it is included again.

The second inclusion skips the body.  Where the skip reads it as the main loop does, it comes to the
`#endif` of the group, and what is left behind is the byte of flags that `handle_ifndef` has pushed:
nobody pops it (`guard_leaves_flags`).  Where it stops earlier, the rest of the file is read as text
that is not skipped, and only a rest that takes this byte away makes up for it
(`guard_repeats_iff`).
-/

namespace LogicCompiler

namespace Preprocessor

variable {p p' q r : Preprocessor} {disk : Disk} {pre post : List Byte}

/-! ## What a skip finds is a matter of the text -/

/-- The cursor anywhere in the frame. -/
lemma At.setCursor {n : ℕ} (h : At p pre post) (hn : n ≤ p.size) :
    At (p.setCursor n) ((pre ++ post).take n) ((pre ++ post).drop n) := by
  have hlen : (pre ++ post).length = p.size := by rw [h.size, List.length_append]
  refine ⟨?_, ?_, ?_, ?_, ?_⟩
  · rw [Ne, setCursor_inputStack_eq_nil]
    exact h.stacked
  · rw [setCursor_fileMgr, setCursor_sourceContent, h.text, List.take_append_drop]
  · rw [setCursor_cursor _ _ h.stacked, List.length_take, hlen, Nat.min_eq_left hn]
  · rw [setCursor_size, ← List.length_append, List.take_append_drop, hlen]
  · rw [setCursor_size]
    exact h.small

/-- Two states at the same place of the same text, whose groups agree on whether an arm has been
taken. -/
structure Alike (p p' : Preprocessor) : Prop where
  places : ∃ pre post, At p pre post ∧ At p' pre post
  everTaken : p.everTaken = p'.everTaken

namespace Alike

lemma cursor (h : Alike p p') : p'.cursor = p.cursor := by
  obtain ⟨⟨pre, post, hat, hat'⟩, -⟩ := h
  rw [hat.cursor, hat'.cursor]

lemma size (h : Alike p p') : p'.size = p.size := by
  obtain ⟨⟨pre, post, hat, hat'⟩, -⟩ := h
  rw [hat.size, hat'.size]

lemma rest (h : Alike p p') : p'.rest = p.rest := by
  obtain ⟨⟨pre, post, hat, hat'⟩, -⟩ := h
  rw [hat.rest, hat'.rest]

lemma inside (h : Alike p p') : p.cursor ≤ p.size := by
  obtain ⟨⟨pre, post, hat, -⟩, -⟩ := h
  rw [hat.cursor, hat.size]
  exact Nat.le_add_right _ _

lemma findNext (h : Alike p p') (c : Char) : p'.findNext c = p.findNext c := by
  rw [Preprocessor.findNext, Preprocessor.findNext, h.rest, h.cursor]

lemma findNextSeq (h : Alike p p') (s : String) : p'.findNextSeq s = p.findNextSeq s := by
  rw [Preprocessor.findNextSeq, Preprocessor.findNextSeq, h.rest, h.cursor]

lemma setCursor (h : Alike p p') {n : ℕ} (hn : n ≤ p.size) :
    Alike (p.setCursor n) (p'.setCursor n) := by
  have htaken := h.everTaken
  obtain ⟨⟨pre, post, hat, hat'⟩, -⟩ := h
  have hn' : n ≤ p'.size := by rwa [hat'.size, ← hat.size]
  exact ⟨⟨_, _, hat.setCursor hn, hat'.setCursor hn'⟩, htaken⟩

/-- Behind the line. -/
lemma pastLine (h : Alike p p') :
    Alike (p.setCursor (p.orSizeAdd (p.findNext '\n') 1))
      (p'.setCursor (p'.orSizeAdd (p'.findNext '\n') 1)) := by
  rw [h.findNext, orSizeAdd, orSizeAdd, h.size]
  obtain ⟨⟨pre, post, hat, -⟩, -⟩ := id h
  refine h.setCursor ?_
  have hin := (forward_pastLine p).inside h.inside
  rwa [setCursor_cursor _ _ hat.stacked] at hin

/-- Behind the next `sequence`. -/
lemma pastSeq (h : Alike p p') (sequence : String) :
    Alike (p.setCursor (p.orSizeAdd (p.findNextSeq sequence) (bytes sequence).length))
      (p'.setCursor (p'.orSizeAdd (p'.findNextSeq sequence) (bytes sequence).length)) := by
  rw [h.findNextSeq, orSizeAdd, orSizeAdd, h.size]
  obtain ⟨⟨pre, post, hat, -⟩, -⟩ := id h
  refine h.setCursor ?_
  have hin := (forward_pastSeq p sequence).inside h.inside
  rwa [setCursor_cursor _ _ hat.stacked] at hin

lemma bump (h : Alike p p') {n : ℕ} (hn : p.cursor + n ≤ p.size) :
    Alike (p.bump n) (p'.bump n) := by
  rw [Preprocessor.bump, Preprocessor.bump, h.cursor]
  exact h.setCursor hn

end Alike

/-- Inside strings, one iteration in front of a byte. -/
lemma skipLoop_stringed {c : Byte} {n nestCount : ℕ} {s1 s2 : Bool} (h : At p pre (c :: post))
    (hnest : nestCount ≠ 0) (hs : (s1 || s2) = true) :
    skipLoop (n + 1) s1 s2 nestCount p =
      if c = '"'.toUInt8 then skipLoop n s1 (!s2) nestCount (p.bump 1)
      else if c = '\''.toUInt8 then skipLoop n (!s1) s2 nestCount (p.bump 1)
      else skipLoop n s1 s2 nestCount (p.bump 1) := by
  rw [skipLoop]
  simp only [hnest, h.atEnd_cons, h.currChar, hs, false_or, Bool.false_eq_true, if_false, if_true]

/-- Two scans have come to the same, and the second has only moved the cursor of `r`. -/
def ScansAlike (r : Preprocessor) (scan scan' : SkipStop × Preprocessor) : Prop :=
  scan'.1 = scan.1 ∧ Alike scan.2 scan'.2 ∧ Shifted r scan'.2

/-- The loop in front of a directive, if what comes behind is scanned alike. -/
lemma skipLoop_alike_directive {s rest : List Byte} {n nestCount : ℕ} (h : Alike p p')
    (hat : At p pre (s ++ rest)) (hat' : At p' pre (s ++ rest)) (hd : Directive s rest)
    (hnest : nestCount ≠ 0)
    (ih : ∀ {q q' : Preprocessor} {nestCount : ℕ}, Alike q q' → Shifted p' q' →
      ScansAlike p' (skipLoop n false false nestCount q) (skipLoop n false false nestCount q')) :
    ScansAlike p' (skipLoop (n + 1) false false nestCount p)
      (skipLoop (n + 1) false false nestCount p') := by
  have hname : Alike (p.bump s.length) (p'.bump s.length) := by
    refine h.bump ?_
    rw [hat.cursor, hat.size, List.length_append]
    omega
  have hword : Shifted p' (p'.bump s.length) := ⟨_, rfl⟩
  rw [skipLoop_directive hat hd hnest, skipLoop_directive hat' hd hnest, h.cursor, ← h.everTaken]
  cases macroHashMatch s with
  | If | Ifndef => exact ih hname hword
  | Define => exact ih hname.pastLine (hword.setCursor _)
  | Define_M => exact ih (hname.pastSeq "#enddef") (hword.setCursor _)
  | Skip => exact ih hname.pastLine.pastLine ((hword.setCursor _).setCursor _)
  | Elif | Else =>
      dsimp only
      split_ifs
      · exact ih hname.pastLine (hword.setCursor _)
      · exact ⟨rfl, hname, hword⟩
      · exact ih hname hword
  | Endif =>
      dsimp only
      split_ifs
      · exact ⟨rfl, hname, hword⟩
      · exact ih hname hword
  | None | Unknown | Include | Enddef | Import | Param => exact ih hname hword

/-- What the loop of `skip_if_branch` comes to depends on the text only, and on whether an arm of
the group has been taken. -/
lemma skipLoop_alike (n : ℕ) {s1 s2 : Bool} {nestCount : ℕ} (h : Alike p p') :
    ScansAlike p' (skipLoop n s1 s2 nestCount p) (skipLoop n s1 s2 nestCount p') := by
  induction n generalizing s1 s2 nestCount p p' with
  | zero => exact ⟨rfl, h, .refl p'⟩
  | succ n ih =>
      -- every iteration only moves the cursor
      have ih' : ∀ {q q' : Preprocessor} {s1 s2 : Bool} {nestCount : ℕ}, Alike q q' → Shifted p' q' →
          ScansAlike p' (skipLoop n s1 s2 nestCount q) (skipLoop n s1 s2 nestCount q') := by
        intro q q' s1 s2 nestCount hq hshift
        obtain ⟨hstop, hend, hmoved⟩ : ScansAlike q' (skipLoop n s1 s2 nestCount q)
          (skipLoop n s1 s2 nestCount q') := ih hq
        exact ⟨hstop, hend, hshift.trans hmoved⟩
      obtain ⟨⟨pre, post, hat, hat'⟩, htaken⟩ := id h
      by_cases hnest : nestCount = 0
      · rw [skipLoop, skipLoop, if_pos (.inl hnest), if_pos (.inl hnest)]
        exact ⟨rfl, h, .refl p'⟩
      cases post with
      | nil =>
          rw [skipLoop, skipLoop, if_pos (.inr hat.atEnd_nil), if_pos (.inr hat'.atEnd_nil)]
          exact ⟨rfl, h, .refl p'⟩
      | cons c post =>
          have hone : Alike (p.bump 1) (p'.bump 1) := by
            refine h.bump ?_
            rw [hat.cursor, hat.size, List.length_cons]
            omega
          have hmove : Shifted p' (p'.bump 1) := ⟨_, rfl⟩
          cases hs : s1 || s2 with
          | true =>
              rw [skipLoop_stringed hat' hnest hs, skipLoop_stringed hat hnest hs]
              split_ifs
              · exact ih' hone hmove
              · exact ih' hone hmove
              · exact ih' hone hmove
          | false =>
              obtain ⟨rfl, rfl⟩ := Bool.or_eq_false_iff.mp hs
              by_cases hhash : c = '#'.toUInt8
              · obtain ⟨s, rest, htext, hd⟩ := exists_directive hhash post
                rw [htext] at hat hat'
                exact skipLoop_alike_directive h hat hat' hd hnest ih'
              have hopen : ∀ second, p'.opensComment second = p.opensComment second := by
                intro second
                rw [opensComment, opensComment, hat'.currChar, hat.currChar, h.cursor, h.size]
                cases post with
                | nil => simp [hat.lastChar]
                | cons d post =>
                    have hget := hat'.nextChar.2
                    rw [h.cursor] at hget
                    rw [hget, hat.nextChar.2]
              rw [skipLoop_cons hat' hnest, skipLoop_cons hat hnest, hopen, hopen]
              simp only [hhash, if_false]
              split_ifs with hquote hquote' hline hblock
              · exact ih' hone hmove
              · exact ih' hone hmove
              · exact ih' h.pastLine ⟨_, rfl⟩
              · have htwo : Alike (p.bump 2) (p'.bump 2) :=
                  h.bump ((opensComment_eq_true _ '*').mp hblock).2.1
                exact ih' (htwo.pastSeq "*/") (((Shifted.refl p').setCursor _).setCursor _)
              · exact ih' hone hmove

lemma Alike.endBranching (h : Alike p p') :
    p'.endBranching.1 = p.endBranching.1 ∧ p'.endBranching.2.cursor = p.endBranching.2.cursor := by
  obtain ⟨⟨pre, post, hat, hat'⟩, -⟩ := id h
  rw [Preprocessor.endBranching, Preprocessor.endBranching, h.findNext, h.size]
  cases p.findNext '\n' with
  | none => exact ⟨rfl, by rw [setCursor_cursor _ _ hat.stacked, setCursor_cursor _ _ hat'.stacked]⟩
  | some pos =>
      exact ⟨rfl, by rw [setCursor_cursor _ _ hat.stacked, setCursor_cursor _ _ hat'.stacked]⟩

lemma shifted_endBranching (p : Preprocessor) : Shifted p p.endBranching.2 := by
  rw [endBranching]
  cases p.findNext '\n' <;> exact ⟨_, rfl⟩

/-- Where a skip comes to depends on the text only. -/
lemma Alike.skipIfBranch (h : Alike p p') :
    p'.skipIfBranch = (p.skipIfBranch.1, p'.setCursor p.skipIfBranch.2.cursor) := by
  have hscan : p'.skipScan.1 = p.skipScan.1 ∧ Alike p.skipScan.2 p'.skipScan.2 ∧
      Shifted p' p'.skipScan.2 := by
    rw [skipScan, skipScan, h.rest]
    exact skipLoop_alike _ h
  rcases hp : p.skipScan with ⟨stop, r⟩
  rcases hp' : p'.skipScan with ⟨stop', r'⟩
  rw [hp, hp'] at hscan
  obtain ⟨hsame, hend, hmoved⟩ := hscan
  dsimp only at hsame hend hmoved
  subst hsame
  -- from the two states in which the scans have ended
  have hcursor : ∀ {q q' : Preprocessor}, q'.cursor = q.cursor → Shifted p' q' →
      q' = p'.setCursor q.cursor := by
    rintro q q' hcur ⟨n, rfl⟩
    obtain ⟨⟨pre, post, hat, hat'⟩, -⟩ := id h
    rw [setCursor_cursor _ _ hat'.stacked] at hcur
    rw [hcur]
  rw [Preprocessor.skipIfBranch, Preprocessor.skipIfBranch, hp, hp']
  have hover : ∀ ret : ℤ, ((ret, r') : ℤ × Preprocessor) =
      (((ret, r) : ℤ × Preprocessor).1, p'.setCursor ((ret, r) : ℤ × Preprocessor).2.cursor) :=
    fun ret => by rw [hcursor hend.cursor hmoved]
  have hbranch : r'.endBranching = (r.endBranching.1, p'.setCursor r.endBranching.2.cursor) :=
    Prod.ext hend.endBranching.1
      (hcursor hend.endBranching.2 (hmoved.trans (shifted_endBranching r')))
  cases stop' with
  | exhausted nestCount => exact hover _
  | found d hash =>
      cases d with
      | Elif => exact hover _
      | _ => exact hbranch

/-- The directive a skip stops at is the one that is read at its `#`. -/
lemma skipLoop_found (n : ℕ) {s1 s2 : Bool} {nestCount hash : ℕ} {d : MacroType}
    (h : skipLoop n s1 s2 nestCount p = (.found d hash, r)) :
    (p.setCursor hash).readDirective = (d, r) := by
  induction n generalizing s1 s2 nestCount p with
  | zero => cases h
  | succ n ih =>
      -- every iteration only moves the cursor
      have hmove : ∀ {q : Preprocessor} {s1 s2 : Bool} {nestCount cur : ℕ},
          q = p.setCursor cur → skipLoop n s1 s2 nestCount q = (.found d hash, r) →
            (p.setCursor hash).readDirective = (d, r) := by
        rintro q s1 s2 nestCount cur rfl hq
        have hread := ih hq
        rwa [setCursor_setCursor] at hread
      have hname : p.readDirective.2 = p.setCursor _ := setCursor_setCursor p _ _
      have hline : ∀ {q : Preprocessor} {cur : ℕ} (cur' : ℕ), q = p.setCursor cur →
          q.setCursor cur' = p.setCursor cur' := by
        rintro q cur cur' rfl
        exact setCursor_setCursor p _ _
      have hstop (hq : (SkipStop.found p.readDirective.1 p.cursor, p.readDirective.2) =
          (.found d hash, r)) : (p.setCursor hash).readDirective = (d, r) := by
        cases hq
        rw [setCursor_self]
      rw [skipLoop] at h
      dsimp only at h
      split at h
      · cases h
      split at h
      · exact hmove rfl h
      split at h
      · exact hmove rfl h
      split at h
      · exact hmove rfl h
      split at h
      · exact hmove rfl h
      split at h
      · exact hmove (hline _ rfl) h
      split at h
      · split at h
        · exact hmove hname h
        · exact hmove hname h
        · exact hmove (hline _ hname) h
        · exact hmove (hline _ hname) h
        · exact hmove (hline _ (hline _ hname)) h
        · split_ifs at h
          · exact hmove (hline _ hname) h
          · exact hstop h
          · exact hmove hname h
        · split_ifs at h
          · exact hmove (hline _ hname) h
          · exact hstop h
          · exact hmove hname h
        · next hd =>
            split_ifs at h
            · exact hstop (hd.symm ▸ h)
            · exact hmove hname h
        · exact hmove hname h
      · exact hmove rfl h

/-! ## The guarded file -/

/-- A file that is one group: `#ifndef` with a name, `#define` with the same name, a body, and
`#endif` in the last line. -/
structure Guard where
  opening : NameLine
  defining : NameLine
  same : defining.name = opening.name
  body : List Byte
  ending : List Byte
  ending_word : ∀ c ∈ ending.head?, isIdentChar c = false
  ending_line : '\n'.toUInt8 ∉ ending.dropLast

namespace Guard

variable (g : Guard)

/-- The name that guards the file. -/
def name : List Byte := g.opening.name

/-- The first line. -/
def head : List Byte := bytes "#ifndef" ++ g.opening.line

/-- What the group holds. -/
def inner : List Byte := bytes "#define" ++ (g.defining.line ++ g.body)

/-- The text of the file. -/
def text : List Byte := g.head ++ (g.inner ++ (bytes "#endif" ++ g.ending))

/-- Where the last directive stands. -/
def last : ℕ := (g.head ++ g.inner).length

/-- The state behind the first line of the file, in a group without a taken arm. -/
def behindHead : Preprocessor := { (ofText g.text).bump g.head.length with branchFlags := [0] }

/-- As the main loop reads the body, its conditionals are well nested: the first directive that
belongs to the group of the file is the `#endif` in the last line. -/
def wellNested : Bool :=
  directiveSeen false (g.inner ++ (bytes "#endif" ++ g.ending)).length 0 g.behindHead
    == some (.Endif, g.last)

/-- The scan of `skip_if_branch` reads the body as the main loop does. -/
def ReadAlike : Prop :=
  agreeable false (g.inner ++ (bytes "#endif" ++ g.ending)).length 0 g.behindHead = true

/-- Where the skip of the body stops. -/
def stop : SkipStop := g.behindHead.skipScan.1

/-- Where the file is read on behind the skip of the body. -/
def resume : ℕ := g.behindHead.skipIfBranch.2.cursor

end Guard

/-! ## Inclusions -/

/-- The main loop works above the frames `base`, by iterations that meet `K`, until these are left. -/
inductive ReadsFile (disk : Disk) (base : List SourceFrame) (K : Preprocessor → Preprocessor → Prop) :
    Preprocessor → Preprocessor → Prop
  | popped {q : Preprocessor} (h : q.inputStack = base) : ReadsFile disk base K q q
  | step {p q r : Preprocessor} {frames : List SourceFrame} (hframes : frames ≠ [])
      (habove : p.inputStack = frames ++ base) (hstep : Steps disk p q) (hK : K p q)
      (hrest : ReadsFile disk base K q r) : ReadsFile disk base K p r

/-- From `p`, which stands at an inclusion of a file with this text, to the state in front of the
file. -/
structure Enters (disk : Disk) (text : List Byte) (base : List SourceFrame)
    (p entry : Preprocessor) : Prop where
  ahead : p.directiveAhead = some .Include ∨ p.directiveAhead = some .Import
  steps : Steps disk p entry
  small : text.length < 2 ^ 32
  pushed : ∃ content, entry.inputStack = { content, cursor := 0 } :: base ∧
    content.size = text.length ∧ entry.fileMgr.read content = text

/-- The inclusion as a whole: from `p` to the state in which the file has been read. -/
def Includes (disk : Disk) (text : List Byte) (K : Preprocessor → Preprocessor → Prop)
    (p q : Preprocessor) : Prop :=
  ∃ entry base, Enters disk text base p entry ∧ ReadsFile disk base K entry q

/-- The output, the macro table and the branch flags are the same. -/
structure Unchanged (p q : Preprocessor) : Prop where
  outputBuffer : q.outputBuffer = p.outputBuffer
  storedMacros : q.storedMacros = p.storedMacros
  branchFlags : q.branchFlags = p.branchFlags

lemma Unchanged.trans (h : Unchanged p q) (h' : Unchanged q r) : Unchanged p r :=
  ⟨h'.outputBuffer.trans h.outputBuffer, h'.storedMacros.trans h.storedMacros,
    h'.branchFlags.trans h.branchFlags⟩

lemma Unchanged.symm (h : Unchanged p q) : Unchanged q p :=
  ⟨h.outputBuffer.symm, h.storedMacros.symm, h.branchFlags.symm⟩

/-- From the state `entry` in front of a file that is skipped because its name is defined: the skip
stops at another directive than the last one and without an error, and the rest of the file, read on
from there with the byte `0` on top of the flags, takes this byte away and leaves nothing. -/
structure Guard.Restores (g : Guard) (disk : Disk) (base : List SourceFrame) (entry : Preprocessor) :
    Prop where
  stop_ne : g.stop ≠ .found .Endif g.last
  goes_on : 0 ≤ g.behindHead.skipIfBranch.1
  rest : ∃ r, ReadsFile disk base (fun _ _ => True)
    (entry.armState .Ifndef g.resume (0 :: entry.branchFlags)) r ∧ Unchanged entry r

/-- An iteration that does not absorb the name. -/
def KeepsName (name : List Byte) (p q : Preprocessor) : Prop :=
  p.isDefined name = true → q.isDefined name = true

variable {base frames : List SourceFrame} {K : Preprocessor → Preprocessor → Prop} {f : SourceFrame}
  {g : Guard}

namespace ReadsFile

/-- The first iteration. -/
lemma tail (h : ReadsFile disk base K p r) (hp : p.inputStack = f :: base) (hs : Steps disk p q) :
    K p q ∧ ReadsFile disk base K q r := by
  cases h with
  | popped h =>
      rw [hp] at h
      exact absurd (congrArg List.length h) (by simp)
  | step _ _ hstep hK hrest =>
      obtain rfl := hstep.unique hs
      exact ⟨hK, hrest⟩

/-- Nothing happens in the frames below. -/
lemma eq_of_popped (h : ReadsFile disk base K p q) (hp : p.inputStack = base) : q = p := by
  cases h with
  | popped => rfl
  | step hframes habove =>
      rw [hp] at habove
      exact absurd (List.self_eq_append_left.mp habove) hframes

lemma keeps {P : Preprocessor → Prop} (hP : ∀ a b, K a b → P a → P b)
    (h : ReadsFile disk base K p q) (hp : P p) : P q := by
  induction h with
  | popped => exact hp
  | step _ _ _ hK _ ih => exact ih (hP _ _ hK hp)

end ReadsFile

/-! ## The iterations over a guarded file -/

lemma isDefined_registerNames {name : List Byte} (hne : name ≠ [])
    (hident : ∀ c ∈ name, isIdentChar c = true) (p : Preprocessor) (d : Defined) :
    (p.registerNames name d).isDefined name = true := by
  have hamp : '&'.toUInt8 ∉ name := fun hmem => absurd (hident _ hmem) (by decide)
  have hsplit : name.splitOn '&'.toUInt8 = [name] := by
    rw [List.splitOn, List.splitOnP_eq_singleton]
    intro c hc
    simpa using fun heq : c = '&'.toUInt8 => hamp (heq ▸ hc)
  rw [registerNames, hsplit, List.map_singleton, trim_ident hident, List.foldl_cons, if_neg hne]
  simp [isDefined, addMacro]

/-- A `#define` line defines its name. -/
lemma step_define (disk : Disk) {n : NameLine} (h : At p pre (bytes "#define" ++ (n.line ++ post))) :
    ∃ q, Steps disk p q ∧ q.isDefined n.name = true := by
  obtain ⟨⟨gap, hgap⟩, hgap_ne, name, hname_ne, hname, ⟨trail, htrail⟩⟩ := n
  have hd : Directive (bytes "#define") (gap ++ (name ++ (trail ++ '\n'.toUInt8 :: post))) :=
    directive_of rfl (by decide) (head_gap (b := ⟨gap, hgap⟩) hgap_ne)
  have hat : At p pre (bytes "#define" ++ (gap ++ (name ++ (trail ++ '\n'.toUInt8 :: post)))) := by
    simpa [NameLine.line, Blanks.line, bytes] using h
  have hword := at_active .Define hat
  set p' := (p.bump (bytes "#define").length).setActive .Define with hp'
  have hol : p'.ol = p'.bump gap.length := by
    refine hword.ol hgap fun e he => ?_
    rw [List.head?_append_of_ne_nil _ hname_ne] at he
    exact isIdentChar_not_blank (hname e (List.mem_of_head? he))
  have hhead : ∀ c ∈ (trail ++ '\n'.toUInt8 :: post).head?, isSpace c = true := by
    have hline : trail ++ '\n'.toUInt8 :: post = Blanks.line ⟨trail, htrail⟩ ++ post := by
      simp [Blanks.line, bytes]
    rw [hline]
    exact head_blanks_line _
  have hskip : (p'.bump gap.length).skipIdent = (p'.bump gap.length).bump name.length :=
    hword.bump.skipIdent hname fun e he => (isSpace_inert (hhead e he)).2
  have hread := hword.bump.bump.read_from
  rw [← hword.bump.cursor] at hread
  have halias : ∀ k, aliasLoop k ((p'.bump gap.length).bump name.length) =
      (p'.bump gap.length).bump name.length := by
    intro k
    obtain ⟨c, rest, hrest⟩ := List.exists_cons_of_ne_nil
      (show trail ++ '\n'.toUInt8 :: post ≠ [] by simp)
    have hchar : ((p'.bump gap.length).bump name.length).currChar = c :=
      At.currChar (hrest ▸ hword.bump.bump)
    have hspace : isSpace c = true := hhead c (by rw [hrest]; rfl)
    have hamp : c ≠ '&'.toUInt8 := by
      rintro rfl
      exact absurd hspace (by decide)
    cases k with
    | zero => rfl
    | succ k => rw [aliasLoop, if_neg fun hc => hamp (hchar ▸ hc.2)]
  have hdefine : ∃ q d, p'.handleDefine = (0, registerNames q name d) := by
    rw [handleDefine]
    simp only [hol, hskip, halias, hread]
    exact ⟨_, _, rfl⟩
  obtain ⟨q, d, hq⟩ := hdefine
  refine ⟨_, .of_forall fun n => ?_, isDefined_registerNames hname_ne hname q d⟩
  rw [step_directive disk n hat hd]
  show afterDirective p'.handleDefine = _
  rw [hq]
  rfl

lemma at_pushed {content : Snippet} {text : List Byte}
    (hstack : p.inputStack = { content, cursor := 0 } :: base) (hsize : content.size = text.length)
    (hsmall : text.length < 2 ^ 32) (hread : p.fileMgr.read content = text) : At p [] text := by
  have htop : p.top = { content, cursor := 0 } := by simp [top, hstack]
  refine ⟨by simp [hstack], ?_, ?_, ?_, ?_⟩
  · rw [sourceContent, htop, hread, List.nil_append]
  · rw [cursor, htop, List.length_nil]
  · rw [size, sourceContent, htop, hsize, List.length_nil, Nat.zero_add]
  · rw [size, sourceContent, htop, hsize]
    exact hsmall

namespace Guard

/-- The first line. -/
lemma step_opening (disk : Disk) (g : Guard) (h : At p [] g.text) (n : ℕ) :
    p.step disk (n + 1) = afterDirective (enterArm
      (if !p.isDefined g.name
        then .taken (p.armState .Ifndef g.head.length (armFlags true :: p.branchFlags))
        else .skipped (p.armState .Ifndef g.head.length (armFlags false :: p.branchFlags)))) := by
  have hlength : g.head.length = (bytes "#ifndef").length + (g.opening.gap.s.length
      + g.opening.name.length + g.opening.trail.line.length) := by
    simp [head, NameLine.line, Nat.add_assoc]
  have hat : At p [] (bytes "#ifndef" ++ (g.opening.gap.s ++ (g.opening.name ++
      (g.opening.trail.line ++ (g.inner ++ (bytes "#endif" ++ g.ending)))))) := by
    simpa only [text, head, NameLine.line, List.append_assoc] using h
  have hd : Directive (bytes "#ifndef") (g.opening.gap.s ++ (g.opening.name ++
      (g.opening.trail.line ++ (g.inner ++ (bytes "#endif" ++ g.ending))))) :=
    directive_of rfl (by decide) (head_gap g.opening.gap_ne)
  rw [step_ifndef disk hat hd g.opening.gap.blank g.opening.name_ne g.opening.name_ident
    (fun d hd => (isSpace_inert (head_blanks_line g.opening.trail d hd)).2)
    (pastFound_line (isLine_blanks g.opening.trail)) n, behindIfndef, ← hlength, name]
  cases p.isDefined g.opening.name <;> rfl

lemma at_behindHead (g : Guard) (hsmall : g.text.length < 2 ^ 32) :
    At g.behindHead g.head (g.inner ++ (bytes "#endif" ++ g.ending)) :=
  ((opens_ofText hsmall).at.bump (a := g.head)).congr rfl rfl

lemma everTaken_behindHead (g : Guard) : g.behindHead.everTaken = false := by
  show ((0 : UInt8) &&& BranchState.everTaken != 0) = false
  decide

/-- The states in which the body is skipped. -/
lemma alike_skipped (g : Guard) (hat : At p [] g.text) (hsmall : g.text.length < 2 ^ 32) :
    Alike g.behindHead (p.armState .Ifndef g.head.length (0 :: p.branchFlags)) := by
  refine ⟨⟨_, _, g.at_behindHead hsmall, ?_⟩, rfl⟩
  exact (armState_moved p .Ifndef g.head.length (0 :: p.branchFlags)).at_end hat

/-- When the name is defined the body is skipped, and the file is read on behind the skip. -/
lemma step_skipped (disk : Disk) (g : Guard) (hat : At p [] g.text)
    (hsmall : g.text.length < 2 ^ 32) (hdef : p.isDefined g.name = true) (n : ℕ) :
    p.step disk (n + 1) = afterDirective (g.behindHead.skipIfBranch.1,
      p.armState .Ifndef g.resume (0 :: p.branchFlags)) := by
  have hset : (p.armState .Ifndef g.head.length (0 :: p.branchFlags)).setCursor g.resume =
      p.armState .Ifndef g.resume (0 :: p.branchFlags) := by
    have hzero : p.cursor = 0 := hat.cursor
    have hbump : (p.bump g.head.length).setCursor g.resume = p.bump g.resume := by
      rw [Preprocessor.bump, setCursor_setCursor, Preprocessor.bump, hzero, Nat.zero_add]
    rw [armState, armState, ← hbump]
    rfl
  rw [g.step_opening disk hat, hdef, ← hset]
  show afterDirective (skipIfBranch _) = _
  rw [show armFlags false = 0 from rfl, (g.alike_skipped hat hsmall).skipIfBranch]
  rfl

/-- The last line ends with the file. -/
lemma isLine_ending (g : Guard) (hn : '\n'.toUInt8 ∈ g.ending) : IsLine g.ending := by
  obtain ⟨a, b, hab, ha⟩ := exists_split_of_mem hn
  have hb : b = [] := by
    by_contra hne
    have hdrop := g.ending_line
    rw [hab, List.dropLast_append_of_ne_nil (by simp)] at hdrop
    refine hdrop (List.mem_append_right _ ?_)
    rw [List.dropLast_cons_of_ne_nil hne]
    exact List.mem_cons_self
  exact ⟨a, by rw [hab, hb]; rfl, ha⟩

lemma directive_ending (g : Guard) : Directive (bytes "#endif") g.ending :=
  ⟨rfl, by decide, g.ending_word⟩

/-- A skip that comes to the last directive goes on at the end of the file. -/
lemma resume_last (g : Guard) (hsmall : g.text.length < 2 ^ 32)
    (hstop : g.stop = .found .Endif g.last) :
    g.resume = g.text.length ∧ 0 ≤ g.behindHead.skipIfBranch.1 := by
  rcases hscan : g.behindHead.skipScan with ⟨stop, r⟩
  obtain rfl : stop = .found .Endif g.last := by rw [← hstop, Guard.stop, hscan]
  have hat := g.at_behindHead hsmall
  have hlast : At (g.behindHead.setCursor g.last) (g.head ++ g.inner) (bytes "#endif" ++ g.ending) := by
    have hin : g.last ≤ g.behindHead.size := by
      rw [hat.size, last]
      simp only [List.length_append]
      omega
    have hset := hat.setCursor hin
    rw [last, ← List.append_assoc, List.take_left, List.drop_left] at hset
    exact hset
  have hr : r = (g.behindHead.setCursor g.last).bump (bytes "#endif").length := by
    have hread := skipLoop_found _ hscan
    rw [readDirective_eq hlast g.directive_ending] at hread
    exact (congrArg Prod.snd hread).symm
  have hend : At r (g.head ++ g.inner ++ bytes "#endif") g.ending := hr ▸ hlast.bump
  have hskip : g.behindHead.skipIfBranch = r.endBranching := by
    rw [skipIfBranch, hscan]
  have hsize : r.size = g.text.length := by
    rw [hend.size, ← List.length_append]
    simp only [text, List.append_assoc]
  rw [resume, hskip]
  by_cases hn : '\n'.toUInt8 ∈ g.ending
  · obtain ⟨a, hab, ha⟩ := g.isLine_ending hn
    rw [hab, show bytes "\n" = ['\n'.toUInt8] from rfl] at hend
    rw [endBranching, hend.findNext ha]
    refine ⟨?_, le_rfl⟩
    rw [setCursor_cursor _ _ hend.stacked, ← hsize, hend.size, hend.cursor]
    simp only [List.length_append, List.length_singleton]
    omega
  · rw [endBranching, hend.findNext_none hn]
    exact ⟨by rw [setCursor_cursor _ _ hend.stacked, hsize], show (0 : ℤ) ≤ 422 by decide⟩

/-- An iteration that fails is not followed by another. -/
lemma not_steps_of_negative {ret : ℤ} {s : Preprocessor} (hret : ret < 0)
    (h : ∀ n, p.step disk (n + 1) = afterDirective (ret, s)) : ¬ Steps disk p q := by
  rintro ⟨N, hN⟩
  have hstep := hN (N + 1) (Nat.le_succ N)
  rw [h, afterDirective, if_pos hret] at hstep
  cases hstep

end Guard

/-! ## The inclusion itself -/

lemma pastFound_storedMacros (p : Preprocessor) (found : Option ℕ) :
    (p.pastFound found).storedMacros = p.storedMacros := by
  cases found <;> rfl

lemma pastFound_outputBuffer (p : Preprocessor) (found : Option ℕ) :
    (p.pastFound found).outputBuffer = p.outputBuffer := by
  cases found <;> rfl

lemma handleInclude_keeps (disk : Disk) (p : Preprocessor) :
    (p.handleInclude disk).2.storedMacros = p.storedMacros ∧
      (p.handleInclude disk).2.outputBuffer = p.outputBuffer := by
  rw [handleInclude]
  dsimp only
  split_ifs
  · exact ⟨rfl, rfl⟩
  · exact ⟨rfl, rfl⟩
  · split
    · exact ⟨rfl, rfl⟩
    · split_ifs <;> exact ⟨pastFound_storedMacros _ _, pastFound_outputBuffer _ _⟩
  · split
    · exact ⟨rfl, rfl⟩
    · split_ifs <;> exact ⟨pastFound_storedMacros _ _, pastFound_outputBuffer _ _⟩

/-- An inclusion writes nothing. -/
lemma steps_include (h : p.directiveAhead = some .Include ∨ p.directiveAhead = some .Import)
    (hstep : Steps disk p q) :
    q.outputBuffer = p.outputBuffer ∧ q.storedMacros = p.storedMacros ∧
      q.branchFlags = p.branchFlags := by
  obtain ⟨N, hN⟩ := hstep
  have hnext : afterDirective (p.handlerState.handleInclude disk) = .next q := by
    rw [← hN N le_rfl]
    rcases h with h | h
    · exact (step_of_ahead h).symm
    · exact (step_of_ahead h).symm
  have hinclude : (p.handlerState.handleInclude disk).2 = q := by
    rw [afterDirective] at hnext
    split_ifs at hnext
    exact StepResult.next.inj hnext
  have hkeeps := handleInclude_keeps disk p.handlerState
  rw [← hinclude]
  exact ⟨hkeeps.2, hkeeps.1, handleInclude_branchFlags disk _⟩

lemma Enters.at_entry {entry : Preprocessor} {text : List Byte} (h : Enters disk text base p entry) :
    At entry [] text := by
  obtain ⟨content, hstack, hsize, hread⟩ := h.pushed
  exact at_pushed hstack hsize h.small hread

lemma Enters.stack {entry : Preprocessor} {text : List Byte} (h : Enters disk text base p entry) :
    ∃ f, entry.inputStack = f :: base := by
  obtain ⟨content, hstack, -⟩ := h.pushed
  exact ⟨_, hstack⟩

/-- An inclusion itself leaves nothing. -/
lemma Enters.unchanged {entry : Preprocessor} {text : List Byte}
    (h : Enters disk text base p entry) : Unchanged p entry := by
  obtain ⟨hout, hmacros, hflags⟩ := steps_include h.ahead h.steps
  exact ⟨hout, hmacros, hflags⟩

namespace Guard

/-- Behind the file the name is defined, unless it has been absorbed. -/
lemma includes_defines (g : Guard) (h : Includes disk g.text (KeepsName g.name) p q) :
    q.isDefined g.name = true := by
  obtain ⟨entry, base, henters, hreads⟩ := h
  have hat := henters.at_entry
  obtain ⟨f, hstack⟩ := henters.stack
  have hkeeps : ∀ {a : Preprocessor}, ReadsFile disk base (KeepsName g.name) a q →
      a.isDefined g.name = true → q.isDefined g.name = true :=
    fun hreads => hreads.keeps fun _ _ hK => hK
  by_cases hdef : entry.isDefined g.name = true
  · exact hkeeps hreads hdef
  · rw [Bool.not_eq_true] at hdef
    -- the arm is taken, and its first line is the definition
    set s := entry.armState .Ifndef g.head.length (armFlags true :: entry.branchFlags) with hs
    have htaken : Steps disk entry s := .of_succ fun n => by
      rw [g.step_opening disk hat, hdef]
      rfl
    obtain ⟨-, hrest⟩ := hreads.tail hstack htaken
    have hmoved := armState_moved entry .Ifndef g.head.length (armFlags true :: entry.branchFlags)
    have hinner : At s g.head (bytes "#define" ++ (g.defining.line ++
        (g.body ++ (bytes "#endif" ++ g.ending)))) := by
      have hmove := hmoved.at_end hat
      simpa only [inner, List.append_assoc, List.nil_append] using hmove
    obtain ⟨t, hdefine, hname⟩ := step_define disk hinner
    have hbase : ∃ f, s.inputStack = f :: base := by
      rw [hmoved.inputStack, Preprocessor.bump, Preprocessor.setCursor, hstack]
      exact ⟨_, rfl⟩
    obtain ⟨f', hf'⟩ := hbase
    rw [g.same] at hname
    exact hkeeps (hrest.tail hf' hdefine).2 hname

variable {entry : Preprocessor}

/-- The frame of the file after the skip. -/
lemma skipped_stack (henters : Enters disk g.text base q entry) (n : ℕ) (flags : List UInt8) :
    ∃ f, (entry.armState .Ifndef n flags).inputStack = f :: base := by
  obtain ⟨f, hstack⟩ := henters.stack
  rw [(armState_moved entry .Ifndef n flags).inputStack, Preprocessor.bump, Preprocessor.setCursor,
    hstack]
  exact ⟨_, rfl⟩

/-- A file that is skipped and whose skip does not fail is read on behind it. -/
lemma readsFile_skipped (henters : Enters disk g.text base q entry)
    (hdef : entry.isDefined g.name = true) (hret : 0 ≤ g.behindHead.skipIfBranch.1) :
    ReadsFile disk base (fun _ _ => True) entry r ↔ ReadsFile disk base (fun _ _ => True)
      (entry.armState .Ifndef g.resume (0 :: entry.branchFlags)) r := by
  obtain ⟨f, hstack⟩ := henters.stack
  have hstep : Steps disk entry (entry.armState .Ifndef g.resume (0 :: entry.branchFlags)) :=
    .of_succ fun n => by
      rw [g.step_skipped disk henters.at_entry henters.small hdef, afterDirective,
        if_neg (not_lt.mpr hret)]
  exact ⟨fun h => (h.tail hstack hstep).2,
    fun h => .step (List.cons_ne_nil f []) hstack hstep trivial h⟩

/-- A file whose skip fails is not read to its end. -/
lemma not_readsFile_skipped (henters : Enters disk g.text base q entry)
    (hdef : entry.isDefined g.name = true) (hret : ¬ 0 ≤ g.behindHead.skipIfBranch.1) :
    ¬ ReadsFile disk base (fun _ _ => True) entry r := by
  obtain ⟨f, hstack⟩ := henters.stack
  intro h
  cases h with
  | popped hpop =>
      rw [hstack] at hpop
      exact absurd (congrArg List.length hpop) (by simp)
  | step _ _ hstep =>
      exact not_steps_of_negative (not_le.mp hret)
        (g.step_skipped disk henters.at_entry henters.small hdef) hstep

/-- Where the skip comes to the last directive, the pushed byte of flags is what the file leaves. -/
lemma leaves_flags (henters : Enters disk g.text base q entry)
    (hdef : entry.isDefined g.name = true) (hstop : g.stop = .found .Endif g.last)
    (hr : ReadsFile disk base (fun _ _ => True) entry r) :
    r.outputBuffer = entry.outputBuffer ∧ r.storedMacros = entry.storedMacros ∧
      r.branchFlags = 0 :: entry.branchFlags := by
  obtain ⟨hresume, hret⟩ := g.resume_last henters.small hstop
  rw [readsFile_skipped henters hdef hret, hresume] at hr
  have hmoved := armState_moved entry .Ifndef g.text.length (0 :: entry.branchFlags)
  have hend : At (entry.armState .Ifndef g.text.length (0 :: entry.branchFlags)) ([] ++ g.text) [] :=
    hmoved.at_end (by rw [List.append_nil]; exact henters.at_entry)
  obtain ⟨f, hstack⟩ := skipped_stack henters g.text.length (0 :: entry.branchFlags)
  have hpop := (hr.tail hstack (step_pop disk hend)).2.eq_of_popped (by rw [hstack, List.tail_cons])
  rw [hpop]
  exact ⟨by rw [hmoved.outputBuffer, List.append_nil], rfl, rfl⟩

/-- Where only the last line is left to read, its `#endif` takes the byte away. -/
lemma restores_of_last (henters : Enters disk g.text base q entry)
    (hret : 0 ≤ g.behindHead.skipIfBranch.1) (hresume : g.resume = g.last)
    (hending : '\n'.toUInt8 ∈ g.ending) : g.Restores disk base entry := by
  refine ⟨fun hstop => ?_, hret, ?_⟩
  · have hend := (g.resume_last henters.small hstop).1
    have hpos : 0 < (bytes "#endif").length := by decide
    simp only [hresume, text, last, List.length_append] at hend
    omega
  have hmoved := armState_moved entry .Ifndef g.last (0 :: entry.branchFlags)
  have hlast : At (entry.armState .Ifndef g.last (0 :: entry.branchFlags))
      ([] ++ (g.head ++ g.inner)) (bytes "#endif" ++ g.ending) := by
    refine hmoved.at_end ?_
    have hat := henters.at_entry
    rwa [text, ← List.append_assoc] at hat
  have hline : PastBy g.ending.length g.ending := by
    have hpast : PastBy g.ending.length (g.ending ++ []) :=
      pastFound_line (g.isLine_ending hending)
    rwa [List.append_nil] at hpast
  obtain ⟨q', hstep, hmoved', hflags⟩ := step_endif disk hlast g.directive_ending hline rfl
  rw [← List.length_append] at hmoved'
  have hend : At q' _ [] := hmoved'.at_end (by rwa [List.append_nil])
  obtain ⟨f, hstack⟩ := skipped_stack henters g.last (0 :: entry.branchFlags)
  have hbase : ∃ f', q'.inputStack = f' :: base := by
    rw [hmoved'.inputStack, Preprocessor.bump, Preprocessor.setCursor, hstack]
    exact ⟨_, rfl⟩
  obtain ⟨f', hstack'⟩ := hbase
  have htail : q'.inputStack.tail = base := by rw [hstack', List.tail_cons]
  refine ⟨{ q' with inputStack := q'.inputStack.tail }, ?_, ?_, ?_, hflags⟩
  · rw [hresume]
    exact .step (List.cons_ne_nil f []) hstack hstep trivial
      (.step (List.cons_ne_nil f' []) hstack' (step_pop disk hend) trivial (.popped htail))
  · show q'.outputBuffer = entry.outputBuffer
    rw [hmoved'.outputBuffer, hmoved.outputBuffer, List.append_nil, List.append_nil]
  · exact hmoved'.storedMacros.trans hmoved.storedMacros

end Guard

/-- Where the skip reads a well-nested body as the main loop does, it comes to the last directive. -/
lemma Guard.stop_of_agreeable (g : Guard) (hsmall : g.text.length < 2 ^ 32)
    (hnest : g.wellNested = true) (hagree : g.ReadAlike) : g.stop = .found .Endif g.last := by
  obtain ⟨result, hstops, hseen⟩ :=
    agrees_of_agreeable false (g.at_behindHead hsmall) le_rfl g.everTaken_behindHead hagree
  rw [Guard.wellNested, beq_iff_eq] at hnest
  rw [hnest] at hseen
  rw [Guard.stop, skipScan_eq hstops]
  rcases result with ⟨_ | _, _⟩
  · simpa [SkipStop.directive] using hseen
  · simp [SkipStop.directive] at hseen

/-- **Guards do not make inclusion idempotent.**  Where the skip reads the body as the main loop
does, the second inclusion of a file whose conditionals are well nested writes nothing and defines
nothing, but leaves one more byte of flags. -/
theorem guard_leaves_flags {entry : Preprocessor} (g : Guard) (hnest : g.wellNested = true)
    (hagree : g.ReadAlike) (h : Includes disk g.text (KeepsName g.name) p q)
    (henters : Enters disk g.text base q entry)
    (hr : ReadsFile disk base (fun _ _ => True) entry r) :
    r.outputBuffer = q.outputBuffer ∧ r.storedMacros = q.storedMacros ∧
      r.branchFlags = 0 :: q.branchFlags := by
  have hfound := g.stop_of_agreeable henters.small hnest hagree
  have hsame := henters.unchanged
  have hdef : entry.isDefined g.name = true := by
    rw [isDefined, hsame.storedMacros]
    exact g.includes_defines h
  obtain ⟨hout, hmacros, hflags⟩ := Guard.leaves_flags henters hdef hfound hr
  rw [hout, hmacros, hflags, hsame.outputBuffer, hsame.storedMacros, hsame.branchFlags]
  exact ⟨rfl, rfl, rfl⟩

/-- The second inclusion leaves what the first has left exactly if the rest of the file makes up for the
byte of flags. -/
lemma repeats_iff_restores {entry : Preprocessor} (g : Guard)
    (h : Includes disk g.text (KeepsName g.name) p q) (henters : Enters disk g.text base q entry) :
    (∃ r, ReadsFile disk base (fun _ _ => True) entry r ∧ Unchanged q r) ↔
      g.Restores disk base entry := by
  have hsame := henters.unchanged
  have hdef : entry.isDefined g.name = true := by
    rw [isDefined, hsame.storedMacros]
    exact g.includes_defines h
  constructor
  · rintro ⟨r, hr, hunchanged⟩
    have hret : 0 ≤ g.behindHead.skipIfBranch.1 := by
      by_contra hneg
      exact Guard.not_readsFile_skipped henters hdef hneg hr
    have hentry := hsame.symm.trans hunchanged
    refine ⟨fun hstop => ?_, hret, r, (Guard.readsFile_skipped henters hdef hret).mp hr, hentry⟩
    have hmore := (Guard.leaves_flags henters hdef hstop hr).2.2
    rw [hentry.branchFlags] at hmore
    exact absurd (congrArg List.length hmore) (by simp)
  · rintro ⟨-, hret, r, hr, hunchanged⟩
    exact ⟨r, (Guard.readsFile_skipped henters hdef hret).mpr hr, hsame.trans hunchanged⟩

/-- The state behind one iteration, if it goes on. -/
def next (disk : Disk) (n : ℕ) (p : Preprocessor) : Option Preprocessor :=
  match p.step disk n with
  | .next q => some q
  | _ => none

lemma steps_of_next {n : ℕ} (h : p.next disk n = some q) : Steps disk p q := by
  rw [next] at h
  split at h
  · next hstep =>
      cases h
      exact steps_of_step hstep
  · cases h

/-- The main loop until the frames are `base`. -/
def readFile (disk : Disk) (base : List SourceFrame) (keeps : Preprocessor → Preprocessor → Bool) :
    ℕ → Preprocessor → Option Preprocessor
  | 0, _ => none
  | n + 1, p =>
      if p.inputStack = base then some p
      else if base <:+ p.inputStack then
        (p.next disk n).bind fun q => if keeps p q then readFile disk base keeps n q else none
      else none

lemma readsFile_of_readFile {keeps : Preprocessor → Preprocessor → Bool}
    (hK : ∀ a b, keeps a b = true → K a b) {n : ℕ} (h : readFile disk base keeps n p = some q) :
    ReadsFile disk base K p q := by
  induction n generalizing p with
  | zero => cases h
  | succ n ih =>
      rw [readFile] at h
      split_ifs at h with hbase habove
      · cases h
        exact .popped hbase
      · obtain ⟨frames, hframes⟩ := habove
        have hne : frames ≠ [] := by
          rintro rfl
          exact hbase hframes.symm
        obtain ⟨s, hstep, hrest⟩ := Option.bind_eq_some_iff.mp h
        split_ifs at hrest with hkeeps
        exact .step hne hframes.symm (steps_of_next hstep) (hK _ _ hkeeps) (ih hrest)

/-- `#ifndef G`, `#define G`, a body, `#endif`. -/
def guarded (body : List Byte) : Guard where
  opening := ⟨blank, (condLine .One).gap_ne, bytes "G", by decide, by decide, noBlanks⟩
  defining := ⟨blank, (condLine .One).gap_ne, bytes "G", by decide, by decide, noBlanks⟩
  same := rfl
  body := body
  ending := bytes "\n"
  ending_word := by decide
  ending_line := by decide

/-- The file stands on the disk as `g`. -/
def guardDisk (g : Guard) : Disk := fun path => if path = bytes "g" then some g.text else none

/-- The state at the first inclusion of a source that includes the file twice. -/
def twice : Preprocessor := ofText (bytes "#include \"g\"\n#include \"g\"\n")

/-- A guarded line of text. -/
def smallGuard : Guard := guarded (bytes "t\n")

/-- The body is a `#define` that goes on in a line that looks like an `#else`. -/
def continuedGuard : Guard := guarded (bytes "#define X a __/__\n#else\n")

end Preprocessor

end LogicCompiler
