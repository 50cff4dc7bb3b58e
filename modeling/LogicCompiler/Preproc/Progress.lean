import LogicCompiler.Preproc.BranchStack
import LogicCompiler.Preproc.Skipping
import Mathlib.Data.Set.Finite.Lattice

/-!
# The cursor moves forward

What an iteration of the main loop can do to the input stack: pop a frame that is used up, move the
cursor of the top frame forward inside the frame, or do that and push a file.  `Forward` is the
frame condition of everything a directive does short of an inclusion.
-/

namespace LogicCompiler

namespace Preprocessor

variable {p q r : Preprocessor}

/-! ## The frame condition -/

/-- The cursor of the top frame has moved forward, the frames and the files are the same, and
finitely many macros have changed. -/
structure Forward (p q : Preprocessor) : Prop where
  fileMgr : q.fileMgr = p.fileMgr
  below : q.inputStack.tail = p.inputStack.tail
  content : q.inputStack.head?.map SourceFrame.content = p.inputStack.head?.map SourceFrame.content
  macros : {name | q.storedMacros name ≠ p.storedMacros name}.Finite
  cursor : p.cursor ≤ p.size → p.cursor ≤ q.cursor ∧ q.cursor ≤ p.size

namespace Forward

@[refl] lemma refl (p : Preprocessor) : Forward p p where
  fileMgr := rfl
  below := rfl
  content := rfl
  macros := by simp
  cursor h := ⟨le_rfl, h⟩

/-- The frame reads the same piece. -/
lemma sourceContent (h : Forward p q) : q.sourceContent = p.sourceContent := by
  have hc := h.content
  rw [Preprocessor.sourceContent, Preprocessor.sourceContent, top, top]
  cases hq : q.inputStack with
  | nil =>
      cases hp : p.inputStack with
      | nil => rfl
      | cons f frames => simp [hq, hp] at hc
  | cons f frames =>
      cases hp : p.inputStack with
      | nil => simp [hq, hp] at hc
      | cons g frames' => simpa [hq, hp] using hc

lemma size (h : Forward p q) : q.size = p.size := by
  rw [Preprocessor.size, Preprocessor.size, h.sourceContent]

/-- A frame that was there is there still. -/
lemma stacked (h : Forward p q) (hp : p.inputStack ≠ []) : q.inputStack ≠ [] := by
  intro hq
  have hc := h.content
  rcases List.exists_cons_of_ne_nil hp with ⟨f, frames, hf⟩
  rw [hq, hf] at hc
  cases hc

/-- One movement behind another. -/
lemma trans (h : Forward p q) (h' : Forward q r) : Forward p r where
  fileMgr := h'.fileMgr.trans h.fileMgr
  below := h'.below.trans h.below
  content := h'.content.trans h.content
  macros := by
    refine (h.macros.union h'.macros).subset fun name hname => ?_
    by_contra hnot
    simp only [Set.mem_union, not_or] at hnot
    exact hname ((not_not.mp hnot.2).trans (not_not.mp hnot.1))
  cursor hp := by
    have h1 := h.cursor hp
    have h2 := h'.cursor (h.size ▸ h1.2)
    rw [h.size] at h2
    exact ⟨h1.1.trans h2.1, h2.2⟩

/-- A cursor that is set no further back than it was. -/
lemma setCursor {n : ℕ} (hn : p.cursor ≤ p.size → p.cursor ≤ n ∧ n ≤ p.size) :
    Forward p (p.setCursor n) where
  fileMgr := rfl
  below := setCursor_inputStack_tail p n
  content := by
    rcases p with ⟨fm, out, stack, macros, flags, active⟩
    cases stack <;> rfl
  macros := by simp
  cursor hp := by
    by_cases hs : p.inputStack = []
    · have hsame : p.setCursor n = p := by
        rcases p with ⟨fm, out, stack, macros, flags, active⟩
        cases hs
        rfl
      rw [hsame]
      exact ⟨le_rfl, hp⟩
    · rw [setCursor_cursor p n hs]
      exact hn hp

/-- A change of what no frame holds. -/
lemma of_stack (hfm : q.fileMgr = p.fileMgr) (hst : q.inputStack = p.inputStack)
    (hm : {name | q.storedMacros name ≠ p.storedMacros name}.Finite) : Forward p q where
  fileMgr := hfm
  below := by rw [hst]
  content := by rw [hst]
  macros := hm
  cursor hp := by
    have hcur : q.cursor = p.cursor := by rw [Preprocessor.cursor, Preprocessor.cursor, top, top, hst]
    exact ⟨hcur.ge, hcur.le.trans hp⟩

lemma emit (h : Forward p q) (s : List Byte) : Forward p (q.emit s) :=
  h.trans (of_stack rfl rfl (by simp [Preprocessor.emit]))

lemma setActive (h : Forward p q) (t : MacroType) : Forward p (q.setActive t) :=
  h.trans (of_stack rfl rfl (by simp [Preprocessor.setActive]))

lemma withFlags (h : Forward p q) (flags : List UInt8) :
    Forward p { q with branchFlags := flags } :=
  h.trans (of_stack rfl rfl (by simp))

/-- A change of the macros moves nothing. -/
lemma updateMacro (h : Forward p q) (name : List Byte) (d : Option Defined) :
    Forward p { q with storedMacros := Function.update q.storedMacros name d } := by
  refine h.trans (of_stack rfl rfl ((Set.finite_singleton name).subset fun other hother => ?_))
  by_contra hne
  exact hother (Function.update_of_ne hne d q.storedMacros)

end Forward

/-! ## The cursor helpers -/

/-- What is left lies inside the piece. -/
lemma rest_length_le (p : Preprocessor) (h : p.cursor ≤ p.size) :
    p.cursor + p.rest.length ≤ p.size := by
  have hread : (p.fileMgr.read p.sourceContent).length ≤ p.size := by
    rw [FileManager.read, List.length_take]
    exact Nat.min_le_left _ _
  rw [rest, List.length_drop]
  omega

/-- A movement over bytes that are left. -/
lemma Forward.bump {k : ℕ} (hk : k ≤ p.rest.length) : Forward p (p.bump k) := by
  refine Forward.setCursor fun hp => ?_
  have hle := p.rest_length_le hp
  omega

lemma length_takeWhile_le {α : Type} (f : α → Bool) (l : List α) :
    (l.takeWhile f).length ≤ l.length := (List.takeWhile_sublist f).length_le

lemma forward_ol (p : Preprocessor) : Forward p p.ol := .bump (length_takeWhile_le _ _)

/-- A position that a search has found lies in front of the end of the frame. -/
lemma findIdx_bounds {f : Byte → Bool} {i : ℕ}
    (h : (p.rest.findIdx? f).map (p.cursor + ·) = some i) :
    p.cursor ≤ i ∧ i < p.cursor + p.rest.length := by
  rcases Option.map_eq_some_iff.mp h with ⟨k, hk, rfl⟩
  have hlt := (List.findIdx?_eq_some_iff_getElem.mp hk).1
  omega

/-- A sequence is found behind the cursor and inside the piece. -/
lemma findNextSeq_bounds {sequence : String} {i : ℕ} (h : p.findNextSeq sequence = some i) :
    p.cursor ≤ i ∧ i + (bytes sequence).length ≤ p.cursor + p.rest.length := by
  rcases Option.map_eq_some_iff.mp h with ⟨k, hk, rfl⟩
  rcases Search.split_of_findSeq hk with ⟨body, r, hr, rfl, -⟩
  have hlen := congrArg List.length hr
  simp only [List.length_append] at hlen
  omega

/-- Behind what was found, or to the end. -/
lemma Forward.orSizeAdd {found : Option ℕ} {k : ℕ}
    (h : ∀ i ∈ found, p.cursor ≤ i ∧ i + k ≤ p.cursor + p.rest.length) :
    Forward p (p.setCursor (p.orSizeAdd found k)) := by
  refine Forward.setCursor fun hp => ?_
  have hle := p.rest_length_le hp
  cases found with
  | none => exact ⟨hp, le_rfl⟩
  | some i =>
      have hi := h i rfl
      show p.cursor ≤ i + k ∧ i + k ≤ p.size
      omega

/-- Behind the line. -/
lemma forward_pastLine (p : Preprocessor) :
    Forward p (p.setCursor (p.orSizeAdd (p.findNext '\n') 1)) :=
  .orSizeAdd fun _ hi => ⟨(findIdx_bounds hi).1, (findIdx_bounds hi).2⟩

lemma forward_pastSeq (p : Preprocessor) (sequence : String) :
    Forward p (p.setCursor (p.orSizeAdd (p.findNextSeq sequence) (bytes sequence).length)) :=
  .orSizeAdd fun _ hi => findNextSeq_bounds hi

/-- Behind a name. -/
lemma forward_skipIdent (p : Preprocessor) : Forward p p.skipIdent := by
  refine Forward.setCursor fun hp => ?_
  have hle := p.rest_length_le hp
  cases hf : p.findNextIdentInv with
  | none => exact ⟨hp, le_rfl⟩
  | some i =>
      have hi := findIdx_bounds hf
      show p.cursor ≤ i ∧ i ≤ p.size
      omega

/-- The cursor is set behind what a search has found. -/
lemma forward_found {c : Char} {i : ℕ} (h : p.findNext c = some i) :
    Forward p (p.setCursor (i + 1)) := by
  have hi := findIdx_bounds h
  refine Forward.setCursor fun hp => ?_
  have hle := p.rest_length_le hp
  omega

lemma forward_pastFound (p : Preprocessor) (c : Char) : Forward p (p.pastFound (p.findNext c)) := by
  cases h : p.findNext c with
  | none => exact .refl p
  | some i => exact forward_found h

lemma forward_toSize (p : Preprocessor) : Forward p (p.setCursor p.size) :=
  .setCursor fun hp => ⟨hp, le_rfl⟩

/-- In front of the end, the cursor is inside the piece. -/
lemma lt_size_of_not_atEnd (h : ¬ p.atEnd = true) : p.cursor < p.size := by
  simpa [atEnd] using h

lemma forward_bump_one (h : ¬ p.atEnd = true) : Forward p (p.bump 1) := by
  have hlt := lt_size_of_not_atEnd h
  exact .setCursor fun _ => ⟨by omega, by omega⟩

lemma forward_bump_two (h : p.cursor + 1 < p.size) : Forward p (p.bump 2) :=
  .setCursor fun _ => ⟨by omega, by omega⟩

lemma bump_cursor (hs : p.inputStack ≠ []) (k : ℕ) : (p.bump k).cursor = p.cursor + k :=
  setCursor_cursor p _ hs

lemma bump_stacked (hs : p.inputStack ≠ []) (k : ℕ) : (p.bump k).inputStack ≠ [] := by
  simpa [Preprocessor.bump] using hs

/-- What is forward of the next byte is ahead of the cursor. -/
lemma Forward.lt_of_bump (hs : p.inputStack ≠ []) (hend : ¬ p.atEnd = true)
    (h : Forward (p.bump 1) q) : Forward p q ∧ p.cursor < q.cursor := by
  have hone := forward_bump_one hend
  have hlt := lt_size_of_not_atEnd hend
  have hle := h.cursor (by rw [bump_cursor hs, hone.size]; omega)
  rw [bump_cursor hs] at hle
  exact ⟨hone.trans h, by omega⟩

/-! ## The handlers -/

lemma forward_aliasLoop (n : ℕ) (p : Preprocessor) : Forward p (aliasLoop n p) := by
  induction n generalizing p with
  | zero => exact .refl p
  | succ n ih =>
      rw [aliasLoop]
      split_ifs with h
      · exact ((forward_bump_one (by simpa using h.1)).trans (forward_skipIdent _)).trans (ih _)
      · exact .refl p

/-- Over the lines of a value. -/
lemma forward_continuationLoop (n contentEnd : ℕ) (p : Preprocessor) :
    Forward p (continuationLoop n contentEnd p).2 := by
  induction n generalizing contentEnd p with
  | zero => exact .refl p
  | succ n ih =>
      rw [continuationLoop]
      split_ifs
      · exact .refl p
      · dsimp only
        split
        · next hf => exact (forward_found hf).trans (ih _ _)
        · next hf _ => exact forward_found hf
        · next _ hf =>
            rw [hf]
            exact forward_toSize p

lemma forward_registerNames (p : Preprocessor) (names : List Byte) (d : Defined) :
    Forward p (p.registerNames names d) := by
  have hfold : ∀ (singles : List (List Byte)) (p : Preprocessor),
      Forward p (singles.foldl (fun p s => if s = [] then p else p.addMacro s d) p) := by
    intro singles
    induction singles with
    | nil => exact fun p => .refl p
    | cons s singles ih =>
        intro p
        rw [List.foldl_cons]
        refine Forward.trans ?_ (ih _)
        split_ifs
        · exact .refl p
        · exact (Forward.refl p).updateMacro s (some d)
  exact hfold _ p

lemma forward_namesLoop (n : ℕ) (p : Preprocessor) : Forward p (namesLoop n p) := by
  induction n generalizing p with
  | zero => exact .refl p
  | succ n ih =>
      have hnames : Forward p p.skipIdent.ol := (forward_skipIdent p).trans (forward_ol _)
      rw [namesLoop]
      dsimp only
      split_ifs with hend hamp
      · exact .refl p
      · exact ((hnames.trans (forward_bump_one (by simpa using hamp.1))).trans
          (forward_ol _)).trans (ih _)
      · exact hnames

/-- Over the type of a parameter. -/
lemma forward_parenLoop {n depth depth' : ℕ} (h : parenLoop n depth p = some (depth', q)) :
    Forward p q := by
  induction n generalizing depth p with
  | zero =>
      cases h
      exact .refl _
  | succ n ih =>
      rw [parenLoop] at h
      split_ifs at h with hend
      · cases h
        exact .refl _
      · exact (forward_bump_one (fun he => hend (Or.inl he))).trans (ih h)
      · cases h
        exact .refl _
      · exact (forward_bump_one (fun he => hend (Or.inl he))).trans (ih h)
      · exact (forward_bump_one (fun he => hend (Or.inl he))).trans (ih h)

/-- `#define` moves forward. -/
lemma forward_handleDefine (p : Preprocessor) : Forward p p.handleDefine.2 := by
  rw [handleDefine]
  dsimp only
  refine Forward.trans ?_ (forward_registerNames _ _ _)
  refine Forward.trans ?_ (forward_continuationLoop _ _ _)
  exact (((forward_ol p).trans (forward_skipIdent _)).trans (forward_aliasLoop _ _)).trans
    (forward_ol _)

lemma forward_handleDefineM (p : Preprocessor) : Forward p p.handleDefineM.2 := by
  rw [handleDefineM]
  have hnames : Forward p (namesLoop p.ol.rest.length p.ol) :=
    (forward_ol p).trans (forward_namesLoop _ _)
  dsimp only
  split
  · exact hnames
  · next endDef hf =>
      have hseq := forward_pastSeq (namesLoop p.ol.rest.length p.ol) "#enddef"
      rw [hf] at hseq
      exact ((hnames.trans hseq).trans (forward_pastFound _ '\n')).trans
        (forward_registerNames _ _ _)

/-- `#skip` moves forward. -/
lemma forward_handleSkip (p : Preprocessor) : Forward p p.handleSkip.2 := by
  rw [handleSkip]
  cases hf : p.findNext '\n' with
  | none => exact forward_toSize p
  | some endLine1 =>
      dsimp only
      split_ifs
      · exact forward_toSize p
      · exact (forward_found hf).trans (forward_pastLine _)

/-- Behind the end of a frame nothing is read. -/
lemma rest_eq_nil (h : p.size ≤ p.cursor) : p.rest = [] := by
  have hread : (p.fileMgr.read p.sourceContent).length ≤ p.size := by
    rw [FileManager.read, List.length_take]
    exact Nat.min_le_left _ _
  rw [rest, List.drop_eq_nil_iff]
  exact hread.trans h

/-- One byte too far is taken back where the next name is looked for. -/
lemma forward_nextName (p : Preprocessor) : Forward p ((p.bump 1).ol.skipIdent) := by
  by_cases hend : p.atEnd = true
  · by_cases hs : p.inputStack = []
    · refine .of_stack rfl ?_ (by simp [skipIdent, ol, Preprocessor.bump])
      simp [skipIdent, ol, Preprocessor.bump, Preprocessor.setCursor, hs]
    · have hout : (p.bump 1).rest = [] := by
        refine rest_eq_nil ?_
        rw [bump_cursor hs, Preprocessor.bump, setCursor_size]
        have hle : p.size ≤ p.cursor := by simpa [atEnd] using hend
        omega
      have hol : (p.bump 1).ol = p.bump 1 := by
        rw [ol, hout]
        exact bump_zero _
      have hskip : (p.bump 1).skipIdent = p.setCursor p.size := by
        rw [skipIdent, findNextIdentInv, hout, orSize, Preprocessor.bump, setCursor_size,
          setCursor_setCursor]
        rfl
      rw [hol, hskip]
      exact forward_toSize p
  · exact ((forward_bump_one hend).trans (forward_ol _)).trans (forward_skipIdent _)

/-- The cursor is set in front of the end of the line, or of the frame. -/
lemma forward_toLine (p : Preprocessor) (c : Char) :
    Forward p (p.setCursor (p.orSize (p.findNext c))) := by
  refine Forward.setCursor fun hp => ?_
  have hle := p.rest_length_le hp
  cases hf : p.findNext c with
  | none => exact ⟨hp, le_rfl⟩
  | some i =>
      have hi := findIdx_bounds hf
      show p.cursor ≤ i ∧ i ≤ p.size
      omega

/-- The same, and then behind the newline if there is one. -/
lemma forward_throughLine {c : Char} (hs : p.inputStack ≠ []) (h : (p.findNext c).isSome = true) :
    Forward p ((p.setCursor (p.orSize (p.findNext c))).bump 1) := by
  rcases Option.isSome_iff_exists.mp h with ⟨i, hf⟩
  rw [hf]
  have hmove : (p.setCursor (p.orSize (some i))).bump 1 = p.setCursor (i + 1) := by
    rw [Preprocessor.bump, setCursor_cursor _ _ hs, setCursor_setCursor]
    rfl
  rw [hmove]
  exact forward_found hf

lemma forward_handleParam (hs : p.inputStack ≠ []) : Forward p p.handleParam.2 := by
  rw [handleParam]
  dsimp only
  split_ifs with hopen
  · exact forward_ol p
  · have hstart : Forward p (p.ol.bump 1) :=
      (forward_ol p).trans (forward_bump_one fun he => hopen (.inl he))
    split
    · exact hstart
    · next parenDepth q hloop =>
        have htype : Forward p q := hstart.trans (forward_parenLoop hloop)
        have hname : Forward p ((q.bump 1).ol.skipIdent) := htype.trans (forward_nextName q)
        split_ifs with _ _ _ hassign hline hdef hdef
        · exact htype
        · exact htype
        · exact hname
        · exact hname.trans (forward_ol _)
        all_goals
          have hvalue := ((hname.trans (forward_ol _)).trans
            (forward_bump_one fun he => hassign (.inl he))).trans (forward_ol _)
        · have hbehind := hvalue.trans (forward_throughLine (hvalue.stacked hs) hline)
          exact (hbehind.updateMacro _ none).emit _
        · exact (hvalue.trans (forward_throughLine (hvalue.stacked hs) hline)).emit _
        · exact ((hvalue.trans (forward_toLine _ _)).updateMacro _ none).emit _
        · exact (hvalue.trans (forward_toLine _ _)).emit _

/-! ## Skipping an arm -/

/-- Where an iteration of the loop of `skip_if_branch` ends: it leaves the loop, or goes on. -/
inductive SkipTurn where
  | leave (result : SkipStop × Preprocessor)
  | again (s : SkipState)

/-- The body of the loop of `skip_if_branch` behind a directive. -/
def SkipState.turnAt (s : SkipState) (matched : MacroType) (startHash : ℕ) (q : Preprocessor) :
    SkipTurn :=
  let again := fun nestCount q => SkipTurn.again { s with nestCount := nestCount, p := q }
  let pastLine := fun q : Preprocessor => q.setCursor (q.orSizeAdd (q.findNext '\n') 1)
  match matched with
  | .If | .Ifndef => again ((s.nestCount + 1) % 2 ^ 16) q
  | .Define => again s.nestCount (pastLine q)
  | .Define_M => again s.nestCount (q.setCursor (q.orSizeAdd (q.findNextSeq "#enddef") 7))
  | .Skip => again s.nestCount (pastLine (pastLine q))
  | .Elif | .Else =>
      if s.nestCount = 1 then
        if q.everTaken then again s.nestCount (pastLine q)
        else .leave (.found matched startHash, q)
      else again s.nestCount q
  | .Endif =>
      if s.nestCount = 1 then .leave (.found .Endif startHash, q) else again (s.nestCount - 1) q
  | _ => again s.nestCount q

/-- One iteration of the loop of `skip_if_branch`, its test included. -/
def SkipState.turn (s : SkipState) : SkipTurn :=
  let p := s.p
  if s.nestCount = 0 ∨ p.atEnd then .leave (.exhausted s.nestCount, p)
  else if p.currChar = '"'.toUInt8 then
    .again { s with stringed2 := !s.stringed2, p := p.bump 1 }
  else if p.currChar = '\''.toUInt8 then
    .again { s with stringed1 := !s.stringed1, p := p.bump 1 }
  else if s.stringed1 || s.stringed2 then .again { s with p := p.bump 1 }
  else if p.opensComment '/' then
    .again { s with p := p.setCursor (p.orSizeAdd (p.findNext '\n') 1) }
  else if p.opensComment '*' then
    let q := p.bump 2
    .again { s with p := q.setCursor (q.orSizeAdd (q.findNextSeq "*/") 2) }
  else if p.currChar = '#'.toUInt8 then s.turnAt p.readDirective.1 p.cursor p.readDirective.2
  else .again { s with p := p.bump 1 }

lemma opensComment_eq_true (p : Preprocessor) (second : Char) :
    p.opensComment second = true ↔ p.currChar = '/'.toUInt8 ∧ p.cursor + 1 < p.size ∧
      p.getChar (p.cursor + 1) = second.toUInt8 := by
  simp [opensComment, and_assoc]

/-- The loop is one iteration after the other. -/
lemma SkipState.loop_succ (n : ℕ) (s : SkipState) :
    s.loop (n + 1) = match s.turn with
      | .leave result => result
      | .again t => t.loop n := by
  rw [SkipState.loop, skipLoop, SkipState.turn]
  simp only [opensComment_eq_true]
  split
  · rfl
  split
  · rfl
  split
  · rfl
  split
  · rfl
  split
  · rfl
  split
  · rfl
  split
  · -- a directive
    rcases hd : s.p.readDirective with ⟨matched, q⟩
    cases matched <;> simp only [SkipState.turnAt] <;> first | rfl | (split_ifs <;> rfl)
  · rfl

/-- Reading the name of a directive passes its `#`. -/
lemma forward_readDirective (hs : p.inputStack ≠ []) (hend : ¬ p.atEnd = true) :
    Forward p p.readDirective.2 ∧ p.cursor < p.readDirective.2.cursor :=
  Forward.lt_of_bump hs hend (forward_skipIdent _)

/-- What is forward of what is ahead is ahead. -/
lemma Forward.lt_trans (h : Forward p q ∧ p.cursor < q.cursor) (hp : p.cursor ≤ p.size)
    (h' : Forward q r) : Forward p r ∧ p.cursor < r.cursor := by
  have hq := h.1.cursor hp
  have hr := h'.cursor (h.1.size ▸ hq.2)
  exact ⟨h.1.trans h', h.2.trans_le hr.1⟩

lemma forward_lineComment (hs : p.inputStack ≠ []) (h : p.opensComment '/' = true) :
    Forward p (p.setCursor (p.orSizeAdd (p.findNext '\n') 1)) ∧
      p.cursor < (p.setCursor (p.orSizeAdd (p.findNext '\n') 1)).cursor := by
  have hlt := ((opensComment_eq_true p '/').mp h).2.1
  refine ⟨forward_pastLine p, ?_⟩
  rw [setCursor_cursor _ _ hs]
  cases hf : p.findNext '\n' with
  | none =>
      show p.cursor < p.size
      omega
  | some i => exact Nat.lt_succ_of_le (findIdx_bounds hf).1

/-- A comment is passed over, with what opens it. -/
lemma forward_blockComment (hs : p.inputStack ≠ []) (h : p.opensComment '*' = true) :
    Forward p ((p.bump 2).setCursor ((p.bump 2).orSizeAdd ((p.bump 2).findNextSeq "*/") 2)) ∧
      p.cursor
        < ((p.bump 2).setCursor ((p.bump 2).orSizeAdd ((p.bump 2).findNextSeq "*/") 2)).cursor := by
  have hlt := ((opensComment_eq_true p '*').mp h).2.1
  have htwo : Forward p (p.bump 2) ∧ p.cursor < (p.bump 2).cursor :=
    ⟨forward_bump_two hlt, by rw [bump_cursor hs]; omega⟩
  exact Forward.lt_trans htwo (by omega) (forward_pastSeq (p.bump 2) "*/")

/-- Behind a directive the loop stops, or goes on from a state forward of the directive. -/
lemma SkipState.turnAt_cases (s : SkipState) (matched : MacroType) (startHash : ℕ)
    (q : Preprocessor) :
    (∃ stop, s.turnAt matched startHash q = .leave (stop, q)) ∨
      ∃ t, s.turnAt matched startHash q = .again t ∧ Forward q t.p := by
  have hline := forward_pastLine q
  cases matched with
  | If | Ifndef => exact .inr ⟨_, rfl, .refl q⟩
  | Define => exact .inr ⟨_, rfl, hline⟩
  | Define_M => exact .inr ⟨_, rfl, forward_pastSeq q "#enddef"⟩
  | Skip => exact .inr ⟨_, rfl, hline.trans (forward_pastLine _)⟩
  | Elif | Else =>
      simp only [SkipState.turnAt]
      split_ifs
      · exact .inr ⟨_, rfl, hline⟩
      · exact .inl ⟨_, rfl⟩
      · exact .inr ⟨_, rfl, .refl q⟩
  | Endif =>
      simp only [SkipState.turnAt]
      split_ifs
      · exact .inl ⟨_, rfl⟩
      · exact .inr ⟨_, rfl, .refl q⟩
  | None | Unknown | Include | Enddef | Import | Param => exact .inr ⟨_, rfl, .refl q⟩

/-- **An iteration of the loop of `skip_if_branch` leaves the loop or moves the cursor on.** -/
lemma SkipState.turn_cases (s : SkipState) (hs : s.p.inputStack ≠ []) :
    (∃ r, s.turn = .leave r ∧ Forward s.p r.2) ∨
      ∃ t, s.turn = .again t ∧ Forward s.p t.p ∧ s.p.cursor < t.p.cursor := by
  rw [SkipState.turn]
  dsimp only
  by_cases hover : s.nestCount = 0 ∨ s.p.atEnd = true
  · rw [if_pos hover]
    exact .inl ⟨_, rfl, .refl _⟩
  rw [if_neg hover]
  have hend : ¬ s.p.atEnd = true := fun he => hover (.inr he)
  have hle := (lt_size_of_not_atEnd hend).le
  have hone := Forward.lt_of_bump hs hend (.refl _)
  split
  · exact .inr ⟨_, rfl, hone⟩
  split
  · exact .inr ⟨_, rfl, hone⟩
  split
  · exact .inr ⟨_, rfl, hone⟩
  split
  · next h => exact .inr ⟨_, rfl, forward_lineComment hs h⟩
  split
  · next h => exact .inr ⟨_, rfl, forward_blockComment hs h⟩
  split
  · have hname := forward_readDirective hs hend
    rcases s.turnAt_cases s.p.readDirective.1 s.p.cursor s.p.readDirective.2 with
      ⟨stop, h⟩ | ⟨t, h, ht⟩
    · exact .inl ⟨_, h, hname.1⟩
    · exact .inr ⟨t, h, Forward.lt_trans hname hle ht⟩
  · exact .inr ⟨_, rfl, hone⟩

/-- The skip over an arm moves forward. -/
lemma SkipState.forward_loop (n : ℕ) (s : SkipState) (hs : s.p.inputStack ≠ []) :
    Forward s.p (s.loop n).2 := by
  induction n generalizing s with
  | zero => exact .refl _
  | succ n ih =>
      rw [SkipState.loop_succ]
      rcases s.turn_cases hs with ⟨r, hr, hforward⟩ | ⟨t, ht, hforward, -⟩
      · rw [hr]
        exact hforward
      · rw [ht]
        exact hforward.trans (ih t (hforward.stacked hs))

lemma forward_endBranching (p : Preprocessor) : Forward p (endBranching p).2 := by
  rw [endBranching]
  cases hf : p.findNext '\n' with
  | none => exact forward_toSize p
  | some endLine => exact forward_found hf

/-- So does the skip with what decides its end. -/
lemma forward_skipIfBranch (hs : p.inputStack ≠ []) : Forward p p.skipIfBranch.2 := by
  have hscan : Forward p p.skipScan.2 :=
    SkipState.forward_loop p.rest.length { nestCount := 1, p := p } hs
  rw [skipIfBranch]
  split
  · next heq =>
      rw [heq] at hscan
      exact hscan
  · next heq =>
      rw [heq] at hscan
      exact hscan.trans (forward_endBranching _)
  · next heq =>
      rw [heq] at hscan
      exact hscan

/-! ## The conditional directives -/

lemma forward_enterArm {arm : Arm} (h : Forward p arm.state) (hs : p.inputStack ≠ []) :
    Forward p (enterArm arm).2 := by
  cases arm with
  | error code q => exact h
  | taken q => exact h
  | skipped q => exact h.trans (forward_skipIfBranch (h.stacked hs))

lemma forward_readCondition {cond : Snippet} (h : p.readCondition = some (cond, q)) :
    Forward p q := by
  rw [readCondition] at h
  rcases Option.map_eq_some_iff.mp h with ⟨endLine, hf, heq⟩
  cases heq
  exact (forward_ol p).trans (forward_found hf)

/-- `#if` moves forward, whether or not its arm is taken. -/
lemma forward_ifArm {n : ℕ} {arm : Arm} (h : p.ifArm n = some arm) : Forward p arm.state := by
  have hactive : Forward p (p.setActive .If) := (Forward.refl p).setActive .If
  rw [ifArm] at h
  split at h
  · cases h
    exact hactive.trans (forward_ol _)
  · next hread =>
      have hcond := hactive.trans (forward_readCondition hread)
      rcases Option.map_eq_some_iff.mp h with ⟨res, -, rfl⟩
      split_ifs
      · exact hcond
      · exact hcond.withFlags _
      · exact hcond.withFlags _

lemma forward_ifndefArm {n : ℕ} {arm : Arm} (h : p.ifndefArm n = some arm) :
    Forward p arm.state := by
  rw [ifndefArm] at h
  rcases Option.map_eq_some_iff.mp h with ⟨res, -, rfl⟩
  have hname : Forward p (p.setActive .Ifndef).ol.skipIdent :=
    (((Forward.refl p).setActive .Ifndef).trans (forward_ol _)).trans (forward_skipIdent _)
  have hline := hname.trans (forward_pastFound _ '\n')
  split_ifs
  · exact hline.withFlags _
  · exact hline.withFlags _

lemma forward_elseArm (p : Preprocessor) : Forward p p.elseArm.state := by
  rw [elseArm]
  dsimp only
  split_ifs
  · exact .refl p
  · exact (forward_pastFound p '\n').withFlags _
  · exact (forward_pastFound p '\n').withFlags _

lemma forward_elifArm {n : ℕ} {arm : Arm} (h : p.elifArm n = some arm) : Forward p arm.state := by
  have hactive : Forward p (p.setActive .Elif) := (Forward.refl p).setActive .Elif
  rw [elifArm] at h
  split_ifs at h
  · cases h
    exact .refl p
  · dsimp only at h
    split_ifs at h
    · cases h
      exact hactive.withFlags _
    · split at h
      · cases h
        exact hactive.trans (forward_ol _)
      · next hread =>
          have hcond := hactive.trans (forward_readCondition hread)
          rcases Option.map_eq_some_iff.mp h with ⟨res, -, rfl⟩
          split_ifs
          · exact hcond
          · exact hcond.withFlags _
          · exact hcond.withFlags _

lemma forward_handleEndif (p : Preprocessor) : Forward p p.handleEndif.2 := by
  rw [handleEndif]
  split_ifs
  · exact .refl p
  · exact ((Forward.refl p).withFlags _).trans (forward_pastFound _ '\n')

/-- Every directive that is no inclusion moves the cursor forward at most. -/
lemma forward_processDirective {disk : Disk} {n : ℕ} {t : MacroType} {ret : ℤ}
    (hs : p.inputStack ≠ []) (ht : t ≠ .Include ∧ t ≠ .Import)
    (h : processDirective disk n t p = some (ret, q)) : Forward p q := by
  have hsnd {r : ℤ × Preprocessor} (hr : some r = some (ret, q)) : r.2 = q :=
    congrArg Prod.snd (Option.some.inj hr)
  cases t with
  | Include => exact absurd rfl ht.1
  | Import => exact absurd rfl ht.2
  | None | Unknown | Enddef =>
      cases h
      exact .refl _
  | Define => exact hsnd h ▸ forward_handleDefine p
  | Define_M => exact hsnd h ▸ forward_handleDefineM p
  | Skip => exact hsnd h ▸ forward_handleSkip p
  | Param => exact hsnd h ▸ forward_handleParam hs
  | Endif => exact hsnd h ▸ forward_handleEndif p
  | Else => exact hsnd h ▸ forward_enterArm (forward_elseArm p) hs
  | If =>
      rcases Option.map_eq_some_iff.mp h with ⟨arm, harm, heq⟩
      exact hsnd (congrArg some heq) ▸ forward_enterArm (forward_ifArm harm) hs
  | Ifndef =>
      rcases Option.map_eq_some_iff.mp h with ⟨arm, harm, heq⟩
      exact hsnd (congrArg some heq) ▸ forward_enterArm (forward_ifndefArm harm) hs
  | Elif =>
      rcases Option.map_eq_some_iff.mp h with ⟨arm, harm, heq⟩
      exact hsnd (congrArg some heq) ▸ forward_enterArm (forward_elifArm harm) hs

/-! ## Inclusion -/

/-- The file at `path` is loaded and its frame pushed. -/
def pushFile (disk : Disk) (path : List Byte) (p : Preprocessor) : Preprocessor :=
  { p with
    fileMgr := (p.fileMgr.loadFile disk path).2
    inputStack :=
      { content := (p.fileMgr.loadFile disk path).1.content, cursor := 0 } :: p.inputStack }

/-- An inclusion fails, or pushes the frame of a file that is not empty. -/
lemma handleInclude_cases (disk : Disk) (p : Preprocessor) :
    (p.handleInclude disk).1 < 0 ∨ ∃ q path, Forward p q ∧
      0 < (q.fileMgr.loadFile disk path).1.content.size ∧
      p.handleInclude disk = (0, q.pushFile disk path) := by
  have herr : (-1 : ℤ) < 0 ∧ (-2 : ℤ) < 0 := by decide
  rw [handleInclude]
  dsimp only
  split_ifs with hend hopen
  · exact .inl herr.1
  · exact .inl herr.1
  all_goals
    have hstart : Forward p (p.ol.bump 1) := (forward_ol p).trans (forward_bump_one hend)
    split
    · exact .inl herr.1
    · next nextC hf =>
        have hpath := (hstart.trans (forward_found hf)).trans (forward_pastFound _ '\n')
        split_ifs with hbad
        · exact .inl herr.2
        · exact .inr ⟨_, _, hpath, Nat.pos_of_ne_zero fun h => hbad (.inr (.inr h)), rfl⟩

/-! ## An iteration of the main loop -/

/-- What an iteration of the main loop that goes on can do. -/
inductive Turn (disk : Disk) (p : Preprocessor) : Preprocessor → Prop
  | pop (hs : p.inputStack ≠ []) (hend : p.atEnd = true) :
      Turn disk p { p with inputStack := p.inputStack.tail }
  | advance {q : Preprocessor} (hs : p.inputStack ≠ []) (hend : p.cursor < p.size)
      (h : Forward p q) (hlt : p.cursor < q.cursor) : Turn disk p q
  | push {q : Preprocessor} {path : List Byte} (hs : p.inputStack ≠ []) (hend : p.cursor < p.size)
      (ht : p.directiveAhead = some .Include ∨ p.directiveAhead = some .Import)
      (h : Forward p q) (hlt : p.cursor < q.cursor)
      (hsize : 0 < (q.fileMgr.loadFile disk path).1.content.size) :
      Turn disk p (q.pushFile disk path)

/-- A directive stands in a frame. -/
lemma stacked_of_ahead {t : MacroType} (h : p.directiveAhead = some t) :
    p.inputStack ≠ [] ∧ ¬ p.atEnd = true := by
  rw [directiveAhead] at h
  split_ifs at h with hno
  exact ⟨fun hs => hno (.inl hs), fun he => hno (.inr (.inl he))⟩

/-- Its handler starts behind the word. -/
lemma handlerState_ahead {t : MacroType} (h : p.directiveAhead = some t) :
    Forward p p.handlerState ∧ p.cursor < p.handlerState.cursor := by
  rcases stacked_of_ahead h with ⟨hs, hend⟩
  have hname := forward_readDirective hs hend
  exact ⟨hname.1.setActive _, hname.2⟩

lemma length_literalTail_le (quote : Byte) (r : List Byte) :
    (literalTail quote r).length ≤ r.length := by
  fun_induction literalTail quote r with
  | case1 => exact le_rfl
  | case2 => exact le_rfl
  | case3 esc r ih =>
      simp only [List.length_cons]
      omega
  | case4 r hsc => simp
  | case5 sc r hsc hq ih =>
      simp only [List.length_cons]
      omega

/-- A literal is passed over, at least its quote. -/
lemma forward_literal (hs : p.inputStack ≠ []) (hend : ¬ p.atEnd = true) (quote : Byte) :
    Forward p (p.bump (1 + (literalTail quote (p.bump 1).rest).length)) ∧
      p.cursor < (p.bump (1 + (literalTail quote (p.bump 1).rest).length)).cursor := by
  rw [← bump_bump]
  exact Forward.lt_of_bump hs hend (.bump (length_literalTail_le _ _))

/-- The byte under the cursor heads the rest of the frame, unless the buffer ends before it. -/
lemma rest_eq_cons (hend : ¬ p.atEnd = true) (hc : p.currChar ≠ 0) :
    ∃ r, p.rest = p.currChar :: r := by
  have hlt := lt_size_of_not_atEnd hend
  have hget : p.rest[0]? = some p.currChar := by
    have hin : p.sourceContent.offset + p.cursor < p.fileMgr.data.length := by
      by_contra hout
      rw [currChar, Preprocessor.getChar, FileManager.getChar, List.getD_eq_getElem?_getD,
        List.getElem?_eq_none (not_lt.mp hout)] at hc
      exact hc rfl
    rw [rest, FileManager.read, List.getElem?_drop, Nat.add_zero,
      List.getElem?_take_of_lt (by simpa [size] using hlt), List.getElem?_drop, currChar,
      Preprocessor.getChar, FileManager.getChar, List.getD_eq_getElem?_getD,
      List.getElem?_eq_getElem hin]
    rfl
  cases hr : p.rest with
  | nil =>
      rw [hr] at hget
      cases hget
  | cons c r =>
      rw [hr] at hget
      exact ⟨r, by rw [Option.some.inj hget]⟩

/-- A name is passed over, at least its first letter. -/
lemma forward_ident (hs : p.inputStack ≠ []) (hend : ¬ p.atEnd = true)
    (hc : isIn identCharBitmask p.currChar = true) :
    Forward p p.skipIdent ∧ p.cursor < p.skipIdent.cursor := by
  have hlt := lt_size_of_not_atEnd hend
  have hne : p.currChar ≠ 0 := by
    intro h0
    rw [h0, isIn_identCharBitmask] at hc
    exact absurd hc (by decide)
  rcases rest_eq_cons hend hne with ⟨r, hr⟩
  refine ⟨forward_skipIdent p, ?_⟩
  rw [skipIdent, setCursor_cursor _ _ hs]
  cases hf : p.findNextIdentInv with
  | none => exact hlt
  | some i =>
      rw [findNextIdentInv, hr, List.findIdx?_cons, hc] at hf
      rcases Option.map_eq_some_iff.mp hf with ⟨k, hk, rfl⟩
      rcases Option.map_eq_some_iff.mp hk with ⟨j, -, rfl⟩
      show p.cursor < p.cursor + (j + 1)
      omega

/-- An iteration in front of a directive. -/
lemma turn_of_directive {disk : Disk} {n : ℕ} {t : MacroType} {ret : ℤ}
    (hahead : p.directiveAhead = some t)
    (h : processDirective disk n t p.handlerState = some (ret, q)) (hret : 0 ≤ ret) :
    Turn disk p q := by
  rcases stacked_of_ahead hahead with ⟨hs, hend⟩
  have hname := handlerState_ahead hahead
  have hlt := lt_size_of_not_atEnd hend
  by_cases ht : t ≠ .Include ∧ t ≠ .Import
  · have hmove := Forward.lt_trans hname hlt.le
      (forward_processDirective (hname.1.stacked hs) ht h)
    exact .advance hs hlt hmove.1 hmove.2
  · have ht' : t = .Include ∨ t = .Import := by
      by_contra hno
      exact ht (not_or.mp hno)
    have hinclude : p.handlerState.handleInclude disk = (ret, q) := by
      rcases ht' with rfl | rfl
      · exact Option.some.inj h
      · exact Option.some.inj h
    rcases handleInclude_cases disk p.handlerState with hneg | ⟨r, path, hr, hsize, heq⟩
    · rw [hinclude] at hneg
      exact absurd hneg (not_lt.mpr hret)
    · have hmove := Forward.lt_trans hname hlt.le hr
      have hq : r.pushFile disk path = q := congrArg Prod.snd (heq.symm.trans hinclude)
      rw [← hq]
      exact .push hs hlt (by rcases ht' with rfl | rfl <;> simp [hahead]) hmove.1 hmove.2 hsize

/-- **An iteration of the main loop pops a frame, moves the cursor on, or does that and pushes a
file.** -/
lemma turn_of_step {disk : Disk} {n : ℕ} (h : p.step disk n = .next q) : Turn disk p q := by
  cases hahead : p.directiveAhead with
  | some t =>
      rw [step_of_ahead hahead] at h
      split at h
      · cases h
      · next ret r heq =>
          split_ifs at h with hret
          cases h
          exact turn_of_directive hahead heq (not_lt.mp hret)
  | none =>
      rw [directiveAhead] at hahead
      split_ifs at hahead with hno
      rw [step] at h
      split at h
      · cases h
      next f frames hf =>
      have hs : p.inputStack ≠ [] := by simp [hf]
      dsimp only at h
      split at h
      · next hend =>
          cases h
          have hpop : Turn disk p { p with inputStack := p.inputStack.tail } := .pop hs hend
          rwa [hf] at hpop
      next hend =>
      have hlt := lt_size_of_not_atEnd hend
      have hadvance {r : Preprocessor} (hr : Forward p r ∧ p.cursor < r.cursor) : Turn disk p r :=
        .advance hs hlt hr.1 hr.2
      split at h
      · next hline =>
          cases h
          have hmove := forward_lineComment hs hline
          exact hadvance ⟨hmove.1.emit _, hmove.2⟩
      next hline =>
      split at h
      · next hblock =>
          cases h
          have hmove := forward_blockComment hs hblock
          exact hadvance ⟨hmove.1.emit _, hmove.2⟩
      next hblock =>
      split at h
      · cases h
        have hmove := forward_literal hs hend p.currChar
        exact hadvance ⟨hmove.1.emit _, hmove.2⟩
      split at h
      · next hhash =>
          rcases hno with hno | hno | hno | hno | hno
          · exact absurd hno hs
          · exact absurd hno hend
          · exact absurd hno hline
          · exact absurd hno hblock
          · exact absurd hhash hno
      split at h
      · next hident =>
          cases h
          have hmove := forward_ident hs hend hident
          exact hadvance ⟨hmove.1.emit _, hmove.2⟩
      · cases h
        exact hadvance (Forward.lt_of_bump hs hend (((Forward.refl _)).emit _))

lemma turn_of_steps {disk : Disk} (h : Steps disk p q) : Turn disk p q := by
  rcases h with ⟨N, hN⟩
  exact turn_of_step (hN N le_rfl)

/-! ## What a run preserves -/

/-- A step changes a finite number of macros. -/
lemma Turn.macros {disk : Disk} (h : Turn disk p q) :
    {name | q.storedMacros name ≠ p.storedMacros name}.Finite := by
  cases h with
  | pop hs hend => simp
  | advance hs hend h hlt => exact h.macros
  | push hs hend ht h hlt hsize => exact h.macros

/-- At any time finitely many macros are defined. -/
lemma finite_macros {disk : Disk} {basePath filePath : List Byte}
    (h : Runs disk (ofFile disk basePath filePath) q) :
    {name | q.storedMacros name ≠ none}.Finite := by
  induction h with
  | refl => simp [ofFile]
  | tail _ hstep ih =>
      refine (ih.union (turn_of_steps hstep).macros).subset fun name hname => ?_
      by_contra hnot
      simp only [Set.mem_union, not_or] at hnot
      exact hname ((not_not.mp hnot.2).trans (not_not.mp hnot.1))

end Preprocessor

end LogicCompiler
