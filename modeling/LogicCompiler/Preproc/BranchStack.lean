import LogicCompiler.Preproc.Scanning

/-!
# The stack of branch flags

Every conditional group pushes one byte of flags.  What becomes of it depends on where the group
is closed: `handle_endif` pops it, an `#endif` that a skip comes to does not.  `Nested` follows
the main loop through a group and counts the groups that are closed in the second way; the count
is exactly what the stack has grown by (`nested_length`), so the discipline is kept by the runs
that count none of them.
-/

namespace LogicCompiler

namespace Preprocessor

variable {p q : Preprocessor}

/-! ## Operations that leave the flags alone -/

@[simp] lemma bump_branchFlags (p : Preprocessor) (n : ℕ) :
    (p.bump n).branchFlags = p.branchFlags := rfl

@[simp] lemma ol_branchFlags (p : Preprocessor) : p.ol.branchFlags = p.branchFlags := rfl

@[simp] lemma skipIdent_branchFlags (p : Preprocessor) :
    p.skipIdent.branchFlags = p.branchFlags := rfl

@[simp] lemma emit_branchFlags (p : Preprocessor) (s : List Byte) :
    (p.emit s).branchFlags = p.branchFlags := rfl

@[simp] lemma forgetMacro_branchFlags (p : Preprocessor) (name : List Byte) :
    (p.forgetMacro name).branchFlags = p.branchFlags := rfl

@[simp] lemma pastFound_branchFlags (p : Preprocessor) (found : Option ℕ) :
    (p.pastFound found).branchFlags = p.branchFlags := by
  cases found <;> rfl

/-- Reading names leaves the flags alone. -/
lemma aliasLoop_branchFlags (n : ℕ) (p : Preprocessor) :
    (aliasLoop n p).branchFlags = p.branchFlags := by
  induction n generalizing p with
  | zero => rfl
  | succ n ih =>
      rw [aliasLoop]
      split_ifs
      · exact ih _
      · rfl

lemma continuationLoop_branchFlags (n contentEnd : ℕ) (p : Preprocessor) :
    (continuationLoop n contentEnd p).2.branchFlags = p.branchFlags := by
  induction n generalizing contentEnd p with
  | zero => rfl
  | succ n ih =>
      rw [continuationLoop]
      split_ifs
      · rfl
      · dsimp only
        split
        · exact ih _ _
        · rfl
        · rfl

lemma registerNames_branchFlags (p : Preprocessor) (names : List Byte) (d : Defined) :
    (p.registerNames names d).branchFlags = p.branchFlags := by
  have hfold : ∀ (singles : List (List Byte)) (p : Preprocessor),
      (singles.foldl (fun p s => if s = [] then p else p.addMacro s d) p).branchFlags
        = p.branchFlags := by
    intro singles
    induction singles with
    | nil => exact fun _ => rfl
    | cons s singles ih =>
        intro p
        rw [List.foldl_cons, ih]
        split_ifs <;> rfl
  exact hfold _ p

lemma namesLoop_branchFlags (n : ℕ) (p : Preprocessor) :
    (namesLoop n p).branchFlags = p.branchFlags := by
  induction n generalizing p with
  | zero => rfl
  | succ n ih =>
      rw [namesLoop]
      dsimp only
      split_ifs
      · rfl
      · exact ih _
      · rfl

lemma parenLoop_branchFlags {n depth depth' : ℕ} (h : parenLoop n depth p = some (depth', q)) :
    q.branchFlags = p.branchFlags := by
  induction n generalizing depth p with
  | zero =>
      cases h
      rfl
  | succ n ih =>
      rw [parenLoop] at h
      split_ifs at h
      · cases h
        rfl
      · exact ih (p := p.bump 1) h
      · cases h
        rfl
      · exact ih (p := p.bump 1) h
      · exact ih (p := p.bump 1) h

/-- No macro touches the flags. -/
lemma handleDefine_branchFlags (p : Preprocessor) :
    p.handleDefine.2.branchFlags = p.branchFlags := by
  rw [handleDefine]
  dsimp only
  rw [registerNames_branchFlags, continuationLoop_branchFlags]
  show (aliasLoop _ _).branchFlags = _
  rw [aliasLoop_branchFlags]
  rfl

lemma handleDefineM_branchFlags (p : Preprocessor) :
    p.handleDefineM.2.branchFlags = p.branchFlags := by
  rw [handleDefineM]
  dsimp only
  split
  · rw [namesLoop_branchFlags]
    rfl
  · rw [registerNames_branchFlags, pastFound_branchFlags, setCursor_branchFlags,
      namesLoop_branchFlags]
    rfl

lemma handleSkip_branchFlags (p : Preprocessor) : p.handleSkip.2.branchFlags = p.branchFlags := by
  rw [handleSkip]
  split
  · rfl
  · split_ifs <;> rfl

/-- A file that is included starts with the flags that are there. -/
lemma handleInclude_branchFlags (disk : Disk) (p : Preprocessor) :
    (p.handleInclude disk).2.branchFlags = p.branchFlags := by
  rw [handleInclude]
  dsimp only
  split_ifs
  · rfl
  · rfl
  · split
    · rfl
    · split_ifs <;> exact pastFound_branchFlags _ _
  · split
    · rfl
    · split_ifs <;> exact pastFound_branchFlags _ _

lemma handleParam_branchFlags (p : Preprocessor) : p.handleParam.2.branchFlags = p.branchFlags := by
  rw [handleParam]
  dsimp only
  split_ifs
  · rfl
  · split
    · rfl
    · next hloop =>
        have hflags := parenLoop_branchFlags hloop
        split_ifs <;> simp [hflags]

/-- A skip leaves the flags alone. -/
lemma skipLoop_branchFlags (n : ℕ) (s1 s2 : Bool) (nestCount : ℕ) (p : Preprocessor) :
    (skipLoop n s1 s2 nestCount p).2.branchFlags = p.branchFlags := by
  induction n generalizing s1 s2 nestCount p with
  | zero => rfl
  | succ n ih =>
      rw [skipLoop]
      dsimp only
      split
      · rfl
      split
      · exact ih _ _ _ _
      split
      · exact ih _ _ _ _
      split
      · exact ih _ _ _ _
      split
      · exact ih _ _ _ _
      split
      · exact ih _ _ _ _
      split
      · -- a directive: its name has been read, and every branch moves the cursor on
        split <;> first | exact ih _ _ _ _ | (split_ifs <;> first | exact ih _ _ _ _ | rfl)
      · exact ih _ _ _ _

lemma endBranching_branchFlags (p : Preprocessor) :
    (endBranching p).2.branchFlags = p.branchFlags := by
  rw [endBranching]
  split <;> rfl

lemma skipIfBranch_branchFlags (p : Preprocessor) :
    p.skipIfBranch.2.branchFlags = p.branchFlags := by
  have hscan : p.skipScan.2.branchFlags = p.branchFlags := skipLoop_branchFlags _ _ _ _ _
  rw [skipIfBranch]
  split
  · next heq => rw [heq] at hscan; exact hscan
  · next heq => rw [heq] at hscan; rw [endBranching_branchFlags]; exact hscan
  · next heq => rw [heq] at hscan; exact hscan

/-! ## Directives as the main loop sees them -/

/-- The directive the main loop is about to handle, if it stands in front of one. -/
def directiveAhead (p : Preprocessor) : Option MacroType :=
  if p.inputStack = [] ∨ p.atEnd ∨ p.opensComment '/' ∨ p.opensComment '*'
      ∨ p.currChar ≠ '#'.toUInt8 then none
  else some p.readDirective.1

/-- The state the handler of that directive is called in. -/
def handlerState (p : Preprocessor) : Preprocessor :=
  p.readDirective.2.setActive p.readDirective.1

variable {disk : Disk} {n : ℕ} {t : MacroType}

/-- A step at a directive is its handler. -/
lemma step_of_ahead (h : p.directiveAhead = some t) :
    p.step disk n = match processDirective disk n t p.handlerState with
      | none => .diverged
      | some (ret, q) => if ret < 0 then .failed ret q else .next q := by
  rw [directiveAhead] at h
  split_ifs at h with hno
  simp only [not_or, not_not] at hno
  obtain ⟨hstack, hend, hline, hblock, hhash⟩ := hno
  obtain ⟨f, frames, hf⟩ := List.exists_cons_of_ne_nil hstack
  cases h
  rw [step, hf]
  simp only [hend, hline, hblock, hhash, if_true]
  rfl

/-- The directives that open a group. -/
def opensGroup (t : MacroType) : Prop := (t = .If ∨ t = .Ifndef)

/-- The directives that open a further arm. -/
def opensArm (t : MacroType) : Prop := t = .Else ∨ t = .Elif

/-- The directive belongs to no conditional group. -/
def Unconditional (t : MacroType) : Prop := ¬ opensGroup t ∧ ¬ opensArm t ∧ t ≠ .Endif

/-- The handlers of the other directives leave the flags alone. -/
lemma processDirective_branchFlags {ret : ℤ} (ht : Unconditional t)
    (h : processDirective disk n t p = some (ret, q)) : q.branchFlags = p.branchFlags := by
  obtain ⟨hgroup, harm, hendif⟩ := ht
  cases t with
  | If => exact absurd (.inl rfl) hgroup
  | Ifndef => exact absurd (.inr rfl) hgroup
  | Else => exact absurd (.inl rfl) harm
  | Elif => exact absurd (.inr rfl) harm
  | Endif => exact absurd rfl hendif
  | None | Unknown | Enddef =>
      cases h
      rfl
  | Define =>
      rw [← handleDefine_branchFlags p]
      exact (congrArg (fun r => r.2.branchFlags) (Option.some.inj h)).symm
  | Define_M =>
      rw [← handleDefineM_branchFlags p]
      exact (congrArg (fun r => r.2.branchFlags) (Option.some.inj h)).symm
  | Include | Import =>
      rw [← handleInclude_branchFlags disk p]
      exact (congrArg (fun r => r.2.branchFlags) (Option.some.inj h)).symm
  | Skip =>
      rw [← handleSkip_branchFlags p]
      exact (congrArg (fun r => r.2.branchFlags) (Option.some.inj h)).symm
  | Param =>
      rw [← handleParam_branchFlags p]
      exact (congrArg (fun r => r.2.branchFlags) (Option.some.inj h)).symm

/-- An iteration that handles no conditional directive leaves the flags alone. -/
lemma step_branchFlags (hahead : ∀ t ∈ p.directiveAhead, Unconditional t)
    (h : p.step disk n = .next q) : q.branchFlags = p.branchFlags := by
  cases ht : p.directiveAhead with
  | some t =>
      rw [step_of_ahead ht] at h
      split at h
      · cases h
      · next heq =>
          split_ifs at h
          cases h
          have hflags := processDirective_branchFlags (hahead t ht) heq
          exact hflags
  | none =>
      rw [directiveAhead] at ht
      split_ifs at ht with hno
      rw [step] at h
      split at h
      · cases h
      · next f frames hf =>
          have hstack : p.inputStack ≠ [] := by simp [hf]
          dsimp only at h
          split at h
          · cases h
            rfl
          next hend =>
          split at h
          · cases h
            rfl
          next hline =>
          split at h
          · cases h
            rfl
          next hblock =>
          split at h
          · cases h
            rfl
          split at h
          · next hhash =>
              rcases hno with hno | hno | hno | hno | hno
              · exact absurd hno hstack
              · exact absurd hno hend
              · exact absurd hno hline
              · exact absurd hno hblock
              · exact absurd hhash hno
          split at h
          · cases h
            rfl
          · cases h
            rfl

/-! ## Runs through groups -/

/-- The arm the next conditional directive decides for. -/
def decision (fuel : ℕ) (p : Preprocessor) : Option Arm :=
  match p.directiveAhead with
  | some .If => p.handlerState.ifArm fuel
  | some .Ifndef => p.handlerState.ifndefArm fuel
  | some .Else => some p.handlerState.elseArm
  | some .Elif => p.handlerState.elifArm fuel
  | _ => none

/-- Where the main loop goes on behind a conditional directive: inside one of the arms of the
group, or behind the `#endif` of the group.  A skip that comes to neither has lost the group. -/
inductive Flow where
  | Entered | Closed | Lost
  deriving DecidableEq, Repr

/-- What a further arm does to the flow of `process`. -/
def Arm.flow : Arm → Flow
  | .error _ _ => .Lost
  | .taken _ => .Entered
  | .skipped p =>
      match p.skipScan.1 with
      | .found .Endif _ => .Closed
      | .found _ _ => .Entered
      | .exhausted _ => .Lost

/-- What a run leads through: text with whole groups in it, the arms of a group up to and with its
`#endif`, or a whole group. -/
inductive Part where
  | Text | Arms | Group
  deriving DecidableEq, Repr

/-- A run of the main loop from `p` to `q` that leads through the given part of the source.  The
number counts the groups that are closed inside a skip. -/
inductive Nested (disk : Disk) : Part → ℕ → Preprocessor → Preprocessor → Prop
  | done (p : Preprocessor) : Nested disk .Text 0 p p
  | step {k n : ℕ} {p p' q : Preprocessor} (hahead : ∀ t ∈ p.directiveAhead, Unconditional t)
      (hstep : p.step disk n = .next p') (h : Nested disk .Text k p' q) : Nested disk .Text k p q
  | inner {k j : ℕ} {p p' q : Preprocessor} (hg : Nested disk .Group k p p')
      (h : Nested disk .Text j p' q) : Nested disk .Text (k + j) p q
  | endif {k n : ℕ} {p p' q : Preprocessor} (hbody : Nested disk .Text k p p')
      (hahead : p'.directiveAhead = some .Endif) (hstep : p'.step disk n = .next q) :
      Nested disk .Arms k p q
  | arm {k j n : ℕ} {p p' p'' q : Preprocessor} {t : MacroType} {arm : Arm}
      (hbody : Nested disk .Text k p p') (hahead : p'.directiveAhead = some t) (ht : opensArm t)
      (harm : p'.decision n = some arm) (hflow : arm.flow = .Entered)
      (hstep : p'.step disk n = .next p'') (h : Nested disk .Arms j p'' q) :
      Nested disk .Arms (k + j) p q
  | armClosed {k n : ℕ} {p p' q : Preprocessor} {t : MacroType} {arm : Arm}
      (hbody : Nested disk .Text k p p') (hahead : p'.directiveAhead = some t) (ht : opensArm t)
      (harm : p'.decision n = some arm) (hflow : arm.flow = .Closed)
      (hstep : p'.step disk n = .next q) : Nested disk .Arms (k + 1) p q
  | group {k n : ℕ} {p p' q : Preprocessor} {t : MacroType} {arm : Arm}
      (hahead : p.directiveAhead = some t) (ht : opensGroup t) (harm : p.decision n = some arm)
      (hflow : arm.flow = .Entered) (hstep : p.step disk n = .next p')
      (h : Nested disk .Arms k p' q) : Nested disk .Group k p q
  | groupClosed {n : ℕ} {p q : Preprocessor} {t : MacroType} {arm : Arm}
      (hahead : p.directiveAhead = some t) (ht : opensGroup t) (harm : p.decision n = some arm)
      (hflow : arm.flow = .Closed) (hstep : p.step disk n = .next q) : Nested disk .Group 1 p q

/-! ## What each conditional directive does to the flags -/

/-- The state an arm is entered or skipped from. -/
def Arm.state : Arm → Preprocessor
  | .error _ p | .taken p | .skipped p => p

lemma enterArm_branchFlags (arm : Arm) : (enterArm arm).2.branchFlags = arm.state.branchFlags := by
  cases arm with
  | error code p => rfl
  | taken p => rfl
  | skipped p => exact skipIfBranch_branchFlags p

/-- The flags behind a conditional directive are those its arm is entered or skipped with. -/
lemma step_decision {arm : Arm} (hahead : p.directiveAhead = some t)
    (ht : opensGroup t ∨ opensArm t) (harm : p.decision n = some arm)
    (hstep : p.step disk n = .next q) : q.branchFlags = arm.state.branchFlags := by
  have henter : processDirective disk n t p.handlerState = some (enterArm arm) := by
    rw [decision, hahead] at harm
    rcases ht with (rfl | rfl) | (rfl | rfl)
    · exact congrArg (Option.map enterArm) harm
    · exact congrArg (Option.map enterArm) harm
    · exact congrArg (Option.map enterArm) harm
    · exact congrArg (Option.map enterArm) harm
  rw [step_of_ahead hahead, henter] at hstep
  rw [← enterArm_branchFlags]
  rcases henter' : enterArm arm with ⟨ret, r⟩
  rw [henter'] at hstep
  dsimp only at hstep
  split_ifs at hstep
  cases hstep
  rfl

lemma readCondition_branchFlags {cond : Snippet} (h : p.readCondition = some (cond, q)) :
    q.branchFlags = p.branchFlags := by
  rw [readCondition] at h
  obtain ⟨endLine, -, heq⟩ := Option.map_eq_some_iff.mp h
  cases heq
  rfl

/-- Push the flags of a new group, or fail. -/
lemma ifArm_branchFlags {arm : Arm} (h : p.ifArm n = some arm) (hflow : arm.flow ≠ .Lost) :
    ∃ f, arm.state.branchFlags = f :: p.branchFlags := by
  rw [ifArm] at h
  split at h
  · cases h
    exact absurd rfl hflow
  · next cond r hcond =>
      have hr := readCondition_branchFlags hcond
      obtain ⟨res, -, rfl⟩ := Option.map_eq_some_iff.mp h
      split_ifs at hflow ⊢
      · exact absurd rfl hflow
      · exact ⟨_, congrArg (List.cons _) hr⟩
      · exact ⟨_, congrArg (List.cons _) hr⟩

/-- `#ifndef` puts its flags in front. -/
lemma ifndefArm_branchFlags {arm : Arm} (h : p.ifndefArm n = some arm) :
    ∃ f, arm.state.branchFlags = f :: p.branchFlags := by
  rw [ifndefArm] at h
  obtain ⟨res, -, rfl⟩ := Option.map_eq_some_iff.mp h
  split_ifs
  · exact ⟨_, congrArg _ (pastFound_branchFlags _ _)⟩
  · exact ⟨_, congrArg _ (pastFound_branchFlags _ _)⟩

/-- A group that is opened pushes its flags. -/
lemma decision_group {arm : Arm} (hahead : p.directiveAhead = some t) (ht : opensGroup t)
    (harm : p.decision n = some arm) (hflow : arm.flow ≠ .Lost) :
    ∃ f, arm.state.branchFlags = f :: p.branchFlags := by
  rw [decision, hahead] at harm
  rcases ht with rfl | rfl
  · have hpush := ifArm_branchFlags harm hflow
    exact hpush
  · have hpush := ifndefArm_branchFlags harm
    exact hpush

lemma setTopFlags_branchFlags (f : UInt8) (h : q.branchFlags = p.branchFlags) :
    ∃ g, (q.setTopFlags f).branchFlags = g :: p.branchFlags.tail :=
  ⟨f, by rw [setTopFlags, h]⟩

/-- `#else` changes the first flags only. -/
lemma elseArm_branchFlags (hflow : p.elseArm.flow ≠ .Lost) :
    p.branchFlags ≠ [] ∧ ∃ g, p.elseArm.state.branchFlags = g :: p.branchFlags.tail := by
  have hpast := pastFound_branchFlags p (p.findNext '\n')
  rw [elseArm] at hflow ⊢
  dsimp only at hflow ⊢
  split_ifs at hflow ⊢ with hnil htaken
  · exact absurd rfl hflow
  · exact ⟨hnil, setTopFlags_branchFlags _ hpast⟩
  · exact ⟨hnil, setTopFlags_branchFlags _ hpast⟩

/-- So does `#elif`. -/
lemma elifArm_branchFlags {arm : Arm} (h : p.elifArm n = some arm) (hflow : arm.flow ≠ .Lost) :
    p.branchFlags ≠ [] ∧ ∃ g, arm.state.branchFlags = g :: p.branchFlags.tail := by
  rw [elifArm] at h
  dsimp only at h
  split_ifs at h with hnil htaken
  · cases h
    exact absurd rfl hflow
  · cases h
    exact ⟨hnil, setTopFlags_branchFlags (p := p) _ rfl⟩
  · refine ⟨hnil, ?_⟩
    split at h
    · cases h
      exact absurd rfl hflow
    · next cond r hcond =>
        have hr := readCondition_branchFlags hcond
        obtain ⟨res, -, rfl⟩ := Option.map_eq_some_iff.mp h
        split_ifs at hflow ⊢
        · exact absurd rfl hflow
        · exact setTopFlags_branchFlags (p := p) _ hr
        · exact setTopFlags_branchFlags (p := p) _ hr

/-- A further arm changes the flags on top of the stack only. -/
lemma decision_arm {arm : Arm} (hahead : p.directiveAhead = some t) (ht : opensArm t)
    (harm : p.decision n = some arm) (hflow : arm.flow ≠ .Lost) :
    p.branchFlags ≠ [] ∧ ∃ g, arm.state.branchFlags = g :: p.branchFlags.tail := by
  rw [decision, hahead] at harm
  rcases ht with rfl | rfl
  · cases harm
    have hset := elseArm_branchFlags hflow
    exact hset
  · have hset := elifArm_branchFlags harm hflow
    exact hset

/-- `#endif` pops. -/
lemma step_endif_branchFlags (hahead : p.directiveAhead = some .Endif)
    (hstep : p.step disk n = .next q) :
    p.branchFlags ≠ [] ∧ q.branchFlags = p.branchFlags.tail := by
  rw [step_of_ahead hahead, processDirective, handleEndif] at hstep
  split_ifs at hstep with hnil
  · cases hstep
  · cases hstep
    exact ⟨hnil, pastFound_branchFlags _ _⟩

/-! ## What runs do to the flags -/

/-- Where a part leaves the stack: in front of the arms of a group, its flags are on it. -/
def Part.pushed : Part → ℕ
  | .Text | .Group => 0
  | .Arms => 1

/-- The stack grows by the flags of the groups that are closed inside a skip. -/
lemma nested_length {part : Part} {k : ℕ} (h : Nested disk part k p q) :
    q.branchFlags.length + part.pushed = p.branchFlags.length + k := by
  induction h with
  | done => rfl
  | step hahead hstep _ ih => rw [ih, step_branchFlags hahead hstep]
  | inner _ _ ihg ih =>
      simp only [Part.pushed] at ihg ih ⊢
      omega
  | endif _ hahead hstep ih =>
      obtain ⟨hne, hpop⟩ := step_endif_branchFlags hahead hstep
      have hpos := List.length_pos_iff.mpr hne
      rw [hpop, List.length_tail]
      simp only [Part.pushed] at ih ⊢
      omega
  | arm _ hahead ht harm hflow hstep _ ihbody ih =>
      obtain ⟨hne, g, hset⟩ := decision_arm hahead ht harm (by rw [hflow]; decide)
      have hpos := List.length_pos_iff.mpr hne
      rw [step_decision hahead (.inr ht) harm hstep, hset] at ih
      simp only [Part.pushed, List.length_cons, List.length_tail] at ihbody ih ⊢
      omega
  | armClosed _ hahead ht harm hflow hstep ih =>
      obtain ⟨hne, g, hset⟩ := decision_arm hahead ht harm (by rw [hflow]; decide)
      have hpos := List.length_pos_iff.mpr hne
      rw [step_decision hahead (.inr ht) harm hstep, hset]
      simp only [Part.pushed, List.length_cons, List.length_tail] at ih ⊢
      omega
  | group hahead ht harm hflow hstep _ ih =>
      obtain ⟨f, hpush⟩ := decision_group hahead ht harm (by rw [hflow]; decide)
      rw [step_decision hahead (.inl ht) harm hstep, hpush] at ih
      simp only [Part.pushed, List.length_cons] at ih ⊢
      omega
  | groupClosed hahead ht harm hflow hstep =>
      obtain ⟨f, hpush⟩ := decision_group hahead ht harm (by rw [hflow]; decide)
      rw [step_decision hahead (.inl ht) harm hstep, hpush]
      rfl

/-- The stack at the end of a part, when no group is closed inside a skip. -/
def Part.restored (part : Part) (flags : List UInt8) : List UInt8 :=
  match part with
  | .Text | .Group => flags
  | .Arms => flags.tail

/-- A run in which no group is closed inside a skip takes every group's own flags off again. -/
lemma nested_flags {part : Part} {k : ℕ} (h : Nested disk part k p q) (hk : k = 0) :
    q.branchFlags = part.restored p.branchFlags := by
  induction h with
  | done => rfl
  | step hahead hstep _ ih => rw [ih hk, step_branchFlags hahead hstep]
  | inner _ _ ihg ih =>
      rw [ih (by omega), Part.restored, ihg (by omega)]
      rfl
  | endif _ hahead hstep ih =>
      rw [(step_endif_branchFlags hahead hstep).2, ih hk]
      rfl
  | arm _ hahead ht harm hflow hstep _ ihbody ih =>
      obtain ⟨-, g, hset⟩ := decision_arm hahead ht harm (by rw [hflow]; decide)
      rw [ih (by omega), step_decision hahead (.inr ht) harm hstep, hset, ihbody (by omega)]
      rfl
  | armClosed => exact absurd hk (by omega)
  | group hahead ht harm hflow hstep _ ih =>
      obtain ⟨f, hpush⟩ := decision_group hahead ht harm (by rw [hflow]; decide)
      rw [ih hk, step_decision hahead (.inl ht) harm hstep, hpush]
      rfl
  | groupClosed => exact absurd hk (by omega)

/-- The stack behind a group, and behind any text with whole groups in it, is the stack before it
exactly in the runs that close no group inside a skip. -/
theorem group_restores_flags {part : Part} {k : ℕ} (h : Nested disk part k p q)
    (hpart : part ≠ .Arms) : q.branchFlags = p.branchFlags ↔ k = 0 := by
  constructor
  · intro heq
    have hlen := nested_length h
    rw [heq] at hlen
    cases part with
    | Arms => exact absurd rfl hpart
    | _ =>
        simp only [Part.pushed] at hlen
        omega
  · intro hk
    rw [nested_flags h hk]
    cases part with
    | Arms => exact absurd rfl hpart
    | _ => rfl

/-- A group with three arms, and another one in its second arm: at a cursor, with these flags. -/
def threeArms (cursor : ℕ) (flags : List UInt8) (active : MacroType) (output : List Byte) : Preprocessor :=
  { (ofText (bytes "#if 0\n#elif\n#if 1\n#endif\n#else\n#endif\n")).setCursor cursor with
    branchFlags := flags
    currActive := active
    outputBuffer := output }

set_option maxRecDepth 4000 in
lemma nested_threeArms : Nested (fun _ => none) .Group 0 (threeArms 0 [] .None [])
    (threeArms 38 [] .Endif (bytes "\n")) := by
  let disk : Disk := fun _ => none
  have hopen : (threeArms 0 [] .None []).step disk 1 = .next (threeArms 11 [0] .If []) := rfl
  have hline : (threeArms 11 [0] .If []).step disk 0 = .next (threeArms 12 [0] .If (bytes "\n")) := rfl
  have hinner : (threeArms 12 [0] .If (bytes "\n")).step disk 1 =
      .next (threeArms 18 [3, 0] .If (bytes "\n")) := rfl
  have hclose : (threeArms 18 [3, 0] .If (bytes "\n")).step disk 0 =
      .next (threeArms 25 [0] .Endif (bytes "\n")) := rfl
  have helse : (threeArms 25 [0] .Endif (bytes "\n")).step disk 0 =
      .next (threeArms 31 [3] .Else (bytes "\n")) := rfl
  have hend : (threeArms 31 [3] .Else (bytes "\n")).step disk 0 =
      .next (threeArms 38 [] .Endif (bytes "\n")) := rfl
  have hgroup : Nested disk .Group 0 (threeArms 12 [0] .If (bytes "\n"))
      (threeArms 25 [0] .Endif (bytes "\n")) :=
    .group rfl (.inl rfl) (n := 1) rfl rfl hinner (.endif (.done _) rfl hclose)
  have harm : Nested disk .Text 0 (threeArms 11 [0] .If []) (threeArms 25 [0] .Endif (bytes "\n")) :=
    .step (by rintro t ⟨⟩) hline (.inner (k := 0) (j := 0) hgroup (.done _))
  exact .group rfl (.inl rfl) (n := 1) rfl rfl hopen
    (.arm (k := 0) (j := 0) harm rfl (.inl rfl) (n := 0) rfl rfl helse (.endif (.done _) rfl hend))

theorem group_restores_flags_sample :
    Nested (fun _ => none) .Group 0 (threeArms 0 [] .None []) (threeArms 38 [] .Endif (bytes "\n")) ∧
      (threeArms 38 [] .Endif (bytes "\n")).branchFlags = (threeArms 0 [] .None []).branchFlags :=
  ⟨nested_threeArms, (group_restores_flags nested_threeArms (by decide)).mpr rfl⟩

set_option maxRecDepth 4000 in
/-- An `#endif` that a skip comes to leaves the flags of its group on the stack. -/
theorem skipped_endif_keeps_flags :
    ∃ q, Nested (fun _ => none) .Group 1 (ofText (bytes "#if 0\n#endif\n")) q ∧
      q.branchFlags ≠ (ofText (bytes "#if 0\n#endif\n")).branchFlags := by
  refine ⟨_, .groupClosed rfl (.inl rfl) (n := 1) rfl rfl rfl, ?_⟩
  exact List.cons_ne_nil _ _

end Preprocessor

end LogicCompiler
