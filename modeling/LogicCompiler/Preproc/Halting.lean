import LogicCompiler.Library.Stacks
import LogicCompiler.Preproc.Conditions

/-!
# When the main loop comes to an end

Every frame is a counter, of the bytes that are left in it: an iteration pops a frame that is used
up, or lowers the counter of the top frame and possibly pushes another frame.  So the loop ends
unless the stack of frames grows without bound, and nothing in the source keeps a file from being
pushed on top of itself.
-/

namespace LogicCompiler

namespace Preprocessor

variable {p q r : Preprocessor} {disk : Disk} {n m : ℕ}

/-! ## More calls make no difference -/

lemma ifArm_mono {arm : Arm} (hnm : n ≤ m) (h : p.ifArm n = some arm) : p.ifArm m = some arm := by
  rw [ifArm] at h ⊢
  split at h
  · exact h
  · rcases Option.map_eq_some_iff.mp h with ⟨res, hres, heq⟩
    exact Option.map_eq_some_iff.mpr ⟨res, evalCondition_mono hnm hres, heq⟩

lemma ifndefArm_mono {arm : Arm} (hnm : n ≤ m) (h : p.ifndefArm n = some arm) :
    p.ifndefArm m = some arm := by
  rw [ifndefArm] at h ⊢
  rcases Option.map_eq_some_iff.mp h with ⟨res, hres, heq⟩
  exact Option.map_eq_some_iff.mpr ⟨res, evalCondition_mono hnm hres, heq⟩

lemma elifArm_mono {arm : Arm} (hnm : n ≤ m) (h : p.elifArm n = some arm) :
    p.elifArm m = some arm := by
  rw [elifArm] at h ⊢
  split_ifs at h ⊢
  · exact h
  · dsimp only at h ⊢
    split_ifs at h ⊢
    · exact h
    · split at h
      · exact h
      · rcases Option.map_eq_some_iff.mp h with ⟨res, hres, heq⟩
        exact Option.map_eq_some_iff.mpr ⟨res, evalCondition_mono hnm hres, heq⟩

lemma processDirective_mono {t : MacroType} {result : ℤ × Preprocessor} (hnm : n ≤ m)
    (h : processDirective disk n t p = some result) :
    processDirective disk m t p = some result := by
  cases t with
  | If =>
      rcases Option.map_eq_some_iff.mp h with ⟨arm, harm, heq⟩
      exact Option.map_eq_some_iff.mpr ⟨arm, ifArm_mono hnm harm, heq⟩
  | Ifndef =>
      rcases Option.map_eq_some_iff.mp h with ⟨arm, harm, heq⟩
      exact Option.map_eq_some_iff.mpr ⟨arm, ifndefArm_mono hnm harm, heq⟩
  | Elif =>
      rcases Option.map_eq_some_iff.mp h with ⟨arm, harm, heq⟩
      exact Option.map_eq_some_iff.mpr ⟨arm, elifArm_mono hnm harm, heq⟩
  | None | Unknown | Enddef | Define | Define_M | Include | Import | Skip | Param | Endif | Else =>
      exact h

/-- Only a directive looks at the number of calls. -/
lemma step_of_not_ahead (h : p.directiveAhead = none) (n m : ℕ) : p.step disk n = p.step disk m := by
  rw [directiveAhead] at h
  split_ifs at h with hno
  cases hs : p.inputStack with
  | nil => simp [step, hs]
  | cons f frames =>
      rcases hno with hno | hno | hno | hno | hno
      · simp [hs] at hno
      · simp [step, hs, hno]
      · simp [step, hs, hno]
      · simp [step, hs, hno]
      · simp [step, hs, hno]

/-- An iteration whose conditions have come to an end is not changed by more calls. -/
lemma step_mono (hnm : n ≤ m) (h : p.step disk n ≠ .diverged) : p.step disk m = p.step disk n := by
  cases hahead : p.directiveAhead with
  | none => exact step_of_not_ahead hahead m n
  | some t =>
      rw [step_of_ahead hahead, step_of_ahead hahead]
      cases hproc : processDirective disk n t p.handlerState with
      | none => exact absurd (by rw [step_of_ahead hahead, hproc]) h
      | some result => rw [processDirective_mono hnm hproc]

/-! ## Runs that end -/

/-- Every condition that the run from `p` evaluates comes to an end. -/
def ConditionsReturn (disk : Disk) (p : Preprocessor) : Prop :=
  ∀ q, Runs disk p q → ∃ n, q.step disk n ≠ .diverged

/-- `process` started in `p` comes to an end. -/
def Halts (disk : Disk) (p : Preprocessor) : Prop := ∃ result, Returns disk p result

lemma steps_of_step (h : p.step disk n = .next q) : Steps disk p q := by
  refine ⟨n, fun m hm => ?_⟩
  rw [step_mono hm (by rw [h]; exact fun hc => by cases hc), h]

lemma Steps.unique (h : Steps disk p q) (h' : Steps disk p r) : q = r := by
  rcases h with ⟨N, hN⟩
  rcases h' with ⟨M, hM⟩
  have heq := (hN (max N M) (le_max_left _ _)).symm.trans (hM (max N M) (le_max_right _ _))
  cases heq
  rfl

/-- An iteration that does not go on ends the run. -/
lemma returns_of_last (h : p.step disk n ≠ .diverged) (hlast : ∀ q, p.step disk n ≠ .next q) :
    Halts disk p := by
  have hend : ∃ result, ∀ m ≥ n, process disk (m + 1) p = some result := by
    cases hstep : p.step disk n with
    | next q => exact absurd hstep (hlast q)
    | diverged => exact absurd hstep h
    | finished => exact ⟨_, fun m hm => by rw [process, step_mono hm h, hstep]⟩
    | failed code q => exact ⟨_, fun m hm => by rw [process, step_mono hm h, hstep]⟩
  rcases hend with ⟨result, hresult⟩
  refine ⟨result, n + 1, fun m hm => ?_⟩
  rcases Nat.exists_eq_add_of_le' hm with ⟨k, rfl⟩
  exact hresult (k + n) (Nat.le_add_left n k)

lemma not_steps_of_last (h : p.step disk n ≠ .diverged) (hlast : ∀ q, p.step disk n ≠ .next q) :
    ¬ Steps disk p q := by
  rintro ⟨N, hN⟩
  have hstep := hN (max n N) (le_max_right _ _)
  rw [step_mono (le_max_left _ _) h] at hstep
  exact hlast q hstep

/-! ## Counting what is left -/

/-- The bytes that are left in each frame. -/
def remaining (p : Preprocessor) : List ℕ := p.inputStack.map fun f => f.content.size - f.cursor

/-- What is forward of a state has the same frames, up to the cursor of the top one. -/
lemma Forward.frames {f : SourceFrame} {frames : List SourceFrame} (h : Forward p q)
    (hs : p.inputStack = f :: frames) :
    q.inputStack = { f with cursor := q.cursor } :: frames := by
  have hstack := h.stacked (by simp [hs])
  rcases List.exists_cons_of_ne_nil hstack with ⟨g, frames', hg⟩
  have hbelow := h.below
  have hcontent := h.content
  rw [hs, hg] at hbelow hcontent
  have hcur : q.cursor = g.cursor := by simp [Preprocessor.cursor, top, hg]
  rw [hg, hcur]
  rcases g with ⟨content, cur⟩
  rw [show frames' = frames from hbelow, show content = f.content from Option.some.inj hcontent]

lemma Forward.remaining {f : SourceFrame} {frames : List SourceFrame} (h : Forward p q)
    (hs : p.inputStack = f :: frames) (hend : p.cursor < p.size) (hlt : p.cursor < q.cursor) :
    ∃ l < f.content.size - f.cursor,
      q.remaining = l :: frames.map fun f => f.content.size - f.cursor := by
  have hsize : p.size = f.content.size := by
    simp [Preprocessor.size, Preprocessor.sourceContent, top, hs]
  have hcur : p.cursor = f.cursor := by simp [Preprocessor.cursor, top, hs]
  refine ⟨f.content.size - q.cursor, by omega, ?_⟩
  rw [Preprocessor.remaining, h.frames hs]
  rfl

/-- An iteration is a turn of the counters. -/
lemma Turn.counters (h : Turn disk p q) : Stacks.Turn p.remaining q.remaining := by
  cases h with
  | pop hs hend =>
      rcases List.exists_cons_of_ne_nil hs with ⟨f, frames, hf⟩
      rw [remaining, remaining, hf]
      exact .pop _ _
  | advance hs hend h hlt =>
      rcases List.exists_cons_of_ne_nil hs with ⟨f, frames, hf⟩
      rcases h.remaining hf hend hlt with ⟨l, hl, hrem⟩
      rw [hrem, remaining, hf]
      exact .lower _ hl
  | @push q path hs hend ht h hlt hsize =>
      rcases List.exists_cons_of_ne_nil hs with ⟨f, frames, hf⟩
      rcases h.remaining hf hend hlt with ⟨l, hl, hrem⟩
      have hpush : (q.pushFile disk path).remaining =
          ((q.fileMgr.loadFile disk path).1.content.size - 0) :: q.remaining := rfl
      rw [hpush, hrem, remaining, hf]
      exact .push _ hl _

/-! ## Halting -/

/-- The depth of the input stack in the states of a run of at most so many iterations. -/
def deepest (disk : Disk) : ℕ → Preprocessor → ℕ
  | 0, p => p.inputStack.length
  | n + 1, p =>
      match p.step disk n with
      | .next q => max p.inputStack.length (deepest disk n q)
      | _ => p.inputStack.length

/-- A run that ends has met finitely many states. -/
lemma depth_le_deepest {result : ℤ × Preprocessor} (h : process disk n p = some result)
    (hq : Runs disk p q) : q.inputStack.length ≤ deepest disk n p := by
  induction n generalizing p with
  | zero => cases h
  | succ n ih =>
      rw [process] at h
      have hend (hdiv : p.step disk n ≠ .diverged) (hlast : ∀ q, p.step disk n ≠ .next q) :
          q.inputStack.length ≤ p.inputStack.length := by
        rcases hq.cases_head with rfl | ⟨r, hr, -⟩
        · exact le_rfl
        · exact absurd hr (not_steps_of_last hdiv hlast)
      rw [deepest]
      cases hstep : p.step disk n with
      | next p' =>
          rw [hstep] at h
          rcases hq.cases_head with rfl | ⟨r, hr, hrq⟩
          · exact le_max_left _ _
          · rw [hr.unique (steps_of_step hstep)] at hrq
            exact (ih h hrq).trans (le_max_right _ _)
      | failed code q => exact hend (by simp [hstep]) (by simp [hstep])
      | finished => exact hend (by simp [hstep]) (by simp [hstep])
      | diverged =>
          rw [hstep] at h
          cases h

lemma halts_of_depth_bounded (hcond : ConditionsReturn disk p) {depth : ℕ}
    (hdepth : ∀ q, Runs disk p q → q.inputStack.length ≤ depth) : Halts disk p := by
  have hall : ∀ s : List ℕ, ∀ q, Runs disk p q → q.remaining = s → Halts disk q := by
    intro s
    induction s using (Stacks.wellFounded_below depth).induction with
    | _ s ih =>
      rintro q hq rfl
      rcases hcond q hq with ⟨n, hn⟩
      by_cases hnext : ∃ r, q.step disk n = .next r
      · rcases hnext with ⟨r, hr⟩
        have hsteps := steps_of_step hr
        have hrun := hq.tail hsteps
        have hlen : r.remaining.length ≤ depth := by
          rw [remaining, List.length_map]
          exact hdepth r hrun
        rcases ih r.remaining ⟨(turn_of_steps hsteps).counters, hlen⟩ r hrun rfl with
          ⟨result, hresult⟩
        exact ⟨result, hresult.of_steps hsteps⟩
      · exact returns_of_last hn fun r hr => hnext ⟨r, hr⟩
  exact hall _ p .refl rfl

/-- **Preprocessing halts unless inclusions nest without bound.** -/
theorem halts_iff_depth_bounded {basePath filePath : List Byte}
    (hcond : ConditionsReturn disk (ofFile disk basePath filePath)) :
    Halts disk (ofFile disk basePath filePath) ↔
      ∃ depth, ∀ q, Runs disk (ofFile disk basePath filePath) q → q.inputStack.length ≤ depth := by
  constructor
  · rintro ⟨result, N, hN⟩
    exact ⟨_, fun _ hq => depth_le_deepest (hN N le_rfl) hq⟩
  · rintro ⟨depth, hdepth⟩
    exact halts_of_depth_bounded hcond hdepth

/-- The conditions of a run that ends have come to an end. -/
lemma conditionsReturn_of_process {result : ℤ × Preprocessor}
    (h : process disk n p = some result) : ConditionsReturn disk p := by
  induction n generalizing p with
  | zero => cases h
  | succ n ih =>
      rw [process] at h
      have hdiv : p.step disk n ≠ .diverged := by
        intro hdiv
        rw [hdiv] at h
        cases h
      intro q hq
      rcases hq.cases_head with rfl | ⟨r, hr, hrq⟩
      · exact ⟨n, hdiv⟩
      · cases hstep : p.step disk n with
        | next p' =>
            rw [hstep] at h
            rw [hr.unique (steps_of_step hstep)] at hrq
            exact ih h q hrq
        | failed code q => exact absurd hr (not_steps_of_last hdiv (by simp [hstep]))
        | finished => exact absurd hr (not_steps_of_last hdiv (by simp [hstep]))
        | diverged => exact absurd hstep hdiv

/-- One file that includes itself behind a guard. -/
def guardedDisk : Disk := fun path =>
  if path = bytes "f" then some (bytes "#ifndef G\n#define G\n#include \"f\"\na\n#endif\n") else none

set_option maxRecDepth 20000 in
/-- The guard cuts the inclusion at the second frame. -/
theorem guarded_file_halts :
    (∀ q, Runs guardedDisk (ofFile guardedDisk [] (bytes "f")) q → q.inputStack.length ≤ 2) ∧
      Halts guardedDisk (ofFile guardedDisk [] (bytes "f")) := by
  have hrun : ∃ result,
      process guardedDisk 10 (ofFile guardedDisk [] (bytes "f")) = some result := ⟨_, rfl⟩
  rcases hrun with ⟨result, hresult⟩
  have hdeepest : deepest guardedDisk 10 (ofFile guardedDisk [] (bytes "f")) = 2 := rfl
  have hdepth : ∀ q, Runs guardedDisk (ofFile guardedDisk [] (bytes "f")) q →
      q.inputStack.length ≤ 2 := fun q hq => hdeepest ▸ depth_le_deepest hresult hq
  exact ⟨hdepth, (halts_iff_depth_bounded (conditionsReturn_of_process hresult)).mpr ⟨2, hdepth⟩⟩

/-! ### A file that includes itself -/

/-- One file, of one line that includes it. -/
def selfDisk : Disk := fun path =>
  if path = bytes "f" then some (bytes "#include \"f\"\n") else none

/-- The file lies on the given frames, its cursor at `cursor`. -/
def selfState (frames : List SourceFrame) (active : MacroType) (cursor : ℕ) : Preprocessor :=
  { ofFile selfDisk [] (bytes "f") with
    inputStack := { content := { offset := 2, size := 13 }, cursor } :: frames
    currActive := active }

lemma at_selfState (frames : List SourceFrame) (active : MacroType) :
    At (selfState frames active 0) [] (bytes "#include" ++ bytes " \"f\"\n") := by
  refine ⟨by simp [selfState], rfl, rfl, rfl, ?_⟩
  show 13 < 2 ^ 32
  decide

set_option maxRecDepth 20000 in
/-- The inclusion pushes the file once more. -/
lemma handleInclude_selfState (frames : List SourceFrame) :
    (selfState frames .Include 8).handleInclude selfDisk =
      (0, selfState ({ content := { offset := 2, size := 13 }, cursor := 13 } :: frames)
        .Include 0) := by
  have hol : (selfState frames .Include 8).ol = selfState frames .Include 9 := rfl
  have hend : (selfState frames .Include 9).atEnd = false := rfl
  have hquote : (selfState frames .Include 9).currChar = '"'.toUInt8 := rfl
  have hopen : (selfState frames .Include 9).bump 1 = selfState frames .Include 10 := rfl
  have hclose : (selfState frames .Include 10).findNext '"' = some 11 := rfl
  have hpath : (selfState frames .Include 10).fileMgr.read
      ((selfState frames .Include 10).toCursor 11) = bytes "f" := rfl
  have hbehind : (selfState frames .Include 10).setCursor (11 + 1) =
      selfState frames .Include 12 := rfl
  have hline : (selfState frames .Include 12).pastFound
      ((selfState frames .Include 12).findNext '\n') = selfState frames .Include 13 := rfl
  have hload : (selfState frames .Include 13).fileMgr.loadFile selfDisk (bytes "f") =
      ({ offsetBegin := 0, nameSize := 1, fileSize := 13 },
        (selfState frames .Include 13).fileMgr) := rfl
  rw [handleInclude]
  simp only [hol, hend, hquote, hopen, hclose, hpath, hbehind, hline, hload, Bool.false_eq_true,
    if_false, if_true, ne_eq, not_true_eq_false, false_and]
  rfl

lemma step_selfState (frames : List SourceFrame) (active : MacroType) (n : ℕ) :
    (selfState frames active 0).step selfDisk n =
      .next (selfState ({ content := { offset := 2, size := 13 }, cursor := 13 } :: frames)
        .Include 0) := by
  have hname : Directive (bytes "#include") (bytes " \"f\"\n") :=
    ⟨by decide, by decide, by decide⟩
  rw [step_directive selfDisk n (at_selfState frames active) hname,
    show macroHashMatch (bytes "#include") = .Include by decide +kernel]
  show afterDirective ((selfState frames .Include 8).handleInclude selfDisk) = _
  rw [handleInclude_selfState]
  rfl

lemma runs_selfState (h : Runs selfDisk (ofFile selfDisk [] (bytes "f")) q) :
    ∃ frames active, q = selfState frames active 0 := by
  induction h with
  | refl => exact ⟨[], .None, rfl⟩
  | tail _ hstep ih =>
      rcases ih with ⟨frames, active, rfl⟩
      exact ⟨_, _, hstep.unique (.of_forall (step_selfState frames active))⟩

/-- **The file that includes itself is preprocessed for ever.** -/
theorem self_inclusion_never_halts :
    {path | (selfDisk path).isSome = true}.Finite ∧
      ConditionsReturn selfDisk (ofFile selfDisk [] (bytes "f")) ∧
        ¬ Halts selfDisk (ofFile selfDisk [] (bytes "f")) := by
  refine ⟨(Set.finite_singleton (bytes "f")).subset fun path hpath => ?_, fun q hq => ?_, ?_⟩
  · by_contra hne
    have hnone : selfDisk path = none := if_neg hne
    have hsome : (selfDisk path).isSome = true := hpath
    rw [hnone] at hsome
    cases hsome
  · rcases runs_selfState hq with ⟨frames, active, rfl⟩
    exact ⟨0, by rw [step_selfState]; exact fun hc => by cases hc⟩
  · rintro ⟨result, N, hN⟩
    have hnever : ∀ n frames active, process selfDisk n (selfState frames active 0) = none := by
      intro n
      induction n with
      | zero => exact fun _ _ => rfl
      | succ n ih =>
          intro frames active
          rw [process, step_selfState]
          exact ih _ _
    have hend := hN N le_rfl
    rw [show ofFile selfDisk [] (bytes "f") = selfState [] .None 0 from rfl, hnever] at hend
    cases hend

end Preprocessor

end LogicCompiler
