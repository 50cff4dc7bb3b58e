import LogicCompiler.Preproc.Process
import Mathlib.Logic.Relation

/-!
# The cursor in its frame

Everything the preprocessor reads it reads through the top frame.  `At p pre post` says what that
frame holds and where the cursor stands in it; under it each cursor helper has a closed form in
terms of `post` alone, and moving the cursor moves bytes from `post` to `pre`.

`Runs` is the run of the main loop as a relation, and `Returns` what `process` returns.  A
condition may need any number of nested calls, so a step counts as taken when it is taken with all
large enough numbers of them.
-/

namespace LogicCompiler

namespace Preprocessor

variable {p q : Preprocessor} {pre post a r s : List Byte}

/-! ## What the helpers leave alone -/

section Frame

variable (p) (n k : ℕ)

@[simp] lemma setCursor_fileMgr : (p.setCursor n).fileMgr = p.fileMgr := rfl

@[simp] lemma setCursor_storedMacros : (p.setCursor n).storedMacros = p.storedMacros := rfl

@[simp] lemma setCursor_branchFlags : (p.setCursor n).branchFlags = p.branchFlags := rfl

@[simp] lemma setCursor_outputBuffer : (p.setCursor n).outputBuffer = p.outputBuffer := rfl

@[simp] lemma setCursor_currActive : (p.setCursor n).currActive = p.currActive := rfl

@[simp] lemma setCursor_setCursor : (p.setCursor n).setCursor k = p.setCursor k := by
  rcases p with ⟨fm, out, stack, macros, flags, active⟩
  cases stack <;> rfl

lemma setCursor_self : p.setCursor p.cursor = p := by
  rcases p with ⟨fm, out, stack, macros, flags, active⟩
  cases stack <;> rfl

@[simp] lemma setCursor_inputStack_tail : (p.setCursor n).inputStack.tail = p.inputStack.tail := by
  rcases p with ⟨fm, out, stack, macros, flags, active⟩
  cases stack <;> rfl

@[simp] lemma setCursor_inputStack_eq_nil : (p.setCursor n).inputStack = [] ↔ p.inputStack = [] := by
  rcases p with ⟨fm, out, stack, macros, flags, active⟩
  cases stack <;> simp [setCursor]

@[simp] lemma setCursor_sourceContent : (p.setCursor n).sourceContent = p.sourceContent := by
  rcases p with ⟨fm, out, stack, macros, flags, active⟩
  cases stack <;> rfl

@[simp] lemma setCursor_size : (p.setCursor n).size = p.size := by simp [size]

/-- The cursor that is set is the cursor. -/
lemma setCursor_cursor (h : p.inputStack ≠ []) : (p.setCursor n).cursor = n := by
  obtain ⟨f, frames, hf⟩ := List.exists_cons_of_ne_nil h
  simp [cursor, top, setCursor, hf]

@[simp] lemma bump_zero : p.bump 0 = p := setCursor_self p

/-- Two movements are one. -/
lemma bump_bump : (p.bump n).bump k = p.bump (n + k) := by
  by_cases h : p.inputStack = []
  · simp [bump, setCursor, h]
  · simp [bump, setCursor_cursor _ _ h, Nat.add_assoc]

@[simp] lemma emit_nil : p.emit [] = p := by simp [emit]

/-- Output and movement do not depend on each other. -/
lemma emit_bump : (p.emit s).bump n = (p.bump n).emit s := rfl

/-- Two pieces of output are one. -/
lemma emit_emit (t : List Byte) : (p.emit s).emit t = p.emit (s ++ t) := by
  simp [emit, List.append_assoc]

end Frame

/-! ## Where the cursor stands -/

/-- The top frame holds `pre ++ post`, and its cursor stands between the two. -/
structure At (p : Preprocessor) (pre post : List Byte) : Prop where
  stacked : p.inputStack ≠ []
  text : p.fileMgr.read p.sourceContent = pre ++ post
  cursor : p.cursor = pre.length
  size : p.size = pre.length + post.length
  small : p.size < 2 ^ 32

namespace At

/-- Only the file store and the top frame matter. -/
lemma congr (h : At p pre post) (hfm : q.fileMgr = p.fileMgr) (hst : q.inputStack = p.inputStack) :
    At q pre post := by
  have htop : q.top = p.top := by simp [top, hst]
  refine ⟨hst ▸ h.stacked, ?_, ?_, ?_, ?_⟩
  · rw [hfm, sourceContent, htop]; exact h.text
  · rw [Preprocessor.cursor, htop]; exact h.cursor
  · rw [Preprocessor.size, sourceContent, htop]; exact h.size
  · rw [Preprocessor.size, sourceContent, htop]; exact h.small

/-- What is left is the text behind the cursor. -/
lemma rest (h : At p pre post) : p.rest = post := by
  rw [Preprocessor.rest, h.text, h.cursor, List.drop_left]

lemma atEnd (h : At p pre post) : p.atEnd = decide (post = []) := by
  rw [Preprocessor.atEnd, h.size, h.cursor]
  congr 1
  rw [← List.length_eq_zero_iff]
  exact propext ⟨fun hle => by omega, fun hz => by omega⟩

lemma atEnd_nil (h : At p pre []) : p.atEnd = true := by simp [h.atEnd]

lemma atEnd_cons {c : Byte} (h : At p pre (c :: post)) : p.atEnd = false := by simp [h.atEnd]

/-- The bytes behind the cursor are bytes of the frame. -/
lemma getChar {c : Byte} (h : At p pre (a ++ c :: post)) :
    p.getChar (p.cursor + a.length) = c := by
  have htext := h.text
  have hget : (p.fileMgr.read p.sourceContent).getD (p.cursor + a.length) 0 = c := by
    rw [htext, h.cursor, ← List.append_assoc, ← List.length_append]
    simp [List.getD_eq_getElem?_getD]
  have hlt : p.cursor + a.length < p.sourceContent.size := by
    have := h.size
    rw [Preprocessor.size] at this
    simp only [List.length_append, List.length_cons] at this
    rw [h.cursor]; omega
  rw [Preprocessor.getChar, FileManager.getChar]
  rw [FileManager.read, List.getD_eq_getElem?_getD, List.getElem?_take_of_lt hlt,
    List.getElem?_drop, ← List.getD_eq_getElem?_getD] at hget
  exact hget

/-- The byte at the cursor. -/
lemma currChar {c : Byte} (h : At p pre (c :: post)) : p.currChar = c :=
  At.getChar (a := []) h

/-- The byte behind the one at the cursor. -/
lemma nextChar {c d : Byte} (h : At p pre (c :: d :: post)) :
    p.cursor + 1 < p.size ∧ p.getChar (p.cursor + 1) = d := by
  refine ⟨?_, At.getChar (a := [c]) h⟩
  rw [h.cursor, h.size]
  simp

lemma lastChar {c : Byte} (h : At p pre [c]) : ¬ p.cursor + 1 < p.size := by
  rw [h.cursor, h.size]
  simp

/-- Moving the cursor over `a`. -/
lemma bump (h : At p pre (a ++ post)) : At (p.bump a.length) (pre ++ a) post := by
  refine ⟨?_, ?_, ?_, ?_, ?_⟩
  · rw [Preprocessor.bump, Ne, setCursor_inputStack_eq_nil]; exact h.stacked
  · rw [Preprocessor.bump, setCursor_fileMgr, setCursor_sourceContent, h.text, List.append_assoc]
  · rw [Preprocessor.bump, setCursor_cursor _ _ h.stacked, h.cursor, List.length_append]
  · rw [Preprocessor.bump, setCursor_size, h.size]
    simp only [List.length_append]; omega
  · rw [Preprocessor.bump, setCursor_size]; exact h.small

/-- One byte further. -/
lemma bump_one {c : Byte} (h : At p pre (c :: post)) : At (p.bump 1) (pre ++ [c]) post :=
  At.bump (a := [c]) h

lemma emit (h : At p pre post) : At (p.emit s) pre post := h.congr rfl rfl

/-- `from` over what has been read last. -/
lemma read_from (h : At p (pre ++ a) post) : p.fileMgr.read (p.fromCursor pre.length) = a := by
  have hsize := h.size
  have hsmall := h.small
  have hlen : (p.cursor + (2 ^ 32 - pre.length)) % 2 ^ 32 = a.length := by
    rw [h.cursor]
    rw [hsize] at hsmall
    simp only [List.length_append] at hsmall ⊢
    omega
  have htext := h.text
  rw [FileManager.read] at htext
  have hdrop := congrArg (List.drop pre.length) htext
  rw [List.append_assoc, List.drop_left, List.drop_take, List.drop_drop] at hdrop
  rw [FileManager.read, fromCursor, hlen]
  have htake := congrArg (List.take a.length) hdrop
  rw [List.take_left, List.take_take, min_eq_left] at htake
  · exact htake
  · rw [Preprocessor.size] at hsize
    simp only [List.length_append] at hsize
    omega

/-- `to` over what is read next. -/
lemma read_to (h : At p pre (a ++ post)) :
    p.fileMgr.read (p.toCursor (p.cursor + a.length)) = a := by
  have hsize := h.size
  have htext := h.text
  rw [FileManager.read] at htext
  have hdrop := congrArg (List.drop pre.length) htext
  rw [List.drop_left, List.drop_take, List.drop_drop] at hdrop
  rw [FileManager.read, toCursor, h.cursor, Nat.add_sub_cancel_left]
  have htake := congrArg (List.take a.length) hdrop
  rw [List.take_left, List.take_take, min_eq_left] at htake
  · exact htake
  · rw [Preprocessor.size] at hsize
    simp only [List.length_append] at hsize
    omega

end At

/-- `p` stands at the beginning of its last frame, which holds `text`. -/
structure Opens (p : Preprocessor) (text : List Byte) : Prop where
  frame : ∃ f, p.inputStack = [f] ∧ f.cursor = 0 ∧ f.content.size = text.length ∧
    p.fileMgr.read f.content = text
  small : text.length < 2 ^ 32

/-- A text that is opened stands behind the cursor as a whole. -/
lemma Opens.at {text : List Byte} (h : Opens p text) : At p [] text := by
  obtain ⟨⟨f, hstack, hcursor, hsize, htext⟩, hsmall⟩ := h
  have htop : p.top = f := by simp [top, hstack]
  refine ⟨by simp [hstack], ?_, ?_, ?_, ?_⟩
  · rw [sourceContent, htop, htext, List.nil_append]
  · rw [cursor, htop, hcursor, List.length_nil]
  · rw [size, sourceContent, htop, hsize, List.length_nil, Nat.zero_add]
  · rw [size, sourceContent, htop, hsize]
    exact hsmall

/-- A preprocessor whose file buffer is one text. -/
def ofText (text : List Byte) : Preprocessor where
  fileMgr := { data := text }
  inputStack := [{ content := { offset := 0, size := text.length }, cursor := 0 }]

/-- A text below `2 ^ 32` bytes can be opened. -/
lemma opens_ofText {text : List Byte} (h : text.length < 2 ^ 32) : Opens (ofText text) text :=
  ⟨⟨_, rfl, rfl, rfl, by simp [ofText, FileManager.read]⟩, h⟩

namespace At

/-! ## Searching -/

/-- The first byte of its kind is found. -/
lemma findNext {c : Char} (h : At p pre (a ++ c.toUInt8 :: post)) (ha : c.toUInt8 ∉ a) :
    p.findNext c = some (p.cursor + a.length) := by
  rw [Preprocessor.findNext, h.rest, Search.findIdx?_append_cons ha]
  rfl

lemma findNext_none {c : Char} (h : At p pre post) (hc : c.toUInt8 ∉ post) :
    p.findNext c = none := by
  rw [Preprocessor.findNext, h.rest, Search.findIdx?_of_notMem hc]
  rfl

/-- The cursor behind the next newline. -/
lemma pastLine (h : At p pre (a ++ '\n'.toUInt8 :: post)) (ha : '\n'.toUInt8 ∉ a) :
    p.setCursor (p.orSizeAdd (p.findNext '\n') 1) = p.bump (a.length + 1) := by
  rw [h.findNext ha]
  rfl

/-- The cursor behind the next newline, as the directive handlers write it. -/
lemma pastFound (h : At p pre (a ++ '\n'.toUInt8 :: post)) (ha : '\n'.toUInt8 ∉ a) :
    p.pastFound (p.findNext '\n') = p.bump (a.length + 1) := by
  rw [h.findNext ha]
  rfl

lemma bump_size (h : At p pre post) : p.setCursor p.size = p.bump post.length := by
  rw [Preprocessor.bump, h.size, h.cursor]

/-- The cursor at the end of the frame when no newline follows. -/
lemma pastLine_none (h : At p pre post) (hn : '\n'.toUInt8 ∉ post) :
    p.setCursor (p.orSizeAdd (p.findNext '\n') 1) = p.bump post.length := by
  rw [h.findNext_none hn]
  exact h.bump_size

/-- The first occurrence of a sequence is found. -/
lemma findNextSeq {needle : String} (h : At p pre (a ++ (bytes needle ++ post)))
    (hne : bytes needle ≠ []) (ha : Search.FirstBefore (bytes needle) a) :
    p.findNextSeq needle = some (p.cursor + a.length) := by
  rw [Preprocessor.findNextSeq, h.rest, Search.findSeq_of_firstBefore post hne ha]
  rfl

lemma findNextSeq_none {needle : String} (h : At p pre post) (hne : bytes needle ≠ [])
    (hn : ¬ bytes needle <:+: post) : p.findNextSeq needle = none := by
  rw [Preprocessor.findNextSeq, h.rest, (Search.findSeq_eq_none_iff hne).mpr hn]
  rfl

/-- The cursor `k` bytes behind the beginning of the next `needle`. -/
lemma pastSeq {needle : String} (k : ℕ) (h : At p pre (a ++ (bytes needle ++ post)))
    (hne : bytes needle ≠ []) (ha : Search.FirstBefore (bytes needle) a) :
    p.setCursor (p.orSizeAdd (p.findNextSeq needle) k) = p.bump (a.length + k) := by
  rw [h.findNextSeq hne ha]
  rw [orSizeAdd, Option.map_some, Option.getD_some, Preprocessor.bump, Nat.add_assoc]

lemma pastSeq_none {needle : String} (k : ℕ) (h : At p pre post) (hne : bytes needle ≠ [])
    (hn : ¬ bytes needle <:+: post) :
    p.setCursor (p.orSizeAdd (p.findNextSeq needle) k) = p.bump post.length := by
  rw [h.findNextSeq_none hne hn]
  exact h.bump_size

/-- The cursor behind the identifier characters it stands on. -/
lemma skipIdent (h : At p pre (a ++ post)) (ha : ∀ c ∈ a, isIdentChar c = true)
    (hpost : ∀ c ∈ post.head?, isIdentChar c = false) : p.skipIdent = p.bump a.length := by
  have hnone : a.findIdx? (fun c => !isIdentChar c) = none := by
    rw [List.findIdx?_eq_none_iff]
    intro c hc
    simp [ha c hc]
  have hrest := h.rest
  rcases post with _ | ⟨d, post⟩
  · rw [List.append_nil] at h
    rw [Preprocessor.skipIdent, findNextIdentInv, h.rest]
    simp only [isIn_identCharBitmask, hnone, Option.map_none, orSize, Option.getD_none]
    exact h.bump_size
  · have hd : isIdentChar d = false := hpost d rfl
    rw [Preprocessor.skipIdent, findNextIdentInv, hrest]
    simp [List.findIdx?_append, hnone, List.findIdx?_cons, hd, orSize, Preprocessor.bump]

end At

/-- Copying what has just been read. -/
lemma copyFrom_bump (h : At p pre (a ++ post)) :
    (p.bump a.length).copyFrom p.cursor = (p.bump a.length).emit a := by
  rw [copyFrom, h.cursor, h.bump.read_from]

/-! ## Moving on -/

/-- `q` is `p` with `n` bytes read and `out` written.  Nothing is said about the branch flags and
the directive that is being handled. -/
structure Moved (p q : Preprocessor) (n : ℕ) (out : List Byte) : Prop where
  fileMgr : q.fileMgr = p.fileMgr
  storedMacros : q.storedMacros = p.storedMacros
  inputStack : q.inputStack = (p.bump n).inputStack
  outputBuffer : q.outputBuffer = p.outputBuffer ++ out

namespace Moved

/-- A movement alone. -/
lemma bump (p : Preprocessor) (n : ℕ) : Moved p (p.bump n) n [] :=
  ⟨rfl, rfl, rfl, (List.append_nil _).symm⟩

/-- One movement behind another. -/
lemma trans {q' : Preprocessor} {n m : ℕ} {s t : List Byte} (h : Moved p q n s)
    (h' : Moved q q' m t) : Moved p q' (n + m) (s ++ t) := by
  have hcur : q.cursor = (p.bump n).cursor := by simp only [cursor, top, h.inputStack]
  refine ⟨h'.fileMgr.trans h.fileMgr, h'.storedMacros.trans h.storedMacros, ?_, ?_⟩
  · rw [h'.inputStack, ← bump_bump, Preprocessor.bump, hcur]
    show q.inputStack.modifyHead _ = (p.bump n).inputStack.modifyHead _
    rw [h.inputStack]
  · rw [h'.outputBuffer, h.outputBuffer, List.append_assoc]

lemma trans_bump {n : ℕ} (h : Moved p q n s) (k : ℕ) : Moved p (q.bump k) (n + k) s := by
  have h' := h.trans (Moved.bump q k)
  rwa [List.append_nil] at h'

/-- Where the cursor stands afterwards. -/
lemma at_end {out : List Byte} (h : Moved p q a.length out) (hat : At p pre (a ++ post)) :
    At q (pre ++ a) post := hat.bump.congr h.fileMgr h.inputStack

/-- The macros stay. -/
lemma isDefined {n : ℕ} (h : Moved p q n s) : q.isDefined = p.isDefined := by
  funext name
  simp [Preprocessor.isDefined, h.storedMacros]

end Moved

/-! ## Runs -/

/-- One iteration of the main loop leads from `p` to `q`. -/
def Steps (disk : Disk) (p q : Preprocessor) : Prop := ∃ N, ∀ n ≥ N, p.step disk n = .next q

/-- The main loop leads from `p` to `q`. -/
def Runs (disk : Disk) : Preprocessor → Preprocessor → Prop := Relation.ReflTransGen (Steps disk)

/-- `process` started in `p` comes to an end, with this result. -/
def Returns (disk : Disk) (p : Preprocessor) (result : ℤ × Preprocessor) : Prop :=
  ∃ N, ∀ n ≥ N, process disk n p = some result

variable {disk : Disk} {result : ℤ × Preprocessor}

lemma Steps.of_forall (h : ∀ n, p.step disk n = .next q) : Steps disk p q := ⟨0, fun n _ => h n⟩

lemma Returns.of_steps (hs : Steps disk p q) (hr : Returns disk q result) :
    Returns disk p result := by
  obtain ⟨N, hN⟩ := hs
  obtain ⟨M, hM⟩ := hr
  refine ⟨N + M + 1, fun n hn => ?_⟩
  obtain ⟨m, rfl⟩ : ∃ m, n = m + 1 := ⟨n - 1, by omega⟩
  rw [process, hN m (by omega)]
  exact hM m (by omega)

lemma Returns.of_runs (hs : Runs disk p q) (hr : Returns disk q result) :
    Returns disk p result := by
  induction hs using Relation.ReflTransGen.head_induction_on with
  | refl => exact hr
  | head hstep _ ih => exact ih.of_steps hstep

lemma Returns.of_finished (h : p.inputStack = []) : Returns disk p (0, p) := by
  refine ⟨1, fun n hn => ?_⟩
  obtain ⟨m, rfl⟩ : ∃ m, n = m + 1 := ⟨n - 1, by omega⟩
  simp [process, step, h]

/-- A run returns once. -/
lemma Returns.unique {result' : ℤ × Preprocessor} (h : Returns disk p result)
    (h' : Returns disk p result') : result = result' := by
  obtain ⟨N, hN⟩ := h
  obtain ⟨M, hM⟩ := h'
  have h1 := hN (N + M) (by omega)
  rw [hM (N + M) (by omega)] at h1
  exact (Option.some.inj h1).symm

/-- The end of a frame. -/
lemma step_pop (disk : Disk) (h : At p pre []) : Steps disk p { p with inputStack := p.inputStack.tail } := by
  refine Steps.of_forall fun n => ?_
  obtain ⟨f, frames, hf⟩ := List.exists_cons_of_ne_nil h.stacked
  simp [step, hf, h.atEnd_nil]

end Preprocessor

end LogicCompiler
