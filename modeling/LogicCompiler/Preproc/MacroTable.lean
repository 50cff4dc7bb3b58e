import LogicCompiler.Preproc.Definitions

/-!
# The table of macros

The law of the table, over any table at all: `#define` and `#define_m` bind the names of their list to
one body and leave the others, `#param` takes its own name out, and a handler that fails leaves the
table and the output alone.  The part about `#param` depends on the type: where its parentheses wrap
the count, a line can succeed with another name than its own (`macroTableLaw_iff`).
-/

namespace LogicCompiler

namespace Preprocessor

variable {p q : Preprocessor} {disk : Disk} {n : ℕ} {pre post T : List Byte}

/-! ## `#define_m` -/

/-- A byte that ends the list of names of `#define_m`. -/
def ListEnds (post : List Byte) : Prop :=
  ∀ c ∈ post.head?, isIdentChar c = false ∧ isBlank c = false ∧ c ≠ '&'.toUInt8

lemma head_tailText (xs : List Piece) (hpost : ListEnds post) :
    ∀ c ∈ (Piece.tailText xs ++ post).head?, isIdentChar c = false ∧ isBlank c = false := by
  intro c hc
  cases xs with
  | nil => exact ⟨(hpost c hc).1, (hpost c hc).2.1⟩
  | cons x xs =>
      cases hc
      decide

/-- A name and the blanks behind it. -/
lemma ol_skipIdent {x : Piece} (hat : At p pre (x.name.1 ++ (x.after.s ++ post)))
    (hpost : ∀ c ∈ post.head?, isIdentChar c = false ∧ isBlank c = false) :
    p.skipIdent.ol = p.bump (x.name.1 ++ x.after.s).length := by
  have hskip : p.skipIdent = p.bump x.name.1.length := by
    refine hat.skipIdent x.name.2.2 ?_
    cases hafter : x.after.s with
    | nil => exact fun c hc => (hpost c hc).1
    | cons c b =>
        rintro d hd
        cases hd
        exact (isSpace_inert (isBlank_isSpace (x.after.blank c (by simp [hafter])))).2
  rw [hskip, hat.bump.ol x.after.blank fun c hc => (hpost c hc).2, bump_bump, List.length_append]

/-- The loop of `handle_define_m` over its names and the blanks around them. -/
lemma namesLoop_pieces {x : Piece} {xs : List Piece}
    (hat : At p pre (x.name.1 ++ (x.after.s ++ (Piece.tailText xs ++ post)))) (hpost : ListEnds post) :
    namesLoop (xs.length + 1 + n) p =
      p.bump (x.name.1 ++ (x.after.s ++ Piece.tailText xs)).length := by
  induction xs generalizing x p pre with
  | nil =>
      have hgo : p.atEnd = false := by
        rw [hat.atEnd]
        simp [x.name.2.1]
      have hbehind : At (p.bump (x.name.1 ++ x.after.s).length) (pre ++ (x.name.1 ++ x.after.s)) post :=
        At.bump (by simpa [Piece.tailText] using hat)
      have hstop : ¬ ((!(p.bump (x.name.1 ++ x.after.s).length).atEnd) = true ∧
          (p.bump (x.name.1 ++ x.after.s).length).currChar = '&'.toUInt8) := by
        rintro ⟨hend, hchar⟩
        cases post with
        | nil =>
            rw [At.atEnd_nil hbehind] at hend
            exact absurd hend (by decide)
        | cons c post => exact (hpost c rfl).2.2 (At.currChar hbehind ▸ hchar)
      rw [List.length_nil, Nat.zero_add, Nat.add_comm, namesLoop, if_neg (by simp [hgo])]
      dsimp only
      rw [ol_skipIdent hat (head_tailText [] hpost), if_neg hstop, Piece.tailText, List.flatMap_nil,
        List.append_nil]
  | cons y ys ih =>
      have hgo : p.atEnd = false := by
        rw [hat.atEnd]
        simp [x.name.2.1]
      have hbehind : At (p.bump (x.name.1 ++ x.after.s).length) (pre ++ (x.name.1 ++ x.after.s))
          ('&'.toUInt8 :: (y.before.s ++ (y.name.1 ++ (y.after.s ++ (Piece.tailText ys ++ post))))) :=
        At.bump (by simpa [Piece.tailText, Piece.text] using hat)
      have hol := hbehind.bump_one.ol y.before.blank fun c hc => by
        rw [List.head?_append_of_ne_nil _ y.name.2.1] at hc
        exact isIdentChar_not_blank (y.name.2.2 c (List.mem_of_head? hc))
      have hrest := ih hbehind.bump_one.bump
      rw [List.length_cons, Nat.add_right_comm _ 1 n, namesLoop, if_neg (by simp [hgo])]
      dsimp only
      rw [ol_skipIdent hat (head_tailText (y :: ys) hpost), if_pos, hol, hrest,
        bump_bump, bump_bump, bump_bump]
      · congr 1
        simp only [Piece.tailText, Piece.text, List.flatMap_cons, List.length_append, List.length_cons]
        omega
      · exact ⟨by rw [hbehind.atEnd_cons]; rfl, hbehind.currChar⟩

/-- A `#define_m` block: its names, with blanks around them, and the text up to its `#enddef`. -/
structure Block where
  name : Piece
  gap_ne : name.before.s ≠ []
  more : List Piece
  text : List Byte
  first : Search.FirstBefore (bytes "#enddef") ('\n'.toUInt8 :: text)

namespace Block

variable (B : Block)

/-- The names of the block. -/
def names : List (List Byte) := (B.name :: B.more).map (·.name.1)

/-- From the line end on, up to the `#enddef`. -/
def body : List Byte := '\n'.toUInt8 :: B.text

/-- The text behind `#define_m`, down to its `#enddef`. -/
def line : List Byte := Piece.span B.name B.more ++ (B.body ++ bytes "#enddef")

end Block

lemma length_le_tailText (xs : List Piece) : xs.length ≤ (Piece.tailText xs).length := by
  rw [Piece.tailText, List.length_flatMap, ← List.length_map]
  exact List.length_le_sum_of_one_le _ fun k hk => by
    rcases List.mem_map.mp hk with ⟨x, -, rfl⟩
    exact Nat.succ_le_succ (Nat.zero_le _)

lemma pastFound_fields (p : Preprocessor) (found : Option ℕ) :
    (p.pastFound found).fileMgr = p.fileMgr ∧ (p.pastFound found).storedMacros = p.storedMacros ∧
      (p.pastFound found).outputBuffer = p.outputBuffer := by
  cases found <;> exact ⟨rfl, rfl, rfl⟩

/-- `handle_define_m` binds the names to the text up to `#enddef`. -/
lemma handleDefineM_block {B : Block} (hat : At p pre (B.line ++ post)) :
    ∃ q d, p.handleDefineM = (0, q) ∧ q.fileMgr.read d.content = B.body ∧
      ∀ m, q.storedMacros m = if m ∈ B.names then some d else p.storedMacros m := by
  rcases B with ⟨x, hx, xs, text, hfirst⟩
  have hbody : ListEnds ('\n'.toUInt8 :: text ++ (bytes "#enddef" ++ post)) := by
    intro c hc
    cases hc
    decide
  have hat : At p pre (x.before.s ++ (x.name.1 ++ (x.after.s ++ (Piece.tailText xs ++
      ('\n'.toUInt8 :: text ++ (bytes "#enddef" ++ post)))))) := by
    simpa [Block.line, Block.body, Piece.span, Piece.text] using hat
  have hol := hat.ol x.before.blank fun c hc => by
    rw [List.head?_append_of_ne_nil _ x.name.2.1] at hc
    exact isIdentChar_not_blank (x.name.2.2 c (List.mem_of_head? hc))
  have hfuel : xs.length + 1 ≤ (p.bump x.before.s.length).rest.length := by
    rw [hat.bump.rest]
    have := length_le_tailText xs
    have := List.length_pos_of_ne_nil x.name.2.1
    simp only [List.length_append]
    omega
  rcases Nat.exists_eq_add_of_le hfuel with ⟨k, hk⟩
  have hloop := namesLoop_pieces (n := k) hat.bump hbody
  rw [← hk] at hloop
  have hnames : At (p.bump x.before.s.length) (pre ++ x.before.s)
      ((x.name.1 ++ (x.after.s ++ Piece.tailText xs)) ++
        ('\n'.toUInt8 :: text ++ (bytes "#enddef" ++ post))) := by
    simpa only [List.append_assoc] using hat.bump
  have hread := hnames.read_to
  have hbehind := hnames.bump
  have hfound := hbehind.findNextSeq (by decide) hfirst
  have hcontent := hbehind.read_to
  have hspan : x.name.1 ++ (x.after.s ++ Piece.tailText xs) =
      Piece.span ⟨⟨[], by decide⟩, x.name, x.after⟩ xs := by
    simp [Piece.span, Piece.text]
  have hcursor : ((p.bump x.before.s.length).bump
      (x.name.1 ++ (x.after.s ++ Piece.tailText xs)).length).cursor =
        (p.bump x.before.s.length).cursor + (x.name.1 ++ (x.after.s ++ Piece.tailText xs)).length := by
    rw [hbehind.cursor, hnames.cursor, List.length_append]
  have hsource : ((p.bump x.before.s.length).bump
      (x.name.1 ++ (x.after.s ++ Piece.tailText xs)).length).sourceContent =
        (p.bump x.before.s.length).sourceContent := setCursor_sourceContent _ _
  generalize hr : (p.bump x.before.s.length).bump
    (x.name.1 ++ (x.after.s ++ Piece.tailText xs)).length = r at hloop hbehind hfound hcontent hcursor hsource
  have hfile : r.fileMgr = p.fileMgr := by rw [← hr]; rfl
  have htable : r.storedMacros = p.storedMacros := by rw [← hr]; rfl
  have hspelled : r.fileMgr.read
      { offset := r.sourceContent.offset + (p.bump x.before.s.length).cursor,
        size := r.cursor - (p.bump x.before.s.length).cursor } =
      Piece.span ⟨⟨[], by decide⟩, x.name, x.after⟩ xs := by
    rw [hsource, hcursor, ← hspan, hfile]
    exact hread
  rw [handleDefineM, hol]
  dsimp only
  rw [hloop, hspelled, hfound]
  dsimp only
  generalize hs : (r.setCursor _).pastFound _ = s
  have hs : s.fileMgr = r.fileMgr ∧ s.storedMacros = r.storedMacros := by
    rw [← hs]
    exact ⟨(pastFound_fields _ _).1, (pastFound_fields _ _).2.1⟩
  set d : Defined := { content := r.toCursor (r.cursor + ('\n'.toUInt8 :: text).length), t := .Define_M }
  refine ⟨_, d, rfl, ?_, fun m => ?_⟩
  · rw [(registerNames_fields _ _ _).1, hs.1]
    exact hcontent
  · rw [registerNames_span, hs.2, htable]
    rfl

lemma namesLoop_fields (n : ℕ) (p : Preprocessor) :
    (namesLoop n p).storedMacros = p.storedMacros ∧ (namesLoop n p).outputBuffer = p.outputBuffer := by
  induction n generalizing p with
  | zero => exact ⟨rfl, rfl⟩
  | succ n ih =>
      rw [namesLoop]
      split
      · exact ⟨rfl, rfl⟩
      · dsimp only
        split
        · exact ih _
        · exact ⟨rfl, rfl⟩

/-- Without an `#enddef` nothing is registered. -/
lemma handleDefineM_unchanged (h : p.handleDefineM.1 < 0) :
    p.handleDefineM.2.storedMacros = p.storedMacros ∧
      p.handleDefineM.2.outputBuffer = p.outputBuffer := by
  have hfields := namesLoop_fields p.ol.rest.length p.ol
  generalize hr : namesLoop p.ol.rest.length p.ol = r at hfields
  cases hfound : r.findNextSeq "#enddef" with
  | none =>
      rw [handleDefineM]
      dsimp only
      rw [hr, hfound]
      exact hfields
  | some i =>
      rw [handleDefineM] at h
      dsimp only at h
      rw [hr, hfound] at h
      exact absurd h (lt_irrefl 0)

/-! ## `#param` -/

lemma parenLoop_fields {d e : ℕ} (h : parenLoop n d p = some (e, q)) :
    q.storedMacros = p.storedMacros ∧ q.outputBuffer = p.outputBuffer := by
  induction n generalizing d p with
  | zero =>
      cases h
      exact ⟨rfl, rfl⟩
  | succ n ih =>
      rw [parenLoop] at h
      have hbump {k : ℕ} (h : parenLoop n k (p.bump 1) = some (e, q)) :
          q.storedMacros = p.storedMacros ∧ q.outputBuffer = p.outputBuffer := by
        have hfields := ih h
        exact hfields
      split_ifs at h
      · cases h
        exact ⟨rfl, rfl⟩
      · exact hbump h
      · cases h
        exact ⟨rfl, rfl⟩
      · exact hbump h
      · exact hbump h

/-- Behind its last check `handle_param` does not fail. -/
lemma paramTail_code (t : List Byte) : (paramTail p t).1 = 0 ∨
    (paramTail p t).2.storedMacros = p.storedMacros ∧ (paramTail p t).2.outputBuffer = p.outputBuffer := by
  rw [paramTail]
  split
  · exact .inr ⟨rfl, rfl⟩
  · dsimp only
    split
    · exact .inr ⟨rfl, rfl⟩
    · split
      · exact .inr ⟨rfl, rfl⟩
      · exact .inl rfl

/-- `handle_param` behind the opening parenthesis. -/
lemma handleParam_eq (hopen : ¬ (p.ol.atEnd = true ∨ p.ol.currChar ≠ '('.toUInt8)) :
    p.handleParam = (parenLoop ((p.ol.bump 1).rest.length + 1) 1 (p.ol.bump 1)).elim
      (-400, p.ol.bump 1) fun r => if r.1 ≠ 0 then (-400, r.2)
        else paramTail r.2 (trim (r.2.fileMgr.read (r.2.fromCursor (p.ol.bump 1).cursor))) := by
  rw [handleParam, if_neg hopen]
  dsimp only
  cases parenLoop ((p.ol.bump 1).rest.length + 1) 1 (p.ol.bump 1) with
  | none => rfl
  | some r => rfl

/-- A `#param` that is refused changes nothing. -/
lemma handleParam_unchanged (h : p.handleParam.1 < 0) :
    p.handleParam.2.storedMacros = p.storedMacros ∧ p.handleParam.2.outputBuffer = p.outputBuffer := by
  by_cases hopen : p.ol.atEnd = true ∨ p.ol.currChar ≠ '('.toUInt8
  · rw [handleParam, if_pos hopen]
    exact ⟨rfl, rfl⟩
  · rw [handleParam_eq hopen] at h ⊢
    cases hloop : parenLoop ((p.ol.bump 1).rest.length + 1) 1 (p.ol.bump 1) with
    | none => exact ⟨rfl, rfl⟩
    | some r =>
        have hfields := parenLoop_fields hloop
        rw [hloop, Option.elim_some] at h
        rw [Option.elim_some]
        split
        · exact hfields
        · next hd =>
            rw [if_neg hd] at h
            rcases paramTail_code (p := r.2) (trim (r.2.fileMgr.read (r.2.fromCursor
              (p.ol.bump 1).cursor))) with hcode | hkept
            · rw [hcode] at h
              exact absurd h (lt_irrefl 0)
            · exact ⟨hkept.1.trans hfields.1, hkept.2.trans hfields.2⟩

lemma absorb_storedMacros (p : Preprocessor) (name : List Byte) :
    (p.absorb name).storedMacros = Function.update p.storedMacros name none := by
  rw [absorb]
  split
  · rfl
  · next h =>
      have hnone : p.storedMacros name = none := by simpa [isDefined] using h
      rw [← hnone, Function.update_eq_self]

/-! ## The law -/

/-- What the definitions and parameters do to the table; the type of the parameters is `T`. -/
structure MacroTableLaw (disk : Disk) (T : List Byte) : Prop where
  define : ∀ p pre (D : Definition) nl post, At p pre (D.text nl ++ post) → D.Stands nl post →
    D.value.lines = [] → (¬ ∃ m : Marker, m.text <:+: D.value.last) →
      ∃ q d, (∀ n, p.step disk n = .next q) ∧
        q.fileMgr.read d.content = Strip.strip isBlank D.value.last ∧
          ∀ m, q.storedMacros m = if m ∈ D.names then some d else p.storedMacros m
  block : ∀ p pre (B : Block) post, At p pre (bytes "#define_m" ++ (B.line ++ post)) →
    ∃ q d, (∀ n, p.step disk n = .next q) ∧ q.fileMgr.read d.content = B.body ∧
      ∀ m, q.storedMacros m = if m ∈ B.names then some d else p.storedMacros m
  param : ∀ p q pre N D post n, At p pre (paramLine T N D ++ post) → N ≠ [] →
    (∀ c ∈ N, isIdentChar c = true) → '\n'.toUInt8 ∉ D → p.step disk n = .next q →
      q.storedMacros = Function.update p.storedMacros N none
  blockFails : ∀ p : Preprocessor, p.handleDefineM.1 < 0 →
    p.handleDefineM.2.storedMacros = p.storedMacros ∧ p.handleDefineM.2.outputBuffer = p.outputBuffer
  paramFails : ∀ p : Preprocessor, p.handleParam.1 < 0 →
    p.handleParam.2.storedMacros = p.storedMacros ∧ p.handleParam.2.outputBuffer = p.outputBuffer

/-- The iteration in front of a `#define_m`. -/
lemma step_block (disk : Disk) {B : Block} (hat : At p pre (bytes "#define_m" ++ (B.line ++ post))) :
    ∃ q d, (∀ n, p.step disk n = .next q) ∧ q.fileMgr.read d.content = B.body ∧
      ∀ m, q.storedMacros m = if m ∈ B.names then some d else p.storedMacros m := by
  have hword : Directive (bytes "#define_m") (B.line ++ post) := by
    refine directive_of rfl (by decide) ?_
    rw [Block.line, Piece.span, Piece.text, List.append_assoc, List.append_assoc, List.append_assoc]
    exact head_gap B.gap_ne
  have hactive : macroHashMatch (bytes "#define_m") = .Define_M := by decide +kernel
  rcases handleDefineM_block (at_active .Define_M hat) with ⟨q, d, hhandled, hread, htable⟩
  refine ⟨q, d, fun n => ?_, hread, htable⟩
  rw [step_directive disk n hat hword, hactive]
  show afterDirective ((p.bump (bytes "#define_m").length).setActive .Define_M).handleDefineM = _
  rw [hhandled]
  rfl

/-- A shallow type leaves the name of the parameter in its place. -/
lemma param_of_shallow {q : Preprocessor} {N D : List Byte} (hT : TypeText T)
    (hdepth : ∀ u v, T = u ++ v → balance u < 2 ^ 16 - 1) (hN : N ≠ [])
    (hident : ∀ c ∈ N, isIdentChar c = true) (hD : '\n'.toUInt8 ∉ D)
    (hat : At p pre (paramLine T N D ++ post)) (hstep : p.step disk n = .next q) :
    q.storedMacros = Function.update p.storedMacros N none := by
  rw [paramLine_append] at hat
  have hhandled := handleParam_line hT hdepth hN hident hD (at_active .Param hat)
  rw [step_param n hat, hhandled] at hstep
  cases hstep
  exact absorb_storedMacros _ N

/-- Where the count wraps and no parameter goes on, the line is refused. -/
lemma not_step_of_wraps {q : Preprocessor} {w x₁ x₂ N D : List Byte} {c : Byte} (hw : Wraps 1 w)
    (hno : ¬ ReadsParameter x₁)
    (hat : At p pre (paramLine (w ++ c :: (x₁ ++ ')'.toUInt8 :: x₂)) N D ++ post)) :
    p.step disk n ≠ .next q := by
  intro hstep
  rw [paramLine_cut] at hat
  rcases step_wraps disk n hw hat with ⟨r, -, -, hr, hwraps⟩
  have hreads : ¬ ReadsParameter (cutLine x₁ x₂ N D) := by
    rwa [cutLine, readsParameter_close]
  rw [hstep, afterDirective, paramTail_rejects hreads hr, if_pos (by decide)] at hwraps
  cases hwraps

/-- Where the count wraps and another parameter goes on, that one is taken out. -/
lemma unbinds_of_wraps (disk : Disk) {w x₁ x₂ N : List Byte} {c : Byte} (hw : Wraps 1 w)
    (hT : TypeText (w ++ c :: (x₁ ++ ')'.toUInt8 :: x₂))) (hident : ∀ d ∈ N, isIdentChar d = true)
    (hreads : ReadsParameter x₁)
    (hat : At p pre (paramLine (w ++ c :: (x₁ ++ ')'.toUInt8 :: x₂)) N [] ++ post)) :
    ∃ q, p.step disk n = .next q ∧
      q.storedMacros = Function.update p.storedMacros (nameWithin x₁) none := by
  rw [paramLine_cut] at hat
  rcases step_wraps disk n hw hat with ⟨r, -, htable, hr, hwraps⟩
  have hreads' : ReadsParameter (cutLine x₁ x₂ N []) := by
    rwa [cutLine, readsParameter_close]
  have hname : nameWithin (cutLine x₁ x₂ N []) = nameWithin x₁ :=
    nameWithin_append (by decide) (by decide)
  rcases paramTail_accepts (hw.trim_ne_nil (by decide))
    (newline_notMem_cutLine hT hident List.not_mem_nil) hreads' hr with ⟨k, hk⟩
  rw [hk] at hwraps
  refine ⟨_, hwraps, ?_⟩
  show ((r.bump k).absorb _).storedMacros = _
  rw [absorb_storedMacros, hname, ← htable]
  rfl

lemma not_macroTableLaw {w x : List Byte} {c : Byte} (disk : Disk) (hT : TypeText T)
    (hsmall : T.length + 15 < 2 ^ 32) (hTwx : T = w ++ c :: x) (hw : Wraps 1 w)
    (hreads : ReadsParameter x) : ¬ MacroTableLaw disk T := by
  intro hlaw
  rcases exists_close hT hTwx hw with ⟨c', x₁, x₂, hx⟩
  cases hx
  rw [readsParameter_close] at hreads
  rcases exists_other_name (nameWithin x₁) with ⟨N, hN, hident, hother, hlen⟩
  let p : Preprocessor := { ofText (paramLine T N []) with storedMacros := fun _ => some {} }
  have hat : At p [] (paramLine T N [] ++ []) := (at_ofText_paramLine hsmall hlen).congr rfl rfl
  have hat' := hat
  rw [hTwx] at hat'
  rcases unbinds_of_wraps disk (n := 0) hw (hTwx ▸ hT) hident hreads hat' with ⟨q, hstep, htable⟩
  have hkept := hlaw.param p q [] N [] [] 0 hat hN hident List.not_mem_nil hstep
  rw [htable] at hkept
  have hvalue := congrFun hkept (nameWithin x₁)
  rw [Function.update_self, Function.update_of_ne hother.symm] at hvalue
  cases hvalue

/-- **The table of macros.**  The law holds exactly if no beginning of the type with `2 ^ 16 - 1` open
parentheses is followed, behind one more byte, by a name and `=`.  The buffer stays below `2 ^ 32` bytes. -/
theorem macroTableLaw_iff (disk : Disk) (hT : TypeText T) (hsmall : T.length + 15 < 2 ^ 32) :
    MacroTableLaw disk T ↔ ∀ w c x, T = w ++ c :: x → Wraps 1 w → ¬ ReadsParameter x := by
  constructor
  · exact fun hlaw w c x hTwx hw hreads => not_macroTableLaw disk hT hsmall hTwx hw hreads hlaw
  · intro hno
    refine ⟨fun p pre D nl post hat hD hlines hlast => ?_, fun p pre B post hat => step_block disk hat,
      fun p q pre N D post n hat hN hident hD hstep => ?_, fun p => handleDefineM_unchanged,
      fun p => handleParam_unchanged⟩
    · rcases step_definition disk hat hD hlast with ⟨q, d, hstep, hread, htable, -⟩
      refine ⟨q, d, hstep, ?_, htable⟩
      rw [hread, stored_single hD hlines, (joined_nil hlines).1]
    · by_cases hdepth : ∀ u v, T = u ++ v → balance u < 2 ^ 16 - 1
      · exact param_of_shallow hT hdepth hN hident hD hat hstep
      · simp only [not_forall, not_lt] at hdepth
        rcases hdepth with ⟨u, v, huv, hu⟩
        rcases exists_wraps hT huv hu with ⟨w, x, hTwx, hw⟩
        rcases exists_close hT hTwx hw with ⟨c, x₁, x₂, rfl⟩
        have hreads := hno w c _ hTwx hw
        rw [readsParameter_close] at hreads
        rw [hTwx] at hat
        exact absurd hstep (not_step_of_wraps hw hreads hat)

/-- A type in one pair of parentheses. -/
theorem macroTableLaw_sample : MacroTableLaw (fun _ => none) (nestedType 1 (bytes "int")) := by
  have hint : '('.toUInt8 ∉ bytes "int" ∧ ')'.toUInt8 ∉ bytes "int" ∧ '\n'.toUInt8 ∉ bytes "int" := by
    decide
  refine (macroTableLaw_iff _ (typeText_nestedType hint Nat.one_pos) (by decide)).mpr ?_
  intro w c x hwx hw
  have hbalance := balance_nestedType hint (k := 1) w.length
  have hfull := hw.full
  rw [hwx, List.take_left] at hbalance
  omega

/-- **A parameter that is not its own.**  Whatever name the line has, `a` is taken out. -/
theorem macroTableLaw_cut : TypeText (nestedType (2 ^ 16 - 1) (bytes "xa=")) ∧
    ∀ disk, ¬ MacroTableLaw disk (nestedType (2 ^ 16 - 1) (bytes "xa=")) := by
  have hT : TypeText (nestedType (2 ^ 16 - 1) (bytes "xa=")) :=
    typeText_nestedType (by decide) (by decide)
  have hsmall : (nestedType (2 ^ 16 - 1) (bytes "xa=")).length + 15 < 2 ^ 32 := by
    rw [nestedType, List.length_append, List.length_append, List.length_replicate, List.length_replicate]
    decide
  have hreads : ReadsParameter (bytes "a=" ++ List.replicate (2 ^ 16 - 1) ')'.toUInt8) := by
    rw [show List.replicate (2 ^ 16 - 1) ')'.toUInt8 = ')'.toUInt8 :: List.replicate (2 ^ 16 - 2) _
      from List.replicate_succ, readsParameter_close]
    exact ⟨by decide, by decide⟩
  have hw : Wraps 1 (List.replicate (2 ^ 16 - 1) '('.toUInt8) := wraps_replicate (by decide) (by decide)
  exact ⟨hT, fun disk => not_macroTableLaw disk hT hsmall rfl hw hreads⟩

end Preprocessor

end LogicCompiler
