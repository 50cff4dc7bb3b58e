import LogicCompiler.Preproc.Points

/-!
# Parameters

The line `#param (T) N = D`.  The parentheses in the type are counted in a `uint16_t`, together with
the one that opens it; as long as the count does not wrap, the line becomes a declaration
(`handleParam_line`).  Where it wraps, the type is cut off and the name is read from the middle of the
type, so that the name of the parameter plays no part in what is emitted (`synthesizes_iff`).
-/

namespace LogicCompiler

namespace Preprocessor

variable {p q : Preprocessor} {disk : Disk} {pre post w T N D : List Byte}

/-! ## The parentheses -/

lemma balance_nil : balance [] = 0 := rfl

lemma balance_append (u v : List Byte) : balance (u ++ v) = balance u + balance v := by
  simp only [balance, List.count_append]
  push_cast
  omega

lemma balance_cons (c : Byte) (w : List Byte) : balance (c :: w) = balance [c] + balance w :=
  balance_append [c] w

lemma balance_singleton (c : Byte) : balance [c] =
    (if c = '('.toUInt8 then 1 else 0) - if c = ')'.toUInt8 then 1 else 0 := by
  simp only [balance, List.count_singleton, beq_iff_eq]
  split_ifs <;> rfl

/-- The count of the loop stays between its two ends up to `w`. -/
structure Counted (d : ℕ) (w : List Byte) : Prop where
  line : '\n'.toUInt8 ∉ w
  open_ : ∀ u v, w = u ++ v → 0 < (d : ℤ) + balance u
  small : ∀ u v, w = u ++ v → v ≠ [] → (d : ℤ) + balance u < 2 ^ 16

lemma Counted.tail {d : ℕ} {c : Byte} (h : Counted d (c :: w)) :
    Counted ((d : ℤ) + balance [c]).toNat w := by
  have hpos := h.open_ [c] w rfl
  have hcast : (((d : ℤ) + balance [c]).toNat : ℤ) = d + balance [c] := Int.toNat_of_nonneg hpos.le
  refine ⟨fun hmem => h.line (List.mem_cons_of_mem _ hmem), fun u v huv => ?_, fun u v huv hv => ?_⟩
  · have hu := h.open_ (c :: u) v (by rw [huv, List.cons_append])
    rw [balance_cons] at hu
    omega
  · have hu := h.small (c :: u) v (by rw [huv, List.cons_append]) hv
    rw [balance_cons] at hu
    omega

/-- The loop of `handle_param` over a text within which the count neither reaches zero nor wraps, up to
its last byte. -/
lemma parenLoop_counted {d : ℕ} (n : ℕ) (hat : At q pre (w ++ post)) (h : Counted d w) :
    parenLoop (w.length + n) (d % 2 ^ 16) q =
      parenLoop n (((d : ℤ) + balance w).toNat % 2 ^ 16) (q.bump w.length) := by
  induction w generalizing d q pre with
  | nil => simp [balance_nil]
  | cons c w ih =>
      have hpos : (0 : ℤ) < d := by simpa [balance_nil] using h.open_ [] _ rfl
      have hsmall : (d : ℤ) < 2 ^ 16 := by simpa [balance_nil] using h.small [] _ rfl (by simp)
      have hopen := h.open_ [c] w rfl
      have hline : c ≠ '\n'.toUInt8 := fun hc => h.line (hc ▸ List.mem_cons_self)
      have htail := ih (hat.bump_one) h.tail
      have hcount : (((d : ℤ) + balance [c]).toNat : ℤ) + balance w = d + balance (c :: w) := by
        rw [Int.toNat_of_nonneg hopen.le, balance_cons c w, add_assoc]
      rw [hcount, bump_bump, Nat.add_comm 1, ← List.length_cons (a := c)] at htail
      have hgo : ¬ (q.atEnd = true ∨ d = 0) := by
        rw [hat.atEnd_cons, not_or]
        exact ⟨Bool.false_ne_true, by omega⟩
      rw [← htail, List.length_cons, Nat.add_right_comm, Nat.mod_eq_of_lt (by omega : d < 2 ^ 16),
        parenLoop, if_neg hgo, hat.currChar]
      rw [balance_singleton] at hopen ⊢
      by_cases hleft : c = '('.toUInt8
      · have hright : c ≠ ')'.toUInt8 := by rw [hleft]; decide
        rw [if_pos hleft, if_pos hleft, if_neg hright]
        congr 2
      · rw [if_neg hleft] at hopen ⊢
        rw [if_neg hleft]
        by_cases hright : c = ')'.toUInt8
        · rw [if_pos hright] at hopen ⊢
          rw [if_pos hright, if_neg (by omega)]
          congr 1
          omega
        · rw [if_neg hright] at hopen ⊢
          rw [if_neg hright, if_neg hline]
          congr 1
          omega

/-- The type up to its closing parenthesis. -/
lemma parenLoop_closed {n : ℕ} (hat : At q pre (w ++ ')'.toUInt8 :: post)) (h : Counted 1 w)
    (hbal : balance w = 0) (hn : w.length < n) : parenLoop n 1 q = some (0, q.bump w.length) := by
  rcases Nat.exists_eq_add_of_lt hn with ⟨k, rfl⟩
  have hloop := parenLoop_counted (k + 1) hat h
  rw [hbal] at hloop
  rw [Nat.add_assoc]
  refine hloop.trans ?_
  have hgo : ¬ ((q.bump w.length).atEnd = true ∨ 1 = 0) := by
    rw [hat.bump.atEnd_cons, not_or]
    exact ⟨Bool.false_ne_true, by decide⟩
  show parenLoop (k + 1) 1 (q.bump w.length) = _
  rw [parenLoop, if_neg hgo, hat.bump.currChar, if_neg (by decide), if_pos rfl, if_pos rfl]

/-- The type up to the parenthesis at which the count wraps. -/
lemma parenLoop_full {n : ℕ} (hat : At q pre (w ++ post)) (h : Wraps 1 w) (hn : w.length ≤ n) :
    parenLoop n 1 q = some (0, q.bump w.length) := by
  rcases Nat.exists_eq_add_of_le hn with ⟨k, rfl⟩
  have hcounted : Counted 1 w := by
    refine ⟨h.line, fun u v huv => ?_, fun u v huv hv => (h.counted u v huv hv).2⟩
    cases v with
    | nil =>
        rw [List.append_nil] at huv
        rw [← huv]
        have := h.full
        omega
    | cons c v => exact (h.counted u _ huv (by simp)).1
  have hloop := parenLoop_counted k hat hcounted
  have hzero : ((1 : ℕ) + balance w : ℤ).toNat % 2 ^ 16 = 0 := by
    have := h.full
    omega
  rw [hzero] at hloop
  refine hloop.trans ?_
  cases k with
  | zero => rfl
  | succ k => rw [parenLoop, if_pos (.inr rfl)]

/-! ## The line behind the type -/

/-- `isDefined` and `forgetMacro`. -/
def absorb (p : Preprocessor) (name : List Byte) : Preprocessor :=
  if p.isDefined name then p.forgetMacro name else p

/-- `handle_param` behind the type `typeStr`, in front of the byte it takes for the closing
parenthesis. -/
def paramTail (p : Preprocessor) (typeStr : List Byte) : ℤ × Preprocessor :=
  if typeStr = [] then (-400, p)
  else
    let p := (p.bump 1).ol
    let startName := p.cursor
    let p := p.skipIdent
    let nameStr := trim (p.fileMgr.read (p.fromCursor startName))
    if nameStr = [] then (-400, p)
    else
      let p := p.ol
      if p.atEnd ∨ p.currChar ≠ '='.toUInt8 then (-400, p)
      else
        let p := (p.bump 1).ol
        let startDef := p.cursor
        let endLine := p.findNext '\n'
        let p := p.setCursor (p.orSize endLine)
        let defaultStr := trim (p.fileMgr.read (p.fromCursor startDef))
        let p := if endLine.isSome then p.bump 1 else p
        (0, (p.absorb nameStr).emit (paramText typeStr nameStr (p.paramValue nameStr defaultStr)))

/-- `handle_param` when its loop ends with a zero count behind `w`. -/
lemma handleParam_opened {text : List Byte}
    (hat : At p pre (' '.toUInt8 :: '('.toUInt8 :: (w ++ text)))
    (hloop : parenLoop ((w ++ text).length + 1) 1 (p.bump 2) = some (0, (p.bump 2).bump w.length)) :
    p.handleParam = paramTail ((p.bump 2).bump w.length) (trim w) := by
  have hol : p.ol = p.bump 1 := by
    refine At.ol (b := [' '.toUInt8]) hat (by decide) fun c hc => ?_
    cases hc
    decide
  have hbump : (p.bump 1).bump 1 = p.bump 2 := bump_bump p 1 1
  have hstart := hat.bump_one.bump_one
  rw [hbump] at hstart
  have hread := hstart.bump.read_from
  have hgo : ¬ ((p.bump 1).atEnd = true ∨ (p.bump 1).currChar ≠ '('.toUInt8) := by
    rw [hat.bump_one.atEnd_cons, hat.bump_one.currChar, not_or]
    exact ⟨Bool.false_ne_true, not_not_intro rfl⟩
  rw [← hstart.cursor] at hread
  rw [handleParam, hol, if_neg hgo, hbump]
  dsimp only
  rw [hstart.rest, hloop]
  dsimp only
  rw [if_neg (not_not_intro rfl), hread]
  rfl

lemma paramValue_bump (n : ℕ) (name defaultStr : List Byte) :
    (q.bump n).paramValue name defaultStr = q.paramValue name defaultStr := rfl

lemma head_equals : ∀ c ∈ ('='.toUInt8 :: post).head?, isBlank c = false := by
  intro c hc
  cases hc
  decide

/-- Behind blanks or a byte that is none of an identifier, the identifier has ended. -/
lemma head_not_ident {b : List Byte} {d : Byte} (hb : ∀ c ∈ b, isBlank c = true)
    (hd : isIdentChar d = false) : ∀ c ∈ (b ++ d :: post).head?, isIdentChar c = false := by
  intro c hc
  cases b with
  | nil =>
      cases hc
      exact hd
  | cons e b =>
      cases hc
      exact (isSpace_inert (isBlank_isSpace (hb c List.mem_cons_self))).2

section Tail

variable {c : Byte} {b name b' r v t : List Byte}

lemma at_behind_name (hat : At q pre (c :: (b ++ (name ++ r)))) :
    At (q.bump (1 + b.length + name.length)) (pre ++ (c :: (b ++ name))) r := by
  have hline : At q pre ((c :: (b ++ name)) ++ r) := by simpa using hat
  have hlen : (c :: (b ++ name)).length = 1 + b.length + name.length := by
    simp only [List.length_cons, List.length_append]
    omega
  rw [← hlen]
  exact hline.bump

/-- The name behind the type. -/
lemma paramTail_name (hat : At q pre (c :: (b ++ (name ++ r)))) (hb : ∀ d ∈ b, isBlank d = true)
    (hname : ∀ d ∈ name, isIdentChar d = true) (hr : ∀ d ∈ r.head?, isIdentChar d = false)
    (hhead : ∀ d ∈ (name ++ r).head?, isBlank d = false) :
    (q.bump 1).ol.skipIdent = q.bump (1 + b.length + name.length) ∧
      trim ((q.bump 1).ol.skipIdent.fileMgr.read
        ((q.bump 1).ol.skipIdent.fromCursor (q.bump 1).ol.cursor)) = name := by
  have hol : (q.bump 1).ol = (q.bump 1).bump b.length := hat.bump_one.ol hb hhead
  have hskip := hat.bump_one.bump.skipIdent hname hr
  have hread := hat.bump_one.bump.bump.read_from
  rw [← hat.bump_one.bump.cursor] at hread
  rw [hol, hskip, hread, trim_ident hname, bump_bump, bump_bump, Nat.add_assoc]
  exact ⟨rfl, rfl⟩

/-- Without a name, or without `=` behind it, the handler fails. -/
lemma paramTail_fails (hat : At q pre (c :: (b ++ (name ++ (b' ++ r)))))
    (hb : ∀ d ∈ b, isBlank d = true) (hname : ∀ d ∈ name, isIdentChar d = true)
    (hb' : ∀ d ∈ b', isBlank d = true) (hr : ∀ d ∈ (b' ++ r).head?, isIdentChar d = false)
    (hhead : ∀ d ∈ (name ++ (b' ++ r)).head?, isBlank d = false)
    (hhead' : ∀ d ∈ r.head?, isBlank d = false)
    (hfail : name = [] ∨ r.head? ≠ some '='.toUInt8) : (paramTail q t).1 = -400 := by
  rcases paramTail_name hat hb hname hr hhead with ⟨hskip, hread⟩
  rw [paramTail]
  split
  · rfl
  · dsimp only
    rw [hread]
    split
    · rfl
    · next hne =>
        rcases hfail with hnil | hequals
        · exact absurd hnil hne
        · have hafter := at_behind_name hat
          rw [hskip, hafter.ol hb' hhead']
          rw [if_pos]
          cases r with
          | nil => exact .inl (by simpa using hafter.bump.atEnd_nil)
          | cons d r =>
              refine .inr fun hd => hequals ?_
              rw [hafter.bump.currChar] at hd
              rw [hd]
              rfl

/-- The default value, and the end of the line. -/
lemma paramTail_emits
    (hat : At q pre (c :: (b ++ (name ++ (b' ++ '='.toUInt8 :: (r ++ (v ++ '\n'.toUInt8 :: post)))))))
    (hb : ∀ d ∈ b, isBlank d = true) (hne : name ≠ []) (hname : ∀ d ∈ name, isIdentChar d = true)
    (hb' : ∀ d ∈ b', isBlank d = true) (hr : ∀ d ∈ r, isBlank d = true)
    (hv : ∀ d ∈ (v ++ '\n'.toUInt8 :: post).head?, isBlank d = false) (hline : '\n'.toUInt8 ∉ v)
    (ht : t ≠ []) :
    paramTail q t = (0,
      ((q.bump (1 + b.length + name.length + b'.length + 1 + r.length + v.length + 1)).absorb name).emit (paramText t name (q.paramValue name (trim v)))) := by
  have hhead : ∀ d ∈ (name ++ (b' ++ '='.toUInt8 :: (r ++ (v ++ '\n'.toUInt8 :: post)))).head?,
      isBlank d = false := by
    intro d hd
    rw [List.head?_append_of_ne_nil _ hne] at hd
    exact isIdentChar_not_blank (hname d (List.mem_of_head? hd))
  rcases paramTail_name hat hb hname (head_not_ident hb' (by decide)) hhead with ⟨hskip, hread⟩
  have hafter := at_behind_name hat
  have hequals := hafter.bump
  have hvalue := hequals.bump_one.bump
  have hdefault := hvalue.bump.read_from
  rw [← hvalue.cursor] at hdefault
  rw [paramTail, if_neg ht]
  dsimp only
  rw [hread, if_neg hne, hskip, hafter.ol hb' head_equals, if_neg, hequals.bump_one.ol hr hv,
    hvalue.findNext hline]
  · dsimp only [orSize, Option.getD_some, Option.isSome_some]
    rw [← Preprocessor.bump, hdefault]
    simp only [bump_bump, if_true]
    rfl
  · rw [hequals.atEnd_cons, hequals.currChar, not_or]
    exact ⟨Bool.false_ne_true, not_not_intro rfl⟩

end Tail

/-! ## The whole line -/

/-- The line `#param (T) N = D`. -/
def paramLine (T N D : List Byte) : List Byte :=
  bytes "#param" ++ ' '.toUInt8 :: '('.toUInt8 :: (T ++ ')'.toUInt8 :: ([' '.toUInt8] ++ (N ++
    ([' '.toUInt8] ++ '='.toUInt8 :: (' '.toUInt8 :: D ++ ['\n'.toUInt8])))))

/-- A text on one line whose parentheses are balanced, and that is not blank. -/
structure TypeText (T : List Byte) : Prop where
  line : '\n'.toUInt8 ∉ T
  balanced : balance T = 0
  closed : ∀ u v, T = u ++ v → 0 ≤ balance u
  notBlank : trim T ≠ []

lemma trim_dropWhile (D : List Byte) : trim (D.dropWhile isBlank) = trim D := by
  conv_rhs => rw [← List.takeWhile_append_dropWhile (p := isBlank) (l := D)]
  refine (Strip.strip_append fun c hc => ?_).symm
  exact isBlank_isSpace (List.mem_takeWhile_imp hc)

/-- What is left of a line begins with a byte that was not dropped, or is the end of the line. -/
lemma head_dropWhile_line {f : Byte → Bool} (hf : f '\n'.toUInt8 = false) (D : List Byte) :
    ∀ d ∈ (D.dropWhile f ++ '\n'.toUInt8 :: post).head?, f d = false := by
  intro d hd
  have hnot := List.head?_dropWhile_not f D
  cases hD : D.dropWhile f with
  | nil =>
      rw [hD] at hd
      cases hd
      exact hf
  | cons e v =>
      rw [hD] at hd hnot
      cases hd
      simpa using hnot

/-- The line becomes a declaration when the count does not wrap. -/
lemma handleParam_line (hT : TypeText T) (hdepth : ∀ u v, T = u ++ v → balance u < 2 ^ 16 - 1)
    (hN : N ≠ []) (hident : ∀ c ∈ N, isIdentChar c = true) (hD : '\n'.toUInt8 ∉ D)
    (hat : At p pre (' '.toUInt8 :: '('.toUInt8 :: (T ++ ')'.toUInt8 :: ([' '.toUInt8] ++ (N ++
      ([' '.toUInt8] ++ '='.toUInt8 :: (' '.toUInt8 :: D ++ '\n'.toUInt8 :: post)))))) ) :
    p.handleParam = (0, ((p.bump (T.length + N.length + D.length + 8)).absorb N).emit
      (paramText (trim T) N (p.paramValue N (trim D)))) := by
  have hcounted : Counted 1 T := by
    refine ⟨hT.line, fun u v huv => ?_, fun u v huv _ => ?_⟩
    · have := hT.closed u v huv
      omega
    · have := hdepth u v huv
      omega
  have htype := hat.bump_one.bump_one
  rw [bump_bump] at htype
  have hloop := parenLoop_closed htype hcounted hT.balanced
    (n := (T ++ ')'.toUInt8 :: ([' '.toUInt8] ++ (N ++
      ([' '.toUInt8] ++ '='.toUInt8 :: (' '.toUInt8 :: D ++ '\n'.toUInt8 :: post))))).length + 1)
    (by rw [List.length_append]; omega)
  have hsplit : ' '.toUInt8 :: D ++ '\n'.toUInt8 :: post =
      (' '.toUInt8 :: D.takeWhile isBlank) ++ (D.dropWhile isBlank ++ '\n'.toUInt8 :: post) := by
    rw [List.cons_append, List.cons_append, ← List.append_assoc, List.takeWhile_append_dropWhile]
  rw [handleParam_opened hat hloop]
  have htail := htype.bump
  rw [hsplit] at htail
  rw [paramTail_emits htail (by decide) hN hident (by decide) ?_ ?_ ?_ hT.notBlank, trim_dropWhile,
    paramValue_bump, paramValue_bump, bump_bump, bump_bump]
  · have hlen : (D.takeWhile isBlank).length + (D.dropWhile isBlank).length = D.length := by
      rw [← List.length_append, List.takeWhile_append_dropWhile]
    congr 4
    simp only [List.length_cons, List.length_nil]
    omega
  · intro d hd
    rcases List.mem_cons.mp hd with rfl | hd
    · decide
    · exact List.mem_takeWhile_imp hd
  · exact head_dropWhile_line newline_not_blank D
  · exact fun hmem => hD ((List.dropWhile_sublist _).subset hmem)

/-- The value of the parameter `N` with the default `D`. -/
def valueOf (p : Preprocessor) (N D : List Byte) : List Byte :=
  match p.storedMacros N with
  | none => trim D
  | some d => if hasBody d then trim (p.fileMgr.read d.content) else bytes "1"

lemma paramValue_eq (p : Preprocessor) (N D : List Byte) :
    p.paramValue N (trim D) = p.valueOf N D := by
  rw [paramValue, valueOf, isDefined, findDefined]
  cases p.storedMacros N with
  | none => rfl
  | some d => rfl

/-- From any state in front of such a line, with any name and default, the main loop writes the
declaration and goes on at the next line. -/
def Synthesizes (disk : Disk) (T : List Byte) : Prop :=
  ∀ p pre post N D, At p pre (paramLine T N D ++ post) → N ≠ [] → (∀ c ∈ N, isIdentChar c = true) →
    '\n'.toUInt8 ∉ D → ∃ q, (∀ n, p.step disk n = .next q) ∧ At q (pre ++ paramLine T N D) post ∧
      q.outputBuffer = p.outputBuffer ++ paramText (trim T) N (p.valueOf N D)

lemma paramLine_append (T N D post : List Byte) : paramLine T N D ++ post =
    bytes "#param" ++ (' '.toUInt8 :: '('.toUInt8 :: (T ++ ')'.toUInt8 :: ([' '.toUInt8] ++ (N ++
      ([' '.toUInt8] ++ '='.toUInt8 :: (' '.toUInt8 :: D ++ '\n'.toUInt8 :: post)))))) := by
  simp [paramLine]

lemma length_paramLine (T N D : List Byte) :
    (paramLine T N D).length = (bytes "#param").length + (T.length + N.length + D.length + 8) := by
  simp only [paramLine, List.length_append, List.length_cons, List.length_nil]
  omega

/-- The iteration in front of a `#param`. -/
lemma step_param (n : ℕ) {rest : List Byte} (hat : At p pre (bytes "#param" ++ ' '.toUInt8 :: rest)) :
    p.step disk n = afterDirective ((p.bump (bytes "#param").length).setActive .Param).handleParam := by
  have hname : Directive (bytes "#param") (' '.toUInt8 :: rest) := by
    refine directive_of rfl (by decide) fun c hc => ?_
    cases hc
    decide
  have hword : macroHashMatch (bytes "#param") = .Param := by decide +kernel
  rw [step_directive disk n hat hname, hword]
  rfl

lemma absorb_fields (p : Preprocessor) (name : List Byte) :
    (p.absorb name).fileMgr = p.fileMgr ∧ (p.absorb name).inputStack = p.inputStack ∧
      (p.absorb name).outputBuffer = p.outputBuffer := by
  rw [absorb]
  split <;> exact ⟨rfl, rfl, rfl⟩

lemma synthesizes_of_shallow (hT : TypeText T) (hdepth : ∀ u v, T = u ++ v → balance u < 2 ^ 16 - 1) :
    Synthesizes disk T := by
  intro p pre post N D hat hN hident hD
  have hend := hat.bump
  rw [length_paramLine] at hend
  rw [paramLine_append] at hat
  have hhandled := handleParam_line hT hdepth hN hident hD (at_active .Param hat)
  generalize hk : T.length + N.length + D.length + 8 = k at hend hhandled
  rcases absorb_fields ((((p.bump (bytes "#param").length).setActive .Param).bump k)) N with
    ⟨hfile, hstack, hout⟩
  refine ⟨((((p.bump (bytes "#param").length).setActive .Param).bump k).absorb N).emit
    (paramText (trim T) N (p.valueOf N D)), fun n => ?_, ?_, ?_⟩
  · rw [step_param n hat, hhandled, ← paramValue_eq]
    rfl
  · refine (hend.congr hfile (hstack.trans ?_)).emit
    rw [← bump_bump]
    rfl
  · show _ ++ _ = _
    rw [hout]
    rfl

/-! ## Where the count wraps -/

/-- The name that is read behind a cut-off type. -/
def nameWithin (r : List Byte) : List Byte := (r.dropWhile isBlank).takeWhile isIdentChar

lemma takeWhile_append_stop {f : Byte → Bool} {c : Byte} (hc : f c = false) (s y : List Byte) :
    (s ++ c :: y).takeWhile f = s.takeWhile f := by
  rw [List.takeWhile_append, List.takeWhile_cons_of_neg (by simp [hc]), List.append_nil]
  split
  · next h => exact (List.takeWhile_sublist f).eq_of_length h |>.symm
  · rfl

/-- The name is in front of the next byte that is no blank and belongs to no identifier. -/
lemma nameWithin_append {r y : List Byte} {c : Byte} (hblank : isBlank c = false)
    (hident : isIdentChar c = false) : nameWithin (r ++ c :: y) = nameWithin r := by
  rw [nameWithin, nameWithin, List.dropWhile_append]
  split
  · next h =>
      rw [List.isEmpty_iff.mp h, List.dropWhile_cons_of_neg (by simp [hblank]),
        List.takeWhile_cons_of_neg (by simp [hident])]
      rfl
  · exact takeWhile_append_stop hident _ y

/-- What stands behind that name. -/
def afterName (r : List Byte) : List Byte :=
  ((r.dropWhile isBlank).dropWhile isIdentChar).dropWhile isBlank

/-- A name and `=`: what a parameter goes on with behind its type. -/
def ReadsParameter (r : List Byte) : Prop :=
  nameWithin r ≠ [] ∧ (afterName r).head? = some '='.toUInt8

lemma split_name (r : List Byte) : r = r.takeWhile isBlank ++ (nameWithin r ++
    (((r.dropWhile isBlank).dropWhile isIdentChar).takeWhile isBlank ++ afterName r)) := by
  rw [afterName, List.takeWhile_append_dropWhile, nameWithin, List.takeWhile_append_dropWhile,
    List.takeWhile_append_dropWhile]

lemma nameWithin_ident (r : List Byte) : ∀ d ∈ nameWithin r, isIdentChar d = true := fun _ hd =>
  List.mem_takeWhile_imp hd

/-- A closing parenthesis is part of no parameter, so that nothing behind it matters. -/
lemma readsParameter_close (r y : List Byte) :
    ReadsParameter (r ++ ')'.toUInt8 :: y) ↔ ReadsParameter r := by
  have hblank : ∀ c ∈ (')'.toUInt8 :: y).head?, isBlank c = false := by simp; rfl
  have hident : ∀ c ∈ (')'.toUInt8 :: y).head?, isIdentChar c = false := by simp; rfl
  have hafter : afterName (r ++ ')'.toUInt8 :: y) = afterName r ++ ')'.toUInt8 :: y := by
    rw [afterName, Strip.dropWhile_append_of_head hblank, Strip.dropWhile_append_of_head hident,
      Strip.dropWhile_append_of_head hblank, afterName]
  rw [ReadsParameter, ReadsParameter, nameWithin_append (by decide) (by decide), hafter]
  cases hr : afterName r with
  | nil =>
      refine iff_of_false (fun h => ?_) fun h => Option.some_ne_none _ h.2.symm
      exact absurd (Option.some.inj h.2) (by decide)
  | cons e d => rfl

section Behind

variable {a t : List Byte} {c : Byte}

/-- The handler fails where no parameter goes on. -/
lemma paramTail_rejects (h : ¬ ReadsParameter a) (hat : At q pre (c :: (a ++ '\n'.toUInt8 :: post))) :
    (paramTail q t).1 = -400 := by
  have hblank {s : List Byte} : ∀ d ∈ s.takeWhile isBlank, isBlank d = true := fun d hd =>
    List.mem_takeWhile_imp hd
  have hsplit := split_name a
  rw [hsplit] at hat
  simp only [List.append_assoc] at hat
  refine paramTail_fails hat hblank (nameWithin_ident a) hblank ?_ ?_ ?_ ?_
  · rw [← List.append_assoc, afterName, List.takeWhile_append_dropWhile]
    exact head_dropWhile_line (by decide) _
  · rw [← List.append_assoc (List.takeWhile isBlank _), afterName, List.takeWhile_append_dropWhile,
      ← List.append_assoc, nameWithin, List.takeWhile_append_dropWhile]
    exact head_dropWhile_line newline_not_blank a
  · exact head_dropWhile_line newline_not_blank _
  · by_cases hname : nameWithin a = []
    · exact .inl hname
    · refine .inr fun hequals => h ⟨hname, ?_⟩
      cases hafter : afterName a with
      | nil =>
          rw [hafter] at hequals
          exact absurd (Option.some.inj hequals) (by decide)
      | cons e d => rwa [hafter] at hequals

/-- What a parameter that goes on there becomes. -/
lemma paramTail_accepts (ht : t ≠ []) (ha : '\n'.toUInt8 ∉ a) (h : ReadsParameter a)
    (hat : At q pre (c :: (a ++ '\n'.toUInt8 :: post))) :
    ∃ k, paramTail q t = (0, ((q.bump k).absorb (nameWithin a)).emit
      (paramText t (nameWithin a) (q.paramValue (nameWithin a) (trim (afterName a).tail)))) := by
  have hblank {s : List Byte} : ∀ d ∈ s.takeWhile isBlank, isBlank d = true := fun d hd =>
    List.mem_takeWhile_imp hd
  have hsplit := split_name a
  cases hafter : afterName a with
  | nil => exact absurd h.2 (by rw [hafter]; simp)
  | cons e d =>
      have he : e = '='.toUInt8 := by
        have hhead := h.2
        rw [hafter] at hhead
        exact Option.some.inj hhead
      rw [hafter, he] at hsplit
      have hd : '\n'.toUInt8 ∉ d.dropWhile isBlank := by
        intro hmem
        have hmem' := (List.dropWhile_sublist isBlank).subset hmem
        rw [hsplit] at ha
        simp [hmem'] at ha
      rw [hsplit, ← List.takeWhile_append_dropWhile (p := isBlank) (l := d)] at hat
      simp only [List.append_assoc, List.cons_append] at hat
      rw [List.tail_cons, ← trim_dropWhile]
      exact ⟨_, paramTail_emits hat hblank h.1 (nameWithin_ident a) hblank hblank
        (head_dropWhile_line newline_not_blank d) hd ht⟩

end Behind

/-- What is written depends on the bytes behind `w` only, when the name that is read there is not
defined. -/
lemma paramTail_nameWithin (t : List Byte) (c : Byte) (a post : List Byte) (ht : t ≠ [])
    (ha : '\n'.toUInt8 ∉ a) :
    (∀ q pre, At q pre (c :: (a ++ '\n'.toUInt8 :: post)) → (paramTail q t).1 = -400) ∨
      ∃ out, ∀ q pre, At q pre (c :: (a ++ '\n'.toUInt8 :: post)) → q.isDefined (nameWithin a) = false →
        (paramTail q t).2.outputBuffer = q.outputBuffer ++ out := by
  by_cases h : ReadsParameter a
  · refine .inr ⟨paramText t (nameWithin a) (trim (afterName a).tail), fun q pre hat hundef => ?_⟩
    rcases paramTail_accepts ht ha h hat with ⟨k, hk⟩
    rw [hk]
    show _ ++ _ = _
    rw [(absorb_fields _ _).2.2, paramValue, hundef]
    rfl
  · exact .inl fun q pre hat => paramTail_rejects h hat

lemma balance_singleton_le (c : Byte) : -1 ≤ balance [c] ∧ balance [c] ≤ 1 := by
  rw [balance_singleton]
  split_ifs <;> decide

/-- A type that is too deep has a first byte at which the count wraps. -/
lemma exists_wraps (hT : TypeText T) {u v : List Byte} (huv : T = u ++ v)
    (hu : 2 ^ 16 - 1 ≤ balance u) : ∃ w x, T = w ++ x ∧ Wraps 1 w := by
  have hex : ∃ n, 2 ^ 16 - 1 ≤ balance (T.take n) := ⟨u.length, by rwa [huv, List.take_left]⟩
  have hfirst : ∀ m < Nat.find hex, balance (T.take m) < 2 ^ 16 - 1 := fun m hm =>
    not_le.mp (Nat.find_min hex hm)
  have hfull := Nat.find_spec hex
  generalize Nat.find hex = n at hfirst hfull
  have htake : T = T.take n ++ T.drop n := (List.take_append_drop n T).symm
  refine ⟨T.take n, T.drop n, htake, fun hmem => hT.line (List.mem_of_mem_take hmem), ?_, ?_⟩
  · intro a b hab hb
    have ha : a = T.take a.length := by
      rw [htake, hab, List.append_assoc, List.take_left]
    have hlen : a.length < n := by
      have := congrArg List.length hab
      rw [List.length_append, List.length_take] at this
      have := List.length_pos_of_ne_nil hb
      omega
    have hlow := hT.closed a (b ++ T.drop n) (by rw [← List.append_assoc, ← hab, ← htake])
    have hhigh := hfirst _ hlen
    rw [← ha] at hhigh
    omega
  · cases n with
    | zero =>
        rw [List.take_zero, balance_nil] at hfull
        omega
    | succ m =>
        have hlow := hfirst m (Nat.lt_succ_self m)
        by_cases hm : m < T.length
        · rw [List.take_succ_eq_append_getElem hm, balance_append] at hfull ⊢
          have := balance_singleton_le T[m]
          omega
        · rw [List.take_of_length_le (by omega)] at hlow hfull
          omega

/-- The step over a type that wraps. -/
lemma step_wraps (disk : Disk) (n : ℕ) {x : List Byte} (hw : Wraps 1 w)
    (hat : At p pre (bytes "#param" ++ ' '.toUInt8 :: '('.toUInt8 :: (w ++ x))) :
    ∃ q, q.outputBuffer = p.outputBuffer ∧ q.storedMacros = p.storedMacros ∧
      At q (pre ++ bytes "#param" ++ [' '.toUInt8] ++ ['('.toUInt8] ++ w) x ∧
        p.step disk n = afterDirective (paramTail q (trim w)) := by
  have hword := at_active .Param hat
  have htype := hword.bump_one.bump_one
  rw [bump_bump] at htype
  refine ⟨(((p.bump (bytes "#param").length).setActive .Param).bump 2).bump w.length, rfl, rfl,
    htype.bump, ?_⟩
  have hlen : w.length ≤ (w ++ x).length + 1 := by
    rw [List.length_append]
    omega
  rw [step_param n hat, handleParam_opened hword (parenLoop_full htype hw hlen)]

/-- Behind the cut the type goes on, at least up to a closing parenthesis. -/
lemma exists_close {x : List Byte} (hT : TypeText T) (hTwx : T = w ++ x) (hw : Wraps 1 w) :
    ∃ c x₁ x₂, x = c :: (x₁ ++ ')'.toUInt8 :: x₂) := by
  have hbalance := hw.full
  have htotal := hT.balanced
  rw [hTwx, balance_append] at htotal
  cases x with
  | nil =>
      rw [balance_nil] at htotal
      omega
  | cons c x =>
      rw [balance_cons] at htotal
      have hclose : ')'.toUInt8 ∈ x := by
        by_contra hno
        have hcount : balance x = x.count '('.toUInt8 := by
          rw [balance, List.count_eq_zero.mpr hno]
          simp
        have := balance_singleton_le c
        omega
      rcases List.append_of_mem hclose with ⟨x₁, x₂, rfl⟩
      exact ⟨c, x₁, x₂, rfl⟩

/-- The line behind the cut, without its newline. -/
def cutLine (x₁ x₂ N D : List Byte) : List Byte :=
  x₁ ++ ')'.toUInt8 :: (x₂ ++ ')'.toUInt8 :: ([' '.toUInt8] ++ (N ++
    ([' '.toUInt8] ++ '='.toUInt8 :: ' '.toUInt8 :: D))))

lemma paramLine_cut (w x₁ x₂ N D post : List Byte) (c : Byte) :
    paramLine (w ++ c :: (x₁ ++ ')'.toUInt8 :: x₂)) N D ++ post = bytes "#param" ++ ' '.toUInt8 ::
      '('.toUInt8 :: (w ++ c :: (cutLine x₁ x₂ N D ++ '\n'.toUInt8 :: post)) := by
  rw [paramLine_append]
  simp [cutLine]

lemma newline_notMem_cutLine {c : Byte} {x₁ x₂ D : List Byte}
    (hT : TypeText (w ++ c :: (x₁ ++ ')'.toUInt8 :: x₂))) (hident : ∀ d ∈ N, isIdentChar d = true)
    (hD : '\n'.toUInt8 ∉ D) : '\n'.toUInt8 ∉ cutLine x₁ x₂ N D := by
  have hx : '\n'.toUInt8 ∉ x₁ ++ ')'.toUInt8 :: x₂ := fun hmem =>
    hT.line (List.mem_append_right _ (List.mem_cons_of_mem _ hmem))
  have hnl := isIdentChar_not_newline hident
  simp only [cutLine, List.mem_append, List.mem_cons, List.not_mem_nil, or_false, not_or] at hx ⊢
  exact ⟨hx.1, by decide, hx.2.2, by decide, by decide, hnl, by decide, by decide, by decide, hD⟩

lemma exists_other_name (m : List Byte) : ∃ N : List Byte, N ≠ [] ∧ (∀ d ∈ N, isIdentChar d = true) ∧
    N ≠ m ∧ N.length = 1 := by
  by_cases hm : m = bytes "a"
  · exact ⟨bytes "b", by decide, by decide, by rw [hm]; decide, rfl⟩
  · exact ⟨bytes "a", by decide, by decide, fun h => hm h.symm, rfl⟩

lemma at_ofText_paramLine (hsmall : T.length + 15 < 2 ^ 32) (hN : N.length = 1) :
    At (ofText (paramLine T N [])) [] (paramLine T N [] ++ []) := by
  rw [List.append_nil]
  refine (opens_ofText ?_).at
  rw [length_paramLine, hN]
  have hword : (bytes "#param").length = 6 := rfl
  rw [hword, List.length_nil]
  omega

lemma not_synthesizes_of_wraps {x : List Byte} (hT : TypeText T) (hTwx : T = w ++ x) (hw : Wraps 1 w)
    (hsmall : T.length + 15 < 2 ^ 32) : ¬ Synthesizes disk T := by
  rcases exists_close hT hTwx hw with ⟨c, x₁, x₂, rfl⟩
  subst hTwx
  -- the name behind the cut is not the name of the parameter
  rcases exists_other_name (nameWithin x₁) with ⟨N, hN, hident, hN', hlenN⟩
  generalize hT' : w ++ c :: (x₁ ++ ')'.toUInt8 :: x₂) = T at hT hsmall ⊢
  let p := ofText (paramLine T N [])
  let p' := p.addMacro N {}
  have hat : At p [] (paramLine T N [] ++ []) := at_ofText_paramLine hsmall hlenN
  have hat' : At p' [] (paramLine T N [] ++ []) := hat.congr rfl rfl
  have hline : paramLine T N [] ++ [] = bytes "#param" ++ ' '.toUInt8 :: '('.toUInt8 ::
      (w ++ c :: (cutLine x₁ x₂ N [] ++ '\n'.toUInt8 :: [])) := by
    rw [← hT', paramLine_cut]
  have hname : nameWithin (cutLine x₁ x₂ N []) = nameWithin x₁ :=
    nameWithin_append (by decide) (by decide)
  have ha : '\n'.toUInt8 ∉ cutLine x₁ x₂ N [] :=
    newline_notMem_cutLine (hT' ▸ hT) hident List.not_mem_nil
  intro hsynth
  -- the same is written whether the parameter is defined or not
  have hsame : ∃ out : List Byte, ∀ p : Preprocessor, At p [] (paramLine T N [] ++ []) →
      p.outputBuffer = [] → p.isDefined (nameWithin (cutLine x₁ x₂ N [])) = false →
        paramText (trim T) N (p.valueOf N []) = out := by
    have htrim := hw.trim_ne_nil (by decide)
    rcases paramTail_nameWithin (trim w) c (cutLine x₁ x₂ N []) [] htrim ha with hfail | ⟨out, hout⟩
    · refine ⟨[], fun p hat _ _ => ?_⟩
      rcases hsynth p [] [] N [] hat hN hident (by simp) with ⟨r, hr, -, -⟩
      rw [hline] at hat
      rcases step_wraps disk 0 hw hat with ⟨q, -, -, hq, hstep⟩
      rw [hr 0, afterDirective, hfail q _ hq, if_pos (by decide)] at hstep
      cases hstep
    · refine ⟨out, fun p hat hempty hundef => ?_⟩
      rcases hsynth p [] [] N [] hat hN hident (by simp) with ⟨r, hr, -, hr'⟩
      rw [hline] at hat
      rcases step_wraps disk 0 hw hat with ⟨q, hqout, hqmacros, hq, hstep⟩
      have hundef' : q.isDefined (nameWithin (cutLine x₁ x₂ N [])) = false := by
        rw [isDefined, hqmacros]
        exact hundef
      have hwritten := hout q _ hq hundef'
      rw [hr 0, afterDirective] at hstep
      split at hstep
      · cases hstep
      · cases hstep
        rw [hqout, hempty, List.nil_append] at hwritten
        rw [hempty, List.nil_append] at hr'
        exact hr'.symm.trans hwritten
  rcases hsame with ⟨out, hout⟩
  have hfree := hout p hat rfl rfl
  have hbound := hout p' hat' rfl (by
    rw [isDefined, hname]
    show (Function.update p.storedMacros N (some {}) (nameWithin x₁)).isSome = false
    rw [Function.update_of_ne hN'.symm]
    rfl)
  have hvalue : p'.valueOf N [] = bytes "1" := by
    have hstored : p'.storedMacros N = some {} := Function.update_self ..
    rw [valueOf, hstored]
    rfl
  rw [← hbound, hvalue] at hfree
  have hlen := congrArg List.length hfree
  simp only [paramText, List.length_append] at hlen
  have hnone : (p.valueOf N []).length = 0 := rfl
  have hone : (bytes "1").length = 1 := rfl
  omega

/-- **Parameters.**  A line `#param (T) N = D` becomes the declaration, whatever the macros, the name and
the default are, exactly if the type nests fewer than `2 ^ 16 - 1` parentheses.  The buffer stays below
`2 ^ 32` bytes. -/
theorem synthesizes_iff (disk : Disk) (hT : TypeText T) (hsmall : T.length + 15 < 2 ^ 32) :
    Synthesizes disk T ↔ ∀ u v, T = u ++ v → balance u < 2 ^ 16 - 1 := by
  constructor
  · intro hsynth u v huv
    by_contra hdeep
    rcases exists_wraps hT huv (not_lt.mp hdeep) with ⟨w, x, hTwx, hw⟩
    exact not_synthesizes_of_wraps hT hTwx hw hsmall hsynth
  · exact synthesizes_of_shallow hT

/-- A text in `k` pairs of parentheses. -/
def nestedType (k : ℕ) (s : List Byte) : List Byte :=
  List.replicate k '('.toUInt8 ++ (s ++ List.replicate k ')'.toUInt8)

section Nested

variable {k : ℕ} {s : List Byte} (hs : '('.toUInt8 ∉ s ∧ ')'.toUInt8 ∉ s ∧ '\n'.toUInt8 ∉ s)

include hs in
lemma balance_nestedType (n : ℕ) :
    balance ((nestedType k s).take n) = (min n k : ℕ) - (min (n - k - s.length) k : ℕ) := by
  have hclose (j : ℕ) : balance (List.replicate j ')'.toUInt8) = -j := by
    rw [balance, List.count_replicate_self, List.count_eq_zero.mpr]
    · simp
    · intro hmem
      exact absurd (List.eq_of_mem_replicate hmem) (by decide)
  have hmiddle (j : ℕ) : balance (s.take j) = 0 := by
    rw [balance, List.count_eq_zero.mpr fun h => hs.1 (List.mem_of_mem_take h),
      List.count_eq_zero.mpr fun h => hs.2.1 (List.mem_of_mem_take h)]
    rfl
  rw [nestedType, List.take_append, List.length_replicate, List.take_replicate, List.take_append,
    List.take_replicate, balance_append, balance_append, balance_replicate, hclose, hmiddle]
  omega

include hs in
lemma typeText_nestedType (hk : 0 < k) : TypeText (nestedType k s) := by
  have hpre {u v : List Byte} (huv : nestedType k s = u ++ v) : u = (nestedType k s).take u.length := by
    rw [huv, List.take_left]
  refine ⟨fun hc => ?_, ?_, fun u v huv => ?_, fun htrim => ?_⟩
  · rw [nestedType, List.mem_append, List.mem_append] at hc
    rcases hc with hc | hc | hc
    · exact absurd (List.eq_of_mem_replicate hc) (by decide)
    · exact hs.2.2 hc
    · exact absurd (List.eq_of_mem_replicate hc) (by decide)
  · have hall := balance_nestedType hs (k := k) (nestedType k s).length
    rw [List.take_length] at hall
    rw [hall, nestedType, List.length_append, List.length_append, List.length_replicate,
      List.length_replicate]
    omega
  · rw [hpre huv, balance_nestedType hs]
    omega
  · rcases Strip.exists_margins isSpace (nestedType k s) with ⟨a, b, hab, ha, hb⟩
    rw [show Strip.strip isSpace (nestedType k s) = [] from htrim, List.nil_append] at hab
    have hin : '('.toUInt8 ∈ a ++ b := by
      rw [← hab, nestedType]
      exact List.mem_append_left _ (List.mem_replicate.mpr ⟨hk.ne', rfl⟩)
    rcases List.mem_append.mp hin with hin | hin
    · exact absurd (ha _ hin) (by decide)
    · exact absurd (hb _ hin) (by decide)

end Nested

/-- **A type with `2 ^ 16 - 1` parentheses inside each other is cut off.** -/
theorem nestedType_cut : TypeText (nestedType (2 ^ 16 - 1) []) ∧
    (nestedType (2 ^ 16 - 1) []).length + 15 < 2 ^ 32 ∧
      ∀ disk, ¬ Synthesizes disk (nestedType (2 ^ 16 - 1) []) := by
  have hT : TypeText (nestedType (2 ^ 16 - 1) []) := typeText_nestedType (by decide) (by decide)
  have hsmall : (nestedType (2 ^ 16 - 1) []).length + 15 < 2 ^ 32 := by
    rw [nestedType, List.length_append, List.length_append, List.length_replicate, List.length_replicate]
    decide
  exact ⟨hT, hsmall, fun disk =>
    not_synthesizes_of_wraps hT rfl (wraps_replicate (by decide) (by decide)) hsmall⟩

/-- A type with parentheses of its own. -/
theorem synthesizes_sample : Synthesizes (fun _ => none) (bytes "f(int)") := by
  have hall : ∀ n < 7, 0 ≤ balance ((bytes "f(int)").take n) ∧
      balance ((bytes "f(int)").take n) < 2 ^ 16 - 1 := by
    decide +kernel
  have hpre {u v : List Byte} (huv : bytes "f(int)" = u ++ v) :
      0 ≤ balance u ∧ balance u < 2 ^ 16 - 1 := by
    have hlen := congrArg List.length huv
    rw [List.length_append, show (bytes "f(int)").length = 6 from rfl] at hlen
    have htake := hall u.length (by omega)
    rwa [huv, List.take_left] at htake
  have hT : TypeText (bytes "f(int)") :=
    ⟨by decide, by decide +kernel, fun u v huv => (hpre huv).1, by decide +kernel⟩
  exact (synthesizes_iff _ hT (by decide)).mpr fun u v huv => (hpre huv).2

end Preprocessor

end LogicCompiler
