import LogicCompiler.Library.Chains
import LogicCompiler.Library.Strip
import LogicCompiler.Preproc.Conditionals
import LogicCompiler.Preproc.Progress

/-!
# What a condition evaluates to

`evalCondition` looks at the trimmed text of its condition once, and comes to a value or to the
body of a macro that it calls itself on (`condTurn`).  So an evaluation is the walk along a chain
of texts, and it ends exactly when the chain does (`evaluates_iff_ends`).

A comparison is cut at the first `==` of the whole text, and at the first `!=` only where there is
no `==`; each side is resolved through one macro.
-/

namespace LogicCompiler

namespace Preprocessor

variable {p q : Preprocessor} {cond : Snippet} {res : ℤ}

/-! ## One call -/

/-- What a call of `evalCondition` comes to: a value, or the body it calls itself on. -/
inductive CondTurn where
  | value (res : ℤ)
  | body (content : Snippet)
  deriving DecidableEq, Repr

/-- The text is one comparison, cut at `opPos`. -/
def compareAt (p : Preprocessor) (trimmed : List Byte) (opPos : ℕ) : Prop :=
  p.resolveSide (trim (trimmed.take opPos)) = p.resolveSide (trim (trimmed.drop (opPos + 2)))

instance (p : Preprocessor) (trimmed : List Byte) (opPos : ℕ) :
    Decidable (p.compareAt trimmed opPos) :=
  inferInstanceAs (Decidable (_ = _))

/-- What is done with the trimmed text of a condition. -/
def condTurn (p : Preprocessor) (trimmed : List Byte) : CondTurn :=
  if trimmed = [] then .value 0
  else if p.currActive = .Ifndef then .value (if !p.isDefined trimmed then 1 else 0)
  else if p.currActive = .If ∨ p.currActive = .Elif then
    if trimmed = bytes "0" ∨ trimmed = bytes "false" then .value 0
    else if trimmed = bytes "1" ∨ trimmed = bytes "true" then .value 1
    else
      match Search.findSeq (bytes "==") trimmed, Search.findSeq (bytes "!=") trimmed with
      | some opPos, _ => .value (if p.compareAt trimmed opPos then 1 else 0)
      | none, some opPos => .value (if p.compareAt trimmed opPos then 0 else 1)
      | none, none =>
          if p.isDefined trimmed then
            if hasBody (p.findDefined trimmed) then .body (p.findDefined trimmed).content
            else .value 1
          else .value 0
  else .value (-1)

/-- `evalCondition` is one such look after the other. -/
lemma evalCondition_succ (p : Preprocessor) (n : ℕ) (cond : Snippet) :
    p.evalCondition (n + 1) cond = match p.condTurn (trim (p.fileMgr.read cond)) with
      | .value res => some res
      | .body content => p.evalCondition n content := by
  rw [evalCondition, condTurn]
  dsimp only
  split
  · rfl
  split
  · rfl
  split
  · split
    · rfl
    split
    · rfl
    · cases heq : Search.findSeq (bytes "==") (trim (p.fileMgr.read cond)) with
      | some opPos => rfl
      | none =>
          cases hne : Search.findSeq (bytes "!=") (trim (p.fileMgr.read cond)) with
          | some opPos =>
              show some (if ¬ p.compareAt _ opPos then (1 : ℤ) else 0) = _
              by_cases hmatch : p.compareAt (trim (p.fileMgr.read cond)) opPos
              · simp [hmatch]
              · simp [hmatch]
          | none =>
              dsimp only [Option.or]
              split_ifs <;> rfl
  · rfl

lemma evalCondition_mono {n m : ℕ} (hnm : n ≤ m) (h : p.evalCondition n cond = some res) :
    p.evalCondition m cond = some res := by
  induction n generalizing m cond with
  | zero => cases h
  | succ n ih =>
      rcases Nat.exists_eq_succ_of_ne_zero (Nat.ne_of_gt (Nat.lt_of_lt_of_le n.succ_pos hnm)) with
        ⟨m, rfl⟩
      rw [evalCondition_succ] at h ⊢
      cases hturn : p.condTurn (trim (p.fileMgr.read cond)) with
      | value res' => rwa [hturn] at h
      | body content =>
          rw [hturn] at h
          exact ih (Nat.le_of_succ_le_succ hnm) h

/-! ## Evaluations -/

/-- `evalCondition` returns `res`. -/
def Evaluates (p : Preprocessor) (cond : Snippet) (res : ℤ) : Prop :=
  ∃ n, p.evalCondition n cond = some res

lemma Evaluates.unique {res' : ℤ} (h : Evaluates p cond res) (h' : Evaluates p cond res') :
    res = res' := by
  rcases h with ⟨n, hn⟩
  rcases h' with ⟨m, hm⟩
  have heq := evalCondition_mono (le_max_left n m) hn
  rw [evalCondition_mono (le_max_right n m) hm] at heq
  exact (Option.some.inj heq).symm

lemma evaluates_of_value (h : p.condTurn (trim (p.fileMgr.read cond)) = .value res) :
    Evaluates p cond res := ⟨1, by rw [evalCondition_succ, h]⟩

lemma evaluates_of_body {content : Snippet}
    (h : p.condTurn (trim (p.fileMgr.read cond)) = .body content) :
    Evaluates p cond res ↔ Evaluates p content res := by
  constructor
  · rintro ⟨_ | n, hn⟩
    · cases hn
    · rw [evalCondition_succ, h] at hn
      exact ⟨n, hn⟩
  · rintro ⟨n, hn⟩
    exact ⟨n + 1, by rw [evalCondition_succ, h]; exact hn⟩

/-- The text that an evaluation looks at behind this one. -/
def nextText (p : Preprocessor) (trimmed : List Byte) : Option (List Byte) :=
  match p.condTurn trimmed with
  | .value _ => none
  | .body content => some (trim (p.fileMgr.read content))

/-- An evaluation ends when the chain of the texts does. -/
lemma evaluates_iff_ends (p : Preprocessor) (cond : Snippet) :
    (∃ res, Evaluates p cond res) ↔ Chain.Ends p.nextText (trim (p.fileMgr.read cond)) := by
  constructor
  · rintro ⟨res, n, hn⟩
    induction n generalizing cond with
    | zero => cases hn
    | succ n ih =>
        rw [evalCondition_succ] at hn
        cases hturn : p.condTurn (trim (p.fileMgr.read cond)) with
        | value res' => exact .stop (by rw [nextText, hturn])
        | body content =>
            rw [hturn] at hn
            exact .link (by rw [nextText, hturn]) (ih content hn)
  · intro h
    generalize htext : trim (p.fileMgr.read cond) = text at h
    induction h generalizing cond with
    | stop hstop =>
        subst htext
        rw [nextText] at hstop
        split at hstop
        · next res hturn => exact ⟨res, evaluates_of_value hturn⟩
        · cases hstop
    | link hlink _ ih =>
        subst htext
        rw [nextText] at hlink
        split at hlink
        · cases hlink
        · next content hturn =>
            rcases ih content (Option.some.inj hlink) with ⟨res, hres⟩
            exact ⟨res, (evaluates_of_body hturn).mpr hres⟩

/-! ## Which evaluations end -/

/-- Only a macro is followed. -/
lemma isDefined_of_body {text : List Byte} {content : Snippet}
    (h : p.condTurn text = .body content) : p.isDefined text = true := by
  rw [condTurn] at h
  split at h
  · cases h
  split at h
  · cases h
  split at h
  · split at h
    · cases h
    split at h
    · cases h
    split at h
    · cases h
    · cases h
    · split at h
      · next hdef => exact hdef
      · cases h
  · cases h

lemma isDefined_of_nextText {text next : List Byte} (h : p.nextText text = some next) :
    p.storedMacros text ≠ none := by
  rw [nextText] at h
  split at h
  · cases h
  · next content hturn => exact Option.isSome_iff_ne_none.mp (isDefined_of_body hturn)

lemma finite_nextText (h : {name | p.storedMacros name ≠ none}.Finite) :
    {text | (p.nextText text).isSome = true}.Finite := by
  refine h.subset fun text htext => ?_
  rcases Option.isSome_iff_exists.mp htext with ⟨next, hnext⟩
  exact isDefined_of_nextText hnext

/-- **A condition is evaluated unless the macro bodies it leads through run into a cycle.** -/
theorem evalCondition_returns_iff {disk : Disk} {basePath filePath : List Byte}
    (h : Runs disk (ofFile disk basePath filePath) p) (active : MacroType) (cond : Snippet) :
    (∃ n, ((p.setActive active).evalCondition n cond).isSome = true) ↔
      ¬ Chain.RunsIntoCycle (p.setActive active).nextText (trim (p.fileMgr.read cond)) := by
  have hends := evaluates_iff_ends (p.setActive active) cond
  have hmacros : {name | (p.setActive active).storedMacros name ≠ none}.Finite :=
    finite_macros (q := p) h
  rw [Chain.ends_iff (finite_nextText hmacros)] at hends
  refine Iff.trans ?_ hends
  constructor
  · rintro ⟨n, hn⟩
    rcases Option.isSome_iff_exists.mp hn with ⟨res, hres⟩
    exact ⟨res, n, hres⟩
  · rintro ⟨res, n, hn⟩
    exact ⟨n, by rw [hn]; rfl⟩

/-- One file: a macro whose body is its own name. -/
def selfMacroDisk : Disk := fun path =>
  if path = bytes "f" then some (bytes "#define A A\n#if A\n") else none

/-- The preprocessor behind the definition. -/
def selfMacroState : Preprocessor :=
  { ofFile selfMacroDisk [] (bytes "f") with
    inputStack := [{ content := { offset := 2, size := 18 }, cursor := 12 }]
    storedMacros := Function.update (fun _ => none) (bytes "A")
      (some { content := { offset := 12, size := 1 }, t := .Define })
    currActive := .Define }

set_option maxRecDepth 20000 in
lemma selfMacro_steps (n : ℕ) :
    (ofFile selfMacroDisk [] (bytes "f")).step selfMacroDisk n = .next selfMacroState := rfl

lemma selfMacro_runs :
    Runs selfMacroDisk (ofFile selfMacroDisk [] (bytes "f")) selfMacroState :=
  .single (.of_forall selfMacro_steps)

lemma selfMacro_diverges (n : ℕ) :
    (selfMacroState.setActive .If).evalCondition n { offset := 18, size := 1 } = none := by
  have hbody : ∀ n, (selfMacroState.setActive .If).evalCondition n { offset := 12, size := 1 }
      = none := by
    intro n
    induction n with
    | zero => rfl
    | succ n ih => exact ih
  cases n with
  | zero => rfl
  | succ n => exact hbody n

/-- The body of `A` is `A`. -/
theorem selfMacro_cycle :
    Chain.RunsIntoCycle (selfMacroState.setActive .If).nextText (bytes "A") := by
  by_contra hno
  rcases (evalCondition_returns_iff selfMacro_runs .If { offset := 18, size := 1 }).mpr hno with
    ⟨n, hn⟩
  rw [selfMacro_diverges] at hn
  cases hn

/-- Behind `#define A A` the condition `A` of the next line is followed for ever. -/
theorem evalCondition_self_macro :
    Runs selfMacroDisk (ofFile selfMacroDisk [] (bytes "f")) selfMacroState ∧
      selfMacroState.fileMgr.read { offset := 18, size := 1 } = bytes "A" ∧
      ¬ ∃ n, ((selfMacroState.setActive .If).evalCondition n
        { offset := 18, size := 1 }).isSome = true := by
  refine ⟨selfMacro_runs, rfl, ?_⟩
  rintro ⟨n, hn⟩
  rw [selfMacro_diverges] at hn
  cases hn

/-! ## Comparisons -/

section Comparisons

variable {L R u v : List Byte} {opPos : ℕ}

/-- The condition is that of an `#if` or an `#elif`. -/
def InCondition (p : Preprocessor) : Prop := p.currActive = .If ∨ p.currActive = .Elif

lemma InCondition.not_ifndef (h : InCondition p) : p.currActive ≠ .Ifndef := by
  rcases h with h | h
  · rw [h]; exact fun hc => by cases hc
  · rw [h]; exact fun hc => by cases hc

/-- The texts that stand for a truth value by themselves. -/
def literalTexts : List (List Byte) := [[], bytes "0", bytes "false", bytes "1", bytes "true"]

/-- Any other text is a comparison or the name of a macro. -/
lemma condTurn_text {text : List Byte} (hp : InCondition p) (hlit : text ∉ literalTexts) :
    p.condTurn text =
      match Search.findSeq (bytes "==") text, Search.findSeq (bytes "!=") text with
      | some opPos, _ => .value (if p.compareAt text opPos then 1 else 0)
      | none, some opPos => .value (if p.compareAt text opPos then 0 else 1)
      | none, none =>
          if p.isDefined text then
            if hasBody (p.findDefined text) then .body (p.findDefined text).content
            else .value 1
          else .value 0 := by
  simp only [literalTexts, List.mem_cons, List.not_mem_nil, or_false, not_or] at hlit
  rcases hlit with ⟨hnil, hzero, hfalse, hone, htrue⟩
  have hactive : p.currActive = .If ∨ p.currActive = .Elif := hp
  rw [condTurn, if_neg hnil, if_neg hp.not_ifndef, if_pos hactive,
    if_neg (not_or.mpr ⟨hzero, hfalse⟩), if_neg (not_or.mpr ⟨hone, htrue⟩)]

lemma notMem_literalTexts {needle text : List Byte}
    (hnone : ∀ lit ∈ literalTexts, Search.findSeq needle lit = none)
    (hpos : Search.findSeq needle text = some opPos) : text ∉ literalTexts := by
  intro hmem
  rw [hnone text hmem] at hpos
  cases hpos

/-- A text with `==` in it is compared. -/
lemma condTurn_eq {text : List Byte} (hp : InCondition p)
    (hpos : Search.findSeq (bytes "==") text = some opPos) :
    p.condTurn text = .value (if p.compareAt text opPos then 1 else 0) := by
  rw [condTurn_text hp (notMem_literalTexts (by decide) hpos), hpos]

/-- A text with `!=` but no `==` in it is compared the other way. -/
lemma condTurn_ne {text : List Byte} (hp : InCondition p)
    (hno : Search.findSeq (bytes "==") text = none)
    (hpos : Search.findSeq (bytes "!=") text = some opPos) :
    p.condTurn text = .value (if p.compareAt text opPos then 0 else 1) := by
  rw [condTurn_text hp (notMem_literalTexts (by decide) hpos), hno, hpos]

/-- What is compared when a text is cut at an operator. -/
lemma compareAt_iff {o : List Byte} (ho : o.length = 2) (u v : List Byte) :
    p.compareAt (u.dropWhile isSpace ++ (o ++ v.rdropWhile isSpace)) (u.dropWhile isSpace).length ↔
      p.resolveSide (trim u) = p.resolveSide (trim v) := by
  rw [compareAt, List.take_left' rfl, ← ho, ← List.length_append, ← List.append_assoc,
    List.drop_left' rfl]
  show p.resolveSide (Strip.strip isSpace _) = p.resolveSide (Strip.strip isSpace _) ↔ _
  rw [Strip.strip_dropWhile, Strip.strip_rdropWhile]
  rfl

/-- Trimming keeps what stands around an operator. -/
lemma trim_operator {o : List Byte} (ho : Strip.Bare isSpace o) (hne : o ≠ []) (u v : List Byte) :
    trim (u ++ (o ++ v)) = u.dropWhile isSpace ++ (o ++ v.rdropWhile isSpace) :=
  Strip.strip_around ho hne

lemma bare_operator : Strip.Bare isSpace (bytes "==") ∧ Strip.Bare isSpace (bytes "!=") := by
  refine ⟨⟨?_, ?_⟩, ⟨?_, ?_⟩⟩ <;> decide

/-- A condition is cut at the first `==` of its text. -/
lemma evaluates_eq (hp : InCondition p) (hfirst : Search.FirstBefore (bytes "==") u)
    (hread : p.fileMgr.read cond = u ++ (bytes "==" ++ v)) :
    Evaluates p cond (if p.resolveSide (trim u) = p.resolveSide (trim v) then 1 else 0) := by
  have hpos := Search.findSeq_of_firstBefore (v.rdropWhile isSpace) (by decide)
    (hfirst.suffix (List.dropWhile_suffix isSpace))
  refine evaluates_of_value ?_
  rw [hread, trim_operator bare_operator.1 (by decide), condTurn_eq hp hpos]
  simp only [compareAt_iff (show (bytes "==").length = 2 from rfl)]

/-- Where there is none, it is cut at the first `!=`. -/
lemma evaluates_ne (hp : InCondition p) (hno : ¬ bytes "==" <:+: u ++ (bytes "!=" ++ v))
    (hfirst : Search.FirstBefore (bytes "!=") u)
    (hread : p.fileMgr.read cond = u ++ (bytes "!=" ++ v)) :
    Evaluates p cond (if p.resolveSide (trim u) = p.resolveSide (trim v) then 0 else 1) := by
  have hpos := Search.findSeq_of_firstBefore (v.rdropWhile isSpace) (by decide)
    (hfirst.suffix (List.dropWhile_suffix isSpace))
  have hnone : Search.findSeq (bytes "==")
      (u.dropWhile isSpace ++ (bytes "!=" ++ v.rdropWhile isSpace)) = none := by
    rw [Search.findSeq_eq_none_iff (by decide)]
    rcases List.dropWhile_suffix (l := u) isSpace with ⟨u', hu⟩
    rcases List.rdropWhile_prefix isSpace v with ⟨v', hv⟩
    intro hin
    refine hno (hin.trans ⟨u', v', ?_⟩)
    conv_rhs => rw [← hu, ← hv]
    simp
  refine evaluates_of_value ?_
  rw [hread, trim_operator bare_operator.2 (by decide), condTurn_ne hp hnone hpos]
  simp only [compareAt_iff (show (bytes "!=").length = 2 from rfl)]

/-! ### `!=` against `==` -/

/-- Neither operator occurs in the text. -/
structure OperatorFree (L : List Byte) : Prop where
  eq : ¬ bytes "==" <:+: L
  ne : ¬ bytes "!=" <:+: L

lemma trim_blank_right (L : List Byte) : trim (L ++ bytes " ") = trim L :=
  Strip.strip_append_right (by decide)

lemma trim_blank_left (R : List Byte) : trim (bytes " " ++ R) = trim R :=
  Strip.strip_append (by decide)

/-- A blank separates what stands in front of it from an operator. -/
lemma firstBefore_blank {needle : List Byte} (hblank : ' '.toUInt8 ∉ needle) (hne : needle ≠ [])
    (hL : ¬ needle <:+: L) : Search.FirstBefore needle (L ++ bytes " ") := by
  intro hin
  have hsplit : L ++ bytes " " ++ needle.dropLast = L ++ ' '.toUInt8 :: needle.dropLast := by
    simp [bytes]
  rw [hsplit] at hin
  rcases Search.infix_append_cons hblank hin with h | h
  · exact hL h
  · have hlen := h.length_le
    have hpos := List.length_pos_iff.mpr hne
    rw [List.length_dropLast] at hlen
    omega

/-- `L == R` is cut between its sides. -/
lemma evaluates_eq_text (hp : InCondition p) (hL : OperatorFree L)
    (hread : p.fileMgr.read cond = L ++ (bytes " == " ++ R)) :
    Evaluates p cond (if p.resolveSide (trim L) = p.resolveSide (trim R) then 1 else 0) := by
  have hsplit : L ++ (bytes " == " ++ R) =
      (L ++ bytes " ") ++ (bytes "==" ++ (bytes " " ++ R)) := by simp [bytes]
  have heval := evaluates_eq hp (firstBefore_blank (by decide) (by decide) hL.eq)
    (hread.trans hsplit)
  rwa [trim_blank_right, trim_blank_left] at heval

/-- `L != R` where `R` has no `==` of its own. -/
lemma evaluates_ne_text (hp : InCondition p) (hL : OperatorFree L) (hR : ¬ bytes "==" <:+: R)
    (hread : p.fileMgr.read cond = L ++ (bytes " != " ++ R)) :
    Evaluates p cond (if p.resolveSide (trim L) = p.resolveSide (trim R) then 0 else 1) := by
  have hsplit : L ++ (bytes " != " ++ R) =
      (L ++ bytes " ") ++ (bytes "!=" ++ (bytes " " ++ R)) := by simp [bytes]
  have hno : ¬ bytes "==" <:+: (L ++ bytes " ") ++ (bytes "!=" ++ (bytes " " ++ R)) := by
    intro hin
    have hcut : (L ++ bytes " ") ++ (bytes "!=" ++ (bytes " " ++ R)) =
        L ++ ' '.toUInt8 :: (bytes "!=" ++ ' '.toUInt8 :: R) := by simp [bytes]
    rw [hcut] at hin
    rcases Search.infix_append_cons (by decide) hin with h | h
    · exact hL.eq h
    · rcases Search.infix_append_cons (by decide) h with h | h
      · exact absurd h (by decide)
      · exact hR h
  have heval := evaluates_ne hp hno (firstBefore_blank (by decide) (by decide) hL.ne)
    (hread.trans hsplit)
  rwa [trim_blank_right, trim_blank_left] at heval

/-- `L != R1 == R2` is cut at the `==`. -/
lemma evaluates_ne_cut {R1 R2 : List Byte} (hp : InCondition p) (hL : OperatorFree L)
    (hfirst : Search.FirstBefore (bytes "==") R1)
    (hread : p.fileMgr.read cond = L ++ (bytes " != " ++ (R1 ++ (bytes "==" ++ R2)))) :
    Evaluates p cond (if p.resolveSide (trim (L ++ (bytes " != " ++ R1)))
      = p.resolveSide (trim R2) then 1 else 0) := by
  have hsplit : L ++ (bytes " != " ++ (R1 ++ (bytes "==" ++ R2))) =
      (L ++ (bytes " != " ++ R1)) ++ (bytes "==" ++ R2) := by simp
  refine evaluates_eq hp (fun hin => ?_) (hread.trans hsplit)
  have hcut : L ++ (bytes " != " ++ R1) ++ (bytes "==").dropLast =
      L ++ ' '.toUInt8 :: (bytes "!=" ++ ' '.toUInt8 :: (R1 ++ (bytes "==").dropLast)) := by
    simp [bytes]
  rw [hcut] at hin
  rcases Search.infix_append_cons (by decide) hin with h | h
  · exact hL.eq h
  · rcases Search.infix_append_cons (by decide) h with h | h
    · exact absurd h (by decide)
    · exact hfirst h

/-- Where `L != R` is cut at a `==` of `R`, the sides of that cut are equal just when `L` and `R`
are not. -/
def CutAgrees (p : Preprocessor) (L R : List Byte) : Prop :=
  ∀ R1 R2, R = R1 ++ (bytes "==" ++ R2) → Search.FirstBefore (bytes "==") R1 →
    (p.resolveSide (trim (L ++ (bytes " != " ++ R1))) = p.resolveSide (trim R2) ↔
      p.resolveSide (trim L) ≠ p.resolveSide (trim R))

/-- **`!=` is the negation of `==` unless it is cut at a `==` behind it.** -/
theorem comparisons_opposite_iff {condEq condNe : Snippet} (hp : InCondition p)
    (hL : OperatorFree L) (heq : p.fileMgr.read condEq = L ++ (bytes " == " ++ R))
    (hne : p.fileMgr.read condNe = L ++ (bytes " != " ++ R)) :
    (Evaluates p condEq (if p.resolveSide (trim L) = p.resolveSide (trim R) then 1 else 0) ∧
      Evaluates p condNe (if p.resolveSide (trim L) = p.resolveSide (trim R) then 0 else 1)) ↔
        p.CutAgrees L R := by
  rw [and_iff_right (evaluates_eq_text hp hL heq)]
  constructor
  · rintro heval R1 R2 rfl hfirst
    have hval := heval.unique (evaluates_ne_cut hp hL hfirst hne)
    split_ifs at hval with hsame hcutsame hcutsame
    · exact absurd hval (by decide)
    · simp [hcutsame, hsame]
    · simp [hcutsame, hsame]
    · exact absurd hval (by decide)
  · intro hagrees
    by_cases hin : bytes "==" <:+: R
    · rcases hfind : Search.findSeq (bytes "==") R with _ | k
      · exact absurd hin ((Search.findSeq_eq_none_iff (by decide)).mp hfind)
      · rcases (Search.findSeq_eq_some_iff (by decide)).mp hfind with ⟨R1, R2, hR, -, hfirst⟩
        have hiff := hagrees R1 R2 hR hfirst
        have hcut := evaluates_ne_cut hp hL hfirst (hR ▸ hne)
        split_ifs at hcut ⊢ with hsame hcutsame hcutsame
        · exact absurd hsame (hiff.mp hcutsame)
        · exact hcut
        · exact hcut
        · exact absurd (hiff.mpr hsame) hcutsame
    · exact evaluates_ne_text hp hL hin hne

/-- Two comparisons in the text of one file, and no macros. -/
def comparisonState : Preprocessor :=
  (ofText (bytes "A == B\nA != B\nA == B == C\nA != B == C\n")).setActive .If

theorem comparisons_opposite_sample :
    Evaluates comparisonState { offset := 0, size := 6 } 0 ∧
      Evaluates comparisonState { offset := 7, size := 6 } 1 := by
  have hfree : OperatorFree (bytes "A") := ⟨by decide, by decide⟩
  have hagrees : comparisonState.CutAgrees (bytes "A") (bytes "B") := by
    intro R1 R2 hR _
    have hlen := congrArg List.length hR
    simp [bytes] at hlen
    omega
  exact (comparisons_opposite_iff (.inl rfl) hfree rfl rfl).mpr hagrees

/-- `A != B == C` compares `A != B` with `C`, and so is as false as `A == B == C`. -/
theorem ne_cut_at_eq :
    OperatorFree (bytes "A") ∧
      comparisonState.fileMgr.read { offset := 14, size := 11 } =
        bytes "A" ++ (bytes " == " ++ bytes "B == C") ∧
      comparisonState.fileMgr.read { offset := 26, size := 11 } =
        bytes "A" ++ (bytes " != " ++ bytes "B == C") ∧
      Evaluates comparisonState { offset := 14, size := 11 } 0 ∧
      ¬ Evaluates comparisonState { offset := 26, size := 11 } 1 := by
  have hne : Evaluates comparisonState { offset := 26, size := 11 } 0 := ⟨1, by decide +kernel⟩
  refine ⟨⟨by decide, by decide⟩, by decide, by decide, ⟨1, by decide +kernel⟩, fun hone => ?_⟩
  exact absurd (hone.unique hne) (by decide)

end Comparisons

/-! ## Chains of macros down to a number -/

section Numbers

variable {n : ℤ} {m : List Byte} {ms : List (List Byte)}

/-- The digits of an integer, without leading zeros. -/
def decimal (n : ℤ) : List Byte :=
  (if n < 0 then bytes "-" else []) ++ (Nat.toDigits 10 n.natAbs).map Char.toUInt8

lemma digit_toUInt8 {c : Char} (hc : c.isDigit = true) :
    48 ≤ c.toUInt8.toNat ∧ c.toUInt8.toNat ≤ 57 ∧ Char.ofNat c.toUInt8.toNat = c := by
  have hrange : 48 ≤ c.toNat ∧ c.toNat ≤ 57 := by
    simpa [Char.isDigit, UInt32.le_iff_toNat_le] using hc
  have hval : c.toUInt8.toNat = c.toNat := by
    show c.val.toNat % 256 = c.val.toNat
    have : c.val.toNat = c.toNat := rfl
    omega
  rw [hval]
  exact ⟨hrange.1, hrange.2, Char.ofNat_toNat c⟩

lemma isDigit_toDigits {k : ℕ} {c : Char} (hc : c ∈ Nat.toDigits 10 k) : c.isDigit = true :=
  Nat.isDigit_of_mem_toDigits (by decide) (by decide) hc

/-- The digits of a number determine it. -/
lemma toDigits_inj {k l : ℕ}
    (h : (Nat.toDigits 10 k).map Char.toUInt8 = (Nat.toDigits 10 l).map Char.toUInt8) : k = l := by
  have hback : ∀ j : ℕ, ((Nat.toDigits 10 j).map Char.toUInt8).map (fun b => Char.ofNat b.toNat)
      = Nat.toDigits 10 j := by
    intro j
    rw [List.map_map]
    refine (List.map_congr_left fun c hc => ?_).trans (List.map_id _)
    exact (digit_toUInt8 (isDigit_toDigits hc)).2.2
  rw [← Nat.ofDigitChars_ten_toDigits (n := k), ← hback k, h, hback l,
    Nat.ofDigitChars_ten_toDigits]

lemma mem_decimal {c : Byte} (hc : c ∈ decimal n) : c = '-'.toUInt8 ∨ 48 ≤ c.toNat ∧ c.toNat ≤ 57 := by
  rcases List.mem_append.mp hc with h | h
  · split_ifs at h
    · exact .inl (by simpa [bytes] using h)
    · cases h
  · rcases List.mem_map.mp h with ⟨d, hd, rfl⟩
    have hdigit := digit_toUInt8 (isDigit_toDigits hd)
    exact .inr ⟨hdigit.1, hdigit.2.1⟩

/-- A text of one digit is the number that digit stands for. -/
lemma decimal_eq_digit {k : ℕ} {c : Byte} (hk : (Nat.toDigits 10 k).map Char.toUInt8 = [c])
    (hc : c ≠ '-'.toUInt8) : decimal n = [c] ↔ n = k := by
  constructor
  · intro h
    rw [decimal] at h
    split_ifs at h with hneg
    · exact absurd (List.cons.inj h).1.symm hc
    · have hnat := toDigits_inj (h.trans hk.symm)
      omega
  · rintro rfl
    rw [decimal, if_neg (by omega)]
    exact hk

lemma decimal_ne_nil (n : ℤ) : decimal n ≠ [] := by
  rw [decimal]
  simp [Nat.toDigits_ne_nil]

/-- A text without an `=` is no comparison. -/
lemma operatorFree_of_notMem {text : List Byte} (h : '='.toUInt8 ∉ text) : OperatorFree text :=
  ⟨fun hin => h (hin.subset (by decide)), fun hin => h (hin.subset (by decide))⟩

/-- Any other text than a comparison is looked up as the name of a macro. -/
lemma condTurn_name {text : List Byte} (hp : InCondition p) (hlit : text ∉ literalTexts)
    (hfree : OperatorFree text) :
    p.condTurn text =
      if p.isDefined text then
        if hasBody (p.findDefined text) then .body (p.findDefined text).content else .value 1
      else .value 0 := by
  rw [condTurn_text hp hlit, (Search.findSeq_eq_none_iff (by decide)).mpr hfree.eq,
    (Search.findSeq_eq_none_iff (by decide)).mpr hfree.ne]

/-- The value of a number as a condition: but for `0` and `1` it is looked up as a name. -/
lemma condTurn_decimal (hp : InCondition p) (hn : p.isDefined (decimal n) = false) :
    p.condTurn (decimal n) = .value (if n = 1 then 1 else 0) := by
  have hzero : decimal n = bytes "0" ↔ n = 0 := decimal_eq_digit rfl (by decide)
  have hone : decimal n = bytes "1" ↔ n = 1 := decimal_eq_digit rfl (by decide)
  have hactive : p.currActive = .If ∨ p.currActive = .Elif := hp
  have hword {lit : List Byte} (hlit : 'e'.toUInt8 ∈ lit) : decimal n ≠ lit := by
    rintro rfl
    rcases mem_decimal hlit with h | h
    · exact absurd h (by decide)
    · exact absurd h.2 (by decide)
  by_cases h0 : n = 0
  · rw [condTurn, if_neg (decimal_ne_nil n), if_neg hp.not_ifndef, if_pos hactive,
      if_pos (.inl (hzero.mpr h0)), if_neg (by omega)]
  by_cases h1 : n = 1
  · rw [condTurn, if_neg (decimal_ne_nil n), if_neg hp.not_ifndef, if_pos hactive,
      if_neg (not_or.mpr ⟨fun h => h0 (hzero.mp h), hword (by decide)⟩),
      if_pos (.inl (hone.mpr h1)), if_pos h1]
  · have hlit : decimal n ∉ literalTexts := by
      simp only [literalTexts, List.mem_cons, List.not_mem_nil, or_false, not_or]
      exact ⟨decimal_ne_nil n, fun h => h0 (hzero.mp h), hword (by decide), fun h => h1 (hone.mp h),
        hword (by decide)⟩
    have hfree : OperatorFree (decimal n) := by
      refine operatorFree_of_notMem fun hmem => ?_
      rcases mem_decimal hmem with h | h
      · exact absurd h (by decide)
      · exact absurd h.2 (by decide)
    rw [condTurn_name hp hlit hfree, hn, if_neg h1]
    rfl

/-! ### The chain -/

/-- The text a macro stands for. -/
def bodyText (p : Preprocessor) (name : List Byte) : Option (List Byte) :=
  if p.isDefined name && hasBody (p.findDefined name) then
    some (trim (p.fileMgr.read (p.findDefined name).content))
  else none

/-- Every macro of the list stands for the next one, and the last one for the number, which is no
macro itself. -/
inductive LiteralChain (p : Preprocessor) (n : ℤ) : List (List Byte) → Prop
  | last {m : List Byte} (hident : m ≠ [] ∧ ∀ c ∈ m, isIdentChar c = true)
      (hbody : p.bodyText m = some (decimal n)) (hn : p.isDefined (decimal n) = false) :
      LiteralChain p n [m]
  | link {m m' : List Byte} {ms : List (List Byte)}
      (hident : m ≠ [] ∧ ∀ c ∈ m, isIdentChar c = true) (hbody : p.bodyText m = some m')
      (h : LiteralChain p n (m' :: ms)) : LiteralChain p n (m :: m' :: ms)

/-- The condition is true. -/
def IsTrue (p : Preprocessor) (cond : Snippet) : Prop :=
  ∃ res, Evaluates p cond res ∧ condPassed res = true

lemma resolveSide_of_body {text : List Byte} (h : p.bodyText m = some text) :
    p.resolveSide m = text := by
  rw [bodyText] at h
  split_ifs at h with hdef
  rw [resolveSide, if_pos hdef]
  exact Option.some.inj h

lemma resolveSide_undefined (h : p.isDefined m = false) : p.resolveSide m = m := by
  rw [resolveSide, h]
  rfl

namespace LiteralChain

lemma ident (h : LiteralChain p n (m :: ms)) : m ≠ [] ∧ ∀ c ∈ m, isIdentChar c = true := by
  cases h with
  | last hident => exact hident
  | link hident => exact hident

lemma undefined (h : LiteralChain p n ms) : p.isDefined (decimal n) = false := by
  induction h with
  | last _ _ hn => exact hn
  | link _ _ _ ih => exact ih

lemma isDefined (h : LiteralChain p n (m :: ms)) : p.isDefined m = true := by
  have hbody : ∃ text, p.bodyText m = some text := by
    cases h with
    | last _ hbody => exact ⟨_, hbody⟩
    | link _ hbody => exact ⟨_, hbody⟩
  rcases hbody with ⟨text, htext⟩
  rw [bodyText] at htext
  split_ifs at htext with hdef
  exact (Bool.and_eq_true_iff.mp hdef).1

lemma setActive (h : LiteralChain p n ms) (t : MacroType) : LiteralChain (p.setActive t) n ms := by
  induction h with
  | last hident hbody hn => exact .last hident hbody hn
  | link hident hbody _ ih => exact .link hident hbody ih

end LiteralChain

lemma trim_decimal (n : ℤ) : trim (decimal n) = decimal n := by
  have hsolid : ∀ c ∈ decimal n, isSpace c = false := by
    intro c hc
    rcases mem_decimal hc with rfl | ⟨hlow, hhigh⟩
    · rfl
    · have hne : ∀ k : Byte, k.toNat < 48 → (c == k) = false := by
        intro k hk
        refine beq_false_of_ne ?_
        rintro rfl
        omega
      simp only [isSpace, isBlank, hne _ (show (' '.toUInt8).toNat < 48 by decide),
        hne _ (show ('\t'.toUInt8).toNat < 48 by decide),
        hne _ (show ('\r'.toUInt8).toNat < 48 by decide),
        hne _ (show ('\n'.toUInt8).toNat < 48 by decide), Bool.or_self]
  exact Strip.strip_bare ⟨fun c hc => hsolid c (List.mem_of_mem_head? hc),
    fun c hc => hsolid c (List.mem_of_mem_getLast? hc)⟩

lemma operatorFree_ident (h : ∀ c ∈ m, isIdentChar c = true) : OperatorFree m :=
  operatorFree_of_notMem fun hmem => absurd (h _ hmem) (by decide)

lemma isTrue_iff_of_evaluates (h : Evaluates p cond res) :
    IsTrue p cond ↔ condPassed res = true :=
  ⟨fun ⟨_, hres', htrue⟩ => h.unique hres' ▸ htrue, fun htrue => ⟨res, h, htrue⟩⟩

/-- What the comparison of the first macro with the number comes to. -/
lemma isTrue_compare_iff (hp : InCondition p) (h : LiteralChain p n (m :: ms))
    (hread : p.fileMgr.read cond = m ++ (bytes " == " ++ decimal n)) : IsTrue p cond ↔ ms = [] := by
  have heval := evaluates_eq_text hp (operatorFree_ident h.ident.2) hread
  rw [trim_ident h.ident.2, trim_decimal, resolveSide_undefined h.undefined] at heval
  rw [isTrue_iff_of_evaluates heval]
  cases h with
  | last _ hbody =>
      rw [resolveSide_of_body hbody, if_pos rfl]
      exact iff_of_true rfl rfl
  | @link _ m' ms _ hbody htail =>
      have hne : m' ≠ decimal n := by
        rintro rfl
        have hdef := htail.isDefined
        rw [htail.undefined] at hdef
        cases hdef
      rw [resolveSide_of_body hbody, if_neg hne]
      exact iff_of_false (by decide) (by simp)

/-- What a macro that stands for a number is as a condition. -/
def macroValue (m : List Byte) (n : ℤ) : ℤ :=
  if m = bytes "0" ∨ m = bytes "false" then 0
  else if m = bytes "1" ∨ m = bytes "true" then 1
  else if n = 1 then 1 else 0

lemma evaluates_single (hp : InCondition p) (h : LiteralChain p n [m])
    (hread : p.fileMgr.read cond = m) : Evaluates p cond (macroValue m n) := by
  have htrim : trim (p.fileMgr.read cond) = m := by rw [hread, trim_ident h.ident.2]
  have hactive : p.currActive = .If ∨ p.currActive = .Elif := hp
  rw [macroValue]
  split_ifs with hzero hone
  · refine evaluates_of_value ?_
    rw [htrim, condTurn, if_neg h.ident.1, if_neg hp.not_ifndef, if_pos hactive, if_pos hzero]
  · refine evaluates_of_value ?_
    rw [htrim, condTurn, if_neg h.ident.1, if_neg hp.not_ifndef, if_pos hactive, if_neg hzero,
      if_pos hone]
  all_goals
    have hlit : m ∉ literalTexts := by
      simp only [literalTexts, List.mem_cons, List.not_mem_nil, or_false, not_or]
      exact ⟨h.ident.1, (not_or.mp hzero).1, (not_or.mp hzero).2, (not_or.mp hone).1,
        (not_or.mp hone).2⟩
    cases h with
    | last hident hbody hn =>
        rw [bodyText] at hbody
        split_ifs at hbody with hdef
        have hbodied := Bool.and_eq_true_iff.mp hdef
        have hturn : p.condTurn (trim (p.fileMgr.read cond)) = .body (p.findDefined m).content := by
          rw [htrim, condTurn_name hp hlit (operatorFree_ident hident.2), if_pos hbodied.1,
            if_pos hbodied.2]
        rw [evaluates_of_body hturn]
        have hvalue := condTurn_decimal hp hn
        rw [← Option.some.inj hbody] at hvalue
        simpa [*] using evaluates_of_value hvalue

/-- The truth value of the macro as a condition is that of the number. -/
def TruthMatches (m : List Byte) (n : ℤ) : Prop :=
  (m = bytes "0" ∨ m = bytes "false" → n = 0) ∧ (m = bytes "1" ∨ m = bytes "true" → n ≠ 0) ∧
    (m ∉ literalTexts → n = 0 ∨ n = 1)

lemma macroValue_iff (hm : m ≠ []) :
    (condPassed (macroValue m n) = true ↔ n ≠ 0) ↔ TruthMatches m n := by
  have hfalse : condPassed 0 = false := rfl
  have htrue : condPassed 1 = true := rfl
  rw [macroValue, TruthMatches]
  split_ifs with hzero hone hn
  · have hone : ¬ (m = bytes "1" ∨ m = bytes "true") := by
      rcases hzero with rfl | rfl <;> decide
    have hlit : m ∈ literalTexts := by rcases hzero with rfl | rfl <;> decide
    simp [hfalse, hzero, hone, hlit]
  · have hlit : m ∈ literalTexts := by rcases hone with rfl | rfl <;> decide
    simp [htrue, hzero, hone, hlit]
  all_goals
    have hlit : m ∉ literalTexts := by
      simp only [literalTexts, List.mem_cons, List.not_mem_nil, or_false, not_or]
      exact ⟨hm, (not_or.mp hzero).1, (not_or.mp hzero).2, (not_or.mp hone).1,
        (not_or.mp hone).2⟩
  · simp [htrue, hzero, hone, hlit, hn]
  · simp [hfalse, hzero, hone, hlit, hn]

/-- **`#if`, `#elif` and `==` agree with the number for single macros, with the number `0` or `1`
unless the macro is named like a truth value.** -/
theorem literal_chain_iff {condName condEq : Snippet} (h : LiteralChain p n (m :: ms))
    (hname : p.fileMgr.read condName = m)
    (heq : p.fileMgr.read condEq = m ++ (bytes " == " ++ decimal n)) :
    ((IsTrue (p.setActive .If) condName ↔ n ≠ 0) ∧ (IsTrue (p.setActive .Elif) condName ↔ n ≠ 0) ∧
        IsTrue (p.setActive .If) condEq) ↔ ms = [] ∧ TruthMatches m n := by
  have hif : InCondition (p.setActive .If) := .inl rfl
  have helif : InCondition (p.setActive .Elif) := .inr rfl
  rw [isTrue_compare_iff hif (h.setActive .If) heq]
  constructor
  · rintro ⟨htrue, -, rfl⟩
    refine ⟨rfl, (macroValue_iff h.ident.1).mp ?_⟩
    rwa [isTrue_iff_of_evaluates (evaluates_single hif (h.setActive .If) hname)] at htrue
  · rintro ⟨rfl, hmatches⟩
    have hvalue := (macroValue_iff h.ident.1).mpr hmatches
    refine ⟨?_, ?_, rfl⟩
    · rwa [isTrue_iff_of_evaluates (evaluates_single hif (h.setActive .If) hname)]
    · rwa [isTrue_iff_of_evaluates (evaluates_single helif (h.setActive .Elif) hname)]

/-- A file with a macro `M` for the given text, and two conditions on it. -/
def macroState (body : String) : Preprocessor :=
  { ofText (bytes body ++ bytes "M" ++ bytes "M == " ++ bytes body) with
    storedMacros := Function.update (fun _ => none) (bytes "M")
      (some { content := { offset := 0, size := (bytes body).length }, t := .Define }) }

theorem literal_chain_one :
    IsTrue ((macroState "1").setActive .If) { offset := 1, size := 1 } ∧
      IsTrue ((macroState "1").setActive .If) { offset := 2, size := 6 } := by
  have hchain : LiteralChain (macroState "1") 1 [bytes "M"] :=
    .last ⟨by decide, by decide⟩ (by decide) (by decide)
  have hmatches : TruthMatches (bytes "M") 1 :=
    ⟨fun h => absurd h (by decide), fun _ => by decide, fun _ => .inr rfl⟩
  have hname : (macroState "1").fileMgr.read { offset := 1, size := 1 } = bytes "M" := rfl
  have heq : (macroState "1").fileMgr.read { offset := 2, size := 6 } =
      bytes "M" ++ (bytes " == " ++ decimal 1) := rfl
  have hall := (literal_chain_iff hchain hname heq).mpr ⟨rfl, hmatches⟩
  exact ⟨hall.1.mpr (by decide), hall.2.2⟩

/-- With `2` for `M` the condition `M` is false. -/
theorem literal_chain_two :
    LiteralChain (macroState "2") 2 [bytes "M"] ∧
      (macroState "2").fileMgr.read { offset := 1, size := 1 } = bytes "M" ∧
      ¬ IsTrue ((macroState "2").setActive .If) { offset := 1, size := 1 } := by
  have heval : Evaluates ((macroState "2").setActive .If) { offset := 1, size := 1 } 0 :=
    ⟨2, by decide +kernel⟩
  refine ⟨.last ⟨by decide, by decide⟩ (by decide) (by decide), rfl, ?_⟩
  rw [isTrue_iff_of_evaluates heval]
  decide

end Numbers

end Preprocessor

end LogicCompiler
