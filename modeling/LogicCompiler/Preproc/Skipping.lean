import LogicCompiler.Preproc.Substitution

/-!
# The loop of `skip_if_branch`

One lemma for each kind of text the loop can stand in front of.  `Skips s t` says that the loop
comes from `s` to `t`, whatever happens behind `t`; the iterations it may use are bounded by the
bytes that are left, so the relation composes.  `Stops s r` says where the loop ends.

Two families of lemmas are built on them: the passage over the grammar of conditional groups, and
the comparison with what the main loop would see.
-/

namespace LogicCompiler

namespace Preprocessor

variable {p : Preprocessor} {pre post s rest : List Byte} {nestCount : ℕ}

/-! ## Reading a directive -/

/-- `Directive s rest`: in `s ++ rest`, `s` is a `#` with the identifier run behind it. -/
structure Directive (s rest : List Byte) : Prop where
  hash : s.head? = some '#'.toUInt8
  run : ∀ c ∈ s.tail, isIdentChar c = true
  maximal : ∀ c ∈ rest.head?, isIdentChar c = false

lemma Directive.eq_cons (h : Directive s rest) : s = '#'.toUInt8 :: s.tail :=
  (List.cons_head?_tail h.hash).symm

/-- A `#` and the identifier characters behind it are the word of a directive. -/
lemma exists_directive {c : Byte} (hc : c = '#'.toUInt8) (text : List Byte) :
    ∃ s rest, c :: text = s ++ rest ∧ Directive s rest := by
  refine ⟨c :: text.takeWhile isIdentChar, text.dropWhile isIdentChar, ?_, ?_⟩
  · rw [List.cons_append, List.takeWhile_append_dropWhile]
  · refine ⟨by rw [hc]; rfl, fun d hd => List.mem_takeWhile_imp hd, fun d hd => ?_⟩
    have hhead := List.head?_dropWhile_not isIdentChar text
    rw [Option.mem_def.mp hd] at hhead
    simpa using hhead

lemma readDirective_eq (h : At p pre (s ++ rest)) (hd : Directive s rest) :
    p.readDirective = (macroHashMatch s, p.bump s.length) := by
  obtain ⟨name, hs⟩ : ∃ name, s = '#'.toUInt8 :: name := ⟨_, hd.eq_cons⟩
  have hread := h.bump.read_from
  have hat : At p pre ('#'.toUInt8 :: (name ++ rest)) := by rw [hs] at h; exact h
  have hskip := hat.bump_one.skipIdent (by rw [hs] at hd; exact hd.run) hd.maximal
  have hmove : (p.bump 1).skipIdent = p.bump s.length := by
    rw [hskip, bump_bump, hs, List.length_cons, Nat.add_comm]
  rw [readDirective, hmove, h.cursor, hread]

/-! ## The loop as a relation -/

/-- What the loop carries along. -/
structure SkipState where
  stringed1 : Bool := false
  stringed2 : Bool := false
  nestCount : ℕ
  p : Preprocessor

/-- The loop of `skip_if_branch` from this state on. -/
def SkipState.loop (n : ℕ) (s : SkipState) : SkipStop × Preprocessor :=
  skipLoop n s.stringed1 s.stringed2 s.nestCount s.p

/-- The loop comes from `s` to `t`, in at most as many iterations as it passes bytes. -/
def Skips (s t : SkipState) : Prop :=
  ∃ j, j + t.p.rest.length ≤ s.p.rest.length ∧ ∀ n, s.loop (n + j) = t.loop n

/-- Entered in `s`, the loop ends with this result. -/
def Stops (s : SkipState) (result : SkipStop × Preprocessor) : Prop :=
  ∀ n ≥ s.p.rest.length, s.loop n = result

lemma Skips.refl (s : SkipState) : Skips s s := ⟨0, by omega, fun _ => rfl⟩

lemma Skips.trans {s t u : SkipState} (hst : Skips s t) (htu : Skips t u) : Skips s u := by
  obtain ⟨j, hj, hloop⟩ := hst
  obtain ⟨k, hk, hloop'⟩ := htu
  refine ⟨k + j, by omega, fun n => ?_⟩
  rw [← Nat.add_assoc, hloop, hloop']

lemma Stops.of_skips {s t : SkipState} {result : SkipStop × Preprocessor} (hst : Skips s t)
    (ht : Stops t result) : Stops s result := by
  obtain ⟨j, hj, hloop⟩ := hst
  intro n hn
  obtain ⟨m, rfl⟩ : ∃ m, n = m + j := ⟨n - j, by omega⟩
  rw [hloop]
  exact ht m (by omega)

lemma skipScan_eq {result : SkipStop × Preprocessor}
    (h : Stops { nestCount := 1, p := p } result) : p.skipScan = result := h _ le_rfl

/-- Outside strings, one iteration in front of a byte. -/
lemma skipLoop_cons {c : Byte} {n : ℕ} (h : At p pre (c :: post)) (hnest : nestCount ≠ 0) :
    skipLoop (n + 1) false false nestCount p =
      if c = '"'.toUInt8 then skipLoop n false true nestCount (p.bump 1)
      else if c = '\''.toUInt8 then skipLoop n true false nestCount (p.bump 1)
      else if p.opensComment '/' then
        skipLoop n false false nestCount (p.setCursor (p.orSizeAdd (p.findNext '\n') 1))
      else if p.opensComment '*' then
        skipLoop n false false nestCount
          ((p.bump 2).setCursor ((p.bump 2).orSizeAdd ((p.bump 2).findNextSeq "*/") 2))
      else if c = '#'.toUInt8 then
        let q := p.readDirective.2
        match p.readDirective.1 with
        | .If | .Ifndef => skipLoop n false false ((nestCount + 1) % 2 ^ 16) q
        | .Define =>
            skipLoop n false false nestCount (q.setCursor (q.orSizeAdd (q.findNext '\n') 1))
        | .Define_M =>
            skipLoop n false false nestCount
              (q.setCursor (q.orSizeAdd (q.findNextSeq "#enddef") 7))
        | .Skip =>
            let q' := q.setCursor (q.orSizeAdd (q.findNext '\n') 1)
            skipLoop n false false nestCount
              (q'.setCursor (q'.orSizeAdd (q'.findNext '\n') 1))
        | .Elif | .Else =>
            if nestCount = 1 then
              if q.everTaken then
                skipLoop n false false nestCount (q.setCursor (q.orSizeAdd (q.findNext '\n') 1))
              else (.found p.readDirective.1 p.cursor, q)
            else skipLoop n false false nestCount q
        | .Endif =>
            if nestCount = 1 then (.found .Endif p.cursor, q)
            else skipLoop n false false (nestCount - 1) q
        | _ => skipLoop n false false nestCount q
      else skipLoop n false false nestCount (p.bump 1) := by
  rw [skipLoop]
  simp only [hnest, h.atEnd_cons, h.currChar, false_or, Bool.false_eq_true, if_false,
    Bool.not_false, Bool.or_self]
  have hcom : ∀ second : Char, (p.opensComment second = true ↔ c = '/'.toUInt8 ∧
      p.cursor + 1 < p.size ∧ p.getChar (p.cursor + 1) = second.toUInt8) := by
    intro second
    simp [opensComment, h.currChar, and_assoc]
  rcases hd : p.readDirective with ⟨matched, q⟩
  cases matched <;> simp only [hcom]

/-! ## One iteration over each kind of text -/

lemma Skips.of_iteration {s t : SkipState} (hlt : t.p.rest.length < s.p.rest.length)
    (h : ∀ n, s.loop (n + 1) = t.loop n) : Skips s t := ⟨1, by omega, h⟩

lemma Stops.of_iteration {s : SkipState} {result : SkipStop × Preprocessor}
    (hne : s.p.rest ≠ []) (h : ∀ n, s.loop (n + 1) = result) : Stops s result := by
  intro n hn
  have hpos := List.length_pos_iff.mpr hne
  obtain ⟨m, rfl⟩ : ∃ m, n = m + 1 := ⟨n - 1, by omega⟩
  exact h m

/-- The bytes left over behind a segment. -/
lemma rest_bump_lt (hs : s ≠ []) (h : At p pre (s ++ rest)) :
    (p.bump s.length).rest.length < p.rest.length := by
  have hpos := List.length_pos_iff.mpr hs
  rw [h.bump.rest, h.rest, List.length_append]
  omega

lemma skips_comment (h : At p pre (s ++ rest)) (hc : Comment s rest) (hnest : nestCount ≠ 0) :
    Skips { nestCount, p } { nestCount, p := p.bump s.length } := by
  refine .of_iteration (rest_bump_lt hc.ne_nil h) fun n => ?_
  have hend := comment_end h hc
  obtain ⟨c, t, rfl⟩ := List.exists_cons_of_ne_nil hc.ne_nil
  have hat : At p pre (c :: (t ++ rest)) := h
  have hslash : c = '/'.toUInt8 := by
    have hopen : StartsComment (c :: (t ++ rest)) := (opensComment_iff hat).mp
      (hend.imp And.left fun hb => hb.2.1)
    by_contra hne
    exact not_startsComment hne hopen
  have hquote : ¬ c = '"'.toUInt8 := by rw [hslash]; decide
  have hquote' : ¬ c = '\''.toUInt8 := by rw [hslash]; decide
  rw [SkipState.loop, SkipState.loop, skipLoop_cons hat hnest, if_neg hquote, if_neg hquote']
  rcases hend with ⟨hline, hmove⟩ | ⟨hline, hblock, hmove⟩
  · rw [if_pos hline, hmove]
  · rw [if_neg (by simp [hline]), if_pos hblock, hmove]

/-- A byte the loop steps over on its own. -/
lemma skips_byte {c : Byte} (h : At p pre (c :: rest)) (hnest : nestCount ≠ 0)
    (hquote : ¬ IsQuote c) (hhash : c ≠ '#'.toUInt8) (hcom : ¬ StartsComment (c :: rest)) :
    Skips { nestCount, p } { nestCount, p := p.bump 1 } := by
  refine .of_iteration (rest_bump_lt (s := [c]) (by simp) h) fun n => ?_
  rw [← opensComment_iff h, not_or] at hcom
  rw [SkipState.loop, SkipState.loop, skipLoop_cons h hnest, if_neg fun hq => hquote (.inl hq),
    if_neg fun hq => hquote (.inr hq), if_neg hcom.1, if_neg hcom.2, if_neg hhash]

/-- `Quiet rest s`: in `s ++ rest`, no quote, no `#` and no comment opener within `s`. -/
inductive Quiet (rest : List Byte) : List Byte → Prop
  | nil : Quiet rest []
  | cons {c : Byte} {s : List Byte} (hquote : ¬ IsQuote c) (hhash : c ≠ '#'.toUInt8)
      (hcom : ¬ StartsComment (c :: (s ++ rest))) (h : Quiet rest s) : Quiet rest (c :: s)

lemma Quiet.append {s t : List Byte} (hs : Quiet (t ++ rest) s) (ht : Quiet rest t) :
    Quiet rest (s ++ t) := by
  induction hs with
  | nil => exact ht
  | cons hquote hhash hcom _ ih =>
      rw [List.cons_append]
      exact .cons hquote hhash (by rwa [List.append_assoc]) ih

/-- Bytes that start nothing, wherever they stand. -/
def Inert (c : Byte) : Prop := ¬ IsQuote c ∧ c ≠ '#'.toUInt8 ∧ c ≠ '/'.toUInt8

instance (c : Byte) : Decidable (Inert c) := inferInstanceAs (Decidable (_ ∧ _))

lemma Quiet.of_inert (hs : ∀ c ∈ s, Inert c) : Quiet rest s := by
  induction s with
  | nil => exact .nil
  | cons c s ih =>
      obtain ⟨hquote, hhash, hslash⟩ := hs c (by simp)
      exact .cons hquote hhash (not_startsComment hslash) (ih fun d hd => hs d (by simp [hd]))

lemma skips_quiet (h : At p pre (s ++ rest)) (hq : Quiet rest s) (hnest : nestCount ≠ 0) :
    Skips { nestCount, p } { nestCount, p := p.bump s.length } := by
  induction hq generalizing p pre with
  | nil => rw [List.length_nil, bump_zero]; exact .refl _
  | @cons c s hquote hhash hcom _ ih =>
      have htail := ih h.bump_one
      rw [bump_bump, Nat.add_comm] at htail
      exact (skips_byte h hnest hquote hhash hcom).trans htail

/-! ## One iteration over each directive -/

lemma hash_other {c : Byte} (hc : c = '#'.toUInt8) :
    ¬ c = '"'.toUInt8 ∧ ¬ c = '\''.toUInt8 ∧ c ≠ '/'.toUInt8 := by
  subst hc
  decide

/-- Outside strings, one iteration in front of a directive. -/
lemma skipLoop_directive {n : ℕ} (h : At p pre (s ++ rest)) (hd : Directive s rest)
    (hnest : nestCount ≠ 0) :
    skipLoop (n + 1) false false nestCount p =
      let q := p.bump s.length
      match macroHashMatch s with
      | .If | .Ifndef => skipLoop n false false ((nestCount + 1) % 2 ^ 16) q
      | .Define =>
          skipLoop n false false nestCount (q.setCursor (q.orSizeAdd (q.findNext '\n') 1))
      | .Define_M =>
          skipLoop n false false nestCount
            (q.setCursor (q.orSizeAdd (q.findNextSeq "#enddef") 7))
      | .Skip =>
          let q' := q.setCursor (q.orSizeAdd (q.findNext '\n') 1)
          skipLoop n false false nestCount (q'.setCursor (q'.orSizeAdd (q'.findNext '\n') 1))
      | .Elif | .Else =>
          if nestCount = 1 then
            if p.everTaken then
              skipLoop n false false nestCount (q.setCursor (q.orSizeAdd (q.findNext '\n') 1))
            else (.found (macroHashMatch s) p.cursor, q)
          else skipLoop n false false nestCount q
      | .Endif =>
          if nestCount = 1 then (.found .Endif p.cursor, q)
          else skipLoop n false false (nestCount - 1) q
      | _ => skipLoop n false false nestCount q := by
  have hread := readDirective_eq h hd
  have hat : At p pre ('#'.toUInt8 :: (s.tail ++ rest)) := by
    rw [hd.eq_cons] at h
    exact h
  obtain ⟨hquote, hquote', hslash⟩ := hash_other rfl
  have hcom := not_startsComment (s := s.tail ++ rest) hslash
  rw [← opensComment_iff hat, not_or] at hcom
  rw [skipLoop_cons hat hnest, if_neg hquote, if_neg hquote', if_neg hcom.1, if_neg hcom.2,
    if_pos rfl, hread]
  cases macroHashMatch s <;> rfl

lemma Directive.ne_nil (hd : Directive s rest) : s ≠ [] := by
  rw [hd.eq_cons]
  simp

/-- A nested group opens. -/
lemma skips_open (h : At p pre (s ++ rest)) (hd : Directive s rest) (hnest : nestCount ≠ 0)
    (hs : macroHashMatch s = .If ∨ macroHashMatch s = .Ifndef) :
    Skips { nestCount, p } { nestCount := (nestCount + 1) % 2 ^ 16, p := p.bump s.length } := by
  refine .of_iteration (rest_bump_lt hd.ne_nil h) fun n => ?_
  rw [SkipState.loop, SkipState.loop, skipLoop_directive h hd hnest]
  rcases hs with hs | hs <;> rw [hs]

/-- A nested group closes. -/
lemma skips_close (h : At p pre (s ++ rest)) (hd : Directive s rest) (hnest : nestCount ≠ 0)
    (hs : macroHashMatch s = .Endif) :
    Skips { nestCount := nestCount + 1, p } { nestCount, p := p.bump s.length } := by
  refine .of_iteration (rest_bump_lt hd.ne_nil h) fun n => ?_
  rw [SkipState.loop, SkipState.loop, skipLoop_directive h hd (Nat.succ_ne_zero _), hs]
  simp [hnest]

/-- A further arm of a nested group. -/
lemma skips_inner_arm (h : At p pre (s ++ rest)) (hd : Directive s rest) (hnest : nestCount ≠ 0)
    (hs : macroHashMatch s = .Elif ∨ macroHashMatch s = .Else) :
    Skips { nestCount := nestCount + 1, p } { nestCount := nestCount + 1, p := p.bump s.length } := by
  refine .of_iteration (rest_bump_lt hd.ne_nil h) fun n => ?_
  rw [SkipState.loop, SkipState.loop, skipLoop_directive h hd (Nat.succ_ne_zero _)]
  rcases hs with hs | hs <;> rw [hs] <;> simp [hnest]

/-- A further arm of the group itself, when one of its arms has been taken. -/
lemma skips_own_arm {line : List Byte} (hd : Directive s (line ++ '\n'.toUInt8 :: rest))
    (h : At p pre (s ++ (line ++ '\n'.toUInt8 :: rest))) (hline : '\n'.toUInt8 ∉ line)
    (hs : macroHashMatch s = .Elif ∨ macroHashMatch s = .Else) (htaken : p.everTaken = true) :
    Skips { nestCount := 1, p } { nestCount := 1, p := p.bump (s.length + (line.length + 1)) } := by
  have hpast := h.bump.pastLine hline
  have hend : At p pre ((s ++ (line ++ ['\n'.toUInt8])) ++ rest) := by simpa using h
  have hlt := rest_bump_lt (by simp) hend
  simp only [List.length_append, List.length_singleton] at hlt
  refine .of_iteration hlt fun n => ?_
  rw [SkipState.loop, SkipState.loop, skipLoop_directive h hd Nat.one_ne_zero]
  rcases hs with hs | hs <;> rw [hs] <;> simp [htaken, hpast, bump_bump]

/-- The end of the group itself. -/
lemma stops_endif (h : At p pre (s ++ rest)) (hd : Directive s rest)
    (hs : macroHashMatch s = .Endif) :
    Stops { nestCount := 1, p } (.found .Endif p.cursor, p.bump s.length) := by
  refine .of_iteration (by rw [h.rest, hd.eq_cons]; simp) fun n => ?_
  rw [SkipState.loop, skipLoop_directive h hd Nat.one_ne_zero, hs]
  rfl

/-- A further arm of the group itself, when none of its arms has been taken. -/
lemma stops_arm (h : At p pre (s ++ rest)) (hd : Directive s rest)
    (hs : macroHashMatch s = .Elif ∨ macroHashMatch s = .Else) (htaken : p.everTaken = false) :
    Stops { nestCount := 1, p } (.found (macroHashMatch s) p.cursor, p.bump s.length) := by
  refine .of_iteration (by rw [h.rest, hd.eq_cons]; simp) fun n => ?_
  rw [SkipState.loop, skipLoop_directive h hd Nat.one_ne_zero]
  rcases hs with hs | hs <;> rw [hs] <;> simp [htaken]

end Preprocessor

end LogicCompiler
