import LogicCompiler.Preproc.Scanning

/-!
# Macro expansion is substitution on identifiers

The five scanning cases of `process` cut a text into comments, literals, identifier runs and
single characters.  `Segmented` is that segmentation stated on the text alone, with no cursor and
no scanner: a comment ends behind its terminator or with the text, a literal behind the first
unescaped quote or with the text, an identifier run in front of the first other character.

Each scanning case then is one step lemma: from a state that stands in front of a segment, the
main loop moves the cursor over it and emits its replacement.  `runs_segmented` is the run over a
whole segmentation.
-/

namespace LogicCompiler

namespace Preprocessor

/-! ## Segments of a text -/

/-- `Comment s rest`: in `s ++ rest`, a comment opens at the beginning and ends behind `s`. -/
inductive Comment : List Byte → List Byte → Prop
  | line {body : List Byte} (rest : List Byte) (h : '\n'.toUInt8 ∉ body) :
      Comment (bytes "//" ++ body ++ bytes "\n") rest
  | lineEnd {body : List Byte} (h : '\n'.toUInt8 ∉ body) : Comment (bytes "//" ++ body) []
  | block {body : List Byte} (rest : List Byte) (h : Search.FirstBefore (bytes "*/") body) :
      Comment (bytes "/*" ++ body ++ bytes "*/") rest
  | blockEnd {body : List Byte} (h : ¬ bytes "*/" <:+: body) : Comment (bytes "/*" ++ body) []

/-- The inside of a literal: a backslash takes the byte behind it along. -/
inductive Quoted (quote : Byte) : List Byte → Prop
  | nil : Quoted quote []
  | plain {c : Byte} {body : List Byte} (hesc : c ≠ '\\'.toUInt8) (hquote : c ≠ quote)
      (h : Quoted quote body) : Quoted quote (c :: body)
  | escape (c : Byte) {body : List Byte} (h : Quoted quote body) :
      Quoted quote ('\\'.toUInt8 :: c :: body)

/-- Both kinds of quotes. -/
def IsQuote (c : Byte) : Prop := c = '"'.toUInt8 ∨ c = '\''.toUInt8

instance (c : Byte) : Decidable (IsQuote c) := inferInstanceAs (Decidable (_ ∨ _))

/-- `Literal s rest`: in `s ++ rest`, a string or character literal opens at the beginning and
ends behind `s`. -/
inductive Literal : List Byte → List Byte → Prop
  | closed {quote : Byte} {body : List Byte} (rest : List Byte) (hq : IsQuote quote)
      (h : Quoted quote body) : Literal (quote :: body ++ [quote]) rest
  | cut {quote : Byte} {body : List Byte} (hq : IsQuote quote) (h : Quoted quote body) :
      Literal (quote :: body) []
  /-- the text ends behind a backslash -/
  | cutEscape {quote : Byte} {body : List Byte} (hq : IsQuote quote) (h : Quoted quote body) :
      Literal (quote :: body ++ ['\\'.toUInt8]) []

/-- `Word s rest`: in `s ++ rest`, `s` is a maximal run of identifier characters. -/
structure Word (s rest : List Byte) : Prop where
  nonempty : s ≠ []
  run : ∀ c ∈ s, isIdentChar c = true
  maximal : ∀ c ∈ rest.head?, isIdentChar c = false

/-- `s` starts like a comment. -/
def StartsComment (s : List Byte) : Prop := bytes "//" <+: s ∨ bytes "/*" <+: s

/-- `Single c rest`: in `c :: rest`, the first byte belongs to no longer segment. -/
structure Single (c : Byte) (rest : List Byte) : Prop where
  quote : ¬ IsQuote c
  ident : isIdentChar c = false
  comment : ¬ StartsComment (c :: rest)

/-- The pieces that `process` reads a text in. -/
inductive Segment where
  | comment (s : List Byte)
  | literal (s : List Byte)
  | ident (s : List Byte)
  | single (c : Byte)
  deriving DecidableEq, Repr

/-- `Segmented rest text segs`: the text begins with these segments, and `rest` follows them. -/
inductive Segmented (rest : List Byte) : List Byte → List Segment → Prop
  | nil : Segmented rest rest []
  | comment {s r : List Byte} {segs : List Segment} (hc : Comment s r)
      (h : Segmented rest r segs) : Segmented rest (s ++ r) (.comment s :: segs)
  | literal {s r : List Byte} {segs : List Segment} (hl : Literal s r)
      (h : Segmented rest r segs) : Segmented rest (s ++ r) (.literal s :: segs)
  | ident {s r : List Byte} {segs : List Segment} (hw : Word s r)
      (h : Segmented rest r segs) : Segmented rest (s ++ r) (.ident s :: segs)
  | single {c : Byte} {r : List Byte} {segs : List Segment} (hs : Single c r)
      (h : Segmented rest r segs) : Segmented rest (c :: r) (.single c :: segs)

/-- The bytes of a piece. -/
def Segment.text : Segment → List Byte
  | .comment s | .literal s | .ident s => s
  | .single c => [c]

/-- The text of a segmentation is the text. -/
lemma Segmented.flatMap_text {rest text : List Byte} {segs : List Segment}
    (h : Segmented rest text segs) : segs.flatMap Segment.text ++ rest = text := by
  induction h with
  | nil => rfl
  | comment _ _ ih | literal _ _ ih | ident _ _ ih | single _ _ ih =>
      simp [Segment.text, ih]

/-! ## Every text has a segmentation -/

lemma exists_quoted (quote : Byte) : ∀ text : List Byte,
    (∃ body rest, text = body ++ quote :: rest ∧ Quoted quote body) ∨ Quoted quote text ∨
      ∃ body, text = body ++ ['\\'.toUInt8] ∧ Quoted quote body
  | [] => .inr (.inl .nil)
  | [c] => by
      by_cases hesc : c = '\\'.toUInt8
      · exact .inr (.inr ⟨[], by rw [hesc]; rfl, .nil⟩)
      · by_cases hq : c = quote
        · exact .inl ⟨[], [], by rw [hq]; rfl, .nil⟩
        · exact .inr (.inl (.plain hesc hq .nil))
  | c :: d :: text => by
      by_cases hesc : c = '\\'.toUInt8
      · subst hesc
        rcases exists_quoted quote text with ⟨body, rest, rfl, h⟩ | h | ⟨body, rfl, h⟩
        · exact .inl ⟨_, rest, rfl, h.escape d⟩
        · exact .inr (.inl (h.escape d))
        · exact .inr (.inr ⟨_, rfl, h.escape d⟩)
      · by_cases hq : c = quote
        · exact .inl ⟨[], d :: text, by rw [hq]; rfl, .nil⟩
        · rcases exists_quoted quote (d :: text) with ⟨body, rest, heq, h⟩ | h | ⟨body, heq, h⟩
          · exact .inl ⟨c :: body, rest, by rw [heq]; rfl, h.plain hesc hq⟩
          · exact .inr (.inl (h.plain hesc hq))
          · exact .inr (.inr ⟨c :: body, by rw [heq]; rfl, h.plain hesc hq⟩)

lemma exists_literal {quote : Byte} (hq : IsQuote quote) (text : List Byte) :
    ∃ s rest, quote :: text = s ++ rest ∧ s ≠ [] ∧ Literal s rest := by
  rcases exists_quoted quote text with ⟨body, rest, rfl, h⟩ | h | ⟨body, rfl, h⟩
  · exact ⟨quote :: body ++ [quote], rest, by simp, by simp, .closed rest hq h⟩
  · exact ⟨quote :: text, [], by simp, by simp, .cut hq h⟩
  · exact ⟨quote :: body ++ ['\\'.toUInt8], [], by simp, by simp, .cutEscape hq h⟩

lemma exists_split_of_mem {c : Byte} {text : List Byte} (h : c ∈ text) :
    ∃ body rest, text = body ++ c :: rest ∧ c ∉ body := by
  induction text with
  | nil => cases h
  | cons d text ih =>
      by_cases hdc : d = c
      · exact ⟨[], text, by rw [hdc]; rfl, by simp⟩
      · obtain ⟨body, rest, rfl, hbody⟩ := ih ((List.mem_cons.mp h).resolve_left (Ne.symm hdc))
        exact ⟨d :: body, rest, rfl, by simp [hbody, Ne.symm hdc]⟩

lemma exists_comment {text : List Byte} (h : StartsComment text) :
    ∃ s rest, text = s ++ rest ∧ s ≠ [] ∧ Comment s rest := by
  rcases h with ⟨text, rfl⟩ | ⟨text, rfl⟩
  · by_cases hn : '\n'.toUInt8 ∈ text
    · obtain ⟨body, rest, rfl, hbody⟩ := exists_split_of_mem hn
      exact ⟨bytes "//" ++ body ++ bytes "\n", rest, by simp [show bytes "\n" = ['\n'.toUInt8] from rfl],
        by simp [show bytes "//" ≠ [] from by decide], .line rest hbody⟩
    · exact ⟨bytes "//" ++ text, [], by simp, by simp [show bytes "//" ≠ [] from by decide],
        .lineEnd hn⟩
  · cases hf : Search.findSeq (bytes "*/") text with
    | some k =>
        obtain ⟨body, rest, rfl, -, hfirst⟩ :=
          (Search.findSeq_eq_some_iff (by decide)).mp hf
        exact ⟨bytes "/*" ++ body ++ bytes "*/", rest, by simp,
          by simp [show bytes "/*" ≠ [] from by decide], .block rest hfirst⟩
    | none =>
        exact ⟨bytes "/*" ++ text, [], by simp, by simp [show bytes "/*" ≠ [] from by decide],
          .blockEnd ((Search.findSeq_eq_none_iff (by decide)).mp hf)⟩

lemma exists_word {c : Byte} (hc : isIdentChar c = true) (text : List Byte) :
    ∃ s rest, c :: text = s ++ rest ∧ Word s rest := by
  refine ⟨(c :: text).takeWhile isIdentChar, (c :: text).dropWhile isIdentChar,
    List.takeWhile_append_dropWhile.symm, ?_, fun d hd => List.mem_takeWhile_imp hd, ?_⟩
  · simp [hc]
  · intro d hd
    have := List.head?_dropWhile_not isIdentChar (c :: text)
    rw [Option.mem_def.mp hd] at this
    simpa using this

lemma exists_segmented (text : List Byte) : ∃ segs, Segmented [] text segs := by
  induction hn : text.length using Nat.strong_induction_on generalizing text with
  | _ n ih =>
      rcases text with _ | ⟨c, text⟩
      · exact ⟨[], .nil⟩
      have shorter : ∀ {s rest : List Byte}, c :: text = s ++ rest → s ≠ [] →
          ∃ segs, Segmented [] rest segs := by
        intro s rest heq hs
        refine ih rest.length ?_ rest rfl
        have hlen := congrArg List.length heq
        have hpos := List.length_pos_iff.mpr hs
        rw [List.length_append] at hlen
        omega
      by_cases hcom : StartsComment (c :: text)
      · obtain ⟨s, rest, heq, hs, h⟩ := exists_comment hcom
        obtain ⟨segs, hsegs⟩ := shorter heq hs
        rw [heq]
        exact ⟨_, .comment h hsegs⟩
      by_cases hq : IsQuote c
      · obtain ⟨s, rest, heq, hs, h⟩ := exists_literal hq text
        obtain ⟨segs, hsegs⟩ := shorter heq hs
        rw [heq]
        exact ⟨_, .literal h hsegs⟩
      cases hid : isIdentChar c with
      | true =>
          obtain ⟨s, rest, heq, h⟩ := exists_word hid text
          obtain ⟨segs, hsegs⟩ := shorter heq h.nonempty
          rw [heq]
          exact ⟨_, .ident h hsegs⟩
      | false =>
          obtain ⟨segs, hsegs⟩ := shorter (show c :: text = [c] ++ text from rfl) (by simp)
          exact ⟨_, .single ⟨hq, hid, hcom⟩ hsegs⟩

/-! ## One step over each segment -/

variable {p : Preprocessor} {pre post s rest : List Byte} {disk : Disk} {n : ℕ}

/-- An iteration of the main loop in front of a byte. -/
lemma step_cons {c : Byte} (h : At p pre (c :: post)) :
    p.step disk n =
      if p.opensComment '/' then
        .next ((p.setCursor (p.orSizeAdd (p.findNext '\n') 1)).copyFrom p.cursor)
      else if p.opensComment '*' then
        .next (((p.bump 2).setCursor
          ((p.bump 2).orSizeAdd ((p.bump 2).findNextSeq "*/") 2)).copyFrom p.cursor)
      else if IsQuote c then
        .next ((p.bump (1 + (literalTail c post).length)).emit (c :: literalTail c post))
      else if c = '#'.toUInt8 then
        match processDirective disk n p.readDirective.1
            (p.readDirective.2.setActive p.readDirective.1) with
        | none => .diverged
        | some (ret, q) => if ret < 0 then .failed ret q else .next q
      else if isIdentChar c then
        .next (p.skipIdent.emit
          (p.skipIdent.identText (p.skipIdent.fileMgr.read (p.skipIdent.fromCursor p.cursor))))
      else .next ((p.bump 1).emit [c]) := by
  obtain ⟨f, frames, hf⟩ := List.exists_cons_of_ne_nil h.stacked
  simp only [step, hf, h.atEnd_cons, h.currChar, h.bump_one.rest, isIn_identCharBitmask, emit_bump]
  rfl

lemma opensComment_pair {c d : Byte} (h : At p pre (c :: d :: post)) (second : Char) :
    p.opensComment second = (c == '/'.toUInt8 && d == second.toUInt8) := by
  simp [opensComment, h.currChar, h.nextChar.1, h.nextChar.2]

lemma opensComment_last {c : Byte} (h : At p pre [c]) (second : Char) :
    p.opensComment second = false := by
  simp [opensComment, h.lastChar]

/-- `process` looks for a comment exactly where one starts. -/
lemma opensComment_iff {c : Byte} (h : At p pre (c :: post)) :
    p.opensComment '/' = true ∨ p.opensComment '*' = true ↔ StartsComment (c :: post) := by
  have hline : bytes "//" = ['/'.toUInt8, '/'.toUInt8] := rfl
  have hblock : bytes "/*" = ['/'.toUInt8, '*'.toUInt8] := rfl
  rcases post with _ | ⟨d, post⟩
  · simp [opensComment_last h, StartsComment, hline, hblock, List.prefix_cons_iff]
  · simp only [opensComment_pair h, StartsComment, hline, hblock, List.cons_prefix_cons,
      List.nil_prefix, and_true, Bool.and_eq_true, beq_iff_eq]
    exact or_congr (and_congr eq_comm eq_comm) (and_congr eq_comm eq_comm)

/-- Where a comment ends: the two searches of the comment cases stop behind it. -/
lemma comment_end (h : At p pre (s ++ rest)) (hc : Comment s rest) :
    (p.opensComment '/' = true ∧
        p.setCursor (p.orSizeAdd (p.findNext '\n') 1) = p.bump s.length) ∨
      (p.opensComment '/' = false ∧ p.opensComment '*' = true ∧
        (p.bump 2).setCursor ((p.bump 2).orSizeAdd ((p.bump 2).findNextSeq "*/") 2)
          = p.bump s.length) := by
  have hne : '\n'.toUInt8 ≠ '/'.toUInt8 := by decide
  cases hc with
  | @line body _ hbody =>
      have hat : At p pre ('/'.toUInt8 :: '/'.toUInt8 :: body ++ '\n'.toUInt8 :: rest) := by
        simpa [bytes] using h
      have hnl : '\n'.toUInt8 ∉ '/'.toUInt8 :: '/'.toUInt8 :: body := by simp [hbody, hne]
      refine .inl ⟨by rw [opensComment_pair hat]; rfl, ?_⟩
      rw [hat.pastLine hnl]
      simp [bytes]
  | @lineEnd body hbody =>
      have hat : At p pre ('/'.toUInt8 :: '/'.toUInt8 :: body) := by simpa [bytes] using h
      have hnl : '\n'.toUInt8 ∉ '/'.toUInt8 :: '/'.toUInt8 :: body := by simp [hbody, hne]
      refine .inl ⟨by rw [opensComment_pair hat]; rfl, ?_⟩
      rw [hat.pastLine_none hnl]
      simp [bytes]
  | @block body _ hbody =>
      have hat : At p pre (bytes "/*" ++ (body ++ (bytes "*/" ++ rest))) := by simpa using h
      have hin : At (p.bump 2) (pre ++ bytes "/*") (body ++ (bytes "*/" ++ rest)) := hat.bump
      refine .inr ⟨by rw [opensComment_pair hat]; rfl, by rw [opensComment_pair hat]; rfl, ?_⟩
      rw [hin.pastSeq 2 (by decide) hbody, bump_bump]
      simp only [List.length_append]
      rw [Nat.add_assoc]
      rfl
  | @blockEnd body hbody =>
      have hat : At p pre (bytes "/*" ++ body) := by simpa using h
      have hin : At (p.bump 2) (pre ++ bytes "/*") body := hat.bump
      refine .inr ⟨by rw [opensComment_pair hat]; rfl, by rw [opensComment_pair hat]; rfl, ?_⟩
      rw [hin.pastSeq_none 2 (by decide) hbody, bump_bump]
      simp only [List.length_append]
      rfl

lemma Comment.ne_nil (hc : Comment s rest) : s ≠ [] := by
  cases hc <;> simp [show bytes "//" ≠ [] from by decide, show bytes "/*" ≠ [] from by decide]

lemma step_comment (h : At p pre (s ++ rest)) (hc : Comment s rest) :
    p.step disk n = .next ((p.bump s.length).emit s) := by
  have hend := comment_end h hc
  have hcopy := copyFrom_bump h
  obtain ⟨c, t, rfl⟩ := List.exists_cons_of_ne_nil hc.ne_nil
  have hat : At p pre (c :: (t ++ rest)) := h
  rcases hend with ⟨hline, hmove⟩ | ⟨hline, hblock, hmove⟩
  · rw [step_cons hat, if_pos hline, hmove, hcopy]
  · rw [step_cons hat, if_neg (by simp [hline]), if_pos hblock, hmove, hcopy]

lemma literalTail_escape (quote c : Byte) (r : List Byte) :
    literalTail quote ('\\'.toUInt8 :: c :: r) = '\\'.toUInt8 :: c :: literalTail quote r := by
  rw [literalTail.eq_def]
  simp

lemma literalTail_quote {quote : Byte} (hesc : quote ≠ '\\'.toUInt8) (r : List Byte) :
    literalTail quote (quote :: r) = [quote] := by
  rw [literalTail.eq_def]
  simp [hesc]

lemma literalTail_plain {quote c : Byte} (hesc : c ≠ '\\'.toUInt8) (hquote : c ≠ quote)
    (r : List Byte) : literalTail quote (c :: r) = c :: literalTail quote r := by
  rw [literalTail.eq_def]
  simp [hesc, hquote]

lemma literalTail_closed {quote : Byte} {body : List Byte} (hq : IsQuote quote)
    (h : Quoted quote body) : literalTail quote (body ++ quote :: rest) = body ++ [quote] := by
  induction h with
  | nil =>
      have hesc : quote ≠ '\\'.toUInt8 := by rintro rfl; exact absurd hq (by decide)
      exact literalTail_quote hesc rest
  | plain hesc hquote _ ih => simp [literalTail_plain hesc hquote, ih]
  | escape c _ ih => simp [literalTail_escape, ih]

lemma literalTail_cut {quote : Byte} {body : List Byte} (h : Quoted quote body) :
    literalTail quote body = body := by
  induction h with
  | nil => rfl
  | plain hesc hquote _ ih => simp [literalTail_plain hesc hquote, ih]
  | escape c _ ih => simp [literalTail_escape, ih]

lemma literalTail_cutEscape {quote : Byte} {body : List Byte} (h : Quoted quote body) :
    literalTail quote (body ++ ['\\'.toUInt8]) = body ++ ['\\'.toUInt8] := by
  induction h with
  | nil => simp [literalTail]
  | plain hesc hquote _ ih => simp [literalTail_plain hesc hquote, ih]
  | escape c _ ih => simp [literalTail_escape, ih]

lemma step_quote {c : Byte} (h : At p pre (c :: s)) (hc : IsQuote c) :
    p.step disk n = .next ((p.bump (1 + (literalTail c s).length)).emit (c :: literalTail c s)) := by
  have hcom : ¬ StartsComment (c :: s) := by
    rintro (⟨t, ht⟩ | ⟨t, ht⟩) <;> rcases hc with rfl | rfl <;>
      exact absurd (List.cons.inj ht).1 (by decide)
  rw [← opensComment_iff h, not_or] at hcom
  rw [step_cons h, if_neg hcom.1, if_neg hcom.2, if_pos hc]

lemma step_literal (h : At p pre (s ++ rest)) (hl : Literal s rest) :
    p.step disk n = .next ((p.bump s.length).emit s) := by
  cases hl with
  | @closed quote body _ hq hbody =>
      have hat : At p pre (quote :: (body ++ quote :: rest)) := by simpa using h
      rw [step_quote hat hq, literalTail_closed hq hbody]
      simp [Nat.add_comm]
  | @cut quote body hq hbody =>
      have hat : At p pre (quote :: body) := by simpa using h
      rw [step_quote hat hq, literalTail_cut hbody]
      simp [Nat.add_comm]
  | @cutEscape quote body hq hbody =>
      have hat : At p pre (quote :: (body ++ ['\\'.toUInt8])) := by simpa using h
      rw [step_quote hat hq, literalTail_cutEscape hbody]
      simp [Nat.add_comm]

/-- Identifier characters start no other segment. -/
lemma isIdentChar_other {c : Byte} (hc : isIdentChar c = true) :
    ¬ IsQuote c ∧ c ≠ '#'.toUInt8 ∧ c ≠ '/'.toUInt8 := by
  refine ⟨?_, ?_, ?_⟩
  · rintro (rfl | rfl) <;> exact absurd hc (by decide)
  · rintro rfl; exact absurd hc (by decide)
  · rintro rfl; exact absurd hc (by decide)

lemma not_startsComment {c : Byte} (hc : c ≠ '/'.toUInt8) : ¬ StartsComment (c :: s) := by
  rintro (⟨t, ht⟩ | ⟨t, ht⟩)
  · exact hc (List.cons.inj ht).1.symm
  · exact hc (List.cons.inj ht).1.symm

lemma step_ident (h : At p pre (s ++ rest)) (hw : Word s rest) :
    p.step disk n = .next ((p.bump s.length).emit (p.identText s)) := by
  have hskip := h.skipIdent hw.run hw.maximal
  have hread := h.bump.read_from
  obtain ⟨c, word, rfl⟩ := List.exists_cons_of_ne_nil hw.nonempty
  have hat : At p pre (c :: (word ++ rest)) := h
  have hc : isIdentChar c = true := hw.run c (by simp)
  obtain ⟨hquote, hhash, hslash⟩ := isIdentChar_other hc
  have hcom := not_startsComment (s := word ++ rest) hslash
  rw [← opensComment_iff hat, not_or] at hcom
  rw [step_cons hat, if_neg hcom.1, if_neg hcom.2, if_neg hquote, if_neg hhash, if_pos hc,
    hskip, h.cursor, hread]
  rfl

lemma step_single {c : Byte} (h : At p pre (c :: rest)) (hs : Single c rest)
    (hhash : c ≠ '#'.toUInt8) : p.step disk n = .next ((p.bump 1).emit [c]) := by
  have hcom := hs.comment
  rw [← opensComment_iff h, not_or] at hcom
  rw [step_cons h, if_neg hcom.1, if_neg hcom.2, if_neg hs.quote, if_neg hhash,
    if_neg (by simp [hs.ident])]

/-! ## The run over a text -/

/-- What a segment is replaced by. -/
def Segment.expand (p : Preprocessor) : Segment → List Byte
  | .comment s | .literal s => s
  | .ident s => p.identText s
  | .single c => [c]

lemma identText_congr {q : Preprocessor} (hfm : q.fileMgr = p.fileMgr)
    (hm : q.storedMacros = p.storedMacros) : q.identText = p.identText := by
  rcases p with ⟨fm, out, stack, macros, flags, active⟩
  rcases q with ⟨fm', out', stack', macros', flags', active'⟩
  cases hfm
  cases hm
  rfl

lemma expand_congr {q : Preprocessor} (hfm : q.fileMgr = p.fileMgr)
    (hm : q.storedMacros = p.storedMacros) : Segment.expand q = Segment.expand p := by
  funext seg
  cases seg <;> simp only [Segment.expand, identText_congr hfm hm]

/-- The text holds no directive: no `#` outside comments and literals. -/
def HashFree (segs : List Segment) : Prop := Segment.single '#'.toUInt8 ∉ segs

/-- One iteration of the main loop over the first segment. -/
lemma step_segmented (disk : Disk) {text : List Byte} {seg : Segment} {segs : List Segment}
    (hseg : Segmented post text (seg :: segs)) (hfree : seg ≠ .single '#'.toUInt8)
    (h : At p pre text) :
    ∃ rest, text = seg.text ++ rest ∧ Segmented post rest segs ∧
      Steps disk p ((p.bump seg.text.length).emit (seg.expand p)) := by
  cases hseg with
  | comment hc hrest => exact ⟨_, rfl, hrest, .of_forall fun _ => step_comment h hc⟩
  | literal hl hrest => exact ⟨_, rfl, hrest, .of_forall fun _ => step_literal h hl⟩
  | ident hw hrest => exact ⟨_, rfl, hrest, .of_forall fun _ => step_ident h hw⟩
  | single hs hrest =>
      refine ⟨_, rfl, hrest, .of_forall fun _ => step_single h hs ?_⟩
      rintro rfl
      exact hfree rfl

/-- The run over segments that hold no directive. -/
lemma runs_segmented (disk : Disk) {text : List Byte} {segs : List Segment} (hseg : Segmented post text segs)
    (hfree : HashFree segs) (h : At p pre text) :
    Runs disk p ((p.bump (segs.flatMap Segment.text).length).emit
      (segs.flatMap (Segment.expand p))) := by
  induction segs generalizing p pre text with
  | nil =>
      rw [List.flatMap_nil, List.length_nil, List.flatMap_nil, bump_zero, emit_nil]
      exact Relation.ReflTransGen.refl
  | cons seg segs ih =>
      have hhead : seg ≠ .single '#'.toUInt8 := fun heq => hfree (heq ▸ List.mem_cons_self)
      obtain ⟨rest, rfl, hrest, hstep⟩ := step_segmented disk hseg hhead h
      have hrun := ih hrest (fun hmem => hfree (List.mem_cons_of_mem _ hmem))
        (h.bump.emit (s := seg.expand p))
      rw [emit_bump, emit_emit, bump_bump, expand_congr (p := p) rfl rfl] at hrun
      rw [List.flatMap_cons, List.length_append, List.flatMap_cons]
      exact Relation.ReflTransGen.head hstep hrun

/-- The run over the whole of a frame that holds no directive ends with the frame popped and the
macro table as it was. -/
lemma runs_frame (disk : Disk) {text : List Byte} {segs : List Segment} (hseg : Segmented [] text segs)
    (hfree : HashFree segs) (h : At p pre text) :
    Runs disk p { p with
      inputStack := p.inputStack.tail
      outputBuffer := p.outputBuffer ++ segs.flatMap (Segment.expand p) } := by
  have hend : At ((p.bump text.length).emit (segs.flatMap (Segment.expand p))) (pre ++ text) [] :=
    At.emit (At.bump (by rwa [List.append_nil]))
  have hpop := step_pop disk hend
  have htail := setCursor_inputStack_tail p (p.cursor + text.length)
  have hrun := runs_segmented disk hseg hfree h
  rw [← List.append_nil (segs.flatMap Segment.text), hseg.flatMap_text] at hrun
  refine Relation.ReflTransGen.tail hrun ?_
  simpa [Preprocessor.emit, Preprocessor.bump, htail] using hpop

lemma expand_of_noMacros (hm : p.storedMacros = fun _ => none) (seg : Segment) :
    seg.expand p = seg.text := by
  cases seg <;> simp [Segment.expand, Segment.text, identText, isDefined, hm]

/-- A frame without directives is copied to the output segment by segment, with every identifier
run that is a macro replaced by the body of the macro; nothing else of the state changes but the
finished frame.  Without macros the text is copied as it is.  The buffer is meant to stay below
`2 ^ 32` bytes, like every text that offsets point into. -/
theorem process_substitutes (disk : Disk) (p : Preprocessor) (frame : SourceFrame)
    (frames : List SourceFrame) (text : List Byte) (hstack : p.inputStack = frame :: frames)
    (hcursor : frame.cursor = 0) (htext : p.fileMgr.read frame.content = text)
    (hsize : frame.content.size = text.length) (hsmall : text.length < 2 ^ 32 - 8) :
    (∃ segs, Segmented [] text segs) ∧ ∀ segs, Segmented [] text segs → HashFree segs →
      let q : Preprocessor := { p with
        inputStack := frames
        outputBuffer := p.outputBuffer ++ segs.flatMap (Segment.expand p) }
      Runs disk p q ∧ (frames = [] → Returns disk p (0, q)) ∧
        ((p.storedMacros = fun _ => none) → q.outputBuffer = p.outputBuffer ++ text) := by
  have htop : p.top = frame := by simp [top, hstack]
  have hat : At p [] text := by
    refine ⟨by simp [hstack], ?_, ?_, ?_, ?_⟩
    · rw [sourceContent, htop, htext, List.nil_append]
    · rw [cursor, htop, hcursor, List.length_nil]
    · rw [size, sourceContent, htop, hsize, List.length_nil, Nat.zero_add]
    · rw [size, sourceContent, htop, hsize]; omega
  refine ⟨exists_segmented text, fun segs hseg hfree => ?_⟩
  have hrun := runs_frame disk hseg hfree hat
  rw [hstack, List.tail_cons] at hrun
  refine ⟨hrun, fun hlast => ?_, fun hm => ?_⟩
  · exact Returns.of_runs hrun (Returns.of_finished hlast)
  · show p.outputBuffer ++ segs.flatMap (Segment.expand p) = p.outputBuffer ++ text
    rw [← hseg.flatMap_text, List.append_nil, funext (expand_of_noMacros hm)]

/-- `x` stands for `1` in the frame `x "x"`. -/
def substitutionSample : Preprocessor where
  fileMgr := { data := bytes "1x \"x\"" }
  inputStack := [{ content := { offset := 1, size := 5 }, cursor := 0 }]
  storedMacros := fun s =>
    if s = bytes "x" then some { content := { offset := 0, size := 1 }, t := .Define } else none

/-- A name, a blank and the same name inside a literal. -/
def substitutionSampleSegments : List Segment :=
  [.ident (bytes "x"), .single ' '.toUInt8, .literal (bytes "\"x\"")]

lemma substitutionSample_segmented : Segmented [] (bytes "x \"x\"") substitutionSampleSegments := by
  have hword : Word (bytes "x") (bytes " \"x\"") := by
    refine ⟨by decide, by decide, ?_⟩
    intro c hc
    cases Option.mem_def.mp hc
    decide
  have hsingle : Single ' '.toUInt8 (bytes "\"x\"") :=
    ⟨by decide, by decide, not_startsComment (by decide)⟩
  have hquoted : Quoted '"'.toUInt8 (bytes "x") := .plain (by decide) (by decide) .nil
  have hliteral : Literal (bytes "\"x\"") [] := .closed [] (.inl rfl) hquoted
  exact .ident hword (.single hsingle (.literal hliteral .nil))

theorem process_substitutes_sample :
    Returns (fun _ => none) substitutionSample
      (0, { substitutionSample with inputStack := [], outputBuffer := bytes "1 \"x\"" }) := by
  obtain ⟨-, h⟩ := process_substitutes (fun _ => none) substitutionSample _ []
    (bytes "x \"x\"") rfl rfl (by decide) rfl (by decide)
  exact (h _ substitutionSample_segmented (by unfold HashFree; decide)).2.1 rfl

end Preprocessor

end LogicCompiler
