import LogicCompiler.Preproc.Params

/-!
# Definitions

What `#define`, `#define_m` and `#param` do to the table of macros.  The names of a definition are
first passed over as one span and then split at every `&`; here the span is a list of names with
blanks around them, and registering it binds each of the names (`registerNames_span`).

The value of `#define` may be continued on further lines.  `handle_define` finds the last of them, but
it keeps the text in between as it is (`handleDefine_continued`), with the markers and the newlines.
-/

namespace LogicCompiler

namespace Preprocessor

variable {p q : Preprocessor} {disk : Disk} {n c : ℕ} {pre post : List Byte}

/-! ## Registering names -/

lemma foldl_addMacro_apply (ns : List (List Byte)) (d : Defined) (m : List Byte) :
    (ns.foldl (fun p singleName => if singleName = [] then p else p.addMacro singleName d) p).storedMacros
      m = if m ∈ ns ∧ m ≠ [] then some d else p.storedMacros m := by
  induction ns generalizing p with
  | nil => simp
  | cons x ns ih =>
      rw [List.foldl_cons, ih]
      by_cases hx : x = []
      · rw [if_pos hx, hx]
        congr 1
        simp only [List.mem_cons, eq_iff_iff]
        tauto
      · have hadd : (p.addMacro x d).storedMacros m = if m = x then some d else p.storedMacros m :=
          Function.update_apply _ _ _ _
        rw [if_neg hx, hadd]
        by_cases hm : m ∈ ns ∧ m ≠ []
        · rw [if_pos hm, if_pos ⟨List.mem_cons_of_mem x hm.1, hm.2⟩]
        · rw [if_neg hm]
          congr 1
          simp only [List.mem_cons, eq_iff_iff]
          constructor
          · rintro rfl
            exact ⟨.inl rfl, hx⟩
          · rintro ⟨rfl | hmem, hne⟩
            · rfl
            · exact absurd ⟨hmem, hne⟩ hm

/-- A span of names binds each name in it, and nothing else. -/
lemma registerNames_apply (p : Preprocessor) (s : List Byte) (d : Defined) (m : List Byte) :
    (p.registerNames s d).storedMacros m =
      if m ∈ (s.splitOn '&'.toUInt8).map trim ∧ m ≠ [] then some d else p.storedMacros m :=
  foldl_addMacro_apply _ d m

lemma registerNames_fields (p : Preprocessor) (s : List Byte) (d : Defined) :
    (p.registerNames s d).fileMgr = p.fileMgr ∧ (p.registerNames s d).inputStack = p.inputStack ∧
      (p.registerNames s d).outputBuffer = p.outputBuffer := by
  rw [registerNames]
  generalize (s.splitOn '&'.toUInt8).map trim = ns
  induction ns generalizing p with
  | nil => exact ⟨rfl, rfl, rfl⟩
  | cons x ns ih =>
      rw [List.foldl_cons]
      split
      · exact ih p
      · exact ih (p.addMacro x d)

/-- An identifier. -/
abbrev Name := { s : List Byte // s ≠ [] ∧ ∀ c ∈ s, isIdentChar c = true }

/-- A name with blanks around it. -/
structure Piece where
  before : Blanks
  name : Name
  after : Blanks

namespace Piece

/-- The name, with the blanks around it. -/
def text (x : Piece) : List Byte := x.before.s ++ (x.name.1 ++ x.after.s)

/-- The pieces behind the first one. -/
def tailText (xs : List Piece) : List Byte := xs.flatMap fun x => '&'.toUInt8 :: x.text

/-- Pieces connected with `&`. -/
def span (x : Piece) (xs : List Piece) : List Byte := x.text ++ tailText xs

lemma trim_text (x : Piece) : trim x.text = x.name.1 := by
  have hbare : Strip.Bare isSpace x.name.1 := by
    have hno : ∀ c ∈ x.name.1, isSpace c = false := fun c hc => by
      cases hs : isSpace c with
      | false => rfl
      | true => exact absurd (x.name.2.2 c hc) (by simp [(isSpace_inert hs).2])
    exact ⟨fun c hc => hno c (List.mem_of_head? hc), fun c hc => hno c (List.mem_of_getLast? hc)⟩
  exact Strip.strip_margins (fun c hc => isBlank_isSpace (x.before.blank c hc))
    (fun c hc => isBlank_isSpace (x.after.blank c hc)) hbare

lemma amp_notMem (x : Piece) : '&'.toUInt8 ∉ x.text := by
  intro hc
  rw [text, List.mem_append, List.mem_append] at hc
  rcases hc with hc | hc | hc
  · exact absurd (x.before.blank _ hc) (by decide)
  · exact absurd (x.name.2.2 _ hc) (by decide)
  · exact absurd (x.after.blank _ hc) (by decide)

/-- The span is split into its pieces. -/
lemma splitOn_span (x : Piece) (xs : List Piece) :
    (span x xs).splitOn '&'.toUInt8 = (x :: xs).map text := by
  induction xs generalizing x with
  | nil =>
      rw [span, tailText, List.flatMap_nil, List.append_nil, List.splitOn_eq_singleton x.amp_notMem]
      rfl
  | cons y ys ih =>
      have hcons : span x (y :: ys) = x.text ++ '&'.toUInt8 :: span y ys := by
        simp [span, tailText]
      rw [hcons, List.splitOn_append_cons_self_of_not_mem x.amp_notMem, ih]
      rfl

end Piece

/-- Registering a span binds the names of its pieces. -/
lemma registerNames_span (p : Preprocessor) (x : Piece) (xs : List Piece) (d : Defined) (m : List Byte) :
    (p.registerNames (Piece.span x xs) d).storedMacros m =
      if m ∈ (x :: xs).map (·.name.1) then some d else p.storedMacros m := by
  have hnames : ((x :: xs).map Piece.text).map trim = (x :: xs).map (·.name.1) := by
    rw [List.map_map]
    exact List.map_congr_left fun y _ => y.trim_text
  rw [registerNames_apply, Piece.splitOn_span, hnames]
  congr 1
  rw [eq_iff_iff, and_iff_left_iff_imp]
  intro hm
  rcases List.mem_map.mp hm with ⟨y, -, rfl⟩
  exact y.name.2.1

/-- The name, with no blanks around it. -/
def Name.piece (x : Name) : Piece := ⟨noBlanks, x, noBlanks⟩

/-- The names behind the first one, without blanks. -/
def aliasText (ns : List Name) : List Byte := ns.flatMap fun x => '&'.toUInt8 :: x.1

lemma span_piece (x : Name) (ns : List Name) :
    Piece.span x.piece (ns.map Name.piece) = x.1 ++ aliasText ns := by
  simp [Piece.span, Piece.tailText, Piece.text, Name.piece, noBlanks, aliasText, List.flatMap_map]

/-- Registering names without blanks. -/
lemma registerNames_names (p : Preprocessor) (x : Name) (ns : List Name) (d : Defined) (m : List Byte) :
    (p.registerNames (x.1 ++ aliasText ns) d).storedMacros m =
      if m ∈ (x :: ns).map Subtype.val then some d else p.storedMacros m := by
  rw [← span_piece, registerNames_span, List.map_cons, List.map_map]
  rfl

/-! ## The span in front of a value -/

/-- Neither an identifier nor a list of names goes on. -/
def NameEnds (post : List Byte) : Prop :=
  ∀ c ∈ post.head?, isIdentChar c = false ∧ c ≠ '&'.toUInt8

lemma head_aliasText (ns : List Name) (hpost : NameEnds post) :
    ∀ c ∈ (aliasText ns ++ post).head?, isIdentChar c = false := by
  intro c hc
  cases ns with
  | nil => exact (hpost c hc).1
  | cons x ns =>
      cases hc
      decide

/-- The loop of `handle_define` over the further names. -/
lemma aliasLoop_names (ns : List Name) (hn : ns.length ≤ n) (hat : At p pre (aliasText ns ++ post))
    (hpost : NameEnds post) : aliasLoop n p = p.bump (aliasText ns).length := by
  induction ns generalizing n p pre with
  | nil =>
      have hstop : ¬ ((!p.atEnd) = true ∧ p.currChar = '&'.toUInt8) := by
        rintro ⟨hend, hchar⟩
        cases post with
        | nil => simp [At.atEnd_nil hat] at hend
        | cons c post => exact (hpost c rfl).2 (At.currChar hat ▸ hchar)
      rw [aliasText, List.flatMap_nil, List.length_nil, bump_zero]
      cases n with
      | zero => rfl
      | succ n => rw [aliasLoop, if_neg hstop]
  | cons x ns ih =>
      rcases Nat.exists_eq_add_of_le hn with ⟨k, rfl⟩
      have hcons : aliasText (x :: ns) = '&'.toUInt8 :: (x.1 ++ aliasText ns) := rfl
      rw [hcons, List.cons_append, List.append_assoc] at hat
      have hgo : (!p.atEnd) = true ∧ p.currChar = '&'.toUInt8 :=
        ⟨by rw [hat.atEnd_cons]; rfl, hat.currChar⟩
      have hskip := hat.bump_one.skipIdent x.2.2 (head_aliasText ns hpost)
      have hrest := ih (Nat.le_add_right _ k) hat.bump_one.bump
      rw [List.length_cons, Nat.add_right_comm, aliasLoop, if_pos hgo, hskip, hrest, bump_bump,
        bump_bump, hcons, List.length_cons, List.length_append]
      congr 1
      omega

/-! ## The value -/

/-- The continuation marker in its two spellings. -/
inductive Marker where
  | Joined | Spaced
  deriving DecidableEq, Repr

/-- The marker, as it is written. -/
def Marker.text : Marker → List Byte
  | .Joined => bytes "__/__"
  | .Spaced => bytes "__ / __"

/-- The value of a definition on several lines: what stands in front of the marker of each continued
line, and the last line. -/
structure Value where
  lines : List (List Byte × Marker)
  last : List Byte
  line : ∀ x ∈ lines, '\n'.toUInt8 ∉ x.1
  last_line : '\n'.toUInt8 ∉ last

namespace Value

/-- The continued lines, with their markers and newlines. -/
def continued (lines : List (List Byte × Marker)) : List Byte :=
  lines.flatMap fun x => x.1 ++ x.2.text ++ ['\n'.toUInt8]

/-- The text of the value, over all of its lines. -/
def text (v : Value) : List Byte := continued v.lines ++ v.last

/-- The pieces of the lines, without the markers. -/
def joined (v : Value) : List Byte := v.lines.flatMap Prod.fst ++ v.last

end Value

/-- A line ends with a newline or with the file. -/
inductive LineEnd : List Byte → List Byte → Prop
  | newline (post : List Byte) : LineEnd ['\n'.toUInt8] post
  | eof : LineEnd [] []

lemma hasContinuation_iff {s : List Byte} :
    hasContinuation s = true ↔ ∃ m : Marker, m.text <:+: s := by
  have hfound (t : List Byte) (ht : t ≠ []) : (Search.findSeq t s).isSome = true ↔ t <:+: s := by
    rw [Option.isSome_iff_ne_none, Ne, Search.findSeq_eq_none_iff ht, not_not]
  rw [hasContinuation, Bool.or_eq_true, hfound _ (by decide), hfound _ (by decide)]
  constructor
  · rintro (h | h)
    · exact ⟨.Joined, h⟩
    · exact ⟨.Spaced, h⟩
  · rintro ⟨_ | _, h⟩
    · exact .inl h
    · exact .inr h

lemma newline_notMem_marker (m : Marker) : '\n'.toUInt8 ∉ m.text := by cases m <;> decide

/-- A line with a marker is continued when there is a next one. -/
lemma continuationLoop_line {l : List Byte} (hat : At p pre (l ++ '\n'.toUInt8 :: post))
    (hl : '\n'.toUInt8 ∉ l) (hm : hasContinuation l = true) :
    continuationLoop (n + 1) c p = continuationLoop n c (p.bump (l.length + 1)) := by
  have hend : p.atEnd = false := by rw [hat.atEnd]; simp
  rw [continuationLoop, if_neg (by simp [hend])]
  dsimp only
  rw [hat.findNext hl, orSize, Option.getD_some, hat.read_to, hm]
  rfl

/-- The loop over the continued lines of a value. -/
lemma continuationLoop_continued {lines : List (List Byte × Marker)}
    (hlines : ∀ x ∈ lines, '\n'.toUInt8 ∉ x.1) (hat : At p pre (Value.continued lines ++ post)) :
    continuationLoop (lines.length + n) c p =
      continuationLoop n c (p.bump (Value.continued lines).length) := by
  induction lines generalizing p pre with
  | nil => rw [List.length_nil, Nat.zero_add, Value.continued, List.flatMap_nil, List.length_nil, bump_zero]
  | cons x lines ih =>
      have hx : '\n'.toUInt8 ∉ x.1 ++ x.2.text := by
        rw [List.mem_append, not_or]
        exact ⟨hlines x List.mem_cons_self, newline_notMem_marker x.2⟩
      have hmarker : hasContinuation (x.1 ++ x.2.text) = true :=
        hasContinuation_iff.mpr ⟨x.2, (List.suffix_append _ _).isInfix⟩
      have hcons : Value.continued (x :: lines) =
          (x.1 ++ x.2.text) ++ '\n'.toUInt8 :: Value.continued lines := by
        simp [Value.continued]
      rw [hcons, List.append_assoc, List.cons_append] at hat
      have hnext := hat.bump.bump_one
      rw [bump_bump] at hnext
      rw [List.length_cons, Nat.add_right_comm, continuationLoop_line hat hx hmarker,
        ih (fun y hy => hlines y (List.mem_cons_of_mem x hy)) hnext, bump_bump, hcons]
      congr 2
      simp only [List.length_append, List.length_cons]
      omega

/-- The line that ends the value; nothing is left of it at the end of the file. -/
lemma continuationLoop_last {l nl : List Byte} (hat : At p pre (l ++ (nl ++ post)))
    (hend : LineEnd nl post) (hl : '\n'.toUInt8 ∉ l) (hm : ¬ ∃ m : Marker, m.text <:+: l)
    (hn : (l ++ nl).length ≤ n) :
    continuationLoop n c p =
      (if l ++ nl = [] then c else p.cursor + l.length, p.bump (l ++ nl).length) := by
  have hno : hasContinuation l = false := by
    rw [← Bool.not_eq_true, hasContinuation_iff]
    exact hm
  cases hend with
  | newline =>
      obtain ⟨k, rfl⟩ := Nat.exists_eq_add_of_le hn
      have hatEnd : p.atEnd = false := by rw [hat.atEnd]; simp
      have hlen : (l ++ ['\n'.toUInt8]).length = l.length + 1 := List.length_append
      rw [if_neg (by simp), hlen, Nat.add_right_comm, continuationLoop, if_neg (by simp [hatEnd])]
      have hline : At p pre (l ++ '\n'.toUInt8 :: post) := hat
      dsimp only
      rw [hline.findNext hl, orSize, Option.getD_some, hat.read_to, hno]
      rfl
  | eof =>
      rw [List.append_nil, List.append_nil] at hat
      rw [List.append_nil] at hn ⊢
      by_cases hnil : l = []
      · rw [if_pos hnil, hnil, List.length_nil, bump_zero]
        cases n with
        | zero => rfl
        | succ n => rw [continuationLoop, if_pos (by rw [hat.atEnd, hnil]; rfl)]
      · have hpos := List.length_pos_of_ne_nil hnil
        obtain ⟨k, rfl⟩ := Nat.exists_eq_add_of_le' (hpos.trans_le hn)
        have hsize : p.size = p.cursor + l.length := by rw [hat.size, hat.cursor]
        have hline : At p pre (l ++ []) := by rwa [List.append_nil]
        rw [if_neg hnil, continuationLoop, if_neg (by rw [hat.atEnd]; simpa using hnil)]
        dsimp only
        rw [hat.findNext_none hl, orSize, Option.getD_none, hsize, hline.read_to, hno]
        rfl

/-! ## `#define` -/

/-- What is stored for a value: its text without the blanks behind it, or nothing when the file ends
where a further line should begin. -/
def Value.stored (v : Value) (nl : List Byte) : List Byte :=
  if v.last ++ nl = [] then [] else v.text.rdropWhile isBlank

/-- A `#define` with one name or more. -/
structure Definition where
  gap : Blanks
  gap_ne : gap.s ≠ []
  name : Name
  aliases : List Name
  space : Blanks
  value : Value

namespace Definition

variable (D : Definition) (nl post : List Byte)

/-- The name and its aliases. -/
def names : List (List Byte) := (D.name :: D.aliases).map Subtype.val

/-- The text between the word `#define` and the line behind the definition. -/
def line : List Byte :=
  D.gap.s ++ (D.name.1 ++ (aliasText D.aliases ++ (D.space.s ++ (D.value.text ++ nl))))

/-- The text of the definition. -/
def text : List Byte := bytes "#define" ++ D.line nl

/-- The lines end as lines do, the names end where the names of the text end, and the value begins with
the first byte that is not blank. -/
structure Stands : Prop where
  ends : LineEnd nl post
  names : NameEnds (D.space.s ++ (D.value.text ++ (nl ++ post)))
  begins : ∀ c ∈ (D.value.text ++ (nl ++ post)).head?, isBlank c = false

end Definition

lemma length_le_aliasText (ns : List Name) : ns.length ≤ (aliasText ns).length := by
  rw [aliasText, List.length_flatMap, ← List.length_map]
  exact List.length_le_sum_of_one_le _ fun k hk => by
    rcases List.mem_map.mp hk with ⟨x, -, rfl⟩
    exact Nat.succ_le_succ (Nat.zero_le _)

lemma length_le_continued (lines : List (List Byte × Marker)) :
    lines.length ≤ (Value.continued lines).length := by
  rw [Value.continued, List.length_flatMap, ← List.length_map]
  exact List.length_le_sum_of_one_le _ fun k hk => by
    rcases List.mem_map.mp hk with ⟨x, -, rfl⟩
    rw [List.length_append]
    exact Nat.le_add_left _ _

/-- The loop over all the lines of a value. -/
lemma continuationLoop_value {v : Value} {nl : List Byte} (hat : At p pre (v.text ++ (nl ++ post)))
    (hend : LineEnd nl post) (hlast : ¬ ∃ m : Marker, m.text <:+: v.last) :
    continuationLoop p.rest.length p.cursor p =
      (if v.last ++ nl = [] then p.cursor else p.cursor + v.text.length,
        p.bump (v.text ++ nl).length) := by
  have hlines : At p pre (Value.continued v.lines ++ (v.last ++ (nl ++ post))) := by
    rwa [Value.text, List.append_assoc] at hat
  have hfuel : v.lines.length + (v.last ++ nl).length ≤ p.rest.length := by
    rw [hlines.rest]
    have := length_le_continued v.lines
    simp only [List.length_append]
    omega
  rcases Nat.exists_eq_add_of_le hfuel with ⟨k, hk⟩
  have hbehind := hlines.bump
  rw [hk, Nat.add_assoc, continuationLoop_continued v.line hlines,
    continuationLoop_last hbehind hend v.last_line hlast (Nat.le_add_right _ k), bump_bump,
    hbehind.cursor, hlines.cursor, Value.text]
  simp only [List.length_append, Nat.add_assoc]

/-- The text in front of the blanks that are trimmed. -/
lemma read_trimmed {s : List Byte} (hat : At p pre (s ++ post)) :
    p.fileMgr.read { offset := p.sourceContent.offset + p.cursor, size := (s.rdropWhile isBlank).length } =
      s.rdropWhile isBlank := by
  have hsplit : At p pre (s.rdropWhile isBlank ++ (s.rtakeWhile isBlank ++ post)) := by
    rwa [← List.append_assoc, List.rdropWhile_append_rtakeWhile]
  have hread := hsplit.read_to
  rwa [toCursor, Nat.add_sub_cancel_left] at hread

lemma read_stored {v : Value} {nl : List Byte} (hat : At p pre (v.text ++ post)) :
    p.fileMgr.read
      { offset := p.sourceContent.offset + p.cursor,
        size := ((((p.fileMgr.read p.sourceContent).take
          (if v.last ++ nl = [] then p.cursor else p.cursor + v.text.length)).drop p.cursor).rdropWhile
            isBlank).length } = v.stored nl := by
  rw [Value.stored]
  split
  · rw [List.drop_of_length_le (List.length_take_le _ _)]
    exact List.take_zero
  · have hbody : ((p.fileMgr.read p.sourceContent).take (p.cursor + v.text.length)).drop p.cursor =
        v.text := by
      rw [hat.text, hat.cursor, ← List.length_append, ← List.append_assoc, List.take_left,
        List.drop_left]
    rw [hbody]
    exact read_trimmed hat

/-- `handle_define` over names and a value: the names are bound to the text of the value. -/
lemma handleDefine_value {D : Definition} {nl : List Byte} (hat : At p pre (D.line nl ++ post))
    (hD : D.Stands nl post) (hlast : ¬ ∃ m : Marker, m.text <:+: D.value.last) :
    ∃ d, p.handleDefine = (0, (p.bump (D.line nl).length).registerNames
        (D.name.1 ++ aliasText D.aliases) d) ∧
      p.fileMgr.read d.content = D.value.stored nl := by
  rcases D with ⟨gap, hgap, x, ns, w, v⟩
  have htext : At p pre (gap.s ++ (x.1 ++ (aliasText ns ++ (w.s ++ (v.text ++ (nl ++ post)))))) := by
    simpa only [Definition.line, List.append_assoc] using hat
  have hol := htext.ol gap.blank fun c hc => by
    rw [List.head?_append_of_ne_nil _ x.2.1] at hc
    exact isIdentChar_not_blank (x.2.2 c (List.mem_of_head? hc))
  have hskip := htext.bump.skipIdent x.2.2 (head_aliasText ns hD.names)
  have hnames := htext.bump.bump
  have hfuel : ns.length ≤ ((p.bump gap.s.length).bump x.1.length).rest.length := by
    rw [hnames.rest, List.length_append]
    exact (length_le_aliasText ns).trans (Nat.le_add_right _ _)
  have halias := aliasLoop_names ns hfuel hnames hD.names
  have hspan : At ((p.bump gap.s.length).bump (x.1 ++ aliasText ns).length)
      ((pre ++ gap.s) ++ (x.1 ++ aliasText ns)) (w.s ++ (v.text ++ (nl ++ post))) := by
    refine At.bump ?_
    rw [List.append_assoc]
    exact htext.bump
  have hread := hspan.read_from
  rw [← htext.bump.cursor] at hread
  have hstep : ((p.bump gap.s.length).bump x.1.length).bump (aliasText ns).length =
      (p.bump gap.s.length).bump (x.1 ++ aliasText ns).length := by
    rw [bump_bump, List.length_append]
  have hvalue := hspan.bump
  have hlen : (((p.bump gap.s.length).bump (x.1 ++ aliasText ns).length).bump w.s.length).bump
      (v.text ++ nl).length =
        p.bump (gap.s ++ (x.1 ++ (aliasText ns ++ (w.s ++ (v.text ++ nl))))).length := by
    rw [bump_bump, bump_bump, bump_bump]
    simp only [List.length_append, Nat.add_assoc]
  have hstored : _ = v.stored nl := read_stored hvalue
  rw [List.rdropWhile, List.length_reverse] at hstored
  have hcontent :
      (p.bump (gap.s ++ (x.1 ++ (aliasText ns ++ (w.s ++ (v.text ++ nl))))).length).sourceContent =
        (((p.bump gap.s.length).bump (x.1 ++ aliasText ns).length).bump w.s.length).sourceContent := by
    rw [← hlen, Preprocessor.bump, setCursor_sourceContent]
  rw [handleDefine, hol]
  dsimp only
  rw [hskip, halias, hstep, hread, hspan.ol w.blank hD.begins,
    continuationLoop_value hvalue hD.ends hlast]
  dsimp only
  rw [hlen]
  refine ⟨_, rfl, ?_⟩
  rw [hcontent]
  exact hstored

/-- The iteration in front of a `#define`. -/
lemma step_definition (disk : Disk) {D : Definition} {nl : List Byte}
    (hat : At p pre (D.text nl ++ post)) (hD : D.Stands nl post)
    (hlast : ¬ ∃ m : Marker, m.text <:+: D.value.last) :
    ∃ q d, (∀ n, p.step disk n = .next q) ∧ q.fileMgr.read d.content = D.value.stored nl ∧
      (∀ m, q.storedMacros m = if m ∈ D.names then some d else p.storedMacros m) ∧
      At q (pre ++ D.text nl) post := by
  rw [Definition.text, List.append_assoc] at hat
  have hword : Directive (bytes "#define") (D.line nl ++ post) := by
    refine directive_of rfl (by decide) ?_
    rw [Definition.line, List.append_assoc]
    exact head_gap D.gap_ne
  rcases handleDefine_value (at_active .Define hat) hD hlast with ⟨d, hdefine, hread⟩
  have hbehind := (at_active .Define hat).bump
  generalize (D.line nl).length = k at hdefine hbehind
  set q := ((p.bump (bytes "#define").length).setActive .Define).bump k with hq
  rcases registerNames_fields q (D.name.1 ++ aliasText D.aliases) d with ⟨hfile, hstack, -⟩
  refine ⟨q.registerNames (D.name.1 ++ aliasText D.aliases) d, d, fun n => ?_, ?_,
    registerNames_names q D.name D.aliases d, ?_⟩
  · rw [step_directive disk n hat hword]
    show afterDirective ((p.bump (bytes "#define").length).setActive .Define).handleDefine = _
    rw [hdefine]
    rfl
  · rw [hfile]
    exact hread
  · rw [Definition.text, ← List.append_assoc]
    exact hbehind.congr hfile hstack

/-! ## Continued definitions -/

/-- The names are bound to the pieces of the lines, without a marker or a newline in between, and the
run goes on behind the last line. -/
def KeepsOneLine (disk : Disk) (p : Preprocessor) (pre : List Byte) (D : Definition)
    (nl post : List Byte) : Prop :=
  ∃ q d, (∀ n, p.step disk n = .next q) ∧ (∀ m ∈ D.names, q.storedMacros m = some d) ∧
    q.fileMgr.read d.content = Strip.strip isBlank D.value.joined ∧
    (¬ ∃ m : Marker, m.text <:+: q.fileMgr.read d.content) ∧
    '\n'.toUInt8 ∉ q.fileMgr.read d.content ∧ At q (pre ++ D.text nl) post

lemma marker_bare (m : Marker) : Strip.Bare isBlank m.text ∧ m.text ≠ [] := by
  cases m <;> exact ⟨⟨by decide, by decide⟩, by decide⟩

/-- Trimming does not take a marker away. -/
lemma marker_infix_strip {m : Marker} {s : List Byte} (h : m.text <:+: s) :
    m.text <:+: Strip.strip isBlank s := by
  rcases h with ⟨u, t, rfl⟩
  rw [List.append_assoc, Strip.strip_around (marker_bare m).1 (marker_bare m).2]
  exact ⟨_, _, (List.append_assoc _ _ _)⟩

lemma joined_nil {v : Value} (h : v.lines = []) : v.joined = v.last ∧ v.text = v.last := by
  rw [Value.joined, Value.text, h]
  exact ⟨rfl, rfl⟩

/-- A continued line leaves its newline in the text that is stored. -/
lemma newline_mem_stored {v : Value} {nl : List Byte} (hlines : v.lines ≠ []) (h : v.last ++ nl ≠ []) :
    '\n'.toUInt8 ∈ v.stored nl := by
  have hmem : '\n'.toUInt8 ∈ v.text := by
    obtain ⟨x, lines, hx⟩ := List.exists_cons_of_ne_nil hlines
    simp [Value.text, Value.continued, hx]
  rw [Value.stored, if_neg h]
  rw [← List.rdropWhile_append_rtakeWhile (p := isBlank) (l := v.text), List.mem_append] at hmem
  refine hmem.resolve_right fun hblank => ?_
  exact absurd (List.mem_rtakeWhile_imp hblank) (by decide)

/-- On one line without a marker, the value is what is stored. -/
lemma stored_single {D : Definition} {nl : List Byte} (hD : D.Stands nl post)
    (hlines : D.value.lines = []) : D.value.stored nl = Strip.strip isBlank D.value.joined := by
  have hbegin : ∀ c ∈ D.value.last.head?, isBlank c = false := by
    intro c hc
    refine hD.begins c ?_
    rw [(joined_nil hlines).2]
    cases hlast : D.value.last with
    | nil =>
        rw [hlast] at hc
        cases hc
    | cons e s => rwa [hlast] at hc
  rw [Value.stored, (joined_nil hlines).1, (joined_nil hlines).2, Strip.strip,
    Strip.dropWhile_of_head hbegin]
  split
  · next h => rw [(List.append_eq_nil_iff.mp h).1]; rfl
  · rfl

lemma KeepsOneLine.stored {D : Definition} {nl : List Byte} (h : KeepsOneLine disk p pre D nl post)
    (hat : At p pre (D.text nl ++ post)) (hD : D.Stands nl post) :
    (¬ ∃ m : Marker, m.text <:+: D.value.last) ∧
      D.value.stored nl = Strip.strip isBlank D.value.joined ∧ '\n'.toUInt8 ∉ D.value.stored nl := by
  rcases h with ⟨q, d, hstep, hnames, hread, hmarker, hline, -⟩
  have hlast : ¬ ∃ m : Marker, m.text <:+: D.value.last := by
    rintro ⟨m, hm⟩
    refine hmarker ⟨m, ?_⟩
    rw [hread]
    exact marker_infix_strip (hm.trans (List.suffix_append _ _).isInfix)
  rcases step_definition disk hat hD hlast with ⟨q', d', hstep', hread', hnames', -⟩
  have hq : q = q' := by
    have h := (hstep 0).symm.trans (hstep' 0)
    cases h
    rfl
  subst hq
  have hd : d = d' := by
    have hmem : D.name.1 ∈ D.names := List.mem_cons_self
    have h := hnames _ hmem
    rw [hnames', if_pos hmem] at h
    exact (Option.some.inj h).symm
  subst hd
  rw [hread'] at hread hline
  exact ⟨hlast, hread, hline⟩

/-- **A definition stays one line exactly if it is written on one line, without a marker in it**; or if
there is nothing but blanks in front of the markers, and the file ends with the last of them. -/
theorem keepsOneLine_iff {D : Definition} {nl : List Byte} (hat : At p pre (D.text nl ++ post))
    (hD : D.Stands nl post) :
    KeepsOneLine disk p pre D nl post ↔
      (D.value.lines = [] ∧ ¬ ∃ m : Marker, m.text <:+: D.value.last) ∨
        (D.value.lines ≠ [] ∧ D.value.last ++ nl = [] ∧ ∀ c ∈ D.value.joined, isBlank c = true) := by
  constructor
  · intro h
    rcases h.stored hat hD with ⟨hlast, hread, hline⟩
    by_cases hlines : D.value.lines = []
    · exact .inl ⟨hlines, hlast⟩
    · refine .inr ⟨hlines, ?_⟩
      by_cases hend : D.value.last ++ nl = []
      · rw [Value.stored, if_pos hend] at hread
        exact ⟨hend, Strip.strip_eq_nil_iff.mp hread.symm⟩
      · exact absurd (newline_mem_stored hlines hend) hline
  · intro h
    have hlast : ¬ ∃ m : Marker, m.text <:+: D.value.last := by
      rcases h with h | ⟨-, hend, -⟩
      · exact h.2
      · rintro ⟨m, hm⟩
        rw [(List.append_eq_nil_iff.mp hend).1, List.infix_nil] at hm
        exact (marker_bare m).2 hm
    have hstored : D.value.stored nl = Strip.strip isBlank D.value.joined := by
      rcases h with h | ⟨-, hend, hblank⟩
      · exact stored_single hD h.1
      · rw [Value.stored, if_pos hend, Strip.strip_eq_nil_iff.mpr hblank]
    have hwithin : D.value.stored nl <:+: D.value.last := by
      rw [Value.stored]
      split
      · exact List.nil_infix
      · next hne =>
          have hlines := (h.resolve_right fun hblank => hne hblank.2.1).1
          rw [(joined_nil hlines).2]
          exact (List.rdropWhile_prefix _ _).isInfix
    rcases step_definition disk hat hD hlast with ⟨q, d, hstep, hread, hnames, hq⟩
    refine ⟨q, d, hstep, fun m hm => by rw [hnames, if_pos hm], hread.trans hstored, ?_, ?_, hq⟩
    · rw [hread]
      rintro ⟨m, hm⟩
      exact hlast ⟨m, hm.trans hwithin⟩
    · rw [hread]
      exact fun hmem => D.value.last_line (hwithin.subset hmem)

lemma blank_ne_nil : blank.s ≠ [] := by decide

lemma isName_A : bytes "A" ≠ [] ∧ ∀ c ∈ bytes "A", isIdentChar c = true := by decide

/-- `#define A` with a value. -/
def smallDefinition (v : Value) : Definition where
  gap := blank
  gap_ne := blank_ne_nil
  name := ⟨bytes "A", isName_A⟩
  aliases := []
  space := blank
  value := v

/-- `1`. -/
def oneLine : Value := ⟨[], bytes "1", by decide, by decide⟩

/-- `1 +`, continued with `2`. -/
def twoLines : Value := ⟨[(bytes "1 +", .Joined)], bytes "2", by decide, by decide⟩

lemma smallDefinition_stands {v : Value} (hbegin : ∀ c ∈ (v.text ++ bytes "\n").head?, isBlank c = false) :
    (smallDefinition v).Stands (bytes "\n") [] where
  ends := .newline []
  names := by
    intro c hc
    cases hc
    decide
  begins := hbegin

theorem keepsOneLine_sample : KeepsOneLine (fun _ => none) (ofText (bytes "#define A 1\n")) []
    (smallDefinition oneLine) (bytes "\n") [] := by
  have hat : At (ofText (bytes "#define A 1\n")) [] ((smallDefinition oneLine).text (bytes "\n") ++ []) :=
    (opens_ofText (by decide)).at
  refine (keepsOneLine_iff hat (smallDefinition_stands (by decide))).mpr (.inl ⟨rfl, ?_⟩)
  rintro ⟨_ | _, hm⟩ <;> exact absurd hm.length_le (by decide)

/-- **Two lines stay two lines.** -/
theorem not_keepsOneLine_sample :
    (smallDefinition twoLines).text (bytes "\n") = bytes "#define A 1 +__/__\n2\n" ∧
      twoLines.stored (bytes "\n") = bytes "1 +__/__\n2" ∧
      ¬ KeepsOneLine (fun _ => none) (ofText (bytes "#define A 1 +__/__\n2\n")) []
        (smallDefinition twoLines) (bytes "\n") [] := by
  refine ⟨by decide, by decide, fun h => ?_⟩
  have hat : At (ofText (bytes "#define A 1 +__/__\n2\n")) []
      ((smallDefinition twoLines).text (bytes "\n") ++ []) := (opens_ofText (by decide)).at
  rcases h.stored hat (smallDefinition_stands (by decide)) with ⟨-, -, hline⟩
  exact hline (newline_mem_stored (List.cons_ne_nil _ _) (by decide))

end Preprocessor

end LogicCompiler
