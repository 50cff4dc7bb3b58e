import LogicCompiler.Lexer.Opacity
import LogicCompiler.Preproc.Substitution

/-!
# Painting

The byte-wise reading `Mode` gives every byte of a text what it belongs to: code, a comment or a
literal (`kinds`).  A `Stretch` is what a scanner that stands in code can take at once: all of it
belongs to the same, and behind it there is code again or the end of the text.

Comments and literals, as the text alone delimits them, are pieces, and so is every run of bytes that
are neither quotes nor `/`.  A scanner that cuts a text into pieces therefore agrees with `kinds`
(`Cutting.kinds_iff`), and with every other scanner that does.
-/

namespace LogicCompiler

namespace Lexer

open Mode Preprocessor

/-- What a byte of the source belongs to. -/
inductive Kind where
  | code
  | comment
  | literal
  deriving DecidableEq, Repr

/-- What the byte `c`, with `r` behind it, belongs to.  The quotes belong to a literal, the openers and
the `*/` to a comment, and the newline behind a line comment to the code. -/
def Mode.kind : Mode → Byte → List Byte → Kind
  | plain, c, r =>
      if c = '/'.toUInt8 ∧ (r.head? = some '/'.toUInt8 ∨ r.head? = some '*'.toUInt8) then .comment
      else if IsQuote c then .literal
      else .code
  | opener _, _, _ => .comment
  | line, _, _ => .comment
  | block, _, _ => .comment
  | closer, _, _ => .comment
  | literal _, _, _ => .literal
  | escape _, _, _ => .literal

/-- What the bytes of `w`, read from a mode on and with `r` behind them, belong to. -/
def paint : Mode → List Byte → List Byte → List Kind
  | _, [], _ => []
  | m, c :: w, r => m.kind c (w ++ r) :: paint (m.next c (w ++ r)) w r

/-- What the bytes of a text belong to. -/
def kinds (text : List Byte) : List Kind := paint plain text []

example : kinds (bytes "a'b'//c\nd") =
    [.code, .literal, .literal, .literal, .comment, .comment, .comment, .code, .code] := by decide

variable {m m' m'' : Mode} {k : Kind} {c quote : Byte} {r s t u v body text pre post : List Byte}
  {i : ℕ}

lemma length_paint (m : Mode) (w r : List Byte) : (paint m w r).length = w.length := by
  induction w generalizing m with
  | nil => rfl
  | cons c w ih => rw [paint, List.length_cons, ih, List.length_cons]

/-- Painting goes on where it stopped. -/
lemma paint_append (m : Mode) (v w r : List Byte) :
    paint m (v ++ w) r = paint m v (w ++ r) ++ paint (walk m v (w ++ r)) w r := by
  induction v generalizing m with
  | nil => rfl
  | cons c v ih => rw [List.cons_append, paint, paint, walk, ih, List.append_assoc, List.cons_append]

/-! ## Text of one kind -/

/-- All of `s`, with `r` behind it, belongs to a `k`, and `s` leads from `m` to `m'`. -/
structure Paints (k : Kind) (r : List Byte) (m : Mode) (s : List Byte) (m' : Mode) : Prop where
  kinds : paint m s r = List.replicate s.length k
  walk : walk m s r = m'

namespace Paints

lemma nil : Paints k r m [] m := ⟨rfl, rfl⟩

lemma cons (hk : m.kind c (s ++ r) = k) (h : Paints k r (m.next c (s ++ r)) s m') :
    Paints k r m (c :: s) m' :=
  ⟨by rw [paint, hk, h.kinds, List.length_cons, List.replicate_succ], h.walk⟩

/-- Two stretches of one kind are one. -/
lemma append (h : Paints k (t ++ r) m s m') (h' : Paints k r m' t m'') :
    Paints k r m (s ++ t) m'' := by
  refine ⟨?_, ?_⟩
  · rw [paint_append, h.kinds, h.walk, h'.kinds, List.length_append, List.replicate_append_replicate]
  · rw [walk_append, h.walk, h'.walk]

/-- An ordinary byte is code. -/
lemma kind_ordinary (hc : Ordinary c) : plain.kind c r = .code := by
  have hquote : ¬ IsQuote c := not_or.mpr ⟨hc.2.1, hc.2.2⟩
  rw [Mode.kind, if_neg fun h => hc.1 h.1, if_neg hquote]

lemma ordinary (hs : ∀ c ∈ s, Ordinary c) : Paints .code r plain s plain := by
  induction s with
  | nil => exact nil
  | cons c s ih =>
      have hc := hs c List.mem_cons_self
      refine cons (kind_ordinary hc) ?_
      rw [Reaches.next_ordinary hc]
      exact ih fun d hd => hs d (List.mem_cons_of_mem c hd)

/-- A `/` that opens no comment. -/
lemma slash (h : ∀ d ∈ r.head?, d ≠ '/'.toUInt8 ∧ d ≠ '*'.toUInt8) :
    Paints .code r plain ['/'.toUInt8] plain := by
  refine cons ?_ ?_
  · rw [Mode.kind, if_neg, if_neg (by decide)]
    rintro ⟨-, hslash | hstar⟩
    · exact (h _ hslash).1 rfl
    · exact (h _ hstar).2 rfl
  · rw [List.nil_append, Reaches.next_slash h]
    exact nil

/-! ### Comments -/

lemma line (hbody : '\n'.toUInt8 ∉ body) :
    Paints .comment r (ofLine (body ++ r)) body (ofLine r) := by
  induction body with
  | nil => exact nil
  | cons c body ih =>
      have hc : c ≠ '\n'.toUInt8 := fun h => hbody (h ▸ List.mem_cons_self)
      rw [List.cons_append, Reaches.ofLine_cons hc]
      exact cons rfl (ih fun h => hbody (List.mem_cons_of_mem c h))

/-- A comment up to the end of its line. -/
lemma lineComment (hbody : '\n'.toUInt8 ∉ body) :
    Paints .comment r plain (bytes "//" ++ body) (ofLine r) :=
  cons rfl (cons rfl (line hbody))

lemma next_block (h : ¬ bytes "*/" <+: c :: r) : block.next c r = block := by
  refine if_neg ?_
  rintro ⟨rfl, hslash⟩
  rcases List.head?_eq_some_iff.mp hslash with ⟨t, rfl⟩
  exact h ⟨t, rfl⟩

/-- The inside of a comment, with its `*/`. -/
lemma blockBody (hbody : Search.FirstBefore (bytes "*/") body) :
    Paints .comment r block (body ++ bytes "*/") plain := by
  induction body with
  | nil => exact cons rfl (cons rfl nil)
  | cons c body ih =>
      have hopen := Search.not_prefix_of_firstBefore (r := r) hbody
      have hnext : block.next c (body ++ bytes "*/" ++ r) = block :=
        next_block (by rwa [List.append_assoc])
      rw [List.cons_append]
      refine cons rfl ?_
      rw [hnext]
      exact ih hbody.tail

/-- A comment that is never closed. -/
lemma openBlock (hbody : ¬ bytes "*/" <:+: body) : Paints .comment [] block body block := by
  induction body with
  | nil => exact nil
  | cons c body ih =>
      rw [List.infix_cons_iff, not_or] at hbody
      refine cons rfl ?_
      rw [List.append_nil, next_block hbody.1]
      exact ih hbody.2

/-! ### Literals -/

/-- A quote opens a literal. -/
lemma next_quote (hq : IsQuote quote) : plain.next quote r = literal quote := by
  have hslash : quote ≠ '/'.toUInt8 := by
    rintro rfl
    exact absurd hq (by decide)
  simp only [Mode.next, hslash, false_and, if_false]
  exact if_pos hq

lemma kind_quote (hq : IsQuote quote) : plain.kind quote r = .literal := by
  have hslash : quote ≠ '/'.toUInt8 := by
    rintro rfl
    exact absurd hq (by decide)
  rw [Mode.kind, if_neg fun h => hslash h.1, if_pos hq]

/-- The inside of a literal, with its quote. -/
lemma quoted (h : Quoted quote body) : Paints .literal r (literal quote) body (literal quote) := by
  induction h with
  | nil => exact nil
  | plain hesc hquote _ ih =>
      refine cons rfl ?_
      rw [Mode.next, if_neg hesc, if_neg hquote]
      exact ih
  | escape c _ ih =>
      refine cons rfl ?_
      rw [Mode.next, if_pos rfl]
      exact cons rfl ih

end Paints

/-! ## Pieces -/

/-- A scanner that stands in code can take `s`, which belongs to a `k`, and stands in code or at the end
behind it. -/
def Stretch (k : Kind) (s r : List Byte) : Prop := ∃ m, Paints k r plain s m ∧ (m = plain ∨ r = [])

namespace Stretch

lemma ordinary (hs : ∀ c ∈ s, Ordinary c) : Stretch .code s r := ⟨plain, .ordinary hs, .inl rfl⟩

/-- A line comment without its newline. -/
lemma lineComment (hbody : '\n'.toUInt8 ∉ body) (hr : ∀ c ∈ r.head?, c = '\n'.toUInt8) :
    Stretch .comment (bytes "//" ++ body) r := by
  refine ⟨ofLine r, .lineComment hbody, ?_⟩
  cases r with
  | nil => exact .inr rfl
  | cons c r => exact .inl (if_pos (congrArg some (hr c rfl)))

lemma blockComment (hbody : Search.FirstBefore (bytes "*/") body) :
    Stretch .comment (bytes "/*" ++ (body ++ bytes "*/")) r :=
  ⟨plain, .cons rfl (.cons rfl (.blockBody hbody)), .inl rfl⟩

lemma openBlock (hbody : ¬ bytes "*/" <:+: body) : Stretch .comment (bytes "/*" ++ body) [] :=
  ⟨block, .cons rfl (.cons (by rfl) (.openBlock hbody)), .inr rfl⟩

lemma literal (h : Literal s r) : Stretch .literal s r := by
  cases h with
  | @closed quote body _ hq hbody =>
      have hesc : quote ≠ '\\'.toUInt8 := by
        rintro rfl
        exact absurd hq (by decide)
      refine ⟨plain, ?_, .inl rfl⟩
      refine .cons (Paints.kind_quote hq) ?_
      rw [Paints.next_quote hq]
      refine (Paints.quoted hbody).append (.cons rfl ?_)
      rw [Mode.next, if_neg hesc, if_pos rfl]
      exact .nil
  | @cut quote body hq hbody =>
      refine ⟨.literal quote, .cons (Paints.kind_quote hq) ?_, .inr rfl⟩
      rw [Paints.next_quote hq]
      exact .quoted hbody
  | @cutEscape quote body hq hbody =>
      refine ⟨.escape quote, .cons (Paints.kind_quote hq) ?_, .inr rfl⟩
      rw [Paints.next_quote hq]
      refine (Paints.quoted hbody).append (.cons rfl ?_)
      rw [Mode.next, if_pos rfl]
      exact .nil

end Stretch

/-- Behind `pre` there is code, or nothing. -/
structure InCode (text pre post : List Byte) : Prop where
  text : text = pre ++ post
  stands : walk plain pre post = plain ∨ post = []

namespace InCode

lemma start (text : List Byte) : InCode text [] text := ⟨rfl, .inl rfl⟩

lemma plain (h : InCode text pre post) (hne : post ≠ []) : walk plain pre post = plain :=
  h.stands.resolve_right hne

/-- Where a piece begins and ends. -/
lemma piece (h : InCode text pre (s ++ post)) (hne : s ≠ []) (hs : Stretch k s post) :
    InCode text (pre ++ s) post := by
  rcases hs with ⟨m, hpaints, hend⟩
  refine ⟨by rw [h.text, List.append_assoc], hend.imp_left fun hm => ?_⟩
  rw [walk_append, h.plain (List.append_ne_nil_of_left_ne_nil hne _), hpaints.walk, hm]

/-- All of a piece belongs to the same. -/
lemma kinds (h : InCode text pre (s ++ post)) (hs : Stretch k s post) (hi : pre.length ≤ i)
    (hlt : i < pre.length + s.length) : (kinds text)[i]? = some k := by
  rcases hs with ⟨m, hpaints, -⟩
  have hne : s ++ post ≠ [] := by
    rintro hnil
    rw [(List.append_eq_nil_iff.mp hnil).1, List.length_nil] at hlt
    omega
  have hpre := length_paint .plain pre (s ++ post)
  rw [Lexer.kinds, h.text, paint_append, List.append_nil, h.plain hne, paint_append, List.append_nil,
    hpaints.kinds, List.getElem?_append_right (hpre ▸ hi), hpre,
    List.getElem?_append_left (by rw [List.length_replicate]; omega), List.getElem?_replicate,
    if_pos (by omega)]

end InCode

/-- A scanner that takes the bytes from one position to another as one kind: it takes all of the text,
and none of it as another kind. -/
structure Cutting (text : List Byte) (takes : ℕ → ℕ → Kind → Prop) : Prop where
  sound : ∀ {start stop k}, takes start stop k → ∀ i, start ≤ i → i < stop → (kinds text)[i]? = some k
  covers : ∀ i < text.length, ∃ start stop k, takes start stop k ∧ start ≤ i ∧ i < stop

/-- What a scanner takes as a `k` is what belongs to a `k`. -/
lemma Cutting.kinds_iff {takes : ℕ → ℕ → Kind → Prop} (h : Cutting text takes) :
    (kinds text)[i]? = some k ↔ ∃ start stop, takes start stop k ∧ start ≤ i ∧ i < stop := by
  constructor
  · intro hi
    have hlt : i < text.length := by
      have hlen := (List.getElem?_eq_some_iff.mp hi).1
      rwa [kinds, length_paint] at hlen
    rcases h.covers i hlt with ⟨start, stop, k', htakes, hstart, hstop⟩
    rw [h.sound htakes i hstart hstop, Option.some.injEq] at hi
    exact ⟨start, stop, hi ▸ htakes, hstart, hstop⟩
  · rintro ⟨start, stop, htakes, hstart, hstop⟩
    exact h.sound htakes i hstart hstop

end Lexer

end LogicCompiler
