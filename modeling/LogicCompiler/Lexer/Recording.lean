import LogicCompiler.Lexer.Relexing

/-!
# What a token records

A token records where its lexeme starts and how long it is, and the length is kept in the sixteen
bits of `t::Length`.  `recorded` is what `getText` finds behind a call: the lexeme cut to its length
modulo `2 ^ 16` (`recorded_eq`).  The same cut text is the one that is looked up as a keyword.

`nextToken_records` says for which tokens this is right: those whose lexeme has fewer than
`2 ^ 16` bytes.
-/

namespace LogicCompiler

open TokenType

namespace Lexer

variable {src w : List Byte} {n : ℕ}

/-- What `getText` gives for the token that call number `n` has returned. -/
def recorded (src : List Byte) (n : ℕ) : List Byte :=
  (afterCalls src (n + 1)).getText (tokenAt src n)

/-! ## The recorded length -/

lemma spanAt_of_eof (h : (tokenAt src n).type = Eof) : (spanAt src n).2 = [] := by
  rw [spanAt, tokenAt_eq_of_eof h]
  show (src.drop src.length).take _ = []
  rw [List.drop_length, List.take_nil]

/-- The bytes of a token are inside the source. -/
lemma length_spanAt (src : List Byte) (n : ℕ) :
    (tokenAt src n).globalOffset + (spanAt src n).2.length ≤ src.length := by
  by_cases heof : (tokenAt src n).type = Eof
  · rw [spanAt_of_eof heof, tokenAt_eq_of_eof heof]
    exact le_rfl
  · rcases nextToken_lexToken heof with ⟨hlt, hsource, htok, -, -⟩
    have hoffset : (tokenAt src n).globalOffset < src.length := by
      rw [htok, (scanned_token hlt).offset]
      exact lt_of_lt_of_eq hlt (congrArg List.length hsource)
    simp only [spanAt, List.length_take, List.length_drop]
    omega

/-- The length of a lexeme is narrowed to sixteen bits. -/
lemma size_tokenAt : (tokenAt src n).size = (spanAt src n).2.length % 2 ^ 16 := by
  by_cases heof : (tokenAt src n).type = Eof
  · rw [spanAt_of_eof heof, tokenAt_eq_of_eof heof]
    rfl
  · rcases nextToken_lexToken heof with ⟨hlt, hsource, htok, -, hcursor⟩
    have hinside := (onward_afterCalls src (n + 1)).2
    have hscan := scanned_token hlt
    rw [spanAt, List.length_take, List.length_drop, htok, hscan.offset, size_lexToken, hcursor]
    rw [hcursor] at hinside
    congr 1
    omega

/-- `getText` gives the lexeme, cut to its length modulo `2 ^ 16`. -/
lemma recorded_eq :
    recorded src n = (spanAt src n).2.take ((spanAt src n).2.length % 2 ^ 16) := by
  have hlen := length_spanAt src n
  have hmod := Nat.mod_le (spanAt src n).2.length (2 ^ 16)
  have hsource := (onward_afterCalls src (n + 1)).1
  rw [recorded, getText, hsource, size_tokenAt, if_neg (by omega), spanAt, List.take_take]
  congr 1
  rw [spanAt] at hmod
  exact (min_eq_left (hmod.trans (List.length_take_le _ _))).symm

lemma recorded_eq_iff : recorded src n = (spanAt src n).2 ↔ (spanAt src n).2.length < 2 ^ 16 := by
  rw [recorded_eq, List.take_eq_self_iff]
  constructor
  · intro hle
    exact hle.trans_lt (Nat.mod_lt _ (by decide))
  · intro hlt
    exact (Nat.mod_eq_of_lt hlt).ge

/-! ## Keywords -/

/-- The keywords stand in front of `Ident` in the enumeration. -/
def IsKeyword (t : TokenType) : Prop := t.code < Ident.code

instance : DecidablePred IsKeyword := fun t => Nat.decLt t.code Ident.code

/-- A letter or `_`, then letters, digits and `_`. -/
def IdentShaped (w : List Byte) : Prop :=
  (∃ c ∈ w.head?, isIdentStart c = true) ∧ ∀ c ∈ w, isIdentBody c = true

lemma stringMap_spelling {k : TokenType} (hk : IsKeyword k) : stringMap (bytes (ttStrmap k)) = k := by
  have htable : ∀ k ∈ stringMapCases, stringMap (bytes (ttStrmap k)) = k := by decide +kernel
  refine htable k ?_
  revert hk
  cases k <;> decide

/-- The lookup by hash finds a keyword for its spelling, and for no other text. -/
lemma stringMap_eq_iff {k : TokenType} (hk : IsKeyword k) :
    stringMap w = k ↔ w = bytes (ttStrmap k) := by
  constructor
  · intro h
    have htbd : TBD ≠ k := by
      rintro rfl
      exact absurd hk (by decide)
    unfold stringMap at h
    split at h
    · split_ifs at h with hw
      · exact h ▸ hw
      · exact absurd h htbd
    · exact absurd h htbd
  · rintro rfl
    exact stringMap_spelling hk

/-- The type of a word, by the text that its token records. -/
lemma type_of_identShaped (hw : IdentShaped (spanAt src n).2) :
    (tokenAt src n).type =
      if stringMap (recorded src n) = TBD then Ident else stringMap (recorded src n) := by
  rcases hw with ⟨⟨c, hc, hstart⟩, -⟩
  have hne : (tokenAt src n).type ≠ Eof := by
    intro heof
    rw [spanAt_of_eof heof] at hc
    cases hc
  rcases nextToken_lexToken hne with ⟨hlt, hsource, htok, hrest, -⟩
  rcases spanAt_append hne with ⟨hsplit, -⟩
  set l := (afterCalls src n).skipWhitespaceAndComments
  have hident : isIdentStart l.peek = true := by
    rcases List.head?_eq_some_iff.mp hc with ⟨v, hv⟩
    rw [peek_eq, hsplit, hv]
    exact hstart
  have htoken : l.lexToken = l.lexIdentifierOrKeyword := by
    rw [lexToken]
    exact if_pos hident
  rw [htoken] at htok hrest
  rw [hrest] at hsplit
  rw [htok, type_identifier hlt.le hsplit, recorded_eq]

/-! ## The result -/

/-- The token of call number `n` records what the call has consumed: its text is the lexeme, and a
word is a keyword exactly when it is the spelling of the keyword. -/
structure Records (src : List Byte) (n : ℕ) : Prop where
  text : recorded src n = (spanAt src n).2
  keyword : IdentShaped (spanAt src n).2 → ∀ k, IsKeyword k →
    ((tokenAt src n).type = k ↔ (spanAt src n).2 = bytes (ttStrmap k))

lemma records_of_short (hshort : (spanAt src n).2.length < 2 ^ 16) : Records src n where
  text := recorded_eq_iff.mpr hshort
  keyword := by
    intro hw k hk
    rw [type_of_identShaped hw, recorded_eq_iff.mpr hshort, ← stringMap_eq_iff hk]
    split_ifs with htbd
    · rw [htbd]
      constructor <;> rintro rfl <;> exact absurd hk (by decide)
    · rfl

lemma records_iff : Records src n ↔ (spanAt src n).2.length < 2 ^ 16 :=
  ⟨fun h => recorded_eq_iff.mp h.text, records_of_short⟩

/-- **Tokens record what was consumed**, as long as the lexeme has fewer than `2 ^ 16` bytes; the source
has fewer than `2 ^ 32`, as everywhere. -/
theorem nextToken_records (src : List Byte) (n : ℕ) :
    Records src n ↔ (spanAt src n).2.length < 2 ^ 16 := records_iff

/-- A word is one token. -/
lemma spanAt_word (hw : IdentShaped w) : (spanAt w 0).2 = w := by
  rcases hw with ⟨⟨c, hc, hstart⟩, hbody⟩
  have hfirst : isWhitespace c = false ∧ c ≠ '/'.toUInt8 := by
    constructor
    · by_contra hwhite
      revert hstart hwhite
      simp only [isWhitespace, Bool.not_eq_false, Bool.or_eq_true, beq_iff_eq]
      rintro hstart (((rfl | rfl) | rfl) | rfl) <;> exact absurd hstart (by decide)
    · rintro rfl
      exact absurd hstart (by decide)
  have hsolid : Solid (start w).rest := by
    intro d hd
    obtain rfl : d = c := Option.some.inj (hd.symm.trans hc)
    exact ⟨hfirst.1, fun h => absurd h hfirst.2⟩
  have hpeek : (start w).peek = c := by
    rcases List.head?_eq_some_iff.mp hc with ⟨v, rfl⟩
    rfl
  have hne : (tokenAt w 0).type ≠ Eof := by
    intro heof
    have hnil := skip_of_eof heof
    rw [show afterCalls w 0 = start w from rfl, skip_of_solid hsolid] at hnil
    rw [show w = [] from hnil] at hc
    cases hc
  rcases nextToken_lexToken hne with ⟨-, -, -, hrest, -⟩
  rcases spanAt_append hne with ⟨hsplit, -⟩
  rw [show afterCalls w 0 = start w from rfl, skip_of_solid hsolid] at hrest hsplit
  have hend : (afterCalls w 1).rest = [] := by
    rw [hrest, lexToken, if_pos (hpeek ▸ hstart)]
    show ((start w).advanceWhile isIdentBody).rest = []
    rw [rest_advanceWhile (by decide)]
    exact List.dropWhile_eq_nil_iff.mpr hbody
  rw [show 0 + 1 = 1 from rfl, hend, List.append_nil] at hsplit
  exact hsplit.symm

/-- `if` and `2 ^ 16` letters. -/
def longWord : List Byte := bytes "if" ++ List.replicate (2 ^ 16) 'a'.toUInt8

lemma longWord_identShaped : IdentShaped longWord := by
  have hif : ∀ c ∈ bytes "if", isIdentBody c = true := by decide
  refine ⟨⟨'i'.toUInt8, rfl, by decide⟩, ?_⟩
  intro c hc
  rcases List.mem_append.mp hc with hc | hc
  · exact hif c hc
  · rw [List.eq_of_mem_replicate hc]
    decide

/-- A word of 65538 bytes is typed as the keyword `if`. -/
theorem longWord_cut :
    (tokenAt longWord 0).type = kIf ∧ recorded longWord 0 = bytes "if" ∧ ¬ Records longWord 0 := by
  have hspan := spanAt_word longWord_identShaped
  have hlen : longWord.length = 2 + 2 ^ 16 := by
    rw [longWord, List.length_append, List.length_replicate]
    rfl
  have hcut : recorded longWord 0 = bytes "if" := by
    rw [recorded_eq, hspan, hlen, Nat.add_mod_right]
    rfl
  refine ⟨?_, hcut, ?_⟩
  · rw [type_of_identShaped (hspan.symm ▸ longWord_identShaped), hcut]
    decide +kernel
  · rw [records_iff, hspan, hlen]
    omega

end Lexer

end LogicCompiler
