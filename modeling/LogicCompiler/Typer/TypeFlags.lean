import LogicCompiler.Common.Hashing

/-!
# The flags of a type

`typer/typeflags.h`: the flag codes with the widths of their data, and the reader `getData`.  A flag
lies in a buffer of words, its code in the upper half of its first word and its data in the lower half
and the words behind it.  The reader asserts that the buffer is long enough, in each width branch in
words of its own; a read outside the buffer is an outcome of the model beside the failed assertion.

For a flag of more than one word the assertion only asks for two words in the whole buffer, wherever
the flag begins (`assertion_covers_iff`).
-/

namespace LogicCompiler

namespace Typer

/-- `TypeFlagCode`; the trailing `count` is the number of codes. -/
inductive TypeFlagCode where
  | stop | sent | exec_time
  | mem_alloc | mem_space | mem_alloc_cap | mem_alloc_size | mem_space_cap | mem_space_size
  | mem_page_align | mem_page_fill | mem_access_in | mem_access_out | mem_copiable | mem_movable
  | mem_revivable
  | has_methods_c | has_methods_r | has_methods_st | has_methods_stc
  | has_members_c | has_members_r | has_members_st | has_members_stc
  deriving DecidableEq, Repr

namespace TypeFlagCode

/-- `bitLen` in the entry of `makeTypeFlagInfo`. -/
def bitLen : TypeFlagCode → ℕ
  | stop | sent => 0
  | exec_time => 2
  | mem_alloc => 1
  | mem_space => 2
  | mem_alloc_cap | mem_alloc_size | mem_space_cap | mem_space_size => 48
  | mem_page_align | mem_page_fill => 2
  | mem_access_in | mem_access_out => 4
  | mem_copiable | mem_movable | mem_revivable => 1
  | has_methods_c | has_methods_r | has_methods_st | has_methods_stc => 1
  | has_members_c | has_members_r | has_members_st | has_members_stc => 1

/-- Length in words, includes the code. -/
def wordLen (code : TypeFlagCode) : ℕ := (code.bitLen + 16 + 31) / 32

end TypeFlagCode

/-- What the instantiations of `getData` return: a half word, a number, a copy of the words. -/
inductive FlagData where
  | half (value : UInt16)
  | number (value : UInt64)
  | words (value : List UInt32)
  deriving DecidableEq

/-- How a call of `getData` ends other than by returning. -/
inductive FlagFault where
  | assertion
  | outOfBounds
  deriving DecidableEq

/-- `buffer[index]`. -/
def readWord (buffer : List UInt32) (index : UInt32) : Except FlagFault UInt32 :=
  match buffer[index.toNat]? with
  | some word => .ok word
  | none => .error .outOfBounds

/-- `DBAssert`. -/
def dbAssert (expr : Prop) [Decidable expr] : Except FlagFault Unit :=
  if expr then .ok () else .error .assertion

/-- `TypeFlagDeclImpl::getData`, the three width branches. -/
def getData (code : TypeFlagCode) (buffer : List UInt32) (index : UInt32) :
    Except FlagFault FlagData :=
  if code.bitLen ≤ 16 then do
    let word ← readWord buffer index
    return .half (word &&& 0xFFFF).toUInt16
  else if code.bitLen ≤ 48 then do
    dbAssert (buffer.length > 1)
    let word ← readWord buffer index
    let next ← readWord buffer (index + 1)
    return .number ((word &&& 0xFFFF).toUInt64 <<< 32 ||| next.toUInt64)
  else do
    dbAssert ((code.wordLen.toUInt32 + index).toNat ≤ buffer.length)
    return .words ((buffer.drop index.toNat).take code.wordLen)

/-- The assertion covers the reads: when it passes, and the flag begins in the buffer, all words of
the flag are in the buffer. -/
def AssertionCovers (code : TypeFlagCode) (buffer : List UInt32) (index : UInt32) : Prop :=
  getData code buffer index ≠ .error .assertion → index.toNat < buffer.length →
    ∀ k < code.wordLen, index.toNat + k < buffer.length

variable {code : TypeFlagCode} {buffer : List UInt32} {index : UInt32}

/-- There are flags of one word and flags of two. -/
lemma bitLen_cases (code : TypeFlagCode) :
    code.bitLen ≤ 16 ∧ code.wordLen = 1 ∨ code.bitLen = 48 ∧ code.wordLen = 2 := by
  cases code <;> decide

lemma readWord_ne_assertion : readWord buffer index ≠ .error .assertion := by
  rw [readWord]
  split <;> simp

/-- The one assertion that is ever evaluated. -/
lemma getData_assertion (hlen : code.bitLen = 48) :
    getData code buffer index = .error .assertion ↔ ¬ buffer.length > 1 := by
  rw [getData, if_neg (by omega), if_pos (by omega), dbAssert]
  by_cases hbuffer : buffer.length > 1
  · simp only [hbuffer, not_true_eq_false, iff_false]
    cases hword : readWord buffer index with
    | error e =>
        rintro ⟨⟩
        exact readWord_ne_assertion hword
    | ok word =>
        cases hnext : readWord buffer (index + 1) with
        | error e =>
            intro herror
            have he : Except.error e = (Except.error .assertion : Except FlagFault FlagData) := by
              simpa [hnext, bind, Except.bind] using herror
            cases he
            exact readWord_ne_assertion hnext
        | ok next => simp [bind, Except.bind, pure, Except.pure]
  · simp only [hbuffer, not_false_eq_true, iff_true]
    rfl

/-- **When the assertion covers the reads**: always for a flag of one word; for a flag of two words
unless it begins with the last word of a buffer of several. -/
theorem assertion_covers_iff (code : TypeFlagCode) (buffer : List UInt32) (index : UInt32) :
    AssertionCovers code buffer index ↔
      (code.bitLen = 48 → buffer.length > 1 → index.toNat + 1 ≠ buffer.length) := by
  rw [AssertionCovers]
  rcases bitLen_cases code with ⟨hlen, hwords⟩ | ⟨hlen, hwords⟩
  · refine ⟨fun _ h48 => absurd hlen (by omega), fun _ _ hindex k hk => ?_⟩
    omega
  · rw [Ne, getData_assertion hlen, not_not, hwords]
    constructor
    · intro hcovers _ hbuffer hlast
      have hsecond := hcovers hbuffer (by omega) 1 (by decide)
      omega
    · intro hnot hbuffer hindex k hk
      have hinside := hnot hlen hbuffer
      omega

/-- A capacity whose second word is missing. -/
theorem not_assertion_covers_sample :
    ¬ AssertionCovers .mem_alloc_cap [0, 0x00050000] 1 ∧
      getData .mem_alloc_cap [0, 0x00050000] 1 = .error .outOfBounds := by
  refine ⟨fun hcovers => ?_, by decide⟩
  exact absurd (hcovers (by decide) (by decide) 1 (by decide)) (by decide)

/-- Where the words of the flag are in the buffer, and the assertion passes, a value is returned. -/
theorem getData_ok (hcovers : AssertionCovers code buffer index)
    (hpass : getData code buffer index ≠ .error .assertion) (hindex : index.toNat < buffer.length)
    (hfit : buffer.length < 2 ^ 32) : ∃ data, getData code buffer index = .ok data := by
  have hinside := hcovers hpass hindex
  have hread {i : UInt32} (hi : i.toNat < buffer.length) :
      readWord buffer i = .ok buffer[i.toNat] := by
    rw [readWord, List.getElem?_eq_getElem hi]
  rcases bitLen_cases code with ⟨hlen, hwords⟩ | ⟨hlen, hwords⟩
  · exact ⟨_, by rw [getData, if_pos hlen, hread hindex]; rfl⟩
  · have hbuffer : buffer.length > 1 := by
      by_contra hshort
      exact hpass ((getData_assertion hlen).mpr hshort)
    have hsecond := hinside 1 (by omega)
    have hnext : (index + 1).toNat = index.toNat + 1 := by
      rw [UInt32.toNat_add]
      exact Nat.mod_eq_of_lt (hsecond.trans hfit)
    rw [getData, if_neg (by omega), if_pos (by omega), dbAssert, if_pos hbuffer, hread hindex,
      hread (hnext ▸ hsecond)]
    exact ⟨_, rfl⟩

end Typer

end LogicCompiler
