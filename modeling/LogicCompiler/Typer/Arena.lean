import LogicCompiler.Common.Hashing
import LogicCompiler.Library.Blocks

/-!
# The type arena

`TypeArena` and `TypeContent` of `typer/type_def.h`.  A record of the arena is a header of three
words, its flags and its members of three words each, all in one vector of words; its two lengths
are computed from the header.  The vector grows at the end and is cut back to the beginning of a
record.

What is pushed and not cut off is read back as it was pushed (`arena_of_run`).
-/

namespace LogicCompiler

namespace Typer

/-- The unit that the arena is addressed in. -/
abbrev Word := UInt32

/-- A member of a type. -/
structure TypeMember where
  typeID : UInt32
  memberID : UInt16
  decoration : UInt8
  pad : UInt8
  initVal : UInt32
  deriving DecidableEq

/-- The three words of a member in memory. -/
def TypeMember.words (t : TypeMember) : List Word :=
  [t.typeID,
    UInt32.ofNat (t.memberID.toNat + 2 ^ 16 * t.decoration.toNat + 2 ^ 24 * t.pad.toNat), t.initVal]

/-- The member that stands there. -/
def TypeMember.ofWords (first second third : Word) : TypeMember where
  typeID := first
  memberID := UInt16.ofNat second.toNat
  decoration := UInt8.ofNat (second.toNat / 2 ^ 16)
  pad := UInt8.ofNat (second.toNat / 2 ^ 24)
  initVal := third

/-- The words in front of the flags. -/
def headerWords : ℕ := 3

/-- The words that a member takes up. -/
def memberStrideWords : ℕ := 3

/-- A `TypeContent` in the arena: the words from `this` on. -/
structure TypeContent where
  words : List Word

namespace TypeContent

/-- The id of the type. -/
def ID (c : TypeContent) : Word := c.words.getD 0 0

/-- The length of the record, in words. -/
def totalWords (c : TypeContent) : ℕ := (c.words.getD 1 0).toNat

/-- Where the members begin, in words from the start of the record. -/
def membersWord (c : TypeContent) : ℕ := (c.words.getD 2 0).toNat

/-- The number of flags. -/
def getFlagCount (c : TypeContent) : ℕ :=
  if c.membersWord > headerWords then c.membersWord - headerWords else 0

/-- The flags, in front of the members. -/
def getFlags (c : TypeContent) : List Word := (c.words.drop headerWords).take c.getFlagCount

/-- The number of members. -/
def getMemberCount (c : TypeContent) : ℕ :=
  if c.totalWords > c.membersWord then (c.totalWords - c.membersWord) / memberStrideWords else 0

/-- A member, by its index. -/
def getMember (c : TypeContent) (index : ℕ) : TypeMember :=
  let word := c.membersWord + memberStrideWords * index
  .ofWords (c.words.getD word 0) (c.words.getD (word + 1) 0) (c.words.getD (word + 2) 0)

/-- All the members. -/
def getMembers (c : TypeContent) : List TypeMember := (List.range c.getMemberCount).map c.getMember

end TypeContent

/-- Word `0` is reserved: an offset of `0` means "no payload". -/
structure TypeArena where
  raw : List Word := [0]

namespace TypeArena

/-- The record at an offset; `0` and what is behind the arena are no records. -/
def get (a : TypeArena) (wordOffset : ℕ) : Option TypeContent :=
  if wordOffset = 0 ∨ wordOffset ≥ a.raw.length then none
  else some { words := a.raw.drop wordOffset }

/-- `push`, with the sizes in `uint32_t`. -/
def push (a : TypeArena) (id : Word) (flags : List Word) (members : List TypeMember) :
    ℕ × TypeArena :=
  let offset := toUint32 a.raw.length
  let flagWords := toUint32 flags.length
  let memberWords := toUint32 (toUint32 members.length * memberStrideWords)
  let totalWords := toUint32 (headerWords + flagWords + memberWords)
  let membersWord := toUint32 (headerWords + flagWords)
  let raw := Blocks.resize 0 (toUint32 (offset + totalWords)) a.raw
  let raw := Blocks.write offset [id, UInt32.ofNat totalWords, UInt32.ofNat membersWord] raw
  let raw :=
    if flagWords > 0 then Blocks.write (offset + headerWords) (flags.take flagWords) raw else raw
  let raw :=
    if memberWords > 0 then
      Blocks.write (offset + membersWord) ((members.flatMap TypeMember.words).take memberWords) raw
    else raw
  (offset, { raw := raw })

/-- The arena is cut back to an offset. -/
def rollback (a : TypeArena) (wordOffset : ℕ) : TypeArena :=
  if wordOffset > 0 ∧ wordOffset ≤ a.raw.length then { raw := Blocks.resize 0 wordOffset a.raw }
  else a

end TypeArena

/-! ## A record in memory -/

lemma TypeMember.ofWords_words (t : TypeMember) (second : Word)
    (h : second = UInt32.ofNat (t.memberID.toNat + 2 ^ 16 * t.decoration.toNat +
      2 ^ 24 * t.pad.toNat)) : ofWords t.typeID second t.initVal = t := by
  have hid := t.memberID.toNat_lt
  have hdeco := t.decoration.toNat_lt
  have hpad := t.pad.toNat_lt
  have hsecond : second.toNat =
      t.memberID.toNat + 2 ^ 16 * t.decoration.toNat + 2 ^ 24 * t.pad.toNat := by
    rw [h, UInt32.toNat_ofNat']
    exact Nat.mod_eq_of_lt (by omega)
  rcases t with ⟨typeID, memberID, decoration, pad, initVal⟩
  dsimp only at hid hdeco hpad hsecond
  rw [ofWords, hsecond]
  congr 1
  · rw [← UInt16.toNat_inj, UInt16.toNat_ofNat']
    omega
  · rw [← UInt8.toNat_inj, UInt8.toNat_ofNat']
    omega
  · rw [← UInt8.toNat_inj, UInt8.toNat_ofNat']
    omega

/-- What is pushed. -/
structure Record where
  ID : Word
  flags : List Word
  members : List TypeMember
  deriving DecidableEq

namespace Record

variable {e : Record} {rest : List Word}

/-- Where the members of the record are going to begin. -/
def membersWord (e : Record) : ℕ := headerWords + e.flags.length

/-- The length that the record is going to have. -/
def totalWords (e : Record) : ℕ := e.membersWord + memberStrideWords * e.members.length

/-- The record in memory. -/
def words (e : Record) : List Word :=
  [e.ID, UInt32.ofNat e.totalWords, UInt32.ofNat e.membersWord] ++
    (e.flags ++ e.members.flatMap TypeMember.words)

lemma length_memberWords (members : List TypeMember) :
    (members.flatMap TypeMember.words).length = memberStrideWords * members.length := by
  induction members with
  | nil => rfl
  | cons t members ih =>
      rw [List.flatMap_cons, List.length_append, ih, List.length_cons, Nat.mul_succ, Nat.add_comm]
      rfl

lemma length_words (e : Record) : e.words.length = e.totalWords := by
  rw [words, List.length_append, List.length_append, length_memberWords, totalWords, membersWord,
    Nat.add_assoc]
  rfl

/-- The counts of the header are read back. -/
lemma header (h : e.totalWords < 2 ^ 32) :
    (TypeContent.mk (e.words ++ rest)).ID = e.ID ∧
      (TypeContent.mk (e.words ++ rest)).totalWords = e.totalWords ∧
        (TypeContent.mk (e.words ++ rest)).membersWord = e.membersWord := by
  have hle : e.membersWord ≤ e.totalWords := Nat.le_add_right _ _
  refine ⟨rfl, ?_, ?_⟩
  · show (UInt32.ofNat e.totalWords).toNat = _
    rw [UInt32.toNat_ofNat', Nat.mod_eq_of_lt h]
  · show (UInt32.ofNat e.membersWord).toNat = _
    rw [UInt32.toNat_ofNat', Nat.mod_eq_of_lt (hle.trans_lt h)]

lemma getFlagCount (h : e.totalWords < 2 ^ 32) :
    (TypeContent.mk (e.words ++ rest)).getFlagCount = e.flags.length := by
  rw [TypeContent.getFlagCount, (header h).2.2, membersWord, Nat.add_sub_cancel_left]
  split <;> omega

lemma getMemberCount (h : e.totalWords < 2 ^ 32) :
    (TypeContent.mk (e.words ++ rest)).getMemberCount = e.members.length := by
  rw [TypeContent.getMemberCount, (header h).2.1, (header h).2.2, totalWords,
    Nat.add_sub_cancel_left, Nat.mul_div_cancel_left _ (by decide)]
  rcases Nat.eq_zero_or_pos e.members.length with hnone | hsome
  · rw [hnone]
    exact if_neg (lt_irrefl _)
  · exact if_pos (Nat.lt_add_of_pos_right (Nat.mul_pos (by decide) hsome))

lemma getFlags (h : e.totalWords < 2 ^ 32) :
    (TypeContent.mk (e.words ++ rest)).getFlags = e.flags := by
  rw [TypeContent.getFlags, getFlagCount h]
  show (e.flags ++ e.members.flatMap TypeMember.words ++ rest).take e.flags.length = e.flags
  rw [List.append_assoc, List.take_left]

/-- The words of a member, within the words of the record. -/
lemma drop_member {i : ℕ} {t : TypeMember} (ht : e.members[i]? = some t) :
    ∃ rest', (e.words ++ rest).drop (e.membersWord + memberStrideWords * i) = t.words ++ rest' := by
  have hlen : i < e.members.length := (List.getElem?_eq_some_iff.mp ht).1
  have hpre : ([e.ID, UInt32.ofNat e.totalWords, UInt32.ofNat e.membersWord] ++ e.flags).length =
      e.membersWord := by
    rw [List.length_append]
    rfl
  have hmap : i < (e.members.map TypeMember.words).length := by rwa [List.length_map]
  have hget : (e.members.map TypeMember.words ++ [rest])[i]? = some t.words := by
    rw [List.getElem?_append_left hmap, List.getElem?_map, ht]
    rfl
  have hstart : Blocks.offset e.membersWord (e.members.map TypeMember.words ++ [rest]) i =
      e.membersWord + memberStrideWords * i := by
    rw [Blocks.offset_append _ hmap.le, Blocks.offset_uniform _ memberStrideWords _ hmap.le]
    simp [TypeMember.words, memberStrideWords]
  have hdrop := Blocks.drop_offset_of_getElem?
    ([e.ID, UInt32.ofNat e.totalWords, UInt32.ofNat e.membersWord] ++ e.flags) hget
  rw [hpre, hstart, List.flatten_append, List.flatten_singleton, ← List.flatMap_def,
    ← List.append_assoc, List.append_assoc _ e.flags] at hdrop
  exact ⟨_, hdrop⟩

lemma getMembers (h : e.totalWords < 2 ^ 32) :
    (TypeContent.mk (e.words ++ rest)).getMembers = e.members := by
  rw [TypeContent.getMembers, getMemberCount h]
  refine List.ext_getElem? fun i => ?_
  rw [List.getElem?_map]
  cases ht : e.members[i]? with
  | none =>
      rw [List.getElem?_eq_none (by simpa using ht)]
      rfl
  | some t =>
      have hlen := (List.getElem?_eq_some_iff.mp ht).1
      rcases drop_member ht with ⟨rest', hrest⟩
      have hword (k : ℕ) : (e.words ++ rest).getD (e.membersWord + memberStrideWords * i + k) 0 =
          (t.words ++ rest').getD k 0 := by
        rw [List.getD_eq_getElem?_getD, ← List.getElem?_drop, hrest, ← List.getD_eq_getElem?_getD]
      rw [List.getElem?_range hlen]
      show some (TypeContent.getMember _ i) = some t
      rw [TypeContent.getMember, (header h).2.2]
      have hfirst := hword 0
      rw [Nat.add_zero] at hfirst
      dsimp only
      rw [hfirst, hword 1, hword 2]
      exact congrArg some (t.ofWords_words _ rfl)

end Record

/-! ## Pushing -/

variable {a : TypeArena} {live : List (ℕ × Record)} {e : Record} {i o : ℕ}

/-- **`push` puts the words of the record behind the arena.** -/
theorem push_eq (h : a.raw.length + e.totalWords < 2 ^ 32) :
    a.push e.ID e.flags e.members = (a.raw.length, { raw := a.raw ++ e.words }) := by
  have htotal : e.totalWords =
      headerWords + e.flags.length + e.members.length * memberStrideWords := by
    rw [Nat.mul_comm]
    rfl
  have hmember : e.members.length ≤ e.members.length * memberStrideWords :=
    Nat.le_mul_of_pos_right _ (by decide)
  have hwords : (e.members.flatMap TypeMember.words).length =
      e.members.length * memberStrideWords := by rw [Record.length_memberWords, Nat.mul_comm]
  generalize hheader : [e.ID, UInt32.ofNat e.totalWords, UInt32.ofNat e.membersWord] = header
  have hlen : header.length = headerWords := by rw [← hheader]; rfl
  -- the room, and the header in it
  have hroom : Blocks.write a.raw.length header
      (Blocks.resize 0 (a.raw.length + e.totalWords) a.raw) =
        (a.raw ++ header) ++ (List.replicate e.flags.length 0 ++
          (List.replicate (e.members.length * memberStrideWords) 0 ++ [])) := by
    rw [Blocks.resize_add, htotal, Nat.add_assoc, ← List.replicate_append_replicate,
      Blocks.write_append rfl (by rw [List.length_replicate, hlen]), List.append_nil,
      List.replicate_append_replicate, List.append_assoc]
  have hflags := Blocks.write_room (0 : Word) e.flags
    (List.replicate (e.members.length * memberStrideWords) 0 ++ [])
    (show a.raw.length + headerWords = (a.raw ++ header).length by rw [List.length_append, hlen]) rfl
  have hmembers := Blocks.write_room (0 : Word) (e.members.flatMap TypeMember.words) []
    (show a.raw.length + (headerWords + e.flags.length) = (a.raw ++ header ++ e.flags).length by
      simp only [List.length_append, hlen, Nat.add_assoc]) hwords.symm
  rw [TypeArena.push, toUint32_eq (show e.members.length < 2 ^ 32 by omega),
    toUint32_eq (show e.members.length * memberStrideWords < 2 ^ 32 by omega),
    toUint32_eq (show e.flags.length < 2 ^ 32 by omega), ← htotal,
    toUint32_eq (show e.totalWords < 2 ^ 32 by omega),
    toUint32_eq (show headerWords + e.flags.length < 2 ^ 32 by omega),
    toUint32_eq (show a.raw.length < 2 ^ 32 by omega), toUint32_eq h]
  rw [show headerWords + e.flags.length = e.membersWord from rfl] at hmembers ⊢
  rw [hheader, List.take_length, ← hwords, List.take_length]
  rw [← hwords] at hroom hflags hmembers
  rw [hroom, hflags]
  simp only [List.append_assoc (a.raw ++ header) e.flags] at hmembers
  have hall := hmembers.trans (show _ = a.raw ++ e.words by
    rw [List.append_nil, Record.words, hheader]
    simp only [List.append_assoc])
  exact congrArg (fun raw => (a.raw.length, TypeArena.mk raw)) hall

/-! ## The records of the arena -/

/-- The words of the live records. -/
def blocks (live : List (ℕ × Record)) : List (List Word) := live.map fun r => r.2.words

/-- Behind the reserved word the arena holds the live records, each at its offset. -/
structure Laid (a : TypeArena) (live : List (ℕ × Record)) : Prop where
  raw : a.raw = [0] ++ (blocks live).flatten
  offset : ∀ (i o : ℕ) (e : Record), live[i]? = some (o, e) → o = Blocks.offset 1 (blocks live) i
  small : a.raw.length < 2 ^ 32

namespace Laid

lemma empty : Laid {} [] :=
  ⟨rfl, fun _ _ _ h => (nomatch h), by decide⟩

lemma block (hi : live[i]? = some (o, e)) : (blocks live)[i]? = some e.words := by
  rw [blocks, List.getElem?_map, hi]
  rfl

lemma raw_length (h : Laid a live) : a.raw.length = Blocks.offset 1 (blocks live) live.length := by
  have hend := Blocks.offset_length [(0 : Word)] (blocks live)
  rw [← h.raw, show (blocks live).length = live.length from List.length_map _] at hend
  exact hend.symm

/-- A live record begins behind the reserved word and before the end of the arena. -/
lemma offset_bounds (h : Laid a live) (hi : live[i]? = some (o, e)) :
    0 < o ∧ o < a.raw.length := by
  have hlt := (List.getElem?_eq_some_iff.mp hi).1
  have hne : e.words ≠ [] := by simp [Record.words]
  rw [h.offset i o e hi, h.raw_length]
  exact ⟨Nat.lt_of_lt_of_le Nat.zero_lt_one (Nat.le_add_right _ _),
    Blocks.offset_lt 1 (block hi) hne hlt⟩

lemma push (h : Laid a live) (hsmall : a.raw.length + e.totalWords < 2 ^ 32) :
    Laid (a.push e.ID e.flags e.members).2
      (live ++ [((a.push e.ID e.flags e.members).1, e)]) := by
  rw [push_eq hsmall]
  have hblocks : blocks (live ++ [(a.raw.length, e)]) = blocks live ++ [e.words] :=
    List.map_append
  have hlen : (blocks live).length = live.length := List.length_map _
  refine ⟨?_, fun i o e' hi => ?_, ?_⟩
  · rw [hblocks, List.flatten_append, List.flatten_singleton, ← List.append_assoc, ← h.raw]
  · rw [hblocks]
    rcases lt_trichotomy i live.length with hlt | rfl | hgt
    · rw [List.getElem?_append_left hlt] at hi
      rw [Blocks.offset_append 1 (hlen ▸ hlt.le)]
      exact h.offset i o e' hi
    · rw [List.getElem?_concat_length] at hi
      cases hi
      rw [Blocks.offset_append 1 hlen.ge, h.raw_length]
    · rw [List.getElem?_eq_none (by rw [List.length_append]; exact hgt)] at hi
      cases hi
  · rw [List.length_append, e.length_words]
    exact hsmall

/-- The records in front of an offset are those that begin before it. -/
lemma takeWhile_eq (h : Laid a live) (hi : live[i]? = some (o, e)) :
    live.takeWhile (fun r => r.1 ≠ o) = live.take i := by
  have hlt := (List.getElem?_eq_some_iff.mp hi).1
  have hbefore : ∀ r ∈ live.take i, decide (r.1 ≠ o) = true := by
    rintro ⟨o', e'⟩ hr
    rcases List.mem_iff_getElem?.mp hr with ⟨j, hj⟩
    rw [List.getElem?_take] at hj
    split at hj
    · next hji =>
        have hne : e'.words ≠ [] := by simp [Record.words]
        rw [decide_eq_true_iff, h.offset j o' e' hj, h.offset i o e hi]
        exact (Blocks.offset_lt 1 (block hj) hne hji).ne
    · cases hj
  have hsplit : live = live.take i ++ (o, e) :: live.drop (i + 1) := by
    rw [List.getElem?_eq_getElem hlt] at hi
    rw [← Option.some.inj hi, ← List.drop_eq_getElem_cons hlt, List.take_append_drop]
  rw [hsplit, List.takeWhile_append_of_pos hbefore, List.takeWhile_cons_of_neg (by simp),
    List.append_nil, ← hsplit]

lemma rollback (h : Laid a live) (hi : live[i]? = some (o, e)) :
    Laid (a.rollback o) (live.take i) := by
  have hlt := (List.getElem?_eq_some_iff.mp hi).1
  have hbounds := h.offset_bounds hi
  have hblocks : blocks (live.take i) = (blocks live).take i := List.map_take
  have hcut := Blocks.resize_offset (0 : Word) [0] (blocks live) (i := i)
    (by rw [blocks, List.length_map]; exact hlt.le)
  rw [← h.raw, List.length_singleton, ← h.offset i o e hi] at hcut
  rw [TypeArena.rollback, if_pos ⟨hbounds.1, hbounds.2.le⟩, hcut]
  refine ⟨by rw [hblocks], fun j o' e' hj => ?_, ?_⟩
  · rw [List.getElem?_take] at hj
    split at hj
    · next hji =>
        rw [hblocks, Blocks.offset_take 1 hji.le]
        exact h.offset j o' e' hj
    · cases hj
  · show ([0] ++ ((blocks live).take i).flatten).length < 2 ^ 32
    rw [← hcut, Blocks.resize_take hbounds.2.le, List.length_take]
    exact (Nat.min_le_right _ _).trans_lt h.small

/-- **A live record is read back at its offset.** -/
lemma get (h : Laid a live) (hi : live[i]? = some (o, e)) :
    ∃ c, a.get o = some c ∧ c.ID = e.ID ∧ c.getFlags = e.flags ∧ c.getMembers = e.members := by
  have hbounds := h.offset_bounds hi
  have hread := Blocks.drop_offset_of_getElem? [(0 : Word)] (block hi)
  rw [← h.raw, List.length_singleton, ← h.offset i o e hi] at hread
  have hsmall : e.totalWords < 2 ^ 32 := by
    have hdrop := congrArg List.length hread
    rw [List.length_drop, List.length_append, e.length_words] at hdrop
    have := h.small
    omega
  refine ⟨{ words := a.raw.drop o }, ?_, ?_⟩
  · rw [TypeArena.get, if_neg]
    omega
  · rw [hread]
    exact ⟨(Record.header hsmall).1, Record.getFlags hsmall, Record.getMembers hsmall⟩

end Laid

/-! ## Sequences of calls -/

/-- The calls that change the arena. -/
inductive Call
  | push (e : Record)
  | rollback (wordOffset : ℕ)

/-- A call that may be made: there is room for the record; the offset is that of a live one. -/
def Call.Allowed (a : TypeArena) (live : List (ℕ × Record)) : Call → Prop
  | push e => a.raw.length + e.totalWords < 2 ^ 32
  | rollback wordOffset => wordOffset ∈ live.map Prod.fst

instance (a : TypeArena) (live : List (ℕ × Record)) : ∀ c : Call, Decidable (c.Allowed a live)
  | .push e => inferInstanceAs (Decidable (a.raw.length + e.totalWords < 2 ^ 32))
  | .rollback wordOffset => inferInstanceAs (Decidable (wordOffset ∈ live.map Prod.fst))

/-- The arena behind a call, and the live records with the offsets that `push` has returned. -/
def Call.run (s : TypeArena × List (ℕ × Record)) : Call → TypeArena × List (ℕ × Record)
  | push e =>
      let pushed := s.1.push e.ID e.flags e.members
      (pushed.2, s.2 ++ [(pushed.1, e)])
  | rollback wordOffset => (s.1.rollback wordOffset, s.2.takeWhile fun r => r.1 ≠ wordOffset)

/-- The states that sequences of such calls lead to. -/
inductive Reachable : TypeArena × List (ℕ × Record) → Prop
  | start : Reachable ({}, [])
  | call {s : TypeArena × List (ℕ × Record)} {c : Call} (h : Reachable s)
      (hc : c.Allowed s.1 s.2) : Reachable (c.run s)

lemma Laid.call {c : Call} (h : Laid a live) (hc : c.Allowed a live) :
    Laid (c.run (a, live)).1 (c.run (a, live)).2 := by
  cases c with
  | push e => exact h.push hc
  | rollback wordOffset =>
      rcases List.mem_map.mp hc with ⟨⟨o, e⟩, hmem, rfl⟩
      rcases List.mem_iff_getElem?.mp hmem with ⟨i, hi⟩
      show Laid (a.rollback o) (live.takeWhile fun r => r.1 ≠ o)
      rw [h.takeWhile_eq hi]
      exact h.rollback hi

lemma Reachable.laid {s : TypeArena × List (ℕ × Record)} (h : Reachable s) : Laid s.1 s.2 := by
  induction h with
  | start => exact .empty
  | call _ hc ih => exact ih.call hc

/-- **The arena is a stack of records.**  What is pushed and not cut off is read back at the offset
that `push` has returned for it, and `push` returns neither `0` nor the offset of a live record. -/
theorem arena_of_run {s : TypeArena × List (ℕ × Record)} (h : Reachable s) :
    (∀ r ∈ s.2, ∃ c, s.1.get r.1 = some c ∧ c.ID = r.2.ID ∧ c.getFlags = r.2.flags ∧
      c.getMembers = r.2.members) ∧
    (∀ e : Record, s.1.raw.length + e.totalWords < 2 ^ 32 →
      (s.1.push e.ID e.flags e.members).1 ≠ 0 ∧
        (s.1.push e.ID e.flags e.members).1 ∉ s.2.map Prod.fst) ∧
    s.1.get 0 = none ∧ s.1.get s.1.raw.length = none := by
  have hlaid := h.laid
  refine ⟨?_, fun e hsmall => ?_, if_pos (.inl rfl), if_pos (.inr le_rfl)⟩
  · rintro ⟨o, e⟩ hmem
    rcases List.mem_iff_getElem?.mp hmem with ⟨i, hi⟩
    exact hlaid.get hi
  · rw [push_eq hsmall]
    constructor
    · show s.1.raw.length ≠ 0
      rw [hlaid.raw, List.length_append, List.length_singleton]
      omega
    · intro hmem
      rcases List.mem_map.mp hmem with ⟨⟨o, e'⟩, hr, heq⟩
      rcases List.mem_iff_getElem?.mp hr with ⟨i, hi⟩
      exact (hlaid.offset_bounds hi).2.ne heq

/-- A member with its method flag, and a record without flags and members in the place of one that
was cut off. -/
theorem arena_of_sample :
    let first : Record := ⟨32, [7, 8], [⟨5, 3, 64, 0, 9⟩]⟩
    let second : Record := ⟨33, [], []⟩
    let s := [.push first, .push second, .rollback 9, .push second].foldl Call.run ({}, [])
    s.2 = [(1, first), (9, second)] ∧
      ∀ r ∈ s.2, ∃ c, s.1.get r.1 = some c ∧ c.ID = r.2.ID ∧ c.getFlags = r.2.flags ∧
        c.getMembers = r.2.members := by
  intro first second s
  have hreach : Reachable s :=
    (((Reachable.start.call (c := .push first) (by decide)).call (c := .push second)
      (by decide)).call (c := .rollback 9) (by decide)).call (c := .push second) (by decide)
  exact ⟨by decide, (arena_of_run hreach).1⟩

end Typer

end LogicCompiler
