import LogicCompiler.Common.Hashing
import LogicCompiler.Library.Blocks

/-!
# The type list

`TypeList` of `typer/type_def.h`: the types in a vector, indexed by their `TypeID`.  It begins with
the builtin primitives, grows by one entry for a user-defined type, and is cut back to a number of
entries that keeps the primitives.

Along every sequence of calls the entry at index `i` has the ID `i`, and the primitives stay where they
are.  The IDs from `USER_BASE` on are declared to be those of the user-defined types, but the first of
them gets the index behind the primitives (`typeIDs_of_run`).
-/

namespace LogicCompiler

namespace Typer

/-- `reserved::USER_BASE`. -/
def userBase : ℕ := 0x20

/-- `reserved::SENTINEL`. -/
def sentinel : ℕ := 0xFFFF0000

/-- `Atomic`; the trailing `__count` is `Atomic.count` below. -/
inductive Atomic where
  | void_type | bool_type | byte_type
  | u8_type | u16_type | u32_type | u64_type
  | i8_type | i16_type | i32_type | i64_type
  | f32_type | f64_type
  | first_type
  deriving DecidableEq, Repr

namespace Atomic

/-- The number of the atomic types. -/
def count : ℕ := 14

/-- `typeSize` and `alignment` of a primitive. -/
def sizeAndAlignment : Atomic → ℕ × ℕ
  | void_type => (0, 1)
  | bool_type | byte_type | u8_type | i8_type => (1, 1)
  | u16_type | i16_type => (2, 2)
  | u32_type | i32_type | f32_type | first_type => (4, 4)
  | u64_type | i64_type | f64_type => (8, 8)

end Atomic

/-- The entry of a type in the list. -/
structure TypeLean where
  ID : ℕ := 0
  arenaOffset : ℕ := 0
  typeSize : ℕ := 0
  kind : ℕ := 0
  alignment : ℕ := 0
  deriving DecidableEq, Inhabited

/-- `make_atomic_typelean`. -/
def makeAtomicTypelean (kind : Atomic) : TypeLean where
  ID := kind.ctorIdx
  kind := kind.ctorIdx
  typeSize := kind.sizeAndAlignment.1
  alignment := kind.sizeAndAlignment.2

/-- `ATOMIC_TYPELEANS`. -/
def atomicTypeleans : List TypeLean :=
  (List.range Atomic.count).map fun i => makeAtomicTypelean (Atomic.ofNat i)

/-- `TypeList`, as its constructor leaves it. -/
structure TypeList where
  raw : List TypeLean := atomicTypeleans
  deriving DecidableEq

namespace TypeList

/-- `push`: the entry and the ID it gets. -/
def push (l : TypeList) (lean : TypeLean) : ℕ × TypeList :=
  let id := toUint32 l.raw.length
  (id, { raw := l.raw ++ [{ lean with ID := id }] })

/-- The list is cut back, but never into the atomic types. -/
def rollback (l : TypeList) (count : ℕ) : TypeList :=
  if count ≥ Atomic.count ∧ count ≤ l.raw.length then { raw := Blocks.resize default count l.raw }
  else l

/-- The calls that change the list. -/
inductive Call
  | push (lean : TypeLean)
  | rollback (count : ℕ)

/-- The list behind a call, and the ID that `push` returns. -/
def Call.run (l : TypeList) : Call → TypeList × Option ℕ
  | push lean => ((l.push lean).2, some (l.push lean).1)
  | rollback count => (l.rollback count, none)

/-- The list behind a sequence of calls, and the IDs returned. -/
def runCalls (l : TypeList) : List Call → TypeList × List ℕ
  | [] => (l, [])
  | call :: calls =>
      let (next, id) := call.run l
      let (last, ids) := runCalls next calls
      (last, id.toList ++ ids)

/-- The indices of the list fit a `TypeID` all along the sequence of calls. -/
def StaysSmall (l : TypeList) : List Call → Prop
  | [] => l.raw.length ≤ 2 ^ 32
  | call :: calls => l.raw.length ≤ 2 ^ 32 ∧ StaysSmall (call.run l).1 calls

/-! ## The entries -/

/-- The entry at index `i` has the ID `i`. -/
def Dense (l : TypeList) : Prop := ∀ (i : ℕ) (lean : TypeLean), l.raw[i]? = some lean → lean.ID = i

/-- The primitives are at their indices, and are what they were. -/
def Builtin (l : TypeList) : Prop := l.raw.take Atomic.count = atomicTypeleans

/-- The ID lies where user-defined types belong. -/
def UserRange (id : ℕ) : Prop := userBase ≤ id ∧ id < sentinel

/-- What the IDs promise behind a sequence of calls. -/
def Identified (calls : List Call) : Prop :=
  Dense (runCalls {} calls).1 ∧ Builtin (runCalls {} calls).1 ∧
    ∀ id ∈ (runCalls {} calls).2, UserRange id

variable {l : TypeList} {lean : TypeLean} {calls : List Call}

lemma dense_start : Dense {} := by
  intro i lean hi
  have hlt : i < Atomic.count := (List.getElem?_eq_some_iff.mp hi).1
  have table : ∀ i < Atomic.count, ∀ lean ∈ atomicTypeleans[i]?, lean.ID = i := by decide
  exact table i hlt lean hi

lemma builtin_start : Builtin {} := rfl

lemma Builtin.le_length (h : Builtin l) : Atomic.count ≤ l.raw.length := by
  have hlen := congrArg List.length h
  rw [List.length_take] at hlen
  exact hlen.symm.trans_le (Nat.min_le_right _ _)

lemma rollback_cases (l : TypeList) (count : ℕ) :
    l.rollback count = l ∨
      Atomic.count ≤ count ∧ l.rollback count = { raw := l.raw.take count } := by
  rw [rollback]
  split
  · next h => exact .inr ⟨h.1, by rw [Blocks.resize_take h.2]⟩
  · exact .inl rfl

lemma Dense.push (h : Dense l) (hsmall : l.raw.length < 2 ^ 32) : Dense (l.push lean).2 := by
  intro i entry hi
  rcases lt_trichotomy i l.raw.length with hlt | rfl | hgt
  · exact h i entry (by rwa [TypeList.push, List.getElem?_append_left hlt] at hi)
  · rw [TypeList.push, List.getElem?_concat_length] at hi
    cases hi
    exact toUint32_eq hsmall
  · rw [TypeList.push, List.getElem?_eq_none (by rw [List.length_append]; exact hgt)] at hi
    cases hi

lemma Dense.rollback (h : Dense l) (count : ℕ) : Dense (l.rollback count) := by
  rcases rollback_cases l count with heq | ⟨-, heq⟩
  · rwa [heq]
  · rw [heq]
    intro i entry hi
    rw [List.getElem?_take] at hi
    split at hi
    · exact h i entry hi
    · cases hi

lemma Builtin.push (h : Builtin l) : Builtin (l.push lean).2 := by
  rw [Builtin, TypeList.push, List.take_append_of_le_length h.le_length]
  exact h

lemma Builtin.rollback (h : Builtin l) (count : ℕ) : Builtin (l.rollback count) := by
  rcases rollback_cases l count with heq | ⟨hcount, heq⟩
  · rwa [heq]
  · rw [heq, Builtin, List.take_take, Nat.min_eq_left hcount]
    exact h

/-- One call keeps both. -/
lemma call_run {call : Call} (h : Dense l ∧ Builtin l)
    (hsmall : (call.run l).1.raw.length ≤ 2 ^ 32) : Dense (call.run l).1 ∧ Builtin (call.run l).1 := by
  cases call with
  | push lean =>
      have hlt : l.raw.length < 2 ^ 32 := by
        have hlen : (l.push lean).2.raw.length = l.raw.length + 1 := by simp [TypeList.push]
        exact Nat.lt_of_succ_le (hlen.symm.trans_le hsmall)
      exact ⟨h.1.push hlt, h.2.push⟩
  | rollback count => exact ⟨h.1.rollback count, h.2.rollback count⟩

lemma StaysSmall.le (h : StaysSmall l calls) : l.raw.length ≤ 2 ^ 32 := by
  cases calls with
  | nil => exact h
  | cons call calls => exact h.1

/-- Every sequence of calls keeps both. -/
lemma dense_runCalls (h : Dense l ∧ Builtin l) (hsmall : StaysSmall l calls) :
    Dense (runCalls l calls).1 ∧ Builtin (runCalls l calls).1 := by
  induction calls generalizing l with
  | nil => exact h
  | cons call calls ih => exact ih (call_run h hsmall.2.le) hsmall.2

/-! ## The IDs returned -/

lemma rollback_start (count : ℕ) : ({} : TypeList).rollback count = {} := by
  rcases rollback_cases {} count with heq | ⟨hcount, heq⟩
  · exact heq
  · rw [heq, List.take_of_length_le]
    exact hcount

/-- As long as nothing is pushed the list is the one that was constructed. -/
lemma runCalls_start (h : ∀ lean, Call.push lean ∉ calls) : runCalls {} calls = ({}, []) := by
  induction calls with
  | nil => rfl
  | cons call calls ih =>
      have hcalls := ih fun lean hmem => h lean (List.mem_cons_of_mem _ hmem)
      cases call with
      | push lean => exact absurd List.mem_cons_self (h lean)
      | rollback count => simp [runCalls, Call.run, rollback_start, hcalls]

/-- The first type that is pushed gets the index behind the primitives. -/
lemma count_mem_runCalls (h : Call.push lean ∈ calls) : Atomic.count ∈ (runCalls {} calls).2 := by
  induction calls with
  | nil => exact absurd h List.not_mem_nil
  | cons call calls ih =>
      cases call with
      | push first => exact List.mem_append_left _ (List.mem_singleton.mpr rfl)
      | rollback count =>
          have hrest : Call.push lean ∈ calls := by simpa using h
          simpa [runCalls, Call.run, rollback_start] using ih hrest

/-- **The IDs of types.**  Along every sequence of calls the indices are the IDs and the primitives
stay in place, and a push returns an ID of the user range exactly if the list has reached that range.
With this every ID returned is in the user range only where nothing is pushed at all. -/
theorem typeIDs_of_run (calls : List Call) :
    (StaysSmall {} calls → Dense (runCalls {} calls).1 ∧ Builtin (runCalls {} calls).1) ∧
      (∀ (l : TypeList) (lean : TypeLean), l.raw.length < 2 ^ 32 →
        (UserRange (l.push lean).1 ↔ userBase ≤ l.raw.length ∧ l.raw.length < sentinel)) ∧
      (Identified calls ↔ ∀ lean, Call.push lean ∉ calls) := by
  refine ⟨dense_runCalls ⟨dense_start, builtin_start⟩, fun l lean hsmall => ?_,
    fun h lean hmem => ?_, fun h => ?_⟩
  · rw [UserRange, TypeList.push, toUint32_eq hsmall]
  · exact absurd (h.2.2 _ (count_mem_runCalls hmem)).1 (by decide)
  · rw [Identified, runCalls_start h]
    exact ⟨dense_start, builtin_start, nofun⟩

/-- The first type gets the ID 14. -/
theorem not_identified_sample : ¬ Identified [.push default] :=
  fun h => absurd (h.2.2 14 (by decide)).1 (by decide)

end TypeList

end Typer

end LogicCompiler
