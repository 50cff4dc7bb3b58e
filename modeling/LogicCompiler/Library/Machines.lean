import LogicCompiler.Library.Builder
import Mathlib.Logic.Function.Basic

/-!
# Machines with registers and stack slots

What the values are and what a single instruction does is left open: a machine is over the type `α` of its
values and the type `τ` of whatever else a run leaves behind, and an execution is a function of the machine
and one instruction.

`RunsTo` says of a list of instructions, numbered from `k` on, that it leads from one machine to another and
leaves the slots and the older registers as they are.  Its rules put such lists together, for any generator
that numbers its instructions in order, and any value below `k` still stands for what it stood for.
-/

namespace LLVM

variable {α τ : Type}

/-! ## Values -/

/-- What a value stands for, where `const` is what constants stand for and `held` the types that registers
are read at. -/
def Value.read (const : Constant → Option α) (held : IRType → Bool) (regs : ℕ → Option α) :
    Value → Option α
  | constant c => const c
  | instruction id type => bif held type then regs id else none
  | _ => none

/-- Any instruction that the value is the result of has a number below `k`. -/
def Value.Below (k : ℕ) : Value → Prop
  | instruction id _ => id < k
  | _ => True

lemma Value.Below.mono {k l : ℕ} {v : Value} (h : v.Below k) (hkl : k ≤ l) : v.Below l := by
  cases v with
  | instruction id type => exact Nat.lt_of_lt_of_le h hkl
  | constant | globalVar | function | alloca => trivial

/-- The result of the instruction behind some code. -/
lemma Value.below_snoc {k : ℕ} (code : List Instruction) (i : Instruction) (type : IRType) :
    (instruction (k + code.length) type).Below (k + (code ++ [i]).length) := by
  rw [List.length_append, ← Nat.add_assoc]
  exact Nat.lt_succ_self _

/-- Only the registers below `k` are read. -/
lemma Value.Below.read_eq {k : ℕ} {v : Value} {regs regs' : ℕ → Option α} (h : v.Below k)
    (const : Constant → Option α) (held : IRType → Bool) (hregs : ∀ j < k, regs' j = regs j) :
    v.read const held regs' = v.read const held regs := by
  cases v with
  | instruction id type => rw [read, read, hregs id h]
  | constant | globalVar | function | alloca => rfl

/-! ## Machines -/

/-- The results of the instructions, what the stack slots hold, and what else a run leaves behind. -/
structure Machine (α τ : Type) where
  regs : ℕ → Option α := fun _ => none
  mem : ℕ → Option α := fun _ => none
  trace : τ

namespace Machine

/-- A result is written into its register. -/
def set (m : Machine α τ) (id : ℕ) (v : Option α) : Machine α τ :=
  { m with regs := Function.update m.regs id v }

@[simp] lemma mem_set (m : Machine α τ) (id : ℕ) (v : Option α) : (m.set id v).mem = m.mem := rfl

@[simp] lemma trace_set (m : Machine α τ) (id : ℕ) (v : Option α) : (m.set id v).trace = m.trace :=
  rfl

@[simp] lemma regs_set (m : Machine α τ) (id : ℕ) (v : Option α) : (m.set id v).regs id = v :=
  Function.update_self ..

lemma regs_set_of_ne {id j : ℕ} (m : Machine α τ) (v : Option α) (h : j ≠ id) :
    (m.set id v).regs j = m.regs j := Function.update_of_ne h ..

variable {exec : Machine α τ → Instruction → Option (Machine α τ)}
  {m m' m'' : Machine α τ} {code code' : List Instruction} {i : Instruction} {k : ℕ} {v : Option α}

/-- The instructions one after the other. -/
def run (exec : Machine α τ → Instruction → Option (Machine α τ)) (m : Machine α τ)
    (code : List Instruction) : Option (Machine α τ) := code.foldlM exec m

lemma run_append (h : m.run exec code = some m') (h' : m'.run exec code' = some m'') :
    m.run exec (code ++ code') = some m'' := by
  rw [run, List.foldlM_append]
  show (m.run exec code).bind _ = _
  rw [h]
  exact h'

lemma run_snoc (h : m.run exec code = some m') (h' : exec m' i = some m'') :
    m.run exec (code ++ [i]) = some m'' := by
  refine run_append h ?_
  show (exec m' i).bind _ = _
  rw [h']
  rfl

/-- The instructions `code`, numbered from `k` on, lead from `m` to `m'`; they leave the slots and the older
registers as they are. -/
structure RunsTo (exec : Machine α τ → Instruction → Option (Machine α τ)) (k : ℕ)
    (code : List Instruction) (m m' : Machine α τ) : Prop where
  run : m.run exec code = some m'
  mem : m'.mem = m.mem
  regs : ∀ j < k, m'.regs j = m.regs j

namespace RunsTo

lemma refl (m : Machine α τ) : RunsTo exec k [] m m := ⟨rfl, rfl, fun _ _ => rfl⟩

/-- Code behind code. -/
lemma trans (h : RunsTo exec k code m m') (h' : RunsTo exec (k + code.length) code' m' m'') :
    RunsTo exec k (code ++ code') m m'' where
  run := run_append h.run h'.run
  mem := h'.mem.trans h.mem
  regs j hj := (h'.regs j (Nat.lt_add_right _ hj)).trans (h.regs j hj)

/-- An instruction behind the code, which writes its result. -/
lemma set (h : RunsTo exec k code m m') (hi : exec m' i = some (m'.set (k + code.length) v)) :
    RunsTo exec k (code ++ [i]) m (m'.set (k + code.length) v) where
  run := run_snoc h.run hi
  mem := h.mem
  regs j hj := (m'.regs_set_of_ne v (Nat.ne_of_lt (Nat.lt_add_right _ hj))).trans (h.regs j hj)

end RunsTo

end Machine

end LLVM
