import LogicCompiler.Library.Machines

/-!
# Running code on integers

What a list of instructions on 32-bit integers does to the registers and the stack slots.  An undefined
value is `none`: the result of an undefined division, and whatever is computed from it.

`Computes` says of a list of instructions, numbered from `k` on, which value they leave behind.
-/

namespace LLVM

/-! ## Values -/

/-- The operations on 32-bit integers that have a result of their own type. -/
def Opcode.isArithmetic : Opcode → Bool
  | Add | Sub | Mul | SDiv => true
  | _ => false

/-- Addition, subtraction and multiplication wrap; a division truncates, and is undefined by zero and
where the quotient does not fit. -/
def Opcode.apply32 : Opcode → BitVec 32 → BitVec 32 → Option (BitVec 32)
  | Add, a, b => some (a + b)
  | Sub, a, b => some (a - b)
  | Mul, a, b => some (a * b)
  | SDiv, a, b => if b = 0 ∨ a = BitVec.intMin 32 ∧ b = -1 then none else some (a.sdiv b)
  | _, _, _ => none

/-- An undefined operand makes the result undefined. -/
def Opcode.int32 (op : Opcode) (a b : Option (BitVec 32)) : Option (BitVec 32) := do
  op.apply32 (← a) (← b)

/-- The constant for a 32-bit integer. -/
def Value.int32 : Option (BitVec 32) → Value
  | some v => .constant (.int .int32 v.toInt)
  | none => .constant (.poison .int32)

/-- The integer that a constant stands for. -/
def Constant.denote : Constant → Option (BitVec 32)
  | int .int32 v => some (BitVec.ofInt 32 v)
  | _ => none

/-- The integer that a value stands for. -/
def Value.denote (regs : ℕ → Option (BitVec 32)) (v : Value) : Option (BitVec 32) :=
  v.read Constant.denote (· == .int32) regs

@[simp] lemma Value.denote_int32 (regs : ℕ → Option (BitVec 32)) (o : Option (BitVec 32)) :
    (Value.int32 o).denote regs = o := by
  cases o with
  | none => rfl
  | some v =>
      show some (BitVec.ofInt 32 v.toInt) = some v
      rw [BitVec.ofInt_toInt]

@[simp] lemma Value.type_int32 (o : Option (BitVec 32)) : (Value.int32 o).type = some .int32 := by
  cases o <;> rfl

lemma Value.isFloat_int32 {v : Value} (h : v.type = some .int32) : v.isFloat = false := by
  rw [isFloat, h]
  rfl

/-! ## The machine -/

/-- The machine on 32-bit integers leaves nothing behind but registers and slots. -/
abbrev Machine32 := Machine (BitVec 32) Unit

/-- One instruction; `none` for those that are no arithmetic on slots and registers. -/
def Machine32.exec (m : Machine32) : Instruction → Option Machine32
  | .store value (.alloca slot) =>
      some { m with mem := Function.update m.mem slot (value.denote m.regs) }
  | .load id .int32 (.alloca slot) _ => some (m.set id (m.mem slot))
  | .binary id op lhs rhs _ =>
      if op.isArithmetic then some (m.set id (op.int32 (lhs.denote m.regs) (rhs.denote m.regs)))
      else none
  | .unary id .Neg operand _ => some (m.set id ((operand.denote m.regs).map fun v => -v))
  | _ => none

/-! ## What code computes -/

/-- With `mem` in the slots, the instructions `code`, numbered from `k` on, run to their end, and `v` then
stands for `o`. -/
structure Computes (mem : ℕ → Option (BitVec 32)) (k : ℕ) (code : List Instruction) (v : Value)
    (o : Option (BitVec 32)) : Prop where
  type : v.type = some .int32
  below : v.Below (k + code.length)
  run : ∀ m : Machine32, m.mem = mem → ∃ m', m.RunsTo Machine32.exec k code m' ∧ v.denote m'.regs = o

namespace Computes

variable {mem : ℕ → Option (BitVec 32)} {k : ℕ} {code code' : List Instruction} {v l r : Value}
  {o o' a b : Option (BitVec 32)}

/-- A constant stands for the value that is computed. -/
lemma eq_of_int32 (h : Computes mem k code (.int32 a) o) : a = o := by
  rcases h.run { mem, trace := () } rfl with ⟨m, -, hm⟩
  rwa [Value.denote_int32] at hm

lemma int32 : Computes mem k [] (.int32 o) o where
  type := Value.type_int32 o
  below := by cases o <;> trivial
  run m _ := ⟨m, .refl m, Value.denote_int32 m.regs o⟩

lemma load {slot : ℕ} {name : List UInt8} :
    Computes mem k [.load k .int32 (.alloca slot) name] (.instruction k .int32) (mem slot) where
  type := rfl
  below := Nat.lt_succ_self k
  run := by
    rintro m rfl
    exact ⟨m.set k (m.mem slot), (Machine.RunsTo.refl m).set rfl, m.regs_set k _⟩

/-- The code of a negation, behind that of its operand. -/
lemma neg (name : String) (h : Computes mem k code v o) :
    Computes mem k (code ++ [.unary (k + code.length) .Neg v name])
      (.instruction (k + code.length) .int32) (o.map fun a => -a) where
  type := rfl
  below := Value.below_snoc code _ _
  run := by
    intro m hm
    rcases h.run m hm with ⟨m', hrun, rfl⟩
    exact ⟨_, hrun.set rfl, m'.regs_set _ _⟩

/-- A constant that is negated needs no code of its own. -/
lemma negated (h : Computes mem k code (.int32 a) o) :
    Computes mem k code (.int32 (o.map fun a => -a)) (o.map fun a => -a) where
  type := Value.type_int32 _
  below := by cases o <;> trivial
  run := by
    intro m hm
    rcases h.run m hm with ⟨m', hrun, -⟩
    exact ⟨m', hrun, Value.denote_int32 _ _⟩

/-- Code behind code: both values are there in the end. -/
lemma both (hl : Computes mem k code l a) (hr : Computes mem (k + code.length) code' r b)
    (m : Machine32) (hm : m.mem = mem) : ∃ m', m.RunsTo Machine32.exec k (code ++ code') m' ∧
      l.denote m'.regs = a ∧ r.denote m'.regs = b := by
  rcases hl.run m hm with ⟨m', hrun, rfl⟩
  rcases hr.run m' (hrun.mem.trans hm) with ⟨m'', hrun', rfl⟩
  exact ⟨m'', hrun.trans hrun', hl.below.read_eq _ _ hrun'.regs, rfl⟩

/-- The code of an operation, behind that of its operands. -/
lemma binary {op : Opcode} (name : String) (hop : op.isArithmetic = true)
    (hl : Computes mem k code l a) (hr : Computes mem (k + code.length) code' r b) :
    Computes mem k (code ++ code' ++ [.binary (k + (code ++ code').length) op l r name])
      (.instruction (k + (code ++ code').length) .int32) (op.int32 a b) where
  type := rfl
  below := Value.below_snoc (code ++ code') _ _
  run := by
    intro m hm
    rcases both hl hr m hm with ⟨m', hrun, rfl, rfl⟩
    exact ⟨_, hrun.set (by rw [Machine32.exec, if_pos hop]), m'.regs_set _ _⟩

/-- An operation on constants needs no code. -/
lemma folded {op : Opcode} (hl : Computes mem k code (.int32 a) o)
    (hr : Computes mem (k + code.length) code' (.int32 b) o') :
    Computes mem k (code ++ code') (.int32 (op.int32 o o')) (op.int32 o o') where
  type := Value.type_int32 _
  below := by cases op.int32 o o' <;> trivial
  run := by
    intro m hm
    rcases both hl hr m hm with ⟨m', hrun, -, -⟩
    exact ⟨m', hrun, Value.denote_int32 _ _⟩

end Computes

end LLVM
