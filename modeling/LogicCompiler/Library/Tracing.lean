import LogicCompiler.Library.Execution
import LogicCompiler.Library.Graphs
import Mathlib.Logic.Relation

/-!
# Running graphs that call

Running a control-flow graph over integers and truth values.  Functions that are called are known by what
they return, which may depend on the calls made before; what a run does is the trace of its calls and, at
the end, the value it returns.

A stack slot is there as soon as its function runs, so that `alloca`s are left out of what is executed
(`body`).  With them left out, a module only ever grows behind what it has (`Onto`), and what is `ahead` of
a point in it is what has been put behind that point.
-/

namespace LLVM

/-! ## Values -/

/-- A value at run time. -/
inductive Word where
  | int32 (v : BitVec 32)
  | int1 (v : Bool)
  deriving DecidableEq, Repr

/-- The types of such values. -/
def IRType.IsWord (type : IRType) : Prop := type = .int32 ∨ type = .int1

lemma IRType.IsWord.ne_float {type : IRType} (h : type.IsWord) : type ≠ .float := by
  rcases h with rfl | rfl <;> decide

/-- The comparisons of signed integers. -/
def Opcode.compare32 : Opcode → BitVec 32 → BitVec 32 → Option Bool
  | ICmpEQ, a, b => some (a == b)
  | ICmpNE, a, b => some (a != b)
  | ICmpSLT, a, b => some (a.slt b)
  | ICmpSLE, a, b => some (a.sle b)
  | ICmpSGT, a, b => some (b.slt a)
  | ICmpSGE, a, b => some (b.sle a)
  | _, _, _ => none

/-- A binary operation on integers, where it is defined. -/
def Opcode.word (op : Opcode) : Word → Word → Option Word
  | .int32 a, .int32 b => (op.apply32 a b).map .int32 <|> (op.compare32 a b).map .int1
  | _, _ => none

/-- `Not` is the complement of each bit. -/
def Opcode.word1 : Opcode → Word → Option Word
  | Neg, .int32 a => some (.int32 (-a))
  | Not, .int32 a => some (.int32 (~~~a))
  | Not, .int1 a => some (.int1 !a)
  | _, _ => none

/-- What a constant stands for. -/
def Constant.word : Constant → Option Word
  | int .int32 v => some (.int32 (BitVec.ofInt 32 v))
  | int .int1 v => some (.int1 (v ≠ 0))
  | _ => none

/-- What a value stands for. -/
def Value.word (regs : ℕ → Option Word) (v : Value) : Option Word :=
  v.read Constant.word (fun _ => true) regs

lemma Value.isFloat_instruction {id : ℕ} {type : IRType} (h : type ≠ .float) :
    (Value.instruction id type).isFloat = false := by
  simp [isFloat, Value.type, h]

/-! ## Straight-line code -/

/-- The calls that have been made, the last one first. -/
abbrev Trace := List FunctionId

/-- What a call returns, at the end of a trace. -/
abbrev World := Trace → Word

/-- Something that makes calls and has a value, unless it is undefined. -/
abbrev Effect := StateT Trace Option

/-- Registers, stack slots and the calls made. -/
abbrev State := Machine Word Trace

namespace State

/-- A call has been made. -/
def called (σ : State) (f : FunctionId) : State := { σ with trace := f :: σ.trace }

variable (world : World)

/-- One instruction that ends no block; `none` where it is undefined. -/
def exec (σ : State) : Instruction → Option State
  | .store value (.alloca slot) => do
      let w ← value.word σ.regs
      pure { σ with mem := Function.update σ.mem slot (some w) }
  | .load id _ (.alloca slot) _ => do
      let w ← σ.mem slot
      pure (σ.set id (some w))
  | .binary id op lhs rhs _ => do
      let a ← lhs.word σ.regs
      let b ← rhs.word σ.regs
      let w ← op.word a b
      pure (σ.set id (some w))
  | .unary id op operand _ => do
      let a ← operand.word σ.regs
      let w ← op.word1 a
      pure (σ.set id (some w))
  | .call id callee _ _ => some ((σ.called callee).set id (some (world (callee :: σ.trace))))
  | _ => none

end State

/-- With `mem` in the slots, the instructions `code`, numbered from `k` on, do what `x` does, and `v` then
stands for the value of `x`. -/
structure Performs (world : World) (mem : ℕ → Option Word) (k : ℕ) (code : List Instruction) (v : Value)
    (x : Effect Word) : Prop where
  isFloat : v.isFloat = false
  below : v.Below (k + code.length)
  run : ∀ (σ : State) (w : Word) (h : Trace), σ.mem = mem → x σ.trace = some (w, h) →
    ∃ σ', σ.RunsTo (State.exec world) k code σ' ∧ σ'.trace = h ∧ v.word σ'.regs = some w

namespace Effect

/-- An effect, and an operation on its value. -/
def map1 (x : Effect Word) (f : Word → Option Word) : Effect Word := fun h =>
  (x h).bind fun r => (f r.1).map fun w => (w, r.2)

/-- Two effects, and an operation on their values. -/
def map2 (x y : Effect Word) (f : Word → Word → Option Word) : Effect Word := fun h =>
  (x h).bind fun r => (y r.2).bind fun r' => (f r.1 r'.1).map fun w => (w, r'.2)

variable {x y : Effect Word} {f : Word → Option Word} {g : Word → Word → Option Word} {w : Word}
  {h h' : Trace}

lemma map1_eq_some : x.map1 f h = some (w, h') ↔ ∃ a, x h = some (a, h') ∧ f a = some w := by
  simp only [map1, Option.bind_eq_some_iff, Option.map_eq_some_iff, Prod.exists, Prod.mk.injEq]
  constructor
  · rintro ⟨a, h₁, hx, w', hf, rfl, rfl⟩
    exact ⟨a, hx, hf⟩
  · rintro ⟨a, hx, hf⟩
    exact ⟨a, h', hx, w, hf, rfl, rfl⟩

lemma map2_eq_some : x.map2 y g h = some (w, h') ↔
    ∃ a h₁ b, x h = some (a, h₁) ∧ y h₁ = some (b, h') ∧ g a b = some w := by
  simp only [map2, Option.bind_eq_some_iff, Option.map_eq_some_iff, Prod.exists, Prod.mk.injEq]
  constructor
  · rintro ⟨a, h₁, hx, b, h₂, hy, w', hg, rfl, rfl⟩
    exact ⟨a, h₁, b, hx, hy, hg⟩
  · rintro ⟨a, h₁, b, hx, hy, hg⟩
    exact ⟨a, h₁, hx, b, h', hy, w, hg, rfl, rfl⟩

lemma map1_mono {f' : Word → Option Word} (hf : ∀ a w, f a = some w → f' a = some w) (h : Trace)
    (r : Word × Trace) (hr : x.map1 f h = some r) : x.map1 f' h = some r := by
  obtain ⟨w, h'⟩ := r
  obtain ⟨a, hx, hw⟩ := map1_eq_some.mp hr
  exact map1_eq_some.mpr ⟨a, hx, hf a w hw⟩

end Effect

namespace Performs

variable {world : World} {mem : ℕ → Option Word} {k : ℕ} {code code' : List Instruction} {v l r u : Value}
  {x y : Effect Word} {w : Word} {f : Word → Option Word} {g : Word → Word → Option Word}
  {i : Instruction} {type : IRType}

lemma constant (hfloat : v.isFloat = false) (hbelow : v.Below 0) (hv : ∀ regs, v.word regs = some w) :
    Performs world mem k [] v (pure w) where
  isFloat := hfloat
  below := hbelow.mono (Nat.zero_le _)
  run := by
    rintro σ _ _ - ⟨⟩
    exact ⟨σ, .refl σ, rfl, hv _⟩

lemma load {slot : ℕ} {name : List UInt8} (htype : type ≠ .float) (hslot : mem slot = some w) :
    Performs world mem k [.load k type (.alloca slot) name] (.instruction k type) (pure w) where
  isFloat := Value.isFloat_instruction htype
  below := Nat.lt_succ_self k
  run := by
    rintro σ _ _ rfl ⟨⟩
    refine ⟨σ.set k (some w), (Machine.RunsTo.refl σ).set ?_, rfl, σ.regs_set k _⟩
    show (do let w ← σ.mem slot; pure (σ.set k (some w)) : Option State) = _
    rw [hslot]
    rfl

lemma call {callee : FunctionId} {name : String} (htype : type ≠ .float) :
    Performs world mem k [.call k callee [] name] (.instruction k type)
      (fun h => some (world (callee :: h), callee :: h)) where
  isFloat := Value.isFloat_instruction htype
  below := Nat.lt_succ_self k
  run := by
    rintro σ _ _ - ⟨⟩
    refine ⟨(σ.called callee).set k (some (world (callee :: σ.trace))), ⟨rfl, rfl, fun j hj => ?_⟩, rfl,
      Machine.regs_set _ k _⟩
    exact (σ.called callee).regs_set_of_ne _ (Nat.ne_of_lt hj)

/-- Where `y` is defined, it is the same as `x`. -/
lemma weaken (h : Performs world mem k code v x) (hy : ∀ h r, y h = some r → x h = some r) :
    Performs world mem k code v y where
  isFloat := h.isFloat
  below := h.below
  run σ w h' hmem hx := h.run σ w h' hmem (hy _ _ hx)

/-- An instruction on the value of some code. -/
lemma unary {op : Opcode} (name : String) (h : Performs world mem k code v x) (htype : type ≠ .float) :
    Performs world mem k (code ++ [.unary (k + code.length) op v name])
      (.instruction (k + code.length) type) (x.map1 op.word1) where
  isFloat := Value.isFloat_instruction htype
  below := Value.below_snoc code _ _
  run := by
    intro σ w h' hmem hx
    obtain ⟨a, hx, hw⟩ := Effect.map1_eq_some.mp hx
    obtain ⟨σ', hrun, htrace, hv⟩ := h.run σ a h' hmem hx
    refine ⟨σ'.set (k + code.length) (some w), hrun.set ?_, htrace, σ'.regs_set _ _⟩
    simp [State.exec, hv, hw]

/-- An operation that is folded needs no code of its own. -/
lemma folded1 {op : Opcode} (h : Performs world mem k code v x) (hfloat : u.isFloat = false)
    (hbelow : ∀ k, v.Below k → u.Below k)
    (hword : ∀ regs a w, v.word regs = some a → op.word1 a = some w → u.word regs = some w) :
    Performs world mem k code u (x.map1 op.word1) where
  isFloat := hfloat
  below := hbelow _ h.below
  run := by
    intro σ w h' hmem hx
    obtain ⟨a, hx, hw⟩ := Effect.map1_eq_some.mp hx
    obtain ⟨σ', hrun, htrace, hv⟩ := h.run σ a h' hmem hx
    exact ⟨σ', hrun, htrace, hword _ a w hv hw⟩

/-- Code behind code: both values are there in the end. -/
lemma both (hl : Performs world mem k code l x) (hr : Performs world mem (k + code.length) code' r y)
    (σ : State) (w : Word) (h' : Trace) (hmem : σ.mem = mem) (hxy : x.map2 y g σ.trace = some (w, h')) :
    ∃ a b σ', g a b = some w ∧ σ.RunsTo (State.exec world) k (code ++ code') σ' ∧ σ'.trace = h' ∧
      l.word σ'.regs = some a ∧ r.word σ'.regs = some b := by
  obtain ⟨a, h₁, b, hx, hy, hg⟩ := Effect.map2_eq_some.mp hxy
  obtain ⟨σ₁, hrun, rfl, hl'⟩ := hl.run σ a h₁ hmem hx
  obtain ⟨σ', hrun', rfl, hr'⟩ := hr.run σ₁ b h' (hrun.mem.trans hmem) hy
  exact ⟨a, b, σ', hg, hrun.trans hrun', rfl, (hl.below.read_eq _ _ hrun'.regs).trans hl', hr'⟩

/-- An instruction on the values of two pieces of code. -/
lemma binary {op : Opcode} (name : String) (hl : Performs world mem k code l x)
    (hr : Performs world mem (k + code.length) code' r y) (htype : type ≠ .float) :
    Performs world mem k (code ++ code' ++ [.binary (k + (code ++ code').length) op l r name])
      (.instruction (k + (code ++ code').length) type) (x.map2 y op.word) where
  isFloat := Value.isFloat_instruction htype
  below := Value.below_snoc (code ++ code') _ _
  run := by
    intro σ w h' hmem hxy
    obtain ⟨a, b, σ', hw, hrun, htrace, ha, hb⟩ := both hl hr σ w h' hmem hxy
    refine ⟨σ'.set (k + (code ++ code').length) (some w), hrun.set ?_, htrace, σ'.regs_set _ _⟩
    simp [State.exec, ha, hb, hw]

/-- An operation on two values that is folded needs no code of its own. -/
lemma folded {op : Opcode} (hl : Performs world mem k code l x)
    (hr : Performs world mem (k + code.length) code' r y) (hfloat : u.isFloat = false)
    (hbelow : ∀ k, l.Below k → r.Below k → u.Below k)
    (hword : ∀ regs a b w, l.word regs = some a → r.word regs = some b → op.word a b = some w →
      u.word regs = some w) :
    Performs world mem k (code ++ code') u (x.map2 y op.word) where
  isFloat := hfloat
  below := by
    rw [List.length_append, ← Nat.add_assoc]
    exact hbelow _ (hl.below.mono (Nat.le_add_right _ _)) hr.below
  run := by
    intro σ w h' hmem hxy
    obtain ⟨a, b, σ', hw, hrun, htrace, ha, hb⟩ := both hl hr σ w h' hmem hxy
    exact ⟨σ', hrun, htrace, hword _ a b w ha hb hw⟩

end Performs

/-! ## Graphs -/

namespace Module

/-- The instructions of a block that are executed. -/
def body (m : Module) (b : BlockId) : List Instruction := (m.code b).filter fun i => !i.isAlloca

end Module

/-- The instructions in front of the machine, and its state. -/
abbrev Config := List Instruction × State

variable {world : World} {m m' m'' M : Module}

/-- One step in the graphs of the module `M`. -/
inductive Step (world : World) (M : Module) : Config → Config → Prop
  | exec {σ σ' : State} {i : Instruction} {rest : List Instruction} (h : σ.exec world i = some σ') :
      Step world M (i :: rest, σ) (rest, σ')
  | br {σ : State} {dest : BlockId} {rest : List Instruction} :
      Step world M (.br dest :: rest, σ) (M.body dest, σ)
  | condBr {σ : State} {cond : Value} {ifTrue ifFalse : BlockId} {rest : List Instruction} {b : Bool}
      (h : cond.word σ.regs = some (.int1 b)) :
      Step world M (.condBr (some cond) ifTrue ifFalse :: rest, σ)
        (M.body (if b then ifTrue else ifFalse), σ)

/-- Any number of steps. -/
abbrev Steps (world : World) (M : Module) : Config → Config → Prop :=
  Relation.ReflTransGen (Step world M)

/-- Straight-line code is executed from its beginning to its end. -/
lemma steps_run {σ σ' : State} {code : List Instruction} (h : σ.run (State.exec world) code = some σ')
    (rest : List Instruction) : Steps world M (code ++ rest, σ) (rest, σ') := by
  induction code generalizing σ with
  | nil =>
      cases h
      exact .refl
  | cons i code ih =>
      obtain ⟨σ₁, hi, hcode⟩ := Option.bind_eq_some_iff.mp h
      exact .head (.exec hi) (ih hcode)

namespace Module

/-- What has been put behind the code of `m`. -/
def ahead (M m : Module) (b : BlockId) : List Instruction := (M.body b).drop (m.body b).length

/-- The blocks of `M` begin with those of `m`. -/
def Onto (m M : Module) : Prop := ∀ b, m.body b <+: M.body b

lemma Onto.refl (m : Module) : Onto m m := fun _ => List.prefix_rfl

lemma Onto.trans (h : Onto m m') (h' : Onto m' m'') : Onto m m'' := fun b => (h b).trans (h' b)

lemma Onto.body_eq (h : Onto m M) (b : BlockId) : M.body b = m.body b ++ M.ahead m b := by
  obtain ⟨post, hpost⟩ := h b
  rw [ahead, ← hpost, List.drop_left]

/-- A block that is empty lies ahead as a whole. -/
lemma ahead_of_nil {b : BlockId} (h : m.body b = []) : M.ahead m b = M.body b := by
  rw [ahead, h]
  rfl

/-- Code that is put at the end of a block is what comes next in it. -/
lemma ahead_append {b : BlockId} {code : List Instruction} (h : m'.body b = m.body b ++ code)
    (hM : Onto m' M) : M.ahead m b = code ++ M.ahead m' b := by
  rw [ahead, hM.body_eq b, h, List.append_assoc, List.drop_left]

end Module

/-! ## Building -/

/-- The stack slots are the only instructions that come at the beginning of a function. -/
def BuilderOp.Regular : BuilderOp → Prop
  | .prepend _ i => i.isAlloca = true
  | _ => True

lemma BuilderOp.Plain.regular {op : BuilderOp} (h : op.Plain) : op.Regular := by
  cases op with
  | prepend => exact h
  | _ => trivial

/-- An instruction at the insertion point, or an operation on blocks from number `k` on. -/
def BuilderOp.Local (k : ℕ) : BuilderOp → Prop
  | .append _ | .createBlock _ _ => True
  | .insertBlock _ b | .setInsertPoint b => k ≤ b
  | _ => False

lemma BuilderOp.Local.past {op : BuilderOp} {k : ℕ} (h : op.Local k) : op.Past k := by
  cases op with
  | append | createBlock => trivial
  | insertBlock | setInsertPoint => exact h
  | createFunction | createGlobal | prepend => exact h.elim

lemma BuilderOp.Local.mono {op : BuilderOp} {k l : ℕ} (h : op.Local l) (hkl : k ≤ l) : op.Local k := by
  cases op with
  | append | createBlock => trivial
  | insertBlock | setInsertPoint => exact hkl.trans h
  | createFunction | createGlobal | prepend => exact h.elim

namespace Module

section Exec

variable {b c : BlockId} {i : Instruction} {op : BuilderOp} {f : FunctionId}

lemma body_congr (h : m'.code b = m.code b) : m'.body b = m.body b := by rw [body, body, h]

lemma body_append (hpoint : m.insertBlock = some b) (hb : b < m.blocks.length)
    (hi : i.isAlloca = false) : (m.exec (.append i)).body b = m.body b ++ [i] := by
  rw [body, code_append hpoint, if_pos ⟨rfl, hb⟩, List.filter_append, body]
  simp [hi]

lemma onto_exec (m : Module) (op : BuilderOp) (hop : op.Regular) : Onto m (m.exec op) := by
  intro b
  cases op with
  | createFunction | createGlobal | setInsertPoint => exact List.prefix_rfl
  | createBlock name parent => exact (body_congr (code_createBlock m name parent b)).symm ▸ List.prefix_rfl
  | insertBlock f c => exact (body_congr (m := m) (code_link (m := m))).symm ▸ List.prefix_rfl
  | append i =>
      by_cases hpoint : m.insertBlock = some b
      · rw [body, body, code_append hpoint]
        split_ifs
        · rw [List.filter_append]
          exact List.prefix_append _ _
        · exact List.prefix_rfl
      · exact (body_congr (code_append_ne hpoint)).symm ▸ List.prefix_rfl
  | prepend f i =>
      rcases code_prepend m f i b with hsame | hnew
      · exact (body_congr hsame).symm ▸ List.prefix_rfl
      · have hsame : (m.exec (.prepend f i)).body b = m.body b := by
          rw [body, body, hnew,
            List.filter_cons_of_neg (by rw [show i.isAlloca = true from hop]; decide)]
        exact hsame.symm ▸ List.prefix_rfl

lemma onto_foldl (ops : List BuilderOp) (hops : ∀ op ∈ ops, op.Regular) :
    Onto m (ops.foldl Module.exec m) := by
  induction ops generalizing m with
  | nil => exact .refl m
  | cons op ops ih =>
      rw [List.forall_mem_cons] at hops
      exact (onto_exec m op hops.1).trans (ih hops.2)

/-- The type that a function returns. -/
def returnType (m : Module) (f : FunctionId) : IRType := (m.function f).returnType

lemma returnType_link : (m.link c b).returnType f = m.returnType f := by
  rw [returnType, function_link, returnType]
  split_ifs <;> rfl

lemma returnType_exec {k : ℕ} (hop : op.Local k) : (m.exec op).returnType f = m.returnType f := by
  cases op with
  | append i =>
      rw [exec]
      cases m.insertBlock <;> rfl
  | createBlock name parent =>
      cases parent with
      | none => rfl
      | some g => exact returnType_link (m := { m with blocks := m.blocks ++ [{ name }] })
  | insertBlock g c => exact returnType_link
  | setInsertPoint => rfl
  | createFunction | createGlobal | prepend => exact hop.elim

end Exec

/-- Since `m`, instructions have been put at its insertion point and into new blocks only. -/
structure Grows (m m' : Module) : Prop extends Beyond m m' where
  onto : Onto m m'
  others : ∀ b < m.blocks.length, m.insertBlock ≠ some b → m'.code b = m.code b
  types : ∀ f, m'.returnType f = m.returnType f

namespace Grows

lemma refl (m : Module) : Grows m m where
  toBeyond := .refl m
  onto := .refl m
  others _ _ _ := rfl
  types _ := rfl

lemma exec {op : BuilderOp} (h : Grows m m') (hop : op.Local m.blocks.length) : Grows m (m'.exec op) where
  toBeyond := h.toBeyond.exec op hop.past
  onto := by
    refine h.onto.trans (onto_exec m' op ?_)
    cases op with
    | prepend => exact hop.elim
    | _ => trivial
  others b hb hne := by
    rw [← h.others b hb hne]
    cases op with
    | createFunction | createGlobal | prepend => exact hop.elim
    | createBlock name parent => exact code_createBlock m' name parent b
    | insertBlock f c => exact code_link
    | setInsertPoint => rfl
    | append i => exact code_append_ne (h.point_ne hb hne)
  types f := (returnType_exec hop).trans (h.types f)

lemma foldl {ops : List BuilderOp} (h : Grows m m') (hops : ∀ op ∈ ops, op.Local m.blocks.length) :
    Grows m (ops.foldl Module.exec m') := by
  induction ops generalizing m' with
  | nil => exact h
  | cons op ops ih =>
      rw [List.forall_mem_cons] at hops
      exact ih (h.exec hops.1) hops.2

end Grows

/-! ### The insertion point -/

/-- The insertion point is in the block `b` of the function `f`. -/
structure Stands (m : Module) (f : FunctionId) (b : BlockId) : Prop where
  point : m.insertBlock = some b
  lt : b < m.blocks.length
  parent : m.parent b = some f

namespace Stands

variable {f : FunctionId} {b c : BlockId} {i : Instruction}

lemma point_ne_none (h : Stands m f b) : m.insertBlock ≠ none := by simp [h.point]

lemma append (h : Stands m f b) (i : Instruction) : Stands (m.exec (.append i)) f b where
  point := (@insertBlock_exec m (.append i) trivial).trans h.point
  lt := h.lt.trans_eq (blocks_length_append m i).symm
  parent := (@parent_exec m b (.append i) trivial h.lt).trans h.parent

lemma code_append (h : Stands m f b) (i : Instruction) :
    (m.exec (.append i)).code b = m.code b ++ [i] := by
  rw [Module.code_append h.point, if_pos ⟨rfl, h.lt⟩]

lemma body_append (h : Stands m f b) (hi : i.isAlloca = false) :
    (m.exec (.append i)).body b = m.body b ++ [i] := Module.body_append h.point h.lt hi

lemma moveTo (hc : c < m.blocks.length) : Stands (m.moveTo f c) f c where
  point := rfl
  lt := hc.trans_eq blocks_moveTo.symm
  parent := parent_link_self hc

end Stands

/-- Three blocks are created, the first of them in `f`; `i` is appended, and the builder goes to the first
of the blocks. -/
def fork (m : Module) (f : FunctionId) (i : Instruction) (first second third : String) : Module :=
  ((((m.exec (.createBlock first (some f))).exec (.createBlock second none)).exec
    (.createBlock third none)).exec (.append i)).exec (.setInsertPoint m.blocks.length)

section Fork

variable {f : FunctionId} {b c : BlockId} {i : Instruction} {first second third : String}

lemma blocks_fork : (m.fork f i first second third).blocks.length =
    m.blocks.length + 3 := by
  show (Module.exec _ (.append i)).blocks.length = _
  rw [blocks_length_append, blocks_length_createBlock, blocks_length_createBlock,
    blocks_length_createBlock]

lemma Stands.createBlock (h : Stands m f b) (name : String) (parent : Option FunctionId) :
    Stands (m.exec (.createBlock name parent)) f b where
  point := (@insertBlock_exec m (.createBlock name parent) trivial).trans h.point
  lt := h.lt.trans_le (blocks_length_exec m _)
  parent := (@parent_exec m b (.createBlock name parent) trivial h.lt).trans h.parent

/-- Behind the creation of the three blocks. -/
lemma Stands.created (h : Stands m f b) (c : FunctionId) : Stands (((m.exec
    (.createBlock first (some c))).exec (.createBlock second none)).exec
      (.createBlock third none)) f b :=
  ((h.createBlock _ _).createBlock _ _).createBlock _ _

lemma stands_fork (m : Module) :
    Stands (m.fork f i first second third) f m.blocks.length := by
  refine ⟨rfl, by rw [blocks_fork]; exact Nat.lt_add_of_pos_right (by decide), ?_⟩
  let m₁ := m.exec (.createBlock first (some f))
  have hlt : m.blocks.length < m₁.blocks.length := by
    rw [blocks_length_createBlock]
    exact Nat.lt_succ_self _
  have hlt' := hlt.trans_le (blocks_length_exec m₁ (.createBlock second none))
  have hlt'' := hlt'.trans_le (blocks_length_exec _ (.createBlock third none))
  show Module.parent (Module.exec _ (.append i)) _ = _
  rw [@parent_exec _ _ (.append i) trivial hlt'',
    @parent_exec _ _ (.createBlock third none) trivial hlt',
    @parent_exec _ _ (.createBlock second none) trivial hlt]
  exact parent_createBlock m first f

lemma Stands.code_fork (h : Stands m f b) (c : BlockId) :
    (m.fork f i first second third).code c =
      if b = c then m.code b ++ [i] else m.code c := by
  show Module.code (Module.exec _ (.append i)) c = _
  rw [Module.code_append (h.created f).point]
  by_cases hbc : b = c
  · rw [if_pos ⟨hbc, (h.created f).lt⟩, if_pos hbc, code_createBlock, code_createBlock, code_createBlock, hbc]
  · rw [if_neg fun hand => hbc hand.1, if_neg hbc, code_createBlock, code_createBlock, code_createBlock]

/-- The new blocks are empty. -/
lemma Stands.code_fork_new (h : Stands m f b) (hc : m.blocks.length ≤ c) :
    (m.fork f i first second third).code c = [] := by
  rw [h.code_fork, if_neg (Nat.ne_of_lt (h.lt.trans_le hc)), code_eq_nil hc]

lemma Stands.body_fork (h : Stands m f b) (hi : i.isAlloca = false) :
    (m.fork f i first second third).body b = m.body b ++ [i] := by
  rw [body, h.code_fork, if_pos rfl, List.filter_append, body]
  simp [hi]

end Fork

end Module

end LLVM
