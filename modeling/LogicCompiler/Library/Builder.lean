import Mathlib.Data.Int.Notation
import Mathlib.Data.List.Basic

/-!
# A builder of control-flow graphs

What a code generator asks of LLVM: functions with lists of basic blocks, instructions that are
appended to the block of the insertion point, and the operations of `IRBuilder`, `BasicBlock` and
`Module` that change them.  A module is what a list of operations builds, so a generator is known
by the operations it issues.

Types are the builtin ones.  A block is known by the order in which it was created, and so is a
value.
-/

namespace LLVM

/-- The types that the generator asks for. -/
inductive IRType where
  | int32 | float | int1 | int8 | void
  deriving DecidableEq, Repr, Inhabited

/-- The position of a function in its module. -/
abbrev FunctionId := ℕ

/-- The number of a block, in the order of creation. -/
abbrev BlockId := ℕ

/-- A constant, with its type. -/
inductive Constant where
  | int (type : IRType) (value : ℤ)
  /-- a float, as its bits -/
  | fp (bits : ℕ)
  | poison (type : IRType)
  deriving DecidableEq, Repr

/-- `llvm::Value`. -/
inductive Value where
  | constant (c : Constant)
  | globalVar (id : ℕ)
  | function (id : FunctionId)
  | alloca (id : ℕ)
  | instruction (id : ℕ) (type : IRType)
  deriving DecidableEq, Repr

namespace Value

/-- `isa<Constant>`. -/
def isConstant : Value → Bool
  | constant _ | globalVar _ | function _ => true
  | alloca _ | instruction _ _ => false

/-- `isa<AllocaInst>`. -/
def isAlloca : Value → Bool
  | alloca _ => true
  | _ => false

/-- `getType()`, when it is not a pointer. -/
def type : Value → Option IRType
  | constant (.int type _) | constant (.poison type) | instruction _ type => some type
  | constant (.fp _) => some .float
  | globalVar _ | function _ | alloca _ => none

/-- `getType()->isFloatTy()`. -/
def isFloat (v : Value) : Bool := v.type == some .float

end Value

/-- `Constant::getNullValue`; there is none of type `void`. -/
def nullValue : IRType → Option Constant
  | .float => some (.fp 0)
  | .void => none
  | type => some (.int type 0)

/-- The operations, binary and unary. -/
inductive Opcode where
  | FAdd | Add | FSub | Sub | FMul | Mul | FDiv | SDiv
  | FCmpOEQ | ICmpEQ | FCmpONE | ICmpNE | FCmpOLT | ICmpSLT | FCmpOLE | ICmpSLE | FCmpOGT | ICmpSGT
  | FCmpOGE | ICmpSGE
  | FNeg | Neg | Not
  deriving DecidableEq, Repr

/-- The type of a result, from the type of the left operand. -/
def Opcode.resultType (op : Opcode) (operand : IRType) : IRType :=
  match op with
  | FAdd | FSub | FMul | FDiv | FNeg => .float
  | Add | Sub | Mul | SDiv | Neg | Not => operand
  | _ => .int1

/-- The instructions; each that has a result carries its number. -/
inductive Instruction where
  | alloca (id : ℕ) (type : IRType) (name : List UInt8)
  | store (value pointer : Value)
  | load (id : ℕ) (type : IRType) (pointer : Value) (name : List UInt8)
  | binary (id : ℕ) (op : Opcode) (lhs rhs : Value) (name : String)
  | unary (id : ℕ) (op : Opcode) (operand : Value) (name : String)
  | call (id : ℕ) (callee : FunctionId) (args : List (Option Value)) (name : String)
  | ret (value : Option Value)
  | br (dest : BlockId)
  | condBr (cond : Option Value) (ifTrue ifFalse : BlockId)
  deriving DecidableEq, Repr

namespace Instruction

/-- The instructions that end a block. -/
def isTerminator : Instruction → Bool
  | ret _ | br _ | condBr _ _ _ => true
  | _ => false

end Instruction

/-- `llvm::BasicBlock`, a node of the intrusive list of its function. -/
structure Block where
  name : String
  parent : Option FunctionId := none
  /-- the node in front of it; `none` is the sentinel of the list, or a null pointer -/
  prev : Option BlockId := none
  /-- the node behind it -/
  next : Option BlockId := none
  instructions : List Instruction := []
  deriving DecidableEq, Repr

/-- `getTerminator() != nullptr`: the last instruction is a terminator. -/
def Block.hasTerminator (b : Block) : Bool :=
  (b.instructions.getLast?.map Instruction.isTerminator).getD false

/-- The pointers of a node that is put behind the node `last`, at the end of the list of `f`. -/
def Block.placed (last : Option BlockId) (f : FunctionId) (b : Block) : Block :=
  { b with parent := some f, next := none, prev := last }

/-- `llvm::Function`, with the two pointers of the sentinel of its list of blocks. -/
structure Function where
  name : List UInt8
  returnType : IRType
  paramTypes : List IRType := []
  /-- the node behind the sentinel; `none` is the sentinel itself -/
  first : Option BlockId := none
  /-- the node in front of the sentinel -/
  last : Option BlockId := none
  deriving DecidableEq, Repr

/-- A variable of the module. -/
structure GlobalVariable where
  name : List UInt8
  type : IRType
  isConst : Bool
  initializer : Option Value
  deriving DecidableEq, Repr

/-- A module, and the insertion point of the builder that works on it. -/
structure Module where
  functions : List Function := []
  globals : List GlobalVariable := []
  blocks : List Block := []
  /-- the symbol table in order of creation, with `none` for a variable -/
  named : List (List UInt8 × Option FunctionId) := []
  insertBlock : Option BlockId := none
  /-- the number of instructions created, which numbers their values -/
  values : ℕ := 0
  deriving DecidableEq, Repr, Inhabited

/-- What can be asked of a module and its builder. -/
inductive BuilderOp where
  /-- `FunctionType::get` and `Function::Create` -/
  | createFunction (name : List UInt8) (returnType : IRType) (paramTypes : List IRType)
  | createGlobal (name : List UInt8) (type : IRType) (isConst : Bool) (initializer : Option Value)
  /-- `BasicBlock::Create`, with or without a parent -/
  | createBlock (name : String) (parent : Option FunctionId)
  /-- `Function::insert` at the end -/
  | insertBlock (f : FunctionId) (b : BlockId)
  | setInsertPoint (b : BlockId)
  /-- an instruction at the insertion point -/
  | append (i : Instruction)
  /-- an instruction at the beginning of a function's entry block -/
  | prepend (f : FunctionId) (i : Instruction)
  deriving DecidableEq, Repr

/-- Neither moves the insertion point nor puts an existing block into a function. -/
def BuilderOp.Quiet : BuilderOp → Prop
  | .insertBlock _ _ | .setInsertPoint _ => False
  | _ => True

namespace Module

variable (m : Module)

/-- The block under a number. -/
def block (b : BlockId) : Block := m.blocks.getD b { name := "" }

/-- The function under a number. -/
def function (f : FunctionId) : Function := m.functions.getD f { name := [], returnType := .void }

/-- `getParent()`. -/
def parent (b : BlockId) : Option FunctionId := (m.block b).parent

/-- The block in front of a block, in the list of the function. -/
def prev (b : BlockId) : Option BlockId := (m.block b).prev

/-- The block behind a block. -/
def next (b : BlockId) : Option BlockId := (m.block b).next

/-- The first block of a function, which is its entry block. -/
def first (f : FunctionId) : Option BlockId := (m.function f).first

/-- The last block of a function. -/
def last (f : FunctionId) : Option BlockId := (m.function f).last

/-- `GetInsertBlock()->getTerminator() != nullptr`. -/
def hasTerminator (b : BlockId) : Bool := (m.block b).hasTerminator

/-- `Module::getFunction`: the value that had the name first, when it is a function. -/
def getFunction (name : List UInt8) : Option FunctionId :=
  if name = [] then none else (m.named.find? fun e => e.1 == name).bind Prod.snd

/-- The instructions of a block change. -/
def onBlock (b : BlockId) (change : List Instruction → List Instruction) : Module :=
  { m with blocks := m.blocks.modify b fun k => { k with instructions := change k.instructions } }

/-- `Function::insert` at the end, which is `insertBeforeImpl` in front of the sentinel.  A node that is in
a list already is not taken out of it. -/
def link (f : FunctionId) (b : BlockId) : Module :=
  let placed := m.blocks.modify b (Block.placed (m.function f).last f)
  match (m.function f).last with
  | none =>
      { m with
        blocks := placed
        functions := m.functions.modify f fun g => { g with first := some b, last := some b } }
  | some p =>
      { m with
        blocks := placed.modify p fun k => { k with next := some b }
        functions := m.functions.modify f fun g => { g with last := some b } }

/-- What an operation does. -/
def exec : BuilderOp → Module
  | .createFunction name returnType paramTypes =>
      { m with
        functions := m.functions ++ [{ name, returnType, paramTypes }]
        named := m.named ++ [(name, some m.functions.length)] }
  | .createGlobal name type isConst initializer =>
      { m with
        globals := m.globals ++ [{ name, type, isConst, initializer }]
        named := m.named ++ [(name, none)] }
  | .createBlock name parent =>
      let created : Module := { m with blocks := m.blocks ++ [{ name }] }
      match parent with
      | some f => created.link f m.blocks.length
      | none => created
  | .insertBlock f b => m.link f b
  | .setInsertPoint b => { m with insertBlock := some b }
  | .append i =>
      let created : Module := { m with values := m.values + 1 }
      match m.insertBlock with
      | some b => created.onBlock b (· ++ [i])
      | none => created
  | .prepend f i =>
      let created : Module := { m with values := m.values + 1 }
      match (m.function f).first with
      | some b => created.onBlock b (i :: ·)
      | none => created

/-- The module that a list of operations builds. -/
def build (ops : List BuilderOp) : Module := ops.foldl exec {}

lemma build_append (ops : List BuilderOp) (op : BuilderOp) :
    build (ops ++ [op]) = (build ops).exec op := by
  rw [build, List.foldl_append]
  rfl

/-! ### What putting a block into a function changes -/

lemma getD_modify {α : Type} (l : List α) (i j : ℕ) (change : α → α) (d : α) :
    (l.modify i change).getD j d = if i = j ∧ j < l.length then change (l.getD j d) else l.getD j d := by
  rw [List.getD_eq_getElem?_getD, List.getD_eq_getElem?_getD, List.getElem?_modify]
  by_cases hij : i = j
  · by_cases hj : j < l.length
    · simp [hij, hj]
    · simp [hj]
  · simp [hij]

section Link

variable (m : Module) (f g : FunctionId) (b c : BlockId)

lemma block_link : (m.link f b).block c =
    let k := if b = c ∧ c < m.blocks.length then (m.block c).placed (m.last f) f else m.block c
    if m.last f = some c ∧ c < m.blocks.length then { k with next := some b } else k := by
  rw [block, link, last]
  cases (m.function f).last with
  | none =>
      dsimp only
      have hnone : ¬ (none = some c ∧ c < m.blocks.length) := fun h => Option.some_ne_none c h.1.symm
      rw [getD_modify, if_neg hnone]
      rfl
  | some p =>
      dsimp only
      rw [getD_modify, getD_modify, List.length_modify]
      simp only [Option.some.injEq]
      rfl

lemma function_link : (m.link f b).function g =
    if f = g ∧ g < m.functions.length then
      { m.function g with
        first := if m.last f = none then some b else m.first g
        last := some b }
    else m.function g := by
  rw [function, link, last]
  cases (m.function f).last with
  | none =>
      dsimp only
      rw [getD_modify, if_pos rfl]
      rfl
  | some p =>
      dsimp only
      rw [getD_modify, if_neg (Option.some_ne_none p)]
      rfl

lemma parent_link : (m.link f b).parent c =
    if b = c ∧ c < m.blocks.length then some f else m.parent c := by
  rw [parent, block_link, parent]
  split_ifs <;> rfl

lemma prev_link : (m.link f b).prev c =
    if b = c ∧ c < m.blocks.length then m.last f else m.prev c := by
  rw [prev, block_link, prev]
  split_ifs <;> rfl

lemma next_link : (m.link f b).next c =
    if m.last f = some c ∧ c < m.blocks.length then some b
    else if b = c ∧ c < m.blocks.length then none else m.next c := by
  rw [next, block_link, next]
  split_ifs <;> rfl

lemma first_link : (m.link f b).first g =
    if f = g ∧ g < m.functions.length ∧ m.last f = none then some b else m.first g := by
  rw [first, function_link, first]
  by_cases hg : f = g ∧ g < m.functions.length
  · simp [hg]
  · rw [if_neg hg, if_neg fun h => hg ⟨h.1, h.2.1⟩]

lemma last_link : (m.link f b).last g =
    if f = g ∧ g < m.functions.length then some b else m.last g := by
  rw [last, function_link, last]
  split_ifs <;> rfl

lemma blocks_length_link : (m.link f b).blocks.length = m.blocks.length := by
  rw [link]
  cases (m.function f).last <;> simp

lemma functions_length_link : (m.link f b).functions.length = m.functions.length := by
  rw [link]
  cases (m.function f).last <;> simp

end Link

/-! ### What an operation leaves as it is -/

section Exec

variable {m : Module} {f : FunctionId} {b c : BlockId} {op : BuilderOp}

lemma parent_onBlock (change : List Instruction → List Instruction) :
    (m.onBlock b change).parent c = m.parent c := by
  rw [parent, parent, block, block, onBlock, getD_modify]
  split_ifs <;> rfl

lemma parent_link_self (h : b < m.blocks.length) : (m.link f b).parent b = some f := by
  rw [parent_link, if_pos ⟨rfl, h⟩]

lemma parent_link_ne (h : c ≠ b) : (m.link f b).parent c = m.parent c := by
  rw [parent_link, if_neg fun hb => h hb.1.symm]

/-- The parameter types of the functions. -/
def signatures (m : Module) : List (List IRType) := m.functions.map Function.paramTypes

lemma signatures_link : (m.link f b).signatures = m.signatures := by
  have hmodify (change : Function → Function) (hchange : ∀ g, (change g).paramTypes = g.paramTypes) :
      (m.functions.modify f change).map Function.paramTypes = m.functions.map Function.paramTypes := by
    refine List.ext_getElem? fun i => ?_
    rw [List.getElem?_map, List.getElem?_map, List.getElem?_modify]
    cases m.functions[i]? with
    | none => rfl
    | some g => by_cases h : f = i <;> simp [h, hchange]
  rw [signatures, signatures, link]
  cases (m.function f).last with
  | none => exact hmodify _ fun _ => rfl
  | some p => exact hmodify _ fun _ => rfl

/-- No operation changes the type of a function. -/
lemma signatures_exec (m : Module) (op : BuilderOp) : m.signatures <+: (m.exec op).signatures := by
  cases op with
  | createFunction name returnType paramTypes => exact ⟨[paramTypes], by simp [signatures, exec]⟩
  | createBlock name parent =>
      cases parent with
      | none => exact List.prefix_rfl
      | some f => exact (signatures_link (m := { m with blocks := m.blocks ++ [{ name }] })).symm ▸
          List.prefix_rfl
  | insertBlock f b => exact (signatures_link (m := m)).symm ▸ List.prefix_rfl
  | append i =>
      rw [exec]
      cases m.insertBlock with
      | none => exact List.prefix_rfl
      | some b => exact List.prefix_rfl
  | prepend f i =>
      rw [exec]
      cases (m.function f).first with
      | none => exact List.prefix_rfl
      | some b => exact List.prefix_rfl
  | createGlobal | setInsertPoint => exact List.prefix_rfl

lemma blocks_length_createBlock (m : Module) (name : String) (parent : Option FunctionId) :
    (m.exec (.createBlock name parent)).blocks.length = m.blocks.length + 1 := by
  cases parent with
  | none => simp [exec]
  | some f => exact (blocks_length_link _ f _).trans (by simp)

lemma blocks_length_exec (m : Module) (op : BuilderOp) :
    m.blocks.length ≤ (m.exec op).blocks.length := by
  cases op with
  | createBlock name parent =>
      rw [blocks_length_createBlock]
      exact Nat.le_succ _
  | append i => cases h : m.insertBlock <;> simp [exec, h, onBlock]
  | prepend f i => cases h : (m.function f).first <;> simp [exec, h, onBlock]
  | insertBlock f b => exact Nat.le_of_eq (blocks_length_link m f b).symm
  | createFunction | createGlobal | setInsertPoint => exact Nat.le_refl _

/-- A quiet operation leaves the parents of the blocks as they are. -/
lemma parent_exec (hop : op.Quiet) (h : b < m.blocks.length) : (m.exec op).parent b = m.parent b := by
  have hnew (k : Block) : Module.parent { m with blocks := m.blocks ++ [k] } b = m.parent b := by
    rw [parent, parent, block, block, List.getD_eq_getElem?_getD, List.getD_eq_getElem?_getD,
      List.getElem?_append_left h]
  cases op with
  | createBlock name parent =>
      cases parent with
      | none => exact hnew _
      | some f => exact (parent_link_ne (Nat.ne_of_lt h)).trans (hnew _)
  | append i =>
      rw [exec]
      cases m.insertBlock with
      | none => rfl
      | some b => exact parent_onBlock _
  | prepend f i =>
      rw [exec]
      cases (m.function f).first with
      | none => rfl
      | some b => exact parent_onBlock _
  | createFunction | createGlobal => rfl
  | insertBlock | setInsertPoint => exact hop.elim

lemma insertBlock_link : (m.link f b).insertBlock = m.insertBlock := by
  rw [link]
  cases (m.function f).last <;> rfl

lemma insertBlock_exec (hop : op.Quiet) : (m.exec op).insertBlock = m.insertBlock := by
  cases op with
  | createBlock name parent =>
      cases parent with
      | none => rfl
      | some f => exact insertBlock_link (m := { m with blocks := m.blocks ++ [{ name }] })
  | append i =>
      rw [exec]
      split
      · rfl
      · rfl
  | prepend f i =>
      rw [exec]
      cases (m.function f).first with
      | none => rfl
      | some b => rfl
  | createFunction | createGlobal => rfl
  | insertBlock | setInsertPoint => exact hop.elim

/-- A block that is created with a parent. -/
lemma parent_createBlock (m : Module) (name : String) (f : FunctionId) :
    (m.exec (.createBlock name (some f))).parent m.blocks.length = some f :=
  parent_link_self (by simp)

end Exec

end Module

end LLVM
