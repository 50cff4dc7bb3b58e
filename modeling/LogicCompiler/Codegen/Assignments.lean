import LogicCompiler.Codegen.Recursion

/-!
# Assignments

The branch for `=` of `codegenBinaryExpr`.  It visits the left side like any other operand and stores
if the value it gets is a stack slot.  The value of a local variable is a load from its slot, so that
no assignment to a local variable is ever generated (`assignment_iff`); what is not a local variable is
refused as it should be, except for the kinds of nodes that have no value (`Silent`): these are passed
over without a word.
-/

namespace LogicCompiler

open TokenType NodeKind LLVM Fuel

namespace Compiler

variable {P : Program} {c : CodegenCalls} {s t u : Compiler} {n : ℕ} {id : NodeId} {node : Node}
  {x : List Byte} {sym : Symbol} {slot : ℕ}

/-! ## The branch -/

/-- An assignment of `rhs` to `lhs`, over the operation that stores. -/
def assignWith (store : Value → Value → CodegenM Unit) (lhs rhs : Value) :
    CodegenM (Option Value) := do
  if lhs.isAlloca then
    store rhs lhs
    pure (some rhs)
  else throwRuntime "LLVM CodeGen Error: Invalid LHS assignment target"

/-- `codegenBinaryExpr` of an assignment, over the operation that stores. -/
def codegenAssignWith (store : Value → Value → CodegenM Unit) (c : CodegenCalls) (node : Node) :
    CodegenM (Option Value) := do
  let lhs ← c.codegen node.data.lhs
  let rhs ← c.codegen node.data.rhs
  match lhs, rhs with
  | some lhs, some rhs => assignWith store lhs rhs
  | _, _ => pure none

/-- The node `id` is an assignment. -/
structure IsAssignment (P : Program) (id : NodeId) (node : Node) : Prop where
  valid : id ≠ kNullNode
  found : P.tree[id]? = some node
  kind : node.kind = BinaryExpr
  op : node.data.op = Equals.code

/-- The visit of an assignment is the branch, storing with `CreateStore`. -/
lemma codegen_assignment (h : IsAssignment P id node) :
    (methods P (n + 1)).codegen id = codegenAssignWith createStore (methods P n) node := by
  show codegen P (methods P n) id = _
  rw [codegen_of_kind _ h.valid h.found, h.kind]
  funext s
  show codegenBinaryExpr P (methods P n) id s = _
  rw [codegenBinaryExpr, getNode_eq h.found, Comp.bind_apply (Comp.pure_apply node s)]
  simp only [h.op, if_true]
  rfl

/-! ## Names -/

/-- The node `id` is the name `x`. -/
structure IsName (P : Program) (id : NodeId) (x : List Byte) : Prop where
  valid : id ≠ kNullNode
  node : ∃ node, P.tree[id]? = some node ∧ node.kind = IdentifierExpr
  text : ∀ s, getNodeSnippet P id s = some (.ok (x, s))

/-- The visit of a name: what its innermost declaration makes of it. -/
lemma codegen_name (h : IsName P id x) (s : Compiler) :
    (methods P (n + 1)).codegen id s =
      (match s.lookupVar x with
        | none => throwRuntime "LLVM CodeGen Error: Undefined symbol '" x "'"
        | some sym => do
            let value ← deref sym.value
            if value.isAlloca then
              let loaded ← createLoad sym.type value x
              pure (some loaded)
            else pure (some value)) s := by
  rcases h.node with ⟨node, hnode, hkind⟩
  show codegen P (methods P n) id s = _
  rw [codegen_of_kind _ h.valid hnode, hkind]
  show codegenIdentifierExpr P id s = _
  rw [codegenIdentifierExpr, Comp.bind_apply (h.text s)]
  rfl

lemma codegen_null_ok {v : Option Value} (hid : id = kNullNode)
    (h : (methods P (n + 1)).codegen id s = some (.ok (v, t))) : v = none := by
  change codegen P (methods P n) id s = _ at h
  rw [codegen, if_pos hid] at h
  cases h
  rfl

lemma codegen_undefined (h : IsName P id x) (hlookup : s.lookupVar x = none) :
    ∃ message, (methods P (n + 1)).codegen id s = some (.error (.runtimeError message)) := by
  rw [codegen_name h, hlookup]
  exact ⟨_, rfl⟩

lemma createLoad_apply {type : IRType} {pointer : Value} {name : List Byte}
    (hblock : s.module.insertBlock ≠ none) :
    createLoad type pointer name s = some (.ok (.instruction s.module.values type,
      s.issue (.append (.load s.module.values type pointer name)))) := by
  rcases Option.ne_none_iff_exists'.mp hblock with ⟨b, hb⟩
  have hread : insertBlock s = some (.ok (some b, s)) := by rw [insertBlock, read, hb]
  rw [createLoad, Comp.bind_apply hread]
  rfl

/-- Outside of a function there is no block to ask. -/
lemma createLoad_outside {type : IRType} {pointer : Value} {name : List Byte}
    (hblock : s.module.insertBlock = none) :
    createLoad type pointer name s = some (.error .crash) := by
  have hread : insertBlock s = some (.ok (none, s)) := by rw [insertBlock, read, hblock]
  rw [createLoad, Comp.bind_apply hread]
  rfl

/-- The value of a local variable is loaded from its slot. -/
lemma codegen_slot (h : IsName P id x) (hlookup : s.lookupVar x = some sym)
    (hvalue : sym.value = some (.alloca slot)) (hblock : s.module.insertBlock ≠ none) :
    (methods P (n + 1)).codegen id s =
      some (.ok (some (.instruction s.module.values sym.type),
        s.issue (.append (.load s.module.values sym.type (.alloca slot) x)))) := by
  rw [codegen_name h, hlookup]
  simp only [hvalue]
  show (createLoad sym.type (.alloca slot) x >>= fun loaded => pure (some loaded)) s = _
  rw [Comp.bind_apply (createLoad_apply hblock)]
  rfl

lemma codegen_slot_outside (h : IsName P id x) (hlookup : s.lookupVar x = some sym)
    (hvalue : sym.value = some (.alloca slot)) (hblock : s.module.insertBlock = none) :
    (methods P (n + 1)).codegen id s = some (.error .crash) := by
  rw [codegen_name h, hlookup]
  simp only [hvalue]
  show (createLoad sym.type (.alloca slot) x >>= fun loaded => pure (some loaded)) s = _
  rw [Comp.bind_eq, createLoad_outside hblock]

/-- Any other value is taken as it is. -/
lemma codegen_value {v : Value} (h : IsName P id x) (hlookup : s.lookupVar x = some sym)
    (hvalue : sym.value = some v) (hv : v.isAlloca = false) :
    (methods P (n + 1)).codegen id s = some (.ok (some v, s)) := by
  rw [codegen_name h, hlookup]
  simp only [hvalue]
  show (if v.isAlloca then _ else pure (some v) : CodegenM (Option Value)) s = _
  rw [hv]
  rfl

/-- A constant without an initialiser has a null pointer for its value. -/
lemma codegen_null (h : IsName P id x) (hlookup : s.lookupVar x = some sym)
    (hvalue : sym.value = none) : (methods P (n + 1)).codegen id s = some (.error .crash) := by
  rw [codegen_name h, hlookup]
  simp only [hvalue]
  rfl

/-! ## What an assignment should do -/

/-- The right-hand side generates a value, when it comes to it. -/
def Generates (P : Program) (n : ℕ) (s : Compiler) (node : Node) : Prop :=
  ∀ l t, (methods P n).codegen node.data.lhs s = some (.ok (l, t)) →
    ∃ v u, (methods P n).codegen node.data.rhs t = some (.ok (some v, u))

/-- The value of the right-hand side is stored into the slot, behind the code of the operands. -/
def StoresInto (P : Program) (n : ℕ) (s : Compiler) (id : NodeId) (node : Node) (slot : ℕ) : Prop :=
  ∃ l t v u, (methods P n).codegen node.data.lhs s = some (.ok (l, t)) ∧
    (methods P n).codegen node.data.rhs t = some (.ok (some v, u)) ∧
    (methods P (n + 1)).codegen id s = some (.ok (some v, u.issue (.append (.store v (.alloca slot)))))

/-- An exception is thrown, and whatever a store would do it is the same: none is reached. -/
def Throws (P : Program) (n : ℕ) (s : Compiler) (id : NodeId) (node : Node) : Prop :=
  ∃ e, e ≠ .crash ∧ (methods P (n + 1)).codegen id s = some (.error e) ∧
    ∀ store, codegenAssignWith store (methods P n) node s = some (.error e)

/-- An assignment to `x` does what the innermost declaration of `x` allows. -/
structure AssignsVariable (P : Program) (n : ℕ) (s : Compiler) (id : NodeId) (node : Node)
    (x : List Byte) : Prop where
  stores : ∀ sym slot, s.lookupVar x = some sym → sym.isConst = false →
    sym.isCompileTime = false → sym.value = some (.alloca slot) → StoresInto P n s id node slot
  undefined : s.lookupVar x = none → Throws P n s id node
  throws : ∀ sym, s.lookupVar x = some sym → sym.isConst = true ∨ sym.isCompileTime = true →
    Throws P n s id node

/-- The innermost declaration of `x` is no local variable that could be assigned to; and if `x` is a
constant, it has a value, which can be loaded if it is in a slot. -/
def NoTarget (s : Compiler) (x : List Byte) : Prop :=
  ∀ sym, s.lookupVar x = some sym →
    if sym.isConst = true ∨ sym.isCompileTime = true then
      sym.value ≠ none ∧ ∀ slot, sym.value = some (.alloca slot) → s.module.insertBlock ≠ none
    else ∀ slot, sym.value ≠ some (.alloca slot)

/-! ## What it does -/

/-- The branch behind its operands. -/
lemma codegenAssignWith_apply {l : Option Value} {v : Value} (store : Value → Value → CodegenM Unit)
    (hl : c.codegen node.data.lhs s = some (.ok (l, t)))
    (hv : c.codegen node.data.rhs t = some (.ok (some v, u))) :
    codegenAssignWith store c node s =
      (match l with
        | some l => assignWith store l v
        | none => pure none) u := by
  rw [codegenAssignWith, Comp.bind_apply hl, Comp.bind_apply hv]
  cases l <;> rfl

/-- A left side that throws. -/
lemma codegenAssignWith_error {e : CodegenFailure} (store : Value → Value → CodegenM Unit)
    (hl : c.codegen node.data.lhs s = some (.error e)) :
    codegenAssignWith store c node s = some (.error e) := by
  rw [codegenAssignWith, Comp.bind_eq, hl]

/-- A left side whose value is no slot is refused. -/
lemma throws_of_value {l : Value} (h : IsAssignment P id node) (hrhs : Generates P n s node)
    (hl : (methods P n).codegen node.data.lhs s = some (.ok (some l, t)))
    (hslot : l.isAlloca = false) : Throws P n s id node := by
  rcases hrhs _ _ hl with ⟨v, u, hv⟩
  have hrun (store : Value → Value → CodegenM Unit) :
      codegenAssignWith store (methods P n) node s =
        (throwRuntime "LLVM CodeGen Error: Invalid LHS assignment target" :
          CodegenM (Option Value)) u := by
    rw [codegenAssignWith_apply store hl hv]
    show assignWith store l v u = _
    rw [assignWith, hslot]
    rfl
  have hthrow : ∃ message, (throwRuntime "LLVM CodeGen Error: Invalid LHS assignment target" :
      CodegenM (Option Value)) u = some (.error (.runtimeError message)) := ⟨_, rfl⟩
  rcases hthrow with ⟨message, hmessage⟩
  refine ⟨.runtimeError message, nofun, ?_, fun store => (hrun store).trans hmessage⟩
  rw [codegen_assignment h]
  exact (hrun _).trans hmessage

lemma throws_of_error {e : CodegenFailure} (h : IsAssignment P id node) (he : e ≠ .crash)
    (hl : (methods P n).codegen node.data.lhs s = some (.error e)) : Throws P n s id node := by
  refine ⟨e, he, ?_, fun store => codegenAssignWith_error store hl⟩
  rw [codegen_assignment h]
  exact codegenAssignWith_error _ hl

/-- A crash is no exception. -/
lemma not_throws_of_crash (h : IsAssignment P id node)
    (hl : (methods P n).codegen node.data.lhs s = some (.error .crash)) :
    ¬ Throws P n s id node := by
  rintro ⟨e, he, hrun, -⟩
  rw [codegen_assignment h, codegenAssignWith_error _ hl] at hrun
  cases hrun
  exact he rfl

/-- What throws does not store. -/
lemma Throws.not_storesInto (h : Throws P n s id node) : ¬ StoresInto P n s id node slot := by
  rcases h with ⟨e, -, hrun, -⟩
  rintro ⟨l, t, v, u, -, -, hstore⟩
  rw [hrun] at hstore
  cases hstore

/-- **When an assignment throws**: when its left side does, or has a value that is no slot. -/
lemma throws_iff (h : IsAssignment P id node) (hrhs : Generates P n s node) :
    Throws P n s id node ↔
      (∃ e, e ≠ .crash ∧ (methods P n).codegen node.data.lhs s = some (.error e)) ∨
        ∃ l t, (methods P n).codegen node.data.lhs s = some (.ok (some l, t)) ∧
          l.isAlloca = false := by
  constructor
  · rintro ⟨e, he, hrun, hstores⟩
    rw [codegen_assignment h] at hrun
    cases hl : (methods P n).codegen node.data.lhs s with
    | none =>
        rw [codegenAssignWith, Comp.bind_eq, hl] at hrun
        cases hrun
    | some r =>
        cases r with
        | error e' =>
            rw [codegenAssignWith_error _ hl] at hrun
            cases hrun
            exact .inl ⟨e, he, rfl⟩
        | ok r =>
            rcases r with ⟨l, t⟩
            rcases hrhs _ _ hl with ⟨v, u, hv⟩
            rw [codegenAssignWith_apply _ hl hv] at hrun
            cases l with
            | none => cases hrun
            | some l =>
                refine .inr ⟨l, t, rfl, ?_⟩
                -- a store that is reached could also return
                have hother := hstores fun _ _ => pure ()
                rw [codegenAssignWith_apply _ hl hv] at hother
                change assignWith _ l v u = _ at hother
                by_contra hslot
                rw [Bool.not_eq_false] at hslot
                rw [assignWith, hslot] at hother
                cases hother
  · rintro (⟨e, he, hl⟩ | ⟨l, t, hl, hslot⟩)
    · exact throws_of_error h he hl
    · exact throws_of_value h hrhs hl hslot

/-- What a slot holds is loaded, and then it is no slot any more. -/
lemma throws_of_slot (h : IsAssignment P id node) (hx : IsName P node.data.lhs x)
    (hrhs : Generates P (n + 1) s node) (hlookup : s.lookupVar x = some sym)
    (hvalue : sym.value = some (.alloca slot)) (hblock : s.module.insertBlock ≠ none) :
    Throws P (n + 1) s id node :=
  throws_of_value h hrhs (codegen_slot hx hlookup hvalue hblock) rfl

lemma not_storesInto (h : IsAssignment P id node) (hx : IsName P node.data.lhs x)
    (hrhs : Generates P (n + 1) s node) (hlookup : s.lookupVar x = some sym)
    (hvalue : sym.value = some (.alloca slot)) : ¬ StoresInto P (n + 1) s id node slot := by
  by_cases hblock : s.module.insertBlock = none
  · rintro ⟨l, t, v, u, hl, -⟩
    rw [codegen_slot_outside hx hlookup hvalue hblock] at hl
    cases hl
  · exact (throws_of_slot h hx hrhs hlookup hvalue hblock).not_storesInto

lemma assignsVariable_iff (h : IsAssignment P id node) (hx : IsName P node.data.lhs x)
    (hrhs : Generates P (n + 1) s node) :
    AssignsVariable P (n + 1) s id node x ↔ NoTarget s x := by
  constructor
  · rintro ⟨hstores, -, hthrows⟩ sym hlookup
    split
    · next hconst =>
        have hthrow := hthrows sym hlookup hconst
        constructor
        · intro hnull
          exact not_throws_of_crash h (codegen_null hx hlookup hnull) hthrow
        · intro slot hslot hblock
          exact not_throws_of_crash h (codegen_slot_outside hx hlookup hslot hblock) hthrow
    · next hvar =>
        rcases not_or.mp hvar with ⟨hconst, hcomp⟩
        rw [Bool.not_eq_true] at hconst hcomp
        intro slot hslot
        exact not_storesInto h hx hrhs hlookup hslot
          (hstores sym slot hlookup hconst hcomp hslot)
  · intro hno
    refine ⟨fun sym slot hlookup hconst hcomp hslot => ?_, fun hlookup => ?_,
      fun sym hlookup hconst => ?_⟩
    · have hsym := hno sym hlookup
      rw [if_neg (by simp [hconst, hcomp])] at hsym
      exact absurd hslot (hsym slot)
    · rcases codegen_undefined hx hlookup with ⟨message, hl⟩
      exact throws_of_error h (e := .runtimeError message) nofun hl
    · have hsym := hno sym hlookup
      rw [if_pos hconst] at hsym
      rcases Option.ne_none_iff_exists'.mp hsym.1 with ⟨v, hv⟩
      cases hslot : v.isAlloca with
      | false => exact throws_of_value h hrhs (codegen_value hx hlookup hv hslot) hslot
      | true =>
          cases v with
          | alloca slot => exact throws_of_slot h hx hrhs hlookup hv (hsym.2 slot hv)
          | constant | globalVar | function | instruction => cases hslot

/-! ## Left sides without a value -/

/-- What the folder of `IRBuilder` gives is a constant. -/
structure FoldsToConstants (host : Host) : Prop where
  binary : ∀ op lhs rhs v, host.foldBinary op lhs rhs = some v → v.isConstant = true
  unary : ∀ op operand v, host.foldUnary op operand = some v → v.isConstant = true

/-- The kinds of nodes whose visit gives a null pointer, whatever is below them: statements, and what
`codegen` has no branch for. -/
def silentKinds : List NodeKind :=
  [TypeDecl, StructDecl, NamespaceDecl, MemberAccessExpr, EvalExpr, DeleteExpr, CastExpr,
    CompileTimeJump]

/-- The nodes whose visit gives a null pointer when it returns.  Of the literals these are strings and
characters, of the unary expressions all but `return`, `-` and `!`. -/
inductive Silent (P : Program) : NodeId → Prop
  | null : Silent P kNullNode
  | kind {j : NodeId} {n : Node} (hnode : P.tree[j]? = some n) (hkind : n.kind ∈ silentKinds) :
      Silent P j
  | literal {j : NodeId} {n : Node} (hnode : P.tree[j]? = some n) (hkind : n.kind = LiteralExpr)
      (htype : n.data.op ∉ [LInt.code, LFloat.code, kTrue.code, kFalse.code]) : Silent P j
  | unary {j : NodeId} {n : Node} (hnode : P.tree[j]? = some n) (hkind : n.kind = UnaryExpr)
      (hop : n.data.op ∉ [kReturn.code, Minus.code, Excl.code]) : Silent P j
  | lhs {j : NodeId} {n : Node} (hnode : P.tree[j]? = some n) (hkind : n.kind = BinaryExpr)
      (h : Silent P n.data.lhs) : Silent P j
  | rhs {j : NodeId} {n : Node} (hnode : P.tree[j]? = some n) (hkind : n.kind = BinaryExpr)
      (h : Silent P n.data.rhs) : Silent P j

/-- What the visit of the node `j` may give: nothing if the node is silent, and no slot. -/
def Loaded (P : Program) (j : NodeId) : Option Value → Prop
  | none => Silent P j
  | some v => v.isAlloca = false

lemma loaded_some {v : Value} {j : NodeId} (h : v.isAlloca = false) : Loaded P j (some v) := h

lemma isAlloca_of_isConstant {v : Value} (h : v.isConstant = true) : v.isAlloca = false := by
  cases v with
  | alloca => cases h
  | constant | globalVar | function | instruction => rfl

lemma gives_fail {α : Type} {Q : α → Prop} (e : CodegenFailure) :
    Comp.Gives Q (fail e : CodegenM α) := fun s a s' h => by cases h

lemma gives_createBinary (hfold : FoldsToConstants P.host) (op : Opcode) (lhs rhs : Value)
    (name : String) :
    Comp.Gives (fun v => v.isAlloca = false) (createBinary P.host op lhs rhs name) := by
  rw [createBinary]
  split
  · next v hv => exact .pure (isAlloca_of_isConstant (hfold.binary _ _ _ _ hv))
  · exact .last fun id => .pure rfl

lemma gives_createUnary (hfold : FoldsToConstants P.host) (op : Opcode) (operand : Value)
    (name : String) :
    Comp.Gives (fun v => v.isAlloca = false) (createUnary P.host op operand name) := by
  rw [createUnary]
  split
  · next v hv => exact .pure (isAlloca_of_isConstant (hfold.unary _ _ _ hv))
  · exact .last fun id => .pure rfl

lemma gives_codegenLiteralExpr (hnode : P.tree[id]? = some node) (hkind : node.kind = LiteralExpr) :
    Comp.Gives (Loaded P id) (codegenLiteralExpr P id) := by
  refine .last fun text => ?_
  rw [getNode_eq hnode, pure_bind, literalValue]
  refine .ite (fun _ => .last fun value => .pure (loaded_some rfl)) fun hint => ?_
  refine .ite (fun _ => .last fun value => .pure (loaded_some rfl)) fun hfloat => ?_
  refine .ite (fun _ => .pure (loaded_some rfl)) fun htrue => ?_
  refine .ite (fun _ => .pure (loaded_some rfl)) fun hfalse => .pure ?_
  exact Silent.literal hnode hkind (by simp [hint, hfloat, htrue, hfalse])

lemma gives_codegenIdentifierExpr : Comp.Gives (Loaded P id) (codegenIdentifierExpr P id) := by
  refine .last fun text => .last fun sym => ?_
  cases sym with
  | none => exact gives_fail _
  | some sym =>
      refine .last fun value => .ite (fun _ => ?_) fun hslot => ?_
      · refine .bind (Q := fun v => v.isAlloca = false) ?_ fun v hv => .pure (loaded_some hv)
        exact .last fun _ => .last fun _ => .last fun _ => .pure rfl
      · exact .pure (loaded_some (Bool.not_eq_true _ ▸ hslot))

lemma gives_codegenUnaryExpr (hfold : FoldsToConstants P.host) (hnode : P.tree[id]? = some node)
    (hkind : node.kind = UnaryExpr) : Comp.Gives (Loaded P id) (codegenUnaryExpr P c id) := by
  rw [codegenUnaryExpr, getNode_eq hnode, pure_bind]
  have hret (retVal : Option Value) : Comp.Gives (Loaded P id) (do
      let value ← createRet retVal
      pure (some value)) :=
    .bind (Q := fun v => v.isAlloca = false) (.last fun _ => .pure rfl) fun v hv =>
      .pure (loaded_some hv)
  refine .ite (fun _ => .ite (fun _ => .last hret) fun _ => hret none) fun hreturn => ?_
  refine .last fun operand => .ite (fun _ => ?_) fun hminus => .ite (fun _ => ?_) fun hexcl => ?_
  · exact .last fun o => .bind (gives_createUnary hfold _ _ _) fun v hv => .pure (loaded_some hv)
  · exact .last fun o => .bind (gives_createUnary hfold _ _ _) fun v hv => .pure (loaded_some hv)
  · exact .pure (Silent.unary hnode hkind (by simp [hreturn, hminus, hexcl]))

/-- Of two operands with values a value is made; a store is not reached. -/
lemma gives_codegenBinaryExpr (hfold : FoldsToConstants P.host) (hnode : P.tree[id]? = some node)
    (hkind : node.kind = BinaryExpr)
    (hlhs : Comp.Gives (Loaded P node.data.lhs) (c.codegen node.data.lhs))
    (hrhs : Comp.Gives (Loaded P node.data.rhs) (c.codegen node.data.rhs)) :
    Comp.Gives (Loaded P id) (codegenBinaryExpr P c id) := by
  rw [codegenBinaryExpr, getNode_eq hnode, pure_bind]
  refine .bind hlhs fun l hl => .bind hrhs fun r hr => ?_
  cases l with
  | none => exact .pure (Silent.lhs hnode hkind hl)
  | some l =>
      cases r with
      | none => exact .pure (Silent.rhs hnode hkind hr)
      | some r =>
          dsimp only
          split
          · exact .bind (gives_createBinary hfold _ _ _ _) fun v hv => .pure (loaded_some hv)
          · refine .ite (fun _ => .ite (fun hslot => ?_) fun _ => gives_fail _) fun _ => gives_fail _
            rw [show l.isAlloca = false from hl] at hslot
            cases hslot

lemma gives_codegenCallExpr : Comp.Gives (Loaded P id) (codegenCallExpr P c id) := by
  have hcall (callee : FunctionId) (args : List (Option Value)) : Comp.Gives (Loaded P id) (do
      let value ← createCall callee args
      pure (some value)) :=
    .bind (Q := fun v => v.isAlloca = false) (.last fun _ => .last fun _ => .pure rfl) fun v hv =>
      .pure (loaded_some hv)
  refine .last fun n => .last fun fnName => .last fun fnInfo => ?_
  cases fnInfo with
  | none =>
      refine .last fun externalFn => ?_
      cases externalFn with
      | none => exact gives_fail _
      | some externalFn => exact .ite (fun _ => .last fun arg => hcall _ _) fun _ => hcall _ _
  | some fnInfo => exact .last fun llvmArgs => hcall _ _

lemma gives_codegenEvalExpr :
    Comp.Gives (fun v => v = none) (codegenEvalExpr P c id) := by
  refine .last fun n => .last fun condVal => .last fun fn => .last fun thenBB => ?_
  refine .last fun elseBB => .last fun mergeBB => .last fun _ => .last fun _ => .last fun _ => ?_
  refine .last fun _ => .last fun _ => .last fun _ => ?_
  have hmerge : Comp.Gives (fun v => v = none) (do
      unlessTerminated (createBr mergeBB)
      emit (.insertBlock fn mergeBB)
      emit (.setInsertPoint mergeBB)
      pure (none : Option Value)) := .last fun _ => .last fun _ => .last fun _ => .pure rfl
  exact .ite (fun _ => .last fun _ => hmerge) fun _ => hmerge

lemma gives_codegenCompileTimeJump :
    Comp.Gives (fun v => v = none) (codegenCompileTimeJump P c id) := by
  refine .last fun n => .ite (fun _ => .pure rfl) fun _ => ?_
  refine .last fun fn => .last fun condBB => .last fun bodyBB => .last fun endBB => ?_
  refine .last fun _ => .last fun _ => .last fun cond => .last fun _ => .last fun _ => ?_
  exact .last fun _ => .last fun _ => .last fun _ => .last fun _ => .pure rfl

lemma gives_codegenFunctionDecl :
    Comp.Gives (Loaded P id) (codegenFunctionDecl P c id) := by
  refine .last fun n => .last fun fnName => .last fun retType => .last fun fn => ?_
  refine .last fun _ => .last fun _ => .last fun entryBB => .last fun _ => .last fun _ => ?_
  have hclose : Comp.Gives (Loaded P id) (do
      closeFunction retType
      popScope
      pure (some (Value.function fn))) := .last fun _ => .last fun _ => .pure (loaded_some rfl)
  exact .ite (fun _ => .last fun _ => hclose) fun _ => hclose

/-- A node whose operands are evaluated is behind them, so that the visit of a block among them comes
back to the node: it does not return. -/
lemma not_returns_of_block (hslots : ∀ i, Slots P.tree i) (hroom : P.tree.length ≤ kNullNode)
    {i j : NodeId} {m : Node} (hi : P.tree[i]? = some node) (hkind : node.kind = BinaryExpr)
    (hj : j ∈ node.values) (hm : P.tree[j]? = some m) (hunit : m.kind = TranslationUnit)
    {v : Option Value} : (methods P n).codegen j s ≠ some (.ok (v, t)) := by
  intro h
  have hlti := lt_length hi
  have hltj := lt_length hm
  have hj0 : j ≠ kNullNode := (hltj.trans_le hroom).ne
  have hi0 : i ≠ kNullNode := (hlti.trans_le hroom).ne
  have hask : j ∈ asks P known i node := by simpa [asks, Node.values, hkind] using hj
  have hlt : j < i :=
    ((hslots i).before node hi j (by simpa [Node.operands, Node.values, hkind] using hj)).resolve_left
      hj0
  have hback : i ∈ asks P known j m := by
    rw [asks, hunit]
    exact mem_idsBehind.mpr ⟨hlt, hlti⟩
  have hacc := (visits_of_codegen h).acc j (List.mem_singleton_self j) hj0
  exact not_acc_of_recurses hacc ⟨hi0, m, hm, hback⟩ ⟨hj0, node, hi, hask⟩

/-- **The value of an operand**: there is none exactly if the operand is silent, and it is no slot. -/
lemma gives_operand (hslots : ∀ i, Slots P.tree i) (hroom : P.tree.length ≤ kNullNode)
    (hfold : FoldsToConstants P.host) {i j : NodeId} (hi : P.tree[i]? = some node)
    (hkind : node.kind = BinaryExpr) (hj : j ∈ node.values) :
    Comp.Gives (Loaded P j) ((methods P n).codegen j) := by
  induction n generalizing i j node with
  | zero =>
      intro s v t h
      cases h
  | succ n ih =>
      by_cases hj0 : j = kNullNode
      · intro s v t h
        obtain rfl := codegen_null_ok hj0 h
        exact hj0 ▸ Silent.null
      cases hm : P.tree[j]? with
      | none =>
          intro s v t h
          change codegen P (methods P n) j s = _ at h
          rw [codegen, if_neg hj0, getNode, hm] at h
          cases h
      | some m =>
          by_cases hunit : m.kind = TranslationUnit
          · exact fun s v t h => absurd h (not_returns_of_block hslots hroom hi hkind hj hm hunit)
          have hdecl := (hslots i).noDecl node hi j hj m hm
          have hsilent (h : m.kind ∈ silentKinds) {x : CodegenM (Option Value)}
              (hx : Comp.Gives (fun v => v = none) x) : Comp.Gives (Loaded P j) x := by
            intro s v t hrun
            obtain rfl := hx s v t hrun
            exact Silent.kind hm h
          show Comp.Gives (Loaded P j) (codegen P (methods P n) j)
          rw [codegen_of_kind _ hj0 hm]
          cases hk : m.kind
          case TranslationUnit => exact absurd hk hunit
          case VarDecl => exact absurd hk hdecl
          case FunctionDecl => exact gives_codegenFunctionDecl
          case BinaryExpr =>
            exact gives_codegenBinaryExpr hfold hm hk (ih hm hk (by simp [Node.values, hk]))
              (ih hm hk (by simp [Node.values, hk]))
          case UnaryExpr => exact gives_codegenUnaryExpr hfold hm hk
          case LiteralExpr => exact gives_codegenLiteralExpr hm hk
          case IdentifierExpr => exact gives_codegenIdentifierExpr
          case CallExpr => exact gives_codegenCallExpr
          case EvalExpr => exact hsilent (by simp [silentKinds, hk]) gives_codegenEvalExpr
          case CompileTimeJump =>
            exact hsilent (by simp [silentKinds, hk]) gives_codegenCompileTimeJump
          case TypeDecl =>
            refine hsilent (by simp [silentKinds, hk]) ?_
            exact .last fun _ => .last fun _ => .last fun _ => .last fun _ => .pure rfl
          all_goals exact hsilent (by simp [silentKinds, hk]) (.pure rfl)

/-- A silent node has no value. -/
lemma gives_none (h : Silent P id) :
    Comp.Gives (fun v => v = none) ((methods P n).codegen id) := by
  induction n generalizing id with
  | zero =>
      intro s v t h
      cases h
  | succ n ih =>
      by_cases hid : id = kNullNode
      · exact fun s v t h => codegen_null_ok hid h
      show Comp.Gives _ (codegen P (methods P n) id)
      cases h with
      | null => exact absurd rfl hid
      | kind hnode hkind =>
          rw [codegen_of_kind _ hid hnode]
          simp only [silentKinds, List.mem_cons, List.not_mem_nil, or_false] at hkind
          rcases hkind with hk | hk | hk | hk | hk | hk | hk | hk
          all_goals rw [hk]
          · exact .last fun _ => .last fun _ => .last fun _ => .last fun _ => .pure rfl
          · exact .pure rfl
          · exact .pure rfl
          · exact .pure rfl
          · exact gives_codegenEvalExpr
          · exact .pure rfl
          · exact .pure rfl
          · exact gives_codegenCompileTimeJump
      | literal hnode hkind htype =>
          simp only [List.mem_cons, List.not_mem_nil, or_false, not_or] at htype
          rw [codegen_of_kind _ hid hnode, hkind]
          show Comp.Gives _ (codegenLiteralExpr P id)
          refine .last fun text => ?_
          rw [getNode_eq hnode, pure_bind, literalValue, if_neg htype.1, if_neg htype.2.1,
            if_neg htype.2.2.1, if_neg htype.2.2.2]
          exact .pure rfl
      | unary hnode hkind hop =>
          simp only [List.mem_cons, List.not_mem_nil, or_false, not_or] at hop
          rw [codegen_of_kind _ hid hnode, hkind]
          show Comp.Gives _ (codegenUnaryExpr P _ id)
          rw [codegenUnaryExpr, getNode_eq hnode, pure_bind, if_neg hop.1]
          refine .last fun operand => ?_
          rw [if_neg hop.2.1, if_neg hop.2.2]
          exact .pure rfl
      | lhs hnode hkind h =>
          rw [codegen_of_kind _ hid hnode, hkind]
          show Comp.Gives _ (codegenBinaryExpr P _ id)
          rw [codegenBinaryExpr, getNode_eq hnode, pure_bind]
          refine .bind (ih h) fun l hl => .last fun r => ?_
          rw [hl]
          exact .pure rfl
      | rhs hnode hkind h =>
          rw [codegen_of_kind _ hid hnode, hkind]
          show Comp.Gives _ (codegenBinaryExpr P _ id)
          rw [codegenBinaryExpr, getNode_eq hnode, pure_bind]
          refine .last fun l => .bind (ih h) fun r hr => ?_
          rw [hr]
          cases l <;> exact .pure rfl

/-- **When an assignment to what is no variable throws**: when its left side throws, or returns and is
not silent. -/
lemma throws_iff_not_silent {u : Syn (Cat.list Cat.stmt)} (hparse : Parses P.source P.tree u)
    (hfold : FoldsToConstants P.host) (h : IsAssignment P id node) (hrhs : Generates P n s node) :
    Throws P n s id node ↔
      (∃ e, e ≠ .crash ∧ (methods P n).codegen node.data.lhs s = some (.error e)) ∨
        ¬ Silent P node.data.lhs ∧
          ∃ l t, (methods P n).codegen node.data.lhs s = some (.ok (l, t)) := by
  have hgives : Comp.Gives (Loaded P node.data.lhs) ((methods P n).codegen node.data.lhs) :=
    gives_operand hparse.slots hparse.room hfold h.found h.kind (by simp [Node.values, h.kind])
  rw [throws_iff h hrhs]
  refine or_congr_right ⟨?_, ?_⟩
  · rintro ⟨l, t, hl, -⟩
    refine ⟨fun hsilent => ?_, some l, t, hl⟩
    exact Option.some_ne_none l (gives_none hsilent _ _ _ hl)
  · rintro ⟨hsilent, l, t, hl⟩
    have hloaded := hgives _ _ _ hl
    cases l with
    | none => exact absurd hloaded hsilent
    | some l => exact ⟨l, t, hl, hloaded⟩

/-- **Assignments.**  With a right-hand side that generates a value, an assignment to a name does what
the declaration of the name allows exactly if this is no local variable to be assigned to, nor a constant
without a value.  In a parsed source an assignment to anything else throws exactly if the left side throws
by itself, or it returns and is no node that gives a null pointer. -/
theorem assignment_iff (h : IsAssignment P id node) (hrhs : Generates P (n + 1) s node) :
    (∀ x, IsName P node.data.lhs x →
      (AssignsVariable P (n + 1) s id node x ↔ NoTarget s x)) ∧
    ∀ u, Parses P.source P.tree u → FoldsToConstants P.host →
      (∀ x, ¬ IsName P node.data.lhs x) → (Throws P (n + 1) s id node ↔
        (∃ e, e ≠ .crash ∧ (methods P (n + 1)).codegen node.data.lhs s = some (.error e)) ∨
          ¬ Silent P node.data.lhs ∧
            ∃ l t, (methods P (n + 1)).codegen node.data.lhs s = some (.ok (l, t))) :=
  ⟨fun _ hx => assignsVariable_iff h hx hrhs,
    fun _ hparse hfold _ => throws_iff_not_silent hparse hfold h hrhs⟩

/-- The nodes that the parser makes of a variable, in a function that stays open, and an assignment
to it. -/
def variableAssigned : Program where
  tree := functionThenVariable.tree ++
    [⟨.IdentifierExpr, {}, 16, 1, Data.literal .Ident 0⟩,
      ⟨.LiteralExpr, {}, 18, 1, Data.literal .LInt 0⟩,
      plainNode .BinaryExpr 17 (Data.binary .Equals 7 8)]
  source := bytes "byte f();byte x;x=1;"
  host := silentHost

lemma variableAssigned_isAssignment :
    IsAssignment variableAssigned 9 (plainNode .BinaryExpr 17 (Data.binary .Equals 7 8)) :=
  ⟨by decide, rfl, rfl, rfl⟩

lemma variableAssigned_isName : IsName variableAssigned 7 (bytes "x") :=
  ⟨by decide, ⟨_, rfl, rfl⟩, fun _ => rfl⟩

lemma variableAssigned_generates (s : Compiler) :
    Generates variableAssigned 1 s (plainNode .BinaryExpr 17 (Data.binary .Equals 7 8)) :=
  fun _ t _ => ⟨_, t, rfl⟩

/-- **A local variable is not assigned to.** -/
theorem not_assigned_sample :
    Parser.parse variableAssigned.source 20 = some (.ok variableAssigned.tree) ∧
      ∃ s t, codegenFunctionDecl variableAssigned (methods variableAssigned 1) 3 {} =
          some (.ok (some (.function 0), s)) ∧
        codegenVarDecl variableAssigned (methods variableAssigned 1) 4 s =
          some (.ok (some (.alloca 1), t)) ∧
        ¬ AssignsVariable variableAssigned 1 t 9
          (plainNode .BinaryExpr 17 (Data.binary .Equals 7 8)) (bytes "x") := by
  refine ⟨by decide +kernel, _, _, rfl, rfl, fun h => ?_⟩
  have hno := (assignsVariable_iff variableAssigned_isAssignment variableAssigned_isName
    (variableAssigned_generates _)).mp h _ rfl
  exact hno 1 rfl

/-- A number on the left side. -/
def numberAssigned : Program where
  tree := [default, ⟨LiteralExpr, {}, 0, 1, Data.literal LInt 0⟩,
    ⟨LiteralExpr, {}, 2, 1, Data.literal LInt 0⟩, plainNode BinaryExpr 1 (Data.binary Equals 1 2)]
  source := bytes "1=2;"
  host := silentHost

lemma numberAssigned_left (s : Compiler) : (methods numberAssigned 2).codegen 1 s =
    some (.ok (some (.constant (.int .int32 1)), s)) := rfl

/-- An assignment to a constant is refused, and so is one to a number. -/
theorem assignment_sample :
    (let s : Compiler :=
      { scopes := [{ symbols := fun _ => some ⟨some (.constant (.int .int32 0)), .int32, true, true⟩ }] }
    AssignsVariable variableAssigned 1 s 9 (plainNode .BinaryExpr 17 (Data.binary .Equals 7 8))
      (bytes "x")) ∧
    Parser.parse numberAssigned.source 20 = some (.ok numberAssigned.tree) ∧
    Throws numberAssigned 2 {} 3 (plainNode BinaryExpr 1 (Data.binary Equals 1 2)) := by
  have hparse : Parser.parse numberAssigned.source 20 = some (.ok numberAssigned.tree) := by
    decide +kernel
  refine ⟨?_, hparse, ?_⟩
  · intro s
    refine ((assignment_iff variableAssigned_isAssignment (variableAssigned_generates s)).1 _
      variableAssigned_isName).mpr ?_
    rintro sym ⟨⟩
    exact ⟨by decide, nofun⟩
  · rcases Parser.accepts_unit (Parser.accepts_of_parse hparse) with ⟨u, hu⟩
    have hassign : IsAssignment numberAssigned 3 (plainNode BinaryExpr 1 (Data.binary Equals 1 2)) :=
      ⟨by decide, rfl, rfl, rfl⟩
    have hfold : FoldsToConstants numberAssigned.host :=
      ⟨fun op lhs rhs v h => (by cases h), fun op operand v h => by cases h⟩
    have hname (x : List Byte) : ¬ IsName numberAssigned 1 x := by
      rintro ⟨-, ⟨m, hm, hkind⟩, -⟩
      obtain rfl := Option.some.inj hm
      cases hkind
    have hloud : ¬ Silent numberAssigned 1 := by
      intro h
      cases h with
      | kind hnode h | literal hnode _ h | unary hnode h | lhs hnode h | rhs hnode h =>
          obtain rfl := Option.some.inj hnode
          simp [silentKinds] at h
    exact ((assignment_iff hassign fun _ t _ => ⟨_, t, rfl⟩).2 u hu hfold hname).mpr
      (.inr ⟨hloud, _, _, numberAssigned_left {}⟩)

end Compiler

end LogicCompiler
