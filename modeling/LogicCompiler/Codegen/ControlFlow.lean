import LogicCompiler.Codegen.Recursion

/-!
# The graphs of emitted functions

What `codegenFunctionDecl` leaves behind, seen as a control-flow graph.  Returns, conditionals and the
epilogue keep the graph well-formed, in whatever way they are nested.  A loop puts its last block into the
function a second time, which breaks the list of the function for good, and a function inside another one
leaves the block of the outer function open; so the graph is well-formed exactly if the visits come to
neither (`wellFormed_iff`).
-/

namespace LogicCompiler

open TokenType NodeKind Cat LLVM Fuel LogicCompiler.Parser

namespace Compiler

variable {P : Program} {s t u : Compiler} {i j : ℕ} {n : Node} {ids : List NodeId} {f : FunctionId}
  {b c : BlockId} {m : Module}

/-! ## The modules behind the states -/

/-- What operations leave behind depends on the module only. -/
lemma module_of_ops {ops : List BuilderOp} (h : t.ops = s.ops ++ ops) :
    t.module = ops.foldl Module.exec s.module := by
  rw [module, h, Module.build, List.foldl_append]
  rfl

lemma module_movedTo : (s.movedTo f b).module = s.module.moveTo f b := by
  rw [movedTo, module_issue, module_issue]
  rfl

lemma module_branched {cond : Option Value} : (s.branched f cond).module =
    ((((s.module.exec (.createBlock "then" (some f))).exec (.createBlock "else" none)).exec
      (.createBlock "ifcont" none)).exec (.append (.condBr cond s.module.blocks.length
        (s.module.blocks.length + 1)))).exec (.setInsertPoint s.module.blocks.length) := by
  simp only [branched, module_issue]

lemma module_looped : (s.looped f).module =
    ((((s.module.exec (.createBlock "loop.cond" (some f))).exec
      (.createBlock "loop.body" (some f))).exec (.createBlock "loop.end" (some f))).exec
        (.append (.br s.module.blocks.length))).exec (.setInsertPoint s.module.blocks.length) := by
  simp only [looped, module_issue]

lemma module_entered {name : List Byte} {type : IRType} : (s.entered i name type).module =
    ((s.module.exec (.createFunction name type [])).exec
      (.createBlock "entry" (some s.module.functions.length))).exec
        (.setInsertPoint s.module.blocks.length) := by
  have hcreated : (s.issue (.createFunction name type [])).module =
      s.module.exec (.createFunction name type []) := module_issue _ _
  have hlength : (s.issue (.createFunction name type [])).module.blocks.length =
      s.module.blocks.length := by
    rw [hcreated]
    rfl
  rw [← hcreated, ← hlength]
  exact @module_of_ops (s.issue (.createFunction name type [])) (s.entered i name type) [_, _]
    (List.append_assoc _ [_] [_])

/-- A block that has ended is not ended again. -/
lemma closed_module (i : Instruction) : (s.closed i).module = s.module ∨
    (s.closed i).module = s.module.exec (.append i) := by
  rw [closed]
  split
  · split_ifs
    · exact .inl rfl
    · exact .inr (module_issue _ _)
  · exact .inl rfl

/-! ## Away from the insertion point -/

/-- A terminator goes to the insertion point. -/
lemma beyond_closed (h : Module.Beyond m s.module) (i : Instruction) :
    Module.Beyond m (s.closed i).module := by
  rcases closed_module (s := s) i with heq | heq
  · rwa [heq]
  · rw [heq]
    exact h.exec _ trivial

lemma beyond_movedTo (h : Module.Beyond m s.module) (hb : m.blocks.length ≤ b) :
    Module.Beyond m (s.movedTo f b).module := by
  rw [module_movedTo]
  exact (h.exec (.insertBlock f b) hb).exec (.setInsertPoint b) hb

/-- An operation that does not go back to older blocks. -/
lemma beyond_issue (h : Module.Beyond m s.module) (op : BuilderOp) (hop : op.Past m.blocks.length) :
    Module.Beyond m (s.issue op).module := by
  rw [module_issue]
  exact h.exec op hop

/-- A function is built behind what is there. -/
lemma beyond_entered {name : List Byte} {type : IRType} :
    Module.Beyond s.module (s.entered i name type).module := by
  rw [module_entered]
  exact (((Module.Beyond.refl _).exec (.createFunction name type []) trivial).exec (.createBlock _ _)
    trivial).exec (.setInsertPoint _) le_rfl

lemma beyond_branched {cond : Option Value} : Module.Beyond s.module (s.branched f cond).module := by
  rw [module_branched]
  exact (((((Module.Beyond.refl _).exec (.createBlock _ _) trivial).exec (.createBlock _ _) trivial).exec
    (.createBlock _ _) trivial).exec (.append _) trivial).exec (.setInsertPoint _) le_rfl

lemma beyond_looped : Module.Beyond s.module (s.looped f).module := by
  rw [module_looped]
  exact (((((Module.Beyond.refl _).exec (.createBlock _ _) trivial).exec (.createBlock _ _) trivial).exec
    (.createBlock _ _) trivial).exec (.append _) trivial).exec (.setInsertPoint _) le_rfl

/-- Straight work stays at the insertion point. -/
lemma Finishes.beyond (h : Finishes P n s t) : Module.Beyond s.module t.module := by
  obtain ⟨ops, hops, hplain⟩ := h.ops
  rw [module_of_ops hops]
  exact (Module.Beyond.refl _).foldl_exec fun op hop => (hplain op hop).past _

/-- What comes behind the condition of a conditional. -/
lemma beyond_conditional {w : Compiler} {v : Option Value} {x y : Instruction}
    (hthen : Module.Beyond (t.branched f v).module u.module)
    (helse : Module.Beyond ((u.closed x).movedTo f (t.module.blocks.length + 1)).module w.module) :
    Module.Beyond t.module ((w.closed y).movedTo f (t.module.blocks.length + 2)).module := by
  have hleft := beyond_closed (beyond_branched.trans hthen) x
  have hright := (beyond_movedTo hleft (Nat.le_succ _)).trans helse
  exact beyond_movedTo (beyond_closed hright y) (Nat.le_add_right _ _)

/-- **A visit leaves the blocks alone that are neither its own nor that of the insertion point.** -/
lemma Visits.beyond (h : Visits P ids s t) : Module.Beyond s.module t.module := by
  induction h with
  | nil | null => exact .refl _
  | cons h hrest ih ihrest => exact ih.trans ihrest
  | plain hid hnode hkind hname hcall hasks hrest ih => exact ih.trans hrest.beyond
  | returns hid hnode hkind hop hoperand ih => exact beyond_issue ih _ trivial
  | unit hid hnode hkind hasks ih =>
      rw [module_popped]
      exact ih
  | function hid hnode hkind hbody hpoint ih =>
      rw [module_popped]
      exact beyond_closed (beyond_entered.trans ih) _
  | conditional hid hnode hkind hcond hblock hparent hthen hu helse hw ihc iht ihe =>
      exact ihc.trans (beyond_conditional iht ihe)
  | @loop i n s t u v b f hid hnode hkind hop hblock hparent hcond hbody ihc ihb =>
      have hcond := beyond_issue (beyond_looped.trans ihc) (.append (.condBr v (s.module.blocks.length + 1)
        (s.module.blocks.length + 2))) trivial
      have hbody := (beyond_issue hcond (.setInsertPoint _) (Nat.le_succ _)).trans ihb
      exact beyond_movedTo (beyond_issue hbody (.append _) trivial) (Nat.le_add_right _ _)

/-! ## The blocks of one function -/

section Building

variable {v : Instruction}

/-- The block of the insertion point is open. -/
structure Open (s : Compiler) (f : FunctionId) (b : BlockId) : Prop where
  building : s.module.Building f b
  code : OpenCode (s.module.code b)

/-- The block of the insertion point is complete. -/
structure Closed (s : Compiler) (f : FunctionId) (b : BlockId) : Prop where
  building : s.module.Building f b
  code : ClosedCode (s.module.code b)

/-- Straight work leaves an open block open. -/
lemma Open.finishes (h : Open s f b) (ht : Finishes P n s t) : Open t f b := by
  obtain ⟨ops, hops, hplain⟩ := ht.ops
  obtain ⟨hbuilding, hcode⟩ := h.building.foldl_plain h.code hplain
  rw [← module_of_ops hops] at hbuilding hcode
  exact ⟨hbuilding, hcode⟩

/-- A terminator closes an open block. -/
lemma Open.terminate (h : Open s f b) (hv : v.isTerminator = true) :
    Closed (s.issue (.append v)) f b := by
  constructor
  · rw [module_issue]
    exact h.building.append v
  · rw [module_issue, h.building.code_append]
    exact h.code.close hv

lemma Open.closed (h : Open s f b) (hv : v.isTerminator = true) : Closed (s.closed v) f b := by
  rw [Compiler.closed, h.building.point]
  simp only [Module.hasTerminator_of_open h.code]
  exact h.terminate hv

/-- A closed block stays as it is. -/
lemma Closed.closed (h : Closed s f b) : Closed (s.closed v) f b := by
  rw [Compiler.closed, h.building.point]
  simp only [Module.hasTerminator_of_closed h.code, if_true]
  exact h

/-- A pending block is open when the builder comes to it. -/
lemma Closed.movedTo (h : Closed s f b) (hc : s.module.Pending c) : Open (s.movedTo f c) f c := by
  constructor
  · rw [module_movedTo]
    exact h.building.moveTo h.code hc
  · rw [module_movedTo, Module.code_moveTo]
    exact hc.open_code

lemma Open.branched (h : Open s f b) (cond : Option Value) :
    let k := s.module.blocks.length
    Open (s.branched f cond) f k ∧ (s.branched f cond).module.Pending (k + 1) ∧
      (s.branched f cond).module.Pending (k + 2) := by
  intro k
  obtain ⟨hbuilding, hcode, helse, hmerge⟩ := h.building.branch h.code cond "then" "else" "ifcont"
  refine ⟨⟨?_, ?_⟩, ?_, ?_⟩
  all_goals rw [module_branched]
  · exact hbuilding
  · exact hcode
  · exact helse
  · exact hmerge

/-- A function inside another one leaves the block around it open. -/
lemma Open.entered (h : Open s f b) (name : List Byte) (type : IRType) :
    (s.entered i name type).module.Spoilt f := by
  have hb := h.building.lt
  refine .of_left h.building h.code beyond_entered ?_ ?_
  · rw [module_entered]
    exact Module.code_createBlock (s.module.exec (.createFunction name type [])) _ _ _
  · rw [module_entered]
    rintro ⟨⟩
    exact absurd hb (Nat.lt_irrefl _)

end Building

/-! ## Loops -/

/-- The body of a loop and the block behind it are in the function from the beginning. -/
lemma joined_looped (hs : s.module.Sound) (hf : f < s.module.functions.length) :
    (s.looped f).module.Joined f (s.module.blocks.length + 1) (s.module.blocks.length + 2) := by
  let created := s.module.exec (.createBlock "loop.cond" (some f))
  have hlength : created.blocks.length = s.module.blocks.length + 1 :=
    Module.blocks_length_createBlock s.module "loop.cond" (some f)
  have hcreated : f < created.functions.length :=
    hf.trans_eq (Module.functions_length_createBlock _ _ _).symm
  have hjoined := ((Module.Joined.create (hs.createBlock _ hf) hcreated "loop.body" "loop.end").same
    (.append _ (.br s.module.blocks.length))).same (.setInsertPoint _ s.module.blocks.length)
  rw [hlength] at hjoined
  rw [module_looped]
  exact hjoined

/-- They stay where they are while the loop is visited, up to where the last block is put into the function
again. -/
lemma joined_visited {cond : Option Value} (hs : s.module.Sound) (hf : f < s.module.functions.length)
    (hcond : Visits P [i] (s.looped f) t)
    (hbody : Visits P [j] ((t.issue (.append (.condBr cond (s.module.blocks.length + 1)
      (s.module.blocks.length + 2)))).issue (.setInsertPoint (s.module.blocks.length + 1))) u) :
    (u.issue (.append (.br s.module.blocks.length))).module.Joined f (s.module.blocks.length + 1)
      (s.module.blocks.length + 2) := by
  have hentered : ((t.issue (.append (.condBr cond (s.module.blocks.length + 1)
      (s.module.blocks.length + 2)))).issue (.setInsertPoint (s.module.blocks.length + 1))).module.Joined
        f (s.module.blocks.length + 1) (s.module.blocks.length + 2) := by
    rw [module_issue, module_issue]
    exact (((joined_looped hs hf).beyond hcond.beyond).same (.append _ _)).same (.setInsertPoint _ _)
  rw [module_issue]
  exact (hentered.beyond hbody.beyond).same (.append _ _)

/-! ## What the visits come to -/

/-- The visit of a node comes to a function or to a loop. -/
inductive Meets (P : Program) (lookupFunc : List Byte → Option FunctionInfo) : NodeId → Prop
  | function {i : NodeId} {n : Node} (hid : i ≠ kNullNode) (hnode : P.tree[i]? = some n)
      (hkind : n.kind = FunctionDecl) : Meets P lookupFunc i
  | loop {i : NodeId} {n : Node} (hid : i ≠ kNullNode) (hnode : P.tree[i]? = some n)
      (hkind : n.kind = CompileTimeJump)
      (hop : ¬ (n.data.op = kBreak.code ∨ n.data.op = kContinue.code)) : Meets P lookupFunc i
  | operand {i j : NodeId} {n : Node} (hid : i ≠ kNullNode) (hnode : P.tree[i]? = some n)
      (hj : j ∈ asks P lookupFunc i n) (h : Meets P lookupFunc j) : Meets P lookupFunc i

/-- No argument of a call is a block. -/
def PlainArguments (tree : ASTTree) : Prop :=
  ∀ (i : NodeId) (n m : Node), tree[i]? = some n → n.kind = CallExpr → tree[n.data.argsList]? = some m →
    m.kind ≠ TranslationUnit

/-- Only the nodes of the arena have to be looked at. -/
lemma plainArguments_of_forall {tree : ASTTree}
    (h : ∀ i < tree.length, ∀ n ∈ tree[i]?, n.kind = CallExpr →
      ∀ m ∈ tree[n.data.argsList]?, m.kind ≠ TranslationUnit) : PlainArguments tree :=
  fun i n m hn hkind hm => h i (List.getElem?_eq_some_iff.mp hn).1 n hn hkind m hm

/-- Apart from calls, every node asks for the same in any scope. -/
lemma known_of_asks {lookup : List Byte → Option FunctionInfo} (hkind : n.kind ≠ CallExpr)
    (h : j ∈ asks P lookup i n) : j ∈ asks P known i n := by
  cases hk : n.kind
  all_goals simp only [asks, hk] at h ⊢
  case CallExpr => exact absurd hk hkind
  all_goals exact h

/-- A call asks for nothing but its first argument. -/
lemma args_of_asks {lookup : List Byte → Option FunctionInfo} (hkind : n.kind = CallExpr)
    (h : j ∈ asks P lookup i n) : j = n.data.argsList := by
  have h := unknown_of_asks h
  rw [asks, hkind] at h
  exact List.mem_singleton.mp h

/-- Where a value is asked for. -/
lemma mem_values {lookup : List Byte → Option FunctionInfo} (hplain : n.IsPlain)
    (h : j ∈ asks P lookup i n) : j ∈ n.values := by
  cases hk : n.kind
  case CallExpr =>
    rw [args_of_asks hk h, Node.values, hk]
    exact List.mem_singleton_self _
  all_goals
    simp only [asks, Node.values, Node.IsPlain, hk] at h hplain ⊢
  case VarDecl =>
    split_ifs at h
    · cases h
    · exact h
  case CompileTimeJump => rw [if_pos hplain] at h; cases h
  all_goals exact h

section Outcome

variable (hslots : ∀ i, Slots P.tree i) (hroom : P.tree.length ≤ kNullNode)
  (hargs : PlainArguments P.tree)

/-- No node among `ids` is a block. -/
def NoBlocks (P : Program) (ids : List NodeId) : Prop :=
  ∀ i ∈ ids, ∀ m, P.tree[i]? = some m → m.kind ≠ TranslationUnit

/-- No node among `ids` is a `return`. -/
def NoReturns (P : Program) (ids : List NodeId) : Prop :=
  ∀ i ∈ ids, ∀ m, P.tree[i]? = some m → ¬ m.Returns

include hslots hroom hargs in
/-- The operands of a node that is visited are no blocks: the visit of a block does not return. -/
lemma noBlocks_of_asks {lookup : List Byte → Option FunctionInfo} (hnode : P.tree[i]? = some n)
    (hkind : n.kind ≠ TranslationUnit) (hids : ∀ j ∈ ids, j ∈ asks P lookup i n)
    (h : Visits P ids s t) : NoBlocks P ids := by
  intro j hj m hm hunit
  by_cases hcall : n.kind = CallExpr
  · rw [args_of_asks hcall (hids j hj)] at hm
    exact hargs i n m hnode hcall hm hunit
  · have hj0 : j ≠ kNullNode := ((lt_length hm).trans_le hroom).ne
    have hlt : j < i :=
      ((hslots i).before n hnode j (mem_operands hkind (unknown_of_asks (hids j hj)))).resolve_left hj0
    have hback : i ∈ asks P known j m := by
      rw [asks, hunit]
      exact mem_idsBehind.mpr ⟨hlt, lt_length hnode⟩
    exact not_acc_of_recurses (h.acc j hj hj0) ⟨((lt_length hnode).trans_le hroom).ne, m, hm, hback⟩
      ⟨hj0, n, hnode, known_of_asks hcall (hids j hj)⟩

/-- How the visits of `ids` end when they begin in an open block of `f`. -/
inductive Outcome (P : Program) (f : FunctionId) (ids : List NodeId) (s t : Compiler) : Prop
  | built {b : BlockId} (hmeets : ∀ i ∈ ids, ¬ Meets P s.lookupFunc i)
      (hfuncs : t.lookupFunc = s.lookupFunc) (h : Open t f b ∨ Closed t f b ∧ ¬ NoReturns P ids)
  | spoilt {i : NodeId} (hi : i ∈ ids) (hmeets : Meets P s.lookupFunc i) (h : t.module.Spoilt f)

/-- No node stands behind the null id. -/
lemma not_meets_null {lookup : List Byte → Option FunctionInfo} : ¬ Meets P lookup kNullNode := by
  intro h
  cases h with
  | function hid | loop hid | operand hid => exact hid rfl

/-- A node that breaks nothing itself. -/
lemma not_meets {lookup : List Byte → Option FunctionInfo} (hnode : P.tree[i]? = some n)
    (hfunction : n.kind ≠ FunctionDecl)
    (hloop : n.kind = CompileTimeJump → n.data.op = kBreak.code ∨ n.data.op = kContinue.code)
    (h : ∀ j ∈ asks P lookup i n, ¬ Meets P lookup j) : ¬ Meets P lookup i := by
  intro hmeets
  cases hmeets with
  | function _ hn hkind =>
      obtain rfl := Option.some.inj (hnode.symm.trans hn)
      exact hfunction hkind
  | loop _ hn hkind hop =>
      obtain rfl := Option.some.inj (hnode.symm.trans hn)
      exact hop (hloop hkind)
  | operand _ hn hj hmeets =>
      obtain rfl := Option.some.inj (hnode.symm.trans hn)
      exact h _ hj hmeets

/-- Where no node is a `return`, the block is still open. -/
lemma open_of_noReturns {b : BlockId} (h : Open t f b ∨ Closed t f b ∧ ¬ NoReturns P ids)
    (hids : NoReturns P ids) : Open t f b := h.resolve_right fun hclosed => hclosed.2 hids

/-- Behind a part of either kind, a terminator closes the block. -/
lemma closed_of_built {b : BlockId} {v : Instruction}
    (h : Open t f b ∨ Closed t f b ∧ ¬ NoReturns P ids) (hv : v.isTerminator = true) :
    Closed (t.closed v) f b := h.elim (fun hopen => hopen.closed hv) fun hclosed => hclosed.1.closed

lemma lookupFunc_closed {v : Instruction} : (s.closed v).lookupFunc = s.lookupFunc := by
  rw [closed]
  split
  · split_ifs
    · rfl
    · rfl
  · rfl

include hslots in
/-- A node that does not return has no part that returns. -/
lemma noReturns_of_values (hnode : P.tree[i]? = some n) (hids : ∀ j ∈ ids, j ∈ n.values) :
    NoReturns P ids := fun j hj m hm => (hslots i).noReturn n hnode j (hids j hj) m hm

/-- The branches of a conditional, from the open block of the condition to that behind it. -/
lemma outcome_branches {w : Compiler} {v : Option Value} {x y : Instruction} (ht : Open t f b)
    (hx : x.isTerminator = true) (hy : y.isTerminator = true)
    (hbeyond : Module.Beyond (t.branched f v).module u.module)
    (hthen : Outcome P f [i] (t.branched f v) u)
    (hbeyond' : Module.Beyond ((u.closed x).movedTo f (t.module.blocks.length + 1)).module w.module)
    (helse : ∀ {b}, Open ((u.closed x).movedTo f (t.module.blocks.length + 1)) f b →
      Outcome P f [j] ((u.closed x).movedTo f (t.module.blocks.length + 1)) w) :
    ¬ Meets P t.lookupFunc i ∧ ¬ Meets P t.lookupFunc j ∧
        ((w.closed y).movedTo f (t.module.blocks.length + 2)).lookupFunc = t.lookupFunc ∧
        Open ((w.closed y).movedTo f (t.module.blocks.length + 2)) f (t.module.blocks.length + 2) ∨
      (Meets P t.lookupFunc i ∨ Meets P t.lookupFunc j) ∧
        ((w.closed y).movedTo f (t.module.blocks.length + 2)).module.Spoilt f := by
  obtain ⟨-, hpelse, hpmerge⟩ := ht.branched v
  have hclose {s : Compiler} {z : Instruction} : Module.Beyond s.module (s.closed z).module :=
    beyond_closed (.refl _) z
  -- the other branch and the block behind both wait for their places
  have hpelse := (hpelse.beyond hbeyond).beyond (hclose (z := x))
  have hpmerge := (hpmerge.beyond hbeyond).beyond (hclose (z := x))
  have hpmerge := hpmerge.moveTo (f := f) (c := t.module.blocks.length + 1)
    (Nat.ne_of_lt (Nat.lt_succ_self _))
  rw [← module_movedTo] at hpmerge
  have hpmerge := (hpmerge.beyond hbeyond').beyond (hclose (z := y))
  have hspoilt (h : w.module.Spoilt f) :
      ((w.closed y).movedTo f (t.module.blocks.length + 2)).module.Spoilt f := by
    rw [module_movedTo]
    exact (h.beyond hclose).moveTo hpmerge
  cases hthen with
  | spoilt hi hmeets hleft =>
      refine .inr ⟨.inl (List.mem_singleton.mp hi ▸ hmeets), hspoilt (Module.Spoilt.beyond ?_ hbeyond')⟩
      rw [module_movedTo]
      exact (hleft.beyond hclose).moveTo hpelse
  | built hmeets hfuncs hstate =>
      have hopen := (closed_of_built hstate hx).movedTo hpelse
      have hfuncs : ((u.closed x).movedTo f (t.module.blocks.length + 1)).lookupFunc = t.lookupFunc :=
        (lookupFunc_closed (s := u)).trans hfuncs
      cases helse hopen with
      | spoilt hj hmeets' hright =>
          rw [List.mem_singleton.mp hj, hfuncs] at hmeets'
          exact .inr ⟨.inr hmeets', hspoilt hright⟩
      | built hmeets' hfuncs' hstate' =>
          rw [hfuncs] at hmeets' hfuncs'
          exact .inl ⟨hmeets i (List.mem_singleton_self i), hmeets' j (List.mem_singleton_self j),
            (lookupFunc_closed (s := w)).trans hfuncs', (closed_of_built hstate' hy).movedTo hpmerge⟩

/-- Parts one behind the other, the first of which lets the visit go on. -/
lemma Outcome.cons (hfirst : Outcome P f [i] s t) (hbeyond : Module.Beyond t.module u.module)
    (hrest : ∀ b, Open t f b → Outcome P f ids t u) (hreturns : NoReturns P (i :: ids)) :
    Outcome P f (i :: ids) s u := by
  cases hfirst with
  | spoilt hi hmeets hspoilt =>
      exact .spoilt (List.mem_singleton.mp hi ▸ List.mem_cons_self) hmeets (hspoilt.beyond hbeyond)
  | built hmeets hfuncs hstate =>
      have hopen := open_of_noReturns hstate fun k hk =>
        hreturns k (List.mem_singleton.mp hk ▸ List.mem_cons_self)
      cases hrest _ hopen with
      | spoilt hi hmeets hspoilt =>
          exact .spoilt (List.mem_cons_of_mem _ hi) (hfuncs ▸ hmeets) hspoilt
      | built hmeets' hfuncs' hstate' =>
          rw [hfuncs] at hmeets' hfuncs'
          have hlast := open_of_noReturns hstate' fun k hk => hreturns k (List.mem_cons_of_mem _ hk)
          refine .built (fun k hk => ?_) hfuncs' (.inl hlast)
          rcases List.mem_cons.mp hk with rfl | hk
          · exact hmeets k (List.mem_singleton_self k)
          · exact hmeets' k hk

/-- A conditional breaks the list of the function exactly if one of its parts does. -/
lemma outcome_conditional (hid : i ≠ kNullNode) (hnode : P.tree[i]? = some n) (hkind : n.kind = EvalExpr)
    (hcond : ¬ Meets P s.lookupFunc n.data.cond)
    (hends : ¬ Meets P s.lookupFunc n.data.thenBlock ∧ ¬ Meets P s.lookupFunc n.data.elseBlock ∧
        u.lookupFunc = s.lookupFunc ∧ Open u f b ∨
      (Meets P s.lookupFunc n.data.thenBlock ∨ Meets P s.lookupFunc n.data.elseBlock) ∧
        u.module.Spoilt f) : Outcome P f [i] s u := by
  have hasks : asks P s.lookupFunc i n = [n.data.cond, n.data.thenBlock, n.data.elseBlock] := by
    simp [asks, hkind]
  have hfound {j : NodeId} (hj : j ∈ asks P s.lookupFunc i n) (hmeets : Meets P s.lookupFunc j) :
      Meets P s.lookupFunc i := .operand hid hnode hj hmeets
  rcases hends with ⟨hthen, helse, hfuncs, hopen⟩ | ⟨hmeets, hspoilt⟩
  · refine .built (fun k hk => ?_) hfuncs (.inl hopen)
    rw [List.mem_singleton.mp hk]
    refine not_meets hnode (by simp [hkind]) (by simp [hkind]) fun j hj => ?_
    simp only [hasks, List.mem_cons, List.not_mem_nil, or_false] at hj
    rcases hj with rfl | rfl | rfl
    · exact hcond
    · exact hthen
    · exact helse
  · exact .spoilt (List.mem_singleton_self i)
      (hmeets.elim (hfound (by simp [hasks])) (hfound (by simp [hasks]))) hspoilt

include hslots hroom hargs in
/-- **What becomes of a function while a part of its body is visited.** -/
lemma Visits.outcome (h : Visits P ids s t) (hs : Open s f b) (hblocks : NoBlocks P ids)
    (hreturns : NoReturns P ids ∨ ids.length ≤ 1) : Outcome P f ids s t := by
  induction h generalizing f b with
  | nil s => exact .built (fun i hi => absurd hi List.not_mem_nil) rfl (.inl hs)
  | @cons i ids s t u h hrest ih ihrest =>
      have hpart {l : List NodeId} (hl : ∀ k ∈ l, k ∈ i :: ids) : NoBlocks P l :=
        fun k hk => hblocks k (hl k hk)
      have hfirst := ih hs (hpart fun k hk => List.mem_singleton.mp hk ▸ List.mem_cons_self) (.inr le_rfl)
      rcases hreturns with hreturns | hone
      · refine hfirst.cons hrest.beyond (fun b hopen => ?_) hreturns
        exact ihrest hopen (hpart fun k hk => List.mem_cons_of_mem _ hk)
          (.inl fun k hk => hreturns k (List.mem_cons_of_mem _ hk))
      · -- nothing comes behind a single part
        obtain rfl := List.length_eq_zero_iff.mp (Nat.le_zero.mp (Nat.le_of_succ_le_succ hone))
        cases hrest
        exact hfirst
  | null s =>
      refine .built (fun i hi => ?_) rfl (.inl hs)
      rw [List.mem_singleton.mp hi]
      exact not_meets_null
  | @plain i n s t u hid hnode hkind hname hcall hasks hrest ih =>
      have hunit : n.kind ≠ TranslationUnit := by
        intro hunit
        rw [Node.IsPlain, hunit] at hkind
        exact hkind
      have hreturns : NoReturns P (asks P s.lookupFunc i n) :=
        noReturns_of_values hslots hnode fun j hj => mem_values hkind hj
      have hoperands := ih hs (noBlocks_of_asks hslots hroom hargs hnode hunit (fun _ hj => hj) hasks)
        (.inl hreturns)
      cases hoperands with
      | spoilt hj hmeets hspoilt =>
          exact .spoilt (List.mem_singleton_self i) (.operand hid hnode hj hmeets)
            (hspoilt.beyond hrest.beyond)
      | built hmeets hfuncs hstate =>
          refine .built (fun k hk => ?_) (hrest.funcs.trans hfuncs)
            (.inl ((open_of_noReturns hstate hreturns).finishes hrest))
          rw [List.mem_singleton.mp hk]
          refine not_meets hnode (fun hfunction => ?_) (fun hjump => ?_) hmeets
          · rw [Node.IsPlain, hfunction] at hkind
            exact hkind
          · rwa [Node.IsPlain, hjump] at hkind
  | @returns i n s t v hid hnode hkind hop hoperand ih =>
      have hasks : asks P s.lookupFunc i n = [n.data.operand] := by simp [asks, hkind]
      have hreturns : NoReturns P [n.data.operand] :=
        noReturns_of_values hslots hnode fun j hj => by simpa [Node.values, hkind] using hj
      have hblocks := noBlocks_of_asks hslots hroom hargs hnode (by simp [hkind])
        (fun j hj => hasks ▸ hj) hoperand
      cases ih hs hblocks (.inl hreturns) with
      | spoilt hj hmeets hspoilt =>
          refine .spoilt (List.mem_singleton_self i) (.operand hid hnode (hasks ▸ hj) hmeets) ?_
          exact hspoilt.beyond (beyond_issue (.refl _) _ trivial)
      | built hmeets hfuncs hstate =>
          refine .built (fun k hk => ?_) hfuncs
            (.inr ⟨(open_of_noReturns hstate hreturns).terminate rfl, fun hno => ?_⟩)
          · rw [List.mem_singleton.mp hk]
            exact not_meets hnode (by simp [hkind]) (by simp [hkind]) (hasks ▸ hmeets)
          · exact hno i (List.mem_singleton_self i) n hnode ⟨hkind, hop⟩
  | @unit i n s t hid hnode hkind hasks ih =>
      exact absurd hkind (hblocks i (List.mem_singleton_self i) n hnode)
  | @function i n s t retType v hid hnode hkind hbody hpoint ih =>
      refine .spoilt (List.mem_singleton_self i) (.function hid hnode hkind) ?_
      rw [module_popped]
      exact ((hs.entered _ _).beyond hbody.beyond).beyond (beyond_closed (.refl _) _)
  | @loop i n s t u v b' f' hid hnode hkind hop hblock hparent hcond hbody ihc ihb =>
      obtain rfl := Option.some.inj (hs.building.point.symm.trans hblock)
      obtain rfl := Option.some.inj (hs.building.parent.symm.trans hparent)
      refine .spoilt (List.mem_singleton_self i) (.loop hid hnode hkind hop) ?_
      rw [module_movedTo]
      exact .of_relinked (joined_visited hs.building.ordered.sound hs.building.function_lt hcond hbody)
  | @conditional i n s t u w v b' f' hid hnode hkind hcond hblock hparent hthen hu helse hw ihc iht ihe =>
      have hasks : asks P s.lookupFunc i n = [n.data.cond, n.data.thenBlock, n.data.elseBlock] := by
        simp [asks, hkind]
      have hpart (j : NodeId) (hj : j ∈ asks P s.lookupFunc i n) {x y : Compiler}
          (hvisit : Visits P [j] x y) : NoBlocks P [j] :=
        noBlocks_of_asks hslots hroom hargs hnode (by simp [hkind])
          (fun k hk => List.mem_singleton.mp hk ▸ hj) hvisit
      have hreturns : NoReturns P [n.data.cond] :=
        noReturns_of_values hslots hnode fun j hj => by simpa [Node.values, hkind] using hj
      cases ihc hs (hpart _ (by simp [hasks]) hcond) (.inl hreturns) with
      | spoilt hj hmeets hspoilt =>
          rw [List.mem_singleton.mp hj] at hmeets
          exact .spoilt (List.mem_singleton_self i) (.operand hid hnode (by simp [hasks]) hmeets)
            (hspoilt.beyond (beyond_conditional hthen.beyond helse.beyond))
      | built hmeetsc hfuncsc hstate =>
          have hopen := open_of_noReturns hstate hreturns
          obtain rfl := Option.some.inj (hopen.building.point.symm.trans hblock)
          obtain rfl := Option.some.inj (hopen.building.parent.symm.trans hparent)
          have hends := outcome_branches (x := .br (t.module.blocks.length + 2))
            (y := .br (t.module.blocks.length + 2)) hopen rfl rfl hthen.beyond
            (iht (hopen.branched v).1 (hpart _ (by simp [hasks]) hthen) (.inr le_rfl)) helse.beyond
            fun hopen => ihe hopen (hpart _ (by simp [hasks]) helse) (.inr le_rfl)
          rw [hfuncsc] at hends
          exact outcome_conditional hid hnode hkind (hmeetsc _ (List.mem_singleton_self _)) hends

end Outcome

/-! ## Emitted functions -/

/-- A new function has just its entry block, which is open. -/
lemma open_entered (hsound : s.module.Sound) (i : NodeId) (name : List Byte) (type : IRType) :
    Open (s.entered i name type) s.module.functions.length s.module.blocks.length := by
  let f := s.module.functions.length
  let k := s.module.blocks.length
  -- the function, and its entry block in no list
  let created := (s.module.exec (.createFunction name type [])).exec (.createBlock "entry" none)
  have hlists : Module.SameLists s.module created :=
    (Module.SameLists.createFunction s.module name type []).trans (.createBlock _ "entry")
  have hfunctions : created.functions.length = f + 1 := by
    show (s.module.functions ++ [_]).length = _
    rw [List.length_append]
    rfl
  have hlength : created.blocks.length = k + 1 := Module.blocks_length_createBlock _ "entry" none
  have hnone (b : BlockId) : s.module.parent b ≠ some f :=
    fun hb => absurd (hsound.parent_lt b f hb) (Nat.lt_irrefl f)
  have hlast : created.last f = none := by
    rw [hlists.last]
    by_contra hsome
    obtain ⟨b, hb⟩ := Option.ne_none_iff_exists'.mp hsome
    exact hnone b (hsound.last_parent f b hb)
  have hfirst : created.first f = none := by
    rw [hlists.first]
    rw [Module.first, Module.function, List.getD_eq_getElem?_getD, List.getElem?_eq_none le_rfl]
    rfl
  have hnew : created.parent k = none := by
    rw [hlists.parent]
    by_contra hsome
    obtain ⟨g, hg⟩ := Option.ne_none_iff_exists'.mp hsome
    exact absurd (Module.lt_of_parent hg) (Nat.lt_irrefl k)
  have hordered : created.Ordered f := by
    refine ⟨hsound.same hlists (hfunctions ▸ Nat.le_succ f), [], .empty hfirst hlast fun b hb => ?_⟩
    rw [hlists.parent] at hb
    exact hnone b hb
  have hmodule : (s.entered i name type).module =
      (created.link f k).exec (.setInsertPoint k) := module_entered
  have hcode : OpenCode ((s.entered i name type).module.code k) := by
    rw [hmodule]
    show OpenCode ((created.link f k).code k)
    rw [Module.code_link, Module.code_createBlock, 
      Module.code_eq_nil (m := s.module.exec (.createFunction name type [])) (c := k) le_rfl]
    exact openCode_nil
  have hself : (created.link f k).parent k = some f :=
    Module.parent_link_self (hlength ▸ Nat.lt_succ_self k)
  refine ⟨⟨by rw [hmodule]; rfl, by rw [hmodule]; exact hself, ?_, fun c hc hne => ?_⟩, hcode⟩
  · rw [hmodule]
    exact (hordered.link (hfunctions ▸ Nat.lt_succ_self f) (hlength ▸ Nat.lt_succ_self k) hnew).same
      (.setInsertPoint _ k) le_rfl
  · rw [hmodule] at hc
    change (created.link f k).parent c = some f at hc
    rw [Module.parent_link_ne hne, hlists.parent] at hc
    exact absurd hc (hnone c)

lemma lookupFunc_entered_eq {name : List Byte} {type : IRType} (hs : s.scopes ≠ []) :
    (s.entered i name type).lookupFunc = Function.update s.lookupFunc name
      (some { llvmFunc := s.module.functions.length, declNodeId := i }) := by
  funext x
  rw [lookupFunc, entered]
  cases hscopes : s.scopes with
  | nil => exact absurd hscopes hs
  | cons scope scopes =>
      by_cases hx : x = name
      · simp [onScope, issue, hscopes, hx]
      · simp [onScope, issue, lookupFunc, hscopes, List.findSome?_cons, hx]

/-- The visit of a function is that of its body, with the epilogue behind it. -/
lemma Visits.of_function (h : Visits P [i] s t) (hid : i ≠ kNullNode) (hnode : P.tree[i]? = some n)
    (hfunction : n.kind = FunctionDecl) : ∃ u retType v,
      Visits P [n.data.initExpr] (s.entered i (P.text n.data.nameNode) retType) u ∧
        t = (u.closed (.ret v)).popped := by
  generalize hids : [i] = ids at h
  induction h with
  | nil => cases hids
  | cons h hrest ih ihrest =>
      obtain ⟨rfl, rfl⟩ := List.cons.inj hids
      cases hrest
      exact ih rfl
  | null => exact absurd (List.cons.inj hids).1 hid
  | function _ hnode' hkind hbody hpoint ih =>
      cases hids
      obtain rfl := Option.some.inj (hnode.symm.trans hnode')
      exact ⟨_, _, _, hbody, rfl⟩
  | plain _ hnode' hkind =>
      cases hids
      obtain rfl := Option.some.inj (hnode.symm.trans hnode')
      rw [Node.IsPlain, hfunction] at hkind
      exact hkind.elim
  | returns _ hnode' hkind | unit _ hnode' hkind | conditional _ hnode' hkind
  | loop _ hnode' hkind =>
      cases hids
      obtain rfl := Option.some.inj (hnode.symm.trans hnode')
      rw [hfunction] at hkind
      cases hkind

/-! ## Sound lists -/

/-- An empty module is sound. -/
lemma sound_start : (({} : Compiler).module).Sound :=
  ⟨fun _ _ h => (by cases h), fun _ _ h => by cases h⟩

lemma sound_closed (h : s.module.Sound) (v : Instruction) : (s.closed v).module.Sound := by
  rcases closed_module (s := s) v with heq | heq
  · rwa [heq]
  · rw [heq]
    exact h.append v

lemma parent_branched {cond : Option Value} (hb : b ≠ s.module.blocks.length) :
    (s.branched f cond).module.parent b = s.module.parent b := by
  have hlists := ((Module.SameLists.createBlock (s.module.exec (.createBlock "then" (some f))) "else").trans
    (.createBlock _ "ifcont")).trans ((Module.SameLists.append _ (.condBr cond s.module.blocks.length
      (s.module.blocks.length + 1))).trans (.setInsertPoint _ s.module.blocks.length))
  rw [module_branched, hlists.parent]
  exact (Module.parent_link_ne hb).trans ((Module.SameLists.createBlock s.module "then").parent b)

lemma sound_branched {cond : Option Value} (h : s.module.Sound) (hf : f < s.module.functions.length) :
    (s.branched f cond).module.Sound := by
  rw [module_branched]
  exact (((h.createBlock "then" hf).same (.createBlock _ "else") le_rfl).same (.createBlock _ "ifcont")
    le_rfl).append _ |>.same (.setInsertPoint _ _) le_rfl

lemma blocks_branched {cond : Option Value} :
    (s.branched f cond).module.blocks.length = s.module.blocks.length + 3 := by
  rw [module_branched]
  refine (Module.blocks_length_append _ _).trans ?_
  simp only [Module.blocks_length_createBlock]

lemma sound_looped (h : s.module.Sound) (hf : f < s.module.functions.length) :
    (s.looped f).module.Sound := by
  have hlength (m : Module) (name : String) (hm : f < m.functions.length) :
      f < (m.exec (.createBlock name (some f))).functions.length :=
    hm.trans_eq (Module.functions_length_createBlock m name _).symm
  rw [module_looped]
  exact (((h.createBlock _ hf).createBlock _ (hlength _ _ hf)).createBlock _
    (hlength _ _ (hlength _ _ hf))).append _ |>.same (.setInsertPoint _ _) le_rfl

/-- A block that has no other parent may be moved to. -/
lemma sound_movedTo (h : s.module.Sound) (hf : f < s.module.functions.length)
    (hb : b < s.module.blocks.length) (hparent : ∀ g, s.module.parent b = some g → g = f) :
    (s.movedTo f b).module.Sound := by
  rw [module_movedTo]
  exact (h.link hf hb hparent).same (.setInsertPoint _ b) le_rfl

/-- **The lists stay sound**, whatever is visited. -/
lemma Visits.sound (h : Visits P ids s t) (hs : s.module.Sound) : t.module.Sound := by
  induction h with
  | nil | null => exact hs
  | cons _ _ ih ihrest => exact ihrest (ih hs)
  | plain _ _ _ _ _ _ hrest ih =>
      obtain ⟨ops, hops, hplain⟩ := hrest.ops
      rw [module_of_ops hops]
      exact (ih hs).foldl_plain hplain
  | returns _ _ _ _ _ ih =>
      rw [module_issue]
      exact (ih hs).append _
  | unit _ _ _ _ ih =>
      rw [module_popped]
      exact ih hs
  | function _ _ _ _ _ ih =>
      rw [module_popped]
      exact sound_closed (ih (open_entered hs _ _ _).building.ordered.sound) _
  | @conditional i n s t u w v b f _ _ _ _ hblock hparent hthen _ helse _ ihc iht ihe =>
      have ht := ihc hs
      have hf := ht.parent_lt b f hparent
      have hnone {c : BlockId} (hc : t.module.blocks.length < c) :
          (t.branched f v).module.parent c = none :=
        (parent_branched hc.ne').trans (Module.parent_eq_none hc.le)
      have hlength : (t.branched f v).module.blocks.length = t.module.blocks.length + 3 := blocks_branched
      have hbranched : Module.Beyond t.module (t.branched f v).module := beyond_branched
      have h₁ : t.module.blocks.length + 1 < (t.branched f v).module.blocks.length := by omega
      have h₂ : t.module.blocks.length + 2 < (t.branched f v).module.blocks.length := by omega
      -- the other branch and the block behind both are in no function before they are moved to
      have hu := beyond_closed hthen.beyond (.br (t.module.blocks.length + 2))
      have hleft := sound_movedTo (b := t.module.blocks.length + 1)
        (sound_closed (iht (sound_branched ht hf)) (.br (t.module.blocks.length + 2)))
        (hf.trans_le (hbranched.trans hu).functions) (h₁.trans_le hu.blocks)
        fun g hg => by rw [hu.parents _ h₁, hnone (Nat.lt_succ_self _)] at hg; cases hg
      have hw := beyond_closed helse.beyond (.br (t.module.blocks.length + 2))
      have hlength₂ : t.module.blocks.length + 2 < ((u.closed (.br (t.module.blocks.length + 2))).movedTo f
          (t.module.blocks.length + 1)).module.blocks.length := by
        rw [module_movedTo, Module.blocks_moveTo]
        exact h₂.trans_le hu.blocks
      have hwaits : ((u.closed (.br (t.module.blocks.length + 2))).movedTo f
          (t.module.blocks.length + 1)).module.parent (t.module.blocks.length + 2) = none := by
        rw [module_movedTo, Module.parent_moveTo_ne (Nat.lt_succ_self _).ne', hu.parents _ h₂]
        exact hnone (Nat.lt_add_of_pos_right Nat.two_pos)
      have hplaced : ((u.closed (.br (t.module.blocks.length + 2))).movedTo f
          (t.module.blocks.length + 1)).module.parent (t.module.blocks.length + 1) = some f := by
        rw [module_movedTo]
        exact Module.parent_link_self (h₁.trans_le hu.blocks)
      refine sound_movedTo (sound_closed (ihe hleft) _)
        ((hleft.parent_lt _ f hplaced).trans_le hw.functions) (hlength₂.trans_le hw.blocks) fun g hg => ?_
      rw [hw.parents _ hlength₂, hwaits] at hg
      cases hg
  | @loop i n s t u v b f _ _ _ _ _ hparent hcond hbody ihc ihb =>
      have hf := hs.parent_lt b f hparent
      have hjoined := joined_visited hs hf hcond hbody
      have hentered : ((t.issue (.append (.condBr v (s.module.blocks.length + 1)
          (s.module.blocks.length + 2)))).issue
            (.setInsertPoint (s.module.blocks.length + 1))).module.Sound := by
        rw [module_issue, module_issue]
        exact ((ihc (sound_looped hs hf)).append _).same (.setInsertPoint _ _) le_rfl
      have hbehind : (u.issue (.append (.br s.module.blocks.length))).module.Sound := by
        rw [module_issue]
        exact (ihb hentered).append _
      refine sound_movedTo hbehind (hbehind.parent_lt _ f hjoined.placed) hjoined.lt.2 fun g hg => ?_
      rw [hjoined.placed] at hg
      exact (Option.some.inj hg).symm

/-- The nodes of a function `f` whose body is `if(1)return 2;else return 3;`, without braces. -/
def functionOfConditional : Program where
  tree :=
    [default, ⟨.IdentifierExpr, {}, 0, 4, Data.literal .kByte 0⟩,
      ⟨.IdentifierExpr, {}, 5, 1, Data.literal .Ident 0⟩,
      ⟨.LiteralExpr, {}, 11, 1, Data.literal .LInt 0⟩, ⟨.LiteralExpr, {}, 20, 1, Data.literal .LInt 0⟩,
      plainNode .UnaryExpr 13 (Data.unary .kReturn 4), ⟨.LiteralExpr, {}, 34, 1, Data.literal .LInt 0⟩,
      plainNode .UnaryExpr 27 (Data.unary .kReturn 6), plainNode .EvalExpr 8 (Data.evalOp 3 5 7),
      plainNode .FunctionDecl 5 (Data.varDecl 1 2 8)]
  source := bytes "byte f()if(1)return 2;else return 3;"
  host := silentHost

end Compiler

end LogicCompiler
