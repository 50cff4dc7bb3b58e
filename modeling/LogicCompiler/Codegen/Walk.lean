import LogicCompiler.Codegen.Jumps
import LogicCompiler.Parser.Constituents

/-!
# What the code generator visits

A block has no list of its statements.  `codegenTranslationUnit` visits every node behind that of
the block, up to the end of the arena, so that it comes to the statements of the block and to
nothing else only when each of them is a single node and the block is the last thing in the source.
-/

namespace LogicCompiler

open TokenType NodeKind Cat LLVM LogicCompiler.Parser

namespace Compiler

/-! ## The calls of `codegenTranslationUnit` -/

/-- One call of `codegen` for each of the ids, in this order, in a scope of their own. -/
def callEach (c : CodegenCalls) (ids : List NodeId) : CodegenM (Option Value) := do
  pushScope
  let lastVal ← visitAll c ids Option.none
  popScope
  pure lastVal

/-- `codegenTranslationUnit` calls `codegen` on exactly these ids, whatever the calls do. -/
def Walks (P : Program) (id : NodeId) (ids : List NodeId) : Prop :=
  ∀ c, codegenTranslationUnit P c id = callEach c ids

/-- Calls that leave a record of their argument. -/
def recorder : CodegenCalls where
  codegen i := do
    emit (.setInsertPoint i)
    pure Option.none
  evaluateConstantExpr _ := pure Option.none

/-- The recorder writes down each id it is asked for. -/
lemma visitAll_recorder (ids : List NodeId) (s : Compiler) :
    visitAll recorder ids Option.none s =
      Option.some (.ok (Option.none, { s with ops := s.ops ++ ids.map .setInsertPoint })) := by
  induction ids generalizing s with
  | nil => simp [visitAll]
  | cons i ids ih =>
      have hcall : recorder.codegen i s =
          Option.some (.ok (Option.none, { s with ops := s.ops ++ [.setInsertPoint i] })) := rfl
      rw [visitAll, Fuel.Comp.bind_apply hcall, ih]
      simp

lemma callEach_recorder (ids : List NodeId) :
    callEach recorder ids {} =
      Option.some (.ok (Option.none, { ops := ids.map .setInsertPoint })) := by
  have hpush : pushScope {} = Option.some (.ok ((), { scopes := [{}, {}] })) := rfl
  rw [callEach, Fuel.Comp.bind_apply hpush, Fuel.Comp.bind_apply (visitAll_recorder ids _)]
  rfl

/-- The ids that a unit asks for are those behind it. -/
lemma walks_iff {P : Program} {id : NodeId} {ids : List NodeId} :
    Walks P id ids ↔ idsBehind P.tree id = ids := by
  constructor
  · intro h
    have hrun := congrFun (h recorder) {}
    have hwalk : codegenTranslationUnit P recorder id = callEach recorder (idsBehind P.tree id) := rfl
    rw [hwalk, callEach_recorder, callEach_recorder] at hrun
    have hops : (idsBehind P.tree id).map BuilderOp.setInsertPoint = ids.map .setInsertPoint := by
      simpa using hrun
    exact List.map_injective_iff.mpr (fun a b hab => by cases hab; rfl) hops
  · rintro rfl c
    rfl

/-! ## Computations that come to an end -/

/-- The computation does not run out of fuel. -/
def Answers {α : Type} (x : CodegenM α) : Prop := ∀ s, x s ≠ Option.none

namespace Answers

variable {α β : Type} {x : CodegenM α} {f : α → CodegenM β}

lemma pure (a : α) : Answers (Pure.pure a) := fun _ => Option.some_ne_none _

lemma read (f : Compiler → α) : Answers (Compiler.read f) := fun _ => Option.some_ne_none _

lemma update (f : Compiler → Compiler) : Answers (Compiler.update f) :=
  fun _ => Option.some_ne_none _

lemma fail (e : CodegenFailure) : Answers (Compiler.fail e : CodegenM α) :=
  fun _ => Option.some_ne_none _

/-- An answer behind an answer. -/
lemma bind (hx : Answers x) (hf : ∀ a, Answers (f a)) : Answers (x >>= f) := by
  intro s
  rw [Fuel.Comp.bind_eq]
  cases h : x s with
  | none => exact absurd h (hx s)
  | some r =>
      cases r with
      | error e => exact Option.some_ne_none _
      | ok r => exact hf r.1 r.2

lemma deref (a : Option α) : Answers (Compiler.deref a) := by
  cases a with
  | none => exact fail _
  | some a => exact pure a

lemma orThrow (a : Option α) : Answers (Compiler.orThrow a) := by
  cases a with
  | none => exact fail _
  | some a => exact pure a

/-- Either branch answers. -/
lemma ite {c : Prop} [Decidable c] {y : CodegenM α} (hx : Answers x) (hy : Answers y) :
    Answers (if c then x else y) := by
  split_ifs
  · exact hx
  · exact hy

lemma insert (i : ℕ → Instruction) : Answers (Compiler.insert i) :=
  bind (read _) fun _ => bind (update _) fun _ => pure _

variable (P : Program)

lemma getNodeSnippet (id : NodeId) : Answers (Compiler.getNodeSnippet P id) :=
  ite (pure _) (bind (deref _) fun _ => ite (pure _) (ite (fail _) (pure _)))

lemma literalValue (type : ℕ) (text : List Byte) : Answers (Compiler.literalValue P type text) :=
  ite (bind (orThrow _) fun _ => pure _)
    (ite (bind (orThrow _) fun _ => pure _) (ite (pure _) (ite (pure _) (pure _))))

lemma codegenLiteralExpr (id : NodeId) : Answers (Compiler.codegenLiteralExpr P id) :=
  bind (getNodeSnippet P id) fun _ => bind (deref _) fun _ => literalValue P _ _

lemma codegenIdentifierExpr (id : NodeId) : Answers (Compiler.codegenIdentifierExpr P id) := by
  refine bind (getNodeSnippet P id) fun name => bind (read _) fun sym => ?_
  cases sym with
  | none => exact fail _
  | some sym =>
      refine bind (deref _) fun value => ite (bind ?_ fun _ => pure _) (pure _)
      exact bind (read _) fun _ => bind (deref _) fun _ => bind (insert _) fun _ => pure _

end Answers

/-- Nodes without children that are no blocks: what `codegen` does for them is one step. -/
def Leaf (n : Node) : Prop :=
  n.kind = LiteralExpr ∨ n.kind = IdentifierExpr ∨ n.kind = StructDecl ∨
    (n.kind = UnaryExpr ∧ n.data = Data.unary kReturn kNullNode) ∨
      (n.kind = CompileTimeJump ∧ (n.data.op = kBreak.code ∨ n.data.op = kContinue.code))

/-- The dispatch, at a node that is there. -/
lemma codegen_of_kind {P : Program} {i : NodeId} {n : Node} (c : CodegenCalls)
    (hi : i ≠ kNullNode) (h : P.tree[i]? = Option.some n) :
    codegen P c i = match n.kind with
      | TranslationUnit => codegenTranslationUnit P c i
      | VarDecl => codegenVarDecl P c i
      | TypeDecl => codegenTypeDecl P i
      | FunctionDecl => codegenFunctionDecl P c i
      | BinaryExpr => codegenBinaryExpr P c i
      | UnaryExpr => codegenUnaryExpr P c i
      | LiteralExpr => codegenLiteralExpr P i
      | IdentifierExpr => codegenIdentifierExpr P i
      | CallExpr => codegenCallExpr P c i
      | EvalExpr => codegenEvalExpr P c i
      | CompileTimeJump => codegenCompileTimeJump P c i
      | _ => pure Option.none := by
  have hget : getNode P i = pure n := by
    rw [getNode, h]
    rfl
  rw [codegen, if_neg hi, hget]
  rfl

/-- A node without parts answers over any calls. -/
lemma answers_leaf {P : Program} {i : NodeId} {n : Node} (c : CodegenCalls) (hi : i ≠ kNullNode)
    (h : P.tree[i]? = Option.some n) (hn : Leaf n) : Answers (codegen P c i) := by
  have hget : getNode P i = pure n := by
    rw [getNode, h]
    rfl
  rw [codegen_of_kind c hi h]
  rcases hn with hk | hk | hk | ⟨hk, hdata⟩ | ⟨hk, hop⟩
  · rw [hk]
    exact .codegenLiteralExpr P i
  · rw [hk]
    exact .codegenIdentifierExpr P i
  · rw [hk]
    exact .pure _
  · rw [hk]
    have hop : n.data.op = kReturn.code := by rw [hdata, Data.op_unary]
    have hnull : ¬ n.data.operand ≠ kNullNode := by rw [hdata, Data.operand_unary, not_not]
    have hret : codegenUnaryExpr P c i = (do
        let value ← createRet Option.none
        pure (Option.some value)) := by
      rw [codegenUnaryExpr, hget]
      show (if n.data.op = kReturn.code then _ else _) = _
      rw [if_pos hop, if_neg hnull]
      rfl
    show Answers (codegenUnaryExpr P c i)
    rw [hret]
    exact .bind (.bind (.insert _) fun _ => .pure _) fun _ => .pure _
  · rw [hk]
    show Answers (codegenCompileTimeJump P c i)
    rw [codegenCompileTimeJump, hget]
    show Answers (if n.data.op = kBreak.code ∨ n.data.op = kContinue.code then _ else _)
    rw [if_pos hop]
    exact .pure _

/-- A list of visits answers if each of them does. -/
lemma answers_visitAll {c : CodegenCalls} {ids : List NodeId} {v : Option Value}
    (h : ∀ i ∈ ids, Answers (c.codegen i)) : Answers (visitAll c ids v) := by
  induction ids generalizing v with
  | nil => exact .pure _
  | cons i ids ih =>
      exact .bind (h i (by simp)) fun _ => ih fun j hj => h j (by simp [hj])

lemma answers_callEach {c : CodegenCalls} {ids : List NodeId}
    (h : ∀ i ∈ ids, Answers (c.codegen i)) : Answers (callEach c ids) :=
  .bind (.update _) fun _ => .bind (answers_visitAll h) fun _ => .bind (.update _) fun _ => .pure _

end Compiler

/-! ## Statements of one node -/

namespace Syn

set_option linter.unusedVariables false in
@[elab_as_elim]
lemma list_induction : ∀ {k : Cat} {motive : Syn (list k) → Prop} (hnil : motive nil)
    (hcons : ∀ s rest, motive rest → motive (cons s rest)) (u : Syn (list k)), motive u
  | _, _, hnil, _, nil => hnil
  | _, _, hnil, hcons, cons s rest => hcons s rest (list_induction hnil hcons rest)

/-- A block, or an expression statement that is a block. -/
def isBlock : {k : Cat} → Syn k → Bool
  | _, block _ _ => true
  | _, blockExpr _ => true
  | _, paren _ e _ => e.isBlock
  | _, exprStmt _ e _ => e.isBlock
  | _, requires _ _ _ e _ => e.isBlock
  | _, _ => false

/-- Every statement appends one node, and only the last one may be a block. -/
def SingleNodes : {k : Cat} → Syn (list k) → Prop
  | _, nil => True
  | _, cons s rest => s.size = 1 ∧ (s.isBlock = true → rest.size = 0) ∧ rest.SingleNodes

@[simp] lemma singleNodes_nil {k : Cat} : (nil : Syn (list k)).SingleNodes := by
  simp [SingleNodes]

@[simp] lemma singleNodes_cons {k : Cat} {s : Syn k} {rest : Syn (list k)} :
    (cons s rest).SingleNodes ↔
      s.size = 1 ∧ (s.isBlock = true → rest.size = 0) ∧ rest.SingleNodes := by
  rw [SingleNodes]

/-- The ids of the statements that a block holds directly. -/
def directRoots : {k : Cat} → Syn k → (base : ℕ) → Option (List NodeId)
  | _, braced _ body _, base => Option.some (body.listRoots (base + 1))
  | _, _, _ => Option.none

@[simp] lemma listRoots_nil {k : Cat} (base : ℕ) : (nil : Syn (list k)).listRoots base = [] := by
  rw [listRoots]

/-- What is solid has a node. -/
lemma size_pos {k : Cat} (s : Syn k) (hk : k.solid = true) : 0 < s.size := by
  have hroot := s.root_solid hk 0
  grind

lemma list_size_zero {k : Cat} (hk : k.solid = true) : ∀ s : Syn (list k), s.size = 0 → s = nil
  | nil, _ => rfl
  | cons s rest, h => by
      have hpos := s.size_pos hk
      rw [size] at h
      omega

/-- A `del`, an `eval` or an `if` has more than one node. -/
lemma one_lt_size {k : Cat} (s : Syn k) (hk : k = del ∨ ∃ keyword, k = Cat.conditional keyword) :
    1 < s.size := by
  cases s with
  | delete k auto target =>
      have hpos := target.size_pos rfl
      rw [size]
      omega
  | conditional k l cond r thenBlock elseBlock =>
      have hcond := cond.size_pos rfl
      have hthen := thenBlock.size_pos rfl
      rw [size]
      omega
  | _ => rcases hk with hk | ⟨keyword, hk⟩ <;> cases hk

/-- The statements and expressions of one node. -/
inductive Single : {k : Cat} → Syn k → Prop
  | literal (t : TokOf literals) : Single (literal t)
  | ident (t : TokOf identifiers) : Single (ident t)
  | paren (l : Tok Left) {e : Syn expr} (r : Tok Right) (h : Single e) : Single (paren l e r)
  | requires (q : QualifierTokens) (k : Tok kRequires) (colon : Tok Colon) {e : Syn expr}
      (semi : Option (Tok Semi)) (h : Single e) : Single (requires q k colon e semi)
  | exprStmt (q : QualifierTokens) {e : Syn expr} (semi : Option (Tok Semi)) (h : Single e) :
      Single (exprStmt q e semi)
  | jump (q : QualifierTokens) (k : TokOf [kBreak, kContinue]) (semi : Tok Semi) :
      Single (jump q k semi)
  | returnStmt (q : QualifierTokens) (k : Tok kReturn) (semi : Tok Semi) :
      Single (returnStmt q k none semi)
  | structDecl (q : QualifierTokens) (k : Tok kStruct) (name : Tok Ident)
      (semi : Option (Tok Semi)) : Single (structDecl q k name none semi)
  | block (q : QualifierTokens) (l : Tok BrLeft) (r : Tok BrRight) :
      Single (block q (braced l nil r))
  | blockExpr (l : Tok BrLeft) (r : Tok BrRight) : Single (blockExpr (braced l nil r))

/-- An expression or a statement with one node is of a single form. -/
lemma single_of_size {k : Cat} (s : Syn k) (hk : k = expr ∨ k = stmt) (hsize : s.size = 1) :
    Single s := by
  induction s
  case literal t => exact .literal t
  case ident t => exact .ident t
  case paren l e r ih => exact .paren l r (ih (Or.inl rfl) hsize)
  case requires q k colon e semi ih => exact .requires q k colon semi (ih (Or.inl rfl) hsize)
  case exprStmt q e semi ih => exact .exprStmt q semi (ih (Or.inl rfl) hsize)
  case jump q k semi => exact .jump q k semi
  case returnStmt q k e semi ih =>
    cases e with
    | none => exact .returnStmt q k semi
    | some e =>
        have hpos := e.size_pos rfl
        simp only [size] at hsize
        omega
  case structDecl q k name body semi ih =>
    cases body with
    | none => exact .structDecl q k name semi
    | some b =>
        have hpos := b.size_pos rfl
        simp only [size] at hsize
        omega
  case block q b ih =>
    cases b with
    | braced l body r =>
        obtain rfl := list_size_zero rfl body (Nat.succ.inj hsize)
        exact .block q l r
  case blockExpr b ih =>
    cases b with
    | braced l body r =>
        obtain rfl := list_size_zero rfl body (Nat.succ.inj hsize)
        exact .blockExpr l r
  case eval s ih =>
    have hlt := s.one_lt_size (Or.inr ⟨_, rfl⟩)
    rw [size] at hsize
    omega
  case ifStmt q s ih =>
    have hlt := s.one_lt_size (Or.inr ⟨_, rfl⟩)
    rw [size] at hsize
    omega
  case deleteStmt q d semi ih =>
    have hlt := d.one_lt_size (Or.inl rfl)
    rw [size] at hsize
    omega
  case cast l d r ih =>
    have hlt := d.one_lt_size (Or.inl rfl)
    rw [size] at hsize
    omega
  all_goals first
    | (rcases hk with hk | hk <;> cases hk; done)
    | (simp only [size] at hsize; grind [size_pos, Cat.solid])

namespace Single

variable {k : Cat} {s : Syn k} {base next : ℕ}

lemma exists_node (h : Single s) (base next : ℕ) : ∃ n, s.nodes base next = [n] ∧
    if s.isBlock then n.kind = TranslationUnit else Compiler.Leaf n := by
  induction h generalizing base next with
  | literal t => exact ⟨_, rfl, Or.inl rfl⟩
  | ident t => exact ⟨_, rfl, Or.inr (Or.inl rfl)⟩
  | paren l r h ih => exact ih _ _
  | requires q k colon semi h ih => exact ih _ _
  | exprStmt q semi h ih => exact ih _ _
  | jump q k semi =>
      have hcode : k.1.type = kBreak ∨ k.1.type = kContinue := by simpa using k.2
      refine ⟨_, rfl, Or.inr (Or.inr (Or.inr (Or.inr ⟨rfl, ?_⟩)))⟩
      rw [plainNode, Data.op_unary]
      exact hcode.imp (congrArg TokenType.code) (congrArg TokenType.code)
  | returnStmt => exact ⟨_, rfl, Or.inr (Or.inr (Or.inr (Or.inl ⟨rfl, rfl⟩)))⟩
  | structDecl => exact ⟨_, rfl, Or.inr (Or.inr (Or.inl rfl))⟩
  | block => exact ⟨_, rfl, rfl⟩
  | blockExpr => exact ⟨_, rfl, rfl⟩

/-- The node of a single form is its first one. -/
lemma root_eq (h : Single s) (base : ℕ) : s.root base = base := by
  induction h with
  | paren l r h ih => exact ih
  | requires q k colon semi h ih => exact ih
  | exprStmt q semi h ih => exact ih
  | _ => rfl

/-- A block within a statement of one node is that node. -/
lemma directRoots_eq (h : Single s) : ∀ x ∈ s.parts base next,
    ∀ ids ∈ x.syn.directRoots x.base, s.isBlock = true ∧ x.base = base ∧ ids = [] := by
  induction h generalizing base next with
  | literal t | ident t | jump q k semi | returnStmt | structDecl =>
      simp [parts, directRoots]
  | paren l r h ih | requires q k colon semi h ih | exprStmt q semi h ih =>
      intro x hx ids hids
      rcases List.mem_cons.mp hx with rfl | hx
      · cases hids
      · exact ih x hx ids hids
  | block | blockExpr =>
      intro x hx ids hids
      simp only [parts, List.mem_cons, List.not_mem_nil, or_false] at hx
      rcases hx with rfl | rfl | rfl
      · cases hids
      · cases hids
        exact ⟨rfl, rfl, listRoots_nil _⟩
      · cases hids

/-- A statement of one node that is a block has the block among its parts. -/
lemma exists_directRoots (h : Single s) (hb : s.isBlock = true) :
    ∃ x ∈ s.parts base next, x.base = base ∧ x.syn.directRoots x.base = Option.some [] := by
  induction h generalizing base next with
  | literal | ident | jump | returnStmt | structDecl => cases hb
  | paren l r h ih | requires q k colon semi h ih | exprStmt q semi h ih =>
      rcases ih hb with ⟨x, hx, hbase, hids⟩
      exact ⟨x, List.mem_cons_of_mem _ hx, hbase, hids⟩
  | block q l r =>
      exact ⟨⟨_, braced l nil r, base, next⟩, by simp [parts], rfl,
        congrArg Option.some (listRoots_nil _)⟩
  | blockExpr l r =>
      exact ⟨⟨_, braced l nil r, base, next⟩, by simp [parts], rfl,
        congrArg Option.some (listRoots_nil _)⟩

end Single

end Syn

/-! ## The program and the arena -/

/-- The generator visits the statements of the program, and those of each block when it comes to
the block, and it comes to an end. -/
structure WalksProgram (P : Program) (u : Syn (list stmt)) : Prop where
  unit : Compiler.Walks P 0 (u.listRoots 1)
  blocks : ∀ x ∈ u.parts 1 P.source.length, ∀ ids ∈ x.syn.directRoots x.base,
    Compiler.Walks P x.base ids
  halts : ∃ n, (Compiler.methods P n).codegen 0 {} ≠ Option.none

section Walk

variable {P : Program} {base next : ℕ}

/-- Nothing stands behind the last node. -/
lemma idsBehind_nil {i : NodeId} (h : i + 1 = P.tree.length) :
    Compiler.idsBehind P.tree i = [] := by
  rw [Compiler.idsBehind, h, Nat.sub_self, List.range'_zero]

namespace Syn

/-- A list has no more entries than nodes. -/
lemma length_listRoots_le (u : Syn (list stmt)) (base : ℕ) :
    (u.listRoots base).length ≤ u.size := by
  induction u using list_induction generalizing base with
  | hnil => simp
  | hcons s rest ih =>
      have hrest := ih (base + s.size)
      have hpos := s.size_pos rfl
      rw [listRoots, size, List.length_cons]
      omega

/-- As many statements as nodes, and nothing behind a block. -/
lemma singleNodes_of_walks (u : Syn (list stmt)) (hend : base + u.size = P.tree.length)
    (hlen : u.size ≤ (u.listRoots base).length)
    (hblocks : ∀ x ∈ u.parts base next, ∀ ids ∈ x.syn.directRoots x.base,
      Compiler.Walks P x.base ids) : u.SingleNodes := by
  induction u using list_induction generalizing base with
  | hnil => simp
  | hcons s rest ih =>
      have hrest := rest.length_listRoots_le (base + s.size)
      have hpos := s.size_pos rfl
      rw [listRoots, size, List.length_cons] at hlen
      rw [size] at hend
      have hone : s.size = 1 := by omega
      simp only [parts, List.forall_mem_cons, List.forall_mem_append] at hblocks
      refine singleNodes_cons.mpr ⟨hone, fun hb => ?_,
        ih (by omega) (by omega) hblocks.2.2⟩
      rcases (single_of_size s (Or.inr rfl) hone).exists_directRoots hb with ⟨x, hx, hbase, hids⟩
      have hwalk := Compiler.walks_iff.mp (hblocks.2.1 x hx [] hids)
      rw [hbase, Compiler.idsBehind, List.range'_eq_nil_iff] at hwalk
      omega

namespace SingleNodes

/-- The statements are the nodes. -/
lemma listRoots_eq {u : Syn (list stmt)} (h : u.SingleNodes) :
    u.listRoots base = List.range' base u.size := by
  induction u using list_induction generalizing base with
  | hnil => simp [size]
  | hcons s rest ih =>
      rcases singleNodes_cons.mp h with ⟨hone, -, hrest⟩
      rw [listRoots, size, ih hrest, (single_of_size s (Or.inr rfl) hone).root_eq, hone,
        Nat.add_comm 1, List.range'_succ]

/-- Where every entry is a single node, a block walks over its entries. -/
lemma walks_blocks {u : Syn (list stmt)} (h : u.SingleNodes)
    (hend : base + u.size = P.tree.length) : ∀ x ∈ u.parts base next,
      ∀ ids ∈ x.syn.directRoots x.base, Compiler.Walks P x.base ids := by
  induction u using list_induction generalizing base with
  | hnil =>
      intro x hx ids hids
      obtain rfl := List.mem_singleton.mp hx
      cases hids
  | hcons s rest ih =>
      rcases singleNodes_cons.mp h with ⟨hone, hlast, hrest⟩
      rw [size] at hend
      simp only [parts, List.forall_mem_cons, List.forall_mem_append]
      refine ⟨?_, ?_, ih hrest (by omega)⟩
      · intro ids hids
        cases hids
      intro x hx ids hids
      rcases (single_of_size s (Or.inr rfl) hone).directRoots_eq x hx ids hids with
        ⟨hb, hbase, rfl⟩
      have hzero := hlast hb
      have hnext : base + 1 = P.tree.length := by omega
      rw [Compiler.walks_iff, hbase]
      exact idsBehind_nil hnext

/-- A node is a leaf, or the last one of the arena. -/
lemma leaf_or_last {u : Syn (list stmt)} (h : u.SingleNodes)
    (hlies : Lies P.tree base (u.nodes base next)) (hend : base + u.size = P.tree.length) :
    ∀ i n, base ≤ i → P.tree[i]? = Option.some n →
      Compiler.Leaf n ∨ n.kind = TranslationUnit ∧ i + 1 = P.tree.length := by
  induction u using list_induction generalizing base with
  | hnil =>
      intro i n hi hn
      have hlt : i < P.tree.length := (List.getElem?_eq_some_iff.mp hn).1
      rw [size] at hend
      omega
  | hcons s rest ih =>
      rcases singleNodes_cons.mp h with ⟨hone, hlast, hrest⟩
      rw [size] at hend
      simp only [nodes, lies_append, length_nodes] at hlies
      intro i n hi hn
      rcases Nat.eq_or_lt_of_le hi with rfl | hlt
      · rcases (single_of_size s (Or.inr rfl) hone).exists_node base
          (firstOffset rest.tokens next) with ⟨m, hm, hkind⟩
        rw [hm, lies_cons] at hlies
        obtain rfl : m = n := Option.some.inj (hlies.1.1.symm.trans hn)
        split_ifs at hkind with hb
        · have hzero := hlast hb
          exact Or.inr ⟨hkind, by omega⟩
        · exact Or.inl hkind
      · exact ih hrest hlies.2 (by omega) i n (by omega) hn

end SingleNodes

end Syn

/-- When every node is a leaf or the last one, two levels of calls are enough. -/
lemma halts_of_leaves {node : Node} {rest : List Node} (htree : P.tree = node :: rest)
    (hkind : node.kind = TranslationUnit) (hroom : P.tree.length ≤ kNullNode)
    (h : ∀ i n, 1 ≤ i → P.tree[i]? = Option.some n →
      Compiler.Leaf n ∨ n.kind = TranslationUnit ∧ i + 1 = P.tree.length) :
    (Compiler.methods P 2).codegen 0 {} ≠ Option.none := by
  have hroot : P.tree[0]? = Option.some node := by rw [htree]; rfl
  have hcall : Compiler.codegen P (Compiler.methods P 1) 0
      = Compiler.callEach (Compiler.methods P 1) (Compiler.idsBehind P.tree 0) := by
    rw [Compiler.codegen_of_kind _ (by decide) hroot, hkind]
    rfl
  have hanswers : ∀ i ∈ Compiler.idsBehind P.tree 0,
      Compiler.Answers ((Compiler.methods P 1).codegen i) := by
    intro i hi
    rw [Compiler.idsBehind, List.mem_range'_1, Nat.zero_add] at hi
    have hlt : i < P.tree.length :=
      hi.2.trans_eq (Nat.add_sub_of_le (List.length_pos_of_ne_nil (by rw [htree]; simp)))
    have hget : P.tree[i]? = Option.some P.tree[i] := List.getElem?_eq_getElem hlt
    have hnull : i ≠ kNullNode := (lt_of_lt_of_le hlt hroom).ne
    show Compiler.Answers (Compiler.codegen P Compiler.noFuel i)
    rcases h i _ hi.1 hget with hleaf | ⟨hunit, hlast⟩
    · exact Compiler.answers_leaf _ hnull hget hleaf
    · rw [Compiler.codegen_of_kind _ hnull hget, hunit]
      show Compiler.Answers (Compiler.callEach _ (Compiler.idsBehind P.tree i))
      rw [idsBehind_nil hlast]
      exact Compiler.answers_callEach fun j hj => absurd hj List.not_mem_nil
  show Compiler.codegen P (Compiler.methods P 1) 0 {} ≠ Option.none
  rw [hcall]
  exact Compiler.answers_callEach hanswers {}

lemma walksProgram_iff {src : List Byte} {tree : ASTTree} (host : Host) {u : Syn (list stmt)}
    (hu : Parses src tree u) : WalksProgram ⟨tree, src, host⟩ u ↔ u.SingleNodes := by
  have hlen : 1 + u.size = tree.length := hu.length.symm
  have hids : Compiler.idsBehind tree 0 = List.range' 1 u.size := by
    rw [Compiler.idsBehind, hu.length, Nat.add_sub_cancel_left]
  constructor
  · intro h
    have hunit : List.range' 1 u.size = u.listRoots 1 := hids ▸ Compiler.walks_iff.mp h.unit
    have hle : u.size ≤ (u.listRoots 1).length := by
      rw [← hunit, List.length_range']
    exact u.singleNodes_of_walks (P := ⟨tree, src, host⟩) hlen hle h.blocks
  · intro h
    have hroots : Compiler.idsBehind tree 0 = u.listRoots 1 := hids.trans h.listRoots_eq.symm
    have hleaves := h.leaf_or_last (P := ⟨tree, src, host⟩) hu.lies hlen
    exact ⟨Compiler.walks_iff.mpr hroots, h.walks_blocks hlen,
      ⟨2, halts_of_leaves hu.arena rfl hu.room hleaves⟩⟩

end Walk

/-- **The generator walks the program**, whatever LLVM makes of it, exactly when every statement
of the unit is a single node and only the last one is a block. -/
theorem accepts_walk {src : List Byte} {tree : ASTTree} (host : Host) (h : Accepts src tree) :
    (∃ u, Parses src tree u) ∧ ∀ u, Parses src tree u →
      (WalksProgram ⟨tree, src, host⟩ u ↔ u.SingleNodes) :=
  ⟨accepts_unit h, fun _ hu => walksProgram_iff host hu⟩

/-- The initialiser and the names of a declaration are visited as if they were statements. -/
theorem declaration_walked_apart : ∃ tree : ASTTree,
    parse (bytes "int x=5;") 20 = Option.some (.ok tree) ∧
      ∀ u, Parses (bytes "int x=5;") tree u →
        ¬ WalksProgram ⟨tree, bytes "int x=5;", silentHost⟩ u := by
  have hparse : parse (bytes "int x=5;") 20 = Option.some (.ok
      [default, ⟨LiteralExpr, {}, 6, 1, Data.literal LInt 0⟩,
        plainNode VarDecl 0 (Data.varDecl 3 4 1), ⟨IdentifierExpr, {}, 0, 3, Data.literal Ident 0⟩,
        ⟨IdentifierExpr, {}, 4, 1, Data.literal Ident 0⟩]) := by
    decide +kernel
  refine ⟨_, hparse, fun u hu hwalks => ?_⟩
  have hsingle := (walksProgram_iff silentHost hu).mp hwalks
  have hleaf := hsingle.leaf_or_last (P := ⟨_, bytes "int x=5;", silentHost⟩) hu.lies hu.length.symm 2
    (plainNode VarDecl 0 (Data.varDecl 3 4 1)) (by decide) rfl
  simp [Compiler.Leaf, plainNode] at hleaf

/-- Two literals and an empty block are visited as the statements they are. -/
theorem accepts_walk_sample : ∃ tree : ASTTree,
    parse (bytes "0;break;\x7b\x7d") 20 = Option.some (.ok tree) ∧
      ∃ u, Parses (bytes "0;break;\x7b\x7d") tree u ∧
        (WalksProgram ⟨tree, bytes "0;break;\x7b\x7d", silentHost⟩ u ↔ u.SingleNodes) := by
  have hparse : parse (bytes "0;break;\x7b\x7d") 20 = Option.some (.ok
      [default, ⟨LiteralExpr, {}, 0, 1, Data.literal LInt 0⟩,
        plainNode CompileTimeJump 2 (Data.unary kBreak kNullNode),
        plainNode TranslationUnit 9 ⟨0, 0, 0⟩]) := by
    decide +kernel
  rcases accepts_walk silentHost (accepts_of_parse hparse) with ⟨⟨u, hu⟩, hwalk⟩
  exact ⟨_, hparse, u, hu, hwalk u hu⟩

end LogicCompiler
