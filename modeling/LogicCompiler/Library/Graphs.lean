import LogicCompiler.Library.Builder
import Mathlib.Data.List.Chain
import Mathlib.Data.List.Nodup
import Mathlib.Order.Monotone.Basic
import Mathlib.Tactic.Common

/-!
# Control-flow graphs

When the graph of a function is well-formed: its blocks are a proper doubly linked list in which each of
them occurs once, and each has one terminator, at the end.  A builder works at its insertion point; blocks
that it has left, and blocks that it has not come to, stay as they are (`Beyond`).  So a function is being
built as long as the block of the insertion point is the only one that is open (`Building`), and a function
whose list is broken, or that has been left with an open block, can not be repaired (`Spoilt`).
-/

namespace LLVM

/-- The instructions that make a stack slot. -/
def Instruction.isAlloca : Instruction → Bool
  | .alloca _ _ _ => true
  | _ => false

lemma Instruction.isTerminator_of_isAlloca {i : Instruction} (h : i.isAlloca = true) :
    i.isTerminator = false := by
  cases i with
  | alloca => rfl
  | _ => cases h

/-- An instruction that ends no block, a stack slot, or a global variable. -/
def BuilderOp.Plain : BuilderOp → Prop
  | .append i => i.isTerminator = false
  | .prepend _ i => i.isAlloca = true
  | .createGlobal _ _ _ _ => True
  | _ => False

/-- Neither a block with a number below `k` is put into a function or returned to, nor is a terminator put
at the beginning of one. -/
def BuilderOp.Past (k : ℕ) : BuilderOp → Prop
  | .insertBlock _ b | .setInsertPoint b => k ≤ b
  | .prepend _ i => i.isTerminator = false
  | _ => True

lemma BuilderOp.Plain.past {op : BuilderOp} (h : op.Plain) (k : ℕ) : op.Past k := by
  cases op with
  | prepend => exact Instruction.isTerminator_of_isAlloca h
  | append | createGlobal => trivial
  | createFunction | createBlock | insertBlock | setInsertPoint => exact h.elim

/-! ## Instructions of a block -/

/-- Without a terminator. -/
def OpenCode (code : List Instruction) : Prop := ∀ i ∈ code, i.isTerminator = false

/-- With one terminator, at the end. -/
def ClosedCode (code : List Instruction) : Prop :=
  ∃ init i, code = init ++ [i] ∧ OpenCode init ∧ i.isTerminator = true

section Code

variable {code pre : List Instruction} {i : Instruction}

@[simp] lemma openCode_nil : OpenCode [] := fun _ h => absurd h List.not_mem_nil

lemma openCode_append : OpenCode (pre ++ code) ↔ OpenCode pre ∧ OpenCode code := by
  simp only [OpenCode, List.mem_append, or_imp, forall_and]

lemma openCode_singleton : OpenCode [i] ↔ i.isTerminator = false := by simp [OpenCode]

lemma ClosedCode.prepend (h : ClosedCode code) (hpre : OpenCode pre) : ClosedCode (pre ++ code) := by
  rcases h with ⟨init, i, rfl, hinit, hi⟩
  exact ⟨pre ++ init, i, (List.append_assoc _ _ _).symm, openCode_append.mpr ⟨hpre, hinit⟩, hi⟩

/-- A terminator closes what is open. -/
lemma OpenCode.close (h : OpenCode code) (hi : i.isTerminator = true) : ClosedCode (code ++ [i]) :=
  ⟨code, i, rfl, h, hi⟩

lemma ClosedCode.not_open (h : ClosedCode code) : ¬ OpenCode code := by
  rcases h with ⟨init, i, rfl, -, hi⟩
  intro hopen
  exact absurd (hopen i (by simp)) (by simp [hi])

end Code

namespace Module

/-- The instructions of a block. -/
def code (m : Module) (b : BlockId) : List Instruction := (m.block b).instructions

lemma getD_snoc {α β : Type} {l : List α} {a d : α} {i : ℕ} {g : α → β} (h : g a = g d) :
    g ((l ++ [a]).getD i d) = g (l.getD i d) := by
  rw [List.getD_eq_getElem?_getD, List.getD_eq_getElem?_getD]
  rcases Nat.lt_trichotomy i l.length with hlt | rfl | hlt
  · rw [List.getElem?_append_left hlt]
  · simpa using h
  · rw [List.getElem?_eq_none (by simpa using Nat.succ_le_of_lt hlt),
      List.getElem?_eq_none (Nat.le_of_lt hlt)]

variable {m m' m'' : Module} {f g : FunctionId} {b c : BlockId} {i : Instruction} {op : BuilderOp}

/-! ## What the operations do -/

/-- Closed code ends in a terminator. -/
lemma hasTerminator_of_closed (h : ClosedCode (m.code b)) : m.hasTerminator b = true := by
  rcases h with ⟨init, i, heq, -, hi⟩
  rw [code] at heq
  rw [hasTerminator, Block.hasTerminator, heq]
  simp [hi]

lemma hasTerminator_of_open (h : OpenCode (m.code b)) : m.hasTerminator b = false := by
  rw [hasTerminator, Block.hasTerminator]
  cases hlast : (m.block b).instructions.getLast? with
  | none => rfl
  | some i => exact h i (List.mem_of_getLast? hlast)

/-- Only the block itself is changed. -/
lemma code_onBlock (change : List Instruction → List Instruction) :
    (m.onBlock b change).code c =
      if b = c ∧ b < m.blocks.length then change (m.code c) else m.code c := by
  rw [code, code, block, block, onBlock, getD_modify]
  by_cases hbc : b = c
  · subst hbc
    split_ifs <;> rfl
  · rw [if_neg fun h => hbc h.1, if_neg fun h => hbc h.1]

/-- A block keeps its code when it is linked. -/
lemma code_link : (m.link f b).code c = m.code c := by
  rw [code, block_link, code]
  split_ifs <;> rfl

/-- An instruction goes to the insertion point. -/
lemma code_append (hpoint : m.insertBlock = some b) : (m.exec (.append i)).code c =
    if b = c ∧ b < m.blocks.length then m.code c ++ [i] else m.code c := by
  simp only [exec, hpoint]
  exact code_onBlock _

lemma code_append_ne (h : m.insertBlock ≠ some c) : (m.exec (.append i)).code c = m.code c := by
  rw [exec]
  cases hpoint : m.insertBlock with
  | none => rfl
  | some b =>
      refine (code_onBlock _).trans (if_neg ?_)
      rintro ⟨rfl, -⟩
      exact h hpoint

lemma code_prepend (m : Module) (f : FunctionId) (i : Instruction) (c : BlockId) :
    (m.exec (.prepend f i)).code c = m.code c ∨ (m.exec (.prepend f i)).code c = i :: m.code c := by
  rw [exec]
  cases (m.function f).first with
  | none => exact .inl rfl
  | some b =>
      have h := @code_onBlock { m with values := m.values + 1 } b c (i :: ·)
      split_ifs at h
      · exact .inr h
      · exact .inl h

lemma functions_length_append (m : Module) (i : Instruction) :
    (m.exec (.append i)).functions.length = m.functions.length := by
  rw [exec]
  cases m.insertBlock <;> rfl

lemma functions_length_prepend (m : Module) (f : FunctionId) (i : Instruction) :
    (m.exec (.prepend f i)).functions.length = m.functions.length := by
  rw [exec]
  cases (m.function f).first <;> rfl

lemma functions_length_createBlock (m : Module) (name : String) (parent : Option FunctionId) :
    (m.exec (.createBlock name parent)).functions.length = m.functions.length := by
  cases parent with
  | none => rfl
  | some f => exact functions_length_link _ f _

lemma blocks_length_append (m : Module) (i : Instruction) :
    (m.exec (.append i)).blocks.length = m.blocks.length := by
  rw [exec]
  cases m.insertBlock with
  | none => rfl
  | some b => exact List.length_modify ..

/-- A block that is not there has no instructions. -/
lemma code_eq_nil (h : m.blocks.length ≤ c) : m.code c = [] := by
  rw [code, block, List.getD_eq_getElem?_getD, List.getElem?_eq_none h]
  rfl

/-- A block begins without code. -/
lemma code_createBlock (m : Module) (name : String) (parent : Option FunctionId) (c : BlockId) :
    (m.exec (.createBlock name parent)).code c = m.code c := by
  have hnew : Module.code { m with blocks := m.blocks ++ [{ name }] } c = m.code c :=
    @getD_snoc _ _ m.blocks { name } { name := "" } c Block.instructions rfl
  cases parent with
  | none => exact hnew
  | some f => exact code_link.trans hnew

/-! ## Lists of blocks -/

/-- The block `c` is the next one behind the block `b`, in both directions. -/
def Follows (m : Module) (b c : BlockId) : Prop := m.next b = some c ∧ m.prev c = some b

/-- The list of the function `f` is properly linked, and holds the blocks `l`: each block whose parent is
`f`, once. -/
structure Listed (m : Module) (f : FunctionId) (l : List BlockId) : Prop where
  first : m.first f = l.head?
  last : m.last f = l.getLast?
  follows : l.IsChain m.Follows
  front : ∀ b ∈ l.head?, m.prev b = none
  back : ∀ b ∈ l.getLast?, m.next b = none
  nodup : l.Nodup
  mem_iff : ∀ b, b ∈ l ↔ m.parent b = some f

/-- The blocks of the function are a doubly linked list, and each has one terminator, at the end. -/
def WellFormed (m : Module) (f : FunctionId) : Prop :=
  (∃ l, m.Listed f l) ∧ ∀ b, m.parent b = some f → ClosedCode (m.code b)

/-- Parents are functions that are there, and the list of a function ends in one of its blocks. -/
structure Sound (m : Module) : Prop where
  parent_lt : ∀ b f, m.parent b = some f → f < m.functions.length
  last_parent : ∀ f b, m.last f = some b → m.parent b = some f

/-- The lists of all functions are as they were. -/
structure SameLists (m m' : Module) : Prop where
  first : ∀ f, m'.first f = m.first f
  last : ∀ f, m'.last f = m.last f
  parent : ∀ b, m'.parent b = m.parent b
  prev : ∀ b, m'.prev b = m.prev b
  next : ∀ b, m'.next b = m.next b

namespace SameLists

lemma refl (m : Module) : SameLists m m :=
  ⟨fun _ => rfl, fun _ => rfl, fun _ => rfl, fun _ => rfl, fun _ => rfl⟩

lemma trans (h : SameLists m m') (h' : SameLists m' m'') : SameLists m m'' where
  first f := (h'.first f).trans (h.first f)
  last f := (h'.last f).trans (h.last f)
  parent b := (h'.parent b).trans (h.parent b)
  prev b := (h'.prev b).trans (h.prev b)
  next b := (h'.next b).trans (h.next b)

/-- The instructions of a block have changed. -/
lemma onBlock (m : Module) (b : BlockId) (change : List Instruction → List Instruction) :
    SameLists m (m.onBlock b change) where
  first _ := rfl
  last _ := rfl
  parent c := parent_onBlock change
  prev c := by
    rw [Module.prev, Module.prev, block, block, Module.onBlock, getD_modify]
    split_ifs <;> rfl
  next c := by
    rw [Module.next, Module.next, block, block, Module.onBlock, getD_modify]
    split_ifs <;> rfl

/-- A block that is in no function has been added. -/
lemma createBlock (m : Module) (name : String) : SameLists m (m.exec (.createBlock name none)) := by
  have hblock {α : Type} (g : Block → α) (hg : g { name } = g { name := "" }) (b : BlockId) :
      g ((m.exec (.createBlock name none)).block b) = g (m.block b) := getD_snoc hg
  exact ⟨fun _ => rfl, fun _ => rfl, hblock _ rfl, hblock _ rfl, hblock _ rfl⟩

/-- A function without blocks has been added. -/
lemma createFunction (m : Module) (name : List UInt8) (type : IRType) (types : List IRType) :
    SameLists m (m.exec (.createFunction name type types)) := by
  have hfunction {α : Type} (g : Function → α)
      (hg : g { name, returnType := type, paramTypes := types } = g { name := [], returnType := .void })
      (f : FunctionId) :
      g ((m.exec (.createFunction name type types)).function f) = g (m.function f) := getD_snoc hg
  exact ⟨hfunction _ rfl, hfunction _ rfl, fun _ => rfl, fun _ => rfl, fun _ => rfl⟩

/-- An instruction has been numbered. -/
lemma created (m : Module) : SameLists m { m with values := m.values + 1 } :=
  ⟨fun _ => rfl, fun _ => rfl, fun _ => rfl, fun _ => rfl, fun _ => rfl⟩

lemma append (m : Module) (i : Instruction) : SameLists m (m.exec (.append i)) := by
  rw [exec]
  split
  · exact (created m).trans (.onBlock _ _ _)
  · exact created m

lemma prepend (m : Module) (f : FunctionId) (i : Instruction) : SameLists m (m.exec (.prepend f i)) := by
  rw [exec]
  split
  · exact (created m).trans (.onBlock _ _ _)
  · exact created m

lemma setInsertPoint (m : Module) (b : BlockId) : SameLists m (m.exec (.setInsertPoint b)) :=
  ⟨fun _ => rfl, fun _ => rfl, fun _ => rfl, fun _ => rfl, fun _ => rfl⟩

lemma plain (m : Module) (hop : op.Plain) : SameLists m (m.exec op) := by
  cases op with
  | append i => exact .append m i
  | prepend f i => exact .prepend m f i
  | createGlobal => exact ⟨fun _ => rfl, fun _ => rfl, fun _ => rfl, fun _ => rfl, fun _ => rfl⟩
  | createFunction | createBlock | insertBlock | setInsertPoint => exact hop.elim

end SameLists

/-- A block that has a parent is a block. -/
lemma lt_of_parent (h : m.parent b = some f) : b < m.blocks.length := by
  by_contra hle
  rw [parent, block, List.getD_eq_getElem?_getD, List.getElem?_eq_none (Nat.le_of_not_lt hle)] at h
  cases h

/-- A block that is not there is in no function. -/
lemma parent_eq_none (h : m.blocks.length ≤ b) : m.parent b = none := by
  by_contra hparent
  obtain ⟨f, hf⟩ := Option.ne_none_iff_exists'.mp hparent
  exact absurd (lt_of_parent hf) (Nat.not_lt.mpr h)

lemma lt_of_last (h : m.last f = some b) : f < m.functions.length := by
  by_contra hle
  rw [last, function, List.getD_eq_getElem?_getD, List.getElem?_eq_none (Nat.le_of_not_lt hle)] at h
  cases h

namespace Sound

/-- As long as the lists stay. -/
lemma same (h : Sound m) (hm : SameLists m m') (hlen : m.functions.length ≤ m'.functions.length) :
    Sound m' where
  parent_lt b f hb := (h.parent_lt b f (hm.parent b ▸ hb)).trans_le hlen
  last_parent f b hb := (hm.parent b).trans (h.last_parent f b (hm.last f ▸ hb))

/-- A block is put into a function that has it already, or where no function has it. -/
lemma link (h : Sound m) (hf : f < m.functions.length) (hb : b < m.blocks.length)
    (hparent : ∀ g, m.parent b = some g → g = f) : Sound (m.link f b) where
  parent_lt c g hc := by
    rw [functions_length_link]
    rw [parent_link] at hc
    split_ifs at hc
    · exact Option.some.inj hc ▸ hf
    · exact h.parent_lt c g hc
  last_parent g c hc := by
    rw [last_link] at hc
    split_ifs at hc with hg
    · rw [← Option.some.inj hc, ← hg.1]
      exact parent_link_self hb
    · have hold := h.last_parent g c hc
      rw [parent_link_ne, hold]
      rintro rfl
      exact hg ⟨(hparent g hold).symm, lt_of_last hc⟩

lemma createBlock (h : Sound m) (name : String) (hf : f < m.functions.length) :
    Sound (m.exec (.createBlock name (some f))) := by
  have hlists := SameLists.createBlock m name
  have hlength := blocks_length_createBlock m name none
  refine (h.same hlists le_rfl).link hf (hlength ▸ Nat.lt_succ_self _) fun g hg => ?_
  rw [hlists.parent, parent_eq_none le_rfl] at hg
  cases hg

lemma append (h : Sound m) (i : Instruction) : Sound (m.exec (.append i)) :=
  h.same (.append m i) (functions_length_append m i).ge

/-- Straight work touches no list. -/
lemma foldl_plain {ops : List BuilderOp} (h : Sound m) (hops : ∀ op ∈ ops, op.Plain) :
    Sound (ops.foldl Module.exec m) := by
  induction ops generalizing m with
  | nil => exact h
  | cons op ops ih =>
      have hop := hops op List.mem_cons_self
      refine ih (h.same (.plain m hop) ?_) fun op' h' => hops op' (List.mem_cons_of_mem _ h')
      cases op with
      | append i => exact (functions_length_append m i).ge
      | prepend f i => exact (functions_length_prepend m f i).ge
      | createGlobal => exact le_rfl
      | createFunction | createBlock | insertBlock | setInsertPoint => exact hop.elim

end Sound

namespace Listed

variable {l : List BlockId}

lemma same (h : Listed m f l) (hm : SameLists m m') : Listed m' f l where
  first := (hm.first f).trans h.first
  last := (hm.last f).trans h.last
  follows := h.follows.imp fun b c hbc => ⟨(hm.next b).trans hbc.1, (hm.prev c).trans hbc.2⟩
  front b hb := (hm.prev b).trans (h.front b hb)
  back b hb := (hm.next b).trans (h.back b hb)
  nodup := h.nodup
  mem_iff b := (h.mem_iff b).trans (by rw [hm.parent])

/-- A list without blocks. -/
lemma empty (hfirst : m.first f = none) (hlast : m.last f = none) (h : ∀ b, m.parent b ≠ some f) :
    Listed m f [] where
  first := hfirst
  last := hlast
  follows := .nil
  front b hb := by cases hb
  back b hb := by cases hb
  nodup := .nil
  mem_iff b := iff_of_false List.not_mem_nil (h b)

/-- A block of the list that has a next one is linked to it in both directions. -/
lemma prev_eq (h : Listed m f l) (hb : m.parent b = some f) (hnext : m.next b = some c) :
    m.prev c = some b := by
  rcases List.append_of_mem ((h.mem_iff b).mpr hb) with ⟨l₁, l₂, rfl⟩
  cases l₂ with
  | nil =>
      rw [h.back b (by simp)] at hnext
      cases hnext
  | cons d l₂ =>
      have hbd : m.Follows b d := (List.isChain_append.mp h.follows).2.1.rel
      rw [hbd.1] at hnext
      exact Option.some.inj hnext ▸ hbd.2

/-- A new block at the end. -/
lemma link (h : Listed m f l) (hf : f < m.functions.length) (hb : b < m.blocks.length)
    (hparent : m.parent b = none) : Listed (m.link f b) f (l ++ [b]) := by
  have hne {c : BlockId} (hc : c ∈ l) : ¬ (b = c ∧ c < m.blocks.length) := by
    rintro ⟨rfl, -⟩
    rw [h.mem_iff, hparent] at hc
    cases hc
  have hprev {c : BlockId} (hc : c ∈ l) : (m.link f b).prev c = m.prev c := by
    rw [prev_link, if_neg (hne hc)]
  have hnext {c d : BlockId} (hc : c ∈ l) (hd : m.next c = some d) :
      (m.link f b).next c = some d := by
    rw [next_link, if_neg, if_neg (hne hc), hd]
    rintro ⟨hlast, -⟩
    rw [h.back c (h.last ▸ hlast)] at hd
    cases hd
  have hself : (m.link f b).prev b = l.getLast? := by
    rw [prev_link, if_pos ⟨rfl, hb⟩, h.last]
  refine ⟨?_, ?_, List.isChain_append.mpr ⟨?_, .singleton b, ?_⟩, ?_, ?_, ?_, fun c => ?_⟩
  · rw [first_link, h.first, h.last]
    cases l with
    | nil => simp [hf]
    | cons c l => simp [List.getLast?_cons]
  · rw [last_link, if_pos ⟨rfl, hf⟩, List.getLast?_concat]
  · exact h.follows.imp_of_mem_imp fun c d hc hd hcd => ⟨hnext hc hcd.1, (hprev hd).trans hcd.2⟩
  · intro c hc d hd
    obtain rfl : b = d := by simpa using hd
    refine ⟨?_, hself.trans hc⟩
    have hlt : c < m.blocks.length := lt_of_parent ((h.mem_iff c).mp (List.mem_of_getLast? hc))
    rw [next_link, if_pos ⟨h.last.trans hc, hlt⟩]
  · intro c hc
    cases l with
    | nil =>
        obtain rfl : b = c := by simpa using hc
        exact hself
    | cons d l =>
        obtain rfl : d = c := by simpa using hc
        exact (hprev List.mem_cons_self).trans (h.front d rfl)
  · intro c hc
    obtain rfl : b = c := by simpa using hc
    rw [next_link, if_neg, if_pos ⟨rfl, hb⟩]
    rintro ⟨hlast, -⟩
    exact hne (List.mem_of_getLast? (h.last ▸ hlast)) ⟨rfl, hb⟩
  · refine List.nodup_append.mpr ⟨h.nodup, List.nodup_singleton b, fun c hc d hd heq => ?_⟩
    exact hne hc ⟨by rw [heq]; exact (List.mem_singleton.mp hd).symm, by
      rw [heq, List.mem_singleton.mp hd]; exact hb⟩
  · rw [List.mem_append, List.mem_singleton, h.mem_iff, parent_link]
    split_ifs with hc
    · exact iff_of_true (.inr hc.1.symm) rfl
    · refine or_iff_left fun heq => hc ⟨heq.symm, heq ▸ hb⟩

end Listed

/-- The lists of the module are sound, and that of the function `f` is properly linked. -/
structure Ordered (m : Module) (f : FunctionId) : Prop where
  sound : m.Sound
  listed : ∃ l, m.Listed f l

namespace Ordered

lemma same (h : Ordered m f) (hm : SameLists m m') (hlen : m.functions.length ≤ m'.functions.length) :
    Ordered m' f where
  sound := h.sound.same hm hlen
  listed := h.listed.imp fun _ hl => hl.same hm

lemma link (h : Ordered m f) (hf : f < m.functions.length) (hb : b < m.blocks.length)
    (hparent : m.parent b = none) : Ordered (m.link f b) f where
  sound := h.sound.link hf hb fun g hg => by
    rw [hparent] at hg
    cases hg
  listed := by
    obtain ⟨l, hl⟩ := h.listed
    exact ⟨_, hl.link hf hb hparent⟩

end Ordered

/-! ## Away from the insertion point -/

/-- Since `m`, a block other than that of the insertion point has got instructions at its beginning at
most, and only new blocks have been put into functions and come to. -/
structure Beyond (m m' : Module) : Prop where
  blocks : m.blocks.length ≤ m'.blocks.length
  functions : m.functions.length ≤ m'.functions.length
  code : ∀ b < m.blocks.length, m.insertBlock ≠ some b →
    ∃ pre, OpenCode pre ∧ m'.code b = pre ++ m.code b
  parents : ∀ b < m.blocks.length, m'.parent b = m.parent b
  prevs : ∀ b < m.blocks.length, m'.prev b = m.prev b
  nexts : ∀ b < m.blocks.length, (∀ f, m.last f ≠ some b) → m'.next b = m.next b
  lasts : ∀ f, m'.last f = m.last f ∨ ∃ b, m'.last f = some b ∧ m.blocks.length ≤ b
  point : m'.insertBlock = m.insertBlock ∨ ∃ b, m'.insertBlock = some b ∧ m.blocks.length ≤ b

namespace Beyond

lemma refl (m : Module) : Beyond m m where
  blocks := le_rfl
  functions := le_rfl
  code _ _ _ := ⟨[], openCode_nil, rfl⟩
  parents _ _ := rfl
  prevs _ _ := rfl
  nexts _ _ _ := rfl
  lasts _ := .inl rfl
  point := .inl rfl

/-- A block that is left is not returned to. -/
lemma point_ne (h : Beyond m m') (hb : b < m.blocks.length) (hne : m.insertBlock ≠ some b) :
    m'.insertBlock ≠ some b := by
  rcases h.point with hsame | ⟨c, hc, hle⟩
  · rwa [hsame]
  · rw [hc]
    rintro ⟨⟩
    exact absurd hb (Nat.not_lt.mpr hle)

/-- A block that is the last one of no function does not become one. -/
lemma last_ne (h : Beyond m m') (hb : b < m.blocks.length) (hne : ∀ f, m.last f ≠ some b) (f : FunctionId) :
    m'.last f ≠ some b := by
  rcases h.lasts f with hsame | ⟨c, hc, hle⟩
  · rw [hsame]
    exact hne f
  · rw [hc]
    rintro ⟨⟩
    exact absurd hb (Nat.not_lt.mpr hle)

lemma trans (h : Beyond m m') (h' : Beyond m' m'') : Beyond m m'' where
  blocks := h.blocks.trans h'.blocks
  functions := h.functions.trans h'.functions
  code b hb hne := by
    obtain ⟨pre, hpre, heq⟩ := h.code b hb hne
    obtain ⟨pre', hpre', heq'⟩ := h'.code b (hb.trans_le h.blocks) (h.point_ne hb hne)
    exact ⟨pre' ++ pre, openCode_append.mpr ⟨hpre', hpre⟩, by rw [heq', heq, List.append_assoc]⟩
  parents b hb := (h'.parents b (hb.trans_le h.blocks)).trans (h.parents b hb)
  prevs b hb := (h'.prevs b (hb.trans_le h.blocks)).trans (h.prevs b hb)
  nexts b hb hne := (h'.nexts b (hb.trans_le h.blocks) (h.last_ne hb hne)).trans (h.nexts b hb hne)
  lasts f := by
    rcases h'.lasts f with hsame | ⟨b, hb, hle⟩
    · rw [hsame]
      exact h.lasts f
    · exact .inr ⟨b, hb, h.blocks.trans hle⟩
  point := by
    rcases h'.point with hsame | ⟨b, hb, hle⟩
    · rw [hsame]
      exact h.point
    · exact .inr ⟨b, hb, h.blocks.trans hle⟩

/-- An operation that leaves the lists as they are. -/
lemma same (h : Beyond m m') (hlists : SameLists m' m'') (hblocks : m'.blocks.length ≤ m''.blocks.length)
    (hfunctions : m'.functions.length ≤ m''.functions.length)
    (hcode : ∀ b < m.blocks.length, m.insertBlock ≠ some b →
      ∃ pre, OpenCode pre ∧ m''.code b = pre ++ m'.code b)
    (hpoint : m''.insertBlock = m'.insertBlock ∨
      ∃ b, m''.insertBlock = some b ∧ m.blocks.length ≤ b) : Beyond m m'' where
  blocks := h.blocks.trans hblocks
  functions := h.functions.trans hfunctions
  code b hb hne := by
    obtain ⟨pre, hpre, heq⟩ := h.code b hb hne
    obtain ⟨pre', hpre', heq'⟩ := hcode b hb hne
    exact ⟨pre' ++ pre, openCode_append.mpr ⟨hpre', hpre⟩, by rw [heq', heq, List.append_assoc]⟩
  parents b hb := (hlists.parent b).trans (h.parents b hb)
  prevs b hb := (hlists.prev b).trans (h.prevs b hb)
  nexts b hb hne := (hlists.next b).trans (h.nexts b hb hne)
  lasts f := by
    rw [hlists.last]
    exact h.lasts f
  point := by
    rcases hpoint with hsame | hnew
    · rw [hsame]
      exact h.point
    · exact .inr hnew

/-- A new block is put at the end of a function. -/
lemma link (h : Beyond m m') (hb : m.blocks.length ≤ b) : Beyond m (m'.link f b) where
  blocks := h.blocks.trans (blocks_length_link m' f b).ge
  functions := h.functions.trans (functions_length_link m' f b).ge
  code c hc hne := by
    rw [code_link]
    exact h.code c hc hne
  parents c hc := (parent_link_ne (Nat.ne_of_lt (hc.trans_le hb))).trans (h.parents c hc)
  prevs c hc := by
    rw [prev_link, if_neg, h.prevs c hc]
    rintro ⟨rfl, -⟩
    exact absurd hc (Nat.not_lt.mpr hb)
  nexts c hc hne := by
    rw [next_link, if_neg fun hlast => h.last_ne hc hne f hlast.1, if_neg, h.nexts c hc hne]
    rintro ⟨rfl, -⟩
    exact absurd hc (Nat.not_lt.mpr hb)
  lasts g := by
    rw [last_link]
    split_ifs
    · exact .inr ⟨b, rfl, hb⟩
    · exact h.lasts g
  point := insertBlock_link.symm ▸ h.point

/-- An operation on what is new. -/
lemma exec (h : Beyond m m') (op : BuilderOp) (hop : op.Past m.blocks.length) : Beyond m (m'.exec op) := by
  have hsame (b : BlockId) : ∃ pre, OpenCode pre ∧ m'.code b = pre ++ m'.code b := ⟨[], openCode_nil, rfl⟩
  cases op with
  | createFunction name type types =>
      exact h.same (.createFunction m' name type types) le_rfl (by simp [Module.exec])
        (fun b _ _ => hsame b) (.inl rfl)
  | createGlobal name type isConst init =>
      exact h.same ⟨fun _ => rfl, fun _ => rfl, fun _ => rfl, fun _ => rfl, fun _ => rfl⟩ le_rfl le_rfl
        (fun b _ _ => hsame b) (.inl rfl)
  | createBlock name parent =>
      have hnew : Beyond m (m'.exec (.createBlock name none)) :=
        h.same (.createBlock m' name) (Module.blocks_length_exec m' _) le_rfl
          (fun b _ _ => by rw [code_createBlock]; exact hsame b) (.inl rfl)
      cases parent with
      | none => exact hnew
      | some f => exact hnew.link h.blocks
  | insertBlock f b => exact h.link hop
  | setInsertPoint b =>
      exact h.same (.setInsertPoint m' b) le_rfl le_rfl (fun b _ _ => hsame b) (.inr ⟨b, rfl, hop⟩)
  | append i =>
      refine h.same (.append m' i) (Module.blocks_length_exec m' _) (functions_length_append m' i).ge
        (fun b hb hne => ?_) (.inl (@Module.insertBlock_exec m' (.append i) trivial))
      rw [code_append_ne (h.point_ne hb hne)]
      exact hsame b
  | prepend f i =>
      refine h.same (.prepend m' f i) (Module.blocks_length_exec m' _) (functions_length_prepend m' f i).ge
        (fun b _ _ => ?_) (.inl (@Module.insertBlock_exec m' (.prepend f i) trivial))
      rcases code_prepend m' f i b with hcode | hcode
      · rw [hcode]
        exact hsame b
      · exact ⟨[i], openCode_singleton.mpr hop, hcode⟩

/-- Operations that do not go back, one behind the other. -/
lemma foldl_exec {ops : List BuilderOp} (h : Beyond m m')
    (hops : ∀ op ∈ ops, op.Past m.blocks.length) : Beyond m (ops.foldl Module.exec m') := by
  induction ops generalizing m' with
  | nil => exact h
  | cons op ops ih =>
      exact ih (h.exec op (hops op List.mem_cons_self)) fun op' h' => hops op' (List.mem_cons_of_mem _ h')

/-- A block behind the builder stays open. -/
lemma open_code (h : Beyond m m') (hb : b < m.blocks.length) (hne : m.insertBlock ≠ some b)
    (hopen : OpenCode (m.code b)) : OpenCode (m'.code b) := by
  obtain ⟨pre, hpre, heq⟩ := h.code b hb hne
  exact heq ▸ openCode_append.mpr ⟨hpre, hopen⟩

/-- A block behind the builder stays closed. -/
lemma closed_code (h : Beyond m m') (hb : b < m.blocks.length) (hne : m.insertBlock ≠ some b)
    (hclosed : ClosedCode (m.code b)) : ClosedCode (m'.code b) := by
  obtain ⟨pre, hpre, heq⟩ := h.code b hb hne
  exact heq ▸ hclosed.prepend hpre

end Beyond

/-- A block that waits for its place is in no function in the meantime. -/
structure Pending (m : Module) (b : BlockId) : Prop where
  lt : b < m.blocks.length
  parent : m.parent b = none
  point : m.insertBlock ≠ some b
  open_code : OpenCode (m.code b)

/-- A pending block stays pending. -/
lemma Pending.beyond (h : Pending m b) (hm : Beyond m m') : Pending m' b :=
  ⟨h.lt.trans_le hm.blocks, (hm.parents b h.lt).trans h.parent, hm.point_ne h.lt h.point,
    hm.open_code h.lt h.point h.open_code⟩

/-! ## Building a function -/

/-- The function `f` is being built: its list is properly linked, the insertion point is in its block `b`,
and its other blocks are complete. -/
structure Building (m : Module) (f : FunctionId) (b : BlockId) : Prop where
  point : m.insertBlock = some b
  parent : m.parent b = some f
  ordered : m.Ordered f
  others : ∀ c, m.parent c = some f → c ≠ b → ClosedCode (m.code c)

/-- The builder goes to a block that it puts at the end of a function. -/
def moveTo (m : Module) (f : FunctionId) (b : BlockId) : Module :=
  (m.exec (.insertBlock f b)).exec (.setInsertPoint b)

lemma code_moveTo : (m.moveTo f b).code c = m.code c := code_link

lemma blocks_moveTo : (m.moveTo f b).blocks.length = m.blocks.length := blocks_length_link m f b

lemma parent_moveTo_ne (h : c ≠ b) : (m.moveTo f b).parent c = m.parent c := parent_link_ne h

lemma Pending.moveTo (h : Pending m b) (hne : c ≠ b) : Pending (m.moveTo f c) b where
  lt := h.lt.trans_eq blocks_moveTo.symm
  parent := (parent_moveTo_ne hne.symm).trans h.parent
  point := by
    rintro ⟨⟩
    exact hne rfl
  open_code := by
    rw [code_moveTo]
    exact h.open_code

namespace Building

lemma lt (h : Building m f b) : b < m.blocks.length := lt_of_parent h.parent

lemma function_lt (h : Building m f b) : f < m.functions.length := h.ordered.sound.parent_lt b f h.parent

/-- As long as the lists and the insertion point stay. -/
lemma same (h : Building m f b) (hm : Beyond m m') (hlists : SameLists m m')
    (hpoint : m'.insertBlock = m.insertBlock) : Building m' f b where
  point := hpoint.trans h.point
  parent := (hlists.parent b).trans h.parent
  ordered := h.ordered.same hlists hm.functions
  others c hc hne := by
    rw [hlists.parent] at hc
    refine hm.closed_code (lt_of_parent hc) ?_ (h.others c hc hne)
    rw [h.point]
    exact fun heq => hne (Option.some.inj heq).symm

lemma append (h : Building m f b) (i : Instruction) : Building (m.exec (.append i)) f b :=
  h.same ((Beyond.refl m).exec _ trivial) (.append m i) (@Module.insertBlock_exec m (.append i) trivial)

lemma code_append (h : Building m f b) (i : Instruction) :
    (m.exec (.append i)).code b = m.code b ++ [i] := by
  rw [Module.code_append h.point, if_pos ⟨rfl, h.lt⟩]

/-- An instruction that is no terminator. -/
lemma plain (h : Building m f b) (hopen : OpenCode (m.code b)) (hop : op.Plain) :
    Building (m.exec op) f b ∧ OpenCode ((m.exec op).code b) := by
  have hpoint : (m.exec op).insertBlock = m.insertBlock := by
    refine Module.insertBlock_exec ?_
    cases op with
    | insertBlock | setInsertPoint => exact hop.elim
    | _ => trivial
  refine ⟨h.same ((Beyond.refl m).exec op (hop.past _)) (.plain m hop) hpoint, ?_⟩
  cases op with
  | append i =>
      rw [h.code_append]
      exact openCode_append.mpr ⟨hopen, openCode_singleton.mpr hop⟩
  | prepend g i =>
      rcases code_prepend m g i b with hsame | hnew
      · rwa [hsame]
      · rw [hnew]
        exact openCode_append.mpr
          ⟨openCode_singleton.mpr (Instruction.isTerminator_of_isAlloca hop), hopen⟩
  | createGlobal name type isConst init => exact hopen
  | createFunction | createBlock | insertBlock | setInsertPoint => exact hop.elim

lemma foldl_plain {ops : List BuilderOp} (h : Building m f b) (hopen : OpenCode (m.code b))
    (hops : ∀ op ∈ ops, op.Plain) : Building (ops.foldl Module.exec m) f b ∧
      OpenCode ((ops.foldl Module.exec m).code b) := by
  induction ops generalizing m with
  | nil => exact ⟨h, hopen⟩
  | cons op ops ih =>
      obtain ⟨h', hopen'⟩ := h.plain hopen (hops op List.mem_cons_self)
      exact ih h' hopen' fun op' h' => hops op' (List.mem_cons_of_mem _ h')

/-- The next block is one that was waiting. -/
lemma moveTo (h : Building m f b) (hclosed : ClosedCode (m.code b)) (hc : Pending m c) :
    Building (m.moveTo f c) f c where
  point := rfl
  parent := parent_link_self hc.lt
  ordered := (h.ordered.link h.function_lt hc.lt hc.parent).same (.setInsertPoint _ c) le_rfl
  others d hd hne := by
    rw [parent_moveTo_ne hne] at hd
    rw [code_moveTo]
    by_cases hdb : d = b
    · exact hdb ▸ hclosed
    · exact h.others d hd hdb

/-- A conditional branch, to a new block of the function and to one that is to come. -/
lemma branch (h : Building m f b) (hopen : OpenCode (m.code b)) (cond : Option Value)
    (ifTrue ifFalse merge : String) :
    let k := m.blocks.length
    let m' := ((((m.exec (.createBlock ifTrue (some f))).exec (.createBlock ifFalse none)).exec
      (.createBlock merge none)).exec (.append (.condBr cond k (k + 1)))).exec (.setInsertPoint k)
    Building m' f k ∧ OpenCode (m'.code k) ∧ Pending m' (k + 1) ∧ Pending m' (k + 2) := by
  intro k m'
  -- the first of the new blocks in its place, and the other ones
  let m₀ := m.exec (.createBlock ifTrue none)
  let m₁ := m₀.link f k
  let m₃ := (m₁.exec (.createBlock ifFalse none)).exec (.createBlock merge none)
  have hlength₀ : m₀.blocks.length = k + 1 := blocks_length_createBlock m ifTrue none
  have hlength₁ : m₁.blocks.length = k + 1 := (blocks_length_link m₀ f k).trans hlength₀
  have hlength₃ : m₃.blocks.length = k + 3 := by
    simp only [m₃, blocks_length_createBlock, hlength₁]
  have hlength : m'.blocks.length = k + 3 := (blocks_length_append m₃ _).trans hlength₃
  have hlists : SameLists m₁ m' :=
    (((SameLists.createBlock m₁ ifFalse).trans (.createBlock _ merge)).trans (.append m₃ _)).trans
      (.setInsertPoint _ k)
  have hfunctions : m₁.functions.length ≤ m'.functions.length :=
    (functions_length_append m₃ _).ge
  have hpoint₃ : m₃.insertBlock = some b := insertBlock_link.trans h.point
  have hcode₃ (c : BlockId) : m₃.code c = m.code c := by
    simp only [m₃, m₁, code_createBlock, code_link, m₀]
  have hcode (c : BlockId) (hc : c ≠ b) : m'.code c = m.code c := by
    refine (code_append_ne (m := m₃) ?_).trans (hcode₃ c)
    rw [hpoint₃]
    exact fun heq => hc (Option.some.inj heq).symm
  have hnone {c : BlockId} (hc : k ≤ c) : m₀.parent c = none := by
    rw [(SameLists.createBlock m ifTrue).parent, parent_eq_none hc]
  have hnew {c : BlockId} (hc : k ≤ c) : OpenCode (m'.code c) := by
    rw [hcode c (fun heq => absurd h.lt (heq ▸ Nat.not_lt.mpr hc)), code_eq_nil hc]
    exact openCode_nil
  have hpending {c : BlockId} (hc : k < c) (hc' : c < k + 3) : Pending m' c := by
    refine ⟨hlength ▸ hc', ?_, ?_, hnew hc.le⟩
    · rw [hlists.parent, parent_link_ne hc.ne', hnone hc.le]
    · rintro ⟨⟩
      exact absurd hc (Nat.lt_irrefl k)
  have hordered : m₁.Ordered f :=
    (h.ordered.same (.createBlock m ifTrue) le_rfl).link h.function_lt
      (hlength₀ ▸ Nat.lt_succ_self k) (hnone le_rfl)
  refine ⟨⟨rfl, ?_, hordered.same hlists hfunctions, fun c hc hne => ?_⟩, hnew le_rfl,
    hpending (Nat.lt_succ_self k) (Nat.lt_add_of_pos_right Nat.two_pos),
    hpending (Nat.lt_add_of_pos_right Nat.two_pos) (Nat.lt_succ_self (k + 2))⟩
  · rw [hlists.parent]
    exact parent_link_self (hlength₀ ▸ Nat.lt_succ_self k)
  · rw [hlists.parent, parent_link_ne hne, (SameLists.createBlock m ifTrue).parent] at hc
    by_cases hcb : c = b
    · subst hcb
      have happend : m'.code c = m₃.code c ++ [.condBr cond k (k + 1)] := by
        refine (Module.code_append hpoint₃).trans (if_pos ⟨rfl, ?_⟩)
        rw [hlength₃]
        exact h.lt.trans_le (Nat.le_add_right k 3)
      rw [happend, hcode₃]
      exact hopen.close rfl
    · rw [hcode c hcb]
      exact h.others c hc hcb

/-- When the last block is closed, the function is complete. -/
lemma wellFormed (h : Building m f b) (hclosed : ClosedCode (m.code b)) : m.WellFormed f := by
  refine ⟨h.ordered.listed, fun c hc => ?_⟩
  by_cases hcb : c = b
  · exact hcb ▸ hclosed
  · exact h.others c hc hcb

end Building

/-! ## Functions that can not be completed -/

/-- The block `a` of the function `f` points to the block `b` behind it, and stays as it is. -/
structure Joined (m : Module) (f : FunctionId) (a b : BlockId) : Prop where
  ne : a ≠ b
  parent : m.parent a = some f
  placed : m.parent b = some f
  next : m.next a = some b
  last : ∀ g, m.last g ≠ some a

/-- The block behind `a` does not point back to it. -/
structure Broken (m : Module) (f : FunctionId) (a b : BlockId) : Prop extends Joined m f a b where
  prev : m.prev b ≠ some a

/-- The list of the function `f` is broken, or it has an open block that the builder has left. -/
def Spoilt (m : Module) (f : FunctionId) : Prop :=
  (∃ a b, m.Broken f a b) ∨
    ∃ b, m.parent b = some f ∧ m.insertBlock ≠ some b ∧ OpenCode (m.code b)

namespace Joined

variable {a : BlockId}

lemma lt (h : Joined m f a b) : a < m.blocks.length ∧ b < m.blocks.length :=
  ⟨lt_of_parent h.parent, lt_of_parent h.placed⟩

lemma beyond (h : Joined m f a b) (hm : Beyond m m') : Joined m' f a b where
  ne := h.ne
  parent := (hm.parents a h.lt.1).trans h.parent
  placed := (hm.parents b h.lt.2).trans h.placed
  next := (hm.nexts a h.lt.1 h.last).trans h.next
  last := hm.last_ne h.lt.1 h.last

lemma same (h : Joined m f a b) (hm : SameLists m m') : Joined m' f a b where
  ne := h.ne
  parent := (hm.parent a).trans h.parent
  placed := (hm.parent b).trans h.placed
  next := (hm.next a).trans h.next
  last g := by
    rw [hm.last]
    exact h.last g

/-- Another block is put into a function, or the second one into `f`. -/
lemma link (h : Joined m f a b) {g : FunctionId} (hc : a ≠ c) (hg : c = b → g = f) :
    Joined (m.link g c) f a b where
  ne := h.ne
  parent := (parent_link_ne hc).trans h.parent
  placed := by
    rw [parent_link]
    split_ifs with hcb
    · rw [hg hcb.1]
    · exact h.placed
  next := by
    rw [next_link, if_neg fun hlast => h.last g hlast.1, if_neg fun heq => hc heq.1.symm]
    exact h.next
  last g' := by
    rw [last_link]
    split_ifs
    · exact fun heq => hc (Option.some.inj heq).symm
    · exact h.last g'

/-- The second block is put into the function once more: it points back to the last one. -/
lemma relink (h : Joined m f a b) : Broken (m.link f b) f a b where
  toJoined := h.link h.ne fun _ => rfl
  prev := by
    rw [prev_link, if_pos ⟨rfl, h.lt.2⟩]
    exact h.last f

/-- Two blocks that are created in a function one after the other. -/
lemma create (h : Sound m) (hf : f < m.functions.length) (first second : String) :
    Joined ((m.exec (.createBlock first (some f))).exec (.createBlock second (some f))) f
      m.blocks.length (m.blocks.length + 1) := by
  let k := m.blocks.length
  let m₁ := m.exec (.createBlock first (some f))
  let m₂ := m₁.exec (.createBlock second none)
  have hlength₁ : m₁.blocks.length = k + 1 := blocks_length_createBlock m first (some f)
  have hlength₂ : m₂.blocks.length = k + 2 := by
    rw [blocks_length_createBlock, hlength₁]
  have hlast₂ (g : FunctionId) : m₂.last g = if f = g ∧ g < m.functions.length then some k else m.last g :=
    (last_link (m.exec (.createBlock first none)) f g k)
  have hexec : m₁.exec (.createBlock second (some f)) = m₂.link f (k + 1) := by
    rw [← hlength₁]
    rfl
  show Joined (m₁.exec (.createBlock second (some f))) f k (k + 1)
  rw [hexec]
  have hk : k ≠ k + 1 := (Nat.lt_succ_self k).ne
  refine ⟨hk, ?_, ?_, ?_, fun g => ?_⟩
  · rw [parent_link_ne hk, (SameLists.createBlock m₁ second).parent]
    exact parent_createBlock m first f
  · exact parent_link_self (hlength₂ ▸ Nat.lt_succ_self (k + 1))
  · rw [next_link, if_pos]
    exact ⟨(hlast₂ f).trans (if_pos ⟨rfl, hf⟩), hlength₂ ▸ Nat.lt_add_of_pos_right Nat.two_pos⟩
  · rw [last_link]
    split_ifs with hg
    · exact fun heq => hk (Option.some.inj heq).symm
    · have hg' : ¬ (f = g ∧ g < m.functions.length) := by
        rwa [functions_length_createBlock, functions_length_createBlock] at hg
      rw [hlast₂, if_neg hg']
      intro hlast
      exact absurd (lt_of_parent (h.last_parent g k hlast)) (Nat.lt_irrefl k)

end Joined

namespace Broken

variable {a : BlockId}

lemma beyond (h : Broken m f a b) (hm : Beyond m m') : Broken m' f a b where
  toJoined := h.toJoined.beyond hm
  prev := by
    rw [hm.prevs b h.lt.2]
    exact h.prev

lemma link (h : Broken m f a b) (hc : m.parent c = none) (g : FunctionId) :
    Broken (m.link g c) f a b := by
  have hne {d : BlockId} (hd : m.parent d = some f) : d ≠ c := by
    rintro rfl
    exact Option.some_ne_none f (hd.symm.trans hc)
  refine ⟨h.toJoined.link (hne h.parent) fun heq => absurd heq.symm (hne h.placed), ?_⟩
  rw [prev_link, if_neg fun heq => hne h.placed heq.1.symm]
  exact h.prev

end Broken

namespace Spoilt

lemma beyond (h : Spoilt m f) (hm : Beyond m m') : Spoilt m' f := by
  rcases h with ⟨a, b, hbroken⟩ | ⟨b, hb, hne, hopen⟩
  · exact .inl ⟨a, b, hbroken.beyond hm⟩
  · have hlt := lt_of_parent hb
    exact .inr ⟨b, (hm.parents b hlt).trans hb, hm.point_ne hlt hne, hm.open_code hlt hne hopen⟩

/-- A block that the function has is put into it once more. -/
lemma of_relinked {a : BlockId} (h : Joined m f a b) : Spoilt (m.moveTo f b) f :=
  .inl ⟨a, b, { toJoined := h.relink.toJoined.same (.setInsertPoint _ b), prev := h.relink.prev }⟩

lemma moveTo (h : Spoilt m f) (hc : Pending m c) : Spoilt (m.moveTo f c) f := by
  rcases h with ⟨a, b, hbroken⟩ | ⟨b, hb, hne, hopen⟩
  · have hlinked := hbroken.link hc.parent f
    exact .inl ⟨a, b, { toJoined := hlinked.toJoined.same (.setInsertPoint _ c), prev := hlinked.prev }⟩
  · have hbc : b ≠ c := by
      rintro rfl
      exact Option.some_ne_none f (hb.symm.trans hc.parent)
    refine .inr ⟨b, (parent_moveTo_ne hbc).trans hb, ?_, ?_⟩
    · rintro ⟨⟩
      exact hbc rfl
    · rwa [code_moveTo]

/-- The builder goes to a new block, and leaves the function with an open one. -/
lemma of_left (h : Building m f b) (hopen : OpenCode (m.code b)) (hm : Beyond m m')
    (hcode : m'.code b = m.code b) (hpoint : m'.insertBlock ≠ some b) : Spoilt m' f :=
  .inr ⟨b, (hm.parents b h.lt).trans h.parent, hpoint, hcode ▸ hopen⟩

/-- **A spoilt function is not well-formed.** -/
lemma not_wellFormed (h : Spoilt m f) : ¬ m.WellFormed f := by
  rintro ⟨⟨l, hl⟩, hclosed⟩
  rcases h with ⟨a, b, hbroken⟩ | ⟨b, hb, -, hopen⟩
  · exact hbroken.prev (hl.prev_eq hbroken.parent hbroken.next)
  · exact (hclosed b hb).not_open hopen

end Spoilt

end Module

end LLVM
