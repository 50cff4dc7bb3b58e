import LogicCompiler.Codegen.Recursion

/-!
# Names in the order of the arena

An identifier is looked up wherever its node is visited, and every node is visited: also the nodes for
the type and the name of a declaration, for the target of a call and for a member.  The visits come to
the nodes in the order of the arena, apart from repetitions, so that a program is compiled only if each
of these identifiers is the name of a variable whose declaration stands further in front in the arena
(`named_of_compile`).
-/

namespace LogicCompiler

open TokenType NodeKind Cat LLVM Fuel LogicCompiler.Parser

namespace Compiler

variable {P : Program} {s t : Compiler} {i j k : ℕ} {n : Node} {ids : List NodeId} {x : List Byte}

/-! ## What a scope can hold -/

/-- The name of a variable that is declared in front of the node `k`. -/
def NamedBefore (P : Program) (k : ℕ) (x : List Byte) : Prop :=
  ∃ i n, i < k ∧ P.tree[i]? = some n ∧ n.kind = VarDecl ∧ P.text n.data.nameNode = x

lemma NamedBefore.mono (h : NamedBefore P j x) (hjk : j ≤ k) : NamedBefore P k x := by
  rcases h with ⟨i, n, hi, hn⟩
  exact ⟨i, n, hi.trans_le hjk, hn⟩

/-- The visits have come to the node `k`. -/
structure Frontier (P : Program) (k : ℕ) (s : Compiler) : Prop where
  declared : ∀ x, s.lookupVar x ≠ none → NamedBefore P k x
  checked : ∀ j < k, ∀ m, P.tree[j]? = some m → m.kind = IdentifierExpr → NamedBefore P j (P.text j)

/-- Only the variables matter, and there may be fewer of them. -/
lemma Frontier.of_lookup (h : Frontier P k s) (hst : ∀ x, t.lookupVar x ≠ none → s.lookupVar x ≠ none) :
    Frontier P k t :=
  ⟨fun x hx => h.declared x (hst x hx), h.checked⟩

/-- The visits have come past the node `i`.  An identifier at the frontier has been looked up. -/
lemma Frontier.past {l : ℕ} (h : Frontier P l s) (hi : i ≤ k) (hkl : k ≤ l)
    (hnode : P.tree[i]? = some n) (hident : n.kind = IdentifierExpr → NamedBefore P k (P.text i)) :
    Frontier P (max l (i + 1)) s := by
  refine ⟨fun x hx => (h.declared x hx).mono (Nat.le_max_left _ _), fun j hj m hm hkind => ?_⟩
  by_cases hjl : j < l
  · exact h.checked j hjl m hm hkind
  · obtain rfl : j = i := by omega
    obtain rfl : k = j := by omega
    obtain rfl := Option.some.inj (hnode.symm.trans hm)
    exact hident hkind

lemma lookupVar_popped (h : t.popped.lookupVar x ≠ none) : t.lookupVar x ≠ none := by
  rw [popped] at h
  split at h
  · next scope parent scopes heq =>
      rw [lookupVar, heq, List.findSome?_cons]
      split
      · exact Option.some_ne_none _
      · exact h
  · exact h

lemma lookupVar_closed (i : Instruction) : (s.closed i).lookupVar x = s.lookupVar x := by
  rw [closed]
  split
  · split_ifs
    · rfl
    · rfl
  · rfl

lemma lookupVar_entered {name : List Byte} {type : IRType} :
    (s.entered i name type).lookupVar x = s.lookupVar x := by
  cases hscopes : s.scopes with
  | nil => simp [entered, lookupVar, onScope, issue, hscopes]
  | cons scope scopes => simp [entered, lookupVar, onScope, issue, hscopes, List.findSome?_cons]

/-! ## The order of the visits -/

/-- The ids are visited at `k` or in front of it, where `k` goes along with the visits. -/
def Within : ℕ → List NodeId → Prop
  | _, [] => True
  | k, i :: ids =>
      i = kNullNode ∧ Within k ids ∨ i ≠ kNullNode ∧ i ≤ k ∧ Within (max k (i + 1)) ids

lemma Within.mono (h : Within j ids) (hjk : j ≤ k) : Within k ids := by
  induction ids generalizing j k with
  | nil => trivial
  | cons i ids ih =>
      rcases h with ⟨hi, h⟩ | ⟨hne, hi, h⟩
      · exact .inl ⟨hi, ih h hjk⟩
      · exact .inr ⟨hne, hi.trans hjk, ih h (by omega)⟩

lemma Within.le (h : Within k [i]) (hid : i ≠ kNullNode) : i ≤ k := by
  rcases h with ⟨hnull, -⟩ | ⟨-, hi, -⟩
  · exact absurd hnull hid
  · exact hi

lemma within_of_lt (h : ∀ j ∈ ids, j = kNullNode ∨ j < k) : Within k ids := by
  induction ids with
  | nil => trivial
  | cons i ids ih =>
      have hrest := ih fun j hj => h j (List.mem_cons_of_mem _ hj)
      by_cases hnull : i = kNullNode
      · exact .inl ⟨hnull, hrest⟩
      · have hi := (h i List.mem_cons_self).resolve_left hnull
        exact .inr ⟨hnull, hi.le, hrest.mono (Nat.le_max_left _ _)⟩

lemma within_range' {a len : ℕ} (hroom : a + len ≤ kNullNode) (h : a ≤ k) :
    Within k (List.range' a len) := by
  induction len generalizing a k with
  | zero => trivial
  | succ len ih =>
      rw [List.range'_succ]
      have hlt : a < kNullNode := by omega
      exact .inr ⟨hlt.ne, h, ih (by omega) (Nat.le_max_right _ _)⟩

/-- The visits of `ids` have taken the frontier along. -/
def Proceeds (P : Program) (k : ℕ) (ids : List NodeId) (t : Compiler) : Prop :=
  ∃ l, k ≤ l ∧ (∀ i ∈ ids, i ≠ kNullNode → i < l) ∧ Frontier P l t

lemma proceeds_singleton {l : ℕ} (hkl : k ≤ l) (h : Frontier P (max l (i + 1)) t) : Proceeds P k [i] t := by
  refine ⟨_, hkl.trans (Nat.le_max_left _ _), fun j hj _ => ?_, h⟩
  rw [List.mem_singleton.mp hj]
  exact Nat.lt_of_lt_of_le (Nat.lt_succ_self i) (Nat.le_max_right _ _)

/-- The visit of a block is that of the nodes behind it. -/
lemma Visits.of_unit (h : Visits P [i] s t) (hid : i ≠ kNullNode) (hnode : P.tree[i]? = some n)
    (hunit : n.kind = TranslationUnit) : ∃ u, Visits P (idsBehind P.tree i) s.pushed u := by
  generalize hids : [i] = ids at h
  induction h with
  | nil => cases hids
  | cons h hrest ih ihrest =>
      obtain ⟨rfl, rfl⟩ := List.cons.inj hids
      exact ih rfl
  | null => exact absurd (List.cons.inj hids).1 hid
  | unit _ hnode' hkind hasks ih =>
      cases hids
      exact ⟨_, hasks⟩
  | plain _ hnode' hkind =>
      cases hids
      obtain rfl := Option.some.inj (hnode.symm.trans hnode')
      rw [Node.IsPlain, hunit] at hkind
      exact hkind.elim
  | returns _ hnode' hkind | function _ hnode' hkind | conditional _ hnode' hkind
  | loop _ hnode' hkind =>
      cases hids
      obtain rfl := Option.some.inj (hnode.symm.trans hnode')
      rw [hunit] at hkind
      cases hkind

section Order

variable (hslots : ∀ i, Slots P.tree i) (hroom : P.tree.length ≤ kNullNode)

include hslots in
/-- Operands are in front of the frontier. -/
lemma within_operand (hi : i ≤ k) (hnode : P.tree[i]? = some n) (hj : j ∈ n.operands) : Within k [j] := by
  refine within_of_lt fun j' hj' => ?_
  rw [List.mem_singleton.mp hj']
  exact ((hslots i).before n hnode j hj).imp_right fun hlt => Nat.lt_of_lt_of_le hlt hi

include hslots hroom in
/-- **The visits follow the order of the arena.** -/
lemma Visits.proceeds (h : Visits P ids s t) (hs : Frontier P k s) (hids : Within k ids) :
    Proceeds P k ids t := by
  induction h generalizing k with
  | nil s => exact ⟨k, le_rfl, fun i hi => absurd hi List.not_mem_nil, hs⟩
  | @cons i ids s t u h hrest ih ihrest =>
      rcases hids with ⟨hnull, hids⟩ | ⟨hne, hi, hids⟩
      · rcases ih hs (.inl ⟨hnull, trivial⟩) with ⟨l, hkl, -, ht⟩
        rcases ihrest ht (hids.mono hkl) with ⟨l', hll', hlt, hu⟩
        refine ⟨l', hkl.trans hll', fun j hj hj0 => ?_, hu⟩
        exact hlt j ((List.mem_cons.mp hj).resolve_left fun heq => hj0 (heq.trans hnull)) hj0
      · rcases ih hs (.inr ⟨hne, hi, trivial⟩) with ⟨l, hkl, hil, ht⟩
        have hlt := hil i List.mem_cons_self hne
        rcases ihrest ht (hids.mono (Nat.max_le.mpr ⟨hkl, hlt⟩)) with ⟨l', hll', hrestlt, hu⟩
        refine ⟨l', hkl.trans hll', fun j hj hj0 => ?_, hu⟩
        rcases List.mem_cons.mp hj with rfl | hj
        · exact hlt.trans_le hll'
        · exact hrestlt j hj hj0
  | null s => exact ⟨k, le_rfl, fun i hi hne => absurd (List.mem_singleton.mp hi) hne, hs⟩
  | @plain i n s t u hid hnode hkind hname hcall hasks hrest ih =>
      have hi := hids.le hid
      have hunit : n.kind ≠ TranslationUnit := by
        intro hunit
        rw [Node.IsPlain, hunit] at hkind
        exact hkind
      have hwithin : Within k (asks P s.lookupFunc i n) := by
        refine within_of_lt fun j hj => ?_
        refine ((hslots i).before n hnode j (mem_operands hunit (unknown_of_asks hj))).imp_right ?_
        exact fun hlt => Nat.lt_of_lt_of_le hlt hi
      rcases ih hs hwithin with ⟨l, hkl, -, ht⟩
      have hpast := ht.past hi hkl hnode fun hident => hs.declared _ (hname hident)
      refine proceeds_singleton hkl ⟨fun x hx => ?_, hpast.checked⟩
      rcases hrest.vars x with hsame | ⟨hdecl, rfl⟩
      · exact hpast.declared x (hsame ▸ hx)
      · exact ⟨i, n, Nat.lt_of_lt_of_le (Nat.lt_succ_self i) (Nat.le_max_right _ _), hnode, hdecl, rfl⟩
  | @returns i n s t v hid hnode hkind hop hoperand ih =>
      have hi := hids.le hid
      have hin := within_operand hslots hi hnode (j := n.data.operand) (by simp [Node.operands, hkind])
      rcases ih hs hin with ⟨l, hkl, -, ht⟩
      refine proceeds_singleton hkl ((ht.past hi hkl hnode ?_).of_lookup fun _ h => h)
      simp [hkind]
  | @unit i n s t hid hnode hkind hasks ih =>
      have hi := hids.le hid
      have hpast := (hs.past hi le_rfl hnode (by simp [hkind])).of_lookup (t := s.pushed) fun _ h => h
      have hin : Within (max k (i + 1)) (idsBehind P.tree i) := by
        have hlen := Nat.add_sub_of_le (lt_length hnode)
        exact within_range' (hlen.trans_le hroom) (Nat.le_max_right _ _)
      rcases ih hpast hin with ⟨l, hkl, -, ht⟩
      have hle := Nat.max_le.mp hkl
      refine ⟨l, hle.1, fun j hj _ => ?_, ht.of_lookup fun _ => lookupVar_popped⟩
      rw [List.mem_singleton.mp hj]
      exact hle.2
  | @function i n s t retType v hid hnode hkind hbody hpoint ih =>
      have hi := hids.le hid
      have hin := within_operand hslots hi hnode (j := n.data.initExpr) (by simp [Node.operands, hkind])
      rcases ih (hs.of_lookup fun _ h => lookupVar_entered ▸ h) hin with ⟨l, hkl, -, ht⟩
      refine proceeds_singleton hkl ((ht.past hi hkl hnode (by simp [hkind])).of_lookup fun x hx => ?_)
      exact lookupVar_closed (s := t) (.ret v) ▸ lookupVar_popped hx
  | @conditional i n s t u w v b f hid hnode hkind hcond hblock hparent hthen hu helse hw ihc iht ihe =>
      have hi := hids.le hid
      have hin (j : ℕ) (hj : j ∈ n.operands) := within_operand hslots hi hnode hj
      have hoperands : n.operands = [n.data.cond, n.data.thenBlock, n.data.elseBlock] := by
        simp [Node.operands, hkind]
      rcases ihc hs (hin _ (by simp [hoperands])) with ⟨l, hkl, -, ht⟩
      rcases iht (ht.of_lookup fun _ h => h) ((hin _ (by simp [hoperands])).mono hkl) with
        ⟨l', hll', -, hu⟩
      have hkl' := hkl.trans hll'
      rcases ihe (hu.of_lookup fun x h => lookupVar_closed (s := u) _ ▸ h)
        ((hin _ (by simp [hoperands])).mono hkl') with ⟨l'', hll'', -, hw⟩
      have hkl'' := hkl'.trans hll''
      refine proceeds_singleton hkl'' ((hw.past hi hkl'' hnode (by simp [hkind])).of_lookup fun x h => ?_)
      exact lookupVar_closed (s := w) _ ▸ h
  | @loop i n s t u v b f hid hnode hkind hop hblock hparent hcond hbody ihc ihb =>
      have hi := hids.le hid
      have hin (j : ℕ) (hj : j ∈ n.operands) := within_operand hslots hi hnode hj
      have hoperands : n.operands = [n.data.cond, n.data.thenBlock] := by
        simp [Node.operands, hkind, hop]
      rcases ihc (hs.of_lookup fun _ h => h) (hin _ (by simp [hoperands])) with ⟨l, hkl, -, ht⟩
      rcases ihb (ht.of_lookup fun _ h => h) ((hin _ (by simp [hoperands])).mono hkl) with
        ⟨l', hll', -, hu⟩
      have hkl' := hkl.trans hll'
      exact proceeds_singleton hkl' ((hu.past hi hkl' hnode (by simp [hkind])).of_lookup fun _ h => h)

include hslots hroom in
/-- **Every identifier of a compiled program is the name of a variable declared in front of it.** -/
theorem named_of_compile {fuel : ℕ} {root m : Node} (hroot : P.tree[0]? = some root)
    (hunit : root.kind = TranslationUnit) (h : compile P fuel = some (.ok true))
    (hj : P.tree[j]? = some m) (hkind : m.kind = IdentifierExpr) : NamedBefore P j (P.text j) := by
  rcases visits_of_compile hroot h with ⟨t, ht⟩
  rcases ht.of_unit (by decide) hroot hunit with ⟨t', hall⟩
  have hinit : Frontier P 0 {} :=
    ⟨fun x hx => absurd rfl hx, fun j hj => absurd hj (Nat.not_lt_zero j)⟩
  have hstart : Frontier P 1 ({} : Compiler).pushed :=
    (hinit.past le_rfl le_rfl hroot (by simp [hunit])).of_lookup fun _ h => h
  have hlen : 1 + (P.tree.length - 1) = P.tree.length := Nat.add_sub_of_le (lt_length hroot)
  rcases hall.proceeds hslots hroom hstart (within_range' (hlen.trans_le hroom) le_rfl) with
    ⟨l, hl, hids, ht⟩
  have hjl : j < l := by
    rcases Nat.eq_zero_or_pos j with rfl | hpos
    · exact hl
    · exact hids j (mem_idsBehind.mpr ⟨hpos, lt_length hj⟩) ((lt_length hj).trans_le hroom).ne
  exact ht.checked j hjl m hj hkind

end Order

/-! ## Accepted sources -/

variable {src : List Byte} {tree : ASTTree}

lemma text_tokenNode {tok : Token} {kind : NodeKind} (hid : i ≠ kNullNode)
    (hnode : P.tree[i]? = some (tokenNode kind tok))
    (htok : tok.globalOffset + tok.size ≤ P.source.length) : P.text i = tok.text P.source :=
  (getNodeSnippet_ok (getNodeSnippet_token {} hid hnode htok)).1.symm

/-- The type of the first variable is looked up as a variable, and there is no other. -/
lemma type_names_variable (host : Host) {u : Syn (list stmt)} (hu : Parses src tree u)
    {q : QualifierTokens} {type : Option (TokOf [kByte, Ident])} {name : Tok Ident}
    {init : Syn (opt (led [Equals] expr))} {semi : Tok Semi} {base next : ℕ}
    (hx : (⟨stmt, Syn.varDecl q type name init semi, base, next⟩ : Part) ∈ u.parts 1 src.length)
    (hfirst : ∀ i < base + init.size, ∀ n, tree[i]? = some n → n.kind ≠ VarDecl)
    (hnamed : ∀ j m, tree[j]? = some m → m.kind = IdentifierExpr →
      NamedBefore ⟨tree, src, host⟩ j (Program.text ⟨tree, src, host⟩ j)) :
    (typeToken type).text src = name.1.text src := by
  have hlies := u.lies_parts hu.lies _ hx
  simp only [Part.nodes, Syn.nodes, lies_append, declNodes, lies_cons, lies_nil, Syn.length_nodes,
    and_true] at hlies
  obtain ⟨-, hdecl, htype, hname⟩ := hlies
  have hinside : ∀ t ∈ (Syn.varDecl q type name init semi).tokens,
      t.globalOffset + t.size ≤ src.length := by
    intro t ht
    exact Lexer.token_inside (hu.tokens ▸ u.tokens_parts _ hx t ht)
  have htypeInside : (typeToken type).globalOffset + (typeToken type).size ≤ src.length := by
    cases type with
    | none => exact Nat.zero_le _
    | some t => exact hinside t.1 (by simp [Syn.tokens, optToken])
  have hlt {i : ℕ} {m : Node} (hm : tree[i]? = some m) : i ≠ kNullNode :=
    ((List.getElem?_eq_some_iff.mp hm).1.trans_le hu.room).ne
  have htypeText := text_tokenNode (P := ⟨tree, src, host⟩) (hlt htype) htype htypeInside
  have hnameText := text_tokenNode (P := ⟨tree, src, host⟩) (hlt hname) hname
    (hinside _ (by simp [Syn.tokens]))
  rcases hnamed _ _ htype rfl with ⟨i, n, hi, hn, hkind, htext⟩
  have heq : i = base + init.size := by
    by_contra hne
    exact hfirst i (by omega) n hn hkind
  subst heq
  obtain rfl := Option.some.inj (hdecl.symm.trans hn)
  rw [← htypeText, ← hnameText, ← htext]
  rfl

/-- **Names of compiled programs.**  In an accepted source that is compiled, every identifier is the name
of a variable declared in front of it; so the first variable is named like its type. -/
theorem accepts_named {fuel : ℕ} (host : Host) (h : Accepts src tree)
    (hcompile : compile ⟨tree, src, host⟩ fuel = some (.ok true)) :
    (∀ j m, tree[j]? = some m → m.kind = IdentifierExpr →
      NamedBefore ⟨tree, src, host⟩ j (Program.text ⟨tree, src, host⟩ j)) ∧
    ∀ u, Parses src tree u → ∀ q type name init semi base next,
      (⟨stmt, Syn.varDecl q type name init semi, base, next⟩ : Part) ∈ u.parts 1 src.length →
        (∀ i < base + init.size, ∀ n, tree[i]? = some n → n.kind ≠ VarDecl) →
          (typeToken type).text src = name.1.text src := by
  rcases accepts_unit h with ⟨u, hu⟩
  have hroot : tree[0]? = some default := by
    rw [hu.arena]
    rfl
  have hnamed (j : ℕ) (m : Node) (hj : tree[j]? = some m) (hkind : m.kind = IdentifierExpr) :=
    named_of_compile (P := ⟨tree, src, host⟩) hu.slots hu.room hroot rfl hcompile hj hkind
  refine ⟨hnamed, fun u hu q type name init semi base next hx hfirst => ?_⟩
  exact type_names_variable host hu hx hfirst hnamed

/-- The nodes of `int int;int x;`. -/
def intNamedInt : ASTTree :=
  default :: (declNodes VarDecl {} ⟨0, 3, 0, 1, Ident⟩ ⟨4, 3, 0, 0, Ident⟩ 1 kNullNode ++
    declNodes VarDecl {} ⟨8, 3, 0, 0, Ident⟩ ⟨12, 1, 0, 0, Ident⟩ 4 kNullNode)

/-- `int int;int x;` is compiled. -/
theorem accepts_named_sample : parse (bytes "int int;int x;") 20 = some (.ok intNamedInt) ∧
    compile ⟨intNamedInt, bytes "int int;int x;", silentHost⟩ 4 = some (.ok true) ∧
    ∀ j m, intNamedInt[j]? = some m → m.kind = IdentifierExpr →
      NamedBefore ⟨intNamedInt, bytes "int int;int x;", silentHost⟩ j
        (Program.text ⟨intNamedInt, bytes "int int;int x;", silentHost⟩ j) := by
  have hparse : parse (bytes "int int;int x;") 20 = some (.ok intNamedInt) := by decide +kernel
  have hcompile : compile ⟨intNamedInt, bytes "int int;int x;", silentHost⟩ 4 = some (.ok true) := by
    decide +kernel
  exact ⟨hparse, hcompile, (accepts_named silentHost (accepts_of_parse hparse) hcompile).1⟩

end Compiler

end LogicCompiler
