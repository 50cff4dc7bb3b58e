import LogicCompiler.Lexer.Relexing
import LogicCompiler.Parser.Forest

/-!
# Where nodes come from

A node records an offset in the source, and for some kinds a length.  The offset is taken from a token
at hand when the node is made.  Nearly always this is a token of the production that makes the node; a
call, an index and a parenthesised `delete` take the token behind their last one, and a declaration with
`auto` takes the token that stands for the type, which is at no place of the source (`tracks_iff`).
-/

namespace LogicCompiler

open TokenType NodeKind Cat LogicCompiler.Parser

/-! ## What is to be tracked -/

/-- The node starts where one of the tokens `ts` starts, and ends where one of them ends, or before. -/
structure Node.From (n : Node) (ts : List Token) : Prop where
  starts : ∃ t ∈ ts, n.sourceOffset = t.globalOffset
  ends : ∃ t ∈ ts, n.sourceOffset + n.sourceLength ≤ t.globalOffset + t.size

/-- The leaf that stands for the type `auto`, or for the name of a parameter without one. -/
def Node.IsPlaceholder (n : Node) : Prop :=
  n = tokenNode IdentifierExpr autoToken ∨ n = tokenNode IdentifierExpr noName

/-- The node comes from the tokens, unless it is a placeholder. -/
def Node.Tracked (n : Node) (ts : List Token) : Prop := ¬ n.IsPlaceholder → n.From ts

namespace Syn

/-- The ids of the nodes that a production makes itself. -/
def ownIds : {k : Cat} → Syn k → (base : ℕ) → List NodeId
  | _, pre _ e, base => [base + e.size]
  | _, literal _, base => [base]
  | _, ident _, base => [base]
  | _, cast _ d _, base => [base + d.size]
  | _, call f _ args _, base => [base + (f.size + args.size)]
  | _, member e _ _, base => [base + e.size, base + (e.size + 1)]
  | _, index e _ i _, base => [base + (e.size + i.size)]
  | _, post e _, base => [base + e.size]
  | _, binary lhs _ rhs, base => [base + (lhs.size + rhs.size)]
  | _, whileStmt _ _ _ cond _ body, base => [base + (cond.size + body.size)]
  | _, forStmt _ _ _ init cond _ incr _ body, base =>
      [base + (init.size + (cond.size + (incr.size + body.size)))]
  | _, returnStmt _ _ e _, base => [base + e.size]
  | _, jump _ _ _, base => [base]
  | _, structDecl _ _ _ body _, base => [base + body.size]
  | _, namespaceDecl _ _ _ body, base => [base + body.size]
  | _, typeDecl _ _ _ b body _, base =>
      [base + (b.size + body.size), base + (b.size + (body.size + 1)),
        base + (b.size + (body.size + 2))]
  | _, functionDecl _ _ _ _ params _ body, base =>
      [base + (params.size + body.size), base + (params.size + (body.size + 1)),
        base + (params.size + (body.size + 2))]
  | _, varDecl _ _ _ init _, base =>
      [base + init.size, base + (init.size + 1), base + (init.size + 2)]
  | _, delete _ _ target, base => [base + target.size]
  | _, conditional _ _ cond _ thenBlock elseBlock, base =>
      [base + (cond.size + (thenBlock.size + elseBlock.size))]
  | _, braced _ _ _, base => [base]
  | _, parameter _ _ _ init, base =>
      [base + init.size, base + (init.size + 1), base + (init.size + 2)]
  | _, _, _ => []

/-- The nodes that the production makes, other than the placeholders, come from its tokens. -/
def Tracked (tree : ASTTree) {k : Cat} (s : Syn k) (base : ℕ) : Prop :=
  ∀ i ∈ s.ownIds base, ∀ n, tree[i]? = Option.some n → n.Tracked s.tokens

/-- No call, index or parenthesised `delete`; and a variable or a parameter that is declared with
`auto` has a token at the very beginning of the source. -/
def Located : {k : Cat} → Syn k → Prop
  | _, cast _ _ _ => False
  | _, call _ _ _ _ => False
  | _, index _ _ _ _ => False
  | _, s@(varDecl _ Option.none _ _ _) => ∃ t ∈ s.tokens, t.globalOffset = 0
  | _, s@(parameter _ Option.none _ _) => ∃ t ∈ s.tokens, t.globalOffset = 0
  | _, _ => True

/-! ## Every node is made by a part -/

end Syn

/-- The ids of the nodes that the part makes itself. -/
def Part.ownIds (x : Part) : List ℕ := x.syn.ownIds x.base

lemma Part.ownIds_mk {k : Cat} (s : Syn k) (base next : ℕ) :
    Part.ownIds ⟨k, s, base, next⟩ = s.ownIds base := rfl

namespace Syn

lemma exists_mem_append {α : Type} {p : α → Prop} {l m : List α} :
    (∃ x ∈ l ++ m, p x) ↔ (∃ x ∈ l, p x) ∨ ∃ x ∈ m, p x := by
  simp only [List.mem_append, or_and_right, exists_or]

/-- The parts make the nodes of the whole. -/
lemma mem_ownIds {k : Cat} (s : Syn k) {base next i : ℕ} :
    (∃ x ∈ s.parts base next, i ∈ x.ownIds) ↔ base ≤ i ∧ i < base + s.size := by
  induction s generalizing base next
  all_goals
    simp only [parts, List.exists_mem_cons_iff, exists_mem_append, Part.ownIds_mk, *]
  all_goals
    simp only [ownIds, size, List.mem_cons, List.not_mem_nil, or_false, false_or, false_and,
      exists_false]
  all_goals first | omega | exact iff_of_false id (by omega)

/-! ## Offsets increase -/

/-- The offsets of some tokens, and of the one behind. -/
def offsets (ts : List Token) (next : ℕ) : List ℕ := ts.map Token.globalOffset ++ [next]

lemma offsets_append (ts us : List Token) (next : ℕ) :
    offsets (ts ++ us) next = ts.map Token.globalOffset ++ offsets us next := by
  rw [offsets, offsets, List.map_append, List.append_assoc]

/-- The token behind the first of two parts is the first token of the second, or behind both. -/
lemma offsets_firstOffset (ts us : List Token) (next : ℕ) :
    (offsets ts (firstOffset us next)).Sublist (offsets (ts ++ us) next) := by
  rw [offsets_append, offsets]
  refine (List.append_sublist_append_left _).mpr ?_
  cases us with
  | nil => exact List.Sublist.refl _
  | cons u us => exact (List.nil_sublist _).cons_cons _

lemma offsets_right (ts : List Token) {us vs : List Token} {m next : ℕ}
    (h : (offsets us m).Sublist (offsets vs next)) :
    (offsets us m).Sublist (offsets (ts ++ vs) next) := by
  rw [offsets_append]
  exact h.trans (List.sublist_append_right _ _)

lemma offsets_tail (t : Token) {us vs : List Token} {m next : ℕ}
    (h : (offsets us m).Sublist (offsets vs next)) :
    (offsets us m).Sublist (offsets (t :: vs) next) := h.trans (List.sublist_cons_self _ _)

lemma offsets_left (ts : List Token) (t : Token) (us : List Token) (next : ℕ) :
    (offsets ts t.globalOffset).Sublist (offsets (ts ++ t :: us) next) :=
  offsets_firstOffset ts (t :: us) next

lemma offsets_left_firstOffset (ts us : List Token) (t : Token) (vs : List Token) (next : ℕ) :
    (offsets ts (firstOffset us t.globalOffset)).Sublist (offsets (ts ++ (us ++ t :: vs)) next) := by
  cases us with
  | nil => exact offsets_left ts t vs next
  | cons u us => exact offsets_left ts u (us ++ t :: vs) next

lemma sublist_trans {parts : List Part} {l m : List ℕ}
    (h : ∀ x ∈ parts, (offsets x.syn.tokens x.next).Sublist l) (hl : l.Sublist m) :
    ∀ x ∈ parts, (offsets x.syn.tokens x.next).Sublist m := fun x hx => (h x hx).trans hl

/-- The tokens of a part and the one behind it are in the order of the whole. -/
lemma parts_offsets {k : Cat} (s : Syn k) {base next : ℕ} :
    ∀ x ∈ s.parts base next, (offsets x.syn.tokens x.next).Sublist (offsets s.tokens next) := by
  induction s generalizing base next
  all_goals
    simp only [parts, tokens, List.forall_mem_cons, List.forall_mem_append, List.not_mem_nil,
      false_imp_iff, implies_true, and_true, List.Sublist.refl, true_and]
  all_goals
    repeat' apply And.intro
    all_goals refine sublist_trans (by apply_assumption) ?_
  -- what stands in front of the part is passed over
  all_goals
    repeat first
      | exact List.Sublist.refl _
      | exact offsets_left _ _ _ _
      | exact offsets_firstOffset _ _ _
      | exact offsets_left_firstOffset _ _ _ _ _
      | apply offsets_right
      | apply offsets_tail

/-! ## What a production makes -/

section Tracked

variable {tree : ASTTree} {t : Token} {ts : List Token} {kind : NodeKind} {data : Data} {next : ℕ}
  {qualifiers : Qualifiers} {n : Node} {i : ℕ}

/-- A node that records the offset of a token, and no length beyond it. -/
lemma from_token (ht : t ∈ ts) (hoffset : n.sourceOffset = t.globalOffset)
    (hlength : n.sourceLength ≤ t.size) : n.From ts :=
  ⟨⟨t, ht, hoffset⟩, ⟨t, ht, hoffset ▸ Nat.add_le_add_left hlength _⟩⟩

lemma from_tokenNode (ht : t ∈ ts) : (tokenNode kind t).From ts := from_token ht rfl le_rfl

lemma from_plainNode (ht : t ∈ ts) : (plainNode kind t.globalOffset data qualifiers).From ts :=
  from_token ht rfl (Nat.zero_le _)

/-- The offset of the token behind is none of the offsets of the tokens. -/
lemma not_from_next (hnext : ∀ t ∈ ts, t.globalOffset < next) :
    ¬ (plainNode kind next data qualifiers).From ts := by
  rintro ⟨⟨t, ht, hoffset⟩, -⟩
  exact absurd hoffset (hnext t ht).ne'

/-- The token that stands for `auto` is at the beginning of the source, or nowhere. -/
lemma from_autoToken :
    (plainNode kind autoToken.globalOffset data qualifiers).From ts ↔ ∃ t ∈ ts, t.globalOffset = 0 := by
  constructor
  · rintro ⟨⟨t, ht, hoffset⟩, -⟩
    exact ⟨t, ht, hoffset.symm⟩
  · rintro ⟨t, ht, hoffset⟩
    exact from_token ht hoffset.symm (Nat.zero_le _)

lemma not_isPlaceholder (hkind : kind ≠ IdentifierExpr) :
    ¬ (plainNode kind next data qualifiers).IsPlaceholder := by
  rintro (h | h) <;> exact hkind (congrArg Node.kind h)

lemma tracked_nil : ∀ j ∈ ([] : List NodeId), ∀ m, tree[j]? = Option.some m → m.Tracked ts := nofun

lemma tracked_cons {ids : List NodeId} (hnode : tree[i]? = Option.some n) (hn : n.Tracked ts)
    (hids : ∀ j ∈ ids, ∀ m, tree[j]? = Option.some m → m.Tracked ts) :
    ∀ j ∈ i :: ids, ∀ m, tree[j]? = Option.some m → m.Tracked ts := by
  rw [List.forall_mem_cons]
  refine ⟨fun m hm => ?_, hids⟩
  rw [hnode] at hm
  cases hm
  exact hn

lemma tracked_tokenNode (ht : t ∈ ts) : (tokenNode kind t).Tracked ts := fun _ => from_tokenNode ht

lemma tracked_plainNode (ht : t ∈ ts) :
    (plainNode kind t.globalOffset data qualifiers).Tracked ts := fun _ => from_plainNode ht

/-- The leaf for the type of a declaration. -/
lemma tracked_typeToken {p : Token → Prop} (type : Option {t : Token // p t})
    (hts : ∀ t ∈ optToken type, t ∈ ts) :
    (tokenNode IdentifierExpr (typeToken type)).Tracked ts := by
  cases type with
  | none => exact fun hno => absurd (.inl rfl) hno
  | some t => exact tracked_tokenNode (hts t.1 (List.mem_singleton_self _))

/-- The leaf for the name of a parameter. -/
lemma tracked_nameToken (name : Option (Tok Ident)) (hts : ∀ t ∈ optToken name, t ∈ ts) :
    (tokenNode IdentifierExpr (nameToken name)).Tracked ts := by
  cases name with
  | none => exact fun hno => absurd (.inr rfl) hno
  | some t => exact tracked_tokenNode (hts t.1 (List.mem_singleton_self _))

lemma tracked_firstOffset {us : List Token} (hus : ∀ u ∈ us, u ∈ ts) (ht : t ∈ ts) :
    (plainNode kind (firstOffset us t.globalOffset) data qualifiers).Tracked ts := by
  cases us with
  | nil => exact tracked_plainNode ht
  | cons u us => exact tracked_plainNode (hus u List.mem_cons_self)

/-- A declaration with the type `auto` has the offset of no token, unless it is at the beginning. -/
lemma tracked_auto {leaves : List NodeId}
    (hnode : tree[i]? = Option.some (plainNode kind autoToken.globalOffset data qualifiers))
    (hkind : kind ≠ IdentifierExpr)
    (hleaves : ∀ j ∈ leaves, ∀ m, tree[j]? = Option.some m → m.Tracked ts) :
    (∀ j ∈ i :: leaves, ∀ m, tree[j]? = Option.some m → m.Tracked ts) ↔
      ∃ t ∈ ts, t.globalOffset = 0 := by
  constructor
  · intro h
    exact from_autoToken.mp (h i List.mem_cons_self _ hnode (not_isPlaceholder hkind))
  · intro h
    exact tracked_cons hnode (fun _ => from_autoToken.mpr h) hleaves

/-- A production that makes one node, with a token of its own. -/
lemma tracked_single (hnode : tree[i]? = Option.some n) (hn : n.Tracked ts) :
    ∀ j ∈ [i], ∀ m, tree[j]? = Option.some m → m.Tracked ts := tracked_cons hnode hn tracked_nil

/-- A production that makes one node, with the offset of the token behind. -/
lemma not_tracked_next (hnode : tree[i]? = Option.some (plainNode kind next data qualifiers))
    (hkind : kind ≠ IdentifierExpr) (hnext : ∀ t ∈ ts, t.globalOffset < next) :
    ¬ ∀ j ∈ [i], ∀ m, tree[j]? = Option.some m → m.Tracked ts := fun h =>
  not_from_next hnext (h i (List.mem_singleton_self i) _ hnode (not_isPlaceholder hkind))

end Tracked

/-- **One production**: its nodes come from its tokens exactly if it is none of those that take an offset
from elsewhere. -/
lemma tracked_iff {tree : ASTTree} {k : Cat} (s : Syn k) {base next : ℕ}
    (h : Lies tree base (s.nodes base next)) (hnext : ∀ t ∈ s.tokens, t.globalOffset < next) :
    s.Tracked tree base ↔ s.Located := by
  cases s
  all_goals
    simp only [nodes, lies_append, lies_cons, lies_nil, length_nodes, declNodes, and_true,
      Nat.add_assoc] at h
  case pre op e =>
    have hop : op.1 ∈ (pre op e).tokens := List.mem_cons_self
    exact iff_of_true (tracked_single h.2 fun _ => from_token hop rfl le_rfl) trivial
  case literal t =>
    have ht : t.1 ∈ (literal t).tokens := List.mem_cons_self
    exact iff_of_true (tracked_single h (tracked_tokenNode ht)) trivial
  case ident t =>
    have ht : t.1 ∈ (ident t).tokens := List.mem_cons_self
    exact iff_of_true (tracked_single h (tracked_tokenNode ht)) trivial
  case cast l d r =>
    exact iff_of_false (not_tracked_next h.2 (by decide) hnext) id
  case call f l args r =>
    exact iff_of_false (not_tracked_next h.2.2 (by decide) hnext) id
  case index e l i r =>
    exact iff_of_false (not_tracked_next h.2.2 (by decide) hnext) id
  case member e op name =>
    have hop : op.1 ∈ (member e op name).tokens := by simp [tokens]
    have hname : name.1 ∈ (member e op name).tokens := by simp [tokens]
    exact iff_of_true (tracked_cons h.2.1 (tracked_tokenNode hname)
      (tracked_single h.2.2 (tracked_plainNode hop))) trivial
  case post e op =>
    have hop : op.1 ∈ (post e op).tokens := by simp [tokens]
    exact iff_of_true (tracked_single h.2 (tracked_plainNode hop)) trivial
  case binary lhs op rhs =>
    have hop : op.1 ∈ (binary lhs op rhs).tokens := by simp [tokens]
    exact iff_of_true (tracked_single h.2.2 (tracked_plainNode hop)) trivial
  case whileStmt q k l cond r body =>
    have hk : k.1 ∈ (whileStmt q k l cond r body).tokens := by simp [tokens]
    exact iff_of_true (tracked_single h.2.2 (tracked_plainNode hk)) trivial
  case forStmt q k l init cond semi incr r body =>
    have hk : k.1 ∈ (forStmt q k l init cond semi incr r body).tokens := by simp [tokens]
    exact iff_of_true (tracked_single h.2.2.2.2 (tracked_plainNode hk)) trivial
  case returnStmt q k e semi =>
    have hk : k.1 ∈ (returnStmt q k e semi).tokens := by simp [tokens]
    exact iff_of_true (tracked_single h.2 (tracked_plainNode hk)) trivial
  case jump q k semi =>
    have hk : k.1 ∈ (jump q k semi).tokens := by simp [tokens]
    exact iff_of_true (tracked_single h (tracked_plainNode hk)) trivial
  case structDecl q k name body semi =>
    have hk : k.1 ∈ (structDecl q k name body semi).tokens := by simp [tokens]
    exact iff_of_true (tracked_single h.2 (tracked_plainNode hk)) trivial
  case namespaceDecl q k name body =>
    have hk : k.1 ∈ (namespaceDecl q k name body).tokens := by simp [tokens]
    exact iff_of_true (tracked_single h.2 (tracked_plainNode hk)) trivial
  case delete k auto target =>
    have hk : k.1 ∈ (delete k auto target).tokens := List.mem_cons_self
    exact iff_of_true (tracked_single h.2 (tracked_plainNode hk)) trivial
  case conditional k l cond r thenBlock elseBlock =>
    have hk : k.1 ∈ (conditional k l cond r thenBlock elseBlock).tokens := List.mem_cons_self
    exact iff_of_true (tracked_single h.2.2.2 (tracked_plainNode hk)) trivial
  case typeDecl q k name b body semi =>
    have hk : k.1 ∈ (typeDecl q k name b body semi).tokens := by simp [tokens]
    have hname : name.1 ∈ (typeDecl q k name b body semi).tokens := by simp [tokens]
    exact iff_of_true (tracked_cons h.2.2.1 (tracked_plainNode hk)
      (tracked_cons h.2.2.2.1 (tracked_tokenNode hk)
        (tracked_single h.2.2.2.2 (tracked_tokenNode hname)))) trivial
  case functionDecl q type name l params r body =>
    have htype : ∀ t ∈ optToken type, t ∈ (functionDecl q type name l params r body).tokens := by
      intro t ht
      simp [tokens, ht]
    have hname : name.1 ∈ (functionDecl q type name l params r body).tokens := by simp [tokens]
    exact iff_of_true (tracked_cons h.2.2.1 (tracked_typeToken type htype)
      (tracked_cons h.2.2.2.1 (tracked_tokenNode hname)
        (tracked_single h.2.2.2.2 (tracked_plainNode hname)))) trivial
  case varDecl q type name init semi =>
    have htype : ∀ t ∈ optToken type, t ∈ (varDecl q type name init semi).tokens := by
      intro t ht
      simp [tokens, ht]
    have hname : name.1 ∈ (varDecl q type name init semi).tokens := by simp [tokens]
    have hleaves := tracked_cons h.2.2.1 (tracked_typeToken type htype)
      (tracked_single h.2.2.2 (tracked_tokenNode hname))
    cases type with
    | none => exact tracked_auto h.2.1 (by decide) hleaves
    | some t =>
        have ht := htype t.1 (List.mem_singleton_self _)
        exact iff_of_true (tracked_cons h.2.1 (tracked_plainNode ht) hleaves) trivial
  case braced l body r =>
    have hbody : ∀ t ∈ body.tokens, t ∈ (braced l body r).tokens := by
      intro t ht
      simp [tokens, ht]
    have hr : r.1 ∈ (braced l body r).tokens := by simp [tokens]
    exact iff_of_true (tracked_single h.1 (tracked_firstOffset hbody hr)) trivial
  case parameter q type name init =>
    have hname : ∀ t ∈ optToken name, t ∈ (parameter q type name init).tokens := by
      intro t ht
      simp [tokens, ht]
    cases type with
    | none =>
        have hleaves := tracked_cons h.2.2.1 (fun hno => absurd (.inl rfl) hno)
          (tracked_single h.2.2.2 (tracked_nameToken name hname))
        exact tracked_auto h.2.1 (by decide) hleaves
    | some t =>
        have ht : t ∈ (parameter q (Option.some t) name init).tokens := by simp [tokens]
        exact iff_of_true (tracked_cons h.2.1 (tracked_plainNode ht)
          (tracked_cons h.2.2.1 (tracked_tokenNode ht)
            (tracked_single h.2.2.2 (tracked_nameToken name hname)))) trivial
  -- what has no node of its own
  all_goals exact iff_of_true tracked_nil trivial

end Syn

/-! ## The whole source -/

variable {src : List Byte} {tree : ASTTree} {u : Syn (list stmt)}

/-- The tokens of a source are in the order of their offsets, in front of its end. -/
lemma pairwise_offsets (src : List Byte) :
    (Syn.offsets (Lexer.tokensOf src) src.length).Pairwise (· < ·) := by
  rcases Lexer.exists_length_tokensOf src with ⟨heof, hlt, heq⟩
  have hlength : (Lexer.tokenAt src (Lexer.tokensOf src).length).globalOffset = src.length := by
    rw [Lexer.tokenAt_eq_of_eof heof]
    rfl
  have hoffsets : Syn.offsets (Lexer.tokensOf src) src.length =
      (List.range ((Lexer.tokensOf src).length + 1)).map fun n => (Lexer.tokenAt src n).globalOffset := by
    rw [List.range_succ, List.map_append, List.map_singleton, hlength, Syn.offsets]
    conv_lhs => rw [heq, List.map_map]
    rfl
  rw [hoffsets, List.pairwise_map]
  refine List.pairwise_lt_range.imp_of_mem fun {i j} _ hj hij => ?_
  refine Lexer.offset_lt hij (hlt i ?_)
  exact Nat.lt_of_lt_of_le hij (Nat.le_of_lt_succ (List.mem_range.mp hj))

namespace Parses

/-- The tokens of a part are in front of the one behind it. -/
lemma offset_lt_next (h : Parses src tree u) {x : Part} (hx : x ∈ u.parts 1 src.length) :
    ∀ t ∈ x.syn.tokens, t.globalOffset < x.next := by
  have hpairwise := (pairwise_offsets src).sublist (h.tokens ▸ u.parts_offsets x hx)
  intro t ht
  exact (List.pairwise_append.mp hpairwise).2.2 _ (List.mem_map_of_mem ht) _ (List.mem_singleton_self _)

lemma exists_maker (h : Parses src tree u) {i : ℕ} (hi : i ≠ 0) (hlt : i < tree.length) :
    ∃ x ∈ u.parts 1 src.length, i ∈ x.ownIds :=
  u.mem_ownIds.mpr ⟨Nat.pos_of_ne_zero hi, hlt.trans_eq h.length⟩

lemma tracked_iff (h : Parses src tree u) {x : Part} (hx : x ∈ u.parts 1 src.length) :
    x.syn.Tracked tree x.base ↔ x.syn.Located :=
  x.syn.tracked_iff (u.lies_parts h.lies x hx) (h.offset_lt_next hx)

end Parses

/-- Every node other than the root is made by a part, and comes from its tokens unless it is a
placeholder. -/
structure TracksSource (src : List Byte) (tree : ASTTree) (u : Syn (list stmt)) : Prop where
  made : ∀ i, i ≠ 0 → i < tree.length → ∃ x ∈ u.parts 1 src.length, i ∈ x.ownIds
  tracked : ∀ x ∈ u.parts 1 src.length, ∀ i ∈ x.ownIds, ∀ n, tree[i]? = some n →
    n.Tracked x.syn.tokens

lemma tracksSource_iff (h : Parses src tree u) :
    TracksSource src tree u ↔ ∀ x ∈ u.parts 1 src.length, x.syn.Located := by
  constructor
  · intro htracks x hx
    exact (h.tracked_iff hx).mp (htracks.tracked x hx)
  · intro hlocated
    exact ⟨fun i => h.exists_maker, fun x hx => (h.tracked_iff hx).mpr (hlocated x hx)⟩

/-- **Source tracking.**  The nodes of an accepted source come from the tokens of the productions that
make them exactly if there is no call, no index and no `delete` in parentheses, and nothing but a
declaration at the very beginning is declared with `auto`.  Offsets are those of a source below `2 ^ 32`
bytes. -/
theorem accepts_tracks (h : Parser.Accepts src tree) :
    (∃ u, Parses src tree u) ∧ ∀ u, Parses src tree u →
      (TracksSource src tree u ↔ ∀ x ∈ u.parts 1 src.length, x.syn.Located) :=
  ⟨Parser.accepts_unit h, fun _ hu => tracksSource_iff hu⟩

/-- **A call at the end of the source** starts behind the source. -/
theorem call_not_tracked : ∃ tree : ASTTree,
    parse (bytes "f()") 20 = some (.ok tree) ∧
      tree[2]? = some (plainNode CallExpr 3 (Data.call 1 kNullNode)) ∧
      ∀ u, Parses (bytes "f()") tree u → ¬ TracksSource (bytes "f()") tree u := by
  have hparse : parse (bytes "f()") 20 = some (.ok
      [default, ⟨IdentifierExpr, {}, 0, 1, Data.literal Ident 0⟩,
        plainNode CallExpr 3 (Data.call 1 kNullNode)]) := by
    decide +kernel
  refine ⟨_, hparse, rfl, fun u hu htracks => ?_⟩
  rcases htracks.made 2 (by decide) (by decide) with ⟨x, hx, hi⟩
  have hfrom := htracks.tracked x hx 2 hi _ rfl (Syn.not_isPlaceholder (by decide))
  rcases hfrom.starts with ⟨t, ht, hoffset⟩
  have hmem : t ∈ Lexer.tokensOf (bytes "f()") := hu.tokens ▸ u.tokens_parts x hx t ht
  have hlt := (List.pairwise_append.mp (pairwise_offsets (bytes "f()"))).2.2 _
    (List.mem_map_of_mem hmem) _ (List.mem_singleton_self _)
  exact absurd hlt (by rw [← hoffset]; decide)

/-- Every node of `a+b` is tracked if no part of it is one of those that are not. -/
theorem accepts_tracks_sample : ∃ tree : ASTTree,
    parse (bytes "a+b") 20 = some (.ok tree) ∧ ∃ u, Parses (bytes "a+b") tree u ∧
      (TracksSource (bytes "a+b") tree u ↔
        ∀ x ∈ u.parts 1 (bytes "a+b").length, x.syn.Located) := by
  have hparse : parse (bytes "a+b") 20 = some (.ok
      [default, ⟨IdentifierExpr, {}, 0, 1, Data.literal Ident 0⟩,
        ⟨IdentifierExpr, {}, 2, 1, Data.literal Ident 0⟩,
        plainNode BinaryExpr 1 (Data.binary Plus 1 2)]) := by
    decide +kernel
  rcases accepts_tracks (accepts_of_parse hparse) with ⟨⟨u, hu⟩, htracks⟩
  exact ⟨_, hparse, u, hu, htracks u hu⟩

end LogicCompiler
