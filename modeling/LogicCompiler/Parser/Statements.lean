import LogicCompiler.Parser.Fragments

/-!
# Finding statements

One lemma for each form of `parseStatement`: the qualifiers are read, the next token selects the
form, and its parts are found.
-/

namespace LogicCompiler

open TokenType NodeKind Cat

variable {σ : Type} [TokenSource σ]

namespace Parser

variable {p p' : Parser σ} {w : Lookahead σ} {id : NodeId}

/-- The tokens in front of an expression statement, as the window shows them. -/
lemma begins_window {ts : List Token} {w₁ : Lookahead σ}
    (h : BeginsExpression (ts ++ [w.window0])) (hr : Reads w₁ ts w) :
    w₁.window0.type ∉ [BrLeft, kByte] ∧ (w₁.window0.type = Ident → w₁.window1.type ≠ Ident) := by
  cases ts with
  | nil => exact absurd h id
  | cons t ts =>
      have hsecond : firstToken ts w.window0 = w₁.window1 := by
        rw [← Lookahead.advance_window0]
        exact (Reads.cons_iff.mp hr).2.firstToken
      rw [(Reads.cons_iff.mp hr).1, ← hsecond]
      cases ts with
      | nil => exact h
      | cons u us => exact h

section Statements

/-- What `parseStatement` does behind the qualifiers. -/
lemma statement_runs {q : QualifierTokens} {w₁ : Lookahead σ} (p₁ : Parser σ)
    (x : Calls σ → ParseM σ NodeId) (hq : Reads p.toLookahead q.tokens w₁)
    (hstart : w₁.window0.type ∉ qualifierTypes)
    (hstep : ∀ c : Calls σ, parseQualifiers c p = some (.ok (q.value, p.after w₁)) →
      parseStatement c p = x c p₁)
    (hrun : Runs x p₁ id p') : Runs (fun c => c.parseStatement) p id p' :=
  Fuel.Settles.tie ((parseQualifiers_runs hq hstart).imp_both hrun fun c hc hd =>
    (hstep c hc).trans hd)

omit [TokenSource σ] in
/-- The test `isDecl`. -/
lemma isDecl_bind {q : Qualifiers} (f : Bool → ParseM σ NodeId) : (isDecl q >>= f) p =
    f (q.isAuto || [kType, kByte, kStruct].contains p.window0.type
      || (p.window0.type == Ident && p.window1.type == Ident)) p := rfl

variable {q : QualifierTokens}

/-- The window behind the qualifiers. -/
lemma behind_qualifiers {t : Token} {ts : List Token}
    (hr : Reads p.toLookahead (q.tokens ++ t :: ts) w) :
    ∃ w₁, Reads p.toLookahead q.tokens w₁ ∧ w₁.window0 = t ∧ Reads w₁ (t :: ts) w := by
  rcases Reads.append_iff.mp hr with ⟨w₁, hq, hrest⟩
  exact ⟨w₁, hq, (Reads.cons_iff.mp hrest).1, hrest⟩

variable {n : ℕ} (hx : ∀ e : Syn expr, e.tokens.length < n → Found σ e)
  (hs : ∀ s : Syn stmt, s.tokens.length < n → FindsStatement σ s)

section Block

include hs

lemma finds_blockStmt (b : Syn braces) (hn : b.tokens.length ≤ n) :
    FindsStatement σ (Syn.block q b) := by
  rintro p w ⟨hr, hcan, hroom⟩ -
  cases b with
  | braced l body r =>
      simp only [Syn.tokens, List.length_cons, List.length_append] at hn
      rcases behind_qualifiers hr with ⟨w₁, hq, hl, hrest⟩
      have htype : w₁.window0.type = BrLeft := hl ▸ l.2
      have hblock : InFront (p.after w₁) (Syn.braced l body r) w := ⟨hrest, hcan, hroom⟩
      have hrun := finds_block hs "Expected '\x7d' at end of block" (by omega) hblock
      refine statement_runs _ _ hq (by rw [htype]; decide) (fun c hc => ?_) hrun
      simp [parseStatement, Fuel.Comp.bind_apply hc, htype]

lemma finds_namespaceDecl (k : Tok kNamespace) (name : Tok Ident) (body : Syn stmt)
    (hn : body.tokens.length < n) : FindsStatement σ (Syn.namespaceDecl q k name body) := by
  rintro p w ⟨hr, hcan, hroom⟩ -
  rcases behind_qualifiers hr with ⟨w₁, hq, hk, hrest⟩
  simp only [Reads.cons_iff] at hrest
  rcases hrest with ⟨-, hname, hbody⟩
  simp only [Syn.size] at hroom
  have htype : w₁.window0.type = kNamespace := hk ▸ k.2
  have hrun := hs body hn (p := (p.after w₁).bump.bump) ⟨hbody, hcan, by simp; omega⟩ trivial
  have hend : (p.along body w).tree.length < kNullNode := by
    rw [along_length]
    omega
  refine statement_runs (p.after w₁) (fun c => parseNamespaceDecl c) hq
    (by rw [htype]; decide) (fun c hc => ?_) ?_
  · simp [parseStatement, Fuel.Comp.bind_apply hc, htype]
  · refine Runs.expect htype (Runs.expect (hname ▸ name.2)
      (Runs.call hrun (Runs.node hend (Runs.done ?_ ?_))))
    · simp only [bump_along, after_along, along_length, Syn.root]
    · simp [along, push, Syn.nodes, plainNode, hk, hname]

lemma finds_structDecl (k : Tok kStruct) (name : Tok Ident) (body : Syn (opt stmt))
    (semi : Option (Tok Semi)) (hn : body.tokens.length < n) :
    FindsStatement σ (Syn.structDecl q k name body semi) := by
  rintro p w ⟨hr, ⟨hcan, hbody, hterm⟩, hroom⟩ -
  rcases behind_qualifiers hr with ⟨w₁, hq, hk, hrest⟩
  simp only [Reads.cons_iff, Reads.append_iff] at hrest
  rcases hrest with ⟨-, hname, w₂, hrb, hsemi⟩
  simp only [Syn.size] at hroom
  have htype : w₁.window0.type = kStruct := hk ▸ k.2
  have hfirst := hsemi.firstToken
  have hrun := finds_optionalBody hs body hn (p := (p.after w₁).bump.bump)
    ⟨hrb, hfirst ▸ hcan, by simp; omega⟩ (hfirst ▸ hbody)
  have hrun' := optionalSemi_runs (p := p.along body w₂) hsemi hterm
  have hend : ((p.along body w₂).after w).tree.length < kNullNode := by
    rw [after_tree, along_length]
    omega
  refine statement_runs (p.after w₁) (fun c => parseStructDecl c) hq
    (by rw [htype]; decide) (fun c hc => ?_) ?_
  · simp [parseStatement, Fuel.Comp.bind_apply hc, htype]
  · refine Runs.expect htype (Runs.expect (hname ▸ name.2)
      (Runs.call hrun (Runs.call hrun' (Runs.node hend (Runs.done ?_ ?_)))))
    · simp only [after_tree, along_length, Syn.root]
    · simp [along, after, push, Syn.nodes, plainNode, hk, hname, hsemi.firstOffset]

end Block

section Delete

include hx

lemma finds_deleteStmt (d : Syn del) (semi : Option (Tok Semi)) (hn : d.tokens.length ≤ n) :
    FindsStatement σ (Syn.deleteStmt q d semi) := by
  rintro p w ⟨hr, ⟨hcan, hterm⟩, hroom⟩ -
  simp only [Syn.tokens, Reads.append_iff] at hr
  rcases hr with ⟨w₁, hq, w₂, hd, hsemi⟩
  have htype : w₁.window0.type = kDelete := by
    cases d with
    | delete k => exact (Reads.cons_iff.mp hd).1 ▸ k.2
  have hrun := finds_delete hx d hn (p := p.after w₁) ⟨hd, hsemi.firstToken ▸ hcan, hroom⟩ trivial
  have hrun' := optionalSemi_runs (p := p.along d w₂) hsemi hterm
  refine statement_runs (p.after w₁) (fun c => parseDeleteStatement c >>= fun delNode =>
    optionalSemi >>= fun _ => pure delNode) hq
    (by rw [htype]; decide) (fun c hc => ?_) ?_
  · simp [parseStatement, Fuel.Comp.bind_apply hc, htype]
  · refine Runs.call hrun (Runs.call hrun' (Runs.done rfl ?_))
    simp [along, after, Syn.nodes, hsemi.firstOffset]

lemma finds_returnStmt (k : Tok kReturn) (e : Syn (opt expr)) (semi : Tok Semi)
    (hn : e.tokens.length < n) : FindsStatement σ (Syn.returnStmt q k e semi) := by
  rintro p w ⟨hr, hcan, hroom⟩ -
  rcases behind_qualifiers hr with ⟨w₁, hq, hk, hrest⟩
  simp only [Reads.cons_iff, Reads.append_iff, Reads.nil_iff] at hrest
  rcases hrest with ⟨-, w₂, he, hsemi, rfl⟩
  simp only [Syn.size] at hroom
  have htype : w₁.window0.type = kReturn := hk ▸ k.2
  have hend : w₂.window0.type = Semi := hsemi ▸ semi.2
  have hrun := finds_unless (by decide) (by decide) e (fun x hxn => hx x (by omega))
    (p := (p.after w₁).bump) ⟨he, hsemi ▸ hcan, by simp; omega⟩ hend
  have hroom' : (p.along e w₂).bump.tree.length < kNullNode := by
    rw [bump_tree, along_length]
    omega
  refine statement_runs (p.after w₁) (fun c => parseReturnStatement c) hq
    (by rw [htype]; decide) (fun c hc => ?_) ?_
  · simp [parseStatement, Fuel.Comp.bind_apply hc, htype]
  · refine Runs.expect htype (Runs.call hrun (Runs.expect hend (Runs.node hroom'
      (Runs.done ?_ ?_))))
    · simp only [bump_tree, after_tree, along_length, Syn.root]
    · simp [along, bump, push, Syn.nodes, plainNode, hk, hsemi]

lemma finds_requires (k : Tok kRequires) (colon : Tok Colon) (e : Syn expr)
    (semi : Option (Tok Semi)) (hn : e.tokens.length < n) :
    FindsStatement σ (Syn.requires q k colon e semi) := by
  rintro p w ⟨hr, ⟨hcan, hstop, hterm⟩, hroom⟩ -
  rcases behind_qualifiers hr with ⟨w₁, hq, hk, hrest⟩
  simp only [Reads.cons_iff, Reads.append_iff] at hrest
  rcases hrest with ⟨-, hcolon, w₂, he, hsemi⟩
  have htype : w₁.window0.type = kRequires := hk ▸ k.2
  have hfirst := hsemi.firstToken
  have hrun := (hx e hn).whole (p := (p.after w₁).bump.bump) ⟨he, hfirst ▸ hcan, hroom⟩
    (hfirst ▸ hstop)
  have hrun' := optionalSemi_runs (p := p.along e w₂) hsemi hterm
  refine statement_runs (p.after w₁).bump
    (fun c => Parser.expect Colon "Expected ':' after 'requires'" >>=
      fun _ => c.parseExpression 0 >>= fun reqExpr => optionalSemi >>= fun _ => pure reqExpr)
    hq (by rw [htype]; decide) (fun c hc => ?_) ?_
  · simp [parseStatement, Fuel.Comp.bind_apply hc, htype]
  · refine Runs.expect (hcolon ▸ colon.2) (Runs.call hrun (Runs.call hrun' (Runs.done rfl ?_)))
    simp [along, after, Syn.nodes, hsemi.firstOffset]

end Delete

omit hx hs in
lemma finds_jump (k : TokOf [kBreak, kContinue]) (semi : Tok Semi) :
    FindsStatement σ (Syn.jump q k semi) := by
  rintro p w ⟨hr, -, hroom⟩ -
  rcases behind_qualifiers hr with ⟨w₁, hq, hk, hrest⟩
  simp only [Reads.cons_iff, Reads.nil_iff] at hrest
  rcases hrest with ⟨-, hsemi, rfl⟩
  have htype : w₁.window0.type ∈ [kBreak, kContinue] := hk ▸ k.2
  have hend : w₁.advance.window0.type = Semi := hsemi ▸ semi.2
  have hroom' : (p.after w₁).bump.bump.tree.length < kNullNode := hroom
  refine statement_runs (p.after w₁) (fun _ => parseJumpStatement) hq ?_
    (fun c hc => ?_) ?_
  · simp only [List.mem_cons, List.not_mem_nil, or_false] at htype
    rcases htype with h | h <;> rw [h] <;> decide
  · simp only [List.mem_cons, List.not_mem_nil, or_false] at htype
    rcases htype with h | h <;> simp [parseStatement, Fuel.Comp.bind_apply hc, h]
  · refine Runs.step advance_apply (Runs.expect hend (Runs.node hroom' (Runs.done rfl ?_)))
    simp [along, after, bump, push, Syn.nodes, plainNode, hk]

section Both

include hx hs

lemma finds_ifStmt (s : Syn (Cat.conditional kIf)) (hn : s.tokens.length ≤ n) :
    FindsStatement σ (Syn.ifStmt q s) := by
  rintro p w ⟨hr, hcan, hroom⟩ -
  simp only [Syn.tokens, Reads.append_iff] at hr
  rcases hr with ⟨w₁, hq, hr⟩
  have htype : w₁.window0.type = kIf := by
    cases s with
    | conditional k => exact (Reads.cons_iff.mp hr).1 ▸ k.2
  refine statement_runs _ (fun c => parseIfStatement c) hq (by rw [htype]; decide)
    (fun c hc => ?_) (finds_conditional hx hs s hn (p := p.after w₁) ⟨hr, hcan, hroom⟩ trivial)
  simp [parseStatement, Fuel.Comp.bind_apply hc, htype]

lemma finds_whileStmt (k : Tok kWhile) (l : Tok Left) (cond : Syn expr) (r : Tok Right)
    (body : Syn stmt) (hcond : cond.tokens.length < n) (hbody : body.tokens.length < n) :
    FindsStatement σ (Syn.whileStmt q k l cond r body) := by
  rintro p w ⟨hr, ⟨hcan, hcan'⟩, hroom⟩ -
  rcases behind_qualifiers hr with ⟨w₁, hq, hk, hrest⟩
  simp only [Reads.cons_iff, Reads.append_iff] at hrest
  rcases hrest with ⟨-, hl, w₂, hrc, hclose, hrb⟩
  simp only [Syn.size] at hroom
  have htype : w₁.window0.type = kWhile := hk ▸ k.2
  have hright : w₂.window0.type = Right := hclose ▸ r.2
  have hrun := (hx cond hcond).whole (p := (p.after w₁).bump.bump)
    ⟨hrc, hclose ▸ hcan, by simp; omega⟩ (endsExpression_of_eq (by decide) hright)
  have hrun' := hs body hbody (p := (p.along cond w₂).bump)
    ⟨hrb, hcan', by rw [bump_tree, along_length]; omega⟩ trivial
  have hend : ((p.along cond w₂).along body w).tree.length < kNullNode := by
    simp only [along_length]
    omega
  refine statement_runs (p.after w₁) (fun c => parseWhileStatement c) hq
    (by rw [htype]; decide) (fun c hc => ?_) ?_
  · simp [parseStatement, Fuel.Comp.bind_apply hc, htype]
  · refine Runs.expect htype (Runs.expect (hl ▸ l.2) (Runs.call hrun (Runs.expect hright
      (Runs.call hrun' (Runs.node hend (Runs.done ?_ ?_))))))
    · simp only [bump_along, along_length, Syn.root, Nat.add_assoc]
    · simp [along, bump, push, Syn.nodes, plainNode, hk, hclose]

lemma finds_forStmt (k : Tok kFor) (l : Tok Left) (init : Syn (orSemi stmt))
    (cond : Syn (opt expr)) (semi : Tok Semi) (incr : Syn (opt expr)) (r : Tok Right)
    (body : Syn stmt) (hinit : init.tokens.length < n) (hcond : cond.tokens.length < n)
    (hincr : incr.tokens.length < n) (hbody : body.tokens.length < n) :
    FindsStatement σ (Syn.forStmt q k l init cond semi incr r body) := by
  rintro p w ⟨hr, ⟨hcan₁, hcan₂, hcan₃, hcan₄⟩, hroom⟩ -
  rcases behind_qualifiers hr with ⟨w₁, hq, hk, hrest⟩
  simp only [Reads.cons_iff, Reads.append_iff] at hrest
  rcases hrest with ⟨-, hl, w₂, hr₁, w₃, hr₂, hsemi, w₄, hr₃, hclose, hr₄⟩
  simp only [Syn.size] at hroom
  have htype : w₁.window0.type = kFor := hk ▸ k.2
  have hend : w₃.window0.type = Semi := hsemi ▸ semi.2
  have hright : w₄.window0.type = Right := hclose ▸ r.2
  have hnext : firstToken cond.tokens semi.1 = w₂.window0 := hsemi ▸ hr₂.firstToken
  have hrun₁ := finds_forInit hs init hinit (p := (p.after w₁).bump.bump)
    ⟨hr₁, hnext ▸ hcan₁, by simp; omega⟩ trivial
  have hrun₂ := finds_unless (by decide) (by decide) cond (fun x hxn => hx x (by omega))
    (p := p.along init w₂) ⟨hr₂, hsemi ▸ hcan₂, by rw [along_length]; omega⟩ hend
  have hrun₃ := finds_unless (by decide) (by decide) incr (fun x hxn => hx x (by omega))
    (p := ((p.along init w₂).along cond w₃).bump)
    ⟨hr₃, hclose ▸ hcan₃, by simp only [bump_tree, along_length]; omega⟩ hright
  have hrun₄ := hs body hbody (p := (((p.along init w₂).along cond w₃).along incr w₄).bump)
    ⟨hr₄, hcan₄, by simp only [bump_tree, along_length]; omega⟩ trivial
  have hroom' : ((((p.along init w₂).along cond w₃).along incr w₄).along body w).tree.length
      < kNullNode := by
    simp only [along_length]
    omega
  refine statement_runs (p.after w₁) (fun c => parseForStatement c) hq
    (by rw [htype]; decide) (fun c hc => ?_) ?_
  · simp [parseStatement, Fuel.Comp.bind_apply hc, htype]
  · refine Runs.expect htype (Runs.expect (hl ▸ l.2) (Runs.call hrun₁ (Runs.call hrun₂
      (Runs.expect hend (Runs.call hrun₃ (Runs.expect hright (Runs.call hrun₄
        (Runs.node hroom' (Runs.done ?_ ?_)))))))))
    · simp only [bump_along, along_length, Syn.root, Nat.add_assoc]
    · have hfirst := hr₂.firstOffset
      rw [hsemi] at hfirst
      simp [along, bump, after, push, Syn.nodes, plainNode, hk, hclose, hsemi, hfirst,
        Nat.add_assoc]

end Both

/-! The first token of a declaration. -/

lemma names_first {type : Option (TokOf [kByte, Ident])} {name : Tok Ident} {w₁ : Lookahead σ}
    (hr : Reads w₁ (optToken type ++ [name.1]) w) : w₁.window0.type ∈ [kByte, Ident] := by
  cases type with
  | none =>
      rw [(Reads.cons_iff.mp hr).1, name.2]
      decide
  | some t => exact (Reads.cons_iff.mp hr).1 ▸ t.2

lemma not_qualifier_of_names {type : Option (TokOf [kByte, Ident])} {name : Tok Ident}
    {w₁ : Lookahead σ} (hr : Reads w₁ (optToken type ++ [name.1]) w) :
    w₁.window0.type ∉ qualifierTypes := by
  have hfirst := names_first hr
  revert hfirst
  generalize w₁.window0.type = t
  cases t <;> decide

lemma not_type_of_names {type : Option (TokOf [kByte, Ident])} {name : Tok Ident}
    {w₁ : Lookahead σ} (hr : Reads w₁ (optToken type ++ [name.1]) w) :
    w₁.window0.type ≠ kType := by
  intro h
  exact absurd (h ▸ names_first hr) (by decide)

/-- A type and a name are taken for a declaration. -/
lemma declared {c : Calls σ} {type : Option (TokOf [kByte, Ident])} {name : Tok Ident}
    (htyped : Typed q type) {w₁ : Lookahead σ} (hc : parseQualifiers c p = some (.ok (q.value, p.after w₁)))
    (hr : Reads w₁ (optToken type ++ [name.1]) w) :
    parseStatement c p = parseVarOrTypeDecl c q.value (p.after w₁) := by
  have hdecl : (q.value.isAuto || [kType, kByte, kStruct].contains w₁.window0.type
      || (w₁.window0.type == Ident && w₁.window1.type == Ident)) = true := by
    cases type with
    | none => simp [htyped.mpr rfl]
    | some t =>
        simp only [optToken, List.cons_append, List.nil_append, Reads.cons_iff] at hr
        have hname : w₁.window1.type = Ident := by
          rw [← Lookahead.advance_window0, hr.2.1]
          exact name.2
        have ht := t.2
        simp only [List.mem_cons, List.not_mem_nil, or_false] at ht
        rcases ht with h | h <;> simp [hr.1, h, hname]
  have hfirst := names_first hr
  simp only [List.mem_cons, List.not_mem_nil, or_false] at hfirst
  rcases hfirst with h | h
  · simp [parseStatement, Fuel.Comp.bind_apply hc, h, isDecl_bind]
  · simp only [h, List.mem_cons, reduceCtorEq, List.not_mem_nil, or_self,
      List.contains_eq_mem, decide_false, Bool.or_false, beq_self_eq_true, Bool.true_and,
      Bool.or_eq_true, beq_iff_eq] at hdecl
    simp [parseStatement, Fuel.Comp.bind_apply hc, h, isDecl_bind, hdecl]

section Declared

omit hs in
/-- The base of a type. -/
lemma base_runs (s : Syn (opt Cat.base)) (hx : ∀ e : Syn expr, e.tokens.length < n → Found σ e)
    (hn : s.tokens.length ≤ n) (h : InFront p s w) (hbase : s.IsBase p.source w.window0) :
    Runs (fun c => parseBase c) p (s.root p.tree.length) (p.along s w) := by
  rcases h with ⟨hr, hcan, hroom⟩
  have husing : ∀ f : Bool → ParseM σ NodeId, (checkUsing >>= f) p =
      f (p.window0.type == Ident
        && (p.source.drop p.window0.globalOffset).take p.window0.size == bytes "using") p :=
    fun _ => rfl
  cases s with
  | none =>
      obtain rfl : w = p.toLookahead := by simpa [Syn.tokens] using hr
      rcases hbase with ⟨hne, hnot⟩
      simp only [List.mem_cons, List.not_mem_nil, or_false, not_or] at hne
      have htest : (p.window0.type == Ident
          && (p.source.drop p.window0.globalOffset).take p.window0.size == bytes "using") = false := by
        simpa [IsUsing] using hnot
      refine Runs.unmatched hne.1 (Runs.unmatched hne.2 ?_)
      refine ⟨0, fun c _ => ?_⟩
      show (checkUsing >>= _) p = _
      rw [husing, htest, p.along_nothing fun _ _ => rfl]
      rfl
  | some s =>
      cases s with
      | led t e =>
          simp only [Syn.tokens, Reads.cons_iff] at hr
          simp only [Syn.tokens, List.length_cons] at hn
          rcases hr with ⟨ht, hr⟩
          rcases hbase with ⟨hprec, hlevel, husing', hstop⟩
          have hfront : InFront p.bump e w := ⟨hr, hcan, hroom⟩
          have hmem := t.2
          simp only [List.mem_cons, List.not_mem_nil, or_false] at hmem
          have htype : p.window0.type = t.1.type := by rw [ht]
          rcases hmem with h | h | h
          · exact Runs.matched (htype.trans h) ((hx e (by omega)).whole hfront ⟨hstop, hprec h⟩)
          · have hne : p.window0.type ≠ Equals := by
              rw [htype, h]
              decide
            have hlevel' := hlevel (by rw [h]; decide)
            exact Runs.unmatched hne (Runs.matched (htype.trans h)
              ((hx e (by omega)).operand hlevel' hfront hstop))
          · have hne : p.window0.type ≠ Equals ∧ p.window0.type ≠ Colon := by
              rw [htype, h]
              decide
            have hlevel' := hlevel (by rw [h]; decide)
            have htest : (p.window0.type == Ident
                && (p.source.drop p.window0.globalOffset).take p.window0.size
                  == bytes "using") = true := by
              have hword := husing' h
              rw [← ht] at hword
              simpa [IsUsing] using hword
            refine Runs.unmatched hne.1 (Runs.unmatched hne.2 ?_)
            refine ((hx e (by omega)).operand hlevel' hfront hstop).imp fun c hc => ?_
            show (checkUsing >>= _) p = _
            rw [husing, htest]
            exact hc

include hx hs

lemma finds_typeDecl (k : Tok kType) (name : Tok Ident) (base : Syn (opt Cat.base))
    (body : Syn (opt stmt)) (semi : Option (Tok Semi)) (hbase : base.tokens.length < n)
    (hbody : body.tokens.length < n) :
    FindsStatement σ (Syn.typeDecl q k name base body semi) := by
  rintro p w ⟨hr, ⟨hcan₁, hbase', hcan₂, hbody', hterm⟩, hroom⟩ -
  rcases behind_qualifiers hr with ⟨w₁, hq, hk, hrest⟩
  simp only [Reads.cons_iff, Reads.append_iff] at hrest
  rcases hrest with ⟨-, hname, w₂, hr₁, w₃, hr₂, hsemi⟩
  simp only [Syn.size] at hroom
  have htype : w₁.window0.type = kType := hk ▸ k.2
  have hfirst := hsemi.firstToken
  have hfirst' := (hr₂.append hsemi).firstToken
  have hrun₁ := base_runs base hx hbase.le (p := (p.after w₁).bump.bump)
    ⟨hr₁, hfirst' ▸ hcan₁, by simp; omega⟩ (hfirst' ▸ hbase')
  have hrun₂ := finds_optionalBody hs body hbody (p := p.along base w₂)
    ⟨hr₂, hfirst ▸ hcan₂, by rw [along_length]; omega⟩ (hfirst ▸ hbody')
  have hrun₃ := optionalSemi_runs (p := (p.along base w₂).along body w₃) hsemi hterm
  have hroom' : (((p.along base w₂).along body w₃).after w).tree.length + 2 < kNullNode := by
    simp only [after_tree, along_length]
    omega
  refine statement_runs (p.after w₁) (fun c => parseTypeDecl c q.value) hq
    (by rw [htype]; decide) (fun c hc => ?_) ?_
  · simp [parseStatement, Fuel.Comp.bind_apply hc, htype, isDecl_bind, parseVarOrTypeDecl]
  · refine Runs.step advance_apply (Runs.expect (hname ▸ name.2) (Runs.call hrun₁
      (Runs.call hrun₂ (Runs.call hrun₃ ?_))))
    refine (createDecl_runs hroom').same ?_ ?_
    · simp only [after_tree, along_length, Syn.root, Nat.add_assoc]
    · have hoffset := (hr₂.append hsemi).firstOffset
      rw [bump_toLookahead, after_toLookahead, hname]
      simp [along, after, push, Syn.nodes, hk, hsemi.firstOffset, hoffset, Nat.add_assoc]

lemma finds_functionDecl (type : Option (TokOf [kByte, Ident])) (name : Tok Ident)
    (l : Tok Left) (params : Syn (opt (commaList param))) (r : Tok Right)
    (body : Syn (orSemi stmt)) (hparams : params.tokens.length < n)
    (hbody : body.tokens.length < n) :
    FindsStatement σ (Syn.functionDecl q type name l params r body) := by
  rintro p w ⟨hr, ⟨htyped, hcan₁, hparams', hcan₂, hbody'⟩, hroom⟩ -
  simp only [Syn.tokens, Reads.append_iff, Reads.cons_iff] at hr
  rcases hr with ⟨w₁, hq, w₂, htype, hname, hl, w₃, hr₁, hclose, hr₂⟩
  simp only [Syn.size] at hroom
  have hnames : Reads w₁ (optToken type ++ [name.1]) w₂.advance :=
    htype.append (Reads.cons_iff.mpr ⟨hname, Reads.nil _⟩)
  have hleft : w₂.advance.window0.type = Left := hl ▸ l.2
  have hright : w₃.window0.type = Right := hclose ▸ r.2
  have hrun₁ := finds_parameters params (fun e he => hx e (by omega))
    (p := ((p.after w₁).after w₂.advance).bump) ⟨hr₁, hclose ▸ hcan₁, by simp; omega⟩
    ⟨hright, hclose ▸ hparams'⟩
  have hrun₂ := finds_functionBody hs body hbody (p := (p.along params w₃).bump)
    ⟨hr₂, hcan₂, by rw [bump_tree, along_length]; omega⟩ hbody'
  have hroom' : ((p.along params w₃).bump.along body w).tree.length + 2 < kNullNode := by
    simp only [bump_along, along_length]
    omega
  refine statement_runs (p.after w₁) (fun c => parseVarOrTypeDecl c q.value) hq
    (not_qualifier_of_names hnames) (fun c hc => declared htyped hc hnames) ?_
  · refine Runs.unchecked (not_type_of_names hnames) (Runs.step (parseDeclNames_eq htyped hnames)
      (Runs.checked hleft (Runs.expect hleft (Runs.call hrun₁ (Runs.expect hright
        (Runs.call hrun₂ ?_))))))
    refine Runs.tokenNode (by omega) (Runs.tokenNode (by simp; omega) (Runs.both (by simp; omega)
      (Runs.done ?_ ?_)))
    · simp [Syn.root]
    · simp [along, bump, push, Syn.nodes, plainNode, hclose, Nat.add_assoc]

omit hs in
lemma finds_varDecl (type : Option (TokOf [kByte, Ident])) (name : Tok Ident)
    (init : Syn (opt (Cat.led [Equals] expr))) (semi : Tok Semi) (hinit : init.tokens.length < n) :
    FindsStatement σ (Syn.varDecl q type name init semi) := by
  rintro p w ⟨hr, ⟨htyped, hcan⟩, hroom⟩ -
  simp only [Syn.tokens, Reads.append_iff, Reads.cons_iff, Reads.nil_iff] at hr
  rcases hr with ⟨w₁, hq, w₂, htype, hname, w₃, hr₁, hsemi, rfl⟩
  simp only [Syn.size] at hroom
  have hnames : Reads w₁ (optToken type ++ [name.1]) w₂.advance :=
    htype.append (Reads.cons_iff.mpr ⟨hname, Reads.nil _⟩)
  have hend : w₃.window0.type = Semi := hsemi ▸ semi.2
  have hleft : w₂.advance.window0.type ≠ Left := by
    rw [← hr₁.firstToken]
    cases init with
    | none => rw [Syn.tokens, firstToken_nil, hend]; decide
    | some s =>
        cases s with
        | led t e =>
            have ht : t.1.type = Equals := by simpa using t.2
            rw [Syn.tokens, Syn.tokens, firstToken_cons, ht]
            decide
  have hrun := finds_initialiser init (fun e he => hx e (by omega))
    (p := (p.after w₁).after w₂.advance) ⟨hr₁, hsemi ▸ hcan, by simp; omega⟩
    ⟨endsExpression_of_eq (by decide) hend, by rw [hend]; decide⟩
  have hroom' : (p.along init w₃).bump.tree.length + 2 < kNullNode := by
    rw [bump_tree, along_length]
    omega
  refine statement_runs (p.after w₁) (fun c => parseVarOrTypeDecl c q.value) hq
    (not_qualifier_of_names hnames) (fun c hc => declared htyped hc hnames) ?_
  · refine Runs.unchecked (not_type_of_names hnames) (Runs.step (parseDeclNames_eq htyped hnames)
      (Runs.unchecked hleft (Runs.call hrun (Runs.expect hend ?_))))
    refine (createDecl_runs hroom').same ?_ ?_
    · simp only [bump_tree, along_length, Syn.root]
    · simp [along, bump, push, Syn.nodes, hsemi]

end Declared

section Expression

/-- What starts an expression is none of the words that other statements start with. -/
lemma not_statement_word {type : TokenType} (h : type ∈ expressionStarts) (hbrace : type ≠ BrLeft) :
    type ∉ qualifierTypes ++ [BrLeft, kIf, kWhile, kFor, kReturn, kBreak, kContinue, kStruct,
      kNamespace, kDelete, kRequires, kType] := by
  revert h hbrace
  cases type <;> decide

omit hs in
lemma finds_exprStmt (e : Syn expr) (semi : Option (Tok Semi)) (he : Found σ e) :
    FindsStatement σ (Syn.exprStmt q e semi) := by
  rintro p w ⟨hr, ⟨hauto, hcan, hstop, hterm, hbegins⟩, hroom⟩ -
  simp only [Syn.tokens, Reads.append_iff] at hr
  rcases hr with ⟨w₁, hq, w₂, hre, hsemi⟩
  have hfirst := hsemi.firstToken
  have hrun := he.whole (p := p.after w₁) ⟨hre, hfirst ▸ hcan, hroom⟩ (hfirst ▸ hstop)
  have hrun' := optionalSemi_runs (p := p.along e w₂) hsemi hterm
  rw [← List.append_assoc] at hbegins
  rcases begins_window hbegins (hre.append hsemi) with ⟨hnot, hident⟩
  simp only [List.mem_cons, List.not_mem_nil, or_false, not_or] at hnot
  have hword := not_statement_word hre.starts hnot.1
  simp only [List.mem_append, List.mem_cons, List.not_mem_nil, or_false, not_or] at hword
  refine statement_runs (p.after w₁) (fun c => c.parseExpression 0 >>= fun expr =>
    optionalSemi >>= fun _ => pure expr) hq hword.1 (fun c hc => ?_) ?_
  · simp [parseStatement, Fuel.Comp.bind_apply hc, isDecl_bind, hword, hauto, hnot]
    rw [if_neg fun h => hident h.1 h.2]
  · refine Runs.call hrun (Runs.call hrun' (Runs.done rfl ?_))
    simp [along, after, Syn.nodes, hsemi.firstOffset]

end Expression

end Statements
end Parser

end LogicCompiler
