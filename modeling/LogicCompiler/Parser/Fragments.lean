import LogicCompiler.Parser.Expressions

/-!
# Finding the parts of statements

Qualifiers, blocks, parameter lists and the other parts that a statement is put together from.  What
holds of the expressions and statements inside is assumed here, for those with fewer tokens; the
expressions that contain statements (`eval`, a block) are such parts as well.
-/

namespace LogicCompiler

open TokenType NodeKind Cat

variable {σ : Type} [TokenSource σ]

/-- The types that a statement never starts with. -/
def statementEnds : List TokenType := [Semi, BrRight, Right, kElse, Eof]

lemma not_statementEnds {types : List TokenType} (htypes : ∀ type ∈ types, type ∉ statementEnds)
    (t : TokOf types) : t.1.type ∉ statementEnds := htypes _ t.2

/-- A statement starts with a token of its own. -/
lemma Syn.head_statement (s : Syn stmt) :
    ∃ t ts, s.tokens = t :: ts ∧ t.type ∉ statementEnds := by
  have hquals : ∀ (q : QualifierTokens) {us : List Token},
      (∃ t ts, us = t :: ts ∧ t.type ∉ statementEnds) →
        ∃ t ts, q.tokens ++ us = t :: ts ∧ t.type ∉ statementEnds := by
    rintro (_ | ⟨t, q⟩) us h
    · exact h
    · exact ⟨t.1, _, rfl, not_statementEnds (by decide) t⟩
  have htok : ∀ {type : TokenType} (t : Tok type), type ∉ statementEnds →
      t.1.type ∉ statementEnds := fun t h => by rwa [t.2]
  cases s with
  | block q b =>
      cases b with
      | braced l => exact hquals q ⟨_, _, rfl, htok l (by decide)⟩
  | ifStmt q s =>
      cases s with
      | conditional k => exact hquals q ⟨_, _, rfl, htok k (by decide)⟩
  | whileStmt q k => exact hquals q ⟨_, _, rfl, htok k (by decide)⟩
  | forStmt q k => exact hquals q ⟨_, _, rfl, htok k (by decide)⟩
  | returnStmt q k => exact hquals q ⟨_, _, rfl, htok k (by decide)⟩
  | jump q k => exact hquals q ⟨_, _, rfl, not_statementEnds (by decide) k⟩
  | structDecl q k => exact hquals q ⟨_, _, rfl, htok k (by decide)⟩
  | namespaceDecl q k => exact hquals q ⟨_, _, rfl, htok k (by decide)⟩
  | deleteStmt q d =>
      cases d with
      | delete k => exact hquals q ⟨_, _, rfl, htok k (by decide)⟩
  | requires q k => exact hquals q ⟨_, _, rfl, htok k (by decide)⟩
  | typeDecl q k => exact hquals q ⟨_, _, rfl, htok k (by decide)⟩
  | functionDecl q type name =>
      cases type with
      | none => exact hquals q ⟨_, _, rfl, htok name (by decide)⟩
      | some t => exact hquals q ⟨_, _, rfl, not_statementEnds (by decide) t⟩
  | varDecl q type name =>
      cases type with
      | none => exact hquals q ⟨_, _, rfl, htok name (by decide)⟩
      | some t => exact hquals q ⟨_, _, rfl, not_statementEnds (by decide) t⟩
  | exprStmt q e =>
      rcases e.head_expression with ⟨t, ts, hts, ht⟩
      refine hquals q ⟨t, _, by rw [hts, List.cons_append], ?_⟩
      revert ht
      generalize t.type = type
      cases type <;> decide

/-- A window in front of a statement. -/
lemma Reads.not_ends {s : Syn stmt} {w w' : Lookahead σ} (hr : Reads w s.tokens w') :
    w.window0.type ∉ statementEnds := by
  rcases s.head_statement with ⟨t, ts, hts, ht⟩
  rwa [(Reads.cons_iff.mp (hts ▸ hr)).1]

namespace Parser

/-- The parser behind some tokens that leave no node. -/
def after (p : Parser σ) (w : Lookahead σ) : Parser σ := { p with toLookahead := w }

section After

variable {k : Cat} (p : Parser σ) (s : Syn k) (w w' : Lookahead σ)

omit [TokenSource σ] in
@[simp] lemma after_toLookahead : (p.after w).toLookahead = w := rfl

omit [TokenSource σ] in
@[simp] lemma after_tree : (p.after w).tree = p.tree := rfl

omit [TokenSource σ] in
@[simp] lemma after_source : (p.after w).source = p.source := rfl

omit [TokenSource σ] in
@[simp] lemma after_along : (p.after w).along s w' = p.along s w' := rfl

@[simp] lemma bump_along : p.bump.along s w' = p.along s w' := rfl

omit [TokenSource σ] in
/-- A part without tokens and nodes. -/
lemma along_nothing {s : Syn k} (h : ∀ base next, s.nodes base next = []) :
    p.along s p.toLookahead = p := by
  simp [along, h]

end After

variable {p p' : Parser σ} {w : Lookahead σ} {id : NodeId}

section Qualifiers

/-- One iteration of `parseQualifiers`. -/
lemma qualifierLoop_add {c : Calls σ} {q : Qualifiers} (h : p.window0.type ∈ qualifierTypes) :
    qualifierLoop c q p = c.qualifierLoop (q.add p.window0.type) p.bump := by
  simp only [qualifierTypes, List.mem_cons, List.not_mem_nil, or_false] at h
  rcases h with h | h | h | h | h <;> simp [qualifierLoop, h, Qualifiers.add]

/-- The loop of `parseQualifiers` collects all qualifiers. -/
lemma qualifierLoop_runs (ts : QualifierTokens) {q : Qualifiers} {p : Parser σ}
    (hr : Reads p.toLookahead ts.tokens w) (hend : w.window0.type ∉ qualifierTypes) :
    Runs (fun c => c.qualifierLoop q) p (ts.foldl (fun q t => q.add t.1.type) q) (p.after w) := by
  induction ts generalizing p q with
  | nil =>
      obtain rfl : w = p.toLookahead := by simpa [QualifierTokens.tokens] using hr
      simp only [qualifierTypes, List.mem_cons, List.not_mem_nil, or_false, not_or] at hend
      refine Fuel.Settles.tie ⟨0, fun n _ => ?_⟩
      simp [productions, qualifierLoop, hend, after]
  | cons t ts ih =>
      simp only [QualifierTokens.tokens, List.map_cons, Reads.cons_iff] at hr
      rcases hr with ⟨hfirst, hr⟩
      refine Fuel.Settles.tie ((ih (q := q.add t.1.type) (p := p.bump) hr).imp fun c hc => ?_)
      refine (qualifierLoop_add (hfirst ▸ t.2)).trans ?_
      rw [hfirst]
      exact hc

lemma parseQualifiers_runs {q : QualifierTokens} (hr : Reads p.toLookahead q.tokens w)
    (hend : w.window0.type ∉ qualifierTypes) :
    Runs (fun c => parseQualifiers c) p q.value (p.after w) :=
  qualifierLoop_runs q hr hend

end Qualifiers

/-- `if (check(Semi)) advance();` -/
lemma optionalSemi_runs {semi : Option (Tok Semi)} (hr : Reads p.toLookahead (optToken semi) w)
    (h : Terminated semi w.window0) :
    Runs (fun _ : Calls σ => optionalSemi) p () (p.after w) := by
  cases semi with
  | none =>
      obtain rfl : w = p.toLookahead := by simpa [optToken] using hr
      exact Runs.unchecked (h rfl) (Runs.pure ())
  | some t =>
      simp only [optToken, Reads.cons_iff, Reads.nil_iff] at hr
      rcases hr with ⟨ht, rfl⟩
      exact Runs.checked (ht ▸ t.2) (Runs.step (advance_apply) (Runs.pure ()))

/-! ## Parts of statements -/

section Parts

/-- An expression that is there unless the token `stop` is. -/
lemma finds_unless {stop : TokenType} (hstop : stop ∉ expressionStarts)
    (hends : stop ∉ postfixStarts ∧ getPrecedence stop = 0) (s : Syn (opt expr))
    (hx : ∀ e : Syn expr, e.tokens.length ≤ s.tokens.length → Found σ e) :
    Finds (fun c : Calls σ => parseUnless c stop) s fun t => t.type = stop := by
  rintro p w ⟨hr, hcan, hroom⟩ hw
  cases s with
  | none =>
      obtain rfl : w = p.toLookahead := by simpa [Syn.tokens] using hr
      exact Runs.checked hw (Runs.done rfl (p.along_nothing fun _ _ => rfl).symm)
  | some e =>
      exact Runs.unchecked (hr.not_starts hstop)
        ((hx e le_rfl).whole ⟨hr, hcan, hroom⟩ (endsExpression_of_eq hends hw))

/-- `= e`, if it is there. -/
lemma finds_initialiser (s : Syn (opt (Cat.led [Equals] expr)))
    (hx : ∀ e : Syn expr, e.tokens.length < s.tokens.length → Found σ e) :
    Finds (fun c : Calls σ => parseInitialiser c) s
      fun t => EndsExpression t ∧ t.type ≠ Equals := by
  rintro p w ⟨hr, hcan, hroom⟩ hw
  cases s with
  | none =>
      obtain rfl : w = p.toLookahead := by simpa [Syn.tokens] using hr
      exact Runs.unmatched hw.2 (Runs.done rfl (p.along_nothing fun _ _ => rfl).symm)
  | some s =>
      cases s with
      | led t e =>
          simp only [Syn.tokens, Reads.cons_iff] at hr
          have ht : t.1.type = Equals := by simpa using t.2
          exact Runs.matched (hr.1 ▸ ht) ((hx e (by simp [Syn.tokens])).whole (p := p.bump)
            ⟨hr.2, hcan, hroom⟩ hw.1)

variable {n : ℕ} (hs : ∀ s : Syn stmt, s.tokens.length < n → FindsStatement σ s)

include hs

/-- The `else` of a conditional. -/
lemma finds_else (s : Syn (opt (Cat.led [kElse] stmt))) (hn : s.tokens.length ≤ n) :
    Finds (fun c : Calls σ => parseElse c) s fun t => s.tokens = [] → t.type ≠ kElse := by
  rintro p w ⟨hr, hcan, hroom⟩ hw
  cases s with
  | none =>
      obtain rfl : w = p.toLookahead := by simpa [Syn.tokens] using hr
      exact Runs.unmatched (hw rfl) (Runs.done rfl (p.along_nothing fun _ _ => rfl).symm)
  | some s =>
      cases s with
      | led t s =>
          simp only [Syn.tokens, Reads.cons_iff] at hr
          have ht : t.1.type = kElse := by simpa using t.2
          simp only [Syn.tokens, List.length_cons] at hn
          exact Runs.matched (hr.1 ▸ ht) (hs s hn (p := p.bump) ⟨hr.2, hcan, hroom⟩ trivial)

/-- A body in braces, if it is there. -/
lemma finds_optionalBody (s : Syn (opt stmt)) (hn : s.tokens.length < n) :
    Finds (fun c : Calls σ => parseOptionalBody c) s s.IsBody := by
  rintro p w ⟨hr, hcan, hroom⟩ hw
  cases s with
  | none =>
      obtain rfl : w = p.toLookahead := by simpa [Syn.tokens] using hr
      exact Runs.unchecked hw (Runs.done rfl (p.along_nothing fun _ _ => rfl).symm)
  | some s =>
      have hbrace : p.window0.type = BrLeft := by
        rw [← hr.firstToken]
        exact hw
      exact Runs.checked hbrace (hs s hn ⟨hr, hcan, hroom⟩ trivial)

/-- A statement or a `;` behind the `(` of a `for`. -/
lemma finds_forInit (s : Syn (orSemi stmt)) (hn : s.tokens.length < n) :
    Finds (fun c : Calls σ => parseForInit c) s fun _ => True := by
  rintro p w ⟨hr, hcan, hroom⟩ -
  cases s with
  | bare t =>
      simp only [Syn.tokens, Reads.cons_iff, Reads.nil_iff] at hr
      rcases hr with ⟨ht, rfl⟩
      exact Runs.checked (ht ▸ t.2) (Runs.step advance_apply
        (Runs.done rfl (p.bump.along_nothing fun _ _ => rfl).symm))
  | full s =>
      have hsemi : p.window0.type ≠ Semi := fun h => hr.not_ends (by rw [h]; decide)
      exact Runs.unchecked hsemi (hs s hn ⟨hr, hcan, hroom⟩ trivial)

/-- The body of a function or the `;` of its declaration. -/
lemma finds_functionBody (s : Syn (orSemi stmt)) (hn : s.tokens.length < n) :
    Finds (fun c : Calls σ => parseFunctionBody c) s fun _ => s.IsFunctionBody := by
  rintro p w ⟨hr, hcan, hroom⟩ hbody
  cases s with
  | bare t =>
      simp only [Syn.tokens, Reads.cons_iff, Reads.nil_iff] at hr
      rcases hr with ⟨ht, rfl⟩
      have hsemi : p.window0.type = Semi := ht ▸ t.2
      exact Runs.unchecked (by rw [hsemi]; decide) (Runs.expect hsemi
        (Runs.done rfl (p.bump.along_nothing fun _ _ => rfl).symm))
  | full s =>
      rcases hbody with ⟨t, ts, hts, ht⟩
      have hbrace : p.window0.type = BrLeft := by
        rw [(Reads.cons_iff.mp (hts ▸ hr)).1]
        exact ht
      exact Runs.checked hbrace (hs s hn ⟨hr, hcan, hroom⟩ trivial)

/-- Statements up to the `}`. -/
lemma blockLoop_runs (s : Syn (list stmt)) (hn : s.tokens.length < n) {p : Parser σ}
    (h : InFront p s w) (hw : w.window0.type = BrRight) :
    Runs (fun c => c.blockLoop) p () (p.along s w) := by
  induction hm : s.tokens.length using Nat.strong_induction_on generalizing s p with
  | _ m ih =>
    subst hm
    rcases h with ⟨hr, hcan, hroom⟩
    cases s with
    | nil =>
        obtain rfl : w = p.toLookahead := by simpa [Syn.tokens] using hr
        refine Fuel.Settles.tie ⟨0, fun n _ => ?_⟩
        simp only [productions, blockLoop, checkAny_bind, hw]
        rw [p.along_nothing fun _ _ => rfl]
        rfl
    | cons s rest =>
        simp only [Syn.tokens, List.length_append] at hn ih
        simp only [Syn.tokens, Reads.append_iff] at hr
        simp only [Syn.size] at hroom
        rcases hr with ⟨w₁, hrs, hrest⟩
        have hpos : 0 < s.tokens.length := by
          rcases s.head_statement with ⟨t, ts, hts, -⟩
          simp [hts]
        have hgo : p.window0.type ∉ [BrRight, Eof] := by
          have hends := hrs.not_ends
          simp [statementEnds] at hends ⊢
          tauto
        have hfirst := hs s (by omega) ⟨hrs, hrest.firstToken ▸ hcan.1, by omega⟩ trivial
        have hloop := ih _ (by omega) rest (by omega) (p := p.along s w₁)
          ⟨hrest, hcan.2, by rw [along_length]; omega⟩ rfl
        have hstate : (p.along s w₁).along rest w = p.along (Syn.cons s rest) w := by
          simp [along, Syn.nodes, hrest.firstOffset]
        rw [hstate] at hloop
        refine Fuel.Settles.tie ((Fuel.Settles.bind (f := fun c _ => c.blockLoop) hfirst hloop).imp
          fun c hc => ?_)
        simpa [productions, blockLoop, hgo] using hc

/-- A block behind its `{`. -/
lemma finds_block (msg : String) {l : Tok BrLeft} {body : Syn (list stmt)} {r : Tok BrRight}
    (hn : body.tokens.length < n) (h : InFront p (Syn.braced l body r) w) :
    Runs (fun c => parseBlock c msg) p.bump ((Syn.braced l body r).root p.tree.length)
      (p.along (Syn.braced l body r) w) := by
  rcases h with ⟨hr, hcan, hroom⟩
  simp only [Syn.tokens, Reads.cons_iff, Reads.append_iff, Reads.nil_iff] at hr
  rcases hr with ⟨hl, w₁, hbody, hclose, rfl⟩
  simp only [Syn.size] at hroom
  have hloop := blockLoop_runs hs body hn
    (p := p.bump.push [plainNode TranslationUnit p.bump.window0.globalOffset {}])
    ⟨hbody, hclose ▸ hcan, by simp; omega⟩ (hclose ▸ r.2)
  have hroom' : p.bump.tree.length < kNullNode := by
    rw [bump_tree]
    omega
  refine Runs.step (a := p.bump.window0) rfl ?_
  refine Runs.created hroom' (Runs.call hloop (Runs.expect (hclose ▸ r.2) (Runs.done rfl ?_)))
  have hfirst := hbody.firstOffset
  rw [hclose] at hfirst
  simp [along, bump, push, Syn.nodes, hclose, hfirst, plainNode]

end Parts

/-! ## Forms that expressions and statements share -/

section Shared

variable {n : ℕ} (hx : ∀ e : Syn expr, e.tokens.length < n → Found σ e)
  (hs : ∀ s : Syn stmt, s.tokens.length < n → FindsStatement σ s)

include hx

/-- `delete` and its operand. -/
lemma finds_delete (s : Syn del) (hn : s.tokens.length ≤ n) :
    Finds (fun c : Calls σ => parseDeleteStatement c) s fun _ => True := by
  rintro p w ⟨hr, hcan, hroom⟩ -
  cases s with
  | delete k auto target =>
      simp only [Syn.tokens, Reads.cons_iff, Reads.append_iff] at hr
      rcases hr with ⟨hk, w₁, hauto, htarget⟩
      rcases hcan with ⟨hlevel, hcan, hstop⟩
      simp only [Syn.tokens, List.length_cons, List.length_append] at hn
      simp only [Syn.size] at hroom
      have hrun := (hx target (by omega)).operand hlevel (p := p.after w₁)
        ⟨htarget, hcan, by rw [after_tree]; omega⟩ hstop
      have hend : (p.along target w).tree.length < kNullNode := by
        rw [along_length]
        omega
      refine Runs.expect (hk ▸ k.2) ?_
      cases auto with
      | none =>
          obtain rfl : w₁ = p.bump.toLookahead := by simpa [optToken] using hauto
          refine Runs.unmatched (htarget.not_starts (by decide)) (Runs.call hrun
            (Runs.both hend (Runs.done ?_ ?_)))
          · rw [after_along, along_length]
            rfl
          · simp [along, push, Syn.nodes, plainNode, hk]
      | some t =>
          simp only [optToken, Reads.cons_iff, Reads.nil_iff] at hauto
          rcases hauto with ⟨ht, rfl⟩
          refine Runs.matched (ht ▸ t.2) (Runs.call hrun (Runs.both hend (Runs.done ?_ ?_)))
          · rw [after_along, along_length]
            rfl
          · simp [along, push, Syn.nodes, plainNode, hk]

include hs

/-- `eval` or `if`, its condition and its branches. -/
lemma finds_conditional {keyword : TokenType} {msg₁ msg₂ msg₃ : String}
    (s : Syn (Cat.conditional keyword)) (hn : s.tokens.length ≤ n) :
    Finds (fun c : Calls σ => parseConditional c keyword msg₁ msg₂ msg₃) s fun _ => True := by
  rintro p w ⟨hr, hcan, hroom⟩ -
  cases s with
  | conditional k l cond r t f =>
      simp only [Syn.tokens, Reads.cons_iff, Reads.append_iff] at hr
      rcases hr with ⟨hk, hl, w₁, hcond, hclose, w₂, hthen, helse⟩
      rcases hcan with ⟨hcan₁, hcan₂, hcan₃, hmiss⟩
      simp only [Syn.tokens, List.length_cons, List.length_append] at hn
      simp only [Syn.size] at hroom
      have hright : w₁.window0.type = Right := hclose ▸ r.2
      have hrun₁ := (hx cond (by omega)).whole (p := p.bump.bump)
        ⟨hcond, hclose ▸ hcan₁, by simp only [bump_tree]; omega⟩
        (endsExpression_of_eq (by decide) hright)
      have hrun₂ := hs t (by omega) (p := (p.along cond w₁).bump)
        ⟨hthen, helse.firstToken ▸ hcan₂, by rw [bump_tree, along_length]; omega⟩ trivial
      have hrun₃ := finds_else hs f (by omega) (p := (p.along cond w₁).along t w₂)
        ⟨helse, hcan₃, by rw [along_length, along_length]; omega⟩ hmiss
      have hend : (((p.along cond w₁).along t w₂).along f w).tree.length < kNullNode := by
        simp only [along_length]
        omega
      refine Runs.expect (hk ▸ k.2) (Runs.expect (hl ▸ l.2) (Runs.call hrun₁ (Runs.expect hright
        (Runs.call hrun₂ (Runs.call hrun₃ (Runs.node hend (Runs.done ?_ ?_)))))))
      · simp only [along_length, Syn.root, Nat.add_assoc]
      · simp [along, bump, push, Syn.nodes, plainNode, hk, hclose, helse.firstOffset,
          Nat.add_assoc]

/-! ## The other forms of expressions -/

lemma found_eval (s : Syn (Cat.conditional kEval)) (hn : s.tokens.length ≤ n) :
    Found σ (Syn.eval s) := by
  apply Found.of_primary
  rintro p p' w id ⟨hr, hcan, hroom⟩ hpost
  have hkey : p.window0.type = kEval := by
    cases s with
    | conditional k => exact (Reads.cons_iff.mp hr).1 ▸ k.2
  exact primary_eval hkey (finds_conditional hx hs s hn ⟨hr, hcan, hroom⟩ trivial) hpost

omit hs in
lemma found_cast (l : Tok Left) (d : Syn del) (r : Tok Right) (hn : d.tokens.length ≤ n) :
    Found σ (Syn.cast l d r) := by
  apply Found.of_primary
  rintro p p' w id ⟨hr, hcan, hroom⟩ hpost
  simp only [Syn.tokens, Reads.cons_iff, Reads.append_iff, Reads.nil_iff] at hr
  rcases hr with ⟨hl, w₁, hd, hclose, rfl⟩
  simp only [Syn.size] at hroom
  have hnext : p.window1.type = kDelete := by
    rw [← Lookahead.advance_window0]
    cases d with
    | delete k => exact (Reads.cons_iff.mp hd).1 ▸ k.2
  have hrun := finds_delete hx d hn (p := p.bump)
    ⟨hd, hclose ▸ hcan, by rw [bump_tree]; omega⟩ trivial
  refine primary_cast (hl ▸ l.2) hnext (hclose ▸ r.2) ?_ hrun ?_
  · rw [bump_along, along_length]
    omega
  · have hstate : (p.along d w₁).bump.push
          [plainNode CastExpr w₁.advance.window0.globalOffset (Data.deleteOp (d.root p.tree.length))]
        = p.along (Syn.cast l d r) w₁.advance := by
      simp [along, bump, push, Syn.nodes, hclose]
    show Runs _ ((p.along d w₁).bump.push
      [plainNode CastExpr w₁.advance.window0.globalOffset (Data.deleteOp (d.root p.tree.length))]) _ _
    rw [hstate, bump_along, along_length]
    exact hpost

omit hx in
lemma found_blockExpr (b : Syn braces) (hn : b.tokens.length ≤ n) :
    Found σ (Syn.blockExpr b) := by
  apply Found.of_primary
  rintro p p' w id ⟨hr, hcan, hroom⟩ hpost
  cases b with
  | braced l body r =>
      have hbrace : p.window0.type = BrLeft := (Reads.cons_iff.mp hr).1 ▸ l.2
      simp only [Syn.tokens, List.length_cons, List.length_append] at hn
      exact primary_block hbrace (finds_block hs _ (by omega) ⟨hr, hcan, hroom⟩) hpost

end Shared

/-! ## Declarations -/

section Declarations

/-- The three nodes of a declaration. -/
lemma createDecl_runs {kind : NodeKind} {q : Qualifiers} {typeTok nameTok : Token} {init : NodeId}
    (hroom : p.tree.length + 2 < kNullNode) :
    Runs (fun _ : Calls σ => createDecl kind q typeTok nameTok init) p p.tree.length
      (p.push (declNodes kind q typeTok nameTok p.tree.length init)) :=
  ⟨0, fun _ _ => (createDecl_eq kind q typeTok nameTok init).mpr ⟨hroom, rfl⟩⟩

/-- The type and the name of a variable or a function. -/
lemma parseDeclNames_eq {q : QualifierTokens} {type : Option (TokOf [kByte, Ident])}
    {name : Tok Ident} (htyped : Typed q type)
    (hr : Reads p.toLookahead (optToken type ++ [name.1]) w) :
    parseDeclNames q.value p = some (.ok ((typeToken type, name.1), p.after w)) := by
  cases type with
  | none =>
      simp only [optToken, List.nil_append, Reads.cons_iff, Reads.nil_iff] at hr
      rcases hr with ⟨hname, rfl⟩
      rw [parseDeclNames, if_pos (htyped.mpr rfl), expect_bind]
      exact ⟨hname ▸ name.2, by rw [hname]; rfl⟩
  | some t =>
      simp only [optToken, List.cons_append, List.nil_append, Reads.cons_iff, Reads.nil_iff] at hr
      rcases hr with ⟨htype, hname, rfl⟩
      have hauto : ¬ q.value.isAuto = true := fun h => Option.some_ne_none _ (htyped.mp h)
      have hident : p.bump.window0.type = Ident := hname ▸ name.2
      rw [parseDeclNames, if_neg hauto, advance_bind, expect_bind]
      refine ⟨hident, ?_⟩
      show some (Except.ok ((p.window0, p.toLookahead.advance.window0), p.bump.bump)) = _
      rw [htype, hname]
      rfl

/-- The type and the name of a parameter. -/
lemma parseParamNames_eq {q : QualifierTokens} {type : Option Token} {name : Option (Tok Ident)}
    (htyped : Typed q type) (hnamed : type = none → name ≠ none)
    (hr : Reads p.toLookahead (type.toList ++ optToken name) w)
    (hmiss : name = none → w.window0.type ≠ Ident) :
    parseParamNames q.value p =
      some (.ok ((type.getD autoToken, nameToken name), p.after w)) := by
  cases type with
  | none =>
      cases name with
      | none => exact absurd rfl (hnamed rfl)
      | some name =>
          simp only [Option.toList_none, optToken, List.nil_append, Reads.cons_iff,
            Reads.nil_iff] at hr
          rcases hr with ⟨hname, rfl⟩
          rw [parseParamNames, if_pos (htyped.mpr rfl), expect_bind]
          exact ⟨hname ▸ name.2, by rw [hname]; rfl⟩
  | some t =>
      have hauto : ¬ q.value.isAuto = true := fun h => Option.some_ne_none _ (htyped.mp h)
      rw [parseParamNames, if_neg hauto, advance_bind, check_bind]
      cases name with
      | none =>
          simp only [Option.toList_some, optToken, List.append_nil, Reads.cons_iff,
            Reads.nil_iff] at hr
          rcases hr with ⟨htype, rfl⟩
          have hend : (p.bump.window0.type == Ident) = false := beq_eq_false_iff_ne.mpr (hmiss rfl)
          rw [hend, htype]
          rfl
      | some name =>
          simp only [Option.toList_some, optToken, List.cons_append, List.nil_append,
            Reads.cons_iff, Reads.nil_iff] at hr
          rcases hr with ⟨htype, hname, rfl⟩
          have hident : p.bump.window0.type = Ident := hname ▸ name.2
          rw [beq_iff_eq.mpr hident, if_pos rfl]
          show some (Except.ok ((p.window0, p.toLookahead.advance.window0), p.bump.bump)) = _
          rw [htype, hname]
          rfl

/-- One parameter. -/
lemma finds_parameter (s : Syn param)
    (hx : ∀ e : Syn expr, e.tokens.length < s.tokens.length → Found σ e) :
    Finds (fun c : Calls σ => parseParamDecl c) s fun t => t.type = Comma ∨ t.type = Right := by
  rintro p w ⟨hr, hcan, hroom⟩ hw
  cases s with
  | parameter q type name init =>
      rcases hcan with ⟨htyped, hnamed, hquals, hmiss, hcan⟩
      simp only [Syn.tokens, Reads.append_iff, List.length_append] at hr hx
      simp only [Syn.size] at hroom
      rcases hr with ⟨w₁, hq, w₂, htype, w₃, hname, hinit⟩
      have hend : w₁.window0.type ∉ qualifierTypes := by
        cases type with
        | some t => exact (Reads.cons_iff.mp htype).1 ▸ hquals t rfl
        | none =>
            obtain rfl : w₂ = w₁ := by simpa using htype
            cases name with
            | none => exact absurd rfl (hnamed rfl)
            | some name =>
                rw [(Reads.cons_iff.mp hname).1, name.2]
                decide
      have hstop : EndsExpression w.window0 ∧ w.window0.type ≠ Equals := by
        refine ⟨endsExpression_comma_right hw, ?_⟩
        rcases hw with hw | hw <;> rw [hw] <;> decide
      have hnames := parseParamNames_eq (p := p.after w₁) htyped hnamed (htype.append hname)
        fun h => hinit.firstToken ▸ hmiss h
      have hrun := finds_initialiser init (fun e he => hx e (by omega)) (p := p.after w₃)
        ⟨hinit, hcan, by rw [after_tree]; omega⟩ hstop
      have hroom' : (p.along init w).tree.length + 2 < kNullNode := by
        rw [along_length]
        omega
      have hdecl : Runs (fun _ => createDecl VarDecl q.value (type.getD autoToken)
          (nameToken name) (init.root p.tree.length)) (p.along init w) _ _ :=
        createDecl_runs hroom'
      have hid : (p.along init w).tree.length = (Syn.parameter q type name init).root p.tree.length := by
        rw [along_length]
        rfl
      have hstate : (p.along init w).push (declNodes VarDecl q.value (type.getD autoToken)
            (nameToken name) (p.along init w).tree.length (init.root p.tree.length))
          = p.along (Syn.parameter q type name init) w := by
        simp [along, push, Syn.nodes]
      rw [hstate, hid] at hdecl
      exact Runs.call (parseQualifiers_runs hq hend) (Runs.step hnames (Runs.call hrun hdecl))

/-- The parameters behind the first one. -/
lemma parameterLoop_runs (more : Syn (list (Cat.led [Comma] param)))
    (hx : ∀ e : Syn expr, e.tokens.length < more.tokens.length → Found σ e) {p : Parser σ}
    (h : InFront p more w) (hw : w.window0.type = Right) :
    Runs (fun c => c.parameterLoop) p () (p.along more w) := by
  induction hm : more.tokens.length using Nat.strong_induction_on generalizing more p with
  | _ m ih =>
    subst hm
    rcases h with ⟨hr, hcan, hroom⟩
    cases more with
    | nil =>
        obtain rfl : w = p.toLookahead := by simpa [Syn.tokens] using hr
        have hcomma : p.window0.type ≠ Comma := by
          rw [hw]
          decide
        exact Fuel.Settles.tie (Runs.unmatched hcomma
          (Runs.done rfl (p.along_nothing fun _ _ => rfl).symm))
    | cons s rest =>
        cases s with
        | led t s =>
            have ht : t.1.type = Comma := by simpa using t.2
            simp only [Syn.tokens, List.cons_append, Reads.cons_iff, Reads.append_iff] at hr
            simp only [Syn.tokens, List.length_cons, List.length_append] at hx ih
            simp only [Syn.size] at hroom
            rcases hr with ⟨hcomma, w₁, hrs, hrest⟩
            have hfirst := finds_parameter s (fun e he => hx e (by omega)) (p := p.bump)
              ⟨hrs, hrest.firstToken ▸ hcan.1, by rw [bump_tree]; omega⟩
              (comma_or_right rest hrest hw)
            have hloop := ih _ (by omega) rest (fun e he => hx e (by omega)) (p := p.along s w₁)
              ⟨hrest, hcan.2, by rw [along_length]; omega⟩ rfl
            have hstate : (p.along s w₁).along rest w
                = p.along (Syn.cons (Syn.led t s) rest) w := by
              simp [along, Syn.nodes, hrest.firstOffset, Syn.size]
            rw [hstate] at hloop
            exact Fuel.Settles.tie (Runs.matched (hcomma ▸ ht) (Runs.call hfirst hloop))

/-- The parameters of a function. -/
lemma finds_parameters (s : Syn (opt (commaList param)))
    (hx : ∀ e : Syn expr, e.tokens.length < s.tokens.length → Found σ e) :
    Finds (fun c : Calls σ => parseParameters c) s fun t => t.type = Right ∧ s.IsParameters t := by
  rintro p w ⟨hr, hcan, hroom⟩ ⟨hw, hfirst⟩
  cases s with
  | none =>
      obtain rfl : w = p.toLookahead := by simpa [Syn.tokens] using hr
      exact Runs.checked hw (Runs.done rfl (p.along_nothing fun _ _ => rfl).symm)
  | some s =>
      cases s with
      | seq s more =>
          simp only [Syn.tokens, Reads.append_iff] at hr
          simp only [Syn.tokens, List.length_append] at hx
          simp only [Syn.size] at hroom
          rcases hr with ⟨w₁, hrs, hmore⟩
          have hright : p.window0.type ≠ Right := by
            rw [← (hrs.append hmore).firstToken]
            exact hfirst
          have hrun := finds_parameter s (fun e he => hx e (by omega))
            ⟨hrs, hmore.firstToken ▸ hcan.1, by omega⟩ (comma_or_right more hmore hw)
          have hloop := parameterLoop_runs more (fun e he => hx e (by omega)) (p := p.along s w₁)
            ⟨hmore, hcan.2, by rw [along_length]; omega⟩ hw
          have hstate : (p.along s w₁).along more w = p.along (Syn.some (Syn.seq s more)) w := by
            simp [along, Syn.nodes, hmore.firstOffset]
          rw [hstate] at hloop
          exact Runs.unchecked hright (Runs.call hrun (Runs.call hloop (Runs.pure _)))

end Declarations

end Parser

end LogicCompiler
