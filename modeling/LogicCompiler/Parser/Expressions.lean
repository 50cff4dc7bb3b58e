import LogicCompiler.Parser.Entries

/-!
# Finding expressions

The converse of soundness, for the forms of expressions: when the tokens in front of the parser are
those of a canonical expression, and the parser finds its parts, the parser finds the expression.

Three statements about an expression go together, one for each entry of the parser (`Found`).  An
expression that postfixes can be attached to is stated with what follows it: the parser behaves on
it as its loop behaves behind it.
-/

namespace LogicCompiler

open TokenType NodeKind Cat

variable {σ : Type} [TokenSource σ]

namespace Parser

variable {k l : Cat}

/-- The tokens in front of the parser are those of `s`, to be read as `s`, and there are ids left
for its nodes. -/
structure InFront (p : Parser σ) (s : Syn k) (w : Lookahead σ) : Prop where
  reads : Reads p.toLookahead s.tokens w
  canonical : s.Canonical p.source w.window0
  room : p.tree.length + s.size ≤ kNullNode

/-- Where `s` is in front of the parser and a token of `Behind` is behind it, `x` consumes it and
returns its root. -/
def Finds (x : Calls σ → ParseM σ NodeId) (s : Syn k) (Behind : Token → Prop) : Prop :=
  ∀ {p : Parser σ} {w : Lookahead σ}, InFront p s w → Behind w.window0 →
    Runs x p (s.root p.tree.length) (p.along s w)

/-- What `parseStatement` does in front of a statement. -/
abbrev FindsStatement (σ : Type) [TokenSource σ] (s : Syn stmt) : Prop :=
  Finds (σ := σ) (fun c => c.parseStatement) s fun _ => True

/-- The parser finds the expression `s` wherever it is in front. -/
structure Found (σ : Type) [TokenSource σ] (s : Syn expr) : Prop where
  primary {p p' : Parser σ} {w : Lookahead σ} {id : NodeId} (hlevel : 13 ≤ s.level)
    (h : InFront p s w)
    (hpost : Runs (fun c => c.parsePostfixExpression (s.root p.tree.length)) (p.along s w) id p') :
    Runs (fun c => c.parsePrimaryExpression) p id p'
  operand (hlevel : 12 ≤ s.level) :
    Finds (fun c : Calls σ => c.parsePrimaryExpression) s fun t => t.type ∉ postfixStarts
  expression {m : ℕ} {p p' : Parser σ} {w : Lookahead σ} {id : NodeId} (hm : m ≤ s.level)
    (h : InFront p s w) (hstop : Stops s w)
    (hloop : Runs (fun c => c.binaryLoop m (s.root p.tree.length)) (p.along s w) id p') :
    Runs (fun c => c.parseExpression m) p id p'

namespace Found

variable {s : Syn expr}

/-- An expression that is no binary one is a primary one for `parseExpression`. -/
lemma of_operand (hlevel : s.level = 12)
    (h : Finds (fun c : Calls σ => c.parsePrimaryExpression) s fun t => t.type ∉ postfixStarts) :
    Found σ s where
  primary hlevel' := by omega
  operand _ := h
  expression _ hs hstop hloop := expression_primary (h hs hstop.1) hloop

/-- So is one that postfixes can be attached to. -/
lemma of_primary (h : ∀ {p p' : Parser σ} {w : Lookahead σ} {id : NodeId}, InFront p s w →
      Runs (fun c => c.parsePostfixExpression (s.root p.tree.length)) (p.along s w) id p' →
        Runs (fun c => c.parsePrimaryExpression) p id p') :
    Found σ s where
  primary _ hs hpost := h hs hpost
  operand _ _ _ hs hstop := h hs (postfix_stops hstop)
  expression _ hs hstop hloop := expression_primary (h hs (postfix_stops hstop.1)) hloop

/-- An expression in front of a token that ends every expression. -/
lemma whole (h : Found σ s) : Finds (fun c : Calls σ => c.parseExpression 0) s EndsExpression := by
  intro p w hs hend
  exact h.expression (Nat.zero_le _) hs ⟨hend.1, hend.2.trans_le (Nat.zero_le _)⟩
    (binary_stops (Or.inr hend.2))

end Found

lemma endsExpression_of_eq {type : TokenType} (h : type ∉ postfixStarts ∧ getPrecedence type = 0)
    {t : Token} (ht : t.type = type) : EndsExpression t := by
  rwa [EndsExpression, ht]

section Expressions

variable {p p' : Parser σ} {w : Lookahead σ} {id : NodeId}

/-! ## Expressions -/

lemma found_literal (t : TokOf literals) : Found σ (Syn.literal t) := by
  apply Found.of_primary
  rintro p p' w id ⟨hr, _, hroom⟩ hpost
  simp only [Syn.tokens, Reads.cons_iff, Reads.nil_iff] at hr
  rcases hr with ⟨ht, rfl⟩
  refine primary_literal (by rw [ht]; exact t.2) hroom ?_
  rw [ht]
  exact hpost

lemma found_ident (t : TokOf identifiers) : Found σ (Syn.ident t) := by
  apply Found.of_primary
  rintro p p' w id ⟨hr, _, hroom⟩ hpost
  simp only [Syn.tokens, Reads.cons_iff, Reads.nil_iff] at hr
  rcases hr with ⟨ht, rfl⟩
  refine primary_ident (by rw [ht]; exact t.2) hroom ?_
  rw [ht]
  exact hpost

lemma found_pre (op : TokOf prefixOperators) {e : Syn expr} (he : Found σ e) :
    Found σ (Syn.pre op e) := by
  apply Found.of_operand rfl
  rintro p w ⟨hr, hcan, hroom⟩ hstop
  simp only [Syn.tokens, Reads.cons_iff] at hr
  rcases hr with ⟨hop, hr⟩
  simp only [Syn.size] at hroom
  have he' : InFront p.bump e w := ⟨hr, hcan.2, by rw [bump_tree]; omega⟩
  refine primary_prefix (by rw [hop]; exact op.2) ?_ (he.operand hcan.1 he' hstop) ?_
  · rw [along_length, bump_tree]
    omega
  · have hstate : ((p.bump.along e w).push [{ tokenNode UnaryExpr p.window0 with
        data := Data.unary p.window0.type (e.root p.bump.tree.length) }])
        = p.along (Syn.pre op e) w := by
      simp [along, push, Syn.nodes, hop]
    rw [hstate, along_length]
    exact postfix_stops hstop

lemma found_paren (l : Tok Left) {e : Syn expr} (r : Tok Right) (he : Found σ e) :
    Found σ (Syn.paren l e r) := by
  apply Found.of_primary
  rintro p p' w id ⟨hr, hcan, hroom⟩ hpost
  simp only [Syn.tokens, Reads.cons_iff, Reads.append_iff, Reads.nil_iff] at hr
  rcases hr with ⟨hl, w₁, hre, hclose, rfl⟩
  have he' : InFront p.bump e w₁ := ⟨hre, hclose ▸ hcan, hroom⟩
  have hnext : p.window1.type ≠ kDelete := by
    rw [← Lookahead.advance_window0]
    exact hre.not_starts (by decide)
  refine primary_paren (by rw [hl]; exact l.2) hnext (hclose ▸ r.2)
    (he.whole he' (endsExpression_of_eq (by decide) (hclose ▸ r.2))) ?_
  have hstate : (p.bump.along e w₁).bump = p.along (Syn.paren l e r) w₁.advance := by
    simp [along, bump, Syn.nodes, hclose]
  rw [hstate]
  exact hpost

lemma found_member {e : Syn expr} (op : TokOf [Dot, Arrow]) (name : Tok Ident) (he : Found σ e) :
    Found σ (Syn.member e op name) := by
  apply Found.of_primary
  rintro p p' w id ⟨hr, hcan, hroom⟩ hpost
  simp only [Syn.tokens, Reads.cons_iff, Reads.append_iff, Reads.nil_iff] at hr
  rcases hr with ⟨w₁, hre, hop, hname, rfl⟩
  simp only [Syn.size] at hroom
  refine he.primary hcan.1 ⟨hre, hop ▸ hcan.2, by omega⟩ ?_
  refine postfix_member (by rw [along_toLookahead, hop]; exact op.2)
    (by show w₁.advance.window0.type = Ident; rw [hname]; exact name.2)
    (by rw [along_length]; omega) ?_
  have hstate : (p.along e w₁).bump.bump.push [tokenNode IdentifierExpr w₁.advance.window0,
        plainNode MemberAccessExpr w₁.window0.globalOffset (Data.binary w₁.window0.type
          (e.root p.tree.length) (p.along e w₁).tree.length)]
      = p.along (Syn.member e op name) w₁.advance.advance := by
    simp [along, bump, push, Syn.nodes, hop, hname]
  show Runs _ ((p.along e w₁).bump.bump.push [tokenNode IdentifierExpr w₁.advance.window0,
        plainNode MemberAccessExpr w₁.window0.globalOffset (Data.binary w₁.window0.type
          (e.root p.tree.length) (p.along e w₁).tree.length)]) _ _
  rw [hstate, along_length]
  exact hpost

lemma found_index {e : Syn expr} (l : Tok SqLeft) {i : Syn expr} (r : Tok SqRight)
    (he : Found σ e) (hi : Found σ i) : Found σ (Syn.index e l i r) := by
  apply Found.of_primary
  rintro p p' w id ⟨hr, hcan, hroom⟩ hpost
  simp only [Syn.tokens, Reads.cons_iff, Reads.append_iff, Reads.nil_iff] at hr
  rcases hr with ⟨w₁, hre, hl, w₂, hri, hclose, rfl⟩
  simp only [Syn.size] at hroom
  refine he.primary hcan.1 ⟨hre, hl ▸ hcan.2.1, by omega⟩ ?_
  have hi' : InFront (p.along e w₁).bump i w₂ :=
    ⟨hri, hclose ▸ hcan.2.2, by rw [bump_tree, along_length]; omega⟩
  refine postfix_index (by rw [along_toLookahead, hl]; exact l.2) (hclose ▸ r.2) ?_
    (hi.whole hi' (endsExpression_of_eq (by decide) (hclose ▸ r.2))) ?_
  · rw [along_length, bump_tree, along_length]
    omega
  have hstate : ((p.along e w₁).bump.along i w₂).bump.push
        [plainNode BinaryExpr w₂.advance.window0.globalOffset (Data.binary SqLeft
          (e.root p.tree.length) (i.root (p.along e w₁).bump.tree.length))]
      = p.along (Syn.index e l i r) w₂.advance := by
    simp [along, bump, push, Syn.nodes, hl, hclose]
  show Runs _ (((p.along e w₁).bump.along i w₂).bump.push
        [plainNode BinaryExpr w₂.advance.window0.globalOffset (Data.binary SqLeft
          (e.root p.tree.length) (i.root (p.along e w₁).bump.tree.length))]) _ _
  rw [hstate, along_length, bump_tree, along_length, Nat.add_assoc]
  exact hpost

lemma found_post {e : Syn expr} (op : TokOf [PPlus, MMinus]) (he : Found σ e) :
    Found σ (Syn.post e op) := by
  apply Found.of_primary
  rintro p p' w id ⟨hr, hcan, hroom⟩ hpost
  simp only [Syn.tokens, Reads.cons_iff, Reads.append_iff, Reads.nil_iff] at hr
  rcases hr with ⟨w₁, hre, hop, rfl⟩
  simp only [Syn.size] at hroom
  refine he.primary hcan.1 ⟨hre, hop ▸ hcan.2, by omega⟩ ?_
  refine postfix_post (by rw [along_toLookahead, hop]; exact op.2)
    (by rw [along_length]; omega) ?_
  have hstate : (p.along e w₁).bump.push [plainNode UnaryExpr w₁.window0.globalOffset
        (Data.unary w₁.window0.type (e.root p.tree.length))]
      = p.along (Syn.post e op) w₁.advance := by
    simp [along, bump, push, Syn.nodes, hop]
  show Runs _ ((p.along e w₁).bump.push [plainNode UnaryExpr w₁.window0.globalOffset
        (Data.unary w₁.window0.type (e.root p.tree.length))]) _ _
  rw [hstate, along_length]
  exact hpost

lemma found_binary {lhs : Syn expr} (op : BinaryOp) {rhs : Syn expr} (hl : Found σ lhs)
    (hr : Found σ rhs) : Found σ (Syn.binary lhs op rhs) := by
  have hle : getPrecedence op.1.type ≤ 11 := getPrecedence_le _
  have hlevel : (Syn.binary lhs op rhs).level = getPrecedence op.1.type := rfl
  refine ⟨fun h => by omega, fun h => by omega, ?_⟩
  rintro m p p' w id hm ⟨hreads, hcan, hroom⟩ hstop hloop
  simp only [Syn.tokens, Reads.cons_iff, Reads.append_iff] at hreads
  rcases hreads with ⟨w₁, hreadsl, hop, hreadsr⟩
  have hopstop : op.1.type ∉ postfixStarts := by
    have hpos := op.2
    generalize op.1.type = type at hpos
    cases type <;> first | decide | simp [getPrecedence] at hpos
  simp only [Syn.size] at hroom
  simp only [hlevel, Stops] at hm hstop
  rcases hcan with ⟨hlhs, hrhs, hcanl, hcanr⟩
  refine hl.expression (by omega) ⟨hreadsl, hop ▸ hcanl, by omega⟩ ⟨by rwa [hop], by rwa [hop]⟩ ?_
  have hprec : getPrecedence (p.along lhs w₁).window0.type = getPrecedence op.1.type := by
    rw [← hop]
    rfl
  have hrun : Runs (fun c => c.parseExpression (getPrecedence op.1.type + 1))
      (p.along lhs w₁).bump (rhs.root (p.along lhs w₁).bump.tree.length)
      ((p.along lhs w₁).bump.along rhs w) := by
    refine hr.expression hrhs ⟨hreadsr, hcanr, ?_⟩ ⟨hstop.1, by omega⟩
      (binary_stops (Or.inl (Nat.lt_succ_of_le hstop.2)))
    rw [bump_tree, along_length]
    omega
  rw [← hprec] at hrun
  refine binary_step (by rw [hprec]; exact op.2) (by rwa [hprec]) ?_ hrun ?_
  · rw [along_length, bump_tree, along_length]
    omega
  · have hstate : ((p.along lhs w₁).bump.along rhs w).push
          [plainNode BinaryExpr w₁.window0.globalOffset (Data.binary w₁.window0.type
            (lhs.root p.tree.length) (rhs.root (p.along lhs w₁).bump.tree.length))]
        = p.along (Syn.binary lhs op rhs) w := by
      simp [along, bump, push, Syn.nodes, hop]
    show Runs _ (((p.along lhs w₁).bump.along rhs w).push
          [plainNode BinaryExpr w₁.window0.globalOffset (Data.binary w₁.window0.type
            (lhs.root p.tree.length) (rhs.root (p.along lhs w₁).bump.tree.length))]) _ _
    rw [hstate, along_length, bump_tree, along_length, Nat.add_assoc]
    exact hloop

/-! Arguments, up to the `)`. -/

lemma endsExpression_comma_right {t : Token} (h : t.type = Comma ∨ t.type = Right) :
    EndsExpression t := by
  rcases h with h | h
  · exact endsExpression_of_eq (by decide) h
  · exact endsExpression_of_eq (by decide) h

/-- The first of the parts that a comma stands in front of, if there is one, is behind a comma. -/
lemma comma_or_right (more : Syn (list (Cat.led [Comma] k))) {w w' : Lookahead σ}
    (hr : Reads w more.tokens w') (hw : w'.window0.type = Right) :
    w.window0.type = Comma ∨ w.window0.type = Right := by
  cases more with
  | nil =>
      obtain rfl : w' = w := by simpa [Syn.tokens] using hr
      exact Or.inr hw
  | cons s rest =>
      cases s with
      | led t s =>
          simp only [Syn.tokens, List.cons_append, Reads.cons_iff] at hr
          rw [hr.1]
          exact Or.inl (by simpa using t.2)

/-- The arguments behind the first one. -/
lemma argumentLoop_runs : (more : Syn (list (Cat.led [Comma] expr))) →
    (∀ x : Syn expr, x.tokens.length < more.tokens.length → Found σ x) →
    ∀ {p : Parser σ} {w : Lookahead σ}, InFront p more w → w.window0.type = Right →
      Runs (fun c => c.argumentLoop) p () (p.along more w)
  | Syn.nil, _, p, w, ⟨hr, _, _⟩, hw => by
      obtain rfl : w = p.toLookahead := by simpa [Syn.tokens] using hr
      have hstate : p.along (Syn.nil : Syn (list (Cat.led [Comma] expr))) p.toLookahead = p := by
        simp [along, Syn.nodes]
      refine Fuel.Settles.tie ⟨0, fun n _ => ?_⟩
      simp [productions, argumentLoop, hw, hstate]
  | Syn.cons (Syn.led t x) rest, hx, p, w, ⟨hr, hcan, hroom⟩, hw => by
      have ht : t.1.type = Comma := by simpa using t.2
      simp only [Syn.tokens, List.cons_append, Reads.cons_iff, Reads.append_iff] at hr
      rcases hr with ⟨hcomma, w₁, hrx, hrest⟩
      simp only [Syn.size] at hroom
      simp only [Syn.tokens, List.length_cons, List.length_append] at hx
      have hcx : InFront p.bump x w₁ :=
        ⟨hrx, hrest.firstToken ▸ hcan.1, by rw [bump_tree]; omega⟩
      have hfirst := (hx x (by omega)).whole hcx
        (endsExpression_comma_right (comma_or_right rest hrest hw))
      have hloop := argumentLoop_runs rest (fun y hy => hx y (by omega)) (p := p.bump.along x w₁)
        ⟨hrest, hcan.2, by rw [along_length, bump_tree]; omega⟩ hw
      have hstate : (p.bump.along x w₁).along rest w = p.along (Syn.cons (Syn.led t x) rest) w := by
        simp [along, Syn.nodes, hrest.firstOffset, Syn.size]
      rw [hstate] at hloop
      exact Fuel.Settles.tie (Runs.matched (hcomma ▸ ht) (hfirst.bind hloop))

/-- The arguments of a call. -/
lemma finds_arguments (args : Syn (opt (commaList expr)))
    (hx : ∀ x : Syn expr, x.tokens.length ≤ args.tokens.length → Found σ x) :
    Finds (fun c : Calls σ => parseArguments c) args fun t => t.type = Right := by
  rintro p w ⟨hr, hcan, hroom⟩ hw
  cases args with
  | none =>
      obtain rfl : w = p.toLookahead := by simpa [Syn.tokens] using hr
      refine ⟨0, fun n _ => ?_⟩
      simp [parseArguments, hw, Syn.root, along, Syn.nodes]
  | some s =>
      cases s with
      | seq x more =>
          simp only [Syn.tokens, Reads.append_iff] at hr
          rcases hr with ⟨w₁, hrx, hmore⟩
          simp only [Syn.size] at hroom
          simp only [Syn.tokens, List.length_append] at hx
          have hfirst := (hx x (by omega)).whole
            ⟨hrx, hmore.firstToken ▸ hcan.1, by omega⟩
            (endsExpression_comma_right (comma_or_right more hmore hw))
          have hloop := argumentLoop_runs more (fun y hy => hx y (by omega)) (p := p.along x w₁)
            ⟨hmore, hcan.2, by rw [along_length]; omega⟩ hw
          have hstate : (p.along x w₁).along more w = p.along (Syn.some (Syn.seq x more)) w := by
            simp [along, Syn.nodes, hmore.firstOffset]
          rw [hstate] at hloop
          exact Runs.unchecked (hrx.not_starts (by decide))
            (Runs.call hfirst (Runs.call hloop (Runs.pure _)))

lemma found_call {f : Syn expr} (l : Tok Left) (args : Syn (opt (commaList expr)))
    (r : Tok Right) (hf : Found σ f)
    (hx : ∀ x : Syn expr, x.tokens.length ≤ args.tokens.length → Found σ x) :
    Found σ (Syn.call f l args r) := by
  apply Found.of_primary
  rintro p p' w id ⟨hr, hcan, hroom⟩ hpost
  simp only [Syn.tokens, Reads.cons_iff, Reads.append_iff, Reads.nil_iff] at hr
  rcases hr with ⟨w₁, hrf, hl, w₂, hargs, hclose, rfl⟩
  simp only [Syn.size] at hroom
  refine hf.primary hcan.1 ⟨hrf, hl ▸ hcan.2.1, by omega⟩ ?_
  have hargs' : InFront (p.along f w₁).bump args w₂ :=
    ⟨hargs, hclose ▸ hcan.2.2, by rw [bump_tree, along_length]; omega⟩
  refine postfix_call (by rw [along_toLookahead, hl]; exact l.2) (hclose ▸ r.2) ?_
    (finds_arguments args hx hargs' (hclose ▸ r.2)) ?_
  · rw [along_length, bump_tree, along_length]
    omega
  have hstate : ((p.along f w₁).bump.along args w₂).bump.push
        [plainNode CallExpr w₂.advance.window0.globalOffset (Data.call
          (f.root p.tree.length) (args.root (p.along f w₁).bump.tree.length))]
      = p.along (Syn.call f l args r) w₂.advance := by
    simp [along, bump, push, Syn.nodes, hl, hclose]
  show Runs _ (((p.along f w₁).bump.along args w₂).bump.push
        [plainNode CallExpr w₂.advance.window0.globalOffset (Data.call
          (f.root p.tree.length) (args.root (p.along f w₁).bump.tree.length))]) _ _
  rw [hstate, along_length, bump_tree, along_length, Nat.add_assoc]
  exact hpost

end Expressions

end Parser

end LogicCompiler
