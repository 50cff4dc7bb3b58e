import LogicCompiler.Parser.Printing

/-!
# Statements without braces

Statement trees, printed without braces, are read back, unless an `else` stands behind an `if` that
was printed without one.  Then the `else` goes to the nearest `if` in front of it that is still
open.  Which `if` that is can be told from the tokens alone, with a stack of the open ones.
-/

namespace LogicCompiler

open TokenType NodeKind Cat LogicCompiler.Parser

/-- The expression begins with an identifier. -/
def Expr.StartsWithName (e : Expr) : Prop := ∃ t ts, e.print = t :: ts ∧ t.type = Ident

/-- Statement trees. -/
inductive Stmt where
  | ifThen (cond : Expr) (body : Stmt)
  | ifElse (cond : Expr) (thenBranch elseBranch : Stmt)
  | loop (cond : Expr) (body : Stmt)
  | ret (value : Option Expr)
  | jump (keyword : {type // type ∈ [kBreak, kContinue]})
  | expr (e : {e : Expr // e.StartsWithName})

namespace Stmt

open LogicCompiler.Expr (symbol)

/-- The number of nodes. -/
def size : Stmt → ℕ
  | ifThen cond body => cond.size + (body.size + 1)
  | ifElse cond s t => cond.size + (s.size + (t.size + 1))
  | loop cond body => cond.size + (body.size + 1)
  | ret none => 1
  | ret (some e) => e.size + 1
  | jump _ => 1
  | expr e => e.1.size

/-- A keyword and the condition behind it. -/
def printHead (keyword : TokenType) (cond : Expr) : List Token :=
  symbol keyword :: symbol Left :: (cond.print ++ [symbol Right])

/-- The tokens of a statement, with nothing around its parts. -/
def print : Stmt → List Token
  | ifThen cond body => printHead kIf cond ++ body.print
  | ifElse cond s t => printHead kIf cond ++ (s.print ++ symbol kElse :: t.print)
  | loop cond body => printHead kWhile cond ++ body.print
  | ret none => [symbol kReturn, symbol Semi]
  | ret (some e) => symbol kReturn :: (e.print ++ [symbol Semi])
  | jump keyword => [symbol keyword.1, symbol Semi]
  | expr e => e.1.print ++ [symbol Semi]

/-- The node `id` of the arena and those it refers to are the tree `s`. -/
def At (tree : ASTTree) : Stmt → NodeId → Prop
  | ifThen cond body, id => ∃ n, tree[id]? = some n ∧ n.kind = EvalExpr ∧
      cond.At tree n.data.cond ∧ At tree body n.data.thenBlock ∧ n.data.elseBlock = kNullNode
  | ifElse cond s t, id => ∃ n, tree[id]? = some n ∧ n.kind = EvalExpr ∧
      cond.At tree n.data.cond ∧ At tree s n.data.thenBlock ∧ At tree t n.data.elseBlock
  | loop cond body, id => ∃ n, tree[id]? = some n ∧ n.kind = CompileTimeJump ∧
      cond.At tree n.data.cond ∧ At tree body n.data.thenBlock ∧ n.data.elseBlock = kNullNode
  | ret none, id => ∃ n, tree[id]? = some n ∧ n.kind = UnaryExpr ∧ n.data.op = kReturn.code ∧
      n.data.operand = kNullNode
  | ret (some e), id => ∃ n, tree[id]? = some n ∧ n.kind = UnaryExpr ∧
      n.data.op = kReturn.code ∧ e.At tree n.data.operand
  | jump keyword, id => ∃ n, tree[id]? = some n ∧ n.kind = CompileTimeJump ∧
      n.data.op = keyword.1.code ∧ n.data.operand = kNullNode
  | expr e, id => e.1.At tree id

/-- An `else` behind the statement would belong to an `if` inside. -/
def endsOpen : Stmt → Bool
  | ifThen _ _ => true
  | ifElse _ _ t => t.endsOpen
  | loop _ body => body.endsOpen
  | _ => false

/-- No `if` without `else` stands where the `else` of another one could belong to it. -/
def NoDangling : Stmt → Prop
  | ifThen _ body => body.NoDangling
  | ifElse _ s t => s.endsOpen = false ∧ s.NoDangling ∧ t.NoDangling
  | loop _ body => body.NoDangling
  | _ => True

/-! ## The tree that the parser builds -/

/-- The statement with an `else` behind it, which goes to the nearest open `if`. -/
def attachElse : Stmt → Stmt → Stmt
  | ifThen cond body, t =>
      if body.endsOpen then ifThen cond (body.attachElse t) else ifElse cond body t
  | ifElse cond s s', t => ifElse cond s (s'.attachElse t)
  | loop cond body, t => loop cond (body.attachElse t)
  | s, _ => s

/-- The tree with the same tokens in which every `else` belongs to the nearest open `if`. -/
def nearest : Stmt → Stmt
  | ifThen cond body => ifThen cond body.nearest
  | ifElse cond s t =>
      if s.nearest.endsOpen then ifThen cond (s.nearest.attachElse t.nearest)
      else ifElse cond s.nearest t.nearest
  | loop cond body => loop cond body.nearest
  | s => s

section Nearest

variable {s t : Stmt}

lemma attachElse_print (h : s.endsOpen = true) :
    (s.attachElse t).print = s.print ++ symbol kElse :: t.print := by
  induction s with
  | ifThen cond body ih =>
      by_cases hbody : body.endsOpen = true
      · simp [attachElse, hbody, print, ih hbody]
      · simp [attachElse, hbody, print]
  | ifElse cond s s' _ ih => simp [attachElse, print, ih h]
  | loop cond body ih => simp [attachElse, print, ih h]
  | ret value => cases h
  | jump keyword => cases h
  | expr e => cases h

lemma attachElse_size (h : s.endsOpen = true) : (s.attachElse t).size = s.size + t.size := by
  induction s with
  | ifThen cond body ih =>
      by_cases hbody : body.endsOpen = true
      · simp only [attachElse, hbody, if_true, size, ih hbody]
        omega
      · simp only [attachElse, hbody, if_false, size, Bool.false_eq_true]
        omega
  | ifElse cond s s' _ ih =>
      simp only [attachElse, size, ih h]
      omega
  | loop cond body ih =>
      simp only [attachElse, size, ih h]
      omega
  | ret value => cases h
  | jump keyword => cases h
  | expr e => cases h

lemma attachElse_noDangling (hs : s.NoDangling) (ht : t.NoDangling) :
    (s.attachElse t).NoDangling := by
  induction s with
  | ifThen cond body ih =>
      by_cases hbody : body.endsOpen = true
      · simpa [attachElse, hbody, NoDangling] using ih hs
      · simpa [attachElse, hbody, NoDangling] using ⟨hs, ht⟩
  | ifElse cond s s' _ ih => exact ⟨hs.1, hs.2.1, ih hs.2.2⟩
  | loop cond body ih => exact ih hs
  | ret value => trivial
  | jump keyword => trivial
  | expr e => trivial

/-- The same tokens. -/
lemma nearest_print (s : Stmt) : s.nearest.print = s.print := by
  induction s with
  | ifThen cond body ih => simp [nearest, print, ih]
  | ifElse cond s t ihs iht =>
      by_cases hs : s.nearest.endsOpen = true
      · simp [nearest, hs, print, attachElse_print hs, ihs, iht]
      · simp [nearest, hs, print, ihs, iht]
  | loop cond body ih => simp [nearest, print, ih]
  | ret value => rfl
  | jump keyword => rfl
  | expr e => rfl

lemma nearest_size (s : Stmt) : s.nearest.size = s.size := by
  induction s with
  | ifThen cond body ih => simp [nearest, size, ih]
  | ifElse cond s t ihs iht =>
      by_cases hs : s.nearest.endsOpen = true
      · simp only [nearest, hs, if_true, size, attachElse_size hs, ihs, iht]
        omega
      · simp [nearest, hs, size, ihs, iht]
  | loop cond body ih => simp [nearest, size, ih]
  | ret value => rfl
  | jump keyword => rfl
  | expr e => rfl

lemma nearest_noDangling (s : Stmt) : s.nearest.NoDangling := by
  induction s with
  | ifThen cond body ih => exact ih
  | ifElse cond s t ihs iht =>
      by_cases hs : s.nearest.endsOpen = true
      · simpa [nearest, hs, NoDangling] using attachElse_noDangling ihs iht
      · simpa [nearest, hs, NoDangling] using ⟨ihs, iht⟩
  | loop cond body ih => exact ih
  | ret value => trivial
  | jump keyword => trivial
  | expr e => trivial

/-- A tree without dangling branches is the one that is built. -/
lemma nearest_eq (h : s.NoDangling) : s.nearest = s := by
  induction s with
  | ifThen cond body ih => rw [nearest, ih h]
  | ifElse cond s t ihs iht => simp [nearest, ihs h.2.1, iht h.2.2, h.1]
  | loop cond body ih => rw [nearest, ih h]
  | ret value => rfl
  | jump keyword => rfl
  | expr e => rfl

end Nearest

end Stmt

/-! ## Which `if` an `else` belongs to -/

/-- What is known behind some tokens: how many `if`s there were, which of them are open (the last
one first), and which `if` each `else` belongs to. -/
structure Branches where
  ifs : ℕ := 0
  pending : List ℕ := []
  owners : List ℕ := []

/-- An `else` takes the last `if` that is open. -/
def Branches.step (b : Branches) (type : TokenType) : Branches :=
  if type = kIf then { b with ifs := b.ifs + 1, pending := b.ifs :: b.pending }
  else if type = kElse then
    { b with pending := b.pending.tail, owners := b.owners ++ b.pending.head?.toList }
  else b

/-- The tokens from `b` on. -/
def Branches.scan (b : Branches) (ts : List Token) : Branches :=
  (ts.map Token.type).foldl Branches.step b

namespace Branches

variable (b : Branches) {t : Token} {ts us : List Token}

lemma scan_cons : b.scan (t :: ts) = (b.step t.type).scan ts := rfl

lemma scan_append : b.scan (ts ++ us) = (b.scan ts).scan us := by
  simp [scan]

lemma step_other {type : TokenType} (h : type ∉ [kIf, kElse]) : b.step type = b := by
  simp only [List.mem_cons, List.not_mem_nil, or_false, not_or] at h
  rw [step, if_neg h.1, if_neg h.2]

/-- No `if` and no `else` is part of an expression. -/
lemma scan_printable (h : AllPrintable ts) : b.scan ts = b := by
  induction ts with
  | nil => rfl
  | cons t ts ih =>
      rw [allPrintable_cons] at h
      have htype : t.type ∉ [kIf, kElse] := by
        have hprint := h.1
        revert hprint
        cases t.type <;> decide
      rw [scan_cons, step_other b htype, ih h.2]

end Branches

namespace Stmt

/-- The number of conditions in a statement. -/
def ifs : Stmt → ℕ
  | ifThen _ body => 1 + body.ifs
  | ifElse _ s t => 1 + (s.ifs + t.ifs)
  | loop _ body => body.ifs
  | _ => 0

/-- The `if`s that end open, the last one first; the first `if` of the statement has the number
`n`. -/
def pending : Stmt → (n : ℕ) → List ℕ
  | ifThen _ body, n => body.pending (n + 1) ++ [n]
  | ifElse _ s t, n => t.pending (n + 1 + s.ifs)
  | loop _ body, n => body.pending n
  | _, _ => []

/-- The `if` that each `else` belongs to in the tree. -/
def owners : Stmt → (n : ℕ) → List ℕ
  | ifThen _ body, n => body.owners (n + 1)
  | ifElse _ s t, n => s.owners (n + 1) ++ n :: t.owners (n + 1 + s.ifs)
  | loop _ body, n => body.owners n
  | _, _ => []

lemma pending_eq_nil_iff (s : Stmt) (n : ℕ) : s.pending n = [] ↔ s.endsOpen = false := by
  induction s generalizing n with
  | ifThen cond body => simp [pending, endsOpen]
  | ifElse cond s t _ ih => exact ih _
  | loop cond body ih => exact ih n
  | ret value => simp [pending, endsOpen]
  | jump keyword => simp [pending, endsOpen]
  | expr e => simp [pending, endsOpen]

open LogicCompiler.Expr (symbol)

lemma scan_printHead (b : Branches) (keyword : TokenType) (cond : Expr) :
    b.scan (printHead keyword cond) = b.step keyword := by
  have hcond : AllPrintable (symbol Left :: (cond.print ++ [symbol Right])) := by
    simp [cond.print_printable, symbol, Printable]
  rw [printHead, Branches.scan_cons, Branches.scan_printable _ hcond, symbol]

/-- **The owners that the tokens give are those in the tree**, if no branch dangles. -/
lemma scan_print {s : Stmt} (hs : s.NoDangling) (b : Branches) :
    b.scan s.print = ⟨b.ifs + s.ifs, s.pending b.ifs ++ b.pending, b.owners ++ s.owners b.ifs⟩ := by
  induction s generalizing b with
  | ifThen cond body ih =>
      rw [print, Branches.scan_append, scan_printHead, ih hs]
      simp [Branches.step, ifs, pending, owners, Nat.add_assoc]
  | ifElse cond s t ihs iht =>
      have hclosed : ∀ n, s.pending n = [] := fun n => (s.pending_eq_nil_iff n).mpr hs.1
      rw [print, Branches.scan_append, scan_printHead, Branches.scan_append, ihs hs.2.1,
        Branches.scan_cons, iht hs.2.2]
      simp [Branches.step, symbol, ifs, pending, owners, hclosed, Nat.add_assoc]
  | loop cond body ih =>
      rw [print, Branches.scan_append, scan_printHead, ih hs]
      simp [Branches.step, ifs, pending, owners]
  | ret value =>
      cases value with
      | none => simp [print, Branches.scan, Branches.step, symbol, ifs, pending, owners]
      | some e =>
          rw [print, Branches.scan_cons, Branches.scan_append,
            Branches.scan_printable _ e.print_printable]
          simp [Branches.scan, Branches.step, symbol, ifs, pending, owners]
  | jump keyword =>
      have hjumps : ∀ type ∈ [kBreak, kContinue], type ∉ [kIf, kElse] := by decide
      rw [print, Branches.scan_cons, symbol, Branches.step_other _ (hjumps _ keyword.2)]
      simp [Branches.scan, Branches.step, symbol, ifs, pending, owners]
  | expr e =>
      rw [print, Branches.scan_append, Branches.scan_printable _ e.1.print_printable]
      simp [Branches.scan, Branches.step, symbol, ifs, pending, owners]

end Stmt

/-! ## The syntax of what is printed -/

/-- Behind an identifier that an expression begins with stands no identifier. -/
def Leads (ts : List Token) : Prop :=
  ∀ (t u : Token) (rest : List Token), ts = t :: u :: rest → t.type = Ident → u.type ≠ Ident

lemma leads_of_ne {t : Token} {ts : List Token} (h : t.type ≠ Ident) : Leads (t :: ts) := by
  rintro t' u rest heq htype
  cases heq
  exact absurd htype h

lemma leads_pair {t u : Token} {ts : List Token} (h : u.type ≠ Ident) : Leads (t :: u :: ts) := by
  rintro t' u' rest heq -
  cases heq
  exact h

lemma ne_ident {types : List TokenType} (htypes : Ident ∉ types) (t : TokOf types) :
    t.1.type ≠ Ident := fun h => htypes (h ▸ t.2)

lemma Syn.leads : (e : Syn expr) → {v : Token} → {rest : List Token} → v.type ≠ Ident →
    Leads (e.tokens ++ v :: rest)
  | pre op _, _, _, _ => leads_of_ne (ne_ident (by decide) op)
  | literal _, _, _, hv => leads_pair hv
  | ident _, _, _, hv => leads_pair hv
  | eval (conditional k _ _ _ _ _), _, _, _ => leads_of_ne (by rw [k.2]; decide)
  | cast l _ _, _, _, _ => leads_of_ne (by rw [l.2]; decide)
  | blockExpr (braced l _ _), _, _, _ => leads_of_ne (by rw [l.2]; decide)
  | paren l _ _, _, _, _ => leads_of_ne (by rw [l.2]; decide)
  | call f l _ _, _, _, _ => by
      rw [tokens, List.append_assoc, List.cons_append]
      exact f.leads (by rw [l.2]; decide)
  | member e op _, _, _, _ => by
      rw [tokens, List.append_assoc, List.cons_append]
      exact e.leads (ne_ident (by decide) op)
  | index e l _ _, _, _, _ => by
      rw [tokens, List.append_assoc, List.cons_append]
      exact e.leads (by rw [l.2]; decide)
  | post e op, _, _, _ => by
      rw [tokens, List.append_assoc, List.cons_append]
      exact e.leads (ne_ident (by decide) op)
  | binary lhs op _, _, _, _ => by
      rw [tokens, List.append_assoc, List.cons_append]
      refine lhs.leads fun htype => ?_
      have hop := op.2
      rw [htype] at hop
      exact absurd hop (by decide)

/-- An expression that starts with an identifier begins a statement. -/
lemma begins_of_name {e : Syn expr} {t v next : Token} {ts : List Token} (h : e.tokens = t :: ts)
    (ht : t.type = Ident) (hv : v.type ≠ Ident) : BeginsExpression (e.tokens ++ [v, next]) := by
  have hleads : Leads (e.tokens ++ [v, next]) := e.leads hv
  rw [h] at hleads ⊢
  cases ts with
  | nil => exact ⟨by simp [ht], hleads _ _ _ rfl⟩
  | cons u ts => exact ⟨by simp [ht], hleads _ _ _ rfl⟩

/-- Printed expressions are canonical in front of every token. -/
lemma Expr.print_canonical (e : Expr) {us : List Token} (h : List.Forall₂ Stands e.print us) :
    ∃ x : Syn expr, x.tokens = us ∧ (∀ src next, x.Canonical src next) ∧ x.size = e.size ∧
      ∀ {tree : ASTTree} {base next : ℕ}, Lies tree base (x.nodes base next) →
        e.At tree (x.root base) := by
  rcases e.print_syntax h with ⟨x, rfl, -, hx⟩
  have hsimple := simple_of_stands h e.print_simple
  exact ⟨x, rfl, fun _ _ => canonical_of_simple x rfl hx.grouped hsimple _, hx.size, hx.at'⟩

namespace Stmt

/-- The syntax `x` is the printed statement `s`; in front of an `else` only if that can belong to
no `if` inside. -/
structure Prints (s : Stmt) (x : Syn stmt) : Prop where
  canonical {src : List Byte} {next : Token} :
    (s.endsOpen = true → next.type ≠ kElse) → x.Canonical src next
  size : x.size = s.size
  at' {tree : ASTTree} {base next : ℕ} :
    Lies tree base (x.nodes base next) → s.At tree (x.root base)

/-- The head of a conditional or of a loop. -/
lemma printHead_stands {keyword : TokenType} {cond : Expr} {ts us : List Token}
    (h : List.Forall₂ Stands (printHead keyword cond ++ ts) us) :
    ∃ (k : Tok keyword) (l : Tok Left) (cs : List Token) (r : Tok Right) (vs : List Token),
      List.Forall₂ Stands cond.print cs ∧ List.Forall₂ Stands ts vs ∧
        k.1 :: l.1 :: (cs ++ r.1 :: vs) = us := by
  rcases List.forall₂_cons_left_iff.mp h with ⟨k, us, hk, hus, rfl⟩
  rcases forall₂_append_left hus with ⟨hs, vs, hhead, hvs, rfl⟩
  rcases stands_between hhead with ⟨l, r, cs, hcs, rfl⟩
  exact ⟨⟨k, hk.1.symm⟩, l, cs, r, vs, hcs, hvs, by simp⟩

/-- The printed tokens are those of a statement that the parser reads as it is. -/
lemma print_syntax {s : Stmt} (hs : s.NoDangling) {us : List Token}
    (h : List.Forall₂ Stands s.print us) : ∃ x : Syn stmt, x.tokens = us ∧ Prints s x := by
  induction s generalizing us with
  | ifThen cond body ih =>
      rcases printHead_stands h with ⟨k, l, cs, r, vs, hcs, hvs, rfl⟩
      rcases cond.print_canonical hcs with ⟨c, rfl, hc, hcsize, hcat⟩
      rcases ih hs hvs with ⟨x, rfl, hx⟩
      refine ⟨Syn.ifStmt [] (Syn.conditional k l c r x Syn.none), ?_, ?_, ?_, ?_⟩
      · simp [Syn.tokens, QualifierTokens.tokens]
      · rintro src next hnext
        have helse := hnext rfl
        exact ⟨hc _ _, hx.canonical fun _ => helse, trivial, fun _ => helse⟩
      · simp [Syn.size, size, hcsize, hx.size]
      · rintro tree base next hlies
        simp only [Syn.nodes, lies_append, lies_cons, Syn.length_nodes, List.length_nil,
          Nat.add_zero] at hlies
        rcases hlies with ⟨hcond, hbody, -, hnode, -⟩
        have hroot : (Syn.ifStmt [] (Syn.conditional k l c r x Syn.none)).root base
            = base + c.size + x.size := by
          simp [Syn.root, Syn.size, Nat.add_assoc]
        rw [hroot]
        exact ⟨_, hnode, rfl, hcat hcond, hx.at' hbody, rfl⟩
  | ifElse cond s t ihs iht =>
      rcases printHead_stands h with ⟨k, l, cs, r, vs, hcs, hvs, rfl⟩
      rcases cond.print_canonical hcs with ⟨c, rfl, hc, hcsize, hcat⟩
      rcases forall₂_append_left hvs with ⟨ss, ws, hss, hws, rfl⟩
      rcases List.forall₂_cons_left_iff.mp hws with ⟨e, ts, he, hts, rfl⟩
      rcases ihs hs.2.1 hss with ⟨x, rfl, hx⟩
      rcases iht hs.2.2 hts with ⟨y, rfl, hy⟩
      have helse : e.type ∈ [kElse] := by simp [← he.1, Expr.symbol]
      refine ⟨Syn.ifStmt [] (Syn.conditional k l c r x (Syn.some (Syn.led ⟨e, helse⟩ y))), ?_, ?_,
        ?_, ?_⟩
      · simp [Syn.tokens, QualifierTokens.tokens]
      · rintro src next hnext
        refine ⟨hc _ _, hx.canonical fun hopen => ?_, hy.canonical hnext, fun h => ?_⟩
        · exact absurd hopen (by simp [hs.1])
        · exact absurd h (List.cons_ne_nil e y.tokens)
      · simp [Syn.size, size, hcsize, hx.size, hy.size]
      · rintro tree base next hlies
        simp only [Syn.nodes, lies_append, lies_cons, Syn.length_nodes] at hlies
        rcases hlies with ⟨hcond, hthen, helse', hnode, -⟩
        have hroot : (Syn.ifStmt [] (Syn.conditional k l c r x
            (Syn.some (Syn.led ⟨e, helse⟩ y)))).root base = base + c.size + x.size + y.size := by
          simp [Syn.root, Syn.size, Nat.add_assoc]
        rw [hroot]
        exact ⟨_, hnode, rfl, hcat hcond, hx.at' hthen, hy.at' helse'⟩
  | loop cond body ih =>
      rcases printHead_stands h with ⟨k, l, cs, r, vs, hcs, hvs, rfl⟩
      rcases cond.print_canonical hcs with ⟨c, rfl, hc, hcsize, hcat⟩
      rcases ih hs hvs with ⟨x, rfl, hx⟩
      refine ⟨Syn.whileStmt [] k l c r x, ?_, ?_, ?_, ?_⟩
      · simp [Syn.tokens, QualifierTokens.tokens]
      · rintro src next hnext
        exact ⟨hc _ _, hx.canonical hnext⟩
      · simp [Syn.size, size, hcsize, hx.size]
      · rintro tree base next hlies
        simp only [Syn.nodes, lies_append, lies_cons, Syn.length_nodes] at hlies
        rcases hlies with ⟨hcond, hbody, hnode, -⟩
        rw [Syn.root, ← Nat.add_assoc]
        exact ⟨_, hnode, rfl, hcat hcond, hx.at' hbody, rfl⟩
  | ret value =>
      cases value with
      | none =>
          rcases stands_pair h with ⟨k, semi, hk, hsemi, rfl⟩
          refine ⟨Syn.returnStmt [] ⟨k, hk.1.symm⟩ Syn.none ⟨semi, hsemi.1.symm⟩, rfl, ?_, rfl, ?_⟩
          · exact fun _ => trivial
          · rintro tree base next hlies
            simp only [Syn.nodes, lies_append, lies_cons, List.length_nil] at hlies
            exact ⟨_, hlies.2.1, rfl, by simp [plainNode], rfl⟩
      | some e =>
          rcases List.forall₂_cons_left_iff.mp h with ⟨k, us, hk, hus, rfl⟩
          rcases forall₂_append_left hus with ⟨es, ws, hes, hws, rfl⟩
          rcases stands_single hws with ⟨semi, hsemi, rfl⟩
          rcases e.print_canonical hes with ⟨x, rfl, hx, hsize, hat⟩
          refine ⟨Syn.returnStmt [] ⟨k, hk.1.symm⟩ (Syn.some x) ⟨semi, hsemi.1.symm⟩, rfl, ?_, ?_,
            ?_⟩
          · exact fun _ => hx _ _
          · simp [Syn.size, size, hsize]
          · rintro tree base next hlies
            simp only [Syn.nodes, lies_append, lies_cons, Syn.length_nodes] at hlies
            exact ⟨_, hlies.2.1, rfl, by simp [plainNode], hat hlies.1⟩
  | jump keyword =>
      rcases stands_pair h with ⟨k, semi, hk, hsemi, rfl⟩
      have htype : k.type = keyword.1 := hk.1.symm
      refine ⟨Syn.jump [] ⟨k, htype ▸ keyword.2⟩ ⟨semi, hsemi.1.symm⟩, rfl, ?_, rfl, ?_⟩
      · exact fun _ => trivial
      · rintro tree base next hlies
        exact ⟨_, (lies_cons.mp hlies).1, rfl, by simp [plainNode, htype], rfl⟩
  | expr e =>
      rcases forall₂_append_left h with ⟨es, ws, hes, hws, rfl⟩
      rcases stands_single hws with ⟨semi, hsemi, rfl⟩
      rcases e.1.print_canonical hes with ⟨x, rfl, hx, hsize, hat⟩
      have hsemi' : semi.type = Semi := hsemi.1.symm
      refine ⟨Syn.exprStmt [] x (some ⟨semi, hsemi'⟩), rfl, ?_, hsize, fun hlies => hat hlies⟩
      rintro src next -
      refine ⟨rfl, hx _ _, endsExpression_of_eq (by decide) hsemi',
        fun h => absurd h (Option.some_ne_none _), ?_⟩
      rcases e.2 with ⟨t, ts, hprint, ht⟩
      rw [hprint] at hes
      rcases List.forall₂_cons_left_iff.mp hes with ⟨u, us, hu, -, htokens⟩
      exact begins_of_name (v := semi) htokens (hu.1 ▸ ht) (by rw [hsemi']; decide)

end Stmt

/-! ## Printing and parsing -/

lemma Branches.scan_stands {ts us : List Token} (h : List.Forall₂ Stands ts us) (b : Branches) :
    b.scan us = b.scan ts := by
  have htypes : us.map Token.type = ts.map Token.type := by
    induction h with
    | nil => rfl
    | cons hab _ ih => rw [List.map_cons, List.map_cons, ih, hab.1]
  rw [Branches.scan, Branches.scan, htypes]

variable {σ : Type} [TokenSource σ]

/-- **Statements are read back, and every `else` goes to the nearest open `if`.**  In front of the
tokens of a printed statement, `parseStatement` consumes exactly these and builds a tree that is
printed the same way; in this tree each `else` belongs to the `if` that the tokens say.  It is the
statement itself, if no branch of it dangles.  The token behind must not be an `else` that an open
`if` could take, and the arena must have ids left for the nodes. -/
theorem statement_parse_print (s : Stmt) {p : Parser σ} {ts : List Token} {w : Lookahead σ}
    (hts : List.Forall₂ Stands s.print ts) (hr : Reads p.toLookahead ts w)
    (hnext : (Branches.scan {} ts).pending ≠ [] → w.window0.type ≠ kElse)
    (hroom : p.tree.length + s.size ≤ kNullNode) :
    ∃ t id p', Fuel.Evals parser (fun c => c.parseStatement) p id p' ∧ p'.toLookahead = w ∧
      Stmt.At p'.tree t id ∧ t.print = s.print ∧ (s.NoDangling → t = s) ∧
      t.owners 0 = (Branches.scan {} ts).owners ∧ p'.tree.length = p.tree.length + s.size := by
  have hnear := s.nearest_noDangling
  rw [← s.nearest_print] at hts
  rcases Stmt.print_syntax hnear hts with ⟨x, rfl, hx⟩
  have hscan : Branches.scan {} x.tokens
      = ⟨0 + s.nearest.ifs, s.nearest.pending 0 ++ [], [] ++ s.nearest.owners 0⟩ :=
    (Branches.scan_stands hts {}).trans (Stmt.scan_print hnear {})
  rw [hscan, List.append_nil] at hnext
  have hopen : s.nearest.endsOpen = true → w.window0.type ≠ kElse := by
    rintro hends
    refine hnext fun hnil => ?_
    rw [Stmt.pending_eq_nil_iff, hends] at hnil
    cases hnil
  have hsize : x.size = s.size := hx.size.trans s.nearest_size
  have hfront : InFront p x w := ⟨hr, hx.canonical hopen, by omega⟩
  refine ⟨s.nearest, _, _, (finds_statement x hfront trivial).evals, rfl,
    hx.at' (p.along_lies x w), s.nearest_print, Stmt.nearest_eq, ?_, ?_⟩
  · rw [hscan, List.nil_append]
  · rw [along_length, hsize]

/-- `if(a)if(b)break;else x;` -/
def nestedIfTokens : List Token :=
  [⟨0, 2, 0, 0, kIf⟩, ⟨2, 1, 0, 0, Left⟩, ⟨3, 1, 0, 0, Ident⟩, ⟨4, 1, 0, 0, Right⟩,
    ⟨5, 2, 0, 0, kIf⟩, ⟨7, 1, 0, 0, Left⟩, ⟨8, 1, 0, 0, Ident⟩, ⟨9, 1, 0, 0, Right⟩,
    ⟨10, 5, 0, 0, kBreak⟩, ⟨15, 1, 0, 0, Semi⟩, ⟨16, 4, 0, 0, kElse⟩, ⟨21, 1, 0, 0, Ident⟩,
    ⟨22, 1, 0, 0, Semi⟩]

/-- An `else` behind two conditions, which belongs to the inner one. -/
def nestedIf : Stmt :=
  Stmt.ifThen (Expr.ident ⟨⟨3, 1, 0, 0, Ident⟩, by decide⟩)
    (Stmt.ifElse (Expr.ident ⟨⟨8, 1, 0, 0, Ident⟩, by decide⟩) (Stmt.jump ⟨kBreak, by decide⟩)
      (Stmt.expr ⟨Expr.ident ⟨⟨21, 1, 0, 0, Ident⟩, by decide⟩, _, _, rfl, rfl⟩))

/-- The `else` belongs to the second `if`. -/
theorem statement_parse_print_sample :
    ∃ id p', Fuel.Evals parser (fun c => c.parseStatement)
      (Parser.init nestedIfTokens (bytes "if(a)if(b)break;else x;")) id p' ∧
      p'.toLookahead = Lookahead.initWindow [] ∧ Stmt.At p'.tree nestedIf id ∧
      nestedIf.owners 0 = [1] := by
  have hstands : List.Forall₂ Stands nestedIf.print nestedIfTokens := by
    simp [nestedIf, nestedIfTokens, Stmt.print, Stmt.printHead, Expr.print, Expr.symbol, Stands,
      literals, identifiers]
  have hreads : Reads (Parser.init nestedIfTokens (bytes "if(a)if(b)break;else x;")).toLookahead
      nestedIfTokens (Lookahead.initWindow []) :=
    Reads.cons (Reads.cons (Reads.cons (Reads.cons (Reads.cons (Reads.cons (Reads.cons (Reads.cons
      (Reads.cons (Reads.cons (Reads.cons (Reads.cons (Reads.cons (Reads.nil _)))))))))))))
  rcases statement_parse_print nestedIf hstands hreads (by decide) (by decide) with
    ⟨t, id, p', hrun, hw, hat, -, hsame, howners, -⟩
  obtain rfl := hsame ⟨rfl, trivial, trivial⟩
  exact ⟨id, p', hrun, hw, hat, howners⟩

end LogicCompiler
