import LogicCompiler.Parser.Stream
import Mathlib.Data.Nat.Find
import Mathlib.Logic.Relation

/-!
# The parser halts

A call is a production of the table with its arguments; it stands at a token of the stream.  It
weighs what is left of the stream and, for the same token, the place of its production in the order
in which productions call each other without consuming anything.  A body only depends on calls
lighter than its own, so there are finitely many levels of calls whatever the source is, and a
production is not active again, nor a loop repeated, without a token having been consumed.

The productions that are no entry of the table are parts of the bodies here.
-/

namespace LogicCompiler

open TokenType NodeKind Lexer

/-- An entry of the table, with its arguments. -/
inductive Call where
  | statement
  | expression (minPrecedence : ℕ)
  | primary
  | postfixed (expr : NodeId)
  | binary (minPrecedence : ℕ) (lhs : NodeId)
  | arguments
  | parameters
  | block
  | qualifiers (q : Qualifiers)
  | unit
  deriving DecidableEq

namespace Call

/-- What the call returns. -/
def Result : Call → Type
  | statement | expression _ | primary | postfixed _ | binary _ _ => NodeId
  | arguments | parameters | block | unit => Unit
  | qualifiers _ => Qualifiers

/-- A production calls productions of a lower rank, unless it has consumed a token. -/
def rank : Call → ℕ
  | unit | block => 4
  | statement => 3
  | expression _ => 2
  | primary => 1
  | _ => 0

/-- The calls that consume a token if they return. -/
def consumes : Call → Prop
  | statement | expression _ | primary => True
  | _ => False

/-- The weight of a call at token number `i`. -/
def weight (y : Call) (src : List Byte) (i : ℕ) : ℕ := 5 * ((tokensOf src).length - i) + y.rank

end Call

namespace Parser

section Table

variable {σ : Type}

/-- The entry of the table for a call. -/
def Calls.get (c : Calls σ) : (y : Call) → ParseM σ y.Result
  | Call.statement => c.parseStatement
  | Call.expression m => c.parseExpression m
  | Call.primary => c.parsePrimaryExpression
  | Call.postfixed e => c.parsePostfixExpression e
  | Call.binary m e => c.binaryLoop m e
  | Call.arguments => c.argumentLoop
  | Call.parameters => c.parameterLoop
  | Call.block => c.blockLoop
  | Call.qualifiers q => c.qualifierLoop q
  | Call.unit => c.unitLoop

/-- The table with the given entries. -/
def Calls.ofGet (f : (y : Call) → ParseM σ y.Result) : Calls σ where
  parseStatement := f Call.statement
  parseExpression m := f (Call.expression m)
  parsePrimaryExpression := f Call.primary
  parsePostfixExpression e := f (Call.postfixed e)
  binaryLoop m e := f (Call.binary m e)
  argumentLoop := f Call.arguments
  parameterLoop := f Call.parameters
  blockLoop := f Call.block
  qualifierLoop q := f (Call.qualifiers q)
  unitLoop := f Call.unit

end Table

/-! ## Calls below a weight -/

section Fits

variable {src : List Byte} {lim i : ℕ} {c d : Calls Lexer} {α β : Type}

/-- Two tables agree on the calls lighter than `lim`. -/
def Same (src : List Byte) (lim : ℕ) (c d : Calls Lexer) : Prop :=
  ∀ y j q, Window src j q.toLookahead → y.weight src j < lim → c.get y q = d.get y q

/-- Calls move forward in the stream. -/
def Progress (src : List Byte) (c : Calls Lexer) : Prop :=
  ∀ y j q r q', Window src j q.toLookahead → c.get y q = some (.ok (r, q')) →
    ∃ k, Window src k q'.toLookahead ∧ j ≤ k ∧ (y.consumes → j < (tokensOf src).length ∧ j < k)

/-- The calls lighter than `lim` give answers. -/
def Answers (src : List Byte) (lim : ℕ) (c : Calls Lexer) : Prop :=
  ∀ y j q, Window src j q.toLookahead → y.weight src j < lim → c.get y q ≠ none

/-- Two answers are the same one, leave the parser at a token that satisfies `Q`, and are there when
the calls lighter than `lim` give answers. -/
structure Agrees (src : List Byte) (lim : ℕ) (c : Calls Lexer)
    (r r' : Option (Except Failure (α × Parser Lexer))) (Q : ℕ → Prop) : Prop where
  same : r = r'
  ends : ∀ a p', r = some (.ok (a, p')) → ∃ j, Window src j p'.toLookahead ∧ Q j
  answers : Answers src lim c → r ≠ none

/-- At token number `i`, `x` gives such answers over both tables. -/
def Fits (src : List Byte) (lim : ℕ) (c d : Calls Lexer) (x : Calls Lexer → ParseM Lexer α) (i : ℕ)
    (Q : ℕ → Prop) : Prop :=
  ∀ p, Window src i p.toLookahead → Agrees src lim c (x c p) (x d p) Q

/-- The tokens that are not the end are those in front of it. -/
lemma type_of_lt : (tokenAt src i).type ≠ Eof ↔ i < (tokensOf src).length := by
  classical
  rcases exists_eof src with ⟨n, -, hn⟩
  have hex : ∃ n, (tokenAt src n).type = Eof := ⟨n, hn⟩
  have hlen : (tokensOf src).length = Nat.find hex := by
    rw [tokensOf_eq (Nat.find_spec hex) fun m hm => Nat.find_min hex hm]
    simp
  rw [hlen]
  constructor
  · intro h
    by_contra hge
    exact h (eof_le (by omega) (Nat.find_spec hex))
  · exact fun h => Nat.find_min hex h

namespace Fits

variable {x y : Calls Lexer → ParseM Lexer α} {f : Calls Lexer → α → ParseM Lexer β}
  {P Q : ℕ → Prop}

/-- What is known behind the piece can be weakened. -/
lemma mono (h : Fits src lim c d x i P) (hPQ : ∀ j, P j → Q j) : Fits src lim c d x i Q := by
  intro p hp
  refine ⟨(h p hp).same, fun a p' hx => ?_, (h p hp).answers⟩
  rcases (h p hp).ends a p' hx with ⟨j, hj, hPj⟩
  exact ⟨j, hj, hPQ j hPj⟩

/-- One piece behind another. -/
lemma bind (hx : Fits src lim c d x i P)
    (hf : ∀ a j, P j → Fits src lim c d (fun c => f c a) j Q) :
    Fits src lim c d (fun c => x c >>= f c) i Q := by
  intro p hp
  rcases hx p hp with ⟨hsame, hpost, hans⟩
  refine ⟨?_, fun b p' h => ?_, fun hc h => ?_⟩
  · show (x c >>= f c) p = (x d >>= f d) p
    rw [Fuel.Comp.bind_eq, Fuel.Comp.bind_eq, ← hsame]
    cases hres : x c p with
    | none => rfl
    | some r =>
        cases r with
        | error e => rfl
        | ok r =>
            rcases hpost r.1 r.2 hres with ⟨j, hj, hPj⟩
            exact (hf r.1 j hPj r.2 hj).same
  · rcases Fuel.Comp.bind_eq_ok.mp h with ⟨a, q, hxa, hfa⟩
    rcases hpost a q hxa with ⟨j, hj, hPj⟩
    exact (hf a j hPj q hj).ends b p' hfa
  · have h : (x c >>= f c) p = none := h
    rw [Fuel.Comp.bind_eq] at h
    cases hres : x c p with
    | none => exact hans hc hres
    | some r =>
        rw [hres] at h
        cases r with
        | error e => cases h
        | ok r =>
            rcases hpost r.1 r.2 hres with ⟨j, hj, hPj⟩
            exact (hf r.1 j hPj r.2 hj).answers hc h

/-- A computation that calls nothing. -/
lemma plain {z : ParseM Lexer α} (hz : ∀ p, z p ≠ none)
    (hends : ∀ p, Window src i p.toLookahead → ∀ a p', z p = some (.ok (a, p')) →
      ∃ j, Window src j p'.toLookahead ∧ Q j) : Fits src lim c d (fun _ => z) i Q :=
  fun p hp => ⟨rfl, hends p hp, fun _ => hz p⟩

/-- A piece that only returns. -/
lemma pure {a : α} (h : Q i) : Fits src lim c d (fun _ => Pure.pure a) i Q := by
  refine plain (fun p hp => by cases hp) fun p hp b p' hx => ?_
  cases hx
  exact ⟨i, hp, h⟩

/-! What primitives do in front of a continuation. -/

/-- A piece that looks at the token in front. -/
lemma peek {g : Calls Lexer → Token → ParseM Lexer β} (hg : ∀ t, Fits src lim c d (fun c => g c t) i Q) :
    Fits src lim c d (fun c => Parser.peek >>= g c) i Q :=
  fun p hp => hg p.window0 p hp

/-- A piece that consumes a token. -/
lemma advance {g : Calls Lexer → Token → ParseM Lexer β}
    (hg : ∀ t, Fits src lim c d (fun c => g c t) (i + 1) Q) :
    Fits src lim c d (fun c => Parser.advance >>= g c) i Q :=
  fun p hp => hg p.window0 p.bump hp.advance

lemma node {kind : NodeKind} {offset len : ℕ} {g : Calls Lexer → NodeId → ParseM Lexer β}
    (hg : ∀ id, Fits src lim c d (fun c => g c id) i Q) :
    Fits src lim c d (fun c => createNode kind offset len >>= g c) i Q := by
  refine Fits.bind (P := fun j => j = i) (plain (fun p h => ?_) fun p hp id p' h => ?_)
    fun id j hj => hj ▸ hg id
  · simp only [createNode] at h
    split at h <;> cases h
  · simp only [createNode] at h
    split at h
    · cases h
      exact ⟨i, hp, rfl⟩
    · cases h

lemma data {id : NodeId} {d' : Data} {g : Calls Lexer → Unit → ParseM Lexer β}
    (hg : Fits src lim c d (fun c => g c ()) i Q) :
    Fits src lim c d (fun c => setData id d' >>= g c) i Q :=
  fun _ hp => hg _ hp

lemma quals {id : NodeId} {q : Qualifiers} {g : Calls Lexer → Unit → ParseM Lexer β}
    (hg : Fits src lim c d (fun c => g c ()) i Q) :
    Fits src lim c d (fun c => setQualifiers id q >>= g c) i Q :=
  fun _ hp => hg _ hp

lemma tokenNode {kind : NodeKind} {tok : Token} {g : Calls Lexer → NodeId → ParseM Lexer β}
    (hg : ∀ id, Fits src lim c d (fun c => g c id) i Q) :
    Fits src lim c d (fun c => createTokenNode kind tok >>= g c) i Q :=
  Fits.bind (P := fun j => j = i) (node fun _ => data (pure rfl)) fun id _ hj => hj ▸ hg id

/-- An error ends the run, and no call is left. -/
lemma raise {tok : Token} {msg : String} :
    Fits src lim c d (fun _ => (raiseError tok msg : ParseM Lexer α)) i Q :=
  plain (fun _ h => by cases h) fun _ _ _ _ h => by cases h

/-- A token that is expected is consumed; it is not the end, as the end is never expected. -/
lemma expect {type : TokenType} {msg : String} {g : Calls Lexer → Token → ParseM Lexer β}
    (htype : type ≠ Eof)
    (hg : i < (tokensOf src).length → ∀ t, Fits src lim c d (fun c => g c t) (i + 1) Q) :
    Fits src lim c d (fun c => Parser.expect type msg >>= g c) i Q := by
  intro p hp
  by_cases h : p.window0.type = type
  · have hi : i < (tokensOf src).length := type_of_lt.mp (by rw [← hp.first, h]; exact htype)
    have hrun : ∀ f : Token → ParseM Lexer β,
        (Parser.expect type msg >>= f) p = f p.window0 p.bump := by
      intro f
      rw [Fuel.Comp.bind_eq]
      simp [Parser.expect, h]
    simp only [hrun]
    exact hg hi p.window0 p.bump hp.advance
  · have hrun : ∀ f : Token → ParseM Lexer β, (Parser.expect type msg >>= f) p =
        some (.error (.syntaxError (errorText p.source p.window0 msg))) := by
      intro f
      rw [Fuel.Comp.bind_eq]
      simp [Parser.expect, h]
    refine ⟨(hrun (g c)).trans (hrun (g d)).symm, fun _ _ h' => ?_, fun _ h' => ?_⟩
    · cases (hrun (g c)).symm.trans h'
    · cases (hrun (g c)).symm.trans h'

/-- A branching on something that is known. -/
lemma ite {b : Prop} [Decidable b] (hx : b → Fits src lim c d x i Q) (hy : ¬ b → Fits src lim c d y i Q) :
    Fits src lim c d (fun c => if b then x c else y c) i Q := by
  by_cases h : b
  · simpa [h] using hx h
  · simpa [h] using hy h

/-- A branching on the type of the token in front. -/
lemma ifCheck {type : TokenType} (htype : type ≠ Eof)
    (hx : i < (tokensOf src).length → Fits src lim c d x i Q) (hy : Fits src lim c d y i Q) :
    Fits src lim c d (fun c => Parser.check type >>= fun b => if b = true then x c else y c) i Q := by
  intro p hp
  simp only [check_bind, beq_iff_eq, Fuel.Comp.ite_apply]
  by_cases h : p.window0.type = type
  · simp only [h, if_true]
    exact hx (type_of_lt.mp (by rw [← hp.first, h]; exact htype)) p hp
  · simp only [h, if_false]
    exact hy p hp

lemma passOver {type : TokenType} (htype : type ≠ Eof) :
    Fits src lim c d (fun _ => Parser.matchToken type) i (fun j => i ≤ j) :=
  ifCheck htype (fun _ => advance fun _ => pure (Nat.le_succ i)) (pure le_rfl)

/-- A branching on whether the token in front has one of several types. -/
lemma ifAny {types : List TokenType} (htypes : Eof ∉ types)
    (hx : i < (tokensOf src).length → Fits src lim c d x i Q) (hy : Fits src lim c d y i Q) :
    Fits src lim c d (fun c => checkAny types >>= fun b => if b = true then x c else y c) i Q := by
  intro p hp
  simp only [checkAny_bind, List.contains_iff_mem, Fuel.Comp.ite_apply]
  by_cases h : p.window0.type ∈ types
  · simp only [h, if_true]
    refine hx (type_of_lt.mp ?_) p hp
    rintro heof
    rw [← hp.first] at heof
    exact htypes (heof ▸ h)
  · simp only [h, if_false]
    exact hy p hp

/-- A branching that consumes the token it tests. -/
lemma ifMatch {type : TokenType} (htype : type ≠ Eof)
    (hx : i < (tokensOf src).length → Fits src lim c d x (i + 1) Q) (hy : Fits src lim c d y i Q) :
    Fits src lim c d (fun c => matchToken type >>= fun b => if b = true then x c else y c) i Q := by
  intro p hp
  simp only [matchToken_bind]
  by_cases h : p.window0.type = type
  · simp only [h, if_true]
    exact hx (type_of_lt.mp (by rw [← hp.first, h]; exact htype)) p.bump hp.advance
  · simp only [h, if_false]
    simpa using hy p hp

end Fits

/-! ## Bodies fit below their weight -/

section Bodies

variable (hsame : Same src lim c d) (hprog : Progress src c)

include hsame hprog

/-- A call through the table fits where its weight is below the limit. -/
lemma fits_call (y : Call) (h : y.weight src i < lim) :
    Fits src lim c d (fun c => c.get y) i
      (fun j => i ≤ j ∧ (y.consumes → i < (tokensOf src).length ∧ i < j)) :=
  fun p hp => ⟨hsame y i p hp h, fun a p' hx => hprog y i p a p' hp hx, fun hc => hc y i p hp h⟩

/-- The call of a statement, which consumes something. -/
lemma fits_statement (h : 5 * ((tokensOf src).length - i) + 3 < lim) :
    Fits src lim c d (fun c => c.parseStatement) i (fun j => i < (tokensOf src).length ∧ i < j) :=
  (fits_call hsame hprog Call.statement h).mono fun _ hj => hj.2 trivial

/-- The call of an expression, which consumes something. -/
lemma fits_expression (m : ℕ) (h : 5 * ((tokensOf src).length - i) + 2 < lim) :
    Fits src lim c d (fun c => c.parseExpression m) i (fun j => i < (tokensOf src).length ∧ i < j) :=
  (fits_call hsame hprog (Call.expression m) h).mono fun _ hj => hj.2 trivial

lemma fits_primary (h : 5 * ((tokensOf src).length - i) + 1 < lim) :
    Fits src lim c d (fun c => c.parsePrimaryExpression) i
      (fun j => i < (tokensOf src).length ∧ i < j) :=
  (fits_call hsame hprog Call.primary h).mono fun _ hj => hj.2 trivial

lemma fits_postfixed (e : NodeId) (h : 5 * ((tokensOf src).length - i) < lim) :
    Fits src lim c d (fun c => c.parsePostfixExpression e) i (fun j => i ≤ j) :=
  (fits_call hsame hprog (Call.postfixed e) h).mono fun _ hj => hj.1

lemma fits_binary (m : ℕ) (e : NodeId) (h : 5 * ((tokensOf src).length - i) < lim) :
    Fits src lim c d (fun c => c.binaryLoop m e) i (fun j => i ≤ j) :=
  (fits_call hsame hprog (Call.binary m e) h).mono fun _ hj => hj.1

lemma fits_argumentLoop (h : 5 * ((tokensOf src).length - i) < lim) :
    Fits src lim c d (fun c => c.argumentLoop) i (fun j => i ≤ j) :=
  (fits_call hsame hprog Call.arguments h).mono fun _ hj => hj.1

lemma fits_parameterLoop (h : 5 * ((tokensOf src).length - i) < lim) :
    Fits src lim c d (fun c => c.parameterLoop) i (fun j => i ≤ j) :=
  (fits_call hsame hprog Call.parameters h).mono fun _ hj => hj.1

lemma fits_blockLoop (h : 5 * ((tokensOf src).length - i) + 4 < lim) :
    Fits src lim c d (fun c => c.blockLoop) i (fun j => i ≤ j) :=
  (fits_call hsame hprog Call.block h).mono fun _ hj => hj.1

lemma fits_qualifierLoop (q : Qualifiers) (h : 5 * ((tokensOf src).length - i) < lim) :
    Fits src lim c d (fun c => c.qualifierLoop q) i (fun j => i ≤ j) :=
  (fits_call hsame hprog (Call.qualifiers q) h).mono fun _ hj => hj.1

lemma fits_unitLoop (h : 5 * ((tokensOf src).length - i) + 4 < lim) :
    Fits src lim c d (fun c => c.unitLoop) i (fun j => i ≤ j) :=
  (fits_call hsame hprog Call.unit h).mono fun _ hj => hj.1

/-! Parts of bodies. -/

/-- An expression that may be missing. -/
lemma fits_unless {stop : TokenType} (hstop : stop ≠ Eof)
    (h : 5 * ((tokensOf src).length - i) + 2 < lim) :
    Fits src lim c d (fun c => parseUnless c stop) i (fun j => i ≤ j) :=
  Fits.ifCheck hstop (fun _ => Fits.pure le_rfl)
    ((fits_expression hsame hprog 0 h).mono fun _ hj => hj.2.le)

lemma fits_else (h : 5 * ((tokensOf src).length - i) < lim) :
    Fits src lim c d (fun c => parseElse c) i (fun j => i ≤ j) :=
  Fits.ifMatch (by decide)
    (fun _ => (fits_statement hsame hprog (by omega)).mono fun _ hj => by omega)
    (Fits.pure le_rfl)

lemma fits_initialiser (h : 5 * ((tokensOf src).length - i) < lim) :
    Fits src lim c d (fun c => parseInitialiser c) i (fun j => i ≤ j) :=
  Fits.ifMatch (by decide)
    (fun _ => (fits_expression hsame hprog 0 (by omega)).mono fun _ hj => by omega)
    (Fits.pure le_rfl)

lemma fits_optionalBody (h : 5 * ((tokensOf src).length - i) + 3 < lim) :
    Fits src lim c d (fun c => parseOptionalBody c) i (fun j => i ≤ j) :=
  Fits.ifCheck (by decide) (fun _ => (fits_statement hsame hprog h).mono fun _ hj => hj.2.le)
    (Fits.pure le_rfl)

omit hsame hprog in
lemma fits_optionalSemi : Fits src lim c d (fun _ => optionalSemi) i (fun j => i ≤ j) :=
  Fits.ifCheck (by decide) (fun _ => Fits.advance fun _ => Fits.pure (Nat.le_succ i))
    (Fits.pure le_rfl)

/-- Both kinds of conditions: keyword, condition and branches. -/
lemma fits_conditional {keyword : TokenType} (hk : keyword ≠ Eof) {msg₁ msg₂ msg₃ : String}
    (h : 5 * ((tokensOf src).length - i) < lim) :
    Fits src lim c d (fun c => parseConditional c keyword msg₁ msg₂ msg₃) i
      (fun j => i < (tokensOf src).length ∧ i < j) := by
  refine Fits.expect hk fun hlt _ => Fits.expect (by decide) fun _ _ => ?_
  refine (fits_expression hsame hprog 0 (by omega)).bind fun cond j hj => ?_
  refine Fits.expect (by decide) fun _ _ => ?_
  refine (fits_statement hsame hprog (by omega)).bind fun thenBlock k hk => ?_
  refine (fits_else hsame hprog (by omega)).bind fun elseBlock l hl => ?_
  exact Fits.node fun id => Fits.data (Fits.pure (by omega))

lemma fits_delete (h : 5 * ((tokensOf src).length - i) < lim) :
    Fits src lim c d (fun c => parseDeleteStatement c) i
      (fun j => i < (tokensOf src).length ∧ i < j) := by
  refine Fits.expect (by decide) fun hlt _ => ?_
  refine (Fits.passOver (by decide)).bind fun auto j hj => ?_
  refine (fits_primary hsame hprog (by omega)).bind fun target k hk => ?_
  exact Fits.node fun id => Fits.quals (Fits.data (Fits.pure (by omega)))

/-- The statements of a block, and its `\x7d`. -/
lemma fits_block {msg : String} (h : 5 * ((tokensOf src).length - i) + 4 < lim) :
    Fits src lim c d (fun c => parseBlock c msg) i (fun j => i ≤ j) := by
  refine Fits.peek fun tok => Fits.node fun blockId => ?_
  refine (fits_blockLoop hsame hprog h).bind fun _ j hj => ?_
  exact Fits.expect (by decide) fun _ _ => Fits.pure (by omega)

lemma fits_arguments (h : 5 * ((tokensOf src).length - i) + 2 < lim) :
    Fits src lim c d (fun c => parseArguments c) i (fun j => i ≤ j) := by
  refine Fits.ifCheck (by decide) (fun _ => Fits.pure le_rfl) ?_
  refine (fits_expression hsame hprog 0 h).bind fun argsList j hj => ?_
  refine (fits_argumentLoop hsame hprog (by omega)).bind fun _ k hk => ?_
  exact Fits.pure (by omega)

/-- The first part of a `for`, with its `;`. -/
lemma fits_forInit (h : 5 * ((tokensOf src).length - i) + 3 < lim) :
    Fits src lim c d (fun c => parseForInit c) i (fun j => i ≤ j) :=
  Fits.ifCheck (by decide) (fun _ => Fits.advance fun _ => Fits.pure (Nat.le_succ i))
    ((fits_statement hsame hprog h).mono fun _ hj => hj.2.le)

lemma fits_while (h : 5 * ((tokensOf src).length - i) < lim) :
    Fits src lim c d (fun c => parseWhileStatement c) i
      (fun j => i < (tokensOf src).length ∧ i < j) := by
  refine Fits.expect (by decide) fun hlt _ => Fits.expect (by decide) fun _ _ => ?_
  refine (fits_expression hsame hprog 0 (by omega)).bind fun cond j hj => ?_
  refine Fits.expect (by decide) fun _ _ => ?_
  refine (fits_statement hsame hprog (by omega)).bind fun body k hk => ?_
  exact Fits.node fun id => Fits.data (Fits.pure (by omega))

lemma fits_for (h : 5 * ((tokensOf src).length - i) < lim) :
    Fits src lim c d (fun c => parseForStatement c) i
      (fun j => i < (tokensOf src).length ∧ i < j) := by
  refine Fits.expect (by decide) fun hlt _ => Fits.expect (by decide) fun _ _ => ?_
  refine (fits_forInit hsame hprog (by omega)).bind fun init j hj => ?_
  refine (fits_unless hsame hprog (by decide) (by omega)).bind fun cond k hk => ?_
  refine Fits.expect (by decide) fun _ _ => ?_
  refine (fits_unless hsame hprog (by decide) (by omega)).bind fun incr l hl => ?_
  refine Fits.expect (by decide) fun _ _ => ?_
  refine (fits_statement hsame hprog (by omega)).bind fun body m hm => ?_
  exact Fits.node fun id => Fits.data (Fits.pure (by omega))

lemma fits_return (h : 5 * ((tokensOf src).length - i) < lim) :
    Fits src lim c d (fun c => parseReturnStatement c) i
      (fun j => i < (tokensOf src).length ∧ i < j) := by
  refine Fits.expect (by decide) fun _ _ => ?_
  refine (fits_unless hsame hprog (by decide) (by omega)).bind fun e j hj => ?_
  refine Fits.expect (by decide) fun _ _ => ?_
  exact Fits.node fun id => Fits.data (Fits.pure (by omega))

omit hsame hprog in
lemma fits_jump (_ : i < (tokensOf src).length) :
    Fits src lim c d (fun _ => parseJumpStatement) i
      (fun j => i < (tokensOf src).length ∧ i < j) := by
  refine Fits.advance fun ctrlTok => Fits.expect (by decide) fun _ _ => ?_
  exact Fits.node fun id => Fits.data (Fits.pure (by omega))

/-- Of a struct, keyword and name are consumed in any case. -/
lemma fits_structDecl (h : 5 * ((tokensOf src).length - i) < lim) :
    Fits src lim c d (fun c => parseStructDecl c) i
      (fun j => i < (tokensOf src).length ∧ i < j) := by
  refine Fits.expect (by decide) fun hlt _ => Fits.expect (by decide) fun _ _ => ?_
  refine (fits_optionalBody hsame hprog (by omega)).bind fun body j hj => ?_
  refine fits_optionalSemi.bind fun _ k hk => ?_
  exact Fits.node fun id => Fits.data (Fits.pure (by omega))

lemma fits_namespaceDecl (h : 5 * ((tokensOf src).length - i) < lim) :
    Fits src lim c d (fun c => parseNamespaceDecl c) i
      (fun j => i < (tokensOf src).length ∧ i < j) := by
  refine Fits.expect (by decide) fun hlt _ => Fits.expect (by decide) fun _ _ => ?_
  refine (fits_statement hsame hprog (by omega)).bind fun body j hj => ?_
  exact Fits.node fun id => Fits.data (Fits.pure (by omega))

omit hsame hprog in
lemma fits_createDecl {kind : NodeKind} {q : Qualifiers} {t u : Token} {e : NodeId} :
    Fits src lim c d (fun _ => createDecl kind q t u e) i (fun j => j = i) :=
  Fits.node fun _ => Fits.tokenNode fun _ => Fits.tokenNode fun _ =>
    Fits.quals (Fits.data (Fits.pure rfl))

omit hsame hprog in
lemma fits_paramNames {q : Qualifiers} :
    Fits src lim c d (fun _ => parseParamNames q) i (fun j => i ≤ j) := by
  refine Fits.ite (fun _ => ?_) fun _ => ?_
  · exact Fits.expect (by decide) fun _ _ => Fits.pure (Nat.le_succ i)
  · refine Fits.advance fun typeTok => Fits.ifCheck (by decide) (fun _ => ?_) ?_
    · exact Fits.advance fun _ => Fits.pure (by omega)
    · exact Fits.pure (Nat.le_succ i)

/-- A parameter may consume nothing. -/
lemma fits_paramDecl (h : 5 * ((tokensOf src).length - i) < lim) :
    Fits src lim c d (fun c => parseParamDecl c) i (fun j => i ≤ j) := by
  refine (fits_qualifierLoop hsame hprog {} h).bind fun q j hj => ?_
  refine fits_paramNames.bind fun names k hk => ?_
  refine (fits_initialiser hsame hprog (by omega)).bind fun e l hl => ?_
  exact fits_createDecl.mono fun _ hm => by omega

lemma fits_parameters (h : 5 * ((tokensOf src).length - i) < lim) :
    Fits src lim c d (fun c => parseParameters c) i (fun j => i ≤ j) := by
  refine Fits.ifCheck (by decide) (fun _ => Fits.pure le_rfl) ?_
  refine (fits_paramDecl hsame hprog h).bind fun paramsList j hj => ?_
  refine (fits_parameterLoop hsame hprog (by omega)).bind fun _ k hk => ?_
  exact Fits.pure (by omega)

lemma fits_functionBody (h : 5 * ((tokensOf src).length - i) + 3 < lim) :
    Fits src lim c d (fun c => parseFunctionBody c) i (fun j => i ≤ j) := by
  refine Fits.ifCheck (by decide) (fun _ => ?_) ?_
  · exact (fits_statement hsame hprog h).mono fun _ hj => hj.2.le
  · exact Fits.expect (by decide) fun _ _ => Fits.pure (Nat.le_succ i)

/-- A function, behind its name. -/
lemma fits_functionDecl {q : Qualifiers} {t u : Token}
    (h : 5 * ((tokensOf src).length - i) < lim) :
    Fits src lim c d (fun c => parseFunctionDecl c q t u) i
      (fun j => i < (tokensOf src).length ∧ i < j) := by
  refine Fits.expect (by decide) fun hlt _ => ?_
  refine (fits_parameters hsame hprog (by omega)).bind fun paramsList j hj => ?_
  refine Fits.expect (by decide) fun _ _ => ?_
  refine (fits_functionBody hsame hprog (by omega)).bind fun body k hk => ?_
  exact Fits.tokenNode fun _ => Fits.tokenNode fun _ => Fits.node fun id =>
    Fits.quals (Fits.data (Fits.pure (by omega)))

omit hsame hprog in
/-- A branching on the word `using`. -/
lemma Fits.ifUsing {x y : Calls Lexer → ParseM Lexer α} {Q : ℕ → Prop}
    (hx : i < (tokensOf src).length → Fits src lim c d x i Q) (hy : Fits src lim c d y i Q) :
    Fits src lim c d (fun c => checkUsing >>= fun b => if b = true then x c else y c) i Q := by
  intro p hp
  let b := p.window0.type == Ident &&
    (p.source.drop p.window0.globalOffset).take p.window0.size == bytes "using"
  have hrun : ∀ c, (checkUsing >>= fun b => if b = true then x c else y c) p =
      (if b = true then x c else y c) p := fun _ => rfl
  by_cases h : b = true
  · simp only [hrun, h, if_true]
    have hident : p.window0.type = Ident := by
      simpa using (Bool.and_eq_true_iff.mp h).1
    refine hx (type_of_lt.mp ?_) p hp
    rw [← hp.first, hident]
    decide
  · simp only [hrun, h]
    simpa using hy p hp

lemma fits_base (h : 5 * ((tokensOf src).length - i) < lim) :
    Fits src lim c d (fun c => parseBase c) i (fun j => i ≤ j) := by
  refine Fits.ifMatch (by decide) (fun _ => ?_) ?_
  · exact (fits_expression hsame hprog 0 (by omega)).mono fun _ hj => by omega
  refine Fits.ifMatch (by decide) (fun _ => ?_) ?_
  · exact (fits_primary hsame hprog (by omega)).mono fun _ hj => by omega
  refine Fits.ifUsing (fun _ => Fits.advance fun _ => ?_) (Fits.pure le_rfl)
  exact (fits_primary hsame hprog (by omega)).mono fun _ hj => by omega

/-- A type, at its keyword. -/
lemma fits_typeDecl {q : Qualifiers} (_ : i < (tokensOf src).length)
    (h : 5 * ((tokensOf src).length - i) < lim) :
    Fits src lim c d (fun c => parseTypeDecl c q) i
      (fun j => i < (tokensOf src).length ∧ i < j) := by
  refine Fits.advance fun typeTok => Fits.expect (by decide) fun _ nameTok => ?_
  refine (fits_base hsame hprog (by omega)).bind fun b j hj => ?_
  refine (fits_optionalBody hsame hprog (by omega)).bind fun body k hk => ?_
  refine fits_optionalSemi.bind fun _ l hl => ?_
  exact fits_createDecl.mono fun _ hm => by omega

omit hsame hprog in
lemma fits_declNames {q : Qualifiers} :
    Fits src lim c d (fun _ => parseDeclNames q) i
      (fun j => i < (tokensOf src).length ∧ i < j) := by
  refine Fits.ite (fun _ => ?_) fun _ => ?_
  · exact Fits.expect (by decide) fun _ _ => Fits.pure (by omega)
  · exact Fits.advance fun _ => Fits.expect (by decide) fun _ _ => Fits.pure (by omega)

/-- A declaration consumes its name, at least. -/
lemma fits_varOrTypeDecl {q : Qualifiers} (h : 5 * ((tokensOf src).length - i) < lim) :
    Fits src lim c d (fun c => parseVarOrTypeDecl c q) i
      (fun j => i < (tokensOf src).length ∧ i < j) := by
  refine Fits.ifCheck (by decide) (fun hlt => fits_typeDecl hsame hprog hlt h) ?_
  refine fits_declNames.bind fun names j hj => ?_
  refine Fits.ifCheck (by decide) (fun _ => ?_) ?_
  · exact (fits_functionDecl hsame hprog (by omega)).mono fun _ hk => by omega
  refine (fits_initialiser hsame hprog (by omega)).bind fun e k hk => ?_
  exact Fits.expect (by decide) fun _ _ => fits_createDecl.mono fun _ hl => by omega

/-! The entries of the table. -/

omit hsame hprog in
/-- A branching on the beginning of a cast, which takes two tokens of lookahead. -/
lemma Fits.ifCast {x y : Calls Lexer → ParseM Lexer α} {Q : ℕ → Prop}
    (hx : i < (tokensOf src).length → Fits src lim c d x i Q) (hy : Fits src lim c d y i Q) :
    Fits src lim c d (fun c => check Left >>= fun a => peekType1 >>= fun b =>
      if (a && b == kDelete) = true then x c else y c) i Q := by
  intro p hp
  simp only [check_bind, peekType1_bind, Fuel.Comp.ite_apply, Bool.and_eq_true, beq_iff_eq]
  by_cases h : p.window0.type = Left ∧ p.window1.type = kDelete
  · simp only [h, and_self, if_true]
    exact hx (type_of_lt.mp (by rw [← hp.first, h.1]; decide)) p hp
  · simp only [h, if_false]
    exact hy p hp

/-- The body of `parsePrimaryExpression`. -/
lemma fits_parsePrimaryExpression (h : 5 * ((tokensOf src).length - i) < lim) :
    Fits src lim c d (fun c => parsePrimaryExpression c) i
      (fun j => i < (tokensOf src).length ∧ i < j) := by
  refine Fits.ifAny (by decide) (fun hlt => ?_) ?_
  · refine Fits.advance fun op => ?_
    refine (fits_primary hsame hprog (by omega)).bind fun operand j hj => ?_
    exact Fits.node fun id => Fits.data
      ((fits_postfixed hsame hprog id (by omega)).mono fun _ hk => by omega)
  refine Fits.ifAny (by decide) (fun hlt => ?_) ?_
  · exact Fits.advance fun t => Fits.tokenNode fun id =>
      (fits_postfixed hsame hprog id (by omega)).mono fun _ hk => by omega
  refine Fits.ifAny (by decide) (fun hlt => ?_) ?_
  · exact Fits.advance fun t => Fits.tokenNode fun id =>
      (fits_postfixed hsame hprog id (by omega)).mono fun _ hk => by omega
  refine Fits.ifCheck (by decide) (fun hlt => ?_) ?_
  · refine (fits_conditional hsame hprog (by decide) h).bind fun id j hj => ?_
    exact (fits_postfixed hsame hprog id (by omega)).mono fun _ hk => by omega
  refine Fits.ifCast (fun hlt => ?_) ?_
  · refine Fits.advance fun _ => ?_
    refine (fits_delete hsame hprog (by omega)).bind fun delNode j hj => ?_
    refine Fits.expect (by decide) fun _ _ => Fits.peek fun tok => Fits.node fun id => ?_
    exact Fits.data ((fits_postfixed hsame hprog id (by omega)).mono fun _ hk => by omega)
  refine Fits.ifMatch (by decide) (fun hlt => ?_) ?_
  · refine (fits_block hsame hprog (by omega)).bind fun blockId j hj => ?_
    exact (fits_postfixed hsame hprog blockId (by omega)).mono fun _ hk => by omega
  refine Fits.ifMatch (by decide) (fun hlt => ?_) ?_
  · refine (fits_expression hsame hprog 0 (by omega)).bind fun expr j hj => ?_
    refine Fits.expect (by decide) fun _ _ => ?_
    exact (fits_postfixed hsame hprog expr (by omega)).mono fun _ hk => by omega
  exact Fits.peek fun tok => Fits.raise

lemma fits_parsePostfixExpression (e : NodeId) (h : 5 * ((tokensOf src).length - i) ≤ lim) :
    Fits src lim c d (fun c => parsePostfixExpression c e) i (fun j => i ≤ j) := by
  refine Fits.ifMatch (by decide) (fun hlt => ?_) ?_
  · refine (fits_arguments hsame hprog (by omega)).bind fun argsList j hj => ?_
    refine Fits.expect (by decide) fun _ _ => Fits.peek fun tok => Fits.node fun id => ?_
    exact Fits.data ((fits_postfixed hsame hprog id (by omega)).mono fun _ hk => by omega)
  refine Fits.ifAny (by decide) (fun hlt => ?_) ?_
  · refine Fits.advance fun op => Fits.expect (by decide) fun _ member => ?_
    refine Fits.tokenNode fun memberNode => Fits.node fun id => Fits.data ?_
    exact (fits_postfixed hsame hprog id (by omega)).mono fun _ hk => by omega
  refine Fits.ifMatch (by decide) (fun hlt => ?_) ?_
  · refine (fits_expression hsame hprog 0 (by omega)).bind fun indexExpr j hj => ?_
    refine Fits.expect (by decide) fun _ _ => Fits.peek fun tok => Fits.node fun id => ?_
    exact Fits.data ((fits_postfixed hsame hprog id (by omega)).mono fun _ hk => by omega)
  refine Fits.ifAny (by decide) (fun hlt => ?_) (Fits.pure le_rfl)
  refine Fits.advance fun op => Fits.node fun id => Fits.data ?_
  exact (fits_postfixed hsame hprog id (by omega)).mono fun _ hk => by omega

/-- The body of `parseExpression`. -/
lemma fits_parseExpression (m : ℕ) (h : 5 * ((tokensOf src).length - i) + 1 < lim) :
    Fits src lim c d (fun c => parseExpression c m) i
      (fun j => i < (tokensOf src).length ∧ i < j) := by
  refine (fits_primary hsame hprog h).bind fun lhs j hj => ?_
  exact (fits_binary hsame hprog m lhs (by omega)).mono fun _ hk => by omega

omit hsame hprog in
/-- An operator that binds is a token of the source. -/
lemma lt_of_precedence {p : Parser Lexer} (hp : Window src i p.toLookahead)
    (h : getPrecedence p.window0.type ≠ 0) : i < (tokensOf src).length := by
  refine type_of_lt.mp fun heof => h ?_
  rw [hp.first, heof]
  rfl

/-- The body of the loop over operators: each iteration consumes one. -/
lemma fits_binaryLoop (m : ℕ) (e : NodeId) (h : 5 * ((tokensOf src).length - i) ≤ lim) :
    Fits src lim c d (fun c => binaryLoop c m e) i (fun j => i ≤ j) := by
  intro p hp
  simp only [binaryLoop, peek_bind, Fuel.Comp.ite_apply]
  split_ifs with hstop
  · exact Fits.pure (c := c) (d := d) le_rfl p hp
  · have hlt := lt_of_precedence hp fun h0 => hstop (Or.inr h0)
    have hgo : ∀ prec, Fits src lim c d (fun c => Parser.advance >>= fun opTok =>
        c.parseExpression (prec + 1) >>= fun rhs => createNode BinaryExpr opTok.globalOffset >>=
          fun binId => setData binId (Data.binary opTok.type e rhs) >>= fun _ =>
            c.binaryLoop m binId) i (fun j => i ≤ j) := by
      intro prec
      refine Fits.advance fun opTok => ?_
      refine (fits_expression hsame hprog _ (by omega)).bind fun rhs j hj => ?_
      exact Fits.node fun id => Fits.data
        ((fits_binary hsame hprog m id (by omega)).mono fun _ hk => by omega)
    exact hgo _ p hp

lemma fits_argumentLoop' (h : 5 * ((tokensOf src).length - i) ≤ lim) :
    Fits src lim c d (fun c => argumentLoop c) i (fun j => i ≤ j) := by
  refine Fits.ifMatch (by decide) (fun hlt => ?_) (Fits.pure le_rfl)
  refine (fits_expression hsame hprog 0 (by omega)).bind fun _ j hj => ?_
  exact (fits_argumentLoop hsame hprog (by omega)).mono fun _ hk => by omega

lemma fits_parameterLoop' (h : 5 * ((tokensOf src).length - i) ≤ lim) :
    Fits src lim c d (fun c => parameterLoop c) i (fun j => i ≤ j) := by
  refine Fits.ifMatch (by decide) (fun hlt => ?_) (Fits.pure le_rfl)
  refine (fits_paramDecl hsame hprog (by omega)).bind fun _ j hj => ?_
  exact (fits_parameterLoop hsame hprog (by omega)).mono fun _ hk => by omega

omit hsame hprog in
/-- A test that only looks at the parser. -/
lemma Fits.test {t : ParseM Lexer Bool} {x y : Calls Lexer → ParseM Lexer α} {Q : ℕ → Prop}
    (ht : ∀ p, ∃ b, t p = some (.ok (b, p))) (hx : Fits src lim c d x i Q) (hy : Fits src lim c d y i Q) :
    Fits src lim c d (fun c => t >>= fun b => if b = true then x c else y c) i Q := by
  refine Fits.bind (P := fun j => j = i) (Fits.plain (fun p h => ?_) fun p hp b p' h => ?_)
    fun b j hj => ?_
  · rcases ht p with ⟨b', hb⟩
    cases hb.symm.trans h
  · rcases ht p with ⟨b', hb⟩
    cases hb.symm.trans h
    exact ⟨i, hp, rfl⟩
  · exact hj ▸ Fits.ite (fun _ => hx) fun _ => hy

/-- The body of the loop over statements: each iteration consumes something. -/
lemma fits_blockLoop' (h : 5 * ((tokensOf src).length - i) + 3 < lim) :
    Fits src lim c d (fun c => blockLoop c) i (fun j => i ≤ j) := by
  refine Fits.test (fun p => ⟨_, rfl⟩) (Fits.pure le_rfl) ?_
  refine (fits_statement hsame hprog h).bind fun _ j hj => ?_
  exact (fits_blockLoop hsame hprog (by omega)).mono fun _ hk => by omega

lemma fits_qualifierLoop' (q : Qualifiers) (h : 5 * ((tokensOf src).length - i) ≤ lim) :
    Fits src lim c d (fun c => qualifierLoop c q) i (fun j => i ≤ j) := by
  have hnext : ∀ q', i < (tokensOf src).length →
      Fits src lim c d (fun c => c.qualifierLoop q') (i + 1) (fun j => i ≤ j) := fun q' hlt =>
    (fits_qualifierLoop hsame hprog q' (by omega)).mono fun _ hj => by omega
  refine Fits.ifMatch (by decide) (hnext _) ?_
  refine Fits.ifMatch (by decide) (hnext _) ?_
  refine Fits.ifMatch (by decide) (hnext _) ?_
  refine Fits.ifMatch (by decide) (hnext _) ?_
  exact Fits.ifMatch (by decide) (hnext _) (Fits.pure le_rfl)

lemma fits_unitLoop' (h : 5 * ((tokensOf src).length - i) + 3 < lim) :
    Fits src lim c d (fun c => unitLoop c) i (fun j => i ≤ j) := by
  intro p hp
  simp only [unitLoop, check_bind, peek_bind, Fuel.Comp.ite_apply]
  split_ifs with heof
  · exact Fits.pure (c := c) (d := d) le_rfl p hp
  · have hgo : ∀ prev : Token, Fits src lim c d (fun c => c.parseStatement >>= fun _ =>
        Parser.peek >>= fun tok =>
          if tok.globalOffset = prev.globalOffset ∧ tok.type ≠ Eof then
            Parser.advance >>= fun _ => c.unitLoop
          else c.unitLoop) i (fun j => i ≤ j) := by
      intro prev
      refine (fits_statement hsame hprog h).bind fun _ j hj => Fits.peek fun tok => ?_
      refine Fits.ite (fun _ => Fits.advance fun _ => ?_) fun _ => ?_
      · exact (fits_unitLoop hsame hprog (by omega)).mono fun _ hk => by omega
      · exact (fits_unitLoop hsame hprog (by omega)).mono fun _ hk => by omega
    exact hgo _ p hp

/-- The body of `parseStatement`. -/
lemma fits_parseStatement (h : 5 * ((tokensOf src).length - i) + 2 < lim) :
    Fits src lim c d (fun c => parseStatement c) i
      (fun j => i < (tokensOf src).length ∧ i < j) := by
  refine (fits_qualifierLoop hsame hprog {} (by omega)).bind fun qual j hj => ?_
  refine Fits.ifMatch (by decide) (fun hlt => ?_) ?_
  · exact (fits_block hsame hprog (by omega)).mono fun _ hk => by omega
  refine Fits.ifCheck (by decide) (fun hlt => ?_) ?_
  · exact (fits_conditional hsame hprog (by decide) (by omega)).mono fun _ hk => by omega
  refine Fits.ifCheck (by decide) (fun hlt => ?_) ?_
  · exact (fits_while hsame hprog (by omega)).mono fun _ hk => by omega
  refine Fits.ifCheck (by decide) (fun hlt => ?_) ?_
  · exact (fits_for hsame hprog (by omega)).mono fun _ hk => by omega
  refine Fits.ifCheck (by decide) (fun hlt => ?_) ?_
  · exact (fits_return hsame hprog (by omega)).mono fun _ hk => by omega
  refine Fits.ifAny (by decide) (fun hlt => ?_) ?_
  · exact (fits_jump hlt).mono fun _ hk => by omega
  refine Fits.ifCheck (by decide) (fun hlt => ?_) ?_
  · exact (fits_structDecl hsame hprog (by omega)).mono fun _ hk => by omega
  refine Fits.ifCheck (by decide) (fun hlt => ?_) ?_
  · exact (fits_namespaceDecl hsame hprog (by omega)).mono fun _ hk => by omega
  refine Fits.ifCheck (by decide) (fun hlt => ?_) ?_
  · refine (fits_delete hsame hprog (by omega)).bind fun delNode k hk => ?_
    exact fits_optionalSemi.bind fun _ l hl => Fits.pure (by omega)
  refine Fits.ifMatch (by decide) (fun hlt => ?_) ?_
  · refine Fits.expect (by decide) fun _ _ => ?_
    refine (fits_expression hsame hprog 0 (by omega)).bind fun reqExpr k hk => ?_
    exact fits_optionalSemi.bind fun _ l hl => Fits.pure (by omega)
  refine Fits.test (fun p => ⟨_, rfl⟩) ?_ ?_
  · exact (fits_varOrTypeDecl hsame hprog (by omega)).mono fun _ hk => by omega
  refine (fits_expression hsame hprog 0 (by omega)).bind fun expr k hk => ?_
  exact fits_optionalSemi.bind fun _ l hl => Fits.pure (by omega)

end Bodies

/-- **A body depends on lighter calls only**, and moves forward. -/
lemma fits_productions (y : Call) (hsame : Same src (y.weight src i) c d)
    (hprog : Progress src c) :
    Fits src (y.weight src i) c d (fun c => (productions c).get y) i
      (fun j => i ≤ j ∧ (y.consumes → i < (tokensOf src).length ∧ i < j)) := by
  have hmoves : ∀ {j}, i < (tokensOf src).length ∧ i < j →
      i ≤ j ∧ (y.consumes → i < (tokensOf src).length ∧ i < j) := fun h => ⟨h.2.le, fun _ => h⟩
  cases y with
  | statement =>
      exact (fits_parseStatement hsame hprog (Nat.lt_succ_self _)).mono fun _ => hmoves
  | expression m =>
      exact (fits_parseExpression hsame hprog m (Nat.lt_succ_self _)).mono fun _ => hmoves
  | primary =>
      exact (fits_parsePrimaryExpression hsame hprog (Nat.lt_succ_self _)).mono fun _ => hmoves
  | postfixed e =>
      exact (fits_parsePostfixExpression hsame hprog e le_rfl).mono fun _ hj => ⟨hj, False.elim⟩
  | binary m e =>
      exact (fits_binaryLoop hsame hprog m e le_rfl).mono fun _ hj => ⟨hj, False.elim⟩
  | arguments =>
      exact (fits_argumentLoop' hsame hprog le_rfl).mono fun _ hj => ⟨hj, False.elim⟩
  | parameters =>
      exact (fits_parameterLoop' hsame hprog le_rfl).mono fun _ hj => ⟨hj, False.elim⟩
  | block =>
      exact (fits_blockLoop' hsame hprog (Nat.lt_succ_self _)).mono fun _ hj => ⟨hj, False.elim⟩
  | qualifiers q =>
      exact (fits_qualifierLoop' hsame hprog q le_rfl).mono fun _ hj => ⟨hj, False.elim⟩
  | unit =>
      exact (fits_unitLoop' hsame hprog (Nat.lt_succ_self _)).mono fun _ hj => ⟨hj, False.elim⟩

end Fits

variable {src : List Byte}

/-- What the calls consume, at every level of fuel. -/
lemma parser_progresses (n : ℕ) : Progress src (parser n) := by
  induction n with
  | zero =>
      intro y j q r q' _ h
      cases y <;> cases h
  | succ n ih =>
      intro y j q r q' hq h
      have hfits := fits_productions (d := parser n) y (fun _ _ _ _ _ => rfl) ih q hq
      exact hfits.ends r q' h

/-! ## Every call answers -/

/-- With more fuel than its weight, a call comes to an end. -/
lemma calls_answer {y : Call} {p : Parser Lexer} {i n : ℕ} (hp : Window src i p.toLookahead)
    (hn : y.weight src i < n) : (parser n : Calls Lexer).get y p ≠ none := by
  refine Fuel.tie_answers Calls.get
    (fun y p n => ∃ i, Window src i p.toLookahead ∧ n = y.weight src i) ?_ ⟨i, hp, rfl⟩ hn
  rintro k y p _ ⟨i, hp, rfl⟩ hans
  have hfits := fits_productions (d := parser k) y (fun _ _ _ _ _ => rfl) (parser_progresses k) p hp
  exact hfits.answers fun z j q hq hlt => hans z q _ ⟨j, hq, rfl⟩ hlt

/-! ## Activations -/

/-- A call, made in some state of the parser. -/
structure Activation where
  call : Call
  state : Parser Lexer

/-- The table without an answer for `b`. -/
def Calls.without (c : Calls Lexer) (b : Activation) : Calls Lexer :=
  Calls.ofGet fun y p => if y = b.call ∧ p = b.state then none else c.get y p

lemma Calls.without_get (c : Calls Lexer) (b : Activation) (y : Call) (p : Parser Lexer) :
    (c.without b).get y p = if y = b.call ∧ p = b.state then none else c.get y p := by
  cases y <;> rfl

/-- The body of `a`, over the table `c`, calls `b`: it does not get on without its answer. -/
def Activates (c : Calls Lexer) (a b : Activation) : Prop :=
  (productions c).get a.call a.state ≠ none ∧
    (productions (c.without b)).get a.call a.state = none

/-- A nested call weighs less than the call around it. -/
lemma Activates.lighter {c : Calls Lexer} (hprog : Progress src c) {a b : Activation} {i : ℕ}
    (h : Activates c a b) (ha : Window src i a.state.toLookahead) :
    ∃ j, Window src j b.state.toLookahead ∧ b.call.weight src j < a.call.weight src i := by
  by_contra hno
  have hsame : Same src (a.call.weight src i) c (c.without b) := by
    intro y j q hq hlt
    have hne : ¬ (y = b.call ∧ q = b.state) := by
      rintro ⟨rfl, rfl⟩
      exact hno ⟨j, hq, hlt⟩
    rw [Calls.without_get, if_neg hne]
  exact h.1 ((fits_productions a.call hsame hprog a.state ha).same.trans h.2)

/-- So does a call nested at any depth. -/
lemma lighter_of_nested {c : Calls Lexer} (hprog : Progress src c) {a b : Activation} {i : ℕ}
    (h : Relation.TransGen (Activates c) a b) (ha : Window src i a.state.toLookahead) :
    ∃ j, Window src j b.state.toLookahead ∧ b.call.weight src j < a.call.weight src i := by
  induction h with
  | single hab => exact hab.lighter hprog ha
  | tail _ hbc ih =>
      rcases ih with ⟨j, hj, hlt⟩
      rcases hbc.lighter hprog hj with ⟨k, hk, hlt'⟩
      exact ⟨k, hk, hlt'.trans hlt⟩

/-- The loop of `parseTranslationUnit`, behind the root. -/
def firstActivation (src : List Byte) : Activation where
  call := Call.unit
  state := (Parser.init (Lexer.mk src 0 []) src).push [default]

/-- The parser starts as the loop over the statements of the unit. -/
lemma parseTranslationUnit_eq (c : Calls Lexer) :
    parseTranslationUnit c (Parser.init (Lexer.mk src 0 []) src) =
      c.unitLoop (firstActivation src).state := rfl

/-- How an activation that stands at token number `i` behaves: its window holds the next two
tokens, it gives an answer, what it returns lies ahead, behind a token if it is one of the three
productions that promise this, and until the same production is active below it a token has been
consumed. -/
structure Orderly (src : List Byte) (c : Calls Lexer) (a : Activation) (i : ℕ) : Prop where
  window : Window src i a.state.toLookahead
  answers : c.get a.call a.state ≠ none
  moves : ∀ r p', c.get a.call a.state = some (.ok (r, p')) →
    ∃ j, Window src j p'.toLookahead ∧ i ≤ j ∧
      (a.call.consumes → (tokenAt src i).type ≠ Eof ∧ i < j)
  nested : ∀ b, Relation.TransGen (Activates c) a b → b.call.ctorIdx = a.call.ctorIdx →
    ∃ j, Window src j b.state.toLookahead ∧ (tokenAt src i).type ≠ Eof ∧ i < j

lemma rank_eq {y z : Call} (h : y.ctorIdx = z.ctorIdx) : y.rank = z.rank := by
  cases y <;> cases z <;> first | rfl | cases h

lemma orderly {a : Activation} {i n : ℕ} (ha : Window src i a.state.toLookahead)
    (hn : a.call.weight src i < n) : Orderly src (parser n) a i where
  window := ha
  answers := calls_answer ha hn
  moves r p' h := by
    rcases parser_progresses n a.call i a.state r p' ha h with ⟨j, hj, hle, hlt⟩
    exact ⟨j, hj, hle, fun hc => ⟨type_of_lt.mpr (hlt hc).1, (hlt hc).2⟩⟩
  nested b hb hsame := by
    rcases lighter_of_nested (parser_progresses n) hb ha with ⟨j, hj, hlt⟩
    have hrank := rank_eq hsame
    simp only [Call.weight] at hlt
    exact ⟨j, hj, type_of_lt.mpr (by omega), by omega⟩

/-- **The parser halts.**  With enough levels of calls, `parseTranslationUnit` gives an answer, a
tree or an error; and every call made on the way is orderly. -/
theorem parser_halts (src : List Byte) : ∃ n₀, ∀ n, n₀ ≤ n →
    (∃ r, parseTranslationUnit (parser n) (Parser.init (Lexer.mk src 0 []) src) = some r) ∧
      ∀ a, Relation.ReflTransGen (Activates (parser n)) (firstActivation src) a →
        ∃ i, Orderly src (parser n) a i := by
  have hfirst : Window src 0 (firstActivation src).state.toLookahead := Window.init src
  refine ⟨Call.unit.weight src 0 + 1, fun n hn => ⟨?_, fun a ha => ?_⟩⟩
  · rw [parseTranslationUnit_eq]
    exact Option.ne_none_iff_exists'.mp (calls_answer (y := Call.unit) hfirst hn)
  · rcases Relation.reflTransGen_iff_eq_or_transGen.mp ha with rfl | ha
    · exact ⟨0, orderly hfirst hn⟩
    · rcases lighter_of_nested (parser_progresses n) ha hfirst with ⟨i, hi, hlt⟩
      exact ⟨i, orderly hi (hlt.trans hn)⟩

end Parser

end LogicCompiler
