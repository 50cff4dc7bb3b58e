import LogicCompiler.Parser.Completeness

/-!
# Declarations are recognised

`parseStatement` tells a declaration from an expression by the qualifiers and the two tokens behind
them, before it falls back on an expression whose `;` may be missing.  A declaration that the test
misses is not rejected: it is read as several statements.
-/

namespace LogicCompiler

open TokenType NodeKind Cat LogicCompiler.Parser

variable {σ : Type} [TokenSource σ]

/-- The node `id` is a declaration with these qualifiers, this type and this name, and its body or
initialiser is `init`. -/
def Declares {k : Cat} (tree : ASTTree) (id : NodeId) (kind : NodeKind) (q : QualifierTokens)
    (type name : Token) (init : Syn k) : Prop :=
  ∃ n, tree[id]? = some n ∧ n.kind = kind ∧ n.qualifiers = q.value ∧
    tree[n.data.typeNode]? = some (tokenNode IdentifierExpr type) ∧
    tree[n.data.nameNode]? = some (tokenNode IdentifierExpr name) ∧ Sits tree n.data.initExpr init

/-- `parseStatement` stops at the window `w` and returns such a declaration. -/
def Recognises {k : Cat} (p : Parser σ) (w : Lookahead σ) (kind : NodeKind) (q : QualifierTokens)
    (type name : Token) (init : Syn k) : Prop :=
  ∃ id p', Fuel.Evals parser (fun c => c.parseStatement) p id p' ∧ p'.toLookahead = w ∧
    Declares p'.tree id kind q type name init

/-- A function declaration stands in front of the parser, with a parameter list and a body (or a
`;`) that are read as they are. -/
structure FunctionInFront (p : Parser σ) (q : QualifierTokens) (type : Token) (name : Tok Ident)
    (l : Tok Left) (params : Syn (opt (commaList param))) (r : Tok Right) (body : Syn (orSemi stmt))
    (w : Lookahead σ) : Prop where
  reads : Reads p.toLookahead
    (q.tokens ++ type :: name.1 :: l.1 :: (params.tokens ++ r.1 :: body.tokens)) w
  list : params.Canonical p.source r.1 ∧ params.IsParameters r.1
  content : body.Canonical p.source w.window0 ∧ body.IsFunctionBody
  room : p.tree.length + (params.size + (body.size + 3)) ≤ kNullNode

/-- The declaration of a variable stands in front of the parser, with an initialiser, if there is
one, that is read as it is. -/
structure VariableInFront (p : Parser σ) (q : QualifierTokens) (type : Token) (name : Tok Ident)
    (init : Syn (opt (led [Equals] expr))) (semi : Tok Semi) (w : Lookahead σ) : Prop where
  reads : Reads p.toLookahead (q.tokens ++ type :: name.1 :: (init.tokens ++ [semi.1])) w
  value : init.Canonical p.source semi.1
  room : p.tree.length + (init.size + 3) ≤ kNullNode

section Recognised

variable {p : Parser σ} {w : Lookahead σ} {q : QualifierTokens} {type : TokOf [kByte, Ident]}
  {name : Tok Ident}

/-- Without `auto`, a declaration has a type of its own. -/
lemma typed_some {α : Type} {a : α} (hauto : q.value.isAuto = false) : Typed q (some a) := by
  simp [Typed, hauto]

lemma recognises_function {l : Tok Left} {params : Syn (opt (commaList param))} {r : Tok Right}
    {body : Syn (orSemi stmt)} (hauto : q.value.isAuto = false)
    (h : FunctionInFront p q type.1 name l params r body w) :
    Recognises p w FunctionDecl q type.1 name.1 body := by
  have hfront : InFront p (Syn.functionDecl q (some type) name l params r body) w :=
    ⟨h.reads, ⟨typed_some hauto, h.list.1, h.list.2, h.content.1, h.content.2⟩, h.room⟩
  refine ⟨_, _, (finds_statement _ hfront trivial).evals, rfl, ?_⟩
  have hlies := p.along_lies (Syn.functionDecl q (some type) name l params r body) w
  simp only [Syn.nodes, lies_append, lies_cons, Syn.length_nodes] at hlies
  rcases hlies with ⟨-, hbody, htype, hname, hdecl, -⟩
  have hroot : (Syn.functionDecl q (some type) name l params r body).root p.tree.length
      = p.tree.length + params.size + body.size + 1 + 1 := by
    simp [Syn.root, Nat.add_assoc]
  rw [hroot]
  exact ⟨_, hdecl, rfl, rfl, htype, hname, ⟨_, _, hbody, rfl⟩⟩

lemma recognises_variable {init : Syn (opt (led [Equals] expr))} {semi : Tok Semi}
    (hauto : q.value.isAuto = false) (h : VariableInFront p q type.1 name init semi w) :
    Recognises p w VarDecl q type.1 name.1 init := by
  have hfront : InFront p (Syn.varDecl q (some type) name init semi) w :=
    ⟨h.reads, ⟨typed_some hauto, h.value⟩, h.room⟩
  refine ⟨_, _, (finds_statement _ hfront trivial).evals, rfl, ?_⟩
  have hlies := p.along_lies (Syn.varDecl q (some type) name init semi) w
  simp only [Syn.nodes, declNodes, lies_append, lies_cons, Syn.length_nodes] at hlies
  rcases hlies with ⟨hinit, hdecl, htype, hname, -⟩
  exact ⟨_, hdecl, rfl, rfl, htype, hname, ⟨_, _, hinit, rfl⟩⟩

end Recognised

/-- **Declarations are recognised.**  Without `auto` among the qualifiers, and with an identifier or
`byte` for the type, `parseStatement` consumes exactly a declaration in front of it and returns one
node, which has its qualifiers, its type, its name, and its body or initialiser. -/
theorem declarations_recognised {p : Parser σ} {w : Lookahead σ} {q : QualifierTokens}
    {type : TokOf [kByte, Ident]} {name : Tok Ident} (hauto : q.value.isAuto = false) :
    (∀ {l : Tok Left} {params : Syn (opt (commaList param))} {r : Tok Right}
        {body : Syn (orSemi stmt)}, FunctionInFront p q type.1 name l params r body w →
      Recognises p w FunctionDecl q type.1 name.1 body) ∧
    ∀ {init : Syn (opt (led [Equals] expr))} {semi : Tok Semi},
      VariableInFront p q type.1 name init semi w → Recognises p w VarDecl q type.1 name.1 init :=
  ⟨recognises_function hauto, recognises_variable hauto⟩

/-- `static byte f(int n){return n;}` -/
def byteFunction : Parser (List Token) :=
  Parser.init [⟨0, 6, 0, 0, kStatic⟩, ⟨7, 4, 0, 0, kByte⟩, ⟨12, 1, 0, 0, Ident⟩,
    ⟨13, 1, 0, 0, Left⟩, ⟨14, 3, 0, 0, Ident⟩, ⟨18, 1, 0, 0, Ident⟩, ⟨19, 1, 0, 0, Right⟩,
    ⟨20, 1, 0, 0, BrLeft⟩, ⟨21, 6, 0, 0, kReturn⟩, ⟨28, 1, 0, 0, Ident⟩, ⟨29, 1, 0, 0, Semi⟩,
    ⟨30, 1, 0, 0, BrRight⟩] (bytes "static byte f(int n)\x7breturn n;\x7d")

/-- The parameter of the function. -/
def byteFunctionParams : Syn (opt (commaList param)) :=
  Syn.some (Syn.seq (Syn.parameter [] (some ⟨14, 3, 0, 0, Ident⟩)
    (some ⟨⟨18, 1, 0, 0, Ident⟩, rfl⟩) Syn.none) Syn.nil)

/-- The body of the function. -/
def byteFunctionBody : Syn (orSemi stmt) :=
  Syn.full (Syn.block [] (Syn.braced ⟨⟨20, 1, 0, 0, BrLeft⟩, rfl⟩
    (Syn.cons (Syn.returnStmt [] ⟨⟨21, 6, 0, 0, kReturn⟩, rfl⟩
      (Syn.some (Syn.ident ⟨⟨28, 1, 0, 0, Ident⟩, by decide⟩)) ⟨⟨29, 1, 0, 0, Semi⟩, rfl⟩) Syn.nil)
    ⟨⟨30, 1, 0, 0, BrRight⟩, rfl⟩))

lemma byteFunction_inFront :
    FunctionInFront byteFunction [⟨⟨0, 6, 0, 0, kStatic⟩, by decide⟩] ⟨7, 4, 0, 0, kByte⟩
      ⟨⟨12, 1, 0, 0, Ident⟩, rfl⟩ ⟨⟨13, 1, 0, 0, Left⟩, rfl⟩ byteFunctionParams
      ⟨⟨19, 1, 0, 0, Right⟩, rfl⟩ byteFunctionBody (Lookahead.initWindow []) where
  reads := Reads.cons (Reads.cons (Reads.cons (Reads.cons (Reads.cons (Reads.cons (Reads.cons
    (Reads.cons (Reads.cons (Reads.cons (Reads.cons (Reads.cons (Reads.nil _))))))))))))
  list := by
    refine ⟨⟨⟨typed_some rfl, nofun, ?_, nofun, trivial⟩, trivial⟩, (by decide : Ident ≠ Right)⟩
    rintro t ⟨⟩
    decide
  content := ⟨⟨trivial, trivial⟩, _, _, rfl, rfl⟩
  room := by decide

/-- `const byte b;` -/
def byteConstant : Parser (List Token) :=
  Parser.init [⟨0, 5, 0, 0, kConst⟩, ⟨6, 4, 0, 0, kByte⟩, ⟨11, 1, 0, 0, Ident⟩,
    ⟨12, 1, 0, 0, Semi⟩] (bytes "const byte b;")

/-- A function with a parameter and a body, and a constant. -/
theorem declarations_recognised_sample :
    Recognises byteFunction (Lookahead.initWindow []) FunctionDecl
        [⟨⟨0, 6, 0, 0, kStatic⟩, by decide⟩] ⟨7, 4, 0, 0, kByte⟩ ⟨12, 1, 0, 0, Ident⟩
        byteFunctionBody ∧
      Recognises byteConstant (Lookahead.initWindow []) VarDecl
        [⟨⟨0, 5, 0, 0, kConst⟩, by decide⟩] ⟨6, 4, 0, 0, kByte⟩ ⟨11, 1, 0, 0, Ident⟩
        (Syn.none : Syn (opt (led [Equals] expr))) := by
  have hconst : VariableInFront byteConstant [⟨⟨0, 5, 0, 0, kConst⟩, by decide⟩]
      ⟨6, 4, 0, 0, kByte⟩ ⟨⟨11, 1, 0, 0, Ident⟩, rfl⟩ Syn.none ⟨⟨12, 1, 0, 0, Semi⟩, rfl⟩
      (Lookahead.initWindow []) :=
    ⟨Reads.cons (Reads.cons (Reads.cons (Reads.cons (Reads.nil _)))), trivial, by decide⟩
  exact ⟨(@declarations_recognised _ _ _ _ _ ⟨⟨7, 4, 0, 0, kByte⟩, by decide⟩ _ rfl).1
      byteFunction_inFront,
    (@declarations_recognised _ _ _ _ _ ⟨⟨6, 4, 0, 0, kByte⟩, by decide⟩ _ rfl).2 hconst⟩

section Unrecognised

variable {p : Parser σ} {w : Lookahead σ} {q : QualifierTokens} {type : Token} {name : Tok Ident}
  {k : Cat} {init : Syn k}

/-- What starts with `void` is an expression that ends in front of the name. -/
lemma not_recognises_void {kind : NodeKind} {ts : List Token} (htype : type.type = kVoid)
    (hauto : q.value.isAuto = false) (hkind : kind ≠ IdentifierExpr)
    (hr : Reads p.toLookahead (q.tokens ++ type :: name.1 :: ts) w)
    (hroom : p.tree.length < kNullNode) : ¬ Recognises p w kind q type name.1 init := by
  rintro ⟨id, p', hrun, -, n, hn, rfl, -⟩
  rw [← List.singleton_append, ← List.append_assoc, Reads.append_iff] at hr
  rcases hr with ⟨w₁, hvoid, hname⟩
  have hnext : w₁.window0 = name.1 := (Reads.cons_iff.mp hname).1
  have hfront : InFront p (Syn.exprStmt q (Syn.ident ⟨type, by simp [htype, identifiers]⟩) none)
      w₁ := by
    refine ⟨hvoid, ⟨hauto, trivial, ?_, ?_, ?_⟩, hroom⟩ <;> rw [hnext]
    · exact endsExpression_of_eq (by decide) name.2
    · exact fun _ => by simp [name.2]
    · simp [BeginsExpression, Syn.tokens, optToken, htype]
  have hrun' := (finds_statement _ hfront trivial).evals
  rcases Fuel.Evals.unique monotone_calls_table monotone_calls.1 hrun hrun' with ⟨rfl, rfl⟩
  have hlies := p.along_lies
    (Syn.exprStmt q (Syn.ident ⟨type, by simp [htype, identifiers]⟩) none) w₁
  have hleaf : n = tokenNode IdentifierExpr type :=
    Option.some.inj (hn.symm.trans (lies_cons.mp hlies).1)
  exact hkind (hleaf ▸ rfl)

end Unrecognised

/-- `auto int x;` -/
def autoInt : Parser (List Token) :=
  Parser.init [⟨0, 4, 0, 0, kAuto⟩, ⟨5, 3, 0, 0, Ident⟩, ⟨9, 1, 0, 0, Ident⟩, ⟨10, 1, 0, 0, Semi⟩]
    (bytes "auto int x;")

/-- `void f();` -/
def voidFunction : Parser (List Token) :=
  Parser.init [⟨0, 4, 0, 0, kVoid⟩, ⟨5, 1, 0, 0, Ident⟩, ⟨6, 1, 0, 0, Left⟩, ⟨7, 1, 0, 0, Right⟩,
    ⟨8, 1, 0, 0, Semi⟩] (bytes "void f();")

/-- Behind `auto` there is no type; and `void` is not among the words that start a declaration. -/
theorem not_recognised_sample :
    (VariableInFront autoInt [⟨⟨0, 4, 0, 0, kAuto⟩, by decide⟩] ⟨5, 3, 0, 0, Ident⟩
        ⟨⟨9, 1, 0, 0, Ident⟩, rfl⟩ Syn.none ⟨⟨10, 1, 0, 0, Semi⟩, rfl⟩ (Lookahead.initWindow []) ∧
      ¬ Recognises autoInt (Lookahead.initWindow []) VarDecl [⟨⟨0, 4, 0, 0, kAuto⟩, by decide⟩]
        ⟨5, 3, 0, 0, Ident⟩ ⟨9, 1, 0, 0, Ident⟩ (Syn.none : Syn (opt (led [Equals] expr)))) ∧
    FunctionInFront voidFunction [] ⟨0, 4, 0, 0, kVoid⟩ ⟨⟨5, 1, 0, 0, Ident⟩, rfl⟩
        ⟨⟨6, 1, 0, 0, Left⟩, rfl⟩ Syn.none ⟨⟨7, 1, 0, 0, Right⟩, rfl⟩
        (Syn.bare ⟨⟨8, 1, 0, 0, Semi⟩, rfl⟩) (Lookahead.initWindow []) ∧
      ¬ Recognises voidFunction (Lookahead.initWindow []) FunctionDecl [] ⟨0, 4, 0, 0, kVoid⟩
        ⟨5, 1, 0, 0, Ident⟩ (Syn.bare ⟨⟨8, 1, 0, 0, Semi⟩, rfl⟩ : Syn (orSemi stmt)) := by
  have hauto : Reads autoInt.toLookahead [⟨0, 4, 0, 0, kAuto⟩, ⟨5, 3, 0, 0, Ident⟩,
      ⟨9, 1, 0, 0, Ident⟩, ⟨10, 1, 0, 0, Semi⟩] (Lookahead.initWindow []) :=
    Reads.cons (Reads.cons (Reads.cons (Reads.cons (Reads.nil _))))
  have hvoid : Reads voidFunction.toLookahead [⟨0, 4, 0, 0, kVoid⟩, ⟨5, 1, 0, 0, Ident⟩,
      ⟨6, 1, 0, 0, Left⟩, ⟨7, 1, 0, 0, Right⟩, ⟨8, 1, 0, 0, Semi⟩] (Lookahead.initWindow []) :=
    Reads.cons (Reads.cons (Reads.cons (Reads.cons (Reads.cons (Reads.nil _)))))
  refine ⟨⟨⟨hauto, trivial, by decide⟩, ?_⟩,
    ⟨hvoid, ⟨trivial, trivial⟩, ⟨trivial, trivial⟩, by decide⟩, ?_⟩
  · rintro ⟨id, p', hrun, -⟩
    exact hrun.ne_error monotone_calls_table monotone_calls.1 8 _ rfl
  · exact @not_recognises_void _ _ _ _ _ _ ⟨⟨5, 1, 0, 0, Ident⟩, rfl⟩ _ _ _ _ rfl rfl (by decide)
      hvoid (by decide)

end LogicCompiler
