import LogicCompiler.Parser.Outlines

/-!
# What a declaration or a loop keeps

A `for` statement, a function and a type have more parts than their node has slots.  The increment
of a `for` and the parameters of a function are parsed and then held by no node, a type with a body
does not hold its base, and no node says which of the three specifiers gave a base.

Two sources that differ in what is not held have the same arena, but for offsets and for nodes that
no other holds: what is compared is the outline of the parts that are (`SameKept`).
-/

namespace LogicCompiler

open TokenType NodeKind Cat LogicCompiler.Parser

namespace Syn

/-- The ids of the parts of a list. -/
def listRoots : {k : Cat} → Syn (list k) → (base : ℕ) → List NodeId
  | _, nil, _ => []
  | _, cons s rest, base => s.root base :: rest.listRoots (base + s.size)

/-- The ids of the parameters of a function. -/
def paramRoots : Syn (opt (commaList param)) → (base : ℕ) → List NodeId
  | none, _ => []
  | some (seq p more), base => p.root base :: more.listRoots (base + p.size)

/-- The ids that stand for a part that is there. -/
def present (ids : List NodeId) : List NodeId := ids.filter (· ≠ kNullNode)

/-- No other specifier of the base, `=` in front of any expression or one of the others in front of
a primary one, gives the same nodes. -/
def Told (q : QualifierTokens) (k : Tok kType) (name : Tok Ident) (b : Syn (opt Cat.base))
    (body : Syn (opt stmt)) (semi : Option (Tok Semi)) (base next : ℕ) : Prop :=
  ∀ (t t' : TokOf [Equals, Colon, Ident]) (e : Syn expr), b = some (led t e) →
    t'.1.type ≠ t.1.type → (t'.1.type ≠ Equals → 12 ≤ e.level) →
      (typeDecl q k name (some (led t' e)) body semi).nodes base next ≠
        (typeDecl q k name b body semi).nodes base next

/-- The node of a `for` refers to its initialiser, condition, increment and body, the node of a
function to its parameters in their order and to its body, and the node of a type to its base and
its body; which specifier gave the base can be told. -/
def Keeps (tree : ASTTree) : {k : Cat} → Syn k → (base next : ℕ) → Prop
  | _, s@(forStmt _ _ _ init cond _ incr _ body), base, _ =>
      ∀ a ∈ present [init.root base, cond.root (base + init.size),
        incr.root (base + init.size + cond.size),
        body.root (base + init.size + cond.size + incr.size)], tree.Refers (s.root base) a
  | _, s@(functionDecl _ _ _ _ params _ body), base, _ =>
      (present (params.paramRoots base ++ [body.root (base + params.size)])).Sublist
        (tree.get (s.root base)).refs
  | _, s@(typeDecl q k name b body semi), base, next =>
      (∀ a ∈ present [b.root base, body.root (base + b.size)], tree.Refers (s.root base) a) ∧
        Told q k name b body semi base next
  | _, _, _, _ => True

/-- A `for` without an increment, a function without parameters, a type without a base or with one
that only `=` can give and without a body; and everything else. -/
def Lossless : {k : Cat} → Syn k → Prop
  | _, forStmt _ _ _ _ _ _ incr _ _ => incr = none
  | _, functionDecl _ _ _ _ params _ _ => params = none
  | _, typeDecl _ _ _ b body _ =>
      b = none ∨
        (∃ t e, b = some (led t e) ∧ t.1.type = Equals ∧ e.level < 12) ∧ body = none
  | _, _ => True

/-- Both are a `for`, both are a function, or both are a type. -/
def SameForm : {k l : Cat} → Syn k → Syn l → Prop
  | _, _, forStmt .., forStmt .. => True
  | _, _, functionDecl .., functionDecl .. => True
  | _, _, typeDecl .., typeDecl .. => True
  | _, _, _, _ => False

/-- The same qualifiers, and the same tokens for the type and the name. -/
def SameHead (read read' : Reading) (q q' : QualifierTokens) (type type' name name' : Token) : Prop :=
  q.value = q'.value ∧ type.type = type'.type ∧ type.textBy read = type'.textBy read' ∧
    name.type = name'.type ∧ name.textBy read = name'.textBy read'

/-- What a type holds: its body, or without one its base. -/
def behind (read : Reading) (b : Syn (opt Cat.base)) : Syn (opt stmt) → Outline
  | none => b.outline read
  | some s => s.outline read

/-- The parts that the nodes hold are the same below: of a `for` the initialiser, the condition and
the body, of a function the body, of a type the body or without one the base. -/
def SameKept (read read' : Reading) : {k l : Cat} → Syn k → Syn l → Prop
  | _, _, forStmt _ _ _ init cond _ _ _ body, forStmt _ _ _ init' cond' _ _ _ body' =>
      init.outline read = init'.outline read' ∧ cond.outline read = cond'.outline read' ∧
        body.outline read = body'.outline read'
  | _, _, functionDecl q type name _ _ _ body, functionDecl q' type' name' _ _ _ body' =>
      SameHead read read' q q' (typeToken type) (typeToken type') name.1 name'.1 ∧
        body.outline read = body'.outline read'
  | _, _, typeDecl q k name b body _, typeDecl q' k' name' b' body' _ =>
      SameHead read read' q q' k.1 k'.1 name.1 name'.1 ∧ behind read b body = behind read' b' body'
  | _, _, _, _ => False

end Syn

section Keeps

variable {tree : ASTTree} {base next : ℕ}

lemma mem_present {a : NodeId} {ids : List NodeId} :
    a ∈ Syn.present ids ↔ a ∈ ids ∧ a ≠ kNullNode := by
  simp [Syn.present]

/-- Which ids a node holds that lies in the arena. -/
lemma refers_iff {a b : NodeId} {n : Node} (h : tree[a]? = some n) :
    tree.Refers a b ↔ b ∈ n.refs := by
  simp [ASTTree.Refers, h]

lemma get_eq {a : NodeId} {n : Node} (h : tree[a]? = some n) : tree.get a = n := by
  simp [ASTTree.get, h]

lemma refs_loop {offset : ℕ} {a b c : NodeId} (hb : b ≠ kNullNode) :
    (plainNode CompileTimeJump offset (Data.evalOp a b c)).refs = [a, b, c] := by
  simp [Node.refs, plainNode, hb]

/-- A `for` keeps everything but its increment. -/
lemma keeps_for {q : QualifierTokens} {k : Tok kFor} {l : Tok Left} {init : Syn (orSemi stmt)}
    {cond : Syn (opt expr)} {semi : Tok Semi} {incr : Syn (opt expr)} {r : Tok Right}
    {body : Syn stmt}
    (h : Lies tree base ((Syn.forStmt q k l init cond semi incr r body).nodes base next))
    (hroom : base + (Syn.forStmt q k l init cond semi incr r body).size ≤ kNullNode) :
    (Syn.forStmt q k l init cond semi incr r body).Keeps tree base next ↔
      incr = Syn.none := by
  simp only [Syn.nodes, lies_append, lies_cons, Syn.length_nodes] at h
  simp only [Syn.size] at hroom
  have hbody := body.root_solid rfl (base + init.size + cond.size + incr.size)
  have hnode := h.2.2.2.2.1
  simp only [Syn.Keeps, Syn.root, ← Nat.add_assoc, refers_iff hnode]
  rw [refs_loop (by grind)]
  constructor
  · intro hkeeps
    cases incr with
    | none => rfl
    | some e =>
        simp only [Syn.root, Syn.size] at *
        have he := e.root_solid rfl (base + init.size + cond.size)
        have hinit := init.root_mem base
        have hcond := cond.root_mem (base + init.size)
        have hmem := hkeeps (e.root (base + init.size + cond.size))
          (mem_present.mpr ⟨by simp, by grind⟩)
        simp only [List.mem_cons, List.not_mem_nil, or_false] at hmem
        grind
  · rintro rfl a ha
    rw [mem_present] at ha
    simp only [Syn.root, Syn.size, List.mem_cons, List.not_mem_nil, or_false] at ha ⊢
    tauto

/-- The id of a parameter. -/
lemma param_root (p : Syn param) (base : ℕ) :
    base ≤ p.root base ∧ p.root base < base + p.size := by
  cases p with
  | parameter q type name init =>
      simp only [Syn.root, Syn.size]
      grind

/-- A function keeps no parameter. -/
lemma keeps_function {q : QualifierTokens} {type : Option (TokOf [kByte, Ident])} {name : Tok Ident}
    {l : Tok Left} {params : Syn (opt (commaList param))} {r : Tok Right} {body : Syn (orSemi stmt)}
    (h : Lies tree base ((Syn.functionDecl q type name l params r body).nodes base next))
    (hroom : base + (Syn.functionDecl q type name l params r body).size ≤ kNullNode) :
    (Syn.functionDecl q type name l params r body).Keeps tree base next ↔ params = Syn.none := by
  simp only [Syn.nodes, lies_append, lies_cons, Syn.length_nodes] at h
  simp only [Syn.size] at hroom
  have hget := get_eq h.2.2.2.2.1
  have hroot : (Syn.functionDecl q type name l params r body).root base
      = base + params.size + body.size + 1 + 1 := by
    simp only [Syn.root, ← Nat.add_assoc]
  have hbody := body.root_mem (base + params.size)
  simp only [Syn.Keeps, hroot, hget, Node.refs, plainNode, Data.typeNode_varDecl,
    Data.nameNode_varDecl, Data.initExpr_varDecl]
  constructor
  · intro hkeeps
    cases params with
    | none => rfl
    | some s =>
        cases s with
        | seq p more =>
            simp only [Syn.size] at hroom hbody hkeeps
            have hp := param_root p base
            have hmem := hkeeps.subset
              (mem_present.mpr ⟨by simp [Syn.paramRoots], (by grind : p.root base ≠ kNullNode)⟩)
            simp only [List.mem_cons, List.not_mem_nil, or_false] at hmem
            grind
  · rintro rfl
    simp only [Syn.paramRoots, List.nil_append, Syn.present, List.filter_cons, List.filter_nil]
    split_ifs
    · exact List.singleton_sublist.mpr (by simp)
    · exact List.nil_sublist _

lemma exists_specifier {t : TokOf [Equals, Colon, Ident]} {e : Syn expr}
    (h : ¬ (t.1.type = Equals ∧ e.level < 12)) :
    ∃ t' : TokOf [Equals, Colon, Ident], t'.1.type ≠ t.1.type ∧
      (t'.1.type ≠ Equals → 12 ≤ e.level) := by
  by_cases ht : t.1.type = Equals
  · refine ⟨⟨{ type := Colon }, by decide⟩, ?_, fun _ => ?_⟩
    · rw [ht]
      decide
    · exact Nat.le_of_not_lt fun hlt => h ⟨ht, hlt⟩
  · exact ⟨⟨{ type := Equals }, by decide⟩, fun heq => ht heq.symm, fun hne => absurd rfl hne⟩

/-- A type keeps a body, or a base that its form gives away. -/
lemma keeps_type {q : QualifierTokens} {k : Tok kType} {name : Tok Ident} {b : Syn (opt Cat.base)}
    {body : Syn (opt stmt)} {semi : Option (Tok Semi)}
    (h : Lies tree base ((Syn.typeDecl q k name b body semi).nodes base next))
    (hroom : base + (Syn.typeDecl q k name b body semi).size ≤ kNullNode) :
    (Syn.typeDecl q k name b body semi).Keeps tree base next ↔
      (Syn.typeDecl q k name b body semi).Lossless := by
  simp only [Syn.nodes, lies_append, declNodes, lies_cons, Syn.length_nodes] at h
  simp only [Syn.size] at hroom
  have hnode := h.2.2.1
  simp only [Syn.Keeps, Syn.Lossless, Syn.root, ← Nat.add_assoc, refers_iff hnode, Node.refs, plainNode,
    Data.typeNode_varDecl, Data.nameNode_varDecl, Data.initExpr_varDecl]
  constructor
  · rintro ⟨hrefs, htold⟩
    cases b with
    | none => exact Or.inl rfl
    | some s =>
        cases s with
        | led t e =>
            refine Or.inr ⟨⟨t, e, rfl, ?_⟩, ?_⟩
            · by_contra hnot
              rcases exists_specifier hnot with ⟨t', hne, hlevel⟩
              exact htold t t' e rfl hne hlevel rfl
            · cases body with
              | none => rfl
              | some s =>
                  simp only [Syn.size, Syn.root] at *
                  have he := e.root_solid rfl base
                  have hs := s.root_solid rfl (base + e.size)
                  have hmem := hrefs (e.root base) (mem_present.mpr ⟨by simp, by grind⟩)
                  simp only [List.mem_cons, List.not_mem_nil, or_false] at hmem
                  grind
  · intro hless
    rcases hless with rfl | ⟨⟨t, e, rfl, ht, hlevel⟩, rfl⟩
    · refine ⟨fun a ha => ?_, fun t t' e hb => by cases hb⟩
      rw [mem_present] at ha
      simp only [Syn.root, List.mem_cons, List.not_mem_nil, or_false] at ha ⊢
      grind
    · refine ⟨fun a ha => ?_, fun t₁ t' e₁ hb hne hle => ?_⟩
      · rw [mem_present] at ha
        simp only [Syn.root, List.mem_cons, List.not_mem_nil, or_false] at ha ⊢
        grind
      · cases hb
        exact absurd (hle fun h => hne (h.trans ht.symm)) (Nat.not_le.mpr hlevel)

end Keeps

/-- A part keeps what it is made of exactly when it is one that loses nothing. -/
lemma Syn.keeps_iff {tree : ASTTree} {k : Cat} (s : Syn k) {base next : ℕ}
    (h : Lies tree base (s.nodes base next)) (hroom : base + s.size ≤ kNullNode) :
    s.Keeps tree base next ↔ s.Lossless := by
  cases s with
  | forStmt => exact keeps_for h hroom
  | functionDecl => exact keeps_function h hroom
  | typeDecl => exact keeps_type h hroom
  | _ => exact Iff.rfl

/-! ## What two arenas can be told apart by -/

section Same

variable {read read' : Reading}

lemma decl_injective {kind : NodeKind} {q q' : QualifierTokens} {type type' name name' : Token}
    {o o' : Outline} :
    Outline.decl kind read q.value type name o = Outline.decl kind read' q'.value type' name' o' ↔
      Syn.SameHead read read' q q' type type' name name' ∧ o = o' := by
  have hcode {t t' : Token} : t.type.code = t'.type.code ↔ t.type = t'.type :=
    ⟨fun h => TokenType.code_injective h, fun h => congrArg _ h⟩
  simp only [Outline.decl, Outline.leaf, Outline.node.injEq, Syn.SameHead, true_and, and_true, hcode]
  tauto

lemma Syn.outline_typeDecl {q : QualifierTokens} {k : Tok kType} {name : Tok Ident}
    {b : Syn (opt Cat.base)} {body : Syn (opt stmt)} {semi : Option (Tok Semi)} :
    (Syn.typeDecl q k name b body semi).outline read =
      Outline.decl TypeDecl read q.value k.1 name.1 (Syn.behind read b body) := by
  cases body <;> rfl

/-- Of two statements of one form, the outlines say what is kept. -/
lemma Syn.outline_eq_iff {k l : Cat} {s : Syn k} {t : Syn l} (h : s.SameForm t) :
    s.outline read = t.outline read' ↔ s.SameKept read read' t := by
  cases s with
  | forStmt =>
      cases t with
      | forStmt =>
          show Outline.three _ _ _ _ = Outline.three _ _ _ _ ↔ _
          simp only [Outline.three, Outline.node.injEq, true_and, Syn.SameKept]
          tauto
      | _ => exact h.elim
  | functionDecl =>
      cases t with
      | functionDecl => exact decl_injective
      | _ => exact h.elim
  | typeDecl =>
      cases t with
      | typeDecl =>
          rw [Syn.outline_typeDecl, Syn.outline_typeDecl]
          exact decl_injective
      | _ => exact h.elim
  | _ => exact h.elim

end Same

namespace Parses

variable {src : List Byte} {tree : ASTTree} {u : Syn (list stmt)}

lemma part_room (hu : Parses src tree u) {x : Part} (hx : x ∈ u.parts 1 src.length) :
    x.base + x.syn.size ≤ kNullNode :=
  ((u.parts_within x hx).2.trans_eq hu.length.symm).trans hu.room

/-- The node of a part shows the outline of the part. -/
lemma shows (read : Reading) (hu : Parses src tree u) {x : Part} (hx : x ∈ u.parts 1 src.length) :
    Shows read tree x.root (x.syn.outline read) :=
  x.syn.shows read (u.lies_parts hu.lies x hx) (hu.part_room hx)

/-- The arenas are equal below the nodes of two parts when the parts have one outline. -/
lemma equalBelow_iff {src' : List Byte} {tree' : ASTTree} {u' : Syn (list stmt)}
    {read read' : Reading} (hu : Parses src tree u) (hu' : Parses src' tree' u') {x x' : Part}
    (hx : x ∈ u.parts 1 src.length) (hx' : x' ∈ u'.parts 1 src'.length) :
    EqualBelow read read' tree tree' x.root x'.root ↔
      x.syn.outline read = x'.syn.outline read' := by
  have hshow := hu.shows read hx
  have hshow' := hu'.shows read' hx'
  constructor
  · rintro ⟨o, ho, ho'⟩
    rw [hshow.unique hu.room ho, hshow'.unique hu'.room ho']
  · intro heq
    exact ⟨_, hshow, heq ▸ hshow'⟩

end Parses

/-- **What is kept.**  In an accepted source, the node of a `for`, a function or a type refers to
all of its parts exactly when it is a `for` without an increment, a function without parameters, or
a type without a base or with one that only `=` can give and without a body.  Below two such nodes of
any two accepted sources, the arenas are equal but for offsets and nodes that are not held exactly
when the parts that the nodes hold are. -/
theorem accepts_keeps {src : List Byte} {tree : ASTTree} (h : Accepts src tree) :
    (∃ u, Parses src tree u) ∧ ∀ u, Parses src tree u → ∀ x ∈ u.parts 1 src.length,
      (x.syn.Keeps tree x.base x.next ↔ x.syn.Lossless) ∧
        ∀ {src' : List Byte} {tree' : ASTTree} (u' : Syn (list stmt)), Parses src' tree' u' →
          ∀ x' ∈ u'.parts 1 src'.length, x.syn.SameForm x'.syn → ∀ read read' : Reading,
            (EqualBelow read read' tree tree' x.root x'.root ↔
              x.syn.SameKept read read' x'.syn) := by
  refine ⟨accepts_unit h, fun u hu x hx => ⟨?_, fun u' hu' x' hx' hform read read' => ?_⟩⟩
  · exact x.syn.keeps_iff (u.lies_parts hu.lies x hx) (hu.part_room hx)
  · rw [hu.equalBelow_iff hu' hx hx']
    exact Syn.outline_eq_iff hform

/-- Two loops that differ in their increment only have arenas that differ in one node only, and no
node refers to it. -/
theorem increment_lost : ∃ tree tree' : ASTTree,
    parse (bytes "for(;a;b) c;") 20 = Option.some (.ok tree) ∧
      parse (bytes "for(;a;1) c;") 20 = Option.some (.ok tree') ∧
        tree' = tree.set 2 ⟨LiteralExpr, {}, 7, 1, Data.literal LInt 0⟩ ∧
          ∀ a, ¬ tree.Refers a 2 ∧ ¬ tree'.Refers a 2 := by
  have hparse : parse (bytes "for(;a;b) c;") 20 = Option.some (.ok
      [default, ⟨IdentifierExpr, {}, 5, 1, Data.literal Ident 0⟩,
        ⟨IdentifierExpr, {}, 7, 1, Data.literal Ident 0⟩,
        ⟨IdentifierExpr, {}, 10, 1, Data.literal Ident 0⟩,
        ⟨CompileTimeJump, {}, 0, 0, Data.evalOp 1 3 kNullNode⟩]) := by
    decide +kernel
  have hparse' : parse (bytes "for(;a;1) c;") 20 = Option.some (.ok
      [default, ⟨IdentifierExpr, {}, 5, 1, Data.literal Ident 0⟩,
        ⟨LiteralExpr, {}, 7, 1, Data.literal LInt 0⟩,
        ⟨IdentifierExpr, {}, 10, 1, Data.literal Ident 0⟩,
        ⟨CompileTimeJump, {}, 0, 0, Data.evalOp 1 3 kNullNode⟩]) := by
    decide +kernel
  refine ⟨_, _, hparse, hparse', rfl, fun a => ⟨?_, ?_⟩⟩
  all_goals
    rintro ⟨n, hn, hmem⟩
    rcases a with _ | _ | _ | _ | _ | a <;> simp at hn <;> subst hn <;> revert hmem <;> decide

/-- A token of one byte. -/
def shortToken (type : TokenType) (offset : ℕ) : Tok type :=
  ⟨{ globalOffset := offset, size := 1, type }, rfl⟩

/-- A name of one letter. -/
def shortName (offset : ℕ) : Syn expr :=
  Syn.ident ⟨(shortToken Ident offset).1, (by decide : Ident ∈ identifiers)⟩

/-- The loop `for(f(a,b);x;)c;`, with any name in the place of `b`. -/
def callLoop : Syn stmt :=
  .forStmt [] ⟨{ size := 3, type := kFor }, rfl⟩ (shortToken Left 3)
    (.full (.exprStmt []
      (.call (shortName 4) (shortToken Left 5)
        (.some (.seq (shortName 6)
          (.cons (.led ⟨(shortToken Comma 7).1, (by decide : Comma ∈ [Comma])⟩ (shortName 8)) .nil)))
        (shortToken Right 9))
      (Option.some (shortToken Semi 10))))
    (.some (shortName 11)) (shortToken Semi 12) .none (shortToken Right 13)
    (.exprStmt [] (shortName 14) (Option.some (shortToken Semi 15)))

/-- The arena of the loop, behind its root. -/
def callLoopTree : ASTTree := default :: (Syn.cons callLoop Syn.nil).nodes 1 16

lemma callLoop_parses {src : List Byte} (hlength : src.length = 16)
    (htokens : Lexer.tokensOf src = (Syn.cons callLoop Syn.nil).tokens) :
    Parses src callLoopTree (.cons callLoop .nil) where
  tokens := htokens.symm
  grouped := ⟨⟨⟨le_rfl, trivial, trivial, trivial, trivial⟩, trivial, trivial, trivial⟩, trivial⟩
  arena := by rw [hlength]; rfl
  room := by decide +kernel

lemma callLoop_mem {src : List Byte} (hlength : src.length = 16) :
    (⟨_, callLoop, 1, 16⟩ : Part) ∈ (Syn.cons callLoop Syn.nil).parts 1 src.length := by
  rw [hlength]
  exact List.mem_cons_of_mem _ (List.mem_append_left _ List.mem_cons_self)

/-- The loop keeps what it is made of, and the second argument of the call in its initialiser is lost
in the call: with `b` and with `d` the arenas are the same. -/
theorem accepts_keeps_sample :
    parse (bytes "for(f(a,b);x;)c;") 40 = Option.some (.ok callLoopTree) ∧
      parse (bytes "for(f(a,d);x;)c;") 40 = Option.some (.ok callLoopTree) ∧
        callLoop.Keeps callLoopTree 1 16 ∧
          EqualBelow (snippet (bytes "for(f(a,b);x;)c;")) (snippet (bytes "for(f(a,d);x;)c;"))
            callLoopTree callLoopTree (callLoop.root 1) (callLoop.root 1) := by
  have hparse : parse (bytes "for(f(a,b);x;)c;") 40 = Option.some (.ok callLoopTree) := by
    decide +kernel
  have hlength : (bytes "for(f(a,b);x;)c;").length = 16 := by decide
  have hlength' : (bytes "for(f(a,d);x;)c;").length = 16 := by decide
  have hb := callLoop_parses hlength (by decide +kernel)
  have hd := callLoop_parses hlength' (by decide +kernel)
  obtain ⟨hkeeps, hsame⟩ := (accepts_keeps (accepts_of_parse hparse)).2 _ hb _ (callLoop_mem hlength)
  have hkept : callLoop.SameKept (snippet (bytes "for(f(a,b);x;)c;"))
      (snippet (bytes "for(f(a,d);x;)c;")) callLoop :=
    ⟨by decide +kernel, by decide +kernel, by decide +kernel⟩
  have hequal := (hsame _ hd _ (callLoop_mem hlength') trivial _ _).mpr hkept
  exact ⟨hparse, by decide +kernel, hkeeps.mpr rfl, hequal⟩

end LogicCompiler
