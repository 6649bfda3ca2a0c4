import BlockFlow.Proofs.Compilation
import BlockFlow.Proofs.Formatting.Passes
import BlockFlow.Program.Run

/-!
# Formatting and numbering do not change the program

Lowering reads the rules of nodes and what their tokens say, and nothing else: the graph of a bare
tree is the graph of the tree, and where the one cannot be lowered the other cannot either, for the
same reason and at the same node (`Graph.lower_bare`).

Together with what recognition and normalisation do to bare tokens and trees, this makes the graph
of a list of tokens depend on what the tokens say alone.  Neither the layout of the text they were
read from nor the number at which their tree begins to count can be seen in it.
-/

namespace BlockFlow

/-! ### Errors of bare trees -/

/-- The error with a bare node. -/
def LowerError.bare : LowerError → LowerError
  | atNode node fault => atNode node.bare fault
  | terminatedTwice block => terminatedTwice block
  | missingToken => missingToken

/-- The first result is what the second one is for bare trees: the same value, or the same error
with a bare node. -/
def Mirrors {α : Type} (x' x : Except LowerError α) : Prop :=
  x' = x.mapError LowerError.bare

namespace Mirrors

variable {α β : Type}

theorem bind {x x' : Except LowerError α} {f f' : α → Except LowerError β} (hx : Mirrors x' x)
    (hf : ∀ a, Mirrors (f' a) (f a)) : Mirrors (x' >>= f') (x >>= f) := by
  rw [Mirrors] at hx
  subst hx
  cases x with
  | ok a => exact hf a
  | error e => rfl

theorem map (f : α → β) {x x' : Except LowerError α} (hx : Mirrors x' x) :
    Mirrors (x'.map f) (x.map f) := by
  rw [Mirrors] at hx
  subst hx
  cases x <;> rfl

end Mirrors

/-! ### Expressions -/

namespace Node

variable {vars : List String}

theorem mirrors_toVariable (n : Node) : Mirrors (n.bare.toVariable vars) (n.toVariable vars) := by
  obtain ⟨id, rule, _ | ⟨lexeme, span⟩, children⟩ := n
  · rfl
  · cases lexeme with
    | ident name =>
      by_cases hname : name ∈ vars
      · simp [Mirrors, bare, toVariable, Token.bare, hname, Except.mapError]
      · simp [Mirrors, bare, toVariable, Token.bare, hname, Except.mapError, LowerError.bare]
    | _ => rfl

theorem mirrors_toOp (n : Node) : Mirrors n.bare.toOp n.toOp := by
  obtain ⟨id, rule, _ | ⟨lexeme, span⟩, children⟩ := n
  · cases rule <;> rfl
  · cases rule with
    | term =>
      cases lexeme with
      | op symbol =>
        cases hop : Op.ofSymbol? symbol with
        | none => simp [Mirrors, bare, toOp, Token.bare, hop, Except.mapError, LowerError.bare]
        | some op => simp [Mirrors, bare, toOp, Token.bare, hop, Except.mapError]
      | _ => rfl
    | _ => rfl

/-- Reading an expression sees neither spans nor numbers. -/
theorem mirrors_toExpr : ∀ n : Node, Mirrors (n.bare.toExpr vars) (n.toExpr vars)
  | ⟨id, .term, none, children⟩ => rfl
  | ⟨id, .term, some ⟨lexeme, span⟩, children⟩ => by
    cases lexeme with
    | ident name =>
      have hname : Mirrors (toVariable vars (bare ⟨id, .term, some ⟨.ident name, span⟩, children⟩))
          (toVariable vars ⟨id, .term, some ⟨.ident name, span⟩, children⟩) :=
        mirrors_toVariable _
      exact hname.map Expr.load
    | _ => rfl
  | ⟨_, .value, _, [left, ⟨_, _, _, [operator, right]⟩]⟩ => by
    simp only [bare, bareAll, toExpr]
    refine (mirrors_toExpr left).bind fun l => operator.mirrors_toOp.bind fun op => ?_
    exact (mirrors_toExpr right).bind fun r => rfl
  | ⟨_, .value, _, [operand, ⟨_, _, _, []⟩]⟩ => by
    simp only [bare, bareAll, toExpr]
    exact mirrors_toExpr operand
  -- Nothing else is an expression, and being bare does not make it one.
  | ⟨_, .value, _, [_, ⟨_, _, _, [_]⟩]⟩ => rfl
  | ⟨_, .value, _, [_, ⟨_, _, _, _ :: _ :: _ :: _⟩]⟩ => rfl
  | ⟨_, .value, _, []⟩ => rfl
  | ⟨_, .value, _, [_]⟩ => rfl
  | ⟨_, .value, _, _ :: _ :: _ :: _⟩ => by
    simp [Mirrors, bare, bareAll, toExpr, Except.mapError, LowerError.bare]
  | ⟨_, .sequence, _, _⟩ => rfl
  | ⟨_, .wrapper, _, _⟩ => rfl
  | ⟨_, .ret, _, _⟩ => rfl
  | ⟨_, .assign, _, _⟩ => rfl
  | ⟨_, .cond, _, _⟩ => rfl
  | ⟨_, .loop, _, _⟩ => rfl
  | ⟨_, .tail, _, _⟩ => rfl
  | ⟨_, .basicBlock, _, _⟩ => rfl
  | ⟨_, .other _, _, _⟩ => rfl

@[simp] theorem isTerm_bare (n : Node) (kind : Kind) : n.bare.isTerm kind = n.isTerm kind := by
  rw [isTerm, isTerm, kind?_bare]

end Node

/-! ### Statements -/

namespace Lowering

variable {vars : List String}

theorem mirrors_terminate (g : Graph) (i : Nat) (t : Terminator) :
    Mirrors (g.terminate i t) (g.terminate i t) := by
  unfold Graph.terminate
  split
  · rfl
  · rfl

theorem mirrors_join (g : Graph) (tip : Option Tip) (target : Nat) :
    Mirrors (join g tip target) (join g tip target) := by
  cases tip with
  | none => rfl
  | some tip => exact mirrors_terminate g tip.block (.jump target)

theorem mirrors_openBlock (g : Graph) (tip : Tip) :
    Mirrors (openBlock g tip) (openBlock g tip) := by
  unfold openBlock
  split
  · rfl
  · exact (mirrors_terminate _ _ _).bind fun g' => rfl

theorem mirrors_fillBlock (i : Nat) (statements : List Node) : ∀ g : Graph,
    Mirrors (fillBlock vars i g (Node.bareAll statements)) (fillBlock vars i g statements) := by
  induction statements with
  | nil => exact fun g => rfl
  | cons s rest ih =>
    intro g
    obtain ⟨id, rule, token, children⟩ := s
    cases rule with
    | assign =>
      rcases children with _ | ⟨target, _ | ⟨value, _ | ⟨third, more⟩⟩⟩
      · rfl
      · rfl
      · simp only [Node.bareAll, Node.bare, fillBlock, Node.isTerm_bare]
        split
        · refine value.mirrors_toExpr.bind fun e => ?_
          exact target.mirrors_toVariable.bind fun name => ih (g.addStore i ⟨name, e⟩)
        · rfl
      · rfl
    | ret =>
      rcases children with _ | ⟨value, _ | ⟨second, more⟩⟩
      · rfl
      · refine value.mirrors_toExpr.bind fun e => ?_
        exact (mirrors_terminate g i (.ret e)).bind fun g' => rfl
      · rfl
    | _ => rfl

theorem mirrors_lowerBlock (tip : Tip) (g : Graph) (statements : List Node) :
    Mirrors (lowerBlock vars tip g (Node.bareAll statements)) (lowerBlock vars tip g statements) :=
  (mirrors_openBlock g tip).bind fun opened => mirrors_fillBlock opened.1 statements opened.2

theorem straight?_bare {n : Node} {statements : List Node} (h : n.straight? = some statements) :
    n.bare.straight? = some (Node.bareAll statements) := by
  obtain ⟨id, rule, token, children⟩ := n
  cases rule <;> cases h <;> rfl

theorem misfit?_bare (n : Node) : n.bare.misfit? = n.misfit? := by
  obtain ⟨id, rule, token, children⟩ := n
  have hlength : (Node.bareAll children).length = children.length := by
    rw [Node.bareAll_eq_map, List.length_map]
  simp only [Node.misfit?, Node.bare, hlength]

/-- Lowering statements sees neither spans nor numbers. -/
theorem mirrors_lowering :
    (∀ (n : Node) (tip : Tip) (g : Graph),
      Mirrors (lowerStatement vars tip g n.bare) (lowerStatement vars tip g n)) ∧
    (∀ (n : Node) (tip : Tip) (g : Graph),
      Mirrors (lowerBody vars tip g n.bare) (lowerBody vars tip g n)) ∧
    ∀ (nodes : List Node) (tip : Tip) (g : Graph),
      Mirrors (lowerSequence vars tip g (Node.bareAll nodes)) (lowerSequence vars tip g nodes) := by
  refine Node.lowering_induct ?straight ?cond ?loop ?misfit ?body ?noBody ?nil ?cons
  case straight =>
    intro n statements hstraight tip g
    rw [lowerStatement_of_straight hstraight, lowerStatement_of_straight (straight?_bare hstraight)]
    exact mirrors_lowerBlock tip g statements
  case cond =>
    intro id token test thenBody elseBody hthenBody helseBody tip g
    simp only [Node.bare, Node.bareAll, lowerStatement]
    refine (mirrors_terminate _ _ _).bind fun g₁ => test.mirrors_toExpr.bind fun e => ?_
    refine (mirrors_terminate _ _ _).bind fun g₂ => (hthenBody _ _).bind fun r₃ => ?_
    refine (helseBody _ _).bind fun r₄ => ?_
    exact (mirrors_join _ _ _).bind fun g₅ => (mirrors_join _ _ _).bind fun g₆ => rfl
  case loop =>
    intro id token test body hbody tip g
    simp only [Node.bare, Node.bareAll, lowerStatement]
    refine (mirrors_terminate _ _ _).bind fun g₁ => test.mirrors_toExpr.bind fun e => ?_
    refine (mirrors_terminate _ _ _).bind fun g₂ => (hbody _ _).bind fun r₃ => ?_
    exact (mirrors_join _ _ _).bind fun g₄ => rfl
  case misfit =>
    intro n fault hmisfit tip g
    rw [lowerStatement_of_misfit hmisfit, lowerStatement_of_misfit ((misfit?_bare n).trans hmisfit)]
    rfl
  case body =>
    intro n hrule hsequence tip g
    rw [lowerBody_of_sequence hrule, lowerBody_of_sequence ((Node.rule_bare n).trans hrule),
      Node.children_bare]
    exact hsequence tip g
  case noBody =>
    intro n hrule tip g
    rw [lowerBody_of_ne hrule, lowerBody_of_ne (by rwa [Node.rule_bare]), Node.rule_bare]
    rfl
  case nil => exact fun tip g => rfl
  case cons =>
    intro s rest hs hrest tip g
    rw [Node.bareAll, lowerSequence, lowerSequence]
    refine (hs tip g).bind fun result => ?_
    obtain ⟨tip', g'⟩ := result
    cases tip' with
    | none => rfl
    | some tip' => exact hrest tip' g'

end Lowering

/-- **Lowering sees neither spans nor numbers.**  A tree has the graph that the bare tree has, and
cannot be lowered if that one cannot, for the same reason and at the same node. -/
theorem Graph.lower_bare (vars : List String) (n : Node) :
    lower vars n.bare = (lower vars n).mapError LowerError.bare := by
  have hlower : Mirrors (lower vars n.bare) (lower vars n) := by
    rw [lower, lower, Node.rule_bare, Node.children_bare]
    split
    · exact (Lowering.mirrors_lowering.2.2 n.children _ _).bind fun result => rfl
    · rfl
  exact hlower

/-- Trees that are the same up to spans and numbers have the same graph, or none for the same
reason. -/
theorem Graph.lower_alike {n n' : Node} (h : n.bare = n'.bare) (vars : List String) :
    (∃ e e', lower vars n = .error e ∧ lower vars n' = .error e' ∧ e.bare = e'.bare) ∨
      ∃ g, lower vars n = .ok g ∧ lower vars n' = .ok g := by
  have hlower : ((lower vars n).map id).mapError LowerError.bare =
      ((lower vars n').map id).mapError LowerError.bare := by
    rw [Except.map_id, id, id, ← lower_bare, ← lower_bare, h]
  rcases alike_of_mapped_eq hlower with herror | ⟨g, g', hg, hg', rfl⟩
  · exact .inl herror
  · exact .inr ⟨g, hg, hg'⟩

/-! ### Programs -/

namespace Program

/-- The programs have the same graph, and so they show the same and do the same. -/
structure Alike (p p' : Program) : Prop where
  graph : p.graph? = p'.graph?
  vars : p.vars = p'.vars
  listing : p.listing = p'.listing
  ssaListing : p.ssaListing = p'.ssaListing
  run : ∀ settings polls, p.run settings polls = p'.run settings polls
  runBatch : ∀ settings inputs, p.runBatch settings inputs = p'.runBatch settings inputs

theorem Alike.of_graph {p p' : Program} (h : p.graph? = p'.graph?) : p.Alike p' where
  graph := h
  vars := by rw [Program.vars, Program.vars, h]
  listing := by rw [Program.listing, Program.listing, h]
  ssaListing := by rw [Program.ssaListing, Program.ssaListing, h]
  run settings polls := by rw [Program.run, Program.run, h]
  runBatch settings inputs := by rw [Program.runBatch, Program.runBatch, h]

/-- Tokens that say the same compile to programs that are alike, or neither compile. -/
theorem compileFrom_alike {tokens tokens' : List Token}
    (h : tokens.map Token.lexeme = tokens'.map Token.lexeme) (settings : Settings)
    (source source' : List UInt8) :
    (∃ e e', (compileFrom settings source tokens).result = .error e ∧
      (compileFrom settings source' tokens').result = .error e') ∨
    ∃ p p', (compileFrom settings source tokens).result = .ok p ∧
      (compileFrom settings source' tokens').result = .ok p' ∧ p.Alike p' := by
  rcases parse_alike h with ⟨e, e', he, he', -⟩ | ⟨program, program', hparse, hparse', hbare⟩
  · exact .inl ⟨_, _, result_compileFrom_of_error he settings source,
      result_compileFrom_of_error he' settings source'⟩
  · obtain ⟨-, -, -, -, hproper⟩ := parse_eq_ok_iff.mp hparse
    obtain ⟨-, -, -, -, hproper'⟩ := parse_eq_ok_iff.mp hparse'
    rw [result_compileFrom_eq hparse, result_compileFrom_eq hparse']
    by_cases hmode : settings.mode = Stage.parse.name
    · -- Nothing behind the tree of the grammar is made, so neither program has a graph.
      rw [if_pos hmode, if_pos hmode]
      exact .inr ⟨_, _, rfl, rfl, .of_graph rfl⟩
    · rw [if_neg hmode, if_neg hmode, result_lower_eq hproper, result_lower_eq hproper']
      have hnormal := bare_normalize (Statement.bare_number_sequenceOutline hbare 0 0)
      rw [← Node.names_bare, hnormal, Node.names_bare]
      rcases Graph.lower_alike hnormal _ with ⟨e, e', he, he', -⟩ | ⟨g, hg, hg'⟩
      · rw [he, he']
        exact .inl ⟨_, _, rfl, rfl⟩
      · rw [hg, hg']
        exact .inr ⟨_, _, rfl, rfl, .of_graph rfl⟩

end Program

/-- **Formatting and numbering never change the program.**  Take two lists of tokens that say the
same, and any two numbers behind which the nodes of their trees are numbered.  The grammar refuses
both for the same reason at the same token, or both have a tree.  The normal trees then have the
same names, and with any variables both have the same graph or neither can be lowered, for the same
reason.  So what is compiled from the two lists shows and does the same, with constants folded or
not: its listing, its static single assignment form and all its runs. -/
theorem layout_independent {tokens tokens' : List Token}
    (h : tokens.map Token.lexeme = tokens'.map Token.lexeme) :
    (∀ last last',
      (∃ e e', parseTree last tokens = .error e ∧ parseTree last' tokens' = .error e' ∧
        e.fault = e'.fault ∧ e.index = e'.index ∧ e.token.lexeme = e'.token.lexeme) ∨
      ∃ tree tree', parseTree last tokens = .ok tree ∧ parseTree last' tokens' = .ok tree' ∧
        (normalize tree).1.names = (normalize tree').1.names ∧
        ∀ vars,
          (∃ e e', Graph.lower vars (normalize tree).1 = .error e ∧
            Graph.lower vars (normalize tree').1 = .error e' ∧ e.bare = e'.bare) ∨
          ∃ g, Graph.lower vars (normalize tree).1 = .ok g ∧
            Graph.lower vars (normalize tree').1 = .ok g) ∧
    ∀ settings source source',
      (∃ e e', (Program.compileFrom settings source tokens).result = .error e ∧
        (Program.compileFrom settings source' tokens').result = .error e') ∨
      ∃ p p', (Program.compileFrom settings source tokens).result = .ok p ∧
        (Program.compileFrom settings source' tokens').result = .ok p' ∧ p.Alike p' := by
  refine ⟨fun last last' => ?_, Program.compileFrom_alike h⟩
  rcases parse_alike h with ⟨e, e', he, he', hbare⟩ | ⟨program, program', hparse, hparse', hbare⟩
  · refine .inl ⟨e, e', ?_, ?_, ?_⟩
    · rw [parseTree, he]
      rfl
    · rw [parseTree, he']
      rfl
    · obtain ⟨hfault, htoken, hindex⟩ := SyntaxError.mk.inj hbare
      exact ⟨hfault, hindex, (Token.mk.inj htoken).1⟩
  · have hnormal := bare_normalize (Statement.bare_number_sequenceOutline hbare last last')
    refine .inr ⟨_, _, Grammar.parseTree_eq_ok_iff.mpr ⟨program, hparse, rfl⟩,
      Grammar.parseTree_eq_ok_iff.mpr ⟨program', hparse', rfl⟩, ?_, Graph.lower_alike hnormal⟩
    rw [← Node.names_bare, hnormal, Node.names_bare]

/-- The tokens of `absoluteTokens`, each on a line of its own. -/
def stretchedTokens : List Token :=
  absoluteTokens.mapIdx fun i t => ⟨t.lexeme, ⟨⟨i + 1, 1, 2 * i⟩, ⟨i + 1, 2, 2 * i + 1⟩⟩⟩

/-- Their tree is another one, and numbered from elsewhere it has other numbers, too; but the graph
is the same. -/
theorem layout_stretchedTokens :
    stretchedTokens.map Token.lexeme = absoluteTokens.map Token.lexeme ∧
    stretchedTokens.map Token.span ≠ absoluteTokens.map Token.span ∧
    (∃ tree tree', parseTree 40 stretchedTokens = .ok tree ∧
      parseTree 0 absoluteTokens = .ok tree' ∧
      (normalize tree).1.id = 93 ∧ (normalize tree').1.id = 53 ∧
      ∃ g, Graph.lower ["x", "y", "z"] (normalize tree).1 = .ok g ∧
        Graph.lower ["x", "y", "z"] (normalize tree').1 = .ok g) ∧
    ∃ p p', (Program.compileTokens stretchedTokens).result = .ok p ∧
      (Program.compileTokens absoluteTokens).result = .ok p' ∧ p.Alike p' := by
  have hlexemes : stretchedTokens.map Token.lexeme = absoluteTokens.map Token.lexeme := by decide
  obtain ⟨htrees, hprograms⟩ := layout_independent hlexemes
  have hids : (parseTree 40 stretchedTokens).map (fun tree => (normalize tree).1.id) = .ok 93 ∧
      (parseTree 0 absoluteTokens).map (fun tree => (normalize tree).1.id) = .ok 53 := by
    decide +kernel
  have hlowers : (parseTree 40 stretchedTokens).map (fun tree =>
      (Graph.lower ["x", "y", "z"] (normalize tree).1).isOk) = .ok true := by
    decide +kernel
  have hcompiles : (Program.compileTokens stretchedTokens).result.isOk = true := by
    decide +kernel
  refine ⟨hlexemes, by decide, ?_, ?_⟩
  · rcases htrees 40 0 with ⟨e, e', he, -⟩ | ⟨tree, tree', htree, htree', -, hgraphs⟩
    · rw [he] at hids
      exact absurd hids.1 nofun
    · rw [htree, htree'] at hids
      rw [htree] at hlowers
      refine ⟨tree, tree', htree, htree', Except.ok.inj hids.1, Except.ok.inj hids.2, ?_⟩
      rcases hgraphs ["x", "y", "z"] with ⟨e, e', he, -⟩ | hgraph
      · simp [Except.map, he, Except.isOk, Except.toBool] at hlowers
      · exact hgraph
  · rcases hprograms {} [] [] with ⟨e, e', he, -⟩ | hprogram
    · rw [Program.compileTokens, he] at hcompiles
      cases hcompiles
    · exact hprogram

end BlockFlow
