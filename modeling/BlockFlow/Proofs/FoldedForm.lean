import BlockFlow.Graph.Folding
import BlockFlow.Ssa.Build

/-!
# What folding leaves

Folding goes through an expression once, from the inside out, and yet leaves nothing to fold
(`Expr.foldable_fold`): whether an operation can be replaced depends on its operands as they are
after folding, and these are looked at last.  Where an operation has no value the search stops; the
operations above it have an operand that is no constant and stay as well.

Every replacement takes one operation away, so the count is the number of operations lost
(`Expr.operations_fold`).  Since constants read no variable, the variables that an expression reads
are the same and in the same order (`Expr.loads_fold`).  Folding a graph is folding its expressions
one by one (`Graph.folded_eq_mapExprs`), and the static single assignment form does not depend on
more of an expression than the variables it reads (`Graph.toSsa_mapExprs`).
-/

namespace BlockFlow

/-! ### Expressions -/

namespace Expr

/-- The expression and all that is below it, each before its operands. -/
def parts : Expr → List Expr
  | binary op left right => binary op left right :: (left.parts ++ right.parts)
  | e => [e]

/-- Whether the expression is an operator with its operands. -/
def isOperation : Expr → Bool
  | binary _ _ _ => true
  | _ => false

/-- The number of operations in an expression. -/
def operations (e : Expr) : Nat :=
  e.parts.countP isOperation

/-- Whether the expression is an operation on constants that has a value. -/
def foldable : Expr → Bool
  | binary op (const l) (const r) => (op.eval l r).isSome
  | _ => false

/-- The sum of a number over expressions. -/
def total (count : Expr → Nat) (es : List Expr) : Nat :=
  es.foldr (fun e sum => count e + sum) 0

theorem total_cons (count : Expr → Nat) (e : Expr) (rest : List Expr) :
    total count (e :: rest) = count e + total count rest :=
  rfl

theorem total_append (count : Expr → Nat) (first second : List Expr) :
    total count (first ++ second) = total count first + total count second := by
  induction first with
  | nil => exact (Nat.zero_add _).symm
  | cons e rest ih => rw [List.cons_append, total_cons, total_cons, ih, Nat.add_assoc]

theorem total_eq_zero {count : Expr → Nat} {es : List Expr} (h : ∀ e ∈ es, count e = 0) :
    total count es = 0 := by
  induction es with
  | nil => rfl
  | cons e rest ih =>
    obtain ⟨he, hrest⟩ := List.forall_mem_cons.mp h
    rw [total_cons, he, ih hrest]

theorem operations_binary (op : Op) (left right : Expr) :
    (binary op left right).operations = left.operations + right.operations + 1 := by
  have hhere : (binary op left right).isOperation = true := rfl
  rw [operations, parts, List.countP_cons_of_pos hhere, List.countP_append]
  rfl

theorem fold_binary (op : Op) (left right : Expr) : (binary op left right).fold =
    ((foldBinary op left.fold.1 right.fold.1).1,
      left.fold.2 + right.fold.2 + (foldBinary op left.fold.1 right.fold.1).2) :=
  rfl

/-- **What folding does at an operation.**  It replaces an operation on constants that has a value
by this value, and counts it; any other operation stays, and is not one that could be replaced. -/
theorem foldBinary_cases (op : Op) (left right : Expr) :
    (∃ l r value, left = const l ∧ right = const r ∧ op.eval l r = some value ∧
      foldBinary op left right = (const value, 1)) ∨
    ((binary op left right).foldable = false ∧
      foldBinary op left right = (binary op left right, 0)) := by
  unfold foldBinary
  split
  · rename_i l r
    cases hv : op.eval l r with
    | some value => exact .inl ⟨l, r, value, rfl, rfl, hv, rfl⟩
    | none => exact .inr ⟨by simp [foldable, hv], rfl⟩
  · rename_i hnot
    refine .inr ⟨?_, rfl⟩
    unfold foldable
    split
    · rename_i l r heq
      injection heq with _ hleft hright
      exact absurd hright (hnot l r hleft)
    · rfl

/-- **Nothing is left to fold,** at any depth. -/
theorem foldable_fold (e : Expr) : ∀ part ∈ e.fold.1.parts, part.foldable = false := by
  induction e with
  | const value => simp [fold, parts, foldable]
  | load name => simp [fold, parts, foldable]
  | binary op left right ihl ihr =>
    rw [fold_binary]
    obtain ⟨l, r, value, _, _, _, hfold⟩ | ⟨hstays, hfold⟩ :=
      foldBinary_cases op left.fold.1 right.fold.1
    · rw [hfold]
      simp [parts, foldable]
    · rw [hfold]
      intro part hpart
      rw [parts, List.mem_cons, List.mem_append] at hpart
      rcases hpart with rfl | hpart | hpart
      · exact hstays
      · exact ihl part hpart
      · exact ihr part hpart
  | absent => simp [fold, parts, foldable]

/-- **The count is the number of operations lost.** -/
theorem operations_fold (e : Expr) : e.fold.1.operations + e.fold.2 = e.operations := by
  induction e with
  | const value => rfl
  | load name => rfl
  | binary op left right ihl ihr =>
    rw [fold_binary, operations_binary]
    obtain ⟨l, r, value, hl, hr, _, hfold⟩ | ⟨_, hfold⟩ :=
      foldBinary_cases op left.fold.1 right.fold.1
    · rw [hl] at ihl
      rw [hr] at ihr
      have hconst : ∀ v, (const v).operations = 0 := fun _ => rfl
      rw [hconst] at ihl ihr
      rw [hfold]
      show (const value).operations + _ = _
      rw [hconst]
      omega
    · rw [hfold]
      show (binary op left.fold.1 right.fold.1).operations + _ = _
      rw [operations_binary]
      omega
  | absent => rfl

/-- **Folding keeps the variables that are read,** from left to right. -/
theorem loads_fold (e : Expr) : e.fold.1.loads = e.loads := by
  induction e with
  | const value => rfl
  | load name => rfl
  | binary op left right ihl ihr =>
    rw [fold_binary, loads, ← ihl, ← ihr]
    obtain ⟨l, r, value, hl, hr, _, hfold⟩ | ⟨_, hfold⟩ :=
      foldBinary_cases op left.fold.1 right.fold.1
    · rw [hfold, hl, hr]
      rfl
    · rw [hfold]
      rfl
  | absent => rfl

/-- An expression with nothing to fold is left as it is. -/
theorem fold_eq_self {e : Expr} (h : ∀ part ∈ e.parts, part.foldable = false) :
    e.fold = (e, 0) := by
  induction e with
  | const value => rfl
  | load name => rfl
  | binary op left right ihl ihr =>
    rw [parts, List.forall_mem_cons, List.forall_mem_append] at h
    obtain ⟨hhere, hleft, hright⟩ := h
    rw [fold_binary, ihl hleft, ihr hright]
    obtain ⟨l, r, value, rfl, rfl, hv, _⟩ | ⟨_, hfold⟩ := foldBinary_cases op left right
    · rw [foldable, hv] at hhere
      cases hhere
    · simp only [hfold]
  | absent => rfl

end Expr

/-! ### The expressions of a graph -/

/-- The expressions of a terminator. -/
def Terminator.exprs : Terminator → List Expr
  | branch cond _ _ => [cond]
  | ret value => [value]
  | jump _ | other _ => []

/-- The terminator with its expression replaced. -/
def Terminator.mapExprs (f : Expr → Expr) : Terminator → Terminator
  | branch cond onTrue onFalse => branch (f cond) onTrue onFalse
  | ret value => ret (f value)
  | jump target => jump target
  | other name => other name

namespace Block

/-- The expressions of a block: what is stored, in order, then the condition or the value
returned. -/
def exprs (b : Block) : List Expr :=
  b.stores.map Store.value ++ b.term.toList.flatMap Terminator.exprs

/-- The block with its expressions replaced, and nothing else. -/
def mapExprs (f : Expr → Expr) (b : Block) : Block :=
  { b with
    stores := b.stores.map fun s => ⟨s.name, f s.value⟩
    term := b.term.map (Terminator.mapExprs f) }

theorem exprs_mapExprs (f : Expr → Expr) (b : Block) : (b.mapExprs f).exprs = b.exprs.map f := by
  have hterm : (b.term.map (Terminator.mapExprs f)).toList.flatMap Terminator.exprs =
      (b.term.toList.flatMap Terminator.exprs).map f := by
    rcases b.term with _ | (target | ⟨cond, onTrue, onFalse⟩ | value | name) <;> rfl
  simp only [exprs, mapExprs, hterm, List.map_map, List.map_append]
  rfl

theorem folded_eq_mapExprs (b : Block) : b.folded = b.mapExprs fun e => e.fold.1 := by
  have hterm : b.term.map (fun t => t.fold.1) =
      b.term.map (Terminator.mapExprs fun e => e.fold.1) := by
    rcases b.term with _ | (target | ⟨cond, onTrue, onFalse⟩ | value | name) <;> rfl
  rw [folded, mapExprs, hterm]

/-- The count of a block is the sum of the counts of its expressions. -/
theorem foldCount_eq (b : Block) : b.foldCount = Expr.total (fun e => e.fold.2) b.exprs := by
  have hstores : (b.stores.map fun s => s.value.fold.2).foldr (· + ·) 0 =
      Expr.total (fun e => e.fold.2) (b.stores.map Store.value) := by
    rw [Expr.total, List.foldr_map, List.foldr_map]
  have hterm : (b.term.map fun t => t.fold.2).getD 0 =
      Expr.total (fun e => e.fold.2) (b.term.toList.flatMap Terminator.exprs) := by
    rcases b.term with _ | (target | ⟨cond, onTrue, onFalse⟩ | value | name) <;> rfl
  rw [exprs, Expr.total_append, ← hstores, ← hterm]
  rfl

theorem mapExprs_mapExprs (f f' : Expr → Expr) (b : Block) :
    (b.mapExprs f).mapExprs f' = b.mapExprs fun e => f' (f e) := by
  have hterm : (b.term.map (Terminator.mapExprs f)).map (Terminator.mapExprs f') =
      b.term.map (Terminator.mapExprs fun e => f' (f e)) := by
    rcases b.term with _ | (target | ⟨cond, onTrue, onFalse⟩ | value | name) <;> rfl
  simp only [mapExprs, hterm, List.map_map]
  rfl

/-- Replacing every expression by itself changes nothing. -/
theorem mapExprs_eq_self {f : Expr → Expr} {b : Block} (h : ∀ e ∈ b.exprs, f e = e) :
    b.mapExprs f = b := by
  rw [exprs, List.forall_mem_append] at h
  have hstores : b.stores.map (fun s => (⟨s.name, f s.value⟩ : Store)) = b.stores := by
    refine (List.map_congr_left fun s hs => ?_).trans (List.map_id _)
    rw [h.1 s.value (List.mem_map_of_mem hs)]
    rfl
  have hterm : b.term.map (Terminator.mapExprs f) = b.term := by
    replace h := h.2
    revert h
    rcases b.term with _ | (target | ⟨cond, onTrue, onFalse⟩ | value | name) <;>
      simp [Terminator.exprs, Terminator.mapExprs]
  rw [mapExprs, hstores, hterm]

theorem successors_mapExprs (f : Expr → Expr) (b : Block) :
    (b.mapExprs f).successors = b.successors := by
  unfold successors mapExprs
  rcases b.term with _ | (target | ⟨cond, onTrue, onFalse⟩ | value | name) <;> rfl

end Block

namespace Graph

/-- The expressions of a graph, block by block. -/
def exprs (g : Graph) : List Expr :=
  g.blocks.toList.flatMap Block.exprs

/-- The graph with its expressions replaced, and nothing else. -/
def mapExprs (f : Expr → Expr) (g : Graph) : Graph :=
  { g with blocks := g.blocks.map (Block.mapExprs f) }

/-- The number of operations in a graph. -/
def operations (g : Graph) : Nat :=
  (g.exprs.flatMap Expr.parts).countP Expr.isOperation

/-- No operation on constants that has a value is left in the graph, at any depth. -/
def IsFolded (g : Graph) : Prop :=
  ∀ e ∈ g.exprs, ∀ part ∈ e.parts, part.foldable = false

variable (f : Expr → Expr) (g : Graph)

theorem exprs_mapExprs : (g.mapExprs f).exprs = g.exprs.map f := by
  simp only [exprs, mapExprs, Array.toList_map, List.flatMap_map, List.map_flatMap,
    Block.exprs_mapExprs]

theorem mapExprs_mapExprs (f' : Expr → Expr) :
    (g.mapExprs f).mapExprs f' = g.mapExprs fun e => f' (f e) := by
  simp only [mapExprs, Array.map_map]
  refine congrArg (Graph.mk g.vars) (congrArg (Array.map · g.blocks) (funext fun b => ?_))
  exact b.mapExprs_mapExprs f f'

/-- **Folding a graph is folding its expressions.** -/
theorem folded_eq_mapExprs : g.folded = g.mapExprs fun e => e.fold.1 := by
  rw [folded, mapExprs]
  exact congrArg (fun h => Graph.mk g.vars (Array.map h g.blocks))
    (funext Block.folded_eq_mapExprs)

theorem foldCount_eq : g.foldCount = Expr.total (fun e => e.fold.2) g.exprs := by
  have hblocks : ∀ blocks : List Block, (blocks.map Block.foldCount).foldr (· + ·) 0 =
      Expr.total (fun e => e.fold.2) (blocks.flatMap Block.exprs) := by
    intro blocks
    induction blocks with
    | nil => rfl
    | cons b rest ih =>
      rw [List.map_cons, List.foldr_cons, ih, Block.foldCount_eq, List.flatMap_cons,
        Expr.total_append]
  exact hblocks g.blocks.toList

/-- Replacing every expression by one with as many operations, less a number that is counted, takes
the numbers counted from the operations of the graph. -/
theorem operations_mapExprs (count : Expr → Nat)
    (h : ∀ e, (f e).operations + count e = e.operations) :
    (g.mapExprs f).operations + Expr.total count g.exprs = g.operations := by
  rw [operations, operations, exprs_mapExprs]
  induction g.exprs with
  | nil => rfl
  | cons e rest ih =>
    have hfirst := h e
    unfold Expr.operations at hfirst
    simp only [List.map_cons, List.flatMap_cons, List.countP_append, Expr.total_cons] at ih ⊢
    omega

/-- A graph with nothing to fold is left as it is. -/
theorem IsFolded.folded_eq {g : Graph} (h : g.IsFolded) : g.folded = g ∧ g.foldCount = 0 := by
  have hself : ∀ e ∈ g.exprs, e.fold = (e, 0) := fun e he => Expr.fold_eq_self (h e he)
  constructor
  · have hblocks : g.blocks.map (Block.mapExprs fun e => e.fold.1) = g.blocks := by
      refine (Array.map_congr_left fun b hb => ?_).trans (Array.map_id _)
      refine Block.mapExprs_eq_self fun e he => ?_
      rw [hself e (List.mem_flatMap.mpr ⟨b, Array.mem_def.mp hb, he⟩)]
    rw [folded_eq_mapExprs, mapExprs, hblocks]
  · rw [foldCount_eq]
    refine Expr.total_eq_zero fun e he => ?_
    rw [hself e he]

/-! ### Single assignment form -/

theorem successors_mapExprs (i : Nat) : (g.mapExprs f).successors i = g.successors i := by
  unfold successors mapExprs
  rw [Array.getElem?_map]
  cases g.blocks[i]? with
  | none => rfl
  | some b => exact b.successors_mapExprs f

theorem visit_mapExprs (depth : Nat) : (g.mapExprs f).visit depth = g.visit depth := by
  induction depth with
  | zero => rfl
  | succ depth ih =>
    funext seen i
    rw [visit, visit, successors_mapExprs, ih]

theorem livePlaces_mapExprs : Ssa.livePlaces (g.mapExprs f) = Ssa.livePlaces g := by
  have hsize : (g.mapExprs f).blocks.size = g.blocks.size := Array.size_map
  rw [Ssa.livePlaces, Ssa.livePlaces, reachable, reachable, hsize, visit_mapExprs]

variable {f}

/-- A block is taken over alike if its expressions read the same variables. -/
theorem takeOver_mapExprs (hloads : ∀ e, (f e).loads = e.loads) (vars : List String)
    (places : List Nat) (b : Block) :
    Ssa.takeOver vars places (b.mapExprs f) = Ssa.takeOver vars places b := by
  have huses : ∀ e, Ssa.usesOf (f e) = Ssa.usesOf e := by
    intro e
    rw [Ssa.usesOf, Ssa.usesOf, hloads]
  have hterm : Ssa.terminatorInstrs (b.mapExprs f).term = Ssa.terminatorInstrs b.term := by
    unfold Block.mapExprs
    rcases b.term with _ | (target | ⟨cond, onTrue, onFalse⟩ | value | name) <;>
      simp [Ssa.terminatorInstrs, Terminator.mapExprs, huses]
  have hstores : (b.mapExprs f).stores.map Ssa.storeInstr = b.stores.map Ssa.storeInstr := by
    simp only [Block.mapExprs, List.map_map]
    refine List.map_congr_left fun s _ => ?_
    simp only [Function.comp_apply, Ssa.storeInstr, huses]
  have hinstrs : Ssa.instrsOf vars (b.mapExprs f) = Ssa.instrsOf vars b := by
    rw [Ssa.instrsOf, Ssa.instrsOf, hterm, hstores]
    rfl
  rw [Ssa.takeOver, Ssa.takeOver, hinstrs, Block.successors_mapExprs]
  rfl

/-- **The static single assignment form sees of an expression the variables that it reads,** and
nothing else. -/
theorem toSsa_mapExprs (hloads : ∀ e, (f e).loads = e.loads) : (g.mapExprs f).toSsa = g.toSsa := by
  have hlive : (g.mapExprs f).liveBlocks = g.liveBlocks := by
    rw [liveBlocks, liveBlocks, livePlaces_mapExprs]
    refine congrArg List.toArray (congrArg (List.filterMap · _) (funext fun i => ?_))
    rw [mapExprs, Array.getElem?_map, Option.map_map]
    refine congrArg (Option.map · g.blocks[i]?) (funext fun b => ?_)
    exact takeOver_mapExprs hloads g.vars _ b
  have hempty : (g.mapExprs f).blocks.isEmpty = g.blocks.isEmpty := by
    rw [Bool.eq_iff_iff, Array.isEmpty_iff_size_eq_zero, Array.isEmpty_iff_size_eq_zero, mapExprs,
      Array.size_map]
  rw [toSsa, toSsa, hlive, hempty]
  rfl

/-- **Folding is complete, counts exactly and keeps the shape.**  A folded graph has no operation on
constants left that has a value, in any store, condition or return and at any depth.  The count is
the number of operations that the graph had more before.  Folding once more counts nothing and
changes nothing.  With all expressions taken out, the graph is the graph from before: blocks, their
numbers and labels, what is stored to in which order, branches, predecessors and variables are the
same.  Each expression reads the same variables, from left to right.  So the static single
assignment form is the same, too. -/
theorem folded_exactly (g : Graph) :
    g.folded.IsFolded ∧
    g.folded.operations + g.foldCount = g.operations ∧
    (g.folded.folded = g.folded ∧ g.folded.foldCount = 0) ∧
    g.folded.mapExprs (fun _ => .absent) = g.mapExprs (fun _ => .absent) ∧
    g.folded.exprs.map Expr.loads = g.exprs.map Expr.loads ∧
    g.folded.toSsa = g.toSsa := by
  have hfolded : g.folded.IsFolded := by
    intro e he
    rw [folded_eq_mapExprs, exprs_mapExprs] at he
    obtain ⟨e, _, rfl⟩ := List.mem_map.mp he
    exact e.foldable_fold
  refine ⟨hfolded, ?_, hfolded.folded_eq, ?_, ?_, ?_⟩
  · rw [folded_eq_mapExprs, foldCount_eq]
    exact g.operations_mapExprs _ _ Expr.operations_fold
  · rw [folded_eq_mapExprs, mapExprs_mapExprs]
  · rw [folded_eq_mapExprs, exprs_mapExprs, List.map_map]
    exact List.map_congr_left fun e _ => e.loads_fold
  · rw [folded_eq_mapExprs]
    exact g.toSsa_mapExprs Expr.loads_fold

end Graph

end BlockFlow
