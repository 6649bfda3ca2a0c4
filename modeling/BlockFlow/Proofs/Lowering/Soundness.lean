import BlockFlow.Proofs.Lowering.Regularity

/-!
# Lowered graphs are sound

A graph is sound when a machine finds in it whatever it looks for: branches lead to blocks, no
expression is missing, operators and terminators belong to the language, and all variables have a
place (`Graph.Sound`).  Whatever tree is lowered, the graph that comes out is sound
(`Graph.sound_of_lower`).

Lowering changes a graph by three operations only.  The traversal of the tree is done once, for any
property that these operations keep (`Lowering.Invariant.lower`).
-/

namespace BlockFlow

/-! ### What a machine can execute -/

/-- The expression can be evaluated: nothing is missing in it, its operators belong to the language,
and the variables that it reads are among the given ones. -/
def Expr.Sound (vars : List String) : Expr → Prop
  | const _ => True
  | load name => name ∈ vars
  | binary op left right => (∀ code, op ≠ .other code) ∧ left.Sound vars ∧ right.Sound vars
  | absent => False

/-- The terminator belongs to the language, and its expression can be evaluated. -/
def Terminator.Sound (vars : List String) : Terminator → Prop
  | jump _ => True
  | branch test _ _ => test.Sound vars
  | ret value => value.Sound vars
  | other _ => False

/-- The variable that a store changes is among the given ones, and its value can be evaluated. -/
structure Store.Sound (vars : List String) (s : Store) : Prop where
  name_mem : s.name ∈ vars
  value : s.value.Sound vars

/-- The stores and the terminator of a block can be carried out. -/
structure Block.Sound (vars : List String) (b : Block) : Prop where
  stores : ∀ s ∈ b.stores, s.Sound vars
  term : ∀ t, b.term = some t → t.Sound vars

/-- There is an entry, branches lead to blocks, and all blocks can be executed. -/
structure Graph.Sound (g : Graph) : Prop where
  nonempty : 0 < g.blocks.size
  targets : g.TargetsInRange
  block : ∀ {i : Nat} {b : Block}, g.blocks[i]? = some b → b.Sound g.vars

/-! ### Steps that may give up -/

/-- If what is done results in something, then in something that has the property. -/
def Yields {α : Type} (x : Except LowerError α) (P : α → Prop) : Prop :=
  ∀ a, x = .ok a → P a

namespace Yields

variable {α β : Type} {x : Except LowerError α} {f : α → Except LowerError β} {P : α → Prop}
  {Q : β → Prop}

theorem bind (h : Yields x P) (hf : ∀ a, P a → Yields (f a) Q) : Yields (x >>= f) Q := by
  intro b hb
  obtain ⟨a, ha, hb⟩ := exists_of_bind_eq_ok hb
  exact hf a (h a ha) b hb

theorem ok {a : α} (h : P a) : Yields (.ok a) P := by
  intro a' ha'
  cases ha'
  exact h

theorem error (e : LowerError) : Yields (.error e) P :=
  nofun

end Yields

namespace Node

variable {vars : List String}

theorem yields_toVariable (n : Node) : Yields (n.toVariable vars) (· ∈ vars) := by
  intro name hname
  exact mem_of_toVariable hname

theorem yields_toOp (n : Node) : Yields n.toOp fun op => ∀ code, op ≠ .other code := by
  unfold toOp
  split
  · split
    · rename_i symbol _ op hop
      refine .ok fun code hcode => ?_
      subst hcode
      unfold Op.ofSymbol? at hop
      split at hop
      all_goals cases hop
    · exact .error _
  · exact .error _

/-- **An expression that a tree stands for can be evaluated.** -/
theorem yields_toExpr (n : Node) : Yields (n.toExpr vars) (Expr.Sound vars) := by
  fun_induction toExpr vars n with
  | case1 => exact .error _
  | case2 =>
    intro e he
    obtain ⟨name, hname, rfl⟩ := exists_of_map_eq_ok he
    exact mem_of_toVariable hname
  | case3 => exact .ok trivial
  | case4 => exact .error _
  | case5 _ _ left _ _ _ operator right ihLeft ihRight =>
    refine ihLeft.bind fun l hl => operator.yields_toOp.bind fun op hop => ?_
    exact ihRight.bind fun r hr => .ok ⟨hop, hl, hr⟩
  | case6 _ _ operand _ _ _ ih => exact ih
  | case7 => exact .error _

end Node

/-! ### What the operations keep -/

namespace Lowering

/-- The three operations of lowering keep a property of graphs, as long as they put in what can be
executed. -/
structure Invariant (vars : List String) (P : Graph → Prop) : Prop where
  addBlock : ∀ {g : Graph} (label : String), P g → P (g.addBlock label).2
  addStore : ∀ {g : Graph} (i : Nat) {s : Store}, s.Sound vars → P g → P (g.addStore i s)
  terminate : ∀ {g g' : Graph} {i : Nat} {t : Terminator}, t.Sound vars →
    g.terminate i t = .ok g' → P g → P g'

namespace Invariant

variable {vars : List String} {P : Graph → Prop}

theorem yields_terminate (h : Invariant vars P) {g : Graph} (i : Nat) {t : Terminator}
    (ht : t.Sound vars) (hg : P g) : Yields (g.terminate i t) P :=
  fun _ hg' => h.terminate ht hg' hg

theorem yields_join (h : Invariant vars P) {g : Graph} (tip : Option Tip) (target : Nat)
    (hg : P g) : Yields (join g tip target) P := by
  cases tip with
  | none => exact .ok hg
  | some tip => exact h.yields_terminate tip.block (t := .jump target) trivial hg

theorem yields_fillBlock (h : Invariant vars P) (i : Nat) (statements : List Node) :
    ∀ {g : Graph}, P g → Yields (fillBlock vars i g statements) fun result => P result.2 := by
  induction statements with
  | nil => exact fun hg => .ok hg
  | cons s rest ih =>
    intro g hg
    unfold fillBlock
    split
    · split
      · rename_i target value hchildren
        split
        · refine value.yields_toExpr.bind fun e he => ?_
          refine target.yields_toVariable.bind fun name hname => ?_
          exact ih (h.addStore i ⟨hname, he⟩ hg)
        · exact .error _
      · exact .error _
    · split
      · rename_i value hchildren
        refine value.yields_toExpr.bind fun e he => ?_
        exact (h.yields_terminate i (t := .ret e) he hg).bind fun g' hg' => .ok hg'
      · exact .error _
    · exact .error _

theorem yields_lowerBlock (h : Invariant vars P) (tip : Tip) {g : Graph} (hg : P g)
    (statements : List Node) :
    Yields (lowerBlock vars tip g statements) fun result => P result.2 := by
  have hopen : Yields (openBlock g tip) fun result => P result.2 := by
    unfold openBlock
    split
    · exact .ok hg
    · exact (h.yields_terminate tip.block (t := .jump _) trivial (h.addBlock "bb" hg)).bind
        fun g' hg' => .ok hg'
  exact hopen.bind fun result hresult => h.yields_fillBlock result.1 statements hresult

/-- **Lowering keeps the property,** whatever the tree is. -/
theorem yields_lowering (h : Invariant vars P) :
    (∀ n tip g, P g → Yields (lowerStatement vars tip g n) fun result => P result.2) ∧
    (∀ n tip g, P g → Yields (lowerBody vars tip g n) fun result => P result.2) ∧
    ∀ nodes tip g, P g → Yields (lowerSequence vars tip g nodes) fun result => P result.2 := by
  refine Node.lowering_induct ?straight ?cond ?loop ?misfit ?body ?noBody ?nil ?cons
  case straight =>
    intro n statements hstraight tip g hg
    rw [lowerStatement_of_straight hstraight]
    exact h.yields_lowerBlock tip hg statements
  case cond =>
    intro id token test thenBody elseBody hthenBody helseBody tip g hg
    rw [lowerStatement]
    refine (h.yields_terminate tip.block (t := .jump _) trivial
      (h.addBlock "if.cond" hg)).bind fun g₁ h₁ => ?_
    refine test.yields_toExpr.bind fun e he => ?_
    have hblocks := h.addBlock "if.else" (h.addBlock "if.then" h₁)
    refine (h.yields_terminate _ (t := .branch e _ _) he hblocks).bind fun g₂ h₂ => ?_
    refine (hthenBody _ _ h₂).bind fun r₃ h₃ => ?_
    refine (helseBody _ _ h₃).bind fun r₄ h₄ => ?_
    refine (h.yields_join _ _ (h.addBlock "if.end" h₄)).bind fun g₅ h₅ => ?_
    exact (h.yields_join _ _ h₅).bind fun g₆ h₆ => .ok h₆
  case loop =>
    intro id token test body hbody tip g hg
    rw [lowerStatement]
    refine (h.yields_terminate tip.block (t := .jump _) trivial
      (h.addBlock "while.cond" hg)).bind fun g₁ h₁ => ?_
    refine test.yields_toExpr.bind fun e he => ?_
    have hblocks := h.addBlock "while.end" (h.addBlock "while.body" h₁)
    refine (h.yields_terminate _ (t := .branch e _ _) he hblocks).bind fun g₂ h₂ => ?_
    refine (hbody _ _ h₂).bind fun r₃ h₃ => ?_
    exact (h.yields_join _ _ h₃).bind fun g₄ h₄ => .ok h₄
  case misfit =>
    intro n fault hmisfit tip g _
    rw [lowerStatement_of_misfit hmisfit]
    exact .error _
  case body =>
    intro n hrule hsequence tip g hg
    rw [lowerBody_of_sequence hrule]
    exact hsequence tip g hg
  case noBody =>
    intro n hrule tip g _
    rw [lowerBody_of_ne hrule]
    exact .error _
  case nil =>
    intro tip g hg
    rw [lowerSequence]
    exact .ok hg
  case cons =>
    intro s rest hs hrest tip g hg
    rw [lowerSequence]
    refine (hs tip g hg).bind fun result hresult => ?_
    obtain ⟨tip', g'⟩ := result
    cases tip' with
    | none => exact .ok hresult
    | some tip' => exact hrest tip' g' hresult

/-- **What the operations keep holds of every lowered graph,** if it holds of the entry alone. -/
theorem lower (h : Invariant vars P) (hentry : P (.entryOnly vars)) {root : Node} {g : Graph}
    (hg : Graph.lower vars root = .ok g) : P g := by
  have hlower : Yields (Graph.lower vars root) P := by
    unfold Graph.lower
    split
    · exact (h.yields_lowering.2.2 root.children _ _ hentry).bind fun result hresult => .ok hresult
    · exact .error _
  exact hlower g hg

end Invariant

end Lowering

/-! ### Soundness -/

namespace Graph

/-- The operations of lowering put in what can be executed, and what is there stays. -/
theorem invariant_sound (vars : List String) :
    Lowering.Invariant vars fun g =>
      ∀ (i : Nat) (b : Block), g.blocks[i]? = some b → b.Sound vars where
  addBlock {g} label hg i b hb := by
    rw [getElem?_addBlock] at hb
    split at hb
    · cases hb
      exact ⟨nofun, nofun⟩
    · exact hg i b hb
  addStore {g} i {s} hs hg j b hb := by
    rw [getElem?_addStore] at hb
    split at hb
    · obtain ⟨b', hb', rfl⟩ := Option.map_eq_some_iff.mp hb
      have hsound := hg j b' hb'
      refine ⟨fun s' hs' => ?_, hsound.term⟩
      rcases List.mem_append.mp hs' with hs' | hs'
      · exact hsound.stores s' hs'
      · rw [List.mem_singleton.mp hs']
        exact hs
    · exact hg j b hb
  terminate {g g' i t} ht hg' hg j b hb := by
    rw [getElem?_of_terminate hg'] at hb
    obtain ⟨b', hb', rfl⟩ := Option.map_eq_some_iff.mp hb
    have hsound := hg j b' hb'
    refine ⟨hsound.stores, fun t' ht' => ?_⟩
    unfold Block.noted at ht'
    dsimp only at ht'
    split at ht'
    · cases ht'
      exact ht
    · exact hsound.term t' ht'

/-- **Lowered graphs are sound,** whatever the tree and the variables are. -/
theorem sound_of_lower {vars : List String} {root : Node} {g : Graph}
    (hg : lower vars root = .ok g) : g.Sound ∧ g.vars = vars := by
  have hregular : g.Regular vars := by
    have hlower := safely_lower vars root
    rwa [hg] at hlower
  have hentry : ∀ (i : Nat) (b : Block), (entryOnly vars).blocks[i]? = some b → b.Sound vars := by
    intro i b hb
    cases i with
    | zero =>
      cases hb
      exact ⟨nofun, nofun⟩
    | succ i => cases hb
  have hblocks := (invariant_sound vars).lower hentry hg
  refine ⟨⟨hregular.size_pos, hregular.targets, fun {i b} hb => ?_⟩, hregular.vars_eq⟩
  rw [hregular.vars_eq]
  exact hblocks i b hb

end Graph

end BlockFlow
