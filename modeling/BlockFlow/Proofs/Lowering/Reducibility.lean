import BlockFlow.Proofs.Lowering.Soundness
import BlockFlow.Proofs.Tree.Leaves
import Mathlib.Data.List.Cycle

/-!
# Lowered control flow is reducible

Control flow goes back only to the test of a loop, and only from within that loop, which it cannot
have entered but by the test (`Graph.lower_reducible`).  So every cycle of a lowered graph passes
the test of a loop, and the graph of a tree without loops has none.

Blocks are not numbered in the order in which control comes to them: the block behind a loop is made
before those of the body, and the one behind a conditional after those of both arms.  What lowering
knows of a branch is therefore said of the blocks that were there when it was made.  A branch that
lowering some statement adds leads to a block that is made for the statement, and comes from such a
block or from the one where control stood before (`Graph.Grown`).  Where it leads back, some blocks
are closed off by its target: all branches into them come from them or from the target
(`Graph.Guarded`).  Whatever is lowered later adds no branch to them.
-/

namespace BlockFlow

namespace Graph

variable {g g' g'' : Graph} {i u v x y : Nat}

/-! ### Branches that are added -/

theorem lt_size_of_mem_successors (h : y ∈ g.successors x) : x < g.blocks.size := by
  by_contra hx
  unfold successors at h
  rw [Array.getElem?_eq_none (Nat.le_of_not_lt hx)] at h
  cases h

/-- The second graph has the blocks of the first one, with their labels, and all its branches, as
far as they are not those of the first one, are of a given kind. -/
structure Adds (g : Graph) (kind : Nat → Nat → Prop) (g' : Graph) : Prop where
  label : ∀ {j : Nat} {b : Block}, g.blocks[j]? = some b →
    ∃ b', g'.blocks[j]? = some b' ∧ b'.label = b.label
  branch : ∀ {x y : Nat}, y ∈ g'.successors x → y ∈ g.successors x ∨ kind x y

namespace Adds

variable {kind kind' : Nat → Nat → Prop}

theorem refl (g : Graph) (kind : Nat → Nat → Prop) : g.Adds kind g :=
  ⟨fun {_ b} hb => ⟨b, hb, rfl⟩, .inl⟩

theorem imp (h : g.Adds kind g') (hkind : ∀ x y, kind x y → kind' x y) : g.Adds kind' g' :=
  ⟨h.label, fun hy => (h.branch hy).imp_right (hkind _ _)⟩

theorem trans (h : g.Adds kind g') (h' : g'.Adds kind g'') : g.Adds kind g'' where
  label {j b} hb := by
    obtain ⟨b', hb', hlabel⟩ := h.label hb
    obtain ⟨b'', hb'', hlabel'⟩ := h'.label hb'
    exact ⟨b'', hb'', hlabel'.trans hlabel⟩
  branch hy := (h'.branch hy).elim h.branch .inr

theorem size_le (h : g.Adds kind g') : g.blocks.size ≤ g'.blocks.size := by
  by_contra hlt
  obtain ⟨b, hb, -⟩ := h.label (Array.getElem?_eq_getElem (Nat.lt_of_not_le hlt))
  have hlt' := (Array.getElem?_eq_some_iff.mp hb).1
  omega

end Adds

theorem adds_addBlock (g : Graph) (label : String) (kind : Nat → Nat → Prop) :
    g.Adds kind (g.addBlock label).2 where
  label {j b} hb := by
    have hlt := (Array.getElem?_eq_some_iff.mp hb).1
    exact ⟨b, by rw [getElem?_addBlock, if_neg (by omega), hb], rfl⟩
  branch {x y} hy := by
    rw [successors_addBlock] at hy
    exact .inl hy

theorem adds_addStore (g : Graph) (i : Nat) (s : Store) (kind : Nat → Nat → Prop) :
    g.Adds kind (g.addStore i s) where
  label {j b} hb := by
    rw [getElem?_addStore, hb]
    split
    · exact ⟨_, rfl, rfl⟩
    · exact ⟨b, rfl, rfl⟩
  branch {x y} hy := by
    rw [successors_addStore] at hy
    exact .inl hy

/-- Ending a block adds the branches of the terminator. -/
theorem adds_terminate {t : Terminator} (h : g.terminate i t = .ok g') :
    g.Adds (fun x y => x = i ∧ y ∈ t.successors) g' where
  label {j b} hb := ⟨b.noted i t j, by rw [getElem?_of_terminate h, hb]; rfl, rfl⟩
  branch {x y} hy := by
    unfold successors at hy ⊢
    rw [getElem?_of_terminate h] at hy
    cases hx : g.blocks[x]? with
    | none =>
      rw [hx] at hy
      cases hy
    | some b =>
      rw [hx] at hy
      by_cases hi : i = x
      · right
        simpa [Block.noted, Block.successors, hi] using hy
      · left
        simpa [Block.noted, Block.successors, hi] using hy

theorem size_of_terminate {t : Terminator} (h : g.terminate i t = .ok g') :
    g'.blocks.size = g.blocks.size :=
  size_eq_of_noted (getElem?_of_terminate h)

theorem size_addBlock (g : Graph) (label : String) :
    (g.addBlock label).2.blocks.size = g.blocks.size + 1 :=
  Array.size_push _

/-! ### Branches that lead back -/

/-- A branch leads back to the test of a loop, and comes from blocks that can only be entered from
there: all branches into them come from one of them or from the test. -/
structure Guarded (g : Graph) (u v : Nat) : Prop where
  label : ∃ b, g.blocks[v]? = some b ∧ b.label = "while.cond"
  inside : ∃ body : Nat → Prop, body u ∧ (∀ x, body x → v < x ∧ x < g.blocks.size) ∧
    ∀ x y, y ∈ g.successors x → body y → body x ∨ x = v

/-- **No branch is added to the inside of a loop** by what makes branches to other blocks only. -/
theorem Guarded.mono {kind : Nat → Nat → Prop} (h : g.Guarded u v) (hadds : g.Adds kind g')
    (hkind : ∀ x y, kind x y → y ≤ v ∨ g.blocks.size ≤ y) : g'.Guarded u v := by
  obtain ⟨⟨b, hb, hlabel⟩, body, hu, hrange, hclosed⟩ := h
  obtain ⟨b', hb', hlabel'⟩ := hadds.label hb
  refine ⟨⟨b', hb', hlabel'.trans hlabel⟩, body, hu, fun x hx => ?_, fun x y hy hbody => ?_⟩
  · have hsize := hadds.size_le
    have hx := hrange x hx
    omega
  · rcases hadds.branch hy with hold | hnew
    · exact hclosed x y hold hbody
    · -- A new branch leads out of the range in which the inside of the loop lies.
      have hy := hrange y hbody
      have hy' := hkind x y hnew
      omega

/-- **The inside of a loop is entered by its test,** whatever way control takes. -/
theorem Guarded.mem_passed (h : g.Guarded u v) {passed : List Nat} (hroute : g.Route passed u) :
    v ∈ passed := by
  obtain ⟨-, body, hu, hrange, hclosed⟩ := h
  induction hroute with
  | entry =>
    -- The entry has the lowest number, so it is inside of no loop.
    have hlt := (hrange 0 hu).1
    omega
  | @step passed b c hroute hc ih =>
    rcases hclosed b c hc hu with hb | rfl
    · exact List.mem_append_left [b] (ih hb)
    · exact List.mem_append_right passed (List.mem_singleton.mpr rfl)

/-- A branch that comes with blocks that are added: it leads to one of them, comes from one of them
or from one of the given sources, and where it leads back it closes a loop. -/
structure Comes (looping : Prop) (source : Nat → Prop) (g g' : Graph) (x y : Nat) : Prop where
  target_ge : g.blocks.size ≤ y
  target_lt : y < g'.blocks.size
  source : source x ∨ g.blocks.size ≤ x
  back : y ≤ x → looping ∧ g'.Guarded x y

/-- What makes branches to other blocks only, be they new or not behind the target, leaves a branch
what it is. -/
theorem Comes.mono {looping : Prop} {source : Nat → Prop} {kind : Nat → Nat → Prop}
    (h : g.Comes looping source g' x y) (hadds : g'.Adds kind g'')
    (hkind : ∀ u v, kind u v → v ≤ y ∨ g'.blocks.size ≤ v) : g.Comes looping source g'' x y where
  target_ge := h.target_ge
  target_lt := Nat.lt_of_lt_of_le h.target_lt hadds.size_le
  source := h.source
  back hback := by
    obtain ⟨hloop, hguarded⟩ := h.back hback
    exact ⟨hloop, hguarded.mono hadds hkind⟩

/-- The second graph is the first one with blocks added, which control comes to from the given
sources. -/
def Grown (looping : Prop) (source : Nat → Prop) (g g' : Graph) : Prop :=
  g.Adds (g.Comes looping source g') g'

namespace Grown

variable {looping : Prop} {source source' : Nat → Prop}

theorem refl (g : Graph) : g.Grown looping source g :=
  Adds.refl g _

/-- Branches from old blocks to new ones lead forth. -/
theorem of_forth (h : g.Adds (fun x y =>
    source x ∧ x < g.blocks.size ∧ g.blocks.size ≤ y ∧ y < g'.blocks.size) g') :
    g.Grown looping source g' := by
  refine h.imp fun x y hkind => ?_
  obtain ⟨hx, hold, hnew, hlt⟩ := hkind
  exact ⟨hnew, hlt, .inl hx, fun hback => by omega⟩

/-- **What is lowered one after the other adds up,** as long as the later sources are earlier ones
or have been added. -/
theorem trans (h : g.Grown looping source g') (h' : g'.Grown looping source' g'')
    (hsource : ∀ x, source' x → source x ∨ g.blocks.size ≤ x) :
    g.Grown looping source g'' := by
  have hsize := Adds.size_le h
  refine Adds.trans (h.imp fun x y hxy => ?_) (h'.imp fun x y hxy => ?_)
  · exact hxy.mono h' fun _ _ hnew => .inr hnew.target_ge
  · refine ⟨Nat.le_trans hsize hxy.target_ge, hxy.target_lt, ?_, hxy.back⟩
    rcases hxy.source with hx | hx
    · exact hsource x hx
    · exact .inr (Nat.le_trans hsize hx)

theorem targetsInRange (h : g.Grown looping source g') (hg : g.TargetsInRange) :
    g'.TargetsInRange := by
  intro x y hy
  rcases h.branch hy with hold | hnew
  · exact Nat.lt_of_lt_of_le (hg x y hold) (Adds.size_le h)
  · exact hnew.target_lt

end Grown

/-- Control goes on from a block to a new one, and from there to one of the next two. -/
def Opens (g : Graph) (i : Nat) (g' : Graph) : Prop :=
  g'.blocks.size = g.blocks.size + 3 ∧
    g.Adds (fun x y => x = i ∧ y = g.blocks.size ∨
      x = g.blocks.size ∧ (y = g.blocks.size + 1 ∨ y = g.blocks.size + 2)) g'

theorem Opens.grown {looping : Prop} (h : g.Opens i g') (hi : i < g.blocks.size) :
    g.Grown looping (· = i) g' := by
  obtain ⟨hsize, hadds⟩ := h
  refine hadds.imp fun x y hxy => ⟨?_, ?_, ?_, fun hback => ?_⟩
  all_goals omega

section Loop

variable {looping : Prop} {opened filled closed : Graph} {ends : List Nat}

/-- **A loop closes off its body.**  Before the body is lowered, control goes from the test to it or
behind the loop; then it goes back from the ends of the body to the test. -/
theorem guarded_of_loop (hg : g.TargetsInRange) (hopen : g.Opens i opened)
    (htest : ∃ b, opened.blocks[g.blocks.size]? = some b ∧ b.label = "while.cond")
    (hbody : opened.Grown looping (· = g.blocks.size + 1) filled)
    (hclose : filled.Adds (fun x y => x ∈ ends ∧ y = g.blocks.size) closed)
    (hlt : u < filled.blocks.size) (hu : u = g.blocks.size + 1 ∨ opened.blocks.size ≤ u) :
    closed.Guarded u g.blocks.size := by
  obtain ⟨hsize, hopen⟩ := hopen
  have hle := hclose.size_le
  constructor
  · obtain ⟨b, hb, hlabel⟩ := htest
    obtain ⟨b₁, hb₁, hlabel₁⟩ := hbody.label hb
    obtain ⟨b₂, hb₂, hlabel₂⟩ := hclose.label hb₁
    exact ⟨b₂, hb₂, hlabel₂.trans (hlabel₁.trans hlabel)⟩
  · -- Inside is all that has been made behind the test, except for the block behind the loop.
    refine ⟨fun x => g.blocks.size < x ∧ x < closed.blocks.size ∧ x ≠ g.blocks.size + 2, by omega,
      fun x hx => ⟨hx.1, hx.2.1⟩, fun x y hy hinside => ?_⟩
    have hx := lt_size_of_mem_successors hy
    rcases hclose.branch hy with hy | ⟨-, hy⟩
    · rcases hbody.branch hy with hy | hnew
      · rcases hopen.branch hy with hy | hy
        · have hold := hg x y hy
          omega
        · omega
      · have hsource := hnew.source
        omega
    · omega

theorem Grown.loop (hlooping : looping) (hg : g.TargetsInRange) (hi : i < g.blocks.size)
    (hopen : g.Opens i opened)
    (htest : ∃ b, opened.blocks[g.blocks.size]? = some b ∧ b.label = "while.cond")
    (hbody : opened.Grown looping (· = g.blocks.size + 1) filled)
    (hends : ∀ x ∈ ends,
      x < filled.blocks.size ∧ (x = g.blocks.size + 1 ∨ opened.blocks.size ≤ x))
    (hclose : filled.Adds (fun x y => x ∈ ends ∧ y = g.blocks.size) closed) :
    g.Grown looping (· = i) closed := by
  have hsize := hopen.1
  have hle := Adds.size_le hbody
  have hle' := hclose.size_le
  have hfilled : g.Grown looping (· = i) filled :=
    (hopen.grown hi).trans hbody fun x hx => .inr (by omega)
  refine Adds.trans (hfilled.imp fun x y hxy => ?_) (hclose.imp fun x y hxy => ?_)
  · -- The test comes before all that the body added, so it is inside of no loop in the body.
    exact hxy.mono hclose fun _ _ hnew => .inl (hnew.2 ▸ hxy.target_ge)
  · obtain ⟨hx, rfl⟩ := hxy
    obtain ⟨hlt, hplace⟩ := hends x hx
    refine ⟨Nat.le_refl _, by omega, .inr (by omega), fun _ => ⟨hlooping, ?_⟩⟩
    exact guarded_of_loop hg hopen htest hbody hclose hlt hplace

end Loop

end Graph

/-! ### What lowering adds -/

namespace Lowering

variable {vars : List String} {g g' : Graph} {i : Nat} {looping : Prop}

theorem yields_extend (g : Graph) (i : Nat) (label : String) :
    Yields ((g.addBlock label).2.terminate i (.jump g.blocks.size)) fun g' =>
      g.Adds (fun x y => x = i ∧ y = g.blocks.size) g' ∧ g'.blocks.size = g.blocks.size + 1 ∧
        ∃ b, g'.blocks[g.blocks.size]? = some b ∧ b.label = label := by
  intro g' hg'
  have hadds := Graph.adds_terminate hg'
  refine ⟨(g.adds_addBlock label _).trans (hadds.imp fun x y hxy => ?_), ?_, ?_⟩
  · exact ⟨hxy.1, List.mem_singleton.mp hxy.2⟩
  · rw [Graph.size_of_terminate hg', Graph.size_addBlock]
  · exact hadds.label (by rw [Graph.getElem?_addBlock, if_pos rfl])

theorem yields_branch (g : Graph) (i : Nat) (e : Expr) (onTrue onFalse : String) :
    Yields (((g.addBlock onTrue).2.addBlock onFalse).2.terminate i
        (.branch e g.blocks.size (g.addBlock onTrue).2.blocks.size)) fun g' =>
      g.Adds (fun x y => x = i ∧ (y = g.blocks.size ∨ y = g.blocks.size + 1)) g' ∧
        g'.blocks.size = g.blocks.size + 2 := by
  intro g' hg'
  refine ⟨(g.adds_addBlock onTrue _).trans (((g.addBlock onTrue).2.adds_addBlock onFalse _).trans
    ((Graph.adds_terminate hg').imp fun x y hxy => ?_)), ?_⟩
  · rw [Terminator.successors, List.mem_pair, Graph.size_addBlock] at hxy
    exact hxy
  · rw [Graph.size_of_terminate hg', Graph.size_addBlock, Graph.size_addBlock]

theorem yields_join (g : Graph) (tip : Option Tip) (target : Nat) :
    Yields (join g tip target) fun g' =>
      g.Adds (fun x y => x ∈ standing tip ∧ y = target) g' ∧
        g'.blocks.size = g.blocks.size := by
  cases tip with
  | none => exact .ok ⟨.refl g _, rfl⟩
  | some tip =>
    intro g' hg'
    refine ⟨(Graph.adds_terminate hg').imp fun x y hxy => ?_, Graph.size_of_terminate hg'⟩
    exact ⟨List.mem_singleton.mpr hxy.1, List.mem_singleton.mp hxy.2⟩

/-- Lowering has added blocks that control comes to from where it stood, and it stands there still
or in one of them. -/
structure Lowered (looping : Prop) (start : Nat) (g : Graph) (result : Option Tip × Graph) :
    Prop where
  grown : g.Grown looping (· = start) result.2
  standing : ∀ x ∈ standing result.1,
    x < result.2.blocks.size ∧ (x = start ∨ g.blocks.size ≤ x)

theorem Lowered.of_grown {start start' : Nat} {result : Option Tip × Graph}
    (h : g.Grown looping (· = start) g') (hstart : start' = start ∨ g.blocks.size ≤ start')
    (hresult : Lowered looping start' g' result) : Lowered looping start g result where
  grown := h.trans hresult.grown fun x hx => hx ▸ hstart
  standing x hx := by
    have hsize := Graph.Adds.size_le h
    have hx := hresult.standing x hx
    omega

theorem yields_of_grown {start start' : Nat} {x : Except LowerError (Option Tip × Graph)}
    (h : g.Grown looping (· = start) g') (hstart : start' = start ∨ g.blocks.size ≤ start')
    (hx : Yields x (Lowered looping start' g')) : Yields x (Lowered looping start g) :=
  fun result hresult => .of_grown h hstart (hx result hresult)

/-- Filling a block adds no branch. -/
theorem yields_fillBlock (i : Nat) (statements : List Node) : ∀ {g : Graph}, i < g.blocks.size →
    Yields (fillBlock vars i g statements) (Lowered looping i g) := by
  induction statements with
  | nil =>
    intro g hi
    refine .ok ⟨.refl g, fun x hx => ?_⟩
    rw [List.mem_singleton.mp hx]
    exact ⟨hi, .inl rfl⟩
  | cons s rest ih =>
    intro g hi
    unfold fillBlock
    split
    · split
      · rename_i target value hchildren
        split
        · refine value.yields_toExpr.bind fun e _ => ?_
          refine target.yields_toVariable.bind fun name _ => ?_
          have hgrown : g.Grown looping (· = i) (g.addStore i ⟨name, e⟩) := g.adds_addStore i _ _
          have hi' : i < (g.addStore i ⟨name, e⟩).blocks.size :=
            Nat.lt_of_lt_of_le hi (Graph.Adds.size_le hgrown)
          exact yields_of_grown hgrown (.inl rfl) (ih hi')
        · exact .error _
      · exact .error _
    · split
      · rename_i value hchildren
        refine value.yields_toExpr.bind fun e _ => ?_
        have hterminate : Yields (g.terminate i (.ret e)) (g.Grown looping (· = i)) :=
          fun g' hg' => (Graph.adds_terminate hg').imp fun x y hxy => (by cases hxy.2)
        exact hterminate.bind fun g' hg' => .ok ⟨hg', fun x hx => absurd hx List.not_mem_nil⟩
      · exact .error _
    · exact .error _

theorem yields_lowerBlock {tip : Tip} (hstart : tip.block < g.blocks.size)
    (statements : List Node) :
    Yields (lowerBlock vars tip g statements) (Lowered looping tip.block g) := by
  have hopen : Yields (openBlock g tip) fun result =>
      g.Grown looping (· = tip.block) result.2 ∧ result.1 < result.2.blocks.size ∧
        (result.1 = tip.block ∨ g.blocks.size ≤ result.1) := by
    unfold openBlock
    split
    · exact .ok ⟨.refl g, hstart, .inl rfl⟩
    · refine (yields_extend g tip.block "bb").bind fun g₁ h₁ => .ok ?_
      obtain ⟨hadds, hsize, -⟩ := h₁
      have hgrown : g.Grown looping (· = tip.block) g₁ :=
        .of_forth (hadds.imp fun x y hxy => by omega)
      exact ⟨hgrown, show g.blocks.size < g₁.blocks.size by omega, .inr (Nat.le_refl _)⟩
  refine hopen.bind fun result hresult => ?_
  obtain ⟨hgrown, hlt, hplace⟩ := hresult
  exact yields_of_grown hgrown hplace (yields_fillBlock result.1 statements hlt)

/-- The test of a conditional or of a loop, and the two blocks that it chooses from. -/
theorem opens_of_adds {g₁ g₂ : Graph}
    (h₁ : g.Adds (fun x y => x = i ∧ y = g.blocks.size) g₁)
    (hsize₁ : g₁.blocks.size = g.blocks.size + 1)
    (h₂ : g₁.Adds
      (fun x y => x = g.blocks.size ∧ (y = g₁.blocks.size ∨ y = g₁.blocks.size + 1)) g₂)
    (hsize₂ : g₂.blocks.size = g₁.blocks.size + 2) : g.Opens i g₂ := by
  refine ⟨by omega, (h₁.imp fun x y hxy => ?_).trans (h₂.imp fun x y hxy => ?_)⟩
  all_goals omega

/-- The block where the arms of a conditional meet is entered from their ends. -/
theorem grown_merge {thenEnd elseEnd : Option Tip} {g₅ g₆ : Graph}
    (hthen : ∀ x ∈ standing thenEnd, x < g.blocks.size)
    (helse : ∀ x ∈ standing elseEnd, x < g.blocks.size)
    (h₅ : (g.addBlock "if.end").2.Adds (fun x y => x ∈ standing thenEnd ∧ y = g.blocks.size) g₅)
    (h₆ : g₅.Adds (fun x y => x ∈ standing elseEnd ∧ y = g.blocks.size) g₆) :
    g.Grown looping (fun x => x ∈ standing thenEnd ∨ x ∈ standing elseEnd) g₆ := by
  have hlt : g.blocks.size < g₆.blocks.size := by
    have hsize := g.size_addBlock "if.end"
    have hle₅ := h₅.size_le
    have hle₆ := h₆.size_le
    omega
  refine .of_forth ((g.adds_addBlock "if.end" _).trans ((h₅.imp ?_).trans (h₆.imp ?_)))
  · rintro x y ⟨hx, rfl⟩
    exact ⟨.inl hx, hthen x hx, Nat.le_refl _, hlt⟩
  · rintro x y ⟨hx, rfl⟩
    exact ⟨.inr hx, helse x hx, Nat.le_refl _, hlt⟩

end Lowering

namespace Node

/-- There is a loop in the tree. -/
def Loops (n : Node) : Prop :=
  ∃ m ∈ n.preorder, m.rule = .loop

theorem Loops.of_child : ∀ {n child : Node}, child.Loops → child ∈ n.children → n.Loops
  | ⟨id, rule, token, children⟩, child, ⟨m, hm, hrule⟩, hchild => by
    refine ⟨m, ?_, hrule⟩
    rw [preorder_mk]
    exact List.mem_cons_of_mem _ (List.mem_flatMap.mpr ⟨child, hchild, hm⟩)

theorem loops_loop (id : Nat) (token : Option Token) (children : List Node) :
    Loops ⟨id, .loop, token, children⟩ := by
  refine ⟨⟨id, .loop, token, children⟩, ?_, rfl⟩
  rw [preorder_mk]
  exact List.mem_cons_self

end Node

namespace Lowering

variable {vars : List String} {looping : Prop}

/-- Wherever control stands, lowering adds blocks behind it. -/
def AddsBehind {α : Type} (looping : Prop)
    (lowers : Tip → Graph → α → Except LowerError (Option Tip × Graph)) (a : α) : Prop :=
  ∀ ⦃tip : Tip⦄ ⦃g : Graph⦄, g.TargetsInRange → tip.block < g.blocks.size →
    Yields (lowers tip g a) (Lowered looping tip.block g)

theorem addsBehind_cond {id : Nat} {token : Option Token} {test thenBody elseBody : Node}
    (hthenBody : AddsBehind looping (lowerBody vars) thenBody)
    (helseBody : AddsBehind looping (lowerBody vars) elseBody) :
    AddsBehind looping (lowerStatement vars)
      ⟨id, .cond, token, [test, thenBody, elseBody]⟩ := by
  intro tip g hg hstart
  rw [lowerStatement]
  refine (yields_extend g tip.block "if.cond").bind fun g₁ h₁ => ?_
  obtain ⟨hadds₁, hsize₁, -⟩ := h₁
  refine test.yields_toExpr.bind fun e _ => ?_
  refine (yields_branch g₁ g.blocks.size e "if.then" "if.else").bind fun g₂ h₂ => ?_
  obtain ⟨hadds₂, hsize₂⟩ := h₂
  have hgrown₂ : g.Grown looping (· = tip.block) g₂ :=
    (opens_of_adds hadds₁ hsize₁ hadds₂ hsize₂).grown hstart
  have hthenBlock : g₁.blocks.size < g₂.blocks.size := by omega
  refine (hthenBody (hgrown₂.targetsInRange hg) hthenBlock).bind ?_
  intro r₃ (h₃ : Lowered looping g₁.blocks.size g₂ r₃)
  have hgrown₃ : g.Grown looping (· = tip.block) r₃.2 :=
    hgrown₂.trans h₃.grown fun x hx => .inr (by omega)
  have hle₃ := Graph.Adds.size_le h₃.grown
  -- The block of the second arm was there before the first arm, but has come with the test.
  have helse := g₁.size_addBlock "if.then"
  have helseBlock : (g₁.addBlock "if.then").2.blocks.size < r₃.2.blocks.size := by omega
  refine (helseBody (hgrown₃.targetsInRange hg) helseBlock).bind ?_
  intro r₄ (h₄ : Lowered looping (g₁.addBlock "if.then").2.blocks.size r₃.2 r₄)
  have hgrown₄ : g.Grown looping (· = tip.block) r₄.2 :=
    hgrown₃.trans h₄.grown fun x hx => .inr (by omega)
  have hle₄ := Graph.Adds.size_le h₄.grown
  have hsize₄ := r₄.2.size_addBlock "if.end"
  refine (yields_join (r₄.2.addBlock "if.end").2 r₃.1 r₄.2.blocks.size).bind fun g₅ h₅ => ?_
  refine (yields_join g₅ r₄.1 r₄.2.blocks.size).bind fun g₆ h₆ => .ok ?_
  obtain ⟨hadds₅, hsize₅⟩ := h₅
  obtain ⟨hadds₆, hsize₆⟩ := h₆
  have hmerge : r₄.2.Grown looping (fun x => x ∈ standing r₃.1 ∨ x ∈ standing r₄.1) g₆ :=
    grown_merge (fun x hx => Nat.lt_of_lt_of_le (h₃.standing x hx).1 hle₄)
      (fun x hx => (h₄.standing x hx).1) hadds₅ hadds₆
  refine ⟨hgrown₄.trans hmerge fun x hx => .inr ?_, fun x hx => ?_⟩
  · rcases hx with hx | hx
    · have hx := (h₃.standing x hx).2
      omega
    · have hx := (h₄.standing x hx).2
      omega
  · rw [List.mem_singleton.mp hx]
    show r₄.2.blocks.size < g₆.blocks.size ∧
      (r₄.2.blocks.size = tip.block ∨ g.blocks.size ≤ r₄.2.blocks.size)
    omega

theorem addsBehind_loop {id : Nat} {token : Option Token} {test body : Node}
    (hlooping : looping) (hinner : AddsBehind looping (lowerBody vars) body) :
    AddsBehind looping (lowerStatement vars) ⟨id, .loop, token, [test, body]⟩ := by
  intro tip g hg hstart
  rw [lowerStatement]
  refine (yields_extend g tip.block "while.cond").bind fun g₁ h₁ => ?_
  obtain ⟨hadds₁, hsize₁, b, hb, hlabel⟩ := h₁
  refine test.yields_toExpr.bind fun e _ => ?_
  refine (yields_branch g₁ g.blocks.size e "while.body" "while.end").bind fun g₂ h₂ => ?_
  obtain ⟨hadds₂, hsize₂⟩ := h₂
  obtain ⟨b', hb', hlabel'⟩ := hadds₂.label hb
  have hopens := opens_of_adds hadds₁ hsize₁ hadds₂ hsize₂
  have hgrown₂ : g.Grown looping (· = tip.block) g₂ := hopens.grown hstart
  have hbodyBlock : g₁.blocks.size < g₂.blocks.size := by omega
  refine (hinner (hgrown₂.targetsInRange hg) hbodyBlock).bind fun r₃ h₃ => ?_
  refine (yields_join r₃.2 r₃.1 _).bind fun g₄ h₄ => .ok ?_
  -- The way back is no branch to a new block for the body, but it is for the loop as a whole.
  have hbody : g₂.Grown looping (· = g.blocks.size + 1) r₃.2 := hsize₁ ▸ h₃.grown
  refine ⟨.loop hlooping hg hstart hopens ⟨b', hb', hlabel'.trans hlabel⟩ hbody
    (hsize₁ ▸ h₃.standing) h₄.1, fun x hx => ?_⟩
  rw [List.mem_singleton.mp hx]
  have hexit := g₁.size_addBlock "while.body"
  have hle₃ := Graph.Adds.size_le h₃.grown
  have hsize₄ := h₄.2
  show (g₁.addBlock "while.body").2.blocks.size < g₄.blocks.size ∧
    ((g₁.addBlock "while.body").2.blocks.size = tip.block ∨
      g.blocks.size ≤ (g₁.addBlock "while.body").2.blocks.size)
  omega

/-- **Lowering adds blocks behind the one where control stands,** with ways back only if there are
loops in the tree. -/
theorem addsBehind :
    (∀ n : Node, (n.Loops → looping) → AddsBehind looping (lowerStatement vars) n) ∧
    (∀ n : Node, (n.Loops → looping) → AddsBehind looping (lowerBody vars) n) ∧
    ∀ nodes : List Node, (∀ n ∈ nodes, n.Loops → looping) →
      AddsBehind looping (lowerSequence vars) nodes := by
  refine Node.lowering_induct ?straight ?cond ?loop ?misfit ?body ?noBody ?nil ?cons
  case straight =>
    intro n statements hstraight _ tip g _ hstart
    rw [lowerStatement_of_straight hstraight]
    exact yields_lowerBlock hstart statements
  case cond =>
    intro id token test thenBody elseBody hthenBody helseBody hloops
    exact addsBehind_cond (hthenBody fun h => hloops (h.of_child (by simp)))
      (helseBody fun h => hloops (h.of_child (by simp)))
  case loop =>
    intro id token test body hbody hloops
    exact addsBehind_loop (hloops (Node.loops_loop ..))
      (hbody fun h => hloops (h.of_child (by simp)))
  case misfit =>
    intro n fault hmisfit _ tip g _ _
    rw [lowerStatement_of_misfit hmisfit]
    exact .error _
  case body =>
    intro n hrule hsequence hloops tip g hg hstart
    rw [lowerBody_of_sequence hrule]
    exact hsequence (fun c hc h => hloops (h.of_child hc)) hg hstart
  case noBody =>
    intro n hrule _ tip g _ _
    rw [lowerBody_of_ne hrule]
    exact .error _
  case nil =>
    intro _ tip g _ hstart
    rw [lowerSequence]
    refine .ok ⟨.refl g, fun x hx => ?_⟩
    rw [List.mem_singleton.mp hx]
    exact ⟨hstart, .inl rfl⟩
  case cons =>
    intro s rest hs hrest hloops tip g hg hstart
    obtain ⟨hfirst, hothers⟩ := List.forall_mem_cons.mp hloops
    rw [lowerSequence]
    refine (hs hfirst hg hstart).bind fun result hresult => ?_
    obtain ⟨tip', g'⟩ := result
    cases tip' with
    | none => exact .ok hresult
    | some tip' =>
      obtain ⟨hlt, hplace⟩ := hresult.standing tip'.block (List.mem_singleton.mpr rfl)
      exact yields_of_grown hresult.grown hplace
        (hrest hothers (hresult.grown.targetsInRange hg) hlt)

end Lowering

/-! ### Lowered graphs -/

namespace Graph

variable {vars : List String} {root : Node} {g : Graph}

theorem grown_of_lower (h : lower vars root = .ok g) :
    (entryOnly vars).Grown root.Loops (· = 0) g := by
  have hlower : Yields (lower vars root) ((entryOnly vars).Grown root.Loops (· = 0)) := by
    unfold lower
    split
    · have hloops : ∀ n ∈ root.children, n.Loops → root.Loops := fun n hn hn' => hn'.of_child hn
      have hentry := (stage_entryOnly vars).linked
      refine (Lowering.addsBehind.2.2 root.children hloops hentry.targets
        hentry.size_pos).bind fun result hresult => .ok ?_
      exact hresult.grown
    · exact .error _
  exact hlower g h

/-- **Where a lowered graph branches back, there is a loop,** and the branch comes from inside of
it. -/
theorem guarded_of_lower (h : lower vars root = .ok g) {u v : Nat} (hv : v ∈ g.successors u)
    (hback : v ≤ u) : root.Loops ∧ g.Guarded u v := by
  rcases (grown_of_lower h).branch hv with hentry | hcomes
  · -- The entry alone has no branches.
    cases u with
    | zero => cases hentry
    | succ u => cases hentry
  · exact hcomes.back hback

/-- Every cycle branches back somewhere. -/
theorem exists_back_of_cycle {cycle : Cycle Nat} (hne : cycle ≠ .nil)
    (hcycle : cycle.Chain fun u v => v ∈ g.successors u) :
    ∃ u ∈ cycle, ∃ v ∈ cycle, v ∈ g.successors u ∧ v ≤ u := by
  induction cycle using Cycle.induction_on with
  | nil => exact absurd rfl hne
  | cons a blocks _ =>
    by_contra hforth
    have hmem : ∀ u ∈ a :: (blocks ++ [a]), u ∈ ((a :: blocks : List Nat) : Cycle Nat) := by
      intro u hu
      rw [← List.cons_append, List.mem_append, List.mem_singleton] at hu
      rw [Cycle.mem_coe_iff]
      exact hu.elim id fun heq => heq ▸ List.mem_cons_self
    have hlt : ((a :: blocks : List Nat) : Cycle Nat).Chain (· < ·) := by
      rw [Cycle.chain_coe_cons] at hcycle ⊢
      refine hcycle.imp_of_mem_imp fun u v hu hv hsuccessor => ?_
      exact Nat.lt_of_not_le fun hback => hforth ⟨u, hmem u hu, v, hmem v hv, hsuccessor, hback⟩
    -- Numbers that only grow do not come back to where they began.
    exact hne hlt.eq_nil_of_irrefl

/-- **Lowered control flow is reducible.**  A branch that does not lead to a block with a higher
number leads to the test of a loop, which every way from the entry to the branch has passed.  So
every cycle holds the test of a loop, and where the tree has no loop there are no cycles. -/
theorem lower_reducible (h : lower vars root = .ok g) :
    (∀ (u : Nat) (b : Block), g.blocks[u]? = some b → ∀ v ∈ b.successors, v ≤ b.id →
      (∃ c, g.blocks[v]? = some c ∧ c.id = v ∧ c.label = "while.cond") ∧
        ∀ passed, g.Route passed u → v ∈ passed) ∧
    (∀ cycle : Cycle Nat, cycle ≠ .nil → (cycle.Chain fun u v => v ∈ g.successors u) →
      ∃ v ∈ cycle, ∃ c, g.blocks[v]? = some c ∧ c.label = "while.cond") ∧
    ((∀ n ∈ root.preorder, n.rule ≠ .loop) →
      ∀ cycle : Cycle Nat, (cycle.Chain fun u v => v ∈ g.successors u) → cycle = .nil) := by
  have hregular : g.Regular vars := by
    have hlower := safely_lower vars root
    rwa [h] at hlower
  refine ⟨fun u b hb v hv hback => ?_, fun cycle hne hcycle => ?_, fun hloops cycle hcycle => ?_⟩
  · rw [hregular.id_eq hb] at hback
    rw [← successors_of_getElem? hb] at hv
    obtain ⟨-, hguarded⟩ := guarded_of_lower h hv hback
    obtain ⟨c, hc, hlabel⟩ := hguarded.label
    exact ⟨⟨c, hc, hregular.id_eq hc, hlabel⟩, fun passed hroute => hguarded.mem_passed hroute⟩
  · obtain ⟨u, -, v, hmem, hv, hback⟩ := exists_back_of_cycle hne hcycle
    exact ⟨v, hmem, (guarded_of_lower h hv hback).2.label⟩
  · by_contra hne
    obtain ⟨u, -, v, -, hv, hback⟩ := exists_back_of_cycle hne hcycle
    obtain ⟨n, hn, hrule⟩ := (guarded_of_lower h hv hback).1
    exact hloops n hn hrule

/-- The tree of two loops, one in the other, that do nothing. -/
def nestedLoops : Node :=
  let test : Node := ⟨0, .term, some ⟨.ident "x", {}⟩, []⟩
  let inner : Node := ⟨0, .loop, none, [test, ⟨0, .sequence, none, []⟩]⟩
  ⟨0, .sequence, none, [⟨0, .loop, none, [test, ⟨0, .sequence, none, [inner]⟩]⟩]⟩

/-- The graph of the two loops: the tests are the blocks 1 and 4. -/
def nestedLoopsGraph : Graph where
  vars := ["x"]
  blocks := #[⟨0, "entry", [], some (.jump 1), []⟩,
    ⟨1, "while.cond", [], some (.branch (.load "x") 2 3), [0, 6]⟩,
    ⟨2, "while.body", [], some (.jump 4), [1]⟩, ⟨3, "while.end", [], none, [1]⟩,
    ⟨4, "while.cond", [], some (.branch (.load "x") 5 6), [2, 5]⟩,
    ⟨5, "while.body", [], some (.jump 4), [4]⟩, ⟨6, "while.end", [], some (.jump 1), [4]⟩]

/-- From behind the inner loop control goes back to the outer test, which it has passed; and a tree
that has only a conditional has no cycles. -/
theorem lower_reducible_nestedLoops :
    (lower ["x"] nestedLoops = .ok nestedLoopsGraph ∧ 1 ∈ nestedLoopsGraph.successors 6 ∧
      (∀ passed, nestedLoopsGraph.Route passed 6 → 1 ∈ passed) ∧
      ∃ v ∈ (([2, 4, 6, 1] : List Nat) : Cycle Nat), ∃ c,
        nestedLoopsGraph.blocks[v]? = some c ∧ c.label = "while.cond") ∧
    ∃ g, lower ["x"] bothReturn = .ok g ∧
      ∀ cycle : Cycle Nat, (cycle.Chain fun u v => v ∈ g.successors u) → cycle = .nil := by
  have hlower : lower ["x"] nestedLoops = .ok nestedLoopsGraph := by rfl
  obtain ⟨hback, hcycle, -⟩ := lower_reducible hlower
  have hchain : (([2, 4, 6, 1] : List Nat) : Cycle Nat).Chain
      fun u v => v ∈ nestedLoopsGraph.successors u := by
    rw [Cycle.chain_coe_cons]
    decide
  refine ⟨⟨hlower, by decide, (hback 6 _ rfl 1 (by decide) (by decide)).2,
    hcycle _ (by decide) hchain⟩, _, rfl, ?_⟩
  exact (@lower_reducible ["x"] bothReturn _ rfl).2.2 (by decide)

end Graph

end BlockFlow
