import BlockFlow.Proofs.Dominance.Loops
import BlockFlow.Proofs.Ssa.Frontiers
import BlockFlow.Proofs.Ssa.Visits

/-!
# Building the form ends

The functions that bring a graph into static single assignment form bound their recursions in
advance.  None of the bounds is ever met.  For the search of blocks and for the loops over tables
this is shown with them (`Graph.visit_add`, `Dominance.Loops`); here it is shown for the walk that
numbers versions.

The walk is written once more without a bound (`Ssa.Walks`), and with a stack of versions for each
variable, from which a version is taken by name.  There is no result when a stack is empty that a
version is to be taken from.  What a block has put on the stacks is on top of them again when the
trees below it have been walked, so that the names of its definitions can be taken off in any order,
and leave the stacks as they were (`Ssa.Definitions.foldlM_pop?`).  Walking down from a block ends
since every block below lies deeper in the tree (`Ssa.exists_walks`).
-/

namespace BlockFlow

namespace Ssa

open Dominance

/-! ### Stacks -/

namespace Definitions

variable {d : Definitions}

/-- The visible versions of a variable, the last one first. -/
def stack (d : Definitions) (name : String) : List Version :=
  d.visible.filter fun v => v.name == name

/-- Takes the last version off the stack of a variable, unless the stack is empty. -/
def pop? (d : Definitions) (name : String) : Option Definitions :=
  if d.stack name = [] then none
  else some ⟨d.made, d.visible.eraseP fun v => v.name == name⟩

/-- Versions whose names are taken off, in any order, leave what was below them. -/
theorem foldlM_pop? {names : List String} {top below : List Version}
    (hnames : names.Perm (top.map Version.name)) (hvisible : d.visible = top ++ below) :
    names.foldlM pop? d = some ⟨d.made, below⟩ := by
  induction names generalizing d top with
  | nil =>
    obtain rfl : top = [] := List.map_eq_nil_iff.mp (List.nil_perm.mp hnames)
    obtain ⟨made, visible⟩ := d
    cases hvisible
    rfl
  | cons name rest ih =>
    obtain ⟨hmem, hrest⟩ := List.cons_perm_iff_perm_erase.mp hnames
    obtain ⟨v, hv, hname⟩ := List.mem_map.mp hmem
    have hpop : d.pop? name =
        some ⟨d.made, (top.eraseP fun v => v.name == name) ++ below⟩ := by
      have hstack : d.stack name ≠ [] := by
        refine List.ne_nil_of_mem (a := v) (List.mem_filter.mpr ⟨?_, beq_iff_eq.mpr hname⟩)
        rw [hvisible]
        exact List.mem_append_left below hv
      rw [pop?, if_neg hstack, hvisible,
        List.eraseP_append_left (p := fun v : Version => v.name == name)
          (beq_iff_eq.mpr hname) _ hv]
    rw [List.erase_eq_eraseP', List.eraseP_map] at hrest
    rw [List.foldlM_cons, hpop]
    exact ih hrest rfl

end Definitions

/-! ### Walks -/

/-- A walk visits blocks, one after the other, and with each the tree below it: it enters the block,
visits its children, and takes the versions that the block has defined off their stacks again. -/
inductive Walks : (start : Walk) → (places : List Nat) → (last : Walk) → Prop where
  | nil {w : Walk} : Walks w [] w
  | cons {w w₁ w₂ w' : Walk} {i : Nat} {rest : List Nat} {b : SsaBlock} {d : Definitions}
      (hb : w.blocks[i]? = some b) (henter : w.enter i b = .ok w₁)
      (hbelow : Walks w₁ b.children w₂)
      (hpops : (b.definitions.map Version.name).foldlM Definitions.pop? w₂.definitions = some d)
      (hrest : Walks { w₂ with definitions := d } rest w') : Walks w (i :: rest) w'

variable {b : SsaBlock} {i : Nat} {w w' : Walk}

/-- On entering a block its definitions become visible, above all others. -/
theorem visible_of_enter (hb : w.blocks[i]? = some b) (henter : w.enter i b = .ok w') :
    ∃ defined, w'.definitions.visible = defined ++ w.definitions.visible ∧
      (b.definitions.map Version.name).Perm (defined.map Version.name) := by
  let d := (w.definitions.renamePhis b.phis).2
  obtain ⟨herase, _, hvisible⟩ := w.definitions.renamePhis_spec b.phis
  obtain ⟨herase', _, hvisible'⟩ := d.renameInstrs_spec b.instrs
  refine ⟨(targets (w.definitions.renamePhis b.phis).1 ++
    targets (d.renameInstrs b.instrs).1).reverse, ?_, ?_⟩
  · rw [(entered_of_enter hb henter).definitions, hvisible', hvisible, List.reverse_append,
      List.append_assoc]
  · rw [List.map_reverse, List.map_append, names_targets_of_erase herase,
      names_targets_of_erase herase', ← List.map_append, ← definitions_eq]
    exact (List.reverse_perm _).symm

/-- **A walk that ends leaves all stacks as they were.** -/
theorem Walks.visible_eq {places : List Nat} (h : Walks w places w') :
    w'.definitions.visible = w.definitions.visible := by
  induction h with
  | nil => rfl
  | cons hb henter _ hpops _ ihBelow ihRest =>
    obtain ⟨defined, hvisible, hnames⟩ := visible_of_enter hb henter
    rw [Definitions.foldlM_pop? hnames (ihBelow.trans hvisible)] at hpops
    rw [ihRest, ← Option.some.inj hpops]

/-- A walk goes on with another block after it has visited some. -/
theorem Walks.append {first rest : List Nat} {w₁ : Walk} (h : Walks w first w₁)
    (hrest : Walks w₁ rest w') : Walks w (first ++ rest) w' := by
  induction h with
  | nil => exact hrest
  | cons hb henter hbelow hpops _ _ ih => exact .cons hb henter hbelow hpops (ih hrest)

theorem exists_walks_all (fuel : Nat) (children : List Nat) (w : Walk)
    (hstep : ∀ (w₁ : Walk) (c : Nat), c ∈ children → SameShape w.blocks w₁.blocks →
      ∃ w₂, Walk.descend fuel w₁ c = .ok w₂ ∧ Walks w₁ [c] w₂ ∧ SameShape w₁.blocks w₂.blocks) :
    ∃ w', children.foldlM (Walk.descend fuel) w = .ok w' ∧ Walks w children w' ∧
      SameShape w.blocks w'.blocks := by
  induction children generalizing w with
  | nil => exact ⟨w, rfl, .nil, .refl _⟩
  | cons c rest ih =>
    obtain ⟨w₁, hfirst, hwalks, hshape⟩ := hstep w c List.mem_cons_self (.refl _)
    obtain ⟨w', hrest, hwalks', hshape'⟩ := ih w₁ fun w₂ d hd hshape₂ =>
      hstep w₂ d (List.mem_cons_of_mem c hd) (hshape.trans hshape₂)
    refine ⟨w', ?_, hwalks.append hwalks', hshape.trans hshape'⟩
    rw [List.foldlM_cons, hfirst]
    exact hrest

/-- **Every walk down from a block ends,** where the bounded walk does that reaches below the
deepest block there can be. -/
theorem exists_walks (fuel : Nat) (w : Walk) (hlinked : Linked w.blocks) (hi : i < w.blocks.size)
    (hfuel : w.blocks.size < fuel + depth (predTable w.blocks) i) :
    ∃ w', w.descend fuel i = .ok w' ∧ Walks w [i] w' ∧ SameShape w.blocks w'.blocks := by
  have hilt : i < (predTable w.blocks).size := (size_predTable _).symm ▸ hi
  induction fuel generalizing w i with
  | zero =>
    have hle := depth_le_size hlinked.connected hilt
    rw [size_predTable] at hle
    omega
  | succ fuel ih =>
    have hb : w.blocks[i]? = some w.blocks[i] := Array.getElem?_eq_getElem hi
    generalize w.blocks[i] = b at hb
    obtain ⟨w₁, b', henter, hshape, -, -, herase, hvisible⟩ :=
      exists_enter w hb (hlinked.listed hb)
    obtain ⟨w₂, hfold, hwalks, hshape₂⟩ := exists_walks_all fuel b.children w₁ (by
      intro w₃ c hc hshape₃
      obtain ⟨hlinked₃, hclt, hfuel₃⟩ := hlinked.child (hshape.trans hshape₃) hb hc hfuel
      exact ih w₃ hlinked₃ hclt hfuel₃ ((size_predTable _).symm ▸ hclt))
    have hvisible₂ := hwalks.visible_eq.trans hvisible
    have hnames : (b.definitions.map Version.name).Perm
        (b'.definitions.reverse.map Version.name) := by
      rw [List.map_reverse, names_definitions_of_erase herase]
      exact (List.reverse_perm _).symm
    exact ⟨_, descend_eq_ok hb henter hfold (forget_definitions herase hvisible₂),
      .cons hb henter hwalks (Definitions.foldlM_pop? hnames hvisible₂) .nil,
      hshape.trans hshape₂⟩

/-- The walk of a graph ends, whatever has been defined before it. -/
theorem exists_walks_placed {g : Graph} (h : g.Listed) (d : Definitions) :
    ∃ w, Walk.descend (placed g).size ⟨placed g, d⟩ 0 = .ok w ∧ Walks ⟨placed g, d⟩ [0] w := by
  have hsize := size_pos_placed h
  have hdepth := depth_pos (connected_placed h) ((size_predTable (placed g)).symm ▸ hsize)
  obtain ⟨w, hdescend, hwalks, -⟩ := exists_walks (placed g).size ⟨placed g, d⟩ (linked_placed h)
    hsize (by simp only; omega)
  exact ⟨w, hdescend, hwalks⟩

end Ssa

namespace Graph

open Dominance Ssa

/-- **Building the form of a graph ends,** for every graph whose branches lead to blocks and whose
blocks list where branches come from.

* The sweeps for dominators end, whatever the lists of predecessors are, and no sweep adds a block
  to the dominators of another.
* The search for blocks goes no deeper than there are blocks.
* Every climb from a predecessor of a block ends at the immediate dominator of the block, or leaves
  the tree after it has passed the entry.
* The search for the places of phis ends with nothing left to look at, for every variable.
* The walk that numbers versions ends, takes no version off an empty stack, and leaves every stack
  as it was. -/
theorem toSsa_terminates {g : Graph} (htargets : g.TargetsInRange)
    (hpreds : ∀ {i : Nat} {b : Block}, g.blocks[i]? = some b →
      ∀ p, p ∈ b.preds ↔ i ∈ g.successors p) :
    (∀ preds : Table, ∃ passed,
      Loops (nextTable preds) (everything preds.size) passed (dominators preds) ∧
        ∀ table ∈ passed, Below (sweep preds table) table) ∧
    (g.blocks.size = 0 ∧ g.toSsa = .error .noEntry ∨
      (∀ depth ≥ g.blocks.size, g.visit depth [] 0 = g.reachable) ∧
      (∀ y, ∀ p ∈ (predTable g.liveBlocks).of y, ∃ passed,
        let links := tree (predTable g.liveBlocks)
        Loops (nextRunner links (links.of y)) (some p) passed (links.of y) ∧
          (links.of y = none → some 0 ∈ passed)) ∧
      (∀ name ∈ g.vars, ∃ passed last,
        let places := definingPlaces name (withDominance g.liveBlocks)
        Loops (Spread.next (frontierTable g)) ⟨places, places, []⟩ passed last ∧ last.work = [] ∧
          last.found = iteratedFrontier (frontierTable g) places) ∧
      ∀ d : Definitions, ∃ w, Walks ⟨placed g, d⟩ [0] w ∧
        (∀ name, w.definitions.stack name = d.stack name) ∧
        (d = {} → g.toSsa = .ok ⟨g.vars, w.blocks⟩)) := by
  refine ⟨loops_dominators, ?_⟩
  rcases toSsa_eq_noEntry_or_listed htargets hpreds with hempty | hlisted
  · exact .inl hempty
  · have hconnected := predTable_placed g ▸ connected_placed hlisted
    refine .inr ⟨fun depth hdepth => ?_, fun y p hp => ?_, fun name _ => ?_, fun d => ?_⟩
    · obtain ⟨more, rfl⟩ := Nat.exists_eq_add_of_le hdepth
      exact visit_add htargets _ more [] 0 hlisted.nonempty List.nodup_nil
        (fun b hb => absurd hb List.not_mem_nil) (Nat.le_add_right _ _)
    · have hloops := loops_climb hconnected hp
      exact ⟨_, hloops, fun hnone =>
        hloops.passes_entry hconnected hnone rfl (hconnected.lt_size hp)⟩
    · exact loops_iteratedFrontier (nodup_definingPlaces name _) lt_size_of_mem_definingPlaces
        lt_size_of_mem_frontierTable
    · obtain ⟨w, hdescend, hwalks⟩ := exists_walks_placed hlisted d
      refine ⟨w, hwalks, fun name => ?_, fun hd => ?_⟩
      · rw [Definitions.stack, hwalks.visible_eq]
        rfl
      · rw [toSsa_eq hlisted, rename, ← hd, hdescend]
        rfl

/-- The walk of two nested loops ends, with every stack empty as it was. -/
theorem toSsa_terminates_nested : nested.TargetsInRange ∧ 0 < nested.blocks.size ∧
    ∃ w, Walks ⟨placed nested, {}⟩ [0] w ∧ (∀ name, w.definitions.stack name = []) ∧
      nested.toSsa = .ok ⟨nested.vars, w.blocks⟩ := by
  refine ⟨listed_nested.targets, by decide, ?_⟩
  obtain ⟨-, ⟨hsize, -⟩ | ⟨-, -, -, hwalk⟩⟩ :=
    toSsa_terminates listed_nested.targets listed_nested.mem_preds
  · exact absurd hsize (by decide)
  · obtain ⟨w, hwalks, hstacks, htoSsa⟩ := hwalk {}
    exact ⟨w, hwalks, hstacks, htoSsa rfl⟩

end Graph

end BlockFlow
