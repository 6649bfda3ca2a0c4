import BlockFlow.Proofs.Lowering.Stages
import BlockFlow.Proofs.Reachability

/-!
# Links between the blocks of a graph under construction

Every stage of a graph that lowering builds is linked: blocks are numbered by place, branches lead
to blocks other than the entry, and each block lists exactly the blocks that branch to it
(`Graph.Linked`).  Each of the three operations of lowering keeps this, whatever the tree looks like
that is lowered.

How many predecessors a block has depends on what it was made for (`Block.Entered`).  A block that
was just added has none yet, so a stage also knows the blocks that still wait for the first one, and
the blocks that are open (`Graph.Stage`).  Only an open block is ever ended, so no block is ended
twice, and when lowering is done at most the block where control stands is left open.
-/

namespace BlockFlow

namespace Block

/-- Control comes to the block from one other block; from none at the entry, and perhaps where the
arms of a conditional meet; from two at most there and at the test of a loop. -/
def Entered (b : Block) : Prop :=
  b.preds.length = 1 ∨
  b.preds.length = 0 ∧ (b.id = 0 ∨ b.label = "if.end") ∨
  b.preds.length = 2 ∧ (b.label = "if.end" ∨ b.label = "while.cond")

/-- What a block at a place becomes when a block is ended: it gets the terminator if it is that
block, and it lists that block once for every branch to it. -/
def noted (source : Nat) (t : Terminator) (place : Nat) (b : Block) : Block :=
  { b with
    term := if source = place then some t else b.term
    preds := b.preds ++ List.replicate (t.successors.count place) source }

end Block

namespace Graph

variable {g g' : Graph} {vars : List String} {i j : Nat} {opens bare : List Nat}

/-! ### The operations -/

theorem getElem?_addBlock (g : Graph) (label : String) (j : Nat) :
    (g.addBlock label).2.blocks[j]? =
      if j = g.blocks.size then some ⟨g.blocks.size, label, [], none, []⟩ else g.blocks[j]? := by
  unfold addBlock
  rw [Array.getElem?_push]

theorem getElem?_addStore (g : Graph) (i : Nat) (s : Store) (j : Nat) :
    (g.addStore i s).blocks[j]? =
      if i = j then g.blocks[j]?.map fun b => { b with stores := b.stores ++ [s] }
      else g.blocks[j]? := by
  unfold addStore
  rw [Array.getElem?_modify]

/-- Each target lists the source once more for every time it is among the targets. -/
theorem getElem?_addPreds (source : Nat) (targets : List Nat) (blocks : Array Block) (j : Nat) :
    (targets.foldl (fun blocks target => addPred blocks source target) blocks)[j]? =
      blocks[j]?.map fun b =>
        { b with preds := b.preds ++ List.replicate (targets.count j) source } := by
  induction targets generalizing blocks with
  | nil => simp
  | cons target rest ih =>
    rw [List.foldl_cons, ih]
    unfold addPred
    rw [Array.getElem?_modify]
    by_cases hj : target = j
    · rw [if_pos hj, Option.map_map, List.count_cons, if_pos (by simpa using hj)]
      congr 1
      funext b
      simp only [Function.comp, List.append_assoc, List.singleton_append, List.replicate_succ]
    · rw [if_neg hj, List.count_cons, if_neg (by simpa using hj), Nat.add_zero]

/-- The block has no terminator yet. -/
def IsOpen (g : Graph) (i : Nat) : Prop :=
  ∃ b, g.blocks[i]? = some b ∧ b.term = none

theorem IsOpen.lt_size (h : g.IsOpen i) : i < g.blocks.size := by
  obtain ⟨b, hb, -⟩ := h
  exact (Array.getElem?_eq_some_iff.mp hb).1

/-- An open block is open behind its last store. -/
theorem IsOpen.exists_endAt (h : g.IsOpen i) : ∃ index, g.EndAt ⟨i, index⟩ none := by
  obtain ⟨b, hb, hterm⟩ := h
  refine ⟨b.stores.length, b.stores, ?_, rfl⟩
  rw [body?, hb, Option.map_some, hterm]

/-- Ending a block gives it the terminator, and the targets list it. -/
theorem getElem?_of_terminate {t : Terminator} (h : g.terminate i t = .ok g') (j : Nat) :
    g'.blocks[j]? = g.blocks[j]?.map (Block.noted i t j) := by
  unfold terminate at h
  split at h
  · cases h
  · cases h
    rw [getElem?_addPreds, Array.getElem?_modify]
    by_cases hij : i = j
    · rw [if_pos hij, Option.map_map]
      congr 1
      funext b
      simp [Block.noted, hij]
    · rw [if_neg hij]
      congr 1
      funext b
      simp [Block.noted, hij]

/-- A block that is open can be ended. -/
theorem IsOpen.exists_terminate (h : g.IsOpen i) (t : Terminator) :
    ∃ g', g.terminate i t = .ok g' ∧ g'.vars = g.vars ∧
      ∀ j, g'.blocks[j]? = g.blocks[j]?.map (Block.noted i t j) := by
  obtain ⟨b, hb, hterm⟩ := h
  have hnone : g.blocks[i]?.bind Block.term = none := by
    rw [hb]
    exact hterm
  have hended : ∃ g', g.terminate i t = .ok g' ∧ g'.vars = g.vars := by
    simp only [terminate, hnone]
    exact ⟨_, rfl, rfl⟩
  obtain ⟨g', hg', hvars⟩ := hended
  exact ⟨g', hg', hvars, getElem?_of_terminate hg'⟩

theorem size_eq_of_noted {t : Terminator}
    (h : ∀ j, g'.blocks[j]? = g.blocks[j]?.map (Block.noted i t j)) :
    g'.blocks.size = g.blocks.size := by
  have hnone : ∀ j, g'.blocks.size ≤ j ↔ g.blocks.size ≤ j := by
    intro j
    rw [← Array.getElem?_eq_none_iff, h, Option.map_eq_none_iff, Array.getElem?_eq_none_iff]
  have hle := (hnone g.blocks.size).mpr (Nat.le_refl _)
  have hge := (hnone g'.blocks.size).mp (Nat.le_refl _)
  omega

/-! ### Successors -/

theorem successors_of_getElem? {b : Block} (h : g.blocks[i]? = some b) :
    g.successors i = b.successors := by
  unfold successors
  rw [h]

theorem IsOpen.successors_eq (h : g.IsOpen i) : g.successors i = [] := by
  obtain ⟨b, hb, hterm⟩ := h
  rw [successors_of_getElem? hb, Block.successors, hterm]

theorem successors_addBlock (g : Graph) (label : String) (j : Nat) :
    (g.addBlock label).2.successors j = g.successors j := by
  unfold successors
  rw [getElem?_addBlock]
  by_cases hj : j = g.blocks.size
  · rw [if_pos hj, hj, Array.getElem?_eq_none (Nat.le_refl _)]
    rfl
  · rw [if_neg hj]

theorem successors_addStore (g : Graph) (i : Nat) (s : Store) (j : Nat) :
    (g.addStore i s).successors j = g.successors j := by
  unfold successors
  rw [getElem?_addStore]
  by_cases hij : i = j
  · rw [if_pos hij]
    cases g.blocks[j]? <;> rfl
  · rw [if_neg hij]

theorem successors_noted {t : Terminator} (hi : i < g.blocks.size)
    (h : ∀ j, g'.blocks[j]? = g.blocks[j]?.map (Block.noted i t j)) (j : Nat) :
    g'.successors j = if i = j then t.successors else g.successors j := by
  unfold successors
  rw [h]
  by_cases hij : i = j
  · rw [if_pos hij, ← hij, Array.getElem?_eq_getElem hi]
    simp [Block.noted, Block.successors]
  · rw [if_neg hij]
    cases g.blocks[j]? with
    | none => rfl
    | some b => simp [Block.noted, Block.successors, hij]

/-! ### Linked graphs -/

/-- Blocks are numbered by place, the entry comes first and is empty, branches lead to blocks other
than the entry and no branch leads to one block twice, each block lists the blocks that branch to it
as often as they do, and all variables that are read or stored are variables of the graph. -/
structure Linked (g : Graph) : Prop where
  id_eq : ∀ {i : Nat} {b : Block}, g.blocks[i]? = some b → b.id = i
  entry : ∃ b, g.blocks[0]? = some b ∧ b.label = "entry" ∧ b.stores = []
  entry_not_target : ∀ i, 0 ∉ g.successors i
  targets : g.TargetsInRange
  nodup_successors : ∀ i, (g.successors i).Nodup
  count_preds : ∀ {i : Nat} {b : Block}, g.blocks[i]? = some b →
    ∀ p, b.preds.count p = (g.successors p).count i
  closed : g.Closed

/-- A terminator that an open block may get. -/
structure Admits (g : Graph) (t : Terminator) : Prop where
  entry_not_target : 0 ∉ t.successors
  targets : ∀ target ∈ t.successors, target < g.blocks.size
  nodup_successors : t.successors.Nodup
  loads : ∀ name ∈ t.loads, name ∈ g.vars

namespace Linked

theorem size_pos (h : g.Linked) : 0 < g.blocks.size := by
  obtain ⟨b, hb, -⟩ := h.entry
  exact (Array.getElem?_eq_some_iff.mp hb).1

theorem addBlock (h : g.Linked) (label : String) : (g.addBlock label).2.Linked where
  id_eq {i b} hb := by
    rw [getElem?_addBlock] at hb
    split at hb
    · cases hb
      rename_i hi
      exact hi.symm
    · exact h.id_eq hb
  entry := by
    have hsize := h.size_pos
    rw [getElem?_addBlock, if_neg (by omega)]
    exact h.entry
  entry_not_target i := by
    rw [successors_addBlock]
    exact h.entry_not_target i
  targets i target htarget := by
    rw [successors_addBlock] at htarget
    have hlt := h.targets i target htarget
    have hsize : (g.addBlock label).2.blocks.size = g.blocks.size + 1 := Array.size_push _
    omega
  nodup_successors i := by
    rw [successors_addBlock]
    exact h.nodup_successors i
  count_preds {i b} hb p := by
    rw [getElem?_addBlock] at hb
    rw [successors_addBlock]
    split at hb
    · -- No branch leads to a block that was not there.
      cases hb
      rename_i hi
      have hnot : i ∉ g.successors p := by
        intro hmem
        have hlt := h.targets p i hmem
        omega
      rw [List.count_eq_zero.mpr hnot]
      rfl
    · exact h.count_preds hb p
  closed := (grows_addBlock g label).1.closed h.closed

theorem addStore {s : Store} (h : g.Linked) (hopen : g.IsOpen i) (hi : i ≠ 0)
    (hs : s.Within g.vars) : (g.addStore i s).Linked := by
  have hblock : ∀ {j : Nat} {b : Block}, (g.addStore i s).blocks[j]? = some b →
      ∃ b', g.blocks[j]? = some b' ∧ b.id = b'.id ∧ b.preds = b'.preds := by
    intro j b hb
    rw [getElem?_addStore] at hb
    split at hb
    · obtain ⟨b', hb', rfl⟩ := Option.map_eq_some_iff.mp hb
      exact ⟨b', hb', rfl, rfl⟩
    · exact ⟨b, hb, rfl, rfl⟩
  refine ⟨fun {j b} hb => ?_, ?_, fun j => ?_, fun j target htarget => ?_, fun j => ?_,
    fun {j b} hb p => ?_, ?_⟩
  · obtain ⟨b', hb', hid, -⟩ := hblock hb
    rw [hid]
    exact h.id_eq hb'
  · rw [getElem?_addStore, if_neg hi]
    exact h.entry
  · rw [successors_addStore]
    exact h.entry_not_target j
  · rw [successors_addStore] at htarget
    have hsize : (g.addStore i s).blocks.size = g.blocks.size := Array.size_modify
    rw [hsize]
    exact h.targets j target htarget
  · rw [successors_addStore]
    exact h.nodup_successors j
  · obtain ⟨b', hb', -, hpreds⟩ := hblock hb
    rw [hpreds, successors_addStore]
    exact h.count_preds hb' p
  · obtain ⟨index, hend⟩ := hopen.exists_endAt
    exact (grows_addStore hend hs).1.closed h.closed

theorem terminate {t : Terminator} (h : g.Linked) (hopen : g.IsOpen i) (ht : g.Admits t)
    (hg' : g.terminate i t = .ok g')
    (hblocks : ∀ j, g'.blocks[j]? = g.blocks[j]?.map (Block.noted i t j)) : g'.Linked := by
  have hsuccessors := successors_noted hopen.lt_size hblocks
  have hsize := size_eq_of_noted hblocks
  refine ⟨fun {j b} hb => ?_, ?_, fun j => ?_, fun j target htarget => ?_, fun j => ?_,
    fun {j b} hb p => ?_, ?_⟩
  · rw [hblocks] at hb
    obtain ⟨b', hb', rfl⟩ := Option.map_eq_some_iff.mp hb
    show b'.id = j
    exact h.id_eq hb'
  · obtain ⟨b, hb, hlabel, hstores⟩ := h.entry
    exact ⟨b.noted i t 0, by rw [hblocks, hb]; rfl, hlabel, hstores⟩
  · rw [hsuccessors]
    split
    · exact ht.entry_not_target
    · exact h.entry_not_target j
  · rw [hsuccessors] at htarget
    rw [hsize]
    split at htarget
    · exact ht.targets target htarget
    · exact h.targets j target htarget
  · rw [hsuccessors]
    split
    · exact ht.nodup_successors
    · exact h.nodup_successors j
  · -- The block that is ended branched nowhere before.
    rw [hblocks] at hb
    obtain ⟨b', hb', rfl⟩ := Option.map_eq_some_iff.mp hb
    have hcount := h.count_preds hb' p
    rw [hsuccessors]
    simp only [Block.noted, List.count_append, List.count_replicate, hcount]
    by_cases hip : i = p
    · rw [← hip, hopen.successors_eq]
      simp
    · simp [hip]
  · obtain ⟨index, hend⟩ := hopen.exists_endAt
    obtain ⟨g'', hg'', hgrows, -⟩ := grows_terminate hend ht.loads
    obtain rfl : g' = g'' := by
      rw [hg'] at hg''
      exact Except.ok.inj hg''
    exact hgrows.closed h.closed

end Linked

/-! ### Blocks that have ended -/

/-- Blocks that have ended stay as they are. -/
def Keeps (g g' : Graph) : Prop :=
  ∀ (j : Nat) (b : Block), g.blocks[j]? = some b → b.term ≠ none → g'.blocks[j]? = some b

theorem Keeps.refl (g : Graph) : g.Keeps g :=
  fun _ _ hb _ => hb

theorem Keeps.trans {g'' : Graph} (h : g.Keeps g') (h' : g'.Keeps g'') : g.Keeps g'' :=
  fun j b hb hterm => h' j b (h j b hb hterm) hterm

theorem IsOpen.ne_of_term {b : Block} (h : g.IsOpen i) (hb : g.blocks[j]? = some b)
    (hterm : b.term ≠ none) : i ≠ j := by
  rintro rfl
  obtain ⟨b', hb', hnone⟩ := h
  rw [hb] at hb'
  cases hb'
  exact hterm hnone

theorem keeps_addBlock (g : Graph) (label : String) : g.Keeps (g.addBlock label).2 := by
  intro j b hb _
  have hlt := (Array.getElem?_eq_some_iff.mp hb).1
  rw [getElem?_addBlock, if_neg (by omega), hb]

theorem keeps_addStore (h : g.IsOpen i) (s : Store) : g.Keeps (g.addStore i s) := by
  intro j b hb hterm
  rw [getElem?_addStore, if_neg (h.ne_of_term hb hterm), hb]

/-- Ending a block changes that block and the ones it branches to. -/
theorem getElem?_of_noted {t : Terminator}
    (h : ∀ j, g'.blocks[j]? = g.blocks[j]?.map (Block.noted i t j)) (hij : i ≠ j)
    (hj : j ∉ t.successors) : g'.blocks[j]? = g.blocks[j]? := by
  have hcount : t.successors.count j = 0 := List.count_eq_zero.mpr hj
  rw [h]
  cases g.blocks[j]? with
  | none => rfl
  | some b => simp [Block.noted, hij, hcount]

/-! ### Stages -/

/-- A stage of lowering: a linked graph, whose blocks have the predecessors they are meant to have
except for those that still wait for the first one, and the blocks that are open. -/
structure Stage (vars : List String) (g : Graph) (opens bare : List Nat) : Prop where
  vars_eq : g.vars = vars
  linked : g.Linked
  entered : ∀ {i : Nat} {b : Block}, g.blocks[i]? = some b → i ∉ bare → b.Entered
  waiting : ∀ i ∈ bare, ∃ b, g.blocks[i]? = some b ∧ b.preds = [] ∧ b.term = none
  nodup : opens.Nodup
  isOpen_iff : ∀ i, g.IsOpen i ↔ i ∈ opens

namespace Stage

theorem perm {opens' : List Nat} (h : g.Stage vars opens bare) (hperm : opens.Perm opens') :
    g.Stage vars opens' bare where
  vars_eq := h.vars_eq
  linked := h.linked
  entered := h.entered
  waiting := h.waiting
  nodup := hperm.nodup_iff.mp h.nodup
  isOpen_iff i := (h.isOpen_iff i).trans hperm.mem_iff

theorem isOpen (h : g.Stage vars (i :: opens) bare) : g.IsOpen i :=
  (h.isOpen_iff i).mpr List.mem_cons_self

theorem addBlock (h : g.Stage vars opens bare) (label : String) :
    (g.addBlock label).2.Stage vars (g.blocks.size :: opens) (g.blocks.size :: bare) where
  vars_eq := h.vars_eq
  linked := h.linked.addBlock label
  entered {i b} hb hi := by
    have hne : i ≠ g.blocks.size := fun heq => hi (heq ▸ List.mem_cons_self)
    rw [getElem?_addBlock, if_neg hne] at hb
    exact h.entered hb fun hmem => hi (List.mem_cons_of_mem _ hmem)
  waiting i hi := by
    rw [getElem?_addBlock]
    split
    · exact ⟨_, rfl, rfl, rfl⟩
    · rename_i hne
      exact h.waiting i ((List.mem_cons.mp hi).resolve_left hne)
  nodup := by
    refine List.nodup_cons.mpr ⟨fun hmem => ?_, h.nodup⟩
    have hlt := ((h.isOpen_iff _).mpr hmem).lt_size
    omega
  isOpen_iff i := by
    unfold IsOpen
    rw [getElem?_addBlock, List.mem_cons]
    by_cases hi : i = g.blocks.size
    · simp [hi]
    · rw [if_neg hi]
      simp only [hi, false_or]
      exact h.isOpen_iff i

theorem addStore {s : Store} (h : g.Stage vars opens bare) (hi : i ∈ opens) (hentry : i ≠ 0)
    (hs : s.Within vars) : (g.addStore i s).Stage vars opens bare := by
  have hopen := (h.isOpen_iff i).mpr hi
  refine ⟨h.vars_eq, h.linked.addStore hopen hentry (by rw [h.vars_eq]; exact hs),
    fun {j b} hb hj => ?_, fun j hj => ?_, h.nodup, fun j => ?_⟩
  · rw [getElem?_addStore] at hb
    split at hb
    · obtain ⟨b', hb', rfl⟩ := Option.map_eq_some_iff.mp hb
      have hentered : b'.Entered := h.entered hb' hj
      exact hentered
    · exact h.entered hb hj
  · obtain ⟨b, hb, hpreds, hterm⟩ := h.waiting j hj
    rw [getElem?_addStore, hb]
    split
    · exact ⟨_, rfl, hpreds, hterm⟩
    · exact ⟨b, rfl, hpreds, hterm⟩
  · rw [← h.isOpen_iff j]
    unfold IsOpen
    rw [getElem?_addStore]
    by_cases hij : i = j
    · rw [if_pos hij]
      simp
    · rw [if_neg hij]

end Stage

end Graph

namespace Block

/-- One more predecessor is not too many. -/
def Accepts (b : Block) : Prop :=
  b.preds.length = 0 ∨ b.preds.length = 1 ∧ (b.label = "if.end" ∨ b.label = "while.cond")

theorem Accepts.entered {b : Block} {source place : Nat} {t : Terminator} (h : b.Accepts)
    (hcount : t.successors.count place = 1) : (b.noted source t place).Entered := by
  unfold Entered noted
  simp only [hcount, List.length_append, List.length_replicate]
  rcases h with hlength | ⟨hlength, hlabel⟩
  · left
    omega
  · right
    right
    exact ⟨by omega, hlabel⟩

end Block

namespace Graph

variable {g g' : Graph} {vars : List String} {i : Nat} {opens bare : List Nat}

namespace Stage

/-- **Ending an open block leads to the next stage** if the blocks it branches to accept one more
predecessor, and all blocks that waited for their first one get it. -/
theorem terminate {t : Terminator} (h : g.Stage vars (i :: opens) bare) (ht : g.Admits t)
    (haccepts : ∀ target ∈ t.successors, ∀ b, g.blocks[target]? = some b → b.Accepts)
    (hbare : ∀ j ∈ bare, j ∈ t.successors) :
    ∃ g', g.terminate i t = .ok g' ∧ g'.Stage vars opens [] ∧
      ∀ j, g'.blocks[j]? = g.blocks[j]?.map (Block.noted i t j) := by
  obtain ⟨g', hg', hvars, hblocks⟩ := h.isOpen.exists_terminate t
  obtain ⟨hnot, hnodup⟩ := List.nodup_cons.mp h.nodup
  refine ⟨g', hg', ⟨hvars.trans h.vars_eq, h.linked.terminate h.isOpen ht hg' hblocks,
    fun {j b} hb _ => ?_, nofun, hnodup, fun j => ?_⟩, hblocks⟩
  · rw [hblocks] at hb
    obtain ⟨b', hb', rfl⟩ := Option.map_eq_some_iff.mp hb
    by_cases hj : j ∈ t.successors
    · have hcount := List.count_eq_one_of_mem ht.nodup_successors hj
      exact (haccepts j hj b' hb').entered hcount
    · have hcount : t.successors.count j = 0 := List.count_eq_zero.mpr hj
      have hentered := h.entered hb' fun hmem => hj (hbare j hmem)
      simpa [Block.Entered, Block.noted, hcount] using hentered
  · have hopens := h.isOpen_iff j
    rw [List.mem_cons] at hopens
    unfold IsOpen at hopens ⊢
    rw [hblocks]
    by_cases hij : i = j
    · subst hij
      simp [Block.noted, hnot]
    · have hji : j ≠ i := fun heq => hij heq.symm
      simpa [Block.noted, hij, hji] using hopens

/-- Control goes on to the blocks that waited for it; blocks that have ended stay as they are. -/
theorem enter {t : Terminator} (h : g.Stage vars (i :: opens) bare) (ht : g.Admits t)
    (hbare : ∀ j, j ∈ t.successors ↔ j ∈ bare) :
    ∃ g', g.terminate i t = .ok g' ∧ g'.Stage vars opens [] ∧ g.Keeps g' ∧
      ∀ j, g'.blocks[j]? = g.blocks[j]?.map (Block.noted i t j) := by
  have haccepts : ∀ target ∈ t.successors, ∀ b, g.blocks[target]? = some b → b.Accepts := by
    intro target htarget b hb
    obtain ⟨b', hb', hpreds, -⟩ := h.waiting target ((hbare target).mp htarget)
    rw [hb] at hb'
    cases hb'
    left
    rw [hpreds, List.length_nil]
  obtain ⟨g', hg', hstage, hblocks⟩ := h.terminate ht haccepts fun j hj => (hbare j).mpr hj
  refine ⟨g', hg', hstage, fun j b hb hterm => ?_, hblocks⟩
  have hnot : j ∉ t.successors := by
    intro hj
    obtain ⟨b', hb', -, hnone⟩ := h.waiting j ((hbare j).mp hj)
    exact IsOpen.ne_of_term ⟨b', hb', hnone⟩ hb hterm rfl
  rw [getElem?_of_noted hblocks (h.isOpen.ne_of_term hb hterm) hnot, hb]

end Stage

end Graph

end BlockFlow
