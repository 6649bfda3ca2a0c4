import BlockFlow.Proofs.Lowering.Layout

/-!
# Stages of a graph under construction

Lowering builds a graph by three operations: it adds an empty block, appends a store to a block, or
ends a block.  A block that has ended is never touched again, and a block that has not only gets
more stores; so whatever is known about an earlier stage of a graph says something about the graph
that comes out in the end (`Graph.Extends`).

`Graph.Grows g changes g'` says more: of the blocks that were there, only those in `changes` are not
as they were.  An operation at one block therefore leaves every other block open that was open.
-/

namespace BlockFlow

/-! ### Names -/

namespace Terminator

/-- The variables that a terminator reads. -/
def loads : Terminator → List String
  | jump _ | other _ => []
  | branch test _ _ => test.loads
  | ret value => value.loads

end Terminator

namespace Store

/-- The variable that a store changes and the ones that it reads are among the given ones. -/
def Within (vars : List String) (s : Store) : Prop :=
  s.name ∈ vars ∧ ∀ name ∈ s.value.loads, name ∈ vars

end Store

namespace Graph

/-- All variables that the blocks of a graph speak of are variables of the graph. -/
def Closed (g : Graph) : Prop :=
  ∀ i stores term, g.body? i = some (stores, term) →
    (∀ s ∈ stores, s.Within g.vars) ∧ ∀ t, term = some t → ∀ name ∈ t.loads, name ∈ g.vars

/-! ### The operations -/

variable {g g' g'' : Graph}

theorem body?_eq_none_iff {i : Nat} : g.body? i = none ↔ g.blocks.size ≤ i := by
  rw [body?, Option.map_eq_none_iff, Array.getElem?_eq_none_iff]

theorem body?_addBlock (g : Graph) (label : String) (j : Nat) :
    (g.addBlock label).2.body? j = if j = g.blocks.size then some ([], none) else g.body? j := by
  simp only [addBlock, body?, Array.getElem?_push]
  split <;> rfl

theorem body?_addStore (g : Graph) (i : Nat) (s : Store) (j : Nat) :
    (g.addStore i s).body? j =
      if i = j then (g.body? j).map fun body => (body.1 ++ [s], body.2) else g.body? j := by
  simp only [addStore, body?, Array.getElem?_modify]
  split <;> simp [Function.comp_def]

/-- Noting predecessors changes no body. -/
theorem body?_addPreds (vars : List String) (source : Nat) (targets : List Nat)
    (blocks : Array Block) (j : Nat) :
    (Graph.mk vars
      (targets.foldl (fun blocks target => addPred blocks source target) blocks)).body? j
      = (Graph.mk vars blocks).body? j := by
  induction targets generalizing blocks with
  | nil => rfl
  | cons target rest ih =>
    rw [List.foldl_cons, ih]
    simp only [body?, addPred, Array.getElem?_modify]
    split <;> simp [Function.comp_def]

/-- A block that has not ended can be ended. -/
theorem terminate_eq_ok {i : Nat} {stores : List Store} (t : Terminator)
    (h : g.body? i = some (stores, none)) : ∃ g', g.terminate i t = .ok g' ∧ g'.vars = g.vars ∧
      ∀ j, g'.body? j = if i = j then some (stores, some t) else g.body? j := by
  have hterm : g.blocks[i]?.bind Block.term = none := by
    rw [body?, Option.map_eq_some_iff] at h
    obtain ⟨b, hb, hbody⟩ := h
    rw [hb]
    exact congrArg Prod.snd hbody
  simp only [terminate, hterm]
  refine ⟨_, rfl, rfl, fun j => ?_⟩
  rw [body?_addPreds]
  have hmodify : (Graph.mk g.vars (g.blocks.modify i fun b => { b with term := some t })).body? j =
      if i = j then (g.body? j).map fun body => (body.1, some t) else g.body? j := by
    simp only [body?, Array.getElem?_modify]
    split <;> simp [Function.comp_def]
  rw [hmodify]
  split
  · rename_i hij
    rw [← hij, h]
    rfl
  · rfl

/-! ### Stages -/

/-- The second graph is a later stage of the first one. -/
structure Extends (g g' : Graph) : Prop where
  /-- The variables stay. -/
  vars_eq : g'.vars = g.vars
  /-- A block that has ended stays as it is. -/
  keeps : ∀ i stores t, g.body? i = some (stores, some t) → g'.body? i = some (stores, some t)
  /-- A block that has not may get more stores, and may end. -/
  grows : ∀ i stores, g.body? i = some (stores, none) →
    ∃ more term, g'.body? i = some (stores ++ more, term)

theorem Extends.refl (g : Graph) : g.Extends g :=
  ⟨rfl, fun _ _ _ h => h, fun _ stores h => ⟨[], none, by rw [List.append_nil]; exact h⟩⟩

theorem Extends.trans (h : g.Extends g') (h' : g'.Extends g'') : g.Extends g'' where
  vars_eq := h'.vars_eq.trans h.vars_eq
  keeps i stores t hbody := h'.keeps i stores t (h.keeps i stores t hbody)
  grows i stores hbody := by
    obtain ⟨more, term, hmore⟩ := h.grows i stores hbody
    cases term with
    | some t => exact ⟨more, some t, h'.keeps _ _ _ hmore⟩
    | none =>
      obtain ⟨others, term, hothers⟩ := h'.grows _ _ hmore
      exact ⟨more ++ others, term, by rw [← List.append_assoc]; exact hothers⟩

/-- A block that is not there in a later stage was not there before. -/
theorem Extends.eq_none (h : g.Extends g') {i : Nat} (hi : g'.body? i = none) :
    g.body? i = none := by
  by_contra hsome
  obtain ⟨⟨stores, _ | t⟩, hbody⟩ := Option.ne_none_iff_exists'.mp hsome
  · obtain ⟨more, term, hmore⟩ := h.grows _ _ hbody
    rw [hmore] at hi
    cases hi
  · rw [h.keeps _ _ _ hbody] at hi
    cases hi

theorem Extends.endAt {p : Point} {t : Terminator} (h : g.Extends g')
    (hend : g.EndAt p (some t)) : g'.EndAt p (some t) := by
  obtain ⟨stores, hbody, hlength⟩ := hend
  exact ⟨stores, h.keeps _ _ _ hbody, hlength⟩

theorem Extends.storeAt {p : Point} {s : Store} (h : g.Extends g') (hstore : g.StoreAt p s) :
    g'.StoreAt p s := by
  obtain ⟨stores, term, hbody, hs⟩ := hstore
  cases term with
  | some t => exact ⟨stores, some t, h.keeps _ _ _ hbody, hs⟩
  | none =>
    obtain ⟨more, term, hmore⟩ := h.grows _ _ hbody
    obtain ⟨hlt, -⟩ := List.getElem?_eq_some_iff.mp hs
    exact ⟨stores ++ more, term, hmore, by rw [List.getElem?_append_left hlt, hs]⟩

theorem Extends.meets {q : Option Point} {target : Nat} (h : g.Extends g')
    (hmeets : g.Meets q target) : g'.Meets q target :=
  fun p hp => h.endAt (hmeets p hp)

/-- The second graph is a later stage of the first one, in which only some of the blocks that were
there have changed. -/
structure Grows (g : Graph) (changes : Nat → Prop) (g' : Graph) : Prop where
  /-- It is a later stage. -/
  stage : g.Extends g'
  /-- All other blocks are as they were. -/
  others : ∀ j body, ¬ changes j → g.body? j = some body → g'.body? j = some body
  /-- No name outside the variables has come in. -/
  closed : g.Closed → g'.Closed

theorem Grows.refl (g : Graph) (changes : Nat → Prop) : g.Grows changes g :=
  ⟨.refl g, fun _ _ _ h => h, id⟩

theorem Grows.trans {changes changes' : Nat → Prop} (h : g.Grows changes g')
    (h' : g'.Grows changes' g'') (hsub : ∀ j, changes' j → changes j ∨ g.body? j = none) :
    g.Grows changes g'' where
  stage := h.stage.trans h'.stage
  others j body hj hbody := by
    refine h'.others j body (fun hj' => ?_) (h.others j body hj hbody)
    rcases hsub j hj' with hc | hnone
    · exact hj hc
    · rw [hnone] at hbody
      cases hbody
  closed hg := h'.closed (h.closed hg)

theorem Grows.endAt {changes : Nat → Prop} {p : Point} {term : Option Terminator}
    (h : g.Grows changes g') (hp : ¬ changes p.block) (hend : g.EndAt p term) :
    g'.EndAt p term := by
  obtain ⟨stores, hbody, hlength⟩ := hend
  exact ⟨stores, h.others _ _ hp hbody, hlength⟩

theorem EndAt.ne_none {p : Point} {term : Option Terminator} (h : g.EndAt p term) :
    g.body? p.block ≠ none := by
  obtain ⟨stores, hbody, -⟩ := h
  rw [hbody]
  exact Option.some_ne_none _

/-! ### What each operation does -/

theorem body?_size (g : Graph) : g.body? g.blocks.size = none :=
  body?_eq_none_iff.mpr (Nat.le_refl _)

/-- A block that is added is open, and no other block changes. -/
theorem grows_addBlock (g : Graph) (label : String) :
    g.Grows (fun _ => False) (g.addBlock label).2 ∧
      (g.addBlock label).2.EndAt (.start g.blocks.size) none := by
  have hold : ∀ j body, g.body? j = some body → (g.addBlock label).2.body? j = some body := by
    intro j body hbody
    have hj : j ≠ g.blocks.size := by
      rintro rfl
      rw [body?_size] at hbody
      cases hbody
    rw [body?_addBlock, if_neg hj, hbody]
  refine ⟨⟨⟨rfl, fun i stores t h => hold i _ h, fun i stores h => ⟨[], none, ?_⟩⟩,
    fun j body _ h => hold j body h, fun hg i stores term hbody => ?_⟩, [], ?_, rfl⟩
  · rw [List.append_nil]
    exact hold i _ h
  · rw [body?_addBlock] at hbody
    split at hbody
    · cases hbody
      exact ⟨fun s hs => (by cases hs), fun t ht => (by cases ht)⟩
    · exact hg i stores term hbody
  · rw [Point.start, body?_addBlock, if_pos rfl]

/-- If the stores of an open block are continued, and it is ended or not, and nothing else changes,
then the graph grows at that block. -/
theorem grows_at {i : Nat} {stores more : List Store} {term : Option Terminator}
    (hbody : g.body? i = some (stores, none)) (hvars : g'.vars = g.vars)
    (hhere : g'.body? i = some (stores ++ more, term))
    (hother : ∀ j, j ≠ i → g'.body? j = g.body? j) (hmore : ∀ s ∈ more, s.Within g.vars)
    (hterm : ∀ t, term = some t → ∀ name ∈ t.loads, name ∈ g.vars) : g.Grows (· = i) g' := by
  refine ⟨⟨hvars, fun j stores' t hj => ?_, fun j stores' hj => ?_⟩,
    fun j body hji hj => by rw [hother j hji, hj], fun hg j stores' term' hj => ?_⟩
  · have hji : j ≠ i := by
      rintro rfl
      rw [hbody] at hj
      cases hj
    rw [hother j hji, hj]
  · by_cases hji : j = i
    · subst hji
      rw [hbody] at hj
      cases hj
      exact ⟨more, term, hhere⟩
    · exact ⟨[], none, by rw [hother j hji, hj, List.append_nil]⟩
  · rw [hvars]
    by_cases hji : j = i
    · subst hji
      rw [hhere] at hj
      cases hj
      refine ⟨fun s hs => ?_, hterm⟩
      rcases List.mem_append.mp hs with hs | hs
      · exact (hg _ _ _ hbody).1 s hs
      · exact hmore s hs
    · rw [hother j hji] at hj
      exact hg j stores' term' hj

/-- A store that is appended stands behind the point where its block was open. -/
theorem grows_addStore {p : Point} {s : Store} (h : g.EndAt p none) (hs : s.Within g.vars) :
    g.Grows (· = p.block) (g.addStore p.block s) ∧ (g.addStore p.block s).StoreAt p s ∧
      (g.addStore p.block s).EndAt p.next none := by
  obtain ⟨stores, hbody, hlength⟩ := h
  have hhere : (g.addStore p.block s).body? p.block = some (stores ++ [s], none) := by
    rw [body?_addStore, if_pos rfl, hbody]
    rfl
  refine ⟨grows_at hbody rfl hhere (fun j hj => ?_) (fun s' hs' => ?_) (fun t ht => by cases ht),
    ⟨stores ++ [s], none, hhere, ?_⟩, stores ++ [s], hhere, ?_⟩
  · rw [body?_addStore, if_neg (Ne.symm hj)]
  · rw [List.mem_singleton.mp hs']
    exact hs
  · rw [← hlength, List.getElem?_concat_length]
  · rw [List.length_append, hlength]
    rfl

/-- A block that is open can be ended, and no other block changes. -/
theorem grows_terminate {p : Point} {t : Terminator} (h : g.EndAt p none)
    (ht : ∀ name ∈ t.loads, name ∈ g.vars) : ∃ g', g.terminate p.block t = .ok g' ∧
      g.Grows (· = p.block) g' ∧ g'.EndAt p (some t) := by
  obtain ⟨stores, hbody, hlength⟩ := h
  obtain ⟨g', heq, hvars, hall⟩ := terminate_eq_ok t hbody
  have hhere : g'.body? p.block = some (stores, some t) := by rw [hall, if_pos rfl]
  refine ⟨g', heq, @grows_at g g' p.block stores [] _ hbody hvars (by rw [List.append_nil, hhere])
    (fun j hj => ?_) (fun s hs => by cases hs) (fun t' ht' => ?_), stores, hhere, hlength⟩
  · rw [hall, if_neg (Ne.symm hj)]
  · cases ht'
    exact ht

end Graph

end BlockFlow
