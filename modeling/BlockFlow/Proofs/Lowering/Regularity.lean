import BlockFlow.Proofs.Lowering.Construction
import BlockFlow.Proofs.Lowering.Links

/-!
# Lowered graphs are regular

Whatever tree is lowered, the graph that comes out is linked, every block has the predecessors it is
meant to have, and at most one block is left open (`Graph.lower_regular`).  Lowering may give up at
a node, but never because it would have to end a block twice.

The induction follows lowering through the tree.  What one call does is said of the open blocks: it
takes the block where control stands out of them, and puts the one where control stands afterwards
in its place (`Lowering.Advances`).  Blocks that are open elsewhere, such as the second arm of a
conditional while the first one is lowered, stay open.
-/

namespace BlockFlow

open Lowering

namespace Graph

variable {g : Graph} {vars : List String} {i : Nat} {opens : List Nat}

/-! ### Steps from stage to stage -/

namespace Stage

/-- Control goes on to a new block. -/
theorem extend (h : g.Stage vars (i :: opens) []) (label : String) :
    ∃ g', (g.addBlock label).2.terminate i (.jump g.blocks.size) = .ok g' ∧
      g'.Stage vars (g.blocks.size :: opens) [] ∧ g.Keeps g' ∧
      g'.blocks[g.blocks.size]? = some ⟨g.blocks.size, label, [], none, [i]⟩ := by
  have hadd := (h.addBlock label).perm (.swap i g.blocks.size opens)
  have hsize : (g.addBlock label).2.blocks.size = g.blocks.size + 1 := Array.size_push _
  have hpos := h.linked.size_pos
  have hadmits : (g.addBlock label).2.Admits (.jump g.blocks.size) := by
    refine ⟨?_, ?_, List.nodup_singleton _, nofun⟩
    · rw [Terminator.successors, List.mem_singleton]
      omega
    · intro target htarget
      rw [Terminator.successors, List.mem_singleton] at htarget
      omega
  obtain ⟨g', hg', hstage, hkeeps, hblocks⟩ := hadd.enter hadmits fun j => Iff.rfl
  refine ⟨g', hg', hstage, (keeps_addBlock g label).trans hkeeps, ?_⟩
  have hi := h.isOpen.lt_size
  have hne : i ≠ g.blocks.size := by omega
  rw [hblocks, getElem?_addBlock, if_pos rfl]
  simp [Block.noted, Terminator.successors, hne]

/-- Control goes on to one of two new blocks. -/
theorem branch {e : Expr} (h : g.Stage vars (i :: opens) []) (he : ∀ name ∈ e.loads, name ∈ vars)
    (trueLabel falseLabel : String) :
    ∃ g', ((g.addBlock trueLabel).2.addBlock falseLabel).2.terminate i
        (.branch e g.blocks.size (g.addBlock trueLabel).2.blocks.size) = .ok g' ∧
      g'.Stage vars (g.blocks.size :: (g.addBlock trueLabel).2.blocks.size :: opens) [] ∧
      g.Keeps g' ∧
      g'.blocks[i]? = g.blocks[i]?.map fun b =>
        { b with term := some (.branch e g.blocks.size (g.addBlock trueLabel).2.blocks.size) } := by
  have hsize : (g.addBlock trueLabel).2.blocks.size = g.blocks.size + 1 := Array.size_push _
  have hsize' : ((g.addBlock trueLabel).2.addBlock falseLabel).2.blocks.size =
      (g.addBlock trueLabel).2.blocks.size + 1 := Array.size_push _
  have hpos := h.linked.size_pos
  have hi := h.isOpen.lt_size
  have hreverse := List.reverse_perm [i, g.blocks.size, (g.addBlock trueLabel).2.blocks.size]
  have hadd := ((h.addBlock trueLabel).addBlock falseLabel).perm (hreverse.append_right opens)
  have hadmits : ((g.addBlock trueLabel).2.addBlock falseLabel).2.Admits
      (.branch e g.blocks.size (g.addBlock trueLabel).2.blocks.size) := by
    refine ⟨?_, ?_, ?_, fun name hname => ?_⟩
    · rw [Terminator.successors, List.mem_pair]
      omega
    · intro target htarget
      rw [Terminator.successors, List.mem_pair] at htarget
      omega
    · rw [Terminator.successors, List.nodup_cons, List.mem_singleton]
      exact ⟨by omega, List.nodup_singleton _⟩
    · have hvars : ((g.addBlock trueLabel).2.addBlock falseLabel).2.vars = vars := h.vars_eq
      rw [hvars]
      exact he name hname
  obtain ⟨g', hg', hstage, hkeeps, hblocks⟩ := hadd.enter hadmits fun j => by
    rw [Terminator.successors, List.mem_pair, List.mem_pair, or_comm]
  refine ⟨g', hg', hstage,
    (keeps_addBlock g trueLabel).trans ((keeps_addBlock _ falseLabel).trans hkeeps), ?_⟩
  have hne : i ≠ g.blocks.size := by omega
  have hne' : i ≠ (g.addBlock trueLabel).2.blocks.size := by omega
  rw [hblocks, getElem?_addBlock, if_neg hne', getElem?_addBlock, if_neg hne]
  congr 1
  funext b
  have hcount : [g.blocks.size, (g.addBlock trueLabel).2.blocks.size].count i = 0 := by
    rw [List.count_eq_zero, List.mem_pair]
    omega
  simp [Block.noted, Terminator.successors, hcount]

end Stage

end Graph

/-! ### Steps that may give up -/

/-- What is done does not end a block twice, and if it results in something, then in something that
has the property. -/
def Safely {α : Type} (x : Except LowerError α) (P : α → Prop) : Prop :=
  match x with
  | .ok a => P a
  | .error e => ∀ block, e ≠ .terminatedTwice block

namespace Safely

variable {α β : Type} {x : Except LowerError α} {f : α → Except LowerError β} {P : α → Prop}
  {Q : β → Prop}

theorem bind (h : Safely x P) (hf : ∀ a, P a → Safely (f a) Q) : Safely (x >>= f) Q := by
  cases x with
  | error e => exact h
  | ok a => exact hf a h

theorem bind_ok {a : α} (h : x = .ok a) (hf : Safely (f a) Q) : Safely (x >>= f) Q := by
  rw [h]
  exact hf

theorem imp {P' : α → Prop} (h : Safely x P) (hP : ∀ a, P a → P' a) : Safely x P' := by
  cases x with
  | error e => exact h
  | ok a => exact hP a h

theorem map {f : α → β} (h : Safely x P) (hf : ∀ a, P a → Q (f a)) : Safely (x.map f) Q := by
  cases x with
  | error e => exact h
  | ok a => exact hf a h

theorem atNode (n : Node) (fault : LowerFault) :
    Safely (.error (.atNode n fault) : Except LowerError α) P :=
  nofun

theorem missingToken : Safely (.error .missingToken : Except LowerError α) P :=
  nofun

end Safely

namespace Node

variable {vars : List String}

theorem safely_toVariable (n : Node) : Safely (n.toVariable vars) (· ∈ vars) := by
  unfold toVariable
  split
  · split
    · assumption
    · exact .atNode _ _
  · exact .missingToken

theorem safely_toOp (n : Node) : Safely n.toOp fun _ => True := by
  unfold toOp
  split
  · split
    · trivial
    · exact .atNode _ _
  · exact .atNode _ _

/-- An expression reads given variables only. -/
theorem safely_toExpr (n : Node) :
    Safely (n.toExpr vars) fun e => ∀ name ∈ e.loads, name ∈ vars := by
  fun_induction toExpr vars n with
  | case1 => exact .missingToken
  | case2 =>
    refine (safely_toVariable _).map fun x hx name hname => ?_
    rw [Expr.loads, List.mem_singleton] at hname
    rw [hname]
    exact hx
  | case3 =>
    intro name hname
    cases hname
  | case4 => exact .atNode _ _
  | case5 _ _ left _ _ _ operator right ihLeft ihRight =>
    refine ihLeft.bind fun l hl => operator.safely_toOp.bind fun op _ => ?_
    refine ihRight.bind fun r hr name hname => ?_
    rw [Expr.loads, List.mem_append] at hname
    exact hname.elim (hl name) (hr name)
  | case6 _ _ operand _ _ _ ih => exact ih
  | case7 => exact .atNode _ _

end Node

namespace Lowering

variable {vars : List String} {g g' : Graph} {opens : List Nat}

/-- The block where control stands, if it stands anywhere. -/
def standing (tip : Option Tip) : List Nat :=
  (tip.map Tip.block).toList

/-- Lowering leads from a graph to a stage in which the block where control stands now is open
beside those that were open elsewhere. -/
structure Advances (vars : List String) (g : Graph) (opens : List Nat)
    (result : Option Tip × Graph) : Prop where
  stage : result.2.Stage vars (standing result.1 ++ opens) []
  keeps : g.Keeps result.2
  fresh : ∀ tip, result.1 = some tip → tip.isFresh = true → tip.block ≠ 0

theorem Advances.of_keeps {result : Option Tip × Graph} (hkeeps : g.Keeps g')
    (h : Advances vars g' opens result) : Advances vars g opens result :=
  ⟨h.stage, hkeeps.trans h.keeps, h.fresh⟩

end Lowering

namespace Graph.Stage

variable {vars : List String} {g : Graph} {opens : List Nat}

/-- A block where the arms of a conditional meet need not wait for a predecessor. -/
theorem addMerge (h : g.Stage vars opens []) :
    (g.addBlock "if.end").2.Stage vars (g.blocks.size :: opens) [] := by
  have hadd := h.addBlock "if.end"
  refine ⟨hadd.vars_eq, hadd.linked, fun {i b} hb _ => ?_, nofun, hadd.nodup, hadd.isOpen_iff⟩
  by_cases hi : i = g.blocks.size
  · rw [getElem?_addBlock, if_pos hi] at hb
    cases hb
    exact .inr (.inl ⟨rfl, .inr rfl⟩)
  · exact hadd.entered hb (by rwa [List.mem_singleton])

/-- From where control stands, if anywhere, it can go on to a block where the arms of a conditional
meet or to the test of a loop. -/
theorem join {tip : Option Tip} {target : Nat} {b : Block}
    (h : g.Stage vars (standing tip ++ opens) []) (hb : g.blocks[target]? = some b)
    (hentry : target ≠ 0) (hlabel : b.label = "if.end" ∨ b.label = "while.cond")
    (hlength : b.preds.length ≤ 1) :
    ∃ g' b', Lowering.join g tip target = .ok g' ∧ g'.Stage vars opens [] ∧
      (∀ j c, j ≠ target → g.blocks[j]? = some c → c.term ≠ none → g'.blocks[j]? = some c) ∧
      g'.blocks[target]? = some b' ∧ b'.label = b.label ∧
      b'.preds.length ≤ b.preds.length + 1 := by
  cases tip with
  | none => exact ⟨g, b, rfl, h, fun j c _ hc _ => hc, hb, rfl, Nat.le_succ _⟩
  | some tip =>
    have haccepts : b.Accepts := by
      unfold Block.Accepts
      rcases Nat.le_one_iff_eq_zero_or_eq_one.mp hlength with hzero | hone
      · exact .inl hzero
      · exact .inr ⟨hone, hlabel⟩
    have hstage : g.Stage vars (tip.block :: opens) [] := h
    have hadmits : g.Admits (.jump target) := by
      have hlt := (Array.getElem?_eq_some_iff.mp hb).1
      refine ⟨?_, ?_, List.nodup_singleton _, nofun⟩
      · rw [Terminator.successors, List.mem_singleton]
        exact hentry.symm
      · intro j hj
        rw [Terminator.successors, List.mem_singleton] at hj
        rw [hj]
        exact hlt
    obtain ⟨g', hg', hnext, hblocks⟩ := hstage.terminate hadmits
      (by
        intro j hj c hc
        rw [Terminator.successors, List.mem_singleton] at hj
        rw [hj, hb] at hc
        cases hc
        exact haccepts)
      nofun
    refine ⟨g', b.noted tip.block (.jump target) target, hg', hnext, fun j c hj hc hterm => ?_,
      by rw [hblocks, hb]; rfl, rfl, ?_⟩
    · rw [getElem?_of_noted hblocks (hstage.isOpen.ne_of_term hc hterm), hc]
      rw [Terminator.successors, List.mem_singleton]
      exact hj
    · simp [Block.noted, Terminator.successors]

end Graph.Stage

/-! ### Lowering -/

namespace Lowering

variable {vars : List String} {opens : List Nat}

/-- The two ends of arms come before the block where they meet. -/
theorem perm_merge (merge : Nat) (elseEnds thenEnds opens : List Nat) :
    List.Perm (merge :: (elseEnds ++ (thenEnds ++ opens)))
      (thenEnds ++ (elseEnds ++ merge :: opens)) := by
  have hswap := (List.perm_append_comm_assoc elseEnds thenEnds opens).cons merge
  have hinner : List.Perm (merge :: (elseEnds ++ opens)) (elseEnds ++ merge :: opens) :=
    List.perm_middle.symm
  exact hswap.trans (List.perm_middle.symm.trans (hinner.append_left thenEnds))

/-- Filling a block keeps it open, unless a return ends it. -/
theorem safely_fillBlock {i : Nat} (hi : i ≠ 0) (statements : List Node) :
    ∀ {g : Graph}, g.Stage vars (i :: opens) [] →
      Safely (fillBlock vars i g statements) (Advances vars g opens) := by
  induction statements with
  | nil => exact fun h => ⟨h, .refl _, fun tip htip hfresh => by cases htip; cases hfresh⟩
  | cons s rest ih =>
    intro g h
    unfold fillBlock
    split
    · split
      · rename_i target value hchildren
        split
        · refine value.safely_toExpr.bind fun e he => ?_
          refine target.safely_toVariable.bind fun name hname => ?_
          have hstore := h.addStore (s := ⟨name, e⟩) List.mem_cons_self hi ⟨hname, he⟩
          have hkeeps := Graph.keeps_addStore h.isOpen ⟨name, e⟩
          exact (ih hstore).imp fun result hresult => hresult.of_keeps hkeeps
        · exact .atNode _ _
      · exact .atNode _ _
    · split
      · rename_i value hchildren
        refine value.safely_toExpr.bind fun e he => ?_
        have hadmits : g.Admits (.ret e) := by
          refine ⟨List.not_mem_nil, fun target htarget => absurd htarget List.not_mem_nil,
            List.nodup_nil, fun name hname => ?_⟩
          rw [h.vars_eq]
          exact he name hname
        obtain ⟨g', hg', hstage, hkeeps, -⟩ := h.enter hadmits fun j => Iff.rfl
        exact .bind_ok hg' ⟨hstage, hkeeps, fun tip htip => by cases htip⟩
      · exact .atNode _ _
    · exact .atNode _ _

/-- Straight-line code goes into the block where control stands, or into a new one behind it. -/
theorem safely_lowerBlock {g : Graph} {tip : Tip} (h : g.Stage vars (tip.block :: opens) [])
    (hfresh : tip.isFresh = true → tip.block ≠ 0) (statements : List Node) :
    Safely (lowerBlock vars tip g statements) (Advances vars g opens) := by
  unfold lowerBlock openBlock
  by_cases hf : tip.isFresh = true
  · rw [if_pos hf]
    exact safely_fillBlock (hfresh hf) statements h
  · rw [if_neg hf]
    obtain ⟨g', hg', hstage, hkeeps, -⟩ := h.extend "bb"
    have hpos := h.linked.size_pos
    refine .bind_ok (a := (g.blocks.size, g')) (bind_of_eq_ok hg' _) ?_
    exact (safely_fillBlock (by omega) statements hstage).imp fun result hresult =>
      hresult.of_keeps hkeeps

/-- Wherever control stands, lowering leads from stage to stage. -/
def LeadsOn {α : Type} (vars : List String)
    (lowers : Tip → Graph → α → Except LowerError (Option Tip × Graph)) (a : α) : Prop :=
  ∀ ⦃tip : Tip⦄ ⦃g : Graph⦄ ⦃opens : List Nat⦄, g.Stage vars (tip.block :: opens) [] →
    (tip.isFresh = true → tip.block ≠ 0) → Safely (lowers tip g a) (Advances vars g opens)

theorem leadsOn_cond {id : Nat} {token : Option Token} {test thenBody elseBody : Node}
    (hthenBody : LeadsOn vars (lowerBody vars) thenBody)
    (helseBody : LeadsOn vars (lowerBody vars) elseBody) :
    LeadsOn vars (lowerStatement vars) ⟨id, .cond, token, [test, thenBody, elseBody]⟩ := by
  intro tip g opens h hfresh
  rw [lowerStatement]
  obtain ⟨g₁, hjump, h₁, hkeeps₁, -⟩ := h.extend "if.cond"
  refine .bind_ok hjump (test.safely_toExpr.bind fun e he => ?_)
  obtain ⟨g₂, hbranch, h₂, hkeeps₂, -⟩ := h₁.branch he "if.then" "if.else"
  have hthenFresh : g₁.blocks.size ≠ 0 := Nat.ne_of_gt h₁.linked.size_pos
  have helseFresh : (g₁.addBlock "if.then").2.blocks.size ≠ 0 :=
    Nat.ne_of_gt (h₁.linked.addBlock "if.then").size_pos
  refine .bind_ok hbranch ?_
  -- While the first arm is lowered the second one is open elsewhere, and the other way round.
  refine (hthenBody h₂ fun _ => hthenFresh).bind ?_
  rintro ⟨thenEnd, g₃⟩ hthen
  have h₃ := hthen.stage.perm List.perm_middle
  refine (helseBody h₃ fun _ => helseFresh).bind ?_
  rintro ⟨elseEnd, g₄⟩ helse
  have h₄ := (helse.stage.addMerge).perm (perm_merge _ _ _ _)
  have hmerge : (g₄.addBlock "if.end").2.blocks[g₄.blocks.size]? =
      some ⟨g₄.blocks.size, "if.end", [], none, []⟩ := by
    rw [Graph.getElem?_addBlock, if_pos rfl]
  have hentry : 0 < g₄.blocks.size := helse.stage.linked.size_pos
  obtain ⟨g₅, b, hjoin, h₅, hothers, hmerge', hlabel, hlength⟩ :=
    h₄.join hmerge (by omega) (.inl rfl) (Nat.zero_le 1)
  obtain ⟨g₆, -, hjoin', h₆, hothers', -⟩ :=
    h₅.join hmerge' (by omega) (.inl hlabel) hlength
  refine .bind_ok hjoin (.bind_ok hjoin' ⟨h₆, fun j c hc hterm => ?_, fun _ htip hfresh => ?_⟩)
  · have hc₄ := helse.keeps j c (hthen.keeps j c (hkeeps₂ j c (hkeeps₁ j c hc hterm) hterm) hterm)
      hterm
    have hlt : j < g₄.blocks.size := (Array.getElem?_eq_some_iff.mp hc₄).1
    have hc₅ := hothers j c (by omega) (Graph.keeps_addBlock g₄ _ j c hc₄ hterm) hterm
    exact hothers' j c (by omega) hc₅ hterm
  · cases htip
    cases hfresh

theorem leadsOn_loop {id : Nat} {token : Option Token} {test body : Node}
    (hinner : LeadsOn vars (lowerBody vars) body) :
    LeadsOn vars (lowerStatement vars) ⟨id, .loop, token, [test, body]⟩ := by
  intro tip g opens h hfresh
  rw [lowerStatement]
  obtain ⟨g₁, hjump, h₁, hkeeps₁, hheader⟩ := h.extend "while.cond"
  refine .bind_ok hjump (test.safely_toExpr.bind fun e he => ?_)
  obtain ⟨g₂, hbranch, h₂, hkeeps₂, hheader₂⟩ := h₁.branch he "while.body" "while.end"
  rw [hheader, Option.map_some] at hheader₂
  have hpos := h.linked.size_pos
  have hfresh : g₁.blocks.size ≠ 0 := Nat.ne_of_gt h₁.linked.size_pos
  refine .bind_ok hbranch ?_
  refine (hinner h₂ fun _ => hfresh).bind ?_
  rintro ⟨bodyEnd, g₃⟩ hbody
  -- The test has ended, so it still has the one predecessor that it had before the body.
  have hheader₃ := hbody.keeps _ _ hheader₂ (Option.some_ne_none _)
  obtain ⟨g₄, -, hjoin, h₄, hothers, -⟩ :=
    hbody.stage.join hheader₃ (by omega) (.inr rfl) (Nat.le_refl 1)
  refine .bind_ok hjoin ⟨h₄, fun j c hc hterm => ?_, fun _ htip hfresh => ?_⟩
  · have hlt := (Array.getElem?_eq_some_iff.mp hc).1
    have hc₃ := hbody.keeps j c (hkeeps₂ j c (hkeeps₁ j c hc hterm) hterm) hterm
    exact hothers j c (by omega) hc₃ hterm
  · cases htip
    cases hfresh

/-- **Lowering leads from stage to stage,** whatever the tree is. -/
theorem leadsOn : (∀ n, LeadsOn vars (lowerStatement vars) n) ∧
    (∀ n, LeadsOn vars (lowerBody vars) n) ∧
    ∀ nodes, LeadsOn vars (lowerSequence vars) nodes := by
  refine Node.lowering_induct ?straight leadsOn_cond leadsOn_loop ?misfit ?body ?noBody ?nil ?cons
  case straight =>
    intro n statements hstraight tip g opens h hfresh
    rw [lowerStatement_of_straight hstraight]
    exact safely_lowerBlock h hfresh statements
  case misfit =>
    intro n fault hmisfit tip g opens _ _
    rw [lowerStatement_of_misfit hmisfit]
    exact .atNode _ _
  case body =>
    intro n hrule hsequence tip g opens h hfresh
    rw [lowerBody_of_sequence hrule]
    exact hsequence h hfresh
  case noBody =>
    intro n hrule tip g opens _ _
    rw [lowerBody_of_ne hrule]
    exact .atNode _ _
  case nil =>
    intro tip g opens h hfresh
    rw [lowerSequence]
    exact ⟨h, .refl _, fun tip' htip' => by cases htip'; exact hfresh⟩
  case cons =>
    intro s rest hs hrest tip g opens h hfresh
    rw [lowerSequence]
    refine (hs h hfresh).bind fun result hresult => ?_
    obtain ⟨tip', g'⟩ := result
    cases tip' with
    | none => exact hresult
    | some tip' =>
      exact (hrest hresult.stage (hresult.fresh tip' rfl)).imp fun result' hresult' =>
        hresult'.of_keeps hresult.keeps

end Lowering

namespace Graph

/-- Lowering starts with the entry open. -/
theorem stage_entryOnly (vars : List String) : (entryOnly vars).Stage vars [0] [] := by
  have hblock : ∀ {i : Nat} {b : Block}, (entryOnly vars).blocks[i]? = some b →
      i = 0 ∧ b = ⟨0, "entry", [], none, []⟩ := by
    intro i b hb
    cases i with
    | zero =>
      cases hb
      exact ⟨rfl, rfl⟩
    | succ i => cases hb
  have hsuccessors : ∀ i, (entryOnly vars).successors i = [] := by
    intro i
    cases i <;> rfl
  have hlinked : (entryOnly vars).Linked := by
    refine ⟨fun {i b} hb => ?_, ⟨_, rfl, rfl, rfl⟩, fun i => ?_, fun i target htarget => ?_,
      fun i => ?_, fun {i b} hb p => ?_, closed_entryOnly vars⟩
    · obtain ⟨rfl, rfl⟩ := hblock hb
      rfl
    · rw [hsuccessors]
      exact List.not_mem_nil
    · rw [hsuccessors] at htarget
      cases htarget
    · rw [hsuccessors]
      exact List.nodup_nil
    · obtain ⟨rfl, rfl⟩ := hblock hb
      rw [hsuccessors]
      rfl
  refine ⟨rfl, hlinked, fun {i b} hb _ => ?_, nofun, List.nodup_singleton 0, fun i => ?_⟩
  · obtain ⟨rfl, rfl⟩ := hblock hb
    exact .inr (.inl ⟨rfl, .inl rfl⟩)
  · rw [List.mem_singleton]
    constructor
    · rintro ⟨b, hb, -⟩
      exact (hblock hb).1
    · rintro rfl
      exact ⟨_, rfl, rfl⟩

/-- A graph as lowering makes it: linked, with few predecessors for each block, and open in one
place at most. -/
structure Regular (vars : List String) (g : Graph) : Prop extends g.Linked where
  vars_eq : g.vars = vars
  branch_ne : ∀ {i : Nat} {b : Block} {test : Expr} {onTrue onFalse : Nat}, g.blocks[i]? = some b →
    b.term = some (.branch test onTrue onFalse) → onTrue ≠ onFalse
  nodup_preds : ∀ {i : Nat} {b : Block}, g.blocks[i]? = some b → b.preds.Nodup
  length_preds_le : ∀ {i : Nat} {b : Block}, g.blocks[i]? = some b → b.preds.length ≤ 2
  label_of_two_preds : ∀ {i : Nat} {b : Block}, g.blocks[i]? = some b → b.preds.length = 2 →
    b.label = "if.end" ∨ b.label = "while.cond"
  label_of_no_preds : ∀ {i : Nat} {b : Block}, g.blocks[i]? = some b → b.preds = [] → i ≠ 0 →
    b.label = "if.end"
  open_unique : ∀ {i j : Nat}, g.IsOpen i → g.IsOpen j → i = j

/-- A stage in which control stands in one block at most and none waits to be entered is regular. -/
theorem Stage.regular {vars : List String} {g : Graph} {tip : Option Tip}
    (h : g.Stage vars (standing tip ++ []) []) : g.Regular vars where
  toLinked := h.linked
  vars_eq := h.vars_eq
  branch_ne {i b test onTrue onFalse} hb hterm := by
    have hnodup := h.linked.nodup_successors i
    rw [successors_of_getElem? hb, Block.successors, hterm] at hnodup
    simpa [Terminator.successors] using hnodup
  nodup_preds {i b} hb := by
    refine List.nodup_iff_count_le_one.mpr fun p => ?_
    rw [h.linked.count_preds hb p]
    exact List.nodup_iff_count_le_one.mp (h.linked.nodup_successors p) i
  length_preds_le {i b} hb := by
    rcases h.entered hb List.not_mem_nil with hlength | ⟨hlength, -⟩ | ⟨hlength, -⟩ <;> omega
  label_of_two_preds {i b} hb htwo := by
    rcases h.entered hb List.not_mem_nil with hlength | ⟨hlength, -⟩ | ⟨-, hlabel⟩
    · omega
    · omega
    · exact hlabel
  label_of_no_preds {i b} hb hnone hi := by
    rw [← List.length_eq_zero_iff] at hnone
    rcases h.entered hb List.not_mem_nil with hlength | ⟨-, hlabel⟩ | ⟨hlength, -⟩
    · omega
    · refine hlabel.resolve_left fun hid => hi ?_
      rw [← h.linked.id_eq hb, hid]
    · omega
  open_unique {i j} hi hj := by
    have hi := (h.isOpen_iff i).mp hi
    have hj := (h.isOpen_iff j).mp hj
    cases tip with
    | none => cases hi
    | some tip =>
      rw [standing, Option.map_some, Option.toList_some, List.append_nil,
        List.mem_singleton] at hi hj
      rw [hi, hj]

theorem safely_lower (vars : List String) (root : Node) :
    Safely (lower vars root) (·.Regular vars) := by
  unfold lower
  split
  · have hstage : (entryOnly vars).Stage vars [(⟨0, false⟩ : Tip).block] [] :=
      stage_entryOnly vars
    refine (leadsOn.2.2 root.children hstage nofun).bind ?_
    rintro ⟨tip, g⟩ hresult
    exact hresult.stage.regular
  · exact .atNode _ _

/-- **Lowered graphs are regular,** whatever the tree and the variables are, and lowering never
fails because a block would have to be ended twice. -/
theorem lower_regular (vars : List String) (root : Node) :
    (∀ g, lower vars root = .ok g → g.Regular vars) ∧
      ∀ block, lower vars root ≠ .error (.terminatedTwice block) := by
  have hlower := safely_lower vars root
  constructor
  · intro g hg
    rw [hg] at hlower
    exact hlower
  · intro block herror
    rw [herror] at hlower
    exact hlower block rfl

/-- The tree of `if 1 { return 1; } else { return 2; } x = x;`, with its statements as they are,
in no basic blocks. -/
def bothReturn : Node :=
  let number (value : Int64) : Node := ⟨0, .term, some ⟨.number value, {}⟩, []⟩
  let name : Node := ⟨0, .term, some ⟨.ident "x", {}⟩, []⟩
  ⟨0, .sequence, none,
    [⟨0, .cond, none,
      [number 1, ⟨0, .sequence, none, [⟨0, .ret, none, [number 1]⟩]⟩,
        ⟨0, .sequence, none, [⟨0, .ret, none, [number 2]⟩]⟩]⟩,
    ⟨0, .assign, none, [name, name]⟩]⟩

/-- Behind a conditional that returns on both arms control goes on from a block that nothing
branches to, and the graph is regular all the same. -/
theorem lower_bothReturn : ∃ g, lower ["x"] bothReturn = .ok g ∧ g.Regular ["x"] ∧
    g.blocks[4]? = some ⟨4, "if.end", [], some (.jump 5), []⟩ ∧ g.IsOpen 5 := by
  exact ⟨_, rfl, (lower_regular ["x"] bothReturn).1 _ rfl, rfl, ⟨_, rfl, rfl⟩⟩

end Graph

end BlockFlow
