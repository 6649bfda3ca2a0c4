import BlockFlow.Proofs.Lowering.Forms
import BlockFlow.Proofs.Lowering.Stages

/-!
# Lowering lays out the code of a tree

`Reads vars nodes code` says which code the statements of a normal tree stand for.  It follows
lowering as far as lowering looks: behind a return nothing is asked of the tree, and the code there
may be any.

Lowering statements that read as code succeeds, and in every later stage of the graph that it leaves
the code lies from where control stood to where it stands now (`Lays`, `builds_lowerSequence`).  For
whole programs, the graph ends exactly as the code does (`Graph.lower_of_reads`).
-/

namespace BlockFlow

open Lowering Progress

/-! ### Steps that may fail -/

theorem bind_of_eq_ok {α β : Type} {x : Except LowerError α} {a : α} (h : x = .ok a)
    (f : α → Except LowerError β) : (x >>= f) = f a := by
  rw [h]
  rfl

theorem exists_of_bind_eq_ok {α β : Type} {x : Except LowerError α} {f : α → Except LowerError β}
    {b : β} (h : (x >>= f) = .ok b) : ∃ a, x = .ok a ∧ f a = .ok b := by
  cases x with
  | error e => cases h
  | ok a => exact ⟨a, rfl, h⟩

theorem exists_of_map_eq_ok {α β : Type} {x : Except LowerError α} {f : α → β} {b : β}
    (h : x.map f = .ok b) : ∃ a, x = .ok a ∧ f a = b := by
  cases x with
  | error e => cases h
  | ok a =>
    cases h
    exact ⟨a, rfl, rfl⟩

/-! ### Code that has been laid out -/

/-- Between the two stages of a graph code was laid out from an open point on; control stands at the
other point now, if anywhere. -/
structure Lays (g : Graph) (p : Point) (code : List Code) (q : Option Point) (g' : Graph) :
    Prop where
  /-- Of the blocks that were there only the one of the point has changed. -/
  grows : g.Grows (· = p.block) g'
  /-- The block in which control stands is open. -/
  is_open : ∀ p', q = some p' → g'.EndAt p' none
  /-- It is the block of the point, or a new one. -/
  is_new : ∀ p', q = some p' → p'.block = p.block ∨ g.body? p'.block = none
  /-- The code lies there in every later stage. -/
  spans : ∀ G, g'.Extends G → Spans G p code q

namespace Lays

variable {g g' g'' : Graph} {p p' : Point} {q : Option Point} {code after : List Code}

theorem nil (h : g.EndAt p none) : Lays g p [] (some p) g where
  grows := .refl g _
  is_open p' hp' := by
    cases hp'
    exact h
  is_new p' hp' := by
    cases hp'
    exact .inl rfl
  spans G _ := .nil p

/-- Code that is laid out behind code. -/
theorem append (h : Lays g p code (some p') g') (h' : Lays g' p' after q g'') :
    Lays g p (code ++ after) q g'' where
  grows := by
    refine h.grows.trans h'.grows fun j hj => ?_
    rw [hj]
    exact h.is_new p' rfl
  is_open := h'.is_open
  is_new r hr := by
    rcases h'.is_new r hr with hblock | hnone
    · rw [hblock]
      exact h.is_new p' rfl
    · exact .inr (h.grows.stage.eq_none hnone)
  spans G hG := (h.spans G (h'.grows.stage.trans hG)).append (h'.spans G hG)

theorem append_of_none (h : Lays g p code none g') : Lays g p (code ++ after) none g' where
  grows := h.grows
  is_open p' hp' := by cases hp'
  is_new p' hp' := by cases hp'
  spans G hG := (h.spans G hG).append_of_none

theorem store {name : String} {e : Expr} (h : g.EndAt p none)
    (hwithin : Store.Within g.vars ⟨name, e⟩) :
    Lays g p [.store name e] (some p.next) (g.addStore p.block ⟨name, e⟩) := by
  obtain ⟨hgrows, hstore, hopen⟩ := Graph.grows_addStore h hwithin
  refine ⟨hgrows, fun p' hp' => ?_, fun p' hp' => ?_, fun G hG => ?_⟩
  · cases hp'
    exact hopen
  · cases hp'
    exact .inl rfl
  · exact .store (hG.storeAt hstore) (.nil _)

theorem ret {e : Expr} (h : g.EndAt p none) (he : ∀ name ∈ e.loads, name ∈ g.vars)
    (rest : List Code) : ∃ g', g.terminate p.block (.ret e) = .ok g' ∧
      Lays g p (.ret e :: rest) none g' := by
  obtain ⟨g', heq, hgrows, hend⟩ := Graph.grows_terminate (t := .ret e) h he
  exact ⟨g', heq, hgrows, fun p' hp' => (by cases hp'), fun p' hp' => (by cases hp'),
    fun G hG => .ret (hG.endAt hend)⟩

/-- Control goes on to a new block. -/
theorem jump (h : g.EndAt p none) (label : String) :
    ∃ g', (g.addBlock label).2.terminate p.block (.jump g.blocks.size) = .ok g' ∧
      Lays g p [] (some (.start g.blocks.size)) g' ∧ g'.EndAt p (some (.jump g.blocks.size)) := by
  obtain ⟨hadd, hnew⟩ := Graph.grows_addBlock g label
  have hp : p.block ≠ g.blocks.size := by
    intro hp
    exact h.ne_none (by rw [hp, Graph.body?_size])
  obtain ⟨g', heq, hgrows, hend⟩ := Graph.grows_terminate (t := .jump g.blocks.size)
    (hadd.endAt id h) (fun name hname => by cases hname)
  refine ⟨g', heq, ⟨?_, fun p' hp' => ?_, fun p' hp' => ?_, fun G hG => ?_⟩, hend⟩
  · exact ⟨hadd.stage.trans hgrows.stage,
      fun j body hj hb => hgrows.others j body hj (hadd.others j body id hb),
      fun hg => hgrows.closed (hadd.closed hg)⟩
  · cases hp'
    exact hgrows.endAt (Ne.symm hp) hnew
  · cases hp'
    exact .inr (Graph.body?_size g)
  · exact .jump (hG.endAt hend) (.nil _)

end Lays

/-! ### Branches -/

/-- Between the two stages of a graph a test was put behind an open point, in a block of its own
that branches to two new blocks. -/
structure Branches (g : Graph) (p : Point) (e : Expr) (header onTrue onFalse : Nat) (g' : Graph) :
    Prop where
  /-- Of the blocks that were there only the one of the point has changed. -/
  grows : g.Grows (· = p.block) g'
  /-- Control goes from the point to the test. -/
  enters : g'.EndAt p (some (.jump header))
  /-- The test leads to the two blocks. -/
  test : g'.EndAt (.start header) (some (.branch e onTrue onFalse))
  /-- The first one is open. -/
  onTrue_open : g'.EndAt (.start onTrue) none
  /-- The second one is open. -/
  onFalse_open : g'.EndAt (.start onFalse) none
  /-- They differ. -/
  ne : onTrue ≠ onFalse
  /-- The first one is new. -/
  onTrue_new : g.body? onTrue = none
  /-- The second one is new. -/
  onFalse_new : g.body? onFalse = none

theorem branches_of_endAt {g : Graph} {p : Point} {e : Expr} (h : g.EndAt p none)
    (he : ∀ name ∈ e.loads, name ∈ g.vars) (testLabel trueLabel falseLabel : String) :
    ∃ g₁ g₂, (g.addBlock testLabel).2.terminate p.block (.jump g.blocks.size) = .ok g₁ ∧
      ((g₁.addBlock trueLabel).2.addBlock falseLabel).2.terminate g.blocks.size
        (.branch e g₁.blocks.size (g₁.addBlock trueLabel).2.blocks.size) = .ok g₂ ∧
      Branches g p e g.blocks.size g₁.blocks.size (g₁.addBlock trueLabel).2.blocks.size g₂ := by
  obtain ⟨g₁, hjump, hlays, henters⟩ := Lays.jump h testLabel
  obtain ⟨haddTrue, htrue⟩ := Graph.grows_addBlock g₁ trueLabel
  obtain ⟨haddFalse, hfalse⟩ := Graph.grows_addBlock (g₁.addBlock trueLabel).2 falseLabel
  have hadd := haddTrue.trans haddFalse fun j hj => hj.elim
  have hheader := hlays.is_open _ rfl
  obtain ⟨g₂, hbranch, hgrows, htest⟩ := Graph.grows_terminate
    (t := .branch e g₁.blocks.size (g₁.addBlock trueLabel).2.blocks.size) (hadd.endAt id hheader)
    (by rw [hadd.stage.vars_eq, hlays.grows.stage.vars_eq]; exact he)
  have htrueNew : g₁.body? g₁.blocks.size = none := Graph.body?_size g₁
  have hfalseNew := Graph.body?_size (g₁.addBlock trueLabel).2
  -- The three new blocks come in one after the other, so they differ.
  have hne : g₁.blocks.size ≠ (g₁.addBlock trueLabel).2.blocks.size := by
    intro hne
    exact htrue.ne_none (by rw [Point.start, hne, hfalseNew])
  have htrueHeader : g₁.blocks.size ≠ g.blocks.size := by
    intro heq
    exact hheader.ne_none (by rw [Point.start, ← heq, htrueNew])
  have hfalseHeader : (g₁.addBlock trueLabel).2.blocks.size ≠ g.blocks.size := by
    intro heq
    exact (haddTrue.endAt id hheader).ne_none (by rw [Point.start, ← heq, hfalseNew])
  have hpHeader : p.block ≠ g.blocks.size := by
    intro heq
    exact h.ne_none (by rw [heq, Graph.body?_size])
  refine ⟨g₁, g₂, hjump, hbranch, ?_, ?_, htest, ?_, ?_, hne, ?_, ?_⟩
  · refine (hlays.grows.trans hadd fun j hj => hj.elim).trans hgrows fun j hj => ?_
    rw [hj]
    exact .inr (Graph.body?_size g)
  · exact (hadd.stage.trans hgrows.stage).endAt henters
  · exact hgrows.endAt htrueHeader (haddFalse.endAt id htrue)
  · exact hgrows.endAt hfalseHeader hfalse
  · exact hlays.grows.stage.eq_none htrueNew
  · exact (hlays.grows.stage.trans haddTrue.stage).eq_none hfalseNew

/-- From open points control can go on to a block. -/
theorem join_eq_ok {g : Graph} {tip : Option Tip} {q : Option Point} (target : Nat)
    (htip : tip.map Tip.block = q.map Point.block) (hopen : ∀ p, q = some p → g.EndAt p none) :
    ∃ g', join g tip target = .ok g' ∧ g.Grows (fun j => ∃ p, q = some p ∧ j = p.block) g' ∧
      g'.Meets q target := by
  cases q with
  | none =>
    have hnone : tip = none := Option.map_eq_none_iff.mp htip
    exact ⟨g, by rw [hnone, join], .refl g _, fun p hp => by cases hp⟩
  | some p =>
    obtain ⟨tip, rfl, hblock⟩ := Option.map_eq_some_iff.mp htip
    obtain ⟨g', heq, hgrows, hend⟩ := Graph.grows_terminate (t := .jump target) (hopen p rfl)
      (fun name hname => by cases hname)
    refine ⟨g', ?_, ⟨hgrows.stage, fun j body hj => hgrows.others j body fun h => ?_,
      hgrows.closed⟩, fun p' hp' => ?_⟩
    · rw [join, hblock]
      exact heq
    · exact hj ⟨p, rfl, h⟩
    · cases hp'
      exact hend

namespace Branches

variable {g g₁ g₂ g₃ : Graph} {p : Point} {e : Expr} {header onTrue onFalse : Nat}

/-- While code is laid out behind one branch, the other one stays open. -/
theorem onFalse_after (h : Branches g p e header onTrue onFalse g₁) {code : List Code}
    {q : Option Point} (hlays : Lays g₁ (.start onTrue) code q g₂) :
    g₂.EndAt (.start onFalse) none :=
  hlays.grows.endAt (Ne.symm h.ne) h.onFalse_open

/-- The block in which that code ends is a new one, and not the other branch. -/
theorem end_onTrue (h : Branches g p e header onTrue onFalse g₁) {code : List Code}
    {q : Option Point} (hlays : Lays g₁ (.start onTrue) code q g₂) (p' : Point)
    (hp' : q = some p') : g.body? p'.block = none ∧ p'.block ≠ onFalse := by
  rcases hlays.is_new p' hp' with hblock | hnone
  · rw [hblock]
    exact ⟨h.onTrue_new, h.ne⟩
  · refine ⟨h.grows.stage.eq_none hnone, fun heq => ?_⟩
    rw [heq] at hnone
    exact h.onFalse_open.ne_none hnone

/-- **A loop is laid out:** its body behind the first branch, from where control goes back to the
test. -/
theorem loop (h : Branches g p e header onTrue onFalse g₁) {body : List Code} {q : Option Point}
    (hbody : Lays g₁ (.start onTrue) body q g₂) {tip : Option Tip}
    (htip : tip.map Tip.block = q.map Point.block) :
    ∃ g₃, join g₂ tip header = .ok g₃ ∧
      Lays g p [.loop e body] (some (.start onFalse)) g₃ := by
  obtain ⟨g₃, hjoin, hgrows, hmeets⟩ := join_eq_ok header htip hbody.is_open
  have hbranches : g.Grows (· = p.block) g₂ := by
    refine h.grows.trans hbody.grows fun j hj => ?_
    rw [hj]
    exact .inr h.onTrue_new
  have hend := h.end_onTrue hbody
  refine ⟨g₃, hjoin, ?_, fun p' hp' => ?_, fun p' hp' => ?_, fun G hG => ?_⟩
  · refine hbranches.trans hgrows fun j hj => ?_
    obtain ⟨p', hp', rfl⟩ := hj
    exact .inr (hend p' hp').1
  · cases hp'
    refine hgrows.endAt (fun hj => ?_) (h.onFalse_after hbody)
    obtain ⟨p', hp', heq⟩ := hj
    exact (hend p' hp').2 heq.symm
  · cases hp'
    exact .inr h.onFalse_new
  · have h₂ := hgrows.stage.trans hG
    have h₁ := hbody.grows.stage.trans h₂
    exact .jump (h₁.endAt h.enters)
      (.loop (h₁.endAt h.test) (hbody.spans G h₂) (hG.meets hmeets) (.nil _))

/-- **A conditional is laid out:** its arms behind the two branches, from where control goes on to a
new block. -/
theorem cond (h : Branches g p e header onTrue onFalse g₁) {thenBody elseBody : List Code}
    {q r : Option Point} (hthen : Lays g₁ (.start onTrue) thenBody q g₂)
    (helse : Lays g₂ (.start onFalse) elseBody r g₃) {thenTip elseTip : Option Tip}
    (hthenTip : thenTip.map Tip.block = q.map Point.block)
    (helseTip : elseTip.map Tip.block = r.map Point.block) (label : String) :
    ∃ g₄ g₅, join (g₃.addBlock label).2 thenTip g₃.blocks.size = .ok g₄ ∧
      join g₄ elseTip g₃.blocks.size = .ok g₅ ∧
      Lays g p [.cond e thenBody elseBody] (some (.start g₃.blocks.size)) g₅ := by
  have hthenNew := h.end_onTrue hthen
  have hthenOpen : ∀ p', q = some p' → g₃.EndAt p' none := fun p' hp' =>
    helse.grows.endAt (hthenNew p' hp').2 (hthen.is_open p' hp')
  have helseNew : ∀ p', r = some p' → g.body? p'.block = none ∧
      ∀ p'', q = some p'' → p'.block ≠ p''.block := by
    intro p' hp'
    rcases helse.is_new p' hp' with hblock | hnone
    · rw [hblock]
      exact ⟨h.onFalse_new, fun p'' hp'' => Ne.symm (hthenNew p'' hp'').2⟩
    · refine ⟨(h.grows.stage.trans hthen.grows.stage).eq_none hnone, fun p'' hp'' heq => ?_⟩
      rw [heq] at hnone
      exact (hthen.is_open p'' hp'').ne_none hnone
  -- The block where the arms meet is new, so it is none of those in which they end.
  obtain ⟨hadd, hmerge⟩ := Graph.grows_addBlock g₃ label
  have hmergeNe : ∀ p', g₃.EndAt p' none → g₃.blocks.size ≠ p'.block := by
    intro p' hp' heq
    exact hp'.ne_none (by rw [← heq, Graph.body?_size])
  obtain ⟨g₄, hjoin, hgrows, hmeets⟩ := join_eq_ok g₃.blocks.size hthenTip
    fun p' hp' => hadd.endAt id (hthenOpen p' hp')
  obtain ⟨g₅, hjoin', hgrows', hmeets'⟩ := join_eq_ok g₃.blocks.size helseTip fun p' hp' =>
    hgrows.endAt (fun hj => by
      obtain ⟨p'', hp'', heq⟩ := hj
      exact (helseNew p' hp').2 p'' hp'' heq) (hadd.endAt id (helse.is_open p' hp'))
  have harms : g.Grows (· = p.block) g₃ := by
    refine (h.grows.trans hthen.grows fun j hj => ?_).trans helse.grows fun j hj => ?_
    · rw [hj]
      exact .inr h.onTrue_new
    · rw [hj]
      exact .inr h.onFalse_new
  refine ⟨g₄, g₅, hjoin, hjoin', ?_, fun p' hp' => ?_, fun p' hp' => ?_, fun G hG => ?_⟩
  · refine ((harms.trans hadd fun j hj => hj.elim).trans hgrows fun j hj => ?_).trans hgrows'
      fun j hj => ?_
    · obtain ⟨p', hp', rfl⟩ := hj
      exact .inr (hthenNew p' hp').1
    · obtain ⟨p', hp', rfl⟩ := hj
      exact .inr (helseNew p' hp').1
  · cases hp'
    refine hgrows'.endAt (fun hj => ?_) (hgrows.endAt (fun hj => ?_) hmerge)
    · obtain ⟨p', hp', heq⟩ := hj
      exact hmergeNe p' (helse.is_open p' hp') heq
    · obtain ⟨p', hp', heq⟩ := hj
      exact hmergeNe p' (hthenOpen p' hp') heq
  · cases hp'
    exact .inr (harms.stage.eq_none (Graph.body?_size g₃))
  · have h₄ := hgrows'.stage.trans hG
    have h₃ := hadd.stage.trans (hgrows.stage.trans h₄)
    have h₂ := helse.grows.stage.trans h₃
    have h₁ := hthen.grows.stage.trans h₂
    exact .jump (h₁.endAt h.enters)
      (.cond (h₁.endAt h.test) (hthen.spans G h₂) (h₄.meets hmeets) (helse.spans G h₃)
        (hG.meets hmeets') (.nil _))

end Branches

/-! ### The code of a tree -/

/-- Statements without branches read as code.  The flag says whether control comes to their end. -/
inductive Straight (vars : List String) : List Node → List Code → Bool → Prop where
  | nil : Straight vars [] [] true
  | assign {s target value : Node} {rest : List Node} {name : String} {e : Expr}
      {code : List Code} {falls : Bool} (rule : s.rule = .assign)
      (children : s.children = [target, value]) (isName : target.isTerm .ident)
      (reads : value.toExpr vars = .ok e) (names : target.toVariable vars = .ok name)
      (others : Straight vars rest code falls) :
      Straight vars (s :: rest) (.store name e :: code) falls
  | ret {s value : Node} {rest : List Node} {e : Expr} {code : List Code} (rule : s.rule = .ret)
      (children : s.children = [value]) (reads : value.toExpr vars = .ok e) :
      Straight vars (s :: rest) (.ret e :: code) false

/-- The statements of a sequence read as code. -/
inductive Reads (vars : List String) : List Node → List Code → Prop where
  | nil : Reads vars [] []
  | straight {s : Node} {statements rest : List Node} {code after : List Code} {falls : Bool}
      (is : s.straight? = some statements) (reads : Straight vars statements code falls)
      (others : falls = true → Reads vars rest after) : Reads vars (s :: rest) (code ++ after)
  | cond {s test thenBody elseBody : Node} {rest : List Node} {e : Expr}
      {thenCode elseCode after : List Code} (rule : s.rule = .cond)
      (children : s.children = [test, thenBody, elseBody]) (reads : test.toExpr vars = .ok e)
      (thenRule : thenBody.rule = .sequence) (thenReads : Reads vars thenBody.children thenCode)
      (elseRule : elseBody.rule = .sequence) (elseReads : Reads vars elseBody.children elseCode)
      (others : Reads vars rest after) :
      Reads vars (s :: rest) (.cond e thenCode elseCode :: after)
  | loop {s test body : Node} {rest : List Node} {e : Expr} {code after : List Code}
      (rule : s.rule = .loop) (children : s.children = [test, body])
      (reads : test.toExpr vars = .ok e) (bodyRule : body.rule = .sequence)
      (bodyReads : Reads vars body.children code) (others : Reads vars rest after) :
      Reads vars (s :: rest) (.loop e code :: after)

/-- A sequence that starts with an assignment. -/
theorem Reads.assign {vars : List String} {s target value : Node} {rest : List Node} {name : String}
    {e : Expr} {after : List Code} (rule : s.rule = .assign)
    (children : s.children = [target, value]) (isName : target.isTerm .ident)
    (reads : value.toExpr vars = .ok e) (names : target.toVariable vars = .ok name)
    (others : Reads vars rest after) : Reads vars (s :: rest) (.store name e :: after) := by
  have his : s.straight? = some [s] := by rw [Node.straight?, rule]
  exact @Reads.straight vars s [s] rest [.store name e] after true his
    (.assign rule children isName reads names .nil) fun _ => others

/-- A sequence that starts with a return. -/
theorem Reads.ret {vars : List String} {s value : Node} {rest : List Node} {e : Expr}
    {after : List Code} (rule : s.rule = .ret) (children : s.children = [value])
    (reads : value.toExpr vars = .ok e) : Reads vars (s :: rest) (.ret e :: after) := by
  have his : s.straight? = some [s] := by rw [Node.straight?, rule]
  exact @Reads.straight vars s [s] rest [.ret e] after false his (.ret rule children reads) nofun

namespace Node

variable {vars : List String}

theorem mem_of_toVariable {n : Node} {name : String} (h : n.toVariable vars = .ok name) :
    name ∈ vars := by
  unfold toVariable at h
  split at h
  · split at h
    · cases h
      assumption
    · cases h
  · cases h

/-- The variables of an expression are among those that were given. -/
theorem mem_of_mem_loads {n : Node} {e : Expr} (h : n.toExpr vars = .ok e) :
    ∀ name ∈ e.loads, name ∈ vars := by
  fun_induction toExpr vars n generalizing e with
  | case1 => cases h
  | case2 =>
    obtain ⟨x, hvar, rfl⟩ := exists_of_map_eq_ok h
    intro y hy
    rw [Expr.loads, List.mem_singleton] at hy
    rw [hy]
    exact mem_of_toVariable hvar
  | case3 =>
    cases h
    intro x hx
    cases hx
  | case4 => cases h
  | case5 _ _ left _ _ _ operator right ihLeft ihRight =>
    obtain ⟨l, hl, h⟩ := exists_of_bind_eq_ok h
    obtain ⟨op, -, h⟩ := exists_of_bind_eq_ok h
    obtain ⟨r, hr, h⟩ := exists_of_bind_eq_ok h
    cases h
    intro x hx
    rw [Expr.loads, List.mem_append] at hx
    rcases hx with hx | hx
    · exact ihLeft hl x hx
    · exact ihRight hr x hx
  | case6 _ _ operand _ _ _ ih => exact ih h
  | case7 => cases h

/-- An expression with an operator. -/
theorem toExpr_binary {n left middle operator right : Node} {op : Op} {l r : Expr}
    (hrule : n.rule = .value) (hchildren : n.children = [left, middle])
    (hmiddle : middle.children = [operator, right]) (hl : left.toExpr vars = .ok l)
    (hop : operator.toOp = .ok op) (hr : right.toExpr vars = .ok r) :
    n.toExpr vars = .ok (.binary op l r) := by
  obtain ⟨id, rule, token, children⟩ := n
  obtain ⟨id', rule', token', children'⟩ := middle
  cases hrule
  cases hchildren
  cases hmiddle
  rw [toExpr]
  exact (bind_of_eq_ok hl _).trans ((bind_of_eq_ok hop _).trans (bind_of_eq_ok hr _))

/-- An expression without an operator. -/
theorem toExpr_operand {n operand middle : Node} (hrule : n.rule = .value)
    (hchildren : n.children = [operand, middle]) (hmiddle : middle.children = []) :
    n.toExpr vars = operand.toExpr vars := by
  obtain ⟨id, rule, token, children⟩ := n
  obtain ⟨id', rule', token', children'⟩ := middle
  cases hrule
  cases hchildren
  cases hmiddle
  rw [toExpr]

end Node

/-! ### Lowering -/

variable {vars : List String}

/-- Filling a block lays out straight-line code.  Control stands in the block afterwards, unless the
code ends the program. -/
theorem fillBlock_eq_ok {statements : List Node} {code : List Code} {falls : Bool}
    (h : Straight vars statements code falls) :
    ∀ {g : Graph} {p : Point}, g.vars = vars → g.EndAt p none →
      ∃ q g', fillBlock vars p.block g statements =
          .ok (q.map fun p' => ⟨p'.block, false⟩, g') ∧
        q.isSome = falls ∧ Lays g p code q g' := by
  induction h with
  | nil => exact fun {g p} _ hopen => ⟨some p, g, rfl, rfl, .nil hopen⟩
  | @assign s target value rest name e code falls rule children isName reads names _ ih =>
    intro g p hvars hopen
    have hwithin : Store.Within g.vars ⟨name, e⟩ := by
      rw [hvars]
      exact ⟨Node.mem_of_toVariable names, Node.mem_of_mem_loads reads⟩
    have hstore := Lays.store hopen hwithin
    obtain ⟨q, g', hfill, hq, hlays⟩ := ih (p := p.next) (hstore.grows.stage.vars_eq.trans hvars)
      (hstore.is_open _ rfl)
    refine ⟨q, g', ?_, hq, hstore.append hlays⟩
    rw [fillBlock]
    simp only [rule, children, isName, ↓reduceIte, reads, names, bind, Except.bind]
    exact hfill
  | @ret s value rest e code rule children reads =>
    intro g p hvars hopen
    obtain ⟨g', hterm, hlays⟩ := Lays.ret hopen
      (by rw [hvars]; exact Node.mem_of_mem_loads reads) code
    refine ⟨none, g', ?_, rfl, hlays⟩
    rw [fillBlock]
    simp only [rule, children, reads, hterm, bind, Except.bind]
    rfl

/-- Lowering succeeds and lays out code from the point on. -/
def Builds (result : Except LowerError (Option Tip × Graph)) (g : Graph) (p : Point)
    (code : List Code) : Prop :=
  ∃ tip q g', result = .ok (tip, g') ∧ tip.map Tip.block = q.map Point.block ∧ Lays g p code q g'

/-- Straight-line code is laid out in the block of the point or in a new one. -/
theorem lowerBlock_eq_ok {statements : List Node} {code : List Code} {falls : Bool}
    (h : Straight vars statements code falls) {g : Graph} {p : Point} (hvars : g.vars = vars)
    (hopen : g.EndAt p none) (isFresh : Bool) :
    ∃ q g', lowerBlock vars ⟨p.block, isFresh⟩ g statements =
        .ok (q.map fun p' => ⟨p'.block, false⟩, g') ∧
      q.isSome = falls ∧ Lays g p code q g' := by
  cases isFresh with
  | true =>
    obtain ⟨q, g', hfill, hq, hlays⟩ := fillBlock_eq_ok h hvars hopen
    exact ⟨q, g', hfill, hq, hlays⟩
  | false =>
    obtain ⟨g₁, hjump, hnew, -⟩ := Lays.jump hopen "bb"
    obtain ⟨q, g', hfill, hq, hlays⟩ := fillBlock_eq_ok (p := .start g.blocks.size) h
      (hnew.grows.stage.vars_eq.trans hvars) (hnew.is_open _ rfl)
    refine ⟨q, g', ?_, hq, hnew.append hlays⟩
    simp only [lowerBlock, openBlock, Bool.false_eq_true, ↓reduceIte, bind, Except.bind]
    have hadd : g.addBlock "bb" = (g.blocks.size, (g.addBlock "bb").2) := rfl
    rw [hadd]
    simp only [hjump]
    exact hfill

/-- A sequence is laid out statement by statement. -/
theorem builds_cons {s : Node} {rest : List Node} {tip : Tip} {g g' : Graph} {p : Point}
    {code after : List Code} {tip' : Option Tip} {q : Option Point}
    (hstatement : lowerStatement vars tip g s = .ok (tip', g'))
    (htip : tip'.map Tip.block = q.map Point.block) (hlays : Lays g p code q g')
    (hrest : ∀ p', q = some p' → ∀ isFresh,
      Builds (lowerSequence vars ⟨p'.block, isFresh⟩ g' rest) g' p' after) :
    Builds (lowerSequence vars tip g (s :: rest)) g p (code ++ after) := by
  cases q with
  | none =>
    have hnone : tip' = none := Option.map_eq_none_iff.mp htip
    refine ⟨none, none, g', ?_, rfl, hlays.append_of_none⟩
    rw [lowerSequence, hstatement, hnone]
    rfl
  | some p' =>
    obtain ⟨⟨block, isFresh⟩, rfl, hblock⟩ := Option.map_eq_some_iff.mp htip
    obtain ⟨tip'', r, g'', hsequence, htip'', hlays'⟩ := hrest p' rfl isFresh
    refine ⟨tip'', r, g'', ?_, htip'', hlays.append hlays'⟩
    rw [lowerSequence, hstatement]
    simp only [← hblock] at hsequence
    exact hsequence

/-- **Lowering lays out the code that a sequence reads as.** -/
theorem builds_lowerSequence {nodes : List Node} {code : List Code} (h : Reads vars nodes code) :
    ∀ {g : Graph} {p : Point} (isFresh : Bool), g.vars = vars → g.EndAt p none →
      Builds (lowerSequence vars ⟨p.block, isFresh⟩ g nodes) g p code := by
  induction h with
  | nil =>
    intro g p isFresh _ hopen
    exact ⟨some ⟨p.block, isFresh⟩, some p, g, by rw [lowerSequence], rfl, .nil hopen⟩
  | straight is reads _ ih =>
    intro g p isFresh hvars hopen
    obtain ⟨q, g', hblock, hq, hlays⟩ := lowerBlock_eq_ok reads hvars hopen isFresh
    refine builds_cons ((lowerStatement_of_straight is _ _).trans hblock) (by
      rw [Option.map_map]; rfl) hlays fun p' hp' isFresh' => ?_
    rw [hp'] at hq
    exact ih hq.symm isFresh' (hlays.grows.stage.vars_eq.trans hvars) (hlays.is_open p' hp')
  | @cond s test thenBody elseBody rest e thenCode elseCode after rule children reads thenRule _
      elseRule _ _ ihThen ihElse ih =>
    intro g p isFresh hvars hopen
    obtain ⟨g₁, g₂, hjump, hbranch, hbranches⟩ := branches_of_endAt (e := e) hopen
      (by rw [hvars]; exact Node.mem_of_mem_loads reads) "if.cond" "if.then" "if.else"
    -- The arms are laid out one after the other, and the first leaves the block of the second open.
    obtain ⟨thenTip, q, g₃, hthen, hthenTip, hthenLays⟩ := ihThen (p := .start g₁.blocks.size) true
      (hbranches.grows.stage.vars_eq.trans hvars) hbranches.onTrue_open
    obtain ⟨elseTip, r, g₄, helse, helseTip, helseLays⟩ := ihElse true
      (hthenLays.grows.stage.vars_eq.trans (hbranches.grows.stage.vars_eq.trans hvars))
      (hbranches.onFalse_after hthenLays)
    obtain ⟨g₅, g₆, hjoin, hjoin', hlays⟩ :=
      hbranches.cond hthenLays helseLays hthenTip helseTip "if.end"
    -- These are the graphs that lowering hands from one call to the next.
    have hstatement : lowerStatement vars ⟨p.block, isFresh⟩ g s =
        .ok (some ⟨g₄.blocks.size, false⟩, g₆) := by
      obtain ⟨id, srule, token, schildren⟩ := s
      cases rule
      cases children
      rw [← lowerBody_of_sequence thenRule] at hthen
      rw [← lowerBody_of_sequence elseRule] at helse
      rw [lowerStatement]
      refine (bind_of_eq_ok hjump _).trans ?_
      refine (bind_of_eq_ok reads _).trans ?_
      refine (bind_of_eq_ok hbranch _).trans ?_
      refine (bind_of_eq_ok hthen _).trans ?_
      refine (bind_of_eq_ok helse _).trans ?_
      refine (bind_of_eq_ok hjoin _).trans ?_
      exact bind_of_eq_ok hjoin' _
    exact builds_cons hstatement rfl hlays fun p' hp' isFresh' =>
      ih isFresh' (hlays.grows.stage.vars_eq.trans hvars) (hlays.is_open p' hp')
  | @loop s test body rest e code after rule children reads bodyRule _ _ ihBody ih =>
    intro g p isFresh hvars hopen
    obtain ⟨g₁, g₂, hjump, hbranch, hbranches⟩ := branches_of_endAt (e := e) hopen
      (by rw [hvars]; exact Node.mem_of_mem_loads reads) "while.cond" "while.body" "while.end"
    obtain ⟨tip, q, g₃, hbody, htip, hbodyLays⟩ := ihBody (p := .start g₁.blocks.size) true
      (hbranches.grows.stage.vars_eq.trans hvars) hbranches.onTrue_open
    obtain ⟨g₄, hjoin, hlays⟩ := hbranches.loop hbodyLays htip
    have hstatement : lowerStatement vars ⟨p.block, isFresh⟩ g s =
        .ok (some ⟨(g₁.addBlock "while.body").2.blocks.size, false⟩, g₄) := by
      obtain ⟨id, srule, token, schildren⟩ := s
      cases rule
      cases children
      rw [← lowerBody_of_sequence bodyRule] at hbody
      rw [lowerStatement]
      refine (bind_of_eq_ok hjump _).trans ?_
      refine (bind_of_eq_ok reads _).trans ?_
      refine (bind_of_eq_ok hbranch _).trans ?_
      refine (bind_of_eq_ok hbody _).trans ?_
      exact bind_of_eq_ok hjoin _
    exact builds_cons hstatement rfl hlays fun p' hp' isFresh' =>
      ih isFresh' (hlays.grows.stage.vars_eq.trans hvars) (hlays.is_open p' hp')

namespace Graph

theorem endAt_entryOnly (vars : List String) : (entryOnly vars).EndAt (.start 0) none :=
  ⟨[], rfl, rfl⟩

theorem closed_entryOnly (vars : List String) : (entryOnly vars).Closed := by
  intro i stores term hbody
  cases i with
  | zero =>
    cases hbody
    exact ⟨fun s hs => (by cases hs), fun t ht => (by cases ht)⟩
  | succ i => cases hbody

/-- **The graph of a tree ends as its code does.**  Lowering a tree that reads as code succeeds, the
graph speaks of the given variables only, and executing it from its entry ends in the same ways as
executing the code. -/
theorem lower_of_reads {vars : List String} {root : Node} {code : List Code}
    (hrule : root.rule = .sequence) (h : Reads vars root.children code) :
    ∃ g, lower vars root = .ok g ∧ g.vars = vars ∧ g.Closed ∧
      ∀ env result, (∃ n, run Code.step n code env = some result) ↔
        ∃ n, run g.blockStep n 0 env = some result := by
  obtain ⟨tip, q, g, hlower, -, hlays⟩ := builds_lowerSequence h (g := entryOnly vars)
    (p := .start 0) false rfl (endAt_entryOnly vars)
  refine ⟨g, ?_, hlays.grows.stage.vars_eq, hlays.grows.closed (closed_entryOnly vars),
    fun env result => ?_⟩
  · rw [lower, if_pos hrule]
    exact bind_of_eq_ok hlower _
  · have hcontinues : Continues g (.start 0) (code ++ []) :=
      (hlays.spans g (.refl g)).continues fun p' hp' => .done (hlays.is_open p' hp')
    rw [List.append_nil] at hcontinues
    rw [hcontinues.ends_iff, ends_blockStep_iff]

end Graph

end BlockFlow
