import BlockFlow.Proofs.Lowering.Code

/-!
# Where code lies in a graph

`Spans g p code q` says that code lies in a graph from the point `p` on: executing the graph from
there does what the code says, and where the code is done control stands at the point `q`, or
nowhere if the code always ends the program before.  Jumps may stand anywhere between two pieces of
code, and what follows a return need not lie anywhere.

A stretch of code is followed by other code, which lies elsewhere; a loop is followed by itself.
`Continues g p code` says that all the code that is still to be executed can be found from `p` on.
It is kept by every step (`Continues.answered`), and so a graph in which code lies ends exactly as
the code does (`Continues.ends_iff`).
-/

namespace BlockFlow

open Progress

namespace Graph

/-! ### What stands behind a point -/

/-- A store stands behind the point. -/
def StoreAt (g : Graph) (p : Point) (s : Store) : Prop :=
  ∃ stores term, g.body? p.block = some (stores, term) ∧ stores[p.index]? = some s

/-- The point is behind all stores of its block, in front of the terminator. -/
def EndAt (g : Graph) (p : Point) (term : Option Terminator) : Prop :=
  ∃ stores, g.body? p.block = some (stores, term) ∧ stores.length = p.index

variable {g : Graph} {p : Point}

theorem StoreAt.pointStep {s : Store} (h : g.StoreAt p s) (env : Env) :
    g.pointStep p env = withValue (s.value.valueIn env) env fun v =>
      .going p.next (Function.update env s.name v) := by
  obtain ⟨stores, term, hbody, hstore⟩ := h
  simp only [Graph.pointStep, hbody, hstore]

theorem EndAt.pointStep {term : Option Terminator} (h : g.EndAt p term) (env : Env) :
    g.pointStep p env = (exitStep term env).map Point.start := by
  obtain ⟨stores, hbody, hlength⟩ := h
  have hnone : stores[p.index]? = none := List.getElem?_eq_none (by omega)
  simp only [Graph.pointStep, hbody, hnone]

/-- Control goes on to a block from the point, if there is one. -/
def Meets (g : Graph) (q : Option Point) (target : Nat) : Prop :=
  ∀ p, q = some p → g.EndAt p (some (.jump target))

end Graph

/-! ### Stretches of code -/

/-- The code lies in the graph from the first point on, up to the second one. -/
inductive Spans (g : Graph) : Point → List Code → Option Point → Prop where
  | nil (p : Point) : Spans g p [] (some p)
  | store {p : Point} {name : String} {e : Expr} {rest : List Code} {q : Option Point}
      (here : g.StoreAt p ⟨name, e⟩) (others : Spans g p.next rest q) :
      Spans g p (.store name e :: rest) q
  /-- Nothing behind a return is executed, so it need not lie anywhere. -/
  | ret {p : Point} {e : Expr} {rest : List Code} (here : g.EndAt p (some (.ret e))) :
      Spans g p (.ret e :: rest) none
  | jump {p : Point} {target : Nat} {code : List Code} {q : Option Point}
      (here : g.EndAt p (some (.jump target))) (there : Spans g (.start target) code q) :
      Spans g p code q
  /-- Both arms go on to the block where they meet. -/
  | cond {p : Point} {test : Expr} {onTrue onFalse merge : Nat} {thenBody elseBody rest : List Code}
      {thenEnd elseEnd q : Option Point} (here : g.EndAt p (some (.branch test onTrue onFalse)))
      (thenArm : Spans g (.start onTrue) thenBody thenEnd) (thenMeets : g.Meets thenEnd merge)
      (elseArm : Spans g (.start onFalse) elseBody elseEnd) (elseMeets : g.Meets elseEnd merge)
      (others : Spans g (.start merge) rest q) :
      Spans g p (.cond test thenBody elseBody :: rest) q
  /-- The body goes back to the test. -/
  | loop {header : Nat} {test : Expr} {onTrue onFalse : Nat} {body rest : List Code}
      {bodyEnd q : Option Point}
      (here : g.EndAt (.start header) (some (.branch test onTrue onFalse)))
      (arm : Spans g (.start onTrue) body bodyEnd) (armMeets : g.Meets bodyEnd header)
      (others : Spans g (.start onFalse) rest q) :
      Spans g (.start header) (.loop test body :: rest) q

namespace Spans

variable {g : Graph} {p q : Point} {end? : Option Point} {code after : List Code}

/-- Stretches that follow each other are one stretch. -/
theorem append (h : Spans g p code (some q)) (h' : Spans g q after end?) :
    Spans g p (code ++ after) end? := by
  generalize hq : some q = middle at h
  induction h with
  | nil p => cases hq; exact h'
  | store here _ ih => exact .store here (ih hq)
  | ret here => cases hq
  | jump here _ ih => exact .jump here (ih hq)
  | cond here thenArm thenMeets elseArm elseMeets _ _ _ ih =>
    exact .cond here thenArm thenMeets elseArm elseMeets (ih hq)
  | loop here arm armMeets _ _ ih => exact .loop here arm armMeets (ih hq)

/-- Code that always ends the program may be followed by anything. -/
theorem append_of_none (h : Spans g p code none) : Spans g p (code ++ after) none := by
  generalize hq : none = middle at h
  induction h with
  | nil p => cases hq
  | store here _ ih => exact .store here (ih hq)
  | ret here => exact .ret here
  | jump here _ ih => exact .jump here (ih hq)
  | cond here thenArm thenMeets elseArm elseMeets _ _ _ ih =>
    exact .cond here thenArm thenMeets elseArm elseMeets (ih hq)
  | loop here arm armMeets _ _ ih => exact .loop here arm armMeets (ih hq)

end Spans

/-! ### All that is still to be executed -/

/-- All the code that is still to be executed can be found from the point on. -/
inductive Continues (g : Graph) : Point → List Code → Prop where
  | done {p : Point} (here : g.EndAt p none) : Continues g p []
  | store {p : Point} {name : String} {e : Expr} {rest : List Code}
      (here : g.StoreAt p ⟨name, e⟩) (others : Continues g p.next rest) :
      Continues g p (.store name e :: rest)
  | ret {p : Point} {e : Expr} {rest : List Code} (here : g.EndAt p (some (.ret e))) :
      Continues g p (.ret e :: rest)
  | jump {p : Point} {target : Nat} {code : List Code} (here : g.EndAt p (some (.jump target)))
      (there : Continues g (.start target) code) : Continues g p code
  | cond {p : Point} {test : Expr} {onTrue onFalse : Nat} {thenBody elseBody rest : List Code}
      (here : g.EndAt p (some (.branch test onTrue onFalse)))
      (thenArm : Continues g (.start onTrue) (thenBody ++ rest))
      (elseArm : Continues g (.start onFalse) (elseBody ++ rest)) :
      Continues g p (.cond test thenBody elseBody :: rest)
  /-- The body lies in the graph up to where it goes back; what follows it then is the loop again,
  which is why it is a stretch and not a continuation. -/
  | loop {header : Nat} {test : Expr} {onTrue onFalse : Nat} {body rest : List Code}
      {bodyEnd : Option Point}
      (here : g.EndAt (.start header) (some (.branch test onTrue onFalse)))
      (arm : Spans g (.start onTrue) body bodyEnd) (armMeets : g.Meets bodyEnd header)
      (others : Continues g (.start onFalse) rest) :
      Continues g (.start header) (.loop test body :: rest)

variable {g : Graph} {p : Point} {code rest : List Code}

/-- A stretch of code, and what follows at its end, can be found from its beginning on. -/
theorem Spans.continues {q : Option Point} (h : Spans g p code q)
    (hrest : ∀ p', q = some p' → Continues g p' rest) : Continues g p (code ++ rest) := by
  induction h generalizing rest with
  | nil p => exact hrest p rfl
  | store here _ ih => exact .store here (ih hrest)
  | ret here => exact .ret here
  | jump here _ ih => exact .jump here (ih hrest)
  | cond here _ thenMeets _ elseMeets _ ihThen ihElse ihOthers =>
    have hothers := ihOthers hrest
    refine .cond here (ihThen fun p' hp => ?_) (ihElse fun p' hp => ?_)
    · exact .jump (thenMeets p' hp) hothers
    · exact .jump (elseMeets p' hp) hothers
  | loop here arm armMeets _ _ ih => exact .loop here arm armMeets (ih hrest)

/-- **The graph answers every step of the code** that can be found in it. -/
theorem Continues.answered (h : Continues g p code) (env : Env) :
    Answered g.pointStep (fun code p => Continues g p code) p env (Code.step code env) := by
  induction h with
  | done here =>
    refine Alike.answered ?_
    rw [here.pointStep]
    exact .ended _ _
  | store here others _ =>
    refine Alike.answered ?_
    rw [here.pointStep, Code.step]
    refine .withValue _ _ fun v => .going ?_ _
    exact others
  | ret here =>
    refine Alike.answered ?_
    rw [here.pointStep, Code.step, exitStep, map_withValue]
    exact .withValue _ _ fun v => .ended _ _
  | jump here _ ih =>
    refine .before ?_ ih
    rw [here.pointStep]
    rfl
  | cond here thenArm elseArm _ _ =>
    refine Alike.answered ?_
    rw [here.pointStep, Code.step, exitStep, map_withValue]
    refine .withValue _ _ fun v => .going ?_ _
    split
    · exact thenArm
    · exact elseArm
  | loop here arm armMeets others _ =>
    refine Alike.answered ?_
    rw [here.pointStep, Code.step, exitStep, map_withValue]
    refine .withValue _ _ fun v => .going ?_ _
    split
    · -- Behind the body control comes back here, where the loop is found again.
      exact arm.continues fun p' hp =>
        .jump (armMeets p' hp) (.loop here arm armMeets others)
    · exact others

/-- **A graph ends as the code does that lies in it.** -/
theorem Continues.ends_iff (h : Continues g p code) (env : Env) (result : Ending × Env) :
    (∃ n, run Code.step n code env = some result) ↔
      ∃ n, run g.pointStep n p env = some result :=
  Progress.ends_iff (R := fun code p => Continues g p code)
    (fun _ _ env h => h.answered env) h env result

end BlockFlow
