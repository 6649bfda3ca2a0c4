import BlockFlow.Proofs.Lowering.Construction

/-!
# What can be lowered reads as code

Statements that read as code can be lowered (`builds_lowerSequence`).  Here the converse is shown:
lowering gives up on every tree that does not read as code (`Graph.exists_lower_iff`).  So whether
there is a graph is a question about the tree alone, and the graph under construction, the block in
which control stands and the way blocks are opened have no part in it.

The traversal follows the calls of lowering.  A statement can be lowered without regard to those
behind it if it ends the program, and so the rest of a sequence is asked about only if control comes
there.
-/

namespace BlockFlow

open Lowering

variable {vars : List String}

/-! ### Straight-line code -/

/-- What fills a block is straight-line code.  Control stands in the block afterwards exactly if it
comes to the end of the code. -/
theorem straight_of_fillBlock {statements : List Node} {i : Nat} {tip : Option Tip} :
    ∀ {g g' : Graph}, fillBlock vars i g statements = .ok (tip, g') →
      ∃ code, Straight vars statements code tip.isSome := by
  induction statements with
  | nil =>
    intro g g' h
    cases h
    exact ⟨[], .nil⟩
  | cons s rest ih =>
    intro g g' h
    rw [fillBlock] at h
    split at h
    · rename_i hrule
      split at h
      · rename_i target value hchildren
        split at h
        · rename_i hname
          obtain ⟨e, he, h⟩ := exists_of_bind_eq_ok h
          obtain ⟨name, hvariable, h⟩ := exists_of_bind_eq_ok h
          obtain ⟨code, hcode⟩ := ih h
          exact ⟨_, .assign hrule hchildren hname he hvariable hcode⟩
        · cases h
      · cases h
    · rename_i hrule
      split at h
      · rename_i value hchildren
        obtain ⟨e, he, h⟩ := exists_of_bind_eq_ok h
        obtain ⟨g₁, -, h⟩ := exists_of_bind_eq_ok h
        cases h
        exact ⟨[.ret e], .ret hrule hchildren he⟩
      · cases h
    · cases h

/-- A statement that is straight-line code reads as such, and what follows it has to read as code
only if control comes there. -/
theorem reads_of_straight {s : Node} {statements : List Node} (his : s.straight? = some statements)
    {tip : Tip} {g g' : Graph} {tip' : Option Tip}
    (h : lowerStatement vars tip g s = .ok (tip', g')) {rest : List Node}
    (hrest : tip'.isSome = true → ∃ after, Reads vars rest after) :
    ∃ code, Reads vars (s :: rest) code := by
  rw [lowerStatement_of_straight his] at h
  obtain ⟨⟨i, g₁⟩, -, hfill⟩ := exists_of_bind_eq_ok h
  obtain ⟨code, hcode⟩ := straight_of_fillBlock hfill
  cases tip' with
  | none => exact ⟨code ++ [], .straight his hcode fun hfalls => by cases hfalls⟩
  | some tip' =>
    obtain ⟨after, hafter⟩ := hrest rfl
    exact ⟨code ++ after, .straight his hcode fun _ => hafter⟩

/-! ### Whole trees -/

/-- What a statement is that can be lowered: straight-line code, or a conditional or a loop whose
bodies can be lowered.  Behind a conditional or a loop control always stands somewhere. -/
theorem lowerStatement_cases {s : Node} {tip : Tip} {g g' : Graph} {tip' : Option Tip}
    (h : lowerStatement vars tip g s = .ok (tip', g')) :
    (∃ statements, s.straight? = some statements) ∨
    (∃ test thenBody elseBody e, s.rule = .cond ∧ s.children = [test, thenBody, elseBody] ∧
      test.toExpr vars = .ok e ∧ (∃ tip g r, lowerBody vars tip g thenBody = .ok r) ∧
      (∃ tip g r, lowerBody vars tip g elseBody = .ok r) ∧ tip'.isSome = true) ∨
    ∃ test body e, s.rule = .loop ∧ s.children = [test, body] ∧ test.toExpr vars = .ok e ∧
      (∃ tip g r, lowerBody vars tip g body = .ok r) ∧ tip'.isSome = true := by
  unfold lowerStatement at h
  split at h
  · exact .inl ⟨_, rfl⟩
  · exact .inl ⟨_, rfl⟩
  · exact .inl ⟨_, rfl⟩
  · rename_i test thenBody elseBody
    obtain ⟨g₁, -, h⟩ := exists_of_bind_eq_ok h
    obtain ⟨e, he, h⟩ := exists_of_bind_eq_ok h
    obtain ⟨g₂, -, h⟩ := exists_of_bind_eq_ok h
    obtain ⟨r₃, hthen, h⟩ := exists_of_bind_eq_ok h
    obtain ⟨r₄, helse, h⟩ := exists_of_bind_eq_ok h
    obtain ⟨g₅, -, h⟩ := exists_of_bind_eq_ok h
    obtain ⟨g₆, -, h⟩ := exists_of_bind_eq_ok h
    cases h
    exact .inr (.inl ⟨test, thenBody, elseBody, e, rfl, rfl, he, ⟨_, _, r₃, hthen⟩,
      ⟨_, _, r₄, helse⟩, rfl⟩)
  · cases h
  · rename_i test body
    obtain ⟨g₁, -, h⟩ := exists_of_bind_eq_ok h
    obtain ⟨e, he, h⟩ := exists_of_bind_eq_ok h
    obtain ⟨g₂, -, h⟩ := exists_of_bind_eq_ok h
    obtain ⟨r₃, hbody, h⟩ := exists_of_bind_eq_ok h
    obtain ⟨g₄, -, h⟩ := exists_of_bind_eq_ok h
    cases h
    exact .inr (.inr ⟨test, body, e, rfl, rfl, he, ⟨_, _, r₃, hbody⟩, rfl⟩)
  · cases h
  · cases h

/-- If it can be lowered, the statement reads as code with what follows it, as far as control comes
there. -/
def Node.ReadsIfLowered (vars : List String) (s : Node) : Prop :=
  ∀ ⦃tip : Tip⦄ ⦃g g' : Graph⦄ ⦃tip' : Option Tip⦄, lowerStatement vars tip g s = .ok (tip', g') →
    ∀ ⦃rest : List Node⦄, (tip'.isSome = true → ∃ after, Reads vars rest after) →
      ∃ code, Reads vars (s :: rest) code

theorem reads_of_lowerSequence {nodes : List Node} (hnodes : ∀ s ∈ nodes, s.ReadsIfLowered vars)
    {tip : Tip} {g : Graph} {result : Option Tip × Graph}
    (h : lowerSequence vars tip g nodes = .ok result) : ∃ code, Reads vars nodes code := by
  induction nodes generalizing tip g with
  | nil => exact ⟨[], .nil⟩
  | cons s rest ih =>
    obtain ⟨hs, hrest⟩ := List.forall_mem_cons.mp hnodes
    rw [lowerSequence] at h
    obtain ⟨⟨tip', g'⟩, hstatement, h⟩ := exists_of_bind_eq_ok h
    refine hs hstatement fun hsome => ?_
    cases tip' with
    | none => cases hsome
    | some tip' => exact ih hrest h

theorem reads_of_lowerBody {n : Node} (hn : ∀ s ∈ n.children, s.ReadsIfLowered vars)
    (h : ∃ tip g result, lowerBody vars tip g n = .ok result) :
    n.rule = .sequence ∧ ∃ code, Reads vars n.children code := by
  obtain ⟨tip, g, result, h⟩ := h
  unfold lowerBody at h
  split at h
  · exact ⟨rfl, reads_of_lowerSequence hn h⟩
  · cases h

/-- **Statements that can be lowered read as code.** -/
theorem Node.readsIfLowered (s : Node) : s.ReadsIfLowered vars := by
  -- A body stands below its statement and its statements below the body, so the induction goes down
  -- two levels at a time.
  have hboth : s.ReadsIfLowered vars ∧ ∀ c ∈ s.children, c.ReadsIfLowered vars := by
    induction s using Node.induct with | node s ih
    refine ⟨?_, fun c hc => (ih c hc).1⟩
    intro tip g g' tip' h rest hrest
    rcases lowerStatement_cases h with ⟨statements, his⟩ |
      ⟨test, thenBody, elseBody, e, hrule, hchildren, he, hthen, helse, hsome⟩ |
      ⟨test, body, e, hrule, hchildren, he, hbody, hsome⟩
    · exact reads_of_straight his h hrest
    · obtain ⟨after, hafter⟩ := hrest hsome
      obtain ⟨hthenRule, thenCode, hthen⟩ :=
        reads_of_lowerBody (ih thenBody (by simp [hchildren])).2 hthen
      obtain ⟨helseRule, elseCode, helse⟩ :=
        reads_of_lowerBody (ih elseBody (by simp [hchildren])).2 helse
      exact ⟨_, .cond hrule hchildren he hthenRule hthen helseRule helse hafter⟩
    · obtain ⟨after, hafter⟩ := hrest hsome
      obtain ⟨hbodyRule, code, hbody⟩ := reads_of_lowerBody (ih body (by simp [hchildren])).2 hbody
      exact ⟨_, .loop hrule hchildren he hbodyRule hbody hafter⟩
  exact hboth.1

namespace Graph

/-- **There is a graph of a tree exactly if the tree is a sequence that reads as code.** -/
theorem exists_lower_iff {root : Node} : (∃ g, lower vars root = .ok g) ↔
    root.rule = .sequence ∧ ∃ code, Reads vars root.children code := by
  constructor
  · rintro ⟨g, h⟩
    unfold lower at h
    split at h
    · rename_i hrule
      obtain ⟨result, hsequence, -⟩ := exists_of_bind_eq_ok h
      exact ⟨hrule, reads_of_lowerSequence (fun s _ => s.readsIfLowered) hsequence⟩
    · cases h
  · rintro ⟨hrule, code, hcode⟩
    obtain ⟨g, hg, -⟩ := lower_of_reads hrule hcode
    exact ⟨g, hg⟩

end Graph

end BlockFlow
