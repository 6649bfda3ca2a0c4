import BlockFlow.Proofs.Lowering.Regularity
import BlockFlow.Proofs.Tree.Normalization

/-!
# Where lowering gives up

The normal tree of a program can be lowered unless there is an operator in it that the language does
not have.  Lowering drops what stands behind a return, so only the operators of statements that it
comes to matter (`Statement.Reached`): if one of them is unknown, lowering names it, and otherwise
there is a graph (`Statement.lower_ok_or_unknownOperator`).
-/

namespace BlockFlow

open Lowering
open Statement (tokensAll ProperAll)

/-! ### Statements that are come to -/

namespace Statement

/-- The expression of a statement: the value that it returns or assigns, or its test. -/
def expression : Statement → Expression
  | ret _ value _ => value
  | assign _ _ value _ => value
  | cond _ test .. => test
  | loop _ test .. => test

/-- The sequences inside a statement. -/
def bodies : Statement → List (List Statement)
  | ret .. | assign .. => []
  | cond _ _ _ thenBody _ _ _ elseBody _ => [thenBody, elseBody]
  | loop _ _ _ body _ => [body]

/-- The statement occurs in the sequence or inside one of its statements, and neither it nor a
statement around it comes behind a return in its own sequence. -/
inductive Reached : List Statement → Statement → Prop where
  | here (before : List Statement) (s : Statement) (after : List Statement)
      (noReturn : ∀ r ∈ before, ¬ r.isReturn) : Reached (before ++ s :: after) s
  | inside (before : List Statement) (outer : Statement) (after : List Statement)
      (noReturn : ∀ r ∈ before, ¬ r.isReturn) {body : List Statement} (isBody : body ∈ outer.bodies)
      {s : Statement} (reached : Reached body s) : Reached (before ++ outer :: after) s

theorem reached_cons_iff {first s : Statement} {rest : List Statement} :
    Reached (first :: rest) s ↔ s = first ∨ (∃ body ∈ first.bodies, Reached body s) ∨
      ¬ first.isReturn ∧ Reached rest s := by
  constructor
  · intro h
    generalize hprogram : first :: rest = program at h
    cases h with
    | here before s after noReturn =>
      cases before with
      | nil =>
        cases hprogram
        exact .inl rfl
      | cons r before =>
        cases hprogram
        obtain ⟨hfirst, hbefore⟩ := List.forall_mem_cons.mp noReturn
        exact .inr (.inr ⟨hfirst, .here before s after hbefore⟩)
    | inside before outer after noReturn isBody reached =>
      cases before with
      | nil =>
        cases hprogram
        exact .inr (.inl ⟨_, isBody, reached⟩)
      | cons r before =>
        cases hprogram
        obtain ⟨hfirst, hbefore⟩ := List.forall_mem_cons.mp noReturn
        exact .inr (.inr ⟨hfirst, .inside before outer after hbefore isBody reached⟩)
  · rintro (rfl | ⟨body, isBody, reached⟩ | ⟨hfirst, reached⟩)
    · exact .here [] s rest nofun
    · exact .inside [] first rest nofun isBody reached
    · cases reached with
      | here before s after noReturn =>
        exact .here (first :: before) s after (List.forall_mem_cons.mpr ⟨hfirst, noReturn⟩)
      | inside before outer after noReturn isBody reached =>
        exact .inside (first :: before) outer after (List.forall_mem_cons.mpr ⟨hfirst, noReturn⟩)
          isBody reached

/-- The operators of all statements that are come to belong to the language. -/
def Legible (program : List Statement) : Prop :=
  ∀ s, Reached program s → ∀ t ∈ s.expression.tokens, t.OperatorKnown

theorem legible_nil : Legible [] := by
  intro s hs
  generalize hprogram : [] = program at hs
  cases hs <;> simp at hprogram

theorem legible_cons_iff {s : Statement} {rest : List Statement} : Legible (s :: rest) ↔
    (∀ t ∈ s.expression.tokens, t.OperatorKnown) ∧ (∀ body ∈ s.bodies, Legible body) ∧
      (¬ s.isReturn → Legible rest) := by
  unfold Legible
  constructor
  · intro h
    refine ⟨h s (reached_cons_iff.mpr (.inl rfl)), fun body hbody s' hs' => ?_,
      fun hreturn s' hs' => ?_⟩
    · exact h s' (reached_cons_iff.mpr (.inr (.inl ⟨body, hbody, hs'⟩)))
    · exact h s' (reached_cons_iff.mpr (.inr (.inr ⟨hreturn, hs'⟩)))
  · rintro ⟨hs, hbodies, hrest⟩ s' hs'
    rcases reached_cons_iff.mp hs' with rfl | ⟨body, hbody, hs'⟩ | ⟨hreturn, hs'⟩
    · exact hs
    · exact hbodies body hbody s' hs'
    · exact hrest hreturn s' hs'

theorem legible_append_iff {first second : List Statement} : Legible (first ++ second) ↔
    Legible first ∧ ((∀ s ∈ first, ¬ s.isReturn) → Legible second) := by
  induction first with
  | nil => simp [legible_nil]
  | cons s rest ih =>
    rw [List.cons_append, legible_cons_iff, legible_cons_iff, ih, List.forall_mem_cons]
    tauto

theorem legible_cond_iff {word opening closing elseWord elseOpening elseClosing : Token}
    {test : Expression} {thenBody elseBody : List Statement} :
    Legible [.cond word test opening thenBody closing elseWord elseOpening elseBody elseClosing] ↔
      (∀ t ∈ test.tokens, t.OperatorKnown) ∧ Legible thenBody ∧ Legible elseBody := by
  simp [legible_cons_iff, legible_nil, expression, bodies]

theorem legible_loop_iff {word opening closing : Token} {test : Expression}
    {body : List Statement} : Legible [.loop word test opening body closing] ↔
      (∀ t ∈ test.tokens, t.OperatorKnown) ∧ Legible body := by
  simp [legible_cons_iff, legible_nil, expression, bodies]

/-- The tokens of a statement that is come to are tokens of the program. -/
theorem Reached.tokens_subset {program : List Statement} {s : Statement} (h : Reached program s) :
    ∀ t ∈ s.expression.tokens, t ∈ tokensAll program := by
  induction h with
  | here before s after noReturn =>
    intro t ht
    have hs : t ∈ s.tokens := by
      cases s <;> simp_all [expression, tokens]
    simp [tokensAll, hs]
  | inside before outer after noReturn isBody reached ih =>
    intro t ht
    have hbody := ih t ht
    have houter : t ∈ outer.tokens := by
      cases outer with
      | ret => cases isBody
      | assign => cases isBody
      | cond =>
        rcases List.mem_pair.mp isBody with rfl | rfl
        all_goals simp [tokens, hbody]
      | loop =>
        obtain rfl := List.mem_singleton.mp isBody
        simp [tokens, hbody]
    simp [tokensAll, houter]

end Statement

/-! ### Steps that depend on operators -/

/-- What is done succeeds if the condition holds, with a result that has the property, and otherwise
names an operator that is not one of the language; or it would end a block twice. -/
def Decides {α : Type} (x : Except LowerError α) (condition : Prop) (P : α → Prop) : Prop :=
  match x with
  | .ok a => condition ∧ P a
  | .error e => (∃ block, e = .terminatedTwice block) ∨ ¬ condition ∧ ∃ node symbol,
      e = .atNode node (.unknownOperator symbol) ∧
        symbol ∉ ['+', '-', '*', '/', '<', '>', '=', '≤', '≥']

namespace Decides

variable {α β : Type} {x : Except LowerError α} {f : α → Except LowerError β}
  {condition condition' : Prop} {P : α → Prop} {Q : β → Prop}

theorem ok {a : α} (ha : P a) : Decides (.ok a : Except LowerError α) True P :=
  ⟨trivial, ha⟩

theorem bind (h : Decides x condition P) (hf : ∀ a, P a → Decides (f a) condition' Q) :
    Decides (x >>= f) (condition ∧ condition') Q := by
  cases x with
  | error e => exact h.imp_right fun ⟨hnot, hnode⟩ => ⟨fun hboth => hnot hboth.1, hnode⟩
  | ok a =>
    have hnext := hf a h.2
    change Decides (f a) _ Q
    cases hresult : f a with
    | error e =>
      rw [hresult] at hnext
      exact hnext.imp_right fun ⟨hnot, hnode⟩ => ⟨fun hboth => hnot hboth.2, hnode⟩
    | ok b =>
      rw [hresult] at hnext
      exact ⟨⟨h.1, hnext.1⟩, hnext.2⟩

/-- A step that operators do not matter to. -/
theorem bind_true (h : Decides x True P) (hf : ∀ a, P a → Decides (f a) condition' Q) :
    Decides (x >>= f) condition' Q := by
  rw [← true_and condition']
  exact h.bind hf

/-- Behind the last step that operators matter to. -/
theorem bind_last (h : Decides x condition P) (hf : ∀ a, P a → Decides (f a) True Q) :
    Decides (x >>= f) condition Q := by
  rw [← and_true condition]
  exact h.bind hf

theorem imp {P' : α → Prop} (h : Decides x condition P) (hP : ∀ a, P a → P' a) :
    Decides x condition P' := by
  cases x with
  | error e => exact h
  | ok a => exact ⟨h.1, hP a h.2⟩

theorem congr (h : Decides x condition P) (hiff : condition ↔ condition') :
    Decides x condition' P := by
  rwa [← propext hiff]

end Decides

/-! ### Expressions -/

theorem Op.mem_of_ofSymbol? {symbol : Char} {op : Op} (h : ofSymbol? symbol = some op) :
    symbol ∈ ['+', '-', '*', '/', '<', '>', '=', '≤', '≥'] := by
  unfold ofSymbol? at h
  split at h
  case h_10 => cases h
  all_goals decide

theorem Token.operatorKnown_of_isOperand {t : Token} (h : ParseState.isOperand t.kind) :
    t.OperatorKnown := by
  intro symbol hsymbol
  rw [kind, hsymbol] at h
  cases h

variable {vars : List String}

/-- The tree of an expression reads as an expression, unless its operator is unknown. -/
theorem Expression.IsTree.decides {e : Expression} {n : Node} (h : e.IsTree n) (hproper : e.Proper)
    (hnames : ∀ t ∈ e.tokens, t.NameIn vars) :
    Decides (n.toExpr vars) (∀ t ∈ e.tokens, t.OperatorKnown) fun _ => True := by
  by_cases hknown : ∀ t ∈ e.tokens, t.OperatorKnown
  · rw [h.toExpr_eq hproper fun t ht => ⟨hknown t ht, hnames t ht⟩]
    exact ⟨hknown, trivial⟩
  · have hleft := Token.operatorKnown_of_isOperand hproper.1
    cases h with
    | operand id left => exact absurd (by simpa [tokens] using hleft) hknown
    | binary id idLeft idTail idOperator idRight left operator right =>
      have hright := Token.operatorKnown_of_isOperand (hproper.2 operator right rfl).2
      have hoperator : ¬ operator.OperatorKnown := fun hoperator =>
        hknown (by simpa [tokens] using ⟨hleft, hoperator, hright⟩)
      obtain ⟨symbol, hsymbol, hforeign⟩ : ∃ symbol, operator.lexeme = .op symbol ∧
          symbol ∉ ['+', '-', '*', '/', '<', '>', '=', '≤', '≥'] := by
        simpa [Token.OperatorKnown] using hoperator
      have hnone : Op.ofSymbol? symbol = none := by
        cases hsome : Op.ofSymbol? symbol with
        | none => rfl
        | some op => exact absurd (Op.mem_of_ofSymbol? hsome) hforeign
      have htoOp : Node.toOp ⟨idOperator, .term, some operator, []⟩ =
          .error (.atNode ⟨idOperator, .term, some operator, []⟩ (.unknownOperator symbol)) := by
        obtain ⟨lexeme, span⟩ := operator
        cases hsymbol
        simp only [Node.toOp, hnone]
      have hread := Node.toExpr_leaf idLeft hproper.1 (hnames left (by simp [tokens]))
      rw [Node.toExpr, hread, htoOp]
      exact .inr ⟨hknown, _, symbol, rfl, hforeign⟩

/-! ### Statements -/

theorem decides_terminate (g : Graph) (i : Nat) (t : Terminator) :
    Decides (g.terminate i t) True fun _ => True := by
  unfold Graph.terminate
  split
  · exact .inl ⟨_, rfl⟩
  · exact .ok trivial

theorem decides_join (g : Graph) (tip : Option Tip) (target : Nat) :
    Decides (join g tip target) True fun _ => True := by
  unfold join
  split
  · exact decides_terminate _ _ _
  · exact .ok trivial

theorem decides_openBlock (g : Graph) (tip : Tip) :
    Decides (openBlock g tip) True fun _ => True := by
  unfold openBlock
  split
  · exact .ok trivial
  · exact (decides_terminate _ _ _).bind_true fun _ _ => .ok trivial

namespace Statement

/-- Straight-line code can be put into a block if its operators are known as far as the first
return. -/
theorem decides_fillBlock (i : Nat) {run : List Statement} :
    ∀ {nodes : List Node} {g : Graph}, AreTrees Grouping run nodes → (∀ s ∈ run, ¬ s.isBranch) →
      ProperAll run → (∀ t ∈ tokensAll run, t.NameIn vars) →
      Decides (fillBlock vars i g nodes) (Legible run) fun result =>
        result.1.isSome ↔ ∀ s ∈ run, ¬ s.isReturn := by
  induction run with
  | nil =>
    intro nodes g htrees _ _ _
    cases htrees
    exact ⟨legible_nil, by simp⟩
  | cons s rest ih =>
    intro nodes g htrees hrun hproper hnames
    obtain ⟨hs, hbranch⟩ := List.forall_mem_cons.mp hrun
    cases htrees with
    | cons tree trees =>
      cases tree with
      | cond => exact absurd rfl hs
      | loop => exact absurd rfl hs
      | ret id word delimiter value =>
        obtain ⟨⟨-, hvalue, -⟩, -⟩ := hproper
        have hexpr := value.decides hvalue fun t ht => hnames t (by simp [tokensAll, tokens, ht])
        rw [fillBlock]
        refine (hexpr.bind fun e _ => (decides_terminate g i _).bind_true fun g' _ =>
          .ok ?_).congr ?_
        · simp [isReturn]
        · simp [legible_cons_iff, expression, bodies, isReturn]
      | assign id idTarget target sign delimiter value =>
        obtain ⟨⟨htarget, -, hvalue, -⟩, hrest⟩ := hproper
        have hexpr := value.decides hvalue fun t ht => hnames t (by simp [tokensAll, tokens, ht])
        obtain ⟨hisTerm, hvariable⟩ := Node.toVariable_leaf idTarget htarget
          (hnames target (by simp [tokensAll, tokens]))
        have hothers := fun g => @ih _ g trees hbranch hrest
          fun t ht => hnames t (by simp [tokensAll, ht])
        rw [fillBlock]
        simp only [hisTerm, hvariable, if_true]
        refine ((hexpr.bind fun e _ => hothers _).congr ?_).imp fun result hresult => ?_
        · simp [legible_cons_iff, expression, bodies, isReturn]
        · simp [hresult, isReturn]

/-- What follows a statement is come to unless the statement returns. -/
theorem decides_lowerSequence_cons {first second : List Statement} {n : Node} {nodes : List Node}
    {tip : Tip} {g : Graph}
    (hfirst : Decides (lowerStatement vars tip g n) (Legible first) fun result =>
      result.1.isSome ↔ ∀ s ∈ first, ¬ s.isReturn)
    (hsecond : ∀ tip g, Decides (lowerSequence vars tip g nodes) (Legible second) fun _ => True) :
    Decides (lowerSequence vars tip g (n :: nodes)) (Legible (first ++ second)) fun _ => True := by
  rw [lowerSequence, legible_append_iff]
  refine hfirst.bind ?_
  rintro ⟨tip', g'⟩ hresult
  cases tip' with
  | none => exact ⟨fun hnone => absurd (hresult.mpr hnone) Bool.false_ne_true, trivial⟩
  | some tip' =>
    have hnone := hresult.mp rfl
    exact (hsecond tip' g').congr ⟨fun h _ => h, fun h => h hnone⟩

mutual

/-- A conditional or a loop can be lowered if the operators that are come to in it are known, and
control goes on behind it. -/
theorem decides_lowerStatement : ∀ {s : Statement} {n : Node}, IsTree Grouping s n → s.isBranch →
    s.Proper → (∀ t ∈ s.tokens, t.NameIn vars) → ∀ {tip : Tip} {g : Graph},
      Decides (lowerStatement vars tip g n) (Legible [s]) fun result => result.1.isSome
  | _, _, .ret .., hs, _, _, _, _ => by cases hs
  | _, _, .assign .., hs, _, _, _, _ => by cases hs
  | _, _, .cond _ _ _ _ _ _ _ tree thenTree elseTree, _, ⟨_, htest, _, hthen, _, _, _, helse, _⟩,
      hnames, tip, g => by
    have hexpr := tree.decides htest fun t ht => hnames t (by simp [tokens, ht])
    rw [lowerStatement, legible_cond_iff]
    refine (decides_terminate _ _ _).bind_true fun g₁ _ => hexpr.bind fun e _ => ?_
    refine (decides_terminate _ _ _).bind_true fun g₂ _ => ?_
    refine (decides_lowerBody thenTree hthen fun t ht => hnames t (by simp [tokens, ht])).bind ?_
    rintro ⟨thenEnd, g₃⟩ -
    refine (decides_lowerBody elseTree helse fun t ht =>
      hnames t (by simp [tokens, ht])).bind_last ?_
    rintro ⟨elseEnd, g₄⟩ -
    refine (decides_join _ _ _).bind_true fun g₅ _ => ?_
    exact (decides_join _ _ _).bind_true fun g₆ _ => .ok rfl
  | _, _, .loop _ _ _ _ tree bodyTree, _, ⟨_, htest, _, hbody, _⟩, hnames, tip, g => by
    have hexpr := tree.decides htest fun t ht => hnames t (by simp [tokens, ht])
    rw [lowerStatement, legible_loop_iff]
    refine (decides_terminate _ _ _).bind_true fun g₁ _ => hexpr.bind fun e _ => ?_
    refine (decides_terminate _ _ _).bind_true fun g₂ _ => ?_
    refine (decides_lowerBody bodyTree hbody fun t ht =>
      hnames t (by simp [tokens, ht])).bind_last ?_
    rintro ⟨bodyEnd, g₃⟩ -
    exact (decides_join _ _ _).bind_true fun g₄ _ => .ok rfl

/-- A body can be lowered if the operators that are come to in it are known. -/
theorem decides_lowerBody : ∀ {program : List Statement} {n : Node},
    IsSequenceTree Grouping program n → ProperAll program →
    (∀ t ∈ tokensAll program, t.NameIn vars) → ∀ {tip : Tip} {g : Graph},
      Decides (lowerBody vars tip g n) (Legible program) fun _ => True
  | _, _, .mk _ arranged trees, hproper, hnames, tip, g => by
    have hprogram := arranged.statements_eq
    rw [lowerBody]
    rw [← hprogram] at hproper hnames ⊢
    exact decides_lowerSequence trees arranged.fits hproper hnames

/-- **Groups of statements can be lowered if the operators that are come to are known.** -/
theorem decides_lowerSequence : ∀ {groups : List Group} {nodes : List Node},
    AreGroupTrees Grouping groups nodes → (∀ group ∈ groups, group.Fits) →
    ProperAll (groups.flatMap Group.statements) →
    (∀ t ∈ tokensAll (groups.flatMap Group.statements), t.NameIn vars) →
    ∀ {tip : Tip} {g : Graph}, Decides (lowerSequence vars tip g nodes)
      (Legible (groups.flatMap Group.statements)) fun _ => True
  | _, _, .nil, _, _, _, _, _ => ⟨legible_nil, trivial⟩
  | .alone s :: rest, _, .alone tree trees, hfits, ⟨hs, hrest⟩, hnames, tip, g => by
    obtain ⟨hbranch, hfits⟩ := List.forall_mem_cons.mp hfits
    have hreturn : ¬ s.isReturn := not_isReturn_of_isBranch hbranch
    have hfirst := @decides_lowerStatement _ _ tree hbranch hs
      (fun t ht => hnames t (by simp [Group.statements, tokensAll, ht])) tip g
    have hothers := fun tip g => @decides_lowerSequence _ _ trees hfits hrest
      (fun t ht => hnames t (by simp [Group.statements, tokensAll, ht])) tip g
    exact decides_lowerSequence_cons (hfirst.imp fun result hresult => by
      simpa [hresult, Group.statements] using hreturn) hothers
  | .block run :: rest, _, .block _ inside trees, hfits, hproper, hnames, tip, g => by
    obtain ⟨hrun, hfits⟩ := List.forall_mem_cons.mp hfits
    rw [List.flatMap_cons, Group.statements, properAll_append] at hproper
    have hfirst := fun i g => @decides_fillBlock vars i run _ g inside (IsRun.not_isBranch hrun)
      hproper.1 fun t ht => hnames t (by simp [Group.statements, ht])
    have hothers := fun tip g => @decides_lowerSequence _ _ trees hfits hproper.2
      (fun t ht => hnames t (by simp [Group.statements, ht])) tip g
    refine decides_lowerSequence_cons ?_ hothers
    rw [lowerStatement]
    exact (decides_openBlock g tip).bind_true fun opened _ => hfirst opened.1 opened.2

end

/-- **The tree of a program can be lowered unless there is an unknown operator in a statement that
is come to,** and lowering then says which. -/
theorem lower_ok_or_unknownOperator {program : List Statement} {root : Node}
    (h : IsSequenceTree Grouping program root) (hproper : ProperAll program)
    (hnames : ∀ t ∈ tokensAll program, t.NameIn vars) :
    (Legible program ∧ ∃ g, Graph.lower vars root = .ok g) ∨
      ¬ Legible program ∧ ∃ node symbol,
        Graph.lower vars root = .error (.atNode node (.unknownOperator symbol)) ∧
          symbol ∉ ['+', '-', '*', '/', '<', '>', '=', '≤', '≥'] := by
  have hdecides : Decides (Graph.lower vars root) (Legible program) fun _ => True := by
    obtain ⟨id, arranged, trees⟩ := h
    have hprogram := arranged.statements_eq
    rw [Graph.lower, if_pos rfl]
    rw [← hprogram] at hproper hnames ⊢
    refine (decides_lowerSequence trees arranged.fits hproper hnames).bind_last ?_
    exact fun _ _ => .ok trivial
  have hsafely := Graph.safely_lower vars root
  cases hlower : Graph.lower vars root with
  | ok g =>
    rw [hlower] at hdecides
    exact .inl ⟨hdecides.1, g, rfl⟩
  | error e =>
    rw [hlower] at hdecides hsafely
    rcases hdecides with ⟨block, rfl⟩ | ⟨hnot, node, symbol, rfl, hforeign⟩
    · exact absurd rfl (hsafely block)
    · exact .inr ⟨hnot, node, symbol, rfl, hforeign⟩

end Statement

end BlockFlow
