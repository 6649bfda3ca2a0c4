import BlockFlow.Proofs.Recognition
import BlockFlow.Proofs.Lowering.Code

/-!
# Statements as code

A statement becomes code when the tokens of its expressions are read as expressions of graphs
(`Statement.code`).  For proper statements whose operators belong to the language both are executed
in step: what the interpreter does with the statements is what is done with their code
(`Statement.ends_interpret_iff`).
-/

namespace BlockFlow

open Progress
open Statement (tokensAll ProperAll)

/-! ### Tokens -/

namespace Token

/-- The operand that a token stands for. -/
def operand (t : Token) : Expr :=
  match t.lexeme with
  | .number value => .const value
  | .ident name => .load name
  | _ => .absent

/-- The operator that a token stands for. -/
def operator (t : Token) : Op :=
  match t.lexeme with
  | .op symbol => (Op.ofSymbol? symbol).getD (.other 0)
  | _ => .other 0

/-- If the token is an operator, it is one of the nine operators of the language. -/
def OperatorKnown (t : Token) : Prop :=
  ∀ symbol, t.lexeme = .op symbol → symbol ∈ ['+', '-', '*', '/', '<', '>', '=', '≤', '≥']

theorem valueIn_operand (t : Token) (env : Env) : t.operand.valueIn env = t.value env := by
  unfold operand value
  cases t.lexeme <;> rfl

end Token

namespace Op

theorem isSome_ofSymbol? {symbol : Char}
    (h : symbol ∈ ['+', '-', '*', '/', '<', '>', '=', '≤', '≥']) :
    ∃ op, ofSymbol? symbol = some op := by
  simp only [List.mem_cons, List.not_mem_nil, or_false] at h
  rcases h with rfl | rfl | rfl | rfl | rfl | rfl | rfl | rfl | rfl
  all_goals exact ⟨_, rfl⟩

/-- The quotient of words is the quotient of the integers, rounded toward zero and wrapped
around. -/
theorem div_eq_ofInt (l r : Int64) : l / r = .ofInt (l.toInt.tdiv r.toInt) := by
  apply Int64.toInt_inj.mp
  rw [Int64.toInt_div, Int64.toInt_ofInt]

/-- **The operators compute what their symbols mean.** -/
theorem eval_ofSymbol? {symbol : Char} {op : Op} (h : ofSymbol? symbol = some op) (l r : Int64) :
    (match op.eval l r with
      | some value => .ok value
      | none => .error (Machine.operatorError op)) = Expression.operate symbol l r := by
  unfold ofSymbol? at h
  split at h
  case h_4 =>
    cases h
    simp only [eval, Expression.operate]
    by_cases hr : r = 0
    · rw [if_pos hr, if_pos hr]
      rfl
    · rw [if_neg hr, if_neg hr, div_eq_ofInt]
  case h_10 => cases h
  all_goals cases h
  all_goals simp [eval, Expression.operate, truth, Int64.lt_iff_toInt_lt, Int64.le_iff_toInt_le,
    Int64.toInt_inj]

end Op

/-! ### Expressions and statements -/

namespace Expression

/-- The expression of graphs that an expression stands for. -/
def expr (e : Expression) : Expr :=
  match e.tail with
  | none => e.left.operand
  | some (operator, right) => .binary operator.operator e.left.operand right.operand

/-- An expression has the value that the interpreter gives it. -/
theorem valueIn_expr {e : Expression} (hproper : e.Proper)
    (hknown : ∀ t ∈ e.tokens, t.OperatorKnown) (env : Env) : e.expr.valueIn env = e.value env := by
  obtain ⟨left, tail⟩ := e
  rcases tail with _ | ⟨operator, right⟩
  · exact left.valueIn_operand env
  · obtain ⟨symbol, hsymbol⟩ : ∃ symbol, operator.lexeme = .op symbol := by
      have hkind := (hproper.2 operator right rfl).1
      unfold Token.kind at hkind
      cases hlexeme : operator.lexeme <;> rw [hlexeme] at hkind <;> cases hkind
      exact ⟨_, rfl⟩
    have hmem : operator ∈ tokens ⟨left, some (operator, right)⟩ := by
      simp [tokens]
    obtain ⟨op, hop⟩ := Op.isSome_ofSymbol? (hknown operator hmem symbol hsymbol)
    have hoperator : operator.operator = op := by
      rw [Token.operator, hsymbol]
      simp only [hop, Option.getD_some]
    have hl := left.valueIn_operand env
    have hr := right.valueIn_operand env
    unfold Expr.valueIn at hl hr ⊢
    simp only [expr, value, Expr.evaluate, hoperator, hl, hr, hsymbol]
    cases left.value env with
    | error error => rfl
    | ok l =>
      cases right.value env with
      | error error => rfl
      | ok r => exact Op.eval_ofSymbol? hop l r

end Expression

namespace Statement

mutual

/-- The code of a statement. -/
def code : Statement → Code
  | ret _ value _ => .ret value.expr
  | assign target _ value _ => .store target.variableName value.expr
  | cond _ test _ thenBody _ _ _ elseBody _ =>
    .cond test.expr (codeAll thenBody) (codeAll elseBody)
  | loop _ test _ body _ => .loop test.expr (codeAll body)

/-- The code of statements. -/
def codeAll : List Statement → List Code
  | [] => []
  | s :: rest => code s :: codeAll rest

end

theorem codeAll_append (first second : List Statement) :
    codeAll (first ++ second) = codeAll first ++ codeAll second := by
  induction first with
  | nil => rfl
  | cons s rest ih => rw [List.cons_append, codeAll, ih, codeAll, List.cons_append]

/-- Statements that the interpreter can execute: proper ones, whose operators belong to the
language. -/
structure Executable (program : List Statement) : Prop where
  /-- Every token has the kind that its place asks for. -/
  proper : ProperAll program
  /-- The operators are operators of the language. -/
  known : ∀ t ∈ tokensAll program, t.OperatorKnown

namespace Executable

variable {s : Statement} {first second rest : List Statement}

theorem append (h : Executable first) (h' : Executable second) : Executable (first ++ second) where
  proper := (properAll_append first second).mpr ⟨h.proper, h'.proper⟩
  known t ht := by
    rw [tokensAll_append, List.mem_append] at ht
    exact ht.elim (h.known t) (h'.known t)

theorem tail (h : Executable (s :: rest)) : Executable rest where
  proper := h.proper.2
  known t ht := h.known t (by rw [tokensAll]; exact List.mem_append_right _ ht)

theorem head_known (h : Executable (s :: rest)) : ∀ t ∈ s.tokens, t.OperatorKnown :=
  fun t ht => h.known t (by rw [tokensAll]; exact List.mem_append_left _ ht)

end Executable

/-- **Statements and their code are executed in step.** -/
theorem alike_step {program : List Statement} (h : Executable program) (env : Env) :
    Alike (fun program code => code = codeAll program ∧ Executable program) (step program env)
      (Code.step (codeAll program) env) := by
  match program, h with
  | [], h => exact .ended _ _
  | .ret word value delimiter :: rest, h =>
    have hvalue := value.valueIn_expr h.proper.1.2.1
      (fun t ht => h.head_known t (by simp [tokens, ht])) env
    rw [step, codeAll, code, Code.step, hvalue]
    exact .withValue _ _ fun v => .ended _ _
  | .assign target sign value delimiter :: rest, h =>
    have hvalue := value.valueIn_expr h.proper.1.2.2.1
      (fun t ht => h.head_known t (by simp [tokens, ht])) env
    rw [step, codeAll, code, Code.step, hvalue]
    exact .withValue _ _ fun v => .going ⟨rfl, h.tail⟩ _
  | .cond word test opening thenBody closing elseWord elseOpening elseBody elseClosing :: rest, h =>
    obtain ⟨-, htest, -, hthen, -, -, -, helse, -⟩ := h.proper.1
    have hvalue := test.valueIn_expr htest
      (fun t ht => h.head_known t (by simp [tokens, ht])) env
    have hthen : Executable thenBody :=
      ⟨hthen, fun t ht => h.head_known t (by simp [tokens, ht])⟩
    have helse : Executable elseBody :=
      ⟨helse, fun t ht => h.head_known t (by simp [tokens, ht])⟩
    rw [step, codeAll, code, Code.step, hvalue]
    refine .withValue _ _ fun v => .going ?_ _
    split
    · exact ⟨(codeAll_append _ _).symm, hthen.append h.tail⟩
    · exact ⟨(codeAll_append _ _).symm, helse.append h.tail⟩
  | .loop word test opening body closing :: rest, h =>
    obtain ⟨-, htest, -, hbody, -⟩ := h.proper.1
    have hvalue := test.valueIn_expr htest
      (fun t ht => h.head_known t (by simp [tokens, ht])) env
    have hbody : Executable body :=
      ⟨hbody, fun t ht => h.head_known t (by simp [tokens, ht])⟩
    rw [step, codeAll, code, Code.step, hvalue]
    refine .withValue _ _ fun v => .going ?_ _
    split
    · refine ⟨?_, hbody.append h⟩
      rw [codeAll_append, codeAll, code]
    · exact ⟨rfl, h.tail⟩

/-- **A program ends as its code does.** -/
theorem ends_interpret_iff {program : List Statement} (h : Executable program) (env : Env)
    (result : Ending × Env) : (∃ n, interpret n program env = some result) ↔
      ∃ n, run Code.step n (codeAll program) env = some result := by
  refine ends_iff (R := fun program code => code = codeAll program ∧ Executable program) ?_
    ⟨rfl, h⟩ env result
  rintro program _ env ⟨rfl, hprogram⟩
  exact (alike_step hprogram env).answered

end Statement

end BlockFlow
