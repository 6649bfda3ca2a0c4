import BlockFlow.Proofs.Tree.Grammatical

/-!
# Rewriting the parts of statements

Two of the passes leave alone how statements are arranged and change only what the statements are
made of: one puts operands in place of expressions, the other drops noise.  Both are cases of one
operation (`Node.rewriteParts`).  It goes down to the parts of statements and puts other parts,
given by a function, in place of each; so two such passes in a row are one
(`Node.rewriteParts_rewriteParts`), and it is enough to compare what becomes of parts.

On grammatical trees the passes are this operation (`Node.Grammatical.flattenValues_eq`,
`Node.Grammatical.removeNoise_eq`).  On other trees they are not: they also look below leaves and
into expressions of a foreign shape.
-/

namespace BlockFlow

namespace Node

/-! ### Rewriting parts -/

mutual

/-- The tree in which the parts below the root are replaced. -/
def rewriteParts (h : Node → List Node) : Node → Node
  | ⟨id, rule, token, children⟩ => ⟨id, rule, token, rewritePartsAll h children⟩

/-- Replaces trees that are parts, and goes into the others. -/
def rewritePartsAll (h : Node → List Node) : List Node → List Node
  | [] => []
  | child :: rest =>
    (if child.rule.isPart then h child else [rewriteParts h child]) ++ rewritePartsAll h rest

end

/-- What comes in place of a tree below the root. -/
def rewritten (h : Node → List Node) (n : Node) : List Node :=
  if n.rule.isPart then h n else [n.rewriteParts h]

theorem IsPart.rewritten_eq {h : Node → List Node} {n : Node} (hn : n.IsPart) :
    n.rewritten h = h n :=
  if_pos hn.rule_isPart

theorem rewritten_of_not_isPart {h : Node → List Node} {n : Node} (hn : n.rule.isPart = false) :
    n.rewritten h = [n.rewriteParts h] :=
  if_neg (by rw [hn]; decide)

theorem rewritePartsAll_eq_flatMap (h : Node → List Node) (ns : List Node) :
    rewritePartsAll h ns = ns.flatMap (rewritten h) := by
  induction ns with
  | nil => rfl
  | cons n rest ih =>
    rw [rewritePartsAll, ih, List.flatMap_cons]
    rfl

theorem rewriteParts_eq (h : Node → List Node) (n : Node) :
    n.rewriteParts h = ⟨n.id, n.rule, n.token, n.children.flatMap (rewritten h)⟩ := by
  obtain ⟨id, rule, token, children⟩ := n
  rw [rewriteParts, rewritePartsAll_eq_flatMap]

@[simp] theorem rule_rewriteParts (h : Node → List Node) (n : Node) :
    (n.rewriteParts h).rule = n.rule := by
  rw [rewriteParts_eq]

@[simp] theorem children_rewriteParts (h : Node → List Node) (n : Node) :
    (n.rewriteParts h).children = n.children.flatMap (rewritten h) := by
  rw [rewriteParts_eq]

/-- Parts come in place of parts. -/
def KeepsParts (h : Node → List Node) : Prop :=
  ∀ n : Node, n.IsPart → ∀ p ∈ h n, p.IsPart

variable {nested : Bool} {h h' : Node → List Node} {n : Node}

/-- In place of a statement comes a single tree of the same rule. -/
theorem flatMap_rewritten_of_not_isPart {ns : List Node} (hns : ∀ c ∈ ns, c.rule.isPart = false) :
    ns.flatMap (rewritten h) = ns.map (rewriteParts h) := by
  rw [← List.flatMap_singleton' (ns.map _), List.flatMap_map]
  exact List.flatMap_congr fun c hc => rewritten_of_not_isPart (hns c hc)

/-- The statements of a flat sequence stay statements. -/
theorem flat_rewriteParts
    (hn : n.rule = .sequence → ∀ c ∈ n.children, c.rule.isStatement = true)
    (hrule : (n.rewriteParts h).rule = .sequence) :
    ∀ c ∈ (n.rewriteParts h).children, c.rule.isStatement = true := by
  rw [rule_rewriteParts] at hrule
  have hstatements := hn hrule
  rw [children_rewriteParts, flatMap_rewritten_of_not_isPart fun c hc =>
    not_isPart_of_isStatement (hstatements c hc)]
  simpa using hstatements

/-- Rewriting keeps pairs. -/
theorem rewriteParts_pair {s rest : Node} (hs : s.rule.isStatement = true)
    (hrest : rest.rule = .sequence) (id id' : Nat) (token token' : Option Token) :
    rewriteParts h ⟨id, .sequence, token, [⟨id', .wrapper, token', [s]⟩, rest]⟩ =
      ⟨id, .sequence, token,
        [⟨id', .wrapper, token', [s.rewriteParts h]⟩, rest.rewriteParts h]⟩ := by
  have hrest : rest.rule.isPart = false := by rw [hrest]; rfl
  have hwrapper : Rule.wrapper.isPart = false := rfl
  simp [rewriteParts, rewritePartsAll, hrest, hwrapper, not_isPart_of_isStatement hs]

/-- **Rewriting keeps a tree grammatical.** -/
theorem Grammatical.rewriteParts (hn : n.Grammatical nested) (hh : KeepsParts h)
    (hrule : n.rule.isPart = false) : (n.rewriteParts h).Grammatical nested := by
  induction hn with
  | part hpart =>
    rw [hpart.rule_isPart] at hrule
    cases hrule
  | @pair s rest is_nested id id' token token' statement rest_eq _ _ ihFirst ihOthers =>
    rw [rewriteParts_pair statement rest_eq]
    exact .pair is_nested id id' token token' (by simpa using statement) (by simpa using rest_eq)
      (ihFirst (not_isPart_of_isStatement statement)) (ihOthers (by rw [rest_eq]; rfl))
  | @node n not_part flat below ih =>
    refine .node (by simpa using not_part) (flat_rewriteParts flat) fun c hc => ?_
    rw [children_rewriteParts] at hc
    obtain ⟨c', hc', hc⟩ := List.mem_flatMap.mp hc
    cases hpart : c'.rule.isPart with
    | true =>
      have hc' := (below c' hc').isPart hpart
      rw [hc'.rewritten_eq] at hc
      exact .part (hh c' hc' c hc)
    | false =>
      rw [rewritten_of_not_isPart hpart, List.mem_singleton] at hc
      rw [hc]
      exact ih c' hc' hpart

/-- Rewriting depends on what becomes of parts only. -/
theorem rewriteParts_congr (hn : n.Grammatical nested) (hrule : n.rule.isPart = false)
    (hh : ∀ c : Node, c.IsPart → h c = h' c) : n.rewriteParts h = n.rewriteParts h' := by
  refine hn.induct ?pair ?node hrule
  case pair =>
    intro s rest id id' token token' hs hrest ihFirst ihRest
    rw [rewriteParts_pair hs hrest, rewriteParts_pair hs hrest, ihFirst, ihRest]
  case node =>
    intro n _ _ hbelow
    have hchildren : ∀ c ∈ n.children, c.rewritten h = c.rewritten h' := by
      intro c hc
      rcases hbelow c hc with hpart | ⟨hpart, ih⟩
      · rw [hpart.rewritten_eq, hpart.rewritten_eq, hh c hpart]
      · rw [rewritten_of_not_isPart hpart, rewritten_of_not_isPart hpart, ih]
    rw [rewriteParts_eq, rewriteParts_eq, List.flatMap_congr hchildren]

/-- Rewriting twice is rewriting once. -/
theorem rewriteParts_rewriteParts (hn : n.Grammatical nested) (hrule : n.rule.isPart = false)
    (hh : KeepsParts h) :
    (n.rewriteParts h).rewriteParts h' = n.rewriteParts fun c => (h c).flatMap h' := by
  refine hn.induct ?pair ?node hrule
  case pair =>
    intro s rest id id' token token' hs hrest ihFirst ihRest
    rw [rewriteParts_pair hs hrest, rewriteParts_pair (by simpa using hs) (by simpa using hrest),
      rewriteParts_pair hs hrest, ihFirst, ihRest]
  case node =>
    intro n _ _ hbelow
    have hchildren : ∀ c ∈ n.children,
        (c.rewritten h).flatMap (rewritten h') = c.rewritten fun c => (h c).flatMap h' := by
      intro c hc
      rcases hbelow c hc with hpart | ⟨hpart, ih⟩
      · rw [hpart.rewritten_eq, hpart.rewritten_eq]
        exact List.flatMap_congr fun p hp => (hh c hpart p hp).rewritten_eq
      · rw [rewritten_of_not_isPart hpart, rewritten_of_not_isPart hpart, List.flatMap_singleton,
          rewritten_of_not_isPart (by simpa using hpart), ih]
    rw [rewriteParts_eq, rewriteParts_eq, rewriteParts_eq]
    simp only [List.flatMap_assoc]
    rw [List.flatMap_congr hchildren]

/-! ### The passes that rewrite parts -/

/-- What acts on the children of a node one by one, and replaces those of them that are parts,
rewrites parts. -/
theorem Grammatical.eq_rewriteParts {f : Node → Node} {g : Node → List Node}
    (hf : ∀ n : Node, f n = ⟨n.id, n.rule, n.token, n.children.flatMap g⟩)
    (hpart : ∀ c : Node, c.IsPart → g c = h c)
    (hother : ∀ c : Node, c.rule.isPart = false → g c = [f c])
    (hn : n.Grammatical nested) (hrule : n.rule.isPart = false) : f n = n.rewriteParts h := by
  refine hn.induct ?pair ?node hrule
  case pair =>
    intro s rest id id' token token' hs hrest ihFirst ihRest
    have hwrapper : ∀ c : Node, g ⟨id', .wrapper, token', [c]⟩ =
        [⟨id', .wrapper, token', g c⟩] := by
      intro c
      rw [hother _ rfl, hf]
      simp
    rw [rewriteParts_pair hs hrest, ← ihFirst, ← ihRest, hf]
    simp [hwrapper, hother s (not_isPart_of_isStatement hs), hother rest (by rw [hrest]; rfl)]
  case node =>
    intro n _ _ hbelow
    have hchildren : ∀ c ∈ n.children, g c = c.rewritten h := by
      intro c hc
      rcases hbelow c hc with hc | ⟨hc, ih⟩
      · rw [hpart c hc, hc.rewritten_eq]
      · rw [hother c hc, rewritten_of_not_isPart hc, ih]
    rw [hf, rewriteParts_eq, List.flatMap_congr hchildren]

/-- Below a part stand parts that are neither expressions nor noise. -/
theorem IsPart.of_mem_children (hn : n.IsPart) {c : Node} (hc : c ∈ n.children) :
    c.IsPart ∧ c.rule ≠ .value ∧ c.isNoise = false := by
  have hword : ∀ {c : Node}, c.IsWord → c.IsPart ∧ c.rule ≠ .value ∧ c.isNoise = false := by
    intro c hc
    exact ⟨hc.isPart, by simp [hc.rule_eq], hc.isNoise_eq⟩
  cases hn with
  | leaf _ children_eq => simp [children_eq] at hc
  | tail _ words => exact hword (words c hc)
  | value _ children_eq operand_word tail_eq words =>
    rw [children_eq] at hc
    rcases List.mem_pair.mp hc with rfl | rfl
    · exact hword operand_word
    · exact ⟨.tail tail_eq words, by simp [tail_eq], by simp [isNoise, kind?, tail_eq]⟩

theorem leaf_eq_self (hn : n.children = []) : n.leaf = n := by
  rw [Node.leaf, ← hn, mk_eta]

/-- What acts on the children of a node one by one, and replaces only expressions and noise, leaves
parts alone. -/
theorem IsPart.eq_self {f : Node → Node} {g : Node → List Node}
    (hf : ∀ n : Node, f n = ⟨n.id, n.rule, n.token, n.children.flatMap g⟩)
    (hg : ∀ c : Node, c.IsPart → c.rule ≠ .value → c.isNoise = false → f c = c → g c = [c])
    (hn : n.IsPart) : f n = n := by
  refine IsPart.induct ?_ hn
  intro n hn ih
  have hchildren : ∀ c ∈ n.children, g c = [c] := by
    intro c hc
    obtain ⟨hpart, hvalue, hnoise⟩ := hn.of_mem_children hc
    exact hg c hpart hvalue hnoise (ih c hc)
  rw [hf, List.flatMap_congr hchildren, List.flatMap_singleton', mk_eta]

/-! ### Flattening expressions -/

/-- In place of an expression without an operator comes its operand. -/
def withoutTail (n : Node) : List Node :=
  if n.isOperandOnly then n.children.take 1 else [n]

theorem isOperandOnly_iff : n.isOperandOnly = true ↔ ∃ id token operand id' token',
    n = ⟨id, .value, token, [operand, ⟨id', .tail, token', []⟩]⟩ := by
  constructor
  · intro hn
    obtain ⟨id, rule, token, children⟩ := n
    unfold isOperandOnly at hn
    split at hn
    · rename_i operand id' token' hrule hchildren
      cases hrule
      cases hchildren
      exact ⟨id, token, operand, id', token', rfl⟩
    · cases hn
  · rintro ⟨id, token, operand, id', token', rfl⟩
    rfl

theorem isOperandOnly_of_ne (hn : n.rule ≠ .value) : ¬ n.isOperandOnly = true := by
  intro honly
  obtain ⟨id, token, operand, id', token', rfl⟩ := isOperandOnly_iff.mp honly
  exact hn rfl

/-- What the pass that flattens expressions puts in place of a tree below the root. -/
def valueFlattened (n : Node) : List Node :=
  if n.isOperandOnly then (n.children.take 1).map leaf else [n.flattenValues]

theorem valueFlattened_of_ne (hn : n.rule ≠ .value) : n.valueFlattened = [n.flattenValues] :=
  if_neg (isOperandOnly_of_ne hn)

theorem flattenValues_eq_flatMap (n : Node) :
    n.flattenValues = ⟨n.id, n.rule, n.token, n.children.flatMap valueFlattened⟩ := by
  have hall : ∀ ns, flattenValuesAll ns = ns.flatMap valueFlattened := by
    intro ns
    induction ns with
    | nil => rfl
    | cons c rest ih =>
      rw [List.flatMap_cons, ← ih]
      by_cases honly : c.isOperandOnly = true
      · obtain ⟨id, token, operand, id', token', rfl⟩ := isOperandOnly_iff.mp honly
        rfl
      · rw [valueFlattened, if_neg honly, flattenValuesAll, List.singleton_append]
        rintro id token operand id' token' rfl
        exact honly rfl
  rw [flattenValues_eq, hall]

theorem IsPart.flattenValues_eq (hn : n.IsPart) : n.flattenValues = n := by
  apply hn.eq_self flattenValues_eq_flatMap
  intro c _ hvalue _ ih
  rw [valueFlattened_of_ne hvalue, ih]

/-- An operand is a leaf, so all of it comes in place of its expression. -/
theorem IsPart.valueFlattened_eq (hn : n.IsPart) : n.valueFlattened = n.withoutTail := by
  unfold valueFlattened withoutTail
  split
  · next honly =>
    obtain ⟨id, token, operand, id', token', rfl⟩ := isOperandOnly_iff.mp honly
    cases hn with
    | leaf rule_eq => cases rule_eq
    | tail rule_eq => cases rule_eq
    | value _ children_eq operand_word =>
      cases children_eq
      exact congrArg ([·]) (leaf_eq_self operand_word.children_eq)
  · rw [hn.flattenValues_eq]

/-- **Flattening expressions rewrites parts.** -/
theorem Grammatical.flattenValues_eq (hn : n.Grammatical nested) (hrule : n.rule.isPart = false) :
    n.flattenValues = n.rewriteParts withoutTail := by
  apply hn.eq_rewriteParts flattenValues_eq_flatMap (fun c hc => hc.valueFlattened_eq) _ hrule
  intro c hc
  exact valueFlattened_of_ne fun hvalue => by rw [hvalue] at hc; cases hc

/-- What comes in place of a part is a part that would stay itself.  It is no noise unless the part
is. -/
theorem IsPart.of_mem_withoutTail (hn : n.IsPart) {p : Node} (hp : p ∈ n.withoutTail) :
    p.IsPart ∧ p.withoutTail = [p] ∧ (n.isNoise = false → p.isNoise = false) := by
  unfold withoutTail at hp
  split at hp
  · obtain ⟨hpart, hvalue, hnoise⟩ := hn.of_mem_children (List.mem_of_mem_take hp)
    exact ⟨hpart, if_neg (isOperandOnly_of_ne hvalue), fun _ => hnoise⟩
  · next honly =>
    rw [List.mem_singleton.mp hp]
    exact ⟨hn, if_neg honly, fun hnoise => hnoise⟩

theorem keepsParts_withoutTail : KeepsParts withoutTail := fun _ hn _ hp =>
  (hn.of_mem_withoutTail hp).1

theorem IsPart.withoutTail_withoutTail (hn : n.IsPart) :
    n.withoutTail.flatMap withoutTail = n.withoutTail := by
  rw [List.flatMap_congr fun p hp => (hn.of_mem_withoutTail hp).2.1, List.flatMap_singleton']

/-! ### Dropping noise -/

/-- In place of noise comes nothing. -/
def withoutNoise (n : Node) : List Node :=
  if n.isNoise then [] else [n]

/-- What the pass that drops noise puts in place of a tree below the root. -/
def noiseRemoved (n : Node) : List Node :=
  if n.isNoise then [] else [if n.kind?.isSome then n.leaf else n.removeNoise]

theorem removeNoise_eq_flatMap (n : Node) :
    n.removeNoise = ⟨n.id, n.rule, n.token, n.children.flatMap noiseRemoved⟩ := by
  have hall : ∀ ns, removeNoiseAll ns = ns.flatMap noiseRemoved := by
    intro ns
    induction ns with
    | nil => rfl
    | cons c rest ih =>
      rw [List.flatMap_cons, ← ih, removeNoiseAll, noiseRemoved, isNoise]
      cases hkind : c.kind? with
      | none => simp
      | some kind => cases hnoise : kind.isNoise <;> simp [hnoise]
  rw [removeNoise_eq, hall]

/-- A leaf of the source has nothing below it that could be dropped. -/
theorem IsPart.noiseRemoved_of_eq (hn : n.IsPart) (h : n.removeNoise = n) :
    n.noiseRemoved = n.withoutNoise := by
  have hleaf : n.kind?.isSome → n.leaf = n := by
    intro hkind
    cases hn with
    | leaf _ children_eq => exact leaf_eq_self children_eq
    | tail rule_eq => simp [kind?, rule_eq] at hkind
    | value rule_eq => simp [kind?, rule_eq] at hkind
  rw [noiseRemoved, h, withoutNoise]
  split <;> simp_all

theorem IsPart.removeNoise_eq (hn : n.IsPart) : n.removeNoise = n := by
  apply hn.eq_self removeNoise_eq_flatMap
  intro c hc _ hnoise ih
  rw [hc.noiseRemoved_of_eq ih, withoutNoise, hnoise]
  rfl

/-- **Dropping noise rewrites parts.** -/
theorem Grammatical.removeNoise_eq (hn : n.Grammatical nested) (hrule : n.rule.isPart = false) :
    n.removeNoise = n.rewriteParts withoutNoise := by
  apply hn.eq_rewriteParts removeNoise_eq_flatMap
    (fun c hc => hc.noiseRemoved_of_eq hc.removeNoise_eq) _ hrule
  intro c hc
  have hkind : c.kind? = none := if_neg fun hterm => by rw [hterm] at hc; cases hc
  simp [noiseRemoved, isNoise, hkind]

theorem keepsParts_withoutNoise : KeepsParts withoutNoise := by
  intro n hn p hp
  unfold withoutNoise at hp
  split at hp
  · cases hp
  · rw [List.mem_singleton.mp hp]
    exact hn

/-- An operand is no noise, and noise is no expression. -/
theorem IsPart.withoutTail_withoutNoise (hn : n.IsPart) :
    n.withoutTail.flatMap withoutNoise = n.withoutNoise.flatMap withoutTail := by
  cases hnoise : n.isNoise with
  | false =>
    have hp : ∀ p ∈ n.withoutTail, p.withoutNoise = [p] := by
      intro p hp
      rw [withoutNoise, (hn.of_mem_withoutTail hp).2.2 hnoise]
      rfl
    rw [List.flatMap_congr hp, List.flatMap_singleton', withoutNoise, hnoise]
    simp
  | true =>
    have hvalue : n.rule ≠ .value := by
      intro hrule
      simp [isNoise, kind?, hrule] at hnoise
    rw [withoutTail, if_neg (isOperandOnly_of_ne hvalue), withoutNoise, hnoise]
    simp [withoutNoise, hnoise]

end Node

end BlockFlow
