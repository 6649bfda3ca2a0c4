import BlockFlow.Proofs.Formatting.Compiling
import BlockFlow.Proofs.Token.Spans
import BlockFlow.Tree.Text

/-!
# What short texts tell apart

The short text of a tree shows the names of rules and what tokens carry, with nothing but spaces and
parentheses between them.  It neither quotes what it shows nor says of which kind a token is.  Still
no two trees that normalisation makes of source texts have the same short text, up to numbers and
spans (`text_eq_iff_bare_eq`).

There are two reasons.  The names, numbers and operators that can be read from a text hold neither
spaces nor parentheses, and the first character of what a token carries tells its kind
(`Lexeme.payload_spec`).  And a tree whose leaves are such tokens can be read back from the front of
any text in which a space, a closing parenthesis or nothing follows it (`Node.Framed.readable`).
-/

namespace BlockFlow

/-! ### Words and marks -/

/-- Whether the character is one that the short text itself puts between what it shows. -/
def isMark (c : Char) : Bool :=
  c == ' ' || c == '(' || c == ')'

/-- The characters hold no mark. -/
def Unmarked (chars : List Char) : Prop :=
  ∀ c ∈ chars, isMark c = false

/-- The characters are none, or they begin with a mark. -/
def OpensMarked (rest : List Char) : Prop :=
  ∀ c ∈ rest.head?, isMark c = true

theorem takeWhile_unmarked {chars rest : List Char} (h : Unmarked chars)
    (hrest : OpensMarked rest) : (chars ++ rest).takeWhile (fun c => !isMark c) = chars := by
  rw [List.takeWhile_append_of_pos (by simpa [Unmarked] using h)]
  cases rest with
  | nil => simp
  | cons c rest => simp [hrest c rfl]

/-- What is free of marks ends where the first mark stands. -/
theorem append_inj_of_unmarked {chars chars' rest rest' : List Char} (h : Unmarked chars)
    (h' : Unmarked chars') (hrest : OpensMarked rest) (hrest' : OpensMarked rest')
    (heq : chars ++ rest = chars' ++ rest') : chars = chars' ∧ rest = rest' := by
  have hchars : chars = chars' := by
    rw [← takeWhile_unmarked h hrest, heq, takeWhile_unmarked h' hrest']
  subst hchars
  exact ⟨rfl, List.append_cancel_left heq⟩

/-! ### What tokens carry -/

/-- The kind of a token that a first character can belong to. -/
def kindOfChar (c : Char) : Kind :=
  if c.isDigit then .number else if c.isAlpha || c == '_' then .ident else .op

/-- A digit belongs to a number and is no mark. -/
theorem digit_spec {c : Char} (h : c.isDigit = true) :
    kindOfChar c = .number ∧ isMark c = false := by
  refine ⟨by simp [kindOfChar, h], ?_⟩
  simp only [isMark, Bool.or_eq_false_iff, beq_eq_false_iff_ne]
  refine ⟨⟨?_, ?_⟩, ?_⟩
  all_goals
    rintro rfl
    revert h
    decide

/-- A character of a word is no mark, and the first one belongs to a name. -/
theorem wordByte_spec : ∀ n < 128,
    (isLetterByte (UInt8.ofNat n) = true → kindOfChar (Char.ofNat n) = .ident) ∧
      (isWordByte (UInt8.ofNat n) = true → isMark (Char.ofNat n) = false) := by
  decide

theorem symbol_spec {symbol : Char} (h : symbol ∈ ['+', '-', '*', '/', '<', '>', '=', '≤', '≥']) :
    kindOfChar symbol = .op ∧ isMark symbol = false := by
  simp only [List.mem_cons, List.not_mem_nil, or_false] at h
  rcases h with rfl | rfl | rfl | rfl | rfl | rfl | rfl | rfl | rfl
  all_goals decide

/-- The characters of a word. -/
theorem word_spec {chars : List Char} (h : encoded chars ∈ TokenClass.word.pattern.matches') :
    Unmarked chars ∧ ∃ c rest, chars = c :: rest ∧ kindOfChar c = .ident := by
  have hascii := ascii_of_encoded (toNat_lt_of_word h)
  obtain ⟨first, tail, hbytes, hfirst, htail⟩ := TokenClass.mem_word.mp h
  rw [encoded_ascii hascii] at hbytes
  obtain ⟨c, rest, rfl, rfl, rfl⟩ := List.map_eq_cons_iff.mp hbytes
  have hword : ∀ d ∈ c :: rest, isWordByte (UInt8.ofNat d.toNat) = true := by
    intro d hd
    rcases List.mem_cons.mp hd with rfl | hd
    · rw [isWordByte, hfirst]
      rfl
    · exact htail _ (List.mem_map_of_mem hd)
  refine ⟨fun d hd => ?_, c, rest, rfl, ?_⟩
  · rw [← Char.ofNat_toNat d]
    exact (wordByte_spec _ (hascii d hd)).2 (hword d hd)
  · rw [← Char.ofNat_toNat c]
    exact (wordByte_spec _ (hascii c List.mem_cons_self)).1 hfirst

namespace Lexeme

/-- The lexeme is a name, a number or an operator that can be read from a text. -/
structure Shown (lexeme : Lexeme) : Prop where
  legal : lexeme.Legal
  kind_eq : lexeme.kind = .ident ∨ lexeme.kind = .number ∨ lexeme.kind = .op

variable {lexeme lexeme' : Lexeme}

theorem payload_number {value : Int64} (h : 0 ≤ value) :
    (number value).payload.toList = Nat.toDigits 10 value.toInt.toNat := by
  have hnonneg : 0 ≤ value.toInt := Int64.le_iff_toInt_le.mp h
  obtain ⟨n, hn⟩ := Int.eq_ofNat_of_zero_le hnonneg
  show (toString value.toInt).toList = _
  rw [hn]
  exact Nat.toList_repr

theorem payload_op (symbol : Char) : (op symbol).payload.toList = [symbol] := by
  simp [payload, Char.toString]

/-- **What a token carries holds no mark, and its first character tells the kind of the token.** -/
theorem payload_spec (h : lexeme.Shown) : Unmarked lexeme.payload.toList ∧
    ∃ c rest, lexeme.payload.toList = c :: rest ∧ kindOfChar c = lexeme.kind := by
  obtain ⟨hlegal, hkind⟩ := h
  cases lexeme with
  | number value =>
    have hdigit : ∀ c ∈ Nat.toDigits 10 value.toInt.toNat, c.isDigit = true :=
      fun c hc => Nat.isDigit_of_mem_toDigits (by decide) (by decide) hc
    rw [payload_number hlegal]
    refine ⟨fun c hc => (digit_spec (hdigit c hc)).2, ?_⟩
    obtain ⟨c, rest, hdigits⟩ := List.exists_cons_of_ne_nil
      (Nat.toDigits_ne_nil (b := 10) (n := value.toInt.toNat))
    rw [hdigits] at hdigit ⊢
    exact ⟨c, rest, rfl, (digit_spec (hdigit c List.mem_cons_self)).1⟩
  | ident name => exact word_spec hlegal.1
  | op symbol =>
    obtain ⟨hop, hmark⟩ := symbol_spec hlegal
    rw [payload_op]
    refine ⟨fun c hc => ?_, symbol, [], rfl, hop⟩
    rwa [List.mem_singleton.mp hc]
  | _ => simp [kind] at hkind

/-- **What tokens carry tells them apart.** -/
theorem payload_inj (h : lexeme.Shown) (h' : lexeme'.Shown)
    (heq : lexeme.payload = lexeme'.payload) : lexeme = lexeme' := by
  obtain ⟨-, c, rest, hpayload, hkind⟩ := payload_spec h
  obtain ⟨-, c', rest', hpayload', hkind'⟩ := payload_spec h'
  have hsame : lexeme.kind = lexeme'.kind := by
    rw [heq, hpayload'] at hpayload
    obtain ⟨rfl, -⟩ := List.cons.inj hpayload
    rw [← hkind, hkind']
  have hshown := h.kind_eq
  cases lexeme with
  | number value =>
    cases lexeme' <;> cases hsame
    rename_i value'
    have hdigits := congrArg String.toList heq
    rw [payload_number h.legal, payload_number h'.legal] at hdigits
    have hnat := congrArg (Nat.ofDigitChars 10 · 0) hdigits
    simp only [Nat.ofDigitChars_ten_toDigits] at hnat
    have hnonneg : 0 ≤ value.toInt := Int64.le_iff_toInt_le.mp h.legal
    have hnonneg' : 0 ≤ value'.toInt := Int64.le_iff_toInt_le.mp h'.legal
    have hint : value.toInt = value'.toInt := by omega
    rw [Int64.toInt_inj.mp hint]
  | ident name =>
    cases lexeme' <;> cases hsame
    exact congrArg ident heq
  | op symbol =>
    cases lexeme' <;> cases hsame
    rename_i symbol'
    have hchars := congrArg String.toList heq
    rw [payload_op, payload_op] at hchars
    rw [(List.cons.inj hchars).1]
  | _ => simp [kind] at hshown

end Lexeme

/-! ### Rules -/

namespace Rule

variable {rule rule' : Rule}

/-- Whether the rule is one of the language. -/
def isKnown : Rule → Bool
  | other _ => false
  | _ => true

theorem unmarked_name (h : rule.isKnown) : Unmarked rule.name.toList := by
  cases rule with
  | other code => cases h
  | _ => simp [Unmarked, name, isMark]

/-- The names of the rules of the language tell them apart. -/
theorem name_inj (h : rule.isKnown) (h' : rule'.isKnown) (heq : rule.name = rule'.name) :
    rule = rule' := by
  cases rule with
  | other code => cases h
  | _ =>
    cases rule' with
    | other code => cases h'
    | _ => simp_all [name]

end Rule

/-! ### Trees -/

namespace Node

/-- Every leaf of the source has a token and nothing below it, and every other node has a rule of
the language and no token. -/
inductive Framed : Node → Prop where
  | leaf (id : Nat) (t : Token) : Framed ⟨id, .term, some t, []⟩
  | inner (id : Nat) {rule : Rule} {children : List Node} (known : rule.isKnown)
      (framed : ∀ c ∈ children, Framed c) : Framed ⟨id, rule, none, children⟩

/-- A leaf shows what its token carries. -/
theorem toList_text_leaf (id : Nat) {t : Token} (h : t.lexeme.Shown) :
    (text ⟨id, .term, some t, []⟩).toList = t.payload.toList := by
  obtain ⟨-, c, rest, hpayload, -⟩ := Lexeme.payload_spec h
  have hne : t.payload ≠ "" := by
    intro hempty
    have hnil : t.lexeme.payload.toList = [] := congrArg String.toList hempty
    rw [hnil] at hpayload
    cases hpayload
  rw [text]
  simp only [hne, ↓reduceIte]

theorem toList_text_inner (id : Nat) (rule : Rule) (children : List Node) :
    (text ⟨id, rule, none, children⟩).toList =
      '(' :: (rule.name.toList ++ ((textAll children).toList ++ [')'])) := by
  rw [text]
  simp

theorem toList_textAll_cons (n : Node) (rest : List Node) :
    (textAll (n :: rest)).toList = ' ' :: (n.text.toList ++ (textAll rest).toList) := by
  rw [textAll]
  simp

theorem leaves_inner (id : Nat) (rule : Rule) (children : List Node) :
    leaves ⟨id, rule, none, children⟩ = leavesAll children := by
  simp [leaves_mk]

/-- What stands behind the name of a rule begins with a space or a parenthesis. -/
theorem opensMarked_textAll (children : List Node) (rest : List Char) :
    OpensMarked ((textAll children).toList ++ ')' :: rest) := by
  cases children with
  | nil =>
    rintro c ⟨⟩
    rfl
  | cons n others =>
    rw [toList_textAll_cons]
    rintro c ⟨⟩
    rfl

/-- The tree can be told from every other one by its short text at the front of a text, and what
stands behind it there can be told, too. -/
def Readable (n : Node) : Prop :=
  ∀ n' : Node, n'.Framed → (∀ t ∈ n'.leaves, t.lexeme.Shown) → ∀ rest rest' : List Char,
    OpensMarked rest → OpensMarked rest' → n.text.toList ++ rest = n'.text.toList ++ rest' →
      n.bare = n'.bare ∧ rest = rest'

/-- If each of some trees can be told apart, the list of them can. -/
theorem textAll_inj {children : List Node} (h : ∀ c ∈ children, c.Readable) :
    ∀ {children' : List Node} {rest rest' : List Char}, (∀ c ∈ children', c.Framed) →
      (∀ t ∈ leavesAll children', t.lexeme.Shown) →
      (textAll children).toList ++ ')' :: rest = (textAll children').toList ++ ')' :: rest' →
        bareAll children = bareAll children' ∧ rest = rest' := by
  induction children with
  | nil =>
    intro children' rest rest' hframed hshown heq
    cases children' with
    | nil => exact ⟨rfl, (List.cons.inj heq).2⟩
    | cons n' others' =>
      rw [toList_textAll_cons] at heq
      cases (List.cons.inj heq).1
  | cons n others ih =>
    intro children' rest rest' hframed hshown heq
    cases children' with
    | nil =>
      rw [toList_textAll_cons] at heq
      cases (List.cons.inj heq).1
    | cons n' others' =>
      obtain ⟨hn, hothers⟩ := List.forall_mem_cons.mp h
      obtain ⟨hframed, hframeds⟩ := List.forall_mem_cons.mp hframed
      rw [leavesAll_cons] at hshown
      obtain ⟨hshown, hshowns⟩ := List.forall_mem_append.mp hshown
      rw [toList_textAll_cons, toList_textAll_cons, List.cons_append, List.cons_append,
        List.append_assoc, List.append_assoc] at heq
      -- The first trees end at the same place, so the others begin there.
      obtain ⟨hbare, hbehind⟩ := hn n' hframed hshown _ _ (opensMarked_textAll others rest)
        (opensMarked_textAll others' rest') (List.cons.inj heq).2
      obtain ⟨hbares, hrest⟩ := ih hothers hframeds hshowns hbehind
      exact ⟨by rw [bareAll, bareAll, hbare, hbares], hrest⟩

/-- What a token carries does not begin like an inner node. -/
theorem ne_paren_of_shown {t : Token} (h : t.lexeme.Shown) (rest rest' : List Char) :
    t.payload.toList ++ rest ≠ '(' :: rest' := by
  obtain ⟨hunmarked, c, tail, hpayload, -⟩ := Lexeme.payload_spec h
  intro heq
  rw [Token.payload, hpayload] at heq
  rw [hpayload] at hunmarked
  have hmark := hunmarked c List.mem_cons_self
  rw [(List.cons.inj heq).1] at hmark
  cases hmark

/-- **A framed tree can be read back from its short text,** up to numbers and spans. -/
theorem Framed.readable {n : Node} (h : n.Framed) (hshown : ∀ t ∈ n.leaves, t.lexeme.Shown) :
    n.Readable := by
  induction h with
  | leaf id t =>
    have ht : t.lexeme.Shown := hshown t (by simp [leaves_mk])
    intro n' hn' hshown' rest rest' hrest hrest' heq
    rw [toList_text_leaf id ht] at heq
    cases hn' with
    | leaf id' t' =>
      have ht' : t'.lexeme.Shown := hshown' t' (by simp [leaves_mk])
      rw [toList_text_leaf id' ht'] at heq
      obtain ⟨hpayload, hrests⟩ := append_inj_of_unmarked (Lexeme.payload_spec ht).1
        (Lexeme.payload_spec ht').1 hrest hrest' heq
      have hlexeme := Lexeme.payload_inj ht ht' (String.toList_inj.mp hpayload)
      exact ⟨by simp [bare, Token.bare, hlexeme], hrests⟩
    | inner id' known' framed' =>
      rw [toList_text_inner] at heq
      exact absurd heq (ne_paren_of_shown ht _ _)
  | @inner id rule children known framed ih =>
    rw [leaves_inner] at hshown
    intro n' hn' hshown' rest rest' hrest hrest' heq
    rw [toList_text_inner] at heq
    cases hn' with
    | leaf id' t' =>
      have ht' : t'.lexeme.Shown := hshown' t' (by simp [leaves_mk])
      rw [toList_text_leaf id' ht'] at heq
      exact absurd heq.symm (ne_paren_of_shown ht' _ _)
    | @inner id' rule' children' known' framed' =>
      rw [leaves_inner] at hshown'
      rw [toList_text_inner] at heq
      have hbody : rule.name.toList ++ ((textAll children).toList ++ ')' :: rest) =
          rule'.name.toList ++ ((textAll children').toList ++ ')' :: rest') := by
        simpa using heq
      -- The names of the rules end at the first mark behind them, and the children follow.
      obtain ⟨hname, hbehind⟩ := append_inj_of_unmarked (Rule.unmarked_name known)
        (Rule.unmarked_name known') (opensMarked_textAll children rest)
        (opensMarked_textAll children' rest') hbody
      have hrule := Rule.name_inj known known' (String.toList_inj.mp hname)
      have hchildren : ∀ c ∈ children, c.Readable := fun c hc =>
        ih c hc fun t ht => hshown t (List.mem_flatMap.mpr ⟨c, hc, ht⟩)
      obtain ⟨hbares, hrests⟩ := textAll_inj hchildren framed' hshown' hbehind
      exact ⟨by rw [bare, bare, hrule, hbares], hrests⟩

/-- Framed trees with the same short text are the same, up to numbers and spans. -/
theorem Framed.bare_eq {n n' : Node} (h : n.Framed) (hshown : ∀ t ∈ n.leaves, t.lexeme.Shown)
    (h' : n'.Framed) (hshown' : ∀ t ∈ n'.leaves, t.lexeme.Shown) (heq : n.text = n'.text) :
    n.bare = n'.bare := by
  have hend : OpensMarked [] := by rintro c ⟨⟩
  exact (h.readable hshown n' h' hshown' [] [] hend hend (by rw [heq])).1

mutual

/-- The short text shows neither numbers nor spans. -/
theorem text_bare : ∀ n : Node, n.bare.text = n.text
  | ⟨id, rule, none, children⟩ => by
    rw [bare, Option.map_none, text, text, textAll_bareAll children]
  | ⟨id, rule, some t, children⟩ => by
    rw [bare, Option.map_some, text, text]
    rfl

theorem textAll_bareAll : ∀ ns : List Node, textAll (bareAll ns) = textAll ns
  | [] => rfl
  | n :: rest => by rw [bareAll, textAll, textAll, text_bare n, textAll_bareAll rest]

end

end Node

/-! ### Trees of statements -/

theorem Expression.IsTree.framed {e : Expression} {n : Node} (h : e.IsTree n) : n.Framed := by
  cases h with
  | operand id left => exact .leaf id left
  | binary id idLeft idTail idOperator idRight left operator right =>
    have htail : Node.Framed ⟨idTail, .tail, none,
        [⟨idOperator, .term, some operator, []⟩, ⟨idRight, .term, some right, []⟩]⟩ := by
      refine .inner idTail rfl fun c hc => ?_
      rcases List.mem_pair.mp hc with rfl | rfl
      · exact .leaf idOperator operator
      · exact .leaf idRight right
    refine .inner id rfl fun c hc => ?_
    rcases List.mem_pair.mp hc with rfl | rfl
    · exact .leaf idLeft left
    · exact htail

namespace Statement

variable {Arranged : List Statement → List Group → Prop}

mutual

/-- The tree of a statement is framed. -/
theorem framed_isTree : ∀ {s : Statement} {n : Node}, IsTree Arranged s n → n.Framed
  | _, _, .ret id _ _ tree => .inner id rfl (by simp [tree.framed])
  | _, _, .assign id idTarget target _ _ tree =>
    .inner id rfl (by simp [tree.framed, Node.Framed.leaf idTarget target])
  | _, _, .cond id _ _ _ _ _ _ tree thenTree elseTree => by
    have hthen := framed_isSequenceTree thenTree
    have helse := framed_isSequenceTree elseTree
    exact .inner id rfl (by simp [tree.framed, hthen, helse])
  | _, _, .loop id _ _ _ tree bodyTree => by
    have hbody := framed_isSequenceTree bodyTree
    exact .inner id rfl (by simp [tree.framed, hbody])

theorem framed_areTrees : ∀ {program : List Statement} {nodes : List Node},
    AreTrees Arranged program nodes → ∀ n ∈ nodes, n.Framed
  | _, _, .nil => fun _ hn => absurd hn List.not_mem_nil
  | _, _, .cons tree trees =>
    List.forall_mem_cons.mpr ⟨framed_isTree tree, framed_areTrees trees⟩

theorem framed_areGroupTrees : ∀ {groups : List Group} {nodes : List Node},
    AreGroupTrees Arranged groups nodes → ∀ n ∈ nodes, n.Framed
  | _, _, .nil => fun _ hn => absurd hn List.not_mem_nil
  | _, _, .alone tree trees =>
    List.forall_mem_cons.mpr ⟨framed_isTree tree, framed_areGroupTrees trees⟩
  | _, _, .block id inside trees =>
    List.forall_mem_cons.mpr ⟨.inner id rfl (framed_areTrees inside), framed_areGroupTrees trees⟩

/-- The tree of a sequence is framed. -/
theorem framed_isSequenceTree : ∀ {program : List Statement} {n : Node},
    IsSequenceTree Arranged program n → n.Framed
  | _, _, .mk id _ trees => .inner id rfl (framed_areGroupTrees trees)

end

end Statement

/-! ### Source texts -/

/-- The tokens of a text can be read from a text. -/
theorem legal_of_scan {source : List UInt8} {tokens : List Token} (h : scan source = .ok tokens) :
    ∀ t ∈ tokens, t.lexeme ≠ .eof → t.lexeme.Legal := by
  rw [show scan source = tokenize [] source from Scanner.scan_behind [] source] at h
  obtain ⟨marks, rfl, hfits, -⟩ := tokenize_tiles [] source tokens h rfl
  intro t ht hne
  rcases List.mem_append.mp ht with ht | ht
  · exact legal_iff_exists_spells.mpr ⟨_, (hfits t ht).spells⟩
  · rw [List.mem_singleton.mp ht] at hne
    exact absurd rfl hne

/-- The normal tree of a text is framed, and its leaves are names, numbers and operators that can be
read from a text. -/
theorem framed_normalize {source : List UInt8} {tokens : List Token} {last : Nat}
    {tree : Node × Nat} (hscan : scan source = .ok tokens)
    (hparse : parseTree last tokens = .ok tree) :
    (normalize tree).1.Framed ∧ ∀ t ∈ (normalize tree).1.leaves, t.lexeme.Shown := by
  obtain ⟨program, hprogram, rfl⟩ := Grammar.parseTree_eq_ok_iff.mp hparse
  obtain ⟨-, hproper, htokens⟩ := parse_eq_ok_iff_beforeMark.mp hprogram
  refine ⟨Statement.framed_isSequenceTree (isSequenceTree_normalize hproper last), fun t ht => ?_⟩
  rw [leaves_normalize hproper, htokens] at ht
  obtain ⟨hmem, hkind⟩ := List.mem_filter.mp ht
  have hkind := of_decide_eq_true hkind
  have hne : t.lexeme ≠ .eof := by
    intro heof
    rw [Token.kind, heof] at hkind
    simp [Lexeme.kind] at hkind
  exact ⟨legal_of_scan hscan t (List.takeWhile_subset _ hmem) hne, hkind⟩

/-- The normal tree of a text has a graph, with its own names as variables. -/
theorem exists_lower_normalize {source : List UInt8} {tokens : List Token} {last : Nat}
    {tree : Node × Nat} (hscan : scan source = .ok tokens)
    (hparse : parseTree last tokens = .ok tree) :
    ∃ g, Graph.lower (normalize tree).1.names (normalize tree).1 = .ok g := by
  obtain ⟨program, hprogram, rfl⟩ := Grammar.parseTree_eq_ok_iff.mp hparse
  obtain ⟨-, hproper, -⟩ := parse_eq_ok_iff_beforeMark.mp hprogram
  have hlegible := Program.legible_of_scan hscan hprogram
  rcases Statement.lower_ok_or_unknownOperator (isSequenceTree_normalize hproper last) hproper
    (nameIn_normalize hproper last) with ⟨-, hlower⟩ | ⟨hillegible, -⟩
  · exact hlower
  · exact absurd hlegible hillegible

/-- **Short texts identify normal trees.**  Take two texts that scanning and the grammar accept, and
any two numbers behind which the nodes of their trees are numbered.  Their normal trees have the
same short text if and only if they are equal up to the numbers of nodes and the spans of tokens:
the same rules, the same children, and tokens that say the same.  Both then have the same names and
are lowered to the same graph. -/
theorem text_eq_iff_bare_eq {source source' : List UInt8} {tokens tokens' : List Token}
    {last last' : Nat} {tree tree' : Node × Nat} (hscan : scan source = .ok tokens)
    (hparse : parseTree last tokens = .ok tree) (hscan' : scan source' = .ok tokens')
    (hparse' : parseTree last' tokens' = .ok tree') :
    ((normalize tree).1.text = (normalize tree').1.text ↔
      (normalize tree).1.bare = (normalize tree').1.bare) ∧
    ((normalize tree).1.text = (normalize tree').1.text →
      (normalize tree).1.names = (normalize tree').1.names ∧
      ∃ g, Graph.lower (normalize tree).1.names (normalize tree).1 = .ok g ∧
        Graph.lower (normalize tree').1.names (normalize tree').1 = .ok g) := by
  obtain ⟨hframed, hshown⟩ := framed_normalize hscan hparse
  obtain ⟨hframed', hshown'⟩ := framed_normalize hscan' hparse'
  have hbare : (normalize tree).1.text = (normalize tree').1.text →
      (normalize tree).1.bare = (normalize tree').1.bare :=
    hframed.bare_eq hshown hframed' hshown'
  refine ⟨⟨hbare, fun heq => ?_⟩, fun htext => ?_⟩
  · rw [← Node.text_bare, heq, Node.text_bare]
  · have hnames : (normalize tree).1.names = (normalize tree').1.names := by
      rw [← Node.names_bare, hbare htext, Node.names_bare]
    obtain ⟨g, hlower⟩ := exists_lower_normalize hscan hparse
    refine ⟨hnames, g, hlower, ?_⟩
    rcases Graph.lower_alike (hbare htext) (normalize tree).1.names with
      ⟨e, e', herror, -⟩ | ⟨g', hg, hg'⟩
    · rw [herror] at hlower
      cases hlower
    · rw [← hnames, hg']
      rw [hg] at hlower
      exact hlower

/-- The short text of the normal tree of a text, its nodes numbered behind the last number used. -/
def shortText? (last : Nat) (source : List UInt8) : Option String :=
  match scan source with
  | .error _ => none
  | .ok tokens => (parseTree last tokens).toOption.map fun tree => (normalize tree).1.text

theorem exists_of_shortText? {last : Nat} {source : List UInt8} {text : String}
    (h : shortText? last source = some text) : ∃ tokens tree, scan source = .ok tokens ∧
      parseTree last tokens = .ok tree ∧ (normalize tree).1.text = text := by
  unfold shortText? at h
  split at h
  · cases h
  · rename_i tokens hscan
    cases hparse : parseTree last tokens with
    | error e =>
      rw [hparse] at h
      cases h
    | ok tree =>
      rw [hparse] at h
      exact ⟨tokens, tree, hscan, hparse, Option.some.inj h⟩

/-- A loop, written as closely as possible. -/
def closeLoop : List UInt8 :=
  encoded "while x<=07\x7by=x;\x7d".toList

/-- The same loop with other spellings and a comment. -/
def looseLoop : List UInt8 :=
  encoded "while\nx≤7 \x7b y = x;\x7d // (S)".toList

/-- The two texts have the same short text, though nothing stands in the same place in them, and so
the same tree and the same graph. -/
theorem text_eq_loop : ∃ tokens tokens' tree tree',
    scan closeLoop = .ok tokens ∧ parseTree 0 tokens = .ok tree ∧
    scan looseLoop = .ok tokens' ∧ parseTree 40 tokens' = .ok tree' ∧
    (normalize tree).1.text = "(S (WHILE (RVAL x (OPVAL ≤ 7)) (S (BB (ASSIGN y x)))))" ∧
    (normalize tree').1.text = (normalize tree).1.text ∧
    (normalize tree).1.bare = (normalize tree').1.bare ∧
    ∃ g, Graph.lower (normalize tree).1.names (normalize tree).1 = .ok g ∧
      Graph.lower (normalize tree').1.names (normalize tree').1 = .ok g := by
  have hclose : shortText? 0 closeLoop =
      some "(S (WHILE (RVAL x (OPVAL ≤ 7)) (S (BB (ASSIGN y x)))))" := by decide +kernel
  have hloose : shortText? 40 looseLoop =
      some "(S (WHILE (RVAL x (OPVAL ≤ 7)) (S (BB (ASSIGN y x)))))" := by decide +kernel
  obtain ⟨tokens, tree, hscan, hparse, htext⟩ := exists_of_shortText? hclose
  obtain ⟨tokens', tree', hscan', hparse', htext'⟩ := exists_of_shortText? hloose
  have hsame : (normalize tree).1.text = (normalize tree').1.text := htext.trans htext'.symm
  obtain ⟨hiff, hgraph⟩ := text_eq_iff_bare_eq hscan hparse hscan' hparse'
  exact ⟨tokens, tokens', tree, tree', hscan, hparse, hscan', hparse', htext, hsame.symm,
    hiff.mp hsame, (hgraph hsame).2⟩

end BlockFlow
