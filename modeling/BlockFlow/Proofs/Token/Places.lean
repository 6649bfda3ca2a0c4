import BlockFlow.Token.Scanner
import Mathlib.Algebra.Group.Nat.Defs
import Mathlib.Data.List.DropRight
import Mathlib.Data.List.Find
import Mathlib.Data.List.TakeWhile
import Mathlib.Tactic.SplitIfs

/-!
# Places in a source text

`Position.behind` says where a place in a text is: its line by the newlines in front of it, its
column by the characters since the last of them, its offset by the bytes.  Scanners move from place
to place (`Scanner.StandsIn`), so the tokens they read, and the characters and numbers they refuse,
have the positions of the places in the text where they stand (`Scanner.StandsIn.scan`).
-/

namespace BlockFlow

/-! ### Positions -/

namespace Position

/-- The position behind a stretch of text. -/
def behind (before : List UInt8) : Position where
  line := 1 + before.count '\n'.toUInt8
  column := 1 + (before.rtakeWhile (· != '\n'.toUInt8)).countP (!isContinuation ·)
  offset := before.length

theorem behind_concat (before : List UInt8) (b : UInt8) :
    behind (before ++ [b]) = (behind before).step b := by
  unfold step behind
  by_cases hb : b = '\n'.toUInt8
  · subst hb
    rw [List.rtakeWhile_concat_neg _ _ _ (by decide)]
    simp [Int.add_assoc]
  · have hb' : (b == '\n'.toUInt8) = false := beq_eq_false_iff_ne.mpr hb
    rw [List.rtakeWhile_concat_pos _ _ _ (by rw [bne, hb']; rfl)]
    by_cases hcontinues : isContinuation b = true
    · simp [hb', hb, hcontinues]
    · simp [hb', hb, hcontinues, Int.add_assoc]

theorem advance_behind (before bytes : List UInt8) :
    (behind before).advance bytes = behind (before ++ bytes) := by
  induction bytes generalizing before with
  | nil => rw [List.append_nil]; rfl
  | cons b rest ih =>
    rw [List.append_cons, ← ih, behind_concat]
    rfl

end Position

/-! ### Spellings -/

/-- No token begins with the text. -/
structure BeginsNoToken (text : List UInt8) : Prop where
  /-- It begins with no digit, no letter and no punctuation. -/
  head : ∃ b, text.head? = some b ∧ isDigitByte b = false ∧ isLetterByte b = false ∧
    punctuation? b = none
  /-- No operator is spelt there. -/
  operator : operatorAt? text = none

theorem operatorAt?_eq_none_iff {text : List UInt8} : operatorAt? text = none ↔
    ∀ entry ∈ operatorSpellings, ¬ entry.1 <+: text := by
  rw [operatorAt?, List.find?_eq_none]
  simp only [List.isPrefixOf_iff_prefix]

theorem ne_nil_of_mem_operatorSpellings {entry : List UInt8 × Char}
    (h : entry ∈ operatorSpellings) : entry.1 ≠ [] := by
  have hne : ∀ entry ∈ operatorSpellings, entry.1 ≠ [] := by decide
  exact hne entry h

theorem prefix_of_operatorAt? {text spelt : List UInt8} {symbol : Char}
    (h : operatorAt? text = some (spelt, symbol)) : spelt <+: text ∧ spelt ≠ [] := by
  have hfront := List.find?_some h
  exact ⟨List.isPrefixOf_iff_prefix.mp hfront,
    ne_nil_of_mem_operatorSpellings (List.mem_of_find?_eq_some h)⟩

/-- An operator has at most three bytes, so that no more have to be looked at. -/
theorem operatorAt?_take (text : List UInt8) : operatorAt? (text.take 3) = operatorAt? text := by
  have hlength : ∀ entry ∈ operatorSpellings, entry.1.length ≤ 3 := by decide
  unfold operatorAt?
  refine List.find?_congr fun entry hentry => ?_
  rw [Bool.eq_iff_iff, List.isPrefixOf_iff_prefix, List.isPrefixOf_iff_prefix,
    List.prefix_take_iff, and_iff_left (hlength entry hentry)]

/-- Where no operator and no punctuation opens, no operator is spelt. -/
theorem operatorAt?_eq_none_of_head {b : UInt8} {rest : List UInt8}
    (hopens : opensOperator b = false) (hpunctuation : punctuation? b = none) :
    operatorAt? (b :: rest) = none := by
  have hfirst : ∀ entry ∈ operatorSpellings,
      (entry.1.head?.any fun c => opensOperator c || (punctuation? c).isSome) = true := by decide
  rw [operatorAt?_eq_none_iff]
  intro entry hmem hfront
  obtain ⟨c, spelt, hspelt⟩ := List.exists_cons_of_ne_nil (ne_nil_of_mem_operatorSpellings hmem)
  rw [hspelt] at hfront
  obtain ⟨rfl, -⟩ := List.cons_prefix_cons.mp hfront
  have hopener := hfirst entry hmem
  rw [hspelt] at hopener
  simp [hopens, hpunctuation] at hopener

/-- What a class takes from a text stands at its front. -/
theorem TokenClass.spelling_front (cls : TokenClass) (text : List UInt8) :
    cls.spelling text <+: text := by
  cases cls with
  | number => exact List.takeWhile_prefix _
  | word =>
    cases text with
    | nil => exact List.prefix_rfl
    | cons b rest =>
      rw [spelling]
      split
      · exact List.cons_prefix_cons.mpr ⟨rfl, List.takeWhile_prefix _⟩
      · exact List.nil_prefix
  | operator =>
    rw [spelling]
    split
    · rename_i spelt symbol h
      exact (prefix_of_operatorAt? h).1
    · exact List.nil_prefix
  | punctuation =>
    cases text with
    | nil => exact List.prefix_rfl
    | cons b rest =>
      rw [spelling]
      split
      · exact List.cons_prefix_cons.mpr ⟨rfl, List.nil_prefix⟩
      · exact List.nil_prefix

theorem candidate?_front {text slice : List UInt8} {cls : TokenClass}
    (h : candidate? text = some (cls, slice)) : slice <+: text := by
  cases text with
  | nil => cases h
  | cons b rest =>
    rw [candidate?] at h
    split_ifs at h
    all_goals cases h
    · exact List.takeWhile_prefix _
    · exact List.takeWhile_prefix _
    · exact List.take_prefix _ _
    · exact List.cons_prefix_cons.mpr ⟨rfl, List.nil_prefix⟩
    · exact List.take_prefix _ _

theorem spelt?_eq_some_iff {text bytes : List UInt8} {cls : TokenClass} :
    spelt? text = some (cls, bytes) ↔
      ∃ slice, candidate? text = some (cls, slice) ∧ cls.spelling slice = bytes ∧ bytes ≠ [] := by
  unfold spelt?
  cases candidate? text with
  | none => simp
  | some entry =>
    obtain ⟨cls', slice⟩ := entry
    simp only [Option.some.injEq, Prod.mk.injEq]
    constructor
    · intro h
      split at h
      · cases h
      · rename_i hne
        cases h
        exact ⟨slice, ⟨rfl, rfl⟩, rfl, fun hnil => hne (by rw [hnil]; rfl)⟩
    · rintro ⟨slice, ⟨rfl, rfl⟩, rfl, hne⟩
      rw [if_neg (by rwa [List.isEmpty_iff])]

/-- Where nothing is spelt, no token begins. -/
theorem beginsNoToken_of_spelt? {b : UInt8} {rest : List UInt8} (h : spelt? (b :: rest) = none) :
    BeginsNoToken (b :: rest) := by
  have hempty : ∀ cls slice, candidate? (b :: rest) = some (cls, slice) →
      cls.spelling slice = [] := by
    intro cls slice hcandidate
    by_contra hne
    rw [spelt?_eq_some_iff.mpr ⟨slice, hcandidate, rfl, hne⟩] at h
    cases h
  rw [candidate?] at hempty
  by_cases hdigit : isDigitByte b = true
  · rw [if_pos hdigit] at hempty
    have hspelt := hempty _ _ rfl
    simp [TokenClass.spelling, isWordByte, hdigit] at hspelt
  rw [if_neg hdigit] at hempty
  by_cases hletter : isLetterByte b = true
  · rw [if_pos hletter] at hempty
    have hspelt := hempty _ _ rfl
    simp [TokenClass.spelling, isWordByte, hletter] at hspelt
  rw [if_neg hletter] at hempty
  by_cases hequal : (b == '='.toUInt8 && rest.head? == some '='.toUInt8) = true
  · rw [if_pos hequal] at hempty
    have hspelt := hempty _ _ rfl
    simp only [Bool.and_eq_true, beq_iff_eq] at hequal
    obtain ⟨rfl, hhead⟩ := hequal
    obtain ⟨rest, rfl⟩ := List.head?_eq_some_iff.mp hhead
    cases hspelt
  rw [if_neg hequal] at hempty
  by_cases hpunctuation : (punctuation? b).isSome = true
  · rw [if_pos hpunctuation] at hempty
    have hspelt := hempty _ _ rfl
    simp [TokenClass.spelling, hpunctuation] at hspelt
  rw [if_neg hpunctuation] at hempty
  have hpunctuation : punctuation? b = none := by
    simpa using hpunctuation
  refine ⟨⟨b, rfl, by simpa using hdigit, by simpa using hletter, hpunctuation⟩, ?_⟩
  by_cases hopens : opensOperator b = true
  · rw [if_pos hopens] at hempty
    have hspelt := hempty _ _ rfl
    rw [← operatorAt?_take]
    rw [TokenClass.spelling] at hspelt
    split at hspelt
    · rename_i spelt symbol hat
      exact absurd hspelt (prefix_of_operatorAt? hat).2
    · assumption
  · exact operatorAt?_eq_none_of_head (by simpa using hopens) hpunctuation

/-- What is spelt as a number are all the digits at the front of the text. -/
theorem spelling_number_eq {text slice : List UInt8}
    (h : candidate? text = some (.number, slice)) :
    TokenClass.number.spelling slice = text.takeWhile isDigitByte := by
  have hslice : slice = text.takeWhile isWordByte := by
    cases text with
    | nil => cases h
    | cons b rest =>
      rw [candidate?] at h
      split_ifs at h
      all_goals cases h
      rfl
  rw [hslice, TokenClass.spelling, List.takeWhile_takeWhile]
  congr 1
  funext b
  simpa [isWordByte] using fun hdigit => .inr hdigit

/-- **Only numbers are refused for what they spell.** -/
theorem eq_number_of_read_error {text bytes : List UInt8} {cls : TokenClass} {fault : ScanFault}
    (h : spelt? text = some (cls, bytes)) (hread : cls.read bytes = .error fault) :
    bytes = text.takeWhile isDigitByte ∧ 2 ^ 63 ≤ TokenClass.decimalValue bytes ∧
      fault = .tooLarge (textOfBytes bytes) := by
  obtain ⟨slice, hcandidate, hspelling, hne⟩ := spelt?_eq_some_iff.mp h
  cases cls with
  | number =>
    rw [TokenClass.read] at hread
    split_ifs at hread with hlarge
    cases hread
    exact ⟨hspelling ▸ spelling_number_eq hcandidate, Nat.le_of_not_lt hlarge, rfl⟩
  | word => cases hread
  | operator =>
    rw [TokenClass.spelling] at hspelling
    split at hspelling
    · rename_i spelt symbol hat
      subst hspelling
      -- The spelling itself begins with an operator, if only with itself.
      rw [TokenClass.read] at hread
      split at hread
      · cases hread
      · rename_i hnone
        have hmem := List.mem_of_find?_eq_some hat
        exact absurd List.prefix_rfl (operatorAt?_eq_none_iff.mp hnone _ hmem)
    · exact absurd hspelling.symm hne
  | punctuation =>
    cases slice with
    | nil => exact absurd hspelling.symm hne
    | cons b rest =>
      rw [TokenClass.spelling] at hspelling
      split_ifs at hspelling with hsome
      · subst hspelling
        obtain ⟨lexeme, hlexeme⟩ := Option.isSome_iff_exists.mp hsome
        rw [TokenClass.read, List.head?_cons, Option.bind_some, hlexeme] at hread
        cases hread
      · exact absurd hspelling.symm hne

/-! ### Places of tokens and errors -/

/-- The token stands in the text at its span, and is spelt there. -/
inductive Token.OccursIn (source : List UInt8) : Token → Prop where
  | spelt (before bytes after : List UInt8) (cls : TokenClass) (lexeme : Lexeme)
      (source_eq : source = before ++ (bytes ++ after)) (bytes_ne : bytes ≠ [])
      (reads : cls.read bytes = .ok lexeme) :
      OccursIn source ⟨lexeme, .behind before, .behind (before ++ bytes)⟩
  | eof : OccursIn source ⟨.eof, .behind source, .behind source⟩

/-- What the error blames stands in the text at its position: a character that begins no token, or
all the digits of a number that is too large. -/
inductive ScanError.OccursIn (source : List UInt8) : ScanError → Prop where
  | unexpected (before rest : List UInt8) (source_eq : source = before ++ rest)
      (begins : BeginsNoToken rest) :
      OccursIn source ⟨.behind before, .unexpected (Text.firstCharacter rest)⟩
  | tooLarge (before rest : List UInt8) (source_eq : source = before ++ rest)
      (large : 2 ^ 63 ≤ TokenClass.decimalValue (rest.takeWhile isDigitByte)) :
      OccursIn source ⟨.behind before, .tooLarge (textOfBytes (rest.takeWhile isDigitByte))⟩

namespace Scanner

variable {source : List UInt8}

/-- The scanner stands at a place in the text. -/
def StandsIn (source : List UInt8) (s : Scanner) : Prop :=
  ∃ before, source = before ++ s.rest ∧ s.position = .behind before

theorem standsIn_ofSource (source : List UInt8) : (ofSource source).StandsIn source :=
  ⟨[], rfl, rfl⟩

/-- Skipping moves to a later place. -/
theorem standsIn_skipFrom {text : List UInt8} : ∀ {before : List UInt8} (inComment : Bool),
    source = before ++ text → (skipFrom inComment (.behind before) text).StandsIn source := by
  induction text with
  | nil => exact fun _ hsource => ⟨_, hsource, rfl⟩
  | cons b rest ih =>
    intro before inComment hsource
    have hbehind := fun inComment =>
      @ih (before ++ [b]) inComment (by rw [hsource, List.append_cons])
    simp only [Position.behind_concat] at hbehind
    unfold skipFrom
    split
    · exact hbehind true
    · split
      · exact hbehind false
      · split
        · exact hbehind true
        · exact ⟨before, hsource, rfl⟩

theorem StandsIn.skip {s : Scanner} (h : s.StandsIn source) : s.skip.StandsIn source := by
  obtain ⟨before, hsource, hposition⟩ := h
  rw [Scanner.skip, hposition]
  exact standsIn_skipFrom false hsource

theorem StandsIn.exists_next {s : Scanner} (h : s.StandsIn source) :
    (∃ t s', s.next = (.ok t, s') ∧ t.OccursIn source ∧ s'.StandsIn source) ∨
      ∃ e s', s.next = (.error e, s') ∧ e.OccursIn source ∧ s'.StandsIn source := by
  obtain ⟨before, hsource, hposition⟩ := h.skip
  unfold Scanner.next readToken
  split
  · rename_i hempty
    rw [List.isEmpty_iff.mp hempty, List.append_nil] at hsource
    subst hsource
    refine .inl ⟨_, _, rfl, ?_, h.skip⟩
    rw [hposition]
    exact .eof
  · rename_i hne
    split
    · rename_i hspelt
      have hne : s.skip.rest ≠ [] := fun hnil => hne (by rw [hnil]; rfl)
      obtain ⟨b, rest, hrest⟩ := List.exists_cons_of_ne_nil hne
      rw [hrest] at hspelt hsource
      refine .inr ⟨_, _, rfl, ?_, h.skip⟩
      rw [hposition, hrest]
      exact .unexpected before _ hsource (beginsNoToken_of_spelt? hspelt)
    · rename_i cls bytes hspelt
      obtain ⟨slice, hcandidate, hspelling, hbytes⟩ := spelt?_eq_some_iff.mp hspelt
      obtain ⟨after, hafter⟩ : bytes <+: s.skip.rest :=
        (hspelling ▸ cls.spelling_front slice).trans (candidate?_front hcandidate)
      have hstop : (s.skip.drop bytes).position = .behind (before ++ bytes) := by
        rw [drop, hposition, Position.advance_behind]
      rw [← hafter] at hsource
      have hstands : (s.skip.drop bytes).StandsIn source := by
        refine ⟨before ++ bytes, ?_, hstop⟩
        rw [hsource, drop, ← hafter, List.drop_left, List.append_assoc]
      split
      · rename_i lexeme hread
        refine .inl ⟨_, _, rfl, ?_, hstands⟩
        rw [hposition, hstop]
        exact .spelt before bytes after cls lexeme hsource hbytes hread
      · rename_i fault hread
        obtain ⟨hdigits, hlarge, rfl⟩ := eq_number_of_read_error hspelt hread
        refine .inr ⟨_, _, rfl, ?_, hstands⟩
        rw [hafter] at hsource
        subst hdigits
        rw [hposition]
        exact .tooLarge before _ hsource hlarge

/-- **What is read next, or refused, stands in the text where it says.** -/
theorem StandsIn.next {s : Scanner} (h : s.StandsIn source) :
    (∀ t s', s.next = (.ok t, s') → t.OccursIn source ∧ s'.StandsIn source) ∧
      ∀ e s', s.next = (.error e, s') → e.OccursIn source ∧ s'.StandsIn source := by
  rcases h.exists_next with ⟨t, s', hnext, hoccurs⟩ | ⟨e, s', hnext, hoccurs⟩
  · rw [hnext]
    refine ⟨fun t' s₁ heq => ?_, fun e' s₁ heq => ?_⟩
    · cases heq
      exact hoccurs
    · cases heq
  · rw [hnext]
    refine ⟨fun t' s₁ heq => ?_, fun e' s₁ heq => ?_⟩
    · cases heq
    · cases heq
      exact hoccurs

/-- **Scanning gives tokens that stand in the text where their spans say,** an end marker among
them, or it fails at a character or a number that stands where the error says. -/
theorem StandsIn.scan {s : Scanner} (h : s.StandsIn source) :
    (∀ tokens, s.scan = .ok tokens →
      (∀ t ∈ tokens, t.OccursIn source) ∧ ∃ t ∈ tokens, t.lexeme = .eof) ∧
    ∀ e, s.scan = .error e → e.OccursIn source := by
  fun_induction Scanner.scan s with
  | case1 s e s' hnext =>
    refine ⟨nofun, fun e' he => ?_⟩
    cases he
    exact (h.next.2 e s' hnext).1
  | case2 s t s' hnext hend =>
    refine ⟨fun tokens htokens => ?_, nofun⟩
    cases htokens
    refine ⟨fun t' ht' => ?_, t, List.mem_singleton.mpr rfl, hend⟩
    rw [List.mem_singleton.mp ht']
    exact (h.next.1 t s' hnext).1
  | case3 s t s' hnext hend ih =>
    obtain ⟨hoccurs, hstands⟩ := h.next.1 t s' hnext
    obtain ⟨htokens, herror⟩ := ih hstands
    cases hrest : s'.scan with
    | error e =>
      refine ⟨nofun, fun e' he => ?_⟩
      cases he
      exact herror e hrest
    | ok rest =>
      refine ⟨fun tokens heq => ?_, nofun⟩
      cases heq
      obtain ⟨hall, mark, hmark, heof⟩ := htokens rest hrest
      exact ⟨List.forall_mem_cons.mpr ⟨hoccurs, hall⟩, mark, List.mem_cons_of_mem _ hmark, heof⟩

end Scanner

end BlockFlow
