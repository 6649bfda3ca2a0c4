import BlockFlow.Proofs.Token.Places
import Mathlib.Computability.RegularExpressions

/-!
# Token patterns

Each class of tokens is a regular expression over bytes (`TokenClass.pattern`).  A pattern takes the
longest front of a text that it matches (`Pattern.longest?`), and the classes are tried in turn,
each of them against all the text that remains (`firstMatch?`).

The scanner tries one class only, which it picks by the first byte, and shows it no more than a
slice of the text.  It finds the same (`spelt?_eq_firstMatch?`): a class takes from the whole text
what `TokenClass.spelling` takes (`TokenClass.longest?_pattern`), the slice holds all of that, and
the classes that would have been tried before match nothing.
-/

namespace BlockFlow

/-! ### Regular expressions over bytes -/

/-- The bytes of a text. -/
def encoded (text : List Char) : List UInt8 :=
  text.flatMap String.utf8EncodeChar

/-- A regular expression over bytes. -/
abbrev Pattern := RegularExpression UInt8

namespace Pattern

/-- The characters from one to another. -/
def between (first last : Char) : List Char :=
  (List.range' first.toNat (last.toNat + 1 - first.toNat)).map Char.ofNat

/-- The characters of a text, one after the other. -/
def literal (text : List Char) : Pattern :=
  (encoded text).foldr (fun b p => .char b * p) 1

/-- Any one of some characters. -/
def oneOf (chars : List Char) : Pattern :=
  chars.foldr (fun c p => literal [c] + p) 0

variable {p q : Pattern} {x : List UInt8}

theorem mem_literal {text : List Char} : x ∈ (literal text).matches' ↔ x = encoded text := by
  unfold literal
  induction encoded text generalizing x with
  | nil => rw [List.foldr_nil, RegularExpression.matches'_epsilon, Language.mem_one]
  | cons b rest ih =>
    rw [List.foldr_cons, RegularExpression.matches'_mul, Language.mem_mul]
    simp only [RegularExpression.matches'_char, ih]
    constructor
    · rintro ⟨_, rfl, _, rfl, rfl⟩
      rfl
    · rintro rfl
      exact ⟨[b], rfl, rest, rfl, rfl⟩

theorem mem_oneOf {chars : List Char} :
    x ∈ (oneOf chars).matches' ↔ ∃ c ∈ chars, x = encoded [c] := by
  induction chars with
  | nil => simp [oneOf]
  | cons c rest ih =>
    have hcons : oneOf (c :: rest) = literal [c] + oneOf rest := rfl
    rw [hcons, RegularExpression.matches'_add, Language.mem_add, mem_literal, ih]
    simp

/-- The pattern matches single bytes only, those with the property. -/
def IsByte (p : Pattern) (P : UInt8 → Prop) : Prop :=
  ∀ x, x ∈ p.matches' ↔ ∃ b, x = [b] ∧ P b

namespace IsByte

variable {P Q : UInt8 → Prop}

theorem congr (h : p.IsByte P) (hPQ : ∀ b, P b ↔ Q b) : p.IsByte Q := by
  intro x
  rw [h x]
  simp only [hPQ]

theorem add (hp : p.IsByte P) (hq : q.IsByte Q) : IsByte (p + q) fun b => P b ∨ Q b := by
  intro x
  rw [RegularExpression.matches'_add, Language.mem_add, hp x, hq x]
  constructor
  · rintro (⟨b, rfl, hb⟩ | ⟨b, rfl, hb⟩)
    · exact ⟨b, rfl, .inl hb⟩
    · exact ⟨b, rfl, .inr hb⟩
  · rintro ⟨b, rfl, hb | hb⟩
    · exact .inl ⟨b, rfl, hb⟩
    · exact .inr ⟨b, rfl, hb⟩

theorem mem_star (hp : p.IsByte P) : x ∈ p.star.matches' ↔ ∀ b ∈ x, P b := by
  rw [RegularExpression.matches'_star, Language.mem_kstar]
  constructor
  · rintro ⟨parts, rfl, hparts⟩ b hb
    obtain ⟨part, hpart, hb⟩ := List.mem_flatten.mp hb
    obtain ⟨c, rfl, hc⟩ := (hp part).mp (hparts part hpart)
    rw [List.mem_singleton.mp hb]
    exact hc
  · intro hall
    refine ⟨x.map fun b => [b], (List.flatMap_singleton' x).symm, fun part hpart => ?_⟩
    obtain ⟨b, hb, rfl⟩ := List.mem_map.mp hpart
    exact (hp [b]).mpr ⟨b, rfl, hall b hb⟩

/-- One byte of a kind, and then any number of another. -/
theorem mem_mul_star (hp : p.IsByte P) (hq : q.IsByte Q) :
    x ∈ (p * q.star).matches' ↔ ∃ b rest, x = b :: rest ∧ P b ∧ ∀ c ∈ rest, Q c := by
  rw [RegularExpression.matches'_mul, Language.mem_mul]
  constructor
  · rintro ⟨front, hfront, rest, hrest, rfl⟩
    obtain ⟨b, rfl, hb⟩ := (hp front).mp hfront
    exact ⟨b, rest, rfl, hb, hq.mem_star.mp hrest⟩
  · rintro ⟨b, rest, rfl, hb, hrest⟩
    exact ⟨[b], (hp [b]).mpr ⟨b, rfl, hb⟩, rest, hq.mem_star.mpr hrest, rfl⟩

end IsByte

/-- A character of ASCII is encoded by its own code. -/
theorem encoded_ofNat {n : Nat} (hn : n < 128) : encoded [Char.ofNat n] = [UInt8.ofNat n] := by
  have hascii : ∀ n < 128, encoded [Char.ofNat n] = [UInt8.ofNat n] := by decide +kernel
  exact hascii n hn

theorem isByte_between (first last : Char) (hlast : last.toNat < 128) :
    (oneOf (between first last)).IsByte fun b => first.toNat ≤ b.toNat ∧ b.toNat ≤ last.toNat := by
  intro x
  rw [mem_oneOf]
  constructor
  · rintro ⟨c, hc, rfl⟩
    obtain ⟨n, hn, rfl⟩ := List.mem_map.mp hc
    rw [List.mem_range'_1] at hn
    have hlt : n < 128 := by omega
    refine ⟨UInt8.ofNat n, encoded_ofNat hlt, ?_⟩
    show first.toNat ≤ (UInt8.ofNat n).toNat ∧ (UInt8.ofNat n).toNat ≤ last.toNat
    rw [UInt8.toNat_ofNat_of_lt' (Nat.lt_trans hlt (by decide))]
    omega
  · rintro ⟨b, rfl, hfirst, hle⟩
    refine ⟨Char.ofNat b.toNat, List.mem_map.mpr ⟨b.toNat, ?_, rfl⟩, ?_⟩
    · rw [List.mem_range'_1]
      omega
    · rw [encoded_ofNat (by omega), UInt8.ofNat_toNat]

/-! ### Longest matches -/

/-- The longest front of a text of at most so many bytes, but not the empty one, that the pattern
matches. -/
def longestWithin (p : Pattern) (text : List UInt8) : Nat → Option (List UInt8)
  | 0 => none
  | n + 1 =>
    if p.rmatch (text.take (n + 1)) then some (text.take (n + 1)) else p.longestWithin text n

/-- The longest front of a text that the pattern matches. -/
def longest? (p : Pattern) (text : List UInt8) : Option (List UInt8) :=
  p.longestWithin text text.length

/-- **What the longest match is:** a front of the text that the pattern matches, unless it is empty,
and that no other match is longer than. -/
theorem longest?_eq {text bytes : List UInt8} (hfront : bytes <+: text)
    (hmem : bytes ≠ [] → bytes ∈ p.matches')
    (hmax : ∀ other, other <+: text → other ∈ p.matches' → other.length ≤ bytes.length) :
    p.longest? text = if bytes.isEmpty then none else some bytes := by
  have hwithin : ∀ n, bytes.length ≤ n → n ≤ text.length →
      p.longestWithin text n = if bytes.isEmpty then none else some bytes := by
    intro n hn htext
    induction n with
    | zero =>
      have hnil : bytes = [] := List.length_eq_zero_iff.mp (Nat.le_zero.mp hn)
      rw [hnil]
      rfl
    | succ n ih =>
      have hlength : (text.take (n + 1)).length = n + 1 := List.length_take_of_le htext
      rw [longestWithin]
      by_cases hmatch : p.rmatch (text.take (n + 1)) = true
      · rw [if_pos hmatch]
        have hle := hmax _ (List.take_prefix _ _) ((p.rmatch_iff_matches' _).mp hmatch)
        have heq : bytes = text.take (n + 1) :=
          List.prefix_of_prefix_length_le hfront (List.take_prefix _ _) (by omega) |>.eq_of_length
            (by omega)
        have hne : bytes.isEmpty = false := by
          rw [List.isEmpty_eq_false_iff]
          exact List.ne_nil_of_length_pos (by omega)
        rw [hne, heq]
        rfl
      · rw [if_neg hmatch]
        refine ih ?_ (by omega)
        by_contra hnot
        -- Only the front just refused has so many bytes.
        have heq : bytes = text.take (n + 1) :=
          List.prefix_of_prefix_length_le hfront (List.take_prefix _ _) (by omega) |>.eq_of_length
            (by omega)
        have hne : bytes ≠ [] := List.ne_nil_of_length_pos (by omega)
        exact hmatch ((p.rmatch_iff_matches' _).mpr (heq ▸ hmem hne))
  exact hwithin _ hfront.length_le le_rfl

end Pattern

/-! ### The patterns of the classes -/

namespace TokenClass

/-- A decimal digit. -/
def digit : Pattern :=
  .oneOf (Pattern.between '0' '9')

/-- A letter or the underscore. -/
def letter : Pattern :=
  .oneOf (Pattern.between 'A' 'Z') + .oneOf (Pattern.between 'a' 'z') + .literal ['_']

/-- The pattern of a class. -/
def pattern : TokenClass → Pattern
  | number => digit * digit.star
  | word => letter * (letter + digit).star
  | operator =>
    .literal ['<', '='] + .literal ['>', '='] + .literal ['=', '=']
      + .oneOf ['-', '+', '*', '/', '<', '>', '≤', '≥']
  | punctuation => .oneOf ['=', '\x7b', '\x7d', ';']

variable {x text other : List UInt8}

theorem isByte_digit : digit.IsByte fun b => isDigitByte b = true := by
  refine (Pattern.isByte_between '0' '9' (by decide)).congr fun b => ?_
  simp only [isDigitByte, UInt8.le_iff_toNat_le, Bool.and_eq_true, decide_eq_true_eq]
  rfl

theorem isByte_letter : letter.IsByte fun b => isLetterByte b = true := by
  have hunderscore : (Pattern.literal ['_']).IsByte fun b => b = '_'.toUInt8 := by
    intro x
    rw [Pattern.mem_literal]
    have hbytes : encoded ['_'] = ['_'.toUInt8] := by decide
    simp [hbytes]
  have hsmall := Pattern.isByte_between 'a' 'z' (by decide)
  have hlarge := Pattern.isByte_between 'A' 'Z' (by decide)
  refine ((hlarge.add hsmall).add hunderscore).congr fun b => ?_
  simp only [isLetterByte, UInt8.le_iff_toNat_le, Bool.or_eq_true, Bool.and_eq_true,
    decide_eq_true_eq, beq_iff_eq]
  exact or_congr_left or_comm

theorem mem_number :
    x ∈ number.pattern.matches' ↔ x ≠ [] ∧ ∀ b ∈ x, isDigitByte b = true := by
  rw [pattern, isByte_digit.mem_mul_star isByte_digit]
  constructor
  · rintro ⟨b, rest, rfl, hb, hrest⟩
    exact ⟨List.cons_ne_nil b rest, List.forall_mem_cons.mpr ⟨hb, hrest⟩⟩
  · rintro ⟨hne, hall⟩
    obtain ⟨b, rest, rfl⟩ := List.exists_cons_of_ne_nil hne
    exact ⟨b, rest, rfl, List.forall_mem_cons.mp hall⟩

theorem mem_word : x ∈ word.pattern.matches' ↔
    ∃ b rest, x = b :: rest ∧ isLetterByte b = true ∧ ∀ c ∈ rest, isWordByte c = true := by
  rw [pattern, isByte_letter.mem_mul_star (isByte_letter.add isByte_digit)]
  simp only [isWordByte, Bool.or_eq_true]

theorem mem_operator :
    x ∈ operator.pattern.matches' ↔ ∃ entry ∈ operatorSpellings, x = entry.1 := by
  have hbytes : operatorSpellings.map Prod.fst =
      [['<', '='], ['>', '='], ['=', '='], ['-'], ['+'], ['*'], ['/'], ['<'], ['>'], ['≤'],
        ['≥']].map encoded := by decide
  have hmem : (∃ entry ∈ operatorSpellings, x = entry.1) ↔
      x ∈ operatorSpellings.map Prod.fst := by
    simp only [List.mem_map, eq_comm]
  rw [hmem, hbytes, pattern]
  simp only [RegularExpression.matches'_add, Language.mem_add, Pattern.mem_literal,
    Pattern.mem_oneOf]
  simp [or_assoc]

theorem mem_punctuation :
    x ∈ punctuation.pattern.matches' ↔ ∃ b, x = [b] ∧ (punctuation? b).isSome = true := by
  have hsome : ∀ b : UInt8, (punctuation? b).isSome = true ↔
      b = '='.toUInt8 ∨ b = '\x7b'.toUInt8 ∨ b = '\x7d'.toUInt8 ∨ b = ';'.toUInt8 := by
    intro b
    unfold punctuation?
    split_ifs <;> simp_all
  have hbytes : ['=', '\x7b', '\x7d', ';'].map (encoded [·]) =
      ['='.toUInt8, '\x7b'.toUInt8, '\x7d'.toUInt8, ';'.toUInt8].map fun b => [b] := by decide
  have hmem : (∃ c ∈ ['=', '\x7b', '\x7d', ';'], x = encoded [c]) ↔
      x ∈ ['=', '\x7b', '\x7d', ';'].map (encoded [·]) := by
    simp only [List.mem_map, eq_comm]
  rw [pattern, Pattern.mem_oneOf, hmem, hbytes]
  simp only [hsome, List.mem_map, List.mem_cons, List.not_mem_nil, or_false]
  constructor
  · rintro ⟨b, hb, rfl⟩
    exact ⟨b, rfl, hb⟩
  · rintro ⟨b, rfl, hb⟩
    exact ⟨b, hb, rfl⟩

/-! ### What a class takes is its longest match -/

/-- What a class takes from a text its pattern matches. -/
theorem spelling_mem (cls : TokenClass) (hne : cls.spelling text ≠ []) :
    cls.spelling text ∈ cls.pattern.matches' := by
  cases cls with
  | number => exact mem_number.mpr ⟨hne, fun b hb => List.mem_takeWhile_imp hb⟩
  | word =>
    cases text with
    | nil => exact absurd rfl hne
    | cons b rest =>
      rw [spelling] at hne ⊢
      split_ifs at hne ⊢ with hletter
      · exact mem_word.mpr ⟨b, _, rfl, hletter, fun c hc => List.mem_takeWhile_imp hc⟩
      · exact absurd rfl hne
  | operator =>
    rw [spelling] at hne ⊢
    split at hne
    · rename_i spelt symbol hat
      exact mem_operator.mpr ⟨_, List.mem_of_find?_eq_some hat, rfl⟩
    · exact absurd rfl hne
  | punctuation =>
    cases text with
    | nil => exact absurd rfl hne
    | cons b rest =>
      rw [spelling] at hne ⊢
      split_ifs at hne ⊢ with hsome
      · exact mem_punctuation.mpr ⟨b, rfl, hsome⟩
      · exact absurd rfl hne

/-- Bytes of a kind at the front of a text are at most all of that kind there. -/
theorem length_le_takeWhile {p : UInt8 → Bool} (hfront : other <+: text)
    (hall : ∀ b ∈ other, p b = true) : other.length ≤ (text.takeWhile p).length := by
  obtain ⟨rest, rfl⟩ := hfront
  rw [List.takeWhile_append_of_pos hall, List.length_append]
  exact Nat.le_add_right _ _

/-- Of the operators that a text begins with, the first of the table is the longest. -/
theorem length_le_of_operatorAt? {spelt : List UInt8} {symbol : Char} {entry : List UInt8 × Char}
    (hat : operatorAt? text = some (spelt, symbol)) (hmem : entry ∈ operatorSpellings)
    (hfront : entry.1 <+: text) : entry.1.length ≤ spelt.length := by
  have hlonger : operatorSpellings.Pairwise fun e e' => e.1 <+: e'.1 → e'.1 <+: e.1 := by decide
  obtain ⟨hspelt, earlier, later, htable, hearlier⟩ := List.find?_eq_some_iff_append.mp hat
  rw [List.isPrefixOf_iff_prefix] at hspelt
  rw [htable] at hmem hlonger
  rcases List.mem_append.mp hmem with hmem | hmem
  · have hnot := hearlier entry hmem
    rw [List.isPrefixOf_iff_prefix.mpr hfront] at hnot
    cases hnot
  · rcases List.mem_cons.mp hmem with rfl | hmem
    · exact le_rfl
    · have hpair := (List.pairwise_cons.mp (List.pairwise_append.mp hlonger).2.1).1 entry hmem
      rcases List.prefix_or_prefix_of_prefix hspelt hfront with hle | hle
      · exact (hpair hle).length_le
      · exact hle.length_le

/-- No match of the pattern is longer than what the class takes. -/
theorem length_le_spelling (cls : TokenClass) (hfront : other <+: text)
    (hmem : other ∈ cls.pattern.matches') : other.length ≤ (cls.spelling text).length := by
  cases cls with
  | number => exact length_le_takeWhile hfront (mem_number.mp hmem).2
  | word =>
    obtain ⟨b, tail, rfl, hletter, htail⟩ := mem_word.mp hmem
    obtain ⟨rest, rfl⟩ := hfront
    rw [List.cons_append, spelling, if_pos hletter]
    exact Nat.succ_le_succ (length_le_takeWhile (List.prefix_append _ _) htail)
  | operator =>
    obtain ⟨entry, hentry, rfl⟩ := mem_operator.mp hmem
    rw [spelling]
    split
    · rename_i spelt symbol hat
      exact length_le_of_operatorAt? hat hentry hfront
    · rename_i hnone
      exact absurd hfront (operatorAt?_eq_none_iff.mp hnone entry hentry)
  | punctuation =>
    obtain ⟨b, rfl, hsome⟩ := mem_punctuation.mp hmem
    obtain ⟨rest, rfl⟩ := hfront
    rw [List.cons_append, spelling, if_pos hsome]

/-- **A class takes the longest match of its pattern.** -/
theorem longest?_pattern (cls : TokenClass) (text : List UInt8) :
    cls.pattern.longest? text =
      if (cls.spelling text).isEmpty then none else some (cls.spelling text) :=
  Pattern.longest?_eq (cls.spelling_front text) cls.spelling_mem
    fun _ => cls.length_le_spelling

/-- **No other matcher takes the longest match:** a front of the text that the pattern matches,
unless it is empty, and that no other match is longer than, is what the class takes. -/
theorem eq_spelling {cls : TokenClass} {text bytes : List UInt8} (hfront : bytes <+: text)
    (hmem : bytes ≠ [] → bytes ∈ cls.pattern.matches')
    (hmax : ∀ other, other <+: text → other ∈ cls.pattern.matches' →
      other.length ≤ bytes.length) :
    bytes = cls.spelling text := by
  have hlongest := Pattern.longest?_eq hfront hmem hmax
  rw [cls.longest?_pattern] at hlongest
  cases bytes with
  | nil =>
    by_cases hempty : (cls.spelling text).isEmpty = true
    · exact (List.isEmpty_iff.mp hempty).symm
    · simp [hempty] at hlongest
  | cons b rest =>
    by_cases hempty : (cls.spelling text).isEmpty = true
    · simp [hempty] at hlongest
    · rw [if_neg hempty] at hlongest
      exact (Option.some.inj hlongest).symm

end TokenClass

/-! ### The first class that matches -/

/-- The first class whose pattern matches a front of the text, with the longest front it matches. -/
def firstMatch? (text : List UInt8) : Option (TokenClass × List UInt8) :=
  [TokenClass.number, .word, .operator, .punctuation].findSome? fun cls =>
    (cls.pattern.longest? text).map (cls, ·)

theorem firstMatch?_eq (text : List UInt8) :
    firstMatch? text = [TokenClass.number, .word, .operator, .punctuation].findSome? fun cls =>
      if (cls.spelling text).isEmpty then none else some (cls, cls.spelling text) := by
  unfold firstMatch?
  congr 1
  funext cls
  rw [cls.longest?_pattern]
  split
  · rfl
  · rfl

/-- Of the operators only one begins with a punctuation mark: two equality signs. -/
theorem operatorAt?_eq_none_of_punctuation {b : UInt8} {rest : List UInt8}
    (hpunctuation : (punctuation? b).isSome = true)
    (hequal : ¬ (b == '='.toUInt8 && rest.head? == some '='.toUInt8) = true) :
    operatorAt? (b :: rest) = none := by
  have honly : ∀ entry ∈ operatorSpellings,
      (entry.1.head?.any fun c => (punctuation? c).isSome) = true →
        entry.1 = ['='.toUInt8, '='.toUInt8] := by decide
  rw [operatorAt?_eq_none_iff]
  intro entry hmem hfront
  obtain ⟨c, spelt, hspelt⟩ := List.exists_cons_of_ne_nil (ne_nil_of_mem_operatorSpellings hmem)
  have hhead : c = b := (List.cons_prefix_cons.mp (hspelt ▸ hfront)).1
  have hsigns := honly entry hmem (by rw [hspelt, hhead]; exact hpunctuation)
  rw [hsigns] at hfront
  obtain ⟨after, hafter⟩ := hfront
  cases hafter
  exact hequal rfl

/-- The slice holds all that the class would take from the whole text. -/
theorem spelling_slice {text slice : List UInt8} {cls : TokenClass}
    (h : candidate? text = some (cls, slice)) : cls.spelling slice = cls.spelling text := by
  cases text with
  | nil => cases h
  | cons b rest =>
    have hcandidate := h
    rw [candidate?] at h
    split_ifs at h with hdigit hletter hequal hpunctuation hopens
    all_goals cases h
    · exact spelling_number_eq hcandidate
    · have hword : isWordByte b = true := by rw [isWordByte, hletter, Bool.true_or]
      rw [List.takeWhile_cons_of_pos hword, TokenClass.spelling, TokenClass.spelling,
        List.takeWhile_idem]
    · rw [Bool.and_eq_true, beq_iff_eq, beq_iff_eq] at hequal
      obtain ⟨rfl, hhead⟩ := hequal
      obtain ⟨rest, rfl⟩ := List.head?_eq_some_iff.mp hhead
      rfl
    · rfl
    · rw [TokenClass.spelling, TokenClass.spelling, operatorAt?_take]

theorem spelt?_of_candidate? {text slice : List UInt8} {cls : TokenClass}
    (h : candidate? text = some (cls, slice)) : spelt? text =
      if (cls.spelling text).isEmpty then none else some (cls, cls.spelling text) := by
  rw [← spelling_slice h, spelt?, h]

/-- **Nothing is lost by looking at the first byte and at a slice:** the token found is that of the
first class that matches, with its longest match in the whole text. -/
theorem spelt?_eq_firstMatch? (text : List UInt8) : spelt? text = firstMatch? text := by
  rw [firstMatch?_eq]
  cases text with
  | nil => rfl
  | cons b rest =>
    -- The cases of `candidate?`; in each of them the classes before the candidate take nothing.
    by_cases hdigit : isDigitByte b = true
    · rw [spelt?_of_candidate? (by rw [candidate?, if_pos hdigit])]
      have hspelling : TokenClass.number.spelling (b :: rest) = b :: rest.takeWhile isDigitByte :=
        List.takeWhile_cons_of_pos hdigit
      simp [hspelling]
    have hnumber : TokenClass.number.spelling (b :: rest) = [] := List.takeWhile_cons_of_neg hdigit
    by_cases hletter : isLetterByte b = true
    · rw [spelt?_of_candidate? (by rw [candidate?, if_neg hdigit, if_pos hletter])]
      have hspelling : TokenClass.word.spelling (b :: rest) = b :: rest.takeWhile isWordByte :=
        if_pos hletter
      simp [hnumber, hspelling]
    have hword : TokenClass.word.spelling (b :: rest) = [] := if_neg hletter
    by_cases hequal : (b == '='.toUInt8 && rest.head? == some '='.toUInt8) = true
    · rw [spelt?_of_candidate? (by rw [candidate?, if_neg hdigit, if_neg hletter, if_pos hequal])]
      rw [Bool.and_eq_true, beq_iff_eq, beq_iff_eq] at hequal
      obtain ⟨rfl, hhead⟩ := hequal
      obtain ⟨rest, rfl⟩ := List.head?_eq_some_iff.mp hhead
      rfl
    by_cases hpunctuation : (punctuation? b).isSome = true
    · rw [spelt?_of_candidate?
        (by rw [candidate?, if_neg hdigit, if_neg hletter, if_neg hequal, if_pos hpunctuation])]
      have hoperator : TokenClass.operator.spelling (b :: rest) = [] := by
        rw [TokenClass.spelling, operatorAt?_eq_none_of_punctuation hpunctuation hequal]
      have hspelling : TokenClass.punctuation.spelling (b :: rest) = [b] := if_pos hpunctuation
      simp [hnumber, hword, hoperator, hspelling]
    have hnone : TokenClass.punctuation.spelling (b :: rest) = [] := if_neg hpunctuation
    by_cases hopens : opensOperator b = true
    · rw [spelt?_of_candidate? (by rw [candidate?, if_neg hdigit, if_neg hletter, if_neg hequal,
        if_neg hpunctuation, if_pos hopens])]
      cases hoperator : TokenClass.operator.spelling (b :: rest) with
      | nil => simp [hnumber, hword, hoperator, hnone]
      | cons c spelt => simp [hnumber, hword, hoperator]
    · have hcandidate : candidate? (b :: rest) = none := by
        rw [candidate?, if_neg hdigit, if_neg hletter, if_neg hequal, if_neg hpunctuation,
          if_neg hopens]
      have hoperator : TokenClass.operator.spelling (b :: rest) = [] := by
        rw [TokenClass.spelling, operatorAt?_eq_none_of_head (by simpa using hopens)
          (by simpa using hpunctuation)]
      rw [spelt?, hcandidate]
      simp [hnumber, hword, hoperator, hnone]

end BlockFlow
