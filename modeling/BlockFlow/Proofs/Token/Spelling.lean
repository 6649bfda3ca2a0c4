import BlockFlow.Proofs.Token.Tokenizing

/-!
# How tokens are written

A text is made of spellings and of what separates them.  `Spells` says which bytes are a spelling of
a token, and `Separation` which bytes may stand between two of them; neither mentions the scanner.

The tokenizer takes exactly a spelling (`spells_of_tokenAt`), whatever separates it from what comes
before it (`separators_spec`).  The other way round, a spelling that is followed by a blank, or by
nothing, is taken as a whole (`Spells.tokenAt`): a blank ends each of the four patterns.  So
whatever tokens are written down, with blanks and comments between them, they are what scanning the
text finds (`scan_written`).
-/

namespace BlockFlow

variable {before gap text bytes after rest : List UInt8} {b : UInt8} {atEnd : Prop}

/-! ### Separations -/

/-- Blanks and comments, one after the other.  A comment ends with a newline; the last one may do
without if the text ends there. -/
inductive Separation (atEnd : Prop) : List UInt8 → Prop where
  | nil : Separation atEnd []
  | blank {b : UInt8} {rest : List UInt8} (hb : b ∈ encoded [' ', '\t', '\r', '\n'])
      (h : Separation atEnd rest) : Separation atEnd (b :: rest)
  | comment {body rest : List UInt8} (hbody : '\n'.toUInt8 ∉ body)
      (h : Separation atEnd ('\n'.toUInt8 :: rest)) :
      Separation atEnd (encoded ['/', '/'] ++ (body ++ '\n'.toUInt8 :: rest))
  | lastComment {body : List UInt8} (hend : atEnd) (hbody : '\n'.toUInt8 ∉ body) :
      Separation atEnd (encoded ['/', '/'] ++ body)

theorem encoded_slashes : encoded ['/', '/'] = ['/'.toUInt8, '/'.toUInt8] := by decide

theorem separators_of_blank (hb : b ∈ encoded [' ', '\t', '\r', '\n']) (rest : List UInt8) :
    separators (b :: rest) = b :: separators rest := by
  rw [separators, if_pos hb]

/-- A comment is taken up to the end of its line. -/
theorem separators_of_slashes (rest : List UInt8) :
    separators (encoded ['/', '/'] ++ rest) =
      encoded ['/', '/'] ++ (rest.takeWhile (· ≠ '\n'.toUInt8) ++
        separators (rest.dropWhile (· ≠ '\n'.toUInt8))) := by
  have hslash : '/'.toUInt8 ∉ encoded [' ', '\t', '\r', '\n'] := by decide
  have hline : decide ('/'.toUInt8 ≠ '\n'.toUInt8) = true := by decide
  have hfront : encoded ['/', '/'] <+: '/'.toUInt8 :: '/'.toUInt8 :: rest := by
    rw [encoded_slashes]
    exact List.prefix_append ['/'.toUInt8, '/'.toUInt8] rest
  rw [encoded_slashes, List.cons_append, List.cons_append, List.nil_append, separators,
    if_neg hslash, if_pos hfront, List.takeWhile_cons, List.dropWhile_cons, hline]
  rfl

theorem ne_newline_of_body (hbody : '\n'.toUInt8 ∉ bytes) :
    ∀ c ∈ bytes, decide (c ≠ '\n'.toUInt8) = true := by
  intro c hc
  rw [decide_eq_true_eq]
  rintro rfl
  exact hbody hc

/-- **What the tokenizer skips is a separation,** and nothing behind it could be skipped. -/
theorem separators_spec (text : List UInt8) :
    ∃ rest, text = separators text ++ rest ∧ Separation (rest = []) (separators text) ∧
      separators rest = [] := by
  fun_induction separators text with
  | case1 => exact ⟨[], rfl, .nil, by rw [separators]⟩
  | case2 b rest hblank ih =>
    obtain ⟨after, hafter, hseparation, hstop⟩ := ih
    exact ⟨after, by rw [List.cons_append, ← hafter], .blank hblank hseparation, hstop⟩
  | case3 b rest hblank hslashes ih =>
    obtain ⟨after, hafter, hseparation, hstop⟩ := ih
    obtain ⟨tail, htail⟩ := hslashes
    rw [encoded_slashes, List.cons_append, List.cons_append, List.nil_append] at htail
    obtain ⟨rfl, rfl⟩ := List.cons.inj htail
    have hslash : decide ('/'.toUInt8 ≠ '\n'.toUInt8) = true := by decide
    have hbody : '\n'.toUInt8 ∉ tail.takeWhile (· ≠ '\n'.toUInt8) := by
      intro hmem
      simpa using List.mem_takeWhile_imp hmem
    have hparts := @List.takeWhile_append_dropWhile _ (· ≠ '\n'.toUInt8) tail
    rw [List.takeWhile_cons, if_pos hslash]
    rw [List.dropWhile_cons, if_pos hslash] at hafter hseparation ⊢
    refine ⟨after, ?_, ?_, hstop⟩
    · rw [List.cons_append, List.cons_append, List.cons_append, List.append_assoc, ← hafter, hparts]
    · -- The comment ends the text, or else with the newline that what follows begins with.
      cases hline : tail.dropWhile (· ≠ '\n'.toUInt8) with
      | nil =>
        rw [hline] at hafter
        rw [separators, List.nil_append] at hafter
        rw [separators, List.append_nil]
        exact .lastComment hafter.symm hbody
      | cons c line =>
        have hc : c = '\n'.toUInt8 := by
          have hhead := List.head?_dropWhile_not (· ≠ '\n'.toUInt8) tail
          rw [hline] at hhead
          simpa using hhead
        have hnewline : '\n'.toUInt8 ∈ encoded [' ', '\t', '\r', '\n'] := by decide
        subst hc
        rw [hline, separators_of_blank hnewline] at hseparation
        rw [separators_of_blank hnewline]
        exact .comment hbody hseparation
  | case4 b rest hblank hslashes =>
    exact ⟨b :: rest, rfl, .nil, by rw [separators, if_neg hblank, if_neg hslashes]⟩

theorem Separation.imp {p q : Prop} (h : Separation p gap) (hpq : p → q) : Separation q gap := by
  induction h with
  | nil => exact .nil
  | blank hb _ ih => exact .blank hb ih
  | comment hbody _ ih => exact .comment hbody ih
  | lastComment hend hbody => exact .lastComment (hpq hend) hbody

/-- **A separation is skipped as a whole,** whatever follows it. -/
theorem Separation.separators_append (h : Separation (text = []) gap) :
    separators (gap ++ text) = gap ++ separators text := by
  induction h with
  | nil => rfl
  | blank hb _ ih => rw [List.cons_append, separators_of_blank hb, ih, List.cons_append]
  | @comment body line hbody _ ih =>
    have hnewline : decide ('\n'.toUInt8 ≠ '\n'.toUInt8) = false := by decide
    have hall := ne_newline_of_body hbody
    rw [List.append_assoc, List.append_assoc, separators_of_slashes,
      List.takeWhile_append_of_pos hall, List.dropWhile_append_of_pos hall, List.cons_append,
      List.takeWhile_cons_of_neg (by rw [hnewline]; decide),
      List.dropWhile_cons_of_neg (by rw [hnewline]; decide), List.append_nil, ← List.cons_append,
      ih, List.append_assoc, List.append_assoc]
  | @lastComment body hend hbody =>
    have hall := ne_newline_of_body hbody
    rw [hend, separators, List.append_nil, separators_of_slashes,
      List.takeWhile_eq_self_iff.mpr hall, List.dropWhile_eq_nil_iff.mpr hall, separators,
      List.append_nil]

/-- A newline ends the last comment. -/
theorem Separation.concat_newline (h : Separation atEnd gap) :
    Separation False (gap ++ ['\n'.toUInt8]) := by
  have hnewline : '\n'.toUInt8 ∈ encoded [' ', '\t', '\r', '\n'] := by decide
  induction h with
  | nil => exact .blank hnewline .nil
  | blank hb _ ih => exact .blank hb ih
  | comment hbody _ ih =>
    rw [List.append_assoc, List.append_assoc]
    exact .comment hbody ih
  | lastComment _ hbody =>
    rw [List.append_assoc]
    exact .comment hbody (.blank hnewline .nil)

/-! ### What a blank ends -/

/-- Where a text does not hold a byte, it begins another text up to that byte if at all. -/
theorem prefix_append_cons_iff (hb : b ∉ bytes) :
    bytes <+: text ++ b :: after ↔ bytes <+: text := by
  refine ⟨fun h => ?_, fun h => h.trans (List.prefix_append _ _)⟩
  rcases List.prefix_or_prefix_of_prefix h (List.prefix_append text (b :: after)) with h' | h'
  · exact h'
  · obtain ⟨tail, rfl⟩ := h'
    rw [List.prefix_append_right_inj] at h
    cases tail with
    | nil => rw [List.append_nil]
    | cons c tail =>
      rw [(List.cons_prefix_cons.mp h).1] at hb
      exact absurd (List.mem_append_right text List.mem_cons_self) hb

theorem takeWhile_append_cons {p : UInt8 → Bool} (hb : p b = false) :
    (text ++ b :: after).takeWhile p = text.takeWhile p := by
  induction text with
  | nil => exact List.takeWhile_cons_of_neg (by rw [hb]; decide)
  | cons c text ih => rw [List.cons_append, List.takeWhile_cons, List.takeWhile_cons, ih]

/-- A blank is in no word, and neither a punctuation mark nor part of an operator. -/
theorem blank_spec (hb : b ∈ encoded [' ', '\t', '\r', '\n']) :
    isDigitByte b = false ∧ isLetterByte b = false ∧ isWordByte b = false ∧
      (punctuation? b).isSome = false ∧ ∀ entry ∈ operatorSpellings, b ∉ entry.1 := by
  have hbytes : encoded [' ', '\t', '\r', '\n'] =
      [' '.toUInt8, '\t'.toUInt8, '\r'.toUInt8, '\n'.toUInt8] := by decide
  rw [hbytes] at hb
  simp only [List.mem_cons, List.not_mem_nil, or_false] at hb
  rcases hb with rfl | rfl | rfl | rfl
  all_goals decide

/-- The text begins with a blank, or is empty. -/
def BeginsBlank (text : List UInt8) : Prop :=
  ∀ b ∈ text.head?, b ∈ encoded [' ', '\t', '\r', '\n']

/-- **A blank ends every token.** -/
theorem TokenClass.spelling_append (cls : TokenClass) (text : List UInt8)
    (hafter : BeginsBlank after) : cls.spelling (text ++ after) = cls.spelling text := by
  cases after with
  | nil => rw [List.append_nil]
  | cons b after =>
    obtain ⟨hdigit, hletter, hword, hpunctuation, hoperator⟩ := blank_spec (hafter b rfl)
    cases cls with
    | number => exact takeWhile_append_cons hdigit
    | word =>
      cases text with
      | nil => simp [spelling, hletter]
      | cons c text => rw [List.cons_append, spelling, spelling, takeWhile_append_cons hword]
    | operator =>
      have hat : operatorAt? (text ++ b :: after) = operatorAt? text := by
        unfold operatorAt?
        refine List.find?_congr fun entry hentry => ?_
        rw [Bool.eq_iff_iff, List.isPrefixOf_iff_prefix, List.isPrefixOf_iff_prefix,
          prefix_append_cons_iff (hoperator entry hentry)]
      rw [spelling, spelling, hat]
    | punctuation =>
      cases text with
      | nil => simp [spelling, hpunctuation]
      | cons c text => rw [List.cons_append, spelling, spelling]

theorem firstMatch?_append (text : List UInt8) (hafter : BeginsBlank after) :
    firstMatch? (text ++ after) = firstMatch? text := by
  simp only [firstMatch?_eq, TokenClass.spelling_append _ text hafter]

/-- A blank does not complete the opening of a comment, so a text that begins with no separator
still begins with none. -/
theorem separators_append (hne : text ≠ []) (hstop : separators text = [])
    (hafter : BeginsBlank after) : separators (text ++ after) = [] := by
  cases after with
  | nil => rwa [List.append_nil]
  | cons b after =>
    have hslashes : b ∉ encoded ['/', '/'] := by
      obtain ⟨-, -, -, -, hoperator⟩ := blank_spec (hafter b rfl)
      have hslash := hoperator (['/'.toUInt8], '/') (by decide)
      rw [encoded_slashes]
      simpa using hslash
    obtain ⟨c, tail, rfl⟩ := List.exists_cons_of_ne_nil hne
    rw [separators] at hstop
    split_ifs at hstop with hblank hcomment
    rw [List.cons_append, separators, if_neg hblank, if_neg ?_]
    rwa [← List.cons_append, prefix_append_cons_iff hslashes]

/-! ### Spellings -/

/-- The tokens that have a text of their own.  Two of the operators have two. -/
def fixedSpellings : List (List Char × Lexeme) :=
  [(['i', 'f'], .ifWord), (['e', 'l', 's', 'e'], .elseWord),
   (['w', 'h', 'i', 'l', 'e'], .whileWord), (['r', 'e', 't', 'u', 'r', 'n'], .returnWord),
   (['='], .assign), (['\x7b'], .openBrace), (['\x7d'], .closeBrace), ([';'], .delimiter),
   (['+'], .op '+'), (['-'], .op '-'), (['*'], .op '*'), (['/'], .op '/'), (['<'], .op '<'),
   (['>'], .op '>'), (['=', '='], .op '='), (['<', '='], .op '≤'), (['≤'], .op '≤'),
   (['>', '='], .op '≥'), (['≥'], .op '≥')]

/-- The bytes are a spelling of the token: the digits of a number behind any number of zeros, a name
that is no reserved word, or the text of a token that has one. -/
inductive Spells : List UInt8 → Lexeme → Prop where
  | number (zeros value : Nat) (hvalue : value < 2 ^ 63) :
      Spells (encoded (List.replicate zeros '0' ++ Nat.toDigits 10 value))
        (.number (Int64.ofNat value))
  | name (name : String) (hname : encoded name.toList ∈ TokenClass.word.pattern.matches')
      (hfree : name ∉ ["if", "else", "while", "return"]) :
      Spells (encoded name.toList) (.ident name)
  | fixed (chars : List Char) (lexeme : Lexeme) (hfixed : (chars, lexeme) ∈ fixedSpellings) :
      Spells (encoded chars) lexeme

variable {chars : List Char} {lexeme : Lexeme}

/-- A character of ASCII is one byte, which has its code. -/
theorem encoded_ascii (h : ∀ c ∈ chars, c.toNat < 128) :
    encoded chars = chars.map fun c => UInt8.ofNat c.toNat := by
  induction chars with
  | nil => rfl
  | cons c chars ih =>
    obtain ⟨hc, hchars⟩ := List.forall_mem_cons.mp h
    have hfirst := Pattern.encoded_ofNat hc
    rw [Char.ofNat_toNat] at hfirst
    have hcons : encoded (c :: chars) = encoded [c] ++ encoded chars := by simp [encoded]
    rw [hcons, hfirst, ih hchars]
    rfl

theorem ascii_of_encoded (h : ∀ b ∈ encoded chars, b.toNat < 128) : ∀ c ∈ chars, c.toNat < 128 := by
  intro c hc
  have hbytes : ∀ b ∈ String.utf8EncodeChar c, b.toNat < 128 :=
    fun b hb => h b (List.mem_flatMap.mpr ⟨c, hc, hb⟩)
  -- The first byte of a longer encoding is beyond ASCII.
  rw [String.utf8EncodeChar] at hbytes
  show c.val.toNat < 128
  split_ifs at hbytes with h₁ h₂ h₃
  · omega
  all_goals
    have hfirst := hbytes _ List.mem_cons_self
    rw [UInt8.toNat_ofNat'] at hfirst
    omega

theorem textOfBytes_encoded (h : ∀ c ∈ chars, c.toNat < 128) :
    textOfBytes (encoded chars) = String.ofList chars := by
  unfold textOfBytes
  rw [encoded_ascii h, List.map_map]
  congr 1
  nth_rewrite 2 [← List.map_id chars]
  refine List.map_congr_left fun c hc => ?_
  have hlt := h c hc
  refine Char.ext (UInt32.toNat_inj.mp ?_)
  show (UInt8.ofNat c.toNat).toUInt32.toNat = c.toNat
  rw [UInt8.toNat_toUInt32, UInt8.toNat_ofNat_of_lt' (Nat.lt_trans hlt (by decide))]

theorem encoded_textOfBytes (h : ∀ b ∈ bytes, b.toNat < 128) :
    encoded (textOfBytes bytes).toList = bytes := by
  have hcode : ∀ b : UInt8, (Char.ofUInt8 b).toNat = b.toNat := fun b => UInt8.toNat_toUInt32 b
  rw [textOfBytes, String.toList_ofList, encoded_ascii, List.map_map]
  · nth_rewrite 2 [← List.map_id bytes]
    refine List.map_congr_left fun b _ => ?_
    show UInt8.ofNat (Char.ofUInt8 b).toNat = b
    rw [hcode, UInt8.ofNat_toNat]
  · intro c hc
    obtain ⟨b, hb, rfl⟩ := List.mem_map.mp hc
    rw [hcode]
    exact h b hb

theorem isLetterByte_spec (hb : isLetterByte b = true) : 58 ≤ b.toNat ∧ b.toNat < 128 := by
  simp only [isLetterByte, Bool.or_eq_true, Bool.and_eq_true, decide_eq_true_eq, beq_iff_eq,
    UInt8.le_iff_toNat_le] at hb
  rcases hb with (hb | hb) | rfl
  · have hb : 97 ≤ b.toNat ∧ b.toNat ≤ 122 := hb
    omega
  · have hb : 65 ≤ b.toNat ∧ b.toNat ≤ 90 := hb
    omega
  · decide

theorem isDigitByte_iff : isDigitByte b = true ↔ 48 ≤ b.toNat ∧ b.toNat ≤ 57 := by
  simp only [isDigitByte, Bool.and_eq_true, decide_eq_true_eq, UInt8.le_iff_toNat_le]
  exact Iff.rfl

/-- Words are made of bytes of ASCII. -/
theorem toNat_lt_of_word (hword : bytes ∈ TokenClass.word.pattern.matches') :
    ∀ b ∈ bytes, b.toNat < 128 := by
  obtain ⟨first, tail, rfl, hfirst, htail⟩ := TokenClass.mem_word.mp hword
  intro b hb
  rcases List.mem_cons.mp hb with rfl | hb
  · exact (isLetterByte_spec hfirst).2
  · have hb := htail b hb
    rw [isWordByte, Bool.or_eq_true, isDigitByte_iff] at hb
    rcases hb with hb | hb
    · exact (isLetterByte_spec hb).2
    · omega

/-! ### Numbers -/

/-- The value of the digits is that of the characters. -/
theorem decimalValue_encoded (h : ∀ c ∈ chars, c.toNat < 128) :
    TokenClass.decimalValue (encoded chars) = Nat.ofDigitChars 10 chars 0 := by
  unfold TokenClass.decimalValue
  rw [encoded_ascii h, List.foldl_map, Nat.ofDigitChars_eq_foldl]
  refine List.foldl_ext _ _ _ fun n c hc => ?_
  rw [UInt8.toNat_ofNat_of_lt' (Nat.lt_trans (h c hc) (by decide))]

/-- Numbers are written in digits, and zeros in front do not count. -/
theorem decimalValue_digits (zeros value : Nat) :
    encoded (List.replicate zeros '0' ++ Nat.toDigits 10 value) ≠ [] ∧
    (∀ b ∈ encoded (List.replicate zeros '0' ++ Nat.toDigits 10 value), isDigitByte b = true) ∧
      TokenClass.decimalValue (encoded (List.replicate zeros '0' ++ Nat.toDigits 10 value)) =
        value := by
  have hdigit : ∀ c ∈ List.replicate zeros '0' ++ Nat.toDigits 10 value,
      48 ≤ c.toNat ∧ c.toNat ≤ 57 := by
    intro c hc
    have hc : c.isDigit = true := by
      rcases List.mem_append.mp hc with hc | hc
      · rw [List.eq_of_mem_replicate hc]
        decide
      · exact Nat.isDigit_of_mem_toDigits (by decide) (by decide) hc
    simpa [Char.isDigit, UInt32.le_iff_toNat_le] using hc
  have hascii : ∀ c ∈ List.replicate zeros '0' ++ Nat.toDigits 10 value, c.toNat < 128 := by
    intro c hc
    have hle := (hdigit c hc).2
    omega
  refine ⟨?_, ?_, ?_⟩
  · rw [encoded_ascii hascii]
    simp [Nat.toDigits_ne_nil]
  · rw [encoded_ascii hascii]
    intro b hb
    obtain ⟨c, hc, rfl⟩ := List.mem_map.mp hb
    rw [isDigitByte_iff, UInt8.toNat_ofNat_of_lt' (Nat.lt_trans (hascii c hc) (by decide))]
    exact hdigit c hc
  · rw [decimalValue_encoded hascii, Nat.ofDigitChars_append, Nat.ofDigitChars_replicate_zero,
      Nat.mul_zero, Nat.ofDigitChars_ten_toDigits]

theorem encoded_append (chars chars' : List Char) :
    encoded (chars ++ chars') = encoded chars ++ encoded chars' :=
  List.flatMap_append

/-- **Digits are zeros and then the digits of their value.** -/
theorem exists_zeros (hne : bytes ≠ []) (hall : ∀ b ∈ bytes, isDigitByte b = true) :
    ∃ zeros, bytes =
      encoded (List.replicate zeros '0' ++ Nat.toDigits 10 (TokenClass.decimalValue bytes)) := by
  induction bytes using List.reverseRecOn with
  | nil => exact absurd rfl hne
  | append_singleton front b ih =>
    obtain ⟨hfront, hb⟩ := List.forall_mem_append.mp hall
    obtain ⟨hge, hle⟩ := isDigitByte_iff.mp (hb b (List.mem_singleton.mpr rfl))
    have hdigit : b.toNat - 48 < 10 := by omega
    have hlast : encoded [Nat.digitChar (b.toNat - 48)] = [b] := by
      have hcode := Nat.toNat_digitChar_of_lt_ten hdigit
      rw [encoded_ascii (by simp [hcode]; omega), List.map_singleton, hcode,
        Nat.add_sub_cancel' hge, UInt8.ofNat_toNat]
    have hvalue : TokenClass.decimalValue (front ++ [b]) =
        10 * TokenClass.decimalValue front + (b.toNat - 48) := by
      unfold TokenClass.decimalValue
      rw [List.foldl_append]
      rfl
    rw [hvalue]
    by_cases hnil : front = []
    · -- The first digit is the last one.
      refine ⟨0, ?_⟩
      subst hnil
      show [b] = encoded (Nat.toDigits 10 (10 * 0 + (b.toNat - 48)))
      rw [Nat.mul_zero, Nat.zero_add, Nat.toDigits_of_lt_base hdigit, hlast]
    · obtain ⟨zeros, hzeros⟩ := ih hnil hfront
      generalize TokenClass.decimalValue front = value at hzeros
      subst hzeros
      rcases Nat.eq_zero_or_pos value with rfl | hpos
      · -- So far there were zeros only.
        refine ⟨zeros + 1, ?_⟩
        rw [Nat.toDigits_zero, Nat.mul_zero, Nat.zero_add, Nat.toDigits_of_lt_base hdigit,
          encoded_append _ [Nat.digitChar _], hlast, List.replicate_succ']
      · refine ⟨zeros, ?_⟩
        rw [← Nat.toDigits_append_toDigits (by decide) hpos hdigit, ← List.append_assoc,
          Nat.toDigits_of_lt_base hdigit, encoded_append _ [Nat.digitChar _], hlast]

/-! ### Spellings are what tokens take -/

theorem firstMatch?_of_number (hne : bytes ≠ []) (hall : ∀ b ∈ bytes, isDigitByte b = true) :
    firstMatch? bytes = some (.number, bytes) := by
  have hspelling : TokenClass.number.spelling bytes = bytes := by
    unfold TokenClass.spelling
    exact List.takeWhile_eq_self_iff.mpr hall
  rw [firstMatch?_eq]
  simp [hspelling, hne]

theorem firstMatch?_of_word (hword : bytes ∈ TokenClass.word.pattern.matches') :
    firstMatch? bytes = some (.word, bytes) := by
  obtain ⟨c, tail, rfl, hletter, htail⟩ := TokenClass.mem_word.mp hword
  have hdigit : ¬ isDigitByte c = true := by
    rw [isDigitByte_iff]
    have hge := (isLetterByte_spec hletter).1
    omega
  have hspelling : TokenClass.word.spelling (c :: tail) = c :: tail := by
    rw [TokenClass.spelling, if_pos hletter, List.takeWhile_eq_self_iff.mpr htail]
  have hnumber : TokenClass.number.spelling (c :: tail) = [] :=
    List.takeWhile_cons_of_neg hdigit
  rw [firstMatch?_eq]
  simp [hspelling, hnumber]

/-- **A spelling is one token,** of the kind that it spells. -/
theorem Spells.firstMatch? (h : Spells bytes lexeme) :
    ∃ cls, firstMatch? bytes = some (cls, bytes) ∧ cls.meaning? bytes = some lexeme := by
  cases h with
  | number zeros value hvalue =>
    obtain ⟨hne, hall, hdecimal⟩ := decimalValue_digits zeros value
    refine ⟨.number, firstMatch?_of_number hne hall, ?_⟩
    rw [TokenClass.meaning?, valueOf_eq, hdecimal, wordOf?_eq, if_pos hvalue]
    rfl
  | name name hname hfree =>
    refine ⟨.word, firstMatch?_of_word hname, ?_⟩
    rw [TokenClass.meaning?, lookup_reservedWords,
      textOfBytes_encoded (ascii_of_encoded (toNat_lt_of_word hname)), String.ofList_toList,
      Lexeme.ofWord]
    simp_all
  | fixed chars lexeme hfixed =>
    have hall : ∀ entry ∈ fixedSpellings, ∃ cls ∈ [TokenClass.word, .operator, .punctuation],
        spelt? (encoded entry.1) = some (cls, encoded entry.1) ∧
          cls.meaning? (encoded entry.1) = some entry.2 := by decide
    obtain ⟨cls, -, hspelt, hmeaning⟩ := hall _ hfixed
    exact ⟨cls, by rw [← spelt?_eq_firstMatch?, hspelt], hmeaning⟩

theorem Spells.ne_eof (h : Spells bytes lexeme) : lexeme ≠ .eof := by
  obtain ⟨cls, -, hmeaning⟩ := h.firstMatch?
  exact cls.ne_eof_of_meaning? hmeaning

theorem spells_of_lookup {table : List (List UInt8 × Lexeme)}
    (htable : ∀ entry ∈ table, ∃ fixed ∈ fixedSpellings, entry = (encoded fixed.1, fixed.2))
    (h : table.lookup bytes = some lexeme) : Spells bytes lexeme := by
  obtain ⟨earlier, later, rfl, -⟩ := List.lookup_eq_some_iff.mp h
  obtain ⟨fixed, hfixed, heq⟩ := htable _ (List.mem_append_right _ List.mem_cons_self)
  cases heq
  exact .fixed fixed.1 fixed.2 hfixed

/-- **A token is a spelling** of what it says. -/
theorem spells_of_firstMatch? {cls : TokenClass} (h : firstMatch? text = some (cls, bytes))
    (hmeaning : cls.meaning? bytes = some lexeme) : Spells bytes lexeme := by
  obtain ⟨slice, -, hspelling, hne⟩ :=
    spelt?_eq_some_iff.mp ((spelt?_eq_firstMatch? text).trans h)
  have hmem : bytes ∈ cls.pattern.matches' := hspelling ▸ cls.spelling_mem (hspelling ▸ hne)
  cases cls with
  | number =>
    obtain ⟨zeros, hzeros⟩ := exists_zeros hne (TokenClass.mem_number.mp hmem).2
    rw [TokenClass.meaning?, valueOf_eq, wordOf?_eq] at hmeaning
    split_ifs at hmeaning with hsmall
    · cases hmeaning
      have hspells := Spells.number zeros (TokenClass.decimalValue bytes) hsmall
      rwa [← hzeros] at hspells
    · cases hmeaning
  | word =>
    have hname := lookup_reservedWords bytes
    rw [TokenClass.meaning?] at hmeaning
    cases hlookup : reservedWords.lookup bytes with
    | some word =>
      rw [hlookup] at hmeaning
      cases hmeaning
      exact spells_of_lookup (by decide) hlookup
    | none =>
      rw [hlookup] at hmeaning hname
      cases hmeaning
      have hbytes := encoded_textOfBytes (toNat_lt_of_word hmem)
      have hspells := Spells.name (textOfBytes bytes) (by rwa [hbytes]) ?_
      · rwa [hbytes] at hspells
      · -- A reserved word would have been found.
        intro hreserved
        simp only [List.mem_cons, List.not_mem_nil, or_false] at hreserved
        rcases hreserved with heq | heq | heq | heq
        all_goals
          rw [heq] at hname
          cases hname
  | operator =>
    have hall : ∀ entry ∈ operatorSpellings, ∃ fixed ∈ fixedSpellings,
        entry.1 = encoded fixed.1 ∧ TokenClass.operator.meaning? entry.1 = some fixed.2 := by decide
    obtain ⟨entry, hentry, rfl⟩ := TokenClass.mem_operator.mp hmem
    obtain ⟨fixed, hfixed, hbytes, hsays⟩ := hall entry hentry
    rw [hmeaning] at hsays
    cases hsays
    rw [hbytes]
    exact .fixed fixed.1 fixed.2 hfixed
  | punctuation => exact spells_of_lookup (by decide) hmeaning

/-! ### Tokens in a text -/

theorem spells_of_tokenAt (h : tokenAt before text = .ok (lexeme, bytes)) :
    Spells bytes lexeme ∧ bytes <+: text := by
  unfold tokenAt at h
  split at h
  · cases h
  · rename_i cls bytes' hmatch
    split at h
    · cases h
    · rename_i lexeme' hmeaning
      cases h
      refine ⟨spells_of_firstMatch? hmatch hmeaning, ?_⟩
      obtain ⟨slice, hcandidate, hspelling, -⟩ :=
        spelt?_eq_some_iff.mp ((spelt?_eq_firstMatch? text).trans hmatch)
      exact (hspelling ▸ cls.spelling_front slice).trans (candidate?_front hcandidate)

/-- The tokenizer finds nothing in a separation that ends the text. -/
theorem Separation.tokenize_of_end (h : Separation True gap) (before : List UInt8) :
    tokenize before gap = .ok [⟨.eof, .behind (before ++ gap), .behind (before ++ gap)⟩] := by
  have hall : separators (gap ++ []) = gap := by
    have hgap : Separation (([] : List UInt8) = []) gap := h.imp fun _ => rfl
    rw [hgap.separators_append, separators, List.append_nil]
  have hstep := tokenize_append before hall
  rwa [if_pos rfl, List.append_nil] at hstep

theorem Separation.separators_of_stop (h : Separation False gap) (hstop : separators text = []) :
    separators (gap ++ text) = gap := by
  rw [(h.imp False.elim).separators_append, hstop, List.append_nil]

/-- The tokenizer fails where there is no token behind a separation. -/
theorem Separation.tokenize_of_error {e : ScanError} (hgap : Separation False gap) (hne : text ≠ [])
    (hstop : separators text = []) (h : tokenAt (before ++ gap) text = .error e) :
    tokenize before (gap ++ text) = .error e := by
  rw [tokenize_append before (hgap.separators_of_stop hstop), if_neg hne, h]

/-- The tokenizer takes the token behind a separation and goes on behind it. -/
theorem Separation.tokenize_of_ok (hgap : Separation False gap)
    (hstop : separators (bytes ++ after) = [])
    (h : tokenAt (before ++ gap) (bytes ++ after) = .ok (lexeme, bytes)) :
    tokenize before (gap ++ (bytes ++ after)) =
      (tokenize (before ++ gap ++ bytes) after).map
        (⟨lexeme, .behind (before ++ gap), .behind (before ++ gap ++ bytes)⟩ :: ·) := by
  have hne := List.append_ne_nil_of_left_ne_nil (ne_nil_of_tokenAt h) after
  rw [tokenize_append before (hgap.separators_of_stop hstop), if_neg hne, h]
  dsimp only
  rw [List.drop_left]

/-- **How the tokenizer goes through a text:** it comes to the end, or fails behind a separation, or
takes a token and goes on behind it. -/
theorem tokenize_induction {P : List UInt8 → List UInt8 → Except ScanError (List Token) → Prop}
    (hend : ∀ before gap, Separation True gap →
      P before gap (.ok [⟨.eof, .behind (before ++ gap), .behind (before ++ gap)⟩]))
    (herror : ∀ before gap rest e, Separation False gap → rest ≠ [] → separators rest = [] →
      tokenAt (before ++ gap) rest = .error e → P before (gap ++ rest) (.error e))
    (htoken : ∀ before gap bytes after lexeme result, Separation False gap →
      separators (bytes ++ after) = [] →
      tokenAt (before ++ gap) (bytes ++ after) = .ok (lexeme, bytes) →
      P (before ++ gap ++ bytes) after result →
      P before (gap ++ (bytes ++ after)) (result.map
        (⟨lexeme, .behind (before ++ gap), .behind (before ++ gap ++ bytes)⟩ :: ·)))
    (before text : List UInt8) : P before text (tokenize before text) := by
  induction hlength : text.length using Nat.strong_induction_on generalizing before text with
  | _ n ih =>
    obtain ⟨rest, htext, hseparation, hstop⟩ := separators_spec text
    generalize separators text = gap at htext hseparation
    subst htext
    by_cases hnil : rest = []
    · have hall : Separation True gap := hseparation.imp fun _ => trivial
      rw [hnil, List.append_nil, hall.tokenize_of_end]
      exact hend before gap hall
    · have hclosed : Separation False gap := hseparation.imp fun h => hnil h
      cases hresult : tokenAt (before ++ gap) rest with
      | error e =>
        rw [hclosed.tokenize_of_error hnil hstop hresult]
        exact herror before gap rest e hclosed hnil hstop hresult
      | ok entry =>
        obtain ⟨lexeme, bytes⟩ := entry
        have hpos := List.length_pos_iff.mpr (ne_nil_of_tokenAt hresult)
        obtain ⟨after, rfl⟩ := (spells_of_tokenAt hresult).2
        rw [hclosed.tokenize_of_ok hstop hresult]
        refine htoken before gap bytes after lexeme _ hclosed hstop hresult ?_
        exact ih after.length (by simp only [← hlength, List.length_append]; omega) _ after rfl

theorem Spells.tokenAt (h : Spells bytes lexeme) (hafter : BeginsBlank after)
    (before : List UInt8) : tokenAt before (bytes ++ after) = .ok (lexeme, bytes) := by
  obtain ⟨cls, hmatch, hmeaning⟩ := h.firstMatch?
  unfold BlockFlow.tokenAt
  rw [firstMatch?_append bytes hafter, hmatch]
  dsimp only
  rw [hmeaning]

/-- A spelling begins neither with a blank nor with a comment. -/
theorem Spells.separators (h : Spells bytes lexeme) (hafter : BeginsBlank after) :
    separators (bytes ++ after) = [] := by
  obtain ⟨cls, hmatch, -⟩ := h.firstMatch?
  have hnil : BlockFlow.firstMatch? [] = none := rfl
  cases bytes with
  | nil =>
    rw [hnil] at hmatch
    cases hmatch
  | cons c tail =>
    refine separators_append (List.cons_ne_nil c tail) ?_ hafter
    rw [BlockFlow.separators, if_neg, if_neg]
    · rintro ⟨body, hbody⟩
      -- Where a comment opens, the token would be the first slash.
      rw [← hbody, encoded_slashes] at hmatch
      have hslash : BlockFlow.firstMatch? ('/'.toUInt8 :: '/'.toUInt8 :: body) =
          some (.operator, ['/'.toUInt8]) := by
        rw [firstMatch?_eq]
        rfl
      rw [List.cons_append, List.cons_append, List.nil_append, hslash] at hmatch
      cases hmatch
    · intro hblank
      have hbegins : BeginsBlank (c :: tail) := by
        rintro b ⟨⟩
        exact hblank
      rw [← List.nil_append (c :: tail), firstMatch?_append [] hbegins, hnil] at hmatch
      cases hmatch

/-! ### Scanning what is written -/

/-- What a token of the language can carry: a number that is not negative, a name that is no
reserved word, and one of the nine operators. -/
def Lexeme.Legal : Lexeme → Prop
  | number value => 0 ≤ value
  | ident name =>
    encoded name.toList ∈ TokenClass.word.pattern.matches' ∧
      name ∉ ["if", "else", "while", "return"]
  | op symbol => symbol ∈ ['+', '-', '*', '/', '<', '>', '=', '≤', '≥']
  | assign | ifWord | elseWord | whileWord | returnWord | openBrace | closeBrace | delimiter => True
  | eof | other _ => False

/-- The tokens that can be written are those of the language. -/
theorem legal_iff_exists_spells : lexeme.Legal ↔ ∃ bytes, Spells bytes lexeme := by
  constructor
  · intro h
    have hfixed : ∀ chars, (chars, lexeme) ∈ fixedSpellings → ∃ bytes, Spells bytes lexeme :=
      fun chars hmem => ⟨encoded chars, .fixed chars lexeme hmem⟩
    unfold Lexeme.Legal at h
    split at h
    · rename_i value
      have hnonneg : 0 ≤ value.toInt := Int64.le_iff_toInt_le.mp h
      have hlt := Int64.toInt_lt value
      have hspells := Spells.number 0 value.toInt.toNat (by omega)
      have hvalue : Int64.ofNat value.toInt.toNat = value := by
        show Int64.ofInt (value.toInt.toNat : Int) = value
        rw [Int.toNat_of_nonneg hnonneg, Int64.ofInt_toInt]
      rw [hvalue] at hspells
      exact ⟨_, hspells⟩
    · rename_i name
      exact ⟨_, .name name h.1 h.2⟩
    · rename_i symbol
      have hall : (['+', '-', '*', '/', '<', '>', '=', '≤', '≥'].all fun symbol =>
          fixedSpellings.any (·.2 = .op symbol)) = true := by decide
      obtain ⟨fixed, hmem, hop⟩ := List.any_eq_true.mp (List.all_eq_true.mp hall symbol h)
      exact hfixed fixed.1 (of_decide_eq_true hop ▸ hmem)
    · exact hfixed ['='] (by decide)
    · exact hfixed ['i', 'f'] (by decide)
    · exact hfixed ['e', 'l', 's', 'e'] (by decide)
    · exact hfixed ['w', 'h', 'i', 'l', 'e'] (by decide)
    · exact hfixed ['r', 'e', 't', 'u', 'r', 'n'] (by decide)
    · exact hfixed ['\x7b'] (by decide)
    · exact hfixed ['\x7d'] (by decide)
    · exact hfixed [';'] (by decide)
    · exact h.elim
    · exact h.elim
  · rintro ⟨bytes, h⟩
    cases h with
    | number zeros value hvalue =>
      show 0 ≤ Int64.ofNat value
      rw [Int64.le_iff_toInt_le, Int64.toInt_ofNat_of_lt hvalue]
      exact Int.natCast_nonneg value
    | name name hname hfree => exact ⟨hname, hfree⟩
    | fixed chars lexeme hfixed =>
      simp only [fixedSpellings, List.mem_cons, List.not_mem_nil, or_false, Prod.mk.injEq] at hfixed
      rcases hfixed with h | h | h | h | h | h | h | h | h | h | h | h | h | h | h | h | h | h | h
      all_goals simp [Lexeme.Legal, h.2]

/-- What stands between two tokens: a blank, and then blanks and comments, each ended by a
newline. -/
structure IsSeparator (gap : List UInt8) : Prop where
  separation : Separation False gap
  blank : ∃ b ∈ encoded [' ', '\t', '\r', '\n'], ∃ rest, gap = b :: rest

/-- The tokens are spelt one after the other in the text, with separators between them and perhaps
behind the last one. -/
inductive Written : List Lexeme → List UInt8 → Prop where
  | nil : Written [] []
  | last {bytes : List UInt8} {lexeme : Lexeme} (h : Spells bytes lexeme) : Written [lexeme] bytes
  | cons {bytes gap text : List UInt8} {lexeme : Lexeme} {lexemes : List Lexeme}
      (h : Spells bytes lexeme) (hgap : IsSeparator gap) (hrest : Written lexemes text) :
      Written (lexeme :: lexemes) (bytes ++ (gap ++ text))

/-- What is written is found behind any separation. -/
theorem Written.exists_tokenize {lexemes : List Lexeme} (h : Written lexemes text) :
    ∀ before gap, Separation False gap → ∃ tokens,
      tokenize before (gap ++ text) = .ok tokens ∧ tokens.map Token.lexeme = lexemes ++ [.eof] := by
  induction h with
  | nil =>
    intro before gap hgap
    rw [List.append_nil]
    exact ⟨_, (hgap.imp False.elim).tokenize_of_end before, rfl⟩
  | @last bytes lexeme h =>
    intro before gap hgap
    have hnothing : BeginsBlank [] := by rintro b ⟨⟩
    rw [← List.append_nil bytes, hgap.tokenize_of_ok (h.separators hnothing) (h.tokenAt hnothing _),
      Separation.nil.tokenize_of_end]
    exact ⟨_, rfl, rfl⟩
  | @cons bytes separator text lexeme lexemes h hseparator _ ih =>
    intro before gap hgap
    obtain ⟨tokens, htokens, hlexemes⟩ :=
      ih (before ++ gap ++ bytes) separator hseparator.separation
    obtain ⟨b, hb, rest, rfl⟩ := hseparator.blank
    have hbegins : BeginsBlank (b :: rest ++ text) := by
      rintro c ⟨⟩
      exact hb
    rw [hgap.tokenize_of_ok (h.separators hbegins) (h.tokenAt hbegins _), htokens]
    refine ⟨_, rfl, ?_⟩
    rw [List.map_cons, hlexemes]
    rfl

/-- **Scanning undoes spelling.**  All tokens of the language can be written and no others; and
tokens written one after the other, with separators between them and perhaps at both ends, are what
scanning the text finds, with the end marker behind them. -/
theorem scan_written :
    (∀ lexeme : Lexeme, lexeme.Legal ↔ ∃ bytes, Spells bytes lexeme) ∧
      ∀ (front text : List UInt8) (lexemes : List Lexeme), front = [] ∨ IsSeparator front →
        Written lexemes text → ∃ tokens, scan (front ++ text) = .ok tokens ∧
          tokens.map Token.lexeme = lexemes ++ [.eof] := by
  refine ⟨fun lexeme => legal_iff_exists_spells, fun front text lexemes hfront hwritten => ?_⟩
  have hseparation : Separation False front := by
    rcases hfront with rfl | hfront
    · exact .nil
    · exact hfront.separation
  obtain ⟨tokens, htokens, hlexemes⟩ := hwritten.exists_tokenize [] front hseparation
  exact ⟨tokens, (Scanner.scan_behind [] (front ++ text)).trans htokens, hlexemes⟩

/-- A number with zeros in front, an operator in its longer spelling, and a name between comments
that hold other tokens. -/
theorem scan_written_comparison : ∃ tokens,
    scan (encoded ['\n', '0', '0', '7', ' ', '<', '=', '\t', '/', '/', '/', '≥', '"', '\n', '_',
      'x', '\r']) = .ok tokens ∧
    tokens.map Token.lexeme = [.number 7, .op '≤', .ident "_x", .eof] := by
  have hnewline : Separation False (encoded ['\n']) := .blank (by decide) .nil
  have hcomment : Separation False (encoded ['/', '/', '/', '≥', '"', '\n']) :=
    @Separation.comment False (encoded ['/', '≥', '"']) [] (by decide) hnewline
  have hname : encoded ['_', 'x'] ∈ TokenClass.word.pattern.matches' :=
    TokenClass.mem_word.mpr
      ⟨'_'.toUInt8, ['x'.toUInt8], by decide, by decide, List.forall_mem_singleton.mpr (by decide)⟩
  have hwritten : Written [.number 7, .op '≤', .ident "_x"]
      (encoded (List.replicate 2 '0' ++ Nat.toDigits 10 7) ++ (encoded [' '] ++
        (encoded ['<', '='] ++ (encoded ['\t', '/', '/', '/', '≥', '"', '\n'] ++
          (encoded "_x".toList ++ (encoded ['\r'] ++ [])))))) := by
    refine .cons (.number 2 7 (by decide)) ⟨.blank (by decide) .nil, _, by decide, _, rfl⟩ ?_
    refine .cons (.fixed ['<', '='] _ (by decide))
      ⟨.blank (by decide) hcomment, _, by decide, _, rfl⟩ ?_
    exact .cons (.name "_x" hname (by decide)) ⟨.blank (by decide) .nil, _, by decide, _, rfl⟩ .nil
  exact scan_written.2 (encoded ['\n']) _ _ (.inr ⟨hnewline, _, by decide, _, rfl⟩) hwritten

end BlockFlow
