import BlockFlow.Proofs.Token.Patterns
import Mathlib.Data.Nat.Digits.Defs

/-!
# Tokenizing rule by rule

A tokenizer that follows the rules of the language one by one: skip what separates tokens, try the
patterns of the four classes in turn against all that remains, take the longest match of the first
that matches, and read what it says (`tokenize`).  It keeps the text it has passed, so a position is
a place in the text and nothing else.

The scanner finds the same tokens with the same spans, or fails in the same place for the same
reason (`scan_eq_tokenize`).
-/

namespace BlockFlow

/-! ### Between tokens -/

/-- The blanks and comments at the front of a text.  A comment runs from two slashes up to the end
of its line. -/
def separators (text : List UInt8) : List UInt8 :=
  match text with
  | [] => []
  | b :: rest =>
    if b ∈ encoded [' ', '\t', '\r', '\n'] then b :: separators rest
    else if encoded ['/', '/'] <+: b :: rest then
      b :: (rest.takeWhile (· ≠ '\n'.toUInt8) ++ separators (rest.dropWhile (· ≠ '\n'.toUInt8)))
    else []
termination_by text.length
decreasing_by
  · simp
  · exact Nat.lt_succ_of_le (List.length_dropWhile_le _ _)

theorem isBlankByte_iff {b : UInt8} :
    isBlankByte b = true ↔ b ∈ encoded [' ', '\t', '\r', '\n'] := by
  have hbytes : encoded [' ', '\t', '\r', '\n'] =
      [' '.toUInt8, '\t'.toUInt8, '\r'.toUInt8, '\n'.toUInt8] := by decide
  rw [hbytes, isBlankByte]
  simp [or_assoc]

theorem slashes_iff {b : UInt8} {rest : List UInt8} :
    (b == '/'.toUInt8 && rest.head? == some '/'.toUInt8) = true ↔
      encoded ['/', '/'] <+: b :: rest := by
  have hbytes : encoded ['/', '/'] = ['/'.toUInt8, '/'.toUInt8] := by decide
  rw [hbytes, List.cons_prefix_cons, Bool.and_eq_true, beq_iff_eq, beq_iff_eq, eq_comm]
  refine and_congr_right fun _ => ?_
  cases rest with
  | nil => simp
  | cons c rest => simp [eq_comm]

namespace Scanner

/-- A comment ends with its line. -/
theorem skipFrom_true (before text : List UInt8) :
    skipFrom true (.behind before) text =
      skipFrom false (.behind (before ++ text.takeWhile (· ≠ '\n'.toUInt8)))
        (text.dropWhile (· ≠ '\n'.toUInt8)) := by
  induction text generalizing before with
  | nil => simp [skipFrom]
  | cons b rest ih =>
    by_cases hb : b = '\n'.toUInt8
    · subst hb
      simp [skipFrom]
    · have hne : decide (b ≠ '\n'.toUInt8) = true := decide_eq_true hb
      rw [skipFrom, if_pos (by simpa using hb), ← Position.behind_concat, ih, List.append_assoc,
        List.takeWhile_cons, List.dropWhile_cons, hne]
      rfl

/-- Skipping takes the blanks and comments at the front. -/
theorem skipFrom_false (before text : List UInt8) :
    skipFrom false (.behind before) text =
      ⟨.behind (before ++ separators text), text.drop (separators text).length⟩ := by
  fun_induction separators text generalizing before with
  | case1 => rw [List.append_nil]; rfl
  | case2 b rest hblank ih =>
    rw [skipFrom, if_neg (by simp), if_pos (isBlankByte_iff.mpr hblank), ← Position.behind_concat,
      ih, List.append_assoc]
    rfl
  | case3 b rest hblank hslashes ih =>
    rw [skipFrom, if_neg (by simp), if_neg (isBlankByte_iff.not.mpr hblank),
      if_pos (slashes_iff.mpr hslashes), ← Position.behind_concat, skipFrom_true, ih]
    have hdrop := @List.drop_left _ (rest.takeWhile (· ≠ '\n'.toUInt8))
      (rest.dropWhile (· ≠ '\n'.toUInt8))
    rw [List.takeWhile_append_dropWhile] at hdrop
    rw [List.length_cons, List.drop_succ_cons, List.length_append, ← List.drop_drop, hdrop,
      List.append_assoc, List.append_assoc]
    rfl
  | case4 b rest hblank hslashes =>
    rw [skipFrom, if_neg (by simp), if_neg (isBlankByte_iff.not.mpr hblank),
      if_neg (slashes_iff.not.mpr hslashes), List.append_nil]
    rfl

end Scanner

/-! ### What tokens say -/

/-- The number that a word of the machine can hold, if it is not too large. -/
def wordOf? (value : Nat) : Option Int64 :=
  if h : (value : Int) ≤ Int64.maxValue.toInt then
    some (Int64.ofIntLE value (Int.le_trans (by decide) (Int.natCast_nonneg value)) h)
  else none

/-- The number that decimal digits stand for, the last of them being the ones. -/
def valueOf (digits : List UInt8) : Nat :=
  Nat.ofDigits 10 (digits.reverse.map fun b => b.toNat - '0'.toNat)

/-- The words that are no names. -/
def reservedWords : List (List UInt8 × Lexeme) :=
  [(encoded ['i', 'f'], .ifWord), (encoded ['e', 'l', 's', 'e'], .elseWord),
   (encoded ['w', 'h', 'i', 'l', 'e'], .whileWord),
   (encoded ['r', 'e', 't', 'u', 'r', 'n'], .returnWord)]

/-- The punctuation marks. -/
def punctuationMarks : List (List UInt8 × Lexeme) :=
  [(encoded ['='], .assign), (encoded ['\x7b'], .openBrace), (encoded ['\x7d'], .closeBrace),
   (encoded [';'], .delimiter)]

/-- What the bytes of a token say; nothing if they are a number that is too large. -/
def TokenClass.meaning? : TokenClass → List UInt8 → Option Lexeme
  | number, bytes => (wordOf? (valueOf bytes)).map .number
  | word, bytes => some ((reservedWords.lookup bytes).getD (.ident (textOfBytes bytes)))
  | operator, bytes =>
    let longer := [(encoded ['<', '='], '≤'), (encoded ['>', '='], '≥'), (encoded ['=', '='], '=')]
    some (.op ((longer.lookup bytes).getD (Text.firstCharacter bytes)))
  | punctuation, bytes => punctuationMarks.lookup bytes

theorem wordOf?_eq (value : Nat) :
    wordOf? value = if value < 2 ^ 63 then some (Int64.ofNat value) else none := by
  have hmax : Int64.maxValue.toInt = 2 ^ 63 - 1 := by decide
  unfold wordOf?
  by_cases hsmall : value < 2 ^ 63
  · have hle : (value : Int) ≤ Int64.maxValue.toInt := by omega
    rw [dif_pos hle, if_pos hsmall, Int64.ofIntLE_eq_ofInt]
    rfl
  · have hlt : ¬ (value : Int) ≤ Int64.maxValue.toInt := by omega
    rw [dif_neg hlt, if_neg hsmall]

theorem valueOf_eq (digits : List UInt8) : valueOf digits = TokenClass.decimalValue digits := by
  induction digits using List.reverseRecOn with
  | nil => rfl
  | append_singleton digits b ih =>
    have hlast : TokenClass.decimalValue (digits ++ [b]) =
        10 * TokenClass.decimalValue digits + (b.toNat - '0'.toNat) := by
      unfold TokenClass.decimalValue
      rw [List.foldl_append]
      rfl
    rw [hlast, ← ih, valueOf, List.reverse_append, List.reverse_singleton, List.singleton_append,
      List.map_cons, Nat.ofDigits_cons, Nat.add_comm]
    rfl

theorem textOfBytes_injective : Function.Injective textOfBytes := by
  intro bytes bytes' h
  refine List.map_injective_iff.mpr (fun b b' hb => ?_) (String.ofList_injective h)
  exact UInt8.toUInt32_inj.mp (congrArg Char.val hb)

theorem lookup_reservedWords (bytes : List UInt8) :
    (reservedWords.lookup bytes).getD (.ident (textOfBytes bytes)) =
      .ofWord (textOfBytes bytes) := by
  by_cases hreserved : bytes ∈ reservedWords.map Prod.fst
  · have hall : ∀ bytes ∈ reservedWords.map Prod.fst,
        (reservedWords.lookup bytes).getD (.ident (textOfBytes bytes)) =
          .ofWord (textOfBytes bytes) := by decide
    exact hall bytes hreserved
  · have hlookup : reservedWords.lookup bytes = none := by
      rw [List.lookup_eq_none_iff]
      intro entry hentry
      rw [bne_iff_ne]
      exact fun heq => hreserved (heq ▸ List.mem_map_of_mem hentry)
    have hne : ∀ word ∈ reservedWords.map Prod.fst, textOfBytes bytes ≠ textOfBytes word :=
      fun word hword heq => hreserved (textOfBytes_injective heq ▸ hword)
    have hif : textOfBytes bytes ≠ "if" := hne (encoded ['i', 'f']) (by decide)
    have helse : textOfBytes bytes ≠ "else" := hne (encoded ['e', 'l', 's', 'e']) (by decide)
    have hwhile : textOfBytes bytes ≠ "while" := hne (encoded ['w', 'h', 'i', 'l', 'e']) (by decide)
    have hreturn : textOfBytes bytes ≠ "return" :=
      hne (encoded ['r', 'e', 't', 'u', 'r', 'n']) (by decide)
    rw [hlookup, Lexeme.ofWord, if_neg hif, if_neg helse, if_neg hwhile, if_neg hreturn]
    rfl

/-- Reading a token of a class gives what its bytes say. -/
theorem read_of_spelt? {text bytes : List UInt8} {cls : TokenClass}
    (h : spelt? text = some (cls, bytes)) : cls.read bytes =
      match cls.meaning? bytes with
      | some lexeme => .ok lexeme
      | none => .error (.tooLarge (textOfBytes bytes)) := by
  obtain ⟨slice, -, hspelling, hne⟩ := spelt?_eq_some_iff.mp h
  have hmem : bytes ∈ cls.pattern.matches' := hspelling ▸ cls.spelling_mem (hspelling ▸ hne)
  cases cls with
  | number =>
    have hlimit : (1 <<< 63 : Nat) = 2 ^ 63 := by decide
    rw [TokenClass.read, TokenClass.meaning?, wordOf?_eq, valueOf_eq, hlimit]
    split
    · rfl
    · rfl
  | word => rw [TokenClass.read, TokenClass.meaning?, lookup_reservedWords]
  | operator =>
    obtain ⟨entry, hentry, rfl⟩ := TokenClass.mem_operator.mp hmem
    have hall : ∀ entry ∈ operatorSpellings,
        TokenClass.operator.read entry.1 = .ok (.op entry.2) ∧
          TokenClass.operator.meaning? entry.1 = some (.op entry.2) := by decide
    obtain ⟨hread, hmeaning⟩ := hall entry hentry
    rw [hread, hmeaning]
  | punctuation =>
    obtain ⟨c, hc, rfl⟩ := Pattern.mem_oneOf.mp hmem
    have hmarks : ['=', '\x7b', '\x7d', ';'].map (fun c => encoded [c]) =
        punctuationMarks.map Prod.fst := by decide
    have hmark : encoded [c] ∈ punctuationMarks.map Prod.fst := hmarks ▸ List.mem_map_of_mem hc
    have hall : ∀ entry ∈ punctuationMarks, TokenClass.punctuation.read entry.1 = .ok entry.2 ∧
        TokenClass.punctuation.meaning? entry.1 = some entry.2 := by decide
    obtain ⟨entry, hentry, hbytes⟩ := List.mem_map.mp hmark
    obtain ⟨hread, hmeaning⟩ := hall entry hentry
    rw [← hbytes, hread, hmeaning]

/-- Tokens never say that the text ends. -/
theorem TokenClass.ne_eof_of_meaning? {cls : TokenClass} {bytes : List UInt8} {lexeme : Lexeme}
    (h : cls.meaning? bytes = some lexeme) : lexeme ≠ .eof := by
  cases cls with
  | number =>
    obtain ⟨value, -, rfl⟩ := Option.map_eq_some_iff.mp h
    nofun
  | word =>
    rw [meaning?, lookup_reservedWords] at h
    cases h
    unfold Lexeme.ofWord
    split_ifs
    all_goals nofun
  | operator =>
    cases h
    nofun
  | punctuation =>
    have hall : ∀ entry ∈ punctuationMarks, entry.2 ≠ .eof := by decide
    obtain ⟨earlier, later, hmarks, -⟩ := List.lookup_eq_some_iff.mp h
    exact hall (bytes, lexeme) (by rw [hmarks]; exact List.mem_append_right _ List.mem_cons_self)

/-! ### Tokenizing -/

/-- The token at the front of a text that does not begin with blanks: what it says, and its
bytes. -/
def tokenAt (before text : List UInt8) : Except ScanError (Lexeme × List UInt8) :=
  match firstMatch? text with
  | none => .error ⟨.behind before, .unexpected (Text.firstCharacter text)⟩
  | some (cls, bytes) =>
    match cls.meaning? bytes with
    | none => .error ⟨.behind before, .tooLarge (textOfBytes bytes)⟩
    | some lexeme => .ok (lexeme, bytes)

theorem ne_nil_of_tokenAt {before text bytes : List UInt8} {lexeme : Lexeme}
    (h : tokenAt before text = .ok (lexeme, bytes)) : bytes ≠ [] := by
  unfold tokenAt at h
  split at h
  · cases h
  · rename_i cls bytes' hmatch
    split at h
    · cases h
    · cases h
      exact Scanner.spelt?_ne_nil ((spelt?_eq_firstMatch? text).trans hmatch)

/-- The tokens of the second part of a text, the first part being passed already; or the reason why
there are none, at the first place where no token can be read. -/
def tokenize (before text : List UInt8) : Except ScanError (List Token) :=
  let start := before ++ separators text
  let rest := text.drop (separators text).length
  if _hend : rest = [] then .ok [⟨.eof, .behind start, .behind start⟩]
  else
    match _htoken : tokenAt start rest with
    | .error e => .error e
    | .ok (lexeme, bytes) =>
      (tokenize (start ++ bytes) (rest.drop bytes.length)).map
        (⟨lexeme, .behind start, .behind (start ++ bytes)⟩ :: ·)
termination_by text.length
decreasing_by
  have hbytes : 0 < bytes.length := List.length_pos_iff.mpr (ne_nil_of_tokenAt _htoken)
  have hrest : 0 < rest.length := List.length_pos_iff.mpr _hend
  have hle : rest.length = text.length - (separators text).length := List.length_drop
  show (rest.drop bytes.length).length < text.length
  rw [List.length_drop]
  omega

/-- One step of the tokenizer, from behind the separators at the front of the text. -/
theorem tokenize_append (before : List UInt8) {gap rest : List UInt8}
    (hgap : separators (gap ++ rest) = gap) :
    tokenize before (gap ++ rest) =
      if rest = [] then .ok [⟨.eof, .behind (before ++ gap), .behind (before ++ gap)⟩]
      else match tokenAt (before ++ gap) rest with
        | .error e => .error e
        | .ok (lexeme, bytes) =>
          (tokenize (before ++ gap ++ bytes) (rest.drop bytes.length)).map
            (⟨lexeme, .behind (before ++ gap), .behind (before ++ gap ++ bytes)⟩ :: ·) := by
  rw [tokenize]
  simp only [hgap, List.drop_left]
  by_cases hend : rest = []
  · rw [dif_pos hend, if_pos hend]
  · rw [dif_neg hend, if_neg hend]
    split
    · rename_i e htoken
      rw [hgap, List.drop_left] at htoken
      rw [htoken]
    · rename_i lexeme bytes htoken
      rw [hgap, List.drop_left] at htoken
      rw [htoken]

namespace Scanner

theorem scan_of_next_error {s s' : Scanner} {e : ScanError} (h : s.next = (.error e, s')) :
    s.scan = .error e := by
  rw [scan]
  split
  · rename_i h'
    cases h'.symm.trans h
    rfl
  · rename_i h'
    cases h'.symm.trans h

theorem scan_of_next_ok {s s' : Scanner} {t : Token} (h : s.next = (.ok t, s')) :
    s.scan = if t.lexeme = .eof then .ok [t] else s'.scan.map (t :: ·) := by
  rw [scan]
  split
  · rename_i h'
    cases h'.symm.trans h
  · rename_i h'
    cases h'.symm.trans h
    rfl

variable {before text : List UInt8}

/-- Where the tokenizer finds no token, neither does the scanner. -/
theorem readToken_of_tokenAt_error {e : ScanError} (hne : text ≠ [])
    (h : tokenAt before text = .error e) :
    ∃ s', readToken ⟨.behind before, text⟩ = (.error e, s') := by
  unfold tokenAt at h
  unfold readToken
  rw [if_neg (by rwa [List.isEmpty_iff]), spelt?_eq_firstMatch?]
  split at h
  · rename_i hmatch
    cases h
    exact ⟨_, by rw [hmatch]⟩
  · rename_i cls bytes hmatch
    have hread := read_of_spelt? ((spelt?_eq_firstMatch? text).trans hmatch)
    split at h
    · rename_i hmeaning
      cases h
      rw [hmeaning] at hread
      exact ⟨_, by simp only [hmatch, hread]; rfl⟩
    · cases h

/-- Where the tokenizer finds a token, the scanner reads it. -/
theorem readToken_of_tokenAt_ok {lexeme : Lexeme} {bytes : List UInt8} (hne : text ≠ [])
    (h : tokenAt before text = .ok (lexeme, bytes)) :
    lexeme ≠ .eof ∧ readToken ⟨.behind before, text⟩ =
      (.ok ⟨lexeme, .behind before, .behind (before ++ bytes)⟩,
        ⟨.behind (before ++ bytes), text.drop bytes.length⟩) := by
  unfold tokenAt at h
  unfold readToken
  rw [if_neg (by rwa [List.isEmpty_iff]), spelt?_eq_firstMatch?]
  split at h
  · cases h
  · rename_i cls bytes' hmatch
    have hread := read_of_spelt? ((spelt?_eq_firstMatch? text).trans hmatch)
    split at h
    · cases h
    · rename_i lexeme' hmeaning
      cases h
      rw [hmeaning] at hread
      refine ⟨cls.ne_eof_of_meaning? hmeaning, ?_⟩
      simp only [hmatch, hread, drop, Position.advance_behind]

/-- **The scanner and the tokenizer agree** at every place of a text. -/
theorem scan_behind (before text : List UInt8) :
    scan ⟨.behind before, text⟩ = tokenize before text := by
  have hnext : ∀ before text, next ⟨.behind before, text⟩ =
      readToken ⟨.behind (before ++ separators text), text.drop (separators text).length⟩ := by
    intro before text
    rw [next, skip, skipFrom_false]
  -- Along the recursion of the tokenizer, which a token makes one step of.
  fun_induction tokenize before text with
  | case1 before text start rest hend =>
    have hread : readToken ⟨.behind start, rest⟩ =
        (.ok ⟨.eof, .behind start, .behind start⟩, ⟨.behind start, rest⟩) := by
      rw [hend]
      rfl
    rw [scan_of_next_ok ((hnext before text).trans hread), if_pos rfl]
  | case2 before text start rest hend e htoken =>
    obtain ⟨s', hread⟩ := readToken_of_tokenAt_error hend htoken
    exact scan_of_next_error ((hnext before text).trans hread)
  | case3 before text start rest hend lexeme bytes htoken ih =>
    obtain ⟨heof, hread⟩ := readToken_of_tokenAt_ok hend htoken
    rw [scan_of_next_ok ((hnext before text).trans hread), if_neg heof, ih]

end Scanner

/-- **The scanner is the rule-by-rule tokenizer.** -/
theorem scan_eq_tokenize (source : List UInt8) : scan source = tokenize [] source :=
  Scanner.scan_behind [] source

end BlockFlow
