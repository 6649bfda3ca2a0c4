import BlockFlow.Proofs.Token.Spans

/-!
# Every call moves on or stays for good

Asked for the next token, a scanner does one of four things (`Scanner.Call`).  Whichever it is, it
first skips what separates tokens.  Then it reads a token, which is not empty; or it refuses a
number and goes behind all of its digits; or it stands before a character that begins no token; or
it stands at the end.  In the last two cases it does not move any more, and gives the same answer
for ever (`Scanner.Stays`).

So a scanner that is asked over and over moves forward as long as it finds tokens, and reading all
tokens of a text takes at most one call more than the text has bytes (`Scanner.exists_scans`).
-/

namespace BlockFlow

namespace Scanner

variable {source before text gap rest : List UInt8}

/-! ### One call -/

/-- What a call can do behind one part of a text and before another: its answer, and where the
scanner stands then. -/
inductive Call (before : List UInt8) : (text : List UInt8) → Except ScanError Token × Scanner →
    Prop where
  /-- Nothing but separators is left. -/
  | ended {gap : List UInt8} (hgap : separators gap = gap) :
      Call before gap (.ok ⟨.eof, .behind (before ++ gap), .behind (before ++ gap)⟩,
        ⟨.behind (before ++ gap), []⟩)
  /-- A token of at least one byte follows the separators. -/
  | found {gap bytes rest : List UInt8} {lexeme : Lexeme}
      (hgap : separators (gap ++ (bytes ++ rest)) = gap) (hne : bytes ≠ []) (heof : lexeme ≠ .eof) :
      Call before (gap ++ (bytes ++ rest))
        (.ok ⟨lexeme, .behind (before ++ gap), .behind (before ++ gap ++ bytes)⟩,
          ⟨.behind (before ++ gap ++ bytes), rest⟩)
  /-- A number that does not fit follows them. -/
  | passed {gap bytes rest : List UInt8} (hgap : separators (gap ++ (bytes ++ rest)) = gap)
      (hne : bytes ≠ []) (hdigits : bytes = (bytes ++ rest).takeWhile isDigitByte) :
      Call before (gap ++ (bytes ++ rest))
        (.error ⟨.behind (before ++ gap), .tooLarge (textOfBytes bytes)⟩,
          ⟨.behind (before ++ gap ++ bytes), rest⟩)
  /-- A character that begins no token follows them. -/
  | refused {gap rest : List UInt8} (hgap : separators (gap ++ rest) = gap)
      (hstop : separators rest = []) (hne : rest ≠ []) (hspelt : spelt? rest = none) :
      Call before (gap ++ rest)
        (.error ⟨.behind (before ++ gap), .unexpected (Text.firstCharacter rest)⟩,
          ⟨.behind (before ++ gap), rest⟩)

/-- What separates tokens is skipped before a token is read. -/
theorem next_behind (before : List UInt8) (hgap : separators (gap ++ rest) = gap) :
    next ⟨.behind before, gap ++ rest⟩ = readToken ⟨.behind (before ++ gap), rest⟩ := by
  rw [next, skip, skipFrom_false, hgap, List.drop_left]

theorem readToken_of_spelt?_none (hne : rest ≠ []) (hspelt : spelt? rest = none) :
    readToken ⟨.behind before, rest⟩ =
      (.error ⟨.behind before, .unexpected (Text.firstCharacter rest)⟩,
        ⟨.behind before, rest⟩) := by
  unfold readToken
  rw [if_neg (by rwa [List.isEmpty_iff]), hspelt]

/-- Reading goes behind the bytes that spell a token or a number. -/
theorem readToken_of_spelt?_some {bytes : List UInt8} {cls : TokenClass}
    (hspelt : spelt? (bytes ++ rest) = some (cls, bytes)) :
    readToken ⟨.behind before, bytes ++ rest⟩ =
      ((match cls.read bytes with
        | .ok lexeme => .ok ⟨lexeme, .behind before, .behind (before ++ bytes)⟩
        | .error fault => .error ⟨.behind before, fault⟩),
        ⟨.behind (before ++ bytes), rest⟩) := by
  have hne : ¬ (bytes ++ rest).isEmpty := by
    simp [spelt?_ne_nil hspelt]
  have hdrop : drop ⟨.behind before, bytes ++ rest⟩ bytes = ⟨.behind (before ++ bytes), rest⟩ := by
    rw [drop, Position.advance_behind, List.drop_left]
  unfold readToken
  rw [if_neg hne, hspelt]
  simp only [hdrop]
  cases cls.read bytes with
  | ok lexeme => rfl
  | error fault => rfl

/-- **A call does one of four things.** -/
theorem call_next (before text : List UInt8) : Call before text (next ⟨.behind before, text⟩) := by
  obtain ⟨rest, htext, -, hstop⟩ := separators_spec text
  have hgap : separators (separators text ++ rest) = separators text := by rw [← htext]
  generalize separators text = gap at htext hgap
  subst htext
  rw [next_behind before hgap]
  by_cases hend : rest = []
  · subst hend
    rw [List.append_nil] at hgap ⊢
    exact .ended hgap
  · cases hspelt : spelt? rest with
    | none =>
      rw [readToken_of_spelt?_none hend hspelt]
      exact .refused hgap hstop hend hspelt
    | some entry =>
      obtain ⟨cls, bytes⟩ := entry
      obtain ⟨slice, hcandidate, hspelling, hne⟩ := spelt?_eq_some_iff.mp hspelt
      obtain ⟨after, rfl⟩ : bytes <+: rest :=
        (hspelling ▸ cls.spelling_front slice).trans (candidate?_front hcandidate)
      rw [readToken_of_spelt?_some hspelt]
      cases hread : cls.read bytes with
      | error fault =>
        obtain ⟨hdigits, -, rfl⟩ := eq_number_of_read_error hspelt hread
        exact .passed hgap hne hdigits
      | ok lexeme =>
        have hmeaning := read_of_spelt? hspelt
        rw [hread] at hmeaning
        split at hmeaning
        · rename_i lexeme' hsome
          cases hmeaning
          exact .found hgap hne (cls.ne_eof_of_meaning? hsome)
        · cases hmeaning

/-! ### Staying -/

/-- The scanner has come to a place where every call gives the same answer. -/
def Stays (s : Scanner) (answer : Except ScanError Token) : Prop :=
  s.next = (answer, s)

theorem stays_end (before : List UInt8) :
    Stays ⟨.behind before, []⟩ (.ok ⟨.eof, .behind before, .behind before⟩) :=
  rfl

theorem stays_refused (before : List UInt8) (hstop : separators rest = []) (hne : rest ≠ [])
    (hspelt : spelt? rest = none) :
    Stays ⟨.behind before, rest⟩
      (.error ⟨.behind before, .unexpected (Text.firstCharacter rest)⟩) := by
  have hnext := @next_behind [] rest before hstop
  rw [List.nil_append, List.append_nil] at hnext
  exact hnext.trans (readToken_of_spelt?_none hne hspelt)

/-! ### What calls amount to -/

section Outcome

variable {t : Token} {s' : Scanner} {p : Position}

/-- No call goes back. -/
theorem Call.length_le {answer : Except ScanError Token} (h : Call before text (answer, s')) :
    before.length ≤ s'.position.offset := by
  cases h with
  | ended | found | passed | refused =>
    simp only [Position.behind, List.length_append]
    omega

theorem Call.position_eq_stop (h : Call before text (.ok t, s')) (ht : t.lexeme ≠ .eof) :
    before.length < s'.position.offset ∧ s'.position = t.span.stop := by
  cases h with
  | ended => exact absurd rfl ht
  | found _ hne =>
    have hpos := List.length_pos_iff.mpr hne
    simp only [Position.behind, List.length_append, and_true]
    omega

theorem Call.passed_digits {number : String}
    (h : Call before text (.error ⟨p, .tooLarge number⟩, s')) :
    ∃ digits, digits = ((before ++ text).drop p.offset.toNat).takeWhile isDigitByte ∧ digits ≠ [] ∧
      number = textOfBytes digits ∧ before.length ≤ p.offset ∧
      s'.position.offset = p.offset + digits.length := by
  cases h with
  | @passed gap bytes rest _ hne hdigits =>
    refine ⟨bytes, ?_, hne, rfl, ?_, ?_⟩
    · have hdrop : (before ++ (gap ++ (bytes ++ rest))).drop (before ++ gap).length =
          bytes ++ rest := by
        rw [← List.append_assoc, List.drop_left]
      exact hdigits.trans (congrArg _ hdrop.symm)
    · simp only [Position.behind, List.length_append]
      omega
    · simp only [Position.behind, List.length_append]
      omega

theorem Call.ended_stays (h : Call before text (.ok t, s')) (ht : t.lexeme = .eof) :
    s'.position = .behind (before ++ text) ∧ t.span = ⟨s'.position, s'.position⟩ ∧
      s'.Stays (.ok t) := by
  cases h with
  | ended => exact ⟨rfl, rfl, stays_end _⟩
  | found _ _ heof => exact absurd ht heof

theorem Call.refused_stays {character : Char}
    (h : Call before text (.error ⟨p, .unexpected character⟩, s')) :
    s'.position = p ∧ s'.Stays (.error ⟨p, .unexpected character⟩) := by
  cases h with
  | refused _ hstop hne hspelt => exact ⟨rfl, stays_refused _ hstop hne hspelt⟩

end Outcome

/-! ### Call after call -/

theorem after_succ (source : List UInt8) (calls : Nat) :
    after source (calls + 1) = (after source calls).next.2 :=
  Function.iterate_succ_apply' _ _ _

/-- Once a scanner stays it stays for all later calls. -/
theorem Stays.after {answer : Except ScanError Token} {calls later : Nat}
    (h : (after source calls).Stays answer) (hle : calls ≤ later) :
    (after source later).Stays answer := by
  induction later, hle using Nat.le_induction with
  | base => exact h
  | succ later _ ih =>
    rw [after_succ, ih]
    exact ih

/-- An answer that leaves the scanner where it stays is given from then on. -/
theorem Stays.next_later {answer : Except ScanError Token} {calls : Nat}
    (h : (Scanner.after source (calls + 1)).Stays answer)
    (hanswer : (Scanner.after source calls).next.1 = answer) :
    ∀ later ≥ calls, (Scanner.after source later).next.1 = answer := by
  intro later hle
  rcases Nat.eq_or_lt_of_le hle with rfl | hlt
  · exact hanswer
  · exact congrArg Prod.fst (h.after hlt)

/-- What becomes of the offset with one more call after some. -/
structure Advances (source : List UInt8) (calls : Nat) : Prop where
  /-- It never decreases. -/
  offset_le : (after source calls).position.offset ≤ (after source (calls + 1)).position.offset
  /-- With a token it increases, to the end of the token. -/
  found : ∀ t, (after source calls).next.1 = .ok t → t.lexeme ≠ .eof →
    (after source calls).position.offset < (after source (calls + 1)).position.offset ∧
      (after source (calls + 1)).position = t.span.stop
  /-- A number that does not fit is passed with all the digits that stand there. -/
  passed : ∀ p number, (after source calls).next.1 = .error ⟨p, .tooLarge number⟩ →
    ∃ digits, digits = (source.drop p.offset.toNat).takeWhile isDigitByte ∧ digits ≠ [] ∧
      number = textOfBytes digits ∧ (after source calls).position.offset ≤ p.offset ∧
      (after source (calls + 1)).position.offset = p.offset + digits.length
  /-- The end marker is given at the end of the text only, and by every call from then on. -/
  ended : ∀ t, (after source calls).next.1 = .ok t → t.lexeme = .eof →
    (after source (calls + 1)).position.offset = source.length ∧
      t.span = ⟨(after source (calls + 1)).position, (after source (calls + 1)).position⟩ ∧
      ∀ later ≥ calls, (after source later).next.1 = .ok t
  /-- A scanner at the end of the text gives the end marker. -/
  atEnd : (after source calls).position.offset = source.length →
    ∃ t, (after source calls).next.1 = .ok t ∧ t.lexeme = .eof
  /-- A character that is refused once is refused by every call from then on. -/
  refused : ∀ p character, (after source calls).next.1 = .error ⟨p, .unexpected character⟩ →
    (after source (calls + 1)).position = p ∧
      ∀ later ≥ calls, (after source later).next.1 = .error ⟨p, .unexpected character⟩

theorem advances (source : List UInt8) (calls : Nat) : Advances source calls := by
  obtain ⟨before, hsource, hposition⟩ := standsIn_after source calls
  have hoffset : (after source calls).position.offset = before.length := by
    rw [hposition]
    rfl
  have hcall : Call before (after source calls).rest
      ((after source calls).next.1, after source (calls + 1)) := by
    rw [after_succ]
    have hcall := call_next before (after source calls).rest
    rwa [← hposition] at hcall
  refine ⟨?_, fun t ht hne => ?_, fun p number hp => ?_, fun t ht heof => ?_, fun hend => ?_,
    fun p character hp => ?_⟩
  · rw [hoffset]
    exact hcall.length_le
  · rw [ht] at hcall
    rw [hoffset]
    exact hcall.position_eq_stop hne
  · rw [hp] at hcall
    have hdigits := hcall.passed_digits
    rw [← hsource] at hdigits
    rw [hoffset]
    exact hdigits
  · rw [ht] at hcall
    obtain ⟨hstop, hspan, hstays⟩ := hcall.ended_stays heof
    refine ⟨?_, hspan, hstays.next_later ht⟩
    rw [hstop, ← hsource]
    rfl
  · have hlength := congrArg List.length hsource
    rw [List.length_append] at hlength
    have hrest : (after source calls).rest = [] := List.eq_nil_of_length_eq_zero (by omega)
    have hafter : after source calls = ⟨.behind before, []⟩ := by
      rw [← hposition, ← hrest]
    rw [hafter]
    exact ⟨_, congrArg Prod.fst (stays_end before), rfl⟩
  · rw [hp] at hcall
    obtain ⟨hat, hstays⟩ := hcall.refused_stays
    exact ⟨hat, hstays.next_later hp⟩

/-! ### Reading all tokens -/

/-- Asking for tokens until there is an end marker or a failure takes a number of calls and has a
result. -/
inductive Scans : (s : Scanner) → (calls : Nat) → (result : Except ScanError (List Token)) →
    Prop where
  | failed {s s' : Scanner} {e : ScanError} (h : s.next = (.error e, s')) : Scans s 1 (.error e)
  | ended {s s' : Scanner} {t : Token} (h : s.next = (.ok t, s')) (ht : t.lexeme = .eof) :
      Scans s 1 (.ok [t])
  | found {s s' : Scanner} {t : Token} {calls : Nat} {result : Except ScanError (List Token)}
      (h : s.next = (.ok t, s')) (ht : t.lexeme ≠ .eof) (hrest : Scans s' calls result) :
      Scans s (calls + 1) (result.map (t :: ·))

/-- **Reading all tokens ends,** after at most one call more than there are bytes to be read. -/
theorem exists_scans (s : Scanner) : ∃ calls ≤ s.rest.length + 1, Scans s calls s.scan := by
  fun_induction Scanner.scan s with
  | case1 s e s' hnext => exact ⟨1, Nat.le_add_left 1 _, .failed hnext⟩
  | case2 s t s' hnext hend => exact ⟨1, Nat.le_add_left 1 _, .ended hnext hend⟩
  | case3 s t s' hnext hend ih =>
    obtain ⟨calls, hcalls, hscans⟩ := ih
    have hlt := length_rest_next_lt hnext hend
    exact ⟨calls + 1, by omega, .found hnext hend hscans⟩

end Scanner

/-- **Every call moves on or stays for good,** whichever calls came before it; and so reading the
tokens of a text ends after at most one call more than the text has bytes. -/
theorem next_advances_or_stays (source : List UInt8) :
    (∀ calls, Scanner.Advances source calls) ∧
      ∃ calls ≤ source.length + 1, Scanner.Scans (.ofSource source) calls (scan source) :=
  ⟨Scanner.advances source, Scanner.exists_scans (.ofSource source)⟩

/-- A number that does not fit, a name, a comment, and a character that begins no token. -/
def strayText : List UInt8 :=
  encoded (List.replicate 19 '9' ++ ['x', '/', '/', '\n', '?'])

/-- The number is passed, the name is read, and the character is refused from the third call on.  Of
another text only the end marker is left after the first call. -/
theorem next_advances_or_stays_stray :
    ((Scanner.after strayText 0).next.1 =
        .error ⟨⟨1, 1, 0⟩, .tooLarge "9999999999999999999"⟩ ∧
      (Scanner.after strayText 1).position.offset = 19) ∧
    ((Scanner.after strayText 1).next.1 = .ok ⟨.ident "x", ⟨1, 20, 19⟩, ⟨1, 21, 20⟩⟩ ∧
      (Scanner.after strayText 1).position.offset < (Scanner.after strayText 2).position.offset) ∧
    (∀ later ≥ 2, (Scanner.after strayText later).next.1 =
      .error ⟨⟨2, 1, 23⟩, .unexpected '?'⟩) ∧
    (∃ calls ≤ 25, Scanner.Scans (.ofSource strayText) calls (scan strayText)) ∧
    ∀ later ≥ 1, (Scanner.after (encoded ['x', ' ']) later).next.1 =
      .ok ⟨.eof, ⟨1, 3, 2⟩, ⟨1, 3, 2⟩⟩ := by
  obtain ⟨hadvances, hscans⟩ := next_advances_or_stays strayText
  have hpassed : (Scanner.after strayText 0).next.1 =
      .error ⟨⟨1, 1, 0⟩, .tooLarge "9999999999999999999"⟩ := by decide +kernel
  have hfound : (Scanner.after strayText 1).next.1 =
      .ok ⟨.ident "x", ⟨1, 20, 19⟩, ⟨1, 21, 20⟩⟩ := by decide +kernel
  have hrefused : (Scanner.after strayText 2).next.1 =
      .error ⟨⟨2, 1, 23⟩, .unexpected '?'⟩ := by decide +kernel
  have hended : (Scanner.after (encoded ['x', ' ']) 1).next.1 =
      .ok ⟨.eof, ⟨1, 3, 2⟩, ⟨1, 3, 2⟩⟩ := by decide +kernel
  obtain ⟨digits, rfl, -, -, -, hoffset⟩ := (hadvances 0).passed _ _ hpassed
  refine ⟨⟨hpassed, hoffset.trans (by decide +kernel)⟩,
    ⟨hfound, ((hadvances 1).found _ hfound (by decide)).1⟩,
    ((hadvances 2).refused _ _ hrefused).2, hscans, ?_⟩
  exact (((next_advances_or_stays _).1 1).ended _ hended rfl).2.2

end BlockFlow
