import BlockFlow.Proofs.Token.Spelling

/-!
# Scanning line by line

A newline cuts a text in two that can be scanned apart (`scan_newline`).  Nothing behind the newline
has a say in how the first part is read: no token reaches across a blank, a comment ends with its
line, and a character that the text breaks off is not completed by a newline
(`Text.firstCharacter_append`).  The second part is read as if it stood alone, except that all its
positions are moved by the first part (`tokenize_moved`).
-/

namespace BlockFlow

/-! ### Moved positions -/

/-- The position in a text that has some lines, with some bytes, in front of it. -/
def Position.moved (lines bytes : Nat) (p : Position) : Position where
  line := p.line + lines
  column := p.column
  offset := p.offset + bytes

/-- The token with both ends of its span moved. -/
def Token.moved (lines bytes : Nat) (t : Token) : Token where
  lexeme := t.lexeme
  span := ⟨t.span.start.moved lines bytes, t.span.stop.moved lines bytes⟩

/-- The error with its position moved. -/
def ScanError.moved (lines bytes : Nat) (e : ScanError) : ScanError where
  position := e.position.moved lines bytes
  fault := e.fault

/-- The outcome of a scan, moved with the text: all its tokens, or its error. -/
def movedOutcome (lines bytes : Nat) :
    Except ScanError (List Token) → Except ScanError (List Token)
  | .error e => .error (e.moved lines bytes)
  | .ok tokens => .ok (tokens.map (Token.moved lines bytes))

theorem Position.step_moved (lines bytes : Nat) (p : Position) (b : UInt8) :
    (p.moved lines bytes).step b = (p.step b).moved lines bytes := by
  unfold step moved
  split_ifs <;> simp <;> omega

/-- Lines in front of a text move its positions and leave its columns. -/
theorem Position.behind_newline (first before : List UInt8) :
    behind (first ++ '\n'.toUInt8 :: before) =
      (behind before).moved (1 + first.count '\n'.toUInt8) (first.length + 1) := by
  induction before using List.reverseRecOn with
  | nil =>
    rw [behind_concat]
    unfold step behind moved
    simp
    omega
  | append_singleton before b ih =>
    rw [← List.cons_append, ← List.append_assoc, behind_concat, ih, step_moved, behind_concat]

variable {before text after gap : List UInt8} {b : UInt8}

theorem tokenAt_moved (first before text : List UInt8) :
    tokenAt (first ++ '\n'.toUInt8 :: before) text =
      (tokenAt before text).mapError
        (ScanError.moved (1 + first.count '\n'.toUInt8) (first.length + 1)) := by
  unfold tokenAt
  rw [Position.behind_newline]
  cases firstMatch? text with
  | none => rfl
  | some found =>
    obtain ⟨cls, bytes⟩ := found
    dsimp only
    cases cls.meaning? bytes with
    | none => rfl
    | some lexeme => rfl

/-- **Lines in front of a text move what is found in it** and change nothing else. -/
theorem tokenize_moved (first before text : List UInt8) :
    tokenize (first ++ '\n'.toUInt8 :: before) text =
      movedOutcome (1 + first.count '\n'.toUInt8) (first.length + 1) (tokenize before text) := by
  have hfront : ∀ before bytes : List UInt8, first ++ '\n'.toUInt8 :: before ++ bytes =
      first ++ '\n'.toUInt8 :: (before ++ bytes) := fun before bytes => by
    rw [List.append_assoc, List.cons_append]
  induction before, text using tokenize_induction with
  | hend before gap hgap =>
    rw [hgap.tokenize_of_end, hfront, Position.behind_newline]
    rfl
  | herror before gap rest e hgap hne hstop herror =>
    have hmoved := tokenAt_moved first (before ++ gap) rest
    rw [herror, ← hfront] at hmoved
    exact hgap.tokenize_of_error hne hstop hmoved
  | htoken before gap bytes after lexeme result hgap hstop htoken ih =>
    have hmoved := tokenAt_moved first (before ++ gap) (bytes ++ after)
    rw [htoken, ← hfront] at hmoved
    rw [hgap.tokenize_of_ok hstop hmoved, hfront, hfront, ih, Position.behind_newline,
      Position.behind_newline]
    cases result with
    | error e => rfl
    | ok tokens => rfl

/-! ### What a newline ends -/

namespace Text

/-- The character at the front of a text is the one whose bytes stand there. -/
theorem leading?_eq_some_iff {c : Char} :
    leading? text = some c ↔ String.utf8EncodeChar c <+: text := by
  constructor
  · intro h
    obtain ⟨rest, hrest⟩ := ByteArray.exists_of_utf8DecodeChar?_eq_some h
    have htake : text.take 4 = String.utf8EncodeChar c ++ rest.data.toList := by
      rw [← @List.toList_data_toByteArray (text.take 4), hrest, ByteArray.data_append,
        Array.toList_append, List.toList_data_toByteArray]
    exact (htake ▸ List.prefix_append _ _).trans (List.take_prefix 4 text)
  · rintro ⟨rest, rfl⟩
    have hlength : (String.utf8EncodeChar c).length ≤ 4 :=
      (String.length_utf8EncodeChar c).trans_le c.utf8Size_le_four
    rw [leading?, List.take_append, List.take_of_length_le hlength, List.toByteArray_append,
      ByteArray.utf8DecodeChar?_utf8EncodeChar_append]

/-- A byte that can begin a character stands in one only as its first. -/
theorem notMem_tail_utf8EncodeChar (hb : b.IsUTF8FirstByte) (c : Char) :
    b ∉ (String.utf8EncodeChar c).tail := by
  intro hmem
  obtain ⟨i, hi, rfl⟩ := List.getElem_of_mem hmem
  rw [List.getElem_tail, UInt8.isUTF8FirstByte_getElem_utf8EncodeChar] at hb
  omega

/-- **A broken character stays broken** when a byte follows that can only begin another. -/
theorem firstCharacter_append (hne : text ≠ []) (hb : b.IsUTF8FirstByte) :
    firstCharacter (text ++ b :: after) = firstCharacter text := by
  have hleading : leading? (text ++ b :: after) = leading? text := by
    ext c
    rw [leading?_eq_some_iff, leading?_eq_some_iff]
    -- The first byte of a character is in the text already, and the byte that follows the text is
    -- none of the others.
    have htail := notMem_tail_utf8EncodeChar hb c
    obtain ⟨first, rest, rfl⟩ := List.exists_cons_of_ne_nil hne
    cases hbytes : String.utf8EncodeChar c with
    | nil => exact absurd hbytes String.utf8EncodeChar_ne_nil
    | cons first' rest' =>
      rw [hbytes, List.tail_cons] at htail
      rw [List.cons_append, List.cons_prefix_cons, List.cons_prefix_cons,
        prefix_append_cons_iff htail]
  rw [firstCharacter, hleading, firstCharacter]

end Text

theorem beginsBlank_newline (after : List UInt8) : BeginsBlank ('\n'.toUInt8 :: after) := by
  rintro b ⟨⟩
  decide

theorem tokenAt_newline (hne : text ≠ []) :
    tokenAt before (text ++ '\n'.toUInt8 :: after) = tokenAt before text := by
  have hfirst : '\n'.toUInt8.IsUTF8FirstByte := by decide
  unfold tokenAt
  rw [firstMatch?_append text (beginsBlank_newline after), Text.firstCharacter_append hne hfirst]

/-- The tokenizer can as well start behind a separation. -/
theorem Separation.tokenize_append (hgap : Separation False gap) (before text : List UInt8) :
    tokenize before (gap ++ text) = tokenize (before ++ gap) text := by
  obtain ⟨rest, htext, -, -⟩ := separators_spec text
  generalize hfront : separators text = front at htext
  subst htext
  have hall : separators (gap ++ front ++ rest) = gap ++ front := by
    rw [List.append_assoc, (hgap.imp False.elim).separators_append, hfront]
  rw [← List.append_assoc, BlockFlow.tokenize_append before hall,
    BlockFlow.tokenize_append (before ++ gap) hfront, List.append_assoc]

/-! ### Texts in two parts -/

/-- **A newline cuts the work of the tokenizer in two.**  What it finds in front of the newline, and
where it fails there, does not depend on what is behind it. -/
theorem tokenize_newline (before text after : List UInt8) :
    (∀ e, tokenize before text = .error e →
      tokenize before (text ++ '\n'.toUInt8 :: after) = .error e) ∧
    ∀ tokens, tokenize before text = .ok tokens →
      ∃ marks, tokens = marks ++ [⟨.eof, .behind (before ++ text), .behind (before ++ text)⟩] ∧
        tokenize before (text ++ '\n'.toUInt8 :: after) =
          (tokenize (before ++ text ++ ['\n'.toUInt8]) after).map (marks ++ ·) := by
  induction before, text using tokenize_induction with
  | hend before gap hgap =>
    refine ⟨fun e he => (by cases he), fun tokens htokens => ?_⟩
    cases htokens
    refine ⟨[], rfl, ?_⟩
    -- An open comment ends with the newline, so the separation ends there whatever follows.
    rw [List.append_cons, hgap.concat_newline.tokenize_append, ← List.append_assoc]
    exact (congrFun Except.map_id _).symm
  | herror before gap rest e hgap hne hstop herror =>
    refine ⟨fun e' he' => ?_, fun tokens htokens => (by cases htokens)⟩
    cases he'
    have hstop' := separators_append hne hstop (beginsBlank_newline after)
    rw [List.append_assoc]
    exact hgap.tokenize_of_error (by simp) hstop' ((tokenAt_newline hne).trans herror)
  | htoken before gap bytes behind lexeme result hgap hstop htoken ih =>
    have hne := List.append_ne_nil_of_left_ne_nil (ne_nil_of_tokenAt htoken) behind
    -- The token and what follows it up to the newline are not empty, so neither the token nor the
    -- separation in front of it is read otherwise now that more follows.
    have hstop' := separators_append hne hstop (beginsBlank_newline after)
    have htoken' := (@tokenAt_newline _ _ after hne).trans htoken
    rw [List.append_assoc] at hstop' htoken'
    have hstep := hgap.tokenize_of_ok hstop' htoken'
    have hassoc : before ++ (gap ++ (bytes ++ behind)) = before ++ gap ++ bytes ++ behind := by
      simp only [List.append_assoc]
    rw [List.append_assoc gap, List.append_assoc bytes, hstep, hassoc]
    cases result with
    | error e =>
      refine ⟨fun e' he' => ?_, fun tokens htokens => (by cases htokens)⟩
      cases he'
      rw [ih.1 e rfl]
      rfl
    | ok tokens =>
      refine ⟨fun e he => (by cases he), fun tokens' htokens' => ?_⟩
      cases htokens'
      obtain ⟨marks, rfl, hrest⟩ := ih.2 tokens rfl
      refine ⟨_ :: marks, rfl, ?_⟩
      rw [hrest]
      cases tokenize (before ++ gap ++ bytes ++ behind ++ ['\n'.toUInt8]) after with
      | error e => rfl
      | ok others => rfl

/-- **Scanning distributes over a newline.**  Where the first part of a text cannot be scanned, the
whole text cannot, for the same reason in the same place.  Otherwise the text has the tokens of the
first part, without the end marker, and then what scanning the second part gives, be it tokens or an
error, with all positions moved by the bytes and the lines in front. -/
theorem scan_newline (first second : List UInt8) :
    (∀ e, scan first = .error e → scan (first ++ '\n'.toUInt8 :: second) = .error e) ∧
    ∀ tokens, scan first = .ok tokens →
      ∃ marks, tokens = marks ++ [⟨.eof, .behind first, .behind first⟩] ∧
        scan (first ++ '\n'.toUInt8 :: second) =
          (movedOutcome (1 + first.count '\n'.toUInt8) (first.length + 1) (scan second)).map
            (marks ++ ·) := by
  have hscan : ∀ source, scan source = tokenize [] source := Scanner.scan_behind []
  rw [hscan, hscan, hscan, ← tokenize_moved]
  exact tokenize_newline [] first second

/-- The first two bytes of an operator are not completed by the third on the next line; and neither
is half an operator, where an open comment ends with its line. -/
theorem scan_newline_broken :
    scan [0xe2, 0x89] = .error ⟨⟨1, 1, 0⟩, .unexpected '\uFFFD'⟩ ∧
    scan [0xe2, 0x89, '\n'.toUInt8, 0xa4] = .error ⟨⟨1, 1, 0⟩, .unexpected '\uFFFD'⟩ ∧
    scan (encoded ['<', '/', '/', 'é', '\n', '=']) =
      .ok [⟨.op '<', ⟨1, 1, 0⟩, ⟨1, 2, 1⟩⟩, ⟨.assign, ⟨2, 1, 6⟩, ⟨2, 2, 7⟩⟩,
        ⟨.eof, ⟨2, 2, 7⟩, ⟨2, 2, 7⟩⟩] := by
  have hbroken : scan [0xe2, 0x89] = .error ⟨⟨1, 1, 0⟩, .unexpected '\uFFFD'⟩ :=
    Scanner.scan_of_next_error rfl
  have hless : Scanner.next ⟨.start, encoded ['<', '/', '/', 'é']⟩ =
      (.ok ⟨.op '<', ⟨1, 1, 0⟩, ⟨1, 2, 1⟩⟩, ⟨⟨1, 2, 1⟩, encoded ['/', '/', 'é']⟩) := by rfl
  have hcomment : Scanner.next ⟨⟨1, 2, 1⟩, encoded ['/', '/', 'é']⟩ =
      (.ok ⟨.eof, ⟨1, 5, 5⟩, ⟨1, 5, 5⟩⟩, ⟨⟨1, 5, 5⟩, []⟩) := by rfl
  have hassign : Scanner.next ⟨.start, encoded ['=']⟩ =
      (.ok ⟨.assign, ⟨1, 1, 0⟩, ⟨1, 2, 1⟩⟩, ⟨⟨1, 2, 1⟩, []⟩) := by rfl
  have hend : Scanner.next ⟨⟨1, 2, 1⟩, []⟩ =
      (.ok ⟨.eof, ⟨1, 2, 1⟩, ⟨1, 2, 1⟩⟩, ⟨⟨1, 2, 1⟩, []⟩) := by rfl
  have hfirst : scan (encoded ['<', '/', '/', 'é']) =
      .ok ([⟨.op '<', ⟨1, 1, 0⟩, ⟨1, 2, 1⟩⟩] ++ [⟨.eof, ⟨1, 5, 5⟩, ⟨1, 5, 5⟩⟩]) := by
    unfold scan Scanner.ofSource
    rw [Scanner.scan_of_next_ok hless, if_neg nofun, Scanner.scan_of_next_ok hcomment, if_pos rfl]
    rfl
  have hsecond : scan (encoded ['=']) =
      .ok [⟨.assign, ⟨1, 1, 0⟩, ⟨1, 2, 1⟩⟩, ⟨.eof, ⟨1, 2, 1⟩, ⟨1, 2, 1⟩⟩] := by
    unfold scan Scanner.ofSource
    rw [Scanner.scan_of_next_ok hassign, if_neg nofun, Scanner.scan_of_next_ok hend, if_pos rfl]
    rfl
  refine ⟨hbroken, (scan_newline [0xe2, 0x89] [0xa4]).1 _ hbroken, ?_⟩
  obtain ⟨marks, hmarks, hscan⟩ := (scan_newline _ (encoded ['='])).2 _ hfirst
  obtain ⟨rfl, -⟩ := List.append_inj' hmarks rfl
  rw [hsecond] at hscan
  exact hscan

end BlockFlow
