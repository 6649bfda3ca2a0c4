import BlockFlow.Drawing

/-!
# Labels can be read back

In a label a backslash begins one of three escapes: of a backslash, of a quotation mark, and of the
end of a line.  `Drawing.readLabel` goes through a text from left to right and takes the escapes
back.  It gives up at any other escape, at a quotation mark that is not escaped, and at a last line
that does not end.  The texts it accepts are the labels, and what it makes of a label are its lines
(`Drawing.readLabel_eq_ok_iff`); so no two lists of lines have the same label.

A label stands between quotation marks in a drawing, and the first mark behind the opening one that
is not escaped closes the string.  That mark is the one behind the label
(`Drawing.Passable.labelChars`), whatever the lines hold.
-/

namespace BlockFlow.Drawing

/-! ### Reading a label -/

/-- Why a text is no label. -/
inductive LabelFault where
  /-- A backslash stands in front of a character that it does not escape. -/
  | foreignEscape (character : Char)
  /-- A backslash stands at the end. -/
  | openEscape
  /-- A quotation mark is not escaped. -/
  | bareQuote
  /-- The last line does not end. -/
  | openLine
deriving DecidableEq, Repr

/-- Reads the rest of a label from left to right.  `line` holds the characters of the line being
read, last character first. -/
def readLabelFrom (line : List Char) : List Char → Except LabelFault (List String)
  | [] => if line = [] then .ok [] else .error .openLine
  | '\\' :: '\\' :: rest => readLabelFrom ('\\' :: line) rest
  | '\\' :: '"' :: rest => readLabelFrom ('"' :: line) rest
  | '\\' :: 'n' :: rest => (readLabelFrom [] rest).map (String.ofList line.reverse :: ·)
  | '\\' :: c :: _ => .error (.foreignEscape c)
  | ['\\'] => .error .openEscape
  | '"' :: _ => .error .bareQuote
  | c :: rest => readLabelFrom (c :: line) rest

/-- The lines that a label shows. -/
def readLabel (text : String) : Except LabelFault (List String) :=
  readLabelFrom [] text.toList

/-- A character that needs no escape is read as itself. -/
theorem readLabelFrom_cons {c : Char} (hbackslash : c ≠ '\\') (hquote : c ≠ '"')
    (line rest : List Char) :
    readLabelFrom line (c :: rest) = readLabelFrom (c :: line) rest := by
  rw [readLabelFrom]
  all_goals simp [hbackslash, hquote]

/-- A character of a line is read back, whatever it is. -/
theorem readLabelFrom_labelChar (c : Char) (line rest : List Char) :
    readLabelFrom line (labelChar c ++ rest) = readLabelFrom (c :: line) rest := by
  unfold labelChar
  split
  · rename_i hbackslash
    subst hbackslash
    rfl
  · rename_i hbackslash
    split
    · rename_i hquote
      subst hquote
      rfl
    · rename_i hquote
      exact readLabelFrom_cons hbackslash hquote line rest

/-- The characters of a line are read back one after the other. -/
theorem readLabelFrom_flatMap (chars : List Char) : ∀ line rest : List Char,
    readLabelFrom line (chars.flatMap labelChar ++ rest) =
      readLabelFrom (chars.reverse ++ line) rest := by
  induction chars with
  | nil => exact fun line rest => rfl
  | cons c chars ih =>
    intro line rest
    rw [List.flatMap_cons, List.append_assoc, readLabelFrom_labelChar, ih, List.reverse_cons,
      List.append_assoc]
    rfl

theorem labelChars_cons (line : String) (lines : List String) :
    labelChars (line :: lines) =
      line.toList.flatMap labelChar ++ ('\\' :: 'n' :: labelChars lines) := by
  rw [labelChars, List.flatMap_cons, List.append_assoc]
  rfl

/-- The lines of a label are read back one after the other. -/
theorem readLabelFrom_labelChars (lines : List String) :
    readLabelFrom [] (labelChars lines) = .ok lines := by
  induction lines with
  | nil => rfl
  | cons line lines ih =>
    rw [labelChars_cons, readLabelFrom_flatMap, readLabelFrom, ih, List.append_nil,
      List.reverse_reverse, String.ofList_toList]
    rfl

/-- What is read from a text, with what was read of the first line before, is what the text says
when that is put in front of it. -/
theorem labelChars_of_readLabelFrom {line text : List Char} {lines : List String}
    (h : readLabelFrom line text = .ok lines) :
    labelChars lines = line.reverse.flatMap labelChar ++ text := by
  -- One more character of the line moves from the text to what was read.
  have hmove : ∀ (c : Char) (line rest : List Char),
      (c :: line).reverse.flatMap labelChar ++ rest =
        line.reverse.flatMap labelChar ++ (labelChar c ++ rest) := by
    intro c line rest
    rw [List.reverse_cons, List.flatMap_append, List.flatMap_singleton, List.append_assoc]
  fun_induction readLabelFrom line text generalizing lines with
  | case1 =>
    cases h
    rfl
  | case2 => cases h
  | case3 line rest ih => exact (ih h).trans (hmove '\\' line rest)
  | case4 line rest ih => exact (ih h).trans (hmove '"' line rest)
  | case5 line rest ih =>
    cases hrest : readLabelFrom [] rest with
    | error fault =>
      rw [hrest] at h
      cases h
    | ok others =>
      rw [hrest] at h
      cases h
      rw [labelChars_cons, ih hrest, String.toList_ofList]
      rfl
  | case6 => cases h
  | case7 => cases h
  | case8 => cases h
  | case9 line c rest _ _ _ hescape hopen hquote ih =>
    -- A backslash would have begun an escape or stood at the end.
    have hbackslash : c ≠ '\\' := by
      rintro rfl
      cases rest with
      | nil => exact hopen rfl rfl
      | cons c' rest => exact hescape c' rest rfl rfl
    rw [ih h, hmove, labelChar, if_neg hbackslash, if_neg hquote]
    rfl

/-- **Reading accepts labels, and nothing else,** and gives the lines that they show. -/
theorem readLabel_eq_ok_iff {text : String} {lines : List String} :
    readLabel text = .ok lines ↔ text = label lines := by
  rw [readLabel, label]
  constructor
  · intro h
    rw [labelChars_of_readLabelFrom h]
    exact String.ofList_toList.symm
  · rintro rfl
    rw [String.toList_ofList]
    exact readLabelFrom_labelChars lines

/-! ### Labels between quotation marks -/

/-- Reads a string behind its opening quotation mark: what stands in front of the mark that closes
it, as it is written, and what stands behind that mark.  A backslash takes the next character with
it, so that an escaped mark closes nothing. -/
def quoted? : List Char → Option (List Char × List Char)
  | [] => none
  | '"' :: rest => some ([], rest)
  | '\\' :: c :: rest => (quoted? rest).map fun (body, after) => ('\\' :: c :: body, after)
  | c :: rest => (quoted? rest).map fun (body, after) => (c :: body, after)

/-- Whatever follows, reading a string passes over these characters and closes it behind them. -/
def Passable (chars : List Char) : Prop :=
  ∀ rest, quoted? (chars ++ rest) = (quoted? rest).map fun (body, after) => (chars ++ body, after)

namespace Passable

theorem nil : Passable [] := by
  intro rest
  rw [List.nil_append]
  exact Option.map_id'.symm

theorem append {first second : List Char} (h : Passable first) (h' : Passable second) :
    Passable (first ++ second) := by
  intro rest
  rw [List.append_assoc, h, h', Option.map_map]
  congr 1
  funext read
  show (first ++ (second ++ read.1), read.2) = (first ++ second ++ read.1, read.2)
  rw [List.append_assoc]

/-- A backslash and the character behind it. -/
theorem pair (c : Char) : Passable ['\\', c] := by
  intro rest
  rfl

theorem single {c : Char} (hbackslash : c ≠ '\\') (hquote : c ≠ '"') : Passable [c] := by
  intro rest
  show quoted? (c :: rest) = _
  rw [quoted?]
  · rfl
  · exact hquote
  · exact fun _ _ h _ => hbackslash h

theorem labelChar (c : Char) : Passable (labelChar c) := by
  unfold Drawing.labelChar
  split
  · exact pair '\\'
  · rename_i hbackslash
    split
    · exact pair '"'
    · rename_i hquote
      exact single hbackslash hquote

theorem flatMap (chars : List Char) : Passable (chars.flatMap Drawing.labelChar) := by
  induction chars with
  | nil => exact nil
  | cons c chars ih =>
    rw [List.flatMap_cons]
    exact (labelChar c).append ih

/-- **No character of a label closes the string it stands in.** -/
theorem labelChars (lines : List String) : Passable (labelChars lines) := by
  induction lines with
  | nil => exact nil
  | cons line lines ih =>
    rw [labelChars_cons]
    exact (flatMap line.toList).append ((pair 'n').append ih)

end Passable

/-- A string that holds a label is closed by the mark behind the label. -/
theorem quoted?_label (lines : List String) (after : List Char) :
    quoted? ((label lines).toList ++ '"' :: after) = some ((label lines).toList, after) := by
  rw [label, String.toList_ofList, Passable.labelChars lines]
  show some (labelChars lines ++ [], after) = _
  rw [List.append_nil]

/-- The write of a rectangle, around the quotation marks of its label. -/
theorem toList_rectangle (id : Nat) (lines : List String) :
    (rectangle id lines).toList = (toString id ++ " [label=").toList ++
      '"' :: ((label lines).toList ++ '"' :: [']', '\n']) := by
  simp [rectangle]

/-- What stands in front of the label holds no quotation mark. -/
theorem quote_notMem_front (id : Nat) : '"' ∉ (toString id ++ " [label=").toList := by
  rw [String.toList_append, List.mem_append]
  rintro (hid | hlabel)
  · rw [Nat.toString_eq_repr, Nat.toList_repr] at hid
    exact absurd (Nat.isDigit_of_mem_toDigits (by decide) (by decide) hid) (by decide)
  · revert hlabel
    decide

/-- **Labels can be read back.**  Reading a text from left to right, with an escaped backslash taken
for a backslash, an escaped quotation mark for a quotation mark and the third escape for the end of
a line, succeeds with some lines if and only if the text is the label of these lines.  On a label it
so meets no other escape and no bare quotation mark, and labels of different lines differ.  A label
never closes the string it stands in; in the write of a rectangle the string that opens with the
first quotation mark is the whole label, and only the end of the attributes follows it. -/
theorem label_readable :
    (∀ (text : String) (lines : List String), readLabel text = .ok lines ↔ text = label lines) ∧
    (∀ lines lines' : List String, label lines = label lines' → lines = lines') ∧
    (∀ (lines : List String) (after : List Char),
      quoted? ((label lines).toList ++ '"' :: after) = some ((label lines).toList, after)) ∧
    ∀ (id : Nat) (lines : List String), ∃ front rest : List Char,
      (rectangle id lines).toList = front ++ '"' :: rest ∧ '"' ∉ front ∧
        quoted? rest = some ((label lines).toList, [']', '\n']) := by
  refine ⟨fun text lines => readLabel_eq_ok_iff, fun lines lines' heq => ?_, quoted?_label,
    fun id lines => ?_⟩
  · -- Both lists are what is read from the one label.
    have hread : readLabel (label lines) = .ok lines := readLabel_eq_ok_iff.mpr rfl
    have hread' : readLabel (label lines) = .ok lines' := readLabel_eq_ok_iff.mpr heq
    exact Except.ok.inj (hread.symm.trans hread')
  · exact ⟨_, _, toList_rectangle id lines, quote_notMem_front id, quoted?_label lines _⟩

/-- A line that ends in a backslash in front of an empty one, and an escape of another character. -/
example : label ["a\\", ""] = "a\\\\\\n\\n" ∧ readLabel "a\\\\\\n\\n" = .ok ["a\\", ""] ∧
    readLabel "a\\t\\n" = .error (.foreignEscape 't') := by
  exact ⟨rfl, rfl, rfl⟩

end BlockFlow.Drawing
