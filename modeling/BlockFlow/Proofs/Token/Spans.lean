import BlockFlow.Proofs.Token.Spelling

/-!
# Token spans tile the text

The spans of the tokens that scanning finds lie in the text one behind the other.  Each of them but
the last holds a spelling of its token, what stands between two of them, or in front of the first,
are blanks and comments, and the last one is the empty span of the end marker at the end of the
text (`tokenize_tiles`).

The scanner counts lines and columns as it goes.  However often it is asked for the next token, and
whatever it had to refuse on the way, the positions it reports are those that counting from the
start of the text gives (`Scanner.standsIn_after`, `Token.OccursIn.exact`).
-/

namespace BlockFlow

variable {source before text : List UInt8}

/-! ### Exact positions -/

/-- The line and the column of the position are right for its offset in the text: as many lines have
ended before it, and as many characters have begun on its own line. -/
structure Position.Exact (source : List UInt8) (p : Position) : Prop where
  nonneg : 0 ≤ p.offset
  inText : p.offset ≤ source.length
  line : p.line = 1 + (source.take p.offset.toNat).count '\n'.toUInt8
  column : p.column = 1 + ((source.take p.offset.toNat).rtakeWhile (· != '\n'.toUInt8)).countP
    fun b => b &&& 0xc0 != 0x80

theorem Position.exact_behind (h : before <+: source) : (behind before).Exact source := by
  have htake : source.take (behind before).offset.toNat = before :=
    (List.prefix_iff_eq_take.mp h).symm
  refine ⟨Int.natCast_nonneg _, Int.ofNat_le.mpr h.length_le, ?_, ?_⟩
  · rw [htake]
    rfl
  · rw [htake]
    rfl

theorem Token.OccursIn.exact {t : Token} (h : t.OccursIn source) :
    t.span.start.Exact source ∧ t.span.stop.Exact source := by
  cases h with
  | spelt before bytes after cls lexeme source_eq bytes_ne reads =>
    subst source_eq
    refine ⟨Position.exact_behind (List.prefix_append _ _), Position.exact_behind ?_⟩
    rw [← List.append_assoc]
    exact List.prefix_append _ _
  | eof => exact ⟨Position.exact_behind List.prefix_rfl, Position.exact_behind List.prefix_rfl⟩

theorem ScanError.OccursIn.exact {e : ScanError} (h : e.OccursIn source) :
    e.position.Exact source := by
  cases h with
  | unexpected before rest source_eq begins =>
    subst source_eq
    exact Position.exact_behind (List.prefix_append _ _)
  | tooLarge before rest source_eq large =>
    subst source_eq
    exact Position.exact_behind (List.prefix_append _ _)

namespace Scanner

/-- The scanner of a text after it has been asked for some tokens, whether it found them or not. -/
def after (source : List UInt8) (calls : Nat) : Scanner :=
  (fun s : Scanner => s.next.2)^[calls] (ofSource source)

/-- A call leaves the scanner in the text, also one that finds no token. -/
theorem StandsIn.next_snd {s : Scanner} (h : s.StandsIn source) : s.next.2.StandsIn source := by
  rcases h.exists_next with ⟨t, s', hnext, -, hstands⟩ | ⟨e, s', hnext, -, hstands⟩
  · rwa [hnext]
  · rwa [hnext]

theorem standsIn_after (source : List UInt8) (calls : Nat) :
    (after source calls).StandsIn source := by
  induction calls with
  | zero => exact standsIn_ofSource source
  | succ calls ih =>
    unfold after at ih ⊢
    rw [Function.iterate_succ_apply']
    exact ih.next_snd

end Scanner

/-! ### Tiles -/

/-- The bytes of the text from one position up to another. -/
def bytesBetween (source : List UInt8) (p q : Position) : List UInt8 :=
  source.extract p.offset.toNat q.offset.toNat

theorem bytesBetween_behind {bytes rest : List UInt8}
    (hsource : source = before ++ (bytes ++ rest)) :
    bytesBetween source (.behind before) (.behind (before ++ bytes)) = bytes := by
  subst hsource
  show (before ++ (bytes ++ rest)).extract before.length (before ++ bytes).length = bytes
  rw [List.extract_eq_take_drop, List.drop_left, List.length_append, Nat.add_sub_cancel_left,
    List.take_left]

/-- A span comes before another, and only blanks and comments stand between them; a comment that
no newline ends is at the end of the text. -/
structure Span.Precedes (source : List UInt8) (s s' : Span) : Prop where
  le : s.stop.offset ≤ s'.start.offset
  separation : Separation (s'.start.offset = source.length) (bytesBetween source s.stop s'.start)

/-- The span of the token is not empty and holds a spelling of it. -/
structure Token.Fits (source : List UInt8) (t : Token) : Prop where
  ne_eof : t.lexeme ≠ .eof
  lt : t.span.start.offset < t.span.stop.offset
  spells : Spells (bytesBetween source t.span.start t.span.stop) t.lexeme

/-- What is skipped stands between the span in front of it and the one behind it. -/
theorem Separation.precedes {gap rest : List UInt8} {s s' : Span}
    (h : Separation (rest = []) gap) (hsource : source = before ++ (gap ++ rest))
    (hs : s.stop = .behind before) (hs' : s'.start = .behind (before ++ gap)) :
    s.Precedes source s' := by
  constructor
  · rw [hs, hs']
    simp [Position.behind]
  · rw [hs, hs', bytesBetween_behind hsource]
    refine h.imp fun hrest => ?_
    rw [hsource, hrest, List.append_nil]
    rfl

/-- **Tokens tile the text** from the place on where the tokenizer starts. -/
theorem tokenize_tiles (before text : List UInt8) (tokens : List Token)
    (h : tokenize before text = .ok tokens) (hsource : source = before ++ text) :
    ∃ marks, tokens = marks ++ [⟨.eof, .behind source, .behind source⟩] ∧
      (∀ t ∈ marks, t.Fits source) ∧
      ∀ s : Span, s.stop = .behind before →
        (s :: tokens.map Token.span).IsChain (Span.Precedes source) := by
  induction before, text using tokenize_induction generalizing tokens with
  | hend before gap hgap =>
    cases h
    refine ⟨[], by rw [hsource]; rfl, fun t ht => absurd ht List.not_mem_nil, fun s hs => ?_⟩
    rw [← List.append_nil gap] at hsource
    have hseparation : Separation ([] = ([] : List UInt8)) gap := hgap.imp fun _ => rfl
    exact .cons_cons (hseparation.precedes hsource hs rfl) (.singleton _)
  | herror => cases h
  | htoken before gap bytes after lexeme result hgap _ htoken ih =>
    cases result with
    | error e => cases h
    | ok tokens' =>
      cases h
      have hbytes : source = (before ++ gap) ++ (bytes ++ after) := by
        rw [hsource, List.append_assoc]
      have hspells := (spells_of_tokenAt htoken).1
      have hpos := List.length_pos_iff.mpr (ne_nil_of_tokenAt htoken)
      obtain ⟨marks, rfl, hfits, hchain⟩ := ih tokens' rfl (by rw [hbytes, ← List.append_assoc])
      have hfit : (⟨lexeme, .behind (before ++ gap), .behind (before ++ gap ++ bytes)⟩ :
          Token).Fits source := by
        refine ⟨hspells.ne_eof, ?_, by rwa [bytesBetween_behind hbytes]⟩
        show ((before ++ gap).length : Int) < ((before ++ gap ++ bytes).length : Int)
        simp only [List.length_append]
        omega
      have hseparation : Separation (bytes ++ after = []) gap := hgap.imp False.elim
      refine ⟨_ :: marks, rfl, List.forall_mem_cons.mpr ⟨hfit, hfits⟩, fun s hs => ?_⟩
      exact .cons_cons (hseparation.precedes hsource hs rfl) (hchain _ rfl)

/-- **Spans tile the text, and positions are exact.**  The tokens of a text are spelt in its spans,
one behind the other with nothing but blanks and comments between them, up to the end marker at the
end of the text.  And whichever call of the scanner it is, what it reports carries the line and the
column that its offset has in the text. -/
theorem scan_tiles (source : List UInt8) :
    (∀ tokens, scan source = .ok tokens →
      ∃ marks, tokens = marks ++ [⟨.eof, .behind source, .behind source⟩] ∧
        (∀ t ∈ marks, t.Fits source) ∧
        (⟨.start, .start⟩ :: tokens.map Token.span).IsChain (Span.Precedes source)) ∧
    ∀ calls,
      (∀ t, (Scanner.after source calls).next.1 = .ok t →
        t.span.start.Exact source ∧ t.span.stop.Exact source) ∧
      ∀ e, (Scanner.after source calls).next.1 = .error e → e.position.Exact source := by
  constructor
  · intro tokens htokens
    have htokenize : tokenize [] source = .ok tokens :=
      (Scanner.scan_behind [] source).symm.trans htokens
    obtain ⟨marks, hmarks, hfits, hchain⟩ := tokenize_tiles [] source tokens htokenize rfl
    exact ⟨marks, hmarks, hfits, hchain ⟨.start, .start⟩ rfl⟩
  · intro calls
    have hstands := Scanner.standsIn_after source calls
    rcases hstands.exists_next with ⟨t, s', hnext, hoccurs, -⟩ | ⟨e, s', hnext, hoccurs, -⟩
    · rw [hnext]
      refine ⟨fun t' ht' => ?_, fun e he => (by cases he)⟩
      cases ht'
      exact hoccurs.exact
    · rw [hnext]
      refine ⟨fun t ht => (by cases ht), fun e' he' => ?_⟩
      cases he'
      exact hoccurs.exact

/-- A name and an operator of three bytes, with a comment between them that holds a character of two
bytes; and a character that begins no token, behind such an operator and asked for again. -/
theorem scan_tiles_commented :
    (∃ marks, scan (encoded ['x', '/', '/', 'é', '\n', '≥']) =
        .ok (marks ++ [⟨.eof, ⟨2, 2, 9⟩, ⟨2, 2, 9⟩⟩]) ∧ marks.length = 2 ∧
      ∀ t ∈ marks, t.Fits (encoded ['x', '/', '/', 'é', '\n', '≥'])) ∧
    (Scanner.after (encoded ['≤', ' ', '?']) 2).next.1 = .error ⟨⟨1, 3, 4⟩, .unexpected '?'⟩ ∧
      (⟨1, 3, 4⟩ : Position).Exact (encoded ['≤', ' ', '?']) := by
  have hname : Scanner.next ⟨.start, encoded ['x', '/', '/', 'é', '\n', '≥']⟩ =
      (.ok ⟨.ident "x", ⟨1, 1, 0⟩, ⟨1, 2, 1⟩⟩,
        ⟨⟨1, 2, 1⟩, encoded ['/', '/', 'é', '\n', '≥']⟩) := by rfl
  have hoperator : Scanner.next ⟨⟨1, 2, 1⟩, encoded ['/', '/', 'é', '\n', '≥']⟩ =
      (.ok ⟨.op '≥', ⟨2, 1, 6⟩, ⟨2, 2, 9⟩⟩, ⟨⟨2, 2, 9⟩, []⟩) := by rfl
  have hend : Scanner.next ⟨⟨2, 2, 9⟩, []⟩ =
      (.ok ⟨.eof, ⟨2, 2, 9⟩, ⟨2, 2, 9⟩⟩, ⟨⟨2, 2, 9⟩, []⟩) := by rfl
  have hscan : scan (encoded ['x', '/', '/', 'é', '\n', '≥']) =
      .ok ([⟨.ident "x", ⟨1, 1, 0⟩, ⟨1, 2, 1⟩⟩, ⟨.op '≥', ⟨2, 1, 6⟩, ⟨2, 2, 9⟩⟩] ++
        [⟨.eof, ⟨2, 2, 9⟩, ⟨2, 2, 9⟩⟩]) := by
    unfold scan Scanner.ofSource
    rw [Scanner.scan_of_next_ok hname, if_neg nofun, Scanner.scan_of_next_ok hoperator,
      if_neg nofun, Scanner.scan_of_next_ok hend, if_pos rfl]
    rfl
  obtain ⟨marks, hmarks, hfits, -⟩ := (scan_tiles _).1 _ hscan
  obtain ⟨rfl, -⟩ := List.append_inj' hmarks rfl
  have herror : (Scanner.after (encoded ['≤', ' ', '?']) 2).next.1 =
      .error ⟨⟨1, 3, 4⟩, .unexpected '?'⟩ := by rfl
  exact ⟨⟨_, hscan, rfl, hfits⟩, herror, ((scan_tiles _).2 2).2 _ herror⟩

end BlockFlow
