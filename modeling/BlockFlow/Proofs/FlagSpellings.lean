import BlockFlow.Command.Basic

/-!
# Two spellings of a flag

A flag with a value has it behind an equality sign or in the next argument.  The two spellings mean
the same (`Flags.spelt_alike`): whatever the value is, and whatever stands in front of the flag and
behind it, as long as the arguments in front are flags and their values to the last.

What stands in front is described by `Flags.Consumes`, one flag at a time (`Flags.Takes`).  It holds
of arguments exactly if reading goes on behind them, whatever follows (`Flags.consumes_iff`).
-/

namespace BlockFlow

/-- A text is cut at the character behind a stretch that is free of it. -/
theorem Text.cut_append {separator : Char} {before : List Char} (h : separator ∉ before)
    (after : List Char) :
    cut separator (before ++ separator :: after) = some (before, after) := by
  induction before with
  | nil => simp [cut]
  | cons c before ih =>
    rw [List.mem_cons, not_or] at h
    obtain ⟨hc, hbefore⟩ := h
    rw [List.cons_append, cut, if_neg (by simpa using Ne.symm hc), ih hbefore]
    rfl

namespace Flags

/-! ### One flag -/

/-- The arguments are a flag, with its value if it has one, and what the flags say becomes what they
say with it. -/
inductive Takes (flags : Flags) : List String → Flags → Prop where
  /-- The value stands behind an equality sign. -/
  | joined {argument : String} {name value : List Char} {flags' : Flags} (hflag : isFlag argument)
      (hend : argument ≠ "--") (hcut : Text.cut '=' argument.toList = some (name, value))
      (hset : flags.set (String.ofList name) (String.ofList value) argument = .ok flags') :
      Takes flags [argument] flags'
  /-- The value is the next argument. -/
  | apart {argument value : String} {flags' : Flags} (hvalue : argument ∈ valueFlags)
      (hset : flags.set argument value argument = .ok flags') :
      Takes flags [argument, value] flags'
  /-- There is no value. -/
  | alone {argument : String} {flags' : Flags} (hflag : isFlag argument) (hend : argument ≠ "--")
      (hcut : Text.cut '=' argument.toList = none) (hvalue : argument ∉ valueFlags)
      (hset : flags.set argument "" argument = .ok flags') : Takes flags [argument] flags'

/-- The arguments are flags with their values, to the last, and reading them neither stops nor
fails. -/
inductive Consumes : Flags → List String → Flags → Prop where
  | nil (flags : Flags) : Consumes flags [] flags
  | cons {flags flags₁ flags₂ : Flags} {front rest : List String} (first : Takes flags front flags₁)
      (others : Consumes flags₁ rest flags₂) : Consumes flags (front ++ rest) flags₂

variable {flags flags' : Flags} {argument name value : String} {rest : List String}

/-- A flag that has a value is a dash and a character that is none, and goes on without an equality
sign. -/
theorem exists_of_mem_valueFlags (h : name ∈ valueFlags) :
    ∃ c more, name.toList = '-' :: c :: more ∧ c ≠ '-' ∧ '=' ∉ '-' :: c :: more := by
  simp only [valueFlags, List.mem_cons, List.not_mem_nil, or_false] at h
  rcases h with rfl | rfl | rfl | rfl | rfl | rfl
  all_goals exact ⟨_, _, rfl, by decide, by decide⟩

/-- What begins like a flag that has a value is a flag, and does not end the flags. -/
theorem isFlag_of_toList {c : Char} {more : List Char} (h : argument.toList = '-' :: c :: more)
    (hc : c ≠ '-') : isFlag argument = true ∧ argument ≠ "--" := by
  constructor
  · rw [isFlag, h]
    have hne : argument ≠ "-" := by
      rintro rfl
      cases h
    simpa using hne
  · rintro rfl
    cases h
    exact hc rfl

theorem cut_of_mem_valueFlags (h : name ∈ valueFlags) : Text.cut '=' name.toList = none := by
  simp only [valueFlags, List.mem_cons, List.not_mem_nil, or_false] at h
  rcases h with rfl | rfl | rfl | rfl | rfl | rfl
  all_goals rfl

/-- A flag that is known by its name is set the same however it was written. -/
theorem set_of_mem_valueFlags (h : name ∈ valueFlags) (flags : Flags)
    (value argument argument' : String) :
    flags.set name value argument = flags.set name value argument' := by
  simp only [valueFlags, List.mem_cons, List.not_mem_nil, or_false] at h
  rcases h with rfl | rfl | rfl | rfl | rfl | rfl
  all_goals rfl

/-! ### Reading -/

/-- A flag with its value behind an equality sign. -/
theorem read_joined {name value : List Char} (hflag : isFlag argument = true)
    (hend : argument ≠ "--") (hcut : Text.cut '=' argument.toList = some (name, value))
    (flags : Flags) (rest : List String) :
    flags.read (argument :: rest) = (do
      let flags ← flags.set (String.ofList name) (String.ofList value) argument
      flags.read rest) := by
  rw [read.eq_def]
  simp only [hend, hflag, hcut]
  rfl

/-- A flag with its value in the next argument. -/
theorem read_apart (h : name ∈ valueFlags) (flags : Flags) (value : String) (rest : List String) :
    flags.read (name :: value :: rest) = (do
      let flags ← flags.set name value name
      flags.read rest) := by
  obtain ⟨c, more, hname, hc, -⟩ := exists_of_mem_valueFlags h
  obtain ⟨hflag, hend⟩ := isFlag_of_toList hname hc
  rw [read, if_neg hend, hflag, cut_of_mem_valueFlags h]
  simp only [h]
  rfl

/-- A flag without a value. -/
theorem read_alone (hflag : isFlag argument = true) (hend : argument ≠ "--")
    (hcut : Text.cut '=' argument.toList = none) (hvalue : argument ∉ valueFlags) (flags : Flags)
    (rest : List String) :
    flags.read (argument :: rest) = (do
      let flags ← flags.set argument "" argument
      flags.read rest) := by
  rw [read.eq_def]
  simp only [hend, hflag, hcut, hvalue]
  rfl

/-- Where the flags end, the rest is files. -/
theorem exists_read_eq_ok (h : argument = "--" ∨ isFlag argument = false) (flags : Flags)
    (rest : List String) : ∃ files, flags.read (argument :: rest) = .ok (flags, files) := by
  rw [read.eq_def]
  rcases h with rfl | hflag
  · exact ⟨rest, rfl⟩
  · by_cases hend : argument = "--"
    · exact ⟨rest, by simp [hend]⟩
    · exact ⟨argument :: rest, by simp [hend, hflag]⟩

/-- **One flag is read, and reading goes on behind it.** -/
theorem Takes.read_append {front : List String} (h : Takes flags front flags')
    (rest : List String) : flags.read (front ++ rest) = flags'.read rest := by
  cases h with
  | joined hflag hend hcut hset =>
    show flags.read (_ :: rest) = _
    rw [read_joined hflag hend hcut, hset]
    rfl
  | apart hvalue hset =>
    show flags.read (_ :: _ :: rest) = _
    rw [read_apart hvalue, hset]
    rfl
  | alone hflag hend hcut hvalue hset =>
    show flags.read (_ :: rest) = _
    rw [read_alone hflag hend hcut hvalue, hset]
    rfl

/-- **Flags are read, and reading goes on behind the last of them.** -/
theorem Consumes.read_append {front : List String} (h : Consumes flags front flags')
    (rest : List String) : flags.read (front ++ rest) = flags'.read rest := by
  induction h with
  | nil => rfl
  | cons first _ ih => rw [List.append_assoc, first.read_append, ih]

/-- Where reading goes on behind a flag and some arguments more, the flag was accepted, and reading
goes on behind those. -/
theorem exists_of_bind_read {accepted : Except EarlyExit Flags} {more : List String}
    (h : ∀ rest, (accepted >>= (·.read (more ++ rest))) = flags'.read rest) :
    ∃ flags₁, accepted = .ok flags₁ ∧ ∀ rest, flags₁.read (more ++ rest) = flags'.read rest := by
  cases accepted with
  | error e => cases h []
  | ok flags₁ => exact ⟨flags₁, rfl, h⟩

/-- Arguments behind which reading goes on, whatever follows, are flags with their values. -/
theorem consumes_of_read (arguments : List String) (flags : Flags)
    (h : ∀ rest, flags.read (arguments ++ rest) = flags'.read rest) :
    Consumes flags arguments flags' := by
  match arguments, h with
  | [], h =>
    obtain rfl : flags = flags' := congrArg Prod.fst (Except.ok.inj (h []))
    exact .nil flags
  | argument :: more, h =>
    have hstep : ∀ rest, flags.read (argument :: (more ++ rest)) = flags'.read rest := h
    -- If the flags ended here, a request for help behind the arguments would not be seen.
    have hgoes : ¬ (argument = "--" ∨ isFlag argument = false) := by
      intro hstop
      obtain ⟨files, hread⟩ := exists_read_eq_ok hstop flags (more ++ ["-h"])
      rw [hstep] at hread
      cases hread
    rw [not_or, Bool.not_eq_false] at hgoes
    obtain ⟨hend, hflag⟩ := hgoes
    cases hcut : Text.cut '=' argument.toList with
    | some cut =>
      obtain ⟨name, value⟩ := cut
      simp only [read_joined hflag hend hcut] at hstep
      obtain ⟨flags₁, hset, hmore⟩ := exists_of_bind_read hstep
      exact .cons (.joined hflag hend hcut hset) (consumes_of_read more flags₁ hmore)
    | none =>
      by_cases hvalue : argument ∈ valueFlags
      · match more, hstep with
        | [], hstep =>
          have hmissing := hstep []
          rw [read.eq_def] at hmissing
          simp [hend, hflag, hcut, hvalue, read] at hmissing
        | value :: more, hstep =>
          simp only [List.cons_append, read_apart hvalue] at hstep
          obtain ⟨flags₁, hset, hmore⟩ := exists_of_bind_read hstep
          exact .cons (.apart hvalue hset) (consumes_of_read more flags₁ hmore)
      · simp only [read_alone hflag hend hcut hvalue] at hstep
        obtain ⟨flags₁, hset, hmore⟩ := exists_of_bind_read hstep
        exact .cons (.alone hflag hend hcut hvalue hset) (consumes_of_read more flags₁ hmore)
termination_by arguments.length

/-- **Flags with their values are what reading goes on behind.** -/
theorem consumes_iff {arguments : List String} : Consumes flags arguments flags' ↔
    ∀ rest, flags.read (arguments ++ rest) = flags'.read rest :=
  ⟨Consumes.read_append, consumes_of_read arguments flags⟩

/-- **Both spellings set the flag,** and reading goes on behind it. -/
theorem read_spellings (h : name ∈ valueFlags) (flags : Flags) (value : String)
    (rest : List String) :
    flags.read (name :: value :: rest) = (flags.set name value name >>= (·.read rest)) ∧
    flags.read ((name ++ "=" ++ value) :: rest) =
      (flags.set name value name >>= (·.read rest)) := by
  refine ⟨read_apart h flags value rest, ?_⟩
  obtain ⟨c, more, hname, hc, hfree⟩ := exists_of_mem_valueFlags h
  have hlist : (name ++ "=" ++ value).toList = '-' :: c :: (more ++ '=' :: value.toList) := by
    rw [String.toList_append, String.toList_append, hname]
    simp
  obtain ⟨hflag, hend⟩ := isFlag_of_toList hlist hc
  have hcut : Text.cut '=' (name ++ "=" ++ value).toList = some (name.toList, value.toList) := by
    rw [hlist, hname]
    exact Text.cut_append hfree value.toList
  rw [read_joined hflag hend hcut, String.ofList_toList, String.ofList_toList,
    set_of_mem_valueFlags h flags value _ name]

/-- **Both spellings of a flag mean the same.**  Arguments are flags with their values, to the last,
exactly if reading goes on behind them, whatever follows.  Behind such arguments, a flag that has a
value is read the same whether the value is the next argument or stands behind an equality sign,
whatever the value is and whatever follows.  The flags then say the same and the same files are
left, or reading ends early in the same way; and so the command does the same, to the last character
that it prints. -/
theorem spelt_alike (before : List String) (flags : Flags) :
    (Consumes {} before flags ↔ ∀ rest, ofArguments (before ++ rest) = flags.read rest) ∧
    (Consumes {} before flags →
      ∀ name ∈ ["-mode", "-config", "-batch", "-set", "-steps", "-j"],
      ∀ (value : String) (after : List String),
        ofArguments (before ++ [name, value] ++ after) =
          ofArguments (before ++ [name ++ "=" ++ value] ++ after) ∧
        ofArguments (before ++ [name, value] ++ after) =
          (flags.set name value name >>= (·.read after)) ∧
        ∀ env, Command.run env (before ++ [name, value] ++ after) =
          Command.run env (before ++ [name ++ "=" ++ value] ++ after)) := by
  refine ⟨consumes_iff, fun hbefore name hname value after => ?_⟩
  have hfront := consumes_iff.mp hbefore
  obtain ⟨hapart, hjoined⟩ := read_spellings hname flags value after
  have hread : ofArguments (before ++ [name, value] ++ after) =
      (flags.set name value name >>= (·.read after)) := by
    rw [List.append_assoc]
    exact (hfront _).trans hapart
  have hread' : ofArguments (before ++ [name ++ "=" ++ value] ++ after) =
      (flags.set name value name >>= (·.read after)) := by
    rw [List.append_assoc]
    exact (hfront _).trans hjoined
  have halike := hread.trans hread'.symm
  refine ⟨halike, hread, fun env => ?_⟩
  rw [Command.run, Command.run, halike]

/-- A value that looks like the end of the flags and holds an equality sign, behind flags of all
kinds; and one that is refused. -/
theorem spelt_alike_dashes :
    Consumes {} ["-O", "-set=x=1", "-mode", "-"]
      { optimize := true, sets := ["x=1"], mode := "-" } ∧
    ofArguments ["-O", "-set=x=1", "-mode", "-", "-set", "--=", "-", "-O"] =
      ofArguments ["-O", "-set=x=1", "-mode", "-", "-set=--=", "-", "-O"] ∧
    ofArguments ["-O", "-set=x=1", "-mode", "-", "-set", "--=", "-", "-O"] =
      .ok ({ optimize := true, sets := ["x=1", "--="], mode := "-" }, ["-", "-O"]) ∧
    ofArguments ["-O", "-set=x=1", "-mode", "-", "-steps", "-h", "-h"] =
      ofArguments ["-O", "-set=x=1", "-mode", "-", "-steps=-h", "-h"] ∧
    ofArguments ["-O", "-set=x=1", "-mode", "-", "-steps", "-h", "-h"] =
      .error (.refused (.badSteps "-h")) := by
  have hbefore : Consumes {} (["-O"] ++ (["-set=x=1"] ++ (["-mode", "-"] ++ [])))
      { optimize := true, sets := ["x=1"], mode := "-" } :=
    .cons (.alone (by decide) (by decide) (by decide) (by decide) rfl)
      (.cons (.joined (by decide) (by decide) (show _ = some (_, _) from rfl) rfl)
        (.cons (.apart (by decide) rfl) (.nil _)))
  obtain ⟨-, halike⟩ := spelt_alike _ _
  obtain ⟨hsame, hread, -⟩ := halike hbefore "-set" (by decide) "--=" ["-", "-O"]
  obtain ⟨hsame', hread', -⟩ := halike hbefore "-steps" (by decide) "-h" ["-h"]
  exact ⟨hbefore, hsame, hread, hsame', hread'⟩

end Flags

end BlockFlow
