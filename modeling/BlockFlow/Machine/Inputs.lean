/-!
# Inputs

The inputs of a run give some variables a value before control enters the graph.  They are kept in
the increasing order of the names, each name once, which is also the order in which a run takes
them.
-/

namespace BlockFlow

/-- Values for names, in the increasing order of the names. -/
structure Inputs where
  /-- The names and their values. -/
  entries : List (String × Int64) := []
  /-- The names increase. -/
  increasing : entries.Pairwise (fun a b => a.1 < b.1) := by exact List.Pairwise.nil
deriving DecidableEq

namespace Inputs

/-- No values. -/
def empty : Inputs where

instance : Inhabited Inputs := ⟨empty⟩

/-- Puts a value for a name into its place, in place of an earlier one for the same name. -/
def insertEntry (name : String) (value : Int64) : List (String × Int64) → List (String × Int64)
  | [] => [(name, value)]
  | entry :: rest =>
    if name < entry.1 then (name, value) :: entry :: rest
    else if name = entry.1 then (name, value) :: rest
    else entry :: insertEntry name value rest

theorem mem_insertEntry {name : String} {value : Int64} {entries : List (String × Int64)}
    {e : String × Int64} (h : e ∈ insertEntry name value entries) :
    e = (name, value) ∨ e ∈ entries := by
  induction entries with
  | nil => simpa [insertEntry] using h
  | cons entry rest ih =>
    unfold insertEntry at h
    split at h
    · simpa using h
    · split at h
      · rcases List.mem_cons.1 h with h | h
        · exact .inl h
        · exact .inr (List.mem_cons_of_mem _ h)
      · rcases List.mem_cons.1 h with h | h
        · exact .inr (h ▸ List.mem_cons_self ..)
        · exact (ih h).imp_right (List.mem_cons_of_mem _)

theorem pairwise_insertEntry (name : String) (value : Int64) {entries : List (String × Int64)}
    (h : entries.Pairwise (fun a b => a.1 < b.1)) :
    (insertEntry name value entries).Pairwise (fun a b => a.1 < b.1) := by
  induction entries with
  | nil => simp [insertEntry]
  | cons entry rest ih =>
    obtain ⟨hfirst, hrest⟩ := List.pairwise_cons.1 h
    unfold insertEntry
    split
    · rename_i hlt
      refine List.pairwise_cons.2 ⟨fun e he => ?_, h⟩
      rcases List.mem_cons.1 he with rfl | he
      · exact hlt
      · exact String.lt_trans hlt (hfirst e he)
    · split
      · rename_i heq
        refine List.pairwise_cons.2 ⟨fun e he => ?_, hrest⟩
        have := hfirst e he
        simpa [heq] using this
      · rename_i hnlt hne
        refine List.pairwise_cons.2 ⟨fun e he => ?_, ih hrest⟩
        rcases mem_insertEntry he with rfl | he
        · show entry.1 < name
          grind
        · exact hfirst e he

/-- The inputs with a value for one more name, which replaces an earlier one. -/
def insert (inputs : Inputs) (name : String) (value : Int64) : Inputs where
  entries := insertEntry name value inputs.entries
  increasing := pairwise_insertEntry name value inputs.increasing

/-- The inputs of a list of names and values, of which a later one replaces an earlier one. -/
def ofList (entries : List (String × Int64)) : Inputs :=
  entries.foldl (fun inputs entry => inputs.insert entry.1 entry.2) empty

/-- The inputs with the values of others put in, which replace earlier ones. -/
def update (inputs others : Inputs) : Inputs :=
  others.entries.foldl (fun inputs entry => inputs.insert entry.1 entry.2) inputs

/-- The value for a name. -/
def get? (inputs : Inputs) (name : String) : Option Int64 :=
  inputs.entries.lookup name

end Inputs

end BlockFlow
