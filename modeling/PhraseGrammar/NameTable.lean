import PhraseGrammar.Bytes

/-!
# Tables by name

A table is a list of names with values, names strictly ascending in byte order.
Reading one entry is `List.lookup`.
-/

set_option autoImplicit false

namespace PhraseGrammar

/-- Names with their values, names ascending in byte order. -/
abbrev NameTable (α : Type) := List (Bytes × α)

namespace NameTable

variable {α : Type}

/-- Sets the value of a name. -/
def insert (name : Bytes) (value : α) : NameTable α → NameTable α
  | [] => [(name, value)]
  | (n, v) :: rest =>
    if name < n then (name, value) :: (n, v) :: rest
    else if name = n then (name, value) :: rest
    else (n, v) :: insert name value rest

/-- The table of the given entries. Of two entries for one name the later counts. -/
def ofList (entries : List (Bytes × α)) : NameTable α :=
  entries.foldl (fun table entry => insert entry.1 entry.2 table) []

/-- Setting the value of one name leaves the values of all others. -/
theorem lookup_insert (name other : Bytes) (value : α) (table : NameTable α) :
    (insert name value table).lookup other =
      if other = name then some value else table.lookup other := by
  induction table with
  | nil =>
    by_cases h : other = name
    · simp [insert, h]
    · simp [insert, List.lookup_cons, beq_eq_false_iff_ne.2 h, h]
  | cons entry rest ih =>
    obtain ⟨n, v⟩ := entry
    unfold insert
    split
    · by_cases h : other = name
      · simp [h]
      · simp [List.lookup_cons, beq_eq_false_iff_ne.2 h, h]
    · split
      · next _ hn =>
        subst hn
        by_cases h : other = name
        · simp [h]
        · simp [List.lookup_cons, beq_eq_false_iff_ne.2 h, h]
      · next _ hn =>
        by_cases h : other = n
        · subst h
          simp [Ne.symm hn]
        · simp [List.lookup_cons, beq_eq_false_iff_ne.2 h, ih]

end NameTable

end PhraseGrammar
