import PhraseGrammar.NameTable

/-!
# Sorted tables and grouping

A table with strictly ascending names is determined by what is read from it. So
two ways to compute a table are compared name by name, with no regard to the
order in which the entries were added.

Grouping collects the values that a list of entries has for each name. The
declarations of a rule and the slots of a match are groupings of the entries of
its components, one component after the other.
-/

set_option autoImplicit false

namespace PhraseGrammar

namespace NameTable

variable {α β : Type}

/-- Names are strictly ascending in byte order. -/
def Sorted (table : NameTable α) : Prop :=
  table.Pairwise fun a b => a.1 < b.1

theorem Sorted.tail {entry : Bytes × α} {rest : NameTable α} (h : Sorted (entry :: rest)) :
    Sorted rest :=
  (List.pairwise_cons.1 h).2

theorem Sorted.map {table : NameTable α} (h : table.Sorted) (f : Bytes × α → β) :
    Sorted (table.map fun entry => (entry.1, f entry)) :=
  List.Pairwise.map _ (fun _ _ hlt => hlt) h

theorem lookup_cons {κ : Type} [BEq κ] [LawfulBEq κ] [DecidableEq κ] (key : κ) (entry : κ × α)
    (rest : List (κ × α)) :
    List.lookup key (entry :: rest) = if key = entry.1 then some entry.2 else rest.lookup key := by
  obtain ⟨other, value⟩ := entry
  rw [List.lookup_cons]
  by_cases h : key = other
  · simp [h]
  · simp [beq_eq_false_iff_ne.2 h, h]

theorem mem_of_lookup {name : Bytes} {value : α} {table : List (Bytes × α)}
    (h : table.lookup name = some value) : (name, value) ∈ table := by
  induction table with
  | nil => simp at h
  | cons entry rest ih =>
    rw [lookup_cons] at h
    split at h
    · next heq =>
      cases h
      exact heq ▸ List.mem_cons_self
    · exact List.mem_cons_of_mem _ (ih h)

theorem lookup_map (f : Bytes × α → β) (name : Bytes) (table : List (Bytes × α)) :
    (table.map fun entry => (entry.1, f entry)).lookup name =
      (table.lookup name).map fun value => f (name, value) := by
  induction table with
  | nil => rfl
  | cons entry rest ih =>
    rw [List.map_cons, lookup_cons, lookup_cons, ih]
    split
    · next h => rw [h]; rfl
    · rfl

/-- Names before all names of a table are not in it. -/
theorem lookup_eq_none_of_lt {name : Bytes} {table : NameTable α}
    (h : ∀ entry ∈ table, name < entry.1) : table.lookup name = none := by
  cases hfound : table.lookup name with
  | none => rfl
  | some value => exact absurd (h _ (mem_of_lookup hfound)) (List.lt_irrefl name)

/-- The first name of a sorted table does not come again. -/
theorem Sorted.ne_of_mem_tail {entry other : Bytes × α} {rest : NameTable α}
    (h : Sorted (entry :: rest)) (hmem : other ∈ rest) : other.1 ≠ entry.1 := by
  intro heq
  have hlt : entry.1 < other.1 := (List.pairwise_cons.1 h).1 other hmem
  rw [heq] at hlt
  exact List.lt_irrefl _ hlt

/-- In a sorted table every entry is found under its name. -/
theorem Sorted.lookup_of_mem {table : NameTable α} (h : table.Sorted) {entry : Bytes × α}
    (hmem : entry ∈ table) : table.lookup entry.1 = some entry.2 := by
  induction table with
  | nil => simp at hmem
  | cons head rest ih =>
    rw [lookup_cons]
    rcases List.mem_cons.1 hmem with rfl | hrest
    · simp
    · rw [if_neg (h.ne_of_mem_tail hrest), ih h.tail hrest]

/-- Sorted tables from which the same is read are equal. -/
theorem Sorted.ext {a b : NameTable α} (ha : a.Sorted) (hb : b.Sorted)
    (h : ∀ name, a.lookup name = b.lookup name) : a = b := by
  induction a generalizing b with
  | nil =>
    cases b with
    | nil => rfl
    | cons entry rest =>
      have hname := h entry.1
      rw [lookup_cons, if_pos rfl] at hname
      cases hname
  | cons first as ih =>
    cases b with
    | nil =>
      have hname := h first.1
      rw [lookup_cons, if_pos rfl] at hname
      cases hname
    | cons second bs =>
      -- Neither first name can come before the other: it would be missing in the other table.
      have hleft : ¬ first.1 < second.1 := by
        intro hlt
        have hnone : (second :: bs).lookup first.1 = none := by
          refine lookup_eq_none_of_lt fun entry hmem => ?_
          rcases List.mem_cons.1 hmem with rfl | hrest
          · exact hlt
          · exact List.lt_trans hlt ((List.pairwise_cons.1 hb).1 entry hrest)
        have hname := h first.1
        rw [hnone, lookup_cons, if_pos rfl] at hname
        cases hname
      have hright : ¬ second.1 < first.1 := by
        intro hlt
        have hnone : (first :: as).lookup second.1 = none := by
          refine lookup_eq_none_of_lt fun entry hmem => ?_
          rcases List.mem_cons.1 hmem with rfl | hrest
          · exact hlt
          · exact List.lt_trans hlt ((List.pairwise_cons.1 ha).1 entry hrest)
        have hname := h second.1
        rw [hnone, lookup_cons, if_pos rfl] at hname
        cases hname
      have hnames : first.1 = second.1 := List.le_antisymm hright hleft
      have hvalues : first.2 = second.2 := by
        have hname := h first.1
        rw [lookup_cons, if_pos rfl, lookup_cons, if_pos hnames] at hname
        exact Option.some.inj hname
      have hrest : as = bs := by
        refine ih ha.tail hb.tail fun name => ?_
        by_cases heq : name = first.1
        · rw [heq, lookup_eq_none_of_lt (List.pairwise_cons.1 ha).1, hnames,
            lookup_eq_none_of_lt (List.pairwise_cons.1 hb).1]
        · have hname := h name
          rwa [lookup_cons, lookup_cons, if_neg heq, if_neg (hnames ▸ heq)] at hname
      rw [hrest, Prod.ext hnames hvalues]

theorem mem_insert {name : Bytes} {value : α} {table : NameTable α} {entry : Bytes × α}
    (h : entry ∈ insert name value table) : entry = (name, value) ∨ entry ∈ table := by
  induction table with
  | nil => exact .inl (List.mem_singleton.1 h)
  | cons head rest ih =>
    unfold insert at h
    split at h
    · exact List.mem_cons.1 h
    · split at h
      · exact (List.mem_cons.1 h).imp id (List.mem_cons_of_mem _)
      · rcases List.mem_cons.1 h with rfl | hrest
        · exact .inr List.mem_cons_self
        · exact (ih hrest).imp id (List.mem_cons_of_mem _)

/-- A table stays sorted after an insertion. -/
theorem Sorted.insert {table : NameTable α} (h : table.Sorted) (name : Bytes) (value : α) :
    (NameTable.insert name value table).Sorted := by
  induction table with
  | nil => exact List.pairwise_singleton _ _
  | cons head rest ih =>
    have hhead := (List.pairwise_cons.1 h).1
    unfold NameTable.insert
    split
    · next hlt =>
      refine List.pairwise_cons.2 ⟨fun entry hmem => ?_, h⟩
      rcases List.mem_cons.1 hmem with rfl | hrest
      · exact hlt
      · exact List.lt_trans hlt (hhead entry hrest)
    · split
      · next heq => exact List.pairwise_cons.2 ⟨fun entry hmem => heq ▸ hhead entry hmem, h.tail⟩
      · next hge hne =>
        have hlt : head.1 < name := Std.lt_of_le_of_ne hge (Ne.symm hne)
        refine List.pairwise_cons.2 ⟨fun entry hmem => ?_, ih h.tail⟩
        rcases mem_insert hmem with rfl | hrest
        · exact hlt
        · exact hhead entry hrest

/-- The values of a name among some entries, in their order. -/
def valuesOf (name : Bytes) (entries : List (Bytes × α)) : List α :=
  (entries.filter fun entry => entry.1 == name).map Prod.snd

/-- The table of all values of each name among some entries. -/
def group (entries : List (Bytes × α)) : NameTable (List α) :=
  entries.foldl
    (fun table entry => insert entry.1 ((table.lookup entry.1).getD [] ++ [entry.2]) table) []

@[simp] theorem valuesOf_append (name : Bytes) (as bs : List (Bytes × α)) :
    valuesOf name (as ++ bs) = valuesOf name as ++ valuesOf name bs := by
  simp [valuesOf]

theorem mem_valuesOf {name : Bytes} {value : α} {entries : List (Bytes × α)} :
    value ∈ valuesOf name entries ↔ (name, value) ∈ entries := by
  simp only [valuesOf, List.mem_map, List.mem_filter, beq_iff_eq]
  constructor
  · rintro ⟨entry, ⟨hmem, rfl⟩, rfl⟩
    exact hmem
  · intro hmem
    exact ⟨(name, value), ⟨hmem, rfl⟩, rfl⟩

theorem valuesOf_map (name : Bytes) (f : α → β) (entries : List (Bytes × α)) :
    valuesOf name (entries.map fun entry => (entry.1, f entry.2)) =
      (valuesOf name entries).map f := by
  simp [valuesOf, List.filter_map, Function.comp_def]

/-- How many values a name has depends on the names only. -/
theorem length_valuesOf (name : Bytes) (entries : List (Bytes × α)) :
    (valuesOf name entries).length = (entries.map Prod.fst).count name := by
  simp [valuesOf, List.count, List.countP_map, ← List.countP_eq_length_filter, Function.comp_def]

/-- Entries with the same names have equally many values for each. -/
theorem length_valuesOf_congr {as : List (Bytes × α)} {bs : List (Bytes × β)}
    (h : as.map Prod.fst = bs.map Prod.fst) (name : Bytes) :
    (valuesOf name as).length = (valuesOf name bs).length := by
  rw [length_valuesOf, length_valuesOf, h]

/-- One more entry is added to the values under its name. -/
theorem group_concat (entries : List (Bytes × α)) (name : Bytes) (value : α) :
    group (entries ++ [(name, value)]) =
      insert name (((group entries).lookup name).getD [] ++ [value]) (group entries) := by
  simp [group]

theorem sorted_group (entries : List (Bytes × α)) : (group entries).Sorted := by
  rw [group, ← List.foldr_reverse]
  induction entries.reverse with
  | nil => exact List.Pairwise.nil
  | cons entry rest ih => exact ih.insert _ _

/-- The grouped values of a name, or nothing if it has none. -/
theorem lookup_group (name : Bytes) (entries : List (Bytes × α)) :
    (group entries).lookup name =
      if valuesOf name entries = [] then none else some (valuesOf name entries) := by
  suffices h : ∀ reversed : List (Bytes × α), (group reversed.reverse).lookup name =
      if valuesOf name reversed.reverse = [] then none
      else some (valuesOf name reversed.reverse) by
    simpa using h entries.reverse
  intro reversed
  induction reversed with
  | nil => simp [group, valuesOf]
  | cons entry rest ih =>
    rw [List.reverse_cons, group_concat, lookup_insert, valuesOf_append]
    by_cases h : name = entry.1
    · have hlast : valuesOf name [entry] = [entry.2] := by
        simp [valuesOf, h]
      have hne : valuesOf name rest.reverse ++ [entry.2] ≠ [] := by simp
      rw [if_pos h, ← h, hlast, if_neg hne, ih]
      split
      · next hnil => rw [hnil]; rfl
      · rfl
    · have hother : valuesOf name [entry] = [] := by
        simp [valuesOf, beq_eq_false_iff_ne.2 (Ne.symm h)]
      rw [if_neg h, ih, hother, List.append_nil]

/-- All values of a name are grouped under it. -/
theorem getD_lookup_group (name : Bytes) (entries : List (Bytes × α)) :
    ((group entries).lookup name).getD [] = valuesOf name entries := by
  rw [lookup_group]
  split
  · next h => rw [h]; rfl
  · rfl

/-- The names of a grouping are those of its entries. -/
theorem isSome_lookup_group (name : Bytes) (entries : List (Bytes × α)) :
    ((group entries).lookup name).isSome = true ↔ name ∈ entries.map Prod.fst := by
  rw [← List.count_pos_iff, ← length_valuesOf, List.length_pos_iff, lookup_group]
  split
  · next h => simp [h]
  · next h => simp [h]

/-- Changing each value and then grouping is the same as grouping first. -/
theorem group_map (f : α → β) (entries : List (Bytes × α)) :
    group (entries.map fun entry => (entry.1, f entry.2)) =
      (group entries).map fun entry => (entry.1, entry.2.map f) := by
  refine (sorted_group _).ext ((sorted_group entries).map fun entry => entry.2.map f) fun name => ?_
  rw [lookup_group, valuesOf_map, lookup_map, lookup_group]
  by_cases h : valuesOf name entries = []
  · simp [h]
  · simp [h]

theorem group_singleton (name : Bytes) (value : α) : group [(name, value)] = [(name, [value])] :=
  rfl

/-- The position among some entries of the value that is number `j` of a name. -/
def position (name : Bytes) : List (Bytes × α) → Nat → Nat
  | [], _ => 0
  | entry :: rest, j =>
    if entry.1 = name then if j = 0 then 0 else position name rest (j - 1) + 1
    else position name rest j + 1

theorem valuesOf_cons (name : Bytes) (entry : Bytes × α) (rest : List (Bytes × α)) :
    valuesOf name (entry :: rest) =
      if entry.1 = name then entry.2 :: valuesOf name rest else valuesOf name rest := by
  by_cases h : entry.1 = name
  · simp [valuesOf, h]
  · simp [valuesOf, h]

theorem getElem?_position {name : Bytes} {entries : List (Bytes × α)} {j : Nat} {value : α}
    (h : (valuesOf name entries)[j]? = some value) :
    entries[position name entries j]? = some (name, value) := by
  induction entries generalizing j with
  | nil => simp [valuesOf] at h
  | cons entry rest ih =>
    rw [valuesOf_cons] at h
    by_cases hname : entry.1 = name
    · rw [if_pos hname] at h
      cases j with
      | zero =>
        rw [position, if_pos hname, if_pos rfl]
        simp only [List.getElem?_cons_zero, Option.some.injEq] at h ⊢
        exact Prod.ext hname h
      | succ j =>
        rw [position, if_pos hname, if_neg (Nat.succ_ne_zero j)]
        exact ih h
    · rw [if_neg hname] at h
      rw [position, if_neg hname]
      exact ih h

/-- Values of a name that come later are found later. -/
theorem position_lt {name : Bytes} {entries : List (Bytes × α)} {j k : Nat} {value : α}
    (hlt : j < k) (h : (valuesOf name entries)[k]? = some value) :
    position name entries j < position name entries k := by
  induction entries generalizing j k with
  | nil => simp [valuesOf] at h
  | cons entry rest ih =>
    rw [valuesOf_cons] at h
    by_cases hname : entry.1 = name
    · rw [if_pos hname] at h
      cases k with
      | zero => omega
      | succ k =>
        simp only [position, if_pos hname, Nat.succ_ne_zero, if_false]
        cases j with
        | zero => exact Nat.zero_lt_succ _
        | succ j => exact Nat.succ_lt_succ (ih (Nat.lt_of_succ_lt_succ hlt) h)
    · rw [if_neg hname] at h
      simp only [position, if_neg hname]
      exact Nat.succ_lt_succ (ih hlt h)

/-- Different values have different positions. -/
theorem position_inj {name other : Bytes} {entries : List (Bytes × α)} {j k : Nat} {value value' : α}
    (hj : (valuesOf name entries)[j]? = some value) (hk : (valuesOf other entries)[k]? = some value')
    (h : position name entries j = position other entries k) : (name, j) = (other, k) := by
  have hfirst := getElem?_position hj
  rw [h, getElem?_position hk] at hfirst
  obtain ⟨rfl, -⟩ := Prod.mk.inj (Option.some.inj hfirst)
  rcases Nat.lt_trichotomy j k with hlt | rfl | hlt
  · exact absurd h (Nat.ne_of_lt (position_lt hlt hk))
  · rfl
  · exact absurd h.symm (Nat.ne_of_lt (position_lt hlt hj))

/-- For each name among some entries the number of its occurrences in `before`: where the
values of the entries begin if they are put after others with these names. -/
def offsetsAfter (before : List Bytes) (entries : List (Bytes × α)) : NameTable Nat :=
  (group entries).map fun entry => (entry.1, before.count entry.1)

theorem sorted_offsetsAfter (before : List Bytes) (entries : List (Bytes × α)) :
    (offsetsAfter before entries).Sorted :=
  (sorted_group entries).map fun entry => before.count entry.1

/-- The offset under a name is the number of its entries before, if there are any after. -/
theorem lookup_offsetsAfter (before : List Bytes) (entries : List (Bytes × α)) (name : Bytes) :
    (offsetsAfter before entries).lookup name =
      if valuesOf name entries = [] then none else some (before.count name) := by
  rw [offsetsAfter, lookup_map fun entry => before.count entry.1, lookup_group]
  split <;> rfl

/-- Where values begin does not depend on what they are. -/
theorem offsetsAfter_congr (before : List Bytes) {as : List (Bytes × α)} {bs : List (Bytes × β)}
    (h : as.map Prod.fst = bs.map Prod.fst) : offsetsAfter before as = offsetsAfter before bs := by
  refine (sorted_offsetsAfter before as).ext (sorted_offsetsAfter before bs) fun name => ?_
  have hnil : valuesOf name as = [] ↔ valuesOf name bs = [] := by
    rw [← List.length_eq_zero_iff, length_valuesOf_congr h name, List.length_eq_zero_iff]
  simp only [lookup_offsetsAfter, hnil]

end NameTable

end PhraseGrammar
