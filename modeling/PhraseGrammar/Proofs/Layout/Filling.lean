import PhraseGrammar.Layout.Placement
import PhraseGrammar.Proofs.Layout.Tables

/-!
# Filling slots

Spreading tokens writes, for each of their names, one segment of the slots of that
name, from the offset of the name on. If the slots of every name reach far enough
nothing is in the way, every other slot stays, and the names stay.

Where slots group the entries of several components, one component after the
other, putting in the tokens of one component replaces exactly its entries.
-/

set_option autoImplicit false

namespace PhraseGrammar

namespace Slots

open NameTable

/-- A list in which the elements from index `i` on are replaced by others. -/
def overwrite {α : Type} (i : Nat) (values xs : List α) : List α :=
  xs.take i ++ values ++ xs.drop (i + values.length)

theorem overwrite_nil {α : Type} (i : Nat) (xs : List α) : overwrite i [] xs = xs := by
  simp [overwrite]

/-- Replacing the first element and then those after it. -/
theorem overwrite_set {α : Type} {i : Nat} {value : α} {values xs : List α} (h : i < xs.length) :
    overwrite (i + 1) values (xs.set i value) = overwrite i (value :: values) xs := by
  have hlength : (xs.take i).length = i := by
    rw [List.length_take]
    omega
  rw [List.set_eq_take_append_cons_drop, if_pos h]
  have htake : (xs.take i ++ value :: xs.drop (i + 1)).take (i + 1) = xs.take i ++ [value] := by
    rw [List.take_append, hlength]
    simp [List.take_take]
  have hdrop : (xs.take i ++ value :: xs.drop (i + 1)).drop (i + 1 + values.length) =
      xs.drop (i + (value :: values).length) := by
    rw [List.drop_append, hlength, List.drop_eq_nil_of_le (by omega)]
    have hskip : i + 1 + values.length - i = values.length + 1 := by omega
    rw [hskip, List.drop_succ_cons, List.drop_drop, List.nil_append, List.length_cons]
    congr 1
    omega
  rw [overwrite, overwrite, htake, hdrop]
  simp

/-- Replacing the middle one of three segments. -/
theorem overwrite_segment {α : Type} (before : List α) {old new : List α} (after : List α)
    (h : old.length = new.length) :
    overwrite before.length new (before ++ old ++ after) = before ++ new ++ after := by
  have hdrop : (before ++ old ++ after).drop (before.length + new.length) = after := by
    rw [← h, ← List.length_append, List.drop_left]
  rw [overwrite, hdrop, List.append_assoc before old after, List.take_left]

/-- A slot that exists is set, and nothing else changes. -/
theorem write?_eq {name : Bytes} {i : Nat} {value : Option Match} {slots : Slots}
    {xs : List (Option Match)} (hs : Sorted slots) (h : slots.lookup name = some xs)
    (hi : i < xs.length) :
    write? name i value slots = some (NameTable.insert name (xs.set i value) slots) := by
  induction slots with
  | nil => simp at h
  | cons entry rest ih =>
    rw [lookup_cons] at h
    by_cases hname : name = entry.1
    · rw [if_pos hname] at h
      cases h
      have hlt : ¬ name < entry.1 := by
        rw [hname]
        exact List.lt_irrefl _
      rw [write?, if_pos hname.symm, if_pos hi, NameTable.insert, if_neg hlt, if_pos hname, hname]
    · rw [if_neg hname] at h
      have hlt : ¬ name < entry.1 :=
        List.lt_asymm ((List.pairwise_cons.1 hs).1 _ (mem_of_lookup h))
      rw [write?, if_neg (Ne.symm hname), ih hs.tail h, Option.map_some, NameTable.insert,
        if_neg hlt, if_neg hname]

/-- Slots that all exist are filled, and nothing else changes. -/
theorem fill_eq {name : Bytes} {i : Nat} {values : List (Option Match)} {slots : Slots}
    {xs : List (Option Match)} (hs : Sorted slots) (h : slots.lookup name = some xs)
    (hi : i + values.length ≤ xs.length) :
    ∃ filled, fill name i values slots = ⟨filled, none⟩ ∧ Sorted filled ∧
      ∀ other, filled.lookup other =
        if other = name then some (overwrite i values xs) else slots.lookup other := by
  induction values generalizing i slots xs with
  | nil =>
    refine ⟨slots, rfl, hs, fun other => ?_⟩
    split
    · next heq => rw [heq, h, overwrite_nil]
    · rfl
  | cons value values ih =>
    have hlt : i < xs.length := by
      simp only [List.length_cons] at hi
      omega
    have hwritten : (NameTable.insert name (xs.set i value) slots).lookup name =
        some (xs.set i value) := by
      rw [lookup_insert, if_pos rfl]
    have hroom : i + 1 + values.length ≤ (xs.set i value).length := by
      simp only [List.length_cons, List.length_set] at hi ⊢
      omega
    obtain ⟨filled, hfill, hsorted, hlookup⟩ :=
      ih (hs.insert name (xs.set i value)) hwritten hroom
    refine ⟨filled, ?_, hsorted, fun other => ?_⟩
    · rw [fill, write?_eq hs h hlt]
      exact hfill
    · rw [hlookup, overwrite_set hlt, lookup_insert]
      split
      · rfl
      · rfl

/-- Tokens are spread if the slots of each of their names reach far enough. -/
theorem spread_eq {tokens : Slots} {offsets : NameTable Nat} (ho : offsets.Sorted)
    {slots : Slots} (hs : Sorted slots)
    (h : ∀ entry ∈ offsets, ∃ values xs, tokens.lookup entry.1 = some values ∧
      slots.lookup entry.1 = some xs ∧ entry.2 + values.length ≤ xs.length) :
    ∃ filled, spread tokens offsets slots = ⟨filled, none⟩ ∧ Sorted filled ∧
      ∀ name, filled.lookup name =
        match offsets.lookup name with
        | none => slots.lookup name
        | some offset =>
          (slots.lookup name).map (overwrite offset ((tokens.lookup name).getD [])) := by
  induction offsets generalizing slots with
  | nil => exact ⟨slots, rfl, hs, fun name => rfl⟩
  | cons entry rest ih =>
    obtain ⟨name, offset⟩ := entry
    obtain ⟨values, xs, hvalues, hxs, hroom⟩ := h (name, offset) List.mem_cons_self
    simp only at hvalues hxs hroom
    obtain ⟨filled, hfill, hsorted, hlookup⟩ := fill_eq hs hxs hroom
    have hlater : ∀ entry ∈ rest, entry.1 ≠ name := by
      intro entry hmem heq
      have hlt : name < entry.1 := (List.pairwise_cons.1 ho).1 entry hmem
      rw [heq] at hlt
      exact List.lt_irrefl _ hlt
    have hrest : ∀ entry ∈ rest, ∃ values xs, tokens.lookup entry.1 = some values ∧
        filled.lookup entry.1 = some xs ∧ entry.2 + values.length ≤ xs.length := by
      intro entry hmem
      obtain ⟨others, ys, hothers, hys, hfits⟩ := h entry (List.mem_cons_of_mem _ hmem)
      exact ⟨others, ys, hothers, by rw [hlookup, if_neg (hlater entry hmem), hys], hfits⟩
    obtain ⟨spreaded, hspread, hfinal, hread⟩ := ih ho.tail hsorted hrest
    refine ⟨spreaded, ?_, hfinal, fun other => ?_⟩
    · simp only [spread, hvalues, hxs, hfill]
      exact hspread
    · rw [hread, lookup_cons, hlookup]
      by_cases heq : other = name
      · have hnone : rest.lookup other = none := by
          cases hfound : rest.lookup other with
          | none => rfl
          | some value => exact absurd heq (hlater _ (mem_of_lookup hfound))
        rw [hnone, if_pos heq, if_pos heq, heq, hxs, hvalues]
        rfl
      · rw [if_neg heq, if_neg heq]

/-- Spreading the entries of a component over slots that group the entries of several
components puts them in the place of the entries that were there. -/
theorem spread_group (before : List (Bytes × Option Match)) {old new : List (Bytes × Option Match)}
    (after : List (Bytes × Option Match)) (hnames : old.map Prod.fst = new.map Prod.fst) :
    spread (group new) (offsetsAfter (before.map Prod.fst) new) (group (before ++ old ++ after)) =
      ⟨group (before ++ new ++ after), none⟩ := by
  have hlength (name : Bytes) : (valuesOf name old).length = (valuesOf name new).length :=
    length_valuesOf_congr hnames name
  have hroom : ∀ entry ∈ offsetsAfter (before.map Prod.fst) new, ∃ values xs,
      (group new).lookup entry.1 = some values ∧
      (group (before ++ old ++ after)).lookup entry.1 = some xs ∧
      entry.2 + values.length ≤ xs.length := by
    intro entry hmem
    have hfound := (sorted_offsetsAfter _ _).lookup_of_mem hmem
    rw [lookup_offsetsAfter] at hfound
    by_cases hnil : valuesOf entry.1 new = []
    · rw [if_pos hnil] at hfound
      cases hfound
    · rw [if_neg hnil] at hfound
      have hpos := List.length_pos_iff.2 hnil
      have hall : (valuesOf entry.1 (before ++ old ++ after)).length =
          (valuesOf entry.1 before).length + (valuesOf entry.1 new).length +
            (valuesOf entry.1 after).length := by
        rw [valuesOf_append, valuesOf_append, List.length_append, List.length_append, hlength]
      have hne : valuesOf entry.1 (before ++ old ++ after) ≠ [] := by
        rw [← List.length_pos_iff]
        omega
      refine ⟨_, _, by rw [lookup_group, if_neg hnil], by rw [lookup_group, if_neg hne], ?_⟩
      have hcount := length_valuesOf entry.1 before
      have hoffset := Option.some.inj hfound
      omega
  obtain ⟨filled, hspread, hsorted, hlookup⟩ :=
    spread_eq (sorted_offsetsAfter _ new) (sorted_group (before ++ old ++ after)) hroom
  have hfilled : filled = group (before ++ new ++ after) := by
    refine hsorted.ext (sorted_group _) fun name => ?_
    rw [hlookup, lookup_offsetsAfter, getD_lookup_group]
    by_cases hnil : valuesOf name new = []
    · have hold : valuesOf name old = [] := by
        rw [← List.length_eq_zero_iff, hlength, hnil]
        rfl
      simp [lookup_group, hnil, hold]
    · have hold : valuesOf name old ≠ [] := by
        rw [← List.length_pos_iff, hlength]
        exact List.length_pos_iff.2 hnil
      have hsegment := overwrite_segment (valuesOf name before) (valuesOf name after) (hlength name)
      rw [length_valuesOf] at hsegment
      have hfirst : valuesOf name (before ++ old ++ after) ≠ [] := by simp [hold]
      have hsecond : valuesOf name (before ++ new ++ after) ≠ [] := by simp [hnil]
      rw [if_neg hnil, lookup_group, lookup_group, if_neg hfirst, if_neg hsecond]
      simp only [valuesOf_append, Option.map_some, hsegment]
  rw [hspread, hfilled]

end Slots

end PhraseGrammar
