import PhraseGrammar.Proofs.Layout.Filling
import PhraseGrammar.Proofs.Layout.Registries

/-!
# The slots of a component

Under each of its names a component has the slots from its offset on, as many as it contributes
declarations of the name. Putting in its match replaces what is in these slots and nothing else
(`Placement.Describes.place_eq`). This needs that the slots of the rule reach far enough and, if
the component has no name, that its match carries what its own layout declares.
-/

set_option autoImplicit false

namespace PhraseGrammar

open NameTable

namespace Slots

/-- Slot number `k` of a name; `none` if there is no such slot. -/
def slot? (slots : Slots) (name : Bytes) (k : Nat) : Option (Option Match) :=
  (slots.lookup name).bind (·[k]?)

/-- The same names have slots, and equally many. -/
def SameShape (a b : Slots) : Prop :=
  ∀ name, (a.lookup name).map List.length = (b.lookup name).map List.length

theorem getElem?_overwrite {α : Type} {start : Nat} {values xs : List α}
    (h : start + values.length ≤ xs.length) (k : Nat) :
    (overwrite start values xs)[k]? =
      if start ≤ k ∧ k < start + values.length then values[k - start]? else xs[k]? := by
  have hstart : (xs.take start).length = start := by
    rw [List.length_take]
    omega
  unfold overwrite
  by_cases hbefore : k < start
  · rw [if_neg (by omega), List.append_assoc, List.getElem?_append_left (by omega),
      List.getElem?_take_of_lt hbefore]
  · rw [List.append_assoc, List.getElem?_append_right (by omega), hstart]
    by_cases hinside : k < start + values.length
    · rw [if_pos (by omega), List.getElem?_append_left (by omega)]
    · rw [if_neg (by omega), List.getElem?_append_right (by omega), List.getElem?_drop]
      congr 1
      omega

theorem length_overwrite {α : Type} {start : Nat} {values xs : List α}
    (h : start + values.length ≤ xs.length) : (overwrite start values xs).length = xs.length := by
  simp only [overwrite, List.length_append, List.length_take, List.length_drop]
  omega

/-- Tables of slots are equal if they have the same slots. -/
theorem ext_slot? {a b : Slots} (ha : Sorted a) (hb : Sorted b) (hshape : a.SameShape b)
    (h : ∀ name k, a.slot? name k = b.slot? name k) : a = b := by
  apply ha.ext hb
  intro name
  have hname := hshape name
  cases hfirst : a.lookup name with
  | none =>
    rw [hfirst] at hname
    exact (Option.map_eq_none_iff.1 hname.symm).symm
  | some xs =>
    cases hsecond : b.lookup name with
    | none =>
      rw [hfirst, hsecond] at hname
      cases hname
    | some ys =>
      refine congrArg some (List.ext_getElem? fun k => ?_)
      have hslot := h name k
      unfold slot? at hslot
      rwa [hfirst, hsecond] at hslot

end Slots

/-- A match has each name that a layout declares, with as many slots as there are declarations. -/
def Layout.IsCarriedBy (layout : Layout) (m : Match) : Prop :=
  ∀ name rules, layout.declared.lookup name = some rules →
    ∃ slots, m.tokens.lookup name = some slots ∧ slots.length = rules.length

namespace Placement

/-- The number of slots under a name that a component has, where `inner` is its own layout. -/
def width (placement : Placement) (inner : Layout) (name : Bytes) : Nat :=
  match placement.own with
  | some own => if name = own then 1 else 0
  | none => ((inner.declared.lookup name).getD []).length

/-- Slot `k` of a name belongs to a component, where `inner` is the layout of the component. -/
def Owns (placement : Placement) (inner : Layout) (name : Bytes) (k : Nat) : Prop :=
  ∃ start, placement.offsets.lookup name = some start ∧ start ≤ k ∧
    k < start + placement.width inner name

/-- What a component with the match `child` has for its slots under a name. -/
def values (placement : Placement) (child : Option Match) (name : Bytes) : List (Option Match) :=
  match placement.own with
  | some own => if name = own then [child] else []
  | none => (((child.map Match.tokens).getD []).lookup name).getD []

/-- What a component with the match `child` has for slot `k` of a name. -/
def entry? (placement : Placement) (child : Option Match) (name : Bytes) (k : Nat) :
    Option (Option Match) :=
  match placement.offsets.lookup name with
  | some start => if start ≤ k then (placement.values child name)[k - start]? else none
  | none => none

/-- A component with the match `child` may be put in. With a name it always may, even without a
match; without a name it has to have a match that carries its own layout. -/
def Fits (placement : Placement) (inner : Layout) (child : Option Match) : Prop :=
  placement.own = none → ∃ m, child = some m ∧ inner.IsCarriedBy m

variable {names : Naming} {before : List Rule} {part : Rule} {placement : Placement}
  {inner : Layout} {child : Option Match}

/-- A component has as many slots under a name as it contributes declarations of the name. -/
theorem Describes.width_eq (h : placement.Describes names before part)
    (hinner : inner.Describes names part) (name : Bytes) :
    placement.width inner name = (valuesOf name (part.contributed names)).length := by
  unfold width
  rw [h.own]
  cases hname : names.name? part with
  | some own =>
    rw [Rule.contributed_named hname, valuesOf_cons]
    by_cases hown : name = own
    · simp [hown, valuesOf]
    · simp [hown, Ne.symm hown, valuesOf]
  | none =>
    rw [Rule.contributed_unnamed hname]
    simp only [hinner.declared name]
    split
    · next hnil => rw [hnil]; rfl
    · rfl

/-- A component has slots under the names for which it has an offset, and under no others. -/
theorem Describes.lookup_offsets_eq_none_iff (h : placement.Describes names before part)
    (hinner : inner.Describes names part) (name : Bytes) :
    placement.offsets.lookup name = none ↔ placement.width inner name = 0 := by
  rw [h.width_eq hinner, h.offsets name, List.length_eq_zero_iff]
  split
  · next hnil => simp [hnil]
  · next hne => simp [hne]

/-- The slots of a component come after those of the components before it. -/
theorem Describes.owns_iff (h : placement.Describes names before part)
    (hinner : inner.Describes names part) (name : Bytes) (k : Nat) :
    placement.Owns inner name k ↔
      (valuesOf name (Rule.declarationsOfAll names before)).length ≤ k ∧
        k < (valuesOf name (Rule.declarationsOfAll names before)).length +
          (valuesOf name (part.contributed names)).length := by
  unfold Owns
  rw [h.width_eq hinner, h.offsets name]
  split
  · next hnil =>
    rw [hnil, List.length_nil]
    constructor
    · rintro ⟨start, hstart, -⟩
      cases hstart
    · intro hk
      omega
  · constructor
    · rintro ⟨start, hstart, hk⟩
      cases hstart
      exact hk
    · intro hk
      exact ⟨_, rfl, hk⟩

/-- A component without a name that fits has the tokens for its slots. -/
theorem Fits.exists_values (hfits : placement.Fits inner child)
    (h : placement.Describes names before part) (hinner : inner.Describes names part)
    (hown : placement.own = none) {name : Bytes} {start : Nat}
    (hstart : placement.offsets.lookup name = some start) :
    ∃ values, ((child.map Match.tokens).getD []).lookup name = some values ∧
      values.length = placement.width inner name := by
  obtain ⟨m, rfl, htokens⟩ := hfits hown
  have hunnamed : names.name? part = none := h.own.symm.trans hown
  have hdeclared : inner.declared.lookup name = some (valuesOf name (part.declarations names)) := by
    rw [h.offsets name, Rule.contributed_unnamed hunnamed] at hstart
    rw [hinner.declared name]
    split
    · next hnil =>
      rw [if_pos hnil] at hstart
      cases hstart
    · rfl
  obtain ⟨values, hvalues, hlength⟩ := htokens name _ hdeclared
  refine ⟨values, hvalues, ?_⟩
  unfold width
  rw [hown, hdeclared]
  exact hlength

/-- A component that fits has something for each of its slots. -/
theorem Fits.length_values (hfits : placement.Fits inner child)
    (h : placement.Describes names before part) (hinner : inner.Describes names part)
    {name : Bytes} {start : Nat} (hstart : placement.offsets.lookup name = some start) :
    (placement.values child name).length = placement.width inner name := by
  cases hown : placement.own with
  | some own =>
    unfold values width
    rw [hown]
    by_cases hname : name = own
    · simp [hname]
    · simp [hname]
  | none =>
    obtain ⟨tokens, htokens, hlength⟩ := hfits.exists_values h hinner hown hstart
    unfold values
    rw [hown, htokens]
    exact hlength

/-- Putting in what a component has replaces one segment under each of its names. -/
theorem Describes.place_eq (h : placement.Describes names before part)
    (hinner : inner.Describes names part) (hfits : placement.Fits inner child) {slots : Slots}
    (hs : Sorted slots)
    (hroom : ∀ name start, placement.offsets.lookup name = some start →
      ∃ xs, slots.lookup name = some xs ∧ start + placement.width inner name ≤ xs.length) :
    ∃ next, placement.place child slots = ⟨next, none⟩ ∧ Sorted next ∧
      ∀ name, next.lookup name =
        match placement.offsets.lookup name with
        | none => slots.lookup name
        | some start =>
          (slots.lookup name).map (Slots.overwrite start (placement.values child name)) := by
  unfold place
  cases hown : placement.own with
  | some own =>
    have hnamed : names.name? part = some own := h.own.symm.trans hown
    have hother : ∀ name, name ≠ own → placement.offsets.lookup name = none := by
      intro name hne
      rw [h.offsets name, Rule.contributed_named hnamed, if_pos]
      simp [valuesOf, Ne.symm hne]
    obtain ⟨start, hstart⟩ : ∃ start, placement.offsets.lookup own = some start := by
      rw [h.offsets own, Rule.contributed_named hnamed, if_neg (by simp [valuesOf])]
      exact ⟨_, rfl⟩
    obtain ⟨xs, hxs, hfit⟩ := hroom own start hstart
    have hone : placement.width inner own = 1 := by simp [width, hown]
    have hslot : start + [child].length ≤ xs.length := by
      rw [hone] at hfit
      exact hfit
    obtain ⟨next, hfill, hsorted, hlookup⟩ := Slots.fill_eq hs hxs hslot
    refine ⟨next, ?_, hsorted, fun name => ?_⟩
    · simp only [hstart, hfill]
    · rw [hlookup]
      by_cases hname : name = own
      · subst hname
        simp [hstart, hxs, values, hown]
      · rw [if_neg hname, hother name hname]
  | none =>
    have hvalues : placement.values child =
        fun name => (((child.map Match.tokens).getD []).lookup name).getD [] := by
      unfold values
      rw [hown]
    have htokens : ∀ entry ∈ placement.offsets, ∃ values xs,
        ((child.map Match.tokens).getD []).lookup entry.1 = some values ∧
        slots.lookup entry.1 = some xs ∧ entry.2 + values.length ≤ xs.length := by
      intro entry hmem
      have hstart := h.sorted.lookup_of_mem hmem
      obtain ⟨xs, hxs, hfit⟩ := hroom entry.1 entry.2 hstart
      obtain ⟨values, hvalues, hlength⟩ := hfits.exists_values h hinner hown hstart
      exact ⟨values, xs, hvalues, hxs, by rwa [hlength]⟩
    obtain ⟨next, hspread, hsorted, hlookup⟩ := Slots.spread_eq h.sorted hs htokens
    refine ⟨next, hspread, hsorted, fun name => ?_⟩
    rw [hvalues]
    exact hlookup name

end Placement

end PhraseGrammar
