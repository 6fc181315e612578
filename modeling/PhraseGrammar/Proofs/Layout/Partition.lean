import Mathlib.Order.Monotone.Basic
import PhraseGrammar.Proofs.Layout.Ownership

/-!
# The components of a rule divide its slots

Under each name the slots of a component begin where those of the components before it end. So
every slot belongs to exactly one component (`Registry.Knows.existsUnique_ownsSlot`), and since
putting in a match changes the slots of its component only, the order in which components are
put in does not matter: a slot holds in the end what its own component has put there, or nothing
if that component was left out (`Registry.placements_partition`).
-/

set_option autoImplicit false

namespace PhraseGrammar

open NameTable

/-- A count passes `k` at one place only. -/
theorem step_unique {f : Nat → Nat} (hf : Monotone f) {i j k : Nat} (hi : f i ≤ k ∧ k < f (i + 1))
    (hj : f j ≤ k ∧ k < f (j + 1)) : i = j := by
  apply Nat.le_antisymm
  · apply Nat.le_of_not_lt
    intro hlt
    have hle : f (j + 1) ≤ f i := hf hlt
    omega
  · apply Nat.le_of_not_lt
    intro hlt
    have hle : f (i + 1) ≤ f j := hf hlt
    omega

/-- A count that starts at zero and comes to be greater than `k` passes it. -/
theorem exists_step {f : Nat → Nat} (hzero : f 0 = 0) {n k : Nat} (hk : k < f n) :
    ∃ i, i < n ∧ f i ≤ k ∧ k < f (i + 1) := by
  induction n with
  | zero => omega
  | succ n ih =>
    by_cases hlt : k < f n
    · obtain ⟨i, hi, hstep⟩ := ih hlt
      exact ⟨i, by omega, hstep⟩
    · exact ⟨n, by omega, Nat.not_lt.1 hlt, hk⟩

namespace Rule

variable {names : Naming}

theorem declarations_eq (r : Rule) : r.declarations names = declarationsOfAll names r.parts := by
  cases r with
  | leaf n source regex => rfl
  | compound n combinator parts => rfl

/-- The number of slots under a name that the first components of a rule have. -/
def slotsBefore (names : Naming) (r : Rule) (name : Bytes) (i : Nat) : Nat :=
  (valuesOf name (declarationsOfAll names (r.parts.take i))).length

variable {r part : Rule} {name : Bytes} {i : Nat}

theorem slotsBefore_zero : slotsBefore names r name 0 = 0 :=
  rfl

theorem slotsBefore_succ (hpart : r.parts[i]? = some part) :
    slotsBefore names r name (i + 1) =
      slotsBefore names r name i + (valuesOf name (part.contributed names)).length := by
  unfold slotsBefore
  rw [List.take_add_one, hpart, declarationsOfAll_append, valuesOf_append, List.length_append]
  simp [declarationsOfAll_cons, declarationsOfAll]

theorem slotsBefore_of_length_le (h : r.parts.length ≤ i) :
    slotsBefore names r name i = (valuesOf name (r.declarations names)).length := by
  unfold slotsBefore
  rw [List.take_of_length_le h, declarations_eq]

theorem monotone_slotsBefore (names : Naming) (r : Rule) (name : Bytes) :
    Monotone (slotsBefore names r name) := by
  refine monotone_nat_of_le_succ fun i => ?_
  cases hpart : r.parts[i]? with
  | some part =>
    rw [slotsBefore_succ hpart]
    exact Nat.le_add_right _ _
  | none =>
    have hlength := List.getElem?_eq_none_iff.1 hpart
    rw [slotsBefore_of_length_le hlength, slotsBefore_of_length_le (Nat.le_succ_of_le hlength)]

theorem slotsBefore_le (names : Naming) (r : Rule) (name : Bytes) (i : Nat) :
    slotsBefore names r name i ≤ (valuesOf name (r.declarations names)).length := by
  rw [← slotsBefore_of_length_le (Nat.le_add_right r.parts.length i)]
  exact monotone_slotsBefore names r name (Nat.le_add_left i _)

end Rule

namespace Layout

/-- Puts in the match of the component with index `i`. -/
def placeAt (layout : Layout) (children : Nat → Option Match) (i : Nat) (slots : Slots) :
    Except Fault Slots :=
  match layout.placements[i]? with
  | none => .error .noSuchSlot
  | some placement => (placement.place (children i) slots).toExcept

/-- Puts in the matches of the components with the given indices, one after the other. -/
def placeEach (layout : Layout) (children : Nat → Option Match) (order : List Nat)
    (slots : Slots) : Except Fault Slots :=
  order.foldlM (fun slots i => layout.placeAt children i slots) slots

/-- What the component with index `i` has for slot `k` of a name. -/
def entryAt? (layout : Layout) (children : Nat → Option Match) (i : Nat) (name : Bytes) (k : Nat) :
    Option (Option Match) :=
  layout.placements[i]?.bind fun placement => placement.entry? (children i) name k

/-- All components have matches that may be put in. -/
def FitsAll (names : Naming) (r : Rule) (layout : Layout) (children : Nat → Option Match) : Prop :=
  ∀ (i : Nat) (part : Rule) (placement : Placement), r.parts[i]? = some part →
    layout.placements[i]? = some placement → placement.Fits (part.flatLayout names) (children i)

/-- Slots as a layout has them, whatever is in them. -/
structure HasSlots (layout : Layout) (slots : Slots) : Prop where
  sorted : Sorted slots
  shape : slots.SameShape layout.emptySlots

variable {names : Naming} {r part : Rule} {layout : Layout} {children : Nat → Option Match}
  {slots : Slots} {name : Bytes} {i k : Nat}

theorem lookup_emptySlots (layout : Layout) (name : Bytes) :
    layout.emptySlots.lookup name =
      (layout.declared.lookup name).map fun rules => List.replicate rules.length none :=
  lookup_map (fun entry : Bytes × List Rule => List.replicate entry.2.length none) name
    layout.declared

theorem Describes.hasSlots_emptySlots (h : layout.Describes names r) :
    layout.HasSlots layout.emptySlots :=
  ⟨h.sorted.map fun entry : Bytes × List Rule => List.replicate entry.2.length none, fun _ => rfl⟩

/-- There are as many slots under a name as declarations. -/
theorem HasSlots.length_eq (hs : layout.HasSlots slots) (h : layout.Describes names r)
    (name : Bytes) : (slots.lookup name).map List.length =
      if valuesOf name (r.declarations names) = [] then none
      else some (valuesOf name (r.declarations names)).length := by
  rw [hs.shape name, lookup_emptySlots, h.declared name]
  split
  · rfl
  · simp

theorem HasSlots.exists_lookup (hs : layout.HasSlots slots) (h : layout.Describes names r)
    (hpos : 0 < (valuesOf name (r.declarations names)).length) :
    ∃ xs, slots.lookup name = some xs ∧
      xs.length = (valuesOf name (r.declarations names)).length := by
  have hlength := hs.length_eq h name
  rw [if_neg (List.length_pos_iff.1 hpos)] at hlength
  obtain ⟨xs, hxs, hn⟩ := Option.map_eq_some_iff.1 hlength
  exact ⟨xs, hxs, hn⟩

/-- There are no slots beyond the declarations. -/
theorem HasSlots.slot?_eq_none (hs : layout.HasSlots slots) (h : layout.Describes names r)
    (hk : (valuesOf name (r.declarations names)).length ≤ k) : slots.slot? name k = none := by
  have hlength := hs.length_eq h name
  unfold Slots.slot?
  cases hlookup : slots.lookup name with
  | none => rfl
  | some xs =>
    rw [hlookup] at hlength
    split at hlength
    · cases hlength
    · have hxs := Option.some.inj hlength
      apply List.getElem?_eq_none
      omega

/-- Slots without anything in them. -/
theorem Describes.slot?_emptySlots (h : layout.Describes names r)
    (hk : k < (valuesOf name (r.declarations names)).length) :
    layout.emptySlots.slot? name k = some none := by
  have hne : valuesOf name (r.declarations names) ≠ [] := List.length_pos_iff.1 (by omega)
  unfold Slots.slot?
  rw [lookup_emptySlots, h.declared name, if_neg hne]
  simp [hk]

/-- The slots of a component begin where those of the components before it end. -/
theorem Describes.placement_at (h : layout.Describes names r) (hpart : r.parts[i]? = some part) :
    ∃ placement, layout.placements[i]? = some placement ∧
      placement.Describes names (r.parts.take i) part ∧
      (∀ name start, placement.offsets.lookup name = some start →
        start = r.slotsBefore names name i) ∧
      ∀ name, r.slotsBefore names name (i + 1) =
        r.slotsBefore names name i + placement.width (part.flatLayout names) name := by
  obtain ⟨placement, hplacement, hdescribes⟩ := h.placement i part hpart
  refine ⟨placement, hplacement, hdescribes, fun name start hstart => ?_, fun name => ?_⟩
  · rw [hdescribes.offsets name] at hstart
    split at hstart
    · cases hstart
    · exact (Option.some.inj hstart).symm
  · rw [hdescribes.width_eq (describes_flatLayout names part), Rule.slotsBefore_succ hpart]

/-- The slots reach far enough for each component. -/
theorem HasSlots.room (hs : layout.HasSlots slots) (h : layout.Describes names r)
    (hpart : r.parts[i]? = some part) {placement : Placement}
    (hplacement : layout.placements[i]? = some placement) {start : Nat}
    (hstart : placement.offsets.lookup name = some start) :
    ∃ xs, slots.lookup name = some xs ∧
      start + placement.width (part.flatLayout names) name ≤ xs.length := by
  obtain ⟨found, hfound, hdescribes, hoffset, hnext⟩ := h.placement_at hpart
  rw [hplacement] at hfound
  cases hfound
  have hend := r.slotsBefore_le names name (i + 1)
  rw [hnext name, ← hoffset name start hstart] at hend
  have hwidth : placement.width (part.flatLayout names) name ≠ 0 := by
    intro hzero
    rw [← hdescribes.lookup_offsets_eq_none_iff (describes_flatLayout names part), hstart] at hzero
    cases hzero
  have hroom : 0 < (valuesOf name (r.declarations names)).length := by omega
  obtain ⟨xs, hxs, hlength⟩ := hs.exists_lookup h hroom
  exact ⟨xs, hxs, by omega⟩

/-- Putting in one component changes its own slots only, where its own entries are then. -/
theorem Describes.placeAt_eq (h : layout.Describes names r)
    (hfits : layout.FitsAll names r children) (hi : i < r.parts.length)
    (hs : layout.HasSlots slots) :
    ∃ next, layout.placeAt children i slots = .ok next ∧ layout.HasSlots next ∧
      ∀ name k, next.slot? name k =
        if r.slotsBefore names name i ≤ k ∧ k < r.slotsBefore names name (i + 1) then
          layout.entryAt? children i name k
        else slots.slot? name k := by
  have hpart := List.getElem?_eq_getElem hi
  obtain ⟨placement, hplacement, hdescribes, hoffset, hnext⟩ := h.placement_at hpart
  have hinner := describes_flatLayout names r.parts[i]
  have hfit := hfits i _ placement hpart hplacement
  obtain ⟨next, hplace, hsorted, hlookup⟩ := hdescribes.place_eq hinner hfit hs.sorted
    fun name start hstart => hs.room h hpart hplacement hstart
  refine ⟨next, ?_, ⟨hsorted, fun name => ?_⟩, fun name k => ?_⟩
  · unfold placeAt
    rw [hplacement]
    simp only [hplace, Slots.Filling.toExcept]
  · rw [← hs.shape name, hlookup name]
    cases hstart : placement.offsets.lookup name with
    | none => rfl
    | some start =>
      obtain ⟨xs, hxs, hlength⟩ := hs.room h hpart hplacement hstart
      rw [← hfit.length_values hdescribes hinner hstart] at hlength
      simp [hxs, Slots.length_overwrite hlength]
  · unfold Slots.slot? entryAt? Placement.entry?
    rw [hlookup name, hplacement, hnext name]
    cases hstart : placement.offsets.lookup name with
    | none =>
      rw [(hdescribes.lookup_offsets_eq_none_iff hinner name).1 hstart, if_neg (by omega)]
    | some start =>
      obtain ⟨xs, hxs, hlength⟩ := hs.room h hpart hplacement hstart
      rw [← hfit.length_values hdescribes hinner hstart] at hlength ⊢
      rw [← hoffset name start hstart]
      simp only [hxs, Option.map_some, Option.bind_some, Slots.getElem?_overwrite hlength, hstart]
      split
      · next hinside => rw [if_pos hinside.1]
      · rfl

/-- Putting in components, in any order, fills the slots of these components and no others. -/
theorem Describes.placeEach_eq (h : layout.Describes names r)
    (hfits : layout.FitsAll names r children) {order : List Nat}
    (horder : ∀ i ∈ order, i < r.parts.length) (hs : layout.HasSlots slots) :
    ∃ last, layout.placeEach children order slots = .ok last ∧ layout.HasSlots last ∧
      ∀ i name k, r.slotsBefore names name i ≤ k ∧ k < r.slotsBefore names name (i + 1) →
        last.slot? name k =
          if i ∈ order then layout.entryAt? children i name k else slots.slot? name k := by
  induction order generalizing slots with
  | nil => exact ⟨slots, rfl, hs, fun i name k _ => by simp⟩
  | cons j order ih =>
    obtain ⟨hj, hrest⟩ := List.forall_mem_cons.1 horder
    obtain ⟨next, hplace, hnext, hslots⟩ := h.placeAt_eq hfits hj hs
    obtain ⟨last, hlast, hslotsLast, hread⟩ := ih hrest hnext
    refine ⟨last, ?_, hslotsLast, fun i name k hk => ?_⟩
    · unfold placeEach
      rw [List.foldlM_cons, hplace]
      exact hlast
    · rw [hread i name k hk, hslots name k]
      by_cases hi : i = j
      · subst hi
        simp [hk]
      · have hother : ¬ (r.slotsBefore names name j ≤ k ∧ k < r.slotsBefore names name (j + 1)) :=
          fun hjk => hi (step_unique (r.monotone_slotsBefore names name) hk hjk)
        simp [hi, hother]

/-- Only which components are put in matters, not in which order. -/
theorem Describes.placeEach_congr (h : layout.Describes names r)
    (hfits : layout.FitsAll names r children) {order order' : List Nat}
    (horder : ∀ i ∈ order, i < r.parts.length) (hsame : ∀ i, i ∈ order' ↔ i ∈ order)
    (hs : layout.HasSlots slots) :
    layout.placeEach children order' slots = layout.placeEach children order slots := by
  have horder' : ∀ i ∈ order', i < r.parts.length := fun i hi => horder i ((hsame i).1 hi)
  obtain ⟨last, hlast, hslots, hread⟩ := h.placeEach_eq hfits horder hs
  obtain ⟨last', hlast', hslots', hread'⟩ := h.placeEach_eq hfits horder' hs
  have hequal : last' = last := by
    apply Slots.ext_slot? hslots'.sorted hslots.sorted
    · intro name
      rw [hslots'.shape name, hslots.shape name]
    · intro name k
      by_cases hk : k < (valuesOf name (r.declarations names)).length
      · rw [← Rule.slotsBefore_of_length_le (Nat.le_refl r.parts.length)] at hk
        obtain ⟨i, -, hi⟩ := exists_step Rule.slotsBefore_zero hk
        rw [hread i name k hi, hread' i name k hi]
        simp only [hsame i]
      · have hbeyond := Nat.not_lt.1 hk
        rw [hslots'.slot?_eq_none h hbeyond, hslots.slot?_eq_none h hbeyond]
  rw [hlast, hlast', hequal]

end Layout

namespace Registry

/-- Slot `k` of a name, among the slots of a rule, belongs to the component with index `i`. -/
def OwnsSlot (registry : Registry) (r : Rule) (i : Nat) (name : Bytes) (k : Nat) : Prop :=
  ∃ layout placement part inner, registry.layout r = .ok layout ∧
    layout.placements[i]? = some placement ∧ r.parts[i]? = some part ∧
    registry.layout part = .ok inner ∧ placement.Owns inner name k

variable {names : Naming} {root r : Rule} {registry : Registry}

/-- The registry has the layouts of a rule and of its components. -/
structure Knows (registry : Registry) (names : Naming) (r : Rule) : Prop where
  layout : registry.layout r = .ok (r.flatLayout names)
  parts : ∀ part ∈ r.parts, registry.layout part = .ok (part.flatLayout names)

theorem knows_of_ofRoot (hroot : root.Coherent) (h : Registry.ofRoot names root = .ok registry)
    (hr : r ∈ root.subrules) : registry.Knows names r := by
  obtain ⟨-, hlayouts⟩ := layout_eq hroot h
  refine ⟨hlayouts r hr, fun part hpart => ?_⟩
  cases r with
  | leaf n source regex => cases hpart
  | compound n combinator parts =>
    apply hlayouts
    exact Rule.mem_subrules_trans hr
      (Rule.mem_subrules_of_mem_parts hpart (Rule.mem_subrules_self part))

/-- The slots of a component are those between its beginning and that of the next. -/
theorem Knows.ownsSlot_iff (h : registry.Knows names r) (i : Nat) (name : Bytes) (k : Nat) :
    registry.OwnsSlot r i name k ↔
      r.slotsBefore names name i ≤ k ∧ k < r.slotsBefore names name (i + 1) := by
  have hdescribes := Layout.describes_flatLayout names r
  constructor
  · rintro ⟨layout, placement, part, inner, hlayout, hplacement, hpart, hinner, howns⟩
    rw [h.layout] at hlayout
    rw [h.parts part (List.mem_of_getElem? hpart)] at hinner
    cases hlayout
    cases hinner
    obtain ⟨found, hfound, hplaced⟩ := hdescribes.placement i part hpart
    rw [hplacement] at hfound
    cases hfound
    rw [hplaced.owns_iff (Layout.describes_flatLayout names part)] at howns
    rw [Rule.slotsBefore_succ hpart]
    exact howns
  · intro hk
    have hi : i < r.parts.length := by
      apply Nat.lt_of_not_le
      intro hle
      rw [Rule.slotsBefore_of_length_le hle,
        Rule.slotsBefore_of_length_le (Nat.le_succ_of_le hle)] at hk
      omega
    have hpart := List.getElem?_eq_getElem hi
    obtain ⟨placement, hplacement, hplaced⟩ := hdescribes.placement i _ hpart
    refine ⟨_, placement, _, _, h.layout, hplacement, hpart, h.parts _ (List.getElem_mem hi), ?_⟩
    rw [hplaced.owns_iff (Layout.describes_flatLayout names _)]
    rw [Rule.slotsBefore_succ hpart] at hk
    exact hk

/-- Every slot belongs to exactly one component. -/
theorem Knows.existsUnique_ownsSlot (h : registry.Knows names r) {name : Bytes} {k : Nat}
    (hk : k < (valuesOf name (r.declarations names)).length) :
    ∃! i, registry.OwnsSlot r i name k := by
  rw [← Rule.slotsBefore_of_length_le (Nat.le_refl r.parts.length)] at hk
  obtain ⟨i, -, hi⟩ := exists_step Rule.slotsBefore_zero hk
  refine ⟨i, (h.ownsSlot_iff i name k).2 hi, fun j hj => ?_⟩
  exact step_unique (r.monotone_slotsBefore names name) ((h.ownsSlot_iff j name k).1 hj) hi

/-- Matches that carry the layouts of their components may be put in. -/
theorem Knows.fitsAll (h : registry.Knows names r) {children : Nat → Option Match}
    (hchildren : ∀ i part, r.parts[i]? = some part → names.name? part = none →
      ∃ m, children i = some m ∧ ∀ inner, registry.layout part = .ok inner → inner.IsCarriedBy m) :
    (r.flatLayout names).FitsAll names r children := by
  intro i part placement hpart hplacement hown
  obtain ⟨found, hfound, hdescribes⟩ := (Layout.describes_flatLayout names r).placement i part hpart
  rw [hplacement] at hfound
  cases hfound
  obtain ⟨m, hm, hcarries⟩ := hchildren i part hpart (hdescribes.own.symm.trans hown)
  exact ⟨m, hm, hcarries _ (h.parts part (List.mem_of_getElem? hpart))⟩

/-- The placements of the components of a rule divide its slots. Every slot belongs to exactly one
component. If each component has a match, and each component without a name one that carries its
own layout, any of the components may be put in, in any order: nothing is in the way, and the
slots are the same in the end. Putting in one component leaves the slots of the others as they
are. In the end a slot has what its component has for it, or is empty if that was left out. -/
theorem placements_partition (names : Naming) (root : Rule) (hroot : root.Coherent)
    {registry : Registry} (hregistry : Registry.ofRoot names root = .ok registry) {r : Rule}
    (hr : r ∈ root.subrules) :
    ∃ layout, registry.layout r = .ok layout ∧
      (∀ name rules k, layout.declared.lookup name = some rules → k < rules.length →
        ∃! i, registry.OwnsSlot r i name k) ∧
      ∀ children : Nat → Option Match,
        (∀ i part, r.parts[i]? = some part → names.name? part = none →
          ∃ m, children i = some m ∧
            ∀ inner, registry.layout part = .ok inner → inner.IsCarriedBy m) →
        ∀ order : List Nat, (∀ i ∈ order, i < r.parts.length) →
          ∃ slots, layout.placeEach children order layout.emptySlots = .ok slots ∧
            (∀ order' : List Nat, (∀ i, i ∈ order' ↔ i ∈ order) →
              layout.placeEach children order' layout.emptySlots = .ok slots) ∧
            (∀ i, i < r.parts.length → ∃ next, layout.placeAt children i slots = .ok next ∧
              ∀ name k, ¬ registry.OwnsSlot r i name k → next.slot? name k = slots.slot? name k) ∧
            (∀ i name k, registry.OwnsSlot r i name k → slots.slot? name k =
              if i ∈ order then layout.entryAt? children i name k else some none) ∧
            ∀ name k m, slots.slot? name k = some (some m) → ∃ i ∈ order,
              registry.OwnsSlot r i name k ∧ layout.entryAt? children i name k = some (some m) := by
  have hknows := knows_of_ofRoot hroot hregistry hr
  have hdescribes := Layout.describes_flatLayout names r
  have hempty := hdescribes.hasSlots_emptySlots
  refine ⟨_, hknows.layout, fun name rules k hrules hk => ?_,
    fun children hchildren order horder => ?_⟩
  · rw [hdescribes.declared name] at hrules
    split at hrules
    · cases hrules
    · cases hrules
      exact hknows.existsUnique_ownsSlot hk
  have hfits := hknows.fitsAll hchildren
  obtain ⟨slots, hplaced, hslots, hread⟩ := hdescribes.placeEach_eq hfits horder hempty
  have hfilled : ∀ i name k, registry.OwnsSlot r i name k → slots.slot? name k =
      if i ∈ order then (r.flatLayout names).entryAt? children i name k else some none := by
    intro i name k howns
    have hk := (hknows.ownsSlot_iff i name k).1 howns
    have hend := r.slotsBefore_le names name (i + 1)
    rw [hread i name k hk, hdescribes.slot?_emptySlots (by omega)]
  refine ⟨slots, hplaced, fun order' hsame => ?_, fun i hi => ?_, hfilled, fun name k m hm => ?_⟩
  · rw [hdescribes.placeEach_congr hfits horder hsame hempty, hplaced]
  · obtain ⟨next, hnext, -, hchanged⟩ := hdescribes.placeAt_eq hfits hi hslots
    refine ⟨next, hnext, fun name k howns => ?_⟩
    rw [hknows.ownsSlot_iff] at howns
    rw [hchanged name k, if_neg howns]
  · have hk : k < (valuesOf name (r.declarations names)).length := by
      apply Nat.lt_of_not_le
      intro hle
      rw [hslots.slot?_eq_none hdescribes hle] at hm
      cases hm
    obtain ⟨i, howns, -⟩ := hknows.existsUnique_ownsSlot hk
    rw [hfilled i name k howns] at hm
    split at hm
    · next hi => exact ⟨i, hi, howns, hm⟩
    · cases hm

/-- Two alternatives in a rule without a name, one of them again beside it, and a rule that gets no
match: the first has two slots under the shared name, and the second the one after these. -/
theorem placements_partition_alternatives :
    let x := Rule.literal 0 (ascii "a")
    let y := Rule.literal 1 (ascii "b")
    let either := Rule.compound 2 .choice [x, y]
    let inner := Rule.compound 3 .sequence [y]
    let root := Rule.compound 4 .choice [either, x, inner]
    let names : Naming := [(0, ascii "x"), (1, ascii "x"), (3, ascii "inner")]
    let children : Nat → Option Match := fun i =>
      if i = 0 then some ⟨ascii "b", [(ascii "x", [none, some (.plain (ascii "b"))])]⟩
      else if i = 1 then some (.plain (ascii "a")) else none
    root.Coherent ∧ ∃ registry layout, Registry.ofRoot names root = .ok registry ∧
      registry.layout root = .ok layout ∧ (∃! i, registry.OwnsSlot root i (ascii "x") 2) ∧
      ∃ slots, layout.placeEach children [0, 2, 1] layout.emptySlots = .ok slots ∧
        layout.placeEach children [1, 0, 2] layout.emptySlots = .ok slots := by
  intro x y either inner root names children
  have hroot : root.Coherent := by decide
  obtain ⟨registry, hregistry⟩ : ∃ registry, Registry.ofRoot names root = .ok registry := ⟨_, rfl⟩
  obtain ⟨-, hlayouts⟩ := layout_eq hroot hregistry
  obtain ⟨layout, hlayout, hslots, horders⟩ :=
    placements_partition names root hroot hregistry (Rule.mem_subrules_self root)
  have hfound := hlayouts root (Rule.mem_subrules_self root)
  rw [hlayout] at hfound
  cases hfound
  have hchildren : ∀ i part, root.parts[i]? = some part → names.name? part = none →
      ∃ m, children i = some m ∧
        ∀ inner, registry.layout part = .ok inner → inner.IsCarriedBy m := by
    intro i part hpart hname
    match i with
    | 0 =>
      cases hpart
      refine ⟨_, rfl, fun found hfound name rules hrules => ?_⟩
      rw [hlayouts either (by decide)] at hfound
      cases hfound
      have hdeclared : (either.flatLayout names).declared = [(ascii "x", [x, y])] := rfl
      rw [hdeclared, lookup_cons] at hrules
      split at hrules
      · next hx =>
        cases hrules
        exact ⟨_, by rw [lookup_cons, if_pos hx], rfl⟩
      · cases hrules
    | 1 | 2 =>
      cases hpart
      cases hname
    | i + 3 => cases hpart
  obtain ⟨slots, hplaced, hsame, -⟩ := horders children hchildren [0, 2, 1] (by decide)
  refine ⟨hroot, registry, _, hregistry, hlayout, hslots _ [x, y, x] 2 rfl (by decide), slots,
    hplaced, hsame [1, 0, 2] fun i => ?_⟩
  simp only [List.mem_cons, List.not_mem_nil, or_false]
  omega

end Registry

end PhraseGrammar
