import PhraseGrammar.Fault

/-!
# Placements

A placement says where the tokens of one component go among the slots of the
rule that it is a component of. The match of a named component fills one slot
under its name. The tokens of an unnamed component are spread: the slots of each
of its names fill as many slots of the enclosing rule, from an offset on.

Filling goes through the names in byte order and through the slots of a name from
first to last. If it comes to a slot that does not exist it stops, and what was
filled before stays.
-/

set_option autoImplicit false

namespace PhraseGrammar

namespace Slots

/-- Sets slot `i` of a name; `none` if there is no such slot. -/
def write? (name : Bytes) (i : Nat) (value : Option Match) : Slots → Option Slots
  | [] => none
  | (n, slots) :: rest =>
    if n = name then
      if i < slots.length then some ((n, slots.set i value) :: rest) else none
    else (write? name i value rest).map ((n, slots) :: ·)

/-- The slots after an attempt to fill some of them, with the fault that ended it. -/
structure Filling where
  slots : Slots
  fault : Option Fault

/-- Fills the slots of a name from slot `i` on. -/
def fill (name : Bytes) (i : Nat) : List (Option Match) → Slots → Filling
  | [], slots => ⟨slots, none⟩
  | value :: values, slots =>
    match write? name i value slots with
    | some written => fill name (i + 1) values written
    | none => ⟨slots, some .noSuchSlot⟩

/-- Spreads tokens, those of each name from the offset that is given for it. -/
def spread (tokens : Slots) : List (Bytes × Nat) → Slots → Filling
  | [], slots => ⟨slots, none⟩
  | (name, offset) :: rest, slots =>
    match tokens.lookup name with
    | none => ⟨slots, some (.missingToken name)⟩
    | some values =>
      if (slots.lookup name).isNone then ⟨slots, some .noSuchSlot⟩
      else
        let filling := fill name offset values slots
        if filling.fault.isSome then filling else spread tokens rest filling.slots

end Slots

/-- Where the tokens of a component go: under its own name, or spread if it has
none. For each name that the component contributes there is the index of its
first slot, names ascending. -/
structure Placement where
  own : Option Bytes
  offsets : List (Bytes × Nat)
  deriving DecidableEq, Repr

namespace Placement

/-- Puts the match of the component, or its tokens, into the slots of the rule. No
match leaves the slot of a named component empty, and has no tokens to spread. -/
def place (p : Placement) (child : Option Match) (slots : Slots) : Slots.Filling :=
  match p.own with
  | none => Slots.spread ((child.map Match.tokens).getD []) p.offsets slots
  | some name =>
    match p.offsets.lookup name with
    | some i => Slots.fill name i [child] slots
    | none => ⟨slots, some .noSuchSlot⟩

end Placement

/-- The slots that were filled, unless something was in the way. -/
def Slots.Filling.toExcept (filling : Slots.Filling) : Except Fault Slots :=
  match filling.fault with
  | none => .ok filling.slots
  | some fault => .error fault

end PhraseGrammar
