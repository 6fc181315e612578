import PhraseGrammar.Proofs.Pattern.Acceptance
import PhraseGrammar.Proofs.Pattern.Expressions
import PhraseGrammar.Proofs.Pattern.Joining
import PhraseGrammar.Proofs.Regex.Soundness

/-!
# The normal form of what is read

The expression of a pattern is in normal form: sequences and alternatives have at least two
parts, the literals in a sequence are neither empty nor next to each other, and a set holds all
bytes or has ranges of a few kinds. This is said of each expression in it (`Regex.nodes`).

Sequences and alternatives get their shape when a group ends, so that part is kept by the ways
in which expressions are put together (`isKept_isNormal`). A set gets its ranges when its
lexeme is read, even if there is something wrong with them; but a lexeme with errors among its
notes has no place in an accepted pattern. The ranges are normal if there are no such errors
(`isNormal_of_readItems`).
-/

set_option autoImplicit false

namespace PhraseGrammar

/-- A range lies between two bytes. -/
def ByteRange.LiesIn (range : ByteRange) (low high : UInt8) : Prop :=
  low ≤ range.first ∧ range.last ≤ high

/-- The ranges of a normal set: one byte, digits, letters of one case, or the blank bytes from
the tab to the carriage return. -/
structure ByteRange.IsNormal (range : ByteRange) : Prop where
  first_le_last : range.first ≤ range.last
  kind : range.first = range.last ∨ range.LiesIn '0'.toUInt8 '9'.toUInt8 ∨
    range.LiesIn 'A'.toUInt8 'Z'.toUInt8 ∨ range.LiesIn 'a'.toUInt8 'z'.toUInt8 ∨
    range = ⟨'\t'.toUInt8, '\r'.toUInt8⟩

/-- The set of all bytes, or one or more normal ranges with or without negation. -/
def CharSet.IsNormal (set : CharSet) : Prop :=
  set = .all ∨ set.ranges ≠ [] ∧ ∀ range ∈ set.ranges, range.IsNormal

namespace Regex

mutual

/-- All expressions in an expression, itself first. -/
def nodes : Regex → List Regex
  | .set bytes => [.set bytes]
  | .literal bytes => [.literal bytes]
  | .anchor a => [.anchor a]
  | .concat parts => .concat parts :: nodesOfParts parts
  | .alternation parts => .alternation parts :: nodesOfParts parts
  | .repetition part => .repetition part :: part.nodes
  | .optional part => .optional part :: part.nodes

/-- All expressions in several expressions. -/
def nodesOfParts : List Regex → List Regex
  | [] => []
  | r :: rs => r.nodes ++ nodesOfParts rs

end

/-- No literal among some parts is empty, and no two literals are next to each other. -/
structure AreJoined (parts : List Regex) : Prop where
  nonempty : ∀ part ∈ parts, part ≠ .literal []
  apart : parts.IsChain fun part next => ¬ (part.isLiteral = true ∧ next.isLiteral = true)

/-- The shape of an expression, with no regard to the shapes of the expressions in it. -/
def HasNormalShape : Regex → Prop
  | .set bytes => bytes.IsNormal
  | .concat parts => 2 ≤ parts.length ∧ AreJoined parts
  | .alternation parts => 2 ≤ parts.length
  | .literal _ | .anchor _ | .repetition _ | .optional _ => True

/-- All expressions in an expression have their shapes. -/
def IsNormal (r : Regex) : Prop :=
  ∀ node ∈ r.nodes, node.HasNormalShape

theorem mem_nodesOfParts {node : Regex} {parts : List Regex} :
    node ∈ nodesOfParts parts ↔ ∃ part ∈ parts, node ∈ part.nodes := by
  induction parts with
  | nil => simp [nodesOfParts]
  | cons r rs ih => simp [nodesOfParts, ih]

theorem isNormal_literal (bytes : Bytes) : (literal bytes).IsNormal :=
  List.forall_mem_singleton.2 trivial

theorem isNormal_anchor (a : Anchor) : (anchor a).IsNormal :=
  List.forall_mem_singleton.2 trivial

theorem isNormal_set {bytes : CharSet} (h : bytes.IsNormal) : (set bytes).IsNormal :=
  List.forall_mem_singleton.2 h

theorem isNormal_concat {parts : List Regex} (hlength : 2 ≤ parts.length)
    (hjoined : AreJoined parts) (hparts : ∀ part ∈ parts, part.IsNormal) :
    (concat parts).IsNormal := by
  refine List.forall_mem_cons.2 ⟨⟨hlength, hjoined⟩, fun node hnode => ?_⟩
  obtain ⟨part, hpart, hin⟩ := mem_nodesOfParts.1 hnode
  exact hparts part hpart node hin

theorem isNormal_alternation {parts : List Regex} (hlength : 2 ≤ parts.length)
    (hparts : ∀ part ∈ parts, part.IsNormal) : (alternation parts).IsNormal := by
  refine List.forall_mem_cons.2 ⟨hlength, fun node hnode => ?_⟩
  obtain ⟨part, hpart, hin⟩ := mem_nodesOfParts.1 hnode
  exact hparts part hpart node hin

end Regex

namespace Pattern

/-- A literal joined to parts that have been joined. -/
theorem areJoined_attach (v : Bytes) {parts : List Regex} (h : Regex.AreJoined parts) :
    Regex.AreJoined (attach v parts) := by
  unfold attach
  split
  · next w others =>
    obtain ⟨hnonempty, hothers⟩ := List.forall_mem_cons.1 h.nonempty
    refine ⟨List.forall_mem_cons.2 ⟨fun heq => ?_, hothers⟩, ?_⟩
    · simp only [Regex.literal.injEq, List.append_eq_nil_iff] at heq
      exact hnonempty (congrArg Regex.literal heq.2)
    · cases others with
      | nil => exact List.IsChain.singleton _
      | cons next others => exact List.isChain_cons_cons.2 (List.isChain_cons_cons.1 h.apart)
  · next hfirst =>
    split
    · exact h
    · next hv =>
      refine ⟨List.forall_mem_cons.2 ⟨fun heq => ?_, h.nonempty⟩, ?_⟩
      · cases heq
        exact hv rfl
      · cases parts with
        | nil => exact List.IsChain.singleton _
        | cons first others =>
          refine List.isChain_cons_cons.2 ⟨fun hboth => ?_, h.apart⟩
          cases first with
          | literal w => exact hfirst w others rfl
          | _ => cases hboth.2

/-- Joining leaves no literals that are empty or next to each other. -/
theorem areJoined_joinLiterals (parts : List Regex) : Regex.AreJoined (joinLiterals parts) := by
  induction parts with
  | nil => exact ⟨fun part hpart => (List.not_mem_nil hpart).elim, .nil⟩
  | cons r rest ih =>
    have hother (hr : r.isLiteral = false) : Regex.AreJoined (r :: joinLiterals rest) := by
      refine ⟨List.forall_mem_cons.2 ⟨fun heq => ?_, ih.nonempty⟩, ?_⟩
      · rw [heq] at hr
        cases hr
      · cases hrest : joinLiterals rest with
        | nil => exact List.IsChain.singleton _
        | cons next others =>
          rw [hrest] at ih
          refine List.isChain_cons_cons.2 ⟨fun hboth => ?_, ih.apart⟩
          rw [hr] at hboth
          cases hboth.1
    cases r with
    | literal v =>
      rw [joinLiterals_literal]
      exact areJoined_attach v ih
    | _ => exact hother rfl

/-- Normal forms are put together to normal forms. -/
theorem isKept_isNormal : IsKept Regex.IsNormal where
  repeated q r hr := by
    have hrepetition : (Regex.repetition r).IsNormal := List.forall_mem_cons.2 ⟨trivial, hr⟩
    cases q with
    | oneOrMore => exact hrepetition
    | zeroOrOne => exact List.forall_mem_cons.2 ⟨trivial, hr⟩
    | zeroOrMore => exact List.forall_mem_cons.2 ⟨trivial, hrepetition⟩
  row parts hparts := by
    have hjoined : ∀ r ∈ joinLiterals parts, r.IsNormal := by
      intro r hr
      rcases mem_joinLiterals hr with hmem | ⟨bytes, rfl⟩
      · exact hparts r hmem
      · exact Regex.isNormal_literal bytes
    have hseparate := areJoined_joinLiterals parts
    unfold rowOf
    cases hrow : joinLiterals parts with
    | nil => exact Regex.isNormal_literal []
    | cons first others =>
      rw [hrow] at hjoined hseparate
      cases others with
      | nil => exact hjoined first List.mem_cons_self
      | cons second others => exact Regex.isNormal_concat (by simp) hseparate hjoined
  alternatives branches hbranches := by
    cases branches with
    | nil => exact Regex.isNormal_literal []
    | cons first others =>
      cases others with
      | nil => exact hbranches first List.mem_cons_self
      | cons second others => exact Regex.isNormal_alternation (by simp) hbranches

/-- Notes without an error in them. -/
abbrev AreWarnings (notes : List Note) : Prop :=
  ∀ note ∈ notes, note.isError = false

theorem isNormal_single (b : UInt8) : (ByteRange.single b).IsNormal :=
  ⟨UInt8.le_refl b, .inl rfl⟩

/-- Shorthands stand for normal sets. -/
theorem Shorthand.isNormal (s : Shorthand) (negated : Bool) :
    CharSet.IsNormal ⟨s.ranges, negated⟩ := by
  have hdigits : (ByteRange.mk '0'.toUInt8 '9'.toUInt8).IsNormal :=
    ⟨by decide, .inr (.inl ⟨by decide, by decide⟩)⟩
  have hupper : (ByteRange.mk 'A'.toUInt8 'Z'.toUInt8).IsNormal :=
    ⟨by decide, .inr (.inr (.inl ⟨by decide, by decide⟩))⟩
  have hlower : (ByteRange.mk 'a'.toUInt8 'z'.toUInt8).IsNormal :=
    ⟨by decide, .inr (.inr (.inr (.inl ⟨by decide, by decide⟩)))⟩
  have hblank : (ByteRange.mk '\t'.toUInt8 '\r'.toUInt8).IsNormal :=
    ⟨by decide, .inr (.inr (.inr (.inr rfl)))⟩
  refine .inr ⟨?_, ?_⟩
  · cases s with
    | _ => exact List.cons_ne_nil _ _
  · cases s with
    | digit => simpa [Shorthand.ranges, CharSet.digits] using hdigits
    | word =>
      simpa [Shorthand.ranges, CharSet.wordBytes] using
        ⟨hdigits, hupper, hlower, isNormal_single _⟩
    | space => simpa [Shorthand.ranges, CharSet.spaces] using ⟨isNormal_single _, hblank⟩

/-- A range without a flaw, or with equal ends, is normal. -/
theorem isNormal_of_rangeFlaw {first last : UInt8}
    (h : ∀ flaw ∈ rangeFlaw? first last, flaw.severity = .warning) :
    (ByteRange.mk first last).IsNormal := by
  unfold rangeFlaw? at h
  split at h
  · next heq => exact ⟨UInt8.le_of_eq heq, .inl heq⟩
  · split at h
    · cases h _ rfl
    · next hge =>
      split at h
      · cases h _ rfl
      · next hplain =>
        refine ⟨UInt8.not_lt.1 hge, ?_⟩
        simp only [isPlainRange, Byte.isDigit, Byte.isUpper, Byte.isLower, Bool.not_eq_true',
          Bool.not_eq_false, Bool.or_eq_true, Bool.and_eq_true, decide_eq_true_eq] at hplain
        rcases hplain with (⟨hfirst, hlast⟩ | ⟨hfirst, hlast⟩) | ⟨hfirst, hlast⟩
        · exact .inr (.inl ⟨hfirst.1, hlast.2⟩)
        · exact .inr (.inr (.inl ⟨hfirst.1, hlast.2⟩))
        · exact .inr (.inr (.inr (.inl ⟨hfirst.1, hlast.2⟩)))

/-- An element that is there but cannot be read is wrong. -/
theorem isError_of_readElement {pos : Nat} {b : UInt8} {rest : Bytes} {notes : List Note}
    (h : readElement pos (b :: rest) = .error notes) : ¬ AreWarnings notes := by
  intro hwarnings
  rw [readElement] at h
  split at h
  · cases hescape : readEscape setSpecials pos rest with
    | ok read =>
      rw [hescape] at h
      cases h
    | error note =>
      rw [hescape] at h
      cases h
      have hwarning := hwarnings note List.mem_cons_self
      rw [isError_of_readEscape hescape] at hwarning
      cases hwarning
  · split at h
    · cases h
    · cases h
      cases hwarnings _ List.mem_cons_self

/-- A range that is read with nothing but warnings is normal. -/
theorem isNormal_of_readRangeEnd {start pos width : Nat} {first : UInt8} {text : Bytes}
    (h : AreWarnings (readRangeEnd start first pos text width).notes) :
    ∃ item, (readRangeEnd start first pos text width).item = some item ∧ item.ranges ≠ [] ∧
      ∀ range ∈ item.ranges, range.IsNormal := by
  unfold readRangeEnd at h ⊢
  split
  · exact ⟨_, rfl, List.cons_ne_nil _ _, List.forall_mem_singleton.2 (isNormal_single first)⟩
  · next last w hlast =>
    simp only [hlast] at h
    refine ⟨_, rfl, List.cons_ne_nil _ _, List.forall_mem_singleton.2 ?_⟩
    refine isNormal_of_rangeFlaw fun flaw hflaw => ?_
    have hwarning := h ⟨flaw, start, pos + w⟩ (List.mem_append_left _ (List.mem_map.2
      ⟨flaw, Option.mem_toList.2 hflaw, rfl⟩))
    cases hseverity : flaw.severity with
    | warning => rfl
    | error => simp [Note.isError, hseverity] at hwarning

/-- An item that is read with nothing but warnings is not skipped, and its ranges are normal. -/
theorem isNormal_of_readItem {start pos : Nat} {b : UInt8} {rest : Bytes}
    (h : AreWarnings (readItem start pos (b :: rest)).notes) :
    ∃ item, (readItem start pos (b :: rest)).item = some item ∧ item.ranges ≠ [] ∧
      ∀ range ∈ item.ranges, range.IsNormal := by
  unfold readItem at h ⊢
  split
  · next s hs =>
    rcases s.isNormal false with hall | hranges
    · cases s with
      | _ => cases hall
    · exact ⟨_, rfl, hranges⟩
  · next hs =>
    simp only [hs] at h
    split
    · next notes hfirst =>
      simp only [hfirst] at h
      exact absurd h (isError_of_readElement hfirst)
    · next first w hfirst =>
      simp only [hfirst] at h ⊢
      split
      · next hdash =>
        rw [if_pos hdash] at h
        exact isNormal_of_readRangeEnd h
      · exact ⟨_, rfl, List.cons_ne_nil _ _, List.forall_mem_singleton.2 (isNormal_single first)⟩

/-- The items of a set that is read with nothing but warnings have ranges, and these are normal. -/
theorem isNormal_of_readItems {start pos stop : Nat} {text : Bytes}
    (hstop : (readItems start pos text).stop = some stop)
    (h : AreWarnings (readItems start pos text).notes) :
    (readItems start pos text).items.flatMap SetItem.ranges ≠ [] ∧
      ∀ range ∈ (readItems start pos text).items.flatMap SetItem.ranges, range.IsNormal := by
  fun_induction readItems start pos text with
  | case1 => cases hstop
  | case2 pos b rest first next remaining hclosing =>
    obtain ⟨item, hitem, hne, hnormal⟩ := isNormal_of_readItem h
    simpa [first, hitem] using ⟨hne, hnormal⟩
  | case3 pos b rest first next remaining hopen others ih =>
    obtain ⟨hfirst, hothers⟩ := List.forall_mem_append.1 h
    obtain ⟨item, hitem, hne, hnormal⟩ := isNormal_of_readItem hfirst
    obtain ⟨-, hlater⟩ := ih hstop hothers
    simp only [first, hitem, Option.toList_some, List.flatMap_append, List.flatMap_cons,
      List.flatMap_nil, List.append_nil]
    exact ⟨List.append_ne_nil_of_left_ne_nil hne _, List.forall_mem_append.2 ⟨hnormal, hlater⟩⟩

/-- A bracket set that is read with nothing but warnings is normal. -/
theorem isNormal_of_readBracketSet {pos stop : Nat} {body : Bytes} {set : CharSet}
    (hset : (readBracketSet pos body).result = some (set, stop))
    (h : AreWarnings (readBracketSet pos body).notes) : set.IsNormal := by
  simp only [readBracketSet] at hset h
  obtain ⟨found, hfound, heq⟩ := Option.map_eq_some_iff.1 hset
  cases heq
  right
  split at hfound
  · next hcaret =>
    rw [if_pos hcaret] at h ⊢
    exact isNormal_of_readItems hfound h
  · next hcaret =>
    rw [if_neg hcaret] at h ⊢
    exact isNormal_of_readItems hfound h

/-- The item of a lexeme with nothing but warnings is normal. -/
theorem LexemeAt.isNormal {pos : Nat} {b : UInt8} {rest : Bytes} {l : PlacedLexeme}
    (h : LexemeAt pos b rest l) (hnotes : AreWarnings l.notes) {r : Regex}
    (hr : l.lexeme = .item r) : r.IsNormal := by
  rcases h.item_cases hr with ⟨bytes, rfl⟩ | ⟨a, rfl⟩ | rfl | ⟨s, negated, rfl⟩ |
    ⟨set, stop, rfl, hset, hsame⟩
  · exact Regex.isNormal_literal bytes
  · exact Regex.isNormal_anchor a
  · exact Regex.isNormal_set (.inl rfl)
  · exact Regex.isNormal_set (s.isNormal negated)
  · rw [hsame] at hnotes
    exact Regex.isNormal_set (isNormal_of_readBracketSet hset hnotes)

/-- The lexemes of what fits have no errors among their notes. -/
theorem Place.areWarnings_of_fits {ls : List PlacedLexeme} {place : Place}
    (h : place.fits ls = true) : ∀ l ∈ ls, AreWarnings l.notes := by
  induction ls generalizing place with
  | nil => exact fun l hl => (List.not_mem_nil hl).elim
  | cons l ls ih =>
    rw [Place.fits, Bool.and_eq_true, Bool.not_eq_true', List.any_eq_false] at h
    obtain ⟨hnotes, hrest⟩ := h
    refine List.forall_mem_cons.2 ⟨fun note hnote => Bool.not_eq_true _ ▸ hnotes note hnote, ?_⟩
    split at hrest
    · exact ih hrest
    · cases hrest

/-- The expression of every pattern is normal. -/
theorem isNormal_of_read {text : Bytes} {i : Nat} {r : Regex} (h : (read text i).regex = some r) :
    r.IsNormal := by
  have haccepted := isSome_read text i
  rw [h, Option.isSome_some, eq_comm, isAccepted_readAll_iff _ _ Reader.isAt_initial] at haccepted
  have hclean := Place.areWarnings_of_fits haccepted.1
  have hitems : ∀ l ∈ lexemes i (text.drop i), AreWarnings l.notes →
      ∀ r, l.lexeme = .item r → r.IsNormal :=
    forall_mem_lexemes (fun _ _ _ _ hl hnotes _ hr => hl.isNormal hnotes hr) i (text.drop i)
  apply Reader.all_initial.readAll isKept_isNormal ?_ (regex_readAll_of_read h)
  intro l hl
  exact hitems l hl (hclean l hl)

/-- The expression of an accepted pattern is in normal form in every part, at any depth, so
that no sequence in it is without parts. Hence matching it never fails, whatever the text and
wherever it starts. -/
theorem read_normal {text : Bytes} {i : Nat} {r : Regex} (h : (read text i).regex = some r) :
    (∀ node ∈ r.nodes, node.HasNormalShape) ∧
    ∀ (opts : RegexOptions) (input : Bytes) (j : Nat),
      ∃ result, r.consume opts input j = .ok result := by
  refine ⟨isNormal_of_read h, fun opts input j => ?_⟩
  exact Regex.exists_consume_eq_ok opts (isProper_of_read h) input j

/-- A pattern with an empty group, neighbouring bytes and a set is read into a normal form. -/
theorem read_normal_row :
    ∃ r, (read (ascii "(a|())bc[\\s0-9x-x]*") 0).regex = some r ∧
      (∀ node ∈ r.nodes, node.HasNormalShape) ∧
      ∃ result, r.consume .default (ascii "abc 1") 0 = .ok result := by
  have hsome : (read (ascii "(a|())bc[\\s0-9x-x]*") 0).regex.isSome = true := by
    decide +kernel
  obtain ⟨r, hr⟩ := Option.isSome_iff_exists.1 hsome
  obtain ⟨hshapes, hruns⟩ := read_normal hr
  exact ⟨r, hr, hshapes, hruns .default (ascii "abc 1") 0⟩

end Pattern

end PhraseGrammar
