import PhraseGrammar.Regex.Basic

/-!
# What a regular expression matches

`Regex.Matches` is the textbook relation between an expression and the pieces of a
text, stated apart from the simulation. A piece is given by the two positions
around it. An anchor looks at the bytes on both sides of a position; what
precedes the position `origin` and what follows the text counts as a newline, so
that the relation depends on where a match was asked to start.

The module also has the two shapes of expressions that the theorems speak about:
those in which every sequence has parts, and those without anchors. An expression
without anchors matches a piece of a text wherever the piece stands.
-/

set_option autoImplicit false

namespace PhraseGrammar

/-- The byte before a position, where nothing before `origin` can be seen. -/
def Bytes.before (text : Bytes) (origin i : Nat) : UInt8 :=
  if i = origin then Byte.newline else (text[i - 1]?).getD Byte.newline

/-- The byte at a position; a newline at the end of the text. -/
def Bytes.after (text : Bytes) (i : Nat) : UInt8 :=
  (text[i]?).getD Byte.newline

/-- When an anchor holds between two bytes. -/
def Anchor.Holds (opts : RegexOptions) (before after : UInt8) : Anchor → Prop
  | .wordEdge => opts.word.contains before ≠ opts.word.contains after
  | .lineStart => before = Byte.newline
  | .lineEnd => after = Byte.newline

namespace Regex

mutual

/-- Whether every sequence in the expression has at least one part. -/
def isProper : Regex → Bool
  | .set _ => true
  | .literal _ => true
  | .anchor _ => true
  | .concat parts => !parts.isEmpty && allProper parts
  | .alternation parts => allProper parts
  | .repetition part => part.isProper
  | .optional part => part.isProper

/-- Whether every sequence in several expressions has at least one part. -/
def allProper : List Regex → Bool
  | [] => true
  | r :: rs => r.isProper && allProper rs

end

mutual

/-- Whether there is no anchor in the expression. -/
def anchorFree : Regex → Bool
  | .set _ => true
  | .literal _ => true
  | .anchor _ => false
  | .concat parts => allAnchorFree parts
  | .alternation parts => allAnchorFree parts
  | .repetition part => part.anchorFree
  | .optional part => part.anchorFree

/-- Whether there is no anchor in several expressions. -/
def allAnchorFree : List Regex → Bool
  | [] => true
  | r :: rs => r.anchorFree && allAnchorFree rs

end

theorem isProper_of_mem {rs : List Regex} {r : Regex} (h : allProper rs = true) (hr : r ∈ rs) :
    r.isProper = true := by
  induction rs with
  | nil => cases hr
  | cons q qs ih =>
    simp only [allProper, Bool.and_eq_true] at h
    rcases List.mem_cons.1 hr with rfl | hr
    · exact h.1
    · exact ih h.2 hr

theorem anchorFree_of_mem {rs : List Regex} {r : Regex} (h : allAnchorFree rs = true)
    (hr : r ∈ rs) : r.anchorFree = true := by
  induction rs with
  | nil => cases hr
  | cons q qs ih =>
    simp only [allAnchorFree, Bool.and_eq_true] at h
    rcases List.mem_cons.1 hr with rfl | hr
    · exact h.1
    · exact ih h.2 hr

mutual

/-- `Matches opts text origin r a b`: the bytes of the text from position `a` up to
position `b` match the expression `r`. -/
inductive Matches (opts : RegexOptions) (text : Bytes) (origin : Nat) : Regex → Nat → Nat → Prop
  | set {bytes : CharSet} {a : Nat} {c : UInt8} :
      text[a]? = some c → bytes.contains c = true → Matches opts text origin (.set bytes) a (a + 1)
  | literal {bytes : Bytes} {a : Nat} :
      bytes <+: text.drop a → Matches opts text origin (.literal bytes) a (a + bytes.length)
  | anchor {anchor : Anchor} {a : Nat} :
      anchor.Holds opts (text.before origin a) (text.after a) →
      Matches opts text origin (.anchor anchor) a a
  | concat {parts : List Regex} {a b : Nat} :
      MatchesRow opts text origin parts a b → Matches opts text origin (.concat parts) a b
  | alternation {parts : List Regex} {part : Regex} {a b : Nat} :
      part ∈ parts → Matches opts text origin part a b →
      Matches opts text origin (.alternation parts) a b
  | once {part : Regex} {a b : Nat} :
      Matches opts text origin part a b → Matches opts text origin (.repetition part) a b
  | more {part : Regex} {a b c : Nat} :
      Matches opts text origin part a b → Matches opts text origin (.repetition part) b c →
      Matches opts text origin (.repetition part) a c
  | absent {part : Regex} {a : Nat} : Matches opts text origin (.optional part) a a
  | present {part : Regex} {a b : Nat} :
      Matches opts text origin part a b → Matches opts text origin (.optional part) a b

/-- The bytes between two positions match several expressions, one after the other. -/
inductive MatchesRow (opts : RegexOptions) (text : Bytes) (origin : Nat) :
    List Regex → Nat → Nat → Prop
  | nil {a : Nat} : MatchesRow opts text origin [] a a
  | cons {part : Regex} {parts : List Regex} {a b c : Nat} :
      Matches opts text origin part a b → MatchesRow opts text origin parts b c →
      MatchesRow opts text origin (part :: parts) a c

end

variable {opts : RegexOptions} {text : Bytes} {origin : Nat}

mutual

/-- A match does not end before it begins. -/
theorem Matches.le : {r : Regex} → {a b : Nat} → Matches opts text origin r a b → a ≤ b
  | _, _, _, .set _ _ => Nat.le_succ _
  | _, _, _, .literal _ => Nat.le_add_right _ _
  | _, _, _, .anchor _ => Nat.le_refl _
  | _, _, _, .concat h => h.le
  | _, _, _, .alternation _ h => h.le
  | _, _, _, .once h => h.le
  | _, _, _, .more h hs => Nat.le_trans h.le hs.le
  | _, _, _, .absent => Nat.le_refl _
  | _, _, _, .present h => h.le

theorem MatchesRow.le : {rs : List Regex} → {a b : Nat} → MatchesRow opts text origin rs a b → a ≤ b
  | _, _, _, .nil => Nat.le_refl _
  | _, _, _, .cons h hs => Nat.le_trans h.le hs.le

end

mutual

/-- A match that begins inside a text ends inside it. -/
theorem Matches.le_length : {r : Regex} → {a b : Nat} → Matches opts text origin r a b →
    a ≤ text.length → b ≤ text.length
  | _, _, _, .set hc _, _ => (List.getElem?_eq_some_iff.1 hc).1
  | _, _, _, .literal hp, ha => by
    have := hp.length_le
    rw [List.length_drop] at this
    omega
  | _, _, _, .anchor _, ha => ha
  | _, _, _, .concat h, ha => h.le_length ha
  | _, _, _, .alternation _ h, ha => h.le_length ha
  | _, _, _, .once h, ha => h.le_length ha
  | _, _, _, .more h hs, ha => hs.le_length (h.le_length ha)
  | _, _, _, .absent, ha => ha
  | _, _, _, .present h, ha => h.le_length ha

theorem MatchesRow.le_length : {rs : List Regex} → {a b : Nat} →
    MatchesRow opts text origin rs a b → a ≤ text.length → b ≤ text.length
  | _, _, _, .nil, ha => ha
  | _, _, _, .cons h hs, ha => hs.le_length (h.le_length ha)

end

/-- A repetition may be continued at its end. That the expression is a repetition is an equation
here, so that the recursion can be on the match. -/
theorem Matches.snoc_of_eq {part : Regex} {c : Nat} : {r : Regex} → {a b : Nat} →
    Matches opts text origin r a b → r = .repetition part → Matches opts text origin part b c →
    Matches opts text origin (.repetition part) a c
  | _, _, _, .once h, hr, hlast => by
    cases hr
    exact .more h (.once hlast)
  | _, _, _, .more h hs, hr, hlast => by
    have hrest := hs.snoc_of_eq hr hlast
    cases hr
    exact .more h hrest

/-- A repetition may be continued at its end. -/
theorem Matches.snoc {part : Regex} {a b c : Nat}
    (h : Matches opts text origin (.repetition part) a b)
    (hlast : Matches opts text origin part b c) :
    Matches opts text origin (.repetition part) a c :=
  h.snoc_of_eq rfl hlast

/-- Texts with the same bytes between two pairs of positions have the same bytes in the
later parts of these. -/
theorem moved_rest {other : Bytes} {a b c a' : Nat} (hab : a ≤ b)
    (h : ∀ i, a + i < c → other[a' + i]? = text[a + i]?) (i : Nat) (hi : b + i < c) :
    other[a' + (b - a) + i]? = text[b + i]? := by
  have hbyte := h (b - a + i) (by omega)
  rwa [← Nat.add_assoc, ← Nat.add_assoc, Nat.add_sub_cancel' hab] at hbyte

mutual

/-- Without anchors a match may be moved to any place, in any text, that has the same bytes. -/
theorem Matches.move (other : Bytes) (origin' : Nat) : {r : Regex} → {a b : Nat} → (a' : Nat) →
    Matches opts text origin r a b → r.anchorFree = true →
    (∀ i, a + i < b → other[a' + i]? = text[a + i]?) →
    Matches opts other origin' r a' (a' + (b - a))
  | _, a, _, a', .set hc hb, _, hsame => by
    rw [Nat.add_sub_cancel_left]
    exact .set ((hsame 0 (by omega)).trans hc) hb
  | .literal bytes, a, _, a', .literal hp, _, hsame => by
    rw [Nat.add_sub_cancel_left]
    refine .literal (List.prefix_iff_getElem?.2 fun i hi => ?_)
    have hbyte := List.prefix_iff_getElem?.1 hp i hi
    rw [List.getElem?_drop] at hbyte ⊢
    exact (hsame i (by omega)).trans hbyte
  | _, _, _, _, .anchor _, hf, _ => by simp [anchorFree] at hf
  | _, _, _, a', .concat h, hf, hsame => .concat (h.move other origin' a' hf hsame)
  | _, _, _, a', .alternation hmem h, hf, hsame =>
    .alternation hmem (h.move other origin' a' (anchorFree_of_mem hf hmem) hsame)
  | _, _, _, a', .once h, hf, hsame => .once (h.move other origin' a' hf hsame)
  | _, a, c, a', .more (b := b) h hs, hf, hsame => by
    have hab := h.le
    have hbc := hs.le
    have hfirst := h.move other origin' a' hf fun i hi => hsame i (by omega)
    have hrest := hs.move other origin' (a' + (b - a)) hf (moved_rest hab hsame)
    rw [show a' + (b - a) + (c - b) = a' + (c - a) by omega] at hrest
    exact .more hfirst hrest
  | _, a, _, a', .absent, _, _ => by
    rw [Nat.sub_self]
    exact .absent
  | _, _, _, a', .present h, hf, hsame => .present (h.move other origin' a' hf hsame)

/-- Without anchors a match of a row may be moved in the same way. -/
theorem MatchesRow.move (other : Bytes) (origin' : Nat) : {rs : List Regex} → {a b : Nat} →
    (a' : Nat) →
    MatchesRow opts text origin rs a b → allAnchorFree rs = true →
    (∀ i, a + i < b → other[a' + i]? = text[a + i]?) →
    MatchesRow opts other origin' rs a' (a' + (b - a))
  | _, a, _, a', .nil, _, _ => by
    rw [Nat.sub_self]
    exact .nil
  | _, a, c, a', .cons (b := b) h hs, hf, hsame => by
    simp only [allAnchorFree, Bool.and_eq_true] at hf
    have hab := h.le
    have hbc := hs.le
    have hfirst := h.move other origin' a' hf.1 fun i hi => hsame i (by omega)
    have hrest := hs.move other origin' (a' + (b - a)) hf.2 (moved_rest hab hsame)
    rw [show a' + (b - a) + (c - b) = a' + (c - a) by omega] at hrest
    exact .cons hfirst hrest

end

end Regex

end PhraseGrammar
