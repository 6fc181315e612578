import PhraseGrammar.Pattern.Reader
import PhraseGrammar.Proofs.Pattern.Lexemes
import PhraseGrammar.Proofs.Regex.Matching

/-!
# What holds of every expression that is read

A reader makes expressions in four ways: it takes the item of a lexeme, repeats an item,
puts the items of a branch in a row, and puts branches side by side. What the last three ways
keep holds of all items and branches that a reader holds if it holds of the items of its lexemes
(`Pattern.Reader.All.readAll`). What holds of every item besides holds of the expression of
every pattern (`Pattern.IsClosed.read`). In particular no sequence in it is without parts.
-/

set_option autoImplicit false

namespace PhraseGrammar

namespace Pattern

/-- A property of expressions that is kept by the ways in which a reader puts them together. -/
structure IsKept (P : Regex → Prop) : Prop where
  repeated : ∀ (q : Quantifier) (r : Regex), P r → P (q.apply r)
  row : ∀ parts, (∀ r ∈ parts, P r) → P (rowOf parts)
  alternatives : ∀ branches, (∀ r ∈ branches, P r) → P (alternativesOf branches)

/-- A property of expressions that is kept by all the ways in which a reader makes them. -/
structure IsClosed (P : Regex → Prop) : Prop extends IsKept P where
  set : ∀ bytes, P (.set bytes)
  literal : ∀ bytes, P (.literal bytes)
  anchor : ∀ anchor, P (.anchor anchor)

/-- A property holds of all branches and items of a group. -/
structure Group.All (P : Regex → Prop) (g : Group) : Prop where
  branches : ∀ r ∈ g.branches, P r
  parts : ∀ r ∈ g.parts, P r

/-- A property holds of all branches and items that a reader holds. -/
structure Reader.All (P : Regex → Prop) (reader : Reader) : Prop where
  current : reader.current.All P
  outer : ∀ frame ∈ reader.outer, frame.2.All P

variable {P : Regex → Prop}

/-- Every item is a set, a literal or an anchor. -/
theorem IsClosed.of_lexemeAt (hP : IsClosed P) {pos : Nat} {b : UInt8} {rest : Bytes}
    {l : PlacedLexeme} (h : LexemeAt pos b rest l) {r : Regex} (hr : l.lexeme = .item r) : P r := by
  rcases h.item_cases hr with ⟨bytes, rfl⟩ | ⟨a, rfl⟩ | rfl | ⟨s, negated, rfl⟩ |
    ⟨set, stop, rfl, -⟩
  · exact hP.literal bytes
  · exact hP.anchor a
  · exact hP.set .all
  · exact hP.set _
  · exact hP.set set

theorem Group.All.push {g : Group} {r : Regex} (h : g.All P) (hr : P r) : (g.push r).All P :=
  ⟨h.branches, List.forall_mem_cons.2 ⟨hr, h.parts⟩⟩

theorem Group.All.endBranch (hP : IsKept P) {g : Group} (h : g.All P) : g.endBranch.All P where
  branches := by
    refine List.forall_mem_cons.2 ⟨hP.row _ fun r hr => ?_, h.branches⟩
    exact h.parts r (List.mem_reverse.1 hr)
  parts := fun _ hr => (List.not_mem_nil hr).elim

theorem Group.All.toRegex (hP : IsKept P) {g : Group} (h : g.All P) : P g.toRegex :=
  hP.alternatives _ fun r hr => (Group.All.endBranch hP h).branches r (List.mem_reverse.1 hr)

/-- The item before a quantifier, and the items before it. -/
theorem parts_of_lastItem {g : Group} {start : Nat} {isBrace : Bool} {r : Regex} {rs : List Regex}
    (h : g.lastItem start isBrace = .ok (r, rs)) : g.parts = r :: rs := by
  unfold Group.lastItem at h
  split at h
  · cases h
  · split at h
    · cases h
    · split at h
      · cases h
      · next hparts =>
        cases h
        exact hparts

/-- At first there are no branches and no items. -/
theorem Reader.all_initial : Reader.initial.All P := by
  refine ⟨⟨?_, ?_⟩, ?_⟩
  · exact fun _ hr => (List.not_mem_nil hr).elim
  · exact fun _ hr => (List.not_mem_nil hr).elim
  · exact fun _ hframe => (List.not_mem_nil hframe).elim

/-- Reading a lexeme keeps what holds of all branches and items. -/
theorem Reader.All.step (hP : IsKept P) {reader next : Reader} {l : PlacedLexeme}
    (h : reader.All P) (hitem : ∀ r, l.lexeme = .item r → P r) (hread : reader.step l = .ok next) :
    next.All P := by
  unfold Reader.step at hread
  cases hl : l.lexeme with
  | opening =>
    rw [hl] at hread
    simp only at hread
    split at hread
    · cases hread
    · cases hread
      refine ⟨⟨?_, ?_⟩, List.forall_mem_cons.2 ⟨h.current, h.outer⟩⟩
      · exact fun _ hr => (List.not_mem_nil hr).elim
      · exact fun _ hr => (List.not_mem_nil hr).elim
  | closing =>
    rw [hl] at hread
    simp only at hread
    split at hread
    · cases hread
    · next start enclosing outer houter =>
      cases hread
      have hframes := h.outer
      rw [houter] at hframes
      obtain ⟨henclosing, hothers⟩ := List.forall_mem_cons.1 hframes
      exact ⟨Group.All.push henclosing (h.current.toRegex hP), hothers⟩
  | bar =>
    rw [hl] at hread
    cases hread
    exact ⟨h.current.endBranch hP, h.outer⟩
  | quantifier q =>
    rw [hl] at hread
    simp only at hread
    split at hread
    · cases hread
    · next r rs hlast =>
      cases hread
      have hparts := h.current.parts
      rw [parts_of_lastItem hlast] at hparts
      obtain ⟨hr, hrs⟩ := List.forall_mem_cons.1 hparts
      exact ⟨⟨h.current.branches, List.forall_mem_cons.2 ⟨hP.repeated q r hr, hrs⟩⟩, h.outer⟩
  | brace =>
    rw [hl] at hread
    cases hlast : reader.current.lastItem l.start true with
    | error note =>
      rw [hlast] at hread
      cases hread
    | ok item =>
      rw [hlast] at hread
      cases hread
      exact h
  | item r =>
    rw [hl] at hread
    cases hread
    exact ⟨h.current.push (hitem r hl), h.outer⟩
  | unreadable note =>
    rw [hl] at hread
    cases hread

/-- What holds of all that a reader has holds of the expression that it reads in the end. -/
theorem Reader.All.readAll (hP : IsKept P) {stop : Nat} {reader : Reader}
    {ls : List PlacedLexeme} {r : Regex} (h : reader.All P)
    (hitems : ∀ l ∈ ls, ∀ r, l.lexeme = .item r → P r)
    (hread : (reader.readAll stop ls).regex = some r) : P r := by
  induction ls generalizing reader with
  | nil =>
    rw [Reader.readAll, finish] at hread
    cases houter : reader.outer with
    | nil =>
      rw [houter] at hread
      cases hread
      exact h.current.toRegex hP
    | cons frame outer =>
      rw [houter] at hread
      cases hread
  | cons l ls ih =>
    obtain ⟨hfirst, hlater⟩ := List.forall_mem_cons.1 hitems
    rw [Reader.readAll] at hread
    cases hstep : reader.step l with
    | error note =>
      rw [hstep] at hread
      cases hread
    | ok next =>
      rw [hstep] at hread
      exact ih (h.step hP hfirst hstep) hlater hread

/-- The expression of a pattern is what its lexemes are read as. -/
theorem regex_readAll_of_read {text : Bytes} {i : Nat} {r : Regex}
    (h : (read text i).regex = some r) :
    (Reader.initial.readAll (i + (text.drop i).length) (lexemes i (text.drop i))).regex =
      some r := by
  unfold read at h
  simp only at h
  split at h
  · cases h
  · exact h

/-- What the ways to make expressions keep holds of the expression of every pattern. -/
theorem IsClosed.read (hP : IsClosed P) {text : Bytes} {i : Nat} {r : Regex}
    (h : (read text i).regex = some r) : P r := by
  have hitems : ∀ l ∈ lexemes i (text.drop i), ∀ r, l.lexeme = .item r → P r :=
    forall_mem_lexemes (fun _ _ _ _ hl _ hr => hP.of_lexemeAt hl hr) i (text.drop i)
  exact Reader.all_initial.readAll hP.toIsKept hitems (regex_readAll_of_read h)

/-- Joining literals makes no new expressions but literals. -/
theorem mem_joinLiterals {parts : List Regex} {r : Regex} (h : r ∈ joinLiterals parts) :
    r ∈ parts ∨ ∃ bytes, r = .literal bytes := by
  fun_induction joinLiterals parts with
  | case1 => exact .inl h
  | case2 v rest w others hjoined ih =>
    rcases List.mem_cons.1 h with rfl | hother
    · exact .inr ⟨_, rfl⟩
    · rw [hjoined] at ih
      exact (ih (List.mem_cons_of_mem _ hother)).imp (List.mem_cons_of_mem _) id
  | case3 v rest hempty hjoined ih =>
    exact (ih h).imp (List.mem_cons_of_mem _) id
  | case4 v rest hnonempty hjoined ih =>
    rcases List.mem_cons.1 h with rfl | hother
    · exact .inr ⟨_, rfl⟩
    · exact (ih hother).imp (List.mem_cons_of_mem _) id
  | case5 first rest hfirst ih =>
    rcases List.mem_cons.1 h with rfl | hother
    · exact .inl List.mem_cons_self
    · exact (ih hother).imp (List.mem_cons_of_mem _) id

theorem allProper_iff {rs : List Regex} :
    Regex.allProper rs = true ↔ ∀ r ∈ rs, r.isProper = true := by
  induction rs with
  | nil => simp [Regex.allProper]
  | cons r rs ih => simp [Regex.allProper, ih]

/-- A reader makes no sequence without parts. -/
theorem isClosed_isProper : IsClosed fun r => r.isProper = true where
  set _ := rfl
  literal _ := rfl
  anchor _ := rfl
  repeated q r hr := by
    cases q with
    | oneOrMore => exact hr
    | zeroOrOne => exact hr
    | zeroOrMore => exact hr
  row parts hparts := by
    have hjoined : ∀ r ∈ joinLiterals parts, r.isProper = true := by
      intro r hr
      rcases mem_joinLiterals hr with hmem | ⟨bytes, rfl⟩
      · exact hparts r hmem
      · rfl
    unfold rowOf
    split
    · rfl
    · next r heq => exact hjoined r (heq ▸ List.mem_singleton.2 rfl)
    · next rs hne hsingle =>
      have hrs : joinLiterals parts ≠ [] := hne
      simp [Regex.isProper, hrs, allProper_iff.2 hjoined]
  alternatives branches hbranches := by
    unfold alternativesOf
    split
    · rfl
    · exact hbranches _ List.mem_cons_self
    · exact allProper_iff.2 hbranches

/-- The expression of a pattern has no sequence without parts. -/
theorem isProper_of_read {text : Bytes} {i : Nat} {r : Regex} (h : (read text i).regex = some r) :
    r.isProper = true :=
  isClosed_isProper.read h

end Pattern

end PhraseGrammar
