import Mathlib.Data.List.DropRight
import Mathlib.Data.List.Infix
import PhraseGrammar.Proofs.Pattern.Symbols

/-!
# The grammar of patterns without bracket sets

Whether a pattern without bracket sets is accepted can be told from its symbols alone
(`read_iff_isSetFree`). Each symbol may follow those before it, or may not (`MayFollow`). This
depends on three things: how many groups are open, how many quantifiers there are in a row, and
whether there is something to repeat. These are what the place after some symbols consists of
(`Place.IsAfter`), and a step keeps them together (`Place.IsAfter.step`).

The depth limit is a byte that counts up to six for each open group, so that 40 groups do not
reach it (`MatchUp.load_of_mem_chains`).
-/

set_option autoImplicit false

namespace PhraseGrammar

namespace Pattern

/-- Some symbols end in one that can be repeated, or in one that ends what can be repeated. -/
def EndInItem (syms : List Symbol) : Prop :=
  ∃ last, syms.getLast? = some last ∧ last ≠ .opening ∧ last ≠ .bar

/-- Symbols that make up a pattern without bracket sets. -/
structure IsSetFree (syms : List Symbol) : Prop where
  /-- No group is closed that is not open. -/
  opened : ∀ before, before <+: syms → before.count .closing ≤ before.count .opening
  /-- All groups are closed in the end. -/
  closed : syms.count .opening = syms.count .closing
  noBrace : .brace ∉ syms
  /-- Every quantifier has something to repeat right before it. -/
  repeats : ∀ before q, before ++ [q] <+: syms → q.isQuantifier = true → EndInItem before
  /-- There are no six quantifiers in a row. -/
  inRow : ∀ run, run <:+: syms → run.length = 6 → ∃ s ∈ run, s.isQuantifier = false

/-- At most `n` groups are open at once. -/
def NestWithin (n : Nat) (syms : List Symbol) : Prop :=
  ∀ before, before <+: syms → before.count .opening ≤ before.count .closing + n

instance (n : Nat) (syms : List Symbol) : Decidable (NestWithin n syms) :=
  decidable_of_iff
    (∀ before ∈ syms.inits, before.count .opening ≤ before.count .closing + n)
    (forall_congr' fun _ => imp_congr_left (List.mem_inits _ _))

/-- How many quantifiers there are at the end of some symbols. -/
def lastQuantifiers (syms : List Symbol) : Nat :=
  (syms.rtakeWhile Symbol.isQuantifier).length

/-- A symbol may follow others in a pattern. -/
structure MayFollow (before : List Symbol) (s : Symbol) : Prop where
  ne_brace : s ≠ .brace
  closes : s = .closing → before.count .closing < before.count .opening
  repeats : s.isQuantifier = true → EndInItem before ∧ lastQuantifiers before < maxQuantifiers

/-- The place after some symbols. -/
structure Place.IsAfter (place : Place) (before : List Symbol) : Prop where
  opened : place.chain.length + before.count .closing = before.count .opening
  quantifiers : place.quantifiers = lastQuantifiers before
  hasItem : place.hasItem = true ↔ EndInItem before

/-- At most five quantifiers are counted for each group, and for the current branch. -/
structure Place.IsBounded (place : Place) : Prop where
  quantifiers : place.quantifiers ≤ maxQuantifiers
  chain : ∀ quantifiers ∈ place.chain, quantifiers ≤ maxQuantifiers

theorem not_endInItem_nil : ¬ EndInItem [] := by
  simp [EndInItem]

theorem endInItem_concat_iff (before : List Symbol) (s : Symbol) :
    EndInItem (before ++ [s]) ↔ s ≠ .opening ∧ s ≠ .bar := by
  simp [EndInItem]

theorem Place.isAfter_initial : Place.initial.IsAfter [] :=
  ⟨rfl, rfl, iff_of_false Bool.false_ne_true not_endInItem_nil⟩

theorem Place.isBounded_initial : Place.initial.IsBounded :=
  ⟨Nat.zero_le _, fun _ h => (List.not_mem_nil h).elim⟩

theorem lastQuantifiers_concat {s : Symbol} (before : List Symbol) (h : s.isQuantifier = true) :
    lastQuantifiers (before ++ [s]) = lastQuantifiers before + 1 := by
  rw [lastQuantifiers, List.rtakeWhile_concat_pos _ _ _ h, List.length_append]
  rfl

theorem lastQuantifiers_concat_eq_zero {s : Symbol} (before : List Symbol)
    (h : s.isQuantifier = false) : lastQuantifiers (before ++ [s]) = 0 := by
  rw [lastQuantifiers, List.rtakeWhile_concat_neg _ _ _ (Bool.eq_false_iff.1 h)]
  rfl

/-- Quantifiers at the end are counted. -/
theorem length_le_lastQuantifiers (before : List Symbol) {run : List Symbol}
    (h : ∀ s ∈ run, s.isQuantifier = true) : run.length ≤ lastQuantifiers (before ++ run) := by
  induction run using List.reverseRecOn with
  | nil => exact Nat.zero_le _
  | append_singleton run s ih =>
    obtain ⟨hrun, hs⟩ := List.forall_mem_append.1 h
    have hle := ih hrun
    rw [← List.append_assoc, lastQuantifiers_concat _ (hs s List.mem_cons_self), List.length_append]
    exact Nat.succ_le_succ hle

/-- Of the quantifiers at the end as many can be taken as one likes. -/
theorem exists_run {before : List Symbol} {n : Nat} (h : n ≤ lastQuantifiers before) :
    ∃ run, run <:+ before ∧ run.length = n ∧ ∀ s ∈ run, s.isQuantifier = true := by
  let last := before.rtakeWhile Symbol.isQuantifier
  refine ⟨last.drop (last.length - n), ?_, ?_, fun s hs => ?_⟩
  · exact (List.drop_suffix _ _).trans (List.rtakeWhile_suffix _ _)
  · rw [List.length_drop]
    exact Nat.sub_sub_self h
  · exact List.mem_rtakeWhile_imp (List.mem_of_mem_drop hs)

theorem count_concat_self (before : List Symbol) (s : Symbol) :
    (before ++ [s]).count s = before.count s + 1 := by
  rw [List.count_append, List.count_singleton_self]

theorem count_concat_of_ne (before : List Symbol) {s t : Symbol} (h : t ≠ s) :
    (before ++ [t]).count s = before.count s := by
  have hnone : List.count s [t] = 0 := List.count_eq_zero.2 (by simpa using h.symm)
  rw [List.count_append, hnone, Nat.add_zero]

/-- The symbols that open, close and separate do not repeat. -/
theorem Symbol.ne_of_isQuantifier {s : Symbol} (h : s.isQuantifier = true) :
    s ≠ .opening ∧ s ≠ .closing ∧ s ≠ .bar ∧ s ≠ .brace := by
  refine ⟨?_, ?_, ?_, ?_⟩
  all_goals
    intro heq
    rw [heq] at h
    cases h

theorem Symbol.ne_of_isPlain {s : Symbol} (h : s.isPlain = true) :
    s.isQuantifier = false ∧ s ≠ .opening ∧ s ≠ .closing ∧ s ≠ .bar ∧ s ≠ .brace := by
  simpa [Symbol.isPlain] using h

section

variable {place : Place} {before : List Symbol} {s : Symbol} {l : Lexeme}

/-- A symbol that may follow leads to the place after it. -/
theorem Place.IsAfter.step_eq_some (h : place.IsAfter before) (hs : s.StandsFor l)
    (hmay : MayFollow before s) :
    ∃ next, place.step l = some next ∧ next.IsAfter (before ++ [s]) := by
  have hopened := h.opened
  cases hs with
  | opening =>
    refine ⟨_, rfl, ?_, (lastQuantifiers_concat_eq_zero _ (by decide)).symm, ?_⟩
    · rw [count_concat_self, count_concat_of_ne _ (by decide), List.length_cons]
      omega
    · simp [endInItem_concat_iff]
  | closing =>
    have hcloses := hmay.closes rfl
    cases hchain : place.chain with
    | nil =>
      rw [hchain, List.length_nil] at hopened
      omega
    | cons quantifiers around =>
      rw [hchain, List.length_cons] at hopened
      refine ⟨_, by rw [step, hchain], ?_, ?_, ?_⟩
      · rw [count_concat_self, count_concat_of_ne _ (by decide)]
        simp only
        omega
      · exact (lastQuantifiers_concat_eq_zero _ (by decide)).symm
      · exact iff_of_true rfl ((endInItem_concat_iff _ _).2 (by decide))
  | bar =>
    refine ⟨_, rfl, ?_, (lastQuantifiers_concat_eq_zero _ (by decide)).symm, ?_⟩
    · rw [count_concat_of_ne _ (by decide), count_concat_of_ne _ (by decide)]
      exact hopened
    · simp [endInItem_concat_iff]
  | brace => exact absurd rfl hmay.ne_brace
  | quantifier q hq =>
    obtain ⟨hitem, hroom⟩ := hmay.repeats hq
    obtain ⟨hopening, hclosing, hbar, -⟩ := Symbol.ne_of_isQuantifier hq
    have hallowed : place.hasItem = true ∧ place.quantifiers < maxQuantifiers :=
      ⟨h.hasItem.2 hitem, h.quantifiers.symm ▸ hroom⟩
    refine ⟨_, by rw [step, if_pos hallowed], ?_, ?_, ?_⟩
    · rw [count_concat_of_ne _ hopening, count_concat_of_ne _ hclosing]
      exact hopened
    · rw [lastQuantifiers_concat _ hq, h.quantifiers]
    · exact iff_of_true rfl ((endInItem_concat_iff _ _).2 ⟨hopening, hbar⟩)
  | item r hplain =>
    obtain ⟨hq, hopening, hclosing, hbar, -⟩ := Symbol.ne_of_isPlain hplain
    refine ⟨_, rfl, ?_, (lastQuantifiers_concat_eq_zero _ hq).symm, ?_⟩
    · rw [count_concat_of_ne _ hopening, count_concat_of_ne _ hclosing]
      exact hopened
    · exact iff_of_true rfl ((endInItem_concat_iff _ _).2 ⟨hopening, hbar⟩)

/-- A symbol that neither closes nor repeats may follow anything. -/
theorem MayFollow.of_ne (hbrace : s ≠ .brace) (hclosing : s ≠ .closing)
    (hq : s.isQuantifier = false) : MayFollow before s := by
  refine ⟨hbrace, fun heq => absurd heq hclosing, fun hrepeats => ?_⟩
  rw [hq] at hrepeats
  cases hrepeats

/-- There is no place after a symbol that may not follow. -/
theorem Place.IsAfter.mayFollow (h : place.IsAfter before) (hs : s.StandsFor l) {next : Place}
    (hstep : place.step l = some next) : MayFollow before s := by
  have hopened := h.opened
  cases hs with
  | opening => exact .of_ne (by decide) (by decide) (by decide)
  | closing =>
    rw [step] at hstep
    split at hstep
    · cases hstep
    · next quantifiers around hchain =>
      rw [hchain, List.length_cons] at hopened
      refine ⟨by decide, fun _ => by omega, fun hq => ?_⟩
      cases hq
  | bar => exact .of_ne (by decide) (by decide) (by decide)
  | brace => cases hstep
  | quantifier q hq =>
    obtain ⟨-, hclosing, -, hbrace⟩ := Symbol.ne_of_isQuantifier hq
    rw [step] at hstep
    split at hstep
    · next hallowed =>
      exact ⟨hbrace, fun heq => absurd heq hclosing,
        fun _ => ⟨h.hasItem.1 hallowed.1, h.quantifiers ▸ hallowed.2⟩⟩
    · cases hstep
  | item r hplain =>
    obtain ⟨hq, -, hclosing, -, hbrace⟩ := Symbol.ne_of_isPlain hplain
    exact .of_ne hbrace hclosing hq

/-- A step leads to the place after one more symbol. -/
theorem Place.IsAfter.step (h : place.IsAfter before) (hs : s.StandsFor l) {next : Place}
    (hstep : place.step l = some next) : next.IsAfter (before ++ [s]) := by
  obtain ⟨found, hfound, hafter⟩ := h.step_eq_some hs (h.mayFollow hs hstep)
  rw [hstep] at hfound
  cases hfound
  exact hafter

/-- Nothing follows what cannot be read. -/
theorem Place.step_eq_none (place : Place) (hl : l.isUnreadable = true) : place.step l = none := by
  cases l with
  | unreadable note => rfl
  | _ => cases hl

/-- A step keeps the bound on the quantifiers that are counted. -/
theorem Place.IsBounded.step {next : Place} (h : place.IsBounded)
    (hstep : place.step l = some next) : next.IsBounded := by
  cases l with
  | opening =>
    cases hstep
    exact ⟨Nat.zero_le _, List.forall_mem_cons.2 ⟨h.quantifiers, h.chain⟩⟩
  | closing =>
    rw [Place.step] at hstep
    split at hstep
    · cases hstep
    · next quantifiers around hchain =>
      cases hstep
      have hbounds := h.chain
      rw [hchain] at hbounds
      exact ⟨Nat.zero_le _, (List.forall_mem_cons.1 hbounds).2⟩
  | bar | item =>
    cases hstep
    exact ⟨Nat.zero_le _, h.chain⟩
  | quantifier q =>
    rw [Place.step] at hstep
    split at hstep
    · next hallowed =>
      cases hstep
      exact ⟨hallowed.2, h.chain⟩
    · cases hstep
  | brace | unreadable => cases hstep

end

/-- A statement on every prefix of some symbols and the symbol after it. -/
theorem forall_concat_prefix_cons {P : List Symbol → Symbol → Prop} {s : Symbol}
    {syms : List Symbol} :
    (∀ before t, before ++ [t] <+: s :: syms → P before t) ↔
      P [] s ∧ ∀ before t, before ++ [t] <+: syms → P (s :: before) t := by
  constructor
  · intro h
    refine ⟨h [] s (by simp), fun before t hprefix => h (s :: before) t ?_⟩
    exact List.cons_prefix_cons.2 ⟨rfl, hprefix⟩
  · rintro ⟨hfirst, hlater⟩ before t hprefix
    cases before with
    | nil =>
      obtain ⟨rfl, -⟩ := List.cons_prefix_cons.1 hprefix
      exact hfirst
    | cons b before =>
      obtain ⟨rfl, hrest⟩ := List.cons_prefix_cons.1 hprefix
      exact hlater before t hrest

/-- Lexemes fit if each of their symbols may follow those before it, no text is left, and all
groups are closed. -/
theorem MatchUp.fits_iff {scan : Scan} {ls : List PlacedLexeme} (h : MatchUp scan ls)
    {place : Place} {before : List Symbol} (hat : place.IsAfter before) :
    place.fits ls = true ↔ scan.rest = [] ∧
      (∀ more s, more ++ [s] <+: scan.symbols → MayFollow (before ++ more) s) ∧
      (before ++ scan.symbols).count .opening = (before ++ scan.symbols).count .closing := by
  -- The induction is on the symbols to come; those before grow by one at each step.
  induction h generalizing place before with
  | finished =>
    have hopened := hat.opened
    rw [Place.fits, List.isEmpty_iff_length_eq_zero, List.append_nil]
    constructor
    · intro hlength
      refine ⟨rfl, fun more s hprefix => ?_, by omega⟩
      simp at hprefix
    · rintro ⟨-, -, hcounts⟩
      omega
  | stuck hrest hl => simp [Place.fits, place.step_eq_none hl, hrest]
  | @cons s l syms rest ls hs hnotes hrest ih =>
    have hmove : before ++ s :: syms = before ++ [s] ++ syms := by simp
    rw [Place.fits, hnotes, forall_concat_prefix_cons, List.append_nil, hmove]
    cases hstep : place.step l.lexeme with
    | none =>
      have hnot : ¬ MayFollow before s := by
        intro hmay
        obtain ⟨next, hnext, -⟩ := hat.step_eq_some hs hmay
        rw [hstep] at hnext
        cases hnext
      simp [hnot]
    | some next =>
      have hmay := hat.mayFollow hs hstep
      have hih := ih (hat.step hs hstep)
      simp only [List.any_nil, Bool.not_false, Bool.true_and, hih, hmay, true_and,
        List.append_assoc, List.singleton_append]

theorem load_le_of_bounded {chain : List Nat} (h : ∀ q ∈ chain, q ≤ maxQuantifiers) :
    load chain ≤ (maxQuantifiers + 1) * chain.length := by
  induction chain with
  | nil => exact Nat.zero_le _
  | cons q around ih =>
    obtain ⟨hq, haround⟩ := List.forall_mem_cons.1 h
    have hle := ih haround
    rw [load_cons, List.length_cons, Nat.mul_succ]
    omega

/-- The groups of symbols that nest at most 40 deep count at most 240, and at least one. -/
theorem MatchUp.load_of_mem_chains {scan : Scan} {ls : List PlacedLexeme} (h : MatchUp scan ls)
    {place : Place} {before : List Symbol} (hat : place.IsAfter before) (hbound : place.IsBounded)
    (hnest : ∀ more, more <+: scan.symbols →
      (before ++ more).count .opening ≤ (before ++ more).count .closing + 40) :
    ∀ chain ∈ place.chains ls, 0 < load chain ∧ load chain ≤ 240 := by
  induction h generalizing place before with
  | finished => exact fun chain hchain => (List.not_mem_nil hchain).elim
  | stuck hrest hl => simp [Place.chains, place.step_eq_none hl]
  | @cons s l syms rest ls hs hnotes hrest ih =>
    intro chain hchain
    rw [Place.chains] at hchain
    cases hstep : place.step l.lexeme with
    | none =>
      rw [hstep] at hchain
      exact (List.not_mem_nil hchain).elim
    | some next =>
      have hafter := hat.step hs hstep
      have hlater : ∀ chain ∈ next.chains ls, 0 < load chain ∧ load chain ≤ 240 := by
        refine ih hafter (hbound.step hstep) fun more hmore => ?_
        have hle := hnest (s :: more) (List.cons_prefix_cons.2 ⟨rfl, hmore⟩)
        simpa using hle
      simp only [hstep] at hchain
      split at hchain
      · next hopening =>
        rcases List.mem_cons.1 hchain with rfl | hmem
        · have hlength := length_le_load next.chain
          have hload := load_le_of_bounded (hbound.step hstep).chain
          have hdepth := hnest [s] (by simp)
          have hopened := hafter.opened
          have hne : 0 < next.chain.length := by
            rcases Place.step_chain hstep with ⟨-, hchain⟩ | ⟨hno, -⟩
            · rw [hchain]
              exact Nat.succ_pos _
            · rw [hopening] at hno
              cases hno
          have hmax : maxQuantifiers = 5 := rfl
          rw [hmax] at hload
          omega
        · exact hlater chain hmem
      · exact hlater chain hchain

/-- Each symbol may follow those before it, and all groups are closed, exactly if the symbols
make up a pattern. -/
theorem isSetFree_iff {syms : List Symbol} :
    IsSetFree syms ↔ (∀ before s, before ++ [s] <+: syms → MayFollow before s) ∧
      syms.count .opening = syms.count .closing := by
  constructor
  · intro h
    refine ⟨fun before s hprefix => ⟨?_, ?_, ?_⟩, h.closed⟩
    · intro heq
      exact h.noBrace (heq ▸ hprefix.subset (List.mem_append_right _ List.mem_cons_self))
    · intro heq
      have hle := h.opened _ hprefix
      rw [heq, count_concat_self, count_concat_of_ne _ (by decide)] at hle
      exact hle
    · intro hq
      refine ⟨h.repeats before s hprefix hq, ?_⟩
      apply Nat.lt_of_not_le
      intro hfull
      obtain ⟨run, hrun, hlength, hall⟩ := exists_run hfull
      obtain ⟨first, rfl⟩ := hrun
      have hinfix : run ++ [s] <:+: syms := by
        refine List.IsInfix.trans ?_ hprefix.isInfix
        exact ⟨first, [], by simp⟩
      obtain ⟨t, ht, hno⟩ := h.inRow (run ++ [s]) hinfix (by simp [hlength, maxQuantifiers])
      rcases List.mem_append.1 ht with hmem | hmem
      · rw [hall t hmem] at hno
        cases hno
      · rw [List.mem_singleton.1 hmem, hq] at hno
        cases hno
  · rintro ⟨hmay, hclosed⟩
    refine ⟨fun before => ?_, hclosed, ?_, ?_, ?_⟩
    · induction before using List.reverseRecOn with
      | nil => exact fun _ => Nat.le_refl 0
      | append_singleton before s ih =>
        intro hprefix
        have hle := ih ((List.prefix_append before [s]).trans hprefix)
        by_cases hs : s = .closing
        · have hlt := (hmay before s hprefix).closes hs
          rw [hs, count_concat_self, count_concat_of_ne _ (by decide)]
          exact hlt
        · rw [count_concat_of_ne _ hs, List.count_append]
          exact Nat.le_add_right_of_le hle
    · intro hmem
      obtain ⟨before, after, rfl⟩ := List.append_of_mem hmem
      exact (hmay before .brace ⟨after, by simp⟩).ne_brace rfl
    · exact fun before q hprefix hq => ((hmay before q hprefix).repeats hq).1
    · rintro run ⟨before, after, rfl⟩ hlength
      by_contra hno
      have hall : ∀ s ∈ run, s.isQuantifier = true :=
        fun s hs => Bool.not_eq_false _ ▸ fun hs' => hno ⟨s, hs, hs'⟩
      rcases List.eq_nil_or_concat' run with rfl | ⟨others, last, rfl⟩
      · cases hlength
      · -- The last of the six has five quantifiers before it, and so it may not follow.
        obtain ⟨hothers, hlast⟩ := List.forall_mem_append.1 hall
        have hfollows := hmay (before ++ others) last ⟨after, by simp⟩
        have hroom := (hfollows.repeats (hlast last List.mem_cons_self)).2
        have hfull := length_le_lastQuantifiers before hothers
        rw [List.length_append, List.length_singleton] at hlength
        have hmax : maxQuantifiers = 5 := rfl
        omega

/-- A text without bracket sets in which at most 40 groups are open at once is accepted exactly
if it can be read to its end and its symbols make up a pattern. -/
theorem read_iff_isSetFree (text : Bytes) (hbracket : .bracket ∉ (scan text).symbols)
    (hnest : NestWithin 40 (scan text).symbols) :
    (read text 0).regex.isSome = true ↔ (scan text).rest = [] ∧ IsSetFree (scan text).symbols := by
  have hmatch : MatchUp (scan text) (lexemes 0 text) := matchUp_scan 0 hbracket
  have hfits := hmatch.fits_iff Place.isAfter_initial
  have hload := hmatch.load_of_mem_chains Place.isAfter_initial Place.isBounded_initial hnest
  rw [isSome_read_iff, isSetFree_iff]
  constructor
  · rintro ⟨hpattern, -⟩
    exact hfits.1 hpattern
  · intro hfree
    refine ⟨hfits.2 hfree, fun chain hchain hdvd => ?_⟩
    obtain ⟨hpos, hle⟩ := hload chain hchain
    have hlarge := Nat.le_of_dvd hpos hdvd
    omega

/-- A group with an empty branch may be repeated, and so may a code or an escaped dot; but a
repetition may not start a branch. -/
theorem read_iff_isSetFree_branches :
    let good := ascii "(a|)*\\x2B+\\.??"
    let bad := ascii "(a|*)\\x2B"
    (.bracket ∉ (scan good).symbols ∧ NestWithin 40 (scan good).symbols ∧
      (scan good).rest = [] ∧ IsSetFree (scan good).symbols) ∧
    .bracket ∉ (scan bad).symbols ∧ NestWithin 40 (scan bad).symbols ∧
      (scan bad).rest = [] ∧ ¬ IsSetFree (scan bad).symbols := by
  intro good bad
  have hgood : .bracket ∉ (scan good).symbols ∧ NestWithin 40 (scan good).symbols := by
    decide +kernel
  have hbad : .bracket ∉ (scan bad).symbols ∧ NestWithin 40 (scan bad).symbols := by
    decide +kernel
  have haccepted : (read good 0).regex.isSome = true := by decide +kernel
  have hrefused : ¬ (read bad 0).regex.isSome = true := by decide +kernel
  have hrest : (scan bad).rest = [] := by decide +kernel
  refine ⟨⟨hgood.1, hgood.2, ?_⟩, hbad.1, hbad.2, hrest, fun hfree => hrefused ?_⟩
  · exact (read_iff_isSetFree good hgood.1 hgood.2).1 haccepted
  · exact (read_iff_isSetFree bad hbad.1 hbad.2).2 ⟨hrest, hfree⟩

end Pattern

end PhraseGrammar
