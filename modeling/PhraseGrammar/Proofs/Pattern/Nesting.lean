import PhraseGrammar.Proofs.Pattern.Acceptance

/-!
# How deep groups may lie in each other

The depth limit keeps the groups of an accepted pattern at most 255 deep as long as their
count reaches 256 before it can pass it. Quantifiers before a parenthesis count as well, so
one group may take the count from 255 to 257, and the byte that holds it starts again. What
is then accepted is stated exactly by `Pattern.nestsAtMost_of_isSome_read_iff`; there is no
depth that all accepted patterns keep to (`Pattern.exists_isSome_read_not_nestsAtMost`).
-/

set_option autoImplicit false

namespace PhraseGrammar

namespace Pattern

/-- The reader after some lexemes. -/
def Reader.run (reader : Reader) (ls : List PlacedLexeme) : Except Note Reader :=
  ls.foldlM Reader.step reader

/-- The place after some lexemes. -/
def Place.run (place : Place) (ls : List PlacedLexeme) : Option Place :=
  ls.foldlM (fun place l => place.step l.lexeme) place

/-- While a text is read, at most `n` groups are open at once. -/
def NestsAtMost (n : Nat) (text : Bytes) : Prop :=
  ∀ before after reader, lexemes 0 text = before ++ after →
    Reader.initial.run before = .ok reader → reader.outer.length ≤ n

theorem Place.run_cons {place next : Place} {l : PlacedLexeme} (ls : List PlacedLexeme)
    (h : place.step l.lexeme = some next) : place.run (l :: ls) = next.run ls := by
  rw [run, List.foldlM_cons, h]
  rfl

/-- A place has one number for each open group. -/
theorem Group.Tracks.length_eq {g : Group} {outer : List (Nat × Group)} {chain : List Nat}
    (h : g.Tracks outer chain) : outer.length = chain.length := by
  induction outer generalizing g chain with
  | nil =>
    cases chain with
    | nil => rfl
    | cons _ _ => exact h.elim
  | cons frame outer ih =>
    cases chain with
    | nil => exact h.elim
    | cons _ _ => exact congrArg (· + 1) (ih h.2)

/-- A reader that reads a lexeme goes on to the next place. -/
theorem Reader.IsAt.of_step_eq_ok {reader reader' : Reader} {place : Place} {l : PlacedLexeme}
    (h : reader.IsAt place) (hread : reader.step l = .ok reader') :
    ∃ next, place.step l.lexeme = some next ∧ reader'.IsAt next := by
  cases hstep : place.step l.lexeme with
  | none =>
    obtain ⟨note, hnote⟩ := h.step_eq_error hstep
    rw [hnote] at hread
    cases hread
  | some next =>
    have hload : l.lexeme.isOpening = true → ¬ 256 ∣ load next.chain := by
      intro hopening hdvd
      obtain ⟨note, hnote⟩ := h.step_opening_eq_error hopening hstep hdvd
      rw [hnote] at hread
      cases hread
    obtain ⟨other, hother, hat⟩ := h.step_eq_ok hstep hload
    rw [hother] at hread
    cases hread
    exact ⟨next, rfl, hat⟩

theorem Reader.IsAt.of_run_eq_ok {reader reader' : Reader} {place : Place}
    {ls : List PlacedLexeme} (h : reader.IsAt place) (hrun : reader.run ls = .ok reader') :
    ∃ last, place.run ls = some last ∧ reader'.IsAt last := by
  induction ls generalizing reader place with
  | nil =>
    cases hrun
    exact ⟨place, rfl, h⟩
  | cons l ls ih =>
    rw [Reader.run, List.foldlM_cons] at hrun
    cases hread : reader.step l with
    | error note =>
      rw [hread] at hrun
      cases hrun
    | ok middle =>
      rw [hread] at hrun
      obtain ⟨next, hstep, hat⟩ := h.of_step_eq_ok hread
      obtain ⟨last, hlast, hend⟩ := ih hat hrun
      exact ⟨last, (Place.run_cons ls hstep).trans hlast, hend⟩

/-- If a text is accepted, so is every beginning of it. -/
theorem run_of_isAccepted {stop : Nat} {reader : Reader} {before after : List PlacedLexeme}
    (h : (reader.readAll stop (before ++ after)).isAccepted = true) :
    ∃ reader', reader.run before = .ok reader' := by
  induction before generalizing reader with
  | nil => exact ⟨reader, rfl⟩
  | cons l before ih =>
    rw [Reader.run, List.foldlM_cons]
    cases hread : reader.step l with
    | error note =>
      rw [List.cons_append, isAccepted_readAll_of_error stop _ hread] at h
      cases h
    | ok next =>
      rw [List.cons_append, isAccepted_readAll_of_step stop _ hread, Bool.and_eq_true] at h
      exact ih h.2

/-- Opening a group makes the chain longer by one, and nothing else does. -/
theorem Place.step_chain {place next : Place} {l : Lexeme} (h : place.step l = some next) :
    (l.isOpening = true ∧ next.chain = place.quantifiers :: place.chain) ∨
      (l.isOpening = false ∧ next.chain <:+ place.chain) := by
  cases l with
  | opening =>
    cases h
    exact .inl ⟨rfl, rfl⟩
  | closing =>
    rw [step] at h
    split at h
    · cases h
    · next quantifiers around hchain =>
      cases h
      rw [hchain]
      exact .inr ⟨rfl, List.suffix_cons _ _⟩
  | bar | item =>
    cases h
    exact .inr ⟨rfl, List.suffix_refl _⟩
  | quantifier q =>
    rw [step] at h
    split at h
    · cases h
      exact .inr ⟨rfl, List.suffix_refl _⟩
    · cases h
  | brace | unreadable => cases h

/-- The chain of every group is that of some place on the way. -/
theorem Place.run_of_mem_chains {ls : List PlacedLexeme} {place : Place} {chain : List Nat}
    (h : chain ∈ place.chains ls) :
    ∃ before after last, ls = before ++ after ∧ place.run before = some last ∧
      last.chain = chain := by
  induction ls generalizing place with
  | nil => exact (List.not_mem_nil h).elim
  | cons l ls ih =>
    rw [chains] at h
    cases hstep : place.step l.lexeme with
    | none =>
      rw [hstep] at h
      exact (List.not_mem_nil h).elim
    | some next =>
      have hlater (hmem : chain ∈ next.chains ls) : ∃ before after last,
          l :: ls = before ++ after ∧ place.run before = some last ∧ last.chain = chain := by
        obtain ⟨before, after, last, hsplit, hrun, hchain⟩ := ih hmem
        exact ⟨l :: before, after, last, congrArg _ hsplit, (run_cons before hstep).trans hrun,
          hchain⟩
      simp only [hstep] at h
      split at h
      · rcases List.mem_cons.1 h with rfl | hmem
        · exact ⟨[l], ls, next, rfl, run_cons [] hstep, rfl⟩
        · exact hlater hmem
      · exact hlater h

/-- At every place on the way the open groups are among the groups that were opened, unless
they were open before. -/
theorem Place.mem_chains_of_run {before : List PlacedLexeme} {place last : Place}
    {around : List Nat} (after : List PlacedLexeme) (h : place.run before = some last)
    (haround : around <:+ last.chain) :
    around ∈ place.chains (before ++ after) ∨ around <:+ place.chain := by
  induction before generalizing place with
  | nil =>
    cases h
    exact .inr haround
  | cons l before ih =>
    cases hstep : place.step l.lexeme with
    | none =>
      rw [run, List.foldlM_cons, hstep] at h
      cases h
    | some next =>
      rw [run_cons before hstep] at h
      simp only [List.cons_append, chains, hstep]
      rcases place.step_chain hstep with ⟨hopening, hchain⟩ | ⟨hopening, hsuffix⟩
      · simp only [hopening, if_true]
        rcases ih h with hmem | hbefore
        · exact .inl (List.mem_cons_of_mem _ hmem)
        · rw [hchain] at hbefore
          rcases List.suffix_cons_iff.1 hbefore with hall | hinner
          · exact .inl (List.mem_cons.2 (.inl (hall.trans hchain.symm)))
          · exact .inr hinner
      · simp only [hopening, Bool.false_eq_true, if_false]
        exact (ih h).imp id fun hs => hs.trans hsuffix

/-- The groups that lie around some group were opened too. -/
theorem mem_groups_of_suffix {text : Bytes} {chain around : List Nat} (h : chain ∈ groups text)
    (haround : around <:+ chain) (hne : around ≠ []) : around ∈ groups text := by
  obtain ⟨before, after, last, hsplit, hrun, rfl⟩ := Place.run_of_mem_chains h
  rw [groups, hsplit]
  rcases Place.mem_chains_of_run after hrun haround with hmem | hnil
  · exact hmem
  · exact absurd (List.suffix_nil.1 hnil) hne

/-- How many groups of an accepted pattern are open at once is read off the text. -/
theorem nestsAtMost_iff {text : Bytes} (haccepted : (read text 0).regex.isSome = true) (n : Nat) :
    NestsAtMost n text ↔ ∀ chain ∈ groups text, chain.length ≤ n := by
  constructor
  · intro h chain hchain
    obtain ⟨before, after, last, hsplit, hrun, rfl⟩ := Place.run_of_mem_chains hchain
    rw [isSome_read, List.drop_zero, hsplit] at haccepted
    obtain ⟨reader, hread⟩ := run_of_isAccepted haccepted
    obtain ⟨place, hplace, hat⟩ := Reader.isAt_initial.of_run_eq_ok hread
    rw [hrun] at hplace
    cases hplace
    rw [← hat.depths.length_eq]
    exact h before after reader hsplit hread
  · intro h before after reader hsplit hread
    obtain ⟨place, hplace, hat⟩ := Reader.isAt_initial.of_run_eq_ok hread
    rw [hat.depths.length_eq]
    have hopened := Place.mem_chains_of_run after hplace (List.suffix_refl _)
    rw [← hsplit] at hopened
    rcases hopened with hmem | hnil
    · exact h _ hmem
    · rw [List.suffix_nil.1 hnil]
      exact Nat.zero_le n

/-- Going outwards from a group that counts at least `n` there is a last one that does. -/
theorem exists_suffix_reaching {n : Nat} (hn : 0 < n) {chain : List Nat} (h : n ≤ load chain) :
    ∃ quantifiers around, quantifiers :: around <:+ chain ∧ load around < n ∧
      n ≤ load (quantifiers :: around) := by
  induction chain with
  | nil =>
    have hnil : load [] = 0 := rfl
    omega
  | cons quantifiers around ih =>
    by_cases haround : n ≤ load around
    · obtain ⟨first, rest, hsuffix, hrest⟩ := ih haround
      exact ⟨first, rest, hsuffix.trans (List.suffix_cons _ _), hrest⟩
    · exact ⟨quantifiers, around, List.suffix_refl _, Nat.not_le.1 haround, h⟩

/-- If no group takes the count past 256, the limit is kept. -/
theorem nestsAtMost_of_not_passing {text : Bytes}
    (h : ∀ quantifiers around, quantifiers :: around ∈ groups text → load around < 256 →
      load (quantifiers :: around) ≤ 256)
    (haccepted : (read text 0).regex.isSome = true) : NestsAtMost 255 text := by
  refine (nestsAtMost_iff haccepted 255).2 fun chain hchain => ?_
  refine Nat.not_lt.1 fun hdeep => ?_
  have hload : 256 ≤ load chain := Nat.le_trans hdeep (length_le_load chain)
  obtain ⟨quantifiers, around, hsuffix, hbelow, hreached⟩ :=
    exists_suffix_reaching (by omega) hload
  have hmem := mem_groups_of_suffix hchain hsuffix (List.cons_ne_nil _ _)
  have hexact : load (quantifiers :: around) = 256 :=
    Nat.le_antisymm (h quantifiers around hmem hbelow) hreached
  exact ((isSome_read_iff text).1 haccepted).2 _ hmem (hexact ▸ Nat.dvd_refl 256)

/-- What is accepted has at most 255 groups open at once exactly if the text is no pattern, or
has no group with more than 254 around it, or has a group whose count is a multiple of 256. So
it is if no group takes the count from below 256 past it, and in particular if no group opens
right after a quantifier. -/
theorem nestsAtMost_of_isSome_read_iff (text : Bytes) :
    (((read text 0).regex.isSome = true → NestsAtMost 255 text) ↔
      (isPattern text = true →
        (∀ chain ∈ groups text, chain.length ≤ 255) ∨ ∃ chain ∈ groups text, 256 ∣ load chain)) ∧
    ((∀ quantifiers around, quantifiers :: around ∈ groups text → load around < 256 →
        load (quantifiers :: around) ≤ 256) →
      (read text 0).regex.isSome = true → NestsAtMost 255 text) ∧
    ((∀ quantifiers around, quantifiers :: around ∈ groups text → quantifiers = 0) →
      (read text 0).regex.isSome = true → NestsAtMost 255 text) := by
  refine ⟨⟨fun h hpattern => ?_, fun h haccepted => ?_⟩, nestsAtMost_of_not_passing, fun h => ?_⟩
  · by_cases hrefused : ∃ chain ∈ groups text, 256 ∣ load chain
    · exact .inr hrefused
    · have haccepted : (read text 0).regex.isSome = true :=
        (isSome_read_iff text).2 ⟨hpattern, fun chain hchain hdvd => hrefused ⟨chain, hchain, hdvd⟩⟩
      exact .inl ((nestsAtMost_iff haccepted 255).1 (h haccepted))
  · obtain ⟨hpattern, hload⟩ := (isSome_read_iff text).1 haccepted
    rcases h hpattern with hnests | ⟨chain, hchain, hdvd⟩
    · exact (nestsAtMost_iff haccepted 255).2 hnests
    · exact absurd hdvd (hload chain hchain)
  · refine nestsAtMost_of_not_passing fun quantifiers around hmem hbelow => ?_
    rw [load_cons, h quantifiers around hmem]
    omega

/-- Bytes that open `n` groups where the groups around them count `count`. Where the next
group would bring the count to a multiple of 256 there is a quantifier before it. -/
def openings (count : Nat) : Nat → Bytes
  | 0 => []
  | n + 1 =>
    if 256 ∣ count + 1 then ascii "a+(" ++ openings (count + 2) n
    else ascii "(" ++ openings (count + 1) n

/-- A pattern of `n` groups, each in the one before. -/
def nested (n : Nat) : Bytes :=
  openings 0 n ++ List.replicate n ')'.toUInt8

theorem lexemes_cons {pos : Nat} {b : UInt8} {rest : Bytes} {l : PlacedLexeme}
    (h : readLexeme pos b rest = l) (hl : l.lexeme.isUnreadable = false) (hwidth : l.width = 1) :
    lexemes pos (b :: rest) = l :: lexemes (pos + 1) rest := by
  rw [lexemes]
  simp [h, hl, hwidth]

theorem fits_closings (place : Place) {n : Nat} (h : place.chain.length = n) (pos : Nat) :
    place.fits (lexemes pos (List.replicate n ')'.toUInt8)) = true ∧
      place.chains (lexemes pos (List.replicate n ')'.toUInt8)) = [] := by
  induction n generalizing place pos with
  | zero =>
    have hnil := List.length_eq_zero_iff.1 h
    rw [List.replicate_zero, lexemes]
    simp [Place.fits, Place.chains, hnil]
  | succ n ih =>
    obtain ⟨quantifiers, around, hchain⟩ := List.exists_cons_of_length_eq_add_one h
    have haround : around.length = n := by
      rw [hchain, List.length_cons] at h
      omega
    have hread : readLexeme pos ')'.toUInt8 (List.replicate n ')'.toUInt8) =
        { start := pos, lexeme := .closing } := rfl
    rw [List.replicate_succ, lexemes_cons hread rfl rfl]
    simpa [Place.fits, Place.chains, Place.step, hchain, Lexeme.isOpening] using
      ih ⟨around, 0, true⟩ haround (pos + 1)

/-- What holds of opening `n` groups at a place and closing all groups: it fits, no group is
refused, and the innermost one has all others around it. -/
def Deepens (place : Place) (n : Nat) (ls : List PlacedLexeme) : Prop :=
  place.fits ls = true ∧ (∀ chain ∈ place.chains ls, ¬ 256 ∣ load chain) ∧
    (n ≠ 0 → ∃ chain ∈ place.chains ls, chain.length = place.chain.length + n)

/-- One more group may be opened if it is not refused. -/
theorem Deepens.opening (place : Place) (pos : Nat) {n : Nat} {ls : List PlacedLexeme}
    (h : Deepens ⟨place.quantifiers :: place.chain, 0, false⟩ n ls)
    (hload : ¬ 256 ∣ load (place.quantifiers :: place.chain)) :
    Deepens place (n + 1) ({ start := pos, lexeme := .opening } :: ls) := by
  obtain ⟨hfits, hloads, hdeepest⟩ := h
  refine ⟨hfits, List.forall_mem_cons.2 ⟨hload, hloads⟩, fun _ => ?_⟩
  by_cases hn : n = 0
  · exact ⟨_, List.mem_cons_self, by simp [hn]⟩
  · obtain ⟨chain, hmem, hlength⟩ := hdeepest hn
    refine ⟨chain, List.mem_cons_of_mem _ hmem, ?_⟩
    rw [hlength, List.length_cons]
    omega

theorem deepens_openings (n pos : Nat) (chain : List Nat) (hasItem : Bool) :
    Deepens ⟨chain, 0, hasItem⟩ n (lexemes pos (openings (load chain) n ++
      List.replicate (chain.length + n) ')'.toUInt8)) := by
  induction n generalizing chain hasItem pos with
  | zero =>
    obtain ⟨hfits, hchains⟩ := fits_closings ⟨chain, 0, hasItem⟩ rfl pos
    refine ⟨hfits, fun other hmem => ?_, fun hne => absurd rfl hne⟩
    rw [openings, List.nil_append, Nat.add_zero, hchains] at hmem
    exact (List.not_mem_nil hmem).elim
  | succ n ih =>
    have hclosings : chain.length + (n + 1) = chain.length + 1 + n := by omega
    rw [openings, hclosings]
    by_cases hrefused : 256 ∣ load chain + 1
    · -- A quantifier takes the count past the multiple of 256.
      have hnext := ih (pos + 1 + 1 + 1) (1 :: chain) false
      have hload : ¬ 256 ∣ load (1 :: chain) := by
        rw [load_cons]
        omega
      rw [load_cons] at hnext
      have hread (rest : Bytes) : lexemes pos (ascii "a+(" ++ rest) =
          { start := pos, lexeme := .item (.literal (ascii "a")) } ::
          { start := pos + 1, lexeme := .quantifier .oneOrMore } ::
          { start := pos + 1 + 1, lexeme := .opening } :: lexemes (pos + 1 + 1 + 1) rest := by
        refine (lexemes_cons rfl rfl rfl).trans (congrArg _ ?_)
        refine (lexemes_cons rfl rfl rfl).trans (congrArg _ ?_)
        exact lexemes_cons rfl rfl rfl
      have hopened := hnext.opening ⟨chain, 1, true⟩ (pos + 1 + 1) hload
      rw [if_pos hrefused, List.append_assoc, hread]
      exact hopened
    · have hnext := ih (pos + 1) (0 :: chain) false
      have hload : ¬ 256 ∣ load (0 :: chain) := by
        rwa [load_cons]
      rw [load_cons] at hnext
      have hread (rest : Bytes) : lexemes pos (ascii "(" ++ rest) =
          { start := pos, lexeme := .opening } :: lexemes (pos + 1) rest :=
        lexemes_cons rfl rfl rfl
      rw [if_neg hrefused, List.append_assoc, hread]
      exact hnext.opening ⟨chain, 0, hasItem⟩ pos hload

/-- Patterns may be nested as deep as one likes. -/
theorem isSome_read_nested (n : Nat) :
    (read (nested n) 0).regex.isSome = true ∧
      (n ≠ 0 → ∃ chain ∈ groups (nested n), chain.length = n) := by
  have hnested : openings (load []) n ++ List.replicate (([] : List Nat).length + n) ')'.toUInt8 =
      nested n := by
    rw [List.length_nil, Nat.zero_add]
    rfl
  obtain ⟨hfits, hloads, hdeepest⟩ := deepens_openings n 0 [] false
  rw [hnested] at hfits hloads hdeepest
  refine ⟨(isSome_read_iff _).2 ⟨hfits, hloads⟩, fun hn => ?_⟩
  obtain ⟨chain, hmem, hlength⟩ := hdeepest hn
  exact ⟨chain, hmem, hlength.trans (Nat.zero_add n)⟩

/-- No number of groups in each other is too large for an accepted pattern. -/
theorem exists_isSome_read_not_nestsAtMost (n : Nat) :
    ∃ text, (read text 0).regex.isSome = true ∧ ¬ NestsAtMost n text := by
  obtain ⟨haccepted, hdeep⟩ := isSome_read_nested (n + 1)
  obtain ⟨chain, hmem, hlength⟩ := hdeep (Nat.succ_ne_zero n)
  refine ⟨nested (n + 1), haccepted, fun h => ?_⟩
  have hbound := (nestsAtMost_iff haccepted n).1 h chain hmem
  omega

/-- The first pattern that passes the limit: in 255 groups a quantifier and one more group. -/
theorem accepted_beyond_limit :
    let text := List.replicate 255 '('.toUInt8 ++ ascii "a+()" ++ List.replicate 255 ')'.toUInt8
    (read text 0).regex.isSome = true ∧ ¬ NestsAtMost 255 text := by
  intro text
  have htext : text = nested 256 := by decide +kernel
  obtain ⟨haccepted, hdeep⟩ := isSome_read_nested 256
  obtain ⟨chain, hmem, hlength⟩ := hdeep (by decide)
  rw [htext]
  refine ⟨haccepted, fun h => ?_⟩
  have hbound := (nestsAtMost_iff haccepted 255).1 h chain hmem
  omega

end Pattern

end PhraseGrammar
