import PhraseGrammar.Pattern.Reader

/-!
# Which patterns are accepted

Whether a pattern is accepted is read off its row of lexemes. A scan from left to right
decides it that keeps a `Place`: for each open group the number of quantifiers right
before its parenthesis, the number of quantifiers since the last item, and whether the
branch has an item at all.

The depth of a group is a byte that counts the open groups together with the quantifiers
before their parentheses. A group is refused where this count, taken as a number without
bound, is a multiple of 256, and nowhere else. `Pattern.isSome_read_iff` puts both
conditions together.
-/

set_option autoImplicit false

namespace PhraseGrammar

namespace Pattern

/-- What has been read of a row of lexemes, as far as it matters to what may follow. The
chain has for each open group the number of quantifiers right before its parenthesis,
innermost first. -/
structure Place where
  chain : List Nat
  quantifiers : Nat
  hasItem : Bool

/-- The place before the first lexeme. -/
def Place.initial : Place :=
  ⟨[], 0, false⟩

/-- The place after one more lexeme, if that may follow. -/
def Place.step (place : Place) : Lexeme → Option Place
  | .opening => some ⟨place.quantifiers :: place.chain, 0, false⟩
  | .closing =>
    match place.chain with
    | [] => none
    | _ :: around => some ⟨around, 0, true⟩
  | .bar => some ⟨place.chain, 0, false⟩
  | .quantifier _ =>
    if place.hasItem ∧ place.quantifiers < maxQuantifiers then
      some ⟨place.chain, place.quantifiers + 1, true⟩
    else none
  | .item _ => some ⟨place.chain, 0, true⟩
  | .brace => none
  | .unreadable _ => none

/-- Whether a lexeme opens a group. -/
def Lexeme.isOpening : Lexeme → Bool
  | .opening => true
  | _ => false

/-- Whether lexemes make up the rest of a pattern, with no regard to how deep its groups
lie. -/
def Place.fits (place : Place) : List PlacedLexeme → Bool
  | [] => place.chain.isEmpty
  | l :: ls =>
    !l.notes.any Note.isError &&
      match place.step l.lexeme with
      | some next => next.fits ls
      | none => false

/-- The chains of the groups that are opened in the rest of a pattern. -/
def Place.chains (place : Place) : List PlacedLexeme → List (List Nat)
  | [] => []
  | l :: ls =>
    match place.step l.lexeme with
    | some next => if l.lexeme.isOpening then next.chain :: next.chains ls else next.chains ls
    | none => []

/-- Whether the lexemes of a text make up a pattern, with no regard to how deep its groups lie. -/
def isPattern (text : Bytes) : Bool :=
  Place.initial.fits (lexemes 0 text)

/-- The groups of a pattern. Each is given by its chain: the number of quantifiers right
before its parenthesis, followed by these numbers for the groups around it. -/
def groups (text : Bytes) : List (List Nat) :=
  Place.initial.chains (lexemes 0 text)

/-- What counts against the depth limit: a group and those around it, and the quantifiers
before their parentheses. -/
def load : List Nat → Nat
  | [] => 0
  | quantifiers :: around => load around + quantifiers + 1

theorem load_cons (quantifiers : Nat) (around : List Nat) :
    load (quantifiers :: around) = load around + quantifiers + 1 :=
  rfl

/-- There is at least one count for each group. -/
theorem length_le_load (chain : List Nat) : chain.length ≤ load chain := by
  induction chain with
  | nil => exact Nat.zero_le _
  | cons quantifiers around ih =>
    rw [List.length_cons, load_cons]
    omega

/-- A group and the groups around it lie as deep as their chains say, as far as a byte can
tell. -/
def Group.Tracks (g : Group) : List (Nat × Group) → List Nat → Prop
  | [], [] => g.depth = 0
  | (_, enclosing) :: outer, quantifiers :: around =>
    g.depth = (load (quantifiers :: around)).toUInt8 ∧ enclosing.Tracks outer around
  | _, _ => False

theorem Group.Tracks.depth_eq {g : Group} {outer : List (Nat × Group)} {chain : List Nat}
    (h : g.Tracks outer chain) : g.depth = (load chain).toUInt8 := by
  cases outer with
  | nil =>
    cases chain with
    | nil => exact h
    | cons _ _ => exact h.elim
  | cons frame outer =>
    cases chain with
    | nil => exact h.elim
    | cons _ _ => exact h.1

/-- Of the innermost group only the depth matters. -/
theorem Group.Tracks.congr {g g' : Group} {outer : List (Nat × Group)} {chain : List Nat}
    (h : g.Tracks outer chain) (hdepth : g'.depth = g.depth) : g'.Tracks outer chain := by
  cases outer with
  | nil =>
    cases chain with
    | nil => exact hdepth.trans h
    | cons _ _ => exact h.elim
  | cons frame outer =>
    cases chain with
    | nil => exact h.elim
    | cons _ _ => exact ⟨hdepth.trans h.1, h.2⟩

/-- A reader has read what a place says. -/
structure Reader.IsAt (reader : Reader) (place : Place) : Prop where
  depths : reader.current.Tracks reader.outer place.chain
  quantifiers : reader.current.quantifiers = place.quantifiers
  hasItem : place.hasItem = true ↔ reader.current.parts ≠ []

theorem Reader.isAt_initial : Reader.initial.IsAt .initial :=
  ⟨rfl, rfl, by simp [Reader.initial, Place.initial]⟩

/-- As a byte, a number is the greatest depth exactly if the next number is a multiple of 256. -/
theorem toUInt8_eq_maxDepth_iff (n : Nat) : n.toUInt8 = maxDepth ↔ 256 ∣ n + 1 := by
  have hmax : maxDepth.toNat = 255 := rfl
  have hn : n.toUInt8.toNat = n % 256 := UInt8.toNat_ofNat'
  rw [← UInt8.toNat_inj, hn, hmax]
  omega

section

variable {reader : Reader} {place next : Place} {l : PlacedLexeme}

theorem Reader.IsAt.openingDepth_eq (h : reader.IsAt place) :
    reader.current.openingDepth = (load place.chain + place.quantifiers).toUInt8 := by
  rw [Group.openingDepth, h.depths.depth_eq, h.quantifiers]
  exact (UInt8.ofNat_add _ _).symm

/-- There is no item for a quantifier if the branch has none or the limit is reached, and
never for a brace. -/
theorem lastItem_eq_error {g : Group} {isBrace : Bool} (start : Nat)
    (h : isBrace = true ∨ g.parts = [] ∨ maxQuantifiers ≤ g.quantifiers) :
    ∃ note, g.lastItem start isBrace = .error note := by
  unfold Group.lastItem
  split
  · exact ⟨_, rfl⟩
  · next hlimit =>
    split
    · exact ⟨_, rfl⟩
    · next hbrace =>
      rcases h with hisBrace | hparts | hfull
      · exact absurd hisBrace hbrace
      · rw [hparts]
        exact ⟨_, rfl⟩
      · omega

theorem lastItem_eq_ok {g : Group} {start : Nat} {r : Regex} {rs : List Regex}
    (hparts : g.parts = r :: rs) (hq : g.quantifiers < maxQuantifiers) :
    g.lastItem start false = .ok (r, rs) := by
  rw [Group.lastItem, if_neg (by omega), hparts]
  rfl

/-- A lexeme that may not follow is refused. -/
theorem Reader.IsAt.step_eq_error (h : reader.IsAt place) (hstep : place.step l.lexeme = none) :
    ∃ note, reader.step l = .error note := by
  unfold Reader.step
  cases hl : l.lexeme with
  | opening | bar | item => simp [Place.step, hl] at hstep
  | closing =>
    have hchain : place.chain = [] := by
      cases hchain : place.chain with
      | nil => rfl
      | cons quantifiers around => simp [Place.step, hl, hchain] at hstep
    have houter : reader.outer = [] := by
      have hdepths := h.depths
      rw [hchain] at hdepths
      cases houter : reader.outer with
      | nil => rfl
      | cons frame outer =>
        rw [houter] at hdepths
        exact hdepths.elim
    simp [houter]
  | quantifier q =>
    have hmissing : reader.current.parts = [] ∨ maxQuantifiers ≤ reader.current.quantifiers := by
      simp only [Place.step, hl, h.hasItem, ← h.quantifiers] at hstep
      by_cases hparts : reader.current.parts = []
      · exact .inl hparts
      · simp only [ne_eq, hparts, not_false_eq_true, true_and] at hstep
        split at hstep
        · cases hstep
        · next hfull => exact .inr (Nat.not_lt.1 hfull)
    have hrefused : ∃ note, reader.current.lastItem l.start false = .error note :=
      lastItem_eq_error l.start (.inr hmissing)
    obtain ⟨note, hnote⟩ := hrefused
    exact ⟨note, by simp only [hnote]⟩
  | brace =>
    have hrefused : ∃ note, reader.current.lastItem l.start true = .error note :=
      lastItem_eq_error l.start (.inl rfl)
    obtain ⟨note, hnote⟩ := hrefused
    exact ⟨note, by rw [hnote]; rfl⟩
  | unreadable note => exact ⟨note, rfl⟩

/-- A group whose count is a multiple of 256 is refused. -/
theorem Reader.IsAt.step_opening_eq_error (h : reader.IsAt place) (hl : l.lexeme.isOpening = true)
    (hstep : place.step l.lexeme = some next) (hload : 256 ∣ load next.chain) :
    ∃ note, reader.step l = .error note := by
  unfold Reader.step
  cases hlexeme : l.lexeme with
  | opening =>
    rw [hlexeme, Place.step] at hstep
    cases hstep
    rw [load_cons] at hload
    have hfull : reader.current.openingDepth = maxDepth := by
      rwa [h.openingDepth_eq, toUInt8_eq_maxDepth_iff]
    exact ⟨_, if_pos hfull⟩
  | _ => simp [hlexeme, Lexeme.isOpening] at hl

/-- Any other lexeme that may follow is read, and the reader is then at the next place. -/
theorem Reader.IsAt.step_eq_ok (h : reader.IsAt place) (hstep : place.step l.lexeme = some next)
    (hload : l.lexeme.isOpening = true → ¬ 256 ∣ load next.chain) :
    ∃ reader', reader.step l = .ok reader' ∧ reader'.IsAt next := by
  unfold Reader.step
  cases hl : l.lexeme with
  | opening =>
    rw [hl] at hstep hload
    cases hstep
    have hroom := hload rfl
    rw [load_cons, ← toUInt8_eq_maxDepth_iff, ← h.openingDepth_eq] at hroom
    have hdepth : reader.current.openingDepth + 1 =
        (load (place.quantifiers :: place.chain)).toUInt8 := by
      rw [h.openingDepth_eq, load_cons]
      exact (UInt8.ofNat_add _ _).symm
    exact ⟨_, if_neg hroom, ⟨hdepth, h.depths⟩, rfl, by simp⟩
  | closing =>
    rw [hl, Place.step] at hstep
    split at hstep
    · cases hstep
    · next quantifiers around hchain =>
      cases hstep
      have hdepths := h.depths
      rw [hchain] at hdepths
      cases houter : reader.outer with
      | nil =>
        rw [houter] at hdepths
        exact hdepths.elim
      | cons frame outer =>
        rw [houter] at hdepths
        exact ⟨_, rfl, Group.Tracks.congr hdepths.2 rfl, rfl, by simp [Group.push]⟩
  | bar =>
    rw [hl] at hstep
    cases hstep
    exact ⟨_, rfl, h.depths.congr rfl, rfl, by simp [Group.endBranch]⟩
  | quantifier q =>
    rw [hl, Place.step] at hstep
    split at hstep
    · next hallowed =>
      cases hstep
      rw [h.hasItem, ← h.quantifiers] at hallowed
      obtain ⟨r, rs, hparts⟩ := List.exists_cons_of_ne_nil hallowed.1
      simp only [lastItem_eq_ok hparts hallowed.2]
      exact ⟨_, rfl, h.depths.congr rfl, congrArg (· + 1) h.quantifiers, by simp⟩
    · cases hstep
  | item r =>
    rw [hl] at hstep
    cases hstep
    exact ⟨_, rfl, h.depths.congr rfl, rfl, by simp [Group.push]⟩
  | brace => simp [Place.step, hl] at hstep
  | unreadable note => simp [Place.step, hl] at hstep

end

/-- Whether a pattern was read without an error. -/
def Reading.isAccepted (reading : Reading) : Bool :=
  reading.regex.isSome && !reading.notes.any Note.isError

theorem isAccepted_readAll_of_step {reader next : Reader} {l : PlacedLexeme} (stop : Nat)
    (ls : List PlacedLexeme) (h : reader.step l = .ok next) :
    (reader.readAll stop (l :: ls)).isAccepted =
      (!l.notes.any Note.isError && (next.readAll stop ls).isAccepted) := by
  simp only [Reader.readAll, h, Reading.isAccepted, List.any_append, Bool.not_or]
  exact Bool.and_left_comm _ _ _

theorem isAccepted_readAll_of_error {reader : Reader} {l : PlacedLexeme} {note : Note} (stop : Nat)
    (ls : List PlacedLexeme) (h : reader.step l = .error note) :
    (reader.readAll stop (l :: ls)).isAccepted = false := by
  simp only [Reader.readAll, h, Reading.isAccepted]
  rfl

/-- Reading on from a place succeeds if the lexemes fit there and no group is refused for
its count. -/
theorem isAccepted_readAll_iff (stop : Nat) (ls : List PlacedLexeme) {reader : Reader}
    {place : Place} (h : reader.IsAt place) :
    (reader.readAll stop ls).isAccepted = true ↔
      place.fits ls = true ∧ ∀ chain ∈ place.chains ls, ¬ 256 ∣ load chain := by
  induction ls generalizing reader place with
  | nil =>
    obtain ⟨current, outer⟩ := reader
    have hdepths := h.depths
    cases outer with
    | nil =>
      cases hchain : place.chain with
      | nil =>
        simp [Reader.readAll, Reader.finish, Reading.isAccepted, Place.fits, Place.chains, hchain]
      | cons quantifiers around =>
        rw [hchain] at hdepths
        exact hdepths.elim
    | cons frame outer =>
      cases hchain : place.chain with
      | nil =>
        rw [hchain] at hdepths
        exact hdepths.elim
      | cons quantifiers around =>
        simp [Reader.readAll, Reader.finish, Reading.isAccepted, Place.fits, hchain]
  | cons l ls ih =>
    rw [Place.fits, Place.chains]
    cases hstep : place.step l.lexeme with
    | none =>
      obtain ⟨note, hnote⟩ := h.step_eq_error hstep
      simp [isAccepted_readAll_of_error stop ls hnote]
    | some next =>
      by_cases hrefused : l.lexeme.isOpening = true ∧ 256 ∣ load next.chain
      · obtain ⟨note, hnote⟩ := h.step_opening_eq_error hrefused.1 hstep hrefused.2
        simp [isAccepted_readAll_of_error stop ls hnote, hrefused.1, hrefused.2]
      · have hload : l.lexeme.isOpening = true → ¬ 256 ∣ load next.chain :=
          fun hopening hdvd => hrefused ⟨hopening, hdvd⟩
        obtain ⟨reader', hread, hat⟩ := h.step_eq_ok hstep hload
        rw [isAccepted_readAll_of_step stop ls hread, Bool.and_eq_true, ih hat, Bool.and_eq_true,
          and_assoc]
        by_cases hopening : l.lexeme.isOpening = true
        · simp [hopening, hload hopening]
        · simp [hopening]

/-- An expression is given exactly if the reader accepts the lexemes of the text. -/
theorem isSome_read (text : Bytes) (i : Nat) :
    (read text i).regex.isSome =
      (Reader.initial.readAll (i + (text.drop i).length) (lexemes i (text.drop i))).isAccepted := by
  simp only [read, Reading.isAccepted]
  split
  · next herrors => simp only [herrors, Bool.not_true, Bool.and_false, Option.isSome_none]
  · next hclean => simp only [hclean, Bool.not_false, Bool.and_true]

/-- A text is accepted exactly if it is a pattern and no group is refused for its count. -/
theorem isSome_read_iff (text : Bytes) :
    (read text 0).regex.isSome = true ↔
      isPattern text = true ∧ ∀ chain ∈ groups text, ¬ 256 ∣ load chain := by
  rw [isSome_read, List.drop_zero]
  exact isAccepted_readAll_iff _ _ Reader.isAt_initial

end Pattern

end PhraseGrammar
