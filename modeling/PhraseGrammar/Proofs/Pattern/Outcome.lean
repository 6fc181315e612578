import PhraseGrammar.Proofs.Pattern.Expressions
import PhraseGrammar.Rule.Authoring

/-!
# How reading a pattern ends

Reading stops early only at something that is noted as wrong (`Reader.isError_of_step`), and at
the end a pattern is refused if anything was. So there is an expression exactly if there is no
error among the notes (`regex_eq_none_iff`), and no pattern is refused in silence
(`Rule.pattern_cases`). A pattern that is accepted was read from end to end.
-/

set_option autoImplicit false

namespace PhraseGrammar

namespace Pattern

theorem isError_of_lastItem {g : Group} {start : Nat} {isBrace : Bool} {note : Note}
    (h : g.lastItem start isBrace = .error note) : note.isError = true := by
  unfold Group.lastItem at h
  split at h
  · cases h
    rfl
  · split at h
    · cases h
      rfl
    · split at h
      · cases h
        rfl
      · cases h

/-- A lexeme is refused for something that is wrong. -/
theorem Reader.isError_of_step {reader : Reader} {l : PlacedLexeme} {note : Note}
    (hl : ∀ flaw, l.lexeme = .unreadable flaw → flaw.isError = true)
    (h : reader.step l = .error note) : note.isError = true := by
  unfold Reader.step at h
  cases hlexeme : l.lexeme with
  | opening =>
    rw [hlexeme] at h
    simp only at h
    split at h
    · cases h
      rfl
    · cases h
  | closing =>
    rw [hlexeme] at h
    simp only at h
    split at h
    · cases h
      rfl
    · cases h
  | bar | item =>
    rw [hlexeme] at h
    cases h
  | quantifier q =>
    rw [hlexeme] at h
    simp only at h
    split at h
    · next hlast =>
      cases h
      exact isError_of_lastItem hlast
    · cases h
  | brace =>
    rw [hlexeme] at h
    cases hlast : reader.current.lastItem l.start true with
    | error flaw =>
      rw [hlast] at h
      cases h
      exact isError_of_lastItem hlast
    | ok item =>
      rw [hlast] at h
      cases h
  | unreadable flaw =>
    rw [hlexeme] at h
    cases h
    exact hl note hlexeme

/-- If reading lexemes gives no expression, something that is wrong is noted. -/
theorem Reader.isError_of_readAll {stop : Nat} {reader : Reader} {ls : List PlacedLexeme}
    (hls : ∀ l ∈ ls, ∀ flaw, l.lexeme = .unreadable flaw → flaw.isError = true)
    (h : (reader.readAll stop ls).regex = none) :
    ∃ note ∈ (reader.readAll stop ls).notes, note.isError = true := by
  induction ls generalizing reader with
  | nil =>
    cases houter : reader.outer with
    | nil =>
      rw [Reader.readAll, Reader.finish, houter] at h
      cases h
    | cons frame outer =>
      rw [Reader.readAll, Reader.finish, houter]
      exact ⟨_, List.mem_cons_self, rfl⟩
  | cons l ls ih =>
    obtain ⟨hfirst, hlater⟩ := List.forall_mem_cons.1 hls
    rw [Reader.readAll] at h ⊢
    cases hstep : reader.step l with
    | ok next =>
      rw [hstep] at h
      obtain ⟨note, hnote, herror⟩ := ih hlater h
      exact ⟨note, List.mem_append_right _ hnote, herror⟩
    | error note =>
      exact ⟨note, List.mem_append_right _ List.mem_cons_self, isError_of_step hfirst hstep⟩

/-- If reading lexemes gives an expression, all of them could be read. -/
theorem Reader.isUnreadable_of_readAll {stop : Nat} {reader : Reader} {ls : List PlacedLexeme}
    {r : Regex} (h : (reader.readAll stop ls).regex = some r) :
    ∀ l ∈ ls, l.lexeme.isUnreadable = false := by
  induction ls generalizing reader with
  | nil => exact fun l hl => (List.not_mem_nil hl).elim
  | cons l ls ih =>
    rw [Reader.readAll] at h
    cases hstep : reader.step l with
    | error note =>
      rw [hstep] at h
      cases h
    | ok next =>
      rw [hstep] at h
      refine List.forall_mem_cons.2 ⟨?_, ih h⟩
      unfold Reader.step at hstep
      cases hlexeme : l.lexeme with
      | unreadable note =>
        rw [hlexeme] at hstep
        cases hstep
      | _ => rfl

/-- A pattern is refused exactly if something that is wrong is noted. -/
theorem regex_eq_none_iff (text : Bytes) (i : Nat) :
    (read text i).regex = none ↔ (read text i).notes.any Note.isError = true := by
  have hlexemes : ∀ l ∈ lexemes i (text.drop i), ∀ flaw,
      l.lexeme = .unreadable flaw → flaw.isError = true :=
    forall_mem_lexemes (fun _ _ _ _ h _ hl => h.isError hl) i (text.drop i)
  unfold read
  simp only
  split
  · next hwrong => exact iff_of_true rfl hwrong
  · next hclean =>
    constructor
    · intro hnone
      obtain ⟨note, hnote, herror⟩ := Reader.isError_of_readAll hlexemes hnone
      exact List.any_eq_true.2 ⟨note, hnote, herror⟩
    · intro hwrong
      exact absurd hwrong hclean

/-- The lexemes of an accepted pattern cover it. -/
theorem areTiles_of_read {text : Bytes} {i : Nat} {r : Regex} (h : (read text i).regex = some r) :
    AreTiles (i + (text.drop i).length) i (lexemes i (text.drop i)) := by
  apply areTiles_lexemes
  exact Reader.isUnreadable_of_readAll (regex_readAll_of_read h)

/-- The errors among the diagnostics stand for what is noted as wrong. -/
theorem any_isError_diagnostics (reading : Reading) (text : Bytes) :
    (reading.diagnostics text).any Diagnostic.isError = reading.notes.any Note.isError := by
  unfold Reading.diagnostics
  rw [List.any_map]
  rfl

end Pattern

/-- A pattern makes a leaf, or is refused with the first of the errors in it. -/
theorem Rule.pattern_cases (number : Nat) (source : Bytes) :
    (∃ r, Rule.pattern number source = .ok (.leaf number source r)) ∨
    ∃ d ∈ (Pattern.read source 0).diagnostics source, d.isError = true ∧
      Rule.pattern number source = .error (.invalidPattern source d) := by
  unfold Rule.pattern
  simp only
  cases hregex : (Pattern.read source 0).regex with
  | some r => exact .inl ⟨r, rfl⟩
  | none =>
    have hwrong := (Pattern.regex_eq_none_iff source 0).1 hregex
    rw [← Pattern.any_isError_diagnostics _ source] at hwrong
    cases hfound : ((Pattern.read source 0).diagnostics source).find? (·.isError) with
    | some d =>
      exact .inr ⟨d, List.mem_of_find?_eq_some hfound, List.find?_some hfound, rfl⟩
    | none =>
      rw [List.find?_eq_none] at hfound
      obtain ⟨d, hd, herror⟩ := List.any_eq_true.1 hwrong
      exact absurd herror (hfound d hd)

namespace Pattern

/-- Reading a pattern ends in one of two ways. Either it is refused, with an error among the
diagnostics, and the position stays where it was. Or there is an expression, the pattern was read
from end to end, and all diagnostics are warnings. So the maker of a rule from a pattern gets a
leaf with that source, or a complaint by its author with one of the errors. -/
theorem read_outcome (text : Bytes) (i : Nat) (hi : i ≤ text.length) :
    ((read text i).regex = none ↔ ∃ d ∈ (read text i).diagnostics text, d.severity = .error) ∧
    ((read text i).regex = none → (read text i).stop text i = i) ∧
    (∀ r, (read text i).regex = some r → (read text i).stop text i = text.length ∧
      AreTiles text.length i (lexemes i (text.drop i)) ∧
      ∀ d ∈ (read text i).diagnostics text, d.severity = .warning) ∧
    ∀ number, (∃ r, Rule.pattern number text = .ok (.leaf number text r)) ∨
      ∃ fault, Rule.pattern number text = .error fault ∧ fault.kind = .userError := by
  have hrefused : (read text i).regex = none ↔
      ∃ d ∈ (read text i).diagnostics text, d.severity = .error := by
    rw [regex_eq_none_iff, ← any_isError_diagnostics _ text, List.any_eq_true]
    simp [Diagnostic.isError]
  have hend : i + (text.drop i).length = text.length := by
    rw [List.length_drop]
    omega
  refine ⟨hrefused, fun h => ?_, fun r h => ⟨?_, ?_, fun d hd => ?_⟩, fun number => ?_⟩
  · unfold Reading.stop
    rw [h]
    rfl
  · unfold Reading.stop
    rw [h]
    exact hend
  · rw [← hend]
    exact areTiles_of_read h
  · cases hseverity : d.severity with
    | warning => rfl
    | error =>
      have hnone := hrefused.2 ⟨d, hd, hseverity⟩
      rw [h] at hnone
      cases hnone
  · rcases Rule.pattern_cases number text with haccepted | ⟨d, -, -, hd⟩
    · exact .inl haccepted
    · exact .inr ⟨_, hd, rfl⟩

/-- A pattern with a range that is merely odd is read to its end, from its second byte on; after a
set with something wrong in it the position stays. -/
theorem read_outcome_sets :
    let odd := ascii "([x-x]"
    let wrong := ascii "([A-z]"
    1 ≤ odd.length ∧ (read odd 1).stop odd 1 = odd.length ∧
      (∀ d ∈ (read odd 1).diagnostics odd, d.severity = .warning) ∧
      1 ≤ wrong.length ∧ (read wrong 1).stop wrong 1 = 1 ∧
      ∃ d ∈ (read wrong 1).diagnostics wrong, d.severity = .error := by
  intro odd wrong
  have hodd : 1 ≤ odd.length := by decide
  have hwrong : 1 ≤ wrong.length := by decide
  obtain ⟨-, -, haccepted, -⟩ := read_outcome odd 1 hodd
  obtain ⟨hrefused, hkept, -⟩ := read_outcome wrong 1 hwrong
  have hsome : (read odd 1).regex.isSome = true := by decide +kernel
  have hnone : (read wrong 1).regex.isNone = true := by decide +kernel
  obtain ⟨r, hr⟩ := Option.isSome_iff_exists.1 hsome
  rw [Option.isNone_iff_eq_none] at hnone
  obtain ⟨hstop, -, hwarnings⟩ := haccepted r hr
  exact ⟨hodd, hstop, hwarnings, hwrong, hkept hnone, hrefused.1 hnone⟩

end Pattern

end PhraseGrammar
