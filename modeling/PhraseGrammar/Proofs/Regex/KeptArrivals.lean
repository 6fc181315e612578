import PhraseGrammar.Proofs.Regex.Completeness
import PhraseGrammar.Proofs.Regex.Soundness

/-!
# Matching that keeps every arrival

If every crossing keeps all arrivals (`State.crossBy true`), the last position at which
an expression is matched is the end of its longest match, whatever the anchors in it
(`Regex.consumeKeeping_eq_some_iff`). So the simulation reaches every match of an
expression in a text exactly if it gives the same answer (`Regex.findsAllAt_iff`).
-/

set_option autoImplicit false

namespace PhraseGrammar

namespace Regex

/-- Whether matching from a position of a text gets at least as far as every match there. -/
def FindsAllAt (opts : RegexOptions) (r : Regex) (text : Bytes) (i : Nat) : Prop :=
  ∀ e, Matches opts text i r i e → ∃ j, r.consume opts text i = .ok (some j) ∧ e ≤ j

/-- Whether matching always gets at least as far as every match. -/
def FindsAll (r : Regex) : Prop :=
  ∀ (opts : RegexOptions) (text : Bytes) (i : Nat), i ≤ text.length → r.FindsAllAt opts text i

/-- The positions at which the expression is matched if every crossing keeps all arrivals. -/
def keptEnds (opts : RegexOptions) (r : Regex) (text : Bytes) (i : Nat) : List Nat :=
  (List.range (text.length + 1)).filter fun e =>
    decide (i ≤ e) && (trailAt true opts text i r (e - i)).matched

/-- The last position at which the expression is matched if every crossing keeps all arrivals. -/
def consumeKeeping (opts : RegexOptions) (r : Regex) (text : Bytes) (i : Nat) : Option Nat :=
  (r.keptEnds opts text i).max?

variable {opts : RegexOptions} {r : Regex} {text : Bytes} {i : Nat}

/-- If all arrivals are kept, an expression is matched where its matches end. -/
theorem mem_keptEnds_iff (hr : r.isProper = true) (hi : i ≤ text.length) (e : Nat) :
    e ∈ r.keptEnds opts text i ↔ Matches opts text i r i e := by
  rw [keptEnds, List.mem_filter, List.mem_range, Nat.lt_add_one_iff, Bool.and_eq_true,
    decide_eq_true_eq]
  constructor
  · rintro ⟨hlength, hle, hm⟩
    have hend : i + (e - i) = e := by omega
    have h := matches_of_matched_trailAt (by omega) hm
    rwa [hend] at h
  · intro h
    exact ⟨h.le_length hi, h.le, matched_trailAt_of_matches hr Bool.noConfusion hi h⟩

/-- If all arrivals are kept, the answer is the end of the longest match. -/
theorem consumeKeeping_eq_some_iff (hr : r.isProper = true) (hi : i ≤ text.length) (e : Nat) :
    r.consumeKeeping opts text i = some e ↔
      Matches opts text i r i e ∧ ∀ e', Matches opts text i r i e' → e' ≤ e := by
  rw [consumeKeeping, List.max?_eq_some_iff]
  simp only [mem_keptEnds_iff hr hi]

/-- If all arrivals are kept, there is an answer wherever there is a match. -/
theorem exists_consumeKeeping (hr : r.isProper = true) (hi : i ≤ text.length) {e : Nat}
    (h : Matches opts text i r i e) :
    ∃ j, r.consumeKeeping opts text i = some j ∧ e ≤ j := by
  cases hkept : r.consumeKeeping opts text i with
  | some j => exact ⟨j, rfl, ((consumeKeeping_eq_some_iff hr hi j).1 hkept).2 e h⟩
  | none =>
    have hempty : r.keptEnds opts text i = [] := List.max?_eq_none_iff.1 hkept
    have hmem := (mem_keptEnds_iff hr hi e).2 h
    rw [hempty] at hmem
    cases hmem

/-- The simulation reaches every match exactly where it gives the answer that keeps
all arrivals. -/
theorem findsAllAt_iff (opts : RegexOptions) (hr : r.isProper = true) (hi : i ≤ text.length) :
    r.FindsAllAt opts text i ↔ r.consume opts text i = .ok (r.consumeKeeping opts text i) := by
  constructor
  · intro hall
    obtain ⟨result, hresult, hsound⟩ := exists_consume opts hr hi
    rw [hresult]
    congr 1
    cases hkept : r.consumeKeeping opts text i with
    | some e =>
      obtain ⟨hm, hmax⟩ := (consumeKeeping_eq_some_iff hr hi e).1 hkept
      obtain ⟨j, hj, hle⟩ := hall e hm
      rw [hresult] at hj
      cases hj
      have hge := hmax j (hsound j rfl)
      exact congrArg some (Nat.le_antisymm hge hle)
    | none =>
      cases result with
      | none => rfl
      | some j =>
        obtain ⟨k, hk, -⟩ := exists_consumeKeeping hr hi (hsound j rfl)
        rw [hkept] at hk
        cases hk
  · intro hsame e h
    obtain ⟨j, hj, hle⟩ := exists_consumeKeeping hr hi h
    exact ⟨j, hsame.trans (congrArg Except.ok hj), hle⟩

end Regex

end PhraseGrammar
