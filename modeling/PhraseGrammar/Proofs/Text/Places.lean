import PhraseGrammar.Text.Lines
import Mathlib.Data.Prod.Lex
import Mathlib.Order.Monotone.Basic

/-!
# Places in a text

`Text.walk` finds the line and column of a position by going through the text from its beginning.
`Text.lineColumn` looks the line up in the table of newlines instead. The table begins with the
newlines before the position, and the search finds where these end, so that both lead to the
same place for every position but the last word (`Text.place_lineColumn`).

Each step of the walk leads to a later place, in this line or in the next one. Therefore later
positions have later places, also past the end of the text (`Text.walk_strictMono`).
-/

set_option autoImplicit false

namespace PhraseGrammar

/-- A line and a column as numbers, in the order of reading: first by line, then by column. -/
def LineColumn.place (p : LineColumn) : ℕ ×ₗ ℕ :=
  toLex (p.line.toNat, p.column.toNat)

namespace Text

/-! ## Going through a text -/

/-- The line and column that are reached by going through a text from its beginning up to
position `n`. After a newline the next line begins; any other byte, and also what is past the
end of the text, leads one column on. -/
def walk (text : Bytes) : ℕ → ℕ × ℕ
  | 0 => (1, 1)
  | n + 1 =>
    if text[n]? = some Byte.newline then ((walk text n).1 + 1, 1)
    else ((walk text n).1, (walk text n).2 + 1)

/-- `last` is the position of the last newline before position `n`. -/
structure IsLastNewline (text : Bytes) (n last : ℕ) : Prop where
  lt : last < n
  newline : text[last]? = some Byte.newline
  none_after : ∀ q, last < q → q < n → text[q]? ≠ some Byte.newline

variable {text : Bytes}

theorem fst_walk (text : Bytes) (n : ℕ) :
    (walk text n).1 = 1 + (text.take n).count Byte.newline := by
  induction n with
  | zero => rfl
  | succ n ih =>
    rw [walk, List.take_add_one, List.count_append]
    split
    · next hnewline => simp [hnewline, ih, Nat.add_assoc]
    · next hother =>
      have hnone : Byte.newline ∉ text[n]?.toList := by
        simpa [Option.mem_toList] using hother
      simp [List.count_eq_zero.2 hnone, ih]

theorem snd_walk (text : Bytes) (n : ℕ) :
    (∃ last, IsLastNewline text n last ∧ (walk text n).2 = n - last) ∨
      (∀ q < n, text[q]? ≠ some Byte.newline) ∧ (walk text n).2 = n + 1 := by
  induction n with
  | zero => exact .inr ⟨fun q hq => absurd hq (Nat.not_lt_zero q), rfl⟩
  | succ n ih =>
    rw [walk]
    split
    · next hnewline =>
      exact .inl ⟨n, ⟨Nat.lt_succ_self n, hnewline, fun q _ _ => by omega⟩, by simp⟩
    · next hother =>
      rcases ih with ⟨last, hlast, hcolumn⟩ | ⟨hnone, hcolumn⟩
      · refine .inl ⟨last, ⟨by have := hlast.lt; omega, hlast.newline, fun q hq hqn => ?_⟩, ?_⟩
        · rcases Nat.lt_succ_iff_lt_or_eq.1 hqn with hlt | rfl
          · exact hlast.none_after q hq hlt
          · exact hother
        · have hlt := hlast.lt
          omega
      · refine .inr ⟨fun q hq => ?_, by omega⟩
        rcases Nat.lt_succ_iff_lt_or_eq.1 hq with hlt | rfl
        · exact hnone q hlt
        · exact hother

/-- Later positions have later places, in the order of reading. -/
theorem walk_strictMono (text : Bytes) : StrictMono fun n => toLex (walk text n) := by
  refine strictMono_nat_of_lt_succ fun n => ?_
  rw [walk, Prod.Lex.toLex_lt_toLex]
  split
  · exact .inl (Nat.lt_succ_self _)
  · exact .inr ⟨rfl, Nat.lt_succ_self _⟩

theorem fst_walk_le (text : Bytes) (n : ℕ) : (walk text n).1 ≤ n + 1 := by
  have hcount := (List.count_le_length (a := Byte.newline) (l := text.take n)).trans
    (List.length_take_le n text)
  rw [fst_walk]
  omega

/-! ## Looking up the table of newlines -/

/-- The search finds the index before which the entries are less than `i`. -/
theorem searchTable_eq {table : Array Nat} {i k : Nat}
    (hk : ∀ j, (hj : j < table.size) → (table[j] < i ↔ j < k)) (low high : Nat)
    (h : high ≤ table.size) (hlow : low ≤ k) (hhigh : k ≤ high) :
    searchTable table i low high h = k := by
  -- The part that is left always has `k` in it or right after it.
  fun_induction searchTable table i low high h with
  | case1 low high h hlt middle hless ih =>
    have hbefore : middle < k := (hk middle (by omega)).1 hless
    exact ih (by omega) hhigh
  | case2 low high h hlt middle hless ih =>
    have hafter : ¬ middle < k := fun hbefore => hless ((hk middle (by omega)).2 hbefore)
    exact ih hlow (by omega)
  | case3 low high h hlt => omega

theorem newlinesFrom_append (start : Nat) (before after : Bytes) :
    newlinesFrom start (before ++ after) =
      newlinesFrom start before ++ newlinesFrom (start + before.length) after := by
  induction before generalizing start with
  | nil => rfl
  | cons b rest ih =>
    have hnext : start + 1 + rest.length = start + (rest.length + 1) := by omega
    simp only [List.cons_append, newlinesFrom, ih, List.length_cons, hnext]
    split <;> rfl

theorem mem_newlinesFrom_bounds {start p : Nat} {text : Bytes} (h : p ∈ newlinesFrom start text) :
    start ≤ p ∧ p < start + text.length := by
  induction text generalizing start with
  | nil => cases h
  | cons b rest ih =>
    have hlater (hp : p ∈ newlinesFrom (start + 1) rest) :
        start ≤ p ∧ p < start + (b :: rest).length := by
      have := ih hp
      rw [List.length_cons]
      omega
    unfold newlinesFrom at h
    split at h
    · rcases List.mem_cons.1 h with rfl | hp
      · exact ⟨Nat.le_refl p, by simp⟩
      · exact hlater hp
    · exact hlater h

/-- The table of a text begins with the newlines before a position; the others come later. -/
theorem newlines_split (text : Bytes) (n : ℕ) :
    ∃ later, newlines text = newlines (text.take n) ++ later ∧
      (∀ p ∈ newlines (text.take n), p < n) ∧ ∀ p ∈ later, n ≤ p := by
  refine ⟨newlinesFrom (text.take n).length (text.drop n), ?_, fun p hp => ?_, fun p hp => ?_⟩
  · have happend := newlinesFrom_append 0 (text.take n) (text.drop n)
    rwa [List.take_append_drop, Nat.zero_add] at happend
  · have hlt := (mem_newlinesFrom_bounds hp).2
    rw [List.length_take] at hlt
    omega
  · have hbounds := mem_newlinesFrom_bounds hp
    rw [List.length_take, List.length_drop] at hbounds
    omega

/-- What a table of the newlines before position `n` says about that position. -/
def placeAfter (before : List ℕ) (n : ℕ) : ℕ × ℕ :=
  (before.length + 1, match before.getLast? with | none => n + 1 | some last => n - last)

theorem newlines_take_succ (text : Bytes) (n : ℕ) :
    newlines (text.take (n + 1)) =
      if text[n]? = some Byte.newline then newlines (text.take n) ++ [n]
      else newlines (text.take n) := by
  rw [List.take_add_one, newlines, newlinesFrom_append]
  cases hn : text[n]? with
  | none => simp [newlinesFrom, newlines]
  | some b =>
    have hlength : (text.take n).length = n :=
      List.length_take_of_le (List.getElem?_eq_some_iff.1 hn).1.le
    rw [hlength]
    by_cases hb : b = Byte.newline <;> simp [newlinesFrom, newlines, hb]

/-- The walk leads to the place that the newlines before a position give. -/
theorem walk_eq_placeAfter (text : Bytes) (n : ℕ) :
    walk text n = placeAfter (newlines (text.take n)) n := by
  induction n with
  | zero => rfl
  | succ n ih =>
    rw [walk, newlines_take_succ, ih]
    split
    · simp [placeAfter]
    · obtain ⟨-, -, hbefore, -⟩ := newlines_split text n
      simp only [placeAfter]
      cases hlast : (newlines (text.take n)).getLast? with
      | none => rfl
      | some last =>
        have hlt := hbefore last (List.mem_of_getLast? hlast)
        simp only [Prod.mk.injEq, true_and]
        omega

/-- In a table whose first entries are less than `i` and whose other entries are not, the search
finds where the first ones end. -/
theorem searchTable_append {before later : List ℕ} {i : ℕ} (hbefore : ∀ p ∈ before, p < i)
    (hlater : ∀ p ∈ later, i ≤ p) :
    searchTable (before ++ later).toArray i 0 (before ++ later).toArray.size (Nat.le_refl _) =
      before.length := by
  refine searchTable_eq (fun j hj => ?_) 0 _ _ (Nat.zero_le _) (by simp)
  have hsize : j < (before ++ later).length := hj
  rw [List.getElem_toArray]
  by_cases hfirst : j < before.length
  · rw [List.getElem_append_left hfirst]
    exact iff_of_true (hbefore _ (List.getElem_mem hfirst)) hfirst
  · rw [List.getElem_append_right (Nat.le_of_not_lt hfirst)]
    exact iff_of_false (Nat.not_lt.2 (hlater _ (List.getElem_mem _))) hfirst

/-- The entry before the end of the first part of a table is the last one of that part. -/
theorem getD_append {before : List ℕ} (h : before ≠ []) (later : List ℕ) :
    (before ++ later).toArray.getD (before.length - 1) 0 = before.getLast h := by
  have hpos := List.length_pos_iff.2 h
  rw [Array.getD_eq_getD_getElem?, List.getElem?_toArray, List.getElem?_append_left (by omega),
    ← List.getLast?_eq_getElem?, List.getLast?_eq_some_getLast h, Option.getD_some]

/-- The lookup gives the line that the last newline before a position begins. -/
theorem lineColumn_eq (text : Bytes) (i : UInt64) :
    lineColumn text i =
      match (newlines (text.take i.toNat)).getLast? with
      | none => ⟨1, 1 + i⟩
      | some last =>
        ⟨((newlines (text.take i.toNat)).length - 1).toUInt64 + 2, i - last.toUInt64⟩ := by
  obtain ⟨later, htable, hbefore, hlater⟩ := newlines_split text i.toNat
  have hsearch := searchTable_append hbefore hlater
  rw [← htable] at hsearch
  simp only [lineColumn, hsearch]
  rw [htable]
  generalize newlines (text.take i.toNat) = before at hbefore
  cases before with
  | nil =>
    refine if_pos ?_
    cases later with
    | nil => rfl
    | cons first rest =>
      have hfirst := hlater first List.mem_cons_self
      simp [hfirst]
  | cons first rest =>
    have hfirst := hbefore first List.mem_cons_self
    rw [if_neg (by simpa using hfirst), getD_append (List.cons_ne_nil first rest),
      List.getLast?_eq_some_getLast (List.cons_ne_nil first rest)]

/-- Up to the last word the lookup finds the place that the walk leads to. -/
theorem place_lineColumn (text : Bytes) {i : UInt64} (hi : i.toNat < UInt64.size - 1) :
    (lineColumn text i).place = toLex (walk text i.toNat) := by
  -- Neither the line nor the column is more than one above the position, so no word wraps around.
  have hsize : UInt64.size = 18446744073709551616 := rfl
  have hlines := fst_walk_le text i.toNat
  obtain ⟨-, -, hbefore, -⟩ := newlines_split text i.toNat
  rw [lineColumn_eq]
  rw [walk_eq_placeAfter] at hlines ⊢
  generalize newlines (text.take i.toNat) = before at hbefore hlines
  simp only [placeAfter] at hlines ⊢
  cases hlast : before.getLast? with
  | none =>
    obtain rfl := List.getLast?_eq_none_iff.1 hlast
    have hcolumn : (1 + i).toNat = i.toNat + 1 := by
      rw [UInt64.toNat_add, Nat.mod_eq_of_lt, Nat.add_comm]
      · rfl
      · have hone : (1 : UInt64).toNat = 1 := rfl
        omega
    rw [LineColumn.place, hcolumn]
    rfl
  | some last =>
    have hlt := hbefore last (List.mem_of_getLast? hlast)
    have hlength := List.length_pos_of_mem (List.mem_of_getLast? hlast)
    have hline : ((before.length - 1).toUInt64 + 2).toNat = before.length + 1 := by
      have hword : (before.length - 1).toUInt64.toNat = before.length - 1 :=
        UInt64.toNat_ofNat_of_lt' (by omega)
      have htwo : (2 : UInt64).toNat = 2 := rfl
      rw [UInt64.toNat_add, hword, Nat.mod_eq_of_lt] <;> omega
    have hcolumn : (i - last.toUInt64).toNat = i.toNat - last := by
      have hword : last.toUInt64.toNat = last :=
        UInt64.toNat_ofNat_of_lt' (by omega)
      rw [UInt64.toNat_sub_of_le _ _ (UInt64.le_iff_toNat_le.2 (by omega)), hword]
    rw [LineColumn.place, hline, hcolumn]

/-- Up to the last word the order of the places found is that of the positions. -/
theorem place_lt_place_iff {i j : UInt64} (hi : i.toNat < UInt64.size - 1)
    (hj : j.toNat < UInt64.size - 1) :
    (lineColumn text i).place < (lineColumn text j).place ↔ i < j := by
  rw [place_lineColumn text hi, place_lineColumn text hj, UInt64.lt_iff_toNat_lt]
  exact (walk_strictMono text).lt_iff_lt

/-- Up to the last word different positions have different lines or columns. -/
theorem lineColumn_inj {i j : UInt64} (hi : i.toNat < UInt64.size - 1)
    (hj : j.toNat < UInt64.size - 1) :
    lineColumn text i = lineColumn text j ↔ i = j := by
  refine ⟨fun h => ?_, congrArg _⟩
  have hwalks : toLex (walk text i.toNat) = toLex (walk text j.toNat) := by
    rw [← place_lineColumn text hi, ← place_lineColumn text hj, h]
  exact UInt64.toNat_inj.1 ((walk_strictMono text).injective hwalks)

/-- The lookup agrees with going through the text, inside the text and past its end, for all
positions but the last word. The line is one more than the number of newlines before the
position; the column counts from the last of them or, if there is none, from the beginning. Of
two positions the later one has the later place, and different ones have different places. -/
theorem lineColumn_walks (text : Bytes) (i j : UInt64) (hi : i.toNat < UInt64.size - 1)
    (hj : j.toNat < UInt64.size - 1) :
    (lineColumn text i).place = toLex (walk text i.toNat) ∧
      (lineColumn text i).line.toNat = 1 + (text.take i.toNat).count Byte.newline ∧
      ((∃ last, IsLastNewline text i.toNat last ∧
          (lineColumn text i).column.toNat = i.toNat - last) ∨
        (∀ q < i.toNat, text[q]? ≠ some Byte.newline) ∧
          (lineColumn text i).column.toNat = i.toNat + 1) ∧
      ((lineColumn text i).place < (lineColumn text j).place ↔ i < j) ∧
      (lineColumn text i = lineColumn text j ↔ i = j) := by
  have hplace := place_lineColumn text hi
  have hparts := Prod.ext_iff.1 (toLex.injective hplace)
  have hline : (lineColumn text i).line.toNat = (walk text i.toNat).1 := hparts.1
  have hcolumn : (lineColumn text i).column.toNat = (walk text i.toNat).2 := hparts.2
  refine ⟨hplace, ?_, ?_, place_lt_place_iff hi hj, lineColumn_inj hi hj⟩
  · rw [hline, fst_walk]
  · rw [hcolumn]
    exact snd_walk text i.toNat

/-- Two newlines in a row, and a position past the end of the text. -/
theorem lineColumn_walks_past_end :
    let text := ascii "a\n\nb"
    (2 : UInt64).toNat < UInt64.size - 1 ∧ (9 : UInt64).toNat < UInt64.size - 1 ∧
      (lineColumn text 2).place = toLex (2, 1) ∧ (lineColumn text 9).place = toLex (3, 7) ∧
      (lineColumn text 2).place < (lineColumn text 9).place := by
  intro text
  have hearly : (2 : UInt64).toNat < UInt64.size - 1 := by decide
  have hlate : (9 : UInt64).toNat < UInt64.size - 1 := by decide
  obtain ⟨hfirst, -, -, hlt, -⟩ := lineColumn_walks text 2 9 hearly hlate
  obtain ⟨hsecond, -⟩ := lineColumn_walks text 9 2 hlate hearly
  exact ⟨hearly, hlate, hfirst, hsecond, hlt.2 (by decide)⟩

end Text

end PhraseGrammar
