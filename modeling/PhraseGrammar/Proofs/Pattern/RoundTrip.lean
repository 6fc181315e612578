import PhraseGrammar.Proofs.Pattern.Acceptance
import PhraseGrammar.Proofs.Pattern.Joining
import PhraseGrammar.Proofs.Pattern.Lexing

/-!
# Reading what was written

A pattern that was written for an expression is read back as the expression. What the text
of a part does to the group it stands in does not depend on what is around: `Adds` says
which items it appends to the current branch, and `Fills` which expression it makes of a
new group. Parentheses turn the second into the first.

The depth limit is met because a level of an expression costs at most two of it: one for a
group, and one for a quantifier right before the parenthesis. Since every quantifier is
written after a group of its own, there is never more than one.
-/

set_option autoImplicit false

namespace PhraseGrammar

namespace Pattern

/-- A text takes the innermost open group from one state to another and leaves no notes,
whatever groups are around it and whatever follows. -/
def Reads (text : Bytes) (g g' : Group) : Prop :=
  ∀ (outer : List (Nat × Group)) (pos stop : Nat) (rest : Bytes),
    (Reader.mk g outer).readAll stop (lexemes pos (text ++ rest)) =
      (Reader.mk g' outer).readAll stop (lexemes (pos + text.length) rest)

/-- A lexeme that fits is read. -/
theorem IsLexeme.readAll {text : Bytes} {l : Lexeme} (h : IsLexeme text l) {reader next : Reader}
    {pos : Nat}
    (hstep : reader.step { start := pos, lexeme := l, width := text.length } = .ok next)
    (stop : Nat) (rest : Bytes) :
    reader.readAll stop (lexemes pos (text ++ rest)) =
      next.readAll stop (lexemes (pos + text.length) rest) := by
  have hl : l.isUnreadable = false := by
    cases l with
    | unreadable note => cases hstep
    | _ => rfl
  rw [h.lexemes_append hl, Reader.readAll, hstep]
  rfl

namespace Reads

variable {text more inner : Bytes} {g g' g'' : Group}

theorem nil (g : Group) : Reads [] g g :=
  fun _ _ _ _ => rfl

theorem append (h : Reads text g g') (hmore : Reads more g' g'') : Reads (text ++ more) g g'' := by
  intro outer pos stop rest
  rw [List.append_assoc, h, hmore, List.length_append, Nat.add_assoc]

theorem item {r : Regex} (h : IsLexeme text (.item r)) : Reads text g (g.push r) :=
  fun _ _ stop rest => h.readAll rfl stop rest

theorem bar (g : Group) : Reads (ascii "|") g g.endBranch := by
  intro outer pos stop rest
  have hbar : IsLexeme (ascii "|") .bar := ⟨'|'.toUInt8, [], rfl, fun _ _ => rfl⟩
  exact hbar.readAll rfl stop rest

/-- A quantifier applies to the last item, if that may still be quantified. -/
theorem quantifier {q : Quantifier} {r : Regex} {rs : List Regex}
    (h : IsLexeme text (.quantifier q)) (hparts : g.parts = r :: rs)
    (hquantifiers : g.quantifiers < maxQuantifiers) :
    Reads text g { g with parts := q.apply r :: rs, quantifiers := g.quantifiers + 1 } := by
  intro outer pos stop rest
  refine h.readAll ?_ stop rest
  simp only [Reader.step, lastItem_eq_ok hparts hquantifiers]

/-- A group is read like any text in a new group, if that does not lie too deep. -/
theorem parenthesized (hdepth : g.openingDepth ≠ maxDepth)
    (h : Reads inner { depth := g.openingDepth + 1 } g') :
    Reads (parenthesized inner) g (g.push g'.toRegex) := by
  intro outer pos stop rest
  have hopening : IsLexeme (ascii "(") .opening := ⟨'('.toUInt8, [], rfl, fun _ _ => rfl⟩
  have hclosing : IsLexeme (ascii ")") .closing := ⟨')'.toUInt8, [], rfl, fun _ _ => rfl⟩
  have hopened : (Reader.mk g outer).step
      { start := pos, lexeme := .opening, width := (ascii "(").length } =
      .ok ⟨{ depth := g.openingDepth + 1 }, (pos, g) :: outer⟩ := if_neg hdepth
  rw [Pattern.parenthesized, List.append_assoc, List.append_assoc, hopening.readAll hopened, h,
    hclosing.readAll rfl]
  simp only [List.length_append, Nat.add_assoc]

end Reads

/-- A text appends items to the branch of any group that lies at most `n` deep. At the end
of it there is at most one quantifier since the last item, if that was so before. -/
def Adds (n : Nat) (text : Bytes) (new : List Regex) : Prop :=
  ∀ g : Group, g.depth.toNat ≤ n → g.quantifiers ≤ 1 →
    ∃ q ≤ 1, Reads text g { g with parts := new.reverse ++ g.parts, quantifiers := q }

/-- A text is read as an expression in a new group that lies at most `n` deep. -/
def Fills (n : Nat) (text : Bytes) (r : Regex) : Prop :=
  ∀ depth : UInt8, depth.toNat ≤ n → ∃ g, Reads text { depth := depth } g ∧ g.toRegex = r

section

variable {n : Nat} {text more inner : Bytes} {new others : List Regex} {r : Regex}

theorem Adds.nil (n : Nat) : Adds n [] [] :=
  fun g _ hq => ⟨g.quantifiers, hq, .nil g⟩

theorem Adds.append (h : Adds n text new) (hmore : Adds n more others) :
    Adds n (text ++ more) (new ++ others) := by
  intro g hdepth hq
  obtain ⟨q, hqone, hread⟩ := h g hdepth hq
  obtain ⟨q', hqone', hread'⟩ :=
    hmore { g with parts := new.reverse ++ g.parts, quantifiers := q } hdepth hqone
  refine ⟨q', hqone', ?_⟩
  rw [List.reverse_append, List.append_assoc]
  exact hread.append hread'

theorem Adds.item (h : IsLexeme text (.item r)) (n : Nat) : Adds n text [r] :=
  fun _ _ _ => ⟨0, Nat.zero_le 1, .item h⟩

/-- A text that appends items to any branch makes one expression of them in a group of its own. -/
theorem Fills.of_adds (h : Adds n text new) : Fills n text (rowOf new) := by
  intro depth hdepth
  obtain ⟨q, -, hread⟩ := h { depth := depth } hdepth (Nat.zero_le 1)
  refine ⟨_, hread, ?_⟩
  simp only [Group.toRegex, Group.endBranch, List.append_nil, List.reverse_reverse,
    List.reverse_singleton]
  rfl

/-- A group lies two deeper at most: one for itself, and one for a quantifier before it. -/
theorem Fills.reads_parenthesized (h : Fills (n + 2) inner r) (hn : n + 2 ≤ 254) {g : Group}
    (hdepth : g.depth.toNat ≤ n) (hq : g.quantifiers ≤ 1) :
    Reads (parenthesized inner) g (g.push r) := by
  have hopening : g.openingDepth.toNat = g.depth.toNat + g.quantifiers := by
    rw [Group.openingDepth, UInt8.toNat_add, Nat.toUInt8, UInt8.toNat_ofNat']
    omega
  have hroom : g.openingDepth ≠ maxDepth := by
    intro heq
    have hmax : maxDepth.toNat = 255 := rfl
    rw [heq, hmax] at hopening
    omega
  have hdeeper : (g.openingDepth + 1).toNat ≤ n + 2 := by
    have hone : (1 : UInt8).toNat = 1 := rfl
    rw [UInt8.toNat_add, hopening, hone]
    omega
  obtain ⟨g', hread, rfl⟩ := h (g.openingDepth + 1) hdeeper
  exact .parenthesized hroom hread

theorem Fills.adds_parenthesized (h : Fills (n + 2) inner r) (hn : n + 2 ≤ 254) :
    Adds n (parenthesized inner) [r] :=
  fun _ hdepth hq => ⟨0, Nat.zero_le 1, h.reads_parenthesized hn hdepth hq⟩

theorem Fills.adds_quantified (h : Fills (n + 2) inner r) (hn : n + 2 ≤ 254) {mark : Bytes}
    {q : Quantifier} (hmark : IsLexeme mark (.quantifier q)) :
    Adds n (parenthesized inner ++ mark) [q.apply r] := by
  intro g hdepth hq
  have hgroup := h.reads_parenthesized hn hdepth hq
  have hfirst : (g.push r).quantifiers < maxQuantifiers := Nat.zero_lt_succ 4
  exact ⟨1, Nat.le_refl 1, hgroup.append (.quantifier hmark rfl hfirst)⟩

end

/-- A text that makes up a branch for an expression. -/
def IsBranch (n : Nat) (r : Regex) (text : Bytes) : Prop :=
  ∃ new, Adds n text new ∧ rowOf new = r

/-- Branches with bars in between are read one after the other. -/
theorem reads_branches {n : Nat} {parts : List Regex} {texts : List Bytes}
    (h : List.Forall₂ (IsBranch n) parts texts) (hne : parts ≠ []) {g : Group}
    (hdepth : g.depth.toNat ≤ n) (hparts : g.parts = []) (hq : g.quantifiers ≤ 1) :
    ∃ g', Reads ((ascii "|").intercalate texts) g g' ∧
      g'.endBranch.branches = parts.reverse ++ g.branches := by
  induction h generalizing g with
  | nil => exact absurd rfl hne
  | @cons r text parts texts hbranch hbranches ih =>
    obtain ⟨new, hadds, hrow⟩ := hbranch
    obtain ⟨q, hqone, hread⟩ := hadds g hdepth hq
    have hended : rowOf (new.reverse ++ g.parts).reverse = r := by
      rw [hparts, List.append_nil, List.reverse_reverse, hrow]
    cases hbranches with
    | nil =>
      refine ⟨{ g with parts := new.reverse ++ g.parts, quantifiers := q }, ?_, ?_⟩
      · rw [List.intercalate_singleton]
        exact hread
      · simp only [Group.endBranch, hended]
        rfl
    | @cons s next parts texts _ _ =>
      obtain ⟨g', hrest, hfinal⟩ := ih (List.cons_ne_nil s parts)
        (g := Group.endBranch { g with parts := new.reverse ++ g.parts, quantifiers := q })
        hdepth rfl (Nat.zero_le 1)
      refine ⟨g', ?_, ?_⟩
      · rw [List.intercalate_cons_cons]
        exact (hread.append (.bar _)).append hrest
      · rw [hfinal]
        simp only [Group.endBranch, hended, List.reverse_cons, List.append_assoc]
        rfl

/-- An expression is read back from its patterns in a group of its own and, unless it is a
list of alternatives, in a branch of its own. -/
def IsReadable (r : Regex) : Prop :=
  ∀ (n : Nat) (text : Bytes), n + 2 * r.height ≤ 254 → Written r text →
    Fills n text r ∧ (r.isAlternation = false → Adds n text r.row)

/-- An expression is readable if its patterns append its items to any branch. -/
theorem isReadable_of_adds {r : Regex} (hc : r.isCanonical = true)
    (h : ∀ (n : Nat) (text : Bytes), n + 2 * r.height ≤ 254 → Written r text →
      Adds n text r.row) : IsReadable r := by
  intro n text hn hwritten
  have hadds := h n text hn hwritten
  have hfills := Fills.of_adds hadds
  rw [rowOf_row hc] at hfills
  exact ⟨hfills, fun _ => hadds⟩

/-- The spellings of the bytes of a literal append one item for each byte. -/
theorem adds_literal {bytes : Bytes} {spellings : List Bytes}
    (h : List.Forall₂ WrittenByte bytes spellings) (n : Nat) :
    Adds n spellings.flatten (Regex.literal bytes).row := by
  induction h with
  | nil => exact .nil n
  | cons hbyte _ ih => exact (Adds.item (isLexeme_byte hbyte) n).append ih

/-- The parts of a sequence are read one after the other. -/
theorem adds_parts {n : Nat} {parts : List Regex} {texts : List Bytes}
    (h : WrittenParts Regex.isCompound parts texts)
    (hn : n + 2 + 2 * Regex.maxHeight parts ≤ 254) (hparts : ∀ part ∈ parts, IsReadable part) :
    Adds n texts.flatten (parts.flatMap Regex.pieces) := by
  induction parts generalizing texts with
  | nil =>
    cases h
    exact .nil n
  | cons part parts ih =>
    obtain ⟨inner, rest, hinner, hrest, rfl⟩ := h
    obtain ⟨hpart, hlater⟩ := List.forall_mem_cons.1 hparts
    rw [Regex.maxHeight] at hn
    refine Adds.append ?_ (ih hrest (by omega) hlater)
    cases hcompound : part.isCompound with
    | true =>
      rw [Regex.pieces_of_isCompound hcompound]
      have hfills := (hpart (n + 2) inner (by omega) hinner).1
      exact hfills.adds_parenthesized (by omega)
    | false =>
      rw [← Regex.row_of_not_isCompound hcompound]
      have hadds := (hpart n inner (by omega) hinner).2
      exact hadds (Regex.isAlternation_of_not_isCompound hcompound)

/-- Each of several alternatives makes up a branch. -/
theorem isBranch_parts {n : Nat} {parts : List Regex} {texts : List Bytes}
    (h : WrittenParts Regex.isAlternation parts texts)
    (hn : n + 2 + 2 * Regex.maxHeight parts ≤ 254) (hc : Regex.allCanonical parts = true)
    (hparts : ∀ part ∈ parts, IsReadable part) : List.Forall₂ (IsBranch n) parts texts := by
  induction parts generalizing texts with
  | nil =>
    cases h
    exact .nil
  | cons part parts ih =>
    obtain ⟨inner, rest, hinner, hrest, rfl⟩ := h
    obtain ⟨hpart, hlater⟩ := List.forall_mem_cons.1 hparts
    rw [Regex.maxHeight] at hn
    simp only [Regex.allCanonical, Bool.and_eq_true] at hc
    refine .cons ⟨part.row, ?_, rowOf_row hc.1⟩ (ih hrest (by omega) hc.2 hlater)
    cases halternation : part.isAlternation with
    | true =>
      have hrow : part.row = [part] := by
        cases part with
        | alternation parts => rfl
        | _ => cases halternation
      rw [hrow]
      have hfills := (hpart (n + 2) inner (by omega) hinner).1
      exact hfills.adds_parenthesized (by omega)
    | false => exact (hpart n inner (by omega) hinner).2 halternation

/-- Every expression without redundancies is read back from its patterns. -/
theorem isReadable {r : Regex} (hc : r.isCanonical = true) : IsReadable r := by
  induction r using Regex.induction with
  | set bytes =>
    exact isReadable_of_adds hc fun n text _ hwritten => .item (isLexeme_set hwritten hc) n
  | literal bytes =>
    refine isReadable_of_adds hc fun n text _ hwritten => ?_
    obtain ⟨spellings, hspellings, rfl⟩ := hwritten
    exact adds_literal hspellings n
  | anchor a =>
    refine isReadable_of_adds hc fun n text _ hwritten => ?_
    subst hwritten
    exact .item (isLexeme_anchor a) n
  | concat parts ih =>
    refine isReadable_of_adds hc fun n text hn hwritten => ?_
    obtain ⟨texts, htexts, rfl⟩ := hwritten
    simp only [Regex.isCanonical, Bool.and_eq_true] at hc
    rw [Regex.height] at hn
    exact adds_parts htexts (by omega) fun part hpart =>
      ih part hpart (Regex.isCanonical_of_mem hc.2 hpart)
  | alternation parts ih =>
    intro n text hn hwritten
    obtain ⟨texts, htexts, rfl⟩ := hwritten
    simp only [Regex.isCanonical, Bool.and_eq_true, decide_eq_true_eq] at hc
    rw [Regex.height] at hn
    have hbranches : List.Forall₂ (IsBranch n) parts texts :=
      isBranch_parts htexts (by omega) hc.2 fun part hpart =>
        ih part hpart (Regex.isCanonical_of_mem hc.2 hpart)
    refine ⟨fun depth hdepth => ?_, fun hno => by cases hno⟩
    obtain ⟨first, second, others, rfl⟩ := exists_eq_cons_cons hc.1
    obtain ⟨g, hread, hfinal⟩ := reads_branches hbranches (List.cons_ne_nil _ _)
      (g := { depth := depth }) hdepth rfl (Nat.zero_le 1)
    refine ⟨g, hread, ?_⟩
    rw [Group.toRegex, hfinal, List.append_nil, List.reverse_reverse]
    rfl
  | repetition part ih =>
    refine isReadable_of_adds hc fun n text hn hwritten => ?_
    obtain ⟨inner, hinner, rfl⟩ := hwritten
    rw [Regex.height] at hn
    have hmark : IsLexeme (ascii "+") (.quantifier .oneOrMore) :=
      ⟨'+'.toUInt8, [], rfl, fun _ _ => rfl⟩
    exact (ih hc (n + 2) inner (by omega) hinner).1.adds_quantified (by omega) hmark
  | optional part ih =>
    refine isReadable_of_adds hc fun n text hn hwritten => ?_
    obtain ⟨inner, hinner, rfl⟩ := hwritten
    rw [Regex.height] at hn
    have hmark : IsLexeme (ascii "?") (.quantifier .zeroOrOne) :=
      ⟨'?'.toUInt8, [], rfl, fun _ _ => rfl⟩
    exact (ih hc (n + 2) inner (by omega) hinner).1.adds_quantified (by omega) hmark

/-- Reading inverts writing. An expression without redundancies, of at most 127 levels, can be
written; and from every pattern that is written for it, with any choice of spellings, the
expression itself is read, up to the end of the pattern and without a diagnostic. -/
theorem read_written (r : Regex) (hc : r.isCanonical = true) (hheight : r.height ≤ 127) :
    (∃ text, Written r text) ∧ ∀ text, Written r text →
      (read text 0).regex = some r ∧ (read text 0).diagnostics text = [] ∧
        (read text 0).stop text 0 = text.length := by
  refine ⟨exists_written hc, fun text hwritten => ?_⟩
  obtain ⟨hfills, -⟩ := isReadable hc 0 text (by omega) hwritten
  obtain ⟨g, hread, rfl⟩ := hfills 0 (Nat.le_refl 0)
  have hall : Reader.initial.readAll text.length (lexemes 0 text) = ⟨some g.toRegex, []⟩ := by
    have hend := hread [] 0 text.length []
    rw [List.append_nil, lexemes] at hend
    exact hend
  have hreading : read text 0 = ⟨some g.toRegex, []⟩ := by
    rw [read, List.drop_zero, Nat.zero_add, hall]
    rfl
  rw [hreading]
  refine ⟨rfl, rfl, ?_⟩
  rw [Reading.stop, List.drop_zero, Nat.zero_add]
  rfl

/-- A repeated group with an empty alternative, and a group right after it. -/
theorem read_written_groups :
    let r := Regex.concat [.literal (ascii "a."),
      .repetition (.alternation [.set ⟨[⟨'a'.toUInt8, 'c'.toUInt8⟩, .single '_'.toUInt8], true⟩,
        .literal []]),
      .concat [.anchor .lineEnd, .literal [Byte.newline]]]
    let text := ascii "a\\x2E([^a-c\\x5f]|)+($\\n)"
    r.isCanonical = true ∧ r.height ≤ 127 ∧ Written r text ∧ (read text 0).regex = some r ∧
      (read text 0).diagnostics text = [] ∧ (read text 0).stop text 0 = text.length := by
  intro r text
  have hcanonical : r.isCanonical = true := by decide
  have hheight : r.height ≤ 127 := by decide
  have hliteral : Written (.literal (ascii "a.")) (ascii "a\\x2E") := by
    have hdot : WrittenCode '.'.toUInt8 (ascii "\\x2E") :=
      .intro '2'.toUInt8 'E'.toUInt8 (.inl rfl) (.inr rfl)
    exact ⟨[ascii "a", ascii "\\x2E"],
      .cons (.plain 'a'.toUInt8 (by decide)) (.cons (.code _ hdot) .nil), rfl⟩
  have hset : Written (.set ⟨[⟨'a'.toUInt8, 'c'.toUInt8⟩, .single '_'.toUInt8], true⟩)
      (ascii "[^a-c\\x5f]") := by
    have hunderscore : WrittenCode '_'.toUInt8 (ascii "\\x5f") :=
      .intro '5'.toUInt8 'f'.toUInt8 (.inl rfl) (.inl rfl)
    exact .brackets _ true [ascii "a-c", ascii "\\x5f"] (List.cons_ne_nil _ _)
      (.cons (.ends 'a'.toUInt8 'c'.toUInt8 (by decide)) (.cons (.single _ hunderscore) .nil))
  have hbranches : Written (.alternation
      [.set ⟨[⟨'a'.toUInt8, 'c'.toUInt8⟩, .single '_'.toUInt8], true⟩, .literal []])
      (ascii "[^a-c\\x5f]|") :=
    ⟨_, ⟨_, _, hset, ⟨[], [], ⟨[], .nil, rfl⟩, rfl, rfl⟩, rfl⟩, rfl⟩
  have hlast : Written (.concat [.anchor .lineEnd, .literal [Byte.newline]]) (ascii "$\\n") :=
    ⟨_, ⟨_, _, rfl, ⟨_, [], ⟨[ascii "\\n"], .cons .newline .nil, rfl⟩, rfl, rfl⟩, rfl⟩, rfl⟩
  have hwritten : Written r text :=
    ⟨_, ⟨_, _, hliteral, ⟨_, _, ⟨_, hbranches, rfl⟩, ⟨_, [], hlast, rfl, rfl⟩, rfl⟩, rfl⟩, rfl⟩
  exact ⟨hcanonical, hheight, hwritten, (read_written r hcanonical hheight).2 text hwritten⟩

end Pattern

end PhraseGrammar
