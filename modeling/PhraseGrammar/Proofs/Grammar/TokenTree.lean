import PhraseGrammar.Proofs.Grammar.Refinement
import PhraseGrammar.Proofs.Rule.Tokens

/-!
# The tree of tokens

The match that a grammar gives for a text has tokens, which are matches with tokens again.
Each match in this tree was produced by a rule: the root match by the root, and a token by
the rule that is declared in its place. What the derivations of single rules say about
tokens is carried to all levels of the tree here.
-/

set_option autoImplicit false

namespace PhraseGrammar

open NameTable

/-- The matches in the tree of a match: the match itself, and the tokens in the slots of
those that are in the tree. -/
inductive Match.Holds (m : Match) : Match → Prop
  | self : Holds m m
  | token {outer inner : Match} {name : Bytes} (houter : Holds m outer)
      (hslot : some inner ∈ (outer.get name).slots) : Holds m inner

namespace Grammar

/-- The rules that produced the matches in the tree of a match: for the match itself this is
the root, and for a token the rule that has its place among the declarations of the name, in
the layout of the rule that produced the match around it. -/
inductive Produces (g : Grammar) (m : Match) : Rule → Match → Prop
  | root : Produces g m g.root m
  | token {r declarer : Rule} {outer inner : Match} {layout : Layout} {name : Bytes} {j : Nat}
      (houter : Produces g m r outer) (hlayout : g.registry.layout r = .ok layout)
      (hdeclarer : ((layout.declared.lookup name).getD [])[j]? = some declarer)
      (hslot : (outer.get name).slots[j]? = some (some inner)) : Produces g m declarer inner

variable {names : Naming} {root : Rule} {options : RegexOptions} {g : Grammar} {text : Bytes}
  {m : Match}

/-- A match that a rule at or below the root derived on a rest of the text. -/
def IsDerivedBy (names : Naming) (root : Rule) (options : RegexOptions) (text : Bytes) (r : Rule)
    (sub : Match) : Prop :=
  r ∈ root.subrules ∧ ∃ rest d, rest <:+ text ∧ r.derive options rest = .ok (.ok d) ∧
    sub = r.matchOf names d

theorem isDerivedBy_root (hroot : root.Coherent) (hg : ofRoot names (some root) options = .ok g)
    (h : g.matchText text = .ok (.matched m)) : IsDerivedBy names root options text root m := by
  rw [matchText_eq hroot hg] at h
  obtain ⟨attempt, hderived, houtcome⟩ := exists_of_map_eq_ok h
  cases attempt with
  | error mm => cases houtcome
  | ok d =>
    cases houtcome
    exact ⟨Rule.mem_subrules_self root, text, d, List.suffix_refl text, hderived, rfl⟩

/-- A token of a derived match is derived, by the rule that is declared in its place. -/
theorem IsDerivedBy.token {r : Rule} {outer inner : Match} {name : Bytes} {j : Nat}
    (h : IsDerivedBy names root options text r outer)
    (hslot : (outer.get name).slots[j]? = some (some inner)) :
    ∃ declarer, (valuesOf name (r.declarations names))[j]? = some declarer ∧
      IsDerivedBy names root options text declarer inner ∧
      ∃ rest d, rest <:+ text ∧ d ≠ .skip ∧ declarer.derive options rest = .ok (.ok d) ∧
        inner = declarer.matchOf names d := by
  obtain ⟨hr, rest, d, hrest, hd, rfl⟩ := h
  obtain ⟨declarer, hdeclarer, htoken⟩ := Rule.exists_mem_tokens hslot
  obtain ⟨later, d', hlater, hskip, hd', hinner⟩ := Rule.isDerived_of_mem_tokens hd _ htoken
  have hbelow : declarer ∈ r.subrules :=
    Rule.mem_subrules_of_mem_declarations (Rule.mem_of_mem_tokensOf htoken)
  refine ⟨declarer, hdeclarer, ?_, later, d', hlater.trans hrest, hskip, hd', hinner⟩
  exact ⟨Rule.mem_subrules_trans hr hbelow, later, d', hlater.trans hrest, hd', hinner⟩

theorem getElem?_declared_flatLayout (r : Rule) (name : Bytes) (j : Nat) :
    (((r.flatLayout names).declared.lookup name).getD [])[j]? =
      (valuesOf name (r.declarations names))[j]? := by
  rw [Rule.flatLayout, getD_lookup_group]

/-- The rule that a layout has in the place of a token is the one that derived it. -/
theorem IsDerivedBy.token_of_layout {r declarer : Rule} {outer inner : Match} {layout : Layout}
    {name : Bytes} {j : Nat} (hroot : root.Coherent)
    (hg : ofRoot names (some root) options = .ok g)
    (h : IsDerivedBy names root options text r outer) (hlayout : g.registry.layout r = .ok layout)
    (hdeclarer : ((layout.declared.lookup name).getD [])[j]? = some declarer)
    (hslot : (outer.get name).slots[j]? = some (some inner)) :
    IsDerivedBy names root options text declarer inner ∧
      ∃ rest d, rest <:+ text ∧ d ≠ .skip ∧ declarer.derive options rest = .ok (.ok d) ∧
        inner = declarer.matchOf names d := by
  obtain ⟨-, -, hregistry⟩ := ofRoot_eq_ok hg
  obtain ⟨-, hlayouts⟩ := Registry.layout_eq hroot hregistry
  rw [hlayouts r h.1] at hlayout
  cases hlayout
  rw [getElem?_declared_flatLayout] at hdeclarer
  obtain ⟨found, hfound, hderived⟩ := h.token hslot
  rw [hdeclarer] at hfound
  cases hfound
  exact hderived

theorem Produces.isDerivedBy {r : Rule} {sub : Match} (hroot : root.Coherent)
    (hg : ofRoot names (some root) options = .ok g) (h : g.matchText text = .ok (.matched m))
    (hsub : g.Produces m r sub) : IsDerivedBy names root options text r sub := by
  induction hsub with
  | root =>
    rw [(ofRoot_eq_ok hg).1]
    exact isDerivedBy_root hroot hg h
  | token _ hlayout hdeclarer hslot ih =>
    exact (ih.token_of_layout hroot hg hlayout hdeclarer hslot).1

/-- Every match in the tree was produced by some rule. -/
theorem exists_produces {sub : Match} (hroot : root.Coherent)
    (hg : ofRoot names (some root) options = .ok g) (h : g.matchText text = .ok (.matched m))
    (hsub : m.Holds sub) : ∃ r, g.Produces m r sub := by
  obtain ⟨-, -, hregistry⟩ := ofRoot_eq_ok hg
  obtain ⟨-, hlayouts⟩ := Registry.layout_eq hroot hregistry
  induction hsub with
  | self => exact ⟨g.root, .root⟩
  | token houter hslot ih =>
    obtain ⟨r, hr⟩ := ih
    have hderived := hr.isDerivedBy hroot hg h
    obtain ⟨j, hj⟩ := List.mem_iff_getElem?.1 hslot
    obtain ⟨declarer, hdeclarer, -⟩ := hderived.token hj
    rw [← getElem?_declared_flatLayout] at hdeclarer
    exact ⟨declarer, hr.token (hlayouts r hderived.1) hdeclarer hj⟩

/-- What produced a match in the tree really matched it: the root the whole match, and the
declaring rule of a token the token, on a rest of the text. -/
theorem Produces.matched {r : Rule} {sub : Match} (hroot : root.Coherent)
    (hg : ofRoot names (some root) options = .ok g) (h : g.matchText text = .ok (.matched m))
    (hsub : g.Produces m r sub) :
    r = g.root ∧ sub = m ∨
      ∃ rest, rest <:+ text ∧ r.matchText g.env rest = .ok (.matched sub) := by
  obtain ⟨-, hoptions, hregistry⟩ := ofRoot_eq_ok hg
  obtain ⟨-, hlayouts⟩ := Registry.layout_eq hroot hregistry
  cases hsub with
  | root => exact .inl ⟨rfl, rfl⟩
  | token houter hlayout hdeclarer hslot =>
    have hderived := houter.isDerivedBy hroot hg h
    obtain ⟨⟨hbelow, -⟩, rest, d, hrest, hskip, hd, rfl⟩ :=
      hderived.token_of_layout hroot hg hlayout hdeclarer hslot
    have hflat : g.env.IsFlat names r := fun s hs => hlayouts s (Rule.mem_subrules_trans hbelow hs)
    have henv : g.env.options = options := hoptions
    refine .inr ⟨rest, hrest, ?_⟩
    rw [Rule.matchText_eq r hflat rest, henv, hd]
    exact congrArg Except.ok (Rule.outcomeOf_of_ne_skip r hskip)

/-- Tokens of one name in a derived match have the same declaring rule. -/
theorem IsDerivedBy.exists_declarer {r : Rule} {sub : Match} (hroot : root.Coherent)
    (hclear : root.IsClear names) (h : IsDerivedBy names root options text r sub) {name : Bytes}
    {j k : Nat} {first second : Match} (hj : (sub.get name).slots[j]? = some (some first))
    (hk : (sub.get name).slots[k]? = some (some second)) :
    ∃ declarer, (valuesOf name (r.declarations names))[j]? = some declarer ∧
      (valuesOf name (r.declarations names))[k]? = some declarer := by
  obtain ⟨hr, rest, d, -, hd, rfl⟩ := h
  have hclearBelow : r.IsClear names := fun s hs => hclear s (Rule.mem_subrules_trans hr hs)
  obtain ⟨declarer, hdeclarer, htoken⟩ := Rule.exists_mem_tokens hj
  obtain ⟨other, hother, htoken'⟩ := Rule.exists_mem_tokens hk
  have hnumber : declarer.number = other.number :=
    Rule.sameDeclarer_tokens hclearBelow hd name _ htoken _ htoken' rfl rfl
  have hbelow : ∀ s token, ⟨name, s, token⟩ ∈ r.tokens names d → s ∈ root.subrules :=
    fun s token hs => Rule.mem_subrules_trans hr
      (Rule.mem_subrules_of_mem_declarations (Rule.mem_of_mem_tokensOf hs))
  -- Rules below the root with the same number are the same.
  have hsame : declarer = other := hroot _ (hbelow _ _ htoken) _ (hbelow _ _ htoken') hnumber
  subst hsame
  exact ⟨declarer, hdeclarer, hother⟩

/-- Names are not ambiguous in what a grammar matches. Every match in the tree was produced
by a rule, which has a layout with one declaration for each slot; and if two slots of one
name have tokens, it is one rule that is declared for both. So distinct rules with the same
name are never both present in one match. -/
theorem tokens_unambiguous (names : Naming) (root : Rule) (options : RegexOptions) (g : Grammar)
    (text : Bytes) (m : Match) (hroot : root.Coherent)
    (hg : ofRoot names (some root) options = .ok g)
    (h : g.matchText text = .ok (.matched m)) :
    (∀ sub, m.Holds sub → ∃ r, g.Produces m r sub) ∧
    ∀ r sub, g.Produces m r sub →
      (r = g.root ∧ sub = m ∨
        ∃ rest, rest <:+ text ∧ r.matchText g.env rest = .ok (.matched sub)) ∧
      ∃ layout, g.registry.layout r = .ok layout ∧ ∀ name,
        (sub.get name).slots.length = ((layout.declared.lookup name).getD []).length ∧
        ∀ (j k : Nat) (first second : Match), j ≠ k →
          (sub.get name).slots[j]? = some (some first) →
          (sub.get name).slots[k]? = some (some second) →
          ∃ declarer, ((layout.declared.lookup name).getD [])[j]? = some declarer ∧
            ((layout.declared.lookup name).getD [])[k]? = some declarer := by
  obtain ⟨-, -, hregistry⟩ := ofRoot_eq_ok hg
  obtain ⟨-, hlayouts⟩ := Registry.layout_eq hroot hregistry
  have hclear : root.IsClear names := (Registry.decides_ofRoot names hroot).of_eq_ok hregistry
  refine ⟨fun sub hsub => exists_produces hroot hg h hsub, fun r sub hsub => ?_⟩
  have hderived := hsub.isDerivedBy hroot hg h
  refine ⟨hsub.matched hroot hg h, _, hlayouts r hderived.1, fun name => ⟨?_, ?_⟩⟩
  · obtain ⟨-, -, d, -, -, rfl⟩ := hderived
    rw [Rule.flatLayout, getD_lookup_group, Match.get, Rule.matchOf, getD_lookup_group]
    exact length_valuesOf_congr (Rule.names_values names r d) name
  · intro j k first second _ hj hk
    rw [getElem?_declared_flatLayout, getElem?_declared_flatLayout]
    exact hderived.exists_declarer hroot hclear hj hk

/-- A rule that occurs twice, around a choice between two rules of one name. -/
theorem tokens_unambiguous_choice :
    let x := Rule.literal 0 (ascii "a")
    let root := Rule.compound 4 .sequence
      [x, .compound 3 .choice [.literal 1 (ascii "b"), .literal 2 (ascii "c")], x]
    let names : Naming := [(0, ascii "x"), (1, ascii "t"), (2, ascii "t")]
    ∃ g m layout declarer, root.Coherent ∧ ofRoot names (some root) .default = .ok g ∧
      g.matchText (ascii "aca") = .ok (.matched m) ∧
      g.registry.layout root = .ok layout ∧
      (m.get (ascii "x")).slots = [some (.plain (ascii "a")), some (.plain (ascii "a"))] ∧
      (m.get (ascii "t")).slots = [none, some (.plain (ascii "c"))] ∧
      ((layout.declared.lookup (ascii "x")).getD [])[0]? = some declarer ∧
      ((layout.declared.lookup (ascii "x")).getD [])[1]? = some declarer := by
  intro x root names
  have hcoherent : root.Coherent := by decide
  obtain ⟨g, hg⟩ : ∃ g, ofRoot names (some root) .default = .ok g := ⟨_, rfl⟩
  have hderived : root.derive .default (ascii "aca") =
      .ok (.ok (.row [.leaf (ascii "a"), .choice 1 (.leaf (ascii "c")), .leaf (ascii "a")])) := rfl
  have hmatched : g.matchText (ascii "aca") = .ok (.matched (root.matchOf names
      (.row [.leaf (ascii "a"), .choice 1 (.leaf (ascii "c")), .leaf (ascii "a")]))) := by
    rw [matchText_eq hcoherent hg, hderived]
    rfl
  obtain ⟨-, hproduced⟩ :=
    tokens_unambiguous names root .default g (ascii "aca") _ hcoherent hg hmatched
  obtain ⟨-, layout, hlayout, hslots⟩ := hproduced g.root _ .root
  obtain ⟨declarer, hfirst, hsecond⟩ :=
    (hslots (ascii "x")).2 0 1 (.plain (ascii "a")) (.plain (ascii "a")) (by decide) rfl rfl
  rw [(ofRoot_eq_ok hg).1] at hlayout
  exact ⟨g, _, layout, declarer, hcoherent, hg, hmatched, hlayout, rfl, rfl, hfirst, hsecond⟩

/-- The tokens of a match are pieces of the text that it consumed, from left to right. The
consumed text is a beginning of the given one, and every match in the tree has starts in its
own text for all of its slots that are not empty: the pieces there do not overlap, and
under each name they are ascending. -/
theorem tokens_ordered (names : Naming) (root : Rule) (options : RegexOptions) (g : Grammar)
    (text : Bytes) (m : Match) (hroot : root.Coherent)
    (hg : ofRoot names (some root) options = .ok g)
    (h : g.matchText text = .ok (.matched m)) :
    m.text <+: text ∧ ∀ sub, m.Holds sub → ∃ start, sub.HasStarts start := by
  refine ⟨?_, fun sub hsub => ?_⟩
  · have hderived := h
    rw [matchText_eq hroot hg] at hderived
    obtain ⟨attempt, hd, houtcome⟩ := exists_of_map_eq_ok hderived
    cases attempt with
    | error mm => cases houtcome
    | ok d =>
      cases houtcome
      exact Rule.derive_prefix root hd
  · obtain ⟨r, hr⟩ := exists_produces hroot hg h hsub
    obtain ⟨-, -, d, -, -, rfl⟩ := hr.isDerivedBy hroot hg h
    exact Match.exists_hasStarts (Rule.pieces_values r d)

/-- Two tokens of one name with another between them, followed by bytes that are not
consumed. -/
theorem tokens_ordered_list :
    let item := Rule.literal 0 (ascii "a")
    let root := Rule.compound 2 .sequence [item, .literal 1 (ascii "-"), item]
    let names : Naming := [(0, ascii "item"), (1, ascii "dash")]
    ∃ g m start, root.Coherent ∧ ofRoot names (some root) .default = .ok g ∧
      g.matchText (ascii "a-a!") = .ok (.matched m) ∧ m.text = ascii "a-a" ∧
      m.HasStarts start ∧ start (ascii "item") 0 + 1 ≤ start (ascii "item") 1 := by
  intro item root names
  have hcoherent : root.Coherent := by decide
  obtain ⟨g, hg⟩ : ∃ g, ofRoot names (some root) .default = .ok g := ⟨_, rfl⟩
  have hderived : root.derive .default (ascii "a-a!") =
      .ok (.ok (.row [.leaf (ascii "a"), .leaf (ascii "-"), .leaf (ascii "a")])) := rfl
  have hmatched : g.matchText (ascii "a-a!") = .ok (.matched (root.matchOf names
      (.row [.leaf (ascii "a"), .leaf (ascii "-"), .leaf (ascii "a")]))) := by
    rw [matchText_eq hcoherent hg, hderived]
    rfl
  obtain ⟨-, hstarts⟩ := tokens_ordered names root .default g (ascii "a-a!") _ hcoherent hg hmatched
  obtain ⟨start, hstart⟩ := hstarts _ .self
  refine ⟨g, _, start, hcoherent, hg, hmatched, rfl, hstart, ?_⟩
  exact hstart.ascending (ascii "item") 0 1 (.plain (ascii "a")) (.plain (ascii "a"))
    (by decide) rfl rfl

end Grammar

end PhraseGrammar
