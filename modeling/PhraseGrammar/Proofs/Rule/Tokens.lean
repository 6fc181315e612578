import PhraseGrammar.Proofs.Layout.Clashes
import PhraseGrammar.Proofs.Match.Pieces
import PhraseGrammar.Proofs.Rule.Derivations

/-!
# The tokens of a derivation

The values of a rule for a derivation are read together with its declarations here: each
value that is present is a token with the name and the rule that declare it.

Three facts follow from the shape of a derivation. The tokens lie in the derived text from
left to right. Each of them is what its declaring rule makes of a rest of the text. And if
no rule below is ambiguous, all tokens of one name are declared by one rule: a sequence has
one component for the name, or one rule, and of a choice one component is derived.
-/

set_option autoImplicit false

namespace PhraseGrammar

open NameTable

/-- A token with the name and the rule that declare it. -/
structure DeclaredToken where
  name : Bytes
  declarer : Rule
  token : Match

namespace Rule

variable {names : Naming} {opts : RegexOptions}

/-- The declarations that have values, with these. -/
def tokensOf : List (Bytes × Rule) → List (Bytes × Option Match) → List DeclaredToken
  | (name, r) :: declared, (_, some m) :: values => ⟨name, r, m⟩ :: tokensOf declared values
  | _ :: declared, (_, none) :: values => tokensOf declared values
  | _, _ => []

/-- Tokens of two rows of declarations are those of the first and those of the second, if the first
has one value for each declaration. -/
theorem tokensOf_append {declared more : List (Bytes × Rule)}
    {values others : List (Bytes × Option Match)}
    (h : values.map Prod.fst = declared.map Prod.fst) :
    tokensOf (declared ++ more) (values ++ others) =
      tokensOf declared values ++ tokensOf more others := by
  induction declared generalizing values with
  | nil =>
    cases values with
    | nil => rfl
    | cons value values => cases h
  | cons entry declared ih =>
    cases values with
    | nil => cases h
    | cons value values =>
      obtain ⟨other, value⟩ := value
      have hrest := ih (List.cons.inj h).2
      cases value with
      | none => exact hrest
      | some m => exact congrArg (List.cons _) hrest

theorem tokensOf_blank (declared : List (Bytes × Rule)) : tokensOf declared (blank declared) = [] := by
  induction declared with
  | nil => rfl
  | cons entry declared ih => exact ih

theorem mem_of_mem_tokensOf {declared : List (Bytes × Rule)}
    {values : List (Bytes × Option Match)} {t : DeclaredToken} (h : t ∈ tokensOf declared values) :
    (t.name, t.declarer) ∈ declared := by
  induction declared generalizing values with
  | nil => cases values <;> cases h
  | cons entry declared ih =>
    cases values with
    | nil => cases h
    | cons value values =>
      obtain ⟨other, value⟩ := value
      cases value with
      | none => exact List.mem_cons_of_mem _ (ih h)
      | some m =>
        rcases List.mem_cons.1 h with rfl | hrest
        · exact List.mem_cons_self
        · exact List.mem_cons_of_mem _ (ih hrest)

/-- A name has its declarations and its values in the same order, so what stands at one
place in both is a token. -/
theorem mem_tokensOf {declared : List (Bytes × Rule)} {values : List (Bytes × Option Match)}
    {name : Bytes} {j : Nat} {r : Rule} {m : Match}
    (h : values.map Prod.fst = declared.map Prod.fst)
    (hr : (valuesOf name declared)[j]? = some r)
    (hm : (valuesOf name values)[j]? = some (some m)) :
    ⟨name, r, m⟩ ∈ tokensOf declared values := by
  induction declared generalizing values j with
  | nil => simp [valuesOf] at hr
  | cons entry declared ih =>
    cases values with
    | nil => cases h
    | cons value values =>
      obtain ⟨first, s⟩ := entry
      obtain ⟨other, value⟩ := value
      obtain ⟨rfl, hnames⟩ := List.cons.inj h
      rw [valuesOf_cons] at hr hm
      by_cases hname : other = name
      · subst hname
        simp only [if_true] at hr hm
        cases j with
        | zero =>
          simp only [List.getElem?_cons_zero, Option.some.injEq] at hr hm
          subst hr hm
          exact List.mem_cons_self
        | succ j =>
          have hrest := ih hnames hr hm
          cases value with
          | none => exact hrest
          | some found => exact List.mem_cons_of_mem _ hrest
      · rw [if_neg hname] at hr hm
        have hrest := ih hnames hr hm
        cases value with
        | none => exact hrest
        | some found => exact List.mem_cons_of_mem _ hrest

/-- The tokens of a derivation of a rule. -/
def tokens (names : Naming) (r : Rule) (d : Derivation) : List DeclaredToken :=
  tokensOf (r.declarations names) (r.values names d)

/-- The tokens that a component gives the rule around it. -/
def tokensPassed (names : Naming) (part : Rule) (d : Derivation) : List DeclaredToken :=
  tokensOf (part.contributed names) (passedOn names part d (values names part d))

/-- An unnamed component passes on its tokens, and a named one its match unless it was skipped. -/
theorem tokensPassed_cases (part : Rule) (d : Derivation) :
    tokensPassed names part d = tokens names part d ∨ tokensPassed names part d = [] ∨
      ∃ name, d ≠ .skip ∧ tokensPassed names part d = [⟨name, part, part.matchOf names d⟩] := by
  unfold tokensPassed
  cases hname : names.name? part with
  | none =>
    rw [contributed_unnamed hname, passedOn, hname]
    exact .inl rfl
  | some name =>
    by_cases hskip : d = .skip
    · subst hskip
      rw [passedOn_skip, tokensOf_blank]
      exact .inr (.inl rfl)
    · rw [contributed_named hname, passedOn_named hname hskip]
      exact .inr (.inr ⟨name, hskip, rfl⟩)

theorem tokensOf_row_cons (part : Rule) (parts : List Rule) (d : Derivation)
    (ds : List Derivation) :
    tokensOf (declarationsOfAll names (part :: parts)) (valuesOfRow names (part :: parts) (d :: ds)) =
      tokensPassed names part d ++
        tokensOf (declarationsOfAll names parts) (valuesOfRow names parts ds) := by
  rw [declarationsOfAll_cons, valuesOfRow,
    tokensOf_append (names_passedOn d (names_values names part d)), tokensPassed]

theorem tokens_choice (n : Nat) (before : List Rule) (part : Rule) (after : List Rule)
    (d : Derivation) :
    tokens names (.compound n .choice (before ++ part :: after)) (.choice before.length d) =
      tokensPassed names part d := by
  rw [tokens, declarations, values, valuesOfChoice_append, declarationsOfAll_append,
    declarationsOfAll_cons, List.append_assoc, tokensOf_append (names_blank _), tokensOf_blank,
    List.nil_append, tokensOf_append (names_passedOn d (names_values names part d)),
    tokensOf_blank, List.append_nil, tokensPassed]

theorem tokens_skip (r : Rule) : tokens names r .skip = [] := by
  have hvalues : r.values names .skip = blank (r.declarations names) := by
    cases r with
    | leaf => rfl
    | compound => rfl
  rw [tokens, hvalues, tokensOf_blank]

/-- What is true of the tokens that the components of a rule give is true of those of the
rule. A component is derived on a rest of the text. -/
theorem forall_tokens {P : DeclaredToken → Prop} {n : Nat} {combinator : Combinator}
    {parts : List Rule} {text : Bytes} {d : Derivation}
    (h : derive opts (.compound n combinator parts) text = .ok (.ok d))
    (hpart : ∀ part ∈ parts, ∀ rest d, rest <:+ text → derive opts part rest = .ok (.ok d) →
      ∀ t ∈ tokensPassed names part d, P t) :
    ∀ t ∈ tokens names (.compound n combinator parts) d, P t := by
  have hrow : ∀ ds, deriveRow opts parts text = .ok (.ok ds) →
      ∀ t ∈ tokensOf (declarationsOfAll names parts) (valuesOfRow names parts ds), P t := by
    clear h
    induction parts generalizing text with
    | nil =>
      intro ds _ t ht
      cases ht
    | cons part parts ih =>
      intro ds hds t ht
      obtain ⟨first, rest, hfirst, hrest, rfl⟩ := deriveRow_cons_eq_ok hds
      rw [tokensOf_row_cons] at ht
      rcases List.mem_append.1 ht with hhead | htail
      · exact hpart part List.mem_cons_self text first (List.suffix_refl text) hfirst t hhead
      · refine ih (fun other hother later d hlater => ?_) rest hrest t htail
        exact hpart other (List.mem_cons_of_mem _ hother) later d
          (hlater.trans (List.drop_suffix _ _))
  cases combinator with
  | sequence =>
    obtain ⟨ds, hds, rfl⟩ := derive_sequence_eq_ok h
    exact hrow ds hds
  | optional =>
    rcases derive_optional_eq_ok h with rfl | ⟨ds, hds, rfl⟩
    · intro t ht
      rw [tokens_skip] at ht
      cases ht
    · exact hrow ds hds
  | choice =>
    obtain ⟨before, part, after, inner, rfl, hinner, rfl⟩ := derive_choice_eq_ok h
    rw [tokens_choice]
    exact hpart part (List.mem_append_right _ List.mem_cons_self) text inner
      (List.suffix_refl text) hinner

/-- A token is the match of its declaring rule on a rest of the text. -/
def IsDerived (names : Naming) (opts : RegexOptions) (text : Bytes) (t : DeclaredToken) : Prop :=
  ∃ rest d, rest <:+ text ∧ d ≠ .skip ∧ derive opts t.declarer rest = .ok (.ok d) ∧
    t.token = t.declarer.matchOf names d

/-- What is derived on a rest of a text is derived on a rest of any text that this one ends. -/
theorem IsDerived.of_suffix {text rest : Bytes} {t : DeclaredToken}
    (h : IsDerived names opts rest t) (hrest : rest <:+ text) : IsDerived names opts text t := by
  obtain ⟨later, d, hlater, hd⟩ := h
  exact ⟨later, d, hlater.trans hrest, hd⟩

/-- Every token is what its declaring rule derives on a rest of the text. -/
theorem isDerived_of_mem_tokens {r : Rule} {text : Bytes} {d : Derivation}
    (h : derive opts r text = .ok (.ok d)) : ∀ t ∈ tokens names r d, IsDerived names opts text t := by
  induction r using Rule.induction generalizing text d with
  | leaf n source regex =>
    intro t ht
    cases ht
  | compound n combinator parts ih =>
    refine forall_tokens h fun part hpart rest d hrest hd t ht => ?_
    rcases tokensPassed_cases part d with hpassed | hpassed | ⟨name, hskip, hpassed⟩
    · rw [hpassed] at ht
      exact (ih part hpart hd t ht).of_suffix hrest
    · rw [hpassed] at ht
      cases ht
    · rw [hpassed, List.mem_singleton] at ht
      subst ht
      exact ⟨rest, d, hrest, hskip, hd, rfl⟩

/-- A slot that is not empty has a token, at the place of the declaration. -/
theorem exists_mem_tokens {r : Rule} {d : Derivation} {name : Bytes} {j : Nat} {m : Match}
    (h : ((r.matchOf names d).get name).slots[j]? = some (some m)) :
    ∃ declarer, (valuesOf name (r.declarations names))[j]? = some declarer ∧
      ⟨name, declarer, m⟩ ∈ tokens names r d := by
  have hnames := names_values names r d
  have hvalue : (valuesOf name (r.values names d))[j]? = some (some m) := by
    rwa [Match.get, matchOf, getD_lookup_group] at h
  have hlt : j < (valuesOf name (r.declarations names)).length := by
    rw [← length_valuesOf_congr hnames]
    exact (List.getElem?_eq_some_iff.1 hvalue).1
  have hdeclarer := List.getElem?_eq_getElem hlt
  exact ⟨_, hdeclarer, mem_tokensOf hnames hdeclarer hvalue⟩

/-- Of tokens that declare a name, all have the same declaring rule. -/
def SameDeclarer (name : Bytes) (tokens : List DeclaredToken) : Prop :=
  ∀ t ∈ tokens, ∀ u ∈ tokens, t.name = name → u.name = name →
    t.declarer.number = u.declarer.number

/-- If a name is always declared by one rule, all tokens under it are declared by that rule. -/
theorem SameDeclarer.of_allSame {name : Bytes} {declared : List (Bytes × Rule)}
    (h : AllSame (valuesOf name declared)) (values : List (Bytes × Option Match)) :
    SameDeclarer name (tokensOf declared values) := by
  intro t ht u hu htname huname
  refine h _ (mem_valuesOf.2 ?_) _ (mem_valuesOf.2 ?_)
  · rw [← htname]
    exact mem_of_mem_tokensOf ht
  · rw [← huname]
    exact mem_of_mem_tokensOf hu

theorem name_ne_of_mem_tokensOf {name : Bytes} {declared : List (Bytes × Rule)}
    {values : List (Bytes × Option Match)} {t : DeclaredToken}
    (hnil : valuesOf name declared = []) (ht : t ∈ tokensOf declared values) : t.name ≠ name := by
  rintro rfl
  have hmem := mem_valuesOf.2 (mem_of_mem_tokensOf ht)
  rw [hnil] at hmem
  cases hmem

/-- In a row of components of which at most one declares a name, the tokens of the name come
from that component. -/
theorem SameDeclarer.row {name : Bytes} {parts : List Rule} {text : Bytes} {ds : List Derivation}
    (h : deriveRow opts parts text = .ok (.ok ds))
    (hpart : ∀ part ∈ parts, ∀ rest d, derive opts part rest = .ok (.ok d) →
      SameDeclarer name (tokensPassed names part d))
    (hone : parts.countP (declares names name) ≤ 1) :
    SameDeclarer name (tokensOf (declarationsOfAll names parts) (valuesOfRow names parts ds)) := by
  induction parts generalizing text ds with
  | nil =>
    intro t ht
    cases ht
  | cons part parts ih =>
    obtain ⟨first, rest, hfirst, hrest, rfl⟩ := deriveRow_cons_eq_ok h
    obtain ⟨hhead, htail⟩ := List.forall_mem_cons.1 hpart
    intro t ht u hu htname huname
    rw [tokensOf_row_cons] at ht hu
    by_cases hdeclares : declares names name part = true
    · -- Nothing of the name can come from the components after this one.
      rw [List.countP_cons_of_pos hdeclares] at hone
      have hnone : valuesOf name (declarationsOfAll names parts) = [] :=
        (valuesOf_eq_nil_iff parts).2 (by omega)
      refine hhead text first hfirst t ?_ u ?_ htname huname
      · exact (List.mem_append.1 ht).resolve_right fun hlater =>
          name_ne_of_mem_tokensOf hnone hlater htname
      · exact (List.mem_append.1 hu).resolve_right fun hlater =>
          name_ne_of_mem_tokensOf hnone hlater huname
    · rw [List.countP_cons_of_neg hdeclares] at hone
      have hnone : valuesOf name (part.contributed names) = [] :=
        (declares_eq_false_iff part).1 (Bool.eq_false_iff.2 hdeclares)
      refine ih hrest htail hone t ?_ u ?_ htname huname
      · exact (List.mem_append.1 ht).resolve_left fun hearlier =>
          name_ne_of_mem_tokensOf hnone hearlier htname
      · exact (List.mem_append.1 hu).resolve_left fun hearlier =>
          name_ne_of_mem_tokensOf hnone hearlier huname

/-- Where no rule is ambiguous, the tokens of one name in a derivation are all declared by
the same rule. -/
theorem sameDeclarer_tokens {r : Rule} {text : Bytes} {d : Derivation} (hclear : r.IsClear names)
    (h : derive opts r text = .ok (.ok d)) (name : Bytes) :
    SameDeclarer name (tokens names r d) := by
  induction r using Rule.induction generalizing text d with
  | leaf n source regex =>
    intro t ht
    cases ht
  | compound n combinator parts ih =>
    obtain ⟨hself, hbelow⟩ := (isClear_compound_iff n combinator parts).1 hclear
    have hpart : ∀ part ∈ parts, ∀ rest d, derive opts part rest = .ok (.ok d) →
        SameDeclarer name (tokensPassed names part d) := by
      intro part hpart rest d hd
      rcases tokensPassed_cases part d with hpassed | hpassed | ⟨own, -, hpassed⟩
      · rw [hpassed]
        exact ih part hpart (hbelow part hpart) hd
      · rw [hpassed]
        intro t ht
        cases ht
      · rw [hpassed]
        intro t ht u hu _ _
        rw [List.mem_singleton.1 ht, List.mem_singleton.1 hu]
    have hrow : (compound n combinator parts).isChoice = false →
        ∀ ds, deriveRow opts parts text = .ok (.ok ds) →
          SameDeclarer name (tokens names (.compound n combinator parts) (.row ds)) := by
      intro hnot ds hds
      have hname := hself.resolve_left (by rw [hnot]; exact Bool.false_ne_true) name
      rcases hname with hone | hsame
      · exact .row hds hpart hone
      · exact .of_allSame hsame _
    cases combinator with
    | sequence =>
      obtain ⟨ds, hds, rfl⟩ := derive_sequence_eq_ok h
      exact hrow rfl ds hds
    | optional =>
      rcases derive_optional_eq_ok h with rfl | ⟨ds, hds, rfl⟩
      · intro t ht
        rw [tokens_skip] at ht
        cases ht
      · exact hrow rfl ds hds
    | choice =>
      obtain ⟨before, part, after, inner, rfl, hinner, rfl⟩ := derive_choice_eq_ok h
      rw [tokens_choice]
      exact hpart part (List.mem_append_right _ List.mem_cons_self) text inner hinner

theorem pieces_blank (text : Bytes) (declared : List (Bytes × Rule)) :
    Pieces text ((blank declared).map Prod.snd) := by
  refine .absent text fun token htoken => ?_
  simp only [blank, List.map_map, List.mem_map] at htoken
  obtain ⟨entry, -, rfl⟩ := htoken
  rfl

/-- What a component gives the rule around it lies in what the component consumed. -/
theorem pieces_passedOn {part : Rule} {d : Derivation}
    (h : Pieces d.text ((part.values names d).map Prod.snd)) :
    Pieces d.text ((passedOn names part d (values names part d)).map Prod.snd) := by
  cases hname : names.name? part with
  | none =>
    rw [passedOn, hname]
    exact h
  | some name =>
    by_cases hskip : d = .skip
    · subst hskip
      rw [passedOn_skip]
      exact pieces_blank _ _
    · rw [passedOn_named hname hskip]
      exact .single (part.matchOf names d)

/-- The values of a rule lie one after the other in the text of the derivation. -/
theorem pieces_values (r : Rule) (d : Derivation) :
    Pieces d.text ((r.values names d).map Prod.snd) := by
  induction r using Rule.induction generalizing d with
  | leaf n source regex => exact pieces_blank _ []
  | compound n combinator parts ih =>
    cases d with
    | leaf consumed => exact pieces_blank _ _
    | skip => exact pieces_blank _ _
    | row ds =>
      show Pieces (Derivation.textOfAll ds) ((valuesOfRow names parts ds).map Prod.snd)
      induction parts generalizing ds with
      | nil => exact trivial
      | cons part parts ihparts =>
        cases ds with
        | nil => exact pieces_blank _ _
        | cons d ds =>
          obtain ⟨hhead, htail⟩ := List.forall_mem_cons.1 ih
          rw [valuesOfRow, List.map_append, Derivation.textOfAll]
          exact (pieces_passedOn (hhead d)).append (ihparts htail ds)
    | choice i d =>
      show Pieces d.text ((valuesOfChoice names parts i d).map Prod.snd)
      induction parts generalizing i with
      | nil => exact trivial
      | cons part parts ihparts =>
        obtain ⟨hhead, htail⟩ := List.forall_mem_cons.1 ih
        cases i with
        | zero =>
          rw [valuesOfChoice, List.map_append, ← List.append_nil d.text]
          exact (pieces_passedOn (hhead d)).append (pieces_blank _ _)
        | succ i =>
          rw [valuesOfChoice, List.map_append, ← List.nil_append d.text]
          exact (pieces_blank _ _).append (ihparts htail i)

end Rule

end PhraseGrammar
