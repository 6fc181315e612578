import PhraseGrammar.Session.Run
import PhraseGrammar.Proofs.Grammar.Refinement
import PhraseGrammar.Proofs.Rule.Totality

/-!
# Rules of a session are shared by number

Every rule that a session makes gets a number of its own, and its components are
rules that were made before. So among all rules of a session, at any depth, the
number tells which rule it is: a root that a session has made is coherent, and
every grammar that a session keeps refines the reference. Every rule of a session
comes from one of the ways to make a rule, and so it is proper as well.

The argument carries the list of the rules made so far beside the session. A part
of a step may extend the list; it never forgets a rule.
-/

set_option autoImplicit false

namespace PhraseGrammar

namespace Rule

/-- A rule made from a pattern has the number that was chosen for it, and no components. -/
theorem pattern_eq_ok {n : Nat} {source : Bytes} {r : Rule} (h : pattern n source = .ok r) :
    r.number = n ∧ r.parts = [] := by
  unfold pattern at h
  simp only at h
  split at h
  · cases h
    exact ⟨rfl, rfl⟩
  · split at h
    · cases h
    · cases h

theorem mem_of_allPresent {parts : List (Option Rule)} {rs : List Rule}
    (h : allPresent parts = .ok rs) {r : Rule} (hr : r ∈ rs) : some r ∈ parts := by
  induction parts generalizing rs with
  | nil =>
    cases h
    cases hr
  | cons part parts ih =>
    cases part with
    | none => cases h
    | some first =>
      obtain ⟨rest, hrest, rfl⟩ := exists_of_map_eq_ok h
      rcases List.mem_cons.1 hr with rfl | hr
      · exact List.mem_cons_self
      · exact List.mem_cons_of_mem _ (ih hrest hr)

/-- A combined rule has the number that was chosen for it, and the given components. -/
theorem combine_eq_ok {n : Nat} {combinator : Combinator} {parts : List (Option Rule)} {r : Rule}
    (h : combine n combinator parts = .ok r) :
    r.number = n ∧ ∀ part ∈ r.parts, some part ∈ parts := by
  unfold combine at h
  split at h
  · cases h
  · obtain ⟨rs, hpresent, rfl⟩ := exists_of_map_eq_ok h
    exact ⟨rfl, fun part hpart => mem_of_allPresent hpresent hpart⟩

end Rule

theorem Registry.root_of_ofRoot {names : Naming} {root : Rule} {made : Registry}
    (h : Registry.ofRoot names root = .ok made) : made.root = root := by
  obtain ⟨layouts, -, rfl⟩ := exists_of_map_eq_ok h
  rfl

/-- A grammar is that of its root under the names it was made with. -/
theorem Grammar.self_of_ofRoot {names : Naming} {root : Option Rule} {options : RegexOptions}
    {g : Grammar} (h : Grammar.ofRoot names root options = .ok g) :
    root = some g.root ∧ Grammar.ofRoot names (some g.root) g.options = .ok g := by
  cases root with
  | none => cases h
  | some r =>
    obtain ⟨hroot, hoptions, -⟩ := Grammar.ofRoot_eq_ok h
    rw [hroot, hoptions]
    exact ⟨rfl, h⟩

/-- A grammar that a builder makes is that of the root under the names given in the end. -/
theorem GrammarBuilder.ofRoot_of_build {b : GrammarBuilder} {names given : Naming}
    {root : Option Rule} {options : RegexOptions} {g : Grammar}
    (h : b.build names root options = (given, .ok g)) :
    Grammar.ofRoot given root options = .ok g := by
  unfold GrammarBuilder.build at h
  split at h
  · cases h
  · split at h
    · cases h
    · simp only [Prod.mk.injEq] at h
      obtain ⟨rfl, hmade⟩ := h
      exact hmade

namespace Session

/-- Rules that were made with numbers below `next`: with every rule they have all rules
below it, no two of them share a number, and each of them is proper. -/
structure IsFamily (known : List Rule) (next : Nat) : Prop where
  closed : ∀ r ∈ known, ∀ s ∈ r.subrules, s ∈ known
  distinct : ∀ r ∈ known, ∀ s ∈ known, r.number = s.number → r = s
  numbered : ∀ r ∈ known, r.number < next
  proper : ∀ r ∈ known, r.IsProper

/-- Everything that a session keeps is made of the known rules. A grammar and a registry were
made from their roots under some names. -/
structure Keeps (s : Session) (known : List Rule) : Prop where
  family : IsFamily known s.nextNumber
  rules : ∀ entry ∈ s.rules, ∀ r ∈ entry.2, r ∈ known
  bindings : ∀ entry ∈ s.builders, ∀ binding ∈ entry.2.bindings, binding.2 ∈ known
  grammars : ∀ entry ∈ s.grammars, entry.2.root ∈ known ∧
    ∃ names, Grammar.ofRoot names (some entry.2.root) entry.2.options = .ok entry.2
  registries : ∀ entry ∈ s.registries, entry.2.root ∈ known ∧
    ∃ names, Registry.ofRoot names entry.2.root = .ok entry.2

/-- Known rules are coherent. -/
theorem IsFamily.coherent {known : List Rule} {next : Nat} (h : IsFamily known next) {r : Rule}
    (hr : r ∈ known) : r.Coherent := by
  intro s hs t ht
  exact h.distinct s (h.closed r hr s hs) t (h.closed r hr t ht)

theorem IsFamily.isProperThroughout {known : List Rule} {next : Nat} (h : IsFamily known next)
    {r : Rule} (hr : r ∈ known) : r.IsProperThroughout := by
  intro s hs
  exact h.proper s (h.closed r hr s hs)

/-- A new rule made of known ones, with the next number. -/
theorem IsFamily.add {known : List Rule} {r : Rule} (h : IsFamily known r.number)
    (hparts : ∀ part ∈ r.parts, part ∈ known) (hproper : r.IsProper) :
    IsFamily (r :: known) (r.number + 1) where
  closed := by
    intro s hs t ht
    rcases List.mem_cons.1 hs with rfl | hold
    · cases s with
      | leaf n source regex =>
        rw [Rule.subrules, List.mem_singleton] at ht
        rw [ht]
        exact List.mem_cons_self
      | compound n combinator parts =>
        rw [Rule.subrules, Rule.subrulesOfAll_eq_flatMap] at ht
        rcases List.mem_cons.1 ht with rfl | hbelow
        · exact List.mem_cons_self
        · obtain ⟨part, hpart, ht⟩ := List.mem_flatMap.1 hbelow
          exact List.mem_cons_of_mem _ (h.closed part (hparts part hpart) t ht)
    · exact List.mem_cons_of_mem _ (h.closed s hold t ht)
  distinct := by
    intro s hs t ht hnumber
    rcases List.mem_cons.1 hs with hnew | hold
    · rcases List.mem_cons.1 ht with hsecond | hsecond
      · rw [hnew, hsecond]
      · have hlt := h.numbered t hsecond
        rw [hnew] at hnumber
        omega
    · rcases List.mem_cons.1 ht with hsecond | hsecond
      · have hlt := h.numbered s hold
        rw [hsecond] at hnumber
        omega
      · exact h.distinct s hold t hsecond hnumber
  numbered := by
    intro s hs
    rcases List.mem_cons.1 hs with rfl | hs
    · omega
    · have hlt := h.numbered s hs
      omega
  proper := by
    intro s hs
    rcases List.mem_cons.1 hs with rfl | hold
    · exact hproper
    · exact h.proper s hold

/-- From a session made of known rules, a part of a step leads to one made of these and
perhaps more, whether it is refused or not. If it is not, its result is as described. -/
def Extends {α : Type} (pre : List Rule → Prop) (x : SessionM α) (post : List Rule → α → Prop) :
    Prop :=
  ∀ (known : List Rule) (s : Session), s.Keeps known → pre known →
    ∃ more, known ⊆ more ∧ (x.run s).2.Keeps more ∧ ∀ a, (x.run s).1 = .ok a → post more a

variable {α β : Type} {pre : List Rule → Prop} {post : List Rule → α → Prop}

theorem Extends.pure {a : α} (h : ∀ known, pre known → post known a) :
    Extends pre (Pure.pure a) post := by
  intro known s hs hpre
  refine ⟨known, List.Subset.refl _, hs, ?_⟩
  intro b hb
  cases hb
  exact h known hpre

/-- The second of two parts of a step runs in the session that the first leaves, unless that was
refused. -/
theorem run_bind (x : SessionM α) (f : α → SessionM β) (s : Session) :
    (x >>= f).run s =
      match x.run s with
      | (.ok a, middle) => (f a).run middle
      | (.error fault, middle) => (.error fault, middle) := by
  show (match x.run s with | (result, middle) => ExceptT.bindCont f result middle) = _
  cases x.run s with
  | mk result middle =>
    cases result with
    | error fault => rfl
    | ok a => rfl

/-- What the first of two parts of a step ensures is what the second may start from. -/
theorem Extends.bind {x : SessionM α} {f : α → SessionM β} {mid : List Rule → α → Prop}
    {after : List Rule → β → Prop} (hx : Extends pre x mid)
    (hf : ∀ a, Extends (fun known => mid known a) (f a) after) : Extends pre (x >>= f) after := by
  intro known s hs hpre
  obtain ⟨more, hmore, hkeeps, hmid⟩ := hx known s hs hpre
  rw [run_bind]
  cases hrun : x.run s with
  | mk result middle =>
    rw [hrun] at hkeeps hmid
    cases result with
    | error fault =>
      refine ⟨more, hmore, hkeeps, ?_⟩
      intro b hb
      cases hb
    | ok a =>
      obtain ⟨all, hall, hlast, hpost⟩ := hf a more middle hkeeps (hmid a rfl)
      exact ⟨all, List.Subset.trans hmore hall, hlast, hpost⟩

/-- What holds of some known rules and is kept when there are more may be carried along. -/
theorem Extends.carry {x : SessionM α} (fact : List Rule → Prop) (hx : Extends pre x post)
    (hmono : ∀ known more, known ⊆ more → fact known → fact more) :
    Extends (fun known => fact known ∧ pre known) x
      (fun known a => fact known ∧ post known a) := by
  intro known s hs hpre
  obtain ⟨more, hmore, hkeeps, hpost⟩ := hx known s hs hpre.2
  exact ⟨more, hmore, hkeeps, fun a ha => ⟨hmono _ _ hmore hpre.1, hpost a ha⟩⟩

theorem Extends.weaken {x : SessionM α} {stronger : List Rule → Prop} (hx : Extends pre x post)
    (h : ∀ known, stronger known → pre known) : Extends stronger x post :=
  fun known s hs hpre => hx known s hs (h known hpre)

/-- A result that does not depend on the session. -/
theorem Extends.lift {x : Except Fault α}
    (h : ∀ known a, pre known → x = .ok a → post known a) :
    Extends pre (Session.lift x) post := by
  intro known s hs hpre
  cases hx : x with
  | error fault =>
    refine ⟨known, List.Subset.refl _, hs, ?_⟩
    intro a ha
    cases ha
  | ok a =>
    refine ⟨known, List.Subset.refl _, hs, ?_⟩
    intro b hb
    cases hb
    exact h known a hpre hx

theorem Extends.ask {x : Except Fault α} : Extends pre (Session.lift x) (fun _ _ => True) :=
  Extends.lift fun _ _ _ _ => trivial

/-- A fault leaves the session as it is. -/
theorem Extends.throw {fault : Fault} : Extends pre (throw fault : SessionM α) post := by
  intro known s hs _
  refine ⟨known, List.Subset.refl _, hs, ?_⟩
  intro a ha
  cases ha

/-- Something that is kept under an id. -/
theorem Extends.find {entries : List (Bytes × α)} {id : Bytes}
    (h : ∀ known, pre known → ∀ entry ∈ entries, post known entry.2) :
    Extends pre (Session.find entries id) post := by
  unfold Session.find
  cases hfound : entries.lookup id with
  | none => exact Extends.throw
  | some a => exact Extends.pure fun known hpre => h known hpre _ (NameTable.mem_of_lookup hfound)

/-- Reading the session. -/
theorem Extends.get : Extends pre get (fun known s => pre known ∧ s.Keeps known) := by
  intro known s hs hpre
  refine ⟨known, List.Subset.refl _, hs, ?_⟩
  intro a ha
  cases ha
  exact ⟨hpre, hs⟩

/-- Looking something up and not using it to make anything. -/
theorem Extends.lookup {entries : List (Bytes × α)} (id : Bytes) :
    Extends pre (Session.find entries id) (fun _ _ => True) :=
  Extends.find fun _ _ _ _ => trivial

/-- Changing the session. -/
theorem Extends.update {f : Session → Session}
    (h : ∀ known s, pre known → s.Keeps known → (f s).Keeps known) :
    Extends pre (modify f : SessionM PUnit) (fun known _ => pre known) := by
  intro known s hs hpre
  exact ⟨known, List.Subset.refl _, h known s hpre hs, fun _ _ => hpre⟩

/-- The rule, if there is one, is known. -/
def IsKnown (known : List Rule) (r : Option Rule) : Prop :=
  ∀ s ∈ r, s ∈ known

theorem IsKnown.mono {known more : List Rule} {r : Option Rule} (h : IsKnown known r)
    (hmore : known ⊆ more) : IsKnown more r :=
  fun s hs => hmore (h s hs)

/-- All rules that a builder binds are known. -/
def BindsKnown (known : List Rule) (b : GrammarBuilder) : Prop :=
  ∀ binding ∈ b.bindings, binding.2 ∈ known

/-- A builder binds known rules also when there are more of them. -/
theorem BindsKnown.mono {known more : List Rule} {b : GrammarBuilder} (h : BindsKnown known b)
    (hmore : known ⊆ more) : BindsKnown more b :=
  fun binding hb => hmore (h binding hb)

/-- A builder that binds one more known rule binds known rules only. -/
theorem BindsKnown.define {known : List Rule} {b extended : GrammarBuilder} {name : Bytes}
    {r : Option Rule} (h : BindsKnown known b) (hr : IsKnown known r)
    (hextended : b.define name r = .ok extended) : BindsKnown known extended := by
  cases r with
  | none => cases hextended
  | some r =>
    cases hextended
    intro binding hb
    rcases List.mem_append.1 hb with hold | hnew
    · exact h binding hold
    · rw [List.mem_singleton.1 hnew]
      exact hr r rfl

/-- Naming rules and keeping something else leaves what is kept. -/
theorem Keeps.withNames {s : Session} {known : List Rule} (h : s.Keeps known) (names : Naming) :
    ({ s with names } : Session).Keeps known :=
  ⟨h.family, h.rules, h.bindings, h.grammars, h.registries⟩

/-- Making a rule counts it, unless it is refused. -/
theorem run_create (make : Nat → Except Fault Rule) (s : Session) :
    (Session.create make).run s =
      match make s.nextNumber with
      | .error fault => (.error fault, s)
      | .ok r => (.ok (some r), { s with nextNumber := s.nextNumber + 1 }) := by
  show (Session.lift (make s.nextNumber) >>= fun r =>
    MonadState.modifyGet (fun s => (PUnit.unit, { s with nextNumber := s.nextNumber + 1 })) >>=
      fun _ => Pure.pure (some r) : SessionM (Option Rule)).run s = _
  rw [run_bind]
  cases make s.nextNumber with
  | error fault => rfl
  | ok r => rfl

/-- Making a rule of known ones with the next number. -/
theorem Extends.create {make : Nat → Except Fault Rule}
    (h : ∀ known n r, pre known → make n = .ok r →
      r.number = n ∧ (∀ part ∈ r.parts, part ∈ known) ∧ r.IsProper) :
    Extends pre (Session.create make) IsKnown := by
  intro known s hs hpre
  rw [run_create]
  cases hmake : make s.nextNumber with
  | error fault =>
    refine ⟨known, List.Subset.refl _, hs, ?_⟩
    intro a ha
    cases ha
  | ok r =>
    obtain ⟨hnumber, hparts, hproper⟩ := h known s.nextNumber r hpre hmake
    have hmore : known ⊆ r :: known := List.subset_cons_self r known
    refine ⟨r :: known, hmore, ⟨?_, ?_, ?_, ?_, ?_⟩, ?_⟩
    · have hfamily := hs.family
      rw [← hnumber] at hfamily ⊢
      exact hfamily.add hparts hproper
    · exact fun entry hentry t ht => hmore (hs.rules entry hentry t ht)
    · exact fun entry hentry binding hb => hmore (hs.bindings entry hentry binding hb)
    · exact fun entry hentry => (hs.grammars entry hentry).imp (@hmore _) id
    · exact fun entry hentry => (hs.registries entry hentry).imp (@hmore _) id
    · intro a ha t ht
      cases ha
      cases ht
      exact List.mem_cons_self

theorem Extends.giveName {name : Bytes} {r : Option Rule} :
    Extends pre (Session.giveName name r) (fun known _ => pre known) := by
  cases r with
  | none => exact Extends.throw
  | some r =>
    refine Extends.get.bind fun s => ?_
    have hnames : Extends (fun known => pre known ∧ s.Keeps known)
        (Session.lift (s.names.give r name)) (fun known _ => pre known) :=
      Extends.lift fun known names h _ => h.1
    exact hnames.bind fun names => Extends.update fun known s _ hs => hs.withNames names

theorem Extends.answerRule {r : Option Rule} :
    Extends pre (Session.answerRule r) (fun _ _ => True) :=
  Extends.get.bind fun _ => Extends.pure fun _ _ => trivial

theorem Extends.keepRule {id : Bytes} {r : Option Rule} (h : ∀ known, pre known → IsKnown known r) :
    Extends pre (Session.keepRule id r) (fun known _ => pre known) := by
  refine Extends.update fun known s hpre hs =>
    ⟨hs.family, ?_, hs.bindings, hs.grammars, hs.registries⟩
  intro entry hentry
  rcases List.mem_cons.1 hentry with rfl | hold
  · exact h known hpre
  · exact hs.rules entry hold

theorem Extends.keepGrammar {id : Bytes} {g : Grammar}
    (h : ∀ known, pre known → g.root ∈ known ∧
      ∃ names, Grammar.ofRoot names (some g.root) g.options = .ok g) :
    Extends pre (Session.keepGrammar id g) (fun known _ => pre known) := by
  refine Extends.update fun known s hpre hs => ⟨hs.family, hs.rules, hs.bindings, ?_, hs.registries⟩
  intro entry hentry
  rcases List.mem_cons.1 hentry with rfl | hold
  · exact h known hpre
  · exact hs.grammars entry hold

/-- Keeping a grammar, if it was made, and showing its root. -/
theorem Extends.keepMade {id : Bytes} {made : Except Fault Grammar}
    (h : ∀ known g, pre known → made = .ok g → g.root ∈ known ∧
      ∃ names, Grammar.ofRoot names (some g.root) g.options = .ok g) :
    Extends pre (do
      let g ← Session.lift made
      Session.keepGrammar id g
      Session.answerRule (some g.root)) (fun _ _ => True) :=
  Extends.bind (Extends.lift h) fun _ =>
    (Extends.keepGrammar fun _ hg => hg).bind fun _ => Extends.answerRule

theorem Extends.keepRegistry {id : Bytes} {made : Registry}
    (h : ∀ known, pre known → made.root ∈ known ∧
      ∃ names, Registry.ofRoot names made.root = .ok made) :
    Extends pre (modify fun s : Session => { s with registries := (id, made) :: s.registries } :
      SessionM PUnit) (fun known _ => pre known) := by
  refine Extends.update fun known s hpre hs => ⟨hs.family, hs.rules, hs.bindings, hs.grammars, ?_⟩
  intro entry hentry
  rcases List.mem_cons.1 hentry with rfl | hold
  · exact h known hpre
  · exact hs.registries entry hold

theorem Extends.keepBuilder {id : Bytes} {b : GrammarBuilder}
    (h : ∀ known, pre known → BindsKnown known b) :
    Extends pre (modify fun s : Session => { s with builders := (id, b) :: s.builders } :
      SessionM PUnit) (fun known _ => pre known) := by
  refine Extends.update fun known s hpre hs => ⟨hs.family, hs.rules, ?_, hs.grammars, hs.registries⟩
  intro entry hentry
  rcases List.mem_cons.1 hentry with rfl | hold
  · exact h known hpre
  · exact hs.bindings entry hold

theorem Extends.findPresent {id : Bytes} :
    Extends pre (Session.findPresent id) (fun _ _ => True) := by
  refine Extends.get.bind fun s => (Extends.lookup id).bind fun r => ?_
  cases r with
  | none => exact Extends.throw
  | some r => exact Extends.pure fun _ _ => trivial

end Session

open Session

mutual

/-- An expression makes a rule of rules that are known when it is made. -/
theorem RuleExpr.eval_extends : (e : RuleExpr) → Extends (fun _ => True) e.eval IsKnown
  | .null => by
    rw [RuleExpr.eval]
    exact Extends.pure fun known _ r hr => nomatch hr
  | .literal text => by
    rw [RuleExpr.eval]
    refine Extends.create fun known n r _ hr => ?_
    cases hr
    exact ⟨rfl, fun part hpart => (nomatch hpart), Rule.isProper_literal n text⟩
  | .pattern source => by
    rw [RuleExpr.eval]
    refine Extends.create fun known n r _ hr => ?_
    obtain ⟨hnumber, hparts⟩ := Rule.pattern_eq_ok hr
    refine ⟨hnumber, fun part hpart => ?_, Rule.isProper_of_pattern hr⟩
    rw [hparts] at hpart
    cases hpart
  | .combine combinator parts => by
    rw [RuleExpr.eval]
    refine (RuleExpr.evalAll_extends parts).bind fun rules => ?_
    refine Extends.create fun known n r hrules hr => ?_
    obtain ⟨hnumber, hparts⟩ := Rule.combine_eq_ok hr
    exact ⟨hnumber, fun part hpart => hrules _ (hparts part hpart) part rfl,
      Rule.isProper_of_combine hr⟩
  | .named name e => by
    rw [RuleExpr.eval]
    refine (RuleExpr.eval_extends e).bind fun r => ?_
    exact Extends.giveName.bind fun _ => Extends.pure fun known hr => hr
  | .ref id => by
    rw [RuleExpr.eval]
    refine Extends.get.bind fun s => ?_
    exact Extends.find fun known h entry hentry => h.2.rules entry hentry

/-- Several expressions make rules that are all known in the end. -/
theorem RuleExpr.evalAll_extends : (es : List RuleExpr) →
    Extends (fun _ => True) (RuleExpr.evalAll es) (fun known rs => ∀ r ∈ rs, IsKnown known r)
  | [] => by
    rw [RuleExpr.evalAll]
    exact Extends.pure fun known _ r hr => nomatch hr
  | e :: es => by
    rw [RuleExpr.evalAll]
    refine (RuleExpr.eval_extends e).bind fun r => ?_
    have hrest := (RuleExpr.evalAll_extends es).carry (fun known => IsKnown known r)
      fun known more hmore h => h.mono hmore
    refine Extends.bind (hrest.weaken fun known h => ⟨h, trivial⟩) fun rs => ?_
    refine Extends.pure fun known h s hs => ?_
    rcases List.mem_cons.1 hs with rfl | hs
    · exact h.1
    · exact h.2 s hs

end

namespace Step

/-- A definition makes a rule, and with it the builder still binds known rules only. -/
theorem define_extends (builderId name : Bytes) (definition : RuleExpr) (id : Option Bytes) :
    Extends (fun _ => True) (define builderId name definition id).take (fun _ _ => True) := by
  refine Extends.get.bind fun s => ?_
  have hfind : Extends (fun known => True ∧ s.Keeps known) (Session.find s.builders builderId)
      BindsKnown :=
    Extends.find fun known h entry hentry => h.2.bindings entry hentry
  refine hfind.bind fun b => ?_
  -- The rules that were bound before are still known when the new rule has been made.
  have hmade := (RuleExpr.eval_extends definition).carry (fun known => BindsKnown known b)
    fun known more hmore h => h.mono hmore
  refine Extends.bind (hmade.weaken fun known h => ⟨h, trivial⟩) fun r => ?_
  have hdefine : Extends (fun known => BindsKnown known b ∧ IsKnown known r)
      (Session.lift (b.define name r))
      (fun known extended => BindsKnown known extended ∧ IsKnown known r) :=
    Extends.lift fun known extended h hextended => ⟨h.1.define h.2 hextended, h.2⟩
  refine hdefine.bind fun extended => ?_
  refine (Extends.keepBuilder fun known h => h.1).bind fun _ => ?_
  cases id with
  | none => exact Extends.answerRule
  | some id => exact (Extends.keepRule fun known h => h.2).bind fun _ => Extends.answerRule

/-- Building a grammar names rules, also if it is refused, and it makes no rule but the root. -/
theorem build_extends (builderId id : Bytes) (root : RuleExpr) (word : Option SetSource) :
    Extends (fun _ => True) (build builderId id root word).take (fun _ _ => True) := by
  refine Extends.get.bind fun s => (Extends.lookup builderId).bind fun b => ?_
  refine Extends.bind ((RuleExpr.eval_extends root).weaken fun _ h => h) fun r => ?_
  refine Extends.bind (Extends.lift fun known options h _ => h) fun options => ?_
  refine Extends.get.bind fun s => ?_
  cases hbuilt : b.build s.names r options with
  | mk names result =>
    have hnames : Extends (fun known => IsKnown known r ∧ s.Keeps known)
        (modify fun s : Session => { s with names } : SessionM PUnit)
        (fun known _ => IsKnown known r ∧ s.Keeps known) :=
      Extends.update fun known s _ hs => hs.withNames names
    refine hnames.bind fun _ => Extends.keepMade fun known g h hg => ?_
    rw [hg] at hbuilt
    obtain ⟨hroot, hself⟩ := Grammar.self_of_ofRoot (GrammarBuilder.ofRoot_of_build hbuilt)
    exact ⟨h.1 _ hroot, names, hself⟩

/-- A step leads from known rules to these and perhaps more, whether it is refused or not. -/
theorem take_extends (step : Step) :
    Extends (fun _ => True) step.take (fun _ _ => True) := by
  cases step with
  | makeRule id definition =>
    refine (RuleExpr.eval_extends definition).bind fun r => ?_
    exact (Extends.keepRule fun known h => h).bind fun _ => Extends.answerRule
  | nameRule ruleId name =>
    refine Extends.get.bind fun s => ?_
    refine Extends.bind (Extends.lookup ruleId) fun r => ?_
    exact Extends.giveName.bind fun _ => Extends.answerRule
  | checkName ruleId name =>
    refine Extends.findPresent.bind fun r => Extends.get.bind fun s => ?_
    exact Extends.ask.bind fun _ => Extends.pure fun _ _ => trivial
  | showRule ruleId =>
    exact Extends.get.bind fun s => (Extends.lookup ruleId).bind fun r => Extends.answerRule
  | makeBuilder id =>
    have hempty : ∀ known, True → BindsKnown known {} :=
      fun known _ binding hb => absurd hb List.not_mem_nil
    refine (Extends.keepBuilder hempty).bind fun _ => ?_
    exact Extends.pure fun _ _ => trivial
  | define builderId name definition id => exact define_extends builderId name definition id
  | build builderId id root word => exact build_extends builderId id root word
  | makeGrammar id root word =>
    refine (RuleExpr.eval_extends root).bind fun r => ?_
    refine Extends.bind (Extends.lift fun known options h _ => h) fun options => ?_
    refine Extends.get.bind fun s => Extends.keepMade fun known g h hg => ?_
    obtain ⟨hroot, hself⟩ := Grammar.self_of_ofRoot hg
    exact ⟨h.1 _ hroot, s.names, hself⟩
  | matchText grammarId text =>
    refine Extends.get.bind fun s => (Extends.lookup grammarId).bind fun g => ?_
    exact Extends.ask.bind fun _ => Extends.pure fun _ _ => trivial
  | tokenRules grammarId name =>
    refine Extends.get.bind fun s => (Extends.lookup grammarId).bind fun g => ?_
    refine Extends.ask.bind fun rules => ?_
    exact Extends.get.bind fun _ => Extends.pure fun _ _ => trivial
  | makeRegistry id root =>
    refine (RuleExpr.eval_extends root).bind fun r => ?_
    cases r with
    | none => exact Extends.throw
    | some r =>
      refine Extends.get.bind fun s => ?_
      refine Extends.bind (Extends.lift fun known made h hmade => ?_) fun made =>
        (Extends.keepRegistry fun known h => h).bind fun _ =>
          Extends.ask.bind fun _ => Extends.pure fun _ _ => trivial
      have hroot := Registry.root_of_ofRoot hmade
      rw [hroot]
      exact ⟨h.1 r rfl, s.names, hmade⟩
  | showLayout registryId ruleId =>
    refine Extends.get.bind fun s => (Extends.lookup registryId).bind fun found => ?_
    refine Extends.findPresent.bind fun r => ?_
    exact Extends.ask.bind fun _ => Extends.pure fun _ _ => trivial
  | matchRule ruleId registryId text word =>
    refine Extends.get.bind fun s => (Extends.lookup registryId).bind fun found => ?_
    refine Extends.findPresent.bind fun r => ?_
    refine Extends.ask.bind fun options => ?_
    exact Extends.ask.bind fun _ => Extends.pure fun _ _ => trivial

end Step

namespace Session

/-- The sessions that steps lead to from the empty one. -/
inductive IsReachable : Session → Prop
  | initial : IsReachable {}
  | perform {s : Session} (step : Step) : IsReachable s → IsReachable (s.perform step).2

theorem snd_perform (s : Session) (step : Step) : (s.perform step).2 = (step.take.run s).2 := by
  unfold perform
  split
  · next h => rw [h]
  · next h => rw [h]

/-- A session that was reached keeps only what is made of rules with numbers of their own. -/
theorem IsReachable.keeps {s : Session} (h : s.IsReachable) : ∃ known, s.Keeps known := by
  induction h with
  | initial =>
    have hfamily : IsFamily [] 0 :=
      ⟨fun r hr => (List.not_mem_nil hr).elim, fun r hr => (List.not_mem_nil hr).elim,
        fun r hr => (List.not_mem_nil hr).elim, fun r hr => (List.not_mem_nil hr).elim⟩
    exact ⟨[], hfamily, fun entry hentry => (List.not_mem_nil hentry).elim,
      fun entry hentry => (List.not_mem_nil hentry).elim,
      fun entry hentry => (List.not_mem_nil hentry).elim,
      fun entry hentry => (List.not_mem_nil hentry).elim⟩
  | perform step _ ih =>
    obtain ⟨known, hs⟩ := ih
    obtain ⟨more, -, hkeeps, -⟩ := step.take_extends known _ hs trivial
    rw [snd_perform]
    exact ⟨more, hkeeps⟩

/-- Every rule that a session keeps is coherent. -/
theorem IsReachable.coherent {s : Session} (h : s.IsReachable) {id : Bytes} {r : Rule}
    (hr : (id, some r) ∈ s.rules) : r.Coherent := by
  obtain ⟨known, hs⟩ := h.keeps
  exact hs.family.coherent (hs.rules _ hr r rfl)

/-- Every grammar that a session keeps gives what the reference evaluation of its root
derives, for every text, with the names that were there when the grammar was made. -/
theorem IsReachable.matchText_eq {s : Session} (h : s.IsReachable) {id : Bytes} {g : Grammar}
    (hg : (id, g) ∈ s.grammars) :
    ∃ names, ∀ text, g.matchText text =
      (g.root.derive g.options text).map (Grammar.outcomeOf names g.root) := by
  obtain ⟨known, hs⟩ := h.keeps
  obtain ⟨hroot, names, hmade⟩ := hs.grammars _ hg
  exact ⟨names, Grammar.matchText_eq (hs.family.coherent hroot) hmade⟩

end Session

end PhraseGrammar
