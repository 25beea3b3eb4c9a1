import GrammarForge.Proofs.Dispatch

set_option autoImplicit false

/-!
# Silent checks

The check of a choice and the plan have no code in common: the check compares the sequences of FIRST,
and the plan looks for first tokens by the tree. They agree. If the check of a choice neither returns a
conflict nor warns, then no alternative but the last can match nothing and no two alternatives can
begin with the same token. So no branch is out of reach, and none loses a kind to an earlier one.

## Main definitions

* `Grammar.Separate` — two expansions cannot begin with the same token.
* `Grammar.Deterministic` — branches among which the next token decides.

## Main results

* `Checker.notNullable_of_silent`, `Checker.toldApart_of_silent` — what a silent check has found.
* `Planner.decideBranches_separate` — the decisions of alternatives that do not begin alike.
* `Grammar.deterministic_of_silent` — a silent check means a deterministic switch.
-/

namespace GrammarForge

open Engine Relation

/-! ## What a silent check has found -/

namespace Checker

variable {g : Grammar} {alternatives : List NodeId} {choice : NodeId} {o : Options} {c : Checker}

/-- Without written lookaheads all alternatives are checked. -/
lemma checkedAlternatives_eq (hexplicit : ∀ a, g.hasExplicitLookahead a = false) (force : Bool)
    (alternatives : List NodeId) :
    checkedAlternatives g force alternatives = indexed alternatives := by
  unfold checkedAlternatives
  cases force with
  | true => rfl
  | false =>
    show (indexed alternatives).dropWhile (fun a => g.hasExplicitLookahead a.2) = _
    cases indexed alternatives with
    | nil => rfl
    | cons a rest => simp [hexplicit]

/-- As many sequences as nodes are found. -/
lemma length_firstOfEach (g : Grammar) (semantic : Bool) (ids : List NodeId) : ∀ e : Engine,
    (firstOfEach g semantic e ids).1.length = ids.length := by
  induction ids with
  | nil => exact fun _ => rfl
  | cons id ids ih => exact fun e => congrArg Nat.succ (ih (firstOf g semantic e id).2)

/-- If some alternative can match nothing, one is found to be forced.

**Proof sketch.** Induction on the alternatives; one that is nullable is forced, unless an earlier one
is. -/
lemma exists_findForced? {id : NodeId} (hnull : g.isNullable id = true)
    {pairs : List (NodeId × List TokenSeq)} :
    id ∈ pairs.map Prod.fst → ∃ forced, findForced? g pairs = some forced := by
  induction pairs with
  | nil => exact fun hid => absurd hid List.not_mem_nil
  | cons pair pairs ih =>
    intro hid
    unfold findForced?
    cases hforced : forcedAlternative? g pair.1 pair.2 with
    | some message => exact ⟨(pair.1, message), rfl⟩
    | none =>
      rcases List.mem_cons.mp hid with rfl | hid
      · simp [forcedAlternative?, hnull] at hforced
      · exact ih hid

/-- **An earlier alternative that can match nothing** ends the comparison at once.

**Proof sketch.** The earlier alternatives are looked at with the first depth, and one that is nullable
among them is found to be forced. -/
lemma deepen_forced {a : NodeId} (ha : a ∈ alternatives.dropLast) (hnull : g.isNullable a = true)
    (force : Bool) (rounds : Nat) (e : Engine) :
    ∃ forced e', deepen g force (indexed alternatives) (rounds + 1) 1 [] e = (.error forced, e') := by
  have hearlier : (indexed alternatives).dropLast.map Prod.snd = alternatives.dropLast := by
    rw [List.map_dropLast, indexed_snd]
  have hlen : (firstOfEach g (!force) (e.setLimit 1) alternatives.dropLast).1.length =
      alternatives.dropLast.length := length_firstOfEach _ _ _ _
  have hmem : a ∈ (alternatives.dropLast.zip
      (firstOfEach g (!force) (e.setLimit 1) alternatives.dropLast).1).map Prod.fst := by
    rw [List.map_fst_zip hlen.ge]
    exact ha
  obtain ⟨forced, hforced⟩ := exists_findForced? hnull hmem
  unfold deepen
  simp only [hearlier, if_true, hforced]
  exact ⟨forced, _, rfl⟩

section

variable (hexplicit : ∀ a, g.hasExplicitLookahead a = false)
  (hk : g.kind choice = .choice alternatives) (htwo : 2 ≤ alternatives.length)
include hexplicit hk htwo

/-- The check of a choice, if an alternative is always taken. -/
lemma checkChoice_of_error {forced : NodeId × String} {e : Engine}
    (hrun : deepen g o.forceLookaheadCheck (indexed alternatives) o.choiceAmbiguityCheck 1 []
      c.engine = (.error forced, e)) :
    checkChoice g o c choice =
      ([], { c with engine := e }.warn (g.node forced.1).position forced.2) := by
  unfold checkChoice
  rw [hk]
  simp only [checkedAlternatives_eq hexplicit, if_neg (Nat.not_lt.mpr htwo), hrun]

/-- The conflicts of a choice are the records of its alternatives. -/
lemma checkChoice_of_ok {found : List (Nat × Agreement)} {e : Engine}
    (hrun : deepen g o.forceLookaheadCheck (indexed alternatives) o.choiceAmbiguityCheck 1 []
      c.engine = (.ok found, e)) :
    (checkChoice g o c choice).1 = (indexed alternatives).filterMap fun x =>
      (found.lookup x.1).map (choiceConflict alternatives o.choiceAmbiguityCheck x.2) := by
  unfold checkChoice
  rw [hk]
  simp only [checkedAlternatives_eq hexplicit, if_neg (Nat.not_lt.mpr htwo), hrun, hexplicit,
    Bool.false_and, Bool.false_eq_true, if_false]

/-- **Without a warning no alternative but the last can match nothing.** -/
lemma notNullable_of_silent (hbound : 1 ≤ o.choiceAmbiguityCheck)
    (hwarn : (checkChoice g o c choice).2.diagnostics.warningCount = c.diagnostics.warningCount) :
    ∀ a ∈ alternatives.dropLast, g.isNullable a = false := by
  intro a ha
  by_contra hnot
  obtain ⟨rounds, hrounds⟩ := Nat.exists_eq_succ_of_ne_zero (Nat.ne_of_gt hbound)
  obtain ⟨forced, e, hrun⟩ := deepen_forced ha (Bool.not_eq_false _ ▸ hnot) o.forceLookaheadCheck
    rounds c.engine
  rw [← Nat.succ_eq_add_one, ← hrounds] at hrun
  rw [checkChoice_of_error hexplicit hk htwo hrun] at hwarn
  simp [warn] at hwarn

/-- **Without a conflict and a warning all alternatives differ in the first token.**

**Proof sketch.** The loop over the depths has kept no record, because each one would be a conflict. An
alternative without a record differs from later ones in the first token. -/
lemma toldApart_of_silent (hg : g.Predictive)
    (hsemantic : ∀ {i spec}, g.kind i = .lookahead spec → spec.semantic = none)
    (hbound : 1 ≤ o.choiceAmbiguityCheck) (hc : c.engine.Idle)
    (hnullable : ∀ a ∈ alternatives.dropLast, g.isNullable a = false)
    (hnone : (checkChoice g o c choice).1 = []) :
    ∀ i, i + 1 < alternatives.length → ToldApart g alternatives 1 i := by
  intro i hi
  have hstart : Recorded g alternatives 1 fun _ => none :=
    ⟨fun _ _ => Or.inl rfl, fun _ h => by cases h⟩
  obtain ⟨depth, found, e, hrun, -, hdepth, hrec, hend⟩ :=
    deepen_spec hg o.forceLookaheadCheck (fun _ => hsemantic) hnullable o.choiceAmbiguityCheck le_rfl
      (Nat.add_comm 1 _) hstart hc
  rw [table_none] at hrun
  rw [checkChoice_of_ok hexplicit hk htwo hrun, List.filterMap_eq_nil_iff] at hnone
  have hmem : (i, alternatives.getD i 0) ∈ indexed alternatives := by
    rw [indexed_eq_finRange]
    have hi' : i < alternatives.length := by omega
    refine List.mem_map.mpr ⟨⟨i, hi'⟩, List.mem_finRange _, ?_⟩
    rw [List.getD_eq_getElem _ _ hi']
    rfl
  have hfound : found i = none := by
    have hlookup := hnone _ hmem
    rw [Option.map_eq_none_iff, lookup_table, if_pos (by omega)] at hlookup
    exact hlookup
  rcases hrec.unmet hi hfound with rfl | hapart
  · -- the loop ended at the first depth, which is within the bound
    rcases hend with heq | ⟨-, hall⟩
    · omega
    · exact hall i hi
  · exact hapart

end

end Checker

/-! ## Alternatives that do not begin alike -/

/-- Two expansions cannot begin with the same token. -/
def Grammar.Separate (g : Grammar) (a b : NodeId) : Prop :=
  ∀ k, [k] ∈ g.openings [a] → [k] ∉ g.openings [b]

/-- Alternatives that differ in the first token cannot begin with the same one. -/
lemma pairwise_separate {g : Grammar} {alternatives : List NodeId} (hg : g.Predictive)
    (hapart : ∀ i, i + 1 < alternatives.length → ToldApart g alternatives 1 i) :
    alternatives.Pairwise g.Separate := by
  rw [List.pairwise_iff_getElem]
  intro i j hi hj hij k hki hkj
  have hdisjoint := hapart i (by omega) j hij hj
  rw [startsOf, startsOf, List.getD_eq_getElem _ _ hi, List.getD_eq_getElem _ _ hj] at hdisjoint
  have hleft : [k] ∈ beginnings g 1 alternatives[i] := (mem_beginnings hg le_rfl).mpr ⟨hki, rfl⟩
  have hright : [k] ∈ beginnings g 1 alternatives[j] := (mem_beginnings hg le_rfl).mpr ⟨hkj, rfl⟩
  exact Set.disjoint_left.mp hdisjoint hleft hright

namespace Planner

open Grammar

variable {g : Grammar} {p : Planner}

/-- The decision of a branch that no earlier branch takes a kind from. -/
def wholeDecision (g : Grammar) (a : NodeId) : Decision :=
  if g.isNullable a then .always else .switch (g.firstKinds a).kinds

/-- **The decisions of alternatives that do not begin alike**: no branch loses a kind to an earlier
one, and all are reached.

**Proof sketch.** Induction on the alternatives; the kinds of the branches so far begin none of the
later ones. -/
theorem decideBranches_separate (hg : g.Plannable) (ids : List NodeId) : ∀ {cased : List Nat},
    (∀ a ∈ ids, g.OnTree a) →
      (∀ a ∈ ids.dropLast, g.isNullable a = false) → ids.Pairwise g.Separate →
      (∀ a ∈ ids, ∀ k ∈ cased, [k] ∉ g.openings [a]) →
      (decideBranches g 1 p cased ids).1 =
        ids.map fun a => ⟨a, wholeDecision g a⟩ := by
  induction ids with
  | nil => exact fun _ _ _ _ => rfl
  | cons a ids ih =>
    intro cased hids hnullable hpairs hcased
    have ha := hids a List.mem_cons_self
    obtain ⟨hseparate, hpairs⟩ := List.pairwise_cons.mp hpairs
    rw [List.map_cons, wholeDecision]
    cases hnull : g.isNullable a with
    | true =>
      -- such an alternative is the last one
      have hlast : ids = [] := by
        by_contra hne
        rw [List.dropLast_cons_of_ne_nil hne] at hnullable
        rw [hnullable a List.mem_cons_self] at hnull
        cases hnull
      rw [decideBranches_nullable hg ha hnull, hlast]
      rfl
    | false =>
      have hfresh : freshKinds g cased a = (g.firstKinds a).kinds := by
        apply List.filter_eq_self.mpr
        intro k hk
        have hout : k ∉ cased := fun hin =>
          hcased a List.mem_cons_self k hin ((hg.mem_firstKinds ha).mp hk)
        simpa using hout
      rw [decideBranches_switch hg ha hnull, hfresh]
      congr 1
      apply ih (fun b hb => hids b (List.mem_cons_of_mem a hb)) _ hpairs
      · intro b hb k hk
        rcases List.mem_append.mp hk with hk | hk
        · exact hcased b (List.mem_cons_of_mem a hb) k hk
        · exact hseparate b hb k ((hg.mem_firstKinds ha).mp hk)
      · intro b hb
        apply hnullable
        rw [List.dropLast_cons_of_ne_nil (fun hnil => by rw [hnil] at hb; cases hb)]
        exact List.mem_cons_of_mem a hb

end Planner

/-! ## Deterministic switches -/

namespace Grammar

/-- **Branches among which the next token decides**: each is taken by its kinds or always, and only the
last one always; no kind belongs to two branches; and the kinds of a branch are all tokens that can
begin it. -/
structure Deterministic (g : Grammar) (branches : List Branch) : Prop where
  reached : ∀ b ∈ branches, b.decision = .always ∨ ∃ kinds, b.decision = .switch kinds
  onlyLast : ∀ b ∈ branches.dropLast, b.decision ≠ .always
  disjoint : branches.Pairwise fun b b' => ∀ kinds kinds',
    b.decision = .switch kinds → b'.decision = .switch kinds' → kinds.Disjoint kinds'
  full : ∀ b ∈ branches, ∀ kinds, b.decision = .switch kinds →
    ∀ k, k ∈ kinds ↔ [k] ∈ g.openings [b.expansion]

section

variable {g : Grammar} {ds : Diagnostics} {choice : NodeId} {alternatives : List NodeId}

/-- What is known of a branch that is taken by its kinds. -/
lemma Plannable.wholeDecision_eq_switch (hg : g.Plannable) {a : NodeId}
    (ha : g.OnTree a) {kinds : List Nat}
    (hd : Planner.wholeDecision g a = .switch kinds) (k : Nat) :
    k ∈ kinds ↔ [k] ∈ g.openings [a] := by
  unfold Planner.wholeDecision at hd
  split at hd
  · cases hd
  · obtain rfl := Decision.switch.inj hd
    exact hg.mem_firstKinds ha

/-- Whole decisions on alternatives that are apart are deterministic.

**Proof sketch.** Each branch is a switch or taken always, and only the last one can be nullable. Two
branches share no kind, since they are separate. -/
lemma Plannable.deterministic (hg : g.Plannable)
    (honTree : ∀ a ∈ alternatives, g.OnTree a)
    (hnullable : ∀ a ∈ alternatives.dropLast, g.isNullable a = false)
    (hpairs : alternatives.Pairwise g.Separate) :
    g.Deterministic
      (alternatives.map fun a => ⟨a, Planner.wholeDecision g a⟩) where
  reached b hb := by
    obtain ⟨a, -, rfl⟩ := List.mem_map.mp hb
    show Planner.wholeDecision _ a = _ ∨ _
    unfold Planner.wholeDecision
    split
    · exact Or.inl rfl
    · exact Or.inr ⟨_, rfl⟩
  onlyLast b hb := by
    rw [← List.map_dropLast] at hb
    obtain ⟨a, ha, rfl⟩ := List.mem_map.mp hb
    simp [Planner.wholeDecision, hnullable a ha]
  disjoint := by
    rw [List.pairwise_map]
    refine hpairs.imp_of_mem fun {a b} ha hb hab kinds kinds' hd hd' k hk hk' => ?_
    apply hab k
    · exact (hg.wholeDecision_eq_switch (honTree a ha) hd k).mp hk
    · exact (hg.wholeDecision_eq_switch (honTree b hb) hd' k).mp hk'
  full b hb kinds hd := by
    obtain ⟨a, ha, rfl⟩ := List.mem_map.mp hb
    exact hg.wholeDecision_eq_switch (honTree a ha) hd

/-- **What a silent check says of the alternatives**, be there many or at most one, which is not
checked. -/
lemma Plannable.silent (hg : g.Plannable) (hk : g.kind choice = .choice alternatives) {o : Options}
    (hbound : 1 ≤ o.choiceAmbiguityCheck) {c : Checker} (hc : c.engine.Idle)
    (hnone : (Checker.checkChoice g o c choice).1 = [])
    (hwarn : (Checker.checkChoice g o c choice).2.diagnostics.warningCount =
      c.diagnostics.warningCount) :
    (∀ a ∈ alternatives.dropLast, g.isNullable a = false) ∧ alternatives.Pairwise g.Separate := by
  by_cases htwo : 2 ≤ alternatives.length
  · have hexplicit := hasExplicitLookahead_eq_false hg.explicit
    have hnullable := Checker.notNullable_of_silent hexplicit hk htwo hbound hwarn
    refine ⟨hnullable, pairwise_separate hg.predictive ?_⟩
    exact Checker.toldApart_of_silent hexplicit hk htwo hg.predictive hg.semantic hbound hc hnullable
      hnone
  · match alternatives, htwo with
    | [], _ => exact ⟨by simp, .nil⟩
    | [a], _ => exact ⟨by simp, List.pairwise_singleton _ a⟩
    | _ :: _ :: _, htwo => simp at htwo

/-- **A silent check means a deterministic switch.** In a grammar in which nothing but the next token
guides the parser, let one token be the default lookahead and let the bound of the check be at least
one token. If the check of a choice of a production returns no conflict and adds no warning, then the
plan has a decision point for the choice, with one branch for each alternative in their order, and its
branches are deterministic.

**Proof sketch.** A silent check has found no alternative but the last one nullable and no two of them
with a token in common (`silent`). So the branches are decided by first kinds, each by itself, and
switch on different ones (`decideBranches_separate`). -/
theorem deterministic_of_silent (hg : g.Unguided ds) (hchoice : (g.link ds).1.OnTree choice)
    (hk : (g.link ds).1.kind choice = .choice alternatives) {o : Options} (hone : o.lookahead = 1)
    (hbound : 1 ≤ o.choiceAmbiguityCheck) {c : Checker} (hc : c.engine.Idle)
    (hnone : (Checker.checkChoice (g.link ds).1 o c choice).1 = [])
    (hwarn : (Checker.checkChoice (g.link ds).1 o c choice).2.diagnostics.warningCount =
      c.diagnostics.warningCount) :
    ∃ point, ((g.link ds).1.plan o.lookahead).decision? choice = some point ∧ point.kind = .choice ∧
      point.branches.map Branch.expansion = alternatives ∧
      (g.link ds).1.Deterministic point.branches := by
  have hplannable := hg.plannable
  generalize (g.link ds).1 = h at hplannable hchoice hk hnone hwarn ⊢
  obtain ⟨p, hplan⟩ := hplannable.decision?_plan hchoice hk o.lookahead
  refine ⟨_, hplan, rfl, Planner.map_expansion_decideBranches _ _ _ _ _, ?_⟩
  have honTree := hchoice.alternative hk
  obtain ⟨hnullable, hpairs⟩ := hplannable.silent hk hbound hc hnone hwarn
  rw [hone, Planner.decideBranches_separate hplannable alternatives honTree hnullable hpairs (by simp)]
  exact hplannable.deterministic honTree hnullable hpairs

end

end Grammar

/-- Factors with brackets, which hold factors. The second alternative begins with a sign, which can be
left out; the last one can match nothing. -/
def factors : Grammar :=
  let (minus, g) := Grammar.empty.literal "-"
  let (sign, g) := g.zeroOrOne minus
  let (_, g) := g.addProduction "Sign" sign
  let (opening, g) := g.literal "("
  let (inner, g) := g.nonterminal "Factor"
  let (closing, g) := g.literal ")"
  let (bracketed, g) := g.sequence [opening, inner, closing]
  let (sign, g) := g.nonterminal "Sign"
  let (a, g) := g.literal "a"
  let (signed, g) := g.sequence [sign, a]
  let (b, g) := g.literal "b"
  let (rest, g) := g.zeroOrMore b
  let (factor, g) := g.choice [bracketed, signed, rest]
  (g.addProduction "Factor" factor).2

/-- The ranks of the nodes of `factors` by what they can begin with. -/
def factorRanks (i : NodeId) : Nat := [0, 1, 0, 5, 0, 0, 1, 2, 0, 0, 3, 0, 1, 0, 2, 4].getD i 0

/-- The grammar of factors is not guided by anything but the next token. -/
lemma unguided_factors : factors.Unguided {} := by
  apply Grammar.unguided_of_leftDescends factorRanks <;> decide +kernel

/-- A choice of three factors is checked without a report, and its plan is deterministic. -/
theorem deterministic_of_silent_factors : factors.Unguided {} ∧ (factors.link {}).1.OnTree 15 ∧
    (factors.link {}).1.kind 15 = .choice [6, 10, 14] ∧
    (Checker.checkChoice (factors.link {}).1 {} (Checker.new (factors.link {}).1 {}) 15).1 = [] ∧
    (Checker.checkChoice (factors.link {}).1 {} (Checker.new (factors.link {}).1 {})
      15).2.diagnostics.warningCount = 0 ∧
    ∃ point, ((factors.link {}).1.plan 1).decision? 15 = some point ∧ point.kind = .choice ∧
      point.branches.map Branch.expansion = [6, 10, 14] ∧
      (factors.link {}).1.Deterministic point.branches := by
  have honTree : (factors.link {}).1.OnTree 15 := ⟨1, 15, by decide +kernel, .refl⟩
  have hk : (factors.link {}).1.kind 15 = .choice [6, 10, 14] := by decide +kernel
  have hnone : (Checker.checkChoice (factors.link {}).1 {} (Checker.new (factors.link {}).1 {})
      15).1 = [] := by decide +kernel
  have hwarn : (Checker.checkChoice (factors.link {}).1 {} (Checker.new (factors.link {}).1 {})
      15).2.diagnostics.warningCount = 0 := by decide +kernel
  exact ⟨unguided_factors, honTree, hk, hnone, hwarn, Grammar.deterministic_of_silent unguided_factors
    honTree hk rfl (by decide) (idle_new _) hnone hwarn⟩

end GrammarForge
