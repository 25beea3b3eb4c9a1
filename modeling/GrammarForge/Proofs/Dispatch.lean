import GrammarForge.Lookahead.Plan
import GrammarForge.Proofs.ChoiceConflicts
import GrammarForge.Proofs.FirstTokens
import GrammarForge.Proofs.Nullability
import GrammarForge.Proofs.Rising

set_option autoImplicit false

/-!
# Dispatch by the next token

With one token of lookahead, and where no lookahead is written, a parser decides between the
alternatives of a choice by the kind of the next token. The plan gives each branch the kinds that can
begin it, apart from those that earlier branches have, and a branch that can match nothing is always
taken. So the branch that is taken is the first one that the token fits, and which branches a token
fits is what FIRST says.

## Main definitions

* `Grammar.Unguided` — grammars in which nothing but the next token guides the parser.
* `Grammar.Plannable` — what the plan relies on.
* `Decision.accepts` — a branch is taken if this is the kind of the next token.

## Main results

* `Grammar.Ranked.mem_productionNodes` — all nodes of productions are planned.
* `Grammar.Unguided.plannable` — a grammar that nothing guides can be planned, after linking.
* `Planner.findIdx?_decideBranches` — the decisions of a choice are a first match.
* `Grammar.plan_firstMatch` — the branch taken is the first one that the token fits.
-/

namespace GrammarForge

open Engine Relation

namespace Grammar

/-! ## Walks down the tree -/

section

variable {g : Grammar} {ok : NodeId → Prop} {rank : NodeId → Nat} {i j : NodeId}

/-- The nodes of productions are ranked by the tree.

**Proof sketch.** Paths down from right sides stay within the nodes, and a tree has no way back; so the
distance from below is a rank. -/
lemma TreeShaped.exists_ranked (ht : g.TreeShaped) : ∃ rank, g.Ranked g.OnTree rank := by
  obtain ⟨rank, hle, hlt⟩ : ∃ rank : Nat → Nat, (∀ i, rank i ≤ g.nodes.size) ∧
      ∀ i j, g.OnTree i ∧ g.Part i j → rank j < rank i := by
    apply exists_rank
    · intro i j ⟨_, hij⟩
      apply lt_size_of_kind
      intro code hk
      rw [Part, hk] at hij
      cases hij
    · intro i hcycle
      obtain ⟨x, ⟨hi, -⟩, -⟩ := TransGen.head'_iff.mp hcycle
      apply ht.not_below_itself hi
      exact TransGen.mono (fun x y hxy => List.mem_append_left _ hxy.2) _ _ hcycle
  exact ⟨rank, OnTree.part, fun hroot => ⟨_, _, hroot, .refl⟩, hle, fun hi hij => hlt _ _ ⟨hi, hij⟩⟩

/-- A part of a node hangs on it. -/
lemma Linked.parent_part (hl : g.Linked) (ht : g.TreeShaped) (hi : g.OnTree i) (hij : g.Part i j) :
    (g.node j).parent = .node i := by
  have hplaced := hl.placed (hi.part hij)
  unfold Placed at hplaced
  generalize (g.node j).parent = parent at hplaced
  cases hplaced with
  | root hroot => exact absurd hij (ht.root_not_part hroot)
  | @part q _ hq => rw [ht.part_unique hij (List.mem_of_getElem? hq)]

/-- A walk down the tree meets all nodes below, if it is as deep as the rank of its start.

**Proof sketch.** Induction on the depth. The path goes on with a part, which the walk visits with one
step less, as its rank is lower. -/
lemma Ranked.mem_walkWithin (hr : g.Ranked ok rank) (depth : Nat) : ∀ {i : NodeId}, ok i →
    rank i ≤ depth → ReflTransGen g.Part i j → j ∈ g.walkWithin false depth i := by
  induction depth with
  | zero =>
    intro i hi hle hpath
    rcases hpath.cases_head with rfl | ⟨x, hix, -⟩
    · exact List.mem_singleton_self i
    · have := hr.lt hi hix
      omega
  | succ depth ih =>
    intro i hi hle hpath
    unfold walkWithin
    rcases hpath.cases_head with rfl | ⟨x, hix, hxj⟩
    · exact List.mem_cons_self
    · have hlt := hr.lt hi hix
      have hnot : (g.kind i).isLookahead = false := by
        cases hk : g.kind i with
        | lookahead spec =>
          rw [Part, hk] at hix
          cases hix
        | _ => rfl
      apply List.mem_cons_of_mem
      simp only [hnot, Bool.and_false, Bool.false_eq_true, if_false, List.mem_flatMap]
      exact ⟨x, List.mem_append_left _ hix, ih (hr.part hi hix) (by omega) hxj⟩

/-- **All nodes of productions are planned.** -/
lemma Ranked.mem_productionNodes (hr : g.Ranked ok rank) (hi : g.OnTree i) :
    i ∈ g.productionNodes := by
  obtain ⟨p, root, hroot, hpath⟩ := hi
  have hp := lt_of_body hroot
  unfold productionNodes
  apply List.mem_flatMap.mpr
  refine ⟨g.productions[p], Array.getElem_mem_toList hp, ?_⟩
  have hexpansion : g.productions[p].expansion = some root := by
    rw [← hroot, body, production, Array.getD_eq_getD_getElem?, Array.getElem?_eq_getElem hp,
      Option.getD_some]
  rw [hexpansion]
  exact hr.mem_walkWithin g.nodes.size (hr.root hroot) (hr.le root) hpath

end

/-! ## Grammars without guidance -/

/-- **Grammars in which nothing but the next token guides the parser.** Before linking the grammar
mentions only nodes that it has, no lookahead is written in it, and no production is marked wrongly. After
linking it is a tree without left recursion, and nonterminals have productions with a right side.

The lookaheads that sequences have of themselves are not explicit, and have neither a condition nor an
expansion nor a number of tokens of their own. A number of tokens is named here like the rest: all ways of
writing one make a lookahead explicit, so that this excludes no lookahead that can be written. -/
structure Unguided (g : Grammar) (ds : Diagnostics) : Prop where
  ids : g.unknownId? = none
  lookaheads : ∀ {i spec}, g.kind i = .lookahead spec → spec.explicit = false ∧ spec.semantic = none ∧
    spec.expansion = none ∧ spec.amount = none
  marks : ∀ p, (g.production p).nullable = true →
    ∃ root, g.body p = some root ∧ [] ∈ (g.link ds).1.words [root]
  predictive : (g.link ds).1.Predictive
  treeShaped : (g.link ds).1.TreeShaped

namespace Unguided

variable {g : Grammar} {ds : Diagnostics} {i a : NodeId} {spec : LookaheadSpec}

/-- A lookahead of a grammar that nothing guides is the one that every sequence has of itself. -/
lemma implicit (hg : g.Unguided ds) (hk : g.kind i = .lookahead spec) : spec = .implicit := by
  obtain ⟨hexplicit, hsemantic, hexpansion, hamount⟩ := hg.lookaheads hk
  obtain ⟨amount, explicit, semantic, expansion⟩ := spec
  subst hexplicit hsemantic hexpansion hamount
  rfl

/-- After linking all nodes know their places. -/
lemma linked (hg : g.Unguided ds) : (g.link ds).1.Linked := by
  apply hg.treeShaped.linked hg.ids _ hg.predictive
  intro i spec hk
  rw [hg.implicit hk]
  rfl

/-- **Nullability is derivability of nothing.** -/
lemma isNullable_iff (hg : g.Unguided ds) (hi : (g.link ds).1.OnTree i) :
    (g.link ds).1.isNullable i = true ↔ [] ∈ (g.link ds).1.words [i] := by
  obtain ⟨rank, hr⟩ := hg.treeShaped.exists_ranked
  exact isNullable_link_iff hr hg.marks hi

/-- Linking gives a lookahead what it hangs on to scan, and nothing else. -/
lemma lookahead (hg : g.Unguided ds) (hk : (g.link ds).1.kind i = .lookahead spec) :
    spec = { expansion := some (defaultExpansion ((g.link ds).1.node i) i) } := by
  obtain ⟨spec₀, hk₀, rfl⟩ := lookahead_link hk
  rw [hg.implicit hk₀]
  rfl

/-- **A branch is guarded by itself**, with the default number of tokens and no condition.

**Proof sketch.** A lookahead in front of a sequence is that of the sequence itself, with nothing else
of its own to scan and no condition. -/
lemma condition_eq (hg : g.Unguided ds) (n : Nat) (ha : (g.link ds).1.OnTree a) :
    (g.link ds).1.condition n a = ⟨n, none, a⟩ := by
  unfold condition
  cases hla : (g.link ds).1.leadingLookahead? a with
  | none => rfl
  | some leading =>
    obtain ⟨la, spec⟩ := leading
    obtain ⟨⟨units, hk⟩, hspec⟩ := leadingLookahead?_eq_some hla
    -- the lookahead scans the sequence that it leads
    have hpart : (g.link ds).1.Part a la := by
      rw [Part, hk]
      exact List.mem_cons_self
    have hparent := hg.linked.parent_part hg.treeShaped ha hpart
    rw [hg.lookahead hspec]
    simp only [defaultExpansion, hparent, Option.getD_none, Option.getD_some]

end Unguided

/-- **What the plan relies on.** Nonterminals have productions with a right side, there is no left
recursion, and nothing is written before a branch; nullability is found out rightly, branches are
guarded by themselves, and all nodes of productions are planned. -/
structure Plannable (g : Grammar) : Prop where
  predictive : g.Predictive
  semantic : ∀ {i spec}, g.kind i = .lookahead spec → spec.semantic = none
  explicit : ∀ {i spec}, g.kind i = .lookahead spec → spec.explicit = false
  isNullable_iff : ∀ {i}, g.OnTree i → (g.isNullable i = true ↔ [] ∈ g.words [i])
  condition_eq : ∀ {a}, g.OnTree a → ∀ n, g.condition n a = ⟨n, none, a⟩
  mem_productionNodes : ∀ {i}, g.OnTree i → i ∈ g.productionNodes

/-- **A grammar that nothing guides can be planned**, after linking. -/
lemma Unguided.plannable {g : Grammar} {ds : Diagnostics} (hg : g.Unguided ds) :
    (g.link ds).1.Plannable where
  predictive := hg.predictive
  semantic hk := by rw [hg.lookahead hk]
  explicit hk := by rw [hg.lookahead hk]
  isNullable_iff := hg.isNullable_iff
  condition_eq ha n := hg.condition_eq n ha
  mem_productionNodes hi := by
    obtain ⟨rank, hr⟩ := hg.treeShaped.exists_ranked
    exact hr.mem_productionNodes hi

/-- The walk for first tokens finds its way. -/
lemma Plannable.searchable {g : Grammar} (hg : g.Plannable) : g.Searchable g.OnTree where
  noLeftRecursion := hg.predictive.noLeftRecursion
  next := OnTree.leftCorner
  unconditional := hg.semantic
  isNullable_iff := hg.isNullable_iff
  scans {i u la e} _ _ hcode _ _ := by
    rw [hg.predictive.isCodeProduction_eq_false] at hcode
    cases hcode

/-- What the walk for first tokens finds is what a branch can begin with. -/
lemma Plannable.finds {g : Grammar} (hg : g.Plannable) {a : NodeId} (ha : g.OnTree a) :
    (g.firstKinds a).Finds (g.reading [a]) :=
  finds_firstKinds hg.searchable ha

/-- In a plannable grammar the first kinds of a node are the sequences of one token that it opens with.
-/
lemma Plannable.mem_firstKinds {g : Grammar} (hg : g.Plannable) {a : NodeId} (ha : g.OnTree a)
    {k : Nat} : k ∈ (g.firstKinds a).kinds ↔ [k] ∈ g.openings [a] :=
  (hg.finds ha).mem_kinds k

end Grammar

/-! ## Decisions of one choice -/

/-- **A branch is taken** if `k` is the kind of the next token. -/
def Decision.accepts (k : Nat) : Decision → Bool
  | always => true
  | switch kinds => kinds.contains k
  | _ => false

/-- A branch taken always accepts all kinds. -/
@[simp]
lemma Decision.accepts_always (k : Nat) : always.accepts k = true := rfl

/-- A switch accepts its kinds. -/
@[simp]
lemma Decision.accepts_switch (k : Nat) (kinds : List Nat) :
    (switch kinds).accepts k = kinds.contains k := rfl

namespace Planner

open Grammar

/-- The kinds that can begin a branch and that no earlier branch has. -/
def freshKinds (g : Grammar) (cased : List Nat) (a : NodeId) : List Nat :=
  (g.firstKinds a).kinds.filter fun k => !cased.contains k

/-- There is one branch for each alternative, in their order. -/
lemma map_expansion_decideBranches (g : Grammar) (n : Nat) (ids : List NodeId) :
    ∀ (p : Planner) (cased : List Nat),
      (decideBranches g n p cased ids).1.map Branch.expansion = ids := by
  induction ids with
  | nil => exact fun _ _ => rfl
  | cons id ids ih =>
    intro p cased
    unfold decideBranches
    dsimp only
    split
    · rw [List.map_cons, List.map_map]
      exact congrArg (id :: ·) (List.map_id ids)
    · simp [ih]

section

variable {g : Grammar} {p : Planner} {a : NodeId} {cased : List Nat}

/-- A branch that is reached is always taken if it can match nothing, and otherwise by the kinds that
no earlier branch has. -/
lemma decideBranch_eq (hg : g.Plannable) (ha : g.OnTree a) :
    decideBranch g p cased (g.condition 1 a) =
      (if g.isNullable a then .always else .switch (freshKinds g cased a), p) := by
  have hscan := (hg.finds ha).noScan
  unfold decideBranch isIdle freshKinds
  rw [hg.condition_eq ha, codeProductionFirst_eq_false hg.predictive]
  cases g.isNullable a with
  | true => simp
  | false => simp [hscan]

/-- Behind a branch that can match nothing no branch is reached. -/
lemma decideBranches_nullable (hg : g.Plannable) (ha : g.OnTree a)
    (hnull : g.isNullable a = true) (ids : List NodeId) :
    (decideBranches g 1 p cased (a :: ids)).1 =
      ⟨a, .always⟩ :: ids.map fun i => ⟨i, .unreachable⟩ := by
  unfold decideBranches
  rw [decideBranch_eq hg ha]
  simp [hnull]

/-- Behind any other branch there are those that do without its kinds. -/
lemma decideBranches_switch (hg : g.Plannable) (ha : g.OnTree a)
    (hnull : g.isNullable a = false) (ids : List NodeId) :
    (decideBranches g 1 p cased (a :: ids)).1 =
      ⟨a, .switch (freshKinds g cased a)⟩ ::
        (decideBranches g 1 p (cased ++ freshKinds g cased a) ids).1 := by
  rw [decideBranches, decideBranch_eq hg ha]
  simp [hnull, casesOf]

/-- **First match.** The first branch that is taken by the kind of the next token is the first
alternative that the token fits, which can match nothing or begin with it, unless an earlier branch has
that kind.

**Proof sketch.** Induction on the alternatives. A kind that a branch does not have is not among those
that later branches do without because of it. -/
theorem findIdx?_decideBranches (hg : g.Plannable) {k : Nat} {fits : NodeId → Bool}
    (ids : List NodeId) : ∀ {cased : List Nat}, (∀ a ∈ ids, g.OnTree a) →
      (∀ a ∈ ids, fits a = true ↔ g.isNullable a = true ∨ [k] ∈ g.openings [a]) → k ∉ cased →
      (decideBranches g 1 p cased ids).1.findIdx? (fun b => b.decision.accepts k) =
        ids.findIdx? fits := by
  induction ids with
  | nil => exact fun _ _ _ => rfl
  | cons a ids ih =>
    intro cased hids hfits hk
    have ha := hids a List.mem_cons_self
    have hfit := hfits a List.mem_cons_self
    rw [List.findIdx?_cons]
    cases hnull : g.isNullable a with
    | true =>
      rw [decideBranches_nullable hg ha hnull, List.findIdx?_cons]
      simp [hfit.mpr (Or.inl hnull)]
    | false =>
      have hmem : k ∈ freshKinds g cased a ↔ [k] ∈ g.openings [a] := by
        rw [← hg.mem_firstKinds ha]
        simp [freshKinds, hk]
      rw [decideBranches_switch hg ha hnull, List.findIdx?_cons]
      by_cases hfirst : [k] ∈ g.openings [a]
      · simp [hmem, hfirst, hfit.mpr (Or.inr hfirst)]
      · have hnot : fits a = false := by
          rw [← Bool.not_eq_true, hfit, hnull]
          simp [hfirst]
        have hout : k ∉ cased ++ freshKinds g cased a := by simp [hmem, hfirst, hk]
        have hrest := ih (fun b hb => hids b (List.mem_cons_of_mem a hb))
          (fun b hb => hfits b (List.mem_cons_of_mem a hb)) hout
        simp [hmem, hfirst, hnot, hrest]

end

/-! ## Decisions of all choices -/

/-- A choice point that is met is planned.

**Proof sketch.** Induction on the ids: the decision of the first one is that of the node, or it is
another node, and the others are decided. -/
lemma find?_decideAll {g : Grammar} {n : Nat} {id : NodeId} {kind : DecisionKind}
    {branches : List NodeId} (hb : g.branchesOf? id = some (kind, branches)) (ids : List NodeId) :
    ∀ (p : Planner), id ∈ ids → ∃ q, (decideAll g n p ids).1.find? (·.node = id) =
      some ⟨id, kind, (decideBranches g n q [] branches).1⟩ := by
  induction ids with
  | nil => exact fun _ hid => absurd hid List.not_mem_nil
  | cons i ids ih =>
    intro p hid
    unfold decideAll
    by_cases hi : i = id
    · subst hi
      exact ⟨p, by simp [hb]⟩
    · have hid' : id ∈ ids := (List.mem_cons.mp hid).resolve_left (Ne.symm hi)
      cases hbi : g.branchesOf? i with
      | none => exact ih p hid'
      | some found =>
        obtain ⟨q, hq⟩ := ih (decideBranches g n p [] found.2).2 hid'
        exact ⟨q, by simp [hi, hq]⟩

end Planner

namespace Grammar

section

variable {g : Grammar} {ds : Diagnostics} {choice : NodeId} {alternatives : List NodeId}

/-- The decisions of a plan are those of all nodes of productions. -/
lemma decisions_plan (g : Grammar) (n : Nat) :
    (g.plan n).decisions = (Planner.decideAll g n {} g.productionNodes).1 := rfl

/-- **A choice of a production is planned**, with the decisions of its alternatives. -/
lemma Plannable.decision?_plan (hg : g.Plannable) (hchoice : g.OnTree choice)
    (hk : g.kind choice = .choice alternatives) (n : Nat) : ∃ p, (g.plan n).decision? choice =
      some ⟨choice, .choice, (Planner.decideBranches g n p [] alternatives).1⟩ := by
  have hbranches : g.branchesOf? choice = some (.choice, alternatives) := by
    unfold branchesOf?
    rw [hk]
  unfold Plan.decision?
  rw [decisions_plan]
  exact Planner.find?_decideAll hbranches _ {} (hg.mem_productionNodes hchoice)

/-- The alternatives of a choice of a production belong to it. -/
lemma OnTree.alternative (hchoice : g.OnTree choice) (hk : g.kind choice = .choice alternatives) :
    ∀ a ∈ alternatives, g.OnTree a := by
  intro a ha
  apply hchoice.part
  rwa [Part, hk]

/-- The tokens of FIRST are the openings of one token. -/
lemma singleton_mem_firstSequences (hg : g.Predictive) {a : NodeId} {k : Nat} :
    [k] ∈ ((Engine.new g).firstSequences g a 1).1 ↔ [k] ∈ g.openings [a] := by
  have hbegins : [k] ∈ beginnings g 1 a ↔ [k] ∈ g.openings [a] ∧ [k].length = 1 :=
    mem_beginnings hg le_rfl
  simpa [beginnings] using hbegins

/-- **The branch taken is the first one that the token fits.** In a grammar in which nothing but the
next token guides the parser, let one token be the default lookahead. Then the plan has a decision
point for each choice of a production, with one branch for each alternative in their order. For each
kind of token, the first branch that is always taken or has this kind is the one of the first
alternative that is nullable or has the token in its FIRST set; if there is no such alternative, no
branch is taken.

**Proof sketch.** The decision of the choice is planned from its alternatives (`decision?_plan`). Each
branch accepts the kinds that its alternative can begin with, or all of them if it is nullable
(`findIdx?_decideBranches`); and these are what FIRST finds at one token. -/
theorem plan_firstMatch (hg : g.Unguided ds) (hchoice : (g.link ds).1.OnTree choice)
    (hk : (g.link ds).1.kind choice = .choice alternatives) :
    ∃ point, ((g.link ds).1.plan 1).decision? choice = some point ∧ point.kind = .choice ∧
      point.branches.map Branch.expansion = alternatives ∧
      ∀ k, point.branches.findIdx? (fun b => b.decision.accepts k) =
        alternatives.findIdx? fun a => (g.link ds).1.isNullable a ||
          decide ([k] ∈ ((Engine.new (g.link ds).1).firstSequences (g.link ds).1 a 1).1) := by
  have hplannable := hg.plannable
  generalize (g.link ds).1 = h at hplannable hchoice hk ⊢
  obtain ⟨p, hplan⟩ := hplannable.decision?_plan hchoice hk 1
  refine ⟨_, hplan, rfl, Planner.map_expansion_decideBranches _ _ _ _ _, fun k => ?_⟩
  apply Planner.findIdx?_decideBranches hplannable _ (hchoice.alternative hk) _ List.not_mem_nil
  intro a _
  rw [Bool.or_eq_true, decide_eq_true_iff, singleton_mem_firstSequences hplannable.predictive]

end

/-! ## An example -/

/-- Ranks show that a grammar that has just been written is not guided by anything but the next
token.

**Proof sketch.** The lookaheads are implicit, field by field; the ranks show that no node begins with
itself, and that there are no cycles. -/
lemma unguided_of_leftDescends {g : Grammar} {ds : Diagnostics} (rank : Nat → Nat)
    (hids : g.unknownId? = none)
    (himplicit : ∀ i < g.nodes.size, ∀ spec ∈ (g.kind i).lookahead?, spec = .implicit)
    (hmarks : ∀ p < g.productions.size, (g.production p).nullable = false)
    (hrank : ∀ i < (g.link ds).1.nodes.size, (g.link ds).1.LeftDescends rank i)
    (htree : (g.link ds).1.TreeShaped) : g.Unguided ds where
  ids := hids
  lookaheads {i spec} hk := by
    obtain rfl : spec = .implicit := by
      apply himplicit i (lt_size_of_kind (by simp [hk])) spec
      rw [hk]
      rfl
    exact ⟨rfl, rfl, rfl, rfl⟩
  marks p hp := by
    have hlt : p < g.productions.size := by
      by_contra hge
      rw [production, Array.getD_eq_getD_getElem?, Array.getElem?_eq_none (Nat.not_lt.mp hge)] at hp
      cases hp
    rw [hmarks p hlt] at hp
    cases hp
  predictive := predictive_of_leftDescends hrank
  treeShaped := htree

end Grammar

/-- Terms with brackets, which hold terms. The second alternative begins with a sign, which can be left
out, and so it can begin like the third one; the fourth one is a sign alone. -/
def terms : Grammar :=
  let (minus, g) := Grammar.empty.literal "-"
  let (sign, g) := g.zeroOrOne minus
  let (_, g) := g.addProduction "Sign" sign
  let (opening, g) := g.literal "("
  let (inner, g) := g.nonterminal "Term"
  let (closing, g) := g.literal ")"
  let (bracketed, g) := g.sequence [opening, inner, closing]
  let (sign, g) := g.nonterminal "Sign"
  let (a, g) := g.literal "a"
  let (signed, g) := g.sequence [sign, a]
  let (a, g) := g.literal "a"
  let (b, g) := g.literal "b"
  let (pair, g) := g.sequence [a, b]
  let (sign, g) := g.nonterminal "Sign"
  let (bare, g) := g.sequence [sign]
  let (last, g) := g.literal "c"
  let (term, g) := g.choice [bracketed, signed, pair, bare, last]
  (g.addProduction "Term" term).2

/-- The ranks of the nodes of `terms` by what they can begin with. -/
def termRanks (i : NodeId) : Nat :=
  [0, 1, 0, 5, 0, 0, 1, 2, 0, 0, 3, 0, 0, 0, 1, 2, 0, 3, 0, 0, 1, 4].getD i 0

/-- The grammar of terms is not guided by anything but the next token. -/
lemma unguided_terms : terms.Unguided {} := by
  apply Grammar.unguided_of_leftDescends termRanks <;> decide +kernel

/-- With the fourth alternative always taken, the third one has no kinds left and the last one is
not reached. -/
theorem plan_firstMatch_terms : terms.Unguided {} ∧ (terms.link {}).1.OnTree 21 ∧
    (terms.link {}).1.kind 21 = .choice [6, 10, 14, 17, 20] ∧
    ∃ point, ((terms.link {}).1.plan 1).decision? 21 = some point ∧ point.kind = .choice ∧
      point.branches.map Branch.expansion = [6, 10, 14, 17, 20] ∧
      ∀ k, point.branches.findIdx? (fun b => b.decision.accepts k) =
        [6, 10, 14, 17, 20].findIdx? fun a => (terms.link {}).1.isNullable a ||
          decide ([k] ∈ ((Engine.new (terms.link {}).1).firstSequences (terms.link {}).1 a 1).1) := by
  have honTree : (terms.link {}).1.OnTree 21 := ⟨1, 21, by decide +kernel, .refl⟩
  have hk : (terms.link {}).1.kind 21 = .choice [6, 10, 14, 17, 20] := by decide +kernel
  exact ⟨unguided_terms, honTree, hk, Grammar.plan_firstMatch unguided_terms honTree hk⟩

end GrammarForge
