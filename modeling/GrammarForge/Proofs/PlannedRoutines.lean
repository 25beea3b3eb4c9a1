import GrammarForge.Grammar.Builder
import GrammarForge.Grammar.Link
import GrammarForge.Proofs.PlannerSteps

set_option autoImplicit false

/-!
# The routines of a plan

A decision that scans names a routine. This is the name of an entry, and the plan has a routine for
what the entry scans, with a budget that is great enough. It is found by the name of the entry unless
a later entry scans the same expansion: then the routine goes by the name of the last such entry, and
the names of the others lead nowhere.

## Main definitions

* `Planner.AddsEntry` — one step of the first phase.
* `Planner.Entered` — a decision that scans has an entry.

## Main results

* `RoutineName.text_injective` — names that are written alike are the same.
* `Planner.decideAll_spec` — what the first phase does.
* `Grammar.plan_scan_routine` — what the name of a decision that scans leads to.
* `Grammar.plan_scan_lost` — two decisions scan the same expansion, and one of them names no routine.
-/

namespace GrammarForge

open Relation

/-- A number is read off its digits. -/
lemma toDigits_injective {m n : Nat} (h : Nat.toDigits 10 m = Nat.toDigits 10 n) : m = n := by
  have hread := congrArg (Nat.ofDigitChars 10 · 0) h
  simpa only [Nat.ofDigitChars_ten_toDigits] using hread

/-- **Names that are written alike are the same.** -/
lemma RoutineName.text_injective : Function.Injective RoutineName.text := by
  intro a b h
  have hlist := congrArg String.toList h
  -- names of different sorts have different first letters
  cases a <;> cases b <;> simp [RoutineName.text] at hlist
  all_goals rw [toDigits_injective hlist]

namespace Planner

variable {g : Grammar} {p p' : Planner}

/-! ## The first phase -/

/-- One more entry, for a lookahead that looks at some tokens. -/
def AddsEntry (p p' : Planner) : Prop := ∃ c : Condition, c.amount ≠ 0 ∧ p' = (p.addEntry c).2

/-- **A decision that scans has an entry** with its name and its amount. -/
def Entered (p : Planner) (d : Decision) : Prop :=
  ∀ routine amount condition, d = .scan routine amount condition →
    ∃ e ∈ p.entries, e.name = routine ∧ e.amount = amount

/-- Entries stay when more are added. -/
lemma mem_entries_of_adds {e : EntryRoutine} (h : ReflTransGen AddsEntry p p')
    (he : e ∈ p.entries) : e ∈ p'.entries := by
  induction h with
  | refl => exact he
  | tail _ hstep ih =>
    obtain ⟨c, -, rfl⟩ := hstep
    exact Array.mem_push_of_mem _ ih

/-- A decision that has an entry keeps it. -/
lemma Entered.adds {d : Decision} (hd : Entered p d) (h : ReflTransGen AddsEntry p p') :
    Entered p' d := by
  intro routine amount condition heq
  obtain ⟨e, he, hname, hamount⟩ := hd routine amount condition heq
  exact ⟨e, mem_entries_of_adds h he, hname, hamount⟩

/-- A new entry is one for its decision. -/
lemma entered_addEntry (p : Planner) (c : Condition) :
    Entered (p.addEntry c).2 (p.addEntry c).1 := by
  intro routine amount condition heq
  cases heq
  exact ⟨_, Array.mem_push_self, rfl, rfl⟩

/-- A branch is decided without a scan, or it gets an entry.

**Proof sketch.** An idle condition needs no scan; it is a predicate or nothing. Otherwise the decision
is taken from the first kinds, or an entry is added. -/
lemma decideBranch_spec (g : Grammar) (p : Planner) (cased : List Nat) (c : Condition) :
    ReflTransGen AddsEntry p (decideBranch g p cased c).2 ∧
      Entered (decideBranch g p cased c).2 (decideBranch g p cased c).1 := by
  have hadd (hidle : ¬ g.isIdle c = true) : ReflTransGen AddsEntry p (p.addEntry c).2 := by
    refine ReflTransGen.single ⟨c, fun hzero => hidle ?_, rfl⟩
    simp [Grammar.isIdle, hzero]
  unfold decideBranch
  by_cases hidle : g.isIdle c = true
  · rw [if_pos hidle]
    cases c.semantic <;> exact ⟨.refl, by simp [Entered]⟩
  · rw [if_neg hidle]
    split
    · dsimp only
      split
      · exact ⟨hadd hidle, entered_addEntry p c⟩
      · exact ⟨.refl, by simp [Entered]⟩
    · exact ⟨hadd hidle, entered_addEntry p c⟩

/-- The branches are decided without scans, or they get entries.

**Proof sketch.** Induction on the branches, each with the kinds that are cased by then. -/
lemma decideBranches_spec (g : Grammar) (defaultAmount : Nat) (p : Planner) (cased : List Nat)
    (ids : List NodeId) :
    ReflTransGen AddsEntry p (decideBranches g defaultAmount p cased ids).2 ∧
      ∀ branch ∈ (decideBranches g defaultAmount p cased ids).1,
        Entered (decideBranches g defaultAmount p cased ids).2 branch.decision := by
  induction ids generalizing p cased with
  | nil => exact ⟨.refl, fun _ hmem => by cases hmem⟩
  | cons id ids ih =>
    obtain ⟨hadds, hentered⟩ := decideBranch_spec g p cased (g.condition defaultAmount id)
    rw [decideBranches]
    generalize decideBranch g p cased (g.condition defaultAmount id) = found at hadds hentered
    obtain ⟨d, p₁⟩ := found
    dsimp only at hadds hentered ⊢
    split
    next halways =>
      refine ⟨hadds, fun branch hbranch => ?_⟩
      rcases List.mem_cons.mp hbranch with rfl | hbranch
      · exact hentered
      · obtain ⟨i, -, rfl⟩ := List.mem_map.mp hbranch
        simp [Entered]
    next =>
      obtain ⟨hrest, hbranches⟩ := ih p₁ (cased ++ casesOf d)
      refine ⟨hadds.trans hrest, fun branch hbranch => ?_⟩
      rcases List.mem_cons.mp hbranch with rfl | hbranch
      · exact hentered.adds hrest
      · exact hbranches branch hbranch

/-- **The first phase** only adds entries, and each decision that scans has one.

**Proof sketch.** Induction on the ids; where there is a choice point, its branches are decided. -/
lemma decideAll_spec (g : Grammar) (defaultAmount : Nat) (p : Planner) (ids : List NodeId) :
    ReflTransGen AddsEntry p (decideAll g defaultAmount p ids).2 ∧
      ∀ point ∈ (decideAll g defaultAmount p ids).1, ∀ branch ∈ point.branches,
        Entered (decideAll g defaultAmount p ids).2 branch.decision := by
  induction ids generalizing p with
  | nil => exact ⟨.refl, fun _ hmem => by cases hmem⟩
  | cons id ids ih =>
    rw [decideAll]
    cases g.branchesOf? id with
    | none => exact ih p
    | some found =>
      obtain ⟨kind, branches⟩ := found
      obtain ⟨hadds, hentered⟩ := decideBranches_spec g defaultAmount p [] branches
      obtain ⟨hrest, hpoints⟩ := ih (decideBranches g defaultAmount p [] branches).2
      refine ⟨hadds.trans hrest, fun point hpoint => ?_⟩
      rcases List.mem_cons.mp hpoint with rfl | hpoint
      · exact fun branch hbranch => (hentered branch hbranch).adds hrest
      · exact hpoints point hpoint

/-- **After the first phase** everything that is scanned has its name, and no routine has been asked
for. -/
lemma named_of_adds (h : ReflTransGen AddsEntry {} p) :
    Named g p ∧ p.table = {} ∧ p.pending = [] ∧ ∀ e ∈ p.entries, e.amount ≠ 0 := by
  induction h with
  | refl => exact ⟨Named.empty g, rfl, rfl, by simp⟩
  | tail _ hstep ih =>
    obtain ⟨c, hc, rfl⟩ := hstep
    obtain ⟨hnamed, htable, hpending, hamount⟩ := ih
    refine ⟨hnamed.addEntry c, htable, hpending, fun e he => ?_⟩
    rcases Array.mem_push.mp he with he | rfl
    · exact hamount e he
    · exact hc

/-! ## The routines -/

/-- What has a budget has a routine, which goes by the name of the expansion. -/
lemma Named.name_routine (h : Named g p) {x : NodeId × Nat} (hx : x ∈ p.table.entries) :
    p.names.get? x.1 = some (p.routine g x).name ∧ ∀ k, (p.routine g x).name ≠ .token k := by
  obtain ⟨name, hname, hroutine⟩ := h.routine ((OrderedMap.get?_eq_some_iff h.keys).mpr hx)
  have heq : (p.routine g x).name = name := by simp [Planner.routine, hname]
  exact ⟨heq ▸ hname, heq ▸ hroutine⟩

/-- **No two routines have the same name.** -/
lemma Named.nodup_names (h : Named g p) :
    ((p.table.entries.map (p.routine g)).map (·.name)).Nodup := by
  have hkeys : p.table.entries.Nodup := h.keys.of_map
  rw [List.map_map]
  refine hkeys.map_on fun x hx y hy hname => ?_
  have hfst : x.1 = y.1 := by
    obtain ⟨hnx, hroutine⟩ := h.name_routine hx
    obtain ⟨hny, -⟩ := h.name_routine hy
    have hsame : (p.routine g x).name = (p.routine g y).name := hname
    exact h.injective hnx (hsame ▸ hny) hroutine
  exact List.inj_on_of_nodup_map h.keys hx hy hfst

end Planner

/-- A routine is found by its name, if no other one has it. -/
lemma Plan.routine?_of_mem {plan : Plan} (hnodup : (plan.routines.map (·.name)).Nodup)
    {r : ScanRoutine} (hr : r ∈ plan.routines) : plan.routine? r.name = some r := by
  cases hfind : plan.routine? r.name with
  | none => simpa using List.find?_eq_none.mp hfind r hr
  | some r' =>
    have hname : r'.name = r.name := by simpa using List.find?_some hfind
    rw [List.inj_on_of_nodup_map hnodup (List.mem_of_find?_eq_some hfind) hr hname]

namespace Grammar

variable (g : Grammar) (defaultAmount : Nat)

/-- The planner after the first phase. -/
def decided : Planner := (Planner.decideAll g defaultAmount {} g.productionNodes).2

/-- The planner when the plan is done. -/
def planned : Planner := (g.decided defaultAmount).setUpAll g

/-- The routines of a plan are those of the table. -/
lemma plan_routines : (g.plan defaultAmount).routines =
    (g.planned defaultAmount).table.entries.map ((g.planned defaultAmount).routine g) := rfl

/-- The entries of a plan are those of the planner. -/
lemma plan_entries : (g.plan defaultAmount).entries = (g.planned defaultAmount).entries := rfl

/-- What is known after the first phase. -/
lemma decided_spec : Planner.Named g (g.decided defaultAmount) ∧
    (g.decided defaultAmount).table = {} ∧ (g.decided defaultAmount).pending = [] ∧
    ∀ e ∈ (g.decided defaultAmount).entries, e.amount ≠ 0 :=
  Planner.named_of_adds (Planner.decideAll_spec g defaultAmount {} g.productionNodes).1

/-- The planner names what it scans. -/
lemma named_planned : Planner.Named g (g.planned defaultAmount) :=
  (g.decided_spec defaultAmount).1.setUpAll

/-- The second phase adds no entries. -/
lemma entries_planned : (g.planned defaultAmount).entries = (g.decided defaultAmount).entries :=
  (Planner.extends_setUpAll g _).entries

/-- **What the name of a decision that scans leads to.** No two routines of a plan have the same name.
Each decision that scans names an entry, and the plan has a routine for what the entry scans, which
looks at as many tokens as the decision asks for. The name leads to this routine if no later entry
scans the same expansion, and to none otherwise.

**Proof sketch.** The first phase adds entries, each of which names what it scans, and the second one
keeps the entries and these names. So an expansion that entries scan goes by the name of the last of
them. -/
theorem plan_scan_routine :
    ((g.plan defaultAmount).routines.map (·.name.text)).Nodup ∧
    ∀ point ∈ (g.plan defaultAmount).decisions, ∀ branch ∈ point.branches,
      ∀ routine amount condition, branch.decision = .scan routine amount condition →
        ∃ entry ∈ (g.plan defaultAmount).entries, entry.name = routine ∧
          ∃ r ∈ (g.plan defaultAmount).routines, r.expansion = entry.expansion ∧
            amount ≤ r.budget ∧
            (g.plan defaultAmount).routine? routine =
              if lastFor? (g.plan defaultAmount).entries entry.expansion = some entry
                then some r else none := by
  have hnamed := g.named_planned defaultAmount
  have hnodup : ((g.plan defaultAmount).routines.map (·.name)).Nodup := hnamed.nodup_names
  refine ⟨?_, fun point hpoint branch hbranch routine amount condition hdecision => ?_⟩
  · have htexts := hnodup.map RoutineName.text_injective
    rwa [List.map_map] at htexts
  obtain ⟨entry, hentry, rfl, rfl⟩ :=
    (Planner.decideAll_spec g defaultAmount {} _).2 point hpoint branch hbranch _ _ _ hdecision
  have hmem : entry ∈ (g.planned defaultAmount).entries := by
    rwa [entries_planned]
  obtain ⟨b, hb, hle⟩ := Planner.covers_setUpAll g hentry
  have htable : (entry.expansion, b) ∈ (g.planned defaultAmount).table.entries :=
    (OrderedMap.get?_eq_some_iff hnamed.keys).mp hb
  have hroutine := List.mem_map_of_mem (f := (g.planned defaultAmount).routine g) htable
  refine ⟨entry, hmem, rfl, _, hroutine, rfl, hle, ?_⟩
  rw [plan_entries]
  by_cases hlast : lastFor? (g.planned defaultAmount).entries entry.expansion = some entry
  · have hname : ((g.planned defaultAmount).routine g (entry.expansion, b)).name = entry.name := by
      have hget := (hnamed.name_routine htable).1
      rw [hnamed.last hlast] at hget
      exact (Option.some.inj hget).symm
    rw [if_pos hlast, ← hname]
    exact Plan.routine?_of_mem hnodup hroutine
  · -- what goes by the name of the entry has the entry as its last
    rw [if_neg hlast, Plan.routine?, plan_routines]
    refine List.find?_eq_none.mpr fun r hr hname => hlast ?_
    obtain ⟨x, hx, rfl⟩ := List.mem_map.mp hr
    have hget := (hnamed.name_routine hx).1
    rw [of_decide_eq_true hname] at hget
    have hfor := hnamed.lastFor?_of_name hmem hget
    rwa [(mem_of_lastFor? hfor).2]

/-- Two alternatives with lookaheads that scan the same two tokens. -/
def sharedScan : Grammar :=
  let (x, g) := Grammar.empty.literal "x"
  let (y, g) := g.literal "y"
  let (ahead, g) := g.sequence [x, y]
  let (a, g) := g.literal "a"
  let (b, g) := g.literal "b"
  let (first, g) := g.sequenceWith ((LookaheadSpec.tokens 2).withExpansion ahead) [a, b]
  let (c, g) := g.literal "c"
  let (d, g) := g.literal "d"
  let (second, g) := g.sequenceWith ((LookaheadSpec.tokens 2).withExpansion ahead) [c, d]
  let (body, g) := g.choice [first, second]
  ((g.addProduction "start" body).2.link {}).1

/-- The choice between the two alternatives. -/
def sharedPoint : DecisionPoint where
  node := 12
  kind := .choice
  branches := [⟨7, .scan (.entry 1) 2 none⟩, ⟨11, .scan (.entry 2) 2 none⟩]

/-- The choice point is planned. -/
lemma sharedPoint_mem : sharedPoint ∈ (sharedScan.plan 1).decisions := by decide +kernel

/-- Of two alternatives that scan the same expansion, the second one finds its entry and a routine with
enough tokens. -/
theorem plan_scan_routine_sharedScan :
    ((sharedScan.plan 1).routines.map (·.name.text)).Nodup ∧
    sharedPoint ∈ (sharedScan.plan 1).decisions ∧
    (⟨11, .scan (.entry 2) 2 none⟩ : Branch) ∈ sharedPoint.branches ∧
    ∃ entry ∈ (sharedScan.plan 1).entries, entry.name = .entry 2 ∧
      ∃ r ∈ (sharedScan.plan 1).routines, r.expansion = entry.expansion ∧ 2 ≤ r.budget ∧
        (sharedScan.plan 1).routine? (.entry 2) = some r := by
  obtain ⟨hnodup, hscan⟩ := sharedScan.plan_scan_routine 1
  obtain ⟨entry, hentry, hname, r, hr, hexpansion, hle, hfound⟩ :=
    hscan sharedPoint sharedPoint_mem ⟨11, .scan (.entry 2) 2 none⟩ (by decide) (.entry 2) 2 none rfl
  have hlast : ∀ e ∈ (sharedScan.plan 1).entries, e.name = .entry 2 →
      lastFor? (sharedScan.plan 1).entries e.expansion = some e := by
    decide +kernel
  rw [if_pos (hlast entry hentry hname)] at hfound
  exact ⟨hnodup, sharedPoint_mem, by decide, entry, hentry, hname, r, hr, hexpansion, hle, hfound⟩

/-- **Two lookaheads that scan the same expansion**: the decision of the first alternative names no
routine of the plan.

**Proof sketch.** The plan is computed: the first branch scans with the first entry, whose routine was
named anew by the second one. -/
theorem plan_scan_lost : sharedScan.linked = true ∧ sharedScan.unknownId? = none ∧
    (∀ i, ¬ TransGen (fun i j => j ∈ sharedScan.children i) i i) ∧
    ¬ ∀ point ∈ (sharedScan.plan 1).decisions, ∀ branch ∈ point.branches,
      ∀ routine amount condition, branch.decision = .scan routine amount condition →
        ∃ r, (sharedScan.plan 1).routine? routine = some r := by
  have hranks : ∀ i < sharedScan.nodes.size,
      sharedScan.Descends (fun i => [0, 0, 0, 1, 0, 0, 2, 3, 0, 0, 2, 3, 4].getD i 0) i := by
    decide +kernel
  have hnone : (sharedScan.plan 1).routine? (.entry 1) = none := by decide +kernel
  refine ⟨by decide +kernel, by decide +kernel, (topDown_of_descends hranks).acyclic, fun hall => ?_⟩
  obtain ⟨r, hr⟩ := hall sharedPoint sharedPoint_mem ⟨7, .scan (.entry 1) 2 none⟩ (by decide)
    (.entry 1) 2 none rfl
  rw [hnone] at hr
  cases hr

end Grammar

end GrammarForge
