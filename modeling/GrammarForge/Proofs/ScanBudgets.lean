import GrammarForge.Proofs.PlannedRoutines
import Mathlib.Algebra.Order.BigOperators.Group.List

set_option autoImplicit false

/-!
# Budgets of scan routines

The budgets of a plan are the least that will do. A routine is there for what an entry scans, and for
what the scan of a routine asks for, tokens that are scanned without a routine apart; each of them
with as many tokens as are asked for. Every table of budgets with this property has at least the
budgets of the plan.

## Main definitions

* `Planner.AllAsked` — everything that has been asked for has a property.
* `Planner.potential` — a bound on the rounds that are left.
* `Planner.Settling` — the needs of a routine are met, or it is pending.
* `Plan.budget?` — the budgets of a plan.
* `Plan.Closed` — a table of budgets has all that a plan asks for.

## Main results

* `Planner.settle_pending` — the routines settle within as many rounds as the potential has.
* `Grammar.plan_budgets_least` — the budgets of a plan are the least ones that are closed.
-/

namespace GrammarForge

open Relation

namespace Planner

variable {g : Grammar} {p : Planner} {id n : NodeId} {budget b : Nat}
  {P : NodeId → Nat → Prop}

/-! ## What is asked for -/

/-- Whether scanning an expansion takes a routine: it does not boil down to one token, or an entry
scans it. -/
def NeedsRoutine (g : Grammar) (entries : Array EntryRoutine) (n : NodeId) : Prop :=
  ¬ ((g.loneToken? n).isSome ∧ lastFor? entries n = none)

/-- **Everything that has been asked for** has a property. -/
structure AllAsked (P : NodeId → Nat → Prop) (p : Planner) : Prop where
  table : ∀ {n : NodeId} {b : Nat}, p.table.get? n = some b → P n b
  pending : ∀ {n : NodeId} {b : Nat}, (n, b) ∈ p.pending → P n b

namespace AllAsked

/-- Nothing has been asked for. -/
lemma of_nothing_asked (htable : p.table = {}) (hpending : p.pending = []) : AllAsked P p := by
  refine ⟨fun hb => ?_, fun hb => ?_⟩
  · rw [htable] at hb
    cases hb
  · rw [hpending] at hb
    cases hb

/-- Asking for what may be asked. -/
lemma enqueue (h : AllAsked P p) (hnew : P id budget) : AllAsked P (p.enqueue id budget) := by
  by_cases hcovers : Covers p.table.get? id budget
  · rw [enqueue_of_covers hcovers]
    exact h
  · rw [enqueue_of_not_covers hcovers]
    refine ⟨fun {n b} hb => ?_, fun {n b} hb => ?_⟩
    · obtain ⟨rfl, rfl⟩ | ⟨-, hb⟩ := OrderedMap.get?_insert_eq_some.mp hb
      · exact hnew
      · exact h.table hb
    · rcases List.mem_append.mp hb with hb | hb
      · exact h.pending hb
      · obtain ⟨rfl, rfl⟩ : n = id ∧ b = budget := by simpa using hb
        exact hnew

/-- Giving a name asks for nothing. -/
lemma giveName (h : AllAsked P p) (id : NodeId) : AllAsked P (giveName g p id) := by
  rcases giveName_cases g p id with ⟨-, -, heq⟩ | ⟨name, count, -, -, heq⟩
  · rw [heq]
    exact h
  · rw [heq]
    exact ⟨h.table, h.pending⟩

/-- Registering asks for an expansion that needs a routine. -/
lemma register (hnamed : Named g p) (h : AllAsked P p)
    (hnew : NeedsRoutine g p.entries id → P id budget) : AllAsked P (register g p id budget) := by
  rcases register_cases g p id budget with ⟨-, -, heq⟩ | ⟨name, hname, hroutine, heq⟩
  · rw [heq]
    exact h.giveName id
  · rw [heq]
    refine (h.giveName id).enqueue (hnew fun hdirect => ?_)
    rw [← (grows_giveName g p id).entries] at hdirect
    obtain ⟨k, hk⟩ := ((hnamed.giveName id).token_iff hname).mpr hdirect
    exact hroutine k hk

/-- Registering several expansions asks for those that need a routine. -/
lemma registerAll {rs : List (NodeId × Nat)} (hnamed : Named g p) (h : AllAsked P p)
    (hnew : ∀ x ∈ rs, NeedsRoutine g p.entries x.1 → P x.1 x.2) : AllAsked P (registerAll g p rs) := by
  induction rs generalizing p with
  | nil => exact h
  | cons r rs ih =>
    obtain ⟨hr, hrs⟩ := List.forall_mem_cons.mp hnew
    refine ih (hnamed.register r.1 r.2) (h.register hnamed hr) fun x hx => ?_
    rw [(grows_register g p r.1 r.2).entries]
    exact hrs x hx

/-- Asking for the entries. -/
lemma askEntries {es : List EntryRoutine} (h : AllAsked P p)
    (hes : ∀ e ∈ es, P e.expansion e.amount) : AllAsked P (askEntries p es) := by
  induction es generalizing p with
  | nil => exact h
  | cons e es ih =>
    obtain ⟨he, hrest⟩ := List.forall_mem_cons.mp hes
    exact ih (h.enqueue he) hrest

/-- What a round asks for has the property, if the requests of what has it do. -/
lemma round {rest : List (NodeId × Nat)} (hnamed : Named g p) (h : AllAsked P p)
    (hnew : ∀ {n b c left}, P n b → (c, left) ∈ g.requests n b → NeedsRoutine g p.entries c →
      P c left)
    (hpending : p.pending = (id, budget) :: rest) :
    AllAsked P (Planner.registerAll g { p with pending := rest } (g.requests id budget)) := by
  have hfirst : P id budget := h.pending (by simp [hpending])
  have hrest : AllAsked P { p with pending := rest } :=
    ⟨h.table, fun hx => h.pending (by rw [hpending]; exact List.mem_cons_of_mem _ hx)⟩
  exact hrest.registerAll (hnamed.withPending rest) fun x hx => hnew hfirst hx

/-- **All that the second phase asks for** has a property that the entries have, and with a scan
everything that it asks for. -/
lemma setUpAll (hnamed : Named g p) (h : AllAsked P p)
    (hentries : ∀ e ∈ p.entries, P e.expansion e.amount)
    (hnew : ∀ {n b c left}, P n b → (c, left) ∈ g.requests n b → NeedsRoutine g p.entries c →
      P c left) : AllAsked P (p.setUpAll g) := by
  have hes : ∀ e ∈ p.entries.toList, e ∈ p.entries := fun e he => by simpa using he
  rw [setUpAll_eq]
  refine (settle_induction (P := fun q => Named g q ∧ q.entries = p.entries ∧ AllAsked P q)
    (fun {q id budget rest} hpending hq => ?_) ⟨hnamed.askEntries hes,
      (grows_askEntries p _).entries, h.askEntries fun e he => hentries e (hes e he)⟩).2.2
  obtain ⟨hq, hsame, hasked⟩ := hq
  refine ⟨(hq.withPending rest).registerAll _, (grows_registerAll g _ _).entries.trans hsame, ?_⟩
  exact hasked.round hq (fun hp hx hneeds => hnew hp hx (hsame ▸ hneeds)) hpending

end AllAsked

/-! ## Rounds -/

/-- How often a budget can still go up, if none exceeds `bound`. -/
def room (bound : Nat) : Option Nat → Nat
  | none => bound + 1
  | some b => bound - b

/-- **A bound on the rounds that are left**: what is pending, and how often budgets can go up. -/
def potential (ids : List NodeId) (bound : Nat) (p : Planner) : Nat :=
  (ids.map fun n => room bound (p.table.get? n)).sum + p.pending.length

variable {ids : List NodeId} {bound : Nat}

/-- Asking for a routine makes one more pending only if a budget goes up.

**Proof sketch.** The expansion has less room after that, by at least one, and this makes up for the one
more that is pending. -/
lemma potential_enqueue_le (hid : id ∈ ids) (hbudget : budget ≤ bound) :
    potential ids bound (p.enqueue id budget) ≤ potential ids bound p := by
  by_cases hcovers : Covers p.table.get? id budget
  · rw [enqueue_of_covers hcovers]
  · rw [enqueue_of_not_covers hcovers]
    have hless : room bound (some budget) < room bound (p.table.get? id) := by
      cases hget : p.table.get? id with
      | none =>
        simp only [room]
        omega
      | some b =>
        have hlt : b < budget := Nat.lt_of_not_le fun hle => hcovers ⟨b, hget, hle⟩
        simp only [room]
        omega
    have hsum : (ids.map fun n => room bound ((p.table.insert id budget).get? n)).sum <
        (ids.map fun n => room bound (p.table.get? n)).sum := by
      refine List.sum_lt_sum _ _ (fun n _ => ?_) ⟨id, hid, ?_⟩
      · by_cases hn : n = id
        · simpa [OrderedMap.get?_insert, hn] using hless.le
        · simp [OrderedMap.get?_insert, hn]
      · simpa [OrderedMap.get?_insert] using hless
    simp only [potential, List.length_append, List.length_singleton]
    omega

/-- Giving a name does not change the potential. -/
lemma potential_giveName (g : Grammar) (p : Planner) (id : NodeId) :
    potential ids bound (giveName g p id) = potential ids bound p := by
  rcases giveName_cases g p id with ⟨-, -, heq⟩ | ⟨name, count, -, -, heq⟩ <;> rw [heq]
  rfl

/-- Registering does not raise the potential. -/
lemma potential_register_le (hid : id ∈ ids) (hbudget : budget ≤ bound) :
    potential ids bound (register g p id budget) ≤ potential ids bound p := by
  rw [← potential_giveName g p id]
  rcases register_cases g p id budget with ⟨-, -, heq⟩ | ⟨-, -, -, heq⟩ <;> rw [heq]
  exact potential_enqueue_le hid hbudget

/-- Registering several expansions does not raise the potential. -/
lemma potential_registerAll_le {rs : List (NodeId × Nat)} (hrs : ∀ x ∈ rs, x.1 ∈ ids ∧ x.2 ≤ bound) :
    potential ids bound (registerAll g p rs) ≤ potential ids bound p := by
  induction rs generalizing p with
  | nil => exact le_rfl
  | cons r rs ih =>
    obtain ⟨⟨hid, hbudget⟩, hrest⟩ := List.forall_mem_cons.mp hrs
    exact (ih hrest).trans (potential_register_le hid hbudget)

/-- Asking for the entries does not raise the potential. -/
lemma potential_askEntries_le {es : List EntryRoutine}
    (hes : ∀ e ∈ es, e.expansion ∈ ids ∧ e.amount ≤ bound) :
    potential ids bound (askEntries p es) ≤ potential ids bound p := by
  induction es generalizing p with
  | nil => exact le_rfl
  | cons e es ih =>
    obtain ⟨⟨hid, hbudget⟩, hrest⟩ := List.forall_mem_cons.mp hes
    exact (ih hrest).trans (potential_enqueue_le hid hbudget)

/-- **The routines settle** within as many rounds as the potential has.

**Proof sketch.** Induction on the rounds. A round takes one routine off, and what it asks for does not
raise the potential. -/
lemma settle_pending {rounds : Nat} (hnamed : Named g p)
    (h : AllAsked (fun n b => n ∈ ids ∧ 0 < b ∧ b ≤ bound) p) (hids : ∀ n ∈ g.mentionedIds, n ∈ ids)
    (hrounds : potential ids bound p ≤ rounds) : (settle g rounds p).pending = [] := by
  have hnew : ∀ {n b c left}, n ∈ ids ∧ 0 < b ∧ b ≤ bound → (c, left) ∈ g.requests n b →
      c ∈ ids ∧ 0 < left ∧ left ≤ bound := by
    rintro n b c left ⟨-, hpos, hle⟩ hx
    have hasks := Grammar.asksFor_of_mem_requestsWithin hpos hx
    have hleft := hasks.left_bounds hpos
    exact ⟨hids c hasks.mem_mentionedIds, hleft.1, hleft.2.trans hle⟩
  induction rounds generalizing p with
  | zero =>
    refine List.eq_nil_of_length_eq_zero ?_
    rw [potential] at hrounds
    rw [settle]
    omega
  | succ rounds ih =>
    rw [settle]
    split
    · assumption
    next id budget rest hpending =>
      have hfirst := h.pending (n := id) (b := budget) (by simp [hpending])
      rw [setUp_eq]
      refine ih ((hnamed.withPending rest).registerAll _)
        (h.round hnamed (fun hp hx _ => hnew hp hx) hpending) ?_
      have hle : potential ids bound (registerAll g { p with pending := rest }
          (g.requests id budget)) ≤ potential ids bound { p with pending := rest } :=
        potential_registerAll_le fun x hx => ⟨(hnew hfirst hx).1, (hnew hfirst hx).2.2⟩
      simp only [potential, hpending, List.length_cons] at hrounds hle ⊢
      omega

/-- A maximum over entries is not below any of them. -/
lemma le_foldl_max (es : List EntryRoutine) (start : Nat) :
    start ≤ es.foldl (fun n e => max n e.amount) start ∧
      ∀ e ∈ es, e.amount ≤ es.foldl (fun n e => max n e.amount) start := by
  induction es generalizing start with
  | nil => simp
  | cons e es ih =>
    obtain ⟨hstart, hrest⟩ := ih (max start e.amount)
    refine ⟨(le_max_left _ _).trans hstart, List.forall_mem_cons.mpr ⟨?_, hrest⟩⟩
    exact (le_max_right _ _).trans hstart

/-- No entry has more than the greatest amount. -/
lemma le_greatestAmount {e : EntryRoutine} (he : e ∈ p.entries) : e.amount ≤ p.greatestAmount := by
  rw [greatestAmount, ← Array.foldl_toList]
  exact (le_foldl_max p.entries.toList 0).2 e (by simpa using he)

/-- **The rounds are enough**: nothing is pending after the second phase.

**Proof sketch.** All that is asked for are expansions of entries and ids that the grammar mentions,
with budgets up to the greatest amount. The potential over these bounds the rounds, and each round takes
one from it. -/
lemma setUpAll_pending (hnamed : Named g p) (htable : p.table = {}) (hpending : p.pending = [])
    (hamount : ∀ e ∈ p.entries, e.amount ≠ 0) : (p.setUpAll g).pending = [] := by
  set ids := p.entries.toList.map (·.expansion) ++ g.mentionedIds
  have hes : ∀ e ∈ p.entries.toList,
      e.expansion ∈ ids ∧ 0 < e.amount ∧ e.amount ≤ p.greatestAmount := by
    intro e he
    have hmem : e ∈ p.entries := by simpa using he
    exact ⟨List.mem_append_left _ (List.mem_map_of_mem he), Nat.pos_of_ne_zero (hamount e hmem),
      le_greatestAmount hmem⟩
  have hstart : AllAsked (fun n b => n ∈ ids ∧ 0 < b ∧ b ≤ p.greatestAmount) p :=
    .of_nothing_asked htable hpending
  rw [setUpAll_eq]
  refine settle_pending (hnamed.askEntries fun e he => by simpa using he) (hstart.askEntries hes)
    (fun n hn => List.mem_append_right _ hn) ?_
  calc potential ids p.greatestAmount (askEntries p p.entries.toList)
      ≤ potential ids p.greatestAmount p :=
        potential_askEntries_le fun e he => ⟨(hes e he).1, (hes e he).2.2⟩
    _ = roundBound g p := by
        have hroom : ∀ n, room p.greatestAmount (p.table.get? n) = p.greatestAmount + 1 := by
          intro n
          rw [htable]
          rfl
        have hlength : ids.length = p.entries.size + g.mentionedIds.length := by simp [ids]
        simp only [potential, hroom, List.map_const', List.sum_replicate, hlength, hpending,
          List.length_nil, roundBound, smul_eq_mul, Nat.add_zero]

/-! ## What routines need -/

/-- **The needs of a routine are met**: what its scan asks for is a token, or has its budget. -/
def Served (g : Grammar) (p : Planner) (n : NodeId) (b : Nat) : Prop :=
  ∀ x ∈ g.requests n b, (∃ k, p.names.get? x.1 = some (.token k)) ∨ Covers p.table.get? x.1 x.2

/-- **The needs of a routine are met, or it is pending.** -/
def Settling (g : Grammar) (p : Planner) : Prop :=
  ∀ n b, p.table.get? n = some b → (n, b) ∈ p.pending ∨ Served g p n b

/-- What is served stays served. -/
lemma Served.mono {p' : Planner} (h : Served g p n b) (hext : Extends p p') : Served g p' n b := by
  intro x hx
  rcases h x hx with ⟨k, hk⟩ | hcovers
  · exact .inl ⟨k, hext.names hk⟩
  · exact .inr (hext.covers hcovers)

/-- A registered expansion is served. -/
lemma register_serves (g : Grammar) (p : Planner) (id : NodeId) (budget : Nat) :
    (∃ k, (register g p id budget).names.get? id = some (.token k)) ∨
      Covers (register g p id budget).table.get? id budget := by
  rcases register_cases g p id budget with ⟨k, hname, heq⟩ | ⟨name, -, -, heq⟩ <;> rw [heq]
  · exact .inl ⟨k, hname⟩
  · exact .inr (covers_enqueue _ id budget)

/-- Each of several registered expansions is served. -/
lemma registerAll_serves {rs : List (NodeId × Nat)} {x : NodeId × Nat} (hx : x ∈ rs) :
    (∃ k, (registerAll g p rs).names.get? x.1 = some (.token k)) ∨
      Covers (registerAll g p rs).table.get? x.1 x.2 := by
  induction rs generalizing p with
  | nil => cases hx
  | cons r rs ih =>
    rcases List.mem_cons.mp hx with rfl | hx
    · have hrest := grows_registerAll g (register g p x.1 x.2) rs
      rcases register_serves g p x.1 x.2 with ⟨k, hk⟩ | hcovers
      · exact .inl ⟨k, hrest.names hk⟩
      · exact .inr (hrest.covers hcovers)
    · exact ih hx

/-- **A round serves** the routine that it takes off, and makes each new one pending.

**Proof sketch.** What was served stays served. The routine taken off is served by registering its
requests, and a budget that is new makes its expansion pending. -/
lemma Settling.round {rest : List (NodeId × Nat)} (h : Settling g p)
    (hpending : p.pending = (id, budget) :: rest) :
    Settling g (registerAll g { p with pending := rest } (g.requests id budget)) := by
  have hgrows := grows_registerAll g { p with pending := rest } (g.requests id budget)
  intro n b hb
  rcases hgrows.fresh hb with hold | hnew
  · rcases h n b hold with hmem | hserved
    · rw [hpending] at hmem
      rcases List.mem_cons.mp hmem with heq | hmem
      · cases heq
        exact .inr fun x hx => registerAll_serves hx
      · exact .inl (hgrows.pending hmem)
    · exact .inr (hserved.mono ((extends_withPending p rest).trans hgrows.toExtends))
  · exact .inl hnew

/-- The table of the second phase settles. -/
lemma settling_setUpAll (htable : p.table = {}) : Settling g (p.setUpAll g) := by
  rw [setUpAll_eq]
  refine settle_induction (fun hpending h => h.round hpending) fun n b hb => ?_
  rcases (grows_askEntries p _).fresh hb with hold | hnew
  · rw [htable] at hold
    cases hold
  · exact .inl hnew

end Planner

/-! ## The budgets of a plan -/

namespace Plan

/-- The budget of the routine that scans an expansion. -/
def budget? (plan : Plan) (n : NodeId) : Option Nat :=
  (plan.routines.find? (·.expansion = n)).map (·.budget)

/-- **A table of budgets has all that a plan asks for**: what entries scan, and with a scan everything
that it asks for, except what is scanned as one token, and does derive this token only. The units of a
sequence are scanned in place and are no entries of the table themselves; what they ask for is asked for
by the sequence (`Grammar.AsksFor.unit`). -/
structure Closed (g : Grammar) (plan : Plan) (table : NodeId → Option Nat) : Prop where
  entries : ∀ e ∈ plan.entries, Covers table e.expansion e.amount
  descent : ∀ {n b c left : Nat}, table n = some b → g.AsksFor n b c left →
    (∃ k, plan.routineName? c = some (.token k) ∧ g.words [c] = {[k]}) ∨ Covers table c left

end Plan

namespace Grammar

open Planner

variable {g : Grammar} {defaultAmount : Nat}

/-- The budgets of a plan are those of the planner's table. -/
lemma plan_budget? (g : Grammar) (defaultAmount : Nat) :
    (g.plan defaultAmount).budget? = (g.planned defaultAmount).table.get? := by
  funext n
  rw [Plan.budget?, plan_routines, OrderedMap.get?]
  generalize (g.planned defaultAmount).table.entries = es
  induction es with
  | nil => rfl
  | cons e es ih =>
    obtain ⟨n', b⟩ := e
    by_cases hn : n = n'
    · simp [Planner.routine, hn]
    · have hbeq : (n == n') = false := by simpa using hn
      have hne : n' ≠ n := Ne.symm hn
      simpa [Planner.routine, List.lookup_cons, hbeq, hne] using ih

/-- **Everything that a plan asks for** is asked for with some tokens, and has a property that the
entries have, and with a scan everything that it asks for. -/
lemma allAsked_planned {P : NodeId → Nat → Prop}
    (hentries : ∀ e ∈ (g.planned defaultAmount).entries, P e.expansion e.amount)
    (hnew : ∀ {n b c left : Nat}, P n b → g.AsksFor n b c left →
      NeedsRoutine g (g.planned defaultAmount).entries c → P c left) :
    AllAsked (fun n b => 0 < b ∧ P n b) (g.planned defaultAmount) := by
  obtain ⟨hnamed, htable, hpending, hamount⟩ := g.decided_spec defaultAmount
  rw [entries_planned] at hentries hnew
  refine AllAsked.setUpAll hnamed (.of_nothing_asked htable hpending) (fun e he => ?_) ?_
  · exact ⟨Nat.pos_of_ne_zero (hamount e he), hentries e he⟩
  · rintro n b c left ⟨hpos, hP⟩ hx hneeds
    have hasks := asksFor_of_mem_requestsWithin hpos hx
    exact ⟨(hasks.left_bounds hpos).1, hnew hP hasks hneeds⟩

/-- Nothing is pending in the end. -/
lemma planned_pending (g : Grammar) (defaultAmount : Nat) :
    (g.planned defaultAmount).pending = [] := by
  obtain ⟨hnamed, htable, hpending, hamount⟩ := g.decided_spec defaultAmount
  exact setUpAll_pending hnamed htable hpending hamount

/-- The table of the planner settles. -/
lemma settling_planned (g : Grammar) (defaultAmount : Nat) :
    Settling g (g.planned defaultAmount) :=
  settling_setUpAll (g.decided_spec defaultAmount).2.1

/-- The budgets of a plan are closed.

**Proof sketch.** When nothing is pending, the needs of every routine are met. -/
lemma closed_budget? (hacyclic : ∀ i, ¬ TransGen (fun i j => j ∈ g.children i) i i) (hled : g.Led)
    (defaultAmount : Nat) :
    Plan.Closed g (g.plan defaultAmount) (g.plan defaultAmount).budget? := by
  rw [plan_budget?]
  refine ⟨fun e he => ?_, fun {n b c left} hb hasks => ?_⟩
  · rw [plan_entries, entries_planned] at he
    exact covers_setUpAll g he
  · have hpositive : AllAsked (fun _ b => 0 < b ∧ True) (g.planned defaultAmount) :=
      allAsked_planned (fun _ _ => trivial) fun _ _ _ => trivial
    have hrequest := (mem_requests hacyclic (hpositive.table hb).1).mpr hasks
    rcases settling_planned g defaultAmount n b hb with hmem | hserved
    · rw [planned_pending] at hmem
      cases hmem
    · rcases hserved _ hrequest with ⟨k, hk⟩ | hcovers
      · exact .inl ⟨k, hk, words_of_loneToken hled ((g.named_planned defaultAmount).token hk)⟩
      · exact .inr hcovers

/-- Every closed table has the budgets of a plan at least.

**Proof sketch.** What is asked for is in the closed table all along: with the greater budget of the
table a scan asks for as much at least, and what the table may leave out is scanned as a token. -/
lemma covers_of_closed {table : NodeId → Option Nat}
    (hclosed : Plan.Closed g (g.plan defaultAmount) table) :
    ∀ r ∈ (g.plan defaultAmount).routines, Covers table r.expansion r.budget := by
  have hnamed := g.named_planned defaultAmount
  have hasked : AllAsked (fun n b => 0 < b ∧ Covers table n b) (g.planned defaultAmount) := by
    refine allAsked_planned hclosed.entries fun {n b c left} hcovers hasks hneeds => ?_
    obtain ⟨b', htable, hle⟩ := hcovers
    obtain ⟨left', hleft, hasks'⟩ := hasks.mono hle
    rcases hclosed.descent htable hasks' with ⟨k, hk, -⟩ | hcovers
    · exact absurd ((hnamed.token_iff hk).mp ⟨k, rfl⟩) hneeds
    · exact hcovers.mono hleft
  rw [plan_routines]
  intro r hr
  obtain ⟨x, hx, rfl⟩ := List.mem_map.mp hr
  exact (hasked.table ((OrderedMap.get?_eq_some_iff hnamed.keys).mpr hx)).2

/-- **The budgets of a plan are the least ones that are closed.** Let the tree of a grammar have no
cycles, and every sequence start with a lookahead. Then nothing is pending when a plan is done, and
every expansion has one routine at most. The budgets of the routines are closed: they have what the
entries scan, and with a scan everything that it asks for, except what is scanned as one token and
derives nothing else. Every closed table has at least these budgets.

**Proof sketch.** Nothing is pending after enough rounds (`planned_pending`), and then every routine in
the table has been served, which closes it (`closed_budget?`). All that was ever asked for is asked for
by every closed table as well (`covers_of_closed`). -/
theorem plan_budgets_least (hacyclic : ∀ i, ¬ TransGen (fun i j => j ∈ g.children i) i i)
    (hled : g.Led) (defaultAmount : Nat) :
    (g.planned defaultAmount).pending = [] ∧
    ((g.plan defaultAmount).routines.map (·.expansion)).Nodup ∧
    Plan.Closed g (g.plan defaultAmount) (g.plan defaultAmount).budget? ∧
    ∀ table, Plan.Closed g (g.plan defaultAmount) table →
      ∀ r ∈ (g.plan defaultAmount).routines, Covers table r.expansion r.budget := by
  refine ⟨planned_pending g defaultAmount, ?_, closed_budget? hacyclic hled defaultAmount,
    fun table hclosed => covers_of_closed hclosed⟩
  rw [plan_routines, List.map_map]
  exact (g.named_planned defaultAmount).keys

/-- Lists in brackets, which hold values and lists, and two alternatives that begin with a list. -/
def brackets : Grammar :=
  let (opening, g) := Grammar.empty.literal "("
  let (list, g) := g.nonterminal "List"
  let (value, g) := g.literal "v"
  let (item, g) := g.choice [list, value]
  let (items, g) := g.zeroOrMore item
  let (closing, g) := g.literal ")"
  let (body, g) := g.sequence [opening, items, closing]
  let (_, g) := g.addProduction "List" body
  let (list, g) := g.nonterminal "List"
  let (x, g) := g.literal "x"
  let (first, g) := g.sequenceWith (.tokens 2) [list, x]
  let (list, g) := g.nonterminal "List"
  let (y, g) := g.literal "y"
  let (second, g) := g.sequenceWith (.tokens 4) [list, y]
  let (start, g) := g.choice [first, second]
  ((g.addProduction "start" start).2.link {}).1

/-- The tree of the brackets has no cycles. -/
lemma acyclic_brackets (i : NodeId) : ¬ TransGen (fun i j => j ∈ brackets.children i) i i := by
  have hall : ∀ i < brackets.nodes.size, ∀ j ∈ brackets.children i,
      [0, 0, 0, 0, 1, 0, 1, 2, 3, 0, 0, 4, 0, 0, 0, 1, 0, 0, 0, 1, 2].getD j 0 <
        [0, 0, 0, 0, 1, 0, 1, 2, 3, 0, 0, 4, 0, 0, 0, 1, 0, 0, 0, 1, 2].getD i 0 := by
    decide +kernel
  refine not_transGen_self _ (fun i j hj => hall i ?_ j hj) i
  refine lt_size_of_kind fun code hk => ?_
  simp [children, hk, NodeKind.parts, NodeKind.scanned?] at hj

/-- The sequences of the brackets are led by lookaheads. -/
lemma led_brackets : brackets.Led := by
  have hall : ∀ i < brackets.nodes.size, (brackets.kind i).isSequence = true →
      ((brackets.kind i).parts.head?.any fun la => (brackets.kind la).isLookahead) = true := by
    decide +kernel
  intro i units hk
  have hi := hall i (lt_size_of_kind (by simp [hk])) (by rw [hk]; rfl)
  rw [hk] at hi
  cases units with
  | nil => cases hi
  | cons la rest => exact ⟨la, rest, rfl, hi⟩

/-- The two starts are scanned with two tokens and with four, and the routines of what is in them have
the least budgets that close the table. -/
theorem plan_budgets_least_brackets :
    (∀ i, ¬ TransGen (fun i j => j ∈ brackets.children i) i i) ∧ brackets.Led ∧
    (brackets.plan 1).routines.map (fun r => (r.expansion, r.budget)) =
      [(15, 2), (19, 4), (11, 4), (7, 3), (4, 3)] ∧
    (brackets.planned 1).pending = [] ∧
    ((brackets.plan 1).routines.map (·.expansion)).Nodup ∧
    Plan.Closed brackets (brackets.plan 1) (brackets.plan 1).budget? ∧
    ∀ table, Plan.Closed brackets (brackets.plan 1) table →
      ∀ r ∈ (brackets.plan 1).routines, Covers table r.expansion r.budget :=
  ⟨acyclic_brackets, led_brackets, by decide +kernel,
    plan_budgets_least acyclic_brackets led_brackets 1⟩

end Grammar

end GrammarForge
