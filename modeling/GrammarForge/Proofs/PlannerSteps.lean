import GrammarForge.Proofs.ScanRequests

set_option autoImplicit false

/-!
# Steps of a planner

A plan is made in two phases. In the first one the decisions that scan are given entries, which name
what they scan. In the second one routines are asked for: an expansion is given a name if it has none,
and its budget goes up if it is asked for within more tokens than before. Names given in the second
phase are kept, and budgets never go down.

## Main definitions

* `Covers` — a table of budgets has a budget that is great enough.
* `lastFor?` — the last entry that scans an expansion.
* `Planner.Named` — which names expansions have.
* `Planner.Extends`, `Planner.Grows` — what the second phase keeps.

## Main results

* `Planner.Named.injective` — no two expansions have the same name, if it is that of a routine.
* `Planner.Named.token_iff` — which expansions are scanned without a routine.
* `Planner.Named.registerAll`, `Planner.grows_registerAll` — what asking for routines keeps.
* `Planner.settle_induction` — what a round keeps, all rounds keep.
-/

namespace GrammarForge

/-- A table of budgets has at least `b` tokens for `n`. -/
def Covers (table : NodeId → Option Nat) (n : NodeId) (b : Nat) : Prop :=
  ∃ b', table n = some b' ∧ b ≤ b'

/-- A table that covers a budget covers a lower one. -/
lemma Covers.mono {table : NodeId → Option Nat} {n : NodeId} {b b' : Nat} (h : Covers table n b)
    (hle : b' ≤ b) : Covers table n b' := by
  obtain ⟨b₀, htable, hb₀⟩ := h
  exact ⟨b₀, htable, hle.trans hb₀⟩

/-! ## The entry that names an expansion -/

/-- The last entry that scans an expansion. -/
def lastFor? (entries : Array EntryRoutine) (n : NodeId) : Option EntryRoutine :=
  entries.toList.reverse.find? (·.expansion = n)

/-- The last entry for an expansion after one more entry. -/
lemma lastFor?_push (entries : Array EntryRoutine) (e : EntryRoutine) (n : NodeId) :
    lastFor? (entries.push e) n = if e.expansion = n then some e else lastFor? entries n := by
  by_cases h : e.expansion = n <;> simp [lastFor?, h]

/-- The last entry for an expansion is an entry for it. -/
lemma mem_of_lastFor? {entries : Array EntryRoutine} {n : NodeId} {e : EntryRoutine}
    (h : lastFor? entries n = some e) : e ∈ entries ∧ e.expansion = n := by
  have hmem := List.mem_of_find?_eq_some h
  have hexp := List.find?_some h
  exact ⟨by simpa using hmem, by simpa using hexp⟩

/-- An expansion with an entry has a last one. -/
lemma exists_lastFor? {entries : Array EntryRoutine} {e : EntryRoutine} (h : e ∈ entries) :
    ∃ e', lastFor? entries e.expansion = some e' := by
  refine Option.isSome_iff_exists.mp (List.find?_isSome.mpr ⟨e, ?_, ?_⟩)
  · simpa using h
  · simp

namespace Planner

variable {g : Grammar} {p p' q : Planner} {id n : NodeId} {budget b : Nat}

/-! ## One operation -/

/-- Asking for what is covered changes nothing. -/
lemma enqueue_of_covers (h : Covers p.table.get? id budget) : p.enqueue id budget = p := by
  obtain ⟨b, hget, hle⟩ := h
  simp [enqueue, hget, hle]

/-- Asking for more raises the budget and makes the expansion pending. -/
lemma enqueue_of_not_covers (h : ¬ Covers p.table.get? id budget) :
    p.enqueue id budget =
      { p with table := p.table.insert id budget, pending := p.pending ++ [(id, budget)] } := by
  unfold enqueue
  cases hget : p.table.get? id with
  | none => rfl
  | some b =>
    have hlt : b < budget := Nat.lt_of_not_le fun hle => h ⟨b, hget, hle⟩
    simp [hlt]

/-- The name that an expansion without a name gets, and the number of inner routines named then. -/
inductive NewName (g : Grammar) (p : Planner) (id : NodeId) : RoutineName → Nat → Prop
  | token {k : Nat} : g.loneToken? id = some k → NewName g p id (.token k) p.innerCount
  | inner : g.loneToken? id = none → NewName g p id (.inner (p.innerCount + 1)) (p.innerCount + 1)

/-- An expansion keeps its name. One that has none gets a new one. -/
lemma giveName_cases (g : Grammar) (p : Planner) (id : NodeId) :
    (∃ name, p.names.get? id = some name ∧ giveName g p id = p) ∨
    (∃ name count, p.names.get? id = none ∧ NewName g p id name count ∧
      giveName g p id = { p with names := p.names.insert id name, innerCount := count }) := by
  unfold giveName OrderedMap.contains
  cases hname : p.names.get? id with
  | some name => exact .inl ⟨name, rfl, by simp⟩
  | none =>
    cases hlone : g.loneToken? id with
    | some k => exact .inr ⟨_, _, rfl, .token hlone, by simp⟩
    | none => exact .inr ⟨_, _, rfl, .inner hlone, by simp⟩

/-- A name is given. -/
lemma exists_name_giveName (g : Grammar) (p : Planner) (id : NodeId) :
    ∃ name, (giveName g p id).names.get? id = some name := by
  rcases giveName_cases g p id with ⟨name, hname, heq⟩ | ⟨name, count, -, -, heq⟩
  · exact ⟨name, by rw [heq, hname]⟩
  · exact ⟨name, by simp [heq, OrderedMap.get?_insert]⟩

/-- An expansion that is named after its token needs no routine; for any other one a routine is asked
for. -/
lemma register_cases (g : Grammar) (p : Planner) (id : NodeId) (budget : Nat) :
    (∃ k, (giveName g p id).names.get? id = some (.token k) ∧
      register g p id budget = giveName g p id) ∨
    (∃ name, (giveName g p id).names.get? id = some name ∧ (∀ k, name ≠ .token k) ∧
      register g p id budget = (giveName g p id).enqueue id budget) := by
  obtain ⟨name, hname⟩ := exists_name_giveName g p id
  cases name with
  | token k => exact .inl ⟨k, hname, by simp [register, hname]⟩
  | entry i => exact .inr ⟨_, hname, by simp, by simp [register, hname]⟩
  | inner i => exact .inr ⟨_, hname, by simp, by simp [register, hname]⟩

/-! ## Names -/

/-- **Which names expansions have.** What entries scan is named by the last of them. Any other
expansion has the name of its token, if it boils down to one, or a number of its own. -/
structure Named (g : Grammar) (p : Planner) : Prop where
  /-- The entries are numbered. -/
  numbered : ∀ {i : Nat} {e : EntryRoutine}, p.entries[i]? = some e → e.name = .entry (i + 1)
  last : ∀ {n : NodeId} {e : EntryRoutine}, lastFor? p.entries n = some e →
    p.names.get? n = some e.name
  entry : ∀ {n : NodeId} {i : Nat}, p.names.get? n = some (.entry i) →
    ∃ e, lastFor? p.entries n = some e
  inner : ∀ {n : NodeId} {i : Nat}, p.names.get? n = some (.inner i) →
    i ≤ p.innerCount ∧ g.loneToken? n = none
  inner_injective : ∀ {m n : NodeId} {i : Nat}, p.names.get? m = some (.inner i) →
    p.names.get? n = some (.inner i) → m = n
  token : ∀ {n : NodeId} {k : Nat}, p.names.get? n = some (.token k) → g.loneToken? n = some k
  /-- What has a budget has the name of a routine. -/
  routine : ∀ {n : NodeId} {b : Nat}, p.table.get? n = some b →
    ∃ name, p.names.get? n = some name ∧ ∀ k, name ≠ .token k
  keys : (p.table.entries.map Prod.fst).Nodup

namespace Named

/-- Without entries there are no names. -/
lemma empty (g : Grammar) : Named g {} where
  numbered h := by simp at h
  last h := by simp [lastFor?] at h
  entry h := by cases h
  inner h := by cases h
  inner_injective h := by cases h
  token h := by cases h
  routine h := by cases h
  keys := List.nodup_nil

/-- The name of an entry says where it stands. -/
lemma exists_number (h : Named g p) {e : EntryRoutine} (he : e ∈ p.entries) :
    ∃ i, p.entries[i]? = some e ∧ e.name = .entry (i + 1) := by
  obtain ⟨i, hi, heq⟩ := Array.mem_iff_getElem.mp he
  have hget : p.entries[i]? = some e := by rw [Array.getElem?_eq_getElem hi, heq]
  exact ⟨i, hget, h.numbered hget⟩

/-- Entries of the same name are the same. -/
lemma eq_of_name (h : Named g p) {e e' : EntryRoutine} (he : e ∈ p.entries) (he' : e' ∈ p.entries)
    (hname : e.name = e'.name) : e = e' := by
  obtain ⟨i, hi, hnumber⟩ := h.exists_number he
  obtain ⟨j, hj, hnumber'⟩ := h.exists_number he'
  obtain rfl : i = j := by
    rw [hnumber, hnumber'] at hname
    simpa using hname
  exact Option.some.inj (hi.symm.trans hj)

/-- What goes by the name of an entry is scanned by it, and by no later one. -/
lemma lastFor?_of_name (h : Named g p) {e : EntryRoutine} (he : e ∈ p.entries)
    (hname : p.names.get? n = some e.name) : lastFor? p.entries n = some e := by
  obtain ⟨i, -, hnumber⟩ := h.exists_number he
  obtain ⟨e', hlast⟩ := h.entry (n := n) (i := i + 1) (by rw [hname, hnumber])
  have hsame : e'.name = e.name := Option.some.inj ((h.last hlast).symm.trans hname)
  rw [hlast, h.eq_of_name (mem_of_lastFor? hlast).1 he hsame]

/-- **No two expansions have the same name**, if it is that of a routine. -/
lemma injective (h : Named g p) {m n : NodeId} {name : RoutineName}
    (hm : p.names.get? m = some name) (hn : p.names.get? n = some name)
    (hroutine : ∀ k, name ≠ .token k) : m = n := by
  cases name with
  | token k => exact absurd rfl (hroutine k)
  | inner i => exact h.inner_injective hm hn
  | entry i =>
    obtain ⟨e, he⟩ := h.entry hm
    have hname : p.names.get? n = some e.name := by rw [hn, ← hm, h.last he]
    obtain ⟨hmem, rfl⟩ := mem_of_lastFor? he
    exact (mem_of_lastFor? (h.lastFor?_of_name hmem hname)).2

/-- **What is scanned without a routine**: an expansion that boils down to one token, if no entry
scans it.

**Proof sketch.** A token name is given only to an expansion that boils down to one token, and entries
are numbered. Conversely, with neither an entry nor another name it has been given that of its token. -/
lemma token_iff (h : Named g p) {name : RoutineName} (hname : p.names.get? n = some name) :
    (∃ k, name = .token k) ↔ (g.loneToken? n).isSome ∧ lastFor? p.entries n = none := by
  constructor
  · rintro ⟨k, rfl⟩
    refine ⟨by simp [h.token hname], Option.eq_none_iff_forall_ne_some.mpr fun e he => ?_⟩
    obtain ⟨i, -, hnumber⟩ := h.exists_number (mem_of_lastFor? he).1
    have := h.last he
    rw [hname, hnumber] at this
    cases this
  · rintro ⟨hlone, hnone⟩
    cases name with
    | token k => exact ⟨k, rfl⟩
    | entry i =>
      obtain ⟨e, he⟩ := h.entry hname
      rw [hnone] at he
      cases he
    | inner i =>
      rw [(h.inner hname).2] at hlone
      cases hlone

/-- A new entry names what it scans, in place of the entries before it.

**Proof sketch.** The entry is the last one and is the last one for its expansion. All other names stay,
and since its number is new, no two expansions share a name. -/
lemma addEntry (h : Named g p) (c : Condition) : Named g (p.addEntry c).2 where
  numbered {i e} hi := by
    rcases Nat.lt_trichotomy i p.entries.size with hlt | rfl | hgt
    · refine h.numbered (i := i) ?_
      rwa [Planner.addEntry, Array.getElem?_push_lt hlt, ← Array.getElem?_eq_getElem hlt] at hi
    · rw [Planner.addEntry, Array.getElem?_push_size] at hi
      cases hi
      rfl
    · have hnone : (p.addEntry c).2.entries[i]? = none := by
        simpa [Planner.addEntry] using hgt
      rw [hnone] at hi
      cases hi
  last {n e} he := by
    simp only [Planner.addEntry, lastFor?_push, OrderedMap.get?_insert] at he ⊢
    by_cases hn : c.expansion = n
    · rw [if_pos hn] at he
      rw [if_pos hn.symm, ← Option.some.inj he]
    · rw [if_neg hn] at he
      rw [if_neg (Ne.symm hn), h.last he]
  entry {n i} hi := by
    simp only [Planner.addEntry, lastFor?_push, OrderedMap.get?_insert] at hi ⊢
    by_cases hn : c.expansion = n
    · exact ⟨_, if_pos hn⟩
    · rw [if_neg (Ne.symm hn)] at hi
      rw [if_neg hn]
      exact h.entry hi
  inner {n i} hi := by
    obtain ⟨-, hname⟩ | ⟨-, hi⟩ := OrderedMap.get?_insert_eq_some.mp hi
    · cases hname
    · exact h.inner hi
  inner_injective {m n i} hm hn := by
    obtain ⟨-, hname⟩ | ⟨-, hm⟩ := OrderedMap.get?_insert_eq_some.mp hm
    · cases hname
    · obtain ⟨-, hname⟩ | ⟨-, hn⟩ := OrderedMap.get?_insert_eq_some.mp hn
      · cases hname
      · exact h.inner_injective hm hn
  token {n k} hk := by
    obtain ⟨-, hname⟩ | ⟨-, hk⟩ := OrderedMap.get?_insert_eq_some.mp hk
    · cases hname
    · exact h.token hk
  routine {n b} hb := by
    by_cases hn : n = c.expansion
    · exact ⟨_, OrderedMap.get?_insert_eq_some.mpr (.inl ⟨hn, rfl⟩), by simp⟩
    · obtain ⟨name, hname, hroutine⟩ := h.routine hb
      exact ⟨name, OrderedMap.get?_insert_eq_some.mpr (.inr ⟨hn, hname⟩), hroutine⟩
  keys := h.keys

/-- Giving a name keeps the names in order.

**Proof sketch.** If there is a name, nothing changes. Otherwise the new one is that of the token or the
next number of the rest, which no other expansion has. -/
lemma giveName (h : Named g p) (id : NodeId) : Named g (giveName g p id) := by
  rcases giveName_cases g p id with ⟨-, -, heq⟩ | ⟨name, count, hnone, hnew, heq⟩
  · rw [heq]
    exact h
  rw [heq]
  refine ⟨h.numbered, fun {n e} he => ?_, fun {n i} hi => ?_, fun {n i} hi => ?_,
    fun {m n i} hm hn => ?_, fun {n k} hk => ?_, fun {n b} hb => ?_, h.keys⟩
  · have hn : n ≠ id := fun hn => by simpa [hn, hnone] using h.last he
    exact OrderedMap.get?_insert_eq_some.mpr (.inr ⟨hn, h.last he⟩)
  · obtain ⟨-, rfl⟩ | ⟨-, hi⟩ := OrderedMap.get?_insert_eq_some.mp hi
    · cases hnew
    · exact h.entry hi
  · obtain ⟨rfl, rfl⟩ | ⟨-, hi⟩ := OrderedMap.get?_insert_eq_some.mp hi
    · cases hnew with
      | inner hlone => exact ⟨le_rfl, hlone⟩
    · obtain ⟨hle, hlone⟩ := h.inner hi
      cases hnew with
      | token => exact ⟨hle, hlone⟩
      | inner => exact ⟨Nat.le_succ_of_le hle, hlone⟩
  · -- the number of a new inner routine is greater than those before
    have hfresh {n : NodeId} (hold : p.names.get? n = some (.inner i)) : .inner i ≠ name := by
      rintro rfl
      have hle := (h.inner hold).1
      cases hnew
      omega
    obtain ⟨rfl, hname⟩ | ⟨-, hm⟩ := OrderedMap.get?_insert_eq_some.mp hm
    · obtain ⟨rfl, -⟩ | ⟨-, hn⟩ := OrderedMap.get?_insert_eq_some.mp hn
      · rfl
      · exact absurd hname (hfresh hn)
    · obtain ⟨-, hname⟩ | ⟨-, hn⟩ := OrderedMap.get?_insert_eq_some.mp hn
      · exact absurd hname (hfresh hm)
      · exact h.inner_injective hm hn
  · obtain ⟨rfl, rfl⟩ | ⟨-, hk⟩ := OrderedMap.get?_insert_eq_some.mp hk
    · cases hnew with
      | token hlone => exact hlone
    · exact h.token hk
  · obtain ⟨name', hname, hroutine⟩ := h.routine hb
    have hn : n ≠ id := fun hn => by simp [hn, hnone] at hname
    exact ⟨name', OrderedMap.get?_insert_eq_some.mpr (.inr ⟨hn, hname⟩), hroutine⟩

/-- What is asked for has the name of a routine. -/
lemma enqueue (h : Named g p) {name : RoutineName} (hname : p.names.get? id = some name)
    (hroutine : ∀ k, name ≠ .token k) : Named g (p.enqueue id budget) := by
  by_cases hcovers : Covers p.table.get? id budget
  · rw [enqueue_of_covers hcovers]
    exact h
  · rw [enqueue_of_not_covers hcovers]
    refine ⟨h.numbered, h.last, h.entry, h.inner, h.inner_injective, h.token, fun {n b} hb => ?_,
      OrderedMap.nodup_keys_insert _ _ _ h.keys⟩
    obtain ⟨rfl, -⟩ | ⟨-, hb⟩ := OrderedMap.get?_insert_eq_some.mp hb
    · exact ⟨name, hname, hroutine⟩
    · exact h.routine hb

/-- Registering an expansion keeps the names. -/
lemma register (h : Named g p) (id : NodeId) (budget : Nat) : Named g (register g p id budget) := by
  rcases register_cases g p id budget with ⟨k, -, heq⟩ | ⟨name, hname, hroutine, heq⟩ <;> rw [heq]
  · exact h.giveName id
  · exact (h.giveName id).enqueue hname hroutine

/-- Registering several expansions keeps the names. -/
lemma registerAll (h : Named g p) (rs : List (NodeId × Nat)) : Named g (registerAll g p rs) := by
  induction rs generalizing p with
  | nil => exact h
  | cons r rs ih => exact ih (h.register r.1 r.2)

/-- What is pending does not matter for the names. -/
lemma withPending (h : Named g p) (rest : List (NodeId × Nat)) :
    Named g { p with pending := rest } :=
  ⟨h.numbered, h.last, h.entry, h.inner, h.inner_injective, h.token, h.routine, h.keys⟩

end Named

/-! ## What is kept -/

/-- **What the second phase keeps**: entries, names, and budgets unless they go up. -/
structure Extends (p p' : Planner) : Prop where
  entries : p'.entries = p.entries
  names : ∀ {n : NodeId} {name : RoutineName}, p.names.get? n = some name →
    p'.names.get? n = some name
  covers : ∀ {n : NodeId} {b : Nat}, Covers p.table.get? n b → Covers p'.table.get? n b

/-- **What asking for routines keeps**: also what is pending stays so, and each new budget is
pending. -/
structure Grows (p p' : Planner) : Prop extends Extends p p' where
  pending : ∀ {x : NodeId × Nat}, x ∈ p.pending → x ∈ p'.pending
  fresh : ∀ {n : NodeId} {b : Nat}, p'.table.get? n = some b →
    p.table.get? n = some b ∨ (n, b) ∈ p'.pending

/-- Nothing is added. -/
lemma Extends.refl (p : Planner) : Extends p p := ⟨rfl, id, id⟩

/-- What is pending does not matter. -/
lemma extends_withPending (p : Planner) (rest : List (NodeId × Nat)) :
    Extends p { p with pending := rest } :=
  ⟨rfl, id, id⟩

/-- Extending goes on. -/
lemma Extends.trans (h : Extends p q) (h' : Extends q p') : Extends p p' :=
  ⟨h'.entries.trans h.entries, fun hn => h'.names (h.names hn), fun hb => h'.covers (h.covers hb)⟩

/-- Nothing grows. -/
lemma Grows.refl (p : Planner) : Grows p p := ⟨Extends.refl p, id, .inl⟩

/-- Growing goes on. -/
lemma Grows.trans (h : Grows p q) (h' : Grows q p') : Grows p p' := by
  refine ⟨h.toExtends.trans h'.toExtends, fun hx => h'.pending (h.pending hx), fun hb => ?_⟩
  rcases h'.fresh hb with hq | hmem
  · rcases h.fresh hq with hp | hmem
    · exact .inl hp
    · exact .inr (h'.pending hmem)
  · exact .inr hmem

/-- Giving a name grows. -/
lemma grows_giveName (g : Grammar) (p : Planner) (id : NodeId) : Grows p (giveName g p id) := by
  rcases giveName_cases g p id with ⟨-, -, heq⟩ | ⟨name, count, hnone, -, heq⟩
  · rw [heq]
    exact Grows.refl p
  · rw [heq]
    refine ⟨⟨rfl, fun {n name'} hname => ?_, fun hb => hb⟩, fun hx => hx, .inl⟩
    have hn : n ≠ id := fun hn => by simp [hn, hnone] at hname
    exact OrderedMap.get?_insert_eq_some.mpr (.inr ⟨hn, hname⟩)

/-- Asking for a routine grows.

**Proof sketch.** If the budget is covered, nothing changes; otherwise it goes up, and the expansion is
pending. -/
lemma grows_enqueue (p : Planner) (id : NodeId) (budget : Nat) : Grows p (p.enqueue id budget) := by
  by_cases hcovers : Covers p.table.get? id budget
  · rw [enqueue_of_covers hcovers]
    exact Grows.refl p
  · rw [enqueue_of_not_covers hcovers]
    refine ⟨⟨rfl, fun hn => hn, fun {n b} hb => ?_⟩, List.mem_append_left _, fun {n b} hb => ?_⟩
    · by_cases hn : n = id
      · -- the budget of `id` goes up
        subst hn
        have hlt : b < budget := Nat.lt_of_not_le fun hle => hcovers (hb.mono hle)
        exact ⟨budget, by simp [OrderedMap.get?_insert], hlt.le⟩
      · simpa [Covers, OrderedMap.get?_insert, hn] using hb
    · obtain ⟨rfl, rfl⟩ | ⟨-, hb⟩ := OrderedMap.get?_insert_eq_some.mp hb
      · exact .inr (List.mem_append_right _ (List.mem_singleton_self _))
      · exact .inl hb

/-- Registering an expansion grows. -/
lemma grows_register (g : Grammar) (p : Planner) (id : NodeId) (budget : Nat) :
    Grows p (register g p id budget) := by
  rcases register_cases g p id budget with ⟨-, -, heq⟩ | ⟨-, -, -, heq⟩ <;> rw [heq]
  · exact grows_giveName g p id
  · exact (grows_giveName g p id).trans (grows_enqueue _ id budget)

/-- Registering several expansions grows. -/
lemma grows_registerAll (g : Grammar) (p : Planner) (rs : List (NodeId × Nat)) :
    Grows p (registerAll g p rs) := by
  induction rs generalizing p with
  | nil => exact Grows.refl p
  | cons r rs ih => exact (grows_register g p r.1 r.2).trans (ih _)

/-! ## Rounds -/

/-- What is asked for is covered. -/
lemma covers_enqueue (p : Planner) (id : NodeId) (budget : Nat) :
    Covers (p.enqueue id budget).table.get? id budget := by
  by_cases hcovers : Covers p.table.get? id budget
  · rwa [enqueue_of_covers hcovers]
  · rw [enqueue_of_not_covers hcovers]
    exact ⟨budget, by simp [OrderedMap.get?_insert], le_rfl⟩

/-- **What a round keeps, all rounds keep.** A round registers the requests of the first pending
routine. -/
lemma settle_induction {P : Planner → Prop} {rounds : Nat}
    (hround : ∀ {p : Planner} {id : NodeId} {budget : Nat} {rest : List (NodeId × Nat)},
      p.pending = (id, budget) :: rest → P p →
      P (registerAll g { p with pending := rest } (g.requests id budget)))
    (h : P p) : P (settle g rounds p) := by
  induction rounds generalizing p with
  | zero => exact h
  | succ rounds ih =>
    rw [settle]
    split
    · exact h
    next id budget rest hpending =>
      refine ih ?_
      rw [setUp_eq]
      exact hround hpending h

/-- Settling extends. -/
lemma extends_settle (g : Grammar) (rounds : Nat) (p : Planner) : Extends p (settle g rounds p) := by
  refine settle_induction (P := Extends p) (fun _ h => ?_) (Extends.refl p)
  exact (h.trans (extends_withPending _ _)).trans (grows_registerAll g _ _).toExtends

/-- Settling keeps the names. -/
lemma Named.settle (h : Named g p) (rounds : Nat) : Named g (settle g rounds p) :=
  settle_induction (fun _ h => (h.withPending _).registerAll _) h

/-! ## The second phase -/

/-- Asks for the routines of some entries. -/
def askEntries (p : Planner) (es : List EntryRoutine) : Planner :=
  es.foldl (fun p e => p.enqueue e.expansion e.amount) p

/-- Asking for the entries grows. -/
lemma grows_askEntries (p : Planner) (es : List EntryRoutine) : Grows p (askEntries p es) := by
  induction es generalizing p with
  | nil => exact Grows.refl p
  | cons e es ih => exact (grows_enqueue p e.expansion e.amount).trans (ih _)

/-- The budgets of the entries are covered. -/
lemma covers_askEntries {es : List EntryRoutine} {e : EntryRoutine} (he : e ∈ es) :
    Covers (askEntries p es).table.get? e.expansion e.amount := by
  induction es generalizing p with
  | nil => cases he
  | cons e' es ih =>
    rcases List.mem_cons.mp he with rfl | he
    · exact (grows_askEntries _ es).covers (covers_enqueue p e.expansion e.amount)
    · exact ih he

/-- Asking for the entries keeps the names.

**Proof sketch.** Induction on the entries. An entry that is asked for is numbered, so that its name is
not one of a token. -/
lemma Named.askEntries {es : List EntryRoutine} (h : Named g p) (hes : ∀ e ∈ es, e ∈ p.entries) :
    Named g (askEntries p es) := by
  induction es generalizing p with
  | nil => exact h
  | cons e es ih =>
    obtain ⟨e', he'⟩ := exists_lastFor? (hes e List.mem_cons_self)
    obtain ⟨i, -, hnumber⟩ := h.exists_number (mem_of_lastFor? he').1
    have hroutine : ∀ k, e'.name ≠ .token k := by
      intro k hk
      rw [hnumber] at hk
      cases hk
    refine ih (h.enqueue (h.last he') hroutine) fun d hd => ?_
    rw [(grows_enqueue p e.expansion e.amount).entries]
    exact hes d (List.mem_cons_of_mem _ hd)

/-- The second phase asks for the entries and settles what they need. -/
lemma setUpAll_eq (g : Grammar) (p : Planner) :
    p.setUpAll g = settle g (roundBound g p) (askEntries p p.entries.toList) := by
  have hbound : roundBound g (askEntries p p.entries.toList) = roundBound g p := by
    unfold roundBound greatestAmount
    rw [(grows_askEntries p _).entries]
  have hask : p.entries.foldl (fun p e => p.enqueue e.expansion e.amount) p =
      askEntries p p.entries.toList := by
    rw [askEntries, Array.foldl_toList]
  rw [setUpAll, hask, hbound]

/-- The second phase extends. -/
lemma extends_setUpAll (g : Grammar) (p : Planner) : Extends p (p.setUpAll g) := by
  rw [setUpAll_eq]
  exact (grows_askEntries p _).toExtends.trans (extends_settle g _ _)

/-- The second phase keeps the names. -/
lemma Named.setUpAll (h : Named g p) : Named g (p.setUpAll g) := by
  rw [setUpAll_eq]
  exact (h.askEntries fun e he => by simpa using he).settle _

/-- **Every entry gets its budget.** -/
lemma covers_setUpAll (g : Grammar) {e : EntryRoutine} (he : e ∈ p.entries) :
    Covers (p.setUpAll g).table.get? e.expansion e.amount := by
  rw [setUpAll_eq]
  exact (extends_settle g _ _).covers (covers_askEntries (by simpa using he))

end Planner

end GrammarForge
