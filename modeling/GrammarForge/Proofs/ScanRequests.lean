import GrammarForge.Lookahead.Plan
import GrammarForge.Proofs.LinkedTree

set_option autoImplicit false

/-!
# What a scan asks for

A scan of an expansion within a number of tokens calls for scans of other expansions: the
alternatives of a choice, the right side of a production, the body of a repetition. The units of a
sequence are scanned in place, each within the tokens that the units before it leave.

## Main definitions

* `Grammar.AsksFor` — a scan within a budget calls for another one.
* `Grammar.requests` — the list of all these, in the order in which they are made.

## Main results

* `Planner.setUp_eq` — setting up the routines for a scan registers its requests one by one.
* `Grammar.mem_requests` — the list has what the scan asks for.
* `Grammar.AsksFor.mono` — with more tokens a scan asks for as much at least.
* `Grammar.words_of_loneToken` — what an expansion derives that boils down to one token.
-/

namespace GrammarForge

open Computability Relation

namespace Grammar

/-- The least number of tokens that units in a row take. -/
def leastTokens (g : Grammar) (units : List NodeId) : Nat := (units.map g.minimumSize).sum

/-- **A scan calls for another one**: scanning `n` within `b` tokens reaches `c` when `left` tokens are
left. The alternatives of a choice, the right side of a production and the body of a loop are scanned by
routines of their own. The units of a sequence are not: they are scanned in place, by the routine of the
sequence, and so are no requests themselves. What they reach the sequence reaches, lookaheads apart, as
long as the units before leave some tokens. -/
inductive AsksFor (g : Grammar) : NodeId → Nat → NodeId → Nat → Prop
  | alternative {n b c : Nat} {alternatives : List NodeId} : g.kind n = .choice alternatives →
      c ∈ alternatives → AsksFor g n b c b
  | production {n b c p : Nat} {name : String} : g.kind n = .nonterminal name (some p) →
      g.body p = some c → AsksFor g n b c b
  | body {n b c : Nat} : (g.kind n).loopBody? = some c → AsksFor g n b c b
  | unit {n b c left u : Nat} {before after : List NodeId} :
      g.kind n = .sequence (before ++ u :: after) → (g.kind u).isLookahead = false →
      0 < b - g.leastTokens before → AsksFor g u (b - g.leastTokens before) c left →
      AsksFor g n b c left

/-- The requests of the units of a sequence, as far as the budget reaches. -/
def unitRequests (g : Grammar) (requests : NodeId → Nat → List (NodeId × Nat)) :
    Nat → List NodeId → List (NodeId × Nat)
  | _, [] => []
  | budget, u :: us =>
    if (g.kind u).isLookahead then g.unitRequests requests budget us
    else
      let left := budget - g.minimumSize u
      requests u budget ++ if left = 0 then [] else g.unitRequests requests left us

/-- The requests of a scan, down to a depth. -/
def requestsWithin (g : Grammar) : Nat → NodeId → Nat → List (NodeId × Nat)
  | 0, _, _ => []
  | depth + 1, id, budget =>
    match g.kind id with
    | .nonterminal _ (some q) =>
      match g.body q with
      | some root => [(root, budget)]
      | none => []
    | .choice alternatives => alternatives.map fun a => (a, budget)
    | .sequence units => g.unitRequests (g.requestsWithin depth) budget units
    | .oneOrMore b | .zeroOrMore b | .zeroOrOne b => [(b, budget)]
    | _ => []

/-- The requests of a scan, in the order in which they are made. -/
def requests (g : Grammar) (id : NodeId) (budget : Nat) : List (NodeId × Nat) :=
  g.requestsWithin (g.nodes.size + 1) id budget

end Grammar

namespace Planner

/-- Registers requests one by one. -/
def registerAll (g : Grammar) (p : Planner) (rs : List (NodeId × Nat)) : Planner :=
  rs.foldl (fun p r => register g p r.1 r.2) p

/-- Registering nothing changes nothing. -/
@[simp]
lemma registerAll_nil (g : Grammar) (p : Planner) : registerAll g p [] = p := rfl

/-- Requests are registered one after the other. -/
@[simp]
lemma registerAll_cons (g : Grammar) (p : Planner) (r : NodeId × Nat) (rs : List (NodeId × Nat)) :
    registerAll g p (r :: rs) = registerAll g (register g p r.1 r.2) rs := rfl

/-- Requests are registered in stretches. -/
lemma registerAll_append (g : Grammar) (p : Planner) (rs qs : List (NodeId × Nat)) :
    registerAll g p (rs ++ qs) = registerAll g (registerAll g p rs) qs := by
  simp [registerAll]

/-- Setting up units is registering their requests.

**Proof sketch.** Induction on the units, which are set up until no budget is left. -/
lemma setUpUnits_eq {g : Grammar} {setUp : Planner → NodeId → Nat → Planner}
    {requests : NodeId → Nat → List (NodeId × Nat)}
    (h : ∀ p u budget, setUp p u budget = registerAll g p (requests u budget)) (p : Planner)
    (budget : Nat) (units : List NodeId) :
    setUpUnits g setUp p budget units = registerAll g p (g.unitRequests requests budget units) := by
  induction units generalizing p budget with
  | nil => rfl
  | cons u us ih =>
    rw [setUpUnits, Grammar.unitRequests]
    by_cases hla : (g.kind u).isLookahead
    · rw [if_pos hla, if_pos hla]
      exact ih p budget
    · rw [if_neg hla, if_neg hla]
      by_cases hleft : budget - g.minimumSize u = 0
      · simp [hleft, h]
      · simp [hleft, h, ih, registerAll_append]

/-- Setting up a scan is registering its requests.

**Proof sketch.** Induction on the depth, by the kind of the expansion. -/
lemma setUpWithin_eq (g : Grammar) (depth : Nat) (p : Planner) (id : NodeId) (budget : Nat) :
    setUpWithin g depth p id budget = registerAll g p (g.requestsWithin depth id budget) := by
  induction depth generalizing p id budget with
  | zero => rfl
  | succ depth ih =>
    rw [setUpWithin, Grammar.requestsWithin]
    cases g.kind id with
    | nonterminal name q =>
      cases q with
      | none => rfl
      | some q =>
        dsimp only
        cases g.body q <;> rfl
    | choice alternatives => simp [registerAll, List.foldl_map]
    | sequence units => exact setUpUnits_eq ih p budget units
    | _ => rfl

/-- **Setting up** the routines for a scan registers its requests one by one. -/
lemma setUp_eq (g : Grammar) (p : Planner) (id : NodeId) (budget : Nat) :
    setUp g p id budget = registerAll g p (g.requests id budget) :=
  setUpWithin_eq g _ p id budget

end Planner

namespace Grammar

variable {g : Grammar} {n b c left : Nat}

/-- A lookahead has the minimum size zero. -/
lemma minimumSize_lookahead {u : NodeId} (h : (g.kind u).isLookahead = true) :
    g.minimumSize u = 0 := by
  cases hk : g.kind u with
  | lookahead spec =>
    rw [minimumSize, sizeWithin, hk]
    rfl
  | _ => simp [hk, NodeKind.isLookahead] at h

/-- Without units no tokens are needed. -/
@[simp]
lemma leastTokens_nil (g : Grammar) : g.leastTokens [] = 0 := rfl

/-- The tokens that units need at least add up. -/
@[simp]
lemma leastTokens_cons (g : Grammar) (u : NodeId) (us : List NodeId) :
    g.leastTokens (u :: us) = g.minimumSize u + g.leastTokens us := by
  simp [leastTokens]

/-- A row of units is cut at its first unit, or behind it. -/
lemma exists_cut_cons {P : List NodeId → NodeId → Prop} {u : NodeId} {us : List NodeId} :
    (∃ before v after, u :: us = before ++ v :: after ∧ P before v) ↔
      P [] u ∨ ∃ before v after, us = before ++ v :: after ∧ P (u :: before) v := by
  constructor
  · rintro ⟨_ | ⟨w, before⟩, v, after, hunits, h⟩
    · obtain ⟨rfl, -⟩ := List.cons.inj hunits
      exact .inl h
    · obtain ⟨rfl, rfl⟩ := List.cons.inj hunits
      exact .inr ⟨before, v, after, rfl, h⟩
  · rintro (h | ⟨before, v, after, rfl, h⟩)
    · exact ⟨[], u, us, rfl, h⟩
    · exact ⟨u :: before, v, after, rfl, h⟩

/-- A request of a row of units is one of a unit, within what the units before it leave.

**Proof sketch.** Induction on the units: the first one has the whole budget, and the others have what
it leaves. -/
lemma mem_unitRequests {requests : NodeId → Nat → List (NodeId × Nat)} {x : NodeId × Nat}
    {budget : Nat} (hb : 0 < budget) (units : List NodeId) :
    x ∈ g.unitRequests requests budget units ↔ ∃ before u after, units = before ++ u :: after ∧
      (g.kind u).isLookahead = false ∧ 0 < budget - g.leastTokens before ∧
      x ∈ requests u (budget - g.leastTokens before) := by
  induction units generalizing budget with
  | nil => simp [unitRequests]
  | cons u us ih =>
    rw [exists_cut_cons, unitRequests]
    by_cases hla : (g.kind u).isLookahead
    · simp [hla, ih hb, minimumSize_lookahead hla]
    · by_cases hleft : budget - g.minimumSize u = 0
      · -- the unit takes all tokens, so no unit behind it is reached
        have hnone : ∀ before, ¬ g.minimumSize u + g.leastTokens before < budget := by
          intro before
          omega
        simp [hla, hleft, hb, hnone]
      · simp [hla, hleft, hb, ih (Nat.pos_of_ne_zero hleft), Nat.sub_add_eq]

/-! ## The list of requests -/

/-- What a scan asks for is among its requests, if the depth is enough for the sequences below it.

**Proof sketch.** Induction on what is asked for, along the sequences that are scanned in place; the
ranks go down there, so that the depth suffices. -/
lemma AsksFor.mem_requestsWithin {rank : Nat → Nat}
    (hrank : ∀ i j, j ∈ (g.kind i).parts → rank j < rank i) (h : g.AsksFor n b c left) :
    ∀ {depth}, rank n < depth → (c, left) ∈ g.requestsWithin depth n b := by
  induction h with
  | alternative hk hc =>
    rintro (_ | depth) hdepth
    · cases hdepth
    · simp [requestsWithin, hk, hc]
  | production hk hroot =>
    rintro (_ | depth) hdepth
    · cases hdepth
    · simp [requestsWithin, hk, hroot]
  | @body n b c hbody =>
    rintro (_ | depth) hdepth
    · cases hdepth
    · cases hk : g.kind n <;> simp_all [requestsWithin, NodeKind.loopBody?]
  | @unit n b c left u before after hk hu hpos _ ih =>
    rintro (_ | depth) hdepth
    · cases hdepth
    · have hpart : u ∈ (g.kind n).parts := by simp [hk, NodeKind.parts]
      have hlt : rank u < depth := by
        have := hrank n u hpart
        omega
      have hb : 0 < b := by omega
      rw [requestsWithin, hk]
      exact (mem_unitRequests hb _).mpr ⟨before, u, after, rfl, hu, hpos, ih hlt⟩

/-- The requests of a scan are what it asks for.

**Proof sketch.** Induction on the depth, by the kind of the expansion; a request from a unit of a
sequence is one of the sequence. -/
lemma asksFor_of_mem_requestsWithin {depth : Nat} (hb : 0 < b)
    (h : (c, left) ∈ g.requestsWithin depth n b) : g.AsksFor n b c left := by
  induction depth generalizing n b with
  | zero => cases h
  | succ depth ih =>
    rw [requestsWithin] at h
    cases hk : g.kind n with
    | nonterminal name q =>
      rw [hk] at h
      cases q with
      | none => cases h
      | some q =>
        dsimp only at h
        cases hroot : g.body q with
        | none => simp [hroot] at h
        | some root =>
          obtain ⟨rfl, rfl⟩ : c = root ∧ left = b := by simpa [hroot] using h
          exact .production hk hroot
    | choice alternatives =>
      rw [hk] at h
      obtain ⟨a, ha, heq⟩ := List.mem_map.mp h
      cases heq
      exact .alternative hk ha
    | sequence units =>
      rw [hk] at h
      obtain ⟨before, u, after, rfl, hu, hpos, hx⟩ := (mem_unitRequests hb _).mp h
      exact .unit hk hu hpos (ih hpos hx)
    | oneOrMore body | zeroOrMore body | zeroOrOne body =>
      rw [hk] at h
      obtain ⟨rfl, rfl⟩ : c = body ∧ left = b := by simpa using h
      exact .body (by rw [hk]; rfl)
    | _ => simp [hk] at h

/-- **The requests of a scan are what it asks for**, if the tree has no cycles. -/
lemma mem_requests (hacyclic : ∀ i, ¬ TransGen (fun i j => j ∈ g.children i) i i) (hb : 0 < b) :
    (c, left) ∈ g.requests n b ↔ g.AsksFor n b c left := by
  obtain ⟨rank, hle, hrank⟩ : ∃ rank : Nat → Nat, (∀ i, rank i ≤ g.nodes.size) ∧
      ∀ i j, j ∈ (g.kind i).parts → rank j < rank i := by
    refine exists_rank (fun i j hij => lt_size_of_kind fun code hk => ?_) fun i hcycle => ?_
    · rw [hk] at hij
      cases hij
    · exact hacyclic i (TransGen.mono (fun _ _ hj => List.mem_append_left _ hj) _ _ hcycle)
  constructor
  · exact asksFor_of_mem_requestsWithin hb
  · intro h
    exact h.mem_requestsWithin hrank (Nat.lt_succ_of_le (hle n))

/-! ## Properties of requests -/

/-- No scan is asked for within more tokens than there are, or within none. -/
lemma AsksFor.left_bounds (h : g.AsksFor n b c left) (hb : 0 < b) : 0 < left ∧ left ≤ b := by
  induction h with
  | alternative | production | body => exact ⟨hb, le_rfl⟩
  | unit _ _ hpos _ ih =>
    have := ih hpos
    omega

/-- **With more tokens** a scan asks for the same expansions, within as many tokens at least. -/
lemma AsksFor.mono (h : g.AsksFor n b c left) {b' : Nat} (hb : b ≤ b') :
    ∃ left', left ≤ left' ∧ g.AsksFor n b' c left' := by
  induction h generalizing b' with
  | alternative hk hc => exact ⟨b', hb, .alternative hk hc⟩
  | production hk hroot => exact ⟨b', hb, .production hk hroot⟩
  | body hbody => exact ⟨b', hb, .body hbody⟩
  | unit hk hu hpos _ ih =>
    obtain ⟨left', hle, hasks⟩ := ih (Nat.sub_le_sub_right hb _)
    exact ⟨left', hle, .unit hk hu (by omega) hasks⟩

/-- A scan asks only for expansions that the grammar mentions. -/
lemma AsksFor.mem_mentionedIds (h : g.AsksFor n b c left) : c ∈ g.mentionedIds := by
  induction h with
  | alternative hk hc => exact mem_mentionedIds_of_part (by rw [hk]; exact hc)
  | production _ hroot => exact mem_mentionedIds_of_body hroot
  | @body n b c hbody =>
    refine mem_mentionedIds_of_part (i := n) ?_
    cases hk : g.kind n <;> simp_all [NodeKind.loopBody?, NodeKind.parts]
  | unit _ _ _ _ ih => exact ih

/-! ## Expansions that boil down to one token -/

/-- Every sequence starts with a lookahead. -/
def Led (g : Grammar) : Prop :=
  ∀ {i units}, g.kind i = .sequence units →
    ∃ la rest, units = la :: rest ∧ (g.kind la).isLookahead = true

/-- An expansion derives what its only part derives.

**Proof sketch.** By the kind of the expansion: a sequence of a lookahead and one unit, or a choice of
one alternative. -/
lemma words_of_onlyPart (hled : g.Led) {i part : NodeId} (h : g.onlyPart? i = some part) :
    g.words [i] = g.words [part] := by
  rw [onlyPart?] at h
  cases hk : g.kind i with
  | sequence units =>
    obtain ⟨la, rest, rfl, hla⟩ := hled hk
    rw [hk] at h
    match rest, h with
    | [u], h =>
      obtain rfl : u = part := by simpa using h
      cases hkla : g.kind la with
      | lookahead spec =>
        rw [words_sequence hk, words_cons, words_lookahead hkla, one_mul]
      | _ => simp [hkla, NodeKind.isLookahead] at hla
  | nonterminal name q =>
    rw [hk] at h
    cases q with
    | none => cases h
    | some q => exact words_nonterminal hk h
  | _ => simp [hk] at h

/-- The core of an expansion derives what the expansion does.

**Proof sketch.** Induction on the depth, along the only parts. -/
lemma words_core (hled : g.Led) (depth : Nat) (seen : List NodeId) (i : NodeId) :
    g.words [g.core depth seen i] = g.words [i] := by
  induction depth generalizing seen i with
  | zero => rfl
  | succ depth ih =>
    rw [core]
    cases hpart : g.onlyPart? i with
    | none => rfl
    | some part =>
      dsimp only
      split
      · rfl
      · rw [ih, words_of_onlyPart hled hpart]

/-- **An expansion that boils down to one token** derives this token and nothing else. -/
lemma words_of_loneToken (hled : g.Led) {i k : Nat} (h : g.loneToken? i = some k) :
    g.words [i] = {[k]} := by
  rw [loneToken?] at h
  rw [← words_core hled (g.nodes.size + 1) [i] i]
  cases hk : g.kind (g.core (g.nodes.size + 1) [i] i) with
  | token k' =>
    rw [hk] at h
    obtain rfl : k' = k := by simpa using h
    ext w
    exact mem_words_token hk
  | _ => simp [hk] at h

end Grammar

end GrammarForge
