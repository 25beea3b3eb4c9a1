import GrammarForge.Grammar.Builder
import GrammarForge.Grammar.Link
import GrammarForge.Proofs.Derivations
import GrammarForge.Proofs.SentMatches
import Mathlib.Order.Lattice.Nat
import Mathlib.Tactic.IntervalCases
import Mathlib.Tactic.Ring

set_option autoImplicit false

/-!
# FIRST finds what an expansion can begin with

FIRST carries matches along the way through a node. It stops where a production is entered again with
the same matches; in a grammar without left recursion this never happens, because on the way down a
token is read or the node can begin with the next one.

## Main definitions

* `shortest` — the length of the shortest match.
* `Nearer` — a step on the way down: a left corner, or with longer matches.
* `Guarded` — where FIRST is, seen from the productions being expanded.
* `firstBudget` — a bound on the steps that are left.

## Main results

* `carried_firstStep` — a step of FIRST carries matches along, if what it goes on to does.
* `carried_firstWithin` — FIRST carries matches along the way through a node.
* `mem_firstSequences` — the sequences of FIRST are the beginnings of the derived ones.
-/

namespace GrammarForge

open Computability Relation Engine

/-! ## Shortest matches -/

/-- The length of the shortest of several sequences. -/
noncomputable def shortest (ts : List TokenSeq) : Nat := sInf {n | ∃ t ∈ ts, t.length = n}

section

variable {ts us : List TokenSeq}

/-- The shortest length is not above any. -/
lemma shortest_le {t : TokenSeq} (h : t ∈ ts) : shortest ts ≤ t.length :=
  Nat.sInf_le ⟨t, h, rfl⟩

/-- What is below all lengths is below the shortest one. -/
lemma le_shortest {n : Nat} (hne : ts ≠ []) (h : ∀ t ∈ ts, n ≤ t.length) : n ≤ shortest ts := by
  obtain ⟨t, ht⟩ := List.exists_mem_of_ne_nil ts hne
  obtain ⟨u, hu, heq⟩ := Nat.sInf_mem (s := {n | ∃ t ∈ ts, t.length = n}) ⟨t.length, t, ht, rfl⟩
  exact (h u hu).trans_eq heq

/-- The shortest length depends on the members only. -/
lemma shortest_congr (h : ∀ t, t ∈ ts ↔ t ∈ us) : shortest ts = shortest us := by
  simp only [shortest, h]

end

/-- The token sequences of matches. -/
abbrev tokensOf (ms : List PartialMatch) : List TokenSeq := ms.map PartialMatch.tokens

section

variable {limit d : Nat} {R : Reading} {ms mid : List PartialMatch} {aside : List TokenSeq}

/-- Short matches have a shortest length below the limit. -/
lemma shortest_lt_of_short (hne : ms ≠ []) (hshort : Short limit ms) :
    shortest (tokensOf ms) < limit := by
  obtain ⟨m, hm⟩ := List.exists_mem_of_ne_nil ms hne
  exact (shortest_le (List.mem_map_of_mem hm)).trans_lt (hshort m hm)

/-- Matches get longer by what is read on the way. -/
lemma Carries.shortest_add_le (h : Carries limit R ms mid aside) (hne : mid ≠ [])
    (hd : ∀ w ∈ R.whole, d ≤ w.length) : shortest (tokensOf ms) + d ≤ shortest (tokensOf mid) := by
  refine le_shortest (by simpa using hne) fun t ht => ?_
  obtain ⟨x, hx, rfl⟩ := List.mem_map.mp ht
  obtain ⟨m, hm, w, hw, rfl, -⟩ := (h.mem_out x).mp hx
  rw [PartialMatch.after_tokens, List.length_append]
  exact Nat.add_le_add (shortest_le (List.mem_map_of_mem hm)) (hd w hw)

/-- Matches that are carried along do not get shorter. -/
lemma Carries.shortest_le (h : Carries limit R ms mid aside) (hne : mid ≠ []) :
    shortest (tokensOf ms) ≤ shortest (tokensOf mid) :=
  h.shortest_add_le (d := 0) hne fun _ _ => Nat.zero_le _

end

/-! ## The way down -/

/-- **A step on the way down**: the node can begin with the next one and matches get no shorter, or
they get longer. -/
def Nearer (g : Grammar) (ms : List PartialMatch) (i : NodeId) (ms' : List PartialMatch)
    (j : NodeId) : Prop :=
  (g.LeftCorner i j ∧ shortest (tokensOf ms) ≤ shortest (tokensOf ms')) ∨
    shortest (tokensOf ms) < shortest (tokensOf ms')

/-- **Where FIRST is, seen from the productions being expanded**: each was entered with shorter
matches, or it can begin with the node. -/
def Guarded (g : Grammar) (active : List (Nat × List TokenSeq)) (ms : List PartialMatch)
    (i : NodeId) : Prop :=
  ∀ entry ∈ active, shortest entry.2 < shortest (tokensOf ms) ∨
    (shortest entry.2 ≤ shortest (tokensOf ms) ∧
      ∃ root, g.body entry.1 = some root ∧ ReflTransGen g.LeftCorner root i)

/-- A bound on the steps that are left on the way down. -/
noncomputable def firstBudget (rank : Nat → Nat) (nodes limit : Nat) (ms : List PartialMatch)
    (i : NodeId) : Nat :=
  (limit - shortest (tokensOf ms)) * (nodes + 1) + rank i + 1

section

variable {g : Grammar} {limit : Nat} {semantic : Bool} {active : List (Nat × List TokenSeq)}
  {ms ms' : List PartialMatch} {i j : NodeId}

/-- With no productions being expanded nothing has to be guarded. -/
lemma guarded_nil (g : Grammar) (ms : List PartialMatch) (i : NodeId) : Guarded g [] ms i := by
  simp [Guarded]

/-- A step to what is nearer stays guarded. -/
lemma Guarded.step (h : Guarded g active ms i) (hstep : Nearer g ms i ms' j) :
    Guarded g active ms' j := by
  intro entry hentry
  rcases h entry hentry with hlt | ⟨hle, root, hroot, hpath⟩ <;> rcases hstep with ⟨hlc, hle'⟩ | hlt'
  · exact Or.inl (hlt.trans_le hle')
  · exact Or.inl (hlt.trans hlt')
  · exact Or.inr ⟨hle.trans hle', root, hroot, hpath.tail hlc⟩
  · exact Or.inl (hle.trans_lt hlt')

/-- **Entering a production.** It is not being expanded with the same matches: it would be
left-recursive.

**Proof sketch.** A note of the same production with the same matches would come from a path of left
corners back to the same node, since the shortest match has not grown. Further down the new note is kept
in mind. -/
lemma Guarded.enter (hg : g.Predictive) {name : String} {p : Nat} {root : NodeId}
    (h : Guarded g active ms i) (hk : g.kind i = .nonterminal name (some p))
    (hroot : g.body p = some root) :
    (p, sortedSet compare (tokensOf ms)) ∉ active ∧
      Guarded g ((p, sortedSet compare (tokensOf ms)) :: active) ms root := by
  have hshortest : shortest (sortedSet compare (tokensOf ms)) = shortest (tokensOf ms) :=
    shortest_congr fun t => mem_sortedSet compare
  have hcorner : g.LeftCorner i root := .production hk hroot
  constructor
  · intro hmem
    rcases h _ hmem with hlt | ⟨-, root', hroot', hpath⟩
    · rw [hshortest] at hlt
      exact absurd hlt (lt_irrefl _)
    · rw [hroot] at hroot'
      obtain rfl := Option.some_inj.mp hroot'
      exact hg.noLeftRecursion root (.tail' hpath hcorner)
  · intro entry hentry
    rcases List.mem_cons.mp hentry with rfl | hentry
    · exact Or.inr ⟨hshortest.le, root, hroot, .refl⟩
    · exact h.step (Or.inl ⟨hcorner, le_rfl⟩) entry hentry

/-- Each step on the way down takes from the budget.

**Proof sketch.** Either the rank goes down and the matches are not shorter, or the shortest match has
grown, which outweighs any rank. -/
lemma firstBudget_lt {rank : Nat → Nat} (hle : ∀ i, rank i ≤ g.nodes.size)
    (hrank : ∀ i j, g.LeftCorner i j → rank j < rank i) (hlimit : shortest (tokensOf ms') < limit)
    (hstep : Nearer g ms i ms' j) :
    firstBudget rank g.nodes.size limit ms' j < firstBudget rank g.nodes.size limit ms i := by
  have hj := hle j
  rw [firstBudget, firstBudget]
  rcases hstep with ⟨hlc, hle'⟩ | hlt
  · have hdrop := hrank i j hlc
    have hmul : (limit - shortest (tokensOf ms')) * (g.nodes.size + 1) ≤
        (limit - shortest (tokensOf ms)) * (g.nodes.size + 1) :=
      Nat.mul_le_mul_right _ (Nat.sub_le_sub_left hle' limit)
    omega
  · have hmul : (limit - shortest (tokensOf ms') + 1) * (g.nodes.size + 1) ≤
        (limit - shortest (tokensOf ms)) * (g.nodes.size + 1) :=
      Nat.mul_le_mul_right _ (by omega)
    rw [Nat.add_mul, Nat.one_mul] at hmul
    omega

/-! ## The walk -/

/-- Adding a token to short matches.

**Proof sketch.** Every match gets the token. Those that stay below the limit come out, and the others
are set aside, cut at the limit, which is their length. -/
lemma carried_extendAll {k : Nat} (hshort : Short limit ms) (hk : g.kind i = .token k) :
    Carried limit semantic active [] (extendAll k ms) (g.reading [i]) ms := by
  intro e hlimit _ _
  set longer := ms.map (·.extend k) with hlonger
  refine ⟨longer.filter fun m => m.tokens.length < limit,
    (longer.filter fun m => !decide (m.tokens.length < limit)).map PartialMatch.tokens, ?_, ?_, ?_⟩
  · rw [extendAll_eq, hlimit]
  · intro x
    simp only [hlonger, List.mem_filter, List.mem_map, decide_eq_true_eq, Grammar.reading_whole,
      Grammar.mem_words_token hk, exists_eq_left, PartialMatch.extend_eq_after]
    constructor
    · rintro ⟨⟨m, hm, rfl⟩, hlt⟩
      exact ⟨m, hm, rfl, hlt⟩
    · rintro ⟨m, hm, rfl, hlt⟩
      exact ⟨⟨m, hm, rfl⟩, hlt⟩
  · intro t
    simp only [hlonger, List.nil_append, List.mem_map, List.mem_filter, Bool.not_eq_true',
      decide_eq_false_iff_not, Nat.not_lt, Grammar.reading_begun, Grammar.mem_openings_token hk,
      exists_eq_left, PartialMatch.extend_eq_after]
    constructor
    · rintro ⟨x, ⟨⟨m, hm, rfl⟩, hle⟩, rfl⟩
      -- a short match with one token more is not longer than the limit
      have hlt := hshort m hm
      refine ⟨m, hm, rfl, le_antisymm ?_ hle⟩
      rw [PartialMatch.after_tokens, List.length_append, List.length_singleton]
      exact hlt
    · rintro ⟨m, hm, rfl, hlen⟩
      exact ⟨m.after [k], ⟨⟨m, hm, rfl⟩, hlen.ge⟩, rfl⟩

/-- **Several nodes in a row.** What has come through the nodes before is sent through each.

**Proof sketch.** Induction on the units that are left. If nothing has come through, nothing is sent on;
otherwise the next unit carries along what has come through those before it. -/
lemma carried_through {visit : List PartialMatch → NodeId → Walk (List PartialMatch)}
    {units : List NodeId} (hvisit : ∀ {before u after mid aside}, units = before ++ u :: after →
      Carries limit (g.reading before) ms mid aside → mid ≠ [] →
      Carried limit semantic active [] (visit mid u) (g.reading [u]) mid) (after : List NodeId) :
    ∀ {before : List NodeId} {mid : List PartialMatch} {done : List TokenSeq},
      units = before ++ after → Carries limit (g.reading before) ms mid done → mid ≠ [] →
      Carried limit semantic active done (through visit mid after) (g.reading units) ms := by
  induction after with
  | nil =>
    intro before mid done hunits hmid _
    rw [List.append_nil] at hunits
    exact Carried.pure (hunits ▸ hmid)
  | cons u after ih =>
    intro before mid done hunits hmid hne
    refine Carried.bind (hvisit hunits hmid hne) fun out aside hout => ?_
    have hnext := hmid.mul hout
    rw [← g.reading_append] at hnext
    rw [List.append_cons] at hunits
    cases out with
    | nil =>
      have hall := hnext.mul (Carries.nil limit (g.reading after))
      rw [← g.reading_append, ← hunits, List.append_nil] at hall
      exact Carried.pure hall
    | cons m out => exact ih hunits hnext (List.cons_ne_nil m out)

/-- A unit of a sequence is nearer, if something short comes through the units before it. -/
lemma nearer_unit {before after : List NodeId} {u : NodeId} {mid : List PartialMatch}
    {aside : List TokenSeq} (hk : g.kind i = .sequence (before ++ u :: after))
    (h : Carries limit (g.reading before) ms mid aside) (hne : mid ≠ []) : Nearer g ms i mid u := by
  by_cases hnil : [] ∈ g.words before
  · exact Or.inl ⟨.unit hk hnil, h.shortest_le hne⟩
  · refine Or.inr (h.shortest_add_le (d := 1) hne fun w hw => ?_)
    exact List.length_pos_iff.mpr fun heq => hnil (heq ▸ hw)

/-- Conditions at run time do not matter: they are not considered, or there are none. -/
def Unconditional (g : Grammar) (semantic : Bool) : Prop :=
  semantic = true → ∀ {i spec}, g.kind i = .lookahead spec → spec.semantic = none

/-- Without regard to conditions every lookahead is unconditional. -/
lemma unconditional_false (g : Grammar) : Unconditional g false := by
  intro h
  cases h

/-- **One step of FIRST carries matches along**, if the visits of the nodes that are nearer do, and so
does the expansion of the production that the node names.

**Proof sketch.** By the kind of the node. A token reads itself; a nonterminal, a choice and a sequence
read what their parts do, visited in turn; and the passes through a loop read its body several times, as
often as the limit lets it matter. -/
lemma carried_firstStep (hg : g.Predictive) (hcond : Unconditional g semantic)
    {pred : Unit → Countdown} (hne : ms ≠ []) (hshort : Short limit ms)
    (hvisit : ∀ {ms' j}, Nearer g ms i ms' j → ms' ≠ [] → Short limit ms' →
      Carried limit semantic active [] (firstWithin g (pred ()) ms' j) (g.reading [j]) ms')
    (hexpand : ∀ {name q root}, g.kind i = .nonterminal name (some q) → g.body q = some root →
      Carried limit semantic active [] (expanding q ms (firstWithin g (pred ()) ms root))
        (g.reading [root]) ms) :
    Carried limit semantic active [] (firstWithin g (.succ pred) ms i) (g.reading [i]) ms := by
  have hbody : ∀ {b}, (g.kind i).loopBody? = some b →
      Carried limit semantic active [] (repeated (firstWithin g (pred ()) · b) (limit + 1) ms)
        (g.reading [b]).plus ms := by
    intro b hb
    let ok : List PartialMatch → Prop := fun ms' => ms' ≠ [] ∧ Short limit ms' ∧
      shortest (tokensOf ms) ≤ shortest (tokensOf ms')
    refine Carried.plus (Carried.repeated ok (fun ms' h => ?_) (fun h hmid hne' => ?_) _
      ⟨hne, hshort, le_rfl⟩)
    · exact hvisit (Or.inl ⟨.body hb, h.2.2⟩) h.1 h.2.1
    · exact ⟨hne', hmid.short, h.2.2.trans (hmid.shortest_le hne')⟩
  cases hk : g.kind i with
  | token k =>
    simp only [firstWithin, hk]
    exact carried_extendAll hshort hk
  | nonterminal name p =>
    obtain ⟨q, root, rfl, hroot⟩ := hg.resolved hk
    simp only [firstWithin, hk, hroot]
    rw [Grammar.reading_nonterminal hk hroot]
    exact hexpand hk hroot
  | choice alternatives =>
    simp only [firstWithin, hk]
    rw [Grammar.reading_choice hk]
    exact Carried.forEach alternatives fun a ha =>
      hvisit (Or.inl ⟨.alternative hk ha, le_rfl⟩) hne hshort
  | sequence units =>
    simp only [firstWithin, hk]
    rw [Grammar.reading_sequence hk]
    refine carried_through (fun hunits hmid hne' => ?_) units (List.nil_append _).symm ?_ hne
    · exact hvisit (nearer_unit (hunits ▸ hk) hmid hne') hne' hmid.short
    · rw [Grammar.reading_nil]
      exact Carries.one hshort
  | oneOrMore b =>
    simp only [firstWithin, hk]
    rw [Grammar.reading_oneOrMore hk]
    exact Carried.passes (hbody (by rw [hk]; rfl))
  | zeroOrMore b =>
    simp only [firstWithin, hk]
    rw [Grammar.reading_zeroOrMore hk]
    exact Carried.passes (Carried.bind (hbody (by rw [hk]; rfl)) fun more aside hmore =>
      Carried.pure ((Carries.one hshort).add hmore))
  | zeroOrOne b =>
    simp only [firstWithin, hk]
    rw [Grammar.reading_zeroOrOne hk]
    have hone := hvisit (Or.inl ⟨.body (by rw [hk]; rfl), le_rfl⟩) hne hshort
    exact Carried.bind hone fun more aside hmore => Carried.pure ((Carries.one hshort).add hmore)
  | lookahead spec =>
    simp only [firstWithin, hk]
    rw [Grammar.reading_lookahead hk]
    intro e hlimit hsem hactive
    have hget : (get : Walk Engine) e = some (e, e) := rfl
    have hpass : (e.considerSemantic && spec.semantic.isSome) = false := by
      cases hsemantic : semantic with
      | false => rw [hsem, hsemantic, Bool.false_and]
      | true => rw [hcond hsemantic hk, Option.isSome_none, Bool.and_false]
    refine ⟨ms, [], ?_, Carries.one hshort⟩
    rw [bind_eq hget, hpass, withAside_nil]
    rfl
  | action code =>
    simp only [firstWithin, hk]
    rw [Grammar.reading_action hk]
    exact Carried.pure (Carries.one hshort)

/-- **FIRST carries matches along the way through a node.**

**Proof sketch.** Induction on the depth: every node that FIRST goes on to is nearer, which takes
from the budget. A production is never entered again with the same matches. -/
theorem carried_firstWithin (hg : g.Predictive) (hcond : Unconditional g semantic)
    {rank : Nat → Nat} (hle : ∀ i, rank i ≤ g.nodes.size)
    (hrank : ∀ i j, g.LeftCorner i j → rank j < rank i) (depth : Countdown) :
    ∀ {active : List (Nat × List TokenSeq)} {ms : List PartialMatch} {i : NodeId}, ms ≠ [] →
      Short limit ms → Guarded g active ms i →
      firstBudget rank g.nodes.size limit ms i ≤ depth.steps →
      Carried limit semantic active [] (firstWithin g depth ms i) (g.reading [i]) ms := by
  induction depth with
  | zero =>
    intro active ms i _ _ _ hsteps
    exact absurd hsteps (by simp [Countdown.steps, firstBudget])
  | succ pred ih =>
    intro active ms i hne hshort hguard hsteps
    have hbudget : ∀ {ms' j}, Nearer g ms i ms' j → ms' ≠ [] → Short limit ms' →
        firstBudget rank g.nodes.size limit ms' j ≤ (pred ()).steps := by
      intro ms' j hstep hne' hshort'
      have hlt := firstBudget_lt hle hrank (shortest_lt_of_short hne' hshort') hstep
      rw [Countdown.steps] at hsteps
      omega
    refine carried_firstStep hg hcond hne hshort (fun hstep hne' hshort' => ?_) fun hk hroot => ?_
    · exact ih () hne' hshort' (hguard.step hstep) (hbudget hstep hne' hshort')
    · obtain ⟨hnew, hguard'⟩ := hguard.enter hg hk hroot
      have hroom := hbudget (Or.inl ⟨.production hk hroot, le_rfl⟩) hne hshort
      exact Carried.expanding (ih () hne hshort hguard' hroom) hnew

/-- The depth of FIRST is enough.

**Proof sketch.** The budget is at most the number of nodes times the limit, and a power is not less
than that. -/
lemma firstBudget_le_firstDepth {rank : Nat → Nat} (hle : ∀ i, rank i ≤ g.nodes.size) (count : Nat)
    (ms : List PartialMatch) (i : NodeId) :
    firstBudget rank g.nodes.size limit ms i ≤ (firstDepth g limit count).steps := by
  have hi : rank i + 1 ≤ g.nodes.size + 1 := Nat.succ_le_succ (hle i)
  rw [firstBudget, firstDepth, Nat.add_assoc]
  generalize g.nodes.size + 1 = n at hi ⊢
  have hpos : 0 < (g.productions.size + 1) * (count + 1) * Nat.pow n limit :=
    Nat.mul_pos (Nat.mul_pos (Nat.succ_pos _) (Nat.succ_pos _)) (Nat.pow_pos (by omega))
  calc (limit - shortest (tokensOf ms)) * n + (rank i + 1) ≤ limit * n + n :=
        Nat.add_le_add (Nat.mul_le_mul_right n (Nat.sub_le limit _)) hi
    _ = n * (limit + 1) := by rw [Nat.mul_add, Nat.mul_one, Nat.mul_comm]
    _ ≤ n * (limit + 1) * ((g.productions.size + 1) * (count + 1) * Nat.pow n limit) :=
        Nat.le_mul_of_pos_right _ hpos
    _ = n * (g.productions.size + 1) * (limit + 1) * (count + 1) * Nat.pow n limit := by ring
    _ ≤ _ := Countdown.le_steps_geometric _ _ _

/-- **FIRST without a bound on the depth** carries matches along the way through a node. -/
lemma carried_first (hg : g.Predictive) (hcond : Unconditional g semantic) (hne : ms ≠ [])
    (hshort : Short limit ms) (i : NodeId) :
    Carried limit semantic [] [] (first g ms i) (g.reading [i]) ms := by
  obtain ⟨rank, hle, hrank⟩ := Grammar.exists_corner_rank hg.noLeftRecursion
  intro e hlimit hsem hactive
  refine carried_firstWithin hg hcond hle hrank (firstDepth g e.limit ms.length) hne hshort
    (guarded_nil g ms i) ?_ e hlimit hsem hactive
  rw [hlimit]
  exact firstBudget_le_firstDepth hle ms.length ms i

/-- In a grammar that can be expanded from the top, what is set aside are words cut at the limit.

**Proof sketch.** What is set aside is the beginning of a word, and in such a grammar every beginning is
one of a whole word. A match that reaches the limit is cut there. -/
lemma Carries.sends {row : List NodeId} {out : List PartialMatch} {aside : List TokenSeq}
    (h : Carries limit (g.reading row) ms out aside) (hg : g.TopDown) (hshort : Short limit ms) :
    Sends limit (g.words row) ms out aside := by
  refine ⟨h.mem_out, fun t => ?_⟩
  rw [h.mem_aside]
  constructor
  · rintro ⟨m, hm, w, hw, rfl, hlen⟩
    obtain ⟨v, hv, hpre⟩ := hg.exists_word hw
    have hpre' : m.tokens ++ w <+: m.tokens ++ v := (List.prefix_append_right_inj _).mpr hpre
    refine ⟨m, hm, v, hv, hlen ▸ hpre'.length_le, ?_⟩
    rw [← hlen]
    exact List.prefix_iff_eq_take.mp hpre'
  · rintro ⟨m, hm, w, hw, hle, rfl⟩
    have hlt := hshort m hm
    rw [List.length_append] at hle
    have htake : (m.tokens ++ w).take limit = m.tokens ++ w.take (limit - m.tokens.length) := by
      rw [List.take_append, List.take_of_length_le hlt.le]
    have hne : w.take (limit - m.tokens.length) ≠ [] := by
      rw [← List.length_pos_iff, List.length_take]
      omega
    have hw' : w ≠ [] := fun hnil => hne (by rw [hnil, List.take_nil])
    refine ⟨m, hm, _, (Grammar.Derives.opens hw hw').cut (List.take_prefix _ _) hne, htake, ?_⟩
    rw [List.length_take, List.length_append]
    omega

/-- FIRST sends matches through the words of a node. -/
lemma sent_first (hg : g.TopDown) (hne : ms ≠ []) (hshort : Short limit ms) (i : NodeId) :
    Sent limit [] [] (first g ms i) (g.words [i]) ms := by
  intro e hlimit hsem hactive
  obtain ⟨out, aside, hrun, hcarries⟩ :=
    carried_first hg.predictive (unconditional_false g) hne hshort i e hlimit hsem hactive
  exact ⟨out, aside, hrun, hcarries.sends hg hshort⟩

end

/-! ## The sequences of FIRST -/

/-- What is collected has come out or has been set aside. -/
lemma mem_collect {r : List PartialMatch × Engine} {w : TokenSeq} :
    w ∈ (collect r).1 ↔ w ∈ tokensOf r.1 ∨ w ∈ r.2.limited := by
  rw [collect, takeLimited, mem_sortedSet, List.mem_append]
  exact or_congr_right Array.mem_toList_iff

/-- A list of one empty match is short. -/
lemma short_start {k : Nat} (hk : 1 ≤ k) : Short k start := by
  intro m hm
  rw [List.mem_singleton.mp hm]
  exact hk

/-- **FIRST is exact.** In a grammar that can be expanded from the top, the sequences of FIRST up to
`k` tokens are the beginnings of the derived sequences, cut at `k` tokens; conditions at run time
are not considered. No production is being expanded afterwards, as before.

**Proof sketch.** FIRST starts with one empty match; it sends the words that are shorter than the limit
and sets aside the others, cut at the limit. Both are collected. -/
theorem mem_firstSequences {g : Grammar} (hg : g.TopDown) {e : Engine}
    (hsem : e.considerSemantic = false) (hactive : e.active = []) (i : NodeId) {k : Nat}
    (hk : 1 ≤ k) :
    (∀ w, w ∈ (e.firstSequences g i k).1 ↔ ∃ v ∈ g.words [i], v.take k = w) ∧
      (e.firstSequences g i k).2.active = [] := by
  set e₀ := (e.setLimit k).takeLimited.2 with he₀
  have hlimit : e₀.limit = k := Nat.max_eq_left hk
  have hne : start ≠ [] := List.cons_ne_nil _ _
  obtain ⟨out, aside, hfirst, hsends⟩ :=
    sent_first hg hne (short_start hk) i e₀ hlimit hsem hactive
  have hrun : e.firstSequences g i k = collect (out, e₀.withAside aside) := by
    rw [firstSequences, ← he₀, firstSet, hfirst, Option.getD_some]
  have hlimited : ∀ w, w ∈ (e₀.withAside aside).limited ↔ w ∈ aside := by
    intro w
    simp [withAside, he₀, takeLimited]
  rw [hrun]
  refine ⟨fun w => ?_, hactive⟩
  rw [List.nil_append] at hsends
  rw [mem_collect, hlimited, List.mem_map, hsends.mem_aside]
  simp only [hsends.mem_out, start, List.mem_singleton, exists_eq_left]
  constructor
  · rintro (⟨x, ⟨v, hv, rfl, hlt⟩, rfl⟩ | ⟨v, hv, hle, rfl⟩)
    · exact ⟨v, hv, List.take_of_length_le hlt.le⟩
    · exact ⟨v, hv, rfl⟩
  · rintro ⟨v, hv, rfl⟩
    rcases Nat.lt_or_ge v.length k with hlt | hge
    · exact Or.inl ⟨_, ⟨v, hv, rfl, hlt⟩, (List.take_of_length_le hlt.le).symm⟩
    · exact Or.inr ⟨v, hv, hge, rfl⟩

/-- Words in nested brackets. -/
def nesting : Grammar :=
  let (opening, g) := Grammar.empty.literal "("
  let (inner, g) := g.nonterminal "S"
  let (closing, g) := g.literal ")"
  let (nested, g) := g.sequence [opening, inner, closing]
  let (word, g) := g.literal "x"
  let (body, g) := g.choice [nested, word]
  ((g.addProduction "S" body).2.link {}).1

/-- The nodes of the example; all others are actions. -/
lemma kind_nesting (i : NodeId) : nesting.kind i =
    [.token 1, .nonterminal "S" (some 0), .token 2, .lookahead { expansion := some 4 },
      .sequence [3, 0, 1, 2], .token 3, .lookahead { expansion := some 7 }, .sequence [6, 5],
      .choice [4, 7]].getD i (.action "") := by
  have hkinds : nesting.nodes.toList.map Node.kind = [.token 1, .nonterminal "S" (some 0), .token 2,
      .lookahead { expansion := some 4 }, .sequence [3, 0, 1, 2], .token 3,
      .lookahead { expansion := some 7 }, .sequence [6, 5], .choice [4, 7]] := by decide +kernel
  rw [← hkinds, Grammar.kind, Grammar.node, List.getD_eq_getElem?_getD, List.getElem?_map,
    Array.getElem?_toList, Array.getD_eq_getD_getElem?]
  cases nesting.nodes[i]? <;> rfl

/-- The nesting grammar has nine nodes. -/
lemma lt_of_kind_nesting {i : NodeId} (h : ∀ code, nesting.kind i ≠ .action code) : i < 9 := by
  have hsize : nesting.nodes.size = 9 := by decide +kernel
  exact hsize ▸ Grammar.lt_size_of_kind h

/-- Its only right side is its last node. -/
lemma body_nesting {p : Nat} {root : NodeId} (h : nesting.body p = some root) : root = 8 := by
  have hbodies : ∀ q ∈ nesting.productions.toList, q.expansion = some 8 := by decide +kernel
  rw [Grammar.body, Grammar.production, Array.getD_eq_getD_getElem?] at h
  cases hp : nesting.productions[p]? with
  | none =>
    rw [hp] at h
    cases h
  | some q =>
    rw [hp, Option.getD_some, hbodies q (Array.mem_toList_iff.mpr (Array.mem_of_getElem? hp))] at h
    exact (Option.some_inj.mp h).symm

/-- What each node can begin with has a lower rank.

**Proof sketch.** Node by node, along the ways in which a node can begin with another one. -/
lemma leftCorner_nesting {i j : NodeId} (h : nesting.LeftCorner i j) :
    [0, 3, 0, 0, 1, 0, 0, 1, 2].getD j 0 < [0, 3, 0, 0, 1, 0, 0, 1, 2].getD i 0 := by
  have hi : i < 9 := lt_of_kind_nesting fun code hk => by
    cases h <;> simp_all [NodeKind.loopBody?]
  have hopening : [] ∉ nesting.words [0] := by
    rw [Grammar.mem_words_token (kind_nesting 0)]
    simp
  cases h with
  | production hk hroot =>
    rw [kind_nesting] at hk
    rw [body_nesting hroot]
    interval_cases i <;> simp at hk ⊢
  | alternative hk ha =>
    rw [kind_nesting] at hk
    interval_cases i <;> simp at hk
    subst hk
    simp only [List.mem_cons, List.not_mem_nil, or_false] at ha
    rcases ha with rfl | rfl <;> decide
  | @unit _ before after hk hnil =>
    rw [kind_nesting] at hk
    interval_cases i <;> simp at hk
    · rcases before with _ | ⟨a, _ | ⟨b, before⟩⟩
      · cases hk
        decide
      · cases hk
        decide
      · simp only [List.cons_append, List.cons.injEq] at hk
        obtain ⟨rfl, rfl, -⟩ := hk
        exact absurd hnil (Grammar.nil_notMem_words (by simp) hopening)
    · rcases before with _ | ⟨a, _ | ⟨b, before⟩⟩
      · cases hk
        decide
      · cases hk
        decide
      · simp at hk
  | body hb =>
    rw [kind_nesting] at hb
    interval_cases i <;> simp [NodeKind.loopBody?] at hb

/-- The nesting grammar can be expanded from the top.

**Proof sketch.** The children of a node have lower numbers, and what a node can begin with has a lower
rank; the rest is read off the nodes. -/
lemma topDown_nesting : nesting.TopDown where
  acyclic := by
    have hall : ∀ i < 9, ∀ j ∈ nesting.children i, j < i := by decide +kernel
    refine not_transGen_self id fun i j hj => hall i (lt_of_kind_nesting fun code hk => ?_) j hj
    simp [Grammar.children, hk, NodeKind.parts, NodeKind.scanned?] at hj
  resolved := by
    intro i name p hk
    have hi := lt_of_kind_nesting (i := i) (by simp [hk])
    rw [kind_nesting] at hk
    interval_cases i <;> simp at hk
    obtain ⟨rfl, rfl⟩ := hk
    exact ⟨0, 8, rfl, by decide +kernel⟩
  choices := by
    intro i alternatives hk
    have hi := lt_of_kind_nesting (i := i) (by simp [hk])
    rw [kind_nesting] at hk
    interval_cases i <;> simp at hk
    simp [← hk]
  productive := by
    intro p root hroot
    rw [body_nesting hroot]
    refine ⟨[3], (Grammar.mem_words_choice (kind_nesting 8)).mpr ⟨7, by simp, ?_⟩⟩
    rw [Grammar.words_sequence (kind_nesting 7)]
    exact .expand (.lookahead (kind_nesting 6)) (.token (kind_nesting 5) .nil)
  noLeftRecursion := fun _ =>
    not_transGen_self (fun i => [0, 3, 0, 0, 1, 0, 0, 1, 2].getD i 0) (fun _ _ => leftCorner_nesting) _

/-- In the nesting grammar FIRST up to two tokens gives the beginnings of words, cut at two tokens. -/
theorem mem_firstSequences_nesting : nesting.TopDown ∧ (new nesting).considerSemantic = false ∧
    (new nesting).active = [] ∧
    (∀ w, w ∈ ((new nesting).firstSequences nesting 8 2).1 ↔
      ∃ v ∈ nesting.words [8], v.take 2 = w) ∧
      ((new nesting).firstSequences nesting 8 2).2.active = [] :=
  ⟨topDown_nesting, rfl, rfl, mem_firstSequences topDown_nesting rfl rfl 8 (by decide)⟩

end GrammarForge
