import GrammarForge.Lookahead.Conflict
import GrammarForge.Proofs.FollowWalk
import Mathlib.Data.List.FinRange
import Mathlib.Data.List.GetD
import Mathlib.Order.Bounds.Basic
import Mathlib.Order.CompletePartialOrder

set_option autoImplicit false

/-!
# Conflicts between alternatives

The check of a choice compares what the alternatives can begin with, in sequences of one token, two
tokens and so on. It stops at the first depth at which all alternatives differ, or at the bound, and
keeps the last agreement of each alternative. This finds the lookahead that each alternative needs,
because alternatives that agree at one depth agree at every lower one.

## Main definitions

* `Engine.beginnings` — the sequences of FIRST that are as long as the limit.
* `ToldApart`, `FirstMeeting` — an alternative differs from all later ones, or agrees with one.
* `Recorded` — what is known of the alternatives before a depth.
* `ChoiceDiagnosis` — what the conflict of an alternative says.

## Main results

* `take_mem_beginnings` — beginnings are closed under cutting.
* `firstOf_spec` — what a check gathers from an expansion.
* `overlap?_lists` — the comparison of sequences of the same length.
* `deepen_spec` — the last agreement is kept through the loop.
* `checkChoice_conflicts` — choices are diagnosed exactly.
-/

namespace GrammarForge

open Engine Checker

/-! ## What an expansion can begin with -/

/-- The sequences of FIRST up to `d` tokens that have `d` tokens. -/
def Engine.beginnings (g : Grammar) (d : Nat) (i : NodeId) : Set TokenSeq :=
  {t | t ∈ ((Engine.new g).firstSequences g i d).1 ∧ t.length = d}

section

variable {g : Grammar} {d : Nat} {i : NodeId} {semantic : Bool} {e : Engine} {t : TokenSeq}

/-- FIRST, begun with an empty match, sets the openings aside that are as long as the limit. -/
lemma firstSet_start (hg : g.Predictive) (hcond : Unconditional g semantic)
    (hsem : e.considerSemantic = semantic) (hactive : e.active = []) (hlimit : 1 ≤ e.limit)
    (i : NodeId) : ∃ out aside, e.firstSet g start i = (out, e.withAside aside) ∧
      Short e.limit out ∧ ∀ t, t ∈ aside ↔ t ∈ g.openings [i] ∧ t.length = e.limit := by
  have hne : start ≠ [] := List.cons_ne_nil _ _
  obtain ⟨out, aside, hrun, hcarries⟩ :=
    carried_first hg hcond hne (short_start hlimit) i e rfl hsem hactive
  refine ⟨out, aside, by rw [firstSet, hrun, Option.getD_some], hcarries.short, fun t => ?_⟩
  rw [List.nil_append] at hcarries
  rw [hcarries.mem_aside]
  simp [start]

/-- Beginnings are the openings of their length.

**Proof sketch.** FIRST starts with an empty match and an engine set up for this depth; what it finds of
this length has been set aside, and these are the openings of this length. -/
lemma mem_beginnings (hg : g.Predictive) (hd : 1 ≤ d) :
    t ∈ beginnings g d i ↔ t ∈ g.openings [i] ∧ t.length = d := by
  set e₀ := ((Engine.new g).setLimit d).takeLimited.2 with he₀
  have hlimit : e₀.limit = d := Nat.max_eq_left hd
  obtain ⟨out, aside, hrun, hshort, haside⟩ := firstSet_start (e := e₀) hg (unconditional_false g) rfl
    rfl (hd.trans_eq hlimit.symm) i
  have hlimited : t ∈ (e₀.withAside aside).limited ↔ t ∈ aside := by
    simp [withAside, he₀, takeLimited]
  show t ∈ (collect (e₀.firstSet g start i)).1 ∧ t.length = d ↔ _
  rw [hrun, mem_collect, hlimited, haside, hlimit]
  constructor
  · rintro ⟨hout | ht, hlen⟩
    · obtain ⟨m, hm, rfl⟩ := List.mem_map.mp hout
      have hlt := hshort m hm
      omega
    · exact ht
  · exact fun ht => ⟨Or.inr ht, ht.2⟩

/-- **Beginnings are closed under cutting.** -/
lemma take_mem_beginnings (hg : g.Predictive) {d' : Nat} (hd : 1 ≤ d) (hle : d ≤ d')
    (h : t ∈ beginnings g d' i) : t.take d ∈ beginnings g d i := by
  obtain ⟨hopens, hlen⟩ := (mem_beginnings hg (hd.trans hle)).mp h
  have hlen' : (t.take d).length = d := List.length_take_of_le (hlen ▸ hle)
  refine (mem_beginnings hg hd).mpr ⟨Grammar.Opens.cut hopens (List.take_prefix d t) ?_, hlen'⟩
  rw [← List.length_pos_iff, hlen']
  exact hd

/-- A list holds the sequences of a set. -/
def Lists (seqs : List TokenSeq) (E : Set TokenSeq) : Prop := ∀ t, t ∈ seqs ↔ t ∈ E

/-- **What a check gathers from an expansion**: the beginnings of the length of the limit. -/
lemma firstOf_spec (hg : g.Predictive) (hcond : Unconditional g semantic) (he : e.Idle)
    (hlimit : 1 ≤ e.limit) (i : NodeId) :
    Lists (firstOf g semantic e i).1 (beginnings g e.limit i) ∧ (firstOf g semantic e i).2.Idle ∧
      (firstOf g semantic e i).2.limit = e.limit ∧ (firstOf g semantic e i).2.limited = #[] := by
  set e₀ := { e with considerSemantic := semantic }.takeLimited.2 with he₀
  obtain ⟨out, aside, hrun, -, haside⟩ := firstSet_start (e := e₀) hg hcond rfl he.active hlimit i
  have hfirst : firstOf g semantic e i = (e₀.withAside aside).takeLimited := by
    show (e₀.firstSet g start i).2.takeLimited = _
    rw [hrun]
  rw [hfirst]
  refine ⟨fun t => ?_, ⟨he.active, he.following, he.stamps⟩, rfl, rfl⟩
  rw [mem_beginnings hg hlimit]
  refine Iff.trans ?_ (haside t)
  simp [takeLimited, withAside, he₀]

end

/-! ## Comparing sequences of the same length -/

section

variable {a b : TokenSeq} {left right : List TokenSeq} {d : Nat}

/-- Sequences of the same length agree if they are the same. -/
lemma agreement?_eq (h : a.length = b.length) :
    a.agreement? b = if a = b then some a else none := by
  have ha : a.take a.length = a := List.take_length
  have hb : b.take a.length = b := by rw [h, List.take_length]
  simp only [TokenSeq.agreement?, h.le, if_true, ha, hb]

/-- A sequence overlaps with a list of sequences of its length if it is in the list.

**Proof sketch.** Induction on the list. Neither of two sequences of the same positive length is empty,
so that comparing them is testing whether they are the same. -/
lemma overlapWith?_eq (hd : 1 ≤ d) (ha : a.length = d) : ∀ {right : List TokenSeq},
    (∀ b ∈ right, b.length = d) →
      overlapWith? a right = if a ∈ right then some (some a) else none
  | [], _ => rfl
  | b :: right, h => by
    have hb : b.length = d := h b List.mem_cons_self
    have hempty : (a.isEmpty || b.isEmpty) = false := by
      rw [List.isEmpty_eq_false_iff.mpr (List.ne_nil_of_length_pos (by omega)),
        List.isEmpty_eq_false_iff.mpr (List.ne_nil_of_length_pos (by omega))]
      rfl
    have ih := overlapWith?_eq hd ha fun x hx => h x (List.mem_cons_of_mem b hx)
    rw [overlapWith?, hempty, if_neg Bool.false_ne_true, agreement?_eq (ha.trans hb.symm)]
    by_cases hab : a = b
    · simp [hab]
    · simp [hab, ih]

/-- **The comparison of sequences of the same length** finds one that both sides have, if there is
one.

**Proof sketch.** Since all lengths are the same, comparing is looking for a member; so nothing is found
just if no member of one side is in the other. -/
lemma overlap?_lists {E F : Set TokenSeq} (hd : 1 ≤ d) (hleft : Lists left E)
    (hright : Lists right F) (hE : ∀ t ∈ E, t.length = d) (hF : ∀ t ∈ F, t.length = d) :
    (overlap? left right = none → Disjoint E F) ∧ ∀ t, overlap? left right = some t → t ∈ E ∩ F := by
  have hwith : ∀ a ∈ left, overlapWith? a right = if a ∈ right then some (some a) else none :=
    fun a ha => overlapWith?_eq hd (hE a ((hleft a).mp ha)) fun b hb => hF b ((hright b).mp hb)
  rw [overlap?]
  cases hfind : left.findSome? fun a => overlapWith? a right with
  | none =>
    refine ⟨fun _ => Set.disjoint_left.mpr fun t htE htF => ?_, fun t h => by cases h⟩
    have hnone := List.findSome?_eq_none_iff.mp hfind t ((hleft t).mpr htE)
    rw [hwith t ((hleft t).mpr htE), if_pos ((hright t).mpr htF)] at hnone
    cases hnone
  | some found =>
    obtain ⟨a, ha, hfound⟩ := List.exists_of_findSome?_eq_some hfind
    rw [hwith a ha] at hfound
    split_ifs at hfound with hmem
    obtain rfl := Option.some_inj.mp hfound
    refine ⟨fun h => ?_, fun t h => ?_⟩
    · cases h
    · obtain rfl := Option.some_inj.mp h
      exact ⟨(hleft _).mp ha, (hright _).mp hmem⟩

end

/-! ## Alternatives and their agreements -/

section

variable (g : Grammar) (alternatives : List NodeId)

/-- The beginnings of the alternative at an index. -/
def startsOf (d i : Nat) : Set TokenSeq := beginnings g d (alternatives.getD i 0)

/-- **An alternative differs from all later ones** in the first `d` tokens. -/
def ToldApart (d i : Nat) : Prop :=
  ∀ j, i < j → j < alternatives.length →
    Disjoint (startsOf g alternatives d i) (startsOf g alternatives d j)

/-- **An alternative agrees with a later one** in the first `d` tokens, and with none before it. -/
structure FirstMeeting (d i : Nat) (a : Agreement) : Prop where
  later : i < a.other
  lt_length : a.other < alternatives.length
  common : a.common ∈ startsOf g alternatives d i ∩ startsOf g alternatives d a.other
  first : ∀ j, i < j → j < a.other →
    Disjoint (startsOf g alternatives d i) (startsOf g alternatives d j)

/-- **What is known of the alternatives before a depth is looked at**: an alternative without a
record differs from later ones in the first token, unless nothing has been looked at; with a record,
it agrees with a later one up to the recorded depth, and no further unless this is the last depth
looked at. -/
structure Recorded (depth : Nat) (found : Nat → Option Agreement) : Prop where
  unmet : ∀ {i}, i + 1 < alternatives.length → found i = none →
    depth = 1 ∨ ToldApart g alternatives 1 i
  met : ∀ {i a}, i + 1 < alternatives.length → found i = some a →
    2 ≤ a.required ∧ a.required ≤ depth ∧ FirstMeeting g alternatives (a.required - 1) i a ∧
      (a.required = depth ∨ ToldApart g alternatives a.required i)

end

section

variable {g : Grammar} {alternatives : List NodeId} {d i : Nat}

/-- The starts of an alternative have the length of the depth. -/
lemma length_of_mem_startsOf {t : TokenSeq} (h : t ∈ startsOf g alternatives d i) : t.length = d := h.2

/-- **Alternatives that differ at one depth differ at every greater one.** -/
lemma ToldApart.mono (hg : g.Predictive) (h : ToldApart g alternatives d i) (hd : 1 ≤ d) {d' : Nat}
    (hle : d ≤ d') : ToldApart g alternatives d' i := by
  intro j hij hj
  refine Set.disjoint_left.mpr fun t hti htj => ?_
  exact Set.disjoint_left.mp (h j hij hj) (take_mem_beginnings hg hd hle hti)
    (take_mem_beginnings hg hd hle htj)

/-- Where an alternative meets a later one it is not told apart. -/
lemma FirstMeeting.not_apart {a : Agreement} (h : FirstMeeting g alternatives d i a) :
    ¬ ToldApart g alternatives d i := by
  intro hapart
  exact Set.disjoint_left.mp (hapart a.other h.later h.lt_length) h.common.1 h.common.2

/-! ## Tables by index -/

/-- The entries of a table for the indices below `n`, with their indices. -/
def table {α : Type} (n : Nat) (f : Nat → Option α) : List (Nat × α) :=
  (List.range n).filterMap fun i => (f i).map fun a => (i, a)

/-- A record without entries is empty. -/
lemma table_none {α : Type} (n : Nat) : table n (fun _ => (none : Option α)) = [] := by
  simp [table]

/-- Looking up a record.

**Proof sketch.** Induction on its length: the last entry is behind all others, and the look-up of an
earlier one is not changed by it. -/
lemma lookup_table {α : Type} (f : Nat → Option α) (i n : Nat) :
    (table n f).lookup i = if i < n then f i else none := by
  induction n with
  | zero => rfl
  | succ n ih =>
    rw [table, List.range_succ, List.filterMap_append, List.lookup_append, ← table, ih]
    have hlast : ([n].filterMap fun i => (f i).map fun a => (i, a)).lookup i =
        if i = n then f n else none := by
      cases hf : f n with
      | none => simp [hf]
      | some a =>
        by_cases hin : i = n
        · simp [hf, hin]
        · simp [hf, hin, List.lookup_cons, beq_eq_false_iff_ne.mpr hin]
    rw [hlast]
    rcases Nat.lt_trichotomy i n with hlt | rfl | hgt
    · simp [hlt, hlt.ne, Nat.lt_succ_of_lt hlt]
    · simp
    · simp [hgt.ne', Nat.not_lt.mpr hgt.le, Nat.not_lt.mpr (Nat.succ_le_of_lt hgt)]

/-- A list put beside the indices it is known by. -/
lemma zip_range {α : Type} (f : Nat → Nat) (fill : α) {n : Nat} {ys : List α} (h : ys.length ≤ n) :
    ((List.range n).map f).zip ys = (List.range ys.length).map fun k => (f k, ys.getD k fill) := by
  refine List.ext_getElem (by simpa using h) fun k hk hk' => ?_
  have hlt : k < ys.length := by simpa using hk'
  rw [List.getElem_map, List.getElem_range, List.getD_eq_getElem ys fill hlt]
  simp

end

/-! ## One depth -/

section

variable {g : Grammar} {alternatives : List NodeId} {d : Nat}

/-- The sequences gathered from several expansions. -/
def Gathers (g : Grammar) (d : Nat) (ids : List NodeId) (seqs : List (List TokenSeq)) : Prop :=
  seqs.length = ids.length ∧ ∀ k < ids.length, Lists (seqs.getD k []) (beginnings g d (ids.getD k 0))

/-- FIRST of several nodes gathers their beginnings.

**Proof sketch.** Induction on the nodes; the limit of the engine stays, and what one FIRST has set
aside is taken before the next one. -/
lemma firstOfEach_spec {semantic : Bool} (hg : g.Predictive) (hcond : Unconditional g semantic)
    (hd : 1 ≤ d) (ids : List NodeId) : ∀ {e : Engine}, e.Idle → e.limit = d →
      Gathers g d ids (firstOfEach g semantic e ids).1 ∧ (firstOfEach g semantic e ids).2.Idle ∧
        (firstOfEach g semantic e ids).2.limit = d := by
  induction ids with
  | nil => exact fun he hlimit => ⟨⟨rfl, fun k hk => absurd hk (Nat.not_lt_zero k)⟩, he, hlimit⟩
  | cons id ids ih =>
    intro e he hlimit
    obtain ⟨hone, he₁, hlimit₁, -⟩ := firstOf_spec hg hcond he (hd.trans_eq hlimit.symm) id
    rw [hlimit] at hone hlimit₁
    obtain ⟨⟨hlen, hall⟩, he₂, hlimit₂⟩ := ih he₁ hlimit₁
    refine ⟨⟨congrArg Nat.succ hlen, fun k hk => ?_⟩, he₂, hlimit₂⟩
    cases k with
    | zero => exact hone
    | succ k => exact hall k (Nat.lt_of_succ_lt_succ hk)

/-- Without an agreement nothing overlaps. -/
lemma firstAgreement?_eq_none {left : List TokenSeq} {rest : List (Nat × List TokenSeq)}
    (h : firstAgreement? left d rest = none) : ∀ r ∈ rest, overlap? left r.2 = none := by
  induction rest with
  | nil => simp
  | cons r rest ih =>
    rw [firstAgreement?] at h
    cases hr : overlap? left r.2 with
    | some common =>
      rw [hr] at h
      cases h
    | none =>
      rw [hr] at h
      exact List.forall_mem_cons.mpr ⟨hr, ih h⟩

/-- The first agreement comes after alternatives that there is no agreement with.

**Proof sketch.** Induction on the later alternatives: the first one that overlaps is taken, and those
before it do not overlap. -/
lemma firstAgreement?_eq_some {left : List TokenSeq} {rest : List (Nat × List TokenSeq)}
    {a : Agreement} (h : firstAgreement? left d rest = some a) : a.required = d + 1 ∧
      ∃ before right after, rest = before ++ (a.other, right) :: after ∧
        (∀ r ∈ before, overlap? left r.2 = none) ∧ overlap? left right = some a.common := by
  induction rest with
  | nil => cases h
  | cons r rest ih =>
    rw [firstAgreement?] at h
    cases hr : overlap? left r.2 with
    | some common =>
      rw [hr] at h
      obtain rfl := Option.some_inj.mp h
      exact ⟨rfl, [], r.2, rest, rfl, by simp, hr⟩
    | none =>
      rw [hr] at h
      obtain ⟨hrequired, before, right, after, rfl, hbefore, hright⟩ := ih h
      exact ⟨hrequired, r :: before, right, after, rfl, List.forall_mem_cons.mpr ⟨hr, hbefore⟩, hright⟩

/-- The later alternatives that an alternative is compared with, in order. -/
def laterThan (i : Nat) (right : List (List TokenSeq)) : List (Nat × List TokenSeq) :=
  ((List.range right.length).map fun k => (k + 1, right.getD k [])).filter fun r => i < r.1

/-- The later alternatives, each with its sequences. -/
lemma mem_laterThan {i : Nat} {right : List (List TokenSeq)} {r : Nat × List TokenSeq} :
    r ∈ laterThan i right ↔ i < r.1 ∧ ∃ k < right.length, r = (k + 1, right.getD k []) := by
  simp only [laterThan, List.mem_filter, List.mem_map, List.mem_range, decide_eq_true_eq]
  constructor
  · rintro ⟨⟨k, hk, rfl⟩, hlt⟩
    exact ⟨hlt, k, hk, rfl⟩
  · rintro ⟨hlt, k, hk, rfl⟩
    exact ⟨⟨k, hk, rfl⟩, hlt⟩

/-- The later alternatives come in their order. -/
lemma pairwise_laterThan (i : Nat) (right : List (List TokenSeq)) :
    (laterThan i right).Pairwise fun r r' => r.1 < r'.1 := by
  refine List.Pairwise.filter _ (List.pairwise_map.mpr ?_)
  exact List.pairwise_lt_range.imp fun hlt => Nat.succ_lt_succ hlt

/-- **One alternative against the later ones**: without an agreement it differs from all of them, and
an agreement is one with the first that it meets.

**Proof sketch.** Without an agreement the comparison with every later alternative has found nothing.
The first agreement is that with the first later alternative that shares something, since those before
have been compared. -/
lemma firstAgreement?_spec (hd : 1 ≤ d) {i : Nat} {left : List TokenSeq}
    {right : List (List TokenSeq)} (hleft : Lists left (startsOf g alternatives d i))
    (hlen : right.length = alternatives.length - 1)
    (hright : ∀ k < right.length, Lists (right.getD k []) (startsOf g alternatives d (k + 1))) :
    (firstAgreement? left d (laterThan i right) = none → ToldApart g alternatives d i) ∧
      ∀ a, firstAgreement? left d (laterThan i right) = some a →
        a.required = d + 1 ∧ FirstMeeting g alternatives d i a := by
  have hcompare : ∀ k < right.length, _ := fun k hk =>
    overlap?_lists hd hleft (hright k hk) (fun _ => length_of_mem_startsOf)
      fun _ => length_of_mem_startsOf
  have hmem : ∀ j, i < j → j < alternatives.length →
      j - 1 < right.length ∧ (j, right.getD (j - 1) []) ∈ laterThan i right := by
    intro j hij hj
    have hk : j - 1 < right.length := by omega
    refine ⟨hk, mem_laterThan.mpr ⟨hij, j - 1, hk, ?_⟩⟩
    rw [Nat.sub_add_cancel (Nat.one_le_of_lt hij)]
  -- no agreement with the alternative at an index means that it differs
  have hapart : ∀ j, i < j → j < alternatives.length →
      overlap? left (right.getD (j - 1) []) = none →
      Disjoint (startsOf g alternatives d i) (startsOf g alternatives d j) := by
    intro j hij hj hnone
    have hdisjoint := (hcompare _ (hmem j hij hj).1).1 hnone
    rwa [Nat.sub_add_cancel (Nat.one_le_of_lt hij)] at hdisjoint
  refine ⟨fun hnone j hij hj => ?_, fun a ha => ?_⟩
  · exact hapart j hij hj (firstAgreement?_eq_none hnone _ (hmem j hij hj).2)
  · obtain ⟨hrequired, before, seqs, after, hsplit, hbefore, hcommon⟩ := firstAgreement?_eq_some ha
    have hother : (a.other, seqs) ∈ laterThan i right := by
      rw [hsplit]
      exact List.mem_append_right _ List.mem_cons_self
    obtain ⟨hlater, k, hk, heq⟩ := mem_laterThan.mp hother
    obtain ⟨hindex, rfl⟩ := Prod.mk.inj heq
    refine ⟨hrequired, hlater, by omega, ?_, fun j hij hj => ?_⟩
    · rw [hindex]
      exact (hcompare k hk).2 _ hcommon
    · -- an alternative with a lower index stands before the one that was found
      have hj' : j < alternatives.length := by omega
      have hordered := pairwise_laterThan i right
      have hjmem := (hmem j hij hj').2
      rw [hsplit] at hordered hjmem
      refine hapart j hij hj' (hbefore (j, right.getD (j - 1) []) ?_)
      rcases List.mem_append.mp hjmem with hjbefore | hjafter
      · exact hjbefore
      · rcases List.mem_cons.mp hjafter with hjeq | hjafter
        · exact absurd (Prod.mk.inj hjeq).1 hj.ne
        · have hgt := (List.pairwise_cons.mp (List.pairwise_append.mp hordered).2.1).1 _ hjafter
          exact absurd hgt (Nat.not_lt.mpr hj.le)

/-- **The agreements of all alternatives** at a depth.

**Proof sketch.** The left and the right lists are numbered, so that the entry of an alternative
compares its own list with those of the later ones. -/
lemma agreements_spec (hd : 1 ≤ d) {left right : List (List TokenSeq)}
    (hleft : Gathers g d alternatives.dropLast left)
    (hright : Gathers g d alternatives.tail right) :
    ∃ new : Nat → Option Agreement,
      agreements d ((List.range alternatives.length).zip left)
        ((List.range alternatives.length).tail.zip right) =
          (List.range (alternatives.length - 1)).map (fun i => (i, new i)) ∧
      ∀ i, i + 1 < alternatives.length → (new i = none → ToldApart g alternatives d i) ∧
        ∀ a, new i = some a → a.required = d + 1 ∧ FirstMeeting g alternatives d i a := by
  obtain ⟨hlen, hlists⟩ := hleft
  obtain ⟨hlen', hlists'⟩ := hright
  rw [List.length_dropLast] at hlen hlists
  rw [List.length_tail] at hlen' hlists'
  refine ⟨fun i => firstAgreement? (left.getD i []) d (laterThan i right), ?_, fun i hi => ?_⟩
  · have hfirst : (List.range alternatives.length).zip left =
        (List.range left.length).map fun k => (k, left.getD k []) := by
      have hzip : ((List.range alternatives.length).map id).zip left = _ :=
        zip_range id [] (by omega)
      rwa [List.map_id] at hzip
    have hrange : (List.range alternatives.length).tail =
        (List.range (alternatives.length - 1)).map (· + 1) := by
      cases alternatives.length with
      | zero => rfl
      | succ n => rw [List.range_succ_eq_map, List.tail_cons, Nat.add_sub_cancel]
    have hsecond : (List.range alternatives.length).tail.zip right =
        (List.range right.length).map fun k => (k + 1, right.getD k []) := by
      rw [hrange, zip_range (· + 1) [] (by omega)]
    rw [agreements, hfirst, hsecond, List.map_map, hlen]
    rfl
  · have hget : alternatives.dropLast.getD i 0 = alternatives.getD i 0 := by
      rw [List.getD_eq_getElem?_getD, List.getElem?_dropLast, if_pos (by omega),
        ← List.getD_eq_getElem?_getD]
    have hget' : ∀ k, alternatives.tail.getD k 0 = alternatives.getD (k + 1) 0 := by
      intro k
      rw [List.getD_eq_getElem?_getD, List.getElem?_tail, ← List.getD_eq_getElem?_getD]
    refine firstAgreement?_spec hd ?_ hlen' fun k hk => ?_
    · have hi' := hlists i (by omega)
      rwa [hget] at hi'
    · have hk' := hlists' k (by omega)
      rwa [hget'] at hk'

end

/-! ## The loop -/

section

variable {g : Grammar} {alternatives : List NodeId} {depth : Nat} {found new : Nat → Option Agreement}

/-- **The record after a depth has been looked at.**

**Proof sketch.** An alternative that has met a later one at this depth gets this depth as its record;
another one keeps its record, and it is told apart at this depth. -/
lemma Recorded.step (h : Recorded g alternatives depth found) (hd : 1 ≤ depth)
    (hnew : ∀ i, i + 1 < alternatives.length → (new i = none → ToldApart g alternatives depth i) ∧
      ∀ a, new i = some a → a.required = depth + 1 ∧ FirstMeeting g alternatives depth i a) :
    Recorded g alternatives (depth + 1) fun i => (new i).or (found i) := by
  refine ⟨fun {i} hi hnone => ?_, fun {i a} hi hsome => ?_⟩
  · obtain ⟨hnew', hfound⟩ := Option.or_eq_none_iff.mp hnone
    rcases h.unmet hi hfound with rfl | hapart
    · exact Or.inr ((hnew i hi).1 hnew')
    · exact Or.inr hapart
  · cases hni : new i with
    | some a' =>
      simp only [hni, Option.some_or, Option.some_inj] at hsome
      obtain rfl := hsome
      obtain ⟨hrequired, hmeeting⟩ := (hnew i hi).2 a' hni
      rw [hrequired]
      exact ⟨by omega, le_rfl, hmeeting, Or.inl rfl⟩
    | none =>
      simp only [hni, Option.none_or] at hsome
      obtain ⟨htwo, hle, hmeeting, hlast⟩ := h.met hi hsome
      refine ⟨htwo, hle.trans (Nat.le_succ depth), hmeeting, Or.inr ?_⟩
      rcases hlast with heq | hapart
      · rw [heq]
        exact (hnew i hi).1 hni
      · exact hapart

/-- Updating the record is taking the new entries where there are some. -/
lemma updateAgreements_table (n : Nat) :
    updateAgreements (table n found) ((List.range n).map fun i => (i, new i)) =
      table n fun i => (new i).or (found i) := by
  rw [updateAgreements, List.filterMap_map]
  refine List.filterMap_congr fun i hi => ?_
  simp only [Function.comp_apply, lookup_table, if_pos (List.mem_range.mp hi)]

/-- No alternative is forced, if none matches nothing and all sequences have a token. -/
lemma findForced?_eq_none {pairs : List (NodeId × List TokenSeq)}
    (h : ∀ r ∈ pairs, g.isNullable r.1 = false ∧ ∀ t ∈ r.2, t ≠ []) : findForced? g pairs = none := by
  induction pairs with
  | nil => rfl
  | cons r pairs ih =>
    obtain ⟨hnullable, hseqs⟩ := h r List.mem_cons_self
    have hany : r.2.any List.isEmpty = false :=
      List.any_eq_false.mpr fun t ht => by simpa using hseqs t ht
    have hforced : forcedAlternative? g r.1 r.2 = none := by
      rw [forcedAlternative?, hnullable, hany]
      rfl
    rw [findForced?, hforced]
    exact ih fun r' hr' => h r' (List.mem_cons_of_mem r hr')

/-- The alternatives with their indices. -/
def indexed (alternatives : List NodeId) : List (Nat × NodeId) :=
  alternatives.zipIdx.map fun (id, i) => (i, id)

/-- Alternatives are numbered from zero. -/
lemma indexed_fst (alternatives : List NodeId) :
    (indexed alternatives).map Prod.fst = List.range alternatives.length := by
  rw [indexed, List.map_map]
  exact List.zipIdx_map_snd 0 alternatives |>.trans (List.range_eq_range' ..).symm

/-- Numbering keeps the alternatives. -/
lemma indexed_snd (alternatives : List NodeId) :
    (indexed alternatives).map Prod.snd = alternatives := by
  rw [indexed, List.map_map]
  exact List.zipIdx_map_fst 0 alternatives

/-- **The loop over the depths** keeps the last agreement of each alternative, and ends at a depth at
which all alternatives differ, or behind the bound.

**Proof sketch.** Induction on the rounds that are left; the record is kept by each step. -/
lemma deepen_spec (hg : g.Predictive) (force : Bool) (hcond : Unconditional g (!force))
    (hnullable : ∀ a ∈ alternatives.dropLast, g.isNullable a = false) {bound : Nat} (rounds : Nat) :
    ∀ {depth : Nat} {found : Nat → Option Agreement} {e : Engine}, 1 ≤ depth →
      depth + rounds = bound + 1 → Recorded g alternatives depth found → e.Idle →
      ∃ depth' found' e', deepen g force (indexed alternatives) rounds depth
          (table (alternatives.length - 1) found) e =
            (.ok (table (alternatives.length - 1) found'), e') ∧
        e'.Idle ∧ 1 ≤ depth' ∧ Recorded g alternatives depth' found' ∧
        (depth' = bound + 1 ∨
          depth' ≤ bound ∧ ∀ i, i + 1 < alternatives.length → ToldApart g alternatives depth' i) := by
  induction rounds with
  | zero =>
    intro depth found e hd hbound hrec he
    exact ⟨depth, found, e, rfl, he, hd, hrec, Or.inl hbound⟩
  | succ rounds ih =>
    intro depth found e hd hbound hrec he
    have hlimit : (e.setLimit depth).limit = depth := Nat.max_eq_left hd
    have hidle : (e.setLimit depth).Idle := ⟨he.active, he.following, he.stamps⟩
    obtain ⟨hleft, he₁, hlimit₁⟩ := firstOfEach_spec hg hcond hd alternatives.dropLast hidle hlimit
    obtain ⟨hright, he₂, -⟩ :=
      firstOfEach_spec hg (unconditional_false g) hd alternatives.tail he₁ hlimit₁
    set left := firstOfEach g (!force) (e.setLimit depth) alternatives.dropLast with hl
    set right := firstOfEach g false left.2 alternatives.tail with hr
    obtain ⟨new, hagree, hnew⟩ := agreements_spec hd hleft hright
    have hforced : findForced? g (alternatives.dropLast.zip left.1) = none := by
      refine findForced?_eq_none fun r hr => ?_
      obtain ⟨hid, hseqs⟩ := List.of_mem_zip hr
      refine ⟨hnullable _ hid, fun t ht hnil => ?_⟩
      obtain ⟨k, hk, hget⟩ := List.mem_iff_getElem.mp hseqs
      rw [← hget, ← List.getD_eq_getElem _ [] hk] at ht
      have hlen := ((hleft.2 k (hleft.1 ▸ hk) t).mp ht).2
      rw [hnil, List.length_nil] at hlen
      omega
    have hrun : deepen g force (indexed alternatives) (rounds + 1) depth
        (table (alternatives.length - 1) found) e =
        if ((List.range (alternatives.length - 1)).map fun i => (i, new i)).all fun a => a.2.isNone
        then (.ok (table (alternatives.length - 1) found), right.2)
        else deepen g force (indexed alternatives) rounds (depth + 1)
          (table (alternatives.length - 1) fun i => (new i).or (found i)) right.2 := by
      rw [deepen, List.map_dropLast, List.map_tail, indexed_fst, indexed_snd, ← hl]
      simp only [← hr, hforced, ite_self, hagree, updateAgreements_table]
    rw [hrun]
    split_ifs with hall
    · refine ⟨depth, found, right.2, rfl, he₂, hd, hrec, Or.inr ⟨by omega, fun i hi => ?_⟩⟩
      refine (hnew i hi).1 (Option.isNone_iff_eq_none.mp ?_)
      refine List.all_eq_true.mp hall (i, new i) (List.mem_map.mpr ⟨i, ?_, rfl⟩)
      exact List.mem_range.mpr (by omega)
    · exact ih (Nat.le_add_left 1 depth) (by omega) (hrec.step hd hnew) he₂

end

/-! ## The check -/

/-- **What the conflict of an alternative says**: the least lookahead that tells the alternative from
all later ones, or the one behind the bound; whether it is within the bound; and the first later
alternative that one token less does not tell from it, with tokens that both can begin with. -/
structure ChoiceDiagnosis (g : Grammar) (bound : Nat) (alternatives : List NodeId)
    (i : Fin alternatives.length) (c : Conflict) : Prop where
  node : c.node = alternatives.get i
  required : IsLeast {d | 2 ≤ d ∧ (bound < d ∨ ∀ j > i,
    Disjoint (beginnings g d (alternatives.get i)) (beginnings g d (alternatives.get j)))} c.required
  withinBound : c.withinBound = true ↔ c.required ≤ bound
  other : ∃ j > i, c.other = some (alternatives.get j) ∧
    c.common ∈ beginnings g (c.required - 1) (alternatives.get i) ∩
      beginnings g (c.required - 1) (alternatives.get j) ∧
    ∀ l, i < l → l < j → Disjoint (beginnings g (c.required - 1) (alternatives.get i))
      (beginnings g (c.required - 1) (alternatives.get l))

section

variable {g : Grammar} {alternatives : List NodeId} {bound : Nat}

/-- The starts of an alternative are its beginnings. -/
lemma startsOf_eq (d : Nat) (i : Fin alternatives.length) :
    startsOf g alternatives d i = beginnings g d (alternatives.get i) := by
  rw [startsOf, List.getD_eq_getElem _ _ i.isLt]
  rfl

/-- An alternative is told apart if its beginnings are disjoint from those of all later ones. -/
lemma apart_iff {d : Nat} {i : Fin alternatives.length} : ToldApart g alternatives d i ↔ ∀ j > i,
    Disjoint (beginnings g d (alternatives.get i)) (beginnings g d (alternatives.get j)) := by
  constructor
  · intro h j hij
    rw [← startsOf_eq, ← startsOf_eq]
    exact h j hij j.isLt
  · intro h j hij hj
    have hdisjoint := h ⟨j, hj⟩ hij
    rwa [← startsOf_eq, ← startsOf_eq] at hdisjoint

/-- **The record at the end of the loop** is what the conflict of the alternative says.

**Proof sketch.** The loop has gone beyond the bound, or it has ended where all alternatives are told
apart. In both cases the recorded depth is the one required, and no lower one is enough, since the
alternative met a later one there. -/
lemma Recorded.diagnosis (hg : g.Predictive) {depth : Nat} {found : Nat → Option Agreement}
    (h : Recorded g alternatives depth found)
    (hend : depth = bound + 1 ∨
      depth ≤ bound ∧ ∀ i, i + 1 < alternatives.length → ToldApart g alternatives depth i)
    {i : Fin alternatives.length} (hi : i.val + 1 < alternatives.length) {a : Agreement}
    (ha : found i = some a) : ChoiceDiagnosis g bound alternatives i
      (choiceConflict alternatives bound (alternatives.get i) a) := by
  obtain ⟨htwo, hle, hmeeting, hlast⟩ := h.met hi ha
  refine ⟨rfl, ⟨⟨htwo, ?_⟩, fun d ⟨hd, hcase⟩ => ?_⟩, decide_eq_true_iff, ?_⟩
  · -- the recorded depth is behind the bound, or it tells the alternatives apart
    rw [← apart_iff]
    show bound < a.required ∨ ToldApart g alternatives a.required i
    rcases hlast with heq | hapart
    · rcases hend with hbound | ⟨-, hall⟩
      · exact Or.inl (by omega)
      · exact Or.inr (heq ▸ hall i hi)
    · exact Or.inr hapart
  · -- a lower depth is within the bound and does not
    show a.required ≤ d
    by_contra hlt
    rw [← apart_iff] at hcase
    rcases hcase with hbound | hapart
    · have hdepth : depth ≤ bound + 1 := by
        rcases hend with heq | ⟨hle', -⟩ <;> omega
      omega
    · exact hmeeting.not_apart (hapart.mono hg (by omega) (by omega))
  · have hother : (choiceConflict alternatives bound (alternatives.get i) a).other =
        some (alternatives.get ⟨a.other, hmeeting.lt_length⟩) := by
      rw [choiceConflict, List.getD_eq_getElem _ _ hmeeting.lt_length]
      rfl
    refine ⟨⟨a.other, hmeeting.lt_length⟩, hmeeting.later, hother, ?_, fun l hil hl => ?_⟩
    · rw [← startsOf_eq, ← startsOf_eq]
      exact hmeeting.common
    · rw [← startsOf_eq, ← startsOf_eq]
      exact hmeeting.first l hil hl

/-- Numbering the alternatives is numbering their places. -/
lemma indexed_eq_finRange (alternatives : List NodeId) : indexed alternatives =
    (List.finRange alternatives.length).map fun i => (i.val, alternatives.get i) := by
  refine List.ext_getElem (by simp [indexed]) fun k hk hk' => ?_
  simp [indexed]

/-- Warnings do not change the engine. -/
lemma warnChoice_foldl_engine (conflicts : List Conflict) : ∀ c : Checker,
    (conflicts.foldl (warnChoice g) c).engine = c.engine := by
  induction conflicts with
  | nil => exact fun _ => rfl
  | cons conflict conflicts ih => exact fun c => ih (warnChoice g c conflict)

/-- Without written lookaheads no alternative begins with one.

**Proof sketch.** A lookahead in front of a sequence would have to be explicit. -/
lemma hasExplicitLookahead_eq_false
    (hexplicit : ∀ {i spec}, g.kind i = .lookahead spec → spec.explicit = false) (a : NodeId) :
    g.hasExplicitLookahead a = false := by
  rw [Grammar.hasExplicitLookahead, Grammar.leadingLookahead?]
  cases g.kind a with
  | sequence units =>
    cases units with
    | nil => rfl
    | cons first rest =>
      cases hk : g.kind first with
      | lookahead spec =>
        simp only [hk, Option.map_some, Option.getD_some]
        exact hexplicit hk
      | _ => simp only [hk, Option.map_none, Option.getD_none]
  | _ => rfl

/-- **Choices are diagnosed exactly.** In a grammar without left recursion, whose lookaheads are not
written and have no conditions, let no alternative of a choice but the last match nothing, and let the
bound be at least one token. Then the check of the choice reports one conflict for each alternative
that can begin with the same token as a later one, in the order of the alternatives, and none for the
others; each conflict is diagnosed as `ChoiceDiagnosis` says. The engine is idle afterwards, as
before.

**Proof sketch.** All alternatives are compared, as none is written as a lookahead. The loop keeps the
record of what has been met at each depth; at its end the record has an entry for just the alternatives
that met a later one at depth one, and the entry is what the conflict says. -/
theorem checkChoice_conflicts {g : Grammar} (hg : g.Predictive)
    (hsemantic : ∀ {i spec}, g.kind i = .lookahead spec → spec.semantic = none)
    (hexplicit : ∀ {i spec}, g.kind i = .lookahead spec → spec.explicit = false)
    {choice : NodeId} {alternatives : List NodeId} (hk : g.kind choice = .choice alternatives)
    (htwo : 2 ≤ alternatives.length)
    (hnullable : ∀ a ∈ alternatives.dropLast, g.isNullable a = false) {o : Options}
    (hbound : 1 ≤ o.choiceAmbiguityCheck) {c : Checker} (hc : c.engine.Idle) :
    ∃ report : Fin alternatives.length → Option Conflict,
      (checkChoice g o c choice).1 = (List.finRange alternatives.length).filterMap report ∧
      (∀ i, (report i).isSome ↔ ∃ j > i,
        (beginnings g 1 (alternatives.get i) ∩ beginnings g 1 (alternatives.get j)).Nonempty) ∧
      (∀ i, ∀ conflict ∈ report i,
        ChoiceDiagnosis g o.choiceAmbiguityCheck alternatives i conflict) ∧
      (checkChoice g o c choice).2.engine.Idle := by
  have hnone := hasExplicitLookahead_eq_false (g := g) hexplicit
  have hchecked : checkedAlternatives g o.forceLookaheadCheck alternatives = indexed alternatives := by
    rw [checkedAlternatives]
    split_ifs
    · rfl
    · simp only [hnone]
      show (indexed alternatives).dropWhile (fun _ => false) = _
      cases indexed alternatives <;> rfl
  have hstart : Recorded g alternatives 1 fun _ => none :=
    ⟨fun _ _ => Or.inl rfl, fun _ h => by cases h⟩
  obtain ⟨depth, found, e, hrun, he, hdepth, hrec, hend⟩ :=
    deepen_spec hg o.forceLookaheadCheck (fun _ => hsemantic) hnullable o.choiceAmbiguityCheck le_rfl
      (Nat.add_comm 1 _) hstart hc
  rw [table_none] at hrun
  let report : Fin alternatives.length → Option Conflict := fun i =>
    ((table (alternatives.length - 1) found).lookup i.val).map
      (choiceConflict alternatives o.choiceAmbiguityCheck (alternatives.get i))
  have hreported : ((indexed alternatives).filterMap fun x =>
      ((table (alternatives.length - 1) found).lookup x.1).map
        (choiceConflict alternatives o.choiceAmbiguityCheck x.2)) =
      (List.finRange alternatives.length).filterMap report := by
    rw [indexed_eq_finRange, List.filterMap_map]
    rfl
  have hcheck : checkChoice g o c choice = ((List.finRange alternatives.length).filterMap report,
      ((List.finRange alternatives.length).filterMap report).foldl (warnChoice g)
        { c with engine := e }) := by
    rw [← hreported]
    simp only [checkChoice, hk, hchecked, if_neg (Nat.not_lt.mpr htwo), hrun, hnone, Bool.false_and,
      Bool.false_eq_true, if_false]
  rw [hcheck]
  refine ⟨report, rfl, fun i => ?_, fun i conflict hconflict => ?_, ?_⟩
  · -- a recorded alternative meets a later one at its depth, and so in the first token
    simp only [report, Option.isSome_map, lookup_table, ← Set.not_disjoint_iff_nonempty_inter]
    have hapart : (∃ j > i, ¬ Disjoint (beginnings g 1 (alternatives.get i))
        (beginnings g 1 (alternatives.get j))) ↔ ¬ ToldApart g alternatives 1 i := by
      rw [apart_iff]
      simp only [not_forall, exists_prop]
    rw [hapart]
    split_ifs with hi
    · have hi' : i.val + 1 < alternatives.length := by omega
      cases hf : found i with
      | some a =>
        obtain ⟨htwo', -, hmeeting, -⟩ := hrec.met hi' hf
        refine iff_of_true rfl fun hapart => hmeeting.not_apart (hapart.mono hg le_rfl ?_)
        omega
      | none =>
        refine iff_of_false Bool.false_ne_true (not_not.mpr ?_)
        rcases hrec.unmet hi' hf with rfl | hapart
        · rcases hend with heq | ⟨-, hall⟩
          · omega
          · exact hall i hi'
        · exact hapart
    · refine iff_of_false Bool.false_ne_true (not_not.mpr fun j hij hj => ?_)
      omega
  · obtain ⟨a, ha, rfl⟩ := Option.map_eq_some_iff.mp hconflict
    rw [lookup_table] at ha
    split_ifs at ha with hi
    exact hrec.diagnosis hg hend (by omega) ha
  · rw [warnChoice_foldl_engine]
    exact he

end

/-- A choice of four alternatives. The first two share two tokens, the third one shares the first token
with them, and the last one shares nothing. -/
def sharedStart : Grammar :=
  let (a, g) := Grammar.empty.literal "a"
  let (b, g) := g.literal "b"
  let (c, g) := g.literal "c"
  let (first, g) := g.sequence [a, b, c]
  let (a, g) := g.literal "a"
  let (b, g) := g.literal "b"
  let (d, g) := g.literal "d"
  let (second, g) := g.sequence [a, b, d]
  let (a, g) := g.literal "a"
  let (x, g) := g.literal "x"
  let (third, g) := g.sequence [a, x]
  let (last, g) := g.literal "y"
  let (body, g) := g.choice [first, second, third, last]
  ((g.addProduction "S" body).2.link {}).1

/-- The choice of this grammar has four alternatives. -/
lemma kind_sharedStart : sharedStart.kind 17 = .choice [4, 9, 13, 16] := by decide +kernel

/-- The grammar of shared starts can be predicted. -/
lemma predictive_sharedStart : sharedStart.Predictive := by
  have hall : ∀ i < sharedStart.nodes.size, sharedStart.Descends
      (fun i => [0, 0, 0, 0, 1, 0, 0, 0, 0, 1, 0, 0, 0, 1, 0, 0, 1, 2].getD i 0) i := by
    decide +kernel
  exact (Grammar.topDown_of_descends hall).predictive

/-- The lookahead that a node is. -/
def NodeKind.lookahead? : NodeKind → Option LookaheadSpec
  | lookahead spec => some spec
  | _ => none

/-- Its lookaheads have no conditions and are not explicit. -/
lemma lookahead_sharedStart {i : NodeId} {spec : LookaheadSpec}
    (hk : sharedStart.kind i = .lookahead spec) : spec.semantic = none ∧ spec.explicit = false := by
  have hall : ∀ j < sharedStart.nodes.size, ∀ spec ∈ (sharedStart.kind j).lookahead?,
      spec.semantic = none ∧ spec.explicit = false := by
    decide +kernel
  exact hall i (Grammar.lt_size_of_kind (by simp [hk])) spec (by rw [hk]; rfl)

/-- A choice of four alternatives, three of which share their starts: the check reports the conflicts
that are there, and the last alternative has none. -/
theorem checkChoice_conflicts_sharedStart : sharedStart.Predictive ∧
    (∀ a ∈ [4, 9, 13], sharedStart.isNullable a = false) ∧
    ∃ report : Fin 4 → Option Conflict,
      (checkChoice sharedStart {} (Checker.new sharedStart {}) 17).1 =
        (List.finRange 4).filterMap report ∧
      (∀ i, (report i).isSome ↔ ∃ j > i, (beginnings sharedStart 1 ([4, 9, 13, 16].get i) ∩
        beginnings sharedStart 1 ([4, 9, 13, 16].get j)).Nonempty) ∧
      (∀ i, ∀ conflict ∈ report i, ChoiceDiagnosis sharedStart 2 [4, 9, 13, 16] i conflict) ∧
      (checkChoice sharedStart {} (Checker.new sharedStart {}) 17).2.engine.Idle := by
  have hnullable : ∀ a ∈ [4, 9, 13], sharedStart.isNullable a = false := by decide +kernel
  exact ⟨predictive_sharedStart, hnullable,
    checkChoice_conflicts predictive_sharedStart (fun hk => (lookahead_sharedStart hk).1)
      (fun hk => (lookahead_sharedStart hk).2) kind_sharedStart (by decide) hnullable (by decide)
      (idle_new sharedStart)⟩

end GrammarForge
