import GrammarForge.Proofs.FirstWalk
import GrammarForge.Proofs.Rising

set_option autoImplicit false

/-!
# FIRST comes to an end

FIRST goes down from node to node. Productions may be recursive in any way, so there is nothing in
the grammar that gets smaller; what bounds the way down are the matches. They are either kept, or all
of them get longer, and there are only so many matches below the limit. With the same matches no
production is entered twice, and between two productions one goes down the tree.

## Main definitions

* `Ends` — a walk comes to an end, however deep it may go.
* `Engine.Beyond` — an engine with more matches set aside.
* `Continues`, `ComeFrom`, `Advances` — what becomes of matches on their way through a node.
* `spread` — the matches that given ones can become.
* `stepsLeft` — a bound on the steps that are left on the way down.

## Main results

* `Advances.cases` — matches stay the same, become more, or get longer.
* `ends_firstStep` — a step of FIRST comes to an end, if what it goes on to does.
* `ends_firstWithin` — FIRST comes to an end within the steps that are left.
* `ends_first` — FIRST comes to an end.
-/

namespace GrammarForge

open Relation Engine

/-! ## Walks that come to an end -/

/-- **A walk comes to an end**: at every depth of at least `room` steps it has the same result, of
which `post` holds. -/
def Ends {α : Type} (room : Nat) (x : Countdown → Walk α) (e : Engine) (post : α → Engine → Prop) :
    Prop :=
  ∃ a e', (∀ depth, room ≤ depth.steps → x depth e = some (a, e')) ∧ post a e'

namespace Ends

section

variable {α β : Type} {room : Nat} {x : Countdown → Walk α} {f : Countdown → α → Walk β}
  {e : Engine} {mid post post' : α → Engine → Prop} {last : β → Engine → Prop}

/-- A result ends at once. -/
lemma pure {a : α} (h : post a e) : Ends room (fun _ => Pure.pure a) e post :=
  ⟨a, e, fun _ _ => rfl, h⟩

/-- One walk after another. -/
lemma bind (hx : Ends room x e mid)
    (hf : ∀ a e', mid a e' → Ends room (fun depth => f depth a) e' last) :
    Ends room (fun depth => x depth >>= f depth) e last := by
  obtain ⟨a, e₁, hrun, hmid⟩ := hx
  obtain ⟨b, e₂, hrun', hlast⟩ := hf a e₁ hmid
  refine ⟨b, e₂, fun depth hdepth => ?_, hlast⟩
  show (x depth >>= f depth) e = _
  rw [bind_eq (hrun depth hdepth)]
  exact hrun' depth hdepth

/-- What is known of the end may be weakened. -/
lemma imp (h : Ends room x e post) (himp : ∀ a e', post a e' → post' a e') :
    Ends room x e post' := by
  obtain ⟨a, e', hrun, hpost⟩ := h
  exact ⟨a, e', hrun, himp a e' hpost⟩

/-- One step down. -/
lemma succ (h : Ends room (fun depth => x (.succ fun _ => depth)) e post) :
    Ends (room + 1) x e post := by
  obtain ⟨a, e', hrun, hpost⟩ := h
  refine ⟨a, e', fun depth hdepth => ?_, hpost⟩
  cases depth with
  | zero => exact absurd hdepth (Nat.not_succ_le_zero room)
  | succ pred => exact hrun (pred ()) (Nat.le_of_succ_le_succ hdepth)

end

section

variable {room : Nat} {inv : Engine → Prop} {ok post : List PartialMatch → Prop}

/-- **Several nodes with the same matches.** -/
lemma forEach {visit : Countdown → NodeId → Walk (List PartialMatch)} (hnil : post [])
    (happend : ∀ {ms ms'}, post ms → post ms' → post (ms ++ ms')) (ids : List NodeId) :
    ∀ {e : Engine}, inv e → (∀ i ∈ ids, ∀ e, inv e →
      Ends room (fun depth => visit depth i) e fun out e' => inv e' ∧ post out) →
      Ends room (fun depth => Engine.forEach (visit depth) ids) e fun out e' => inv e' ∧ post out := by
  induction ids with
  | nil => exact fun he _ => pure ⟨he, hnil⟩
  | cons i ids ih =>
    intro e he hvisit
    refine bind (hvisit i List.mem_cons_self e he) fun ms e₁ h₁ => ?_
    refine bind (ih h₁.1 fun j hj => hvisit j (List.mem_cons_of_mem i hj)) fun rest e₂ h₂ => ?_
    exact pure ⟨h₂.1, happend h₁.2 h₂.2⟩

/-- **Several nodes in a row.** -/
lemma through {visit : Countdown → List PartialMatch → NodeId → Walk (List PartialMatch)}
    (ids : List NodeId) : ∀ {e : Engine} {ms : List PartialMatch}, inv e → ok ms →
      (∀ i ∈ ids, ∀ ms e, inv e → ok ms → Ends room (fun depth => visit depth ms i) e
        fun out e' => inv e' ∧ (out ≠ [] → ok out)) →
      Ends room (fun depth => Engine.through (visit depth) ms ids) e
        fun out e' => inv e' ∧ (out ≠ [] → ok out) := by
  induction ids with
  | nil => exact fun he hms _ => pure ⟨he, fun _ => hms⟩
  | cons i ids ih =>
    intro e ms he hms hvisit
    refine bind (hvisit i List.mem_cons_self ms e he hms) fun out e₁ h₁ => ?_
    cases out with
    | nil => exact pure ⟨h₁.1, fun hne => absurd rfl hne⟩
    | cons m out =>
      exact ih h₁.1 (h₁.2 (List.cons_ne_nil m out)) fun j hj => hvisit j (List.mem_cons_of_mem i hj)

/-- **Repeated passes through a body.** -/
lemma repeated {visit : Countdown → List PartialMatch → Walk (List PartialMatch)} (hnil : post [])
    (happend : ∀ {ms ms'}, ok ms → post ms' → post (ms ++ ms'))
    (hvisit : ∀ ms e, inv e → ok ms → Ends room (fun depth => visit depth ms) e
      fun out e' => inv e' ∧ (out ≠ [] → ok out)) (n : Nat) :
    ∀ {e : Engine} {ms : List PartialMatch}, inv e → ok ms →
      Ends room (fun depth => Engine.repeated (visit depth) n ms) e
        fun out e' => inv e' ∧ post out := by
  induction n with
  | zero => exact fun he _ => pure ⟨he, hnil⟩
  | succ n ih =>
    intro e ms he hms
    refine bind (hvisit ms e he hms) fun out e₁ h₁ => ?_
    cases out with
    | nil => exact pure ⟨h₁.1, hnil⟩
    | cons m out =>
      have hok := h₁.2 (List.cons_ne_nil m out)
      exact bind (ih h₁.1 hok) fun later e₂ h₂ => pure ⟨h₂.1, happend hok h₂.2⟩

end

end Ends

/-! ## More matches set aside -/

/-- **The same engine with more matches set aside.** -/
def Engine.Beyond (e e' : Engine) : Prop := ∃ aside, e' = e.withAside aside

namespace Engine.Beyond

variable {e e' e'' : Engine}

/-- Nothing is set aside. -/
lemma refl (e : Engine) : e.Beyond e := ⟨[], e.withAside_nil.symm⟩

/-- What is set aside adds up. -/
lemma trans (h : e.Beyond e') (h' : e'.Beyond e'') : e.Beyond e'' := by
  obtain ⟨aside, rfl⟩ := h
  obtain ⟨aside', rfl⟩ := h'
  exact ⟨aside ++ aside', e.withAside_withAside aside aside'⟩

/-- The limit is kept. -/
lemma limit (h : e.Beyond e') : e'.limit = e.limit := by
  obtain ⟨aside, rfl⟩ := h
  rfl

/-- The productions that are being expanded are kept. -/
lemma active (h : e.Beyond e') : e'.active = e.active := by
  obtain ⟨aside, rfl⟩ := h
  rfl

end Engine.Beyond

/-- Expanding a production, which may be under way with the same matches.

**Proof sketch.** If the production is under way with the same matches, the walk ends with nothing.
Otherwise the note is made before it and taken away after it. -/
lemma Ends.expanding {room p : Nat} {ms : List PartialMatch}
    {x : Countdown → Walk (List PartialMatch)} {e : Engine} {post : List PartialMatch → Prop}
    (hnil : post []) (hx : (p, sortedSet compare (tokensOf ms)) ∉ e.active →
      Ends room x { e with active := (p, sortedSet compare (tokensOf ms)) :: e.active }
        fun out e' => Beyond { e with active := (p, sortedSet compare (tokensOf ms)) :: e.active } e' ∧
          post out) :
    Ends room (fun depth => Engine.expanding p ms (x depth)) e
      fun out e' => e.Beyond e' ∧ post out := by
  by_cases hkey : (p, sortedSet compare (tokensOf ms)) ∈ e.active
  · refine ⟨[], e, fun depth _ => ?_, Beyond.refl e, hnil⟩
    show Engine.expanding p ms (x depth) e = _
    rw [expanding_eq, if_pos (List.contains_iff_mem.mpr hkey)]
  · obtain ⟨out, _, hrun, ⟨aside, rfl⟩, hpost⟩ := hx hkey
    refine ⟨out, e.withAside aside, fun depth hdepth => ?_, ⟨aside, rfl⟩, hpost⟩
    show Engine.expanding p ms (x depth) e = _
    rw [expanding_eq, if_neg (fun h => hkey (List.contains_iff_mem.mp h)), hrun depth hdepth]
    rfl

/-! ## What becomes of matches -/

section

variable (letters : Finset Nat) (limit : Nat)

/-- **A match becomes another one**: it is continued by tokens, and if by any, it stays short. -/
def Continues (t u : TokenSeq) : Prop :=
  ∃ w, u = t ++ w ∧ (∀ k ∈ w, k ∈ letters) ∧ (w = [] ∨ u.length < limit)

/-- Each of the matches `us` comes from one of `ts`. -/
def ComeFrom (ts us : List TokenSeq) : Prop := ∀ u ∈ us, ∃ t ∈ ts, Continues letters limit t u

/-- **Matches on their way**: each of `us` comes from one of `ts`, and either all of `ts` are kept, or
each of `us` is longer than the one it comes from. -/
structure Advances (ts us : List TokenSeq) : Prop where
  comeFrom : ComeFrom letters limit ts us
  kept_or_longer : (∀ t ∈ ts, t ∈ us) ∨
    ∀ u ∈ us, ∃ t ∈ ts, Continues letters limit t u ∧ t.length < u.length

/-- The matches that given ones can become. -/
def spread (ts : List TokenSeq) : Finset TokenSeq :=
  (ts.toFinset ×ˢ wordsUpTo letters limit).image fun x => x.1 ++ x.2

end

section

variable {letters : Finset Nat} {limit : Nat} {t u v : TokenSeq} {ts us vs : List TokenSeq}

/-- A sequence continues itself. -/
lemma Continues.refl (t : TokenSeq) : Continues letters limit t t :=
  ⟨[], (List.append_nil t).symm, fun _ hk => absurd hk List.not_mem_nil, Or.inl rfl⟩

/-- Continuations can be continued. -/
lemma Continues.trans (h : Continues letters limit t u) (h' : Continues letters limit u v) :
    Continues letters limit t v := by
  obtain ⟨w, rfl, hw, hlt⟩ := h
  obtain ⟨w', rfl, hw', hlt'⟩ := h'
  refine ⟨w ++ w', List.append_assoc t w w', fun k hk => ?_, ?_⟩
  · exact (List.mem_append.mp hk).elim (hw k) (hw' k)
  · rcases hlt' with rfl | hlt'
    · simpa using hlt
    · exact Or.inr hlt'

/-- A continuation is not shorter. -/
lemma Continues.length_le (h : Continues letters limit t u) : t.length ≤ u.length := by
  obtain ⟨w, rfl, -⟩ := h
  rw [List.length_append]
  exact Nat.le_add_right _ _

/-- What is longer than the match it comes from is short. -/
lemma Continues.length_lt (h : Continues letters limit t u) (hlt : t.length < u.length) :
    u.length < limit := by
  obtain ⟨w, rfl, -, rfl | hshort⟩ := h
  · rw [List.append_nil] at hlt
    exact absurd hlt (lt_irrefl _)
  · exact hshort

/-- Sequences come from themselves. -/
lemma ComeFrom.refl (ts : List TokenSeq) : ComeFrom letters limit ts ts :=
  fun t ht => ⟨t, ht, .refl t⟩

/-- What comes from sequences can be come from. -/
lemma ComeFrom.trans (h : ComeFrom letters limit ts us) (h' : ComeFrom letters limit us vs) :
    ComeFrom letters limit ts vs := by
  intro v hv
  obtain ⟨u, hu, huv⟩ := h' v hv
  obtain ⟨t, ht, htu⟩ := h u hu
  exact ⟨t, ht, htu.trans huv⟩

/-- What comes from sequences is in their spread. -/
lemma ComeFrom.mem_spread (h : ComeFrom letters limit ts us) (hlimit : 1 ≤ limit) (hu : u ∈ us) :
    u ∈ spread letters limit ts := by
  obtain ⟨t, ht, w, rfl, hw, hlt⟩ := h u hu
  have hshort : w.length < limit := by
    rcases hlt with rfl | hlt
    · exact hlimit
    · rw [List.length_append] at hlt
      omega
  exact Finset.mem_image.mpr ⟨(t, w),
    Finset.mem_product.mpr ⟨List.mem_toFinset.mpr ht, mem_wordsUpTo hshort hw⟩, rfl⟩

/-- Not too many matches can come from given ones. -/
lemma card_spread_le {c : Nat} (hc : letters.card ≤ c) (limit : Nat) (ts : List TokenSeq) :
    (spread letters limit ts).card ≤ ts.length * (c + 1) ^ limit := by
  refine Finset.card_image_le.trans ?_
  rw [Finset.card_product]
  exact Nat.mul_le_mul ts.toFinset_card_le (card_wordsUpTo_le hc limit)

namespace Advances

/-- Sequences are as far as they are. -/
lemma refl (ts : List TokenSeq) : Advances letters limit ts ts :=
  ⟨.refl ts, Or.inl fun _ => id⟩

/-- Without sequences left everything has advanced. -/
lemma nil (ts : List TokenSeq) : Advances letters limit ts [] :=
  ⟨fun _ hu => absurd hu List.not_mem_nil, Or.inr fun _ hu => absurd hu List.not_mem_nil⟩

/-- Advances add up.

**Proof sketch.** If nothing was lost in either advance, nothing was lost. Otherwise what was lost at
first, or then, has been replaced by something longer. -/
lemma trans (h : Advances letters limit ts us) (h' : Advances letters limit us vs) :
    Advances letters limit ts vs where
  comeFrom := h.comeFrom.trans h'.comeFrom
  kept_or_longer := by
    rcases h.kept_or_longer with hkept | hlonger
    · rcases h'.kept_or_longer with hkept' | hlonger'
      · exact Or.inl fun t ht => hkept' t (hkept t ht)
      · refine Or.inr fun v hv => ?_
        obtain ⟨u, hu, huv, hlt⟩ := hlonger' v hv
        obtain ⟨t, ht, htu⟩ := h.comeFrom u hu
        exact ⟨t, ht, htu.trans huv, htu.length_le.trans_lt hlt⟩
    · refine Or.inr fun v hv => ?_
      obtain ⟨u, hu, huv⟩ := h'.comeFrom v hv
      obtain ⟨t, ht, htu, hlt⟩ := hlonger u hu
      exact ⟨t, ht, htu.trans huv, hlt.trans_le huv.length_le⟩

/-- Two advances of the same sequences, put together, are one. -/
lemma append (h : Advances letters limit ts us) (h' : Advances letters limit ts vs) :
    Advances letters limit ts (us ++ vs) where
  comeFrom u hu := (List.mem_append.mp hu).elim (h.comeFrom u) (h'.comeFrom u)
  kept_or_longer := by
    rcases h.kept_or_longer with hkept | hlonger
    · exact Or.inl fun t ht => List.mem_append_left vs (hkept t ht)
    · rcases h'.kept_or_longer with hkept' | hlonger'
      · exact Or.inl fun t ht => List.mem_append_right us (hkept' t ht)
      · exact Or.inr fun u hu => (List.mem_append.mp hu).elim (hlonger u) (hlonger' u)

/-- **Matches stay the same, become more, or get longer.**

**Proof sketch.** If the shortest sequence has become longer, this is the last case; the limit bounds
it. Otherwise no sequence has been lost, so that there are the same ones or more. -/
lemma cases (h : Advances letters limit ts us) (hne : us = [] → ts = []) :
    (∀ t, t ∈ us ↔ t ∈ ts) ∨ (shortest us = shortest ts ∧ ts.toFinset ⊂ us.toFinset) ∨
      (shortest ts < shortest us ∧ shortest us < limit) := by
  by_cases hempty : us = []
  · rw [hempty, hne hempty]
    exact Or.inl fun t => Iff.rfl
  have hle : shortest ts ≤ shortest us := by
    refine le_shortest hempty fun u hu => ?_
    obtain ⟨t, ht, htu⟩ := h.comeFrom u hu
    exact (shortest_le ht).trans htu.length_le
  rcases h.kept_or_longer with hkept | hlonger
  · by_cases hsub : ∀ t, t ∈ us → t ∈ ts
    · exact Or.inl fun t => ⟨hsub t, hkept t⟩
    · refine Or.inr (Or.inl ⟨?_, ?_⟩)
      · have hts : ts ≠ [] := by
          obtain ⟨u, hu⟩ := List.exists_mem_of_ne_nil us hempty
          obtain ⟨t, ht, -⟩ := h.comeFrom u hu
          exact List.ne_nil_of_mem ht
        exact le_antisymm (le_shortest hts fun t ht => shortest_le (hkept t ht)) hle
      · refine Finset.ssubset_iff_subset_ne.mpr ⟨fun t ht => ?_, fun heq => hsub fun t ht => ?_⟩
        · exact List.mem_toFinset.mpr (hkept t (List.mem_toFinset.mp ht))
        · exact List.mem_toFinset.mp (heq ▸ List.mem_toFinset.mpr ht)
  · refine Or.inr (Or.inr ⟨?_, ?_⟩)
    · refine le_shortest hempty fun u hu => ?_
      obtain ⟨t, ht, -, hlt⟩ := hlonger u hu
      exact (Nat.succ_le_succ (shortest_le ht)).trans hlt
    · obtain ⟨u, hu⟩ := List.exists_mem_of_ne_nil us hempty
      obtain ⟨t, -, htu, hlt⟩ := hlonger u hu
      exact (shortest_le hu).trans_lt (htu.length_lt hlt)

end Advances

end

/-! ## The steps that are left -/

/-- The same matches in another order, or with repetitions, are noted alike.

**Proof sketch.** Both sorted sets are strictly ascending and have the same members. -/
lemma sortedSet_congr {ts us : List TokenSeq} (h : ∀ t, t ∈ us ↔ t ∈ ts) :
    sortedSet compare us = sortedSet compare ts := by
  have hnodup : ∀ vs : List TokenSeq, (sortedSet compare vs).Nodup := by
    intro vs
    refine (pairwise_sortedSet compare).imp fun {a b} hab heq => ?_
    rw [Std.LawfulEqOrd.compare_eq_iff_eq.mpr heq] at hab
    cases hab
  refine List.Perm.eq_of_pairwise (fun a b _ _ hab hba => ?_) (pairwise_sortedSet compare)
    (pairwise_sortedSet compare) ?_
  · rw [Std.OrientedOrd.eq_swap, hab] at hba
    cases hba
  · refine (List.perm_ext_iff_of_nodup (hnodup us) (hnodup ts)).mpr fun t => ?_
    rw [mem_sortedSet, mem_sortedSet, h]

/-- The number of productions that are not being expanded with given matches. -/
def unopened (g : Grammar) (active : List (Nat × List TokenSeq)) (ts : List TokenSeq) : Nat :=
  ((Finset.range g.productions.size).filter fun p => (p, sortedSet compare ts) ∉ active).card

/-- **A bound on the steps that are left on the way down**, if all matches are in `U`. With the
shortest match as long as it is, there is a last time that matches become more; with these matches,
a last production; and from there on the tree. -/
noncomputable def stepsLeft (g : Grammar) (U : Finset TokenSeq) (rank : Nat → Nat) (limit : Nat)
    (active : List (Nat × List TokenSeq)) (ts : List TokenSeq) (i : NodeId) : Nat :=
  (((limit - shortest ts) * (U.card + 1) + (U.card - ts.toFinset.card)) * (g.productions.size + 1) +
    unopened g active ts) * (g.nodes.size + 1) + rank i + 1

/-- A number with digits below `bound + 1` is smaller if its leading digits are. -/
lemma digits_lt {a a' b b' bound : Nat} (ha : a' < a) (hb : b' ≤ bound) :
    a' * (bound + 1) + b' < a * (bound + 1) + b := by
  have hmul := Nat.mul_le_mul_right (bound + 1) ha
  rw [Nat.succ_mul] at hmul
  omega

section

variable {g : Grammar} {U : Finset TokenSeq} {rank : Nat → Nat} {limit : Nat}
  {active : List (Nat × List TokenSeq)} {ts us : List TokenSeq} {i j : NodeId}

/-- At most all productions are still to be opened. -/
lemma unopened_le (g : Grammar) (active : List (Nat × List TokenSeq)) (ts : List TokenSeq) :
    unopened g active ts ≤ g.productions.size :=
  (Finset.card_filter_le _ _).trans_eq (Finset.card_range _)

/-- A production that is being expanded is not unopened any more. -/
lemma unopened_cons_lt {p : Nat} (hp : p < g.productions.size)
    (hnew : (p, sortedSet compare ts) ∉ active) :
    unopened g ((p, sortedSet compare ts) :: active) ts < unopened g active ts := by
  refine Finset.card_lt_card (Finset.ssubset_iff_subset_ne.mpr ⟨fun q hq => ?_, fun heq => ?_⟩)
  · obtain ⟨hq, hfresh⟩ := Finset.mem_filter.mp hq
    exact Finset.mem_filter.mpr ⟨hq, fun hmem => hfresh (List.mem_cons_of_mem _ hmem)⟩
  · have hmem : p ∈ (Finset.range g.productions.size).filter fun p =>
        (p, sortedSet compare ts) ∉ active := Finset.mem_filter.mpr ⟨Finset.mem_range.mpr hp, hnew⟩
    rw [← heq] at hmem
    exact (Finset.mem_filter.mp hmem).2 List.mem_cons_self

/-- **Going down the tree takes a step**, whatever has become of the matches before.

**Proof sketch.** By the three ways in which the matches have changed. If they are the same, the rank of
the node is lower; if they became more, fewer can be added still; and if they are longer, the next
length is reached. -/
lemma stepsLeft_part_lt (active : List (Nat × List TokenSeq)) (hle : ∀ i, rank i ≤ g.nodes.size)
    (hrank : rank j < rank i) {letters : Finset Nat} (h : Advances letters limit ts us)
    (hne : us = [] → ts = []) (hU : ∀ u ∈ us, u ∈ U) :
    stepsLeft g U rank limit active us j < stepsLeft g U rank limit active ts i := by
  have hj := hle j
  have hunopened := unopened_le g active us
  rw [stepsLeft, stepsLeft]
  refine Nat.succ_lt_succ ?_
  rcases h.cases hne with hsame | ⟨hshortest, hmore⟩ | ⟨hlonger, hlimit⟩
  · have hfinset : us.toFinset = ts.toFinset := by
      ext t
      rw [List.mem_toFinset, List.mem_toFinset, hsame]
    have hkey : unopened g active us = unopened g active ts := by
      rw [unopened, unopened, sortedSet_congr hsame]
    rw [shortest_congr hsame, hfinset, hkey]
    exact Nat.add_lt_add_left hrank _
  · have hcard := Finset.card_lt_card hmore
    have hroom : us.toFinset.card ≤ U.card :=
      Finset.card_le_card fun u hu => hU u (List.mem_toFinset.mp hu)
    rw [hshortest]
    exact digits_lt (digits_lt (by omega) hunopened) hj
  · exact digits_lt (digits_lt (digits_lt (by omega) (Nat.sub_le _ _)) hunopened) hj

/-- **Expanding a production takes a step**, if it is not being expanded with these matches. -/
lemma stepsLeft_root_lt (U : Finset TokenSeq) (limit : Nat) (hle : ∀ i, rank i ≤ g.nodes.size)
    {p : Nat} (hp : p < g.productions.size) (hnew : (p, sortedSet compare ts) ∉ active)
    (i j : NodeId) : stepsLeft g U rank limit ((p, sortedSet compare ts) :: active) ts j <
      stepsLeft g U rank limit active ts i := by
  rw [stepsLeft, stepsLeft]
  exact Nat.succ_lt_succ (digits_lt (Nat.add_lt_add_left (unopened_cons_lt hp hnew) _) (hle j))

/-- The steps that are left are not too many. -/
lemma stepsLeft_le (hle : ∀ i, rank i ≤ g.nodes.size) (active : List (Nat × List TokenSeq))
    (ts : List TokenSeq) (i : NodeId) : stepsLeft g U rank limit active ts i ≤
      (limit + 1) * (U.card + 1) * (g.productions.size + 1) * (g.nodes.size + 1) := by
  have hshort : (limit - shortest ts) * (U.card + 1) + (U.card - ts.toFinset.card) <
      (limit + 1) * (U.card + 1) + 0 := digits_lt (by omega) (Nat.sub_le _ _)
  have hprods := digits_lt (b := 0) hshort (unopened_le g active ts)
  have hnodes := digits_lt (b := 0) hprods (hle i)
  rw [Nat.add_zero, Nat.add_zero, Nat.add_zero] at hnodes
  exact hnodes

end

/-! ## The walk -/

section

variable {g : Grammar} {ms : List PartialMatch} {i : NodeId} {e : Engine}

/-- The kind of a token is a letter of the grammar. -/
lemma mem_letters {k : Nat} (hk : g.kind i = .token k) : k ∈ g.letters := by
  refine Finset.mem_image.mpr ⟨i, Finset.mem_range.mpr ?_, by rw [hk]⟩
  exact Grammar.lt_size_of_kind fun code hcode => by rw [hk] at hcode; cases hcode

/-- Adding a token makes all matches longer.

**Proof sketch.** Every match gets the token. Those that reach the limit are set aside, and the others
are longer by one letter of the grammar. -/
lemma advances_extendAll {k room : Nat} (hk : g.kind i = .token k) (ms : List PartialMatch)
    (e : Engine) : Ends room (fun _ => extendAll k ms) e fun out e' =>
      e.Beyond e' ∧ Advances g.letters e.limit (tokensOf ms) (tokensOf out) := by
  refine ⟨_, _, fun _ _ => extendAll_eq k ms e, ⟨_, rfl⟩, ?_⟩
  have hall : ∀ u ∈ tokensOf ((ms.map (·.extend k)).filter fun m => m.tokens.length < e.limit),
      ∃ t ∈ tokensOf ms, Continues g.letters e.limit t u ∧ t.length < u.length := by
    intro u hu
    obtain ⟨x, hx, rfl⟩ := List.mem_map.mp hu
    obtain ⟨hx, hshort⟩ := List.mem_filter.mp hx
    obtain ⟨m, hm, rfl⟩ := List.mem_map.mp hx
    refine ⟨m.tokens, List.mem_map_of_mem hm, ⟨[k], rfl, fun x hx => ?_, Or.inr ?_⟩, ?_⟩
    · rw [List.mem_singleton.mp hx]
      exact mem_letters hk
    · exact of_decide_eq_true hshort
    · simp [PartialMatch.extend]
  refine ⟨fun u hu => ?_, Or.inr hall⟩
  obtain ⟨t, ht, htu, -⟩ := hall u hu
  exact ⟨t, ht, htu⟩

/-- **One step of FIRST comes to an end**, if the visits of the node's parts do, with matches that have
advanced, and so does the expansion of the production that it names.

**Proof sketch.** By the kind of the node. Each visit of a part begins with matches that have advanced
and are gone only if the first ones were, so that a loop, a row and a choice come to their ends in turn.
-/
lemma ends_firstStep {room : Nat}
    (hvisit : ∀ j ∈ (g.kind i).parts, ∀ ms' e', e.Beyond e' →
      Advances g.letters e.limit (tokensOf ms) (tokensOf ms') → (ms' = [] → ms = []) →
      Ends room (fun depth => firstWithin g depth ms' j) e' fun out e'' =>
        e'.Beyond e'' ∧ Advances g.letters e.limit (tokensOf ms') (tokensOf out))
    (hexpand : ∀ p root, g.body p = some root → (p, sortedSet compare (tokensOf ms)) ∉ e.active →
      Ends room (fun depth => firstWithin g depth ms root)
        { e with active := (p, sortedSet compare (tokensOf ms)) :: e.active } fun out e' =>
          Beyond { e with active := (p, sortedSet compare (tokensOf ms)) :: e.active } e' ∧
            Advances g.letters e.limit (tokensOf ms) (tokensOf out)) :
    Ends (room + 1) (fun depth => firstWithin g depth ms i) e fun out e' =>
      e.Beyond e' ∧ Advances g.letters e.limit (tokensOf ms) (tokensOf out) := by
  -- the matches with which a part of the node is visited
  let ok : List PartialMatch → Prop := fun ms' =>
    Advances g.letters e.limit (tokensOf ms) (tokensOf ms') ∧ (ms' = [] → ms = [])
  have hok : ok ms := ⟨Advances.refl _, id⟩
  have hgo : ∀ j ∈ (g.kind i).parts, ∀ ms' e', e.Beyond e' → ok ms' →
      Ends room (fun depth => firstWithin g depth ms' j) e' fun out e'' =>
        e.Beyond e'' ∧ (out ≠ [] → ok out) := fun j hj ms' e' he' hms' =>
    (hvisit j hj ms' e' he' hms'.1 hms'.2).imp fun out e'' h =>
      ⟨he'.trans h.1, fun hne => ⟨hms'.1.trans h.2, fun hnil => absurd hnil hne⟩⟩
  have hone : ∀ j ∈ (g.kind i).parts, ∀ e', e.Beyond e' →
      Ends room (fun depth => firstWithin g depth ms j) e' fun out e'' =>
        e.Beyond e'' ∧ Advances g.letters e.limit (tokensOf ms) (tokensOf out) := fun j hj e' he' =>
    (hvisit j hj ms e' he' hok.1 hok.2).imp fun out e'' h => ⟨he'.trans h.1, h.2⟩
  have hnil : Advances g.letters e.limit (tokensOf ms) (tokensOf []) := Advances.nil _
  have happend : ∀ {a b}, Advances g.letters e.limit (tokensOf ms) (tokensOf a) →
      Advances g.letters e.limit (tokensOf ms) (tokensOf b) →
      Advances g.letters e.limit (tokensOf ms) (tokensOf (a ++ b)) := by
    intro a b ha hb
    simpa using ha.append hb
  have hbody : ∀ b ∈ (g.kind i).parts, ∀ n, Ends room
      (fun depth => repeated (firstWithin g depth · b) n ms) e fun out e' =>
        e.Beyond e' ∧ Advances g.letters e.limit (tokensOf ms) (tokensOf out) := fun b hb n =>
    Ends.repeated hnil (fun ha hb => happend ha.1 hb) (hgo b hb) n (Beyond.refl e) hok
  have hpasses : Ends room (fun _ => passes) e fun _ e' => e' = e := ⟨_, e, fun _ _ => rfl, rfl⟩
  refine Ends.succ ?_
  cases hk : g.kind i with
  | token k =>
    simp only [firstWithin, hk]
    exact advances_extendAll hk ms e
  | nonterminal name p =>
    cases p with
    | none =>
      simp only [firstWithin, hk]
      exact Ends.pure ⟨Beyond.refl e, hnil⟩
    | some p =>
      cases hroot : g.body p with
      | none =>
        simp only [firstWithin, hk, hroot]
        exact ⟨[], e.withAside (tokensOf ms), fun _ _ => rfl, ⟨_, rfl⟩, hnil⟩
      | some root =>
        simp only [firstWithin, hk, hroot]
        exact Ends.expanding hnil (hexpand p root hroot)
  | choice alternatives =>
    simp only [firstWithin, hk]
    refine Ends.forEach hnil happend alternatives (Beyond.refl e) fun a ha => hone a ?_
    rw [hk]
    exact ha
  | sequence units =>
    simp only [firstWithin, hk]
    have hrow : Ends room (fun depth => through (firstWithin g depth) ms units) e
        fun out e' => e.Beyond e' ∧ (out ≠ [] → ok out) := by
      refine Ends.through units (Beyond.refl e) hok fun u hu => hgo u ?_
      rw [hk]
      exact hu
    refine hrow.imp fun out e' h => ⟨h.1, ?_⟩
    by_cases hout : out = []
    · rw [hout]
      exact hnil
    · exact (h.2 hout).1
  | oneOrMore b =>
    simp only [firstWithin, hk]
    refine Ends.bind hpasses fun n e' he' => ?_
    rw [he']
    exact hbody b (by simp [hk, NodeKind.parts]) n
  | zeroOrMore b =>
    simp only [firstWithin, hk]
    refine Ends.bind hpasses fun n e' he' => ?_
    rw [he']
    refine Ends.bind (hbody b (by simp [hk, NodeKind.parts]) n) fun more e'' h => ?_
    exact Ends.pure ⟨h.1, happend hok.1 h.2⟩
  | zeroOrOne b =>
    simp only [firstWithin, hk]
    refine Ends.bind (hone b (by simp [hk, NodeKind.parts]) e (Beyond.refl e)) fun more e' h => ?_
    exact Ends.pure ⟨h.1, happend hok.1 h.2⟩
  | lookahead spec =>
    simp only [firstWithin, hk]
    refine ⟨_, e, fun _ _ => rfl, Beyond.refl e, ?_⟩
    split_ifs
    · exact hnil
    · exact hok.1
  | action code =>
    simp only [firstWithin, hk]
    exact Ends.pure ⟨Beyond.refl e, hok.1⟩

/-- **FIRST comes to an end within the steps that are left.** It sets matches aside, and changes
nothing else.

**Proof sketch.** Induction on the steps. A part of the node is visited with matches that have
advanced, and the right side of a production only with matches that it is not being expanded with:
both take a step. -/
theorem ends_firstWithin {rank : Nat → Nat} (hle : ∀ i, rank i ≤ g.nodes.size)
    (hrank : ∀ i, ∀ j ∈ (g.kind i).parts, rank j < rank i) {limit : Nat} (hlimit : 1 ≤ limit)
    (origin : List TokenSeq) (room : Nat) :
    ∀ {e : Engine} {ms : List PartialMatch} {i : NodeId}, e.limit = limit →
      ComeFrom g.letters limit origin (tokensOf ms) →
      stepsLeft g (spread g.letters limit origin) rank limit e.active (tokensOf ms) i ≤ room →
      Ends room (fun depth => firstWithin g depth ms i) e fun out e' =>
        e.Beyond e' ∧ Advances g.letters limit (tokensOf ms) (tokensOf out) := by
  induction room with
  | zero =>
    intro e ms i _ _ hroom
    exact absurd hroom (Nat.not_succ_le_zero _)
  | succ room ih =>
    rintro e ms i rfl horigin hroom
    refine ends_firstStep (fun j hj ms' e' he' hms' hne => ?_) fun p root hroot hnew => ?_
    · have horigin' := horigin.trans hms'.comeFrom
      have hlt := stepsLeft_part_lt e.active hle (hrank i j hj) hms' (by simpa using hne)
        fun u => horigin'.mem_spread hlimit
      exact ih he'.limit horigin' (he'.active ▸ Nat.le_of_lt_succ (hlt.trans_le hroom))
    · have hp : p < g.productions.size := Grammar.lt_of_body hroot
      have hlt := stepsLeft_root_lt (spread g.letters e.limit origin) e.limit hle hp hnew i root
      exact ih rfl horigin (Nat.le_of_lt_succ (hlt.trans_le hroom))

/-- The depth that FIRST is given is enough for the steps that are left.

**Proof sketch.** The spread of the matches is bounded by the number of tokens to the power of the
limit, and the depth has a step for each size of the spread, each length and each rank. -/
lemma stepsLeft_le_firstDepth {rank : Nat → Nat} (hle : ∀ i, rank i ≤ g.nodes.size) (limit : Nat)
    (active : List (Nat × List TokenSeq)) (ms : List PartialMatch) (i : NodeId) :
    stepsLeft g (spread g.letters limit (tokensOf ms)) rank limit active (tokensOf ms) i ≤
      (firstDepth g limit ms.length).steps := by
  have hcard : (spread g.letters limit (tokensOf ms)).card + 1 ≤
      (ms.length + 1) * (g.nodes.size + 1) ^ limit := by
    have hspread := card_spread_le g.card_letters_le limit (tokensOf ms)
    have hpow : 1 ≤ (g.nodes.size + 1) ^ limit := Nat.one_le_pow _ _ (Nat.succ_pos _)
    rw [List.length_map] at hspread
    rw [Nat.succ_mul]
    omega
  calc stepsLeft g (spread g.letters limit (tokensOf ms)) rank limit active (tokensOf ms) i
      ≤ (limit + 1) * ((spread g.letters limit (tokensOf ms)).card + 1) *
          (g.productions.size + 1) * (g.nodes.size + 1) := stepsLeft_le hle active (tokensOf ms) i
    _ ≤ (limit + 1) * ((ms.length + 1) * (g.nodes.size + 1) ^ limit) *
          (g.productions.size + 1) * (g.nodes.size + 1) := by
        gcongr
    _ = (g.nodes.size + 1) * (g.productions.size + 1) * (limit + 1) * (ms.length + 1) *
          (g.nodes.size + 1) ^ limit := by
        ring
    _ ≤ (firstDepth g limit ms.length).steps := Countdown.le_steps_geometric _ _ _

/-- **FIRST comes to an end**, whatever the matches and the productions being expanded are. -/
theorem ends_first (hacyclic : ∀ i, ¬ TransGen (fun i j => j ∈ g.children i) i i)
    (hlimit : 1 ≤ e.limit) (ms : List PartialMatch) (i : NodeId) :
    Ends (firstDepth g e.limit ms.length).steps (fun depth => firstWithin g depth ms i) e
      fun out e' => e.Beyond e' ∧ Advances g.letters e.limit (tokensOf ms) (tokensOf out) := by
  obtain ⟨rank, hle, hrank⟩ := exists_rank (fun _ _ => Grammar.TreeShaped.lt_of_child) hacyclic
  refine ends_firstWithin hle (fun i j hj => hrank i j (List.mem_append_left _ hj)) hlimit
    (tokensOf ms) _ rfl (ComeFrom.refl _) ?_
  exact stepsLeft_le_firstDepth hle e.limit e.active ms i

end

end GrammarForge
