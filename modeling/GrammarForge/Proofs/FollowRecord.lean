import GrammarForge.Proofs.FirstWalk
import GrammarForge.Proofs.Rising

set_option autoImplicit false

/-!
# What FOLLOW has to do, and what it has done

FOLLOW rises from node to node with several matches at once. It stops at a node that has the stamp of
the walk already, and at matches that are being followed from the node. Nothing is lost by this: a
match that is dropped at a node is followed from the node, or under an older stamp from a node that
one rises from to this one without passing a token.

The argument keeps a record of the matches that FOLLOW has entered with, at which node and under
which stamp, and of the matches that each stamp was given out for.

## Main definitions

* `Entry`, `View` — the record, beside the state of the walk.
* `Attended` — a match is followed from a node, or from a node behind it under an older stamp.
* `Answered` — all that can follow an entered match has been seen to.
* `FollowState`, `FollowCall`, `Progress` — what holds of the walk, of a visit, and of what a visit
  does.

## Main results

* `exists_entry` — whatever is attended to is entered.
* `FollowState.enter`, `FollowCall.attended` — entering a node, all matches of the stamp are attended
  to there.
* `FollowCall.plain`, `FollowCall.renew` — the visits that come next.
-/

namespace GrammarForge

open Computability Relation Engine

/-- A match that is followed from a node under a stamp. -/
structure Entry where
  node : NodeId
  tokens : TokenSeq
  stamp : Nat

/-- The node and the match of an entry. -/
def Entry.key (f : Entry) : NodeId × TokenSeq := (f.node, f.tokens)

/-- The walk with a record: the matches entered so far, and the matches of each stamp. -/
structure View where
  entries : Set Entry
  group : Nat → List TokenSeq
  engine : Engine

/-! ## Attended matches -/

/-- One rises from a node to another one without passing a token. -/
def Grammar.Plain (g : Grammar) (i z : NodeId) : Prop := g.Rises i z []

/-- A match is followed under an older stamp, from a node behind. -/
def Behind (g : Grammar) (entries : Set Entry) (z : NodeId) (s : Nat) (u : TokenSeq) : Prop :=
  ∃ y, ∃ s' < s, ⟨y, u, s'⟩ ∈ entries ∧ ReflTransGen g.Plain y z

/-- **A match is attended to at a node**: it is followed from there, or from a node behind it under
an older stamp. -/
def Attended (g : Grammar) (entries : Set Entry) (z : NodeId) (s : Nat) (u : TokenSeq) : Prop :=
  (∃ s' ≤ s, ⟨z, u, s'⟩ ∈ entries) ∨ Behind g entries z s u

/-- **All that can follow an entered match has been seen to**: one rises further with it, and what
reaches the limit on a step up has been set aside. -/
structure Answered (g : Grammar) (k : Nat) (entries : Set Entry) (limited : Array TokenSeq)
    (f : Entry) : Prop where
  plain : ∀ {z}, g.Plain f.node z → Attended g entries z f.stamp f.tokens
  short : ∀ {z w}, g.Rises f.node z w → (f.tokens ++ w).length < k →
    ∃ s, Attended g entries z s (f.tokens ++ w)
  long : ∀ {w}, g.Passes f.node w → (f.tokens ++ w).length = k → f.tokens ++ w ∈ limited

section

variable {g : Grammar} {k s : Nat} {entries entries' : Set Entry} {i z : NodeId} {u : TokenSeq}

/-- What is behind stays behind with more entries. -/
lemma Behind.mono (h : Behind g entries z s u) (hsub : entries ⊆ entries') :
    Behind g entries' z s u := by
  obtain ⟨y, s', hs', hy, hpath⟩ := h
  exact ⟨y, s', hs', hsub hy, hpath⟩

/-- What is behind a node is behind those that it rises to without a token. -/
lemma Behind.tail (h : Behind g entries i s u) (hplain : g.Plain i z) : Behind g entries z s u := by
  obtain ⟨y, s', hs', hy, hpath⟩ := h
  exact ⟨y, s', hs', hy, hpath.tail hplain⟩

/-- What is attended stays attended with more entries. -/
lemma Attended.mono (h : Attended g entries z s u) (hsub : entries ⊆ entries') :
    Attended g entries' z s u := by
  rcases h with ⟨s', hs', hz⟩ | hbehind
  · exact Or.inl ⟨s', hs', hsub hz⟩
  · exact Or.inr (hbehind.mono hsub)

/-- What is answered stays answered with more entries and more set aside. -/
lemma Answered.mono {limited limited' : Array TokenSeq} {f : Entry}
    (h : Answered g k entries limited f) (hsub : entries ⊆ entries')
    (hlimited : ∀ t ∈ limited, t ∈ limited') : Answered g k entries' limited' f where
  plain hz := (h.plain hz).mono hsub
  short hz hlt := by
    obtain ⟨s, hs⟩ := h.short hz hlt
    exact ⟨s, hs.mono hsub⟩
  long hw hlen := hlimited _ (h.long hw hlen)

/-- **An attended match is entered**, if all that can follow entered matches has been seen to.

**Proof sketch.** Strong induction on the stamp. A match that is followed from a node behind under an
older stamp is entered at all nodes on the way, under stamps that are not newer. -/
lemma exists_entry {limited : Array TokenSeq}
    (hall : ∀ f ∈ entries, Answered g k entries limited f) (s : Nat) :
    ∀ {z : NodeId} {u : TokenSeq}, Attended g entries z s u → ∃ s' ≤ s, ⟨z, u, s'⟩ ∈ entries := by
  induction s using Nat.strong_induction_on with
  | _ s ih =>
    intro z u h
    rcases h with hz | ⟨y, s', hs', hy, hpath⟩
    · exact hz
    · have hway : ∃ t ≤ s', (⟨z, u, t⟩ : Entry) ∈ entries := by
        induction hpath with
        | refl => exact ⟨s', le_rfl, hy⟩
        | tail _ hplain ihpath =>
          obtain ⟨t, ht, hx⟩ := ihpath
          obtain ⟨t', ht', hx'⟩ := ih t (ht.trans_lt hs') ((hall _ hx).plain hplain)
          exact ⟨t', ht'.trans ht, hx'⟩
      obtain ⟨t, ht, hz⟩ := hway
      exact ⟨t, ht.trans hs'.le, hz⟩

end

/-! ## Matches that are not followed yet -/

/-- The matches that FOLLOW goes on with from a node. -/
def newcomers (i : NodeId) (following : List (NodeId × TokenSeq)) (ms : List PartialMatch) :
    List PartialMatch :=
  (unfollowed i following ms).map fun m => { m with grown := false }

/-- The entries of matches at a node under a stamp. -/
def entriesOf (i : NodeId) (s : Nat) (ms : List PartialMatch) : List Entry :=
  ms.map fun m => ⟨i, m.tokens, s⟩

section

variable {i : NodeId} {s : Nat} {following : List (NodeId × TokenSeq)} {ms : List PartialMatch}

/-- The sequences of several matches are those of the first one and the others. -/
lemma mem_tokensOf_cons {m : PartialMatch} {t : TokenSeq} :
    t ∈ tokensOf (m :: ms) ↔ t = m.tokens ∨ t ∈ tokensOf ms := List.mem_cons

/-- The matches that are not yet followed.

**Proof sketch.** Induction on the matches: one that is followed already is left out, and any other one
is kept and counts as followed from then on. -/
lemma mem_unfollowed (ms : List PartialMatch) : ∀ {following : List (NodeId × TokenSeq)}
    {t : TokenSeq}, t ∈ tokensOf (unfollowed i following ms) ↔
      t ∈ tokensOf ms ∧ (i, t) ∉ following := by
  induction ms with
  | nil => simp [unfollowed]
  | cons m ms ih =>
    intro following t
    rw [unfollowed]
    split_ifs with hm
    · rw [List.contains_iff_mem] at hm
      rw [ih, mem_tokensOf_cons]
      constructor
      · rintro ⟨ht, hnew⟩
        exact ⟨Or.inr ht, hnew⟩
      · rintro ⟨rfl | ht, hnew⟩
        · exact absurd hm hnew
        · exact ⟨ht, hnew⟩
    · rw [List.contains_iff_mem] at hm
      rw [mem_tokensOf_cons, mem_tokensOf_cons, ih, List.mem_cons, Prod.mk.injEq]
      by_cases heq : t = m.tokens
      · simp [heq, hm]
      · simp [heq]

/-- No match is followed twice. -/
lemma nodup_unfollowed (ms : List PartialMatch) : ∀ {following : List (NodeId × TokenSeq)},
    following.Nodup →
      ((unfollowed i following ms).map (fun m => (i, m.tokens)) ++ following).Nodup := by
  induction ms with
  | nil => exact id
  | cons m ms ih =>
    intro following hnodup
    rw [unfollowed]
    split_ifs with hm
    · exact ih hnodup
    · rw [List.contains_iff_mem] at hm
      exact List.nodup_middle.mp (ih (List.nodup_cons.mpr ⟨hm, hnodup⟩))

/-- FOLLOW goes on with the matches that are not being followed from the node. -/
lemma mem_newcomers {t : TokenSeq} : t ∈ tokensOf (newcomers i following ms) ↔
    t ∈ tokensOf ms ∧ (i, t) ∉ following := by
  rw [← mem_unfollowed, newcomers, tokensOf, List.map_map]
  rfl

/-- Newcomers have not grown. -/
lemma not_grown_of_newcomers {m : PartialMatch} (h : m ∈ newcomers i following ms) :
    m.grown = false := by
  obtain ⟨_, _, rfl⟩ := List.mem_map.mp h
  rfl

/-- The keys of entries are the node and the sequences. -/
lemma keys_entriesOf (i : NodeId) (s : Nat) (ms : List PartialMatch) :
    (entriesOf i s ms).map Entry.key = ms.map fun m => (i, m.tokens) := by
  rw [entriesOf, List.map_map]
  rfl

/-- What the entries of a visit are. -/
lemma mem_entriesOf {f : Entry} :
    f ∈ entriesOf i s ms ↔ f.node = i ∧ f.stamp = s ∧ f.tokens ∈ tokensOf ms := by
  rw [entriesOf, List.mem_map, List.mem_map]
  constructor
  · rintro ⟨m, hm, rfl⟩
    exact ⟨rfl, rfl, m, hm, rfl⟩
  · rintro ⟨rfl, rfl, m, hm, heq⟩
    exact ⟨m, hm, by rw [heq]⟩

/-- No match is followed twice from a node at the same time. -/
lemma nodup_newcomers (h : following.Nodup) (ms : List PartialMatch) :
    ((entriesOf i s (newcomers i following ms)).map Entry.key ++ following).Nodup := by
  rw [keys_entriesOf, newcomers, List.map_map]
  exact nodup_unfollowed ms h

end

/-! ## The walk and its record -/

section

variable (g : Grammar) (k : Nat) (origin : NodeId) (oldest : Nat)

/-- **What holds of the walk** while the entries of `opened` are being followed: they are the matches
that the walk has noted, and a node has the stamp of a visit only if all matches of the stamp are
attended to there. -/
structure FollowState (opened : List Entry) (v : View) : Prop where
  limit : v.engine.limit = k
  considerSemantic : v.engine.considerSemantic = false
  active : v.engine.active = []
  following : v.engine.following = opened.map Entry.key
  nodup : (opened.map Entry.key).Nodup
  pairs : ∀ f ∈ opened, f.key ∈ g.followPairs k
  entered : ∀ f ∈ opened, f ∈ v.entries
  stamps : ∀ z, v.engine.stamps.getD z 0 < v.engine.nextStamp
  stamped : ∀ z, oldest ≤ v.engine.stamps.getD z 0 → ∀ u ∈ v.group (v.engine.stamps.getD z 0),
    Attended g v.entries z (v.engine.stamps.getD z 0) u

/-- **What holds of a visit** to a node with matches under a stamp: the matches are those of the
stamp, but for some that are followed from a node behind under an older stamp; and a node that has
been entered under the stamp has been entered with all of the matches. -/
structure FollowCall (opened : List Entry) (v : View) (ms : List PartialMatch) (i : NodeId)
    (s : Nat) : Prop where
  nonempty : ms ≠ []
  short : Short k ms
  oldest_le : oldest ≤ s
  lt_nextStamp : s < v.engine.nextStamp
  older : ∀ f ∈ opened, f.stamp ≤ s
  grouped : ∀ t ∈ tokensOf ms, t ∈ v.group s
  missing : ∀ u ∈ v.group s, u ∈ tokensOf ms ∨ Behind g v.entries i s u
  same : ∀ f ∈ opened, f.stamp = s → ∀ t ∈ tokensOf ms, (f.node, t) ∈ opened.map Entry.key
  onTree : g.OnTree i
  follows : ∀ t ∈ tokensOf ms, g.Follows origin i t

/-- **What a visit does**: entries are added, and all that can follow them is seen to; stamps keep
their matches; what is set aside is in `cut`. -/
structure Progress (cut : Set TokenSeq) (v v' : View) : Prop where
  entries : v.entries ⊆ v'.entries
  group : ∀ s < v.engine.nextStamp, v'.group s = v.group s
  nextStamp : v.engine.nextStamp ≤ v'.engine.nextStamp
  kept : ∀ t ∈ v.engine.limited, t ∈ v'.engine.limited
  added : ∀ t ∈ v'.engine.limited, t ∈ v.engine.limited ∨ t ∈ cut
  answered : ∀ f ∈ v'.entries, f ∉ v.entries → Answered g k v'.entries v'.engine.limited f

end

section

variable {g : Grammar} {k s : Nat} {cut cut' : Set TokenSeq} {origin i z : NodeId} {oldest : Nat}
  {opened : List Entry} {v v' v'' : View} {ms : List PartialMatch}

/-- No progress. -/
lemma Progress.refl (g : Grammar) (k : Nat) (cut : Set TokenSeq) (v : View) : Progress g k cut v v :=
  ⟨subset_rfl, fun _ _ => rfl, le_rfl, fun _ => id, fun _ => Or.inl, fun _ hf hf' => absurd hf hf'⟩

/-- Progress adds up. -/
lemma Progress.trans (h₁ : Progress g k cut v v') (h₂ : Progress g k cut v' v'') :
    Progress g k cut v v'' where
  entries := h₁.entries.trans h₂.entries
  group t ht := (h₂.group t (ht.trans_le h₁.nextStamp)).trans (h₁.group t ht)
  nextStamp := h₁.nextStamp.trans h₂.nextStamp
  kept t ht := h₂.kept t (h₁.kept t ht)
  added t ht := by
    rcases h₂.added t ht with ht | ht
    · exact h₁.added t ht
    · exact Or.inr ht
  answered f hf hnew := by
    by_cases hf' : f ∈ v'.entries
    · exact (h₁.answered f hf' hnew).mono h₂.entries h₂.kept
    · exact h₂.answered f hf hf'

/-- Progress stays progress under a weaker bound on what is set aside. -/
lemma Progress.mono (h : Progress g k cut v v') (hsub : cut ⊆ cut') : Progress g k cut' v v' :=
  { h with added := fun t ht => (h.added t ht).imp_right fun hcut => hsub hcut }

/-- A visit is still possible after progress.

**Proof sketch.** Stamps given out before keep their groups, and entries are only added. -/
lemma FollowCall.progress (h : FollowCall g k origin oldest opened v ms i s)
    (hp : Progress g k cut v v') : FollowCall g k origin oldest opened v' ms i s where
  nonempty := h.nonempty
  short := h.short
  oldest_le := h.oldest_le
  lt_nextStamp := h.lt_nextStamp.trans_le hp.nextStamp
  older := h.older
  grouped := by
    rw [hp.group s h.lt_nextStamp]
    exact h.grouped
  missing := by
    rw [hp.group s h.lt_nextStamp]
    intro u hu
    exact (h.missing u hu).imp_right fun hb => hb.mono hp.entries
  same := h.same
  onTree := h.onTree
  follows := h.follows

end

/-! ## Entering a node -/

/-- The walk after entering a node with matches under a stamp. -/
def View.enter (v : View) (i : NodeId) (s : Nat) (ms : List PartialMatch) : View where
  entries := v.entries ∪ {f | f ∈ entriesOf i s ms}
  group := v.group
  engine := { v.engine with
    stamps := v.engine.stamps.setIfInBounds i s
    following := ms.map (fun m => (i, m.tokens)) ++ v.engine.following }

/-- The walk with fewer matches noted as being followed. -/
def View.leave (v : View) (count : Nat) : View :=
  { v with engine := { v.engine with following := v.engine.following.drop count } }

section

variable {g : Grammar} {k s : Nat} {cut : Set TokenSeq} {origin i z : NodeId} {oldest : Nat}
  {opened : List Entry} {v v' : View} {ms : List PartialMatch}

/-- A match that is being followed from the node already, under an older stamp.

**Proof sketch.** Had it the same stamp, all matches of the visit were being followed from the node,
and FOLLOW would not go on. -/
lemma FollowCall.behind (hs : FollowState g k oldest opened v)
    (h : FollowCall g k origin oldest opened v ms i s)
    (hne : newcomers i v.engine.following ms ≠ []) {u : TokenSeq} (hu : u ∈ v.group s)
    (hnew : u ∉ tokensOf (newcomers i v.engine.following ms)) : Behind g v.entries i s u := by
  rcases h.missing u hu with hms | hbehind
  · have hfollowed : (i, u) ∈ opened.map Entry.key := by
      rw [← hs.following]
      by_contra hnot
      exact hnew (mem_newcomers.mpr ⟨hms, hnot⟩)
    obtain ⟨⟨node, tokens, s'⟩, hf, heq⟩ := List.mem_map.mp hfollowed
    obtain ⟨rfl, rfl⟩ := Prod.mk.inj heq
    refine ⟨node, s', lt_of_le_of_ne (h.older _ hf) fun hs' => ?_, hs.entered _ hf, .refl⟩
    obtain ⟨m, hm⟩ := List.exists_mem_of_ne_nil _ hne
    obtain ⟨hmem, hnot⟩ := mem_newcomers.mp (List.mem_map_of_mem (f := PartialMatch.tokens) hm)
    rw [hs.following] at hnot
    exact hnot (h.same _ hf hs' _ hmem)
  · exact hbehind

/-- **All matches of the stamp are attended to** at a node that has been entered. -/
lemma FollowCall.attended (hs : FollowState g k oldest opened v)
    (h : FollowCall g k origin oldest opened v ms i s) {u : TokenSeq} (hu : u ∈ v.group s) :
    Attended g (v.enter i s (newcomers i v.engine.following ms)).entries i s u := by
  rcases h.missing u hu with hms | hbehind
  · by_cases hnew : (i, u) ∈ v.engine.following
    · rw [hs.following] at hnew
      obtain ⟨⟨node, tokens, s'⟩, hf, heq⟩ := List.mem_map.mp hnew
      obtain ⟨rfl, rfl⟩ := Prod.mk.inj heq
      exact Or.inl ⟨s', h.older _ hf, Or.inl (hs.entered _ hf)⟩
    · refine Or.inl ⟨s, le_rfl, Or.inr (mem_entriesOf.mpr ⟨rfl, rfl, ?_⟩)⟩
      exact mem_newcomers.mpr ⟨hms, hnew⟩
  · exact Or.inr (hbehind.mono Set.subset_union_left)

/-- What holds of the walk holds after entering a node.

**Proof sketch.** The new entries are those of the newcomers, which were not followed before; so no key
is there twice, and the node has the stamp. -/
lemma FollowState.enter (hs : FollowState g k oldest opened v)
    (h : FollowCall g k origin oldest opened v ms i s) (hi : i < g.nodes.size) :
    FollowState g k oldest (entriesOf i s (newcomers i v.engine.following ms) ++ opened)
      (v.enter i s (newcomers i v.engine.following ms)) where
  limit := hs.limit
  considerSemantic := hs.considerSemantic
  active := hs.active
  following := by
    rw [List.map_append, keys_entriesOf, ← hs.following]
    rfl
  nodup := by
    rw [List.map_append, ← hs.following]
    exact nodup_newcomers (hs.following ▸ hs.nodup) ms
  pairs f hf := by
    rcases List.mem_append.mp hf with hf | hf
    · obtain ⟨rfl, rfl, hmem⟩ := mem_entriesOf.mp hf
      have hms := (mem_newcomers.mp hmem).1
      obtain ⟨m, hm, heq⟩ := List.mem_map.mp hms
      have hlt : f.tokens.length < k := heq ▸ h.short m hm
      refine Finset.mem_product.mpr ⟨Finset.mem_range.mpr hi, ?_⟩
      exact mem_wordsUpTo hlt (h.follows _ hms).mem_letters
    · exact hs.pairs f hf
  entered f hf := by
    rcases List.mem_append.mp hf with hf | hf
    · exact Or.inr hf
    · exact Or.inl (hs.entered f hf)
  stamps z := by
    show (v.engine.stamps.setIfInBounds i s).getD z 0 < v.engine.nextStamp
    rw [getD_setIfInBounds_eq]
    split_ifs
    · exact h.lt_nextStamp
    · exact hs.stamps z
  stamped z := by
    show oldest ≤ (v.engine.stamps.setIfInBounds i s).getD z 0 → ∀ u ∈ v.group
      ((v.engine.stamps.setIfInBounds i s).getD z 0), Attended g _ z
        ((v.engine.stamps.setIfInBounds i s).getD z 0) u
    rw [getD_setIfInBounds_eq]
    split_ifs with hz
    · obtain ⟨rfl, -⟩ := hz
      exact fun _ u hu => h.attended hs hu
    · exact fun hle u hu => (hs.stamped z hle u hu).mono Set.subset_union_left

/-- **A visit without passing a token.** FOLLOW can go on to a node that it rises to, under the same
stamp.

**Proof sketch.** What goes up are the newcomers of the node, under its stamp. They are behind the node
that is risen to, since nothing is read in between. -/
lemma FollowCall.plain (hs : FollowState g k oldest opened v)
    (h : FollowCall g k origin oldest opened v ms i s)
    (hne : newcomers i v.engine.following ms ≠ []) (hplain : g.Plain i z) (hz : g.OnTree z)
    {ms' : List PartialMatch}
    (hms' : ∀ t, t ∈ tokensOf ms' ↔ t ∈ tokensOf (newcomers i v.engine.following ms)) :
    FollowCall g k origin oldest (entriesOf i s (newcomers i v.engine.following ms) ++ opened)
      (v.enter i s (newcomers i v.engine.following ms)) ms' z s := by
  have hsub : ∀ t ∈ tokensOf ms', t ∈ tokensOf ms := fun t ht =>
    (mem_newcomers.mp ((hms' t).mp ht)).1
  refine ⟨?_, ?_, h.oldest_le, h.lt_nextStamp, ?_, ?_, ?_, ?_, hz, ?_⟩
  · obtain ⟨m, hm⟩ := List.exists_mem_of_ne_nil _ hne
    rintro rfl
    exact absurd ((hms' _).mpr (List.mem_map_of_mem hm)) List.not_mem_nil
  · intro m hm
    obtain ⟨m', hm', heq⟩ := List.mem_map.mp (hsub _ (List.mem_map_of_mem hm))
    exact heq ▸ h.short m' hm'
  · intro f hf
    rcases List.mem_append.mp hf with hf | hf
    · exact (mem_entriesOf.mp hf).2.1.le
    · exact h.older f hf
  · exact fun t ht => h.grouped t (hsub t ht)
  · intro u hu
    by_cases hnew : u ∈ tokensOf (newcomers i v.engine.following ms)
    · exact Or.inl ((hms' u).mpr hnew)
    · exact Or.inr (((h.behind hs hne hu hnew).mono Set.subset_union_left).tail hplain)
  · intro f hf heq t ht
    rw [List.map_append, List.mem_append]
    rcases List.mem_append.mp hf with hf | hf
    · refine Or.inl (List.mem_map.mpr ⟨⟨i, t, s⟩, ?_, ?_⟩)
      · exact mem_entriesOf.mpr ⟨rfl, rfl, (hms' t).mp ht⟩
      · rw [Entry.key, (mem_entriesOf.mp hf).1]
    · exact Or.inr (h.same f hf heq t (hsub t ht))
  · intro t ht
    have hfollows := (h.follows t (hsub t ht)).rise hplain
    rwa [List.append_nil] at hfollows

/-- Leaving a node.

**Proof sketch.** The entries of the node are dropped again from what is followed; that they have been
entered is kept in the view. -/
lemma FollowState.leave {news : List Entry} (hs : FollowState g k oldest (news ++ opened) v) :
    FollowState g k oldest opened (v.leave news.length) where
  limit := hs.limit
  considerSemantic := hs.considerSemantic
  active := hs.active
  following := by
    show v.engine.following.drop news.length = _
    rw [hs.following, List.map_append, List.drop_left' (List.length_map _)]
  nodup := by
    have hnodup := hs.nodup
    rw [List.map_append] at hnodup
    exact hnodup.of_append_right
  pairs f hf := hs.pairs f (List.mem_append_right _ hf)
  entered f hf := hs.entered f (List.mem_append_right _ hf)
  stamps := hs.stamps
  stamped := hs.stamped

/-! ## Setting matches aside, and fresh stamps -/

/-- The walk with more matches set aside. -/
def View.withAside (v : View) (ts : List TokenSeq) : View :=
  { v with engine := v.engine.withAside ts }

/-- Setting something aside keeps the state of the walk. -/
lemma FollowState.withAside (hs : FollowState g k oldest opened v) (ts : List TokenSeq) :
    FollowState g k oldest opened (v.withAside ts) where
  limit := hs.limit
  considerSemantic := hs.considerSemantic
  active := hs.active
  following := hs.following
  nodup := hs.nodup
  pairs := hs.pairs
  entered := hs.entered
  stamps := hs.stamps
  stamped := hs.stamped

/-- What is set aside is what was, and the new sequences. -/
lemma mem_limited_withAside {ts : List TokenSeq} {t : TokenSeq} :
    t ∈ (v.withAside ts).engine.limited ↔ t ∈ v.engine.limited ∨ t ∈ ts := by
  simp [View.withAside, Engine.withAside]

/-- Setting aside what may be set aside is progress. -/
lemma progress_withAside {ts : List TokenSeq} (h : ∀ t ∈ ts, t ∈ cut) :
    Progress g k cut v (v.withAside ts) where
  entries := subset_rfl
  group _ _ := rfl
  nextStamp := le_rfl
  kept _ ht := mem_limited_withAside.mpr (Or.inl ht)
  added t ht := (mem_limited_withAside.mp ht).imp_right (h t)
  answered _ hf hf' := absurd hf hf'

/-- The walk with a fresh stamp for matches. -/
def View.renew (v : View) (ms : List PartialMatch) : View where
  entries := v.entries
  group := Function.update v.group v.engine.nextStamp (tokensOf ms)
  engine := { v.engine with nextStamp := v.engine.nextStamp + 1 }

/-- A fresh stamp does not change earlier groups. -/
lemma renew_group {ms : List PartialMatch} (hlt : s < v.engine.nextStamp) :
    (v.renew ms).group s = v.group s :=
  Function.update_of_ne hlt.ne _ _

/-- A fresh stamp keeps the state of the walk. -/
lemma FollowState.renew (hs : FollowState g k oldest opened v) (ms : List PartialMatch) :
    FollowState g k oldest opened (v.renew ms) where
  limit := hs.limit
  considerSemantic := hs.considerSemantic
  active := hs.active
  following := hs.following
  nodup := hs.nodup
  pairs := hs.pairs
  entered := hs.entered
  stamps z := (hs.stamps z).trans (Nat.lt_succ_self _)
  stamped z hle u hu := by
    have hu' : u ∈ (v.renew ms).group (v.engine.stamps.getD z 0) := hu
    rw [renew_group (hs.stamps z)] at hu'
    exact hs.stamped z hle u hu'

/-- A fresh stamp is progress. -/
lemma progress_renew (v : View) (ms : List PartialMatch) : Progress g k cut v (v.renew ms) where
  entries := subset_rfl
  group _ hlt := renew_group hlt
  nextStamp := Nat.le_succ _
  kept _ ht := ht
  added _ ht := Or.inl ht
  answered _ hf hf' := absurd hf hf'

/-- **A visit with matches that grew**, under a fresh stamp. -/
lemma FollowCall.renew (hne : ms ≠ []) (hshort : Short k ms) (hle : oldest ≤ v.engine.nextStamp)
    (holder : ∀ f ∈ opened, f.stamp < v.engine.nextStamp) (hz : g.OnTree z)
    (hfollows : ∀ t ∈ tokensOf ms, g.Follows origin z t) :
    FollowCall g k origin oldest opened (v.renew ms) ms z v.engine.nextStamp := by
  have hgroup : (v.renew ms).group v.engine.nextStamp = tokensOf ms :=
    Function.update_self _ _ _
  refine ⟨hne, hshort, hle, Nat.lt_succ_self _, fun f hf => (holder f hf).le, ?_, ?_, ?_, hz, hfollows⟩
  · rw [hgroup]
    exact fun _ => id
  · rw [hgroup]
    exact fun _ => Or.inl
  · exact fun f hf heq => absurd heq (holder f hf).ne

end

end GrammarForge
