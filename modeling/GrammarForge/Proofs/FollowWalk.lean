import GrammarForge.Proofs.FollowRecord

set_option autoImplicit false

/-!
# FOLLOW finds what can follow an expansion

A visit of FOLLOW enters the node, goes on to all nodes that one rises to, and leaves the node. By
induction on the height it sees to all matches of its stamp. The walk does not get too high, because
on every level one more match is followed from one more node.

## Main definitions

* `above` — what a visit does after entering a node.
* `Handles` — a walk makes progress and returns no matches.

## Main results

* `handles_followWithin` — a visit sees to all matches of its stamp.
* `follow_trails` — what FOLLOW sets aside can be read behind the node.
* `mem_followSequences` — the sequences of FOLLOW are the beginnings of those that can follow.
-/

namespace GrammarForge

open Computability Relation Engine

/-! ## One visit -/

/-- What FOLLOW does after entering a node, if `up` is what it does at the next ones. -/
def above (g : Grammar) (up : List PartialMatch → NodeId → Nat → Walk (List PartialMatch))
    (ms : List PartialMatch) (i : NodeId) (s : Nat) : Walk (List PartialMatch) :=
  match (g.node i).parent with
  | .none => return ms
  | .production p => forEach (fun r => up ms r s) (g.production p).references
  | .node q =>
    match g.kind q with
    | .sequence units => do
      let after ← through (first g) ms (units.drop ((g.node i).index + 1))
      splitFollow (fun ms s => up ms q s) s after
    | .oneOrMore _ | .zeroOrMore _ => do
      let more ← repeated (first g · i) (← passes) ms
      splitFollow (fun ms s => up ms q s) s (ms ++ more)
    | _ => up ms q s

/-- A walk while matches are followed: they are put in front before it, and dropped after it. -/
lemma whileFollowing_eq (i : NodeId) (ms : List PartialMatch) (x : Walk (List PartialMatch))
    (e : Engine) : whileFollowing i ms x e =
      (x { e with following := ms.map (fun m => (i, m.tokens)) ++ e.following }).map fun r =>
        (r.1, { r.2 with following := r.2.following.drop ms.length }) := by
  show (x _).bind _ = _
  cases x { e with following := ms.map (fun m => (i, m.tokens)) ++ e.following } <;> rfl

/-- A visit to a node that hangs on something: unless the node has the stamp, it is entered, and left
in the end.

**Proof sketch.** By the two cases of stamping the node, and then by whether any match is new. -/
lemma followWithin_succ {g : Grammar} {i : NodeId} (hparent : (g.node i).parent ≠ .none)
    (height : Unit → Countdown) (ms : List PartialMatch) (s : Nat) (v : View) :
    followWithin g (.succ height) ms i s v.engine =
      if v.engine.stamps.getD i 0 = s then some ([], v.engine)
      else if newcomers i v.engine.following ms = [] then some ([], (v.enter i s []).engine)
      else
        (above g (followWithin g (height ())) (newcomers i v.engine.following ms) i s
          (v.enter i s (newcomers i v.engine.following ms)).engine).map fun r =>
            (r.1, { r.2 with
              following := r.2.following.drop (newcomers i v.engine.following ms).length }) := by
  by_cases hstamp : v.engine.stamps.getD i 0 = s
  · have hrun : stamp i s v.engine = some (false, v.engine) := by
      show (if v.engine.stamps.getD i 0 = s then _ else _ : Walk Bool) v.engine = _
      rw [if_pos hstamp]
      rfl
    rw [if_pos hstamp, followWithin, bind_eq hrun]
    rfl
  · have hrun : stamp i s v.engine = some (true, (v.enter i s []).engine) := by
      show (if v.engine.stamps.getD i 0 = s then _ else _ : Walk Bool) v.engine = _
      rw [if_neg hstamp]
      rfl
    rw [if_neg hstamp, followWithin, bind_eq hrun]
    simp only [Bool.not_true, Bool.false_eq_true, if_false, hparent]
    have hget : (get : Walk Engine) (v.enter i s []).engine =
      some ((v.enter i s []).engine, (v.enter i s []).engine) := rfl
    rw [bind_eq hget]
    show (if (newcomers i v.engine.following ms).isEmpty then _ else _ : Walk (List PartialMatch)) _ = _
    simp only [List.isEmpty_iff]
    split_ifs with hempty
    · rfl
    · exact whileFollowing_eq i (newcomers i v.engine.following ms)
        (above g (followWithin g (height ())) (newcomers i v.engine.following ms) i s) _

/-! ## Walks that follow all matches -/

section

variable (g : Grammar) (k : Nat) (origin : NodeId) (oldest : Nat)

/-- A walk makes progress and returns no matches, since all of them are followed further. -/
def Handles (opened : List Entry) (x : Walk (List PartialMatch)) (v : View) (post : View → Prop) :
    Prop :=
  ∃ v', x v.engine = some ([], v'.engine) ∧ Progress g k (g.trails k origin) v v' ∧
    FollowState g k oldest opened v' ∧ post v'

/-- All matches of a group are attended to at a node. -/
def AllAttended (group : List TokenSeq) (z : NodeId) (s : Nat) (v : View) : Prop :=
  ∀ u ∈ group, Attended g v.entries z s u

/-- **Visits see to all matches of their stamps**, as long as there is room for more matches that are
being followed. -/
def Visits (room : Nat) (up : List PartialMatch → NodeId → Nat → Walk (List PartialMatch)) : Prop :=
  ∀ {opened : List Entry} {v : View} {ms : List PartialMatch} {z : NodeId} {s : Nat},
    FollowState g k oldest opened v → FollowCall g k origin oldest opened v ms z s →
    (g.followPairs k).card + 1 ≤ room + opened.length →
    Handles g k origin oldest opened (up ms z s) v (AllAttended g (v.group s) z s)

end

section

variable {g : Grammar} {k s : Nat} {origin i z : NodeId} {oldest : Nat} {opened : List Entry}
  {v v' : View} {ms : List PartialMatch} {x : Walk (List PartialMatch)} {post post' : View → Prop}

/-- What is attended stays attended under progress. -/
lemma AllAttended.progress {group : List TokenSeq} (h : AllAttended g group z s v)
    (hp : Progress g k (g.trails k origin) v v') : AllAttended g group z s v' :=
  fun u hu => (h u hu).mono hp.entries

/-- A result without matches handles what is already the case. -/
lemma Handles.pure (hs : FollowState g k oldest opened v) (hpost : post v) :
    Handles g k origin oldest opened (pure []) v post :=
  ⟨v, rfl, Progress.refl g k _ v, hs, hpost⟩

/-- One walk after another. -/
lemma Handles.bind {f : List PartialMatch → Walk (List PartialMatch)}
    (hx : Handles g k origin oldest opened x v post)
    (hf : ∀ v', Progress g k (g.trails k origin) v v' → FollowState g k oldest opened v' → post v' →
      Handles g k origin oldest opened (f []) v' post') :
    Handles g k origin oldest opened (x >>= f) v post' := by
  obtain ⟨v', hrun, hp, hs, hpost⟩ := hx
  obtain ⟨v'', hrun', hp', hs', hpost'⟩ := hf v' hp hs hpost
  refine ⟨v'', ?_, hp.trans hp', hs', hpost'⟩
  rw [bind_eq hrun, hrun']

/-- A walk after a step that makes progress. -/
lemma Handles.after {α : Type} {y : Walk α} {a : α} {f : α → Walk (List PartialMatch)}
    (hy : y v.engine = some (a, v'.engine)) (hp : Progress g k (g.trails k origin) v v')
    (hf : Handles g k origin oldest opened (f a) v' post) :
    Handles g k origin oldest opened (y >>= f) v post := by
  obtain ⟨v'', hrun, hp', hs, hpost⟩ := hf
  refine ⟨v'', ?_, hp.trans hp', hs, hpost⟩
  rw [bind_eq hy, hrun]

/-- What is handled may be weakened. -/
lemma Handles.imp (h : Handles g k origin oldest opened x v post)
    (himp : ∀ v', Progress g k (g.trails k origin) v v' → post v' → post' v') :
    Handles g k origin oldest opened x v post' := by
  obtain ⟨v', hrun, hp, hs, hpost⟩ := h
  exact ⟨v', hrun, hp, hs, himp v' hp hpost⟩

/-- **Several nodes with the same matches**, one after the other.

**Proof sketch.** Induction on the nodes: what has been attended stays so while the others are visited.
-/
lemma Handles.forEach {visit : NodeId → Walk (List PartialMatch)} {group : List TokenSeq}
    (ids : List NodeId) :
    ∀ {v : View}, FollowState g k oldest opened v →
      (∀ r ∈ ids, ∀ v', Progress g k (g.trails k origin) v v' → FollowState g k oldest opened v' →
        Handles g k origin oldest opened (visit r) v' (AllAttended g group r s)) →
      Handles g k origin oldest opened (forEach visit ids) v
        (fun v' => ∀ r ∈ ids, AllAttended g group r s v') := by
  induction ids with
  | nil => exact fun hs _ => Handles.pure hs fun r hr => absurd hr List.not_mem_nil
  | cons r ids ih =>
    intro v hs hvisit
    refine (hvisit r List.mem_cons_self v (Progress.refl g k _ v) hs).bind
      fun v₁ hp₁ hs₁ hr => ?_
    refine Handles.bind (ih hs₁ fun r' hr' v' hp' => hvisit r' (List.mem_cons_of_mem r hr') v'
      (hp₁.trans hp')) fun v₂ hp₂ hs₂ hids => ?_
    refine Handles.pure hs₂ fun r' hr' => ?_
    rcases List.mem_cons.mp hr' with rfl | hr'
    · exact hr.progress hp₂
    · exact hids r' hr'

end

/-! ## Rising from a node -/

/-- **What FOLLOW can do from within a node** with matches under a stamp: it can visit the nodes that
it rises to without passing a token, and any node with matches that grew. -/
structure Within (g : Grammar) (k : Nat) (origin : NodeId) (oldest : Nat) (opened : List Entry)
    (v : View) (up : List PartialMatch → NodeId → Nat → Walk (List PartialMatch))
    (ms : List PartialMatch) (i : NodeId) (s : Nat) : Prop where
  state : FollowState g k oldest opened v
  nonempty : ms ≠ []
  short : Short k ms
  notGrown : ∀ m ∈ ms, m.grown = false
  grouped : ∀ t ∈ tokensOf ms, t ∈ v.group s
  follows : ∀ t ∈ tokensOf ms, g.Follows origin i t
  plain : ∀ {z ms' v'}, g.Plain i z → (∀ t, t ∈ tokensOf ms' ↔ t ∈ tokensOf ms) →
    Progress g k (g.trails k origin) v v' → FollowState g k oldest opened v' →
    Handles g k origin oldest opened (up ms' z s) v' (AllAttended g (v.group s) z s)
  renewed : ∀ {z ms' v'}, g.OnTree z → ms' ≠ [] → Short k ms' →
    (∀ t ∈ tokensOf ms', g.Follows origin z t) →
    Progress g k (g.trails k origin) v v' → FollowState g k oldest opened v' →
    Handles g k origin oldest opened (freshStamp >>= up ms' z) v'
      (fun v'' => ∃ s', AllAttended g (tokensOf ms') z s' v'')

section

variable {g : Grammar} {k s : Nat} {origin i z q : NodeId} {oldest room : Nat} {opened : List Entry}
  {v v' : View} {ms : List PartialMatch} {R : Reading} {after : List PartialMatch}
  {aside : List TokenSeq} {up : List PartialMatch → NodeId → Nat → Walk (List PartialMatch)}

/-- After entering a node, FOLLOW can go on from it.

**Proof sketch.** The newcomers are among the matches of the visit, so that they are short and behind
the node; the pairs that are still to come are fewer by them. -/
lemma Visits.within (hup : Visits g k origin oldest room up) (hl : g.Linked) (ht : g.TreeShaped)
    (hs : FollowState g k oldest opened v) (h : FollowCall g k origin oldest opened v ms i s)
    (hi : i < g.nodes.size) (hne : newcomers i v.engine.following ms ≠ [])
    (hroom : (g.followPairs k).card + 1 ≤
      room + (entriesOf i s (newcomers i v.engine.following ms) ++ opened).length) :
    Within g k origin oldest (entriesOf i s (newcomers i v.engine.following ms) ++ opened)
      (v.enter i s (newcomers i v.engine.following ms)) up (newcomers i v.engine.following ms) i
      s := by
  have hsub : ∀ t ∈ tokensOf (newcomers i v.engine.following ms), t ∈ tokensOf ms :=
    fun t ht => (mem_newcomers.mp ht).1
  refine ⟨hs.enter h hi, hne, ?_, fun m => not_grown_of_newcomers, ?_, ?_, ?_, ?_⟩
  · intro m hm
    obtain ⟨m', hm', heq⟩ := List.mem_map.mp (hsub _ (List.mem_map_of_mem hm))
    exact heq ▸ h.short m' hm'
  · exact fun t ht => h.grouped t (hsub t ht)
  · exact fun t ht => h.follows t (hsub t ht)
  · intro z ms' v' hplain hms' hp hs'
    have hz := hl.onTree_of_rises ht h.onTree hplain
    have hvisit := hup hs' ((h.plain hs hne hplain hz hms').progress hp) hroom
    rwa [hp.group s h.lt_nextStamp] at hvisit
  · intro z ms' v' hz hne' hshort hfollows hp hs'
    have holder : ∀ f ∈ entriesOf i s (newcomers i v.engine.following ms) ++ opened,
        f.stamp < v'.engine.nextStamp := by
      have hlt := h.lt_nextStamp.trans_le hp.nextStamp
      intro f hf
      rcases List.mem_append.mp hf with hf | hf
      · exact (mem_entriesOf.mp hf).2.1.trans_lt hlt
      · exact (h.older f hf).trans_lt hlt
    have hle : oldest ≤ v'.engine.nextStamp :=
      h.oldest_le.trans (h.lt_nextStamp.le.trans hp.nextStamp)
    have hcall := FollowCall.renew hne' hshort hle holder hz hfollows
    have hvisit := hup (hs'.renew ms') hcall hroom
    have hrun : freshStamp v'.engine = some (v'.engine.nextStamp, (v'.renew ms').engine) := rfl
    refine Handles.after hrun (progress_renew v' ms') (hvisit.imp fun v'' _ hall => ?_)
    exact ⟨_, fun u hu => hall u (hcall.grouped u hu)⟩

/-- All that can follow is seen to, if one rises from the node without passing a token. -/
lemma Within.answered_of_plain (h : Within g k origin oldest opened v up ms i s)
    (hnil : ∀ {z w}, g.Rises i z w → w = []) (hstop : ∀ {w}, ¬ g.Passes i w)
    (hall : ∀ {z}, g.Plain i z → AllAttended g (v.group s) z s v') :
    ∀ t ∈ tokensOf ms, Answered g k v'.entries v'.engine.limited ⟨i, t, s⟩ := by
  intro t ht
  refine ⟨fun hz => hall hz t (h.grouped t ht), fun {z w} hz _ => ?_, fun hw _ => absurd hw hstop⟩
  obtain rfl := hnil hz
  rw [List.append_nil]
  exact ⟨s, hall hz t (h.grouped t ht)⟩

/-- The matches that come out unchanged are those that went in, if nothing need be passed.

**Proof sketch.** A match that comes out has not grown just if the word that it has read is empty. -/
lemma Within.mem_same (h : Within g k origin oldest opened v up ms i s)
    (hcarries : Carries k R ms after aside) {t : TokenSeq} :
    t ∈ tokensOf (after.filter fun m => !m.grown) ↔ t ∈ tokensOf ms ∧ [] ∈ R.whole := by
  constructor
  · intro ht
    obtain ⟨x, hx, rfl⟩ := List.mem_map.mp ht
    obtain ⟨hx, hgrown⟩ := List.mem_filter.mp hx
    obtain ⟨m, hm, w, hw, rfl, -⟩ := (hcarries.mem_out x).mp hx
    have hw' : w = [] := by simpa [PartialMatch.after, h.notGrown m hm] using hgrown
    subst hw'
    rw [PartialMatch.after_nil]
    exact ⟨List.mem_map_of_mem hm, hw⟩
  · rintro ⟨ht, hnil⟩
    obtain ⟨m, hm, rfl⟩ := List.mem_map.mp ht
    refine List.mem_map_of_mem (List.mem_filter.mpr ⟨(hcarries.mem_out m).mpr ?_, ?_⟩)
    · refine ⟨m, hm, [], hnil, m.after_nil.symm, ?_⟩
      rw [List.append_nil]
      exact h.short m hm
    · rw [h.notGrown m hm]
      rfl

/-- The matches that passed unchanged come first, then those that grew. -/
lemma splitFollow_eq (up : List PartialMatch → Nat → Walk (List PartialMatch)) (s : Nat)
    (ms : List PartialMatch) : splitFollow up s ms = do
      let sameOut ← (if (ms.filter fun m => !m.grown).isEmpty then pure []
        else up (ms.filter fun m => !m.grown) s : Walk (List PartialMatch))
      let grownOut ← (if (ms.filter PartialMatch.grown).isEmpty then pure []
        else freshStamp >>= up (ms.filter PartialMatch.grown) : Walk (List PartialMatch))
      return grownOut ++ sameOut := by
  rw [splitFollow]
  split_ifs <;> simp only [bind_assoc]

/-- The matches that came out unchanged are followed from the parent, under the same stamp.

**Proof sketch.** If no match came out unchanged, nothing can be passed without reading, since there
were matches. Otherwise they go up under the same stamp. -/
lemma Within.handles_same (h : Within g k origin oldest opened v up ms i s)
    (hrises : ∀ {z w}, g.Rises i z w ↔ z = q ∧ w ∈ R.whole) (hcarries : Carries k R ms after aside)
    (hp : Progress g k (g.trails k origin) v v') (hs : FollowState g k oldest opened v') :
    Handles g k origin oldest opened
      (if (after.filter fun m => !m.grown).isEmpty then pure []
        else up (after.filter fun m => !m.grown) q s) v'
      (fun v'' => [] ∈ R.whole → AllAttended g (v.group s) q s v'') := by
  split_ifs with hempty
  · refine Handles.pure hs fun hnil => ?_
    obtain ⟨m, hm⟩ := List.exists_mem_of_ne_nil ms h.nonempty
    have hmem := (h.mem_same hcarries).mpr ⟨List.mem_map_of_mem hm, hnil⟩
    rw [List.isEmpty_iff.mp hempty] at hmem
    exact absurd hmem List.not_mem_nil
  · have hne : (after.filter fun m => !m.grown) ≠ [] := fun heq => hempty (List.isEmpty_iff.mpr heq)
    obtain ⟨x, hx⟩ := List.exists_mem_of_ne_nil _ hne
    have hnil := ((h.mem_same hcarries).mp (List.mem_map_of_mem hx)).2
    have hsame : ∀ t, t ∈ tokensOf (after.filter fun m => !m.grown) ↔ t ∈ tokensOf ms :=
      fun t => (h.mem_same hcarries).trans (and_iff_left hnil)
    exact (h.plain (hrises.mpr ⟨rfl, hnil⟩) hsame hp hs).imp fun _ _ hall _ => hall

/-- The matches that grew are followed from the parent, under a fresh stamp.

**Proof sketch.** If no match grew, nothing is to be done. Otherwise a fresh stamp is given out, under
which all of them go up to the parent; they are behind it, since they have read words to be passed. -/
lemma Within.handles_grown (h : Within g k origin oldest opened v up ms i s) (hq : g.OnTree q)
    (hrises : ∀ {z w}, g.Rises i z w ↔ z = q ∧ w ∈ R.whole) (hcarries : Carries k R ms after aside)
    (hp : Progress g k (g.trails k origin) v v') (hs : FollowState g k oldest opened v') :
    Handles g k origin oldest opened
      (if (after.filter PartialMatch.grown).isEmpty then pure []
        else freshStamp >>= up (after.filter PartialMatch.grown) q) v'
      (fun v'' => ∀ m ∈ after, m.grown → ∃ s', Attended g v''.entries q s' m.tokens) := by
  split_ifs with hempty
  · refine Handles.pure hs fun m hm hgrown => ?_
    have hmem : m ∈ after.filter PartialMatch.grown := List.mem_filter.mpr ⟨hm, hgrown⟩
    rw [List.isEmpty_iff.mp hempty] at hmem
    exact absurd hmem List.not_mem_nil
  · have hne : after.filter PartialMatch.grown ≠ [] := fun heq => hempty (List.isEmpty_iff.mpr heq)
    have hshort : Short k (after.filter PartialMatch.grown) := fun m hm =>
      hcarries.short m (List.mem_filter.mp hm).1
    have hfollows : ∀ t ∈ tokensOf (after.filter PartialMatch.grown), g.Follows origin q t := by
      intro t ht
      obtain ⟨x, hx, rfl⟩ := List.mem_map.mp ht
      obtain ⟨m, hm, w, hw, rfl, -⟩ := (hcarries.mem_out x).mp (List.mem_filter.mp hx).1
      exact (h.follows _ (List.mem_map_of_mem hm)).rise (hrises.mpr ⟨rfl, hw⟩)
    refine (h.renewed hq hne hshort hfollows hp hs).imp fun v'' _ hall m hm hgrown => ?_
    obtain ⟨s', hall⟩ := hall
    exact ⟨s', hall _ (List.mem_map_of_mem (List.mem_filter.mpr ⟨hm, hgrown⟩))⟩

/-- **Going up to the parent** past the words of a language: all that can follow is seen to.

**Proof sketch.** The walk past the words carries the matches along. Those that have not grown go up
under the same stamp, those that have grown under a fresh one, and what is set aside is the beginning of
a trail. -/
lemma Within.handles_split {x : Walk (List PartialMatch)}
    (h : Within g k origin oldest opened v up ms i s) (hq : g.OnTree q)
    (hrises : ∀ {z w}, g.Rises i z w ↔ z = q ∧ w ∈ R.whole)
    (hpasses : ∀ {w}, g.Passes i w ↔ w ∈ R.begun) (hcarried : Carried k false [] [] x R ms) :
    Handles g k origin oldest opened (x >>= splitFollow (fun ms s => up ms q s) s) v (fun v' =>
      ∀ t ∈ tokensOf ms, Answered g k v'.entries v'.engine.limited ⟨i, t, s⟩) := by
  have hs := h.state
  obtain ⟨after, aside, hrun, hcarries⟩ := hcarried v.engine hs.limit hs.considerSemantic hs.active
  rw [List.nil_append] at hcarries
  have haside : Progress g k (g.trails k origin) v (v.withAside aside) := by
    refine progress_withAside fun t ht => ?_
    obtain ⟨m, hm, w, hw, rfl, hlen⟩ := (hcarries.mem_aside t).mp ht
    exact ⟨⟨i, _, w, h.follows _ (List.mem_map_of_mem hm), hpasses.mpr hw, rfl⟩, hlen⟩
  have hsplit : Handles g k origin oldest opened (splitFollow (fun ms s => up ms q s) s after)
      (v.withAside aside) (fun v' => ([] ∈ R.whole → AllAttended g (v.group s) q s v') ∧
        ∀ m ∈ after, m.grown → ∃ s', Attended g v'.entries q s' m.tokens) := by
    rw [splitFollow_eq]
    refine (h.handles_same hrises hcarries haside (hs.withAside aside)).bind fun v₁ hp₁ hs₁ hsame => ?_
    refine (h.handles_grown hq hrises hcarries (haside.trans hp₁) hs₁).bind fun v₂ hp₂ hs₂ hgrown => ?_
    exact Handles.pure hs₂ ⟨fun hnil => (hsame hnil).progress hp₂, hgrown⟩
  refine Handles.after hrun haside (hsplit.imp fun v' hp hpost t ht => ?_)
  obtain ⟨hsame, hgrown⟩ := hpost
  refine ⟨fun hz => ?_, fun {z w} hz hlt => ?_, fun {w} hw hlen => ?_⟩
  · obtain ⟨rfl, hnil⟩ := hrises.mp hz
    exact hsame hnil t (h.grouped t ht)
  · obtain ⟨rfl, hw⟩ := hrises.mp hz
    by_cases hnil : w = []
    · subst hnil
      rw [List.append_nil]
      exact ⟨s, hsame hw t (h.grouped t ht)⟩
    · obtain ⟨m, hm, rfl⟩ := List.mem_map.mp ht
      have hafter : m.after w ∈ after := (hcarries.mem_out _).mpr ⟨m, hm, w, hw, rfl, hlt⟩
      exact hgrown _ hafter (by simp [PartialMatch.after, hnil])
  · obtain ⟨m, hm, rfl⟩ := List.mem_map.mp ht
    have haside' := (hcarries.mem_aside _).mpr ⟨m, hm, w, hpasses.mp hw, rfl, hlen⟩
    exact hp.kept _ (mem_limited_withAside.mpr (Or.inr haside'))

/-- Some more passes through the body of a repetition, or none. -/
lemma carried_more (hg : g.Predictive) (hne : ms ≠ []) (hshort : Short k ms) (i : NodeId) :
    Carried k false [] [] (do
      let more ← repeated (first g · i) (← passes) ms
      return ms ++ more) (1 + (g.reading [i]).plus) ms := by
  let ok : List PartialMatch → Prop := fun ms' => ms' ≠ [] ∧ Short k ms'
  have hrepeated : Carried k false [] [] (repeated (first g · i) (k + 1) ms)
      (g.reading [i]).plus ms :=
    Carried.plus (Carried.repeated ok
      (fun ms' h => carried_first hg (unconditional_false g) h.1 h.2 i)
      (fun _ hmid hne' => ⟨hne', hmid.short⟩) _ ⟨hne, hshort⟩)
  exact Carried.passes (Carried.bind hrepeated fun more aside hmore =>
    Carried.pure ((Carries.one hshort).add hmore))

/-- The units after a unit of a sequence. -/
lemma carried_rest (hg : g.Predictive) (hne : ms ≠ []) (hshort : Short k ms) (units : List NodeId) :
    Carried k false [] [] (through (first g) ms units) (g.reading units) ms := by
  refine carried_through (fun {_ u _ _ _} _ hmid hne' =>
    carried_first hg (unconditional_false g) hne' hmid.short u) units
    (List.nil_append units).symm ?_ hne
  rw [Grammar.reading_nil]
  exact Carries.one hshort

/-- **From within a node, all that can follow is seen to.**

**Proof sketch.** By the parent of the node: a production, from which the walk goes on to its
references, or a node, where the words between are those of the units behind, of the passes of a loop,
or none. -/
lemma Within.handles_above (h : Within g k origin oldest opened v up ms i s) (hl : g.Linked)
    (ht : g.TreeShaped) (hg : g.Predictive) (hi : g.OnTree i) :
    Handles g k origin oldest opened (above g up ms i s) v (fun v' =>
      ∀ t ∈ tokensOf ms, Answered g k v'.entries v'.engine.limited ⟨i, t, s⟩) := by
  rcases hl.up ht hi with ⟨p, hparent, hrises, hstop⟩ | ⟨q, hparent, hpart, hq, hrises, hpasses⟩
  · simp only [above, hparent]
    refine (Handles.forEach (g.references p) h.state fun r hr v' hp hs => h.plain
      ((hrises r []).mpr ⟨rfl, hr⟩) (fun _ => Iff.rfl) hp hs).imp fun v' _ hall => ?_
    exact h.answered_of_plain (fun hz => ((hrises _ _).mp hz).1) (hstop _)
      (fun hz => hall _ ((hrises _ _).mp hz).2)
  · -- the parent of a choice or an optional body
    have hone : g.riseReading q i (g.node i).index = 1 →
        Handles g k origin oldest opened (up ms q s) v
          (fun v' => ∀ t ∈ tokensOf ms, Answered g k v'.entries v'.engine.limited ⟨i, t, s⟩) := by
      intro hreading
      rw [hreading] at hrises hpasses
      have hplain : g.Plain i q := (hrises q []).mpr ⟨rfl, Language.nil_mem_one⟩
      refine (h.plain hplain (fun _ => Iff.rfl) (Progress.refl g k _ v) h.state).imp
        fun v' _ hall => h.answered_of_plain (fun {z w} hz => ?_) (fun {w} hw => ?_) fun hz => ?_
      · exact ((hrises z w).mp hz).2
      · exact Reading.notMem_begun_one ((hpasses w).mp hw)
      · rw [((hrises _ _).mp hz).1]
        exact hall
    cases hk : g.kind q with
    | sequence units =>
      simp only [Grammar.riseReading, hk] at hrises hpasses
      simp only [above, hparent, hk]
      exact h.handles_split hq (hrises _ _) (hpasses _) (carried_rest hg h.nonempty h.short _)
    | oneOrMore b =>
      simp only [Grammar.riseReading, hk] at hrises hpasses
      have hsplit := h.handles_split hq (hrises _ _) (hpasses _)
        (carried_more hg h.nonempty h.short i)
      simp only [bind_assoc, pure_bind] at hsplit
      simpa only [above, hparent, hk] using hsplit
    | zeroOrMore b =>
      simp only [Grammar.riseReading, hk] at hrises hpasses
      have hsplit := h.handles_split hq (hrises _ _) (hpasses _)
        (carried_more hg h.nonempty h.short i)
      simp only [bind_assoc, pure_bind] at hsplit
      simpa only [above, hparent, hk] using hsplit
    | choice alternatives =>
      simp only [above, hparent, hk]
      exact hone (by rw [Grammar.riseReading, hk])
    | zeroOrOne b =>
      simp only [above, hparent, hk]
      exact hone (by rw [Grammar.riseReading, hk])
    | token | nonterminal | lookahead | action =>
      rw [Grammar.Part, hk] at hpart
      cases hpart

/-! ## The whole walk -/

/-- A node that hangs on something. -/
lemma lt_size_of_parent (h : (g.node i).parent ≠ .none) : i < g.nodes.size := by
  by_contra hge
  rw [Grammar.node, Array.getD_eq_getD_getElem?, Array.getElem?_eq_none (Nat.not_lt.mp hge)] at h
  exact h rfl

/-- At no time are more matches followed than there are. -/
lemma FollowState.length_le (hs : FollowState g k oldest opened v) :
    opened.length ≤ (g.followPairs k).card := by
  calc opened.length = (opened.map Entry.key).toFinset.card := by
        rw [List.toFinset_card_of_nodup hs.nodup, List.length_map]
    _ ≤ (g.followPairs k).card := by
        refine Finset.card_le_card fun x hx => ?_
        obtain ⟨f, hf, rfl⟩ := List.mem_map.mp (List.mem_toFinset.mp hx)
        exact hs.pairs f hf

/-- Entering a node, seeing to all that can follow, and leaving it. -/
lemma Progress.leave (hp : Progress g k (g.trails k origin) (v.enter i s ms) v')
    (hall : ∀ t ∈ tokensOf ms, Answered g k v'.entries v'.engine.limited ⟨i, t, s⟩) (count : Nat) :
    Progress g k (g.trails k origin) v (v'.leave count) where
  entries := Set.subset_union_left.trans hp.entries
  group := hp.group
  nextStamp := hp.nextStamp
  kept := hp.kept
  added := hp.added
  answered f hf hnew := by
    by_cases hf' : f ∈ (v.enter i s ms).entries
    · obtain ⟨rfl, rfl, hmem⟩ := mem_entriesOf.mp (hf'.resolve_left hnew)
      exact hall f.tokens hmem
    · exact hp.answered f hf hf'

/-- **A visit of FOLLOW sees to all matches of its stamp.**

**Proof sketch.** Induction on the height. A node that has the stamp already has been visited with
all matches of the stamp. Otherwise it is entered, which attends to them, and FOLLOW rises from it
with those that are not being followed yet. There is at least one of them on every level, so the
height is enough. -/
theorem handles_followWithin (hl : g.Linked) (ht : g.TreeShaped) (hg : g.Predictive)
    (height : Countdown) : Visits g k origin oldest height.steps (followWithin g height) := by
  induction height with
  | zero =>
    intro opened v ms i s hs _ hroom
    have hle := hs.length_le
    rw [Countdown.steps] at hroom
    omega
  | succ height ih =>
    intro opened v ms i s hs h hroom
    have hparent : (g.node i).parent ≠ .none := by
      rcases hl.up ht h.onTree with ⟨p, hp, -⟩ | ⟨q, hq, -⟩
      · simp [hp]
      · simp [hq]
    have hi := lt_size_of_parent hparent
    have henter := hs.enter h hi
    have hrun := followWithin_succ hparent height ms s v
    by_cases hstamp : v.engine.stamps.getD i 0 = s
    · rw [if_pos hstamp] at hrun
      have hstamped := hs.stamped i
      rw [hstamp] at hstamped
      exact ⟨v, hrun, Progress.refl g k _ v, hs, hstamped h.oldest_le⟩
    · rw [if_neg hstamp] at hrun
      by_cases hempty : newcomers i v.engine.following ms = []
      · have hattended := fun u hu => h.attended (u := u) hs hu
        rw [hempty] at henter hattended
        rw [if_pos hempty] at hrun
        refine ⟨v.enter i s [], hrun, ?_, henter, hattended⟩
        exact (Progress.refl g k _ (v.enter i s [])).leave (fun t ht => absurd ht List.not_mem_nil) 0
      · rw [if_neg hempty] at hrun
        have hpos := List.length_pos_iff.mpr hempty
        have hroom' : (g.followPairs k).card + 1 ≤ (height ()).steps +
            (entriesOf i s (newcomers i v.engine.following ms) ++ opened).length := by
          rw [Countdown.steps] at hroom
          rw [List.length_append, entriesOf, List.length_map]
          omega
        have hwithin := Visits.within (ih ()) hl ht hs h hi hempty hroom'
        obtain ⟨v', hrun', hp, hs', hall⟩ := hwithin.handles_above hl ht hg h.onTree
        have hleave := hs'.leave
        rw [entriesOf, List.length_map] at hleave
        rw [hrun'] at hrun
        refine ⟨v'.leave (newcomers i v.engine.following ms).length, hrun, hp.leave hall _, hleave,
          fun u hu => ?_⟩
        exact (h.attended hs hu).mono hp.entries

end

/-! ## The sequences of FOLLOW -/

/-- An engine between two walks: nothing is being expanded or followed, and all stamps have been given
out. -/
structure Engine.Idle (e : Engine) : Prop where
  active : e.active = []
  following : e.following = []
  stamps : ∀ z, e.stamps.getD z 0 < e.nextStamp

/-- A new engine is idle. -/
lemma idle_new (g : Grammar) : (new g).Idle := by
  refine ⟨rfl, rfl, fun z => ?_⟩
  show (Array.replicate g.nodes.size 0).getD z 0 < 1
  rw [Array.getD_eq_getD_getElem?, Array.getElem?_replicate]
  split_ifs <;> decide

/-- The record when FOLLOW begins with an empty match. -/
def View.begin (e : Engine) : View where
  entries := ∅
  group := fun _ => [[]]
  engine := { e with nextStamp := e.nextStamp + 1 }

section

variable {g : Grammar} {k : Nat} {i : NodeId} {e : Engine}

/-- The height of FOLLOW is enough for one match. -/
lemma card_followPairs_lt_steps (g : Grammar) (k : Nat) :
    (g.followPairs k).card + 1 ≤ (followHeight g k 1).steps := by
  have hpos : 1 ≤ (g.nodes.size + 1) ^ k := Nat.one_le_pow _ _ (Nat.succ_pos _)
  calc (g.followPairs k).card + 1
      ≤ g.nodes.size * (g.nodes.size + 1) ^ k + (g.nodes.size + 1) ^ k :=
        Nat.add_le_add (g.card_followPairs_le k) hpos
    _ = (g.nodes.size + 1) * (g.nodes.size + 1) ^ k := by rw [Nat.add_mul, Nat.one_mul]
    _ ≤ (g.nodes.size * 1 + 2) * (g.nodes.size + 1) ^ k :=
        Nat.mul_le_mul_right _ (by omega)
    _ ≤ _ := Countdown.le_steps_geometric _ _ _

/-- What holds of the walk in the beginning. -/
lemma followState_begin (hsem : e.considerSemantic = false) (he : e.Idle) :
    FollowState g e.limit e.nextStamp [] (View.begin e) where
  limit := rfl
  considerSemantic := hsem
  active := he.active
  following := he.following
  nodup := List.nodup_nil
  pairs _ hf := absurd hf List.not_mem_nil
  entered _ hf := absurd hf List.not_mem_nil
  stamps z := (he.stamps z).trans (Nat.lt_succ_self _)
  stamped z hle := absurd (he.stamps z) (Nat.not_lt.mpr hle)

/-- What holds of the first visit. -/
lemma followCall_begin (hk : 1 ≤ k) (hi : g.OnTree i) :
    FollowCall g k i e.nextStamp [] (View.begin e) start i e.nextStamp where
  nonempty := List.cons_ne_nil _ _
  short := short_start hk
  oldest_le := le_rfl
  lt_nextStamp := Nat.lt_succ_self _
  older _ hf := absurd hf List.not_mem_nil
  grouped _ ht := ht
  missing _ hu := Or.inl hu
  same _ hf := absurd hf List.not_mem_nil
  onTree := hi
  follows t ht := by
    rw [List.mem_singleton.mp ht]
    exact .refl

/-- **FOLLOW, begun with an empty match**: all that can follow is entered as long as it is short, and
what can be read behind the node is set aside when it reaches the limit.

**Proof sketch.** Every match that is followed is answered in the end. Along the way from the node to
what can follow it, each step is answered by an entry, as long as the match is short, or by what is set
aside. -/
lemma follow_trails (hl : g.Linked) (ht : g.TreeShaped) (hg : g.Predictive)
    (hsem : e.considerSemantic = false) (he : e.Idle) (hk : 1 ≤ e.limit) (hi : g.OnTree i) :
    ∃ v, follow g start i e = some ([], v.engine) ∧
      Progress g e.limit (g.trails e.limit i) (View.begin e) v ∧
      FollowState g e.limit e.nextStamp [] v ∧
      (∀ m u, g.Follows i m u → u.length < e.limit → ∃ s, ⟨m, u, s⟩ ∈ v.entries) ∧
      ∀ t ∈ g.trails e.limit i, t ∈ v.engine.limited := by
  obtain ⟨v, hrun, hp, hs, hall⟩ := handles_followWithin hl ht hg (followHeight g e.limit 1)
    (followState_begin hsem he) (followCall_begin hk hi) (card_followPairs_lt_steps g e.limit)
  have hanswered : ∀ f ∈ v.entries, Answered g e.limit v.entries v.engine.limited f :=
    fun f hf => hp.answered f hf (Set.notMem_empty f)
  have hway : ∀ b, ReflTransGen g.Rise (i, []) b → b.2.length < e.limit →
      ∃ s, ⟨b.1, b.2, s⟩ ∈ v.entries := by
    intro b hb
    induction hb with
    | refl =>
      intro _
      obtain ⟨s, -, hs⟩ := exists_entry hanswered _ (hall [] (List.mem_singleton_self _))
      exact ⟨s, hs⟩
    | @tail b c _ hrise ih =>
      obtain ⟨w, hw, heq⟩ := hrise
      rw [heq]
      intro hshort
      have hlt : b.2.length < e.limit := by
        rw [List.length_append] at hshort
        omega
      obtain ⟨s, hs⟩ := ih hlt
      obtain ⟨s', hattended⟩ := (hanswered _ hs).short hw hshort
      obtain ⟨t, -, ht⟩ := exists_entry hanswered s' hattended
      exact ⟨t, ht⟩
  refine ⟨v, hrun, hp, hs, fun m u hu => hway (m, u) hu, ?_⟩
  rintro t ⟨⟨j, u, w, hu, hw, rfl⟩, hlen⟩
  have hpos := List.length_pos_iff.mpr hw.ne_nil
  have hlt : u.length < e.limit := by
    rw [List.length_append] at hlen
    omega
  obtain ⟨s, hs⟩ := hway (j, u) hu hlt
  exact (hanswered _ hs).long hw hlen

/-- FOLLOW in a grammar that can be expanded from the top: what is set aside are the words that can
follow, cut at the limit.

**Proof sketch.** What is read on a way that stops is the beginning of a word that can follow, since
every row derives something; and a word that can follow is itself read on a way up. -/
lemma follow_start (hl : g.Linked) (ht : g.TreeShaped) (hg : g.TopDown)
    (hsem : e.considerSemantic = false) (he : e.Idle) (hk : 1 ≤ e.limit) (hi : g.OnTree i) :
    ∃ v, follow g start i e = some ([], v.engine) ∧
      Progress g e.limit {t | ∃ z u, g.Follows i z u ∧ e.limit ≤ u.length ∧ t = u.take e.limit}
        (View.begin e) v ∧
      FollowState g e.limit e.nextStamp [] v ∧ ∀ m u, g.Follows i m u →
        (u.length < e.limit → ∃ s, ⟨m, u, s⟩ ∈ v.entries) ∧
        (e.limit ≤ u.length → u.take e.limit ∈ v.engine.limited) := by
  obtain ⟨v, hrun, hp, hs, hshort, hlong⟩ := follow_trails hl ht hg.predictive hsem he hk hi
  refine ⟨v, hrun, hp.mono ?_, hs, fun m u hu => ⟨hshort m u hu, fun hle => hlong _ ?_⟩⟩
  · rintro t ⟨⟨j, u, w, hu, hw, rfl⟩, hlen⟩
    obtain ⟨z, w', hrise, hpre⟩ := hw.exists_rise hg
    have hpre' : u ++ w <+: u ++ w' := (List.prefix_append_right_inj u).mpr hpre
    refine ⟨z, u ++ w', hu.rise hrise, hlen ▸ hpre'.length_le, ?_⟩
    rw [← hlen]
    exact List.prefix_iff_eq_take.mp hpre'
  · have hlen : (u.take e.limit).length = e.limit := List.length_take_of_le hle
    refine ⟨hu.trails (List.take_prefix _ _) fun hnil => ?_, hlen⟩
    rw [hnil, List.length_nil] at hlen
    omega

/-- **FOLLOW is exact.** After linking, let a grammar be a tree that can be expanded from the top,
without lookaheads that have an expansion of their own. Then the sequences of FOLLOW up to `k` tokens
at a node of a production are the sequences that can follow the node, cut at `k` tokens; those that
are shorter do not count. Conditions at run time are not considered. The engine is idle afterwards, as
before.

**Proof sketch.** FOLLOW starts with an empty match and an engine set up for it; the trails that reach
the limit are set aside, and these are the sequences that can follow, cut at the limit. -/
theorem mem_followSequences {g : Grammar} {ds : Diagnostics} (hids : g.unknownId? = none)
    (hscan : ∀ {i spec}, g.kind i = .lookahead spec → spec.expansion = none)
    (hg : (g.link ds).1.TopDown) (ht : (g.link ds).1.TreeShaped) {e : Engine}
    (hsem : e.considerSemantic = false) (he : e.Idle) {i : NodeId}
    (hi : (g.link ds).1.InProduction i) {k : Nat} (hk : 1 ≤ k) :
    (∀ w, w ∈ (e.followSequences (g.link ds).1 i k).1 ↔
        ∃ m u, (g.link ds).1.Follows i m u ∧ k ≤ u.length ∧ u.take k = w) ∧
      (e.followSequences (g.link ds).1 i k).2.Idle := by
  have hl := Grammar.linked_link hids hscan hg
  set h := (g.link ds).1
  set e₀ := (e.setLimit k).takeLimited.2 with he₀
  have hlimit : e₀.limit = k := Nat.max_eq_left hk
  have hsem₀ : e₀.considerSemantic = false := hsem
  have hidle : e₀.Idle := ⟨he.active, he.following, he.stamps⟩
  obtain ⟨v, hrun, hp, hs, hall⟩ :=
    follow_start hl ht hg hsem₀ hidle (hk.trans_eq hlimit.symm) ((hl.onTree i).mp hi)
  have hfollow : e.followSequences h i k = collect ([], v.engine) := by
    rw [followSequences, ← he₀, followSet, hrun, Option.getD_some]
  rw [hlimit] at hp hall
  rw [hfollow]
  refine ⟨fun w => ?_, hs.active, hs.following, hs.stamps⟩
  rw [mem_collect]
  constructor
  · rintro (hw | hw)
    · exact absurd hw List.not_mem_nil
    · rcases hp.added w hw with hw | ⟨m, u, hu, hle, rfl⟩
      · exact absurd hw (Array.not_mem_empty w)
      · exact ⟨m, u, hu, hle, rfl⟩
  · rintro ⟨m, u, hu, hle, rfl⟩
    exact Or.inr ((hall m u hu).2 hle)

end

/-! ## References outside of all productions -/

/-- One step up, where nodes that do not belong to a production count as references as well. -/
inductive Grammar.RisesAnywhere (g : Grammar) : NodeId → NodeId → TokenSeq → Prop
  | rise {i z : NodeId} {w : TokenSeq} : g.Rises i z w → RisesAnywhere g i z w
  | reference {i r p : Nat} {name : String} : g.body p = some i →
      g.kind r = .nonterminal name (some p) → RisesAnywhere g i r []

/-- A token sequence is passed on a way up to `j`, if all references count. -/
def Grammar.FollowsAnywhere (g : Grammar) (i j : NodeId) (u : TokenSeq) : Prop :=
  ReflTransGen (fun a b : NodeId × TokenSeq => ∃ w, g.RisesAnywhere a.1 b.1 w ∧ b.2 = a.2 ++ w)
    (i, []) (j, u)

/-- A reference within a production, and one that does not belong to any. -/
def strayReference : Grammar :=
  let (inner, g) := Grammar.empty.nonterminal "T"
  let (a, g) := g.literal "a"
  let (body, g) := g.sequence [inner, a]
  let (_, g) := g.addProduction "S" body
  let (x, g) := g.literal "x"
  let (_, g) := g.addProduction "T" x
  let (stray, g) := g.nonterminal "T"
  let (y, g) := g.literal "y"
  (g.sequence [stray, y]).2

/-- The example after linking. -/
def strayLinked : Grammar := (strayReference.link {}).1

/-- A lookahead of this grammar has nothing of its own to scan. -/
lemma expansion_strayReference {i : NodeId} {spec : LookaheadSpec}
    (hk : strayReference.kind i = .lookahead spec) : spec.expansion = none := by
  have hall : ∀ j < strayReference.nodes.size, (strayReference.kind j).scanned? = none := by
    decide +kernel
  have hnone := hall i (Grammar.lt_size_of_kind (by simp [hk]))
  rwa [hk] at hnone

/-- The linked grammar can be expanded from the top. -/
lemma topDown_strayLinked : strayLinked.TopDown := by
  have hall : ∀ i < strayLinked.nodes.size,
      strayLinked.Descends (fun i => [1, 0, 0, 2, 0, 1, 0, 0, 2].getD i 0) i := by
    decide +kernel
  exact Grammar.topDown_of_descends hall

/-- The linked grammar is a tree. -/
lemma treeShaped_strayLinked : strayLinked.TreeShaped := by decide +kernel

/-- The start of its production is a node of it. -/
lemma inProduction_strayLinked : strayLinked.InProduction 4 :=
  ⟨1, 4, by decide +kernel, .refl⟩

/-- FOLLOW at this node gives what can follow it, cut at one token. -/
theorem mem_followSequences_strayLinked : strayReference.unknownId? = none ∧ strayLinked.TopDown ∧
    strayLinked.TreeShaped ∧ strayLinked.InProduction 4 ∧
    (∀ w, w ∈ ((new strayLinked).followSequences strayLinked 4 1).1 ↔
      ∃ m u, strayLinked.Follows 4 m u ∧ 1 ≤ u.length ∧ u.take 1 = w) ∧
      ((new strayLinked).followSequences strayLinked 4 1).2.Idle :=
  ⟨by decide +kernel, topDown_strayLinked, treeShaped_strayLinked, inProduction_strayLinked,
    mem_followSequences (g := strayReference) (by decide +kernel) expansion_strayReference
      topDown_strayLinked treeShaped_strayLinked rfl (idle_new strayLinked) inProduction_strayLinked
      le_rfl⟩

/-- **The stray reference does not count**: what comes after it does not follow the production, though
a reference it is.

**Proof sketch.** FOLLOW finds one token only. By the stray reference the other one could follow, too.
-/
theorem followSequences_stray : strayReference.unknownId? = none ∧
    (∀ {i spec}, strayReference.kind i = .lookahead spec → spec.expansion = none) ∧
    strayLinked.TopDown ∧ strayLinked.TreeShaped ∧ strayLinked.InProduction 4 ∧
    ¬ ∀ w, w ∈ ((new strayLinked).followSequences strayLinked 4 1).1 ↔
      ∃ m u, strayLinked.FollowsAnywhere 4 m u ∧ 1 ≤ u.length ∧ u.take 1 = w := by
  refine ⟨by decide +kernel, expansion_strayReference, topDown_strayLinked, treeShaped_strayLinked,
    inProduction_strayLinked, fun hall => ?_⟩
  have hrun : ((new strayLinked).followSequences strayLinked 4 1).1 = [[1]] := by decide +kernel
  have hreference : strayLinked.RisesAnywhere 4 5 [] := by
    have hroot : strayLinked.body 1 = some 4 := by decide +kernel
    have hk : strayLinked.kind 5 = .nonterminal "T" (some 1) := by decide +kernel
    exact .reference hroot hk
  have hpast : strayLinked.RisesAnywhere 5 8 [3] := by
    have hk : strayLinked.kind 8 = .sequence ([7] ++ 5 :: [6]) := by decide +kernel
    have htoken : strayLinked.kind 6 = .token 3 := by decide +kernel
    exact .rise (.unit hk (.token htoken .nil))
  have hup : strayLinked.FollowsAnywhere 4 5 [] := ReflTransGen.single ⟨[], hreference, rfl⟩
  have hfollows : strayLinked.FollowsAnywhere 4 8 [3] := ReflTransGen.tail hup ⟨[3], hpast, rfl⟩
  have hmem := (hall [3]).mpr ⟨8, [3], hfollows, le_rfl, rfl⟩
  rw [hrun] at hmem
  exact absurd hmem (by decide)

end GrammarForge
