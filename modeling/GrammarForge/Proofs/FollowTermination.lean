import GrammarForge.Proofs.FirstTermination
import GrammarForge.Proofs.FollowWalk

set_option autoImplicit false

/-!
# FOLLOW comes to an end

FOLLOW goes up from node to node, and productions may refer to each other in any way. On every level
it notes one more match that is being followed from a node, and there are only so many of them: all
matches come from the given ones, and those that grew are below the limit. When it is done, it has
taken back all notes.

## Main definitions

* `Engine.Keeps` — the settings and the notes of the walks are as they were.
* `followable`, `unfollowedPairs` — the matches that can be followed from nodes, and those that are not.

## Main results

* `ends_above` — what FOLLOW does from within a node comes to an end if its visits do.
* `ends_followWithin` — FOLLOW comes to an end while there are matches to be followed.
* `walks_end` — FIRST and FOLLOW come to an end on every grammar.
-/

namespace GrammarForge

open Relation Engine

/-! ## What a walk leaves as it was -/

/-- **The settings and the notes of the walks are as they were**; matches may have been set aside, and
nodes may have got other stamps. -/
structure Engine.Keeps (e e' : Engine) : Prop where
  limit : e'.limit = e.limit
  considerSemantic : e'.considerSemantic = e.considerSemantic
  active : e'.active = e.active
  following : e'.following = e.following
  size : e'.stamps.size = e.stamps.size

namespace Engine.Keeps

variable {e e' e'' : Engine}

/-- Nothing has happened. -/
lemma refl (e : Engine) : e.Keeps e := ⟨rfl, rfl, rfl, rfl, rfl⟩

/-- What is kept twice is kept. -/
lemma trans (h : e.Keeps e') (h' : e'.Keeps e'') : e.Keeps e'' where
  limit := h'.limit.trans h.limit
  considerSemantic := h'.considerSemantic.trans h.considerSemantic
  active := h'.active.trans h.active
  following := h'.following.trans h.following
  size := h'.size.trans h.size

/-- A stamp keeps the rest of the engine. -/
lemma stamped (e : Engine) (i : NodeId) (s : Nat) :
    e.Keeps { e with stamps := e.stamps.setIfInBounds i s } :=
  ⟨rfl, rfl, rfl, rfl, Array.size_setIfInBounds⟩

end Engine.Keeps

/-- What goes beyond an engine keeps it. -/
lemma Engine.Beyond.keeps {e e' : Engine} (h : e.Beyond e') : e.Keeps e' := by
  obtain ⟨aside, rfl⟩ := h
  exact ⟨rfl, rfl, rfl, rfl, rfl⟩

/-! ## From within a node -/

section

variable {g : Grammar} {room : Nat} {e : Engine} {ms : List PartialMatch} {i : NodeId} {s : Nat}

/-- FIRST as FOLLOW uses it: it sets matches aside, and the others come from the given ones. -/
lemma ends_first_within (hacyclic : ∀ i, ¬ TransGen (fun i j => j ∈ g.children i) i i)
    (hlimit : 1 ≤ e.limit) (ms : List PartialMatch) (i : NodeId) :
    Ends room (fun _ => first g ms i) e fun out e' =>
      e.Beyond e' ∧ ComeFrom g.letters e.limit (tokensOf ms) (tokensOf out) := by
  obtain ⟨out, e', hrun, hbeyond, hadvances⟩ := ends_first hacyclic hlimit ms i
  exact ⟨out, e', fun _ _ => hrun _ le_rfl, hbeyond, hadvances.comeFrom⟩

/-- The sequences of some matches are sequences of all. -/
lemma tokensOf_filter_subset (p : PartialMatch → Bool) (ms : List PartialMatch) {t : TokenSeq}
    (h : t ∈ tokensOf (ms.filter p)) : t ∈ tokensOf ms := by
  obtain ⟨m, hm, rfl⟩ := List.mem_map.mp h
  exact List.mem_map_of_mem (List.mem_of_mem_filter hm)

/-- Going up with the matches that passed unchanged, and with those that grew.

**Proof sketch.** The matches that passed unchanged go up first, and those that grew after them; where
there are none, nothing is done. -/
lemma ends_splitFollow {up : Countdown → List PartialMatch → Nat → Walk (List PartialMatch)}
    (hup : ∀ p s e', e.Keeps e' →
      Ends room (fun height => up height (ms.filter p) s) e' fun _ e'' => e.Keeps e'')
    {e₁ : Engine} (h₁ : e.Keeps e₁) :
    Ends room (fun height => splitFollow (up height) s ms) e₁ fun _ e' => e.Keeps e' := by
  simp only [splitFollow_eq]
  have hsame : Ends room (fun height => if (ms.filter fun m => !m.grown).isEmpty then pure []
      else up height (ms.filter fun m => !m.grown) s) e₁ fun _ e' => e.Keeps e' := by
    by_cases hempty : (ms.filter fun m => !m.grown).isEmpty = true
    · simp only [hempty, if_true]
      exact Ends.pure h₁
    · simp only [hempty]
      exact hup _ s e₁ h₁
  refine Ends.bind hsame fun _ e₂ h₂ => ?_
  have hgrown : Ends room (fun height => if (ms.filter PartialMatch.grown).isEmpty then pure []
      else freshStamp >>= up height (ms.filter PartialMatch.grown)) e₂ fun _ e' => e.Keeps e' := by
    by_cases hempty : (ms.filter PartialMatch.grown).isEmpty = true
    · simp only [hempty, if_true]
      exact Ends.pure h₂
    · simp only [hempty]
      have hfresh : Ends room (fun _ => freshStamp) e₂ fun _ e' => e.Keeps e' :=
        ⟨_, _, fun _ _ => rfl, h₂.trans ⟨rfl, rfl, rfl, rfl, rfl⟩⟩
      exact Ends.bind hfresh fun s' e₃ h₃ => hup _ s' e₃ h₃
  exact Ends.bind hgrown fun _ e₃ h₃ => Ends.pure h₃

/-- **What FOLLOW does from within a node comes to an end** if its visits do.

**Proof sketch.** By the parent of the node. FIRST comes to an end on what stands behind the node, and
sends on matches that come from the given ones; the visits above begin with those. -/
lemma ends_above (hacyclic : ∀ i, ¬ TransGen (fun i j => j ∈ g.children i) i i)
    (hlimit : 1 ≤ e.limit)
    {up : Countdown → List PartialMatch → NodeId → Nat → Walk (List PartialMatch)}
    (hup : ∀ ms' j s e', ComeFrom g.letters e.limit (tokensOf ms) (tokensOf ms') → e.Keeps e' →
      Ends room (fun height => up height ms' j s) e' fun _ e'' => e.Keeps e'') :
    Ends room (fun height => above g (up height) ms i s) e fun _ e' => e.Keeps e' := by
  -- FIRST sends on matches that come from the given ones
  let ok : List PartialMatch → Prop := fun ms' =>
    ComeFrom g.letters e.limit (tokensOf ms) (tokensOf ms')
  have hok : ok ms := ComeFrom.refl _
  have hnil : ok [] := fun _ hu => absurd hu List.not_mem_nil
  have happend : ∀ {a b}, ok a → ok b → ok (a ++ b) := by
    intro a b ha hb u hu
    rw [tokensOf, List.map_append] at hu
    exact (List.mem_append.mp hu).elim (ha u) (hb u)
  have hfirst : ∀ j ms' e', e.Beyond e' → ok ms' → Ends room (fun _ => first g ms' j) e'
      fun out e'' => e.Beyond e'' ∧ (out ≠ [] → ok out) := by
    intro j ms' e' he' hms'
    refine (ends_first_within hacyclic (he'.limit ▸ hlimit) ms' j).imp fun out e'' h => ?_
    rw [he'.limit] at h
    exact ⟨he'.trans h.1, fun _ => hms'.trans h.2⟩
  have hsplit : ∀ q after e', ok after → e.Keeps e' →
      Ends room (fun height => splitFollow (fun ms s => up height ms q s) s after) e'
        fun _ e'' => e.Keeps e'' := by
    intro q after e' hafter he'
    refine ends_splitFollow (fun p s e₁ h₁ => hup _ q s e₁ (fun u hu => ?_) h₁) he'
    exact hafter u (tokensOf_filter_subset p after hu)
  have hrepeat : ∀ q, Ends room (fun height => do
      let more ← repeated (first g · i) (← passes) ms
      splitFollow (fun ms s => up height ms q s) s (ms ++ more)) e fun _ e' => e.Keeps e' := by
    intro q
    have hpasses : Ends room (fun _ => passes) e fun _ e' => e' = e := ⟨_, e, fun _ _ => rfl, rfl⟩
    refine Ends.bind hpasses fun n e₁ h₁ => ?_
    rw [h₁]
    have hmore := Ends.repeated hnil happend (hfirst i) n (Beyond.refl e) hok
    exact Ends.bind hmore fun more e₂ h₂ => hsplit q _ e₂ (happend hok h₂.2) h₂.1.keeps
  cases hparent : (g.node i).parent with
  | none =>
    simp only [above, hparent]
    exact Ends.pure (Keeps.refl e)
  | production p =>
    simp only [above, hparent]
    have hall : Ends room (fun height => forEach (fun r => up height ms r s)
        (g.production p).references) e fun _ e' => e.Keeps e' ∧ True := by
      refine Ends.forEach trivial (fun _ _ => trivial) _ (Keeps.refl e) fun r _ e' he' => ?_
      exact (hup ms r s e' hok he').imp fun _ _ h => ⟨h, trivial⟩
    exact hall.imp fun _ _ h => h.1
  | node q =>
    cases hk : g.kind q with
    | sequence units =>
      simp only [above, hparent, hk]
      have hrow := Ends.through (units.drop ((g.node i).index + 1)) (Beyond.refl e) hok
        fun u _ => hfirst u
      refine Ends.bind hrow fun after e₁ h₁ => hsplit q after e₁ ?_ h₁.1.keeps
      by_cases hafter : after = []
      · rw [hafter]
        exact hnil
      · exact h₁.2 hafter
    | oneOrMore _ | zeroOrMore _ =>
      simp only [above, hparent, hk]
      exact hrepeat q
    | choice _ | zeroOrOne _ | token _ | nonterminal _ _ | lookahead _ | action _ =>
      simp only [above, hparent, hk]
      exact hup ms q s e hok (Keeps.refl e)

end

/-! ## The matches that are not being followed -/

/-- The matches that can be followed from nodes, if all of them come from given ones. -/
def followable (g : Grammar) (limit : Nat) (origin : List TokenSeq) : Finset (NodeId × TokenSeq) :=
  Finset.range g.nodes.size ×ˢ spread g.letters limit origin

/-- The number of the matches that are not being followed yet. -/
def unfollowedPairs (g : Grammar) (limit : Nat) (origin : List TokenSeq)
    (following : List (NodeId × TokenSeq)) : Nat :=
  ((followable g limit origin).filter (· ∉ following)).card

section

variable {g : Grammar} {limit room : Nat} {origin : List TokenSeq} {ms : List PartialMatch}
  {i : NodeId} {e : Engine}

/-- Noting a match that is not being followed leaves fewer.

**Proof sketch.** A newcomer is a pair that could still be followed and is now. -/
lemma unfollowedPairs_lt {following : List (NodeId × TokenSeq)} (hlimit : 1 ≤ limit)
    (hi : i < g.nodes.size) (horigin : ComeFrom g.letters limit origin (tokensOf ms))
    (hne : newcomers i following ms ≠ []) :
    unfollowedPairs g limit origin
        ((newcomers i following ms).map (fun m => (i, m.tokens)) ++ following) <
      unfollowedPairs g limit origin following := by
  obtain ⟨m, hm⟩ := List.exists_mem_of_ne_nil _ hne
  obtain ⟨hmem, hnew⟩ := mem_newcomers.mp (List.mem_map_of_mem hm)
  refine Finset.card_lt_card (Finset.ssubset_iff_subset_ne.mpr ⟨fun x hx => ?_, fun heq => ?_⟩)
  · obtain ⟨hx, hfresh⟩ := Finset.mem_filter.mp hx
    exact Finset.mem_filter.mpr ⟨hx, fun hx' => hfresh (List.mem_append_right _ hx')⟩
  · have hpair : (i, m.tokens) ∈ (followable g limit origin).filter (· ∉ following) :=
      Finset.mem_filter.mpr ⟨Finset.mem_product.mpr
        ⟨Finset.mem_range.mpr hi, horigin.mem_spread hlimit hmem⟩, hnew⟩
    rw [← heq] at hpair
    exact (Finset.mem_filter.mp hpair).2
      (List.mem_append_left _ (List.mem_map.mpr ⟨m, hm, rfl⟩))

/-- Putting a stamp on a node that may have it. -/
lemma stamp_eq (i : NodeId) (s : Nat) (e : Engine) : stamp i s e =
    if e.stamps.getD i 0 = s then some (false, e)
    else some (true, { e with stamps := e.stamps.setIfInBounds i s }) := by
  show (if e.stamps.getD i 0 = s then _ else _ : Walk Bool) e = _
  split_ifs <;> rfl

/-- A visit to a node that hangs on nothing. -/
lemma followWithin_top (hparent : (g.node i).parent = .none) (height : Unit → Countdown)
    (ms : List PartialMatch) (s : Nat) (e : Engine) :
    followWithin g (.succ height) ms i s e = if e.stamps.getD i 0 = s then some ([], e)
      else some (ms, { e with stamps := e.stamps.setIfInBounds i s }) := by
  have hstamp := stamp_eq i s e
  rw [followWithin]
  by_cases heq : e.stamps.getD i 0 = s
  · rw [if_pos heq] at hstamp ⊢
    rw [bind_eq hstamp]
    rfl
  · rw [if_neg heq] at hstamp ⊢
    rw [bind_eq hstamp]
    simp only [Bool.not_true, Bool.false_eq_true, if_false, hparent, if_true]
    rfl

/-- **FOLLOW comes to an end** while there are matches to be followed, and takes back all notes.

**Proof sketch.** Induction on the height. A visit that goes on notes at least one more match, so
there are fewer left for the visits that it makes. -/
theorem ends_followWithin (hacyclic : ∀ i, ¬ TransGen (fun i j => j ∈ g.children i) i i)
    (hlimit : 1 ≤ limit) (origin : List TokenSeq) (room : Nat) :
    ∀ {e : Engine} {ms : List PartialMatch} {i : NodeId} {s : Nat}, e.limit = limit →
      ComeFrom g.letters limit origin (tokensOf ms) →
      unfollowedPairs g limit origin e.following < room →
      Ends room (fun height => followWithin g height ms i s) e fun _ e' => e.Keeps e' := by
  induction room with
  | zero =>
    intro e ms i s _ _ hroom
    exact absurd hroom (Nat.not_lt_zero _)
  | succ room ih =>
    intro e ms i s he horigin hroom
    refine Ends.succ ?_
    by_cases hparent : (g.node i).parent = .none
    · by_cases hstamp : e.stamps.getD i 0 = s
      · refine ⟨[], e, fun height _ => ?_, Keeps.refl e⟩
        exact (followWithin_top hparent _ ms s e).trans (if_pos hstamp)
      · refine ⟨ms, _, fun height _ => ?_, Keeps.stamped e i s⟩
        exact (followWithin_top hparent _ ms s e).trans (if_neg hstamp)
    · have hrun := fun height : Countdown =>
        followWithin_succ hparent (fun _ => height) ms s ⟨∅, fun _ => [], e⟩
      dsimp only [View.enter] at hrun
      set fresh := newcomers i e.following ms with hfresh
      by_cases hstamp : e.stamps.getD i 0 = s
      · refine ⟨[], e, fun height _ => ?_, Keeps.refl e⟩
        exact (hrun height).trans (if_pos hstamp)
      · by_cases hempty : fresh = []
        · refine ⟨[], _, fun height _ => ?_, Keeps.stamped e i s⟩
          exact (hrun height).trans ((if_neg hstamp).trans (if_pos hempty))
        · set entered : Engine := { e with
            stamps := e.stamps.setIfInBounds i s
            following := fresh.map (fun m => (i, m.tokens)) ++ e.following } with hentered
          have hlt : unfollowedPairs g limit origin entered.following < room :=
            (unfollowedPairs_lt hlimit (lt_size_of_parent hparent) horigin hempty).trans_le
              (Nat.le_of_lt_succ hroom)
          have hsub : ComeFrom g.letters limit origin (tokensOf fresh) :=
            fun t ht => horigin t (mem_newcomers.mp ht).1
          have habove : Ends room (fun height => above g (followWithin g height) fresh i s) entered
              fun _ e' => entered.Keeps e' := by
            refine ends_above hacyclic (he ▸ hlimit) fun ms' j s' e' hms' he' => ?_
            have hcome := hsub.trans (he ▸ hms')
            exact (ih (he'.limit.trans he) hcome (he'.following ▸ hlt)).imp fun _ _ h => he'.trans h
          obtain ⟨out, e', hend, hkeeps⟩ := habove
          refine ⟨out, { e' with following := e'.following.drop fresh.length },
            fun height hheight => ?_, ⟨hkeeps.limit, hkeeps.considerSemantic, hkeeps.active, ?_,
              hkeeps.size.trans (Keeps.stamped e i s).size⟩⟩
          · refine (hrun height).trans ((if_neg hstamp).trans ((if_neg hempty).trans ?_))
            have hinside : above g (followWithin g height) fresh i s entered = some (out, e') :=
              hend height hheight
            rw [hinside]
            rfl
          · show e'.following.drop fresh.length = e.following
            rw [hkeeps.following, List.drop_left']
            rw [List.length_map]

/-- The height that FOLLOW is given is enough.

**Proof sketch.** There are at most as many pairs as nodes times sequences in the spread of the matches.
-/
lemma unfollowedPairs_lt_followHeight (limit : Nat) (ms : List PartialMatch)
    (following : List (NodeId × TokenSeq)) :
    unfollowedPairs g limit (tokensOf ms) following < (followHeight g limit ms.length).steps := by
  have hspread := card_spread_le g.card_letters_le limit (tokensOf ms)
  rw [List.length_map] at hspread
  have hpow : 1 ≤ (g.nodes.size + 1) ^ limit := Nat.one_le_pow _ _ (Nat.succ_pos _)
  calc unfollowedPairs g limit (tokensOf ms) following
      ≤ g.nodes.size * (spread g.letters limit (tokensOf ms)).card := by
        refine (Finset.card_filter_le _ _).trans_eq ?_
        rw [followable, Finset.card_product, Finset.card_range]
    _ ≤ g.nodes.size * (ms.length * (g.nodes.size + 1) ^ limit) := Nat.mul_le_mul_left _ hspread
    _ = g.nodes.size * ms.length * (g.nodes.size + 1) ^ limit := (Nat.mul_assoc _ _ _).symm
    _ < (g.nodes.size * ms.length + 2) * (g.nodes.size + 1) ^ limit :=
        Nat.mul_lt_mul_of_pos_right (by omega) hpow
    _ ≤ (followHeight g limit ms.length).steps := Countdown.le_steps_geometric _ _ _

end

/-- **FIRST and FOLLOW come to an end on every grammar** whose tree has no cycles. Productions may be
recursive in any way, and the walks may be started with any matches, at any node, and with any notes.
The result is the same at every depth from a fixed one on, so no recursion is cut off; and when a walk
is done, the productions being expanded and the matches being followed are what they were.

**Proof sketch.** By `ends_first` and `ends_followWithin`; the depths that the walks are given are
enough. -/
theorem walks_end {g : Grammar} (hacyclic : ∀ i, ¬ TransGen (fun i j => j ∈ g.children i) i i)
    {e : Engine} (hlimit : 1 ≤ e.limit) (ms : List PartialMatch) (i : NodeId) :
    Ends (firstDepth g e.limit ms.length).steps (fun depth => firstWithin g depth ms i) e
        (fun out e' => e.firstSet g ms i = (out, e') ∧ e'.active = e.active ∧
          e'.following = e.following) ∧
      Ends (followHeight g e.limit ms.length).steps
        (fun height => freshStamp >>= followWithin g height ms i) e
        (fun out e' => e.followSet g ms i = (out, e') ∧ e'.active = e.active ∧
          e'.following = e.following) := by
  constructor
  · obtain ⟨out, e', hrun, hbeyond, -⟩ := ends_first hacyclic hlimit ms i
    refine ⟨out, e', hrun, ?_, hbeyond.keeps.active, hbeyond.keeps.following⟩
    have hfirst : first g ms i e = some (out, e') := hrun _ le_rfl
    rw [firstSet, hfirst]
    rfl
  · set e₁ : Engine := { e with nextStamp := e.nextStamp + 1 } with he₁
    have hfresh : freshStamp e = some (e.nextStamp, e₁) := rfl
    obtain ⟨out, e', hrun, hkeeps⟩ := ends_followWithin (e := e₁) (i := i) (s := e.nextStamp)
      hacyclic hlimit (tokensOf ms) _ rfl (ComeFrom.refl _)
      (unfollowedPairs_lt_followHeight e.limit ms e.following)
    refine ⟨out, e', fun height hheight => ?_, ?_, hkeeps.active, hkeeps.following⟩
    · show (freshStamp >>= followWithin g height ms i) e = _
      rw [bind_eq hfresh]
      exact hrun height hheight
    · have hfollow : follow g ms i e = some (out, e') := by
        rw [follow, bind_eq hfresh]
        exact hrun _ le_rfl
      rw [followSet, hfollow]
      rfl

/-- A production that is left-recursive behind an option and begins with a repetition whose body can
match nothing, and one that derives nothing but itself. -/
def hiddenRecursion : Grammar :=
  let (a, g) := Grammar.empty.literal "a"
  let (front, g) := g.zeroOrOne a
  let (again, g) := g.nonterminal "S"
  let (b, g) := g.literal "b"
  let (recursive, g) := g.sequence [front, again, b]
  let (c, g) := g.literal "c"
  let (body, g) := g.zeroOrOne c
  let (many, g) := g.zeroOrMore body
  let (idle, g) := g.nonterminal "T"
  let (last, g) := g.sequence [many, idle]
  let (root, g) := g.choice [recursive, last]
  let (_, g) := g.addProduction "S" root
  let (self, g) := g.nonterminal "T"
  ((g.addProduction "T" self).2.link {}).1

/-- The tree of the hidden recursion has no cycles. -/
lemma acyclic_hiddenRecursion (i : NodeId) :
    ¬ TransGen (fun i j => j ∈ hiddenRecursion.children i) i i := by
  have hall : ∀ i < hiddenRecursion.nodes.size, ∀ j ∈ hiddenRecursion.children i, j < i := by
    decide +kernel
  exact not_transGen_self id (fun i j hj => hall i (Grammar.TreeShaped.lt_of_child hj) j hj) i

/-- A production that is recursive behind an empty option: FIRST and FOLLOW come to their ends, with
nothing left on the stacks. -/
theorem walks_end_hiddenRecursion :
    (∀ i, ¬ TransGen (fun i j => j ∈ hiddenRecursion.children i) i i) ∧
      1 ≤ ((new hiddenRecursion).setLimit 2).limit ∧
      hiddenRecursion.kind 2 = .nonterminal "S" (some 0) ∧
      Ends (firstDepth hiddenRecursion 2 2).steps
        (fun depth => firstWithin hiddenRecursion depth [{}, ⟨[1], false⟩] 2)
        ((new hiddenRecursion).setLimit 2)
        (fun out e' =>
          ((new hiddenRecursion).setLimit 2).firstSet hiddenRecursion [{}, ⟨[1], false⟩] 2 = (out, e') ∧
            e'.active = [] ∧ e'.following = []) ∧
      Ends (followHeight hiddenRecursion 2 2).steps
        (fun height => freshStamp >>= followWithin hiddenRecursion height [{}, ⟨[1], false⟩] 2)
        ((new hiddenRecursion).setLimit 2)
        (fun out e' =>
          ((new hiddenRecursion).setLimit 2).followSet hiddenRecursion [{}, ⟨[1], false⟩] 2 = (out, e') ∧
            e'.active = [] ∧ e'.following = []) := by
  have hlimit : 1 ≤ ((new hiddenRecursion).setLimit 2).limit := by decide
  exact ⟨acyclic_hiddenRecursion, hlimit, by decide +kernel,
    walks_end acyclic_hiddenRecursion hlimit [{}, ⟨[1], false⟩] 2⟩

end GrammarForge
