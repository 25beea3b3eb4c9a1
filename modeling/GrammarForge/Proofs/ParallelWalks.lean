import GrammarForge.Proofs.EpsilonClosure
import GrammarForge.Proofs.FollowTermination

set_option autoImplicit false

/-!
# The same walk on two engines

A walk compares stamps only with those that it has given out itself. So the same walk on two engines
with the same settings and notes gives the same result, although the stamps of their nodes are
different numbers: those that have been given out since the start correspond.

## Main definitions

* `InParallel` — two walks give the same result and keep a relation between their engines.
* `StampsMatch` — corresponding stamps.
* `Engine.InStep` — engines with the same settings and notes, and with corresponding stamps.

## Main results

* `inParallel_firstWithin`, `inParallel_first` — FIRST on two engines in step.
* `inParallel_followWithin`, `inParallel_follow` — FOLLOW on two engines in step.
-/

namespace GrammarForge

open Engine

/-! ## Walks in parallel -/

/-- **Two walks in parallel**: from related engines they give the same result and end with related
engines, or both go too deep. -/
def InParallel {α : Type} (R : Engine → Engine → Prop) (x x' : Walk α) : Prop :=
  ∀ e e', R e e' → Option.Rel (fun r r' => r.1 = r'.1 ∧ R r.2 r'.2) (x e) (x' e')

namespace InParallel

variable {α β : Type} {R : Engine → Engine → Prop}

/-- Results are the same on both engines. -/
lemma pure (a : α) : InParallel R (pure a) (pure a) :=
  fun _ _ h => .some ⟨rfl, h⟩

/-- Both walks may be too deep. -/
lemma tooDeep : InParallel R (tooDeep : Walk α) tooDeep :=
  fun _ _ _ => .none

/-- One walk after another.

**Proof sketch.** By whether the first walk ends; it does so on both engines or on neither, with the
same result, and the second one goes on from there. -/
lemma bind {x x' : Walk α} {f f' : α → Walk β} (hx : InParallel R x x')
    (hf : ∀ a, InParallel R (f a) (f' a)) : InParallel R (x >>= f) (x' >>= f') := by
  intro e e' h
  have hrel := hx e e' h
  show Option.Rel _ ((x e).bind _) ((x' e').bind _)
  cases hrun : x e with
  | none =>
    cases hrun' : x' e' with
    | none => exact .none
    | some r' =>
      rw [hrun, hrun'] at hrel
      cases hrel
  | some r =>
    cases hrun' : x' e' with
    | none =>
      rw [hrun, hrun'] at hrel
      cases hrel
    | some r' =>
      rw [hrun, hrun'] at hrel
      cases hrel with
      | some hsame =>
        obtain ⟨a, e₁⟩ := r
        obtain ⟨_, e₁'⟩ := r'
        obtain ⟨rfl, hR⟩ := hsame
        exact hf a e₁ e₁' hR

/-- Several nodes, each from the same matches. -/
lemma forEach {visit visit' : NodeId → Walk (List PartialMatch)}
    (h : ∀ i, InParallel R (visit i) (visit' i)) (ids : List NodeId) :
    InParallel R (Engine.forEach visit ids) (Engine.forEach visit' ids) := by
  induction ids with
  | nil => exact pure []
  | cons i ids ih => exact (h i).bind fun ms => ih.bind fun rest => pure (ms ++ rest)

/-- Several nodes in a row. -/
lemma through {visit visit' : List PartialMatch → NodeId → Walk (List PartialMatch)}
    (h : ∀ ms i, InParallel R (visit ms i) (visit' ms i)) (ids : List NodeId) :
    ∀ ms, InParallel R (Engine.through visit ms ids) (Engine.through visit' ms ids) := by
  induction ids with
  | nil => exact fun ms => pure ms
  | cons i ids ih =>
    intro ms
    refine (h ms i).bind fun out => ?_
    split
    · exact pure []
    · exact ih out

/-- Repeated passes. -/
lemma repeated {visit visit' : List PartialMatch → Walk (List PartialMatch)}
    (h : ∀ ms, InParallel R (visit ms) (visit' ms)) (n : Nat) :
    ∀ ms, InParallel R (Engine.repeated visit n ms) (Engine.repeated visit' n ms) := by
  induction n with
  | zero => exact fun _ => pure []
  | succ n ih =>
    intro ms
    refine (h ms).bind fun out => ?_
    split
    · exact pure []
    · exact (ih out).bind fun later => pure (out ++ later)

end InParallel

/-! ## Engines in step -/

/-- **Corresponding stamps**: both were given out before the numbers of the start, or both as the
`m`-th one since then, of `n`. -/
def StampsMatch (base base' n a a' : Nat) : Prop :=
  (a < base ∧ a' < base') ∨ ∃ m < n, a = base + m ∧ a' = base' + m

/-- **Two engines in step**: they have the settings and the notes of a third one, the same matches set
aside, and corresponding stamps. At least `least` stamps have been given out since the start. -/
structure Engine.InStep (frame : Engine) (base base' least : Nat) (e e' : Engine) : Prop where
  left : frame.Keeps e
  right : frame.Keeps e'
  limited : e'.limited = e.limited
  stamps : ∃ n ≥ least, e.nextStamp = base + n ∧ e'.nextStamp = base' + n ∧
    ∀ z, StampsMatch base base' n (e.stamps.getD z 0) (e'.stamps.getD z 0)

section

variable {frame e e' : Engine} {base base' least : Nat}

/-- Corresponding stamps are equal to corresponding numbers at the same time. -/
lemma StampsMatch.eq_iff {n m a a' : Nat} (h : StampsMatch base base' n a a') :
    a = base + m ↔ a' = base' + m := by
  rcases h with ⟨hold, hold'⟩ | ⟨m', -, rfl, rfl⟩ <;> omega

/-- Corresponding stamps have been given out. -/
lemma StampsMatch.lt {n a a' : Nat} (h : StampsMatch base base' n a a') :
    a < base + n ∧ a' < base' + n := by
  rcases h with ⟨hold, hold'⟩ | ⟨m', hm', rfl, rfl⟩ <;> omega

/-- Engines in step stay so with more stamps. -/
lemma Engine.InStep.mono {least' : Nat} (h : InStep frame base base' least' e e')
    (hle : least ≤ least') : InStep frame base base' least e e' := by
  obtain ⟨n, hn, hstamps⟩ := h.stamps
  exact ⟨h.left, h.right, h.limited, n, hle.trans hn, hstamps⟩

end

section

variable {g : Grammar} {frame : Engine} {base base' least : Nat}

/-- Setting matches aside on both engines. -/
lemma Engine.InStep.aside {e e' : Engine} (h : InStep frame base base' least e e')
    (ts : List TokenSeq) : InStep frame base base' least (e.withAside ts) (e'.withAside ts) where
  left := h.left.trans ⟨rfl, rfl, rfl, rfl, rfl⟩
  right := h.right.trans ⟨rfl, rfl, rfl, rfl, rfl⟩
  limited := by
    show e'.limited ++ ts.toArray = e.limited ++ ts.toArray
    rw [h.limited]
  stamps := h.stamps

/-- Adding a token. -/
lemma inParallel_extendAll (k : Nat) (ms : List PartialMatch) :
    InParallel (InStep frame base base' least) (extendAll k ms) (extendAll k ms) := by
  intro e e' h
  have hlimit : e'.limit = e.limit := h.right.limit.trans h.left.limit.symm
  rw [extendAll_eq, extendAll_eq, hlimit]
  exact .some ⟨rfl, h.aside _⟩

/-- Asking for the number of passes. -/
lemma inParallel_passes :
    InParallel (InStep frame base base' least) passes passes := by
  intro e e' h
  have hlimit : e'.limit + 1 = e.limit + 1 := by rw [h.right.limit, h.left.limit]
  exact .some ⟨hlimit.symm, h⟩

/-- Expanding a production with the same notes.

**Proof sketch.** The expansion is skipped on both engines or on neither, since both have the same
notes; and the note is taken away again on both. -/
lemma inParallel_expanding {p : Nat} {ms : List PartialMatch} {x x' : Walk (List PartialMatch)}
    (hx : InParallel (InStep
      { frame with active := (p, sortedSet compare (tokensOf ms)) :: frame.active }
      base base' least) x x') :
    InParallel (InStep frame base base' least) (expanding p ms x) (expanding p ms x') := by
  intro e e' h
  have hentered : InStep
      { frame with active := (p, sortedSet compare (tokensOf ms)) :: frame.active }
      base base' least
      { e with active := (p, sortedSet compare (tokensOf ms)) :: e.active }
      { e' with active := (p, sortedSet compare (tokensOf ms)) :: e'.active } :=
    ⟨{ h.left with active := congrArg (List.cons _) h.left.active },
      { h.right with active := congrArg (List.cons _) h.right.active }, h.limited, h.stamps⟩
  rw [expanding_eq, expanding_eq, h.left.active, h.right.active]
  split_ifs with hkey
  · exact .some ⟨rfl, h⟩
  · have hrel := hx _ _ hentered
    rw [h.left.active, h.right.active] at hrel
    generalize x { e with active := _ } = r, x' { e' with active := _ } = r' at hrel ⊢
    cases hrel with
    | none => exact .none
    | some hsame =>
      obtain ⟨hout, hstep⟩ := hsame
      refine .some ⟨hout, ⟨{ hstep.left with active := ?_ }, { hstep.right with active := ?_ },
        hstep.limited, hstep.stamps⟩⟩
      · exact congrArg List.tail hstep.left.active
      · exact congrArg List.tail hstep.right.active

/-- **FIRST on two engines in step.**

**Proof sketch.** Induction on the depth, by the kind of the node. -/
theorem inParallel_firstWithin (depth : Countdown) : ∀ (frame : Engine) (ms : List PartialMatch)
    (i : NodeId), InParallel (InStep frame base base' least) (firstWithin g depth ms i)
      (firstWithin g depth ms i) := by
  induction depth with
  | zero => exact fun _ _ _ => InParallel.tooDeep
  | succ pred ih =>
    intro frame ms i
    have hvisit := ih () frame
    cases hk : g.kind i with
    | token k =>
      simp only [firstWithin, hk]
      exact inParallel_extendAll k ms
    | nonterminal name p =>
      cases p with
      | none =>
        simp only [firstWithin, hk]
        exact InParallel.pure []
      | some p =>
        cases hroot : g.body p with
        | none =>
          simp only [firstWithin, hk, hroot]
          exact fun e e' h => .some ⟨rfl, h.aside _⟩
        | some root =>
          simp only [firstWithin, hk, hroot]
          exact inParallel_expanding (ih () _ ms root)
    | choice alternatives =>
      simp only [firstWithin, hk]
      exact InParallel.forEach (hvisit ms) alternatives
    | sequence units =>
      simp only [firstWithin, hk]
      exact InParallel.through hvisit units ms
    | oneOrMore b =>
      simp only [firstWithin, hk]
      exact inParallel_passes.bind fun n => InParallel.repeated (hvisit · b) n ms
    | zeroOrMore b =>
      simp only [firstWithin, hk]
      refine inParallel_passes.bind fun n => ?_
      exact (InParallel.repeated (hvisit · b) n ms).bind fun more => InParallel.pure (ms ++ more)
    | zeroOrOne b =>
      simp only [firstWithin, hk]
      exact (hvisit ms b).bind fun more => InParallel.pure (ms ++ more)
    | lookahead spec =>
      simp only [firstWithin, hk]
      intro e e' h
      have hsemantic : e'.considerSemantic = e.considerSemantic :=
        h.right.considerSemantic.trans h.left.considerSemantic.symm
      exact .some ⟨by rw [hsemantic], h⟩
    | action code =>
      simp only [firstWithin, hk]
      exact InParallel.pure ms

/-- FIRST with its own depth. -/
lemma inParallel_first (ms : List PartialMatch) (i : NodeId) :
    InParallel (InStep frame base base' least) (first g ms i) (first g ms i) := by
  intro e e' h
  have hlimit : e'.limit = e.limit := h.right.limit.trans h.left.limit.symm
  rw [first, first, hlimit]
  exact inParallel_firstWithin (firstDepth g e.limit ms.length) frame ms i e e' h

/-! ## FOLLOW on two engines -/

variable {m : Nat} {i : NodeId} {ms : List PartialMatch}

/-- Both nodes have the stamp or both get it.

**Proof sketch.** If one node has the stamp, so has the other, since the stamps match. Otherwise both
get it, and they still match. -/
lemma inParallel_stamp (hm : m < least) (i : NodeId) :
    InParallel (InStep frame base base' least) (stamp i (base + m)) (stamp i (base' + m)) := by
  intro e e' h
  obtain ⟨n, hn, hnext, hnext', hmatch⟩ := h.stamps
  have hsize : e'.stamps.size = e.stamps.size := h.right.size.trans h.left.size.symm
  rw [stamp_eq, stamp_eq]
  by_cases heq : e.stamps.getD i 0 = base + m
  · rw [if_pos heq, if_pos ((hmatch i).eq_iff.mp heq)]
    exact .some ⟨rfl, h⟩
  · rw [if_neg heq, if_neg fun heq' => heq ((hmatch i).eq_iff.mpr heq')]
    refine .some ⟨rfl, h.left.trans (Keeps.stamped e i _), h.right.trans (Keeps.stamped e' i _),
      h.limited, n, hn, hnext, hnext', fun z => ?_⟩
    rw [getD_setIfInBounds_eq, getD_setIfInBounds_eq, hsize]
    split_ifs
    · exact Or.inr ⟨m, hm.trans_le hn, rfl, rfl⟩
    · exact hmatch z

/-- Fresh stamps correspond.

**Proof sketch.** Both engines give out their next stamps, which are as far from their bases; the stamps
that nodes have are older. -/
lemma inParallel_freshStamp {α : Type} {f : Nat → Walk α}
    (hf : ∀ n ≥ least, InParallel (InStep frame base base' (n + 1)) (f (base + n)) (f (base' + n))) :
    InParallel (InStep frame base base' least) (freshStamp >>= f) (freshStamp >>= f) := by
  intro e e' h
  obtain ⟨n, hn, hnext, hnext', hmatch⟩ := h.stamps
  have hstep : InStep frame base base' (n + 1) { e with nextStamp := e.nextStamp + 1 }
      { e' with nextStamp := e'.nextStamp + 1 } := by
    refine ⟨h.left.trans ⟨rfl, rfl, rfl, rfl, rfl⟩, h.right.trans ⟨rfl, rfl, rfl, rfl, rfl⟩,
      h.limited, n + 1, le_rfl, by simp only [hnext, Nat.add_assoc],
      by simp only [hnext', Nat.add_assoc], fun z => (hmatch z).imp_right ?_⟩
    rintro ⟨k, hk, hstamp⟩
    exact ⟨k, hk.trans (Nat.lt_succ_self n), hstamp⟩
  have hrel := hf n hn _ _ hstep
  show Option.Rel _ (f e.nextStamp _) (f e'.nextStamp _)
  rw [← hnext, ← hnext'] at hrel
  generalize f e.nextStamp _ = r, f e'.nextStamp _ = r' at hrel ⊢
  cases hrel with
  | none => exact .none
  | some hsame => exact .some ⟨hsame.1, hsame.2.mono (hn.trans (Nat.le_succ n))⟩

/-- Noting the same matches as being followed.

**Proof sketch.** The same matches are put in front of what is followed on both engines, and dropped
again. -/
lemma inParallel_whileFollowing {x x' : Walk (List PartialMatch)}
    (hx : InParallel (InStep
      { frame with following := ms.map (fun m => (i, m.tokens)) ++ frame.following }
      base base' least) x x') :
    InParallel (InStep frame base base' least) (whileFollowing i ms x) (whileFollowing i ms x') := by
  intro e e' h
  have hentered : InStep
      { frame with following := ms.map (fun m => (i, m.tokens)) ++ frame.following } base base' least
      { e with following := ms.map (fun m => (i, m.tokens)) ++ e.following }
      { e' with following := ms.map (fun m => (i, m.tokens)) ++ e'.following } :=
    ⟨{ h.left with following := congrArg (List.append _) h.left.following },
      { h.right with following := congrArg (List.append _) h.right.following }, h.limited, h.stamps⟩
  have hdrop : ∀ {l : List (NodeId × TokenSeq)},
      l = ms.map (fun m => (i, m.tokens)) ++ frame.following → l.drop ms.length = frame.following := by
    intro l hl
    rw [hl, List.drop_left']
    rw [List.length_map]
  rw [whileFollowing_eq, whileFollowing_eq]
  have hrel := hx _ _ hentered
  generalize x { e with following := _ } = r, x' { e' with following := _ } = r' at hrel ⊢
  cases hrel with
  | none => exact .none
  | some hsame =>
    obtain ⟨hout, hstep⟩ := hsame
    exact .some ⟨hout, { hstep.left with following := hdrop hstep.left.following },
      { hstep.right with following := hdrop hstep.right.following }, hstep.limited, hstep.stamps⟩

/-- Going up with corresponding stamps. -/
lemma inParallel_splitFollow {up : List PartialMatch → Nat → Walk (List PartialMatch)}
    (hup : ∀ ms {m least}, m < least →
      InParallel (InStep frame base base' least) (up ms (base + m)) (up ms (base' + m)))
    (hm : m < least) (ms : List PartialMatch) :
    InParallel (InStep frame base base' least) (splitFollow up (base + m) ms)
      (splitFollow up (base' + m) ms) := by
  rw [splitFollow_eq, splitFollow_eq]
  refine InParallel.bind ?_ fun sameOut => InParallel.bind ?_ fun grownOut => InParallel.pure _
  · split
    · exact InParallel.pure []
    · exact hup _ hm
  · split
    · exact InParallel.pure []
    · exact inParallel_freshStamp fun n _ => hup _ (Nat.lt_succ_self n)

/-- What FOLLOW does from within a node, on two engines in step.

**Proof sketch.** By the parent of the node; everything that is visited from there goes on with the same
matches, under the same stamp or fresh ones that correspond. -/
lemma inParallel_above {up : List PartialMatch → NodeId → Nat → Walk (List PartialMatch)}
    (hup : ∀ ms j {m least}, m < least →
      InParallel (InStep frame base base' least) (up ms j (base + m)) (up ms j (base' + m)))
    (hm : m < least) (ms : List PartialMatch) (i : NodeId) :
    InParallel (InStep frame base base' least) (above g up ms i (base + m))
      (above g up ms i (base' + m)) := by
  have hrepeat : ∀ q, InParallel (InStep frame base base' least)
      (do
        let more ← repeated (first g · i) (← passes) ms
        splitFollow (fun ms s => up ms q s) (base + m) (ms ++ more))
      (do
        let more ← repeated (first g · i) (← passes) ms
        splitFollow (fun ms s => up ms q s) (base' + m) (ms ++ more)) := by
    intro q
    refine inParallel_passes.bind fun n => ?_
    refine (InParallel.repeated (inParallel_first · i) n ms).bind fun more => ?_
    exact inParallel_splitFollow (fun ms => hup ms q) hm (ms ++ more)
  unfold above
  cases (g.node i).parent with
  | none => exact InParallel.pure ms
  | production p => exact InParallel.forEach (fun r => hup ms r hm) _
  | node q =>
    dsimp only
    cases g.kind q with
    | sequence units =>
      refine (InParallel.through inParallel_first _ ms).bind fun after => ?_
      exact inParallel_splitFollow (fun ms => hup ms q) hm after
    | oneOrMore _ | zeroOrMore _ => exact hrepeat q
    | choice _ | zeroOrOne _ | token _ | nonterminal _ _ | lookahead _ | action _ => exact hup ms q hm

/-- **FOLLOW on two engines in step**, under corresponding stamps.

**Proof sketch.** Induction on the height: both nodes have the stamp or get it, the same matches are
new, and what follows from within the node is in step. -/
theorem inParallel_followWithin (height : Countdown) : ∀ (frame : Engine) (ms : List PartialMatch)
    (i : NodeId) {m least : Nat}, m < least →
      InParallel (InStep frame base base' least) (followWithin g height ms i (base + m))
        (followWithin g height ms i (base' + m)) := by
  induction height with
  | zero => exact fun _ _ _ _ _ _ => InParallel.tooDeep
  | succ pred ih =>
    intro frame ms i m least hm
    rw [followWithin, followWithin]
    refine (inParallel_stamp hm i).bind fun b => ?_
    cases b with
    | false => exact InParallel.pure []
    | true =>
      simp only [Bool.not_true, Bool.false_eq_true, if_false]
      split
      · exact InParallel.pure ms
      · intro e e' h
        have hfollowing : e'.following = e.following :=
          h.right.following.trans h.left.following.symm
        show Option.Rel _
          ((if (newcomers i e.following ms).isEmpty then _ else _ : Walk (List PartialMatch)) e)
          ((if (newcomers i e'.following ms).isEmpty then _ else _ : Walk (List PartialMatch)) e')
        rw [hfollowing]
        split
        · exact .some ⟨rfl, h⟩
        · exact inParallel_whileFollowing (inParallel_above (fun ms j => ih () _ ms j) hm _ i) e e' h

/-- FOLLOW with its own height. -/
lemma inParallel_follow (ms : List PartialMatch) (i : NodeId) :
    InParallel (InStep frame base base' least) (follow g ms i) (follow g ms i) := by
  refine inParallel_freshStamp fun n _ => ?_
  intro e e' h
  have hlimit : e'.limit = e.limit := h.right.limit.trans h.left.limit.symm
  show Option.Rel _ (followWithin g (followHeight g e.limit ms.length) ms i _ e)
    (followWithin g (followHeight g e'.limit ms.length) ms i _ e')
  rw [hlimit]
  exact inParallel_followWithin _ frame ms i (Nat.lt_succ_self n) e e' h

end

end GrammarForge
