import GrammarForge.Proofs.ChoiceConflicts

set_option autoImplicit false

/-!
# Conflicts between a repetition and what follows

The check of a repetition or an option compares what the body can begin with and what can follow the
construct, in sequences of one token, two tokens and so on, until they differ or the bound is reached.
Both are closed under cutting, so that sequences which differ at one depth differ at every greater one.

## Main definitions

* `Engine.sequels` — the sequences of FOLLOW that are as long as the limit.
* `LastAgreement` — what is known before a depth is looked at.
* `RepetitionDiagnosis` — what the conflict of a repetition says.

## Main results

* `take_mem_sequels` — sequels are closed under cutting.
* `followOf_spec` — what a check gathers behind an expansion.
* `deepenRepetition_spec` — the loop ends at the first depth without an agreement, or behind the bound.
* `checkRepetition_conflict` — repetitions and options are diagnosed exactly.
-/

namespace GrammarForge

open Engine Checker

/-! ## What can follow an expansion -/

/-- The sequences of FOLLOW up to `d` tokens that have `d` tokens. -/
def Engine.sequels (g : Grammar) (d : Nat) (i : NodeId) : Set TokenSeq :=
  {t | t ∈ ((Engine.new g).followSequences g i d).1 ∧ t.length = d}

section

variable {g : Grammar} {d : Nat} {i : NodeId} {e : Engine} {t : TokenSeq}

/-- FOLLOW, begun with an empty match and nothing set aside, sets aside what can be read behind the
node. -/
lemma followSet_start (hl : g.Linked) (ht : g.TreeShaped) (hg : g.Predictive)
    (hsem : e.considerSemantic = false) (he : e.Idle) (hlimit : 1 ≤ e.limit) (hi : g.OnTree i)
    (hempty : e.limited = #[]) : ∃ e', e.followSet g start i = ([], e') ∧ e'.Idle ∧
      e'.limit = e.limit ∧ ∀ t, t ∈ e'.limited ↔ t ∈ g.trails e.limit i := by
  obtain ⟨v, hrun, hp, hs, -, hall⟩ := follow_trails hl ht hg hsem he hlimit hi
  refine ⟨v.engine, by rw [followSet, hrun, Option.getD_some], ⟨hs.active, hs.following, hs.stamps⟩,
    hs.limit, fun t => ⟨fun h => ?_, hall t⟩⟩
  rcases hp.added t h with hold | hcut
  · have hold' : t ∈ e.limited := hold
    rw [hempty] at hold'
    exact absurd hold' (Array.not_mem_empty t)
  · exact hcut

/-- Sequels are what can be read behind the node on ways that stop at their length.

**Proof sketch.** FOLLOW starts with an empty match and an engine set up for this depth; what it sets
aside are the trails of this length. -/
lemma mem_sequels (hl : g.Linked) (ht : g.TreeShaped) (hg : g.Predictive) (hd : 1 ≤ d)
    (hi : g.OnTree i) : t ∈ sequels g d i ↔ t ∈ g.trails d i := by
  set e₀ := ((Engine.new g).setLimit d).takeLimited.2 with he₀
  have hlimit : e₀.limit = d := Nat.max_eq_left hd
  have hidle := idle_new g
  obtain ⟨e', hrun, -, -, hall⟩ := followSet_start (e := e₀) hl ht hg rfl
    ⟨hidle.active, hidle.following, hidle.stamps⟩ (hd.trans_eq hlimit.symm) hi rfl
  show t ∈ (collect (e₀.followSet g start i)).1 ∧ t.length = d ↔ _
  rw [hrun, mem_collect, hall, hlimit]
  constructor
  · rintro ⟨hout | ht, -⟩
    · exact absurd hout List.not_mem_nil
    · exact ht
  · exact fun ht => ⟨Or.inr ht, ht.2⟩

/-- **Sequels are closed under cutting.** -/
lemma take_mem_sequels (hl : g.Linked) (ht : g.TreeShaped) (hg : g.Predictive) (hi : g.OnTree i)
    {d' : Nat} (hd : 1 ≤ d) (hle : d ≤ d') (h : t ∈ sequels g d' i) : t.take d ∈ sequels g d i := by
  obtain ⟨htrails, hlen⟩ := (mem_sequels hl ht hg (hd.trans hle) hi).mp h
  have hlen' : (t.take d).length = d := List.length_take_of_le (hlen ▸ hle)
  refine (mem_sequels hl ht hg hd hi).mpr ⟨htrails.cut (List.take_prefix d t) ?_, hlen'⟩
  rw [← List.length_pos_iff, hlen']
  exact hd

/-- **What a check gathers behind an expansion**: the sequels of the length of the limit. -/
lemma followOf_spec (hl : g.Linked) (ht : g.TreeShaped) (hg : g.Predictive) (he : e.Idle)
    (hlimit : 1 ≤ e.limit) (hi : g.OnTree i) (hempty : e.limited = #[]) :
    Lists (followOf g e i).1 (sequels g e.limit i) ∧ (followOf g e i).2.Idle := by
  obtain ⟨e', hrun, he', -, hall⟩ := followSet_start (e := { e with considerSemantic := false }) hl ht
    hg rfl ⟨he.active, he.following, he.stamps⟩ hlimit hi hempty
  have hfollow : followOf g e i = e'.takeLimited := by
    rw [followOf, hrun]
  rw [hfollow]
  refine ⟨fun t => ?_, he'.active, he'.following, he'.stamps⟩
  rw [mem_sequels hl ht hg hlimit hi]
  exact Array.mem_toList_iff.trans (hall t)

end

/-! ## The loop -/

/-- **What is known before a depth is looked at**: there has been an agreement at the depth before it,
unless this is the first one. -/
def LastAgreement (E F : Nat → Set TokenSeq) (depth : Nat) : Option TokenSeq → Prop
  | none => depth = 1
  | some t => 2 ≤ depth ∧ t ∈ E (depth - 1) ∩ F (depth - 1)

section

variable {g : Grammar} {id body : NodeId}

/-- **The loop over the depths** ends at the first depth without an agreement, or behind the bound.

**Proof sketch.** Induction on the rounds that are left; an agreement at one depth is the last one
before the next. -/
lemma deepenRepetition_spec (hl : g.Linked) (ht : g.TreeShaped) (hg : g.Predictive) (force : Bool)
    (hcond : Unconditional g (!force)) (hid : g.OnTree id) (body : NodeId) {bound : Nat}
    (rounds : Nat) :
    ∀ {depth : Nat} {last : Option TokenSeq} {c : Checker}, 1 ≤ depth → depth + rounds = bound + 1 →
      LastAgreement (beginnings g · body) (sequels g · id) depth last → c.engine.Idle →
      ∃ depth' last' c', deepenRepetition g force id body rounds depth last c =
          ((depth', last'), c') ∧ c'.engine.Idle ∧
        LastAgreement (beginnings g · body) (sequels g · id) depth' last' ∧
        (depth' = bound + 1 ∨
          depth' ≤ bound ∧ Disjoint (beginnings g depth' body) (sequels g depth' id)) := by
  induction rounds with
  | zero =>
    intro depth last c _ hbound hlast hc
    exact ⟨depth, last, c, rfl, hc, hlast, Or.inl hbound⟩
  | succ rounds ih =>
    intro depth last c hd hbound hlast hc
    have hlimit : (c.engine.setLimit depth).limit = depth := Nat.max_eq_left hd
    obtain ⟨hinside, he₁, hlimit₁, hempty⟩ := firstOf_spec (e := c.engine.setLimit depth) hg hcond
      ⟨hc.active, hc.following, hc.stamps⟩ (hd.trans_eq hlimit.symm) body
    rw [hlimit] at hinside hlimit₁
    set inside := firstOf g (!force) (c.engine.setLimit depth) body with hin
    obtain ⟨hafter, he₂⟩ :=
      followOf_spec hl ht hg he₁ (hd.trans_eq hlimit₁.symm) hid hempty
    rw [hlimit₁] at hafter
    set after := followOf g inside.2 id with haf
    obtain ⟨hnone, hsome⟩ :=
      overlap?_lists hd hinside hafter (fun _ ht => ht.2) (fun _ ht => ht.2)
    -- the check may warn in between, which does not touch the engine
    have hrun {common? : Option TokenSeq} (hov : overlap? inside.1 after.1 = common?) :
        ∃ c₁ : Checker, c₁.engine = after.2 ∧
          deepenRepetition g force id body (rounds + 1) depth last c =
            common?.elim ((depth, last), c₁) fun common =>
              deepenRepetition g force id body rounds (depth + 1) (some common) c₁ := by
      rw [deepenRepetition]
      simp only [← hin, ← haf, hov]
      cases common? <;> split_ifs <;> exact ⟨_, rfl, rfl⟩
    cases hov : overlap? inside.1 after.1 with
    | none =>
      obtain ⟨c₁, hc₁, heq⟩ := hrun hov
      exact ⟨depth, last, c₁, heq, hc₁ ▸ he₂, hlast, Or.inr ⟨by omega, hnone hov⟩⟩
    | some common =>
      obtain ⟨c₁, hc₁, heq⟩ := hrun hov
      rw [heq]
      refine ih (Nat.le_add_left 1 depth) (by omega) ⟨by omega, ?_⟩ (hc₁ ▸ he₂)
      rw [Nat.add_sub_cancel]
      exact hsome common hov

end

/-! ## The check -/

/-- **What the conflict of a repetition or an option says**: the least lookahead that tells the body
from what follows, or the one behind the bound; whether it is within the bound; and tokens, one less
than that, that the body can begin with and that can follow. -/
structure RepetitionDiagnosis (g : Grammar) (bound : Nat) (id body : NodeId) (c : Conflict) :
    Prop where
  node : c.node = id
  other : c.other = none
  required : IsLeast {d | 2 ≤ d ∧ (bound < d ∨ Disjoint (beginnings g d body) (sequels g d id))}
    c.required
  withinBound : c.withinBound = true ↔ c.required ≤ bound
  common : c.common ∈ beginnings g (c.required - 1) body ∩ sequels g (c.required - 1) id

section

variable {g : Grammar} {id body : NodeId} {bound : Nat}

/-- Sequences that differ at one depth differ at every greater one. -/
lemma disjoint_of_le (hl : g.Linked) (ht : g.TreeShaped) (hg : g.Predictive) (hid : g.OnTree id)
    {d d' : Nat} (hd : 1 ≤ d) (hle : d ≤ d')
    (h : Disjoint (beginnings g d body) (sequels g d id)) :
    Disjoint (beginnings g d' body) (sequels g d' id) :=
  Set.disjoint_left.mpr fun _ hin hafter => Set.disjoint_left.mp h
    (take_mem_beginnings hg hd hle hin) (take_mem_sequels hl ht hg hid hd hle hafter)

/-- **Repetitions and options are diagnosed exactly.** After linking, let a grammar be a tree without
left recursion, whose lookaheads have neither conditions nor expansions of their own. Then the check
of a repetition or an option in a production, with its body, reports a conflict if and only if the
bound is at least one token and the body can begin with a token that can follow the construct; the
conflict is diagnosed as `RepetitionDiagnosis` says. The engine is idle afterwards, as before.

**Proof sketch.** The depth goes up as long as both share a sequence, to the bound at most; the last
depth at which they do is what is reported. With no shared token at depth one nothing is reported at
all. -/
theorem checkRepetition_conflict {g : Grammar} {ds : Diagnostics} (hids : g.unknownId? = none)
    (hscan : ∀ {i spec}, g.kind i = .lookahead spec → spec.expansion = none)
    (hg : (g.link ds).1.Predictive) (ht : (g.link ds).1.TreeShaped)
    (hsemantic : ∀ {i spec}, (g.link ds).1.kind i = .lookahead spec → spec.semantic = none)
    {id : NodeId} (hid : (g.link ds).1.InProduction id) (body : NodeId) (o : Options) {c : Checker}
    (hc : c.engine.Idle) :
    ((checkRepetition (g.link ds).1 o c id body).1.isSome ↔ 1 ≤ o.otherAmbiguityCheck ∧
        (beginnings (g.link ds).1 1 body ∩ sequels (g.link ds).1 1 id).Nonempty) ∧
      (∀ conflict ∈ (checkRepetition (g.link ds).1 o c id body).1,
        RepetitionDiagnosis (g.link ds).1 o.otherAmbiguityCheck id body conflict) ∧
      (checkRepetition (g.link ds).1 o c id body).2.engine.Idle := by
  have hl := ht.linked hids hscan hg
  have hon := (hl.onTree id).mp hid
  generalize (g.link ds).1 = h at hg ht hsemantic hl hon ⊢
  obtain ⟨depth, last, c', hrun, hc', hlast, hend⟩ := deepenRepetition_spec hl ht hg
    o.forceLookaheadCheck (fun _ => hsemantic) hon body o.otherAmbiguityCheck le_rfl
    (Nat.add_comm 1 _) (show LastAgreement _ _ 1 none from rfl) hc
  rw [← Set.not_disjoint_iff_nonempty_inter]
  cases last with
  | none =>
    have hcheck : checkRepetition h o c id body = (none, c') := by
      simp only [checkRepetition, hrun]
    obtain rfl : depth = 1 := hlast
    rw [hcheck]
    refine ⟨iff_of_false Bool.false_ne_true ?_, (fun _ hnone => nomatch hnone), hc'⟩
    rintro ⟨hbound, hmeet⟩
    rcases hend with heq | ⟨-, hdisjoint⟩
    · omega
    · exact hmeet hdisjoint
  | some common =>
    obtain ⟨htwo, hcommon⟩ := hlast
    have hmeet : ¬ Disjoint (beginnings h (depth - 1) body) (sequels h (depth - 1) id) :=
      fun hdisjoint => Set.disjoint_left.mp hdisjoint hcommon.1 hcommon.2
    have hle : depth ≤ o.otherAmbiguityCheck + 1 := by
      rcases hend with heq | ⟨hle, -⟩ <;> omega
    have hcheck : checkRepetition h o c id body = (some ⟨id, none, common, depth,
        decide (depth ≤ o.otherAmbiguityCheck)⟩, c'.warn (h.node id).position
          (Conflict.repetitionMessage h ⟨id, none, common, depth,
            decide (depth ≤ o.otherAmbiguityCheck)⟩)) := by
      simp only [checkRepetition, hrun]
    rw [hcheck]
    refine ⟨iff_of_true rfl ⟨by omega, fun hdisjoint => hmeet ?_⟩, fun conflict hconflict => ?_, hc'⟩
    · exact disjoint_of_le hl ht hg hon le_rfl (by omega) hdisjoint
    · obtain rfl := Option.some_inj.mp hconflict
      refine ⟨rfl, rfl, ⟨⟨htwo, ?_⟩, fun d ⟨hd, hcase⟩ => ?_⟩, decide_eq_true_iff, hcommon⟩
      · show o.otherAmbiguityCheck < depth ∨ _
        exact hend.imp (fun heq => by omega) And.right
      · -- a lower depth is within the bound, and the sequences agree there
        show depth ≤ d
        by_contra hlt
        rcases hcase with hbound | hdisjoint
        · omega
        · exact hmeet (disjoint_of_le hl ht hg hon (by omega) (by omega) hdisjoint)

end

/-- A production that is a repetition, and one in which the body of the repetition can be confused with
what comes after the first production. -/
def overrun : Grammar :=
  let (a, g) := Grammar.empty.literal "a"
  let (b, g) := g.literal "b"
  let (pair, g) := g.sequence [a, b]
  let (pairs, g) := g.zeroOrMore pair
  let (_, g) := g.addProduction "Pairs" pairs
  let (list, g) := g.nonterminal "Pairs"
  let (a, g) := g.literal "a"
  let (c, g) := g.literal "c"
  let (body, g) := g.sequence [list, a, c]
  (g.addProduction "S" body).2

/-- The example after linking. -/
def overrunLinked : Grammar := (overrun.link {}).1

/-- A lookahead of this grammar has nothing of its own to scan. -/
lemma expansion_overrun {i : NodeId} {spec : LookaheadSpec}
    (hk : overrun.kind i = .lookahead spec) : spec.expansion = none := by
  have hall : ∀ j < overrun.nodes.size, (overrun.kind j).scanned? = none := by decide +kernel
  have hnone := hall i (Grammar.lt_size_of_kind (by simp [hk]))
  rwa [hk] at hnone

/-- The grammar of overruns can be predicted. -/
lemma predictive_overrun : overrunLinked.Predictive := by
  have hall : ∀ i < overrunLinked.nodes.size,
      overrunLinked.Descends (fun i => [0, 0, 0, 1, 2, 3, 0, 0, 0, 4].getD i 0) i := by
    decide +kernel
  exact (Grammar.topDown_of_descends hall).predictive

/-- A lookahead of this grammar has no condition. -/
lemma semantic_overrun {i : NodeId} {spec : LookaheadSpec}
    (hk : overrunLinked.kind i = .lookahead spec) : spec.semantic = none := by
  have hall : ∀ j < overrunLinked.nodes.size, ∀ spec ∈ (overrunLinked.kind j).lookahead?,
      spec.semantic = none := by
    decide +kernel
  exact hall i (Grammar.lt_size_of_kind (by simp [hk])) spec (by rw [hk]; rfl)

/-- A repetition whose body begins like what follows it: the check reports the conflict as the theorem
says. -/
theorem checkRepetition_conflict_overrun : overrun.unknownId? = none ∧ overrunLinked.Predictive ∧
    overrunLinked.TreeShaped ∧ overrunLinked.InProduction 4 ∧ overrunLinked.kind 4 = .zeroOrMore 3 ∧
    ((checkRepetition overrunLinked {} (Checker.new overrunLinked {}) 4 3).1.isSome ↔
      1 ≤ 1 ∧ (beginnings overrunLinked 1 3 ∩ sequels overrunLinked 1 4).Nonempty) ∧
    (∀ conflict ∈ (checkRepetition overrunLinked {} (Checker.new overrunLinked {}) 4 3).1,
      RepetitionDiagnosis overrunLinked 1 4 3 conflict) ∧
    (checkRepetition overrunLinked {} (Checker.new overrunLinked {}) 4 3).2.engine.Idle := by
  have hids : overrun.unknownId? = none := by decide +kernel
  have htree : overrunLinked.TreeShaped := by decide +kernel
  have hin : overrunLinked.InProduction 4 := ⟨0, 4, by decide +kernel, .refl⟩
  exact ⟨hids, predictive_overrun, htree, hin, by decide +kernel,
    checkRepetition_conflict hids expansion_overrun predictive_overrun htree semantic_overrun hin 3 {}
      (idle_new overrunLinked)⟩

end GrammarForge
