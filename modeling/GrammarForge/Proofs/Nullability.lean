import GrammarForge.Grammar.Builder
import GrammarForge.Proofs.LinkedTree

set_option autoImplicit false

/-!
# Nullability is empty derivability

Whether an expansion can match nothing is read off the tree and the marks of productions. Linking
marks productions in passes over all right sides, in which each look relies on the marks made before it,
and goes on until a pass makes no mark. A mark is never wrong, whatever the order of the productions;
each pass but the last one makes a mark, and the last one finds that none is missing.

## Main definitions

* `Grammar.nullableOnce` — one look at a node, if its parts are known.
* `Grammar.Ranked` — nodes below which the tree has no cycles.
* `Grammar.MarksSound`, `Grammar.MarksComplete` — marked productions can match nothing, and all that
  can match nothing are marked.

## Main results

* `Grammar.Ranked.isNullable_eq` — nullability of a node by that of its parts.
* `Grammar.MarksSound.computeNullable`, `Grammar.marksComplete_computeNullable` — marks are right, and
  none is missing.
* `Grammar.computeNullable_loop` — passes go on while they make marks, without any bound.
* `Grammar.isNullable_link_iff` — after linking, a node is nullable iff it derives the empty sequence.
* `Grammar.link_finds_nullable` — the same for all nodes and productions of a grammar that has not been
  linked before.
-/

namespace GrammarForge

open Computability Relation

namespace Grammar

/-! ## Derivations of nothing -/

section

variable {g h : Grammar} {i : NodeId} {row : List NodeId} {w : TokenSeq}

/-- The same tree, the other way round. -/
lemma SameTree.symm (hs : g.SameTree h) : h.SameTree g :=
  ⟨hs.size.symm, fun i => (hs.kind i).symm, hs.count.symm, fun p => (hs.body p).symm⟩

/-- In the same tree nodes are expanded in the same way. -/
lemma SameTree.expands (hs : g.SameTree h) (he : g.Expands i row) : h.Expands i row := by
  cases he with
  | production hk hroot => exact .production ((hs.kind i).trans hk) ((hs.body _).trans hroot)
  | alternative hk ha => exact .alternative ((hs.kind i).trans hk) ha
  | sequence hk => exact .sequence ((hs.kind i).trans hk)
  | oneOrMore n hk => exact .oneOrMore n ((hs.kind i).trans hk)
  | zeroOrMore n hk => exact .zeroOrMore n ((hs.kind i).trans hk)
  | absent hk => exact .absent ((hs.kind i).trans hk)
  | present hk => exact .present ((hs.kind i).trans hk)
  | lookahead hk => exact .lookahead ((hs.kind i).trans hk)
  | action hk => exact .action ((hs.kind i).trans hk)

/-- In the same tree the same rows derive the same kinds. -/
lemma SameTree.derives (hs : g.SameTree h) (hd : g.Derives row w) : h.Derives row w := by
  induction hd with
  | nil => exact .nil
  | token hk _ ih => exact .token ((hs.kind _).trans hk) ih
  | expand he _ ih => exact .expand (hs.expands he) ih

/-- The same trees derive the same words. -/
lemma SameTree.words (hs : g.SameTree h) (row : List NodeId) : h.words row = g.words row := by
  ext w
  exact ⟨hs.symm.derives, hs.derives⟩

/-- A row derives nothing iff each of its nodes does.

**Proof sketch.** A derivation of nothing from a row is one from each node; and these can be put one
after the other. -/
lemma nil_mem_words_iff : [] ∈ g.words row ↔ ∀ i ∈ row, [] ∈ g.words [i] := by
  constructor
  · intro hrow i hi
    by_contra hnot
    exact nil_notMem_words hi hnot hrow
  · intro hall
    induction row with
    | nil => exact .nil
    | cons i row ih =>
      rw [words_cons]
      exact Language.append_mem_mul (hall i List.mem_cons_self)
        (ih fun j hj => hall j (List.mem_cons_of_mem i hj))

/-- A body in a row derives nothing iff it does once. -/
lemma nil_mem_words_oneOrMore {b : NodeId} (hk : g.kind i = .oneOrMore b) :
    [] ∈ g.words [i] ↔ [] ∈ g.words [b] := by
  rw [words_oneOrMore hk, Language.mem_mul]
  constructor
  · rintro ⟨u, hu, v, -, huv⟩
    rwa [(List.append_eq_nil_iff.mp huv).1] at hu
  · exact fun hnil => ⟨[], hnil, [], Language.nil_mem_kstar _, rfl⟩

end

/-! ## One look at a node -/

/-- Whether a node can match nothing, if `known` says so of its parts. -/
def nullableOnce (g : Grammar) (known : NodeId → Bool) (i : NodeId) : Bool :=
  match g.kind i with
  | .token _ => false
  | .nonterminal _ p => (p.map fun p => (g.production p).nullable).getD false
  | .choice alternatives => alternatives.any known
  | .sequence units => units.all known
  | .oneOrMore b => known b
  | .zeroOrMore _ | .zeroOrOne _ | .lookahead _ | .action _ => true

/-- **Nodes below which the tree has no cycles**: those of `ok`, which are closed downwards and include
all right sides. -/
structure Ranked (g : Grammar) (ok : NodeId → Prop) (rank : NodeId → Nat) : Prop where
  part : ∀ {i j}, ok i → g.Part i j → ok j
  root : ∀ {p root}, g.body p = some root → ok root
  le : ∀ i, rank i ≤ g.nodes.size
  lt : ∀ {i j}, ok i → g.Part i j → rank j < rank i

section

variable {g h : Grammar} {i : NodeId} {ok : NodeId → Prop} {rank : NodeId → Nat}

/-- Looking one step deeper. -/
lemma nullableWithin_succ (g : Grammar) (depth : Nat) (i : NodeId) :
    g.nullableWithin (depth + 1) i = g.nullableOnce (g.nullableWithin depth) i := rfl

/-- Whether a node is found nullable depends on its parts only.

**Proof sketch.** By cases on the kind of the node. -/
lemma nullableOnce_congr {known known' : NodeId → Bool} (h : ∀ j, g.Part i j → known j = known' j) :
    g.nullableOnce known i = g.nullableOnce known' i := by
  unfold nullableOnce
  unfold Part at h
  cases hk : g.kind i with
  | choice alternatives =>
    rw [hk] at h
    refine Bool.eq_iff_iff.mpr ?_
    rw [List.any_eq_true, List.any_eq_true]
    exact exists_congr fun a => and_congr_right fun ha => by rw [h a ha]
  | sequence units =>
    rw [hk] at h
    refine Bool.eq_iff_iff.mpr ?_
    rw [List.all_eq_true, List.all_eq_true]
    exact forall₂_congr fun u hu => by rw [h u hu]
  | oneOrMore b =>
    rw [hk] at h
    exact h b (List.mem_singleton_self b)
  | _ => rfl

/-- From the rank of a node on, the depth does not matter.

**Proof sketch.** Induction on the depth. The parts of the node have lower ranks, so that less depth is
enough for them. -/
lemma Ranked.nullableWithin_eq (hr : g.Ranked ok rank) (depth : Nat) : ∀ {i : NodeId} {depth' : Nat},
    ok i → rank i < depth → rank i < depth' →
      g.nullableWithin depth i = g.nullableWithin depth' i := by
  induction depth with
  | zero => exact fun _ hlt _ => absurd hlt (Nat.not_lt_zero _)
  | succ depth ih =>
    intro i depth' hi hlt hlt'
    cases depth' with
    | zero => exact absurd hlt' (Nat.not_lt_zero _)
    | succ depth' =>
      rw [nullableWithin_succ, nullableWithin_succ]
      refine nullableOnce_congr fun j hj => ?_
      have hdown := hr.lt hi hj
      exact ih (hr.part hi hj) (by omega) (by omega)

/-- **Nullability of a node by that of its parts.** -/
lemma Ranked.isNullable_eq (hr : g.Ranked ok rank) (hi : ok i) :
    g.isNullable i = g.nullableOnce g.isNullable i := by
  rw [isNullable, nullableWithin_succ]
  refine nullableOnce_congr fun j hj => ?_
  have hdown := hr.lt hi hj
  have hle := hr.le i
  exact hr.nullableWithin_eq g.nodes.size (hr.part hi hj) (by omega) (by omega)

/-- The same marks on the same tree give the same nullable nodes. -/
lemma SameTree.nullableWithin (hs : g.SameTree h)
    (hmarks : ∀ p, (h.production p).nullable = (g.production p).nullable) (depth : Nat) :
    h.nullableWithin depth = g.nullableWithin depth := by
  induction depth with
  | zero => rfl
  | succ depth ih =>
    funext i
    rw [nullableWithin_succ, nullableWithin_succ, ih, nullableOnce, nullableOnce, hs.kind]
    simp only [hmarks]

/-! ## Marks -/

/-- Marked productions can match nothing. -/
def MarksSound (g : Grammar) : Prop :=
  ∀ p, (g.production p).nullable = true → ∃ root, g.body p = some root ∧ [] ∈ g.words [root]

/-- Productions are marked if one look at the right side tells that it can match nothing. -/
def MarksComplete (g : Grammar) : Prop :=
  ∀ p root, g.body p = some root → g.isNullable root = true → (g.production p).nullable = true

/-- Sound marks stay sound on the same tree. -/
lemma SameTree.marksSound (hs : g.SameTree h)
    (hmarks : ∀ p, (h.production p).nullable = (g.production p).nullable) (hsound : g.MarksSound) :
    h.MarksSound := by
  intro p hp
  obtain ⟨root, hroot, hnil⟩ := hsound p ((hmarks p).symm.trans hp)
  exact ⟨root, (hs.body p).trans hroot, (hs.words [root]).symm ▸ hnil⟩

/-- Complete marks stay complete on the same tree. -/
lemma SameTree.marksComplete (hs : g.SameTree h)
    (hmarks : ∀ p, (h.production p).nullable = (g.production p).nullable)
    (hcomplete : g.MarksComplete) : h.MarksComplete := by
  intro p root hroot hnull
  rw [isNullable, hs.size, hs.nullableWithin hmarks] at hnull
  exact (hmarks p).trans (hcomplete p root ((hs.body p).symm.trans hroot) hnull)

/-- **What is found nullable derives nothing**, if marks are sound.

**Proof sketch.** Induction on the depth, by the kind of the node: a choice has a nullable alternative,
all units of a sequence are nullable, and a nonterminal is nullable by its mark, which is sound. -/
lemma MarksSound.nil_mem_words (hsound : g.MarksSound) (depth : Nat) : ∀ {i : NodeId},
    g.nullableWithin depth i = true → [] ∈ g.words [i] := by
  induction depth with
  | zero => exact fun h => absurd h Bool.false_ne_true
  | succ depth ih =>
    intro i hi
    rw [nullableWithin_succ, nullableOnce] at hi
    cases hk : g.kind i with
    | token k =>
      rw [hk] at hi
      exact absurd hi Bool.false_ne_true
    | nonterminal name p =>
      rw [hk] at hi
      cases p with
      | none => exact absurd hi Bool.false_ne_true
      | some p =>
        obtain ⟨root, hroot, hnil⟩ := hsound p hi
        rwa [words_nonterminal hk hroot]
    | choice alternatives =>
      rw [hk] at hi
      obtain ⟨a, ha, hnull⟩ := List.any_eq_true.mp hi
      exact (mem_words_choice hk).mpr ⟨a, ha, ih hnull⟩
    | sequence units =>
      rw [hk] at hi
      rw [words_sequence hk]
      exact nil_mem_words_iff.mpr fun u hu => ih (List.all_eq_true.mp hi u hu)
    | oneOrMore b =>
      rw [hk] at hi
      exact (nil_mem_words_oneOrMore hk).mpr (ih hi)
    | zeroOrMore b =>
      rw [words_zeroOrMore hk]
      exact Language.nil_mem_kstar _
    | zeroOrOne b =>
      rw [words_zeroOrOne hk]
      exact Or.inl Language.nil_mem_one
    | lookahead spec =>
      rw [words_lookahead hk]
      exact Language.nil_mem_one
    | action code =>
      rw [words_action hk]
      exact Language.nil_mem_one

/-- **What derives nothing is found nullable**, if marks are complete.

**Proof sketch.** Induction on the derivation: the row that a node is replaced by derives nothing, so
all its nodes are nullable, and one look at the node finds that out. -/
lemma MarksComplete.isNullable (hcomplete : g.MarksComplete) (hr : g.Ranked ok rank)
    {row : List NodeId} {w : TokenSeq} (hd : g.Derives row w) :
    w = [] → ∀ i ∈ row, ok i → g.isNullable i = true := by
  induction hd with
  | nil => exact fun _ i hi => absurd hi List.not_mem_nil
  | token => exact fun hnil => absurd hnil (List.cons_ne_nil _ _)
  | @expand i row rest w he _ ih =>
    intro hnil j hj hok
    have hrow : ∀ x ∈ row, ok x → g.isNullable x = true :=
      fun x hx => ih hnil x (List.mem_append_left rest hx)
    rcases List.mem_cons.mp hj with rfl | hj
    · rw [hr.isNullable_eq hok, nullableOnce]
      cases he with
      | production hk hroot =>
        rw [hk]
        exact hcomplete _ _ hroot (hrow _ (List.mem_singleton_self _) (hr.root hroot))
      | @alternative a alternatives hk ha =>
        have hpart : g.Part j a := by rwa [Part, hk]
        rw [hk]
        exact List.any_eq_true.mpr ⟨a, ha, hrow a (List.mem_singleton_self a) (hr.part hok hpart)⟩
      | sequence hk =>
        rw [hk]
        refine List.all_eq_true.mpr fun u hu => hrow u hu (hr.part hok ?_)
        rwa [Part, hk]
      | @oneOrMore b n hk =>
        have hpart : g.Part j b := by
          rw [Part, hk]
          exact List.mem_singleton_self b
        rw [hk]
        exact hrow b (List.mem_replicate.mpr ⟨n.succ_ne_zero, rfl⟩) (hr.part hok hpart)
      | zeroOrMore n hk => rw [hk]
      | absent hk => rw [hk]
      | present hk => rw [hk]
      | lookahead hk => rw [hk]
      | action hk => rw [hk]
    · exact ih hnil j (List.mem_append_right row hj) hok

/-! ## Marking productions -/

/-- A production is found if it has no mark, and one look at its right side tells that it can match
nothing. -/
lemma nullableFound_iff {p : Nat} : g.nullableFound p = true ↔
    (g.production p).nullable = false ∧ ∃ root, g.body p = some root ∧ g.isNullable root = true := by
  rw [nullableFound, Bool.and_eq_true, Bool.not_eq_true', body]
  refine and_congr_right fun _ => ?_
  cases (g.production p).expansion <;> simp

/-- Marks are complete just if there is nothing to be found. -/
lemma marksComplete_iff : g.MarksComplete ↔ ∀ p < g.productions.size, g.nullableFound p = false := by
  constructor
  · intro hcomplete p _
    rw [Bool.eq_false_iff, ne_eq, nullableFound_iff]
    rintro ⟨hunmarked, root, hroot, hnull⟩
    exact Bool.false_ne_true (hunmarked.symm.trans (hcomplete p root hroot hnull))
  · intro hnone p root hroot hnull
    by_contra hunmarked
    have hfound := nullableFound_iff.mpr ⟨Bool.eq_false_iff.mpr hunmarked, root, hroot, hnull⟩
    exact Bool.false_ne_true ((hnone p (lt_of_body hroot)).symm.trans hfound)

/-- A mark does not change the tree. -/
lemma sameTree_setNullable (g : Grammar) (p : Nat) : g.SameTree (g.setNullable p) := by
  refine ⟨rfl, fun _ => rfl, Array.size_modify, fun q => ?_⟩
  rw [body, production_setNullable]
  split_ifs <;> rfl

/-- Marking productions does not change the tree. -/
lemma sameTree_computeNullable (g : Grammar) : g.SameTree g.computeNullable :=
  computeNullable_induction (P := g.SameTree) (fun h _ => h.trans (sameTree_setNullable _ _))
    (SameTree.refl g)

/-- **A mark is never wrong**: a production is marked only if the marks made before tell that it can
match nothing. -/
lemma MarksSound.setNullable {p : Nat} (hsound : g.MarksSound) (hfound : g.nullableFound p = true) :
    (g.setNullable p).MarksSound := by
  intro q hq
  have hs := sameTree_setNullable g p
  rw [hs.body]
  simp only [hs.words]
  rw [production_setNullable] at hq
  split_ifs at hq with heq
  · obtain ⟨-, root, hroot, hnull⟩ := nullableFound_iff.mp hfound
    rw [heq.1]
    exact ⟨root, hroot, hsound.nil_mem_words _ hnull⟩
  · exact hsound q hq

/-- No mark made by `computeNullable` is wrong, if none was before. -/
lemma MarksSound.computeNullable (hsound : g.MarksSound) : g.computeNullable.MarksSound :=
  computeNullable_induction (P := MarksSound) (fun h hfound => h.setNullable hfound) hsound

/-! ## Passes -/

/-- The marked productions. -/
def marked (g : Grammar) : Finset Nat :=
  (Finset.range g.productions.size).filter fun p => (g.production p).nullable = true

/-- There are no more marks than productions. -/
lemma card_marked_le (g : Grammar) : g.marked.card ≤ g.productions.size := by
  refine (Finset.card_le_card (Finset.filter_subset _ _)).trans ?_
  rw [Finset.card_range]

/-- A production that is found gets a mark that it did not have.

**Proof sketch.** The production is among the marked ones afterwards, and it was not before; all others
keep their marks. -/
lemma marked_setNullable {p : Nat} (hfound : g.nullableFound p = true) :
    g.marked.card < (g.setNullable p).marked.card := by
  have hcount := (sameTree_setNullable g p).count
  obtain ⟨hunmarked, root, hroot, -⟩ := nullableFound_iff.mp hfound
  have hp : p < g.productions.size := lt_of_body hroot
  refine Finset.card_lt_card (Finset.ssubset_iff_subset_ne.mpr ⟨fun q hq => ?_, fun heq => ?_⟩)
  · obtain ⟨hq, hmark⟩ := Finset.mem_filter.mp hq
    refine Finset.mem_filter.mpr ⟨hcount.symm ▸ hq, ?_⟩
    rw [production_setNullable]
    split_ifs
    · rfl
    · exact hmark
  · have hmem : p ∈ (g.setNullable p).marked := by
      refine Finset.mem_filter.mpr ⟨Finset.mem_range.mpr (hcount.symm ▸ hp), ?_⟩
      rw [production_setNullable, if_pos ⟨rfl, hp⟩]
    rw [← heq] at hmem
    exact Bool.false_ne_true (hunmarked.symm.trans (Finset.mem_filter.mp hmem).2)

/-- **A stretch of a pass.** If no mark has been made in the end, then none was made before, the grammar
is as it was, and nothing has been found; else a mark was made before, or there are more marks now.

**Proof sketch.** Induction on the productions looked at. The flag is never taken back, so that one mark
decides for the rest of the pass. -/
lemma foldl_markNullable (ps : List Nat) : ∀ (g : Grammar) (changed : Bool),
    g.marked.card ≤ (ps.foldl markNullable (g, changed)).1.marked.card ∧
      ((ps.foldl markNullable (g, changed)).2 = false → changed = false ∧
        (ps.foldl markNullable (g, changed)).1 = g ∧ ∀ p ∈ ps, g.nullableFound p = false) ∧
      ((ps.foldl markNullable (g, changed)).2 = true → changed = true ∨
        g.marked.card < (ps.foldl markNullable (g, changed)).1.marked.card) := by
  induction ps with
  | nil => exact fun g changed => ⟨le_rfl, fun h => ⟨h, rfl, by simp⟩, Or.inl⟩
  | cons p ps ih =>
    intro g changed
    rw [List.foldl_cons, markNullable]
    split_ifs with hfound
    · obtain ⟨hle, hnone, -⟩ := ih (g.setNullable p) true
      have hlt := (marked_setNullable hfound).trans_le hle
      exact ⟨hlt.le, fun h => absurd (hnone h).1 (by simp), fun _ => Or.inr hlt⟩
    · obtain ⟨hle, hnone, hsome⟩ := ih g changed
      refine ⟨hle, fun h => ?_, hsome⟩
      obtain ⟨hchanged, hsame, hrest⟩ := hnone h
      exact ⟨hchanged, hsame, List.forall_mem_cons.mpr ⟨Bool.eq_false_iff.mpr hfound, hrest⟩⟩

/-- **A pass without a mark** leaves the grammar as it is, since its marks are complete. -/
lemma nullablePass_of_unchanged (h : g.nullablePass.2 = false) :
    g.nullablePass.1 = g ∧ g.MarksComplete := by
  obtain ⟨-, hsame, hnone⟩ := (foldl_markNullable _ g false).2.1 h
  exact ⟨hsame, marksComplete_iff.mpr fun p hp => hnone p (List.mem_range.mpr hp)⟩

/-- **A pass with a mark** leaves more marks than there were. -/
lemma nullablePass_of_changed (h : g.nullablePass.2 = true) :
    g.marked.card < g.nullablePass.1.marked.card :=
  ((foldl_markNullable _ g false).2.2 h).resolve_left Bool.false_ne_true

/-- A pass does not change the tree. -/
lemma sameTree_nullablePass (g : Grammar) : g.SameTree g.nullablePass.1 :=
  nullablePass_induction (P := g.SameTree) (fun h _ => h.trans (sameTree_setNullable _ _))
    (SameTree.refl g)

/-- **The bound on the passes is never met.** As many passes as there are productions without a mark, and
one more, end with complete marks; any greater number gives the same grammar.

**Proof sketch.** Induction on the passes. One that makes a mark leaves fewer productions without one; one
that makes none is the last. -/
theorem nullablePasses_of_le (passes : Nat) : ∀ {g : Grammar},
    g.productions.size < g.marked.card + passes → (nullablePasses passes g).MarksComplete ∧
      ∀ more, passes ≤ more → nullablePasses more g = nullablePasses passes g := by
  induction passes with
  | zero => exact fun {g} h => absurd g.card_marked_le (Nat.not_le.mpr h)
  | succ passes ih =>
    intro g h
    cases hchanged : g.nullablePass.2 with
    | false =>
      obtain ⟨hsame, hcomplete⟩ := nullablePass_of_unchanged hchanged
      have hstop : ∀ n, nullablePasses (n + 1) g = g := by
        intro n
        rw [nullablePasses, hchanged, if_neg Bool.false_ne_true, hsame]
      refine ⟨(hstop passes).symm ▸ hcomplete, fun more hmore => ?_⟩
      obtain ⟨n, rfl⟩ := Nat.exists_eq_succ_of_ne_zero (Nat.ne_zero_of_lt hmore)
      rw [hstop, hstop]
    | true =>
      have hlt := nullablePass_of_changed hchanged
      have hsize := (sameTree_nullablePass g).count
      have hstep : ∀ n, nullablePasses (n + 1) g = nullablePasses n g.nullablePass.1 := by
        intro n
        rw [nullablePasses, hchanged, if_pos rfl]
      obtain ⟨hcomplete, hmore⟩ := ih (g := g.nullablePass.1) (by omega)
      refine ⟨(hstep passes).symm ▸ hcomplete, fun more hle => ?_⟩
      obtain ⟨n, rfl⟩ := Nat.exists_eq_succ_of_ne_zero (Nat.ne_zero_of_lt hle)
      rw [hstep, hstep]
      exact hmore n (Nat.le_of_succ_le_succ hle)

/-- **All that can be found is marked in the end.** -/
lemma marksComplete_computeNullable (g : Grammar) : g.computeNullable.MarksComplete :=
  (nullablePasses_of_le _ (by omega)).1

/-- **Productions are marked in a loop**: a pass that makes a mark is followed by another one, and a pass
that makes none is the last. -/
theorem computeNullable_loop (g : Grammar) : g.computeNullable =
    if g.nullablePass.2 then g.nullablePass.1.computeNullable else g.nullablePass.1 := by
  rw [computeNullable, nullablePasses]
  split_ifs with hchanged
  · have hlt := nullablePass_of_changed hchanged
    have hsize := (sameTree_nullablePass g).count
    rw [computeNullable]
    exact ((nullablePasses_of_le _ (by omega)).2 _ (by omega)).symm
  · rfl

/-- When all is marked, nothing changes any more. -/
lemma MarksComplete.computeNullable_eq (hcomplete : g.MarksComplete) : g.computeNullable = g := by
  have hnone : g.nullablePass.2 = false := by
    refine Bool.eq_false_iff.mpr fun hchanged => ?_
    have hpass : g.nullablePass = (g, false) := by
      refine List.foldlRecOn (motive := fun r => r = (g, false)) _ markNullable rfl ?_
      rintro r rfl p hp
      rw [markNullable, marksComplete_iff.mp hcomplete p (List.mem_range.mp hp), if_neg (by simp)]
    rw [hpass] at hchanged
    exact Bool.false_ne_true hchanged
  rw [computeNullable_loop, hnone, if_neg Bool.false_ne_true]
  exact (nullablePass_of_unchanged hnone).1

/-! ## Marks after linking -/

/-- Setting parents changes no marks. -/
lemma nullable_setParents (g : Grammar) (p : Nat) :
    (g.setParents.production p).nullable = (g.production p).nullable := by
  let R : Grammar → Grammar → Prop := fun g h =>
    ∀ p, (h.production p).nullable = (g.production p).nullable
  have hR : KeptByLinking R := by
    refine ⟨fun g p => rfl, fun h₁ h₂ p => (h₂ p).trans (h₁ p), fun g i parent index p => rfl,
      fun g q i p => ?_, fun g p => ?_⟩
    · rw [addReference, production, getD_modify, production]
      split_ifs <;> rfl
    · rw [production, production, Array.getD_eq_getD_getElem?, Array.getD_eq_getD_getElem?,
        Array.getElem?_map]
      cases g.productions[p]? <;> rfl
  exact hR.setParents g p

/-- Marks after the last steps of linking, if no production was marked wrongly before.

**Proof sketch.** A production that was marked before derives nothing by hypothesis, so that the marks
are sound before the loop; the loop keeps them sound and makes them complete. -/
lemma marks_last (hmarks : ∀ p, (g.production p).nullable = true → ∃ root, g.body p = some root ∧
      [] ∈ g.setParents.fillLookaheadDefaults.computeNullable.words [root]) :
    g.setParents.fillLookaheadDefaults.computeNullable.MarksSound ∧
      g.setParents.fillLookaheadDefaults.computeNullable.MarksComplete := by
  have hbody : ∀ p, g.setParents.fillLookaheadDefaults.body p = g.body p :=
    (sameTree_setParents g).body
  have hmark : ∀ p, (g.setParents.fillLookaheadDefaults.production p).nullable =
      (g.production p).nullable := nullable_setParents g
  generalize g.setParents.fillLookaheadDefaults = filled at hmarks hbody hmark ⊢
  have hsame : filled.SameTree filled.computeNullable := sameTree_computeNullable filled
  have hsound : filled.MarksSound := by
    intro p hp
    obtain ⟨root, hroot, hnil⟩ := hmarks p ((hmark p).symm.trans hp)
    exact ⟨root, (hbody p).trans hroot, hsame.words [root] ▸ hnil⟩
  exact ⟨hsound.computeNullable, marksComplete_computeNullable filled⟩

/-- **After linking, marks are sound and complete**, if no production was marked wrongly before.

**Proof sketch.** Linking the tree and filling in defaults change no marks, and the loop over the
productions makes the marks sound and complete; what follows keeps the tree and the marks. -/
lemma marks_link {ds : Diagnostics} (hmarks : ∀ p, (g.production p).nullable = true →
      ∃ root, g.body p = some root ∧ [] ∈ (g.link ds).1.words [root]) :
    (g.link ds).1.MarksSound ∧ (g.link ds).1.MarksComplete := by
  obtain ⟨k, hnames, hlink⟩ := g.exists_link_eq ds
  have hproductions := hnames.productions
  have hsame : k.setParents.fillLookaheadDefaults.computeNullable.SameTree (g.link ds).1 := by
    rw [hlink]
    exact ⟨rfl, fun _ => rfl, rfl, fun _ => rfl⟩
  have hmark : ∀ p, ((g.link ds).1.production p).nullable =
      (k.setParents.fillLookaheadDefaults.computeNullable.production p).nullable := by
    rw [hlink]
    exact fun _ => rfl
  obtain ⟨hsound, hcomplete⟩ := marks_last fun p hp => by
    rw [production, hproductions] at hp
    obtain ⟨root, hroot, hnil⟩ := hmarks p hp
    rw [body, production, hproductions]
    exact ⟨root, hroot, hsame.words [root] ▸ hnil⟩
  exact ⟨hsame.marksSound hmark hsound, hsame.marksComplete hmark hcomplete⟩

/-- **After linking, a node is nullable iff it derives the empty sequence.** -/
theorem isNullable_link_iff {ds : Diagnostics} (hr : (g.link ds).1.Ranked ok rank)
    (hmarks : ∀ p, (g.production p).nullable = true →
      ∃ root, g.body p = some root ∧ [] ∈ (g.link ds).1.words [root]) (hi : ok i) :
    (g.link ds).1.isNullable i = true ↔ [] ∈ (g.link ds).1.words [i] := by
  obtain ⟨hsound, hcomplete⟩ := marks_link hmarks
  constructor
  · exact hsound.nil_mem_words _
  · intro hnil
    exact hcomplete.isNullable hr hnil rfl i (List.mem_singleton_self i) hi

/-- The nodes of a grammar without cycles are ranked. -/
lemma exists_ranked (hacyclic : ∀ i, ¬ TransGen g.Part i i) :
    ∃ rank, g.Ranked (fun _ => True) rank := by
  have hlt : ∀ i j, g.Part i j → i < g.nodes.size := by
    intro i j hij
    refine lt_size_of_kind fun code hk => ?_
    rw [Part, hk] at hij
    cases hij
  obtain ⟨rank, hle, hdown⟩ := exists_rank hlt hacyclic
  exact ⟨rank, fun _ _ => trivial, fun _ => trivial, hle, fun _ hij => hdown _ _ hij⟩

/-- **Nullability is empty derivability.** When a grammar is linked for the first time, whether or not
there are faults, a node is nullable iff it derives the empty sequence, and a production is marked iff
its right side does. Only the tree must have no cycles; productions may refer to each other in any
way.

**Proof sketch.** The marks of the productions are sound and complete after linking, so that one look at
the tree, deep enough for its ranks, finds just the nodes that derive nothing. -/
theorem link_finds_nullable {ds : Diagnostics} (hfresh : ∀ p ∈ g.productions, p.nullable = false)
    (hacyclic : ∀ i, ¬ TransGen (g.link ds).1.Part i i) :
    (∀ i, (g.link ds).1.isNullable i = true ↔ [] ∈ (g.link ds).1.words [i]) ∧
      ∀ p, ((g.link ds).1.production p).nullable = true ↔
        ∃ root, (g.link ds).1.body p = some root ∧ [] ∈ (g.link ds).1.words [root] := by
  obtain ⟨rank, hr⟩ := exists_ranked hacyclic
  have hmarks : ∀ p, (g.production p).nullable = true →
      ∃ root, g.body p = some root ∧ [] ∈ (g.link ds).1.words [root] := by
    intro p hp
    rw [production, Array.getD_eq_getD_getElem?] at hp
    cases hq : g.productions[p]? with
    | none =>
      rw [hq] at hp
      cases hp
    | some q =>
      rw [hq, Option.getD_some, hfresh q (Array.mem_of_getElem? hq)] at hp
      cases hp
  obtain ⟨hsound, hcomplete⟩ := marks_link hmarks
  have hnodes : ∀ i, (g.link ds).1.isNullable i = true ↔ [] ∈ (g.link ds).1.words [i] :=
    fun i => isNullable_link_iff hr hmarks trivial
  refine ⟨hnodes, fun p => ⟨hsound p, ?_⟩⟩
  rintro ⟨root, hroot, hnil⟩
  exact hcomplete p root hroot ((hnodes root).mpr hnil)

end

/-- Productions that refer to each other: `outer` matches nothing by way of `inner`, which comes after
it; `round` and `trip` give each other no reason to; `hand` is parsed by hand-written code, and nothing
defines `missing`. -/
def mutualReferences : Grammar :=
  let (inner, g) := empty.nonterminal "inner"
  let (_, g) := g.addProduction "outer" inner
  let (x, g) := g.literal "x"
  let (more, g) := g.zeroOrMore x
  let (y, g) := g.literal "y"
  let (either, g) := g.choice [y, more]
  let (_, g) := g.addProduction "inner" either
  let (trip, g) := g.nonterminal "trip"
  let (_, g) := g.addProduction "round" trip
  let (round, g) := g.nonterminal "round"
  let (_, g) := g.addProduction "trip" round
  let (_, g) := g.addCodeProduction "hand"
  let (hand, g) := g.nonterminal "hand"
  let (missing, g) := g.nonterminal "missing"
  let (last, g) := g.choice [hand, missing]
  (g.addProduction "last" last).2

/-- The tree of mutual references has no cycles. -/
lemma acyclic_mutualReferences (i : NodeId) : ¬ TransGen (mutualReferences.link {}).1.Part i i := by
  have hall : ∀ i < (mutualReferences.link {}).1.nodes.size,
      ∀ j ∈ ((mutualReferences.link {}).1.kind i).parts, j < i := by decide +kernel
  have hdown : ∀ i j, (mutualReferences.link {}).1.Part i j → j < i := by
    intro i j hij
    refine hall i (lt_size_of_kind fun code hk => ?_) j hij
    rw [Part, hk] at hij
    cases hij
  exact not_transGen_self id hdown i

/-- Two productions that refer to each other: nodes are nullable just if they derive nothing. -/
theorem link_finds_nullable_mutualReferences :
    (∀ p ∈ mutualReferences.productions, p.nullable = false) ∧
      (∀ i, ¬ TransGen (mutualReferences.link {}).1.Part i i) ∧
      (∀ i, (mutualReferences.link {}).1.isNullable i = true ↔
        [] ∈ (mutualReferences.link {}).1.words [i]) ∧
      ∀ p, ((mutualReferences.link {}).1.production p).nullable = true ↔
        ∃ root, (mutualReferences.link {}).1.body p = some root ∧
          [] ∈ (mutualReferences.link {}).1.words [root] :=
  ⟨by decide +kernel, acyclic_mutualReferences,
    link_finds_nullable (by decide +kernel) acyclic_mutualReferences⟩

example : (mutualReferences.link {}).1.productions.toList.map Production.nullable =
    [true, true, false, false, false, false] := by decide +kernel

end Grammar

end GrammarForge
