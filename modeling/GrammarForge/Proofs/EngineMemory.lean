import GrammarForge.Proofs.ChoiceConflicts
import GrammarForge.Proofs.ParallelWalks

set_option autoImplicit false

/-!
# The engine has no memory between queries

An engine keeps the limit, the matches set aside, the stamps of nodes and the notes of the walks from
one query to the next. None of this shows in what it is asked next: the notes have been taken back, all
stamps are older than the next one, and every question sets the limit and forgets the matches set aside
before it walks. Nor does a check of choice points depend on the checks before it.

## Main definitions

* `Engine.Resting` — an engine between two queries.
* `Engine.Query`, `Engine.asked` — what an engine can be asked to do, and an engine after a history.
* `Checker.Check`, `Checker.checkEach` — what a checker can be asked, and one checker for many checks.

## Main results

* `Twins.firstSet`, `Twins.followSet` — engines that differ in their stamps alone answer alike.
* `resting_asked` — after every history an engine is at rest.
* `queries_forgotten` — what an engine or a checker answers does not depend on earlier questions.
-/

namespace GrammarForge

open Engine

/-! ## Engines at rest -/

/-- **An engine between two queries**: nothing is noted, and all stamps are older than the next one. -/
structure Engine.Resting (size : Nat) (e : Engine) : Prop extends e.Idle where
  size : e.stamps.size = size

/-- Engines at rest with the same limit. -/
structure Peers (size : Nat) (e e' : Engine) : Prop where
  left : e.Resting size
  right : e'.Resting size
  limit : e'.limit = e.limit

/-- **Engines at rest that differ in their stamps alone.** -/
structure Twins (size : Nat) (e e' : Engine) : Prop extends Peers size e e' where
  considerSemantic : e'.considerSemantic = e.considerSemantic
  limited : e'.limited = e.limited

section

variable {g : Grammar} {size : Nat} {e e' : Engine}

/-- An engine at rest is a twin of itself. -/
lemma Engine.Resting.twins (h : e.Resting size) : Twins size e e := ⟨⟨h, h, rfl⟩, rfl, rfl⟩

/-- The settings and the matches set aside do not matter. -/
lemma Engine.Resting.adjust (h : e.Resting size) (limit : Nat) (semantic : Bool)
    (limited : Array TokenSeq) :
    { e with limit := limit, considerSemantic := semantic, limited := limited }.Resting size :=
  ⟨⟨h.active, h.following, h.stamps⟩, h.size⟩

/-- A new engine is at rest. -/
lemma resting_new (g : Grammar) (semantic : Bool) :
    { new g with considerSemantic := semantic }.Resting g.nodes.size where
  active := rfl
  following := rfl
  stamps := (idle_new g).stamps
  size := Array.size_replicate

/-- The start of a walk on two engines. -/
lemma Twins.inStep (h : Twins size e e') : InStep e e.nextStamp e'.nextStamp 0 e e' where
  left := Keeps.refl e
  right := {
    limit := h.limit
    considerSemantic := h.considerSemantic
    active := h.right.active.trans h.left.active.symm
    following := h.right.following.trans h.left.following.symm
    size := h.right.size.trans h.left.size.symm }
  limited := h.limited
  stamps := ⟨0, le_rfl, rfl, rfl, fun z => Or.inl ⟨h.left.stamps z, h.right.stamps z⟩⟩

/-- The end of a walk on two engines.

**Proof sketch.** Both walks have kept the notes and the stacks, and their stamps correspond; the rest
of an engine at rest is not changed by a walk. -/
lemma Twins.of_inStep (h : Twins size e e') {base base' : Nat} {e₁ e₁' : Engine}
    (hstep : InStep e base base' 0 e₁ e₁') : Twins size e₁ e₁' := by
  obtain ⟨n, -, hnext, hnext', hmatch⟩ := hstep.stamps
  have hrest : ∀ {e₂ : Engine}, e.Keeps e₂ → (∀ z, e₂.stamps.getD z 0 < e₂.nextStamp) →
      e₂.Resting size := fun hkeeps hstamps =>
    { active := hkeeps.active.trans h.left.active
      following := hkeeps.following.trans h.left.following
      stamps := hstamps
      size := hkeeps.size.trans h.left.size }
  exact {
    left := hrest hstep.left fun z => hnext ▸ (hmatch z).lt.1
    right := hrest hstep.right fun z => hnext' ▸ (hmatch z).lt.2
    limit := hstep.right.limit.trans hstep.left.limit.symm
    considerSemantic := hstep.right.considerSemantic.trans hstep.left.considerSemantic.symm
    limited := hstep.limited }

/-- Walks in parallel on twins. -/
lemma Twins.getD {x : Walk (List PartialMatch)} (h : Twins size e e')
    (hx : InParallel (InStep e e.nextStamp e'.nextStamp 0) x x) :
    ((x e).getD ([], e)).1 = ((x e').getD ([], e')).1 ∧
      Twins size ((x e).getD ([], e)).2 ((x e').getD ([], e')).2 := by
  have hrel := hx e e' h.inStep
  generalize x e = r, x e' = r' at hrel ⊢
  cases hrel with
  | none => exact ⟨rfl, h⟩
  | some hsame => exact ⟨hsame.1, h.of_inStep hsame.2⟩

/-- FIRST on twins gives the same and leaves twins. -/
lemma Twins.firstSet (h : Twins size e e') (ms : List PartialMatch) (i : NodeId) :
    (e.firstSet g ms i).1 = (e'.firstSet g ms i).1 ∧
      Twins size (e.firstSet g ms i).2 (e'.firstSet g ms i).2 :=
  h.getD (inParallel_first ms i)

/-- FOLLOW on twins gives the same and leaves twins. -/
lemma Twins.followSet (h : Twins size e e') (ms : List PartialMatch) (i : NodeId) :
    (e.followSet g ms i).1 = (e'.followSet g ms i).1 ∧
      Twins size (e.followSet g ms i).2 (e'.followSet g ms i).2 :=
  h.getD (inParallel_follow ms i)

/-- Engines at rest are twins once the limit is set and the matches set aside are forgotten. -/
lemma Engine.Resting.prepare (h : e.Resting size) (h' : e'.Resting size)
    (hsemantic : e'.considerSemantic = e.considerSemantic) (k : Nat) :
    Twins size (e.setLimit k).takeLimited.2 (e'.setLimit k).takeLimited.2 :=
  ⟨⟨h.adjust _ _ _, h'.adjust _ _ _, rfl⟩, hsemantic, rfl⟩

/-- Taking what has been set aside from twins gives the same and leaves twins. -/
lemma Twins.takeLimited (h : Twins size e e') : e.takeLimited.1 = e'.takeLimited.1 ∧
    Twins size e.takeLimited.2 e'.takeLimited.2 :=
  ⟨congrArg Array.toList h.limited.symm,
    ⟨⟨h.left.adjust _ _ _, h.right.adjust _ _ _, h.limit⟩, h.considerSemantic, rfl⟩⟩

/-- Collecting on twins gives the same and leaves twins. -/
lemma Twins.collect {r r' : List PartialMatch × Engine} (hout : r.1 = r'.1)
    (h : Twins size r.2 r'.2) : (Engine.collect r).1 = (Engine.collect r').1 ∧
      Twins size (Engine.collect r).2 (Engine.collect r').2 := by
  obtain ⟨hlimited, htwins⟩ := h.takeLimited
  refine ⟨?_, htwins⟩
  show sortedSet compare (tokensOf r.1 ++ r.2.takeLimited.1) =
    sortedSet compare (tokensOf r'.1 ++ r'.2.takeLimited.1)
  rw [hout, hlimited]

/-- **FIRST up to a length does not depend on what the engine did before.** -/
lemma Engine.Resting.firstSequences (h : e.Resting size) (h' : e'.Resting size)
    (hsemantic : e'.considerSemantic = e.considerSemantic) (i : NodeId) (k : Nat) :
    (e.firstSequences g i k).1 = (e'.firstSequences g i k).1 ∧
      Twins size (e.firstSequences g i k).2 (e'.firstSequences g i k).2 := by
  obtain ⟨hout, htwins⟩ := (h.prepare h' hsemantic k).firstSet (g := g) Engine.start i
  exact htwins.collect hout

/-- **FOLLOW up to a length does not depend on what the engine did before.** -/
lemma Engine.Resting.followSequences (h : e.Resting size) (h' : e'.Resting size)
    (hsemantic : e'.considerSemantic = e.considerSemantic) (i : NodeId) (k : Nat) :
    (e.followSequences g i k).1 = (e'.followSequences g i k).1 ∧
      Twins size (e.followSequences g i k).2 (e'.followSequences g i k).2 := by
  obtain ⟨hout, htwins⟩ := (h.prepare h' hsemantic k).followSet (g := g) Engine.start i
  exact htwins.collect hout

end

/-! ## Histories -/

/-- What an engine can be asked to do. -/
inductive Engine.Query where
  | firstSet (ms : List PartialMatch) (node : NodeId)
  | followSet (ms : List PartialMatch) (node : NodeId)
  | firstSequences (node : NodeId) (limit : Nat)
  | followSequences (node : NodeId) (limit : Nat)
  | setLimit (limit : Nat)
  | considerSemantic (semantic : Bool)
  | takeLimited

/-- The engine after a query. -/
def Engine.Query.run (g : Grammar) (e : Engine) : Query → Engine
  | firstSet ms i => (e.firstSet g ms i).2
  | followSet ms i => (e.followSet g ms i).2
  | firstSequences i k => (e.firstSequences g i k).2
  | followSequences i k => (e.followSequences g i k).2
  | setLimit k => e.setLimit k
  | considerSemantic semantic => { e with considerSemantic := semantic }
  | takeLimited => e.takeLimited.2

/-- An engine after a history of queries. -/
def Engine.asked (g : Grammar) (history : List Query) : Engine := history.foldl (Query.run g) (new g)

section

variable {g : Grammar} {size : Nat} {e : Engine}

/-- A query leaves the engine at rest. -/
lemma Engine.Resting.run (h : e.Resting size) (q : Query) : (q.run g e).Resting size := by
  cases q with
  | firstSet ms i => exact (h.twins.firstSet ms i).2.left
  | followSet ms i => exact (h.twins.followSet ms i).2.left
  | firstSequences i k => exact (h.firstSequences h rfl i k).2.left
  | followSequences i k => exact (h.followSequences h rfl i k).2.left
  | setLimit k => exact h.adjust _ _ _
  | considerSemantic semantic => exact h.adjust _ _ _
  | takeLimited => exact h.twins.takeLimited.2.left

/-- **After every history an engine is at rest.** -/
lemma resting_asked (g : Grammar) (history : List Query) : (asked g history).Resting g.nodes.size := by
  have hrun : ∀ (history : List Query) {e : Engine}, e.Resting g.nodes.size →
      (history.foldl (Query.run g) e).Resting g.nodes.size := by
    intro history
    induction history with
    | nil => exact id
    | cons q history ih => exact fun h => ih (h.run q)
  exact hrun history (resting_new g false)

end

/-! ## Checks of choice points -/

section

variable {g : Grammar} {size : Nat} {e e' : Engine}

/-- FIRST of a node on peers gives the same and leaves twins. -/
lemma Peers.firstOf (h : Peers size e e') (semantic : Bool) (i : NodeId) :
    (Checker.firstOf g semantic e i).1 = (Checker.firstOf g semantic e' i).1 ∧
      Twins size (Checker.firstOf g semantic e i).2 (Checker.firstOf g semantic e' i).2 := by
  have htwins : Twins size { e with considerSemantic := semantic }.takeLimited.2
      { e' with considerSemantic := semantic }.takeLimited.2 :=
    ⟨⟨h.left.adjust _ _ _, h.right.adjust _ _ _, h.limit⟩, rfl, rfl⟩
  exact (htwins.firstSet Engine.start i).2.takeLimited

/-- FOLLOW of a node on twins gives the same and leaves twins. -/
lemma Twins.followOf (h : Twins size e e') (i : NodeId) :
    (Checker.followOf g e i).1 = (Checker.followOf g e' i).1 ∧
      Twins size (Checker.followOf g e i).2 (Checker.followOf g e' i).2 := by
  have htwins : Twins size { e with considerSemantic := false }
      { e' with considerSemantic := false } :=
    ⟨⟨h.left.adjust _ _ _, h.right.adjust _ _ _, h.limit⟩, rfl, h.limited⟩
  exact (htwins.followSet Engine.start i).2.takeLimited

/-- FIRST of several nodes on peers gives the same and leaves peers. -/
lemma Peers.firstOfEach (semantic : Bool) (ids : List NodeId) : ∀ {e e' : Engine}, Peers size e e' →
    (Checker.firstOfEach g semantic e ids).1 = (Checker.firstOfEach g semantic e' ids).1 ∧
      Peers size (Checker.firstOfEach g semantic e ids).2 (Checker.firstOfEach g semantic e' ids).2 := by
  induction ids with
  | nil => exact fun h => ⟨rfl, h⟩
  | cons i ids ih =>
    intro e e' h
    obtain ⟨hfirst, htwins⟩ := h.firstOf (g := g) semantic i
    obtain ⟨hrest, hpeers⟩ := ih htwins.toPeers
    exact ⟨congrArg₂ List.cons hfirst hrest, hpeers⟩

/-- Comparing alternatives does not depend on what the engine did before.

**Proof sketch.** Induction on the rounds. Each one sets the limit, which makes both engines peers, and
the two rows of FIRST give the same on peers. -/
lemma Engine.Resting.deepen (force : Bool) (alternatives : List (Nat × NodeId)) (rounds : Nat) :
    ∀ {e e' : Engine}, e.Resting size → e'.Resting size → ∀ depth found,
      (Checker.deepen g force alternatives rounds depth found e).1 =
          (Checker.deepen g force alternatives rounds depth found e').1 ∧
        (Checker.deepen g force alternatives rounds depth found e).2.Resting size ∧
        (Checker.deepen g force alternatives rounds depth found e').2.Resting size := by
  induction rounds with
  | zero => exact fun h h' _ _ => ⟨rfl, h, h'⟩
  | succ rounds ih =>
    intro e e' h h' depth found
    have hpeers : Peers size (e.setLimit depth) (e'.setLimit depth) :=
      ⟨h.adjust _ _ _, h'.adjust _ _ _, rfl⟩
    obtain ⟨hleft, hpeers₁⟩ := hpeers.firstOfEach (g := g) (!force) (alternatives.dropLast.map Prod.snd)
    obtain ⟨hright, hpeers₂⟩ := hpeers₁.firstOfEach (g := g) false (alternatives.tail.map Prod.snd)
    simp only [Checker.deepen]
    rw [hleft, hright]
    split
    · exact ⟨rfl, hpeers₂.left, hpeers₂.right⟩
    · split_ifs
      · exact ⟨rfl, hpeers₂.left, hpeers₂.right⟩
      · exact ih hpeers₂.left hpeers₂.right _ _

/-- **A check of a choice does not depend on the checks before it.**

**Proof sketch.** Only the engine carries something over from one check to the next one, and all that it
is asked begins with setting it up. -/
lemma Engine.Resting.checkChoice (o : Options) {c c' : Checker} (h : c.engine.Resting size)
    (h' : c'.engine.Resting size) (choice : NodeId) :
    (Checker.checkChoice g o c choice).1 = (Checker.checkChoice g o c' choice).1 ∧
      (Checker.checkChoice g o c choice).2.engine.Resting size := by
  cases hk : g.kind choice with
  | choice alternatives =>
    simp only [Checker.checkChoice, hk]
    split_ifs
    · exact ⟨rfl, h⟩
    · obtain ⟨hsame, hrest, -⟩ := h.deepen (g := g) o.forceLookaheadCheck
        (Checker.checkedAlternatives g o.forceLookaheadCheck alternatives) o.choiceAmbiguityCheck h' 1 []
      generalize Checker.deepen g o.forceLookaheadCheck _ _ _ _ c.engine = r,
        Checker.deepen g o.forceLookaheadCheck _ _ _ _ c'.engine = r' at hsame hrest ⊢
      obtain ⟨depths, e₁⟩ := r
      obtain ⟨_, e₁'⟩ := r'
      obtain rfl := hsame
      cases depths with
      | error forced => exact ⟨rfl, hrest⟩
      | ok found =>
        refine ⟨rfl, ?_⟩
        rw [warnChoice_foldl_engine]
        exact hrest
  | _ =>
    simp only [Checker.checkChoice, hk]
    exact ⟨trivial, h⟩

/-- Comparing a body with what follows does not depend on what the engine did before.

**Proof sketch.** Induction on the rounds, as for alternatives: FIRST of the body and FOLLOW of the node
give the same on both engines. -/
lemma Engine.Resting.deepenRepetition (force : Bool) (id body : NodeId) (rounds : Nat) :
    ∀ {c c' : Checker}, c.engine.Resting size → c'.engine.Resting size → ∀ depth last,
      (Checker.deepenRepetition g force id body rounds depth last c).1 =
          (Checker.deepenRepetition g force id body rounds depth last c').1 ∧
        (Checker.deepenRepetition g force id body rounds depth last c).2.engine.Resting size := by
  induction rounds with
  | zero => exact fun h _ _ _ => ⟨rfl, h⟩
  | succ rounds ih =>
    intro c c' h h' depth last
    have hpeers : Peers size (c.engine.setLimit depth) (c'.engine.setLimit depth) :=
      ⟨h.adjust _ _ _, h'.adjust _ _ _, rfl⟩
    obtain ⟨hinside, htwins⟩ := hpeers.firstOf (g := g) (!force) body
    obtain ⟨hafter, htwins'⟩ := htwins.followOf (g := g) id
    simp only [Checker.deepenRepetition]
    rw [hinside, hafter]
    -- the warning about code productions leaves the engine alone
    have hwarned : ∀ {d : Checker} (b : Prop) [Decidable b] (p : Position) (message : String),
        d.engine.Resting size → (if b then d.warn p message else d).engine.Resting size := by
      intro d b _ p message hd
      split_ifs
      · exact hd
      · exact hd
    split
    · exact ih (hwarned _ _ _ htwins'.left) (hwarned _ _ _ htwins'.right) _ _
    · exact ⟨rfl, hwarned _ _ _ htwins'.left⟩

/-- **A check of a repetition does not depend on the checks before it.**

**Proof sketch.** Only the engine carries something over, and the rounds begin with setting it up. -/
lemma Engine.Resting.checkRepetition (o : Options) {c c' : Checker} (h : c.engine.Resting size)
    (h' : c'.engine.Resting size) (id body : NodeId) :
    (Checker.checkRepetition g o c id body).1 = (Checker.checkRepetition g o c' id body).1 ∧
      (Checker.checkRepetition g o c id body).2.engine.Resting size := by
  obtain ⟨hsame, hrest⟩ := h.deepenRepetition (g := g) o.forceLookaheadCheck id body
    o.otherAmbiguityCheck h' 1 none
  simp only [Checker.checkRepetition]
  generalize Checker.deepenRepetition g o.forceLookaheadCheck id body _ _ _ c = r,
    Checker.deepenRepetition g o.forceLookaheadCheck id body _ _ _ c' = r' at hsame hrest ⊢
  obtain ⟨⟨depth, last⟩, c₁⟩ := r
  obtain ⟨_, c₁'⟩ := r'
  obtain rfl := hsame
  cases last with
  | none => exact ⟨rfl, hrest⟩
  | some common => exact ⟨rfl, hrest⟩

end

/-- What a checker can be asked. -/
inductive Checker.Check where
  | choice (node : NodeId)
  | repetition (node body : NodeId)

/-- The conflicts that a check finds, and the checker after it. -/
def Checker.Check.run (g : Grammar) (o : Options) (c : Checker) : Check → List Conflict × Checker
  | choice id => checkChoice g o c id
  | repetition id body =>
    let (conflict, c) := checkRepetition g o c id body
    (conflict.toList, c)

/-- The conflicts that one checker finds in each of several checks, one after the other. -/
def Checker.checkEach (g : Grammar) (o : Options) : Checker → List Check → List (List Conflict)
  | _, [] => []
  | c, check :: checks =>
    let (conflicts, c) := check.run g o c
    conflicts :: checkEach g o c checks

section

variable {g : Grammar} {size : Nat}

/-- A check does not depend on what the engine did before. -/
lemma Engine.Resting.check (o : Options) {c c' : Checker} (h : c.engine.Resting size)
    (h' : c'.engine.Resting size) (check : Checker.Check) :
    (check.run g o c).1 = (check.run g o c').1 ∧ (check.run g o c).2.engine.Resting size := by
  cases check with
  | choice id => exact h.checkChoice o h' id
  | repetition id body =>
    obtain ⟨hsame, hrest⟩ := h.checkRepetition (g := g) o h' id body
    exact ⟨congrArg Option.toList hsame, hrest⟩

/-- One checker finds what separate ones find. -/
lemma checkEach_eq (o : Options) {c' : Checker} (h' : c'.engine.Resting size)
    (checks : List Checker.Check) : ∀ {c : Checker}, c.engine.Resting size →
      Checker.checkEach g o c checks = checks.map fun check => (check.run g o c').1 := by
  induction checks with
  | nil => exact fun _ => rfl
  | cons check checks ih =>
    intro c h
    obtain ⟨hsame, hrest⟩ := h.check (g := g) o h' check
    rw [Checker.checkEach, List.map_cons, ← hsame, ← ih hrest]

end

/-- **What an engine or a checker answers does not depend on earlier questions.** After every history
of queries, the sequences of FIRST and FOLLOW are those of a new engine with the same setting; and one
checker finds in each of several checks, in whatever order, what a new checker finds in it.

**Proof sketch.** After every history the engine is at rest, as a new one is. On engines at rest the
same walk gives the same result, since the stamps that it gives out correspond. -/
theorem queries_forgotten (g : Grammar) :
    (∀ (history : List Query) (i : NodeId) (k : Nat),
      ((asked g history).firstSequences g i k).1 =
          ({ new g with considerSemantic := (asked g history).considerSemantic }.firstSequences
            g i k).1 ∧
        ((asked g history).followSequences g i k).1 =
          ({ new g with considerSemantic := (asked g history).considerSemantic }.followSequences
            g i k).1) ∧
      ∀ (o : Options) (ds ds' : Diagnostics) (checks : List Checker.Check),
        Checker.checkEach g o (Checker.new g ds) checks =
          checks.map fun check => (check.run g o (Checker.new g ds')).1 := by
  constructor
  · intro history i k
    have hrest := resting_asked g history
    have hnew := resting_new g (asked g history).considerSemantic
    exact ⟨(hrest.firstSequences hnew rfl i k).1, (hrest.followSequences hnew rfl i k).1⟩
  · intro o ds ds' checks
    exact checkEach_eq o (resting_new g false) checks (resting_new g false)

end GrammarForge
