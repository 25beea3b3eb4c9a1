import GrammarForge.Proofs.FirstWalk
import GrammarForge.Proofs.Onsets
import GrammarForge.Proofs.ParentLinks

set_option autoImplicit false

/-!
# FIRST and the first kinds

What comes first in an expansion is found out three times: by FIRST, which sends an empty match through
the expansion and sets it aside after one token or before a code production; by the walk for first kinds;
and by the walk for code productions. The three go down in their own ways, but all of them find the onsets
of the expansion, if there is no left recursion and nothing is written before a sequence.

## Main definitions

* `Blank` — matches on which nothing has been read.
* `Probes` — a walk sets the onsets of something aside, and lets matches pass if nothing need be read.

## Main results

* `probes_firstStep` — a step of FIRST probes for onsets, if what it goes on to does.
* `probes_firstWithin` — FIRST probes an expansion for its onsets.
* `Grammar.Unadorned.searchable` — after linking the walk for first kinds finds its way.
* `Grammar.Unadorned.firstKinds_iff_limited` — FIRST, the first kinds and the search for code
  productions agree.
-/

namespace GrammarForge

open Computability Relation Engine

/-! ## Probing -/

/-- Matches on which nothing has been read. -/
def Blank (ms : List PartialMatch) : Prop := ∀ m ∈ ms, m.tokens = []

/-- **A walk probes for onsets**, with one token as the limit: it sets aside the sequences of which
`onset` holds, and lets matches pass on which nothing has been read, some if `passable` and else none. -/
def Probes (active : List (Nat × List TokenSeq)) (x : Walk (List PartialMatch)) (passable : Prop)
    (onset : TokenSeq → Prop) : Prop :=
  ∀ e : Engine, e.limit = 1 → e.active = active →
    ∃ out aside, x e = some (out, e.withAside aside) ∧ Blank out ∧ (out ≠ [] ↔ passable) ∧
      ∀ t, t ∈ aside ↔ onset t

section

variable {active : List (Nat × List TokenSeq)} {x : Walk (List PartialMatch)} {N N' : Prop}
  {S T : TokenSeq → Prop} {ms ms' : List PartialMatch}

/-- No matches are blank. -/
lemma blank_nil : Blank [] := fun m hm => by cases hm

/-- Blank matches put together are blank. -/
lemma Blank.append (h : Blank ms) (h' : Blank ms') : Blank (ms ++ ms') :=
  fun m hm => (List.mem_append.mp hm).elim (h m) (h' m)

/-- Something is left if it is left on one of both sides. -/
lemma append_ne_nil_iff : ms ++ ms' ≠ [] ↔ ms ≠ [] ∨ ms' ≠ [] := by
  rw [Ne, List.append_eq_nil_iff, not_and_or]

/-- The tokens of blank matches are the empty sequence. -/
lemma Blank.mem_tokensOf (h : Blank ms) (hne : ms ≠ []) {t : TokenSeq} : t ∈ tokensOf ms ↔ t = [] := by
  constructor
  · intro ht
    obtain ⟨m, hm, rfl⟩ := List.mem_map.mp ht
    exact h m hm
  · rintro rfl
    obtain ⟨m, hm⟩ := List.exists_mem_of_ne_nil ms hne
    exact List.mem_map.mpr ⟨m, hm, h m hm⟩

namespace Probes

/-- What is probed is the same under equivalent conditions. -/
lemma congr (h : Probes active x N S) (hN : N ↔ N') (hS : ∀ t, S t ↔ T t) : Probes active x N' T := by
  intro e hlimit hactive
  obtain ⟨out, aside, hrun, hblank, hpass, haside⟩ := h e hlimit hactive
  exact ⟨out, aside, hrun, hblank, hpass.trans hN, fun t => (haside t).trans (hS t)⟩

/-- Matches that are let pass at once. -/
lemma pure (hms : Blank ms) (hN : ms ≠ [] ↔ N) : Probes active (pure ms) N fun _ => False := by
  intro e _ _
  refine ⟨ms, [], ?_, hms, hN, fun t => ?_⟩
  · rw [withAside_nil]
    rfl
  · exact iff_of_false List.not_mem_nil id

/-- **One walk after another**, with what has passed the first. -/
lemma bind {f : List PartialMatch → Walk (List PartialMatch)} (hx : Probes active x N S)
    (hf : ∀ out, Blank out → (out ≠ [] ↔ N) →
      ∃ S', Probes active (f out) N' S' ∧ ∀ t, S t ∨ S' t ↔ T t) :
    Probes active (x >>= f) N' T := by
  intro e hlimit hactive
  obtain ⟨out, aside, hrun, hblank, hpass, haside⟩ := hx e hlimit hactive
  obtain ⟨S', hprobes, hall⟩ := hf out hblank hpass
  obtain ⟨out', aside', hrun', hblank', hpass', haside'⟩ := hprobes (e.withAside aside) hlimit hactive
  refine ⟨out', aside ++ aside', ?_, hblank', hpass', fun t => ?_⟩
  · rw [bind_eq hrun, hrun', withAside_withAside]
  · rw [List.mem_append, haside, haside', hall]

/-- What passes is put behind other matches. -/
lemma behind (hx : Probes active x N S) (hms : Blank ms) (hne : ms ≠ []) :
    Probes active (x >>= fun more => Pure.pure (ms ++ more)) True S := by
  refine hx.bind fun out hout _ => ⟨_, pure (hms.append hout) ?_, fun t => or_iff_left id⟩
  exact iff_of_true (append_ne_nil_iff.mpr (Or.inl hne)) trivial

/-- **Several nodes with the same matches.** -/
lemma forEach {visit : NodeId → Walk (List PartialMatch)} {passable : NodeId → Prop}
    {onset : NodeId → TokenSeq → Prop} (ids : List NodeId)
    (h : ∀ i ∈ ids, Probes active (visit i) (passable i) (onset i)) :
    Probes active (forEach visit ids) (∃ i ∈ ids, passable i) fun t => ∃ i ∈ ids, onset i t := by
  induction ids with
  | nil =>
    have hnone : Probes active (Pure.pure []) False fun _ => False := pure blank_nil (by simp)
    exact hnone.congr (by simp) (by simp)
  | cons i ids ih =>
    have hrest := ih fun j hj => h j (List.mem_cons_of_mem i hj)
    refine (h i List.mem_cons_self).bind fun out hout hpass => ⟨_, hrest.bind fun out' hout' hpass' =>
      ⟨_, pure (hout.append hout') ?_, fun t => or_iff_left id⟩, fun t => ?_⟩
    · rw [append_ne_nil_iff, hpass, hpass', List.exists_mem_cons_iff]
    · rw [List.exists_mem_cons_iff]

/-- **Repeated passes through a body** find no more than the first one.

**Proof sketch.** Induction on the passes. The matches that come out of a pass are blank again, and the
next pass finds at most what the first one has found; what it sets aside is no news. -/
lemma repeated {visit : List PartialMatch → Walk (List PartialMatch)}
    (hvisit : ∀ ms, Blank ms → ms ≠ [] → Probes active (visit ms) N S) (n : Nat) :
    ∀ {ms : List PartialMatch}, Blank ms → ms ≠ [] → Probes active (repeated visit (n + 1) ms) N S := by
  -- later passes find at most what the first one finds
  have hstep : ∀ {n}, (∀ ms, Blank ms → ms ≠ [] →
      ∃ N' S', Probes active (Engine.repeated visit n ms) N' S' ∧ ∀ t, S' t → S t) →
      ∀ {ms}, Blank ms → ms ≠ [] → Probes active (Engine.repeated visit (n + 1) ms) N S := by
    intro n hlater ms hms hne
    refine (hvisit ms hms hne).bind fun out hout hpass => ?_
    cases out with
    | nil => exact ⟨_, pure blank_nil hpass, fun t => or_iff_left id⟩
    | cons m out =>
      obtain ⟨N', S', hprobes, hle⟩ := hlater (m :: out) hout (List.cons_ne_nil m out)
      refine ⟨S', hprobes.bind fun later hblank _ => ⟨_, pure (hout.append hblank) ?_, fun t => ?_⟩,
        fun t => or_iff_left_of_imp (hle t)⟩
      · exact iff_of_true (List.cons_ne_nil _ _) (hpass.mp (List.cons_ne_nil m out))
      · exact or_iff_left id
  induction n with
  | zero => exact hstep fun ms _ _ => ⟨False, _, pure blank_nil (by simp), fun t => False.elim⟩
  | succ n ih => exact hstep fun ms hms hne => ⟨N, S, ih hms hne, fun t => id⟩

/-- With one token as the limit there are two passes. -/
lemma passes {f : Nat → Walk (List PartialMatch)} (h : Probes active (f 2) N S) :
    Probes active (passes >>= f) N S := by
  intro e hlimit hactive
  have hpasses : Engine.passes e = some (2, e) := by
    show some (e.limit + 1, e) = _
    rw [hlimit]
  rw [bind_eq hpasses]
  exact h e hlimit hactive

/-- **Expanding a production** that is not being expanded. -/
lemma expanding {p : Nat}
    (hx : Probes ((p, sortedSet compare (tokensOf ms)) :: active) x N S)
    (hnew : p ∉ active.map Prod.fst) : Probes active (expanding p ms x) N S := by
  intro e hlimit hactive
  obtain ⟨out, aside, hrun, hblank, hpass, haside⟩ :=
    hx { e with active := (p, sortedSet compare (tokensOf ms)) :: e.active } hlimit
      (congrArg ((p, sortedSet compare (tokensOf ms)) :: ·) hactive)
  refine ⟨out, aside, ?_, hblank, hpass, haside⟩
  have hcontains : ¬ e.active.contains (p, sortedSet compare (tokensOf ms)) := by
    rw [hactive, List.contains_iff_mem]
    exact fun hmem => hnew (List.mem_map_of_mem hmem)
  rw [expanding_eq, if_neg hcontains, hrun]
  rfl

/-- Adding a token: with one token as the limit nothing passes.

**Proof sketch.** A blank match becomes the one token, which reaches the limit of one token and is set
aside. -/
lemma extendAll (hms : Blank ms) (hne : ms ≠ []) (k : Nat) :
    Probes active (extendAll k ms) False fun t => t = [k] := by
  intro e hlimit _
  have hlonger : ∀ m ∈ ms.map (·.extend k), m.tokens = [k] := by
    intro m' hm'
    obtain ⟨m, hm, rfl⟩ := List.mem_map.mp hm'
    rw [PartialMatch.extend, hms m hm, List.nil_append]
  have hlong : ∀ m ∈ ms.map (·.extend k), ¬ m.tokens.length < e.limit := by
    intro m hm
    rw [hlonger m hm, hlimit]
    exact lt_irrefl 1
  rw [extendAll_eq, List.filter_eq_nil_iff.mpr (by simpa using hlong),
    List.filter_eq_self.mpr (by simpa using hlong)]
  refine ⟨[], _, rfl, blank_nil, by simp, fun t => ⟨fun ht => ?_, ?_⟩⟩
  · obtain ⟨m, hm, rfl⟩ := List.mem_map.mp ht
    exact hlonger m hm
  · rintro rfl
    obtain ⟨m, hm⟩ := List.exists_mem_of_ne_nil ms hne
    have hm' := List.mem_map_of_mem (f := (·.extend k)) hm
    exact List.mem_map.mpr ⟨_, hm', hlonger _ hm'⟩

/-- Matches are set aside before a code production. -/
lemma setAside (hms : Blank ms) (hne : ms ≠ []) :
    Probes active (do setAside (tokensOf ms); return []) False fun t => t = [] := by
  intro e _ _
  exact ⟨[], tokensOf ms, rfl, blank_nil, by simp, fun t => hms.mem_tokensOf hne⟩

/-- **Several nodes in a row**: each is sent what has passed those before.

**Proof sketch.** Induction on the units. A unit after the first one is sent something only if the units
before it derive the empty sequence, and then its onsets are onsets of the row. -/
lemma through {g : Grammar} {visit : List PartialMatch → NodeId → Walk (List PartialMatch)}
    (units : List NodeId) : ∀ {ms : List PartialMatch}, Blank ms → ms ≠ [] →
      (∀ us u vs, units = us ++ u :: vs → [] ∈ g.words us → ∀ ms, Blank ms → ms ≠ [] →
        Probes active (visit ms u) ([] ∈ g.words [u]) fun t => t ∈ g.onsets [u]) →
      Probes active (through visit ms units) ([] ∈ g.words units) fun t => t ∈ g.onsets units := by
  induction units with
  | nil =>
    intro ms hms hne _
    exact (pure hms (iff_of_true hne .nil)).congr Iff.rfl fun t =>
      iff_of_false id Grammar.notMem_onsets_nil
  | cons u us ih =>
    intro ms hms hne hone
    refine (hone [] u us rfl .nil ms hms hne).bind fun out hout hpass => ?_
    have hwords : [] ∈ g.words (u :: us) ↔ [] ∈ g.words [u] ∧ [] ∈ g.words us := by
      rw [Grammar.nil_mem_words_iff, Grammar.nil_mem_words_iff, Grammar.nil_mem_words_iff]
      simp
    cases out with
    | nil =>
      have hnil : [] ∉ g.words [u] := fun h => hpass.mpr h rfl
      refine ⟨_, pure blank_nil ?_, fun t => ?_⟩
      · simp [hwords, hnil]
      · rw [Grammar.mem_onsets_cons u us]
        simp [hnil]
    | cons m out =>
      have hnil : [] ∈ g.words [u] := hpass.mp (List.cons_ne_nil m out)
      have hrest := ih hout (List.cons_ne_nil m out) fun xs v ys hus hxs =>
        hone (u :: xs) v ys (by rw [hus, List.cons_append]) (by
          rw [Grammar.words_cons]
          exact Language.append_mem_mul hnil hxs)
      refine ⟨_, hrest.congr ?_ fun t => Iff.rfl, fun t => ?_⟩
      · simp [hwords, hnil]
      · rw [Grammar.mem_onsets_cons u us]
        simp [hnil]

end Probes

end

/-! ## FIRST -/

section

variable {g : Grammar} {ok : NodeId → Prop} {active : List (Nat × List TokenSeq)}
  {ms : List PartialMatch} {i : NodeId}

/-- **One step of FIRST probes for onsets**, if the visits of what the node can begin with do, and so does
the expansion of the production that it names.

**Proof sketch.** By the kind of the node. What the node can begin with is visited with blank matches,
and the onsets of the node are those of what has been visited. -/
lemma probes_firstStep (hg : g.Searchable ok) {pred : Unit → Countdown} (hms : Blank ms)
    (hne : ms ≠ []) (hvisit : ∀ {j}, g.LeftCorner i j → ∀ ms, Blank ms → ms ≠ [] →
      Probes active (firstWithin g (pred ()) ms j) ([] ∈ g.words [j]) fun t => t ∈ g.onsets [j])
    (hexpand : ∀ {name p root}, g.kind i = .nonterminal name (some p) → g.body p = some root →
      Probes active (expanding p ms (firstWithin g (pred ()) ms root)) ([] ∈ g.words [root])
        fun t => t ∈ g.onsets [root]) :
    Probes active (firstWithin g (.succ pred) ms i) ([] ∈ g.words [i]) fun t => t ∈ g.onsets [i] := by
  cases hk : g.kind i with
  | token k =>
    simp only [firstWithin, hk]
    refine (Probes.extendAll hms hne k).congr ?_ fun t => (Grammar.mem_onsets_token hk).symm
    simp [Grammar.mem_words_token hk]
  | nonterminal name p =>
    cases p with
    | none =>
      simp only [firstWithin, hk]
      refine (Probes.pure blank_nil ?_).congr Iff.rfl fun t => ?_
      · exact iff_of_false (fun hne => hne rfl) (Grammar.notMem_words_unparsed hk rfl [])
      · simp [Grammar.mem_onsets_unparsed hk rfl]
    | some p =>
      cases hroot : g.body p with
      | none =>
        simp only [firstWithin, hk, hroot]
        refine (Probes.setAside hms hne).congr ?_ fun t => ?_
        · exact iff_of_false id (Grammar.notMem_words_unparsed hk hroot [])
        · simp [Grammar.mem_onsets_unparsed hk hroot]
      | some root =>
        simp only [firstWithin, hk, hroot]
        refine (hexpand hk hroot).congr ?_ fun t => (Grammar.mem_onsets_nonterminal hk hroot).symm
        rw [Grammar.words_nonterminal hk hroot]
  | choice alternatives =>
    simp only [firstWithin, hk]
    refine (Probes.forEach alternatives fun a ha => hvisit (.alternative hk ha) ms hms hne).congr ?_
      fun t => (Grammar.mem_onsets_choice hk).symm
    exact (Grammar.mem_words_choice hk).symm
  | sequence units =>
    simp only [firstWithin, hk]
    refine (Probes.through units hms hne fun us u vs hus hnil => ?_).congr ?_
      fun t => (Grammar.mem_onsets_sequence hk).symm
    · exact hvisit (.unit (hk.trans (by rw [hus])) hnil)
    · rw [Grammar.words_sequence hk]
  | oneOrMore b =>
    have hbody : (g.kind i).loopBody? = some b := by rw [hk]; rfl
    simp only [firstWithin, hk]
    exact (Probes.passes (Probes.repeated (hvisit (.body hbody)) 1 hms hne)).congr
      (Grammar.nil_mem_words_oneOrMore hk).symm fun t => (Grammar.mem_onsets_body hbody).symm
  | zeroOrMore b =>
    have hbody : (g.kind i).loopBody? = some b := by rw [hk]; rfl
    simp only [firstWithin, hk]
    refine (Probes.passes ((Probes.repeated (hvisit (.body hbody)) 1 hms hne).behind hms hne)).congr ?_
      fun t => (Grammar.mem_onsets_body hbody).symm
    rw [Grammar.words_zeroOrMore hk]
    exact iff_of_true trivial (Language.nil_mem_kstar _)
  | zeroOrOne b =>
    have hbody : (g.kind i).loopBody? = some b := by rw [hk]; rfl
    simp only [firstWithin, hk]
    refine ((hvisit (.body hbody) ms hms hne).behind hms hne).congr ?_
      fun t => (Grammar.mem_onsets_body hbody).symm
    rw [Grammar.words_zeroOrOne hk]
    exact iff_of_true trivial (Or.inl Language.nil_mem_one)
  | lookahead spec =>
    simp only [firstWithin, hk]
    refine Probes.congr ?_ (N := ms ≠ []) ?_ fun t => iff_of_false id (Grammar.notMem_onsets_lookahead hk)
    · intro e hlimit hactive
      have hget : (get : Walk Engine) e = some (e, e) := rfl
      rw [bind_eq hget, hg.unconditional hk, Option.isSome_none, Bool.and_false]
      exact Probes.pure hms Iff.rfl e hlimit hactive
    · rw [Grammar.words_lookahead hk]
      exact iff_of_true hne Language.nil_mem_one
  | action text =>
    simp only [firstWithin, hk]
    refine (Probes.pure hms ?_).congr Iff.rfl fun t => iff_of_false id (Grammar.notMem_onsets_action hk)
    rw [Grammar.words_action hk]
    exact iff_of_true hne Language.nil_mem_one

/-- **FIRST probes an expansion for its onsets.**

**Proof sketch.** Induction on the depth, which is more than the rank of the node by what it can begin
with. What goes on is blank, so that every node met can come first; and no production is being expanded
already, because its right side would begin with itself. -/
theorem probes_firstWithin (hg : g.Searchable ok) {rank : Nat → Nat}
    (hrank : ∀ i j, g.LeftCorner i j → rank j < rank i) (depth : Countdown) :
    ∀ {active : List (Nat × List TokenSeq)} {ms : List PartialMatch} {i : NodeId}, Blank ms → ms ≠ [] →
      g.OnWay (active.map Prod.fst) [] i → rank i < depth.steps →
      Probes active (firstWithin g depth ms i) ([] ∈ g.words [i]) fun t => t ∈ g.onsets [i] := by
  induction depth with
  | zero => exact fun _ _ _ hlt => absurd hlt (Nat.not_lt_zero _)
  | succ pred ih =>
    intro active ms i hms hne hway hlt
    have hdown : ∀ {j}, g.LeftCorner i j → rank j < (pred ()).steps := by
      intro j hij
      have := hrank i j hij
      rw [Countdown.steps] at hlt
      omega
    refine probes_firstStep hg hms hne (fun hij ms hms hne => ?_) fun hk hroot => ?_
    · exact ih () hms hne (hway.next hij) (hdown hij)
    · have hnew := hway.production_notMem hg.noLeftRecursion hk hroot
      refine Probes.expanding (ih () hms hne ?_ (hdown (.production hk hroot))) hnew
      exact hway.enterProduction hk hroot

/-- **FIRST at one token**, without a bound on the depth, sets the onsets of an expansion aside.

**Proof sketch.** Left corners have ranks, since there is no left recursion, and the depth of FIRST is
enough for them. -/
lemma probes_first (hg : g.Searchable ok) (i : NodeId) :
    Probes [] (first g start i) ([] ∈ g.words [i]) fun t => t ∈ g.onsets [i] := by
  obtain ⟨rank, hle, hrank⟩ := Grammar.exists_corner_rank hg.noLeftRecursion
  have hblank : Blank start := by
    intro m hm
    rw [List.mem_singleton.mp hm]
  intro e hlimit hactive
  have hdepth : rank i < (firstDepth g e.limit start.length).steps := by
    have hbudget : firstBudget rank g.nodes.size e.limit start i ≤ _ :=
      firstBudget_le_firstDepth hle start.length start i
    rw [firstBudget] at hbudget
    omega
  exact probes_firstWithin hg hrank _ hblank (List.cons_ne_nil _ _) (Grammar.onWay_nil i) hdepth e
    hlimit hactive

end

/-! ## After linking -/

namespace Grammar

/-- **Grammars in which nothing is written before a sequence**, and that are linked for the first time.
They are trees and have all nodes that they mention; no node has a parent and no production a mark yet;
and lookaheads are those that sequences have of themselves, without conditions and without expansions of
their own. After linking no node can begin with itself. Productions may be parsed by hand-written code. -/
structure Unadorned (g : Grammar) (ds : Diagnostics) : Prop where
  shape : g.mentionedIds.Nodup
  ids : g.unknownId? = none
  parents : ∀ n ∈ g.nodes, n.parent = .none
  marks : ∀ p ∈ g.productions, p.nullable = false
  lookaheads : ∀ {i spec}, g.kind i = .lookahead spec →
    spec.explicit = false ∧ spec.semantic = none ∧ spec.expansion = none
  noLeftRecursion : ∀ i, ¬ TransGen (g.link ds).1.LeftCorner i i

section

variable {g : Grammar} {ds : Diagnostics} {i la e : NodeId}

/-- **What a lookahead scans by default** is the node that it is a part of, or the lookahead itself. -/
lemma Fresh.defaultExpansion_cases (hg : g.Fresh) (hpart : g.Part i la) :
    defaultExpansion (g.linkNamed.node la) la = la ∨ defaultExpansion (g.linkNamed.node la) la = i := by
  rw [defaultExpansion]
  by_cases hla : la ∈ g.entered
  · rcases hg.place hla with ⟨p, -, hparent⟩ | ⟨q, -, hparent, hget⟩
    · rw [hparent]
      exact Or.inl rfl
    · rw [hparent]
      have hbelow : Below g.hanging i la := mem_hanging.mpr (Or.inl hpart)
      exact Or.inr (hg.forest.below_unique (List.mem_of_getElem? hget) hbelow)
  · rw [hg.parent_of_notMem hla]
    exact Or.inl rfl

namespace Unadorned

/-- No production is marked before linking. -/
lemma nullable (hg : g.Unadorned ds) (p : Nat) : (g.production p).nullable = false := by
  rw [production, Array.getD_eq_getD_getElem?]
  cases hp : g.productions[p]? with
  | none => rfl
  | some production => exact hg.marks production (Array.mem_of_getElem? hp)

/-- **After linking the walk for first kinds finds its way.**

**Proof sketch.** A nonterminal is nullable just if it derives the empty sequence, since linking has
found this for all nodes; the other conditions are among those of the grammar. -/
lemma searchable (hg : g.Unadorned ds) : (g.link ds).1.Searchable fun _ => True where
  noLeftRecursion := hg.noLeftRecursion
  next _ _ := trivial
  unconditional hk := by
    obtain ⟨spec₀, hk₀, rfl⟩ := lookahead_link hk
    exact (hg.lookaheads hk₀).2.1
  isNullable_iff _ := by
    have hmarks : ∀ p, (g.production p).nullable = true →
        ∃ root, g.body p = some root ∧ [] ∈ (g.link ds).1.words [root] := by
      intro p hp
      rw [hg.nullable p] at hp
      cases hp
    obtain ⟨hsound, hcomplete⟩ := marks_link hmarks
    exact isNullable_iff_of_marks hsound hcomplete hg.noLeftRecursion _
  scans {i u la e} _ _ _ hpart hscan := by
    have hfresh := fresh_withNames hg.shape hg.ids hg.parents ds
    cases hk : (g.link ds).1.kind la with
    | lookahead spec =>
      obtain ⟨spec₀, hk₀, rfl⟩ := lookahead_link hk
      rw [hk, NodeKind.scanned?, (hg.lookaheads hk₀).2.2, Option.getD_none] at hscan
      rw [← Option.some_inj.mp hscan, link_eq_linkNamed]
      apply hfresh.defaultExpansion_cases
      rwa [link_eq_linkNamed, Part, parts_linkNamed] at hpart
    | _ =>
      rw [hk] at hscan
      cases hscan

/-- After linking lookaheads are still not explicit. -/
lemma explicit_eq_false (hg : g.Unadorned ds) {spec : LookaheadSpec}
    (hk : (g.link ds).1.kind i = .lookahead spec) : spec.explicit = false := by
  obtain ⟨spec₀, hk₀, rfl⟩ := lookahead_link hk
  exact (hg.lookaheads hk₀).1

/-- **FIRST and the first kinds agree.** Let FIRST send one empty match through a node of a linked grammar
in which nothing is written before a sequence, with one token as the limit. It comes to an end; the kinds
that the walk for first kinds finds are the tokens that FIRST has set aside, and there is no need to scan;
and the node can begin with a code production iff FIRST has set the empty match aside.

**Proof sketch.** Both sides are compared with the onsets of the node: FIRST at one token sets just
these aside, the first kinds are the onsets of one token, and hand-written code is the empty onset. -/
theorem firstKinds_iff_limited (hg : g.Unadorned ds) (i : NodeId) {e : Engine} (hlimit : e.limit = 1)
    (hactive : e.active = []) (hempty : e.limited = #[]) :
    ∃ out e', first (g.link ds).1 start i e = some (out, e') ∧
      (∀ k, k ∈ ((g.link ds).1.firstKinds i).kinds ↔ [k] ∈ e'.limited) ∧
      ((g.link ds).1.firstKinds i).needsScan = false ∧
      ((g.link ds).1.codeProductionFirst i = true ↔ [] ∈ e'.limited) := by
  have hsearch := hg.searchable
  obtain ⟨out, aside, hrun, -, -, haside⟩ := probes_first hsearch i e hlimit hactive
  have hlimited : ∀ t, t ∈ (e.withAside aside).limited ↔ t ∈ (g.link ds).1.onsets [i] := by
    intro t
    refine Iff.trans ?_ (haside t)
    simp [withAside, hempty]
  have hfinds := finds_firstKinds hsearch (i := i) trivial
  refine ⟨out, e.withAside aside, hrun, fun k => ?_, hfinds.noScan, ?_⟩
  · rw [hlimited, singleton_mem_onsets]
    exact hfinds.mem_kinds k
  · rw [hlimited]
    exact codeProductionFirst_iff hsearch hg.explicit_eq_false trivial

end Unadorned

end

/-- Statements that end with a block, which is parsed by hand-written code: with a sign or without one, or
after another statement. -/
def embeddedBlocks : Grammar :=
  let (_, g) := empty.addCodeProduction "Block"
  let (minus, g) := g.literal "-"
  let (sign, g) := g.zeroOrOne minus
  let (_, g) := g.addProduction "Sign" sign
  let (sign, g) := g.nonterminal "Sign"
  let (block, g) := g.nonterminal "Block"
  let (signed, g) := g.sequence [sign, block]
  let (x, g) := g.literal "x"
  let (inner, g) := g.nonterminal "Statement"
  let (nested, g) := g.sequence [x, inner]
  let (block, g) := g.nonterminal "Block"
  let (bare, g) := g.sequence [block]
  let (statement, g) := g.choice [signed, nested, bare]
  (g.addProduction "Statement" statement).2

/-- The ranks of the nodes of `embeddedBlocks` by what they can begin with. -/
def blockRanks (i : NodeId) : Nat := [0, 1, 2, 0, 0, 3, 0, 5, 0, 1, 0, 0, 1, 4].getD i 0

/-- Embedded blocks meet all conditions.

**Proof sketch.** Each condition is checked on the nodes of the grammar; a lookahead is one of its
nodes. -/
lemma unadorned_embeddedBlocks : embeddedBlocks.Unadorned {} where
  shape := by decide +kernel
  ids := by decide +kernel
  parents := by decide +kernel
  marks := by decide +kernel
  lookaheads {i spec} hk := by
    have hall : ∀ i < embeddedBlocks.nodes.size, ∀ spec ∈ (embeddedBlocks.kind i).lookahead?,
        spec.explicit = false ∧ spec.semantic = none ∧ spec.expansion = none := by decide +kernel
    refine hall i (lt_size_of_kind (by simp [hk])) spec ?_
    rw [hk]
    rfl
  noLeftRecursion := by
    have hdown : ∀ i < (embeddedBlocks.link {}).1.nodes.size,
        ∀ j ∈ (embeddedBlocks.link {}).1.corners i, blockRanks j < blockRanks i := by decide +kernel
    exact noLeftRecursion_of_corners hdown

/-- Blocks embedded in a rule: the walk for first kinds finds just what FIRST finds up to one token. -/
theorem firstKinds_iff_limited_embeddedBlocks :
    embeddedBlocks.Unadorned {} ∧ (Engine.new (embeddedBlocks.link {}).1).limit = 1 ∧
      (Engine.new (embeddedBlocks.link {}).1).active = [] ∧
      (Engine.new (embeddedBlocks.link {}).1).limited = #[] ∧
      ∃ out e', first (embeddedBlocks.link {}).1 start 13 (Engine.new (embeddedBlocks.link {}).1) =
          some (out, e') ∧
        (∀ k, k ∈ ((embeddedBlocks.link {}).1.firstKinds 13).kinds ↔ [k] ∈ e'.limited) ∧
        ((embeddedBlocks.link {}).1.firstKinds 13).needsScan = false ∧
        ((embeddedBlocks.link {}).1.codeProductionFirst 13 = true ↔ [] ∈ e'.limited) :=
  ⟨unadorned_embeddedBlocks, rfl, rfl, rfl,
    unadorned_embeddedBlocks.firstKinds_iff_limited 13 rfl rfl rfl⟩

/-- A statement can begin with the block: the sign before it is optional. -/
example : (embeddedBlocks.link {}).1.codeProductionFirst 13 = true := by decide +kernel

end Grammar

end GrammarForge
