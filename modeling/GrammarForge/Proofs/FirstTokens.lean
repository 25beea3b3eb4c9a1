import GrammarForge.Lookahead.FirstKinds
import GrammarForge.Proofs.LinkedTree
import GrammarForge.Proofs.Openings

set_option autoImplicit false

/-!
# First tokens are openings

The kinds that can come first are looked for by a walk down the tree, through the right sides of
productions and behind units that can match nothing. The walk does not enter a production or a
sequence that it is in already. In a grammar without left recursion this never happens, and the walk
finds the openings of one token: a token that begins an opening is reached before any other token is
read. What a lookahead before a code production scans adds nothing, if this is the sequence that the two
stand in, as the walk is in this sequence already.

## Main definitions

* `FirstKinds.Finds` — findings that are exact for a language.
* `Grammar.Searchable` — grammars in which the walk finds its way.
* `Grammar.OnWay` — a node is reached from the productions and sequences that the walk is in.

## Main results

* `Grammar.codeProductionFirst_eq_false` — where all productions have right sides, no code production
  comes first.
* `Grammar.finds_firstKindsWithin` — the walk finds the openings of one token.
* `Grammar.finds_firstKinds` — so do the kinds that can begin an expansion.
-/

namespace GrammarForge

open Computability Relation

/-! ## Openings of one token -/

section

variable {k : Nat}

/-- One token after something else: the other part is empty, if the token does not come from it. -/
lemma singleton_mem_mul {L M : Language Nat} (hM : [] ∉ M) : [k] ∈ L * M ↔ [] ∈ L ∧ [k] ∈ M := by
  rw [Language.mem_mul]
  constructor
  · rintro ⟨u, hu, v, hv, huv⟩
    rcases List.append_eq_singleton_iff.mp huv with ⟨rfl, rfl⟩ | ⟨rfl, rfl⟩
    · exact ⟨hu, hv⟩
    · exact absurd hv hM
  · rintro ⟨hnil, hk⟩
    exact ⟨[], hnil, [k], hk, rfl⟩

/-- A repetition begins with the tokens that one round begins with. -/
lemma Reading.singleton_mem_plus {R : Reading} : [k] ∈ R.plus.begun ↔ [k] ∈ R.begun := by
  show [k] ∈ R.whole∗ * R.begun ↔ _
  rw [singleton_mem_mul R.nil_notMem_begun]
  simp [Language.nil_mem_kstar]

/-- A row begins with the tokens of its first node, and with those of the next ones if the first can
match nothing. -/
lemma Grammar.singleton_mem_openings_cons (g : Grammar) (i : NodeId) (row : List NodeId) :
    [k] ∈ g.openings (i :: row) ↔
      [k] ∈ g.openings [i] ∨ ([] ∈ g.words [i] ∧ [k] ∈ g.openings row) := by
  have hsplit : g.openings (i :: row) = g.openings [i] + g.words [i] * g.openings row :=
    g.openings_append [i] row
  have hne : [] ∉ g.openings row := (g.reading row).nil_notMem_begun
  rw [hsplit, Language.mem_add, singleton_mem_mul hne]

end

/-! ## Findings -/

namespace FirstKinds

/-- **Findings that are exact** for what can be read: the kinds are the openings of one token, and no
condition was met. -/
structure Finds (f : FirstKinds) (R : Reading) : Prop where
  mem_kinds : ∀ k, k ∈ f.kinds ↔ [k] ∈ R.begun
  noScan : f.needsScan = false

variable {f f' : FirstKinds} {R S : Reading}

/-- Nothing is found where only the empty sequence is read. -/
lemma finds_one : ({} : FirstKinds).Finds 1 := ⟨by simp, rfl⟩

/-- Nothing is found where nothing is read. -/
lemma finds_zero : ({} : FirstKinds).Finds 0 := ⟨by simp, rfl⟩

/-- What is found depends on the readings of one token only. -/
lemma Finds.congr (h : f.Finds R) (hRS : ∀ k, [k] ∈ R.begun ↔ [k] ∈ S.begun) : f.Finds S :=
  ⟨fun k => (h.mem_kinds k).trans (hRS k), h.noScan⟩

/-- What is found on two ways is found on either. -/
lemma Finds.append (h : f.Finds R) (h' : f'.Finds S) : (f.append f').Finds (R + S) := by
  constructor
  · intro k
    show k ∈ f.kinds ++ f'.kinds ↔ _
    rw [List.mem_append, h.mem_kinds, h'.mem_kinds, Reading.mem_begun_add]
  · show (f.needsScan || f'.needsScan) = false
    rw [h.noScan, h'.noScan]
    rfl

/-- The findings of several parts, after those of earlier ones. -/
lemma finds_foldl {kindsOf : NodeId → FirstKinds} {readingOf : NodeId → Reading} (ids : List NodeId) :
    ∀ {f : FirstKinds} {R : Reading}, f.Finds R → (∀ i ∈ ids, (kindsOf i).Finds (readingOf i)) →
      ((ids.map kindsOf).foldl FirstKinds.append f).Finds (R + (ids.map readingOf).sum) := by
  induction ids with
  | nil =>
    intro f R hf _
    exact hf.congr fun k => by simp [Reading.mem_begun_add]
  | cons i ids ih =>
    intro f R hf hids
    have hrest := ih (hf.append (hids i List.mem_cons_self)) fun j hj =>
      hids j (List.mem_cons_of_mem i hj)
    refine hrest.congr fun k => ?_
    simp only [List.map_cons, List.sum_cons, Reading.mem_begun_add, or_assoc]

/-- What is found on several ways is found on any of them. -/
lemma finds_join {kindsOf : NodeId → FirstKinds} {readingOf : NodeId → Reading} {ids : List NodeId}
    (h : ∀ i ∈ ids, (kindsOf i).Finds (readingOf i)) :
    (join (ids.map kindsOf)).Finds (ids.map readingOf).sum :=
  (finds_foldl ids finds_zero h).congr fun k => by simp [Reading.mem_begun_add]

end FirstKinds

namespace Grammar

variable {g : Grammar} {i j : NodeId}

/-! ## Grammars without code productions and conditions -/

/-- A leading lookahead is the first unit of a sequence. -/
lemma leadingLookahead?_eq_some {la : NodeId} {spec : LookaheadSpec}
    (h : g.leadingLookahead? i = some (la, spec)) :
    (∃ units, g.kind i = .sequence (la :: units)) ∧ g.kind la = .lookahead spec := by
  unfold leadingLookahead? at h
  split at h
  · next first units hk =>
    split at h
    · next spec' hla =>
      obtain ⟨rfl, rfl⟩ := Prod.mk.inj (Option.some_inj.mp h)
      exact ⟨⟨units, hk⟩, hla⟩
    · cases h
  · cases h

/-- Without conditions no sequence is led by one. -/
lemma hasCondition_eq_false
    (hcond : ∀ {i spec}, g.kind i = .lookahead spec → spec.semantic = none) (i : NodeId) :
    g.hasCondition i = false := by
  unfold hasCondition
  cases hla : g.leadingLookahead? i with
  | none => rfl
  | some leading =>
    obtain ⟨la, spec⟩ := leading
    have hspec : spec.semantic = none := hcond (leadingLookahead?_eq_some hla).2
    simp [hspec]

/-- In a grammar that can be predicted no production is parsed by hand-written code. -/
lemma Predictive.isCodeProduction_eq_false (hg : g.Predictive) (i : NodeId) :
    g.isCodeProduction i = false := by
  unfold isCodeProduction
  cases hof : g.productionOf? i with
  | none => rfl
  | some p =>
    obtain ⟨name, hk⟩ := kind_of_productionOf? hof
    obtain ⟨q, root, hq, hroot⟩ := hg.resolved hk
    obtain rfl := Option.some_inj.mp hq
    simp [hroot]

/-- Units do not lead to hand-written code if none of them does. -/
lemma leadsToCode_eq_false {leads : NodeId → Bool} (h : ∀ i, leads i = false) (units : List NodeId) :
    g.leadsToCode leads units = false := by
  induction units with
  | nil => rfl
  | cons u us ih => simp [leadsToCode, h u, ih]

/-- In a grammar that can be predicted no node leads to hand-written code.

**Proof sketch.** Induction on the depth, by the kind of the node; every nonterminal has a right side.
-/
lemma Predictive.codeFirstWithin_eq_false (hg : g.Predictive) (depth : Nat) :
    ∀ (entered : List Nat) (i : NodeId), g.codeFirstWithin depth entered i = false := by
  induction depth with
  | zero => exact fun _ _ => rfl
  | succ depth ih =>
    intro entered i
    unfold codeFirstWithin
    cases hk : g.kind i with
    | nonterminal name p =>
      obtain ⟨q, root, rfl, hroot⟩ := hg.resolved hk
      simp [hroot, ih]
    | choice alternatives => simp [ih]
    | sequence units => exact leadsToCode_eq_false (ih entered) units
    | oneOrMore b => exact ih entered b
    | zeroOrMore b => exact ih entered b
    | zeroOrOne b => exact ih entered b
    | _ => rfl

/-- **No code production comes first**, where all productions that are referred to have right
sides. -/
lemma codeProductionFirst_eq_false (hg : g.Predictive) (i : NodeId) :
    g.codeProductionFirst i = false :=
  hg.codeFirstWithin_eq_false g.firstTokenDepth [] i

/-! ## The walk -/

/-- **A node is reached on a way** from the right sides of productions and from sequences, before any
token is read. -/
structure OnWay (g : Grammar) (productions : List Nat) (sequences : List NodeId) (i : NodeId) :
    Prop where
  production : ∀ p ∈ productions, ∃ root, g.body p = some root ∧ ReflTransGen g.LeftCorner root i
  sequence : ∀ s ∈ sequences, TransGen g.LeftCorner s i

section

variable {productions : List Nat} {sequences : List NodeId} {name : String} {p : Nat} {root : NodeId}

/-- At the beginning nothing is on the way. -/
lemma onWay_nil (i : NodeId) : g.OnWay [] [] i := ⟨by simp, by simp⟩

/-- What the node can begin with is on the way as well. -/
lemma OnWay.next (h : g.OnWay productions sequences i) (hij : g.LeftCorner i j) :
    g.OnWay productions sequences j where
  production p hp := by
    obtain ⟨root, hroot, hway⟩ := h.production p hp
    exact ⟨root, hroot, hway.tail hij⟩
  sequence s hs := (h.sequence s hs).tail hij

/-- A production is entered on the way. -/
lemma OnWay.enterProduction (h : g.OnWay productions sequences i)
    (hk : g.kind i = .nonterminal name (some p)) (hroot : g.body p = some root) :
    g.OnWay (p :: productions) sequences root where
  production q hq := by
    rcases List.mem_cons.mp hq with rfl | hq
    · exact ⟨root, hroot, .refl⟩
    · exact (h.next (.production hk hroot)).production q hq
  sequence := (h.next (.production hk hroot)).sequence

/-- A sequence is entered on the way. -/
lemma OnWay.enterSequence (h : g.OnWay productions sequences i) (hij : g.LeftCorner i j) :
    g.OnWay productions (i :: sequences) j where
  production := (h.next hij).production
  sequence s hs := by
    rcases List.mem_cons.mp hs with rfl | hs
    · exact .single hij
    · exact (h.next hij).sequence s hs

/-- **The walk never comes back to a production** that it is in. -/
lemma OnWay.production_notMem (h : g.OnWay productions sequences i)
    (hleft : ∀ j, ¬ TransGen g.LeftCorner j j) (hk : g.kind i = .nonterminal name (some p))
    (hroot : g.body p = some root) : p ∉ productions := by
  intro hp
  obtain ⟨root', hroot', hway⟩ := h.production p hp
  obtain rfl : root = root' := Option.some_inj.mp (hroot.symm.trans hroot')
  exact hleft root (.tail' hway (.production hk hroot))

/-- **The walk never comes back to a sequence** that it is in. -/
lemma OnWay.sequence_notMem (h : g.OnWay productions sequences i)
    (hleft : ∀ j, ¬ TransGen g.LeftCorner j j) : i ∉ sequences :=
  fun hi => hleft i (h.sequence i hi)

/-- What a node of a production can begin with belongs to a production. -/
lemma OnTree.leftCorner (h : g.OnTree i) (hij : g.LeftCorner i j) : g.OnTree j := by
  rcases TopDown.leftCorner_part_or_root hij with hpart | ⟨-, p, -, hroot⟩
  · exact h.part hpart
  · exact ⟨p, j, hroot, .refl⟩

/-- A production parsed by hand-written code is a nonterminal without a right side. -/
lemma kind_of_isCodeProduction (h : g.isCodeProduction i = true) :
    ∃ name p, g.kind i = .nonterminal name (some p) ∧ g.body p = none := by
  unfold isCodeProduction at h
  cases hof : g.productionOf? i with
  | none => simp [hof] at h
  | some p =>
    obtain ⟨name, hk⟩ := kind_of_productionOf? hof
    refine ⟨name, p, hk, ?_⟩
    simpa [hof] using h

/-- **The units of a sequence**, up to the first one that matches some token.

**Proof sketch.** Induction on the units. A unit that is not nullable is the last one looked at; behind
a nullable one the others can come first. Before hand-written code the lookahead in front of it is
looked at, whose kinds are known to be none. -/
lemma finds_unitKinds (kindsOf : NodeId → FirstKinds) (units : List NodeId) : ∀ before : Option NodeId,
    (∀ us u vs, units = us ++ u :: vs → [] ∈ g.words us →
      (kindsOf u).Finds (g.reading [u]) ∧ (g.isNullable u = true ↔ [] ∈ g.words [u])) →
    (∀ u la e, u ∈ units → g.isCodeProduction u = true → before = some la ∨ la ∈ units →
      (g.kind la).scanned? = some e → kindsOf e = {}) →
    (g.unitKinds kindsOf before units).Finds (g.reading units) := by
  induction units with
  | nil =>
    intro before _ _
    rw [reading_nil]
    exact FirstKinds.finds_one
  | cons u us ih =>
    intro before hone hscan
    obtain ⟨hkinds, hnullable⟩ := hone [] u us rfl .nil
    have hfirst : (if g.isCodeProduction u then ((g.scannedBefore? before).map kindsOf).getD {}
        else kindsOf u).Finds (g.reading [u]) := by
      split_ifs with hcode
      · obtain ⟨name, p, hk, hbody⟩ := kind_of_isCodeProduction hcode
        have hnothing : ((g.scannedBefore? before).map kindsOf).getD {} = {} := by
          unfold scannedBefore?
          cases before with
          | none => rfl
          | some la =>
            rw [Option.bind_some]
            cases hla : (g.kind la).scanned? with
            | none => rfl
            | some e => exact hscan u la e List.mem_cons_self hcode (Or.inl rfl) hla
        rw [hnothing, reading_unparsed hk hbody]
        exact FirstKinds.finds_zero
      · exact hkinds
    unfold unitKinds
    by_cases hu : g.isNullable u = true
    · have hnil : [] ∈ g.words [u] := hnullable.mp hu
      have hrest : (g.unitKinds kindsOf (some u) us).Finds (g.reading us) := by
        apply ih
        · intro xs v ys hus hxs
          apply hone (u :: xs) v ys
          · rw [hus, List.cons_append]
          · rw [words_cons]
            exact Language.append_mem_mul hnil hxs
        · intro v la e hv hcode hla
          apply hscan v la e (List.mem_cons_of_mem u hv) hcode
          rcases hla with hla | hla
          · exact Or.inr (Option.some_inj.mp hla ▸ List.mem_cons_self)
          · exact Or.inr (List.mem_cons_of_mem u hla)
      rw [if_pos hu]
      refine (hfirst.append hrest).congr fun k => ?_
      simp only [Reading.mem_begun_add, reading_begun, g.singleton_mem_openings_cons u us]
      simp [hnil]
    · have hnil : [] ∉ g.words [u] := fun h => hu (hnullable.mpr h)
      rw [if_neg hu]
      refine hfirst.congr fun k => ?_
      simp only [reading_begun, g.singleton_mem_openings_cons u us]
      simp [hnil]

end

/-- **Grammars in which the walk finds its way**, from the nodes of `ok`: there is no left recursion, no
condition and no wrong nullability, and where a code production stands in a sequence, the lookaheads
there scan this sequence or themselves. -/
structure Searchable (g : Grammar) (ok : NodeId → Prop) : Prop where
  noLeftRecursion : ∀ i, ¬ TransGen g.LeftCorner i i
  next : ∀ {i j}, ok i → g.LeftCorner i j → ok j
  unconditional : ∀ {i spec}, g.kind i = .lookahead spec → spec.semantic = none
  isNullable_iff : ∀ {i}, ok i → (g.isNullable i = true ↔ [] ∈ g.words [i])
  scans : ∀ {i u la e}, ok i → g.Part i u → g.isCodeProduction u = true → g.Part i la →
    (g.kind la).scanned? = some e → e = la ∨ e = i

section

variable {ok : NodeId → Prop}

/-- A lookahead adds no kinds. -/
lemma firstKindsWithin_lookahead {spec : LookaheadSpec} (hk : g.kind i = .lookahead spec) (depth : Nat)
    (productions : List Nat) (sequences : List NodeId) :
    g.firstKindsWithin depth productions sequences i = {} := by
  cases depth with
  | zero => rfl
  | succ depth => rw [firstKindsWithin, hk]

/-- A sequence that the walk is in adds no kinds. -/
lemma firstKindsWithin_entered {units : List NodeId} (hk : g.kind i = .sequence units) (depth : Nat)
    (productions : List Nat) (sequences : List NodeId) :
    g.firstKindsWithin depth productions (i :: sequences) i = {} := by
  cases depth with
  | zero => rfl
  | succ depth => simp [firstKindsWithin, hk]

/-- **A sequence that the walk is not in**: its units are looked at in a row. What lookaheads in it scan
adds nothing, because the walk is already there.

**Proof sketch.** By the units in a row. What a lookahead before hand-written code scans leads back to
the sequence, which the walk is in by then, so that it adds nothing. -/
lemma finds_firstKindsWithin_sequence (hg : g.Searchable ok) (hi : ok i) {units : List NodeId}
    (hk : g.kind i = .sequence units) {productions : List Nat} {sequences : List NodeId}
    (hnew : i ∉ sequences) {depth : Nat} (hunit : ∀ {u}, g.LeftCorner i u →
      (g.firstKindsWithin depth productions (i :: sequences) u).Finds (g.reading [u])) :
    (g.firstKindsWithin (depth + 1) productions sequences i).Finds (g.reading [i]) := by
  have hpart : ∀ u ∈ units, g.Part i u := by
    intro u hu
    rwa [Part, hk]
  have hunits : (g.unitKinds (g.firstKindsWithin depth productions (i :: sequences)) none
      units).Finds (g.reading units) := by
    apply finds_unitKinds
    · intro us u vs hus hnil
      have hcorner : g.LeftCorner i u := .unit (hk.trans (by rw [hus])) hnil
      exact ⟨hunit hcorner, hg.isNullable_iff (hg.next hi hcorner)⟩
    · intro u la e hu hcode hla hscan
      have hla' : la ∈ units := hla.resolve_left (by simp)
      rcases hg.scans hi (hpart u hu) hcode (hpart la hla') hscan with rfl | rfl
      · cases hkind : g.kind e with
        | lookahead spec => exact firstKindsWithin_lookahead hkind _ _ _
        | _ =>
          rw [hkind] at hscan
          cases hscan
      · exact firstKindsWithin_entered hk _ _ _
  have hcontains : sequences.contains i = false := by simpa using hnew
  simp only [firstKindsWithin, hk, hcontains, Bool.false_eq_true, if_false,
    hasCondition_eq_false hg.unconditional]
  rw [reading_sequence hk]
  refine (FirstKinds.finds_zero.append hunits).congr fun k => ?_
  simp [Reading.mem_begun_add]

/-- **The walk finds the openings of one token.**

**Proof sketch.** Induction on the depth, which is more than the rank of the node by what it can begin
with. No production and no sequence that the walk is in is met again, because the node would begin
with itself. -/
theorem finds_firstKindsWithin (hg : g.Searchable ok) {rank : Nat → Nat}
    (hrank : ∀ i j, g.LeftCorner i j → rank j < rank i) (depth : Nat) :
    ∀ {productions : List Nat} {sequences : List NodeId} {i : NodeId}, ok i →
      g.OnWay productions sequences i → rank i < depth →
      (g.firstKindsWithin depth productions sequences i).Finds (g.reading [i]) := by
  induction depth with
  | zero => exact fun _ _ hlt => absurd hlt (Nat.not_lt_zero _)
  | succ depth ih =>
    intro productions sequences i hi hway hlt
    have hdown : ∀ {j}, g.LeftCorner i j → rank j < depth := by
      intro j hij
      have := hrank i j hij
      omega
    unfold firstKindsWithin
    cases hk : g.kind i with
    | token k =>
      refine ⟨fun k' => ?_, rfl⟩
      rw [reading_begun, mem_openings_token hk]
      simp
    | nonterminal name p =>
      cases p with
      | none =>
        rw [reading_unparsed hk rfl]
        exact FirstKinds.finds_zero
      | some p =>
        cases hroot : g.body p with
        | none =>
          simp only [hroot]
          rw [reading_unparsed hk hroot]
          exact FirstKinds.finds_zero
        | some root =>
          have hcorner : g.LeftCorner i root := .production hk hroot
          have hnew : productions.contains p = false := by
            simpa using hway.production_notMem hg.noLeftRecursion hk hroot
          simp only [hroot, hnew, Bool.false_eq_true, if_false]
          rw [reading_nonterminal hk hroot]
          exact ih (hg.next hi hcorner) (hway.enterProduction hk hroot) (hdown hcorner)
    | choice alternatives =>
      rw [reading_choice hk]
      apply FirstKinds.finds_join
      intro a ha
      have hcorner : g.LeftCorner i a := .alternative hk ha
      exact ih (hg.next hi hcorner) (hway.next hcorner) (hdown hcorner)
    | sequence units =>
      have hentered := finds_firstKindsWithin_sequence hg hi hk
        (hway.sequence_notMem hg.noLeftRecursion) fun {u} hcorner =>
          ih (hg.next hi hcorner) (hway.enterSequence hcorner) (hdown hcorner)
      simpa only [firstKindsWithin, hk] using hentered
    | oneOrMore b =>
      have hcorner : g.LeftCorner i b := .body (by rw [hk]; rfl)
      rw [reading_oneOrMore hk]
      exact (ih (hg.next hi hcorner) (hway.next hcorner) (hdown hcorner)).congr fun k =>
        Reading.singleton_mem_plus.symm
    | zeroOrMore b =>
      have hcorner : g.LeftCorner i b := .body (by rw [hk]; rfl)
      rw [reading_zeroOrMore hk]
      refine (ih (hg.next hi hcorner) (hway.next hcorner) (hdown hcorner)).congr fun k => ?_
      simp [Reading.mem_begun_add, Reading.singleton_mem_plus]
    | zeroOrOne b =>
      have hcorner : g.LeftCorner i b := .body (by rw [hk]; rfl)
      rw [reading_zeroOrOne hk]
      refine (ih (hg.next hi hcorner) (hway.next hcorner) (hdown hcorner)).congr fun k => ?_
      simp [Reading.mem_begun_add]
    | lookahead spec =>
      rw [reading_lookahead hk]
      exact FirstKinds.finds_one
    | action code =>
      rw [reading_action hk]
      exact FirstKinds.finds_one

/-- The walk for first tokens is deep enough. -/
lemma lt_firstTokenDepth {n : Nat} (h : n ≤ g.nodes.size) : n < g.firstTokenDepth := by
  have hrow : g.nodes.size + 1 ≤ g.firstTokenDepth := Nat.le_mul_of_pos_left _ (by omega)
  omega

/-- **The kinds that can begin an expansion** are its openings of one token. -/
theorem finds_firstKinds (hg : g.Searchable ok) (hi : ok i) :
    (g.firstKinds i).Finds (g.reading [i]) := by
  obtain ⟨rank, hle, hrank⟩ := exists_corner_rank hg.noLeftRecursion
  have hfound := finds_firstKindsWithin hg hrank _ hi (onWay_nil i) (lt_firstTokenDepth (hle i))
  refine ⟨fun k => ?_, hfound.noScan⟩
  show k ∈ sortedSet compare _ ↔ _
  rw [mem_sortedSet]
  exact hfound.mem_kinds k

end

end Grammar

end GrammarForge
