import GrammarForge.Grammar.Builder
import GrammarForge.Proofs.Descent
import GrammarForge.Proofs.Dispatch
import GrammarForge.Proofs.ProductionNames

set_option autoImplicit false

/-!
# Linking again

When a grammar is linked for the second time, all names have been looked up, all nodes have their
places, all lookaheads something to scan and all productions their marks. So almost nothing changes.
But linking goes on into what a lookahead scans only if it has no parent yet, and now it has one. The
references found there are forgotten.

## Main definitions

* `Grammar.NamesFound` — all names have been looked up.
* `Grammar.forgetScanned` — a grammar without the references inside of what lookaheads scan.

## Main results

* `Grammar.namesFound_link` — all names have been looked up after linking.
* `Grammar.setParents_again` — setting the parents again.
* `Grammar.link_again` — linking again.
-/

namespace GrammarForge

open Relation

/-- Two arrays are equal if they have the same elements everywhere. -/
lemma ext_getD {α : Type} [Inhabited α] {xs ys : Array α} (hsize : xs.size = ys.size)
    (h : ∀ i < xs.size, xs.getD i default = ys.getD i default) : xs = ys := by
  refine Array.ext hsize fun i hi hi' => ?_
  have hat := h i hi
  rwa [Array.getD_eq_getD_getElem?, Array.getD_eq_getD_getElem?, Array.getElem?_eq_getElem hi,
    Array.getElem?_eq_getElem hi'] at hat

/-- The elements of an array, read by their places. -/
lemma toList_eq_map_range {α : Type} [Inhabited α] (xs : Array α) :
    xs.toList = (List.range xs.size).map fun i => xs.getD i default := by
  refine List.ext_getElem (by simp) fun i hi hi' => ?_
  have hlt : i < xs.size := by simpa using hi
  rw [List.getElem_map, List.getElem_range, Array.getElem_toList, Array.getD_eq_getD_getElem?,
    Array.getElem?_eq_getElem hlt, Option.getD_some]

/-- A change that keeps the element at a place keeps the array. -/
lemma modify_eq_self {α : Type} [Inhabited α] {xs : Array α} {i : Nat} {change : α → α}
    (h : i < xs.size → change (xs.getD i default) = xs.getD i default) : xs.modify i change = xs := by
  refine ext_getD Array.size_modify fun j _ => ?_
  rw [getD_modify]
  split_ifs with hji
  · rw [hji.1, h hji.2]
  · rfl

/-! ## Names -/

namespace Regex

mutual

/-- Resolving an expression again changes nothing.

**Proof sketch.** Induction on the expression; the target of a reference is taken from the same table
again. -/
lemma resolve_resolve (slots : OrderedMap String Nat) : ∀ r : Regex,
    (r.resolve slots).resolve slots = r.resolve slots
  | .reference label target => by
    rw [resolve, resolve]
    cases slots.get? label <;> rfl
  | .choice rs => congrArg choice (resolveAll_resolveAll slots rs)
  | .sequence rs => congrArg sequence (resolveAll_resolveAll slots rs)
  | .oneOrMore r => congrArg oneOrMore (resolve_resolve slots r)
  | .zeroOrMore r => congrArg zeroOrMore (resolve_resolve slots r)
  | .zeroOrOne r => congrArg zeroOrOne (resolve_resolve slots r)
  | .repetition r min max => congrArg (repetition · min max) (resolve_resolve slots r)
  | .chars _ => rfl
  | .literal _ => rfl
  | .endOfInput => rfl

/-- Resolving a list of expressions twice is resolving it once. -/
lemma resolveAll_resolveAll (slots : OrderedMap String Nat) : ∀ rs : List Regex,
    resolveAll slots (resolveAll slots rs) = resolveAll slots rs
  | [] => rfl
  | r :: rs => by
    rw [resolveAll, resolveAll, resolve_resolve slots r, resolveAll_resolveAll slots rs]

end

end Regex

namespace Grammar

/-- A grammar with all names looked up. -/
def withNames (g : Grammar) (ds : Diagnostics) : Grammar :=
  (resolveNonterminals (resolveTokenRefs (resolveRegexNames (reportDeferred (g, ds))))).1

/-- The name of a node has been looked up, if it is a nonterminal. -/
def Named (g : Grammar) (i : NodeId) : Prop :=
  ∀ name p q, g.kind i = .nonterminal name p → g.productionNames.index? name = some q → p = some q

/-- **All names have been looked up**, and there are no faults to be reported. -/
structure NamesFound (g : Grammar) : Prop where
  deferred : g.deferred = []
  tokenRefs : g.tokenRefs = []
  regexes : g.resolvedRegexes = g.regexes
  named : ∀ i, g.Named i

/-- Two grammars have the same names and regular expressions. -/
structure SameNames (g h : Grammar) : Prop where
  productionNames : h.productionNames = g.productionNames
  regexNames : h.regexNames = g.regexNames
  regexes : h.regexes = g.regexes
  tokenRefs : h.tokenRefs = g.tokenRefs
  deferred : h.deferred = g.deferred

section

variable {g h : Grammar} {i j : NodeId} {p : Nat}

/-- The same names as before. -/
lemma SameNames.refl (g : Grammar) : SameNames g g := ⟨rfl, rfl, rfl, rfl, rfl⟩

/-- Names stay the same over several changes. -/
lemma SameNames.trans {k : Grammar} (h₁ : SameNames g h) (h₂ : SameNames h k) : SameNames g k :=
  ⟨h₂.productionNames.trans h₁.productionNames, h₂.regexNames.trans h₁.regexNames,
    h₂.regexes.trans h₁.regexes, h₂.tokenRefs.trans h₁.tokenRefs, h₂.deferred.trans h₁.deferred⟩

/-- Linking the tree changes no names. -/
lemma sameNames_setParents (g : Grammar) : SameNames g g.setParents :=
  KeptByLinking.setParents ⟨SameNames.refl, SameNames.trans, fun _ _ _ _ => ⟨rfl, rfl, rfl, rfl, rfl⟩,
    fun _ _ _ => ⟨rfl, rfl, rfl, rfl, rfl⟩, fun _ => ⟨rfl, rfl, rfl, rfl, rfl⟩⟩ g

/-- Marking productions is not about names. -/
lemma sameNames_computeNullable (g : Grammar) : SameNames g g.computeNullable :=
  computeNullable_induction (P := SameNames g) (fun h _ => h.trans ⟨rfl, rfl, rfl, rfl, rfl⟩)
    (SameNames.refl g)

/-- Neither does filling in the defaults of lookaheads. -/
lemma sameNames_fillLookaheadDefaults (g : Grammar) : SameNames g g.fillLookaheadDefaults :=
  ⟨rfl, rfl, rfl, rfl, rfl⟩

/-- Names that are found stay found, if no node refers to more of them. -/
lemma NamesFound.of_same (hg : g.NamesFound) (hs : SameNames g h)
    (hkind : ∀ {i name p}, h.kind i = .nonterminal name p → g.kind i = .nonterminal name p) :
    h.NamesFound where
  deferred := hs.deferred.trans hg.deferred
  tokenRefs := hs.tokenRefs.trans hg.tokenRefs
  regexes := by
    rw [resolvedRegexes, hs.regexNames, hs.regexes]
    exact hg.regexes
  named i name p q hk hindex := by
    rw [hs.productionNames] at hindex
    exact hg.named i name p q (hkind hk) hindex

/-- **Looking up the name of a node** is enough for it, and keeps what has been found.

**Proof sketch.** By whether the node is a nonterminal and whether its name is known. If it is, the node
gets the number of the name, and all other nodes stay as they are. -/
lemma named_resolveNonterminal (r : Reported) (i : NodeId) :
    (resolveNonterminal r i).1.Named i ∧
      ∀ j, r.1.Named j → (resolveNonterminal r i).1.Named j := by
  obtain ⟨g, ds⟩ := r
  rw [resolveNonterminal]
  split
  · rename_i name p hk
    have hi : i < g.nodes.size := lt_size_of_kind fun code => by simp [hk]
    cases hindex : g.productionNames.index? name with
    | none =>
      refine ⟨fun name' p' q hk' hq => ?_, fun _ hj => hj⟩
      rw [hk] at hk'
      obtain ⟨rfl, -⟩ := NodeKind.nonterminal.inj hk'
      rw [hindex] at hq
      cases hq
    | some q =>
      have hset : (g.setKind i (.nonterminal name (some q))).Named i := by
        intro name' p' q' hk' hq'
        rw [kind_setKind, if_pos ⟨rfl, hi⟩] at hk'
        obtain ⟨rfl, rfl⟩ := NodeKind.nonterminal.inj hk'
        exact hindex.symm.trans hq'
      refine ⟨hset, fun j hj => ?_⟩
      by_cases hji : j = i
      · exact hji ▸ hset
      · intro name' p' q' hk' hq'
        rw [kind_setKind, if_neg fun hand => hji hand.1] at hk'
        exact hj name' p' q' hk' hq'
  · rename_i hnot
    exact ⟨fun name p q hk => absurd hk (hnot name p), fun _ hj => hj⟩

/-- Looking up the names of several nodes, one after the other. -/
lemma named_foldl (ids : List NodeId) : ∀ r : Reported,
    (∀ j, r.1.Named j → (ids.foldl resolveNonterminal r).1.Named j) ∧
      ∀ i ∈ ids, (ids.foldl resolveNonterminal r).1.Named i := by
  induction ids with
  | nil => exact fun _ => ⟨fun _ hj => hj, fun _ h => by cases h⟩
  | cons i ids ih =>
    intro r
    obtain ⟨hone, hkeep⟩ := named_resolveNonterminal r i
    obtain ⟨hkept, hall⟩ := ih (resolveNonterminal r i)
    refine ⟨fun j hj => hkept j (hkeep j hj), fun j hj => ?_⟩
    rcases List.mem_cons.mp hj with rfl | hj
    · exact hkept j hone
    · exact hall j hj

/-- What looking up nodes does to the rest of the grammar. -/
lemma sameNames_resolveTokenRefs (g : Grammar) (ds : Diagnostics) :
    SameNames { g with tokenRefs := [] } (resolveTokenRefs (g, ds)).1 := by
  refine List.foldlRecOn (motive := fun r : Reported => SameNames { g with tokenRefs := [] } r.1) _ _
    (.refl _) fun r hr x _ => hr.trans ?_
  rw [resolveTokenRef]
  cases r.1.tokens.findIdx? (·.label = some x.2) with
  | some ordinal => exact ⟨rfl, rfl, rfl, rfl, rfl⟩
  | none => exact .refl _

/-- Looking up the names of nonterminals changes no tables of names. -/
lemma sameNames_resolveNonterminals (r : Reported) : SameNames r.1 (resolveNonterminals r).1 := by
  refine List.foldlRecOn (motive := fun r' : Reported => SameNames r.1 r'.1) _ _
    (.refl _) fun r' hr i _ => hr.trans ?_
  rw [resolveNonterminal]
  split
  · split
    · exact ⟨rfl, rfl, rfl, rfl, rfl⟩
    · exact .refl _
  · exact .refl _

/-- **All names are found** when they have been looked up.

**Proof sketch.** The expressions are resolved with the table of names, which is not changed later, so
that resolving them again changes nothing. The nodes are looked up one after the other, and what has
been found stays. -/
lemma namesFound_withNames (g : Grammar) (ds : Diagnostics) : (g.withNames ds).NamesFound := by
  set r := resolveRegexNames (reportDeferred (g, ds)) with hr
  have hresolved : r.1 = { g with deferred := [], regexes := g.resolvedRegexes } := rfl
  have hsame : SameNames { r.1 with tokenRefs := [] } (g.withNames ds) :=
    (sameNames_resolveTokenRefs r.1 r.2).trans (sameNames_resolveNonterminals _)
  rw [hresolved] at hsame
  refine ⟨hsame.deferred, hsame.tokenRefs, ?_, fun i => ?_⟩
  · rw [resolvedRegexes, hsame.regexes, hsame.regexNames]
    simp only [resolvedRegexes, Array.map_map]
    refine Array.map_congr_left fun r _ => ?_
    cases r with
    | none => rfl
    | some r => exact congrArg some (Regex.resolve_resolve g.regexNames r)
  · obtain ⟨hkept, hall⟩ :=
      named_foldl (List.range (resolveTokenRefs r).1.nodes.size) (resolveTokenRefs r)
    by_cases hi : i < (resolveTokenRefs r).1.nodes.size
    · exact hall i (List.mem_range.mpr hi)
    · refine hkept i fun name p q hk _ => ?_
      rw [kind_of_size_le (Nat.not_lt.mp hi)] at hk
      cases hk

/-- Looking up a name again changes nothing.

**Proof sketch.** A node that has been looked up has the number of its name already, so that the same
kind is set again. -/
lemma resolveNonterminal_of_named {r : Reported} (hi : r.1.Named i) :
    (resolveNonterminal r i).1 = r.1 := by
  obtain ⟨g, ds⟩ := r
  rw [resolveNonterminal]
  split
  · rename_i name p hk
    cases hindex : g.productionNames.index? name with
    | none => rfl
    | some q =>
      obtain rfl := hi name p q hk hindex
      have hnodes : g.nodes.modify i (fun n => { n with kind := .nonterminal name (some q) }) =
          g.nodes := by
        refine modify_eq_self fun _ => ?_
        rw [← hk]
        rfl
      exact congrArg (fun nodes => { g with nodes }) hnodes
  · rfl

/-- **Looking up all names again** changes nothing.

**Proof sketch.** Each of the three look-ups in turn: the expressions are resolved, there are no token
references left, and all nonterminals have their numbers. -/
lemma NamesFound.withNames_eq (hg : g.NamesFound) (ds : Diagnostics) : g.withNames ds = g := by
  have hregexes : (resolveRegexNames (reportDeferred (g, ds))).1 = g := by
    have hrun : (resolveRegexNames (reportDeferred (g, ds))).1 =
      { g with deferred := [], regexes := g.resolvedRegexes } := rfl
    rw [hrun, hg.regexes, ← hg.deferred]
  have htokens : (resolveTokenRefs (resolveRegexNames (reportDeferred (g, ds)))).1 = g := by
    generalize resolveRegexNames (reportDeferred (g, ds)) = r at hregexes ⊢
    obtain ⟨g', ds'⟩ := r
    obtain rfl : g' = g := hregexes
    rw [resolveTokenRefs, hg.tokenRefs, List.foldl_nil]
    exact congrArg (fun refs => { g' with tokenRefs := refs }) hg.tokenRefs.symm
  rw [withNames]
  generalize resolveTokenRefs (resolveRegexNames (reportDeferred (g, ds))) = r at htokens ⊢
  refine List.foldlRecOn (motive := fun r' : Reported => r'.1 = g) _ _ htokens fun r' hr i _ => ?_
  have hnamed : r'.1.Named i := by
    rw [hr]
    exact hg.named i
  rw [resolveNonterminal_of_named hnamed, hr]

/-! ## The first time -/

/-- What a node is made of or scans. -/
def mentioned (g : Grammar) (i : NodeId) : List NodeId :=
  (g.kind i).parts ++ (g.kind i).scanned?.toList

/-- What linking does after it has looked up the names. -/
def linkNamed (g : Grammar) : Grammar :=
  { g.setParents.fillLookaheadDefaults.computeNullable with linked := true }

/-- Linking looks up the names first and links the tree then. -/
lemma link_eq_linkNamed (g : Grammar) (ds : Diagnostics) :
    (g.link ds).1 = (g.withNames ds).linkNamed := rfl

/-- Linking completes the tree. -/
lemma completes_linkNamed (g : Grammar) : g.setParents.Completes g.linkNamed :=
  completes_last g.setParents

/-- **All names have been looked up after linking.**

**Proof sketch.** Names are found before the tree is linked; linking it changes neither the tables nor
the kinds of nonterminals. -/
lemma namesFound_link (g : Grammar) (ds : Diagnostics) : (g.link ds).1.NamesFound := by
  rw [link_eq_linkNamed]
  refine (namesFound_withNames g ds).of_same ?_ fun {i name p} hk => ?_
  · have hlinked : ∀ g : Grammar, SameNames g { g with linked := true } :=
      fun _ => ⟨rfl, rfl, rfl, rfl, rfl⟩
    exact (((sameNames_setParents _).trans (sameNames_fillLookaheadDefaults _)).trans
      (sameNames_computeNullable _)).trans (hlinked _)
  · rw [← (sameTree_setParents (g.withNames ds)).kind]
    rcases (completes_linkNamed (g.withNames ds)).kind i with heq | ⟨spec, -, hk'⟩
    · exact heq.symm.trans hk
    · rw [hk'] at hk
      cases hk

/-- What a grammar mentions: the right sides of productions, and what each node is made of or scans. -/
lemma mentionedIds_eq (g : Grammar) : g.mentionedIds =
    g.productions.toList.filterMap Production.expansion ++
      (List.range g.nodes.size).flatMap g.mentioned := by
  rw [mentionedIds, toList_eq_map_range g.nodes, List.flatMap_map]
  rfl

/-- Only nodes of the grammar mention others. -/
lemma lt_of_mem_mentioned (h : j ∈ g.mentioned i) : i < g.nodes.size :=
  lt_size_of_kind fun code hk => by
    rw [mentioned, hk] at h
    cases h

/-- What is mentioned makes a forest, if nothing is mentioned twice. -/
lemma forest_mentioned (h : g.mentionedIds.Nodup) : g.Forest g.mentioned :=
  ⟨lt_of_mem_mentioned, g.mentionedIds_eq ▸ h⟩

/-- Looking up names makes no node mention others than before. -/
lemma Resolves.mentioned_sublist (hr : g.Resolves h) (i : NodeId) :
    (h.mentioned i).Sublist (g.mentioned i) := by
  rw [mentioned, mentioned]
  rcases hr.kind i with heq | ⟨hparts, hnot⟩
  · rw [heq]
  · have hscan : (h.kind i).scanned? = none := by
      cases hk : h.kind i with
      | lookahead spec =>
        rw [hk] at hnot
        cases hnot
      | _ => rfl
    rw [hparts, hscan]
    exact List.nil_sublist _

/-- Looking up names keeps a forest. -/
lemma Resolves.forest (hr : g.Resolves h) (hf : g.Forest g.mentioned) : h.Forest h.mentioned := by
  obtain ⟨hlt, hnodup⟩ := hf.mono hr.mentioned_sublist
  refine ⟨fun hq => hr.size ▸ hlt hq, ?_⟩
  rw [hr.productions, hr.size]
  exact hnodup

/-- What hangs on a node is mentioned by it. -/
lemma hanging_sublist (g : Grammar) (i : NodeId) : (g.hanging i).Sublist (g.mentioned i) := by
  rw [hanging, mentioned]
  refine List.Sublist.append (.refl _) ?_
  cases (g.kind i).scanned? with
  | none => exact .slnil
  | some e =>
    dsimp only
    split_ifs
    · exact .refl _
    · exact List.nil_sublist _

/-- Its children are mentioned by it. -/
lemma children_sublist (g : Grammar) (i : NodeId) : (g.children i).Sublist (g.mentioned i) := by
  rw [children, mentioned]
  refine List.Sublist.append (.refl _) ?_
  cases (g.kind i).scanned? with
  | none => exact .slnil
  | some e =>
    dsimp only
    split_ifs
    · exact .refl _
    · exact List.nil_sublist _

/-- After linking a node has the place that it has been given. -/
lemma seated_linkNamed (hf : g.Forest g.hanging) {x : Seat} (hx : x ∈ g.seats)
    (hlt : x.id < g.nodes.size) :
    (g.linkNamed.node x.id).parent = x.parent ∧ (g.linkNamed.node x.id).index = x.index := by
  have hc := completes_linkNamed g
  have hnode := node_settle (s := g.unreferenced) g.entered hf.nodup_seats hx hlt
  rw [← setParents_eq_settle hf.nodup_seats] at hnode
  rw [hc.parent, hc.index, hnode]
  exact ⟨rfl, rfl⟩

/-- Linking takes no node off its parent. -/
lemma parent_linkNamed_ne_none (hf : g.Forest g.hanging) (hi : (g.node i).parent ≠ .none) :
    (g.linkNamed.node i).parent ≠ .none := by
  have hlt : i < g.nodes.size := by
    by_contra hge
    rw [node, Array.getD_eq_getD_getElem?, Array.getElem?_eq_none (Nat.not_lt.mp hge)] at hi
    exact hi rfl
  by_cases hmem : i ∈ g.seats.map Seat.id
  · obtain ⟨x, hx, rfl⟩ := List.mem_map.mp hmem
    rw [(seated_linkNamed hf hx hlt).1]
    exact parent_ne_none_of_mem_seats hx
  · rw [(completes_linkNamed g).parent, setParents_eq_settle hf.nodup_seats, node_settle_of_notMem hmem]
    exact hi

/-- Linking hangs every node that it enters on a parent. -/
lemma parent_ne_none_of_entered (hf : g.Forest g.hanging) (hi : i ∈ g.entered)
    (hlt : i < g.nodes.size) : (g.linkNamed.node i).parent ≠ .none := by
  obtain ⟨x, hx, rfl⟩ := exists_seat hi
  rw [(seated_linkNamed hf hx hlt).1]
  exact parent_ne_none_of_mem_seats hx

/-! ## The second time -/

/-- A lookahead has no parts. -/
lemma parts_of_scanned {kind : NodeKind} {e : NodeId} (h : kind.scanned? = some e) :
    kind.parts = [] := by
  cases kind with
  | lookahead spec => rfl
  | _ => cases h

/-- Linking adds no nodes. -/
lemma size_linkNamed (g : Grammar) : g.linkNamed.nodes.size = g.nodes.size := by
  have hfilled : g.setParents.fillLookaheadDefaults.nodes.size = g.setParents.nodes.size :=
    Array.size_mapIdx
  rw [← (sameTree_setParents g).size, ← hfilled]
  exact (sameTree_computeNullable g.setParents.fillLookaheadDefaults).size

/-- Linking adds no productions. -/
lemma count_linkNamed (g : Grammar) : g.linkNamed.productions.size = g.productions.size := by
  rw [← (sameTree_setParents g).count]
  exact (sameTree_computeNullable g.setParents.fillLookaheadDefaults).count

/-- Linking keeps the right sides of productions. -/
lemma body_linkNamed (g : Grammar) (p : Nat) : g.linkNamed.body p = g.body p :=
  ((completes_linkNamed g).body p).trans ((sameTree_setParents g).body p)

/-- Linking keeps the parts of nodes. -/
lemma parts_linkNamed (g : Grammar) (i : NodeId) :
    (g.linkNamed.kind i).parts = (g.kind i).parts := by
  rw [(completes_linkNamed g).parts, (sameTree_setParents g).kind]

/-- Linking keeps what is scanned. -/
lemma scanned_linkNamed {e : NodeId} (h : (g.kind i).scanned? = some e) :
    (g.linkNamed.kind i).scanned? = some e := by
  rw [← (sameTree_setParents g).kind] at h
  rcases (completes_linkNamed g).kind i with heq | ⟨spec, hk, hk'⟩
  · rwa [heq]
  · rw [hk] at h
    have hspec : spec.expansion = some e := h
    rw [hk', NodeKind.scanned?, hspec, Option.getD_some]

/-- What is scanned by default has a parent.

**Proof sketch.** The default is the parent of the node or what hangs beside it, and both have been
entered. -/
lemma parent_default_ne_none (hf : g.Forest g.hanging) (hi : i ∈ g.entered) (hlt : i < g.nodes.size) :
    (g.linkNamed.node (defaultExpansion (g.setParents.node i) i)).parent ≠ .none := by
  obtain ⟨x, hx, rfl⟩ := exists_seat hi
  have hparent : (g.setParents.node x.id).parent = x.parent := by
    rw [← (completes_linkNamed g).parent, (seated_linkNamed hf hx hlt).1]
  rw [defaultExpansion, hparent]
  rcases mem_seats.mp hx with ⟨p, root, -, rfl⟩ | ⟨q, hq, hxq⟩
  · exact parent_ne_none_of_entered hf hi hlt
  · have hbelow : Below g.hanging q x.id := by
      rw [Below, ← map_id_seatsBelow]
      exact List.mem_map_of_mem hxq
    obtain ⟨y, -, rfl⟩ := List.mem_map.mp hxq
    exact parent_ne_none_of_entered hf hq (hf.lt hbelow)

/-- What is scanned as it is written has a parent, if there is such a node. -/
lemma parent_scanned_ne_none {e : NodeId} (hf : g.Forest g.hanging) (hi : i ∈ g.entered)
    (hscan : (g.kind i).scanned? = some e) (hlt : e < g.nodes.size) :
    (g.linkNamed.node e).parent ≠ .none := by
  by_cases hfree : (g.node e).parent = .none
  · have hmem : e ∈ g.hanging i := mem_hanging.mpr (Or.inr ⟨hscan, hfree⟩)
    rw [← map_id_seatsBelow] at hmem
    obtain ⟨x, hx, rfl⟩ := List.mem_map.mp hmem
    have hseat : x ∈ g.seats := mem_seats.mpr (Or.inr ⟨i, hi, hx⟩)
    rw [(seated_linkNamed hf hseat hlt).1]
    exact parent_ne_none_of_mem_seats hseat
  · exact parent_linkNamed_ne_none hf hfree

/-- **What hangs on a node when it is linked again.** Nothing hangs on a lookahead: what it scans has a
parent, unless there is no such node.

**Proof sketch.** If the node scans something free of a parent, this is no node of the grammar, since
what a lookahead scans gets a parent when it is entered. Otherwise just the parts hang on it. -/
lemma hanging_linkNamed (hf : g.Forest g.hanging) (hi : i ∈ g.entered) :
    g.linkNamed.hanging i = (g.kind i).parts ∨ ((g.kind i).parts = [] ∧
      g.linkNamed.hanging i = g.hanging i ∧ ∀ e ∈ g.hanging i, g.nodes.size ≤ e) := by
  by_cases hfree : ∃ e, (g.linkNamed.kind i).scanned? = some e ∧ (g.linkNamed.node e).parent = .none
  · obtain ⟨e, hscan, hparent⟩ := hfree
    have hparts : (g.kind i).parts = [] := by
      rw [← parts_linkNamed]
      exact parts_of_scanned hscan
    have hlt : i < g.nodes.size := by
      rw [← size_linkNamed]
      refine lt_size_of_kind fun code hk => ?_
      rw [hk] at hscan
      cases hscan
    cases hwritten : (g.kind i).scanned? with
    | none =>
      have hnone : (g.setParents.kind i).scanned? = none := by
        rwa [(sameTree_setParents g).kind]
      rw [(completes_linkNamed g).scanned hnone hscan] at hparent
      exact absurd hparent (parent_default_ne_none hf hi hlt)
    | some e' =>
      obtain rfl : e' = e := Option.some_inj.mp ((scanned_linkNamed hwritten).symm.trans hscan)
      have hge : g.nodes.size ≤ e' := Nat.not_lt.mp fun hlt' =>
        parent_scanned_ne_none hf hi hwritten hlt' hparent
      have hparent' : (g.node e').parent = .none := by
        by_contra hhung
        exact parent_linkNamed_ne_none hf hhung hparent
      have hold : g.hanging i = [e'] := by
        rw [hanging, hparts, hwritten]
        simp only [if_pos hparent', List.nil_append]
      have hnew : g.linkNamed.hanging i = [e'] := by
        rw [hanging, parts_linkNamed, hparts, hscan]
        simp only [if_pos hparent, List.nil_append]
      refine Or.inr ⟨hparts, hnew.trans hold.symm, fun e he => ?_⟩
      rw [hold] at he
      rwa [List.mem_singleton.mp he]
  · refine Or.inl ?_
    rw [hanging, parts_linkNamed]
    cases hscan : (g.linkNamed.kind i).scanned? with
    | none => exact List.append_nil _
    | some e =>
      have hhung : (g.linkNamed.node e).parent ≠ .none := fun h => hfree ⟨e, hscan, h⟩
      simp only [if_neg hhung, List.append_nil]

/-- The seats below a node, when linked again, are among the former ones. -/
lemma seatsBelow_linkNamed (hf : g.Forest g.hanging) (hi : i ∈ g.entered) :
    (g.linkNamed.seatsBelow i).Sublist (g.seatsBelow i) := by
  rw [seatsBelow, seatsBelow]
  rcases hanging_linkNamed hf hi with hparts | ⟨-, heq, -⟩
  · rw [hparts, hanging, List.zipIdx_append, List.map_append]
    exact List.sublist_append_left _ _
  · rw [heq]

/-- What hangs on a node, when linked again, hung on it before. -/
lemma hanging_linkNamed_sublist (hf : g.Forest g.hanging) (hi : i ∈ g.entered) :
    (g.linkNamed.hanging i).Sublist (g.hanging i) := by
  rw [← map_id_seatsBelow, ← map_id_seatsBelow]
  exact (seatsBelow_linkNamed hf hi).map Seat.id

/-- The nodes entered again are among those entered before, in the same order. -/
lemma descent_linkNamed {root : NodeId} (hf : g.Forest g.hanging) (hroot : g.body p = some root) :
    (g.linkNamed.descent g.linkNamed.linkDepth root).Sublist (g.descent g.linkDepth root) := by
  rw [linkDepth, size_linkNamed]
  refine descent_sublist _ fun j hj => ?_
  exact hanging_linkNamed_sublist hf (mem_entered.mpr ⟨p, root, hroot, hj⟩)

/-- **Fewer nodes are entered** when a grammar is linked again. -/
lemma entered_linkNamed (hf : g.Forest g.hanging) : g.linkNamed.entered.Sublist g.entered := by
  rw [entered, entered, count_linkNamed]
  refine List.Sublist.flatMap_right _ fun p _ => ?_
  rw [enteredIn, enteredIn, body_linkNamed]
  refine List.Sublist.flatMap_right _ fun root hroot => ?_
  exact descent_linkNamed hf (Option.mem_toList.mp hroot)

/-- **The places given away again** are among those given away before. -/
lemma seats_linkNamed (hf : g.Forest g.hanging) : g.linkNamed.seats.Sublist g.seats := by
  rw [seats, seats, count_linkNamed]
  refine List.Sublist.flatMap_right _ fun p _ => ?_
  rw [seatsIn, seatsIn, body_linkNamed]
  refine List.Sublist.flatMap_right _ fun root hroot => ?_
  have hroot' : g.body p = some root := Option.mem_toList.mp hroot
  have hless := descent_linkNamed hf hroot'
  refine List.Sublist.cons_cons _ (.trans (List.Sublist.flatMap_right _ fun j hj => ?_) (hless.flatMap _))
  exact seatsBelow_linkNamed hf (mem_entered.mpr ⟨p, root, hroot', hless.mem hj⟩)

/-! ## Walks -/

/-- A walk that does not go into what lookaheads scan goes to the parts of nodes. -/
lemma walkWithin_succ (g : Grammar) (depth : Nat) (i : NodeId) :
    g.walkWithin false (depth + 1) i = i :: (g.kind i).parts.flatMap (g.walkWithin false depth) := by
  rw [walkWithin, children]
  cases g.kind i <;> simp [NodeKind.isLookahead, NodeKind.parts, NodeKind.scanned?]

/-- Below nodes that there are not, nothing is entered that is.

**Proof sketch.** Nothing hangs on an id without a node, so that a descent from it meets the id only,
which the filter drops. -/
lemma filter_descent_of_size_le {P : NodeId → Bool} (hP : ∀ e, g.nodes.size ≤ e → P e = false)
    {ids : List NodeId} (hids : ∀ e ∈ ids, g.nodes.size ≤ e) (depth : Nat) :
    (ids.flatMap (g.descent depth)).filter P = [] := by
  refine List.filter_eq_nil_iff.mpr fun x hx => ?_
  obtain ⟨e, he, hx⟩ := List.mem_flatMap.mp hx
  have hnone : g.hanging e = [] := by
    rw [hanging, kind_of_size_le (hids e he)]
    rfl
  have hxe : x = e := by
    rcases (mem_descent hx).cases_head with heq | ⟨y, hy, -⟩
    · exact heq.symm
    · rw [Below, hnone] at hy
      cases hy
  rw [hxe, hP e (hids e he)]
  exact Bool.false_ne_true

/-- **What linking enters is what a walk meets**, as far as nodes are concerned that there are, if
nothing but its parts hangs on a node, or nodes that there are not.

**Proof sketch.** Induction on the depth of the walk. Ids beyond the nodes are left out by the filter,
and they have no parts, so that nothing hangs on them. -/
lemma filter_descent {ok : NodeId → Prop} {rank : NodeId → Nat} {P : NodeId → Bool}
    (hr : g.Ranked ok rank) (hP : ∀ e, g.nodes.size ≤ e → P e = false) (depth : Nat) :
    ∀ {i depth'}, ok i → rank i ≤ depth → rank i < depth' →
      (∀ j ∈ g.descent depth' i, g.hanging j = (g.kind j).parts ∨
        ((g.kind j).parts = [] ∧ ∀ e ∈ g.hanging j, g.nodes.size ≤ e)) →
      (g.descent depth' i).filter P = (g.walkWithin false depth i).filter P := by
  induction depth with
  | zero =>
    intro i depth' hi hle hlt hhang
    obtain ⟨d, rfl⟩ := Nat.exists_eq_succ_of_ne_zero (Nat.ne_of_gt (Nat.zero_lt_of_lt hlt))
    have hparts : (g.kind i).parts = [] := List.eq_nil_iff_forall_not_mem.mpr fun j hj => by
      have := hr.lt hi hj
      omega
    have hout : ∀ e ∈ g.hanging i, g.nodes.size ≤ e := by
      rcases hhang i List.mem_cons_self with heq | ⟨-, hout⟩
      · rw [heq, hparts]
        exact fun _ h => by cases h
      · exact hout
    rw [descent, walkWithin, List.filter_cons, List.filter_cons, filter_descent_of_size_le hP hout,
      List.filter_nil]
  | succ depth ih =>
    intro i depth' hi hle hlt hhang
    obtain ⟨d, rfl⟩ := Nat.exists_eq_succ_of_ne_zero (Nat.ne_of_gt (Nat.zero_lt_of_lt hlt))
    have hbelow : ((g.hanging i).flatMap (g.descent d)).filter P =
        ((g.kind i).parts.flatMap (g.walkWithin false depth)).filter P := by
      rcases hhang i List.mem_cons_self with heq | ⟨hparts, hout⟩
      · rw [heq, List.filter_flatMap, List.filter_flatMap]
        refine List.flatMap_congr fun j hj => ?_
        have hdown := hr.lt hi hj
        refine ih (hr.part hi hj) (by omega) (by omega) fun x hx => hhang x ?_
        exact List.mem_cons_of_mem i (List.mem_flatMap.mpr ⟨j, heq ▸ hj, hx⟩)
      · rw [filter_descent_of_size_le hP hout, hparts]
        rfl
    rw [descent, walkWithin_succ, List.filter_cons, List.filter_cons, hbelow]

/-- A list is what it is a sublist of without the elements that it does not have. -/
lemma filter_mem_eq {xs ys : List NodeId} (hsub : xs.Sublist ys) (hnodup : ys.Nodup) :
    ys.filter (· ∈ xs) = xs := by
  induction hsub with
  | slnil => rfl
  | @cons xs ys y hsub ih =>
    obtain ⟨hy, hys⟩ := List.nodup_cons.mp hnodup
    rw [List.filter_cons_of_neg (by simpa using fun h => hy (hsub.mem h)), ih hys]
  | @cons_cons xs ys y hsub ih =>
    obtain ⟨hy, hys⟩ := List.nodup_cons.mp hnodup
    rw [List.filter_cons_of_pos (by simp)]
    refine congrArg (y :: ·) ((List.filter_congr fun x hx => ?_).trans (ih hys))
    have hne : x ≠ y := fun heq => hy (heq ▸ hx)
    simp [hne]

/-- **The nodes that refer to a production and are entered again** are those of the productions.

**Proof sketch.** Production by production: linking again enters the right side and all that hangs below
it, which are the parts, as in the walk. -/
lemma filter_entered_linkNamed {ok : NodeId → Prop} {rank : NodeId → Nat} (hf : g.Forest g.hanging)
    (hr : g.Ranked ok rank) {P : NodeId → Bool} (hP : ∀ e, g.nodes.size ≤ e → P e = false) :
    g.linkNamed.entered.filter P = g.linkNamed.productionNodes.filter P := by
  have hpart : g.linkNamed.Part = g.Part := by
    funext i j
    rw [Part, parts_linkNamed, Part]
  have hr' : g.linkNamed.Ranked ok rank := by
    refine ⟨fun hi hij => hr.part hi (hpart ▸ hij), fun hroot => ?_, fun i => ?_,
      fun hi hij => hr.lt hi (hpart ▸ hij)⟩
    · rw [body_linkNamed] at hroot
      exact hr.root hroot
    · rw [size_linkNamed]
      exact hr.le i
  have hnodes : g.linkNamed.productionNodes = (List.range g.linkNamed.productions.size).flatMap
      fun p => (g.linkNamed.body p).toList.flatMap fun root => g.linkNamed.walk root false := by
    rw [productionNodes, toList_eq_map_range, List.flatMap_map]
    refine List.flatMap_congr fun p _ => ?_
    rw [body, production]
    cases (g.linkNamed.productions.getD p default).expansion with
    | none => rfl
    | some root => exact (List.flatMap_singleton _ _).symm
  rw [hnodes, entered, List.filter_flatMap, List.filter_flatMap]
  refine List.flatMap_congr fun p _ => ?_
  rw [enteredIn, List.filter_flatMap, List.filter_flatMap]
  refine List.flatMap_congr fun root hroot => ?_
  have hroot' : g.linkNamed.body p = some root := Option.mem_toList.mp hroot
  have hle := hr'.le root
  refine filter_descent hr' (by rwa [size_linkNamed]) g.linkNamed.nodes.size (hr'.root hroot') hle ?_
    fun j hj => ?_
  · rw [linkDepth]
    exact (Nat.lt_succ_of_le hle).trans_le (Nat.le_mul_of_pos_right _ (Nat.succ_pos _))
  · have hentered : j ∈ g.entered := (entered_linkNamed hf).mem (mem_entered.mpr ⟨p, root, hroot', hj⟩)
    rw [parts_linkNamed, size_linkNamed]
    rcases hanging_linkNamed hf hentered with hparts | ⟨hparts, heq, hout⟩
    · exact Or.inl hparts
    · exact Or.inr ⟨hparts, heq ▸ hout⟩

/-! ## References -/

/-- **A grammar without the references inside of what lookaheads scan.** -/
def forgetScanned (g : Grammar) : Grammar :=
  { g with productions := g.productions.map fun p =>
      { p with references := p.references.filter (· ∈ g.productionNodes) } }

/-- Forgetting keeps the references from nodes of productions. -/
lemma production_forgetScanned (hp : p < g.productions.size) : g.forgetScanned.production p =
    { g.production p with references := (g.references p).filter (· ∈ g.productionNodes) } :=
  getD_map_of_lt hp _

/-- A place that a node has can be given to it again. -/
lemma take_eq_self {x : Seat} (h : x.id < g.nodes.size →
    (g.node x.id).parent = x.parent ∧ (g.node x.id).index = x.index) : g.take x = g := by
  have hnodes : g.nodes.modify x.id (fun n => { n with parent := x.parent, index := x.index }) =
      g.nodes := by
    refine modify_eq_self fun hlt => ?_
    obtain ⟨hparent, hindex⟩ := h hlt
    rw [← hparent, ← hindex]
    rfl
  exact congrArg (fun nodes => { g with nodes }) hnodes

/-- Seats that are taken already change nothing. -/
lemma foldl_take_eq_self {xs : List Seat} (h : ∀ x ∈ xs, g.take x = g) : xs.foldl take g = g := by
  induction xs with
  | nil => rfl
  | cons x xs ih =>
    rw [List.foldl_cons, h x List.mem_cons_self]
    exact ih fun y hy => h y (List.mem_cons_of_mem x hy)

/-- Linking keeps the production that a node refers to. -/
lemma productionOf?_linkNamed (g : Grammar) (i : NodeId) :
    g.linkNamed.productionOf? i = g.productionOf? i :=
  ((completes_linkNamed g).productionOf? i).trans ((sameTree_setParents g).productionOf? i)

/-- The references of a production after linking. -/
lemma references_linkNamed (hf : g.Forest g.hanging) (hp : p < g.productions.size) :
    g.linkNamed.references p = g.entered.filter fun i => g.productionOf? i = some p := by
  rw [(completes_linkNamed g).references, references, setParents_eq_settle hf.nodup_seats,
    production_settle_unreferenced _ _ hp]

/-- **The references that are noted again** are those noted before from nodes of productions.

**Proof sketch.** The nodes entered again are those of productions, which were entered before;
references are noted in the order in which nodes are entered. -/
lemma references_again {ok : NodeId → Prop} {rank : NodeId → Nat} (hf : g.Forest g.hanging)
    (hr : g.Ranked ok rank) (hp : p < g.productions.size) :
    (g.linkNamed.entered.filter fun i => g.linkNamed.productionOf? i = some p) =
      (g.linkNamed.references p).filter (· ∈ g.linkNamed.productionNodes) := by
  simp only [productionOf?_linkNamed]
  have hout : ∀ e, g.nodes.size ≤ e → decide (g.productionOf? e = some p) = false := by
    intro e he
    rw [productionOf?, kind_of_size_le he]
    rfl
  have hnodes := filter_entered_linkNamed hf hr hout
  have hnodup : (g.entered.filter fun i => g.productionOf? i = some p).Nodup :=
    hf.nodup_entered.filter _
  rw [references_linkNamed hf hp, ← filter_mem_eq ((entered_linkNamed hf).filter _) hnodup, hnodes]
  refine List.filter_congr fun i hi => ?_
  have hrefers := (List.mem_filter.mp hi).2
  simp only [List.mem_filter, hrefers, and_true]

/-- Noting references changes productions only. -/
lemma foldl_noteReference_eq (s : Grammar) (ids : List NodeId) :
    ids.foldl noteReference s = { s with productions := (ids.foldl noteReference s).productions } := by
  have hstart : s = { s with productions := s.productions } := rfl
  refine List.foldlRecOn (motive := fun s' => s' = { s with productions := s'.productions }) ids
    noteReference hstart fun s' hs i _ => ?_
  rw [noteReference]
  cases s'.productionOf? i with
  | none => exact hs
  | some q =>
    rw [hs]
    rfl

/-- Every place that is given away again is taken already. -/
lemma setParents_linkNamed (hf : g.Forest g.hanging) :
    g.linkNamed.setParents = g.linkNamed.unreferenced.settle [] g.linkNamed.entered := by
  have hnodup : (g.linkNamed.seats.map Seat.id).Nodup :=
    hf.nodup_seats.sublist ((seats_linkNamed hf).map Seat.id)
  rw [setParents_eq_settle hnodup]
  refine foldl_take_eq_self fun x hx => take_eq_self fun hlt => ?_
  have hsame := (sameTree_unreferenced g.linkNamed).trans (sameTree_settle _ [] g.linkNamed.entered)
  replace hlt := hlt.trans_eq (hsame.size.trans (size_linkNamed g))
  rw [node_foldl_noteReference]
  exact seated_linkNamed hf ((seats_linkNamed hf).mem hx) hlt

/-- **Setting the parents again** forgets the references inside of what lookaheads scan, and changes
nothing else.

**Proof sketch.** All places that are given away are among those given away before, so the nodes have
them. The references that are noted are those from the nodes of productions. -/
theorem setParents_again {ok : NodeId → Prop} {rank : NodeId → Nat} (hf : g.Forest g.hanging)
    (hr : g.Ranked ok rank) : g.linkNamed.setParents = g.linkNamed.forgetScanned := by
  have hproductions : (g.linkNamed.unreferenced.settle [] g.linkNamed.entered).productions =
      g.linkNamed.forgetScanned.productions := by
    have hsame := (sameTree_unreferenced g.linkNamed).trans (sameTree_settle _ [] g.linkNamed.entered)
    refine ext_getD (hsame.count.trans Array.size_map.symm) fun p hp => ?_
    rw [hsame.count] at hp
    have hp' : p < g.productions.size := by rwa [← count_linkNamed]
    change (g.linkNamed.unreferenced.settle [] g.linkNamed.entered).production p =
      g.linkNamed.forgetScanned.production p
    rw [production_settle_unreferenced _ _ hp, references_again hf hr hp', production_forgetScanned hp]
  rw [setParents_linkNamed hf, settle, List.foldl_nil, foldl_noteReference_eq]
  exact congrArg (fun productions => { g.linkNamed with productions }) hproductions

/-! ## Linking again -/

/-- A lookahead is completed once. -/
lemma completeLookahead_again (n : Node) (i : NodeId) :
    completeLookahead (completeLookahead n i) i = completeLookahead n i := by
  rw [completeLookahead]
  cases hk : n.kind <;> simp [completeLookahead, hk]

/-- The defaults of lookaheads are filled in already. -/
lemma fillLookaheadDefaults_again (g : Grammar) :
    g.linkNamed.forgetScanned.fillLookaheadDefaults = g.linkNamed.forgetScanned := by
  have hnodes : g.linkNamed.forgetScanned.nodes.mapIdx (fun i n => completeLookahead n i) =
      g.linkNamed.forgetScanned.nodes := by
    refine ext_getD Array.size_mapIdx fun i _ => ?_
    have hfirst : g.linkNamed.forgetScanned.node i = completeLookahead (g.setParents.node i) i :=
      node_last g.setParents i
    have hagain := node_fillLookaheadDefaults g.linkNamed.forgetScanned i
    rw [hfirst, completeLookahead_again, ← hfirst] at hagain
    exact hagain
  exact congrArg (fun nodes => { g.linkNamed.forgetScanned with nodes }) hnodes

/-- What is linked stays linked. -/
lemma linked_forgetScanned (h : g.linked = true) :
    { g.forgetScanned with linked := true } = g.forgetScanned :=
  congrArg (fun linked => { g.forgetScanned with linked }) h.symm

/-- Forgetting changes neither the tree nor the marks. -/
lemma sameTree_forgetScanned (g : Grammar) : g.SameTree g.forgetScanned ∧
    ∀ p, (g.forgetScanned.production p).nullable = (g.production p).nullable := by
  have hproduction : ∀ p, (g.forgetScanned.production p).expansion = (g.production p).expansion ∧
      (g.forgetScanned.production p).nullable = (g.production p).nullable := by
    intro p
    rw [production, production, forgetScanned, Array.getD_eq_getD_getElem?,
      Array.getD_eq_getD_getElem?, Array.getElem?_map]
    cases g.productions[p]? <;> exact ⟨rfl, rfl⟩
  exact ⟨⟨rfl, fun _ => rfl, Array.size_map, fun p => (hproduction p).1⟩, fun p => (hproduction p).2⟩

/-- All productions that can be marked are marked already. -/
lemma computeNullable_again (g : Grammar) :
    g.linkNamed.forgetScanned.computeNullable = g.linkNamed.forgetScanned := by
  have hcomplete : g.setParents.fillLookaheadDefaults.computeNullable.MarksComplete :=
    marksComplete_computeNullable _
  have hlinked : ∀ h : Grammar, h.SameTree { h with linked := true } :=
    fun _ => ⟨rfl, fun _ => rfl, rfl, fun _ => rfl⟩
  obtain ⟨hsame, hmarks⟩ := sameTree_forgetScanned g.linkNamed
  exact (((hlinked _).trans hsame).marksComplete hmarks hcomplete).computeNullable_eq

/-- Nothing is forgotten iff all references are from nodes of productions.

**Proof sketch.** If nothing is forgotten, every reference has passed the filter. Conversely, filtering
changes nothing, production by production. -/
lemma forgetScanned_eq_self_iff : g.forgetScanned = g ↔
    ∀ p, ∀ i ∈ g.references p, i ∈ g.productionNodes := by
  constructor
  · intro heq p i hi
    have hp : p < g.productions.size := by
      by_contra hge
      rw [references, production, Array.getD_eq_getD_getElem?,
        Array.getElem?_eq_none (Nat.not_lt.mp hge)] at hi
      cases hi
    have hproduction := production_forgetScanned hp
    rw [heq] at hproduction
    have hrefs : (g.references p).filter (· ∈ g.productionNodes) = g.references p :=
      (congrArg Production.references hproduction).symm
    simpa using List.filter_eq_self.mp hrefs i hi
  · intro hall
    have hproductions : (g.productions.map fun p =>
        { p with references := p.references.filter (· ∈ g.productionNodes) }) = g.productions := by
      refine ext_getD Array.size_map fun p hp => ?_
      rw [Array.size_map] at hp
      have hrefs : (g.references p).filter (· ∈ g.productionNodes) = g.references p :=
        List.filter_eq_self.mpr fun i hi => by simpa using hall p i hi
      have hproduction := production_forgetScanned hp
      rw [hrefs] at hproduction
      exact hproduction
    exact congrArg (fun productions => { g with productions }) hproductions

/-- **Linking again.** A grammar that is a tree, whatever it defines or mentions, is linked for the
second time. All nodes, all names and all marks stay as they are; of the references, those from nodes
inside of what a lookahead scans are forgotten. So nothing changes iff there are none of these.

**Proof sketch.** All names are found after the first linking, so that only the tree is linked again.
Nodes keep their places, references are noted from the nodes of productions alone, and defaults and
marks are complete already. -/
theorem link_again {ds ds' : Diagnostics} (hshape : g.mentionedIds.Nodup) :
    ((g.link ds).1.link ds').1 = (g.link ds).1.forgetScanned ∧
      (((g.link ds).1.link ds').1 = (g.link ds).1 ↔
        ∀ p, ∀ i ∈ (g.link ds).1.references p, i ∈ (g.link ds).1.productionNodes) := by
  have hmentioned : (g.withNames ds).Forest (g.withNames ds).mentioned :=
    (resolves_names (g, ds)).forest (forest_mentioned hshape)
  have hf := hmentioned.mono (hanging_sublist _)
  have htree : (g.withNames ds).TreeShaped := (hmentioned.mono (children_sublist _)).nodup
  obtain ⟨rank, hr⟩ := htree.exists_ranked
  have hagain : ((g.link ds).1.link ds').1 = (g.link ds).1.forgetScanned := by
    rw [link_eq_linkNamed _ ds', (namesFound_link g ds).withNames_eq ds', link_eq_linkNamed g ds,
      linkNamed, setParents_again hf hr, fillLookaheadDefaults_again, computeNullable_again,
      linked_forgetScanned rfl]
  refine ⟨hagain, ?_⟩
  rw [hagain]
  exact forgetScanned_eq_self_iff

end

/-- The production `start` looks ahead for a `word` before its first alternative. -/
def scannedWord : Grammar :=
  let (word, g) := empty.nonterminal "word"
  let (a, g) := g.literal "a"
  let (guarded, g) := g.sequenceWith (.syntactic word) [a]
  let (b, g) := g.literal "b"
  let (either, g) := g.choice [guarded, b]
  let (_, g) := g.addProduction "start" either
  let (w, g) := g.literal "w"
  (g.addProduction "word" w).2

/-- A lookahead that scans a nonterminal: linked again, the grammar forgets this reference, which is not
from a node of a production. -/
theorem link_again_scannedWord : scannedWord.mentionedIds.Nodup ∧
    ((scannedWord.link {}).1.link {}).1 = (scannedWord.link {}).1.forgetScanned ∧
    (((scannedWord.link {}).1.link {}).1 = (scannedWord.link {}).1 ↔ ∀ p,
      ∀ i ∈ (scannedWord.link {}).1.references p, i ∈ (scannedWord.link {}).1.productionNodes) := by
  have hshape : scannedWord.mentionedIds.Nodup := by decide +kernel
  exact ⟨hshape, link_again hshape⟩

/-- **A reference that is forgotten**: `word` is referred to by a node that a lookahead scans.

**Proof sketch.** Both links are computed. The nonterminal that a lookahead scans is a reference after
the first one only. -/
theorem link_again_forgets : ¬ ∀ g : Grammar, g.mentionedIds.Nodup → ∀ ds ds' : Diagnostics, ∀ p,
    ((g.link ds).1.link ds').1.references p = (g.link ds).1.references p := by
  intro h
  have hshape : scannedWord.mentionedIds.Nodup := by decide +kernel
  have hfirst : (scannedWord.link {}).1.references 1 = [0] := by decide +kernel
  have hsecond : ((scannedWord.link {}).1.link {}).1.references 1 = [] := by decide +kernel
  have hsame := h scannedWord hshape {} {} 1
  rw [hfirst, hsecond] at hsame
  cases hsame

end Grammar

end GrammarForge
