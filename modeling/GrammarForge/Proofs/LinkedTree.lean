import GrammarForge.Compilation
import GrammarForge.Proofs.Derivations
import GrammarForge.Proofs.LinkedTokens

set_option autoImplicit false

/-!
# Linking and the tree

Linking goes down from the right side of every production. It gives each node below its parent and
its place there, and notes for each production which of these nodes refer to it. Nodes that do not
belong to a production are left alone.

## Main definitions

* `Grammar.InProduction` — a node belongs to a production.
* `Grammar.TreeShaped` — no node has two places.
* `Grammar.Placed` — a node knows its place.
* `Grammar.LinkStep` — what a step of linking keeps.
* `Grammar.Linked` — all nodes know their places, and productions what refers to them.

## Main results

* `Grammar.linkBelow_spec` — what going down from a node does.
* `Grammar.linked_of_acyclic` — a grammar is linked after linking.
-/

namespace GrammarForge

open Relation

namespace Grammar

/-- A node belongs to a production: it is the right side of one or below it. -/
def InProduction (g : Grammar) (i : NodeId) : Prop :=
  ∃ p root, g.body p = some root ∧ ReflTransGen (fun i j => j ∈ g.children i) root i

/-- **Grammars that are trees**: each node is at most once a child or the right side of a
production. -/
def TreeShaped (g : Grammar) : Prop :=
  (g.productions.toList.filterMap Production.expansion ++
    (List.range g.nodes.size).flatMap g.children).Nodup

instance (g : Grammar) : Decidable g.TreeShaped := inferInstanceAs (Decidable (List.Nodup _))

/-- One node is a part of another one. -/
def Part (g : Grammar) (i j : NodeId) : Prop := j ∈ (g.kind i).parts

/-- What a node hangs on, and where. -/
inductive Place (g : Grammar) (i : NodeId) : Parent → Nat → Prop
  | root {p index : Nat} : g.body p = some i → Place g i (.production p) index
  | part {q : NodeId} {index : Nat} : (g.kind q).parts[index]? = some i → Place g i (.node q) index

/-- A node knows its place. -/
def Placed (g : Grammar) (i : NodeId) : Prop := g.Place i (g.node i).parent (g.node i).index

/-- The nodes that refer to a production, as far as it is known. -/
def references (g : Grammar) (p : Nat) : List NodeId := (g.production p).references

/-- A node is known to the production that it refers to. -/
def Referred (g : Grammar) (i : NodeId) : Prop :=
  ∀ p < g.productions.size, g.productionOf? i = some p → i ∈ g.references p

/-! ## Changing nodes and productions -/

section

variable {g h : Grammar} {i j : NodeId}

/-- Two grammars have the same trees. -/
structure SameTree (g h : Grammar) : Prop where
  size : h.nodes.size = g.nodes.size
  kind : ∀ i, h.kind i = g.kind i
  count : h.productions.size = g.productions.size
  body : ∀ p, h.body p = g.body p

/-- The same tree. -/
lemma SameTree.refl (g : Grammar) : g.SameTree g := ⟨rfl, fun _ => rfl, rfl, fun _ => rfl⟩

/-- Trees stay the same over several changes. -/
lemma SameTree.trans {k : Grammar} (h₁ : g.SameTree h) (h₂ : h.SameTree k) : g.SameTree k :=
  ⟨h₂.size.trans h₁.size, fun i => (h₂.kind i).trans (h₁.kind i), h₂.count.trans h₁.count,
    fun p => (h₂.body p).trans (h₁.body p)⟩

/-- In the same tree nodes refer to the same productions. -/
lemma SameTree.productionOf? (hs : g.SameTree h) (i : NodeId) :
    h.productionOf? i = g.productionOf? i := by
  rw [Grammar.productionOf?, Grammar.productionOf?, hs.kind]

/-- The children of a node are its parts and what it scans, if that hangs on the node.

**Proof sketch.** By whether the node scans something. -/
lemma mem_children : j ∈ g.children i ↔
    g.Part i j ∨ ((g.kind i).scanned? = some j ∧ (g.node j).parent = .node i) := by
  rw [children, List.mem_append]
  refine or_congr_right ?_
  cases (g.kind i).scanned? with
  | none => simp
  | some e =>
    simp only [Option.some_inj]
    split_ifs with he
    · constructor
      · intro hj
        obtain rfl := List.mem_singleton.mp hj
        exact ⟨rfl, he⟩
      · rintro ⟨rfl, -⟩
        exact List.mem_singleton_self e
    · simp only [List.not_mem_nil, false_iff]
      rintro ⟨rfl, hparent⟩
      exact he hparent

/-- A node that refers to a production is a nonterminal. -/
lemma kind_of_productionOf? {p : Nat} (h : g.productionOf? i = some p) :
    ∃ name, g.kind i = .nonterminal name (some p) := by
  rw [Grammar.productionOf?] at h
  cases hk : g.kind i with
  | nonterminal name q =>
    rw [hk] at h
    exact ⟨name, by rw [← h]⟩
  | _ =>
    rw [hk] at h
    cases h

/-- Hanging a node on a parent keeps the tree. -/
lemma sameTree_setParent (g : Grammar) (i : NodeId) (parent : Parent) (index : Nat) :
    g.SameTree (g.setParent i parent index) := by
  refine ⟨by simp [setParent], fun j => ?_, rfl, fun p => rfl⟩
  rw [kind, setParent, node, getD_modify, kind, node]
  split_ifs <;> rfl

/-- Noting a reference keeps the tree. -/
lemma sameTree_addReference (g : Grammar) (p : Nat) (i : NodeId) :
    g.SameTree (g.addReference p i) := by
  refine ⟨rfl, fun j => rfl, by simp [addReference], fun q => ?_⟩
  rw [body, addReference, production, getD_modify, body, production]
  split_ifs <;> rfl

/-- Forgetting all references. -/
lemma clear_spec (g : Grammar) : g.SameTree { g with
      productions := g.productions.map fun p => { p with references := [] } } ∧
    ∀ p, ({ g with productions := g.productions.map fun p => { p with references := [] } } :
      Grammar).references p = [] := by
  have hproduction : ∀ p, (({ g with
        productions := g.productions.map fun p => { p with references := [] } } :
        Grammar).production p).expansion = (g.production p).expansion ∧
      (({ g with productions := g.productions.map fun p => { p with references := [] } } :
        Grammar).production p).references = [] := by
    intro p
    rw [production, production, Array.getD_eq_getD_getElem?, Array.getD_eq_getD_getElem?,
      Array.getElem?_map]
    cases g.productions[p]? <;> exact ⟨rfl, rfl⟩
  exact ⟨⟨rfl, fun _ => rfl, by simp, fun p => (hproduction p).1⟩, fun p => (hproduction p).2⟩

/-- Linking the tree keeps it. -/
lemma sameTree_setParents (g : Grammar) : g.SameTree g.setParents :=
  KeptByLinking.setParents ⟨SameTree.refl, SameTree.trans, sameTree_setParent,
    sameTree_addReference, fun g => (clear_spec g).1⟩ g

/-- A place in a tree is one in the same tree. -/
lemma Place.congr (hs : g.SameTree h) {parent : Parent} {index : Nat}
    (hp : g.Place i parent index) : h.Place i parent index := by
  cases hp with
  | root hb => exact .root ((hs.body _).trans hb)
  | part hq => exact .part (by rw [hs.kind]; exact hq)

/-- **What a step of linking keeps**: the trees, places and references found before. New references
come from nodes of `below` that refer to the production. -/
structure LinkStep (below : NodeId → Prop) (g h : Grammar) : Prop where
  same : g.SameTree h
  placed : ∀ {i}, g.Placed i → h.Placed i
  kept : ∀ {p i}, i ∈ g.references p → i ∈ h.references p
  added : ∀ {p i}, i ∈ h.references p →
    i ∈ g.references p ∨ (below i ∧ g.productionOf? i = some p)

variable {below : NodeId → Prop}

/-- Nothing has been linked. -/
lemma LinkStep.refl (below : NodeId → Prop) (g : Grammar) : LinkStep below g g :=
  ⟨SameTree.refl g, id, id, Or.inl⟩

/-- Linking goes on. -/
lemma LinkStep.trans {k : Grammar} (h₁ : LinkStep below g h) (h₂ : LinkStep below h k) :
    LinkStep below g k where
  same := h₁.same.trans h₂.same
  placed hi := h₂.placed (h₁.placed hi)
  kept hi := h₂.kept (h₁.kept hi)
  added hi := by
    rcases h₂.added hi with hi | ⟨hb, hp⟩
    · exact h₁.added hi
    · exact Or.inr ⟨hb, (h₁.same.productionOf? _).symm.trans hp⟩

/-- A reference that has been noted stays noted. -/
lemma LinkStep.referred (hstep : LinkStep below g h) (hi : g.Referred i) : h.Referred i := by
  intro p hp hof
  rw [hstep.same.count] at hp
  rw [hstep.same.productionOf?] at hof
  exact hstep.kept (hi p hp hof)

/-- **Hanging a node on a parent**, at the right place.

**Proof sketch.** Only the parent and the index of the node change, so that the tree is the same; the
node is placed, and others that were placed stay so. -/
lemma linkStep_setParent {parent : Parent} {index : Nat} (hplace : g.Place i parent index) :
    LinkStep below g (g.setParent i parent index) ∧
      (i < g.nodes.size → (g.setParent i parent index).Placed i) := by
  have hnode : ∀ j, (g.setParent i parent index).node j =
      if j = i ∧ i < g.nodes.size then { g.node j with parent, index } else g.node j :=
    fun j => getD_modify g.nodes i j _
  have hsame := sameTree_setParent g i parent index
  have hplaced : i < g.nodes.size → (g.setParent i parent index).Placed i := by
    intro hi
    rw [Placed, hnode, if_pos ⟨rfl, hi⟩]
    exact hplace.congr hsame
  refine ⟨⟨hsame, fun {j} hj => ?_, id, Or.inl⟩, hplaced⟩
  by_cases hji : j = i ∧ i < g.nodes.size
  · obtain ⟨rfl, hi⟩ := hji
    exact hplaced hi
  · rw [Placed, hnode, if_neg hji]
    exact Place.congr hsame hj

/-- **Noting a reference.**

**Proof sketch.** Only the references of one production change, by one more at the end; the node refers
to this production alone. -/
lemma linkStep_addReference {p : Nat} (hb : below i) (hof : g.productionOf? i = some p) :
    LinkStep below g (g.addReference p i) ∧ (g.addReference p i).Referred i := by
  have hproduction : ∀ q, (g.addReference p i).production q =
      if q = p ∧ p < g.productions.size then
        { g.production q with references := (g.production q).references ++ [i] }
      else g.production q := fun q => getD_modify g.productions p q _
  have hsame := sameTree_addReference g p i
  refine ⟨⟨hsame, fun hj => Place.congr hsame hj, fun {q j} hj => ?_, fun {q j} hj => ?_⟩,
    fun q hq hofq => ?_⟩
  · rw [references, hproduction]
    split_ifs
    · exact List.mem_append_left _ hj
    · exact hj
  · rw [references, hproduction] at hj
    split_ifs at hj with hqp
    · rcases List.mem_append.mp hj with hj | hj
      · exact Or.inl hj
      · rw [List.mem_singleton.mp hj, hqp.1]
        exact Or.inr ⟨hb, hof⟩
    · exact Or.inl hj
  · rw [hsame.count] at hq
    rw [hsame.productionOf?, hof] at hofq
    obtain rfl := Option.some_inj.mp hofq
    rw [references, hproduction, if_pos ⟨rfl, hq⟩]
    exact List.mem_append_right _ (List.mem_singleton_self i)

/-- Hanging nodes on their parent from left to right.

**Proof sketch.** Induction on the nodes that are hung: each gets its place, and the others keep theirs.
-/
lemma linkStep_hang (q : NodeId) (places : List (NodeId × Nat)) : ∀ {g : Grammar},
    (∀ x ∈ places, (g.kind q).parts[x.2]? = some x.1 ∧ x.1 < g.nodes.size) →
    LinkStep below g (places.foldl (fun g (x : NodeId × Nat) => g.setParent x.1 (.node q) x.2) g) ∧
      ∀ x ∈ places,
        (places.foldl (fun g (x : NodeId × Nat) => g.setParent x.1 (.node q) x.2) g).Placed x.1 := by
  induction places with
  | nil => exact fun _ => ⟨LinkStep.refl below _, by simp⟩
  | cons x places ih =>
    intro g hplaces
    obtain ⟨hplace, hlt⟩ := hplaces x List.mem_cons_self
    obtain ⟨hstep, hplaced⟩ : LinkStep below g _ ∧ _ := linkStep_setParent (.part hplace)
    obtain ⟨hrest, hall⟩ := @ih (g.setParent x.1 (.node q) x.2) fun y hy => by
      rw [hstep.same.kind, hstep.same.size]
      exact hplaces y (List.mem_cons_of_mem x hy)
    refine ⟨hstep.trans hrest, fun y hy => ?_⟩
    rcases List.mem_cons.mp hy with rfl | hy
    · exact hrest.placed (hplaced hlt)
    · exact hall y hy

/-- **Hanging the parts of a node on it.** -/
lemma linkStep_hangAll {q : NodeId} {ids : List NodeId} (hids : (g.kind q).parts = ids)
    (hlt : ∀ i ∈ ids, i < g.nodes.size) :
    LinkStep below g (g.hangAll q ids) ∧ ∀ i ∈ ids, (g.hangAll q ids).Placed i := by
  have hplaces : ∀ x ∈ ids.zipIdx, (g.kind q).parts[x.2]? = some x.1 ∧ x.1 < g.nodes.size := by
    intro x hx
    have hget := List.mem_zipIdx_iff_getElem?.mp hx
    exact ⟨hids ▸ hget, hlt _ (List.mem_of_getElem? hget)⟩
  obtain ⟨hstep, hplaced⟩ : LinkStep below g _ ∧ _ := linkStep_hang q ids.zipIdx hplaces
  refine ⟨hstep, fun i hi => ?_⟩
  obtain ⟨n, hn⟩ := List.mem_iff_getElem?.mp hi
  exact hplaced (i, n) (List.mem_zipIdx_iff_getElem?.mpr hn)

/-- A node below another one knows its place and is known to its production. -/
def Settled (g : Grammar) (i : NodeId) : Prop := g.Placed i ∧ g.Referred i

/-- What is settled stays settled. -/
lemma LinkStep.settled (hstep : LinkStep below g h) (hi : g.Settled i) : h.Settled i :=
  ⟨hstep.placed hi.1, hstep.referred hi.2⟩

/-- A grammar in which lookaheads have nothing to scan, and nodes and right sides exist. -/
structure Linkable (g : Grammar) : Prop where
  scanned : ∀ i, (g.kind i).scanned? = none
  part_lt : ∀ {i j}, g.Part i j → j < g.nodes.size
  root_lt : ∀ {p root}, g.body p = some root → root < g.nodes.size

/-- What can be linked can be linked in the same tree. -/
lemma SameTree.linkable (hs : g.SameTree h) (hg : g.Linkable) : h.Linkable where
  scanned i := by
    rw [hs.kind]
    exact hg.scanned i
  part_lt hij := by
    rw [Part, hs.kind] at hij
    rw [hs.size]
    exact hg.part_lt hij
  root_lt hroot := by
    rw [hs.body] at hroot
    rw [hs.size]
    exact hg.root_lt hroot

/-- In a linkable grammar only parts hang on a node. -/
lemma Linkable.hanging (hg : g.Linkable) (i : NodeId) : g.hanging i = (g.kind i).parts := by
  rw [Grammar.hanging, hg.scanned, List.append_nil]

/-- The node is noted by the production that it refers to, if it is a nonterminal. -/
def noteReference (g : Grammar) (i : NodeId) : Grammar :=
  match g.productionOf? i with
  | some p => g.addReference p i
  | none => g

/-- Noting the reference of a node, if it is one. -/
lemma linkStep_noteReference (hb : below i) :
    LinkStep below h (h.noteReference i) ∧ (h.noteReference i).Referred i := by
  rw [noteReference]
  cases hof : h.productionOf? i with
  | none =>
    refine ⟨LinkStep.refl below h, fun p _ hp => ?_⟩
    rw [hof] at hp
    cases hp
  | some p => exact linkStep_addReference hb hof

/-- What linking does below a node: all nodes there are settled. -/
def SettlesBelow (below : NodeId → Prop) (g h : Grammar) (i : NodeId) : Prop :=
  LinkStep below g h ∧ h.Referred i ∧ ∀ j, TransGen g.Part i j → h.Settled j

/-- In the same tree nodes have the same parts. -/
lemma SameTree.part (hs : g.SameTree h) : h.Part = g.Part := by
  funext i j
  rw [Part, Part, hs.kind]

/-- Linking below several nodes, one after the other.

**Proof sketch.** Induction on the nodes: what is settled below the first one stays settled while the
others are linked. -/
lemma linkBelow_foldl {depth : Nat} {ids : List NodeId}
    (hone : ∀ i ∈ ids, ∀ h : Grammar, g.SameTree h → SettlesBelow below h (linkBelow depth h i) i) :
    ∀ {h : Grammar}, g.SameTree h → LinkStep below h (ids.foldl (linkBelow depth) h) ∧
      ∀ i ∈ ids, (ids.foldl (linkBelow depth) h).Referred i ∧
        ∀ j, TransGen g.Part i j → (ids.foldl (linkBelow depth) h).Settled j := by
  induction ids with
  | nil => exact fun _ => ⟨LinkStep.refl below _, by simp⟩
  | cons i ids ih =>
    intro h hs
    obtain ⟨hstep, href, hset⟩ := hone i List.mem_cons_self h hs
    obtain ⟨hrest, hall⟩ := ih (fun j hj => hone j (List.mem_cons_of_mem i hj))
      (hs.trans hstep.same)
    refine ⟨hstep.trans hrest, fun j hj => ?_⟩
    rcases List.mem_cons.mp hj with rfl | hj
    · refine ⟨hrest.referred href, fun x hx => hrest.settled (hset x ?_)⟩
      rwa [hs.part]
    · exact hall j hj

/-- **Linking below a node** settles all nodes there.

**Proof sketch.** Induction on the depth, which is more than the rank of the node. The parts of the
node are hung on it first, then linking goes on below each of them; what has been found out once is
kept. -/
lemma linkBelow_spec {rank : Nat → Nat} (hrank : ∀ i j, below i → g.Part i j → rank j < rank i)
    (hlink : g.Linkable) (hbelow : ∀ {i j}, below i → g.Part i j → below j) (depth : Nat) :
    ∀ {i : NodeId} {h : Grammar}, g.SameTree h → below i → rank i < depth →
      SettlesBelow below h (linkBelow depth h i) i := by
  induction depth with
  | zero => exact fun _ _ hr => absurd hr (Nat.not_lt_zero _)
  | succ depth ih =>
    intro i h hs hb hr
    have hhang : h.hanging i = (g.kind i).parts := by
      rw [(hs.linkable hlink).hanging, hs.kind]
    obtain ⟨hstep₁, href⟩ := linkStep_noteReference (h := h) hb
    have hs₁ := hs.trans hstep₁.same
    -- the parts are hung on the node
    have hparts : ((h.noteReference i).kind i).parts = (g.kind i).parts := by rw [hs₁.kind]
    obtain ⟨hstep₂, hplaced⟩ : LinkStep below (h.noteReference i) _ ∧ _ := linkStep_hangAll hparts fun j hj => by
      rw [hs₁.size]
      exact hlink.part_lt hj
    have hs₂ := hs₁.trans hstep₂.same
    -- linking goes on below the parts
    obtain ⟨hstep₃, hall⟩ := linkBelow_foldl (fun j hj h' hs' => ih hs' (hbelow hb hj)
      ((hrank i j hb hj).trans_le (Nat.lt_succ_iff.mp hr))) hs₂
    have hrun : linkBelow (depth + 1) h i =
        (g.kind i).parts.foldl (linkBelow depth)
          ((h.noteReference i).hangAll i (g.kind i).parts) := by
      rw [← hhang]
      rfl
    rw [hrun]
    refine ⟨(hstep₁.trans hstep₂).trans hstep₃, (hstep₂.trans hstep₃).referred href, fun j hj => ?_⟩
    rw [hs.part] at hj
    obtain ⟨x, hx, hxj⟩ := TransGen.head'_iff.mp hj
    obtain ⟨hrefx, hset⟩ := hall x hx
    rcases reflTransGen_iff_eq_or_transGen.mp hxj with rfl | hxj
    · exact ⟨hstep₃.placed (hplaced _ hx), hrefx⟩
    · exact hset j hxj

/-- A node is the right side of a production or below it. -/
def OnTree (g : Grammar) (i : NodeId) : Prop :=
  ∃ p root, g.body p = some root ∧ ReflTransGen g.Part root i

/-- A part of a node on the tree is on the tree. -/
lemma OnTree.part (h : g.OnTree i) (hij : g.Part i j) : g.OnTree j := by
  obtain ⟨p, root, hroot, hpath⟩ := h
  exact ⟨p, root, hroot, hpath.tail hij⟩

/-- Only productions of the grammar have right sides. -/
lemma lt_of_body {p : Nat} {root : NodeId} (h : g.body p = some root) : p < g.productions.size := by
  by_contra hge
  rw [body, production, Array.getD_eq_getD_getElem?, Array.getElem?_eq_none (Nat.not_lt.mp hge)] at h
  cases h

/-- Linking one production settles its nodes.

**Proof sketch.** The root is hung on the production, and then all below it is linked; the depth
suffices, since the ranks go down along parts. -/
lemma linkProduction_spec {rank : Nat → Nat} (hle : ∀ i, rank i ≤ g.nodes.size)
    (hrank : ∀ i j, g.OnTree i → g.Part i j → rank j < rank i) (hlink : g.Linkable) (hs : g.SameTree h) (p : Nat) :
    LinkStep g.OnTree h (h.linkProduction p) ∧ ∀ {root}, g.body p = some root →
      ∀ j, ReflTransGen g.Part root j → (h.linkProduction p).Settled j := by
  rw [linkProduction, hs.body]
  cases hroot : g.body p with
  | none => exact ⟨LinkStep.refl _ h, fun h => by cases h⟩
  | some root =>
    have hbody : h.body p = some root := (hs.body p).trans hroot
    obtain ⟨hstep, hplaced⟩ : LinkStep g.OnTree h (h.setParent root (.production p) 0) ∧ _ :=
      linkStep_setParent (.root hbody)
    have hdepth : rank root < h.linkDepth := by
      rw [linkDepth, hs.size]
      exact (Nat.lt_succ_of_le (hle root)).trans_le (Nat.le_mul_of_pos_right _ (Nat.succ_pos _))
    obtain ⟨hbelow, href, hset⟩ : SettlesBelow g.OnTree _ _ root :=
      linkBelow_spec hrank hlink OnTree.part h.linkDepth (hs.trans hstep.same) ⟨p, root, hroot, .refl⟩ hdepth
    refine ⟨hstep.trans hbelow, fun hroot' j hj => ?_⟩
    obtain rfl := Option.some_inj.mp hroot'
    rcases reflTransGen_iff_eq_or_transGen.mp hj with rfl | hj
    · refine ⟨hbelow.placed (hplaced ?_), href⟩
      rw [hs.size]
      exact hlink.root_lt hroot
    · refine hset j ?_
      rwa [(hs.trans hstep.same).part]

/-- Linking several productions, one after the other. -/
lemma linkProduction_foldl {rank : Nat → Nat} (hle : ∀ i, rank i ≤ g.nodes.size)
    (hrank : ∀ i j, g.OnTree i → g.Part i j → rank j < rank i) (hlink : g.Linkable) (ps : List Nat) :
    ∀ {h : Grammar}, g.SameTree h → LinkStep g.OnTree h (ps.foldl linkProduction h) ∧
      ∀ p ∈ ps, ∀ {root}, g.body p = some root → ∀ j, ReflTransGen g.Part root j →
        (ps.foldl linkProduction h).Settled j := by
  induction ps with
  | nil => exact fun _ => ⟨LinkStep.refl _ _, by simp⟩
  | cons p ps ih =>
    intro h hs
    obtain ⟨hstep, hone⟩ := linkProduction_spec hle hrank hlink hs p
    obtain ⟨hrest, hall⟩ := ih (hs.trans hstep.same)
    refine ⟨hstep.trans hrest, fun q hq root hroot j hj => ?_⟩
    rcases List.mem_cons.mp hq with rfl | hq
    · exact hrest.settled (hone hroot j hj)
    · exact hall q hq hroot j hj

/-- **Setting all parents** settles the nodes of all productions, and these alone are noted as
references. -/
lemma setParents_spec {rank : Nat → Nat} (hle : ∀ i, rank i ≤ g.nodes.size)
    (hrank : ∀ i j, g.OnTree i → g.Part i j → rank j < rank i) (hlink : g.Linkable) :
    (∀ i, g.OnTree i → g.setParents.Settled i) ∧
      ∀ p i, i ∈ g.setParents.references p → g.OnTree i ∧ g.productionOf? i = some p := by
  obtain ⟨hsame, hnone⟩ := clear_spec g
  obtain ⟨hstep, hall⟩ :=
    linkProduction_foldl hle hrank hlink (List.range g.productions.size) hsame
  refine ⟨?_, fun p i hi => ?_⟩
  · rintro i ⟨p, root, hroot, hpath⟩
    exact hall p (List.mem_range.mpr (lt_of_body hroot)) hroot i hpath
  · rcases hstep.added hi with hi | ⟨hon, hof⟩
    · rw [hnone] at hi
      cases hi
    · exact ⟨hon, (hsame.productionOf? i).symm.trans hof⟩

/-! ## Names and defaults -/

/-- Resolving names makes some nodes tokens or nonterminals, which have no parts and are no lookaheads,
and changes nothing else in the tree. -/
structure Resolves (g h : Grammar) : Prop where
  size : h.nodes.size = g.nodes.size
  productions : h.productions = g.productions
  kind : ∀ i, h.kind i = g.kind i ∨ ((h.kind i).parts = [] ∧ (h.kind i).isLookahead = false)

/-- Nothing has been resolved. -/
lemma Resolves.refl (g : Grammar) : g.Resolves g := ⟨rfl, rfl, fun _ => Or.inl rfl⟩

/-- Resolving goes on. -/
lemma Resolves.trans {k : Grammar} (h₁ : g.Resolves h) (h₂ : h.Resolves k) : g.Resolves k := by
  refine ⟨h₂.size.trans h₁.size, h₂.productions.trans h₁.productions, fun i => ?_⟩
  rcases h₂.kind i with heq | hnone
  · rw [heq]
    exact h₁.kind i
  · exact Or.inr hnone

/-- Looking up names makes no lookaheads. -/
lemma Resolves.lookahead {spec : LookaheadSpec} (hr : g.Resolves h) (hk : h.kind i = .lookahead spec) :
    g.kind i = .lookahead spec := by
  rcases hr.kind i with heq | ⟨-, hnot⟩
  · exact heq.symm.trans hk
  · rw [hk] at hnot
    cases hnot

/-- A node may be given another kind without parts that is no lookahead. -/
lemma resolves_setKind {kind : NodeKind} (hparts : kind.parts = []) (hscan : kind.isLookahead = false)
    (g : Grammar) (i : NodeId) : g.Resolves (g.setKind i kind) := by
  have hnode : ∀ j, (g.setKind i kind).node j =
      if j = i ∧ i < g.nodes.size then { g.node j with kind } else g.node j :=
    fun j => getD_modify g.nodes i j _
  refine ⟨by simp [setKind], rfl, fun j => ?_⟩
  rw [Grammar.kind, hnode, Grammar.kind]
  split_ifs
  · exact Or.inr ⟨hparts, hscan⟩
  · exact Or.inl rfl

/-- What each step of a fold resolves, the whole fold resolves. -/
lemma resolves_foldl {α : Type} {step : Reported → α → Reported}
    (hstep : ∀ (r : Reported) x, r.1.Resolves (step r x).1) (xs : List α) (r : Reported) :
    r.1.Resolves (xs.foldl step r).1 :=
  List.foldlRecOn (motive := fun r' : Reported => r.1.Resolves r'.1) xs step (Resolves.refl r.1)
    fun _ hr x _ => hr.trans (hstep _ x)

/-- **Looking up names** resolves.

**Proof sketch.** Resolving expressions concerns no nodes; the others give kinds without parts to nodes
that had none. -/
lemma resolves_names (r : Reported) : r.1.Resolves
    (resolveNonterminals (resolveTokenRefs (resolveRegexNames (reportDeferred r)))).1 := by
  obtain ⟨g, ds⟩ := r
  set r₂ := resolveRegexNames (reportDeferred (g, ds)) with hr₂
  have h₂ : g.Resolves r₂.1 := ⟨rfl, rfl, fun _ => Or.inl rfl⟩
  have h₃ : r₂.1.Resolves (resolveTokenRefs r₂).1 := by
    have hcleared : r₂.1.Resolves { r₂.1 with tokenRefs := [] } := ⟨rfl, rfl, fun _ => Or.inl rfl⟩
    refine hcleared.trans (resolves_foldl (fun r x => ?_) _ ({ r₂.1 with tokenRefs := [] }, r₂.2))
    rw [resolveTokenRef]
    cases r.1.tokens.findIdx? (·.label = some x.2) with
    | some ordinal => exact resolves_setKind rfl rfl _ _
    | none => exact Resolves.refl _
  have h₄ : (resolveTokenRefs r₂).1.Resolves (resolveNonterminals (resolveTokenRefs r₂)).1 := by
    refine resolves_foldl (fun r x => ?_) _ (resolveTokenRefs r₂)
    rw [resolveNonterminal]
    split
    · split
      · exact resolves_setKind rfl rfl _ _
      · exact Resolves.refl _
    · exact Resolves.refl _
  exact (h₂.trans h₃).trans h₄

/-- **The steps of linking**: names are looked up, parents set, lookaheads completed and productions
marked. -/
lemma exists_link_eq (g : Grammar) (ds : Diagnostics) : ∃ k, g.Resolves k ∧
    (g.link ds).1 = { k.setParents.fillLookaheadDefaults.computeNullable with linked := true } :=
  ⟨_, resolves_names (g, ds), rfl⟩

/-- A grammar has the nodes that it mentions, if none of them is unknown. -/
lemma lt_of_mem_mentionedIds (hids : g.unknownId? = none) (hi : i ∈ g.mentionedIds) :
    i < g.nodes.size := by
  simpa using List.find?_eq_none.mp hids i hi

/-- A part is mentioned. -/
lemma mem_mentionedIds_of_part (h : j ∈ (g.kind i).parts) : j ∈ g.mentionedIds := by
  have hi : i < g.nodes.size := lt_size_of_kind fun code hk => by
    rw [hk] at h
    cases h
  have hnode : g.nodes[i] ∈ g.nodes.toList := Array.mem_toList_iff.mpr (Array.getElem_mem hi)
  have hkind : g.kind i = g.nodes[i].kind := by simp [kind, node, hi]
  rw [hkind] at h
  exact List.mem_append_right _
    (List.mem_flatMap.mpr ⟨_, hnode, List.mem_append_left _ h⟩)

/-- The right side of a production is mentioned. -/
lemma mem_mentionedIds_of_body {p : Nat} (h : g.body p = some i) : i ∈ g.mentionedIds := by
  have hp : p < g.productions.size := lt_of_body h
  have hproduction : g.productions[p] ∈ g.productions.toList :=
    Array.mem_toList_iff.mpr (Array.getElem_mem hp)
  have hbody : g.productions[p].expansion = some i := by simpa [body, production, hp] using h
  exact List.mem_append_left _ (List.mem_filterMap.mpr ⟨_, hproduction, hbody⟩)

/-- A grammar that mentions only nodes it has, and whose lookaheads have nothing to scan, can be
linked after its names have been looked up.

**Proof sketch.** Parts and right sides are as before or gone, and what is mentioned is a node of the
grammar. A lookahead is one of before, so that it has nothing to scan. -/
lemma Resolves.linkable (hr : g.Resolves h) (hids : g.unknownId? = none)
    (hscan : ∀ {i spec}, g.kind i = .lookahead spec → spec.expansion = none) : h.Linkable := by
  refine ⟨fun i => ?_, fun {i j} hij => ?_, fun {p root} hroot => ?_⟩
  · cases hk : h.kind i with
    | lookahead spec => exact hscan (hr.lookahead hk)
    | _ => rfl
  · rw [Part] at hij
    rw [hr.size]
    rcases hr.kind i with heq | ⟨hnil, -⟩
    · rw [heq] at hij
      exact lt_of_mem_mentionedIds hids (mem_mentionedIds_of_part hij)
    · rw [hnil] at hij
      cases hij
  · rw [body, production, hr.productions] at hroot
    rw [hr.size]
    exact lt_of_mem_mentionedIds hids (mem_mentionedIds_of_body hroot)

/-- Completing lookaheads and marking productions changes neither parts nor places. -/
structure Completes (g h : Grammar) : Prop where
  parent : ∀ i, (h.node i).parent = (g.node i).parent
  index : ∀ i, (h.node i).index = (g.node i).index
  kind : ∀ i, h.kind i = g.kind i ∨ ∃ spec, g.kind i = .lookahead spec ∧ h.kind i =
    .lookahead { spec with expansion := some (spec.expansion.getD (defaultExpansion (g.node i) i)) }
  body : ∀ p, h.body p = g.body p
  references : ∀ p, h.references p = g.references p

namespace Completes

/-- Completing keeps the parts of nodes. -/
lemma parts (hc : g.Completes h) (i : NodeId) : (h.kind i).parts = (g.kind i).parts := by
  rcases hc.kind i with heq | ⟨spec, hk, hk'⟩
  · rw [heq]
  · rw [hk, hk']
    rfl

/-- Completing keeps which nodes are parts of which. -/
lemma part (hc : g.Completes h) : h.Part = g.Part := by
  funext i j
  rw [Part, Part, hc.parts]

/-- Completing keeps the productions that nodes refer to. -/
lemma productionOf? (hc : g.Completes h) (i : NodeId) : h.productionOf? i = g.productionOf? i := by
  rcases hc.kind i with heq | ⟨spec, hk, hk'⟩
  · rw [Grammar.productionOf?, Grammar.productionOf?, heq]
  · rw [Grammar.productionOf?, Grammar.productionOf?, hk, hk']

/-- What is scanned only after completing is the default. -/
lemma scanned (hc : g.Completes h) {e : NodeId} (hnone : (g.kind i).scanned? = none)
    (hsome : (h.kind i).scanned? = some e) : e = defaultExpansion (g.node i) i := by
  rcases hc.kind i with heq | ⟨spec, hk, hk'⟩
  · rw [heq, hnone] at hsome
    cases hsome
  · rw [hk] at hnone
    have hexpansion : spec.expansion = none := hnone
    rw [hk', NodeKind.scanned?, hexpansion] at hsome
    exact (Option.some_inj.mp hsome).symm

/-- Completing keeps the places of nodes. -/
lemma place (hc : g.Completes h) {parent : Parent} {index : Nat} (hp : g.Place i parent index) :
    h.Place i parent index := by
  cases hp with
  | root hb => exact .root ((hc.body _).trans hb)
  | part hq => exact .part (by rw [hc.parts]; exact hq)

end Completes

/-- A node after the defaults of lookaheads have been filled in. -/
lemma node_fillLookaheadDefaults (g : Grammar) (i : NodeId) :
    g.fillLookaheadDefaults.node i = completeLookahead (g.node i) i := by
  rw [fillLookaheadDefaults, node, node, Array.getD_eq_getD_getElem?, Array.getD_eq_getD_getElem?,
    Array.getElem?_mapIdx]
  cases g.nodes[i]? <;> rfl

/-- A production after one has been marked. -/
lemma production_setNullable (g : Grammar) (p q : Nat) : (g.setNullable p).production q =
    if q = p ∧ p < g.productions.size then { g.production q with nullable := true }
    else g.production q :=
  getD_modify g.productions p q _

/-- Marking productions changes neither their right sides nor their references. -/
lemma computeNullable_frame (g : Grammar) : g.computeNullable.nodes = g.nodes ∧
    ∀ p, (g.computeNullable.production p).expansion = (g.production p).expansion ∧
      (g.computeNullable.production p).references = (g.production p).references := by
  refine computeNullable_induction (P := fun h => h.nodes = g.nodes ∧
    ∀ p, (h.production p).expansion = (g.production p).expansion ∧
      (h.production p).references = (g.production p).references) ?_ ⟨rfl, fun p => ⟨rfl, rfl⟩⟩
  rintro h q ⟨hnodes, hproduction⟩ -
  refine ⟨hnodes, fun p => ?_⟩
  rw [production_setNullable]
  split_ifs
  · exact hproduction p
  · exact hproduction p

/-- The last steps of linking complete every lookahead. -/
lemma node_last (g : Grammar) (i : NodeId) :
    ({ g.fillLookaheadDefaults.computeNullable with linked := true } : Grammar).node i =
      completeLookahead (g.node i) i := by
  have hnodes := (computeNullable_frame g.fillLookaheadDefaults).1
  rw [← node_fillLookaheadDefaults, node, node]
  exact congrArg (fun xs : Array Node => xs.getD i default) hnodes

/-- The last steps of linking complete the grammar. -/
lemma completes_last (g : Grammar) :
    g.Completes { g.fillLookaheadDefaults.computeNullable with linked := true } := by
  have hproduction := (computeNullable_frame g.fillLookaheadDefaults).2
  refine ⟨fun i => ?_, fun i => ?_, fun i => ?_, fun p => (hproduction p).1, fun p => (hproduction p).2⟩
  · rw [node_last, completeLookahead]
    split <;> rfl
  · rw [node_last, completeLookahead]
    split <;> rfl
  · rw [kind, node_last, completeLookahead, kind]
    split
    · exact Or.inr ⟨_, by assumption, rfl⟩
    · exact Or.inl rfl

/-- **Linking gives a lookahead something to scan**, and changes nothing else in it.

**Proof sketch.** The node was a lookahead before, since neither names nor parents make one. What it
scans is filled in if it had nothing. -/
lemma lookahead_link {ds : Diagnostics} {spec : LookaheadSpec}
    (hk : (g.link ds).1.kind i = .lookahead spec) :
    ∃ spec₀, g.kind i = .lookahead spec₀ ∧ spec = { spec₀ with
      expansion := some (spec₀.expansion.getD (defaultExpansion ((g.link ds).1.node i) i)) } := by
  obtain ⟨k, hnames, hlink⟩ := g.exists_link_eq ds
  have hparent : ((g.link ds).1.node i).parent = (k.setParents.node i).parent := by
    rw [hlink]
    exact (completes_last k.setParents).parent i
  -- looking up names and setting parents made no lookahead, so there was one before
  rw [hlink, kind, node_last, completeLookahead] at hk
  split at hk
  · next spec₀ hspec =>
    refine ⟨spec₀, hnames.lookahead (((sameTree_setParents k).kind i).symm.trans hspec), ?_⟩
    obtain rfl := NodeKind.lookahead.inj hk
    rw [defaultExpansion, defaultExpansion, hparent]
  · next hnot => exact absurd hk (hnot spec)

/-- **A linked grammar**: the nodes of productions know their places, and productions know which of
these nodes refer to them. -/
structure Linked (g : Grammar) : Prop where
  onTree : ∀ i, g.InProduction i ↔ g.OnTree i
  placed : ∀ {i}, g.OnTree i → g.Placed i
  mem_references : ∀ {p i}, i ∈ g.references p ↔ g.OnTree i ∧ g.productionOf? i = some p

/-- **A grammar is linked after linking**, if the nodes of its productions are not below themselves,
nonterminals have productions with a right side, and lookaheads have nothing to scan of their own.

**Proof sketch.** Setting parents settles the nodes of all productions, and the last steps keep what
has been found. What linking makes a lookahead scan is above it, so it is not a child: the tree would
have a cycle. -/
lemma linked_of_acyclic {ds : Diagnostics} (hids : g.unknownId? = none)
    (hscan : ∀ {i spec}, g.kind i = .lookahead spec → spec.expansion = none)
    (hresolved : ∀ {i name p}, (g.link ds).1.kind i = .nonterminal name p →
      ∃ q root, p = some q ∧ (g.link ds).1.body q = some root)
    (hacyclic : ∀ i, (g.link ds).1.OnTree i →
      ¬ TransGen (fun i j => j ∈ (g.link ds).1.children i) i i) : (g.link ds).1.Linked := by
  set h := (resolveNonterminals (resolveTokenRefs (resolveRegexNames (reportDeferred (g, ds))))).1
    with hh
  have hlink : h.Linkable := (resolves_names (g, ds)).linkable hids hscan
  have hc : h.setParents.Completes (g.link ds).1 := completes_last h.setParents
  generalize (g.link ds).1 = k at hresolved hacyclic hc ⊢
  have hsame := sameTree_setParents h
  have hpart : k.Part = h.Part := hc.part.trans hsame.part
  have hon : ∀ {i}, k.OnTree i ↔ h.OnTree i := by
    intro i
    simp only [OnTree, hpart, hc.body, hsame.body]
  obtain ⟨rank, hle, hrank⟩ : ∃ rank : Nat → Nat, (∀ i, rank i ≤ h.nodes.size) ∧
      ∀ i j, h.OnTree i ∧ h.Part i j → rank j < rank i := by
    refine exists_rank (fun i j hij => lt_size_of_kind fun code hk => ?_) fun i hcycle => ?_
    · have hpartij := hij.2
      rw [Part, hk] at hpartij
      cases hpartij
    · obtain ⟨x, ⟨hx, -⟩, -⟩ := TransGen.head'_iff.mp hcycle
      refine hacyclic i (hon.mpr hx) (TransGen.mono (fun x y hxy => ?_) _ _ hcycle)
      exact mem_children.mpr (Or.inl (hpart ▸ hxy.2))
  obtain ⟨hsettled, hrefs⟩ := setParents_spec hle (fun i j hi hij => hrank i j ⟨hi, hij⟩) hlink
  -- what a lookahead was made to scan is the lookahead itself or the node that it is a part of
  have hnotScanned : ∀ {i j}, k.OnTree i → j ∈ k.children i → (k.kind i).scanned? ≠ some j := by
    intro i j hi hchild hscanned
    have hplaced := (hsettled i (hon.mp hi)).1
    have hnone : (h.setParents.kind i).scanned? = none := by
      rw [hsame.kind]
      exact hlink.scanned i
    have hj := hc.scanned hnone hscanned
    rw [Placed] at hplaced
    rw [defaultExpansion] at hj
    generalize (h.setParents.node i).parent = parent at hplaced hj
    cases hplaced with
    | root _ =>
      obtain rfl : j = i := hj
      exact hacyclic j hi (.single hchild)
    | @part q index hq =>
      obtain rfl : j = q := hj
      have hi' : i ∈ (k.kind j).parts := by
        rw [hc.parts]
        exact List.mem_of_getElem? hq
      exact hacyclic i hi (.tail (.single hchild) (List.mem_append_left _ hi'))
  refine ⟨fun i => ⟨?_, ?_⟩, fun {i} hi => ?_, fun {p i} => ⟨fun hi => ?_, fun hi => ?_⟩⟩
  · rintro ⟨p, root, hroot, hpath⟩
    induction hpath with
    | refl => exact ⟨p, root, hroot, .refl⟩
    | @tail i j _ hj ih =>
      rcases mem_children.mp hj with hpartj | ⟨hscanned, -⟩
      · exact ih.part hpartj
      · exact absurd hscanned (hnotScanned ih hj)
  · rintro ⟨p, root, hroot, hpath⟩
    exact ⟨p, root, hroot, ReflTransGen.mono (fun _ _ hj => List.mem_append_left _ hj) _ _ hpath⟩
  · rw [Placed, hc.parent, hc.index]
    exact hc.place (hsettled i (hon.mp hi)).1
  · rw [hc.references] at hi
    obtain ⟨hi, hof⟩ := hrefs p i hi
    refine ⟨hon.mpr hi, ?_⟩
    rw [hc.productionOf?, hsame.productionOf?, hof]
  · obtain ⟨hi, hof⟩ := hi
    rw [hc.references]
    refine (hsettled i (hon.mp hi)).2 p ?_ ((hc.productionOf? i).symm.trans hof)
    obtain ⟨name, hk⟩ := kind_of_productionOf? hof
    obtain ⟨q, root, hq, hroot⟩ := hresolved hk
    obtain rfl := Option.some_inj.mp hq
    exact lt_of_body ((hc.body p).symm.trans hroot)

/-- A grammar that can be expanded from the top is linked after linking. -/
lemma linked_link {ds : Diagnostics} (hids : g.unknownId? = none)
    (hscan : ∀ {i spec}, g.kind i = .lookahead spec → spec.expansion = none)
    (hg : (g.link ds).1.TopDown) : (g.link ds).1.Linked :=
  linked_of_acyclic hids hscan hg.resolved fun i _ => hg.acyclic i

end

end Grammar

end GrammarForge
