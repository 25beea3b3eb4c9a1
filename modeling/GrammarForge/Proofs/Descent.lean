import GrammarForge.Proofs.LinkedTree
import Mathlib.Data.List.Flatten
import Mathlib.Data.List.Nodup

set_option autoImplicit false

/-!
# Going down the tree

Linking goes down from the right side of every production. At every node it gives the nodes below their
places, and whether it goes on into what a lookahead scans depends on the places given before. In a
tree this is the same as going down the tree as it was at the beginning: no node is met twice, so
nothing that has been done before can be seen. So all that linking does is to give away a list of
places and to note a list of references.

## Main definitions

* `Grammar.Forest` — no node is below two nodes.
* `Seat` — a place for a node.
* `Grammar.descent` — the nodes that linking enters.
* `Grammar.seats`, `Grammar.entered` — the places it gives away and the nodes it enters.
* `Grammar.settle` — giving away places and noting references.

## Main results

* `Grammar.Forest.nodup_seats` — in a forest no node is given two places.
* `Grammar.setParents_eq_settle` — what linking does to a forest.
-/

namespace GrammarForge

open Relation

/-- A place for a node: what it hangs on, and where. -/
structure Seat where
  id : NodeId
  parent : Parent
  index : Nat

namespace Grammar

/-! ## Forests -/

/-- One node is below another one, if each has the nodes `below`. -/
def Below (below : NodeId → List NodeId) (i j : NodeId) : Prop := j ∈ below i

/-- **A forest**: no node is below two nodes, twice below one, or below one and the right side of a
production. -/
structure Forest (g : Grammar) (below : NodeId → List NodeId) : Prop where
  lt : ∀ {q i}, Below below q i → q < g.nodes.size
  nodup : (g.productions.toList.filterMap Production.expansion ++
    (List.range g.nodes.size).flatMap below).Nodup

namespace Forest

variable {g : Grammar} {below : NodeId → List NodeId} {i j q r x : NodeId} {p p' : Nat}

/-- A forest stays one if some nodes are taken away. -/
lemma mono {less : NodeId → List NodeId} (hf : g.Forest below) (h : ∀ i, (less i).Sublist (below i)) :
    g.Forest less where
  lt hq := hf.lt ((h _).mem hq)
  nodup := hf.nodup.sublist
    (List.Sublist.append (List.Sublist.refl _) (List.Sublist.flatMap_right _ fun i _ => h i))

/-- A right side hangs below no node. -/
lemma root_not_below (hf : g.Forest below) (hroot : g.body p = some i) : ¬ Below below q i := by
  intro hq
  have hp := lt_of_body hroot
  rw [body, production, Array.getD_eq_getD_getElem?, Array.getElem?_eq_getElem hp,
    Option.getD_some] at hroot
  have hmem : i ∈ g.productions.toList.filterMap Production.expansion :=
    List.mem_filterMap.mpr ⟨_, Array.getElem_mem_toList hp, hroot⟩
  have hmem' : i ∈ (List.range g.nodes.size).flatMap below :=
    List.mem_flatMap.mpr ⟨q, List.mem_range.mpr (hf.lt hq), hq⟩
  exact (List.nodup_append.mp hf.nodup).2.2 i hmem i hmem' rfl

/-- Productions do not share their right sides. -/
lemma root_unique (hf : g.Forest below) (hroot : g.body p = some i) (hroot' : g.body p' = some i) :
    p = p' := by
  have hp := lt_of_body hroot
  have hp' := lt_of_body hroot'
  rw [body, production, Array.getD_eq_getD_getElem?, Array.getElem?_eq_getElem hp,
    Option.getD_some] at hroot
  rw [body, production, Array.getD_eq_getD_getElem?, Array.getElem?_eq_getElem hp',
    Option.getD_some] at hroot'
  have hpairs := List.pairwise_iff_getElem.mp
    (List.pairwise_filterMap.mp (List.nodup_append.mp hf.nodup).1)
  rcases Nat.lt_trichotomy p p' with hlt | heq | hgt
  · exact absurd rfl (hpairs p p' (by simpa using hp) (by simpa using hp') hlt i hroot i hroot')
  · exact heq
  · exact absurd rfl (hpairs p' p (by simpa using hp') (by simpa using hp) hgt i hroot' i hroot)

/-- A node is below one node only.

**Proof sketch.** If there were two of them, the row of all that is below nodes would have the node
twice. -/
lemma below_unique (hf : g.Forest below) (hq : Below below q i) (hr : Below below r i) : q = r := by
  have hpairs := List.pairwise_iff_getElem.mp
    (List.nodup_flatMap.mp (List.nodup_append.mp hf.nodup).2.1).2
  have hdisjoint : ∀ {x y}, x < y → Below below x i → Below below y i → False := by
    intro x y hlt hx hy
    have hpair := hpairs x y (by simpa using hf.lt hx) (by simpa using hf.lt hy) hlt
    simp only [Function.onFun, List.getElem_range] at hpair
    exact hpair hx hy
  rcases Nat.lt_trichotomy q r with hlt | heq | hgt
  · exact (hdisjoint hlt hq hr).elim
  · exact heq
  · exact (hdisjoint hgt hr hq).elim

/-- A node is not twice below a node. -/
lemma nodup_below (hf : g.Forest below) (q : NodeId) : (below q).Nodup := by
  by_cases hq : q < g.nodes.size
  · exact (List.nodup_flatMap.mp (List.nodup_append.mp hf.nodup).2.1).1 q (List.mem_range.mpr hq)
  · rw [List.eq_nil_iff_forall_not_mem.mpr fun i hi => hq (hf.lt hi)]
    exact List.nodup_nil

/-- **A node below the right side of a production is not below itself.**

**Proof sketch.** Induction on the way down to the node. If it were below itself, so would be the node
above it, and in the end the right side of the production, which is below no node. -/
lemma not_below_itself (hf : g.Forest below) (hroot : g.body p = some r)
    (hpath : ReflTransGen (Below below) r i) : ¬ TransGen (Below below) i i := by
  induction hpath with
  | refl =>
    intro hcycle
    obtain ⟨x, -, hx⟩ := TransGen.tail'_iff.mp hcycle
    exact hf.root_not_below hroot hx
  | tail _ hbelow ih =>
    intro hcycle
    obtain ⟨x, hpathx, hx⟩ := TransGen.tail'_iff.mp hcycle
    obtain rfl := hf.below_unique hx hbelow
    exact ih (.head' hx hpathx)

/-- Of two nodes above a node, one is above the other. -/
lemma above_total (hf : g.Forest below) (hi : ReflTransGen (Below below) i x)
    (hj : ReflTransGen (Below below) j x) :
    ReflTransGen (Below below) i j ∨ ReflTransGen (Below below) j i := by
  have hunique : Relator.RightUnique (Function.swap (Below below)) := fun _ _ _ hq hr =>
    hf.below_unique hq hr
  rcases ReflTransGen.total_of_right_unique hunique (reflTransGen_swap.mpr hi)
    (reflTransGen_swap.mpr hj) with h | h
  · exact Or.inr (reflTransGen_swap.mp h)
  · exact Or.inl (reflTransGen_swap.mp h)

/-- What is below the right sides of two productions is apart. -/
lemma roots_apart (hf : g.Forest below) (hroot : g.body p = some i) (hroot' : g.body p' = some j)
    (hi : ReflTransGen (Below below) i x) (hj : ReflTransGen (Below below) j x) : p = p' := by
  have heq : i = j := by
    rcases hf.above_total hi hj with hij | hji
    · rcases hij.cases_tail with heq | ⟨q, -, hq⟩
      · exact heq.symm
      · exact absurd hq (hf.root_not_below hroot')
    · rcases hji.cases_tail with heq | ⟨q, -, hq⟩
      · exact heq
      · exact absurd hq (hf.root_not_below hroot)
  rw [heq] at hroot
  exact hf.root_unique hroot hroot'

/-- What is below two nodes that are below one node is apart. -/
lemma siblings_apart (hf : g.Forest below) (hq : ¬ TransGen (Below below) q q) (hi : Below below q i)
    (hj : Below below q j) (hix : ReflTransGen (Below below) i x)
    (hjx : ReflTransGen (Below below) j x) : i = j := by
  -- a way from one to the other would pass the node above them
  have hway : ∀ {a b}, Below below q a → Below below q b → ReflTransGen (Below below) a b → a = b := by
    intro a b ha hb hab
    rcases hab.cases_tail with heq | ⟨y, hay, hy⟩
    · exact heq.symm
    · obtain rfl := hf.below_unique hy hb
      exact absurd (.head' ha hay) hq
  rcases hf.above_total hix hjx with hij | hji
  · exact hway hi hj hij
  · exact (hway hj hi hji).symm

end Forest

/-! ## The way down -/

section

variable (g : Grammar)

/-- The nodes that linking enters from a node on, in preorder, down to a depth. -/
def descent : Nat → NodeId → List NodeId
  | 0, _ => []
  | depth + 1, i => i :: (g.hanging i).flatMap (descent depth)

/-- The nodes that linking enters in one production. -/
def enteredIn (p : Nat) : List NodeId := (g.body p).toList.flatMap (g.descent g.linkDepth)

/-- The nodes that linking enters. -/
def entered : List NodeId := (List.range g.productions.size).flatMap g.enteredIn

/-- The places of the nodes below a node. -/
def seatsBelow (i : NodeId) : List Seat := (g.hanging i).zipIdx.map fun x => ⟨x.1, .node i, x.2⟩

/-- The places that linking gives away in one production. -/
def seatsIn (p : Nat) : List Seat := (g.body p).toList.flatMap fun root =>
  ⟨root, .production p, 0⟩ :: (g.descent g.linkDepth root).flatMap g.seatsBelow

/-- The places that linking gives away. -/
def seats : List Seat := (List.range g.productions.size).flatMap g.seatsIn

/-- A grammar without references. -/
def unreferenced : Grammar :=
  { g with productions := g.productions.map fun p => { p with references := [] } }

/-- Gives a node its place. -/
def take (x : Seat) : Grammar := g.setParent x.id x.parent x.index

/-- **Gives away places and notes references.** -/
def settle (xs : List Seat) (ids : List NodeId) : Grammar := xs.foldl take (ids.foldl noteReference g)

end

section

variable {g s : Grammar} {i j : NodeId} {x : Seat} {xs ys : List Seat} {ids js : List NodeId} {p : Nat}

/-- What hangs on a node are its parts and what it scans, if that has no parent yet. -/
lemma mem_hanging : j ∈ g.hanging i ↔
    g.Part i j ∨ ((g.kind i).scanned? = some j ∧ (g.node j).parent = .none) := by
  rw [hanging, List.mem_append]
  refine or_congr_right ?_
  cases (g.kind i).scanned? with
  | none => simp
  | some e =>
    simp only [Option.some_inj]
    split_ifs with he
    · rw [List.mem_singleton]
      exact ⟨fun h => ⟨h.symm, h ▸ he⟩, fun h => h.1.symm⟩
    · simp only [List.not_mem_nil, false_iff]
      rintro ⟨rfl, hparent⟩
      exact he hparent

/-- The seats below a node are those of what hangs on it. -/
lemma map_id_seatsBelow (g : Grammar) (i : NodeId) : (g.seatsBelow i).map Seat.id = g.hanging i := by
  rw [seatsBelow, List.map_map]
  exact List.zipIdx_map_fst 0 (g.hanging i)

/-- What a descent meets is reached along what hangs on nodes. -/
lemma mem_descent {depth : Nat} : ∀ {i}, j ∈ g.descent depth i →
    ReflTransGen (Below g.hanging) i j := by
  induction depth with
  | zero => exact fun h => by cases h
  | succ depth ih =>
    intro i hj
    rcases List.mem_cons.mp hj with rfl | hj
    · exact .refl
    · obtain ⟨q, hq, hj⟩ := List.mem_flatMap.mp hj
      exact .head hq (ih hj)

/-- **Going down where less hangs on the nodes**, less is entered. -/
lemma descent_sublist {h : Grammar} (depth : Nat) : ∀ {i},
    (∀ j ∈ g.descent depth i, (h.hanging j).Sublist (g.hanging j)) →
      (h.descent depth i).Sublist (g.descent depth i) := by
  induction depth with
  | zero => exact fun _ => .slnil
  | succ depth ih =>
    intro i hle
    have hbelow : ∀ j ∈ g.hanging i, (h.descent depth j).Sublist (g.descent depth j) :=
      fun j hj => ih fun x hx => hle x (List.mem_cons_of_mem i (List.mem_flatMap.mpr ⟨j, hj, hx⟩))
    exact (((hle i List.mem_cons_self).flatMap _).trans
      (List.Sublist.flatMap_right _ hbelow)).cons_cons i

/-- A node that is entered is the first one or hangs on one that is entered. -/
lemma mem_descent_cases {depth : Nat} : ∀ {i}, j ∈ g.descent depth i →
    j = i ∨ ∃ q ∈ g.descent depth i, j ∈ g.hanging q := by
  induction depth with
  | zero => exact fun h => by cases h
  | succ depth ih =>
    intro i hj
    rcases List.mem_cons.mp hj with rfl | hj
    · exact Or.inl rfl
    · obtain ⟨r, hr, hj⟩ := List.mem_flatMap.mp hj
      refine Or.inr ?_
      rcases ih hj with rfl | ⟨q, hq, hjq⟩
      · exact ⟨i, List.mem_cons_self, hr⟩
      · exact ⟨q, List.mem_cons_of_mem i (List.mem_flatMap.mpr ⟨r, hr, hq⟩), hjq⟩

/-- A node is entered if the descent from some right side meets it. -/
lemma mem_entered : i ∈ g.entered ↔
    ∃ p root, g.body p = some root ∧ i ∈ g.descent g.linkDepth root := by
  constructor
  · intro hi
    obtain ⟨p, -, hi⟩ := List.mem_flatMap.mp hi
    obtain ⟨root, hroot, hi⟩ := List.mem_flatMap.mp hi
    exact ⟨p, root, Option.mem_toList.mp hroot, hi⟩
  · rintro ⟨p, root, hroot, hi⟩
    refine List.mem_flatMap.mpr ⟨p, List.mem_range.mpr (lt_of_body hroot), ?_⟩
    exact List.mem_flatMap.mpr ⟨root, Option.mem_toList.mpr hroot, hi⟩

/-- The seats are those of the right sides and those below the nodes that are entered.

**Proof sketch.** Production by production, by whether the seat is that of the right side. -/
lemma mem_seats : x ∈ g.seats ↔ (∃ p root, g.body p = some root ∧ x = ⟨root, .production p, 0⟩) ∨
    ∃ q ∈ g.entered, x ∈ g.seatsBelow q := by
  constructor
  · intro hx
    obtain ⟨p, hp, hx⟩ := List.mem_flatMap.mp hx
    obtain ⟨root, hroot, hx⟩ := List.mem_flatMap.mp hx
    have hbody := Option.mem_toList.mp hroot
    rcases List.mem_cons.mp hx with rfl | hx
    · exact Or.inl ⟨p, root, hbody, rfl⟩
    · obtain ⟨q, hq, hx⟩ := List.mem_flatMap.mp hx
      exact Or.inr ⟨q, mem_entered.mpr ⟨p, root, hbody, hq⟩, hx⟩
  · intro hx
    have hin : ∀ {p root}, g.body p = some root → x ∈ (⟨root, .production p, 0⟩ ::
        (g.descent g.linkDepth root).flatMap g.seatsBelow : List Seat) → x ∈ g.seats := fun hroot hx =>
      List.mem_flatMap.mpr ⟨_, List.mem_range.mpr (lt_of_body hroot),
        List.mem_flatMap.mpr ⟨_, Option.mem_toList.mpr hroot, hx⟩⟩
    rcases hx with ⟨p, root, hroot, rfl⟩ | ⟨q, hq, hx⟩
    · exact hin hroot List.mem_cons_self
    · obtain ⟨p, root, hroot, hq⟩ := mem_entered.mp hq
      exact hin hroot (List.mem_cons_of_mem _ (List.mem_flatMap.mpr ⟨q, hq, hx⟩))

/-- **Every node that is entered is given a place.** -/
lemma exists_seat (hi : i ∈ g.entered) : ∃ x ∈ g.seats, x.id = i := by
  obtain ⟨p, root, hroot, hmem⟩ := mem_entered.mp hi
  rcases mem_descent_cases hmem with rfl | ⟨q, hq, hiq⟩
  · exact ⟨_, mem_seats.mpr (Or.inl ⟨p, i, hroot, rfl⟩), rfl⟩
  · rw [← map_id_seatsBelow] at hiq
    obtain ⟨x, hx, rfl⟩ := List.mem_map.mp hiq
    exact ⟨x, mem_seats.mpr (Or.inr ⟨q, mem_entered.mpr ⟨p, root, hroot, hq⟩, hx⟩), rfl⟩

/-- What is given a place in a production is its right side or below. -/
lemma mem_seatsIn (hx : x ∈ g.seatsIn p) :
    ∃ root, g.body p = some root ∧ ReflTransGen (Below g.hanging) root x.id := by
  obtain ⟨root, hroot, hx⟩ := List.mem_flatMap.mp hx
  refine ⟨root, Option.mem_toList.mp hroot, ?_⟩
  rcases List.mem_cons.mp hx with rfl | hx
  · exact .refl
  · obtain ⟨q, hq, hx⟩ := List.mem_flatMap.mp hx
    refine (mem_descent hq).tail ?_
    rw [Below, ← map_id_seatsBelow]
    exact List.mem_map_of_mem hx

namespace Forest

/-- **Linking enters no node twice** below the right side of a production.

**Proof sketch.** Induction on the depth. A node is not entered again below itself, and what is entered
below two nodes that are below one is apart. -/
lemma nodup_descent (hf : g.Forest g.hanging) {root : NodeId} (hroot : g.body p = some root)
    (depth : Nat) : ∀ {i}, ReflTransGen (Below g.hanging) root i → (g.descent depth i).Nodup := by
  induction depth with
  | zero => exact fun _ => List.nodup_nil
  | succ depth ih =>
    intro i hpath
    have hcycle := hf.not_below_itself hroot hpath
    refine List.nodup_cons.mpr ⟨fun hi => ?_,
      List.nodup_flatMap.mpr ⟨fun j hj => ih (hpath.tail hj), ?_⟩⟩
    · obtain ⟨j, hj, hi⟩ := List.mem_flatMap.mp hi
      exact hcycle (.head' hj (mem_descent hi))
    · refine (hf.nodup_below i).imp_of_mem fun {a b} ha hb hne x hax hbx => hne ?_
      exact hf.siblings_apart hcycle ha hb (mem_descent hax) (mem_descent hbx)

/-- No node has two seats within a production.

**Proof sketch.** The right side hangs below no node, and below the nodes of a descent in a forest
nothing hangs twice. -/
lemma nodup_seatsIn (hf : g.Forest g.hanging) (p : Nat) : ((g.seatsIn p).map Seat.id).Nodup := by
  rw [seatsIn]
  cases hroot : g.body p with
  | none => exact List.nodup_nil
  | some root =>
    have hids : (((g.descent g.linkDepth root).flatMap g.seatsBelow).map Seat.id) =
        (g.descent g.linkDepth root).flatMap g.hanging := by
      rw [List.map_flatMap]
      exact List.flatMap_congr fun i _ => map_id_seatsBelow g i
    rw [Option.toList_some, List.flatMap_singleton, List.map_cons, hids]
    refine List.nodup_cons.mpr ⟨fun hmem => ?_,
      List.nodup_flatMap.mpr ⟨fun i _ => hf.nodup_below i, ?_⟩⟩
    · obtain ⟨q, -, hq⟩ := List.mem_flatMap.mp hmem
      exact hf.root_not_below hroot hq
    · refine (hf.nodup_descent hroot g.linkDepth .refl).imp fun {a b} hne x ha hb => hne ?_
      exact hf.below_unique ha hb

/-- **In a forest no node is given two places.** -/
lemma nodup_seats (hf : g.Forest g.hanging) : (g.seats.map Seat.id).Nodup := by
  rw [seats, List.map_flatMap]
  refine List.nodup_flatMap.mpr ⟨fun p _ => hf.nodup_seatsIn p, ?_⟩
  refine List.nodup_range.imp fun {p p'} hne i hi hi' => hne ?_
  obtain ⟨x, hx, rfl⟩ := List.mem_map.mp hi
  obtain ⟨y, hy, hyx⟩ := List.mem_map.mp hi'
  obtain ⟨root, hroot, hpath⟩ := mem_seatsIn hx
  obtain ⟨root', hroot', hpath'⟩ := mem_seatsIn hy
  exact hf.roots_apart hroot hroot' hpath (hyx ▸ hpath')

/-- **In a forest linking enters no node twice.**

**Proof sketch.** Within a production the descent meets no node twice; and a node met from two right
sides would be below both, which do not hang below each other. -/
lemma nodup_entered (hf : g.Forest g.hanging) : g.entered.Nodup := by
  refine List.nodup_flatMap.mpr ⟨fun p _ => ?_, ?_⟩
  · rw [enteredIn]
    cases hroot : g.body p with
    | none => exact List.nodup_nil
    | some root =>
      rw [Option.toList_some, List.flatMap_singleton]
      exact hf.nodup_descent hroot g.linkDepth .refl
  · refine List.nodup_range.imp fun {p p'} hne i hi hi' => hne ?_
    obtain ⟨root, hroot, hpath⟩ := List.mem_flatMap.mp hi
    obtain ⟨root', hroot', hpath'⟩ := List.mem_flatMap.mp hi'
    exact hf.roots_apart (Option.mem_toList.mp hroot) (Option.mem_toList.mp hroot')
      (mem_descent hpath) (mem_descent hpath')

end Forest

/-! ## Giving away places -/

/-- Taking a seat changes the parent and the index of its node. -/
lemma node_take (s : Grammar) (x : Seat) (i : NodeId) : (s.take x).node i =
    if i = x.id ∧ x.id < s.nodes.size then { s.node i with parent := x.parent, index := x.index }
    else s.node i := getD_modify s.nodes x.id i _

/-- Taking a seat keeps the tree. -/
lemma sameTree_take (s : Grammar) (x : Seat) : s.SameTree (s.take x) :=
  sameTree_setParent s x.id x.parent x.index

/-- Noting a reference keeps the tree. -/
lemma sameTree_noteReference (s : Grammar) (i : NodeId) : s.SameTree (s.noteReference i) := by
  rw [noteReference]
  cases s.productionOf? i with
  | none => exact .refl s
  | some p => exact sameTree_addReference s p i

/-- Noting a reference changes no node. -/
lemma node_noteReference (s : Grammar) (i j : NodeId) : (s.noteReference i).node j = s.node j := by
  rw [noteReference]
  cases s.productionOf? i <;> rfl

/-- Noting a reference and taking a seat may be swapped. -/
lemma noteReference_take (s : Grammar) (x : Seat) (i : NodeId) :
    (s.take x).noteReference i = (s.noteReference i).take x := by
  rw [noteReference, (sameTree_take s x).productionOf?, noteReference]
  cases s.productionOf? i <;> rfl

/-- References can be noted first. -/
lemma foldl_noteReference_foldl_take (ids : List NodeId) (xs : List Seat) (s : Grammar) :
    ids.foldl noteReference (xs.foldl take s) = xs.foldl take (ids.foldl noteReference s) := by
  have hone : ∀ (i : NodeId) (s : Grammar),
      (xs.foldl take s).noteReference i = xs.foldl take (s.noteReference i) := fun i s =>
    (List.foldl_hom (noteReference · i) fun s x => (noteReference_take s x i).symm).symm
  exact List.foldl_hom (xs.foldl take) fun s i => hone i s

/-- Seats are taken and references noted in stretches. -/
lemma settle_append : s.settle (xs ++ ys) (ids ++ js) = (s.settle xs ids).settle ys js := by
  rw [settle, settle, settle, List.foldl_append, List.foldl_append, foldl_noteReference_foldl_take]

/-- Dropping references keeps the tree. -/
lemma sameTree_unreferenced (g : Grammar) : g.SameTree g.unreferenced := (clear_spec g).1

/-- **What is left to do.** In `s` the nodes that are still to be given the places `xs` are as they are
in `g`, and so is the tree. -/
structure Awaits (g s : Grammar) (xs : List Seat) : Prop where
  same : g.SameTree s
  hung : ∀ i, (g.node i).parent ≠ .none → (s.node i).parent ≠ .none
  free : ∀ x ∈ xs, (s.node x.id).parent = (g.node x.id).parent
  nodup : (xs.map Seat.id).Nodup

namespace Awaits

/-- Noting a reference leaves what is awaited. -/
lemma noteReference (h : Awaits g s xs) (i : NodeId) : Awaits g (s.noteReference i) xs where
  same := h.same.trans (sameTree_noteReference s i)
  hung j := by
    rw [node_noteReference]
    exact h.hung j
  free x hx := by
    rw [node_noteReference]
    exact h.free x hx
  nodup := h.nodup

/-- Taking the next seat leaves the others awaited. -/
lemma take (h : Awaits g s (x :: xs)) (hx : x.parent ≠ .none) : Awaits g (s.take x) xs where
  same := h.same.trans (sameTree_take s x)
  hung i hi := by
    rw [node_take]
    split_ifs
    · exact hx
    · exact h.hung i hi
  free y hy := by
    have hne : y.id ≠ x.id := fun heq =>
      (List.nodup_cons.mp h.nodup).1 (heq ▸ List.mem_map_of_mem hy)
    rw [node_take, if_neg fun hand => hne hand.1]
    exact h.free y (List.mem_cons_of_mem x hy)
  nodup := (List.nodup_cons.mp h.nodup).2

/-- Taking the first seats leaves the others awaited. -/
lemma foldl_take (hxs : ∀ x ∈ xs, x.parent ≠ .none) : ∀ {s}, Awaits g s (xs ++ ys) →
    Awaits g (xs.foldl Grammar.take s) ys := by
  induction xs with
  | nil => exact id
  | cons x xs ih =>
    intro s h
    exact ih (fun y hy => hxs y (List.mem_cons_of_mem x hy)) (h.take (hxs x List.mem_cons_self))

/-- Settling the first seats leaves the others awaited. -/
lemma settle (h : Awaits g s (xs ++ ys)) (hxs : ∀ x ∈ xs, x.parent ≠ .none) (ids : List NodeId) :
    Awaits g (s.settle xs ids) ys :=
  foldl_take hxs (List.foldlRecOn (motive := fun s' => Awaits g s' (xs ++ ys)) ids
    Grammar.noteReference h fun _ hs i _ => hs.noteReference i)

/-- The first places to be given away. -/
lemma left (h : Awaits g s (xs ++ ys)) : Awaits g s xs where
  same := h.same
  hung := h.hung
  free x hx := h.free x (List.mem_append_left _ hx)
  nodup := (List.nodup_append.mp (List.map_append ▸ h.nodup)).1

/-- **What hangs on a node is what hung on it at the beginning**, if the nodes below it have not been
given their places yet.

**Proof sketch.** The nodes below are free of parents as at the beginning, and the tree is the same. -/
lemma hanging_eq (h : Awaits g s xs) (hxs : ∀ x ∈ g.seatsBelow i, x ∈ xs) :
    s.hanging i = g.hanging i := by
  have hfree : ∀ j ∈ g.hanging i, (s.node j).parent = (g.node j).parent := by
    intro j hj
    rw [← map_id_seatsBelow] at hj
    obtain ⟨x, hx, rfl⟩ := List.mem_map.mp hj
    exact h.free x (hxs x hx)
  rw [hanging, h.same.kind, hanging]
  congr 1
  cases hscan : (g.kind i).scanned? with
  | none => rfl
  | some e =>
    by_cases he : (g.node e).parent = .none
    · have hsame := hfree e (mem_hanging.mpr (Or.inr ⟨hscan, he⟩))
      simp only [hsame]
    · simp only [if_neg he, if_neg (h.hung e he)]

end Awaits

/-- The seats below a node have a node as the parent. -/
lemma parent_ne_none_of_mem_seatsBelow (hx : x ∈ g.seatsBelow i) : x.parent ≠ .none := by
  obtain ⟨y, -, rfl⟩ := List.mem_map.mp hx
  exact Parent.noConfusion

/-- The seats below several nodes have nodes as parents. -/
lemma parent_ne_none_of_mem_flatMap (hx : x ∈ ids.flatMap g.seatsBelow) : x.parent ≠ .none := by
  obtain ⟨i, -, hx⟩ := List.mem_flatMap.mp hx
  exact parent_ne_none_of_mem_seatsBelow hx

/-- Hanging nodes on one is taking their seats. -/
lemma hangAll_eq (s : Grammar) (i : NodeId) :
    s.hangAll i (g.hanging i) = (g.seatsBelow i).foldl take s := by
  rw [seatsBelow, List.foldl_map]
  rfl

/-- **Going down from several nodes**, one after the other. -/
lemma foldl_linkBelow_eq {depth : Nat}
    (hone : ∀ {i s}, Awaits g s ((g.descent depth i).flatMap g.seatsBelow) →
      linkBelow depth s i = s.settle ((g.descent depth i).flatMap g.seatsBelow) (g.descent depth i))
    (ids : List NodeId) : ∀ {s}, Awaits g s ((ids.flatMap (g.descent depth)).flatMap g.seatsBelow) →
      ids.foldl (linkBelow depth) s = s.settle ((ids.flatMap (g.descent depth)).flatMap g.seatsBelow)
        (ids.flatMap (g.descent depth)) := by
  induction ids with
  | nil => exact fun _ => rfl
  | cons i ids ih =>
    intro s h
    rw [List.flatMap_cons, List.flatMap_append] at h
    rw [List.foldl_cons, hone h.left, ih (h.settle (fun x => parent_ne_none_of_mem_flatMap) _),
      List.flatMap_cons, List.flatMap_append, settle_append]

/-- **Going down from a node** gives away the places below the nodes of the descent.

**Proof sketch.** Induction on the depth. What hangs on the node is what hung on it at the beginning, as
the nodes below it have not been given their places. They are given them now, and this does not matter
below, as no node is given two places. -/
lemma linkBelow_eq (depth : Nat) : ∀ {i s}, Awaits g s ((g.descent depth i).flatMap g.seatsBelow) →
    linkBelow depth s i = s.settle ((g.descent depth i).flatMap g.seatsBelow) (g.descent depth i) := by
  induction depth with
  | zero => exact fun _ => rfl
  | succ depth ih =>
    intro i s h
    rw [descent, List.flatMap_cons] at h ⊢
    have hhang := h.hanging_eq fun x hx => List.mem_append_left _ hx
    have hstep : (s.noteReference i).hangAll i (s.hanging i) = s.settle (g.seatsBelow i) [i] := by
      rw [hhang, hangAll_eq]
      rfl
    have hrun : linkBelow (depth + 1) s i =
        (s.hanging i).foldl (linkBelow depth) ((s.noteReference i).hangAll i (s.hanging i)) := rfl
    have hrest := h.settle (fun _ => parent_ne_none_of_mem_seatsBelow) [i]
    rw [hrun, hstep, hhang, foldl_linkBelow_eq ih _ hrest, ← settle_append, List.singleton_append]

/-- Setting the parents in one production.

**Proof sketch.** The right side takes its seat, and then all below it is linked, to the depth that
suffices; without a right side there are no seats. -/
lemma linkProduction_eq (h : Awaits g s (g.seatsIn p)) :
    s.linkProduction p = s.settle (g.seatsIn p) (g.enteredIn p) := by
  have hdepth : s.linkDepth = g.linkDepth := by rw [linkDepth, linkDepth, h.same.size]
  rw [linkProduction, h.same.body]
  rw [seatsIn] at h ⊢
  rw [enteredIn]
  cases hroot : g.body p with
  | none => rfl
  | some root =>
    rw [hroot, Option.toList_some, List.flatMap_singleton] at h
    rw [Option.toList_some, List.flatMap_singleton, List.flatMap_singleton]
    dsimp only
    have htaken : Awaits g (s.take ⟨root, .production p, 0⟩) _ := h.take Parent.noConfusion
    have hbelow := linkBelow_eq g.linkDepth htaken
    rw [hdepth]
    refine hbelow.trans ?_
    have hroot' : s.take ⟨root, .production p, 0⟩ = s.settle [⟨root, .production p, 0⟩] [] := rfl
    rw [hroot', ← settle_append, List.singleton_append, List.nil_append]

/-- The seats within a production have parents. -/
lemma parent_ne_none_of_mem_seatsIn (hx : x ∈ g.seatsIn p) : x.parent ≠ .none := by
  obtain ⟨root, -, hx⟩ := List.mem_flatMap.mp hx
  rcases List.mem_cons.mp hx with rfl | hx
  · exact Parent.noConfusion
  · exact parent_ne_none_of_mem_flatMap hx

/-- All seats have parents. -/
lemma parent_ne_none_of_mem_seats (hx : x ∈ g.seats) : x.parent ≠ .none := by
  obtain ⟨p, -, hx⟩ := List.mem_flatMap.mp hx
  exact parent_ne_none_of_mem_seatsIn hx

/-- Setting the parents in several productions, one after the other. -/
lemma foldl_linkProduction_eq (ps : List Nat) : ∀ {s}, Awaits g s (ps.flatMap g.seatsIn) →
    ps.foldl linkProduction s = s.settle (ps.flatMap g.seatsIn) (ps.flatMap g.enteredIn) := by
  induction ps with
  | nil => exact fun _ => rfl
  | cons p ps ih =>
    intro s h
    rw [List.flatMap_cons] at h
    have hrest := h.settle (fun _ => parent_ne_none_of_mem_seatsIn) (g.enteredIn p)
    rw [List.foldl_cons, linkProduction_eq h.left, ih hrest, List.flatMap_cons, List.flatMap_cons,
      settle_append]

/-- **What linking does to a forest**: it gives away the places and notes the references that there are
at the beginning. -/
theorem setParents_eq_settle (h : (g.seats.map Seat.id).Nodup) :
    g.setParents = g.unreferenced.settle g.seats g.entered :=
  foldl_linkProduction_eq (List.range g.productions.size)
    (s := g.unreferenced) ⟨sameTree_unreferenced g, fun _ hi => hi, fun _ _ => rfl, h⟩

/-! ## What giving away places does -/

/-- Settling keeps the tree. -/
lemma sameTree_settle (s : Grammar) (xs : List Seat) (ids : List NodeId) :
    s.SameTree (s.settle xs ids) := by
  have hnoted : s.SameTree (ids.foldl noteReference s) :=
    List.foldlRecOn ids noteReference (.refl s) fun s' hs i _ => hs.trans (sameTree_noteReference s' i)
  exact List.foldlRecOn xs take hnoted fun s' hs x _ => hs.trans (sameTree_take s' x)

/-- Noting references changes no node. -/
lemma node_foldl_noteReference (s : Grammar) (ids : List NodeId) (i : NodeId) :
    (ids.foldl noteReference s).node i = s.node i :=
  List.foldlRecOn (motive := fun s' => s'.node i = s.node i) ids noteReference rfl
    fun s' hs j _ => (node_noteReference s' j i).trans hs

/-- A node without a new place is kept. -/
lemma node_settle_of_notMem (hi : i ∉ xs.map Seat.id) : (s.settle xs ids).node i = s.node i := by
  refine List.foldlRecOn (motive := fun s' => s'.node i = s.node i) xs take
    (node_foldl_noteReference s ids i) fun s' hs x hx => ?_
  have hne : i ≠ x.id := fun heq => hi (heq ▸ List.mem_map_of_mem hx)
  rw [node_take, if_neg fun hand => hne hand.1, hs]

/-- A node has its new place.

**Proof sketch.** Induction on the seats. The node takes its own seat, and no later seat is its own;
noting references changes no node. -/
lemma node_settle (ids : List NodeId) (hnodup : (xs.map Seat.id).Nodup) (hx : x ∈ xs)
    (hlt : x.id < s.nodes.size) :
    (s.settle xs ids).node x.id = { s.node x.id with parent := x.parent, index := x.index } := by
  induction xs generalizing s ids with
  | nil => cases hx
  | cons y ys ih =>
    obtain ⟨hy, hys⟩ := List.nodup_cons.mp hnodup
    have hfirst : s.settle (y :: ys) ids = ((s.take y).settle ys ids) := by
      rw [← List.singleton_append, ← List.nil_append ids, settle_append, List.nil_append]
      rfl
    rw [hfirst]
    rcases List.mem_cons.mp hx with rfl | hx
    · rw [node_settle_of_notMem hy, node_take, if_pos ⟨rfl, hlt⟩]
    · have hne : x.id ≠ y.id := fun heq => hy (heq ▸ List.mem_map_of_mem hx)
      have hlt' : x.id < (s.take y).nodes.size := by rwa [(sameTree_take s y).size]
      rw [ih ids hys hx hlt', node_take, if_neg fun hand => hne hand.1]

/-- Taking a seat changes no production. -/
lemma production_take (s : Grammar) (x : Seat) (p : Nat) :
    (s.take x).production p = s.production p := rfl

/-- Noting a reference adds the node to the references of the production that it names. -/
lemma production_noteReference (s : Grammar) (i : NodeId) (hp : p < s.productions.size) :
    (s.noteReference i).production p = { s.production p with
      references := (s.production p).references ++
        [i].filter (s.productionOf? · = some p) } := by
  rw [noteReference]
  cases hof : s.productionOf? i with
  | none => simp [hof]
  | some q =>
    have hmodify : (s.addReference q i).production p = if p = q ∧ q < s.productions.size then
        { s.production p with references := (s.production p).references ++ [i] }
      else s.production p := getD_modify s.productions q p _
    by_cases hpq : p = q
    · subst hpq
      simp [hmodify, hof, hp]
    · have hqp : q ≠ p := Ne.symm hpq
      simp [hmodify, hof, hpq, hqp]

/-- An element of a mapped array. -/
lemma getD_map_of_lt {α : Type} [Inhabited α] {xs : Array α} {i : Nat} (h : i < xs.size)
    (change : α → α) : (xs.map change).getD i default = change (xs.getD i default) := by
  rw [Array.getD_eq_getD_getElem?, Array.getD_eq_getD_getElem?, Array.getElem?_map,
    Array.getElem?_eq_getElem h]
  rfl

/-- **The references of a production** are the nodes entered that refer to it, in their order.

**Proof sketch.** Taking seats changes no production. Then induction on the nodes whose references are
noted. -/
lemma production_settle (xs : List Seat) (ids : List NodeId) (hp : p < s.productions.size) :
    (s.settle xs ids).production p = { s.production p with
      references := (s.production p).references ++
        ids.filter (s.productionOf? · = some p) } := by
  have htaken : ∀ s' : Grammar, (xs.foldl take s').production p = s'.production p := fun s' =>
    List.foldlRecOn (motive := fun s'' => s''.production p = s'.production p) xs take rfl
      fun s'' hs x _ => (production_take s'' x p).trans hs
  rw [settle, htaken]
  induction ids generalizing s with
  | nil => simp
  | cons i ids ih =>
    have hs := sameTree_noteReference s i
    rw [List.foldl_cons, ih (hs.count ▸ hp), production_noteReference s i hp]
    simp only [hs.productionOf?, List.append_assoc, ← List.filter_append, List.singleton_append]

/-- If there were no references before, these are all. -/
lemma production_settle_unreferenced (xs : List Seat) (ids : List NodeId)
    (hp : p < g.productions.size) : (g.unreferenced.settle xs ids).production p =
      { g.production p with references := ids.filter (g.productionOf? · = some p) } := by
  have hs := sameTree_unreferenced g
  have hnone : g.unreferenced.production p = { g.production p with references := [] } :=
    getD_map_of_lt hp _
  rw [production_settle xs ids (hs.count.symm ▸ hp), hnone, List.nil_append]
  simp only [hs.productionOf?]

end

end Grammar

end GrammarForge
