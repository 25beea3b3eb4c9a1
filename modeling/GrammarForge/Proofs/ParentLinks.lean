import GrammarForge.Proofs.Relinking

set_option autoImplicit false

/-!
# Parents and children

When a grammar is linked for the first time, no node has a parent yet. Linking then enters the right
sides of all productions and whatever is below, also what lookaheads scan, and gives every node that it
enters the parent that it has entered it from. So parents and children tell the same, although the
children of a lookahead are asked for after what it scans has been filled in: the sequence around it is
not its child, as it has another parent.

## Main definitions

* `Grammar.Hung` — parents, children and references tell the same.

## Main results

* `Grammar.mem_entered_iff` — linking enters all that hangs below the right sides of productions.
* `Grammar.children_linkNamed` — the children of a node after linking.
* `Grammar.link_inverts_children` — after linking parents and children tell the same.
-/

namespace GrammarForge

open Relation

namespace Grammar

/-- **Parents, children and references tell the same.** A node of a production knows the production that
it is the right side of, or the node whose child it is, with its place there; other nodes have no parent.
The references of a production are the nodes of productions that refer to it, each of them once. -/
structure Hung (g : Grammar) : Prop where
  parent : ∀ i, g.InProduction i →
    (∃ p, (g.node i).parent = .production p ∧ g.body p = some i) ∨
      ∃ q, (g.node i).parent = .node q ∧ (g.children q)[(g.node i).index]? = some i
  root : ∀ p i, g.body p = some i → (g.node i).parent = .production p
  child : ∀ q i n, g.InProduction q → (g.children q)[n]? = some i →
    (g.node i).parent = .node q ∧ (g.node i).index = n
  stray : ∀ i, ¬ g.InProduction i → (g.node i).parent = .none
  references : ∀ p < g.productions.size, (g.references p).Nodup ∧
    ∀ i, i ∈ g.references p ↔ g.InProduction i ∧ g.productionOf? i = some p

section

variable {g h : Grammar} {i j q root : NodeId} {p n : Nat} {x : Seat}

/-! ## What linking enters -/

/-- **Going down reaches everything below**, if the depth exceeds the rank.

**Proof sketch.** Induction on the way, from its beginning: the rank goes down at every step. -/
lemma mem_descent_of_path {rank : NodeId → Nat}
    (hrank : ∀ {a b}, ReflTransGen (Below g.hanging) root a → Below g.hanging a b → rank b < rank a)
    (hpath : ReflTransGen (Below g.hanging) i j) : ∀ {depth}, ReflTransGen (Below g.hanging) root i →
      rank i < depth → j ∈ g.descent depth i := by
  induction hpath using ReflTransGen.head_induction_on with
  | refl =>
    intro depth _ hlt
    obtain ⟨d, rfl⟩ := Nat.exists_eq_succ_of_ne_zero (Nat.ne_of_gt (Nat.zero_lt_of_lt hlt))
    exact List.mem_cons_self
  | head hstep _ ih =>
    intro depth hroot hlt
    obtain ⟨d, rfl⟩ := Nat.exists_eq_succ_of_ne_zero (Nat.ne_of_gt (Nat.zero_lt_of_lt hlt))
    have hdown := hrank hroot hstep
    exact List.mem_cons_of_mem _ (List.mem_flatMap.mpr ⟨_, hstep, ih (hroot.tail hstep) (by omega)⟩)

/-- **Linking enters all that hangs below the right sides of productions.**

**Proof sketch.** A path from a right side goes down along what hangs on nodes. It is not longer than
there are nodes, since a forest gives ranks, and so the descent meets its end. -/
lemma mem_entered_iff (hf : g.Forest g.hanging) : i ∈ g.entered ↔
    ∃ p root, g.body p = some root ∧ ReflTransGen (Below g.hanging) root i := by
  rw [mem_entered]
  constructor
  · rintro ⟨p, root, hroot, hi⟩
    exact ⟨p, root, hroot, mem_descent hi⟩
  · rintro ⟨p, root, hroot, hpath⟩
    obtain ⟨rank, hle, hdown⟩ : ∃ rank : NodeId → Nat, (∀ a, rank a ≤ g.nodes.size) ∧
        ∀ a b, ReflTransGen (Below g.hanging) root a ∧ Below g.hanging a b → rank b < rank a := by
      apply exists_rank
      · exact fun _ _ hab => hf.lt hab.2
      · intro a hcycle
        obtain ⟨b, ⟨ha, -⟩, -⟩ := TransGen.head'_iff.mp hcycle
        exact hf.not_below_itself hroot ha (TransGen.mono (fun _ _ hab => hab.2) _ _ hcycle)
    have hdepth : rank root < g.linkDepth := by
      rw [linkDepth]
      exact (Nat.lt_succ_of_le (hle root)).trans_le (Nat.le_mul_of_pos_right _ (Nat.succ_pos _))
    exact ⟨p, root, hroot,
      mem_descent_of_path (fun ha hab => hdown _ _ ⟨ha, hab⟩) hpath .refl hdepth⟩

/-- Right sides are entered. -/
lemma root_mem_entered (hf : g.Forest g.hanging) (hroot : g.body p = some root) : root ∈ g.entered :=
  (mem_entered_iff hf).mpr ⟨p, root, hroot, .refl⟩

/-- What hangs on an entered node is entered. -/
lemma mem_entered_of_hanging (hf : g.Forest g.hanging) (hq : q ∈ g.entered) (hi : i ∈ g.hanging q) :
    i ∈ g.entered := by
  obtain ⟨p, root, hroot, hpath⟩ := (mem_entered_iff hf).mp hq
  exact (mem_entered_iff hf).mpr ⟨p, root, hroot, hpath.tail hi⟩

/-- No node that is entered hangs below itself. -/
lemma not_below_of_entered (hf : g.Forest g.hanging) (hi : i ∈ g.entered) :
    ¬ TransGen (Below g.hanging) i i := by
  obtain ⟨p, root, hroot, hpath⟩ := (mem_entered_iff hf).mp hi
  exact hf.not_below_itself hroot hpath

/-! ## Places -/

/-- **A grammar to be linked for the first time**: a forest with no parents yet, that has all the nodes
that linking enters. -/
structure Fresh (g : Grammar) : Prop where
  forest : g.Forest g.hanging
  free : ∀ i, (g.node i).parent = .none
  lt : ∀ {i}, i ∈ g.entered → i < g.nodes.size

/-- The seats below a node are those of what hangs on it. -/
lemma mem_seatsBelow : x ∈ g.seatsBelow q ↔
    x.parent = .node q ∧ (g.hanging q)[x.index]? = some x.id := by
  rw [seatsBelow, List.mem_map]
  constructor
  · rintro ⟨y, hy, rfl⟩
    exact ⟨rfl, List.mem_zipIdx_iff_getElem?.mp hy⟩
  · rintro ⟨hparent, hget⟩
    refine ⟨(x.id, x.index), List.mem_zipIdx_iff_getElem?.mpr hget, ?_⟩
    rw [← hparent]

namespace Fresh

/-- **A node that is entered knows its place.** -/
lemma place (hg : g.Fresh) (hi : i ∈ g.entered) :
    (∃ p, g.body p = some i ∧ (g.linkNamed.node i).parent = .production p) ∨
      ∃ q ∈ g.entered, (g.linkNamed.node i).parent = .node q ∧
        (g.hanging q)[(g.linkNamed.node i).index]? = some i := by
  obtain ⟨x, hx, rfl⟩ := exists_seat hi
  obtain ⟨hparent, hindex⟩ := seated_linkNamed hg.forest hx (hg.lt hi)
  rcases mem_seats.mp hx with ⟨p, root, hroot, rfl⟩ | ⟨q, hq, hxq⟩
  · exact Or.inl ⟨p, hroot, hparent⟩
  · obtain ⟨hnode, hget⟩ := mem_seatsBelow.mp hxq
    exact Or.inr ⟨q, hq, hparent.trans hnode, hindex ▸ hget⟩

/-- **What hangs on a node that is entered** has its place there. -/
lemma place_below (hg : g.Fresh) (hq : q ∈ g.entered) (hget : (g.hanging q)[n]? = some i) :
    (g.linkNamed.node i).parent = .node q ∧ (g.linkNamed.node i).index = n := by
  have hseat : (⟨i, .node q, n⟩ : Seat) ∈ g.seats :=
    mem_seats.mpr (Or.inr ⟨q, hq, mem_seatsBelow.mpr ⟨rfl, hget⟩⟩)
  exact seated_linkNamed hg.forest hseat
    (hg.lt (mem_entered_of_hanging hg.forest hq (List.mem_of_getElem? hget)))

/-- A right side hangs on its production. -/
lemma place_root (hg : g.Fresh) (hroot : g.body p = some i) :
    (g.linkNamed.node i).parent = .production p := by
  have hseat : (⟨i, .production p, 0⟩ : Seat) ∈ g.seats := mem_seats.mpr (Or.inl ⟨p, i, hroot, rfl⟩)
  exact (seated_linkNamed hg.forest hseat (hg.lt (root_mem_entered hg.forest hroot))).1

/-- **Other nodes are left without a parent.** -/
lemma parent_of_notMem (hg : g.Fresh) (hi : i ∉ g.entered) : (g.linkNamed.node i).parent = .none := by
  have hnone : i ∉ g.seats.map Seat.id := by
    intro hmem
    obtain ⟨x, hx, rfl⟩ := List.mem_map.mp hmem
    rcases mem_seats.mp hx with ⟨p, root, hroot, rfl⟩ | ⟨q, hq, hxq⟩
    · exact hi (root_mem_entered hg.forest hroot)
    · exact hi (mem_entered_of_hanging hg.forest hq (List.mem_of_getElem? (mem_seatsBelow.mp hxq).2))
  rw [(completes_linkNamed g).parent, setParents_eq_settle hg.forest.nodup_seats,
    node_settle_of_notMem hnone]
  exact hg.free i

/-! ## Children -/

/-- What a lookahead scans by default is not its child.

**Proof sketch.** It is the lookahead itself, if this is the right side of a production, or the node that
the lookahead hangs on. If that node hung on the lookahead in turn, the lookahead would hang below itself. -/
lemma default_not_child (hg : g.Fresh) (hi : i ∈ g.entered) :
    (g.linkNamed.node (defaultExpansion (g.setParents.node i) i)).parent ≠ .node i := by
  rw [defaultExpansion, ← (completes_linkNamed g).parent]
  rcases hg.place hi with ⟨p, -, hparent⟩ | ⟨q, hq, hparent, hget⟩
  · rw [hparent]
    dsimp only
    rw [hparent]
    exact Parent.noConfusion
  · rw [hparent]
    dsimp only
    intro hback
    rcases hg.place hq with ⟨p, -, hparent'⟩ | ⟨r, -, hparent', hget'⟩
    · rw [hback] at hparent'
      cases hparent'
    · rw [hback] at hparent'
      obtain rfl := Parent.node.inj hparent'
      have hdown : Below g.hanging i q := List.mem_of_getElem? hget'
      have hup : Below g.hanging q i := List.mem_of_getElem? hget
      exact not_below_of_entered hg.forest hi (.head hdown (.single hup))

/-- **The children of a node** are what hung on it before.

**Proof sketch.** The parts of the node are as before. What it scans was free before, so that it has
been hung on the node; what is not scanned is no child. -/
lemma children_linkNamed (hg : g.Fresh) (hq : q ∈ g.entered) :
    g.linkNamed.children q = g.hanging q := by
  rw [children, parts_linkNamed, hanging]
  cases hscan : (g.kind q).scanned? with
  | some e =>
    have hmem : e ∈ g.hanging q := mem_hanging.mpr (Or.inr ⟨hscan, hg.free e⟩)
    obtain ⟨n, hn⟩ := List.mem_iff_getElem?.mp hmem
    rw [scanned_linkNamed hscan]
    simp only [if_pos (hg.place_below hq hn).1, if_pos (hg.free e)]
  | none =>
    have hnone : (g.setParents.kind q).scanned? = none := by rwa [(sameTree_setParents g).kind]
    cases hfilled : (g.linkNamed.kind q).scanned? with
    | none => rfl
    | some e =>
      have hother := hg.default_not_child hq
      rw [← (completes_linkNamed g).scanned hnone hfilled] at hother
      simp only [if_neg hother]

/-- Before linking all that a node mentions hangs on it. -/
lemma hanging_eq (hg : g.Fresh) (i : NodeId) : g.hanging i = g.mentioned i := by
  rw [hanging, mentioned]
  cases (g.kind i).scanned? with
  | none => rfl
  | some e => simp only [if_pos (hg.free e), Option.toList_some]

/-- **The nodes of productions** after linking are those that linking has entered.

**Proof sketch.** Induction on the path from the right side in one direction; in the other one, on the
path along what hangs on nodes, which are children after linking. -/
lemma inProduction_linkNamed (hg : g.Fresh) : g.linkNamed.InProduction i ↔ i ∈ g.entered := by
  constructor
  · rintro ⟨p, root, hroot, hpath⟩
    rw [body_linkNamed] at hroot
    induction hpath with
    | refl => exact root_mem_entered hg.forest hroot
    | tail _ hchild ih =>
      rw [hg.children_linkNamed ih] at hchild
      exact mem_entered_of_hanging hg.forest ih hchild
  · intro hi
    obtain ⟨p, root, hroot, hpath⟩ := (mem_entered_iff hg.forest).mp hi
    refine ⟨p, root, (body_linkNamed g p).trans hroot, ?_⟩
    clear hi
    induction hpath with
    | refl => exact .refl
    | tail hpath hbelow ih =>
      refine ih.tail ?_
      rw [hg.children_linkNamed ((mem_entered_iff hg.forest).mpr ⟨p, root, hroot, hpath⟩)]
      exact hbelow

/-- **After the first linking** parents, children and references tell the same.

**Proof sketch.** A node that is entered is a right side or hangs on an entered node, and this is its
parent after linking. The references of a production are the entered nodes that refer to it. -/
lemma hung_linkNamed (hg : g.Fresh) : g.linkNamed.Hung where
  parent i hi := by
    rw [hg.inProduction_linkNamed] at hi
    rcases hg.place hi with ⟨p, hroot, hparent⟩ | ⟨q, hq, hparent, hget⟩
    · exact Or.inl ⟨p, hparent, (body_linkNamed g p).trans hroot⟩
    · refine Or.inr ⟨q, hparent, ?_⟩
      rwa [hg.children_linkNamed hq]
  root p i hroot := by
    rw [body_linkNamed] at hroot
    exact hg.place_root hroot
  child q i n hq hget := by
    rw [hg.inProduction_linkNamed] at hq
    rw [hg.children_linkNamed hq] at hget
    exact hg.place_below hq hget
  stray i hi := by
    rw [hg.inProduction_linkNamed] at hi
    exact hg.parent_of_notMem hi
  references p hp := by
    rw [count_linkNamed] at hp
    rw [references_linkNamed hg.forest hp]
    refine ⟨hg.forest.nodup_entered.filter _, fun i => ?_⟩
    rw [List.mem_filter, hg.inProduction_linkNamed, productionOf?_linkNamed, decide_eq_true_iff]

end Fresh

/-! ## Names -/

/-- Changing the kind of a node keeps all parents. -/
lemma parent_setKind (g : Grammar) (i j : NodeId) (kind : NodeKind) :
    ((g.setKind i kind).node j).parent = (g.node j).parent := by
  have hnode : (g.setKind i kind).node j =
      if j = i ∧ i < g.nodes.size then { g.node j with kind } else g.node j := getD_modify g.nodes i j _
  rw [hnode]
  split_ifs <;> rfl

/-- Looking up names hangs no node on another one.

**Proof sketch.** Each look-up changes kinds of nodes only. -/
lemma parent_withNames (g : Grammar) (ds : Diagnostics) (i : NodeId) :
    ((g.withNames ds).node i).parent = (g.node i).parent := by
  set r := resolveRegexNames (reportDeferred (g, ds)) with hr
  have htokens : ((resolveTokenRefs r).1.node i).parent = (g.node i).parent := by
    refine List.foldlRecOn (motive := fun r' : Reported => (r'.1.node i).parent = (g.node i).parent) _ _
      rfl fun r' hr' x _ => ?_
    rw [resolveTokenRef]
    cases r'.1.tokens.findIdx? (·.label = some x.2) with
    | some ordinal => exact (parent_setKind r'.1 x.1 i _).trans hr'
    | none => exact hr'
  refine List.foldlRecOn (motive := fun r' : Reported => (r'.1.node i).parent = (g.node i).parent) _ _
    htokens fun r' hr' j _ => ?_
  rw [resolveNonterminal]
  split
  · split
    · exact (parent_setKind r'.1 j i _).trans hr'
    · exact hr'
  · exact hr'

/-- What is mentioned by a node is among the ids mentioned. -/
lemma mem_mentionedIds_of_mentioned (h : i ∈ g.mentioned q) : i ∈ g.mentionedIds := by
  rw [mentionedIds_eq]
  exact List.mem_append_right _
    (List.mem_flatMap.mpr ⟨q, List.mem_range.mpr (lt_of_mem_mentioned h), h⟩)

/-- **With all names looked up** a grammar is ready to be linked for the first time.

**Proof sketch.** What hangs on a node is mentioned by it, so that nothing hangs twice; and no node has
a parent yet. -/
lemma fresh_withNames (hshape : g.mentionedIds.Nodup) (hids : g.unknownId? = none)
    (hfresh : ∀ n ∈ g.nodes, n.parent = .none) (ds : Diagnostics) : (g.withNames ds).Fresh := by
  have hr : g.Resolves (g.withNames ds) := resolves_names (g, ds)
  have hf := (hr.forest (forest_mentioned hshape)).mono (hanging_sublist _)
  refine ⟨hf, fun i => ?_, fun {i} hi => ?_⟩
  · rw [parent_withNames]
    by_cases hi : i < g.nodes.size
    · refine hfresh _ ?_
      rw [node, Array.getD_eq_getD_getElem?, Array.getElem?_eq_getElem hi, Option.getD_some]
      exact Array.getElem_mem hi
    · rw [node, Array.getD_eq_getD_getElem?, Array.getElem?_eq_none (Nat.not_lt.mp hi)]
      rfl
  · rw [hr.size]
    obtain ⟨p, root, hroot, hpath⟩ := (mem_entered_iff hf).mp hi
    rcases hpath.cases_tail with rfl | ⟨q, -, hq⟩
    · rw [body, production, hr.productions] at hroot
      exact lt_of_mem_mentionedIds hids (mem_mentionedIds_of_body hroot)
    · have hmem : i ∈ g.mentioned q := (hr.mentioned_sublist q).mem ((hanging_sublist _ q).mem hq)
      exact lt_of_mem_mentionedIds hids (mem_mentionedIds_of_mentioned hmem)

/-- **Parents invert children.** A grammar that is a tree and has all nodes that it mentions is linked for
the first time. Then the children of the nodes of productions are all that these mention when names have
been looked up, also what lookaheads are written to scan; and parents, children and references tell the
same.

**Proof sketch.** After its names have been looked up the grammar is ready to be linked for the first
time (`fresh_withNames`). The children of a node are what hung on it, which is all that it mentions
(`children_linkNamed`). -/
theorem link_inverts_children {ds : Diagnostics} (hshape : g.mentionedIds.Nodup)
    (hids : g.unknownId? = none) (hfresh : ∀ n ∈ g.nodes, n.parent = .none) :
    (∀ i, (g.link ds).1.InProduction i → (g.link ds).1.children i = (g.withNames ds).mentioned i) ∧
      (g.link ds).1.Hung := by
  have hg := fresh_withNames hshape hids hfresh ds
  rw [link_eq_linkNamed]
  refine ⟨fun i hi => ?_, hg.hung_linkNamed⟩
  rw [hg.children_linkNamed (hg.inProduction_linkNamed.mp hi), hg.hanging_eq]

end

/-- A lookahead that scans a nonterminal: after the first linking the nonterminal is noted as a
reference, and it belongs to a production. -/
theorem link_inverts_children_scannedWord : scannedWord.mentionedIds.Nodup ∧
    scannedWord.unknownId? = none ∧ (∀ n ∈ scannedWord.nodes, n.parent = .none) ∧
    (scannedWord.link {}).1.Hung ∧ (scannedWord.link {}).1.references 1 = [0] ∧
    (scannedWord.link {}).1.InProduction 0 := by
  have hshape : scannedWord.mentionedIds.Nodup := by decide +kernel
  have hids : scannedWord.unknownId? = none := by decide +kernel
  have hfresh : ∀ n ∈ scannedWord.nodes, n.parent = .none := by decide +kernel
  have hrefs : (scannedWord.link {}).1.references 1 = [0] := by decide +kernel
  obtain ⟨-, hhung⟩ : _ ∧ (scannedWord.link {}).1.Hung := link_inverts_children hshape hids hfresh
  have hin := ((hhung.references 1 (by decide +kernel)).2 0).mp (hrefs ▸ List.mem_singleton_self 0)
  exact ⟨hshape, hids, hfresh, hhung, hrefs, hin.1⟩

end Grammar

end GrammarForge
