import GrammarForge.Lookahead.MinimumSize
import GrammarForge.Proofs.Derivations
import Mathlib.Data.ENat.Lattice

set_option autoImplicit false

/-!
# The least number of tokens

The minimum size of an expansion is the length of the shortest token sequence that it derives, or
`unbounded` if there is none that is shorter.

A node that is being measured counts as unbounded when it is met again. So what is measured below it
is the minimum size in a grammar in which the nodes being measured derive nothing. This is enough: a
derivation that comes back to a node contains a derivation of that node that does not, and its word is
no longer. Sizes beyond a cap need not be exact; they are only asked for where a least size is known
already that is no greater than the cap.

## Main definitions

* `leastLength` — the least length of the words of a language, up to `unbounded`.
* `Grammar.without` — a grammar in which some nodes derive nothing.
* `Grammar.least` — the minimum size of a row of nodes while some nodes are being measured.
* `Agrees` — two sizes are the same, as far as a cap lets one see.

## Main results

* `Grammar.Derives.cut` — a derivation that comes back to a node can be cut down.
* `Grammar.measures_sizeWithin` — what is measured while some nodes are being measured.
* `Grammar.minimumSize_eq` — the minimum size is exact, and no node is left being measured.
-/

namespace GrammarForge

open Computability

/-! ## Least lengths -/

/-- **The least length of the words of a language**, or `unbounded` if there is no shorter word. -/
noncomputable def leastLength (L : Language Nat) : Nat :=
  sInf {n | n = unbounded ∨ ∃ w ∈ L, w.length = n}

section

variable {L : Language Nat} {n : Nat}

/-- The least length is the length of a word, or the bound if there is no shorter one. -/
lemma leastLength_cases (L : Language Nat) :
    leastLength L = unbounded ∨ ∃ w ∈ L, w.length = leastLength L :=
  Nat.sInf_mem (s := {n | n = unbounded ∨ ∃ w ∈ L, w.length = n}) ⟨unbounded, Or.inl rfl⟩

/-- The least length is not above the bound. -/
lemma leastLength_le_unbounded (L : Language Nat) : leastLength L ≤ unbounded :=
  Nat.sInf_le (Or.inl rfl)

/-- The least length is not above the length of any word. -/
lemma leastLength_le {w : TokenSeq} (hw : w ∈ L) : leastLength L ≤ w.length :=
  Nat.sInf_le (Or.inr ⟨w, hw, rfl⟩)

/-- What is below the bound and below the length of every word is below the least length. -/
lemma le_leastLength (hn : n ≤ unbounded) (h : ∀ w ∈ L, n ≤ w.length) : n ≤ leastLength L := by
  rcases leastLength_cases L with heq | ⟨w, hw, heq⟩
  · exact hn.trans heq.ge
  · exact (h w hw).trans heq.le

/-- The least length, as an infimum. -/
lemma coe_leastLength (L : Language Nat) :
    (leastLength L : ℕ∞) = min (⨅ w ∈ L, (w.length : ℕ∞)) unbounded := by
  refine le_antisymm (le_min ?_ ?_) ?_
  · exact le_iInf₂ fun w hw => Nat.cast_le.mpr (leastLength_le hw)
  · exact Nat.cast_le.mpr (leastLength_le_unbounded L)
  · rcases leastLength_cases L with heq | ⟨w, hw, heq⟩
    · exact (min_le_right _ _).trans_eq (congrArg Nat.cast heq.symm)
    · exact (min_le_left _ _).trans ((iInf₂_le w hw).trans_eq (congrArg Nat.cast heq))

/-- With the empty sequence the least length is zero. -/
lemma leastLength_of_nil_mem (h : [] ∈ L) : leastLength L = 0 :=
  Nat.le_zero.mp (leastLength_le h)

/-- The least length of a product is the sum of both, cut at the bound.

**Proof sketch.** A shortest word of each factor gives a word of the product; and a word of the product
is one of each factor, neither shorter than the least length. -/
lemma leastLength_mul (L K : Language Nat) :
    leastLength (L * K) = min (leastLength L + leastLength K) unbounded := by
  refine le_antisymm (le_min ?_ (leastLength_le_unbounded _)) (le_leastLength (min_le_right _ _) ?_)
  · rcases leastLength_cases L with hL | ⟨u, hu, hL⟩
    · exact (leastLength_le_unbounded _).trans (hL ▸ Nat.le_add_right _ _)
    rcases leastLength_cases K with hK | ⟨v, hv, hK⟩
    · exact (leastLength_le_unbounded _).trans (hK ▸ Nat.le_add_left _ _)
    · rw [← hL, ← hK, ← List.length_append]
      exact leastLength_le (Language.append_mem_mul hu hv)
  · intro w hw
    obtain ⟨u, hu, v, hv, rfl⟩ := Language.mem_mul.mp hw
    rw [List.length_append]
    exact (min_le_left _ _).trans (Nat.add_le_add (leastLength_le hu) (leastLength_le hv))

end

namespace Grammar

variable {g : Grammar} {i : NodeId} {busy row : List NodeId} {w : TokenSeq}

/-! ## Grammars in which some nodes derive nothing -/

/-- **A grammar in which some nodes derive nothing**: they are choices without alternatives. -/
def without (g : Grammar) (busy : List NodeId) : Grammar :=
  { g with nodes := g.nodes.mapIdx fun i n => if i ∈ busy then { n with kind := .choice [] } else n }

/-- Without a node that is busy nothing is left out. -/
lemma without_nil (g : Grammar) : g.without [] = g := by
  have hnodes : g.nodes.mapIdx (fun i n =>
      if i ∈ ([] : List NodeId) then { n with kind := .choice [] } else n) = g.nodes := by
    refine Array.ext Array.size_mapIdx fun i _ _ => ?_
    simp
  rw [without, hnodes]

/-- A node that is not busy is as it was. -/
lemma kind_without_of_notMem (h : i ∉ busy) : (g.without busy).kind i = g.kind i := by
  rw [kind, node, without, Array.getD_eq_getD_getElem?, Array.getElem?_mapIdx, kind, node,
    Array.getD_eq_getD_getElem?]
  cases g.nodes[i]? with
  | none => rfl
  | some n => simp [h]

/-- A busy node has no expansions. -/
lemma kind_without_of_mem (h : i ∈ busy) (hi : i < g.nodes.size) :
    (g.without busy).kind i = .choice [] := by
  rw [kind, node, without, Array.getD_eq_getD_getElem?, Array.getElem?_mapIdx,
    Array.getElem?_eq_getElem hi]
  simp [h]

/-- Only the kind of a node and the right sides of productions matter for what replaces it. -/
lemma Expands.congr {h : Grammar} (hkind : h.kind i = g.kind i) (hbody : ∀ p, h.body p = g.body p)
    (he : g.Expands i row) : h.Expands i row := by
  cases he with
  | production hk hroot => exact .production (hkind.trans hk) ((hbody _).trans hroot)
  | alternative hk ha => exact .alternative (hkind.trans hk) ha
  | sequence hk => exact .sequence (hkind.trans hk)
  | oneOrMore n hk => exact .oneOrMore n (hkind.trans hk)
  | zeroOrMore n hk => exact .zeroOrMore n (hkind.trans hk)
  | absent hk => exact .absent (hkind.trans hk)
  | present hk => exact .present (hkind.trans hk)
  | lookahead hk => exact .lookahead (hkind.trans hk)
  | action hk => exact .action (hkind.trans hk)

/-- A node that is not busy is expanded as before. -/
lemma expands_without (h : i ∉ busy) : (g.without busy).Expands i row ↔ g.Expands i row :=
  ⟨.congr (kind_without_of_notMem h).symm fun _ => rfl, .congr (kind_without_of_notMem h) fun _ => rfl⟩

section

variable (hbusy : ∀ j ∈ busy, j < g.nodes.size)

include hbusy

/-- A busy node is no token. -/
lemma notMem_of_token {k : Nat} (h : (g.without busy).kind i = .token k) : i ∉ busy := by
  intro hi
  rw [kind_without_of_mem hi (hbusy i hi)] at h
  cases h

/-- A node that derives nothing cannot be replaced. -/
lemma notMem_of_expands (h : (g.without busy).Expands i row) : i ∉ busy := by
  intro hi
  have hk := kind_without_of_mem hi (hbusy i hi)
  cases h <;> simp_all

/-- A node that derives nothing is no loss to what others derive.

**Proof sketch.** Induction on the derivation: every node that it expands is not busy, with more busy
nodes and therefore with fewer. -/
lemma Derives.of_without_cons (hi : i < g.nodes.size) (hd : (g.without (i :: busy)).Derives row w) :
    (g.without busy).Derives row w := by
  have hall : ∀ j ∈ i :: busy, j < g.nodes.size := List.forall_mem_cons.mpr ⟨hi, hbusy⟩
  induction hd with
  | nil => exact .nil
  | token hk _ ih =>
    have hj := notMem_of_token hall hk
    rw [kind_without_of_notMem hj] at hk
    exact .token ((kind_without_of_notMem (List.not_mem_of_not_mem_cons hj)).trans hk) ih
  | expand he _ ih =>
    have hj := notMem_of_expands hall he
    exact .expand ((expands_without (List.not_mem_of_not_mem_cons hj)).mpr
      ((expands_without hj).mp he)) ih

/-- **A derivation that comes back to a node can be cut down.** Either the derivation does without the
node, or the node derives a word that is no longer, without coming back to itself.

**Proof sketch.** Induction on the derivation. Where the node is replaced for the last time, the row
that it is replaced by does without the node. -/
lemma Derives.cut (hi : i < g.nodes.size) (hnot : i ∉ busy) (htoken : ∀ k, g.kind i ≠ .token k)
    (hd : (g.without busy).Derives row w) : (g.without (i :: busy)).Derives row w ∨
      ∃ row' w', g.Expands i row' ∧ (g.without (i :: busy)).Derives row' w' ∧ w'.length ≤ w.length := by
  induction hd with
  | nil => exact Or.inl .nil
  | @token j k rest w hk _ ih =>
    have hj := notMem_of_token hbusy hk
    rw [kind_without_of_notMem hj] at hk
    have hji : j ≠ i := by
      rintro rfl
      exact htoken k hk
    rcases ih with hd | ⟨row', w', he, hd, hle⟩
    · have hj' := List.not_mem_cons_of_ne_of_not_mem hji hj
      exact Or.inl (.token ((kind_without_of_notMem hj').trans hk) hd)
    · exact Or.inr ⟨row', w', he, hd, hle.trans (Nat.le_succ _)⟩
  | @expand j row rest w he _ ih =>
    have hj := notMem_of_expands hbusy he
    have he' := (expands_without hj).mp he
    rcases ih with hd | hcut
    · by_cases hji : j = i
      · subst hji
        -- the row comes without the node, and what stands behind it is not needed
        obtain ⟨u, hu, v, -, rfl⟩ := Derives.split hd rfl
        refine Or.inr ⟨row, u, he', hu, ?_⟩
        rw [List.length_append]
        exact Nat.le_add_right _ _
      · have hj' := List.not_mem_cons_of_ne_of_not_mem hji hj
        exact Or.inl (.expand ((expands_without hj').mpr he') hd)
    · exact Or.inr hcut

end

/-! ## Least sizes while nodes are being measured -/

/-- **The minimum size of a row of nodes** while some nodes are being measured. -/
noncomputable def least (g : Grammar) (busy row : List NodeId) : Nat :=
  leastLength ((g.without busy).words row)

/-- Least lengths are not above the bound. -/
lemma least_le_unbounded (g : Grammar) (busy row : List NodeId) : g.least busy row ≤ unbounded :=
  leastLength_le_unbounded _

/-- The empty row has the least length zero. -/
lemma least_nil (g : Grammar) (busy : List NodeId) : g.least busy [] = 0 :=
  leastLength_of_nil_mem .nil

/-- The least length of a row is the sum of those of its nodes, cut at the bound. -/
lemma least_cons (g : Grammar) (busy : List NodeId) (i : NodeId) (row : List NodeId) :
    g.least busy (i :: row) = min (g.least busy [i] + g.least busy row) unbounded := by
  rw [least, words_cons, leastLength_mul]
  rfl

/-- The minimum size of a row is the sum of those of its nodes. -/
lemma least_eq_sum (g : Grammar) (busy row : List NodeId) :
    g.least busy row = min (row.map fun i => g.least busy [i]).sum unbounded := by
  induction row with
  | nil => rw [least_nil, List.map_nil, List.sum_nil, Nat.zero_min]
  | cons i row ih =>
    rw [least_cons, ih, List.map_cons, List.sum_cons]
    omega

/-- A body that is repeated is no shorter than the body alone. -/
lemma least_le_replicate (g : Grammar) (busy : List NodeId) (i : NodeId) (n : Nat) :
    g.least busy [i] ≤ g.least busy (List.replicate (n + 1) i) := by
  rw [List.replicate_succ, least_cons g busy i (List.replicate n i)]
  exact le_min (Nat.le_add_right _ _) (least_le_unbounded g busy [i])

/-- A node that derives the empty sequence has size zero. -/
lemma least_of_expands_nil (hnot : i ∉ busy) (he : g.Expands i []) : g.least busy [i] = 0 :=
  leastLength_of_nil_mem (.expand ((expands_without hnot).mpr he) .nil)

/-- A token has the least length one. -/
lemma least_token {k : Nat} (hnot : i ∉ busy) (hk : g.kind i = .token k) : g.least busy [i] = 1 := by
  have hk' := (kind_without_of_notMem hnot).trans hk
  refine le_antisymm ?_ (le_leastLength (by decide) fun w hw => ?_)
  · exact leastLength_le (w := [k]) ((mem_words_token hk').mpr rfl)
  · rw [(mem_words_token hk').mp hw, List.length_singleton]

section

variable (hbusy : ∀ j ∈ busy, j < g.nodes.size)

include hbusy

/-- A node that is being measured derives nothing. -/
lemma least_of_mem (hi : i ∈ busy) : g.least busy [i] = unbounded := by
  refine le_antisymm (least_le_unbounded g busy [i]) (le_leastLength le_rfl fun w hw => ?_)
  obtain ⟨a, ha, -⟩ := (mem_words_choice (kind_without_of_mem hi (hbusy i hi))).mp hw
  cases ha

/-- A row that can replace a node is no shorter, without the node, than the node. -/
lemma least_le_of_expands (hi : i < g.nodes.size) (hnot : i ∉ busy) (he : g.Expands i row) :
    g.least busy [i] ≤ g.least (i :: busy) row := by
  refine le_leastLength (least_le_unbounded g busy [i]) fun w hw => leastLength_le ?_
  refine .expand ((expands_without hnot).mpr he) ?_
  rw [List.append_nil]
  exact Derives.of_without_cons hbusy hi hw

/-- **A node that is no token has the size of a row that can replace it**, without the node. -/
lemma least_cases (hi : i < g.nodes.size) (hnot : i ∉ busy) (htoken : ∀ k, g.kind i ≠ .token k) :
    g.least busy [i] = unbounded ∨
      ∃ row, g.Expands i row ∧ g.least (i :: busy) row ≤ g.least busy [i] := by
  have hall : ∀ j ∈ i :: busy, j < g.nodes.size := List.forall_mem_cons.mpr ⟨hi, hbusy⟩
  rcases leastLength_cases ((g.without busy).words [i]) with heq | ⟨w, hw, heq⟩
  · exact Or.inl heq
  rcases Derives.cut hbusy hi hnot htoken hw with hd | ⟨row, w', he, hd, hle⟩
  · obtain ⟨a, ha, -⟩ := (mem_words_choice (kind_without_of_mem List.mem_cons_self hi)).mp hd
    cases ha
  · exact Or.inr ⟨row, he, (leastLength_le hd).trans (hle.trans_eq heq)⟩

/-- A node that nothing can replace has no size. -/
lemma least_of_stuck (hi : i < g.nodes.size) (hnot : i ∉ busy) (htoken : ∀ k, g.kind i ≠ .token k)
    (hstuck : ∀ row, ¬ g.Expands i row) : g.least busy [i] = unbounded :=
  (least_cases hbusy hi hnot htoken).resolve_right fun ⟨row, he, _⟩ => hstuck row he

/-- A node has the size of a row that can replace it, if the others are no shorter. -/
lemma least_eq_of_expands (hi : i < g.nodes.size) (hnot : i ∉ busy)
    (htoken : ∀ k, g.kind i ≠ .token k) (he : g.Expands i row)
    (hleast : ∀ row', g.Expands i row' → g.least (i :: busy) row ≤ g.least (i :: busy) row') :
    g.least busy [i] = g.least (i :: busy) row := by
  refine le_antisymm (least_le_of_expands hbusy hi hnot he) ?_
  rcases least_cases hbusy hi hnot htoken with heq | ⟨row', he', hle⟩
  · exact (least_le_unbounded g _ row).trans heq.ge
  · exact (hleast row' he').trans hle

end

/-! ## Measuring -/

/-- **Two sizes are the same, as far as a cap lets one see.** -/
def Agrees (cap r m : Nat) : Prop := r ≤ unbounded ∧ min r cap = min m cap

/-- A length below the bound agrees with itself. -/
lemma Agrees.refl {cap m : Nat} (hm : m ≤ unbounded) : Agrees cap m m := ⟨hm, rfl⟩

/-- What agrees up to the bound is equal. -/
lemma Agrees.eq {r m : Nat} (h : Agrees unbounded r m) (hm : m ≤ unbounded) : r = m := by
  obtain ⟨hr, heq⟩ := h
  omega

/-- Measuring a node, unless it is being measured. -/
lemma measuring_eq (i : NodeId) (work : Measuring Nat) (busy : List NodeId) :
    measuring i work busy = if i ∈ busy then (unbounded, busy)
      else ((work (i :: busy)).1, (work (i :: busy)).2.tail) := by
  change (if busy.contains i then (pure unbounded : Measuring Nat)
    else do
      modify (i :: ·)
      let size ← work
      modify List.tail
      return size) busy = _
  simp only [List.contains_iff_mem]
  split_ifs <;> rfl

/-- **The least size of several alternatives** and of what is known already, if each is measured as far
as that lets one see.

**Proof sketch.** Induction on the alternatives. When the least size so far is zero, nothing is measured
any more; otherwise the next one is measured as far as the least size, which is enough to see whether it
is smaller. -/
lemma leastSize_spec {size : NodeId → Nat → Measuring Nat} {m : NodeId → Nat} (ids : List NodeId) :
    ∀ least ≤ unbounded, (∀ a ∈ ids, ∀ cap ≤ unbounded, ∃ r, size a cap busy = (r, busy) ∧
      Agrees cap r (m a)) →
    ∃ r, leastSize size least ids busy = (r, busy) ∧ r ≤ least ∧ (∀ a ∈ ids, r ≤ m a) ∧
      (r = least ∨ ∃ a ∈ ids, r = m a) := by
  induction ids with
  | nil => exact fun least _ _ => ⟨least, rfl, le_rfl, by simp, Or.inl rfl⟩
  | cons a ids ih =>
    intro least hle hsize
    by_cases hzero : least = 0
    · subst hzero
      refine ⟨0, ?_, le_rfl, fun a _ => Nat.zero_le _, Or.inl rfl⟩
      rw [leastSize, if_pos rfl]
      rfl
    · obtain ⟨n, hn, hbound, hagree⟩ := hsize a List.mem_cons_self least hle
      obtain ⟨r, hr, hrle, hall, hwhich⟩ := ih (min least n) ((min_le_left _ _).trans hle)
        fun b hb => hsize b (List.mem_cons_of_mem a hb)
      refine ⟨r, ?_, by omega, List.forall_mem_cons.mpr ⟨by omega, hall⟩, ?_⟩
      · rw [leastSize, if_neg hzero]
        simp only [bind, StateT.bind, hn]
        exact hr
      · rcases hwhich with rfl | ⟨b, hb, rfl⟩
        · rcases Nat.le_total least (m a) with h | h
          · exact Or.inl (by omega)
          · exact Or.inr ⟨a, List.mem_cons_self, by omega⟩
        · exact Or.inr ⟨b, List.mem_cons_of_mem a hb, rfl⟩

/-- **The size of several units in a row**, as far as the cap lets one see, if each is measured
exactly.

**Proof sketch.** Induction on the units. The sum is cut at the bound, and when it reaches the cap, the
others are not measured; then neither the sum nor the size is seen any more. -/
lemma totalSize_spec {size : NodeId → Nat → Measuring Nat} {m : NodeId → Nat} (cap : Nat)
    (ids : List NodeId) : ∀ total ≤ unbounded, (∀ u ∈ ids, size u unbounded busy = (m u, busy)) →
    ∃ r, totalSize size cap total ids busy = (r, busy) ∧
      Agrees cap r (min (total + (ids.map m).sum) unbounded) := by
  induction ids with
  | nil =>
    intro total hle _
    refine ⟨total, rfl, hle, ?_⟩
    rw [List.map_nil, List.sum_nil, Nat.add_zero, min_eq_left hle]
  | cons u ids ih =>
    intro total hle hsize
    have hrest := fun v hv => hsize v (List.mem_cons_of_mem u hv)
    have hu := hsize u List.mem_cons_self
    rw [List.map_cons, List.sum_cons, totalSize]
    simp only [bind, StateT.bind, hu]
    by_cases hend : total = unbounded ∨ m u = unbounded
    · obtain ⟨r, hr, hagree⟩ := ih unbounded le_rfl hrest
      refine ⟨r, ?_, hagree.1, ?_⟩
      · simpa [hend] using hr
      · have := hagree.2
        omega
    · obtain ⟨htotal, hm⟩ := not_or.mp hend
      by_cases hcap : cap < min (total + m u) unbounded
      · refine ⟨min (total + m u) unbounded, ?_, min_le_right _ _, by omega⟩
        simp [htotal, hm, hcap]
        rfl
      · obtain ⟨r, hr, hagree⟩ := ih (min (total + m u) unbounded) (min_le_right _ _) hrest
        refine ⟨r, ?_, hagree.1, ?_⟩
        · simpa [htotal, hm, hcap] using hr
        · have := hagree.2
          omega

/-- **There is room to measure more nodes**: those that are being measured are different, and the depth
is more than the number of the others. -/
structure Room (g : Grammar) (busy : List NodeId) (depth : Nat) : Prop where
  nodup : busy.Nodup
  lt : ∀ i ∈ busy, i < g.nodes.size
  depth : g.nodes.size < depth + busy.length

/-- At the beginning there is room enough. -/
lemma room_nil (g : Grammar) : g.Room [] (g.nodes.size + 1) :=
  ⟨List.nodup_nil, fun _ hi => absurd hi List.not_mem_nil, Nat.lt_succ_self _⟩

/-- A node that becomes busy takes one place of the room. -/
lemma Room.cons {depth : Nat} (h : g.Room busy (depth + 1)) (hi : i < g.nodes.size) (hnot : i ∉ busy) :
    g.Room (i :: busy) depth := by
  refine ⟨List.nodup_cons.mpr ⟨hnot, h.nodup⟩, List.forall_mem_cons.mpr ⟨hi, h.lt⟩, ?_⟩
  have := h.depth
  rw [List.length_cons]
  omega

/-- There is always some depth left. -/
lemma Room.depth_pos {depth : Nat} (h : g.Room busy depth) : 0 < depth := by
  have hle : busy.length ≤ (List.range g.nodes.size).length :=
    (h.nodup.subperm fun i hi => List.mem_range.mpr (h.lt i hi)).length_le
  have := h.depth
  rw [List.length_range] at hle
  omega

/-- **Measuring every node**, as far as the cap lets one see, while some nodes are being measured. -/
def Measures (g : Grammar) (busy : List NodeId) (size : NodeId → Nat → Measuring Nat) : Prop :=
  ∀ j, ∀ cap ≤ unbounded, ∃ r, size j cap busy = (r, busy) ∧ Agrees cap r (g.least busy [j])

/-- Without a cap the size is exact. -/
lemma Measures.exact {size : NodeId → Nat → Measuring Nat} (h : g.Measures busy size) (j : NodeId) :
    size j unbounded busy = (g.least busy [j], busy) := by
  obtain ⟨r, hr, hagree⟩ := h j unbounded le_rfl
  rw [hr, hagree.eq (least_le_unbounded g busy [j])]

/-- A node that is being measured is not measured again, and it is not left being measured. -/
lemma agrees_measuring {cap : Nat} {work : Measuring Nat} (hbusy : ∀ j ∈ busy, j < g.nodes.size)
    (hwork : i ∉ busy → ∃ r, work (i :: busy) = (r, i :: busy) ∧ Agrees cap r (g.least busy [i])) :
    ∃ r, measuring i work busy = (r, busy) ∧ Agrees cap r (g.least busy [i]) := by
  rw [measuring_eq]
  by_cases hmem : i ∈ busy
  · rw [if_pos hmem, least_of_mem hbusy hmem]
    exact ⟨unbounded, rfl, .refl le_rfl⟩
  · obtain ⟨r, hr, hagree⟩ := hwork hmem
    rw [if_neg hmem, hr]
    exact ⟨r, rfl, hagree⟩

section

variable {cap : Nat} {size : NodeId → Nat → Measuring Nat} (hbusy : ∀ j ∈ busy, j < g.nodes.size)
  (hnot : i ∉ busy) (hsize : g.Measures (i :: busy) size)

include hbusy hnot hsize

/-- What is measured at a nonterminal: the right side of its production.

**Proof sketch.** Without a right side nothing is derived, and the size is the bound. Otherwise the
nonterminal derives what the right side does, which is measured with the nonterminal as a busy node. -/
lemma agrees_nonterminal {name : String} {p : Option Nat} (hk : g.kind i = .nonterminal name p) :
    ∃ r, (match p.bind g.body with
      | some root => size root unbounded
      | none => return unbounded : Measuring Nat) (i :: busy) = (r, i :: busy) ∧
        Agrees cap r (g.least busy [i]) := by
  have hi : i < g.nodes.size := lt_size_of_kind (by simp [hk])
  have htoken : ∀ k, g.kind i ≠ .token k := by simp [hk]
  cases hroot : p.bind g.body with
  | none =>
    have hstuck : ∀ row, ¬ g.Expands i row := by
      intro row he
      cases he <;> simp_all
    rw [least_of_stuck hbusy hi hnot htoken hstuck]
    exact ⟨unbounded, rfl, .refl le_rfl⟩
  | some root =>
    obtain ⟨q, rfl, hbody⟩ := Option.bind_eq_some_iff.mp hroot
    have hrow : ∀ row, g.Expands i row → row = [root] := by
      intro row he
      cases he <;> simp_all
    rw [least_eq_of_expands hbusy hi hnot htoken (.production hk hbody) fun row he => by
      rw [hrow row he]]
    exact ⟨_, hsize.exact root, .refl (least_le_unbounded _ _ _)⟩

/-- What is measured at a choice: the least size of the alternatives and of the cap.

**Proof sketch.** The least size found is not above that of any alternative and is that of one of them,
or it is the cap. Both hold of the node as well, since each expansion is an alternative. -/
lemma agrees_choice {alternatives : List NodeId} (hk : g.kind i = .choice alternatives)
    (hcap : cap ≤ unbounded) : ∃ r, leastSize size cap alternatives (i :: busy) = (r, i :: busy) ∧
      Agrees cap r (g.least busy [i]) := by
  have hi : i < g.nodes.size := lt_size_of_kind (by simp [hk])
  obtain ⟨r, hr, hle, hall, hwhich⟩ := leastSize_spec (m := fun a => g.least (i :: busy) [a])
    alternatives cap hcap fun a _ => hsize a
  refine ⟨r, hr, hle.trans hcap, ?_⟩
  -- the node is no longer than any alternative, and as long as one of them
  have hupper : ∀ a ∈ alternatives, g.least busy [i] ≤ g.least (i :: busy) [a] :=
    fun a ha => least_le_of_expands hbusy hi hnot (.alternative hk ha)
  have hlower : min r cap ≤ g.least busy [i] := by
    rcases least_cases hbusy hi hnot (by simp [hk]) with heq | ⟨row, he, hrow⟩
    · rw [heq]
      exact (min_le_right _ _).trans hcap
    · cases he with
      | alternative hk' ha =>
        obtain rfl : alternatives = _ := by simpa [hk] using hk'
        exact (min_le_left _ _).trans ((hall _ ha).trans hrow)
      | _ => simp_all
  rcases hwhich with rfl | ⟨a, ha, rfl⟩
  · omega
  · have := hupper a ha
    omega

/-- What is measured at a sequence: the sum of the sizes of the units. -/
lemma agrees_sequence {units : List NodeId} (hk : g.kind i = .sequence units) :
    ∃ r, totalSize size cap 0 units (i :: busy) = (r, i :: busy) ∧ Agrees cap r (g.least busy [i]) := by
  have hi : i < g.nodes.size := lt_size_of_kind (by simp [hk])
  have hrow : ∀ row, g.Expands i row → row = units := by
    intro row he
    cases he <;> simp_all
  obtain ⟨r, hr, hagree⟩ := totalSize_spec (m := fun u => g.least (i :: busy) [u]) cap units 0
    (Nat.zero_le _) fun u _ => hsize.exact u
  refine ⟨r, hr, ?_⟩
  rwa [least_eq_of_expands hbusy hi hnot (by simp [hk]) (.sequence hk) fun row he => by
    rw [hrow row he], least_eq_sum, ← Nat.zero_add (List.sum _)]

/-- What is measured at a repetition that is not optional: its body.

**Proof sketch.** One copy is the shortest row of copies, and it is an expansion. -/
lemma agrees_oneOrMore {b : NodeId} (hk : g.kind i = .oneOrMore b) :
    ∃ r, size b unbounded (i :: busy) = (r, i :: busy) ∧ Agrees cap r (g.least busy [i]) := by
  have hi : i < g.nodes.size := lt_size_of_kind (by simp [hk])
  have hleast : ∀ row, g.Expands i row → g.least (i :: busy) [b] ≤ g.least (i :: busy) row := by
    intro row he
    cases he with
    | oneOrMore n hk' =>
      obtain rfl : b = _ := by simpa [hk] using hk'
      exact least_le_replicate g _ b n
    | _ => simp_all
  have hone : g.Expands i [b] := .oneOrMore 0 hk
  rw [least_eq_of_expands hbusy hi hnot (by simp [hk]) hone hleast]
  exact ⟨_, hsize.exact b, .refl (least_le_unbounded _ _ _)⟩

end

/-- **What is measured** while some nodes are being measured is their minimum size, as far as the cap
lets one see, when those derive nothing.

**Proof sketch.** Induction on the depth. What is measured below a node counts the node as being
measured, and by `least_cases` nothing is lost by that. -/
lemma measures_sizeWithin (depth : Nat) : ∀ {busy : List NodeId}, g.Room busy depth →
    g.Measures busy (g.sizeWithin depth) := by
  induction depth with
  | zero => exact fun hroom => absurd hroom.depth_pos (lt_irrefl 0)
  | succ depth ih =>
    intro busy hroom i cap hcap
    rw [sizeWithin]
    refine agrees_measuring hroom.lt fun hmem => ?_
    have hbelow : i < g.nodes.size → g.Measures (i :: busy) (g.sizeWithin depth) :=
      fun hi => ih (hroom.cons hi hmem)
    cases hk : g.kind i with
    | token k =>
      rw [least_token hmem hk]
      exact ⟨1, rfl, .refl (by decide)⟩
    | nonterminal name p =>
      exact agrees_nonterminal hroom.lt hmem (hbelow (lt_size_of_kind (by simp [hk]))) hk
    | choice alternatives =>
      exact agrees_choice hroom.lt hmem (hbelow (lt_size_of_kind (by simp [hk]))) hk hcap
    | sequence units =>
      exact agrees_sequence hroom.lt hmem (hbelow (lt_size_of_kind (by simp [hk]))) hk
    | oneOrMore b =>
      exact agrees_oneOrMore hroom.lt hmem (hbelow (lt_size_of_kind (by simp [hk]))) hk
    | zeroOrMore b =>
      rw [least_of_expands_nil hmem (.zeroOrMore 0 hk)]
      exact ⟨0, rfl, .refl (Nat.zero_le _)⟩
    | zeroOrOne b =>
      rw [least_of_expands_nil hmem (.absent hk)]
      exact ⟨0, rfl, .refl (Nat.zero_le _)⟩
    | lookahead spec =>
      rw [least_of_expands_nil hmem (.lookahead hk)]
      exact ⟨0, rfl, .refl (Nat.zero_le _)⟩
    | action code =>
      rw [least_of_expands_nil hmem (.action hk)]
      exact ⟨0, rfl, .refl (Nat.zero_le _)⟩

/-- **The minimum size is exact**: it is the least length of a token sequence that the node derives, or
`unbounded` if that is less. When a node has been measured, none is left being measured.

**Proof sketch.** With no busy nodes there is room enough for the depth of the walk (`room_nil`), so
that it measures the least length exactly (`measures_sizeWithin`). -/
theorem minimumSize_eq (g : Grammar) (i : NodeId) :
    (g.minimumSize i : ℕ∞) = min (⨅ w ∈ g.words [i], (w.length : ℕ∞)) unbounded ∧
      (g.sizeWithin (g.nodes.size + 1) i unbounded []).2 = [] := by
  have hmeasured := (measures_sizeWithin _ g.room_nil).exact i
  rw [minimumSize, hmeasured, least, without_nil]
  exact ⟨coe_leastLength _, rfl⟩

end Grammar

end GrammarForge
