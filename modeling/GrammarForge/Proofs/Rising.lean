import GrammarForge.Proofs.Descent
import GrammarForge.Proofs.Openings
import Mathlib.Data.Finset.Prod

set_option autoImplicit false

/-!
# What can follow a node

From a node one rises to what it is a part of, past what comes after it there, and from the right
side of a production to the nodes that refer to the production. The words passed on the way are what
can follow the node. What is read on the way need not come to an end: the nodes that are being passed
need not derive anything behind the last token. In a linked grammar that is a tree, the way up is
given by the parent.

## Main definitions

* `Grammar.Rises` — one step up, and the words passed.
* `Grammar.Follows` — what has been passed on a way up.
* `Grammar.Passes`, `Grammar.Trails` — what has been read on a way up when it stops.
* `Grammar.riseReading` — what can be read on the way to the parent.
* `wordsUpTo` — the words of a limited length.

## Main results

* `Grammar.Trails.cut` — a beginning of what can be read on a way up can be read, too.
* `Grammar.TreeShaped.linked` — a tree without left recursion is linked after linking.
* `Grammar.rises_root`, `Grammar.rises_part` — the steps up from a node, by its parent.
* `card_wordsUpTo_le` — there are not too many words of a limited length.
-/

namespace GrammarForge

open Computability Relation

/-- The words with fewer letters than a limit. -/
def wordsUpTo (letters : Finset Nat) : Nat → Finset TokenSeq
  | 0 => ∅
  | n + 1 => insert [] ((letters ×ˢ wordsUpTo letters n).image fun x => x.1 :: x.2)

/-- A sequence of letters below a length is among the words up to this length. -/
lemma mem_wordsUpTo {letters : Finset Nat} : ∀ {n : Nat} {w : TokenSeq}, w.length < n →
    (∀ k ∈ w, k ∈ letters) → w ∈ wordsUpTo letters n
  | 0, _, hlt, _ => absurd hlt (Nat.not_lt_zero _)
  | _ + 1, [], _, _ => Finset.mem_insert_self _ _
  | n + 1, k :: w, hlt, hw => by
    refine Finset.mem_insert_of_mem (Finset.mem_image.mpr ⟨(k, w), ?_, rfl⟩)
    exact Finset.mem_product.mpr ⟨hw k List.mem_cons_self,
      mem_wordsUpTo (Nat.lt_of_succ_lt_succ hlt) fun x hx => hw x (List.mem_cons_of_mem k hx)⟩

/-- **There are not too many words** of a limited length.

**Proof sketch.** Induction on the length: a word is empty or a letter and a shorter word. -/
lemma card_wordsUpTo_le {letters : Finset Nat} {c : Nat} (hc : letters.card ≤ c) (n : Nat) :
    (wordsUpTo letters n).card ≤ (c + 1) ^ n := by
  induction n with
  | zero => exact Nat.zero_le _
  | succ n ih =>
    calc (wordsUpTo letters (n + 1)).card
        ≤ ((letters ×ˢ wordsUpTo letters n).image fun x => x.1 :: x.2).card + 1 :=
          Finset.card_insert_le _ _
      _ ≤ letters.card * (wordsUpTo letters n).card + 1 := by
          rw [← Finset.card_product]
          exact Nat.succ_le_succ Finset.card_image_le
      _ ≤ c * (c + 1) ^ n + (c + 1) ^ n :=
          Nat.add_le_add (Nat.mul_le_mul hc ih) (Nat.one_le_pow _ _ (Nat.succ_pos c))
      _ = (c + 1) ^ (n + 1) := by rw [pow_succ', Nat.add_mul, Nat.one_mul]

namespace Grammar

/-- **One step up from a node**, and the word passed: from a unit to its sequence past the units
after it, from the body of a repetition past more of it, from an alternative or an optional body to
its parent, and from the right side of a production to a node of a production that refers to it. -/
inductive Rises (g : Grammar) : NodeId → NodeId → TokenSeq → Prop
  | unit {i q : NodeId} {before after : List NodeId} {w : TokenSeq} :
      g.kind q = .sequence (before ++ i :: after) → w ∈ g.words after → Rises g i q w
  | repeated {i q : NodeId} {w : TokenSeq} : g.kind q = .oneOrMore i ∨ g.kind q = .zeroOrMore i →
      w ∈ (g.words [i])∗ → Rises g i q w
  | alternative {i q : NodeId} {alternatives : List NodeId} : g.kind q = .choice alternatives →
      i ∈ alternatives → Rises g i q []
  | optional {i q : NodeId} : g.kind q = .zeroOrOne i → Rises g i q []
  | reference {i r p : Nat} {name : String} : g.body p = some i →
      g.kind r = .nonterminal name (some p) → g.InProduction r → Rises g i r []

/-- One step up, from what has been passed before it to what has been passed after it. -/
def Rise (g : Grammar) (a b : NodeId × TokenSeq) : Prop :=
  ∃ w, g.Rises a.1 b.1 w ∧ b.2 = a.2 ++ w

/-- **A token sequence can follow a node**: it is passed on a way up to `j`. -/
def Follows (g : Grammar) (i j : NodeId) (u : TokenSeq) : Prop :=
  ReflTransGen g.Rise (i, []) (j, u)

/-- **What is read when a step up from a node stops**, behind a token: an opening of the units after
it in a sequence, or of some more copies of the body of a repetition. -/
inductive Passes (g : Grammar) : NodeId → TokenSeq → Prop
  | unit {i q : NodeId} {before after : List NodeId} {w : TokenSeq} :
      g.kind q = .sequence (before ++ i :: after) → w ∈ g.openings after → Passes g i w
  | repeated {i q : NodeId} {w : TokenSeq} : g.kind q = .oneOrMore i ∨ g.kind q = .zeroOrMore i →
      w ∈ (g.reading [i]).plus.begun → Passes g i w

/-- **What can be read behind a node** on a way up that stops after some token. -/
def Trails (g : Grammar) (i : NodeId) (t : TokenSeq) : Prop :=
  ∃ j u w, g.Follows i j u ∧ g.Passes j w ∧ t = u ++ w

/-- What can be read behind a node on a way up that stops after `k` tokens. -/
def trails (g : Grammar) (k : Nat) (i : NodeId) : Set TokenSeq := {t | g.Trails i t ∧ t.length = k}

variable {g : Grammar} {i j q z : NodeId} {w u : TokenSeq}

/-- What follows a node follows those that it rises to, with more behind. -/
lemma Follows.rise (h : g.Follows i j u) (hrise : g.Rises j z w) : g.Follows i z (u ++ w) :=
  ReflTransGen.tail h ⟨w, hrise, rfl⟩

/-! ## Beginnings of what can be read -/

/-- A beginning of two lists in a row reaches into the second one, or it does not. -/
lemma prefix_append_cases {t u w : TokenSeq} (h : t <+: u ++ w) :
    t <+: u ∨ ∃ v, v <+: w ∧ v ≠ [] ∧ t = u ++ v := by
  rcases List.prefix_or_prefix_of_prefix h (List.prefix_append u w) with htu | ⟨v, rfl⟩
  · exact Or.inl htu
  · by_cases hv : v = []
    · rw [hv, List.append_nil]
      exact Or.inl (List.prefix_refl u)
    · exact Or.inr ⟨v, (List.prefix_append_right_inj u).mp h, hv, rfl⟩

/-- A beginning of what is read on repetitions of a way, if beginnings on the way are read, too.

**Proof sketch.** Induction on the whole repetitions. A beginning ends within the first one, which is an
opening then, or it goes on with the others. -/
lemma mem_plus_begun_cut {v : TokenSeq} (S : List TokenSeq) (hS : ∀ y ∈ S, y ∈ g.words [i])
    (hw : w = [] ∨ w ∈ g.openings [i]) : v <+: S.flatten ++ w → v ≠ [] →
      v ∈ (g.reading [i]).plus.begun := by
  induction S generalizing v with
  | nil =>
    intro hpre hne
    rcases hw with rfl | hw
    · exact absurd (List.prefix_nil.mp hpre) hne
    · exact Language.mem_mul.mpr ⟨[], Language.nil_mem_kstar _, v, Opens.cut hw hpre hne, rfl⟩
  | cons y S ih =>
    intro hpre hne
    have hy := hS y List.mem_cons_self
    rw [List.flatten_cons, List.append_assoc] at hpre
    rcases prefix_append_cases hpre with hvy | ⟨x, hx, hxne, rfl⟩
    · have hyne : y ≠ [] := fun hnil => hne (List.prefix_nil.mp (hnil ▸ hvy))
      exact Language.mem_mul.mpr ⟨[], Language.nil_mem_kstar _, v,
        (Derives.opens hy hyne).cut hvy hne, rfl⟩
    · obtain ⟨a, ha, b, hb, rfl⟩ := Language.mem_mul.mp
        (ih (fun z hz => hS z (List.mem_cons_of_mem y hz)) hx hxne)
      rw [← List.append_assoc]
      refine Language.append_mem_mul ?_ hb
      rw [← Language.one_add_self_mul_kstar_eq_kstar]
      exact Or.inr (Language.append_mem_mul hy ha)

/-- What is passed is not empty. -/
lemma Passes.ne_nil (h : g.Passes i w) : w ≠ [] := by
  cases h with
  | unit _ hw => exact Opens.ne_nil hw
  | repeated _ hw => exact Reading.ne_nil_of_mem_begun hw

/-- A beginning of what is passed is passed. -/
lemma Passes.cut {v : TokenSeq} (h : g.Passes i w) (hpre : v <+: w) (hne : v ≠ []) :
    g.Passes i v := by
  cases h with
  | unit hk hw => exact .unit hk (Opens.cut hw hpre hne)
  | repeated hk hw =>
    obtain ⟨x, hx, y, hy, rfl⟩ := Language.mem_mul.mp hw
    obtain ⟨S, rfl, hS⟩ := Language.mem_kstar.mp hx
    exact .repeated hk (mem_plus_begun_cut S hS (Or.inr hy) hpre hne)

/-- What is passed on a step up can be read when the step stops. -/
lemma Rises.passes {v : TokenSeq} (h : g.Rises i z w) (hpre : v <+: w) (hne : v ≠ []) :
    g.Passes i v := by
  have hw : w ≠ [] := fun hnil => hne (List.prefix_nil.mp (hnil ▸ hpre))
  cases h with
  | unit hk hmem => exact .unit hk ((Derives.opens hmem hw).cut hpre hne)
  | repeated hk hmem =>
    obtain ⟨S, rfl, hS⟩ := Language.mem_kstar.mp hmem
    refine .repeated hk (mem_plus_begun_cut (w := []) S hS (Or.inl rfl) ?_ hne)
    rwa [List.append_nil]
  | alternative | optional | reference => exact absurd rfl hw

/-- What is passed on a way up can be read on it.

**Proof sketch.** Induction on the way up. The beginning ends on the last step, or it is one of what was
read before. -/
lemma Follows.trails {t : TokenSeq} (h : g.Follows i j u) (hpre : t <+: u) (hne : t ≠ []) :
    g.Trails i t := by
  have hway : ∀ b, ReflTransGen g.Rise (i, []) b → t <+: b.2 → g.Trails i t := by
    intro b hb
    induction hb with
    | refl => exact fun hnil => absurd (List.prefix_nil.mp hnil) hne
    | @tail b c hb hrise ih =>
      obtain ⟨w, hw, heq⟩ := hrise
      rw [heq]
      intro hpre
      rcases prefix_append_cases hpre with htb | ⟨v, hv, hvne, rfl⟩
      · exact ih htb
      · exact ⟨b.1, b.2, v, hb, hw.passes hv hvne, rfl⟩
  exact hway (j, u) h hpre

/-- **A beginning of what can be read on a way up** can be read, too. -/
lemma Trails.cut {t v : TokenSeq} (h : g.Trails i t) (hpre : v <+: t) (hne : v ≠ []) :
    g.Trails i v := by
  obtain ⟨j, u, w, hu, hw, rfl⟩ := h
  rcases prefix_append_cases hpre with hvu | ⟨x, hx, hxne, rfl⟩
  · exact hu.trails hvu hne
  · exact ⟨j, u, x, hu, hw.cut hx hxne, rfl⟩

/-- In a grammar that can be expanded from the top, a step up that stops can be completed. -/
lemma Passes.exists_rise (h : g.Passes i w) (hg : g.TopDown) : ∃ z v, g.Rises i z v ∧ w <+: v := by
  cases h with
  | unit hk hw =>
    obtain ⟨v, hv, hpre⟩ := hg.exists_word hw
    exact ⟨_, v, .unit hk hv, hpre⟩
  | repeated hk hw =>
    obtain ⟨x, hx, y, hy, rfl⟩ := Language.mem_mul.mp hw
    obtain ⟨v, hv, hpre⟩ := hg.exists_word hy
    refine ⟨_, x ++ v, .repeated hk ?_, (List.prefix_append_right_inj x).mpr hpre⟩
    rw [← Language.one_add_kstar_mul_self_eq_kstar]
    exact Or.inr (Language.append_mem_mul hx hv)

/-! ## Trees -/

namespace TreeShaped

/-- Only nodes of the grammar have children. -/
lemma lt_of_child (h : i ∈ g.children q) : q < g.nodes.size := by
  refine lt_size_of_kind fun code hk => ?_
  rw [children, hk] at h
  cases h

/-- In a tree, children make a forest. -/
lemma forest (ht : g.TreeShaped) : g.Forest g.children := ⟨lt_of_child, ht⟩

/-- The right side of a production is not a child of a node. -/
lemma root_not_child (ht : g.TreeShaped) {p : Nat} (hroot : g.body p = some i) :
    i ∉ g.children q := ht.forest.root_not_below hroot

/-- In a tree a right side is not a part of a node. -/
lemma root_not_part (ht : g.TreeShaped) {p : Nat} (hroot : g.body p = some i) : ¬ g.Part q i :=
  fun hpart => ht.root_not_child hroot (List.mem_append_left _ hpart)

/-- Productions do not share their right sides. -/
lemma root_unique (ht : g.TreeShaped) {p p' : Nat} (hroot : g.body p = some i)
    (hroot' : g.body p' = some i) : p = p' := ht.forest.root_unique hroot hroot'

/-- A node is a child of one node only. -/
lemma child_unique (ht : g.TreeShaped) {q' : NodeId} (h : i ∈ g.children q)
    (h' : i ∈ g.children q') : q = q' := ht.forest.below_unique h h'

/-- In a tree a node is part of one node only. -/
lemma part_unique (ht : g.TreeShaped) {q' : NodeId} (h : g.Part q i) (h' : g.Part q' i) : q = q' :=
  ht.child_unique (List.mem_append_left _ h) (List.mem_append_left _ h')

/-- A node of a production is not below itself. -/
lemma not_below_itself (ht : g.TreeShaped) (hi : g.OnTree i) :
    ¬ TransGen (fun i j => j ∈ g.children i) i i := by
  obtain ⟨p, root, hroot, hpath⟩ := hi
  exact ht.forest.not_below_itself hroot
    (ReflTransGen.mono (fun _ _ hpart => List.mem_append_left _ hpart) _ _ hpath)

/-- **A tree is linked after linking**, if all nonterminals have productions with a right side. -/
lemma linked {ds : Diagnostics} (ht : (g.link ds).1.TreeShaped) (hids : g.unknownId? = none)
    (hscan : ∀ {i spec}, g.kind i = .lookahead spec → spec.expansion = none)
    (hg : (g.link ds).1.Predictive) : (g.link ds).1.Linked :=
  linked_of_acyclic hids hscan hg.resolved fun _ hi => ht.not_below_itself hi

/-- A node is not twice a part of a node. -/
lemma parts_nodup (ht : g.TreeShaped) (q : NodeId) : (g.kind q).parts.Nodup :=
  (List.nodup_append.mp (ht.forest.nodup_below q)).1

end TreeShaped

/-! ## The way to the parent -/

/-- What can be read on the way from the part `i` at a place of the node `q` to this node. -/
def riseReading (g : Grammar) (q i : NodeId) (index : Nat) : Reading :=
  match g.kind q with
  | .sequence units => g.reading (units.drop (index + 1))
  | .oneOrMore _ | .zeroOrMore _ => 1 + (g.reading [i]).plus
  | _ => 1

/-- Some more copies of the body of a repetition, or none. -/
lemma mem_one_add_plus : w ∈ (1 + (g.reading [i]).plus).whole ↔ w ∈ (g.words [i])∗ := by
  rw [← Language.one_add_self_mul_kstar_eq_kstar]
  exact Iff.rfl

/-- Rising to what a node is not a part of is rising from the right side of a production.

**Proof sketch.** By the steps up: all but that from the right side of a production lead to a node with
this part. -/
lemma Rises.cases (h : g.Rises i z w) : g.Part z i ∨
    (w = [] ∧ ∃ p name, g.body p = some i ∧ g.kind z = .nonterminal name (some p) ∧
      g.InProduction z) := by
  cases h with
  | unit hk _ =>
    refine Or.inl ?_
    rw [Part, hk]
    exact List.mem_append_right _ List.mem_cons_self
  | repeated hk _ =>
    refine Or.inl ?_
    rcases hk with hk | hk <;>
    · rw [Part, hk]
      exact List.mem_singleton_self i
  | alternative hk hi =>
    refine Or.inl ?_
    rw [Part, hk]
    exact hi
  | optional hk =>
    refine Or.inl ?_
    rw [Part, hk]
    exact List.mem_singleton_self i
  | reference hb hk hz => exact Or.inr ⟨rfl, _, _, hb, hk, hz⟩

/-- What is read on a step up from a node that stops, is read within a node that it is a part of. -/
lemma Passes.part (h : g.Passes i w) : ∃ q, g.Part q i := by
  cases h with
  | @unit q before after _ hk _ =>
    refine ⟨q, ?_⟩
    rw [Part, hk]
    exact List.mem_append_right _ List.mem_cons_self
  | @repeated q _ hk _ =>
    refine ⟨q, ?_⟩
    rcases hk with hk | hk <;>
    · rw [Part, hk]
      exact List.mem_singleton_self i

/-- **The steps up from the right side of a production** lead to the nodes that refer to it. -/
lemma rises_root (hl : g.Linked) (ht : g.TreeShaped) {p : Nat} (hroot : g.body p = some i) :
    g.Rises i z w ↔ w = [] ∧ z ∈ g.references p := by
  rw [hl.mem_references]
  constructor
  · intro h
    rcases h.cases with hpart | ⟨rfl, p', name, hroot', hk, hz⟩
    · exact absurd hpart (ht.root_not_part hroot)
    · rw [ht.root_unique hroot hroot', productionOf?, hk]
      exact ⟨rfl, (hl.onTree z).mp hz, rfl⟩
  · rintro ⟨rfl, hz, hof⟩
    obtain ⟨name, hk⟩ := kind_of_productionOf? hof
    exact .reference hroot hk ((hl.onTree z).mpr hz)

/-- The units after a unit of a sequence. -/
lemma TreeShaped.drop_eq (ht : g.TreeShaped) {index : Nat} {before after : List NodeId}
    (hpart : (g.kind q).parts[index]? = some i) (hk : g.kind q = .sequence (before ++ i :: after)) :
    (before ++ i :: after).drop (index + 1) = after := by
  have hnodup := ht.parts_nodup q
  rw [hk] at hpart hnodup
  have hget : (before ++ i :: after)[before.length]? = some i := by simp
  have hlt : before.length < (before ++ i :: after).length := by simp
  have hindex : before.length = index :=
    (List.getElem?_inj hlt hnodup).mp (hget.trans hpart.symm)
  rw [← hindex]
  simp

/-- A sequence around a unit at a place. -/
lemma eq_take_append_drop {index : Nat} {units : List NodeId} (hget : units[index]? = some i) :
    units = units.take index ++ i :: units.drop (index + 1) := by
  obtain ⟨hlt, rfl⟩ := List.getElem?_eq_some_iff.mp hget
  rw [List.getElem_cons_drop, List.take_append_drop]

/-- **The steps up from a part of a node** lead to this node, past what comes after the part.

**Proof sketch.** In a tree, the node that has the part is the only one, at the only place. Then by the
kind of this node: behind the part are the units after it, further passes, or nothing. -/
lemma rises_part (ht : g.TreeShaped) {index : Nat} (hpart : (g.kind q).parts[index]? = some i) :
    g.Rises i z w ↔ z = q ∧ w ∈ (g.riseReading q i index).whole := by
  have hmem : g.Part q i := List.mem_of_getElem? hpart
  constructor
  · intro h
    have hz : z = q := by
      rcases h.cases with hz | ⟨-, p, name, hroot, -, -⟩
      · exact ht.part_unique hz hmem
      · exact absurd hmem (ht.root_not_part hroot)
    subst hz
    refine ⟨rfl, ?_⟩
    cases h with
    | unit hk hw =>
      rw [riseReading, hk]
      simpa only [ht.drop_eq hpart hk, reading_whole] using hw
    | repeated hk hw =>
      rcases hk with hk | hk <;>
      · rw [riseReading, hk]
        exact mem_one_add_plus.mpr hw
    | alternative hk hi =>
      rw [riseReading, hk]
      exact Language.nil_mem_one
    | optional hk =>
      rw [riseReading, hk]
      exact Language.nil_mem_one
    | reference hroot hk hz => exact absurd hmem (ht.root_not_part hroot)
  · rintro ⟨rfl, hw⟩
    rw [riseReading] at hw
    rw [Part] at hmem
    cases hk : g.kind z with
    | sequence units =>
      rw [hk] at hpart hw
      exact .unit (hk.trans (congrArg NodeKind.sequence (eq_take_append_drop hpart))) hw
    | oneOrMore b =>
      rw [hk] at hw hmem
      exact .repeated (Or.inl (by rw [hk, List.mem_singleton.mp hmem])) (mem_one_add_plus.mp hw)
    | zeroOrMore b =>
      rw [hk] at hw hmem
      exact .repeated (Or.inr (by rw [hk, List.mem_singleton.mp hmem])) (mem_one_add_plus.mp hw)
    | choice alternatives =>
      rw [hk] at hw hmem
      obtain rfl : w = [] := hw
      exact .alternative hk hmem
    | zeroOrOne b =>
      rw [hk] at hw hmem
      obtain rfl : w = [] := hw
      exact .optional (by rw [hk, List.mem_singleton.mp hmem])
    | token | nonterminal | lookahead | action =>
      rw [hk] at hpart
      cases hpart

/-- **What is read on a step up from a part of a node that stops**, behind the part.

**Proof sketch.** In a tree, the node that has the part is the only one. Then by its kind: what is begun
behind the part are the units after it or a further pass. -/
lemma passes_part (ht : g.TreeShaped) {index : Nat} (hpart : (g.kind q).parts[index]? = some i) :
    g.Passes i w ↔ w ∈ (g.riseReading q i index).begun := by
  have hmem : g.Part q i := List.mem_of_getElem? hpart
  constructor
  · intro h
    cases h with
    | @unit q' before after _ hk hw =>
      have hq : q' = q := ht.part_unique (by simp [Part, hk, NodeKind.parts]) hmem
      subst hq
      rw [riseReading, hk]
      simpa only [ht.drop_eq hpart hk, reading_begun] using hw
    | @repeated q' _ hk hw =>
      have hq : q' = q := by
        refine ht.part_unique ?_ hmem
        rcases hk with hk | hk <;> simp [Part, hk, NodeKind.parts]
      subst hq
      rcases hk with hk | hk <;>
      · rw [riseReading, hk]
        exact Or.inr hw
  · intro hw
    rw [riseReading] at hw
    rw [Part] at hmem
    cases hk : g.kind q with
    | sequence units =>
      rw [hk] at hpart hw
      exact .unit (hk.trans (congrArg NodeKind.sequence (eq_take_append_drop hpart))) hw
    | oneOrMore b =>
      rw [hk] at hw hmem
      exact .repeated (Or.inl (by rw [hk, List.mem_singleton.mp hmem]))
        ((Reading.mem_begun_add.mp hw).resolve_left Reading.notMem_begun_one)
    | zeroOrMore b =>
      rw [hk] at hw hmem
      exact .repeated (Or.inr (by rw [hk, List.mem_singleton.mp hmem]))
        ((Reading.mem_begun_add.mp hw).resolve_left Reading.notMem_begun_one)
    | choice | zeroOrOne | token | nonterminal | lookahead | action =>
      rw [hk] at hw
      exact absurd hw Reading.notMem_begun_one

/-- **Where a node of a production hangs**, and what can be read on the way up from it.

**Proof sketch.** By the place where the node hangs: on a production, where the steps lead to its
references, or on a node of which it is a part. -/
lemma Linked.up (hl : g.Linked) (ht : g.TreeShaped) (hi : g.OnTree i) :
    (∃ p, (g.node i).parent = .production p ∧
        (∀ z w, g.Rises i z w ↔ w = [] ∧ z ∈ g.references p) ∧ ∀ w, ¬ g.Passes i w) ∨
      ∃ q, (g.node i).parent = .node q ∧ g.Part q i ∧ g.OnTree q ∧
        (∀ z w, g.Rises i z w ↔ z = q ∧ w ∈ (g.riseReading q i (g.node i).index).whole) ∧
        ∀ w, g.Passes i w ↔ w ∈ (g.riseReading q i (g.node i).index).begun := by
  have hplaced := hl.placed hi
  rw [Placed] at hplaced
  generalize (g.node i).parent = parent at hplaced ⊢
  generalize (g.node i).index = index at hplaced ⊢
  cases hplaced with
  | root hroot =>
    refine Or.inl ⟨_, rfl, fun z w => rises_root hl ht hroot, fun w hw => ?_⟩
    obtain ⟨q, hq⟩ := hw.part
    exact ht.root_not_part hroot hq
  | @part q _ hpart =>
    have hmem : g.Part q i := List.mem_of_getElem? hpart
    refine Or.inr ⟨q, rfl, hmem, ?_, fun z w => rises_part ht hpart, fun w => passes_part ht hpart⟩
    obtain ⟨p, root, hroot, hpath⟩ := hi
    rcases hpath.cases_tail with rfl | ⟨x, hx, hxi⟩
    · exact absurd hmem (ht.root_not_part hroot)
    · rw [ht.part_unique hmem hxi]
      exact ⟨p, root, hroot, hx⟩

/-- What one rises to from a node of a production is in a production. -/
lemma Linked.onTree_of_rises (hl : g.Linked) (ht : g.TreeShaped) (hi : g.OnTree i)
    (h : g.Rises i z w) : g.OnTree z := by
  rcases hl.up ht hi with ⟨p, -, hup, -⟩ | ⟨q, -, -, hq, hup, -⟩
  · exact (hl.mem_references.mp ((hup z w).mp h).2).1
  · rw [((hup z w).mp h).1]
    exact hq

/-! ## Words of a limited length -/

/-- The kinds of the tokens in a grammar. -/
def letters (g : Grammar) : Finset Nat :=
  (Finset.range g.nodes.size).image fun i =>
    match g.kind i with
    | .token k => k
    | _ => 0

/-- There are at most as many letters as nodes. -/
lemma card_letters_le (g : Grammar) : g.letters.card ≤ g.nodes.size :=
  Finset.card_image_le.trans_eq (Finset.card_range _)

/-- Derived words are made of the tokens in the grammar. -/
lemma mem_letters_of_words {row : List NodeId} (h : w ∈ g.words row) : ∀ k ∈ w, k ∈ g.letters := by
  induction h with
  | nil => simp
  | @token i k rest w hk _ ih =>
    intro x hx
    rcases List.mem_cons.mp hx with rfl | hx
    · refine Finset.mem_image.mpr ⟨i, Finset.mem_range.mpr ?_, by rw [hk]⟩
      exact lt_size_of_kind fun code hcode => by rw [hk] at hcode; cases hcode
    · exact ih x hx
  | expand _ _ ih => exact ih

/-- What is passed on the way up is made of the tokens in the grammar. -/
lemma mem_letters_of_rises (h : g.Rises i z w) : ∀ k ∈ w, k ∈ g.letters := by
  cases h with
  | unit _ hw => exact mem_letters_of_words hw
  | repeated _ hw =>
    obtain ⟨S, rfl, hS⟩ := Language.mem_kstar.mp hw
    intro k hk
    obtain ⟨y, hy, hk⟩ := List.mem_flatten.mp hk
    exact mem_letters_of_words (hS y hy) k hk
  | alternative | optional | reference => simp

/-- What follows consists of letters of the grammar.

**Proof sketch.** Induction on the way up: what is read on a step consists of words of nodes, which are
letters. -/
lemma Follows.mem_letters (h : g.Follows i j u) : ∀ k ∈ u, k ∈ g.letters := by
  have hall : ∀ b, ReflTransGen g.Rise (i, []) b → ∀ k ∈ b.2, k ∈ g.letters := by
    intro b hb
    induction hb with
    | refl => simp
    | tail _ hrise ih =>
      obtain ⟨w, hw, heq⟩ := hrise
      intro k hk
      rw [heq, List.mem_append] at hk
      rcases hk with hk | hk
      · exact ih k hk
      · exact mem_letters_of_rises hw k hk
  exact hall (j, u) h

/-- The nodes of a grammar with the words of a limited length. -/
def followPairs (g : Grammar) (limit : Nat) : Finset (NodeId × TokenSeq) :=
  Finset.range g.nodes.size ×ˢ wordsUpTo g.letters limit

/-- There are only so many pairs of a node and a short sequence. -/
lemma card_followPairs_le (g : Grammar) (limit : Nat) :
    (g.followPairs limit).card ≤ g.nodes.size * (g.nodes.size + 1) ^ limit := by
  rw [followPairs, Finset.card_product, Finset.card_range]
  exact Nat.mul_le_mul_left _ (card_wordsUpTo_le g.card_letters_le limit)

end Grammar

end GrammarForge
