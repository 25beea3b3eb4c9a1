import GrammarForge.Grammar.Tree
import GrammarForge.Lookahead.Sequence
import Mathlib.Computability.Language
import Mathlib.Logic.Relation
import Mathlib.Order.Interval.Finset.Nat

set_option autoImplicit false

/-!
# Derivations

The token sequences that can be derived from the nodes of a grammar. A node that is not a token is
replaced by a row of nodes in one step; a row derives a sequence by replacing its first node again
and again.

## Main definitions

* `Grammar.Expands` — one step: a node is replaced by a row of nodes.
* `Grammar.Derives`, `Grammar.words` — the token sequences that a row of nodes derives.
* `Grammar.LeftCorner` — a node can begin with another one before any token is read.
* `Grammar.TopDown` — grammars that can be expanded from the top.

## Main results

* `Grammar.words_append` — what two rows derive one after the other.
* `Grammar.words_sequence`, `Grammar.words_choice` and the like — what each kind of node derives.
* `exists_pos_rank`, `exists_rank` — an acyclic relation on finitely many places goes down in a rank.
* `Grammar.TopDown.node_nonempty` — every node derives something.
* `Grammar.TopDown.leftCorner_acyclic` — no node can begin with itself.
* `Grammar.topDown_of_descends` — a grammar without recursion can be expanded from the top.
-/

namespace GrammarForge

open Computability Relation

/-- **An acyclic relation on finitely many places** goes down in a rank, which is positive at each of
them.

**Proof sketch.** The rank of a place is the number of places below `n` that can be reached from it;
those that can be reached after a step are fewer, since the place itself is not among them. -/
lemma exists_pos_rank {r : Nat → Nat → Prop} {n : Nat} (hlt : ∀ i j, r i j → i < n)
    (hacyclic : ∀ i, ¬ TransGen r i i) :
    ∃ rank : Nat → Nat, (∀ i, rank i ≤ n) ∧ (∀ i < n, 0 < rank i) ∧
      ∀ i j, r i j → rank j < rank i := by
  classical
  have hself : ∀ i < n, i ∈ (Finset.range n).filter (ReflTransGen r i) :=
    fun i hi => Finset.mem_filter.mpr ⟨Finset.mem_range.mpr hi, .refl⟩
  refine ⟨fun i => ((Finset.range n).filter (ReflTransGen r i)).card, fun i => ?_, fun i hi => ?_,
    fun i j hij => ?_⟩
  · exact (Finset.card_filter_le _ _).trans_eq (Finset.card_range n)
  · exact Finset.card_pos.mpr ⟨i, hself i hi⟩
  · refine Finset.card_lt_card (Finset.ssubset_iff_subset_ne.mpr ⟨fun x hx => ?_, fun heq => ?_⟩)
    · obtain ⟨hx, hjx⟩ := Finset.mem_filter.mp hx
      exact Finset.mem_filter.mpr ⟨hx, .head hij hjx⟩
    · have hi := hself i (hlt i j hij)
      rw [← heq] at hi
      exact hacyclic i (.head' hij (Finset.mem_filter.mp hi).2)

/-- An acyclic relation on finitely many places goes down in a rank. -/
lemma exists_rank {r : Nat → Nat → Prop} {n : Nat} (hlt : ∀ i j, r i j → i < n)
    (hacyclic : ∀ i, ¬ TransGen r i i) :
    ∃ rank : Nat → Nat, (∀ i, rank i ≤ n) ∧ ∀ i j, r i j → rank j < rank i := by
  obtain ⟨rank, hle, -, hdown⟩ := exists_pos_rank hlt hacyclic
  exact ⟨rank, hle, hdown⟩

/-- A relation that goes down in a rank is acyclic. -/
lemma not_transGen_self {r : Nat → Nat → Prop} (rank : Nat → Nat)
    (hrank : ∀ i j, r i j → rank j < rank i) (i : Nat) : ¬ TransGen r i i := by
  have hlt : ∀ {j}, TransGen r i j → rank j < rank i := by
    intro j h
    induction h with
    | single hij => exact hrank _ _ hij
    | tail _ hjk ih => exact (hrank _ _ hjk).trans ih
  exact fun h => absurd (hlt h) (lt_irrefl _)

namespace Grammar

/-- One step of a derivation: a node is replaced by a row of nodes. -/
inductive Expands (g : Grammar) : NodeId → List NodeId → Prop
  | production {i p root : Nat} {name : String} : g.kind i = .nonterminal name (some p) →
      g.body p = some root → Expands g i [root]
  | alternative {i a : NodeId} {alternatives : List NodeId} : g.kind i = .choice alternatives →
      a ∈ alternatives → Expands g i [a]
  | sequence {i : NodeId} {units : List NodeId} : g.kind i = .sequence units → Expands g i units
  | oneOrMore {i b : NodeId} (n : Nat) : g.kind i = .oneOrMore b →
      Expands g i (List.replicate (n + 1) b)
  | zeroOrMore {i b : NodeId} (n : Nat) : g.kind i = .zeroOrMore b →
      Expands g i (List.replicate n b)
  | absent {i b : NodeId} : g.kind i = .zeroOrOne b → Expands g i []
  | present {i b : NodeId} : g.kind i = .zeroOrOne b → Expands g i [b]
  | lookahead {i : NodeId} {spec : LookaheadSpec} : g.kind i = .lookahead spec → Expands g i []
  | action {i : NodeId} {code : String} : g.kind i = .action code → Expands g i []

/-- **A row of nodes derives a token sequence**, by replacing its first node again and again. -/
inductive Derives (g : Grammar) : List NodeId → TokenSeq → Prop
  | nil : Derives g [] []
  | token {i k : Nat} {rest : List NodeId} {w : TokenSeq} : g.kind i = .token k →
      Derives g rest w → Derives g (i :: rest) (k :: w)
  | expand {i : NodeId} {row rest : List NodeId} {w : TokenSeq} : Expands g i row →
      Derives g (row ++ rest) w → Derives g (i :: rest) w

/-- The token sequences that a row of nodes derives. -/
def words (g : Grammar) (row : List NodeId) : Language Nat := {w | Derives g row w}

variable {g : Grammar} {i : NodeId} {row xs ys : List NodeId} {w : TokenSeq}

/-- The words of a row are what the row derives. -/
lemma mem_words : w ∈ g.words row ↔ Derives g row w := Iff.rfl

/-- The empty row derives the empty sequence only. -/
lemma words_nil (g : Grammar) : g.words [] = 1 := by
  ext w
  rw [mem_words, Language.mem_one]
  constructor
  · intro h
    cases h
    rfl
  · rintro rfl
    exact .nil

/-- A derivation from two rows splits into one from each.

**Proof sketch.** Induction on the derivation. Its first step expands or reads the first node of the
whole row, which is the first one of the front part, unless that is empty. -/
lemma Derives.split {zs : List NodeId} (h : Derives g zs w) : ∀ {xs : List NodeId},
    zs = xs ++ ys → ∃ u, Derives g xs u ∧ ∃ v, Derives g ys v ∧ u ++ v = w := by
  induction h with
  | nil =>
    intro xs h
    obtain ⟨rfl, rfl⟩ := List.append_eq_nil_iff.mp h.symm
    exact ⟨[], .nil, [], .nil, rfl⟩
  | @token i k rest w hk hrest ih =>
    intro xs h
    cases xs with
    | nil =>
      obtain rfl : i :: rest = ys := h
      exact ⟨[], .nil, k :: w, .token hk hrest, rfl⟩
    | cons x xs =>
      obtain ⟨rfl, rfl⟩ := List.cons.inj h
      obtain ⟨u, hu, v, hv, rfl⟩ := ih rfl
      exact ⟨k :: u, .token hk hu, v, hv, rfl⟩
  | @expand i row rest w hrow hrest ih =>
    intro xs h
    cases xs with
    | nil =>
      obtain rfl : i :: rest = ys := h
      exact ⟨[], .nil, w, .expand hrow hrest, rfl⟩
    | cons x xs =>
      obtain ⟨rfl, rfl⟩ := List.cons.inj h
      obtain ⟨u, hu, v, hv, rfl⟩ := ih (List.append_assoc row xs ys).symm
      exact ⟨u, .expand hrow hu, v, hv, rfl⟩

/-- Derivations from two rows join. -/
lemma Derives.append {u v : TokenSeq} (hu : Derives g xs u) (hv : Derives g ys v) :
    Derives g (xs ++ ys) (u ++ v) := by
  induction hu with
  | nil => exact hv
  | token hk _ ih => exact .token hk ih
  | @expand i row rest w hrow _ ih => exact .expand hrow (List.append_assoc row rest ys ▸ ih)

/-- **What two rows derive one after the other.** -/
lemma words_append (g : Grammar) (xs ys : List NodeId) :
    g.words (xs ++ ys) = g.words xs * g.words ys := by
  ext w
  rw [Language.mem_mul]
  constructor
  · intro h
    exact Derives.split h rfl
  · rintro ⟨u, hu, v, hv, rfl⟩
    exact Derives.append hu hv

/-- The words of a row are those of its first node followed by those of the others. -/
lemma words_cons (g : Grammar) (i : NodeId) (rest : List NodeId) :
    g.words (i :: rest) = g.words [i] * g.words rest := g.words_append [i] rest

/-- The words of equal nodes in a row are a power of the words of the node. -/
lemma words_replicate (g : Grammar) (n : Nat) (i : NodeId) :
    g.words (List.replicate n i) = g.words [i] ^ n := by
  induction n with
  | zero => rw [List.replicate_zero, words_nil, pow_zero]
  | succ n ih => rw [List.replicate_succ, words_cons, ih, pow_succ']

/-- A row derives a token at least if one of its nodes does. -/
lemma nil_notMem_words (hi : i ∈ row) (h : [] ∉ g.words [i]) : [] ∉ g.words row := by
  obtain ⟨xs, ys, rfl⟩ := List.append_of_mem hi
  rw [words_append, words_cons]
  intro hnil
  obtain ⟨u, -, v, hv, huv⟩ := Language.mem_mul.mp hnil
  obtain ⟨x, hx, y, -, hxy⟩ := Language.mem_mul.mp hv
  rw [(List.append_eq_nil_iff.mp huv).2] at hxy
  rw [(List.append_eq_nil_iff.mp hxy).1] at hx
  exact h hx

/-! ## What each kind of node derives -/

/-- A token derives itself. -/
lemma mem_words_token {k : Nat} (h : g.kind i = .token k) : w ∈ g.words [i] ↔ w = [k] := by
  constructor
  · rintro (_ | ⟨hk, hrest⟩ | ⟨hrow, _⟩)
    · cases hrest
      rw [h] at hk
      cases hk
      rfl
    · cases hrow <;> simp_all
  · rintro rfl
    exact .token h .nil

/-- A node that is no token derives what the rows derive that can stand in its place. -/
lemma mem_words_of_not_token (h : ∀ k, g.kind i ≠ .token k) :
    w ∈ g.words [i] ↔ ∃ row, Expands g i row ∧ w ∈ g.words row := by
  constructor
  · rintro (_ | ⟨hk, _⟩ | ⟨hrow, hw⟩)
    · exact absurd hk (h _)
    · rw [List.append_nil] at hw
      exact ⟨_, hrow, hw⟩
  · rintro ⟨row, hrow, hw⟩
    refine .expand hrow ?_
    rw [List.append_nil]
    exact hw

/-- A nonterminal derives what the right side of its production does. -/
lemma words_nonterminal {name : String} {p : Nat} {root : NodeId}
    (h : g.kind i = .nonterminal name (some p)) (hroot : g.body p = some root) :
    g.words [i] = g.words [root] := by
  ext w
  rw [mem_words_of_not_token (by simp [h])]
  constructor
  · rintro ⟨row, hrow, hw⟩
    cases hrow <;> simp_all
  · exact fun hw => ⟨_, .production h hroot, hw⟩

/-- A choice derives what one of its alternatives does. -/
lemma mem_words_choice {alternatives : List NodeId} (h : g.kind i = .choice alternatives) :
    w ∈ g.words [i] ↔ ∃ a ∈ alternatives, w ∈ g.words [a] := by
  rw [mem_words_of_not_token (by simp [h])]
  constructor
  · rintro ⟨row, hrow, hw⟩
    cases hrow with
    | alternative h' ha =>
      rw [h] at h'
      cases h'
      exact ⟨_, ha, hw⟩
    | _ => simp_all
  · rintro ⟨a, ha, hw⟩
    exact ⟨_, .alternative h ha, hw⟩

/-- A sequence derives what the row of its units does. -/
lemma words_sequence {units : List NodeId} (h : g.kind i = .sequence units) :
    g.words [i] = g.words units := by
  ext w
  rw [mem_words_of_not_token (by simp [h])]
  constructor
  · rintro ⟨row, hrow, hw⟩
    cases hrow <;> simp_all
  · exact fun hw => ⟨_, .sequence h, hw⟩

/-- Any number of times is the iteration.

**Proof sketch.** An expansion is a row of copies, whose words are a power. -/
lemma words_zeroOrMore {b : NodeId} (h : g.kind i = .zeroOrMore b) :
    g.words [i] = (g.words [b])∗ := by
  ext w
  rw [mem_words_of_not_token (by simp [h]), Language.kstar_eq_iSup_pow, Language.mem_iSup]
  simp only [← words_replicate]
  constructor
  · rintro ⟨row, hrow, hw⟩
    cases hrow with
    | zeroOrMore n h' =>
      rw [h] at h'
      cases h'
      exact ⟨n, hw⟩
    | _ => simp_all
  · rintro ⟨n, hw⟩
    exact ⟨_, .zeroOrMore n h, hw⟩

/-- One or more times is once and then any number of times.

**Proof sketch.** An expansion is a row of copies, at least one of them, whose words are a power. -/
lemma words_oneOrMore {b : NodeId} (h : g.kind i = .oneOrMore b) :
    g.words [i] = g.words [b] * (g.words [b])∗ := by
  ext w
  rw [mem_words_of_not_token (by simp [h]), Language.kstar_eq_iSup_pow, Language.mul_iSup,
    Language.mem_iSup]
  simp only [← pow_succ']
  simp only [← words_replicate]
  constructor
  · rintro ⟨row, hrow, hw⟩
    cases hrow with
    | oneOrMore n h' =>
      rw [h] at h'
      cases h'
      exact ⟨n, hw⟩
    | _ => simp_all
  · rintro ⟨n, hw⟩
    exact ⟨_, .oneOrMore n h, hw⟩

/-- At most once is the empty sequence or once.

**Proof sketch.** By the two expansions of the node. -/
lemma words_zeroOrOne {b : NodeId} (h : g.kind i = .zeroOrOne b) :
    g.words [i] = 1 + g.words [b] := by
  ext w
  rw [mem_words_of_not_token (by simp [h]), Language.mem_add, ← words_nil g]
  constructor
  · rintro ⟨row, hrow, hw⟩
    cases hrow with
    | absent h' => exact Or.inl hw
    | present h' =>
      rw [h] at h'
      cases h'
      exact Or.inr hw
    | _ => simp_all
  · rintro (hw | hw)
    · exact ⟨_, .absent h, hw⟩
    · exact ⟨_, .present h, hw⟩

/-- A lookahead derives the empty sequence only. -/
lemma words_lookahead {spec : LookaheadSpec} (h : g.kind i = .lookahead spec) :
    g.words [i] = 1 := by
  ext w
  rw [mem_words_of_not_token (by simp [h]), ← words_nil g]
  constructor
  · rintro ⟨row, hrow, hw⟩
    cases hrow <;> simp_all
  · exact fun hw => ⟨_, .lookahead h, hw⟩

/-- An action derives the empty sequence only. -/
lemma words_action {code : String} (h : g.kind i = .action code) : g.words [i] = 1 := by
  ext w
  rw [mem_words_of_not_token (by simp [h]), ← words_nil g]
  constructor
  · rintro ⟨row, hrow, hw⟩
    cases hrow <;> simp_all
  · exact fun hw => ⟨_, .action h, hw⟩

/-! ## Grammars that can be expanded from the top -/

/-- **A node can begin with another one** before any token is read. -/
inductive LeftCorner (g : Grammar) : NodeId → NodeId → Prop
  | production {i p root : Nat} {name : String} : g.kind i = .nonterminal name (some p) →
      g.body p = some root → LeftCorner g i root
  | alternative {i a : NodeId} {alternatives : List NodeId} : g.kind i = .choice alternatives →
      a ∈ alternatives → LeftCorner g i a
  | unit {i u : NodeId} {before after : List NodeId} : g.kind i = .sequence (before ++ u :: after) →
      [] ∈ g.words before → LeftCorner g i u
  | body {i b : NodeId} : (g.kind i).loopBody? = some b → LeftCorner g i b

/-- **Grammars that can be expanded from the top**: the tree has no cycles, nonterminals have
productions with a right side, choices have alternatives, productions derive something, and none
is left-recursive, be it through other productions or behind units that can match nothing. -/
structure TopDown (g : Grammar) : Prop where
  acyclic : ∀ i, ¬ TransGen (fun i j => j ∈ g.children i) i i
  resolved : ∀ {i name p}, g.kind i = .nonterminal name p →
    ∃ q root, p = some q ∧ g.body q = some root
  choices : ∀ {i alternatives}, g.kind i = .choice alternatives → alternatives ≠ []
  productive : ∀ {p root}, g.body p = some root → ∃ w, w ∈ g.words [root]
  noLeftRecursion : ∀ {p root}, g.body p = some root → ¬ TransGen g.LeftCorner root root

/-- A place without a node is an action. -/
lemma kind_of_size_le (h : g.nodes.size ≤ i) : g.kind i = .action "" := by
  rw [kind, node, Array.getD_eq_getD_getElem?, Array.getElem?_eq_none h]
  rfl

/-- A node that is not an action is in the grammar. -/
lemma lt_size_of_kind (h : ∀ code, g.kind i ≠ .action code) : i < g.nodes.size := by
  by_contra hge
  exact h "" (kind_of_size_le (Nat.not_lt.mp hge))

namespace TopDown

/-- No node is a part of itself, however far below. -/
lemma part_acyclic (hg : g.TopDown) (i : NodeId) :
    ¬ TransGen (fun i j => j ∈ (g.kind i).parts) i i := by
  intro h
  exact hg.acyclic i (TransGen.mono (fun _ _ hj => List.mem_append_left _ hj) _ _ h)

/-- The ranks of nodes in the tree. -/
lemma exists_part_rank (hg : g.TopDown) :
    ∃ rank : Nat → Nat, ∀ i, ∀ j ∈ (g.kind i).parts, rank j < rank i := by
  have hlt : ∀ i j, j ∈ (g.kind i).parts → i < g.nodes.size := by
    intro i j hij
    refine lt_size_of_kind fun code h => ?_
    rw [h] at hij
    cases hij
  obtain ⟨rank, -, hrank⟩ := exists_rank hlt hg.part_acyclic
  exact ⟨rank, hrank⟩

/-- A row of nodes derives something if each of them does. -/
lemma row_nonempty (h : ∀ i ∈ row, ∃ w, w ∈ g.words [i]) : ∃ w, w ∈ g.words row := by
  induction row with
  | nil => exact ⟨[], .nil⟩
  | cons i row ih =>
    obtain ⟨u, hu⟩ := h i List.mem_cons_self
    obtain ⟨v, hv⟩ := ih fun j hj => h j (List.mem_cons_of_mem i hj)
    exact ⟨u ++ v, Derives.append hu hv⟩

/-- A node derives something if its parts do, and, for a nonterminal, if the node itself does.

**Proof sketch.** By the kind of the node, in each case with a word put together of words of the parts.
-/
lemma nonempty_of_parts (hchoice : ∀ {alternatives}, g.kind i = .choice alternatives →
      alternatives ≠ [])
    (hnonterminal : ∀ {name p}, g.kind i = .nonterminal name p → ∃ w, w ∈ g.words [i])
    (hpart : ∀ j ∈ (g.kind i).parts, ∃ w, w ∈ g.words [j]) : ∃ w, w ∈ g.words [i] := by
  cases hk : g.kind i with
  | token k => exact ⟨[k], (mem_words_token hk).mpr rfl⟩
  | nonterminal name p => exact hnonterminal hk
  | choice alternatives =>
    obtain ⟨a, ha⟩ := List.exists_mem_of_ne_nil _ (hchoice hk)
    obtain ⟨w, hw⟩ := hpart a (by rw [hk]; exact ha)
    exact ⟨w, (mem_words_choice hk).mpr ⟨a, ha, hw⟩⟩
  | sequence units =>
    rw [words_sequence hk]
    exact row_nonempty fun u hu => hpart u (by rw [hk]; exact hu)
  | oneOrMore b =>
    obtain ⟨w, hw⟩ := hpart b (by rw [hk]; exact List.mem_singleton_self b)
    rw [words_oneOrMore hk]
    exact ⟨w ++ [], Language.append_mem_mul hw (Language.nil_mem_kstar _)⟩
  | zeroOrMore b =>
    rw [words_zeroOrMore hk]
    exact ⟨[], Language.nil_mem_kstar _⟩
  | zeroOrOne b =>
    rw [words_zeroOrOne hk]
    exact ⟨[], Or.inl Language.nil_mem_one⟩
  | lookahead spec =>
    rw [words_lookahead hk]
    exact ⟨[], Language.nil_mem_one⟩
  | action code =>
    rw [words_action hk]
    exact ⟨[], Language.nil_mem_one⟩

/-- **Every node derives something.**

**Proof sketch.** Induction on the rank in the tree; a nonterminal derives what its production
does. -/
lemma node_nonempty (hg : g.TopDown) (i : NodeId) : ∃ w, w ∈ g.words [i] := by
  obtain ⟨rank, hrank⟩ := hg.exists_part_rank
  induction hn : rank i using Nat.strong_induction_on generalizing i with
  | _ n ih =>
    refine nonempty_of_parts hg.choices (fun hk => ?_) fun j hj =>
      ih (rank j) (hn ▸ hrank i j hj) j rfl
    obtain ⟨q, root, rfl, hroot⟩ := hg.resolved hk
    rw [words_nonterminal hk hroot]
    exact hg.productive hroot

/-- In a grammar that can be expanded from the top every row derives something. -/
lemma words_nonempty (hg : g.TopDown) (row : List NodeId) : ∃ w, w ∈ g.words row :=
  row_nonempty fun i _ => hg.node_nonempty i

/-- What a node can begin with is one of its parts, or the right side of the production that it
refers to. -/
lemma leftCorner_part_or_root {i j : NodeId} (h : g.LeftCorner i j) : j ∈ (g.kind i).parts ∨
    ∃ name p, g.kind i = .nonterminal name (some p) ∧ g.body p = some j := by
  cases h with
  | production hk hroot => exact Or.inr ⟨_, _, hk, hroot⟩
  | alternative hk ha => exact Or.inl (by rw [hk]; exact ha)
  | unit hk _ =>
    refine Or.inl ?_
    rw [hk]
    exact List.mem_append_right _ List.mem_cons_self
  | body hb =>
    refine Or.inl ?_
    cases hk : g.kind i <;> simp_all [NodeKind.loopBody?, NodeKind.parts]

/-- Where a node can begin, it is a part of the tree below, or the way leads through the right side
of a production.

**Proof sketch.** Induction on the steps. A step to a part goes on in the tree, and a step to a right
side begins the second case, which the following steps keep. -/
lemma leftCorner_cases {i j : NodeId} (h : TransGen g.LeftCorner i j) :
    TransGen (fun i j => j ∈ (g.kind i).parts) i j ∨
      ∃ p root, g.body p = some root ∧ TransGen g.LeftCorner i root ∧
        ReflTransGen g.LeftCorner root j := by
  induction h with
  | single hij =>
    rcases leftCorner_part_or_root hij with hpart | ⟨-, p, -, hroot⟩
    · exact Or.inl (.single hpart)
    · exact Or.inr ⟨p, _, hroot, .single hij, .refl⟩
  | tail hij hjk ih =>
    rcases ih with hpart | ⟨p, root, hroot, hto, hfrom⟩
    · rcases leftCorner_part_or_root hjk with hjk' | ⟨-, p, -, hroot⟩
      · exact Or.inl (hpart.tail hjk')
      · exact Or.inr ⟨p, _, hroot, hij.tail hjk, .refl⟩
    · exact Or.inr ⟨p, root, hroot, hto, hfrom.tail hjk⟩

/-- **No node can begin with itself**, in the tree below or through other productions. -/
lemma leftCorner_acyclic (hg : g.TopDown) (i : NodeId) : ¬ TransGen g.LeftCorner i i := by
  intro h
  rcases leftCorner_cases h with hpart | ⟨p, root, hroot, hto, hfrom⟩
  · exact hg.part_acyclic i hpart
  · exact hg.noLeftRecursion hroot (.trans_right hfrom hto)

end TopDown

/-! ## Grammars without recursion -/

/-- A node has a greater rank than its children and, if it is a nonterminal, than the right side of
its production; if it is a choice, it has alternatives. -/
def Descends (g : Grammar) (rank : Nat → Nat) (i : NodeId) : Bool :=
  (g.children i).all (fun j => rank j < rank i) &&
    match g.kind i with
    | .nonterminal _ p => (p.bind g.body).any fun root => rank root < rank i
    | .choice alternatives => !alternatives.isEmpty
    | _ => true

section

variable {rank : Nat → Nat} (h : ∀ i < g.nodes.size, g.Descends rank i)

include h

/-- A child has a lower rank than its parent. -/
lemma rank_child_lt (i j : NodeId) (hj : j ∈ g.children i) : rank j < rank i := by
  have hi : i < g.nodes.size := lt_size_of_kind fun code hk => by
    simp [children, hk, NodeKind.parts, NodeKind.scanned?] at hj
  have hall := (Bool.and_eq_true_iff.mp (h i hi)).1
  exact of_decide_eq_true (List.all_eq_true.mp hall j hj)

/-- A right side has a lower rank than the nonterminal. -/
lemma rank_root_lt {name : String} {p : Option Nat} (hk : g.kind i = .nonterminal name p) :
    ∃ q root, p = some q ∧ g.body q = some root ∧ rank root < rank i := by
  have hi : i < g.nodes.size := lt_size_of_kind (by simp [hk])
  have hbody := (Bool.and_eq_true_iff.mp (h i hi)).2
  rw [hk] at hbody
  cases p with
  | none => cases hbody
  | some q =>
    obtain ⟨root, hroot, hlt⟩ := (Option.any_eq_true _ _).mp hbody
    exact ⟨q, root, rfl, hroot, of_decide_eq_true hlt⟩

/-- A choice has alternatives. -/
lemma alternatives_ne_nil {alternatives : List NodeId} (hk : g.kind i = .choice alternatives) :
    alternatives ≠ [] := by
  have hi : i < g.nodes.size := lt_size_of_kind (by simp [hk])
  have hne := (Bool.and_eq_true_iff.mp (h i hi)).2
  rw [hk] at hne
  rintro rfl
  cases hne

/-- A node that descends derives something, by induction on its rank. -/
lemma nonempty_of_descends (n : Nat) : ∀ i, rank i = n → ∃ w, w ∈ g.words [i] := by
  induction n using Nat.strong_induction_on with
  | _ n ih =>
    rintro i rfl
    refine TopDown.nonempty_of_parts (alternatives_ne_nil h) (fun hk => ?_) fun j hj =>
      ih _ (rank_child_lt h i j (List.mem_append_left _ hj)) j rfl
    obtain ⟨q, root, rfl, hroot, hlt⟩ := rank_root_lt h hk
    rw [words_nonterminal hk hroot]
    exact ih _ hlt root rfl

/-- What a node can begin with has a lower rank. -/
lemma rank_leftCorner_lt (i j : NodeId) (hij : g.LeftCorner i j) : rank j < rank i := by
  rcases TopDown.leftCorner_part_or_root hij with hpart | ⟨name, p, hk, hroot⟩
  · exact rank_child_lt h i j (List.mem_append_left _ hpart)
  · obtain ⟨q, root, hq, hroot', hlt⟩ := rank_root_lt h hk
    obtain rfl := Option.some_inj.mp hq
    rw [hroot] at hroot'
    exact Option.some_inj.mp hroot' ▸ hlt

/-- **A grammar without recursion can be expanded from the top.** -/
theorem topDown_of_descends : g.TopDown where
  acyclic := not_transGen_self rank (rank_child_lt h)
  resolved hk := by
    obtain ⟨q, root, hq, hroot, -⟩ := rank_root_lt h hk
    exact ⟨q, root, hq, hroot⟩
  choices := alternatives_ne_nil h
  productive _ := nonempty_of_descends h _ _ rfl
  noLeftRecursion _ := not_transGen_self rank (rank_leftCorner_lt h) _

end

end Grammar

end GrammarForge
