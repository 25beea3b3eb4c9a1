import GrammarForge.Proofs.Derivations

set_option autoImplicit false

/-!
# Openings

The token sequences that a row of nodes can begin with. An opening stops after some token, and
nothing is asked of the nodes behind it: they need not derive anything. Where they all do, the
openings are the beginnings of the derived words.

A way through part of a grammar is described by two languages at once, the words of whole ways and
the openings of ways that stop within the part.

## Main definitions

* `Grammar.Opens`, `Grammar.openings` — the token sequences that a row of nodes can begin with.
* `Reading` — what can be read on a way, with sums, products and repetitions.
* `Grammar.reading` — what can be read on the way through a row of nodes.
* `Grammar.Predictive` — grammars without left recursion whose names are resolved.

## Main results

* `Grammar.openings_append` — what two rows can begin with one after the other.
* `Grammar.Opens.cut` — a beginning of an opening is an opening.
* `Grammar.reading_sequence`, `Grammar.reading_choice` and the like — what can be read on the way
  through each kind of node.
* `Grammar.predictive_of_leftDescends` — ranks show that a grammar has no left recursion.
* `Grammar.TopDown.exists_word` — every opening begins a word, in a grammar that can be expanded from
  the top.
-/

namespace GrammarForge

open Computability Relation

/-! ## What can be read on a way -/

/-- **What can be read on a way** through part of a grammar: the words of whole ways, and what has
been read when the way stops after some token. -/
@[ext]
structure Reading where
  whole : Language Nat
  begun : Language Nat
  nil_notMem_begun : [] ∉ begun

namespace Reading

/-- There is no way through. -/
instance : Zero Reading := ⟨⟨0, 0, Language.notMem_zero _⟩⟩

/-- Nothing is read. -/
instance : One Reading := ⟨⟨1, 0, Language.notMem_zero _⟩⟩

/-- One way or the other. -/
instance : Add Reading where
  add R S := ⟨R.whole + S.whole, R.begun + S.begun, by
    rw [Language.mem_add]
    exact not_or.mpr ⟨R.nil_notMem_begun, S.nil_notMem_begun⟩⟩

/-- One way after the other; it can stop within either. -/
instance : Mul Reading where
  mul R S := ⟨R.whole * S.whole, R.begun + R.whole * S.begun, by
    rw [Language.mem_add]
    refine not_or.mpr ⟨R.nil_notMem_begun, fun hnil => ?_⟩
    obtain ⟨u, -, v, hv, huv⟩ := Language.mem_mul.mp hnil
    rw [(List.append_eq_nil_iff.mp huv).2] at hv
    exact S.nil_notMem_begun hv⟩

/-- A way several times, at least once. -/
def plus (R : Reading) : Reading where
  whole := R.whole * R.whole∗
  begun := R.whole∗ * R.begun
  nil_notMem_begun hnil := by
    obtain ⟨u, -, v, hv, huv⟩ := Language.mem_mul.mp hnil
    rw [(List.append_eq_nil_iff.mp huv).2] at hv
    exact R.nil_notMem_begun hv

/-- A way several times, at least once and at most `n` times. -/
def rounds (R : Reading) : Nat → Reading
  | 0 => 0
  | n + 1 => R * (1 + rounds R n)

variable {R S : Reading} {w : TokenSeq}

/-- Only the empty sequence is read on the way of one. -/
@[simp]
lemma mem_whole_one : w ∈ (1 : Reading).whole ↔ w = [] := Language.mem_one w

/-- Nothing is begun on the way of one. -/
@[simp]
lemma notMem_begun_one : w ∉ (1 : Reading).begun := Language.notMem_zero w

/-- Nothing is read on the way of zero. -/
@[simp]
lemma notMem_whole_zero : w ∉ (0 : Reading).whole := Language.notMem_zero w

/-- Nothing is begun on the way of zero. -/
@[simp]
lemma notMem_begun_zero : w ∉ (0 : Reading).begun := Language.notMem_zero w

/-- On two ways is read what is read on either. -/
lemma mem_whole_add : w ∈ (R + S).whole ↔ w ∈ R.whole ∨ w ∈ S.whole := Iff.rfl

/-- On two ways is begun what is begun on either. -/
lemma mem_begun_add : w ∈ (R + S).begun ↔ w ∈ R.begun ∨ w ∈ S.begun := Iff.rfl

/-- On one way after the other is read what is read on both. -/
lemma mem_whole_mul : w ∈ (R * S).whole ↔ ∃ u ∈ R.whole, ∃ v ∈ S.whole, u ++ v = w :=
  Language.mem_mul

/-- On one way after the other is begun what is begun on the first, or on the second behind what is read
on the first. -/
lemma mem_begun_mul :
    w ∈ (R * S).begun ↔ w ∈ R.begun ∨ ∃ u ∈ R.whole, ∃ v ∈ S.begun, u ++ v = w :=
  or_congr_right Language.mem_mul

/-- What is begun is not empty. -/
lemma ne_nil_of_mem_begun (h : w ∈ R.begun) : w ≠ [] :=
  fun hnil => R.nil_notMem_begun (hnil ▸ h)

/-- On several ways is read what is read on one of them. -/
lemma mem_sum_whole {f : NodeId → Reading} {ids : List NodeId} :
    w ∈ (ids.map f).sum.whole ↔ ∃ i ∈ ids, w ∈ (f i).whole := by
  induction ids with
  | nil => simp
  | cons i ids ih => rw [List.map_cons, List.sum_cons, mem_whole_add, ih, List.exists_mem_cons_iff]

/-- On several ways is begun what is begun on one of them. -/
lemma mem_sum_begun {f : NodeId → Reading} {ids : List NodeId} :
    w ∈ (ids.map f).sum.begun ↔ ∃ i ∈ ids, w ∈ (f i).begun := by
  induction ids with
  | nil => simp
  | cons i ids ih => rw [List.map_cons, List.sum_cons, mem_begun_add, ih, List.exists_mem_cons_iff]

/-! ### Repetitions -/

/-- What is read or begun within some rounds is so on repetitions.

**Proof sketch.** Induction on the rounds: after the first one there are fewer left. -/
lemma mem_plus_of_mem_rounds (n : Nat) : ∀ {w : TokenSeq},
    (w ∈ (R.rounds n).whole → w ∈ R.plus.whole) ∧ (w ∈ (R.rounds n).begun → w ∈ R.plus.begun) := by
  induction n with
  | zero => simp [rounds]
  | succ n ih =>
    refine fun {w} => ⟨fun hw => ?_, fun hw => ?_⟩
    · obtain ⟨u, hu, v, hv, rfl⟩ := mem_whole_mul.mp hw
      refine Language.append_mem_mul hu ?_
      rw [← Language.one_add_self_mul_kstar_eq_kstar]
      exact (mem_whole_add.mp hv).imp mem_whole_one.mp ih.1
    · rcases mem_begun_mul.mp hw with hw | ⟨u, hu, v, hv, rfl⟩
      · exact Language.mem_mul.mpr ⟨[], Language.nil_mem_kstar _, w, hw, rfl⟩
      · have hv' := ih.2 ((mem_begun_add.mp hv).resolve_left notMem_begun_one)
        obtain ⟨x, hx, y, hy, rfl⟩ := Language.mem_mul.mp hv'
        rw [← List.append_assoc]
        refine Language.append_mem_mul ?_ hy
        rw [← Language.one_add_self_mul_kstar_eq_kstar]
        exact Or.inr (Language.append_mem_mul hu hx)

/-- Several whole readings in a row fit into as many rounds. -/
lemma append_flatten_mem_rounds (S : List TokenSeq) : ∀ {u : TokenSeq} {n : Nat},
    u ∈ R.whole → (∀ y ∈ S, y ∈ R.whole) → S.length < n → u ++ S.flatten ∈ (R.rounds n).whole := by
  induction S with
  | nil =>
    intro u n hu _ hn
    obtain ⟨n, rfl⟩ := Nat.exists_eq_succ_of_ne_zero (Nat.ne_of_gt hn)
    exact mem_whole_mul.mpr ⟨u, hu, [], Or.inl rfl, rfl⟩
  | cons y S ih =>
    intro u n hu hS hn
    obtain ⟨n, rfl⟩ := Nat.exists_eq_succ_of_ne_zero (Nat.ne_of_gt (Nat.zero_lt_of_lt hn))
    refine mem_whole_mul.mpr ⟨u, hu, y ++ S.flatten, Or.inr ?_, rfl⟩
    exact ih (hS y List.mem_cons_self) (fun z hz => hS z (List.mem_cons_of_mem y hz))
      (Nat.lt_of_succ_lt_succ hn)

/-- Several whole readings and one that is begun fit into as many rounds. -/
lemma flatten_append_mem_rounds (S : List TokenSeq) : ∀ {v : TokenSeq} {n : Nat},
    v ∈ R.begun → (∀ y ∈ S, y ∈ R.whole) → S.length < n → S.flatten ++ v ∈ (R.rounds n).begun := by
  induction S with
  | nil =>
    intro v n hv _ hn
    obtain ⟨n, rfl⟩ := Nat.exists_eq_succ_of_ne_zero (Nat.ne_of_gt hn)
    exact mem_begun_mul.mpr (Or.inl hv)
  | cons y S ih =>
    intro v n hv hS hn
    obtain ⟨n, rfl⟩ := Nat.exists_eq_succ_of_ne_zero (Nat.ne_of_gt (Nat.zero_lt_of_lt hn))
    refine mem_begun_mul.mpr (Or.inr ⟨y, hS y List.mem_cons_self, S.flatten ++ v, Or.inr ?_, ?_⟩)
    · exact ih hv (fun z hz => hS z (List.mem_cons_of_mem y hz)) (Nat.lt_of_succ_lt_succ hn)
    · rw [List.flatten_cons, List.append_assoc]

/-- Words that are not empty have at least as many tokens in a row as there are words. -/
lemma length_le_flatten {S : List TokenSeq} (h : ∀ y ∈ S, y ≠ []) : S.length ≤ S.flatten.length := by
  induction S with
  | nil => exact le_rfl
  | cons y S ih =>
    have hy : 1 ≤ y.length := List.length_pos_iff.mpr (h y List.mem_cons_self)
    have hS := ih fun z hz => h z (List.mem_cons_of_mem y hz)
    rw [List.flatten_cons, List.length_append, List.length_cons]
    omega

/-- **As many rounds as there are tokens, and one more, are enough.** Empty words after the first one
can be dropped, and each of the others has a token.

**Proof sketch.** A word of repetitions is a row of words of the body. Those that are empty are left
out, but for the first one, and so there are no more of them than tokens. -/
lemma mem_rounds_of_length_le {n : Nat} (hn : w.length ≤ n) :
    (w ∈ R.plus.whole ↔ w ∈ (R.rounds (n + 1)).whole) ∧
      (w ∈ R.plus.begun ↔ w ∈ (R.rounds (n + 1)).begun) := by
  refine ⟨⟨fun hw => ?_, (mem_plus_of_mem_rounds _).1⟩, ⟨fun hw => ?_, (mem_plus_of_mem_rounds _).2⟩⟩
  · obtain ⟨u, hu, v, hv, rfl⟩ := Language.mem_mul.mp hw
    obtain ⟨S, rfl, hS⟩ := Language.mem_kstar_iff_exists_nonempty.mp hv
    have hlen := length_le_flatten fun y hy => (hS y hy).2
    rw [List.length_append] at hn
    exact append_flatten_mem_rounds S hu (fun y hy => (hS y hy).1) (by omega)
  · obtain ⟨u, hu, v, hv, rfl⟩ := Language.mem_mul.mp hw
    obtain ⟨S, rfl, hS⟩ := Language.mem_kstar_iff_exists_nonempty.mp hu
    have hlen := length_le_flatten fun y hy => (hS y hy).2
    rw [List.length_append] at hn
    exact flatten_append_mem_rounds S hv (fun y hy => (hS y hy).1) (by omega)

end Reading

namespace Grammar

/-! ## What a row of nodes can begin with -/

/-- **A row of nodes can begin with a token sequence**, which is not empty. -/
inductive Opens (g : Grammar) : List NodeId → TokenSeq → Prop
  | token {i k : Nat} {rest : List NodeId} : g.kind i = .token k → Opens g (i :: rest) [k]
  | next {i k : Nat} {rest : List NodeId} {w : TokenSeq} : g.kind i = .token k →
      Opens g rest w → Opens g (i :: rest) (k :: w)
  | expand {i : NodeId} {row rest : List NodeId} {w : TokenSeq} : Expands g i row →
      Opens g (row ++ rest) w → Opens g (i :: rest) w

/-- The token sequences that a row of nodes can begin with. -/
def openings (g : Grammar) (row : List NodeId) : Language Nat := {w | Opens g row w}

variable {g : Grammar} {i : NodeId} {row xs ys : List NodeId} {w : TokenSeq}

/-- An opening is not empty. -/
lemma Opens.ne_nil (h : Opens g row w) : w ≠ [] := by
  induction h with
  | token | next => simp
  | expand _ _ ih => exact ih

/-- **A beginning of an opening** is an opening.

**Proof sketch.** Induction on the opening. The beginning of an opening behind a token is empty or goes
on behind this token. -/
lemma Opens.cut (h : Opens g row w) : ∀ {u : TokenSeq}, u <+: w → u ≠ [] → Opens g row u := by
  induction h with
  | token hk =>
    intro u hu hne
    rw [hu.eq_of_length_le (List.length_pos_iff.mpr hne)]
    exact .token hk
  | next hk _ ih =>
    intro u hu hne
    obtain ⟨x, u, rfl⟩ := List.exists_cons_of_ne_nil hne
    obtain ⟨rfl, hu'⟩ := List.cons_prefix_cons.mp hu
    by_cases hnil : u = []
    · rw [hnil]
      exact .token hk
    · exact .next hk (ih hu' hnil)
  | expand hrow _ ih =>
    intro u hu hne
    exact .expand hrow (ih hu hne)

/-- A derived word is an opening. -/
lemma Derives.opens (h : Derives g row w) (hne : w ≠ []) : Opens g row w := by
  induction h with
  | nil => exact absurd rfl hne
  | @token i k rest w hk _ ih =>
    by_cases hnil : w = []
    · rw [hnil]
      exact .token hk
    · exact .next hk (ih hnil)
  | expand hrow _ ih => exact .expand hrow (ih hne)

/-- An opening of two rows is one of the first, or it goes on in the second.

**Proof sketch.** Induction on the opening. Its first step expands or reads the first node of the whole
row, which is the first one of the front part, unless that is empty. -/
lemma Opens.split {zs : List NodeId} (h : Opens g zs w) : ∀ {xs : List NodeId}, zs = xs ++ ys →
    Opens g xs w ∨ ∃ u, Derives g xs u ∧ ∃ v, Opens g ys v ∧ u ++ v = w := by
  induction h with
  | @token i k rest hk =>
    intro xs h
    cases xs with
    | nil =>
      obtain rfl : i :: rest = ys := h
      exact Or.inr ⟨[], .nil, [k], .token hk, rfl⟩
    | cons x xs =>
      obtain ⟨rfl, -⟩ := List.cons.inj h
      exact Or.inl (.token hk)
  | @next i k rest w hk hrest ih =>
    intro xs h
    cases xs with
    | nil =>
      obtain rfl : i :: rest = ys := h
      exact Or.inr ⟨[], .nil, k :: w, .next hk hrest, rfl⟩
    | cons x xs =>
      obtain ⟨rfl, rfl⟩ := List.cons.inj h
      rcases ih rfl with hopens | ⟨u, hu, v, hv, rfl⟩
      · exact Or.inl (.next hk hopens)
      · exact Or.inr ⟨k :: u, .token hk hu, v, hv, rfl⟩
  | @expand i row rest w hrow hrest ih =>
    intro xs h
    cases xs with
    | nil =>
      obtain rfl : i :: rest = ys := h
      exact Or.inr ⟨[], .nil, w, .expand hrow hrest, rfl⟩
    | cons x xs =>
      obtain ⟨rfl, rfl⟩ := List.cons.inj h
      rcases ih (List.append_assoc row xs ys).symm with hopens | ⟨u, hu, v, hv, rfl⟩
      · exact Or.inl (.expand hrow hopens)
      · exact Or.inr ⟨u, .expand hrow hu, v, hv, rfl⟩

/-- An opening of a row is one of a longer row. -/
lemma Opens.append_right (h : Opens g xs w) (ys : List NodeId) : Opens g (xs ++ ys) w := by
  induction h with
  | token hk => exact .token hk
  | next hk _ ih => exact .next hk ih
  | @expand i row rest w hrow _ ih => exact .expand hrow (List.append_assoc row rest ys ▸ ih)

/-- After a derivation from one row, the next row begins. -/
lemma Derives.append_opens {u v : TokenSeq} (hu : Derives g xs u) (hv : Opens g ys v) :
    Opens g (xs ++ ys) (u ++ v) := by
  induction hu with
  | nil => exact hv
  | token hk _ ih => exact .next hk ih
  | @expand i row rest w hrow _ ih => exact .expand hrow (List.append_assoc row rest ys ▸ ih)

/-- **What two rows can begin with one after the other.** -/
lemma openings_append (g : Grammar) (xs ys : List NodeId) :
    g.openings (xs ++ ys) = g.openings xs + g.words xs * g.openings ys := by
  ext w
  rw [Language.mem_add, Language.mem_mul]
  constructor
  · intro h
    exact Opens.split h rfl
  · rintro (h | ⟨u, hu, v, hv, rfl⟩)
    · exact Opens.append_right h ys
    · exact Derives.append_opens hu hv

/-! ## What can be read on the way through a row of nodes -/

/-- What can be read on the way through a row of nodes. -/
def reading (g : Grammar) (row : List NodeId) : Reading where
  whole := g.words row
  begun := g.openings row
  nil_notMem_begun h := Opens.ne_nil h rfl

/-- What a row reads is what it derives. -/
@[simp]
lemma reading_whole (g : Grammar) (row : List NodeId) : (g.reading row).whole = g.words row := rfl

/-- What a row begins are its openings. -/
@[simp]
lemma reading_begun (g : Grammar) (row : List NodeId) : (g.reading row).begun = g.openings row := rfl

/-- The empty row reads nothing. -/
lemma reading_nil (g : Grammar) : g.reading [] = 1 := by
  refine Reading.ext g.words_nil (Language.ext fun w => ?_)
  refine ⟨fun h => ?_, fun h => absurd h Reading.notMem_begun_one⟩
  cases h

/-- A row is read one part after the other. -/
lemma reading_append (g : Grammar) (xs ys : List NodeId) :
    g.reading (xs ++ ys) = g.reading xs * g.reading ys :=
  Reading.ext (g.words_append xs ys) (g.openings_append xs ys)

/-- A token is its own opening. -/
lemma mem_openings_token {k : Nat} (h : g.kind i = .token k) : w ∈ g.openings [i] ↔ w = [k] := by
  constructor
  · rintro (hk | ⟨hk, hrest⟩ | ⟨hrow, _⟩)
    · rw [h] at hk
      cases hk
      rfl
    · cases hrest
    · cases hrow <;> simp_all
  · rintro rfl
    exact .token h

/-- A node that is no token begins like the rows that can stand in its place. -/
lemma mem_openings_of_not_token (h : ∀ k, g.kind i ≠ .token k) :
    w ∈ g.openings [i] ↔ ∃ row, Expands g i row ∧ w ∈ g.openings row := by
  constructor
  · rintro (hk | ⟨hk, _⟩ | ⟨hrow, hw⟩)
    · exact absurd hk (h _)
    · exact absurd hk (h _)
    · rw [List.append_nil] at hw
      exact ⟨_, hrow, hw⟩
  · rintro ⟨row, hrow, hw⟩
    refine .expand hrow ?_
    rw [List.append_nil]
    exact hw

/-- **A node with one expansion** is read like the row that stands in its place. -/
lemma reading_eq_of_expands (h : ∀ k, g.kind i ≠ .token k)
    (hrow : ∀ {row'}, Expands g i row' ↔ row' = row) : g.reading [i] = g.reading row := by
  refine Reading.ext (Language.ext fun w => ?_) (Language.ext fun w => ?_)
  · exact (mem_words_of_not_token h).trans (by simp [hrow])
  · exact (mem_openings_of_not_token h).trans (by simp [hrow])

/-- A nonterminal reads what the right side of its production does. -/
lemma reading_nonterminal {name : String} {p : Nat} {root : NodeId}
    (h : g.kind i = .nonterminal name (some p)) (hroot : g.body p = some root) :
    g.reading [i] = g.reading [root] := by
  refine reading_eq_of_expands (by simp [h]) ⟨fun hrow => ?_, ?_⟩
  · cases hrow <;> simp_all
  · rintro rfl
    exact .production h hroot

/-- Nothing can be read where no right side stands for a nonterminal. -/
lemma reading_unparsed {name : String} {p : Option Nat} (h : g.kind i = .nonterminal name p)
    (hnone : p.bind g.body = none) : g.reading [i] = 0 := by
  have hstuck : ∀ row', ¬ Expands g i row' := by
    intro row' hrow
    cases hrow <;> simp_all
  refine Reading.ext (Language.ext fun w => ?_) (Language.ext fun w => ?_)
  · refine (mem_words_of_not_token (by simp [h])).trans ⟨?_, fun hw => absurd hw (Language.notMem_zero w)⟩
    rintro ⟨row', hrow, -⟩
    exact absurd hrow (hstuck row')
  · refine (mem_openings_of_not_token (by simp [h])).trans
      ⟨?_, fun hw => absurd hw (Language.notMem_zero w)⟩
    rintro ⟨row', hrow, -⟩
    exact absurd hrow (hstuck row')

/-- No words are derived there. -/
lemma notMem_words_unparsed {name : String} {p : Option Nat} (h : g.kind i = .nonterminal name p)
    (hnone : p.bind g.body = none) (w : TokenSeq) : w ∉ g.words [i] := by
  have hwords : g.words [i] = 0 := congrArg Reading.whole (reading_unparsed h hnone)
  rw [hwords]
  exact Language.notMem_zero w

/-- A sequence reads what the row of its units does. -/
lemma reading_sequence {units : List NodeId} (h : g.kind i = .sequence units) :
    g.reading [i] = g.reading units := by
  refine reading_eq_of_expands (by simp [h]) ⟨fun hrow => ?_, ?_⟩
  · cases hrow <;> simp_all
  · rintro rfl
    exact .sequence h

/-- A lookahead reads nothing. -/
lemma reading_lookahead {spec : LookaheadSpec} (h : g.kind i = .lookahead spec) :
    g.reading [i] = 1 := by
  rw [← g.reading_nil]
  refine reading_eq_of_expands (by simp [h]) ⟨fun hrow => ?_, ?_⟩
  · cases hrow <;> simp_all
  · rintro rfl
    exact .lookahead h

/-- An action reads nothing. -/
lemma reading_action {code : String} (h : g.kind i = .action code) : g.reading [i] = 1 := by
  rw [← g.reading_nil]
  refine reading_eq_of_expands (by simp [h]) ⟨fun hrow => ?_, ?_⟩
  · cases hrow <;> simp_all
  · rintro rfl
    exact .action h

/-- A choice reads what one of its alternatives does.

**Proof sketch.** Whole words by the words of a choice, and openings by its expansions. -/
lemma reading_choice {alternatives : List NodeId} (h : g.kind i = .choice alternatives) :
    g.reading [i] = (alternatives.map fun a => g.reading [a]).sum := by
  refine Reading.ext (Language.ext fun w => ?_) (Language.ext fun w => ?_)
  · rw [Reading.mem_sum_whole]
    exact mem_words_choice h
  · rw [Reading.mem_sum_begun]
    refine (mem_openings_of_not_token (by simp [h])).trans ⟨?_, ?_⟩
    · rintro ⟨row, hrow, hw⟩
      cases hrow with
      | alternative h' ha =>
        rw [h] at h'
        cases h'
        exact ⟨_, ha, hw⟩
      | _ => simp_all
    · rintro ⟨a, ha, hw⟩
      exact ⟨_, .alternative h ha, hw⟩

/-- At most once is nothing or once. -/
lemma reading_zeroOrOne {b : NodeId} (h : g.kind i = .zeroOrOne b) :
    g.reading [i] = 1 + g.reading [b] := by
  refine Reading.ext (words_zeroOrOne h) (Language.ext fun w => ?_)
  refine (mem_openings_of_not_token (by simp [h])).trans ⟨?_, ?_⟩
  · rintro ⟨row, hrow, hw⟩
    cases hrow with
    | absent h' => cases hw
    | present h' =>
      rw [h] at h'
      cases h'
      exact Or.inr hw
    | _ => simp_all
  · intro hw
    exact ⟨_, .present h, (Reading.mem_begun_add.mp hw).resolve_left Reading.notMem_begun_one⟩

/-- Copies of a node begin with some words of it, and an opening of the next copy.

**Proof sketch.** Induction on the copies: an opening is one of the first copy, or it goes on behind a
word of the first copy. -/
lemma mem_openings_replicate (n : Nat) : ∀ {w : TokenSeq},
    w ∈ g.openings (List.replicate n i) ↔ ∃ m < n, w ∈ g.words [i] ^ m * g.openings [i] := by
  induction n with
  | zero =>
    refine fun {w} => ⟨fun h => ?_, fun ⟨m, hm, _⟩ => absurd hm (Nat.not_lt_zero m)⟩
    cases h
  | succ n ih =>
    intro w
    have hcons : g.openings (List.replicate (n + 1) i) = g.openings [i] +
        g.words [i] * g.openings (List.replicate n i) := g.openings_append [i] _
    rw [hcons, Language.mem_add, Language.mem_mul]
    constructor
    · rintro (hw | ⟨u, hu, v, hv, rfl⟩)
      · exact ⟨0, Nat.succ_pos n, by rwa [pow_zero, one_mul]⟩
      · obtain ⟨m, hm, hv⟩ := ih.mp hv
        refine ⟨m + 1, Nat.succ_lt_succ hm, ?_⟩
        rw [pow_succ', mul_assoc]
        exact Language.append_mem_mul hu hv
    · rintro ⟨m, hm, hw⟩
      cases m with
      | zero =>
        rw [pow_zero, one_mul] at hw
        exact Or.inl hw
      | succ m =>
        rw [pow_succ', mul_assoc] at hw
        obtain ⟨u, hu, v, hv, rfl⟩ := Language.mem_mul.mp hw
        exact Or.inr ⟨u, hu, v, ih.mpr ⟨m, Nat.lt_of_succ_lt_succ hm, hv⟩, rfl⟩

/-- A repetition begins like copies of its body, as many as need be.

**Proof sketch.** Expansions are rows of copies, which begin with some words of the body and an opening
of the next copy. -/
lemma mem_openings_repetition {b : NodeId} (h : ∀ k, g.kind i ≠ .token k)
    (hrow : ∀ {row}, Expands g i row → ∃ n, row = List.replicate n b)
    (hcopies : ∀ n, Expands g i (List.replicate (n + 1) b)) :
    w ∈ g.openings [i] ↔ w ∈ (g.reading [b]).plus.begun := by
  have hplus : w ∈ (g.reading [b]).plus.begun ↔ ∃ n, w ∈ g.words [b] ^ n * g.openings [b] := by
    show w ∈ (g.words [b])∗ * g.openings [b] ↔ _
    rw [Language.kstar_eq_iSup_pow, Language.iSup_mul, Language.mem_iSup]
  rw [hplus]
  refine (mem_openings_of_not_token h).trans ⟨?_, ?_⟩
  · rintro ⟨row, hrow', hw⟩
    obtain ⟨n, rfl⟩ := hrow hrow'
    obtain ⟨m, -, hw⟩ := (mem_openings_replicate n).mp hw
    exact ⟨m, hw⟩
  · rintro ⟨n, hw⟩
    exact ⟨_, hcopies n, (mem_openings_replicate _).mpr ⟨n, Nat.lt_succ_self n, hw⟩⟩

/-- One or more times is a repetition. -/
lemma reading_oneOrMore {b : NodeId} (h : g.kind i = .oneOrMore b) :
    g.reading [i] = (g.reading [b]).plus := by
  refine Reading.ext (words_oneOrMore h) (Language.ext fun w => ?_)
  refine mem_openings_repetition (by simp [h]) (fun hrow => ?_) fun n => .oneOrMore n h
  cases hrow with
  | oneOrMore n h' =>
    rw [h] at h'
    cases h'
    exact ⟨n + 1, rfl⟩
  | _ => simp_all

/-- Any number of times is nothing or a repetition. -/
lemma reading_zeroOrMore {b : NodeId} (h : g.kind i = .zeroOrMore b) :
    g.reading [i] = 1 + (g.reading [b]).plus := by
  refine Reading.ext ?_ (Language.ext fun w => ?_)
  · refine (words_zeroOrMore h).trans ?_
    rw [← Language.one_add_self_mul_kstar_eq_kstar]
    rfl
  · refine (mem_openings_repetition (by simp [h]) (fun hrow => ?_) fun n => .zeroOrMore (n + 1) h).trans
      ⟨Or.inr, fun hw => (Reading.mem_begun_add.mp hw).resolve_left Reading.notMem_begun_one⟩
    cases hrow with
    | zeroOrMore n h' =>
      rw [h] at h'
      cases h'
      exact ⟨n, rfl⟩
    | _ => simp_all

/-! ## Grammars without left recursion -/

/-- **Grammars without left recursion**: no node can begin with itself, and all nonterminals have
productions with a right side. -/
structure Predictive (g : Grammar) : Prop where
  resolved : ∀ {i name p}, g.kind i = .nonterminal name p →
    ∃ q root, p = some q ∧ g.body q = some root
  noLeftRecursion : ∀ i, ¬ TransGen g.LeftCorner i i

/-- Only nodes of the grammar begin with others. -/
lemma LeftCorner.lt_size {j : NodeId} (hij : g.LeftCorner i j) : i < g.nodes.size := by
  refine lt_size_of_kind fun code h => ?_
  cases hij <;> simp_all [NodeKind.loopBody?]

/-- The ranks of nodes by what they can begin with. -/
lemma exists_corner_rank (hleft : ∀ i, ¬ TransGen g.LeftCorner i i) : ∃ rank : Nat → Nat,
    (∀ i, rank i ≤ g.nodes.size) ∧ ∀ i j, g.LeftCorner i j → rank j < rank i :=
  exists_rank (fun _ _ hij => hij.lt_size) hleft

/-- The units of a sequence up to the first token. -/
def unitsToToken (g : Grammar) : List NodeId → List NodeId
  | [] => []
  | u :: us =>
    match g.kind u with
    | .token _ => [u]
    | _ => u :: g.unitsToToken us

/-- The nodes that a node can begin with, and perhaps more of the units of a sequence. -/
def corners (g : Grammar) (i : NodeId) : List NodeId :=
  match g.kind i with
  | .nonterminal _ p => (p.bind g.body).toList
  | .sequence units => g.unitsToToken units
  | kind => kind.parts

/-- A unit behind units that derive nothing is among those up to the first token.

**Proof sketch.** Induction on the units before: each of them derives the empty sequence, so that it is
no token. -/
lemma mem_unitsToToken {u : NodeId} {after : List NodeId} (before : List NodeId) :
    [] ∈ g.words before → u ∈ g.unitsToToken (before ++ u :: after) := by
  induction before with
  | nil =>
    intro _
    rw [List.nil_append, unitsToToken]
    split <;> exact List.mem_cons_self
  | cons b before ih =>
    intro hnil
    rw [words_cons, Language.mem_mul] at hnil
    obtain ⟨v, hv, w, hw, hvw⟩ := hnil
    obtain ⟨rfl, rfl⟩ := List.append_eq_nil_iff.mp hvw
    rw [List.cons_append, unitsToToken]
    split
    · next k hk => exact absurd ((mem_words_token hk).mp hv) (List.cons_ne_nil _ _).symm
    · exact List.mem_cons_of_mem b (ih hw)

/-- What a node can begin with is among its corners. -/
lemma mem_corners {j : NodeId} (h : g.LeftCorner i j) : j ∈ g.corners i := by
  unfold corners
  cases h with
  | production hk hroot => simp [hk, hroot]
  | alternative hk ha => simpa [hk, NodeKind.parts] using ha
  | unit hk hnil =>
    rw [hk]
    exact mem_unitsToToken _ hnil
  | body hb => cases hk : g.kind i <;> simp_all [NodeKind.loopBody?, NodeKind.parts]

/-- A node has a greater rank than the nodes that it can begin with and, if it is a nonterminal, it has
a production with a right side. -/
def LeftDescends (g : Grammar) (rank : Nat → Nat) (i : NodeId) : Bool :=
  (g.corners i).all (fun j => rank j < rank i) &&
    match g.kind i with
    | .nonterminal _ p => (p.bind g.body).isSome
    | _ => true

/-- **There is no left recursion** if ranks go down to what nodes can begin with; behind tokens productions
may refer to themselves. -/
lemma noLeftRecursion_of_corners {rank : Nat → Nat}
    (h : ∀ i < g.nodes.size, ∀ j ∈ g.corners i, rank j < rank i) (i : NodeId) :
    ¬ TransGen g.LeftCorner i i :=
  not_transGen_self rank (fun _ _ hij => h _ hij.lt_size _ (mem_corners hij)) i

/-- **A grammar without left recursion**, by the ranks of its nodes; behind tokens productions may
refer to themselves.

**Proof sketch.** The ranks go down along left corners, and a nonterminal that descends has a right
side. -/
theorem predictive_of_leftDescends {rank : Nat → Nat}
    (h : ∀ i < g.nodes.size, g.LeftDescends rank i) : g.Predictive where
  resolved {i name p} hk := by
    have hi := h i (lt_size_of_kind (by simp [hk]))
    rw [LeftDescends, hk, Bool.and_eq_true] at hi
    obtain ⟨root, hroot⟩ := Option.isSome_iff_exists.mp hi.2
    obtain ⟨q, hq, hbody⟩ := Option.bind_eq_some_iff.mp hroot
    exact ⟨q, root, hq, hbody⟩
  noLeftRecursion := by
    have hdown : ∀ i < g.nodes.size, ∀ j ∈ g.corners i, rank j < rank i := by
      intro i hi j hj
      have hi := h i hi
      rw [LeftDescends, Bool.and_eq_true] at hi
      simpa using List.all_eq_true.mp hi.1 j hj
    exact noLeftRecursion_of_corners hdown

namespace TopDown

/-- A grammar that can be expanded from the top can be predicted. -/
lemma predictive (hg : g.TopDown) : g.Predictive := ⟨hg.resolved, hg.leftCorner_acyclic⟩

/-- **Every opening begins a word**, in a grammar that can be expanded from the top. -/
lemma exists_word (hg : g.TopDown) (h : Opens g row w) : ∃ v ∈ g.words row, w <+: v := by
  induction h with
  | @token i k rest hk =>
    obtain ⟨v, hv⟩ := hg.words_nonempty rest
    exact ⟨k :: v, .token hk hv, List.cons_prefix_cons.mpr ⟨rfl, List.nil_prefix⟩⟩
  | next hk _ ih =>
    obtain ⟨v, hv, hpre⟩ := ih
    exact ⟨_, .token hk hv, List.cons_prefix_cons.mpr ⟨rfl, hpre⟩⟩
  | expand hrow _ ih =>
    obtain ⟨v, hv, hpre⟩ := ih
    exact ⟨v, .expand hrow hv, hpre⟩

end TopDown

end Grammar

end GrammarForge
