import GrammarForge.Proofs.FirstTokens
import GrammarForge.Proofs.Nullability

set_option autoImplicit false

/-!
# Onsets

How a row of nodes can begin, as far as the next token tells: with a token, or with a code production, of
which nothing is known but that it is there. The onsets of a row are the openings of one token, and the
empty sequence if a code production can come first.

## Main definitions

* `Grammar.Onset`, `Grammar.onsets` — how a row of nodes can begin.

## Main results

* `Grammar.mem_onsets_append` — how two rows can begin one after the other.
* `Grammar.mem_onsets_sequence`, `Grammar.mem_onsets_choice` and the like — how each kind of node can begin.
* `Grammar.singleton_mem_onsets` — the onsets of one token are the openings of one token.
* `Grammar.codeFirstWithin_iff` — the walk for code productions finds the empty onset.
* `Grammar.isNullable_iff_of_marks` — without left recursion nullability is found out rightly.
-/

namespace GrammarForge

open Computability Relation

namespace Grammar

/-- **How a row of nodes can begin**: with a token, or with a code production, which shows no token. -/
inductive Onset (g : Grammar) : List NodeId → TokenSeq → Prop
  | token {i k : Nat} {rest : List NodeId} : g.kind i = .token k → Onset g (i :: rest) [k]
  | code {i p : Nat} {name : String} {rest : List NodeId} : g.kind i = .nonterminal name (some p) →
      g.body p = none → Onset g (i :: rest) []
  | expand {i : NodeId} {row rest : List NodeId} {t : TokenSeq} : g.Expands i row →
      Onset g (row ++ rest) t → Onset g (i :: rest) t

/-- How a row of nodes can begin. -/
def onsets (g : Grammar) (row : List NodeId) : Language Nat := {t | g.Onset row t}

variable {g : Grammar} {i b : NodeId} {row xs ys : List NodeId} {t : TokenSeq} {name : String} {p : Nat}

/-! ## Rows -/

/-- The empty row has no onsets. -/
@[simp]
lemma notMem_onsets_nil : t ∉ g.onsets [] := fun h => by cases h

/-- An onset of two rows is one of the first, or the first derives nothing and it is one of the second.

**Proof sketch.** Induction on the onset. Its first step expands or reads the first node of the whole
row, which is the first one of the front part, unless that is empty. -/
lemma Onset.split {zs : List NodeId} (h : g.Onset zs t) : ∀ {xs : List NodeId}, zs = xs ++ ys →
    g.Onset xs t ∨ (g.Derives xs [] ∧ g.Onset ys t) := by
  induction h with
  | @token i k rest hk =>
    intro xs h
    cases xs with
    | nil =>
      obtain rfl : i :: rest = ys := h
      exact Or.inr ⟨.nil, .token hk⟩
    | cons x xs =>
      obtain ⟨rfl, -⟩ := List.cons.inj h
      exact Or.inl (.token hk)
  | @code i p name rest hk hbody =>
    intro xs h
    cases xs with
    | nil =>
      obtain rfl : i :: rest = ys := h
      exact Or.inr ⟨.nil, .code hk hbody⟩
    | cons x xs =>
      obtain ⟨rfl, -⟩ := List.cons.inj h
      exact Or.inl (.code hk hbody)
  | @expand i row rest t hrow hrest ih =>
    intro xs h
    cases xs with
    | nil =>
      obtain rfl : i :: rest = ys := h
      exact Or.inr ⟨.nil, .expand hrow hrest⟩
    | cons x xs =>
      obtain ⟨rfl, rfl⟩ := List.cons.inj h
      rcases ih (List.append_assoc row xs ys).symm with honset | ⟨hnil, honset⟩
      · exact Or.inl (.expand hrow honset)
      · exact Or.inr ⟨.expand hrow hnil, honset⟩

/-- An onset of a row is one of a longer row. -/
lemma Onset.append_right (h : g.Onset xs t) (ys : List NodeId) : g.Onset (xs ++ ys) t := by
  induction h with
  | token hk => exact .token hk
  | code hk hbody => exact .code hk hbody
  | @expand i row rest t hrow _ ih => exact .expand hrow (List.append_assoc row rest ys ▸ ih)

/-- After a row that derives nothing the next row begins. -/
lemma Onset.append_left {w : TokenSeq} (hw : g.Derives xs w) (hnil : w = []) (h : g.Onset ys t) :
    g.Onset (xs ++ ys) t := by
  induction hw with
  | nil => exact h
  | token => cases hnil
  | @expand i row rest w hrow _ ih => exact .expand hrow (List.append_assoc row rest ys ▸ ih hnil)

/-- **How two rows can begin one after the other.** -/
lemma mem_onsets_append : t ∈ g.onsets (xs ++ ys) ↔
    t ∈ g.onsets xs ∨ ([] ∈ g.words xs ∧ t ∈ g.onsets ys) := by
  constructor
  · exact fun h => Onset.split h rfl
  · rintro (h | ⟨hnil, h⟩)
    · exact h.append_right ys
    · exact .append_left hnil rfl h

/-- The onsets of a row are those of its first node and, if that derives nothing, those of the others.
-/
lemma mem_onsets_cons (i : NodeId) (row : List NodeId) : t ∈ g.onsets (i :: row) ↔
    t ∈ g.onsets [i] ∨ ([] ∈ g.words [i] ∧ t ∈ g.onsets row) := by
  rw [← List.singleton_append, mem_onsets_append]

/-- Copies of a node begin like the node. -/
lemma mem_onsets_replicate (n : Nat) :
    t ∈ g.onsets (List.replicate (n + 1) i) ↔ t ∈ g.onsets [i] := by
  induction n with
  | zero => rfl
  | succ n ih =>
    rw [List.replicate_succ, mem_onsets_cons i, ih]
    exact or_iff_left_of_imp And.right

/-! ## Nodes -/

/-- A token is its own onset. -/
lemma mem_onsets_token {k : Nat} (h : g.kind i = .token k) : t ∈ g.onsets [i] ↔ t = [k] := by
  constructor
  · rintro (hk | ⟨hk, -⟩ | ⟨hrow, -⟩)
    · rw [h] at hk
      rw [NodeKind.token.inj hk]
    · simp [h] at hk
    · cases hrow <;> simp_all
  · rintro rfl
    exact .token h

/-- A nonterminal without a right side begins with nothing that is known; if it refers to a code
production, this is an onset. -/
lemma mem_onsets_unparsed {q : Option Nat} (h : g.kind i = .nonterminal name q)
    (hnone : q.bind g.body = none) : t ∈ g.onsets [i] ↔ q.isSome ∧ t = [] := by
  constructor
  · rintro (hk | ⟨hk, -⟩ | ⟨hrow, -⟩)
    · simp [h] at hk
    · rw [h] at hk
      obtain ⟨-, rfl⟩ := NodeKind.nonterminal.inj hk
      exact ⟨rfl, rfl⟩
    · cases hrow <;> simp_all
  · rintro ⟨hsome, rfl⟩
    obtain ⟨p, rfl⟩ := Option.isSome_iff_exists.mp hsome
    exact .code h hnone

/-- Other nodes begin like the rows that can stand in their place. -/
lemma mem_onsets_of_expands (htoken : ∀ k, g.kind i ≠ .token k)
    (hcode : ∀ {name p}, g.kind i = .nonterminal name (some p) → g.body p ≠ none) :
    t ∈ g.onsets [i] ↔ ∃ row, g.Expands i row ∧ t ∈ g.onsets row := by
  constructor
  · rintro (hk | ⟨hk, hbody⟩ | ⟨hrow, ht⟩)
    · exact absurd hk (htoken _)
    · exact absurd hbody (hcode hk)
    · rw [List.append_nil] at ht
      exact ⟨_, hrow, ht⟩
  · rintro ⟨row, hrow, ht⟩
    refine .expand hrow ?_
    rw [List.append_nil]
    exact ht

/-- A node with one expansion begins like the row that stands in its place. -/
lemma mem_onsets_of_row (htoken : ∀ k, g.kind i ≠ .token k)
    (hcode : ∀ {name p}, g.kind i = .nonterminal name (some p) → g.body p ≠ none)
    (hrow : ∀ {row'}, g.Expands i row' ↔ row' = row) : t ∈ g.onsets [i] ↔ t ∈ g.onsets row := by
  rw [mem_onsets_of_expands htoken hcode]
  simp [hrow]

/-- A nonterminal has the onsets of the right side of its production. -/
lemma mem_onsets_nonterminal {root : NodeId} (h : g.kind i = .nonterminal name (some p))
    (hroot : g.body p = some root) : t ∈ g.onsets [i] ↔ t ∈ g.onsets [root] := by
  refine mem_onsets_of_row (by simp [h]) (fun h' => ?_) ⟨fun hrow => ?_, ?_⟩
  · simp_all
  · cases hrow <;> simp_all
  · rintro rfl
    exact .production h hroot

/-- A sequence has the onsets of its units. -/
lemma mem_onsets_sequence {units : List NodeId} (h : g.kind i = .sequence units) :
    t ∈ g.onsets [i] ↔ t ∈ g.onsets units := by
  refine mem_onsets_of_row (by simp [h]) (by simp [h]) ⟨fun hrow => ?_, ?_⟩
  · cases hrow <;> simp_all
  · rintro rfl
    exact .sequence h

/-- A node that only the empty row can stand for begins with nothing. -/
lemma notMem_onsets_of_empty (htoken : ∀ k, g.kind i ≠ .token k)
    (hcode : ∀ {name p}, g.kind i = .nonterminal name (some p) → g.body p ≠ none)
    (hempty : ∀ {row}, g.Expands i row → row = []) : t ∉ g.onsets [i] := by
  rw [mem_onsets_of_expands htoken hcode]
  rintro ⟨row, hrow, ht⟩
  rw [hempty hrow] at ht
  exact notMem_onsets_nil ht

/-- A lookahead has no onsets. -/
lemma notMem_onsets_lookahead {spec : LookaheadSpec} (h : g.kind i = .lookahead spec) :
    t ∉ g.onsets [i] :=
  notMem_onsets_of_empty (by simp [h]) (by simp [h]) fun hrow => by cases hrow <;> simp_all

/-- An action has no onsets. -/
lemma notMem_onsets_action {text : String} (h : g.kind i = .action text) : t ∉ g.onsets [i] :=
  notMem_onsets_of_empty (by simp [h]) (by simp [h]) fun hrow => by cases hrow <;> simp_all

/-- A choice has the onsets of its alternatives. -/
lemma mem_onsets_choice {alternatives : List NodeId} (h : g.kind i = .choice alternatives) :
    t ∈ g.onsets [i] ↔ ∃ a ∈ alternatives, t ∈ g.onsets [a] := by
  rw [mem_onsets_of_expands (by simp [h]) (by simp [h])]
  constructor
  · rintro ⟨row, hrow, ht⟩
    cases hrow with
    | alternative h' ha =>
      rw [h] at h'
      cases h'
      exact ⟨_, ha, ht⟩
    | _ => simp_all
  · rintro ⟨a, ha, ht⟩
    exact ⟨_, .alternative h ha, ht⟩

/-- **A repetition or an option begins like its body.**

**Proof sketch.** By the kind of the construct. Its expansions are rows of copies of the body, and a row
of copies begins like one copy. -/
lemma mem_onsets_body (h : (g.kind i).loopBody? = some b) : t ∈ g.onsets [i] ↔ t ∈ g.onsets [b] := by
  have hcopies : ∀ n, t ∈ g.onsets (List.replicate n b) → t ∈ g.onsets [b] := by
    intro n ht
    cases n with
    | zero => exact absurd ht notMem_onsets_nil
    | succ n => exact (mem_onsets_replicate n).mp ht
  have hkind : ∀ {name q}, g.kind i ≠ .nonterminal name q := by
    intro name q hk
    rw [hk] at h
    cases h
  rw [mem_onsets_of_expands (fun k hk => by rw [hk] at h; cases h) fun hk => absurd hk hkind]
  constructor
  · rintro ⟨row, hrow, ht⟩
    cases hrow with
    | oneOrMore n hk =>
      rw [hk] at h
      obtain rfl := Option.some_inj.mp h
      exact hcopies _ ht
    | zeroOrMore n hk =>
      rw [hk] at h
      obtain rfl := Option.some_inj.mp h
      exact hcopies _ ht
    | absent hk => exact absurd ht notMem_onsets_nil
    | present hk =>
      rw [hk] at h
      obtain rfl := Option.some_inj.mp h
      exact ht
    | _ => simp_all [NodeKind.loopBody?]
  · intro ht
    cases hk : g.kind i with
    | oneOrMore b' =>
      rw [hk] at h
      obtain rfl := Option.some_inj.mp h
      exact ⟨_, .oneOrMore 0 hk, ht⟩
    | zeroOrMore b' =>
      rw [hk] at h
      obtain rfl := Option.some_inj.mp h
      exact ⟨_, .zeroOrMore 1 hk, ht⟩
    | zeroOrOne b' =>
      rw [hk] at h
      obtain rfl := Option.some_inj.mp h
      exact ⟨_, .present hk, ht⟩
    | _ =>
      rw [hk] at h
      cases h

/-! ## Tokens -/

/-- **The onsets of one token are the openings of one token.**

**Proof sketch.** An onset of one token is not one of hand-written code, so that it is an opening step
by step; and an opening of one token ends with its first token. -/
lemma singleton_mem_onsets {k : Nat} : [k] ∈ g.onsets row ↔ [k] ∈ g.openings row := by
  constructor
  · intro h
    change g.Onset row [k] at h
    generalize ht : [k] = t at h
    induction h with
    | token hk => exact .token hk
    | code => cases ht
    | expand hrow _ ih => exact .expand hrow (ih ht)
  · intro h
    change g.Opens row [k] at h
    generalize ht : [k] = t at h
    induction h with
    | token hk => exact .token hk
    | next _ hrest => exact absurd (List.cons.inj ht).2.symm hrest.ne_nil
    | expand hrow _ ih => exact .expand hrow (ih ht)

/-! ## Nullability -/

/-- **What derives nothing is found nullable**, if marks are complete and there is no left recursion.

**Proof sketch.** Induction on the rank by what nodes can begin with. If a row derives nothing, each of
its nodes comes after others that derive nothing. -/
lemma MarksComplete.nullableWithin (hcomplete : g.MarksComplete) {rank : Nat → Nat}
    (hle : ∀ i, rank i ≤ g.nodes.size) (hrank : ∀ i j, g.LeftCorner i j → rank j < rank i) (n : Nat) :
    ∀ {i depth}, rank i = n → n < depth → [] ∈ g.words [i] → g.nullableWithin depth i = true := by
  induction n using Nat.strong_induction_on with
  | _ n ih =>
    rintro i depth rfl hlt hnil
    obtain ⟨depth, rfl⟩ := Nat.exists_eq_succ_of_ne_zero (Nat.ne_of_gt (Nat.zero_lt_of_lt hlt))
    have hdown : ∀ {j}, g.LeftCorner i j → [] ∈ g.words [j] → g.nullableWithin depth j = true := by
      intro j hij hj
      have hless := hrank i j hij
      exact ih (rank j) hless rfl (by omega) hj
    rw [nullableWithin_succ, nullableOnce]
    cases hk : g.kind i with
    | token k =>
      rw [mem_words_token hk] at hnil
      cases hnil
    | nonterminal name p =>
      cases hbody : p.bind g.body with
      | none =>
        exact absurd hnil (notMem_words_unparsed hk hbody [])
      | some root =>
        obtain ⟨q, rfl, hroot⟩ := Option.bind_eq_some_iff.mp hbody
        rw [words_nonterminal hk hroot] at hnil
        have hless := hrank i root (.production hk hroot)
        exact hcomplete q root hroot (ih (rank root) hless rfl (Nat.lt_succ_of_le (hle root)) hnil)
    | choice alternatives =>
      obtain ⟨a, ha, hnil⟩ := (mem_words_choice hk).mp hnil
      exact List.any_eq_true.mpr ⟨a, ha, hdown (.alternative hk ha) hnil⟩
    | sequence units =>
      rw [words_sequence hk, nil_mem_words_iff] at hnil
      refine List.all_eq_true.mpr fun u hu => ?_
      obtain ⟨before, after, rfl⟩ := List.append_of_mem hu
      have hbefore : [] ∈ g.words before :=
        nil_mem_words_iff.mpr fun x hx => hnil x (List.mem_append_left _ hx)
      exact hdown (.unit hk hbefore) (hnil u hu)
    | oneOrMore b =>
      exact hdown (.body (by rw [hk]; rfl)) ((nil_mem_words_oneOrMore hk).mp hnil)
    | _ => rfl

/-- **Without left recursion nullability is found out rightly**, if marks are sound and complete. -/
lemma isNullable_iff_of_marks (hsound : g.MarksSound) (hcomplete : g.MarksComplete)
    (hleft : ∀ i, ¬ TransGen g.LeftCorner i i) (i : NodeId) :
    g.isNullable i = true ↔ [] ∈ g.words [i] := by
  obtain ⟨rank, hle, hrank⟩ := exists_corner_rank hleft
  exact ⟨hsound.nil_mem_words _,
    hcomplete.nullableWithin hle hrank (rank i) rfl (Nat.lt_succ_of_le (hle i))⟩

/-! ## Code productions -/

section

variable {ok : NodeId → Prop}

/-- **The units of a sequence**, up to the first one that matches some token.

**Proof sketch.** Induction on the units. A unit leads to code by itself, or the units behind it do if
it derives nothing; no lookahead is explicit. -/
lemma leadsToCode_iff (hexplicit : ∀ {i spec}, g.kind i = .lookahead spec → spec.explicit = false)
    {leads : NodeId → Bool} (units : List NodeId)
    (hone : ∀ us u vs, units = us ++ u :: vs → [] ∈ g.words us →
      (leads u = true ↔ [] ∈ g.onsets [u]) ∧ (g.isNullable u = true ↔ [] ∈ g.words [u])) :
    g.leadsToCode leads units = true ↔ [] ∈ g.onsets units := by
  induction units with
  | nil => simp [leadsToCode]
  | cons u us ih =>
    obtain ⟨hleads, hnullable⟩ := hone [] u us rfl .nil
    have hwritten : g.isExplicitLookahead u = false := by
      unfold isExplicitLookahead
      cases hk : g.kind u with
      | lookahead spec => exact hexplicit hk
      | _ => rfl
    rw [leadsToCode, hwritten, Bool.not_false, Bool.true_and, Bool.or_eq_true, Bool.and_eq_true, hleads,
      hnullable, mem_onsets_cons u us]
    refine or_congr_right (and_congr_right fun hnil => ih fun xs v ys hus hxs => ?_)
    apply hone (u :: xs) v ys
    · rw [hus, List.cons_append]
    · rw [words_cons]
      exact Language.append_mem_mul hnil hxs

/-- **The walk for code productions finds the empty onset.**

**Proof sketch.** Induction on the depth, which is more than the rank of the node by what it can begin
with. No production that the walk is in is met again, because its right side would begin with itself. -/
theorem codeFirstWithin_iff (hg : g.Searchable ok)
    (hexplicit : ∀ {i spec}, g.kind i = .lookahead spec → spec.explicit = false) {rank : Nat → Nat}
    (hrank : ∀ i j, g.LeftCorner i j → rank j < rank i) (depth : Nat) :
    ∀ {entered : List Nat} {i : NodeId}, ok i → g.OnWay entered [] i → rank i < depth →
      (g.codeFirstWithin depth entered i = true ↔ [] ∈ g.onsets [i]) := by
  induction depth with
  | zero => exact fun _ _ hlt => absurd hlt (Nat.not_lt_zero _)
  | succ depth ih =>
    intro entered i hi hway hlt
    have hdown : ∀ {j}, g.LeftCorner i j → rank j < depth := by
      intro j hij
      have := hrank i j hij
      omega
    have hnext : ∀ {j}, g.LeftCorner i j →
        (g.codeFirstWithin depth entered j = true ↔ [] ∈ g.onsets [j]) :=
      fun hij => ih (hg.next hi hij) (hway.next hij) (hdown hij)
    unfold codeFirstWithin
    cases hk : g.kind i with
    | token k => simp [mem_onsets_token hk]
    | nonterminal name p =>
      cases p with
      | none => simp [mem_onsets_unparsed hk rfl]
      | some p =>
        cases hroot : g.body p with
        | none => simp [mem_onsets_unparsed hk hroot, hroot]
        | some root =>
          have hcorner : g.LeftCorner i root := .production hk hroot
          have hnew : entered.contains p = false := by
            simpa using hway.production_notMem hg.noLeftRecursion hk hroot
          simp only [hroot, hnew, Bool.not_false, Bool.true_and]
          rw [mem_onsets_nonterminal hk hroot]
          exact ih (hg.next hi hcorner) (hway.enterProduction hk hroot) (hdown hcorner)
    | choice alternatives =>
      rw [mem_onsets_choice hk]
      dsimp only
      rw [List.any_eq_true]
      exact exists_congr fun a => and_congr_right fun ha => hnext (.alternative hk ha)
    | sequence units =>
      rw [mem_onsets_sequence hk]
      apply leadsToCode_iff hexplicit
      intro us u vs hus hnil
      have hcorner : g.LeftCorner i u := .unit (hk.trans (by rw [hus])) hnil
      exact ⟨hnext hcorner, hg.isNullable_iff (hg.next hi hcorner)⟩
    | oneOrMore b =>
      have hbody : (g.kind i).loopBody? = some b := by rw [hk]; rfl
      rw [mem_onsets_body hbody]
      exact hnext (.body hbody)
    | zeroOrMore b =>
      have hbody : (g.kind i).loopBody? = some b := by rw [hk]; rfl
      rw [mem_onsets_body hbody]
      exact hnext (.body hbody)
    | zeroOrOne b =>
      have hbody : (g.kind i).loopBody? = some b := by rw [hk]; rfl
      rw [mem_onsets_body hbody]
      exact hnext (.body hbody)
    | lookahead spec => simp [notMem_onsets_lookahead hk]
    | action text => simp [notMem_onsets_action hk]

/-- **Whether an expansion can begin with a code production.** -/
theorem codeProductionFirst_iff (hg : g.Searchable ok)
    (hexplicit : ∀ {i spec}, g.kind i = .lookahead spec → spec.explicit = false) (hi : ok i) :
    g.codeProductionFirst i = true ↔ [] ∈ g.onsets [i] := by
  obtain ⟨rank, hle, hrank⟩ := exists_corner_rank hg.noLeftRecursion
  exact codeFirstWithin_iff hg hexplicit hrank _ hi (onWay_nil i) (lt_firstTokenDepth (hle i))

end

end Grammar

end GrammarForge
