import GrammarForge.CharList
import GrammarForge.Proofs.MoveTable

set_option autoImplicit false

/-!
# The characters of a normalized list

A character list holds the characters that it lists, with their other-case forms if letter case
is ignored, or, negated, all others. Its normal form lists exactly these.

## Main definitions

* `Covered` — a code lies in one of several intervals.
* `CharList.Holds` — the characters that a list means.

## Main results

* `covered_joinIntervals`, `covered_gapsFrom` — joining intervals, and what they leave out.
* `CharList.lists_sort`, `CharList.lists_removeNegation`, `CharList.lists_foldCase` — the steps.
* `CharList.lists_normalize` — the normal form lists what the list holds.
-/

namespace GrammarForge

/-! ## Intervals of codes -/

/-- The code `n` lies in one of the intervals. -/
def Covered (bs : List (Nat × Nat)) (n : Nat) : Prop := ∃ b ∈ bs, b.1 ≤ n ∧ n ≤ b.2

/-- Intervals in ascending order with room between any two. -/
structure Apart (bs : List (Nat × Nat)) : Prop where
  ordered : ∀ b ∈ bs, b.1 ≤ b.2
  apart : bs.Pairwise fun b b' => b.2 + 1 < b'.1

/-- No intervals cover nothing. -/
@[simp]
lemma covered_nil (n : Nat) : ¬ Covered [] n := by simp [Covered]

/-- A character is covered by the first interval or by one of the others. -/
lemma covered_cons {b : Nat × Nat} {bs : List (Nat × Nat)} {n : Nat} :
    Covered (b :: bs) n ↔ (b.1 ≤ n ∧ n ≤ b.2) ∨ Covered bs n := by
  simp [Covered]

/-- A character is covered by one row of intervals or by the other one. -/
lemma covered_append {bs bs' : List (Nat × Nat)} {n : Nat} :
    Covered (bs ++ bs') n ↔ Covered bs n ∨ Covered bs' n := by
  simp [Covered, or_and_right, exists_or]

/-- Intervals ordered by their lower bounds, none of them empty. -/
structure Ascending (bs : List (Nat × Nat)) : Prop where
  ordered : ∀ b ∈ bs, b.1 ≤ b.2
  ascending : bs.Pairwise fun b b' => b.1 ≤ b'.1

/-- **Joining keeps the codes that are covered**, begins at `lo` and leaves room between any two
intervals. Its bounds are bounds of the given intervals.

**Proof sketch.** Induction on the list. An interval that begins at most one after the open one
ends extends it, as it begins no earlier. -/
lemma joinFrom_spec (bs : List (Nat × Nat)) : ∀ {lo hi : Nat}, lo ≤ hi → Ascending ((lo, hi) :: bs) →
    (∀ n, Covered (joinFrom lo hi bs) n ↔ Covered ((lo, hi) :: bs) n) ∧
      Apart (joinFrom lo hi bs) ∧ (∀ b ∈ joinFrom lo hi bs, lo ≤ b.1) ∧
      ∀ b ∈ joinFrom lo hi bs, b.1 ∈ ((lo, hi) :: bs).map Prod.fst ∧
        b.2 ∈ ((lo, hi) :: bs).map Prod.snd := by
  induction bs with
  | nil =>
    intro lo hi hle _
    refine ⟨fun n => Iff.rfl, ⟨by simpa [joinFrom] using hle, by simp [joinFrom]⟩, ?_, ?_⟩
    · simp [joinFrom]
    · simp [joinFrom]
  | cons b bs ih =>
    obtain ⟨lo', hi'⟩ := b
    intro lo hi hle hasc
    have hle' : lo' ≤ hi' := hasc.ordered (lo', hi') (by simp)
    have hlo : lo ≤ lo' := (List.pairwise_cons.mp hasc.ascending).1 (lo', hi') (by simp)
    have htail := (List.pairwise_cons.mp hasc.ascending).2
    rw [joinFrom]
    split_ifs with hjoin
    · have hasc' : Ascending ((lo, max hi hi') :: bs) := by
        refine ⟨?_, ?_⟩
        · intro b hb
          rcases List.mem_cons.mp hb with rfl | hb
          · exact hle.trans (le_max_left _ _)
          · exact hasc.ordered b (by simp [hb])
        · refine List.pairwise_cons.mpr ⟨fun b hb => ?_, (List.pairwise_cons.mp htail).2⟩
          exact hlo.trans ((List.pairwise_cons.mp htail).1 b hb)
      obtain ⟨hcov, hapart, hfirst, hbounds⟩ := ih (hle.trans (le_max_left hi hi')) hasc'
      refine ⟨fun n => ?_, hapart, hfirst, fun b hb => ?_⟩
      · rw [hcov, covered_cons, covered_cons, covered_cons]
        have hjoined : (lo ≤ n ∧ n ≤ max hi hi') ↔ (lo ≤ n ∧ n ≤ hi) ∨ (lo' ≤ n ∧ n ≤ hi') := by
          omega
        simp only [hjoined, or_assoc]
      · obtain ⟨h₁, h₂⟩ := hbounds b hb
        simp only [List.map_cons, List.mem_cons] at h₁ h₂ ⊢
        refine ⟨h₁.imp_right Or.inr, ?_⟩
        rcases h₂ with h₂ | h₂
        · rcases max_choice hi hi' with h | h
          · exact Or.inl (h₂.trans h)
          · exact Or.inr (Or.inl (h₂.trans h))
        · exact Or.inr (Or.inr h₂)
    · have hasc' : Ascending ((lo', hi') :: bs) :=
        ⟨fun b hb => hasc.ordered b (List.mem_cons_of_mem _ hb), htail⟩
      obtain ⟨hcov, hapart, hfirst, hbounds⟩ := ih hle' hasc'
      refine ⟨fun n => ?_, ⟨?_, ?_⟩, ?_, ?_⟩
      · rw [covered_cons, hcov, covered_cons, covered_cons, covered_cons]
      · intro b hb
        rcases List.mem_cons.mp hb with rfl | hb
        · exact hle
        · exact hapart.ordered b hb
      · refine List.pairwise_cons.mpr ⟨fun b hb => ?_, hapart.apart⟩
        have := hfirst b hb
        show hi + 1 < b.1
        omega
      · intro b hb
        rcases List.mem_cons.mp hb with rfl | hb
        · exact le_rfl
        · exact hlo.trans (hfirst b hb)
      · intro b hb
        rcases List.mem_cons.mp hb with rfl | hb
        · simp
        · obtain ⟨h₁, h₂⟩ := hbounds b hb
          exact ⟨List.mem_cons_of_mem _ h₁, List.mem_cons_of_mem _ h₂⟩

/-- Joining ascending intervals. -/
lemma joinIntervals_spec {bs : List (Nat × Nat)} (h : Ascending bs) :
    (∀ n, Covered (joinIntervals bs) n ↔ Covered bs n) ∧ Apart (joinIntervals bs) ∧
      ∀ b ∈ joinIntervals bs, b.1 ∈ bs.map Prod.fst ∧ b.2 ∈ bs.map Prod.snd := by
  cases bs with
  | nil => exact ⟨fun n => Iff.rfl, ⟨by simp [joinIntervals], by simp [joinIntervals]⟩,
      by simp [joinIntervals]⟩
  | cons b bs =>
    obtain ⟨hcov, hapart, -, hbounds⟩ := joinFrom_spec bs (h.ordered b (by simp)) h
    exact ⟨hcov, hapart, hbounds⟩

/-- The code `n` is that of a character. -/
lemma isValidChar_iff {n : Nat} :
    n.isValidChar ↔ n ≤ maxCode ∧ ¬ (surrogateFirst ≤ n ∧ n ≤ surrogateLast) := by
  simp only [Nat.isValidChar, maxCode, surrogateFirst, surrogateLast]
  omega

/-- An interval that is there under a condition. -/
lemma covered_ite {p : Prop} [Decidable p] {b : Nat × Nat} {n : Nat} :
    Covered (if p then [b] else []) n ↔ p ∧ b.1 ≤ n ∧ n ≤ b.2 := by
  split_ifs with h <;> simp [covered_cons, h]

/-- An interval without the codes that are no characters. -/
lemma splitAtSurrogates_spec {x y : Nat} (hy : y ≤ maxCode) :
    (∀ n, Covered (splitAtSurrogates x y) n ↔ (x ≤ n ∧ n ≤ y) ∧ n.isValidChar) ∧
      ∀ b ∈ splitAtSurrogates x y, b.1.isValidChar ∧ b.2.isValidChar := by
  constructor
  · intro n
    rw [splitAtSurrogates, covered_append, covered_ite, covered_ite]
    simp only [isValidChar_iff, maxCode, surrogateFirst, surrogateLast] at hy ⊢
    omega
  · intro b hb
    rw [splitAtSurrogates, List.mem_append, List.mem_ite_nil_right, List.mem_ite_nil_right,
      List.mem_singleton, List.mem_singleton] at hb
    rcases hb with ⟨hle, rfl⟩ | ⟨hle, rfl⟩ <;>
      simp only [isValidChar_iff, maxCode, surrogateFirst, surrogateLast] at hy hle ⊢ <;> omega

/-- **What intervals leave out.** The gaps from `next` on cover the characters there that no
interval covers.

**Proof sketch.** Induction on the intervals. Before the first one there is the gap from `next` to its
beginning, divided at the surrogates; the gaps behind it begin after its end. -/
lemma gapsFrom_spec (bs : List (Nat × Nat)) : ∀ {next : Nat}, Apart bs → (∀ b ∈ bs, next ≤ b.1) →
    (∀ b ∈ bs, b.2 ≤ maxCode) →
    (∀ n, Covered (gapsFrom next bs) n ↔ next ≤ n ∧ n.isValidChar ∧ ¬ Covered bs n) ∧
      ∀ b ∈ gapsFrom next bs, b.1.isValidChar ∧ b.2.isValidChar := by
  induction bs with
  | nil =>
    intro next _ _ _
    obtain ⟨hcov, hvalid⟩ := splitAtSurrogates_spec (x := next) (le_refl maxCode)
    rw [gapsFrom]
    split_ifs with hnext
    · refine ⟨fun n => ?_, hvalid⟩
      rw [hcov]
      simp only [covered_nil, not_false_eq_true, and_true, isValidChar_iff]
      tauto
    · refine ⟨fun n => ?_, by simp⟩
      simp only [covered_nil, not_false_eq_true, and_true, false_iff, isValidChar_iff]
      omega
  | cons b bs ih =>
    obtain ⟨lo, hi⟩ := b
    intro next hapart hnext hmax
    have hord : lo ≤ hi := hapart.ordered (lo, hi) (by simp)
    have hhi : hi ≤ maxCode := hmax (lo, hi) (by simp)
    obtain ⟨hroom, hrest⟩ := List.pairwise_cons.mp hapart.apart
    obtain ⟨hcov, hvalid⟩ := @ih (hi + 1)
      ⟨fun b hb => hapart.ordered b (List.mem_cons_of_mem _ hb), hrest⟩
      (fun b hb => (hroom b hb).le) (fun b hb => hmax b (List.mem_cons_of_mem _ hb))
    obtain ⟨hcov₁, hvalid₁⟩ := splitAtSurrogates_spec (x := next) (y := lo - 1) (by omega)
    have hlow : ∀ n, Covered (if next < lo then splitAtSurrogates next (lo - 1) else []) n ↔
        (next ≤ n ∧ n < lo) ∧ n.isValidChar := by
      intro n
      split_ifs with hlt
      · rw [hcov₁]
        refine and_congr_left fun _ => ?_
        omega
      · simp only [covered_nil, false_iff]
        omega
    have hlater : ∀ n, Covered bs n → hi + 1 < n := by
      rintro n ⟨b, hb, hbn, -⟩
      exact (hroom b hb).trans_le hbn
    have hnext' : next ≤ lo := hnext (lo, hi) (by simp)
    rw [gapsFrom]
    refine ⟨fun n => ?_, fun b hb => ?_⟩
    · rw [covered_append, hlow, hcov, covered_cons]
      by_cases hc : Covered bs n
      · have := hlater n hc
        simp only [hc, not_true_eq_false, and_false, or_true, or_false, iff_false]
        omega
      · simp only [hc, not_false_eq_true, and_true, or_false]
        by_cases hv : n.isValidChar
        · simp only [hv, and_true, true_and]
          omega
        · simp [hv]
    · rcases List.mem_append.mp hb with hb | hb
      · split_ifs at hb
        · exact hvalid₁ b hb
        · simp at hb
      · exact hvalid b hb

/-! ## Items -/

namespace CharItem

/-- What an item covers lies between its bounds. -/
lemma covers_iff {item : CharItem} {c : Char} :
    item.covers c ↔ item.bounds.1 ≤ c.toNat ∧ c.toNat ≤ item.bounds.2 := by
  simp [covers]

/-- The bounds of an item are codes of characters. -/
lemma bounds_valid (item : CharItem) :
    item.bounds.1.isValidChar ∧ item.bounds.2.isValidChar := by
  cases item with
  | single c => exact ⟨c.valid, c.valid⟩
  | range lo hi => exact ⟨lo.valid, hi.valid⟩

/-- A code of a character is the code of the character made from it. -/
lemma toNat_ofNat {n : Nat} (h : n.isValidChar) : (Char.ofNat n).toNat = n := by
  rw [Char.ofNat, dif_pos h]
  rfl

/-- Codes of characters are the bounds of an item. -/
lemma exists_ofBounds? {b : Nat × Nat} (h₁ : b.1.isValidChar) (h₂ : b.2.isValidChar) :
    ∃ item, ofBounds? b = some item ∧ item.bounds = b := by
  have hlo : (Char.ofNat b.1).toNat = b.1 := toNat_ofNat h₁
  have hhi : (Char.ofNat b.2).toNat = b.2 := toNat_ofNat h₂
  rw [ofBounds?, scalar?, scalar?, if_pos h₁, if_pos h₂]
  refine ⟨_, rfl, ?_⟩
  dsimp only
  split_ifs with heq
  · exact Prod.ext_iff.mpr ⟨hlo, heq ▸ hhi⟩
  · exact Prod.ext_iff.mpr ⟨hlo, hhi⟩

/-- The other-case forms of a character with any are those of a cased character. -/
lemma mem_casedChars {c d : Char} (h : d ∈ caseVariants c) : c ∈ casedChars := by
  have hstretch : ∃ s, caseStretch? c = some s := by
    cases hs : caseStretch? c with
    | none => simp [caseVariants, smallForm?, capitalForm?, hs] at h
    | some s => exact ⟨s, rfl⟩
  obtain ⟨s, hs⟩ := hstretch
  have hmem := List.mem_of_find?_eq_some hs
  have hcov := List.find?_some hs
  simp only [CaseStretch.covers, Bool.and_eq_true, decide_eq_true_eq] at hcov
  refine List.mem_map.mpr ⟨c.toNat, List.mem_flatMap.mpr ⟨s, hmem, ?_⟩, Char.ofNat_toNat c⟩
  rw [CaseStretch.codes, List.mem_range'_1]
  omega

/-- **Folding one item.** The item and its foldings cover what the item covers, and the
other-case forms of that.

**Proof sketch.** A single character is folded to its other-case forms. A range is folded letter by
letter, and a form that lies in the range again is covered anyway. -/
lemma covers_foldings {item : CharItem} {c : Char} :
    item.covers c ∨ (∃ i ∈ item.foldings, i.covers c) ↔
      item.covers c ∨ ∃ d, item.covers d ∧ c ∈ caseVariants d := by
  have hsingle : ∀ {x y : Char}, (single x).covers y ↔ y = x := by
    intro x y
    rw [covers_iff, bounds, ← Char.toNat_inj]
    omega
  cases item with
  | single x =>
    refine or_congr Iff.rfl ?_
    simp [foldings, hsingle]
  | range lo hi =>
    have hrange : ∀ y : Char, (range lo hi).covers y ↔ lo ≤ y ∧ y ≤ hi := fun y => covers_iff
    simp only [foldings, List.mem_map, List.mem_flatMap, List.mem_filter, Bool.and_eq_true,
      Bool.or_eq_true, decide_eq_true_eq, hrange]
    constructor
    · rintro (h | ⟨i, ⟨v, ⟨d, ⟨-, hd⟩, hv, -⟩, rfl⟩, hc⟩)
      · exact Or.inl h
      · obtain rfl := hsingle.mp hc
        exact Or.inr ⟨d, hd, hv⟩
    · rintro (h | ⟨d, hd, hv⟩)
      · exact Or.inl h
      · by_cases hin : lo ≤ c ∧ c ≤ hi
        · exact Or.inl hin
        · have hout : c < lo ∨ hi < c := by
            rwa [not_and_or, not_le, not_le] at hin
          exact Or.inr ⟨single c, ⟨c, ⟨d, ⟨mem_casedChars hv, hd⟩, hv, hout⟩, rfl⟩,
            hsingle.mpr rfl⟩

end CharItem

/-! ## Lists -/

namespace CharList

/-- `d` stands for `c`: it is the same character, or an other-case form if letter case is
ignored. -/
def SameLetter (ignoreCase : Bool) (c d : Char) : Prop :=
  d = c ∨ (ignoreCase ∧ d ∈ caseVariants c)

/-- **The characters that a list means.** A list as it is written holds the characters that it
lists, together with their other-case forms if letter case is ignored; a negated one holds all
others. A list that has been normalized holds what it lists. -/
def Holds (ignoreCase : Bool) (l : CharList) (c : Char) : Prop :=
  if l.normalized then (l.lists c : Prop)
  else if l.negated then ¬ ∃ d, l.lists d ∧ SameLetter ignoreCase d c
  else ∃ d, l.lists d ∧ SameLetter ignoreCase d c

variable {l : CharList} {c : Char}

/-- A list has a character if the intervals of its items cover it. -/
lemma lists_iff : l.lists c ↔ Covered (l.items.map CharItem.bounds) c.toNat := by
  simp only [lists, List.any_eq_true, CharItem.covers_iff, Covered, List.mem_map]
  constructor
  · rintro ⟨i, hi, h⟩
    exact ⟨i.bounds, ⟨i, hi, rfl⟩, h⟩
  · rintro ⟨-, ⟨i, hi, rfl⟩, h⟩
    exact ⟨i, hi, h⟩

/-- A list made from intervals has their bounds. -/
lemma bounds_withIntervals (l : CharList) {bs : List (Nat × Nat)}
    (h : ∀ b ∈ bs, b.1.isValidChar ∧ b.2.isValidChar) :
    (l.withIntervals bs).items.map CharItem.bounds = bs := by
  show (bs.filterMap CharItem.ofBounds?).map CharItem.bounds = bs
  induction bs with
  | nil => rfl
  | cons b bs ih =>
    obtain ⟨hb, hbs⟩ := List.forall_mem_cons.mp h
    obtain ⟨item, hitem, hbounds⟩ := CharItem.exists_ofBounds? hb.1 hb.2
    rw [List.filterMap_cons_some hitem, List.map_cons, hbounds, ih hbs]

/-- A list made from intervals lists what they cover. -/
lemma lists_withIntervals {bs : List (Nat × Nat)}
    (h : ∀ b ∈ bs, b.1.isValidChar ∧ b.2.isValidChar) :
    (l.withIntervals bs).lists c ↔ Covered bs c.toNat := by
  rw [lists_iff, bounds_withIntervals l h]

/-- The intervals of a list cover what it lists; they are apart, and bounded by characters.

**Proof sketch.** The intervals are sorted by their beginnings, so that joining them in this order
covers the same and leaves gaps between them; empty ones are left out before. -/
lemma intervals_spec (l : CharList) : (∀ c : Char, Covered l.intervals c.toNat ↔ l.lists c) ∧
    Apart l.intervals ∧ ∀ b ∈ l.intervals, b.1.isValidChar ∧ b.2.isValidChar := by
  set bs := sortedSet comparePairs ((l.items.map CharItem.bounds).filter fun b => b.1 ≤ b.2) with hbs
  have hmem : ∀ b, b ∈ bs ↔ b ∈ l.items.map CharItem.bounds ∧ b.1 ≤ b.2 := by
    intro b
    rw [hbs, mem_sortedSet, List.mem_filter, decide_eq_true_eq]
  have hasc : Ascending bs := by
    refine ⟨fun b hb => ((hmem b).mp hb).2, ?_⟩
    refine (pairwise_sortedSet comparePairs).imp fun {x y} hxy => ?_
    rw [comparePairs, Ordering.then_eq_lt] at hxy
    rcases hxy with h | ⟨h, -⟩
    · exact (Nat.compare_eq_lt.mp h).le
    · exact (Nat.compare_eq_eq.mp h).le
  obtain ⟨hcov, hapart, hbounds⟩ := joinIntervals_spec hasc
  refine ⟨fun c => ?_, hapart, fun b hb => ?_⟩
  · rw [intervals, ← hbs, hcov, lists_iff]
    constructor
    · rintro ⟨b, hb, h⟩
      exact ⟨b, ((hmem b).mp hb).1, h⟩
    · rintro ⟨b, hb, h⟩
      exact ⟨b, (hmem b).mpr ⟨hb, h.1.trans h.2⟩, h⟩
  · obtain ⟨h₁, h₂⟩ := hbounds b hb
    obtain ⟨x, hx, hx₁⟩ := List.mem_map.mp h₁
    obtain ⟨y, hy, hy₂⟩ := List.mem_map.mp h₂
    obtain ⟨i, -, rfl⟩ := List.mem_map.mp ((hmem x).mp hx).1
    obtain ⟨j, -, rfl⟩ := List.mem_map.mp ((hmem y).mp hy).1
    exact ⟨hx₁ ▸ i.bounds_valid.1, hy₂ ▸ j.bounds_valid.2⟩

/-- Sorting keeps what is listed. -/
lemma lists_sort : l.sort.lists c ↔ l.lists c := by
  obtain ⟨hcov, -, hvalid⟩ := l.intervals_spec
  rw [sort, lists_withIntervals hvalid, hcov]

/-- Removing a negation lists all other characters. -/
lemma lists_removeNegation (h : l.negated) : l.removeNegation.lists c ↔ ¬ l.lists c := by
  obtain ⟨hcov, hapart, hvalid⟩ := l.intervals_spec
  have hmax : ∀ b ∈ l.intervals, b.2 ≤ maxCode := fun b hb => (isValidChar_iff.mp (hvalid b hb).2).1
  obtain ⟨hgaps, hgapsValid⟩ := gapsFrom_spec l.intervals hapart (fun _ _ => Nat.zero_le _) hmax
  have hvc : c.toNat.isValidChar := c.valid
  have hlists : l.removeNegation.lists c =
      (l.withIntervals (gapsFrom 0 l.intervals)).lists c := by
    rw [removeNegation, if_pos h]
    rfl
  rw [hlists, lists_withIntervals hgapsValid, hgaps, hcov]
  simp [hvc]

/-- Folding letter case adds the other-case forms.

**Proof sketch.** An added item comes from a listed one, and what it covers is an other-case form of
what that covers. -/
lemma lists_foldCase : l.foldCase.lists c ↔ ∃ d, l.lists d ∧ SameLetter true d c := by
  simp only [foldCase, lists, List.any_append, Bool.or_eq_true, List.any_eq_true,
    List.mem_flatMap, SameLetter, true_and]
  constructor
  · rintro (⟨i, hi, hc⟩ | ⟨i', ⟨i, hi, hi'⟩, hc⟩)
    · exact ⟨c, ⟨i, hi, hc⟩, Or.inl rfl⟩
    · rcases CharItem.covers_foldings.mp (Or.inr ⟨i', hi', hc⟩) with h | ⟨d, hd, hv⟩
      · exact ⟨c, ⟨i, hi, h⟩, Or.inl rfl⟩
      · exact ⟨d, ⟨i, hi, hd⟩, Or.inr hv⟩
  · rintro ⟨d, ⟨i, hi, hd⟩, rfl | hv⟩
    · exact Or.inl ⟨i, hi, hd⟩
    · rcases CharItem.covers_foldings.mpr (Or.inr ⟨d, hd, hv⟩) with h | ⟨i', hi', h⟩
      · exact Or.inl ⟨i, hi, h⟩
      · exact Or.inr ⟨i', ⟨i, hi, hi'⟩, h⟩

/-- The normal form of a list is marked as such. -/
lemma normalized_normalize (ignoreCase : Bool) : (l.normalize ignoreCase).normalized := by
  by_cases h : l.normalized
  · rwa [normalize, if_pos h]
  · rw [normalize, if_neg h]

/-- **The normal form of a list lists exactly what the list holds.**

**Proof sketch.** A list in normal form stays as it is. Otherwise case is folded first, and then the
list is sorted or, if it is negated, complemented; neither step changes what the list means. -/
theorem lists_normalize (ignoreCase : Bool) :
    (l.normalize ignoreCase).lists c ↔ l.Holds ignoreCase c := by
  rw [normalize, Holds]
  by_cases hnorm : l.normalized
  · rw [if_pos hnorm, if_pos hnorm]
  · rw [if_neg hnorm, if_neg hnorm]
    set folded := if ignoreCase then l.foldCase else l with hfolded
    have hlists : ∀ c, folded.lists c ↔ ∃ d, l.lists d ∧ SameLetter ignoreCase d c := by
      intro c
      cases ignoreCase with
      | true => exact lists_foldCase
      | false => simp [hfolded, SameLetter]
    have hneg : folded.negated = l.negated := by
      rw [hfolded]
      split_ifs <;> rfl
    show (if folded.negated then folded.removeNegation else folded.sort).lists c ↔ _
    rw [← hneg, ← hlists]
    split_ifs with h
    · exact lists_removeNegation h
    · exact lists_sort

/-- A normal form holds what the list holds. -/
lemma holds_normalize (ignoreCase : Bool) :
    (l.normalize ignoreCase).Holds ignoreCase c ↔ l.Holds ignoreCase c := by
  rw [Holds, if_pos (normalized_normalize ignoreCase), lists_normalize]

/-- A list of one character holds what stands for it. -/
lemma holds_single {ignoreCase : Bool} {x : Char} :
    (ofItems [.single x]).Holds ignoreCase c ↔ SameLetter ignoreCase x c := by
  have hlists : ∀ d, (ofItems [.single x]).lists d ↔ d = x := by
    intro d
    simp only [ofItems, lists, List.any_cons, List.any_nil, Bool.or_false, CharItem.covers_iff,
      CharItem.bounds, ← Char.toNat_inj]
    omega
  show (∃ d, (ofItems [.single x]).lists d ∧ SameLetter ignoreCase d c) ↔ _
  simp only [hlists, exists_eq_left]

end CharList

end GrammarForge
