import GrammarForge.Proofs.CharSets

set_option autoImplicit false

/-!
# The shape of a normalized list

A character list is normalized by way of intervals of codes: those of its items, joined, or, if the list
is negated, the gaps between them without the codes that are no characters. Every bound of these intervals
is a character, so that each interval becomes an item. The normal form is no longer negated, and its items
stand in order with room between any two.

## Main definitions

* `CharList.plainIntervals` — the intervals that the normal form is made of.
* `CharList.Tidy` — the shape of a normal form.

## Main results

* `apart_gapsFrom` — the gaps between intervals have room between any two.
* `CharList.normalize_exact` — the normal form is tidy, lists what the list holds, and has an item for
  each interval.
-/

namespace GrammarForge

/-! ## Intervals with room between them -/

/-- No intervals are apart. -/
lemma apart_nil : Apart [] := ⟨by simp, List.Pairwise.nil⟩

/-- A single interval is apart. -/
lemma apart_singleton {b : Nat × Nat} (h : b.1 ≤ b.2) : Apart [b] :=
  ⟨by simpa using h, List.pairwise_singleton _ b⟩

/-- Intervals with room between them, followed by others that leave room. -/
lemma Apart.append {bs bs' : List (Nat × Nat)} (h : Apart bs) (h' : Apart bs')
    (hroom : ∀ b ∈ bs, ∀ b' ∈ bs', b.2 + 1 < b'.1) : Apart (bs ++ bs') := by
  constructor
  · intro b hb
    rcases List.mem_append.mp hb with hb | hb
    · exact h.ordered b hb
    · exact h'.ordered b hb
  · exact List.pairwise_append.mpr ⟨h.apart, h'.apart, hroom⟩

/-- An interval that is there under a condition, if it is in order then. -/
lemma apart_ite {p : Prop} [Decidable p] {b : Nat × Nat} (h : p → b.1 ≤ b.2) :
    Apart (if p then [b] else []) := by
  split_ifs with hp
  · exact apart_singleton (h hp)
  · exact apart_nil

/-- The parts of an interval lie within it. -/
lemma mem_splitAtSurrogates {x y : Nat} {b : Nat × Nat} (hb : b ∈ splitAtSurrogates x y) :
    x ≤ b.1 ∧ b.2 ≤ y := by
  rw [splitAtSurrogates, List.mem_append, List.mem_ite_nil_right, List.mem_ite_nil_right,
    List.mem_singleton, List.mem_singleton] at hb
  rcases hb with ⟨-, rfl⟩ | ⟨-, rfl⟩
  · exact ⟨le_rfl, min_le_left _ _⟩
  · exact ⟨le_max_left _ _, le_rfl⟩

/-- The codes that are no characters leave room between the two parts of an interval. -/
lemma apart_splitAtSurrogates (x y : Nat) : Apart (splitAtSurrogates x y) := by
  unfold splitAtSurrogates
  apply Apart.append
  · exact apart_ite id
  · exact apart_ite id
  intro b hb b' hb'
  rw [List.mem_ite_nil_right, List.mem_singleton] at hb hb'
  obtain ⟨-, rfl⟩ := hb
  obtain ⟨-, rfl⟩ := hb'
  simp only [surrogateFirst, surrogateLast]
  omega

/-- **Gaps have room between them**: between two gaps lies one of the intervals that leave them.

**Proof sketch.** Induction on the intervals. The gaps before an interval end below it, and those behind
it begin above it, so that the interval lies between. -/
lemma apart_gapsFrom (bs : List (Nat × Nat)) : ∀ {next : Nat}, Apart bs → (∀ b ∈ bs, next ≤ b.1) →
    Apart (gapsFrom next bs) ∧ ∀ b ∈ gapsFrom next bs, next ≤ b.1 := by
  induction bs with
  | nil =>
    intro next _ _
    rw [gapsFrom]
    split_ifs
    · exact ⟨apart_splitAtSurrogates _ _, fun b hb => (mem_splitAtSurrogates hb).1⟩
    · exact ⟨apart_nil, by simp⟩
  | cons b bs ih =>
    obtain ⟨lo, hi⟩ := b
    intro next hapart hnext
    have hord : lo ≤ hi := hapart.ordered (lo, hi) List.mem_cons_self
    have hfrom : next ≤ lo := hnext (lo, hi) List.mem_cons_self
    obtain ⟨hroom, hrest⟩ := List.pairwise_cons.mp hapart.apart
    obtain ⟨hlater, hbegin⟩ := @ih (hi + 1)
      ⟨fun b hb => hapart.ordered b (List.mem_cons_of_mem _ hb), hrest⟩ fun b hb => (hroom b hb).le
    rw [gapsFrom]
    split_ifs with hlt
    · refine ⟨(apart_splitAtSurrogates next (lo - 1)).append hlater fun b hb b' hb' => ?_, ?_⟩
      · have hend := (mem_splitAtSurrogates hb).2
        have hstart := hbegin b' hb'
        omega
      · intro b hb
        rcases List.mem_append.mp hb with hb | hb
        · exact (mem_splitAtSurrogates hb).1
        · have := hbegin b hb
          omega
    · refine ⟨hlater, fun b hb => ?_⟩
      have := hbegin b hb
      omega

/-! ## Items -/

namespace CharItem

/-- The character of a code has this code. -/
lemma toNat_of_scalar? {n : Nat} {c : Char} (h : scalar? n = some c) : c.toNat = n := by
  unfold scalar? at h
  split_ifs at h with hvalid
  rw [← Option.some.inj h, toNat_ofNat hvalid]

/-- Bounds in order make a range of two characters or more, or a single one. -/
lemma lt_of_ofBounds? {b : Nat × Nat} {lo hi : Char} (hb : b.1 ≤ b.2)
    (h : ofBounds? b = some (range lo hi)) : lo < hi := by
  rw [ofBounds?, Option.bind_eq_some_iff] at h
  obtain ⟨lo', hlo, h⟩ := h
  obtain ⟨hi', hhi, h⟩ := Option.map_eq_some_iff.mp h
  split_ifs at h with hne
  obtain ⟨rfl, rfl⟩ := range.inj h
  have hle : lo'.toNat ≤ hi'.toNat := by
    rwa [toNat_of_scalar? hlo, toNat_of_scalar? hhi]
  exact lt_of_le_of_ne hle hne

end CharItem

/-! ## The normal form -/

namespace CharList

variable {l : CharList}

/-- **The shape of a normal form**: a list that is not negated, whose ranges have more than one character
and whose items stand in order, with a code between any two that belongs to neither. -/
structure Tidy (l : CharList) : Prop where
  normalized : l.normalized = true
  plain : l.negated = false
  wide : ∀ lo hi, .range lo hi ∈ l.items → lo < hi
  ascending : l.items.Pairwise fun i j => i.bounds.1 < j.bounds.1
  apart : l.items.Pairwise fun i j => i.bounds.2 + 2 ≤ j.bounds.1

/-- A list with its other-case forms, if letter case is ignored. -/
def withCases (ignoreCase : Bool) (l : CharList) : CharList :=
  if ignoreCase then l.foldCase else l

/-- Folding does not change whether a list is negated. -/
@[simp]
lemma negated_withCases (ignoreCase : Bool) (l : CharList) :
    (l.withCases ignoreCase).negated = l.negated := by
  unfold withCases
  split_ifs <;> rfl

/-- **The intervals of a normal form**: those of the list with its other-case forms, or, if the list is
negated, the gaps between them. -/
def plainIntervals (ignoreCase : Bool) (l : CharList) : List (Nat × Nat) :=
  if l.negated then gapsFrom 0 (l.withCases ignoreCase).intervals
  else (l.withCases ignoreCase).intervals

/-- The normal form has the items made from its intervals. -/
lemma normalize_eq {ignoreCase : Bool} (hnew : l.normalized = false) :
    l.normalize ignoreCase =
      ⟨(l.plainIntervals ignoreCase).filterMap CharItem.ofBounds?, false, true⟩ := by
  have hneg := negated_withCases ignoreCase l
  rw [normalize, if_neg (by simp [hnew]), plainIntervals, ← withCases]
  dsimp only
  by_cases h : l.negated
  · rw [if_pos h, if_pos (hneg.trans h), removeNegation, if_pos (hneg.trans h)]
    rfl
  · have hplain : ¬ (l.withCases ignoreCase).negated := by rwa [hneg]
    rw [if_neg h, if_neg hplain, sort, withIntervals, Bool.eq_false_of_not_eq_true hplain]

/-- The intervals of a normal form have room between them, and characters as bounds. -/
lemma plainIntervals_spec (ignoreCase : Bool) (l : CharList) : Apart (l.plainIntervals ignoreCase) ∧
    ∀ b ∈ l.plainIntervals ignoreCase, b.1.isValidChar ∧ b.2.isValidChar := by
  obtain ⟨-, hapart, hvalid⟩ := (l.withCases ignoreCase).intervals_spec
  unfold plainIntervals
  split_ifs with hneg
  · have hmax : ∀ b ∈ (l.withCases ignoreCase).intervals, b.2 ≤ maxCode :=
      fun b hb => (isValidChar_iff.mp (hvalid b hb).2).1
    exact ⟨(apart_gapsFrom _ hapart fun _ _ => Nat.zero_le _).1,
      (gapsFrom_spec _ hapart (fun _ _ => Nat.zero_le _) hmax).2⟩
  · exact ⟨hapart, hvalid⟩

/-- A list whose items have bounds with room between them has them in order. -/
lemma pairwise_items (h : Apart (l.items.map CharItem.bounds)) :
    (l.items.Pairwise fun i j => i.bounds.1 < j.bounds.1) ∧
      l.items.Pairwise fun i j => i.bounds.2 + 2 ≤ j.bounds.1 := by
  have hapart : l.items.Pairwise fun i j => i.bounds.2 + 1 < j.bounds.1 := List.pairwise_map.mp h.apart
  refine ⟨?_, hapart⟩
  refine hapart.imp_of_mem fun {i j} hi _ hij => ?_
  have := h.ordered _ (List.mem_map_of_mem hi)
  omega

/-- **Normalizing is exact.** The normal form of a list that has none yet is tidy; it lists the characters
that the list holds; and none of the intervals that it is made of is lost.

**Proof sketch.** The items of the normal form have the plain intervals as their bounds, which are apart
and end at characters; what they cover is known from the exactness of the normal form. -/
theorem normalize_exact (ignoreCase : Bool) (l : CharList) (hnew : l.normalized = false) :
    (l.normalize ignoreCase).Tidy ∧
      (∀ c, (l.normalize ignoreCase).lists c ↔
        if l.negated then ¬ ∃ d, l.lists d ∧ SameLetter ignoreCase d c
        else ∃ d, l.lists d ∧ SameLetter ignoreCase d c) ∧
      (l.normalize ignoreCase).items.map CharItem.bounds = l.plainIntervals ignoreCase := by
  obtain ⟨hapart, hvalid⟩ := l.plainIntervals_spec ignoreCase
  have hbounds : (l.normalize ignoreCase).items.map CharItem.bounds = l.plainIntervals ignoreCase := by
    rw [normalize_eq hnew]
    exact l.bounds_withIntervals hvalid
  obtain ⟨hascending, hroom⟩ := pairwise_items (hbounds ▸ hapart)
  refine ⟨⟨normalized_normalize ignoreCase, ?_, ?_, hascending, hroom⟩, fun c => ?_, hbounds⟩
  · rw [normalize_eq hnew]
  · intro lo hi hrange
    rw [normalize_eq hnew] at hrange
    obtain ⟨b, hb, hmade⟩ := List.mem_filterMap.mp hrange
    exact CharItem.lt_of_ofBounds? (hapart.ordered b hb) hmade
  · rw [lists_normalize, Holds, if_neg (by simp [hnew])]

/-- All characters but some: the items overlap, touch, are the wrong way round, or reach over the codes
that are no characters. -/
def scattered : CharList :=
  ofItems [.range 'n' 'z', .single 'm', .range 'k' 'p', .range 'z' 'a', .single 'K',
    .range (Char.ofNat 0xD000) (Char.ofNat 0xE000)] true

/-- A scattered list with an inverted range, complemented: folded letters are left out as well, and so
is the gap of the surrogates. -/
theorem normalize_exact_scattered :
    scattered.normalized = false ∧ (scattered.normalize true).Tidy ∧
      (scattered.normalize true).items.map CharItem.bounds =
        [(0, 0x4A), (0x5B, 0x6A), (0x7B, 0xCFFF), (0xE001, maxCode)] := by
  obtain ⟨htidy, -, hbounds⟩ := normalize_exact true scattered rfl
  refine ⟨rfl, htidy, hbounds.trans ?_⟩
  decide +kernel

end CharList

end GrammarForge
