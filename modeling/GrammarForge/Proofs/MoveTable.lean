import Mathlib.Data.Char
import Mathlib.Tactic
import GrammarForge.Automaton.MoveTable

set_option autoImplicit false

/-!
# Move tables hold what was added to them

A table keeps ASCII characters apart from all others. What it holds is the union of its three parts, and
every way of adding to a table adds to it just what was asked for. Tables that are built by adding are in
order: their lists hold wider characters only, and ascend. On a table in order the search for a character,
by words of the bit set and by halving, finds just what the table holds.

## Main definitions

* `MoveTable.has` — whether any part of a table holds a character.
* `MoveTable.InOrder` — a table whose lists hold wider characters only, in strictly ascending order.

## Main results

* `binSearchContains_iff` — binary search finds just the elements of an ascending array.
* `MoveTable.has_addChar`, `MoveTable.has_addRange`, `MoveTable.has_union` — the characters of an
  extended table.
* `MoveTable.InOrder.addChar`, `MoveTable.InOrder.addRange`, `MoveTable.InOrder.union` — extending keeps
  tables in order.
* `MoveTable.InOrder.canMove_eq_has` — a table in order moves on just what it holds.
-/

namespace GrammarForge

/-! ## The order of pairs -/

section Pairs

variable {α : Type} [Ord α]

/-- Pairs are compared as by two keys, one after the other. -/
lemma comparePairs_eq_compareLex :
    (comparePairs : α × α → α × α → Ordering) =
      compareLex (compareOn Prod.fst) (compareOn Prod.snd) := rfl

instance [Std.TransOrd α] : Std.TransCmp (comparePairs : α × α → α × α → Ordering) := by
  rw [comparePairs_eq_compareLex]
  infer_instance

instance [Std.LawfulEqOrd α] : Std.LawfulEqCmp (comparePairs : α × α → α × α → Ordering) where
  compare_self := by simp [comparePairs]
  eq_of_compare := by
    intro p q h
    rw [comparePairs, Ordering.then_eq_eq] at h
    exact Prod.ext (Std.LawfulEqOrd.eq_of_compare h.1) (Std.LawfulEqOrd.eq_of_compare h.2)

end Pairs

/-- The order of pairs, by their components. -/
lemma comparePairs_eq_lt_iff {p q : Char × Char} :
    comparePairs p q = .lt ↔ p.1 < q.1 ∨ p.1 = q.1 ∧ p.2 < q.2 := by
  rw [comparePairs, Ordering.then_eq_lt, compare_lt_iff_lt, compare_eq_iff_eq, compare_lt_iff_lt]

/-- Inserting into a strictly ascending list leaves it strictly ascending.

**Proof sketch.** Induction on the list. The new element goes before the first one that is greater; it
lies below that one and so below all after it, and above all before it. -/
lemma pairwise_insertSorted {α : Type} (cmp : α → α → Ordering) [Std.TransCmp cmp]
    [Std.LawfulEqCmp cmp] (a : α) {bs : List α} (h : bs.Pairwise fun x y => cmp x y = .lt) :
    (insertSorted cmp a bs).Pairwise fun x y => cmp x y = .lt := by
  induction bs with
  | nil => simp [insertSorted]
  | cons b bs ih =>
    obtain ⟨hb, hbs⟩ := List.pairwise_cons.mp h
    unfold insertSorted
    cases hab : cmp a b with
    | lt =>
      refine List.pairwise_cons.mpr ⟨fun x hx => ?_, h⟩
      rcases List.mem_cons.mp hx with rfl | hx
      · exact hab
      · exact Std.TransCmp.lt_trans hab (hb x hx)
    | eq => exact h
    | gt =>
      refine List.pairwise_cons.mpr ⟨fun x hx => ?_, ih hbs⟩
      rcases (mem_insertSorted cmp).mp hx with rfl | hx
      · exact Std.OrientedCmp.gt_iff_lt.mp hab
      · exact hb x hx

/-! ## Binary search -/

section BinarySearch

variable {α : Type} [LinearOrder α] {as : Array α} {lt : α → α → Bool}

/-- In a strictly ascending array the elements are in the order of their places. -/
lemma getElem_lt_getElem_iff (has : as.toList.Pairwise (· < ·)) {i j : Nat} (hi : i < as.size)
    (hj : j < as.size) : as[i] < as[j] ↔ i < j := by
  have hlt : ∀ {i j : Nat} (hi : i < as.size) (hj : j < as.size), i < j → as[i] < as[j] :=
    fun hi hj hij => List.pairwise_iff_getElem.mp has _ _ hi hj hij
  refine ⟨fun h => ?_, hlt hi hj⟩
  by_contra hge
  rcases Nat.eq_or_lt_of_le (Nat.not_lt.mp hge) with rfl | hji
  · exact lt_irrefl _ h
  · exact lt_asymm h (hlt hj hi hji)

/-- **One stretch of a binary search.** Between two places of an ascending array it finds just what
stands there.

**Proof sketch.** Induction along the search. If the element in the middle is lower than the one
looked for, this one does not stand in the lower half, and the other way round. -/
lemma binSearchAux_iff (has : as.toList.Pairwise (· < ·)) (hlt : ∀ x y, lt x y = true ↔ x < y) (k : α)
    (lo : Fin (as.size + 1)) (hi : Fin as.size) (h : lo.1 ≤ hi.1) :
    Array.binSearchAux lt Option.isSome as k lo hi h = true ↔
      ∃ i, ∃ hsize : i < as.size, lo.1 ≤ i ∧ i ≤ hi.1 ∧ as[i] = k := by
  fun_induction Array.binSearchAux lt Option.isSome as k lo hi h with
  | case1 lo hi h m a hlow hmore _ ih =>
    -- the middle is too low: what is looked for can only stand above it
    rw [hlt] at hlow
    rw [ih]
    constructor
    · rintro ⟨i, hsize, hmi, hhi, hk⟩
      simp only at hmi
      exact ⟨i, hsize, by omega, hhi, hk⟩
    · rintro ⟨i, hsize, -, hhi, rfl⟩
      exact ⟨i, hsize, (getElem_lt_getElem_iff has _ hsize).mp hlow, hhi, rfl⟩
  | case2 lo hi h m a hlow hmore _ =>
    rw [hlt] at hlow
    refine iff_of_false (by simp) ?_
    rintro ⟨i, hsize, -, hhi, rfl⟩
    have := (getElem_lt_getElem_iff has _ hsize).mp hlow
    omega
  | case3 lo hi h m a _ hhigh hmore _ =>
    -- the middle is too high: what is looked for can only stand below it
    rw [hlt] at hhigh
    refine iff_of_false (by simp) ?_
    rintro ⟨i, hsize, hlo, -, rfl⟩
    have := (getElem_lt_getElem_iff has hsize _).mp hhigh
    omega
  | case4 lo hi h m a _ hhigh hmore _ ih =>
    rw [hlt] at hhigh
    rw [ih]
    constructor
    · rintro ⟨i, hsize, hlo, him, hk⟩
      simp only at him
      exact ⟨i, hsize, hlo, by omega, hk⟩
    · rintro ⟨i, hsize, hlo, -, rfl⟩
      have := (getElem_lt_getElem_iff has hsize _).mp hhigh
      exact ⟨i, hsize, hlo, by simp only; omega, rfl⟩
  | case5 lo hi h m a hlow hhigh _ =>
    rw [hlt] at hlow hhigh
    have hk : as[m] = k := le_antisymm (not_lt.mp hhigh) (not_lt.mp hlow)
    exact iff_of_true rfl ⟨m, by omega, by omega, by omega, hk⟩

/-- **Binary search finds just the elements** of a strictly ascending array.

**Proof sketch.** The search is one stretch that reaches from the first place to the last one, and in an
empty array there is nothing to be found. -/
lemma binSearchContains_iff (has : as.toList.Pairwise (· < ·)) (hlt : ∀ x y, lt x y = true ↔ x < y)
    (k : α) : as.binSearchContains k lt = true ↔ k ∈ as := by
  rw [Array.mem_iff_getElem, Array.binSearchContains]
  split
  · rename_i hsize
    simp only
    rw [dif_pos (by split <;> omega), binSearchAux_iff has hlt]
    constructor
    · rintro ⟨i, hi, -, -, hk⟩
      exact ⟨i, hi, hk⟩
    · rintro ⟨i, hi, hk⟩
      exact ⟨i, hi, Nat.zero_le i, by simp only; split <;> omega, hk⟩
  · rename_i hsize
    refine iff_of_false (by simp) ?_
    rintro ⟨i, hi, -⟩
    omega

end BinarySearch

namespace MoveTable

variable {t u : MoveTable} {c d lo hi : Char}

/-! ## What extending a table keeps -/

/-- The wider characters by their codes. -/
lemma firstWide_le_iff : firstWide ≤ c ↔ 128 ≤ c.toNat := by
  have hcode : firstWide.toNat = 128 := by decide
  rw [← hcode]
  rfl

/-- The part of a range beyond ASCII begins beyond ASCII. -/
lemma firstWide_le_start (lo : Char) : firstWide ≤ if lo < firstWide then firstWide else lo := by
  split_ifs with h
  · exact le_rfl
  · exact not_lt.mp h

/-- What adding ASCII characters and wider ranges keeps, adding any range keeps. -/
lemma addRange_induction (P : MoveTable → Prop)
    (hascii : ∀ (t : MoveTable) (n : Nat), P t → P (t.addAscii n))
    (hwide : ∀ (t : MoveTable) (lo hi : Char), firstWide ≤ lo → P t → P (t.addWide lo hi)) (h : P t)
    (lo hi : Char) : P (t.addRange lo hi) := by
  rw [addRange]
  by_cases hlt : hi < lo
  · rwa [if_pos hlt]
  · rw [if_neg hlt]
    have hnarrow : ∀ ns : List Nat, P (ns.foldl addAscii t) := fun ns =>
      List.foldlRecOn ns addAscii h fun t ht n _ => hascii t n ht
    exact hwide _ _ hi (firstWide_le_start lo) (hnarrow _)

/-- What adding ASCII characters, single characters and ranges keeps, a union keeps. -/
lemma union_induction (P : MoveTable → Prop)
    (hascii : ∀ (t : MoveTable) (bits : BitVec 128), P t → P { t with ascii := t.ascii ||| bits })
    (hchar : ∀ (t : MoveTable) (c : Char), P t → P (t.addChar c))
    (hrange : ∀ (t : MoveTable) (lo hi : Char), P t → P (t.addRange lo hi)) (h : P t) (u : MoveTable) :
    P (t.union u) := by
  have hchars := List.foldlRecOn u.chars addChar (hascii t u.ascii h) fun t ht c _ => hchar t c ht
  exact List.foldlRecOn u.ranges _ hchars fun t ht r _ => hrange t r.1 r.2 ht

/-! ## The characters of a table -/

/-- **The table holds `c`**: any of its parts does, in whatever order the lists are. -/
def has (t : MoveTable) (c : Char) : Bool :=
  t.ascii.getLsbD c.toNat || t.chars.contains c || t.ranges.any fun r => r.1 ≤ c && c ≤ r.2

/-- The empty table holds nothing. -/
@[simp]
lemma has_empty (c : Char) : ({} : MoveTable).has c = false := by
  simp [has]

/-- Only the table without any part is empty. -/
lemma eq_empty_of_isEmpty (h : t.isEmpty) : t = {} := by
  obtain ⟨ascii, chars, ranges⟩ := t
  simp only [isEmpty, Bool.and_eq_true, decide_eq_true_eq, List.isEmpty_iff] at h
  obtain ⟨⟨rfl, rfl⟩, rfl⟩ := h
  rfl

/-- A table that holds a character is not empty. -/
lemma isEmpty_eq_false_of_has (h : t.has c) : t.isEmpty = false := by
  by_contra hne
  rw [eq_empty_of_isEmpty (eq_true_of_ne_false hne), has_empty] at h
  exact Bool.false_ne_true h

/-- Adding an ASCII character by its code. -/
lemma has_addAscii {n : Nat} (hn : n < 128) :
    (t.addAscii n).has d = (t.has d || decide (d.toNat = n)) := by
  have hbit : (t.addAscii n).ascii.getLsbD d.toNat =
      (t.ascii.getLsbD d.toNat || decide (d.toNat = n)) := by
    simp [addAscii, hn, eq_comm]
  rw [has, has, hbit, addAscii]
  simp only [Bool.or_assoc, Bool.or_comm (decide (d.toNat = n))]

/-- **Adding a character** adds just that one.

**Proof sketch.** An ASCII character is added as a bit; any other one is inserted into the list of
single characters, which adds just one element. -/
lemma has_addChar : (t.addChar c).has d = (t.has d || decide (d = c)) := by
  rw [addChar]
  split_ifs with hc
  · rw [has_addAscii hc]
    simp only [Char.toNat_inj]
  · have hmem : (insertSorted compare c t.chars).contains d =
        (t.chars.contains d || decide (d = c)) := by
      rw [Bool.eq_iff_iff]
      simp only [List.contains_iff_mem, mem_insertSorted, Bool.or_eq_true, decide_eq_true_eq]
      exact or_comm
    rw [has, has, hmem]
    simp only [Bool.or_assoc, Bool.or_comm (decide (d = c))]

/-- Adding one character after the other. -/
lemma has_foldl_addChar (cs : List Char) :
    (cs.foldl addChar t).has d = (t.has d || decide (d ∈ cs)) := by
  induction cs generalizing t with
  | nil => simp
  | cons c cs ih => rw [List.foldl_cons, ih, has_addChar]; simp [Bool.or_assoc]

/-- Adding one ASCII character after the other. -/
lemma has_foldl_addAscii (ns : List Nat) (hns : ∀ n ∈ ns, n < 128) :
    (ns.foldl addAscii t).has d = (t.has d || decide (d.toNat ∈ ns)) := by
  induction ns generalizing t with
  | nil => simp
  | cons n ns ih =>
    rw [List.foldl_cons, ih fun m hm => hns m (List.mem_cons_of_mem n hm),
      has_addAscii (hns n List.mem_cons_self)]
    simp [Bool.or_assoc]

/-- Adding a range beyond ASCII. An inverted one adds nothing, and one of a single character is added as
that character.

**Proof sketch.** By the three ways of adding such a range: nothing lies between inverted bounds, only
the bound itself between equal ones, and otherwise one pair is inserted into the list of ranges. -/
lemma has_addWide :
    (t.addWide lo hi).has d = (t.has d || (decide (lo ≤ d) && decide (d ≤ hi))) := by
  rw [addWide]
  split_ifs with h₁ h₂
  · have : ¬ (lo ≤ d ∧ d ≤ hi) := fun h => absurd (h.1.trans h.2) (not_le.mpr h₁)
    rw [← Bool.decide_and, decide_eq_false this, Bool.or_false]
  · subst h₂
    rw [has_addChar, ← Bool.decide_and]
    congr 2
    exact propext ⟨fun h => h ▸ ⟨le_rfl, le_rfl⟩, fun h => le_antisymm h.2 h.1⟩
  · have hany : ((insertSorted comparePairs (lo, hi) t.ranges).any
          fun r => decide (r.1 ≤ d) && decide (d ≤ r.2)) =
        ((t.ranges.any fun r => decide (r.1 ≤ d) && decide (d ≤ r.2)) ||
          (decide (lo ≤ d) && decide (d ≤ hi))) := by
      rw [Bool.eq_iff_iff, List.any_eq_true, Bool.or_eq_true, List.any_eq_true]
      simp only [mem_insertSorted]
      constructor
      · rintro ⟨r, rfl | hr, h⟩
        · exact Or.inr h
        · exact Or.inl ⟨r, hr, h⟩
      · rintro (⟨r, hr, h⟩ | h)
        · exact ⟨r, Or.inr hr, h⟩
        · exact ⟨(lo, hi), Or.inl rfl, h⟩
    rw [has, has, hany, ← Bool.or_assoc]

/-- **Adding a range** adds the characters between its bounds.

**Proof sketch.** The ASCII characters of the range are those with codes from that of `lo` up to 127, and
the others lie between `hi` and the greater of `lo` and the first wider character; together they are all
that lies between the bounds. -/
lemma has_addRange :
    (t.addRange lo hi).has d = (t.has d || (decide (lo ≤ d) && decide (d ≤ hi))) := by
  rw [addRange]
  by_cases h : hi < lo
  · have : ¬ (lo ≤ d ∧ d ≤ hi) := fun h' => absurd (h'.1.trans h'.2) (not_le.mpr h)
    rw [if_pos h, ← Bool.decide_and, decide_eq_false this, Bool.or_false]
  · have hnarrow : ∀ n ∈ List.range' lo.toNat (min (hi.toNat + 1) 128 - lo.toNat), n < 128 := by
      intro n hn
      rw [List.mem_range'_1] at hn
      omega
    simp only [if_neg h]
    rw [has_addWide, has_foldl_addAscii _ hnarrow, Bool.or_assoc]
    congr 1
    -- the ASCII part and the wide part make up the range
    have h₁ : lo ≤ d ↔ lo.toNat ≤ d.toNat := Iff.rfl
    have h₂ : d ≤ hi ↔ d.toNat ≤ hi.toNat := Iff.rfl
    have hsplit : d.toNat ∈ List.range' lo.toNat (min (hi.toNat + 1) 128 - lo.toNat) ↔
        d.toNat < 128 ∧ lo ≤ d ∧ d ≤ hi := by
      rw [List.mem_range'_1, h₁, h₂]
      omega
    have hwide : (if lo < firstWide then firstWide else lo) ≤ d ↔ 128 ≤ d.toNat ∧ lo ≤ d := by
      rw [← firstWide_le_iff]
      split_ifs with hlt
      · exact ⟨fun hd => ⟨hd, hlt.le.trans hd⟩, And.left⟩
      · exact ⟨fun hd => ⟨(not_lt.mp hlt).trans hd, hd⟩, And.right⟩
    rw [Bool.eq_iff_iff]
    simp only [Bool.or_eq_true, Bool.and_eq_true, decide_eq_true_eq, hsplit, hwide]
    constructor
    · rintro (⟨-, h⟩ | ⟨⟨-, h⟩, h'⟩)
      · exact h
      · exact ⟨h, h'⟩
    · rintro ⟨h, h'⟩
      rcases Nat.lt_or_ge d.toNat 128 with hd | hd
      · exact Or.inl ⟨hd, h, h'⟩
      · exact Or.inr ⟨⟨hd, h⟩, h'⟩

/-- Adding one range after the other. -/
lemma has_foldl_addRange (rs : List (Char × Char)) :
    (rs.foldl (fun t r => t.addRange r.1 r.2) t).has d =
      (t.has d || rs.any fun r => decide (r.1 ≤ d) && decide (d ≤ r.2)) := by
  induction rs generalizing t with
  | nil => simp
  | cons r rs ih => rw [List.foldl_cons, ih, has_addRange, List.any_cons, Bool.or_assoc]

/-- **The union of two tables** holds the characters of both. -/
lemma has_union : (t.union u).has d = (t.has d || u.has d) := by
  have hascii : ({ t with ascii := t.ascii ||| u.ascii } : MoveTable).has d =
      (t.has d || u.ascii.getLsbD d.toNat) := by
    rw [has, has, BitVec.getLsbD_or]
    simp only [Bool.or_assoc, Bool.or_comm (u.ascii.getLsbD d.toNat)]
  have hu : u.has d = (u.ascii.getLsbD d.toNat || decide (d ∈ u.chars) ||
      u.ranges.any fun r => decide (r.1 ≤ d) && decide (d ≤ r.2)) := by
    rw [has, List.contains_eq_mem]
  rw [union, has_foldl_addRange, has_foldl_addChar, hascii, hu, Bool.or_assoc, Bool.or_assoc,
    Bool.or_assoc]

/-! ## Tables in order -/

/-- **A table in order.** Its lists hold nothing but characters beyond ASCII; they are strictly
ascending, ranges by their first and then by their last characters; and ranges have more than one
character. -/
structure InOrder (t : MoveTable) : Prop where
  wide_chars : ∀ c ∈ t.chars, firstWide ≤ c
  chars : t.chars.Pairwise (· < ·)
  wide_ranges : ∀ r ∈ t.ranges, firstWide ≤ r.1 ∧ r.1 < r.2
  ranges : t.ranges.Pairwise fun p q => p.1 < q.1 ∨ p.1 = q.1 ∧ p.2 < q.2

/-- The order of a table as checks of its lists. Those of single elements go through the lists, and not
through all characters. -/
lemma inOrder_iff : t.InOrder ↔ (t.chars.all fun c => firstWide ≤ c) ∧ t.chars.Pairwise (· < ·) ∧
    (t.ranges.all fun r => firstWide ≤ r.1 ∧ r.1 < r.2) ∧
      t.ranges.Pairwise fun p q => p.1 < q.1 ∨ p.1 = q.1 ∧ p.2 < q.2 := by
  simp only [List.all_eq_true, decide_eq_true_eq]
  exact ⟨fun h => ⟨h.wide_chars, h.chars, h.wide_ranges, h.ranges⟩,
    fun ⟨h₁, h₂, h₃, h₄⟩ => ⟨h₁, h₂, h₃, h₄⟩⟩

instance (t : MoveTable) : Decidable t.InOrder := decidable_of_iff _ inOrder_iff.symm

namespace InOrder

/-- The empty table is in order. -/
lemma empty : ({} : MoveTable).InOrder where
  wide_chars := by simp
  chars := List.Pairwise.nil
  wide_ranges := by simp
  ranges := List.Pairwise.nil

/-- Only the lists have an order. -/
lemma of_eq (h : t.InOrder) (hchars : u.chars = t.chars) (hranges : u.ranges = t.ranges) :
    u.InOrder where
  wide_chars := hchars ▸ h.wide_chars
  chars := hchars ▸ h.chars
  wide_ranges := hranges ▸ h.wide_ranges
  ranges := hranges ▸ h.ranges

/-- Adding a character keeps a table in order. -/
lemma addChar (h : t.InOrder) (c : Char) : (t.addChar c).InOrder := by
  unfold MoveTable.addChar
  split_ifs with hc
  · exact h.of_eq rfl rfl
  · refine ⟨fun d hd => ?_, ?_, h.wide_ranges, h.ranges⟩
    · rcases (mem_insertSorted compare).mp hd with rfl | hd
      · exact firstWide_le_iff.mpr (not_lt.mp hc)
      · exact h.wide_chars d hd
    · have hchars := h.chars
      simp only [← compare_lt_iff_lt] at hchars ⊢
      exact pairwise_insertSorted compare c hchars

/-- Adding characters keeps a table in order. -/
lemma foldl_addChar (h : t.InOrder) (cs : List Char) : (cs.foldl MoveTable.addChar t).InOrder :=
  List.foldlRecOn cs MoveTable.addChar h fun _ ht c _ => ht.addChar c

/-- Adding a range beyond ASCII keeps a table in order.

**Proof sketch.** The only new pair is the one inserted; it lies beyond ASCII, and its bounds are
neither inverted nor equal. -/
lemma addWide (h : t.InOrder) (hlo : firstWide ≤ lo) : (t.addWide lo hi).InOrder := by
  unfold MoveTable.addWide
  split_ifs with hinverted hsingle
  · exact h
  · exact h.addChar lo
  · refine ⟨h.wide_chars, h.chars, fun r hr => ?_, ?_⟩
    · rcases (mem_insertSorted comparePairs).mp hr with rfl | hr
      · exact ⟨hlo, lt_of_le_of_ne (not_lt.mp hinverted) hsingle⟩
      · exact h.wide_ranges r hr
    · have hranges := h.ranges
      simp only [← comparePairs_eq_lt_iff] at hranges ⊢
      exact pairwise_insertSorted comparePairs (lo, hi) hranges

/-- Adding a range keeps a table in order. -/
lemma addRange (h : t.InOrder) (lo hi : Char) : (t.addRange lo hi).InOrder :=
  addRange_induction InOrder (fun _ _ ht => ht.of_eq rfl rfl) (fun _ _ _ hlo ht => ht.addWide hlo) h
    lo hi

/-- **A union is in order** if the first table is: whatever the second one holds is added to it. -/
lemma union (h : t.InOrder) (u : MoveTable) : (t.union u).InOrder :=
  union_induction InOrder (fun _ _ ht => ht.of_eq rfl rfl) (fun _ c ht => ht.addChar c)
    (fun _ lo hi ht => ht.addRange lo hi) h u

end InOrder

/-! ## Asking a table -/

/-- A bit of a word is one of the bit set.

**Proof sketch.** Shifting by six and masking with 63 are the quotient and the remainder by 64, which
put a code together again; and a word masked with one bit is zero just if the word lacks it. -/
lemma word_bit (t : MoveTable) (n : Nat) :
    decide (t.word (n >>> 6) &&& BitVec.twoPow 64 (n &&& 63) ≠ 0#64) = t.ascii.getLsbD n := by
  have hword : n >>> 6 = n / 64 := Nat.shiftRight_eq_div_pow n 6
  have hbit : n &&& 63 = n % 64 := Nat.and_two_pow_sub_one_eq_mod n 6
  have hlt : n % 64 < 64 := Nat.mod_lt n (by decide)
  have hplace : 64 * (n / 64) + n % 64 = n := Nat.div_add_mod n 64
  have hmask : BitVec.twoPow 64 (n % 64) ≠ 0#64 := by
    intro hzero
    have := congrArg (·.getLsbD (n % 64)) hzero
    simp [hlt] at this
  rw [hword, hbit, BitVec.and_twoPow, word, BitVec.getLsbD_extractLsb', hplace, decide_eq_true hlt,
    Bool.true_and]
  cases t.ascii.getLsbD n
  · simp
  · simpa using hmask

/-- **A table in order moves on just what it holds.**

**Proof sketch.** The lists hold no ASCII character, so that asking the bit set is enough for these; and
the bit set holds nothing else. The single characters ascend, so that binary search finds all of them. -/
lemma InOrder.canMove_eq_has (h : t.InOrder) (c : Char) : t.canMove c = t.has c := by
  rw [canMove, has]
  split_ifs with hc
  · have hnarrow : ¬ firstWide ≤ c := by rw [firstWide_le_iff]; omega
    have hchars : t.chars.contains c = false := by
      rw [List.contains_eq_mem]
      exact decide_eq_false fun hmem => hnarrow (h.wide_chars c hmem)
    have hranges : (t.ranges.any fun r => decide (r.1 ≤ c) && decide (c ≤ r.2)) = false := by
      refine List.any_eq_false.mpr fun r hr hin => hnarrow ?_
      rw [Bool.and_eq_true, decide_eq_true_eq] at hin
      exact (h.wide_ranges r hr).1.trans hin.1
    rw [hchars, hranges, Bool.or_false, Bool.or_false]
    exact t.word_bit c.toNat
  · have hsearch : t.chars.toArray.binSearchContains c (· < ·) = t.chars.contains c := by
      rw [Bool.eq_iff_iff, List.contains_iff_mem, ← List.mem_toArray]
      exact binSearchContains_iff h.chars (fun x y => decide_eq_true_iff) c
    rw [hsearch, BitVec.getLsbD_of_ge _ _ (not_lt.mp hc), Bool.false_or]

/-- The empty table moves on nothing. -/
@[simp]
lemma canMove_empty (c : Char) : ({} : MoveTable).canMove c = false := by
  rw [InOrder.empty.canMove_eq_has, has_empty]

/-- A table that moves on a character is not empty. -/
lemma isEmpty_eq_false_of_canMove (h : t.canMove c) : t.isEmpty = false := by
  by_contra hne
  rw [eq_empty_of_isEmpty (eq_true_of_ne_false hne), canMove_empty] at h
  exact Bool.false_ne_true h

end MoveTable

end GrammarForge
