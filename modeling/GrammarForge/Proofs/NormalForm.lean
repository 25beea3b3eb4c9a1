import GrammarForge.Proofs.RegexLanguage
import Mathlib.Data.List.Perm.Basic
import Mathlib.Data.List.Nodup

set_option autoImplicit false

/-!
# Normal forms are reached once

What is left of an expression after it has been used is in normal form, and using it once more
leaves it as it is, whether letter case is ignored then or not. An automaton is built from the same
expression the second time.

## Main definitions

* `Regex.Normal` — expressions that are left alone.

## Main results

* `CharList.sort_sort` — sorted lists are left alone.
* `Regex.normal_normalize`, `Regex.Normal.normalize_eq` — the normal form is reached, and kept.
* `Regex.normalize_normalize_true` — the second time, the automaton is built from the same
  expression.
-/

namespace GrammarForge

/-! ## Sorted lists -/

/-- Joining intervals that are apart changes nothing. -/
lemma joinFrom_of_apart (bs : List (Nat × Nat)) : ∀ {lo hi : Nat}, Apart ((lo, hi) :: bs) →
    joinFrom lo hi bs = (lo, hi) :: bs := by
  induction bs with
  | nil => exact fun _ => rfl
  | cons b bs ih =>
    obtain ⟨lo', hi'⟩ := b
    intro lo hi h
    obtain ⟨hroom, hrest⟩ := List.pairwise_cons.mp h.apart
    have hgap : hi + 1 < lo' := hroom (lo', hi') (by simp)
    have hapart : Apart ((lo', hi') :: bs) :=
      ⟨fun b hb => h.ordered b (List.mem_cons_of_mem _ hb), hrest⟩
    rw [joinFrom, if_neg (by omega), ih hapart]

/-- Intervals that are apart are not joined. -/
lemma joinIntervals_of_apart {bs : List (Nat × Nat)} (h : Apart bs) : joinIntervals bs = bs := by
  cases bs with
  | nil => rfl
  | cons b bs => exact joinFrom_of_apart bs h

/-- Sorting intervals that are apart changes nothing.

**Proof sketch.** The sorted set has the same members, each of them once, so that it is a permutation;
both lists are strictly ascending, so that it is the same list. -/
lemma sortedSet_of_apart {bs : List (Nat × Nat)} (h : Apart bs) :
    sortedSet comparePairs bs = bs := by
  have hbelow : bs.Pairwise fun b b' => comparePairs b b' = .lt := by
    refine h.apart.imp_of_mem fun {b b'} hb _ hroom => ?_
    have hle := h.ordered b hb
    rw [comparePairs, Nat.compare_eq_lt.mpr (by omega)]
    rfl
  have hne : ∀ {b b' : Nat × Nat}, comparePairs b b' = .lt → b ≠ b' := by
    intro b b' hlt heq
    simp [heq, comparePairs] at hlt
  have hperm : (sortedSet comparePairs bs).Perm bs := by
    refine (List.perm_ext_iff_of_nodup ?_ (hbelow.imp hne)).mpr fun b => mem_sortedSet _
    exact (pairwise_sortedSet comparePairs).imp hne
  have hasymm : ∀ b b' : Nat × Nat, comparePairs b b' = .lt → comparePairs b' b ≠ .lt :=
    fun b b' h => Std.OrientedCmp.not_lt_of_lt h
  exact hperm.eq_of_pairwise (fun b b' _ _ h₁ h₂ => absurd h₂ (hasymm b b' h₁))
    (pairwise_sortedSet _) hbelow

namespace CharList

/-- **A sorted list is left alone**; it does not matter whether it is marked as normalized. -/
lemma sort_sort (l : CharList) (mark : Bool) :
    ({ l.sort with normalized := mark } : CharList).sort = { l.sort with normalized := mark } := by
  obtain ⟨-, hapart, hvalid⟩ := l.intervals_spec
  have hintervals : ({ l.sort with normalized := mark } : CharList).intervals = l.intervals := by
    have hordered : l.intervals.filter (fun b => b.1 ≤ b.2) = l.intervals := by
      rw [List.filter_eq_self]
      exact fun b hb => decide_eq_true (hapart.ordered b hb)
    have hbounds : l.sort.items.map CharItem.bounds = l.intervals := bounds_withIntervals l hvalid
    rw [intervals, hbounds, hordered, sortedSet_of_apart hapart, joinIntervals_of_apart hapart]
  rw [sort, hintervals]
  rfl

/-- A list in normal form is not changed. -/
lemma normalize_of_normalized {l : CharList} (h : l.normalized) (ignoreCase : Bool) :
    l.normalize ignoreCase = l := by
  rw [normalize, if_pos h]

end CharList

namespace Regex

/-! ## Merged alternatives -/

/-- The normal form of a list of expressions is taken of each one. -/
lemma normalizeAll_eq_map (ignoreCase copies : Bool) (rs : List Regex) :
    normalizeAll ignoreCase copies rs = rs.map (normalize ignoreCase copies) := by
  induction rs with
  | nil => rfl
  | cons r rs ih => rw [normalizeAll, List.map_cons, ih]

/-- An expression that has no list matches no single characters by one. -/
lemma asCharList?_eq_none {ignoreCase : Bool} {r : Regex} (h : ¬ r.isCharList) :
    r.asCharList? ignoreCase = none := by
  cases hlist : r.asCharList? ignoreCase with
  | none => rfl
  | some l => exact absurd (isCharList_iff.mpr ⟨l, hlist⟩) h

/-- Alternatives without lists are left as they are. -/
lemma mergeCharLists_of_none {ignoreCase : Bool} {rs : List Regex} (h : ∀ r ∈ rs, ¬ r.isCharList) :
    mergeCharLists ignoreCase rs = rs := by
  have hnil : rs.filterMap (asCharList? ignoreCase) = [] :=
    List.filterMap_eq_nil_iff.mpr fun r hr => asCharList?_eq_none (h r hr)
  rw [mergeCharLists, hnil]

/-- Alternatives of which some match single characters: their lists are merged into one, which is
sorted and marked as normalized. -/
lemma mergeCharLists_of_some (ignoreCase : Bool) {rs : List Regex} (h : ∃ r ∈ rs, r.isCharList) :
    ∃ merged : CharList, merged.normalized ∧ merged.sort = merged ∧
      mergeCharLists ignoreCase rs = placeMerged merged rs := by
  rw [mergeCharLists]
  cases hfilter : rs.filterMap (asCharList? ignoreCase) with
  | nil =>
    obtain ⟨r, hr, hchar⟩ := h
    obtain ⟨l, hl⟩ : ∃ l, r.asCharList? ignoreCase = some l := isCharList_iff.mp hchar
    rw [List.filterMap_eq_nil_iff.mp hfilter r hr] at hl
    cases hl
  | cons l ls => exact ⟨_, rfl, CharList.sort_sort _ true, rfl⟩

/-- What is merged from expressions is there once.

**Proof sketch.** Induction on the expressions. The merged list takes the place of the first one that
matches single characters, and none of those behind it is left. -/
lemma filterMap_placeMerged {merged : CharList} (hmerged : merged.normalized) (ignoreCase : Bool) :
    ∀ {rs : List Regex}, (∃ r ∈ rs, r.isCharList) →
      (placeMerged merged rs).filterMap (asCharList? ignoreCase) = [merged]
  | [], h => absurd h (by simp)
  | r :: rs, h => by
    rw [placeMerged]
    split_ifs with hr
    · have hrest : (rs.filter (!·.isCharList)).filterMap (asCharList? ignoreCase) = [] := by
        refine List.filterMap_eq_nil_iff.mpr fun x hx => asCharList?_eq_none ?_
        simpa using (List.mem_filter.mp hx).2
      have hfirst : (chars merged).asCharList? ignoreCase = some merged := by
        rw [asCharList?, CharList.normalize_of_normalized hmerged]
      rw [List.filterMap_cons_some hfirst, hrest]
    · have hrs : ∃ r ∈ rs, r.isCharList := by
        obtain ⟨x, hx, hchar⟩ := h
        rcases List.mem_cons.mp hx with rfl | hx
        · exact absurd hchar hr
        · exact ⟨x, hx, hchar⟩
      rw [List.filterMap_cons_none (asCharList?_eq_none hr),
        filterMap_placeMerged hmerged ignoreCase hrs]

/-- The merged list stays in its place. -/
lemma placeMerged_placeMerged (merged : CharList) (rs : List Regex) :
    placeMerged merged (placeMerged merged rs) = placeMerged merged rs := by
  induction rs with
  | nil => rfl
  | cons r rs ih =>
    by_cases hr : r.isCharList
    · have hchars : (chars merged).isCharList := rfl
      rw [placeMerged, if_pos hr, placeMerged, if_pos hchars, List.filter_filter]
      simp only [Bool.and_self]
    · rw [placeMerged, if_neg hr, placeMerged, if_neg hr, ih]

/-- Merging commutes with changes that keep whether an expression matches by a list. -/
lemma map_placeMerged {φ : Regex → Regex} (hφ : ∀ r, (φ r).isCharList = r.isCharList)
    {merged merged' : CharList} (hmerged : φ (chars merged) = chars merged') (rs : List Regex) :
    (placeMerged merged rs).map φ = placeMerged merged' (rs.map φ) := by
  induction rs with
  | nil => rfl
  | cons r rs ih =>
    rw [placeMerged, List.map_cons, placeMerged, hφ]
    split_ifs with hr
    · rw [List.map_cons, hmerged, List.filter_map]
      simp only [Function.comp_def, hφ]
    · rw [List.map_cons, ih]

/-- **Merged alternatives are left alone**, whether letter case is ignored or not.

**Proof sketch.** If there is a character list, the merged one is the only one left; it is sorted
already and stands in its place. Without one nothing is done at all. -/
lemma mergeCharLists_mergeCharLists (ignoreCase ignoreCase' : Bool) (rs : List Regex) :
    mergeCharLists ignoreCase' (mergeCharLists ignoreCase rs) = mergeCharLists ignoreCase rs := by
  by_cases h : ∃ r ∈ rs, r.isCharList
  · obtain ⟨merged, hmark, hsort, heq⟩ := mergeCharLists_of_some ignoreCase h
    have hsame : ({ ({ merged with items := merged.items ++ [].flatMap CharList.items } :
        CharList).sort with normalized := true } : CharList) = merged := by
      have hnil : ({ merged with items := merged.items ++ [].flatMap CharList.items } : CharList) =
          merged := by simp
      rw [hnil, hsort, ← hmark]
    rw [heq, mergeCharLists, filterMap_placeMerged hmark ignoreCase' h]
    dsimp only
    rw [hsame, placeMerged_placeMerged]
  · have hnone : ∀ r ∈ rs, ¬ r.isCharList := fun r hr hchar => h ⟨r, hr, hchar⟩
    rw [mergeCharLists_of_none hnone, mergeCharLists_of_none hnone]

/-- What merging leaves is a merged list or was there before. -/
lemma mem_mergeCharLists {ignoreCase : Bool} {rs : List Regex} {r : Regex}
    (h : r ∈ mergeCharLists ignoreCase rs) :
    (∃ l : CharList, l.normalized ∧ r = chars l) ∨ r ∈ rs := by
  by_cases hchar : ∃ r ∈ rs, r.isCharList
  · obtain ⟨merged, hmark, -, heq⟩ := mergeCharLists_of_some ignoreCase hchar
    rw [heq, mem_placeMerged hchar] at h
    exact h.imp (fun h => ⟨merged, hmark, h⟩) And.left
  · rw [mergeCharLists_of_none fun r hr hc => hchar ⟨r, hr, hc⟩] at h
    exact Or.inr h

/-! ## Expressions in normal form -/

/-- **Expressions that are left alone.** Their lists are marked as normalized; the alternatives of a
choice are no choices, and their lists are merged. Nothing is said about counted bodies: these are
normalized as copies. -/
inductive Normal : Regex → Prop
  | chars {l : CharList} : l.normalized → Normal (.chars l)
  | choice {rs : List Regex} : (∀ r ∈ rs, Normal r) → (∀ r ∈ rs, splice r = [r]) →
      (∀ ignoreCase, mergeCharLists ignoreCase rs = rs) → Normal (.choice rs)
  | sequence {rs : List Regex} : (∀ r ∈ rs, Normal r) → Normal (.sequence rs)
  | oneOrMore {r : Regex} : Normal r → Normal (.oneOrMore r)
  | zeroOrMore {r : Regex} : Normal r → Normal (.zeroOrMore r)
  | zeroOrOne {r : Regex} : Normal r → Normal (.zeroOrOne r)
  | literal (image : String) : Normal (.literal image)
  | repetition (r : Regex) (min : Nat) (max : Option Nat) : Normal (.repetition r min max)
  | reference (label : String) (target : Option Nat) : Normal (.reference label target)
  | endOfInput : Normal .endOfInput

/-- Flattening leaves alternatives alone that are no choices. -/
lemma flatMap_splice_eq {rs : List Regex} (h : ∀ r ∈ rs, splice r = [r]) :
    rs.flatMap splice = rs := by
  rw [List.flatMap_congr h, List.flatMap_singleton']

/-- The alternatives that a normal form brings in are no choices. -/
lemma Normal.splice {r : Regex} (h : Normal r) :
    ∀ x ∈ splice r, Normal x ∧ Regex.splice x = [x] := by
  cases h with
  | choice hrs hsplice _ => exact fun x hx => ⟨hrs x hx, hsplice x hx⟩
  | chars hl => simpa [Regex.splice] using Normal.chars hl
  | sequence hrs => simpa [Regex.splice] using Normal.sequence hrs
  | oneOrMore hr => simpa [Regex.splice] using Normal.oneOrMore hr
  | zeroOrMore hr => simpa [Regex.splice] using Normal.zeroOrMore hr
  | zeroOrOne hr => simpa [Regex.splice] using Normal.zeroOrOne hr
  | literal s => simpa [Regex.splice] using Normal.literal s
  | repetition r min max => simpa [Regex.splice] using Normal.repetition r min max
  | reference label target => simpa [Regex.splice] using Normal.reference label target
  | endOfInput => simpa [Regex.splice] using Normal.endOfInput

/-- **A normal form is left alone.** -/
lemma Normal.normalize_eq (ignoreCase : Bool) {r : Regex} (h : Normal r) :
    r.normalize ignoreCase false = r := by
  induction h with
  | chars hl => rw [normalize, CharList.normalize_of_normalized hl]
  | choice _ hsplice hmerge ih =>
    rw [normalize, normalizeAll_eq_map, List.map_congr_left ih, List.map_id',
      flatMap_splice_eq hsplice, hmerge]
  | sequence _ ih => rw [normalize, normalizeAll_eq_map, List.map_congr_left ih, List.map_id']
  | oneOrMore _ ih | zeroOrMore _ ih | zeroOrOne _ ih => rw [normalize, ih]
  | repetition r min max => rw [normalize, if_neg Bool.false_ne_true]
  | literal | reference | endOfInput => rw [normalize]

mutual

/-- **What is left of an expression is in normal form.**

**Proof sketch.** Induction on the expression. For a choice, the alternatives are in normal form and are
no choices after splicing; merging their lists puts one normalized list among them. -/
lemma normal_normalize (ignoreCase : Bool) : ∀ r : Regex, Normal (r.normalize ignoreCase false)
  | chars l => by
    rw [normalize]
    exact .chars (CharList.normalized_normalize ignoreCase)
  | choice rs => by
    have hflat : ∀ x ∈ (normalizeAll ignoreCase false rs).flatMap splice,
        Normal x ∧ splice x = [x] := by
      intro x hx
      obtain ⟨r, hr, hx⟩ := List.mem_flatMap.mp hx
      exact (normal_normalizeAll ignoreCase rs r hr).splice x hx
    have hmerged : ∀ x ∈ mergeCharLists ignoreCase
        ((normalizeAll ignoreCase false rs).flatMap splice), Normal x ∧ splice x = [x] := by
      intro x hx
      rcases mem_mergeCharLists hx with ⟨l, hl, rfl⟩ | hx
      · exact ⟨.chars hl, rfl⟩
      · exact hflat x hx
    rw [normalize]
    exact .choice (fun x hx => (hmerged x hx).1) (fun x hx => (hmerged x hx).2)
      fun ignoreCase' => mergeCharLists_mergeCharLists ignoreCase ignoreCase' _
  | sequence rs => by
    rw [normalize]
    exact .sequence (normal_normalizeAll ignoreCase rs)
  | oneOrMore r => by
    rw [normalize]
    exact .oneOrMore (normal_normalize ignoreCase r)
  | zeroOrMore r => by
    rw [normalize]
    exact .zeroOrMore (normal_normalize ignoreCase r)
  | zeroOrOne r => by
    rw [normalize]
    exact .zeroOrOne (normal_normalize ignoreCase r)
  | repetition r min max => by
    rw [normalize, if_neg Bool.false_ne_true]
    exact .repetition r min max
  | literal s => by
    rw [normalize]
    exact .literal s
  | reference label target => by
    rw [normalize]
    exact .reference label target
  | endOfInput => by
    rw [normalize]
    exact .endOfInput

/-- The same for a list of expressions. -/
lemma normal_normalizeAll (ignoreCase : Bool) : ∀ (rs : List Regex),
    ∀ x ∈ normalizeAll ignoreCase false rs, Normal x
  | [] => List.forall_mem_nil _
  | r :: rs => List.forall_mem_cons.mpr
    ⟨normal_normalize ignoreCase r, normal_normalizeAll ignoreCase rs⟩

end

/-! ## Building from what is left -/

/-- Normalizing an expression keeps its list, if it has one. -/
lemma asCharList?_normalize (ignoreCase copies : Bool) (r : Regex) :
    (r.normalize ignoreCase copies).asCharList? ignoreCase = r.asCharList? ignoreCase := by
  cases r with
  | chars l =>
    rw [normalize, asCharList?, asCharList?,
      CharList.normalize_of_normalized (CharList.normalized_normalize ignoreCase)]
  | _ => simp only [normalize, asCharList?]

/-- The normal form matches single characters just if the expression does. -/
lemma isCharList_normalize (ignoreCase copies : Bool) (r : Regex) :
    (r.normalize ignoreCase copies).isCharList = r.isCharList := by
  cases r <;> rfl

/-- Merging the alternatives before or after they are normalized. -/
lemma map_normalize_mergeCharLists (ignoreCase copies : Bool) (rs : List Regex) :
    (mergeCharLists ignoreCase rs).map (normalize ignoreCase copies) =
      mergeCharLists ignoreCase (rs.map (normalize ignoreCase copies)) := by
  have hlists : (rs.map (normalize ignoreCase copies)).filterMap (asCharList? ignoreCase) =
      rs.filterMap (asCharList? ignoreCase) := by
    rw [List.filterMap_map]
    exact List.filterMap_congr fun r _ => asCharList?_normalize ignoreCase copies r
  rw [mergeCharLists, mergeCharLists, hlists]
  cases rs.filterMap (asCharList? ignoreCase) with
  | nil => rfl
  | cons l ls =>
    refine map_placeMerged (isCharList_normalize ignoreCase copies) ?_ rs
    rw [normalize, CharList.normalize_of_normalized rfl]

/-- Normalizing keeps what is no choice from being one. -/
lemma splice_normalize (ignoreCase copies : Bool) {r : Regex} (h : splice r = [r]) :
    splice (r.normalize ignoreCase copies) = [r.normalize ignoreCase copies] := by
  cases r with
  | choice rs =>
    have hsize := congrArg sizeOf h
    simp only [splice, List.cons.sizeOf_spec, List.nil.sizeOf_spec, choice.sizeOf_spec] at hsize
    omega
  | _ => rfl

/-- The alternatives that a normal form brings in are those of what it is built from.

**Proof sketch.** The alternatives of a choice in normal form are no choices, and their normal forms are
none either. -/
lemma Normal.map_splice (ignoreCase copies : Bool) {r : Regex} (h : Normal r) :
    (Regex.splice r).map (normalize ignoreCase copies) =
      Regex.splice (r.normalize ignoreCase copies) := by
  cases h with
  | @choice rs _ hsplice hmerge =>
    have hflat : (rs.map (normalize ignoreCase copies)).flatMap Regex.splice =
        rs.map (normalize ignoreCase copies) := by
      refine flatMap_splice_eq fun x hx => ?_
      obtain ⟨r, hr, rfl⟩ := List.mem_map.mp hx
      exact splice_normalize ignoreCase copies (hsplice r hr)
    rw [normalize, normalizeAll_eq_map, hflat, ← map_normalize_mergeCharLists, hmerge]
    rfl
  | chars | sequence | oneOrMore | zeroOrMore | zeroOrOne | literal | repetition | reference
  | endOfInput => rfl

mutual

/-- **An automaton is built from the same expression the second time.** What is left of an
expression has the normal form of the expression itself, counted bodies included.

**Proof sketch.** Induction on the expression. The alternatives of a choice are flattened and merged
already; normalizing the counted bodies in them keeps this. -/
lemma normalize_normalize_true (ignoreCase : Bool) : ∀ r : Regex,
    (r.normalize ignoreCase false).normalize ignoreCase true = r.normalize ignoreCase true
  | chars l => by
    rw [normalize, normalize, normalize,
      CharList.normalize_of_normalized (CharList.normalized_normalize ignoreCase)]
  | choice rs => by
    set flat := (normalizeAll ignoreCase false rs).flatMap splice with hflat
    have hsplice : ∀ x ∈ flat, splice x = [x] := by
      intro x hx
      obtain ⟨r, hr, hx⟩ := List.mem_flatMap.mp hx
      exact ((normal_normalizeAll ignoreCase rs r hr).splice x hx).2
    have hmap : flat.map (normalize ignoreCase true) =
        (normalizeAll ignoreCase true rs).flatMap splice := by
      rw [hflat, normalizeAll_eq_map, normalizeAll_eq_map, List.map_flatMap, List.flatMap_map,
        List.flatMap_map]
      refine List.flatMap_congr fun r hr => ?_
      rw [(normal_normalize ignoreCase r).map_splice,
        normalizeAll_normalize_true ignoreCase rs r hr]
    have hmerged :
        (mergeCharLists ignoreCase (flat.map (normalize ignoreCase true))).flatMap splice =
          mergeCharLists ignoreCase (flat.map (normalize ignoreCase true)) := by
      refine flatMap_splice_eq fun x hx => ?_
      rcases mem_mergeCharLists hx with ⟨l, -, rfl⟩ | hx
      · rfl
      · obtain ⟨r, hr, rfl⟩ := List.mem_map.mp hx
        exact splice_normalize ignoreCase true (hsplice r hr)
    rw [normalize, normalize, normalize, ← hflat, normalizeAll_eq_map, map_normalize_mergeCharLists,
      hmerged, mergeCharLists_mergeCharLists, hmap]
  | sequence rs => by
    rw [normalize, normalize, normalize, normalizeAll_eq_map, normalizeAll_eq_map,
      normalizeAll_eq_map, List.map_map]
    exact congrArg sequence (List.map_congr_left (normalizeAll_normalize_true ignoreCase rs))
  | oneOrMore r => by
    rw [normalize, normalize, normalize, normalize_normalize_true ignoreCase r]
  | zeroOrMore r => by
    rw [normalize, normalize, normalize, normalize_normalize_true ignoreCase r]
  | zeroOrOne r => by
    rw [normalize, normalize, normalize, normalize_normalize_true ignoreCase r]
  | repetition r min max => by rw [normalize, if_neg Bool.false_ne_true]
  | literal _ => by rw [normalize]
  | reference _ _ => by rw [normalize]
  | endOfInput => by rw [normalize]

/-- The same for a list of expressions. -/
lemma normalizeAll_normalize_true (ignoreCase : Bool) : ∀ (rs : List Regex), ∀ r ∈ rs,
    (r.normalize ignoreCase false).normalize ignoreCase true = r.normalize ignoreCase true
  | [] => List.forall_mem_nil _
  | r :: rs => List.forall_mem_cons.mpr
    ⟨normalize_normalize_true ignoreCase r, normalizeAll_normalize_true ignoreCase rs⟩

end

end Regex

end GrammarForge
