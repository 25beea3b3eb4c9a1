import GrammarForge.Proofs.CharSets
import GrammarForge.Regex.Normalize
import Mathlib.Computability.Language

set_option autoImplicit false

/-!
# The language of a regular expression

What regular expressions match, with references looked up in the slots of the grammar. The normal
form of an expression has the same language, and no references that it did not have before.

## Main definitions

* `Regex.Matches` — an expression matches a text.
* `Regex.lang` — the texts that an expression matches.

## Main results

* `Regex.lang_sequence`, `Regex.lang_choice` and the like — the language of each construct.
* `Regex.lang_normalize` — the normal form matches the same texts.
* `Regex.references_normalize` — the normal form has no new references.
-/

namespace GrammarForge

open Computability

namespace Regex

/-- **An expression matches a text.** References are looked up in `slots`; letter case is ignored
if `ignoreCase` is set. The end of the input is no text, so nothing matches it. -/
inductive Matches (ignoreCase : Bool) (slots : Array (Option Regex)) : Regex → List Char → Prop
  | chars {l : CharList} {c : Char} : l.Holds ignoreCase c →
      Matches ignoreCase slots (.chars l) [c]
  | choice {rs : List Regex} {r : Regex} {w : List Char} : r ∈ rs →
      Matches ignoreCase slots r w → Matches ignoreCase slots (.choice rs) w
  | done : Matches ignoreCase slots (.sequence []) []
  | next {r : Regex} {rs : List Regex} {v w : List Char} : Matches ignoreCase slots r v →
      Matches ignoreCase slots (.sequence rs) w →
      Matches ignoreCase slots (.sequence (r :: rs)) (v ++ w)
  | oneOrMore {r : Regex} {n : Nat} {w : List Char} : 1 ≤ n →
      Matches ignoreCase slots (.sequence (List.replicate n r)) w →
      Matches ignoreCase slots (.oneOrMore r) w
  | zeroOrMore {r : Regex} {n : Nat} {w : List Char} :
      Matches ignoreCase slots (.sequence (List.replicate n r)) w →
      Matches ignoreCase slots (.zeroOrMore r) w
  | zeroOrOne {r : Regex} {n : Nat} {w : List Char} : n ≤ 1 →
      Matches ignoreCase slots (.sequence (List.replicate n r)) w →
      Matches ignoreCase slots (.zeroOrOne r) w
  | literal {image : String} {w : List Char} :
      List.Forall₂ (CharList.SameLetter ignoreCase) image.toList w →
      Matches ignoreCase slots (.literal image) w
  | repetition {r : Regex} {min : Nat} {max : Option Nat} {n : Nat} {w : List Char} : min ≤ n →
      (∀ m ∈ max, n ≤ Nat.max min m) →
      Matches ignoreCase slots (.sequence (List.replicate n r)) w →
      Matches ignoreCase slots (.repetition r min max) w
  | reference {label : String} {i : Nat} {r : Regex} {w : List Char} :
      slots.getD i none = some r → Matches ignoreCase slots r w →
      Matches ignoreCase slots (.reference label (some i)) w

/-- The texts that an expression matches. -/
def lang (ignoreCase : Bool) (slots : Array (Option Regex)) (r : Regex) : Language Char :=
  {w | r.Matches ignoreCase slots w}

/-- The texts of one character that `p` holds of. -/
def letters (p : Char → Prop) : Language Char := {w | ∃ c, p c ∧ w = [c]}

variable {ignoreCase : Bool} {slots : Array (Option Regex)} {w : List Char}

/-- The language of an expression is the set of texts that it matches. -/
lemma mem_lang {r : Regex} : w ∈ lang ignoreCase slots r ↔ r.Matches ignoreCase slots w := Iff.rfl

/-- A language of letters has the texts of one character with the property. -/
lemma mem_letters {p : Char → Prop} : w ∈ letters p ↔ ∃ c, p c ∧ w = [c] := Iff.rfl

/-- A text is in one of several languages. -/
lemma mem_sum {Ls : List (Language Char)} : w ∈ Ls.sum ↔ ∃ L ∈ Ls, w ∈ L := by
  induction Ls with
  | nil => simp [Language.notMem_zero]
  | cons L Ls ih => rw [List.sum_cons, Language.mem_add, ih, List.exists_mem_cons_iff]

/-- At most `k` texts of a language in a row.

**Proof sketch.** Induction on the bound: the first text of the row is either missing or in the
language. -/
lemma mem_one_add_pow {L : Language Char} (k : Nat) : ∀ {w : List Char},
    w ∈ (1 + L) ^ k ↔ ∃ n ≤ k, w ∈ L ^ n := by
  induction k with
  | zero => simp
  | succ k ih =>
    intro w
    rw [pow_succ', add_mul, one_mul, Language.mem_add, ih]
    constructor
    · rintro (⟨n, hn, hw⟩ | hw)
      · exact ⟨n, hn.trans (Nat.le_succ k), hw⟩
      · obtain ⟨u, hu, v, hv, rfl⟩ := Language.mem_mul.mp hw
        obtain ⟨n, hn, hv⟩ := ih.mp hv
        refine ⟨n + 1, Nat.succ_le_succ hn, ?_⟩
        rw [pow_succ']
        exact Language.append_mem_mul hu hv
    · rintro ⟨n, hn, hw⟩
      cases n with
      | zero => exact Or.inl ⟨0, Nat.zero_le k, hw⟩
      | succ n =>
        rw [pow_succ'] at hw
        obtain ⟨u, hu, v, hv, rfl⟩ := Language.mem_mul.mp hw
        exact Or.inr (Language.append_mem_mul hu (ih.mpr ⟨n, Nat.succ_le_succ_iff.mp hn, hv⟩))

/-- A text in the iteration of a language is a row of texts of the language. -/
lemma mem_kstar_iff_exists_pow {L : Language Char} : w ∈ L∗ ↔ ∃ n, w ∈ L ^ n := by
  rw [Language.kstar_eq_iSup_pow, Language.mem_iSup]

/-! ## The language of each construct -/

/-- A character list has the texts of one of its characters. -/
lemma lang_chars (l : CharList) :
    lang ignoreCase slots (chars l) = letters (l.Holds ignoreCase) := by
  ext w
  constructor
  · rintro ⟨h⟩
    exact ⟨_, by assumption, rfl⟩
  · rintro ⟨c, hc, rfl⟩
    exact .chars hc

/-- A choice has the sum of the languages of its alternatives. -/
lemma lang_choice (rs : List Regex) :
    lang ignoreCase slots (choice rs) = (rs.map (lang ignoreCase slots)).sum := by
  ext w
  rw [mem_sum]
  constructor
  · intro h
    cases h with
    | choice hr hw => exact ⟨_, List.mem_map_of_mem hr, hw⟩
  · rintro ⟨L, hL, hw⟩
    obtain ⟨r, hr, rfl⟩ := List.mem_map.mp hL
    exact .choice hr hw

/-- A text of a choice is a text of one of its alternatives. -/
lemma mem_lang_choice {rs : List Regex} :
    w ∈ lang ignoreCase slots (choice rs) ↔ ∃ r ∈ rs, w ∈ lang ignoreCase slots r := by
  rw [lang_choice, mem_sum]
  simp

/-- A sequence has the product of the languages of its units.

**Proof sketch.** Induction on the units; a text of the sequence is one of the first unit followed by
one of the others. -/
lemma lang_sequence (rs : List Regex) :
    lang ignoreCase slots (sequence rs) = (rs.map (lang ignoreCase slots)).prod := by
  induction rs with
  | nil =>
    ext w
    constructor
    · intro h
      cases h
      exact rfl
    · rintro rfl
      exact .done
  | cons r rs ih =>
    rw [List.map_cons, List.prod_cons, ← ih]
    ext w
    rw [Language.mem_mul]
    constructor
    · intro h
      cases h with
      | next hv hw => exact ⟨_, hv, _, hw, rfl⟩
    · rintro ⟨u, hu, v, hv, rfl⟩
      exact .next hu hv

/-- Equal units in a row have a power of the language of the unit. -/
lemma lang_replicate (n : Nat) (r : Regex) :
    lang ignoreCase slots (sequence (List.replicate n r)) = lang ignoreCase slots r ^ n := by
  rw [lang_sequence, List.map_replicate, List.prod_replicate]

/-- Any number of times is the iteration. -/
lemma lang_zeroOrMore (r : Regex) :
    lang ignoreCase slots (zeroOrMore r) = (lang ignoreCase slots r)∗ := by
  ext w
  rw [mem_kstar_iff_exists_pow]
  simp only [← lang_replicate]
  constructor
  · intro h
    cases h with
    | zeroOrMore h => exact ⟨_, h⟩
  · rintro ⟨n, h⟩
    exact .zeroOrMore h

/-- One or more times is once and then any number of times. -/
lemma lang_oneOrMore (r : Regex) :
    lang ignoreCase slots (oneOrMore r) =
      lang ignoreCase slots r * (lang ignoreCase slots r)∗ := by
  ext w
  rw [Language.kstar_eq_iSup_pow, Language.mul_iSup, Language.mem_iSup]
  simp only [← pow_succ']
  simp only [← lang_replicate]
  constructor
  · intro h
    cases h with
    | oneOrMore hn h =>
      obtain ⟨n, rfl⟩ := Nat.exists_eq_add_of_le' hn
      exact ⟨n, h⟩
  · rintro ⟨n, h⟩
    exact .oneOrMore (Nat.le_add_left 1 n) h

/-- At most once is the empty text or once. -/
lemma lang_zeroOrOne (r : Regex) :
    lang ignoreCase slots (zeroOrOne r) = 1 + lang ignoreCase slots r := by
  ext w
  rw [← pow_one (1 + _), mem_one_add_pow]
  simp only [← lang_replicate]
  constructor
  · intro h
    cases h with
    | zeroOrOne hn h => exact ⟨_, hn, h⟩
  · rintro ⟨n, hn, h⟩
    exact .zeroOrOne hn h

/-- A repetition without an upper bound has the required times and then any number of times. -/
lemma lang_repetition_none (r : Regex) (min : Nat) :
    lang ignoreCase slots (repetition r min none) =
      lang ignoreCase slots r ^ min * (lang ignoreCase slots r)∗ := by
  ext w
  rw [Language.kstar_eq_iSup_pow, Language.mul_iSup, Language.mem_iSup]
  simp only [← pow_add]
  simp only [← lang_replicate]
  constructor
  · intro h
    cases h with
    | repetition hn _ h =>
      obtain ⟨n, rfl⟩ := Nat.exists_eq_add_of_le hn
      exact ⟨n, h⟩
  · rintro ⟨n, h⟩
    exact .repetition (Nat.le_add_right min n) (by simp) h

/-- A repetition with an upper bound has the required times and then at most as many as are left.

**Proof sketch.** A row of `min + n` texts is one of `min` texts followed by one of `n`. The bound is
taken as the larger one of both, so that `n` is at most their truncated difference. -/
lemma lang_repetition_some (r : Regex) (min max : Nat) :
    lang ignoreCase slots (repetition r min (some max)) =
      lang ignoreCase slots r ^ min * (1 + lang ignoreCase slots r) ^ (max - min) := by
  ext w
  constructor
  · intro h
    cases h with
    | repetition hn hmax h =>
      obtain ⟨n, rfl⟩ := Nat.exists_eq_add_of_le hn
      have hle : min + n ≤ Nat.max min max := hmax max rfl
      rw [← mem_lang, lang_replicate, pow_add] at h
      obtain ⟨u, hu, v, hv, rfl⟩ := Language.mem_mul.mp h
      refine Language.append_mem_mul hu ((mem_one_add_pow _).mpr ⟨n, ?_, hv⟩)
      change min + n ≤ Max.max min max at hle
      omega
  · intro h
    obtain ⟨u, hu, v, hv, rfl⟩ := Language.mem_mul.mp h
    obtain ⟨n, hn, hv⟩ := (mem_one_add_pow _).mp hv
    have h := Language.append_mem_mul hu hv
    rw [← pow_add, ← lang_replicate] at h
    refine .repetition (Nat.le_add_right min n) ?_ h
    intro m hm
    obtain rfl : max = m := Option.some_inj.mp hm
    show min + n ≤ Max.max min max
    omega

/-- A literal has the texts that agree with its characters one after the other.

**Proof sketch.** Induction on the characters of the literal. -/
lemma lang_literal (image : String) : lang ignoreCase slots (literal image) =
    (image.toList.map fun c => letters (CharList.SameLetter ignoreCase c)).prod := by
  have hspelled : ∀ (cs w : List Char), List.Forall₂ (CharList.SameLetter ignoreCase) cs w ↔
      w ∈ (cs.map fun c => letters (CharList.SameLetter ignoreCase c)).prod := by
    intro cs
    induction cs with
    | nil => intro w; rw [List.forall₂_nil_left_iff]; rfl
    | cons c cs ih =>
      intro w
      rw [List.forall₂_cons_left_iff, List.map_cons, List.prod_cons, Language.mem_mul]
      constructor
      · rintro ⟨d, v, hd, hv, rfl⟩
        exact ⟨[d], ⟨d, hd, rfl⟩, v, (ih v).mp hv, rfl⟩
      · rintro ⟨-, ⟨d, hd, rfl⟩, v, hv, rfl⟩
        exact ⟨d, v, hd, (ih v).mpr hv, rfl⟩
  ext w
  rw [← hspelled]
  constructor
  · intro h
    cases h with
    | literal h => exact h
  · exact .literal

/-- A reference has the language of the expression in its slot. -/
lemma lang_reference {label : String} {i : Nat} {r : Regex} (h : slots.getD i none = some r) :
    lang ignoreCase slots (reference label (some i)) = lang ignoreCase slots r := by
  ext w
  constructor
  · intro hw
    cases hw with
    | reference h' hw =>
      rw [h] at h'
      cases h'
      exact hw
  · exact .reference h

/-! ## The language of a normal form -/

/-- Whether an expression matches single characters by a list, in terms of its list. -/
lemma isCharList_iff {r : Regex} : r.isCharList ↔ ∃ l, r.asCharList? ignoreCase = some l := by
  rw [isCharList]
  cases r with
  | chars l => simp [asCharList?]
  | literal image =>
    rcases h : image.toList with _ | ⟨c, _ | ⟨d, cs⟩⟩ <;> simp [asCharList?, h]
  | _ => simp [asCharList?]

/-- The list of an expression that matches single characters is normalized, and lists the
characters that the expression matches.

**Proof sketch.** By the two kinds of expressions that match single characters: a character list, and a
literal of one character. -/
lemma lang_of_asCharList? {r : Regex} {l : CharList} (h : r.asCharList? ignoreCase = some l) :
    l.normalized ∧ lang ignoreCase slots r = letters fun c => l.lists c := by
  cases r with
  | chars l' =>
    cases h
    refine ⟨CharList.normalized_normalize ignoreCase, ?_⟩
    simp only [lang_chars, CharList.lists_normalize]
  | literal image =>
    rcases himage : image.toList with _ | ⟨x, _ | ⟨y, cs⟩⟩ <;> simp only [asCharList?, himage] at h
    · cases h
    · cases h
      refine ⟨CharList.normalized_normalize ignoreCase, ?_⟩
      simp only [lang_literal, himage, List.map_cons, List.map_nil, List.prod_cons, List.prod_nil,
        mul_one, CharList.lists_normalize, CharList.holds_single]
    · cases h
  | _ => simp [asCharList?] at h

/-- The alternatives after the merged list has been put in its place.

**Proof sketch.** Induction on the alternatives. The merged list takes the place of the first list among
them, and the lists behind it are dropped. -/
lemma mem_placeMerged {merged : CharList} {r : Regex} : ∀ {rs : List Regex},
    (∃ r ∈ rs, r.isCharList) →
    (r ∈ placeMerged merged rs ↔ r = chars merged ∨ (r ∈ rs ∧ ¬ r.isCharList))
  | [], h => absurd h (by simp)
  | r' :: rs, h => by
    rw [placeMerged]
    split_ifs with hr'
    · rw [List.mem_cons, List.mem_filter, List.mem_cons]
      refine or_congr_right ⟨?_, ?_⟩
      · rintro ⟨hmem, hr⟩
        exact ⟨Or.inr hmem, by simpa using hr⟩
      · rintro ⟨rfl | hmem, hr⟩
        · exact absurd hr' hr
        · exact ⟨hmem, by simpa using hr⟩
    · have h' : ∃ r ∈ rs, r.isCharList := by
        obtain ⟨x, hx, hxc⟩ := h
        rcases List.mem_cons.mp hx with rfl | hx
        · exact absurd hxc hr'
        · exact ⟨x, hx, hxc⟩
      rw [List.mem_cons, mem_placeMerged h', List.mem_cons]
      constructor
      · rintro (rfl | rfl | ⟨hmem, hr⟩)
        · exact Or.inr ⟨Or.inl rfl, hr'⟩
        · exact Or.inl rfl
        · exact Or.inr ⟨Or.inr hmem, hr⟩
      · rintro (rfl | ⟨rfl | hmem, hr⟩)
        · exact Or.inr (Or.inl rfl)
        · exact Or.inl rfl
        · exact Or.inr (Or.inr ⟨hmem, hr⟩)

/-- If there is a list to merge, there is an alternative that matches single characters. -/
lemma exists_isCharList {rs : List Regex} {l : CharList} {ls : List CharList}
    (h : rs.filterMap (asCharList? ignoreCase) = l :: ls) : ∃ r ∈ rs, r.isCharList := by
  have hl : l ∈ rs.filterMap (asCharList? ignoreCase) := h ▸ List.mem_cons_self
  obtain ⟨r, hr, hl⟩ := List.mem_filterMap.mp hl
  exact ⟨r, hr, isCharList_iff.mpr ⟨l, hl⟩⟩

/-- The merged list holds what the alternatives that match single characters match.

**Proof sketch.** Sorting changes nothing, and an item of the merged list is an item of the list of one
of the alternatives. -/
lemma letters_merged {rs : List Regex} {l : CharList} {ls : List CharList}
    (h : rs.filterMap (asCharList? ignoreCase) = l :: ls) :
    w ∈ letters (({ ({ l with items := l.items ++ ls.flatMap CharList.items } : CharList).sort with
      normalized := true } : CharList).Holds ignoreCase) ↔
      ∃ r ∈ rs, r.isCharList ∧ w ∈ lang ignoreCase slots r := by
  set all : CharList := { l with items := l.items ++ ls.flatMap CharList.items } with hall
  have hholds : ∀ c, ({ all.sort with normalized := true } : CharList).Holds ignoreCase c ↔
      ∃ l' ∈ l :: ls, l'.lists c := by
    intro c
    show all.sort.lists c ↔ _
    rw [CharList.lists_sort]
    simp only [hall, CharList.lists, List.any_append, Bool.or_eq_true, List.any_flatMap,
      List.any_eq_true, List.exists_mem_cons_iff]
  simp only [mem_letters, hholds, ← h, List.mem_filterMap]
  constructor
  · rintro ⟨c, ⟨l', ⟨r, hr, hl'⟩, hc⟩, rfl⟩
    refine ⟨r, hr, isCharList_iff.mpr ⟨l', hl'⟩, ?_⟩
    rw [(lang_of_asCharList? hl').2]
    exact ⟨c, hc, rfl⟩
  · rintro ⟨r, hr, hchar, hw⟩
    obtain ⟨l', hl'⟩ := isCharList_iff.mp hchar
    rw [(lang_of_asCharList? hl').2] at hw
    obtain ⟨c, hc, rfl⟩ := hw
    exact ⟨c, ⟨l', ⟨r, hr, hl'⟩, hc⟩, rfl⟩

/-- **Joining the alternatives that match single characters** changes nothing.

**Proof sketch.** If there is no list among the alternatives, nothing is done. Otherwise the merged list
holds what the lists matched, and the other alternatives are left. -/
lemma lang_mergeCharLists (rs : List Regex) :
    lang ignoreCase slots (choice (mergeCharLists ignoreCase rs)) =
      lang ignoreCase slots (choice rs) := by
  rw [mergeCharLists]
  split
  · rfl
  · rename_i l ls hfilter
    have hsome := exists_isCharList hfilter
    ext w
    simp only [mem_lang_choice, mem_placeMerged hsome]
    constructor
    · rintro ⟨r, rfl | ⟨hr, -⟩, hw⟩
      · rw [lang_chars] at hw
        obtain ⟨r, hr, -, hw⟩ := (letters_merged hfilter).mp hw
        exact ⟨r, hr, hw⟩
      · exact ⟨r, hr, hw⟩
    · rintro ⟨r, hr, hw⟩
      by_cases hchar : r.isCharList
      · refine ⟨_, Or.inl rfl, ?_⟩
        rw [lang_chars]
        exact (letters_merged hfilter).mpr ⟨r, hr, hchar, hw⟩
      · exact ⟨r, Or.inr ⟨hr, hchar⟩, hw⟩

/-- Flattening nested choices changes nothing.

**Proof sketch.** An alternative that is a choice is replaced by its own alternatives, which match
together what it matches. -/
lemma lang_splice (rs : List Regex) : lang ignoreCase slots (choice (rs.flatMap splice)) =
    lang ignoreCase slots (choice rs) := by
  ext w
  have hsplice : ∀ r : Regex, (∃ r' ∈ splice r, w ∈ lang ignoreCase slots r') ↔
      w ∈ lang ignoreCase slots r := by
    intro r
    cases r with
    | choice rs => exact mem_lang_choice.symm
    | _ => simp [splice]
  rw [mem_lang_choice, mem_lang_choice]
  constructor
  · rintro ⟨r', hr', hw⟩
    obtain ⟨r, hr, hr'⟩ := List.mem_flatMap.mp hr'
    exact ⟨r, hr, (hsplice r).mp ⟨r', hr', hw⟩⟩
  · rintro ⟨r, hr, hw⟩
    obtain ⟨r', hr', hw⟩ := (hsplice r).mpr hw
    exact ⟨r', List.mem_flatMap.mpr ⟨r, hr, hr'⟩, hw⟩

mutual

/-- **The normal form of an expression matches the same texts.**

**Proof sketch.** Induction on the expression, with what each step of the normal form does to the
language. -/
theorem lang_normalize (copies : Bool) : ∀ r : Regex,
    lang ignoreCase slots (r.normalize ignoreCase copies) = lang ignoreCase slots r
  | chars l => by
    rw [normalize, lang_chars, lang_chars]
    exact congrArg letters (funext fun c => propext (CharList.holds_normalize ignoreCase))
  | choice rs => by
    rw [normalize, lang_mergeCharLists, lang_splice, lang_choice, lang_choice,
      map_lang_normalizeAll copies rs]
  | sequence rs => by
    rw [normalize, lang_sequence, lang_sequence, map_lang_normalizeAll copies rs]
  | oneOrMore r => by
    rw [normalize, lang_oneOrMore, lang_oneOrMore, lang_normalize copies r]
  | zeroOrMore r => by
    rw [normalize, lang_zeroOrMore, lang_zeroOrMore, lang_normalize copies r]
  | zeroOrOne r => by
    rw [normalize, lang_zeroOrOne, lang_zeroOrOne, lang_normalize copies r]
  | repetition r min max => by
    have hbody : lang ignoreCase slots (if copies then r.normalize ignoreCase copies else r) =
        lang ignoreCase slots r := by
      split_ifs
      · exact lang_normalize copies r
      · rfl
    rw [normalize]
    cases max with
    | none => rw [lang_repetition_none, lang_repetition_none, hbody]
    | some max => rw [lang_repetition_some, lang_repetition_some, hbody]
  | literal _ => by rw [normalize]
  | reference _ _ => by rw [normalize]
  | endOfInput => by rw [normalize]

/-- The same for every expression of a list. -/
lemma map_lang_normalizeAll (copies : Bool) : ∀ rs : List Regex,
    (normalizeAll ignoreCase copies rs).map (lang ignoreCase slots) =
      rs.map (lang ignoreCase slots)
  | [] => rfl
  | r :: rs => by
    rw [normalizeAll, List.map_cons, List.map_cons, lang_normalize copies r,
      map_lang_normalizeAll copies rs]

end

/-! ## The references of a normal form -/

/-- The references of several expressions are those of each one. -/
lemma mem_referencesAll {x : String × Option Nat} : ∀ {rs : List Regex},
    x ∈ referencesAll rs ↔ ∃ r ∈ rs, x ∈ r.references
  | [] => by simp [referencesAll]
  | r :: rs => by
    rw [referencesAll, List.mem_append, mem_referencesAll, List.exists_mem_cons_iff]

/-- Joining alternatives adds no references. -/
lemma references_mergeCharLists {rs : List Regex} {x : String × Option Nat}
    (h : x ∈ referencesAll (mergeCharLists ignoreCase rs)) : x ∈ referencesAll rs := by
  rw [mergeCharLists] at h
  split at h
  · exact h
  · rename_i l ls hfilter
    have hsome := exists_isCharList hfilter
    obtain ⟨r, hr, hx⟩ := mem_referencesAll.mp h
    rcases (mem_placeMerged hsome).mp hr with rfl | ⟨hr, -⟩
    · simp [references] at hx
    · exact mem_referencesAll.mpr ⟨r, hr, hx⟩

/-- Flattening adds no references. -/
lemma references_splice {rs : List Regex} {x : String × Option Nat}
    (h : x ∈ referencesAll (rs.flatMap splice)) : x ∈ referencesAll rs := by
  obtain ⟨r', hr', hx⟩ := mem_referencesAll.mp h
  obtain ⟨r, hr, hr'⟩ := List.mem_flatMap.mp hr'
  refine mem_referencesAll.mpr ⟨r, hr, ?_⟩
  cases r with
  | choice rs => exact mem_referencesAll.mpr ⟨r', hr', hx⟩
  | _ => rwa [List.mem_singleton.mp hr'] at hx

mutual

/-- **The normal form of an expression has no references that it did not have before.**

**Proof sketch.** Induction on the expression. Flattening and merging only drop alternatives or replace
lists, neither of which has references. -/
lemma references_normalize (copies : Bool) {x : String × Option Nat} : ∀ {r : Regex},
    x ∈ (r.normalize ignoreCase copies).references → x ∈ r.references
  | chars l, h => by simp [normalize, references] at h
  | choice rs, h => by
    rw [normalize, references] at h
    exact referencesAll_normalizeAll copies (references_splice (references_mergeCharLists h))
  | sequence rs, h => by
    rw [normalize, references] at h
    exact referencesAll_normalizeAll copies h
  | oneOrMore r, h | zeroOrMore r, h | zeroOrOne r, h => by
    rw [normalize, references] at h
    exact references_normalize copies (r := r) h
  | repetition r min max, h => by
    rw [normalize, references] at h
    split_ifs at h
    · exact references_normalize copies (r := r) h
    · exact h
  | literal _, h => by rwa [normalize] at h
  | reference _ _, h => by rwa [normalize] at h
  | endOfInput, h => by rwa [normalize] at h

/-- The same for a list of expressions. -/
lemma referencesAll_normalizeAll (copies : Bool) {x : String × Option Nat} : ∀ {rs : List Regex},
    x ∈ referencesAll (normalizeAll ignoreCase copies rs) → x ∈ referencesAll rs
  | [], h => h
  | r :: rs, h => by
    rw [normalizeAll, referencesAll, List.mem_append] at h
    rw [referencesAll, List.mem_append]
    exact h.imp (references_normalize copies) (referencesAll_normalizeAll copies)

end

/-! ## The character lists of a normal form -/

mutual

/-- The character lists in an expression. -/
def charLists : Regex → List CharList
  | chars l => [l]
  | choice rs | sequence rs => charListsAll rs
  | oneOrMore r | zeroOrMore r | zeroOrOne r | repetition r _ _ => r.charLists
  | literal _ | reference _ _ | endOfInput => []

/-- The character lists in several expressions. -/
def charListsAll : List Regex → List CharList
  | [] => []
  | r :: rs => r.charLists ++ charListsAll rs

end

/-- The character lists of several expressions are those of each one. -/
lemma mem_charListsAll {l : CharList} : ∀ {rs : List Regex},
    l ∈ charListsAll rs ↔ ∃ r ∈ rs, l ∈ r.charLists
  | [] => by simp [charListsAll]
  | r :: rs => by
    rw [charListsAll, List.mem_append, mem_charListsAll, List.exists_mem_cons_iff]

/-- Joining alternatives adds only a normalized list. -/
lemma charLists_mergeCharLists {rs : List Regex} {l : CharList}
    (h : l ∈ charListsAll (mergeCharLists ignoreCase rs)) :
    l.normalized ∨ l ∈ charListsAll rs := by
  rw [mergeCharLists] at h
  split at h
  · exact Or.inr h
  · rename_i l₀ ls hfilter
    obtain ⟨r, hr, hl⟩ := mem_charListsAll.mp h
    rcases (mem_placeMerged (exists_isCharList hfilter)).mp hr with rfl | ⟨hr, -⟩
    · rw [charLists, List.mem_singleton] at hl
      rw [hl]
      exact Or.inl rfl
    · exact Or.inr (mem_charListsAll.mpr ⟨r, hr, hl⟩)

/-- Flattening adds no lists. -/
lemma charLists_splice {rs : List Regex} {l : CharList}
    (h : l ∈ charListsAll (rs.flatMap splice)) : l ∈ charListsAll rs := by
  obtain ⟨r', hr', hl⟩ := mem_charListsAll.mp h
  obtain ⟨r, hr, hr'⟩ := List.mem_flatMap.mp hr'
  refine mem_charListsAll.mpr ⟨r, hr, ?_⟩
  cases r with
  | choice rs => exact mem_charListsAll.mpr ⟨r', hr', hl⟩
  | _ => rwa [List.mem_singleton.mp hr'] at hl

mutual

/-- **All character lists of a normal form are normalized**, those in counted bodies included.

**Proof sketch.** Induction on the expression. Every list is replaced by its normal form, and the merged
list of a choice is marked as normalized. -/
lemma charLists_normalize {l : CharList} : ∀ {r : Regex},
    l ∈ (r.normalize ignoreCase true).charLists → l.normalized
  | chars l', h => by
    rw [normalize, charLists, List.mem_singleton] at h
    rw [h]
    exact CharList.normalized_normalize ignoreCase
  | choice rs, h => by
    rw [normalize, charLists] at h
    rcases charLists_mergeCharLists h with h | h
    · exact h
    · exact charListsAll_normalizeAll (charLists_splice h)
  | sequence rs, h => by
    rw [normalize, charLists] at h
    exact charListsAll_normalizeAll h
  | oneOrMore r, h | zeroOrMore r, h | zeroOrOne r, h => by
    rw [normalize, charLists] at h
    exact charLists_normalize (r := r) h
  | repetition r min max, h => by
    rw [normalize, charLists, if_pos rfl] at h
    exact charLists_normalize (r := r) h
  | literal _, h => by simp [normalize, charLists] at h
  | reference _ _, h => by simp [normalize, charLists] at h
  | endOfInput, h => by simp [normalize, charLists] at h

/-- The same for a list of expressions. -/
lemma charListsAll_normalizeAll {l : CharList} : ∀ {rs : List Regex},
    l ∈ charListsAll (normalizeAll ignoreCase true rs) → l.normalized
  | [], h => by simp [normalizeAll, charListsAll] at h
  | r :: rs, h => by
    rw [normalizeAll, charListsAll, List.mem_append] at h
    rcases h with h | h
    · exact charLists_normalize h
    · exact charListsAll_normalizeAll h

end

end Regex

end GrammarForge
