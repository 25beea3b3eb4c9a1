import GrammarForge.Proofs.CaseFolding
import GrammarForge.Proofs.Rebuilding

set_option autoImplicit false

/-!
# Named references

A reference takes the named expression out of its slot while its fragment is built. So at most as
many references are followed inside each other as there are full slots, whatever refers to what;
every expression that has been taken out is put back; and a reference is reported as a loop exactly
when the slot it leads to is in use already, or has nothing in it.

## Main definitions

* `unrolled` — the recursion through references, written out a number of times.
* `Regex.entered` — the references of an expression that are followed.
* `Meets` — the references that are met when references are followed.
* `Reports` — when a step reports an error.

## Main results

* `unrolled_eq_build` — the recursion ends before it has been written out once more than there are
  full slots.
* `reports_build` — the loops that are reported are those that are met.
* `Lexer.settles_build` — building a scanner puts every expression back, also if it fails.
* `construct_gives_slots_back` — all of this in one.
-/

namespace GrammarForge

open Build

/-! ## The number of full slots -/

/-- A full slot that is emptied.

**Proof sketch.** The slot is one of those counted, and no longer after it has been emptied. -/
lemma Construction.fullSlots_take {c : Construction} {i : Nat} {r : Regex}
    (h : c.slots.getD i none = some r) :
    ({ c with slots := c.slots.setIfInBounds i none } : Construction).fullSlots + 1 =
      c.fullSlots := by
  have hi : i < c.slots.size := lt_size_of_slot h
  have hfull : c.slots[i].isSome := by
    rw [Array.getD_eq_getD_getElem?, Array.getElem?_eq_getElem hi, Option.getD_some] at h
    rw [h]
    rfl
  have hpos : 0 < c.slots.countP Option.isSome :=
    Array.countP_pos_iff.mpr ⟨_, Array.getElem_mem hi, hfull⟩
  rw [fullSlots, fullSlots, Array.setIfInBounds, dif_pos hi, Array.countP_set hi, if_pos hfull]
  simp only [Option.isSome_none, Bool.false_eq_true, if_false]
  omega

/-- With no slot full, every slot is empty. -/
lemma Construction.slot_of_fullSlots {c : Construction} (h : c.fullSlots = 0) (i : Nat) :
    c.slots.getD i none = none := by
  cases hi : c.slots.getD i none with
  | none => rfl
  | some r =>
    have htake := fullSlots_take hi
    omega

/-- As many slots are full as before. -/
lemma Settles.fullSlots_eq {c c' : Construction} (h : Settles c.slots c'.slots) :
    c'.fullSlots = c.fullSlots :=
  Construction.fullSlots_congr h.size h.isSome_eq

/-! ## The recursion ends -/

/-- **The fragment of an expression, with the recursion through references written out** `n` times;
below that, `inner` is used. -/
def unrolled (m : BuildMode) (inner : Regex → Build Fragment) : Nat → Regex → Build Fragment
  | 0, r => inner r
  | n + 1, r => buildWith m (buildNamed m (unrolled m inner n)) (r.normalize m.ignoreCase true)

/-- **Steps that do the same** while no more than `n` slots are full are put together to such
steps.

**Proof sketch.** One case per building step. Every step does the same on both sides, and none of them
fills a slot. -/
lemma keptByBuilding_agree (m : BuildMode) (n : Nat) : KeptByBuilding
    (fun _ P x y => ∀ c : Construction, c.fullSlots ≤ n →
      y c = x c ∧ P (x c).1 ∧ (x c).2.fullSlots ≤ n) (fun _ => True) Eq m m where
  pure hP c hc := ⟨rfl, hP, hc⟩
  bind := by
    intro α β P Q x y f g hx hf c hc
    obtain ⟨hxy, hP, hc₁⟩ := hx c hc
    obtain ⟨hfg, hQ, hc₂⟩ := hf (x c).1 hP (x c).2 hc₁
    refine ⟨?_, hQ, hc₂⟩
    show g (y c).1 (y c).2 = f (x c).1 (x c).2
    rw [hxy, hfg]
  newState c hc := ⟨rfl, trivial, hc⟩
  newFragment c hc := ⟨rfl, ⟨trivial, trivial⟩, hc⟩
  epsilon _ _ _ c hc := ⟨rfl, trivial, hc⟩
  link _ _ _ _ c hc := ⟨rfl, trivial, hc⟩
  report _ c hc := ⟨rfl, trivial, hc⟩
  oneOf := by
    intro l l' hl c hc
    subst hl
    refine ⟨rfl, ⟨trivial, trivial⟩, ?_⟩
    obtain ⟨ds, hds⟩ := oneOf_eq m l c
    rw [hds]
    exact hc
  single _ := rfl

/-- The fragment of a reference can be built again, and lets the slots settle. -/
lemma settles_buildNamed (m : BuildMode) (depth : Nat) (label : String) (target : Option Nat)
    (c : Construction) : Settles c.slots (buildNamed m (build m depth) label target c).2.slots :=
  (replays_buildNamed (replays_build m depth) (build_normalize m depth) label target).settles c

/-- **The recursion through references ends.** What it comes to at a depth of more than the number
of full slots does not matter, and it is what is built when references are followed that deep.

**Proof sketch.** Induction on how often the recursion is written out. A reference that is followed
empties a slot, so one full slot less is left for what is inside. When no slot is full, every
reference finds an empty slot. -/
lemma unrolled_eq_build (m : BuildMode) (inner : Regex → Build Fragment) : ∀ (n depth : Nat)
    (r : Regex) (c : Construction), c.fullSlots < n → c.fullSlots ≤ depth →
    unrolled m inner n r c = build m depth r c
  | 0, _, _, _, hn, _ => absurd hn (Nat.not_lt_zero _)
  | n + 1, depth, r, c, hn, hdepth => by
    have hagree : ∀ {named : String → Option Nat → Build Fragment},
        (∀ (label : String) (target : Option Nat) (c' : Construction), c'.fullSlots ≤ c.fullSlots →
          buildNamed m (unrolled m inner n) label target c' = named label target c' ∧
            (named label target c').2.fullSlots ≤ c.fullSlots) →
        unrolled m inner (n + 1) r c = buildWith m named (r.normalize m.ignoreCase true) c := by
      intro named hnamed
      have hR := keptByBuilding_agree m c.fullSlots
      refine ((hR.buildWith (Regex.Alike.refl (fun _ => rfl) _) fun x _ c' hc' => ?_) c le_rfl).1
      obtain ⟨heq, hle⟩ := hnamed x.1 x.2 c' hc'
      exact ⟨heq, ⟨trivial, trivial⟩, hle⟩
    cases depth with
    | zero =>
      rw [build]
      refine hagree fun label target c' hc' => ?_
      cases target with
      | none => exact ⟨rfl, hc'⟩
      | some i =>
        have hempty := Construction.slot_of_fullSlots (c := c') (by omega) i
        exact ⟨buildNamed_of_none hempty, hc'⟩
    | succ depth =>
      rw [build]
      refine hagree fun label target c' hc' => ⟨?_, ?_⟩
      · cases target with
        | none => rfl
        | some i =>
          cases hi : c'.slots.getD i none with
          | none => rw [buildNamed_of_none hi, buildNamed_of_none hi]
          | some s =>
            have htake := Construction.fullSlots_take hi
            rw [buildNamed_of_some hi, buildNamed_of_some hi,
              unrolled_eq_build m inner n depth s _ (by omega) (by omega)]
      · rw [(settles_buildNamed m depth label target c').fullSlots_eq]
        exact hc'

/-! ## References that are followed -/

namespace Regex

mutual

/-- The references of an expression that are followed: all but those in a repetition of no
copies. -/
def entered : Regex → List (String × Option Nat)
  | reference label target => [(label, target)]
  | choice rs | sequence rs => enteredAll rs
  | oneOrMore r | zeroOrMore r | zeroOrOne r => r.entered
  | repetition r min max => if min = 0 ∧ max = some 0 then [] else r.entered
  | chars _ | literal _ | endOfInput => []

/-- The references of several expressions that are followed. -/
def enteredAll : List Regex → List (String × Option Nat)
  | [] => []
  | r :: rs => r.entered ++ enteredAll rs

end

variable {ignoreCase : Bool} {x : String × Option Nat}

/-- What several expressions enter is what each of them enters. -/
lemma mem_enteredAll {rs : List Regex} : x ∈ enteredAll rs ↔ ∃ r ∈ rs, x ∈ r.entered := by
  induction rs with
  | nil => simp [enteredAll]
  | cons r rs ih => rw [enteredAll, List.mem_append, ih, List.exists_mem_cons_iff]

/-- No reference is in an expression that matches single characters. -/
lemma entered_of_isCharList {r : Regex} (h : r.isCharList) : x ∉ r.entered := by
  cases r with
  | chars l => simp [entered]
  | literal s => simp [entered]
  | _ => simp [isCharList, asCharList?] at h

/-- Joining alternatives leaves the references alone.

**Proof sketch.** Character lists enter nothing, whether they are merged or not, and all other
alternatives stay. -/
lemma mem_enteredAll_mergeCharLists {rs : List Regex} :
    x ∈ enteredAll (mergeCharLists ignoreCase rs) ↔ x ∈ enteredAll rs := by
  rw [mergeCharLists]
  split
  · rfl
  · rename_i l ls hfilter
    simp only [mem_enteredAll, mem_placeMerged (exists_isCharList hfilter)]
    constructor
    · rintro ⟨r, rfl | ⟨hr, -⟩, hx⟩
      · simp [entered] at hx
      · exact ⟨r, hr, hx⟩
    · rintro ⟨r, hr, hx⟩
      exact ⟨r, Or.inr ⟨hr, fun hc => entered_of_isCharList hc hx⟩, hx⟩

/-- Flattening nested choices leaves the references alone.

**Proof sketch.** A nested choice enters what its alternatives enter. -/
lemma mem_enteredAll_splice {rs : List Regex} :
    x ∈ enteredAll (rs.flatMap splice) ↔ x ∈ enteredAll rs := by
  have hsplice : ∀ r : Regex, x ∈ enteredAll (splice r) ↔ x ∈ r.entered := by
    intro r
    cases r with
    | choice rs => rw [splice, entered]
    | _ => simp [splice, enteredAll]
  simp only [mem_enteredAll, List.mem_flatMap] at hsplice ⊢
  constructor
  · rintro ⟨r', ⟨r, hr, hr'⟩, hx⟩
    exact ⟨r, hr, (hsplice r).mp ⟨r', hr', hx⟩⟩
  · rintro ⟨r, hr, hx⟩
    obtain ⟨r', hr', hx⟩ := (hsplice r).mpr hx
    exact ⟨r', ⟨r, hr, hr'⟩, hx⟩

mutual

/-- **The normal form of an expression has the same references to follow.**

**Proof sketch.** Induction on the expression. Flattening and merging keep all that is entered, since
character lists enter nothing, and the copies of a repetition enter what its body does. -/
lemma mem_entered_normalize (copies : Bool) : ∀ {r : Regex},
    x ∈ (r.normalize ignoreCase copies).entered ↔ x ∈ r.entered
  | chars l => by simp [normalize, entered]
  | choice rs => by
    rw [normalize, entered, entered, mem_enteredAll_mergeCharLists, mem_enteredAll_splice,
      mem_enteredAll_normalizeAll copies]
  | sequence rs => by
    rw [normalize, entered, entered, mem_enteredAll_normalizeAll copies]
  | oneOrMore r | zeroOrMore r | zeroOrOne r => by
    rw [normalize, entered, entered, mem_entered_normalize copies]
  | repetition r min max => by
    have hbody : x ∈ (if copies then r.normalize ignoreCase copies else r).entered ↔
        x ∈ r.entered := by
      split_ifs
      · exact mem_entered_normalize copies
      · rfl
    rw [normalize, entered, entered]
    by_cases hnone : min = 0 ∧ max = some 0
    · rw [if_pos hnone, if_pos hnone]
    · rw [if_neg hnone, if_neg hnone]
      exact hbody
  | literal _ => by rw [normalize]
  | reference _ _ => by rw [normalize]
  | endOfInput => by rw [normalize]

/-- The same for a list of expressions. -/
lemma mem_enteredAll_normalizeAll (copies : Bool) : ∀ {rs : List Regex},
    x ∈ enteredAll (normalizeAll ignoreCase copies rs) ↔ x ∈ enteredAll rs
  | [] => Iff.rfl
  | r :: rs => by
    rw [normalizeAll, enteredAll, enteredAll, List.mem_append, List.mem_append,
      mem_entered_normalize copies, mem_enteredAll_normalizeAll copies]

end

end Regex

/-! ## Loops -/

/-- **The references that are met** when those of an expression are followed. From `r`, with the
slots `opened` in use, a reference `label` to the slot `i` is met when the slots `opened'` are in
use. What a slot holds is followed unless the slot is in use. -/
inductive Meets (slots : Array (Option Regex)) :
    List Nat → Regex → List Nat → String → Nat → Prop
  | here {opened : List Nat} {r : Regex} {label : String} {i : Nat} :
      (label, some i) ∈ r.entered → Meets slots opened r opened label i
  | inside {opened opened' : List Nat} {r s : Regex} {label label' : String} {i j : Nat} :
      (label', some j) ∈ r.entered → j ∉ opened → slots.getD j none = some s →
      Meets slots (j :: opened) s opened' label i → Meets slots opened r opened' label i

/-- A slot that is in use, or has nothing in it. -/
def Blocked (slots : Array (Option Regex)) (opened : List Nat) (i : Nat) : Prop :=
  i ∈ opened ∨ slots.getD i none = none

/-- A reference `label` is met that cannot be followed. -/
def Loops (slots : Array (Option Regex)) (opened : List Nat) (r : Regex) (label : String) : Prop :=
  ∃ opened' i, Meets slots opened r opened' label i ∧ Blocked slots opened' i

/-- A reference `label` that cannot be followed is the reference `x`, or is met inside it. -/
def LoopsAt (slots : Array (Option Regex)) (opened : List Nat) (label : String)
    (x : String × Option Nat) : Prop :=
  ∃ i, x.2 = some i ∧ ((x.1 = label ∧ Blocked slots opened i) ∨
    ∃ s, i ∉ opened ∧ slots.getD i none = some s ∧ Loops slots (i :: opened) s label)

/-- An expression loops at one of the references that it enters. -/
lemma loops_iff {slots : Array (Option Regex)} {opened : List Nat} {r : Regex} {label : String} :
    Loops slots opened r label ↔ ∃ x ∈ r.entered, LoopsAt slots opened label x := by
  constructor
  · rintro ⟨opened', i, hmeets, hblocked⟩
    cases hmeets with
    | here hmem => exact ⟨_, hmem, i, rfl, Or.inl ⟨rfl, hblocked⟩⟩
    | inside hmem hj hs hmeets =>
      exact ⟨_, hmem, _, rfl, Or.inr ⟨_, hj, hs, opened', i, hmeets, hblocked⟩⟩
  · rintro ⟨⟨label', target⟩, hmem, i, rfl, ⟨rfl, hblocked⟩ | ⟨s, hi, hs, opened', j, hj, hblocked⟩⟩
    · exact ⟨opened, i, .here hmem, hblocked⟩
    · exact ⟨opened', j, .inside hmem hi hs hj, hblocked⟩

/-- The normal form loops just if the expression does. -/
lemma loops_normalize {slots : Array (Option Regex)} {opened : List Nat} {r : Regex}
    {label : String} (ignoreCase copies : Bool) :
    Loops slots opened (r.normalize ignoreCase copies) label ↔ Loops slots opened r label := by
  simp only [loops_iff, Regex.mem_entered_normalize]

/-! ## The slots in use -/

/-- The slots without what is in use. -/
def emptied (slots : Array (Option Regex)) (opened : List Nat) : Array (Option Regex) :=
  opened.foldr (fun i s => s.setIfInBounds i none) slots

/-- Emptying slots keeps their number. -/
lemma size_emptied (slots : Array (Option Regex)) (opened : List Nat) :
    (emptied slots opened).size = slots.size := by
  induction opened with
  | nil => rfl
  | cons j opened ih => exact Array.size_setIfInBounds.trans ih

/-- An emptied slot is empty, and all others are as they were.

**Proof sketch.** Induction on the slots that are opened. -/
lemma getD_emptied {slots : Array (Option Regex)} {i : Nat} {opened : List Nat} :
    (emptied slots opened).getD i none = if i ∈ opened then none else slots.getD i none := by
  induction opened with
  | nil => simp [emptied]
  | cons j opened ih =>
    have hstep : emptied slots (j :: opened) = (emptied slots opened).setIfInBounds j none := rfl
    rw [hstep, getD_setIfInBounds_eq, ih, size_emptied]
    by_cases hij : i = j
    · subst hij
      rw [if_pos List.mem_cons_self]
      rcases Nat.lt_or_ge i slots.size with hi | hi
      · rw [if_pos ⟨rfl, hi⟩]
      · -- past the end there is nothing to empty
        rw [Array.getD_eq_getD_getElem?, Array.getElem?_eq_none hi]
        simp
    · simp only [hij, false_and, if_false, List.mem_cons, false_or]

/-- A slot is blocked just if it is empty when the opened ones are. -/
lemma blocked_iff {slots : Array (Option Regex)} {opened : List Nat} {i : Nat} :
    Blocked slots opened i ↔ (emptied slots opened).getD i none = none := by
  rw [getD_emptied, Blocked]
  split_ifs with hi
  · simp [hi]
  · simp [hi]

/-! ## What a step reports -/

/-- A text between two fixed ones begins as the first of them does. -/
lemma head?_enclosed {a b label : String} {x : Char} (h : a.toList.head? = some x) :
    (a ++ label ++ b).toList.head? = some x := by
  rw [String.toList_append, String.toList_append, List.append_assoc, List.head?_append, h,
    Option.some_or]

/-- A text between two fixed ones can be read off. -/
lemma enclosed_injective {a b : String} : Function.Injective fun label => a ++ label ++ b := by
  intro label label' h
  have hlist := congrArg String.toList h
  exact String.toList_injective (by simpa using hlist)

/-- **A loop is worded as no other fault is**, and names its label. -/
lemma RegexFault.message_eq_circular {fault : RegexFault} {label : String} :
    fault.message = (circular label).message ↔ fault = .circular label := by
  refine ⟨fun h => ?_, congrArg message⟩
  have hhead : (circular label).message.toList.head? = some 'L' :=
    head?_enclosed (by decide +kernel)
  rw [← h] at hhead
  cases fault with
  | circular label' => exact congrArg circular (enclosed_injective h)
  | innerEndOfInput => exact absurd hhead (by decide +kernel)
  | emptyCharList => exact absurd hhead (by decide +kernel)
  | emptyChoice => exact absurd hhead (by decide +kernel)

/-- The entry for a loop. -/
def loopEntry (m : BuildMode) (label : String) : Diagnostic :=
  ⟨.semanticError, m.position, (RegexFault.circular label).message⟩

/-- **When a step reports a loop.** It lets the slots settle. From what has become of the slots
`base`, it reports a loop `label` exactly if `p` holds. -/
structure Reports {α : Type} (base : Array (Option Regex)) (m : BuildMode) (label : String)
    (x : Build α) (p : Prop) : Prop where
  settles : ∀ c, Settles c.slots (x c).2.slots
  added : ∀ c, Settles base c.slots → ∃ ds,
    (x c).2.diagnostics.entries = c.diagnostics.entries ++ ds ∧ (loopEntry m label ∈ ds ↔ p)

namespace Reports

variable {α β : Type} {base : Array (Option Regex)} {m : BuildMode} {label : String} {p q : Prop}

/-- Reports are the same under equivalent conditions. -/
lemma congr {x : Build α} (h : Reports base m label x p) (hpq : p ↔ q) :
    Reports base m label x q := by
  rwa [← hpq]

/-- One step after another. -/
lemma bind {x : Build α} {f : α → Build β} (hx : Reports base m label x p)
    (hf : ∀ a, Reports base m label (f a) q) : Reports base m label (x >>= f) (p ∨ q) where
  settles c := (hx.settles c).trans ((hf (x c).1).settles (x c).2)
  added c hc := by
    obtain ⟨ds, hds, hp⟩ := hx.added c hc
    obtain ⟨es, hes, hq⟩ := (hf (x c).1).added (x c).2 (hc.trans (hx.settles c))
    refine ⟨ds ++ es, ?_, by rw [Array.mem_append, hp, hq]⟩
    show (f (x c).1 (x c).2).2.diagnostics.entries = _
    rw [hes, hds, Array.append_assoc]

/-- A step that changes the automaton only. -/
lemma grow (change : Automaton → α × Automaton) : Reports base m label (fun c : Construction =>
    let (a, automaton) := change c.automaton
    (a, { c with automaton })) False where
  settles c := Settles.refl c.slots
  added c _ := ⟨#[], by simp, by simp⟩

/-- A mere result reports nothing. -/
lemma pure (a : α) : Reports base m label (Pure.pure a : Build α) False :=
  grow fun automaton => (a, automaton)

/-- An epsilon move reports nothing. -/
lemma epsilon (i j : Nat) : Reports base m label (epsilon i j) False :=
  grow fun a => ((), a.addEpsilon i j)

/-- A new fragment reports nothing. -/
lemma newFragment : Reports base m label newFragment False := grow Automaton.newFragment

/-- A fault is a loop just if it says so. -/
lemma report (fault : RegexFault) :
    Reports base m label (report m fault) (fault = .circular label) where
  settles c := Settles.refl c.slots
  added c _ := by
    refine ⟨#[⟨.semanticError, m.position, fault.message⟩], Array.push_eq_append, ?_⟩
    rw [Array.mem_singleton, loopEntry, Diagnostic.mk.injEq, ← RegexFault.message_eq_circular,
      eq_comm (a := fault.message)]
    simp

/-- The fragment of the empty text reports nothing. -/
lemma emptyText : Reports base m label emptyText False :=
  (newFragment.bind fun f => (epsilon f.first f.last).bind fun _ => pure f).congr (by simp)

/-- Something faulty reports its fault. -/
lemma faulty (fault : RegexFault) :
    Reports base m label (faulty m fault) (fault = .circular label) :=
  ((report fault).bind fun _ => emptyText).congr (by simp)

/-- A character list reports no loop. -/
lemma oneOf (l : CharList) : Reports base m label (oneOf m l) False := by
  rw [Build.oneOf]
  split_ifs
  · exact (faulty .emptyCharList).congr (by simp)
  · exact (newFragment.bind fun f =>
      (grow fun a => ((), a.modify f.first _)).bind fun _ => pure f).congr (by simp)

/-- Spelling a text reports nothing. -/
lemma spell (ignoreCase : Bool) (last : Nat) : ∀ (cs : List Char) (i : Nat),
    Reports base m label (spell ignoreCase last i cs) False
  | [], _ => pure ()
  | [_], i => grow fun a => ((), a.modify i _)
  | c :: d :: cs, i => ((grow Automaton.newState).bind fun j =>
      (grow fun a => ((), a.modify i _)).bind fun _ =>
      spell ignoreCase last (d :: cs) j).congr (by simp)

/-- A literal text reports no loop. -/
lemma text (cs : List Char) : Reports base m label (text m cs) False := by
  match cs with
  | [] => exact emptyText
  | [c] => exact oneOf _
  | c :: d :: cs =>
    exact (newFragment.bind fun f => (spell _ _ (c :: d :: cs) f.first).bind fun _ =>
      pure f).congr (by simp)

section

variable {ι : Type} {F : ι → Prop} {x : Build Fragment} {xs : List (Build Fragment)} {ys : List ι}

/-- One or more times reports what the body reports. -/
lemma plus (h : Reports base m label x p) : Reports base m label (plus x) p :=
  (newFragment.bind fun f => h.bind fun g => (epsilon f.first g.first).bind fun _ =>
    (epsilon g.last g.first).bind fun _ => (epsilon g.last f.last).bind fun _ =>
    pure f).congr (by simp)

/-- Any number of times does so too. -/
lemma star (h : Reports base m label x p) : Reports base m label (star x) p :=
  (newFragment.bind fun f => h.bind fun g => (epsilon f.first g.first).bind fun _ =>
    (epsilon f.first f.last).bind fun _ => (epsilon g.last f.last).bind fun _ =>
    (epsilon g.last g.first).bind fun _ => pure f).congr (by simp)

/-- At most once does so too. -/
lemma optional (h : Reports base m label x p) : Reports base m label (optional x) p :=
  (newFragment.bind fun f => h.bind fun g => (epsilon f.first g.first).bind fun _ =>
    (epsilon f.first f.last).bind fun _ => (epsilon g.last f.last).bind fun _ =>
    pure f).congr (by simp)

/-- The alternatives `xs` report what `F` says of the things `ys`, one for each. -/
lemma branches (h : List.Forall₂ (fun x y => Reports base m label x (F y)) xs ys) (f : Fragment) :
    Reports base m label (branches f xs) (∃ y ∈ ys, F y) := by
  induction h with
  | nil => exact (pure ()).congr (by simp)
  | cons hx _ ih =>
    exact (hx.bind fun g => (epsilon f.first g.first).bind fun _ =>
      (epsilon g.last f.last).bind fun _ => ih).congr (by simp)

/-- Any one of several expressions reports what one of them reports. -/
lemma anyOf (h : List.Forall₂ (fun x y => Reports base m label x (F y)) xs ys) :
    Reports base m label (anyOf m xs) (∃ y ∈ ys, F y) := by
  match xs, ys, h with
  | [], [], _ => exact (faulty .emptyChoice).congr (by simp)
  | [x], [y], .cons hx .nil => exact hx.congr (by simp)
  | x :: x' :: xs, y :: y' :: ys, h =>
    exact (newFragment.bind fun f => (branches h f).bind fun _ => pure f).congr (by simp)

/-- A row of fragments reports what one of them reports. -/
lemma chain (h : List.Forall₂ (fun x y => Reports base m label x (F y)) xs ys) : ∀ i : Nat,
    Reports base m label (chain i xs) (∃ y ∈ ys, F y) := by
  induction h with
  | nil => exact fun i => (pure i).congr (by simp)
  | cons hx _ ih =>
    exact fun i => (hx.bind fun g => (epsilon i g.first).bind fun _ => ih g.last).congr (by simp)

/-- Several expressions one after the other report what one of them reports. -/
lemma allOf (h : List.Forall₂ (fun x y => Reports base m label x (F y)) xs ys) :
    Reports base m label (allOf xs) (∃ y ∈ ys, F y) := by
  match xs, ys, h with
  | [], [], _ => exact emptyText.congr (by simp)
  | [x], [y], .cons hx .nil => exact hx.congr (by simp)
  | x :: x' :: xs, y :: y' :: ys, h =>
    exact (newFragment.bind fun f => (chain h f.first).bind fun i => (epsilon i f.last).bind fun _ =>
      pure f).congr (by simp)

/-- The copies of a repetition report what its body reports, if there are any.

**Proof sketch.** The row has at least one copy of the body, unless both bounds are zero. -/
lemma copies (h : Reports base m label x p) (min : Nat) (max : Option Nat) :
    Reports base m label (Build.allOf (copies x min max)) (¬ (min = 0 ∧ max = some 0) ∧ p) := by
  have hreplicate : ∀ {x : Build Fragment} (n : Nat), Reports base m label x p →
      List.Forall₂ (fun x (_ : Unit) => Reports base m label x p) (List.replicate n x)
        (List.replicate n ()) := by
    intro x n hx
    induction n with
    | zero => exact .nil
    | succ n ih => exact .cons hx ih
  cases max with
  | none =>
    refine (allOf (List.rel_append (hreplicate min h) (hreplicate 1 h.star))).congr ?_
    simp
  | some max =>
    refine (allOf (List.rel_append (hreplicate min h)
      (hreplicate (max - min) h.optional))).congr ?_
    simp only [List.replicate_append_replicate, List.mem_replicate, Option.some.injEq]
    have hcount : min + (max - min) ≠ 0 ↔ ¬ (min = 0 ∧ max = 0) := by omega
    simp [← hcount]

end

end Reports

section

variable {base : Array (Option Regex)} {m : BuildMode} {label : String}
  {named : String → Option Nat → Build Fragment} {q : String × Option Nat → Prop}

/-- Something that several expressions enter is entered by one of them. -/
lemma exists_mem_enteredAll {rs : List Regex} :
    (∃ x ∈ Regex.enteredAll rs, q x) ↔ ∃ r ∈ rs, ∃ x ∈ r.entered, q x := by
  simp only [Regex.mem_enteredAll]
  constructor
  · rintro ⟨x, ⟨r, hr, hx⟩, hq⟩
    exact ⟨r, hr, x, hx, hq⟩
  · rintro ⟨r, hr, x, hx, hq⟩
    exact ⟨x, ⟨r, hr, hx⟩, hq⟩

mutual

/-- **The fragment of a normalized expression** reports what the references report that are
followed.

**Proof sketch.** Induction on the expression, with one case for each way of building. -/
lemma reports_buildWith (h : ∀ x, Reports base m label (named x.1 x.2) (q x)) : ∀ r : Regex,
    Reports base m label (buildWith m named r) (∃ x ∈ r.entered, q x)
  | .chars l => by
    rw [buildWith]
    exact (Reports.oneOf l).congr (by simp [Regex.entered])
  | .choice rs => by
    rw [buildWith, Regex.entered]
    exact (Reports.anyOf (reports_buildAllWith h rs)).congr exists_mem_enteredAll.symm
  | .sequence rs => by
    rw [buildWith, Regex.entered]
    exact (Reports.allOf (reports_buildAllWith h rs)).congr exists_mem_enteredAll.symm
  | .oneOrMore r => by
    rw [buildWith, Regex.entered]
    exact (reports_buildWith h r).plus
  | .zeroOrMore r => by
    rw [buildWith, Regex.entered]
    exact (reports_buildWith h r).star
  | .zeroOrOne r => by
    rw [buildWith, Regex.entered]
    exact (reports_buildWith h r).optional
  | .literal s => by
    rw [buildWith]
    exact (Reports.text s.toList).congr (by simp [Regex.entered])
  | .repetition r min max => by
    rw [buildWith]
    refine ((reports_buildWith h r).copies min max).congr ?_
    rw [Regex.entered]
    split_ifs with hzero
    · simp [hzero]
    · simp [hzero]
  | .reference l target => by
    rw [buildWith]
    exact (h (l, target)).congr (by simp [Regex.entered])
  | .endOfInput => by
    rw [buildWith]
    exact (Reports.faulty .innerEndOfInput).congr (by simp [Regex.entered])

/-- The same for a list of expressions. -/
lemma reports_buildAllWith (h : ∀ x, Reports base m label (named x.1 x.2) (q x)) :
    ∀ rs : List Regex, List.Forall₂ (fun x r => Reports base m label x (∃ x ∈ r.entered, q x))
      (buildAllWith m named rs) rs
  | [] => .nil
  | r :: rs => .cons (reports_buildWith h r) (reports_buildAllWith h rs)

end

end

/-! ## Loops that are reported -/

section

variable {first : Array (Option Regex)} {opened : List Nat} {label l : String} {i : Nat}

/-- A reference without a target does not loop. -/
lemma not_loopsAt_none : ¬ LoopsAt first opened label (l, none) := by
  rintro ⟨i, hi, -⟩
  cases hi

/-- A blocked reference loops under its own label. -/
lemma loopsAt_of_blocked (h : Blocked first opened i) :
    LoopsAt first opened label (l, some i) ↔ l = label := by
  constructor
  · rintro ⟨j, hj, ⟨hl, -⟩ | ⟨s, hopened, hs, -⟩⟩
    · exact hl
    · obtain rfl := Option.some.inj hj
      rcases h with h | h
      · exact absurd h hopened
      · rw [h] at hs
        cases hs
  · intro hl
    exact ⟨i, rfl, Or.inl ⟨hl, h⟩⟩

/-- A reference that can be followed loops if the expression in its slot does.

**Proof sketch.** The slot is not blocked, so that only the second way of looping is left, with the slot
as one of the opened ones. -/
lemma loopsAt_of_some {s : Regex} (h : (emptied first opened).getD i none = some s) :
    LoopsAt first opened label (l, some i) ↔ Loops first (i :: opened) s label := by
  have hblocked : ¬ Blocked first opened i := by
    rw [blocked_iff, h]
    exact Option.some_ne_none s
  have hopened : i ∉ opened := fun hi => hblocked (Or.inl hi)
  rw [getD_emptied, if_neg hopened] at h
  constructor
  · rintro ⟨j, hj, ⟨-, hb⟩ | ⟨s', -, hs', hloops⟩⟩
    · obtain rfl := Option.some.inj hj
      exact absurd hb hblocked
    · obtain rfl := Option.some.inj hj
      obtain rfl := Option.some.inj (h.symm.trans hs')
      exact hloops
  · intro hloops
    exact ⟨i, rfl, Or.inr ⟨s, hopened, h, hloops⟩⟩

/-- **The fragment of an expression reports the loops that are met.** The slots `opened` are in use,
and references are followed as deep as there are other full slots.

**Proof sketch.** Induction on the depth. A reference finds its slot empty exactly if the slot is
blocked. Otherwise it finds what was in the slot first, or the normal form of that, which has the
same references; and the slot is in use while it is followed. -/
lemma reports_build (m : BuildMode) (first : Array (Option Regex)) (label : String) :
    ∀ (depth : Nat) (opened : List Nat) (r : Regex),
    ({ slots := emptied first opened } : Construction).fullSlots ≤ depth →
    Reports (emptied first opened) m label (build m depth r) (Loops first opened r label) := by
  have hbuild : ∀ {opened : List Nat} {r : Regex} {named : String → Option Nat → Build Fragment},
      (∀ l, Reports (emptied first opened) m label (named l none) False) →
      (∀ l i, Reports (emptied first opened) m label (named l (some i))
        (LoopsAt first opened label (l, some i))) →
      Reports (emptied first opened) m label (buildWith m named (r.normalize m.ignoreCase true))
        (Loops first opened r label) := by
    intro opened r named hnone hsome
    refine (reports_buildWith (q := LoopsAt first opened label) ?_ _).congr ?_
    · rintro ⟨l, _ | i⟩
      · exact (hnone l).congr (iff_of_false id not_loopsAt_none)
      · exact hsome l i
    · rw [← loops_iff, loops_normalize]
  intro depth
  induction depth with
  | zero =>
    intro opened r hdepth
    rw [build]
    refine hbuild (fun l => Reports.emptyText) fun l i => ?_
    have hblocked : Blocked first opened i :=
      blocked_iff.mpr (Construction.slot_of_fullSlots (Nat.le_zero.mp hdepth) i)
    exact (Reports.faulty (.circular l)).congr (by simp [loopsAt_of_blocked hblocked])
  | succ depth ih =>
    intro opened r hdepth
    rw [build]
    refine hbuild (fun l => Reports.emptyText) fun l i => ⟨settles_buildNamed m depth l _, ?_⟩
    intro c hc
    cases hi : (emptied first opened).getD i none with
    | none =>
      have hfaulty : Reports (emptied first opened) m label (Build.faulty m (.circular l)) _ :=
        Reports.faulty (.circular l)
      obtain ⟨ds, hds, hmem⟩ := hfaulty.added c hc
      rw [buildNamed_of_none (hc.eq_none hi), loopsAt_of_blocked (blocked_iff.mpr hi)]
      exact ⟨ds, hds, by simpa using hmem⟩
    | some s =>
      obtain ⟨r', hr', hsame⟩ : ∃ r', c.slots.getD i none = some r' ∧
          (Loops first (i :: opened) r' label ↔ Loops first (i :: opened) s label) := by
        rcases hc.slot i with hslot | ⟨ignoreCase, hslot⟩
        · exact ⟨s, hslot.trans hi, Iff.rfl⟩
        · rw [hi, Option.map_some] at hslot
          exact ⟨_, hslot, loops_normalize ignoreCase false⟩
      have htake := Construction.fullSlots_take (c := { slots := emptied first opened }) hi
      have hinner : Reports (emptied first (i :: opened)) m label _ _ :=
        ih (i :: opened) r' (Nat.le_of_succ_le_succ (htake.trans_le hdepth))
      obtain ⟨ds, hds, hmem⟩ := hinner.added { c with slots := c.slots.setIfInBounds i none }
        (hc.take i)
      rw [buildNamed_of_some hr', loopsAt_of_some hi, ← hsame]
      exact ⟨ds, hds, hmem⟩

end

/-! ## Building a scanner -/

namespace TokenFragments

/-- The fragment of a token lets the slots settle. -/
lemma settles_fragmentStep (options : Options) (d : TokenDef) (depth : Nat) (c : Construction) :
    Settles c.slots (fragmentStep options d depth c).2.slots :=
  settles_buildNamed _ depth "" (some d.regex) c

/-- **The fragments of several tokens let the slots settle**, also if one of them has no
expression. -/
lemma settles_addAll (options : Options) : ∀ (tokens : List (Nat × TokenDef)) (t : TokenFragments),
    Settles t.construction.slots (slotsLeft (t.addAll options 0 tokens))
  | [], t => Settles.refl _
  | (ordinal, d) :: tokens, t => by
    rw [addAll]
    cases hr : t.construction.slots.getD d.regex none with
    | none =>
      rw [add_of_none hr]
      exact Settles.refl _
    | some r =>
      rw [add_of_some hr]
      exact (settles_fragmentStep options d (t.depthFor d) t.construction).trans
        (settles_addAll options tokens (t.attach ordinal d _))

end TokenFragments

namespace Lexer

section

variable {R : Grammar → Grammar → Prop}

/-- What building each lexical state keeps, building all of them keeps. -/
lemma buildStates_keeps (hrefl : ∀ g, R g g) (htrans : ∀ {g h k}, R g h → R h k → R g k)
    (hstep : ∀ g ctx mode, R g (buildState g ctx mode).2.1) : ∀ (modes : List Nat) (g : Grammar)
    (ctx : Context), R g (buildStates g ctx modes).2.1
  | [], g, _ => hrefl g
  | mode :: modes, g, ctx => by
    have hone := hstep g ctx mode
    rw [buildStates]
    rcases hstate : buildState g ctx mode with ⟨_ | s, g₁, ctx₁⟩
    · rwa [hstate] at hone
    · rw [hstate] at hone
      have hrest := htrans hone (buildStates_keeps hrefl htrans hstep modes g₁ ctx₁)
      dsimp only
      rcases hstates : buildStates g₁ ctx₁ modes with ⟨_ | ss, g₂, ctx₂⟩
      · rwa [hstates] at hrest
      · rwa [hstates] at hrest

/-- **What building a lexical state keeps, building a scanner keeps**, whether it succeeds or
not. -/
lemma build_keeps (hrefl : ∀ g, R g g) (htrans : ∀ {g h k}, R g h → R h k → R g k)
    (hstep : ∀ g ctx mode, R g (buildState g ctx mode).2.1) (g : Grammar) (ctx : Context) :
    R g (build g ctx).2.1 := by
  have hstates := buildStates_keeps hrefl htrans hstep (List.range g.lexicalStates.size) g ctx
  rw [build]
  rcases h : buildStates g ctx (List.range g.lexicalStates.size) with ⟨_ | states, g₁, ctx₁⟩
  · rwa [h] at hstates
  · rwa [h] at hstates

end

/-- Building a lexical state settles the slots. -/
lemma settles_buildState (g : Grammar) (ctx : Context) (mode : Nat) :
    Settles g.regexes (buildState g ctx mode).2.1.regexes := by
  obtain ⟨ds, hds⟩ := buildState_snd g ctx mode
  rw [hds]
  exact TokenFragments.settles_addAll ctx.options _ (TokenFragments.start g.regexes ctx.diagnostics)

/-- **Building a scanner lets the slots settle**, whether it succeeds or not. -/
lemma settles_build (g : Grammar) (ctx : Context) : Settles g.regexes (build g ctx).2.1.regexes := by
  let R := fun g h : Grammar => Settles g.regexes h.regexes
  have hrefl : ∀ g, R g g := fun g => Settles.refl g.regexes
  exact build_keeps hrefl Settles.trans settles_buildState g ctx

end Lexer

/-- **Named references end, and give their slots back.** Whatever refers to what:
* the recursion through references ends: written out more often than there are full slots, it gives
  the fragment, and what stands below it does not matter;
* a slot has something in it afterwards if it had before;
* a loop is reported exactly if a reference is met whose slot is in use or has nothing in it;
* after a scanner has been built, or has not, a slot of the grammar has something in it if it had
  before.

**Proof sketch.** The recursion is deep enough when it has a step for every full slot, since each
reference that is followed empties one. Slots are put back in normal form, and a reference is reported
when it meets an empty slot. -/
theorem construct_gives_slots_back (m : BuildMode) (r : Regex) (c : Construction) (g : Grammar)
    (ctx : Context) :
    (∀ inner n, unrolled m inner (c.fullSlots + 1 + n) r c =
      ((construct m r c).1.1, (construct m r c).2)) ∧
    ((construct m r c).2.slots.size = c.slots.size ∧
      ∀ i, ((construct m r c).2.slots.getD i none).isSome = (c.slots.getD i none).isSome) ∧
    (∃ added, (construct m r c).2.diagnostics.entries = c.diagnostics.entries ++ added ∧
      ∀ label, ⟨.semanticError, m.position, (RegexFault.circular label).message⟩ ∈ added ↔
        ∃ opened i, Meets c.slots [] r opened label i ∧
          (i ∈ opened ∨ c.slots.getD i none = none)) ∧
    ((Lexer.build g ctx).2.1.regexes.size = g.regexes.size ∧
      ∀ i, ((Lexer.build g ctx).2.1.regexes.getD i none).isSome =
        (g.regexes.getD i none).isSome) := by
  have hslots : Settles c.slots (construct m r c).2.slots := (replays_build m c.fullSlots r).settles c
  have hgrammar := Lexer.settles_build g ctx
  refine ⟨fun inner n => ?_, ⟨hslots.size, hslots.isSome_eq⟩, ?_, hgrammar.size, hgrammar.isSome_eq⟩
  · exact unrolled_eq_build m inner _ c.fullSlots r c (by omega) le_rfl
  · have hreports := fun label => (reports_build m c.slots label c.fullSlots [] r le_rfl).added c
      (Settles.refl c.slots)
    obtain ⟨added, hadded, -⟩ := hreports ""
    refine ⟨added, hadded, fun label => ?_⟩
    obtain ⟨ds, hds, hmem⟩ := hreports label
    obtain rfl := (Array.append_right_inj _).mp (hadded.symm.trans hds)
    exact hmem

end GrammarForge
