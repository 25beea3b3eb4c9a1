import GrammarForge.Proofs.NormalForm
import GrammarForge.Proofs.TokenAutomaton

set_option autoImplicit false

/-!
# Two constructions side by side

Two runs of a construction are compared step by step. Whatever relation between steps is kept by
putting steps together, and holds of the steps that touch the automaton, holds of the fragments of
two expressions that are alike; only what references do is left open.

## Main definitions

* `Regex.Alike` — expressions that differ in their character lists only.
* `CarriedByBuilding` — relations between steps that are kept by putting steps together.
* `KeptByBuilding` — such relations for steps with the same results.

## Main results

* `Regex.Alike.normalize` — alike expressions have alike normal forms.
* `CarriedByBuilding.buildWith`, `KeptByBuilding.buildWith` — the fragments of alike expressions.
-/

namespace GrammarForge

open Build

/-! ## Alike expressions -/

namespace Regex

/-- **Expressions that differ in their character lists only**, which are related by `same`. -/
inductive Alike (same : CharList → CharList → Prop) : Regex → Regex → Prop
  | chars {l l' : CharList} : same l l' → Alike same (.chars l) (.chars l')
  | choice {rs rs' : List Regex} : List.Forall₂ (Alike same) rs rs' →
      Alike same (.choice rs) (.choice rs')
  | sequence {rs rs' : List Regex} : List.Forall₂ (Alike same) rs rs' →
      Alike same (.sequence rs) (.sequence rs')
  | oneOrMore {r r' : Regex} : Alike same r r' → Alike same (.oneOrMore r) (.oneOrMore r')
  | zeroOrMore {r r' : Regex} : Alike same r r' → Alike same (.zeroOrMore r) (.zeroOrMore r')
  | zeroOrOne {r r' : Regex} : Alike same r r' → Alike same (.zeroOrOne r) (.zeroOrOne r')
  | literal (image : String) : Alike same (.literal image) (.literal image)
  | repetition {r r' : Regex} (min : Nat) (max : Option Nat) : Alike same r r' →
      Alike same (.repetition r min max) (.repetition r' min max)
  | reference (label : String) (target : Option Nat) :
      Alike same (.reference label target) (.reference label target)
  | endOfInput : Alike same .endOfInput .endOfInput

namespace Alike

variable {same : CharList → CharList → Prop}

mutual

/-- An expression is like itself. -/
lemma refl (hsame : ∀ l, same l l) : ∀ r : Regex, Alike same r r
  | .chars l => .chars (hsame l)
  | .choice rs => .choice (reflAll hsame rs)
  | .sequence rs => .sequence (reflAll hsame rs)
  | .oneOrMore r => .oneOrMore (refl hsame r)
  | .zeroOrMore r => .zeroOrMore (refl hsame r)
  | .zeroOrOne r => .zeroOrOne (refl hsame r)
  | .literal s => .literal s
  | .repetition r min max => .repetition min max (refl hsame r)
  | .reference label target => .reference label target
  | .endOfInput => .endOfInput

/-- Expressions are like themselves. -/
lemma reflAll (hsame : ∀ l, same l l) : ∀ rs : List Regex, List.Forall₂ (Alike same) rs rs
  | [] => .nil
  | r :: rs => .cons (refl hsame r) (reflAll hsame rs)

end

/-- Alike expressions match single characters by lists, or do not, both. -/
lemma isCharList_eq {r r' : Regex} (h : Alike same r r') : r'.isCharList = r.isCharList := by
  cases h <;> rfl

/-- Like choices have like alternatives. -/
lemma splice {r r' : Regex} (h : Alike same r r') :
    List.Forall₂ (Alike same) r.splice r'.splice := by
  cases h with
  | choice h => exact h
  | chars h => exact .cons (.chars h) .nil
  | sequence h => exact .cons (.sequence h) .nil
  | oneOrMore h => exact .cons (.oneOrMore h) .nil
  | zeroOrMore h => exact .cons (.zeroOrMore h) .nil
  | zeroOrOne h => exact .cons (.zeroOrOne h) .nil
  | literal s => exact .cons (.literal s) .nil
  | repetition min max h => exact .cons (.repetition min max h) .nil
  | reference label target => exact .cons (.reference label target) .nil
  | endOfInput => exact .cons .endOfInput .nil

end Alike

/-- Expressions that differ in their character lists only, in any way. -/
abbrev SameShape : Regex → Regex → Prop := Alike fun _ _ => True

namespace SameShape

/-- Merged lists are in the same place of alike alternatives. -/
lemma placeMerged {rs rs' : List Regex} (h : List.Forall₂ SameShape rs rs')
    (merged merged' : CharList) :
    List.Forall₂ SameShape (placeMerged merged rs) (placeMerged merged' rs') := by
  induction h with
  | nil => exact .nil
  | @cons r r' rs rs' hr hrs ih =>
    rw [Regex.placeMerged, Regex.placeMerged, hr.isCharList_eq]
    split_ifs
    · refine .cons (.chars trivial) (List.rel_filter (fun x y hxy => ?_) hrs)
      show (!x.isCharList) = true ↔ (!y.isCharList) = true
      rw [hxy.isCharList_eq]
    · exact .cons hr ih

/-- Merging the lists of expressions of the same shapes leaves expressions of the same shapes.

**Proof sketch.** Both have a character list among them or neither has one. If so, the merged lists take
the place of the first ones, and the other expressions are paired as before. -/
lemma mergeCharLists {rs rs' : List Regex} (h : List.Forall₂ SameShape rs rs')
    (ignoreCase ignoreCase' : Bool) : List.Forall₂ SameShape
      (mergeCharLists ignoreCase rs) (mergeCharLists ignoreCase' rs') := by
  have hany : ∀ {rs rs' : List Regex}, List.Forall₂ SameShape rs rs' →
      ((∃ r ∈ rs', r.isCharList) ↔ ∃ r ∈ rs, r.isCharList) := by
    intro rs rs' h
    induction h with
    | nil => simp
    | cons hr _ ih => rw [List.exists_mem_cons_iff, List.exists_mem_cons_iff, ih, hr.isCharList_eq]
  by_cases hrs : ∃ r ∈ rs, r.isCharList
  · obtain ⟨merged, -, -, heq⟩ := mergeCharLists_of_some ignoreCase hrs
    obtain ⟨merged', -, -, heq'⟩ := mergeCharLists_of_some ignoreCase' ((hany h).mpr hrs)
    rw [heq, heq']
    exact placeMerged h merged merged'
  · have hrs' := (hany h).not.mpr hrs
    rw [mergeCharLists_of_none fun r hr hc => hrs ⟨r, hr, hc⟩,
      mergeCharLists_of_none fun r hr hc => hrs' ⟨r, hr, hc⟩]
    exact h

mutual

/-- **Expressions of the same shape have normal forms of the same shape**, whether letter case is
ignored in them or not.

**Proof sketch.** Induction on the shape that both share. -/
lemma normalize (ignoreCase ignoreCase' copies : Bool) : ∀ {r r' : Regex}, SameShape r r' →
    SameShape (r.normalize ignoreCase copies) (r'.normalize ignoreCase' copies)
  | .chars _, _, .chars _ => by
    rw [Regex.normalize, Regex.normalize]
    exact .chars trivial
  | .choice rs, _, .choice h => by
    have hall : List.Forall₂ SameShape (Regex.normalizeAll ignoreCase copies rs) _ :=
      normalizeAll ignoreCase ignoreCase' copies h
    rw [Regex.normalize, Regex.normalize]
    exact .choice (mergeCharLists (List.rel_flatMap hall fun _ _ hr => hr.splice) _ _)
  | .sequence rs, _, .sequence h => by
    rw [Regex.normalize, Regex.normalize]
    exact .sequence (normalizeAll ignoreCase ignoreCase' copies h)
  | .oneOrMore r, _, .oneOrMore h => by
    rw [Regex.normalize, Regex.normalize]
    exact .oneOrMore (normalize ignoreCase ignoreCase' copies h)
  | .zeroOrMore r, _, .zeroOrMore h => by
    rw [Regex.normalize, Regex.normalize]
    exact .zeroOrMore (normalize ignoreCase ignoreCase' copies h)
  | .zeroOrOne r, _, .zeroOrOne h => by
    rw [Regex.normalize, Regex.normalize]
    exact .zeroOrOne (normalize ignoreCase ignoreCase' copies h)
  | .literal s, _, .literal _ => by
    rw [Regex.normalize, Regex.normalize]
    exact .literal s
  | .repetition r min max, _, .repetition _ _ h => by
    rw [Regex.normalize, Regex.normalize]
    refine .repetition min max ?_
    split_ifs
    · exact normalize ignoreCase ignoreCase' copies h
    · exact h
  | .reference label target, _, .reference _ _ => by
    rw [Regex.normalize, Regex.normalize]
    exact .reference label target
  | .endOfInput, _, .endOfInput => by
    rw [Regex.normalize, Regex.normalize]
    exact .endOfInput

/-- The same for lists of expressions. -/
lemma normalizeAll (ignoreCase ignoreCase' copies : Bool) : ∀ {rs rs' : List Regex},
    List.Forall₂ SameShape rs rs' → List.Forall₂ SameShape
      (Regex.normalizeAll ignoreCase copies rs) (Regex.normalizeAll ignoreCase' copies rs')
  | [], _, .nil => .nil
  | _ :: _, _, .cons h hs => .cons (normalize ignoreCase ignoreCase' copies h)
      (normalizeAll ignoreCase ignoreCase' copies hs)

end

end SameShape

end Regex

/-! ## Relations between steps -/

/-- The ends of two fragments are related by `ok`. -/
def Fragment.BothEnds (ok : Nat → Nat → Prop) (f f' : Fragment) : Prop :=
  ok f.first f'.first ∧ ok f.last f'.last

/-- **A relation between steps that is kept by putting steps together.** It comes with a relation
between the results. Places in the two automata that are handed on are related by `ok`; the two
constructions go by the modes `m` and `m'`, and read character lists that are related by `same`. -/
structure CarriedByBuilding (R : (α : Type) → (α → α → Prop) → Build α → Build α → Prop)
    (ok : Nat → Nat → Prop) (same : CharList → CharList → Prop) (m m' : BuildMode) : Prop where
  done : R Unit (fun _ _ => True) (pure ()) (pure ())
  place : ∀ {i i' : Nat}, ok i i' → R Nat ok (pure i) (pure i')
  fragment : ∀ {f f' : Fragment}, f.BothEnds ok f' →
    R Fragment (Fragment.BothEnds ok) (pure f) (pure f')
  bind : ∀ {α β : Type} {P : α → α → Prop} {Q : β → β → Prop} {x y : Build α} {f g : α → Build β},
    R α P x y → (∀ a a', P a a' → R β Q (f a) (g a')) → R β Q (x >>= f) (y >>= g)
  newState : R Nat ok newState newState
  newFragment : R Fragment (Fragment.BothEnds ok) newFragment newFragment
  epsilon : ∀ {i i' j j' : Nat}, ok i i' → ok j j' →
    R Unit (fun _ _ => True) (epsilon i j) (epsilon i' j')
  link : ∀ {i i' : Nat} (c : Char) {j j' : Nat}, ok i i' → ok j j' → R Unit (fun _ _ => True)
    (spell.link m.ignoreCase i c j) (spell.link m'.ignoreCase i' c j')
  report : ∀ fault, R Unit (fun _ _ => True) (report m fault) (report m' fault)
  oneOf : ∀ {l l' : CharList}, same l l' →
    R Fragment (Fragment.BothEnds ok) (oneOf m l) (oneOf m' l')
  single : ∀ c, same ((CharList.ofItems [.single c]).normalize m.ignoreCase)
    ((CharList.ofItems [.single c]).normalize m'.ignoreCase)

namespace CarriedByBuilding

variable {R : (α : Type) → (α → α → Prop) → Build α → Build α → Prop} {ok : Nat → Nat → Prop}
  {same : CharList → CharList → Prop} {m m' : BuildMode}

/-- The fragment of the empty text. -/
lemma emptyText (hR : CarriedByBuilding R ok same m m') :
    R Fragment (Fragment.BothEnds ok) emptyText emptyText :=
  hR.bind hR.newFragment fun _ _ hf => hR.bind (hR.epsilon hf.1 hf.2) fun _ _ _ => hR.fragment hf

/-- The fragment of something faulty. -/
lemma faulty (hR : CarriedByBuilding R ok same m m') (fault : RegexFault) :
    R Fragment (Fragment.BothEnds ok) (faulty m fault) (faulty m' fault) :=
  hR.bind (hR.report fault) fun _ _ _ => hR.emptyText

/-- A text that is spelled from corresponding places to corresponding ones. -/
lemma spell (hR : CarriedByBuilding R ok same m m') {last last' : Nat} (hlast : ok last last') :
    ∀ (cs : List Char) {i i' : Nat}, ok i i' → R Unit (fun _ _ => True)
      (spell m.ignoreCase last i cs) (spell m'.ignoreCase last' i' cs)
  | [], _, _, _ => hR.done
  | [c], _, _, hi => hR.link c hi hlast
  | c :: d :: cs, _, _, hi => hR.bind hR.newState fun _ _ hj =>
      hR.bind (hR.link c hi hj) fun _ _ _ => spell hR hlast (d :: cs) hj

/-- The fragment of a literal. -/
lemma text (hR : CarriedByBuilding R ok same m m') (cs : List Char) :
    R Fragment (Fragment.BothEnds ok) (text m cs) (text m' cs) := by
  match cs with
  | [] => exact hR.emptyText
  | [c] => exact hR.oneOf (hR.single c)
  | c :: d :: cs =>
    exact hR.bind hR.newFragment fun _ _ hf =>
      hR.bind (hR.spell hf.2 (c :: d :: cs) hf.1) fun _ _ _ => hR.fragment hf

section

variable {b b' : Build Fragment} {bs bs' : List (Build Fragment)}

/-- One or more times. -/
lemma plus (hR : CarriedByBuilding R ok same m m') (h : R Fragment (Fragment.BothEnds ok) b b') :
    R Fragment (Fragment.BothEnds ok) (plus b) (plus b') :=
  hR.bind hR.newFragment fun _ _ hf => hR.bind h fun _ _ hg =>
    hR.bind (hR.epsilon hf.1 hg.1) fun _ _ _ => hR.bind (hR.epsilon hg.2 hg.1) fun _ _ _ =>
    hR.bind (hR.epsilon hg.2 hf.2) fun _ _ _ => hR.fragment hf

/-- Any number of times. -/
lemma star (hR : CarriedByBuilding R ok same m m') (h : R Fragment (Fragment.BothEnds ok) b b') :
    R Fragment (Fragment.BothEnds ok) (star b) (star b') :=
  hR.bind hR.newFragment fun _ _ hf => hR.bind h fun _ _ hg =>
    hR.bind (hR.epsilon hf.1 hg.1) fun _ _ _ => hR.bind (hR.epsilon hf.1 hf.2) fun _ _ _ =>
    hR.bind (hR.epsilon hg.2 hf.2) fun _ _ _ => hR.bind (hR.epsilon hg.2 hg.1) fun _ _ _ =>
    hR.fragment hf

/-- At most once. -/
lemma optional (hR : CarriedByBuilding R ok same m m')
    (h : R Fragment (Fragment.BothEnds ok) b b') :
    R Fragment (Fragment.BothEnds ok) (optional b) (optional b') :=
  hR.bind hR.newFragment fun _ _ hf => hR.bind h fun _ _ hg =>
    hR.bind (hR.epsilon hf.1 hg.1) fun _ _ _ => hR.bind (hR.epsilon hf.1 hf.2) fun _ _ _ =>
    hR.bind (hR.epsilon hg.2 hf.2) fun _ _ _ => hR.fragment hf

/-- Alternatives within a fragment. -/
lemma branches (hR : CarriedByBuilding R ok same m m') {f f' : Fragment} (hf : f.BothEnds ok f')
    (h : List.Forall₂ (R Fragment (Fragment.BothEnds ok)) bs bs') :
    R Unit (fun _ _ => True) (branches f bs) (branches f' bs') := by
  induction h with
  | nil => exact hR.done
  | cons hb _ ih =>
    exact hR.bind hb fun _ _ hg => hR.bind (hR.epsilon hf.1 hg.1) fun _ _ _ =>
      hR.bind (hR.epsilon hg.2 hf.2) fun _ _ _ => ih

/-- Any one of several fragments. -/
lemma anyOf (hR : CarriedByBuilding R ok same m m')
    (h : List.Forall₂ (R Fragment (Fragment.BothEnds ok)) bs bs') :
    R Fragment (Fragment.BothEnds ok) (anyOf m bs) (anyOf m' bs') := by
  match bs, bs', h with
  | [], [], _ => exact hR.faulty .emptyChoice
  | [b], [b'], .cons hb .nil => exact hb
  | b :: c :: bs, b' :: c' :: bs', h =>
    exact hR.bind hR.newFragment fun _ _ hf => hR.bind (hR.branches hf h) fun _ _ _ =>
      hR.fragment hf

/-- Fragments in a row, from corresponding places. -/
lemma chain (hR : CarriedByBuilding R ok same m m')
    (h : List.Forall₂ (R Fragment (Fragment.BothEnds ok)) bs bs') : ∀ {i i' : Nat}, ok i i' →
    R Nat ok (chain i bs) (chain i' bs') := by
  induction h with
  | nil => exact fun hi => hR.place hi
  | cons hb _ ih =>
    exact fun hi => hR.bind hb fun _ _ hg => hR.bind (hR.epsilon hi hg.1) fun _ _ _ => ih hg.2

/-- Several fragments one after the other. -/
lemma allOf (hR : CarriedByBuilding R ok same m m')
    (h : List.Forall₂ (R Fragment (Fragment.BothEnds ok)) bs bs') :
    R Fragment (Fragment.BothEnds ok) (allOf bs) (allOf bs') := by
  match bs, bs', h with
  | [], [], _ => exact hR.emptyText
  | [b], [b'], .cons hb .nil => exact hb
  | b :: c :: bs, b' :: c' :: bs', h =>
    exact hR.bind hR.newFragment fun _ _ hf => hR.bind (hR.chain h hf.1) fun _ _ hi =>
      hR.bind (hR.epsilon hi hf.2) fun _ _ _ => hR.fragment hf

/-- The copies of a counted repetition. -/
lemma copies (hR : CarriedByBuilding R ok same m m') (h : R Fragment (Fragment.BothEnds ok) b b')
    (min : Nat) (max : Option Nat) : List.Forall₂ (R Fragment (Fragment.BothEnds ok))
      (copies b min max) (copies b' min max) := by
  have hreplicate : ∀ {c c' : Build Fragment} (n : Nat), R Fragment (Fragment.BothEnds ok) c c' →
      List.Forall₂ (R Fragment (Fragment.BothEnds ok)) (List.replicate n c)
        (List.replicate n c') := by
    intro c c' n hc
    induction n with
    | zero => exact .nil
    | succ n ih => exact .cons hc ih
  cases max with
  | none => exact List.rel_append (hreplicate min h) (.cons (hR.star h) .nil)
  | some max => exact List.rel_append (hreplicate min h) (hreplicate (max - min) (hR.optional h))

end

variable {named named' : String → Option Nat → Build Fragment}

mutual

/-- **The fragments of alike expressions** are related, if those of their references are.

**Proof sketch.** Induction on what both expressions have in common, with one case for each way of
building. -/
lemma buildWith (hR : CarriedByBuilding R ok same m m') : ∀ {r r' : Regex}, r.Alike same r' →
    (∀ x ∈ r.references, R Fragment (Fragment.BothEnds ok) (named x.1 x.2) (named' x.1 x.2)) →
    R Fragment (Fragment.BothEnds ok) (buildWith m named r) (buildWith m' named' r')
  | .chars _, _, .chars h, _ => by
    rw [GrammarForge.buildWith, GrammarForge.buildWith]
    exact hR.oneOf h
  | .choice rs, _, .choice h, hnamed => by
    rw [GrammarForge.buildWith, GrammarForge.buildWith]
    exact hR.anyOf (buildAllWith hR h hnamed)
  | .sequence rs, _, .sequence h, hnamed => by
    rw [GrammarForge.buildWith, GrammarForge.buildWith]
    exact hR.allOf (buildAllWith hR h hnamed)
  | .oneOrMore r, _, .oneOrMore h, hnamed => by
    rw [GrammarForge.buildWith, GrammarForge.buildWith]
    exact hR.plus (buildWith hR h hnamed)
  | .zeroOrMore r, _, .zeroOrMore h, hnamed => by
    rw [GrammarForge.buildWith, GrammarForge.buildWith]
    exact hR.star (buildWith hR h hnamed)
  | .zeroOrOne r, _, .zeroOrOne h, hnamed => by
    rw [GrammarForge.buildWith, GrammarForge.buildWith]
    exact hR.optional (buildWith hR h hnamed)
  | .literal s, _, .literal _, _ => by
    rw [GrammarForge.buildWith, GrammarForge.buildWith]
    exact hR.text s.toList
  | .repetition r min max, _, .repetition _ _ h, hnamed => by
    rw [GrammarForge.buildWith, GrammarForge.buildWith]
    exact hR.allOf (hR.copies (buildWith hR h hnamed) min max)
  | .reference label target, _, .reference _ _, hnamed => by
    rw [GrammarForge.buildWith, GrammarForge.buildWith]
    exact hnamed (label, target) (by simp [Regex.references])
  | .endOfInput, _, .endOfInput, _ => by
    rw [GrammarForge.buildWith, GrammarForge.buildWith]
    exact hR.faulty .innerEndOfInput

/-- The same for lists of expressions. -/
lemma buildAllWith (hR : CarriedByBuilding R ok same m m') : ∀ {rs rs' : List Regex},
    List.Forall₂ (Regex.Alike same) rs rs' →
    (∀ x ∈ Regex.referencesAll rs,
      R Fragment (Fragment.BothEnds ok) (named x.1 x.2) (named' x.1 x.2)) →
    List.Forall₂ (R Fragment (Fragment.BothEnds ok))
      (buildAllWith m named rs) (buildAllWith m' named' rs')
  | [], _, .nil, _ => .nil
  | r :: rs, _, .cons h hs, hnamed => by
    rw [Regex.referencesAll, List.forall_mem_append] at hnamed
    exact .cons (buildWith hR h hnamed.1) (buildAllWith hR hs hnamed.2)

end

end CarriedByBuilding

/-! ## Steps with the same results -/

/-- Both ends of a fragment satisfy `ok`. -/
def Fragment.Ends (ok : Nat → Prop) (f : Fragment) : Prop := ok f.first ∧ ok f.last

/-- **A relation between steps that is kept by putting steps together.** It comes with a property of
the results. Places in the automaton that are handed on satisfy `ok`; the two constructions go by
the modes `m` and `m'`, and read character lists that are related by `same`. -/
structure KeptByBuilding (R : (α : Type) → (α → Prop) → Build α → Build α → Prop)
    (ok : Nat → Prop) (same : CharList → CharList → Prop) (m m' : BuildMode) : Prop where
  pure : ∀ {α : Type} {P : α → Prop} {a : α}, P a → R α P (Pure.pure a) (Pure.pure a)
  bind : ∀ {α β : Type} {P : α → Prop} {Q : β → Prop} {x y : Build α} {f g : α → Build β},
    R α P x y → (∀ a, P a → R β Q (f a) (g a)) → R β Q (x >>= f) (y >>= g)
  newState : R Nat ok newState newState
  newFragment : R Fragment (Fragment.Ends ok) newFragment newFragment
  epsilon : ∀ (i : Nat) {j : Nat}, ok j → R Unit (fun _ => True) (epsilon i j) (epsilon i j)
  link : ∀ (i : Nat) (c : Char) {j : Nat}, ok j → R Unit (fun _ => True)
    (spell.link m.ignoreCase i c j) (spell.link m'.ignoreCase i c j)
  report : ∀ fault, R Unit (fun _ => True) (report m fault) (report m' fault)
  oneOf : ∀ {l l' : CharList}, same l l' → R Fragment (Fragment.Ends ok) (oneOf m l) (oneOf m' l')
  single : ∀ c, same ((CharList.ofItems [.single c]).normalize m.ignoreCase)
    ((CharList.ofItems [.single c]).normalize m'.ignoreCase)

namespace KeptByBuilding

variable {R : (α : Type) → (α → Prop) → Build α → Build α → Prop} {ok : Nat → Prop}
  {same : CharList → CharList → Prop} {m m' : BuildMode}

/-- The same place twice, which satisfies `ok`. -/
def Twice (ok : Nat → Prop) (i i' : Nat) : Prop := i = i' ∧ ok i

/-- A place that corresponds to itself. -/
lemma twice_self (ok : Nat → Prop) : (fun i => Twice ok i i) = ok :=
  funext fun _ => propext (and_iff_right rfl)

/-- A fragment whose ends correspond to themselves. -/
lemma bothEnds_self (ok : Nat → Prop) :
    (fun f => Fragment.BothEnds (Twice ok) f f) = Fragment.Ends ok :=
  funext fun _ => propext (and_congr (and_iff_right rfl) (and_iff_right rfl))

/-- Fragments with the same ends are the same. -/
lemma eq_of_bothEnds {f f' : Fragment} (h : f.BothEnds (Twice ok) f') : f' = f := by
  obtain ⟨⟨hfirst, -⟩, hlast, -⟩ := h
  cases f
  cases f'
  cases hfirst
  cases hlast
  rfl

/-- **Steps with the same results** are a special case.

**Proof sketch.** Each building step of the special case is one of the general case, where results that
are equal take the place of corresponding ones. -/
lemma carried (hR : KeptByBuilding R ok same m m') :
    CarriedByBuilding (fun α P x y => R α (fun a => P a a) x y) (Twice ok) same m m' where
  done := hR.pure trivial
  place := by
    rintro i _ ⟨rfl, hi⟩
    exact hR.pure ⟨rfl, hi⟩
  fragment := by
    intro f f' hf
    obtain rfl := eq_of_bothEnds hf
    exact hR.pure hf
  bind hx hf := hR.bind hx fun a ha => hf a a ha
  newState := by
    rw [twice_self]
    exact hR.newState
  newFragment := by
    rw [bothEnds_self]
    exact hR.newFragment
  epsilon := by
    rintro i _ j _ ⟨rfl, -⟩ ⟨rfl, hj⟩
    exact hR.epsilon i hj
  link := by
    rintro i _ c j _ ⟨rfl, -⟩ ⟨rfl, hj⟩
    exact hR.link i c hj
  report := hR.report
  oneOf h := by
    rw [bothEnds_self]
    exact hR.oneOf h
  single := hR.single

/-- The fragment of the empty text is kept. -/
lemma emptyText (hR : KeptByBuilding R ok same m m') :
    R Fragment (Fragment.Ends ok) emptyText emptyText := by
  rw [← bothEnds_self]
  exact hR.carried.emptyText

/-- The fragment of something faulty is kept. -/
lemma faulty (hR : KeptByBuilding R ok same m m') (fault : RegexFault) :
    R Fragment (Fragment.Ends ok) (faulty m fault) (faulty m' fault) := by
  rw [← bothEnds_self]
  exact hR.carried.faulty fault

/-- **The fragments of alike expressions** are related, if those of their references are. -/
lemma buildWith (hR : KeptByBuilding R ok same m m')
    {named named' : String → Option Nat → Build Fragment} {r r' : Regex} (h : r.Alike same r')
    (hnamed : ∀ x ∈ r.references,
      R Fragment (Fragment.Ends ok) (named x.1 x.2) (named' x.1 x.2)) :
    R Fragment (Fragment.Ends ok) (buildWith m named r) (buildWith m' named' r') := by
  rw [← bothEnds_self] at hnamed ⊢
  exact hR.carried.buildWith h hnamed

end KeptByBuilding

/-! ## Slots -/

/-- A full slot is one of the slots. -/
lemma lt_size_of_slot {s : Array (Option Regex)} {i : Nat} {r : Regex}
    (h : s.getD i none = some r) : i < s.size := by
  by_contra hi
  rw [Array.getD_eq_getD_getElem?, Array.getElem?_eq_none (Nat.le_of_not_lt hi)] at h
  cases h

/-- The number of full slots depends on which slots are full only.

**Proof sketch.** The slots of both are full in the same places, which is one row of truth values; and
counting is done on this row. -/
lemma Construction.fullSlots_congr {c c' : Construction} (hsize : c'.slots.size = c.slots.size)
    (hfull : ∀ i, (c'.slots.getD i none).isSome = (c.slots.getD i none).isSome) :
    c'.fullSlots = c.fullSlots := by
  have hmap : c'.slots.map Option.isSome = c.slots.map Option.isSome := by
    refine Array.ext (by simpa using hsize) fun i hi hi' => ?_
    rw [Array.size_map] at hi hi'
    have h := hfull i
    rw [Array.getD_eq_getD_getElem?, Array.getD_eq_getD_getElem?, Array.getElem?_eq_getElem hi,
      Array.getElem?_eq_getElem hi'] at h
    simpa using h
  have hcount : ∀ c : Construction, c.fullSlots = (c.slots.map Option.isSome).countP id := by
    intro c
    rw [Array.countP_map]
    rfl
  rw [hcount, hcount, hmap]

/-! ## Tokens -/

namespace TokenFragments

/-- The automaton of a lexical state before the first fragment: one state. -/
def start (slots : Array (Option Regex)) (ds : Diagnostics) : TokenFragments :=
  ⟨⟨({} : Automaton).newState.2, slots, ds⟩, [], []⟩

/-- How the expression of a token is read. -/
def modeFor (options : Options) (d : TokenDef) : BuildMode :=
  ⟨d.ignoreCase || options.ignoreCase, d.position⟩

/-- How deep references are followed below the expression of a token. -/
def depthFor (t : TokenFragments) (d : TokenDef) : Nat :=
  ({ t.construction with slots := t.construction.slots.setIfInBounds d.regex none } :
    Construction).fullSlots

/-- The step that builds the fragment of a token. The expression is taken out of its slot and put
back in normal form, as that of a reference is. -/
def fragmentStep (options : Options) (d : TokenDef) (depth : Nat) : Build Fragment :=
  buildNamed (modeFor options d) (build (modeFor options d) depth) "" (some d.regex)

/-- The fragments with one more, which has just been built. -/
def attach (t : TokenFragments) (ordinal : Nat) (d : TokenDef) (built : Fragment × Construction) :
    TokenFragments where
  construction := { built.2 with automaton := Begins.withToken built.2.automaton built.1 ordinal }
  starts := t.starts ++ [(ordinal, built.1.first)]
  actions := t.actions ++ [d.action]

variable {options : Options} {t : TokenFragments} {ordinal : Nat} {d : TokenDef}

/-- Without its expression a token is not added. -/
lemma add_of_none (h : t.construction.slots.getD d.regex none = none) :
    t.add options 0 ordinal d = .error t.construction := by
  rw [add, takeSlot_eq_none h]

/-- With its expression a token is added with the fragment of this expression. -/
lemma add_of_some {r : Regex} (h : t.construction.slots.getD d.regex none = some r) :
    t.add options 0 ordinal d =
      .ok (t.attach ordinal d (fragmentStep options d (t.depthFor d) t.construction)) := by
  rw [add, takeSlot_eq_some h, fragmentStep, buildNamed_of_some h]
  rfl

end TokenFragments

end GrammarForge
