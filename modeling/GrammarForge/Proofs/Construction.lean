import GrammarForge.Proofs.Fragments

set_option autoImplicit false

/-!
# Automata from regular expressions realize their languages

Each step of a construction adds a fragment for a language, unless it reports an error. The
slots of named expressions keep an invariant meanwhile: whatever a slot holds has the language of
the expression that was in it first.

## Main definitions

* `Builds` — a step of a construction adds a fragment for a language, or reports an error.
* `SlotsMean` — the slots hold expressions of the right languages.

## Main results

* `Builds.anyOf`, `Builds.allOf`, `Builds.star` and the like — one for each construct.
* `builds_buildWith` — the fragment of a normalized expression.
* `builds_build` — the fragment of an expression, with references taken from the slots.
* `reads_construct` — the texts read along the fragment of an expression.
-/

namespace GrammarForge

open Computability Automaton Build

/-- The number of semantic errors reported so far. -/
def Construction.errors (c : Construction) : Nat := c.diagnostics.errorCount

namespace MoveTable

variable {t : MoveTable}

/-- Adding the characters of an item keeps a table in order. -/
lemma InOrder.addItem (h : t.InOrder) (item : CharItem) : (Build.addItem t item).InOrder := by
  cases item with
  | single c => exact h.addChar c
  | range lo hi => exact h.addRange lo hi

/-- Adding an item adds the characters that it covers. -/
lemma has_addItem {item : CharItem} {c : Char} :
    (Build.addItem t item).has c ↔ t.has c ∨ item.covers c := by
  cases item with
  | single d =>
    rw [Build.addItem, has_addChar, Bool.or_eq_true, decide_eq_true_eq, CharItem.covers_iff,
      CharItem.bounds, ← Char.toNat_inj]
    refine or_congr_right ?_
    simp only
    omega
  | range lo hi =>
    rw [Build.addItem, has_addRange, Bool.or_eq_true, Bool.and_eq_true, decide_eq_true_eq,
      decide_eq_true_eq, CharItem.covers_iff]
    rfl

/-- Adding a character, with its other spellings if letter case is ignored, keeps a table in order. -/
lemma InOrder.charMoves (h : t.InOrder) (ignoreCase : Bool) (c : Char) :
    (Build.charMoves ignoreCase t c).InOrder := by
  unfold Build.charMoves
  split_ifs
  · exact (h.addChar c).foldl_addChar _
  · exact h.addChar c

/-- The moves of an empty state that is to read a character. -/
lemma has_charMoves (ignoreCase : Bool) (c d : Char) :
    (Build.charMoves ignoreCase {} c).has d ↔ CharList.SameLetter ignoreCase c d := by
  cases ignoreCase with
  | false => simp [Build.charMoves, CharList.SameLetter, has_addChar]
  | true => simp [Build.charMoves, CharList.SameLetter, has_addChar, has_foldl_addChar]

end MoveTable

/-- **A step that adds a fragment for `L`**, unless it reports an error. It keeps the property
`ok` of the slots, which it relies on. -/
structure Builds (ok : Array (Option Regex) → Prop) (x : Build Fragment) (L : Language Char) :
    Prop where
  slots : ∀ c, ok c.slots → ok (x c).2.slots
  mono : ∀ c, ok c.slots → c.errors ≤ (x c).2.errors
  realizes : ∀ c, ok c.slots → (x c).2.errors = c.errors →
    Realizes c.automaton (x c).2.automaton (x c).1 L

namespace Builds

variable {ok : Array (Option Regex) → Prop} {x : Build Fragment} {L : Language Char}

/-- A step that does all this whenever the slots are as they should be builds a fragment. -/
lemma of_forall (h : ∀ c, ok c.slots → ok (x c).2.slots ∧ c.errors ≤ (x c).2.errors ∧
    ((x c).2.errors = c.errors → Realizes c.automaton (x c).2.automaton (x c).1 L)) :
    Builds ok x L :=
  ⟨fun c hok => (h c hok).1, fun c hok => (h c hok).2.1, fun c hok => (h c hok).2.2⟩

/-- A step that reports an error builds anything. -/
lemma faulty (m : BuildMode) (fault : RegexFault) : Builds ok (faulty m fault) L := by
  have herrors : ∀ c, (Build.faulty m fault c).2.errors = c.errors + 1 :=
    fun c => Diagnostics.errorCount_semanticError c.diagnostics m.position fault.message
  refine ⟨fun c hok => hok, fun c _ => by rw [herrors]; exact Nat.le_succ _, fun c _ h => ?_⟩
  rw [herrors] at h
  exact absurd h (Nat.succ_ne_self _)

/-- The fragment of the empty text. -/
lemma emptyText : Builds ok emptyText 1 :=
  ⟨fun _ hok => hok, fun _ _ => le_rfl, fun c _ _ => realizes_emptyText c.automaton⟩

/-- Adding the characters of a list. -/
lemma foldl_addItem (items : List CharItem) : ∀ {t : MoveTable}, t.InOrder →
    (items.foldl addItem t).InOrder ∧
      ∀ c, (items.foldl addItem t).has c ↔ t.has c ∨ ∃ i ∈ items, i.covers c := by
  induction items with
  | nil => exact fun h => ⟨h, fun c => by simp⟩
  | cons item items ih =>
    intro t h
    obtain ⟨horder, hhas⟩ := ih (h.addItem item)
    refine ⟨horder, fun c => ?_⟩
    rw [List.foldl_cons, hhas, MoveTable.has_addItem, or_assoc, List.exists_mem_cons_iff]

/-- One character of a list.

**Proof sketch.** The two states of a new fragment are empty. The moves given to the first one are the
items of the list, added one after the other, and they hold exactly the characters that the list has. -/
lemma oneOf (m : BuildMode) (l : CharList) :
    Builds ok (oneOf m l) (Regex.letters fun c => l.lists c) := by
  rw [Build.oneOf]
  split_ifs
  · exact faulty m .emptyCharList
  · obtain ⟨horder, hhas⟩ := foldl_addItem l.items MoveTable.InOrder.empty
    have hlists : ∀ c, (l.items.foldl addItem {}).has c ↔ l.lists c := by
      intro c
      rw [hhas]
      simp [CharList.lists]
    refine ⟨fun _ hok => hok, fun _ _ => le_rfl, fun c _ _ => Spelled.realizes ?_⟩
    have hempty := state_newFragment c.automaton le_rfl
    have hspelled := Spelled.single (q := c.automaton.size + 1) (by simp) hempty (by simp) horder
    simp only [hlists] at hspelled
    rw [← modify_eq_setMoves (fun s =>
      { s with moves := l.items.foldl addItem s.moves, next := some (c.automaton.size + 1) })
      hempty rfl] at hspelled
    exact hspelled

/-! ## Texts -/

/-- **Spelling a text** builds a row of moves.

**Proof sketch.** Induction on the characters. The last one leads to the end of the fragment, and any
other one to a new state, from where the rest is spelled. -/
lemma spell_spec (ignoreCase : Bool) {q : Nat} : ∀ (cs : List Char) {i : Nat} {c : Construction},
    cs ≠ [] → i < c.automaton.size → c.automaton.state i = {} → q < c.automaton.size →
    (spell ignoreCase q i cs c).2.errors = c.errors ∧
      (spell ignoreCase q i cs c).2.slots = c.slots ∧
      Spelled c.automaton (spell ignoreCase q i cs c).2.automaton i q
        (cs.map fun x => Regex.letters (CharList.SameLetter ignoreCase x)).prod
  | [], _, _, h, _, _, _ => absurd rfl h
  | [x], i, c, _, hi, hempty, hq => by
    have horder := MoveTable.InOrder.empty.charMoves ignoreCase x
    have hspelled := Spelled.single hi hempty hq horder
    simp only [MoveTable.has_charMoves] at hspelled
    refine ⟨rfl, rfl, ?_⟩
    rw [List.map_singleton, List.prod_singleton]
    rw [← modify_eq_setMoves (fun s =>
      { s with moves := charMoves ignoreCase s.moves x, next := some q }) hempty rfl] at hspelled
    exact hspelled
  | x :: y :: cs, i, c, _, hi, hempty, hq => by
    have horder := MoveTable.InOrder.empty.charMoves ignoreCase x
    set a₁ := (c.automaton.push {}).setMoves i (charMoves ignoreCase {} x) c.automaton.size with ha₁
    have hsize : a₁.size = c.automaton.size + 1 := by simp [ha₁, setMoves]
    have hstep : spell ignoreCase q i (x :: y :: cs) c =
        spell ignoreCase q c.automaton.size (y :: cs) { c with automaton := a₁ } := by
      have hmodify : (c.automaton.push {}).modify i (fun s =>
          { s with moves := charMoves ignoreCase s.moves x, next := some c.automaton.size }) = a₁ := by
        refine modify_eq_setMoves _ ?_ rfl
        rw [state_push_of_lt _ hi, hempty]
      rw [← hmodify]
      rfl
    have hnew : a₁.state c.automaton.size = {} := by
      rw [ha₁, setMoves, state_modify_of_ne _ (Nat.ne_of_lt hi), state_push_size]
    obtain ⟨herr, hslots, hrest⟩ := spell_spec ignoreCase (y :: cs) (i := c.automaton.size)
      (c := { c with automaton := a₁ }) (by simp) (by rw [hsize]; exact Nat.lt_succ_self _) hnew
      (show q < a₁.size by omega)
    rw [hstep]
    have hspelled := Spelled.cons hi hempty horder hrest
    simp only [MoveTable.has_charMoves] at hspelled
    exact ⟨herr, hslots, hspelled⟩

/-- A literal text.

**Proof sketch.** An empty text is a fragment with an epsilon move, one character is a list with one
item, and a longer text is spelled along a row of states. -/
lemma text (m : BuildMode) (cs : List Char) : Builds ok (text m cs)
    (cs.map fun x => Regex.letters (CharList.SameLetter m.ignoreCase x)).prod := by
  match cs with
  | [] => exact emptyText
  | [x] =>
    have h : Builds ok _ _ := oneOf m ((CharList.ofItems [.single x]).normalize m.ignoreCase)
    simp only [CharList.lists_normalize, CharList.holds_single] at h
    rw [List.map_singleton, List.prod_singleton]
    exact h
  | x :: y :: cs =>
    have hspec : ∀ c : Construction, _ := fun c => spell_spec m.ignoreCase (x :: y :: cs)
      (q := c.automaton.size + 1) (i := c.automaton.size) (c := (newFragment c).2) (by simp)
      (by simp [Build.newFragment]) (state_newFragment c.automaton le_rfl)
      (by simp [Build.newFragment])
    refine ⟨fun c hok => ?_, fun c _ => (hspec c).1.ge, fun c _ _ => (hspec c).2.2.realizes⟩
    have hslots := (hspec c).2.1
    exact (congrArg ok hslots).mpr hok

/-! ## Copies -/

/-- **A fragment around another one**, built first. The epsilon moves are given by the two states
of the new fragment and by the inner one.

**Proof sketch.** The new fragment is built first and the inner one in the grown automaton, so that the
inner one realizes its language there; the epsilon moves put around it do the rest. -/
lemma wrap (skip again : Prop) [Decidable skip] [Decidable again]
    (edges : Fragment → Fragment → List (Nat × Nat)) (h : Builds ok x L)
    (hmem : ∀ f g a b, (a, b) ∈ edges f g ↔
      (a = f.first ∧ (b = g.first ∨ (skip ∧ b = f.last))) ∨
        (a = g.last ∧ (b = f.last ∨ (again ∧ b = g.first))))
    {y : Build Fragment} (hy : ∀ c, y c =
      let (f, c₁) := newFragment c
      let (g, c₂) := x c₁
      (f, { c₂ with automaton := c₂.automaton.addEdges (edges f g) })) :
    Builds ok y ((if skip then 1 else 0) + if again then L * L∗ else L) where
  slots c hok := by
    rw [hy]
    exact h.slots (newFragment c).2 hok
  mono c hok := by
    rw [hy]
    exact h.mono (newFragment c).2 hok
  realizes c hok herr := by
    rw [hy] at herr ⊢
    exact (h.realizes (newFragment c).2 hok herr).wrap fun a b => hmem _ _ a b

/-- One or more times. -/
lemma plus (h : Builds ok x L) : Builds ok (plus x) (L * L∗) := by
  have hw : Builds ok (Build.plus x) _ := wrap False True
    (fun f g => [(f.first, g.first), (g.last, g.first), (g.last, f.last)]) h
    (by intro f g a b; simp; tauto) fun c => rfl
  rwa [if_neg id, if_pos trivial, zero_add] at hw

/-- Any number of times. -/
lemma star (h : Builds ok x L) : Builds ok (star x) L∗ := by
  have hw : Builds ok (Build.star x) _ := wrap True True
    (fun f g => [(f.first, g.first), (f.first, f.last), (g.last, f.last), (g.last, g.first)]) h
    (by intro f g a b; simp; tauto) fun c => rfl
  rwa [if_pos trivial, if_pos trivial, Language.one_add_self_mul_kstar_eq_kstar] at hw

/-- At most once. -/
lemma optional (h : Builds ok x L) : Builds ok (optional x) (1 + L) := by
  have hw : Builds ok (Build.optional x) _ := wrap True False
    (fun f g => [(f.first, g.first), (f.first, f.last), (g.last, f.last)]) h
    (by intro f g a b; simp; tauto) fun c => rfl
  rwa [if_pos trivial, if_neg id] at hw

/-! ## Alternatives and rows -/

variable {xs : List (Build Fragment)} {Ls : List (Language Char)}

/-- **Building alternatives** side by side.

**Proof sketch.** Induction on the alternatives. Each one is built behind the earlier ones, and two
epsilon moves connect it with the states of the fragment, which the later ones leave as they are. -/
lemma branches_spec (f : Fragment) (h : List.Forall₂ (Builds ok) xs Ls) : ∀ c : Construction,
    ok c.slots → ok (branches f xs c).2.slots ∧ c.errors ≤ (branches f xs c).2.errors ∧
      (f.first < c.automaton.size → f.last < c.automaton.size →
        (branches f xs c).2.errors = c.errors →
        ∃ es : List (Nat × Language Char), es.map Prod.snd = Ls ∧
          Fanned c.automaton (branches f xs c).2.automaton f.first f.last es) := by
  induction h with
  | nil => exact fun c hok => ⟨hok, le_rfl, fun _ _ _ => ⟨[], rfl, Fanned.nil _ _ _⟩⟩
  | @cons x L xs Ls hx hxs ih =>
    intro c hok
    set c₂ : Construction := { (x c).2 with
      automaton := (x c).2.automaton.addEdges
        [(f.first, (x c).1.first), ((x c).1.last, f.last)] } with hc₂
    have hstep : branches f (x :: xs) c = branches f xs c₂ := rfl
    have h₁ : c.errors ≤ c₂.errors := hx.mono c hok
    obtain ⟨hok', h₂, hfan⟩ := ih c₂ (hx.slots c hok)
    rw [hstep]
    refine ⟨hok', h₁.trans h₂, fun hfirst hlast herr => ?_⟩
    have hreal := hx.realizes c hok (le_antisymm (h₂.trans herr.le) h₁)
    have hsize : c₂.automaton.size = (x c).2.automaton.size := size_addEdges _ _
    obtain ⟨es, hes, hfan⟩ := hfan (by rw [hsize]; exact hfirst.trans_le hreal.size_le)
      (by rw [hsize]; exact hlast.trans_le hreal.size_le) (le_antisymm (herr.le.trans h₁) h₂)
    exact ⟨((x c).1.first, L) :: es, by rw [List.map_cons, hes],
      Fanned.cons hfirst hlast hreal hfan⟩

/-- Any one of several expressions.

**Proof sketch.** No alternatives are an error, a single one is built by itself, and several ones are
built side by side inside a new fragment. -/
lemma anyOf (m : BuildMode) (h : List.Forall₂ (Builds ok) xs Ls) :
    Builds ok (anyOf m xs) Ls.sum := by
  match xs, Ls, h with
  | [], [], _ => exact faulty m .emptyChoice
  | [x], [L], .cons hx .nil =>
    rw [List.sum_singleton]
    exact hx
  | x :: y :: xs, L :: M :: Ls, h =>
    have hspec := fun c : Construction => branches_spec (newFragment c).1 h (newFragment c).2
    refine ⟨fun c hok => (hspec c hok).1, fun c hok => (hspec c hok).2.1, fun c hok herr => ?_⟩
    obtain ⟨es, hes, hfan⟩ := (hspec c hok).2.2 (by simp [Build.newFragment, fst_newFragment])
      (by simp [Build.newFragment, fst_newFragment]) herr
    rw [← hes]
    exact hfan.realizes

/-- **Building a row** of fragments.

**Proof sketch.** Induction on the row. An epsilon move leads from the end of what has been built to the
next fragment, whose last state is still empty when the rest begins. -/
lemma chain_spec (h : List.Forall₂ (Builds ok) xs Ls) : ∀ (i : Nat) (c : Construction),
    ok c.slots → ok (chain i xs c).2.slots ∧ c.errors ≤ (chain i xs c).2.errors ∧
      (i < c.automaton.size → c.automaton.state i = {} → (chain i xs c).2.errors = c.errors →
        Chained c.automaton (chain i xs c).2.automaton i (chain i xs c).1 Ls.prod) := by
  induction h with
  | nil => exact fun i c hok => ⟨hok, le_rfl, fun hi hempty _ => Chained.nil hi hempty⟩
  | @cons x L xs Ls hx hxs ih =>
    intro i c hok
    set c₂ : Construction := { (x c).2 with
      automaton := (x c).2.automaton.addEdges [(i, (x c).1.first)] } with hc₂
    have hstep : chain i (x :: xs) c = chain (x c).1.last xs c₂ := rfl
    have h₁ : c.errors ≤ c₂.errors := hx.mono c hok
    obtain ⟨hok', h₂, hchain⟩ := ih (x c).1.last c₂ (hx.slots c hok)
    rw [hstep]
    refine ⟨hok', h₁.trans h₂, fun hi hempty herr => ?_⟩
    have hreal := hx.realizes c hok (le_antisymm (h₂.trans herr.le) h₁)
    have hsize : c₂.automaton.size = (x c).2.automaton.size := size_addEdges _ _
    have hlast : c₂.automaton.state (x c).1.last = {} := by
      have hne : (x c).1.last ≠ i := (Nat.ne_of_lt (hi.trans_le hreal.last_mem.1)).symm
      rw [hc₂, state_addEdges_of_notMem _ (by simpa using hne), hreal.last_state]
    have hchain := hchain (by rw [hsize]; exact hreal.last_mem.2) hlast
      (le_antisymm (herr.le.trans h₁) h₂)
    rw [List.prod_cons]
    exact Chained.cons hi hempty hreal hchain

/-- Several expressions in a row. -/
lemma allOf (h : List.Forall₂ (Builds ok) xs Ls) : Builds ok (allOf xs) Ls.prod := by
  match xs, Ls, h with
  | [], [], _ => exact emptyText
  | [x], [L], .cons hx .nil =>
    rw [List.prod_singleton]
    exact hx
  | x :: y :: xs, L :: M :: Ls, h =>
    have hspec := fun c : Construction => chain_spec h c.automaton.size (newFragment c).2
    refine ⟨fun c hok => (hspec c hok).1, fun c hok => (hspec c hok).2.1, fun c hok herr => ?_⟩
    have hchain := (hspec c hok).2.2 (by simp [Build.newFragment])
      (state_newFragment c.automaton le_rfl) herr
    exact hchain.realizes

/-- A counted repetition.

**Proof sketch.** The row has the required copies first; behind them stands any number of further ones,
or as many optional ones as the upper bound allows. The language of a row is the product. -/
lemma copies (h : Builds ok x L) (min : Nat) (max : Option Nat) :
    Builds ok (Build.allOf (copies x min max))
      (L ^ min * match max with | none => L∗ | some max => (1 + L) ^ (max - min)) := by
  have hreplicate : ∀ {y : Build Fragment} {M : Language Char} (n : Nat), Builds ok y M →
      List.Forall₂ (Builds ok) (List.replicate n y) (List.replicate n M) := by
    intro y M n hy
    induction n with
    | zero => exact .nil
    | succ n ih => exact .cons hy ih
  cases max with
  | none =>
    have hall := allOf (List.rel_append (hreplicate min h) (.cons h.star .nil))
    rwa [List.prod_append, List.prod_replicate, List.prod_singleton] at hall
  | some max =>
    have hall := allOf (List.rel_append (hreplicate min h) (hreplicate (max - min) h.optional))
    rwa [List.prod_append, List.prod_replicate, List.prod_replicate] at hall

end Builds

/-! ## Expressions -/

/-- All references of an expression are resolved. -/
def Regex.Resolved (r : Regex) : Prop := ∀ x ∈ r.references, x.2.isSome

/-- **The slots hold expressions of the right languages**: what is in a slot now, has the language
of what was in it first. -/
def SlotsMean (ignoreCase : Bool) (first now : Array (Option Regex)) : Prop :=
  ∀ i r, now.getD i none = some r → r.Resolved ∧
    ∃ r₀, first.getD i none = some r₀ ∧ r.lang ignoreCase first = r₀.lang ignoreCase first

section

variable {first : Array (Option Regex)} {ok : Array (Option Regex) → Prop} {m : BuildMode}
  {named : String → Option Nat → Build Fragment}

mutual

/-- **The fragment of a normalized expression** realizes its language, if the fragments of its
references do.

**Proof sketch.** Induction on the expression, with one case for each way of building. Since the
character lists are in normal form, what they list is what they hold. -/
lemma builds_buildWith : ∀ {r : Regex}, (∀ l ∈ r.charLists, l.normalized) →
    (∀ x ∈ r.references, Builds ok (named x.1 x.2)
      ((Regex.reference x.1 x.2).lang m.ignoreCase first)) →
    Builds ok (buildWith m named r) (r.lang m.ignoreCase first)
  | .chars l, hl, _ => by
    have hholds : l.Holds m.ignoreCase = fun c => (l.lists c : Prop) := by
      funext c
      rw [CharList.Holds, if_pos (hl l (by simp [Regex.charLists]))]
    rw [buildWith, Regex.lang_chars, hholds]
    exact Builds.oneOf m l
  | .choice rs, hl, hr => by
    rw [buildWith, Regex.lang_choice]
    exact Builds.anyOf m (builds_buildAllWith hl hr)
  | .sequence rs, hl, hr => by
    rw [buildWith, Regex.lang_sequence]
    exact Builds.allOf (builds_buildAllWith hl hr)
  | .oneOrMore r, hl, hr => by
    rw [buildWith, Regex.lang_oneOrMore]
    exact (builds_buildWith (r := r) hl hr).plus
  | .zeroOrMore r, hl, hr => by
    rw [buildWith, Regex.lang_zeroOrMore]
    exact (builds_buildWith (r := r) hl hr).star
  | .zeroOrOne r, hl, hr => by
    rw [buildWith, Regex.lang_zeroOrOne]
    exact (builds_buildWith (r := r) hl hr).optional
  | .literal s, _, _ => by
    rw [buildWith, Regex.lang_literal]
    exact Builds.text m s.toList
  | .repetition r min max, hl, hr => by
    have h := (builds_buildWith (r := r) hl hr).copies min max
    rw [buildWith]
    cases max with
    | none => rwa [Regex.lang_repetition_none]
    | some max => rwa [Regex.lang_repetition_some]
  | .reference label target, _, hr => by
    rw [buildWith]
    exact hr (label, target) (by simp [Regex.references])
  | .endOfInput, _, _ => by
    rw [buildWith]
    exact Builds.faulty m .innerEndOfInput

/-- The same for a list of expressions. -/
lemma builds_buildAllWith : ∀ {rs : List Regex}, (∀ l ∈ Regex.charListsAll rs, l.normalized) →
    (∀ x ∈ Regex.referencesAll rs, Builds ok (named x.1 x.2)
      ((Regex.reference x.1 x.2).lang m.ignoreCase first)) →
    List.Forall₂ (Builds ok) (buildAllWith m named rs) (rs.map (Regex.lang m.ignoreCase first))
  | [], _, _ => .nil
  | r :: rs, hl, hr => by
    rw [Regex.charListsAll, List.forall_mem_append] at hl
    rw [Regex.referencesAll, List.forall_mem_append] at hr
    exact .cons (builds_buildWith hl.1 hr.1) (builds_buildAllWith hl.2 hr.2)

end

/-- One building step after another. -/
lemma Build.bind_eq {α β : Type} {x : Build α} {f : α → Build β} {a : α} {c c' : Construction}
    (h : x c = (a, c')) : (x >>= f) c = f a c' := by
  show f (x c).1 (x c).2 = _
  rw [h]

/-- A reference whose expression has been taken out of its slot. -/
lemma takeSlot_eq_some {c : Construction} {i : Nat} {r : Regex}
    (h : c.slots.getD i none = some r) :
    takeSlot i c = (some r, { c with slots := c.slots.setIfInBounds i none }) := by
  simp only [takeSlot, h]

/-- An empty slot gives nothing. -/
lemma takeSlot_eq_none {c : Construction} {i : Nat} (h : c.slots.getD i none = none) :
    takeSlot i c = (none, c) := by
  simp only [takeSlot, h]

/-- Reading a slot after writing one. -/
lemma slot_of_setIfInBounds {slots : Array (Option Regex)} {i j : Nat} {x : Option Regex} {r : Regex}
    (h : (slots.setIfInBounds i x).getD j none = some r) :
    (j = i ∧ x = some r) ∨ slots.getD j none = some r := by
  rw [getD_setIfInBounds_eq] at h
  split_ifs at h with hji
  · exact Or.inl ⟨hji.1, h⟩
  · exact Or.inr h

/-- Emptying a slot keeps the others. -/
lemma SlotsMean.take {ignoreCase : Bool} {now : Array (Option Regex)}
    (h : SlotsMean ignoreCase first now) (i : Nat) :
    SlotsMean ignoreCase first (now.setIfInBounds i none) := by
  intro j r hr
  rcases slot_of_setIfInBounds hr with ⟨-, hr⟩ | hr
  · cases hr
  · exact h j r hr

/-- What comes back to a slot is what was there, in normal form. -/
lemma SlotsMean.put {ignoreCase : Bool} {now : Array (Option Regex)}
    (h : SlotsMean ignoreCase first now) {i : Nat} {r r₀ : Regex} (hr : r.Resolved)
    (hr₀ : first.getD i none = some r₀)
    (hlang : r.lang ignoreCase first = r₀.lang ignoreCase first) (copies : Bool) :
    SlotsMean ignoreCase first (now.setIfInBounds i (some (r.normalize ignoreCase copies))) := by
  intro j r' hr'
  rcases slot_of_setIfInBounds hr' with ⟨rfl, heq⟩ | hr'
  · cases heq
    refine ⟨fun x hx => hr x (Regex.references_normalize copies hx), r₀, hr₀, ?_⟩
    rw [Regex.lang_normalize, hlang]
  · exact h j r' hr'

/-- A reference to an empty slot. -/
lemma buildNamed_of_none {inner : Regex → Build Fragment} {label : String} {i : Nat}
    {c : Construction} (h : c.slots.getD i none = none) :
    buildNamed m inner label (some i) c = Build.faulty m (.circular label) c := by
  rw [buildNamed, Build.bind_eq (takeSlot_eq_none h)]

/-- A reference to a full slot: the expression is taken out, built, and put back in normal form. -/
lemma buildNamed_of_some {inner : Regex → Build Fragment} {label : String} {i : Nat} {r : Regex}
    {c : Construction} (h : c.slots.getD i none = some r) :
    buildNamed m inner label (some i) c =
      let (f, c') := inner r { c with slots := c.slots.setIfInBounds i none }
      (f, { c' with slots := c'.slots.setIfInBounds i (some (r.normalize m.ignoreCase false)) }) := by
  rw [buildNamed, Build.bind_eq (takeSlot_eq_some h)]
  rfl

/-- **The fragment of a reference** realizes the language of the expression in its slot.

**Proof sketch.** An expression that is being built, or is missing, is an error and realizes anything.
Otherwise it is taken out of its slot, built, and put back. -/
lemma builds_buildNamed {inner : Regex → Build Fragment}
    (hinner : ∀ r, r.Resolved → Builds (SlotsMean m.ignoreCase first) (inner r)
      (r.lang m.ignoreCase first)) (label : String) (i : Nat) :
    Builds (SlotsMean m.ignoreCase first) (buildNamed m inner label (some i))
      ((Regex.reference label (some i)).lang m.ignoreCase first) := by
  have hfaulty : Builds (SlotsMean m.ignoreCase first) (Build.faulty m (.circular label))
      ((Regex.reference label (some i)).lang m.ignoreCase first) := Builds.faulty m _
  refine Builds.of_forall fun c hok => ?_
  cases hc : c.slots.getD i none with
  | none =>
    rw [buildNamed_of_none hc]
    exact ⟨hfaulty.slots c hok, hfaulty.mono c hok, hfaulty.realizes c hok⟩
  | some r =>
    obtain ⟨hres, r₀, hr₀, hlang⟩ := hok i r hc
    have hr := hinner r hres
    have hok' := hok.take i
    rw [buildNamed_of_some hc, Regex.lang_reference hr₀, ← hlang]
    exact ⟨(hr.slots { c with slots := _ } hok').put hres hr₀ hlang false,
      hr.mono { c with slots := _ } hok', hr.realizes { c with slots := _ } hok'⟩

/-- **The fragment of an expression** realizes its language, unless an error is reported.

**Proof sketch.** Induction on the depth to which references are followed. A resolved reference
finds an expression of the right language in its slot, or an error is reported. -/
theorem builds_build : ∀ (depth : Nat) {r : Regex}, r.Resolved →
    Builds (SlotsMean m.ignoreCase first) (build m depth r) (r.lang m.ignoreCase first)
  | 0, r, hr => by
    rw [build, ← Regex.lang_normalize true r]
    refine builds_buildWith (fun l => Regex.charLists_normalize) fun x hx => ?_
    have hsome := hr x (Regex.references_normalize true hx)
    rw [if_pos hsome]
    exact Builds.faulty m _
  | depth + 1, r, hr => by
    rw [build, ← Regex.lang_normalize true r]
    refine builds_buildWith (fun l => Regex.charLists_normalize) fun x hx => ?_
    obtain ⟨i, hi⟩ := Option.isSome_iff_exists.mp (hr x (Regex.references_normalize true hx))
    rw [hi]
    exact builds_buildNamed (fun r => builds_build depth) x.1 i

end

/-! ## The texts read along a fragment -/

/-- No path leads out of an empty state. -/
lemma Automaton.Path.eq_of_empty {a : Automaton} {i t n : Nat} {w : List Char}
    (hempty : a.state i = {}) (h : a.Path t n i w) : t = i ∧ w = [] := by
  cases h with
  | here => exact ⟨rfl, rfl⟩
  | silent hstep _ => exact absurd hstep (not_silent_of_empty hempty)
  | move hstep _ => exact absurd hstep (not_moves_of_empty hempty)

/-- **The texts read from the first to the last state of a fragment** are those of its language:
every path goes through the last state, and ends there. -/
lemma Realizes.reads_iff {a a' : Automaton} {f : Fragment} {L : Language Char}
    (h : Realizes a a' f L) {w : List Char} : a'.Reads f.first w f.last ↔ w ∈ L := by
  have hleads : a'.Leads (· = f.last) f.first L f.last :=
    h.leads (fun _ _ _ _ => rfl) fun _ _ _ hne => hne
  constructor
  · rintro ⟨n, hp⟩
    obtain ⟨m, -, u, hu, v, hv, rfl⟩ := hleads.sound rfl hp
    obtain ⟨-, rfl⟩ := hv.eq_of_empty h.last_state
    rwa [List.append_nil]
  · exact hleads.complete

/-- Slots mean what they hold, if all references in them are resolved. -/
lemma SlotsMean.of_resolved {ignoreCase : Bool} {slots : Array (Option Regex)}
    (h : ∀ i r, slots.getD i none = some r → r.Resolved) : SlotsMean ignoreCase slots slots :=
  fun i r hr => ⟨h i r hr, r, hr, rfl⟩

/-- **The fragment of an expression reads the texts of the expression**, unless an error is
reported. The states that there were before are unchanged.

**Proof sketch.** The steps of the construction build a fragment that realizes the language of the
expression (`builds_build`), if the slots mean what they hold; and at first each slot holds what it
means. -/
theorem reads_construct {m : BuildMode} {r left : Regex} {c c' : Construction} {f : Fragment}
    (hr : r.Resolved) (hslots : ∀ i s, c.slots.getD i none = some s → s.Resolved)
    (h : construct m r c = ((f, left), c')) (herr : c'.errors = c.errors) :
    (∀ i < c.automaton.size, c'.automaton.state i = c.automaton.state i) ∧
      ∀ w, c'.automaton.Reads f.first w f.last ↔ w ∈ r.lang m.ignoreCase c.slots := by
  have hbuilds : Builds (SlotsMean m.ignoreCase c.slots) (build m c.fullSlots r)
      (r.lang m.ignoreCase c.slots) := builds_build c.fullSlots hr
  cases h
  have hreal := hbuilds.realizes c (SlotsMean.of_resolved hslots) herr
  exact ⟨fun i hi => hreal.state hi, fun w => hreal.reads_iff⟩

/-- One state, and one slot with two letters in it. -/
def letterSlot : Construction where
  automaton := ({} : Automaton).newState.2
  slots := #[some (.chars { items := [.range 'a' 'b'] })]

/-- A word and one or two of the letters in the slot. -/
def wordAndLetters : Regex :=
  .sequence [.literal "no", .repetition (.reference "LETTER" (some 0)) 1 (some 2)]

/-- With one shared expression in a slot, a word followed by this expression is built without errors, on
top of a state that was there before. -/
theorem reads_construct_wordAndLetters : ∃ f left c',
    construct ⟨true, ⟨1, 1⟩⟩ wordAndLetters letterSlot = ((f, left), c') ∧
      c'.errors = letterSlot.errors ∧ c'.automaton.state 0 = letterSlot.automaton.state 0 ∧
      ∀ w, c'.automaton.Reads f.first w f.last ↔ w ∈ wordAndLetters.lang true letterSlot.slots := by
  have hr : wordAndLetters.Resolved := by
    simp [wordAndLetters, Regex.Resolved, Regex.references, Regex.referencesAll]
  have hslots : ∀ i s, letterSlot.slots.getD i none = some s → s.Resolved := by
    intro i s hs
    cases i with
    | zero =>
      cases hs
      simp [Regex.Resolved, Regex.references]
    | succ i => cases hs
  have herr : (construct ⟨true, ⟨1, 1⟩⟩ wordAndLetters letterSlot).2.errors =
      letterSlot.errors := by decide +kernel
  rcases h : construct ⟨true, ⟨1, 1⟩⟩ wordAndLetters letterSlot with ⟨⟨f, left⟩, c'⟩
  rw [h] at herr
  obtain ⟨hstates, hreads⟩ := reads_construct hr hslots h herr
  exact ⟨f, left, c', rfl, herr, hstates 0 Nat.zero_lt_one, hreads⟩

end GrammarForge
