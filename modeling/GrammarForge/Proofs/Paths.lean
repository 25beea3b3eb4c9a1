import GrammarForge.Proofs.AutomatonRun
import GrammarForge.Proofs.RegexLanguage

set_option autoImplicit false

/-!
# Paths in an automaton

Texts are read along paths of epsilon moves and moves on characters. A part of an automaton that
can be left at one state only leads there with the texts of a language; such parts can be
put one after the other, side by side and in loops.

## Main definitions

* `Automaton.Path` — a path with its length and the text read along it.
* `Automaton.Leads` — every path from one state goes through another one, with texts of a language.
* `Automaton.Reads` — a text can be read from one state to another.

## Main results

* `Automaton.Leads.trans`, `Automaton.Leads.branch`, `Automaton.Leads.loop`,
  `Automaton.Leads.letters` — how parts of an automaton are put together.
* `Automaton.acceptedKinds_close` — a closed automaton accepts the lowest kind of a state that the
  text read so far leads to.
-/

namespace GrammarForge

open Computability

namespace Automaton

/-- From `i`, a move on `c` leads to `j`. -/
def Moves (a : Automaton) (i : Nat) (c : Char) (j : Nat) : Prop :=
  (a.state i).moves.canMove c ∧ (a.state i).next = some j

/-- A path of `n` moves to `t`, by where it starts and the text read along it. -/
inductive Path (a : Automaton) (t : Nat) : Nat → Nat → List Char → Prop
  | here : Path a t 0 t []
  | silent {n i j : Nat} {w : List Char} : a.Silent i j → Path a t n j w → Path a t (n + 1) i w
  | move {n i j : Nat} {c : Char} {w : List Char} : a.Moves i c j → Path a t n j w →
      Path a t (n + 1) i (c :: w)

/-- **Every path from `i` to a target goes through `k`**, and the texts read from `i` to `k` are
those of `L`. What is left of a path at `k` is no longer than the path. -/
structure Leads (a : Automaton) (target : Nat → Prop) (i : Nat) (L : Language Char) (k : Nat) :
    Prop where
  complete : ∀ {w}, w ∈ L → ∃ n, a.Path k n i w
  sound : ∀ {t n w}, target t → a.Path t n i w →
    ∃ m ≤ n, ∃ u ∈ L, ∃ v, a.Path t m k v ∧ u ++ v = w

variable {a : Automaton} {target : Nat → Prop} {i j k t m n : Nat} {u v w : List Char}

/-- Two paths, one after the other. -/
lemma Path.append (h : a.Path k n i u) (h' : a.Path t m k v) : ∃ l, a.Path t l i (u ++ v) := by
  induction h with
  | here => exact ⟨m, h'⟩
  | silent hstep _ ih =>
    obtain ⟨l, hl⟩ := ih
    exact ⟨l + 1, .silent hstep hl⟩
  | move hstep _ ih =>
    obtain ⟨l, hl⟩ := ih
    exact ⟨l + 1, .move hstep hl⟩

namespace Leads

variable {L M : Language Char}

/-- The empty text leads from a state to itself. -/
lemma refl (a : Automaton) (target : Nat → Prop) (i : Nat) : a.Leads target i 1 i where
  complete hw := by
    obtain rfl := (Language.mem_one _).mp hw
    exact ⟨0, .here⟩
  sound _ hp := ⟨_, le_rfl, [], Language.nil_mem_one, _, hp, rfl⟩

/-- One part after the other. -/
lemma trans (h : a.Leads target i L j) (h' : a.Leads target j M k) :
    a.Leads target i (L * M) k where
  complete hw := by
    obtain ⟨u, hu, v, hv, rfl⟩ := Language.mem_mul.mp hw
    obtain ⟨n, hn⟩ := h.complete hu
    obtain ⟨m, hm⟩ := h'.complete hv
    exact hn.append hm
  sound ht hp := by
    obtain ⟨m, hm, u, hu, v, hv, rfl⟩ := h.sound ht hp
    obtain ⟨l, hl, u', hu', v', hv', rfl⟩ := h'.sound ht hv
    exact ⟨l, hl.trans hm, u ++ u', Language.append_mem_mul hu hu', v', hv',
      List.append_assoc u u' v'⟩

/-- A state with epsilon moves only: each of them leads to `k` with a language of its own.

**Proof sketch.** A path from the state goes on with one of its epsilon moves, and then with the
language of that one. -/
lemma branch (es : List (Nat × Language Char)) (hi : ¬ target i)
    (hsilent : ∀ j, a.Silent i j ↔ j ∈ es.map Prod.fst) (hmoves : ∀ c j, ¬ a.Moves i c j)
    (h : ∀ e ∈ es, a.Leads target e.1 e.2 k) : a.Leads target i (es.map Prod.snd).sum k where
  complete hw := by
    obtain ⟨L, hL, hw⟩ := Regex.mem_sum.mp hw
    obtain ⟨e, he, rfl⟩ := List.mem_map.mp hL
    obtain ⟨n, hn⟩ := (h e he).complete hw
    exact ⟨n + 1, .silent ((hsilent e.1).mpr (List.mem_map_of_mem he)) hn⟩
  sound ht hp := by
    cases hp with
    | here => exact absurd ht hi
    | silent hstep hp =>
      obtain ⟨e, he, rfl⟩ := List.mem_map.mp ((hsilent _).mp hstep)
      obtain ⟨m, hm, u, hu, v, hv, rfl⟩ := (h e he).sound ht hp
      exact ⟨m, Nat.le_succ_of_le hm, u, Regex.mem_sum.mpr ⟨e.2, List.mem_map_of_mem he, hu⟩, v, hv,
        rfl⟩
    | move hstep _ => exact absurd hstep (hmoves _ _)

/-- A state with one epsilon move. -/
lemma step (hi : ¬ target i) (hsilent : ∀ j, a.Silent i j ↔ j = k)
    (hmoves : ∀ c j, ¬ a.Moves i c j) : a.Leads target i 1 k := by
  have h := branch [(k, 1)] hi (by simpa using hsilent) hmoves
    (by simpa using refl a target k)
  simpa using h

/-- **A loop.** At the end `j` of a part, epsilon moves lead out to `k` and back to its
beginning.

**Proof sketch.** Induction on the length of a path: what is left of it at `j` is no longer, and
the epsilon move back takes one step more. -/
lemma loop (h : a.Leads target i L j) (hj : ¬ target j)
    (hsilent : ∀ x, a.Silent j x ↔ x = k ∨ x = i) (hmoves : ∀ c x, ¬ a.Moves j c x) :
    a.Leads target i (L * L∗) k where
  complete := by
    have hpow : ∀ (n : Nat) {w}, w ∈ L ^ (n + 1) → ∃ l, a.Path k l i w := by
      intro n
      induction n with
      | zero =>
        intro w hw
        rw [Nat.zero_add, pow_one] at hw
        obtain ⟨l, hl⟩ := h.complete hw
        have hout : a.Path k 1 j [] := .silent ((hsilent k).mpr (Or.inl rfl)) .here
        simpa using hl.append hout
      | succ n ih =>
        intro w hw
        rw [pow_succ'] at hw
        obtain ⟨u, hu, v, hv, rfl⟩ := Language.mem_mul.mp hw
        obtain ⟨l, hl⟩ := h.complete hu
        obtain ⟨l', hl'⟩ := ih hv
        exact hl.append (.silent ((hsilent i).mpr (Or.inr rfl)) hl')
    intro w hw
    rw [Language.kstar_eq_iSup_pow, Language.mul_iSup, Language.mem_iSup] at hw
    obtain ⟨n, hw⟩ := hw
    rw [← pow_succ'] at hw
    exact hpow n hw
  sound := by
    intro t n w ht
    induction n using Nat.strong_induction_on generalizing w with
    | _ n ih =>
      intro hp
      obtain ⟨m, hm, u, hu, v, hv, rfl⟩ := h.sound ht hp
      cases hv with
      | here => exact absurd ht hj
      | @silent l _ x _ hstep hv =>
        rcases (hsilent x).mp hstep with rfl | rfl
        · refine ⟨l, by omega, u, ?_, v, hv, rfl⟩
          rw [← List.append_nil u]
          exact Language.append_mem_mul hu (Language.nil_mem_kstar L)
        · obtain ⟨l', hl', u', hu', v', hv', rfl⟩ := ih l (by omega) hv
          have hstar : u' ∈ L∗ := by
            rw [← Language.one_add_self_mul_kstar_eq_kstar]
            exact Or.inr hu'
          exact ⟨l', by omega, u ++ u', Language.append_mem_mul hu hstar, v', hv',
            List.append_assoc u u' v'⟩
      | move hstep _ => exact absurd hstep (hmoves _ _)

/-- A state that moves on the characters of a set. -/
lemma letters {p : Char → Prop} (hi : ¬ target i) (hsilent : ∀ j, ¬ a.Silent i j)
    (hmoves : ∀ c j, a.Moves i c j ↔ p c ∧ j = k) : a.Leads target i (Regex.letters p) k where
  complete := by
    rintro w ⟨c, hc, rfl⟩
    exact ⟨1, .move ((hmoves c k).mpr ⟨hc, rfl⟩) .here⟩
  sound ht hp := by
    cases hp with
    | here => exact absurd ht hi
    | silent hstep _ => exact absurd hstep (hsilent _)
    | @move n _ x c v hstep hv =>
      obtain ⟨hc, rfl⟩ := (hmoves c x).mp hstep
      exact ⟨n, Nat.le_succ n, [c], ⟨c, hc, rfl⟩, v, hv, rfl⟩

end Leads

/-! ## Runs follow paths -/

/-- The text `w` can be read from `i` to `t`. -/
def Reads (a : Automaton) (i : Nat) (w : List Char) (t : Nat) : Prop := ∃ n, a.Path t n i w

/-- Without reading anything, epsilon moves lead from one state to another.

**Proof sketch.** Induction on the path: without characters it has no moves. -/
lemma reads_nil : a.Reads i [] t ↔ a.Reaches i t := by
  constructor
  · rintro ⟨n, hp⟩
    generalize hw : ([] : List Char) = w at hp
    induction hp with
    | here => exact .refl
    | silent hstep _ ih => exact .head hstep (ih hw)
    | move _ _ _ => cases hw
  · intro h
    induction h using Relation.ReflTransGen.head_induction_on with
    | refl => exact ⟨0, .here⟩
    | head hstep _ ih =>
      obtain ⟨n, hn⟩ := ih
      exact ⟨n + 1, .silent hstep hn⟩

/-- Reading a character: epsilon moves, a move on the character, and the rest.

**Proof sketch.** Induction on the path: its epsilon moves before the first character are the reach. -/
lemma reads_cons {c : Char} : a.Reads i (c :: w) t ↔
    ∃ j k, a.Reaches i j ∧ a.Moves j c k ∧ a.Reads k w t := by
  constructor
  · rintro ⟨n, hp⟩
    generalize hcw : c :: w = cw at hp
    induction hp with
    | here => cases hcw
    | silent hstep _ ih =>
      obtain ⟨j, k, hj, hmove, hk⟩ := ih hcw
      exact ⟨j, k, .head hstep hj, hmove, hk⟩
    | @move n i j c' w' hstep hp ih =>
      cases hcw
      exact ⟨i, j, .refl, hstep, n, hp⟩
  · rintro ⟨j, k, hj, hmove, n, hp⟩
    obtain ⟨m, hm⟩ := reads_nil.mpr hj
    exact hm.append (.move hmove hp)

/-- The closure of a state moves where the states move that epsilon moves reach. -/
lemma goes_close (h : a.InRange) (hi : i < a.size) {c : Char} :
    a.close.Goes MoveTable.canMove i c k ↔ ∃ j, a.Reaches i j ∧ a.Moves j c k := by
  simp only [Goes, state_close hi]
  constructor
  · rintro ⟨j, hj, hc, hk⟩
    refine ⟨j, reaches_of_mem_closed h hj, ?_, ?_⟩
    · rwa [close, closeFrom_moves] at hc
    · rwa [close, closeFrom_next] at hk
  · rintro ⟨j, hj, hc, hk⟩
    refine ⟨j, mem_closed_of_reaches h hj (hasMoves_of_canMove hc), ?_, ?_⟩
    · rwa [close, closeFrom_moves]
    · rwa [close, closeFrom_next]

/-- **A closed automaton follows all paths at once.** Run from the closures of `places`, it accepts
after each character the lowest kind of a state that the text read so far leads to.

**Proof sketch.** Induction on the text: the states landed in by the first character are the
places from which the rest is read. -/
theorem acceptedKinds_close (h : a.InRange) : ∀ (text : List Char) {places active : List Nat},
    (∀ i ∈ places, i < a.size) → a.close.ActiveFrom places active → ∀ n < text.length,
    ∃ k, (a.close.acceptedKinds MoveTable.canMove active text)[n]? = some k ∧
      LowestKind (fun κ => ∃ i ∈ places, ∃ t, a.Reads i (text.take (n + 1)) t ∧
        (a.state t).kind = some κ) k
  | [], _, _, _, _ => by simp
  | c :: cs, places, active, hplaces, hactive => by
    have hland : ∀ x, x ∈ a.close.landings MoveTable.canMove active c ↔
        ∃ i ∈ places, ∃ j, a.Reaches i j ∧ a.Moves j c x := by
      intro x
      rw [hactive.mem_landings]
      exact exists_congr fun i => and_congr_right fun hi => goes_close h (hplaces i hi)
    have hlt : ∀ x ∈ a.close.landings MoveTable.canMove active c, x < a.size := by
      intro x hx
      obtain ⟨i, -, j, -, hmove⟩ := (hland x).mp hx
      exact h.next j x hmove.2
    have hread : ∀ w t, (∃ x ∈ a.close.landings MoveTable.canMove active c, a.Reads x w t) ↔
        ∃ i ∈ places, a.Reads i (c :: w) t := by
      intro w t
      simp only [hland, reads_cons]
      constructor
      · rintro ⟨x, ⟨i, hi, j, hj, hmove⟩, hx⟩
        exact ⟨i, hi, j, x, hj, hmove, hx⟩
      · rintro ⟨i, hi, j, x, hj, hmove, hx⟩
        exact ⟨x, ⟨i, hi, j, hj, hmove⟩, hx⟩
    obtain ⟨hkind, hnext⟩ := a.close.step_spec MoveTable.canMove active c
    intro n hn
    cases n with
    | zero =>
      refine ⟨(a.close.step MoveTable.canMove active c).1, rfl, hkind.of_dominated ?_ ?_⟩
      · rintro κ ⟨x, hx, hκ⟩
        have hlow := lowestKind_closed (i := x) h
        rw [← state_close (hlt x hx), hκ] at hlow
        obtain ⟨⟨t, ht, hκ⟩, -⟩ := hlow
        obtain ⟨i, hi, hread⟩ := (hread [] t).mp ⟨x, hx, reads_nil.mpr ht⟩
        exact ⟨i, hi, t, hread, hκ⟩
      · rintro κ ⟨i, hi, t, ht, hκ⟩
        obtain ⟨x, hx, ht⟩ := (hread [] t).mpr ⟨i, hi, ht⟩
        have hlow := lowestKind_closed (i := x) h
        rw [← state_close (hlt x hx)] at hlow
        have hmem : ∃ t, a.Reaches x t ∧ (a.state t).kind = some κ := ⟨t, reads_nil.mp ht, hκ⟩
        cases hx' : (a.close.state x).kind with
        | none => rw [hx'] at hlow; exact absurd hmem (hlow κ)
        | some j => rw [hx'] at hlow; exact ⟨j, hlow.2 κ hmem, x, hx, hx'⟩
    | succ n =>
      obtain ⟨k, hk, hlow⟩ := acceptedKinds_close h cs hlt hnext n (by simpa using hn)
      refine ⟨k, hk, hlow.congr fun κ => ?_⟩
      constructor
      · rintro ⟨x, hx, t, ht, hκ⟩
        obtain ⟨i, hi, hread⟩ := (hread _ t).mp ⟨x, hx, ht⟩
        exact ⟨i, hi, t, hread, hκ⟩
      · rintro ⟨i, hi, t, ht, hκ⟩
        obtain ⟨x, hx, ht⟩ := (hread _ t).mpr ⟨i, hi, ht⟩
        exact ⟨x, hx, t, ht, hκ⟩

end Automaton

end GrammarForge
