import GrammarForge.Scanner.Basic
import Mathlib.Logic.Relation

set_option autoImplicit false

/-!
# Turns of a scanner

A call for the next token is a row of turns, each of which takes one match; the last one ends the
call. What a turn can do is said here once, for everything that is proved about calls.

## Main definitions

* `Scanner.read` — a scanner whose automata have read more characters.
* `Scanner.HasMatch` — the longest match at a scanner's place.
* `Scanner.Goes` — a turn after which the call goes on.

## Main results

* `Scanner.turn_of_ended`, `Scanner.turn_at_end`, `Scanner.turn_in_text` — what a turn does.
* `Scanner.nextWithin_eq_some` — the turns of a call.
* `Scanner.next_of_turn` — a call that is over after one turn.
-/

namespace GrammarForge

open Relation

namespace Scanner

/-- The scanner after its automata have read `n` more characters. -/
def read (s : Scanner) (n : Nat) : Scanner :=
  { s with stats := { s.stats with chars := s.stats.chars + n } }

/-- **The longest match at the scanner's place** is one of `kind` and has `length` characters; it is
treated as `info` says. -/
structure HasMatch (t : ScanTables) (s : Scanner) (kind length : Nat) (info : KindInfo) : Prop where
  found : ∃ m, t.modes[s.mode]? = some m ∧ (m.longestMatch s.rest).1 = some ⟨kind, length⟩
  known : t.kinds[kind]? = some info

variable {t : ScanTables} {s s' : Scanner} {o : Outcome}

/-- After the end there is nothing to be scanned. -/
lemma turn_of_ended (h : s.ended = true) : s.turn t = .done .finished s := by
  simp [turn, h]

/-- **A turn at the end of the text** fails if a beginning is kept or the mode is missing, and delivers
the end of the input otherwise.

**Proof sketch.** By whether a beginning is kept, and then by whether the mode is one of the tables. -/
lemma turn_at_end (h : s.ended = false) (hrest : s.rest = []) :
    (∃ p, s.bufferStart = some p ∧ s.turn t = .done (.failed (.unterminated p)) s) ∨
      (s.turn t = .done (.failed (.unknownMode s.mode)) { s with ended := true }) ∨
      (s.bufferStart = none ∧ ∃ s', s'.ended = true ∧
        s.turn t = .done (.token ⟨⟨endKind, "", ⟨s.position, s.position⟩⟩, s.specials⟩) s') := by
  have hturn : s.turn t = s.atEnd t := by simp [turn, h, hrest]
  rw [hturn, atEnd]
  cases s.bufferStart with
  | some p => exact .inl ⟨p, rfl, rfl⟩
  | none =>
    dsimp only
    cases t.modes[s.mode]? with
    | none => exact .inr (.inl rfl)
    | some m => exact .inr (.inr ⟨rfl, _, rfl, rfl⟩)

/-- **The longest match is taken**, or else the turn fails. A turn that fails would fail again, whatever
the automata have read so far.

**Proof sketch.** By cases on the mode, on the longest match in it and on the kind of the match. In the
first three of them the turn fails, and for this it does not matter what has been read. -/
lemma atText_cases (t : ScanTables) (s : Scanner) (c : Char) :
    (∃ e n, ∀ k, (s.read k).atText t c = .done (.failed e) ((s.read k).read n)) ∨
      ∃ kind length info n, s.HasMatch t kind length info ∧
        s.atText t c = treat info kind s.position ((s.read n).consume length) := by
  cases hmode : t.modes[s.mode]? with
  | none => exact .inl ⟨.unknownMode s.mode, 0, fun k => by simp [atText, read, hmode]⟩
  | some m =>
    rcases hmatch : m.longestMatch s.rest with ⟨_ | ⟨kind, length⟩, n⟩
    · refine .inl ⟨.noMatch s.mode c s.position, n, fun k => ?_⟩
      simp [atText, read, hmode, hmatch]
    · cases hkind : t.kinds[kind]? with
      | none =>
        refine .inl ⟨.unknownKind kind, n, fun k => ?_⟩
        simp [atText, read, hmode, hmatch, hkind]
      | some info =>
        by_cases hempty : length = 0 ∧ info.nextMode.getD s.mode = s.mode
        · refine .inl ⟨.emptyMatch kind s.position, n, fun k => ?_⟩
          simp [atText, read, hmode, hmatch, hkind, hempty]
        · refine .inr ⟨kind, length, info, n, ⟨⟨m, hmode, by rw [hmatch]⟩, hkind⟩, ?_⟩
          simp only [atText, hmode, hmatch, hkind, read, Bool.and_eq_true, decide_eq_true_eq,
            if_neg hempty]

/-- **A turn in front of some text.** -/
lemma turn_in_text (h : s.ended = false) (hrest : s.rest ≠ []) :
    (∃ e n, ∀ k, (s.read k).turn t = .done (.failed e) ((s.read k).read n)) ∨
      ∃ kind length info n, s.HasMatch t kind length info ∧
        s.turn t = treat info kind s.position ((s.read n).consume length) := by
  obtain ⟨c, cs, hcons⟩ := List.exists_cons_of_ne_nil hrest
  have hturn : ∀ k, (s.read k).turn t = (s.read k).atText t c := by
    intro k
    simp [turn, read, h, hcons]
  rcases atText_cases t s c with ⟨e, n, hfail⟩ | ⟨kind, length, info, n, hmatch, htreat⟩
  · exact .inl ⟨e, n, fun k => (hturn k).trans (hfail k)⟩
  · exact .inr ⟨kind, length, info, n, hmatch, (hturn 0).trans htreat⟩

/-- A match that ends a call delivers a token. -/
lemma token_of_treat {info : KindInfo} {kind : Nat} {start : Position}
    (h : treat info kind start s = .done o s') : ∃ token, o = .token token := by
  rw [treat] at h
  cases haction : info.action with
  | token =>
    rw [haction] at h
    cases h
    exact ⟨_, rfl⟩
  | more | skip | special =>
    rw [haction] at h
    cases h

/-- Before the end has been reported, no turn finds the scan over. -/
lemma turn_ne_finished (h : s.ended = false) : s.turn t ≠ .done .finished s' := by
  intro hdone
  by_cases hrest : s.rest = []
  · rcases turn_at_end (t := t) h hrest with ⟨p, -, hturn⟩ | hturn | ⟨-, s₁, -, hturn⟩ <;>
      cases hdone.symm.trans hturn
  · rcases turn_in_text (t := t) h hrest with ⟨e, n, hfail⟩ | ⟨kind, length, info, n, -, hturn⟩
    · cases hdone.symm.trans (hfail 0)
    · obtain ⟨token, ho⟩ := token_of_treat (hturn.symm.trans hdone)
      cases ho

/-! ## Calls -/

/-- A turn after which the call goes on. -/
def Goes (t : ScanTables) (s s' : Scanner) : Prop := s.turn t = .again s'

/-- **A call is a row of turns**, the last of which ends it.

**Proof sketch.** Induction on the number of turns: the first turn ends the call, or the call goes on
behind it. -/
lemma nextWithin_eq_some {turns : Nat} (h : s.nextWithin t turns = some (o, s')) :
    ∃ s₁, ReflTransGen (Goes t) s s₁ ∧ s₁.turn t = .done o s' := by
  induction turns generalizing s with
  | zero => cases h
  | succ turns ih =>
    rw [nextWithin] at h
    cases hturn : s.turn t with
    | done o₁ s₁ =>
      rw [hturn] at h
      cases h
      exact ⟨s, .refl, hturn⟩
    | again s₁ =>
      rw [hturn] at h
      obtain ⟨s₂, hgoes, hdone⟩ := ih h
      exact ⟨s₂, .head hturn hgoes, hdone⟩

/-- A turn that gives something is all that the next call does. -/
lemma next_of_turn (h : s.turn t = .done o s') : s.next t = some (o, s') := by
  simp [next, turnBound, nextWithin, h]

end Scanner

end GrammarForge
