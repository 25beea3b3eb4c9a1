import GrammarForge.Proofs.ScannerTurns

set_option autoImplicit false

/-!
# Failed calls

A call for the next token that fails leaves the scanner at the place of the failure, with all that
waits for the next token. The next call fails in the same way there. There is one exception: at the
end of the text, in a mode that the tables do not have, the failure is reported once only.

## Main results

* `Scanner.turn_failed_again` — a turn that fails would fail again.
* `Scanner.next_failed_again` — a call that fails would fail again.
* `Scanner.next_forgets_failure` — the exception.
-/

namespace GrammarForge

namespace Scanner

variable {t : ScanTables} {s s' : Scanner} {e : ScanError}

/-- **A turn that fails would fail again**, and only the count of characters read goes on, unless the
mode is missing at the end of the text.

**Proof sketch.** In front of some text the turn does not depend on that count. At the end of the
text, the beginning that is kept is still there. -/
lemma turn_failed_again (h : s.turn t = .done (.failed e) s')
    (hend : s'.rest = [] → ∀ mode, e ≠ .unknownMode mode) :
    ∃ n, s'.turn t = .done (.failed e) (s'.read n) := by
  cases hended : s.ended with
  | true =>
    rw [turn_of_ended hended] at h
    cases h
  | false =>
    by_cases hrest : s.rest = []
    · rcases turn_at_end hended hrest with ⟨p, -, hturn⟩ | hturn | ⟨-, s₁, -, hturn⟩
      · cases h.symm.trans hturn
        exact ⟨0, hturn⟩
      · cases h.symm.trans hturn
        exact absurd rfl (hend hrest s.mode)
      · cases h.symm.trans hturn
    · rcases turn_in_text hended hrest with ⟨e', n, hfail⟩ | ⟨kind, length, info, n, -, hturn⟩
      · cases h.symm.trans (hfail 0)
        exact ⟨n, hfail n⟩
      · obtain ⟨token, ho⟩ := token_of_treat (hturn.symm.trans h)
        cases ho

/-- **Failures are stable and lose nothing.** If a call for the next token fails, so does the next
call, with the same error, and it leaves everything as it is: the rest of the text, the position,
the mode, the beginning that is kept and its start, the special lexemes that wait, and the number of
tokens. Only the characters that the automata read are counted once more. The one failure for which
this is not so is that of a missing mode at the end of the text.

**Proof sketch.** A failed call ends with a turn that fails (`nextWithin_eq_some`), and this turn fails
again in the state that it leaves (`turn_failed_again`). -/
theorem next_failed_again (h : s.next t = some (.failed e, s'))
    (hend : s'.rest = [] → ∀ mode, e ≠ .unknownMode mode) :
    ∃ n, s'.next t = some (.failed e, s'.read n) := by
  obtain ⟨s₁, -, hturn⟩ := nextWithin_eq_some h
  obtain ⟨n, hagain⟩ := turn_failed_again hturn hend
  exact ⟨n, next_of_turn hagain⟩

/-- A special lexeme `#`, after which the mode `nextMode` is entered. -/
def remarkTables (nextMode : Option Nat) : ScanTables where
  modes := #[{ states := #[{ moves := ({} : MoveTable).addChar '#', kind := some 1 }]
               initial := some 0 }]
  kinds := #[{ label := "EOF" }, { label := "REMARK", action := .special, nextMode }]

/-- Behind a special token nothing matches: the next call fails, and so does every further one. -/
theorem next_failed_again_pendingRemark : ∃ s',
    (start (remarkTables none) "#?").next (remarkTables none) =
      some (.failed (.noMatch 0 '?' ⟨1, 2⟩), s') ∧ s'.rest = ['?'] ∧ s'.specials ≠ [] ∧
      ∃ n, s'.next (remarkTables none) =
        some (.failed (.noMatch 0 '?' ⟨1, 2⟩), s'.read n) := by
  have h : (start (remarkTables none) "#?").next (remarkTables none) =
      some (.failed (.noMatch 0 '?' ⟨1, 2⟩),
        { rest := ['?'], position := ⟨1, 2⟩, mode := 0, specials := [⟨1, "#", ⟨⟨1, 1⟩, ⟨1, 2⟩⟩⟩]
          stats := { chars := 2, matched := 1 } }) := by decide
  refine ⟨_, h, rfl, by decide, next_failed_again h fun hrest => ?_⟩
  cases hrest

/-- **A missing mode at the end of the text** is reported once: the next call finds the scan over, and
neither the special lexeme that waits nor the end of the input is ever delivered. -/
theorem next_forgets_failure : ∃ s',
    (start (remarkTables (some 1)) "#").next (remarkTables (some 1)) =
      some (.failed (.unknownMode 1), s') ∧ s'.specials ≠ [] ∧
      s'.next (remarkTables (some 1)) = some (.finished, s') := by
  have h : (start (remarkTables (some 1)) "#").next (remarkTables (some 1)) =
      some (.failed (.unknownMode 1),
        { rest := [], position := ⟨1, 2⟩, mode := 1, specials := [⟨1, "#", ⟨⟨1, 1⟩, ⟨1, 2⟩⟩⟩]
          ended := true, stats := { chars := 1, matched := 1 } }) := by decide
  exact ⟨_, h, by decide, by decide⟩

end Scanner

end GrammarForge
