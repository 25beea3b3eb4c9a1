import GrammarForge.Proofs.Numbering
import GrammarForge.Proofs.TokenAutomaton
import GrammarForge.Scanner.LongestMatch

set_option autoImplicit false

/-!
# The longest match

A scan mode that mirrors an automaton accepts the same kinds along every text, and remembers the
one accepted last. If the automaton recognizes the languages of tokens, this is the longest match:
no longer beginning of the text is a token's, and of the tokens that have it the lowest is taken.

## Main definitions

* `IsLongestMatch` — the longest match at the beginning of a text, and its token.
* `Mirrors.Related` — active states of an automaton and the active numbers of its scan mode.

## Main results

* `Mirrors.step` — reading a character accepts the same kind and keeps active states related.
* `Recognizes.isLongestMatch` — the scan mode of a lexical state finds the longest match.
-/

namespace GrammarForge

open Automaton

/-- **The longest match** at the beginning of a text, among the texts `lang k` of tokens `k`: the
longest beginning that some token has, and the lowest token that has it. There is no match if no
token has any beginning of the text, the empty one included. Lengths count characters. -/
def IsLongestMatch (lang : Nat → Language Char) (text : List Char) : Option Match → Prop
  | none => ∀ n k, text.take n ∉ lang k
  | some ⟨kind, length⟩ => length ≤ text.length ∧
      LowestKind (fun k => text.take length ∈ lang k) (some kind) ∧
      ∀ n k, length < n → n ≤ text.length → text.take n ∉ lang k

section

variable {lang : Nat → Language Char}

/-- The longest match at the beginning of the empty text is the empty one. -/
lemma isLongestMatch_nil {kind : Option Nat} (h : LowestKind (fun k => [] ∈ lang k) kind) :
    IsLongestMatch lang [] (kind.map fun k => ⟨k, 0⟩) := by
  cases kind with
  | none =>
    intro n k
    rw [List.take_nil]
    exact h k
  | some kind => exact ⟨le_rfl, h, fun n k hlt hle => absurd (hlt.trans_le hle) (lt_irrefl 0)⟩

/-- One more character: the whole text is the longest match if a token has it; otherwise the
longest match stays as it was.

**Proof sketch.** Shorter prefixes of the longer text are those of the text. The whole text is longer
than all of them, so that it counts if a token has it, with the lowest kind. -/
lemma IsLongestMatch.snoc {text : List Char} {c : Char} {best : Option Match} {kind : Option Nat}
    (h : IsLongestMatch lang text best) :
    LowestKind (fun k => text ++ [c] ∈ lang k) kind →
      IsLongestMatch lang (text ++ [c]) (match kind with
        | some k => some ⟨k, text.length + 1⟩
        | none => best) := by
  intro hkind
  have hlen : (text ++ [c]).length = text.length + 1 := by simp
  have hall : ∀ n, text.length < n → (text ++ [c]).take n = text ++ [c] := by
    intro n hn
    exact List.take_of_length_le (by omega)
  have hshort : ∀ n ≤ text.length, (text ++ [c]).take n = text.take n := by
    intro n hn
    exact List.take_append_of_le_length hn
  cases kind with
  | some k =>
    refine ⟨hlen.ge, ?_, fun n _ hlt hle => absurd (hlen ▸ hle) (by omega)⟩
    rw [hall _ (Nat.lt_succ_self _)]
    exact hkind
  | none =>
    cases best with
    | none =>
      intro n k
      rcases Nat.lt_or_ge text.length n with hn | hn
      · rw [hall n hn]
        exact hkind k
      · rw [hshort n hn]
        exact h n k
    | some m =>
      obtain ⟨hle, hlow, hmax⟩ := h
      refine ⟨hle.trans (by omega), ?_, fun n k hlt hn => ?_⟩
      · rw [hshort _ hle]
        exact hlow
      · rcases Nat.lt_or_ge text.length n with hn | hn
        · rw [hall n hn]
          exact hkind k
        · rw [hshort n hn]
          exact hmax n k hlt hn

end

/-! ## Runs of a scan mode -/

namespace ScanMode

/-- Without active states nothing is completed, and none become active. -/
lemma step_nil (m : ScanMode) (c : Char) : m.step [] c = (none, []) := by
  simp [step, moving]

/-- Without active states the best match stays. -/
lemma runFrom_nil (m : ScanMode) (taken : Nat) (best : Option Match) (text : List Char) :
    (m.runFrom [] taken best text).1 = best := by
  cases text <;> rfl

/-- Stopping early makes no difference: a run without active states would not match any more. -/
lemma runFrom_cons (m : ScanMode) (active : List Nat) (taken : Nat) (best : Option Match) (c : Char)
    (cs : List Char) : (m.runFrom active taken best (c :: cs)).1 =
      (m.runFrom (m.step active c).2 (taken + 1) (match (m.step active c).1 with
        | some k => some ⟨k, taken + 1⟩
        | none => best) cs).1 := by
  cases active with
  | nil => rw [runFrom_nil, step_nil, runFrom_nil]
  | cons i active => rfl

/-- **One step of a scan mode**: the kind accepted is the lowest one of a state that moves, and the
states active afterwards are the successors of these. -/
lemma step_spec (m : ScanMode) (active : List Nat) (c : Char) :
    LowestKind (fun k => ∃ i ∈ active, (m.state i).moves.canMove c ∧ (m.state i).kind = some k)
        (m.step active c).1 ∧
      ∀ j, j ∈ (m.step active c).2 ↔
        ∃ i ∈ active, (m.state i).moves.canMove c ∧ j ∈ m.successors i := by
  constructor
  · exact (lowestKind_foldl (fun i => (m.state i).kind) _ (lowestKind_single none)).congr
      fun k => by simp [moving, and_assoc]
  · intro j
    simp [step, moving, List.mem_eraseDups, and_assoc]

end ScanMode

/-! ## A scan mode and its automaton -/

namespace Mirrors

variable {a : Automaton} {initial : Nat} {m : ScanMode} {number : Nat → Option Nat}
  {order : List Nat}

/-- The active numbers are those of the active states, and active states with moves have one. -/
structure Related (a : Automaton) (number : Nat → Option Nat) (order states numbers : List Nat) :
    Prop where
  mem : ∀ j, j ∈ numbers ↔ ∃ i ∈ states, number i = some j
  ordered : ∀ i ∈ states, (a.state i).hasMoves → i ∈ order

/-- A match begins in related states. -/
lemma related_initial (h : Mirrors a initial m number order) :
    Related a number order (a.state initial).epsilon m.initialStates :=
  ⟨h.initialStates, h.first⟩

/-- **Reading a character** accepts the same kind and keeps active states related.

**Proof sketch.** A number that moves is that of a state that moves in the same way. Conversely, a
state that moves has moves, so it is numbered. -/
lemma step (h : Mirrors a initial m number order) {states numbers : List Nat}
    (hrel : Related a number order states numbers) (c : Char) :
    (m.step numbers c).1 = (a.step MoveTable.canMove states c).1 ∧
      Related a number order (a.step MoveTable.canMove states c).2 (m.step numbers c).2 := by
  obtain ⟨hkind, hnext⟩ := m.step_spec numbers c
  obtain ⟨hkind', hnext'⟩ := a.step_spec MoveTable.canMove states c
  have hmoving : ∀ p : Nat → Prop,
      (∃ j ∈ numbers, (m.state j).moves.canMove c ∧ p j) ↔
        ∃ i ∈ states, (a.state i).moves.canMove c ∧ ∃ j, number i = some j ∧ p j := by
    intro p
    constructor
    · rintro ⟨j, hj, hc, hp⟩
      obtain ⟨i, hi, hij⟩ := (hrel.mem j).mp hj
      rw [h.moves hij] at hc
      exact ⟨i, hi, hc, j, hij, hp⟩
    · rintro ⟨i, hi, hc, j, hij, hp⟩
      rw [← h.moves hij] at hc
      exact ⟨j, (hrel.mem j).mpr ⟨i, hi, hij⟩, hc, hp⟩
  have hordered : ∀ i ∈ states, (a.state i).moves.canMove c → i ∈ order := fun i hi hc =>
    hrel.ordered i hi (hasMoves_of_canMove hc)
  refine ⟨?_, ?_, ?_⟩
  · refine LowestKind.unique (hkind.congr fun k => ?_) hkind' (fun k hk => ⟨k, le_rfl, hk⟩)
      (fun k hk => ⟨k, le_rfl, hk⟩)
    rw [hmoving]
    simp only [mem_landings]
    constructor
    · rintro ⟨i, hi, hc, j, hij, hk⟩
      rw [h.kind hij, completedKind, Option.bind_eq_some_iff] at hk
      obtain ⟨n, hn, hk⟩ := hk
      exact ⟨n, ⟨i, hi, hc, hn⟩, hk⟩
    · rintro ⟨n, ⟨i, hi, hc, hn⟩, hk⟩
      obtain ⟨j, hij⟩ := h.numbered i (hordered i hi hc)
      refine ⟨i, hi, hc, j, hij, ?_⟩
      rw [h.kind hij, completedKind, hn]
      exact hk
  · intro j
    rw [hnext, hmoving]
    constructor
    · rintro ⟨i, hi, hc, l, hil, hj⟩
      obtain ⟨x, hx, hxj⟩ := (h.successors hil j).mp hj
      obtain ⟨n, hn, hx⟩ := mem_afterMove.mp hx
      exact ⟨x, (hnext' x).mpr ⟨n, mem_landings.mpr ⟨i, hi, hc, hn⟩, hx⟩, hxj⟩
    · rintro ⟨x, hx, hxj⟩
      obtain ⟨n, hland, hx⟩ := (hnext' x).mp hx
      obtain ⟨i, hi, hc, hn⟩ := mem_landings.mp hland
      obtain ⟨l, hil⟩ := h.numbered i (hordered i hi hc)
      exact ⟨i, hi, hc, l, hil, (h.successors hil j).mpr ⟨x, mem_afterMove.mpr ⟨n, hn, hx⟩, hxj⟩⟩
  · intro x hx hmoves
    obtain ⟨n, hland, hx⟩ := (hnext' x).mp hx
    obtain ⟨i, hi, hc, hn⟩ := mem_landings.mp hland
    exact h.after i (hordered i hi hc) x (mem_afterMove.mpr ⟨n, hn, hx⟩) hmoves

/-- **A run of a scan mode** from related states, after the text `pre`, of which `best` is the
longest match.

**Proof sketch.** Induction on the rest of the text; each character makes the text read longer by
one, and the kind accepted is the lowest token that has all of it. -/
lemma isLongestMatch_runFrom (h : Mirrors a initial m number order) {lang : Nat → Language Char}
    (text : List Char) : ∀ (pre : List Char) {states numbers : List Nat} {best : Option Match},
    Related a number order states numbers → IsLongestMatch lang pre best →
    (∀ n < text.length, ∃ k, (a.acceptedKinds MoveTable.canMove states text)[n]? = some k ∧
      LowestKind (fun κ => pre ++ text.take (n + 1) ∈ lang κ) k) →
    IsLongestMatch lang (pre ++ text) (m.runFrom numbers pre.length best text).1 := by
  induction text with
  | nil =>
    intro pre states numbers best _ hbest _
    rw [List.append_nil]
    exact hbest
  | cons c cs ih =>
    intro pre states numbers best hrel hbest hkinds
    obtain ⟨hkind, hrel'⟩ := h.step hrel c
    obtain ⟨k, hk, hlow⟩ := hkinds 0 (Nat.zero_lt_succ _)
    rw [acceptedKinds, List.getElem?_cons_zero, Option.some_inj] at hk
    rw [m.runFrom_cons, hkind, hk, List.append_cons]
    have hbest' := hbest.snoc hlow
    have hrest := ih (pre ++ [c]) hrel' hbest' fun n hn => ?_
    · rwa [List.length_append, List.length_singleton] at hrest
    · obtain ⟨k, hk, hlow⟩ := hkinds (n + 1) (Nat.succ_lt_succ hn)
      refine ⟨k, hk, hlow.congr fun κ => ?_⟩
      rw [List.take_succ_cons, List.append_cons]

end Mirrors

/-- **The scan mode of a lexical state finds the longest match** of the tokens that the lexical
state recognizes. -/
theorem Recognizes.isLongestMatch {s : LexicalState} {lang : Nat → Language Char}
    (h : Recognizes s lang) (ha : s.automaton.WellFormed) {starts : List (Nat × Nat)}
    (hs : s.numbering = s.automaton.number s.initialState starts) (text : List Char) :
    IsLongestMatch lang text (s.scanMode.longestMatch text).1 := by
  obtain ⟨order, hmirrors⟩ := mirrors_number ha.toInRange hs
  exact hmirrors.isLongestMatch_runFrom text [] hmirrors.related_initial
    (isLongestMatch_nil h.empty) fun n hn => h.run text hn

end GrammarForge
