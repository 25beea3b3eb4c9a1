import GrammarForge.Proofs.Derivations
import GrammarForge.Proofs.MatchPaths
import GrammarForge.Proofs.ScannerTurns

set_option autoImplicit false

/-!
# Progress of a scan

A turn need not end a call, since a match may be skipped or kept, and it need not take any text
either: the empty match of a mode is fine as long as it leads to another mode. So a scan can go on for
ever, but only round a cycle of modes that empty matches lead along. Without such cycles every call
comes to an end, and so does the scan of every text.

The bound on the turns that are left goes down with each of them. Every character that is left counts
for as many turns as there are modes; at one place the turns are counted by a rank of the modes, which
empty matches lead down.

## Main definitions

* `ScanTables.EmptySwitch` — an empty match leads from one mode to another.
* `ScanTables.RankedBy` — empty matches lead down in a rank.
* `Scanner.Proceeds` — a turn after which the scan goes on, in the same call or the next one.
* `Scanner.turnsLeft` — a bound on the turns that are left.

## Main results

* `Scanner.Proceeds.cases` — what a turn after which the scan goes on has done.
* `Scanner.turnsLeft_lt` — such a turn leaves fewer turns.
* `Scanner.scan_ends` — without cycles of empty matches, calls and scans come to an end.
-/

namespace GrammarForge

open Relation

namespace ScanTables

variable {t : ScanTables}

/-- **The empty match of the mode `m` leads to another mode** `n`. -/
def EmptySwitch (t : ScanTables) (m n : Nat) : Prop :=
  n ≠ m ∧ ∃ mode k info, t.modes[m]? = some mode ∧ mode.emptyMatch = some k ∧
    t.kinds[k]? = some info ∧ info.nextMode = some n

/-- Only a mode of the tables can be switched without text. -/
lemma EmptySwitch.lt_size {m n : Nat} (h : t.EmptySwitch m n) : m < t.modes.size := by
  obtain ⟨-, mode, k, info, hmode, -⟩ := h
  exact (Array.getElem?_eq_some_iff.mp hmode).1

/-- A rank of the modes, in which empty matches lead down. -/
structure RankedBy (t : ScanTables) (rank : Nat → Nat) : Prop where
  le : ∀ m, rank m ≤ t.modes.size
  pos : ∀ m < t.modes.size, 0 < rank m
  down : ∀ m n, t.EmptySwitch m n → rank n < rank m

/-- Without cycles of empty switches the modes have ranks. -/
lemma exists_rankedBy (hacyclic : ∀ m, ¬ TransGen t.EmptySwitch m m) :
    ∃ rank, t.RankedBy rank := by
  obtain ⟨rank, hle, hpos, hdown⟩ := exists_pos_rank (fun _ _ h => h.lt_size) hacyclic
  exact ⟨rank, hle, hpos, hdown⟩

end ScanTables

/-- A match without any text is the empty match of the mode. -/
lemma ScanMode.emptyMatch_of_length_zero {m : ScanMode} {text : List Char} {kind : Nat}
    (h : (m.longestMatch text).1 = some ⟨kind, 0⟩) : m.emptyMatch = some kind := by
  have hlongest := m.isLongestMatch_paths text
  rw [h] at hlongest
  obtain ⟨-, ⟨hkind, -⟩, -⟩ := hlongest
  exact (hkind.resolve_right fun hpath => hpath.ne_nil List.take_zero).2

namespace Scanner

variable {t : ScanTables} {s s' : Scanner} {rank : Nat → Nat}

/-! ## What a turn does to the text and the mode -/

/-- **A turn after which the scan goes on**: the call goes on, or it has delivered a token. -/
def Proceeds (t : ScanTables) (s s' : Scanner) : Prop :=
  s.turn t = .again s' ∨ ∃ token, s.turn t = .done (.token token) s'

/-- A call that delivers a token is a row of turns after which the scan goes on. -/
lemma proceeds_of_next {token : Token} (h : s.next t = some (.token token, s')) :
    TransGen (Proceeds t) s s' := by
  obtain ⟨s₁, hgoes, hdone⟩ := nextWithin_eq_some h
  have hgoes : ReflTransGen (Proceeds t) s s₁ := ReflTransGen.mono (fun _ _ h => Or.inl h) _ _ hgoes
  exact .tail' hgoes (.inr ⟨token, hdone⟩)

/-- Treating a match leaves the text alone, and leads to the mode that the match's kind says. -/
lemma fields_of_treat {info : KindInfo} {kind : Nat} {start : Position}
    (h : treat info kind start s = .again s' ∨ ∃ o, treat info kind start s = .done o s') :
    s'.rest = s.rest ∧ s'.mode = info.nextMode.getD s.mode ∧ s'.ended = s.ended := by
  unfold treat at h
  cases haction : info.action with
  | more | skip | special | token =>
    rw [haction] at h
    rcases h with h | ⟨o, h⟩ <;> cases h
    exact ⟨rfl, rfl, rfl⟩

/-- **An empty match that stays in its mode** is an error. -/
lemma turn_of_empty_match {kind : Nat} {info : KindInfo} (hended : s.ended = false)
    (hrest : s.rest ≠ []) (hmatch : s.HasMatch t kind 0 info)
    (hstay : info.nextMode.getD s.mode = s.mode) :
    ∃ s', s.turn t = .done (.failed (.emptyMatch kind s.position)) s' := by
  obtain ⟨⟨m, hmode, hfound⟩, hknown⟩ := hmatch
  obtain ⟨c, cs, hcons⟩ := List.exists_cons_of_ne_nil hrest
  have hturn : s.turn t = s.atText t c := by simp [turn, hended, hcons]
  rw [hturn, atText]
  simp [hmode, hfound, hknown, hstay]

/-- **What a turn after which the scan goes on has done**: it has reported the end of the text, or it
has taken a match that has some text or leads to another mode.

**Proof sketch.** A turn of a scan that has ended is a failure or nothing. At the end of the text the
turn reports the end; within the text it has taken the longest match, for otherwise it has failed. -/
lemma Proceeds.cases (h : Proceeds t s s') : s.ended = false ∧
    ((s.rest = [] ∧ s'.ended = true ∧ ∃ o, s.turn t = .done o s') ∨
      (s.rest ≠ [] ∧ s'.ended = false ∧ ∃ kind length info, s.HasMatch t kind length info ∧
        s'.rest = s.rest.drop length ∧ s'.mode = info.nextMode.getD s.mode ∧
        (length = 0 → s'.mode ≠ s.mode))) := by
  have hfailed : ∀ e s₁, s.turn t ≠ .done (.failed e) s₁ := by
    intro e s₁ hturn
    rcases h with h | ⟨token, h⟩ <;> cases hturn.symm.trans h
  cases hended : s.ended with
  | true =>
    have hturn := turn_of_ended (t := t) hended
    rcases h with h | ⟨token, h⟩ <;> cases hturn.symm.trans h
  | false =>
    refine ⟨rfl, ?_⟩
    by_cases hrest : s.rest = []
    · refine .inl ⟨hrest, ?_⟩
      rcases turn_at_end (t := t) hended hrest with ⟨p, -, hturn⟩ | hturn | ⟨-, s₁, hs₁, hturn⟩
      · exact absurd hturn (hfailed _ _)
      · exact absurd hturn (hfailed _ _)
      · rcases h with h | ⟨token, h⟩ <;> cases hturn.symm.trans h
        exact ⟨hs₁, _, hturn⟩
    · refine .inr ⟨hrest, ?_⟩
      rcases turn_in_text (t := t) hended hrest with ⟨e, n, hfail⟩ |
        ⟨kind, length, info, n, hmatch, hturn⟩
      · exact absurd (hfail 0) (hfailed _ _)
      · have htreat : treat info kind s.position ((s.read n).consume length) = .again s' ∨
            ∃ o, treat info kind s.position ((s.read n).consume length) = .done o s' := by
          rw [← hturn]
          exact h.imp_right fun ⟨token, h⟩ => ⟨_, h⟩
        obtain ⟨htext, hmode, hgoing⟩ := fields_of_treat htreat
        refine ⟨hgoing.trans hended, kind, length, info, hmatch, htext, hmode, ?_⟩
        rintro rfl hstay
        obtain ⟨s₁, hempty⟩ := turn_of_empty_match hended hrest hmatch (hmode.symm.trans hstay)
        exact hfailed _ _ hempty

/-- An empty match after which the scan goes on leads to another mode. -/
lemma HasMatch.emptySwitch {kind : Nat} {info : KindInfo} (h : s.HasMatch t kind 0 info)
    (hmove : info.nextMode.getD s.mode ≠ s.mode) :
    t.EmptySwitch s.mode (info.nextMode.getD s.mode) := by
  obtain ⟨⟨m, hmode, hfound⟩, hknown⟩ := h
  cases hnext : info.nextMode with
  | none =>
    rw [hnext] at hmove
    exact absurd rfl hmove
  | some n =>
    rw [hnext] at hmove
    exact ⟨hmove, m, kind, info, hmode, ScanMode.emptyMatch_of_length_zero hfound, hknown, hnext⟩

/-! ## Turns that are left -/

/-- **A bound on the turns that are left**, if empty matches lead down in a rank. -/
def turnsLeft (t : ScanTables) (rank : Nat → Nat) (s : Scanner) : Nat :=
  if s.ended then 0
  else
    match s.rest with
    | [] => 1
    | _ :: cs => cs.length * t.modes.size + rank s.mode + 1

/-- After the end no turns are left. -/
lemma turnsLeft_of_ended (h : s.ended = true) : s.turnsLeft t rank = 0 := by
  simp [turnsLeft, h]

/-- At the end of the text one turn is left. -/
lemma turnsLeft_nil (h : s.ended = false) (hrest : s.rest = []) : s.turnsLeft t rank = 1 := by
  simp [turnsLeft, h, hrest]

/-- Within the text a turn is left for each change of the mode before the next character. -/
lemma turnsLeft_cons {c : Char} {cs : List Char} (h : s.ended = false) (hrest : s.rest = c :: cs) :
    s.turnsLeft t rank = cs.length * t.modes.size + rank s.mode + 1 := by
  simp [turnsLeft, h, hrest]

/-- Before the end some turn is left. -/
lemma turnsLeft_pos (h : s.ended = false) : 0 < s.turnsLeft t rank := by
  cases hrest : s.rest with
  | nil =>
    rw [turnsLeft_nil h hrest]
    exact Nat.one_pos
  | cons c cs =>
    rw [turnsLeft_cons h hrest]
    exact Nat.succ_pos _

/-- The turns that are left are within the bound of a call. -/
lemma turnsLeft_le (ht : t.RankedBy rank) (s : Scanner) : s.turnsLeft t rank ≤ s.turnBound t := by
  have hle := ht.le s.mode
  unfold turnsLeft turnBound
  split_ifs
  · exact Nat.zero_le _
  · cases s.rest with
    | nil => exact Nat.le_add_left 1 _
    | cons c cs =>
      rw [List.length_cons, Nat.succ_mul]
      dsimp only
      omega

/-- **A turn after which the scan goes on leaves fewer turns.**

**Proof sketch.** An empty match leads down in the rank, at the same place. Any other match takes some
text, and then the characters that are left count for less, whatever the rank of the next mode. -/
lemma turnsLeft_lt (ht : t.RankedBy rank) (h : Proceeds t s s') :
    s'.turnsLeft t rank < s.turnsLeft t rank := by
  obtain ⟨hended, ⟨hrest, hended', -⟩ |
    ⟨hrest, hended', kind, length, info, hmatch, hdrop, hmode, hmove⟩⟩ := h.cases
  · rw [turnsLeft_of_ended hended', turnsLeft_nil hended hrest]
    exact Nat.one_pos
  · obtain ⟨c, cs, hcons⟩ := List.exists_cons_of_ne_nil hrest
    obtain ⟨m, hm, -⟩ := hmatch.found
    have hpos := ht.pos s.mode (Array.getElem?_eq_some_iff.mp hm).1
    rw [turnsLeft_cons hended hcons]
    rw [hcons] at hdrop
    cases length with
    | zero =>
      have hmove := hmove rfl
      have hdown : rank s'.mode < rank s.mode := by
        rw [hmode] at hmove ⊢
        exact ht.down _ _ (hmatch.emptySwitch hmove)
      rw [turnsLeft_cons hended' hdrop]
      omega
    | succ length =>
      rw [List.drop_succ_cons] at hdrop
      cases hrest' : s'.rest with
      | nil =>
        rw [turnsLeft_nil hended' hrest']
        omega
      | cons c' cs' =>
        have hle := ht.le s'.mode
        have hlength : cs'.length + 1 ≤ cs.length := by
          rw [← List.length_cons (a := c'), ← hrest', hdrop, List.length_drop]
          exact Nat.sub_le _ _
        have hmul := Nat.mul_le_mul_right t.modes.size hlength
        rw [Nat.succ_mul] at hmul
        rw [turnsLeft_cons hended' hrest']
        omega

/-- Along a row of turns, too, fewer and fewer are left. -/
lemma turnsLeft_lt_of_transGen (ht : t.RankedBy rank) (h : TransGen (Proceeds t) s s') :
    s'.turnsLeft t rank < s.turnsLeft t rank := by
  induction h with
  | single h => exact turnsLeft_lt ht h
  | tail _ h ih => exact (turnsLeft_lt ht h).trans ih

/-! ## Calls and scans -/

/-- The end of the text is reported by the last turn of a call. -/
lemma ended_of_goes (h : Goes t s s') : s'.ended = false := by
  have hproceeds : Proceeds t s s' := .inl h
  obtain ⟨-, ⟨-, -, o, hdone⟩ | ⟨-, hended, -⟩⟩ := hproceeds.cases
  · cases h.symm.trans hdone
  · exact hended

/-- **A call comes to an end** within the turns that are left. -/
lemma nextWithin_of_turnsLeft_le (ht : t.RankedBy rank) {turns : Nat} (hended : s.ended = false)
    (hle : s.turnsLeft t rank ≤ turns) : ∃ o s', s.nextWithin t turns = some (o, s') := by
  induction turns generalizing s with
  | zero => exact absurd hle (turnsLeft_pos hended).not_ge
  | succ turns ih =>
    rw [nextWithin]
    cases hturn : s.turn t with
    | done o s' => exact ⟨o, s', rfl⟩
    | again s' =>
      have hlt := turnsLeft_lt ht (.inl hturn)
      exact ih (ended_of_goes hturn) (by omega)

/-- The bound of a call is enough. -/
lemma next_of_rankedBy (ht : t.RankedBy rank) (s : Scanner) : ∃ o s', s.next t = some (o, s') := by
  cases hended : s.ended with
  | true => exact ⟨_, _, next_of_turn (turn_of_ended hended)⟩
  | false => exact nextWithin_of_turnsLeft_le ht hended (turnsLeft_le ht s)

/-- **A scan comes to an end**: no more tokens are delivered than turns are left.

**Proof sketch.** Induction on the number of tokens, with the turns left as the bound: the next token
takes at least one turn. -/
lemma tokensWithin_of_turnsLeft_lt (ht : t.RankedBy rank) {count : Nat}
    (hlt : s.turnsLeft t rank < count) : ∃ r, s.tokensWithin t count = some r := by
  induction count generalizing s with
  | zero => exact absurd hlt (Nat.not_lt_zero _)
  | succ count ih =>
    obtain ⟨o, s', hnext⟩ := next_of_rankedBy ht s
    rw [tokensWithin, hnext]
    cases o with
    | finished => exact ⟨_, rfl⟩
    | failed e => exact ⟨_, rfl⟩
    | token token =>
      have hfewer := turnsLeft_lt_of_transGen ht (proceeds_of_next hnext)
      obtain ⟨r, hr⟩ := ih (s := s') (by omega)
      dsimp only
      rw [hr]
      exact ⟨_, rfl⟩

/-- **Without cycles of empty matches, scanning makes progress.** Let no empty matches lead from a mode
back to itself by way of other modes. Then there is no endless row of turns, whatever is skipped, kept
or delivered on the way; every call for the next token comes to an end, from whatever state of a scan;
and all tokens of every text are found, or an error.

**Proof sketch.** Without cycles the modes have ranks (`exists_rankedBy`), by which every turn leaves
fewer turns (`turnsLeft_lt`). So turns are well founded, and a call and a whole scan end when none are
left. -/
theorem scan_ends (hacyclic : ∀ m, ¬ TransGen t.EmptySwitch m m) :
    (WellFounded fun s' s => Proceeds t s s') ∧
      (∀ s : Scanner, ∃ o s', s.next t = some (o, s')) ∧
      ∀ text : String, ∃ r, tokenizeAll t text = some r := by
  obtain ⟨rank, ht⟩ := ScanTables.exists_rankedBy hacyclic
  refine ⟨?_, next_of_rankedBy ht, fun text => ?_⟩
  · exact Subrelation.wf (turnsLeft_lt ht) (measure (turnsLeft t rank)).wf
  · have hle := turnsLeft_le ht (Scanner.start t text)
    exact tokensWithin_of_turnsLeft_lt ht (by omega)

/-- Three modes; empty matches lead from the first to the second and on to the third, and tokens lead
back. A blank is skipped in the first mode; the empty match of the second one is kept as a
beginning. -/
def cascade : ScanTables where
  modes := #[
    { states := #[{ moves := { ascii := BitVec.twoPow 128 32 }, kind := some 1 }]
      initial := some 0, emptyMatch := some 2 },
    { states := #[{ moves := { ascii := BitVec.twoPow 128 97 }, kind := some 3 }]
      initial := some 0, emptyMatch := some 4 },
    { states := #[{ moves := { ascii := BitVec.twoPow 128 98 }, kind := some 5 }]
      initial := some 0 }]
  kinds := #[
    { label := "EOF" },
    { label := "BLANK", action := .skip },
    { label := "TRY_A", action := .skip, nextMode := some 1 },
    { label := "A", nextMode := some 0 },
    { label := "TRY_B", action := .more, nextMode := some 2 },
    { label := "B", nextMode := some 0 }]

/-- Three modes that switch to the next one without text, without a cycle: scanning ends in all cases,
and a text of two words gives its tokens. -/
theorem scan_ends_cascade : (∀ m, ¬ TransGen cascade.EmptySwitch m m) ∧
    cascade.EmptySwitch 0 1 ∧ cascade.EmptySwitch 1 2 ∧
    (WellFounded fun s' s => Proceeds cascade s s') ∧
    (∀ s : Scanner, ∃ o s', s.next cascade = some (o, s')) ∧
    (∀ text : String, ∃ r, tokenizeAll cascade text = some r) ∧
    (tokenizeAll cascade "a b").map (Except.map (List.map fun token => token.kind)) =
      some (.ok [3, 5, 0]) := by
  have hdown : ∀ i j, cascade.EmptySwitch i j → 3 - j < 3 - i := by
    rintro i j ⟨-, mode, k, info, hmode, hempty, hkind, hnext⟩
    obtain ⟨hi, rfl⟩ := Array.getElem?_eq_some_iff.mp hmode
    change i < 3 at hi
    interval_cases i <;> cases hempty <;> cases hkind <;> cases hnext <;> decide
  have hacyclic := not_transGen_self (fun m => 3 - m) hdown
  obtain ⟨hwf, hcalls, hscans⟩ := scan_ends hacyclic
  refine ⟨hacyclic, ⟨by decide, _, _, _, rfl, rfl, rfl, rfl⟩, ⟨by decide, _, _, _, rfl, rfl, rfl, rfl⟩,
    hwf, hcalls, hscans, ?_⟩
  decide +kernel

-- The empty matches of two modes that lead to each other use up all turns of a call.
example :
    let t : ScanTables :=
      { modes := #[{ emptyMatch := some 0 }, { emptyMatch := some 1 }]
        kinds := #[{ label := "", action := .skip, nextMode := some 1 },
          { label := "", action := .skip, nextMode := some 0 }] }
    (Scanner.start t "a").next t = none := by decide +kernel

end Scanner

end GrammarForge
