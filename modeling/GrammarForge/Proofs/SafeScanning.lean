import GrammarForge.Proofs.ScanTables
import GrammarForge.Proofs.ScannerTurns

set_option autoImplicit false

/-!
# Safe scanning

A run of a scan mode looks up states, sets of states and composites by their numbers. Here the run is
written down once more with every look-up checked, so that it gives nothing if a number is out of
range. With well formed tables it always gives what the run gives, whatever the text. A scanner
stays in modes that the tables have, finds kinds that they have, and delivers kind zero at the end of
the input only.

## Main definitions

* `ScanMode.longestMatch?` — the longest match, with every look-up checked.
* `Scanner.Turns` — what one turn can make of a scanner.
* `Scanner.InTables` — the invariant of a scan.
* `Scanner.ScansSafely` — what calls for the next token can do.

## Main results

* `ScanMode.InRange.longestMatch?` — in range, no look-up fails.
* `ScanMode.kind_longestMatch`, `ScanMode.length_longestMatch` — matches are of kinds that the tables
  have, and lie within the text.
* `Scanner.InTables.turn` — a turn keeps the invariant.
* `Lexer.build_scansSafely` — scanners of grammars that are written by calls.
-/

namespace GrammarForge

open Relation

/-! ## Checked look-ups -/

namespace ScanMode

variable {m : ScanMode} {active : List Nat}

/-- The states that a move out of the state `s` makes active; all of them have to be there. -/
def successors? (m : ScanMode) (s : ScanState) : Option (List Nat) :=
  match s.nextSet with
  | none => some []
  | some k => (m.nextSets[k]?).filter fun set => set.all (· < m.states.size)

/-- Reads `c`, with every look-up checked. -/
def step? (m : ScanMode) (active : List Nat) (c : Char) : Option (Option Nat × List Nat) := do
  let states ← active.mapM fun i => m.states[i]?
  let moving := states.filter fun s => s.moves.canMove c
  let sets ← moving.mapM m.successors?
  return (moving.foldl (fun k s => leastKind k s.kind) none, sets.flatten.eraseDups)

/-- The run of the automaton, with every look-up checked. -/
def runFrom? (m : ScanMode) (active : List Nat) (taken : Nat) (best : Option Match) :
    List Char → Option (Option Match × Nat)
  | [] => some (best, taken)
  | c :: cs =>
    if active.isEmpty then some (best, taken)
    else do
      let (kind, next) ← m.step? active c
      let best := match kind with
        | some k => some ⟨k, taken + 1⟩
        | none => best
      m.runFrom? next (taken + 1) best cs

/-- The states that are active when a match begins, with every look-up checked. -/
def initialStates? (m : ScanMode) : Option (List Nat) :=
  match m.initial with
  | none => some []
  | some id => if id < m.states.size then some [id] else m.composites[id - m.states.size]?

/-- The longest match at the beginning of a text, with every look-up checked. -/
def longestMatch? (m : ScanMode) (text : List Char) : Option (Option Match × Nat) := do
  let active ← m.initialStates?
  m.runFrom? active 0 (m.emptyMatch.map fun k => ⟨k, 0⟩) text

/-- Look-ups that all succeed. -/
lemma mapM_eq_some {α β : Type} {look : α → Option β} {get : α → β} {as : List α}
    (h : ∀ a ∈ as, look a = some (get a)) : as.mapM look = some (as.map get) := by
  induction as with
  | nil => rfl
  | cons a as ih =>
    rw [List.mapM_cons, h a List.mem_cons_self, ih fun x hx => h x (List.mem_cons_of_mem a hx)]
    rfl

/-- A state in range is found. -/
lemma states_getElem? {i : Nat} (hi : i < m.states.size) : m.states[i]? = some (m.state i) := by
  rw [state, Array.getD_eq_getD_getElem?, Array.getElem?_eq_getElem hi, Option.getD_some]

/-- A state in range is one of those of the mode. -/
lemma state_mem {i : Nat} (hi : i < m.states.size) : m.state i ∈ m.states :=
  Array.mem_of_getElem? (states_getElem? hi)

namespace InRange

/-- In a mode in range the successors of a state are found, and they are in range. -/
lemma successors? (h : m.InRange) {i : Nat} (hi : i < m.states.size) :
    m.successors? (m.state i) = some (m.successors i) ∧ ∀ j ∈ m.successors i, j < m.states.size := by
  have hset := h.nextSet (m.state i) (state_mem hi)
  unfold ScanMode.successors? ScanMode.successors
  cases hk : (m.state i).nextSet with
  | none => simp
  | some k =>
    have hk : k < m.nextSets.size := hset k hk
    have hmem := h.nextSets m.nextSets[k] (Array.getElem_mem hk)
    have hall : m.nextSets[k].all (· < m.states.size) := by simpa using hmem
    simpa [hk, hall] using hmem

/-- **A step looks up nothing that is not there**, and the states active afterwards are there
too.

**Proof sketch.** Every active state is in range, so that it is found, and so are the states after its
move. -/
lemma step? (h : m.InRange) (hactive : ∀ i ∈ active, i < m.states.size) (c : Char) :
    m.step? active c = some (m.step active c) ∧ ∀ i ∈ (m.step active c).2, i < m.states.size := by
  have hmoving : ∀ i ∈ m.moving active c, i < m.states.size :=
    fun i hi => hactive i (List.mem_of_mem_filter hi)
  have hfilter : (active.map m.state).filter (fun s => s.moves.canMove c) =
      (m.moving active c).map m.state := by
    rw [List.filter_map]
    rfl
  have hsets : ((m.moving active c).map m.state).mapM m.successors? =
      some ((m.moving active c).map m.successors) := by
    rw [List.mapM_map]
    exact mapM_eq_some fun i hi => (h.successors? (hmoving i hi)).1
  constructor
  · unfold ScanMode.step?
    rw [mapM_eq_some fun i hi => states_getElem? (hactive i hi)]
    show (((active.map m.state).filter fun s => s.moves.canMove c).mapM m.successors? >>= _) = _
    rw [hfilter, hsets, List.foldl_map]
    rfl
  · intro i hi
    rw [ScanMode.step, List.mem_eraseDups] at hi
    obtain ⟨j, hj, hi⟩ := List.mem_flatMap.mp hi
    exact (h.successors? (hmoving j hj)).2 i hi

/-- In a mode in range the states where a match begins are found, and they are in range.

**Proof sketch.** By what the initial state is: none, a state, or a composite, which consists of states.
-/
lemma initialStates? (h : m.InRange) : m.initialStates? = some m.initialStates ∧
    ∀ i ∈ m.initialStates, i < m.states.size := by
  unfold ScanMode.initialStates? ScanMode.initialStates
  cases hid : m.initial with
  | none => simp
  | some id =>
    have hlt := h.initial id hid
    simp only [Option.map_some, Option.getD_some, seeds]
    split_ifs with hstate
    · simpa using hstate
    · have hcomposite : id - m.states.size < m.composites.size := by omega
      have hmem := h.composites _ (Array.getElem_mem hcomposite)
      simp only [Array.getD_eq_getD_getElem?, Array.getElem?_eq_getElem hcomposite, Option.getD_some]
      exact ⟨trivial, hmem⟩

/-- A run looks up nothing that is not there, since one step after the other does not. -/
lemma runFrom? (h : m.InRange) : ∀ (text : List Char) {active : List Nat} (taken : Nat)
    (best : Option Match), (∀ i ∈ active, i < m.states.size) →
    m.runFrom? active taken best text = some (m.runFrom active taken best text)
  | [], _, _, _, _ => rfl
  | c :: cs, active, taken, best, hactive => by
    obtain ⟨hstep, hnext⟩ := h.step? hactive c
    unfold ScanMode.runFrom? ScanMode.runFrom
    split_ifs
    · rfl
    · rw [hstep]
      exact runFrom? h cs (taken + 1) _ hnext

/-- **In range, no look-up fails**, whatever the text. -/
lemma longestMatch? (h : m.InRange) (text : List Char) :
    m.longestMatch? text = some (m.longestMatch text) := by
  obtain ⟨hinitial, hactive⟩ := h.initialStates?
  unfold ScanMode.longestMatch?
  rw [hinitial]
  exact h.runFrom? text 0 _ hactive

end InRange

/-! ## The kinds and lengths of matches -/

/-- **What a run finds**: what it began with, or a kind that some step completes, within the text.

**Proof sketch.** Induction on the text. A match is found by the first step, or by the run on the rest,
which has begun with it or with what the run began with. -/
lemma mem_runFrom (m : ScanMode) : ∀ (text : List Char) (active : List Nat) (taken : Nat)
    (best : Option Match) {x : Match}, x ∈ (m.runFrom active taken best text).1 →
    x ∈ best ∨ (x.length ≤ taken + text.length ∧ ∃ active c, x.kind ∈ (m.step active c).1)
  | [], _, _, _, _, hx => Or.inl hx
  | c :: cs, active, taken, best, x, hx => by
    rw [runFrom_cons] at hx
    rw [List.length_cons]
    rcases mem_runFrom m cs _ _ _ hx with hx | ⟨hlength, hkind⟩
    · cases hk : (m.step active c).1 with
      | none =>
        rw [hk] at hx
        exact Or.inl hx
      | some k =>
        rw [hk] at hx
        obtain rfl := Option.mem_some_iff.mp hx
        refine Or.inr ⟨?_, active, c, hk⟩
        dsimp only
        omega
    · exact Or.inr ⟨by omega, hkind⟩

/-- **A match is found or it is empty.** -/
lemma mem_longestMatch {text : List Char} {x : Match} (hx : x ∈ (m.longestMatch text).1) :
    (x.kind ∈ m.emptyMatch ∧ x.length = 0) ∨
      (x.length ≤ text.length ∧ ∃ active c, x.kind ∈ (m.step active c).1) := by
  rcases mem_runFrom m text _ _ _ hx with hx | ⟨hlength, hkind⟩
  · obtain ⟨k, hk, rfl⟩ := Option.mem_map.mp hx
    exact Or.inl ⟨hk, rfl⟩
  · rw [Nat.zero_add] at hlength
    exact Or.inr ⟨hlength, hkind⟩

/-- No match is longer than the text. -/
lemma length_longestMatch {text : List Char} {x : Match} (hx : x ∈ (m.longestMatch text).1) :
    x.length ≤ text.length := by
  rcases mem_longestMatch hx with ⟨-, hlength⟩ | ⟨hlength, -⟩
  · omega
  · exact hlength

section

variable {kinds modes : Nat}

/-- The kind that a step completes is one that the tables have. -/
lemma kind_step (h : m.WellFormed kinds modes) (active : List Nat) (c : Char) :
    ∀ k ∈ (m.step active c).1, 1 ≤ k ∧ k < kinds := by
  refine known_foldl_leastKind _ _ (by simp) fun i _ k hk => ?_
  rcases Nat.lt_or_ge i m.states.size with hi | hi
  · exact h.kind _ (state_mem hi) k hk
  · rw [state, Array.getD_eq_getD_getElem?, Array.getElem?_eq_none hi] at hk
    cases hk

/-- **Matches are of kinds that the tables have**, and never of kind zero. -/
lemma kind_longestMatch (h : m.WellFormed kinds modes) {text : List Char} {x : Match}
    (hx : x ∈ (m.longestMatch text).1) : 1 ≤ x.kind ∧ x.kind < kinds := by
  rcases mem_longestMatch hx with ⟨hkind, -⟩ | ⟨-, active, c, hkind⟩
  · exact h.emptyMatch x.kind hkind
  · exact kind_step h active c x.kind hkind

end

end ScanMode

/-! ## Scanners -/

namespace Scanner

variable {t : ScanTables} {s s' : Scanner} {o : Outcome}

/-- **What one turn can make of a scanner**, whether the call goes on or is over. -/
def Turns (t : ScanTables) (s s' : Scanner) : Prop :=
  s.turn t = .again s' ∨ ∃ o, s.turn t = .done o s'

/-- **The invariant of a scan**: the scanner is in a mode that the tables have, and no special lexeme
that waits is the end of the input. -/
structure InTables (t : ScanTables) (s : Scanner) : Prop where
  mode : s.mode < t.modes.size
  specials : ∀ x ∈ s.specials, x.kind ≠ endKind

/-- What a call may give, and leave behind: no error about numbers that the tables lack, and the kind
of the end of the input only when all has been read and the scan is over. -/
def Outcome.Allowed (s' : Scanner) : Outcome → Prop
  | .finished => True
  | .failed e => (∀ mode, e ≠ .unknownMode mode) ∧ ∀ kind, e ≠ .unknownKind kind
  | .token x => (∀ y ∈ x.specials, y.kind ≠ endKind) ∧
      (x.kind = endKind → x.image = "" ∧ s'.rest = [] ∧ s'.ended = true)

/-- What a turn may lead to. -/
def Turn.Allowed (t : ScanTables) : Turn → Prop
  | .again s' => s'.InTables t
  | .done o s' => s'.InTables t ∧ o.Allowed s'

namespace InTables

/-- A scanner starts in the tables. -/
lemma start (ht : t.WellFormed) (text : String) : (Scanner.start t text).InTables t :=
  ⟨ht.startMode, by simp [Scanner.start]⟩

/-- The scanner's mode is one of the tables. -/
lemma modes_getElem? (hs : s.InTables t) (ht : t.WellFormed) : ∃ m, t.modes[s.mode]? = some m ∧
    m.WellFormed t.kinds.size t.modes.size := by
  have hmode := hs.mode
  exact ⟨t.modes[s.mode], Array.getElem?_eq_getElem hmode, ht.modes _ (Array.getElem_mem hmode)⟩

/-- At the end of the input a scanner stays in the tables.

**Proof sketch.** A kept beginning is a failure that changes nothing; otherwise the next mode is that of
the mode, which the tables have. -/
lemma atEnd (hs : s.InTables t) (ht : t.WellFormed) (hrest : s.rest = []) :
    (s.atEnd t).Allowed t := by
  obtain ⟨m, hm, hwf⟩ := hs.modes_getElem? ht
  unfold Scanner.atEnd
  cases s.bufferStart with
  | some p => exact ⟨hs, by simp [Outcome.Allowed]⟩
  | none =>
    dsimp only
    rw [hm]
    refine ⟨⟨?_, by simp⟩, hs.specials, fun _ => ⟨rfl, hrest, rfl⟩⟩
    dsimp only
    cases hn : m.eofNextMode with
    | none => exact hs.mode
    | some n => exact hwf.eofNextMode n hn

/-- **A match of a kind that the tables have** is treated as its kind says, and leads to a mode that
they have.

**Proof sketch.** By the action of the kind. The mode is that of the kind or stays; a special token has
the kind, which is not the one of the end. -/
lemma treat (hs : s.InTables t) (ht : t.WellFormed) {info : KindInfo} {kind : Nat}
    (hinfo : info ∈ t.kinds) (hkind : 1 ≤ kind) (start : Position) :
    (treat info kind start s).Allowed t := by
  have hne : kind ≠ endKind := Nat.one_le_iff_ne_zero.mp hkind
  have hmode : info.nextMode.getD s.mode < t.modes.size := by
    cases hn : info.nextMode with
    | none => exact hs.mode
    | some n => exact ht.nextMode info hinfo n hn
  unfold Scanner.treat
  cases info.action with
  | more | skip => exact ⟨hmode, hs.specials⟩
  | special =>
    refine ⟨hmode, fun x hx => ?_⟩
    rcases List.mem_append.mp hx with hx | hx
    · exact hs.specials x hx
    · rw [List.mem_singleton.mp hx]
      exact hne
  | token => exact ⟨⟨hmode, by simp⟩, hs.specials, fun hk => absurd hk hne⟩

/-- A turn within the text stays in the tables.

**Proof sketch.** A match has a kind that the mode has, so that the tables have it too; without a match
one character is read, and the mode is as it was. -/
lemma atText (hs : s.InTables t) (ht : t.WellFormed) (c : Char) : (s.atText t c).Allowed t := by
  obtain ⟨m, hm, hwf⟩ := hs.modes_getElem? ht
  have hread : ∀ n, (s.read n).InTables t := fun _ => ⟨hs.mode, hs.specials⟩
  unfold Scanner.atText
  rw [hm]
  dsimp only
  cases hfound : (m.longestMatch s.rest).1 with
  | none => exact ⟨hread _, by simp [Outcome.Allowed]⟩
  | some found =>
    obtain ⟨kind, length⟩ := found
    obtain ⟨hpos, hlt⟩ := ScanMode.kind_longestMatch hwf hfound
    dsimp only at hpos hlt ⊢
    rw [Array.getElem?_eq_getElem hlt]
    dsimp only
    split_ifs
    · exact ⟨hread _, by simp [Outcome.Allowed]⟩
    · have hconsume : ((s.read (m.longestMatch s.rest).2).consume length).InTables t :=
        ⟨hs.mode, hs.specials⟩
      exact hconsume.treat ht (Array.getElem_mem hlt) hpos s.position

/-- **A turn keeps the invariant**, and gives nothing but what is allowed. -/
lemma turn (hs : s.InTables t) (ht : t.WellFormed) : (s.turn t).Allowed t := by
  unfold Scanner.turn
  split_ifs
  · exact ⟨hs, trivial⟩
  · cases hrest : s.rest with
    | nil => exact hs.atEnd ht hrest
    | cons c cs => exact hs.atText ht c

/-- The invariant holds from the beginning to the end of a scan. -/
lemma of_turns (ht : t.WellFormed) (hs : s.InTables t) (h : ReflTransGen (Turns t) s s') :
    s'.InTables t := by
  induction h with
  | refl => exact hs
  | tail _ hturn ih =>
    have hallowed := ih.turn ht
    rcases hturn with hturn | ⟨o, hturn⟩
    · rw [hturn] at hallowed
      exact hallowed
    · rw [hturn] at hallowed
      exact hallowed.1

/-- **A call gives nothing but what is allowed.** -/
lemma next (hs : s.InTables t) (ht : t.WellFormed) (h : s.next t = some (o, s')) : o.Allowed s' := by
  obtain ⟨s₁, hgoes, hdone⟩ := nextWithin_eq_some h
  have hturns : ReflTransGen (Turns t) s s₁ :=
    ReflTransGen.mono (fun _ _ h => Or.inl h) _ _ hgoes
  have hallowed := (of_turns ht hs hturns).turn ht
  rw [hdone] at hallowed
  exact hallowed.2

end InTables

/-- **A scanner at a place from which scanning is safe.** Its mode is one of the tables; no look-up
fails there while the longest match is sought, and the match lies within the text. A call for the next
token never finds a mode or a kind missing. The kind of the end of the input is delivered with an
empty text, when all has been read, and the next call finds the scan over. -/
structure ScansSafely (t : ScanTables) (s : Scanner) : Prop where
  looksUp : ∃ m, t.modes[s.mode]? = some m ∧
    m.longestMatch? s.rest = some (m.longestMatch s.rest) ∧
    ∀ x ∈ (m.longestMatch s.rest).1, x.length ≤ s.rest.length
  knowsModes : ∀ mode s', s.next t ≠ some (.failed (.unknownMode mode), s')
  knowsKinds : ∀ kind s', s.next t ≠ some (.failed (.unknownKind kind), s')
  specials : ∀ {token s'}, s.next t = some (.token token, s') →
    ∀ x ∈ token.specials, x.kind ≠ endKind
  endsLast : ∀ {token s'}, s.next t = some (.token token, s') → token.kind = endKind →
    token.image = "" ∧ s'.rest = [] ∧ s'.next t = some (.finished, s')

/-- A scanner in the tables scans safely. -/
lemma InTables.scansSafely (hs : s.InTables t) (ht : t.WellFormed) : s.ScansSafely t := by
  obtain ⟨m, hm, hwf⟩ := hs.modes_getElem? ht
  have hlook := hwf.toInRange.longestMatch? s.rest
  refine ⟨⟨m, hm, hlook, fun x hx => ScanMode.length_longestMatch hx⟩, ?_, ?_, ?_, ?_⟩
  · exact fun mode s' h => (hs.next ht h).1 mode rfl
  · exact fun kind s' h => (hs.next ht h).2 kind rfl
  · exact fun h => (hs.next ht h).1
  · intro token s' h hkind
    obtain ⟨himage, hrest, hended⟩ := (hs.next ht h).2 hkind
    exact ⟨himage, hrest, next_of_turn (turn_of_ended hended)⟩

end Scanner

/-- **The scanner of a grammar is safe on every text.** Let a grammar be written by calls, and let its
scanner be built. Then the scan tables are well formed, and from every place that a scan of any text
comes to, scanning is safe.

**Proof sketch.** A written grammar knows the lexical states that it enters (`statesKnown_written`), so
that its tables are well formed. A scan starts within the tables, every turn stays within them
(`InTables.of_turns`), and there scanning is safe. -/
theorem Lexer.build_scansSafely (calls : List Grammar.Call) {ctx ctx' : Context} {lexer : Lexer}
    {g' : Grammar} (h : Lexer.build (Grammar.written calls) ctx = (.ok lexer, g', ctx')) :
    lexer.scanTables.WellFormed ∧ ∀ (text : String) (s : Scanner),
      ReflTransGen (Scanner.Turns lexer.scanTables) (Scanner.start lexer.scanTables text) s →
      s.ScansSafely lexer.scanTables := by
  have ht := Lexer.wellFormed_scanTables (Grammar.statesKnown_written calls) h
  refine ⟨ht, fun text s hturns => ?_⟩
  have hs := Scanner.InTables.of_turns ht (Scanner.InTables.start ht text) hturns
  exact hs.scansSafely ht

/-- Words, a blank that is skipped, and texts between bars that are scanned in a lexical state of their
own; the end of the input leads back from there. -/
def wordsAndTexts : List Grammar.Call :=
  [.addToken { regex := .literal " ", action := .skip },
   .addToken { label := some "WORD", regex := .oneOrMore (.chars { items := [.range 'a' 'é'] }) },
   .addToken { regex := .literal "|", action := .more, nextState := some "BARS" },
   .addToken { regex := .chars { items := [.single '|', .single 'é'], negated := true }
               action := .more, states := ["BARS"] },
   .addToken { label := some "TEXT", regex := .literal "|", states := ["BARS"]
               nextState := some "DEFAULT" },
   .addToken { regex := .endOfInput, states := ["BARS"], nextState := some "DEFAULT" },
   .link {}]

/-- A grammar with words and texts is built to well-formed tables, and everything that is scanned with
them is scanned safely. -/
theorem Lexer.build_scansSafely_wordsAndTexts : ∃ lexer g' ctx',
    Lexer.build (Grammar.written wordsAndTexts) {} = (.ok lexer, g', ctx') ∧
      lexer.scanTables.WellFormed ∧ ∀ (text : String) (s : Scanner),
        ReflTransGen (Scanner.Turns lexer.scanTables) (Scanner.start lexer.scanTables text) s →
        s.ScansSafely lexer.scanTables := by
  rcases hbuild : Lexer.build (Grammar.written wordsAndTexts) {} with ⟨_ | lexer, g', ctx'⟩
  · have hok : (Lexer.build (Grammar.written wordsAndTexts) {}).1.toBool := by decide +kernel
    rw [hbuild] at hok
    cases hok
  · exact ⟨lexer, g', ctx', rfl, Lexer.build_scansSafely wordsAndTexts hbuild⟩

end GrammarForge
