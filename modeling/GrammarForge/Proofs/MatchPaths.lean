import GrammarForge.Proofs.SafeScanning
import Mathlib.Data.String.Basic

set_option autoImplicit false

/-!
# Paths of a scan mode

What the longest match is, in terms of the tables of a scan mode only, whatever they are: paths begin in
an initial state and go from state to state, one character at a time. The longest text along which a
path completes a kind is matched, and of the kinds that paths complete along it, the lowest.

A scanner does not follow paths one by one. It keeps the states that it has found for the next character
in a buffer, each of them once, and marks every state with the offset at which it was found last. Marks
are never taken back: an offset in bytes grows with every character, so that old marks count for nothing.

## Main definitions

* `ScanMode.Arrives`, `ScanMode.Completes` — paths, and the kinds that they complete.
* `ScanMode.markedMatch?` — the scan with marks, where every look-up is checked.

## Main results

* `ScanMode.isLongestMatch_paths` — the longest match along paths.
* `ScanMode.InRange.markedMatch?_eq` — the scan with marks finds the same match.
* `ScanMode.markedMatch?_paths` — what is matched, in terms of paths and bytes.
-/

namespace GrammarForge

open String

/-! ## Bytes -/

/-- A longer beginning of a text has more bytes. -/
lemma utf8Len_take_lt {text : List Char} {n n' : Nat} (hlt : n < n') (hle : n' ≤ text.length) :
    utf8Len (text.take n) < utf8Len (text.take n') := by
  obtain ⟨rest, hrest⟩ := List.take_prefix_take_left (l := text) hlt.le
  have hne : utf8Len rest ≠ 0 := by
    rw [Ne, utf8Len_eq_zero]
    rintro rfl
    have hlength := congrArg List.length hrest
    simp only [List.append_nil, List.length_take] at hlength
    omega
  rw [← hrest, utf8Len_append]
  omega

/-- A match with its length in bytes. -/
structure ByteMatch where
  kind : Nat
  bytes : Nat
deriving DecidableEq, Repr

/-- A match at the beginning of `text`, with its length in bytes. -/
def Match.inBytes (text : List Char) (x : Match) : ByteMatch :=
  ⟨x.kind, utf8Len (text.take x.length)⟩

/-- What follows a match is of no account. -/
lemma Match.inBytes_append {v : List Char} {x : Match} (hx : x.length ≤ v.length) (w : List Char) :
    x.inBytes (v ++ w) = x.inBytes v := by
  rw [inBytes, inBytes, List.take_append_of_le_length hx]

namespace ScanMode

variable {m : ScanMode}

/-! ## Paths -/

/-- **Paths**: along the text `v`, some path leads from an initial state to the state `i`. Each step
moves on a character of the text, from a state to one in its next set. -/
inductive Arrives (m : ScanMode) : List Char → Nat → Prop
  | start {i : Nat} : i ∈ m.initialStates → Arrives m [] i
  | move {v : List Char} {i j : Nat} {c : Char} : Arrives m v i → (m.state i).moves.canMove c →
      j ∈ m.successors i → Arrives m (v ++ [c]) j

/-- Along the text `v`, some path **completes the kind `k`** with the last character. -/
def Completes (m : ScanMode) (v : List Char) (k : Nat) : Prop :=
  ∃ u c i, v = u ++ [c] ∧ m.Arrives u i ∧ (m.state i).moves.canMove c ∧ (m.state i).kind = some k

/-- Some path completes the kind `k` along a beginning of `text` that has `n` bytes. -/
def CompletesWithin (m : ScanMode) (text : List Char) (n k : Nat) : Prop :=
  ∃ v, v <+: text ∧ utf8Len v = n ∧ m.Completes v k

/-- Without text a path is where a match begins. -/
lemma arrives_nil {i : Nat} : m.Arrives [] i ↔ i ∈ m.initialStates := by
  constructor
  · intro h
    generalize hv : ([] : List Char) = v at h
    cases h with
    | start hi => exact hi
    | move => simp at hv
  · exact Arrives.start

/-- A path over one more character goes on with a move. -/
lemma arrives_concat {v : List Char} {c : Char} {j : Nat} : m.Arrives (v ++ [c]) j ↔
    ∃ i, m.Arrives v i ∧ (m.state i).moves.canMove c ∧ j ∈ m.successors i := by
  constructor
  · intro h
    generalize hw : v ++ [c] = w at h
    cases h with
    | start => simp at hw
    | move hv hc hj =>
      obtain ⟨rfl, hlast⟩ := List.append_inj' hw rfl
      obtain rfl := List.singleton_inj.mp hlast
      exact ⟨_, hv, hc, hj⟩
  · rintro ⟨i, hv, hc, hj⟩
    exact .move hv hc hj

/-- A path completes a kind with its last move. -/
lemma completes_concat {v : List Char} {c : Char} {k : Nat} : m.Completes (v ++ [c]) k ↔
    ∃ i, m.Arrives v i ∧ (m.state i).moves.canMove c ∧ (m.state i).kind = some k := by
  constructor
  · rintro ⟨u, d, i, hw, hu, hc, hk⟩
    obtain ⟨rfl, hlast⟩ := List.append_inj' hw rfl
    obtain rfl := List.singleton_inj.mp hlast
    exact ⟨i, hu, hc, hk⟩
  · rintro ⟨i, hv, hc, hk⟩
    exact ⟨v, c, i, rfl, hv, hc, hk⟩

/-- The empty text completes nothing. -/
lemma Completes.ne_nil {v : List Char} {k : Nat} (h : m.Completes v k) : v ≠ [] := by
  obtain ⟨u, c, i, rfl, -⟩ := h
  simp

/-- The texts along which paths complete the kind `k`, and the empty text if it is matched. -/
def pathLang (m : ScanMode) (k : Nat) : Language Char :=
  {v | (v = [] ∧ m.emptyMatch = some k) ∨ m.Completes v k}

/-- **A run follows all paths**: the active states are those at which paths have arrived.

**Proof sketch.** Induction on the rest of the text. The kind that a step completes is the lowest one
that paths complete with the same character. -/
lemma isLongestMatch_runFrom (m : ScanMode) (text : List Char) : ∀ (v : List Char)
    {active : List Nat} {best : Option Match}, (∀ i, i ∈ active ↔ m.Arrives v i) →
    IsLongestMatch m.pathLang v best →
    IsLongestMatch m.pathLang (v ++ text) (m.runFrom active v.length best text).1 := by
  induction text with
  | nil =>
    intro v active best _ hbest
    rw [List.append_nil]
    exact hbest
  | cons c cs ih =>
    intro v active best hactive hbest
    obtain ⟨hkind, hnext⟩ := m.step_spec active c
    have hlow : LowestKind (fun k => v ++ [c] ∈ m.pathLang k) (m.step active c).1 := by
      refine hkind.congr fun k => ?_
      simp only [hactive]
      rw [← completes_concat]
      exact ⟨Or.inr, fun h => h.resolve_left fun h => by simp at h⟩
    have hactive' : ∀ j, j ∈ (m.step active c).2 ↔ m.Arrives (v ++ [c]) j := by
      intro j
      rw [hnext, arrives_concat]
      simp only [hactive]
    have hrest := ih (v ++ [c]) hactive' (hbest.snoc hlow)
    rw [List.length_append, List.length_singleton] at hrest
    rwa [runFrom_cons, List.append_cons]

/-- **The longest match along paths.** -/
theorem isLongestMatch_paths (m : ScanMode) (text : List Char) :
    IsLongestMatch m.pathLang text (m.longestMatch text).1 := by
  refine m.isLongestMatch_runFrom text [] (fun i => arrives_nil.symm) (isLongestMatch_nil ?_)
  refine (lowestKind_single m.emptyMatch).congr fun k => ?_
  exact ⟨fun h => Or.inl ⟨rfl, h⟩, fun h => (h.resolve_right fun hk => hk.ne_nil rfl).2⟩

/-! ## The scan with marks -/

/-- The states found for the next character, and for every state the offset at which it was found
last. -/
structure Marks where
  offsets : Array (Option Nat)
  found : List Nat := []

/-- Finds the state `t`, unless it has been found at this offset before. -/
def Marks.find? (offset : Nat) (b : Marks) (t : Nat) : Option Marks := do
  let last ← b.offsets[t]?
  if last = some offset then return b
  else return { offsets := b.offsets.setIfInBounds t (some offset), found := b.found ++ [t] }

/-- Reads `c` in the state `i`: lowers the kind that is completed, and finds the successors. -/
def visit? (m : ScanMode) (c : Char) (offset : Nat) (x : Option Nat × Marks) (i : Nat) :
    Option (Option Nat × Marks) := do
  let s ← m.states[i]?
  if s.moves.canMove c then
    let successors ← m.successors? s
    let b ← successors.foldlM (Marks.find? offset) x.2
    return (leastKind x.1 s.kind, b)
  else return x

/-- The run with marks, from the states `active` at the byte `offset`. The marks stay as they are from
one character to the next, and the states found become the active ones. -/
def markedFrom? (m : ScanMode) (active : List Nat) (offset : Nat) (marks : Array (Option Nat))
    (best : Option ByteMatch) : List Char → Option (Option ByteMatch)
  | [] => some best
  | c :: cs =>
    if active.isEmpty then some best
    else do
      let (kind, b) ← active.foldlM (m.visit? c offset) (none, { offsets := marks })
      let best := match kind with
        | some k => some ⟨k, offset + c.utf8Size⟩
        | none => best
      m.markedFrom? b.found (offset + c.utf8Size) b.offsets best cs

/-- The longest match at the beginning of a text, found with marks. -/
def markedMatch? (m : ScanMode) (text : List Char) : Option (Option ByteMatch) := do
  let active ← m.initialStates?
  m.markedFrom? active 0 (Array.replicate m.states.size none)
    (m.emptyMatch.map fun k => ⟨k, 0⟩) text

/-- One more element of a list without repetitions. -/
lemma eraseDups_concat (seen : List Nat) (t : Nat) : (seen ++ [t]).eraseDups =
    if t ∈ seen then seen.eraseDups else seen.eraseDups ++ [t] := by
  rw [List.eraseDups_append]
  split_ifs with hseen <;> simp [List.removeAll, hseen, List.eraseDups_cons]

/-- **The marks tell what has been seen at the byte `offset`**: a state is marked with it exactly if it is
one of those `seen`. All other marks are older, and each state has been found once. -/
structure Marks.Tell (size offset : Nat) (seen : List Nat) (b : Marks) : Prop where
  size_eq : b.offsets.size = size
  past : ∀ {t last : Nat}, b.offsets[t]? = some (some last) → last ≤ offset
  marked : ∀ {t : Nat}, b.offsets[t]? = some (some offset) ↔ t ∈ seen
  found : b.found = seen.eraseDups

namespace Marks.Tell

variable {size offset : Nat} {seen : List Nat} {b : Marks}

/-- Before the first state is visited, all marks are older. -/
lemma start {marks : Array (Option Nat)} (hsize : marks.size = size)
    (hpast : ∀ t last : Nat, marks[t]? = some (some last) → last < offset) :
    Tell size offset [] { offsets := marks } where
  size_eq := hsize
  past h := (hpast _ _ h).le
  marked := by
    intro t
    simp only [List.not_mem_nil, iff_false]
    exact fun h => (hpast t offset h).false
  found := rfl

/-- **One more state is seen.**

**Proof sketch.** If the state is marked at this place, it has been seen, and nothing changes. Otherwise
it is marked and put behind the others; marks of earlier places are told apart by the place. -/
lemma find? (h : Tell size offset seen b) {t : Nat} (ht : t < size) :
    ∃ b', b.find? offset t = some b' ∧ Tell size offset (seen ++ [t]) b' := by
  have hlt : t < b.offsets.size := by rwa [h.size_eq]
  rw [Marks.find?, Array.getElem?_eq_getElem hlt]
  by_cases hmark : b.offsets[t] = some offset
  · have hseen : t ∈ seen := h.marked.mp (by rw [Array.getElem?_eq_getElem hlt, hmark])
    refine ⟨b, by simp [hmark], h.size_eq, h.past, ?_, ?_⟩
    · intro u
      rw [h.marked]
      simp only [List.mem_append, List.mem_singleton]
      exact ⟨Or.inl, fun hu => hu.elim id fun hu => hu ▸ hseen⟩
    · rw [eraseDups_concat, if_pos hseen, h.found]
  · have hseen : t ∉ seen := by
      rw [← h.marked, Array.getElem?_eq_getElem hlt, Option.some_inj]
      exact hmark
    have hset : ∀ {u : Nat} {last : Nat},
        (b.offsets.setIfInBounds t (some offset))[u]? = some (some last) ↔
          (u = t ∧ last = offset) ∨ (u ≠ t ∧ b.offsets[u]? = some (some last)) := by
      intro u last
      rw [Array.getElem?_setIfInBounds]
      by_cases hu : t = u
      · subst hu
        simp [hlt, eq_comm]
      · simp [hu, Ne.symm hu]
    refine ⟨{ offsets := b.offsets.setIfInBounds t (some offset), found := b.found ++ [t] },
      by simp [hmark], ?_, ?_, ?_, ?_⟩
    · rw [Array.size_setIfInBounds, h.size_eq]
    · intro u last hu
      rcases hset.mp hu with ⟨-, rfl⟩ | ⟨-, hu⟩
      · exact le_rfl
      · exact h.past hu
    · intro u
      rw [hset, h.marked, List.mem_append, List.mem_singleton]
      by_cases hu : u = t <;> simp [hu]
    · rw [eraseDups_concat, if_neg hseen, h.found]

/-- **Several states are seen.** -/
lemma foldlM_find? : ∀ (ts : List Nat) {seen : List Nat} {b : Marks}, Tell size offset seen b →
    (∀ t ∈ ts, t < size) →
    ∃ b', ts.foldlM (Marks.find? offset) b = some b' ∧ Tell size offset (seen ++ ts) b'
  | [], seen, b, h, _ => ⟨b, rfl, by rwa [List.append_nil]⟩
  | t :: ts, seen, b, h, hts => by
    obtain ⟨b₁, hrun, h₁⟩ := h.find? (hts t List.mem_cons_self)
    obtain ⟨b', hrun', h'⟩ := foldlM_find? ts h₁ fun u hu => hts u (List.mem_cons_of_mem t hu)
    refine ⟨b', ?_, ?_⟩
    · rw [List.foldlM_cons, hrun]
      exact hrun'
    · rwa [List.append_cons]

end Marks.Tell

namespace InRange

variable {offset : Nat}

/-- **Reading a character in one state.**

**Proof sketch.** A state that moves on the character lowers the kind and finds its successors; any
other one does nothing. -/
lemma visit? (h : m.InRange) {i : Nat} (hi : i < m.states.size) (c : Char) (kind : Option Nat)
    {seen : List Nat} {b : Marks} (hb : b.Tell m.states.size offset seen) :
    ∃ b', m.visit? c offset (kind, b) i =
        some ((m.moving [i] c).foldl (fun k i => leastKind k (m.state i).kind) kind, b') ∧
      b'.Tell m.states.size offset (seen ++ (m.moving [i] c).flatMap m.successors) := by
  obtain ⟨hsuccessors, hrange⟩ := h.successors? hi
  rw [ScanMode.visit?, states_getElem? hi]
  by_cases hc : (m.state i).moves.canMove c
  · have hmoving : m.moving [i] c = [i] := by simp [moving, hc]
    obtain ⟨b', hrun, hb'⟩ := hb.foldlM_find? (m.successors i) hrange
    refine ⟨b', ?_, ?_⟩
    · simp [hc, hsuccessors, hrun, hmoving]
    · rw [hmoving]
      simpa using hb'
  · have hmoving : m.moving [i] c = [] := by simp [moving, hc]
    refine ⟨b, ?_, ?_⟩
    · simp [hc, hmoving]
    · rw [hmoving]
      simpa using hb

/-- **Reading a character in all active states.**

**Proof sketch.** Induction on the active states: visiting the first one adds what it finds, and the
rest goes on from there. -/
lemma foldlM_visit? (h : m.InRange) (c : Char) : ∀ (active : List Nat) {kind : Option Nat}
    {seen : List Nat} {b : Marks}, (∀ i ∈ active, i < m.states.size) →
    b.Tell m.states.size offset seen →
    ∃ b', active.foldlM (m.visit? c offset) (kind, b) =
        some ((m.moving active c).foldl (fun k i => leastKind k (m.state i).kind) kind, b') ∧
      b'.Tell m.states.size offset (seen ++ (m.moving active c).flatMap m.successors)
  | [], kind, seen, b, _, hb => ⟨b, rfl, by simpa [moving] using hb⟩
  | i :: active, kind, seen, b, hactive, hb => by
    obtain ⟨hi, hactive⟩ := List.forall_mem_cons.mp hactive
    have hsplit : m.moving (i :: active) c = m.moving [i] c ++ m.moving active c :=
      List.filter_append [i] active
    obtain ⟨b₁, hvisit, hb₁⟩ := h.visit? hi c kind hb
    obtain ⟨b', hrest, hb'⟩ := foldlM_visit? h c active hactive hb₁
    refine ⟨b', ?_, ?_⟩
    · rw [List.foldlM_cons, hvisit, hsplit, List.foldl_append]
      exact hrest
    · rw [hsplit, List.flatMap_append, ← List.append_assoc]
      exact hb'

/-- A step with marks is a step: it completes the same kind, and finds the same states. -/
lemma markedStep (h : m.InRange) (c : Char) {active : List Nat} {marks : Array (Option Nat)}
    (hactive : ∀ i ∈ active, i < m.states.size) (hsize : marks.size = m.states.size)
    (hpast : ∀ t last : Nat, marks[t]? = some (some last) → last < offset) :
    ∃ offsets : Array (Option Nat), active.foldlM (m.visit? c offset) (none, { offsets := marks }) =
        some ((m.step active c).1, { offsets, found := (m.step active c).2 }) ∧
      offsets.size = m.states.size ∧
      ∀ t last : Nat, offsets[t]? = some (some last) → last ≤ offset := by
  obtain ⟨b, hrun, hb⟩ := h.foldlM_visit? c active hactive (Marks.Tell.start hsize hpast)
  rw [List.nil_append] at hb
  refine ⟨b.offsets, ?_, hb.size_eq, fun t last => hb.past⟩
  have hfound : b.found = (m.step active c).2 := hb.found
  rw [hrun, ← hfound]
  rfl

/-- **The run with marks** finds what the run finds, at the byte where the text `v` ends. Marks are older
than that, since every character has bytes.

**Proof sketch.** Induction on the text that is left. Each step finds the successors of the active
states, each of them once, and the best match is the same up to counting bytes; marks of the step are
older than the next one, since every character has bytes. -/
lemma markedFrom? (h : m.InRange) : ∀ (rest v : List Char) {active : List Nat}
    (marks : Array (Option Nat)) (best : Option Match), (∀ i ∈ active, i < m.states.size) →
    marks.size = m.states.size →
    (∀ t last : Nat, marks[t]? = some (some last) → last < utf8Len v) →
    (∀ x ∈ best, x.length ≤ v.length) →
    m.markedFrom? active (utf8Len v) marks (best.map (Match.inBytes v)) rest =
      some ((m.runFrom active v.length best rest).1.map (Match.inBytes (v ++ rest)))
  | [], v, _, _, best, _, _, _, _ => by
    rw [List.append_nil]
    rfl
  | c :: cs, v, active, marks, best, hactive, hsize, hpast, hbest => by
    have hbytes : ∀ w, best.map (Match.inBytes v) = best.map (Match.inBytes (v ++ w)) := fun w =>
      Option.map_congr fun x hx => (Match.inBytes_append (hbest x hx) w).symm
    unfold ScanMode.markedFrom? ScanMode.runFrom
    split_ifs
    · rw [hbytes]
    · obtain ⟨offsets, hstep, hsize', hpast'⟩ := h.markedStep c hactive hsize hpast
      have hoffset : utf8Len (v ++ [c]) = utf8Len v + c.utf8Size := by simp
      have hlength : (v ++ [c]).length = v.length + 1 := by simp
      set best' : Option Match := match (m.step active c).1 with
        | some k => some ⟨k, v.length + 1⟩
        | none => best with hbest'
      have hmatch : (match (m.step active c).1 with
          | some k => some ⟨k, utf8Len v + c.utf8Size⟩
          | none => best.map (Match.inBytes v)) = best'.map (Match.inBytes (v ++ [c])) := by
        rw [hbest']
        cases (m.step active c).1 with
        | some k => rw [Option.map_some, Match.inBytes, ← hlength, List.take_length, hoffset]
        | none => exact hbytes [c]
      have hrest := markedFrom? h cs (v ++ [c]) offsets best' (h.step? hactive c).2 hsize'
        (fun t last ht => ?_) (fun x hx => ?_)
      · rw [hstep]
        rw [hoffset, hlength, ← hmatch, ← List.append_cons] at hrest
        exact hrest
      · have hle := hpast' t last ht
        have hpos := c.utf8Size_pos
        omega
      · rw [hbest'] at hx
        cases hkind : (m.step active c).1 with
        | some k =>
          rw [hkind] at hx
          obtain rfl := Option.mem_some_iff.mp hx
          exact hlength.ge
        | none =>
          rw [hkind] at hx
          exact (hbest x hx).trans (by omega)

/-- **The scan with marks finds the longest match.**

**Proof sketch.** Before the first character no state has a mark, and the match of the empty text is the
best one so far. -/
lemma markedMatch?_eq (h : m.InRange) (text : List Char) :
    m.markedMatch? text = some ((m.longestMatch text).1.map (Match.inBytes text)) := by
  obtain ⟨hinitial, hactive⟩ := h.initialStates?
  have hrun := h.markedFrom? text [] (Array.replicate m.states.size none)
    (m.emptyMatch.map fun k => ⟨k, 0⟩) hactive Array.size_replicate (fun t last ht => ?_)
    (fun x hx => ?_)
  · rw [Option.map_map] at hrun
    rw [ScanMode.markedMatch?, hinitial]
    exact hrun
  · rw [Array.getElem?_replicate] at ht
    split_ifs at ht
    cases ht
  · obtain ⟨k, -, rfl⟩ := Option.map_eq_some_iff.mp hx
    exact le_rfl

end InRange

/-! ## The longest match, in bytes -/

/-- A path completes a kind along a beginning of the text, which is given by its length.

**Proof sketch.** A beginning of the text is given by its length; its bytes are counted on both sides.
-/
lemma completesWithin_iff {text : List Char} {n k : Nat} : m.CompletesWithin text n k ↔
    ∃ length, 0 < length ∧ length ≤ text.length ∧ utf8Len (text.take length) = n ∧
      text.take length ∈ m.pathLang k := by
  constructor
  · rintro ⟨v, hv, rfl, hk⟩
    have heq := List.prefix_iff_eq_take.mp hv
    refine ⟨v.length, List.length_pos_of_ne_nil hk.ne_nil, hv.length_le, by rw [← heq], ?_⟩
    rw [← heq]
    exact Or.inr hk
  · rintro ⟨length, hpos, hle, rfl, hempty | hk⟩
    · have hlength := congrArg List.length hempty.1
      rw [List.length_take, List.length_nil] at hlength
      omega
    · exact ⟨text.take length, List.take_prefix length text, rfl, hk⟩

/-- **If paths complete any kind**, the longest match has the most bytes with which one does, and the
lowest kind that paths of so many bytes complete.

**Proof sketch.** The longest match is one that a path completes, and no longer prefix is; since some
path completes a kind, the match is not the empty one. Counting bytes keeps the order of prefixes. -/
lemma longestMatch_of_completes {text : List Char} {n k : Nat} (hpath : m.CompletesWithin text n k) :
    ∃ kind bytes, (m.longestMatch text).1.map (Match.inBytes text) = some ⟨kind, bytes⟩ ∧ 0 < bytes ∧
      m.CompletesWithin text bytes kind ∧ (∀ n k, m.CompletesWithin text n k → n ≤ bytes) ∧
      ∀ k, m.CompletesWithin text bytes k → kind ≤ k := by
  have hlongest := m.isLongestMatch_paths text
  cases hfound : (m.longestMatch text).1 with
  | none =>
    rw [hfound] at hlongest
    obtain ⟨length, -, -, -, hk⟩ := completesWithin_iff.mp hpath
    exact absurd hk (hlongest length k)
  | some x =>
    obtain ⟨kind, length⟩ := x
    rw [hfound] at hlongest
    obtain ⟨hle, ⟨hkind, hlowest⟩, hmax⟩ := hlongest
    have hlength : ∀ {n k}, m.CompletesWithin text n k → ∃ l ≤ length, 0 < l ∧
        utf8Len (text.take l) = n ∧ text.take l ∈ m.pathLang k := by
      intro n k hpath
      obtain ⟨l, hpos, hl, hn, hk⟩ := completesWithin_iff.mp hpath
      exact ⟨l, not_lt.mp fun hlt => hmax l k hlt hl hk, hpos, hn, hk⟩
    obtain ⟨l, hl, hpos, -⟩ := hlength hpath
    have hpos := hpos.trans_le hl
    refine ⟨kind, utf8Len (text.take length), rfl, utf8Len_take_lt hpos hle,
      completesWithin_iff.mpr ⟨length, hpos, hle, rfl, hkind⟩, fun n k hpath => ?_,
      fun k hpath => ?_⟩
    · obtain ⟨l, hl, -, rfl, -⟩ := hlength hpath
      exact utf8Len_le_of_prefix (List.take_prefix_take_left hl)
    · obtain ⟨l, hl, -, hbytes, hk⟩ := hlength hpath
      obtain rfl : l = length := by
        by_contra hne
        exact absurd hbytes (utf8Len_take_lt (by omega) hle).ne
      exact hlowest k hk

/-- **If no path completes a kind**, only the empty text can be matched.

**Proof sketch.** A longer match would be completed by a path; what is left is the match of the empty
text. -/
lemma longestMatch_of_not_completes {text : List Char} (hnone : ∀ n k, ¬ m.CompletesWithin text n k) :
    (m.longestMatch text).1.map (Match.inBytes text) = m.emptyMatch.map fun k => ⟨k, 0⟩ := by
  have hlongest := m.isLongestMatch_paths text
  cases hfound : (m.longestMatch text).1 with
  | none =>
    rw [hfound] at hlongest
    cases hempty : m.emptyMatch with
    | none => rfl
    | some k => exact absurd (Or.inl ⟨List.take_zero, hempty⟩) (hlongest 0 k)
  | some x =>
    obtain ⟨kind, length⟩ := x
    rw [hfound] at hlongest
    obtain ⟨⟨hempty, hkind⟩ | hkind, -⟩ := hlongest.2.1
    · rw [hkind, Option.map_some, Option.map_some, Match.inBytes, hempty]
      rfl
    · exact absurd ⟨_, List.take_prefix length text, rfl, hkind⟩ (hnone _ kind)

/-- **The longest match of a scan mode, in terms of its tables.** Let the numbers in the tables be in
range. Then no look-up of the scan with marks fails on any text, and it finds what the longest match is.
If paths from initial states complete any kind along a beginning of the text, the match has the most
bytes with which one does, and the lowest kind that paths of so many bytes complete. Otherwise it is the
match of the empty text, if the mode has one.

**Proof sketch.** The scan with marks finds the longest match (`markedMatch?_eq`), which is the longest
that a path completes or that of the empty text (`longestMatch_of_completes`,
`longestMatch_of_not_completes`). -/
theorem markedMatch?_paths (m : ScanMode) (hm : m.InRange) (text : List Char) :
    ∃ found, m.markedMatch? text = some found ∧
      (m.longestMatch text).1.map (Match.inBytes text) = found ∧
      ((∃ n k, m.CompletesWithin text n k) → ∃ kind bytes, found = some ⟨kind, bytes⟩ ∧ 0 < bytes ∧
        m.CompletesWithin text bytes kind ∧
        (∀ n k, m.CompletesWithin text n k → n ≤ bytes) ∧
        ∀ k, m.CompletesWithin text bytes k → kind ≤ k) ∧
      ((∀ n k, ¬ m.CompletesWithin text n k) → found = m.emptyMatch.map fun k => ⟨k, 0⟩) := by
  refine ⟨_, hm.markedMatch?_eq text, rfl, ?_, longestMatch_of_not_completes⟩
  rintro ⟨n, k, hpath⟩
  exact longestMatch_of_completes hpath

/-- A mode that begins in a composite with a state listed twice, and whose next sets overlap, with
states listed twice as well. -/
def overlapping : ScanMode where
  states := #[
    { moves := { ascii := BitVec.twoPow 128 97 }, nextSet := some 0 },
    { moves := { ascii := BitVec.twoPow 128 97, chars := ['é'] }, kind := some 4, nextSet := some 1 },
    { moves := { ranges := [('à', 'ü')] }, kind := some 2, nextSet := some 0 }]
  nextSets := #[[1, 2, 1], [2, 0, 2]]
  composites := #[[2, 2], [0, 1, 0]]
  initial := some 4
  emptyMatch := some 7

/-- An overlapping text with characters of two bytes: the longest match is told in bytes, and paths tell
the same. -/
theorem markedMatch?_paths_overlapping : overlapping.InRange ∧
    overlapping.markedMatch? ['a', 'é', 'é', 'z'] = some (some ⟨2, 5⟩) ∧
    ∃ found, overlapping.markedMatch? ['a', 'é', 'é', 'z'] = some found ∧
      (overlapping.longestMatch ['a', 'é', 'é', 'z']).1.map (Match.inBytes ['a', 'é', 'é', 'z']) =
        found ∧
      ((∃ n k, overlapping.CompletesWithin ['a', 'é', 'é', 'z'] n k) →
        ∃ kind bytes, found = some ⟨kind, bytes⟩ ∧ 0 < bytes ∧
          overlapping.CompletesWithin ['a', 'é', 'é', 'z'] bytes kind ∧
          (∀ n k, overlapping.CompletesWithin ['a', 'é', 'é', 'z'] n k → n ≤ bytes) ∧
          ∀ k, overlapping.CompletesWithin ['a', 'é', 'é', 'z'] bytes k → kind ≤ k) ∧
      ((∀ n k, ¬ overlapping.CompletesWithin ['a', 'é', 'é', 'z'] n k) →
        found = overlapping.emptyMatch.map fun k => ⟨k, 0⟩) := by
  have hrange : overlapping.InRange := ⟨by decide, by decide, by decide, by decide⟩
  exact ⟨hrange, by decide +kernel, markedMatch?_paths overlapping hrange _⟩

end ScanMode

end GrammarForge
