import GrammarForge.LexicalState
import GrammarForge.Proofs.Construction
import GrammarForge.Proofs.Reduction

set_option autoImplicit false

/-!
# The automaton of a lexical state

The automaton of a lexical state begins with the fragments of all tokens that are active in it.
From its initial state, a text leads to the last state of a token's fragment exactly if it is
in the language of the token; closed and reduced, the automaton accepts after each character the
lowest token that matches the text read so far.

## Main definitions

* `TokenPart` — a token's part of the automaton.
* `Begins` — an automaton that begins with the fragments of some tokens.
* `Recognizes` — a lexical state accepts the texts of given languages.

## Main results

* `Begins.reads_iff` — which texts lead to a state that accepts a token.
* `begins_addAll` — building the fragments of several tokens.
* `recognizes_buildState` — a lexical state recognizes its active tokens.
-/

namespace GrammarForge

open Computability Automaton

/-! ## Automata that begin with tokens -/

/-- A token's part of an automaton: the states from `lo` up to `hi`. -/
structure TokenPart where
  ordinal : Nat
  lang : Language Char
  first : Nat
  last : Nat
  lo : Nat
  hi : Nat

/-- The part lies in the automaton: its last state accepts the token and has no moves, and every
path from its first state elsewhere goes through its last one. -/
structure TokenPart.LiesIn (p : TokenPart) (a : Automaton) : Prop where
  lo_pos : 0 < p.lo
  first_mem : p.lo ≤ p.first ∧ p.first < p.hi
  last_mem : p.lo ≤ p.last ∧ p.last < p.hi
  hi_le : p.hi ≤ a.size
  last_state : a.state p.last = { isFinal := true, kind := some p.ordinal }
  kind : ∀ {x}, p.lo ≤ x → x < p.hi → x ≠ p.last → (a.state x).kind = none
  leads : ∀ {b : Automaton} {target : Nat → Prop},
    (∀ x, p.lo ≤ x → x < p.hi → b.state x = a.state x) →
    (∀ x, p.lo ≤ x → x < p.hi → x ≠ p.last → ¬ target x) → b.Leads target p.first p.lang p.last

/-- **An automaton that begins with tokens.** Its state `0` leads by epsilon moves to the
fragments of the tokens, and only their last states accept something. -/
structure Begins (a : Automaton) (ps : List TokenPart) : Prop extends WellFormed a where
  size_pos : 0 < a.size
  silent : ∀ {y}, a.Silent 0 y ↔ ∃ p ∈ ps, y = p.first
  moves : ∀ {c y}, ¬ a.Moves 0 c y
  lies : ∀ p ∈ ps, p.LiesIn a
  kind : ∀ {t k}, (a.state t).kind = some k → ∃ p ∈ ps, t = p.last ∧ k = p.ordinal

/-- The automaton before any token has been added.

**Proof sketch.** The only state has neither moves nor a kind, and no other state exists. -/
lemma begins_empty : Begins ({} : Automaton).newState.2 [] := by
  have hstate : ∀ i, ({} : Automaton).newState.2.state i = {} := by
    intro i
    rw [newState]
    rcases Nat.eq_zero_or_pos i with rfl | hi
    · exact state_push_size {} {}
    · exact state_of_size_le (by rw [size_push]; exact hi)
  refine ⟨⟨⟨?_, ?_⟩, ?_⟩, by simp [newState], ?_, ?_, by simp, ?_⟩
  · intro i j hj
    simp [hstate] at hj
  · intro i n hn
    simp [hstate] at hn
  · intro i
    rw [hstate]
    exact MoveTable.InOrder.empty
  · simp [Silent, hstate]
  · simp [Moves, hstate]
  · intro t k hk
    simp [hstate] at hk

namespace Begins

variable {a : Automaton} {ps : List TokenPart} {w : List Char} {k : Nat}

/-- Only the empty path starts in a state that accepts a token. -/
lemma path_last {p : TokenPart} (hp : p.LiesIn a) {t n : Nat} (h : a.Path t n p.last w) :
    t = p.last ∧ w = [] := by
  cases h with
  | here => exact ⟨rfl, rfl⟩
  | silent hstep _ => simp [Silent, hp.last_state] at hstep
  | move hstep _ => simp [Moves, hp.last_state] at hstep

/-- **Texts of tokens.** A text leads from the initial state to one that accepts the kind `k`
exactly if it is in the language of the token of this kind.

**Proof sketch.** From the initial state only epsilon moves lead away, each into the part of one token,
so that a path stays there and ends at the last state of the part. Back from a part, one epsilon move
leads to the path that the part has for its text. -/
theorem reads_iff (h : Begins a ps) : (∃ t, a.Reads 0 w t ∧ (a.state t).kind = some k) ↔
    ∃ p ∈ ps, p.ordinal = k ∧ w ∈ p.lang := by
  constructor
  · rintro ⟨t, ⟨n, hpath⟩, hk⟩
    cases hpath with
    | here =>
      obtain ⟨p, hp, h0, -⟩ := h.kind hk
      have hlo := (h.lies p hp).lo_pos
      have hlast := (h.lies p hp).last_mem
      omega
    | move hstep _ => exact absurd hstep h.moves
    | silent hstep hpath =>
      obtain ⟨p, hp, rfl⟩ := h.silent.mp hstep
      have hin := h.lies p hp
      have hleads : a.Leads (fun t => (a.state t).kind = some k) p.first p.lang p.last := by
        refine hin.leads (fun _ _ _ => rfl) fun x hlo hhi hne hx => ?_
        rw [hin.kind hlo hhi hne] at hx
        cases hx
      obtain ⟨m, -, u, hu, v, hv, rfl⟩ := hleads.sound hk hpath
      obtain ⟨rfl, rfl⟩ := path_last hin hv
      rw [hin.last_state] at hk
      exact ⟨p, hp, Option.some_inj.mp hk, by rwa [List.append_nil]⟩
  · rintro ⟨p, hp, rfl, hw⟩
    have hin := h.lies p hp
    have hleads : a.Leads (fun _ => False) p.first p.lang p.last :=
      hin.leads (fun _ _ _ => rfl) fun _ _ _ _ => id
    obtain ⟨n, hn⟩ := hleads.complete hw
    refine ⟨p.last, ⟨n + 1, .silent (h.silent.mpr ⟨p, hp, rfl⟩) hn⟩, ?_⟩
    rw [hin.last_state]

/-- A part stays in an automaton whose states within the part do not change. -/
lemma lies_congr {a' : Automaton} {p : TokenPart} (hp : p.LiesIn a) (hsize : a.size ≤ a'.size)
    (hstate : ∀ x, p.lo ≤ x → x < p.hi → a'.state x = a.state x) : p.LiesIn a' where
  lo_pos := hp.lo_pos
  first_mem := hp.first_mem
  last_mem := hp.last_mem
  hi_le := hp.hi_le.trans hsize
  last_state := by rw [hstate _ hp.last_mem.1 hp.last_mem.2, hp.last_state]
  kind hlo hhi hne := by rw [hstate _ hlo hhi, hp.kind hlo hhi hne]
  leads hb htarget := hp.leads (fun x hlo hhi => (hb x hlo hhi).trans (hstate x hlo hhi)) htarget

/-- Changing the kind of a state keeps an automaton well formed.

**Proof sketch.** By whether the state is the changed one; the three fields that well-formedness speaks
of are as before. -/
lemma wellFormed_modify {i : Nat} {change : State → State} (h : a.WellFormed)
    (hchange : ∀ s, (change s).epsilon = s.epsilon ∧ (change s).next = s.next ∧
      (change s).moves = s.moves) : (a.modify i change).WellFormed := by
  have hsame : ∀ x, ((a.modify i change).state x).epsilon = (a.state x).epsilon ∧
      ((a.modify i change).state x).next = (a.state x).next ∧
      ((a.modify i change).state x).moves = (a.state x).moves := by
    intro x
    by_cases hx : i = x
    · subst hx
      rcases Nat.lt_or_ge i a.size with hlt | hge
      · rw [state_modify_self _ hlt]
        exact hchange _
      · rw [state_of_size_le hge, state_of_size_le (by simpa using hge)]
        exact ⟨rfl, rfl, rfl⟩
    · rw [state_modify_of_ne _ hx]
      exact ⟨rfl, rfl, rfl⟩
  refine ⟨⟨fun x => ?_, fun x => ?_⟩, fun x => ?_⟩
  · rw [(hsame x).1, size_modify]
    exact h.epsilon x
  · rw [(hsame x).2.1, size_modify]
    exact h.next x
  · rw [(hsame x).2.2]
    exact h.inOrder x

/-- The automaton after the last state of a fragment has come to accept a token, and the initial
state to lead to its first one. -/
def withToken (a : Automaton) (f : Fragment) (ordinal : Nat) : Automaton :=
  (a.modify f.last fun s => { s.lowerKind (some ordinal) with isFinal := true }).addEpsilon 0 f.first

/-- Marking the end of a token adds no state. -/
lemma size_withToken (a : Automaton) (f : Fragment) (ordinal : Nat) :
    (withToken a f ordinal).size = a.size := by
  simp [withToken]

/-- Other states are not changed by the mark. -/
lemma state_withToken_of_ne {f : Fragment} {ordinal x : Nat} (h0 : x ≠ 0) (hx : x ≠ f.last) :
    (withToken a f ordinal).state x = a.state x := by
  rw [withToken, state_addEpsilon_of_ne h0, state_modify_of_ne _ (Ne.symm hx)]

section

variable {a₁ : Automaton} {f : Fragment} {L : Language Char} (hpos : 0 < a.size)
  (hreal : Realizes a a₁ f L) (ordinal : Nat)

include hpos hreal

/-- The last state of the fragment accepts the token. -/
lemma state_withToken_last :
    (withToken a₁ f ordinal).state f.last = { isFinal := true, kind := some ordinal } := by
  have hlast := hreal.last_mem
  rw [withToken, state_addEpsilon_of_ne (by omega), state_modify_self _ hlast.2, hreal.last_state]
  rfl

omit hpos in
/-- The states from before are not changed, but for the initial one. -/
lemma state_withToken_of_lt {x : Nat} (hx : x < a.size) (h0 : x ≠ 0) :
    (withToken a₁ f ordinal).state x = a.state x := by
  have hlast := hreal.last_mem
  rw [state_withToken_of_ne h0 (by omega), hreal.state hx]

/-- The initial state has one more epsilon move, and nothing else has changed there.

**Proof sketch.** The fragment leaves the initial state alone, and marking its end changes another
state; then one epsilon move is added. -/
lemma state_withToken_zero :
    (∃ es, (withToken a₁ f ordinal).state 0 = { a.state 0 with epsilon := es }) ∧
      ∀ y, (withToken a₁ f ordinal).Silent 0 y ↔ a.Silent 0 y ∨ y = f.first := by
  have hlast := hreal.last_mem
  set a₂ := a₁.modify f.last fun s => { s.lowerKind (some ordinal) with isFinal := true } with ha₂
  have hzero : a₂.state 0 = a.state 0 := by
    rw [ha₂, state_modify_of_ne _ (by omega), hreal.state hpos]
  constructor
  · obtain ⟨es, hes⟩ := a₂.state_addEpsilon 0 f.first 0
    exact ⟨es, by rw [withToken, ← ha₂, hes, hzero]⟩
  · intro y
    rw [withToken, ← ha₂, silent_addEpsilon (by rw [ha₂, size_modify]; omega), silent_congr hzero]
    exact or_congr_right (and_iff_right rfl)

/-- The new part lies in the automaton. -/
lemma liesIn_withToken :
    (⟨ordinal, L, f.first, f.last, a.size, a₁.size⟩ : TokenPart).LiesIn (withToken a₁ f ordinal) := by
  refine ⟨hpos, hreal.first_mem, hreal.last_mem, (size_withToken a₁ f ordinal).ge,
    state_withToken_last hpos hreal ordinal, ?_, ?_⟩
  · intro x hlo hhi hne
    have hlo : a.size ≤ x := hlo
    rw [state_withToken_of_ne (by omega) hne, hreal.kind hlo]
  · intro b target hb htarget
    refine hreal.leads (fun x hlo hhi hne => ?_) htarget
    rw [hb x hlo hhi, state_withToken_of_ne (by omega) hne]

end

/-- **One more token.** Its fragment has been added, its last state accepts it, and the initial
state leads to its first one.

**Proof sketch.** The old parts keep their states, since the fragment grows the automaton and only the
initial state and the last one of the fragment are changed. Its kinds are those of the old parts and the
new one, and the initial state leads to the first states of all. -/
lemma add {a₁ : Automaton} {f : Fragment} {L : Language Char} (h : Begins a ps)
    (hreal : Realizes a a₁ f L) (ordinal : Nat) :
    Begins (withToken a₁ f ordinal)
      (ps ++ [⟨ordinal, L, f.first, f.last, a.size, a₁.size⟩]) := by
  have hpos := h.size_pos
  have hle := hreal.size_le
  have hsize := size_withToken a₁ f ordinal
  obtain ⟨⟨es, hzero⟩, hsilent⟩ := state_withToken_zero hpos hreal ordinal
  refine ⟨?_, by omega, ?_, ?_, ?_, ?_⟩
  · have hfirst := hreal.first_mem
    have hwf : (a₁.modify f.last fun s =>
        { s.lowerKind (some ordinal) with isFinal := true }).WellFormed :=
      wellFormed_modify (hreal.wellFormed h.toWellFormed) fun s => ⟨rfl, rfl, rfl⟩
    show (addEdges _ [(0, f.first)]).WellFormed
    exact hwf.addEdges (by simp; omega)
  · intro y
    rw [hsilent, h.silent]
    simp [or_and_right, exists_or]
  · intro c y hmove
    rw [Moves, hzero] at hmove
    exact h.moves hmove
  · intro q hq
    rcases List.mem_append.mp hq with hq | hq
    · have hin := h.lies q hq
      refine lies_congr hin (by omega) fun x hlo hhi =>
        state_withToken_of_lt hreal ordinal (hhi.trans_le hin.hi_le) ?_
      have := hin.lo_pos
      omega
    · rw [List.mem_singleton.mp hq]
      exact liesIn_withToken hpos hreal ordinal
  · intro t k hk
    by_cases ht : t = f.last
    · rw [ht, state_withToken_last hpos hreal] at hk
      exact ⟨_, List.mem_append_right _ (List.mem_singleton_self _), ht, (Option.some_inj.mp hk).symm⟩
    · have hold : (a.state t).kind = some k := by
        by_cases h0 : t = 0
        · rw [h0, hzero] at hk
          rw [h0, hk]
        · rcases Nat.lt_or_ge t a.size with hlt | hge
          · rwa [state_withToken_of_lt hreal ordinal hlt h0] at hk
          · rw [state_withToken_of_ne h0 ht, hreal.kind hge] at hk
            cases hk
      obtain ⟨q, hq, htq⟩ := h.kind hold
      exact ⟨q, List.mem_append_left _ hq, htq⟩

end Begins

/-! ## Building the fragments of tokens -/

/-- A part of an automaton is the one of a token: it has its ordinal, and the language of the
expression that was in the token's slot first. -/
def TokenPart.IsFor (ignoreCase : Bool) (first : Array (Option Regex)) (token : Nat × TokenDef)
    (p : TokenPart) : Prop :=
  p.ordinal = token.1 ∧ ∃ r, first.getD token.2.regex none = some r ∧
    p.lang = r.lang ignoreCase first

section

variable {first : Array (Option Regex)} {ignoreCase : Bool} {options : Options}

/-- **Building the fragment of one token.**

**Proof sketch.** If the slot is empty, adding fails. Otherwise the fragment realizes the language of
the expression in the slot, which is put back in normal form; and a fragment without new errors becomes
one more part. -/
lemma begins_add {t t' : TokenFragments} {ordinal : Nat} {d : TokenDef}
    (hflag : (d.ignoreCase || options.ignoreCase) = ignoreCase)
    (hslots : SlotsMean ignoreCase first t.construction.slots)
    (hadd : t.add options 0 ordinal d = .ok t') :
    SlotsMean ignoreCase first t'.construction.slots ∧
      t.construction.errors ≤ t'.construction.errors ∧
      (t'.construction.errors = t.construction.errors → ∀ {ps},
        Begins t.construction.automaton ps → ∃ p : TokenPart, p.IsFor ignoreCase first (ordinal, d) ∧
          Begins t'.construction.automaton (ps ++ [p])) := by
  rw [TokenFragments.add] at hadd
  cases hr : t.construction.slots.getD d.regex none with
  | none =>
    rw [takeSlot_eq_none hr] at hadd
    cases hadd
  | some r =>
    rw [takeSlot_eq_some hr] at hadd
    subst hflag
    obtain ⟨hres, r₀, hr₀, hlang⟩ := hslots d.regex r hr
    set m : BuildMode := ⟨d.ignoreCase || options.ignoreCase, d.position⟩
    set c : Construction := { t.construction with
      slots := t.construction.slots.setIfInBounds d.regex none } with hc
    have hbuild : Builds (SlotsMean m.ignoreCase first) (build m c.fullSlots r)
        (r.lang m.ignoreCase first) := builds_build c.fullSlots hres
    have hok : SlotsMean m.ignoreCase first c.slots := hslots.take d.regex
    have hslots' := hbuild.slots c hok
    have hmono := hbuild.mono c hok
    have hreal := hbuild.realizes c hok
    rcases hrun : build m c.fullSlots r c with ⟨f, c'⟩
    rw [hrun] at hslots' hmono hreal
    have hconstruct : construct m r c = ((f, r.normalize m.ignoreCase false), c') := by
      rw [construct, hrun]
    simp only [hconstruct, Build.putSlot] at hadd
    obtain rfl := (Except.ok.inj hadd).symm
    refine ⟨hslots'.put hres hr₀ hlang false, hmono, fun herr ps hps => ?_⟩
    exact ⟨_, ⟨rfl, r₀, hr₀, hlang⟩, hps.add (hreal herr) ordinal⟩

/-- **Building the fragments of several tokens.**

**Proof sketch.** Induction on the tokens. Errors only grow, so that without new errors in the end there
are none in between. -/
lemma begins_addAll : ∀ (tokens : List (Nat × TokenDef)) {t t' : TokenFragments},
    (∀ token ∈ tokens, (token.2.ignoreCase || options.ignoreCase) = ignoreCase) →
    SlotsMean ignoreCase first t.construction.slots → t.addAll options 0 tokens = .ok t' →
    SlotsMean ignoreCase first t'.construction.slots ∧
      t.construction.errors ≤ t'.construction.errors ∧
      (t'.construction.errors = t.construction.errors → ∀ {ps},
        Begins t.construction.automaton ps →
        ∃ ps', List.Forall₂ (TokenPart.IsFor ignoreCase first) tokens ps' ∧
          Begins t'.construction.automaton (ps ++ ps'))
  | [], t, t', _, hslots, h => by
    cases h
    refine ⟨hslots, le_rfl, fun _ ps hps => ⟨[], .nil, ?_⟩⟩
    rwa [List.append_nil]
  | (ordinal, d) :: tokens, t, t', hflags, hslots, h => by
    obtain ⟨hflag, hflags⟩ := List.forall_mem_cons.mp hflags
    rw [TokenFragments.addAll] at h
    cases hadd : t.add options 0 ordinal d with
    | error c =>
      rw [hadd] at h
      cases h
    | ok t₁ =>
      rw [hadd] at h
      obtain ⟨hslots₁, hle₁, hbegins₁⟩ := begins_add hflag hslots hadd
      obtain ⟨hslots', hle', hbegins'⟩ := begins_addAll tokens hflags hslots₁ h
      refine ⟨hslots', hle₁.trans hle', fun herr ps hps => ?_⟩
      obtain ⟨p, hp, hps₁⟩ := hbegins₁ (le_antisymm (hle'.trans herr.le) hle₁) hps
      obtain ⟨ps', hps', hbegins⟩ := hbegins' (le_antisymm (herr.le.trans hle₁) hle') hps₁
      rw [List.append_assoc] at hbegins
      exact ⟨p :: ps', .cons hp hps', hbegins⟩

end

/-! ## What a lexical state accepts -/

/-- **A lexical state recognizes languages** `lang k` of tokens `k`: along every text it accepts
after each character the lowest token that has the text read so far, and its empty match is the
lowest token that has the empty text. -/
structure Recognizes (s : LexicalState) (lang : Nat → Language Char) : Prop where
  empty : LowestKind (fun k => [] ∈ lang k) s.emptyMatch
  run : ∀ (text : List Char) {n}, n < text.length →
    ∃ k, (s.automaton.acceptedKinds MoveTable.canMove
        (s.automaton.state s.initialState).epsilon text)[n]? = some k ∧
      LowestKind (fun κ => text.take (n + 1) ∈ lang κ) k

/-- The texts of the token `k` in the lexical state `mode`: those that its expression matches, if
the token is active there. -/
def Grammar.tokenLang (g : Grammar) (ignoreCase : Bool) (mode k : Nat) : Language Char :=
  {w | 1 ≤ k ∧ ∃ d, g.tokens[k]? = some d ∧ d.states.has mode ∧
    ∃ r, g.regexes.getD d.regex none = some r ∧ r.Matches ignoreCase g.regexes w}

/-- A token is active in a lexical state if it lists the state and is not the first one, the token for
the end of the text.

**Proof sketch.** The tokens are numbered from the first one on, so that dropping the first pair drops
the kind of the end. -/
lemma mem_activeTokens {g : Grammar} {mode k : Nat} {d : TokenDef} :
    (k, d) ∈ Lexer.activeTokens g mode ↔ 1 ≤ k ∧ g.tokens[k]? = some d ∧ d.states.has mode := by
  have hdrop : ∀ (l : List TokenDef), (k, d) ∈ (l.zipIdx.map Prod.swap).drop 1 ↔
      1 ≤ k ∧ l[k]? = some d := by
    intro l
    simp only [List.mem_iff_getElem?, List.getElem?_drop, List.getElem?_map, List.getElem?_zipIdx,
      Option.map_map, Option.map_eq_some_iff, Function.comp_apply, Prod.swap_prod_mk, Prod.mk.injEq]
    constructor
    · rintro ⟨n, x, hx, hk, rfl⟩
      obtain rfl : 1 + n = k := by omega
      exact ⟨by omega, hx⟩
    · rintro ⟨hk, hd⟩
      refine ⟨k - 1, d, ?_, by omega, rfl⟩
      rwa [Nat.add_sub_cancel' hk]
  have hactive : Lexer.activeTokens g mode =
      ((g.tokens.toList.zipIdx.map Prod.swap).drop 1).filter fun t => t.2.states.has mode := rfl
  rw [hactive, List.mem_filter, hdrop, Array.getElem?_toList, and_assoc]

/-- The parts of the active tokens have the texts of these tokens.

**Proof sketch.** Induction on the active tokens, each with its part. -/
lemma mem_tokenLang {first : Array (Option Regex)} {ignoreCase : Bool} {g : Grammar} {mode k : Nat}
    {ps : List TokenPart} {w : List Char}
    (h : List.Forall₂ (TokenPart.IsFor ignoreCase first) (Lexer.activeTokens g mode) ps) :
    w ∈ ({ g with regexes := first } : Grammar).tokenLang ignoreCase mode k ↔
      ∃ p ∈ ps, p.ordinal = k ∧ w ∈ p.lang := by
  have hpart : (∃ p ∈ ps, p.ordinal = k ∧ w ∈ p.lang) ↔ ∃ token ∈ Lexer.activeTokens g mode,
      token.1 = k ∧ ∃ r, first.getD token.2.regex none = some r ∧ w ∈ r.lang ignoreCase first := by
    generalize Lexer.activeTokens g mode = tokens at h
    induction h with
    | nil => simp
    | @cons token p tokens ps hp _ ih =>
      obtain ⟨hordinal, r, hr, hlang⟩ := hp
      rw [List.exists_mem_cons_iff, List.exists_mem_cons_iff, ih, hordinal, hlang]
      refine or_congr_left (and_congr_right fun _ => ⟨fun hw => ⟨r, hr, hw⟩, ?_⟩)
      rintro ⟨r', hr', hw⟩
      rw [hr] at hr'
      rwa [Option.some_inj.mp hr']
  rw [hpart]
  constructor
  · rintro ⟨hk, d, hd, hmode, r, hr, hw⟩
    exact ⟨(k, d), mem_activeTokens.mpr ⟨hk, hd, hmode⟩, rfl, r, hr, hw⟩
  · rintro ⟨⟨k, d⟩, htoken, rfl, r, hr, hw⟩
    obtain ⟨hk, hd, hmode⟩ := mem_activeTokens.mp htoken
    exact ⟨hk, d, hd, hmode, r, hr, hw⟩

/-- **An automaton that begins with the active tokens**, once closed, recognizes them.

**Proof sketch.** Closing and reducing keep the kind of the initial state and those of every run, so
that a text is accepted with the same kinds as on paths through the automaton before. -/
lemma Begins.recognizes {a b : Automaton} {ps : List TokenPart} {s : LexicalState}
    {lang : Nat → Language Char} (h : Begins a ps) {reduced : Bool}
    (hclosures : a.closures reduced = .ok b)
    (hlang : ∀ k w, w ∈ lang k ↔ ∃ p ∈ ps, p.ordinal = k ∧ w ∈ p.lang)
    (hs : s.automaton = b) (hinitial : s.initialState = 0)
    (hempty : s.emptyMatch = (b.state 0).kind) : Recognizes s lang := by
  obtain ⟨b', hb', -, -, hsame⟩ := h.toWellFormed.closures_eq_ok reduced
  obtain rfl : b' = b := by
    rw [hclosures] at hb'
    exact (Except.ok.inj hb').symm
  obtain ⟨hkind, hrun⟩ := hsame 0 h.size_pos
  have hreads : ∀ k w, (∃ t, a.Reads 0 w t ∧ (a.state t).kind = some k) ↔ w ∈ lang k := by
    intro k w
    rw [hlang, h.reads_iff]
  constructor
  · have hlow := lowestKind_closed (i := 0) h.toInRange
    rw [← state_close h.size_pos] at hlow
    rw [hempty, hkind]
    refine hlow.congr fun k => ?_
    simp only [← hreads, reads_nil]
  · intro text n hn
    rw [hs, hinitial, hrun]
    have hplaces : ∀ i ∈ [0], i < a.size := by simpa using h.size_pos
    obtain ⟨k, hk, hlow⟩ :=
      acceptedKinds_close h.toInRange text hplaces (activeFrom_single _ 0) n hn
    refine ⟨k, hk, hlow.congr fun κ => ?_⟩
    rw [← hreads]
    simp

/-- A lexical state made from the fragments of its tokens. -/
lemma finishState_eq_ok {g : Grammar} {options : Options} {mode initial : Nat} {t : TokenFragments}
    {s : LexicalState} (h : Lexer.finishState g options mode initial t = .ok s) :
    t.construction.automaton.closures options.reduceStates = .ok s.automaton ∧
      s.initialState = initial ∧ s.numbering = s.automaton.number initial t.starts ∧
      s.emptyMatch = (s.automaton.state initial).kind := by
  rw [Lexer.finishState] at h
  cases hc : t.construction.automaton.closures options.reduceStates with
  | error e =>
    rw [hc] at h
    cases h
  | ok b =>
    rw [hc] at h
    obtain rfl := (Except.ok.inj h).symm
    exact ⟨rfl, rfl, rfl, rfl⟩

/-- A warning is no error. -/
lemma Lexer.errorCount_warnEmptyMatch (g : Grammar) (state : String) (ds : Diagnostics)
    (k : Option Nat) : (Lexer.warnEmptyMatch g state ds k).errorCount = ds.errorCount := by
  cases k with
  | none => rfl
  | some k => exact Diagnostics.errorCount_warning _ _ _

/-- **What a lexical state is built from**: the parts of its tokens, and what is made of them.

**Proof sketch.** By the three ways in which building ends: without a fragment, without a numbering, and
with a lexical state. -/
lemma Lexer.buildState_eq_ok {g g' : Grammar} {ctx ctx' : Context} {mode : Nat} {s : LexicalState}
    (h : Lexer.buildState g ctx mode = (.ok s, g', ctx')) :
    ∃ t, TokenFragments.addAll ctx.options 0
        ⟨⟨({} : Automaton).newState.2, g.regexes, ctx.diagnostics⟩, [], []⟩
        (Lexer.activeTokens g mode) = .ok t ∧
      Lexer.finishState g ctx.options mode 0 t = .ok s ∧
      g' = { g with regexes := t.construction.slots } ∧
      ctx' = { ctx with diagnostics :=
        Lexer.warnEmptyMatch g s.name t.construction.diagnostics s.emptyMatch } := by
  have hnew : ({} : Automaton).newState = (0, ({} : Automaton).newState.2) := rfl
  rw [Lexer.buildState, hnew] at h
  dsimp only at h
  cases hadd : TokenFragments.addAll ctx.options 0
      ⟨⟨({} : Automaton).newState.2, g.regexes, ctx.diagnostics⟩, [], []⟩
      (Lexer.activeTokens g mode) with
  | error e =>
    rw [hadd] at h
    cases h
  | ok t =>
    rw [hadd] at h
    dsimp only at h
    cases hfin : Lexer.finishState g ctx.options mode 0 t with
    | error e =>
      rw [hfin] at h
      cases h
    | ok s' =>
      rw [hfin] at h
      cases h
      exact ⟨t, rfl, hfin, rfl, rfl⟩

/-- **Building a lexical state.** The slots keep their languages and errors stay reported. Unless
a new error is reported, the lexical state recognizes the tokens that are active in it.

**Proof sketch.** The automaton begins with one empty state, the tokens become its parts, and closing
makes a lexical state that recognizes them. The warning about the empty text is no error. -/
lemma recognizes_buildState {first : Array (Option Regex)} {ignoreCase : Bool} {g g' : Grammar}
    {ctx ctx' : Context} {mode : Nat} {s : LexicalState}
    (hflags : ∀ k d, 1 ≤ k → g.tokens[k]? = some d →
      (d.ignoreCase || ctx.options.ignoreCase) = ignoreCase)
    (hslots : SlotsMean ignoreCase first g.regexes)
    (h : Lexer.buildState g ctx mode = (.ok s, g', ctx')) :
    (∃ slots, g' = { g with regexes := slots } ∧ SlotsMean ignoreCase first slots) ∧
      ctx'.options = ctx.options ∧
      ctx.diagnostics.errorCount ≤ ctx'.diagnostics.errorCount ∧
      (∃ starts, s.numbering = s.automaton.number s.initialState starts) ∧
      (ctx'.diagnostics.errorCount = ctx.diagnostics.errorCount →
        Recognizes s ({ g with regexes := first }.tokenLang ignoreCase mode) ∧
          s.automaton.WellFormed ∧ s.initialState < s.automaton.size) := by
  obtain ⟨t, hadd, hfin, rfl, rfl⟩ := Lexer.buildState_eq_ok h
  have htokens : ∀ token ∈ Lexer.activeTokens g mode,
      (token.2.ignoreCase || ctx.options.ignoreCase) = ignoreCase := by
    rintro ⟨k, d⟩ htoken
    obtain ⟨hk, hd, -⟩ := mem_activeTokens.mp htoken
    exact hflags k d hk hd
  obtain ⟨hslots', hmono, hbegins⟩ := begins_addAll _ htokens hslots hadd
  obtain ⟨hclosures, hinitial, hnumber, hempty⟩ := finishState_eq_ok hfin
  have herrors : (Lexer.warnEmptyMatch g s.name t.construction.diagnostics
      s.emptyMatch).errorCount = t.construction.errors := Lexer.errorCount_warnEmptyMatch _ _ _ _
  refine ⟨⟨_, rfl, hslots'⟩, rfl, ?_, ⟨t.starts, by rw [hinitial, hnumber]⟩, fun herr => ?_⟩
  · rw [herrors]
    exact hmono
  · rw [herrors] at herr
    obtain ⟨ps, hps, hbegins⟩ := hbegins herr begins_empty
    rw [List.nil_append] at hbegins
    obtain ⟨b, hb, hwf, hsize, -⟩ :=
      hbegins.toWellFormed.closures_eq_ok ctx.options.reduceStates
    rw [hclosures] at hb
    obtain rfl := Except.ok.inj hb
    refine ⟨hbegins.recognizes hclosures (fun k w => mem_tokenLang hps) rfl hinitial
      hempty, hwf, ?_⟩
    rw [hinitial]
    exact hbegins.size_pos.trans_le hsize

end GrammarForge
