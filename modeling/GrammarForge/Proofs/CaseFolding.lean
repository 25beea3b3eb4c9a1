import GrammarForge.Grammar.Builder
import GrammarForge.Proofs.Scanning
import GrammarForge.Proofs.SharedExpressions

set_option autoImplicit false

/-!
# Letter case ignored by another token

Whether one token ignores letter case should not matter to another one. It does not, as long as the
expressions that both use are neutral to letter case, such as lists of digits; the texts that the
fragment of the other token accepts are the same then, in every lexical state. But an expression
with letters that is brought to normal form for a token that ignores letter case keeps their
other-case forms, also for the tokens that are built later.

## Main definitions

* `Grammar.withIgnoreCase` — a grammar in which one token ignores letter case or not.
* `Grammar.Uses` — the slots that a token uses.
* `Lexer.fragment?` — the fragment that is built for a token in a lexical state.

## Main results

* `Lexer.isSome_fragment?` — building a scanner builds a fragment for every active token.
* `Lexer.fragment?_withIgnoreCase` — fragments that do not depend on letter case in another token.
* `Lexer.fragment?_sharedLetters` — a fragment that does.
-/

namespace GrammarForge

open Build Automaton

/-! ## Fragments of tokens -/

/-- The expression in slot `i` refers to slot `j`. -/
def Refers (slots : Array (Option Regex)) (i j : Nat) : Prop :=
  ∃ r, slots.getD i none = some r ∧ r.RefersTo j

namespace Grammar

/-- The grammar with the token `u` ignoring letter case or not. -/
def withIgnoreCase (g : Grammar) (u : Nat) (ignoreCase : Bool) : Grammar :=
  { g with tokens := g.tokens.modify u fun d => { d with ignoreCase } }

/-- The token `k` uses slot `i`: it is its own, or references lead there from its own. -/
def Uses (g : Grammar) (k i : Nat) : Prop :=
  ∃ d, g.tokens[k]? = some d ∧ Relation.ReflTransGen (Refers g.regexes) d.regex i

end Grammar

namespace TokenFragments

/-- The fragment that is built for the token `k`, after those of the tokens before it, and the
automaton with it. -/
def fragmentOf? (options : Options) (k : Nat) (t : TokenFragments) :
    List (Nat × TokenDef) → Option (Automaton × Fragment)
  | [] => none
  | (ordinal, d) :: rest =>
    if ordinal = k then
      match takeSlot d.regex t.construction with
      | (none, _) => none
      | (some r, c) =>
        let ((f, _), c) := construct ⟨d.ignoreCase || options.ignoreCase, d.position⟩ r c
        some (c.automaton, f)
    else
      match t.add options 0 ordinal d with
      | .error _ => none
      | .ok t => t.fragmentOf? options k rest

end TokenFragments

namespace Lexer

/-- The fragment that is built for the token `k` in the lexical state `mode`, after the lexical
states before it, and the automaton with it. -/
def fragment? (g : Grammar) (ctx : Context) (mode k : Nat) : Option (Automaton × Fragment) :=
  let (g, ctx) := (List.range mode).foldl (fun s i => (buildState s.1 s.2 i).2) (g, ctx)
  (TokenFragments.start g.regexes ctx.diagnostics).fragmentOf? ctx.options k (activeTokens g mode)

/-- The texts that a fragment accepts: they are read from its first state to its last one. -/
def accepted (x : Automaton × Fragment) : Language Char := {w | x.1.Reads x.2.first w x.2.last}

end Lexer

/-! ## Two runs for all tokens -/

section

variable {own other : Nat → Prop} {t u : Nat} {options : Options}

/-- **Definitions of a token in two grammars** that differ in whether `u` ignores letter case; `own`
has the slots of `t`, and `other` those of `u`. -/
structure TokenPair (own other : Nat → Prop) (t u : Nat) (x x' : Nat × TokenDef) : Prop where
  ordinal : x'.1 = x.1
  regex : x'.2.regex = x.2.regex
  same : x.1 ≠ u → x'.2 = x.2
  inOwn : x.1 = t → own x.2.regex
  inOther : x.1 = u → other x.2.regex

namespace TokenFragments

/-- The slots that are left when fragments have been built, or one of them could not be. -/
def slotsLeft : Except (Nat × Construction) TokenFragments → Array (Option Regex)
  | .error (_, c) => c.slots
  | .ok t => t.construction.slots

variable {f f' : TokenFragments} {x x' : Nat × TokenDef}

/-- The number of references that may be followed is the same in both runs. -/
lemma depthFor_eq {exact : Prop} {n : Nat} {d d' : TokenDef}
    (h : Paired exact n own other f.construction f'.construction) (hregex : d'.regex = d.regex) :
    f'.depthFor d' = f.depthFor d := by
  rw [depthFor, depthFor, hregex]
  exact Construction.fullSlots_congr (h.slots.take d.regex).size (h.slots.take d.regex).isSome_eq

/-- The fragment of a token whose expression is in its slot. -/
lemma fragmentOf?_of_some {k : Nat} {d : TokenDef} {r : Regex} (rest : List (Nat × TokenDef))
    (h : f.construction.slots.getD d.regex none = some r) :
    f.fragmentOf? options k ((k, d) :: rest) =
      some ((fragmentStep options d (f.depthFor d) f.construction).2.automaton,
        (fragmentStep options d (f.depthFor d) f.construction).1) := by
  rw [fragmentOf?, if_pos rfl, takeSlot_eq_some h, fragmentStep, buildNamed_of_some h]
  rfl

/-- Without an expression in its slot a token has no fragment. -/
lemma fragmentOf?_of_none {k : Nat} {d : TokenDef} (rest : List (Nat × TokenDef))
    (h : f.construction.slots.getD d.regex none = none) :
    f.fragmentOf? options k ((k, d) :: rest) = none := by
  rw [fragmentOf?, if_pos rfl, takeSlot_eq_none h]

/-- **Building the fragment of a token keeps two runs together**, and exactly so for the token
`t`.

**Proof sketch.** For the token `t` itself the modes are the same. The modes of another token may differ
if it is the changed one, and then its slots are those of the other side. -/
lemma together_fragmentStep (options : Options) {exact : Prop} {n : Nat}
    (hx : TokenPair own other t u x x') (hexact : exact → x.1 = t ∧ t ≠ u) (depth : Nat) :
    Together exact n own other Fragment
      (Fragment.Ends fun i => n ≤ i) (fragmentStep options x.2 depth)
      (fragmentStep options x'.2 depth) := by
  have hm : exact → modeFor options x'.2 = modeFor options x.2 := by
    intro he
    obtain ⟨ht, htu⟩ := hexact he
    rw [hx.same (ht ▸ htu)]
  have hother : (modeFor options x'.2).ignoreCase ≠ (modeFor options x.2).ignoreCase →
      other x.2.regex := by
    intro hne
    refine hx.inOther (by_contra fun hu => hne ?_)
    rw [hx.same hu]
  rw [fragmentStep, fragmentStep, hx.regex]
  exact together_buildNamed hm (together_build hm depth) ""
    (fun he => hx.inOwn (hexact he).1) hother

/-- **Adding the fragment of a token**: both runs find its expression and stay together, or neither
finds it.

**Proof sketch.** The slot is full in both runs or in neither. If it is full, both fragments are built
side by side, and the fragment of the token itself only differs from the other one if the token is the
changed one. -/
lemma paired_add (options : Options) (hx : TokenPair own other t u x x')
    (h : Paired False 0 own other f.construction f'.construction) :
    (∃ g g', f.add options 0 x.1 x.2 = .ok g ∧ f'.add options 0 x'.1 x'.2 = .ok g' ∧
      Paired False 0 own other g.construction g'.construction) ∨
    (f.add options 0 x.1 x.2 = .error f.construction ∧
      f'.add options 0 x'.1 x'.2 = .error f'.construction) := by
  have hfull := h.slots.isSome_eq x.2.regex
  cases hr : f.construction.slots.getD x.2.regex none with
  | none =>
    rw [hr] at hfull
    refine Or.inr ⟨add_of_none hr, add_of_none ?_⟩
    rw [hx.regex]
    exact Option.isNone_iff_eq_none.mp (by simpa using hfull)
  | some r =>
    rw [hr] at hfull
    obtain ⟨r', hr'⟩ := Option.isSome_iff_exists.mp hfull
    obtain ⟨hvalue, -, hpaired⟩ :=
      together_fragmentStep options hx False.elim (f.depthFor x.2) _ _ h
    refine Or.inl ⟨_, _, add_of_some hr, add_of_some (by rw [hx.regex]; exact hr'), ?_⟩
    rw [depthFor_eq h hx.regex, attach, attach, hvalue, hx.ordinal, Begins.withToken,
      Begins.withToken]
    exact (hpaired.modify _ False.elim (fun _ _ _ => Or.inr (Nat.zero_le _))
      fun _ _ _ => Or.inr (Nat.zero_le _)).modify 0 False.elim
      (fun _ _ _ => Or.inr (Nat.zero_le _)) fun _ _ _ => Or.inr (Nat.zero_le _)

/-- **The slots after the fragments of several tokens.** -/
lemma pairedSlots_addAll {xs xs' : List (Nat × TokenDef)}
    (hxs : List.Forall₂ (TokenPair own other t u) xs xs') : ∀ {f f' : TokenFragments},
    Paired False 0 own other f.construction f'.construction →
    PairedSlots own other (slotsLeft (f.addAll options 0 xs))
      (slotsLeft (f'.addAll options 0 xs')) := by
  induction hxs with
  | nil => exact fun h => h.slots
  | @cons x x' xs xs' hx hxs ih =>
    intro f f' h
    rw [addAll, addAll]
    rcases paired_add options hx h with ⟨g, g', hg, hg', hpaired⟩ | ⟨hg, hg'⟩
    · rw [hg, hg']
      exact ih hpaired
    · rw [hg, hg']
      exact h.slots

/-- **The fragment of the token `t`** accepts the same texts in both runs.

**Proof sketch.** Induction on the tokens up to `t`. Before `t` both runs stay together; at `t` the
token is the same in both, its expression is one of its own slots, and its fragment is built in the same
way. -/
lemma accepted_fragmentOf? (htu : t ≠ u) {xs xs' : List (Nat × TokenDef)}
    (hxs : List.Forall₂ (TokenPair own other t u) xs xs') : ∀ {f f' : TokenFragments},
    Paired False 0 own other f.construction f'.construction →
    (f'.fragmentOf? options t xs').map Lexer.accepted =
      (f.fragmentOf? options t xs).map Lexer.accepted := by
  induction hxs with
  | nil => exact fun _ => rfl
  | @cons x x' xs xs' hx hxs ih =>
    intro f f' h
    by_cases ht : x.1 = t
    · obtain ⟨k, d⟩ := x
      obtain ⟨k', d'⟩ := x'
      obtain rfl : k = t := ht
      obtain rfl : k' = k := hx.ordinal
      obtain rfl : d' = d := hx.same htu
      have hslot := h.slots.same d'.regex (hx.inOwn rfl)
      cases hr : f.construction.slots.getD d'.regex none with
      | none => rw [fragmentOf?_of_none _ hr, fragmentOf?_of_none _ (hslot.trans hr)]
      | some r =>
        -- the fragment itself is built in both runs alike, as all that it uses is the same
        obtain ⟨hvalue, hends, hpaired⟩ := together_fragmentStep options hx
          (fun _ : True => ⟨rfl, htu⟩) (f.depthFor d') _ _ h.restart
        rw [fragmentOf?_of_some _ hr, fragmentOf?_of_some _ (hslot.trans hr),
          depthFor_eq h rfl, Option.map_some, Option.map_some]
        congr 1
        ext w
        show Reads _ _ w _ ↔ Reads _ _ w _
        rw [hvalue]
        exact hpaired.reads_iff trivial hends.1
    · have ht' : x'.1 ≠ t := by rwa [hx.ordinal]
      rw [fragmentOf?, fragmentOf?, if_neg ht, if_neg ht']
      rcases paired_add options hx h with ⟨g, g', hg, hg', hpaired⟩ | ⟨hg, hg'⟩
      · rw [hg, hg']
        exact ih hpaired
      · rw [hg, hg']

end TokenFragments

end

/-! ## Two grammars -/

namespace Lexer

/-- What building a lexical state leaves.

**Proof sketch.** By whether the fragments and the numbering succeed: in each case the slots are those
left by the fragments, and nothing else of the grammar is changed. -/
lemma buildState_snd (g : Grammar) (ctx : Context) (mode : Nat) : ∃ ds, (buildState g ctx mode).2 =
    ({ g with regexes := TokenFragments.slotsLeft ((TokenFragments.start g.regexes
        ctx.diagnostics).addAll ctx.options 0 (activeTokens g mode)) },
      { ctx with diagnostics := ds }) := by
  have hnew : ({} : Automaton).newState = (0, ({} : Automaton).newState.2) := rfl
  rw [buildState, hnew]
  dsimp only
  rw [← TokenFragments.start]
  cases (TokenFragments.start g.regexes ctx.diagnostics).addAll ctx.options 0
    (activeTokens g mode) with
  | error e => exact ⟨_, rfl⟩
  | ok t =>
    dsimp only
    cases finishState g ctx.options mode 0 t with
    | error e => exact ⟨_, rfl⟩
    | ok s => exact ⟨_, rfl⟩

/-- The definition of a token in the grammar in which `u` ignores letter case or not. -/
def flagged (u : Nat) (ignoreCase : Bool) (x : Nat × TokenDef) : Nat × TokenDef :=
  (x.1, if x.1 = u then { x.2 with ignoreCase } else x.2)

/-- Changing the flag of a token changes it wherever the token is active.

**Proof sketch.** The tokens are the same list with one element changed, and which ones are active does
not depend on the flag. -/
lemma activeTokens_withIgnoreCase (g : Grammar) (u : Nat) (ignoreCase : Bool) (mode : Nat) :
    activeTokens (g.withIgnoreCase u ignoreCase) mode =
      (activeTokens g mode).map (flagged u ignoreCase) := by
  have hall {swap : TokenDef × Nat → Nat × TokenDef} (hswap : ∀ x, swap x = (x.2, x.1)) :
      (g.withIgnoreCase u ignoreCase).tokens.toList.zipIdx.map swap =
        (g.tokens.toList.zipIdx.map swap).map (flagged u ignoreCase) := by
    refine List.ext_getElem? fun i => ?_
    simp only [Grammar.withIgnoreCase, Array.toList_modify, List.getElem?_map, List.getElem?_zipIdx,
      List.getElem?_modify, Option.map_map]
    cases g.tokens.toList[i]? with
    | none => rfl
    | some d =>
      by_cases hi : u = i
      · simp [flagged, hswap, hi]
      · simp [flagged, hswap, hi, Ne.symm hi]
  have hstates : ∀ x, (flagged u ignoreCase x).2.states = x.2.states := by
    intro x
    rw [flagged]
    split_ifs <;> rfl
  rw [activeTokens, activeTokens, hall fun _ => rfl, ← List.map_drop, List.filter_map]
  simp only [Function.comp_def, hstates]

/-- The active tokens of the two grammars are paired. -/
lemma tokenPairs (g : Grammar) (t u : Nat) (ignoreCase : Bool) (mode : Nat) :
    List.Forall₂ (TokenPair (g.Uses t) (g.Uses u) t u) (activeTokens g mode)
      (activeTokens (g.withIgnoreCase u ignoreCase) mode) := by
  rw [activeTokens_withIgnoreCase, List.forall₂_map_right_iff, List.forall₂_same]
  intro x hx
  obtain ⟨k, d⟩ := x
  obtain ⟨-, hd, -⟩ := mem_activeTokens.mp hx
  refine ⟨rfl, ?_, fun hk => ?_, fun hk => ?_, fun hk => ?_⟩
  · rw [flagged]
    split_ifs <;> rfl
  · rw [flagged, if_neg hk]
  · exact ⟨d, hk ▸ hd, .refl⟩
  · exact ⟨d, hk ▸ hd, .refl⟩

section

variable {g : Grammar} {t u : Nat}

/-- The slots of a grammar are paired with themselves, if what both tokens use is neutral to letter
case. -/
lemma pairedSlots_self (hneutral : ∀ i r, g.Uses t i → g.Uses u i →
    g.regexes.getD i none = some r → r.CaseNeutral) :
    PairedSlots (g.Uses t) (g.Uses u) g.regexes g.regexes := by
  have hstep : ∀ {k i r}, g.regexes.getD i none = some r → g.Uses k i → ∀ j, r.RefersTo j →
      g.Uses k j := by
    intro k i r hr hk j hj
    obtain ⟨d, hd, hpath⟩ := hk
    exact ⟨d, hd, hpath.tail ⟨r, hr, hj⟩⟩
  refine ⟨rfl, fun i => ?_, fun _ _ => rfl, fun {i r} hr => ⟨hstep hr, hstep hr, fun ht hu =>
    hneutral i r ht hu hr⟩⟩
  cases g.regexes.getD i none with
  | none => exact .none
  | some r => exact .some (Regex.Alike.refl (fun _ => trivial) r)

/-- The automaton of a lexical state begins with one state in both runs. -/
lemma paired_start {own other : Nat → Prop} {slots slots' : Array (Option Regex)}
    (h : PairedSlots own other slots slots') (ds ds' : Diagnostics) :
    Paired False 0 own other (TokenFragments.start slots ds).construction
      (TokenFragments.start slots' ds').construction where
  size := rfl
  le := Nat.zero_le _
  state := False.elim
  inside _ _ := ⟨fun _ _ => Nat.zero_le _, fun _ _ => Nat.zero_le _⟩
  slots := h

/-- **The slots after several lexical states** are paired.

**Proof sketch.** Induction on the lexical states: building each of them leaves paired slots, whatever
diagnostics it reports. -/
lemma pairedSlots_buildState (ignoreCase : Bool) (o : Options) (modes : List Nat) :
    ∀ {slots slots' : Array (Option Regex)} (ds ds' : Diagnostics),
    PairedSlots (g.Uses t) (g.Uses u) slots slots' → ∃ left left' es es',
      modes.foldl (fun s i => (buildState s.1 s.2 i).2) ({ g with regexes := slots }, ⟨o, ds⟩) =
        ({ g with regexes := left }, ⟨o, es⟩) ∧
      modes.foldl (fun s i => (buildState s.1 s.2 i).2)
        ({ g.withIgnoreCase u ignoreCase with regexes := slots' }, ⟨o, ds'⟩) =
        ({ g.withIgnoreCase u ignoreCase with regexes := left' }, ⟨o, es'⟩) ∧
      PairedSlots (g.Uses t) (g.Uses u) left left' := by
  induction modes with
  | nil => exact fun ds ds' h => ⟨_, _, ds, ds', rfl, rfl, h⟩
  | cons mode modes ih =>
    intro slots slots' ds ds' h
    obtain ⟨es, hes⟩ := buildState_snd { g with regexes := slots } ⟨o, ds⟩ mode
    obtain ⟨es', hes'⟩ :=
      buildState_snd { g.withIgnoreCase u ignoreCase with regexes := slots' } ⟨o, ds'⟩ mode
    rw [List.foldl_cons, List.foldl_cons, hes, hes']
    exact ih es es' (TokenFragments.pairedSlots_addAll (tokenPairs g t u ignoreCase mode)
      (paired_start h ds ds'))

end

end Lexer

/-! ## Fragments of a scanner that is built -/

/-- A fragment is built for every token, if the fragments of all tokens are.

**Proof sketch.** Induction on the tokens. The fragment of the token itself is built, since its
expression is found; before it, the others are added. -/
lemma TokenFragments.isSome_fragmentOf? {options : Options} {k : Nat} {d : TokenDef} :
    ∀ (xs : List (Nat × TokenDef)) {f f' : TokenFragments}, f.addAll options 0 xs = .ok f' →
    (k, d) ∈ xs → (f.fragmentOf? options k xs).isSome
  | (ordinal, e) :: xs, f, f', h, hk => by
    rw [addAll] at h
    cases hadd : f.add options 0 ordinal e with
    | error c =>
      rw [hadd] at h
      cases h
    | ok f₁ =>
      rw [hadd] at h
      by_cases ho : ordinal = k
      · subst ho
        cases hr : f.construction.slots.getD e.regex none with
        | none =>
          rw [add_of_none hr] at hadd
          cases hadd
        | some r =>
          rw [fragmentOf?_of_some _ hr]
          rfl
      · have hxs : (k, d) ∈ xs := by
          rcases List.mem_cons.mp hk with heq | hxs
          · exact absurd (congrArg Prod.fst heq).symm ho
          · exact hxs
        rw [fragmentOf?, if_neg ho, hadd]
        exact isSome_fragmentOf? xs h hxs

namespace Lexer

/-- Building lexical states changes the slots of a grammar only. -/
lemma foldl_buildState (modes : List Nat) : ∀ (g : Grammar) (ctx : Context), ∃ left ds,
    modes.foldl (fun s i => (buildState s.1 s.2 i).2) (g, ctx) =
      ({ g with regexes := left }, { ctx with diagnostics := ds }) := by
  induction modes with
  | nil => exact fun g ctx => ⟨_, _, rfl⟩
  | cons mode modes ih =>
    intro g ctx
    obtain ⟨ds, hds⟩ := buildState_snd g ctx mode
    rw [List.foldl_cons, hds]
    exact ih _ _

/-- When several lexical states are built, each one is built from what those before it leave. -/
lemma exists_buildState {mode : Nat} {after : List Nat} : ∀ (before : List Nat) {g g' : Grammar}
    {ctx ctx' : Context} {states : List LexicalState},
    buildStates g ctx (before ++ mode :: after) = (.ok states, g', ctx') →
    ∃ s left, (before.foldl (fun s i => (buildState s.1 s.2 i).2) (g, ctx) = left) ∧
      (buildState left.1 left.2 mode).1 = .ok s
  | [], g, g', ctx, ctx', states, h => by
    obtain ⟨s, ss, g₁, ctx₁, hone, -, -⟩ := buildStates_cons_eq_ok h
    exact ⟨s, (g, ctx), rfl, by rw [hone]⟩
  | i :: before, g, g', ctx, ctx', states, h => by
    obtain ⟨s, ss, g₁, ctx₁, hone, hrest, -⟩ := buildStates_cons_eq_ok h
    rw [List.foldl_cons, hone]
    exact exists_buildState before hrest

/-- **Building a scanner builds a fragment for every active token.**

**Proof sketch.** The lexical states before the given one leave a grammar with other slots; there the
state is built, and so the fragments of its tokens. -/
lemma isSome_fragment? {g g' : Grammar} {ctx ctx' : Context} {lexer : Lexer} {mode k : Nat}
    {d : TokenDef} (h : build g ctx = (.ok lexer, g', ctx')) (hmode : mode < g.lexicalStates.size)
    (hk : (k, d) ∈ activeTokens g mode) : (fragment? g ctx mode k).isSome := by
  obtain ⟨after, hsplit⟩ : ∃ after, List.range g.lexicalStates.size =
      List.range mode ++ mode :: after := by
    obtain ⟨rest, hrest⟩ := Nat.exists_eq_add_of_lt hmode
    rw [hrest, Nat.add_assoc, List.range_add, List.range_succ_eq_map]
    exact ⟨_, rfl⟩
  rw [build, hsplit] at h
  rcases hstates : buildStates g ctx (List.range mode ++ mode :: after) with ⟨_ | states, g₁, ctx₁⟩
  · rw [hstates] at h
    cases h
  · obtain ⟨s, left, hleft, hs⟩ := exists_buildState _ hstates
    obtain ⟨slots, ds, hfold⟩ := foldl_buildState (List.range mode) g ctx
    rw [hfold] at hleft
    subst hleft
    obtain ⟨f, hadd, -⟩ := buildState_eq_ok (Prod.ext hs rfl)
    rw [fragment?, hfold]
    exact TokenFragments.isSome_fragmentOf? _ hadd hk

/-- **The fragment of a token does not depend on whether another token ignores letter case**, as
long as the expressions that both use are neutral to letter case. Let two grammars differ in whether
the token `u` ignores letter case. Then the fragments that are built in them for the token `t`, in any
lexical state, accept the same texts. If the scanner is built, there is a fragment for every token
that is active.

**Proof sketch.** The two scanners are built side by side. The slots of both grammars always hold
expressions of the same shape, and the same ones in the slots that `t` uses: the token `u` is the
only one that is read differently, and it leaves the same behind in those slots. So the fragments
of `t` are built in the same way. -/
theorem fragment?_withIgnoreCase {g : Grammar} {t u : Nat} (htu : t ≠ u)
    (hneutral : ∀ i r, g.Uses t i → g.Uses u i → g.regexes.getD i none = some r → r.CaseNeutral)
    (ignoreCase : Bool) (ctx : Context) (mode : Nat) :
    (fragment? (g.withIgnoreCase u ignoreCase) ctx mode t).map accepted =
        (fragment? g ctx mode t).map accepted ∧
      ∀ {lexer g' ctx' d}, build g ctx = (.ok lexer, g', ctx') → mode < g.lexicalStates.size →
        (t, d) ∈ activeTokens g mode → (fragment? g ctx mode t).isSome := by
  obtain ⟨left, left', es, es', hleft, hleft', hslots⟩ := pairedSlots_buildState ignoreCase
    ctx.options (List.range mode) ctx.diagnostics ctx.diagnostics (pairedSlots_self hneutral)
  have hfold : (List.range mode).foldl (fun s i => (buildState s.1 s.2 i).2) (g, ctx) = _ := hleft
  have hfold' : (List.range mode).foldl (fun s i => (buildState s.1 s.2 i).2)
    (g.withIgnoreCase u ignoreCase, ctx) = _ := hleft'
  refine ⟨?_, fun hbuild hmode ht => isSome_fragment? hbuild hmode ht⟩
  rw [fragment?, fragment?, hfold, hfold']
  exact TokenFragments.accepted_fragmentOf? htu (tokenPairs g t u ignoreCase mode)
    (paired_start hslots es es')

/-- Two tokens that share the digits; only the second one has letters, of its own. -/
def sharedDigits : Grammar :=
  let (_, g) := Grammar.empty.privateRegex "DIGIT" (.chars { items := [.range '0' '9'] })
  let (_, g) := g.addToken { regex := .sequence [.literal "x", .reference "DIGIT" none] }
  let letters : Regex := .chars { items := [.range 'a' 'z'] }
  let (_, g) := g.addToken { regex := .sequence [letters, .reference "DIGIT" none] }
  (g.link {}).1

/-- The first token uses its own slot and that of the digits.

**Proof sketch.** Along the references from the expression of the token: only that of the digits is
referred to. -/
lemma uses_sharedDigits {i : Nat} (h : sharedDigits.Uses 1 i) : i = 1 ∨ i = 2 := by
  have hregex : (sharedDigits.tokens[1]?.map TokenDef.regex) = some 2 := by decide +kernel
  have hrefs : ∀ i ∈ [1, 2], ((sharedDigits.regexes.getD i none).map Regex.references).getD [] ⊆
      [("DIGIT", some 1)] := by decide +kernel
  obtain ⟨d, hd, hpath⟩ := h
  rw [hd, Option.map_some, Option.some_inj] at hregex
  rw [hregex] at hpath
  induction hpath with
  | refl => exact Or.inr rfl
  | @tail i j _ hstep ih =>
    obtain ⟨r, hr, label, hlabel⟩ := hstep
    have hmem := hrefs i (by simpa using ih)
    rw [hr] at hmem
    have hone := List.mem_singleton.mp (hmem hlabel)
    rw [Prod.mk.injEq, Option.some_inj] at hone
    exact Or.inl hone.2

/-- A token that shares its digits with another one, whose flag is changed, keeps its texts: digits have
no other-case forms.

**Proof sketch.** The slots that both use are those of the digits and of the word, where folding changes
nothing; so the theorem applies. -/
theorem fragment?_withIgnoreCase_sharedDigits :
    (2 ≠ 1 ∧ ∀ i r, sharedDigits.Uses 2 i → sharedDigits.Uses 1 i →
        sharedDigits.regexes.getD i none = some r → r.CaseNeutral) ∧
      (fragment? (sharedDigits.withIgnoreCase 1 true) {} 0 2).map accepted =
        (fragment? sharedDigits {} 0 2).map accepted ∧
      (fragment? sharedDigits {} 0 2).isSome := by
  have hneutral : ∀ i r, sharedDigits.Uses 2 i → sharedDigits.Uses 1 i →
      sharedDigits.regexes.getD i none = some r → r.CaseNeutral := by
    intro i r _ hi hr
    rcases uses_sharedDigits hi with rfl | rfl
    · have hdigits : sharedDigits.regexes.getD 1 none =
          some (.chars { items := [.range '0' '9'] }) := by with_unfolding_all rfl
      rw [hdigits, Option.some_inj] at hr
      rw [← hr, Regex.CaseNeutral, Regex.normalize, Regex.normalize]
      exact congrArg Regex.chars (by decide +kernel)
    · have hword : sharedDigits.regexes.getD 2 none =
          some (.sequence [.literal "x", .reference "DIGIT" (some 1)]) := by with_unfolding_all rfl
      rw [hword, Option.some_inj] at hr
      rw [← hr]
      rfl
  obtain ⟨hsame, hsome⟩ := fragment?_withIgnoreCase (by decide) hneutral true {} 0
  refine ⟨⟨by decide, hneutral⟩, hsame, ?_⟩
  have hactive : (activeTokens sharedDigits 0).map Prod.fst = [1, 2] := by decide +kernel
  obtain ⟨⟨k, d⟩, hd, rfl⟩ : ∃ x ∈ activeTokens sharedDigits 0, x.1 = 2 :=
    List.mem_map.mp (hactive ▸ by decide)
  rcases hbuild : build sharedDigits {} with ⟨_ | lexer, g', ctx'⟩
  · have hok : (build sharedDigits {}).1.toBool := by decide +kernel
    rw [hbuild] at hok
    cases hok
  · exact hsome hbuild (by decide +kernel) hd

/-- Two tokens that share the letters. -/
def sharedLetters : Grammar :=
  let (_, g) := Grammar.empty.privateRegex "LETTER" (.chars { items := [.range 'a' 'z'] })
  let (_, g) := g.addToken { regex := .sequence [.literal "x", .reference "LETTER" none] }
  let (_, g) := g.addToken { regex := .reference "LETTER" none }
  (g.link {}).1

/-- **Letter case that is ignored in one token leaks into another one**: with it the second token
accepts a capital letter, without it does not.

**Proof sketch.** In both runs the fragment has just one move. With folding it moves on the capital
letter, and without folding it does not; so the accepted texts differ. -/
theorem fragment?_sharedLetters :
    (fragment? (sharedLetters.withIgnoreCase 1 true) {} 0 2).map accepted ≠
      (fragment? sharedLetters {} 0 2).map accepted := by
  have hplain : (fragment? sharedLetters {} 0 2).map (fun x => ((x.1.state x.2.first).epsilon,
      (x.1.state x.2.first).moves.canMove 'A')) = some ([], false) := by decide +kernel
  have hfolded : (fragment? (sharedLetters.withIgnoreCase 1 true) {} 0 2).map (fun x =>
      ((x.1.state x.2.first).moves.canMove 'A', (x.1.state x.2.first).next == some x.2.last)) =
        some (true, true) := by decide +kernel
  intro h
  obtain ⟨x, hx, hplain⟩ := Option.map_eq_some_iff.mp hplain
  obtain ⟨x', hx', hfolded⟩ := Option.map_eq_some_iff.mp hfolded
  rw [hx, hx', Option.map_some, Option.map_some, Option.some_inj] at h
  rw [Prod.mk.injEq] at hplain hfolded
  have hcapital : ['A'] ∈ accepted x' := ⟨1, .move ⟨hfolded.1, by simpa using hfolded.2⟩ .here⟩
  rw [h] at hcapital
  obtain ⟨j, k, hreach, hmove, -⟩ := reads_cons.mp hcapital
  rcases hreach.cases_head with rfl | ⟨i, hi, -⟩
  · rw [Moves, hplain.2] at hmove
    cases hmove.1
  · rw [Silent, hplain.1] at hi
    cases hi

end Lexer

end GrammarForge
