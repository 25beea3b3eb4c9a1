import GrammarForge.Grammar.Builder
import GrammarForge.Proofs.LinkedTokens
import GrammarForge.Proofs.LongestMatch

set_option autoImplicit false

/-!
# Scanners find the longest match

The scanner of a grammar has a mode for every lexical state. In each mode it finds, at the beginning
of any text, the longest match of the tokens that are active in the lexical state.

## Main definitions

* `Lexer.Finds` — a lexical state finds the longest matches of tokens.

## Main results

* `Lexer.finds_buildState`, `Lexer.finds_buildStates` — what building lexical states gives.
* `Lexer.build_longestMatch` — the scanner of a grammar that is linked and built without errors.
-/

namespace GrammarForge

namespace Lexer

/-- A lexical state finds the longest match of the tokens at the beginning of every text. -/
def Finds (lang : Nat → Language Char) (s : LexicalState) : Prop :=
  ∀ text, IsLongestMatch lang text (s.scanMode.longestMatch text).1

section

variable {first : Array (Option Regex)} {ignoreCase : Bool}

/-- **Building one lexical state**: unless an error is reported, it finds the longest match of the
tokens that are active in it. -/
lemma finds_buildState {g g' : Grammar} {ctx ctx' : Context} {mode : Nat} {s : LexicalState}
    (hflags : ∀ k d, 1 ≤ k → g.tokens[k]? = some d →
      (d.ignoreCase || ctx.options.ignoreCase) = ignoreCase)
    (hslots : SlotsMean ignoreCase first g.regexes)
    (h : buildState g ctx mode = (.ok s, g', ctx'))
    (herr : ctx'.diagnostics.errorCount = ctx.diagnostics.errorCount) :
    Finds (({ g with regexes := first } : Grammar).tokenLang ignoreCase mode) s := by
  obtain ⟨-, -, -, ⟨starts, hnumber⟩, hrec⟩ := recognizes_buildState hflags hslots h
  obtain ⟨hrec, hwf, -⟩ := hrec herr
  exact fun text => hrec.isLongestMatch hwf hnumber text

/-- Lexical states are built one after the other.

**Proof sketch.** By whether the first state is built and whether the others are. -/
lemma buildStates_cons_eq_ok {mode : Nat} {modes : List Nat} {g g' : Grammar} {ctx ctx' : Context}
    {states : List LexicalState} (h : buildStates g ctx (mode :: modes) = (.ok states, g', ctx')) :
    ∃ s ss g₁ ctx₁, buildState g ctx mode = (.ok s, g₁, ctx₁) ∧
      buildStates g₁ ctx₁ modes = (.ok ss, g', ctx') ∧ states = s :: ss := by
  rw [buildStates] at h
  rcases hone : buildState g ctx mode with ⟨_ | s, g₁, ctx₁⟩
  · rw [hone] at h
    cases h
  · rw [hone] at h
    dsimp only at h
    rcases hrest : buildStates g₁ ctx₁ modes with ⟨_ | ss, g₂, ctx₂⟩
    · rw [hrest] at h
      cases h
    · rw [hrest] at h
      cases h
      exact ⟨s, ss, g₁, ctx₁, rfl, hrest, rfl⟩

/-- **Building lexical states** one after the other: each one finds the longest match of its tokens.

**Proof sketch.** Induction on the lexical states. Building one changes the grammar in its slots
only, and these keep their languages. -/
lemma finds_buildStates : ∀ (modes : List Nat) {g g' : Grammar} {ctx ctx' : Context}
    {states : List LexicalState},
    (∀ k d, 1 ≤ k → g.tokens[k]? = some d →
      (d.ignoreCase || ctx.options.ignoreCase) = ignoreCase) →
    SlotsMean ignoreCase first g.regexes → buildStates g ctx modes = (.ok states, g', ctx') →
    ctx.diagnostics.errorCount ≤ ctx'.diagnostics.errorCount ∧
      (ctx'.diagnostics.errorCount = ctx.diagnostics.errorCount → List.Forall₂ (fun mode s =>
        Finds (({ g with regexes := first } : Grammar).tokenLang ignoreCase mode) s) modes states)
  | [], g, g', ctx, ctx', states, _, _, h => by
    cases h
    exact ⟨le_rfl, fun _ => .nil⟩
  | mode :: modes, g, g', ctx, ctx', states, hflags, hslots, h => by
    obtain ⟨s, ss, g₁, ctx₁, hone, hrest, rfl⟩ := buildStates_cons_eq_ok h
    obtain ⟨⟨slots, rfl, hslots'⟩, hoptions, hmono, -⟩ := recognizes_buildState hflags hslots hone
    obtain ⟨hmono', hstates⟩ := finds_buildStates modes (by rwa [hoptions]) hslots' hrest
    refine ⟨hmono.trans hmono', fun herr => ?_⟩
    have herr₁ : ctx₁.diagnostics.errorCount = ctx.diagnostics.errorCount :=
      le_antisymm (hmono'.trans herr.le) hmono
    exact .cons (finds_buildState hflags hslots hone herr₁) (hstates (herr.trans herr₁.symm))

end

/-- **The scanner of a grammar finds the longest match.** Let a grammar be linked and its scanner
built, without a semantic error, and let its tokens agree on whether letter case is ignored. Then
the scan tables have a mode for every lexical state, and at the beginning of any text it finds the
longest match of the tokens that are active in the lexical state. The texts of a token are those
that its regular expression matches, with references looked up in the linked grammar.

**Proof sketch.** After linking without errors all references are resolved, so the slots mean what
they hold, and building lexical states goes through. -/
theorem build_longestMatch {g : Grammar} {ctx : Context} {ignoreCase : Bool}
    (hflags : ∀ k d, 1 ≤ k → g.tokens[k]? = some d →
      (d.ignoreCase || ctx.options.ignoreCase) = ignoreCase)
    (hlink : (g.link ctx.diagnostics).2.errorCount = ctx.diagnostics.errorCount)
    {lexer : Lexer} {g' : Grammar} {ctx' : Context}
    (hbuild : build (g.link ctx.diagnostics).1
      { ctx with diagnostics := (g.link ctx.diagnostics).2 } = (.ok lexer, g', ctx'))
    (herr : ctx'.diagnostics.errorCount = ctx.diagnostics.errorCount) :
    lexer.scanTables.modes.size = g.lexicalStates.size ∧
      ∀ mode < g.lexicalStates.size, ∃ m, lexer.scanTables.modes[mode]? = some m ∧
        ∀ text, IsLongestMatch ((g.link ctx.diagnostics).1.tokenLang ignoreCase mode) text
          (m.longestMatch text).1 := by
  obtain ⟨hsame, -, -⟩ := g.link_tokens ctx.diagnostics
  have hslots := Grammar.slotsMean_link ignoreCase hlink
  rw [← hlink] at herr
  clear hlink
  -- from here on only the tokens of the linked grammar matter, not how it was linked
  generalize g.link ctx.diagnostics = r at hsame hslots hbuild herr ⊢
  obtain ⟨linked, ds⟩ := r
  have htokens : g.tokens = linked.tokens := hsame.tokens.symm
  have hmodes : g.lexicalStates = linked.lexicalStates := hsame.lexicalStates.symm
  rw [htokens] at hflags
  rw [hmodes]
  rw [build] at hbuild
  rcases hstates : buildStates linked { ctx with diagnostics := ds }
    (List.range linked.lexicalStates.size) with ⟨_ | states, g₁, ctx₁⟩
  · rw [hstates] at hbuild
    cases hbuild
  · rw [hstates] at hbuild
    cases hbuild
    obtain ⟨-, hall⟩ := finds_buildStates _ (by exact hflags) hslots hstates
    have hall := hall herr
    have hlength : states.length = linked.lexicalStates.size := by
      rw [← hall.length_eq, List.length_range]
    refine ⟨by simpa [scanTables] using hlength, fun mode hmode => ?_⟩
    have hfind := (List.forall₂_iff_get.mp hall).2 mode (by simpa using hmode) (hlength ▸ hmode)
    rw [List.get_eq_getElem, List.getElem_range] at hfind
    refine ⟨(states.get ⟨mode, hlength ▸ hmode⟩).scanMode, ?_, hfind⟩
    simp [scanTables, hlength ▸ hmode]

/-- A keyword, and names made of letters; the letters have an expression of their own. -/
def keywordAndNames : Grammar :=
  let (_, g) := Grammar.empty.addToken { regex := .literal "if" }
  let (_, g) := g.privateRegex "LETTER" (.chars { items := [.range 'a' 'z'] })
  (g.addToken { label := some "NAME", regex := .oneOrMore (.reference "LETTER" none) }).2

/-- A keyword and names: the scanner is built without errors, and in every mode it finds the longest
match.

**Proof sketch.** Linking reports no errors and no token ignores letter case, so that the theorem
applies to what is built. -/
theorem build_longestMatch_keywordAndNames :
    (keywordAndNames.link {}).2.errorCount = 0 ∧ ∃ lexer g' ctx',
      build (keywordAndNames.link {}).1 { diagnostics := (keywordAndNames.link {}).2 } =
        (.ok lexer, g', ctx') ∧ ctx'.diagnostics.errorCount = 0 ∧
      lexer.scanTables.modes.size = keywordAndNames.lexicalStates.size ∧
      ∀ mode < keywordAndNames.lexicalStates.size, ∃ m, lexer.scanTables.modes[mode]? = some m ∧
        ∀ text, IsLongestMatch ((keywordAndNames.link {}).1.tokenLang false mode) text
          (m.longestMatch text).1 := by
  have hlink : (keywordAndNames.link {}).2.errorCount = 0 := by decide +kernel
  have hflags : ∀ d ∈ keywordAndNames.tokens.toList, d.ignoreCase = false := by decide +kernel
  rcases hbuild : build (keywordAndNames.link {}).1
    { diagnostics := (keywordAndNames.link {}).2 } with ⟨_ | lexer, g', ctx'⟩
  · have hok : (build (keywordAndNames.link {}).1
        { diagnostics := (keywordAndNames.link {}).2 }).1.toBool := by decide +kernel
    rw [hbuild] at hok
    cases hok
  · have herr : (build (keywordAndNames.link {}).1
        { diagnostics := (keywordAndNames.link {}).2 }).2.2.diagnostics.errorCount = 0 := by
      decide +kernel
    rw [hbuild] at herr
    refine ⟨hlink, lexer, g', ctx', rfl, herr,
      @build_longestMatch keywordAndNames {} false ?_ hlink lexer g' ctx' hbuild herr⟩
    intro k d _ hd
    rw [hflags d (Array.mem_toList_iff.mpr (Array.mem_of_getElem? hd))]
    rfl

end Lexer

end GrammarForge
