import GrammarForge.Compilation
import GrammarForge.Grammar.Builder
import GrammarForge.Proofs.Rebuilding

set_option autoImplicit false

/-!
# Compiling a rejected grammar again

A grammar is linked once. The errors that linking reports are reported by the first compilation
only; a second one takes the grammar as it was linked. Errors of the scanner are reported by every
compilation, as building the scanner can be repeated. Checking choice points reports none.

## Main results

* `Checker.errorCount_checkAll` — checking choice points reports no errors.
* `Grammar.compile_eq_error` — how a compilation comes to fail on semantic errors.
* `Grammar.compile_fails_again` — a grammar with errors in its scanner is rejected again.
* `Grammar.compile_forgets_link_errors` — one with errors that linking reports is not.
-/

namespace GrammarForge

/-! ## Checking choice points -/

namespace Checker

/-- A warning is no error. -/
lemma errorCount_warn (c : Checker) (p : Position) (message : String) :
    (c.warn p message).diagnostics.errorCount = c.diagnostics.errorCount :=
  Diagnostics.errorCount_warning c.diagnostics p message

/-- Checking a choice reports no errors.

**Proof sketch.** Along the cases of the check, all of which add warnings or nothing. -/
lemma errorCount_checkChoice (g : Grammar) (o : Options) (c : Checker) (i : NodeId) :
    (checkChoice g o c i).2.diagnostics.errorCount = c.diagnostics.errorCount := by
  unfold checkChoice
  split
  · dsimp only
    split_ifs
    · rfl
    · split
      · exact errorCount_warn _ _ _
      · dsimp only
        refine List.foldlRecOn (motive := fun c' : Checker =>
          c'.diagnostics.errorCount = c.diagnostics.errorCount) _ _ rfl fun c' hc' conflict _ => ?_
        exact (errorCount_warn _ _ _).trans hc'
  · rfl

/-- Deepening the check of a repetition reports no errors. -/
lemma errorCount_deepenRepetition (g : Grammar) (force : Bool) (i body : NodeId) :
    ∀ (rounds depth : Nat) (last : Option TokenSeq) (c : Checker),
    (deepenRepetition g force i body rounds depth last c).2.diagnostics.errorCount =
      c.diagnostics.errorCount
  | 0, _, _, _ => rfl
  | rounds + 1, depth, last, c => by
    have hwarned : ∀ (p : Bool) (c' : Checker) (message : String),
        (if p then c'.warn (g.node body).position message else c').diagnostics.errorCount =
          c'.diagnostics.errorCount := by
      intro p c' message
      split_ifs
      · exact errorCount_warn _ _ _
      · rfl
    unfold deepenRepetition
    dsimp only
    split
    · rw [errorCount_deepenRepetition g force i body rounds, hwarned]
    · exact hwarned _ _ _

/-- Checking a repetition reports no errors. -/
lemma errorCount_checkRepetition (g : Grammar) (o : Options) (c : Checker) (i body : NodeId) :
    (checkRepetition g o c i body).2.diagnostics.errorCount = c.diagnostics.errorCount := by
  have hdeepen := errorCount_deepenRepetition g o.forceLookaheadCheck i body o.otherAmbiguityCheck
    1 none c
  unfold checkRepetition
  dsimp only
  split
  · rename_i heq
    rw [heq] at hdeepen
    exact hdeepen
  · rename_i heq
    rw [heq] at hdeepen
    exact (errorCount_warn _ _ _).trans hdeepen

/-- Checking a node reports no errors. -/
lemma errorCount_checkNode (g : Grammar) (o : Options) (c : Checker) (i : NodeId) :
    (checkNode g o c i).2.diagnostics.errorCount = c.diagnostics.errorCount := by
  unfold checkNode
  split
  · split_ifs
    · exact errorCount_checkChoice g o c i
    · rfl
  all_goals
    first
    | rfl
    | split_ifs
      · exact errorCount_checkRepetition g o c i _
      · rfl

/-- **Checking choice points reports no errors**, only warnings. -/
lemma errorCount_checkAll (g : Grammar) (o : Options) (c : Checker) :
    (checkAll g o c).2.diagnostics.errorCount = c.diagnostics.errorCount := by
  have hnodes : ∀ (ids : List NodeId) (c : Checker),
      (checkNodes g o c ids).2.diagnostics.errorCount = c.diagnostics.errorCount := by
    intro ids
    induction ids with
    | nil => exact fun c => rfl
    | cons i ids ih => exact fun c => (ih _).trans (errorCount_checkNode g o c i)
  exact hnodes _ c

end Checker

namespace Grammar

/-- Checking for conflicts reports no errors. -/
lemma errorCount_checkConflicts (g : Grammar) (ctx : Context) :
    (g.checkConflicts ctx).2.diagnostics.errorCount = ctx.diagnostics.errorCount := by
  unfold checkConflicts
  dsimp only
  split_ifs
  · exact Checker.errorCount_checkAll g ctx.options (Checker.new g ctx.diagnostics)
  · rfl

/-! ## Compiling twice -/

/-- A grammar is linked once. -/
lemma linked_linkOnce (g : Grammar) (ctx : Context) : (g.linkOnce ctx).1.linked := by
  rw [linkOnce]
  split_ifs with h
  · exact h
  · rfl

/-- A linked grammar is not linked again. -/
lemma linkOnce_of_linked {g : Grammar} (h : g.linked) (ctx : Context) :
    g.linkOnce ctx = (g, ctx) := by
  rw [linkOnce, if_pos h]

/-- **How a compilation comes to fail on semantic errors**: the scanner has been built, and the
errors have been reported by then.

**Proof sketch.** Along the steps of a compilation: an unknown id and a scanner that is not built are
other failures, and the conflicts add only warnings. -/
lemma compile_eq_error {g g' : Grammar} {o : Options} {ds : Diagnostics}
    (h : g.compile o = (.error (.semanticErrors ds), g')) :
    ∃ lexer ctx', Lexer.build (g.linkOnce { options := o }).1 (g.linkOnce { options := o }).2 =
        (.ok lexer, g', ctx') ∧ ds.errorCount = ctx'.diagnostics.errorCount := by
  rw [compile, compileIn] at h
  cases hid : g.unknownId? with
  | some id =>
    rw [hid] at h
    cases h
  | none =>
    rw [hid] at h
    dsimp only at h
    rcases hbuild : Lexer.build (g.linkOnce { options := o }).1 (g.linkOnce { options := o }).2
      with ⟨_ | lexer, g₁, ctx₁⟩
    · rw [hbuild] at h
      cases h
    · rw [hbuild] at h
      dsimp only at h
      split_ifs at h
      · cases h
        exact ⟨lexer, ctx₁, rfl, errorCount_checkConflicts _ ctx₁⟩
      · cases h

/-- A compilation of a linked grammar fails if building the scanner reports an error.

**Proof sketch.** An unknown id is a failure as well; otherwise the scanner is built, and its error is
still counted after the check for conflicts, which adds only warnings. -/
lemma compile_fails {g g' : Grammar} {o : Options} {lexer : Lexer} {ctx' : Context}
    (hlinked : g.linked) (hbuild : Lexer.build g { options := o } = (.ok lexer, g', ctx'))
    (herr : 0 < ctx'.diagnostics.errorCount) : ∃ failure, (g.compile o).1 = .error failure := by
  rw [compile, compileIn]
  cases g.unknownId? with
  | some id => exact ⟨_, rfl⟩
  | none =>
    have herrors : (g'.checkConflicts ctx').2.diagnostics.hasErrors := by
      rw [Diagnostics.hasErrors, errorCount_checkConflicts]
      exact decide_eq_true herr
    rw [linkOnce_of_linked hlinked]
    dsimp only
    rw [hbuild]
    dsimp only
    rw [if_pos herrors]
    exact ⟨_, rfl⟩

/-- **A grammar with errors in its scanner is rejected again.** Let a compilation fail on semantic
errors of which not all were reported by linking. Then the grammar that it leaves is rejected by a
second compilation too.

**Proof sketch.** The second compilation finds the grammar linked. It builds the scanner from what
the first one has left, and so reports the errors of the scanner again. -/
theorem compile_fails_again {g g' : Grammar} {o : Options} {ds : Diagnostics}
    (h : g.compile o = (.error (.semanticErrors ds), g'))
    (hscanner : (g.linkOnce { options := o }).2.diagnostics.errorCount < ds.errorCount) :
    ∃ failure, (g'.compile o).1 = .error failure := by
  obtain ⟨lexer, ctx', hbuild, herr⟩ := compile_eq_error h
  have hoptions : o = (g.linkOnce { options := o }).2.options := by
    rw [linkOnce]
    split_ifs <;> rfl
  obtain ⟨now, hagain, hcount⟩ := Lexer.build_again hbuild { options := o } hoptions
  have hlinked : g'.linked := by
    rw [(Lexer.repeats_build hbuild).grammar]
    exact g.linked_linkOnce { options := o }
  refine compile_fails hlinked hagain ?_
  have hfresh : ({ options := o } : Context).diagnostics.errorCount = 0 := rfl
  omega

/-- The number of semantic errors on which a compilation fails. -/
def errorsOf : Except CompileFailure CompiledGrammar → Nat
  | .error (.semanticErrors ds) => ds.errorCount
  | _ => 0

/-- A token that is to match a character of none, and a production that nothing defines. -/
def emptySetAndUndefined : Grammar :=
  let (_, g) := empty.addToken { label := some "NOTHING", regex := .chars { items := [] } }
  let (x, g) := g.literal "x"
  let (missing, g) := g.nonterminal "missing"
  let (body, g) := g.sequence [x, missing]
  (g.addProduction "start" body).2

/-- A grammar with an empty character set and an undefined nonterminal: building reports more errors
than linking alone, and a second compilation fails again. -/
theorem compile_fails_again_emptySetAndUndefined :
    ∃ ds g', emptySetAndUndefined.compile {} = (.error (.semanticErrors ds), g') ∧
      (emptySetAndUndefined.linkOnce {}).2.diagnostics.errorCount < ds.errorCount ∧
      ∃ failure, (g'.compile {}).1 = .error failure := by
  have hlink : (emptySetAndUndefined.linkOnce {}).2.diagnostics.errorCount = 1 := by decide +kernel
  have htwo : errorsOf (emptySetAndUndefined.compile {}).1 = 2 := by decide +kernel
  rcases hcompile : emptySetAndUndefined.compile {} with ⟨(e | ds) | c, g'⟩
  · rw [hcompile] at htwo
    cases htwo
  · rw [hcompile] at htwo
    have htwo : ds.errorCount = 2 := htwo
    have hscanner : (emptySetAndUndefined.linkOnce {}).2.diagnostics.errorCount <
      ds.errorCount := by omega
    exact ⟨ds, g', rfl, hscanner, compile_fails_again hcompile hscanner⟩
  · rw [hcompile] at htwo
    cases htwo

/-- The production `start` begins with a token and goes on with a production that nothing
defines. -/
def undefinedNonterminal : Grammar :=
  let (x, g) := empty.literal "x"
  let (missing, g) := g.nonterminal "missing"
  let (body, g) := g.sequence [x, missing]
  (g.addProduction "start" body).2

/-- **Errors that linking reports are reported once**: a grammar may be rejected by the first
compilation and pass the second one.

**Proof sketch.** A grammar that refers to an undefined nonterminal is rejected at first. It is linked
by then, so that the second compilation does not link it and reports nothing. -/
theorem compile_forgets_link_errors :
    ¬ ∀ (g g' : Grammar) (o : Options) (ds : Diagnostics),
      g.compile o = (.error (.semanticErrors ds), g') →
        ∃ failure, (g'.compile o).1 = .error failure := by
  intro h
  have hrejected : errorsOf (undefinedNonterminal.compile {}).1 = 1 := by decide +kernel
  have haccepted : ((undefinedNonterminal.compile {}).2.compile {}).1.toBool := by decide +kernel
  rcases hcompile : undefinedNonterminal.compile {} with ⟨(e | ds) | c, g'⟩
  · rw [hcompile] at hrejected
    cases hrejected
  · obtain ⟨failure, hfailure⟩ := h undefinedNonterminal g' {} ds hcompile
    rw [hcompile] at haccepted
    dsimp only at haccepted
    rw [hfailure] at haccepted
    cases haccepted
  · rw [hcompile] at hrejected
    cases hrejected

end Grammar

end GrammarForge
