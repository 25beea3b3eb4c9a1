import GrammarForge.Grammar.Link
import GrammarForge.Proofs.Construction

set_option autoImplicit false

/-!
# Linking and token definitions

Of what a scanner is built from, linking changes the references in regular expressions only. It
points each to the slot of its label, and reports an error for every label that has none. So a
grammar that is linked without errors has all references resolved.

## Main definitions

* `Grammar.SameTokens` — two grammars define the same tokens.
* `Grammar.KeptByLinking` — relations that setting parents keeps.
* `Grammar.Extends` — a step of linking keeps the tokens and all errors.

## Main results

* `Grammar.link_tokens` — what linking does to token definitions.
* `Grammar.slotsMean_link` — after linking without errors all references are resolved.
-/

namespace GrammarForge

/-! ## Resolved references -/

namespace Regex

mutual

/-- Resolving an expression points its references to the slots of their labels. -/
lemma references_resolve (slots : OrderedMap String Nat) : ∀ r : Regex, (r.resolve slots).references =
    r.references.map fun x => (x.1, (slots.get? x.1).or x.2)
  | .reference _ _ => rfl
  | .choice rs => references_resolveAll slots rs
  | .sequence rs => references_resolveAll slots rs
  | .oneOrMore r => references_resolve slots r
  | .zeroOrMore r => references_resolve slots r
  | .zeroOrOne r => references_resolve slots r
  | .repetition r _ _ => references_resolve slots r
  | .chars _ => rfl
  | .literal _ => rfl
  | .endOfInput => rfl

/-- Resolving a list of expressions gives the references targets from the table. -/
lemma references_resolveAll (slots : OrderedMap String Nat) : ∀ rs : List Regex,
    referencesAll (resolveAll slots rs) =
      (referencesAll rs).map fun x => (x.1, (slots.get? x.1).or x.2)
  | [] => rfl
  | r :: rs => by
    rw [resolveAll, referencesAll, referencesAll, List.map_append, references_resolve slots r,
      references_resolveAll slots rs]

end

/-- An expression whose labels all have slots is resolved. -/
lemma resolved_resolve {slots : OrderedMap String Nat} {r : Regex}
    (h : r.undefinedLabels slots = []) : (r.resolve slots).Resolved := by
  intro x hx
  rw [references_resolve] at hx
  obtain ⟨y, hy, rfl⟩ := List.mem_map.mp hx
  have hlabel := List.filter_eq_nil_iff.mp h y.1 (List.mem_map_of_mem hy)
  rw [Bool.not_eq_true', Bool.not_eq_false, OrderedMap.contains] at hlabel
  rw [Option.isSome_or, hlabel, Bool.true_or]

end Regex

namespace Grammar

/-! ## What steps of linking keep -/

/-- Two grammars define the same tokens, and rules for the end of the input, in the same lexical
states. -/
structure SameTokens (g h : Grammar) : Prop where
  tokens : h.tokens = g.tokens
  regexes : h.regexes = g.regexes
  lexicalStates : h.lexicalStates = g.lexicalStates
  eofRules : h.eofRules = g.eofRules

/-- The same tokens. -/
lemma SameTokens.refl (g : Grammar) : g.SameTokens g := ⟨rfl, rfl, rfl, rfl⟩

/-- Tokens stay the same over several changes. -/
lemma SameTokens.trans {g h i : Grammar} (h₁ : g.SameTokens h) (h₂ : h.SameTokens i) :
    g.SameTokens i :=
  ⟨h₂.tokens.trans h₁.tokens, h₂.regexes.trans h₁.regexes,
    h₂.lexicalStates.trans h₁.lexicalStates, h₂.eofRules.trans h₁.eofRules⟩

/-- **A relation kept by setting parents**: by hanging a node on a parent, by noting a reference and
by forgetting all references. -/
structure KeptByLinking (R : Grammar → Grammar → Prop) : Prop where
  refl : ∀ g, R g g
  trans : ∀ {g h k}, R g h → R h k → R g k
  setParent : ∀ g i parent index, R g (setParent g i parent index)
  addReference : ∀ g p i, R g (addReference g p i)
  clear : ∀ g : Grammar,
    R g { g with productions := g.productions.map fun p => { p with references := [] } }

namespace KeptByLinking

variable {R : Grammar → Grammar → Prop}

/-- What each step keeps, the whole fold keeps. -/
lemma foldl (hR : KeptByLinking R) {α : Type} {step : Grammar → α → Grammar}
    (h : ∀ g x, R g (step g x)) (xs : List α) (g : Grammar) : R g (xs.foldl step g) :=
  List.foldlRecOn xs step (hR.refl g) fun _ hg x _ => hR.trans hg (h _ x)

/-- Linking below a node keeps what its steps keep. -/
lemma linkBelow (hR : KeptByLinking R) : ∀ (depth : Nat) (g : Grammar) (id : NodeId),
    R g (linkBelow depth g id)
  | 0, g, _ => hR.refl g
  | depth + 1, g, id => by
    rw [Grammar.linkBelow]
    refine hR.trans ?_ (hR.foldl (hR.linkBelow depth) _ _)
    refine hR.trans ?_ (hR.foldl (fun g (x : NodeId × Nat) => hR.setParent g x.1 _ x.2) _ _)
    cases g.productionOf? id with
    | none => exact hR.refl g
    | some p => exact hR.addReference g p id

/-- Linking the tree keeps what its steps keep. -/
lemma setParents (hR : KeptByLinking R) (g : Grammar) : R g g.setParents := by
  refine hR.trans (hR.clear g) (hR.foldl (fun g p => ?_) _ _)
  rw [linkProduction]
  cases g.body p with
  | none => exact hR.refl g
  | some root => exact hR.trans (hR.setParent g root _ 0) (hR.linkBelow _ _ root)

end KeptByLinking

/-- Linking the tree keeps the tokens. -/
lemma sameTokens_setParents (g : Grammar) : g.SameTokens g.setParents := by
  refine KeptByLinking.setParents ⟨SameTokens.refl, SameTokens.trans, ?_, ?_, ?_⟩ g
  · exact fun _ _ _ _ => ⟨rfl, rfl, rfl, rfl⟩
  · exact fun _ _ _ => ⟨rfl, rfl, rfl, rfl⟩
  · exact fun _ => ⟨rfl, rfl, rfl, rfl⟩

/-- So does filling in the defaults of lookaheads. -/
lemma sameTokens_fillLookaheadDefaults (g : Grammar) : g.SameTokens g.fillLookaheadDefaults :=
  ⟨rfl, rfl, rfl, rfl⟩

/-- **What marking keeps.** A property that is kept by marking a production, at a time when it is found
to match nothing, is kept by a whole pass over the productions. -/
lemma nullablePass_induction {P : Grammar → Prop}
    (hmark : ∀ {g : Grammar} {p : Nat}, P g → g.nullableFound p = true → P (g.setNullable p))
    {g : Grammar} (h : P g) : P g.nullablePass.1 := by
  refine List.foldlRecOn (motive := fun r : Grammar × Bool => P r.1) _ markNullable h ?_
  rintro ⟨k, changed⟩ hk p -
  rw [markNullable]
  split_ifs with hfound
  · exact hmark hk hfound
  · exact hk

/-- **What marking keeps**, all passes keep.

**Proof sketch.** Induction on the passes; each pass marks productions that are found. -/
lemma computeNullable_induction {P : Grammar → Prop}
    (hmark : ∀ {g : Grammar} {p : Nat}, P g → g.nullableFound p = true → P (g.setNullable p))
    {g : Grammar} (h : P g) : P g.computeNullable := by
  have hpasses : ∀ (passes : Nat) {g : Grammar}, P g → P (nullablePasses passes g) := by
    intro passes
    induction passes with
    | zero => exact fun h => h
    | succ passes ih =>
      intro g h
      have hpass := nullablePass_induction hmark h
      rw [nullablePasses]
      split_ifs
      · exact ih hpass
      · exact hpass
  exact hpasses _ h

/-- Marking productions is not about tokens. -/
lemma sameTokens_computeNullable (g : Grammar) : g.SameTokens g.computeNullable :=
  computeNullable_induction (P := g.SameTokens) (fun h _ => h.trans ⟨rfl, rfl, rfl, rfl⟩)
    (SameTokens.refl g)

/-- A step of linking keeps the tokens and the errors reported before. -/
structure Extends (r r' : Reported) : Prop where
  same : r.1.SameTokens r'.1
  errors : r.2.errorCount ≤ r'.2.errorCount

/-- Nothing is added. -/
lemma Extends.refl (r : Reported) : Extends r r := ⟨SameTokens.refl r.1, le_rfl⟩

/-- Extending goes on. -/
lemma Extends.trans {r s t : Reported} (h₁ : Extends r s) (h₂ : Extends s t) : Extends r t :=
  ⟨h₁.same.trans h₂.same, h₁.errors.trans h₂.errors⟩

/-- What each step extends, the whole fold extends. -/
lemma Extends.foldl {α : Type} {step : Reported → α → Reported}
    (h : ∀ r x, Extends r (step r x)) (xs : List α) (r : Reported) : Extends r (xs.foldl step r) :=
  List.foldlRecOn xs step (Extends.refl r) fun _ hr x _ => hr.trans (h _ x)

/-- A report counts as one error. -/
lemma errorCount_report (ds : Diagnostics) (p : Position) (fault : GrammarFault) :
    (report ds p fault).errorCount = ds.errorCount + 1 :=
  Diagnostics.errorCount_semanticError ds p fault.message

/-- Each fault is one error more. -/
lemma errorCount_foldl_report (faults : List (Position × GrammarFault)) : ∀ ds : Diagnostics,
    (faults.foldl (fun ds f => report ds f.1 f.2) ds).errorCount = ds.errorCount + faults.length := by
  induction faults with
  | nil => exact fun ds => rfl
  | cons f faults ih =>
    intro ds
    rw [List.foldl_cons, ih, errorCount_report, List.length_cons]
    omega

/-- Reporting the deferred errors. -/
lemma extends_reportDeferred (r : Reported) : Extends r (reportDeferred r) := by
  refine ⟨⟨rfl, rfl, rfl, rfl⟩, ?_⟩
  rw [reportDeferred, errorCount_foldl_report]
  exact Nat.le_add_right _ _

/-- Looking up the references to tokens. -/
lemma extends_resolveTokenRefs (r : Reported) : Extends r (resolveTokenRefs r) := by
  obtain ⟨g, ds⟩ := r
  have hcleared : Extends (g, ds) ({ g with tokenRefs := [] }, ds) := ⟨⟨rfl, rfl, rfl, rfl⟩, le_rfl⟩
  refine hcleared.trans (Extends.foldl (fun r x => ?_) _ _)
  obtain ⟨g, ds⟩ := r
  obtain ⟨id, label⟩ := x
  rw [resolveTokenRef]
  cases g.tokens.findIdx? (·.label = some label) with
  | some ordinal => exact ⟨⟨rfl, rfl, rfl, rfl⟩, le_rfl⟩
  | none => exact ⟨SameTokens.refl g, (Nat.le_succ _).trans_eq (errorCount_report _ _ _).symm⟩

/-- Looking up the names of nonterminals. -/
lemma extends_resolveNonterminals (r : Reported) : Extends r (resolveNonterminals r) := by
  refine Extends.foldl (fun r id => ?_) _ _
  obtain ⟨g, ds⟩ := r
  rw [resolveNonterminal]
  split
  · split
    · exact ⟨⟨rfl, rfl, rfl, rfl⟩, le_rfl⟩
    · exact ⟨SameTokens.refl g, (Nat.le_succ _).trans_eq (errorCount_report _ _ _).symm⟩
  · exact Extends.refl (g, ds)

/-- Checking the expansions for empty repetitions and options.

**Proof sketch.** Induction on the nodes that are checked: each check reports something or nothing. -/
lemma extends_checkExpansions (r : Reported) : Extends r (checkExpansions r) := by
  obtain ⟨g, ds⟩ := r
  refine ⟨SameTokens.refl g, ?_⟩
  refine List.foldlRecOn (motive := fun ds' : Diagnostics => ds.errorCount ≤ ds'.errorCount) _ _ le_rfl
    fun ds' hds id _ => hds.trans ?_
  have hreport : ∀ p fault, ds'.errorCount ≤ (report ds' p fault).errorCount := fun p fault =>
    (Nat.le_succ _).trans_eq (errorCount_report ds' p fault).symm
  rw [checkNode]
  cases (g.node id).kind with
  | oneOrMore b | zeroOrMore b | zeroOrOne b =>
    dsimp only
    split_ifs
    · exact hreport _ _
    · exact le_rfl
  | lookahead spec =>
    dsimp only
    split_ifs
    · exact (Diagnostics.errorCount_warning _ _ _).ge
    · exact le_rfl
  | token | nonterminal | choice | sequence | action => exact le_rfl

/-! ## Linking -/

/-- Resolving the names in regular expressions reports an error unless all labels have slots.

**Proof sketch.** The errors reported are the undefined labels of all expressions; so if there are none,
no expression has any. -/
lemma resolveRegexNames_spec (g : Grammar) (ds : Diagnostics) :
    ds.errorCount ≤ (resolveRegexNames (g, ds)).2.errorCount ∧
      ((resolveRegexNames (g, ds)).2.errorCount = ds.errorCount →
        ∀ i r, g.regexes.getD i none = some r → r.undefinedLabels g.regexNames = []) := by
  rw [resolveRegexNames]
  simp only [errorCount_foldl_report]
  refine ⟨Nat.le_add_right _ _, fun h i r hr => ?_⟩
  have hnil := List.length_eq_zero_iff.mp (Nat.add_eq_left.mp h)
  rw [List.flatMap_eq_nil_iff] at hnil
  have hmem : (some r, i) ∈ g.regexes.toList.zipIdx := by
    rw [List.mem_zipIdx_iff_getElem?, Array.getElem?_toList]
    rw [Array.getD_eq_getD_getElem?] at hr
    cases hi : g.regexes[i]? with
    | none =>
      rw [hi] at hr
      cases hr
    | some x =>
      rw [hi] at hr
      exact congrArg some hr
  exact List.map_eq_nil_iff.mp (hnil _ hmem)

/-- The regular expressions of a grammar with their references resolved. -/
def resolvedRegexes (g : Grammar) : Array (Option Regex) :=
  g.regexes.map fun r => r.map (·.resolve g.regexNames)

/-- What linking does after it has resolved the names in regular expressions. -/
def linkTree (r : Reported) : Reported :=
  let (g, ds) := resolveNonterminals (resolveTokenRefs r)
  let (g, ds) := checkExpansions (g.setParents.fillLookaheadDefaults.computeNullable, ds)
  ({ g with linked := true }, ds)

/-- Linking the tree. -/
lemma extends_linkTree (r : Reported) : Extends r (linkTree r) := by
  have hnames := (extends_resolveTokenRefs r).trans (extends_resolveNonterminals _)
  unfold linkTree
  generalize resolveNonterminals (resolveTokenRefs r) = r₁ at hnames ⊢
  obtain ⟨g, ds⟩ := r₁
  have hparents : Extends (g, ds) (g.setParents.fillLookaheadDefaults.computeNullable, ds) :=
    ⟨((sameTokens_setParents g).trans (sameTokens_fillLookaheadDefaults _)).trans
      (sameTokens_computeNullable _), le_rfl⟩
  have hchecked := hparents.trans (extends_checkExpansions _)
  refine hnames.trans (hchecked.trans ?_)
  exact ⟨⟨rfl, rfl, rfl, rfl⟩, le_rfl⟩

/-- **Linking and token definitions.** Linking resolves the references in regular expressions and
keeps all else; it keeps all errors, and reports one for each reference without a slot.

**Proof sketch.** Step by step: only the names in regular expressions change the tokens, and only they
report labels without a slot. -/
lemma link_tokens (g : Grammar) (ds : Diagnostics) :
    ({ g with regexes := g.resolvedRegexes } : Grammar).SameTokens (g.link ds).1 ∧
      ds.errorCount ≤ (g.link ds).2.errorCount ∧
      ((g.link ds).2.errorCount = ds.errorCount →
        ∀ i r, g.regexes.getD i none = some r → r.undefinedLabels g.regexNames = []) := by
  have hlink : g.link ds = linkTree (resolveRegexNames (reportDeferred (g, ds))) := rfl
  have h₁ := extends_reportDeferred (g, ds)
  have hresolved : ({ g with regexes := g.resolvedRegexes } : Grammar).SameTokens
    (resolveRegexNames (reportDeferred (g, ds))).1 := ⟨rfl, rfl, rfl, rfl⟩
  obtain ⟨h₂, hlabels⟩ :=
    resolveRegexNames_spec (reportDeferred (g, ds)).1 (reportDeferred (g, ds)).2
  have h₃ := extends_linkTree (resolveRegexNames (reportDeferred (g, ds)))
  rw [hlink]
  refine ⟨hresolved.trans h₃.same, h₁.errors.trans (h₂.trans h₃.errors), fun herr => hlabels ?_⟩
  exact le_antisymm (h₃.errors.trans (herr.le.trans h₁.errors)) h₂

/-- **After linking without errors all references are resolved**, so the slots mean what they
hold.

**Proof sketch.** Without errors no label is undefined, so that every expression is resolved by the
table, and it is the expression of its own slot. -/
lemma slotsMean_link {g : Grammar} {ds : Diagnostics} (ignoreCase : Bool)
    (h : (g.link ds).2.errorCount = ds.errorCount) :
    SlotsMean ignoreCase (g.link ds).1.regexes (g.link ds).1.regexes := by
  obtain ⟨hsame, -, hlabels⟩ := g.link_tokens ds
  intro i r hr
  refine ⟨?_, r, hr, rfl⟩
  rw [hsame.regexes, Array.getD_eq_getD_getElem?] at hr
  simp only [resolvedRegexes, Array.getElem?_map] at hr
  cases hi : g.regexes[i]? with
  | none =>
    rw [hi] at hr
    cases hr
  | some x =>
    rw [hi, Option.map_some, Option.getD_some] at hr
    obtain ⟨r₀, rfl, rfl⟩ := Option.map_eq_some_iff.mp hr
    refine Regex.resolved_resolve (hlabels h i r₀ ?_)
    rw [Array.getD_eq_getD_getElem?, hi, Option.getD_some]

end Grammar

end GrammarForge
