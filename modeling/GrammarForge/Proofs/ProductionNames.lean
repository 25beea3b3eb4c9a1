import GrammarForge.Proofs.LinkedTree
import GrammarForge.Proofs.WrittenGrammars

set_option autoImplicit false

/-!
# Names of productions

Productions stand in a list in the order of their definitions, whatever their names are. The names
stand in a table, in which each has one number. Nonterminals are given the number that their name has
in the table, and the number is used as a place in the list. The number of a name is the number of
different names defined before it; its place in the list is the number of all definitions before it. So
the two are the same exactly if no name has been defined twice by then.

## Main definitions

* `Grammar.definedNames`, `Grammar.namesBefore` — the names of all productions, and of those before the
  first one of a name.
* `Grammar.NamesInStep` — the table knows the names of the productions, and nonterminals their numbers.
* `Grammar.KeepsNames` — what a step does that leaves the names alone.

## Main results

* `Grammar.NamesInStep.run` — every call keeps the names in step.
* `Grammar.nonterminal_production` — which production a nonterminal is given, and when it is the one
  that it names.
-/

namespace GrammarForge

namespace Grammar

/-- The names of the productions, in the order of their definitions. -/
def definedNames (g : Grammar) : List String := g.productions.toList.map Production.name

/-- The names of the productions before the first one of a name. -/
def namesBefore (g : Grammar) (name : String) : List String :=
  g.definedNames.takeWhile (· ≠ name)

/-- **The table knows the names of the productions**: the number of a name is the number of different
names that are defined before it. **Nonterminals know their numbers**: if a nonterminal is given a
production, it is by the number of its name. -/
structure NamesInStep (g : Grammar) : Prop where
  size : g.productionNames.size = g.definedNames.toFinset.card
  defined : ∀ name ∈ g.definedNames,
    g.productionNames.index? name = some (g.namesBefore name).toFinset.card
  unknown : ∀ name ∉ g.definedNames, g.productionNames.index? name = none
  resolved : ∀ {i name p}, g.kind i = .nonterminal name (some p) →
    g.productionNames.index? name = some p

/-- **A step that leaves the names alone**: names and productions stay as they are, and no nonterminal
is given a production. -/
structure KeepsNames (g h : Grammar) : Prop where
  table : h.productionNames = g.productionNames
  names : h.definedNames = g.definedNames
  resolved : ∀ {i name p}, h.kind i = .nonterminal name (some p) → g.kind i = .nonterminal name (some p)

variable {g h : Grammar}

namespace KeepsNames

/-- The same names. -/
lemma refl (g : Grammar) : KeepsNames g g := ⟨rfl, rfl, id⟩

/-- Names are kept over several changes. -/
lemma trans {k : Grammar} (h₁ : KeepsNames g h) (h₂ : KeepsNames h k) : KeepsNames g k :=
  ⟨h₂.table.trans h₁.table, h₂.names.trans h₁.names, fun hk => h₁.resolved (h₂.resolved hk)⟩

/-- Only nodes, productions and the names of productions matter. -/
lemma of_eq (hnodes : h.nodes = g.nodes) (hproductions : h.productions = g.productions)
    (htable : h.productionNames = g.productionNames) : KeepsNames g h := by
  refine ⟨htable, by rw [definedNames, hproductions, definedNames], fun {i name p} hk => ?_⟩
  rwa [kind, node, hnodes] at hk

end KeepsNames

/-- Names in step stay in step when they are kept. -/
lemma NamesInStep.of_keeps (hg : g.NamesInStep) (hkeeps : KeepsNames g h) : h.NamesInStep := by
  obtain ⟨htable, hnames, hresolved⟩ := hkeeps
  refine ⟨?_, ?_, ?_, fun hk => ?_⟩
  · rw [htable, hnames, hg.size]
  · rw [hnames, htable]
    simp only [namesBefore, hnames]
    exact hg.defined
  · rw [hnames, htable]
    exact hg.unknown
  · rw [htable]
    exact hg.resolved (hresolved hk)

/-! ## Tokens -/

section

variable (g)

/-- A deferred fault keeps the names. -/
lemma keepsNames_deferIf (c : Bool) (fault : GrammarFault) : KeepsNames g (g.deferIf c fault) := by
  rw [deferIf]
  split_ifs
  · exact .of_eq rfl rfl rfl
  · exact .refl g

/-- A new expression keeps the names. -/
lemma keepsNames_addRegex (r : Regex) : KeepsNames g (g.addRegex r).2 := .of_eq rfl rfl rfl

/-- Naming an expression keeps the names of productions. -/
lemma keepsNames_nameRegex (label : String) (slot : Nat) : KeepsNames g (g.nameRegex label slot) := by
  have hnamed : KeepsNames g { g with regexNames := g.regexNames.insert label slot } :=
    .of_eq rfl rfl rfl
  exact hnamed.trans (keepsNames_deferIf _ _ _)

/-- A new token keeps the names. -/
lemma keepsNames_pushToken (d : TokenDef) : KeepsNames g { g with tokens := g.tokens.push d } :=
  .of_eq rfl rfl rfl

/-- Defining a token keeps the names.

**Proof sketch.** Along the cases of the definition, none of which adds a production or a nonterminal.
-/
lemma keepsNames_addToken (spec : TokenSpec) : KeepsNames g (g.addToken spec).2 := by
  have hstates : KeepsNames g (g.resolveStates spec).2 := .of_eq rfl rfl rfl
  rw [addToken]
  generalize g.resolveStates spec = resolved at hstates ⊢
  obtain ⟨⟨states, next⟩, g₁⟩ := resolved
  refine hstates.trans ?_
  dsimp only
  split
  · exact .of_eq rfl rfl rfl
  · cases literalText? spec.regex with
    | none =>
      refine (keepsNames_addRegex g₁ spec.regex).trans ?_
      cases spec.label with
      | none => exact keepsNames_pushToken _ _
      | some label => exact (keepsNames_nameRegex _ label _).trans (keepsNames_pushToken _ _)
    | some image =>
      refine (keepsNames_deferIf g₁ (g₁.literalTaken image states) (.duplicateLiteral image)).trans
        ((keepsNames_addRegex _ spec.regex).trans ?_)
      cases spec.label with
      | none => exact keepsNames_pushToken _ _
      | some label => exact (keepsNames_nameRegex _ label _).trans (keepsNames_pushToken _ _)

/-- Defining a private expression keeps the names. -/
lemma keepsNames_privateRegex (label : String) (r : Regex) : KeepsNames g (g.privateRegex label r).2 :=
  (keepsNames_addRegex g r).trans (keepsNames_nameRegex _ label _)

/-! ## Nodes -/

/-- A new node is no nonterminal that is given a production. -/
lemma keepsNames_addNodeAt (p : Position) {kind : NodeKind}
    (hkind : ∀ name q, kind ≠ .nonterminal name (some q)) : KeepsNames g (g.addNodeAt p kind).2 := by
  refine ⟨rfl, rfl, fun {i name q} hk => ?_⟩
  rw [Grammar.kind, node, addNodeAt, Array.getD_eq_getD_getElem?, Array.getElem?_push] at hk
  split_ifs at hk
  · exact absurd hk (hkind name q)
  · rwa [Grammar.kind, node, Array.getD_eq_getD_getElem?]

/-- A new node keeps the names, unless it refers to a production. -/
lemma keepsNames_addNode {kind : NodeKind} (hkind : ∀ name q, kind ≠ .nonterminal name (some q)) :
    KeepsNames g (g.addNode kind).2 := keepsNames_addNodeAt g g.position hkind

/-- A literal keeps the names. -/
lemma keepsNames_literal (image : String) : KeepsNames g (g.literal image).2 := by
  have htoken : ∀ k name q, NodeKind.token k ≠ .nonterminal name (some q) := by simp
  rw [literal]
  cases g.tokens.findIdx? (meansLiteral image) with
  | some ordinal => exact keepsNames_addNode g (htoken ordinal)
  | none =>
    have hadded := keepsNames_addToken g { regex := .literal image }
    exact hadded.trans (keepsNames_addNode _ (htoken (g.addToken { regex := .literal image }).1))

/-- A sequence keeps the names. -/
lemma keepsNames_sequence (units : List NodeId) : KeepsNames g (g.sequence units).2 := by
  rw [sequence]
  split
  · exact keepsNames_addNodeAt g _ (by simp)
  · exact (keepsNames_addNodeAt g _ (by simp)).trans (keepsNames_addNodeAt _ _ (by simp))

end

/-- Making sequences of alternatives keeps the names. -/
lemma keepsNames_asSequences : ∀ (alternatives : List NodeId) (g : Grammar),
    KeepsNames g (g.asSequences alternatives).2
  | [], g => .refl g
  | a :: alternatives, g => by
    rw [asSequences]
    by_cases ha : (g.kind a).isSequence
    · rw [if_pos ha]
      exact keepsNames_asSequences alternatives g
    · rw [if_neg ha]
      exact (keepsNames_sequence g [a]).trans (keepsNames_asSequences alternatives _)

/-- A choice keeps the names. -/
lemma keepsNames_choice (g : Grammar) (alternatives : List NodeId) :
    KeepsNames g (g.choice alternatives).2 := by
  match alternatives with
  | [] => exact (keepsNames_asSequences [] g).trans (keepsNames_addNodeAt _ _ (by simp))
  | [a] => exact .refl g
  | a :: b :: rest =>
    exact (keepsNames_asSequences (a :: b :: rest) g).trans (keepsNames_addNodeAt _ _ (by simp))

/-! ## Definitions -/

/-- Names defined later do not come before the first definition of a name. -/
lemma takeWhile_ne_append {name : String} {names : List String} (h : name ∈ names)
    (more : List String) :
    (names ++ more).takeWhile (· ≠ name) = names.takeWhile (· ≠ name) := by
  induction names with
  | nil => cases h
  | cons n names ih =>
    by_cases hn : n = name
    · simp [hn]
    · have hmem : name ∈ names := (List.mem_cons.mp h).resolve_left (Ne.symm hn)
      simpa [hn] using ih hmem

namespace NamesInStep

/-- Without productions there are no names. -/
lemma empty : NamesInStep Grammar.empty := by
  refine ⟨by decide, by decide, fun name _ => ?_, fun {i name p} hk => ?_⟩
  · exact Array.findIdx?_empty
  · rw [kind_of_size_le (Nat.zero_le i)] at hk
    cases hk

/-- **A new definition** gives the name a number only if it is a new one.

**Proof sketch.** By whether the name is known. A known name keeps its number, and the names stay as
they were, one more time; a new name gets the next number, which is the number of names so far. -/
lemma define (hg : g.NamesInStep) (name : String) (hkeeps : ∀ {i n p},
      h.kind i = .nonterminal n (some p) → g.kind i = .nonterminal n (some p))
    (htable : h.productionNames = (g.productionNames.intern name).2)
    (hnames : h.definedNames = g.definedNames ++ [name]) : h.NamesInStep := by
  cases hindex : g.productionNames.index? name with
  | some q =>
    have hknown : name ∈ g.definedNames := by
      by_contra hnot
      rw [hg.unknown name hnot] at hindex
      cases hindex
    have hsame : h.productionNames = g.productionNames := by rw [htable, NameTable.intern, hindex]
    have hmem : ∀ n, n ∈ h.definedNames ↔ n ∈ g.definedNames := by
      intro n
      rw [hnames, List.mem_append, List.mem_singleton, or_iff_left_iff_imp]
      rintro rfl
      exact hknown
    refine ⟨?_, fun n hn => ?_, fun n hn => ?_, fun hk => ?_⟩
    · rw [hsame, hg.size]
      congr 1
      ext n
      rw [List.mem_toFinset, List.mem_toFinset, hmem]
    · rw [hsame, hg.defined n ((hmem n).mp hn), namesBefore, namesBefore, hnames,
        takeWhile_ne_append ((hmem n).mp hn)]
    · rw [hsame]
      exact hg.unknown n (mt (hmem n).mpr hn)
    · rw [hsame]
      exact hg.resolved (hkeeps hk)
  | none =>
    have hnew : name ∉ g.definedNames := by
      intro hknown
      rw [hg.defined name hknown] at hindex
      cases hindex
    have hindex' : ∀ n, h.productionNames.index? n =
        (g.productionNames.index? n).or (if name = n then some g.productionNames.size else none) := by
      intro n
      rw [htable, NameTable.intern, hindex, NameTable.index?, Array.findIdx?_push]
      simp only [decide_eq_true_eq]
      rfl
    refine ⟨?_, fun n hn => ?_, fun n hn => ?_, fun hk => ?_⟩
    · rw [htable, NameTable.intern, hindex, hnames, List.toFinset_append, List.toFinset_cons,
        List.toFinset_nil, Finset.insert_empty, Finset.union_comm, ← Finset.insert_eq,
        Finset.card_insert_of_notMem (by rwa [List.mem_toFinset]), ← hg.size]
      exact Array.size_push _
    · rw [hindex', namesBefore, hnames]
      by_cases hold : n ∈ g.definedNames
      · rw [takeWhile_ne_append hold, hg.defined n hold, Option.some_or, namesBefore]
      · rw [hnames, List.mem_append, List.mem_singleton] at hn
        obtain rfl := hn.resolve_left hold
        have hall : ∀ m ∈ g.definedNames, decide (m ≠ n) = true := by
          intro m hm
          refine decide_eq_true ?_
          rintro rfl
          exact hold hm
        rw [hg.unknown n hold, Option.none_or, if_pos rfl, hg.size, List.takeWhile_append_of_pos hall]
        simp
    · rw [hnames, List.mem_append, List.mem_singleton, not_or] at hn
      rw [hindex', hg.unknown n hn.1, Option.none_or, if_neg (Ne.symm hn.2)]
    · rw [hindex', hg.resolved (hkeeps hk), Option.some_or]

/-- Defining a production keeps the names in step. -/
lemma defineProduction (hg : g.NamesInStep) (name : String) (expansion : Option NodeId) :
    (g.defineProduction name expansion).2.NamesInStep := by
  have hdeferred := hg.of_keeps (keepsNames_deferIf g (g.productionNames.index? name).isSome
    (.duplicateProduction name))
  refine hdeferred.define name id rfl ?_
  rw [definedNames, Grammar.defineProduction, Array.toList_push, List.map_append]
  rfl

end NamesInStep

/-! ## Linking -/

/-- The kind of a node after one kind has been changed. -/
lemma kind_setKind (g : Grammar) (i j : NodeId) (kind : NodeKind) :
    (g.setKind i kind).kind j = if j = i ∧ i < g.nodes.size then kind else g.kind j := by
  rw [Grammar.kind, setKind, node, getD_modify, Grammar.kind, node]
  split_ifs <;> rfl

/-- A change of a production that keeps its name. -/
lemma definedNames_modify (g : Grammar) (p : Nat) {change : Production → Production}
    (hname : ∀ q, (change q).name = q.name) :
    ({ g with productions := g.productions.modify p change } : Grammar).definedNames =
      g.definedNames := by
  rw [definedNames, definedNames, Array.toList_modify]
  refine List.ext_getElem? fun q => ?_
  rw [List.getElem?_map, List.getElem?_modify, List.getElem?_map]
  cases g.productions.toList[q]? with
  | none => rfl
  | some production => by_cases hp : p = q <;> simp [hp, hname]

/-- Setting parents keeps the names. -/
lemma keepsNames_setParents (g : Grammar) : KeepsNames g g.setParents := by
  refine KeptByLinking.setParents ⟨KeepsNames.refl, KeepsNames.trans, ?_, ?_, ?_⟩ g
  · intro g i parent index
    refine ⟨rfl, rfl, fun {j name p} hk => ?_⟩
    rwa [(sameTree_setParent g i parent index).kind] at hk
  · intro g p i
    exact ⟨rfl, definedNames_modify g p fun _ => rfl, id⟩
  · intro g
    refine ⟨rfl, ?_, id⟩
    simp [definedNames]

/-- Marking productions keeps their names. -/
lemma keepsNames_computeNullable (g : Grammar) : KeepsNames g g.computeNullable :=
  computeNullable_induction (P := KeepsNames g)
    (fun h _ => h.trans ⟨rfl, definedNames_modify _ _ fun _ => rfl, id⟩) (KeepsNames.refl g)

/-- Completing a lookahead makes it no nonterminal. -/
lemma keepsNames_fillLookaheadDefaults (g : Grammar) : KeepsNames g g.fillLookaheadDefaults := by
  refine ⟨rfl, rfl, fun {i name p} hk => ?_⟩
  rw [kind, node_fillLookaheadDefaults, completeLookahead] at hk
  split at hk
  · cases hk
  · exact hk

/-- Of linking, only looking up names is about names. -/
lemma keepsNames_tree (g : Grammar) :
    KeepsNames g g.setParents.fillLookaheadDefaults.computeNullable :=
  (keepsNames_setParents g).trans
    ((keepsNames_fillLookaheadDefaults _).trans (keepsNames_computeNullable _))

namespace NamesInStep

/-- **Looking up a nonterminal** gives it the number of its name.

**Proof sketch.** A node that is no nonterminal stays, and so does one whose name is unknown. Otherwise
the node gets the number that the table has for its name. -/
lemma resolveNonterminal {r : Reported} (hr : r.1.NamesInStep) (i : NodeId) :
    (Grammar.resolveNonterminal r i).1.NamesInStep := by
  obtain ⟨g, ds⟩ := r
  rw [Grammar.resolveNonterminal]
  split
  · rename_i name q hk
    cases hindex : g.productionNames.index? name with
    | none => exact hr
    | some p =>
      refine ⟨hr.size, hr.defined, hr.unknown, fun {j n q} hj => ?_⟩
      rw [kind_setKind] at hj
      split_ifs at hj with hji
      · obtain ⟨rfl, hq⟩ := NodeKind.nonterminal.inj hj
        exact hindex.trans hq
      · exact hr.resolved hj
  · exact hr

/-- Looking up a token makes no nonterminal. -/
lemma resolveTokenRef {r : Reported} (hr : r.1.NamesInStep) (x : NodeId × String) :
    (Grammar.resolveTokenRef r x).1.NamesInStep := by
  obtain ⟨g, ds⟩ := r
  rw [Grammar.resolveTokenRef]
  cases g.tokens.findIdx? (·.label = some x.2) with
  | none => exact hr
  | some ordinal =>
    refine hr.of_keeps ⟨rfl, rfl, fun {j name p} hj => ?_⟩
    rw [kind_setKind] at hj
    split_ifs at hj
    exact hj

/-- **Linking keeps the names in step.** -/
lemma link (hg : g.NamesInStep) (ds : Diagnostics) : (g.link ds).1.NamesInStep := by
  have htokens : (resolveTokenRefs (resolveRegexNames (reportDeferred (g, ds)))).1.NamesInStep :=
    List.foldlRecOn (motive := fun r : Reported => r.1.NamesInStep) _ _
      (hg.of_keeps (.of_eq rfl rfl rfl)) fun _ hr x _ => hr.resolveTokenRef x
  have hnames : (resolveNonterminals (resolveTokenRefs
      (resolveRegexNames (reportDeferred (g, ds))))).1.NamesInStep :=
    List.foldlRecOn (motive := fun r : Reported => r.1.NamesInStep) _ _ htokens
      fun _ hr i _ => hr.resolveNonterminal i
  have hlinked : ∀ g : Grammar, KeepsNames g { g with linked := true } := fun _ => .of_eq rfl rfl rfl
  exact (hnames.of_keeps (keepsNames_tree _)).of_keeps (hlinked _)

/-- Building the scanner keeps the names in step. -/
lemma buildLexer (hg : g.NamesInStep) (ctx : Context) : (Lexer.build g ctx).2.1.NamesInStep := by
  refine hg.of_keeps (Lexer.build_keeps KeepsNames.refl KeepsNames.trans ?_ g ctx)
  intro g ctx mode
  obtain ⟨ds, hds⟩ := Lexer.buildState_snd g ctx mode
  rw [hds]
  exact .of_eq rfl rfl rfl

/-- **Every call keeps the names in step.**

**Proof sketch.** One case per call: productions are defined with their names, linking looks them up,
and all other calls keep the names as they are. -/
lemma run (hg : g.NamesInStep) (call : Call) : (g.run call).NamesInStep := by
  cases call with
  | setPosition p => exact hg.of_keeps (.of_eq rfl rfl rfl)
  | lexicalState name => exact hg.of_keeps (.of_eq rfl rfl rfl)
  | addToken spec => exact hg.of_keeps (keepsNames_addToken g spec)
  | privateRegex label r => exact hg.of_keeps (keepsNames_privateRegex g label r)
  | literal image => exact hg.of_keeps (keepsNames_literal g image)
  | token label =>
    have hnode : KeepsNames g (g.addNode (.token 0)).2 := keepsNames_addNode g (by simp)
    exact hg.of_keeps (hnode.trans (.of_eq rfl rfl rfl))
  | eof => exact hg.of_keeps (keepsNames_addNode g (by simp))
  | nonterminal name => exact hg.of_keeps (keepsNames_addNode g (by simp))
  | action code => exact hg.of_keeps (keepsNames_addNode g (by simp))
  | lookahead spec => exact hg.of_keeps (keepsNames_addNode g (by simp))
  | sequence units => exact hg.of_keeps (keepsNames_sequence g units)
  | sequenceWith spec units =>
    have hlookahead : KeepsNames g (g.addNodeAt (g.positionOf units) (.lookahead spec)).2 :=
      keepsNames_addNodeAt g _ (by simp)
    exact hg.of_keeps (hlookahead.trans (keepsNames_sequence _ _))
  | choice alternatives => exact hg.of_keeps (keepsNames_choice g alternatives)
  | oneOrMore body | zeroOrMore body | zeroOrOne body =>
    exact hg.of_keeps (keepsNames_addNode g (by simp))
  | addProduction name expansion => exact hg.defineProduction name _
  | addCodeProduction name => exact hg.defineProduction name _
  | link ds => exact hg.link ds
  | buildLexer ctx => exact hg.buildLexer ctx

end NamesInStep

/-- In every grammar that is written, names are in step. -/
lemma namesInStep_written (calls : List Call) : NamesInStep (written calls) :=
  List.foldlRecOn calls Grammar.run NamesInStep.empty fun _ h call _ => h.run call

/-! ## The production that a nonterminal is given -/

/-- A name comes first behind the names before it. -/
lemma exists_eq_namesBefore_append {name : String} (h : name ∈ g.definedNames) :
    ∃ after, g.definedNames = g.namesBefore name ++ name :: after := by
  rw [namesBefore]
  generalize g.definedNames = names at h
  induction names with
  | nil => cases h
  | cons n names ih =>
    by_cases hn : n = name
    · exact ⟨names, by simp [hn]⟩
    · obtain ⟨after, hafter⟩ := ih ((List.mem_cons.mp h).resolve_left (Ne.symm hn))
      refine ⟨after, ?_⟩
      rw [List.takeWhile_cons_of_pos (by simpa using hn), List.cons_append, ← hafter]

/-- The defined names are those of the productions. -/
lemma getElem?_definedNames (g : Grammar) (p : Nat) :
    g.definedNames[p]? = (g.productions[p]?).map Production.name := by
  rw [definedNames, List.getElem?_map, Array.getElem?_toList]

/-- The first production of a name is the one behind those that are defined before it.

**Proof sketch.** The names before the first occurrence are all different from the name, and behind them
comes the name itself. -/
lemma productionIndex?_eq {name : String} (h : name ∈ g.definedNames) :
    g.productionIndex? name = some (g.namesBefore name).length := by
  obtain ⟨after, hsplit⟩ := exists_eq_namesBefore_append h
  have hname : ∀ q (hq : q < g.productions.size), g.definedNames[q]? = some g.productions[q].name := by
    intro q hq
    rw [getElem?_definedNames, Array.getElem?_eq_getElem hq, Option.map_some]
  have hlt : (g.namesBefore name).length < g.productions.size := by
    have hlength := congrArg List.length hsplit
    rw [definedNames, List.length_map, Array.length_toList, List.length_append,
      List.length_cons] at hlength
    omega
  rw [productionIndex?, Array.findIdx?_eq_some_iff_getElem]
  refine ⟨hlt, decide_eq_true ?_, fun q hq => ?_⟩
  · have hat := hname _ hlt
    rw [hsplit, List.getElem?_append_right le_rfl, Nat.sub_self] at hat
    exact (Option.some_inj.mp hat).symm
  · have hat := hname q (hq.trans hlt)
    rw [hsplit, List.getElem?_append_left hq] at hat
    have hbefore := List.all_eq_true.mp List.all_takeWhile _ (List.mem_of_getElem? hat)
    simpa using hbefore

/-- **The production that a nonterminal is given.** In every grammar that is written, linked at the end
or in between, it is the one whose place is the number of different names that are defined before the
name of the nonterminal. It is the first production of this name iff no name has been defined twice by
then.

**Proof sketch.** The number of a name is the number of different names before it. It is the place of
the first production of the name just if the names before it are as many as the different ones. -/
theorem nonterminal_production {calls : List Call} {i : NodeId} {name : String} {p : Nat}
    (hk : (written calls).kind i = .nonterminal name (some p)) :
    p = ((written calls).namesBefore name).toFinset.card ∧ p < (written calls).productions.size ∧
      (((written calls).production p).name = name ∧ (written calls).productionIndex? name = some p ↔
        ((written calls).namesBefore name).Nodup) := by
  have hstep := namesInStep_written calls
  generalize written calls = g at hk hstep ⊢
  have hindex := hstep.resolved hk
  have hdefined : name ∈ g.definedNames := by
    by_contra hnot
    rw [hstep.unknown name hnot] at hindex
    cases hindex
  rw [hstep.defined name hdefined] at hindex
  obtain rfl := Option.some_inj.mp hindex
  have hfirst := productionIndex?_eq hdefined
  obtain ⟨hlt, hname, -⟩ := Array.findIdx?_eq_some_iff_getElem.mp hfirst
  refine ⟨rfl, (List.toFinset_card_le _).trans_lt hlt, ⟨fun ⟨_, hsame⟩ => ?_, fun hnodup => ?_⟩⟩
  · rw [hfirst, Option.some_inj] at hsame
    exact Multiset.coe_nodup.mp (Multiset.toFinset_card_eq_card_iff_nodup.mp hsame.symm)
  · rw [List.toFinset_card_of_nodup hnodup]
    refine ⟨?_, hfirst⟩
    rw [production, Array.getD_eq_getD_getElem?, Array.getElem?_eq_getElem hlt, Option.getD_some]
    exact of_decide_eq_true hname

/-- Two productions that refer to each other, and one that is parsed by hand-written code. -/
def mutualCalls : List Call :=
  [.nonterminal "list", .addProduction "item" 0, .addCodeProduction "word", .nonterminal "item",
    .nonterminal "word", .sequence [1, 2], .addProduction "list" 4, .link {}]

/-- A nonterminal for the third production is given the number two: two names are defined before its
own, each of them once. -/
theorem nonterminal_production_mutualCalls :
    (written mutualCalls).kind 0 = .nonterminal "list" (some 2) ∧
      2 = ((written mutualCalls).namesBefore "list").toFinset.card ∧
      2 < (written mutualCalls).productions.size ∧
      (((written mutualCalls).production 2).name = "list" ∧
        (written mutualCalls).productionIndex? "list" = some 2 ↔
          ((written mutualCalls).namesBefore "list").Nodup) := by
  have hk : (written mutualCalls).kind 0 = .nonterminal "list" (some 2) := by decide +kernel
  exact ⟨hk, nonterminal_production hk⟩

/-- The name `a` is defined twice before `b` is. -/
def twiceDefined : List Call :=
  [.literal "x", .addProduction "a" 0, .literal "y", .addProduction "a" 1, .literal "z",
    .addProduction "b" 2, .nonterminal "b", .addProduction "start" 3, .link {}]

/-- **A name that is defined twice puts later names out of step**: a nonterminal `b` is given the second
production of `a`. -/
theorem nonterminal_production_twiceDefined :
    ¬ ∀ (calls : List Call) (i : NodeId) (name : String) (p : Nat),
      (written calls).kind i = .nonterminal name (some p) →
        ((written calls).production p).name = name ∧
          (written calls).productionIndex? name = some p := by
  intro h
  have hk : (written twiceDefined).kind 3 = .nonterminal "b" (some 1) := by decide +kernel
  have hname : ((written twiceDefined).production 1).name = "a" := by decide +kernel
  have hsame := (h twiceDefined 3 "b" 1 hk).1
  rw [hname] at hsame
  exact absurd hsame (by decide)

end Grammar

end GrammarForge
