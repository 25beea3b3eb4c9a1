import Mathlib.Data.List.Basic
import GrammarForge.Proofs.ScannerTurns

set_option autoImplicit false

/-!
# Scanning loses no text

A scan cuts its text into pieces, one for each match. A piece that is kept as a beginning belongs to
the next piece that is not; such a group is delivered as one lexeme, or dropped. So what is delivered
are slices of the text, in the order of the text, each with its place, and what is missing was
dropped on purpose.

## Main definitions

* `Piece`, `Taken` — the matches that a scan takes.
* `PieceGroup`, `listing` — the groups of pieces, and what is delivered for them.
* `Token.listed` — a token with its special lexemes, in the order of the text.
* `Scanner.Reads` — what a scanner has read and delivered so far.

## Main results

* `Scanner.Reads.again`, `Scanner.Reads.done` — one turn of a scan.
* `Scanner.tokenizeAll_listing` — all tokens of a text.
-/

namespace GrammarForge

open Relation

/-- A piece of text that was matched. -/
structure Piece where
  kind : Nat
  action : TokenAction
  text : List Char

/-- **The matches taken at the beginning of a text**: one after the other they bring a scan that begins
in the first mode to a mode and to the rest of the text. -/
inductive Taken (t : ScanTables) (text : List Char) : List Piece → Nat → List Char → Prop
  | start : Taken t text [] t.startMode text
  | next {pieces : List Piece} {mode : Nat} {rest : List Char} {m : ScanMode} {kind length : Nat}
      {info : KindInfo} : Taken t text pieces mode rest → rest ≠ [] → t.modes[mode]? = some m →
      (m.longestMatch rest).1 = some ⟨kind, length⟩ → t.kinds[kind]? = some info →
      Taken t text (pieces ++ [⟨kind, info.action, rest.take length⟩]) (info.nextMode.getD mode)
        (rest.drop length)

/-- The text of some pieces. -/
def textOf (pieces : List Piece) : List Char := pieces.flatMap Piece.text

/-- The texts of pieces are put one after the other. -/
@[simp]
lemma textOf_append (ps qs : List Piece) : textOf (ps ++ qs) = textOf ps ++ textOf qs := by
  simp [textOf]

/-- The text of one piece. -/
@[simp]
lemma textOf_singleton (p : Piece) : textOf [p] = p.text := by
  simp [textOf]

/-- Pieces and the text that is left make up the whole text. -/
lemma Taken.text_eq {t : ScanTables} {text : List Char} {pieces : List Piece} {mode : Nat}
    {rest : List Char} (h : Taken t text pieces mode rest) : textOf pieces ++ rest = text := by
  induction h with
  | start => rfl
  | next _ _ _ _ _ ih => simpa using ih

/-- Every match is treated as the tables say. -/
lemma Taken.action {t : ScanTables} {text : List Char} {pieces : List Piece} {mode : Nat}
    {rest : List Char} (h : Taken t text pieces mode rest) {p : Piece} (hp : p ∈ pieces) :
    ∃ info ∈ t.kinds, p.action = info.action := by
  induction h with
  | start => cases hp
  | @next pieces mode rest m kind length info _ _ _ _ hkind ih =>
    rcases List.mem_append.mp hp with hp | hp
    · exact ih hp
    · obtain rfl := List.mem_singleton.mp hp
      exact ⟨info, Array.mem_of_getElem? hkind, rfl⟩

/-! ## Groups of pieces -/

/-- Pieces that are kept as a beginning, and the piece that they are the beginning of. -/
structure PieceGroup where
  kept : List Piece
  last : Piece
  kept_more : ∀ p ∈ kept, p.action = .more
  last_ne_more : last.action ≠ .more

namespace PieceGroup

/-- The pieces of a group, as they stand in the text. -/
def pieces (gr : PieceGroup) : List Piece := gr.kept ++ [gr.last]

/-- The text of a group. -/
def text (gr : PieceGroup) : List Char := textOf gr.pieces

/-- The lexeme of a group that stands behind the text `before`. -/
def lexeme (gr : PieceGroup) (before : List Char) : Lexeme where
  kind := gr.last.kind
  image := String.ofList gr.text
  span := ⟨Position.start.advanceAll before, Position.start.advanceAll (before ++ gr.text)⟩

/-- What is delivered for a group, and how: nothing if its last piece is skipped. -/
def listed (gr : PieceGroup) (before : List Char) : List (TokenAction × Lexeme) :=
  if gr.last.action = .skip then [] else [(gr.last.action, gr.lexeme before)]

end PieceGroup

/-- The pieces of several groups. -/
def piecesOf (groups : List PieceGroup) : List Piece := groups.flatMap PieceGroup.pieces

/-- The pieces of groups are put one after the other. -/
@[simp]
lemma piecesOf_append (xs ys : List PieceGroup) :
    piecesOf (xs ++ ys) = piecesOf xs ++ piecesOf ys := by
  simp [piecesOf]

/-- The pieces of one group. -/
@[simp]
lemma piecesOf_singleton (gr : PieceGroup) : piecesOf [gr] = gr.kept ++ [gr.last] := by
  simp [piecesOf, PieceGroup.pieces]

/-- **What is delivered for groups of pieces** that stand behind the text `before`, from left to
right. -/
def listing : List Char → List PieceGroup → List (TokenAction × Lexeme)
  | _, [] => []
  | before, gr :: groups => gr.listed before ++ listing (before ++ gr.text) groups

/-- The listing goes on behind the text of the first groups. -/
lemma listing_append (before : List Char) (xs ys : List PieceGroup) : listing before (xs ++ ys) =
    listing before xs ++ listing (before ++ textOf (piecesOf xs)) ys := by
  induction xs generalizing before with
  | nil => simp [listing, piecesOf, textOf]
  | cons gr xs ih =>
    have htext : textOf (piecesOf (gr :: xs)) = gr.text ++ textOf (piecesOf xs) := by
      simp [piecesOf, textOf, PieceGroup.text]
    simp [listing, ih, htext]

/-- Where nothing is skipped, everything is delivered. -/
lemma images_listing (before : List Char) {groups : List PieceGroup}
    (h : ∀ gr ∈ groups, gr.last.action ≠ .skip) :
    (listing before groups).flatMap (fun l => l.2.image.toList) = textOf (piecesOf groups) := by
  induction groups generalizing before with
  | nil => rfl
  | cons gr groups ih =>
    have hrest := ih (before ++ gr.text) fun gr' hgr' => h gr' (List.mem_cons_of_mem gr hgr')
    have hlisted : gr.listed before = [(gr.last.action, gr.lexeme before)] :=
      if_neg (h gr List.mem_cons_self)
    have htext : textOf (piecesOf (gr :: groups)) = gr.text ++ textOf (piecesOf groups) := by
      simp [piecesOf, textOf, PieceGroup.text]
    simp [listing, hlisted, hrest, htext, PieceGroup.lexeme]

/-- The special lexemes of a token and the token itself, and how each is delivered. -/
def Token.listed (token : Token) : List (TokenAction × Lexeme) :=
  token.specials.map (fun l => (.special, l)) ++ [(.token, token.toLexeme)]

/-- The lexeme at the end of a text. -/
def endLexeme (text : List Char) : Lexeme where
  kind := endKind
  image := ""
  span := ⟨Position.start.advanceAll text, Position.start.advanceAll text⟩

namespace Scanner

/-- **What a scanner has read and delivered so far**: the pieces of some groups and then the pieces
of `kept`, for which the groups have been delivered, with the special lexemes that still wait. -/
structure Reads (t : ScanTables) (text : List Char) (groups : List PieceGroup) (kept : List Piece)
    (delivered : List Token) (s : Scanner) : Prop where
  taken : Taken t text (piecesOf groups ++ kept) s.mode s.rest
  kept_more : ∀ p ∈ kept, p.action = .more
  position : s.position = Position.start.advanceAll (textOf (piecesOf groups ++ kept))
  buffer : s.buffer = textOf kept
  bufferStart : s.bufferStart =
    if kept = [] then none else some (Position.start.advanceAll (textOf (piecesOf groups)))
  listed : delivered.flatMap Token.listed ++ s.specials.map (fun l => (.special, l)) =
    listing [] groups
  ended : s.ended = false

variable {t : ScanTables} {text : List Char} {groups : List PieceGroup} {kept : List Piece}
  {delivered : List Token} {s s' : Scanner}

namespace Reads

/-- At the start nothing has been read. -/
lemma start (t : ScanTables) (text : String) :
    Reads t text.toList [] [] [] (Scanner.start t text) where
  taken := .start
  kept_more _ hp := by cases hp
  position := rfl
  buffer := rfl
  bufferStart := rfl
  listed := rfl
  ended := rfl

/-- A lexeme begins where its kept beginning does. -/
lemma first_eq (h : Reads t text groups kept delivered s) :
    s.bufferStart.getD s.position = Position.start.advanceAll (textOf (piecesOf groups)) := by
  rw [h.bufferStart, h.position]
  by_cases hkept : kept = []
  · simp [hkept]
  · simp [hkept]

/-- The pieces after a match. -/
lemma taken_next (h : Reads t text groups kept delivered s) {kind length : Nat} {info : KindInfo}
    (hrest : s.rest ≠ []) (hmatch : s.HasMatch t kind length info) :
    Taken t text (piecesOf groups ++ (kept ++ [⟨kind, info.action, s.rest.take length⟩]))
      (info.nextMode.getD s.mode) (s.rest.drop length) := by
  obtain ⟨m, hmode, hfound⟩ := hmatch.found
  have hnext := h.taken.next hrest hmode hfound hmatch.known
  rwa [List.append_assoc] at hnext

/-- The position after a match. -/
lemma position_next (h : Reads t text groups kept delivered s) (p : Piece) :
    s.position.advanceAll p.text =
      Position.start.advanceAll (textOf (piecesOf groups ++ (kept ++ [p]))) := by
  rw [h.position, ← Position.advanceAll_append]
  simp

/-- The group that a match ends. -/
def closed (h : Reads t text groups kept delivered s) (p : Piece) (hp : p.action ≠ .more) :
    PieceGroup := ⟨kept, p, h.kept_more, hp⟩

/-- **A match that ends a group**: the scanner moves past it and keeps no beginning, and what has been
delivered or waits now covers the group.

**Proof sketch.** The piece is taken and ends the group, so that no piece is kept; the position is
behind the piece, and the listing has one more group. -/
lemma close (h : Reads t text groups kept delivered s) {kind length : Nat} {info : KindInfo}
    (hrest : s.rest ≠ []) (hmatch : s.HasMatch t kind length info) (hmore : info.action ≠ .more)
    {delivered' : List Token} {specials : List Lexeme} {stats : ScanStats}
    (hlisted : delivered'.flatMap Token.listed ++ specials.map (fun l => (.special, l)) =
      listing [] groups ++ (h.closed ⟨kind, info.action, s.rest.take length⟩ hmore).listed
        (textOf (piecesOf groups))) :
    Reads t text (groups ++ [h.closed ⟨kind, info.action, s.rest.take length⟩ hmore]) []
      delivered' { s.consume length with
        mode := info.nextMode.getD s.mode, buffer := [], bufferStart := none, specials, stats } where
  taken := by simpa [closed, consume] using h.taken_next hrest hmatch
  kept_more _ hp := by cases hp
  position := by
    have hposition := h.position_next ⟨kind, info.action, s.rest.take length⟩
    simpa [closed, consume] using hposition
  buffer := rfl
  bufferStart := rfl
  listed := by
    rw [hlisted, listing_append]
    simp [listing]
  ended := h.ended

/-- The lexeme that a match completes is that of its group. -/
lemma lexeme_eq (h : Reads t text groups kept delivered s) (p : Piece) (hp : p.action ≠ .more) :
    (h.closed p hp).lexeme (textOf (piecesOf groups)) =
      ⟨p.kind, String.ofList (s.buffer ++ p.text),
        ⟨s.bufferStart.getD s.position, s.position.advanceAll p.text⟩⟩ := by
  rw [h.first_eq, h.position_next, h.buffer]
  simp [PieceGroup.lexeme, PieceGroup.text, PieceGroup.pieces, closed]

/-- **One turn after which the call goes on**: a match is kept, skipped, or waits as a special lexeme.

**Proof sketch.** A match that is kept joins the kept beginning. The other ones end a group, for which
nothing is delivered, or a special lexeme. -/
lemma again (h : Reads t text groups kept delivered s) (hgoes : s.Goes t s') :
    ∃ groups' kept', Reads t text groups' kept' delivered s' := by
  unfold Goes at hgoes
  by_cases hrest : s.rest = []
  · rcases turn_at_end (t := t) h.ended hrest with ⟨p, -, hturn⟩ | hturn | ⟨-, s₁, -, hturn⟩ <;>
      cases hgoes.symm.trans hturn
  rcases turn_in_text (t := t) h.ended hrest with ⟨e, n, hfail⟩ | ⟨kind, length, info, n, hmatch, hturn⟩
  · cases hgoes.symm.trans (hfail 0)
  rw [hturn, treat] at hgoes
  cases haction : info.action with
  | more =>
    rw [haction] at hgoes
    cases hgoes
    refine ⟨groups, kept ++ [⟨kind, info.action, s.rest.take length⟩], ?_⟩
    exact {
      taken := h.taken_next hrest hmatch
      kept_more := by
        intro p hp
        rcases List.mem_append.mp hp with hp | hp
        · exact h.kept_more p hp
        · rw [List.mem_singleton.mp hp, haction]
      position := h.position_next ⟨kind, info.action, s.rest.take length⟩
      buffer := by simp [consume, read, h.buffer]
      bufferStart := by simpa [consume, read] using h.first_eq
      listed := h.listed
      ended := h.ended }
  | skip =>
    rw [haction] at hgoes
    cases hgoes
    have hmore : info.action ≠ .more := by simp [haction]
    refine ⟨_, [], h.close hrest hmatch hmore ?_⟩
    rw [← h.listed]
    simp [PieceGroup.listed, closed, haction, consume, read]
  | special =>
    rw [haction] at hgoes
    cases hgoes
    have hmore : info.action ≠ .more := by simp [haction]
    refine ⟨_, [], h.close hrest hmatch hmore ?_⟩
    rw [← h.listed, PieceGroup.listed, h.lexeme_eq]
    simp [closed, haction, consume, read]
  | token =>
    rw [haction] at hgoes
    cases hgoes

/-- Where no beginning is kept, the groups are all that has been read. -/
lemma kept_eq_nil (h : Reads t text groups kept delivered s) (hstart : s.bufferStart = none) :
    kept = [] := by
  by_cases hkept : kept = []
  · exact hkept
  · have hsome := h.bufferStart
    rw [hstart, if_neg hkept] at hsome
    cases hsome

/-- **One turn that delivers a token**: it is the lexeme of a group, or the end of the text.

**Proof sketch.** By whether the text is at its end. There the token of the end is delivered, behind all
pieces; within the text, the piece that has been found ends the group of those kept before it. -/
lemma done (h : Reads t text groups kept delivered s) {token : Token}
    (hdone : s.turn t = .done (.token token) s') :
    (∃ groups', Reads t text groups' [] (delivered ++ [token]) s') ∨
      (s'.ended = true ∧ ∃ groups' mode, Taken t text (piecesOf groups') mode [] ∧
        (delivered ++ [token]).flatMap Token.listed =
          listing [] groups' ++ [(.token, endLexeme text)]) := by
  by_cases hrest : s.rest = []
  · rcases turn_at_end (t := t) h.ended hrest with ⟨p, -, hturn⟩ | hturn | ⟨hstart, s₁, hended, hturn⟩
    · cases hdone.symm.trans hturn
    · cases hdone.symm.trans hturn
    · cases hdone.symm.trans hturn
      obtain rfl := h.kept_eq_nil hstart
      have htaken := h.taken
      rw [hrest, List.append_nil] at htaken
      have htext : textOf (piecesOf groups) = text := by simpa using htaken.text_eq
      have hposition : s.position = Position.start.advanceAll text := by
        rw [h.position, List.append_nil, htext]
      refine .inr ⟨hended, groups, s.mode, htaken, ?_⟩
      rw [← h.listed]
      simp [Token.listed, endLexeme, hposition]
  rcases turn_in_text (t := t) h.ended hrest with ⟨e, n, hfail⟩ | ⟨kind, length, info, n, hmatch, hturn⟩
  · cases hdone.symm.trans (hfail 0)
  rw [hturn, treat] at hdone
  cases haction : info.action with
  | token =>
    rw [haction] at hdone
    cases hdone
    have hmore : info.action ≠ .more := by simp [haction]
    refine .inl ⟨_, h.close hrest hmatch hmore ?_⟩
    rw [← h.listed, PieceGroup.listed, h.lexeme_eq]
    simp [closed, haction, consume, read, Token.listed]
  | more | skip | special =>
    rw [haction] at hdone
    cases hdone

/-- A row of turns after which the call goes on. -/
lemma goes (h : Reads t text groups kept delivered s) (hgoes : ReflTransGen (Goes t) s s') :
    ∃ groups' kept', Reads t text groups' kept' delivered s' := by
  induction hgoes with
  | refl => exact ⟨groups, kept, h⟩
  | tail _ hturn ih =>
    obtain ⟨groups', kept', h'⟩ := ih
    exact h'.again hturn

end Reads

/-- After the end no tokens follow. -/
lemma tokensWithin_of_ended {count : Nat} {tokens : List Token} (hended : s.ended = true)
    (h : s.tokensWithin t count = some (.ok tokens)) : tokens = [] := by
  cases count with
  | zero => cases h
  | succ count =>
    rw [tokensWithin, next_of_turn (turn_of_ended hended)] at h
    cases h
    rfl

/-- **All tokens from here on**: together with those delivered before they are the lexemes of groups of
pieces, up to the end of the text.

**Proof sketch.** Induction on the number of calls, each of which is a row of turns. -/
lemma Reads.tokensWithin {count : Nat} {tokens : List Token}
    (h : Reads t text groups kept delivered s) (hall : s.tokensWithin t count = some (.ok tokens)) :
    ∃ groups' mode, Taken t text (piecesOf groups') mode [] ∧
      (delivered ++ tokens).flatMap Token.listed =
        listing [] groups' ++ [(.token, endLexeme text)] := by
  induction count generalizing s groups kept delivered tokens with
  | zero => cases hall
  | succ count ih =>
    rw [Scanner.tokensWithin] at hall
    rcases hnext : s.next t with _ | ⟨o, s'⟩
    · rw [hnext] at hall
      cases hall
    · rw [hnext] at hall
      obtain ⟨s₁, hgoes, hturn⟩ := nextWithin_eq_some hnext
      obtain ⟨groups₁, kept₁, h₁⟩ := h.goes hgoes
      cases o with
      | failed e => cases hall
      | finished =>
        exact absurd hturn (turn_ne_finished h₁.ended)
      | token token =>
        dsimp only at hall
        rcases hrest : s'.tokensWithin t count with _ | _ | tokens'
        · rw [hrest] at hall
          cases hall
        · rw [hrest] at hall
          cases hall
        · rw [hrest] at hall
          cases hall
          rcases h₁.done hturn with ⟨groups', h'⟩ | ⟨hended, hend⟩
          · simpa using ih h' hrest
          · obtain rfl := tokensWithin_of_ended hended hrest
            exact hend

/-- **Scanning loses, repeats and reorders no text.** Let a text be split into tokens. Then it is cut
into pieces, each of which is the longest match at its place, in the mode that the matches before it
lead to. The pieces form groups: some that are kept as a beginning, and one that is not. What is
delivered, with the special lexemes of a token before the token itself, are the groups that do not
end with a skipped piece, in the order of the text. Each lexeme has the text of its group as its
image, and begins and ends where this text does. Last comes the end of the input. If no kind is
skipped, the images are the whole text.

**Proof sketch.** What a scanner has read and delivered is an invariant of its turns. At the end of
the text no beginning is kept. -/
theorem tokenizeAll_listing {text : String} {tokens : List Token}
    (h : tokenizeAll t text = some (.ok tokens)) :
    ∃ groups mode, Taken t text.toList (piecesOf groups) mode [] ∧
      tokens.flatMap Token.listed = listing [] groups ++ [(.token, endLexeme text.toList)] ∧
      ((∀ info ∈ t.kinds, info.action ≠ .skip) →
        (tokens.flatMap Token.listed).flatMap (fun l => l.2.image.toList) = text.toList) := by
  obtain ⟨groups, mode, htaken, hlisted⟩ := (Reads.start t text).tokensWithin h
  refine ⟨groups, mode, htaken, hlisted, fun hskip => ?_⟩
  have hgroups : ∀ gr ∈ groups, gr.last.action ≠ .skip := by
    intro gr hgr
    have hlast : gr.last ∈ piecesOf groups :=
      List.mem_flatMap.mpr ⟨gr, hgr, List.mem_append_right _ (List.mem_singleton_self _)⟩
    obtain ⟨info, hinfo, haction⟩ := htaken.action hlast
    rw [haction]
    exact hskip info hinfo
  have htext : textOf (piecesOf groups) = text.toList := by simpa using htaken.text_eq
  rw [List.nil_append] at hlisted
  rw [hlisted, List.flatMap_append, images_listing [] hgroups, htext]
  simp [endLexeme]

/-- Names, blanks that are treated as `blank` says, remarks `#` that wait for the next token, and
dashes that are kept as the beginning of the next lexeme. -/
def dashTables (blank : TokenAction) : ScanTables where
  modes := #[{ states := #[{ moves := ({} : MoveTable).addChar 'é', kind := some 1 },
                           { moves := ({} : MoveTable).addChar ' ', kind := some 2 },
                           { moves := ({} : MoveTable).addChar '#', kind := some 3 },
                           { moves := ({} : MoveTable).addChar '-', kind := some 4 }]
               composites := #[[0, 1, 2, 3]]
               initial := some 4 }]
  kinds := #[{ label := "EOF" }, { label := "NAME" }, { label := "BLANK", action := blank },
             { label := "REMARK", action := .special }, { label := "DASH", action := .more }]

/-- Dashes that are skipped and dashes that are kept as specials: in both tables the pieces make up the
text, and without skipping the images do.

**Proof sketch.** Both tables give the tokens that are written out, and the theorem tells the rest. -/
theorem tokenizeAll_listing_dashes :
    (∃ tokens, tokenizeAll (dashTables .skip) "-é #- é" = some (.ok tokens) ∧
      ∃ groups mode, Taken (dashTables .skip) "-é #- é".toList (piecesOf groups) mode [] ∧
        tokens.flatMap Token.listed =
          listing [] groups ++ [(.token, endLexeme "-é #- é".toList)]) ∧
      ∃ tokens, tokenizeAll (dashTables .special) "-é #- é" = some (.ok tokens) ∧
        (∀ info ∈ (dashTables .special).kinds, info.action ≠ .skip) ∧
        (tokens.flatMap Token.listed).flatMap (fun l => l.2.image.toList) = "-é #- é".toList := by
  have hskip : tokenizeAll (dashTables .skip) "-é #- é" = some (.ok
      [⟨⟨1, "-é", ⟨⟨1, 1⟩, ⟨1, 3⟩⟩⟩, []⟩,
       ⟨⟨1, "é", ⟨⟨1, 7⟩, ⟨1, 8⟩⟩⟩, [⟨3, "#", ⟨⟨1, 4⟩, ⟨1, 5⟩⟩⟩]⟩,
       ⟨⟨0, "", ⟨⟨1, 8⟩, ⟨1, 8⟩⟩⟩, []⟩]) := by cbv
  have hspecial : tokenizeAll (dashTables .special) "-é #- é" = some (.ok
      [⟨⟨1, "-é", ⟨⟨1, 1⟩, ⟨1, 3⟩⟩⟩, []⟩,
       ⟨⟨1, "é", ⟨⟨1, 7⟩, ⟨1, 8⟩⟩⟩,
        [⟨2, " ", ⟨⟨1, 3⟩, ⟨1, 4⟩⟩⟩, ⟨3, "#", ⟨⟨1, 4⟩, ⟨1, 5⟩⟩⟩, ⟨2, "- ", ⟨⟨1, 5⟩, ⟨1, 7⟩⟩⟩]⟩,
       ⟨⟨0, "", ⟨⟨1, 8⟩, ⟨1, 8⟩⟩⟩, []⟩]) := by cbv
  have hkinds : ∀ info ∈ (dashTables .special).kinds, info.action ≠ .skip := by decide
  obtain ⟨groups, mode, htaken, hlisted, -⟩ := tokenizeAll_listing hskip
  obtain ⟨-, -, -, -, himages⟩ := tokenizeAll_listing hspecial
  exact ⟨⟨_, hskip, groups, mode, htaken, hlisted⟩, _, hspecial, hkinds, himages hkinds⟩

end Scanner

end GrammarForge
