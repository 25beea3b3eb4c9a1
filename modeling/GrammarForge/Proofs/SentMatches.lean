import GrammarForge.Lookahead.Engine
import GrammarForge.Proofs.Openings

set_option autoImplicit false

/-!
# Matches sent through parts of a grammar

FIRST and FOLLOW send matches through parts of a grammar: each match is followed by what can be read
there, and what reaches the limit is set aside. This is how such steps are put together.

## Main definitions

* `PartialMatch.after` — a match with more tokens.
* `Carries` — matches are followed by what can be read on a way, and set aside at the limit.
* `Carried` — a walk does so, and changes nothing else.
* `Sends`, `Sent` — the same for the words of a language alone, which are cut at the limit.

## Main results

* `Carries.mul`, `Carries.add`, `Carries.plus` — products, sums and repetitions of ways.
* `Carried.forEach`, `Carried.repeated`, `Carried.expanding` — the parts that walks are made of.
-/

namespace GrammarForge

open Computability

/-- A match with more tokens. -/
def PartialMatch.after (m : PartialMatch) (w : TokenSeq) : PartialMatch :=
  ⟨m.tokens ++ w, m.grown || !w.isEmpty⟩

/-- The sequence of a match after a word. -/
@[simp]
lemma PartialMatch.after_tokens (m : PartialMatch) (w : TokenSeq) :
    (m.after w).tokens = m.tokens ++ w := rfl

/-- Nothing is added to a match by the empty word. -/
lemma PartialMatch.after_nil (m : PartialMatch) : m.after [] = m := by
  simp [after]

/-- Words are added one after the other. -/
lemma PartialMatch.after_append (m : PartialMatch) (v w : TokenSeq) :
    m.after (v ++ w) = (m.after v).after w := by
  cases v <;> simp [after]

/-- Adding a token is adding a word of one token. -/
lemma PartialMatch.extend_eq_after (m : PartialMatch) (k : Nat) : m.extend k = m.after [k] := by
  simp [after, extend]

/-- Matches shorter than a limit. -/
def Short (limit : Nat) (ms : List PartialMatch) : Prop := ∀ m ∈ ms, m.tokens.length < limit

/-- **Matches are carried along a way**: followed by the words of whole ways, the short ones come out,
and those that reach the limit, on whole ways or on ways that stop, are set aside. -/
structure Carries (limit : Nat) (R : Reading) (ms out : List PartialMatch) (aside : List TokenSeq) :
    Prop where
  mem_out : ∀ x, x ∈ out ↔
    ∃ m ∈ ms, ∃ w ∈ R.whole, x = m.after w ∧ (m.tokens ++ w).length < limit
  mem_aside : ∀ t, t ∈ aside ↔ ∃ m ∈ ms, ∃ w ∈ R.begun, t = m.tokens ++ w ∧ t.length = limit

namespace Carries

variable {limit : Nat} {R S : Reading} {ms mid out out' : List PartialMatch}
  {aside aside' : List TokenSeq}

/-- What comes out is short. -/
lemma short (h : Carries limit R ms out aside) : Short limit out := by
  intro x hx
  obtain ⟨m, -, w, -, rfl, hlt⟩ := (h.mem_out x).mp hx
  exact hlt

/-- Without matches nothing is carried along. -/
lemma nil (limit : Nat) (R : Reading) : Carries limit R [] [] [] := by
  constructor <;> simp

/-- On no way nothing is carried along. -/
lemma zero (limit : Nat) (ms : List PartialMatch) : Carries limit 0 ms [] [] := by
  constructor <;> simp

/-- A way on which nothing is read changes nothing. -/
lemma one (h : Short limit ms) : Carries limit 1 ms ms [] := by
  refine ⟨fun x => ?_, by simp⟩
  simp only [Reading.mem_whole_one, exists_eq_left, PartialMatch.after_nil, List.append_nil]
  constructor
  · exact fun hx => ⟨x, hx, rfl, h x hx⟩
  · rintro ⟨m, hm, rfl, -⟩
    exact hm

/-- One way or the other. -/
lemma add (h : Carries limit R ms out aside) (h' : Carries limit S ms out' aside') :
    Carries limit (R + S) ms (out ++ out') (aside ++ aside') := by
  constructor
  · intro x
    rw [List.mem_append, h.mem_out, h'.mem_out]
    simp only [Reading.mem_whole_add, or_and_right, exists_or, and_or_left]
  · intro t
    rw [List.mem_append, h.mem_aside, h'.mem_aside]
    simp only [Reading.mem_begun_add, or_and_right, exists_or, and_or_left]

/-- **One way after the other.** What reaches the limit on the first is not sent on.

**Proof sketch.** A match that comes out has come out of the first way and gone the second one; so its
word is one of each. One that is set aside has reached the limit on the first way, or on the second one.
-/
lemma mul (h : Carries limit R ms mid aside) (h' : Carries limit S mid out aside') :
    Carries limit (R * S) ms out (aside ++ aside') := by
  constructor
  · intro x
    rw [h'.mem_out]
    constructor
    · rintro ⟨m', hm', v, hv, rfl, hlt⟩
      obtain ⟨m, hm, u, hu, rfl, -⟩ := (h.mem_out m').mp hm'
      rw [PartialMatch.after_tokens, List.append_assoc] at hlt
      exact ⟨m, hm, u ++ v, Language.append_mem_mul hu hv, (m.after_append u v).symm, hlt⟩
    · rintro ⟨m, hm, w, hw, rfl, hlt⟩
      obtain ⟨u, hu, v, hv, rfl⟩ := Reading.mem_whole_mul.mp hw
      rw [← List.append_assoc] at hlt
      have hshort : (m.tokens ++ u).length < limit := by
        rw [List.length_append] at hlt
        omega
      exact ⟨m.after u, (h.mem_out _).mpr ⟨m, hm, u, hu, rfl, hshort⟩, v, hv, m.after_append u v, hlt⟩
  · intro t
    rw [List.mem_append, h.mem_aside, h'.mem_aside]
    constructor
    · rintro (⟨m, hm, u, hu, rfl, hlen⟩ | ⟨m', hm', v, hv, rfl, hlen⟩)
      · exact ⟨m, hm, u, Or.inl hu, rfl, hlen⟩
      · obtain ⟨m, hm, u, hu, rfl, -⟩ := (h.mem_out m').mp hm'
        rw [PartialMatch.after_tokens, List.append_assoc] at hlen ⊢
        exact ⟨m, hm, u ++ v, Or.inr (Language.append_mem_mul hu hv), rfl, hlen⟩
    · rintro ⟨m, hm, w, hw, rfl, hlen⟩
      rcases Reading.mem_begun_mul.mp hw with hw | ⟨u, hu, v, hv, rfl⟩
      · exact Or.inl ⟨m, hm, w, hw, rfl, hlen⟩
      · -- something is read on the second way, so the match was short after the first
        have hpos := List.length_pos_iff.mpr (Reading.ne_nil_of_mem_begun hv)
        rw [← List.append_assoc] at hlen ⊢
        have hshort : (m.tokens ++ u).length < limit := by
          rw [List.length_append] at hlen
          omega
        exact Or.inr ⟨m.after u, (h.mem_out _).mpr ⟨m, hm, u, hu, rfl, hshort⟩, v, hv, rfl, hlen⟩

/-- **One pass more than the limit is enough** for all repetitions.

**Proof sketch.** Below the limit a word has fewer passes than the limit, since each pass reads at least
one token or may be left out. -/
lemma plus (h : Carries limit (R.rounds (limit + 1)) ms out aside) :
    Carries limit R.plus ms out aside := by
  constructor
  · intro x
    rw [h.mem_out]
    refine exists_congr fun m => and_congr_right fun _ => exists_congr fun w => ?_
    rw [and_congr_left_iff]
    rintro ⟨-, hlt⟩
    rw [List.length_append] at hlt
    exact (Reading.mem_rounds_of_length_le (by omega)).1.symm
  · intro t
    rw [h.mem_aside]
    refine exists_congr fun m => and_congr_right fun _ => exists_congr fun w => ?_
    rw [and_congr_left_iff]
    rintro ⟨rfl, hlen⟩
    rw [List.length_append] at hlen
    exact (Reading.mem_rounds_of_length_le (by omega)).2.symm

end Carries

/-! ## Walks -/

namespace Engine

/-- One walk after another. -/
lemma bind_eq {α β : Type} {x : Walk α} {f : α → Walk β} {a : α} {e e' : Engine}
    (h : x e = some (a, e')) : (x >>= f) e = f a e' := by
  show (x e).bind _ = _
  rw [h]
  rfl

/-- An engine with more matches set aside. -/
def withAside (e : Engine) (ts : List TokenSeq) : Engine :=
  { e with limited := e.limited ++ ts.toArray }

/-- Setting nothing aside changes nothing. -/
@[simp]
lemma withAside_nil (e : Engine) : e.withAside [] = e := by
  simp [withAside]

/-- Setting aside twice is setting both aside. -/
lemma withAside_withAside (e : Engine) (ts us : List TokenSeq) :
    (e.withAside ts).withAside us = e.withAside (ts ++ us) := by
  simp [withAside]

/-- Adding a token to all matches: the short ones come out, and the others are set aside. -/
lemma extendAll_eq (k : Nat) (ms : List PartialMatch) (e : Engine) : extendAll k ms e =
    some ((ms.map (·.extend k)).filter (fun m => m.tokens.length < e.limit),
      e.withAside (((ms.map (·.extend k)).filter fun m => !decide (m.tokens.length < e.limit)).map
        PartialMatch.tokens)) := by
  simp only [extendAll, List.partition_eq_filter_filter, withAside]
  rfl

/-- Expanding a production: it is noted, and the note is taken back in the end. -/
lemma expanding_eq (p : Nat) (ms : List PartialMatch) (x : Walk (List PartialMatch)) (e : Engine) :
    expanding p ms x e =
      if e.active.contains (p, sortedSet compare (ms.map PartialMatch.tokens)) then some ([], e)
      else
        (x { e with active := (p, sortedSet compare (ms.map PartialMatch.tokens)) :: e.active }).bind
          fun r => some (r.1, { r.2 with active := r.2.active.tail }) := by
  show (if e.active.contains (p, sortedSet compare (ms.map PartialMatch.tokens)) then _ else _ :
    Walk (List PartialMatch)) e = _
  split_ifs <;> rfl

end Engine

open Engine

/-- **A walk carries matches along a way**, if FIRST is expanding the productions of `active`. It sets
matches aside in addition to those of `done`, and changes nothing else. -/
def Carried (limit : Nat) (semantic : Bool) (active : List (Nat × List TokenSeq))
    (done : List TokenSeq) (x : Walk (List PartialMatch)) (R : Reading) (ms : List PartialMatch) :
    Prop :=
  ∀ e : Engine, e.limit = limit → e.considerSemantic = semantic → e.active = active →
    ∃ out aside, x e = some (out, e.withAside aside) ∧ Carries limit R ms out (done ++ aside)

namespace Carried

variable {limit : Nat} {semantic : Bool} {active : List (Nat × List TokenSeq)} {done : List TokenSeq}
  {x : Walk (List PartialMatch)} {R S : Reading} {ms mid : List PartialMatch}

/-- A walk that does nothing more. -/
lemma pure {out : List PartialMatch} (h : Carries limit R ms out done) :
    Carried limit semantic active done (pure out) R ms := by
  intro e _ _ _
  refine ⟨out, [], ?_, by rwa [List.append_nil]⟩
  rw [withAside_nil]
  rfl

/-- One walk after another. -/
lemma bind {f : List PartialMatch → Walk (List PartialMatch)}
    (hx : Carried limit semantic active [] x S mid) (hf : ∀ out aside, Carries limit S mid out aside →
      Carried limit semantic active (done ++ aside) (f out) R ms) :
    Carried limit semantic active done (x >>= f) R ms := by
  intro e hlimit hsem hactive
  obtain ⟨out, aside, hx, hcarries⟩ := hx e hlimit hsem hactive
  obtain ⟨out', aside', hf, hcarries'⟩ :=
    hf out aside hcarries (e.withAside aside) hlimit hsem hactive
  refine ⟨out', aside ++ aside', ?_, ?_⟩
  · rw [bind_eq hx, hf, withAside_withAside]
  · rwa [← List.append_assoc]

/-- The number of passes is one more than the limit. -/
lemma passes {f : Nat → Walk (List PartialMatch)}
    (h : Carried limit semantic active done (f (limit + 1)) R ms) :
    Carried limit semantic active done (passes >>= f) R ms := by
  intro e hlimit hsem hactive
  obtain ⟨out, aside, hf, hcarries⟩ := h e hlimit hsem hactive
  have hpasses : Engine.passes e = some (e.limit + 1, e) := rfl
  refine ⟨out, aside, ?_, hcarries⟩
  rw [bind_eq hpasses, hlimit, hf]

/-- As many passes as the limit has tokens and one more are enough for all repetitions. -/
lemma plus (h : Carried limit semantic active [] x (R.rounds (limit + 1)) ms) :
    Carried limit semantic active [] x R.plus ms := by
  intro e hlimit hsem hactive
  obtain ⟨out, aside, hx, hcarries⟩ := h e hlimit hsem hactive
  exact ⟨out, aside, hx, hcarries.plus⟩

/-- **Several nodes with the same matches.** -/
lemma forEach {visit : NodeId → Walk (List PartialMatch)} {reading : NodeId → Reading}
    (ids : List NodeId)
    (h : ∀ i ∈ ids, Carried limit semantic active [] (visit i) (reading i) ms) :
    Carried limit semantic active [] (forEach visit ids) (ids.map reading).sum ms := by
  induction ids with
  | nil => exact pure (Carries.zero limit ms)
  | cons i ids ih =>
    refine bind (h i List.mem_cons_self) fun out aside hout => ?_
    refine bind (ih fun j hj => h j (List.mem_cons_of_mem i hj)) fun rest aside' hrest => ?_
    exact pure (hout.add hrest)

/-- **Repeated passes through a body.** Between two passes the property `ok` of matches is kept.

**Proof sketch.** Induction on the passes. If nothing has passed, there are no further ones; otherwise
the next passes go on with what has. -/
lemma repeated {visit : List PartialMatch → Walk (List PartialMatch)}
    (ok : List PartialMatch → Prop)
    (hvisit : ∀ ms, ok ms → Carried limit semantic active [] (visit ms) R ms)
    (hok : ∀ {ms mid aside}, ok ms → Carries limit R ms mid aside → mid ≠ [] → ok mid) (n : Nat) :
    ∀ {ms : List PartialMatch}, ok ms →
      Carried limit semantic active [] (repeated visit n ms) (R.rounds n) ms := by
  induction n with
  | zero => exact fun _ => pure (Carries.zero limit _)
  | succ n ih =>
    intro ms hms
    refine bind (hvisit ms hms) fun mid aside hmid => ?_
    cases mid with
    | nil =>
      have hcarries := hmid.mul (Carries.nil limit (1 + R.rounds n))
      rw [List.append_nil] at hcarries
      exact pure hcarries
    | cons m mid =>
      refine bind (ih (hok hms hmid (List.cons_ne_nil m mid))) fun later aside' hlater => ?_
      exact pure (hmid.mul ((Carries.one hmid.short).add hlater))

/-- **Expanding a production** that is not being expanded with the same matches. -/
lemma expanding {p : Nat} (hx : Carried limit semantic
      ((p, sortedSet compare (ms.map PartialMatch.tokens)) :: active) [] x R ms)
    (hnew : (p, sortedSet compare (ms.map PartialMatch.tokens)) ∉ active) :
    Carried limit semantic active [] (expanding p ms x) R ms := by
  intro e hlimit hsem hactive
  set key := (p, sortedSet compare (ms.map PartialMatch.tokens)) with hkey
  obtain ⟨out, aside, hx, hcarries⟩ := hx { e with active := key :: e.active } hlimit hsem
    (congrArg (key :: ·) hactive)
  refine ⟨out, aside, ?_, hcarries⟩
  have hcontains : e.active.contains key = false := by
    rw [hactive]
    simpa using hnew
  rw [expanding_eq, ← hkey, hcontains, hx]
  rfl

end Carried

/-! ## Words that are cut at the limit -/

/-- **Matches are sent through a language**: of the matches followed by a word, the short ones come
out, and the others are cut at the limit and set aside. -/
structure Sends (limit : Nat) (L : Language Nat) (ms out : List PartialMatch)
    (aside : List TokenSeq) : Prop where
  mem_out : ∀ x, x ∈ out ↔ ∃ m ∈ ms, ∃ w ∈ L, x = m.after w ∧ (m.tokens ++ w).length < limit
  mem_aside : ∀ t, t ∈ aside ↔
    ∃ m ∈ ms, ∃ w ∈ L, limit ≤ (m.tokens ++ w).length ∧ t = (m.tokens ++ w).take limit

/-- **A walk sends matches through a language**, if FIRST is expanding the productions of `active`
and conditions at run time are not considered. It sets matches aside in addition to those of
`done`, and changes nothing else. -/
def Sent (limit : Nat) (active : List (Nat × List TokenSeq)) (done : List TokenSeq)
    (x : Walk (List PartialMatch)) (L : Language Nat) (ms : List PartialMatch) : Prop :=
  ∀ e : Engine, e.limit = limit → e.considerSemantic = false → e.active = active →
    ∃ out aside, x e = some (out, e.withAside aside) ∧ Sends limit L ms out (done ++ aside)

end GrammarForge
