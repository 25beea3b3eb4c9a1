import GrammarForge.Text.Escape
import GrammarForge.Proofs.CharSets
import Mathlib.Data.List.Flatten
import Mathlib.Data.String.Basic

set_option autoImplicit false

/-!
# Texts that are written alike

A character that is written by its code takes at least four digits, and nothing shows where the digits
end. Most characters whose codes have more digits are therefore written like the character whose code
lacks the last digit, followed by this digit. If the digits of such characters are taken off, as many as
may be, what is left can be read back from its written form.

## Main definitions

* `splitCode`, `splitChar` — a character with the digits of its code taken off.
* `Settled` — characters that stay as they are.

## Main results

* `escapeChar_append_inj` — of settled characters, the first one can be read off the written text.
* `escape_eq_escape_iff` — which texts are written alike.
-/

namespace GrammarForge

/-! ## Digits -/

/-- Hexadecimal digits stand for different numbers. -/
lemma digitChar_inj {m n : Nat} (hm : m < 16) (hn : n < 16) (h : m.digitChar = n.digitChar) : m = n := by
  have hall : ∀ i < 16, ∀ j < 16, i.digitChar = j.digitChar → i = j := by decide
  exact hall m hm n hn h

/-- One digit writes a number below sixteen. -/
lemma hexDigits_one {n : Nat} (hn : n < 16) : hexDigits 1 n = [n.digitChar] := by
  unfold hexDigits
  rw [Nat.toDigits_of_lt_base hn]
  rfl

/-- One digit more at the end is one digit more of width. -/
lemma hexDigits_succ {w : Nat} (hw : 0 < w) (n : Nat) :
    hexDigits (w + 1) n = hexDigits w (n / 16) ++ [(n % 16).digitChar] := by
  unfold hexDigits
  by_cases hn : n < 16
  · have hdiv : n / 16 = 0 := by omega
    have hmod : n % 16 = n := by omega
    obtain ⟨w, rfl⟩ := Nat.exists_eq_succ_of_ne_zero hw.ne'
    rw [Nat.toDigits_of_lt_base hn, hdiv, hmod, Nat.toDigits_of_lt_base (by decide)]
    simp [List.replicate_succ']
  · rw [Nat.toDigits_of_base_le (by decide) (Nat.not_lt.mp hn)]
    simp

/-- A width that the digits fill anyway adds nothing. -/
lemma hexDigits_of_le {w n : Nat} (hw : 0 < w) (h : 16 ^ w ≤ n) : hexDigits (w + 1) n = hexDigits w n := by
  have hlong : w < (Nat.toDigits 16 n).length := by
    by_contra hle
    have := (Nat.length_toDigits_le_iff (by decide) hw).mp (Nat.not_lt.mp hle)
    omega
  have hnone : w + 1 - (Nat.toDigits 16 n).length = 0 := by omega
  have hnone' : w - (Nat.toDigits 16 n).length = 0 := by omega
  simp only [hexDigits, hnone, hnone']

/-- Numbers that fit the width have as many digits.

**Proof sketch.** Induction on the width: the quotient by sixteen fits the width without the last digit.
-/
lemma length_hexDigits (w : Nat) : ∀ {n : Nat}, n < 16 ^ (w + 1) → (hexDigits (w + 1) n).length = w + 1 := by
  induction w with
  | zero =>
    intro n hn
    rw [hexDigits_one hn]
    rfl
  | succ w ih =>
    intro n hn
    have hlt : n / 16 < 16 ^ (w + 1) := by
      rw [Nat.pow_succ] at hn
      omega
    rw [hexDigits_succ (Nat.succ_pos w), List.length_append, ih hlt]
    rfl

/-- Numbers that fit the width are told apart by their digits.

**Proof sketch.** Induction on the width. The last digit is the remainder by sixteen, and the digits
before it write the quotient. -/
lemma hexDigits_inj (w : Nat) : ∀ {m n : Nat}, m < 16 ^ (w + 1) → n < 16 ^ (w + 1) →
    hexDigits (w + 1) m = hexDigits (w + 1) n → m = n := by
  induction w with
  | zero =>
    intro m n hm hn h
    rw [hexDigits_one hm, hexDigits_one hn] at h
    exact digitChar_inj hm hn (List.singleton_inj.mp h)
  | succ w ih =>
    intro m n hm hn h
    rw [Nat.pow_succ] at hm hn
    rw [hexDigits_succ (Nat.succ_pos w), hexDigits_succ (Nat.succ_pos w)] at h
    obtain ⟨hinit, hlast⟩ := List.append_inj' h rfl
    have hdiv : m / 16 = n / 16 := ih (by omega) (by omega) hinit
    have hmod : m % 16 = n % 16 := by
      apply digitChar_inj
      · omega
      · omega
      · exact List.singleton_inj.mp hlast
    omega

/-- Codes of four digits can be read off the text that begins with them. -/
lemma hexDigits_append_inj {m n : Nat} {x y : List Char} (hm : m < 0x10000) (hn : n < 0x10000)
    (h : hexDigits 4 m ++ x = hexDigits 4 n ++ y) : m = n ∧ x = y := by
  have hlength : (hexDigits 4 m).length = (hexDigits 4 n).length := by
    rw [length_hexDigits 3 hm, length_hexDigits 3 hn]
  obtain ⟨hdigits, hrest⟩ := List.append_inj h hlength
  exact ⟨hexDigits_inj 3 hm hn hdigits, hrest⟩

/-- A code of more than four digits is written like the code without the last digit, and this digit. -/
lemma hexDigits_split {n : Nat} (hn : 0x10000 ≤ n) :
    hexDigits 4 n = hexDigits 4 (n / 16) ++ [(n % 16).digitChar] := by
  have hwide : 16 ^ 3 ≤ n / 16 := by omega
  rw [hexDigits_succ (w := 3) (by decide), hexDigits_of_le (w := 3) (by decide) hwide]

/-! ## Written forms -/

/-- The characters that have a letter of their own, with the letter. -/
def lettered : List (Char × Char) :=
  [('\x08', 'b'), ('\t', 't'), ('\n', 'n'), ('\x0c', 'f'), ('\r', 'r'), ('"', '"'), ('\'', '\''),
    ('\\', '\\')]

/-- How a character can be written. -/
inductive Written (c : Char) : List Char → Prop
  | letter {l : Char} : (c, l) ∈ lettered → Written c ['\\', l]
  | code : Written c ('\\' :: 'u' :: hexDigits 4 c.toNat)
  | plain : c ≠ '\\' → Written c [c]

/-- How each character is written. -/
lemma written_escapeChar (c : Char) : Written c (escapeChar c) := by
  unfold escapeChar
  split_ifs with hb ht hn hf hr hquote hapostrophe hbackslash hcode
  · exact .letter (by simp [hb, lettered])
  · exact .letter (by simp [ht, lettered])
  · exact .letter (by simp [hn, lettered])
  · exact .letter (by simp [hf, lettered])
  · exact .letter (by simp [hr, lettered])
  · exact .letter (by simp [hquote, lettered])
  · exact .letter (by simp [hapostrophe, lettered])
  · exact .letter (by simp [hbackslash, lettered])
  · exact .code
  · exact .plain hbackslash

/-- Beyond the printable range a character is written by its code. -/
lemma escapeChar_of_lt {c : Char} (h : 0x7e < c.toNat) :
    escapeChar c = '\\' :: 'u' :: hexDigits 4 c.toNat := by
  have hne : ∀ d : Char, d.toNat ≤ 0x7e → c ≠ d := by
    rintro d hd rfl
    omega
  have hcode : (decide (c.toNat < 0x20) || decide (0x7e < c.toNat)) = true := by simp [h]
  unfold escapeChar
  rw [if_neg (hne _ (by decide)), if_neg (hne _ (by decide)), if_neg (hne _ (by decide)),
    if_neg (hne _ (by decide)), if_neg (hne _ (by decide)), if_neg (hne _ (by decide)),
    if_neg (hne _ (by decide)), if_neg (hne _ (by decide)), if_pos hcode]

/-- Digits are written as they are. -/
lemma escapeChar_digitChar {d : Nat} (hd : d < 16) : escapeChar d.digitChar = [d.digitChar] := by
  have hall : ∀ d < 16, escapeChar d.digitChar = [d.digitChar] := by decide
  exact hall d hd

/-! ## Settled characters -/

/-- **Characters that stay as they are**: the code has four digits, or what is left without the last one
is no character. -/
def Settled (c : Char) : Prop := ¬ (0x10000 ≤ c.toNat ∧ (c.toNat / 16).isValidChar)

/-- Characters of at most four digits are settled. -/
lemma settled_of_lt {c : Char} (h : c.toNat < 0x10000) : Settled c := by
  intro hlong
  omega

/-- **Settled characters are told apart by their codes**, whatever comes after them.

**Proof sketch.** Both have four digits, or more. If only one has four, it is the other one without the
last digit, which is no character. -/
lemma code_append_inj {c d : Char} {x y : List Char} (hc : Settled c) (hd : Settled d)
    (h : hexDigits 4 c.toNat ++ x = hexDigits 4 d.toNat ++ y) : c = d ∧ x = y := by
  have hcode : c.toNat = d.toNat ∧ x = y := by
    have hcv : c.toNat.isValidChar := c.valid
    have hdv : d.toNat.isValidChar := d.valid
    unfold Settled at hc hd
    by_cases hc4 : c.toNat < 0x10000 <;> by_cases hd4 : d.toNat < 0x10000
    · exact hexDigits_append_inj hc4 hd4 h
    · rw [hexDigits_split (Nat.not_lt.mp hd4), List.append_assoc] at h
      obtain ⟨heq, -⟩ := hexDigits_append_inj hc4 (by omega) h
      exact absurd ⟨Nat.not_lt.mp hd4, heq ▸ hcv⟩ hd
    · rw [hexDigits_split (Nat.not_lt.mp hc4), List.append_assoc] at h
      obtain ⟨heq, -⟩ := hexDigits_append_inj (by omega) hd4 h
      exact absurd ⟨Nat.not_lt.mp hc4, heq ▸ hdv⟩ hc
    · rw [hexDigits_split (Nat.not_lt.mp hc4), hexDigits_split (Nat.not_lt.mp hd4), List.append_assoc,
        List.append_assoc] at h
      obtain ⟨hdiv, hrest⟩ := hexDigits_append_inj (by omega) (by omega) h
      obtain ⟨hdigit, hxy⟩ := List.cons.inj hrest
      have hmod := digitChar_inj (Nat.mod_lt _ (by decide)) (Nat.mod_lt _ (by decide)) hdigit
      refine ⟨?_, hxy⟩
      omega
  exact ⟨Char.toNat_inj.mp hcode.1, hcode.2⟩

/-- **The first character can be read off the written text**, if it is settled.

**Proof sketch.** By how both are written. The character behind the backslash tells whether it is a
letter or a code; of a code the first four digits tell the number, if there are no more of them. -/
lemma escapeChar_append_inj {c d : Char} {x y : List Char} (hc : Settled c) (hd : Settled d)
    (h : escapeChar c ++ x = escapeChar d ++ y) : c = d ∧ x = y := by
  have hletters : ∀ m ∈ lettered, m.2 ≠ 'u' ∧ ∀ m' ∈ lettered, m.2 = m'.2 → m.1 = m'.1 := by decide
  have hwc := written_escapeChar c
  have hwd := written_escapeChar d
  generalize escapeChar c = a at hwc h
  generalize escapeChar d = b at hwd h
  cases hwc with
  | letter hl =>
    cases hwd with
    | letter hl' =>
      obtain ⟨-, h⟩ := List.cons.inj h
      obtain ⟨hsame, hxy⟩ := List.cons.inj h
      exact ⟨(hletters _ hl).2 _ hl' hsame, hxy⟩
    | code =>
      obtain ⟨-, h⟩ := List.cons.inj h
      exact absurd (List.cons.inj h).1 (hletters _ hl).1
    | plain hplain => exact absurd (List.cons.inj h).1.symm hplain
  | code =>
    cases hwd with
    | letter hl =>
      obtain ⟨-, h⟩ := List.cons.inj h
      exact absurd (List.cons.inj h).1.symm (hletters _ hl).1
    | code =>
      obtain ⟨-, h⟩ := List.cons.inj h
      obtain ⟨-, h⟩ := List.cons.inj h
      exact code_append_inj hc hd h
    | plain hplain => exact absurd (List.cons.inj h).1.symm hplain
  | plain hplain =>
    cases hwd with
    | letter hl => exact absurd (List.cons.inj h).1 hplain
    | code => exact absurd (List.cons.inj h).1 hplain
    | plain hplain' => exact List.cons.inj h

/-- **Texts of settled characters can be read back.**

**Proof sketch.** Induction on the text. A written character is not empty, so that a text without
characters is only written as such, and the first character can be read off. -/
lemma flatMap_escapeChar_inj (xs : List Char) : ∀ {ys : List Char}, (∀ c ∈ xs, Settled c) →
    (∀ d ∈ ys, Settled d) → xs.flatMap escapeChar = ys.flatMap escapeChar → xs = ys := by
  have hne : ∀ c, escapeChar c ≠ [] := by
    intro c hnil
    have hw := written_escapeChar c
    rw [hnil] at hw
    cases hw
  induction xs with
  | nil =>
    intro ys _ _ h
    cases ys with
    | nil => rfl
    | cons d ys => exact absurd (List.append_eq_nil_iff.mp h.symm).1 (hne d)
  | cons c xs ih =>
    intro ys hxs hys h
    cases ys with
    | nil => exact absurd (List.append_eq_nil_iff.mp h).1 (hne c)
    | cons d ys =>
      obtain ⟨hc, hxs'⟩ := List.forall_mem_cons.mp hxs
      obtain ⟨hd, hys'⟩ := List.forall_mem_cons.mp hys
      rw [List.flatMap_cons, List.flatMap_cons] at h
      obtain ⟨hcd, hrest⟩ := escapeChar_append_inj hc hd h
      rw [hcd, ih hxs' hys' hrest]

/-! ## Taking digits off -/

/-- The character with the code `n`, with digits taken off the code: each is one that the code has beyond
four, and what is left is the code of a character. -/
def splitCode (n : Nat) : List Char :=
  if 0x10000 ≤ n ∧ (n / 16).isValidChar then splitCode (n / 16) ++ [(n % 16).digitChar]
  else [Char.ofNat n]
termination_by n
decreasing_by omega

/-- A character with the digits of its code taken off. -/
def splitChar (c : Char) : List Char := splitCode c.toNat

/-- Taking digits off changes nothing in the written form.

**Proof sketch.** Along the digits that are taken off. A code of more than four digits is written as its
quotient by sixteen is, followed by its last digit. -/
lemma escape_splitCode {n : Nat} (hn : n.isValidChar) :
    (splitCode n).flatMap escapeChar = escapeChar (Char.ofNat n) := by
  fun_induction splitCode n with
  | case1 n hlong ih =>
    have hwhole : (Char.ofNat n).toNat = n := CharItem.toNat_ofNat hn
    have hrest : (Char.ofNat (n / 16)).toNat = n / 16 := CharItem.toNat_ofNat hlong.2
    have hcode : escapeChar (Char.ofNat n) = '\\' :: 'u' :: hexDigits 4 n := by
      rw [escapeChar_of_lt (by omega), hwhole]
    have hcode' : escapeChar (Char.ofNat (n / 16)) = '\\' :: 'u' :: hexDigits 4 (n / 16) := by
      rw [escapeChar_of_lt (by omega), hrest]
    rw [List.flatMap_append, ih hlong.2, hcode, hcode', hexDigits_split hlong.1,
      List.flatMap_singleton, escapeChar_digitChar (Nat.mod_lt n (by decide))]
    rfl
  | case2 n hshort => exact List.flatMap_singleton _ _

/-- What a code is split into is settled.

**Proof sketch.** Along the digits that are taken off: the last digit is a character of few digits, and
the rest is settled by induction. -/
lemma settled_splitCode {n : Nat} (hn : n.isValidChar) : ∀ c ∈ splitCode n, Settled c := by
  fun_induction splitCode n with
  | case1 n hlong ih =>
    intro c hc
    rcases List.mem_append.mp hc with hc | hc
    · exact ih hlong.2 c hc
    · have hall : ∀ d < 16, d.digitChar.toNat < 0x10000 := by decide
      rw [List.mem_singleton.mp hc]
      exact settled_of_lt (hall _ (Nat.mod_lt n (by decide)))
  | case2 n hshort =>
    intro c hc
    unfold Settled
    rwa [List.mem_singleton.mp hc, CharItem.toNat_ofNat hn]

/-- A settled character is not split. -/
lemma splitChar_of_settled {c : Char} (hc : Settled c) : splitChar c = [c] := by
  unfold Settled at hc
  rw [splitChar, splitCode, if_neg hc, Char.ofNat_toNat]

/-- A text is written like the text with all digits taken off. -/
lemma flatMap_escapeChar_splitChar (xs : List Char) :
    (xs.flatMap splitChar).flatMap escapeChar = xs.flatMap escapeChar := by
  rw [List.flatMap_assoc]
  refine List.flatMap_congr fun c _ => ?_
  have hc : c.toNat.isValidChar := c.valid
  rw [splitChar, escape_splitCode hc, Char.ofNat_toNat]

/-- Texts that are split are settled. -/
lemma settled_flatMap_splitChar (xs : List Char) : ∀ c ∈ xs.flatMap splitChar, Settled c := by
  intro c hc
  obtain ⟨d, -, hd⟩ := List.mem_flatMap.mp hc
  exact settled_splitCode d.valid c hd

/-- A settled text is not split. -/
lemma flatMap_splitChar_of_settled {xs : List Char} (h : ∀ c ∈ xs, Settled c) :
    xs.flatMap splitChar = xs := by
  have hone : xs.flatMap splitChar = xs.flatMap fun c => [c] :=
    List.flatMap_congr fun c hc => splitChar_of_settled (h c hc)
  rw [hone, List.flatMap_singleton']

/-- **Which texts are written alike**: those that are the same with all digits taken off. So texts whose
characters have codes of four digits are never written alike, unless they are the same.

**Proof sketch.** Both texts are written as their splits are, whose characters are settled and can be
read back. Texts of characters with at most four digits are their own splits. -/
theorem escape_eq_escape_iff (s t : String) :
    (escape s = escape t ↔ s.toList.flatMap splitChar = t.toList.flatMap splitChar) ∧
      ((∀ c ∈ s.toList ++ t.toList, c.toNat < 0x10000) → s ≠ t → escape s ≠ escape t) := by
  have hiff : escape s = escape t ↔ s.toList.flatMap splitChar = t.toList.flatMap splitChar := by
    rw [escape, escape, String.ofList_inj, ← flatMap_escapeChar_splitChar s.toList,
      ← flatMap_escapeChar_splitChar t.toList]
    constructor
    · exact flatMap_escapeChar_inj _ (settled_flatMap_splitChar _) (settled_flatMap_splitChar _)
    · exact congrArg (List.flatMap escapeChar)
  refine ⟨hiff, fun hshort hne heq => hne ?_⟩
  have hsettled : ∀ c ∈ s.toList ++ t.toList, Settled c := fun c hc => settled_of_lt (hshort c hc)
  have hlists := hiff.mp heq
  rw [flatMap_splitChar_of_settled fun c hc => hsettled c (List.mem_append_left _ hc),
    flatMap_splitChar_of_settled fun c hc => hsettled c (List.mem_append_right _ hc)] at hlists
  exact String.toList_inj.mp hlists

/-- A Greek letter and a digit, or another digit. -/
theorem escape_eq_escape_iff_greek :
    (∀ c ∈ "ὠ0".toList ++ "ὠ1".toList, c.toNat < 0x10000) ∧ "ὠ0" ≠ "ὠ1" ∧
      (escape "ὠ0" = escape "ὠ1" ↔ "ὠ0".toList.flatMap splitChar = "ὠ1".toList.flatMap splitChar) ∧
      escape "ὠ0" ≠ escape "ὠ1" := by
  have hshort : ∀ c ∈ "ὠ0".toList ++ "ὠ1".toList, c.toNat < 0x10000 := by simp
  have hne : "ὠ0" ≠ "ὠ1" := by decide
  exact ⟨hshort, hne, (escape_eq_escape_iff _ _).1, (escape_eq_escape_iff _ _).2 hshort hne⟩

/-- **Two texts that are written alike**: a face, and a Greek letter with a digit. -/
theorem escape_alike : ¬ ∀ s t : String, escape s = escape t → s = t := by
  intro h
  have halike : escape "😀" = escape "ὠ0" := by decide +kernel
  exact absurd (h _ _ halike) (by decide)

end GrammarForge
