set_option autoImplicit false

/-!
# Maps in insertion order

A finite map that remembers in which order its keys were first inserted. Giving a key a new
value keeps its place.

## Main definitions

* `OrderedMap.insert` — sets the value of a key.
* `OrderedMap.get?` — the value of a key.

## Main results

* `OrderedMap.get?_insert` — reading a map after an insertion.
* `OrderedMap.nodup_keys_insert` — every key has one entry.
-/

namespace GrammarForge

/-- Keys with their values, in the order of first insertion. -/
structure OrderedMap (κ ν : Type) where
  entries : List (κ × ν) := []
deriving DecidableEq, Repr

namespace OrderedMap

variable {κ ν : Type} [DecidableEq κ]

instance : Inhabited (OrderedMap κ ν) := ⟨⟨[]⟩⟩

/-- Sets the value of `k` in a list of entries; a new key goes to the end. -/
def insertEntry (k : κ) (v : ν) : List (κ × ν) → List (κ × ν)
  | [] => [(k, v)]
  | (k', v') :: rest => if k' = k then (k, v) :: rest else (k', v') :: insertEntry k v rest

/-- The value of `k`. -/
def get? (m : OrderedMap κ ν) (k : κ) : Option ν := m.entries.lookup k

/-- Whether `k` has a value. -/
def contains (m : OrderedMap κ ν) (k : κ) : Bool := (m.get? k).isSome

/-- Gives `k` the value `v`. -/
def insert (m : OrderedMap κ ν) (k : κ) (v : ν) : OrderedMap κ ν :=
  ⟨insertEntry k v m.entries⟩

/-- What is found after an insertion: the new value at its key, and elsewhere what was found before.

**Proof sketch.** Induction on the entries. The new value goes to the first entry with its key, or
behind the last entry; all entries before have other keys, so that a look-up passes them. -/
theorem lookup_insertEntry (k k' : κ) (v : ν) (es : List (κ × ν)) :
    (insertEntry k v es).lookup k' = if k' = k then some v else es.lookup k' := by
  have beq_false {a b : κ} (h : a ≠ b) : (a == b) = false := by simpa using h
  induction es with
  | nil =>
    by_cases h : k' = k
    · simp [insertEntry, h]
    · simp [insertEntry, List.lookup_cons, h, beq_false h]
  | cons e es ih =>
    obtain ⟨k₀, v₀⟩ := e
    by_cases h₀ : k₀ = k
    · subst h₀
      by_cases h : k' = k₀
      · simp [insertEntry, h]
      · simp [insertEntry, List.lookup_cons, h, beq_false h]
    · by_cases h : k' = k₀
      · subst h
        simp [insertEntry, h₀]
      · simp [insertEntry, List.lookup_cons, h₀, beq_false h, ih]

/-- Reading a map after an insertion. -/
theorem get?_insert (m : OrderedMap κ ν) (k k' : κ) (v : ν) :
    (m.insert k v).get? k' = if k' = k then some v else m.get? k' :=
  lookup_insertEntry k k' v m.entries

/-- What a key has after an insertion is the new value or the value that it had. -/
theorem get?_insert_eq_some {m : OrderedMap κ ν} {k k' : κ} {v v' : ν} :
    (m.insert k v).get? k' = some v' ↔ k' = k ∧ v' = v ∨ k' ≠ k ∧ m.get? k' = some v' := by
  rw [get?_insert]
  by_cases h : k' = k
  · simp [h, eq_comm]
  · simp [h]

/-- An insertion adds no other key than its own.

**Proof sketch.** Induction on the entries; the entry with the key keeps its place, and all others keep
their keys. -/
theorem mem_keys_insertEntry {k k' : κ} {v : ν} {es : List (κ × ν)}
    (h : k' ∈ (insertEntry k v es).map Prod.fst) : k' = k ∨ k' ∈ es.map Prod.fst := by
  induction es with
  | nil => exact .inl (by simpa [insertEntry] using h)
  | cons e es ih =>
    obtain ⟨k₀, v₀⟩ := e
    by_cases h₀ : k₀ = k
    · subst h₀
      exact .inr (by simpa [insertEntry] using h)
    · rw [insertEntry, if_neg h₀, List.map_cons, List.mem_cons] at h
      rcases h with rfl | h
      · exact .inr (by simp)
      · rcases ih h with h | h
        · exact .inl h
        · exact .inr (List.mem_cons_of_mem _ h)

/-- An insertion keeps the keys distinct.

**Proof sketch.** Induction on the entries. Where the first entry is kept, its key is neither the new
one nor one of those behind it. -/
theorem nodup_keys_insertEntry (k : κ) (v : ν) {es : List (κ × ν)} (h : (es.map Prod.fst).Nodup) :
    ((insertEntry k v es).map Prod.fst).Nodup := by
  induction es with
  | nil => simp [insertEntry]
  | cons e es ih =>
    obtain ⟨k₀, v₀⟩ := e
    rw [List.map_cons, List.nodup_cons] at h
    by_cases h₀ : k₀ = k
    · subst h₀
      simpa [insertEntry] using h
    · rw [insertEntry, if_neg h₀, List.map_cons, List.nodup_cons]
      refine ⟨fun hmem => ?_, ih h.2⟩
      rcases mem_keys_insertEntry hmem with rfl | hmem
      · exact h₀ rfl
      · exact h.1 hmem

/-- **Every key has one entry**, also after an insertion. -/
theorem nodup_keys_insert (m : OrderedMap κ ν) (k : κ) (v : ν)
    (h : (m.entries.map Prod.fst).Nodup) : ((m.insert k v).entries.map Prod.fst).Nodup :=
  nodup_keys_insertEntry k v h

/-- The value of a key is that of its entry.

**Proof sketch.** Induction on the entries. If the first one has the key, no later one does, since the
keys are distinct; else neither the look-up nor membership concerns it. -/
theorem get?_eq_some_iff {m : OrderedMap κ ν} (h : (m.entries.map Prod.fst).Nodup) {k : κ} {v : ν} :
    m.get? k = some v ↔ (k, v) ∈ m.entries := by
  unfold get?
  generalize m.entries = es at h
  induction es with
  | nil => simp
  | cons e es ih =>
    obtain ⟨k₀, v₀⟩ := e
    rw [List.map_cons, List.nodup_cons] at h
    by_cases hk : k = k₀
    · subst hk
      have hnot : (k, v) ∉ es := fun hmem => h.1 (List.mem_map.mpr ⟨(k, v), hmem, rfl⟩)
      simp [hnot, eq_comm]
    · have hbeq : (k == k₀) = false := by simpa using hk
      simp [List.lookup_cons, hbeq, hk, ih h.2]

end OrderedMap

end GrammarForge
