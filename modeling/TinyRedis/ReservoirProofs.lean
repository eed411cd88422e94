import Mathlib

/-! # Reservoir sampling

    One pass over a stream keeps at most `count` of its elements.  The first ones
    fill the slots in order; for each later one a number is drawn, and the element
    overwrites the slot that the number names, or is let go when it names none.

    Nothing is assumed of the numbers.  What keeps the slots distinct is the
    stream: an element that is met for the first time is in no slot, so it can
    overwrite any of them.  `Sample` is what holds after every element, and
    `sample_pass` what holds at the end. -/

namespace Reservoir

variable {α : Type}

/-- The `i`-th element of the stream, with the number `j` drawn for it. -/
def put (count i j : Nat) (a : α) (slots : List α) : List α :=
  if i < count then slots ++ [a] else if j < count then slots.set j a else slots

/-- The pass, from the `i`-th element on; `draw k` is drawn for the `k`-th. -/
def pass (count : Nat) (draw : Nat → Nat) : Nat → List α → List α → List α
  | _, [], slots => slots
  | i, a :: rest, slots => pass count draw (i + 1) rest (put count i (draw i) a slots)

/-- **The slots after a part of the stream**: distinct elements of it, as many as
    there is room for. -/
structure Sample (count : Nat) (seen slots : List α) : Prop where
  distinct : slots.Nodup
  subset : slots ⊆ seen
  length : slots.length = min count seen.length

theorem sample_nil (count : Nat) : Sample count ([] : List α) [] :=
  ⟨List.nodup_nil, List.nil_subset _, (Nat.min_zero count).symm⟩

/-- With room for all of it, the stream is its own sample. -/
theorem sample_self {count : Nat} {stream : List α} (h : stream.Nodup)
    (hroom : stream.length ≤ count) : Sample count stream stream :=
  ⟨h, List.Subset.refl _, (Nat.min_eq_right hroom).symm⟩

namespace Sample

variable {count : Nat} {seen slots : List α} {a : α}

/-- There is a free slot. -/
theorem fill (h : Sample count seen slots) (hnew : a ∉ seen) (hroom : seen.length < count) :
    Sample count (seen ++ [a]) (slots ++ [a]) := by
  have hfree : a ∉ slots := fun hmem => hnew (h.subset hmem)
  have hlen := h.length
  refine ⟨?_, ?_, ?_⟩
  · exact List.nodup_append.mpr ⟨h.distinct, List.nodup_singleton a, by
      rintro b hb c hc rfl
      exact hfree (List.mem_singleton.mp hc ▸ hb)⟩
  · exact List.append_subset.mpr ⟨List.subset_append_of_subset_left _ h.subset,
      List.subset_append_right _ _⟩
  · simp only [List.length_append, List.length_singleton]
    omega

/-- The element is let go. -/
theorem skip (h : Sample count seen slots) (hfull : count ≤ seen.length) :
    Sample count (seen ++ [a]) slots := by
  have hlen := h.length
  refine ⟨h.distinct, List.subset_append_of_subset_left _ h.subset, ?_⟩
  rw [List.length_append, List.length_singleton]
  omega

/-- The element overwrites a slot. -/
theorem overwrite (h : Sample count seen slots) (hnew : a ∉ seen) (hfull : count ≤ seen.length)
    (j : Nat) : Sample count (seen ++ [a]) (slots.set j a) := by
  have hfree : a ∉ slots := fun hmem => hnew (h.subset hmem)
  obtain ⟨-, hsubset, hlen⟩ := h.skip (a := a) hfull
  refine ⟨h.distinct.set hfree, ?_, (List.length_set).trans hlen⟩
  intro b hb
  rcases List.mem_or_eq_of_mem_set hb with hin | rfl
  · exact hsubset hin
  · exact List.mem_append_right _ (List.mem_singleton_self b)

/-- **One element**, whatever is drawn for it. -/
theorem put (h : Sample count seen slots) (hnew : a ∉ seen) (j : Nat) :
    Sample count (seen ++ [a]) (put count seen.length j a slots) := by
  rw [Reservoir.put]
  by_cases hroom : seen.length < count
  · rw [if_pos hroom]
    exact h.fill hnew hroom
  · rw [if_neg hroom]
    have hfull : count ≤ seen.length := Nat.le_of_not_lt hroom
    by_cases hj : j < count
    · rw [if_pos hj]
      exact h.overwrite hnew hfull j
    · rw [if_neg hj]
      exact h.skip hfull

/-- **The rest of the stream**, whatever is drawn. -/
theorem pass (draw : Nat → Nat) {rest : List α} (h : Sample count seen slots)
    (hstream : (seen ++ rest).Nodup) :
    Sample count (seen ++ rest) (pass count draw seen.length rest slots) := by
  induction rest generalizing seen slots with
  | nil =>
    rw [List.append_nil]
    exact h
  | cons a rest ih =>
    have hsplit : seen ++ a :: rest = (seen ++ [a]) ++ rest := by simp
    have hnew : a ∉ seen := fun hmem => (List.nodup_middle.mp hstream).notMem
      (List.mem_append_left rest hmem)
    have hnext := ih (h.put hnew (draw seen.length)) (hsplit ▸ hstream)
    rw [List.length_append, List.length_singleton] at hnext
    rw [hsplit, Reservoir.pass]
    exact hnext

end Sample

/-- **A pass over a stream without repetitions** keeps distinct elements of it, as
    many as there is room for. -/
theorem sample_pass (count : Nat) (draw : Nat → Nat) {stream : List α} (h : stream.Nodup) :
    Sample count stream (pass count draw 0 stream []) :=
  (sample_nil count).pass draw h

end Reservoir
