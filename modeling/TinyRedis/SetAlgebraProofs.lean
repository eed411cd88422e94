import TinyRedis.CollectionsProofs

/-! # Sets: what the operations of `Set` compute

    `Union`, `Intersect` and `Difference` by their members.  The size a set keeps
    beside its table is the number of its members in every set that they build,
    whatever the sizes of their arguments say. -/

namespace TinyDb.RedisSet

open GoString

variable {s t : RedisSet} {x key : Bytes}

/-- The size counts the members. -/
def Sized (s : RedisSet) : Prop := s.size = s.table.keys.length

theorem has_iff : s.has x = true ↔ x ∈ s.table.keys := by
  rw [has, AList.lookup_isSome, AList.mem_keys]

/-! ## One member -/

@[simp] theorem not_has_newSet : newSet.has x = false := rfl

theorem sized_newSet : Sized newSet := rfl

@[simp] theorem has_add : (s.add key).1.has x = (decide (x = key) || s.has x) := by
  rw [add]
  by_cases hkey : s.has key = true
  · rw [if_pos hkey]
    by_cases hx : x = key
    · simp [hx, hkey]
    · simp [hx]
  · rw [if_neg hkey]
    by_cases hx : x = key
    · subst hx
      simp [has, AList.lookup_insert]
    · simp [has, hx, AList.lookup_insert_ne hx]

theorem Sized.add (h : s.Sized) (key : Bytes) : (s.add key).1.Sized := by
  rw [RedisSet.add]
  by_cases hkey : s.has key = true
  · rw [if_pos hkey]
    exact h
  · have hout : key ∉ s.table := fun hmem => hkey (AList.lookup_isSome.mpr hmem)
    have hlen : (s.table.insert key ()).keys.length = s.table.keys.length + 1 := by
      rw [AList.keys, AList.entries_insert_of_notMem hout]
      rfl
    rw [if_neg hkey, Sized]
    show s.size + 1 = ((s.table.insert key ()).keys.length : Int)
    rw [hlen, h]
    rfl

@[simp] theorem has_remove : (s.remove key).1.has x = (decide (x ≠ key) && s.has x) := by
  rw [remove]
  by_cases hkey : s.has key = true
  · rw [if_pos hkey]
    by_cases hx : x = key
    · subst hx
      simp [has, AList.lookup_erase]
    · simp [has, hx, AList.lookup_erase_ne hx]
  · rw [if_neg hkey]
    by_cases hx : x = key
    · simp [hx, hkey]
    · simp [hx]

theorem Sized.remove (h : s.Sized) (key : Bytes) : (s.remove key).1.Sized := by
  rw [RedisSet.remove]
  by_cases hkey : s.has key = true
  · have hin : key ∈ s.table.keys := has_iff.mp hkey
    have hpos := List.length_pos_of_mem hin
    have hlen : (s.table.erase key).keys.length = s.table.keys.length - 1 := by
      rw [AList.keys_erase]
      exact @List.length_erase_of_mem _ instBEqOfDecidableEq _ _ _ hin
    rw [if_pos hkey, Sized]
    show s.size - 1 = ((s.table.erase key).keys.length : Int)
    rw [hlen, h]
    omega
  · rw [if_neg hkey]
    exact h

/-! ## Several members -/

/-- Adding the keys of a list. -/
theorem foldl_add (keys : List Bytes) (h : s.Sized) :
    (keys.foldl (fun res key => (res.add key).1) s).Sized ∧
      ∀ x, (keys.foldl (fun res key => (res.add key).1) s).has x = true ↔
        s.has x = true ∨ x ∈ keys := by
  induction keys generalizing s with
  | nil => exact ⟨h, fun x => by simp⟩
  | cons key keys ih =>
    obtain ⟨hsized, hhas⟩ := ih (h.add key)
    refine ⟨hsized, fun x => (hhas x).trans ?_⟩
    simp only [has_add, Bool.or_eq_true, decide_eq_true_eq, List.mem_cons]
    tauto

/-- Removing the keys of a list. -/
theorem foldl_remove (keys : List Bytes) (h : s.Sized) :
    (keys.foldl (fun res key => (res.remove key).1) s).Sized ∧
      ∀ x, (keys.foldl (fun res key => (res.remove key).1) s).has x = true ↔
        s.has x = true ∧ x ∉ keys := by
  induction keys generalizing s with
  | nil => exact ⟨h, fun x => by simp⟩
  | cons key keys ih =>
    obtain ⟨hsized, hhas⟩ := ih (h.remove key)
    refine ⟨hsized, fun x => (hhas x).trans ?_⟩
    simp only [has_remove, Bool.and_eq_true, decide_eq_true_eq, List.mem_cons, not_or, ne_eq]
    tauto

/-! ## The operations -/

theorem sized_copy (s : RedisSet) : s.copy.Sized := rfl

/-- `Union`. -/
theorem union_spec (s : RedisSet) (sets : List RedisSet) :
    (s.union sets).Sized ∧
      ∀ x, (s.union sets).has x = true ↔ ∃ t ∈ s :: sets, t.has x = true := by
  -- the two loops go through all keys of all sets
  rw [union, ← List.foldl_flatMap]
  obtain ⟨hsized, hhas⟩ := foldl_add (sets.flatMap fun t => t.table.keys) s.sized_copy
  refine ⟨hsized, fun x => (hhas x).trans ?_⟩
  rw [List.mem_flatMap, List.exists_mem_cons_iff]
  exact or_congr Iff.rfl (exists_congr fun t => and_congr_right fun _ => has_iff.symm)

/-- `Difference`. -/
theorem difference_spec (s : RedisSet) (sets : List RedisSet) :
    (s.difference sets).Sized ∧
      ∀ x, (s.difference sets).has x = true ↔
        s.has x = true ∧ ∀ t ∈ sets, t.has x = false := by
  rw [difference, ← List.foldl_flatMap]
  obtain ⟨hcopied, hcopy⟩ := foldl_add s.table.keys sized_newSet
  obtain ⟨hsized, hhas⟩ := foldl_remove (sets.flatMap fun t => t.table.keys) hcopied
  refine ⟨hsized, fun x => (hhas x).trans ?_⟩
  rw [hcopy, ← has_iff, List.mem_flatMap]
  simp [← has_iff]

/-- A loop that keeps one of two picks one of those it goes through. -/
theorem foldl_pick_mem {α : Type} (better : α → α → Prop) [DecidableRel better] (a : α)
    (as : List α) : as.foldl (fun best b => if better b best then b else best) a ∈ a :: as := by
  induction as generalizing a with
  | nil => simp
  | cons b as ih =>
    rw [List.foldl_cons]
    by_cases hbetter : better b a
    · rw [if_pos hbetter]
      exact List.mem_cons_of_mem _ (ih b)
    · rw [if_neg hbetter]
      rcases List.mem_cons.mp (ih a) with heq | hin
      · rw [heq]
        exact List.mem_cons_self
      · exact List.mem_cons_of_mem _ (List.mem_cons_of_mem _ hin)

/-- The smallest set is one of those it was chosen from. -/
theorem smallest_mem (s : RedisSet) (sets : List RedisSet) : s.smallest sets ∈ s :: sets :=
  foldl_pick_mem (fun set best : RedisSet => set.len < best.len) s sets

/-- `Intersect`: whichever set is taken for the smallest, a key has to be in all
    of them. -/
theorem intersect_spec (s : RedisSet) (sets : List RedisSet) :
    (s.intersect sets).Sized ∧
      ∀ x, (s.intersect sets).has x = true ↔ ∀ t ∈ s :: sets, t.has x = true := by
  rw [intersect]
  by_cases hnil : sets = []
  · subst hnil
    exact ⟨s.sized_copy, fun x => by simp [copy, has]⟩
  · rw [if_neg hnil]
    obtain ⟨hsized, hhas⟩ := foldl_add ((s.smallest sets).table.keys.filter fun key =>
      s.has key && sets.all fun set => set.has key) sized_newSet
    refine ⟨hsized, fun x => (hhas x).trans ?_⟩
    simp only [not_has_newSet, Bool.false_eq_true, false_or, List.mem_filter, ← has_iff,
      Bool.and_eq_true, List.all_eq_true, List.forall_mem_cons]
    refine ⟨fun h => h.2, fun h => ⟨?_, h⟩⟩
    rcases List.mem_cons.mp (smallest_mem s sets) with heq | hin
    · rw [heq]
      exact h.1
    · exact h.2 _ hin

/-- The members of a sized set number its length. -/
theorem Sized.len_eq_zero (h : s.Sized) : s.len = 0 ↔ ∀ x, s.has x = false := by
  rw [len, h]
  constructor
  · intro hzero x
    have hnil : s.table.keys = [] := List.length_eq_zero_iff.mp (by omega)
    rw [Bool.eq_false_iff, ne_eq, has_iff, hnil]
    exact List.not_mem_nil
  · intro hnone
    have hnil : s.table.keys = [] := List.eq_nil_iff_forall_not_mem.mpr fun x hx => by
      have := hnone x
      rw [has_iff.mpr hx] at this
      cases this
    rw [hnil]
    rfl

end TinyDb.RedisSet
