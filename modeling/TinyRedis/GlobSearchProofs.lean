import Mathlib

/-! # Searching for a wildcard match

    A pattern as a backtracking matcher reads it: after a wildcard it looks for
    the next element that satisfies a test, tries the rest of the pattern behind
    it, and goes on to the next such element if that fails.  When it runs out of
    elements without having found one, it does not return.

    The two questions about such a search have declarative answers.  It returns
    true exactly on the strings that the pattern matches, for a later match is
    never hidden by an earlier attempt that does not return (`search_eq_true`).
    And it fails to return exactly on the strings that the pattern does not match
    and on which it can come to look for an element other than the last one
    (`search_eq_none`).

    Nothing is said here about what the elements are, or how a pattern is
    written. -/

namespace GlobSearch

variable {α : Type}

/-- A pattern: its end; wildcards up to its end; wildcards and an element to look
    for behind them; one element; something that takes no element but wants one to
    be left; and what matches nothing. -/
inductive Pat (α : Type) where
  | done
  | stars
  | seek (P : α → Bool) (rest : Pat α)
  | one (P : α → Bool) (rest : Pat α)
  | skip (rest : Pat α)
  | fail

namespace Pat

/-- The strings a pattern matches. -/
def Matches : Pat α → List α → Prop
  | done, s => s = []
  | stars, _ => True
  | seek P p, s => ∃ u c v, s = u ++ c :: v ∧ P c = true ∧ p.Matches v
  | one P p, s => ∃ c v, s = c :: v ∧ P c = true ∧ p.Matches v
  | skip p, s => s ≠ [] ∧ p.Matches s
  | fail, _ => False

/-- Some way to match a part of the pattern leaves a string whose last element is
    not the one that is looked for next. -/
def RunsOff : Pat α → List α → Prop
  | done, _ => False
  | stars, _ => False
  | seek P p, s => (∃ u c, s = u ++ [c] ∧ P c = false) ∨
      ∃ u c v, s = u ++ c :: v ∧ P c = true ∧ p.RunsOff v
  | one P p, s => ∃ c v, s = c :: v ∧ P c = true ∧ p.RunsOff v
  | skip p, s => p.RunsOff s
  | fail, _ => False

/-! ## The search -/

/-- The loop behind wildcards: `moved` says whether elements have been passed over
    since the last attempt.  None is a search that does not return. -/
def seekLoop (P : α → Bool) (rest : List α → Option Bool) : Bool → List α → Option Bool
  | moved, [] => if moved then none else some false
  | _, c :: s =>
    if P c then
      match rest s with
      | some false => seekLoop P rest false s
      | r => r
    else seekLoop P rest true s

/-- The search. -/
def search : Pat α → List α → Option Bool
  | done, s => some s.isEmpty
  | stars, _ => some true
  | seek _ _, [] => some false
  | seek P p, c :: s => seekLoop P p.search false (c :: s)
  | one _ _, [] => some false
  | one P p, c :: s => if P c then p.search s else some false
  | skip _, [] => some false
  | skip p, c :: s => p.search (c :: s)
  | fail, _ => some false

/-! ## The loop -/

section Loop

variable {P : α → Bool} {rest : List α → Option Bool} {M : List α → Prop}

/-- An attempt succeeds somewhere in the string. -/
def Found (P : α → Bool) (M : List α → Prop) (s : List α) : Prop :=
  ∃ u c v, s = u ++ c :: v ∧ P c = true ∧ M v

theorem not_found_nil : ¬ Found P M [] := by
  rintro ⟨u, c, v, h, -⟩
  cases u <;> cases h

theorem found_cons {c : α} {s : List α} :
    Found P M (c :: s) ↔ (P c = true ∧ M s) ∨ Found P M s := by
  constructor
  · rintro ⟨_ | ⟨d, u⟩, c', v, h, hP, hM⟩
    · obtain ⟨rfl, rfl⟩ := List.cons.inj h
      exact Or.inl ⟨hP, hM⟩
    · obtain ⟨-, rfl⟩ := List.cons.inj h
      exact Or.inr ⟨u, c', v, rfl, hP, hM⟩
  · rintro (⟨hP, hM⟩ | ⟨u, c', v, rfl, hP, hM⟩)
    · exact ⟨[], c, s, rfl, hP, hM⟩
    · exact ⟨c :: u, c', v, rfl, hP, hM⟩

/-- The loop returns true only if an attempt does. -/
theorem found_of_seekLoop (hM : ∀ v, rest v = some true → M v) {moved : Bool} {s : List α}
    (h : seekLoop P rest moved s = some true) : Found P M s := by
  induction s generalizing moved with
  | nil =>
    rw [seekLoop] at h
    split at h <;> cases h
  | cons c s ih =>
    rw [found_cons]
    rw [seekLoop] at h
    by_cases hP : P c
    · rw [if_pos hP] at h
      cases hrest : rest s with
      | none =>
        rw [hrest] at h
        cases h
      | some b =>
        rw [hrest] at h
        cases b with
        | true => exact Or.inl ⟨hP, hM s hrest⟩
        | false => exact Or.inr (ih h)
    · rw [if_neg hP] at h
      exact Or.inr (ih h)

/-- If an attempt succeeds, the loop returns true: an attempt before it that does
    not return would have succeeded as well. -/
theorem seekLoop_of_found {O : List α → Prop} (hM : ∀ v, rest v = some true ↔ M v)
    (hO : ∀ v, rest v = none ↔ ¬ M v ∧ O v) (habsorb : ∀ v t, v <:+ t → O t → M v → M t)
    {moved : Bool} {s : List α} (h : Found P M s) : seekLoop P rest moved s = some true := by
  induction s generalizing moved with
  | nil => exact absurd h not_found_nil
  | cons c s ih =>
    rw [found_cons] at h
    rw [seekLoop]
    by_cases hP : P c
    · rw [if_pos hP]
      cases hrest : rest s with
      | none =>
        obtain ⟨hno, hoff⟩ := (hO s).mp hrest
        obtain ⟨u, d, v, rfl, -, hv⟩ := h.resolve_left fun h => hno h.2
        exact absurd (habsorb v _ ⟨u ++ [d], by simp⟩ hoff hv) hno
      | some b =>
        cases b with
        | true => rfl
        | false =>
          refine ih (h.resolve_left fun h => ?_)
          rw [(hM s).mpr h.2] at hrest
          cases hrest
    · rw [if_neg hP]
      exact ih (h.resolve_left fun h => hP h.1)

/-- The last element is not one that is looked for, or an attempt can run off. -/
def Off (P : α → Bool) (O : List α → Prop) (s : List α) : Prop :=
  (∃ u c, s = u ++ [c] ∧ P c = false) ∨ Found P O s

theorem off_cons {O : List α → Prop} {c : α} {s : List α} : Off P O (c :: s) ↔
    (s = [] ∧ P c = false) ∨ (P c = true ∧ O s) ∨ Off P O s := by
  have hlast : (∃ u d, c :: s = u ++ [d] ∧ P d = false) ↔
      (s = [] ∧ P c = false) ∨ ∃ u d, s = u ++ [d] ∧ P d = false := by
    constructor
    · rintro ⟨_ | ⟨e, u⟩, d, h, hP⟩
      · obtain ⟨rfl, rfl⟩ := List.cons.inj h
        exact Or.inl ⟨rfl, hP⟩
      · obtain ⟨-, rfl⟩ := List.cons.inj h
        exact Or.inr ⟨u, d, rfl, hP⟩
    · rintro (⟨rfl, hP⟩ | ⟨u, d, rfl, hP⟩)
      · exact ⟨[], c, rfl, hP⟩
      · exact ⟨c :: u, d, rfl, hP⟩
  rw [Off, Off, hlast, found_cons, or_assoc]
  exact or_congr_right or_left_comm

theorem not_off_nil {O : List α → Prop} : ¬ Off P O [] := by
  rintro (⟨u, c, h, -⟩ | h)
  · cases u <;> cases h
  · exact not_found_nil h

/-- When no attempt succeeds, the loop does not return exactly when it can run
    off. -/
theorem seekLoop_eq_none_iff {O : List α → Prop} (hM : ∀ v, rest v = some true ↔ M v)
    (hO : ∀ v, rest v = none ↔ ¬ M v ∧ O v) {moved : Bool} {s : List α} (h : ¬ Found P M s) :
    seekLoop P rest moved s = none ↔ Off P O s ∨ (s = [] ∧ moved = true) := by
  induction s generalizing moved with
  | nil =>
    rw [seekLoop, or_iff_right not_off_nil]
    cases moved <;> simp
  | cons c s ih =>
    rw [found_cons, not_or] at h
    rw [seekLoop, off_cons]
    by_cases hP : P c
    · have hno : ¬ M s := fun hs => h.1 ⟨hP, hs⟩
      rw [if_pos hP]
      cases hrest : rest s with
      | none =>
        have hoff := ((hO s).mp hrest).2
        simp [hP, hoff]
      | some b =>
        cases b with
        | true => exact absurd ((hM s).mp hrest) hno
        | false =>
          have hoff : ¬ O s := fun hs => by
            rw [(hO s).mpr ⟨hno, hs⟩] at hrest
            cases hrest
          simp [ih h.2, hP, hoff]
    · have hPc : P c = false := Bool.eq_false_iff.mpr hP
      rw [if_neg hP, ih h.2, hPc]
      simp only [and_true, Bool.false_eq_true, false_and, false_or, reduceCtorEq, or_false]
      exact or_comm

end Loop

/-! ## The search as a whole -/

/-- A string that has a match behind it, and on which the pattern comes as far as
    a wildcard, matches: the wildcard takes what is in front. -/
theorem Matches.absorb {p : Pat α} {v t : List α} (hsuffix : v <:+ t) (hoff : p.RunsOff t)
    (hv : p.Matches v) : p.Matches t := by
  induction p generalizing v t with
  | done => exact absurd hoff id
  | stars => trivial
  | seek P p ih =>
    obtain ⟨x, rfl⟩ := hsuffix
    obtain ⟨u, c, w, rfl, hP, hw⟩ := hv
    exact ⟨x ++ u, c, w, by simp, hP, hw⟩
  | one P p ih =>
    obtain ⟨c, w, rfl, hP, hw⟩ := hv
    obtain ⟨d, y, rfl, hP', hy⟩ := hoff
    refine ⟨d, y, rfl, hP', ih ?_ hy hw⟩
    obtain ⟨_ | ⟨e, x⟩, hx⟩ := hsuffix
    · obtain ⟨-, rfl⟩ := List.cons.inj hx
      exact List.suffix_refl _
    · obtain ⟨-, rfl⟩ := List.cons.inj hx
      exact ⟨x ++ [c], by simp⟩
  | skip p ih =>
    refine ⟨?_, ih hsuffix hoff hv.2⟩
    rintro rfl
    exact hv.1 (List.suffix_nil.mp hsuffix)
  | fail => exact absurd hoff id

theorem not_runsOff_nil (p : Pat α) : ¬ p.RunsOff [] := by
  induction p with
  | done => exact id
  | stars => exact id
  | seek P p ih =>
    rintro (⟨u, c, h, -⟩ | ⟨u, c, v, h, -⟩)
    · cases u <;> cases h
    · cases u <;> cases h
  | one P p ih =>
    rintro ⟨c, v, h, -⟩
    cases h
  | skip p ih => exact ih
  | fail => exact id

/-- **What the search computes**, by induction on the pattern. -/
theorem search_spec (p : Pat α) (s : List α) :
    (p.search s = some true ↔ p.Matches s) ∧
      (p.search s = none ↔ ¬ p.Matches s ∧ p.RunsOff s) := by
  induction p generalizing s with
  | done => simp [search, Matches, RunsOff]
  | stars => simp [search, Matches]
  | fail => simp [search, Matches, RunsOff]
  | seek P p ih =>
    cases s with
    | nil => simp [search, Matches, not_runsOff_nil]
    | cons c s =>
      have hM : ∀ v, p.search v = some true ↔ p.Matches v := fun v => (ih v).1
      have hO : ∀ v, p.search v = none ↔ ¬ p.Matches v ∧ p.RunsOff v := fun v => (ih v).2
      rw [search]
      have htrue : seekLoop P p.search false (c :: s) = some true ↔ Found P p.Matches (c :: s) :=
        ⟨found_of_seekLoop fun v => (hM v).mp,
          seekLoop_of_found hM hO fun v t h ho hv => hv.absorb h ho⟩
      refine ⟨htrue, ?_⟩
      by_cases hfound : Found P p.Matches (c :: s)
      · rw [htrue.mpr hfound]
        exact iff_of_false (fun h => by cases h) fun h => h.1 hfound
      · rw [seekLoop_eq_none_iff hM hO hfound]
        simp only [reduceCtorEq, false_and, or_false]
        exact (and_iff_right hfound).symm
  | one P p ih =>
    cases s with
    | nil => simp [search, Matches, RunsOff]
    | cons c s =>
      by_cases hP : P c
      · simp [search, Matches, RunsOff, hP, ih]
      · simp [search, Matches, RunsOff, hP]
  | skip p ih =>
    cases s with
    | nil => simp [search, Matches, RunsOff, not_runsOff_nil]
    | cons c s => simp [search, Matches, RunsOff, ih]

/-- The search returns true exactly on the strings that the pattern matches. -/
theorem search_eq_true {p : Pat α} {s : List α} : p.search s = some true ↔ p.Matches s :=
  (p.search_spec s).1

/-- It does not return exactly on those that the pattern does not match and on
    which it can run off. -/
theorem search_eq_none {p : Pat α} {s : List α} :
    p.search s = none ↔ ¬ p.Matches s ∧ p.RunsOff s := (p.search_spec s).2

end Pat

end GlobSearch
