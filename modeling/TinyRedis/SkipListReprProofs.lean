import TinyRedis.SkipListProofs

/-! # The skip list invariant

    `Repr z ps`: the set `z` represents the sequence `ps` of node pointers.
    The level-`i` chain is the subsequence of the nodes taller than `i`, for
    every `i` at once, which is what makes one search lemma serve all levels:
    if `ps` splits into a part a search passes and a part that stops it, then
    at every level the search ends at the last node of the first part that is
    on that level (`Towers.search_spec`). -/

namespace TinyZSet

open GoString GoFloat LinkedChain

variable {F : Type} [Float64 F] {z : ZSet F} {ps : List Nat}

/-! ## The order of nodes -/

theorem before_iff {s : F} {m : Bytes} {n : ZSetNode F} :
    before s m n = true ↔ ∃ x y, Float64.place n.score = some x ∧ Float64.place s = some y ∧
      (x < y ∨ x = y ∧ n.member < m) := by
  unfold before
  rw [Bool.or_eq_true, Bool.and_eq_true, lt_iff, eq_iff, decide_eq_true_iff]
  constructor
  · rintro (⟨x, y, hx, hy, h⟩ | ⟨⟨x, hx, hy⟩, h⟩)
    · exact ⟨x, y, hx, hy, .inl h⟩
    · exact ⟨x, x, hx, hy, .inr ⟨rfl, h⟩⟩
  · rintro ⟨x, y, hx, hy, h | ⟨rfl, h⟩⟩
    · exact .inl ⟨x, y, hx, hy, h⟩
    · exact .inr ⟨⟨x, hx, hy⟩, h⟩

/-- Score and member order the nodes. -/
theorem before_trans {s : F} {m : Bytes} {a b : ZSetNode F} (hab : before b.score b.member a = true)
    (hb : before s m b = true) :
    before s m a = true := by
  obtain ⟨x, y, hx, hy, hxy⟩ := before_iff.mp hab
  obtain ⟨y', w, hy', hw, hyw⟩ := before_iff.mp hb
  obtain rfl : y = y' := Option.some.inj (hy.symm.trans hy')
  refine before_iff.mpr ⟨x, w, hx, hw, ?_⟩
  rcases hxy with hxy | ⟨rfl, hm⟩
  · rcases hyw with hyw | ⟨rfl, _⟩
    · exact .inl (lt_trans hxy hyw)
    · exact .inl hxy
  · rcases hyw with hyw | ⟨rfl, hm'⟩
    · exact .inl hyw
    · exact .inr ⟨rfl, lt_trans hm hm'⟩

/-- Of two numbers with distinct members, one node is before the other. -/
theorem before_total {s : F} {n k : ZSetNode F} (hs : IsNum s) (hn : IsNum n.score)
    (hk : k.score = s) (hne : n.member ≠ k.member) (h : before s k.member n = false) :
    before n.score n.member k = true := by
  obtain ⟨y, hy⟩ := hs
  obtain ⟨x, hx⟩ := hn
  refine before_iff.mpr ⟨y, x, by rw [hk, hy], hx, ?_⟩
  have hno : ¬ (x < y ∨ x = y ∧ n.member < k.member) := by
    intro hlt
    rw [before_iff.mpr ⟨x, y, hx, hy, hlt⟩] at h
    cases h
  rcases lt_trichotomy x y with hlt | rfl | hgt
  · exact absurd (.inl hlt) hno
  · refine .inr ⟨rfl, lt_of_le_of_ne (not_lt.mp fun hlt => hno (.inr ⟨rfl, hlt⟩)) hne.symm⟩
  · exact .inl hgt

/-- No node is before itself. -/
theorem before_irrefl (n : ZSetNode F) : before n.score n.member n = false := by
  refine Bool.eq_false_iff.mpr fun h => ?_
  obtain ⟨x, y, hx, hy, hlt⟩ := before_iff.mp h
  obtain rfl : x = y := Option.some.inj (hx.symm.trans hy)
  rcases hlt with hlt | ⟨_, hlt⟩
  · exact lt_irrefl _ hlt
  · exact lt_irrefl _ hlt

/-- A sorted sequence splits where a downward closed condition ends. -/
theorem split_of_pairwise {P : Type} {r : P → P → Prop} {adv : P → Bool}
    (hdown : ∀ a b, r a b → adv b = true → adv a = true) {ps : List P} (hs : ps.Pairwise r) :
    ∃ A B, ps = A ++ B ∧ (∀ a ∈ A, adv a = true) ∧ ∀ b ∈ B, adv b = false := by
  induction ps with
  | nil => exact ⟨[], [], rfl, fun _ h => absurd h List.not_mem_nil,
      fun _ h => absurd h List.not_mem_nil⟩
  | cons p ps ih =>
    obtain ⟨hp, hps⟩ := List.pairwise_cons.mp hs
    cases hadv : adv p with
    | true =>
      obtain ⟨A, B, rfl, hA, hB⟩ := ih hps
      refine ⟨p :: A, B, rfl, fun a ha => ?_, hB⟩
      rcases List.mem_cons.mp ha with rfl | ha
      · exact hadv
      · exact hA a ha
    | false =>
      refine ⟨[], p :: ps, rfl, fun _ h => absurd h List.not_mem_nil, fun b hb => ?_⟩
      rcases List.mem_cons.mp hb with rfl | hb
      · exact hadv
      · refine Bool.eq_false_iff.mpr fun ht => ?_
        rw [hdown p b (hp b hb) ht] at hadv
        cases hadv

/-! ## The invariant -/

/-- The nodes of a sequence that are on level `i`. -/
def onLevel (z : ZSet F) (i : Nat) (ps : List Nat) : List Nat :=
  ps.filter fun p => decide (i < (z.mem p).level)

/-- **The representation invariant.** -/
structure Repr (z : ZSet F) (ps : List Nat) : Prop where
  nodup : (header :: ps).Nodup
  fresh : ∀ p ∈ header :: ps, p < z.fresh
  chains : ∀ i, Chain (fun p => (z.mem p).forward i) header (onLevel z i ps)
  heights : ∀ p ∈ ps, 1 ≤ (z.mem p).level ∧ (z.mem p).level ≤ maxLevel
  sorted : ps.Pairwise fun p q => before (z.mem q).score (z.mem q).member (z.mem p) = true
  numeric : ∀ p ∈ ps, IsNum (z.mem p).score
  dict : ∀ m s, z.dict m = some s ↔ ∃ p ∈ ps, (z.mem p).member = m ∧ (z.mem p).score = s
  length : z.length = ps.length
  tail : z.tail = ps.getLast?
  level_pos : 1 ≤ z.level
  level_le : ∀ p ∈ ps, (z.mem p).level ≤ z.level
  level_max : z.level = 1 ∨ ∃ p ∈ ps, (z.mem p).level = z.level

/-- **What a search needs of it**: the towers of `ps` stand in the set and are
    linked level by level, whatever the scores are. -/
structure Towers (z : ZSet F) (ps : List Nat) : Prop where
  nodup : (header :: ps).Nodup
  fresh : ∀ p ∈ header :: ps, p < z.fresh
  chains : ∀ i, Chain (fun p => (z.mem p).forward i) header (onLevel z i ps)
  standing : ∀ p ∈ ps, 1 ≤ (z.mem p).level
  level_le : ∀ p ∈ ps, (z.mem p).level ≤ z.level
  length : z.length = ps.length

theorem Repr.towers (h : Repr z ps) : Towers z ps where
  nodup := h.nodup
  fresh := h.fresh
  chains := h.chains
  standing := fun p hp => (h.heights p hp).1
  level_le := h.level_le
  length := h.length

omit [Float64 F] in
theorem onLevel_append (z : ZSet F) (i : Nat) (A B : List Nat) :
    onLevel z i (A ++ B) = onLevel z i A ++ onLevel z i B := List.filter_append ..

omit [Float64 F] in
theorem mem_onLevel {i : Nat} {p : Nat} :
    p ∈ onLevel z i ps ↔ p ∈ ps ∧ i < (z.mem p).level := by
  unfold onLevel
  rw [List.mem_filter, decide_eq_true_iff]

omit [Float64 F] in
/-- The nodes of a level, cut off behind the last one of the level above. -/
theorem onLevel_split (z : ZSet F) (i p : Nat) (A : List Nat) :
    ∃ C D, onLevel z i A = C ++ D ∧ lastFrom p C = lastFrom p (onLevel z (i + 1) A) := by
  rcases List.eq_nil_or_concat (onLevel z (i + 1) A) with hnil | ⟨L, x, hx⟩
  · exact ⟨[], onLevel z i A, rfl, by rw [hnil]⟩
  · have hmem : x ∈ onLevel z (i + 1) A := by
      rw [hx]
      simp
    obtain ⟨hxA, hlt⟩ := mem_onLevel.mp hmem
    obtain ⟨C, D, hsplit⟩ := List.append_of_mem (mem_onLevel.mpr ⟨hxA, Nat.lt_of_succ_lt hlt⟩)
    refine ⟨C ++ [x], D, by rw [hsplit, List.append_assoc]; rfl, ?_⟩
    rw [hx, List.concat_eq_append, lastFrom_append, lastFrom_append]
    rfl

/-- The empty set represents the empty sequence. -/
theorem newZSet_repr : Repr (newZSet : ZSet F) [] where
  nodup := List.nodup_singleton _
  fresh := fun p hp => by
    rw [List.mem_singleton.mp hp]
    exact Nat.zero_lt_one
  chains := fun _ => rfl
  heights := fun _ h => absurd h List.not_mem_nil
  sorted := List.Pairwise.nil
  numeric := fun _ h => absurd h List.not_mem_nil
  dict := fun m s => by
    constructor
    · intro h
      cases h
    · rintro ⟨p, hp, _⟩
      exact absurd hp List.not_mem_nil
  length := rfl
  tail := rfl
  level_pos := Nat.le_refl 1
  level_le := fun _ h => absurd h List.not_mem_nil
  level_max := .inl rfl

omit [Float64 F] in
/-- There are no more nodes than pointers handed out, so a walk never runs out
    of rounds. -/
theorem Towers.length_le_fresh (h : Towers z ps) :
    ps.length ≤ z.fresh := by
  have hsub : ps ⊆ List.range z.fresh := fun p hp =>
    List.mem_range.mpr (h.fresh p (List.mem_cons_of_mem header hp))
  have := (List.nodup_cons.mp h.nodup).2.subperm hsub
  simpa using this.length_le

omit [Float64 F] in
/-- **THE SEARCH LEMMA**: a search that passes `A` and stops at `B` ends, on
    every level, at the last node of `A` on that level, and an invariant of
    pointer and rank that every step keeps holds there. -/
theorem Towers.search_spec {A B : List Nat} (h : Towers z (A ++ B)) {adv : ZSetNode F → Int → Bool}
    {I : Nat → Int → Prop}
    (hstep : ∀ i u v r, u ∈ header :: onLevel z i (A ++ B) → (z.mem u).forward i = some v →
      I u r → I v (r + (z.mem u).span i)) (hA : ∀ q ∈ A, ∀ r, I q r → adv (z.mem q) r = true)
    (hB : ∀ q ∈ B, ∀ r, I q r → adv (z.mem q) r = false) :
    ∀ (l cur : Nat) (r : Int), cur = lastFrom header (onLevel z l A) → I cur r →
      ∀ i, i < l → (z.search adv l cur r i).1 = lastFrom header (onLevel z i A) ∧
        I (lastFrom header (onLevel z i A)) (z.search adv l cur r i).2 := by
  intro l
  induction l with
  | zero => exact fun _ _ _ _ i hi => absurd hi (Nat.not_lt_zero i)
  | succ l ih =>
    intro cur r hcur hI i hi
    obtain ⟨C, D, hsplit, hC⟩ := onLevel_split z l header A
    have hchain := h.chains l
    rw [onLevel_append, hsplit, List.append_assoc] at hchain
    have hrest := (chain_append.mp hchain).2
    rw [hC, ← hcur] at hrest
    have hend : lastFrom cur D = lastFrom header (onLevel z l A) := by
      rw [hsplit, lastFrom_append, hC, hcur]
    -- the walk of this level passes `D`, the part of `A` behind `cur`
    have hwalk : (z.walkLevel adv l cur r).1 = lastFrom cur D ∧
        I (lastFrom cur D) (z.walkLevel adv l cur r).2 := by
      refine walk_spec hrest hI ?_ ?_ ?_ ?_
      · have hlen : D.length ≤ (A ++ B).length := by
          have h1 : (onLevel z l A).length ≤ A.length := List.length_filter_le ..
          rw [hsplit, List.length_append] at h1
          rw [List.length_append]
          omega
        exact le_trans hlen h.length_le_fresh
      · intro u v r hu hv hIu
        refine hstep l u v r ?_ hv hIu
        rw [onLevel_append, hsplit]
        rcases List.mem_cons.mp hu with rfl | hu
        · rw [hcur, ← hC]
          rcases List.mem_cons.mp (lastFrom_mem header C) with he | hm
          · rw [he]
            exact List.mem_cons_self
          · exact List.mem_cons_of_mem _ (List.mem_append_left _ (List.mem_append_left _ hm))
        · exact List.mem_cons_of_mem _ (List.mem_append_left _ (List.mem_append_right _ hu))
      · intro q hq r hIq
        have hmem : q ∈ onLevel z l A := hsplit ▸ List.mem_append_right C hq
        exact hA q (mem_onLevel.mp hmem).1 r hIq
      · intro q hq r hIq
        have hmem : q ∈ onLevel z l B := List.mem_of_head? hq
        exact hB q (mem_onLevel.mp hmem).1 r hIq
    rw [hend] at hwalk
    by_cases hil : i = l
    · have hthis : z.search adv (l + 1) cur r i = z.walkLevel adv l cur r := if_pos hil
      rw [hthis, hil]
      exact hwalk
    · have hbelow : z.search adv (l + 1) cur r i = z.search adv l
          (z.walkLevel adv l cur r).1 (z.walkLevel adv l cur r).2 i := if_neg hil
      rw [hbelow]
      exact ih _ _ hwalk.1 (hwalk.1.symm ▸ hwalk.2) i (by omega)

end TinyZSet
