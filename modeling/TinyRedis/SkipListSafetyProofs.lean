import TinyRedis.SkipListRunProofs

/-! # The loops over a skip list end

    Every loop over a skip list follows forward pointers until it meets nil, and
    uses levels below `z.level` as indices.  Nothing in this needs the order of
    the nodes, and a NaN score, which `ParseFloat` accepts, breaks the order: a
    node can then be taken out of the lowest level and stay on a higher one.

    What such a list keeps is weaker and enough.  The levels in use fit the
    arrays, a pointer points to a node that has been made, and on every level
    the pointers lead down some measure, over all the memory and not only over
    the nodes that can still be reached.  `Add` puts a new node between two
    pointers and `deleteNode` passes one over; neither needs to know which. -/

namespace TinyZSet

open GoString GoFloat LinkedChain

variable {F : Type} {z : ZSet F}

/-- What the loops rest on. -/
structure ZSet.Sound (z : ZSet F) : Prop where
  made : header < z.fresh
  level : IsLevel z.level
  inside : ∀ i p q, (z.mem p).forward i = some q → q < z.fresh
  ranked : ∀ i, Ranked fun p => (z.mem p).forward i

/-- A loop that follows `forward[i]` meets nil, within the rounds the model
    allows it. -/
theorem ZSet.Sound.chain (h : z.Sound) (i p : Nat) :
    ∃ l, Chain (fun q => (z.mem q).forward i) p l ∧ l.length ≤ z.fresh :=
  (h.ranked i).chain_length (h.inside i) p

/-- Soundness looks at the forward pointers, the level and the memory in use. -/
theorem ZSet.Sound.congr {z z' : ZSet F} (h : z.Sound)
    (hforward : ∀ i p, (z'.mem p).forward i = (z.mem p).forward i) (hfresh : z'.fresh = z.fresh)
    (hlevel : IsLevel z'.level) : z'.Sound where
  made := hfresh ▸ h.made
  level := hlevel
  inside i p q hpq := hfresh ▸ h.inside i p q (hforward i p ▸ hpq)
  ranked i := by
    rw [show (fun p => (z'.mem p).forward i) = fun p => (z.mem p).forward i from
      funext (hforward i)]
    exact h.ranked i

section Searching

variable [Float64 F]

theorem newZSet_sound : (newZSet : ZSet F).Sound where
  made := Nat.one_pos
  level := ⟨le_rfl, show 1 ≤ maxLevel by decide⟩
  inside i p q hpq := absurd hpq (Option.some_ne_none q).symm
  ranked i := ⟨fun _ => 0, fun p q hpq => absurd hpq (Option.some_ne_none q).symm⟩

omit [Float64 F] in
/-- A search ends at nodes that have been made. -/
theorem ZSet.Sound.search_lt (h : z.Sound) (adv : ZSetNode F → Int → Bool) (n : Nat) {cur : Nat}
    (hcur : cur < z.fresh) (rank : Int) (i : Nat) :
    (z.search adv n cur rank i).1 < z.fresh := by
  induction n generalizing cur rank with
  | zero => exact hcur
  | succ n ih =>
    have hwalk : (z.walkLevel adv n cur rank).1 < z.fresh :=
      walk_closed (I := fun p => p < z.fresh) (fun p q _ => h.inside n p q) z.fresh hcur rank
    rw [search]
    dsimp only
    by_cases hi : i = n
    · rw [if_pos hi]
      exact hwalk
    · rw [if_neg hi]
      exact ih hwalk _

theorem ZSet.Sound.updateAt_lt (h : z.Sound) (m : Bytes) (s : F) (i : Nat) :
    updateAt z m s i < z.fresh := by
  unfold updateAt
  split
  · exact h.search_lt _ _ h.made _ _
  · exact h.made

/-! ## Add and deleteNode -/

/-- A new node goes between two pointers on each of its levels. -/
theorem ZSet.Sound.insertNode (h : z.Sound) (m : Bytes) (s : F) {newLevel : Nat}
    (hl : IsLevel newLevel) : (z.insertNode m s newLevel).Sound := by
  have hlt := h.updateAt_lt m s
  have hforward := insertNode_forward (z := z) (m := m) (s := s) newLevel fun i =>
    Nat.ne_of_lt (hlt i)
  obtain ⟨-, -, -, -, hfresh, hlevel, -⟩ := insertNode_nodes z m s newLevel
  refine ⟨?_, ?_, fun i p q hpq => ?_, fun i => ?_⟩
  · rw [hfresh]
    exact Nat.lt_succ_of_lt h.made
  · rw [hlevel]
    exact ⟨le_max_of_le_left h.level.1, max_le h.level.2 hl.2⟩
  · rw [hforward] at hpq
    rw [hfresh]
    split_ifs at hpq with hi hp hn hn
    · exact (Option.some.inj hpq) ▸ Nat.lt_succ_self _
    · exact Nat.lt_succ_of_lt (h.inside _ _ _ hpq)
    · exact Nat.lt_succ_of_lt (h.inside _ _ _ hpq)
    · exact Nat.lt_succ_of_lt (h.inside _ _ _ hpq)
  · by_cases hi : i < newLevel
    · -- nothing points to the new node before it is linked
      refine (h.ranked i).insert (u := updateAt z m s i) (n := z.fresh)
        (fun p hp => lt_irrefl _ (h.inside i p _ hp)) (Nat.ne_of_lt (hlt i)) ?_ ?_ ?_
      · rw [hforward, if_pos hi, if_pos rfl]
      · rw [hforward, if_pos hi, if_neg (Nat.ne_of_gt (hlt i)), if_pos rfl]
      · intro q hq hqn
        rw [hforward, if_pos hi, if_neg hq, if_neg hqn]
    · obtain ⟨rank, hrank⟩ := h.ranked i
      refine ⟨rank, fun p q hpq => ?_⟩
      dsimp only at hpq
      rw [hforward, if_neg hi] at hpq
      split_ifs at hpq with hn
      exact hrank p q hpq

section

omit [Float64 F]

/-- The pointers after a write to one of them. -/
theorem setForward_forward (z : ZSet F) (u i : Nat) (q : Option Nat) (j p : Nat) :
    ((z.setForward u i q).mem p).forward j =
      if j = i ∧ p = u then q else (z.mem p).forward j := by
  have hrow := congrArg Prod.fst (congrFun (setForward_row z u i q j) p)
  refine hrow.trans ?_
  by_cases hj : j = i
  · subst hj
    by_cases hp : p = u
    · subst hp
      simp
    · simp [hp, ZSet.row]
  · simp [hj, ZSet.row]

theorem setSpan_forward (z : ZSet F) (u i : Nat) (n : Int) (j p : Nat) :
    ((z.setSpan u i n).mem p).forward j = (z.mem p).forward j := by
  have hrow := congrArg Prod.fst (congrFun (setSpan_row z u i n j) p)
  refine hrow.trans ?_
  by_cases hj : j = i
  · subst hj
    by_cases hp : p = u
    · subst hp
      simp [ZSet.row]
    · simp [hp, ZSet.row]
  · simp [hj, ZSet.row]

theorem ZSet.Sound.setSpan (h : z.Sound) (u i : Nat) (n : Int) :
    (z.setSpan u i n).Sound :=
  h.congr (setSpan_forward z u i n) rfl h.level

/-- Passing over the node behind `u`. -/
theorem ZSet.Sound.bypass (h : z.Sound) {u i c : Nat} (hc : (z.mem u).forward i = some c) :
    (z.setForward u i ((z.mem c).forward i)).Sound where
  made := h.made
  level := h.level
  inside j p q hpq := by
    rw [setForward_forward] at hpq
    split_ifs at hpq with hjp
    · exact h.inside i c q hpq
    · exact h.inside j p q hpq
  ranked j := by
    by_cases hj : j = i
    · subst hj
      refine (h.ranked j).bypass hc ?_ fun q hq => ?_
      · rw [setForward_forward, if_pos ⟨rfl, rfl⟩]
      · rw [setForward_forward, if_neg fun hjq => hq hjq.2]
    · obtain ⟨rank, hrank⟩ := h.ranked j
      refine ⟨rank, fun p q hpq => hrank p q ?_⟩
      dsimp only at hpq
      rwa [setForward_forward, if_neg fun hjp => hj hjp.1] at hpq

theorem ZSet.Sound.unlink (update : Nat → Nat) (current : Nat) (is : List Nat) :
    ∀ {z : ZSet F}, z.Sound → (unlink update current is z).Sound := by
  induction is with
  | nil => exact fun h => h
  | cons i is ih =>
    intro z h
    rw [ZSet.unlink]
    by_cases hc : (z.mem (update i)).forward i = some current
    · rw [if_neg (not_not.mpr hc)]
      refine ih ((h.setSpan _ _ _).bypass ?_)
      rw [setSpan_forward]
      exact hc
    · rw [if_pos hc]
      exact h

theorem ZSet.Sound.trimSpans (update : Nat → Nat) (levels : List Nat) :
    ∀ {z : ZSet F}, z.Sound → (trimSpans update levels z).Sound := by
  induction levels with
  | nil => exact fun h => h
  | cons i levels ih =>
    intro z h
    rw [ZSet.trimSpans, List.foldl_cons]
    by_cases hi : (z.mem (update i)).forward i = none
    · rw [if_pos hi]
      exact ih (h.setSpan _ _ _)
    · rw [if_neg hi]
      exact ih h

end

theorem shrink_isLevel (forward : Nat → Option Nat) {l : Nat} (h : IsLevel l) :
    IsLevel (ZSet.shrink forward l) := by
  induction l with
  | zero => exact h
  | succ l ih =>
    cases l with
    | zero => exact h
    | succ l =>
      rw [ZSet.shrink]
      split
      · exact ih ⟨Nat.succ_pos l, Nat.le_of_succ_le h.2⟩
      · exact h

omit [Float64 F] in
/-- Whatever node is cut out, and wherever the search for it has ended. -/
theorem ZSet.Sound.detach (h : z.Sound) (update : Nat → Nat) (current : Nat) (m : Bytes) :
    (z.detach update current m).Sound := by
  have hspans := ZSet.Sound.trimSpans update
    (List.range (ZSet.unlink update current (List.range z.level) z).level).reverse
    (ZSet.Sound.unlink update current (List.range z.level) h)
  exact hspans.congr (fun _ _ => rfl) rfl (shrink_isLevel _ hspans.level)

theorem ZSet.Sound.deleteNode (h : z.Sound) (m : Bytes) (s : F) :
    (z.deleteNode m s).Sound := by
  rw [ZSet.deleteNode]
  split
  · exact h
  · split
    · exact h.detach _ _ _
    · exact h

/-! ## The operations -/

theorem ZSet.Sound.add (h : z.Sound) (m : Bytes) (s : F) {l : Nat} (hl : IsLevel l) :
    (z.add m s l).1.Sound := by
  rw [ZSet.add]
  cases z.dict m with
  | none => exact h.insertNode m s hl
  | some old =>
    dsimp only
    split
    · exact h
    · exact (h.deleteNode m old).insertNode m s hl

theorem ZSet.Sound.remove (h : z.Sound) (m : Bytes) : (z.remove m).1.Sound := by
  rw [ZSet.remove]
  cases z.dict m with
  | none => exact h
  | some s => exact h.deleteNode m s

theorem ZSet.Sound.removeAll (ms : List Bytes) :
    ∀ {z : ZSet F}, z.Sound → (z.removeAll ms).1.Sound := by
  induction ms with
  | nil => exact fun h => h
  | cons m ms ih => exact fun h => ih (h.remove m)

theorem ZSet.Sound.incrBy (h : z.Sound) (m : Bytes) (d : F) {l : Nat} (hl : IsLevel l) :
    (z.incrBy m d l).1.Sound := by
  rw [ZSet.incrBy]
  cases z.dict m with
  | none => exact h.add m d hl
  | some old => exact (h.deleteNode m old).add m _ hl

theorem ZSet.Sound.remRangeByScore (h : z.Sound) (min max : F) :
    (z.remRangeByScore min max).1.Sound := ZSet.Sound.removeAll _ h

theorem ZSet.Sound.remRangeByRank (h : z.Sound) (start stop : Int) :
    (z.remRangeByRank start stop).1.Sound := by
  rw [ZSet.remRangeByRank]
  split
  · exact h
  · exact ZSet.Sound.removeAll _ h

end Searching

end TinyZSet
