import TinyRedis.SkipListRankProofs

/-! # Score ranges

    `Count`, `RangeByScore` and `RemRangeByScore` walk along level 0 up to the
    first score above `max` and keep the nodes that are not below `min`
    (`hits`).  The chain is sorted, so these are the nodes `within` the bounds:
    behind the first score above `max` there are only such.  No score is above
    a NaN, though; with that for `max` the walk goes on to the end, and keeps
    every node that is not below `min`. -/

namespace TinyZSet

open GoString GoFloat

variable {F : Type} [Float64 F] {z : ZSet F} {ps : List Nat} {min max : F}

/-- `min <= score <= max`. -/
def within (min max score : F) : Bool := ge score min && ge max score

/-- The nodes a walk up to the first score above `max` keeps. -/
def hits (z : ZSet F) (min max : F) (ps : List Nat) : List Nat :=
  (ps.takeWhile fun p => !gt (z.mem p).score max).filter fun p => ge (z.mem p).score min

/-- The first `count` elements, or all of them when `count` is not positive. -/
def cut (count : Int) (l : List Nat) : List Nat := if count > 0 then l.take count.toNat else l

/-! ## What the loops keep -/

theorem hits_stop {p : Nat} (h : gt (z.mem p).score max = true) :
    hits z min max (p :: ps) = [] := by
  unfold hits
  rw [List.takeWhile_cons_of_neg (by rw [h]; decide), List.filter_nil]

theorem hits_keep {p : Nat} (h : gt (z.mem p).score max = false)
    (hmin : ge (z.mem p).score min = true) :
    hits z min max (p :: ps) = p :: hits z min max ps := by
  unfold hits
  rw [List.takeWhile_cons_of_pos (by rw [h]; rfl), List.filter_cons, if_pos hmin]

theorem hits_skip {p : Nat} (h : gt (z.mem p).score max = false)
    (hmin : ge (z.mem p).score min = false) :
    hits z min max (p :: ps) = hits z min max ps := by
  unfold hits
  rw [List.takeWhile_cons_of_pos (by rw [h]; rfl),
    List.filter_cons, if_neg (by rw [hmin]; decide)]

/-- What `RemRangeByScore` collects. -/
theorem collect_eq_hits (z : ZSet F) (min max : F) (ps : List Nat) :
    z.collect min max ps = (hits z min max ps).map fun p => (z.mem p).member := by
  induction ps with
  | nil => rfl
  | cons p ps ih =>
    unfold ZSet.collect
    cases hgt : gt (z.mem p).score max with
    | true => rw [hits_stop hgt, if_pos rfl, List.map_nil]
    | false =>
      rw [if_neg Bool.false_ne_true]
      cases hge : ge (z.mem p).score min with
      | true => rw [hits_keep hgt hge, if_pos rfl, ih, List.map_cons]
      | false => rw [hits_skip hgt hge, if_neg Bool.false_ne_true, ih]

/-- The loop of `RangeByScore` once the offset is passed. -/
theorem rangeByScoreLoop_taking (z : ZSet F) (min max : F) {offset count skipped : Int}
    (hs : skipped ≥ offset) (ps : List Nat) : ∀ taken : Int, (count > 0 → taken < count) →
    z.rangeByScoreLoop min max offset count ps skipped taken =
      if count > 0 then (hits z min max ps).take (count - taken).toNat else hits z min max ps := by
  induction ps with
  | nil =>
    intro taken _
    exact (ite_eq_right_iff.mpr fun _ => List.take_nil).symm
  | cons p ps ih =>
    intro taken ht
    unfold ZSet.rangeByScoreLoop
    cases hgt : gt (z.mem p).score max with
    | true =>
      rw [hits_stop hgt, List.take_nil, ite_self, if_pos rfl]
    | false =>
      rw [if_neg Bool.false_ne_true]
      cases hge : ge (z.mem p).score min with
      | false => rw [hits_skip hgt hge, if_neg Bool.false_ne_true, ih taken ht]
      | true =>
        rw [hits_keep hgt hge, if_pos rfl, if_pos hs]
        by_cases hc : count > 0
        · have htc := ht hc
          by_cases hlast : taken + 1 ≥ count
          · have hone : (count - taken).toNat = 1 := by omega
            rw [if_pos ⟨hc, hlast⟩, if_pos hc, hone, List.take_succ_cons, List.take_zero]
          · have hmore : (count - taken).toNat = (count - (taken + 1)).toNat + 1 := by omega
            rw [if_neg fun h => hlast h.2, ih (taken + 1) fun _ => by omega, if_pos hc,
              if_pos hc, hmore, List.take_succ_cons]
        · rw [if_neg fun h => hc h.1, ih (taken + 1) fun h => absurd h hc, if_neg hc,
            if_neg hc]

/-- The loop of `RangeByScore` drops what the offset says, then takes. -/
theorem rangeByScoreLoop_eq (z : ZSet F) (min max : F) (offset count : Int) (ps : List Nat) :
    ∀ skipped : Int, z.rangeByScoreLoop min max offset count ps skipped 0 =
      cut count ((hits z min max ps).drop (offset - skipped).toNat) := by
  induction ps with
  | nil =>
    intro skipped
    show [] = cut count (List.drop _ [])
    rw [List.drop_nil, cut, List.take_nil, ite_self]
  | cons p ps ih =>
    intro skipped
    by_cases hs : skipped ≥ offset
    · have hzero : (offset - skipped).toNat = 0 := by omega
      rw [rangeByScoreLoop_taking z min max hs _ 0 id, hzero, List.drop_zero, Int.sub_zero]
      rfl
    · unfold ZSet.rangeByScoreLoop
      cases hgt : gt (z.mem p).score max with
      | true => rw [hits_stop hgt, List.drop_nil, cut, List.take_nil, ite_self, if_pos rfl]
      | false =>
        rw [if_neg Bool.false_ne_true]
        cases hge : ge (z.mem p).score min with
        | false => rw [hits_skip hgt hge, if_neg Bool.false_ne_true, ih skipped]
        | true =>
          have hnext : (offset - skipped).toNat = (offset - (skipped + 1)).toNat + 1 := by
            omega
          rw [hits_keep hgt hge, if_pos rfl, if_neg hs, ih (skipped + 1), hnext,
            List.drop_succ_cons]

/-- **`RangeByScore`**. -/
theorem rangeByScore_eq (z : ZSet F) (min max : F) (offset count : Int) :
    z.rangeByScore min max offset count =
      cut count ((hits z min max z.nodes).drop offset.toNat) := by
  unfold ZSet.rangeByScore
  rw [rangeByScoreLoop_eq, Int.sub_zero]
  by_cases ho : offset < 0
  · have hzero : offset.toNat = 0 := by omega
    rw [if_pos ho, hzero, Int.toNat_zero]
  · rw [if_neg ho]

/-! ## The bounds -/

/-- A score above the upper bound is not below it. -/
theorem ge_of_gt_eq_false {x y : F} (h : gt x y = true) : ge y x = false := by
  refine Bool.eq_false_iff.mpr fun hge => ?_
  obtain ⟨a, b, ha, hb, hlt⟩ := lt_iff.mp h
  obtain ⟨a', b', ha', hb', hle⟩ := ge_iff.mp hge
  obtain rfl : a = a' := Option.some.inj (ha.symm.trans ha')
  obtain rfl : b = b' := Option.some.inj (hb.symm.trans hb')
  exact not_lt.mpr hle hlt

/-- Of two numbers, the second is at least the first unless that is above it. -/
theorem ge_of_not_gt {x y : F} (hx : IsNum x) (hy : IsNum y) (h : gt x y = false) :
    ge y x = true := by
  obtain ⟨a, ha⟩ := hx
  obtain ⟨b, hb⟩ := hy
  refine ge_iff.mpr ⟨b, a, hb, ha, not_lt.mp fun hlt => ?_⟩
  exact Bool.eq_false_iff.mp h (lt_iff.mpr ⟨b, a, hb, ha, hlt⟩)

/-- Behind a score above a bound the scores are above it. -/
theorem gt_of_before {p q : ZSetNode F} {max : F} (h : before q.score q.member p = true)
    (hp : gt p.score max = true) : gt q.score max = true := by
  obtain ⟨x, y, hx, hy, hxy⟩ := before_iff.mp h
  obtain ⟨b, a, hb, ha, hlt⟩ := lt_iff.mp hp
  obtain rfl : a = x := Option.some.inj (ha.symm.trans hx)
  refine lt_iff.mpr ⟨b, y, hb, hy, ?_⟩
  rcases hxy with hxy | ⟨rfl, _⟩
  · exact lt_trans hlt hxy
  · exact hlt

/-- **On a sorted chain the walk keeps what is within the bounds.** -/
theorem hits_eq_filter (hmax : IsNum max) {ps : List Nat}
    (hs : ps.Pairwise fun p q => before (z.mem q).score (z.mem q).member (z.mem p) = true)
    (hn : ∀ p ∈ ps, IsNum (z.mem p).score) :
    hits z min max ps = ps.filter fun p => within min max (z.mem p).score := by
  induction ps with
  | nil => rfl
  | cons p ps ih =>
    obtain ⟨hp, hps⟩ := List.pairwise_cons.mp hs
    have ih := ih hps fun q hq => hn q (List.mem_cons_of_mem p hq)
    rw [List.filter_cons]
    cases hgt : gt (z.mem p).score max with
    | true =>
      have hout : ∀ q ∈ p :: ps, within min max (z.mem q).score = false := by
        intro q hq
        have hq' : gt (z.mem q).score max = true := by
          rcases List.mem_cons.mp hq with rfl | hq
          · exact hgt
          · exact gt_of_before (hp q hq) hgt
        unfold within
        rw [ge_of_gt_eq_false hq', Bool.and_false]
      rw [hits_stop hgt, hout p List.mem_cons_self, if_neg Bool.false_ne_true]
      refine (List.filter_eq_nil_iff.mpr fun q hq => ?_).symm
      rw [hout q (List.mem_cons_of_mem p hq)]
      exact Bool.false_ne_true
    | false =>
      have hle := ge_of_not_gt (hn p List.mem_cons_self) hmax hgt
      unfold within
      rw [hle, Bool.and_true]
      cases hge : ge (z.mem p).score min with
      | true =>
        rw [hits_keep hgt hge, if_pos rfl, ih]
        rfl
      | false =>
        rw [hits_skip hgt hge, if_neg Bool.false_ne_true, ih]
        rfl

/-- **Up to a NaN the walk goes to the end.** -/
theorem hits_of_nan (hmax : ¬ IsNum max) (ps : List Nat) :
    hits z min max ps = ps.filter fun p => ge (z.mem p).score min := by
  have hall : ∀ p ∈ ps, (!gt (z.mem p).score max) = true := by
    intro p _
    rw [Bool.not_eq_true', Bool.eq_false_iff]
    intro hgt
    obtain ⟨b, _, hb, _⟩ := lt_iff.mp hgt
    exact hmax ⟨b, hb⟩
  unfold hits
  rw [List.takeWhile_eq_self_iff.mpr hall]

theorem within_nan {min max s : F} (hmax : ¬ IsNum max) : within min max s = false := by
  refine Bool.eq_false_iff.mpr fun h => ?_
  obtain ⟨a, _, ha, _⟩ := ge_iff.mp (Bool.and_eq_true_iff.mp h).2
  exact hmax ⟨a, ha⟩

/-! ## Removing several members -/

/-- `Remove` takes the member out of the map and says whether it was there. -/
theorem Repr.remove_dict (h : Repr z ps) (m : Bytes) :
    (z.remove m).1.dict = Function.update z.dict m none ∧
      (z.remove m).2 = (z.dict m).isSome := by
  unfold ZSet.remove
  cases hd : z.dict m with
  | none => exact ⟨(Function.update_eq_self_iff.mpr hd.symm).symm, rfl⟩
  | some s => exact ⟨h.deleteNode_dict hd, rfl⟩

/-- Removing members takes them, and nothing else, out of the map. -/
theorem Repr.removeAll_dict (ms : List Bytes) : ∀ {z : ZSet F} {ps : List Nat}, Repr z ps →
    ∀ k, (z.removeAll ms).1.dict k = if k ∈ ms then none else z.dict k := by
  induction ms with
  | nil => exact fun _ _ => (if_neg List.not_mem_nil).symm
  | cons m ms ih =>
    intro z ps h k
    show ((z.remove m).1.removeAll ms).1.dict k = _
    rw [ih (h.remove m).1 k, (h.remove_dict m).1]
    by_cases hk : k ∈ ms
    · rw [if_pos hk, if_pos (List.mem_cons_of_mem m hk)]
    · rw [if_neg hk]
      by_cases hkm : k = m
      · rw [hkm, Function.update_self, if_pos List.mem_cons_self]
      · rw [Function.update_of_ne hkm, if_neg fun h => (List.mem_cons.mp h).elim hkm hk]

/-- There is nothing to remove from a set without members. -/
theorem removeAll_of_empty (h : ∀ m, z.dict m = none) (ms : List Bytes) :
    (z.removeAll ms).1 = z := by
  induction ms with
  | nil => rfl
  | cons m ms ih =>
    show ((z.remove m).1.removeAll ms).1 = z
    rw [ZSet.remove, h m]
    exact ih

/-- Distinct members that are all there are all counted. -/
theorem Repr.removeAll_count (ms : List Bytes) : ∀ {z : ZSet F} {ps : List Nat}, Repr z ps →
    ms.Nodup → (∀ m ∈ ms, (z.dict m).isSome = true) → (z.removeAll ms).2 = ms.length := by
  induction ms with
  | nil => exact fun _ _ _ => rfl
  | cons m ms ih =>
    intro z ps h hnd hin
    obtain ⟨hm, hnd'⟩ := List.nodup_cons.mp hnd
    obtain ⟨hdict, hthere⟩ := h.remove_dict m
    have hrest : ∀ k ∈ ms, ((z.remove m).1.dict k).isSome = true := by
      intro k hk
      have hkm : k ≠ m := fun e => hm (e ▸ hk)
      rw [hdict, Function.update_of_ne hkm]
      exact hin k (List.mem_cons_of_mem m hk)
    show (if (z.remove m).2 then 1 else 0) + ((z.remove m).1.removeAll ms).2 = _
    rw [ih (h.remove m).1 hnd' hrest, hthere, if_pos (hin m List.mem_cons_self),
      List.length_cons]
    push_cast
    ring

/-! ## The operations -/

/-- The nodes within the bounds, in order. -/
def inScoreRange (z : ZSet F) (min max : F) : List Nat :=
  z.nodes.filter fun p => within min max (z.mem p).score

/-- **The score-range operations agree with filtering**: the nodes are the
    members in the order of score and member, `Count` is the number of those
    within the bounds, `RangeByScore` drops and cuts them, `RemRangeByScore`
    removes and counts them. -/
structure ScoreRanged (z : ZSet F) (min max : F) : Prop where
  sorted : z.nodes.Pairwise fun p q => before (z.mem q).score (z.mem q).member (z.mem p) = true
  distinct : (z.nodes.map fun p => (z.mem p).member).Nodup
  elements : ∀ m s, z.dict m = some s ↔
    ∃ p ∈ z.nodes, (z.mem p).member = m ∧ (z.mem p).score = s
  count : z.count min max = (inScoreRange z min max).length
  range : ∀ offset count, z.rangeByScore min max offset count =
    cut count ((inScoreRange z min max).drop offset.toNat)
  removed : (z.remRangeByScore min max).2 = (inScoreRange z min max).length
  remaining : ∀ m s, (z.remRangeByScore min max).1.dict m = some s ↔
    z.dict m = some s ∧ within min max s = false
  nodes : (z.remRangeByScore min max).1.nodes =
    z.nodes.filter fun p => !within min max (z.mem p).score
  labels : SameLabels z (z.remRangeByScore min max).1 z.nodes

/-- `Count` is the number of nodes the walk keeps. -/
theorem count_eq_hits (z : ZSet F) (min max : F) :
    z.count min max = (hits z min max z.nodes).length := by
  unfold ZSet.count
  rw [collect_eq_hits, List.length_map]

/-- A walk that keeps the nodes within the bounds makes the operations agree. -/
theorem Repr.scoreRanged (h : Repr z ps) {min max : F}
    (hhits : hits z min max z.nodes = inScoreRange z min max) : ScoreRanged z min max := by
  have hnodes := h.nodes_eq
  have hsub : inScoreRange z min max ⊆ ps := by
    unfold inScoreRange
    rw [hnodes]
    exact List.filter_subset_self _
  have hrem : z.remRangeByScore min max =
      z.removeAll ((inScoreRange z min max).map fun p => (z.mem p).member) := by
    unfold ZSet.remRangeByScore
    rw [collect_eq_hits, hhits]
  have hmembers : ((inScoreRange z min max).map fun p => (z.mem p).member).Nodup := by
    unfold inScoreRange
    rw [hnodes]
    exact h.members_nodup.sublist (List.filter_sublist.map _)
  -- a node is within the bounds iff its member is one of those removed
  have hin : ∀ p ∈ ps, (z.mem p).member ∈
      (inScoreRange z min max).map (fun p => (z.mem p).member) ↔
        within min max (z.mem p).score = true := by
    intro p hp
    rw [List.mem_map]
    constructor
    · rintro ⟨q, hq, he⟩
      have hqp := List.inj_on_of_nodup_map h.members_nodup (hsub hq) hp he
      exact hqp ▸ (List.mem_filter.mp hq).2
    · exact fun hw => ⟨p, List.mem_filter.mpr ⟨hnodes.symm ▸ hp, hw⟩, rfl⟩
  refine ⟨?_, ?_, ?_, ?_, ?_, ?_, ?_, ?_, ?_⟩
  · rw [hnodes]
    exact h.sorted
  · rw [hnodes]
    exact h.members_nodup
  · rw [hnodes]
    exact h.dict
  · rw [count_eq_hits, hhits]
  · intro offset count
    rw [rangeByScore_eq, hhits]
  · have hthere : ∀ m ∈ (inScoreRange z min max).map (fun p => (z.mem p).member),
        (z.dict m).isSome = true := by
      intro m hm
      obtain ⟨p, hp, rfl⟩ := List.mem_map.mp hm
      rw [(h.dict _ _).mpr ⟨p, hsub hp, rfl, rfl⟩]
      rfl
    rw [hrem, h.removeAll_count _ hmembers hthere, List.length_map]
  · intro m s
    rw [hrem, h.removeAll_dict]
    constructor
    · intro hd
      by_cases hm : m ∈ (inScoreRange z min max).map fun p => (z.mem p).member
      · rw [if_pos hm] at hd
        cases hd
      · rw [if_neg hm] at hd
        obtain ⟨p, hp, rfl, rfl⟩ := (h.dict m s).mp hd
        exact ⟨hd, Bool.eq_false_iff.mpr fun hw => hm ((hin p hp).mpr hw)⟩
    · rintro ⟨hd, hw⟩
      obtain ⟨p, hp, rfl, rfl⟩ := (h.dict m s).mp hd
      rw [if_neg fun hm => Bool.eq_false_iff.mp hw ((hin p hp).mp hm), hd]
  · rw [hrem, (h.removeAll _).1.nodes_eq, hnodes]
    refine List.filter_congr fun p hp => ?_
    cases hw : within min max (z.mem p).score with
    | true => exact decide_eq_false fun hout => hout ((hin p hp).mpr hw)
    | false => exact decide_eq_true fun hm => Bool.eq_false_iff.mp hw ((hin p hp).mp hm)
  · rw [hrem]
    exact (h.removeAll _).2 _

/-- **SCORE RANGES AGREE WITH FILTERING EXACTLY WHEN THE UPPER BOUND IS A
    NUMBER OR NOTHING REACHES THE LOWER ONE**, after every run from the empty
    set in which no NaN becomes a score. -/
theorem scoreRanged_iff (ops : List (ZOp F))
    (hfine : Run (fun z op => op.Fine z) (newZSet : ZSet F) ops) (min max : F) :
    ScoreRanged (runZ newZSet ops) min max ↔
      IsNum max ∨ ∀ m s, (runZ newZSet ops).dict m = some s → ge s min = false := by
  obtain ⟨ps, h⟩ := newZSet_repr.run ops hfine
  generalize runZ newZSet ops = z at h ⊢
  have hnodes := h.nodes_eq
  by_cases hmax : IsNum max
  · refine iff_of_true (h.scoreRanged ?_) (.inl hmax)
    unfold inScoreRange
    rw [hnodes]
    exact hits_eq_filter hmax h.sorted h.numeric
  · have hempty : inScoreRange z min max = [] :=
      List.filter_eq_nil_iff.mpr fun p _ => by rw [within_nan hmax]; exact Bool.false_ne_true
    have hhits : hits z min max z.nodes = [] ↔
        ∀ m s, z.dict m = some s → ge s min = false := by
      rw [hits_of_nan hmax, List.filter_eq_nil_iff, hnodes]
      constructor
      · intro hall m s hd
        obtain ⟨p, hp, rfl, rfl⟩ := (h.dict m s).mp hd
        exact Bool.eq_false_iff.mpr (hall p hp)
      · intro hall p hp
        exact Bool.eq_false_iff.mp (hall _ _ ((h.dict _ _).mpr ⟨p, hp, rfl, rfl⟩))
    rw [or_iff_right hmax, ← hhits]
    constructor
    · intro hranged
      have hcount := hranged.count
      rw [count_eq_hits, hempty, List.length_nil] at hcount
      exact List.eq_nil_of_length_eq_zero (Int.ofNat_inj.mp hcount)
    · intro hnil
      exact h.scoreRanged (hnil.trans hempty.symm)

/-- Two members within the bounds, one above. -/
theorem scoreRanged_iff_three :
    Run (fun z op => op.Fine z) (newZSet : ZSet IntScore)
      [.add [97] (some 1) 1, .add [98] (some 2) 3, .add [99] (some 5) 2] ∧
    ScoreRanged (runZ (newZSet : ZSet IntScore)
      [.add [97] (some 1) 1, .add [98] (some 2) 3, .add [99] (some 5) 2]) (some 1) (some 4) := by
  have hfine : Run (fun z op => op.Fine z) (newZSet : ZSet IntScore)
      [.add [97] (some 1) 1, .add [98] (some 2) 3, .add [99] (some 5) 2] :=
    ⟨⟨⟨(1 : Int), rfl⟩, by decide, by decide⟩, ⟨⟨(2 : Int), rfl⟩, by decide, by decide⟩,
      ⟨⟨(5 : Int), rfl⟩, by decide, by decide⟩, trivial⟩
  exact ⟨hfine, (scoreRanged_iff _ hfine _ _).mpr (.inl ⟨(4 : Int), rfl⟩)⟩

/-- `ZADD k 1 a`, then `ZCOUNT k 0 nan`: no score is at most NaN, and yet one
    member is counted. -/
theorem count_up_to_nan :
    Run (fun z op => op.Fine z) (newZSet : ZSet IntScore) [.add [97] (some 1) 1] ∧
    (runZ (newZSet : ZSet IntScore) [.add [97] (some 1) 1]).count (some 0) none = 1 ∧
      inScoreRange (runZ (newZSet : ZSet IntScore) [.add [97] (some 1) 1]) (some 0) none = [] :=
  ⟨⟨⟨⟨(1 : Int), rfl⟩, by decide, by decide⟩, trivial⟩, by decide, by decide⟩

end TinyZSet
