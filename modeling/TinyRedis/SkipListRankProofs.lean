import TinyRedis.SkipListSpansProofs

/-! # Ranks

    With exact spans the searches of `Rank` and `Range` agree with the plain
    order of the nodes, and so do `RevRank`, `RevRange` and `RemRangeByRank`,
    which are made of them.  `slice` is the plain meaning of a rank interval.

    The spans are exact in every run in which each node taken out is
    `LastTall`; in the other runs a link keeps counting a node that is gone,
    and `Rank` with it. -/

namespace TinyZSet

open GoString GoFloat LinkedChain

variable {F : Type} [Float64 F] {z : ZSet F} {ps : List Nat}

/-- The elements at a rank interval, its ends normalised. -/
def slice (l : List Nat) (start stop : Int) : List Nat :=
  match ZSet.normalise l.length start stop with
  | none => []
  | some (a, b) => (l.drop a.toNat).take (b - a + 1).toNat

/-- **Ranking agrees with the plain order.** -/
structure Ranked (z : ZSet F) : Prop where
  sorted : z.nodes.Pairwise fun p q => before (z.mem q).score (z.mem q).member (z.mem p) = true
  elements : ∀ m s, z.dict m = some s ↔
    ∃ p ∈ z.nodes, (z.mem p).member = m ∧ (z.mem p).score = s
  length : z.length = z.nodes.length
  rank : ∀ m s, z.dict m = some s →
    z.rank m = (z.nodes.filter fun p => before s m (z.mem p)).length
  revRank : ∀ m s, z.dict m = some s → z.revRank m = z.length - 1 - z.rank m
  range : ∀ start stop, z.range start stop = slice z.nodes start stop
  revRange : ∀ start stop, z.revRange start stop = slice z.nodes.reverse start stop
  remRange : ∀ start stop, (z.remRangeByRank start stop).1.nodes =
    z.nodes.filter fun p => decide (p ∉ slice z.nodes start stop)
  remDict : ∀ start stop m s, (z.remRangeByRank start stop).1.dict m = some s ↔
    z.dict m = some s ∧ ∀ p ∈ slice z.nodes start stop, (z.mem p).member ≠ m

/-! ## Reading a chain -/

omit [Float64 F] in
/-- A loop along level 0 visits the chain. -/
theorem nodesFrom_chain : ∀ {fuel : Nat} {p : Nat} {l : List Nat},
    Chain (fun p => (z.mem p).forward 0) p l → l.length ≤ fuel →
    z.nodesFrom fuel ((z.mem p).forward 0) = l := by
  intro fuel
  induction fuel with
  | zero =>
    intro p l _ hl
    rw [List.eq_nil_of_length_eq_zero (Nat.le_zero.mp hl)]
    rfl
  | succ fuel ih =>
    intro p l hc hl
    cases l with
    | nil =>
      have hp : (z.mem p).forward 0 = none := hc
      rw [hp]
      rfl
    | cons q l =>
      have hp : (z.mem p).forward 0 = some q := hc.1
      rw [hp]
      exact congrArg (q :: ·) (ih hc.2 (Nat.le_of_succ_le_succ hl))

/-- The level-0 chain is the whole sequence. -/
theorem Repr.chain_zero (h : Repr z ps) :
    Chain (fun p => (z.mem p).forward 0) header ps := by
  have hchain := h.chains 0
  rwa [h.towers.onLevel_zero (List.Subset.refl ps)] at hchain

/-- The nodes of the set are the sequence it represents. -/
theorem Repr.nodes_eq (h : Repr z ps) : z.nodes = ps :=
  nodesFrom_chain h.chain_zero h.towers.length_le_fresh

/-! ## Normalised intervals -/

theorem normalise_spec {n start stop a b : Int} (h : ZSet.normalise n start stop = some (a, b)) :
    0 ≤ a ∧ a ≤ b ∧ b < n := by
  unfold ZSet.normalise at h
  simp only at h
  by_cases hc : (if (if start < 0 then n + start else start) < 0 then 0
      else if start < 0 then n + start else start) >
        (if (if stop < 0 then n + stop else stop) ≥ n then n - 1
          else if stop < 0 then n + stop else stop) ∨
      (if (if start < 0 then n + start else start) < 0 then 0
        else if start < 0 then n + start else start) ≥ n
  · rw [if_pos hc] at h
    cases h
  · rw [if_neg hc] at h
    obtain ⟨rfl, rfl⟩ := Prod.mk.inj (Option.some.inj h)
    refine ⟨?_, ?_, ?_⟩ <;> split_ifs at * <;> omega

/-- A normal interval stays as it is. -/
theorem normalise_normal {n a b : Int} (h0 : 0 ≤ a) (hab : a ≤ b) (hb : b < n) :
    ZSet.normalise n a b = some (a, b) := by
  unfold ZSet.normalise
  simp only [if_neg (not_lt.mpr h0), if_neg (not_lt.mpr (le_trans h0 hab)),
    if_neg (not_le.mpr hb), if_neg (show ¬ (a > b ∨ a ≥ n) by omega), ge_iff_le]

theorem slice_of_normalise {l : List Nat} {start stop a b : Int}
    (h : ZSet.normalise l.length start stop = some (a, b)) :
    slice l start stop = (l.drop a.toNat).take (b - a + 1).toNat := by
  unfold slice
  rw [h]

/-- Normalising twice selects the same. -/
theorem slice_normalised {l : List Nat} {start stop a b : Int}
    (h : ZSet.normalise l.length start stop = some (a, b)) : slice l a b = slice l start stop := by
  obtain ⟨h0, hab, hb⟩ := normalise_spec h
  rw [slice_of_normalise h, slice_of_normalise (normalise_normal h0 hab hb)]

/-- A rank interval of the reversed sequence. -/
theorem slice_reverse {l : List Nat} {a b : Int} (h0 : 0 ≤ a) (hab : a ≤ b) (hb : b < l.length) :
    (slice l (l.length - b - 1) (l.length - a - 1)).reverse = slice l.reverse a b := by
  have hr : ZSet.normalise l.reverse.length a b = some (a, b) :=
    normalise_normal h0 hab (by rw [List.length_reverse]; exact hb)
  rw [slice_of_normalise (normalise_normal (by omega) (by omega) (by omega)),
    slice_of_normalise hr]
  obtain ⟨i, rfl⟩ := Int.eq_ofNat_of_zero_le h0
  obtain ⟨j, rfl⟩ := Int.eq_ofNat_of_zero_le (le_trans h0 hab)
  have h1 : ((l.length : Int) - j - 1).toNat = l.length - j - 1 := by omega
  have h2 : ((l.length : Int) - i - 1 - (l.length - j - 1) + 1).toNat = j - i + 1 := by omega
  have h3 : ((j : Int) - i + 1).toNat = j - i + 1 := by omega
  rw [h1, h2, h3, List.reverse_take, List.reverse_drop, List.drop_take, List.length_drop]
  congr 1
  · omega
  · congr 1
    omega

/-! ## Rank and Range -/

theorem upTo_iff {s : F} {m : Bytes} {n : ZSetNode F} :
    ZSet.upTo s m n = true ↔ before s m n = true ∨ (eq n.score s = true ∧ n.member = m) := by
  unfold ZSet.upTo before
  simp only [Bool.or_eq_true, Bool.and_eq_true, decide_eq_true_iff, le_iff_lt_or_eq]
  tauto

/-- **`Rank`** is the number of nodes in front. -/
theorem Repr.rank_eq {A B : List Nat} {c : Nat} (h : Repr z (A ++ c :: B))
    (hsp : SpansOk z (A ++ c :: B)) : z.rank (z.mem c).member = A.length := by
  have hcmem : c ∈ A ++ c :: B := List.mem_append_right A List.mem_cons_self
  have hd := (h.dict _ _).mpr ⟨c, hcmem, rfl, rfl⟩
  have hcut := h.cut
  have hnd := h.nodup
  have hnum : eq (z.mem c).score (z.mem c).score = true := by
    obtain ⟨x, hx⟩ := h.numeric c hcmem
    exact eq_iff.mpr ⟨x, hx, hx⟩
  have hmid : A ++ c :: B = (A ++ [c]) ++ B := by rw [List.append_assoc]; rfl
  have hmembers := h.members_nodup
  have hpos : pos (A ++ c :: B) c = A.length + 1 := pos_inserted hnd
  rw [hmid] at h hsp hpos
  have hA' : ∀ q ∈ A ++ [c], ZSet.upTo (z.mem c).score (z.mem c).member (z.mem q) = true := by
    intro q hq
    rcases List.mem_append.mp hq with hq | hq
    · exact upTo_iff.mpr (.inl (hcut.passed q hq))
    · rw [List.mem_singleton.mp hq]
      exact upTo_iff.mpr (.inr ⟨hnum, rfl⟩)
  have hB' : ∀ q ∈ B, ZSet.upTo (z.mem c).score (z.mem c).member (z.mem q) = false := by
    intro q hq
    refine Bool.eq_false_iff.mpr fun hup => ?_
    rcases upTo_iff.mp hup with hlt | ⟨_, hm⟩
    · rw [hcut.behind q (List.mem_cons_of_mem c hq)] at hlt
      cases hlt
    · rw [List.map_append, List.map_cons] at hmembers
      have hnot := (List.nodup_cons.mp (List.nodup_append.mp hmembers).2.1).1
      exact hnot (List.mem_map.mpr ⟨q, hq, hm⟩)
  have hsub := List.subset_append_left (A ++ [c]) B
  have hend : z.search (fun n _ => ZSet.upTo (z.mem c).score (z.mem c).member n) z.level
      header 0 0 = (c, (A.length : Int) + 1) := by
    rw [h.towers.search_pos hsp hA' hB' h.level_pos, h.towers.onLevel_zero hsub, lastFrom_append,
      lastFrom_cons, lastFrom_nil, hpos]
  unfold ZSet.rank
  simp only [hd, hend, if_true]
  ring

/-- **`Range`** returns the nodes at the interval. -/
theorem Repr.range_eq (h : Repr z ps) (hsp : SpansOk z ps) (start stop : Int) :
    z.range start stop = slice ps start stop := by
  unfold ZSet.range
  rw [h.length]
  cases hn : ZSet.normalise (ps.length : Int) start stop with
  | none =>
    unfold slice
    rw [hn]
  | some r =>
    obtain ⟨a, b⟩ := r
    obtain ⟨h0, hab, hb⟩ := normalise_spec hn
    rw [slice_of_normalise hn]
    have hsplit : ps.take a.toNat ++ ps.drop a.toNat = ps := List.take_append_drop ..
    have hlen : (ps.take a.toNat).length = a.toNat := by
      rw [List.length_take]
      omega
    have hrep := h
    have hspans := hsp
    have hnd := h.nodup
    rw [← hsplit] at hrep hspans hnd
    -- the search passes the nodes whose position is at most `a`
    have hA : ∀ q ∈ ps.take a.toNat,
        decide (pos (ps.take a.toNat ++ ps.drop a.toNat) q ≤ a) = true := by
      intro q hq
      have hlt := List.idxOf_lt_length_iff.mpr (List.mem_cons_of_mem header hq)
      rw [List.length_cons, hlen] at hlt
      rw [pos_left _ (List.mem_cons_of_mem header hq), pos]
      refine decide_eq_true ?_
      omega
    have hB : ∀ q ∈ ps.drop a.toNat,
        decide (pos (ps.take a.toNat ++ ps.drop a.toNat) q ≤ a) = false := by
      intro q hq
      rw [pos_right hnd hq, hlen]
      refine decide_eq_false ?_
      omega
    have hsub := List.subset_append_left (ps.take a.toNat) (ps.drop a.toNat)
    have hsearch : (z.search (fun _ r => decide (r ≤ a)) z.level header 0 0).1 =
        lastFrom header (ps.take a.toNat) := by
      rw [hrep.towers.search_pos hspans hA hB h.level_pos, hrep.towers.onLevel_zero hsub]
    have hrest := (chain_append.mp hrep.chain_zero).2
    have hfuel : (ps.drop a.toNat).length ≤ z.fresh := by
      rw [List.length_drop]
      exact le_trans (Nat.sub_le ..) h.towers.length_le_fresh
    simp only [hsearch]
    rw [nodesFrom_chain hrest hfuel]

/-- **`RevRange`** returns the nodes of the reversed sequence. -/
theorem Repr.revRange_eq (h : Repr z ps) (hsp : SpansOk z ps) (start stop : Int) :
    z.revRange start stop = slice ps.reverse start stop := by
  unfold ZSet.revRange
  rw [h.length]
  cases hn : ZSet.normalise (ps.length : Int) start stop with
  | none =>
    unfold slice
    rw [List.length_reverse, hn]
  | some r =>
    obtain ⟨a, b⟩ := r
    obtain ⟨h0, hab, hb⟩ := normalise_spec hn
    have hn' : ZSet.normalise ps.reverse.length start stop = some (a, b) := by
      rw [List.length_reverse]
      exact hn
    show (z.range _ _).reverse = _
    rw [h.range_eq hsp, slice_reverse h0 hab hb, slice_normalised hn']

/-- **`RemRangeByRank`** removes the members of the nodes at the interval. -/
theorem Repr.remRangeByRank_eq (h : Repr z ps) (hsp : SpansOk z ps) (start stop : Int) :
    z.remRangeByRank start stop =
      z.removeAll ((slice ps start stop).map fun p => (z.mem p).member) := by
  unfold ZSet.remRangeByRank
  rw [h.length]
  cases hn : ZSet.normalise (ps.length : Int) start stop with
  | none =>
    unfold slice
    rw [hn]
    rfl
  | some r =>
    obtain ⟨a, b⟩ := r
    show z.removeAll ((z.range a b).map _) = _
    rw [h.range_eq hsp, slice_normalised hn]

theorem slice_subset (l : List Nat) (start stop : Int) : slice l start stop ⊆ l := by
  unfold slice
  cases ZSet.normalise (l.length : Int) start stop with
  | none => exact List.nil_subset l
  | some r => exact fun p hp => List.mem_of_mem_drop (List.mem_of_mem_take hp)

/-- Nodes taken out by member are the nodes themselves. -/
theorem Repr.without_members {ps L : List Nat} (h : Repr z ps) (hL : L ⊆ ps) :
    without z (L.map fun p => (z.mem p).member) ps = ps.filter fun p => decide (p ∉ L) := by
  refine List.filter_congr fun p hp => ?_
  rw [decide_eq_decide]
  refine not_congr ⟨fun hin => ?_, fun hin => List.mem_map.mpr ⟨p, hin, rfl⟩⟩
  obtain ⟨q, hq, he⟩ := List.mem_map.mp hin
  exact List.inj_on_of_nodup_map h.members_nodup (hL hq) hp he ▸ hq

/-- **Exact spans rank.** -/
theorem Repr.ranked (h : Repr z ps) (hsp : SpansOk z ps) :
    Ranked z := by
  have hnodes := h.nodes_eq
  have hrank : ∀ m s, z.dict m = some s →
      z.rank m = (ps.filter fun p => before s m (z.mem p)).length := by
    intro m s hd
    obtain ⟨c, hc, rfl, rfl⟩ := (h.dict m s).mp hd
    obtain ⟨A, B, rfl⟩ := List.append_of_mem hc
    rw [h.rank_eq hsp, List.filter_append, List.filter_eq_self.mpr h.cut.passed,
      List.filter_eq_nil_iff.mpr fun q hq => by rw [h.cut.behind q hq]; exact Bool.false_ne_true,
      List.append_nil]
  have hrem : ∀ start stop, Repr (z.remRangeByRank start stop).1
      (ps.filter fun p => decide (p ∉ slice ps start stop)) ∧
      ∀ L, SameLabels z (z.remRangeByRank start stop).1 L := by
    intro start stop
    rw [h.remRangeByRank_eq hsp, ← h.without_members (slice_subset ps start stop)]
    exact h.removeAll _
  refine ⟨?_, ?_, ?_, ?_, ?_, ?_, ?_, ?_, ?_⟩
  · rw [hnodes]
    exact h.sorted
  · rw [hnodes]
    exact h.dict
  · rw [hnodes]
    exact h.length
  · rw [hnodes]
    exact hrank
  · intro m s hd
    have hpos := hrank m s hd
    unfold ZSet.revRank
    rw [if_neg (by omega)]
    ring
  · rw [hnodes]
    exact h.range_eq hsp
  · rw [hnodes]
    exact h.revRange_eq hsp
  · intro start stop
    rw [hnodes, (hrem start stop).1.nodes_eq]
  · intro start stop m s
    obtain ⟨hrep, hlabels⟩ := hrem start stop
    have hlabels' : ∀ p, ((z.remRangeByRank start stop).1.mem p).member = (z.mem p).member ∧
        ((z.remRangeByRank start stop).1.mem p).score = (z.mem p).score := fun p =>
      ⟨(hlabels [p] p (List.mem_singleton_self p)).1,
        (hlabels [p] p (List.mem_singleton_self p)).2.1⟩
    rw [hnodes, hrep.dict, h.dict]
    simp only [hlabels', List.mem_filter, decide_eq_true_iff]
    constructor
    · rintro ⟨p, ⟨hp, hout⟩, rfl, rfl⟩
      refine ⟨⟨p, hp, rfl, rfl⟩, fun q hq he => hout ?_⟩
      exact List.inj_on_of_nodup_map h.members_nodup (slice_subset ps start stop hq) hp he ▸ hq
    · rintro ⟨⟨p, hp, rfl, rfl⟩, hout⟩
      exact ⟨p, ⟨hp, fun hin => hout p hin rfl⟩, rfl, rfl⟩

/-! ## Runs -/

/-- No node behind the member's is taller than it. -/
def LastTall (z : ZSet F) (m : Bytes) : Prop :=
  z.nodes.Pairwise fun p q => (z.mem p).member = m → (z.mem q).level ≤ (z.mem p).level

/-- The members whose nodes a step takes out. -/
def ZOp.deletes (z : ZSet F) : ZOp F → List Bytes
  | .add m s _ =>
    match z.dict m with
    | some old => if eq old s then [] else [m]
    | none => []
  | .remove m => [m]
  | .incrBy m _ _ => [m]
  | .remRangeByScore min max => z.collect min max z.nodes
  | .remRangeByRank start stop => (slice z.nodes start stop).map fun p => (z.mem p).member

/-- Every node the step takes out has no taller one behind it. -/
def ZOp.Clean (z : ZSet F) (op : ZOp F) : Prop := ∀ m ∈ op.deletes z, LastTall z m

/-- Deletion of such a node keeps invariant and spans. -/
theorem Repr.deleteNode_spans (h : Repr z ps) (hsp : SpansOk z ps) {m : Bytes} {s : F}
    (hd : z.dict m = some s) (ht : LastTall z m) :
    ∃ ps', Repr (z.deleteNode m s) ps' ∧ SpansOk (z.deleteNode m s) ps' := by
  obtain ⟨A, c, B, u, rfl, rfl, _, hupd, hdel, hrep⟩ := h.deleteNode hd
  unfold LastTall at ht
  rw [h.nodes_eq] at ht
  have hbehind : ∀ q ∈ B, (z.mem q).level ≤ (z.mem c).level := fun q hq =>
    (List.pairwise_cons.mp (List.pairwise_append.mp ht).2.1).1 q hq rfl
  refine ⟨A ++ B, hrep, ?_⟩
  rw [hdel]
  exact h.detach_spans hsp hbehind hupd

/-- `Add` of a new member keeps invariant and spans. -/
theorem Repr.insertNew_spans (h : Repr z ps) (hsp : SpansOk z ps) {m : Bytes} {s : F} {l : Nat}
    (hs : IsNum s) (hl : IsLevel l) (hm : z.dict m = none) :
    ∃ ps', Repr (z.insertNode m s l) ps' ∧ SpansOk (z.insertNode m s l) ps' := by
  obtain ⟨A, B, rfl, hcut, hrep⟩ := h.insertNew hs hl hm
  exact ⟨_, hrep, h.towers.insertNode_spans hsp hl.1 hcut⟩

/-- Deletion, then insertion of the member with another score. -/
theorem Repr.reinsert_spans (h : Repr z ps) (hsp : SpansOk z ps) {m : Bytes} {old s : F} {l : Nat}
    (hd : z.dict m = some old) (ht : LastTall z m) (hs : IsNum s) (hl : IsLevel l) :
    ∃ ps', Repr ((z.deleteNode m old).insertNode m s l) ps' ∧
      SpansOk ((z.deleteNode m old).insertNode m s l) ps' := by
  obtain ⟨ps', hrep, hsp'⟩ := h.deleteNode_spans hsp hd ht
  refine hrep.insertNew_spans hsp' hs hl ?_
  rw [h.deleteNode_dict hd, Function.update_self]

/-- A removal leaves the other members as tall as they were. -/
theorem Repr.lastTall_remove (h : Repr z ps) (m : Bytes) {k : Bytes} (hk : LastTall z k) :
    LastTall (z.remove m).1 k := by
  obtain ⟨hrep, hlabels⟩ := h.remove m
  unfold LastTall at hk ⊢
  rw [h.nodes_eq] at hk
  rw [hrep.nodes_eq]
  refine (hk.sublist (List.filter_sublist)).imp fun {p q} hpq hm => ?_
  rw [(hlabels [p] p (List.mem_singleton_self p)).1] at hm
  rw [(hlabels [p] p (List.mem_singleton_self p)).2.2,
    (hlabels [q] q (List.mem_singleton_self q)).2.2]
  exact hpq hm

/-- Removing such members one after the other keeps invariant and spans. -/
theorem Repr.removeAll_spans (ms : List Bytes) : ∀ {z : ZSet F} {ps : List Nat}, Repr z ps →
    SpansOk z ps → (∀ m ∈ ms, LastTall z m) →
    ∃ ps', Repr (z.removeAll ms).1 ps' ∧ SpansOk (z.removeAll ms).1 ps' := by
  induction ms with
  | nil => exact fun {_ ps} h hsp _ => ⟨ps, h, hsp⟩
  | cons m ms ih =>
    intro z ps h hsp ht
    have hstep : ∃ ps', Repr (z.remove m).1 ps' ∧ SpansOk (z.remove m).1 ps' := by
      unfold ZSet.remove
      cases hd : z.dict m with
      | none => exact ⟨ps, h, hsp⟩
      | some s => exact h.deleteNode_spans hsp hd (ht m List.mem_cons_self)
    obtain ⟨ps', h', hsp'⟩ := hstep
    exact ih h' hsp' fun k hk => h.lastTall_remove m (ht k (List.mem_cons_of_mem m hk))

/-- **One step** keeps invariant and spans. -/
theorem Repr.apply_spans (h : Repr z ps) (hsp : SpansOk z ps) {op : ZOp F} (hf : op.Fine z)
    (hc : op.Clean z) :
    ∃ ps', Repr (op.apply z) ps' ∧ SpansOk (op.apply z) ps' := by
  cases op with
  | add m s l =>
    show ∃ ps', Repr (z.add m s l).1 ps' ∧ SpansOk (z.add m s l).1 ps'
    unfold ZSet.add
    unfold ZOp.Clean ZOp.deletes at hc
    cases hd : z.dict m with
    | none => exact h.insertNew_spans hsp hf.1 hf.2 hd
    | some old =>
      simp only [hd] at hc
      by_cases heq : eq old s = true
      · simp only [if_pos heq]
        exact ⟨ps, h, hsp⟩
      · simp only [if_neg heq] at hc ⊢
        exact h.reinsert_spans hsp hd (hc m (List.mem_singleton_self m)) hf.1 hf.2
  | remove m => exact h.removeAll_spans [m] hsp hc
  | incrBy m d l =>
    show ∃ ps', Repr (z.incrBy m d l).1 ps' ∧ SpansOk (z.incrBy m d l).1 ps'
    obtain ⟨hs, hl⟩ := hf
    unfold ZSet.incremented at hs
    unfold ZSet.incrBy
    cases hd : z.dict m with
    | none =>
      rw [hd] at hs
      simp only [ZSet.add, hd]
      exact h.insertNew_spans hsp hs hl hd
    | some old =>
      rw [hd] at hs
      have hnone : (z.deleteNode m old).dict m = none := by
        rw [h.deleteNode_dict hd, Function.update_self]
      simp only [ZSet.add, hnone]
      exact h.reinsert_spans hsp hd (hc m (List.mem_singleton_self m)) hs hl
  | remRangeByScore min max => exact h.removeAll_spans _ hsp hc
  | remRangeByRank start stop =>
    show ∃ ps', Repr (z.remRangeByRank start stop).1 ps' ∧
      SpansOk (z.remRangeByRank start stop).1 ps'
    rw [h.remRangeByRank_eq hsp]
    refine h.removeAll_spans _ hsp ?_
    unfold ZOp.Clean ZOp.deletes at hc
    rwa [h.nodes_eq] at hc

/-- The empty set has no links. -/
theorem newZSet_spans : SpansOk (newZSet : ZSet F) [] := by
  intro i p q _ hq
  cases hq

/-- **Every clean run** keeps invariant and spans. -/
theorem Repr.run_spans (ops : List (ZOp F)) : ∀ {z : ZSet F} {ps : List Nat}, Repr z ps →
    SpansOk z ps → Run (fun z op => op.Fine z ∧ op.Clean z) z ops →
    ∃ ps', Repr (runZ z ops) ps' ∧ SpansOk (runZ z ops) ps' := by
  induction ops with
  | nil => exact fun {_ ps} h hsp _ => ⟨ps, h, hsp⟩
  | cons op ops ih =>
    intro z ps h hsp hr
    obtain ⟨ps', h', hsp'⟩ := h.apply_spans hsp hr.1.1 hr.1.2
    exact ih h' hsp' hr.2

/-- **RANKING**: after every run in which each node taken out has no taller one
    behind it, ranks, rank intervals and removals by rank are those of the
    plain order. -/
theorem ranking_of_clean_run (ops : List (ZOp F))
    (hrun : Run (fun z op => op.Fine z ∧ op.Clean z) (newZSet : ZSet F) ops) :
    Ranked (runZ (newZSet : ZSet F) ops) := by
  obtain ⟨ps, h, hsp⟩ := newZSet_repr.run_spans ops newZSet_spans hrun
  exact h.ranked hsp

/-- The tall node in front may go. -/
theorem ranking_of_clean_run_front :
    Run (fun z op => op.Fine z ∧ op.Clean z) (newZSet : ZSet IntScore)
      [.add [97] (some 1) 2, .add [98] (some 2) 1, .remove [97]] ∧
    Ranked (runZ (newZSet : ZSet IntScore)
      [.add [97] (some 1) 2, .add [98] (some 2) 1, .remove [97]]) := by
  have hrun : Run (fun z op => op.Fine z ∧ op.Clean z) (newZSet : ZSet IntScore)
      [.add [97] (some 1) 2, .add [98] (some 2) 1, .remove [97]] := by
    refine ⟨⟨⟨⟨(1 : Int), rfl⟩, by decide, by decide⟩, ?_⟩,
      ⟨⟨⟨(2 : Int), rfl⟩, by decide, by decide⟩, ?_⟩, ⟨trivial, ?_⟩, trivial⟩
    · intro m hm
      cases hm
    · intro m hm
      cases hm
    · intro m hm
      rw [List.mem_singleton.mp hm]
      unfold LastTall
      decide
  exact ⟨hrun, ranking_of_clean_run _ hrun⟩

/-- **A LOWER NODE TAKEN OUT IN FRONT OF A TALLER ONE** stays counted: with `a` on
    one level and `b` on two, after `Remove(a)` the set holds `b` alone and
    `Rank(b)` is 1. -/
theorem rank_after_lower_removed :
    Run (fun z op => op.Fine z) (newZSet : ZSet IntScore)
      [.add [97] (some 1) 1, .add [98] (some 2) 2, .remove [97]] ∧
    (runZ (newZSet : ZSet IntScore)
      [.add [97] (some 1) 1, .add [98] (some 2) 2, .remove [97]]).length = 1 ∧
    (runZ (newZSet : ZSet IntScore)
      [.add [97] (some 1) 1, .add [98] (some 2) 2, .remove [97]]).rank [98] = 1 ∧
    ¬ Ranked (runZ (newZSet : ZSet IntScore)
      [.add [97] (some 1) 1, .add [98] (some 2) 2, .remove [97]]) := by
  have hrank : (runZ (newZSet : ZSet IntScore)
      [.add [97] (some 1) 1, .add [98] (some 2) 2, .remove [97]]).rank [98] = 1 := by decide
  refine ⟨⟨⟨⟨(1 : Int), rfl⟩, by decide, by decide⟩, ⟨⟨(2 : Int), rfl⟩, by decide, by decide⟩,
    trivial, trivial⟩, by decide, hrank, fun h => ?_⟩
  have hplain := h.rank [98] (some 2) (by decide)
  rw [hrank] at hplain
  revert hplain
  decide

end TinyZSet
