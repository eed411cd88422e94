import TinyRedis.SkipListOpsProofs

/-! # Runs of the skip list

    Every operation on a set is made of insertions and deletions, so it keeps
    the invariant; by induction every run does.  A step is `Fine` when its
    random level is one `randomLevel` returns and no NaN becomes a score. -/

namespace TinyZSet

open GoString GoFloat LinkedChain

variable {F : Type} [Float64 F] {z : ZSet F} {ps : List Nat}

/-- A call on a set that may change it, with the outcome of `randomLevel`. -/
inductive ZOp (F : Type) where
  | add (member : Bytes) (score : F) (newLevel : Nat)
  | remove (member : Bytes)
  | incrBy (member : Bytes) (increment : F) (newLevel : Nat)
  | remRangeByScore (min max : F)
  | remRangeByRank (start stop : Int)

/-- The set after a call. -/
def ZOp.apply (z : ZSet F) : ZOp F → ZSet F
  | .add m s l => (z.add m s l).1
  | .remove m => (z.remove m).1
  | .incrBy m d l => (z.incrBy m d l).1
  | .remRangeByScore min max => (z.remRangeByScore min max).1
  | .remRangeByRank start stop => (z.remRangeByRank start stop).1

/-- The score `IncrBy` gives a member. -/
def ZSet.incremented (z : ZSet F) (m : Bytes) (d : F) : F :=
  match z.dict m with
  | some old => Float64.add old d
  | none => d

/-- The outcomes of `randomLevel`. -/
def IsLevel (l : Nat) : Prop := 1 ≤ l ∧ l ≤ maxLevel

/-- The step stores a number, under a level that `randomLevel` returns. -/
def ZOp.Fine (z : ZSet F) : ZOp F → Prop
  | .add _ s l => IsNum s ∧ IsLevel l
  | .remove _ => True
  | .incrBy m d l => IsNum (z.incremented m d) ∧ IsLevel l
  | .remRangeByScore _ _ => True
  | .remRangeByRank _ _ => True

/-- A run of steps that are all `P`, each at the set before it. -/
def Run (P : ZSet F → ZOp F → Prop) : ZSet F → List (ZOp F) → Prop
  | _, [] => True
  | z, op :: ops => P z op ∧ Run P (op.apply z) ops

/-- The set after a run. -/
def runZ (z : ZSet F) (ops : List (ZOp F)) : ZSet F := ops.foldl ZOp.apply z

/-- `Add`. -/
theorem Repr.add (h : Repr z ps) {m : Bytes} {s : F} {l : Nat} (hs : IsNum s) (hl : IsLevel l) :
    ∃ ps', Repr (z.add m s l).1 ps' := by
  unfold ZSet.add
  cases hd : z.dict m with
  | none =>
    obtain ⟨A, B, _, _, h'⟩ := h.insertNew hs hl hd
    exact ⟨_, h'⟩
  | some old =>
    by_cases heq : eq old s = true
    · simp only [if_pos heq]
      exact ⟨ps, h⟩
    · simp only [if_neg heq]
      obtain ⟨A, c, B, u, _, _, _, _, _, hdel⟩ := h.deleteNode hd
      have hnone : (z.deleteNode m old).dict m = none := by
        rw [h.deleteNode_dict hd, Function.update_self]
      obtain ⟨A', B', _, _, h'⟩ := hdel.insertNew hs hl hnone
      exact ⟨_, h'⟩

/-- No member occurs twice. -/
theorem Repr.members_nodup (h : Repr z ps) :
    (ps.map fun p => (z.mem p).member).Nodup := by
  rw [List.nodup_iff_pairwise_ne, List.pairwise_map]
  refine h.sorted.imp_of_mem fun {p q} hp hq hpq he => ?_
  have h1 := (h.dict _ _).mpr ⟨p, hp, rfl, rfl⟩
  have h2 := (h.dict _ _).mpr ⟨q, hq, rfl, rfl⟩
  rw [he, h2] at h1
  rw [Option.some.inj h1, ← he, before_irrefl] at hpq
  cases hpq

/-- The nodes without those of some members. -/
def without (z : ZSet F) (ms : List Bytes) (ps : List Nat) : List Nat :=
  ps.filter fun p => decide ((z.mem p).member ∉ ms)

omit [Float64 F] in
/-- Members that no node has take no node away. -/
theorem without_eq_self {ms : List Bytes} (h : ∀ p ∈ ps, (z.mem p).member ∉ ms) :
    without z ms ps = ps :=
  List.filter_eq_self.mpr fun p hp => decide_eq_true (h p hp)

/-- Taking a node out is taking its member out. -/
theorem Repr.without_mid {A B : List Nat} {c : Nat} (h : Repr z (A ++ c :: B)) :
    without z [(z.mem c).member] (A ++ c :: B) = A ++ B := by
  have hnd := h.members_nodup
  rw [List.map_append, List.map_cons, List.nodup_middle, List.nodup_cons, ← List.map_append] at hnd
  have hrest : ∀ p ∈ A ++ B, (z.mem p).member ∉ [(z.mem c).member] := by
    intro p hp he
    exact hnd.1 (List.mem_map.mpr ⟨p, hp, List.mem_singleton.mp he⟩)
  unfold without
  rw [List.filter_append, List.filter_cons, if_neg (by simp), ← List.filter_append]
  exact without_eq_self hrest

/-- **`Remove`** takes out the member's node, if there is one. -/
theorem Repr.remove (h : Repr z ps) (m : Bytes) :
    Repr (z.remove m).1 (without z [m] ps) ∧ ∀ L, SameLabels z (z.remove m).1 L := by
  unfold ZSet.remove
  cases hd : z.dict m with
  | none =>
    have habsent : ∀ p ∈ ps, (z.mem p).member ∉ [m] := by
      intro p hp he
      have := (h.dict m (z.mem p).score).mpr ⟨p, hp, List.mem_singleton.mp he, rfl⟩
      rw [hd] at this
      cases this
    rw [without_eq_self habsent]
    exact ⟨h, fun _ _ _ => ⟨rfl, rfl, rfl⟩⟩
  | some s =>
    obtain ⟨A, c, B, u, rfl, rfl, _, _, hdel, hrep⟩ := h.deleteNode hd
    rw [h.without_mid]
    have hlabels := (detach_nodes z u c (z.mem c).member).1
    rw [← hdel] at hlabels
    exact ⟨hrep, fun L p _ => hlabels p⟩

/-- **Removing members** one after the other takes out their nodes. -/
theorem Repr.removeAll (ms : List Bytes) : ∀ {z : ZSet F} {ps : List Nat}, Repr z ps →
    Repr (z.removeAll ms).1 (without z ms ps) ∧ ∀ L, SameLabels z (z.removeAll ms).1 L := by
  induction ms with
  | nil =>
    intro z ps h
    rw [without_eq_self fun _ _ => List.not_mem_nil]
    exact ⟨h, fun _ _ _ => ⟨rfl, rfl, rfl⟩⟩
  | cons m ms ih =>
    intro z ps h
    obtain ⟨h1, hlabels1⟩ := h.remove m
    obtain ⟨h2, hlabels2⟩ := ih h1
    have hsplit : without (z.remove m).1 ms (without z [m] ps) = without z (m :: ms) ps := by
      unfold without
      rw [List.filter_filter]
      refine List.filter_congr fun p _ => ?_
      rw [(hlabels1 [p] p (List.mem_singleton_self p)).1, ← Bool.decide_and]
      simp only [List.mem_cons, List.not_mem_nil, or_false, not_or, and_comm]
    rw [hsplit] at h2
    exact ⟨h2, fun L => (hlabels1 L).trans (hlabels2 L)⟩

/-- `IncrBy`. -/
theorem Repr.incrBy (h : Repr z ps) {m : Bytes} {d : F} {l : Nat} (hs : IsNum (z.incremented m d))
    (hl : IsLevel l) : ∃ ps', Repr (z.incrBy m d l).1 ps' := by
  unfold ZSet.incremented at hs
  unfold ZSet.incrBy
  cases hd : z.dict m with
  | none =>
    rw [hd] at hs
    exact h.add hs hl
  | some old =>
    rw [hd] at hs
    obtain ⟨A, c, B, u, _, _, _, _, _, hdel⟩ := h.deleteNode hd
    exact hdel.add hs hl

/-- **One step** keeps the invariant. -/
theorem Repr.apply (h : Repr z ps) {op : ZOp F} (hf : op.Fine z) :
    ∃ ps', Repr (op.apply z) ps' := by
  cases op with
  | add m s l => exact h.add hf.1 hf.2
  | remove m => exact ⟨_, (h.remove m).1⟩
  | incrBy m d l => exact h.incrBy hf.1 hf.2
  | remRangeByScore min max => exact ⟨_, (h.removeAll _).1⟩
  | remRangeByRank start stop =>
    show ∃ ps', Repr (z.remRangeByRank start stop).1 ps'
    unfold ZSet.remRangeByRank
    cases ZSet.normalise z.length start stop with
    | none => exact ⟨ps, h⟩
    | some r => exact ⟨_, (h.removeAll _).1⟩

/-- **Every run** keeps the invariant. -/
theorem Repr.run (ops : List (ZOp F)) : ∀ {z : ZSet F} {ps : List Nat}, Repr z ps →
    Run (fun z op => op.Fine z) z ops → ∃ ps', Repr (runZ z ops) ps' := by
  induction ops with
  | nil => exact fun {_ ps} h _ => ⟨ps, h⟩
  | cons op ops ih =>
    intro z ps h hr
    obtain ⟨ps', h'⟩ := h.apply hr.1
    exact ih h' hr.2

/-- **THE SKIP LIST INVARIANT**, after every run from the empty set in which no
    NaN becomes a score: the level-0 chain is strictly increasing in score and
    member, every level's chain is the subsequence of the taller nodes, and
    map, length, tail and level are those of the chain.  So `deleteNode` finds
    the node the map promises, and no member occurs twice. -/
theorem skipList_invariant (ops : List (ZOp F))
    (hfine : Run (fun z op => op.Fine z) (newZSet : ZSet F) ops) :
    ∃ ps : List Nat,
      Chain (fun p => ((runZ newZSet ops).mem p).forward 0) header ps ∧
      (ps.Pairwise fun p q => before ((runZ newZSet ops).mem q).score
        ((runZ newZSet ops).mem q).member ((runZ newZSet ops).mem p) = true) ∧
      (∀ i, Chain (fun p => ((runZ newZSet ops).mem p).forward i) header
        (ps.filter fun p => decide (i < ((runZ newZSet ops).mem p).level))) ∧
      (∀ m s, (runZ newZSet ops).dict m = some s ↔
        ∃ p ∈ ps, ((runZ newZSet ops).mem p).member = m ∧
          ((runZ newZSet ops).mem p).score = s) ∧
      (runZ (newZSet : ZSet F) ops).length = ps.length ∧
      (runZ (newZSet : ZSet F) ops).tail = ps.getLast? ∧
      ((runZ (newZSet : ZSet F) ops).level = 1 ∨
        ∃ p ∈ ps, ((runZ newZSet ops).mem p).level = (runZ newZSet ops).level) ∧
      (∀ p ∈ ps, ((runZ newZSet ops).mem p).level ≤ (runZ newZSet ops).level) ∧
      (∀ m s, (runZ newZSet ops).dict m = some s → ∃ c ∈ ps, ∃ u : Nat → Nat,
        ((runZ newZSet ops).mem c).member = m ∧
          (runZ newZSet ops).deleteNode m s = (runZ newZSet ops).detach u c m) ∧
      (ps.map fun p => ((runZ newZSet ops).mem p).member).Nodup := by
  obtain ⟨ps, h⟩ := newZSet_repr.run ops hfine
  have hzero := h.chains 0
  rw [h.towers.onLevel_zero (List.Subset.refl ps)] at hzero
  refine ⟨ps, hzero, h.sorted, h.chains, h.dict, h.length, h.tail, h.level_max, h.level_le,
    fun m s hd => ?_, h.members_nodup⟩
  obtain ⟨A, c, B, u, rfl, hcm, _, _, hdel, _⟩ := h.deleteNode hd
  exact ⟨c, List.mem_append_right A List.mem_cons_self, u, hcm, hdel⟩

/-- A run with a taller node behind a lower one, a changed score and a range
    removal. -/
theorem skipList_invariant_run :
    Run (fun z op => op.Fine z) (newZSet : ZSet IntScore)
      [.add [97] (some 1) 1, .add [98] (some 2) 3, .incrBy [97] (some 4) 2,
        .remRangeByRank 0 0] ∧
    ∃ ps : List Nat, Chain (fun p => ((runZ (newZSet : ZSet IntScore)
      [.add [97] (some 1) 1, .add [98] (some 2) 3, .incrBy [97] (some 4) 2,
        .remRangeByRank 0 0]).mem p).forward 0) header ps := by
  have hfine : Run (fun z op => op.Fine z) (newZSet : ZSet IntScore)
      [.add [97] (some 1) 1, .add [98] (some 2) 3, .incrBy [97] (some 4) 2,
        .remRangeByRank 0 0] :=
    ⟨⟨⟨(1 : Int), rfl⟩, by decide, by decide⟩, ⟨⟨(2 : Int), rfl⟩, by decide, by decide⟩,
      ⟨⟨(5 : Int), by rfl⟩, by decide, by decide⟩, trivial, trivial⟩
  obtain ⟨ps, hchain, _⟩ := skipList_invariant _ hfine
  exact ⟨hfine, ps, hchain⟩

end TinyZSet
