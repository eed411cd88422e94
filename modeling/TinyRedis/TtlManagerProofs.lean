import TinyRedis.TtlShardProofs

/-! # The TTL index

    `TTLManager` spreads the deadlines over a power-of-two number of shards,
    by hash.  `ManagerOk` says that every shard is in order and holds only the
    keys that hash to it; every operation keeps it, from any state that has
    it, and so does every run.

    What the index is for is stated by `deadlineAfter`: the deadline last set
    for a key and not removed, or found expired, since. -/

namespace TinyTtl

open GoString TinyHash

/-- `TTLManager`, without the channel and the database it cleans. -/
structure TTLManager where
  shards : List TtlShard
  shardMask : Nat

/-- `ttlShardCount`. -/
def ttlShardCount (shardHint : Int) : Nat :=
  let shardHint := if shardHint ≤ 0 then 1 else shardHint
  let shardHint := if shardHint > 256 then 256 else shardHint
  let shardHint := if shardHint < 16 then 16 else shardHint
  2 ^ bitsLen (shardHint - 1).toNat

/-- `NewTTLManager`, for the configured number of shards. -/
def newTTLManager (shardHint : Int) : TTLManager :=
  ⟨List.replicate (ttlShardCount shardHint) TtlShard.new, ttlShardCount shardHint - 1⟩

section Manager

variable (sum64 : Bytes → UInt64)

namespace TTLManager

/-- `shardFor`. -/
def shardFor (tm : TTLManager) (key : Bytes) : TtlShard :=
  shardAt sum64 tm.shardMask TtlShard.new tm.shards key

/-- An operation on the shard of a key. -/
def onShard (tm : TTLManager) (key : Bytes) (f : TtlShard → TtlShard) : TTLManager :=
  { tm with shards := tm.shards.modify (shardIndex sum64 tm.shardMask key) f }

/-- `SetTTL`. -/
def setTTL (tm : TTLManager) (key : Bytes) (expireAt : Int) : TTLManager :=
  tm.onShard sum64 key fun s => s.setTTL key expireAt

/-- `RemoveTTL`. -/
def removeTTL (tm : TTLManager) (key : Bytes) : TTLManager :=
  tm.onShard sum64 key fun s => s.removeTTL key

/-- `ExpireAt`. -/
def expireAt (tm : TTLManager) (key : Bytes) : Option Int := (tm.shardFor sum64 key).expireAt key

/-- `CheckTTL`, at clock reading `now`. -/
def checkTTL (tm : TTLManager) (key : Bytes) (now : Int) : TTLManager × Bool :=
  (tm.onShard sum64 key fun s => (s.checkTTL key now).1,
    ((tm.shardFor sum64 key).checkTTL key now).2)

/-- The loop of `cleanup`: the shards left behind, the keys to delete from the
    database, and the earliest deadline seen. -/
def cleanupLoop (now : Int) : List TtlShard → Int → List TtlShard × List Bytes × Int
  | [], nextExpire => ([], [], nextExpire)
  | shard :: rest, nextExpire =>
    let c := shard.collectExpiredAndNext now
    let r := cleanupLoop now rest
      (if c.2.2 > 0 ∧ (nextExpire = 0 ∨ c.2.2 < nextExpire) then c.2.2 else nextExpire)
    (c.1 :: r.1, c.2.1 ++ r.2.1, r.2.2)

/-- `cleanup`, at clock reading `now`. -/
def cleanup (tm : TTLManager) (now : Int) : TTLManager × List Bytes × Int :=
  let r := cleanupLoop now tm.shards 0
  ({ tm with shards := r.1 }, r.2)

end TTLManager

/-! ## Shards by hash -/

/-- The index invariant: every shard in order, every key where it hashes to. -/
def ManagerOk (tm : TTLManager) : Prop :=
  Sharded sum64 ShardOk TtlShard.expireAt tm.shardMask tm.shards

variable {sum64}

theorem new_managerOk (sum64 : Bytes → UInt64) (shardHint : Int) :
    ManagerOk sum64 (newTTLManager shardHint) :=
  sharded_replicate new_ok (fun _ => rfl) _

/-- What `f` does to the deadlines of the key's shard it does to those of the
    index. -/
theorem onShard_ok {tm : TTLManager} (h : ManagerOk sum64 tm) {k : Bytes} {f : TtlShard → TtlShard}
    {v : Option Int} (hf : ShardOk (f (tm.shardFor sum64 k)))
    (hv : (f (tm.shardFor sum64 k)).expireAt =
      Function.update (tm.shardFor sum64 k).expireAt k v) :
    ManagerOk sum64 (tm.onShard sum64 k f) ∧
      ∀ k', (tm.onShard sum64 k f).expireAt sum64 k' =
        if k' = k then v else tm.expireAt sum64 k' :=
  Sharded.modify h TtlShard.new hf hv

/-! ## Cleanup -/

/-- The earliest of a set of deadlines, 0 standing for none. -/
def Earliest (S : Set Int) (next : Int) : Prop :=
  ((∀ e, e ∉ S) ∧ next = 0) ∨ IsLeast S next

/-- One comparison of `cleanup`: the earliest of two sets of positive
    deadlines. -/
theorem Earliest.union {S T : Set Int} {n c : Int} (hS : Earliest S n) (hT : Earliest T c)
    (hpS : ∀ e ∈ S, 0 < e) (hpT : ∀ e ∈ T, 0 < e) :
    Earliest (S ∪ T) (if c > 0 ∧ (n = 0 ∨ c < n) then c else n) := by
  rcases hT with ⟨hTe, rfl⟩ | hT
  · rw [if_neg fun h => absurd h.1 (lt_irrefl 0)]
    rw [show S ∪ T = S by
      rw [Set.eq_empty_iff_forall_notMem.mpr hTe, Set.union_empty]]
    exact hS
  · have hc := hpT c hT.1
    rcases hS with ⟨hSe, rfl⟩ | hS
    · rw [if_pos ⟨hc, .inl rfl⟩, Set.eq_empty_iff_forall_notMem.mpr hSe, Set.empty_union]
      exact .inr hT
    · have hn := hpS n hS.1
      by_cases hlt : c < n
      · rw [if_pos ⟨hc, .inr hlt⟩]
        refine .inr ⟨.inr hT.1, ?_⟩
        rintro e (he | he)
        · exact le_trans (le_of_lt hlt) (hS.2 he)
        · exact hT.2 he
      · rw [if_neg fun h => h.2.elim (fun e => hn.ne' e) hlt]
        refine .inr ⟨.inl hS.1, ?_⟩
        rintro e (he | he)
        · exact hS.2 he
        · exact le_trans (not_lt.mp hlt) (hT.2 he)

/-- The deadlines a collection at `now` leaves in some of the shards. -/
def remaining (now : Int) (shards : List TtlShard) : Set Int :=
  {e | ∃ s ∈ shards, ∃ k, (s.collectExpiredAndNext now).1.expireAt k = some e}

theorem remaining_pos {now : Int} (hnow : 0 ≤ now) {shards : List TtlShard}
    (hok : ∀ s ∈ shards, ShardOk s) : ∀ e ∈ remaining now shards, 0 < e := by
  rintro e ⟨s, hs, k, he⟩
  rw [(collectExpiredAndNext_ok (hok s hs) now).kept] at he
  have := (ahead_eq_some.mp he).2
  omega

theorem remaining_cons (now : Int) (s : TtlShard) (rest : List TtlShard) :
    remaining now (s :: rest) = remaining now [s] ∪ remaining now rest := by
  ext e
  simp [remaining]

/-- A shard reports the earliest deadline it keeps. -/
theorem collect_earliest {now : Int} {s : TtlShard} (h : ShardOk s) :
    Earliest (remaining now [s]) (s.collectExpiredAndNext now).2.2 := by
  have c := collectExpiredAndNext_ok h now
  have hset : remaining now [s] =
      {e | ∃ k, (s.collectExpiredAndNext now).1.expireAt k = some e} := by
    ext e
    simp [remaining]
  rw [hset, c.next]
  by_cases hz : (s.collectExpiredAndNext now).1.heap.length = 0
  · rw [if_pos hz]
    refine .inl ⟨?_, rfl⟩
    rintro e ⟨k, he⟩
    rw [c.ok.linked.expireAt_eq_none hz k] at he
    exact nomatch he
  · rw [if_neg hz]
    exact .inr (c.ok.root_isLeast (Nat.pos_of_ne_zero hz))

theorem cleanupLoop_shards (now : Int) : ∀ (shards : List TtlShard) (next : Int),
    (TTLManager.cleanupLoop now shards next).1 =
      shards.map fun s => (s.collectExpiredAndNext now).1 := by
  intro shards
  induction shards with
  | nil => exact fun _ => rfl
  | cons s rest ih =>
    intro next
    exact congrArg ((s.collectExpiredAndNext now).1 :: ·) (ih _)

theorem cleanupLoop_expired (now : Int) : ∀ (shards : List TtlShard) (next : Int),
    (TTLManager.cleanupLoop now shards next).2.1 =
      shards.flatMap fun s => (s.collectExpiredAndNext now).2.1 := by
  intro shards
  induction shards with
  | nil => exact fun _ => rfl
  | cons s rest ih =>
    intro next
    exact congrArg ((s.collectExpiredAndNext now).2.1 ++ ·) (ih _)

/-- The loop keeps the earliest deadline seen so far: `S` is what it has
    seen. -/
theorem cleanupLoop_next {now : Int} (hnow : 0 ≤ now) (shards : List TtlShard) :
    ∀ (S : Set Int) (next : Int), (∀ s ∈ shards, ShardOk s) → (∀ e ∈ S, 0 < e) →
      Earliest S next →
      Earliest (S ∪ remaining now shards) (TTLManager.cleanupLoop now shards next).2.2 := by
  induction shards with
  | nil =>
    intro S next _ _ hS
    rw [show S ∪ remaining now [] = S by simp [remaining]]
    exact hS
  | cons s rest ih =>
    intro S next hok hpos hS
    have hs : ∀ t ∈ [s], ShardOk t := fun t ht =>
      hok t (List.mem_cons.mpr (.inl (List.mem_singleton.mp ht)))
    have hpos1 := remaining_pos hnow hs
    rw [remaining_cons, ← Set.union_assoc]
    refine ih _ _ (fun t ht => hok t (List.mem_cons_of_mem s ht)) ?_
      (hS.union (collect_earliest (hs s (List.mem_singleton.mpr rfl))) hpos hpos1)
    rintro e (he | he)
    · exact hpos e he
    · exact hpos1 e he

/-- What `cleanup` at `now` leaves and reports. -/
structure Cleaned (sum64 : Bytes → UInt64) (now : Int) (tm : TTLManager)
    (r : TTLManager × List Bytes × Int) : Prop where
  ok : ManagerOk sum64 r.1
  kept : ∀ k, r.1.expireAt sum64 k = ahead now (tm.expireAt sum64 k)
  nodup : r.2.1.Nodup
  reported : ∀ k, k ∈ r.2.1 ↔ ∃ e, tm.expireAt sum64 k = some e ∧ e ≤ now
  next : 0 ≤ now → Earliest {e | ∃ k, r.1.expireAt sum64 k = some e} r.2.2

/-- **`cleanup`** removes exactly what has expired, reports it once, and
    returns the earliest deadline left. -/
theorem cleanup_ok {tm : TTLManager} (h : ManagerOk sum64 tm) (now : Int) :
    Cleaned sum64 now tm (tm.cleanup now) := by
  have hcollect := fun s (hs : ShardOk s) => collectExpiredAndNext_ok hs now
  have hshards : (tm.cleanup now).1.shards =
      tm.shards.map fun s => (s.collectExpiredAndNext now).1 := cleanupLoop_shards now _ 0
  have hmap := Sharded.map h TtlShard.new (g := fun s => (s.collectExpiredAndNext now).1)
    (fun s hs => (hcollect s hs).ok)
    (fun s k hs hn => by rw [(hcollect s hs).kept, hn]; rfl)
  have hok : ManagerOk sum64 (tm.cleanup now).1 := by
    unfold ManagerOk
    rw [hshards]
    exact hmap.1
  have hfor : ∀ k, (tm.cleanup now).1.shardFor sum64 k =
      ((tm.shardFor sum64 k).collectExpiredAndNext now).1 := by
    intro k
    unfold TTLManager.shardFor
    rw [hshards]
    exact hmap.2 k
  have hexpired : (tm.cleanup now).2.1 =
      tm.shards.flatMap fun s => (s.collectExpiredAndNext now).2.1 := cleanupLoop_expired now _ 0
  refine ⟨hok, fun k => ?_, ?_, fun k => ?_, fun hnow => ?_⟩
  · unfold TTLManager.expireAt
    rw [hfor]
    exact (hcollect _ (Sharded.shardAt_ok h TtlShard.new k)).kept k
  · rw [hexpired]
    refine Sharded.nodup_flatMap h (fun s hs => (hcollect s hs).nodup) fun s hs k hk hn => ?_
    obtain ⟨e, he, _⟩ := ((hcollect s hs).reported k).mp hk
    rw [hn] at he
    cases he
  · rw [hexpired]
    refine Sharded.mem_flatMap h TtlShard.new (P := fun o => ∃ e, o = some e ∧ e ≤ now) ?_
      (fun s hs => (hcollect s hs).reported) k
    rintro ⟨e, he, _⟩
    cases he
  · have hnone : Earliest (∅ : Set Int) 0 := .inl ⟨fun _ he => he, rfl⟩
    have hnext := cleanupLoop_next hnow tm.shards ∅ 0 (fun s hs => Sharded.mem_ok h hs)
      (fun _ he => absurd he id) hnone
    rw [Set.empty_union] at hnext
    rw [show {e | ∃ k, (tm.cleanup now).1.expireAt sum64 k = some e} =
      remaining now tm.shards from ?_]
    · exact hnext
    · ext e
      constructor
      · rintro ⟨k, he⟩
        unfold TTLManager.expireAt at he
        rw [hfor] at he
        exact ⟨_, List.mem_of_getElem? (Sharded.shardAt_mem h TtlShard.new k), k, he⟩
      · rintro ⟨s, hs, k, he⟩
        have hk : s.expireAt k ≠ none := by
          intro hn
          rw [(hcollect s (Sharded.mem_ok h hs)).kept, hn] at he
          cases he
        have hs' : tm.shardFor sum64 k = s := Sharded.view_of_mem h TtlShard.new hs hk
        refine ⟨k, ?_⟩
        unfold TTLManager.expireAt
        rw [hfor, hs', he]

/-! ## Runs -/

variable (sum64)

/-- A call on the index, with the clock reading it takes. -/
inductive TtlOp where
  | setTTL (key : Bytes) (expireAt : Int)
  | removeTTL (key : Bytes)
  | checkTTL (key : Bytes) (now : Int)
  | cleanup (now : Int)

/-- The index after a call. -/
def TtlOp.apply (tm : TTLManager) : TtlOp → TTLManager
  | .setTTL k e => tm.setTTL sum64 k e
  | .removeTTL k => tm.removeTTL sum64 k
  | .checkTTL k now => (tm.checkTTL sum64 k now).1
  | .cleanup now => (tm.cleanup now).1

/-- The index after a run of calls. -/
def runTtl (tm : TTLManager) (ops : List TtlOp) : TTLManager := ops.foldl (TtlOp.apply sum64) tm

/-- The deadline of `k` after a call, if it was `d` before. -/
def TtlOp.deadline (k : Bytes) (d : Option Int) : TtlOp → Option Int
  | .setTTL k' e => if k = k' then some e else d
  | .removeTTL k' => if k = k' then none else d
  | .checkTTL k' now => if k = k' then ahead now d else d
  | .cleanup now => ahead now d

/-- The deadline last set for `k` and not removed since. -/
def deadlineAfter (ops : List TtlOp) (k : Bytes) : Option Int :=
  ops.foldl (TtlOp.deadline k) none

variable {sum64}

/-- **One call** keeps the index in order and does to the deadlines what it is
    for. -/
theorem apply_ok {tm : TTLManager} (h : ManagerOk sum64 tm) (op : TtlOp) :
    ManagerOk sum64 (op.apply sum64 tm) ∧
      ∀ k, (op.apply sum64 tm).expireAt sum64 k = op.deadline k (tm.expireAt sum64 k) := by
  cases op with
  | setTTL k e =>
    obtain ⟨hf, hv⟩ := setTTL_ok (Sharded.shardAt_ok h TtlShard.new k) k e
    exact onShard_ok h (f := fun s => s.setTTL k e) hf hv
  | removeTTL k =>
    obtain ⟨hf, hv⟩ := removeTTL_ok (Sharded.shardAt_ok h TtlShard.new k) k
    exact onShard_ok h (f := fun s => s.removeTTL k) hf hv
  | checkTTL k now =>
    obtain ⟨hf, hv, _⟩ := checkTTL_ok (Sharded.shardAt_ok h TtlShard.new k) k now
    obtain ⟨hok, hexp⟩ := onShard_ok h (f := fun s => (s.checkTTL k now).1) hf hv
    refine ⟨hok, fun k' => (hexp k').trans ?_⟩
    show _ = if k' = k then ahead now (tm.expireAt sum64 k') else tm.expireAt sum64 k'
    by_cases hkk : k' = k
    · rw [if_pos hkk, if_pos hkk, hkk]
      rfl
    · rw [if_neg hkk, if_neg hkk]
  | cleanup now =>
    have hc := cleanup_ok h now
    exact ⟨hc.ok, hc.kept⟩

/-- **Every run** keeps the index in order, and its deadlines are those of the
    history. -/
theorem runTtl_ok (ops : List TtlOp) :
    ∀ (tm : TTLManager), ManagerOk sum64 tm →
      ManagerOk sum64 (runTtl sum64 tm ops) ∧
        ∀ k, (runTtl sum64 tm ops).expireAt sum64 k =
          ops.foldl (TtlOp.deadline k) (tm.expireAt sum64 k) := by
  induction ops with
  | nil => exact fun tm h => ⟨h, fun _ => rfl⟩
  | cons op ops ih =>
    intro tm h
    obtain ⟨hok, hexp⟩ := apply_ok h op
    obtain ⟨hok', hexp'⟩ := ih _ hok
    refine ⟨hok', fun k => (hexp' k).trans ?_⟩
    rw [hexp]
    rfl

theorem Linked.heap_nodup {s : TtlShard} (h : Linked s) : s.heap.Nodup := by
  refine List.nodup_iff_injective_get.mpr fun i j hij => Fin.ext ?_
  refine h.ptr_inj i.isLt j.isLt ?_
  unfold TtlShard.ptr
  rw [List.getD_eq_getElem _ _ i.isLt, List.getD_eq_getElem _ _ j.isLt]
  exact hij

theorem mem_heap_iff {s : TtlShard} {p : Nat} :
    p ∈ s.heap ↔ ∃ i, i < s.heap.length ∧ s.ptr i = p := by
  rw [List.mem_iff_getElem]
  constructor
  · rintro ⟨i, hi, rfl⟩
    exact ⟨i, hi, List.getD_eq_getElem _ _ hi⟩
  · rintro ⟨i, hi, rfl⟩
    exact ⟨i, hi, (List.getD_eq_getElem _ _ hi).symm⟩

/-- The map is a bijection between the shard's keys and its heap's items. -/
theorem Linked.keys_bijOn {s : TtlShard} (h : Linked s) :
    Set.BijOn s.keys {k | s.keys k ≠ none} (Set.image some {p | p ∈ s.heap}) := by
  refine ⟨?_, ?_, ?_⟩
  · intro k hk
    obtain ⟨p, hp⟩ := Option.ne_none_iff_exists'.mp hk
    exact ⟨p, mem_heap_iff.mpr (h.held k p hp).2, hp.symm⟩
  · intro k hk k' _ he
    obtain ⟨p, hp⟩ := Option.ne_none_iff_exists'.mp hk
    exact h.keys_inj hp (he ▸ hp)
  · rintro o ⟨p, hp, rfl⟩
    obtain ⟨i, hi, rfl⟩ := mem_heap_iff.mp hp
    have hk := h.keyed i hi
    exact ⟨(s.item i).key, by rw [Set.mem_ofPred_eq, hk]; exact Option.some_ne_none _, hk⟩

end Manager

/-- **THE TTL INDEX IS CORRECT** after every run, whatever the hash, the
    configured shard count, the keys, the deadlines and the clock: positions
    and order in every shard, the deadlines of the history, and a cleanup that
    removes and reports exactly what has expired. -/
theorem ttlIndex_correct (sum64 : Bytes → UInt64) (shardHint : Int) (ops : List TtlOp) :
    (∀ s ∈ (runTtl sum64 (newTTLManager shardHint) ops).shards,
      (∀ i, i < s.heap.length → (s.item i).index = i) ∧
      (∀ i, 0 < i → i < s.heap.length →
        (s.item ((i - 1) / 2)).expireAt ≤ (s.item i).expireAt) ∧
      s.heap.Nodup ∧
      Set.BijOn s.keys {k | s.keys k ≠ none} (Set.image some {p | p ∈ s.heap}) ∧
      ∀ k p, s.keys k = some p → (s.items p).key = k) ∧
    (∀ k, (runTtl sum64 (newTTLManager shardHint) ops).expireAt sum64 k =
      deadlineAfter ops k) ∧
    ∀ now,
      (∀ k, ((runTtl sum64 (newTTLManager shardHint) ops).cleanup now).1.expireAt sum64 k =
        ahead now (deadlineAfter ops k)) ∧
      ((runTtl sum64 (newTTLManager shardHint) ops).cleanup now).2.1.Nodup ∧
      (∀ k, k ∈ ((runTtl sum64 (newTTLManager shardHint) ops).cleanup now).2.1 ↔
        ∃ e, deadlineAfter ops k = some e ∧ e ≤ now) ∧
      (0 ≤ now → Earliest {e | ∃ k, ahead now (deadlineAfter ops k) = some e}
        ((runTtl sum64 (newTTLManager shardHint) ops).cleanup now).2.2) := by
  obtain ⟨hok, hrun⟩ := runTtl_ok ops _ (new_managerOk sum64 shardHint)
  have hexp : ∀ k, (runTtl sum64 (newTTLManager shardHint) ops).expireAt sum64 k =
      deadlineAfter ops k := by
    intro k
    rw [hrun k]
    have hnew : (newTTLManager shardHint).shardFor sum64 k = TtlShard.new :=
      List.eq_of_mem_replicate (List.mem_of_getElem?
        (Sharded.shardAt_mem (new_managerOk sum64 shardHint) TtlShard.new k))
    unfold TTLManager.expireAt
    rw [hnew]
    rfl
  refine ⟨fun s hs => ?_, hexp, fun now => ?_⟩
  · have h : ShardOk s := Sharded.mem_ok hok hs
    exact ⟨h.linked.index, h.ordered, h.linked.heap_nodup, h.linked.keys_bijOn,
      fun k p hk => (h.linked.held k p hk).1⟩
  · have hc := cleanup_ok hok now
    have hkept : ∀ k, ((runTtl sum64 (newTTLManager shardHint) ops).cleanup now).1.expireAt
        sum64 k = ahead now (deadlineAfter ops k) := by
      intro k
      rw [hc.kept k, hexp k]
    refine ⟨hkept, hc.nodup, fun k => ?_, fun hnow => ?_⟩
    · rw [hc.reported k, hexp k]
    · have hn := hc.next hnow
      simp only [hkept] at hn
      exact hn

end TinyTtl
