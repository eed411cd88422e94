import TinyRedis.MapShardProofs

/-! # The concurrent map is a finite map

    `ConcurrentMap` over its shards, and its refinement of an association list
    (`AList`): every call returns what the plain map with the same history
    returns, and leaves the two in step (`Simulates`).

    The counter is an `int32` that wraps, so `Len`, and `Keys` which asks it
    first, are right for fewer than `2 ^ 31` live keys. -/

namespace TinyMap

open GoString TinyHash

variable {V T : Type}

/-- `ConcurrentMap`. -/
structure ConcurrentMap (V T : Type) where
  shards : List (DataStructure V T)
  shardMask : Nat
  count : Int32

/-- `MaxConSize`. -/
def maxConSize : Int := 2 ^ 31 - 1

/-- `numberOfLeadingZeros`. -/
def numberOfLeadingZeros (i : Int) : Nat :=
  if i ≤ 0 then 32 else 32 - bitsLen (i.toNat % 2 ^ 32)

/-- `&shard{data: &linkedList{}}`. -/
def newShard : DataStructure V T := .linkedList LinkedList.empty

/-- `NewConcurrentMap`. -/
def newConcurrentMap (size : Int) : ConcurrentMap V T :=
  let size := if size > maxConSize ∨ size ≤ 0 then maxConSize else size
  let size := 2 ^ (32 - numberOfLeadingZeros (size - 1))
  ⟨List.replicate size newShard, size - 1, 0⟩

section Operations

variable (R : RedBlackTree V T) (sum64 : Bytes → UInt64)

namespace ConcurrentMap

/-- The shard at `getKeyPos`. -/
def shardFor (m : ConcurrentMap V T) (key : Bytes) : DataStructure V T :=
  shardAt sum64 m.shardMask newShard m.shards key

/-- The table with the key's shard changed. -/
def onShard (m : ConcurrentMap V T) (key : Bytes) (f : DataStructure V T → DataStructure V T) :
    ConcurrentMap V T :=
  { m with shards := m.shards.modify (shardIndex sum64 m.shardMask key) f }

/-- `Get`. -/
def get (m : ConcurrentMap V T) (key : Bytes) : Option V := (m.shardFor sum64 key).get R key

/-- `Set`. -/
def set (m : ConcurrentMap V T) (key : Bytes) (value : V) : ConcurrentMap V T × Int :=
  let isNew := ((m.shardFor sum64 key).insert R key value).2
  ({ m.onShard sum64 key fun d => (d.insert R key value).1 with
      count := if isNew then m.count + 1 else m.count },
    if isNew then 1 else 0)

/-- `Delete`. -/
def delete (m : ConcurrentMap V T) (key : Bytes) : ConcurrentMap V T × Int :=
  let removed := ((m.shardFor sum64 key).delete R key).2
  ({ m.onShard sum64 key fun d => (d.delete R key).1 with
      count := if removed then m.count - 1 else m.count },
    if removed then 1 else 0)

/-- `SetIfExist`: the key's shard is never converted. -/
def setIfExist (m : ConcurrentMap V T) (key : Bytes) (value : V) : ConcurrentMap V T × Int :=
  if (m.get R sum64 key).isSome then (m.onShard sum64 key fun d => (d.put R key value).1, 1)
  else (m, 0)

/-- `SetIfNotExist`: the key is looked up under the read lock, and again under
    the write lock; alone, both find the same. -/
def setIfNotExist (m : ConcurrentMap V T) (key : Bytes) (value : V) : ConcurrentMap V T × Int :=
  if (m.get R sum64 key).isSome then (m, 0)
  else if (m.get R sum64 key).isSome then (m, 0)
  else ((m.set R sum64 key value).1, 1)

/-- `Len`. -/
def len (m : ConcurrentMap V T) : Int := m.count.toInt

/-- `Clear`: a new map with as many shards requested as there were. -/
def clear (m : ConcurrentMap V T) : ConcurrentMap V T := newConcurrentMap m.shards.length

/-- The keys of one shard as `Keys` collects them. -/
def shardKeys (d : DataStructure V T) : List Bytes := if d.size R = 0 then [] else d.keys R

/-- `Keys`. -/
def keys (m : ConcurrentMap V T) : List Bytes :=
  if m.len = 0 then [] else m.shards.flatMap (shardKeys R)

end ConcurrentMap

/-- A call on the map. -/
inductive MapOp (V : Type) where
  | set (key : Bytes) (value : V)
  | setIfExist (key : Bytes) (value : V)
  | setIfNotExist (key : Bytes) (value : V)
  | delete (key : Bytes)
  | get (key : Bytes)
  | keys
  | len
  | clear

/-- What a call returns. -/
inductive MapRes (V : Type) where
  | num (n : Int)
  | value (v : Option V)
  | keys (ks : List Bytes)
  | none

/-- A call: the map after it, and its result. -/
def MapOp.apply (m : ConcurrentMap V T) : MapOp V → ConcurrentMap V T × MapRes V
  | .set k v => ((m.set R sum64 k v).1, .num (m.set R sum64 k v).2)
  | .setIfExist k v => ((m.setIfExist R sum64 k v).1, .num (m.setIfExist R sum64 k v).2)
  | .setIfNotExist k v => ((m.setIfNotExist R sum64 k v).1, .num (m.setIfNotExist R sum64 k v).2)
  | .delete k => ((m.delete R sum64 k).1, .num (m.delete R sum64 k).2)
  | .get k => (m, .value (m.get R sum64 k))
  | .keys => (m, .keys (m.keys R))
  | .len => (m, .num m.len)
  | .clear => (m.clear, .none)

/-- The map after a run of calls. -/
def runMap (m : ConcurrentMap V T) (ops : List (MapOp V)) : ConcurrentMap V T :=
  ops.foldl (fun m op => (op.apply R sum64 m).1) m

end Operations

/-! ## The plain map -/

/-- The plain key-value map. -/
abbrev PlainMap (V : Type) := AList fun _ : Bytes => V

/-- What a call does to the plain map. -/
def MapOp.plain (s : PlainMap V) : MapOp V → PlainMap V
  | .set k v => s.insert k v
  | .setIfExist k v => if k ∈ s then s.insert k v else s
  | .setIfNotExist k v => if k ∈ s then s else s.insert k v
  | .delete k => s.erase k
  | .get _ => s
  | .keys => s
  | .len => s
  | .clear => ∅

/-- The plain map after a run of calls. -/
def runPlain (ops : List (MapOp V)) : PlainMap V := ops.foldl MapOp.plain ∅

/-- The result is the plain map's; for `Keys`, in some order. -/
def MapOp.Agrees (s : PlainMap V) : MapOp V → MapRes V → Prop
  | .set k _, r => r = .num (if k ∈ s then 0 else 1)
  | .setIfExist k _, r => r = .num (if k ∈ s then 1 else 0)
  | .setIfNotExist k _, r => r = .num (if k ∈ s then 0 else 1)
  | .delete k, r => r = .num (if k ∈ s then 1 else 0)
  | .get k, r => r = .value (s.lookup k)
  | .keys, r => ∃ ks : List Bytes, r = .keys ks ∧ ks.Perm s.keys
  | .len, r => r = .num s.keys.length
  | .clear, r => r = .none

theorem plain_mem_iff {s : PlainMap V} {k : Bytes} : k ∈ s ↔ s.lookup k ≠ none := by
  rw [Ne, AList.lookup_eq_none, not_not]

/-- The keys of a plain map are its domain. -/
theorem plain_lists (s : PlainMap V) : Lists s.lookup s.keys :=
  ⟨s.keys_nodup, fun _ => AList.mem_keys.symm.trans plain_mem_iff⟩

theorem plain_lookup_insert (s : PlainMap V) (k k' : Bytes) (v : V) :
    (s.insert k v).lookup k' = if k' = k then some v else s.lookup k' := by
  by_cases hkk : k' = k
  · rw [if_pos hkk, hkk, AList.lookup_insert]
  · rw [if_neg hkk, AList.lookup_insert_ne hkk]

theorem plain_lookup_erase (s : PlainMap V) (k k' : Bytes) :
    (s.erase k).lookup k' = if k' = k then none else s.lookup k' := by
  by_cases hkk : k' = k
  · rw [if_pos hkk, hkk, AList.lookup_erase]
  · rw [if_neg hkk, AList.lookup_erase_ne hkk]

theorem plain_length_insert (s : PlainMap V) (k : Bytes) (v : V) :
    (s.insert k v).keys.length = if k ∈ s then s.keys.length else s.keys.length + 1 := by
  have hview : (s.insert k v).lookup = Function.update s.lookup k (some v) := by
    funext k'
    rw [plain_lookup_insert, Function.update_apply]
  have hl := plain_lists (s.insert k v)
  rw [hview] at hl
  by_cases hk : k ∈ s
  · rw [if_pos hk, hl.length_eq ((plain_lists s).replace (plain_mem_iff.mp hk) v)]
  · have hn : s.lookup k = none := AList.lookup_eq_none.mpr hk
    rw [if_neg hk, hl.length_eq ((plain_lists s).cons hn v), List.length_cons]

theorem plain_length_erase (s : PlainMap V) (k : Bytes) :
    (s.erase k).keys.length + (if k ∈ s then 1 else 0) = s.keys.length := by
  have hview : (s.erase k).lookup = Function.update s.lookup k none := by
    funext k'
    rw [plain_lookup_erase, Function.update_apply]
  have hl := plain_lists (s.erase k)
  rw [hview] at hl
  rw [hl.length_eq ((plain_lists s).erase k)]
  by_cases hk : k ∈ s
  · have hmem := AList.mem_keys.mp hk
    have hpos := List.length_pos_of_mem hmem
    rw [if_pos hk, List.length_erase_of_mem hmem]
    omega
  · rw [if_neg hk, List.erase_of_not_mem fun hm => hk (AList.mem_keys.mpr hm), add_zero]

/-! ## The simulation -/

section Simulation

variable (R : RedBlackTree V T) (sum64 : Bytes → UInt64)

/-- The map and the plain map are in step: well-formed shards, equal values,
    and the counter counting the keys modulo `2 ^ 32`. -/
structure Simulates (m : ConcurrentMap V T) (s : PlainMap V) : Prop where
  sharded : Sharded sum64 (DataStructure.Ok R) (DataStructure.get R) m.shardMask m.shards
  get : ∀ k, m.get R sum64 k = s.lookup k
  count : m.count = Int32.ofNat s.keys.length

variable {R sum64}

theorem newShard_ok : (newShard : DataStructure V T).Ok R :=
  ⟨LinkedList.empty_wf, by show (0 : Int) ≤ 7; decide⟩

/-- **`NewConcurrentMap`** is the empty map, whatever size is requested. -/
theorem newConcurrentMap_simulates (size : Int) :
    Simulates R sum64 (newConcurrentMap size) (∅ : PlainMap V) := by
  have hsh : Sharded sum64 (DataStructure.Ok R) (DataStructure.get R)
      (newConcurrentMap size : ConcurrentMap V T).shardMask
      (newConcurrentMap size : ConcurrentMap V T).shards :=
    sharded_replicate newShard_ok (fun _ => rfl) _
  refine ⟨hsh, fun k => ?_, rfl⟩
  have hnew : (newConcurrentMap size : ConcurrentMap V T).shardFor sum64 k = newShard :=
    List.eq_of_mem_replicate (List.mem_of_getElem? (hsh.shardAt_mem newShard k))
  unfold ConcurrentMap.get
  rw [hnew, AList.lookup_empty]
  rfl

variable (hR : R.Correct) {m : ConcurrentMap V T} {s : PlainMap V}

include hR

/-- **`Set`.** -/
theorem Simulates.set (h : Simulates R sum64 m s) (k : Bytes) (v : V) :
    Simulates R sum64 (m.set R sum64 k v).1 (s.insert k v) ∧
      (m.set R sum64 k v).2 = if k ∈ s then 0 else 1 := by
  obtain ⟨hf, hv, hnew⟩ := (h.sharded.shardAt_ok newShard k).insert hR k v
  obtain ⟨hsh, hget⟩ := h.sharded.modify newShard (f := fun d => (d.insert R k v).1) hf hv
  have hmem : ((m.shardFor sum64 k).insert R k v).2 = true ↔ k ∉ s := by
    rw [plain_mem_iff, not_not, ← h.get k]
    exact hnew
  refine ⟨⟨hsh, fun k' => ?_, ?_⟩, ?_⟩
  · rw [plain_lookup_insert, ← h.get k']
    exact hget k'
  · show (if ((m.shardFor sum64 k).insert R k v).2 = true then m.count + 1 else m.count) = _
    rw [plain_length_insert, h.count]
    by_cases hk : k ∈ s
    · rw [if_neg fun hb => hmem.mp hb hk, if_pos hk]
    · rw [if_pos (hmem.mpr hk), if_neg hk, Int32.ofNat_add]
      rfl
  · show (if ((m.shardFor sum64 k).insert R k v).2 = true then (1 : Int) else 0) = _
    by_cases hk : k ∈ s
    · rw [if_neg fun hb => hmem.mp hb hk, if_pos hk]
    · rw [if_pos (hmem.mpr hk), if_neg hk]

/-- **`Delete`.** -/
theorem Simulates.delete (h : Simulates R sum64 m s) (k : Bytes) :
    Simulates R sum64 (m.delete R sum64 k).1 (s.erase k) ∧
      (m.delete R sum64 k).2 = if k ∈ s then 1 else 0 := by
  obtain ⟨hf, hv, hold⟩ := (h.sharded.shardAt_ok newShard k).delete hR k
  obtain ⟨hsh, hget⟩ := h.sharded.modify newShard (f := fun d => (d.delete R k).1) hf hv
  have hmem : ((m.shardFor sum64 k).delete R k).2 = true ↔ k ∈ s := by
    rw [plain_mem_iff, ← h.get k]
    exact hold
  refine ⟨⟨hsh, fun k' => ?_, ?_⟩, ?_⟩
  · rw [plain_lookup_erase, ← h.get k']
    exact hget k'
  · show (if ((m.shardFor sum64 k).delete R k).2 = true then m.count - 1 else m.count) = _
    rw [h.count]
    have hlen := plain_length_erase s k
    by_cases hk : k ∈ s
    · rw [if_pos hk] at hlen
      rw [if_pos (hmem.mpr hk), ← hlen, Int32.ofNat_add]
      exact Int32.add_sub_cancel _ _
    · rw [if_neg hk, add_zero] at hlen
      rw [if_neg fun hb => hk (hmem.mp hb), hlen]
  · show (if ((m.shardFor sum64 k).delete R k).2 = true then (1 : Int) else 0) = _
    by_cases hk : k ∈ s
    · rw [if_pos (hmem.mpr hk), if_pos hk]
    · rw [if_neg fun hb => hk (hmem.mp hb), if_neg hk]

omit hR in
/-- A lookup finds what the plain map holds. -/
theorem Simulates.isSome_iff (h : Simulates R sum64 m s) {k : Bytes} :
    (m.get R sum64 k).isSome = true ↔ k ∈ s := by
  rw [h.get k, AList.lookup_isSome]

/-- **`SetIfExist`.** -/
theorem Simulates.setIfExist (h : Simulates R sum64 m s) (k : Bytes) (v : V) :
    Simulates R sum64 (m.setIfExist R sum64 k v).1 (if k ∈ s then s.insert k v else s) ∧
      (m.setIfExist R sum64 k v).2 = if k ∈ s then 1 else 0 := by
  unfold ConcurrentMap.setIfExist
  by_cases hk : k ∈ s
  · rw [if_pos (h.isSome_iff.mpr hk), if_pos hk, if_pos hk]
    have hne : (m.shardFor sum64 k).get R k ≠ none := by
      rw [plain_mem_iff, ← h.get k] at hk
      exact hk
    obtain ⟨hf, hv⟩ := (h.sharded.shardAt_ok newShard k).replace hR v hne
    obtain ⟨hsh, hget⟩ := h.sharded.modify newShard (f := fun d => (d.put R k v).1) hf hv
    refine ⟨⟨hsh, fun k' => ?_, ?_⟩, rfl⟩
    · rw [plain_lookup_insert, ← h.get k']
      exact hget k'
    · rw [plain_length_insert, if_pos hk]
      exact h.count
  · rw [if_neg fun hb => hk (h.isSome_iff.mp hb), if_neg hk, if_neg hk]
    exact ⟨h, rfl⟩

/-- **`SetIfNotExist`.** -/
theorem Simulates.setIfNotExist (h : Simulates R sum64 m s) (k : Bytes) (v : V) :
    Simulates R sum64 (m.setIfNotExist R sum64 k v).1 (if k ∈ s then s else s.insert k v) ∧
      (m.setIfNotExist R sum64 k v).2 = if k ∈ s then 0 else 1 := by
  unfold ConcurrentMap.setIfNotExist
  by_cases hk : k ∈ s
  · rw [if_pos (h.isSome_iff.mpr hk), if_pos hk, if_pos hk]
    exact ⟨h, rfl⟩
  · have hb : ¬ (m.get R sum64 k).isSome = true := fun hb => hk (h.isSome_iff.mp hb)
    rw [if_neg hb, if_neg hb, if_neg hk, if_neg hk]
    exact ⟨(h.set hR k v).1, rfl⟩

omit hR in
/-- **`Len`**, for fewer than `2 ^ 31` keys. -/
theorem Simulates.len (h : Simulates R sum64 m s) (hlive : s.keys.length < 2 ^ 31) :
    m.len = s.keys.length := by
  unfold ConcurrentMap.len
  rw [h.count]
  exact Int32.toInt_ofNat_of_lt hlive

/-- A shard's part of `Keys`. -/
theorem shardKeys_lists {d : DataStructure V T} (h : d.Ok R) :
    Lists (d.get R) (ConcurrentMap.shardKeys R d) := by
  obtain ⟨hl, hsize⟩ := h.wf.lists hR
  unfold ConcurrentMap.shardKeys
  by_cases hz : d.size R = 0
  · rw [if_pos hz]
    have hnil : d.keys R = [] := List.eq_nil_of_length_eq_zero (by omega)
    rw [hnil] at hl
    exact hl
  · rw [if_neg hz]
    exact hl

omit hR in
/-- Whatever lists the keys of each shard lists, over all shards, the keys of
    the plain map. -/
theorem Simulates.flatMap_perm (h : Simulates R sum64 m s) {f : DataStructure V T → List Bytes}
    (hf : ∀ d, d.Ok R → Lists (d.get R) (f d)) : (m.shards.flatMap f).Perm s.keys := by
  refine (List.perm_ext_iff_of_nodup ?_ s.keys_nodup).mpr fun k => ?_
  · exact h.sharded.nodup_flatMap (fun d hd => (hf d hd).nodup)
      fun d hd k hk => ((hf d hd).mem k).mp hk
  · rw [h.sharded.mem_flatMap newShard (P := fun o => o ≠ none) (fun hn => hn rfl)
      (fun d hd => (hf d hd).mem) k, ← AList.mem_keys, plain_mem_iff, ← h.get k]
    exact Iff.rfl

/-- **`Keys`**, for fewer than `2 ^ 31` keys. -/
theorem Simulates.keys (h : Simulates R sum64 m s) (hlive : s.keys.length < 2 ^ 31) :
    (m.keys R).Perm s.keys := by
  unfold ConcurrentMap.keys
  rw [h.len hlive]
  by_cases hz : (s.keys.length : Int) = 0
  · rw [if_pos hz, List.eq_nil_of_length_eq_zero (by omega : s.keys.length = 0)]
  · rw [if_neg hz]
    exact h.flatMap_perm fun d hd => shardKeys_lists hR hd

/-- **One call** keeps the two in step. -/
theorem Simulates.apply (h : Simulates R sum64 m s) (op : MapOp V) :
    Simulates R sum64 (op.apply R sum64 m).1 (op.plain s) := by
  cases op with
  | set k v => exact (h.set hR k v).1
  | setIfExist k v => exact (h.setIfExist hR k v).1
  | setIfNotExist k v => exact (h.setIfNotExist hR k v).1
  | delete k => exact (h.delete hR k).1
  | get k => exact h
  | keys => exact h
  | len => exact h
  | clear => exact newConcurrentMap_simulates _

/-- **One call** returns what the plain map returns. -/
theorem Simulates.agrees (h : Simulates R sum64 m s) (op : MapOp V)
    (hlive : op = .keys ∨ op = .len → s.keys.length < 2 ^ 31) :
    op.Agrees s (op.apply R sum64 m).2 := by
  cases op with
  | set k v => exact congrArg MapRes.num (h.set hR k v).2
  | setIfExist k v => exact congrArg MapRes.num (h.setIfExist hR k v).2
  | setIfNotExist k v => exact congrArg MapRes.num (h.setIfNotExist hR k v).2
  | delete k => exact congrArg MapRes.num (h.delete hR k).2
  | get k => exact congrArg MapRes.value (h.get k)
  | keys => exact ⟨_, rfl, h.keys hR (hlive (Or.inl rfl))⟩
  | len => exact congrArg MapRes.num (h.len (hlive (Or.inr rfl)))
  | clear => rfl

/-- **Every run** keeps the two in step. -/
theorem runMap_simulates (ops : List (MapOp V)) :
    ∀ (m : ConcurrentMap V T) (s : PlainMap V), Simulates R sum64 m s →
      Simulates R sum64 (runMap R sum64 m ops) (ops.foldl MapOp.plain s) := by
  induction ops with
  | nil => exact fun _ _ h => h
  | cons op ops ih => exact fun m s h => ih _ _ (h.apply hR op)

end Simulation

/-- **THE CONCURRENT MAP REFINES A FINITE MAP**: for every hash, every
    requested size and every history of calls, any next call returns what the
    plain map with that history returns; the shard count is a power of two, so
    the masked hash is always a shard; a key lives only there; and a shard is
    a list of at most seven keys or a tree of at least seven. -/
theorem concurrentMap_refines (R : RedBlackTree V T) (hR : R.Correct) (sum64 : Bytes → UInt64)
    (size : Int) (ops : List (MapOp V)) (hlive : (runPlain ops).keys.length < 2 ^ 31) :
    (∀ op : MapOp V,
      op.Agrees (runPlain ops) (op.apply R sum64 (runMap R sum64 (newConcurrentMap size) ops)).2) ∧
    (∃ b, (runMap R sum64 (newConcurrentMap size) ops).shards.length = 2 ^ b ∧
      (runMap R sum64 (newConcurrentMap size) ops).shardMask = 2 ^ b - 1) ∧
    (∀ k, hashKey sum64 k &&& (runMap R sum64 (newConcurrentMap size) ops).shardMask <
      (runMap R sum64 (newConcurrentMap size) ops).shards.length) ∧
    (∀ (i : Nat) d k, (runMap R sum64 (newConcurrentMap size) ops).shards[i]? = some d →
      k ∈ d.keys R →
        hashKey sum64 k &&& (runMap R sum64 (newConcurrentMap size) ops).shardMask = i) ∧
    ∀ d ∈ (runMap R sum64 (newConcurrentMap size) ops).shards,
      (∃ l, d = .linkedList l ∧ l.keys.length ≤ 7) ∨
      ∃ t, d = .treeWrapper t ∧ 7 ≤ ((DataStructure.treeWrapper t).keys R).length := by
  have h : Simulates R sum64 (runMap R sum64 (newConcurrentMap size) ops) (runPlain ops) :=
    runMap_simulates hR ops _ _ (newConcurrentMap_simulates size)
  refine ⟨fun op => h.agrees hR op fun _ => hlive, h.sharded.count, fun k => ?_,
    fun i d k hi hk => ?_, fun d hd => ?_⟩
  · exact (List.getElem?_eq_some_iff.mp (h.sharded.shardAt_mem newShard k)).choose
  · have hok := h.sharded.each i d hi
    exact h.sharded.placed i d k hi (((hok.wf.lists hR).1.mem k).mp hk)
  · have hok := h.sharded.mem_ok hd
    have hsize := (hok.wf.lists hR).2
    have hb := hok.bounded
    cases d with
    | linkedList l =>
      refine .inl ⟨l, rfl, ?_⟩
      change l.count = (l.keys.length : Int) at hsize
      change l.count ≤ 7 at hb
      omega
    | treeWrapper t =>
      refine .inr ⟨t, rfl, ?_⟩
      change (R.size t : Int) = _ at hsize
      change 7 ≤ R.size t at hb
      omega

/-! ## An ordered map -/

/-- Entries in strictly increasing order of their keys. -/
structure SortedEntries (V : Type) where
  entries : List (Bytes × V)
  sorted : entries.Pairwise fun a b => a.1 < b.1

/-- The entries below `k`, the new entry, the entries above `k`. -/
def SortedEntries.put (t : SortedEntries V) (k : Bytes) (v : V) : SortedEntries V where
  entries := t.entries.filter (fun e => e.1 < k) ++ (k, v) :: t.entries.filter (fun e => k < e.1)
  sorted := by
    rw [List.pairwise_append, List.pairwise_cons]
    refine ⟨t.sorted.filter _, ⟨fun e he => ?_, t.sorted.filter _⟩, fun a ha b hb => ?_⟩
    · exact of_decide_eq_true (List.mem_filter.mp he).2
    · have hak : a.1 < k := of_decide_eq_true (List.mem_filter.mp ha).2
      rcases List.mem_cons.mp hb with rfl | hb
      · exact hak
      · exact lt_trans hak (of_decide_eq_true (List.mem_filter.mp hb).2)

/-- A sorted list serves as the tree. -/
def sortedTree : RedBlackTree V (SortedEntries V) where
  empty := ⟨[], List.Pairwise.nil⟩
  get t k := LinkedList.getNode k t.entries
  put := SortedEntries.put
  remove t k := ⟨t.entries.filter fun e => e.1 ≠ k, t.sorted.filter _⟩
  size t := t.entries.length
  entries t := t.entries

theorem SortedEntries.nodup (t : SortedEntries V) : (t.entries.map Prod.fst).Nodup := by
  rw [List.nodup_iff_pairwise_ne, List.pairwise_map]
  exact t.sorted.imp fun h => h.ne

theorem getNode_eq_some {nodes : List (Bytes × V)} (hnd : (nodes.map Prod.fst).Nodup) {k : Bytes}
    {v : V} : LinkedList.getNode k nodes = some v ↔ (k, v) ∈ nodes := by
  refine ⟨fun h => ?_, getNode_of_mem hnd⟩
  have hmem : k ∈ nodes.map Prod.fst :=
    LinkedList.getNode_ne_none.mpr (by rw [h]; exact Option.some_ne_none v)
  obtain ⟨⟨k', v'⟩, hm, rfl⟩ := List.mem_map.mp hmem
  have := getNode_of_mem hnd hm
  rw [h] at this
  rwa [Option.some.inj this]

/-- The assumption on the tree can be met. -/
theorem sortedTree_correct : (sortedTree : RedBlackTree V (SortedEntries V)).Correct where
  get_empty := fun _ => rfl
  get_put := by
    intro t k v
    funext k'
    refine Option.ext fun w => ?_
    rw [Function.update_apply]
    refine (getNode_eq_some (t.put k v).nodup).trans ?_
    show (k', w) ∈ t.entries.filter _ ++ (k, v) :: t.entries.filter _ ↔ _
    rw [List.mem_append, List.mem_cons, List.mem_filter, List.mem_filter]
    by_cases hkk : k' = k
    · subst hkk
      simp [eq_comm]
    · rw [if_neg hkk]
      refine Iff.trans ?_ (getNode_eq_some t.nodup).symm
      constructor
      · rintro (⟨hm, _⟩ | he | ⟨hm, _⟩)
        · exact hm
        · exact absurd (congrArg Prod.fst he) hkk
        · exact hm
      · intro hm
        rcases lt_or_gt_of_ne hkk with hlt | hgt
        · exact .inl ⟨hm, decide_eq_true hlt⟩
        · exact .inr (.inr ⟨hm, decide_eq_true hgt⟩)
  get_remove := by
    intro t k
    funext k'
    refine Option.ext fun w => ?_
    rw [Function.update_apply]
    refine (getNode_eq_some (sortedTree.remove t k).nodup).trans ?_
    show (k', w) ∈ t.entries.filter _ ↔ _
    rw [List.mem_filter]
    by_cases hkk : k' = k
    · simp [hkk]
    · rw [if_neg hkk]
      refine Iff.trans ?_ (getNode_eq_some t.nodup).symm
      simp [hkk]
  mem_entries := fun t _ _ => (getNode_eq_some t.nodup).symm
  sorted := fun t => t.sorted
  size_eq := fun _ => rfl

/-- Nine keys in one shard, and three of them deleted again: through a tree
    and back. -/
theorem concurrentMap_refines_collisions :
    (runPlain ((List.range 9).map (fun i => MapOp.set [UInt8.ofNat i] i) ++
      [.delete [0], .delete [1], .delete [2]])).keys.length < 2 ^ 31 ∧
    MapOp.len.Agrees (runPlain ((List.range 9).map (fun i => MapOp.set [UInt8.ofNat i] i) ++
      [.delete [0], .delete [1], .delete [2]]))
      (MapOp.len.apply sortedTree (fun _ => 0) (runMap sortedTree (fun _ => 0)
        (newConcurrentMap 1) ((List.range 9).map (fun i => MapOp.set [UInt8.ofNat i] i) ++
          [.delete [0], .delete [1], .delete [2]]))).2 := by
  constructor
  · decide +kernel
  · refine (concurrentMap_refines sortedTree sortedTree_correct (fun _ => 0) 1 _ ?_).1 .len
    decide +kernel

end TinyMap
