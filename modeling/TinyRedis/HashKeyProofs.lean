import TinyRedis.GoStringProofs

/-! # Sharding by hash

    `util.HashKey` and the power-of-two shard counts.  The murmur3 sum is
    third-party code and enters as an arbitrary function on byte strings; a
    masked hash is in range whatever it computes.

    `Sharded` is the invariant of a table spread over shards by such a hash,
    for any kind of shard that can be viewed as a finite map: every shard is
    well formed and holds only keys that hash to it.  What an operation does
    to one shard, or to all of them, it then does to the table. -/

namespace TinyHash

open GoString

/-- `HashKey`, on a 64-bit platform: the sum with its sign bit cleared. -/
def hashKey (sum64 : Bytes → UInt64) (key : Bytes) : Nat :=
  (sum64 key).toNat &&& (2 ^ 63 - 1)

/-- `bits.Len`. -/
def bitsLen (n : Nat) : Nat := n.size

/-- `hash & shardMask`. -/
def shardIndex (sum64 : Bytes → UInt64) (shardMask : Nat) (key : Bytes) : Nat :=
  hashKey sum64 key &&& shardMask

/-- With a power-of-two shard count, `hash & shardMask` is a shard. -/
theorem shardIndex_lt (sum64 : Bytes → UInt64) (b : Nat) (key : Bytes) :
    shardIndex sum64 (2 ^ b - 1) key < 2 ^ b := by
  unfold shardIndex
  rw [Nat.and_two_pow_sub_one_eq_mod]
  exact Nat.mod_lt _ (Nat.two_pow_pos b)

/-! ## Tables of shards -/

section Tables

variable {S α : Type} (sum64 : Bytes → UInt64) (ok : S → Prop) (view : S → Bytes → Option α)

/-- A table of `2 ^ b` well-formed shards, each key in the shard it hashes
    to. -/
structure Sharded (shardMask : Nat) (shards : List S) : Prop where
  count : ∃ b, shards.length = 2 ^ b ∧ shardMask = 2 ^ b - 1
  each : ∀ (i : Nat) s, shards[i]? = some s → ok s
  placed : ∀ (i : Nat) s k, shards[i]? = some s → view s k ≠ none →
    shardIndex sum64 shardMask k = i

/-- The shard of a key; `dflt` stands for the panic of an index out of range,
    which a `Sharded` table never meets. -/
def shardAt (shardMask : Nat) (dflt : S) (shards : List S) (key : Bytes) : S :=
  shards.getD (shardIndex sum64 shardMask key) dflt

variable {sum64 ok view} {shardMask : Nat} {shards : List S}

theorem Sharded.shardAt_mem (h : Sharded sum64 ok view shardMask shards) (dflt : S) (k : Bytes) :
    shards[shardIndex sum64 shardMask k]? = some (shardAt sum64 shardMask dflt shards k) := by
  have hlt : shardIndex sum64 shardMask k < shards.length := by
    obtain ⟨b, hlen, hmask⟩ := h.count
    rw [hlen, hmask]
    exact shardIndex_lt sum64 b k
  unfold shardAt
  rw [List.getD_eq_getElem?_getD, List.getElem?_eq_getElem hlt]
  rfl

theorem Sharded.shardAt_ok (h : Sharded sum64 ok view shardMask shards) (dflt : S) (k : Bytes) :
    ok (shardAt sum64 shardMask dflt shards k) := h.each _ _ (h.shardAt_mem dflt k)

theorem Sharded.mem_ok (h : Sharded sum64 ok view shardMask shards) {s : S} (hs : s ∈ shards) :
    ok s := by
  obtain ⟨i, hi⟩ := List.mem_iff_getElem?.mp hs
  exact h.each i s hi

/-- A key found in some shard is found in the shard it hashes to. -/
theorem Sharded.view_of_mem (h : Sharded sum64 ok view shardMask shards) (dflt : S) {s : S}
    (hs : s ∈ shards) {k : Bytes} (hk : view s k ≠ none) :
    shardAt sum64 shardMask dflt shards k = s := by
  obtain ⟨i, hi⟩ := List.mem_iff_getElem?.mp hs
  have hmem := h.shardAt_mem dflt k
  rw [h.placed i s k hi hk, hi] at hmem
  exact (Option.some.inj hmem).symm

/-- Empty shards make a table. -/
theorem sharded_replicate {s : S} (hs : ok s) (hv : ∀ k, view s k = none) (b : Nat) :
    Sharded sum64 ok view (2 ^ b - 1) (List.replicate (2 ^ b) s) := by
  have hall : ∀ (i : Nat) t, (List.replicate (2 ^ b) s)[i]? = some t → t = s :=
    fun i t ht => List.eq_of_mem_replicate (List.mem_of_getElem? ht)
  refine ⟨⟨b, List.length_replicate, rfl⟩, fun i t ht => ?_, fun i t k ht hk => ?_⟩
  · rw [hall i t ht]
    exact hs
  · rw [hall i t ht] at hk
    exact absurd (hv k) hk

/-- **One key's operation**: what `f` does to the view of the key's shard it
    does to the view of the table. -/
theorem Sharded.modify (h : Sharded sum64 ok view shardMask shards) (dflt : S) {k : Bytes}
    {f : S → S} {v : Option α} (hf : ok (f (shardAt sum64 shardMask dflt shards k)))
    (hv : view (f (shardAt sum64 shardMask dflt shards k)) =
      Function.update (view (shardAt sum64 shardMask dflt shards k)) k v) :
    Sharded sum64 ok view shardMask (shards.modify (shardIndex sum64 shardMask k) f) ∧
      ∀ k', view (shardAt sum64 shardMask dflt
          (shards.modify (shardIndex sum64 shardMask k) f) k') k' =
        if k' = k then v else view (shardAt sum64 shardMask dflt shards k') k' := by
  have hget : ∀ (i : Nat) s', (shards.modify (shardIndex sum64 shardMask k) f)[i]? = some s' →
      (shardIndex sum64 shardMask k = i ∧ s' = f (shardAt sum64 shardMask dflt shards k)) ∨
      (shardIndex sum64 shardMask k ≠ i ∧ shards[i]? = some s') := by
    intro i s' hs'
    rw [List.getElem?_modify] at hs'
    obtain ⟨s, hs, rfl⟩ := Option.map_eq_some_iff.mp hs'
    by_cases he : shardIndex sum64 shardMask k = i
    · rw [← he, h.shardAt_mem dflt k] at hs
      exact .inl ⟨he, by rw [if_pos he, Option.some.inj hs]⟩
    · exact .inr ⟨he, by rw [if_neg he]; exact hs⟩
  have hok : Sharded sum64 ok view shardMask
      (shards.modify (shardIndex sum64 shardMask k) f) := by
    refine ⟨?_, fun i s' hs' => ?_, fun i s' k' hs' hk' => ?_⟩
    · rw [List.length_modify]
      exact h.count
    · rcases hget i s' hs' with ⟨_, rfl⟩ | ⟨_, hs⟩
      · exact hf
      · exact h.each i s' hs
    · rcases hget i s' hs' with ⟨rfl, rfl⟩ | ⟨_, hs⟩
      · rw [hv] at hk'
        by_cases hkk : k' = k
        · rw [hkk]
        · rw [Function.update_of_ne hkk] at hk'
          exact h.placed _ _ k' (h.shardAt_mem dflt k) hk'
      · exact h.placed i s' k' hs hk'
  refine ⟨hok, fun k' => ?_⟩
  rcases hget _ _ (hok.shardAt_mem dflt k') with ⟨he, hs⟩ | ⟨he, hs⟩
  · rw [hs, hv, Function.update_apply]
    unfold shardAt
    rw [he]
  · have hs' := (h.shardAt_mem dflt k').symm.trans hs
    rw [if_neg fun e => he (by rw [e]), Option.some.inj hs']

/-- **An operation on every shard** that adds no key. -/
theorem Sharded.map (h : Sharded sum64 ok view shardMask shards) (dflt : S) {g : S → S}
    (hok : ∀ s, ok s → ok (g s)) (hv : ∀ s k, ok s → view s k = none → view (g s) k = none) :
    Sharded sum64 ok view shardMask (shards.map g) ∧
      ∀ k, shardAt sum64 shardMask dflt (shards.map g) k =
        g (shardAt sum64 shardMask dflt shards k) := by
  have hget : ∀ (i : Nat) s', (shards.map g)[i]? = some s' →
      ∃ s, shards[i]? = some s ∧ s' = g s := by
    intro i s' hs'
    rw [List.getElem?_map] at hs'
    obtain ⟨s, hs, rfl⟩ := Option.map_eq_some_iff.mp hs'
    exact ⟨s, hs, rfl⟩
  have hsh : Sharded sum64 ok view shardMask (shards.map g) := by
    refine ⟨?_, fun i s' hs' => ?_, fun i s' k hs' hk => ?_⟩
    · rw [List.length_map]
      exact h.count
    · obtain ⟨s, hs, rfl⟩ := hget i s' hs'
      exact hok s (h.each i s hs)
    · obtain ⟨s, hs, rfl⟩ := hget i s' hs'
      exact h.placed i s k hs fun hn => hk (hv s k (h.each i s hs) hn)
  refine ⟨hsh, fun k => ?_⟩
  obtain ⟨s, hs, he⟩ := hget _ _ (hsh.shardAt_mem dflt k)
  rw [he, Option.some.inj ((h.shardAt_mem dflt k).symm.trans hs)]

/-- Keys listed shard by shard are listed once. -/
theorem Sharded.nodup_flatMap (h : Sharded sum64 ok view shardMask shards) {keys : S → List Bytes}
    (hnd : ∀ s, ok s → (keys s).Nodup) (hmem : ∀ s, ok s → ∀ k ∈ keys s, view s k ≠ none) :
    (shards.flatMap keys).Nodup := by
  rw [List.nodup_flatMap]
  refine ⟨fun s hs => hnd s (h.mem_ok hs), ?_⟩
  refine List.pairwise_iff_getElem.mpr fun i j hi hj hij k hki hkj => ?_
  have hat : ∀ m (hm : m < shards.length), k ∈ keys shards[m] →
      shardIndex sum64 shardMask k = m := fun m hm hk =>
    h.placed m _ k (List.getElem?_eq_getElem hm)
      (hmem _ (h.mem_ok (List.getElem_mem hm)) k hk)
  have := (hat i hi hki).symm.trans (hat j hj hkj)
  omega

/-- Keys listed shard by shard are those the table's view selects. -/
theorem Sharded.mem_flatMap (h : Sharded sum64 ok view shardMask shards) (dflt : S)
    {keys : S → List Bytes} {P : Option α → Prop} (hnone : ¬ P none)
    (hkeys : ∀ s, ok s → ∀ k, k ∈ keys s ↔ P (view s k)) (k : Bytes) :
    k ∈ shards.flatMap keys ↔ P (view (shardAt sum64 shardMask dflt shards k) k) := by
  rw [List.mem_flatMap]
  constructor
  · rintro ⟨s, hs, hk⟩
    have hp := (hkeys s (h.mem_ok hs) k).mp hk
    rw [h.view_of_mem dflt hs fun hn => hnone (hn ▸ hp)]
    exact hp
  · intro hp
    exact ⟨_, List.mem_of_getElem? (h.shardAt_mem dflt k),
      (hkeys _ (h.shardAt_ok dflt k) k).mpr hp⟩

end Tables

end TinyHash
