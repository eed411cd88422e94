import TinyRedis.GoHeapProofs
import TinyRedis.HashKeyProofs

/-! # One shard of the TTL index

    A `ttlShard` is a heap of item pointers together with a map from keys to
    the same pointers; every item stores its own position in the heap, which
    `SetTTL` and the removals use to find it.  Items live in a memory indexed
    by pointer, so that a write through the map is seen through the heap.

    `Linked` says that positions, pointers and keys are in step.  It does not
    mention the order, and every swap preserves it; the order comes from
    `GoHeap`.  Together they are `ShardOk`, and `deadlines` is the finite map
    the shard stands for. -/

namespace TinyTtl

open GoString GoHeap

/-- `TTLItem`. -/
structure TTLItem where
  key : Bytes
  expireAt : Int
  index : Int
  deriving DecidableEq

/-- `ttlShard`, with the memory its pointers point into.  `fresh` bounds the
    pointers handed out; an item taken from the pool is referenced by no heap
    and no map, so it is not told apart from a new one. -/
structure TtlShard where
  items : Nat → TTLItem
  heap : List Nat
  keys : Bytes → Option Nat
  fresh : Nat

namespace TtlShard

/-- The pointer at position `i` of the heap. -/
def ptr (s : TtlShard) (i : Nat) : Nat := s.heap.getD i 0

/-- The item at position `i` of the heap. -/
def item (s : TtlShard) (i : Nat) : TTLItem := s.items (s.ptr i)

/-- `p.index = i`. -/
def setIndex (s : TtlShard) (p : Nat) (i : Int) : TtlShard :=
  { s with items := Function.update s.items p { s.items p with index := i } }

/-- `TTLHeap.Swap`. -/
def swap (s : TtlShard) (i j : Nat) : TtlShard :=
  (({ s with heap := (s.heap.set i (s.ptr j)).set j (s.ptr i) } : TtlShard).setIndex
    (s.ptr j) i).setIndex (s.ptr i) j

/-- `TTLHeap.Push`. -/
def push (s : TtlShard) (p : Nat) : TtlShard :=
  { s.setIndex p s.heap.length with heap := s.heap ++ [p] }

/-- `TTLHeap.Pop`. -/
def pop (s : TtlShard) : Nat × TtlShard :=
  (s.ptr (s.heap.length - 1),
    { s.setIndex (s.ptr (s.heap.length - 1)) (-1) with heap := s.heap.dropLast })

end TtlShard

/-- `TTLHeap` as a `heap.Interface`. -/
def ttlHeap : Interface TtlShard Nat where
  len s := s.heap.length
  less s i j := decide ((s.item i).expireAt < (s.item j).expireAt)
  swap := TtlShard.swap
  push := TtlShard.push
  pop := TtlShard.pop

/-- The deadline at a position: what the heap is ordered by. -/
def expiry (s : TtlShard) (i : Nat) : Int := (s.item i).expireAt

namespace TtlShard

/-- A shard of `NewTTLManager`. -/
def new : TtlShard := GoHeap.init ttlHeap ⟨fun _ => ⟨[], 0, -1⟩, [], fun _ => none, 0⟩

/-- `acquireTTLItem`: the pointer, and the memory holding the new item. -/
def acquireTTLItem (s : TtlShard) (key : Bytes) (expire : Int) : Nat × TtlShard :=
  (s.fresh,
    { s with items := Function.update s.items s.fresh ⟨key, expire, -1⟩, fresh := s.fresh + 1 })

/-- `releaseTTLItem`. -/
def releaseTTLItem (s : TtlShard) (p : Nat) : TtlShard :=
  { s with items := Function.update s.items p ⟨[], 0, -1⟩ }

/-- `s.keys[key] = p`, and `delete(s.keys, key)` for `none`. -/
def putKey (s : TtlShard) (key : Bytes) (p : Option Nat) : TtlShard :=
  { s with keys := Function.update s.keys key p }

/-- `SetTTL`, on the key's shard. -/
def setTTL (s : TtlShard) (key : Bytes) (expireAt : Int) : TtlShard :=
  match s.keys key with
  | some p =>
    if (s.items p).expireAt ≠ expireAt then
      let s1 := { s with
        items := Function.update s.items p { s.items p with expireAt := expireAt } }
      GoHeap.fix ttlHeap s1 (s1.items p).index.toNat
    else s
  | none =>
    let a := s.acquireTTLItem key expireAt
    (GoHeap.push ttlHeap a.2 a.1).putKey key (some a.1)

/-- The removal that `RemoveTTL` and `CheckTTL` share: the item at `p` leaves
    the heap, its key the map, and the item goes back to the pool. -/
def removeItem (s : TtlShard) (key : Bytes) (p : Nat) : TtlShard :=
  let r := GoHeap.remove ttlHeap s (s.items p).index.toNat
  (r.2.putKey key none).releaseTTLItem r.1

/-- `RemoveTTL`, on the key's shard. -/
def removeTTL (s : TtlShard) (key : Bytes) : TtlShard :=
  match s.keys key with
  | some p => s.removeItem key p
  | none => s

/-- `ExpireAt`, on the key's shard. -/
def expireAt (s : TtlShard) (key : Bytes) : Option Int :=
  (s.keys key).map fun p => (s.items p).expireAt

/-- `(*TTLManager).CheckTTL` at clock reading `now`, on the key's shard. -/
def checkTTL (s : TtlShard) (key : Bytes) (now : Int) : TtlShard × Bool :=
  match s.keys key with
  | none => (s, true)
  | some p => if (s.items p).expireAt > now then (s, true) else (s.removeItem key p, false)

/-- The loop of `collectExpiredAndNext`; every round takes an item off. -/
def collectLoop (now : Int) : Nat → TtlShard → TtlShard × List Bytes × Int
  | 0, s => (s, [], 0)
  | fuel + 1, s =>
    if s.heap.length = 0 then (s, [], 0)
    else if (s.item 0).expireAt > now then (s, [], (s.item 0).expireAt)
    else
      let popped := GoHeap.pop ttlHeap s
      let key := (popped.2.items popped.1).key
      let r := collectLoop now fuel ((popped.2.putKey key none).releaseTTLItem popped.1)
      (r.1, key :: r.2.1, r.2.2)

/-- `collectExpiredAndNext`: the shard, the expired keys and the next deadline. -/
def collectExpiredAndNext (s : TtlShard) (now : Int) : TtlShard × List Bytes × Int :=
  let r := collectLoop now s.heap.length s
  if r.2.2 = 0 ∧ r.1.heap.length > 0 then (r.1, r.2.1, (r.1.item 0).expireAt) else r

end TtlShard

/-! ## What a swap does -/

namespace TtlShard

theorem setIndex_key (s : TtlShard) (p q : Nat) (i : Int) :
    ((s.setIndex p i).items q).key = (s.items q).key := by
  show (Function.update s.items p _ q).key = _
  rw [Function.update_apply]
  by_cases h : q = p
  · rw [if_pos h, h]
  · rw [if_neg h]

theorem setIndex_expireAt (s : TtlShard) (p q : Nat) (i : Int) :
    ((s.setIndex p i).items q).expireAt = (s.items q).expireAt := by
  show (Function.update s.items p _ q).expireAt = _
  rw [Function.update_apply]
  by_cases h : q = p
  · rw [if_pos h, h]
  · rw [if_neg h]

theorem setIndex_index (s : TtlShard) (p q : Nat) (i : Int) :
    ((s.setIndex p i).items q).index = if q = p then i else (s.items q).index := by
  show (Function.update s.items p _ q).index = _
  rw [Function.update_apply]
  by_cases h : q = p
  · rw [if_pos h, if_pos h]
  · rw [if_neg h, if_neg h]

/-- A swap exchanges two pointers. -/
theorem swap_ptr {s : TtlShard} {i j : Nat} (hi : i < s.heap.length) (hj : j < s.heap.length) :
    (s.swap i j).ptr = swapAt s.ptr i j := by
  funext k
  show ((s.heap.set i (s.ptr j)).set j (s.ptr i)).getD k 0 = _
  simp only [List.getD_eq_getElem?_getD, List.getElem?_set, List.length_set, swapAt]
  by_cases hkj : j = k
  · subst hkj
    by_cases hki : j = i
    · simp [hki, hi]
    · simp [hki, hj]
  · by_cases hki : i = k
    · subst hki
      simp [hkj, hi]
    · rw [if_neg hkj, if_neg hki, if_neg (fun e => hki e.symm), if_neg (fun e => hkj e.symm)]
      rw [ptr, List.getD_eq_getElem?_getD]

theorem swap_length (s : TtlShard) (i j : Nat) : (s.swap i j).heap.length = s.heap.length := by
  show ((s.heap.set i _).set j _).length = _
  rw [List.length_set, List.length_set]

theorem swap_expireAt (s : TtlShard) (i j p : Nat) :
    ((s.swap i j).items p).expireAt = (s.items p).expireAt := by
  unfold swap
  rw [setIndex_expireAt, setIndex_expireAt]

theorem swap_key (s : TtlShard) (i j p : Nat) :
    ((s.swap i j).items p).key = (s.items p).key := by
  unfold swap
  rw [setIndex_key, setIndex_key]

theorem swap_index (s : TtlShard) (i j p : Nat) :
    ((s.swap i j).items p).index =
      if p = s.ptr i then (j : Int) else if p = s.ptr j then (i : Int)
      else (s.items p).index := by
  unfold swap
  rw [setIndex_index, setIndex_index]

theorem push_ptr (s : TtlShard) (p : Nat) {k : Nat} (hk : k < s.heap.length) :
    (s.push p).ptr k = s.ptr k := by
  show (s.heap ++ [p]).getD k 0 = _
  rw [List.getD_append _ _ _ _ hk, ptr]

theorem push_ptr_last (s : TtlShard) (p : Nat) : (s.push p).ptr s.heap.length = p := by
  show (s.heap ++ [p]).getD s.heap.length 0 = p
  rw [List.getD_append_right _ _ _ _ (Nat.le_refl _), Nat.sub_self]
  rfl

theorem push_length (s : TtlShard) (p : Nat) : (s.push p).heap.length = s.heap.length + 1 :=
  List.length_append

end TtlShard

variable {s s' : TtlShard}

/-- `TTLHeap` orders its positions by deadline. -/
theorem ttlHeap_lawful : Lawful ttlHeap expiry where
  less_iff := by
    intro s i j _ _
    exact decide_eq_true_iff
  len_swap := TtlShard.swap_length
  key_swap := by
    intro s i j hi hj
    funext k
    show ((s.swap i j).items ((s.swap i j).ptr k)).expireAt = swapAt (expiry s) i j k
    rw [TtlShard.swap_ptr hi hj, TtlShard.swap_expireAt]
    unfold swapAt
    by_cases hki : k = i
    · rw [if_pos hki, if_pos hki]
      rfl
    · rw [if_neg hki, if_neg hki]
      by_cases hkj : k = j
      · rw [if_pos hkj, if_pos hkj]
        rfl
      · rw [if_neg hkj, if_neg hkj]
        rfl
  len_push := TtlShard.push_length
  key_push := by
    intro s k p hk
    show ((s.push p).items ((s.push p).ptr k)).expireAt = _
    rw [TtlShard.push_ptr s p hk]
    exact TtlShard.setIndex_expireAt _ _ _ _

/-! ## Positions, pointers and keys in step -/

/-- Every item knows its position, and the map and the heap hold the same
    pointers under the same keys. -/
structure Linked (s : TtlShard) : Prop where
  index : ∀ i, i < s.heap.length → (s.item i).index = i
  keyed : ∀ i, i < s.heap.length → s.keys (s.item i).key = some (s.ptr i)
  held : ∀ k p, s.keys k = some p →
    (s.items p).key = k ∧ ∃ i, i < s.heap.length ∧ s.ptr i = p
  fresh : ∀ i, i < s.heap.length → s.ptr i < s.fresh

/-- Distinct positions hold distinct pointers. -/
theorem Linked.ptr_inj (h : Linked s) {i j : Nat} (hi : i < s.heap.length) (hj : j < s.heap.length)
    (he : s.ptr i = s.ptr j) : i = j := by
  have h1 := h.index i hi
  have h2 := h.index j hj
  unfold TtlShard.item at h1 h2
  rw [he, h2] at h1
  exact_mod_cast h1.symm

/-- The position stored in a key's item is where the item is. -/
theorem Linked.position (h : Linked s) {k : Bytes} {p : Nat} (hk : s.keys k = some p) :
    (s.items p).index.toNat < s.heap.length ∧ s.ptr (s.items p).index.toNat = p := by
  obtain ⟨_, i, hi, rfl⟩ := h.held k p hk
  have := h.index i hi
  unfold TtlShard.item at this
  rw [this, Int.toNat_natCast]
  exact ⟨hi, rfl⟩

/-- A swap keeps positions, pointers and keys in step. -/
theorem Linked.swap (h : Linked s) {i j : Nat} (hi : i < s.heap.length) (hj : j < s.heap.length) :
    Linked (s.swap i j) := by
  -- the position a swapped heap reads from
  have hfrom : ∀ k, k < s.heap.length →
      ∃ k', k' < s.heap.length ∧ (s.swap i j).ptr k = s.ptr k' ∧
        ((k = i ∧ k' = j) ∨ (k = j ∧ k' = i) ∨ (k ≠ i ∧ k ≠ j ∧ k' = k)) := by
    intro k hk
    rw [TtlShard.swap_ptr hi hj]
    by_cases hki : k = i
    · exact ⟨j, hj, by rw [hki, swapAt_left], .inl ⟨hki, rfl⟩⟩
    · by_cases hkj : k = j
      · exact ⟨i, hi, by rw [hkj, swapAt_right], .inr (.inl ⟨hkj, rfl⟩)⟩
      · exact ⟨k, hk, swapAt_other _ hki hkj, .inr (.inr ⟨hki, hkj, rfl⟩)⟩
  refine ⟨?_, ?_, ?_, ?_⟩
  · intro k hk
    rw [TtlShard.swap_length] at hk
    obtain ⟨k', hk', hp, hcase⟩ := hfrom k hk
    unfold TtlShard.item
    rw [hp, TtlShard.swap_index]
    rcases hcase with ⟨rfl, rfl⟩ | ⟨rfl, rfl⟩ | ⟨hki, hkj, rfl⟩
    · by_cases he : s.ptr k' = s.ptr k
      · rw [if_pos he, h.ptr_inj hk' hk he]
      · rw [if_neg he, if_pos rfl]
    · rw [if_pos rfl]
    · rw [if_neg (fun e => hki (h.ptr_inj hk hi e)), if_neg (fun e => hkj (h.ptr_inj hk hj e))]
      exact h.index k' hk
  · intro k hk
    rw [TtlShard.swap_length] at hk
    obtain ⟨k', hk', hp, _⟩ := hfrom k hk
    unfold TtlShard.item
    rw [hp, TtlShard.swap_key]
    exact h.keyed k' hk'
  · intro k p hk
    obtain ⟨hkey, m, hm, rfl⟩ := h.held k p hk
    refine ⟨by rw [TtlShard.swap_key]; exact hkey, ?_⟩
    rw [TtlShard.swap_length, TtlShard.swap_ptr hi hj]
    by_cases hmi : m = i
    · exact ⟨j, hj, by rw [swapAt_right, hmi]⟩
    · by_cases hmj : m = j
      · exact ⟨i, hi, by rw [swapAt_left, hmj]⟩
      · exact ⟨m, hm, swapAt_other _ hmi hmj⟩
  · intro k hk
    rw [TtlShard.swap_length] at hk
    obtain ⟨k', hk', hp, _⟩ := hfrom k hk
    rw [hp]
    exact h.fresh k' hk'

/-- `s'` holds the items of `s` under the same keys, perhaps at other
    positions. -/
structure SameData (s s' : TtlShard) : Prop where
  keys : s'.keys = s.keys
  length : s'.heap.length = s.heap.length
  key : ∀ p, (s'.items p).key = (s.items p).key
  expiry : ∀ p, (s'.items p).expireAt = (s.items p).expireAt

theorem SameData.expireAt (h : SameData s s') : s'.expireAt = s.expireAt := by
  funext k
  show (s'.keys k).map _ = (s.keys k).map _
  rw [h.keys]
  exact congrArg (fun f => (s.keys k).map f) (funext h.expiry)

theorem SameData.refl (s : TtlShard) : SameData s s := ⟨rfl, rfl, fun _ => rfl, fun _ => rfl⟩

theorem SameData.swap {s t : TtlShard} (h : SameData s t) (i j : Nat) :
    SameData s (t.swap i j) :=
  ⟨h.keys, (TtlShard.swap_length t i j).trans h.length,
    fun p => (TtlShard.swap_key t i j p).trans (h.key p),
    fun p => (TtlShard.swap_expireAt t i j p).trans (h.expiry p)⟩

/-- Swaps below `n` keep everything in step, lose nothing, and leave the
    positions from `n` on alone. -/
theorem swaps_linked {n : Nat} (hs : Swaps ttlHeap n s s') (hn : n ≤ s.heap.length) (h : Linked s) :
    Linked s' ∧ SameData s s' ∧ ∀ k, n ≤ k → s'.ptr k = s.ptr k := by
  refine hs.preserves
    (P := fun t => Linked t ∧ SameData s t ∧ ∀ k, n ≤ k → t.ptr k = s.ptr k) ?_
    ⟨h, SameData.refl s, fun _ _ => rfl⟩
  rintro t i j hi hj ⟨hl, hd, hp⟩
  have hit : i < t.heap.length := by have := hd.length; omega
  have hjt : j < t.heap.length := by have := hd.length; omega
  refine ⟨hl.swap hit hjt, hd.swap i j, fun k hk => ?_⟩
  show (t.swap i j).ptr k = s.ptr k
  rw [TtlShard.swap_ptr hit hjt, swapAt_other _ (by omega) (by omega)]
  exact hp k hk

/-- The heap algorithms do not look at the map. -/
theorem swaps_putKey {n : Nat} (k : Bytes) (o : Option Nat) (hs : Swaps ttlHeap n s s') :
    Swaps ttlHeap n (s.putKey k o) (s'.putKey k o) := by
  induction hs with
  | refl s => exact .refl _
  | swap hi hj _ ih => exact .swap hi hj ih

/-- **The shard invariant**: the links in step and the heap in order. -/
structure ShardOk (s : TtlShard) : Prop where
  linked : Linked s
  ordered : Ordered (expiry s) s.heap.length

theorem new_ok : ShardOk TtlShard.new where
  linked :=
    ⟨fun i h => absurd h (Nat.not_lt_zero i), fun i h => absurd h (Nat.not_lt_zero i),
      fun _ _ h => (nomatch h), fun i h => absurd h (Nat.not_lt_zero i)⟩
  ordered := fun k _ h => absurd h (Nat.not_lt_zero k)

/-- Restoring the order of a linked shard keeps its data. -/
theorem shardOk_of_swaps (h : Linked s) (hs : Swaps ttlHeap s.heap.length s s')
    (ho : Ordered (expiry s') s.heap.length) :
    ShardOk s' ∧ s'.expireAt = s.expireAt := by
  obtain ⟨hl, hd, _⟩ := swaps_linked hs (Nat.le_refl _) h
  refine ⟨⟨hl, ?_⟩, hd.expireAt⟩
  rw [hd.length]
  exact ho

/-! ## SetTTL -/

/-- A key's pointer is not another key's. -/
theorem Linked.keys_inj (h : Linked s) {k k' : Bytes} {p : Nat} (hk : s.keys k = some p)
    (hk' : s.keys k' = some p) : k = k' :=
  (h.held k p hk).1.symm.trans (h.held k' p hk').1

/-- `SetTTL` of a key that has a deadline, which is another one. -/
theorem setTTL_existing (h : ShardOk s) {k : Bytes} {p : Nat} (e : Int) (hk : s.keys k = some p) :
    let s1 : TtlShard :=
      { s with items := Function.update s.items p { s.items p with expireAt := e } }
    ShardOk (GoHeap.fix ttlHeap s1 (s1.items p).index.toNat) ∧
      (GoHeap.fix ttlHeap s1 (s1.items p).index.toNat).expireAt =
        Function.update s.expireAt k (some e) := by
  intro s1
  have hp : s1.items p = { s.items p with expireAt := e } := Function.update_self ..
  have hother : ∀ q, q ≠ p → s1.items q = s.items q := fun q hq => Function.update_of_ne hq ..
  have hindex : ∀ q, (s1.items q).index = (s.items q).index := by
    intro q
    by_cases hq : q = p
    · rw [hq, hp]
    · rw [hother q hq]
  have hkey : ∀ q, (s1.items q).key = (s.items q).key := by
    intro q
    by_cases hq : q = p
    · rw [hq, hp]
    · rw [hother q hq]
  have hl : Linked s1 := by
    refine ⟨fun i hi => (hindex _).trans (h.linked.index i hi), fun i hi => ?_,
      fun k' q hq => ?_, h.linked.fresh⟩
    · show s.keys (s1.items (s.ptr i)).key = _
      rw [hkey]
      exact h.linked.keyed i hi
    · rw [hkey]
      exact h.linked.held k' q hq
  obtain ⟨hi, hptr⟩ := h.linked.position hk
  rw [← hindex] at hi hptr
  -- only the key at the item's own position has changed
  have he : Except (expiry s1) s.heap.length (s1.items p).index.toNat := by
    refine (h.ordered.except hi).congr (fun i hin hne => ?_) hi
    show (s1.items (s.ptr i)).expireAt = _
    rw [hother _ fun e => hne (h.linked.ptr_inj hin hi (e.trans hptr.symm))]
    rfl
  obtain ⟨hs, ho⟩ := fix_spec ttlHeap_lawful (h := s1) hi he
  obtain ⟨hok, hexp⟩ := shardOk_of_swaps hl hs ho
  refine ⟨hok, hexp.trans (funext fun k' => ?_)⟩
  show (s.keys k').map _ = _
  by_cases hkk : k' = k
  · rw [hkk, Function.update_self, hk, Option.map_some, hp]
  · rw [Function.update_of_ne hkk]
    show _ = (s.keys k').map _
    cases hq : s.keys k' with
    | none => rfl
    | some q =>
      rw [Option.map_some, Option.map_some,
        hother q fun e => hkk (h.linked.keys_inj (e ▸ hq) hk)]

/-- A new item at the end of the heap and in the map is in step. -/
theorem Linked.add (h : Linked s) {k : Bytes} (e : Int) (hk : s.keys k = none) :
    Linked (((s.acquireTTLItem k e).2.push s.fresh).putKey k (some s.fresh)) := by
  have hnew : ∀ q, q ≠ s.fresh →
      ((((s.acquireTTLItem k e).2.push s.fresh).putKey k (some s.fresh)).items q) =
        s.items q := by
    intro q hq
    show Function.update (Function.update s.items _ _) _ _ q = _
    rw [Function.update_of_ne hq, Function.update_of_ne hq]
  have hat : (((s.acquireTTLItem k e).2.push s.fresh).putKey k (some s.fresh)).items s.fresh =
      ⟨k, e, s.heap.length⟩ := by
    show Function.update (Function.update s.items _ _) _ _ _ = _
    rw [Function.update_self]
    show ({ Function.update s.items s.fresh _ s.fresh with index := _ } : TTLItem) = _
    rw [Function.update_self]
    rfl
  have hptr : ∀ i, i < s.heap.length →
      (((s.acquireTTLItem k e).2.push s.fresh).putKey k (some s.fresh)).ptr i = s.ptr i :=
    fun i hi => TtlShard.push_ptr (s.acquireTTLItem k e).2 s.fresh hi
  have hlast : (((s.acquireTTLItem k e).2.push s.fresh).putKey k (some s.fresh)).ptr
      s.heap.length = s.fresh :=
    TtlShard.push_ptr_last (s.acquireTTLItem k e).2 s.fresh
  have hlen : (((s.acquireTTLItem k e).2.push s.fresh).putKey k (some s.fresh)).heap.length =
      s.heap.length + 1 := TtlShard.push_length _ _
  have hkeys : (((s.acquireTTLItem k e).2.push s.fresh).putKey k (some s.fresh)).keys =
      Function.update s.keys k (some s.fresh) := rfl
  have hfresh : (((s.acquireTTLItem k e).2.push s.fresh).putKey k (some s.fresh)).fresh =
      s.fresh + 1 := rfl
  generalize ((s.acquireTTLItem k e).2.push s.fresh).putKey k (some s.fresh) = t at *
  have hkne : ∀ i, i < s.heap.length → (s.items (s.ptr i)).key ≠ k := by
    intro i hi heq
    have := h.keyed i hi
    unfold TtlShard.item at this
    rw [heq, hk] at this
    exact nomatch this
  refine ⟨?_, ?_, ?_, ?_⟩
  · intro i hi
    unfold TtlShard.item
    rcases Nat.lt_succ_iff_lt_or_eq.mp (hlen ▸ hi) with hlt | rfl
    · rw [hptr i hlt, hnew _ (h.fresh i hlt).ne]
      exact h.index i hlt
    · rw [hlast, hat]
  · intro i hi
    unfold TtlShard.item
    rcases Nat.lt_succ_iff_lt_or_eq.mp (hlen ▸ hi) with hlt | rfl
    · rw [hptr i hlt, hnew _ (h.fresh i hlt).ne, hkeys, Function.update_of_ne (hkne i hlt)]
      exact h.keyed i hlt
    · rw [hlast, hat, hkeys, Function.update_self]
  · intro k' p hp
    rw [hkeys] at hp
    by_cases hkk : k' = k
    · rw [hkk, Function.update_self] at hp
      obtain rfl := Option.some.inj hp
      exact ⟨by rw [hat, hkk], s.heap.length, by omega, hlast⟩
    · rw [Function.update_of_ne hkk] at hp
      obtain ⟨hkey, i, hi, rfl⟩ := h.held k' p hp
      exact ⟨by rw [hnew _ (h.fresh i hi).ne]; exact hkey, i, by omega, hptr i hi⟩
  · intro i hi
    rw [hfresh]
    rcases Nat.lt_succ_iff_lt_or_eq.mp (hlen ▸ hi) with hlt | rfl
    · rw [hptr i hlt]
      exact Nat.lt_succ_of_lt (h.fresh i hlt)
    · rw [hlast]
      exact Nat.lt_succ_self _

/-- **`SetTTL`** keeps the shard in order and sets the key's deadline alone. -/
theorem setTTL_ok (h : ShardOk s) (k : Bytes) (e : Int) :
    ShardOk (s.setTTL k e) ∧ (s.setTTL k e).expireAt = Function.update s.expireAt k (some e) := by
  unfold TtlShard.setTTL
  cases hk : s.keys k with
  | some p =>
    by_cases hne : (s.items p).expireAt ≠ e
    · simp only [if_pos hne]
      exact setTTL_existing h e hk
    · simp only [if_neg hne]
      have hexp : s.expireAt k = some e := by
        unfold TtlShard.expireAt
        rw [hk, Option.map_some, not_not.mp hne]
      exact ⟨h, by rw [← hexp, Function.update_eq_self]⟩
  | none =>
    show ShardOk ((GoHeap.push ttlHeap (s.acquireTTLItem k e).2 s.fresh).putKey k _) ∧
      ((GoHeap.push ttlHeap (s.acquireTTLItem k e).2 s.fresh).putKey k _).expireAt = _
    have hold : ∀ i, i < s.heap.length →
        (s.acquireTTLItem k e).2.items (s.ptr i) = s.items (s.ptr i) := fun i hi =>
      Function.update_of_ne (h.linked.fresh i hi).ne ..
    have ho : Ordered (expiry (s.acquireTTLItem k e).2) s.heap.length := by
      intro i h0 hi
      have hpi := parent_lt h0
      show ((s.acquireTTLItem k e).2.items (s.ptr (parent i))).expireAt ≤
        ((s.acquireTTLItem k e).2.items (s.ptr i)).expireAt
      rw [hold i hi, hold _ (by omega)]
      exact h.ordered i h0 hi
    obtain ⟨hs, ho'⟩ := push_spec ttlHeap_lawful s.fresh ho
    have hl := h.linked.add e hk
    have hlen := TtlShard.push_length (s.acquireTTLItem k e).2 s.fresh
    have hs' := swaps_putKey k (some s.fresh) hs
    rw [show ttlHeap.len (s.acquireTTLItem k e).2 + 1 =
      ((ttlHeap.push (s.acquireTTLItem k e).2 s.fresh).putKey k
        (some s.fresh)).heap.length from hlen.symm] at hs' ho'
    obtain ⟨hok, hexp⟩ := shardOk_of_swaps hl hs' ho'
    refine ⟨hok, hexp.trans (funext fun k' => ?_)⟩
    show (Function.update s.keys k (some s.fresh) k').map _ = _
    by_cases hkk : k' = k
    · rw [hkk, Function.update_self, Function.update_self, Option.map_some]
      show some (Function.update (Function.update s.items _ _) _ _ s.fresh).expireAt = _
      rw [Function.update_self]
      show some (Function.update s.items s.fresh _ s.fresh).expireAt = _
      rw [Function.update_self]
    · rw [Function.update_of_ne hkk, Function.update_of_ne hkk]
      show _ = (s.keys k').map _
      cases hq : s.keys k' with
      | none => rfl
      | some q =>
        obtain ⟨_, i, hi, rfl⟩ := h.linked.held k' q hq
        have hne := (h.linked.fresh i hi).ne
        rw [Option.map_some, Option.map_some]
        show some (Function.update (Function.update s.items _ _) _ _ _).expireAt = _
        rw [Function.update_of_ne hne, Function.update_of_ne hne]

/-! ## Removals -/

/-- Cutting off the last item, with its key, leaves the rest in step. -/
theorem cut_ok {n p : Nat} {k : Bytes} (h : Linked s) (hn : s.heap.length = n + 1)
    (hp : s.ptr n = p) (hk : s.keys k = some p) (ho : Ordered (expiry s) n) :
    s.pop.1 = p ∧ (s.pop.2.items p).key = k ∧
      ShardOk ((s.pop.2.putKey k none).releaseTTLItem p) ∧
      ((s.pop.2.putKey k none).releaseTTLItem p).expireAt =
        Function.update s.expireAt k none := by
  have hlast : s.pop.1 = p := by
    show s.ptr (s.heap.length - 1) = p
    rw [hn]
    exact hp
  have hpopKey : (s.pop.2.items p).key = k :=
    (TtlShard.setIndex_key s _ p (-1)).trans (h.held k p hk).1
  refine ⟨hlast, hpopKey, ?_⟩
  have hother : ∀ q, q ≠ p → ((s.pop.2.putKey k none).releaseTTLItem p).items q =
      s.items q := by
    intro q hq
    show Function.update (Function.update s.items _ _) p _ q = _
    rw [Function.update_of_ne hq, Function.update_of_ne]
    rw [show s.ptr (s.heap.length - 1) = p from hlast]
    exact hq
  have hkeys : ((s.pop.2.putKey k none).releaseTTLItem p).keys =
      Function.update s.keys k none := rfl
  have hfresh : ((s.pop.2.putKey k none).releaseTTLItem p).fresh = s.fresh := rfl
  have hlen : ((s.pop.2.putKey k none).releaseTTLItem p).heap.length = n := by
    show s.heap.dropLast.length = n
    rw [List.length_dropLast, hn, Nat.add_sub_cancel]
  have hptr : ∀ i, i < n → ((s.pop.2.putKey k none).releaseTTLItem p).ptr i = s.ptr i := by
    intro i hi
    show s.heap.dropLast.getD i 0 = s.heap.getD i 0
    simp only [List.getD_eq_getElem?_getD]
    rw [List.getElem?_dropLast, if_pos (by omega)]
  generalize (s.pop.2.putKey k none).releaseTTLItem p = t at *
  have hne : ∀ i, i < n → s.ptr i ≠ p := by
    intro i hi he
    have := h.ptr_inj (by omega) (by omega) (he.trans hp.symm)
    omega
  have hitem : ∀ i, i < n → t.item i = s.item i := by
    intro i hi
    unfold TtlShard.item
    rw [hptr i hi, hother _ (hne i hi)]
  have hkne : ∀ i, i < n → (s.item i).key ≠ k := by
    intro i hi he
    have := h.keyed i (by omega)
    rw [he, hk] at this
    exact hne i hi (Option.some.inj this).symm
  refine ⟨⟨⟨?_, ?_, ?_, ?_⟩, ?_⟩, ?_⟩
  · intro i hi
    rw [hlen] at hi
    rw [hitem i hi]
    exact h.index i (by omega)
  · intro i hi
    rw [hlen] at hi
    rw [hitem i hi, hptr i hi, hkeys, Function.update_of_ne (hkne i hi)]
    exact h.keyed i (by omega)
  · intro k' q hq
    rw [hkeys] at hq
    by_cases hkk : k' = k
    · rw [hkk, Function.update_self] at hq
      exact nomatch hq
    · rw [Function.update_of_ne hkk] at hq
      obtain ⟨hkey, i, hi, rfl⟩ := h.held k' q hq
      -- the last position belongs to `k`
      have hin : i < n := by
        refine lt_of_le_of_ne (by omega) fun e => hkk ?_
        rw [e, hp] at hq
        exact h.keys_inj hq hk
      exact ⟨by rw [hother _ (hne i hin)]; exact hkey, i, by omega, hptr i hin⟩
  · intro i hi
    rw [hlen] at hi
    rw [hptr i hi, hfresh]
    exact h.fresh i (by omega)
  · rw [hlen]
    intro i h0 hi
    have hpi := parent_lt h0
    unfold expiry
    rw [hitem i hi, hitem _ (by omega)]
    exact ho i h0 hi
  · funext k'
    unfold TtlShard.expireAt
    rw [hkeys]
    by_cases hkk : k' = k
    · rw [hkk, Function.update_self, Function.update_self]
      rfl
    · rw [Function.update_of_ne hkk, Function.update_of_ne hkk]
      cases hq : s.keys k' with
      | none => rfl
      | some q =>
        have hqp : q ≠ p := fun e => hkk (h.keys_inj (e ▸ hq) hk)
        rw [Option.map_some, Option.map_some, hother q hqp]

/-- Cutting off an item that swaps below it have left at the end. -/
theorem cut_after_swaps {s t u : TtlShard} {n p : Nat} {k : Bytes} (hl : Linked t)
    (hd : SameData s t) (hn : s.heap.length = n + 1) (hp : t.ptr n = p) (hk : s.keys k = some p)
    (hs : Swaps ttlHeap n t u) (ho : Ordered (expiry u) n) :
    u.pop.1 = p ∧ (u.pop.2.items p).key = k ∧
      ShardOk ((u.pop.2.putKey k none).releaseTTLItem p) ∧
      ((u.pop.2.putKey k none).releaseTTLItem p).expireAt =
        Function.update s.expireAt k none := by
  have hnt : n ≤ t.heap.length := by
    have := hd.length
    omega
  obtain ⟨hlu, hdu, hpu⟩ := swaps_linked hs hnt hl
  have hlen : u.heap.length = n + 1 := by rw [hdu.length, hd.length, hn]
  have hku : u.keys k = some p := by rw [hdu.keys, hd.keys, hk]
  rw [← hd.expireAt, ← hdu.expireAt]
  exact cut_ok hlu hlen ((hpu n (Nat.le_refl n)).trans hp) hku ho

/-- The shared removal takes the key out and keeps the rest. -/
theorem removeItem_ok (h : ShardOk s) {k : Bytes} {p : Nat} (hk : s.keys k = some p) :
    ShardOk (s.removeItem k p) ∧
      (s.removeItem k p).expireAt = Function.update s.expireAt k none := by
  obtain ⟨hi, hptr⟩ := h.linked.position hk
  unfold TtlShard.removeItem
  generalize (s.items p).index.toNat = i at *
  obtain ⟨n, hn⟩ : ∃ n, s.heap.length = n + 1 := ⟨s.heap.length - 1, by omega⟩
  obtain ⟨t, u, ht, hs, ho, hr⟩ := remove_spec ttlHeap_lawful hn (i := i) (by omega) h.ordered
  have ht' : Linked t ∧ SameData s t ∧ t.ptr n = p := by
    rcases ht with ⟨rfl, rfl⟩ | rfl
    · exact ⟨h.linked, SameData.refl _, hptr⟩
    · refine ⟨h.linked.swap hi (by omega), (SameData.refl s).swap i n, ?_⟩
      show (s.swap i n).ptr n = p
      rw [TtlShard.swap_ptr hi (by omega), swapAt_right, hptr]
  obtain ⟨hlast, _, hok, hexp⟩ := cut_after_swaps ht'.1 ht'.2.1 hn ht'.2.2 hk hs ho
  have hpop : ttlHeap.pop u = (p, u.pop.2) := Prod.ext hlast rfl
  simp only [hr, hpop]
  exact ⟨hok, hexp⟩

/-- **`RemoveTTL`** removes the key's deadline alone. -/
theorem removeTTL_ok (h : ShardOk s) (k : Bytes) :
    ShardOk (s.removeTTL k) ∧ (s.removeTTL k).expireAt = Function.update s.expireAt k none := by
  unfold TtlShard.removeTTL
  cases hk : s.keys k with
  | some p => exact removeItem_ok h hk
  | none =>
    have hexp : s.expireAt k = none := by
      unfold TtlShard.expireAt
      rw [hk, Option.map_none]
    exact ⟨h, by rw [← hexp, Function.update_eq_self]⟩

/-- A deadline still ahead at `now`. -/
def ahead (now : Int) (o : Option Int) : Option Int := o.filter fun e => decide (now < e)

theorem ahead_some_of_lt {now e : Int} (h : now < e) : ahead now (some e) = some e :=
  if_pos (decide_eq_true h)

theorem ahead_some_of_le {now e : Int} (h : e ≤ now) : ahead now (some e) = none :=
  if_neg (by simpa using h)

theorem ahead_eq_some {now e : Int} {o : Option Int} :
    ahead now o = some e ↔ o = some e ∧ now < e := by
  unfold ahead
  rw [Option.filter_eq_some_iff, decide_eq_true_iff]

/-- **`CheckTTL`** fails exactly at a deadline not ahead, and then removes it. -/
theorem checkTTL_ok (h : ShardOk s) (k : Bytes) (now : Int) :
    ShardOk (s.checkTTL k now).1 ∧
      (s.checkTTL k now).1.expireAt =
        Function.update s.expireAt k (ahead now (s.expireAt k)) ∧
      ((s.checkTTL k now).2 = false ↔ ∃ e, s.expireAt k = some e ∧ e ≤ now) := by
  unfold TtlShard.checkTTL
  cases hk : s.keys k with
  | none =>
    have hexp : s.expireAt k = none := by
      unfold TtlShard.expireAt
      rw [hk, Option.map_none]
    refine ⟨h, ?_, ?_⟩
    · show s.expireAt = _
      rw [hexp]
      exact (Function.update_eq_self_iff.mpr hexp.symm).symm
    · rw [hexp]
      exact ⟨fun hf => (nomatch hf), fun ⟨_, he, _⟩ => (nomatch he)⟩
  | some p =>
    have hexp : s.expireAt k = some (s.items p).expireAt := by
      unfold TtlShard.expireAt
      rw [hk, Option.map_some]
    by_cases hgt : (s.items p).expireAt > now
    · simp only [if_pos hgt]
      refine ⟨h, ?_, ?_⟩
      · rw [hexp, ahead_some_of_lt hgt, ← hexp, Function.update_eq_self]
      · rw [hexp]
        refine ⟨fun hf => (nomatch hf), fun ⟨e, he, hle⟩ => ?_⟩
        have := Option.some.inj he
        omega
    · simp only [if_neg hgt]
      obtain ⟨hok, hrem⟩ := removeItem_ok h hk
      refine ⟨hok, ?_, ?_⟩
      · rw [hrem, hexp, ahead_some_of_le (not_lt.mp hgt)]
      · exact ⟨fun _ => ⟨_, hexp, not_lt.mp hgt⟩, fun _ => trivial⟩

/-! ## Collecting what has expired -/

/-- The shard's deadlines are those of its heap. -/
theorem Linked.expireAt_iff (h : Linked s) {k : Bytes} {e : Int} :
    s.expireAt k = some e ↔
      ∃ i, i < s.heap.length ∧ (s.item i).key = k ∧ expiry s i = e := by
  unfold TtlShard.expireAt
  constructor
  · intro he
    obtain ⟨p, hp, rfl⟩ := Option.map_eq_some_iff.mp he
    obtain ⟨hkey, i, hi, rfl⟩ := h.held k p hp
    exact ⟨i, hi, hkey, rfl⟩
  · rintro ⟨i, hi, rfl, rfl⟩
    rw [h.keyed i hi, Option.map_some]
    rfl

/-- The first item of the heap has a least deadline of the shard. -/
theorem ShardOk.root_isLeast (h : ShardOk s) (hpos : 0 < s.heap.length) :
    IsLeast {e | ∃ k, s.expireAt k = some e} (expiry s 0) := by
  refine ⟨⟨_, h.linked.expireAt_iff.mpr ⟨0, hpos, rfl, rfl⟩⟩, ?_⟩
  rintro e ⟨k, he⟩
  obtain ⟨i, hi, _, rfl⟩ := h.linked.expireAt_iff.mp he
  exact h.ordered.root_le i hi

theorem Linked.expireAt_eq_none (h : Linked s) (hz : s.heap.length = 0) (k : Bytes) :
    s.expireAt k = none := by
  refine Option.eq_none_iff_forall_ne_some.mpr fun e he => ?_
  obtain ⟨i, hi, _⟩ := h.expireAt_iff.mp he
  omega

/-- What collecting at `now` leaves and reports: the deadlines ahead stay, the
    others are reported once each, and the next one is the first item's. -/
structure Collected (now : Int) (s : TtlShard) (r : TtlShard × List Bytes × Int) : Prop where
  ok : ShardOk r.1
  kept : ∀ k, r.1.expireAt k = ahead now (s.expireAt k)
  nodup : r.2.1.Nodup
  reported : ∀ k, k ∈ r.2.1 ↔ ∃ e, s.expireAt k = some e ∧ e ≤ now
  next : r.2.2 = if r.1.heap.length = 0 then 0 else expiry r.1 0

/-- Nothing is collected when the first deadline is ahead, or there is none. -/
theorem collected_none (now : Int) {s : TtlShard} (h : ShardOk s)
    (hroot : 0 < s.heap.length → now < expiry s 0) :
    Collected now s (s, [], if s.heap.length = 0 then 0 else expiry s 0) := by
  have hall : ∀ k e, s.expireAt k = some e → now < e := by
    intro k e he
    obtain ⟨i, hi, _, rfl⟩ := h.linked.expireAt_iff.mp he
    exact lt_of_lt_of_le (hroot (by omega)) (h.ordered.root_le i hi)
  refine ⟨h, fun k => ?_, List.nodup_nil, fun k => ?_, rfl⟩
  · show s.expireAt k = _
    cases he : s.expireAt k with
    | none => rfl
    | some e => rw [ahead_some_of_lt (hall k e he)]
  · refine ⟨fun hm => (nomatch hm), fun ⟨e, he, hle⟩ => ?_⟩
    have := hall k e he
    omega

/-- A round takes the first item off, with its key. -/
theorem popRoot_ok (h : ShardOk s) (hpos : 0 < s.heap.length) :
    ∃ k e, (((GoHeap.pop ttlHeap s).2.items (GoHeap.pop ttlHeap s).1).key = k ∧
        s.expireAt k = some e ∧ expiry s 0 = e) ∧
      (((GoHeap.pop ttlHeap s).2.putKey k none).releaseTTLItem
          (GoHeap.pop ttlHeap s).1).heap.length + 1 = s.heap.length ∧
      ShardOk (((GoHeap.pop ttlHeap s).2.putKey k none).releaseTTLItem
          (GoHeap.pop ttlHeap s).1) ∧
      (((GoHeap.pop ttlHeap s).2.putKey k none).releaseTTLItem
          (GoHeap.pop ttlHeap s).1).expireAt = Function.update s.expireAt k none := by
  obtain ⟨n, hn⟩ : ∃ n, s.heap.length = n + 1 := ⟨s.heap.length - 1, by omega⟩
  obtain ⟨u, hs, ho, hr⟩ := pop_spec ttlHeap_lawful hn h.ordered
  have hl := h.linked.swap (i := 0) (j := n) hpos (by omega)
  have hd := (SameData.refl s).swap 0 n
  have hp : (s.swap 0 n).ptr n = s.ptr 0 := by
    rw [TtlShard.swap_ptr hpos (by omega), swapAt_right]
  obtain ⟨hlast, hkey, hok, hexp⟩ :=
    cut_after_swaps hl hd hn hp (h.linked.keyed 0 hpos) hs ho
  have hpop : ttlHeap.pop u = (s.ptr 0, u.pop.2) := Prod.ext hlast rfl
  have hlen : u.heap.length = n + 1 :=
    (hs.len_eq ttlHeap_lawful).trans ((TtlShard.swap_length s 0 n).trans hn)
  refine ⟨(s.item 0).key, expiry s 0, ⟨?_, ?_, rfl⟩, ?_⟩
  · rw [hr, hpop]
    exact hkey
  · exact h.linked.expireAt_iff.mpr ⟨0, hpos, rfl, rfl⟩
  · rw [hr, hpop]
    refine ⟨?_, hok, hexp⟩
    show u.heap.dropLast.length + 1 = _
    rw [List.length_dropLast, hlen, hn]
    rfl

/-- The collecting loop, by induction on the rounds left, which the heap's
    length bounds. -/
theorem collectLoop_ok (now : Int) (fuel : Nat) :
    ∀ s : TtlShard, ShardOk s → s.heap.length ≤ fuel →
      Collected now s (TtlShard.collectLoop now fuel s) := by
  induction fuel with
  | zero =>
    intro s h hf
    have hz : s.heap.length = 0 := by omega
    have := collected_none now h (fun hp => absurd hz hp.ne')
    rwa [if_pos hz] at this
  | succ fuel ih =>
    intro s h hf
    unfold TtlShard.collectLoop
    by_cases hz : s.heap.length = 0
    · rw [if_pos hz]
      have := collected_none now h (fun hp => absurd hz hp.ne')
      rwa [if_pos hz] at this
    · rw [if_neg hz]
      by_cases hgt : (s.item 0).expireAt > now
      · rw [if_pos hgt]
        have := collected_none now h (fun _ => hgt)
        rwa [if_neg hz] at this
      · rw [if_neg hgt]
        obtain ⟨k, e, ⟨hkey, he, hroot⟩, hlen, hok, hexp⟩ :=
          popRoot_ok h (Nat.pos_of_ne_zero hz)
        have hle : e ≤ now := hroot ▸ not_lt.mp hgt
        simp only [hkey]
        have r := ih _ hok (by omega)
        refine ⟨r.ok, fun k' => ?_, List.nodup_cons.mpr ⟨?_, r.nodup⟩, fun k' => ?_, r.next⟩
        · rw [r.kept, hexp]
          by_cases hkk : k' = k
          · rw [hkk, Function.update_self, he, ahead_some_of_le hle]
            rfl
          · rw [Function.update_of_ne hkk]
        · rw [r.reported, hexp, Function.update_self]
          exact fun ⟨_, hn, _⟩ => nomatch hn
        · rw [List.mem_cons, r.reported, hexp]
          by_cases hkk : k' = k
          · rw [hkk]
            exact ⟨fun _ => ⟨e, he, hle⟩, fun _ => .inl rfl⟩
          · rw [Function.update_of_ne hkk]
            exact ⟨fun hm => hm.resolve_left hkk, .inr⟩

/-- **`collectExpiredAndNext`** collects exactly what has expired. -/
theorem collectExpiredAndNext_ok (h : ShardOk s) (now : Int) :
    Collected now s (s.collectExpiredAndNext now) := by
  have r := collectLoop_ok now s.heap.length s h (Nat.le_refl _)
  unfold TtlShard.collectExpiredAndNext
  by_cases hz : (TtlShard.collectLoop now s.heap.length s).2.2 = 0 ∧
      (TtlShard.collectLoop now s.heap.length s).1.heap.length > 0
  · simp only [if_pos hz]
    exact ⟨r.ok, r.kept, r.nodup, r.reported, by rw [if_neg hz.2.ne']; rfl⟩
  · simp only [if_neg hz]
    exact r

end TinyTtl
