import TinyRedis.CommandSpecsProofs
import TinyRedis.LockOrderProofs
import TinyRedis.HashKeyProofs

/-! # The key locks

    `Locks` is an array of read-write mutexes, and a key is guarded by the one
    at the position it hashes to.  Different keys can share a position, so the
    operations on several keys work on the set of their positions, in ascending
    order.

    `lockEvents` says what an operation of `MemDb` does to the positions.  Along
    a command that keeps the discipline of the executors, the locks held are
    those of the current phase. -/

namespace TinyDb

open GoString TinyHash LockOrder

/-! ## Positions -/

section Positions

variable (sum64 : Bytes → UInt64) (n : Nat)

/-- `GetKeyPos`, among `n` locks; none is the position -1. -/
def getKeyPos (key : Bytes) : Option (Fin n) :=
  if hn : n = 0 then none
  else
    let h := hashKey sum64 key
    if n &&& (n - 1) = 0 then
      some ⟨h &&& (n - 1), Nat.lt_of_le_of_lt Nat.and_le_right (Nat.sub_one_lt hn)⟩
    else some ⟨h % n, Nat.mod_lt h (Nat.pos_of_ne_zero hn)⟩

/-- `sortedLockPoses`: the set of the positions, sorted.  Where the source
    returns nil there is no lock at all, and here no position. -/
def sortedLockPoses (keys : List Bytes) : List (Fin n) :=
  (keys.filterMap (getKeyPos sum64 n)).toFinset.sort

theorem sortedLockPoses_ascending (keys : List Bytes) :
    (sortedLockPoses sum64 n keys).Pairwise (· < ·) :=
  (Finset.sortedLT_sort _).pairwise

/-- One key has one position: `Lock` and `LockMulti` of one key are the same. -/
theorem sortedLockPoses_singleton (key : Bytes) :
    sortedLockPoses sum64 n [key] = (getKeyPos sum64 n key).toList := by
  rw [sortedLockPoses, List.filterMap_cons]
  cases getKeyPos sum64 n key with
  | none => simp
  | some p => simp

theorem sortedLockPoses_ne_nil (hn : 0 < n) {keys : List Bytes} (hkeys : keys ≠ []) :
    sortedLockPoses sum64 n keys ≠ [] := by
  obtain ⟨key, rest, rfl⟩ := List.exists_cons_of_ne_nil hkeys
  have hpos : (getKeyPos sum64 n key).isSome := by
    unfold getKeyPos
    rw [dif_neg (Nat.ne_of_gt hn)]
    dsimp only
    split <;> rfl
  obtain ⟨p, hp⟩ := Option.isSome_iff_exists.mp hpos
  have hmem : p ∈ sortedLockPoses sum64 n (key :: rest) := by simp [sortedLockPoses, hp]
  exact List.ne_nil_of_mem hmem

end Positions

/-! ## What the operations do to the positions -/

section Events

variable (sum64 : Bytes → UInt64) (n : Nat) {F : Type} {c : Caps}

/-- What an operation does to the key locks.  `CheckTTL` locks the key to delete
    it, when it has expired. -/
def Op.lockEvents : (o : Op F c) → o.Res → List (LockOrder.Event Mode (Fin n))
  | .checkTTL key, alive =>
    if alive then []
    else (sortedLockPoses sum64 n [key]).map (.acquire .write) ++
      (sortedLockPoses sum64 n [key]).map (.release .write)
  | .lock ks, _ => (sortedLockPoses sum64 n ks).map (.acquire .write)
  | .unLock ks, _ => (sortedLockPoses sum64 n ks).map (.release .write)
  | .rLock ks, _ => (sortedLockPoses sum64 n ks).map (.acquire .read)
  | .rUnLock ks, _ => (sortedLockPoses sum64 n ks).map (.release .read)
  | _, _ => []

/-- The positions behind the keys that a phase has locked. -/
def heldBy : Option (Mode × List Bytes) → Multiset (Mode × Fin n)
  | none => 0
  | some (mode, keys) => locked mode (sortedLockPoses sum64 n keys)

theorem acquire_positions (mode : Mode) (keys : List Bytes) :
    Ascends 0 ((sortedLockPoses sum64 n keys).map (.acquire mode)) ∧
      settle 0 ((sortedLockPoses sum64 n keys).map (.acquire mode)) =
        some (heldBy sum64 n (some (mode, keys))) := by
  refine ⟨ascends_acquire mode (sortedLockPoses_ascending sum64 n keys) (by simp), ?_⟩
  rw [settle_acquire, zero_add]
  rfl

theorem release_positions (mode : Mode) (keys : List Bytes) :
    Ascends (heldBy sum64 n (some (mode, keys)))
        ((sortedLockPoses sum64 n keys).map (.release mode)) ∧
      settle (heldBy sum64 n (some (mode, keys)))
        ((sortedLockPoses sum64 n keys).map (.release mode)) = some 0 := by
  refine ⟨ascends_release _ _ _, ?_⟩
  have h := settle_release mode (sortedLockPoses sum64 n keys) 0
  rwa [zero_add] at h

/-- **What the discipline allows** takes locks in ascending order, releases only
    what is held, and leaves the locks of the next phase. -/
theorem Phase.next_locks {q q' : Phase} {o : Op F c} (h : q.next o = some q') (r : o.Res) :
    Ascends (heldBy sum64 n q.lock) (o.lockEvents sum64 n r) ∧
      settle (heldBy sum64 n q.lock) (o.lockEvents sum64 n r) = some (heldBy sum64 n q'.lock) := by
  obtain ⟨lock, wrote, pending⟩ := q
  cases o with
  | checkTTL key =>
    simp only [Phase.next, Option.ite_none_right_eq_some, Option.some.injEq] at h
    obtain ⟨rfl, rfl⟩ := h
    cases r with
    | true => exact ⟨trivial, rfl⟩
    | false =>
      obtain ⟨hasc, hset⟩ := acquire_positions sum64 n .write [key]
      obtain ⟨hasc', hset'⟩ := release_positions sum64 n .write [key]
      refine ⟨hasc.append hset hasc', ?_⟩
      exact (settle_append _ _ _).trans (hset ▸ hset')
  | lock keys =>
    simp only [Phase.next, Phase.acquire, Option.ite_none_right_eq_some, Option.some.injEq] at h
    obtain ⟨rfl, rfl⟩ := h
    exact acquire_positions sum64 n .write keys
  | rLock keys =>
    simp only [Phase.next, Phase.acquire, Option.ite_none_right_eq_some, Option.some.injEq] at h
    obtain ⟨rfl, rfl⟩ := h
    exact acquire_positions sum64 n .read keys
  | unLock keys =>
    simp only [Phase.next, Phase.release, Option.ite_none_right_eq_some, Option.some.injEq] at h
    obtain ⟨rfl, rfl⟩ := h
    exact release_positions sum64 n .write keys
  | rUnLock keys =>
    simp only [Phase.next, Phase.release, Option.ite_none_right_eq_some, Option.some.injEq] at h
    obtain ⟨rfl, rfl⟩ := h
    exact release_positions sum64 n .read keys
  | delete key hw =>
    simp only [Phase.next, Option.ite_none_right_eq_some, Option.some.injEq] at h
    obtain ⟨-, rfl⟩ := h
    exact ⟨trivial, rfl⟩
  | removeTTL key hw =>
    simp only [Phase.next, Option.ite_none_right_eq_some, Option.some.injEq] at h
    obtain ⟨-, rfl⟩ := h
    exact ⟨trivial, rfl⟩
  | _ =>
    obtain rfl := Option.some.inj h
    exact ⟨trivial, rfl⟩

end Events

end TinyDb
