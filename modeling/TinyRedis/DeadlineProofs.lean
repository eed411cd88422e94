import TinyRedis.CommandSpecsProofs

/-! # No orphan deadlines

    The map and the TTL index are two stores, and nothing but the order of the
    calls keeps them in step.  The invariant is that a key without a value has
    no deadline.  Within a command it is broken for one key at a time, between
    `m.db.Delete(key)` and the `m.ttl.RemoveTTL(key)` after it; the protocol
    calls that key pending, and no executor ends with one. -/

namespace TinyDb

open GoString GoFloat GoProgram.Prog TinyResp

variable {F : Type}

/-! ## Background cleanup -/

namespace Store

/-- The keys of the TTL index whose deadline has come. -/
def dueKeys (s : Store F) (now : Int) : List Bytes :=
  s.ttl.keys.filter fun key => (s.ttl.lookup key).any fun expireAt => decide (expireAt ≤ now)

/-- An expired key is taken out of the index and deleted. -/
def expire (s : Store F) (key : Bytes) : Store F := ((s.removeTTL key).delete key).2

/-- `TTLManager.cleanup`, as one step: every entry that has come is popped and
    its key deleted from the map. -/
def cleanup (s : Store F) (now : Int) : Store F := (s.dueKeys now).foldl expire s

@[simp] theorem expire_db (s : Store F) (key k : Bytes) :
    (s.expire key).db.lookup k = if k = key then none else s.db.lookup k := by
  simp [expire]

@[simp] theorem expire_ttl (s : Store F) (key k : Bytes) :
    (s.expire key).ttl.lookup k = if k = key then none else s.ttl.lookup k := by
  simp [expire]

theorem mem_dueKeys {s : Store F} {now : Int} {key : Bytes} :
    key ∈ s.dueKeys now ↔ s.Due key now := by
  rw [dueKeys, List.mem_filter, ← AList.mem_keys, ← AList.lookup_isSome]
  constructor
  · rintro ⟨hsome, hany⟩
    obtain ⟨d, hd⟩ := Option.isSome_iff_exists.mp hsome
    rw [hd] at hany
    exact ⟨d, hd, of_decide_eq_true hany⟩
  · rintro ⟨d, hd, hle⟩
    simp [hd, hle]

/-- What is left of a key when all of `keys` are taken out. -/
theorem foldl_expire_lookup (keys : List Bytes) (s : Store F) (k : Bytes) :
    (keys.foldl expire s).db.lookup k = (if k ∈ keys then none else s.db.lookup k) ∧
      (keys.foldl expire s).ttl.lookup k = if k ∈ keys then none else s.ttl.lookup k := by
  induction keys generalizing s with
  | nil => simp
  | cons key rest ih =>
    obtain ⟨hdb, httl⟩ := ih (s.expire key)
    rw [List.foldl_cons, hdb, httl, expire_db, expire_ttl]
    by_cases hrest : k ∈ rest
    · simp [hrest]
    · simp [hrest]

@[simp] theorem putTTL_db (s : Store F) (key : Bytes) (d : Int) : (s.putTTL key d).db = s.db := rfl

@[simp] theorem putTTL_ttl (s : Store F) (key k : Bytes) (d : Int) :
    (s.putTTL key d).ttl.lookup k = if k = key then some d else s.ttl.lookup k := by
  by_cases h : k = key
  · subst h
    rw [if_pos rfl]
    exact AList.lookup_insert s.ttl
  · rw [if_neg h]
    exact AList.lookup_insert_ne h

end Store

/-! ## Runs -/

/-- What happens to a `MemDb`: a command is executed to its end, or the
    background loop cleans up. -/
inductive Event where
  | command (cmd : Command)
  | cleanup

section Runs

variable [UnicodeTables] [FloatText F]

/-- The world after an event. -/
def Event.apply (host : Host) (env : Env) (w : World F) : Event → World F
  | .command cmd => (execCommand host env cmd w).2
  | .cleanup => { w with store := w.store.cleanup (env.clock w.tick), tick := w.tick + 1 }

/-- The world after a run of events. -/
def runEvents (host : Host) (env : Env) (events : List Event) (w : World F) : World F :=
  events.foldl (Event.apply host env) w

end Runs

/-! ## The invariant -/

/-- A key without a value has no deadline. -/
def NoOrphans (s : Store F) : Prop := ∀ k, s.db.lookup k = none → s.ttl.lookup k = none

/-- The invariant in the middle of a command: the pending key is excused. -/
def NoOrphansBut (q : Phase) (s : Store F) : Prop :=
  ∀ k, s.db.lookup k = none → q.pending ≠ some k → s.ttl.lookup k = none

theorem NoOrphansBut.of_pending {q q' : Phase} {s : Store F} (h : NoOrphansBut q s)
    (hq : q'.pending = q.pending) : NoOrphansBut q' s :=
  fun k hk hp => h k hk (hq ▸ hp)

theorem NoOrphansBut.set {q : Phase} {s : Store F} (h : NoOrphansBut q s) (key : Bytes)
    (v : Value F) : NoOrphansBut q.write (s.set key v) := by
  intro k hk hp
  rw [Store.set_db] at hk
  split at hk
  · cases hk
  · exact h k hk hp

/-- **One operation** that the discipline allows keeps the invariant. -/
theorem Op.apply_noOrphans {c : Caps} {env : Env} {now : Int} {n : Nat} {q q' : Phase} {s : Store F}
    (h : NoOrphansBut q s) (o : Op F c) (hq : q.next o = some q') :
    NoOrphansBut q' (o.apply env now n s).2 := by
  cases o with
  | checkTTL key =>
    obtain rfl : q = q' := by simp at hq; exact hq.2
    rcases s.checkTTL_cases key now with ⟨-, hs⟩ | ⟨-, hs⟩
    · intro k hk hp
      simp only [Op.apply, hs] at hk ⊢
      simp at hk ⊢
      exact fun hne => h k (hk hne) hp
    · simpa only [Op.apply, hs] using h
  | set kind key obj hw hz =>
    obtain rfl : q.write = q' := by simpa using hq
    exact h.set key _
  | setAny key v hw hz =>
    obtain rfl : q.write = q' := by simpa using hq
    exact h.set key v
  | update kind key obj hw hz =>
    obtain rfl : q.write = q' := by simpa using hq
    simp only [Op.apply, Store.update]
    split
    · exact h.set key _
    · exact h
  | setIfNotExist key val hw =>
    obtain rfl : q.write = q' := by simpa using hq
    simp only [Op.apply, Store.setIfNotExist]
    split
    · exact h
    · exact h.set key _
  | delete key hw =>
    obtain ⟨hnone, rfl⟩ : q.pending = none ∧ { q.write with pending := some key } = q' := by
      simpa using hq
    intro k hk hp
    have hne : k ≠ key := fun e => hp (congrArg some e.symm)
    have hk' : s.db.lookup k = none := by simpa [Op.apply, hne] using hk
    simpa [Op.apply] using h k hk' (by simp [hnone])
  | setTTL key deadline hw ht =>
    obtain rfl : q.write = q' := by simpa using hq
    simp only [Op.apply, Store.setTTL]
    split
    · next hsome =>
        intro k hk hp
        have hne : k ≠ key := by
          rintro rfl
          simp [show s.db.lookup k = none from hk] at hsome
        simpa [hne] using h k hk hp
    · exact h
  | removeTTL key hw =>
    obtain ⟨hpend, rfl⟩ : (q.pending = none ∨ q.pending = some key) ∧
        { q.write with pending := none } = q' := by
      simpa using hq
    intro k hk hp
    by_cases hne : k = key
    · simp [Op.apply, hne]
    · have hpk : q.pending ≠ some k := by
        rcases hpend with hnone | hsome
        · simp [hnone]
        · simpa [hsome] using fun e => hne e.symm
      simpa [Op.apply, hne] using h k hk hpk
  | lock keys => exact h.of_pending (by simp at hq; simp [← hq.2])
  | unLock keys => exact h.of_pending (by simp at hq; simp [← hq.2])
  | rLock keys => exact h.of_pending (by simp at hq; simp [← hq.2])
  | rUnLock keys => exact h.of_pending (by simp at hq; simp [← hq.2])
  | _ =>
    obtain rfl : q = q' := by simpa using hq
    exact h

section Runs

variable [UnicodeTables] [FloatText F]

/-- **A whole command** keeps it. -/
theorem execCommand_noOrphans (host : Host) (env : Env) (cmd : Command) {w : World F}
    (h : NoOrphans w.store) : NoOrphans (execCommand host env cmd w).2.store := by
  rcases execCommand_cases host env cmd w with
    ⟨reply, hrun, -⟩ | ⟨name, command, hmem, -, -, -, hrun⟩
  · rw [hrun]
    exact h
  · have hstep : ∀ q (o : Op F command.caps) q' (w : World F), NoOrphansBut q w.store →
        discipline.next q o = some q' →
        discipline.rely q o (o.step env w).1 ∧ NoOrphansBut q' (o.step env w).2.store :=
      fun q o q' w hI hq => ⟨trivial, Op.apply_noOrphans hI o hq⟩
    obtain ⟨q, hI, hend⟩ := ((cmdTable_keeps host _ hmem).tidy cmd).run
      (I := fun q w => NoOrphansBut q w.store) hstep (s := w) fun k hk _ => h k hk
    rw [hrun]
    exact fun k hk => hI k hk (by simp [hend.1])

omit [UnicodeTables] [FloatText F] in
/-- A cleanup takes a key out of both. -/
theorem cleanup_noOrphans {s : Store F} (h : NoOrphans s) (now : Int) :
    NoOrphans (s.cleanup now) := by
  unfold Store.cleanup
  generalize s.dueKeys now = keys
  induction keys generalizing s with
  | nil => exact h
  | cons key rest ih =>
    refine ih fun k hk => ?_
    by_cases hne : k = key
    · simp [hne]
    · simp only [Store.expire_db, Store.expire_ttl, if_neg hne] at hk ⊢
      exact h k hk

/-- **No orphan deadlines**: after every run of commands and cleanups from an
    empty `MemDb`, with any clock, a key that has an entry in the TTL index has a
    value in the map; a key that is created again starts without a deadline. -/
theorem runEvents_noOrphans (host : Host) (env : Env) (events : List Event) :
    NoOrphans (runEvents host env events (emptyWorld : World F)).store := by
  suffices h : ∀ w : World F, NoOrphans w.store → NoOrphans (runEvents host env events w).store from
    h _ fun _ _ => rfl
  induction events with
  | nil => exact fun w h => h
  | cons event rest ih =>
    intro w h
    refine ih _ ?_
    cases event with
    | command cmd => exact execCommand_noOrphans host env cmd h
    | cleanup => exact cleanup_noOrphans h _

end Runs

end TinyDb
