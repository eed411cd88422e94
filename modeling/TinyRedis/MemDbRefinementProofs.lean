import TinyRedis.ChoicesProofs
import TinyRedis.ConcurrentMapProofs
import TinyRedis.TtlManagerProofs

/-! # MemDb as it is built

    Elsewhere the store is the plain content of the map and of the TTL index.
    `NewMemDb` builds more than that: a `ConcurrentMap` whose shards are lists that
    turn into trees, with an `int32` counter beside them, and a `TTLManager` whose
    shards are heaps.  Here the executors run over those, operation by operation,
    as `MemDb` passes each one on.

    `Refines` relates such a `MemDb` to a plain store.  Every operation keeps it
    and returns the same, but for `Keys`, which goes through the shards in an order
    of its own: there the plain store is given that order as its choice.  So every
    run of commands and cleanups is a run over the plain store, for some choices
    (`memDb_refines_store`), and what holds of the plain store for all choices
    holds of `MemDb`. -/

namespace TinyDb

open GoString GoFloat GoProgram GoProgram.Prog TinyResp TinyHash TinyMap TinyTtl

variable {F T : Type}

/-! ## The two-level store -/

/-- `MemDb`: the map and the TTL index, as they are built. -/
structure MemDb (F T : Type) where
  db : ConcurrentMap (Value F) T
  ttl : TTLManager

/-- `NewMemDb`, for the configured number of shards. -/
def MemDb.new (shardNum : Int) : MemDb F T := ⟨newConcurrentMap shardNum, newTTLManager shardNum⟩

section Operations

variable (R : RedBlackTree (Value F) T) (sum64 : Bytes → UInt64)

namespace MemDb

/-- `m.db.Get` and the assertion to `kind`. -/
def get (m : MemDb F T) (kind : Kind) (key : Bytes) : Found (kind.Obj F) :=
  match m.db.get R sum64 key with
  | none => .absent
  | some v => v.as kind

/-- `MemDb.CheckTTL`. -/
def checkTTL (m : MemDb F T) (key : Bytes) (now : Int) : Bool × MemDb F T :=
  match m.ttl.checkTTL sum64 key now with
  | (ttl, true) => (true, ⟨m.db, ttl⟩)
  | (ttl, false) => (false, ⟨(m.db.delete R sum64 key).1, ttl⟩)

/-- `MemDb.SetTTL`. -/
def setTTL (m : MemDb F T) (key : Bytes) (expireAt : Int) : Int × MemDb F T :=
  if (m.db.get R sum64 key).isSome then (1, ⟨m.db, m.ttl.setTTL sum64 key expireAt⟩) else (0, m)

/-- `TTLManager.cleanup`: what the index gives up is deleted from the map. -/
def cleanup (m : MemDb F T) (now : Int) : MemDb F T :=
  let r := m.ttl.cleanup now
  ⟨r.2.1.foldl (fun db key => (db.delete R sum64 key).1) m.db, r.1⟩

/-- The number of keys in the map. -/
def keyCount (m : MemDb F T) : Nat := (m.db.shards.flatMap (ConcurrentMap.shardKeys R)).length

end MemDb

/-- What an operation does to `MemDb`.  A write through the pointer stored at a
    key leaves the shard as it is. -/
def Op.applyDb {c : Caps} (env : Env) (now : Int) (d : Nat) :
    (o : Op F c) → MemDb F T → o.Res × MemDb F T
  | .checkTTL key, m => m.checkTTL R sum64 key now
  | .has key, m => ((m.db.get R sum64 key).isSome, m)
  | .typeOf key, m => ((m.db.get R sum64 key).map Value.kind, m)
  | .get kind key _, m => (m.get R sum64 kind key, m)
  | .getAny key _, m => (m.db.get R sum64 key, m)
  | .expireAt key, m => (m.ttl.expireAt sum64 key, m)
  | .keys _, m => (m.db.keys R, m)
  | .set kind key obj _ _, m => ((), ⟨(m.db.set R sum64 key ⟨kind, obj⟩).1, m.ttl⟩)
  | .setAny key v _ _, m => ((), ⟨(m.db.set R sum64 key v).1, m.ttl⟩)
  | .update kind key obj _ _, m => ((), ⟨(m.db.setIfExist R sum64 key ⟨kind, obj⟩).1, m.ttl⟩)
  | .setIfNotExist key val _, m =>
    let r := m.db.setIfNotExist R sum64 key ⟨.str, val⟩
    (r.2, ⟨r.1, m.ttl⟩)
  | .delete key _, m =>
    let r := m.db.delete R sum64 key
    (r.2, ⟨r.1, m.ttl⟩)
  | .setTTL key deadline _ _, m => m.setTTL R sum64 key deadline
  | .removeTTL key _, m => ((), ⟨m.db, m.ttl.removeTTL sum64 key⟩)
  | .now _, m => (now, m)
  | .order l _, m => (env.order d l, m)
  | .intn n _, m => (env.intn d n, m)
  | .level _, m => (env.level d, m)
  | .lock _, m => ((), m)
  | .unLock _, m => ((), m)
  | .rLock _, m => ((), m)
  | .rUnLock _, m => ((), m)

/-- A `MemDb` and the counters of a `World`. -/
structure DbWorld (F T : Type) where
  memDb : MemDb F T
  tick : Nat
  draws : Nat

/-- One operation, one tick. -/
def Op.stepDb {c : Caps} (env : Env) (o : Op F c) (w : DbWorld F T) : o.Res × DbWorld F T :=
  let r := o.applyDb R sum64 env (env.clock w.tick) w.draws w.memDb
  (r.1, ⟨r.2, w.tick + 1, if o.draws then w.draws + 1 else w.draws⟩)

section Commands

variable [UnicodeTables] [FloatText F]

/-- `MemDb.ExecCommand`. -/
def MemDb.execCommand (host : Host) (env : Env) (cmd : Command) (w : DbWorld F T) :
    Except Abort Reply × DbWorld F T :=
  if cmd = [] then (.ok none, w)
  else
    match (lookupCmd host (toLower (cmdName cmd)) : Option (Executor F)) with
    | none => (.ok (errReply "error: unsupported command"), w)
    | some command => (command.body cmd).run (Op.stepDb R sum64 env) w

/-- The world after a round of `cleanup`. -/
def DbWorld.cleanup (env : Env) (w : DbWorld F T) : DbWorld F T :=
  ⟨w.memDb.cleanup R sum64 (env.clock w.tick), w.tick + 1, w.draws⟩

/-- The replies of a run of events, and the world after it. -/
def MemDb.serve (host : Host) (env : Env) :
    List Event → DbWorld F T → List (Except Abort Reply) × DbWorld F T
  | [], w => ([], w)
  | .command cmd :: events, w =>
    let r := MemDb.execCommand R sum64 host env cmd w
    let rest := MemDb.serve host env events r.2
    (r.1 :: rest.1, rest.2)
  | .cleanup :: events, w => MemDb.serve host env events (w.cleanup R sum64 env)

end Commands

/-! ## Few enough keys -/

/-- `m.db.Keys()`. -/
def Op.asksKeys {c : Caps} : Op F c → Bool
  | .keys _ => true
  | _ => false

/-- Whenever the program asks for the keys, there are fewer than `2 ^ 31`, as many
    as the counter of the map can count. -/
def AsksFew {c : Caps} {α : Type} (env : Env) : Cmd F c α → DbWorld F T → Prop
  | .ret _, _ => True
  | .stop _, _ => True
  | .op o next, w => (o.asksKeys = true → w.memDb.keyCount R < 2 ^ 31) ∧
    AsksFew env (next (o.stepDb R sum64 env w).1) (o.stepDb R sum64 env w).2

variable {R sum64} in
/-- A program that never asks for the keys. -/
theorem asksFew_of_uses {c : Caps} {α : Type} {env : Env} {p : Cmd F c α}
    (hp : p.Uses fun o => o.asksKeys = false) (w : DbWorld F T) : AsksFew R sum64 env p w := by
  induction p generalizing w with
  | ret a => trivial
  | stop why => trivial
  | op o next ih =>
    refine ⟨fun hkeys => ?_, ih _ (hp.2 _) _⟩
    rw [hp.1] at hkeys
    cases hkeys

/-- A command that depends on no choice does not ask for the keys. -/
theorem asksKeys_of_caps {c : Caps} (hc : c.random = false) (o : Op F c) : o.asksKeys = false := by
  cases o with
  | keys hrandom =>
    rw [hc] at hrandom
    cases hrandom
  | _ => rfl

theorem keysLoop_uses (pattern : Bytes) (keys res : List Bytes) :
    (keysLoop pattern keys res : Cmd F reads _).Uses fun o => o.asksKeys = false := by
  induction keys generalizing res with
  | nil => trivial
  | cons key rest ih =>
    rw [keysLoop]
    refine Uses.bind (p := checkTTL key) ⟨rfl, fun _ => trivial⟩ fun live => ?_
    cases live with
    | false => exact ih res
    | true =>
      rw [if_pos rfl]
      cases patternMatch pattern key with
      | none => trivial
      | some found =>
        cases found with
        | false => exact ih res
        | true => exact ih (res ++ [key])

variable {R sum64} in
/-- KEYS asks once, before anything else. -/
theorem keysKey_asksFew [UnicodeTables] {env : Env} (cmd : Command) {w : DbWorld F T}
    (h : w.memDb.keyCount R < 2 ^ 31) : AsksFew R sum64 env (keysKey cmd) w := by
  unfold keysKey
  by_cases hlen : cmd.length ≠ 2
  · rw [if_pos hlen]
    trivial
  · obtain ⟨name, pattern, rfl⟩ := List.length_eq_two.mp (not_not.mp hlen)
    rw [if_neg hlen, strAt_bind rfl]
    by_cases hname : toLower (str name) ≠ ascii "keys"
    · rw [if_pos hname]
      trivial
    · rw [if_neg hname]
      refine ⟨fun _ => h, asksFew_of_uses ?_ _⟩
      exact (keysLoop_uses _ _ _).bind fun _ => trivial

/-- The same along a run of events. -/
def ServesFew [UnicodeTables] [FloatText F] (host : Host) (env : Env) :
    List Event → DbWorld F T → Prop
  | [], _ => True
  | .command cmd :: events, w =>
    (∀ command : Executor F, lookupCmd host (toLower (cmdName cmd)) = some command →
      AsksFew R sum64 env (command.body cmd) w) ∧
    ServesFew host env events (MemDb.execCommand R sum64 host env cmd w).2
  | .cleanup :: events, w => ServesFew host env events (w.cleanup R sum64 env)

end Operations

/-! ## The refinement -/

section Refinement

variable (R : RedBlackTree (Value F) T) (sum64 : Bytes → UInt64)

/-- `MemDb` holds what the plain store holds. -/
structure Refines (m : MemDb F T) (s : Store F) : Prop where
  db : Simulates R sum64 m.db s.db
  index : ManagerOk sum64 m.ttl
  ttl : ∀ k, m.ttl.expireAt sum64 k = s.ttl.lookup k

variable {R sum64}

/-- **`NewMemDb`** is the empty store. -/
theorem new_refines (shardNum : Int) :
    Refines R sum64 (MemDb.new shardNum : MemDb F T) (newMemDb : Store F) where
  db := newConcurrentMap_simulates shardNum
  index := new_managerOk sum64 shardNum
  ttl k := by
    have hsh : (newTTLManager shardNum).shardFor sum64 k = TtlShard.new :=
      List.eq_of_mem_replicate (List.mem_of_getElem?
        (Sharded.shardAt_mem (new_managerOk sum64 shardNum) TtlShard.new k))
    rw [MemDb.new, TTLManager.expireAt, hsh, newMemDb, AList.lookup_empty]
    rfl

/-- The map is in step with any list of the same entries. -/
theorem simulates_congr {m : ConcurrentMap (Value F) T} {s t : GoMap (Value F)}
    (h : Simulates R sum64 m s) (hst : ∀ k, s.lookup k = t.lookup k) : Simulates R sum64 m t where
  sharded := h.sharded
  get k := (h.get k).trans (hst k)
  count := by
    have hlist : Lists t.lookup s.keys := by
      rw [← funext hst]
      exact plain_lists s
    rw [h.count, (plain_lists t).length_eq hlist]

variable {m : MemDb F T} {s : Store F}

theorem Refines.get_eq (h : Refines R sum64 m s) (kind : Kind) (key : Bytes) :
    m.get R sum64 kind key = s.get kind key := by
  rw [MemDb.get, h.db.get]
  rfl

theorem Refines.keyCount (hR : R.Correct) (h : Refines R sum64 m s) :
    m.keyCount R = s.db.keys.length :=
  (h.db.flatMap_perm fun _ hd => shardKeys_lists hR hd).length_eq

/-- `Set` on the map. -/
theorem Refines.set (hR : R.Correct) (h : Refines R sum64 m s) (key : Bytes) (v : Value F) :
    Refines R sum64 ⟨(m.db.set R sum64 key v).1, m.ttl⟩ (s.set key v) :=
  ⟨(h.db.set hR key v).1, h.index, h.ttl⟩

/-- A write through a pointer. -/
theorem Refines.update (hR : R.Correct) (h : Refines R sum64 m s) (key : Bytes) (v : Value F) :
    Refines R sum64 ⟨(m.db.setIfExist R sum64 key v).1, m.ttl⟩ (s.update key v) := by
  have hsim := (h.db.setIfExist hR key v).1
  unfold Store.update
  by_cases hmem : key ∈ s.db
  · rw [if_pos hmem] at hsim
    rw [if_pos (AList.lookup_isSome.mpr hmem)]
    exact ⟨hsim, h.index, h.ttl⟩
  · rw [if_neg hmem] at hsim
    rw [if_neg fun hs => hmem (AList.lookup_isSome.mp hs)]
    exact ⟨hsim, h.index, h.ttl⟩

/-- `SetIfNotExist`. -/
theorem Refines.setIfNotExist (hR : R.Correct) (h : Refines R sum64 m s) (key : Bytes)
    (v : Value F) : (m.db.setIfNotExist R sum64 key v).2 = (s.setIfNotExist key v).1 ∧
      Refines R sum64 ⟨(m.db.setIfNotExist R sum64 key v).1, m.ttl⟩ (s.setIfNotExist key v).2 := by
  obtain ⟨hsim, hres⟩ := h.db.setIfNotExist hR key v
  unfold Store.setIfNotExist
  by_cases hmem : key ∈ s.db
  · rw [if_pos hmem] at hsim hres
    rw [if_pos (AList.lookup_isSome.mpr hmem)]
    exact ⟨hres, hsim, h.index, h.ttl⟩
  · rw [if_neg hmem] at hsim hres
    rw [if_neg fun hs => hmem (AList.lookup_isSome.mp hs)]
    exact ⟨hres, hsim, h.index, h.ttl⟩

/-- `Delete`. -/
theorem Refines.delete (hR : R.Correct) (h : Refines R sum64 m s) (key : Bytes) :
    (m.db.delete R sum64 key).2 = (s.delete key).1 ∧
      Refines R sum64 ⟨(m.db.delete R sum64 key).1, m.ttl⟩ (s.delete key).2 := by
  obtain ⟨hsim, hres⟩ := h.db.delete hR key
  refine ⟨?_, simulates_congr hsim fun k => ?_, h.index, fun k => ?_⟩
  · rw [hres, Store.delete]
    by_cases hmem : key ∈ s.db
    · rw [if_pos hmem, if_pos (AList.lookup_isSome.mpr hmem)]
    · rw [if_neg hmem, if_neg fun hs => hmem (AList.lookup_isSome.mp hs)]
  · rw [Store.delete_db, plain_lookup_erase]
  · rw [Store.delete_ttl]
    exact h.ttl k

/-- A call on the index, which leaves the map alone. -/
theorem Refines.onTtl (h : Refines R sum64 m s) (op : TtlOp) {t : Store F} (hdb : t.db = s.db)
    (httl : ∀ k, t.ttl.lookup k = op.deadline k (s.ttl.lookup k)) :
    Refines R sum64 ⟨m.db, op.apply sum64 m.ttl⟩ t := by
  obtain ⟨hok, hexp⟩ := apply_ok h.index op
  refine ⟨?_, hok, fun k => ?_⟩
  · rw [hdb]
    exact h.db
  · rw [hexp, httl, h.ttl]

/-- `RemoveTTL`. -/
theorem Refines.removeTTL (h : Refines R sum64 m s) (key : Bytes) :
    Refines R sum64 ⟨m.db, m.ttl.removeTTL sum64 key⟩ (s.removeTTL key) :=
  h.onTtl (.removeTTL key) rfl fun k => Store.removeTTL_ttl s key k

/-- `MemDb.SetTTL`. -/
theorem Refines.setTTL (h : Refines R sum64 m s) (key : Bytes) (deadline : Int) :
    (m.setTTL R sum64 key deadline).1 = (s.setTTL key deadline).1 ∧
      Refines R sum64 (m.setTTL R sum64 key deadline).2 (s.setTTL key deadline).2 := by
  rw [MemDb.setTTL, Store.setTTL, h.db.get]
  by_cases hsome : (s.db.lookup key).isSome = true
  · rw [if_pos hsome, if_pos hsome]
    exact ⟨rfl, h.onTtl (.setTTL key deadline) rfl fun k => Store.putTTL_ttl s key k deadline⟩
  · rw [if_neg hsome, if_neg hsome]
    exact ⟨rfl, h⟩

/-- `TTLManager.CheckTTL` finds what the plain store finds due. -/
theorem Refines.checkTTL_iff (h : Refines R sum64 m s) (key : Bytes) (now : Int) :
    (m.ttl.checkTTL sum64 key now).2 = false ↔ s.Due key now := by
  have hcheck := (checkTTL_ok (Sharded.shardAt_ok h.index TtlShard.new key) key now).2.2
  rw [Store.Due, ← h.ttl key]
  exact hcheck

/-- `MemDb.CheckTTL`. -/
theorem Refines.checkTTL (hR : R.Correct) (h : Refines R sum64 m s) (key : Bytes) (now : Int) :
    (m.checkTTL R sum64 key now).1 = (s.checkTTL key now).1 ∧
      Refines R sum64 (m.checkTTL R sum64 key now).2 (s.checkTTL key now).2 := by
  have hiff := h.checkTTL_iff key now
  unfold MemDb.checkTTL
  rcases hcall : m.ttl.checkTTL sum64 key now with ⟨ttl, found⟩
  rw [hcall] at hiff
  obtain rfl : (TtlOp.checkTTL key now).apply sum64 m.ttl = ttl := congrArg Prod.fst hcall
  rcases s.checkTTL_cases key now with ⟨hdue, hs⟩ | ⟨hdue, hs⟩
  · obtain rfl : found = false := hiff.mpr hdue
    have hpopped : Refines R sum64 ⟨m.db, (TtlOp.checkTTL key now).apply sum64 m.ttl⟩
        (s.removeTTL key) := by
      refine h.onTtl (.checkTTL key now) rfl fun k => ?_
      obtain ⟨d, hd, hle⟩ := hdue
      rw [Store.removeTTL_ttl, TtlOp.deadline]
      by_cases hk : k = key
      · rw [if_pos hk, if_pos hk, hk, hd, ahead_some_of_le hle]
      · rw [if_neg hk, if_neg hk]
    rw [hs]
    exact ⟨rfl, (hpopped.delete hR key).2⟩
  · obtain rfl : found = true := by simpa using fun hf => hdue (hiff.mp hf)
    rw [hs]
    refine ⟨rfl, h.onTtl (.checkTTL key now) rfl fun k => ?_⟩
    rw [TtlOp.deadline]
    by_cases hk : k = key
    · rw [if_pos hk, hk]
      cases hd : s.ttl.lookup key with
      | none => rfl
      | some d => rw [ahead_some_of_lt (Int.not_le.mp fun hle => hdue ⟨d, hd, hle⟩)]
    · rw [if_neg hk]

/-- A run of deletions. -/
theorem Refines.deletes (hR : R.Correct) (h : Refines R sum64 m s) (keys : List Bytes) :
    Refines R sum64 ⟨keys.foldl (fun db key => (db.delete R sum64 key).1) m.db, m.ttl⟩
      (keys.foldl (fun s key => (s.delete key).2) s) := by
  induction keys generalizing m s with
  | nil => exact h
  | cons key keys ih => exact ih (h.delete hR key).2

/-- What is left when the keys of a list have been deleted. -/
theorem foldl_delete_lookup (keys : List Bytes) (s : Store F) (k : Bytes) :
    (keys.foldl (fun s key => (s.delete key).2) s).db.lookup k =
        (if k ∈ keys then none else s.db.lookup k) ∧
      (keys.foldl (fun s key => (s.delete key).2) s).ttl = s.ttl := by
  induction keys generalizing s with
  | nil => simp
  | cons key keys ih =>
    obtain ⟨hdb, httl⟩ := ih (s.delete key).2
    rw [List.foldl_cons, hdb, httl, Store.delete_db, Store.delete_ttl]
    refine ⟨?_, rfl⟩
    by_cases hk : k ∈ keys
    · simp [hk]
    · simp [hk]

/-- **`cleanup`**: the index gives up what is due, each key is deleted. -/
theorem Refines.cleanup (hR : R.Correct) (h : Refines R sum64 m s) (now : Int) :
    Refines R sum64 (m.cleanup R sum64 now) (s.cleanup now) := by
  have hclean := cleanup_ok h.index now
  have hlook := Store.foldl_expire_lookup (s.dueKeys now) s
  have hdue : ∀ k, k ∈ (m.ttl.cleanup now).2.1 ↔ k ∈ s.dueKeys now := by
    intro k
    rw [hclean.reported, h.ttl, Store.mem_dueKeys, Store.Due]
  have hpopped : Refines R sum64 ⟨m.db, (m.ttl.cleanup now).1⟩ ⟨s.db, (s.cleanup now).ttl⟩ := by
    refine h.onTtl (.cleanup now) rfl fun k => ?_
    show (s.cleanup now).ttl.lookup k = ahead now (s.ttl.lookup k)
    rw [Store.cleanup, (hlook k).2]
    by_cases hk : k ∈ s.dueKeys now
    · obtain ⟨d, hd, hle⟩ := Store.mem_dueKeys.mp hk
      rw [if_pos hk, hd, ahead_some_of_le hle]
    · rw [if_neg hk]
      cases hd : s.ttl.lookup k with
      | none => rfl
      | some d =>
        rw [ahead_some_of_lt (Int.not_le.mp fun hle => hk (Store.mem_dueKeys.mpr ⟨d, hd, hle⟩))]
  have hdel := hpopped.deletes hR (m.ttl.cleanup now).2.1
  refine ⟨simulates_congr hdel.db fun k => ?_, hpopped.index, hpopped.ttl⟩
  rw [(foldl_delete_lookup _ _ k).1, Store.cleanup, (hlook k).1]
  by_cases hk : k ∈ s.dueKeys now
  · rw [if_pos hk, if_pos ((hdue k).mpr hk)]
  · rw [if_neg hk, if_neg fun hm => hk ((hdue k).mp hm)]

end Refinement

/-! ## Operations, commands, runs -/

section Runs

variable (R : RedBlackTree (Value F) T) (sum64 : Bytes → UInt64)

/-- The two worlds are in step. -/
structure InStep (w : DbWorld F T) (v : World F) : Prop where
  store : Refines R sum64 w.memDb v.store
  tick : w.tick = v.tick
  draws : w.draws = v.draws

variable {R sum64}

theorem visiting_perm (keys l : List Bytes) : (if keys.Perm l then keys else l).Perm l := by
  by_cases h : keys.Perm l
  · rw [if_pos h]
    exact h
  · rw [if_neg h]

/-- The order in which `Keys` has gone through the shards, as a choice. -/
def Choice.visiting (a : Choice) (keys : List Bytes) : Choice :=
  { a with
    order := fun l => if keys.Perm l then keys else l
    order_perm := visiting_perm keys }

/-- **One operation** keeps the worlds in step and returns the same, for some
    choice. -/
theorem InStep.step (hR : R.Correct) {c : Caps} {w : DbWorld F T} {v : World F}
    (h : InStep R sum64 w v) (env : Env) (o : Op F c)
    (hfew : o.asksKeys = true → w.memDb.keyCount R < 2 ^ 31) :
    ∃ a, (o.stepDb R sum64 env w).1 = (o.stepWith env a v).1 ∧
      InStep R sum64 (o.stepDb R sum64 env w).2 (o.stepWith env a v).2 := by
  obtain ⟨m, tick, draws⟩ := w
  obtain ⟨hs, rfl, rfl⟩ := h
  cases o with
  | keys hc =>
    refine ⟨(env.choice v.draws).visiting (m.db.keys R), ?_, hs, rfl, rfl⟩
    have hlen : v.store.db.keys.length < 2 ^ 31 := by
      rw [← hs.keyCount hR]
      exact hfew rfl
    exact (if_pos (hs.db.keys hR hlen)).symm
  | checkTTL key =>
    obtain ⟨hres, hs'⟩ := hs.checkTTL hR key (env.clock v.tick)
    exact ⟨env.choice v.draws, hres, hs', rfl, rfl⟩
  | has key => exact ⟨env.choice v.draws, congrArg Option.isSome (hs.db.get key), hs, rfl, rfl⟩
  | typeOf key =>
    exact ⟨env.choice v.draws, congrArg (Option.map Value.kind) (hs.db.get key), hs, rfl, rfl⟩
  | get kind key hc => exact ⟨env.choice v.draws, hs.get_eq kind key, hs, rfl, rfl⟩
  | getAny key hc => exact ⟨env.choice v.draws, hs.db.get key, hs, rfl, rfl⟩
  | expireAt key => exact ⟨env.choice v.draws, hs.ttl key, hs, rfl, rfl⟩
  | set kind key obj hw hc => exact ⟨env.choice v.draws, rfl, hs.set hR key _, rfl, rfl⟩
  | setAny key val hw hc => exact ⟨env.choice v.draws, rfl, hs.set hR key val, rfl, rfl⟩
  | update kind key obj hw hc => exact ⟨env.choice v.draws, rfl, hs.update hR key _, rfl, rfl⟩
  | setIfNotExist key val hw =>
    obtain ⟨hres, hs'⟩ := hs.setIfNotExist hR key ⟨.str, val⟩
    exact ⟨env.choice v.draws, hres, hs', rfl, rfl⟩
  | delete key hw =>
    obtain ⟨hres, hs'⟩ := hs.delete hR key
    exact ⟨env.choice v.draws, hres, hs', rfl, rfl⟩
  | setTTL key deadline hw ht =>
    obtain ⟨hres, hs'⟩ := hs.setTTL key deadline
    exact ⟨env.choice v.draws, hres, hs', rfl, rfl⟩
  | removeTTL key hw => exact ⟨env.choice v.draws, rfl, hs.removeTTL key, rfl, rfl⟩
  | now ht => exact ⟨env.choice v.draws, rfl, hs, rfl, rfl⟩
  | order l hc => exact ⟨env.choice v.draws, rfl, hs, rfl, rfl⟩
  | intn n hc => exact ⟨env.choice v.draws, rfl, hs, rfl, rfl⟩
  | level hc => exact ⟨env.choice v.draws, rfl, hs, rfl, rfl⟩
  | lock keys => exact ⟨env.choice v.draws, rfl, hs, rfl, rfl⟩
  | unLock keys => exact ⟨env.choice v.draws, rfl, hs, rfl, rfl⟩
  | rLock keys => exact ⟨env.choice v.draws, rfl, hs, rfl, rfl⟩
  | rUnLock keys => exact ⟨env.choice v.draws, rfl, hs, rfl, rfl⟩

/-- **One executor**: what it does over `MemDb` it can do over the plain store. -/
theorem InStep.run (hR : R.Correct) {c : Caps} {α : Type} {env : Env} (p : Cmd F c α)
    {w : DbWorld F T} {v : World F} (h : InStep R sum64 w v) (hfew : AsksFew R sum64 env p w) :
    ∃ v', CanRun (Op.stepWith env) p v (p.run (Op.stepDb R sum64 env) w).1 v' ∧
      InStep R sum64 (p.run (Op.stepDb R sum64 env) w).2 v' := by
  induction p generalizing w v with
  | ret a => exact ⟨v, .ret a v, h⟩
  | stop why => exact ⟨v, .stop why v, h⟩
  | op o next ih =>
    obtain ⟨a, hres, hstep⟩ := h.step hR env o hfew.1
    obtain ⟨v', hcan, hv'⟩ := ih _ hstep hfew.2
    refine ⟨v', .op a ?_, hv'⟩
    rw [← hres]
    exact hcan

variable [UnicodeTables] [FloatText F]

/-- **One command.** -/
theorem InStep.exec (hR : R.Correct) {host : Host} {env : Env} {cmd : Command} {w : DbWorld F T}
    {v : World F} (h : InStep R sum64 w v)
    (hfew : ∀ command : Executor F, lookupCmd host (toLower (cmdName cmd)) = some command →
      AsksFew R sum64 env (command.body cmd) w) :
    ∃ v', CanExec host env cmd v (MemDb.execCommand R sum64 host env cmd w).1 v' ∧
      InStep R sum64 (MemDb.execCommand R sum64 host env cmd w).2 v' := by
  unfold MemDb.execCommand
  by_cases hne : cmd = []
  · rw [if_pos hne]
    exact ⟨v, ⟨env.choice, by rw [execCommand, if_pos hne]⟩, h⟩
  · rw [if_neg hne]
    cases hlook : (lookupCmd host (toLower (cmdName cmd)) : Option (Executor F)) with
    | none => exact ⟨v, ⟨env.choice, by rw [execCommand, if_neg hne, hlook]⟩, h⟩
    | some command =>
      obtain ⟨v', hcan, hv'⟩ := h.run hR (command.body cmd) (hfew command hlook)
      exact ⟨v', canExec_of_canRun hne hlook hcan, hv'⟩

/-- **Every run** of commands and cleanups. -/
theorem InStep.serve (hR : R.Correct) {host : Host} {env : Env} (events : List Event)
    {w : DbWorld F T} {v : World F} (h : InStep R sum64 w v)
    (hfew : ServesFew R sum64 host env events w) :
    ∃ v', CanServe host env events v (MemDb.serve R sum64 host env events w).1 v' ∧
      InStep R sum64 (MemDb.serve R sum64 host env events w).2 v' := by
  induction events generalizing w v with
  | nil => exact ⟨v, .nil v, h⟩
  | cons event events ih =>
    cases event with
    | command cmd =>
      obtain ⟨v₁, hexec, h₁⟩ := h.exec hR hfew.1
      obtain ⟨v₂, hrest, h₂⟩ := ih h₁ hfew.2
      exact ⟨v₂, .command hexec hrest, h₂⟩
    | cleanup =>
      have h₁ : InStep R sum64 (w.cleanup R sum64 env) (Event.apply host env v .cleanup) := by
        refine ⟨?_, congrArg (· + 1) h.tick, h.draws⟩
        rw [DbWorld.cleanup, h.tick]
        exact h.store.cleanup hR _
      obtain ⟨v₂, hrest, h₂⟩ := ih h₁ hfew
      exact ⟨v₂, .cleanup hrest, h₂⟩

end Runs

/-- **MEMDB REFINES THE PLAIN STORE**: for every hash function, configured number
    of shards, clock, choices and run of commands and cleanups from `NewMemDb`, in
    which the keys are asked for only while there are fewer than `2 ^ 31`, there
    are choices for which the plain store gives the same replies at the same clock
    readings, and at the end the two hold the same keys, values and deadlines. -/
theorem memDb_refines_store [UnicodeTables] [FloatText F] (R : RedBlackTree (Value F) T)
    (hR : R.Correct) (sum64 : Bytes → UInt64) (shardNum : Int) (host : Host) (env : Env)
    (events : List Event) (hfew : ServesFew R sum64 host env events ⟨MemDb.new shardNum, 0, 0⟩) :
    ∃ ω, (MemDb.serve R sum64 host env events ⟨MemDb.new shardNum, 0, 0⟩).1 =
        (serve host (env.withChoices ω) events (emptyWorld : World F)).1 ∧
      ∀ k,
        (MemDb.serve R sum64 host env events ⟨MemDb.new shardNum, 0, 0⟩).2.memDb.db.get R sum64 k =
          (runEvents host (env.withChoices ω) events (emptyWorld : World F)).store.db.lookup k ∧
        (MemDb.serve R sum64 host env events ⟨MemDb.new shardNum, 0, 0⟩).2.memDb.ttl.expireAt
            sum64 k =
          (runEvents host (env.withChoices ω) events
            (emptyWorld : World F)).store.ttl.lookup k := by
  have hnew : InStep R sum64 (⟨MemDb.new shardNum, 0, 0⟩ : DbWorld F T) (emptyWorld : World F) :=
    ⟨new_refines shardNum, rfl, rfl⟩
  obtain ⟨v', hcan, hv'⟩ := hnew.serve hR events hfew
  obtain ⟨ω, hserve⟩ := hcan.exists_choices
  refine ⟨ω, by rw [hserve], fun k => ?_⟩
  rw [← serve_world, hserve]
  exact ⟨hv'.store.db.get k, hv'.store.ttl k⟩

/-- Eight keys, a deadline for one of them, a listing and a cleanup. -/
def treeEvents : List Event :=
  [.command (words ["MSET", "a", "1", "b", "2", "c", "3", "d", "4", "e", "5", "f", "6", "g", "7",
    "h", "8"]),
    .command (words ["EXPIRE", "a", "100"]),
    .command (words ["KEYS", "*"]), .cleanup]

/-- With one shard the eight keys end up in a tree. -/
theorem memDb_refines_store_tree :
    letI := asciiTables
    let r := MemDb.serve sortedTree (fun _ => 0) quietHost stillEnv treeEvents
      (⟨MemDb.new 1, 0, 0⟩ : DbWorld IntScore (SortedEntries (Value IntScore)))
    (∃ t, .treeWrapper t ∈ r.2.memDb.db.shards) ∧
      r.2.memDb.ttl.expireAt (fun _ => 0) (ascii "a") = some 100 ∧
      ∃ ω, r.1 = (serve quietHost (stillEnv.withChoices ω) treeEvents
        (emptyWorld : World IntScore)).1 := by
  intro r
  let _ := asciiTables
  have hmset : (lookupCmd quietHost (ascii "mset") : Option (Executor IntScore)) =
      some ⟨_, mSetString⟩ := lookupCmd_of_mem (by simp [cmdTable])
  have hexpire : (lookupCmd quietHost (ascii "expire") : Option (Executor IntScore)) =
      some ⟨_, expireKey⟩ := lookupCmd_of_mem (by simp [cmdTable])
  have hkeys : (lookupCmd quietHost (ascii "keys") : Option (Executor IntScore)) =
      some ⟨_, keysKey⟩ := lookupCmd_of_mem (by simp [cmdTable])
  obtain ⟨ω, h, -⟩ := memDb_refines_store sortedTree sortedTree_correct (fun _ => 0) 1 quietHost
    stillEnv treeEvents (by
      refine And.intro (fun command hlook => ?_) (And.intro (fun command hlook => ?_)
        (And.intro (fun command hlook => ?_) trivial))
      · obtain rfl := Option.some.inj (hmset.symm.trans hlook)
        exact asksFew_of_uses (uses_of_forall (asksKeys_of_caps rfl) _) _
      · obtain rfl := Option.some.inj (hexpire.symm.trans hlook)
        exact asksFew_of_uses (uses_of_forall (asksKeys_of_caps rfl) _) _
      · obtain rfl := Option.some.inj (hkeys.symm.trans hlook)
        have hfew := @keysKey_asksFew IntScore _ sortedTree (fun _ => 0) _ stillEnv
          (words ["KEYS", "*"])
          (@MemDb.serve IntScore _ sortedTree (fun _ => 0) asciiTables _ quietHost stillEnv
            (treeEvents.take 2) ⟨MemDb.new 1, 0, 0⟩).2 (by decide +kernel)
        exact hfew)
  exact ⟨⟨_, List.mem_cons_self⟩, by decide +kernel, ω, h⟩

end TinyDb
