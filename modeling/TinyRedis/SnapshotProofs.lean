import TinyRedis.CommandTableProofs

/-! # Snapshots of the replicated store

    Raft asks the state machine for a snapshot at some index, keeps the bytes
    its `Persist` writes, and may drop the log entries up to there.  A node
    that starts again hands those bytes to `Restore` and applies only the
    entries after the index.

    `fsm.Snapshot` takes nothing along, `Persist` writes nothing and `Restore`
    reads nothing, so what the first entries did is gone unless it was
    nothing. -/

namespace TinyDb

open GoString GoFloat TinyResp TinyRespRoundTrip

variable {F : Type}

/-! ## The snapshot -/

/-- `fsmSnapshot`, which has no fields. -/
structure FsmSnapshot where

/-- `fsm.Snapshot`. -/
def fsmSnapshot (_ : Store F) : FsmSnapshot := ⟨⟩

/-- `fsmSnapshot.Persist`: what it writes to the sink. -/
def FsmSnapshot.persist (_ : FsmSnapshot) : Bytes := []

/-- `fsm.Restore`: the bytes are closed unread. -/
def fsmRestore (_ : Bytes) (s : Store F) : Store F := s

/-- A fresh node restored from a snapshot of `w`, at the clock readings and
    choices that come next. -/
def restored (w : World F) : World F :=
  { w with store := fsmRestore (fsmSnapshot w.store).persist newMemDb }

/-- No key and no deadline. -/
def Store.Empty (s : Store F) : Prop := ∀ k, s.db.lookup k = none ∧ s.ttl.lookup k = none

theorem goMap_eq_empty {V : Type} {m : GoMap V} (h : ∀ k, m.lookup k = none) : m = ∅ := by
  refine AList.ext ?_
  rcases hentries : m.entries with _ | ⟨⟨k, v⟩, rest⟩
  · rfl
  · have hk : k ∈ m.keys := by simp [AList.keys, List.keys, hentries]
    exact absurd (AList.mem_keys.mpr hk) (AList.lookup_eq_none.mp (h k))

theorem Store.Empty.eq_newMemDb {s : Store F} (h : s.Empty) : s = newMemDb := by
  obtain ⟨db, ttl⟩ := s
  obtain rfl : db = ∅ := goMap_eq_empty fun k => (h k).1
  obtain rfl : ttl = ∅ := goMap_eq_empty fun k => (h k).2
  rfl

/-! ## Logs -/

section Logs

variable [UnicodeTables] [FloatText F]

/-- No entry of the log crashes the replica. -/
def Completes (host : Host) (env : Env) (log : List Bytes) (w : World F) : Prop :=
  ∀ reply ∈ (applyLog host env log w).1, ∃ bytes, reply = .ok bytes

/-- An entry that holds a command. -/
theorem applyLog_command (host : Host) (env : Env) {cmd : Command} (ha : AllocatableCommand cmd)
    (log : List Bytes) {w : World F} {reply : Reply}
    (hreply : (execCommand host env cmd w).1 = .ok reply) :
    applyLog host env (encodeCommand cmd :: log) w
      = (.ok (replyBytes reply) :: (applyLog host env log (execCommand host env cmd w).2).1,
        (applyLog host env log (execCommand host env cmd w).2).2) := by
  rw [applyLog, fsmApply, decode_encode ha]
  simp only [hreply, Except.map]

/-- A log that completes is applied piece by piece. -/
theorem applyLog_append (host : Host) (env : Env) (xs ys : List Bytes) :
    ∀ w : World F, Completes host env xs w →
      (applyLog host env (xs ++ ys) w).2 = (applyLog host env ys (applyLog host env xs w).2).2 := by
  induction xs with
  | nil => exact fun _ _ => rfl
  | cons data xs ih =>
    intro w hok
    rw [List.cons_append]
    simp only [Completes, applyLog] at hok ⊢
    rcases hdata : fsmApply host env data w with ⟨why | reply, w'⟩
    · rw [hdata] at hok
      obtain ⟨bytes, hbytes⟩ := hok _ (List.mem_singleton.mpr rfl)
      exact absurd hbytes (by simp)
    · rw [hdata] at hok
      exact ih w' fun reply hreply => hok reply (List.mem_cons_of_mem _ hreply)

/-- **SNAPSHOTS LOSE EVERYTHING**: whatever is applied after the snapshot, a
    node restored from it ends with the same store as one that applied the
    whole log, exactly when the store was empty at the snapshot. -/
theorem snapshot_loses_nothing_iff (host : Host) (env : Env) (log : List Bytes)
    (hlog : Completes host env log (emptyWorld : World F)) :
    (∀ rest, (applyLog host env rest (restored (applyLog host env log emptyWorld).2)).2.store.Same
      (applyLog host env (log ++ rest) (emptyWorld : World F)).2.store) ↔
    (applyLog host env log (emptyWorld : World F)).2.store.Empty := by
  simp only [applyLog_append host env log _ emptyWorld hlog]
  constructor
  · intro hsame k
    have hnil := hsame [] k
    exact ⟨hnil.1.symm, hnil.2.symm⟩
  · intro hempty rest
    have heq : restored (applyLog host env log (emptyWorld : World F)).2
        = (applyLog host env log emptyWorld).2 := by
      have hstore := hempty.eq_newMemDb
      generalize (applyLog host env log (emptyWorld : World F)).2 = w at hstore
      obtain ⟨s, tick, draws⟩ := w
      exact congrArg (World.mk · tick draws) hstore.symm
    rw [heq]
    exact fun k => ⟨rfl, rfl⟩

end Logs

/-- SET a 1 and DEL a before the snapshot: both entries are applied, and nothing is
    left to be lost. -/
theorem snapshot_loses_nothing_deleted :
    letI := asciiTables
    let log := [encodeCommand (words ["SET", "a", "1"]),
      encodeCommand (words ["DEL", "a"])]
    (applyLog quietHost stillEnv log (emptyWorld : World IntScore)).1 =
      [.ok (ascii "+OK\r\n"), .ok (ascii ":1\r\n")] ∧
    ∀ rest, (applyLog quietHost stillEnv rest
        (restored (applyLog quietHost stillEnv log (emptyWorld : World IntScore)).2)).2.store.Same
      (applyLog quietHost stillEnv (log ++ rest) (emptyWorld : World IntScore)).2.store := by
  intro log
  have hA : AllocatableCommand (words ["SET", "a", "1"]) :=
    (allocatableCommand_iff _).mpr (by decide)
  have hD : AllocatableCommand (words ["DEL", "a"]) :=
    (allocatableCommand_iff _).mpr (by decide)
  have hset := @applyLog_command IntScore asciiTables _ quietHost stillEnv _ hA
    [encodeCommand (words ["DEL", "a"])] emptyWorld (statusReply "OK") rfl
  rw [@applyLog_command IntScore asciiTables _ quietHost stillEnv _ hD [] _
    (intReply 1) rfl] at hset
  have hreplies := congrArg Prod.fst hset
  refine ⟨hreplies, (@snapshot_loses_nothing_iff IntScore asciiTables _ quietHost stillEnv log
    ?_).mpr ?_⟩
  · intro reply hreply
    rw [hreplies] at hreply
    rcases List.mem_pair.mp hreply with rfl | rfl <;> exact ⟨_, rfl⟩
  · rw [hset]
    exact fun key => ⟨rfl, rfl⟩

/-- SET a 1, a snapshot, SET b 2: the node that applied both entries has both
    keys, the one restored in between has lost the first. -/
theorem snapshot_loses_key :
    letI := asciiTables
    let setA := encodeCommand (words ["SET", "a", "1"])
    let setB := encodeCommand (words ["SET", "b", "2"])
    let full := applyLog quietHost stillEnv [setA, setB] (emptyWorld : World IntScore)
    let cut := applyLog quietHost stillEnv [setB]
      (restored (applyLog quietHost stillEnv [setA] (emptyWorld : World IntScore)).2)
    full.1 = [.ok (ascii "+OK\r\n"), .ok (ascii "+OK\r\n")] ∧
    full.2.store.db.lookup (ascii "a") = some ⟨.str, some (ascii "1")⟩ ∧
    cut.1 = [.ok (ascii "+OK\r\n")] ∧ cut.2.store.db.lookup (ascii "a") = none := by
  have hA : AllocatableCommand (words ["SET", "a", "1"]) :=
    (allocatableCommand_iff _).mpr (by decide)
  have hB : AllocatableCommand (words ["SET", "b", "2"]) :=
    (allocatableCommand_iff _).mpr (by decide)
  intro setA setB full cut
  have hboth := @applyLog_command IntScore asciiTables _ quietHost stillEnv _ hA [setB] emptyWorld
    (statusReply "OK") rfl
  have hone := @applyLog_command IntScore asciiTables _ quietHost stillEnv _ hA [] emptyWorld
    (statusReply "OK") rfl
  have hfull := @applyLog_command IntScore asciiTables _ quietHost stillEnv _ hB []
    (@execCommand IntScore asciiTables _ quietHost stillEnv (words ["SET", "a", "1"]) emptyWorld).2
    (statusReply "OK") rfl
  have hcut := @applyLog_command IntScore asciiTables _ quietHost stillEnv _ hB []
    (restored (@execCommand IntScore asciiTables _ quietHost stillEnv
      (words ["SET", "a", "1"]) emptyWorld).2)
    (statusReply "OK") rfl
  dsimp only [full, cut, setA, setB] at hboth ⊢
  rw [hboth, hfull, hone]
  refine ⟨rfl, rfl, ?_⟩
  simp only [applyLog] at hcut ⊢
  rw [hcut]
  exact ⟨rfl, rfl⟩

end TinyDb
