import TinyRedis.MultiGetProofs
import TinyRedis.LifetimeProofs
import TinyRedis.TtlManagerProofs

/-! # Expiry while others write

    A key expires in two steps.  `CheckTTL` takes the entry out of the TTL index
    under the lock of its shard, and only then takes the lock of the key to delete
    it from the map; the background cleanup takes all entries of a shard that have
    come, and then deletes their keys one by one, without their locks.  Between the
    two steps the key has a value and no deadline, and nothing says that it is
    about to be deleted.  A SET in between finds nothing to expire, writes and is
    acknowledged; the deletion that follows is of its value.

    The system is any number of commands under way, the cleanup and the store.  A
    command's turn is one section, as in `Prog.turn`, but for `CheckTTL`, which is
    one turn or two. -/

namespace TinyDb

open GoString GoFloat GoProgram.Prog TinyResp TinyHash TinyTtl

variable {F : Type}

/-! ## Commands under way -/

/-- A command under way: what is left of it, and whether it is in `CheckTTL`,
    between taking out the entry of a key and deleting the key. -/
inductive Client (F : Type) where
  | running {c : Caps} (p : Cmd F c Reply)
  | deleting {c : Caps} (key : Bytes) (p : Cmd F c Reply)

namespace Client

/-- One turn of a command. -/
def turn (env : Env) : Client F → World F → Client F × World F
  | .running (.op (.checkTTL key) next), w =>
    match w.store.popTTL key (env.clock w.tick) with
    | (true, s) => (.running (next true), ⟨s, w.tick + 1, w.draws⟩)
    | (false, s) => (.deleting key (next false), ⟨s, w.tick + 1, w.draws⟩)
  | .running p, w =>
    let r := p.turn (Op.step env) Op.lockUse false w
    (.running r.1, r.2)
  | .deleting key p, w => (.running p, ⟨(w.store.delete key).2, w.tick + 1, w.draws⟩)

/-- The command has taken out the entry of the key and will delete it. -/
def Deleting (key : Bytes) : Client F → Prop
  | .running _ => False
  | .deleting k _ => k = key

/-- `ExecCommand`, up to the first operation of the executor. -/
def exec [UnicodeTables] [FloatText F] (host : Host) (cmd : Command) : Client F :=
  if cmd = [] then .running (.ret none : Cmd F reads Reply)
  else
    match (lookupCmd host (toLower (cmdName cmd)) : Option (Executor F)) with
    | none => .running (.ret (errReply "error: unsupported command") : Cmd F reads Reply)
    | some command => .running (command.body cmd)

end Client

/-! ## The background cleanup -/

/-- `cleanup` under way: its clock reading, the shards it has still to visit, and
    the keys whose entries it has taken out of the last one and not yet deleted. -/
structure Sweeper where
  now : Int
  shards : List Nat
  expired : List Bytes

namespace Sweeper

section

variable (sum64 : Bytes → UInt64) (shardHint : Int)

/-- The entries that the next turn takes out: those of the next shard that have
    come, once all keys of the last one are deleted. -/
def pops (x : Sweeper) (s : Store F) : List Bytes :=
  match x.expired, x.shards with
  | [], i :: _ =>
    (s.dueKeys x.now).filter fun key => shardIndex sum64 (ttlShardCount shardHint - 1) key = i
  | _, _ => []

/-- One turn of the cleanup: the deletion of a key, `collectExpiredAndNext` of a
    shard, or the begin of a new round.  The order in which the heap gives up the
    entries that have come is left open. -/
def turn (env : Env) (x : Sweeper) (w : World F) : Sweeper × World F :=
  match x.expired, x.shards with
  | key :: rest, _ =>
    ({ x with expired := rest }, ⟨(w.store.delete key).2, w.tick + 1, w.draws⟩)
  | [], _ :: rest =>
    let popped := env.order w.draws (x.pops sum64 shardHint w.store)
    (⟨x.now, rest, popped⟩, ⟨popped.foldl Store.removeTTL w.store, w.tick + 1, w.draws + 1⟩)
  | [], [] =>
    (⟨env.clock w.tick, List.range (ttlShardCount shardHint), []⟩,
      ⟨w.store, w.tick + 1, w.draws⟩)

end

end Sweeper

/-! ## The system -/

/-- The store, the commands under way, and the cleanup. -/
structure System (F : Type) where
  world : World F
  clients : List (Client F)
  sweeper : Sweeper

/-- What happens: a command arrives, a command has a turn, the cleanup has one. -/
inductive Action where
  | start (cmd : Command)
  | turn (i : Nat)
  | sweep

namespace System

/-- A `MemDb` before its first command. -/
def init : System F := ⟨emptyWorld, [], ⟨0, [], []⟩⟩

/-- The key has been found expired, and is still to be deleted. -/
def Deleting (x : System F) (key : Bytes) : Prop :=
  (∃ c ∈ x.clients, c.Deleting key) ∨ key ∈ x.sweeper.expired

/-- The value of a key. -/
def value (x : System F) (key : Bytes) : Option (Value F) := x.world.store.db.lookup key

section Act

variable [UnicodeTables] [FloatText F] (host : Host) (env : Env) (sum64 : Bytes → UInt64)
  (shardHint : Int)

/-- The system after an action. -/
def act (x : System F) : Action → System F
  | .start cmd => { x with clients := x.clients ++ [Client.exec host cmd] }
  | .turn i =>
    match x.clients[i]? with
    | none => x
    | some client =>
      let r := client.turn env x.world
      { x with world := r.2, clients := x.clients.set i r.1 }
  | .sweep =>
    let r := x.sweeper.turn sum64 shardHint env x.world
    { x with world := r.2, sweeper := r.1 }

/-- The system after an interleaving. -/
def run (x : System F) (actions : List Action) : System F :=
  actions.foldl (act host env sum64 shardHint) x

end Act

/-! ## Actions that leave a key alone -/

end System

/-- The operation neither overwrites nor deletes the key. -/
def Op.Spares {c : Caps} (key : Bytes) : Op F c → Prop
  | .checkTTL k => k ≠ key
  | .set _ k _ _ _ => k ≠ key
  | .setAny k _ _ _ => k ≠ key
  | .update _ k _ _ _ => k ≠ key
  | .delete k _ => k ≠ key
  | _ => True

/-- The turn neither overwrites nor deletes the key, nor finds it expired.  The
    second step of an expiry found before is not the command's doing. -/
def Client.Spares (env : Env) (key : Bytes) (w : World F) : Client F → Prop
  | .running (.op (.checkTTL k) _) => ¬ (k = key ∧ w.store.Due key (env.clock w.tick))
  | .running p => p.TurnUses (Op.Spares key) (Op.step env) Op.lockUse false w
  | .deleting _ _ => True

namespace System

section Quiet

variable [UnicodeTables] [FloatText F] (host : Host) (env : Env) (sum64 : Bytes → UInt64)
  (shardHint : Int) (key : Bytes)

/-- The action neither overwrites nor deletes the key, nor finds it expired. -/
def Spares (x : System F) : Action → Prop
  | .start _ => True
  | .turn i => ∀ client, x.clients[i]? = some client → client.Spares env key x.world
  | .sweep => key ∉ x.sweeper.pops sum64 shardHint x.world.store

/-- No action of the interleaving overwrites, deletes or expires the key. -/
def Quiet (x : System F) : List Action → Prop
  | [] => True
  | a :: rest => x.Spares env sum64 shardHint key a ∧
    Quiet (x.act host env sum64 shardHint a) rest

end Quiet

end System

/-! ## One turn -/

section Turn

variable {env : Env} {key : Bytes} {v : Value F} {w : World F}

/-- An operation that spares a key that is there leaves it its value. -/
theorem Op.Spares.step {c : Caps} {o : Op F c} (ho : o.Spares key)
    (h : w.store.db.lookup key = some v) : (o.step env w).2.store.db.lookup key = some v := by
  cases o with
  | checkTTL k =>
    have hne : key ≠ k := fun e => ho e.symm
    exact (Store.checked_ne w.store _ hne).1.trans h
  | set kind k obj hw hz =>
    have hne : key ≠ k := fun e => ho e.symm
    simpa [hne] using h
  | setAny k u hw hz =>
    have hne : key ≠ k := fun e => ho e.symm
    simpa [hne] using h
  | update kind k obj hw hz =>
    have hne : key ≠ k := fun e => ho e.symm
    simpa [hne] using h
  | delete k hw =>
    have hne : key ≠ k := fun e => ho e.symm
    simpa [hne] using h
  | setIfNotExist k val hw =>
    rw [Op.step_setIfNotExist, Store.setIfNotExist]
    split
    · exact h
    · next hnone =>
        have hne : key ≠ k := by
          rintro rfl
          simp [h] at hnone
        simpa [hne] using h
  | setTTL k deadline hw ht =>
    rw [Op.step_setTTL, Store.setTTL]
    split
    · exact h
    · exact h
  | _ => exact h

/-- **One turn of a command** that spares the key and is not about to delete it:
    the key keeps its value, and the command is still not about to delete it. -/
theorem Client.Spares.turn {client : Client F} (hspares : client.Spares env key w)
    (hdel : ¬ client.Deleting key) (h : w.store.db.lookup key = some v) :
    (client.turn env w).2.store.db.lookup key = some v ∧ ¬ (client.turn env w).1.Deleting key := by
  cases client with
  | deleting k p =>
    have hne : key ≠ k := fun e => hdel e.symm
    exact ⟨by simpa [Client.turn, hne] using h, id⟩
  | running p =>
    cases p with
    | ret a => exact ⟨h, id⟩
    | stop why => exact ⟨h, id⟩
    | op o next =>
      cases o with
      | checkTTL k =>
        rcases w.store.popTTL_cases k (env.clock w.tick) with ⟨hdue, hpop⟩ | ⟨-, hpop⟩
        · have hne : k ≠ key := fun e => hspares ⟨e, e ▸ hdue⟩
          rw [Client.turn, hpop]
          exact ⟨h, hne⟩
        · rw [Client.turn, hpop]
          exact ⟨h, id⟩
      | _ =>
        exact ⟨TurnUses.turn (I := fun w => w.store.db.lookup key = some v)
          (fun _ _ ho hs => Op.Spares.step ho hs) hspares h, id⟩

variable {sum64 : Bytes → UInt64} {shardHint : Int}

theorem Store.foldl_removeTTL_db (keys : List Bytes) (s : Store F) :
    (keys.foldl Store.removeTTL s).db = s.db := by
  induction keys generalizing s with
  | nil => rfl
  | cons k rest ih => exact ih _

/-- **One turn of the cleanup** that does not find the key expired, and has not
    found it expired before. -/
theorem Sweeper.turn_spares (env : Env) {x : Sweeper} (hpops : key ∉ x.pops sum64 shardHint w.store)
    (hdel : key ∉ x.expired) (h : w.store.db.lookup key = some v) :
    (x.turn sum64 shardHint env w).2.store.db.lookup key = some v ∧
      key ∉ (x.turn sum64 shardHint env w).1.expired := by
  obtain ⟨now, shards, expired⟩ := x
  cases expired with
  | cons k rest =>
    have hne : key ≠ k := fun e => hdel (e ▸ List.mem_cons_self)
    exact ⟨by simpa [Sweeper.turn, hne] using h, fun hmem => hdel (List.mem_cons_of_mem _ hmem)⟩
  | nil =>
    cases shards with
    | nil => exact ⟨h, List.not_mem_nil⟩
    | cons i rest =>
      refine ⟨?_, fun hmem => hpops ((env.order_perm _ _).mem_iff.mp hmem)⟩
      simp only [Sweeper.turn, Store.foldl_removeTTL_db]
      exact h

end Turn

/-! ## Whole interleavings -/

namespace System

section Runs

variable [UnicodeTables] [FloatText F] {host : Host} {env : Env} {sum64 : Bytes → UInt64}
  {shardHint : Int} {key : Bytes} {v : Value F} {x : System F}

/-- The key has its value, and nobody is about to delete it. -/
def Holds (x : System F) (key : Bytes) (v : Value F) : Prop :=
  x.value key = some v ∧ ¬ x.Deleting key

omit [UnicodeTables] [FloatText F] in
theorem not_deleting_iff : ¬ x.Deleting key ↔
    (∀ client ∈ x.clients, ¬ client.Deleting key) ∧ key ∉ x.sweeper.expired := by
  simp [Deleting]

theorem not_deleting_exec (host : Host) (cmd : Command) :
    ¬ (Client.exec host cmd : Client F).Deleting key := by
  rw [Client.exec]
  split
  · exact id
  · split <;> exact id

/-- **One action** that leaves the key alone. -/
theorem Holds.act (h : x.Holds key v) {a : Action} (ha : x.Spares env sum64 shardHint key a) :
    (x.act host env sum64 shardHint a).Holds key v := by
  obtain ⟨hval, hdel⟩ := h
  obtain ⟨hclients, hsweeper⟩ := not_deleting_iff.mp hdel
  cases a with
  | start cmd =>
    refine ⟨hval, not_deleting_iff.mpr ⟨fun client hmem => ?_, hsweeper⟩⟩
    rcases List.mem_append.mp hmem with hold | hnew
    · exact hclients client hold
    · rw [List.mem_singleton.mp hnew]
      exact not_deleting_exec host cmd
  | turn i =>
    cases hi : x.clients[i]? with
    | none =>
      rw [System.act, hi]
      exact ⟨hval, hdel⟩
    | some client =>
      have hturn := (ha client hi).turn (hclients client (List.mem_of_getElem? hi)) hval
      rw [System.act, hi]
      refine ⟨hturn.1, not_deleting_iff.mpr ⟨fun other hmem => ?_, hsweeper⟩⟩
      rcases List.mem_or_eq_of_mem_set hmem with hold | rfl
      · exact hclients other hold
      · exact hturn.2
  | sweep =>
    have hturn := Sweeper.turn_spares env ha hsweeper hval
    exact ⟨hturn.1, not_deleting_iff.mpr ⟨hclients, hturn.2⟩⟩

/-- **A whole interleaving** that leaves the key alone. -/
theorem Holds.run {later : List Action} (h : x.Holds key v)
    (hquiet : x.Quiet host env sum64 shardHint key later) :
    (x.run host env sum64 shardHint later).Holds key v := by
  induction later generalizing x with
  | nil => exact h
  | cons a rest ih => exact ih (h.act hquiet.1) hquiet.2

/-- A command that is about to delete the key deletes it on its next turn. -/
theorem turn_deletes {client : Client F} (hmem : client ∈ x.clients) (hdel : client.Deleting key) :
    ∃ i, x.Quiet host env sum64 shardHint key [.turn i] ∧
      (x.run host env sum64 shardHint [.turn i]).value key = none := by
  obtain ⟨i, hi⟩ := List.mem_iff_getElem?.mp hmem
  cases client with
  | running p => exact absurd hdel id
  | deleting k p =>
    obtain rfl : k = key := hdel
    refine ⟨i, ⟨fun other hother => ?_, trivial⟩, ?_⟩
    · rw [hi] at hother
      obtain rfl := Option.some.inj hother
      trivial
    · simp [System.run, System.act, hi, Client.turn, value]

/-- The cleanup gets to every key that it has found expired. -/
theorem sweeps_delete (hmem : key ∈ x.sweeper.expired) :
    ∃ n, x.Quiet host env sum64 shardHint key (List.replicate n .sweep) ∧
      (x.run host env sum64 shardHint (List.replicate n .sweep)).value key = none := by
  obtain ⟨world, clients, ⟨now, shards, expired⟩⟩ := x
  induction expired generalizing world with
  | nil => exact absurd hmem List.not_mem_nil
  | cons k rest ih =>
    by_cases hk : key = k
    · subst hk
      exact ⟨1, ⟨List.not_mem_nil, trivial⟩, by
        simp [System.run, System.act, Sweeper.turn, value]⟩
    · have hrest : key ∈ rest := (List.mem_cons.mp hmem).resolve_left hk
      obtain ⟨n, hquiet, hgone⟩ :=
        ih ⟨(world.store.delete k).2, world.tick + 1, world.draws⟩ hrest
      exact ⟨n + 1, ⟨List.not_mem_nil, hquiet⟩, hgone⟩

/-- A value that is there survives everything that leaves its key alone just when
    nobody is about to delete the key. -/
theorem survives_iff (hval : x.value key = some v) :
    (∀ later, x.Quiet host env sum64 shardHint key later →
      (x.run host env sum64 shardHint later).value key = some v) ↔ ¬ x.Deleting key := by
  constructor
  · rintro hall (⟨client, hmem, hdel⟩ | hmem)
    · obtain ⟨i, hquiet, hgone⟩ := turn_deletes hmem hdel
      exact absurd ((hall _ hquiet).symm.trans hgone) (Option.some_ne_none v)
    · obtain ⟨n, hquiet, hgone⟩ := sweeps_delete hmem
      exact absurd ((hall _ hquiet).symm.trans hgone) (Option.some_ne_none v)
  · intro hdel later hquiet
    exact (Holds.run ⟨hval, hdel⟩ hquiet).1

end Runs

end System

/-! ## SET -/

section Set

variable {env : Env} {w : World F} {key : Bytes} {val : Option Bytes} {o : SetOptions}

/-- What SET does under the lock of its key. -/
def setBody (key : Bytes) (val : Option Bytes) (o : SetOptions) : Cmd F timedWrites Reply := do
  match ← get .str key with
  | .wrongType => return wrongTypeReply
  | old =>
    let oldVal : Option (Option Bytes) := match old with
      | .found old => some old
      | _ => none
    let write := if o.nx then oldVal.isNone else if o.xx then oldVal.isSome else true
    if write then
      set .str key val
    let res := if o.get then bulkReply oldVal.join else setReply write
    if !o.keepttl then
      let _ ← delTTL key
    if o.ex then
      let _ ← setTTL key (int64 (o.exval + (← timeNow)))
    return res

/-- The section of SET. -/
def setSection (key : Bytes) (val : Option Bytes) (o : SetOptions) : Cmd F timedWrites Reply :=
  withLock key (setBody key val o)

/-- SET is the check of its key and its section. -/
theorem setString_eq [UnicodeTables] {name key : Option Bytes} (val : Option Bytes)
    {opts : List (Option Bytes)} (hname : toLower (str name) = ascii "set")
    (hopts : setOptions opts ⟨false, false, false, false, false, 0⟩ = .ok o)
    (hok : ¬ ((o.nx && o.xx) || (o.ex && o.keepttl)) = true) :
    (setString (name :: key :: val :: opts) : Cmd F _ _) =
      .op (.checkTTL (str key)) fun _ => setSection (str key) val o := by
  have hopts' : setOptions ((name :: key :: val :: opts).drop 3)
      ⟨false, false, false, false, false, 0⟩ = .ok o := hopts
  rw [setString, named_cons hname, if_neg (by simp), strAt_bind rfl, argAt_eq rfl, ret_bind,
    checkTTL, op_bind, hopts']
  dsimp only
  rw [if_neg hok]
  rfl

/-- The section writes the value: the key holds nothing of another type, and NX
    and XX let it. -/
structure SetOptions.Acknowledged (o : SetOptions) (s : Store F) (key : Bytes) : Prop where
  type : s.get .str key ≠ .wrongType
  writes : o.writes (s.db.lookup key).isSome = true

/-- The part of the section behind the test of the old value takes no lock. -/
theorem setEnd_uses (o : SetOptions) (key : Bytes) (val : Option Bytes) (write : Bool)
    (res : Reply) :
    (setEnd o key val write res : Cmd F _ _).Uses fun op => op.lockUse = .none := by
  obtain ⟨nx, xx, get, ex, keepttl, exval⟩ := o
  cases write <;> cases ex <;> cases keepttl <;> simp [setEnd, Uses, Op.lockUse]

theorem setBody_uses (key : Bytes) (val : Option Bytes) (o : SetOptions) :
    (setBody key val o : Cmd F _ _).Uses fun op => op.lockUse = .none := by
  refine ⟨rfl, fun old => ?_⟩
  cases old with
  | wrongType => trivial
  | absent => exact setEnd_uses o key val _ _
  | found old => exact setEnd_uses o key val _ _

/-- What the section leaves when it writes, and its reply. -/
theorem outcome_setBody (env : Env) (val : Option Bytes) (hack : o.Acknowledged w.store key)
    (hkeep : ¬ (o.ex && o.keepttl) = true) :
    ∃ reply now, (o.get = false → reply = statusReply "OK") ∧
      outcome env (setBody key val o) w = (.ok reply, o.leaves w.store key val true now) := by
  have hwrites := hack.writes
  rw [setBody, outcome_get]
  cases hfound : w.store.get .str key with
  | wrongType => exact absurd hfound hack.type
  | absent =>
    have hwrites : o.writes false = true := by rwa [Store.get_eq_absent.mp hfound] at hwrites
    refine ⟨_, _, fun hget => ?_, (outcome_setEnd (w := ⟨w.store, w.tick + 1, w.draws⟩) o key val
      (o.writes false) (if o.get then bulkReply none else setReply (o.writes false))
      hkeep).trans (by rw [hwrites])⟩
    rw [hget]
    rfl
  | found old =>
    have hwrites : o.writes true = true := by rwa [Store.get_eq_found.mp hfound] at hwrites
    refine ⟨_, _, fun hget => ?_, (outcome_setEnd (w := ⟨w.store, w.tick + 1, w.draws⟩) o key val
      (o.writes true) (if o.get then bulkReply old else setReply (o.writes true))
      hkeep).trans (by rw [hwrites])⟩
    rw [hget]
    rfl

theorem SetOptions.leaves_written (o : SetOptions) (s : Store F) (key : Bytes) (val : Option Bytes)
    (now : Int) :
    (o.leaves s key val true now).db.lookup key = some ⟨.str, val⟩ := by
  unfold SetOptions.leaves
  cases o.keepttl <;> cases o.ex <;> simp [Store.setTTL]

/-- A section that returns is one turn. -/
theorem turn_withLocks {c : Caps} {α : Type} (keys : List Bytes) {body : Cmd F c α}
    (hbody : body.Uses fun op => op.lockUse = .none) {a : α} {s : Store F}
    (h : outcome env body ⟨w.store, w.tick + 1, w.draws⟩ = (.ok a, s)) :
    ∃ w', w'.store = s ∧
      (withLocks keys body).turn (Op.step env) Op.lockUse false w = (.ret a, w') := by
  rw [outcome, Prod.mk.injEq] at h
  rw [withLocks, turn_take rfl, Op.step_lock, turn_defer rfl hbody]
  cases hrun : body.run (Op.step env) ⟨w.store, w.tick + 1, w.draws⟩ with
  | mk result w' =>
    rw [hrun] at h
    obtain ⟨rfl, rfl⟩ : result = .ok a ∧ w'.store = s := h
    exact ⟨⟨w'.store, w'.tick + 1, w'.draws⟩, rfl, rfl⟩

/-- **The section of a SET that writes** is one turn, which ends the command. -/
theorem turn_setSection (env : Env) (val : Option Bytes) (hack : o.Acknowledged w.store key)
    (hkeep : ¬ (o.ex && o.keepttl) = true) :
    ∃ reply w', (o.get = false → reply = statusReply "OK") ∧
      w'.store.db.lookup key = some ⟨.str, val⟩ ∧
      (Client.running (setSection key val o)).turn env w =
        (.running (.ret reply : Cmd F timedWrites Reply), w') := by
  obtain ⟨reply, now, hreply, hout⟩ :=
    outcome_setBody (w := ⟨w.store, w.tick + 1, w.draws⟩) env val hack hkeep
  obtain ⟨w', hstore, hturn⟩ := turn_withLocks [key] (setBody_uses key val o) hout
  refine ⟨reply, w', hreply, ?_, congrArg (fun r => (Client.running r.1, r.2)) hturn⟩
  rw [hstore]
  exact o.leaves_written w.store key val now

end Set

namespace System

section Fresh

variable [UnicodeTables] [FloatText F]

/-- A SET has checked its key, and its section is next. -/
structure AtSet (x : System F) (i : Nat) (key : Bytes) (val : Option Bytes) (o : SetOptions) :
    Prop where
  client : x.clients[i]? = some (.running (setSection key val o))
  options : ¬ ((o.nx && o.xx) || (o.ex && o.keepttl)) = true

/-- A client that had its turn. -/
theorem act_turn {host : Host} {env : Env} {sum64 : Bytes → UInt64} {shardHint : Int} {x : System F}
    {i : Nat} {client client' : Client F} {w' : World F} (hi : x.clients[i]? = some client)
    (hturn : client.turn env x.world = (client', w')) :
    x.act host env sum64 shardHint (.turn i) = ⟨w', x.clients.set i client', x.sweeper⟩ := by
  rw [act, hi]
  dsimp only
  rw [hturn]

/-- A SET with valid options gets to its section on its first turn, or on its
    second, when it finds its key expired. -/
theorem atSet_of_exec (host : Host) (env : Env) (sum64 : Bytes → UInt64) (shardHint : Int)
    {x : System F} {i : Nat} {name key : Option Bytes} {val : Option Bytes}
    {opts : List (Option Bytes)} {o : SetOptions} (hname : toLower (str name) = ascii "set")
    (hopts : setOptions opts ⟨false, false, false, false, false, 0⟩ = .ok o)
    (hok : ¬ ((o.nx && o.xx) || (o.ex && o.keepttl)) = true)
    (hi : x.clients[i]? = some (Client.exec host (name :: key :: val :: opts))) :
    (x.act host env sum64 shardHint (.turn i)).AtSet i (str key) val o ∨
      ((x.act host env sum64 shardHint (.turn i)).act host env sum64 shardHint
        (.turn i)).AtSet i (str key) val o := by
  have hmem : Registered F host "set" setString := by simp [Registered, cmdTable]
  have hexec : (Client.exec host (name :: key :: val :: opts) : Client F) =
      .running (.op (.checkTTL (str key)) fun _ => setSection (str key) val o) := by
    have hname' : toLower (cmdName (name :: key :: val :: opts)) = ascii "set" := hname
    rw [Client.exec, if_neg (List.cons_ne_nil _ _), hname', lookupCmd_of_mem hmem]
    exact congrArg Client.running (setString_eq val hname hopts hok)
  rw [hexec] at hi
  have hlt : i < x.clients.length := (List.getElem?_eq_some_iff.mp hi).1
  rcases x.world.store.popTTL_cases (str key) (env.clock x.world.tick) with ⟨-, hpop⟩ | ⟨-, hpop⟩
  · refine Or.inr ?_
    rw [act_turn hi (by rw [Client.turn, hpop])]
    have hi' := List.getElem?_set_self (a := Client.deleting (str key) (setSection (str key) val o))
      hlt
    rw [act_turn hi' rfl]
    exact ⟨List.getElem?_set_self (by simpa using hlt), hok⟩
  · refine Or.inl ?_
    rw [act_turn hi (by rw [Client.turn, hpop])]
    exact ⟨List.getElem?_set_self hlt, hok⟩

/-- **A fresh write survives just when no expiry of its key is half done**: the
    value that SET writes, with any options, is the value of its key after every
    interleaving in which no command overwrites, deletes or expires the key, if
    and only if, when SET writes, no command and not the cleanup is between
    finding the key expired and deleting it. -/
theorem fresh_write_survives_iff (host : Host) (env : Env) (sum64 : Bytes → UInt64)
    (shardHint : Int) {x : System F} {i : Nat} {key : Bytes} {val : Option Bytes} {o : SetOptions}
    (hset : x.AtSet i key val o) (hack : o.Acknowledged x.world.store key) :
    (∀ later, (x.act host env sum64 shardHint (.turn i)).Quiet host env sum64 shardHint key later →
      ((x.act host env sum64 shardHint (.turn i)).run host env sum64 shardHint later).value key =
        some ⟨.str, val⟩) ↔ ¬ x.Deleting key := by
  have hkeep : ¬ (o.ex && o.keepttl) = true := fun h => hset.options (by rw [h, Bool.or_true])
  obtain ⟨reply, w', -, hval, hturn⟩ := turn_setSection env val hack hkeep
  have hact : x.act host env sum64 shardHint (.turn i) = ⟨w',
      x.clients.set i (.running (.ret reply : Cmd F timedWrites Reply)), x.sweeper⟩ :=
    act_turn hset.client hturn
  rw [hact]
  refine (survives_iff (x := ⟨w', _, _⟩) hval).trans ?_
  rw [not_deleting_iff, not_deleting_iff]
  -- the client of the SET deletes nothing, before its section and after
  refine and_congr_left' ⟨fun h client hmem hdel => ?_, fun h client hmem hdel => ?_⟩
  · obtain ⟨j, hj⟩ := List.mem_iff_getElem?.mp hmem
    by_cases hij : i = j
    · subst hij
      rw [hset.client] at hj
      obtain rfl := Option.some.inj hj
      exact hdel
    · exact h client (List.mem_iff_getElem?.mpr ⟨j, by rw [List.getElem?_set_ne hij, hj]⟩) hdel
  · rcases List.mem_or_eq_of_mem_set hmem with hold | rfl
    · exact h client hold hdel
    · exact hdel

end Fresh

/-! ## A run in which it does, and one in which it does not -/

/-- A clock that moves on by a second with every operation. -/
def tickingEnv : Env := { stillEnv with clock := fun t => t }

/-- `SET k old EX 1`, run to its end; the deadline has come when it returns. -/
def expiring [UnicodeTables] : System IntScore :=
  init.run quietHost tickingEnv (fun _ => 0) 16
    [.start (words ["SET", "k", "old", "EX", "1"]), .turn 0, .turn 0]

/-- `SET j old EX 1` as well, run to its end; `GET k` finds the key expired and deletes
    it; the cleanup begins a round; `GET j` has found its key expired and is still to
    delete it when `SET k new` writes. -/
theorem fresh_write_survives_expired :
    letI := asciiTables
    let key := ascii "k"
    let x := expiring.run quietHost tickingEnv (fun _ => 0) 16
      [.start (words ["SET", "j", "old", "EX", "1"]), .turn 1, .turn 1,
        .start [some (ascii "GET"), some key], .turn 2, .turn 2,
        .sweep, .start (words ["GET", "j"]), .turn 3,
        .start [some (ascii "SET"), some key, some (ascii "new")], .turn 4]
    let written := x.act quietHost tickingEnv (fun _ => 0) 16 (.turn 4)
    expiring.value key = some ⟨.str, some (ascii "old")⟩ ∧ x.Deleting (ascii "j") ∧
      ∀ later, written.Quiet quietHost tickingEnv (fun _ => 0) 16 key later →
        (written.run quietHost tickingEnv (fun _ => 0) 16 later).value key =
          some ⟨.str, some (ascii "new")⟩ := by
  intro key x written
  obtain ⟨c, hc, hj⟩ : ∃ c, x.clients[3]? = some c ∧ c.Deleting (ascii "j") := ⟨_, rfl, rfl⟩
  have hset : @AtSet IntScore x 4 key (some (ascii "new")) ⟨false, false, false, false, false, 0⟩ :=
    ⟨rfl, by decide⟩
  have habsent : x.world.store.get .str key = .absent := rfl
  have hothers : ∀ client ∈ x.clients, ¬ client.Deleting key :=
    List.forall_mem_cons.mpr ⟨id, List.forall_mem_cons.mpr ⟨id, List.forall_mem_cons.mpr ⟨id,
      List.forall_mem_cons.mpr ⟨(by decide : ascii "j" ≠ ascii "k"),
        List.forall_mem_singleton.mpr id⟩⟩⟩⟩
  exact ⟨rfl, Or.inl ⟨c, List.mem_of_getElem? hc, hj⟩,
    (@fresh_write_survives_iff IntScore asciiTables _ quietHost tickingEnv (fun _ => 0) 16 x 4
      key _ _ hset ⟨by rw [habsent]; simp, rfl⟩).mpr
        (not_deleting_iff.mpr ⟨hothers, List.not_mem_nil⟩)⟩

/-- From there, `GET k` finds the key expired; `SET k new` checks the key, writes
    and replies OK; GET then deletes the key.  So does the cleanup, if it finds the
    key expired before the check of the SET and deletes it after the write. -/
theorem expiry_deletes_fresh_write :
    letI := asciiTables
    let key := ascii "k"
    let get : Action := .start [some (ascii "GET"), some key]
    let set : Action := .start [some (ascii "SET"), some key, some (ascii "new")]
    let run := fun (x : System IntScore) actions =>
      x.run quietHost tickingEnv (fun _ => 0) 16 actions
    let written := run expiring [get, .turn 1, set, .turn 2, .turn 2]
    let written' := run expiring [.sweep, .sweep, set, .turn 1, .turn 1]
    (written.clients[2]? = some (.running (.ret (statusReply "OK") : Cmd _ timedWrites Reply)) ∧
      written.value key = some ⟨.str, some (ascii "new")⟩ ∧
      written.Quiet quietHost tickingEnv (fun _ => 0) 16 key [.turn 1] ∧
      (run written [.turn 1]).value key = none) ∧
    written'.clients[1]? = some (.running (.ret (statusReply "OK") : Cmd _ timedWrites Reply)) ∧
      written'.value key = some ⟨.str, some (ascii "new")⟩ ∧
      written'.Quiet quietHost tickingEnv (fun _ => 0) 16 key [.sweep] ∧
      (run written' [.sweep]).value key = none := by
  refine ⟨⟨rfl, rfl, ⟨?_, trivial⟩, rfl⟩, rfl, rfl, ⟨?_, trivial⟩, rfl⟩
  · intro client hclient
    obtain rfl := Option.some.inj hclient
    trivial
  · exact List.not_mem_nil

end System

end TinyDb
