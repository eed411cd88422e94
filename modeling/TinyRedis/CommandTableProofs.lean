import TinyRedis.InfoCommandsProofs
import TinyRedis.RespRoundTripProofs

/-! # The command table, `ExecCommand` and the two ways into it

    A command reaches `ExecCommand` from a connection, through `ReadCommand`,
    or from the Raft log, through `fsm.Apply`.  `IsWriteCommand` decides which:
    it looks the upper-cased name up in a list of its own, while `ExecCommand`
    looks the lower-cased name up in the table. -/

namespace TinyDb

open GoString GoFloat GoProgram TinyResp TinyRespStream TinyRespRoundTrip

variable {F : Type} [UnicodeTables] [FloatText F]

/-! ## The table -/

/-- A registered executor, with what it is able to do. -/
structure Executor (F : Type) where
  caps : Caps
  body : Command → Cmd F caps Reply

/-- `CmdTable`, as the `Register…Commands` functions fill it. -/
def cmdTable (host : Host) : List (String × Executor F) :=
  [("ping", ⟨_, pingKeys⟩), ("del", ⟨_, delKey⟩), ("exists", ⟨_, existsKey⟩),
    ("keys", ⟨_, keysKey⟩), ("expire", ⟨_, expireKey⟩), ("persist", ⟨_, persistKey⟩),
    ("ttl", ⟨_, ttlKey⟩), ("type", ⟨_, typeKey⟩), ("rename", ⟨_, renameKey⟩),
    ("set", ⟨_, setString⟩), ("get", ⟨_, getString⟩), ("setrange", ⟨_, setRangeString⟩),
    ("getrange", ⟨_, getRangeString⟩), ("mset", ⟨_, mSetString⟩), ("mget", ⟨_, mGetString⟩),
    ("setex", ⟨_, setExString⟩), ("setnx", ⟨_, setNxString⟩), ("strlen", ⟨_, strLenString⟩),
    ("incr", ⟨_, incrString⟩), ("incrby", ⟨_, incrByString⟩), ("decr", ⟨_, decrString⟩),
    ("decrby", ⟨_, decrByString⟩), ("incrbyfloat", ⟨_, incrByFloatString⟩),
    ("append", ⟨_, appendString⟩),
    ("hdel", ⟨_, hDelHash⟩), ("hexists", ⟨_, hExistsHash⟩), ("hget", ⟨_, hGetHash⟩),
    ("hgetall", ⟨_, hGetAllHash⟩), ("hincrby", ⟨_, hIncrByHash⟩),
    ("hincrbyfloat", ⟨_, hIncrByFloatHash⟩), ("hkeys", ⟨_, hKeysHash⟩), ("hlen", ⟨_, hLenHash⟩),
    ("hmget", ⟨_, hMGetHash⟩), ("hset", ⟨_, hSetHash⟩), ("hsetnx", ⟨_, hSetNxHash⟩),
    ("hvals", ⟨_, hValsHash⟩), ("hstrlen", ⟨_, hStrLenHash⟩), ("hrandfield", ⟨_, hRandFieldHash⟩),
    ("llen", ⟨_, lLenList⟩), ("lindex", ⟨_, lIndexList⟩), ("lpos", ⟨_, lPosList⟩),
    ("lpop", ⟨_, lPopList⟩), ("rpop", ⟨_, rPopList⟩), ("lpush", ⟨_, lPushList⟩),
    ("lpushx", ⟨_, lPushXList⟩), ("rpush", ⟨_, rPushList⟩), ("rpushx", ⟨_, rPushXList⟩),
    ("lset", ⟨_, lSetList⟩), ("lrem", ⟨_, lRemList⟩), ("ltrim", ⟨_, lTrimList⟩),
    ("lrange", ⟨_, lRangeList⟩), ("lmove", ⟨_, lMoveList⟩),
    ("sadd", ⟨_, sAddSet⟩), ("scard", ⟨_, sCardSet⟩), ("sdiff", ⟨_, sDiffSet⟩),
    ("sdiffstore", ⟨_, sDiffStoreSet⟩), ("sinter", ⟨_, sInterSet⟩),
    ("sinterstore", ⟨_, sInterStoreSet⟩), ("sismember", ⟨_, sIsMemberSet⟩),
    ("smembers", ⟨_, sMembersSet⟩), ("smove", ⟨_, sMoveSet⟩), ("spop", ⟨_, sPopSet⟩),
    ("srandmember", ⟨_, sRandMemberSet⟩), ("srem", ⟨_, sRemSet⟩), ("sunion", ⟨_, sUnionSet⟩),
    ("sunionstore", ⟨_, sUnionStoreSet⟩),
    ("zadd", ⟨_, zAddZset⟩), ("zcard", ⟨_, zCardZset⟩), ("zcount", ⟨_, zCountZset⟩),
    ("zrange", ⟨_, zRangeZset⟩), ("zrevrange", ⟨_, zRevRangeZset⟩),
    ("zrangebyscore", ⟨_, zRangeByScoreZset⟩), ("zrank", ⟨_, zRankZset⟩),
    ("zrevrank", ⟨_, zRevRankZset⟩), ("zrem", ⟨_, zRemZset⟩),
    ("zremrangebyrank", ⟨_, zRemRangeByRankZset⟩),
    ("zremrangebyscore", ⟨_, zRemRangeByScoreZset⟩), ("zscore", ⟨_, zScoreZset⟩),
    ("zincrby", ⟨_, zIncrByZset⟩),
    ("client", ⟨_, client⟩), ("config", ⟨_, infoConfig host⟩), ("scan", ⟨_, scan⟩),
    ("info", ⟨_, info host⟩), ("quit", ⟨_, quit⟩)]

variable (F) in
/-- The table holds this body under this name. -/
abbrev Registered (host : Host) (name : String) {c : Caps} (body : Command → Cmd F c Reply) :
    Prop :=
  (name, (⟨c, body⟩ : Executor F)) ∈ cmdTable host

/-- The executor registered under a name. -/
def lookupCmd (host : Host) (name : Bytes) : Option (Executor F) :=
  ((cmdTable host).find? fun entry => ascii entry.1 = name).map Prod.snd

theorem lookupCmd_mem {host : Host} {name : Bytes} {e : Executor F}
    (h : lookupCmd host name = some e) : ∃ n, (n, e) ∈ cmdTable host ∧ ascii n = name := by
  obtain ⟨⟨n, e'⟩, hfind, rfl⟩ := Option.map_eq_some_iff.mp h
  exact ⟨n, List.mem_of_find?_eq_some hfind, by simpa using List.find?_some hfind⟩

/-- No two executors are registered under one name. -/
theorem cmdTable_names_nodup (host : Host) :
    ((cmdTable host : List (String × Executor F)).map fun entry => ascii entry.1).Nodup := by
  simp only [cmdTable, List.map_cons, List.map_nil]
  decide +kernel

theorem lookupCmd_of_mem {host : Host} {name : String} {e : Executor F}
    (h : (name, e) ∈ cmdTable host) : lookupCmd host (ascii name) = some e := by
  have hsome : ((cmdTable host : List (String × Executor F)).find? fun entry =>
      ascii entry.1 = ascii name).isSome := List.find?_isSome.mpr ⟨_, h, by simp⟩
  obtain ⟨entry, hfind⟩ := Option.isSome_iff_exists.mp hsome
  have hentry : entry = (name, e) :=
    List.inj_on_of_nodup_map (cmdTable_names_nodup host) (List.mem_of_find?_eq_some hfind) h
      (by simpa using List.find?_some hfind)
  rw [lookupCmd, hfind, hentry]
  rfl

/-! ## ExecCommand -/

/-- `MemDb.ExecCommand`. -/
def execCommand (host : Host) (env : Env) (cmd : Command) (w : World F) :
    Except Abort Reply × World F :=
  if cmd = [] then (.ok none, w)
  else
    match (lookupCmd host (toLower (cmdName cmd)) : Option (Executor F)) with
    | none => (.ok (errReply "error: unsupported command"), w)
    | some command => (command.body cmd).run (Op.step env) w

/-- `ExecCommand` of a command whose executor is known. -/
theorem execCommand_of_mem {host : Host} {name : String} {e : Executor F}
    (h : (name, e) ∈ cmdTable host) {cmd : Command} (hne : cmd ≠ [])
    (hname : toLower (cmdName cmd) = ascii name) (env : Env) (w : World F) :
    execCommand host env cmd w = (e.body cmd).run (Op.step env) w := by
  rw [execCommand, if_neg hne, hname, lookupCmd_of_mem h]

/-- What `ExecCommand` can do: reply at once, or run a registered executor. -/
theorem execCommand_cases (host : Host) (env : Env) (cmd : Command) (w : World F) :
    (∃ reply, execCommand host env cmd w = (.ok reply, w) ∧
        (reply = none ∨ reply = errReply "error: unsupported command")) ∨
      ∃ name command, (name, command) ∈ (cmdTable host : List (String × Executor F)) ∧
        ascii name = toLower (cmdName cmd) ∧ lookupCmd host (ascii name) = some command ∧ cmd ≠ [] ∧
        execCommand host env cmd w = (command.body cmd).run (Op.step env) w := by
  unfold execCommand
  by_cases hne : cmd = []
  · rw [if_pos hne]
    exact Or.inl ⟨_, rfl, Or.inl rfl⟩
  · rw [if_neg hne]
    cases hcmd : (lookupCmd host (toLower (cmdName cmd)) : Option (Executor F)) with
    | none => exact Or.inl ⟨_, rfl, Or.inr rfl⟩
    | some command =>
      obtain ⟨name, hmem, hname⟩ := lookupCmd_mem hcmd
      exact Or.inr ⟨name, command, hmem, hname, hname ▸ hcmd, hne, rfl⟩

/-- The bytes of a reply; a nil reply is an error. -/
def replyBytes : Reply → Bytes
  | none => toBytes (.err "unknown error")
  | some data => toBytes data

/-! ## Routing -/

/-- The names in the `switch` of `IsWriteCommand`. -/
def writeNames : List String :=
  ["SET", "SETNX", "SETEX", "PSETEX", "DEL", "INCR", "DECR", "APPEND", "MSET", "MSETNX",
    "HSET", "HSETNX", "HDEL", "HINCRBY", "HINCRBYFLOAT", "HMSET",
    "LPUSH", "RPUSH", "LPOP", "RPOP", "LREM", "LSET", "LTRIM",
    "SADD", "SREM", "SPOP", "SMOVE",
    "ZADD", "ZREM", "ZINCRBY", "ZPOPMAX", "ZPOPMIN",
    "EXPIRE", "EXPIREAT", "PERSIST", "RENAME", "RENAMENX", "FLUSHDB", "FLUSHALL",
    "MULTI", "EXEC", "DISCARD", "WATCH", "UNWATCH"]

/-- `IsWriteCommand`. -/
def isWriteCommand (cmd : Command) : Bool :=
  if cmd = [] then false else writeNames.any fun name => toUpper (cmdName cmd) = ascii name

/-! ## The log -/

/-- `Error()` of the parser's errors. -/
def readErrText : ReadErr → Bytes
  | .eof => ascii "EOF"
  | .unexpectedEOF => ascii "unexpected EOF"
  | .invalidStream msg => ascii "Protocol error. Stream message " ++ msg ++ ascii " is invalid."
  | .protocol msg => ascii "Protocol error: " ++ msg
  | .shortBulk => ascii "protocol error: invalid bulk string"
  | .numError num e => e.text "ParseInt" num

/-- `Error()` of the errors of `decodeCommand`. -/
def decodeErrText : DecodeErr → Bytes
  | .emptyEntry => ascii "empty raft log entry"
  | .read e => readErrText e
  | .notArray => ascii "raft log entry is not array"
  | .crashed _ => []

/-- `fsm.Apply`: the reply bytes. -/
def fsmApply (host : Host) (env : Env) (data : Bytes) (w : World F) :
    Except Abort Bytes × World F :=
  match decodeCommand data with
  | .error (.crashed _) => (.error .panic, w)
  | .error e => (.ok (toBytes (.errorData (ascii "apply error: " ++ decodeErrText e))), w)
  | .ok cmd =>
    let r := execCommand host env cmd w
    (r.1.map replyBytes, r.2)

/-- A replica applying a log: the reply to each entry, and where it ends. A
    panic or an endless loop is the last thing it does. -/
def applyLog (host : Host) (env : Env) : List Bytes → World F → List (Except Abort Bytes) × World F
  | [], w => ([], w)
  | data :: log, w =>
    match fsmApply host env data w with
    | (.error why, w') => ([.error why], w')
    | (.ok reply, w') =>
      let r := applyLog host env log w'
      (.ok reply :: r.1, r.2)

/-! ## A small setting -/

/-- Case tables that map nothing outside ASCII. -/
@[reducible] def asciiTables : UnicodeTables := ⟨id, id, id, fun _ => false⟩

/-- A process with nothing to report. -/
def quietHost : Host := ⟨[], [], [], 0, none, none, fun _ _ => none⟩

/-- A clock that stands still, maps in insertion order, random numbers that are
    always the least. -/
def stillEnv : Env where
  clock _ := 0
  order _ l := l
  order_perm _ l := List.Perm.refl l
  intn _ _ := 0
  intn_lt _ _ h := h
  level _ := 1
  level_range _ := by decide

/-- A `MemDb` before its first command. -/
def emptyWorld {F : Type} : World F := ⟨newMemDb, 0, 0⟩

/-- `ExecCommand` in this setting. -/
abbrev execStill (cmd : Command) (w : World IntScore) : Except Abort Reply × World IntScore :=
  @execCommand IntScore asciiTables _ quietHost stillEnv cmd w

/-- The state after the first command. -/
abbrev stateAfter (cmd : Command) : World IntScore := (execStill cmd emptyWorld).2

end TinyDb
