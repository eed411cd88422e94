import TinyRedis.StringCommandsProofs

/-! # The hash commands

    HDEL, HEXISTS, HGET, HGETALL, HINCRBY, HINCRBYFLOAT, HKEYS, HLEN, HMGET,
    HSET, HSETNX, HVALS, HSTRLEN and HRANDFIELD. -/

namespace TinyDb

open GoString GoStrconv GoFloat TinyResp

variable {F : Type} [UnicodeTables]

/-! ## Random fields -/

/-- The loops of `Random` and `RandomWithValue` for a negative count: whole
    iterations of the table until `need` more keys have been taken, which never
    ends when the table is empty. Every iteration takes a key, so `need` is
    fuel enough. -/
def repeatKeys {V : Type} (table : GoMap V) : Nat → Nat → List Bytes → Cmd F reads (List Bytes)
  | _, 0, res => return res
  | 0, _, _ => goHang
  | fuel + 1, need, res => do
    let keys ← iterate table
    if keys = [] then
      goHang
    else
      repeatKeys table fuel (need - keys.length) (res ++ keys.take need)

/-- `Hash.Random`. -/
def RedisHash.random (h : RedisHash) (count : Int) : Cmd F reads (List Bytes) := do
  if count = 0 ∨ h.len = 0 then
    return []
  if count > 0 then
    let count := if count > h.len then h.len else count
    if TinyRespStream.makePanics 16 count then
      goPanic
    else
      return (← iterate h.table).take count.toNat
  else
    if TinyRespStream.makePanics 16 (int64 (-count)) then
      goPanic
    else
      repeatKeys h.table (int64 (-count)).toNat (int64 (-count)).toNat []

/-- Fields and values, alternating. -/
def RedisHash.withValues (h : RedisHash) (keys : List Bytes) : List (Option Bytes) :=
  keys.flatMap fun key => [some key, h.get key]

/-- `Hash.RandomWithValue`. -/
def RedisHash.randomWithValue (h : RedisHash) (count : Int) :
    Cmd F reads (List (Option Bytes)) := do
  if count = 0 ∨ h.len = 0 then
    return []
  if count > 0 then
    let count := if count > h.len then h.len else count
    if TinyRespStream.makePanics 24 (int64 (count * 2)) then
      goPanic
    else
      return h.withValues ((← iterate h.table).take count.toNat)
  else
    -- the bound of the loop, `-count*2`, counts keys and values
    let bound := int64 (-count * 2)
    if TinyRespStream.makePanics 24 bound then
      goPanic
    else
      return h.withValues (← repeatKeys h.table (bound / 2).toNat (bound / 2).toNat [])

/-- `hRandFieldHash`. -/
def hRandFieldHash (cmd : Command) : Cmd F reads Reply :=
  named cmd "hrandfield" (errReply "server error") do
    if cmd.length ≠ 2 ∧ cmd.length ≠ 3 ∧ cmd.length ≠ 4 then
      return errReply "wrong number of arguments for 'hrandfield' command"
    let key ← strAt cmd 1
    match ← atoiAt cmd 2 1 with
    | .error _ => return errReply "err: count value must be integer"
    | .ok count =>
      let option ← if cmd.length = 4 then strAt cmd 3 else pure (ascii "withvalues")
      if toLower option ≠ ascii "withvalues" then
        return some (.errorData (ascii "command option error, not support " ++ option ++
          ascii " option"))
      reading .hash key emptyArrayReply fun hash => do
        if cmd.length = 4 then
          return bulksReply (← hash.randomWithValue count)
        else
          return bulksReply ((← hash.random count).map some)

/-! ## Reading -/

/-- `hStrLenHash`. -/
def hStrLenHash (cmd : Command) : Cmd F reads Reply :=
  named cmd "hstrlen" (errReply "server error") do
    if cmd.length ≠ 3 then
      return errReply "wrong number of arguments for 'hstrlen' command"
    let key ← strAt cmd 1
    let field ← strAt cmd 2
    reading .hash key (intReply 0) fun hash => return intReply (hash.strLen field)

/-- `hValsHash`. -/
def hValsHash (cmd : Command) : Cmd F reads Reply :=
  named cmd "hvals" (errReply "server error") do
    if cmd.length ≠ 2 then
      return errReply "wrong number of arguments for 'hvals' command"
    reading .hash (← strAt cmd 1) emptyArrayReply fun hash => do
      return bulksReply ((← iterate hash.table).map hash.get)

/-- `hKeysHash`. -/
def hKeysHash (cmd : Command) : Cmd F reads Reply :=
  named cmd "hkeys" (errReply "server error") do
    if cmd.length ≠ 2 then
      return errReply "wrong number of arguments for 'hkeys' command"
    reading .hash (← strAt cmd 1) emptyArrayReply fun hash => do
      return bulksReply ((← iterate hash.table).map some)

/-- `hLenHash`. -/
def hLenHash (cmd : Command) : Cmd F reads Reply :=
  named cmd "hlen" (errReply "Server error") do
    if cmd.length ≠ 2 then
      return errReply "wrong number of arguments for 'hlen' command"
    reading .hash (← strAt cmd 1) (intReply 0) fun hash => return intReply hash.len

/-- The reply for one field: an empty value is the null bulk. -/
def fieldData (hash : RedisHash) (field : Bytes) : Option Bytes :=
  if str (hash.get field) = [] then none else hash.get field

/-- `hGetHash`. -/
def hGetHash (cmd : Command) : Cmd F reads Reply :=
  named cmd "hget" (errReply "Server error") do
    if cmd.length ≠ 3 then
      return errReply "wrong number of arguments for 'hget' command"
    reading .hash (← strAt cmd 1) (bulkReply none) fun hash => do
      return bulkReply (fieldData hash (← strAt cmd 2))

/-- `hMGetHash`. -/
def hMGetHash (cmd : Command) : Cmd F reads Reply :=
  named cmd "hmget" (errReply "Server error") do
    if cmd.length < 3 then
      return errReply "wrong number of arguments for 'hmget' command"
    reading .hash (← strAt cmd 1) (bulksReply (List.replicate (cmd.length - 2) none)) fun hash =>
      return bulksReply ((cmd.drop 2).map fun field => fieldData hash (str field))

/-- `hExistsHash`. -/
def hExistsHash (cmd : Command) : Cmd F reads Reply :=
  named cmd "hexists" (errReply "Server error") do
    if cmd.length ≠ 3 then
      return errReply "wrong number of arguments for 'hexists' command"
    reading .hash (← strAt cmd 1) (intReply 0) fun hash => do
      return intReply (if hash.exist (← strAt cmd 2) then 1 else 0)

/-- `hGetAllHash`. -/
def hGetAllHash (cmd : Command) : Cmd F reads Reply :=
  named cmd "hgetall" (errReply "Server error") do
    if cmd.length ≠ 2 then
      return errReply "wrong number of arguments for 'hgetall' command"
    reading .hash (← strAt cmd 1) emptyArrayReply fun hash => do
      return bulksReply (hash.withValues (← iterate hash.table))

/-! ## Writing -/

/-- `hSetNxHash`. -/
def hSetNxHash (cmd : Command) : Cmd F writes Reply :=
  named cmd "hsetnx" (errReply "server error") do
    if cmd.length ≠ 4 then
      return errReply "wrong number of arguments for 'hsetnx' command"
    let key ← strAt cmd 1
    let field ← strAt cmd 2
    let value ← argAt cmd 3
    let _ ← checkTTL key
    withLock key do
      match ← getOrCreate .hash key newHash with
      | .found hash =>
        if hash.exist field then
          return intReply 0
        update .hash key (hash.set field value)
        return intReply 1
      | _ => return wrongTypeReply

/-- HINCRBY and HINCRBYFLOAT, with their errors for the number of arguments, an
    increment and a value that do not parse. -/
def incrHash {α : Type} (cmd : Command) (name badLength badIncr badValue : String)
    (parse : Bytes → Option α) (incrBy : RedisHash → Bytes → α → RedisHash × Option α)
    (reply : α → Reply) : Cmd F writes Reply :=
  named cmd name (errReply "server error") do
    if cmd.length ≠ 4 then
      return errReply badLength
    let key ← strAt cmd 1
    let field ← strAt cmd 2
    match parse (← strAt cmd 3) with
    | none => return errReply badIncr
    | some incr =>
      let _ ← checkTTL key
      withLock key do
        match ← getOrCreate .hash key newHash with
        | .found hash =>
          match incrBy hash field incr with
          | (_, none) => return errReply badValue
          | (hash, some res) =>
            update .hash key hash
            return reply res
        | _ => return wrongTypeReply

/-- `hIncrByFloatHash`. -/
def hIncrByFloatHash [FloatText F] (cmd : Command) : Cmd F writes Reply :=
  incrHash cmd "hincrbyfloat" "wrong number of arguments for 'hincrbyfloat' command"
    "incr value must be a float" "value is not a float" FloatText.parse
    (RedisHash.incrByFloat (F := F)) fun res => bulkReply (some (FloatText.format res))

/-- `hIncrByHash`. -/
def hIncrByHash (cmd : Command) : Cmd F writes Reply :=
  incrHash cmd "hincrby" "wrong number of arguments for 'hincrby' command"
    "incr value must be an integer" "value is not an integer" (fun s => (atoi s).toOption)
    RedisHash.incrBy intReply

/-- The loop of `hSetHash`: the hash and how many fields are new. -/
def hSetLoop (hash : RedisHash) : List (Bytes × Option Bytes) → RedisHash × Int
  | [] => (hash, 0)
  | (field, value) :: rest =>
    let r := hSetLoop (hash.set field value) rest
    (r.1, (if hash.exist field then 0 else 1) + r.2)

/-- `hSetHash`. -/
def hSetHash (cmd : Command) : Cmd F writes Reply :=
  named cmd "hset" (errReply "Server error") do
    if cmd.length < 4 ∨ cmd.length % 2 = 1 then
      return errReply "wrong number of arguments for 'hset' command"
    let key ← strAt cmd 1
    let _ ← checkTTL key
    withLock key do
      match ← getOrCreate .hash key newHash with
      | .found hash =>
        match pairsOf (cmd.drop 2) with
        | none => goPanic
        | some pairs =>
          let r := hSetLoop hash pairs
          update .hash key r.1
          return intReply r.2
      | _ => return wrongTypeReply

/-- Deletion of several fields. -/
def hDelLoop (hash : RedisHash) : List (Option Bytes) → RedisHash × Int
  | [] => (hash, 0)
  | field :: rest =>
    let r := hDelLoop (hash.del (str field)).1 rest
    (r.1, (hash.del (str field)).2 + r.2)

/-- `hDelHash`. -/
def hDelHash (cmd : Command) : Cmd F writes Reply :=
  named cmd "hdel" (errReply "Server error") do
    if cmd.length < 3 then
      return errReply "wrong number of arguments for 'hdel' command"
    let key ← strAt cmd 1
    if !(← checkTTL key) then
      return intReply 0
    withLock key do
      match ← get .hash key with
      | .absent => return intReply 0
      | .wrongType => return wrongTypeReply
      | .found hash =>
        let r := hDelLoop hash (cmd.drop 2)
        update .hash key r.1
        dropIf r.1.isEmpty key
        return intReply r.2

end TinyDb
