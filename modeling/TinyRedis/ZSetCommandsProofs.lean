import TinyRedis.SetCommandsProofs

/-! # The sorted-set commands

    ZADD, ZCARD, ZCOUNT, ZRANGE, ZREVRANGE, ZRANGEBYSCORE, ZRANK, ZREVRANK,
    ZREM, ZREMRANGEBYRANK, ZREMRANGEBYSCORE, ZSCORE and ZINCRBY. -/

namespace TinyDb

open GoString GoStrconv GoFloat TinyResp TinyZSet

variable {F : Type} [UnicodeTables] [FloatText F]

/-! ## Reading -/

/-- The guard of these commands, on name and length together. -/
def zNamed {c : Caps} (cmd : Command) (name : String) (lengthOk : Bool) (body : Cmd F c Reply) :
    Cmd F c Reply := do
  if toLower (← strAt cmd 0) ≠ ascii name ∨ !lengthOk then
    return some (.errorData (ascii "ERR wrong number of arguments for '" ++ ascii name ++
      ascii "' command"))
  body

omit [FloatText F] in
/-- The guard lets the command through. -/
theorem zNamed_eq {c : Caps} {cmd : Command} {name : String} {lengthOk : Bool}
    {body : Cmd F c Reply} (hne : cmd ≠ []) (hname : toLower (cmdName cmd) = ascii name)
    (hlen : lengthOk = true) : zNamed cmd name lengthOk body = body := by
  obtain ⟨a, rest, rfl⟩ := List.exists_cons_of_ne_nil hne
  have hname : toLower (str a) = ascii name := hname
  have hpass : ¬ (toLower (str a) ≠ ascii name ∨ (!lengthOk) = true) := by
    rw [hlen]
    exact fun h => h.elim (fun h => h hname) Bool.false_ne_true
  rw [zNamed, strAt_bind (a := a) rfl, if_neg hpass]

/-- `zCardZset`. -/
def zCardZset (cmd : Command) : Cmd F reads Reply :=
  zNamed cmd "zcard" (cmd.length = 2) do
    reading .zset (← strAt cmd 1) (intReply 0) fun zset => return intReply zset.length

/-- `zCountZset`. -/
def zCountZset (cmd : Command) : Cmd F reads Reply :=
  zNamed cmd "zcount" (cmd.length = 4) do
    let key ← strAt cmd 1
    if !(← checkTTL key) then
      return intReply 0
    match (FloatText.parse (← strAt cmd 2) : Option F),
      (FloatText.parse (← strAt cmd 3) : Option F) with
    | none, _ => return errReply "ERR min value is not a valid float"
    | some _, none => return errReply "ERR max value is not a valid float"
    | some min, some max =>
      lookingUp .zset key (intReply 0) fun zset => return intReply (zset.count min max)

/-- The members of the nodes, with their scores or without. -/
def nodesReply (zset : ZSet F) (withScores : Bool) (nodes : List Nat) : Reply :=
  bulksReply (nodes.flatMap fun p =>
    if withScores then [some (zset.mem p).member, some (FloatText.formatV (zset.mem p).score)]
    else [some (zset.mem p).member])

/-- The two rank arguments, or an error reply. -/
def rankArgs (start stop : Bytes) : Except Reply (Int × Int) :=
  match atoi start, atoi stop with
  | .error _, _ => .error (errReply "ERR start value is not an integer")
  | .ok _, .error _ => .error (errReply "ERR stop value is not an integer")
  | .ok start, .ok stop => .ok (start, stop)

/-- ZRANGE and ZREVRANGE. -/
def rangeWith (range : ZSet F → Int → Int → List Nat) (cmd : Command) : Cmd F reads Reply := do
  let key ← strAt cmd 1
  if !(← checkTTL key) then
    return emptyArrayReply
  match rankArgs (← strAt cmd 2) (← strAt cmd 3) with
  | .error reply => return reply
  | .ok (start, stop) =>
    let option ← if cmd.length = 5 then strAt cmd 4 else pure []
    let withScores := decide (toLower option = ascii "withscores")
    lookingUp .zset key emptyArrayReply fun zset =>
      return nodesReply zset withScores (range zset start stop)

/-- `zRangeZset`. -/
def zRangeZset (cmd : Command) : Cmd F reads Reply :=
  zNamed cmd "zrange" (cmd.length ≥ 4) (rangeWith ZSet.range cmd)

/-- `zRevRangeZset`. -/
def zRevRangeZset (cmd : Command) : Cmd F reads Reply :=
  zNamed cmd "zrevrange" (cmd.length ≥ 4) (rangeWith ZSet.revRange cmd)

/-- The score bounds of ZRANGEBYSCORE and ZREMRANGEBYSCORE, or an error reply. -/
def scoreArgs (minStr maxStr : Bytes) : Except Reply (F × F) :=
  let min : Option F :=
    if minStr = ascii "-inf" then some FloatText.negInf else FloatText.parse minStr
  let max : Option F :=
    if maxStr = ascii "+inf" ∨ maxStr = ascii "inf" then some FloatText.inf
    else FloatText.parse maxStr
  match min, max with
  | none, _ => .error (errReply "ERR min value is not a valid float")
  | some _, none => .error (errReply "ERR max value is not a valid float")
  | some min, some max => .ok (min, max)

/-- WITHSCORES and LIMIT. -/
structure RangeOptions where
  withScores : Bool
  offset : Int
  count : Int

/-- The option loop of `zRangeByScoreZset`; what it does not know is skipped. -/
def rangeOptions : List (Option Bytes) → RangeOptions → Except Reply RangeOptions
  | [], o => .ok o
  | a :: rest, o =>
    if toLower (str a) = ascii "withscores" then rangeOptions rest { o with withScores := true }
    else if toLower (str a) = ascii "limit" then
      match rest with
      | offset :: count :: rest =>
        match atoi (str offset), atoi (str count) with
        | .error _, _ => .error (errReply "ERR offset value is not an integer")
        | .ok _, .error _ => .error (errReply "ERR count value is not an integer")
        | .ok offset, .ok count => rangeOptions rest { o with offset := offset, count := count }
      | rest => rangeOptions rest o
    else rangeOptions rest o
termination_by l => l.length

/-- `zRangeByScoreZset`. -/
def zRangeByScoreZset (cmd : Command) : Cmd F reads Reply :=
  zNamed cmd "zrangebyscore" (cmd.length ≥ 4) do
    let key ← strAt cmd 1
    if !(← checkTTL key) then
      return emptyArrayReply
    match (scoreArgs (← strAt cmd 2) (← strAt cmd 3) : Except Reply (F × F)) with
    | .error reply => return reply
    | .ok (min, max) =>
      match rangeOptions (cmd.drop 4) ⟨false, 0, -1⟩ with
      | .error reply => return reply
      | .ok o =>
        lookingUp .zset key emptyArrayReply fun zset =>
          return nodesReply zset o.withScores (zset.rangeByScore min max o.offset o.count)

/-- `zRankZset`. -/
def zRankZset (cmd : Command) : Cmd F reads Reply :=
  zNamed cmd "zrank" (cmd.length = 3) do
    let key ← strAt cmd 1
    let member ← strAt cmd 2
    reading .zset key (bulkReply none) fun zset =>
      let rank := zset.rank member
      return if rank = -1 then bulkReply none else intReply rank

/-- `zRevRankZset`. -/
def zRevRankZset (cmd : Command) : Cmd F reads Reply :=
  zNamed cmd "zrevrank" (cmd.length = 3) do
    let key ← strAt cmd 1
    let member ← strAt cmd 2
    reading .zset key (bulkReply none) fun zset =>
      let rank := zset.revRank member
      return if rank = -1 then bulkReply none else intReply rank

/-- `zScoreZset`. -/
def zScoreZset (cmd : Command) : Cmd F reads Reply :=
  zNamed cmd "zscore" (cmd.length = 3) do
    let key ← strAt cmd 1
    let member ← strAt cmd 2
    reading .zset key (bulkReply none) fun zset =>
      let score := zset.get member
      return if (Float64.place score).isNone then bulkReply none
        else bulkReply (some (FloatText.formatV score))

/-! ## Writing -/

/-- The sorted set at `key`; a new one is stored when the key is absent. -/
def getOrCreateZSet (key : Bytes) : Cmd F sortedWrites (Found (ZSet F)) := do
  match ← getZSet key with
  | .absent =>
    setZSet key newZSet
    return .found newZSet
  | found => return found

/-- The loop of `zAddZset`: what was added before a bad score stays. A score
    without a member is the panic of `cmd[i+1]`. -/
def zAddLoop : List (Option Bytes) → ZSet F → Int → Cmd F sortedWrites (ZSet F × Option Int)
  | [_], _, _ => goPanic
  | score :: member :: rest, zset, res =>
    match (FloatText.parse (str score) : Option F) with
    | none => return (zset, none)
    | some s => do
      let r := zset.add (str member) s (← randomLevel)
      zAddLoop rest r.1 (if r.2 then res + 1 else res)
  | [], zset, res => return (zset, some res)

/-- `zAddZset`. -/
def zAddZset (cmd : Command) : Cmd F sortedWrites Reply :=
  named cmd "zadd" none do
    if cmd.length < 3 ∨ cmd.length % 2 ≠ 0 then
      return errReply "wrong number of arguments for 'zadd' command"
    let key ← strAt cmd 1
    let _ ← checkTTL key
    withLock key do
      match ← getOrCreateZSet key with
      | .found zset =>
        let r ← zAddLoop (cmd.drop 2) zset 0
        updateZSet key r.1
        match r.2 with
        | none => return errReply "ERR value is not a valid float"
        | some res => return intReply res
      | _ => return wrongTypeReply

omit [UnicodeTables] in
/-- ZADD with score and member pairs passes the check of its length. -/
theorem zAdd_length {name key : Option Bytes} {args : List (Option Bytes)} (hargs : args ≠ [])
    (heven : args.length % 2 = 0) :
    ¬ ((name :: key :: args).length < 3 ∨ (name :: key :: args).length % 2 ≠ 0) := by
  have hpos := List.length_pos_iff.mpr hargs
  simp only [List.length_cons]
  omega

/-- `zIncrByZset`. -/
def zIncrByZset (cmd : Command) : Cmd F sortedWrites Reply :=
  zNamed cmd "zincrby" (cmd.length = 4) do
    let key ← strAt cmd 1
    match (FloatText.parse (← strAt cmd 2) : Option F) with
    | none => return errReply "ERR increment value is not a valid float"
    | some incr =>
      let member ← strAt cmd 3
      let _ ← checkTTL key
      withLock key do
        match ← getOrCreateZSet key with
        | .found zset =>
          let r := zset.incrBy member incr (← randomLevel)
          updateZSet key r.1
          return bulkReply (some (FloatText.formatV r.2))
        | _ => return wrongTypeReply

/-- The part of a removing command under the lock: what `remove` leaves is
    kept even when it is empty. -/
def removingFrom (key : Bytes) (remove : ZSet F → ZSet F × Int) : Cmd F sortedWrites Reply :=
  withLock key do
    match ← getZSet key with
    | .absent => return intReply 0
    | .wrongType => return wrongTypeReply
    | .found zset =>
      let r := remove zset
      updateZSet key r.1
      return intReply r.2

/-- `zRemZset`. -/
def zRemZset (cmd : Command) : Cmd F sortedWrites Reply :=
  zNamed cmd "zrem" (cmd.length ≥ 3) do
    let key ← strAt cmd 1
    if !(← checkTTL key) then
      return intReply 0
    removingFrom key fun zset => zset.removeAll ((cmd.drop 2).map str)

/-- ZREMRANGEBYRANK and ZREMRANGEBYSCORE, which differ in how they read the bounds. -/
def removingRange {α : Type} (cmd : Command) (name : String)
    (bounds : Bytes → Bytes → Except Reply α) (remove : ZSet F → α → ZSet F × Int) :
    Cmd F sortedWrites Reply :=
  zNamed cmd name (cmd.length = 4) do
    let key ← strAt cmd 1
    if !(← checkTTL key) then
      return intReply 0
    match bounds (← strAt cmd 2) (← strAt cmd 3) with
    | .error reply => return reply
    | .ok range => removingFrom key fun zset => remove zset range

/-- `zRemRangeByRankZset`. -/
def zRemRangeByRankZset (cmd : Command) : Cmd F sortedWrites Reply :=
  removingRange cmd "zremrangebyrank" rankArgs fun zset (start, stop) =>
    zset.remRangeByRank start stop

/-- `zRemRangeByScoreZset`. -/
def zRemRangeByScoreZset (cmd : Command) : Cmd F sortedWrites Reply :=
  removingRange cmd "zremrangebyscore" scoreArgs fun zset (min, max) =>
    zset.remRangeByScore min max

end TinyDb
