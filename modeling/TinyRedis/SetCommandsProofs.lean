import TinyRedis.ListCommandsProofs

/-! # The set commands

    SADD, SCARD, SDIFF, SDIFFSTORE, SINTER, SINTERSTORE, SISMEMBER, SMEMBERS,
    SMOVE, SPOP, SRANDMEMBER, SREM, SUNION and SUNIONSTORE. -/

namespace TinyDb

open GoString TinyResp

variable {F : Type} [UnicodeTables]

/-! ## Random members -/

/-- The reservoir loop of `Set.Random`. -/
def reservoir (count : Nat) : List Bytes → Nat → List Bytes → Cmd F reads (List Bytes)
  | [], _, res => return res
  | key :: rest, i, res => do
    if i < count then
      reservoir count rest (i + 1) (res ++ [key])
    else
      let j ← randIntn (i + 1)
      reservoir count rest (i + 1) (if j < count then res.set j key else res)

/-- The loop of `Set.Random` for a negative count. -/
def drawMembers (members : List Bytes) (size : Nat) : Nat → List Bytes → Cmd F reads (List Bytes)
  | 0, res => return res
  | n + 1, res => do
    match members[← randIntn size]? with
    | none => goPanic
    | some member => drawMembers members size n (res ++ [member])

/-- `Set.Random`. -/
def RedisSet.random (s : RedisSet) (count : Int) : Cmd F reads (List Bytes) := do
  if count = 0 ∨ s.len = 0 then
    return []
  if count > 0 then
    if count ≥ s.len then
      iterate s.table
    else
      reservoir count.toNat (← iterate s.table) 0 []
  else
    let count := int64 (-count)
    let members ← iterate s.table
    if TinyRespStream.makePanics 16 count ∨ s.len < 0 then
      goPanic
    else
      drawMembers members s.len.toNat count.toNat []

/-- `Set.Pop`: the first key of an iteration; "" for an empty set. -/
def RedisSet.pop (s : RedisSet) : Cmd F randomWrites (RedisSet × Bytes) := do
  match ← iterate s.table with
  | [] => return (s, [])
  | key :: _ => return ((s.remove key).1, key)

/-! ## Reading -/

/-- `sCardSet`. -/
def sCardSet (cmd : Command) : Cmd F reads Reply :=
  named cmd "scard" (errReply "Server error") do
    if cmd.length ≠ 2 then
      return errReply "wrong number of arguments for 'scard' command"
    reading .set (← strAt cmd 1) (intReply 0) fun set => return intReply set.len

/-- `sIsMemberSet`. -/
def sIsMemberSet (cmd : Command) : Cmd F reads Reply :=
  named cmd "sismember" (errReply "Server error") do
    if cmd.length ≠ 3 then
      return errReply "wrong number of arguments for 'sismember' command"
    let key ← strAt cmd 1
    let val ← strAt cmd 2
    reading .set key (intReply 0) fun set => return intReply (if set.has val then 1 else 0)

/-- The members as a reply, in iteration order. -/
def membersReply (set : RedisSet) : Cmd F reads Reply := do
  return bulksReply ((← iterate set.table).map some)

/-- `sMembersSet`. -/
def sMembersSet (cmd : Command) : Cmd F reads Reply :=
  named cmd "smembers" (errReply "Server error") do
    if cmd.length ≠ 2 then
      return errReply "wrong number of arguments for 'smembers' command"
    reading .set (← strAt cmd 1) emptyArrayReply membersReply

/-- `sRandMemberSet`. -/
def sRandMemberSet (cmd : Command) : Cmd F reads Reply :=
  named cmd "srandmember" (errReply "Server error") do
    if cmd.length ≠ 2 ∧ cmd.length ≠ 3 then
      return errReply "wrong number of arguments for 'srandmember' command"
    match ← atoiAt cmd 2 1 with
    | .error _ => return errReply "count value must be an integer"
    | .ok count =>
      reading .set (← strAt cmd 1) (bulkReply none) fun set => do
        let members ← set.random count
        if members = [] then
          return bulkReply none
        return bulksReply (members.map some)

/-! ## Several sets -/

/-- `m.CheckTTL` of every key; those that have not expired. -/
def liveKeys {c : Caps} : List (Option Bytes) → Cmd F c (List Bytes)
  | [] => return []
  | key :: rest => do
    let live ← checkTTL (str key)
    let keys ← liveKeys rest
    return if live then str key :: keys else keys

/-- The sets among the keys; none if a key holds another type. -/
def getSets {c : Caps} : List Bytes → Cmd F c (Option (List RedisSet))
  | [] => return some []
  | key :: rest => do
    match ← get .set key with
    | .absent => getSets rest
    | .wrongType => return none
    | .found set => return (← getSets rest).map fun sets => set :: sets

/-- The loop that looks for the shortest set: its index. -/
def shortestLoop : List RedisSet → Nat → Nat → Int → Nat
  | [], _, shortestSet, _ => shortestSet
  | set :: rest, i, shortestSet, shortestLen =>
    if set.len < shortestLen then shortestLoop rest (i + 1) i set.len
    else shortestLoop rest (i + 1) shortestSet shortestLen

/-- The intersection of the sets, from the shortest; `sets[shortestSet]` panics
    when there is none. -/
def intersectAll {c : Caps} (sets : List RedisSet) : Cmd F c RedisSet :=
  let shortestSet := shortestLoop sets 0 0 (2 ^ 63 - 1)
  match sets[shortestSet]? with
  | none => goPanic
  | some primSet => return primSet.intersect (sets.eraseIdx shortestSet)

/-- `sUnionSet`. -/
def sUnionSet (cmd : Command) : Cmd F reads Reply :=
  named cmd "sunion" (errReply "Server error") do
    if cmd.length < 2 then
      return errReply "wrong number of arguments for 'sunion' command"
    let keys ← liveKeys cmd.tail
    if keys = [] then
      return emptyArrayReply
    withRLocks keys do
      match ← getSets keys with
      | none => return wrongTypeReply
      | some [] => return emptyArrayReply
      | some (set :: sets) => membersReply (set.union sets)

/-- `sInterSet`. -/
def sInterSet (cmd : Command) : Cmd F reads Reply :=
  named cmd "sinter" (errReply "Server error") do
    if cmd.length < 2 then
      return errReply "wrong number of arguments for 'sinter' command"
    let keys := cmd.tail.map str
    let _ ← liveKeys cmd.tail
    withRLocks keys do
      match ← getSets keys with
      | none => return wrongTypeReply
      | some sets => membersReply (← intersectAll sets)

/-- `sDiffSet`. -/
def sDiffSet (cmd : Command) : Cmd F reads Reply :=
  named cmd "sdiff" (errReply "Server error") do
    if cmd.length < 2 then
      return errReply "wrong number of arguments for 'sdiff' command"
    let keys := cmd.tail.map str
    let _ ← liveKeys cmd.tail
    withRLocks keys do
      match ← get .set (← strAt cmd 1) with
      | .absent => return emptyArrayReply
      | .wrongType => return wrongTypeReply
      | .found primSet =>
        if keys.length = 1 then
          membersReply primSet
        else
          match ← getSets keys.tail with
          | none => return wrongTypeReply
          | some sets => membersReply (primSet.difference sets)

/-! ## The STORE commands -/

/-- Whether `desKey` is absent or holds a set. -/
def holdsSet (desKey : Bytes) : Cmd F writes Bool := do
  match ← get .set desKey with
  | .wrongType => return false
  | _ => return true

/-- The last part of the three commands: `desKey` is checked again, and an empty
    result is not stored. -/
def storeSet (desKey : Bytes) (res : RedisSet) : Cmd F writes Reply := do
  if !(← holdsSet desKey) then
    return wrongTypeReply
  if res.len ≠ 0 then
    set .set desKey res
  return intReply res.len

/-- The frame of the three commands: `compute` gives the result from the live
    keys or an early reply, `store` puts it in place. -/
def storing (cmd : Command) (compute : List Bytes → Cmd F writes (Except Reply RedisSet))
    (store : Bytes → RedisSet → Cmd F writes Reply) : Cmd F writes Reply := do
  let desKey ← strAt cmd 1
  let _ ← checkTTL desKey
  if !(← holdsSet desKey) then
    return wrongTypeReply
  let keys ← liveKeys (cmd.drop 2)
  if keys = [] then
    return intReply 0
  match ← compute keys with
  | .error reply => return reply
  | .ok res =>
    let _ ← checkTTL desKey
    store desKey res

/-- The union for SUNIONSTORE. -/
def unionOf (keys : List Bytes) : Cmd F writes (Except Reply RedisSet) := do
  rLockMulti keys
  let sets ← getSets keys
  rUnLockMulti keys
  match sets with
  | none => return .error wrongTypeReply
  | some [] => return .error emptyArrayReply
  | some (set :: sets) => return .ok (set.union sets)

/-- The intersection for SINTERSTORE; a panic leaves the read locks held. -/
def interOf (keys : List Bytes) : Cmd F writes (Except Reply RedisSet) := do
  rLockMulti keys
  match ← getSets keys with
  | none =>
    rUnLockMulti keys
    return .error wrongTypeReply
  | some sets =>
    let interSet ← intersectAll sets
    rUnLockMulti keys
    return .ok interSet

/-- The difference for SDIFFSTORE, of the first live key and the others, under
    the read locks. -/
def diffOf : List Bytes → Cmd F writes (Except Reply RedisSet)
  | [] => goPanic
  | key :: rest => do
    rLockMulti (key :: rest)
    match ← get .set key with
    | .absent =>
      rUnLockMulti (key :: rest)
      return .ok newSet
    | .wrongType =>
      rUnLockMulti (key :: rest)
      return .error wrongTypeReply
    | .found primSet =>
      let sets ← getSets rest
      rUnLockMulti (key :: rest)
      match sets with
      | none => return .error wrongTypeReply
      | some sets => return .ok (primSet.difference sets)

/-- `sUnionStoreSet`: the lock on the destination is released at once. -/
def sUnionStoreSet (cmd : Command) : Cmd F writes Reply :=
  named cmd "sunionstore" (errReply "Server error") do
    if cmd.length < 3 then
      return errReply "wrong number of arguments for 'sunionstore' command"
    storing cmd unionOf fun desKey res => do
      withLock desKey (pure ())
      storeSet desKey res

/-- `sInterStoreSet`. -/
def sInterStoreSet (cmd : Command) : Cmd F writes Reply :=
  named cmd "sinterstore" (errReply "Server error") do
    if cmd.length < 3 then
      return errReply "wrong number of arguments for 'sinterstore' command"
    storing cmd interOf fun desKey res => withLock desKey (storeSet desKey res)

/-- `sDiffStoreSet`. -/
def sDiffStoreSet (cmd : Command) : Cmd F writes Reply :=
  named cmd "sdiffstore" (errReply "Server error") do
    if cmd.length < 3 then
      return errReply "wrong number of arguments for 'sdiffstore' command"
    storing cmd diffOf fun desKey res => withLock desKey (storeSet desKey res)

/-! ## Writing -/

/-- `Add` or `Remove` of several members: the set and the sum of the results. -/
def memberLoop (op : RedisSet → Bytes → RedisSet × Int) (set : RedisSet) :
    List (Option Bytes) → RedisSet × Int
  | [] => (set, 0)
  | member :: rest =>
    let r := memberLoop op (op set (str member)).1 rest
    (r.1, (op set (str member)).2 + r.2)

/-- `sAddSet`. -/
def sAddSet (cmd : Command) : Cmd F writes Reply :=
  named cmd "sadd" (errReply "Server error") do
    if cmd.length < 3 then
      return errReply "wrong number of arguments for 'sadd' command"
    let key ← strAt cmd 1
    let _ ← checkTTL key
    withLock key do
      match ← getOrCreate .set key newSet with
      | .found set =>
        let r := memberLoop RedisSet.add set (cmd.drop 2)
        update .set key r.1
        return intReply r.2
      | _ => return wrongTypeReply

/-- `sRemSet`. -/
def sRemSet (cmd : Command) : Cmd F writes Reply :=
  named cmd "srem" (errReply "Server error") do
    if cmd.length < 3 then
      return errReply "wrong number of arguments for 'srem' command"
    let key ← strAt cmd 1
    if !(← checkTTL key) then
      return intReply 0
    withLock key do
      match ← get .set key with
      | .absent => return intReply 0
      | .wrongType => return wrongTypeReply
      | .found set =>
        let r := memberLoop RedisSet.remove set (cmd.drop 2)
        update .set key r.1
        dropIf (r.1.len = 0) key
        return intReply r.2

/-- `sMoveSet`: an emptied source keeps its key. -/
def sMoveSet (cmd : Command) : Cmd F writes Reply :=
  named cmd "smove" (errReply "Server error") do
    if cmd.length ≠ 4 then
      return errReply "wrong number of arguments for 'smove' command"
    let srcKey ← strAt cmd 1
    let desKey ← strAt cmd 2
    let val ← strAt cmd 3
    let _ ← checkTTL desKey
    if !(← checkTTL srcKey) then
      return intReply 0
    withLocks [srcKey, desKey] do
      match ← get .set srcKey with
      | .absent => return intReply 0
      | .wrongType => return wrongTypeReply
      | .found srcSet =>
        match ← get .set desKey with
        | .wrongType => return wrongTypeReply
        | .absent =>
          if (srcSet.remove val).2 = 0 then
            return intReply 0
          update .set srcKey (srcSet.remove val).1
          set .set desKey (newSet.add val).1
          return intReply 1
        | .found desSet =>
          if (srcSet.remove val).2 = 0 then
            return intReply 0
          update .set srcKey (srcSet.remove val).1
          -- `srcSet` and `desSet` are one set when the keys are equal
          let desSet := if desKey = srcKey then (srcSet.remove val).1 else desSet
          update .set desKey (desSet.add val).1
          return intReply 1

/-- The loop of `sPopSet`, which ends at an empty set and at an empty member. -/
def sPopLoop : Nat → RedisSet → List Bytes → Cmd F randomWrites (RedisSet × List Bytes)
  | 0, set, res => return (set, res)
  | n + 1, set, res => do
    let r ← set.pop
    if r.2 = [] then
      return (r.1, res)
    else
      sPopLoop n r.1 (res ++ [r.2])

/-- `sPopSet`. -/
def sPopSet (cmd : Command) : Cmd F randomWrites Reply :=
  named cmd "spop" (errReply "Server error") do
    if cmd.length ≠ 2 ∧ cmd.length ≠ 3 then
      return errReply "wrong number of arguments for 'spop' command"
    match ← atoiAt cmd 2 1 with
    | .error _ => return errReply "count value must be a positive integer"
    | .ok count =>
      if count < 0 then
        return errReply "count value must be a positive integer"
      let key ← strAt cmd 1
      if !(← checkTTL key) then
        return bulkReply none
      withLock key do
        match ← get .set key with
        | .absent => return bulkReply none
        | .wrongType => return wrongTypeReply
        | .found set =>
          if count = 0 then
            return emptyArrayReply
          if count = 1 then
            let r ← set.pop
            update .set key r.1
            dropIf (r.1.len = 0) key
            return bulkReply (some r.2)
          else
            let r ← sPopLoop count.toNat set []
            update .set key r.1
            dropIf (r.1.len = 0) key
            return bulksReply (r.2.map some)

end TinyDb
