import TinyRedis.MemDbProofs

/-! # The key commands

    PING, DEL, EXISTS, KEYS, EXPIRE, PERSIST, TTL, TYPE and RENAME, and the
    glob matcher of KEYS. -/

namespace TinyDb

open GoString GoStrconv GoFloat GoProgram TinyResp

/-! ## Capabilities -/

/-- Commands that only read: anything but `write`. -/
abbrev reads : Caps := ⟨false, true, true, true⟩

/-- Commands that write, and depend on the store and their arguments only. -/
abbrev writes : Caps := ⟨true, false, false, false⟩

/-- Commands that write and set deadlines. -/
abbrev timedWrites : Caps := ⟨true, true, false, false⟩

/-- Commands that write and depend on map order. -/
abbrev randomWrites : Caps := ⟨true, false, true, false⟩

/-- Commands that move values of any type. -/
abbrev anyWrites : Caps := ⟨true, false, false, true⟩

/-- Commands that write sorted sets. -/
abbrev sortedWrites : Caps := ⟨true, false, true, true⟩

/-! ## PatternMatch -/

/-- The loop inside `[...]`, on the byte `c` of the source; `prev` is the
    pattern byte before. None if the bracket is not closed or a range is cut
    short, else whether `c` matched, and the pattern behind `]`. -/
def classLoop (c : UInt8) : UInt8 → Bytes → Bool → Option (Bool × Bytes)
  | _, [], _ => none
  | prev, p :: ps, matched =>
    if p = 92 then
      match ps with
      | [] => none
      | q :: qs => classLoop c q qs (matched || q == c)
    else if p = 93 then some (matched, ps)
    else if p = 45 then
      match ps with
      | [] => none
      | q :: qs =>
        if q = 93 then none
        else classLoop c q qs (matched || (decide (prev ≤ c) && decide (c ≤ q)))
    else classLoop c p ps (matched || p == c)

/-- The loop behind `*`, whose next pattern byte is `p`; none is the panic of
    `src[srcPos+1:]` when no byte equal to `p` is left. -/
def starLoop (p : UInt8) (rest : Bytes → Option Bool) : Bool → Bytes → Option Bool
  | moved, [] => if moved then none else some false
  | _, s :: ss =>
    if s = p then
      match rest ss with
      | some false => starLoop p rest false ss
      | r => r
    else starLoop p rest true ss

/-- `PatternMatch`, with the pattern's length as fuel; none is a panic. -/
def patternMatchAux : Nat → Bytes → Bytes → Option Bool
  | _, [], src => some (src == [])
  | _, pat, [] => some (pat.all fun p => p == 42)
  | 0, _, _ => some false
  | fuel + 1, p :: ps, s :: ss =>
    if p = 42 then
      match ps.dropWhile fun q => q == 42 with
      | [] => some true
      | q :: qs => starLoop q (patternMatchAux fuel qs) false (s :: ss)
    else if p = 63 then patternMatchAux fuel ps ss
    else if p = 91 then
      match ps with
      | [] => some false
      | q :: qs =>
        match (if q = 94 then classLoop s 94 qs false else classLoop s 91 (q :: qs) false) with
        | none => some false
        | some (matched, rest) =>
          if matched = decide (q = 94) then some false else patternMatchAux fuel rest ss
    else if p = 92 then
      -- there is no `fallthrough`: the escaped byte is skipped, not compared
      match ps with
      | [] => some false
      | _ :: qs => patternMatchAux fuel qs (s :: ss)
    else if p = s then patternMatchAux fuel ps ss
    else some false

/-- `PatternMatch`. -/
def patternMatch (pattern src : Bytes) : Option Bool :=
  patternMatchAux pattern.length pattern src

/-! ## The executors -/

variable {F : Type} [UnicodeTables]

/-- The guard `strings.ToLower(string(cmd[0])) != name`. -/
def named {c : Caps} (cmd : Command) (name : String) (bad : Reply) (body : Cmd F c Reply) :
    Cmd F c Reply := do
  if toLower (← strAt cmd 0) ≠ ascii name then
    return bad
  body

theorem named_cons {c : Caps} {a : Option Bytes} {rest : Command} {name : String} {bad : Reply}
    {body : Cmd F c Reply} (hname : toLower (str a) = ascii name) :
    named (a :: rest) name bad body = body := by
  rw [named, strAt_bind (a := a) rfl, if_neg (not_not.mpr hname)]

/-- The guard is passed by a command that `ExecCommand` has looked up. -/
theorem named_eq {c : Caps} {cmd : Command} {name : String} {bad : Reply} {body : Cmd F c Reply}
    (hne : cmd ≠ []) (hname : toLower (cmdName cmd) = ascii name) :
    named cmd name bad body = body := by
  obtain ⟨a, rest, rfl⟩ := List.exists_cons_of_ne_nil hne
  exact named_cons hname

/-- The part of a reading command under the read lock: the object at `key` goes
    to `body`, and `missing` is the reply for an absent key. -/
def lookingUp (kind : Kind) (key : Bytes) (missing : Reply)
    (body : kind.Obj F → Cmd F reads Reply) : Cmd F reads Reply :=
  withRLock key do
    match ← (.op (.get kind key fun _ => rfl) .ret : Cmd F reads _) with
    | .absent => return missing
    | .wrongType => return wrongTypeReply
    | .found obj => body obj

/-- The frame of the reading commands: `missing` is also the reply for a key
    that has just expired. -/
def reading (kind : Kind) (key : Bytes) (missing : Reply) (body : kind.Obj F → Cmd F reads Reply) :
    Cmd F reads Reply := do
  if !(← checkTTL key) then
    return missing
  lookingUp kind key missing body

/-- The collection at `key`; a new one is stored when the key is absent. -/
def getOrCreate {c : Caps} (kind : Kind) (key : Bytes) (new : kind.Obj F)
    (hw : c.write = true := by exact Caps.canWrite _ _ _) (h : kind ≠ .zset :=
      by first | exact Kind.str_ne | exact Kind.list_ne | exact Kind.set_ne | exact Kind.hash_ne) :
    Cmd F c (Found (kind.Obj F)) := do
  match ← get kind key h with
  | .absent =>
    set kind key new hw h
    return .found new
  | found => return found

/-- The deferred `if empty { m.db.Delete(key); m.DelTTL(key) }`. -/
def dropIf {c : Caps} (empty : Bool) (key : Bytes)
    (hw : c.write = true := by exact Caps.canWrite _ _ _) :
    Cmd F c Unit := do
  if empty then
    let _ ← delete key hw
    let _ ← delTTL key hw

/-- `pingKeys`. -/
def pingKeys (cmd : Command) : Cmd F reads Reply :=
  named cmd "ping" (errReply "server error") do
    if cmd.length > 2 then
      return errReply "error: command args number is invalid"
    if cmd.length = 1 then
      return statusReply "PONG"
    return bulkReply (← argAt cmd 1)

/-- The loop of `delKey`. -/
def delLoop : List (Option Bytes) → Int → Cmd F writes Int
  | [], dKeyCount => return dKeyCount
  | key :: rest, dKeyCount => do
    if !(← checkTTL (str key)) then
      delLoop rest dKeyCount
    else
      let n ← withLock (str key) do
        let n ← delete (str key)
        removeTTL (str key)
        return n
      delLoop rest (dKeyCount + n)

/-- `delKey`. -/
def delKey (cmd : Command) : Cmd F writes Reply :=
  named cmd "del" (errReply "Protocol error: command is not del") do
    return intReply (← delLoop cmd.tail 0)

/-- The loop of `existsKey`. -/
def existsLoop : List (Option Bytes) → Int → Cmd F reads Int
  | [], eKeyCount => return eKeyCount
  | key :: rest, eKeyCount => do
    if ← checkTTL (str key) then
      let ok ← withRLock (str key) (has (str key))
      existsLoop rest (if ok then eKeyCount + 1 else eKeyCount)
    else
      existsLoop rest eKeyCount

/-- `existsKey`. -/
def existsKey (cmd : Command) : Cmd F reads Reply := do
  if toLower (← strAt cmd 0) ≠ ascii "exists" ∨ cmd.length < 2 then
    return errReply "protocol error: command is not exists"
  return intReply (← existsLoop cmd.tail 0)

/-- The loop of `keysKey`. -/
def keysLoop (pattern : Bytes) : List Bytes → List Bytes → Cmd F reads (List Bytes)
  | [], res => return res
  | key :: rest, res => do
    if ← checkTTL key then
      match patternMatch pattern key with
      | none => goPanic
      | some true => keysLoop pattern rest (res ++ [key])
      | some false => keysLoop pattern rest res
    else
      keysLoop pattern rest res

/-- `keysKey`. -/
def keysKey (cmd : Command) : Cmd F reads Reply := do
  if cmd.length ≠ 2 then
    return some (.errorData (ascii "error: keys function requires exactly 2 arguments, got " ++
      itoa cmd.length))
  let cmdName ← strAt cmd 0
  if toLower cmdName ≠ ascii "keys" then
    return some (.errorData (ascii "error: keys function got invalid command " ++ cmdName))
  let allKeys ← dbKeys
  let res ← keysLoop (← strAt cmd 1) allKeys []
  return bulksReply (res.map some)

/-- The option of EXPIRE, "" when there is none. -/
def optionAt (cmd : Command) : Cmd F timedWrites Bytes :=
  if cmd.length = 4 then do return toLower (← strAt cmd 3) else return []

/-- `expireKey`. -/
def expireKey (cmd : Command) : Cmd F timedWrites Reply := do
  if toLower (← strAt cmd 0) ≠ ascii "expire" ∨ cmd.length < 3 ∨ cmd.length > 4 then
    return errReply "error: cmdName is not expire or command args number is invalid"
  let seconds ← strAt cmd 2
  match parseInt seconds with
  | .error _ =>
    return some (.errorData (ascii "error: " ++ seconds ++ ascii " is not int"))
  | .ok v =>
    let ttl := int64 ((← timeNow) + v.toInt)
    let opt ← optionAt cmd
    let key ← strAt cmd 1
    if !(← checkTTL key) then
      return intReply 0
    withLock key do
      let currentExpire ← expireAt key
      if opt = ascii "nx" then
        if currentExpire = none then
          return intReply (← setTTL key ttl)
        return intReply 0
      else if opt = ascii "xx" then
        if currentExpire ≠ none then
          return intReply (← setTTL key ttl)
        return intReply 0
      else if opt = ascii "gt" then
        if currentExpire.any (fun current => decide (ttl > current)) then
          return intReply (← setTTL key ttl)
        return intReply 0
      else if opt = ascii "lt" then
        if currentExpire.any (fun current => decide (ttl < current)) then
          return intReply (← setTTL key ttl)
        return intReply 0
      else if opt ≠ [] then
        return some (.errorData (ascii "error: unsupport " ++ opt ++
          ascii ", except nx, xx, gt, lt"))
      else
        return intReply (← setTTL key ttl)

/-- `persistKey`. -/
def persistKey (cmd : Command) : Cmd F writes Reply := do
  if toLower (← strAt cmd 0) ≠ ascii "persist" ∨ cmd.length ≠ 2 then
    return errReply "error: cmdName is not persist or command args number is invalid"
  let key ← strAt cmd 1
  if !(← checkTTL key) then
    return intReply 0
  withLock key do
    return intReply (← delTTL key)

/-- `ttlKey`. -/
def ttlKey (cmd : Command) : Cmd F reads Reply := do
  if toLower (← strAt cmd 0) ≠ ascii "ttl" ∨ cmd.length ≠ 2 then
    return errReply "error: cmdName is not ttl or command args number is invalid"
  let key ← strAt cmd 1
  withRLock key do
    if !(← has key) then
      return intReply (-2)
    match ← expireAt key with
    | none => return intReply (-1)
    | some deadline => return intReply (int64 (deadline - (← timeNow)))

/-- The name `typeKey` gives a type. -/
def Kind.name : Kind → String
  | .str => "string"
  | .list => "list"
  | .set => "set"
  | .hash => "hash"
  | .zset => "zset"

/-- `typeKey`. -/
def typeKey (cmd : Command) : Cmd F reads Reply := do
  if toLower (← strAt cmd 0) ≠ ascii "type" ∨ cmd.length ≠ 2 then
    return errReply "error: cmdName is not type or command args number is invalid"
  let key ← strAt cmd 1
  if !(← checkTTL key) then
    return bulkReply (some (ascii "none"))
  withRLock key do
    match ← typeOf key with
    | none => return statusReply "none"
    | some kind => return statusReply kind.name

/-- `renameKey`. -/
def renameKey (cmd : Command) : Cmd F anyWrites Reply := do
  if toLower (← strAt cmd 0) ≠ ascii "rename" ∨ cmd.length ≠ 3 then
    return errReply "error: cmdName is not rename or command args number is not invalid"
  let oldName ← strAt cmd 1
  let newName ← strAt cmd 2
  if !(← checkTTL oldName) then
    return some (.errorData (ascii "error: " ++ oldName ++ ascii " not exist"))
  withLocks [oldName, newName] do
    match ← getAny oldName with
    | none => return some (.errorData (ascii "error: " ++ oldName ++ ascii " not exist"))
    | some oldValue =>
      let _ ← delete oldName
      removeTTL oldName
      let _ ← delete newName
      removeTTL newName
      setAny newName oldValue
      return statusReply "OK"

end TinyDb
