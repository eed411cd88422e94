import TinyRedis.KeyCommandsProofs

/-! # The string commands

    SET and its options, GET, SETRANGE, GETRANGE, MSET, MGET, SETEX, SETNX,
    STRLEN, the counters, INCRBYFLOAT and APPEND. -/

namespace TinyDb

open GoString GoStrconv GoFloat TinyResp

variable {F : Type} [UnicodeTables]

/-! ## SET -/

/-- The options of SET. -/
structure SetOptions where
  nx : Bool
  xx : Bool
  get : Bool
  ex : Bool
  keepttl : Bool
  exval : Int
deriving DecidableEq

/-- The option loop of `setString`, or its error reply. -/
def setOptions : List (Option Bytes) → SetOptions → Except Reply SetOptions
  | [], o => .ok o
  | a :: rest, o =>
    let name := toLower (str a)
    if name = ascii "nx" then setOptions rest { o with nx := true }
    else if name = ascii "xx" then setOptions rest { o with xx := true }
    else if name = ascii "get" then setOptions rest { o with get := true }
    else if name = ascii "keepttl" then setOptions rest { o with keepttl := true }
    else if name = ascii "ex" then
      match rest with
      | [] => .error (errReply "error: commands is invalid")
      | v :: rest =>
        match parseInt (str v) with
        | .error _ => .error (some (.errorData (ascii "error: commands is invalid, " ++ str v ++
            ascii " is not interger")))
        | .ok exval => setOptions rest { o with ex := true, exval := exval.toInt }
    else .error (some (.errorData (ascii "Error unsupported option: " ++ str a)))

/-- What SET replies when it writes or not, before GET is looked at. -/
def setReply (written : Bool) : Reply := if written then statusReply "OK" else bulkReply none

/-- `setString`. -/
def setString (cmd : Command) : Cmd F timedWrites Reply :=
  named cmd "set" (errReply "server error ") do
    if cmd.length < 3 then
      return errReply "error: commands is invalid"
    let key ← strAt cmd 1
    let val ← argAt cmd 2
    let _ ← checkTTL key
    match setOptions (cmd.drop 3) ⟨false, false, false, false, false, 0⟩ with
    | .error reply => return reply
    | .ok o =>
      if (o.nx && o.xx) || (o.ex && o.keepttl) then
        return errReply "error: commands is invalid"
      withLock key do
        match ← get .str key with
        | .wrongType => return wrongTypeReply
        | old =>
          let oldVal : Option (Option Bytes) := match old with
            | .found old => some old
            | _ => none
          -- NX writes when there is no old value, XX when there is one
          let write := if o.nx then oldVal.isNone else if o.xx then oldVal.isSome else true
          if write then
            set .str key val
          let res := if o.get then bulkReply oldVal.join else setReply write
          if !o.keepttl then
            let _ ← delTTL key
          if o.ex then
            let _ ← setTTL key (int64 (o.exval + (← timeNow)))
          return res

/-- What is left of `setString` when it is known whether it writes and what it replies. -/
def setEnd (o : SetOptions) (key : Bytes) (val : Option Bytes) (write : Bool) (res : Reply) :
    Cmd F timedWrites Reply := do
  if write then
    set .str key val
  if !o.keepttl then
    let _ ← delTTL key
  if o.ex then
    let _ ← setTTL key (int64 (o.exval + (← timeNow)))
  return res

/-- `getString`. -/
def getString (cmd : Command) : Cmd F reads Reply :=
  named cmd "get" (errReply "server error") do
    if cmd.length ≠ 2 then
      return errReply "error: commands is invalid"
    reading .str (← strAt cmd 1) (bulkReply none) fun val => return bulkReply val

/-! ## Ranges -/

/-- `newVal` of `setRangeString`: `old` and zeros up to `n` bytes, with `w`
    copied over at `offset`. -/
def overwrite (old w : Bytes) (offset n : Nat) : Bytes :=
  let base := old ++ List.replicate (n - old.length) 0
  base.take offset ++ w ++ base.drop (offset + w.length)

/-- `setRangeString`. -/
def setRangeString (cmd : Command) : Cmd F writes Reply :=
  named cmd "setrange" (errReply "server error") do
    if cmd.length ≠ 4 then
      return errReply "error: commands is invalid"
    match atoi (← strAt cmd 2) with
    | .error _ => return errReply "error: offset is not a integer or less than 0"
    | .ok offset =>
      if offset < 0 then
        return errReply "error: offset is not a integer or less than 0"
      let key ← strAt cmd 1
      let val ← strAt cmd 3
      let _ ← checkTTL key
      withLock key do
        match ← get .str key with
        | .wrongType => return wrongTypeReply
        | found =>
          let oldVal : Bytes := match found with
            | .found old => str old
            | _ => []
          let requiredLen := int64 (offset + val.length)
          let requiredLen := if requiredLen < oldVal.length then ↑oldVal.length else requiredLen
          -- `make` and the slice expression `newVal[offset:]`
          if TinyRespStream.makePanics 1 requiredLen ∨ offset > requiredLen then
            goPanic
          else
            let newVal := overwrite oldVal val offset.toNat requiredLen.toNat
            set .str key (some newVal)
            return intReply newVal.length

/-- `getRangeString`. -/
def getRangeString (cmd : Command) : Cmd F reads Reply :=
  named cmd "getrange" (errReply "Server error") do
    if cmd.length ≠ 4 then
      return errReply "error: commands is not invalid"
    reading .str (← strAt cmd 1) (bulkReply none) fun val => do
      match atoi (← strAt cmd 2), atoi (← strAt cmd 3) with
      | .ok start, .ok stop =>
        let length : Int := (str val).length
        if length = 0 then
          return bulkReply (some [])
        let start := if start < 0 then length + start else start
        let stop := if stop < 0 then length + stop else stop
        let start := if start < 0 then 0 else start
        if start > length then
          return bulkReply (some [])
        let stop := if stop ≥ length then length - 1 else stop
        if stop < start then
          return bulkReply (some [])
        match TinyRespStream.slice (str val) start (stop + 1) with
        | none => goPanic
        | some bytes => return bulkReply (some bytes)
      | _, _ => return errReply "error: commands is invalid"

/-! ## Several keys -/

/-- Keys and values taken in turn; none is the panic of `cmd[i+1]` when the
    last value is missing. -/
def pairsOf : List (Option Bytes) → Option (List (Bytes × Option Bytes))
  | [] => some []
  | [_] => none
  | k :: v :: rest => (pairsOf rest).map fun pairs => (str k, v) :: pairs

/-- The writing loop of `mSetString`. -/
def mSetLoop : List (Bytes × Option Bytes) → Cmd F writes Unit
  | [] => return ()
  | (k, v) :: rest => do
    let _ ← delTTL k
    set .str k v
    mSetLoop rest

/-- `mSetString`. -/
def mSetString (cmd : Command) : Cmd F writes Reply :=
  named cmd "mset" (errReply "Server error") do
    if cmd.length < 3 ∨ cmd.length % 2 ≠ 1 then
      return errReply "error; commands is invalid"
    match pairsOf cmd.tail with
    | none => goPanic
    | some pairs =>
      withLocks (pairs.map Prod.fst) do
        mSetLoop pairs
        return statusReply "OK"

/-- The loop of `mGetString`. -/
def mGetLoop : List (Option Bytes) → List (Option Bytes) → Cmd F reads (List (Option Bytes))
  | [], res => return res
  | k :: rest, res => do
    let key := str k
    if !(← checkTTL key) then
      mGetLoop rest (res ++ [none])
    else
      match ← withRLock key (get .str key) with
      | .found val => mGetLoop rest (res ++ [val])
      | _ => mGetLoop rest (res ++ [none])

/-- `mGetString`. -/
def mGetString (cmd : Command) : Cmd F reads Reply :=
  named cmd "mget" (errReply "Server error") do
    if cmd.length < 2 then
      return errReply "error: commands is invalid"
    return bulksReply (← mGetLoop cmd.tail [])

/-! ## SETEX, SETNX, STRLEN, APPEND -/

/-- `setExString`. -/
def setExString (cmd : Command) : Cmd F timedWrites Reply :=
  named cmd "setex" (errReply "Server error") do
    if cmd.length ≠ 4 then
      return errReply "error; commands is invalid"
    let seconds ← strAt cmd 2
    match parseInt seconds with
    | .error _ =>
      return some (.errorData (ascii "error: " ++ seconds ++ ascii " is not a integer"))
    | .ok ex =>
      let ttl := int64 ((← timeNow) + ex.toInt)
      let key ← strAt cmd 1
      let val ← argAt cmd 3
      withLock key do
        set .str key val
        let _ ← setTTL key ttl
        return statusReply "OK"

/-- `setNxString`. -/
def setNxString (cmd : Command) : Cmd F writes Reply :=
  named cmd "setnx" (errReply "Server") do
    if cmd.length ≠ 3 then
      return errReply "error: commands is in valid"
    let key ← strAt cmd 1
    let val ← argAt cmd 2
    let _ ← checkTTL key
    withLock key do
      return intReply (← setIfNotExist key val)

/-- `strLenString`. -/
def strLenString (cmd : Command) : Cmd F reads Reply :=
  named cmd "strlen" (errReply "Server error") do
    if cmd.length ≠ 2 then
      return errReply "error: commands is invalid"
    let key ← strAt cmd 1
    let _ ← checkTTL key
    withRLock key do
      match ← get .str key with
      | .absent => return bulkReply none
      | .wrongType =>
        return errReply "WRONGTYPE Operation against a key holding the wrong kind of val"
      | .found val => return intReply (str val).length

/-- `appendString`. -/
def appendString (cmd : Command) : Cmd F writes Reply :=
  named cmd "append" (errReply "Server error") do
    if cmd.length ≠ 3 then
      return errReply "error: commands is invalid"
    let key ← strAt cmd 1
    let val ← argAt cmd 2
    let _ ← checkTTL key
    withLock key do
      match ← get .str key with
      | .absent =>
        set .str key val
        return intReply (str val).length
      | .wrongType => return wrongTypeReply
      | .found old =>
        -- `append(nil, nil...)` is nil
        let newVal : Option Bytes :=
          if old = none ∧ str val = [] then none else some (str old ++ str val)
        set .str key newVal
        return intReply (str newVal).length

/-! ## Counters -/

/-- The common part of the four counters: add `inc` to the number at `key`,
    an absent key counting as 0; the sum wraps. -/
def addTo (key : Bytes) (inc : Int) : Cmd F writes Reply := do
  let _ ← checkTTL key
  withLock key do
    match ← get .str key with
    | .absent =>
      set .str key (some (itoa inc))
      return intReply inc
    | .wrongType => return wrongTypeReply
    | .found val =>
      match parseInt (str val) with
      | .error _ => return errReply "value is not an integer"
      | .ok intVal =>
        let sum := int64 (intVal.toInt + inc)
        set .str key (some (itoa sum))
        return intReply sum

/-- `incrString`. -/
def incrString (cmd : Command) : Cmd F writes Reply :=
  named cmd "incr" (errReply "Server error") do
    if cmd.length ≠ 2 then
      return errReply "error: commands is invalid"
    addTo (← strAt cmd 1) 1

/-- `decrString`. -/
def decrString (cmd : Command) : Cmd F writes Reply :=
  named cmd "decr" (errReply "Server error") do
    if cmd.length ≠ 2 then
      return errReply "error: commands is invalid"
    addTo (← strAt cmd 1) (-1)

/-- `incrByString`. -/
def incrByString (cmd : Command) : Cmd F writes Reply :=
  named cmd "incrby" (errReply "Server error") do
    if cmd.length ≠ 3 then
      return errReply "error: commands is invalid"
    match parseInt (← strAt cmd 2) with
    | .error _ => return errReply "commands invalid: increment value is not an integer"
    | .ok inc => addTo (← strAt cmd 1) inc.toInt

/-- `decrByString`; `-dec` wraps too. -/
def decrByString (cmd : Command) : Cmd F writes Reply :=
  named cmd "decrby" (errReply "Server error") do
    if cmd.length ≠ 3 then
      return errReply "error: commands is invalid"
    match parseInt (← strAt cmd 2) with
    | .error _ => return errReply "commands invalid: increment value is not an integer"
    | .ok dec => addTo (← strAt cmd 1) (int64 (-dec.toInt))

/-- `incrByFloatString`. -/
def incrByFloatString [FloatText F] (cmd : Command) : Cmd F writes Reply :=
  named cmd "incrbyfloat" (errReply "Server error") do
    if cmd.length ≠ 3 then
      return errReply "error: commands is invalid"
    match (FloatText.parse (← strAt cmd 2) : Option F) with
    | none => return errReply "commands invalid: increment value is not an float"
    | some inc =>
      let key ← strAt cmd 1
      let _ ← checkTTL key
      withLock key do
        match ← get .str key with
        | .absent =>
          set .str key (some (FloatText.format inc))
          return bulkReply (some (FloatText.format inc))
        | .wrongType => return wrongTypeReply
        | .found val =>
          match (FloatText.parse (str val) : Option F) with
          | none => return errReply "value is not an float"
          | some floatVal =>
            let sum := Float64.add floatVal inc
            set .str key (some (FloatText.format sum))
            return bulkReply (some (FloatText.format sum))

end TinyDb
