import TinyRedis.HashCommandsProofs

/-! # The list commands

    LLEN, LINDEX, LPOS, LPOP, RPOP, LPUSH, LPUSHX, RPUSH, RPUSHX, LSET, LREM,
    LTRIM, LRANGE and LMOVE.  The deferred "delete the key when the list is
    empty" is `dropIf` before each return behind the `defer`. -/

namespace TinyDb

open GoString GoStrconv TinyResp TinyZSet

variable {F : Type} [UnicodeTables]

/-! ## Reading -/

/-- `lLenList`. -/
def lLenList (cmd : Command) : Cmd F reads Reply :=
  named cmd "llen" (errReply "Server error") do
    if cmd.length ≠ 2 then
      return errReply "wrong number of arguments for 'llen' command"
    reading .list (← strAt cmd 1) (intReply 0) fun list => return intReply list.len

/-- `lIndexList`. -/
def lIndexList (cmd : Command) : Cmd F reads Reply :=
  named cmd "lindex" (errReply "Server error") do
    if cmd.length ≠ 3 then
      return errReply "wrong number of arguments for 'lindex' command"
    let key ← strAt cmd 1
    match atoi (← strAt cmd 2) with
    | .error _ => return errReply "index is not an integer"
    | .ok index =>
      reading .list key (bulkReply none) fun list => return bulkReply (list.index index).join

/-- `lRangeList`. -/
def lRangeList (cmd : Command) : Cmd F reads Reply :=
  named cmd "lrange" (errReply "Server error") do
    if cmd.length ≠ 4 then
      return errReply "wrong number of arguments for 'lrange' command"
    match atoi (← strAt cmd 2), atoi (← strAt cmd 3) with
    | .ok start, .ok stop =>
      reading .list (← strAt cmd 1) emptyArrayReply fun list =>
        match list.range start stop with
        | none => return emptyArrayReply
        | some vals => return bulksReply vals
    | _, _ => return errReply "index must be an integer"

/-! ## LPOS -/

/-- The options of LPOS. -/
structure LPosOptions where
  rank : Option Int
  count : Option Int
  maxLen : Option Int

/-- The option loop of `lPosList`, or its error reply. -/
def lPosOptions : List (Option Bytes) → LPosOptions → Except Reply LPosOptions
  | name :: val :: rest, o =>
    let name' := toLower (str name)
    if name' = ascii "rank" then
      match atoi (str val) with
      | .ok rankVal =>
        if rankVal = 0 then .error (errReply "rank value should 1,2,3... or -1,-2,-3...")
        else lPosOptions rest { o with rank := some rankVal }
      | .error _ => .error (errReply "rank value should 1,2,3... or -1,-2,-3...")
    else if name' = ascii "count" then
      match atoi (str val) with
      | .ok countVal =>
        if countVal < 0 then .error (errReply "count value is not an positive integer")
        else lPosOptions rest { o with count := some countVal }
      | .error _ => .error (errReply "count value is not an positive integer")
    else if name' = ascii "maxlen" then
      match atoi (str val) with
      | .ok maxLenVal =>
        if maxLenVal < 0 then .error (errReply "maxlen value is not an positive integer")
        else lPosOptions rest { o with maxLen := some maxLenVal }
      | .error _ => .error (errReply "maxlen value is not an positive integer")
    else .error (some (.errorData (ascii "unsupported option " ++ str name)))
  | _, o => .ok o

/-- The variables of `lPosList` while it looks for the element of the given
    rank: `now` is the index of the node, -1 for `Head` and the length for
    `Tail`. -/
structure LPosState where
  now : Int
  pos : Int
  rankVal : Int
  maxLenVal : Int

/-- The rank loop: `dir` is 1 from the head and -1 from the tail, and the values
    come in that order. -/
def rankScan (elem : Bytes) (maxLen : Bool) (dir : Int) :
    List (Option Bytes) → LPosState → LPosState
  | [], st => st
  | v :: vs, st =>
    let st := { st with
      pos := st.pos + dir
      rankVal := if str v = elem then st.rankVal - dir else st.rankVal
      maxLenVal := if maxLen then st.maxLenVal - 1 else st.maxLenVal }
    if (maxLen ∧ st.maxLenVal = 0) ∨ st.rankVal = 0 then st
    else rankScan elem maxLen dir vs { st with now := st.now + dir }

/-- The loop without COUNT, always towards the tail. -/
def firstScan (elem : Bytes) (maxLen : Bool) : List (Option Bytes) → Int → Int → Option Int
  | [], _, _ => none
  | v :: vs, pos, maxLenVal =>
    if str v = elem then some pos
    else if maxLen ∧ maxLenVal ≤ 0 then none
    else firstScan elem maxLen vs (pos + 1) (maxLenVal - 1)

/-- The loop with COUNT. -/
def countScan (elem : Bytes) (maxLen : Bool) (dir : Int) :
    List (Option Bytes) → Int → Int → Int → List Int
  | [], _, _, _ => []
  | v :: vs, pos, countVal, maxLenVal =>
    if countVal = 0 then []
    else
      let hit := decide (str v = elem)
      let rest :=
        if maxLen ∧ maxLenVal ≤ 0 then []
        else
          countScan elem maxLen dir vs (pos + dir) (if hit then countVal - 1 else countVal)
            (maxLenVal - 1)
      if hit then pos :: rest else rest

/-- `lPosList` on a list that is not empty. -/
def RedisList.lPos (list : RedisList) (elem : Option Bytes) (o : LPosOptions) : Reply :=
  let orLen (x : Int) : Int := if x = 0 then list.len else x
  let maxLen := o.maxLen.isSome
  let maxLenVal := orLen (o.maxLen.getD 0)
  if o.rank.isNone ∧ o.count.isNone ∧ !maxLen then
    if list.pos elem = -1 then bulkReply none else intReply (list.pos elem)
  else
    let reverse := o.rank.any fun r => decide (r < 0)
    let st : LPosState :=
      match o.rank with
      | some rankVal =>
        if reverse then
          rankScan (str elem) maxLen (-1) list.vals.reverse
            ⟨list.len - 1, list.len, rankVal, maxLenVal⟩
        else rankScan (str elem) maxLen 1 list.vals ⟨0, -1, rankVal, maxLenVal⟩
      | none => ⟨0, 0, 0, maxLenVal - 1⟩
    if (o.rank.isSome ∧ st.rankVal ≠ 0) ∨ st.now = list.len ∨ st.now = -1 then bulkReply none
    else
      match o.count with
      | none =>
        match firstScan (str elem) maxLen (list.vals.drop st.now.toNat) st.pos st.maxLenVal with
        | some pos => intReply pos
        | none => bulkReply none
      | some count =>
        let res :=
          if reverse then
            countScan (str elem) maxLen (-1) (list.vals.take (st.now + 1).toNat).reverse st.pos
              (orLen count) st.maxLenVal
          else
            countScan (str elem) maxLen 1 (list.vals.drop st.now.toNat) st.pos (orLen count)
              st.maxLenVal
        if res = [] then bulkReply none
        else some (.arrayData (res.map fun pos => .intData (Int64.ofInt pos)))

/-- `lPosList`. -/
def lPosList (cmd : Command) : Cmd F reads Reply :=
  named cmd "lpos" (errReply "Server error") do
    if cmd.length < 3 ∨ cmd.length % 2 ≠ 1 then
      return errReply "wrong number of arguments for 'lpos' command"
    let key ← strAt cmd 1
    let elem ← argAt cmd 2
    match lPosOptions (cmd.drop 3) ⟨none, none, none⟩ with
    | .error reply => return reply
    | .ok o =>
      reading .list key (bulkReply none) fun list => do
        if list.len = 0 then
          return bulkReply none
        return list.lPos elem o

/-! ## Pushing -/

/-- LPUSH and RPUSH: `push` adds the values one by one. -/
def pushTo (push : RedisList → Option Bytes → RedisList) (cmd : Command) :
    Cmd F writes Reply := do
  let key ← strAt cmd 1
  let _ ← checkTTL key
  withLock key do
    match ← getOrCreate .list key newList with
    | .found list =>
      let list := (cmd.drop 2).foldl push list
      update .list key list
      return intReply list.len
    | _ => return wrongTypeReply

/-- LPUSHX and RPUSHX: nothing is done for an absent key. -/
def pushToExisting (push : RedisList → Option Bytes → RedisList) (cmd : Command) :
    Cmd F writes Reply := do
  let key ← strAt cmd 1
  let _ ← checkTTL key
  withLock key do
    match ← get .list key with
    | .absent => return intReply 0
    | .wrongType => return wrongTypeReply
    | .found list =>
      let list := (cmd.drop 2).foldl push list
      update .list key list
      return intReply list.len

/-- `lPushList`. -/
def lPushList (cmd : Command) : Cmd F writes Reply :=
  named cmd "lpush" (errReply "Server Error") do
    if cmd.length < 3 then
      return errReply "wrong number of arguments for 'lpush' command"
    pushTo RedisList.lPush cmd

/-- `rPushList`. -/
def rPushList (cmd : Command) : Cmd F writes Reply :=
  named cmd "rpush" (errReply "Server error") do
    if cmd.length < 3 then
      return errReply "wrong number of arguments for 'rpush' command"
    pushTo RedisList.rPush cmd

/-- `lPushXList`. -/
def lPushXList (cmd : Command) : Cmd F writes Reply :=
  named cmd "lpushx" (errReply "Server Error") do
    if cmd.length < 3 then
      return errReply "wrong number of arguments for 'lpushx' command"
    pushToExisting RedisList.lPush cmd

/-- `rPushXList`. -/
def rPushXList (cmd : Command) : Cmd F writes Reply :=
  named cmd "rpushx" (errReply "server error") do
    if cmd.length < 3 then
      return errReply "wrong number of arguments for 'rpushX' command"
    pushToExisting RedisList.rPush cmd

/-! ## Popping -/

/-- Up to `n` pops; the list left and the values popped. -/
def popLoop (pop : RedisList → RedisList × Option (Option Bytes)) :
    Nat → RedisList → RedisList × List (Option Bytes)
  | 0, list => (list, [])
  | n + 1, list =>
    match pop list with
    | (_, none) => (list, [])
    | (list, some val) =>
      let r := popLoop pop n list
      (r.1, val :: r.2)

/-- LPOP and RPOP. -/
def popFrom (pop : RedisList → RedisList × Option (Option Bytes)) (cmd : Command) :
    Cmd F writes Reply := do
  match ← atoiAt cmd 2 0 with
  | .error _ => return errReply "count value must be a positive integer"
  | .ok cnt =>
    -- without the argument `cnt` is 0 and is not looked at
    if cmd.length = 3 ∧ cnt ≤ 0 then
      return errReply "count value must be a positive integer"
    let key ← strAt cmd 1
    if !(← checkTTL key) then
      return bulkReply none
    withLock key do
      match ← get .list key with
      | .absent => return bulkReply none
      | .wrongType => return wrongTypeReply
      | .found list =>
        if cnt = 0 then
          let r := pop list
          update .list key r.1
          dropIf (r.1.len = 0) key
          return bulkReply r.2.join
        else
          let r := popLoop pop cnt.toNat list
          update .list key r.1
          dropIf (r.1.len = 0) key
          return bulksReply r.2

/-- `lPopList`. -/
def lPopList (cmd : Command) : Cmd F writes Reply :=
  named cmd "lpop" (errReply "Server error") do
    if cmd.length ≠ 2 ∧ cmd.length ≠ 3 then
      return errReply "wrong number of arguments for 'lpop' command"
    popFrom RedisList.lPop cmd

/-- `rPopList`. -/
def rPopList (cmd : Command) : Cmd F writes Reply :=
  named cmd "rpop" (errReply "Server error") do
    if cmd.length ≠ 2 ∧ cmd.length ≠ 3 then
      return errReply "wrong number of arguments for 'rpop' command"
    popFrom RedisList.rPop cmd

/-! ## LSET, LREM, LTRIM -/

/-- The frame of the commands that change the list at `key` and reply
    `missing` when there is none. -/
def changing (key : Bytes) (missing : Reply) (body : RedisList → Cmd F writes Reply) :
    Cmd F writes Reply := do
  if !(← checkTTL key) then
    return missing
  withLock key do
    match ← get .list key with
    | .absent => return missing
    | .wrongType => return wrongTypeReply
    | .found list => body list

/-- `lSetList`. -/
def lSetList (cmd : Command) : Cmd F writes Reply :=
  named cmd "lset" (errReply "server error") do
    if cmd.length ≠ 4 then
      return errReply "wrong number of arguments for 'lset' command"
    match atoi (← strAt cmd 2) with
    | .error _ => return errReply "index must be an integer"
    | .ok index =>
      let key ← strAt cmd 1
      changing key (errReply "key not exist") fun list => do
        match list.set index (← argAt cmd 3) with
        | (_, false) => return errReply "index out of range"
        | (list, true) =>
          update .list key list
          return statusReply "OK"

/-- `lRemList`. -/
def lRemList (cmd : Command) : Cmd F writes Reply :=
  named cmd "lrem" (errReply "Server error") do
    if cmd.length ≠ 4 then
      return errReply "wrong number of arguments for 'lrem' command"
    match atoi (← strAt cmd 2) with
    | .error _ => return errReply "count must be an integer"
    | .ok count =>
      let key ← strAt cmd 1
      changing key (intReply 0) fun list => do
        let r := list.removeElement (← argAt cmd 3) count
        update .list key r.1
        dropIf (r.1.len = 0) key
        return intReply r.2

/-- `lTrimList`. -/
def lTrimList (cmd : Command) : Cmd F writes Reply :=
  named cmd "ltrim" (errReply "Server error") do
    if cmd.length ≠ 4 then
      return errReply "wrong number of arguments for 'ltrim' command"
    match atoi (← strAt cmd 2), atoi (← strAt cmd 3) with
    | .ok start, .ok stop =>
      let key ← strAt cmd 1
      changing key (statusReply "OK") fun list => do
        let list := list.trim start stop
        update .list key list
        dropIf (list.len = 0) key
        return statusReply "OK"
    | _, _ => return errReply "start and end must be an integer"

/-! ## LMOVE -/

/-- LMOVE under its locks. -/
def moveElem (src des : Bytes) (popLeft pushLeft : Bool) : Cmd F writes Reply := do
  match ← get .list src with
  | .absent => return bulkReply none
  | .wrongType => return wrongTypeReply
  | .found srcList =>
    if srcList.len = 0 then
      dropIf true src
      return bulkReply none
    match ← getOrCreate .list des newList with
    | .found desList =>
      let (rest, popElem) := if popLeft then srcList.lPop else srcList.rPop
      match popElem with
      | none => goPanic
      | some val =>
        -- `srcList` and `desList` are one list when the keys are equal
        let desList := if des = src then rest else desList
        let desList := if pushLeft then desList.lPush val else desList.rPush val
        update .list src rest
        update .list des desList
        dropIf ((if des = src then desList else rest).len = 0) src
        return bulkReply val
    | _ => return wrongTypeReply

/-- `lMoveList`. -/
def lMoveList (cmd : Command) : Cmd F writes Reply :=
  named cmd "lmove" (errReply "Server error") do
    if cmd.length ≠ 5 then
      return errReply "wrong number of arguments for 'lmove' command"
    let src ← strAt cmd 1
    let des ← strAt cmd 2
    let srcDrc := toLower (← strAt cmd 3)
    let desDrc := toLower (← strAt cmd 4)
    if (srcDrc ≠ ascii "left" ∧ srcDrc ≠ ascii "right") ∨
        (desDrc ≠ ascii "left" ∧ desDrc ≠ ascii "right") then
      return errReply "options must be left or right"
    if !(← checkTTL src) then
      return bulkReply none
    let _ ← checkTTL des
    withLocks [src, des] (moveElem src des (srcDrc = ascii "left") (desDrc = ascii "left"))

end TinyDb
