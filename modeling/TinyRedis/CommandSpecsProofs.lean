import TinyRedis.CommandTableProofs
import TinyRedis.DisciplineProofs

/-! # The executors keep the discipline

    One theorem for each executor, in the order of the table.  Where an executor
    is a straight line of operations the rules of the protocol compute the
    answer; where it parses an argument or branches on a result, the cases are
    taken apart first.

    Two executors do not keep it.  ZADD replies with an error after it has
    written, and SINTERSTORE can panic with its read locks held; they have
    weaker theorems of their own. -/

namespace TinyDb

open GoString GoStrconv GoFloat GoProgram GoProgram.Prog TinyResp TinyZSet

variable {F : Type}

attribute [local simp] named zNamed reading lookingUp changing dropIf getOrCreate getOrCreateZSet
  existsLoop_follows delLoop_follows keysLoop_follows mSetLoop_follows mGetLoop_follows
  liveKeys_follows getSets_follows repeatKeys_follows reservoir_follows drawMembers_follows
  sPopLoop_follows zAddLoop_follows

section Plain

/-! ## Loops and helpers -/

theorem addTo_keeps (key : Bytes) (inc : Int) : Keeps (addTo key inc : Cmd F _ _) := by
  refine keeps_checkTTL fun _ => keeps_withLocks (locked_get ?_ ?_ fun val => ?_)
  · simp
  · simp
  · dsimp only
    cases parseInt (str val) <;> simp

theorem popFrom_keeps (pop : RedisList → RedisList × Option (Option Bytes)) (cmd : Command) :
    Keeps (popFrom pop cmd : Cmd F _ _) := by
  refine keeps_atoiAt fun cnt => ?_
  cases cnt <;> simp

theorem pushTo_keeps (push : RedisList → Option Bytes → RedisList) (cmd : Command) :
    Keeps (pushTo push cmd : Cmd F _ _) := by
  simp [pushTo]

theorem pushToExisting_keeps (push : RedisList → Option Bytes → RedisList) (cmd : Command) :
    Keeps (pushToExisting push cmd : Cmd F _ _) := by
  simp [pushToExisting]

/-- The keys of a multi-key read may have expired; under the locks they are
    looked up again. -/
theorem keeps_liveKeys {c : Caps} {args : List (Option Bytes)} {f : List Bytes → Cmd F c Reply}
    (h : ∀ keys, Keeps (f keys)) : Keeps (liveKeys args >>= f) := by
  rw [Keeps, follows_bind]
  exact liveKeys_follows rfl h args

/-- The read phase of a STORE command: it comes back to the start, or fails in
    a way that `E` admits. -/
def ReadPhase (E : Phase → Except Abort Reply → Prop) (q : Phase) :
    Except Abort (Except Reply RedisSet) → Prop
  | .ok _ => q = .start
  | .error why => E q (.error why)

/-- The frame of the STORE commands, whatever they compute. -/
theorem storing_follows {E : Phase → Except Abort Reply → Prop} {cmd : Command}
    {compute : List Bytes → Cmd F writes (Except Reply RedisSet)}
    {store : Bytes → RedisSet → Cmd F writes Reply} (hret : ∀ reply, E .start (.ok reply))
    (hpanic : cmd.length ≤ 1 → E .start (.error .panic))
    (hcompute : ∀ keys, keys ≠ [] → Follows discipline (ReadPhase E) .start (compute keys))
    (hstore : ∀ desKey res, Follows discipline E .start (store desKey res)) :
    Follows discipline E .start (storing cmd compute store) := by
  have hlive : ∀ next : Except Reply RedisSet → Cmd F writes Reply,
      (∀ reply, Follows discipline E .start (next (.error reply))) →
      (∀ res, Follows discipline E .start (next (.ok res))) →
      Follows discipline E .start (do
        let keys ← liveKeys (cmd.drop 2)
        if keys = [] then
          return intReply 0
        next (← compute keys)) := by
    intro next herror hok
    refine (follows_bind _ _).mpr (liveKeys_follows rfl (fun keys => ?_) _)
    refine (follows_ite _ _ _).mpr ⟨fun _ => hret _, fun hne => ?_⟩
    refine (follows_bind _ _).mpr ((hcompute keys hne).mono ?_)
    rintro q (why | reply | res) h
    · exact h
    · obtain rfl : q = .start := h
      exact herror reply
    · obtain rfl : q = .start := h
      exact hok res
  refine (follows_bind _ _).mpr ((follows_strAt _ _).mpr ⟨fun desKey _ => ?_, hpanic⟩)
  refine ⟨.start, rfl, fun _ _ => ⟨.start, rfl, fun found _ => ?_⟩⟩
  cases found with
  | wrongType => exact hret _
  | absent => exact hlive _ hret fun res => ⟨.start, rfl, fun _ _ => hstore _ res⟩
  | found set => exact hlive _ hret fun res => ⟨.start, rfl, fun _ _ => hstore _ res⟩

theorem unionOf_follows {E : Phase → Except Abort Reply → Prop} (keys : List Bytes) :
    Follows discipline (ReadPhase E) .start (unionOf keys : Cmd F _ _) := by
  simp only [unionOf, rLockMulti, op_bind, ret_bind]
  refine ⟨_, rfl, fun _ _ => (follows_bind _ _).mpr (getSets_follows (fun sets => ?_) keys)⟩
  rcases sets with _ | _ | _ <;> simp [ReadPhase]

theorem diffOf_follows {E : Phase → Except Abort Reply → Prop} [Lenient E] (keys : List Bytes) :
    Follows discipline (ReadPhase E) .start (diffOf keys : Cmd F _ _) := by
  cases keys with
  | nil => exact Lenient.panic (E := E)
  | cons key rest => simp [diffOf, ReadPhase, Option.forall]

/-- `intersectAll` panics where it is given no set, under the locks. -/
theorem interOf_follows {E : Phase → Except Abort Reply → Prop} {keys : List Bytes}
    (hpanic : E ⟨some (.read, keys), false, none⟩ (.error .panic)) :
    Follows discipline (ReadPhase E) .start (interOf keys : Cmd F _ _) := by
  simp only [interOf, rLockMulti, op_bind, ret_bind]
  refine ⟨_, rfl, fun _ _ => (follows_bind _ _).mpr (getSets_follows (fun sets => ?_) keys)⟩
  cases sets with
  | none => simp [ReadPhase]
  | some sets =>
    simp only [then_ok, follows_bind, intersectAll]
    cases sets[shortestLoop sets 0 0 (2 ^ 63 - 1)]? with
    | none => exact hpanic
    | some primSet => simp [ReadPhase]

variable [UnicodeTables] (cmd : Command)

/-! ## Keys -/

theorem pingKeys_keeps : Keeps (pingKeys cmd : Cmd F _ _) := by
  simp [pingKeys]

theorem delKey_keeps : Keeps (delKey cmd : Cmd F _ _) := by
  simp [delKey]

theorem existsKey_keeps : Keeps (existsKey cmd : Cmd F _ _) := by
  simp [existsKey]

theorem keysKey_keeps : Keeps (keysKey cmd : Cmd F _ _) := by
  simp [keysKey]

theorem expireKey_keeps : Keeps (expireKey cmd : Cmd F _ _) := by
  refine keeps_strAt fun _ => keeps_guard (keeps_strAt fun seconds => ?_)
  cases parseInt seconds with
  | error e => exact keeps_ret _
  | ok v =>
    refine keeps_now _ fun now => ?_
    simp [optionAt]

theorem persistKey_keeps : Keeps (persistKey cmd : Cmd F _ _) := by
  simp [persistKey]

theorem ttlKey_keeps : Keeps (ttlKey cmd : Cmd F _ _) := by
  simp [ttlKey, Option.forall]

theorem typeKey_keeps : Keeps (typeKey cmd : Cmd F _ _) := by
  simp [typeKey, Option.forall]

theorem renameKey_keeps : Keeps (renameKey cmd : Cmd F _ _) := by
  simp [renameKey, Option.forall]

/-! ## Strings -/

theorem setString_keeps : Keeps (setString cmd : Cmd F _ _) := by
  refine keeps_named (keeps_guard (keeps_strAt fun key => keeps_argAt fun val =>
    keeps_checkTTL fun _ => ?_))
  cases setOptions (cmd.drop 3) ⟨false, false, false, false, false, 0⟩ with
  | error reply => exact keeps_ret _
  | ok o =>
    refine keeps_guard ?_
    simp [setReply]

theorem getString_keeps : Keeps (getString cmd : Cmd F _ _) := by
  simp [getString]

theorem setRangeString_keeps : Keeps (setRangeString cmd : Cmd F _ _) := by
  refine keeps_named (keeps_guard (keeps_strAt fun offset => ?_))
  cases atoi offset with
  | error e => exact keeps_ret _
  | ok offset => simp

theorem getRangeString_keeps : Keeps (getRangeString cmd : Cmd F _ _) := by
  refine keeps_named (keeps_guard (keeps_strAt fun key => keeps_reading fun val => ?_))
  simp only [follows_bind, follows_strAt, then_ok]
  refine ⟨fun start _ => ⟨fun stop _ => ?_, by simp⟩, by simp⟩
  cases atoi (str start) with
  | error e => simp
  | ok start =>
    cases atoi (str stop) with
    | error e => simp
    | ok stop =>
      simp only [follows_ite]
      refine ⟨by simp, fun _ => ⟨by simp, fun _ => ⟨by simp, fun _ => ?_⟩⟩⟩
      split <;> simp

theorem mSetString_keeps : Keeps (mSetString cmd : Cmd F _ _) := by
  refine keeps_named (keeps_guard ?_)
  cases pairsOf cmd.tail with
  | none => simp
  | some pairs => simp

theorem mGetString_keeps : Keeps (mGetString cmd : Cmd F _ _) := by
  simp [mGetString]

theorem setExString_keeps : Keeps (setExString cmd : Cmd F _ _) := by
  refine keeps_named (keeps_guard (keeps_strAt fun seconds => ?_))
  cases parseInt seconds with
  | error e => exact keeps_ret _
  | ok ex => simp

theorem setNxString_keeps : Keeps (setNxString cmd : Cmd F _ _) := by
  simp [setNxString]

theorem strLenString_keeps : Keeps (strLenString cmd : Cmd F _ _) := by
  simp [strLenString]

theorem incrString_keeps : Keeps (incrString cmd : Cmd F _ _) :=
  keeps_named (keeps_guard (keeps_strAt fun key => addTo_keeps key 1))

theorem incrByString_keeps : Keeps (incrByString cmd : Cmd F _ _) := by
  refine keeps_named (keeps_guard (keeps_strAt fun inc => ?_))
  cases parseInt inc with
  | error e => exact keeps_ret _
  | ok inc => exact keeps_strAt fun key => addTo_keeps key _

theorem decrString_keeps : Keeps (decrString cmd : Cmd F _ _) :=
  keeps_named (keeps_guard (keeps_strAt fun key => addTo_keeps key (-1)))

theorem decrByString_keeps : Keeps (decrByString cmd : Cmd F _ _) := by
  refine keeps_named (keeps_guard (keeps_strAt fun dec => ?_))
  cases parseInt dec with
  | error e => exact keeps_ret _
  | ok dec => exact keeps_strAt fun key => addTo_keeps key _

theorem appendString_keeps : Keeps (appendString cmd : Cmd F _ _) := by
  simp [appendString]

/-! ## Hashes -/

theorem hDelHash_keeps : Keeps (hDelHash cmd : Cmd F _ _) := by
  simp [hDelHash]

theorem hExistsHash_keeps : Keeps (hExistsHash cmd : Cmd F _ _) := by
  simp [hExistsHash]

theorem hGetHash_keeps : Keeps (hGetHash cmd : Cmd F _ _) := by
  simp [hGetHash]

theorem hGetAllHash_keeps : Keeps (hGetAllHash cmd : Cmd F _ _) := by
  simp [hGetAllHash]

theorem incrHash_keeps {α : Type} {name badLength badIncr badValue : String}
    {parse : Bytes → Option α} {add : α → α → α} {format : α → Bytes} {reply : α → Reply}
    (hreply : ∀ res, ¬ IsError (reply res)) :
    Keeps (incrHash cmd name badLength badIncr badValue parse
      (RedisHash.incrWith parse add format) reply : Cmd F _ _) := by
  refine keeps_named (keeps_guard (keeps_strAt fun key => keeps_strAt fun field =>
    keeps_strAt fun incr => ?_))
  cases parse incr with
  | none => exact keeps_ret _
  | some incr =>
    refine keeps_checkTTL fun _ => keeps_withLocks (locked_getOrCreate ?_ ?_ fun hash => ?_)
    · simp [RedisHash.incrWith_newHash, hreply]
    · simp
    · dsimp only
      rcases hash.incrWith parse add format field incr with ⟨hash, _ | res⟩ <;> simp [hreply]

theorem hKeysHash_keeps : Keeps (hKeysHash cmd : Cmd F _ _) := by
  simp [hKeysHash]

theorem hLenHash_keeps : Keeps (hLenHash cmd : Cmd F _ _) := by
  simp [hLenHash]

theorem hMGetHash_keeps : Keeps (hMGetHash cmd : Cmd F _ _) := by
  simp [hMGetHash]

theorem hSetHash_keeps : Keeps (hSetHash cmd : Cmd F _ _) := by
  refine keeps_named (keeps_guard (keeps_strAt fun key => ?_))
  cases pairsOf (cmd.drop 2) <;> simp

theorem hSetNxHash_keeps : Keeps (hSetNxHash cmd : Cmd F _ _) := by
  simp [hSetNxHash]

theorem hValsHash_keeps : Keeps (hValsHash cmd : Cmd F _ _) := by
  simp [hValsHash]

theorem hStrLenHash_keeps : Keeps (hStrLenHash cmd : Cmd F _ _) := by
  simp [hStrLenHash]

theorem hRandFieldHash_keeps : Keeps (hRandFieldHash cmd : Cmd F _ _) := by
  refine keeps_named (keeps_guard (keeps_strAt fun key => keeps_atoiAt fun count => ?_))
  cases count with
  | error e => exact keeps_ret _
  | ok count => simp [RedisHash.random, RedisHash.randomWithValue]

/-! ## Lists -/

theorem lLenList_keeps : Keeps (lLenList cmd : Cmd F _ _) := by
  simp [lLenList]

theorem lIndexList_keeps : Keeps (lIndexList cmd : Cmd F _ _) := by
  refine keeps_named (keeps_guard (keeps_strAt fun key => keeps_strAt fun index => ?_))
  cases atoi index <;> simp

theorem lPosList_keeps : Keeps (lPosList cmd : Cmd F _ _) := by
  refine keeps_named (keeps_guard (keeps_strAt fun key => keeps_argAt fun elem => ?_))
  cases lPosOptions (cmd.drop 3) ⟨none, none, none⟩ <;> simp

theorem lPopList_keeps : Keeps (lPopList cmd : Cmd F _ _) :=
  keeps_named (keeps_guard (popFrom_keeps _ cmd))

theorem rPopList_keeps : Keeps (rPopList cmd : Cmd F _ _) :=
  keeps_named (keeps_guard (popFrom_keeps _ cmd))

theorem lPushList_keeps : Keeps (lPushList cmd : Cmd F _ _) :=
  keeps_named (keeps_guard (pushTo_keeps _ cmd))

theorem lPushXList_keeps : Keeps (lPushXList cmd : Cmd F _ _) :=
  keeps_named (keeps_guard (pushToExisting_keeps _ cmd))

theorem rPushList_keeps : Keeps (rPushList cmd : Cmd F _ _) :=
  keeps_named (keeps_guard (pushTo_keeps _ cmd))

theorem rPushXList_keeps : Keeps (rPushXList cmd : Cmd F _ _) :=
  keeps_named (keeps_guard (pushToExisting_keeps _ cmd))

theorem lSetList_keeps : Keeps (lSetList cmd : Cmd F _ _) := by
  refine keeps_named (keeps_guard (keeps_strAt fun index => ?_))
  cases atoi index with
  | error e => exact keeps_ret _
  | ok index =>
    refine keeps_strAt fun key => keeps_changing fun list => ?_
    simp only [follows_bind, follows_argAt, then_ok]
    refine ⟨fun val _ => ?_, by simp⟩
    rcases list.set index val with ⟨list, _ | _⟩ <;> simp

theorem lRemList_keeps : Keeps (lRemList cmd : Cmd F _ _) := by
  refine keeps_named (keeps_guard (keeps_strAt fun count => ?_))
  cases atoi count <;> simp

theorem lTrimList_keeps : Keeps (lTrimList cmd : Cmd F _ _) := by
  refine keeps_named (keeps_guard (keeps_strAt fun start => keeps_strAt fun stop => ?_))
  cases atoi start <;> cases atoi stop <;> simp

theorem lRangeList_keeps : Keeps (lRangeList cmd : Cmd F _ _) := by
  refine keeps_named (keeps_guard (keeps_strAt fun start => keeps_strAt fun stop => ?_))
  cases atoi start with
  | error e => exact keeps_ret _
  | ok start =>
    cases atoi stop with
    | error e => exact keeps_ret _
    | ok stop =>
      refine keeps_strAt fun key => keeps_reading fun list => ?_
      cases list.range start stop <;> simp

theorem lMoveList_keeps : Keeps (lMoveList cmd : Cmd F _ _) := by
  refine keeps_named (keeps_guard (keeps_strAt fun src => keeps_strAt fun des =>
    keeps_strAt fun srcDrc => keeps_strAt fun desDrc => keeps_guard (keeps_live
      (keeps_checkTTL fun _ => keeps_withLocks (locked_get ?_ ?_ fun srcList => ?_)))))
  · simp
  · simp
  · refine (follows_ite _ _ _).mpr ⟨fun _ => by simp, fun _ => ?_⟩
    -- whichever end is popped, the branches are the same
    generalize (if decide (toLower srcDrc = ascii "left") = true then srcList.lPop
      else srcList.rPop) = r
    obtain ⟨rest, popElem⟩ := r
    refine locked_getOrCreate ?_ ?_ fun desList => ?_
    · cases popElem <;> simp
    · simp
    · cases popElem <;> simp

/-! ## Sets -/

theorem sAddSet_keeps : Keeps (sAddSet cmd : Cmd F _ _) := by
  simp [sAddSet]

theorem sCardSet_keeps : Keeps (sCardSet cmd : Cmd F _ _) := by
  simp [sCardSet]

theorem sDiffSet_keeps : Keeps (sDiffSet cmd : Cmd F _ _) := by
  simp [sDiffSet, membersReply, Option.forall]

theorem sInterSet_keeps : Keeps (sInterSet cmd : Cmd F _ _) := by
  refine keeps_named (keeps_guard (keeps_liveKeys fun _ => keeps_withRLocks ?_))
  rw [RLocked, follows_bind]
  refine getSets_follows (fun sets => ?_) _
  cases sets with
  | none => simp
  | some sets =>
    simp only [then_ok, follows_bind, intersectAll]
    cases sets[shortestLoop sets 0 0 (2 ^ 63 - 1)]? <;> simp [membersReply]

theorem sIsMemberSet_keeps : Keeps (sIsMemberSet cmd : Cmd F _ _) := by
  simp [sIsMemberSet]

theorem sMembersSet_keeps : Keeps (sMembersSet cmd : Cmd F _ _) := by
  simp [sMembersSet, membersReply]

theorem sMoveSet_keeps : Keeps (sMoveSet cmd : Cmd F _ _) := by
  simp [sMoveSet]

theorem sPopSet_keeps : Keeps (sPopSet cmd : Cmd F _ _) := by
  refine keeps_named (keeps_guard (keeps_atoiAt fun count => ?_))
  cases count with
  | error e => exact keeps_ret _
  | ok count =>
    refine keeps_guard (keeps_strAt fun key => keeps_live
      (keeps_withLocks (locked_get ?_ ?_ fun set => ?_)))
    · simp
    · simp
    · refine (follows_ite _ _ _).mpr ⟨fun _ => by simp, fun _ => ?_⟩
      refine (follows_ite _ _ _).mpr ⟨fun _ => ?_, fun _ => by simp⟩
      simp only [follows_bind, RedisSet.pop, iterate, follows_op, discipline_next, Phase.next]
      refine ⟨_, rfl, fun keys _ => ?_⟩
      cases keys <;> simp

theorem sRandMemberSet_keeps : Keeps (sRandMemberSet cmd : Cmd F _ _) := by
  refine keeps_named (keeps_guard (keeps_atoiAt fun count => ?_))
  cases count with
  | error e => exact keeps_ret _
  | ok count => simp [RedisSet.random]

theorem sRemSet_keeps : Keeps (sRemSet cmd : Cmd F _ _) := by
  simp [sRemSet]

theorem sUnionSet_keeps : Keeps (sUnionSet cmd : Cmd F _ _) := by
  refine keeps_named (keeps_guard (keeps_liveKeys fun keys => keeps_guard (keeps_withRLocks ?_)))
  rw [RLocked, follows_bind]
  refine getSets_follows (fun sets => ?_) _
  rcases sets with _ | _ | _ <;> simp [membersReply]

/-! ## The STORE commands -/

theorem sUnionStoreSet_keeps : Keeps (sUnionStoreSet cmd : Cmd F _ _) := by
  refine keeps_named (keeps_guard (storing_follows Lenient.ret (fun _ => Lenient.panic)
    (fun keys _ => unionOf_follows keys) ?_))
  intro desKey res
  simp [storeSet, holdsSet]

theorem sDiffStoreSet_keeps : Keeps (sDiffStoreSet cmd : Cmd F _ _) := by
  refine keeps_named (keeps_guard (storing_follows Lenient.ret (fun _ => Lenient.panic)
    (fun keys _ => diffOf_follows keys) ?_))
  intro desKey res
  simp [storeSet, holdsSet]

/-- As `Ends`, but for the locks that a panic leaves held. -/
def EndsOrPanics (q : Phase) (e : Except Abort Reply) : Prop :=
  q.pending = none ∧ (e ≠ .error .panic → Ends q e)

instance lenient_endsOrPanics : Lenient EndsOrPanics :=
  ⟨by simp [EndsOrPanics], by simp [EndsOrPanics]⟩

/-- SINTERSTORE keeps the discipline but for its panics. -/
theorem sInterStoreSet_follows :
    Follows discipline EndsOrPanics .start (sInterStoreSet cmd : Cmd F _ _) := by
  refine keeps_named (keeps_guard (storing_follows Lenient.ret (fun _ => Lenient.panic)
    (fun keys _ => interOf_follows (by simp [EndsOrPanics])) ?_))
  intro desKey res
  simp [storeSet, holdsSet, EndsOrPanics]

/-! ## CLIENT, CONFIG, SCAN, INFO, QUIT -/

theorem infoConfig_keeps (host : Host) (cmd : Command) :
    Keeps (infoConfig host cmd : Cmd F _ _) := by
  simp [infoConfig]

theorem info_keeps (host : Host) (cmd : Command) : Keeps (info host cmd : Cmd F _ _) := by
  simp [info]

end Plain

section Floats

variable [UnicodeTables] [FloatText F] (cmd : Command)

/-! ## Floats -/

theorem incrByFloatString_keeps : Keeps (incrByFloatString cmd : Cmd F _ _) := by
  refine keeps_named (keeps_guard (keeps_strAt fun inc => ?_))
  cases (FloatText.parse inc : Option F) with
  | none => exact keeps_ret _
  | some inc =>
    refine keeps_strAt fun key => keeps_checkTTL fun _ => keeps_withLocks
      (locked_get ?_ ?_ fun val => ?_)
    · simp
    · simp
    · dsimp only
      cases (FloatText.parse (str val) : Option F) <;> simp

/-! ## Sorted sets -/

omit [FloatText F] in
theorem zCardZset_keeps : Keeps (zCardZset cmd : Cmd F _ _) := by
  simp [zCardZset]

theorem zCountZset_keeps : Keeps (zCountZset cmd : Cmd F _ _) := by
  refine keeps_zNamed (keeps_strAt fun key => keeps_live (keeps_strAt fun min =>
    keeps_strAt fun max => ?_))
  cases (FloatText.parse min : Option F) <;> cases (FloatText.parse max : Option F) <;> simp

theorem rangeWith_keeps (range : ZSet F → Int → Int → List Nat) (cmd : Command) :
    Keeps (rangeWith range cmd) := by
  refine keeps_strAt fun key => keeps_live (keeps_strAt fun start => keeps_strAt fun stop => ?_)
  cases rankArgs start stop <;> simp

theorem zRangeZset_keeps : Keeps (zRangeZset cmd : Cmd F _ _) :=
  keeps_zNamed (rangeWith_keeps _ cmd)

theorem zRevRangeZset_keeps : Keeps (zRevRangeZset cmd : Cmd F _ _) :=
  keeps_zNamed (rangeWith_keeps _ cmd)

theorem zRangeByScoreZset_keeps : Keeps (zRangeByScoreZset cmd : Cmd F _ _) := by
  refine keeps_zNamed (keeps_strAt fun key => keeps_live (keeps_strAt fun min =>
    keeps_strAt fun max => ?_))
  cases (scoreArgs min max : Except Reply (F × F)) with
  | error reply => exact keeps_ret _
  | ok bounds => cases rangeOptions (cmd.drop 4) ⟨false, 0, -1⟩ <;> simp

theorem zRankZset_keeps : Keeps (zRankZset cmd : Cmd F _ _) := by
  simp [zRankZset]

theorem zRevRankZset_keeps : Keeps (zRevRankZset cmd : Cmd F _ _) := by
  simp [zRevRankZset]

omit [FloatText F] [UnicodeTables] in
theorem removingFrom_keeps (key : Bytes) (remove : ZSet F → ZSet F × Int) :
    Keeps (removingFrom key remove) := by
  simp [removingFrom]

theorem zRemZset_keeps : Keeps (zRemZset cmd : Cmd F _ _) :=
  keeps_zNamed (keeps_strAt fun key => keeps_live (removingFrom_keeps key _))

theorem removingRange_keeps {α : Type} {name : String} {bounds : Bytes → Bytes → Except Reply α}
    {remove : ZSet F → α → ZSet F × Int} : Keeps (removingRange cmd name bounds remove) := by
  refine keeps_zNamed (keeps_strAt fun key => keeps_live (keeps_strAt fun first =>
    keeps_strAt fun last => ?_))
  cases bounds first last with
  | error reply => exact keeps_ret _
  | ok range => exact removingFrom_keeps key _

theorem zScoreZset_keeps : Keeps (zScoreZset cmd : Cmd F _ _) := by
  simp [zScoreZset]

theorem zIncrByZset_keeps : Keeps (zIncrByZset cmd : Cmd F _ _) := by
  refine keeps_zNamed (keeps_strAt fun key => keeps_strAt fun incr => ?_)
  cases (FloatText.parse incr : Option F) <;> simp

/-- The locks and the deadlines are in order, whatever the reply. -/
def EndsTidy (q : Phase) (e : Except Abort Reply) : Prop :=
  q.pending = none ∧ (e ≠ .error .hang → q.lock = none)

instance lenient_endsTidy : Lenient EndsTidy := ⟨by simp [EndsTidy], by simp [EndsTidy]⟩

/-- ZADD keeps the discipline but for its errors. -/
theorem zAddZset_follows :
    Follows discipline EndsTidy .start (zAddZset cmd : Cmd F _ _) := by
  refine keeps_named (keeps_guard (keeps_strAt fun key => keeps_checkTTL fun _ =>
    keeps_withLocks (locked_getOrCreateZSet ?_ ?_ fun zset => ?_)))
  · refine (follows_bind _ _).mpr (zAddLoop_follows ?_ ?_ _ _ _)
    · rintro ⟨zset, _ | res⟩ <;> simp [EndsTidy]
    · simp [EndsTidy]
  · simp [EndsTidy]
  · refine (follows_bind _ _).mpr (zAddLoop_follows ?_ ?_ _ _ _)
    · rintro ⟨zset, _ | res⟩ <;> simp [EndsTidy]
    · simp [EndsTidy]

/-! ## The table -/

/-- How a registered executor keeps the discipline. -/
def KeepsAs (entry : String × Executor F) : Prop :=
  (∀ cmd, Keeps (entry.2.body cmd)) ∨ (entry.1 = "zadd" ∧ entry.2 = ⟨_, zAddZset⟩) ∨
    (entry.1 = "sinterstore" ∧ entry.2 = ⟨_, sInterStoreSet⟩)

/-- **Every registered executor keeps the discipline**, but for ZADD and
    SINTERSTORE. -/
theorem cmdTable_keeps (host : Host) :
    ∀ entry ∈ (cmdTable host : List (String × Executor F)), KeepsAs entry := by
  simp only [cmdTable, List.forall_mem_cons]
  exact ⟨.inl pingKeys_keeps, .inl delKey_keeps, .inl existsKey_keeps, .inl keysKey_keeps,
    .inl expireKey_keeps, .inl persistKey_keeps, .inl ttlKey_keeps, .inl typeKey_keeps,
    .inl renameKey_keeps, .inl setString_keeps, .inl getString_keeps, .inl setRangeString_keeps,
    .inl getRangeString_keeps, .inl mSetString_keeps, .inl mGetString_keeps,
    .inl setExString_keeps, .inl setNxString_keeps, .inl strLenString_keeps,
    .inl incrString_keeps, .inl incrByString_keeps, .inl decrString_keeps,
    .inl decrByString_keeps, .inl incrByFloatString_keeps, .inl appendString_keeps,
    .inl hDelHash_keeps, .inl hExistsHash_keeps, .inl hGetHash_keeps, .inl hGetAllHash_keeps,
    .inl fun _ => incrHash_keeps _ (by simp), .inl fun _ => incrHash_keeps _ (by simp),
    .inl hKeysHash_keeps,
    .inl hLenHash_keeps, .inl hMGetHash_keeps, .inl hSetHash_keeps, .inl hSetNxHash_keeps,
    .inl hValsHash_keeps, .inl hStrLenHash_keeps, .inl hRandFieldHash_keeps, .inl lLenList_keeps,
    .inl lIndexList_keeps, .inl lPosList_keeps, .inl lPopList_keeps, .inl rPopList_keeps,
    .inl lPushList_keeps, .inl lPushXList_keeps, .inl rPushList_keeps, .inl rPushXList_keeps,
    .inl lSetList_keeps, .inl lRemList_keeps, .inl lTrimList_keeps, .inl lRangeList_keeps,
    .inl lMoveList_keeps, .inl sAddSet_keeps, .inl sCardSet_keeps, .inl sDiffSet_keeps,
    .inl sDiffStoreSet_keeps, .inl sInterSet_keeps, .inr (.inr ⟨rfl, rfl⟩),
    .inl sIsMemberSet_keeps, .inl sMembersSet_keeps, .inl sMoveSet_keeps, .inl sPopSet_keeps,
    .inl sRandMemberSet_keeps, .inl sRemSet_keeps, .inl sUnionSet_keeps,
    .inl sUnionStoreSet_keeps, .inr (.inl ⟨rfl, rfl⟩), .inl zCardZset_keeps,
    .inl zCountZset_keeps, .inl zRangeZset_keeps, .inl zRevRangeZset_keeps,
    .inl zRangeByScoreZset_keeps, .inl zRankZset_keeps, .inl zRevRankZset_keeps,
    .inl zRemZset_keeps, .inl fun _ => removingRange_keeps _, .inl fun _ => removingRange_keeps _,
    .inl zScoreZset_keeps, .inl zIncrByZset_keeps, .inl fun _ => keeps_ret _,
    .inl (infoConfig_keeps host), .inl fun _ => keeps_ret _, .inl (info_keeps host),
    .inl fun _ => keeps_ret _, by simp⟩

/-- No deadline is left over, and a reply comes with nothing locked. -/
def Tidy (q : Phase) (e : Except Abort Reply) : Prop :=
  q.pending = none ∧ ∀ reply, e = .ok reply → q.lock = none

/-- What they all have in common. -/
theorem KeepsAs.tidy {entry : String × Executor F} (h : KeepsAs entry) (cmd : Command) :
    Follows discipline Tidy .start (entry.2.body cmd) := by
  obtain ⟨name, e⟩ := entry
  rcases h with h | ⟨-, rfl⟩ | ⟨-, rfl⟩
  · refine (h cmd).mono fun q e he => ⟨he.1, ?_⟩
    rintro reply rfl
    exact (he.2 (by simp)).1
  · refine (zAddZset_follows cmd).mono fun q e he => ⟨he.1, ?_⟩
    rintro reply rfl
    exact he.2 (by simp)
  · refine (sInterStoreSet_follows cmd).mono fun q e he => ⟨he.1, ?_⟩
    rintro reply rfl
    exact ((he.2 (by simp)).2 (by simp)).1

end Floats

end TinyDb
