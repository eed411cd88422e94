import TinyRedis.InfoCommandsProofs
import TinyRedis.ProtocolProofs

/-! # The discipline of the executors

    Every executor uses `MemDb` in the same way: it takes key locks only when it
    holds none and gives back exactly what it took, it calls `CheckTTL` with no
    lock held, and a key it deletes loses its deadline in the next step.  The
    protocol `discipline` says so; its states also record whether anything has
    been written.  `Keeps p` is that `p` follows it from the start and, when it
    ends, holds no lock, has no deadline left over and, if it replies with an
    error, has written nothing.

    Here are the protocol, the rules for reading arguments, and the loops that
    executors share.  The executors themselves come after. -/

namespace TinyDb

open GoString GoStrconv GoFloat GoProgram GoProgram.Prog TinyResp TinyZSet

variable {F : Type} {c : Caps} {cmd : Command} {i : Nat} {key : Bytes}

/-! ## Rules for arguments and results -/

section Rules

variable {State : Type} {D : Protocol (Op F c) Op.Res State} {q : State}

@[simp] theorem follows_strAt {E : State → Except Abort Bytes → Prop} (cmd : Command) (i : Nat) :
    Follows D E q (strAt cmd i) ↔
      (∀ a, cmd[i]? = some a → E q (.ok (str a))) ∧ (cmd.length ≤ i → E q (.error .panic)) := by
  rw [strAt]
  cases h : cmd[i]? with
  | none => simp [List.getElem?_eq_none_iff.mp h]
  | some a => simp [(List.getElem?_eq_some_iff.mp h).1]

@[simp] theorem follows_argAt {E : State → Except Abort (Option Bytes) → Prop} (cmd : Command)
    (i : Nat) :
    Follows D E q (argAt cmd i) ↔
      (∀ a, cmd[i]? = some a → E q (.ok a)) ∧ (cmd.length ≤ i → E q (.error .panic)) := by
  rw [argAt]
  cases h : cmd[i]? with
  | none => simp [List.getElem?_eq_none_iff.mp h]
  | some a => simp [(List.getElem?_eq_some_iff.mp h).1]

/-- An argument that is there. -/
theorem follows_strAt_bind {β : Type} {E : State → Except Abort β → Prop} {f : Bytes → Cmd F c β}
    (hi : i < cmd.length) (h : ∀ a, Follows D E q (f a)) :
    Follows D E q (strAt cmd i >>= f) := by
  rw [strAt_eq (List.getElem?_eq_getElem hi)]
  exact h _

theorem follows_argAt_bind {β : Type} {E : State → Except Abort β → Prop}
    {f : Option Bytes → Cmd F c β} (hi : i < cmd.length) (h : ∀ a, Follows D E q (f a)) :
    Follows D E q (argAt cmd i >>= f) := by
  rw [argAt_eq (List.getElem?_eq_getElem hi)]
  exact h _

/-- An optional argument, which is not looked for when it is missing. -/
theorem follows_atoiAt_bind {β : Type} {E : State → Except Abort β → Prop} {default : Int}
    {f : Except NumError Int → Cmd F c β}
    (h : ∀ r, Follows D E q (f r)) : Follows D E q (atoiAt cmd i default >>= f) := by
  rw [atoiAt]
  by_cases hi : i < cmd.length
  · rw [if_pos hi, bind_bind]
    exact follows_strAt_bind hi fun a => h _
  · rw [if_neg hi]
    exact h _

/-- A guard that replies at once. -/
theorem follows_guard {β : Type} {E : State → Except Abort β → Prop} {p : Prop} [Decidable p]
    {reply : β} {body : Cmd F c β} (hreply : E q (.ok reply)) (h : ¬ p → Follows D E q body) :
    Follows D E q (if p then .ret reply else body) := by
  by_cases hp : p
  · rw [if_pos hp]
    exact hreply
  · rw [if_neg hp]
    exact h hp

theorem follows_named [UnicodeTables] {E : State → Except Abort Reply → Prop} {cmd : Command}
    {name : String} {bad : Reply} {body : Cmd F c Reply} (hne : cmd ≠ []) (hbad : E q (.ok bad))
    (h : Follows D E q body) : Follows D E q (named cmd name bad body) :=
  follows_strAt_bind (List.length_pos_of_ne_nil hne) fun _ => follows_guard hbad fun _ => h

end Rules

@[simp] theorem Found.forall {α : Type} {P : Found α → Prop} :
    (∀ r, P r) ↔ P .absent ∧ P .wrongType ∧ ∀ a, P (.found a) := by
  constructor
  · intro h
    exact ⟨h _, h _, fun a => h _⟩
  · rintro ⟨habsent, hwrong, hfound⟩ (_ | _ | a)
    exacts [habsent, hwrong, hfound a]

/-! ## The protocol -/

/-- The two ways to hold a key lock. -/
inductive Mode where
  | read
  | write
deriving DecidableEq

/-- Where an executor is: the keys it has locked and how, whether it has written
    anything, and the key it has deleted whose deadline is still to go. -/
structure Phase where
  lock : Option (Mode × List Bytes)
  wrote : Bool
  pending : Option Bytes

namespace Phase

/-- Before the first operation. -/
abbrev start : Phase := ⟨none, false, none⟩

/-- Taking locks, when none are held. -/
@[simp] def acquire (q : Phase) (mode : Mode) (keys : List Bytes) : Option Phase :=
  if q.lock = none then some { q with lock := some (mode, keys) } else none

/-- Giving back the locks that are held. -/
@[simp] def release (q : Phase) (mode : Mode) (keys : List Bytes) : Option Phase :=
  if q.lock = some (mode, keys) then some { q with lock := none } else none

/-- Changing a value or a deadline. -/
@[simp] def write (q : Phase) : Phase := { q with wrote := true }

/-- The phase after an operation, if it is allowed. -/
@[simp] def next (q : Phase) : Op F c → Option Phase
  | .checkTTL _ => if q.lock = none then some q else none
  | .set .. => some q.write
  | .setAny .. => some q.write
  | .update .. => some q.write
  | .setIfNotExist .. => some q.write
  | .delete key _ => if q.pending = none then some { q.write with pending := some key } else none
  | .setTTL .. => some q.write
  | .removeTTL key _ =>
    if q.pending = none ∨ q.pending = some key then some { q.write with pending := none } else none
  | .lock keys => q.acquire .write keys
  | .unLock keys => q.release .write keys
  | .rLock keys => q.acquire .read keys
  | .rUnLock keys => q.release .read keys
  | .has _ => some q
  | .typeOf _ => some q
  | .get .. => some q
  | .getAny .. => some q
  | .expireAt _ => some q
  | .keys _ => some q
  | .now _ => some q
  | .order .. => some q
  | .intn .. => some q
  | .level _ => some q

end Phase

/-- The protocol of the executors; nothing is relied on. -/
@[simps] def discipline : Protocol (Op F c) Op.Res Phase where
  next := Phase.next
  rely _ _ _ := True

/-- An error reply. -/
def IsError (reply : Reply) : Prop := ∃ b, reply = some (.errorData b)

/-- No deadline is left over, nothing is locked, and an error has written
    nothing. A loop that never ends keeps its locks. -/
@[simp] def Ends (q : Phase) (e : Except Abort Reply) : Prop :=
  q.pending = none ∧ (e ≠ .error .hang →
    q.lock = none ∧ (q.wrote = true → ∀ reply, e = .ok reply → ¬ IsError reply))

/-- The executor keeps the discipline. -/
abbrev Keeps (p : Cmd F c Reply) : Prop := Follows discipline Ends Phase.start p

@[simp] theorem not_isError_none : ¬ IsError none := by simp [IsError]

@[simp] theorem not_isError_int (i : Int) : ¬ IsError (intReply i) := by simp [IsError, intReply]

@[simp] theorem not_isError_status (s : String) : ¬ IsError (statusReply s) := by
  simp [IsError, statusReply, RedisData.status]

@[simp] theorem not_isError_bulk (b : Option Bytes) : ¬ IsError (bulkReply b) := by
  simp [IsError, bulkReply]

@[simp] theorem not_isError_bulks (bs : List (Option Bytes)) : ¬ IsError (bulksReply bs) := by
  simp [IsError, bulksReply]

@[simp] theorem not_isError_emptyArray : ¬ IsError emptyArrayReply := by
  simp [IsError, emptyArrayReply]

@[simp] theorem isError_ite (p : Prop) [Decidable p] (a b : Reply) :
    IsError (if p then a else b) ↔ (p ∧ IsError a) ∨ (¬ p ∧ IsError b) := by
  by_cases hp : p
  · simp [hp]
  · simp [hp]

/-! ## Before the locks -/

/-! An executor that has done nothing but read its arguments, expire keys and
    look at the clock is still at the start, and may reply what it likes. -/

/-- An ending that admits every reply, and a panic, at the start. -/
class Lenient (E : Phase → Except Abort Reply → Prop) : Prop where
  ret : ∀ reply, E .start (.ok reply)
  panic : E .start (.error .panic)

instance lenient_ends : Lenient Ends := ⟨by simp, by simp⟩

section Start

variable {E : Phase → Except Abort Reply → Prop} [Lenient E] {cmd : Command} {i : Nat}

theorem keeps_ret (reply : Reply) : Follows discipline E .start (.ret reply : Cmd F c Reply) :=
  Lenient.ret reply

theorem keeps_guard {p : Prop} [Decidable p] {reply : Reply} {body : Cmd F c Reply}
    (h : Follows discipline E .start body) :
    Follows discipline E .start (if p then .ret reply else body) := by
  by_cases hp : p
  · rw [if_pos hp]
    exact keeps_ret reply
  · rw [if_neg hp]
    exact h

theorem keeps_strAt {f : Bytes → Cmd F c Reply} (h : ∀ a, Follows discipline E .start (f a)) :
    Follows discipline E .start (strAt cmd i >>= f) := by
  simp [h, Lenient.panic]

theorem keeps_argAt {f : Option Bytes → Cmd F c Reply}
    (h : ∀ a, Follows discipline E .start (f a)) :
    Follows discipline E .start (argAt cmd i >>= f) := by
  simp [h, Lenient.panic]

theorem keeps_atoiAt {default : Int} {f : Except NumError Int → Cmd F c Reply}
    (h : ∀ r, Follows discipline E .start (f r)) :
    Follows discipline E .start (atoiAt cmd i default >>= f) := by
  simp [atoiAt, h, Lenient.panic]

theorem keeps_named [UnicodeTables] {name : String} {bad : Reply} {body : Cmd F c Reply}
    (h : Follows discipline E .start body) :
    Follows discipline E .start (named cmd name bad body) :=
  keeps_strAt fun _ => keeps_guard h

theorem keeps_zNamed [UnicodeTables] [FloatText F] {name : String} {lengthOk : Bool}
    {body : Cmd F c Reply} (h : Follows discipline E .start body) :
    Follows discipline E .start (zNamed cmd name lengthOk body) :=
  keeps_strAt fun _ => keeps_guard h

omit [Lenient E] in
theorem keeps_now (hc : c.timed = true) {f : Int → Cmd F c Reply}
    (h : ∀ now, Follows discipline E .start (f now)) :
    Follows discipline E .start (timeNow hc >>= f) := by
  simp [h]

omit [Lenient E] in
theorem keeps_checkTTL {f : Bool → Cmd F c Reply}
    (h : ∀ live, Follows discipline E .start (f live)) :
    Follows discipline E .start (checkTTL key >>= f) := by
  simp [h]

/-- The guard `if !m.CheckTTL(key)`. -/
theorem keeps_live {missing : Reply} {body : Cmd F c Reply} (h : Follows discipline E .start body) :
    Follows discipline E .start
      (checkTTL key >>= fun live => if !live then .ret missing else body) :=
  keeps_checkTTL fun _ => keeps_guard h

end Start

/-! ## Under the locks -/

/-- What is left to do under the write locks on `keys`, which a deferred call
    gives back, when something has been written (`w`) or not. -/
abbrev Locked (E : Phase → Except Abort Reply → Prop) (keys : List Bytes) (w : Bool)
    (body : Cmd F c Reply) : Prop :=
  Follows discipline (Deferred discipline E (.op (.unLock keys) .ret : Cmd F c Unit))
    ⟨some (.write, keys), w, none⟩ body

/-- The same for the read locks. -/
abbrev RLocked (E : Phase → Except Abort Reply → Prop) (keys : List Bytes) (body : Cmd F c Reply) :
    Prop :=
  Follows discipline (Deferred discipline E (.op (.rUnLock keys) .ret : Cmd F c Unit))
    ⟨some (.read, keys), false, none⟩ body

section Sections

variable {E : Phase → Except Abort Reply → Prop} {keys : List Bytes} {w : Bool}

theorem keeps_withLocks {body : Cmd F c Reply} (h : Locked E keys false body) :
    Follows discipline E .start (withLocks keys body) := by
  simpa using h

theorem keeps_withRLocks {body : Cmd F c Reply} (h : RLocked E keys body) :
    Follows discipline E .start (withRLocks keys body) := by
  simpa using h

theorem locked_get {kind : Kind} {hk : kind ≠ .zset} {f : Found (kind.Obj F) → Cmd F c Reply}
    (habsent : Locked E keys w (f .absent)) (hwrong : Locked E keys w (f .wrongType))
    (hfound : ∀ obj, Locked E keys w (f (.found obj))) :
    Locked E keys w (get kind key hk >>= f) := by
  simp [habsent, hwrong, hfound]

theorem locked_getOrCreate {kind : Kind} {new : kind.Obj F} {hw : c.write = true}
    {hk : kind ≠ .zset} {f : Found (kind.Obj F) → Cmd F c Reply}
    (hnew : Locked E keys true (f (.found new))) (hwrong : Locked E keys w (f .wrongType))
    (hfound : ∀ obj, Locked E keys w (f (.found obj))) :
    Locked E keys w (getOrCreate kind key new hw hk >>= f) := by
  simp [getOrCreate, hnew, hwrong, hfound]

theorem locked_getOrCreateZSet [FloatText F] {key : Bytes}
    {f : Found (ZSet F) → Cmd F sortedWrites Reply} (hnew : Locked E keys true (f (.found newZSet)))
    (hwrong : Locked E keys w (f .wrongType)) (hfound : ∀ zset, Locked E keys w (f (.found zset))) :
    Locked E keys w (getOrCreateZSet key >>= f) := by
  simp [getOrCreateZSet, hnew, hwrong, hfound]

theorem keeps_lookingUp [Lenient E] {kind : Kind} {key : Bytes} {missing : Reply}
    {body : kind.Obj F → Cmd F reads Reply} (h : ∀ obj, RLocked E [key] (body obj)) :
    Follows discipline E .start (lookingUp kind key missing body) := by
  simpa [lookingUp, Lenient.ret] using h

theorem keeps_reading [Lenient E] {kind : Kind} {key : Bytes} {missing : Reply}
    {body : kind.Obj F → Cmd F reads Reply} (h : ∀ obj, RLocked E [key] (body obj)) :
    Follows discipline E .start (reading kind key missing body) :=
  keeps_live (keeps_lookingUp h)

theorem keeps_changing [Lenient E] {key : Bytes} {missing : Reply}
    {body : RedisList → Cmd F writes Reply} (h : ∀ list, Locked E [key] false (body list)) :
    Follows discipline E .start (changing key missing body) := by
  refine keeps_live (keeps_withLocks (locked_get ?_ ?_ h))
  · simp [Lenient.ret]
  · simp [Lenient.ret]

end Sections

/-! ## The loops -/

/-! Each is by induction on the list it runs over, from a phase that the loop
    comes back to. -/

section Loops

variable {q : Phase}

theorem existsLoop_follows {E : Phase → Except Abort Int → Prop} (hq : q.lock = none)
    (hE : ∀ n, E q (.ok n)) (keys : List (Option Bytes)) (n : Int) :
    Follows discipline E q (existsLoop keys n : Cmd F reads Int) := by
  induction keys generalizing n with
  | nil => exact hE n
  | cons key rest ih =>
    obtain ⟨lock, wrote, pending⟩ := q
    obtain rfl : lock = none := hq
    simp [existsLoop, ih]

theorem delLoop_follows {E : Phase → Except Abort Int → Prop} {w : Bool}
    (hE : ∀ w n, E ⟨none, w, none⟩ (.ok n)) (keys : List (Option Bytes)) (n : Int) :
    Follows discipline E ⟨none, w, none⟩ (delLoop keys n : Cmd F writes Int) := by
  induction keys generalizing n w with
  | nil => exact hE w n
  | cons key rest ih => simp [delLoop, ih]

theorem keysLoop_follows {E : Phase → Except Abort (List Bytes) → Prop} (hq : q.lock = none)
    (hE : ∀ res, E q (.ok res)) (hpanic : E q (.error .panic)) (pattern : Bytes)
    (keys res : List Bytes) :
    Follows discipline E q (keysLoop pattern keys res : Cmd F reads (List Bytes)) := by
  induction keys generalizing res with
  | nil => exact hE res
  | cons key rest ih =>
    obtain ⟨lock, wrote, pending⟩ := q
    obtain rfl : lock = none := hq
    unfold keysLoop
    rcases patternMatch pattern key with _ | _ | _ <;> simp [ih, hpanic]

theorem mSetLoop_follows {E : Phase → Except Abort Unit → Prop} {lock : Option (Mode × List Bytes)}
    {w : Bool} (hE : ∀ w, E ⟨lock, w, none⟩ (.ok ())) (pairs : List (Bytes × Option Bytes)) :
    Follows discipline E ⟨lock, w, none⟩ (mSetLoop pairs : Cmd F writes Unit) := by
  induction pairs generalizing w with
  | nil => exact hE w
  | cons pair rest ih => simp [mSetLoop, ih]

theorem mGetLoop_follows {E : Phase → Except Abort (List (Option Bytes)) → Prop}
    (hq : q.lock = none) (hE : ∀ res, E q (.ok res)) (keys res : List (Option Bytes)) :
    Follows discipline E q (mGetLoop keys res : Cmd F reads (List (Option Bytes))) := by
  induction keys generalizing res with
  | nil => exact hE res
  | cons key rest ih =>
    obtain ⟨lock, wrote, pending⟩ := q
    obtain rfl : lock = none := hq
    simp [mGetLoop, ih]

theorem liveKeys_follows {E : Phase → Except Abort (List Bytes) → Prop} (hq : q.lock = none)
    (hE : ∀ keys, E q (.ok keys)) (keys : List (Option Bytes)) :
    Follows discipline E q (liveKeys keys : Cmd F c (List Bytes)) := by
  induction keys generalizing E with
  | nil => exact hE []
  | cons key rest ih =>
    obtain ⟨lock, wrote, pending⟩ := q
    obtain rfl : lock = none := hq
    simp [liveKeys, ih, hE]

theorem getSets_follows {E : Phase → Except Abort (Option (List RedisSet)) → Prop}
    (hE : ∀ sets, E q (.ok sets)) (keys : List Bytes) :
    Follows discipline E q (getSets keys : Cmd F c (Option (List RedisSet))) := by
  induction keys generalizing E with
  | nil => exact hE _
  | cons key rest ih => simp [getSets, ih, hE]

theorem repeatKeys_follows {V : Type} {E : Phase → Except Abort (List Bytes) → Prop}
    (hE : ∀ keys, E q (.ok keys)) (hhang : E q (.error .hang)) (table : GoMap V) (fuel need : Nat)
    (res : List Bytes) :
    Follows discipline E q (repeatKeys table fuel need res : Cmd F reads (List Bytes)) := by
  induction fuel generalizing need res with
  | zero =>
    cases need with
    | zero => exact hE res
    | succ n => exact hhang
  | succ fuel ih =>
    cases need with
    | zero => exact hE res
    | succ n => simp [repeatKeys, ih, hhang]

theorem reservoir_follows {E : Phase → Except Abort (List Bytes) → Prop} (hE : ∀ res, E q (.ok res))
    (count : Nat) (keys : List Bytes) (i : Nat) (res : List Bytes) :
    Follows discipline E q (reservoir count keys i res : Cmd F reads (List Bytes)) := by
  induction keys generalizing i res with
  | nil => exact hE res
  | cons key rest ih => simp [reservoir, ih]

theorem drawMembers_follows {E : Phase → Except Abort (List Bytes) → Prop}
    (hE : ∀ res, E q (.ok res)) (hpanic : E q (.error .panic)) (members : List Bytes) (size n : Nat)
    (res : List Bytes) :
    Follows discipline E q (drawMembers members size n res : Cmd F reads (List Bytes)) := by
  induction n generalizing res with
  | zero => exact hE res
  | succ n ih =>
    simp only [drawMembers, randIntn, op_bind, ret_bind, follows_op, discipline_next,
      discipline_rely, Phase.next]
    refine ⟨q, rfl, fun j _ => ?_⟩
    cases members[j]? with
    | none => exact hpanic
    | some member => exact ih _

theorem sPopLoop_follows {E : Phase → Except Abort (RedisSet × List Bytes) → Prop}
    (hE : ∀ r, E q (.ok r)) (n : Nat) (set : RedisSet) (res : List Bytes) :
    Follows discipline E q (sPopLoop n set res : Cmd F randomWrites (RedisSet × List Bytes)) := by
  induction n generalizing set res with
  | zero => exact hE _
  | succ n ih =>
    simp only [sPopLoop, RedisSet.pop, iterate, op_bind, ret_bind, follows_op, discipline_next,
      discipline_rely, Phase.next]
    refine ⟨q, rfl, fun keys _ => ?_⟩
    cases keys with
    | nil => simp [hE]
    | cons key rest => simp [hE, ih]

theorem zAddLoop_follows [FloatText F] {E : Phase → Except Abort (ZSet F × Option Int) → Prop}
    (hE : ∀ r, E q (.ok r)) (hpanic : E q (.error .panic)) (args : List (Option Bytes))
    (zset : ZSet F) (res : Int) :
    Follows discipline E q (zAddLoop args zset res : Cmd F sortedWrites _) := by
  fun_induction zAddLoop args zset res with
  | case1 => exact hpanic
  | case2 => exact hE _
  | case3 score member rest zset res s hs ih => exact ⟨q, rfl, fun level _ => ih level⟩
  | case4 => exact hE _

end Loops

end TinyDb
