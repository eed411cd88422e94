import TinyRedis.CommandTableProofs
import TinyRedis.DisciplineProofs

/-! # Replies that are one RESP value

    A status and an error are written as one line, without escaping: a reply
    whose text holds a line feed is read back as something else.  A reply is
    `FlatReply` if it is flat RESP, so that it is read back as it was written.

    Most executors put nothing of the command into a line.  What they echo is in
    bulk strings, which carry their length.  `Frames p` says that every way
    through `p` that returns, returns a flat reply; it does not matter what the
    store answers on the way, so one rule takes any call apart from what follows
    it.  The six executors that quote an argument in a line are left to the next
    module. -/

namespace TinyDb

open GoString GoStrconv GoFloat GoProgram GoProgram.Prog TinyResp TinyZSet

variable {F : Type} {c : Caps} {key : Bytes} {missing reply : Reply}

/-! ## Flat replies -/

/-- The value written for a reply; nil is an error. -/
def replyData (reply : Reply) : RedisData := reply.getD (.err "unknown error")

/-- What is written is flat RESP. -/
def FlatReply (reply : Reply) : Prop := Flat (replyData reply)

/-- A line is flat when it holds no line feed. -/
theorem flatReply_error_iff (s : Bytes) :
    FlatReply (some (.errorData s)) ↔ (10 : UInt8) ∉ s := by
  constructor
  · intro h
    cases h with
    | scalar hs =>
      cases hs with
      | error _ hs => exact hs
  · exact fun h => .scalar (.error s h)

@[simp] theorem flatReply_err (s : String) : FlatReply (errReply s) ↔ (10 : UInt8) ∉ ascii s :=
  flatReply_error_iff (ascii s)

/-- A text of the source, taken character by character, is one line. -/
theorem ascii_oneLine {l : List Char} (h : (l.all fun c => c.toNat.toUInt8 != 10) = true) :
    (10 : UInt8) ∉ ascii (String.ofList l) := by
  intro hmem
  rw [ascii, String.toList_ofList] at hmem
  obtain ⟨c, hc, h10⟩ := List.mem_map.mp hmem
  have hne := List.all_eq_true.mp h c hc
  simp [h10] at hne

theorem flat_err {l : List Char} (h : (l.all fun c => c.toNat.toUInt8 != 10) = true) :
    FlatReply (errReply (String.ofList l)) := (flatReply_err _).mpr (ascii_oneLine h)

@[simp] theorem flatReply_status (s : String) :
    FlatReply (statusReply s) ↔ (10 : UInt8) ∉ ascii s := by
  constructor
  · intro h
    cases h with
    | scalar hs =>
      cases hs with
      | string _ hs => exact hs
  · exact fun h => .scalar (.string _ h)

theorem flat_status {l : List Char} (h : (l.all fun c => c.toNat.toUInt8 != 10) = true) :
    FlatReply (statusReply (String.ofList l)) := (flatReply_status _).mpr (ascii_oneLine h)

@[simp] theorem flatReply_none : FlatReply none := flat_err rfl

@[simp] theorem flatReply_wrongType : FlatReply wrongTypeReply := flat_err rfl

@[simp] theorem flatReply_int (i : Int) : FlatReply (intReply i) := .scalar (.int _)

@[simp] theorem flatReply_bulk (b : Option Bytes) : FlatReply (bulkReply b) := .scalar (.bulk b)

@[simp] theorem flatReply_emptyArray : FlatReply emptyArrayReply := .nullArray

@[simp] theorem flatReply_bulks (bs : List (Option Bytes)) : FlatReply (bulksReply bs) := by
  refine .array _ fun x hx => ?_
  obtain ⟨b, -, rfl⟩ := List.mem_map.mp hx
  exact .bulk b

theorem flatReply_ite {p : Prop} [Decidable p] {a b : Reply} (ha : FlatReply a) (hb : FlatReply b) :
    FlatReply (if p then a else b) := by
  by_cases hp : p
  · rw [if_pos hp]
    exact ha
  · rw [if_neg hp]
    exact hb

/-! ## The rules -/

/-- A call that returns, returns a flat reply. -/
@[simp] def Framing (_ : Unit) : Except Abort Reply → Prop
  | .ok reply => FlatReply reply
  | .error _ => True

/-- No operation is excluded, and nothing is relied on. -/
noncomputable abbrev anyOps : Protocol (Op F c) Op.Res Unit :=
  contract (fun _ => True) fun _ _ => True

/-- Every way through the program that returns, returns a flat reply. -/
abbrev Frames (p : Cmd F c Reply) : Prop := Follows anyOps Framing () p

/-- With every ending admitted, so is every program. -/
theorem follows_anyOps {α : Type} {E : Unit → Except Abort α → Prop} (hE : ∀ e, E () e)
    (p : Cmd F c α) : Follows anyOps E () p := by
  induction p with
  | ret a => exact hE _
  | op o next ih => exact (follows_contract_op o next).mpr ⟨trivial, fun r _ => ih r⟩
  | stop why => exact hE _

/-- What comes before the reply does not matter. -/
theorem frames_bind {α : Type} {p : Cmd F c α} {f : α → Cmd F c Reply} (h : ∀ a, Frames (f a)) :
    Frames (p >>= f) := by
  refine (follows_bind p f).mpr (follows_anyOps (fun e => ?_) p)
  cases e with
  | ok a => exact h a
  | error why => trivial

theorem frames_guard {p : Prop} [Decidable p] {reply : Reply} {body : Cmd F c Reply}
    (hreply : FlatReply reply) (h : Frames body) : Frames (if p then .ret reply else body) :=
  follows_guard hreply fun _ => h

theorem frames_ite {p : Prop} [Decidable p] {a b : Cmd F c Reply} (ha : Frames a) (hb : Frames b) :
    Frames (if p then a else b) := (follows_ite p a b).mpr ⟨fun _ => ha, fun _ => hb⟩

/-- Nor does what is deferred. -/
theorem frames_deferred {o o' : Op F c} {body : Cmd F c Reply} (h : Frames body) :
    Frames (.op o fun _ => body.defer (.op o' fun _ => .ret ())) := by
  refine (follows_contract_op _ _).mpr ⟨trivial, fun _ _ => (follows_defer _ _).mpr ?_⟩
  refine h.mono fun u e he => ?_
  cases e with
  | ok a => simpa using fun _ : o'.Res => he
  | error why => cases why <;> simp

theorem frames_withLocks {keys : List Bytes} {body : Cmd F c Reply} (h : Frames body) :
    Frames (withLocks keys body) := frames_deferred h

theorem frames_withRLocks {keys : List Bytes} {body : Cmd F c Reply} (h : Frames body) :
    Frames (withRLocks keys body) := frames_deferred h

/-- A call that looks a key up, by what it may find. -/
theorem frames_found {α : Type} {p : Cmd F c (Found α)} {f : Found α → Cmd F c Reply}
    (habsent : Frames (f .absent)) (hwrong : Frames (f .wrongType))
    (hfound : ∀ obj, Frames (f (.found obj))) : Frames (p >>= f) := by
  refine frames_bind fun found => ?_
  cases found with
  | absent => exact habsent
  | wrongType => exact hwrong
  | found obj => exact hfound obj

theorem frames_lookingUp {kind : Kind} {body : kind.Obj F → Cmd F reads Reply}
    (hmissing : FlatReply missing) (h : ∀ obj, Frames (body obj)) :
    Frames (lookingUp kind key missing body) :=
  frames_withRLocks (frames_found hmissing flatReply_wrongType h)

theorem frames_reading {kind : Kind} {body : kind.Obj F → Cmd F reads Reply}
    (hmissing : FlatReply missing) (h : ∀ obj, Frames (body obj)) :
    Frames (reading kind key missing body) :=
  frames_bind fun _ => frames_guard hmissing (frames_lookingUp hmissing h)

theorem frames_named [UnicodeTables] {cmd : Command} {name : String} {bad : Reply}
    {body : Cmd F c Reply} (hbad : FlatReply bad) (h : Frames body) :
    Frames (named cmd name bad body) :=
  frames_bind fun _ => frames_guard hbad h

/-- The two checks that most executors begin with: the name and the number of
    arguments, each answered with a fixed text. -/
theorem frames_checked [UnicodeTables] {cmd : Command} {name : String} {p : Prop} [Decidable p]
    {bad short : List Char} {body : Cmd F c Reply}
    (hbad : (bad.all fun c => c.toNat.toUInt8 != 10) = true)
    (hshort : (short.all fun c => c.toNat.toUInt8 != 10) = true) (h : Frames body) :
    Frames (named cmd name (errReply (String.ofList bad))
      (if p then .ret (errReply (String.ofList short)) else body)) :=
  frames_named (flat_err hbad) (frames_guard (flat_err hshort) h)

theorem frames_zNamed [UnicodeTables] [FloatText F] {cmd : Command} {name : String}
    {lengthOk : Bool} {body : Cmd F c Reply} (hname : (10 : UInt8) ∉ ascii name) (h : Frames body) :
    Frames (zNamed cmd name lengthOk body) := by
  refine frames_bind fun _ => frames_guard ((flatReply_error_iff _).mpr ?_) h
  simp only [List.mem_append, not_or]
  exact ⟨⟨ascii_oneLine rfl, hname⟩, ascii_oneLine rfl⟩

/-! ## Loops and helpers -/

/-- The four counters reply with the sum. -/
theorem addTo_frames (key : Bytes) (inc : Int) : Frames (addTo key inc : Cmd F _ _) := by
  refine frames_bind fun live => frames_withLocks
    (frames_found (frames_bind fun _ => flatReply_int _) flatReply_wrongType fun val => ?_)
  dsimp only
  cases parseInt (str val) with
  | error e => exact flat_err rfl
  | ok n => exact frames_bind fun _ => flatReply_int _

/-- What is pushed is not echoed: the reply is the length. -/
theorem pushTo_frames (cmd : Command) (push : RedisList → Option Bytes → RedisList) :
    Frames (pushTo push cmd : Cmd F _ _) := by
  refine frames_bind fun key => frames_bind fun live => frames_withLocks ?_
  exact frames_found flatReply_wrongType flatReply_wrongType fun list =>
    frames_bind fun _ => flatReply_int _

/-- The same for the variants that want the list to be there. -/
theorem pushToExisting_frames (cmd : Command) (push : RedisList → Option Bytes → RedisList) :
    Frames (pushToExisting push cmd : Cmd F _ _) := by
  refine frames_bind fun key => frames_bind fun live => frames_withLocks ?_
  exact frames_found (flatReply_int 0) flatReply_wrongType fun list =>
    frames_bind fun _ => flatReply_int _

/-- What is popped is echoed in bulk strings. -/
theorem popFrom_frames (cmd : Command) (pop : RedisList → RedisList × Option (Option Bytes)) :
    Frames (popFrom pop cmd : Cmd F _ _) := by
  refine frames_bind fun cnt => ?_
  cases cnt with
  | error e => exact flat_err rfl
  | ok cnt =>
    refine frames_guard (flat_err rfl) (frames_bind fun key => frames_bind fun live => ?_)
    refine frames_guard (flatReply_bulk none) (frames_withLocks ?_)
    refine frames_found (flatReply_bulk none) flatReply_wrongType fun list => ?_
    dsimp only
    by_cases hcnt : cnt = 0
    · rw [if_pos hcnt]
      exact frames_bind fun _ => frames_bind fun _ => flatReply_bulk _
    · rw [if_neg hcnt]
      exact frames_bind fun _ => frames_bind fun _ => flatReply_bulks _

/-- The frame that LSET, LREM and LTRIM share. -/
theorem changing_frames {body : RedisList → Cmd F writes Reply} (hmissing : FlatReply missing)
    (h : ∀ list, Frames (body list)) :
    Frames (changing key missing body) :=
  frames_bind fun _ => frames_guard hmissing
    (frames_withLocks (frames_found hmissing flatReply_wrongType h))

/-- Members are listed in bulk strings. -/
theorem membersReply_frames (set : RedisSet) : Frames (membersReply set : Cmd F _ _) :=
  frames_bind fun _ => flatReply_bulks _

/-- What the three store variants end with: the number of members. -/
theorem storeSet_frames (desKey : Bytes) (res : RedisSet) :
    Frames (storeSet desKey res : Cmd F _ _) := by
  refine frames_bind fun _ => frames_guard flatReply_wrongType ?_
  by_cases hlen : res.len ≠ 0
  · rw [if_pos hlen]
    exact frames_bind fun _ => flatReply_int _
  · rw [if_neg hlen]
    exact flatReply_int _

/-- A computation that gives up, gives up with a flat reply. -/
abbrev GivesUpFlat (p : Cmd F c (Except Reply RedisSet)) : Prop :=
  Follows anyOps (fun _ e => ∀ reply, e = .ok (.error reply) → FlatReply reply) () p

/-- What comes before does not matter here either. -/
theorem givesUpFlat_bind {α : Type} {p : Cmd F c α} {f : α → Cmd F c (Except Reply RedisSet)}
    (h : ∀ a, GivesUpFlat (f a)) : GivesUpFlat (p >>= f) := by
  refine (follows_bind p f).mpr (follows_anyOps (fun e => ?_) p)
  cases e with
  | ok a => exact h a
  | error why =>
    intro reply hreply
    cases hreply

theorem givesUpFlat_ok (res : RedisSet) : GivesUpFlat (.ret (.ok res) : Cmd F c _) := by
  intro reply hreply
  cases hreply

theorem givesUpFlat_error (h : FlatReply reply) :
    GivesUpFlat (.ret (.error reply) : Cmd F c _) := by
  intro reply' hreply
  cases hreply
  exact h

/-- The union gives up on a wrong type, and if there is no set. -/
theorem unionOf_givesUpFlat (keys : List Bytes) : GivesUpFlat (unionOf keys : Cmd F _ _) := by
  refine givesUpFlat_bind fun _ => givesUpFlat_bind fun sets => givesUpFlat_bind fun _ => ?_
  rcases sets with _ | _ | ⟨set, sets⟩
  · exact givesUpFlat_error flatReply_wrongType
  · exact givesUpFlat_error flatReply_emptyArray
  · exact givesUpFlat_ok _

/-- The intersection gives up on a wrong type. -/
theorem interOf_givesUpFlat (keys : List Bytes) : GivesUpFlat (interOf keys : Cmd F _ _) := by
  refine givesUpFlat_bind fun _ => givesUpFlat_bind fun sets => ?_
  cases sets with
  | none => exact givesUpFlat_bind fun _ => givesUpFlat_error flatReply_wrongType
  | some sets => exact givesUpFlat_bind fun res => givesUpFlat_bind fun _ => givesUpFlat_ok res

/-- So does the difference. -/
theorem diffOf_givesUpFlat (keys : List Bytes) : GivesUpFlat (diffOf keys : Cmd F _ _) := by
  cases keys with
  | nil =>
    intro reply hreply
    cases hreply
  | cons key rest =>
    refine givesUpFlat_bind fun _ => givesUpFlat_bind fun found => ?_
    cases found with
    | absent => exact givesUpFlat_bind fun _ => givesUpFlat_ok _
    | wrongType => exact givesUpFlat_bind fun _ => givesUpFlat_error flatReply_wrongType
    | found primSet =>
      refine givesUpFlat_bind fun sets => givesUpFlat_bind fun _ => ?_
      cases sets with
      | none => exact givesUpFlat_error flatReply_wrongType
      | some sets => exact givesUpFlat_ok _

/-- The frame of the store variants. -/
theorem storing_frames (cmd : Command) {compute : List Bytes → Cmd F writes (Except Reply RedisSet)}
    {store : Bytes → RedisSet → Cmd F writes Reply} (hcompute : ∀ keys, GivesUpFlat (compute keys))
    (hstore : ∀ desKey res, Frames (store desKey res)) : Frames (storing cmd compute store) := by
  refine frames_bind fun desKey => frames_bind fun _ => frames_bind fun _ =>
    frames_guard flatReply_wrongType (frames_bind fun keys => frames_guard (flatReply_int 0) ?_)
  refine (follows_bind _ _).mpr ((hcompute keys).mono fun _ e he => ?_)
  cases e with
  | error why => trivial
  | ok res =>
    cases res with
    | error reply => exact he reply rfl
    | ok res => exact frames_bind fun _ => hstore desKey res

section Plain

variable [UnicodeTables] (cmd : Command)

/-! ## Keys -/

/-- PING echoes its argument in a bulk string. -/
theorem pingKeys_frames : Frames (pingKeys cmd : Cmd F _ _) :=
  frames_checked rfl rfl (frames_guard (flat_status rfl)
    (frames_bind fun arg => flatReply_bulk arg))

/-- DEL counts. -/
theorem delKey_frames : Frames (delKey cmd : Cmd F _ _) :=
  frames_named (flat_err rfl) (frames_bind fun n => flatReply_int n)

/-- EXISTS counts. -/
theorem existsKey_frames : Frames (existsKey cmd : Cmd F _ _) :=
  frames_bind fun _ => frames_guard (flat_err rfl) (frames_bind fun n => flatReply_int n)

/-- PERSIST replies with 0 or 1. -/
theorem persistKey_frames : Frames (persistKey cmd : Cmd F _ _) := by
  refine frames_bind fun name => frames_guard (flat_err rfl) (frames_bind fun key => ?_)
  refine frames_bind fun live => frames_guard (flatReply_int 0) (frames_withLocks ?_)
  exact frames_bind fun n => flatReply_int n

/-- TTL replies with a number of seconds, or what stands for none. -/
theorem ttlKey_frames : Frames (ttlKey cmd : Cmd F _ _) := by
  refine frames_bind fun name => frames_guard (flat_err rfl) (frames_bind fun key => ?_)
  refine frames_withRLocks (frames_bind fun live => frames_guard (flatReply_int _) ?_)
  refine frames_bind fun deadline => ?_
  cases deadline with
  | none => exact flatReply_int _
  | some deadline => exact frames_bind fun now => flatReply_int _

/-- TYPE replies with the name of a kind. -/
theorem typeKey_frames : Frames (typeKey cmd : Cmd F _ _) := by
  refine frames_bind fun name => frames_guard (flat_err rfl) (frames_bind fun key => ?_)
  refine frames_bind fun live => frames_guard (flatReply_bulk _) (frames_withRLocks ?_)
  refine frames_bind fun kind => ?_
  cases kind with
  | none => exact flat_status rfl
  | some kind =>
    cases kind with
    | _ => exact flat_status rfl

/-! ## Strings -/

/-- GET replies with the value. -/
theorem getString_frames : Frames (getString cmd : Cmd F _ _) :=
  frames_checked rfl rfl (frames_bind fun _ =>
    frames_reading (flatReply_bulk _) fun val => flatReply_bulk val)

/-- SETRANGE replies with the new length. -/
theorem setRangeString_frames : Frames (setRangeString cmd : Cmd F _ _) := by
  refine frames_checked rfl rfl (frames_bind fun offset => ?_)
  cases atoi offset with
  | error e => exact flat_err rfl
  | ok offset =>
    refine frames_guard (flat_err rfl) (frames_bind fun key => frames_bind fun val => ?_)
    refine frames_bind fun live => frames_withLocks
      (frames_found ?_ flatReply_wrongType fun old => ?_)
    · simp
    · simp

/-- GETRANGE replies with a part of the value. -/
theorem getRangeString_frames : Frames (getRangeString cmd : Cmd F _ _) := by
  refine frames_checked rfl rfl (frames_bind fun key =>
    frames_reading (flatReply_bulk _) fun val => ?_)
  refine frames_bind fun start => frames_bind fun stop => ?_
  cases atoi start with
  | error e => exact flat_err rfl
  | ok start =>
    cases atoi stop with
    | error e => exact flat_err rfl
    | ok stop =>
      refine frames_guard (flatReply_bulk _) (frames_guard (flatReply_bulk _)
        (frames_guard (flatReply_bulk _) ?_))
      split
      · trivial
      · exact flatReply_bulk _

/-- MSET replies OK. -/
theorem mSetString_frames : Frames (mSetString cmd : Cmd F _ _) := by
  refine frames_checked rfl rfl ?_
  cases pairsOf cmd.tail with
  | none => trivial
  | some pairs => exact frames_withLocks (frames_bind fun _ => flat_status rfl)

/-- MGET lists values. -/
theorem mGetString_frames : Frames (mGetString cmd : Cmd F _ _) :=
  frames_checked rfl rfl (frames_bind fun vals => flatReply_bulks vals)

/-- SETNX replies with 0 or 1. -/
theorem setNxString_frames : Frames (setNxString cmd : Cmd F _ _) := by
  refine frames_checked rfl rfl (frames_bind fun key => frames_bind fun val => ?_)
  exact frames_bind fun live => frames_withLocks (frames_bind fun n => flatReply_int n)

/-- STRLEN replies with a length. -/
theorem strLenString_frames : Frames (strLenString cmd : Cmd F _ _) := by
  refine frames_checked rfl rfl (frames_bind fun key => frames_bind fun live => ?_)
  exact frames_withRLocks (frames_found (flatReply_bulk none) (flat_err rfl) fun _ =>
    flatReply_int _)

/-- APPEND replies with the new length. -/
theorem appendString_frames : Frames (appendString cmd : Cmd F _ _) := by
  refine frames_checked rfl rfl (frames_bind fun key => frames_bind fun val => ?_)
  refine frames_bind fun live => frames_withLocks
    (frames_found ?_ flatReply_wrongType fun old => ?_)
  · exact frames_bind fun _ => flatReply_int _
  · exact frames_bind fun _ => flatReply_int _

/-- INCR counts up by one. -/
theorem incrString_frames : Frames (incrString cmd : Cmd F _ _) :=
  frames_checked rfl rfl (frames_bind fun key => addTo_frames key 1)

/-- DECR counts down by one. -/
theorem decrString_frames : Frames (decrString cmd : Cmd F _ _) :=
  frames_checked rfl rfl (frames_bind fun key => addTo_frames key (-1))

/-- INCRBY does not echo its amount, even if it is no number. -/
theorem incrByString_frames : Frames (incrByString cmd : Cmd F _ _) := by
  refine frames_checked rfl rfl (frames_bind fun inc => ?_)
  cases parseInt inc with
  | error e => exact flat_err rfl
  | ok inc => exact frames_bind fun key => addTo_frames key _

/-- Nor does DECRBY. -/
theorem decrByString_frames : Frames (decrByString cmd : Cmd F _ _) := by
  refine frames_checked rfl rfl (frames_bind fun dec => ?_)
  cases parseInt dec with
  | error e => exact flat_err rfl
  | ok dec => exact frames_bind fun key => addTo_frames key _

/-! ## Hashes -/

/-- HDEL counts the fields it has deleted. -/
theorem hDelHash_frames : Frames (hDelHash cmd : Cmd F _ _) := by
  refine frames_checked rfl rfl (frames_bind fun key => frames_bind fun live => ?_)
  refine frames_guard (flatReply_int 0) (frames_withLocks ?_)
  refine frames_found (flatReply_int 0) flatReply_wrongType fun hash => ?_
  exact frames_bind fun _ => frames_bind fun _ => flatReply_int _

/-- HEXISTS replies with 0 or 1. -/
theorem hExistsHash_frames : Frames (hExistsHash cmd : Cmd F _ _) :=
  frames_checked rfl rfl (frames_bind fun _ =>
    frames_reading (flatReply_int 0) fun _ => frames_bind fun _ => flatReply_int _)

/-- HGET replies with the value of a field. -/
theorem hGetHash_frames : Frames (hGetHash cmd : Cmd F _ _) :=
  frames_checked rfl rfl (frames_bind fun _ =>
    frames_reading (flatReply_bulk none) fun _ => frames_bind fun _ => flatReply_bulk _)

/-- HGETALL lists fields and values. -/
theorem hGetAllHash_frames : Frames (hGetAllHash cmd : Cmd F _ _) :=
  frames_checked rfl rfl (frames_bind fun _ =>
    frames_reading flatReply_emptyArray fun _ => frames_bind fun _ => flatReply_bulks _)

/-- HKEYS lists fields. -/
theorem hKeysHash_frames : Frames (hKeysHash cmd : Cmd F _ _) :=
  frames_checked rfl rfl (frames_bind fun _ =>
    frames_reading flatReply_emptyArray fun _ => frames_bind fun _ => flatReply_bulks _)

/-- HVALS lists values. -/
theorem hValsHash_frames : Frames (hValsHash cmd : Cmd F _ _) :=
  frames_checked rfl rfl (frames_bind fun _ =>
    frames_reading flatReply_emptyArray fun _ => frames_bind fun _ => flatReply_bulks _)

/-- HLEN replies with the size. -/
theorem hLenHash_frames : Frames (hLenHash cmd : Cmd F _ _) :=
  frames_checked rfl rfl (frames_bind fun _ =>
    frames_reading (flatReply_int 0) fun _ => flatReply_int _)

/-- HSTRLEN replies with a length. -/
theorem hStrLenHash_frames : Frames (hStrLenHash cmd : Cmd F _ _) :=
  frames_checked rfl rfl (frames_bind fun _ => frames_bind fun _ =>
    frames_reading (flatReply_int 0) fun _ => flatReply_int _)

/-- HMGET lists values. -/
theorem hMGetHash_frames : Frames (hMGetHash cmd : Cmd F _ _) :=
  frames_checked rfl rfl (frames_bind fun _ =>
    frames_reading (flatReply_bulks _) fun _ => flatReply_bulks _)

/-- HSETNX replies with 0 or 1. -/
theorem hSetNxHash_frames : Frames (hSetNxHash cmd : Cmd F _ _) := by
  refine frames_checked rfl rfl (frames_bind fun key => frames_bind fun field => ?_)
  refine frames_bind fun value => frames_bind fun live => frames_withLocks ?_
  refine frames_found flatReply_wrongType flatReply_wrongType fun hash => ?_
  exact frames_guard (flatReply_int 0) (frames_bind fun _ => flatReply_int 1)

/-- HINCRBY and HINCRBYFLOAT reply with the sum. -/
theorem incrHash_frames {α : Type} {name badLength badIncr badValue : String}
    {parse : Bytes → Option α} {incrBy : RedisHash → Bytes → α → RedisHash × Option α}
    {reply : α → Reply} (hlength : FlatReply (errReply badLength))
    (hincr : FlatReply (errReply badIncr)) (hvalue : FlatReply (errReply badValue))
    (hreply : ∀ res, FlatReply (reply res)) :
    Frames (incrHash cmd name badLength badIncr badValue parse incrBy reply : Cmd F _ _) := by
  refine frames_named (flat_err rfl) (frames_guard hlength (frames_bind fun key => ?_))
  refine frames_bind fun field => frames_bind fun incr => ?_
  cases parse incr with
  | none => exact hincr
  | some incr =>
    refine frames_bind fun live => frames_withLocks
      (frames_found flatReply_wrongType flatReply_wrongType fun hash => ?_)
    dsimp only
    rcases incrBy hash field incr with ⟨hash, _ | res⟩
    · exact hvalue
    · exact frames_bind fun _ => hreply res

theorem hIncrByHash_frames : Frames (hIncrByHash cmd : Cmd F _ _) :=
  incrHash_frames cmd (flat_err rfl) (flat_err rfl) (flat_err rfl) flatReply_int

/-- HSET counts the fields that are new. -/
theorem hSetHash_frames : Frames (hSetHash cmd : Cmd F _ _) := by
  refine frames_checked rfl rfl (frames_bind fun key => frames_bind fun live => frames_withLocks ?_)
  refine frames_found flatReply_wrongType flatReply_wrongType fun hash => ?_
  dsimp only
  cases pairsOf (cmd.drop 2) with
  | none => trivial
  | some pairs => exact frames_bind fun _ => flatReply_int _

/-! ## Lists -/

/-- LLEN replies with the length. -/
theorem lLenList_frames : Frames (lLenList cmd : Cmd F _ _) :=
  frames_checked rfl rfl (frames_bind fun _ =>
    frames_reading (flatReply_int 0) fun _ => flatReply_int _)

/-- LINDEX replies with an element. -/
theorem lIndexList_frames : Frames (lIndexList cmd : Cmd F _ _) := by
  refine frames_checked rfl rfl (frames_bind fun key => frames_bind fun index => ?_)
  cases atoi index with
  | error e => exact flat_err rfl
  | ok index => exact frames_reading (flatReply_bulk none) fun list => flatReply_bulk _

/-- LRANGE lists elements. -/
theorem lRangeList_frames : Frames (lRangeList cmd : Cmd F _ _) := by
  refine frames_checked rfl rfl (frames_bind fun start => frames_bind fun stop => ?_)
  cases atoi start with
  | error e => exact flat_err rfl
  | ok start =>
    cases atoi stop with
    | error e => exact flat_err rfl
    | ok stop =>
      refine frames_bind fun key => frames_reading flatReply_emptyArray fun list => ?_
      cases list.range start stop with
      | none => exact flatReply_emptyArray
      | some vals => exact flatReply_bulks vals

/-- LPUSH. -/
theorem lPushList_frames : Frames (lPushList cmd : Cmd F _ _) :=
  frames_checked rfl rfl (pushTo_frames cmd _)

/-- RPUSH. -/
theorem rPushList_frames : Frames (rPushList cmd : Cmd F _ _) :=
  frames_checked rfl rfl (pushTo_frames cmd _)

/-- LPUSHX. -/
theorem lPushXList_frames : Frames (lPushXList cmd : Cmd F _ _) :=
  frames_checked rfl rfl (pushToExisting_frames cmd _)

/-- RPUSHX. -/
theorem rPushXList_frames : Frames (rPushXList cmd : Cmd F _ _) :=
  frames_checked rfl rfl (pushToExisting_frames cmd _)

/-- LPOP. -/
theorem lPopList_frames : Frames (lPopList cmd : Cmd F _ _) :=
  frames_checked rfl rfl (popFrom_frames cmd _)

/-- RPOP. -/
theorem rPopList_frames : Frames (rPopList cmd : Cmd F _ _) :=
  frames_checked rfl rfl (popFrom_frames cmd _)

/-- LSET replies OK. -/
theorem lSetList_frames : Frames (lSetList cmd : Cmd F _ _) := by
  refine frames_checked rfl rfl (frames_bind fun index => ?_)
  cases atoi index with
  | error e => exact flat_err rfl
  | ok index =>
    refine frames_bind fun key => changing_frames (flat_err rfl) fun list => ?_
    refine frames_bind fun val => ?_
    rcases list.set index val with ⟨list, _ | _⟩
    · exact flat_err rfl
    · exact frames_bind fun _ => flat_status rfl

/-- LREM counts the elements it has removed. -/
theorem lRemList_frames : Frames (lRemList cmd : Cmd F _ _) := by
  refine frames_checked rfl rfl (frames_bind fun count => ?_)
  cases atoi count with
  | error e => exact flat_err rfl
  | ok count =>
    refine frames_bind fun key => changing_frames (flatReply_int 0) fun list => ?_
    exact frames_bind fun val => frames_bind fun _ => frames_bind fun _ => flatReply_int _

/-- LTRIM replies OK. -/
theorem lTrimList_frames : Frames (lTrimList cmd : Cmd F _ _) := by
  refine frames_checked rfl rfl (frames_bind fun start => frames_bind fun stop => ?_)
  cases atoi start with
  | error e => exact flat_err rfl
  | ok start =>
    cases atoi stop with
    | error e => exact flat_err rfl
    | ok stop =>
      exact frames_bind fun key => changing_frames (flat_status rfl) fun list =>
        frames_bind fun _ => frames_bind fun _ => flat_status rfl

/-- LMOVE echoes the element it has moved. -/
theorem lMoveList_frames : Frames (lMoveList cmd : Cmd F _ _) := by
  refine frames_checked rfl rfl (frames_bind fun src => frames_bind fun des => ?_)
  refine frames_bind fun srcDrc => frames_bind fun desDrc => frames_guard (flat_err rfl) ?_
  refine frames_bind fun live => frames_guard (flatReply_bulk none) (frames_bind fun _ => ?_)
  refine frames_withLocks (frames_found (flatReply_bulk none) flatReply_wrongType fun srcList => ?_)
  dsimp only
  by_cases hlen : srcList.len = 0
  · rw [if_pos hlen]
    exact frames_bind fun _ => flatReply_bulk none
  · rw [if_neg hlen]
    refine frames_found flatReply_wrongType flatReply_wrongType fun desList => ?_
    dsimp only
    cases (if decide (toLower srcDrc = ascii "left") = true then srcList.lPop
      else srcList.rPop).2 with
    | none => trivial
    | some val =>
      exact frames_bind fun _ => frames_bind fun _ => frames_bind fun _ => flatReply_bulk val

/-! ## Sets -/

/-- SCARD replies with the size. -/
theorem sCardSet_frames : Frames (sCardSet cmd : Cmd F _ _) :=
  frames_checked rfl rfl (frames_bind fun _ =>
    frames_reading (flatReply_int 0) fun _ => flatReply_int _)

/-- SISMEMBER replies with 0 or 1. -/
theorem sIsMemberSet_frames : Frames (sIsMemberSet cmd : Cmd F _ _) :=
  frames_checked rfl rfl (frames_bind fun _ => frames_bind fun _ =>
    frames_reading (flatReply_int 0) fun _ => flatReply_int _)

/-- SMEMBERS lists the members. -/
theorem sMembersSet_frames : Frames (sMembersSet cmd : Cmd F _ _) :=
  frames_checked rfl rfl (frames_bind fun _ =>
    frames_reading flatReply_emptyArray membersReply_frames)

/-- SRANDMEMBER lists members. -/
theorem sRandMemberSet_frames : Frames (sRandMemberSet cmd : Cmd F _ _) := by
  refine frames_checked rfl rfl (frames_bind fun count => ?_)
  cases count with
  | error e => exact flat_err rfl
  | ok count =>
    refine frames_bind fun key => frames_reading (flatReply_bulk none) fun set => ?_
    exact frames_bind fun members => frames_guard (flatReply_bulk none) (flatReply_bulks _)

/-- SUNION lists the members of the union. -/
theorem sUnionSet_frames : Frames (sUnionSet cmd : Cmd F _ _) := by
  refine frames_checked rfl rfl (frames_bind fun keys => frames_guard flatReply_emptyArray ?_)
  refine frames_withRLocks (frames_bind fun sets => ?_)
  rcases sets with _ | _ | ⟨set, sets⟩
  · exact flatReply_wrongType
  · exact flatReply_emptyArray
  · exact membersReply_frames _

/-- SINTER lists those of the intersection. -/
theorem sInterSet_frames : Frames (sInterSet cmd : Cmd F _ _) := by
  refine frames_checked rfl rfl (frames_bind fun _ =>
    frames_withRLocks (frames_bind fun sets => ?_))
  cases sets with
  | none => exact flatReply_wrongType
  | some sets => exact frames_bind fun res => membersReply_frames res

/-- SDIFF lists those of the difference. -/
theorem sDiffSet_frames : Frames (sDiffSet cmd : Cmd F _ _) := by
  refine frames_checked rfl rfl (frames_bind fun _ => frames_withRLocks (frames_bind fun key => ?_))
  refine frames_found flatReply_emptyArray flatReply_wrongType fun primSet => ?_
  dsimp only
  by_cases hlen : (cmd.tail.map str).length = 1
  · rw [if_pos hlen]
    exact membersReply_frames primSet
  · rw [if_neg hlen]
    refine frames_bind fun sets => ?_
    cases sets with
    | none => exact flatReply_wrongType
    | some sets => exact membersReply_frames _

/-- SUNIONSTORE. -/
theorem sUnionStoreSet_frames : Frames (sUnionStoreSet cmd : Cmd F _ _) :=
  frames_checked rfl rfl (storing_frames cmd unionOf_givesUpFlat
    fun desKey res => frames_bind fun _ => storeSet_frames desKey res)

/-- SINTERSTORE. -/
theorem sInterStoreSet_frames : Frames (sInterStoreSet cmd : Cmd F _ _) :=
  frames_checked rfl rfl (storing_frames cmd interOf_givesUpFlat
    fun desKey res => frames_withLocks (storeSet_frames desKey res))

/-- SDIFFSTORE. -/
theorem sDiffStoreSet_frames : Frames (sDiffStoreSet cmd : Cmd F _ _) :=
  frames_checked rfl rfl (storing_frames cmd diffOf_givesUpFlat
    fun desKey res => frames_withLocks (storeSet_frames desKey res))

/-- SADD counts the members that are new. -/
theorem sAddSet_frames : Frames (sAddSet cmd : Cmd F _ _) := by
  refine frames_checked rfl rfl (frames_bind fun key => frames_bind fun live => frames_withLocks ?_)
  exact frames_found flatReply_wrongType flatReply_wrongType fun set =>
    frames_bind fun _ => flatReply_int _

/-- SREM counts the members it has removed. -/
theorem sRemSet_frames : Frames (sRemSet cmd : Cmd F _ _) := by
  refine frames_checked rfl rfl (frames_bind fun key => frames_bind fun live => ?_)
  refine frames_guard (flatReply_int 0) (frames_withLocks ?_)
  refine frames_found (flatReply_int 0) flatReply_wrongType fun set => ?_
  exact frames_bind fun _ => frames_bind fun _ => flatReply_int _

/-- SMOVE replies with 0 or 1. -/
theorem sMoveSet_frames : Frames (sMoveSet cmd : Cmd F _ _) := by
  refine frames_checked rfl rfl (frames_bind fun srcKey => frames_bind fun desKey => ?_)
  refine frames_bind fun val => frames_bind fun _ => frames_bind fun live => ?_
  refine frames_guard (flatReply_int 0) (frames_withLocks ?_)
  refine frames_found (flatReply_int 0) flatReply_wrongType fun srcSet => ?_
  refine frames_found ?_ flatReply_wrongType fun desSet => ?_
  · exact frames_guard (flatReply_int 0) (frames_bind fun _ => frames_bind fun _ => flatReply_int 1)
  · exact frames_guard (flatReply_int 0) (frames_bind fun _ => frames_bind fun _ => flatReply_int 1)

/-- SPOP echoes what it has taken in bulk strings. -/
theorem sPopSet_frames : Frames (sPopSet cmd : Cmd F _ _) := by
  refine frames_checked rfl rfl (frames_bind fun count => ?_)
  cases count with
  | error e => exact flat_err rfl
  | ok count =>
    refine frames_guard (flat_err rfl) (frames_bind fun key => frames_bind fun live => ?_)
    refine frames_guard (flatReply_bulk none) (frames_withLocks ?_)
    refine frames_found (flatReply_bulk none) flatReply_wrongType fun set => ?_
    refine frames_guard flatReply_emptyArray ?_
    by_cases hone : count = 1
    · rw [if_pos hone]
      exact frames_bind fun _ => frames_bind fun _ => frames_bind fun _ => flatReply_bulk _
    · rw [if_neg hone]
      exact frames_bind fun _ => frames_bind fun _ => frames_bind fun _ => flatReply_bulks _

/-! ## CLIENT, CONFIG, SCAN, INFO and QUIT -/

/-- CONFIG GET lists names and values; the other forms reply OK. -/
theorem infoConfig_frames (host : Host) : Frames (infoConfig host cmd : Cmd F _ _) := by
  refine frames_guard (flat_err rfl) (frames_bind fun sub => frames_ite ?_ (frames_ite ?_
    (frames_ite ?_ (flat_err rfl))))
  · exact frames_guard (flat_err rfl) (frames_bind fun _ => flatReply_bulks _)
  · exact frames_guard (flat_err rfl) (flat_status rfl)
  · exact frames_guard (flat_err rfl) (flat_status rfl)

/-- INFO replies with one bulk string. -/
theorem info_frames (host : Host) : Frames (info host cmd : Cmd F _ _) := by
  -- with a section or without, the rest is the same
  refine frames_checked rfl rfl (frames_ite (frames_bind fun arg => ?_) (frames_bind fun arg => ?_))
  all_goals
    exact frames_ite (frames_bind fun now => flatReply_bulk _)
      (frames_ite (flatReply_bulk _) (flatReply_bulk _))

end Plain

/-! ## Floats and sorted sets -/

section Floats

/-- Ranks that are no numbers are not echoed. -/
theorem rankArgs_flat {start stop : Bytes} (h : rankArgs start stop = .error reply) :
    FlatReply reply := by
  unfold rankArgs at h
  split at h
  · cases h
    exact flat_err rfl
  · cases h
    exact flat_err rfl
  · cases h

theorem flatReply_rank (rank : Int) :
    FlatReply (if rank = -1 then bulkReply none else intReply rank) :=
  flatReply_ite (flatReply_bulk none) (flatReply_int rank)

/-- The three removals count the members they have removed. -/
theorem removingFrom_frames (key : Bytes) (remove : ZSet F → ZSet F × Int) :
    Frames (removingFrom key remove : Cmd F _ _) :=
  frames_withLocks (frames_found (flatReply_int 0) flatReply_wrongType fun _ =>
    frames_bind fun _ => flatReply_int _)

variable [FloatText F]

theorem flatReply_nodes (zset : ZSet F) (withScores : Bool) (nodes : List Nat) :
    FlatReply (nodesReply zset withScores nodes) := flatReply_bulks _

/-- Nor are scores. -/
theorem scoreArgs_flat {minStr maxStr : Bytes}
    (h : (scoreArgs minStr maxStr : Except Reply (F × F)) = .error reply) : FlatReply reply := by
  unfold scoreArgs at h
  dsimp only at h
  split at h
  · cases h
    exact flat_err rfl
  · cases h
    exact flat_err rfl
  · cases h

variable [UnicodeTables] (cmd : Command)

/-- INCRBYFLOAT replies with the sum. -/
theorem incrByFloatString_frames : Frames (incrByFloatString cmd : Cmd F _ _) := by
  refine frames_checked rfl rfl (frames_bind fun inc => ?_)
  cases (FloatText.parse inc : Option F) with
  | none => exact flat_err rfl
  | some inc =>
    refine frames_bind fun key => frames_bind fun live => frames_withLocks
      (frames_found (frames_bind fun _ => flatReply_bulk _) flatReply_wrongType fun val => ?_)
    dsimp only
    cases (FloatText.parse (str val) : Option F) with
    | none => exact flat_err rfl
    | some floatVal => exact frames_bind fun _ => flatReply_bulk _

theorem hIncrByFloatHash_frames : Frames (hIncrByFloatHash cmd : Cmd F _ _) :=
  incrHash_frames cmd (flat_err rfl) (flat_err rfl) (flat_err rfl) fun _ => flatReply_bulk _

/-- ZCARD replies with the size. -/
theorem zCardZset_frames : Frames (zCardZset cmd : Cmd F _ _) :=
  frames_zNamed (ascii_oneLine rfl) (frames_bind fun _ =>
    frames_reading (flatReply_int 0) fun _ => flatReply_int _)

/-- ZCOUNT counts. -/
theorem zCountZset_frames : Frames (zCountZset cmd : Cmd F _ _) := by
  refine frames_zNamed (ascii_oneLine rfl) (frames_bind fun key => frames_bind fun live => ?_)
  refine frames_guard (flatReply_int 0) (frames_bind fun min => frames_bind fun max => ?_)
  cases (FloatText.parse min : Option F) with
  | none => exact flat_err rfl
  | some min =>
    cases (FloatText.parse max : Option F) with
    | none => exact flat_err rfl
    | some max => exact frames_lookingUp (flatReply_int 0) fun zset => flatReply_int _

omit [FloatText F] in
/-- Nor are options, by induction on the way through them. -/
theorem rangeOptions_flat {args : List (Option Bytes)} {o : RangeOptions}
    (h : rangeOptions args o = .error reply) : FlatReply reply := by
  fun_induction rangeOptions args o with
  | case1 => cases h
  | case2 _ _ _ _ ih => exact ih h
  | case3 =>
    cases h
    exact flat_err rfl
  | case4 =>
    cases h
    exact flat_err rfl
  | case5 _ _ _ _ _ _ _ _ _ _ _ ih => exact ih h
  | case6 _ _ _ _ _ _ ih => exact ih h
  | case7 _ _ _ _ _ ih => exact ih h

/-- Ranges by rank list members, with their scores or without. -/
theorem rangeWith_frames (range : ZSet F → Int → Int → List Nat) :
    Frames (rangeWith range cmd : Cmd F _ _) := by
  refine frames_bind fun key => frames_bind fun live => frames_guard flatReply_emptyArray ?_
  refine frames_bind fun start => frames_bind fun stop => ?_
  cases hargs : rankArgs start stop with
  | error reply => exact rankArgs_flat hargs
  | ok args =>
    refine frames_ite (frames_bind fun option => ?_) (frames_bind fun option => ?_)
    all_goals
      exact frames_lookingUp flatReply_emptyArray fun zset => flatReply_nodes zset _ _

/-- ZRANGE. -/
theorem zRangeZset_frames : Frames (zRangeZset cmd : Cmd F _ _) :=
  frames_zNamed (ascii_oneLine rfl) (rangeWith_frames cmd _)

/-- ZREVRANGE. -/
theorem zRevRangeZset_frames : Frames (zRevRangeZset cmd : Cmd F _ _) :=
  frames_zNamed (ascii_oneLine rfl) (rangeWith_frames cmd _)

/-- ZRANGEBYSCORE lists members. -/
theorem zRangeByScoreZset_frames : Frames (zRangeByScoreZset cmd : Cmd F _ _) := by
  refine frames_zNamed (ascii_oneLine rfl) (frames_bind fun key => frames_bind fun live => ?_)
  refine frames_guard flatReply_emptyArray (frames_bind fun min => frames_bind fun max => ?_)
  cases hargs : (scoreArgs min max : Except Reply (F × F)) with
  | error reply => exact scoreArgs_flat hargs
  | ok args =>
    dsimp only
    cases hoptions : rangeOptions (cmd.drop 4) ⟨false, 0, -1⟩ with
    | error reply => exact rangeOptions_flat hoptions
    | ok o => exact frames_lookingUp flatReply_emptyArray fun zset => flatReply_nodes zset _ _

/-- ZRANK. -/
theorem zRankZset_frames : Frames (zRankZset cmd : Cmd F _ _) :=
  frames_zNamed (ascii_oneLine rfl) (frames_bind fun _ => frames_bind fun _ =>
    frames_reading (flatReply_bulk none) fun _ => flatReply_rank _)

/-- ZREVRANK. -/
theorem zRevRankZset_frames : Frames (zRevRankZset cmd : Cmd F _ _) :=
  frames_zNamed (ascii_oneLine rfl) (frames_bind fun _ => frames_bind fun _ =>
    frames_reading (flatReply_bulk none) fun _ => flatReply_rank _)

/-- ZSCORE replies with a score. -/
theorem zScoreZset_frames : Frames (zScoreZset cmd : Cmd F _ _) :=
  frames_zNamed (ascii_oneLine rfl) (frames_bind fun _ => frames_bind fun _ =>
    frames_reading (flatReply_bulk none) fun _ =>
      flatReply_ite (flatReply_bulk none) (flatReply_bulk _))

/-- ZADD counts; with a wrong name it gives nil, which is written as an error. -/
theorem zAddZset_frames : Frames (zAddZset cmd : Cmd F _ _) := by
  refine frames_named flatReply_none (frames_guard (flat_err rfl) (frames_bind fun key => ?_))
  refine frames_bind fun live => frames_withLocks
    (frames_found flatReply_wrongType flatReply_wrongType fun zset => ?_)
  refine frames_bind fun r => frames_bind fun _ => ?_
  cases r.2 with
  | none => exact flat_err rfl
  | some res => exact flatReply_int res

/-- ZINCRBY replies with the sum. -/
theorem zIncrByZset_frames : Frames (zIncrByZset cmd : Cmd F _ _) := by
  refine frames_zNamed (ascii_oneLine rfl) (frames_bind fun key => frames_bind fun incr => ?_)
  cases (FloatText.parse incr : Option F) with
  | none => exact flat_err rfl
  | some incr =>
    refine frames_bind fun member => frames_bind fun live => frames_withLocks ?_
    exact frames_found flatReply_wrongType flatReply_wrongType fun zset =>
      frames_bind fun _ => frames_bind fun _ => flatReply_bulk _

/-- ZREM. -/
theorem zRemZset_frames : Frames (zRemZset cmd : Cmd F _ _) :=
  frames_zNamed (ascii_oneLine rfl) (frames_bind fun key => frames_bind fun _ =>
    frames_guard (flatReply_int 0) (removingFrom_frames key _))

theorem removingRange_frames {α : Type} {name : String} {bounds : Bytes → Bytes → Except Reply α}
    {remove : ZSet F → α → ZSet F × Int} (hname : (10 : UInt8) ∉ ascii name)
    (hbounds : ∀ {first last reply}, bounds first last = .error reply → FlatReply reply) :
    Frames (removingRange cmd name bounds remove) := by
  refine frames_zNamed hname (frames_bind fun key => frames_bind fun live => ?_)
  refine frames_guard (flatReply_int 0) (frames_bind fun first => frames_bind fun last => ?_)
  cases hargs : bounds first last with
  | error reply => exact hbounds hargs
  | ok range => exact removingFrom_frames key _

/-- ZREMRANGEBYRANK. -/
theorem zRemRangeByRankZset_frames : Frames (zRemRangeByRankZset cmd : Cmd F _ _) :=
  removingRange_frames cmd (ascii_oneLine rfl) rankArgs_flat

/-- ZREMRANGEBYSCORE. -/
theorem zRemRangeByScoreZset_frames : Frames (zRemRangeByScoreZset cmd : Cmd F _ _) :=
  removingRange_frames cmd (ascii_oneLine rfl) scoreArgs_flat

end Floats

end TinyDb
