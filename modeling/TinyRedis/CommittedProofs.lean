import TinyRedis.DeadlineProofs
import TinyRedis.RoutingProofs
import TinyRedis.SkipListSafetyProofs
import TinyRedis.ListSequenceProofs
import TinyRedis.TtlManagerProofs

/-! # No committed entry can crash a node

    `fsm.Apply` runs outside the handler's `recover`, and the log is replayed at
    every start, so a command that panics there takes the node down for good.

    What an executor can panic on is explicit in its program: an argument that is
    not there, a pair without its second half, an allocation.  `Terminates p` says
    that no way through `p` ends in one.  It is shown for every executor that
    `IsWriteCommand` lets into the log, whatever is stored: no result of the
    store leads to a panic, and the guards on the number of arguments cover every
    index used.  The loops over a skip list are the exception, since they rest on
    what is stored; the contract `soundly` has every sorted set that is written
    sound and lets it be relied on when it is read. -/

namespace TinyDb

open GoString GoStrconv GoFloat GoProgram GoProgram.Prog TinyResp TinyRespRoundTrip TinyZSet TinyTtl
  TinyHash TinyList

variable {F : Type} {s : Store F} {key : Bytes}

/-! ## Sorted sets stay sound -/

/-- A sorted set is sound; nothing is asked of other values. -/
def Value.Sound : Value F → Prop
  | ⟨.zset, z⟩ => ZSet.Sound z
  | _ => True

@[simp] theorem Value.sound_zset (z : ZSet F) : Value.Sound ⟨.zset, z⟩ ↔ z.Sound := Iff.rfl

theorem Value.sound_of_ne {v : Value F} (h : v.kind ≠ .zset) : v.Sound := by
  obtain ⟨kind, obj⟩ := v
  cases kind with
  | zset => exact absurd rfl h
  | _ => trivial

@[simp] theorem Value.sound_str (obj : Kind.str.Obj F) : Value.Sound ⟨.str, obj⟩ := trivial

@[simp] theorem Value.sound_list (obj : Kind.list.Obj F) : Value.Sound ⟨.list, obj⟩ := trivial

@[simp] theorem Value.sound_set (obj : Kind.set.Obj F) : Value.Sound ⟨.set, obj⟩ := trivial

@[simp] theorem Value.sound_hash (obj : Kind.hash.Obj F) : Value.Sound ⟨.hash, obj⟩ := trivial

/-- Every sorted set of the store is sound. -/
def Store.Sound (s : Store F) : Prop := ∀ k v, s.db.lookup k = some v → v.Sound

section Contract

variable {c : Caps}

/-- What is written is sound. -/
@[simp] def Op.WritesSound : Op F c → Prop
  | .set kind _ obj _ _ => Value.Sound ⟨kind, obj⟩
  | .setAny _ v _ _ => v.Sound
  | .update kind _ obj _ _ => Value.Sound ⟨kind, obj⟩
  | _ => True

/-- What is read is sound, and a random level is a level. -/
@[simp] def Op.ReadsSound : (o : Op F c) → o.Res → Prop
  | .get kind _ _ => fun r => ∀ obj, r = .found obj → Value.Sound ⟨kind, obj⟩
  | .getAny _ _ => fun r => ∀ v, r = some v → v.Sound
  | .level _ => IsLevel
  | _ => fun _ => True

/-- The contract. -/
noncomputable abbrev soundly : Protocol (Op F c) Op.Res Unit :=
  contract Op.WritesSound Op.ReadsSound

theorem Store.Sound.set (h : s.Sound) (key : Bytes) {v : Value F} (hv : v.Sound) :
    (s.set key v).Sound := by
  intro k v' hk
  rw [Store.set_db] at hk
  split at hk
  · exact Option.some.inj hk ▸ hv
  · exact h k v' hk

theorem Store.Sound.delete (h : s.Sound) (key : Bytes) : (s.delete key).2.Sound := by
  intro k v hk
  rw [Store.delete_db] at hk
  split at hk
  · cases hk
  · exact h k v hk

/-- **One operation** under the contract. -/
theorem Op.apply_sound {env : Env} {now : Int} {n : Nat} (h : s.Sound) (o : Op F c)
    (ho : o.WritesSound) :
    o.ReadsSound (o.apply env now n s).1 ∧ (o.apply env now n s).2.Sound := by
  cases o with
  | checkTTL key =>
    refine ⟨trivial, ?_⟩
    rcases s.checkTTL_cases key now with ⟨-, hs⟩ | ⟨-, hs⟩
    · simp only [Op.apply, hs]
      exact Store.Sound.delete (s := s.removeTTL key) h key
    · simpa only [Op.apply, hs] using h
  | get kind key hz =>
    exact ⟨fun obj hobj => h key _ (Store.get_eq_found.mp hobj), h⟩
  | getAny key hz => exact ⟨fun v hv => h key v hv, h⟩
  | set kind key obj hw hz => exact ⟨trivial, h.set key ho⟩
  | setAny key v hw hz => exact ⟨trivial, h.set key ho⟩
  | update kind key obj hw hz =>
    refine ⟨trivial, ?_⟩
    simp only [Op.apply, Store.update]
    split
    · exact h.set key ho
    · exact h
  | setIfNotExist key val hw =>
    refine ⟨trivial, ?_⟩
    simp only [Op.apply, Store.setIfNotExist]
    split
    · exact h
    · exact h.set key trivial
  | delete key hw => exact ⟨trivial, h.delete key⟩
  | setTTL key deadline hw ht =>
    refine ⟨trivial, ?_⟩
    simp only [Op.apply, Store.setTTL]
    split
    · exact h
    · exact h
  | level hr => exact ⟨env.level_range n, h⟩
  | _ => exact ⟨trivial, h⟩

/-- **A whole run** under the contract: the store stays sound, and the ending is
    as the contract's proof says. -/
theorem run_soundly {α : Type} {E : Unit → Except Abort α → Prop} {p : Cmd F c α}
    (hp : Follows soundly E () p) (env : Env) {w : World F} (h : w.store.Sound) :
    (p.run (Op.step env) w).2.store.Sound ∧ E () (p.run (Op.step env) w).1 := by
  have hstep : ∀ u (o : Op F c) v (w : World F), w.store.Sound → soundly.next u o = some v →
      soundly.rely u o (o.step env w).1 ∧ (o.step env w).2.store.Sound :=
    fun u o v w hI ho => Op.apply_sound hI o (contract_next.mp ho)
  obtain ⟨_, hI, hend⟩ := hp.run (I := fun (_ : Unit) (w : World F) => w.store.Sound) hstep h
  exact ⟨hI, hend⟩

/-- A program that has no sorted sets to write keeps the contract. -/
theorem follows_soundly_of_caps {α : Type} (hc : c.write = false ∨ c.sorted = false)
    (p : Cmd F c α) : Follows soundly (fun _ _ => True) () p := by
  induction p with
  | ret a => trivial
  | stop why => trivial
  | op o next ih =>
    refine (follows_contract_op o next).mpr ⟨?_, fun r _ => ih r⟩
    cases o with
    | set kind key obj hw hz => exact Value.sound_of_ne fun e => by simp [hw, hz e] at hc
    | setAny key v hw hz => simp [hw, hz] at hc
    | update kind key obj hw hz => exact Value.sound_of_ne fun e => by simp [hw, hz e] at hc
    | _ => trivial

end Contract

/-! ## Executors that return -/

/-- The call returns, with a value that satisfies `P`. -/
@[simp] def Returned {α : Type} (P : α → Prop) (_ : Unit) : Except Abort α → Prop
  | .ok a => P a
  | .error _ => False

/-- Every way through the program returns a value that satisfies `P`, and every
    sorted set it writes is sound if those it reads are. -/
abbrev Yields {c : Caps} {α : Type} (P : α → Prop) (p : Cmd F c α) : Prop :=
  Follows soundly (Returned P) () p

/-- No way through the program ends in a panic or an endless loop. -/
abbrev Terminates {c : Caps} {α : Type} (p : Cmd F c α) : Prop := Yields (fun _ => True) p

section Rules

variable {c : Caps} {α β : Type}

theorem Yields.bind {P : α → Prop} {Q : β → Prop} {p : Cmd F c α} {f : α → Cmd F c β}
    (hp : Yields P p) (hf : ∀ a, P a → Yields Q (f a)) : Yields Q (p >>= f) := by
  refine (follows_bind p f).mpr (hp.mono fun u e he => ?_)
  cases e with
  | ok a => exact hf a he
  | error why => exact absurd he id

/-- The locks are given back, whatever is returned. -/
theorem Yields.withLocks {P : α → Prop} {keys : List Bytes} {body : Cmd F c α} (h : Yields P body) :
    Yields P (TinyDb.withLocks keys body) := by
  refine (follows_contract_op _ _).mpr ⟨trivial, fun _ _ => (follows_defer _ _).mpr ?_⟩
  refine h.mono fun u e he => ?_
  cases e with
  | ok a => simpa using he
  | error why => exact absurd he id

theorem Yields.get {Q : β → Prop} {kind : Kind} {hk : kind ≠ .zset}
    {f : Found (kind.Obj F) → Cmd F c β} (habsent : Yields Q (f .absent))
    (hwrong : Yields Q (f .wrongType)) (hfound : ∀ obj, Yields Q (f (.found obj))) :
    Yields Q (TinyDb.get kind key hk >>= f) := by
  simp only [TinyDb.get, op_bind, ret_bind, follows_contract_op, Found.forall]
  exact ⟨trivial, fun _ => habsent, fun _ => hwrong, fun obj _ => hfound obj⟩

theorem Yields.getOrCreate {Q : β → Prop} {kind : Kind} {new : kind.Obj F} {hw : c.write = true}
    {hk : kind ≠ .zset} {f : Found (kind.Obj F) → Cmd F c β} (hwrong : Yields Q (f .wrongType))
    (hfound : ∀ obj, Yields Q (f (.found obj))) :
    Yields Q (TinyDb.getOrCreate kind key new hw hk >>= f) := by
  rw [TinyDb.getOrCreate, bind_bind]
  refine Yields.get ?_ hwrong hfound
  exact (follows_contract_op _ _).mpr ⟨Value.sound_of_ne hk, fun _ _ => hfound new⟩

theorem changing_returns {missing : Reply} {body : RedisList → Cmd F writes Reply}
    (h : ∀ list, Terminates (body list)) : Terminates (changing key missing body) :=
  Yields.bind (P := fun _ => True) (by simp) fun _ _ => follows_guard trivial fun _ =>
    Yields.withLocks (Yields.get trivial trivial h)

end Rules

section Executors

variable {cmd : Command}

attribute [local simp] changing dropIf getOrCreate getOrCreateZSet

/-! ## Keys -/

theorem delLoop_returns (keys : List (Option Bytes)) (n : Int) :
    Terminates (delLoop keys n : Cmd F _ _) := by
  induction keys generalizing n with
  | nil => trivial
  | cons key rest ih => simp [delLoop, ih]

section Plain

/-! ## Loops and helpers -/

/-- Pairs are complete when the arguments are even in number. -/
theorem pairsOf_isSome (args : List (Option Bytes)) (heven : args.length % 2 = 0) :
    ∃ pairs, pairsOf args = some pairs := by
  induction args using pairsOf.induct with
  | case1 => exact ⟨[], rfl⟩
  | case2 a => simp at heven
  | case3 k v rest ih =>
    obtain ⟨pairs, hpairs⟩ := ih (by simp at heven; omega)
    exact ⟨(str k, v) :: pairs, by rw [pairsOf, hpairs]; rfl⟩

theorem mSetLoop_returns (pairs : List (Bytes × Option Bytes)) :
    Terminates (mSetLoop pairs : Cmd F _ _) := by
  induction pairs with
  | nil => trivial
  | cons pair rest ih => simp [mSetLoop, ih]

theorem addTo_returns (key : Bytes) (inc : Int) : Terminates (addTo key inc : Cmd F _ _) := by
  refine Yields.bind (P := fun _ => True) (by simp) fun _ _ =>
    Yields.withLocks (Yields.get (by simp) trivial fun val => ?_)
  dsimp only
  cases parseInt (str val) <;> simp

theorem pushTo_returns (push : RedisList → Option Bytes → RedisList) (hlen : 1 < cmd.length) :
    Terminates (pushTo push cmd : Cmd F _ _) := by
  refine follows_strAt_bind hlen fun key => ?_
  simp

theorem popFrom_returns (pop : RedisList → RedisList × Option (Option Bytes))
    (hlen : 1 < cmd.length) : Terminates (popFrom pop cmd : Cmd F _ _) := by
  refine follows_atoiAt_bind fun cnt => ?_
  cases cnt with
  | error e => trivial
  | ok cnt =>
    refine follows_guard trivial fun _ => follows_strAt_bind hlen fun key => ?_
    simp

theorem pop_returns (set : RedisSet) : Terminates (set.pop : Cmd F _ _) := by
  refine Yields.bind (P := fun _ => True) (by simp) fun keys _ => ?_
  cases keys with
  | nil => trivial
  | cons key keys => trivial

theorem sPopLoop_returns (n : Nat) (set : RedisSet) (res : List Bytes) :
    Terminates (sPopLoop n set res : Cmd F _ _) := by
  induction n generalizing set res with
  | zero => trivial
  | succ n ih => exact (pop_returns set).bind fun r _ => follows_guard trivial fun _ => ih _ _

variable [UnicodeTables]

/-- The two checks that most executors begin with. -/
theorem returns_checked {c : Caps} {p : Prop} [Decidable p] {name : String} {bad reply : Reply}
    {body : Cmd F c Reply} (hne : cmd ≠ []) (h : ¬ p → Terminates body) :
    Terminates (named cmd name bad (if p then .ret reply else body)) :=
  follows_named hne trivial (follows_guard trivial h)

theorem delKey_returns (hne : cmd ≠ []) : Terminates (delKey cmd : Cmd F _ _) :=
  follows_named hne trivial ((delLoop_returns _ _).bind fun _ _ => trivial)

theorem optionAt_returns : Terminates (optionAt cmd : Cmd F _ _) := by
  rw [optionAt]
  by_cases hlen : cmd.length = 4
  · rw [if_pos hlen]
    exact follows_strAt_bind (by omega) fun _ => trivial
  · rw [if_neg hlen]
    trivial

theorem expireKey_returns (hne : cmd ≠ []) : Terminates (expireKey cmd : Cmd F _ _) := by
  refine follows_strAt_bind (List.length_pos_of_ne_nil hne) fun _ =>
    follows_guard trivial fun hlen => follows_strAt_bind (by omega) fun seconds => ?_
  cases parseInt seconds with
  | error e => trivial
  | ok v =>
    refine Yields.bind (P := fun _ => True) (by simp) fun now _ =>
      optionAt_returns.bind fun opt _ => follows_strAt_bind (by omega) fun key => ?_
    simp

theorem persistKey_returns (hne : cmd ≠ []) : Terminates (persistKey cmd : Cmd F _ _) := by
  refine follows_strAt_bind (List.length_pos_of_ne_nil hne) fun _ =>
    follows_guard trivial fun hlen => follows_strAt_bind (by omega) fun key => ?_
  simp

theorem renameKey_returns (hne : cmd ≠ []) : Terminates (renameKey cmd : Cmd F _ _) := by
  refine follows_strAt_bind (List.length_pos_of_ne_nil hne) fun _ =>
    follows_guard trivial fun hlen => follows_strAt_bind (by omega) fun oldName =>
      follows_strAt_bind (by omega) fun newName => ?_
  simp [Option.forall]

/-! ## Strings -/

theorem setString_returns (hne : cmd ≠ []) : Terminates (setString cmd : Cmd F _ _) := by
  refine returns_checked hne fun hlen =>
    follows_strAt_bind (by omega) fun key => follows_argAt_bind (by omega) fun val => ?_
  cases setOptions (cmd.drop 3) ⟨false, false, false, false, false, 0⟩ with
  | error reply => simp
  | ok o => simp

theorem mSetString_returns (hne : cmd ≠ []) : Terminates (mSetString cmd : Cmd F _ _) := by
  refine returns_checked hne fun hlen => ?_
  obtain ⟨pairs, hpairs⟩ := pairsOf_isSome cmd.tail (by simp; omega)
  rw [hpairs]
  exact Yields.withLocks (Yields.bind (mSetLoop_returns pairs) fun _ _ => trivial)

theorem setExString_returns (hne : cmd ≠ []) : Terminates (setExString cmd : Cmd F _ _) := by
  refine returns_checked hne fun hlen => follows_strAt_bind (by omega) fun seconds => ?_
  cases parseInt seconds with
  | error e => trivial
  | ok ex =>
    refine Yields.bind (P := fun _ => True) (by simp) fun now _ =>
      follows_strAt_bind (by omega) fun key => follows_argAt_bind (by omega) fun val => ?_
    simp

theorem setNxString_returns (hne : cmd ≠ []) : Terminates (setNxString cmd : Cmd F _ _) := by
  refine returns_checked hne fun hlen =>
    follows_strAt_bind (by omega) fun key => follows_argAt_bind (by omega) fun val => ?_
  simp

theorem incrString_returns (hne : cmd ≠ []) : Terminates (incrString cmd : Cmd F _ _) :=
  returns_checked hne fun hlen => follows_strAt_bind (by omega) fun key => addTo_returns key 1

theorem decrString_returns (hne : cmd ≠ []) : Terminates (decrString cmd : Cmd F _ _) :=
  returns_checked hne fun hlen => follows_strAt_bind (by omega) fun key => addTo_returns key (-1)

theorem appendString_returns (hne : cmd ≠ []) : Terminates (appendString cmd : Cmd F _ _) := by
  refine returns_checked hne fun hlen =>
    follows_strAt_bind (by omega) fun key => follows_argAt_bind (by omega) fun val => ?_
  simp

/-! ## Hashes -/

theorem hDelHash_returns (hne : cmd ≠ []) : Terminates (hDelHash cmd : Cmd F _ _) := by
  refine returns_checked hne fun hlen => follows_strAt_bind (by omega) fun key => ?_
  simp

theorem incrHash_returns {α : Type} {name badLength badIncr badValue : String}
    {parse : Bytes → Option α} {incrBy : RedisHash → Bytes → α → RedisHash × Option α}
    {reply : α → Reply} (hne : cmd ≠ []) :
    Terminates (incrHash cmd name badLength badIncr badValue parse incrBy reply : Cmd F _ _) := by
  refine returns_checked hne fun hlen =>
    follows_strAt_bind (by omega) fun key => follows_strAt_bind (by omega) fun field =>
      follows_strAt_bind (by omega) fun incr => ?_
  cases parse incr with
  | none => trivial
  | some incr =>
    refine Yields.bind (P := fun _ => True) (by simp) fun _ _ =>
      Yields.withLocks (Yields.getOrCreate trivial fun hash => ?_)
    dsimp only
    rcases incrBy hash field incr with ⟨hash, _ | res⟩ <;> simp

theorem hSetHash_returns (hne : cmd ≠ []) : Terminates (hSetHash cmd : Cmd F _ _) := by
  refine returns_checked hne fun hlen => follows_strAt_bind (by omega) fun key => ?_
  obtain ⟨pairs, hpairs⟩ := pairsOf_isSome (cmd.drop 2) (by simp; omega)
  simp [hpairs]

theorem hSetNxHash_returns (hne : cmd ≠ []) : Terminates (hSetNxHash cmd : Cmd F _ _) := by
  refine returns_checked hne fun hlen =>
    follows_strAt_bind (by omega) fun key => follows_strAt_bind (by omega) fun field =>
      follows_argAt_bind (by omega) fun value => ?_
  simp

/-! ## Lists -/

theorem lPushList_returns (hne : cmd ≠ []) : Terminates (lPushList cmd : Cmd F _ _) :=
  returns_checked hne fun hlen => pushTo_returns _ (by omega)

theorem rPushList_returns (hne : cmd ≠ []) : Terminates (rPushList cmd : Cmd F _ _) :=
  returns_checked hne fun hlen => pushTo_returns _ (by omega)

theorem lPopList_returns (hne : cmd ≠ []) : Terminates (lPopList cmd : Cmd F _ _) :=
  returns_checked hne fun hlen => popFrom_returns _ (by omega)

theorem rPopList_returns (hne : cmd ≠ []) : Terminates (rPopList cmd : Cmd F _ _) :=
  returns_checked hne fun hlen => popFrom_returns _ (by omega)

theorem lSetList_returns (hne : cmd ≠ []) : Terminates (lSetList cmd : Cmd F _ _) := by
  refine returns_checked hne fun hlen => follows_strAt_bind (by omega) fun index => ?_
  cases atoi index with
  | error e => trivial
  | ok index =>
    refine follows_strAt_bind (by omega) fun key => changing_returns fun list =>
      follows_argAt_bind (by omega) fun val => ?_
    rcases list.set index val with ⟨list, _ | _⟩ <;> simp

theorem lRemList_returns (hne : cmd ≠ []) : Terminates (lRemList cmd : Cmd F _ _) := by
  refine returns_checked hne fun hlen => follows_strAt_bind (by omega) fun count => ?_
  cases atoi count with
  | error e => trivial
  | ok count =>
    refine follows_strAt_bind (by omega) fun key => changing_returns fun list =>
      follows_argAt_bind (by omega) fun val => ?_
    simp

theorem lTrimList_returns (hne : cmd ≠ []) : Terminates (lTrimList cmd : Cmd F _ _) := by
  refine returns_checked hne fun hlen =>
    follows_strAt_bind (by omega) fun start => follows_strAt_bind (by omega) fun stop => ?_
  cases atoi start with
  | error e => trivial
  | ok start =>
    cases atoi stop with
    | error e => trivial
    | ok stop =>
      refine follows_strAt_bind (by omega) fun key => ?_
      simp

/-! ## Sets -/

theorem sAddSet_returns (hne : cmd ≠ []) : Terminates (sAddSet cmd : Cmd F _ _) := by
  refine returns_checked hne fun hlen => follows_strAt_bind (by omega) fun key => ?_
  simp

theorem sRemSet_returns (hne : cmd ≠ []) : Terminates (sRemSet cmd : Cmd F _ _) := by
  refine returns_checked hne fun hlen => follows_strAt_bind (by omega) fun key => ?_
  simp

theorem sMoveSet_returns (hne : cmd ≠ []) : Terminates (sMoveSet cmd : Cmd F _ _) := by
  refine returns_checked hne fun hlen =>
    follows_strAt_bind (by omega) fun srcKey => follows_strAt_bind (by omega) fun desKey =>
      follows_strAt_bind (by omega) fun val => ?_
  simp

theorem sPopSet_returns (hne : cmd ≠ []) : Terminates (sPopSet cmd : Cmd F _ _) := by
  refine returns_checked hne fun hlen => follows_atoiAt_bind fun cnt => ?_
  cases cnt with
  | error e => trivial
  | ok cnt =>
    refine follows_guard trivial fun _ => follows_strAt_bind (by omega) fun key =>
      Yields.bind (P := fun _ => True) (by simp) fun live _ => follows_guard trivial fun _ =>
        Yields.withLocks (Yields.get trivial trivial fun set => follows_guard trivial fun _ => ?_)
    by_cases hcnt : cnt = 1
    · rw [if_pos hcnt]
      exact (pop_returns set).bind fun r _ => by simp
    · rw [if_neg hcnt]
      exact (sPopLoop_returns _ set []).bind fun r _ => by simp

end Plain

/-! ## Floats and sorted sets -/

variable [FloatText F]

/-- The loop of ZADD leaves a sound set, and does not run out of arguments when
    they are even in number. -/
theorem zAddLoop_yields (args : List (Option Bytes)) (heven : args.length % 2 = 0) :
    ∀ {z : ZSet F}, z.Sound → ∀ res : Int, Yields (fun r => r.1.Sound) (zAddLoop args z res) := by
  induction args using pairsOf.induct with
  | case1 => exact fun hz res => hz
  | case2 a => simp at heven
  | case3 score member rest ih =>
    intro z hz res
    rw [zAddLoop]
    cases (FloatText.parse (str score) : Option F) with
    | none => exact hz
    | some s =>
      refine (follows_contract_op _ _).mpr ⟨trivial, fun l hl => ?_⟩
      exact ih (by simp at heven; omega) (hz.add (str member) s hl) _

theorem getOrCreateZSet_bind {β : Type} {Q : β → Prop} {f : Found (ZSet F) → Cmd F sortedWrites β}
    (hwrong : Yields Q (f .wrongType)) (hfound : ∀ z : ZSet F, z.Sound → Yields Q (f (.found z))) :
    Yields Q (getOrCreateZSet key >>= f) := by
  have hnew := hfound newZSet newZSet_sound
  simp only [getOrCreateZSet, getZSet, setZSet, op_bind, ret_bind, follows_contract_op,
    Found.forall]
  refine ⟨trivial, fun _ => ⟨newZSet_sound, fun _ _ => hnew⟩, fun _ => hwrong, fun z hz => ?_⟩
  exact hfound z (hz z rfl)

omit [FloatText F] in
theorem removingFrom_returns {remove : ZSet F → ZSet F × Int}
    (h : ∀ z : ZSet F, z.Sound → (remove z).1.Sound) : Terminates (removingFrom key remove) := by
  refine Yields.withLocks ?_
  simp only [getZSet, op_bind, ret_bind, follows_contract_op, Found.forall]
  refine ⟨trivial, fun _ => trivial, fun _ => trivial, fun z hz => ?_⟩
  exact (follows_contract_op _ _).mpr ⟨h z (hz z rfl), fun _ _ => trivial⟩

variable [UnicodeTables]

theorem zAddZset_returns (hne : cmd ≠ []) : Terminates (zAddZset cmd : Cmd F _ _) := by
  refine returns_checked hne fun hlen =>
    follows_strAt_bind (by omega) fun key => Yields.bind (P := fun _ => True) (by simp) fun _ _ =>
      Yields.withLocks (getOrCreateZSet_bind trivial fun z hz => ?_)
  refine (zAddLoop_yields (cmd.drop 2) (by simp; omega) hz 0).bind fun r hr => ?_
  refine (follows_contract_op _ _).mpr ⟨hr, fun _ _ => ?_⟩
  obtain ⟨z, _ | res⟩ := r
  · trivial
  · trivial

omit [FloatText F] in
theorem zNamed_returns {c : Caps} {name : String} {lengthOk : Bool} {body : Cmd F c Reply}
    (hne : cmd ≠ []) (h : lengthOk = true → Terminates body) :
    Terminates (zNamed cmd name lengthOk body) :=
  follows_strAt_bind (List.length_pos_of_ne_nil hne) fun _ => follows_guard trivial fun hlen =>
    h (by simpa using fun e => hlen (Or.inr e))

theorem zIncrByZset_returns (hne : cmd ≠ []) : Terminates (zIncrByZset cmd : Cmd F _ _) := by
  refine zNamed_returns hne fun hlen => ?_
  have hlen : cmd.length = 4 := of_decide_eq_true hlen
  refine follows_strAt_bind (by omega) fun key => follows_strAt_bind (by omega) fun incr => ?_
  cases (FloatText.parse incr : Option F) with
  | none => trivial
  | some incr =>
    refine follows_strAt_bind (by omega) fun member => Yields.bind (P := fun _ => True) (by simp)
      fun _ _ => Yields.withLocks (getOrCreateZSet_bind trivial fun z hz => ?_)
    refine (follows_contract_op _ _).mpr ⟨trivial, fun l hl => ?_⟩
    exact (follows_contract_op _ _).mpr ⟨hz.incrBy member incr hl, fun _ _ => trivial⟩

theorem zRemZset_returns (hne : cmd ≠ []) : Terminates (zRemZset cmd : Cmd F _ _) := by
  refine zNamed_returns hne fun hlen => ?_
  have hlen : cmd.length ≥ 3 := of_decide_eq_true hlen
  refine follows_strAt_bind (by omega) fun key => Yields.bind (P := fun _ => True) (by simp)
    fun _ _ => follows_guard trivial fun _ => removingFrom_returns fun z hz => ?_
  exact ZSet.Sound.removeAll _ hz

omit [FloatText F] in
theorem removingRange_returns {α : Type} {name : String} {bounds : Bytes → Bytes → Except Reply α}
    {remove : ZSet F → α → ZSet F × Int} (hne : cmd ≠ [])
    (h : ∀ z range, z.Sound → (remove z range).1.Sound) :
    Terminates (removingRange cmd name bounds remove) := by
  refine zNamed_returns hne fun hlen => ?_
  have hlen : cmd.length = 4 := of_decide_eq_true hlen
  refine follows_strAt_bind (by omega) fun key => Yields.bind (P := fun _ => True) (by simp)
    fun _ _ => follows_guard trivial fun _ => follows_strAt_bind (by omega) fun first =>
      follows_strAt_bind (by omega) fun last => ?_
  rcases bounds first last with reply | range
  · trivial
  · exact removingFrom_returns fun z hz => h z range hz

/-- Either the executor returns, or it is not routed through the log and has no
    sorted sets to write. -/
def Committable (entry : String × Executor F) : Prop :=
  (∀ cmd, cmd ≠ [] → Terminates (entry.2.body cmd)) ∨
    (entry.1 ∉ routedWrites ∧ (entry.2.caps.write = false ∨ entry.2.caps.sorted = false))

/-- **Every executor that the log can reach returns.** -/
theorem cmdTable_committable (host : Host) :
    ∀ entry ∈ (cmdTable host : List (String × Executor F)), Committable entry := by
  have read : ∀ {name : String} {e : Executor F}, name ∉ routedWrites → e.caps.write = false →
      Committable (name, e) := fun hname hcaps => .inr ⟨hname, .inl hcaps⟩
  have unrouted : ∀ {name : String} {e : Executor F}, name ∉ routedWrites →
      e.caps.sorted = false → Committable (name, e) := fun hname hcaps => .inr ⟨hname, .inr hcaps⟩
  simp only [cmdTable, List.forall_mem_cons]
  exact ⟨read (by decide) rfl, .inl fun _ => delKey_returns, read (by decide) rfl,
    read (by decide) rfl, .inl fun _ => expireKey_returns, .inl fun _ => persistKey_returns,
    read (by decide) rfl, read (by decide) rfl, .inl fun _ => renameKey_returns,
    .inl fun _ => setString_returns, read (by decide) rfl, unrouted (by decide) rfl,
    read (by decide) rfl, .inl fun _ => mSetString_returns, read (by decide) rfl,
    .inl fun _ => setExString_returns, .inl fun _ => setNxString_returns, read (by decide) rfl,
    .inl fun _ => incrString_returns, unrouted (by decide) rfl, .inl fun _ => decrString_returns,
    unrouted (by decide) rfl, unrouted (by decide) rfl, .inl fun _ => appendString_returns,
    .inl fun _ => hDelHash_returns, read (by decide) rfl, read (by decide) rfl,
    read (by decide) rfl, .inl fun _ => incrHash_returns, .inl fun _ => incrHash_returns,
    read (by decide) rfl, read (by decide) rfl, read (by decide) rfl,
    .inl fun _ => hSetHash_returns, .inl fun _ => hSetNxHash_returns, read (by decide) rfl,
    read (by decide) rfl, read (by decide) rfl, read (by decide) rfl, read (by decide) rfl,
    read (by decide) rfl, .inl fun _ => lPopList_returns, .inl fun _ => rPopList_returns,
    .inl fun _ => lPushList_returns, unrouted (by decide) rfl, .inl fun _ => rPushList_returns,
    unrouted (by decide) rfl, .inl fun _ => lSetList_returns, .inl fun _ => lRemList_returns,
    .inl fun _ => lTrimList_returns, read (by decide) rfl, unrouted (by decide) rfl,
    .inl fun _ => sAddSet_returns, read (by decide) rfl, read (by decide) rfl,
    unrouted (by decide) rfl, read (by decide) rfl, unrouted (by decide) rfl,
    read (by decide) rfl, read (by decide) rfl, .inl fun _ => sMoveSet_returns,
    .inl fun _ => sPopSet_returns, read (by decide) rfl, .inl fun _ => sRemSet_returns,
    read (by decide) rfl, unrouted (by decide) rfl, .inl fun _ => zAddZset_returns,
    read (by decide) rfl, read (by decide) rfl, read (by decide) rfl, read (by decide) rfl,
    read (by decide) rfl, read (by decide) rfl, read (by decide) rfl,
    .inl fun _ => zRemZset_returns, .inl fun _ hne => removingRange_returns hne
      fun _ _ hz => hz.remRangeByRank _ _,
    .inl fun _ hne => removingRange_returns hne fun _ _ hz => hz.remRangeByScore _ _,
    read (by decide) rfl,
    .inl fun _ => zIncrByZset_returns, read (by decide) rfl, read (by decide) rfl,
    read (by decide) rfl, read (by decide) rfl, read (by decide) rfl, by simp⟩

end Executors

/-! ## The names in the log -/

theorem lowerASCII_upperASCII (c : UInt8) : lowerASCII (upperASCII c) = lowerASCII c := by
  revert c
  decide +kernel

theorem writeNames_isASCII : ∀ up ∈ writeNames, isASCII (ascii up) = true := by decide

section Log

variable [UnicodeTables] [FloatText F]

/-- A registered name that a name on the list of `IsWriteCommand` is lowered to
    is one of the routed ones. -/
theorem cmdTable_routed (host : Host) :
    ∀ entry ∈ (cmdTable host : List (String × Executor F)), ∀ up ∈ writeNames,
      ascii entry.1 = (ascii up).map lowerASCII → entry.1 ∈ routedWrites := by
  have hall : ((cmdTable host : List (String × Executor F)).map Prod.fst).all (fun name =>
      writeNames.all fun up =>
        decide (ascii name = (ascii up).map lowerASCII → name ∈ routedWrites)) = true := by
    simp only [cmdTable, List.map_cons, List.map_nil]
    decide +kernel
  intro entry hmem up hup
  have hname := List.all_eq_true.mp hall entry.1 (List.mem_map_of_mem hmem)
  exact of_decide_eq_true (List.all_eq_true.mp hname up hup)

theorem cmdTable_isASCII (host : Host) :
    ∀ entry ∈ (cmdTable host : List (String × Executor F)), isASCII (ascii entry.1) = true := by
  have hall : ((cmdTable host : List (String × Executor F)).map Prod.fst).all (fun name =>
      isASCII (ascii name)) = true := by
    simp only [cmdTable, List.map_cons, List.map_nil]
    decide +kernel
  intro entry hmem
  exact List.all_eq_true.mp hall entry.1 (List.mem_map_of_mem hmem)

/-- What `IsWriteCommand` accepts is executed by a routed executor, if by any. -/
theorem routed_of_isWriteCommand (hcase : CasesApart) {host : Host} {cmd : Command}
    (hwrite : isWriteCommand cmd = true) {name : String} {e : Executor F}
    (hmem : (name, e) ∈ cmdTable host) (hname : ascii name = toLower (cmdName cmd)) :
    name ∈ routedWrites := by
  have hne : cmd ≠ [] := by
    rintro rfl
    cases hwrite
  rw [isWriteCommand, if_neg hne] at hwrite
  obtain ⟨up, hup, hupper⟩ := List.any_eq_true.mp hwrite
  have hupper : toUpper (cmdName cmd) = ascii up := of_decide_eq_true hupper
  have hascii : isASCII (cmdName cmd) = true := by
    refine isASCII_of_cases hcase ?_ ?_
    · rw [hupper]
      exact writeNames_isASCII up hup
    · rw [← hname]
      exact cmdTable_isASCII host _ hmem
  refine cmdTable_routed host _ hmem up hup ?_
  show ascii name = _
  rw [hname, ← hupper, toLower, toUpper, if_pos hascii, if_pos hascii, List.map_map]
  exact List.map_congr_left fun c _ => (lowerASCII_upperASCII c).symm

/-! ## Runs -/

/-- **Every command** leaves the sorted sets sound. -/
theorem execCommand_sound (host : Host) (env : Env) (cmd : Command) {w : World F}
    (h : w.store.Sound) : (execCommand host env cmd w).2.store.Sound := by
  rcases execCommand_cases host env cmd w with
    ⟨reply, hrun, -⟩ | ⟨name, e, hmem, -, -, hne, hrun⟩
  · rw [hrun]
    exact h
  · rw [hrun]
    rcases cmdTable_committable host _ hmem with hret | ⟨-, hcaps⟩
    · exact (run_soundly (hret cmd hne) env h).1
    · exact (run_soundly (follows_soundly_of_caps hcaps _) env h).1

omit [UnicodeTables] [FloatText F] in
theorem cleanup_sound (h : s.Sound) (now : Int) : (s.cleanup now).Sound := by
  unfold Store.cleanup
  generalize s.dueKeys now = keys
  induction keys generalizing s with
  | nil => exact h
  | cons key rest ih => exact ih (Store.Sound.delete (s := s.removeTTL key) h key)

theorem runEvents_sound (host : Host) (env : Env) (events : List Event) :
    ∀ {w : World F}, w.store.Sound → (runEvents host env events w).store.Sound := by
  induction events with
  | nil => exact fun h => h
  | cons event rest ih =>
    intro w h
    refine ih ?_
    cases event with
    | command cmd => exact execCommand_sound host env cmd h
    | cleanup => exact cleanup_sound h _

/-- **Every command that the log holds** returns. -/
theorem execCommand_returns (hcase : CasesApart) (host : Host) (env : Env) {cmd : Command}
    (hwrite : isWriteCommand cmd = true) {w : World F} (h : w.store.Sound) :
    ∃ reply, (execCommand host env cmd w).1 = .ok reply := by
  rcases execCommand_cases host env cmd w with
    ⟨reply, hrun, -⟩ | ⟨name, e, hmem, hname, -, hne, hrun⟩
  · rw [hrun]
    exact ⟨reply, rfl⟩
  · rw [hrun]
    rcases cmdTable_committable host _ hmem with hret | ⟨hnot, -⟩
    · have hend := (run_soundly (hret cmd hne) env h).2
      cases hres : ((e.body cmd).run (Op.step env) w).1 with
      | ok reply => exact ⟨reply, rfl⟩
      | error why =>
        rw [hres] at hend
        exact absurd hend id
    · exact absurd (routed_of_isWriteCommand hcase hwrite hmem hname) hnot

/-- **No committed entry can crash a node.** In every state that commands and
    cleanups lead to, `fsm.Apply` of an entry that holds a command accepted by
    `IsWriteCommand` returns reply bytes; and what its loops and pointers rest on
    holds there.  Every sorted set has its levels within the arrays and its
    chains of pointers end; calls on a linked list never follow a nil link; and
    the position that an item of the TTL index keeps is one of its heap. -/
theorem committed_entry_returns (hcase : CasesApart) (host : Host) (env : Env) (events : List Event)
    (cmd : Command) (hwrite : isWriteCommand cmd = true) (halloc : AllocatableCommand cmd) :
    (∃ reply, (fsmApply host env (encodeCommand cmd)
      (runEvents host env events (emptyWorld : World F))).1 = .ok reply) ∧
    (∀ k z, (runEvents host env events (emptyWorld : World F)).store.db.lookup k =
        some ⟨.zset, z⟩ → IsLevel z.level ∧
      ∀ i p, ∃ l, LinkedChain.Chain (fun q => (z.mem q).forward i) p l ∧ l.length ≤ z.fresh) ∧
    (∀ ops : List ListOp, ∃ res, ListOp.runAll ops NodeList.newList = some res) ∧
    ∀ (sum64 : Bytes → UInt64) (shardHint : Int) (ops : List TtlOp),
      ∀ s ∈ (runTtl sum64 (newTTLManager shardHint) ops).shards, ∀ k p, s.keys k = some p →
        ∃ i, (s.items p).index = Int.ofNat i ∧ s.heap[i]? = some p := by
  have hempty : (emptyWorld : World F).store.Sound := fun k v hk => by cases hk
  have hsound := runEvents_sound host env events hempty
  refine ⟨?_, fun k z hk => ?_, fun ops => ?_, fun sum64 hint ops s hs k p hk => ?_⟩
  · obtain ⟨reply, hreply⟩ := execCommand_returns hcase host env hwrite hsound
    refine ⟨replyBytes reply, ?_⟩
    rw [fsmApply, decode_encode halloc]
    simp only [hreply, Except.map]
  · have hz : z.Sound := hsound k _ hk
    exact ⟨hz.level, hz.chain⟩
  · obtain ⟨l, ps, hrun, -⟩ := ListOp.runAll_spec ops laid_newList
    exact ⟨_, hrun⟩
  · obtain ⟨hok, -⟩ := runTtl_ok ops _ (new_managerOk sum64 hint)
    have hs : ShardOk s := Sharded.mem_ok hok hs
    obtain ⟨-, i, hi, hp⟩ := hs.linked.held k p hk
    have hindex := hs.linked.index i hi
    unfold TtlShard.item at hindex
    rw [hp] at hindex
    refine ⟨i, hindex, ?_⟩
    rw [← hp, TtlShard.ptr, List.getD_eq_getElem?_getD, List.getElem?_eq_getElem hi]
    rfl

end Log

/-- ZREM of a member, in a state with a sorted set and a cleanup behind it. -/
theorem committed_entry_returns_zrem :
    letI := asciiTables
    ∃ reply, (fsmApply quietHost stillEnv
      (encodeCommand (words ["zRem", "z", "m"]))
      (runEvents quietHost stillEnv
        [.command (words ["ZADD", "z", "1", "m"]),
          .cleanup] (emptyWorld : World IntScore))).1 = .ok reply :=
  (@committed_entry_returns IntScore asciiTables _
    (fun _ hr hup => absurd hup (Nat.not_lt.mpr hr)) quietHost stillEnv _ _ (by decide)
    ((allocatableCommand_iff _).mpr (by decide))).1

end TinyDb
