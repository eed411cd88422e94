import TinyRedis.CommittedProofs
import TinyRedis.GrowthProofs

/-! # Commands that leave no collection empty

    A collection without elements is not to stay in the map: a command that
    removes elements deletes the key when none is left, and one that stores a new
    collection puts something into it.  In between, the key is hollow.

    The protocol `hollows` follows the keys that may be hollow while a command
    runs; what is read from any other key has elements.  `Fills q p` is that `p`,
    started with the hollow keys `q`, ends with none.  Here are the protocol, its
    rules, and the executors that keep it.  SMOVE, HDEL, ZADD and the commands that
    remove from sorted sets do not; they come in the next module. -/

namespace TinyDb

open GoString GoStrconv GoFloat GoProgram GoProgram.Prog TinyResp TinyZSet

variable {F : Type} {c : Caps} {α β : Type}

/-! ## Values without elements -/

/-- A collection with zero elements. -/
def Value.Empty : Value F → Prop
  | ⟨.str, _⟩ => False
  | ⟨.list, list⟩ => list.vals = []
  | ⟨.set, set⟩ => ∀ x, set.has x = false
  | ⟨.hash, hash⟩ => ∀ f, hash.exist f = false
  | ⟨.zset, zset⟩ => ∀ m, zset.dict m = none

/-- A set counts its members. -/
def Value.Counted : Value F → Prop
  | ⟨.set, set⟩ => set.Sized
  | _ => True

/-- A value that may stay in the map. -/
structure Value.Filled (v : Value F) : Prop where
  counted : v.Counted
  nonempty : ¬ v.Empty

theorem filled_str (val : Option Bytes) : (⟨.str, val⟩ : Value F).Filled := ⟨trivial, id⟩

theorem filled_list {list : RedisList} (h : list.vals ≠ []) : (⟨.list, list⟩ : Value F).Filled :=
  ⟨trivial, h⟩

theorem filled_set {set : RedisSet} (hsized : set.Sized) (h : set.len ≠ 0) :
    (⟨.set, set⟩ : Value F).Filled :=
  ⟨hsized, fun hnone => h (hsized.len_eq_zero.mpr hnone)⟩

theorem filled_hash {hash : RedisHash} {field : Bytes} (h : hash.exist field = true) :
    (⟨.hash, hash⟩ : Value F).Filled := by
  refine ⟨trivial, fun hnone => ?_⟩
  have := hnone field
  rw [h] at this
  cases this

theorem filled_zset {zset : ZSet F} {m : Bytes} (h : (zset.dict m).isSome = true) :
    (⟨.zset, zset⟩ : Value F).Filled := by
  refine ⟨trivial, fun hnone => ?_⟩
  rw [hnone m] at h
  cases h

/-- No key maps to a collection with zero elements, and sets count their members. -/
def Store.Filled (s : Store F) : Prop := ∀ key v, s.db.lookup key = some v → v.Filled

/-! ## The protocol -/

/-- The hollow keys after a value has been written. -/
def written (q : Set Bytes) (key : Bytes) (v : Value F) : Set Bytes :=
  {k | (k = key ∧ ¬ v.Filled) ∨ (k ≠ key ∧ k ∈ q)}

/-- The hollow keys after an operation. -/
def Op.hollow (q : Set Bytes) : Op F c → Set Bytes
  | .set kind key obj _ _ => written q key ⟨kind, obj⟩
  | .setAny key v _ _ => written q key v
  | .update kind key obj _ _ => written q key ⟨kind, obj⟩
  | .delete key _ => q \ {key}
  | _ => q

/-- What is read from a key that is not hollow has elements. -/
def Op.Sees (q : Set Bytes) : (o : Op F c) → o.Res → Prop
  | .get kind key _, r => key ∉ q → ∀ obj, r = .found obj → Value.Filled ⟨kind, obj⟩
  | .getAny key _, r => key ∉ q → ∀ v, r = some v → v.Filled
  | _, _ => True

/-- The protocol of the hollow keys; it forbids nothing. -/
@[simps] def hollows : Protocol (Op F c) Op.Res (Set Bytes) where
  next q o := some (o.hollow q)
  rely q o r := o.Sees q r

/-- The program ends with no hollow key, however it ends. -/
def Fills (q : Set Bytes) (p : Cmd F c α) : Prop := Follows hollows (fun q _ => q = ∅) q p

/-- The keys that are not hollow hold no empty collection. -/
def FilledBut (q : Set Bytes) (w : World F) : Prop :=
  ∀ key v, w.store.db.lookup key = some v → key ∉ q → v.Filled

theorem filledBut_empty (w : World F) : FilledBut ∅ w ↔ w.store.Filled :=
  ⟨fun h key v hv => h key v hv id, fun h key v hv _ => h key v hv⟩

/-- A value that is written. -/
theorem filledBut_written {q : Set Bytes} {w w' : World F} {key : Bytes} {v : Value F}
    (h : FilledBut q w)
    (hdb : ∀ k u, w'.store.db.lookup k = some u →
      (k = key ∧ u = v) ∨ (k ≠ key ∧ w.store.db.lookup k = some u)) :
    FilledBut (written q key v) w' := by
  intro k u hu hk
  rcases hdb k u hu with ⟨rfl, rfl⟩ | ⟨hne, hold⟩
  · by_contra hfilled
    exact hk (Or.inl ⟨rfl, hfilled⟩)
  · exact h k u hold fun hin => hk (Or.inr ⟨hne, hin⟩)

/-- Every operation does to the hollow keys what the protocol says. -/
theorem hollows_step (env : Env) (q : Set Bytes) (o : Op F c) (w : World F) (h : FilledBut q w) :
    o.Sees q (o.step env w).1 ∧ FilledBut (o.hollow q) (o.step env w).2 := by
  cases o with
  | get kind key hk =>
    exact ⟨fun hkey obj hobj => h key _ (Store.get_eq_found.mp hobj) hkey, h⟩
  | getAny key hk => exact ⟨fun hkey v hv => h key v hv hkey, h⟩
  | checkTTL key =>
    refine ⟨trivial, fun k v hv hk => h k v ?_ hk⟩
    rw [Op.step_checkTTL] at hv
    rcases w.store.checkTTL_cases key (env.clock w.tick) with ⟨-, heq⟩ | ⟨-, heq⟩
    · rw [heq] at hv
      by_cases hkey : k = key
      · simp [hkey] at hv
      · simpa [hkey] using hv
    · rwa [heq] at hv
  | set kind key obj hw hk =>
    refine ⟨trivial, filledBut_written h fun k u hu => ?_⟩
    by_cases hkey : k = key
    · simp only [Op.step_set, Store.set_db, if_pos hkey, Option.some.injEq] at hu
      exact Or.inl ⟨hkey, hu.symm⟩
    · simp only [Op.step_set, Store.set_db, if_neg hkey] at hu
      exact Or.inr ⟨hkey, hu⟩
  | setAny key v hw hk =>
    refine ⟨trivial, filledBut_written h fun k u hu => ?_⟩
    by_cases hkey : k = key
    · simp only [Op.step_setAny, Store.set_db, if_pos hkey, Option.some.injEq] at hu
      exact Or.inl ⟨hkey, hu.symm⟩
    · simp only [Op.step_setAny, Store.set_db, if_neg hkey] at hu
      exact Or.inr ⟨hkey, hu⟩
  | update kind key obj hw hk =>
    refine ⟨trivial, filledBut_written h fun k u hu => ?_⟩
    rw [Op.step_update] at hu
    by_cases hkey : k = key
    · subst hkey
      cases hold : w.store.db.lookup k with
      | none => simp [hold] at hu
      | some old =>
        simp only [Store.update_db, hold, Option.isSome_some, and_self, if_true,
          Option.some.injEq] at hu
        exact Or.inl ⟨rfl, hu.symm⟩
    · simp only [Store.update_db, hkey, false_and, if_false] at hu
      exact Or.inr ⟨hkey, hu⟩
  | setIfNotExist key val hw =>
    refine ⟨trivial, fun k v hv hk => ?_⟩
    rw [Op.step_setIfNotExist, Store.setIfNotExist] at hv
    by_cases hthere : (w.store.db.lookup key).isSome = true
    · rw [if_pos hthere] at hv
      exact h k v hv hk
    · rw [if_neg hthere] at hv
      by_cases hkey : k = key
      · simp only [Store.set_db, if_pos hkey, Option.some.injEq] at hv
        exact hv ▸ filled_str val
      · simp only [Store.set_db, if_neg hkey] at hv
        exact h k v hv hk
  | delete key hw =>
    refine ⟨trivial, fun k v hv hk => ?_⟩
    rw [Op.step_delete] at hv
    by_cases hkey : k = key
    · simp [hkey] at hv
    · simp only [Store.delete_db, if_neg hkey] at hv
      exact h k v hv fun hin => hk ⟨hin, hkey⟩
  | setTTL key deadline hw ht =>
    refine ⟨trivial, fun k v hv hk => h k v ?_ hk⟩
    rw [Op.step_setTTL, Store.setTTL] at hv
    split at hv
    · exact hv
    · exact hv
  | removeTTL key hw => exact ⟨trivial, h⟩
  | has key => exact ⟨trivial, h⟩
  | typeOf key => exact ⟨trivial, h⟩
  | expireAt key => exact ⟨trivial, h⟩
  | keys hr => exact ⟨trivial, h⟩
  | now ht => exact ⟨trivial, h⟩
  | order l hr => exact ⟨trivial, h⟩
  | intn n hr => exact ⟨trivial, h⟩
  | level hr => exact ⟨trivial, h⟩
  | lock ks => exact ⟨trivial, h⟩
  | unLock ks => exact ⟨trivial, h⟩
  | rLock ks => exact ⟨trivial, h⟩
  | rUnLock ks => exact ⟨trivial, h⟩

/-- **A run** of a program that ends with no hollow key. -/
theorem Fills.run {p : Cmd F c α} (h : Fills ∅ p) (env : Env) {w : World F} (hw : w.store.Filled) :
    (p.run (Op.step env) w).2.store.Filled := by
  obtain ⟨q, hq, rfl⟩ := Follows.run (I := FilledBut)
    (fun q o q' w hw hnext => by
      obtain rfl : o.hollow q = q' := Option.some.inj hnext
      exact hollows_step env q o w hw) h ((filledBut_empty w).mpr hw)
  exact (filledBut_empty _).mp hq

/-! ## Rules -/

section Rules

variable {q : Set Bytes} {kind : Kind} {key : Bytes} {cmd : Command} {i : Nat}

theorem fills_ret (a : α) : Fills ∅ (.ret a : Cmd F c α) := rfl

theorem fills_stop (why : Abort) : Fills ∅ (.stop why : Cmd F c α) := rfl

theorem Fills.congr {q' : Set Bytes} {p : Cmd F c α} (h : Fills q p) (hq : q' = q) : Fills q' p :=
  hq ▸ h

/-- An operation that leaves the hollow keys as they are. -/
theorem fills_op {o : Op F c} {next : o.Res → Cmd F c α} (hq : o.hollow q = q)
    (h : ∀ r, Fills q (next r)) : Fills q (.op o next) :=
  ⟨_, rfl, fun r _ => (h r).congr hq⟩

theorem fills_ite {p : Prop} [Decidable p] {a b : Cmd F c α} (ha : p → Fills q a)
    (hb : ¬ p → Fills q b) : Fills q (if p then a else b) :=
  (follows_ite _ _ _).mpr ⟨ha, hb⟩

theorem fills_guard {p : Prop} [Decidable p] {a : α} {body : Cmd F c α} (h : ¬ p → Fills ∅ body) :
    Fills ∅ (if p then .ret a else body) :=
  fills_ite (fun _ => fills_ret a) h

/-- A program whose first part fills what is hollow. -/
theorem fills_bind {p : Cmd F c α} {f : α → Cmd F c β} (hp : Fills q p) (hf : ∀ a, Fills ∅ (f a)) :
    Fills q (p >>= f) := by
  refine (follows_bind _ _).mpr (hp.mono ?_)
  rintro q (why | a) rfl
  · rfl
  · exact hf a

theorem fills_strAt {f : Bytes → Cmd F c α} (h : ∀ a, Fills ∅ (f a)) :
    Fills ∅ (strAt cmd i >>= f) := by
  refine fills_bind ?_ h
  rw [strAt]
  cases cmd[i]? with
  | none => exact fills_stop _
  | some a => exact fills_ret _

theorem fills_argAt {f : Option Bytes → Cmd F c α} (h : ∀ a, Fills ∅ (f a)) :
    Fills ∅ (argAt cmd i >>= f) := by
  refine fills_bind ?_ h
  rw [argAt]
  cases cmd[i]? with
  | none => exact fills_stop _
  | some a => exact fills_ret _

theorem fills_atoiAt {default : Int} {f : Except NumError Int → Cmd F c α}
    (h : ∀ r, Fills ∅ (f r)) : Fills ∅ (atoiAt cmd i default >>= f) := by
  refine fills_bind ?_ h
  rw [atoiAt]
  exact fills_ite (fun _ => fills_strAt fun _ => fills_ret _) fun _ => fills_ret _

theorem fills_checkTTL {f : Bool → Cmd F c α} (h : ∀ live, Fills q (f live)) :
    Fills q (checkTTL key >>= f) := fills_op rfl h

theorem fills_timeNow {hc : c.timed = true} {f : Int → Cmd F c α} (h : ∀ now, Fills q (f now)) :
    Fills q (timeNow hc >>= f) := fills_op rfl h

/-- The guard `if !m.CheckTTL(key)`. -/
theorem fills_live {a : α} {body : Cmd F c α} (h : Fills ∅ body) :
    Fills ∅ (checkTTL key >>= fun live => if !live then .ret a else body) :=
  fills_checkTTL fun _ => fills_guard fun _ => h

theorem fills_named [UnicodeTables] {name : String} {bad : Reply} {body : Cmd F c Reply}
    (h : Fills ∅ body) : Fills ∅ (named cmd name bad body) :=
  fills_strAt fun _ => fills_guard fun _ => h

theorem fills_zNamed [UnicodeTables] [FloatText F] {name : String} {lengthOk : Bool}
    {body : Cmd F c Reply} (h : Fills ∅ body) : Fills ∅ (zNamed cmd name lengthOk body) :=
  fills_strAt fun _ => fills_guard fun _ => h

/-- A section under write locks. -/
theorem fills_withLocks {keys : List Bytes} {body : Cmd F c α} (h : Fills ∅ body) :
    Fills ∅ (withLocks keys body) := by
  refine fills_op rfl fun _ => (follows_defer _ _).mpr (h.mono ?_)
  rintro q ((_ | _) | a) rfl
  · exact ⟨∅, rfl, fun _ _ => rfl⟩
  · rfl
  · exact ⟨∅, rfl, fun _ _ => rfl⟩

/-- Every program that cannot write. -/
theorem fills_of_reads (hc : c.write = false) (p : Cmd F c α) : Fills ∅ p := by
  induction p with
  | ret a => exact fills_ret a
  | stop why => exact fills_stop why
  | op o next ih =>
    refine fills_op ?_ ih
    cases o with
    | set kind key obj hw hk => cases hc.symm.trans hw
    | setAny key v hw hk => cases hc.symm.trans hw
    | update kind key obj hw hk => cases hc.symm.trans hw
    | delete key hw => cases hc.symm.trans hw
    | _ => rfl

-- Writing.

theorem written_filled {v : Value F} (hq : q ⊆ {key}) (hv : v.Filled) : written q key v = ∅ := by
  refine Set.eq_empty_iff_forall_notMem.mpr ?_
  rintro k (⟨-, hempty⟩ | ⟨hne, hin⟩)
  · exact hempty hv
  · exact hne (hq hin)

theorem written_subset {v : Value F} (hq : q ⊆ {key}) : written q key v ⊆ {key} := by
  rintro k (⟨hk, -⟩ | ⟨hne, hin⟩)
  · exact hk
  · exact absurd (hq hin) hne

theorem fills_get {hk : kind ≠ .zset} {f : Found (kind.Obj F) → Cmd F c α}
    (habsent : Fills ∅ (f .absent)) (hwrong : Fills ∅ (f .wrongType))
    (hfound : ∀ obj, Value.Filled ⟨kind, obj⟩ → Fills ∅ (f (.found obj))) :
    Fills ∅ (get kind key hk >>= f) := by
  refine ⟨∅, rfl, fun r hr => ?_⟩
  cases r with
  | absent => exact habsent
  | wrongType => exact hwrong
  | found obj => exact hfound obj (hr id obj rfl)

/-- A value with elements is stored. -/
theorem fills_set {obj : kind.Obj F} {hw : c.write = true} {hk : kind ≠ .zset}
    {f : Unit → Cmd F c α} (hv : Value.Filled ⟨kind, obj⟩) (h : Fills ∅ (f ())) :
    Fills ∅ (set kind key obj hw hk >>= f) :=
  ⟨_, rfl, fun _ _ => h.congr (written_filled (Set.empty_subset _) hv)⟩

/-- A value with elements is written to the key that may be hollow. -/
theorem fills_update {obj : kind.Obj F} {hw : c.write = true} {hk : kind ≠ .zset}
    {f : Unit → Cmd F c α} (hq : q ⊆ {key}) (hv : Value.Filled ⟨kind, obj⟩) (h : Fills ∅ (f ())) :
    Fills q (update kind key obj hw hk >>= f) :=
  ⟨_, rfl, fun _ _ => h.congr (written_filled hq hv)⟩

/-- The deferred deletion of a key that is not hollow unless it is deleted. -/
theorem fills_dropIf {empty : Bool} {hw : c.write = true} {f : Unit → Cmd F c α} (hq : q ⊆ {key})
    (hempty : empty = false → q = ∅) (h : Fills ∅ (f ())) :
    Fills q (dropIf empty key hw >>= f) := by
  cases empty with
  | false =>
    rw [hempty rfl]
    exact h
  | true =>
    exact ⟨_, rfl, fun _ _ => ⟨_, rfl, fun _ _ => h.congr (Set.sdiff_eq_empty.mpr hq)⟩⟩

/-- What is left of a collection is written back, and the key deleted when nothing
    is left. -/
theorem fills_update_dropIf {obj : kind.Obj F} {empty : Bool} {hw hw' : c.write = true}
    {hk : kind ≠ .zset} {f : Unit → Cmd F c α} (hv : empty = false → Value.Filled ⟨kind, obj⟩)
    (h : Fills ∅ (f ())) :
    Fills ∅ (update kind key obj hw hk >>= fun _ => dropIf empty key hw' >>= f) :=
  ⟨_, rfl, fun _ _ => fills_dropIf (written_subset (Set.empty_subset _))
    (fun hfalse => written_filled (Set.empty_subset _) (hv hfalse)) h⟩

/-- The collection at a key: with elements, or a new one at a hollow key. -/
theorem fills_getOrCreate {new : kind.Obj F} {hw : c.write = true} {hk : kind ≠ .zset}
    {f : Found (kind.Obj F) → Cmd F c α} (hwrong : Fills ∅ (f .wrongType))
    (hbody : ∀ q obj, q ⊆ {key} → (obj = new ∨ q = ∅ ∧ Value.Filled ⟨kind, obj⟩) →
      Fills q (f (.found obj))) :
    Fills ∅ (getOrCreate kind key new hw hk >>= f) := by
  rw [getOrCreate, bind_bind]
  refine ⟨∅, rfl, fun r hr => ?_⟩
  cases r with
  | absent =>
    refine ⟨_, rfl, fun _ _ => ?_⟩
    exact hbody _ new (written_subset (Set.empty_subset _)) (Or.inl rfl)
  | wrongType => exact hwrong
  | found obj => exact hbody ∅ obj (Set.empty_subset _) (Or.inr ⟨rfl, hr id obj rfl⟩)

/-- Strings are never hollow. -/
@[simp] theorem written_str (key : Bytes) (val : Option Bytes) :
    written ∅ key (⟨.str, val⟩ : Value F) = ∅ :=
  written_filled (Set.empty_subset _) (filled_str val)

theorem fills_delete {hw : c.write = true} {f : Int → Cmd F c α} (h : ∀ n, Fills ∅ (f n)) :
    Fills ∅ (delete key hw >>= f) := fills_op (Set.empty_sdiff _) h

end Rules

section Plain

/-! ## Loops and helpers -/

theorem delLoop_fills (keys : List (Option Bytes)) (n : Int) :
    Fills ∅ (delLoop keys n : Cmd F writes Int) := by
  induction keys generalizing n with
  | nil => exact fills_ret n
  | cons key rest ih =>
    refine fills_checkTTL fun _ => fills_ite (fun _ => ih n) fun _ => ?_
    refine fills_bind (fills_withLocks (fills_delete fun _ => fills_op rfl fun _ => ?_))
      fun _ => ih _
    exact fills_ret _

theorem mSetLoop_fills (pairs : List (Bytes × Option Bytes)) :
    Fills ∅ (mSetLoop pairs : Cmd F writes Unit) := by
  induction pairs with
  | nil => exact fills_ret ()
  | cons pair rest ih =>
    obtain ⟨key, val⟩ := pair
    rw [mSetLoop]
    exact fills_bind (fills_op rfl fun _ => fills_ret _) fun _ => fills_set (filled_str val) ih

theorem addTo_fills (key : Bytes) (inc : Int) : Fills ∅ (addTo key inc : Cmd F _ _) := by
  refine fills_checkTTL fun _ => fills_withLocks (fills_get ?_ (fills_ret _) fun val _ => ?_)
  · exact fills_set (filled_str _) (fills_ret _)
  · dsimp only
    cases parseInt (str val) with
    | error e => exact fills_ret _
    | ok n => exact fills_set (filled_str _) (fills_ret _)

theorem filled_hash_set (hash : RedisHash) (field : Bytes) (value : Option Bytes) :
    (⟨.hash, hash.set field value⟩ : Value F).Filled := by
  refine @filled_hash F _ field ?_
  rw [RedisHash.exist_set]
  simp

/-- The loop of HSET leaves the fields that it sets. -/
theorem filled_hSetLoop {pairs : List (Bytes × Option Bytes)} (hne : pairs ≠ [])
    (hash : RedisHash) : (⟨.hash, (hSetLoop hash pairs).1⟩ : Value F).Filled := by
  induction pairs generalizing hash with
  | nil => exact absurd rfl hne
  | cons pair rest ih =>
    obtain ⟨field, value⟩ := pair
    cases rest with
    | nil => exact filled_hash_set hash field value
    | cons pair rest => exact ih (List.cons_ne_nil _ _) (hash.set field value)

theorem exist_insert (hash : RedisHash) (field : Bytes) (v : Option Bytes) (size : Int) :
    (⟨hash.table.insert field v, size⟩ : RedisHash).exist field = true := by
  rw [RedisHash.exist, AList.lookup_insert]
  rfl

/-- Pushing leaves something. -/
theorem foldl_push_ne {push : RedisList → Option Bytes → RedisList}
    (hpush : ∀ list val, (push list val).vals ≠ []) (vals : List (Option Bytes)) (list : RedisList)
    (h : vals ≠ [] ∨ list.vals ≠ []) : (vals.foldl push list).vals ≠ [] := by
  induction vals generalizing list with
  | nil => exact h.resolve_left fun hne => hne rfl
  | cons val vals ih => exact ih (push list val) (Or.inr (hpush list val))

theorem lPush_ne (list : RedisList) (val : Option Bytes) : (list.lPush val).vals ≠ [] :=
  List.cons_ne_nil _ _

theorem rPush_ne (list : RedisList) (val : Option Bytes) : (list.rPush val).vals ≠ [] :=
  List.append_ne_nil_of_right_ne_nil _ (List.cons_ne_nil _ _)

theorem pushTo_fills {push : RedisList → Option Bytes → RedisList} {cmd : Command}
    (hpush : ∀ list val, (push list val).vals ≠ []) (hlen : ¬ cmd.length < 3) :
    Fills ∅ (pushTo push cmd : Cmd F _ _) := by
  have hargs : cmd.drop 2 ≠ [] := by
    rw [ne_eq, List.drop_eq_nil_iff]
    omega
  refine fills_strAt fun key => fills_checkTTL fun _ => fills_withLocks
    (fills_getOrCreate (fills_ret _) fun q list hq _ => ?_)
  exact fills_update hq (filled_list (foldl_push_ne hpush _ list (Or.inl hargs))) (fills_ret _)

theorem pushToExisting_fills {push : RedisList → Option Bytes → RedisList} (cmd : Command)
    (hpush : ∀ list val, (push list val).vals ≠ []) :
    Fills ∅ (pushToExisting push cmd : Cmd F _ _) := by
  refine fills_strAt fun key => fills_checkTTL fun _ => fills_withLocks
    (fills_get (fills_ret _) (fills_ret _) fun list hlist => ?_)
  exact fills_update (Set.empty_subset _)
    (filled_list (foldl_push_ne hpush _ list (Or.inr hlist.nonempty))) (fills_ret _)

/-- A list that is not dropped for its length has elements. -/
theorem filled_of_len {list : RedisList} (h : decide (list.len = 0) = false) :
    (⟨.list, list⟩ : Value F).Filled := by
  refine filled_list fun hnil => of_decide_eq_false h ?_
  rw [RedisList.len, hnil]
  rfl

theorem popFrom_fills (pop : RedisList → RedisList × Option (Option Bytes)) (cmd : Command) :
    Fills ∅ (popFrom pop cmd : Cmd F _ _) := by
  refine fills_atoiAt fun cnt => ?_
  cases cnt with
  | error e => exact fills_ret _
  | ok cnt =>
    refine fills_guard fun _ => fills_strAt fun key => fills_live (fills_withLocks
      (fills_get (fills_ret _) (fills_ret _) fun list _ => ?_))
    exact fills_ite (fun _ => fills_update_dropIf filled_of_len (fills_ret _)) fun _ =>
      fills_update_dropIf filled_of_len (fills_ret _)

theorem fills_changing {key : Bytes} {missing : Reply} {body : RedisList → Cmd F writes Reply}
    (h : ∀ list, list.vals ≠ [] → Fills ∅ (body list)) :
    Fills ∅ (changing key missing body) :=
  fills_live (fills_withLocks (fills_get (fills_ret _) (fills_ret _) fun list hlist =>
    h list hlist.nonempty))

/-- `Set` keeps the length of a list. -/
theorem list_set_ne {list list' : RedisList} {index : Int} {val : Option Bytes}
    (hne : list.vals ≠ []) (h : list.set index val = (list', true)) : list'.vals ≠ [] := by
  unfold RedisList.set at h
  split at h
  · cases (Prod.mk.inj h).2
  · rw [← (Prod.mk.inj h).1]
    intro hnil
    have hlen := congrArg List.length hnil
    rw [List.length_set] at hlen
    exact hne (List.eq_nil_of_length_eq_zero hlen)

/-- What LMOVE writes: `rest` to the source, then something to the destination. -/
theorem fills_move {src des : Bytes} {q : Set Bytes} {rest desList : RedisList} {empty : Bool}
    {reply : Reply} (hq : q ⊆ {des}) (hdes : desList.vals ≠ [])
    (hempty : empty = false → des = src ∨ rest.vals ≠ []) :
    Fills q (do
      update .list src rest
      update .list des desList
      dropIf empty src
      return reply : Cmd F writes Reply) := by
  have hleft : ∀ k, k ∈ written (F := F) (written (F := F) q src ⟨.list, rest⟩) des
    ⟨.list, desList⟩ →
      k = src ∧ k ≠ des ∧ rest.vals = [] := by
    rintro k (⟨-, hk⟩ | ⟨hne, ⟨hk, hrest⟩ | ⟨-, hin⟩⟩)
    · exact absurd (filled_list hdes) hk
    · refine ⟨hk, hne, ?_⟩
      by_contra hnil
      exact hrest (filled_list hnil)
    · exact absurd (hq hin) hne
  refine ⟨_, rfl, fun _ _ => ⟨_, rfl, fun _ _ => fills_dropIf (fun k hk => (hleft k hk).1) ?_
    (fills_ret _)⟩⟩
  intro hkept
  refine Set.eq_empty_iff_forall_notMem.mpr fun k hk => ?_
  obtain ⟨rfl, hne, hnil⟩ := hleft k hk
  rcases hempty hkept with hsame | hsome
  · exact hne hsame.symm
  · exact hsome hnil

/-- A list with elements has one to pop at either end. -/
theorem pop_isSome {list : RedisList} (hne : list.vals ≠ []) (left : Bool) :
    ∃ val, (if left then list.lPop else list.rPop).2 = some val := by
  obtain ⟨x, xs, hx⟩ := List.exists_cons_of_ne_nil hne
  cases left with
  | true => exact ⟨x, by simp [RedisList.lPop, hx]⟩
  | false => exact ⟨_, List.getLast?_eq_some_getLast hne⟩

/-- The loop over the members is a fold. -/
theorem memberLoop_fst (op : RedisSet → Bytes → RedisSet × Int) (members : List (Option Bytes)) :
    ∀ set, (memberLoop op set members).1 =
      (members.map str).foldl (fun set member => (op set member).1) set := by
  induction members with
  | nil => exact fun set => rfl
  | cons member rest ih => exact fun set => ih (op set (str member)).1

/-- A set with a member. -/
theorem filled_set_of_has {set : RedisSet} {x : Bytes} (hsized : set.Sized)
    (hx : set.has x = true) : (⟨.set, set⟩ : Value F).Filled := by
  refine ⟨hsized, fun hnone => ?_⟩
  have hno := hnone x
  rw [hx] at hno
  cases hno

/-- A set that is not dropped for its length has members. -/
theorem filled_set_of_len {set : RedisSet} (hsized : set.Sized) (h : decide (set.len = 0) = false) :
    (⟨.set, set⟩ : Value F).Filled := filled_set hsized (of_decide_eq_false h)

/-- A program whose first part returns something that is `P`. -/
theorem fills_bind_of {P : α → Prop} {p : Cmd F c α} {f : α → Cmd F c β}
    (hp : Follows hollows (fun q e => q = ∅ ∧ ∀ a, e = .ok a → P a) ∅ p)
    (hf : ∀ a, P a → Fills ∅ (f a)) : Fills ∅ (p >>= f) := by
  refine (follows_bind _ _).mpr (hp.mono ?_)
  rintro q (why | a) ⟨rfl, hP⟩
  · rfl
  · exact hf a (hP a rfl)

theorem pop_sized {set : RedisSet} (hsized : set.Sized) : Follows hollows
    (fun q e => q = ∅ ∧ ∀ r, e = .ok r → r.1.Sized) ∅ (set.pop : Cmd F randomWrites _) := by
  refine ⟨∅, rfl, fun keys _ => ?_⟩
  cases keys with
  | nil =>
    refine ⟨rfl, ?_⟩
    rintro r ⟨⟩
    exact hsized
  | cons key rest =>
    refine ⟨rfl, ?_⟩
    rintro r ⟨⟩
    exact hsized.remove key

theorem sPopLoop_sized (n : Nat) : ∀ {set : RedisSet} (res : List Bytes), set.Sized →
    Follows hollows (fun q e => q = ∅ ∧ ∀ r, e = .ok r → r.1.Sized) ∅
      (sPopLoop n set res : Cmd F randomWrites _) := by
  induction n with
  | zero =>
    refine fun res hsized => ⟨rfl, ?_⟩
    rintro r ⟨⟩
    exact hsized
  | succ n ih =>
    intro set res hsized
    refine (follows_bind _ _).mpr ((pop_sized hsized).mono ?_)
    rintro q (why | r) ⟨rfl, hr⟩
    · exact ⟨rfl, by simp⟩
    · refine (follows_ite _ _ _).mpr ⟨fun _ => ⟨rfl, ?_⟩, fun _ => ih _ (hr r rfl)⟩
      rintro r' ⟨⟩
      exact hr r rfl

theorem liveKeys_fills (args : List (Option Bytes)) :
    Fills ∅ (liveKeys args : Cmd F c (List Bytes)) := by
  induction args with
  | nil => exact fills_ret _
  | cons key rest ih => exact fills_checkTTL fun _ => fills_bind ih fun _ => fills_ret _

theorem getSets_fills (keys : List Bytes) :
    Fills ∅ (getSets keys : Cmd F c (Option (List RedisSet))) := by
  induction keys with
  | nil => exact fills_ret _
  | cons key rest ih =>
    exact fills_get ih (fills_ret _) fun set _ => fills_bind ih fun _ => fills_ret _

theorem holdsSet_fills (key : Bytes) : Fills ∅ (holdsSet key : Cmd F _ _) :=
  fills_get (fills_ret _) (fills_ret _) fun _ _ => fills_ret _

/-- What a STORE command computes counts its members. -/
def Computes (q : Set Bytes) (e : Except Abort (Except Reply RedisSet)) : Prop :=
  q = ∅ ∧ ∀ r, e = .ok r → ∀ res, r = .ok res → res.Sized

theorem computes_ok {res : RedisSet} (h : res.Sized) : Computes ∅ (.ok (.ok res)) := by
  refine ⟨rfl, ?_⟩
  rintro r ⟨⟩ res' ⟨⟩
  exact h

theorem computes_error (reply : Reply) : Computes ∅ (.ok (.error reply)) := by
  refine ⟨rfl, ?_⟩
  rintro r ⟨⟩ res ⟨⟩

theorem computes_panic : Computes ∅ (.error .panic) := ⟨rfl, by simp⟩

/-- What comes behind a program that fills. -/
theorem computes_bind {p : Cmd F c α} {f : α → Cmd F c (Except Reply RedisSet)} (hp : Fills ∅ p)
    (hf : ∀ a, Follows hollows Computes ∅ (f a)) : Follows hollows Computes ∅ (p >>= f) := by
  refine (follows_bind _ _).mpr (hp.mono ?_)
  rintro q (why | a) rfl
  · exact ⟨rfl, by simp⟩
  · exact hf a

theorem rLockMulti_fills (keys : List Bytes) : Fills ∅ (rLockMulti keys : Cmd F c Unit) :=
  fills_op rfl fills_ret

theorem rUnLockMulti_fills (keys : List Bytes) : Fills ∅ (rUnLockMulti keys : Cmd F c Unit) :=
  fills_op rfl fills_ret

theorem unionOf_computes (keys : List Bytes) :
    Follows hollows Computes ∅ (unionOf keys : Cmd F _ _) := by
  refine computes_bind (rLockMulti_fills keys) fun _ => computes_bind (getSets_fills keys)
    fun sets => computes_bind (rUnLockMulti_fills keys) fun _ => ?_
  rcases sets with _ | _ | ⟨set, sets⟩
  · exact computes_error _
  · exact computes_error _
  · exact computes_ok (RedisSet.union_spec set sets).1

theorem interOf_computes (keys : List Bytes) :
    Follows hollows Computes ∅ (interOf keys : Cmd F _ _) := by
  refine computes_bind (rLockMulti_fills keys) fun _ => computes_bind (getSets_fills keys)
    fun sets => ?_
  cases sets with
  | none => exact computes_bind (rUnLockMulti_fills keys) fun _ => computes_error _
  | some sets =>
    dsimp only [intersectAll]
    cases sets[shortestLoop sets 0 0 (2 ^ 63 - 1)]? with
    | none => exact computes_panic
    | some primSet =>
      dsimp only
      rw [pure_eq, ret_bind]
      exact computes_bind (rUnLockMulti_fills keys) fun _ =>
        computes_ok (RedisSet.intersect_spec primSet _).1

theorem diffOf_computes (keys : List Bytes) :
    Follows hollows Computes ∅ (diffOf keys : Cmd F _ _) := by
  cases keys with
  | nil => exact computes_panic
  | cons key rest =>
    refine computes_bind (rLockMulti_fills _) fun _ =>
      computes_bind (fills_op rfl fills_ret) fun found => ?_
    cases found with
    | absent =>
      exact computes_bind (rUnLockMulti_fills _) fun _ => computes_ok RedisSet.sized_newSet
    | wrongType => exact computes_bind (rUnLockMulti_fills _) fun _ => computes_error _
    | found primSet =>
      refine computes_bind (getSets_fills rest) fun sets =>
        computes_bind (rUnLockMulti_fills _) fun _ => ?_
      cases sets with
      | none => exact computes_error _
      | some sets => exact computes_ok (RedisSet.difference_spec primSet sets).1

/-- An empty result is not stored. -/
theorem storeSet_fills (desKey : Bytes) {res : RedisSet} (hsized : res.Sized) :
    Fills ∅ (storeSet desKey res : Cmd F _ _) := by
  refine fills_bind (holdsSet_fills desKey) fun holds => fills_guard fun _ => ?_
  exact fills_ite (fun hlen => fills_set (filled_set hsized hlen) (fills_ret _)) fun _ =>
    fills_ret _

theorem storing_fills {cmd : Command} {compute : List Bytes → Cmd F writes (Except Reply RedisSet)}
    {store : Bytes → RedisSet → Cmd F writes Reply}
    (hcompute : ∀ keys, Follows hollows Computes ∅ (compute keys))
    (hstore : ∀ desKey res, res.Sized → Fills ∅ (store desKey res)) :
    Fills ∅ (storing cmd compute store) := by
  refine fills_strAt fun desKey => fills_checkTTL fun _ => fills_bind (holdsSet_fills desKey)
    fun holds => fills_guard fun _ => fills_bind (liveKeys_fills _) fun keys =>
      fills_guard fun _ => fills_bind_of (hcompute keys) fun r hr => ?_
  cases r with
  | error reply => exact fills_ret _
  | ok res => exact fills_checkTTL fun _ => hstore desKey res (hr res rfl)

variable [UnicodeTables] (cmd : Command)

/-! ## Keys -/

theorem delKey_fills : Fills ∅ (delKey cmd : Cmd F _ _) :=
  fills_named (fills_bind (delLoop_fills _ _) fun _ => fills_ret _)

theorem expireKey_fills : Fills ∅ (expireKey cmd : Cmd F _ _) := by
  refine fills_strAt fun _ => fills_guard fun _ => fills_strAt fun seconds => ?_
  cases parseInt seconds with
  | error e => exact fills_ret _
  | ok v =>
    refine fills_timeNow fun now => fills_bind ?_ fun opt => fills_strAt fun key =>
      fills_live (fills_withLocks (fills_bind (fills_op rfl fills_ret) fun current => ?_))
    · exact fills_ite (fun _ => fills_strAt fun _ => fills_ret _) fun _ => fills_ret _
    · simp [Fills, Op.hollow]

theorem persistKey_fills : Fills ∅ (persistKey cmd : Cmd F _ _) :=
  fills_strAt fun _ => fills_guard fun _ => fills_strAt fun _ => fills_live
    (fills_withLocks (fills_op rfl fun _ => fills_ret _))

/-- RENAME puts back the value that it takes. -/
theorem renameKey_fills : Fills ∅ (renameKey cmd : Cmd F _ _) := by
  refine fills_strAt fun _ => fills_guard fun _ => fills_strAt fun oldName => fills_strAt
    fun newName => fills_live (fills_withLocks ⟨∅, rfl, fun value hvalue => ?_⟩)
  cases value with
  | none => exact fills_ret _
  | some value =>
    refine fills_delete fun _ => fills_op rfl fun _ => fills_delete fun _ =>
      fills_op rfl fun _ => ⟨_, rfl, fun _ _ => ?_⟩
    exact (fills_ret _).congr (written_filled (Set.empty_subset _) (hvalue id value rfl))

/-! ## Strings -/

theorem setString_fills : Fills ∅ (setString cmd : Cmd F _ _) := by
  refine fills_named (fills_guard fun _ => fills_strAt fun key => fills_argAt fun val =>
    fills_checkTTL fun _ => ?_)
  cases setOptions (cmd.drop 3) ⟨false, false, false, false, false, 0⟩ with
  | error reply => exact fills_ret _
  | ok o =>
    refine fills_guard fun _ => fills_withLocks (fills_get ?_ (fills_ret _) fun old _ => ?_)
    · simp [Fills, Op.hollow]
    · simp [Fills, Op.hollow]

theorem setRangeString_fills : Fills ∅ (setRangeString cmd : Cmd F _ _) := by
  refine fills_named (fills_guard fun _ => fills_strAt fun offset => ?_)
  cases atoi offset with
  | error e => exact fills_ret _
  | ok offset =>
    refine fills_guard fun _ => fills_strAt fun key => fills_strAt fun val =>
      fills_checkTTL fun _ => fills_withLocks (fills_get ?_ (fills_ret _) fun old _ => ?_)
    · exact fills_ite (fun _ => fills_stop _) fun _ => fills_set (filled_str _) (fills_ret _)
    · exact fills_ite (fun _ => fills_stop _) fun _ => fills_set (filled_str _) (fills_ret _)

theorem mSetString_fills : Fills ∅ (mSetString cmd : Cmd F _ _) := by
  refine fills_named (fills_guard fun _ => ?_)
  cases pairsOf cmd.tail with
  | none => exact fills_stop _
  | some pairs => exact fills_withLocks (fills_bind (mSetLoop_fills pairs) fun _ => fills_ret _)

theorem setExString_fills : Fills ∅ (setExString cmd : Cmd F _ _) := by
  refine fills_named (fills_guard fun _ => fills_strAt fun seconds => ?_)
  cases parseInt seconds with
  | error e => exact fills_ret _
  | ok ex =>
    exact fills_timeNow fun now => fills_strAt fun key => fills_argAt fun val =>
      fills_withLocks (fills_set (filled_str val) (fills_op rfl fun _ => fills_ret _))

theorem setNxString_fills : Fills ∅ (setNxString cmd : Cmd F _ _) :=
  fills_named (fills_guard fun _ => fills_strAt fun _ => fills_argAt fun _ =>
    fills_checkTTL fun _ => fills_withLocks (fills_op rfl fun _ => fills_ret _))

theorem incrString_fills : Fills ∅ (incrString cmd : Cmd F _ _) :=
  fills_named (fills_guard fun _ => fills_strAt fun key => addTo_fills key 1)

theorem incrByString_fills : Fills ∅ (incrByString cmd : Cmd F _ _) := by
  refine fills_named (fills_guard fun _ => fills_strAt fun inc => ?_)
  cases parseInt inc with
  | error e => exact fills_ret _
  | ok inc => exact fills_strAt fun key => addTo_fills key _

theorem decrString_fills : Fills ∅ (decrString cmd : Cmd F _ _) :=
  fills_named (fills_guard fun _ => fills_strAt fun key => addTo_fills key (-1))

theorem decrByString_fills : Fills ∅ (decrByString cmd : Cmd F _ _) := by
  refine fills_named (fills_guard fun _ => fills_strAt fun dec => ?_)
  cases parseInt dec with
  | error e => exact fills_ret _
  | ok dec => exact fills_strAt fun key => addTo_fills key _

theorem appendString_fills : Fills ∅ (appendString cmd : Cmd F _ _) := by
  refine fills_named (fills_guard fun _ => fills_strAt fun key => fills_argAt fun val =>
    fills_checkTTL fun _ => fills_withLocks (fills_get ?_ (fills_ret _) fun old _ => ?_))
  · exact fills_set (filled_str _) (fills_ret _)
  · exact fills_set (filled_str _) (fills_ret _)

theorem incrByFloatString_fills [FloatText F] (cmd : Command) :
    Fills ∅ (incrByFloatString cmd : Cmd F _ _) := by
  refine fills_named (fills_guard fun _ => fills_strAt fun inc => ?_)
  cases (FloatText.parse inc : Option F) with
  | none => exact fills_ret _
  | some inc =>
    refine fills_strAt fun key => fills_checkTTL fun _ => fills_withLocks
      (fills_get ?_ (fills_ret _) fun val _ => ?_)
    · exact fills_set (filled_str _) (fills_ret _)
    · dsimp only
      cases (FloatText.parse (str val) : Option F) with
      | none => exact fills_ret _
      | some n => exact fills_set (filled_str _) (fills_ret _)

/-! ## Hashes -/

theorem hSetNxHash_fills : Fills ∅ (hSetNxHash cmd : Cmd F _ _) := by
  refine fills_named (fills_guard fun _ => fills_strAt fun key => fills_strAt fun field =>
    fills_argAt fun value => fills_checkTTL fun _ => fills_withLocks
      (fills_getOrCreate (fills_ret _) fun q hash hq hhash => ?_))
  refine fills_ite (fun hthere => ?_) fun _ => fills_update hq (filled_hash_set ..) (fills_ret _)
  -- a hash that has just been made does not have the field
  rcases hhash with rfl | ⟨rfl, -⟩
  · cases hthere
  · exact fills_ret _

theorem hSetHash_fills : Fills ∅ (hSetHash cmd : Cmd F _ _) := by
  refine fills_named (fills_guard fun hlen => fills_strAt fun key => fills_checkTTL fun _ =>
    fills_withLocks (fills_getOrCreate (fills_ret _) fun q hash hq _ => ?_))
  have heven : (cmd.drop 2).length % 2 = 0 := by
    rw [List.length_drop]
    omega
  obtain ⟨pairs, hpairs⟩ := pairsOf_isSome _ heven
  have hne : pairs ≠ [] := by
    rintro rfl
    have hzero : (cmd.drop 2).length = 0 := length_of_pairsOf hpairs
    rw [List.length_drop] at hzero
    omega
  dsimp only
  rw [hpairs]
  exact fills_update hq (filled_hSetLoop hne hash) (fills_ret _)

theorem incrHash_fills {α : Type} {name badLength badIncr badValue : String}
    {parse : Bytes → Option α} {add : α → α → α} {format : α → Bytes} {reply : α → Reply} :
    Fills ∅ (incrHash cmd name badLength badIncr badValue parse
      (RedisHash.incrWith parse add format) reply : Cmd F _ _) := by
  refine fills_named (fills_guard fun _ => fills_strAt fun key => fills_strAt fun field =>
    fills_strAt fun incr => ?_)
  cases parse incr with
  | none => exact fills_ret _
  | some incr =>
    refine fills_checkTTL fun _ => fills_withLocks
      (fills_getOrCreate (fills_ret _) fun q hash hq hhash => ?_)
    dsimp only
    rcases hash.incrWith_cases parse add format field incr with
      ⟨-, hres⟩ | ⟨hne, hres | ⟨v, res, hres⟩⟩
    · rw [hres]
      exact fills_update hq (filled_hash (exist_insert hash field _ _)) (fills_ret _)
    · -- it does not fail on a hash that has just been made
      rw [hres]
      rcases hhash with rfl | ⟨rfl, -⟩
      · exact absurd rfl hne
      · exact fills_ret _
    · rw [hres]
      exact fills_update hq (filled_hash (exist_insert hash field _ _)) (fills_ret _)

/-! ## Lists -/

theorem lPushList_fills : Fills ∅ (lPushList cmd : Cmd F _ _) :=
  fills_named (fills_guard fun hlen => pushTo_fills lPush_ne hlen)

theorem rPushList_fills : Fills ∅ (rPushList cmd : Cmd F _ _) :=
  fills_named (fills_guard fun hlen => pushTo_fills rPush_ne hlen)

theorem lPushXList_fills : Fills ∅ (lPushXList cmd : Cmd F _ _) :=
  fills_named (fills_guard fun _ => pushToExisting_fills cmd lPush_ne)

theorem rPushXList_fills : Fills ∅ (rPushXList cmd : Cmd F _ _) :=
  fills_named (fills_guard fun _ => pushToExisting_fills cmd rPush_ne)

theorem lPopList_fills : Fills ∅ (lPopList cmd : Cmd F _ _) :=
  fills_named (fills_guard fun _ => popFrom_fills _ cmd)

theorem rPopList_fills : Fills ∅ (rPopList cmd : Cmd F _ _) :=
  fills_named (fills_guard fun _ => popFrom_fills _ cmd)

theorem lSetList_fills : Fills ∅ (lSetList cmd : Cmd F _ _) := by
  refine fills_named (fills_guard fun _ => fills_strAt fun index => ?_)
  cases atoi index with
  | error e => exact fills_ret _
  | ok index =>
    refine fills_strAt fun key => fills_changing fun list hlist => fills_argAt fun val => ?_
    rcases hset : list.set index val with ⟨list', _ | _⟩
    · exact fills_ret _
    · exact fills_update (Set.empty_subset _) (filled_list (list_set_ne hlist hset)) (fills_ret _)

theorem lRemList_fills : Fills ∅ (lRemList cmd : Cmd F _ _) := by
  refine fills_named (fills_guard fun _ => fills_strAt fun count => ?_)
  cases atoi count with
  | error e => exact fills_ret _
  | ok count =>
    exact fills_strAt fun key => fills_changing fun list _ => fills_argAt fun val =>
      fills_update_dropIf filled_of_len (fills_ret _)

theorem lTrimList_fills : Fills ∅ (lTrimList cmd : Cmd F _ _) := by
  refine fills_named (fills_guard fun _ => fills_strAt fun start => fills_strAt fun stop => ?_)
  cases atoi start with
  | error e => exact fills_ret _
  | ok start =>
    cases atoi stop with
    | error e => exact fills_ret _
    | ok stop =>
      exact fills_strAt fun key => fills_changing fun list _ =>
        fills_update_dropIf filled_of_len (fills_ret _)

theorem lMoveList_fills : Fills ∅ (lMoveList cmd : Cmd F _ _) := by
  refine fills_named (fills_guard fun _ => fills_strAt fun src => fills_strAt fun des =>
    fills_strAt fun srcDrc => fills_strAt fun desDrc => fills_guard fun _ => fills_live
      (fills_checkTTL fun _ => fills_withLocks
        (fills_get (fills_ret _) (fills_ret _) fun srcList hsrc => ?_)))
  have hne : srcList.vals ≠ [] := hsrc.nonempty
  obtain ⟨val, hval⟩ := pop_isSome hne (decide (toLower srcDrc = ascii "left"))
  refine fills_ite (fun _ => ?_) fun _ => fills_getOrCreate (fills_ret _) fun q desList hq _ => ?_
  · exact fills_dropIf (Set.empty_subset _) (fun _ => rfl) (fills_ret _)
  · generalize (if decide (toLower srcDrc = ascii "left") = true then srcList.lPop
      else srcList.rPop) = r at hval
    obtain ⟨rest, popElem⟩ := r
    obtain rfl : popElem = some val := hval
    refine fills_move hq ?_ fun hkept => ?_
    · split
      · exact lPush_ne _ _
      · exact rPush_ne _ _
    · by_cases hsame : des = src
      · exact Or.inl hsame
      · rw [if_neg hsame] at hkept
        exact Or.inr (filled_of_len (F := F) hkept).nonempty

/-! ## Sets -/

theorem sAddSet_fills : Fills ∅ (sAddSet cmd : Cmd F _ _) := by
  refine fills_named (fills_guard fun hlen => fills_strAt fun key => fills_checkTTL fun _ =>
    fills_withLocks (fills_getOrCreate (fills_ret _) fun q set hq hset => ?_))
  have hsized : RedisSet.Sized set := by
    rcases hset with rfl | ⟨-, hset⟩
    · exact RedisSet.sized_newSet
    · exact hset.counted
  have hargs : (cmd.drop 2).map str ≠ [] := by
    rw [ne_eq, List.map_eq_nil_iff, List.drop_eq_nil_iff]
    omega
  obtain ⟨x, xs, hx⟩ := List.exists_cons_of_ne_nil hargs
  obtain ⟨hsized', hhas⟩ := RedisSet.foldl_add ((cmd.drop 2).map str) hsized
  rw [← memberLoop_fst RedisSet.add] at hsized' hhas
  refine fills_update hq (filled_set_of_has (x := x) hsized' ((hhas x).mpr (Or.inr ?_)))
    (fills_ret _)
  rw [hx]
  exact List.mem_cons_self

theorem sRemSet_fills : Fills ∅ (sRemSet cmd : Cmd F _ _) := by
  refine fills_named (fills_guard fun _ => fills_strAt fun key => fills_live (fills_withLocks
    (fills_get (fills_ret _) (fills_ret _) fun set hset => ?_)))
  have hsized := (RedisSet.foldl_remove ((cmd.drop 2).map str) hset.counted).1
  rw [← memberLoop_fst RedisSet.remove] at hsized
  exact fills_update_dropIf (filled_set_of_len hsized) (fills_ret _)

theorem sPopSet_fills : Fills ∅ (sPopSet cmd : Cmd F _ _) := by
  refine fills_named (fills_guard fun _ => fills_atoiAt fun count => ?_)
  cases count with
  | error e => exact fills_ret _
  | ok count =>
    refine fills_guard fun _ => fills_strAt fun key => fills_live (fills_withLocks
      (fills_get (fills_ret _) (fills_ret _) fun set hset => fills_guard fun _ => ?_))
    exact fills_ite
      (fun _ => fills_bind_of (pop_sized hset.counted) fun r hr =>
        fills_update_dropIf (filled_set_of_len hr) (fills_ret _))
      fun _ => fills_bind_of (sPopLoop_sized _ _ hset.counted) fun r hr =>
        fills_update_dropIf (filled_set_of_len hr) (fills_ret _)

/-! ## The STORE commands -/

theorem sUnionStoreSet_fills : Fills ∅ (sUnionStoreSet cmd : Cmd F _ _) :=
  fills_named (fills_guard fun _ => storing_fills unionOf_computes fun desKey _ hsized =>
    fills_bind (fills_withLocks (fills_ret _)) fun _ => storeSet_fills desKey hsized)

theorem sInterStoreSet_fills : Fills ∅ (sInterStoreSet cmd : Cmd F _ _) :=
  fills_named (fills_guard fun _ => storing_fills interOf_computes fun desKey _ hsized =>
    fills_withLocks (storeSet_fills desKey hsized))

theorem sDiffStoreSet_fills : Fills ∅ (sDiffStoreSet cmd : Cmd F _ _) :=
  fills_named (fills_guard fun _ => storing_fills diffOf_computes fun desKey _ hsized =>
    fills_withLocks (storeSet_fills desKey hsized))

/-! ## Sorted sets -/

variable [FloatText F]

omit [UnicodeTables] in
theorem isSome_dict_add_self (zset : ZSet F) (m : Bytes) (s : F) (level : Nat) :
    ((zset.add m s level).1.dict m).isSome = true := by
  have hdict := congrFun (isSome_dict_add zset m s level) m
  rw [hdict, decide_eq_true rfl, Bool.or_true]

omit [UnicodeTables] in
/-- `IncrBy` leaves the member. -/
theorem isSome_dict_incrBy (zset : ZSet F) (m : Bytes) (incr : F) (level : Nat) :
    ((zset.incrBy m incr level).1.dict m).isSome = true := by
  unfold ZSet.incrBy
  split
  · exact isSome_dict_add_self ..
  · exact isSome_dict_add_self ..

theorem zIncrByZset_fills (cmd : Command) : Fills ∅ (zIncrByZset cmd : Cmd F _ _) := by
  refine fills_zNamed (fills_strAt fun key => fills_strAt fun incr => ?_)
  cases (FloatText.parse incr : Option F) with
  | none => exact fills_ret _
  | some incr =>
    refine fills_strAt fun member => fills_checkTTL fun _ => fills_withLocks ?_
    have hbody : ∀ q (zset : ZSet F), q ⊆ {key} → Fills q (do
        let r := zset.incrBy member incr (← randomLevel)
        updateZSet key r.1
        return bulkReply (some (FloatText.formatV r.2)) : Cmd F sortedWrites Reply) := by
      intro q zset hq
      refine fills_op rfl fun level => ⟨_, rfl, fun _ _ => ?_⟩
      exact (fills_ret _).congr
        (written_filled hq (filled_zset (isSome_dict_incrBy zset member incr level)))
    refine ⟨∅, rfl, fun found _ => ?_⟩
    cases found with
    | absent => exact ⟨_, rfl, fun _ _ => hbody _ newZSet (written_subset (Set.empty_subset _))⟩
    | wrongType => exact fills_ret _
    | found zset => exact hbody ∅ zset (Set.empty_subset _)

/-! ## The table -/

/-- The executors that can leave a collection empty. -/
def emptying : List String :=
  ["hdel", "smove", "zadd", "zrem", "zremrangebyrank", "zremrangebyscore"]

/-- **The other executors leave none.** -/
theorem cmdTable_fills (host : Host) : ∀ entry ∈ (cmdTable host : List (String × Executor F)),
    entry.1 ∉ emptying → ∀ cmd, Fills ∅ (entry.2.body cmd) := by
  have hread : ∀ (p : Command → Cmd F reads Reply) (cmd : Command), Fills ∅ (p cmd) :=
    fun p cmd => fills_of_reads rfl (p cmd)
  simp only [cmdTable, List.forall_mem_cons]
  exact ⟨fun _ => hread _, fun _ => delKey_fills, fun _ => hread _, fun _ => hread _,
    fun _ => expireKey_fills, fun _ => persistKey_fills, fun _ => hread _, fun _ => hread _,
    fun _ => renameKey_fills, fun _ => setString_fills, fun _ => hread _,
    fun _ => setRangeString_fills, fun _ => hread _, fun _ => mSetString_fills, fun _ => hread _,
    fun _ => setExString_fills, fun _ => setNxString_fills, fun _ => hread _,
    fun _ => incrString_fills, fun _ => incrByString_fills, fun _ => decrString_fills,
    fun _ => decrByString_fills, fun _ => incrByFloatString_fills, fun _ => appendString_fills,
    fun h => absurd (by decide) h, fun _ => hread _, fun _ => hread _, fun _ => hread _,
    fun _ _ => incrHash_fills _, fun _ _ => incrHash_fills _, fun _ => hread _,
    fun _ => hread _, fun _ => hread _, fun _ => hSetHash_fills, fun _ => hSetNxHash_fills,
    fun _ => hread _, fun _ => hread _, fun _ => hread _, fun _ => hread _, fun _ => hread _,
    fun _ => hread _, fun _ => lPopList_fills, fun _ => rPopList_fills, fun _ => lPushList_fills,
    fun _ => lPushXList_fills, fun _ => rPushList_fills, fun _ => rPushXList_fills,
    fun _ => lSetList_fills, fun _ => lRemList_fills, fun _ => lTrimList_fills, fun _ => hread _,
    fun _ => lMoveList_fills, fun _ => sAddSet_fills, fun _ => hread _, fun _ => hread _,
    fun _ => sDiffStoreSet_fills, fun _ => hread _, fun _ => sInterStoreSet_fills,
    fun _ => hread _, fun _ => hread _, fun h => absurd (by decide) h, fun _ => sPopSet_fills,
    fun _ => hread _, fun _ => sRemSet_fills, fun _ => hread _, fun _ => sUnionStoreSet_fills,
    fun h => absurd (by decide) h, fun _ => hread _, fun _ => hread _, fun _ => hread _,
    fun _ => hread _, fun _ => hread _, fun _ => hread _, fun _ => hread _,
    fun h => absurd (by decide) h, fun h => absurd (by decide) h, fun h => absurd (by decide) h,
    fun _ => hread _, fun _ => zIncrByZset_fills, fun _ => hread _, fun _ => hread _,
    fun _ => hread _, fun _ => hread _, fun _ => hread _, by simp⟩

end Plain

end TinyDb
