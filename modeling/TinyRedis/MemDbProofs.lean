import TinyRedis.CollectionsProofs
import TinyRedis.SkipListProofs
import TinyRedis.RespStreamProofs
import TinyRedis.ProgramProofs

/-! # MemDb: the store and what a command may do to it

    A command is a program over the operations of `MemDb`: the map, the TTL
    index, the key locks, the clock, and the choices Go leaves open (map
    iteration order, random numbers).  The type of a command says what it is
    able to do: `Cmd F c` has the operations that the capabilities `c` allow
    and no others, so a command without `write` cannot change a value, and one
    without `timed` cannot read the clock or set a deadline.

    Here the store is the plain content of the map and of the TTL index.  An
    object behind a pointer is part of its key's value: `get` reads it,
    `update` writes through the pointer. -/

namespace TinyDb

open GoString GoStrconv GoProgram TinyResp TinyZSet

/-! ## Values -/

/-- The dynamic types that values have. -/
inductive Kind where
  | str
  | list
  | set
  | hash
  | zset
deriving DecidableEq, Repr

theorem Kind.str_ne : Kind.str ≠ .zset := by decide

theorem Kind.list_ne : Kind.list ≠ .zset := by decide

theorem Kind.set_ne : Kind.set ≠ .zset := by decide

theorem Kind.hash_ne : Kind.hash ≠ .zset := by decide

/-- What a value of each type is. -/
abbrev Kind.Obj (F : Type) : Kind → Type
  | .str => Option Bytes
  | .list => RedisList
  | .set => RedisSet
  | .hash => RedisHash
  | .zset => ZSet F

/-- A value of the map: a `[]byte`, or a pointer to one of the collections. -/
structure Value (F : Type) where
  kind : Kind
  obj : kind.Obj F

/-- The outcome of `m.db.Get(key)` and a type assertion. -/
inductive Found (α : Type) where
  | absent
  | wrongType
  | found (a : α)

/-- The type assertion. -/
def Value.as {F : Type} (v : Value F) (kind : Kind) : Found (kind.Obj F) :=
  if h : v.kind = kind then .found (h ▸ v.obj) else .wrongType

/-- The content of a `MemDb`: the map and the TTL index. -/
structure Store (F : Type) where
  db : GoMap (Value F)
  ttl : GoMap Int

/-- `NewMemDb`. -/
def newMemDb {F : Type} : Store F := ⟨∅, ∅⟩

namespace Store

variable {F : Type}
  {s : Store F} {kind : Kind} {key : Bytes} {now : Int} {cmd : Command} {i : Nat}
  {a : Option Bytes}

/-- `m.db.Get` and the assertion to `kind`. -/
def get (s : Store F) (kind : Kind) (key : Bytes) : Found (kind.Obj F) :=
  match s.db.lookup key with
  | none => .absent
  | some v => v.as kind

/-- `m.db.Set`. -/
def set (s : Store F) (key : Bytes) (v : Value F) : Store F := ⟨s.db.insert key v, s.ttl⟩

/-- A write through the pointer stored at `key`. -/
def update (s : Store F) (key : Bytes) (v : Value F) : Store F :=
  if (s.db.lookup key).isSome then s.set key v else s

/-- `m.db.SetIfNotExist`. -/
def setIfNotExist (s : Store F) (key : Bytes) (v : Value F) : Int × Store F :=
  if (s.db.lookup key).isSome then (0, s) else (1, s.set key v)

/-- `m.db.Delete`. -/
def delete (s : Store F) (key : Bytes) : Int × Store F :=
  if (s.db.lookup key).isSome then (1, ⟨s.db.erase key, s.ttl⟩) else (0, s)

/-- `m.ttl.RemoveTTL`. -/
def removeTTL (s : Store F) (key : Bytes) : Store F := ⟨s.db, s.ttl.erase key⟩

/-- `m.ttl.SetTTL`. -/
def putTTL (s : Store F) (key : Bytes) (expireAt : Int) : Store F :=
  ⟨s.db, s.ttl.insert key expireAt⟩

/-- `MemDb.SetTTL`. -/
def setTTL (s : Store F) (key : Bytes) (expireAt : Int) : Int × Store F :=
  if (s.db.lookup key).isSome then (1, s.putTTL key expireAt) else (0, s)

/-- `TTLManager.CheckTTL`: an entry that has come is taken out. -/
def popTTL (s : Store F) (key : Bytes) (now : Int) : Bool × Store F :=
  match s.ttl.lookup key with
  | none => (true, s)
  | some expireAt => if expireAt > now then (true, s) else (false, s.removeTTL key)

/-- `MemDb.CheckTTL`. -/
def checkTTL (s : Store F) (key : Bytes) (now : Int) : Bool × Store F :=
  match s.popTTL key now with
  | (true, s) => (true, s)
  | (false, s) => (false, (s.delete key).2)

theorem get_eq_absent :
    s.get kind key = .absent ↔ s.db.lookup key = none := by
  unfold get
  cases s.db.lookup key with
  | none => simp
  | some v =>
    by_cases h : v.kind = kind
    · simp [Value.as, h]
    · simp [Value.as, h]

theorem get_eq_wrongType :
    s.get kind key = .wrongType ↔ ∃ v, s.db.lookup key = some v ∧ v.kind ≠ kind := by
  unfold get
  cases s.db.lookup key with
  | none => simp
  | some v =>
    by_cases h : v.kind = kind
    · simp [Value.as, h]
    · simp [Value.as, h]

theorem get_eq_found {obj : kind.Obj F} :
    s.get kind key = .found obj ↔ s.db.lookup key = some ⟨kind, obj⟩ := by
  unfold get
  cases s.db.lookup key with
  | none => simp
  | some v =>
    obtain ⟨kind', obj'⟩ := v
    by_cases h : kind' = kind
    · subst h
      simp [Value.as]
    · simp [Value.as, h]

-- What each operation does to the lookups.

@[simp] theorem set_db (s : Store F) (key k : Bytes) (v : Value F) :
    (s.set key v).db.lookup k = if k = key then some v else s.db.lookup k := by
  by_cases h : k = key
  · subst h
    rw [if_pos rfl]
    exact AList.lookup_insert s.db
  · rw [if_neg h]
    exact AList.lookup_insert_ne h

@[simp] theorem set_ttl (s : Store F) (key : Bytes) (v : Value F) : (s.set key v).ttl = s.ttl := rfl

@[simp] theorem update_db (s : Store F) (key k : Bytes) (v : Value F) :
    (s.update key v).db.lookup k =
      if k = key ∧ (s.db.lookup key).isSome then some v else s.db.lookup k := by
  unfold update
  by_cases h : (s.db.lookup key).isSome
  · simp [h]
  · simp [h]

@[simp] theorem update_ttl (s : Store F) (key : Bytes) (v : Value F) :
    (s.update key v).ttl = s.ttl := by
  unfold update
  split <;> rfl

@[simp] theorem delete_db (s : Store F) (key k : Bytes) :
    (s.delete key).2.db.lookup k = if k = key then none else s.db.lookup k := by
  unfold delete
  by_cases h : k = key
  · subst h
    by_cases hk : (s.db.lookup k).isSome
    · simp [hk, AList.lookup_erase]
    · rw [if_pos rfl, if_neg hk]
      exact Option.not_isSome_iff_eq_none.mp hk
  · rw [if_neg h]
    split
    · exact AList.lookup_erase_ne h
    · rfl

@[simp] theorem delete_ttl (s : Store F) (key : Bytes) : (s.delete key).2.ttl = s.ttl := by
  unfold delete
  split <;> rfl

@[simp] theorem removeTTL_db (s : Store F) (key : Bytes) : (s.removeTTL key).db = s.db := rfl

@[simp] theorem removeTTL_ttl (s : Store F) (key k : Bytes) :
    (s.removeTTL key).ttl.lookup k = if k = key then none else s.ttl.lookup k := by
  by_cases h : k = key
  · subst h
    rw [if_pos rfl]
    exact AList.lookup_erase _ _
  · rw [if_neg h]
    exact AList.lookup_erase_ne h

/-- The same keys, values and deadlines. -/
def Same (s t : Store F) : Prop :=
  ∀ k, s.db.lookup k = t.db.lookup k ∧ s.ttl.lookup k = t.ttl.lookup k

/-- An entry of the TTL index has come by `now`. -/
def Due (s : Store F) (key : Bytes) (now : Int) : Prop := ∃ d, s.ttl.lookup key = some d ∧ d ≤ now

/-- The live data at `now`: the value and the deadline of a key that has not
    expired. -/
def live (s : Store F) (now : Int) (key : Bytes) : Option (Value F × Option Int) :=
  match s.ttl.lookup key with
  | none => (s.db.lookup key).map fun v => (v, none)
  | some d => if d ≤ now then none else (s.db.lookup key).map fun v => (v, some d)

theorem live_of_due (h : s.Due key now) :
    s.live now key = none := by
  obtain ⟨d, hd, hle⟩ := h
  simp [live, hd, hle]

theorem live_of_not_due (h : ¬ s.Due key now) :
    s.live now key = (s.db.lookup key).map fun v => (v, s.ttl.lookup key) := by
  unfold live
  cases hd : s.ttl.lookup key with
  | none => rfl
  | some d => exact if_neg fun hle => h ⟨d, hd, hle⟩

/-- Live data depends on the value and the deadline only. -/
theorem live_congr {s t : Store F} (hdb : s.db.lookup key = t.db.lookup key)
    (httl : s.ttl.lookup key = t.ttl.lookup key) :
    s.live now key = t.live now key := by
  rw [live, live, hdb, httl]

/-- `TTLManager.CheckTTL` of an entry that is due, and of any other key. -/
theorem popTTL_cases (s : Store F) (key : Bytes) (now : Int) :
    (s.Due key now ∧ s.popTTL key now = (false, s.removeTTL key)) ∨
      (¬ s.Due key now ∧ s.popTTL key now = (true, s)) := by
  unfold popTTL Due
  cases h : s.ttl.lookup key with
  | none => exact Or.inr ⟨by simp, rfl⟩
  | some d =>
    by_cases hd : d > now
    · exact Or.inr ⟨by simpa using hd, by simp [hd]⟩
    · exact Or.inl ⟨⟨d, rfl, Int.not_lt.mp hd⟩, by simp [hd]⟩

/-- `MemDb.CheckTTL`: a due key is gone, any other is left alone. -/
theorem checkTTL_cases (s : Store F) (key : Bytes) (now : Int) :
    (s.Due key now ∧ s.checkTTL key now = (false, ((s.removeTTL key).delete key).2)) ∨
      (¬ s.Due key now ∧ s.checkTTL key now = (true, s)) := by
  unfold checkTTL
  rcases s.popTTL_cases key now with ⟨hd, h⟩ | ⟨hd, h⟩
  · exact Or.inl ⟨hd, by rw [h]⟩
  · exact Or.inr ⟨hd, by rw [h]⟩

/-- `CheckTTL` is invisible in the live data, then and later. -/
theorem checkTTL_live (s : Store F) (key k : Bytes) {now T : Int} (hT : now ≤ T) :
    (s.checkTTL key now).2.live T k = s.live T k := by
  rcases s.checkTTL_cases key now with ⟨⟨d, hd, hle⟩, hs⟩ | ⟨-, hs⟩
  · rw [hs]
    by_cases hk : k = key
    · rw [hk, live_of_due (s := s) ⟨d, hd, le_trans hle hT⟩]
      simp [live]
    · exact live_congr (by simp [hk]) (by simp [hk])
  · rw [hs]

end Store

/-! ## The environment -/

/-- What a run takes from outside: the clock in unix seconds, by the number of
    operations performed; and, by the number of choices made before, the order a
    map is iterated in, `rand.Intn`, and `randomLevel`. -/
structure Env where
  clock : Nat → Int
  order : Nat → List Bytes → List Bytes
  order_perm : ∀ t l, (order t l).Perm l
  intn : Nat → Nat → Nat
  intn_lt : ∀ t n, 0 < n → intn t n < n
  level : Nat → Nat
  level_range : ∀ t, 1 ≤ level t ∧ level t ≤ maxLevel

/-- A store, the number of operations performed on it, and the number of those
    that took a choice from the environment. -/
structure World (F : Type) where
  store : Store F
  tick : Nat
  draws : Nat

/-- What a command is able to do. -/
structure Caps where
  /-- change values or deadlines -/
  write : Bool
  /-- read the clock, set a deadline -/
  timed : Bool
  /-- depend on map order or random numbers -/
  random : Bool
  /-- touch sorted sets, or values of unknown type -/
  sorted : Bool

namespace Caps

theorem canWrite (t r s : Bool) : (Caps.mk true t r s).write = true := rfl

theorem canTime (w r s : Bool) : (Caps.mk w true r s).timed = true := rfl

theorem canDraw (w t s : Bool) : (Caps.mk w t true s).random = true := rfl

theorem canSort (w t r : Bool) : (Caps.mk w t r true).sorted = true := rfl

end Caps

/-- The operations of a command with capabilities `c`. -/
inductive Op (F : Type) (c : Caps) : Type where
  | checkTTL (key : Bytes)
  | has (key : Bytes)
  | typeOf (key : Bytes)
  | get (kind : Kind) (key : Bytes) (h : kind = .zset → c.sorted = true)
  | getAny (key : Bytes) (h : c.sorted = true)
  | expireAt (key : Bytes)
  | keys (h : c.random = true)
  | set (kind : Kind) (key : Bytes) (obj : kind.Obj F) (hw : c.write = true)
      (h : kind = .zset → c.sorted = true)
  | setAny (key : Bytes) (v : Value F) (hw : c.write = true) (h : c.sorted = true)
  | update (kind : Kind) (key : Bytes) (obj : kind.Obj F) (hw : c.write = true)
      (h : kind = .zset → c.sorted = true)
  | setIfNotExist (key : Bytes) (val : Option Bytes) (hw : c.write = true)
  | delete (key : Bytes) (hw : c.write = true)
  | setTTL (key : Bytes) (expireAt : Int) (hw : c.write = true) (ht : c.timed = true)
  | removeTTL (key : Bytes) (hw : c.write = true)
  | now (h : c.timed = true)
  | order (l : List Bytes) (h : c.random = true)
  | intn (n : Nat) (h : c.random = true)
  | level (h : c.random = true)
  | lock (keys : List Bytes)
  | unLock (keys : List Bytes)
  | rLock (keys : List Bytes)
  | rUnLock (keys : List Bytes)

/-- The result of each operation. -/
abbrev Op.Res {F : Type} {c : Caps} : Op F c → Type
  | .checkTTL _ => Bool
  | .has _ => Bool
  | .typeOf _ => Option Kind
  | .get kind _ _ => Found (kind.Obj F)
  | .getAny _ _ => Option (Value F)
  | .expireAt _ => Option Int
  | .keys _ => List Bytes
  | .set .. => Unit
  | .setAny .. => Unit
  | .update .. => Unit
  | .setIfNotExist .. => Int
  | .delete .. => Int
  | .setTTL .. => Int
  | .removeTTL .. => Unit
  | .now _ => Int
  | .order _ _ => List Bytes
  | .intn _ _ => Nat
  | .level _ => Nat
  | .lock _ => Unit
  | .unLock _ => Unit
  | .rLock _ => Unit
  | .rUnLock _ => Unit

/-- What an operation does to the store at clock reading `now`, as choice number
    `d`, when no other client is running; the key locks are then always free. -/
def Op.apply {F : Type} {c : Caps} (env : Env) (now : Int) (d : Nat) :
    (o : Op F c) → Store F → o.Res × Store F
  | .checkTTL key, s => s.checkTTL key now
  | .has key, s => ((s.db.lookup key).isSome, s)
  | .typeOf key, s => ((s.db.lookup key).map Value.kind, s)
  | .get kind key _, s => (s.get kind key, s)
  | .getAny key _, s => (s.db.lookup key, s)
  | .expireAt key, s => (s.ttl.lookup key, s)
  | .keys _, s => (env.order d s.db.keys, s)
  | .set kind key obj _ _, s => ((), s.set key ⟨kind, obj⟩)
  | .setAny key v _ _, s => ((), s.set key v)
  | .update kind key obj _ _, s => ((), s.update key ⟨kind, obj⟩)
  | .setIfNotExist key val _, s => s.setIfNotExist key ⟨.str, val⟩
  | .delete key _, s => s.delete key
  | .setTTL key deadline _ _, s => s.setTTL key deadline
  | .removeTTL key _, s => ((), s.removeTTL key)
  | .now _, s => (now, s)
  | .order l _, s => (env.order d l, s)
  | .intn n _, s => (env.intn d n, s)
  | .level _, s => (env.level d, s)
  | .lock _, s => ((), s)
  | .unLock _, s => ((), s)
  | .rLock _, s => ((), s)
  | .rUnLock _, s => ((), s)

/-- Whether an operation takes a choice from the environment. -/
def Op.draws {F : Type} {c : Caps} : Op F c → Bool
  | .keys _ => true
  | .order _ _ => true
  | .intn _ _ => true
  | .level _ => true
  | _ => false

/-- One operation, one tick. -/
def Op.step {F : Type} {c : Caps} (env : Env) (o : Op F c) (w : World F) : o.Res × World F :=
  let r := o.apply env (env.clock w.tick) w.draws w.store
  (r.1, ⟨r.2, w.tick + 1, if o.draws then w.draws + 1 else w.draws⟩)

-- What each operation does, for running a command step by step.

namespace Op

variable {F : Type} {c : Caps} (env : Env) (w : World F)

@[simp] theorem step_checkTTL (key : Bytes) : (checkTTL key : Op F c).step env w =
    ((w.store.checkTTL key (env.clock w.tick)).1,
      ⟨(w.store.checkTTL key (env.clock w.tick)).2, w.tick + 1, w.draws⟩) := rfl

@[simp] theorem step_has (key : Bytes) : (has key : Op F c).step env w =
    ((w.store.db.lookup key).isSome, ⟨w.store, w.tick + 1, w.draws⟩) := rfl

@[simp] theorem step_typeOf (key : Bytes) : (typeOf key : Op F c).step env w =
    ((w.store.db.lookup key).map Value.kind, ⟨w.store, w.tick + 1, w.draws⟩) := rfl

@[simp] theorem step_get (kind : Kind) (key : Bytes) (h : kind = .zset → c.sorted = true) :
    (get kind key h).step env w = (w.store.get kind key, ⟨w.store, w.tick + 1, w.draws⟩) := rfl

@[simp] theorem step_getAny (key : Bytes) (h : c.sorted = true) :
    (getAny key h).step env w = (w.store.db.lookup key, ⟨w.store, w.tick + 1, w.draws⟩) := rfl

@[simp] theorem step_expireAt (key : Bytes) : (expireAt key : Op F c).step env w =
    (w.store.ttl.lookup key, ⟨w.store, w.tick + 1, w.draws⟩) := rfl

@[simp] theorem step_keys (h : c.random = true) : (keys h : Op F c).step env w =
    (env.order w.draws w.store.db.keys, ⟨w.store, w.tick + 1, w.draws + 1⟩) := rfl

@[simp] theorem step_set (kind : Kind) (key : Bytes) (obj : kind.Obj F) (hw : c.write = true)
    (h : kind = .zset → c.sorted = true) : (set kind key obj hw h).step env w =
    ((), ⟨w.store.set key ⟨kind, obj⟩, w.tick + 1, w.draws⟩) := rfl

@[simp] theorem step_setAny (key : Bytes) (v : Value F) (hw : c.write = true)
    (h : c.sorted = true) : (setAny key v hw h).step env w =
    ((), ⟨w.store.set key v, w.tick + 1, w.draws⟩) := rfl

@[simp] theorem step_update (kind : Kind) (key : Bytes) (obj : kind.Obj F) (hw : c.write = true)
    (h : kind = .zset → c.sorted = true) : (update kind key obj hw h).step env w =
    ((), ⟨w.store.update key ⟨kind, obj⟩, w.tick + 1, w.draws⟩) := rfl

@[simp] theorem step_setIfNotExist (key : Bytes) (val : Option Bytes) (hw : c.write = true) :
    (setIfNotExist key val hw : Op F c).step env w =
    ((w.store.setIfNotExist key ⟨.str, val⟩).1,
      ⟨(w.store.setIfNotExist key ⟨.str, val⟩).2, w.tick + 1, w.draws⟩) := rfl

@[simp] theorem step_delete (key : Bytes) (hw : c.write = true) :
    (delete key hw : Op F c).step env w =
    ((w.store.delete key).1, ⟨(w.store.delete key).2, w.tick + 1, w.draws⟩) := rfl

@[simp] theorem step_setTTL (key : Bytes) (deadline : Int) (hw : c.write = true)
    (ht : c.timed = true) : (setTTL key deadline hw ht : Op F c).step env w =
    ((w.store.setTTL key deadline).1, ⟨(w.store.setTTL key deadline).2, w.tick + 1, w.draws⟩) := rfl

@[simp] theorem step_removeTTL (key : Bytes) (hw : c.write = true) :
    (removeTTL key hw : Op F c).step env w =
    ((), ⟨w.store.removeTTL key, w.tick + 1, w.draws⟩) := rfl

@[simp] theorem step_now (h : c.timed = true) : (now h : Op F c).step env w =
    (env.clock w.tick, ⟨w.store, w.tick + 1, w.draws⟩) := rfl

@[simp] theorem step_order (l : List Bytes) (h : c.random = true) :
    (order l h : Op F c).step env w =
    (env.order w.draws l, ⟨w.store, w.tick + 1, w.draws + 1⟩) := rfl

@[simp] theorem step_intn (n : Nat) (h : c.random = true) : (intn n h : Op F c).step env w =
    (env.intn w.draws n, ⟨w.store, w.tick + 1, w.draws + 1⟩) := rfl

@[simp] theorem step_level (h : c.random = true) : (level h : Op F c).step env w =
    (env.level w.draws, ⟨w.store, w.tick + 1, w.draws + 1⟩) := rfl

@[simp] theorem step_lock (ks : List Bytes) : (lock ks : Op F c).step env w =
    ((), ⟨w.store, w.tick + 1, w.draws⟩) := rfl

@[simp] theorem step_unLock (ks : List Bytes) : (unLock ks : Op F c).step env w =
    ((), ⟨w.store, w.tick + 1, w.draws⟩) := rfl

@[simp] theorem step_rLock (ks : List Bytes) : (rLock ks : Op F c).step env w =
    ((), ⟨w.store, w.tick + 1, w.draws⟩) := rfl

@[simp] theorem step_rUnLock (ks : List Bytes) : (rUnLock ks : Op F c).step env w =
    ((), ⟨w.store, w.tick + 1, w.draws⟩) := rfl

end Op

/-- A command with capabilities `c`. -/
abbrev Cmd (F : Type) (c : Caps) (α : Type) := Prog (Op F c) Op.Res α

/-- Time passes only forwards. -/
theorem run_tick {F : Type} {c : Caps} {α : Type} (env : Env) (p : Cmd F c α) (w : World F) :
    w.tick ≤ (p.run (Op.step env) w).2.tick :=
  Prog.Uses.run (R := fun w w' => w.tick ≤ w'.tick) (fun _ => le_rfl) (fun _ _ _ => le_trans)
    (fun _ _ _ => Nat.le_succ _) (Prog.uses_of_forall (fun _ => trivial) p) w

/-! ## The operations as the commands call them -/

section Calls

variable {F : Type} {c : Caps}

/-- `m.CheckTTL(key)`. -/
@[simp] def checkTTL (key : Bytes) : Cmd F c Bool := .op (.checkTTL key) .ret

/-- `_, ok := m.db.Get(key)`. -/
@[simp] def has (key : Bytes) : Cmd F c Bool := .op (.has key) .ret

/-- `m.db.Get(key)` and a type switch. -/
@[simp] def typeOf (key : Bytes) : Cmd F c (Option Kind) := .op (.typeOf key) .ret

/-- `m.db.Get(key)` and an assertion to a type other than `*ZSet`. -/
@[simp] def get (kind : Kind) (key : Bytes) (h : kind ≠ .zset :=
      by first | exact Kind.str_ne | exact Kind.list_ne | exact Kind.set_ne | exact Kind.hash_ne) :
    Cmd F c (Found (kind.Obj F)) := .op (.get kind key fun e => absurd e h) .ret

/-- `m.db.Get(key)` and an assertion to `*ZSet`. -/
@[simp] def getZSet (key : Bytes) (h : c.sorted = true := by exact Caps.canSort _ _ _) :
    Cmd F c (Found (ZSet F)) :=
  .op (.get .zset key fun _ => h) .ret

/-- `m.db.Get(key)`. -/
@[simp] def getAny (key : Bytes) (h : c.sorted = true := by exact Caps.canSort _ _ _) :
    Cmd F c (Option (Value F)) :=
  .op (.getAny key h) .ret

/-- `m.ttl.ExpireAt(key)`. -/
@[simp] def expireAt (key : Bytes) : Cmd F c (Option Int) := .op (.expireAt key) .ret

/-- `m.db.Keys()`. -/
@[simp] def dbKeys (h : c.random = true := by exact Caps.canDraw _ _ _) : Cmd F c (List Bytes) :=
  .op (.keys h) .ret

/-- `m.db.Set(key, obj)` of a type other than `*ZSet`. -/
@[simp] def set (kind : Kind) (key : Bytes) (obj : kind.Obj F)
    (hw : c.write = true := by exact Caps.canWrite _ _ _) (h : kind ≠ .zset :=
      by first | exact Kind.str_ne | exact Kind.list_ne | exact Kind.set_ne | exact Kind.hash_ne) :
    Cmd F c Unit :=
  .op (.set kind key obj hw fun e => absurd e h) .ret

/-- `m.db.Set(key, zset)`. -/
@[simp] def setZSet (key : Bytes) (z : ZSet F) (hw : c.write = true := by exact Caps.canWrite _ _ _)
    (h : c.sorted = true := by exact Caps.canSort _ _ _) : Cmd F c Unit :=
  .op (.set .zset key z hw fun _ => h) .ret

/-- `m.db.Set(key, value)`. -/
@[simp] def setAny (key : Bytes) (v : Value F) (hw : c.write = true := by exact Caps.canWrite _ _ _)
    (h : c.sorted = true := by exact Caps.canSort _ _ _) : Cmd F c Unit :=
  .op (.setAny key v hw h) .ret

/-- A method call that changes the collection at `key`. -/
@[simp] def update (kind : Kind) (key : Bytes) (obj : kind.Obj F)
    (hw : c.write = true := by exact Caps.canWrite _ _ _) (h : kind ≠ .zset :=
      by first | exact Kind.str_ne | exact Kind.list_ne | exact Kind.set_ne | exact Kind.hash_ne) :
    Cmd F c Unit :=
  .op (.update kind key obj hw fun e => absurd e h) .ret

/-- A method call that changes the sorted set at `key`. -/
@[simp] def updateZSet (key : Bytes) (z : ZSet F)
    (hw : c.write = true := by exact Caps.canWrite _ _ _)
    (h : c.sorted = true := by exact Caps.canSort _ _ _) : Cmd F c Unit :=
  .op (.update .zset key z hw fun _ => h) .ret

/-- `m.db.SetIfNotExist(key, val)`. -/
@[simp] def setIfNotExist (key : Bytes) (val : Option Bytes)
    (hw : c.write = true := by exact Caps.canWrite _ _ _) :
    Cmd F c Int := .op (.setIfNotExist key val hw) .ret

/-- `m.db.Delete(key)`. -/
@[simp] def delete (key : Bytes) (hw : c.write = true := by exact Caps.canWrite _ _ _) :
    Cmd F c Int :=
  .op (.delete key hw) .ret

/-- `m.SetTTL(key, expireAt)`. -/
@[simp] def setTTL (key : Bytes) (expireAt : Int)
    (hw : c.write = true := by exact Caps.canWrite _ _ _)
    (ht : c.timed = true := by exact Caps.canTime _ _ _) : Cmd F c Int :=
  .op (.setTTL key expireAt hw ht) .ret

/-- `m.ttl.RemoveTTL(key)`. -/
@[simp] def removeTTL (key : Bytes) (hw : c.write = true := by exact Caps.canWrite _ _ _) :
    Cmd F c Unit :=
  .op (.removeTTL key hw) .ret

/-- `m.DelTTL(key)`. -/
@[simp] def delTTL (key : Bytes) (hw : c.write = true := by exact Caps.canWrite _ _ _) :
    Cmd F c Int := do
  removeTTL key hw
  return 1

/-- `time.Now().Unix()`. -/
@[simp] def timeNow (h : c.timed = true := by exact Caps.canTime _ _ _) : Cmd F c Int :=
  .op (.now h) .ret

/-- The keys of a map in the order a `range` visits them. -/
@[simp] def iterate {V : Type} (m : GoMap V) (h : c.random = true := by exact Caps.canDraw _ _ _) :
    Cmd F c (List Bytes) :=
  .op (.order m.keys h) .ret

/-- `rand.Intn(n)`, for a positive `n`. -/
@[simp] def randIntn (n : Nat) (h : c.random = true := by exact Caps.canDraw _ _ _) : Cmd F c Nat :=
  .op (.intn n h) .ret

/-- `randomLevel()`. -/
@[simp] def randomLevel (h : c.random = true := by exact Caps.canDraw _ _ _) : Cmd F c Nat :=
  .op (.level h) .ret

/-- `LockMulti(keys)` and the deferred `UnLockMulti(keys)` around a body. -/
@[simp] def withLocks {α : Type} (keys : List Bytes) (body : Cmd F c α) : Cmd F c α :=
  .op (.lock keys) fun _ => body.defer (.op (.unLock keys) .ret)

/-- `Lock(key)` and the deferred `UnLock(key)` around a body. -/
@[simp] def withLock {α : Type} (key : Bytes) (body : Cmd F c α) : Cmd F c α := withLocks [key] body

/-- `RLockMulti(keys)` and the deferred `RUnLockMulti(keys)` around a body. -/
@[simp] def withRLocks {α : Type} (keys : List Bytes) (body : Cmd F c α) : Cmd F c α :=
  .op (.rLock keys) fun _ => body.defer (.op (.rUnLock keys) .ret)

/-- `RLock(key)` and the deferred `RUnLock(key)` around a body. -/
@[simp] def withRLock {α : Type} (key : Bytes) (body : Cmd F c α) : Cmd F c α :=
  withRLocks [key] body

/-- `RLockMulti(keys)` without a `defer`. -/
@[simp] def rLockMulti (keys : List Bytes) : Cmd F c Unit := .op (.rLock keys) .ret

/-- `RUnLockMulti(keys)`. -/
@[simp] def rUnLockMulti (keys : List Bytes) : Cmd F c Unit := .op (.rUnLock keys) .ret

/-- A run-time panic. -/
@[simp] def goPanic {α : Type} : Cmd F c α := .stop .panic

/-- A loop that never ends. -/
@[simp] def goHang {α : Type} : Cmd F c α := .stop .hang

/-- `cmd[i]`, a panic when there is no such argument. -/
def argAt (cmd : Command) (i : Nat) : Cmd F c (Option Bytes) :=
  match cmd[i]? with
  | some a => .ret a
  | none => .stop .panic

/-- `string(cmd[i])`. -/
def strAt (cmd : Command) (i : Nat) : Cmd F c Bytes :=
  match cmd[i]? with
  | some a => .ret (str a)
  | none => .stop .panic

theorem argAt_eq (h : cmd[i]? = some a) :
    (argAt cmd i : Cmd F c _) = .ret a := by
  rw [argAt, h]

theorem strAt_eq (h : cmd[i]? = some a) :
    (strAt cmd i : Cmd F c _) = .ret (str a) := by
  rw [strAt, h]

theorem strAt_bind {α : Type} {f : Bytes → Cmd F c α} (h : cmd[i]? = some a) :
    strAt cmd i >>= f = f (str a) := by
  rw [strAt_eq h, Prog.ret_bind]

/-- `strconv.Atoi(string(cmd[i]))`, or a default when the command is shorter. -/
def atoiAt (cmd : Command) (i : Nat) (default : Int) : Cmd F c (Except NumError Int) :=
  if i < cmd.length then do return atoi (← strAt cmd i) else return .ok default

end Calls

/-! ## Replies -/

/-- The reply of an executor: nil, or a RESP value. -/
abbrev Reply := Option RedisData

/-- `RESP.MakeErrorData`. -/
def errReply (s : String) : Reply := some (.err s)

/-- `RESP.MakeStringData`. -/
def statusReply (s : String) : Reply := some (.status s)

/-- `RESP.MakeIntData`. -/
def intReply (i : Int) : Reply := some (.intData (Int64.ofInt i))

/-- `RESP.MakeBulkData`. -/
def bulkReply (b : Option Bytes) : Reply := some (.bulkData b)

/-- `RESP.MakeArrayData` of bulk strings. -/
def bulksReply (bs : List (Option Bytes)) : Reply := some (.arrayData (bs.map .bulkData))

/-- `RESP.MakeEmptyArrayData`, which is the null array. -/
def emptyArrayReply : Reply := some .nullArray

/-- The reply of every failed type assertion. -/
def wrongTypeReply : Reply :=
  errReply "WRONGTYPE Operation against a key holding the wrong kind of value"

/-- `string(cmd[0])` of a command that is not empty. -/
def cmdName (cmd : Command) : Bytes := str (cmd.head?).join

end TinyDb
