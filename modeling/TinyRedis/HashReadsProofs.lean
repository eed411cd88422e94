import TinyRedis.HashSizeProofs

/-! # What the hash commands write and read

    HSET, HSETNX, HDEL and HINCRBY write to a map from fields to values, and the
    hash of a key holds what was written last, whichever of them wrote it.  The
    readers decide in different ways whether a field is there: HEXISTS, HKEYS and
    HGETALL by the table, HGET and HMGET by the length of the value.  They agree on
    every field but those with an empty value. -/

namespace TinyDb

open GoString GoStrconv GoFloat GoProgram GoProgram.Prog TinyResp

variable {F : Type}

/-! ## The map that is written -/

/-- Fields and their values. -/
abbrev Fields := Bytes → Option (Option Bytes)

/-- The writing commands on one key. -/
inductive HashWrite where
  | hset (pairs : List (Bytes × Option Bytes))
  | hsetnx (field : Bytes) (value : Option Bytes)
  | hdel (fields : List Bytes)
  | hincrby (field : Bytes) (incr : Int)
  | nothing

/-- What a command writes.  HINCRBY takes a field that is absent or empty as 0, and
    leaves one that is no number. -/
def HashWrite.write (m : Fields) : HashWrite → Fields
  | .hset pairs => pairs.foldl (fun m pair => Function.update m pair.1 (some pair.2)) m
  | .hsetnx field value => if (m field).isSome then m else Function.update m field (some value)
  | .hdel fields => fun field => if field ∈ fields then none else m field
  | .hincrby field incr =>
    if str (m field).join = [] then Function.update m field (some (some (itoa incr)))
    else
      match atoi (str (m field).join) with
      | .error _ => m
      | .ok value => Function.update m field (some (some (itoa (int64 (value + incr)))))
  | .nothing => m

/-- What a sequence of commands has written last. -/
def lastWritten (writes : List HashWrite) (m : Fields) : Fields :=
  writes.foldl (fun m x => x.write m) m

/-- The calls that are answered by an error before they look at the key. -/
inductive RefusedWrite [UnicodeTables] : Command → Prop
  | hset {cmd : Command} (hne : cmd ≠ []) (hname : toLower (cmdName cmd) = ascii "hset")
      (hlen : cmd.length < 4 ∨ cmd.length % 2 = 1) : RefusedWrite cmd
  | hsetnx {cmd : Command} (hne : cmd ≠ []) (hname : toLower (cmdName cmd) = ascii "hsetnx")
      (hlen : cmd.length ≠ 4) : RefusedWrite cmd
  | hdel {cmd : Command} (hne : cmd ≠ []) (hname : toLower (cmdName cmd) = ascii "hdel")
      (hlen : cmd.length < 3) : RefusedWrite cmd
  | hincrby {cmd : Command} (hne : cmd ≠ []) (hname : toLower (cmdName cmd) = ascii "hincrby")
      (hlen : cmd.length ≠ 4) : RefusedWrite cmd
  | amount {name key field amount : Option Bytes} {e : NumError}
      (hname : toLower (str name) = ascii "hincrby") (hamount : atoi (str amount) = .error e) :
      RefusedWrite [name, key, field, amount]

/-- What each command of the four writes to the hash at a key. -/
inductive Writes [UnicodeTables] (key : Option Bytes) : Command → HashWrite → Prop
  | hset {name : Option Bytes} {args : List (Option Bytes)} {pairs : List (Bytes × Option Bytes)}
      (hname : toLower (str name) = ascii "hset") (hargs : args ≠ [])
      (hpairs : pairsOf args = some pairs) : Writes key (name :: key :: args) (.hset pairs)
  | hsetnx {name field value : Option Bytes} (hname : toLower (str name) = ascii "hsetnx") :
      Writes key [name, key, field, value] (.hsetnx (str field) value)
  | hdel {name : Option Bytes} {args : List (Option Bytes)}
      (hname : toLower (str name) = ascii "hdel") (hargs : args ≠ []) :
      Writes key (name :: key :: args) (.hdel (args.map str))
  | hincrby {name field amount : Option Bytes} {n : Int}
      (hname : toLower (str name) = ascii "hincrby") (hamount : atoi (str amount) = .ok n) :
      Writes key [name, key, field, amount] (.hincrby (str field) n)
  | refused {cmd : Command} (h : RefusedWrite cmd) : Writes key cmd .nothing

/-! ## The hash of a key -/

/-- The hash at a key, a new one if there is none. -/
def Store.hashOf (s : Store F) (key : Bytes) : RedisHash :=
  match s.get .hash key with
  | .found hash => hash
  | _ => newHash

/-- The fields of the hash at a key. -/
def Store.fields (s : Store F) (key : Bytes) : Fields := fun field =>
  (s.hashOf key).table.lookup field

section HashOf

variable {s : Store F} {key : Bytes} {hash : RedisHash}

theorem hashOf_found (h : s.db.lookup key = some ⟨.hash, hash⟩) : s.hashOf key = hash := by
  rw [Store.hashOf, Store.get_eq_found.mpr h]

theorem hashOf_absent (h : s.db.lookup key = none) : s.hashOf key = newHash := by
  rw [Store.hashOf, Store.get_eq_absent.mpr h]

end HashOf

namespace RedisHash

variable {h : RedisHash} {field : Bytes}

theorem lookup_set (field : Bytes) (value : Option Bytes) :
    (fun f => (h.set field value).table.lookup f) =
      Function.update (fun f => h.table.lookup f) field (some value) := by
  funext f
  by_cases hf : f = field
  · subst hf
    rw [Function.update_self]
    exact AList.lookup_insert _
  · rw [Function.update_of_ne hf]
    exact AList.lookup_insert_ne hf

theorem lookup_insert (field : Bytes) (value : Option Bytes) :
    (fun f => (h.table.insert field value).lookup f) =
      Function.update (fun f => h.table.lookup f) field (some value) := lookup_set field value

/-- The loop of HSET. -/
theorem hSetLoop_spec (pairs : List (Bytes × Option Bytes)) (h : RedisHash) :
    (hSetLoop h pairs).1.excess = h.excess ∧
      (fun f => (hSetLoop h pairs).1.table.lookup f) =
        (HashWrite.hset pairs).write fun f => h.table.lookup f := by
  induction pairs generalizing h with
  | nil => exact ⟨rfl, rfl⟩
  | cons pair rest ih =>
    obtain ⟨field, value⟩ := pair
    obtain ⟨hexcess, hlookup⟩ := ih (h.set field value)
    refine ⟨hexcess.trans (excess_set value), hlookup.trans ?_⟩
    rw [lookup_set]
    rfl

/-- `IncrBy` writes what HINCRBY is to write. -/
theorem lookup_incrBy (field : Bytes) (incr : Int) :
    (fun f => (h.incrBy field incr).1.table.lookup f) =
      (HashWrite.hincrby field incr).write fun f => h.table.lookup f := by
  rw [incrBy, incrWith, HashWrite.write, get]
  by_cases hempty : str (h.table.lookup field).join = []
  · rw [if_pos hempty, if_pos hempty]
    exact lookup_insert field _
  · rw [if_neg hempty, if_neg hempty]
    cases atoi (str (h.table.lookup field).join) with
    | error e => rfl
    | ok value => exact lookup_insert field _

/-- An increment that returns no sum leaves the hash. -/
theorem incrBy_none {incr : Int} {h' : RedisHash} (hincr : h.incrBy field incr = (h', none)) :
    h' = h := by
  rcases h.incrWith_cases (fun s => (atoi s).toOption) (fun value incr => int64 (value + incr)) itoa
    field incr with ⟨-, he⟩ | ⟨-, he | ⟨v, res, he⟩⟩
  · cases he.symm.trans hincr
  · exact (Prod.mk.inj (hincr.symm.trans he)).1
  · cases he.symm.trans hincr

/-- `size` goes up with every field that an increment adds. -/
theorem excess_incrBy (field : Bytes) (incr : Int) : h.excess ≤ (h.incrBy field incr).1.excess := by
  show h.excess ≤ (incrWith _ _ _ h field incr).1.excess
  by_cases hempty : ∃ v, h.table.lookup field = some v ∧ str v = []
  · rw [(excess_incrWith ..).1 hempty]
    omega
  · rw [(excess_incrWith ..).2 hempty]

/-- The loop of HDEL. -/
theorem lookup_hDelLoop (args : List (Option Bytes)) (h : RedisHash) :
    (fun f => (hDelLoop h args).1.table.lookup f) =
      (HashWrite.hdel (args.map str)).write fun f => h.table.lookup f := by
  induction args generalizing h with
  | nil => simp [hDelLoop, HashWrite.write]
  | cons a rest ih =>
    refine (ih (h.del (str a)).1).trans (funext fun f => ?_)
    have hdel : (h.del (str a)).1.table.lookup f =
        if f = str a then none else h.table.lookup f := by
      unfold del
      by_cases hkey : h.exist (str a) = true
      · rw [if_pos hkey]
        by_cases hf : f = str a
        · rw [if_pos hf, hf]
          exact AList.lookup_erase _ _
        · rw [if_neg hf]
          exact AList.lookup_erase_ne hf
      · rw [if_neg hkey]
        by_cases hf : f = str a
        · rw [if_pos hf, hf]
          exact Option.not_isSome_iff_eq_none.mp hkey
        · rw [if_neg hf]
    simp only [HashWrite.write, hdel, List.map_cons, List.mem_cons]
    by_cases hf : f = str a
    · simp [hf]
    · simp [hf]

/-- A hash of size zero has no fields. -/
theorem lookup_of_isEmpty (hcount : 0 ≤ h.excess) (hempty : h.isEmpty = true) :
    h.table.lookup field = none := by
  rw [isEmpty, decide_eq_true_eq] at hempty
  have hkeys : h.table.keys = [] := by
    rw [excess, fields, hempty] at hcount
    exact List.eq_nil_of_length_eq_zero (by omega)
  refine AList.lookup_eq_none.mpr fun hmem => ?_
  rw [AList.mem_keys, hkeys] at hmem
  exact List.not_mem_nil hmem

end RedisHash

/-! ## The writing commands -/

/-- A list that falls into pairs. -/
theorem length_of_pairsOf {args : List (Option Bytes)} {pairs : List (Bytes × Option Bytes)}
    (h : pairsOf args = some pairs) : args.length = 2 * pairs.length := by
  fun_induction pairsOf args generalizing pairs with
  | case1 =>
    obtain rfl : [] = pairs := Option.some.inj h
    rfl
  | case2 => cases h
  | case3 k v rest ih =>
    obtain ⟨tail, htail, rfl⟩ := Option.map_eq_some_iff.mp h
    have := ih htail
    simp only [List.length_cons]
    omega

/-- HSET with field and value pairs passes the check of its length. -/
theorem hSet_length {name key : Option Bytes} {args : List (Option Bytes)}
    {pairs : List (Bytes × Option Bytes)} (hargs : args ≠ []) (hpairs : pairsOf args = some pairs) :
    ¬ ((name :: key :: args).length < 4 ∨ (name :: key :: args).length % 2 = 1) := by
  have heven := length_of_pairsOf hpairs
  have hpos := List.length_pos_iff.mpr hargs
  simp only [List.length_cons]
  omega

section Writing

variable {env : Env} {w : World F} {key : Option Bytes}

/-- What a writing command leaves at its key: the hash, and the deadline or none. -/
structure Leaves (s s' : Store F) (key : Bytes) (m : Fields) : Prop where
  typed : s'.get .hash key ≠ .wrongType
  counted : 0 ≤ (s'.hashOf key).excess
  fields : s'.fields key = m
  ttl : ∀ d, s'.ttl.lookup key = some d → s.ttl.lookup key = some d

theorem leaves_of_hash {s s' : Store F} {key : Bytes} {hash : RedisHash}
    (hdb : s'.db.lookup key = some ⟨.hash, hash⟩) (hexcess : 0 ≤ hash.excess)
    (httl : s'.ttl = s.ttl) : Leaves s s' key (fun f => hash.table.lookup f) := by
  have hget : s'.get .hash key = .found hash := Store.get_eq_found.mpr hdb
  refine ⟨by rw [hget]; simp, ?_, ?_, fun d hd => httl ▸ hd⟩
  · rwa [hashOf_found hdb]
  · funext f
    show (s'.hashOf key).table.lookup f = _
    rw [hashOf_found hdb]

/-- A hash that is changed in place. -/
theorem leaves_update {s s' : Store F} {key : Bytes} {hash hash' : RedisHash}
    (hdb : s'.db.lookup key = some ⟨.hash, hash⟩) (hexcess : 0 ≤ hash'.excess)
    (httl : s'.ttl = s.ttl) :
    Leaves s (s'.update key ⟨.hash, hash'⟩) key (fun f => hash'.table.lookup f) :=
  leaves_of_hash (by simp [hdb]) hexcess (by rw [Store.update_ttl, httl])

/-- A key without a hash. -/
theorem leaves_absent {s s' : Store F} {key : Bytes} {m : Fields} (hdb : s'.db.lookup key = none)
    (hnone : ∀ f, m f = none) (httl : ∀ d, s'.ttl.lookup key = some d → s.ttl.lookup key = some d) :
    Leaves s s' key m := by
  have hnew := hashOf_absent hdb
  refine ⟨by rw [Store.get_eq_absent.mpr hdb]; simp, ?_, ?_, httl⟩
  · rw [hnew]
    exact le_refl 0
  · funext f
    show (s'.hashOf key).table.lookup f = _
    rw [hnew, hnone f]
    rfl

/-- The frame of the commands that create a hash: the body gets the hash of the key,
    in a store that has it. -/
theorem leaves_creating {key : Bytes} {f : Found RedisHash → Cmd F writes Reply} {m : Fields}
    (hdue : ¬ w.store.Due key (env.clock w.tick)) (htype : w.store.get .hash key ≠ .wrongType)
    (h : ∀ w' : World F, w'.store.db.lookup key = some ⟨.hash, w.store.hashOf key⟩ →
      w'.store.ttl = w.store.ttl →
        Leaves w.store (outcome env (f (.found (w.store.hashOf key))) w').2 key m) :
    Leaves w.store (outcome env (checkTTL key >>= fun _ => withLock key
      (getOrCreate .hash key newHash >>= f)) w).2 key m := by
  have hchecked := Store.checked_of_not_due hdue
  have hhash : ((w.store.checked key (env.clock w.tick)).get .hash key).orNew newHash =
      w.store.hashOf key := by
    rw [hchecked, Store.hashOf]
    cases w.store.get .hash key <;> rfl
  refine outcome_creating (P := fun x => Leaves w.store x.2 key m) ?_ hhash ?_
  · rwa [hchecked]
  · rwa [hchecked]

variable [UnicodeTables] {name field value amount : Option Bytes} {args : List (Option Bytes)}
  (hdue : ¬ w.store.Due (str key) (env.clock w.tick))
  (htype : w.store.get .hash (str key) ≠ .wrongType)
  (hexcess : 0 ≤ (w.store.hashOf (str key)).excess)

include hdue htype hexcess

theorem hSetHash_leaves {pairs : List (Bytes × Option Bytes)}
    (hname : toLower (str name) = ascii "hset") (hargs : args ≠ [])
    (hpairs : pairsOf args = some pairs) :
    Leaves w.store (outcome env (hSetHash (name :: key :: args) : Cmd F _ _) w).2 (str key)
      ((HashWrite.hset pairs).write (w.store.fields (str key))) := by
  have hpairs' : pairsOf ((name :: key :: args).drop 2) = some pairs := hpairs
  obtain ⟨hexcess', hlookup⟩ := RedisHash.hSetLoop_spec pairs (w.store.hashOf (str key))
  rw [hSetHash, named_cons hname, if_neg (hSet_length hargs hpairs), strAt_bind rfl]
  refine leaves_creating hdue htype fun w' hdb httl => ?_
  dsimp only
  rw [hpairs']
  dsimp only
  rw [outcome_update, pure_eq, outcome_ret]
  exact hlookup ▸ leaves_update hdb (hexcess' ▸ hexcess) httl

theorem hSetNxHash_leaves (hname : toLower (str name) = ascii "hsetnx") :
    Leaves w.store (outcome env (hSetNxHash [name, key, field, value] : Cmd F _ _) w).2 (str key)
      ((HashWrite.hsetnx (str field) value).write (w.store.fields (str key))) := by
  rw [hSetNxHash, named_cons hname, if_neg (by simp), strAt_bind rfl, strAt_bind rfl, argAt_eq rfl,
    ret_bind]
  refine leaves_creating hdue htype fun w' hdb httl => ?_
  dsimp only
  by_cases hexist : (w.store.hashOf (str key)).exist (str field) = true
  · have hkeep : (HashWrite.hsetnx (str field) value).write (w.store.fields (str key)) =
        w.store.fields (str key) := if_pos hexist
    rw [if_pos hexist, pure_eq, outcome_ret, hkeep]
    exact leaves_of_hash hdb hexcess httl
  · have hset : (HashWrite.hsetnx (str field) value).write (w.store.fields (str key)) =
        Function.update (w.store.fields (str key)) (str field) (some value) := if_neg hexist
    rw [if_neg hexist, outcome_update, pure_eq, outcome_ret, hset]
    exact RedisHash.lookup_set (str field) value ▸
      leaves_update hdb ((RedisHash.excess_set value).symm ▸ hexcess) httl

theorem hIncrByHash_leaves {n : Int} (hname : toLower (str name) = ascii "hincrby")
    (hamount : atoi (str amount) = .ok n) :
    Leaves w.store (outcome env (hIncrByHash [name, key, field, amount] : Cmd F _ _) w).2 (str key)
      ((HashWrite.hincrby (str field) n).write (w.store.fields (str key))) := by
  have hwrites := RedisHash.lookup_incrBy (h := w.store.hashOf (str key)) (str field) n
  rw [hIncrByHash, incrHash, named_cons hname, if_neg (by simp), strAt_bind rfl, strAt_bind rfl,
    strAt_bind rfl, hamount]
  dsimp only [Except.toOption]
  refine leaves_creating hdue htype fun w' hdb httl => ?_
  dsimp only
  have hcount := hexcess.trans (RedisHash.excess_incrBy (str field) n)
  change Leaves _ _ _ ((HashWrite.hincrby (str field) n).write
    fun f => (w.store.hashOf (str key)).table.lookup f)
  rw [← hwrites]
  rcases hincr : (w.store.hashOf (str key)).incrBy (str field) n with ⟨hash', _ | res⟩
  · obtain rfl := RedisHash.incrBy_none hincr
    exact leaves_of_hash hdb hexcess httl
  · rw [hincr] at hcount
    exact leaves_update hdb hcount httl

theorem hDelHash_leaves (hname : toLower (str name) = ascii "hdel") (hargs : args ≠ []) :
    Leaves w.store (outcome env (hDelHash (name :: key :: args) : Cmd F _ _) w).2 (str key)
      ((HashWrite.hdel (args.map str)).write (w.store.fields (str key))) := by
  have hlen : ¬ (name :: key :: args).length < 3 := by
    have := List.length_pos_iff.mpr hargs
    simp only [List.length_cons]
    omega
  have hdrop : (name :: key :: args).drop 2 = args := rfl
  have hwrites := RedisHash.lookup_hDelLoop args (w.store.hashOf (str key))
  have hcount : 0 ≤ (hDelLoop (w.store.hashOf (str key)) args).1.excess :=
    (hDelLoop_spec args (w.store.hashOf (str key))).1 ▸ hexcess
  change Leaves _ _ _ ((HashWrite.hdel (args.map str)).write
    fun f => (w.store.hashOf (str key)).table.lookup f)
  rw [← hwrites, hDelHash, named_cons hname, if_neg hlen, strAt_bind rfl, outcome_checkTTL hdue,
    if_neg (by simp), withLock, outcome_withLocks, outcome_get, hdrop]
  dsimp only
  cases hget : w.store.get .hash (str key) with
  | wrongType => exact absurd hget htype
  | absent =>
    have hdb := Store.get_eq_absent.mp hget
    refine leaves_absent hdb (fun f => ?_) fun d hd => hd
    rw [congrFun hwrites f, hashOf_absent hdb]
    exact ite_self none
  | found hash =>
    have hdb := Store.get_eq_found.mp hget
    rw [hashOf_found hdb] at hcount ⊢
    dsimp only
    rw [outcome_update]
    cases hempty : (hDelLoop hash args).1.isEmpty with
    | false => exact leaves_update hdb hcount rfl
    | true =>
      refine leaves_absent ?_ (fun f => RedisHash.lookup_of_isEmpty hcount hempty) ?_
      · show ((w.store.update (str key) _).delete (str key)).2.db.lookup (str key) = none
        simp
      · intro d hd
        change (((w.store.update (str key) _).delete (str key)).2.removeTTL (str key)).ttl.lookup
          (str key) = some d at hd
        simp at hd

section Exec

variable [FloatText F] (host : Host)

omit hdue htype hexcess in
theorem hashWriters_mem :
    Registered F host "hset" hSetHash ∧
      Registered F host "hsetnx" hSetNxHash ∧
      Registered F host "hdel" hDelHash ∧
      Registered F host "hincrby" hIncrByHash := by simp [Registered, cmdTable]

omit hdue htype hexcess in
/-- A refused call leaves everything. -/
theorem refused_leaves {cmd : Command} (h : RefusedWrite cmd) :
    (execCommand host env cmd w).2.store = w.store := by
  obtain ⟨hset, hsetnx, hdel, hincrby⟩ := hashWriters_mem (F := F) host
  cases h with
  | hset hne hname hlen =>
    rw [exec_store hset hne hname]
    dsimp only
    rw [hSetHash, named_eq hne hname, if_pos hlen]
    rfl
  | hsetnx hne hname hlen =>
    rw [exec_store hsetnx hne hname]
    dsimp only
    rw [hSetNxHash, named_eq hne hname, if_pos hlen]
    rfl
  | hdel hne hname hlen =>
    rw [exec_store hdel hne hname]
    dsimp only
    rw [hDelHash, named_eq hne hname, if_pos hlen]
    rfl
  | hincrby hne hname hlen =>
    rw [exec_store hincrby hne hname]
    dsimp only
    rw [hIncrByHash, incrHash, named_eq hne hname, if_pos hlen]
    rfl
  | amount hname hamount =>
    rw [exec_store hincrby (List.cons_ne_nil _ _) hname]
    dsimp only
    rw [hIncrByHash, incrHash, named_cons hname, if_neg (by simp), strAt_bind rfl, strAt_bind rfl,
      strAt_bind rfl, hamount]
    rfl

/-- Every command of the four writes to the hash what it is to write. -/
theorem Writes.leaves {cmd : Command} {x : HashWrite} (h : Writes key cmd x) :
    Leaves w.store (execCommand host env cmd w).2.store (str key)
      (x.write (w.store.fields (str key))) := by
  obtain ⟨hset, hsetnx, hdel, hincrby⟩ := hashWriters_mem (F := F) host
  cases h with
  | hset hname hargs hpairs =>
    rw [exec_store hset (List.cons_ne_nil _ _) hname]
    exact hSetHash_leaves hdue htype hexcess hname hargs hpairs
  | hsetnx hname =>
    rw [exec_store hsetnx (List.cons_ne_nil _ _) hname]
    exact hSetNxHash_leaves hdue htype hexcess hname
  | hdel hname hargs =>
    rw [exec_store hdel (List.cons_ne_nil _ _) hname]
    exact hDelHash_leaves hdue htype hexcess hname hargs
  | hincrby hname hamount =>
    rw [exec_store hincrby (List.cons_ne_nil _ _) hname]
    exact hIncrByHash_leaves hdue htype hexcess hname hamount
  | refused hrefused =>
    rw [refused_leaves host hrefused]
    exact ⟨htype, hexcess, rfl, fun d hd => hd⟩

omit hdue in
/-- A sequence of them leaves what was written last, as long as the key does not
    come to its deadline. -/
theorem run_leaves (cmds : List (Command × HashWrite)) (hwrites : ∀ x ∈ cmds, Writes key x.1 x.2)
    (hlive : ∀ t, w.tick ≤ t → t ≤ (execAll host env (cmds.map Prod.fst) w).tick →
      ¬ w.store.Due (str key) (env.clock t)) :
    Leaves w.store (execAll host env (cmds.map Prod.fst) w).store (str key)
      (lastWritten (cmds.map Prod.snd) (w.store.fields (str key))) := by
  induction cmds generalizing w with
  | nil => exact ⟨htype, hexcess, rfl, fun d hd => hd⟩
  | cons x rest ih =>
    obtain ⟨cmd, x⟩ := x
    have htick := execCommand_tick host env cmd w
    have hstep := (hwrites (cmd, x) List.mem_cons_self).leaves
      (hlive w.tick le_rfl (htick.trans (execAll_tick host env _ _))) htype hexcess host
    have hlive' : ∀ t, (execCommand host env cmd w).2.tick ≤ t →
        t ≤ (execAll host env (rest.map Prod.fst) (execCommand host env cmd w).2).tick →
        ¬ (execCommand host env cmd w).2.store.Due (str key) (env.clock t) := by
      rintro t ht hle ⟨d, hd, hdue⟩
      exact hlive t (htick.trans ht) hle ⟨d, hstep.ttl d hd, hdue⟩
    have hrest := ih hstep.typed hstep.counted
      (fun y hy => hwrites y (List.mem_cons_of_mem _ hy)) hlive'
    rw [hstep.fields] at hrest
    exact ⟨hrest.typed, hrest.counted, hrest.fields, fun d hd => hstep.ttl d (hrest.ttl d hd)⟩

end Exec

end Writing

/-! ## The reading commands -/

/-- The data of a bulk. -/
def bulkOf : RedisData → Option (Option Bytes)
  | .bulkData data => some data
  | _ => none

/-- The bulks among the items of an array reply. -/
def bulksOf : Except Abort Reply → List (Option Bytes)
  | .ok (some (.arrayData items)) => items.filterMap bulkOf
  | _ => []

theorem bulksOf_bulksReply (bs : List (Option Bytes)) : bulksOf (.ok (bulksReply bs)) = bs := by
  simp [bulksOf, bulksReply, List.filterMap_map, Function.comp_def, bulkOf]

/-- The calls that read one field: HMGET asks for it at a place of its own. -/
structure HashReaders [UnicodeTables] (key field : Option Bytes) where
  hexists : Option Bytes
  hget : Option Bytes
  hmget : Option Bytes
  hkeys : Option Bytes
  hgetall : Option Bytes
  args : List (Option Bytes)
  place : Nat
  hexistsName : toLower (str hexists) = ascii "hexists"
  hgetName : toLower (str hget) = ascii "hget"
  hmgetName : toLower (str hmget) = ascii "hmget"
  hkeysName : toLower (str hkeys) = ascii "hkeys"
  hgetallName : toLower (str hgetall) = ascii "hgetall"
  asks : args[place]?.map str = some (str field)

/-- Fields stand at the even places of HGETALL, and each value behind its field. -/
theorem withValues_get (h : RedisHash) (keys : List Bytes) (j : Nat) :
    (h.withValues keys)[2 * j]? = keys[j]?.map some ∧
      (h.withValues keys)[2 * j + 1]? = keys[j]?.map h.get := by
  induction keys generalizing j with
  | nil => exact ⟨rfl, rfl⟩
  | cons k rest ih =>
    have hcons : h.withValues (k :: rest) = some k :: h.get k :: h.withValues rest := rfl
    rw [hcons]
    cases j with
    | zero => exact ⟨rfl, rfl⟩
    | succ j => exact ih j

section Readers

variable [UnicodeTables] {env : Env} {w : World F} {name key field : Option Bytes}
  {args : List (Option Bytes)} (hdue : ¬ w.store.Due (str key) (env.clock w.tick))
  (htype : w.store.get .hash (str key) ≠ .wrongType)

include hdue htype

omit [UnicodeTables] in
/-- The frame of the readers: they read the hash of the key, or give the reply for a
    missing one. -/
theorem reads_cases {missing : Reply} {body : RedisHash → Cmd F reads Reply}
    {P : Except Abort Reply → Prop} (habsent : w.store.hashOf (str key) = newHash → P (.ok missing))
    (hfound : ∀ w', P (outcome env (body (w.store.hashOf (str key))) w').1) :
    P (outcome env (reading .hash (str key) missing body) w).1 := by
  cases hget : w.store.get .hash (str key) with
  | wrongType => exact absurd hget htype
  | absent =>
    have hdb := Store.get_eq_absent.mp hget
    rw [outcome_reading hdue, outcome_lookingUp, hget]
    exact habsent (hashOf_absent hdb)
  | found hash =>
    rw [outcome_reading_found hdue hget]
    rw [hashOf_found (Store.get_eq_found.mp hget)] at hfound
    exact hfound _

theorem hExistsHash_reads (hname : toLower (str name) = ascii "hexists") :
    (outcome env (hExistsHash [name, key, field] : Cmd F _ _) w).1 =
      .ok (intReply (if (w.store.fields (str key) (str field)).isSome then 1 else 0)) := by
  rw [hExistsHash, named_cons hname, if_neg (by simp), strAt_bind rfl]
  refine reads_cases (P := fun r => r = _) hdue htype (fun hnew => ?_) fun w' => rfl
  show _ = Except.ok (intReply (if ((w.store.hashOf (str key)).table.lookup _).isSome then
    1 else 0))
  rw [hnew]
  rfl

theorem hGetHash_reads (hname : toLower (str name) = ascii "hget") :
    (outcome env (hGetHash [name, key, field] : Cmd F _ _) w).1 =
      .ok (bulkReply (fieldData (w.store.hashOf (str key)) (str field))) := by
  rw [hGetHash, named_cons hname, if_neg (by simp), strAt_bind rfl]
  refine reads_cases (P := fun r => r = _) hdue htype (fun hnew => ?_) fun w' => rfl
  rw [hnew]
  rfl

theorem hMGetHash_reads (hname : toLower (str name) = ascii "hmget") (hargs : args ≠ []) :
    bulksOf (outcome env (hMGetHash (name :: key :: args) : Cmd F _ _) w).1 =
      args.map fun a => fieldData (w.store.hashOf (str key)) (str a) := by
  have hlen : ¬ (name :: key :: args).length < 3 := by
    have := List.length_pos_iff.mpr hargs
    simp only [List.length_cons]
    omega
  rw [hMGetHash, named_cons hname, if_neg hlen, strAt_bind rfl]
  refine reads_cases (P := fun r => bulksOf r = _) hdue htype (fun hnew => ?_) fun w' =>
    bulksOf_bulksReply _
  have hnone : (fun a => fieldData newHash (str a)) = fun _ : Option Bytes => none := rfl
  rw [bulksOf_bulksReply, hnew, hnone, List.map_const']
  rfl

theorem hKeysHash_reads (hname : toLower (str name) = ascii "hkeys") (f : Bytes) :
    some f ∈ bulksOf (outcome env (hKeysHash [name, key] : Cmd F _ _) w).1 ↔
      (w.store.fields (str key) f).isSome = true := by
  have hmem : (w.store.fields (str key) f).isSome = true ↔
      f ∈ (w.store.hashOf (str key)).table.keys := AList.lookup_isSome.trans AList.mem_keys
  rw [hKeysHash, named_cons hname, if_neg (by simp), strAt_bind rfl, hmem]
  refine reads_cases (P := fun r => some f ∈ bulksOf r ↔ _) hdue htype (fun hnew => ?_) fun w' => ?_
  · rw [hnew]
    exact iff_of_false List.not_mem_nil List.not_mem_nil
  · have hbulks : bulksOf (outcome env (iterate (w.store.hashOf (str key)).table >>= fun keys =>
        (pure (bulksReply (keys.map some)) : Cmd F reads Reply)) w').1 =
          (env.order w'.draws (w.store.hashOf (str key)).table.keys).map some :=
        bulksOf_bulksReply _
    rw [hbulks, List.mem_map_of_injective (Option.some_injective _), (env.order_perm _ _).mem_iff]

theorem hGetAllHash_reads (hname : toLower (str name) = ascii "hgetall") {f : Bytes}
    {val : Option Bytes} (hval : w.store.fields (str key) f = some val) :
    ∃ j, (bulksOf (outcome env (hGetAllHash [name, key] : Cmd F _ _) w).1)[2 * j]? = some (some f) ∧
      (bulksOf (outcome env (hGetAllHash [name, key] : Cmd F _ _) w).1)[2 * j + 1]? = some val := by
  rw [hGetAllHash, named_cons hname, if_neg (by simp), strAt_bind rfl]
  refine reads_cases (P := fun r => ∃ j, (bulksOf r)[2 * j]? = _ ∧ (bulksOf r)[2 * j + 1]? = _)
    hdue htype (fun hnew => ?_) fun w' => ?_
  · change (w.store.hashOf (str key)).table.lookup f = some val at hval
    rw [hnew] at hval
    cases hval
  · have hbulks : bulksOf (outcome env (iterate (w.store.hashOf (str key)).table >>= fun keys =>
        (pure (bulksReply ((w.store.hashOf (str key)).withValues keys)) : Cmd F reads Reply))
          w').1 =
          (w.store.hashOf (str key)).withValues
            (env.order w'.draws (w.store.hashOf (str key)).table.keys) := bulksOf_bulksReply _
    have hmem : f ∈ env.order w'.draws (w.store.hashOf (str key)).table.keys := by
      refine (env.order_perm _ _).mem_iff.mpr (AList.mem_keys.mp (AList.lookup_isSome.mp ?_))
      exact Option.isSome_iff_exists.mpr ⟨val, hval⟩
    obtain ⟨j, hj⟩ := List.mem_iff_getElem?.mp hmem
    have hget : (w.store.hashOf (str key)).get f = val := congrArg Option.join hval
    obtain ⟨heven, hodd⟩ := withValues_get (w.store.hashOf (str key)) _ j
    rw [hj] at heven hodd
    exact ⟨j, hbulks ▸ heven, hbulks ▸ hodd.trans (congrArg some hget)⟩

end Readers

/-- HGET and HMGET show a field by the length of its value. -/
theorem fieldData_eq {h : RedisHash} {f : Bytes} {val : Option Bytes}
    (hval : h.table.lookup f = some val) (hne : str val ≠ []) : fieldData h f = some (str val) := by
  have hget : h.get f = val := congrArg Option.join hval
  rw [fieldData, hget, if_neg hne]
  cases val with
  | none => exact absurd rfl hne
  | some b => rfl

theorem fieldData_empty {h : RedisHash} {f : Bytes} {val : Option Bytes}
    (hval : h.table.lookup f = some val) (hempty : str val = []) : fieldData h f = none := by
  have hget : h.get f = val := congrArg Option.join hval
  rw [fieldData, hget, if_pos hempty]

/-! ## Agreement -/

section Agreement

variable [UnicodeTables] [FloatText F] {key field : Option Bytes}

/-- The readers agree on a field, and with the value that was written last. -/
structure ReadsAgree (host : Host) (env : Env) (w : World F) (r : HashReaders key field)
    (last : Option (Option Bytes)) : Prop where
  written : (execCommand host env [r.hexists, key, field] w).1 = .ok (intReply 1) ↔ last.isSome
  hget : (execCommand host env [r.hexists, key, field] w).1 = .ok (intReply 1) ↔
    (execCommand host env [r.hget, key, field] w).1 ≠ .ok (bulkReply none)
  hmget : (execCommand host env [r.hexists, key, field] w).1 = .ok (intReply 1) ↔
    (bulksOf (execCommand host env (r.hmget :: key :: r.args) w).1)[r.place]? ≠ some none
  hkeys : (execCommand host env [r.hexists, key, field] w).1 = .ok (intReply 1) ↔
    some (str field) ∈ bulksOf (execCommand host env [r.hkeys, key] w).1
  value : ∀ val, last = some val →
    (execCommand host env [r.hget, key, field] w).1 = .ok (bulkReply (some (str val))) ∧
      (bulksOf (execCommand host env (r.hmget :: key :: r.args) w).1)[r.place]? =
        some (some (str val)) ∧
      ∃ j, (bulksOf (execCommand host env [r.hgetall, key] w).1)[2 * j]? =
          some (some (str field)) ∧
        (bulksOf (execCommand host env [r.hgetall, key] w).1)[2 * j + 1]? = some (some (str val))

/-- What the readers reply. -/
structure Replies (host : Host) (env : Env) (w : World F) (r : HashReaders key field) : Prop where
  hexists : (execCommand host env [r.hexists, key, field] w).1 =
    .ok (intReply (if (w.store.fields (str key) (str field)).isSome then 1 else 0))
  hget : (execCommand host env [r.hget, key, field] w).1 =
    .ok (bulkReply (fieldData (w.store.hashOf (str key)) (str field)))
  hmget : (bulksOf (execCommand host env (r.hmget :: key :: r.args) w).1)[r.place]? =
    some (fieldData (w.store.hashOf (str key)) (str field))
  hkeys : some (str field) ∈ bulksOf (execCommand host env [r.hkeys, key] w).1 ↔
    (w.store.fields (str key) (str field)).isSome = true
  hgetall : ∀ val, w.store.fields (str key) (str field) = some val →
    ∃ j, (bulksOf (execCommand host env [r.hgetall, key] w).1)[2 * j]? = some (some (str field)) ∧
      (bulksOf (execCommand host env [r.hgetall, key] w).1)[2 * j + 1]? = some val

theorem hashReaders_mem (host : Host) :
    Registered F host "hexists" hExistsHash ∧
      Registered F host "hget" hGetHash ∧
      Registered F host "hmget" hMGetHash ∧
      Registered F host "hkeys" hKeysHash ∧
      Registered F host "hgetall" hGetAllHash := by simp [Registered, cmdTable]

theorem replies (host : Host) {env : Env} {w : World F} (r : HashReaders key field)
    (hdue : ¬ w.store.Due (str key) (env.clock w.tick))
    (htype : w.store.get .hash (str key) ≠ .wrongType) : Replies host env w r := by
  obtain ⟨hexists, hget, hmget, hkeys, hgetall⟩ := hashReaders_mem (F := F) host
  have hargs : r.args ≠ [] := by
    intro hnil
    have := r.asks
    rw [hnil] at this
    cases this
  refine ⟨?_, ?_, ?_, ?_, fun val hval => ?_⟩
  · rw [exec_reply hexists (List.cons_ne_nil _ _) r.hexistsName]
    exact hExistsHash_reads hdue htype r.hexistsName
  · rw [exec_reply hget (List.cons_ne_nil _ _) r.hgetName]
    exact hGetHash_reads hdue htype r.hgetName
  · rw [exec_reply hmget (List.cons_ne_nil _ _) r.hmgetName]
    dsimp only
    rw [hMGetHash_reads hdue htype r.hmgetName hargs, List.getElem?_map]
    obtain ⟨a, ha, hstr⟩ := Option.map_eq_some_iff.mp r.asks
    rw [ha, Option.map_some, hstr]
  · rw [exec_reply hkeys (List.cons_ne_nil _ _) r.hkeysName]
    exact hKeysHash_reads hdue htype r.hkeysName (str field)
  · rw [exec_reply hgetall (List.cons_ne_nil _ _) r.hgetallName]
    exact hGetAllHash_reads hdue htype r.hgetallName hval

theorem Replies.agree_iff {host : Host} {env : Env} {w : World F} {r : HashReaders key field}
    (h : Replies host env w r) : ReadsAgree host env w r (w.store.fields (str key) (str field)) ↔
      ¬ ∃ val, w.store.fields (str key) (str field) = some val ∧ str val = [] := by
  obtain ⟨hexists, hget, hmget, hkeys, hgetall⟩ := h
  constructor
  · rintro hagree ⟨val, hval, hempty⟩
    have hone : (execCommand host env [r.hexists, key, field] w).1 = .ok (intReply 1) := by
      rw [hexists, hval]
      rfl
    refine hagree.hget.mp hone ?_
    rw [hget, fieldData_empty hval hempty]
  · intro hnone
    cases hval : w.store.fields (str key) (str field) with
    | none =>
      have hzero : ¬ (execCommand host env [r.hexists, key, field] w).1 = .ok (intReply 1) := by
        rw [hexists, hval]
        simp [intReply]
      have hdata : fieldData (w.store.hashOf (str key)) (str field) = none := by
        have hfield : (w.store.hashOf (str key)).get (str field) = none := congrArg Option.join hval
        rw [fieldData, hfield]
        rfl
      rw [hval] at hkeys
      refine ⟨iff_of_false hzero (by simp), iff_of_false hzero (not_not.mpr ?_),
        iff_of_false hzero (not_not.mpr ?_), iff_of_false hzero fun hmem => ?_, ?_⟩
      · rw [hget, hdata]
      · rw [hmget, hdata]
      · cases hkeys.mp hmem
      · intro val hx
        cases hx
    | some val =>
      have hne : str val ≠ [] := fun hempty => hnone ⟨val, hval, hempty⟩
      have hone : (execCommand host env [r.hexists, key, field] w).1 = .ok (intReply 1) := by
        rw [hexists, hval]
        rfl
      rw [fieldData_eq hval hne] at hget hmget
      obtain ⟨j, hfield, hvalue⟩ := hgetall val hval
      have hsome : val = some (str val) := by
        cases val with
        | none => exact absurd rfl hne
        | some b => rfl
      refine ⟨iff_of_true hone rfl, iff_of_true hone ?_, iff_of_true hone ?_,
        iff_of_true hone (hkeys.mpr (hval ▸ rfl)), ?_⟩
      · rw [hget]
        simp [bulkReply]
      · rw [hmget]
        simp
      · rintro val' hx
        obtain rfl : val = val' := Option.some.inj hx
        exact ⟨hget, hmget, j, hfield, hvalue.trans (congrArg some hsome)⟩

/-- **When the readers of a hash agree**: after every sequence of HSET, HSETNX, HDEL
    and HINCRBY on a key that stays alive meanwhile, HEXISTS, HGET, HMGET and HKEYS
    agree on whether a field is there, and HGET, HMGET and HGETALL on the value
    written last, just if that value is not the empty string. -/
theorem hash_reads_agree_iff (host : Host) (env : Env) (w : World F) (r : HashReaders key field)
    (cmds : List (Command × HashWrite)) (hwrites : ∀ x ∈ cmds, Writes key x.1 x.2)
    (hlive : ∀ t, w.tick ≤ t → t ≤ (execAll host env (cmds.map Prod.fst) w).tick →
      ¬ w.store.Due (str key) (env.clock t)) (htype : w.store.get .hash (str key) ≠ .wrongType)
    (hgrown : ∃ ops : List (HashOp F), w.store.hashOf (str key) = applyOps ops newHash) :
    ReadsAgree host env (execAll host env (cmds.map Prod.fst) w) r
        (lastWritten (cmds.map Prod.snd) (w.store.fields (str key)) (str field)) ↔
      ¬ ∃ val, lastWritten (cmds.map Prod.snd) (w.store.fields (str key)) (str field) = some val ∧
        str val = [] := by
  obtain ⟨ops, hops⟩ := hgrown
  have hleaves := run_leaves htype (hops ▸ excess_nonneg ops) host cmds hwrites hlive
  have hdue : ¬ (execAll host env (cmds.map Prod.fst) w).store.Due (str key)
      (env.clock (execAll host env (cmds.map Prod.fst) w).tick) := by
    rintro ⟨d, hd, hle⟩
    exact hlive _ (execAll_tick host env _ w) le_rfl ⟨d, hleaves.ttl d hd, hle⟩
  rw [← hleaves.fields]
  exact (replies host r hdue hleaves.typed).agree_iff

end Agreement

/-- The readers of the field `f` of `h`. -/
def readersOfF : @HashReaders asciiTables (some (ascii "h")) (some (ascii "f")) :=
  letI := asciiTables
  { hexists := some (ascii "HEXISTS"), hget := some (ascii "HGET"), hmget := some (ascii "HMGET"),
    hkeys := some (ascii "HKEYS"), hgetall := some (ascii "HGETALL"), args := words ["f"],
    place := 0, hexistsName := by decide, hgetName := by decide, hmgetName := by decide,
    hkeysName := by decide, hgetallName := by decide, asks := rfl }

/-- A field that is set, deleted and incremented. -/
theorem hash_reads_agree_three :
    letI := asciiTables
    ReadsAgree quietHost stillEnv (execAll quietHost stillEnv
        [words ["HSET", "h", "f", "v"], words ["HDEL", "h", "f"], words ["HINCRBY", "h", "f", "3"]]
        (emptyWorld : World IntScore))
      readersOfF (some (some (ascii "3"))) := by
  refine (@hash_reads_agree_iff IntScore asciiTables _ (some (ascii "h"))
    (some (ascii "f")) quietHost
    stillEnv emptyWorld readersOfF
    [(words ["HSET", "h", "f", "v"],
        .hset [(ascii "f", some (ascii "v"))]),
      (words ["HDEL", "h", "f"], .hdel [ascii "f"]), (words ["HINCRBY", "h", "f", "3"],
        .hincrby (ascii "f") 3)] ?_ ?_ ?_ ⟨[], rfl⟩).mpr ?_
  · intro x hx
    simp only [List.mem_cons, List.not_mem_nil, or_false] at hx
    rcases hx with rfl | rfl | rfl
    · exact @Writes.hset asciiTables _ _ _ _ (by decide) (by simp) rfl
    · exact @Writes.hdel asciiTables _ _ (words ["f"]) (by decide) (by simp)
    · exact @Writes.hincrby asciiTables _ _ _ _ _ (by decide) rfl
  · rintro t - - ⟨d, hd, -⟩
    cases hd
  · intro hwrong
    cases hwrong
  · rintro ⟨val, hval, hempty⟩
    obtain rfl : some (ascii "3") = val := Option.some.inj hval
    cases hempty

/-- HSET of the empty string: HEXISTS finds the field and HGET does not. -/
theorem hset_empty_hidden :
    letI := asciiTables
    let w := stateAfter [some (ascii "HSET"), some (ascii "h"), some (ascii "f"), some []]
    (execStill (words ["HEXISTS", "h", "f"])
        w).1 = .ok (intReply 1) ∧
      (execStill (words ["HGET", "h", "f"])
        w).1 = .ok (bulkReply none) ∧
      (execStill (words ["HMGET", "h", "f"])
        w).1 = .ok (bulksReply [none]) ∧
      (execStill (words ["HGETALL", "h"]) w).1 =
        .ok (bulksReply [some (ascii "f"), some []]) :=
  ⟨rfl, rfl, rfl, rfl⟩

end TinyDb
