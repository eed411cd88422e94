import TinyRedis.FilledProofs

/-! # Collections that stay empty

    Six executors can leave a collection without elements in the map.  SMOVE keeps
    a source that it has emptied, and ZREM and the two ZREMRANGEBY commands a sorted
    set; ZADD stores the new sorted set before it looks at the first score; and HDEL
    deletes the key when `size` is 0, which it is not when the last field goes and
    `size` has counted a field twice.

    `Empties` says when they do, in terms of the command and the state before it.
    In a run from an empty store no key ever maps to an empty collection exactly
    when no step is of that kind (`no_empty_containers_iff`). -/

namespace TinyZSet

open GoString GoFloat

variable {F : Type} [Float64 F]

/-! ## Removing every member -/

namespace ZSet

/-- The set satisfies the representation invariant. -/
def InOrder (z : ZSet F) : Prop := ∃ ps, Repr z ps

/-- The search of `deleteNode` comes to the member's node: it stops in front of a
    node with this member, and with the score the map has for it. -/
def Finds (z : ZSet F) (m : Bytes) : Prop :=
  ∃ score p, z.dict m = some score ∧
    (z.mem (z.search (fun n _ => before score m n) z.level header 0 0).1).forward 0 = some p ∧
    eq (z.mem p).score score = true ∧ (z.mem p).member = m

/-- Members are removed one after the other, and at some time the next one is the
    only one left, and found. -/
inductive Drains : ZSet F → List Bytes → Prop
  | last {z : ZSet F} {m : Bytes} {ms : List Bytes}
      (honly : ∀ k, (z.dict k).isSome = true → k = m) (hfinds : z.Finds m) : Drains z (m :: ms)
  | next {z : ZSet F} {m : Bytes} {ms : List Bytes} (h : Drains (z.remove m).1 ms) :
      Drains z (m :: ms)

/-- The members that `RemRangeByRank` reads before it removes them. -/
def namedByRank (z : ZSet F) (start stop : Int) : List Bytes :=
  match normalise z.length start stop with
  | none => []
  | some (start, stop) => (z.range start stop).map fun p => (z.mem p).member

theorem remRangeByRank_eq (z : ZSet F) (start stop : Int) :
    z.remRangeByRank start stop = z.removeAll (z.namedByRank start stop) := by
  rw [remRangeByRank, namedByRank]
  cases normalise z.length start stop with
  | none => rfl
  | some bounds => rfl

theorem Finds.remove_dict {z : ZSet F} {m : Bytes} (h : z.Finds m) :
    (z.remove m).1.dict = Function.update z.dict m none := by
  obtain ⟨score, p, hdict, hnext, heq, hmem⟩ := h
  rw [remove, hdict]
  show (z.deleteNode m score).dict = _
  rw [deleteNode]
  simp only [hnext, heq, hmem, decide_true, Bool.and_self, if_true]
  exact (detach_nodes z _ p m).2.2.2.2.1

theorem remove_dict_of_not_finds {z : ZSet F} {m : Bytes} (h : ¬ z.Finds m) :
    (z.remove m).1.dict = z.dict := by
  rw [remove]
  cases hdict : z.dict m with
  | none => rfl
  | some score =>
    show (z.deleteNode m score).dict = _
    rw [deleteNode]
    dsimp only
    split
    · rfl
    · next p hnext =>
        rw [if_neg]
        intro hmatch
        rw [Bool.and_eq_true, decide_eq_true_eq] at hmatch
        exact h ⟨score, p, hdict, hnext, hmatch.1, hmatch.2⟩

/-- **A set is emptied** by the removal that finds its only member. -/
theorem removeAll_empties_iff {z : ZSet F} {ms : List Bytes} (hne : ∃ m, (z.dict m).isSome = true) :
    (∀ k, (z.removeAll ms).1.dict k = none) ↔ z.Drains ms := by
  induction ms generalizing z with
  | nil =>
    obtain ⟨m, hm⟩ := hne
    refine iff_of_false (fun h => ?_) fun h => by cases h
    rw [show z.dict m = none from h m] at hm
    cases hm
  | cons m ms ih =>
    show (∀ k, ((z.remove m).1.removeAll ms).1.dict k = none) ↔ _
    by_cases hleft : ∃ k, ((z.remove m).1.dict k).isSome = true
    -- something is left, so `m` was not the last one found
    · rw [ih hleft]
      refine ⟨.next, fun h => ?_⟩
      cases h with
      | next h => exact h
      | last honly hfinds =>
        obtain ⟨k, hk⟩ := hleft
        rw [hfinds.remove_dict] at hk
        by_cases hkm : k = m
        · rw [hkm, Function.update_self] at hk
          cases hk
        · rw [Function.update_of_ne hkm] at hk
          exact absurd (honly k hk) hkm
    · have hnone : ∀ k, (z.remove m).1.dict k = none := fun k =>
        Option.not_isSome_iff_eq_none.mp fun hk => hleft ⟨k, hk⟩
      have hfinds : z.Finds m := by
        by_contra hno
        obtain ⟨k, hk⟩ := hne
        rw [← remove_dict_of_not_finds hno, hnone k] at hk
        cases hk
      refine iff_of_true ?_ (.last (fun k hk => ?_) hfinds)
      · rw [removeAll_of_empty hnone]
        exact hnone
      · by_contra hkm
        have hk' := hnone k
        rw [hfinds.remove_dict, Function.update_of_ne hkm] at hk'
        rw [hk'] at hk
        cases hk

/-- In a set that is in order every member is found: it is emptied exactly when all
    are named. -/
theorem InOrder.removeAll_empties_iff {z : ZSet F} (h : z.InOrder) {ms : List Bytes} :
    (∀ k, (z.removeAll ms).1.dict k = none) ↔ ∀ k, (z.dict k).isSome = true → k ∈ ms := by
  obtain ⟨ps, hps⟩ := h
  refine forall_congr' fun k => ?_
  rw [hps.removeAll_dict]
  by_cases hk : k ∈ ms
  · simp [hk]
  · simp [hk]

end ZSet

end TinyZSet

namespace TinyDb

open GoString GoFloat GoProgram.Prog TinyResp TinyZSet

variable {F : Type} {env : Env} {w : World F}

/-! ## Stores -/

/-- Some key maps to a collection with zero elements. -/
def Store.HasEmpty (s : Store F) : Prop := ∃ key v, s.db.lookup key = some v ∧ v.Empty

namespace Store

variable {s : Store F} {key : Bytes} {v : Value F}

theorem Filled.not_hasEmpty (h : s.Filled) : ¬ s.HasEmpty := by
  rintro ⟨key, v, hdb, hempty⟩
  exact (h key v hdb).nonempty hempty

theorem Filled.checked (h : s.Filled) (key : Bytes) (now : Int) : (s.checked key now).Filled := by
  intro k v hv
  by_cases hk : k = key
  · subst hk
    rw [checked_lookup, Option.map_eq_some_iff] at hv
    obtain ⟨⟨v', d⟩, hlive, rfl⟩ := hv
    exact h k v' (live_eq_some.mp hlive).2.1
  · exact h k v ((s.checked_ne now hk).1 ▸ hv)

theorem Filled.set (h : s.Filled) (hv : v.Filled) : (s.set key v).Filled := by
  intro k u hu
  rw [set_db] at hu
  by_cases hk : k = key
  · rw [if_pos hk] at hu
    exact Option.some.inj hu ▸ hv
  · rw [if_neg hk] at hu
    exact h k u hu

theorem Filled.update (h : s.Filled) (hv : v.Filled) : (s.update key v).Filled := by
  unfold Store.update
  split
  · exact h.set hv
  · exact h

/-- A value that is written and then deleted. -/
theorem Filled.dropped (h : s.Filled) :
    ((((s.update key v).delete key).2).removeTTL key).Filled := by
  intro k u hu
  rw [removeTTL_db, delete_db] at hu
  by_cases hk : k = key
  · rw [if_pos hk] at hu
    cases hu
  · rw [if_neg hk, update_db, if_neg fun hand => hk hand.1] at hu
    exact h k u hu

/-- A write through the pointer to a key that is there. -/
theorem update_lookup {old : Value F} (hdb : s.db.lookup key = some old) :
    (s.update key v).db.lookup key = some v := by
  simp [hdb]

end Store

/-! ## Pieces of the commands -/

theorem outcome_removingFrom {key : Bytes} {remove : ZSet F → ZSet F × Int} {zset : ZSet F}
    (hdb : w.store.db.lookup key = some ⟨.zset, zset⟩) :
    (outcome env (removingFrom key remove) w).2 =
      w.store.update key ⟨.zset, (remove zset).1⟩ := by
  rw [removingFrom, withLock, outcome_withLocks, getZSet, op_bind, outcome_op, Op.step_get,
    Store.get_eq_found.mpr hdb]
  rfl

/-- Removing from a store without empty collections. -/
theorem removingFrom_filled {key : Bytes} {remove : ZSet F → ZSet F × Int} (hw : w.store.Filled)
    (hleft : ∀ zset, w.store.db.lookup key = some ⟨.zset, zset⟩ →
      ∃ m, ((remove zset).1.dict m).isSome = true) :
    (outcome env (removingFrom key remove) w).2.Filled := by
  cases hget : w.store.get .zset key with
  | found zset =>
    have hdb := Store.get_eq_found.mp hget
    obtain ⟨m, hm⟩ := hleft zset hdb
    rw [outcome_removingFrom hdb]
    exact hw.update (filled_zset hm)
  | absent =>
    rw [removingFrom, withLock, outcome_withLocks, getZSet, op_bind, outcome_op, Op.step_get, hget]
    exact hw
  | wrongType =>
    rw [removingFrom, withLock, outcome_withLocks, getZSet, op_bind, outcome_op, Op.step_get, hget]
    exact hw

/-- A sorted set in such a store has a member. -/
theorem Store.Filled.has_member {s : Store F} (hs : s.Filled) {key : Bytes} {zset : ZSet F}
    (hdb : s.db.lookup key = some ⟨.zset, zset⟩) : ∃ m, (zset.dict m).isSome = true := by
  by_contra hnone
  refine (hs key _ hdb).nonempty fun m => ?_
  exact Option.not_isSome_iff_eq_none.mp fun hm => hnone ⟨m, hm⟩

/-- A command that checks its key first and replies when it is due. -/
theorem filled_live {c : Caps} {key : Bytes} {reply : Reply} {body : Cmd F c Reply}
    (hw : w.store.Filled)
    (hbody : ¬ w.store.Due key (env.clock w.tick) →
      (outcome env body ⟨w.store, w.tick + 1, w.draws⟩).2.Filled) :
    (outcome env (checkTTL key >>= fun live => if !live then .ret reply else body) w).2.Filled := by
  by_cases hdue : w.store.Due key (env.clock w.tick)
  · rw [outcome_checkTTL_of_due hdue]
    exact hw.checked _ _
  · rw [outcome_checkTTL hdue]
    exact hbody hdue

/-- Every field has been deleted. -/
theorem hDelLoop_gone {hash : RedisHash} {fields : List (Option Bytes)} :
    (∀ f, (hDelLoop hash fields).1.exist f = false) ↔
      ∀ f, hash.exist f = true → f ∈ fields.map str := by
  have hmem := (hDelLoop_spec fields hash).2
  constructor
  · intro hnone f hf
    by_contra hout
    have hleft := (hmem f).mpr ⟨AList.lookup_isSome.mp hf, hout⟩
    exact Bool.false_ne_true ((hnone f).symm.trans (AList.lookup_isSome.mpr hleft))
  · intro hall f
    rw [Bool.eq_false_iff]
    intro hf
    obtain ⟨hin, hout⟩ := (hmem f).mp (AList.lookup_isSome.mp hf)
    exact hout (hall f (AList.lookup_isSome.mpr hin))

/-- What is left of the size when every field has been deleted. -/
theorem hDelLoop_isEmpty {hash : RedisHash} {fields : List (Option Bytes)}
    (hgone : ∀ f, (hDelLoop hash fields).1.exist f = false) :
    (hDelLoop hash fields).1.isEmpty = decide (hash.excess = 0) := by
  have hkeys : (hDelLoop hash fields).1.table.keys = [] := by
    refine List.eq_nil_iff_forall_not_mem.mpr fun f hf => ?_
    have hin := AList.lookup_isSome.mpr (AList.mem_keys.mpr hf)
    exact Bool.false_ne_true ((hgone f).symm.trans hin)
  have hsize : (hDelLoop hash fields).1.size = hash.excess := by
    rw [← (hDelLoop_spec fields hash).1, RedisHash.excess, RedisHash.fields, hkeys]
    exact (Int.sub_zero _).symm
  rw [RedisHash.isEmpty, hsize]

/-- A member that is added. -/
theorem filled_add {set : RedisSet} (hsized : set.Sized) (val : Bytes) :
    (⟨.set, (set.add val).1⟩ : Value F).Filled := by
  refine filled_set_of_has (x := val) (hsized.add val) ?_
  rw [RedisSet.has_add, decide_eq_true rfl, Bool.true_or]

/-- The store after SMOVE has moved, or not moved, a member. -/
def Store.moved (s : Store F) (src des val : Bytes) : Store F :=
  match s.get .set src with
  | .found srcSet =>
    match s.get .set des with
    | .wrongType => s
    | .absent =>
      if (srcSet.remove val).2 = 0 then s
      else (s.update src ⟨.set, (srcSet.remove val).1⟩).set des ⟨.set, (newSet.add val).1⟩
    | .found desSet =>
      if (srcSet.remove val).2 = 0 then s
      else (s.update src ⟨.set, (srcSet.remove val).1⟩).update des
        ⟨.set, ((if des = src then (srcSet.remove val).1 else desSet).add val).1⟩
  | _ => s

namespace Store

variable {s : Store F} {src des val : Bytes} {set : RedisSet}

/-- A member that is there is removed. -/
theorem remove_ne_zero (hval : set.has val = true) : ¬ (set.remove val).2 = 0 := by
  rw [RedisSet.remove, if_pos hval]
  exact one_ne_zero

/-- Nothing moves when the member is not there. -/
theorem moved_of_not_has (hsrc : s.db.lookup src = some ⟨.set, set⟩) (hval : ¬ set.has val = true) :
    s.moved src des val = s := by
  have hstay : (set.remove val).2 = 0 := by
    rw [RedisSet.remove, if_neg hval]
  rw [moved, get_eq_found.mpr hsrc]
  dsimp only
  cases s.get .set des with
  | wrongType => rfl
  | absent => exact if_pos hstay
  | found desSet => exact if_pos hstay

/-- A member that is taken out of a set and put back. -/
theorem Filled.moved_self (hs : s.Filled) (hsrc : s.db.lookup src = some ⟨.set, set⟩)
    (hval : set.has val = true) : (s.moved src src val).Filled := by
  rw [moved, get_eq_found.mpr hsrc]
  dsimp only
  rw [if_neg (remove_ne_zero hval), if_pos rfl]
  intro k v hv
  rw [update_db, update_db, update_db] at hv
  by_cases hk : k = src
  · simp only [hk, hsrc, Option.isSome_some, and_self, if_true, Option.some.injEq] at hv
    rw [← hv]
    exact filled_add ((hs src _ hsrc).counted.remove val) val
  · simp only [hk, false_and, if_false] at hv
    exact hs k v hv

/-- A member that moves to another key. -/
theorem moved_lookup (hs : s.Filled) (hother : des ≠ src)
    (hsrc : s.db.lookup src = some ⟨.set, set⟩) (hval : set.has val = true)
    (hdes : s.get .set des ≠ .wrongType) : ∃ v : Value F, v.Filled ∧ ∀ k,
      (s.moved src des val).db.lookup k = if k = des then some v
        else if k = src then some ⟨.set, (set.remove val).1⟩ else s.db.lookup k := by
  have hthere : (s.db.lookup src).isSome = true := by
    rw [hsrc]
    rfl
  rw [moved, get_eq_found.mpr hsrc]
  dsimp only
  cases hget : s.get .set des with
  | wrongType => exact absurd hget hdes
  | absent =>
    refine ⟨⟨.set, (newSet.add val).1⟩, filled_add RedisSet.sized_newSet val, fun k => ?_⟩
    dsimp only
    rw [if_neg (remove_ne_zero hval), set_db, update_db]
    simp [hthere]
  | found desSet =>
    have hdb := get_eq_found.mp hget
    refine ⟨⟨.set, (desSet.add val).1⟩, filled_add (hs des _ hdb).counted val, fun k => ?_⟩
    dsimp only
    rw [if_neg (remove_ne_zero hval), if_neg hother, update_db, update_db, update_db]
    simp [hthere, hdb, hother]

/-- SMOVE leaves no empty set when it does not move the only member to another key. -/
theorem Filled.moved (hs : s.Filled)
    (hleft : des ≠ src → ∀ set, s.db.lookup src = some ⟨.set, set⟩ → set.has val = true →
      s.get .set des ≠ .wrongType → ∃ x, x ≠ val ∧ set.has x = true) :
    (s.moved src des val).Filled := by
  cases hget : s.get .set src with
  | absent =>
    rw [Store.moved, hget]
    exact hs
  | wrongType =>
    rw [Store.moved, hget]
    exact hs
  | found srcSet =>
    have hsrc := get_eq_found.mp hget
    by_cases hval : srcSet.has val = true
    swap
    · rw [moved_of_not_has hsrc hval]
      exact hs
    by_cases hdes : s.get .set des = .wrongType
    · rw [Store.moved, hget, hdes]
      exact hs
    by_cases hother : des = src
    · rw [hother]
      exact hs.moved_self hsrc hval
    obtain ⟨v, hv, hlookup⟩ := moved_lookup hs hother hsrc hval hdes
    obtain ⟨x, hx, hhas⟩ := hleft hother srcSet hsrc hval hdes
    intro k u hu
    rw [hlookup] at hu
    by_cases hk : k = des
    · rw [if_pos hk] at hu
      exact Option.some.inj hu ▸ hv
    rw [if_neg hk] at hu
    by_cases hk' : k = src
    · rw [if_pos hk'] at hu
      rw [← Option.some.inj hu]
      refine filled_set_of_has (x := x) ((hs src _ hsrc).counted.remove val) ?_
      rw [RedisSet.has_remove, decide_eq_true hx, hhas]
      rfl
    · rw [if_neg hk'] at hu
      exact hs k u hu

end Store

theorem statusReply_inj {s t : String} (h : statusReply s = statusReply t) : ascii s = ascii t :=
  RedisData.stringData.inj (Option.some.inj h)

/-- The types have different names, and none is called none. -/
theorem kind_name_inj (kind : Kind) : ascii "none" ≠ ascii kind.name ∧
    ∀ kind' : Kind, ascii kind'.name = ascii kind.name → kind' = kind := by
  refine ⟨?_, fun kind' => ?_⟩
  · cases kind <;> decide
  · cases kind <;> cases kind' <;> decide

section Floats

variable [FloatText F]

/-- When a removal takes every member, in terms of the set before it. -/
theorem Store.Filled.removes_all_iff {s : Store F} (hs : s.Filled) {key : Bytes} {zset : ZSet F}
    (hdb : s.db.lookup key = some ⟨.zset, zset⟩) (ms : List Bytes) :
    (∀ m, (zset.removeAll ms).1.dict m = none) ↔
      (zset.InOrder ∧ ∀ m, (zset.dict m).isSome = true → m ∈ ms) ∨
        (¬ zset.InOrder ∧ zset.Drains ms) := by
  by_cases horder : zset.InOrder
  · simp [horder, horder.removeAll_empties_iff]
  · simp [horder, ZSet.removeAll_empties_iff (hs.has_member hdb)]

/-- The members that are there stay, and the first pair adds one. -/
theorem addPairs_members (level : Nat → Nat) (pairs : List (Bytes × F)) :
    ∀ (d : Nat) (zset : ZSet F), (pairs ≠ [] ∨ ∃ m, (zset.dict m).isSome = true) →
      ∃ m, ((addPairs level pairs d zset).1.dict m).isSome = true := by
  induction pairs with
  | nil => exact fun d zset h => h.resolve_left fun hne => hne rfl
  | cons pair rest ih =>
    intro d zset _
    exact ih (d + 1) _ (Or.inr ⟨pair.1, isSome_dict_add_self zset pair.1 pair.2 (level d)⟩)

theorem Store.Filled.zadded {s : Store F} (hs : s.Filled) {level : Nat → Nat} {d : Nat}
    {key : Bytes} {args : List (Option Bytes)}
    (hfirst : s.db.lookup key = none → (scorePairs args : List (Bytes × F) × Bool).1 ≠ []) :
    (s.zadded level d key args).Filled := by
  unfold Store.zadded
  cases hget : s.get .zset key with
  | wrongType => exact hs
  | absent =>
    obtain ⟨m, hm⟩ := addPairs_members level (scorePairs args).1 d (newZSet : ZSet F)
      (Or.inl (hfirst (Store.get_eq_absent.mp hget)))
    intro k v hv
    rw [Store.update_db, Store.set_db, Store.set_db, if_pos rfl] at hv
    by_cases hk : k = key
    · rw [if_pos ⟨hk, rfl⟩] at hv
      exact Option.some.inj hv ▸ filled_zset hm
    · rw [if_neg fun hand => hk hand.1, if_neg hk] at hv
      exact hs k v hv
  | found zset =>
    obtain ⟨m, hm⟩ := addPairs_members level (scorePairs args).1 d zset
      (Or.inr (hs.has_member (Store.get_eq_found.mp hget)))
    exact hs.update (filled_zset hm)

end Floats

/-! ## When a command empties a collection -/

section Commands

variable [UnicodeTables] [FloatText F] {host : Host} {cmd : Command}

/-- The commands that remove members of the sorted set at a key, and the members they
    are to remove: those that are named, or those of the nodes that the range reads. -/
inductive Removal (F : Type) [FloatText F] : Command → Bytes → (ZSet F → List Bytes) → Prop
  | zrem {name key : Option Bytes} {members : List (Option Bytes)}
      (hname : toLower (str name) = ascii "zrem") (hmembers : members ≠ []) :
      Removal F (name :: key :: members) (str key) fun _ => members.map str
  | byRank {name key first last : Option Bytes} {start stop : Int}
      (hname : toLower (str name) = ascii "zremrangebyrank")
      (hargs : rankArgs (str first) (str last) = .ok (start, stop)) :
      Removal F [name, key, first, last] (str key) fun zset => zset.namedByRank start stop
  | byScore {name key first last : Option Bytes} {min max : F}
      (hname : toLower (str name) = ascii "zremrangebyscore")
      (hargs : scoreArgs (str first) (str last) = .ok (min, max)) :
      Removal F [name, key, first, last] (str key) fun zset => zset.collect min max zset.nodes

/-- The command leaves a collection empty, when it runs in `w`. -/
inductive Empties (env : Env) (w : World F) : Command → Prop
  /-- HDEL of every field of a hash whose size is not the number of its fields. -/
  | hdel {name key : Option Bytes} {fields : List (Option Bytes)} {hash : RedisHash}
      (hname : toLower (str name) = ascii "hdel") (hfields : fields ≠ [])
      (hdue : ¬ w.store.Due (str key) (env.clock w.tick))
      (hdb : w.store.db.lookup (str key) = some ⟨.hash, hash⟩)
      (hall : ∀ f, hash.exist f = true → f ∈ fields.map str) (hsize : hash.excess ≠ 0) :
      Empties env w (name :: key :: fields)
  /-- SMOVE of the only member to another key. -/
  | smove {name src des val : Option Bytes} {set : RedisSet}
      (hname : toLower (str name) = ascii "smove") (hother : str des ≠ str src)
      (hdue : ¬ w.store.Due (str src) (env.clock (w.tick + 1)))
      (hdb : w.store.db.lookup (str src) = some ⟨.set, set⟩)
      (honly : ∀ x, set.has x = true ↔ x = str val)
      (hdes : (w.store.checked (str des) (env.clock w.tick)).get .set (str des) ≠ .wrongType) :
      Empties env w [name, src, des, val]
  /-- ZADD to a key that is not there, when the first score does not parse. -/
  | zadd {name key score member : Option Bytes} {args : List (Option Bytes)}
      (hname : toLower (str name) = ascii "zadd") (heven : args.length % 2 = 0)
      (hlive : w.store.live (env.clock w.tick) (str key) = none)
      (hscore : (FloatText.parse (str score) : Option F) = none) :
      Empties env w (name :: key :: score :: member :: args)
  /-- The removal of every member of a sorted set that is in order. -/
  | removal {cmd : Command} {key : Bytes} {names : ZSet F → List Bytes} {zset : ZSet F}
      (hremove : Removal F cmd key names) (hdue : ¬ w.store.Due key (env.clock w.tick))
      (hdb : w.store.db.lookup key = some ⟨.zset, zset⟩) (horder : zset.InOrder)
      (hall : ∀ m, (zset.dict m).isSome = true → m ∈ names zset) : Empties env w cmd
  /-- The removal of the last member of a set that a NaN score has put out of order:
      there a member that is named need not be found. -/
  | disorder {cmd : Command} {key : Bytes} {names : ZSet F → List Bytes} {zset : ZSet F}
      (hremove : Removal F cmd key names) (hdue : ¬ w.store.Due key (env.clock w.tick))
      (hdb : w.store.db.lookup key = some ⟨.zset, zset⟩) (horder : ¬ zset.InOrder)
      (hdrains : zset.Drains (names zset)) : Empties env w cmd

/-! ## Removing from sorted sets -/

omit [FloatText F] in
theorem outcome_removingRange {α : Type} {name : String} {bounds : Bytes → Bytes → Except Reply α}
    {remove : ZSet F → α → ZSet F × Int} {name' key first last : Option Bytes} {range : α}
    {zset : ZSet F} (hname : toLower (str name') = ascii name)
    (hargs : bounds (str first) (str last) = .ok range)
    (hdue : ¬ w.store.Due (str key) (env.clock w.tick))
    (hdb : w.store.db.lookup (str key) = some ⟨.zset, zset⟩) :
    (outcome env (removingRange [name', key, first, last] name bounds remove) w).2 =
      w.store.update (str key) ⟨.zset, (remove zset range).1⟩ := by
  have hlen : decide ([name', key, first, last].length = 4) = true := rfl
  rw [removingRange, zNamed_eq (List.cons_ne_nil _ _) hname hlen, strAt_bind rfl,
    outcome_checkTTL hdue, if_neg (by decide), strAt_bind rfl, strAt_bind rfl, hargs]
  exact outcome_removingFrom hdb

/-- What the commands do that remove members. -/
theorem Removal.exec_store {key : Bytes} {names : ZSet F → List Bytes} {zset : ZSet F}
    (h : Removal F cmd key names) (hdue : ¬ w.store.Due key (env.clock w.tick))
    (hdb : w.store.db.lookup key = some ⟨.zset, zset⟩) :
    (execCommand host env cmd w).2.store =
      w.store.update key ⟨.zset, (zset.removeAll (names zset)).1⟩ := by
  cases h with
  | @zrem name key members hname hmembers =>
    have hmem : Registered F host "zrem" zRemZset := by simp [Registered, cmdTable]
    have hlen : decide ((name :: key :: members).length ≥ 3) = true := by
      have hpos := List.length_pos_iff.mpr hmembers
      simp only [List.length_cons]
      exact decide_eq_true (by omega)
    rw [TinyDb.exec_store hmem (List.cons_ne_nil _ _) hname]
    show (outcome env (zRemZset (name :: key :: members)) w).2 = _
    rw [zRemZset, zNamed_eq (List.cons_ne_nil _ _) hname hlen, strAt_bind rfl,
      outcome_checkTTL hdue, if_neg (by decide)]
    exact outcome_removingFrom hdb
  | @byRank name key first last start stop hname hargs =>
    have hmem : Registered F host "zremrangebyrank" zRemRangeByRankZset := by
      simp [Registered, cmdTable]
    rw [TinyDb.exec_store hmem (List.cons_ne_nil _ _) hname]
    dsimp only
    rw [zRemRangeByRankZset, outcome_removingRange hname hargs hdue hdb, ← ZSet.remRangeByRank_eq]
  | @byScore name key first last min max hname hargs =>
    have hmem : Registered F host "zremrangebyscore" zRemRangeByScoreZset := by
      simp [Registered, cmdTable]
    rw [TinyDb.exec_store hmem (List.cons_ne_nil _ _) hname]
    dsimp only
    rw [zRemRangeByScoreZset, outcome_removingRange hname hargs hdue hdb]
    rfl

/-- A removal that is not of every member. -/
theorem Removal.filled {key : Bytes} {names : ZSet F → List Bytes} {remove : ZSet F → ZSet F × Int}
    (hremove : Removal F cmd key names) (heq : ∀ zset, remove zset = zset.removeAll (names zset))
    (hw : w.store.Filled) (hdue : ¬ w.store.Due key (env.clock w.tick)) (h : ¬ Empties env w cmd)
    (t : Nat) :
    (outcome env (removingFrom key remove) ⟨w.store, t, w.draws⟩).2.Filled := by
  refine removingFrom_filled hw fun zset hdb => ?_
  by_contra hnone
  have hgone : ∀ m, (zset.removeAll (names zset)).1.dict m = none := fun m =>
    Option.not_isSome_iff_eq_none.mp fun hm => hnone ⟨m, by rw [heq]; exact hm⟩
  rcases (hw.removes_all_iff hdb _).mp hgone with ⟨horder, hall⟩ | ⟨horder, hdrains⟩
  · exact h (.removal hremove hdue hdb horder hall)
  · exact h (.disorder hremove hdue hdb horder hdrains)

omit [FloatText F] in
/-- A command of the wrong length. -/
theorem filled_zNamed {c : Caps} {name : String} {lengthOk : Bool} {body : Cmd F c Reply}
    (hne : cmd ≠ []) (hname : toLower (cmdName cmd) = ascii name) (hw : w.store.Filled)
    (hbody : lengthOk = true → (outcome env body w).2.Filled) :
    (outcome env (zNamed cmd name lengthOk body) w).2.Filled := by
  cases lengthOk with
  | true =>
    rw [zNamed_eq hne hname rfl]
    exact hbody rfl
  | false =>
    obtain ⟨a, rest, rfl⟩ := List.exists_cons_of_ne_nil hne
    have hbad : toLower (str a) ≠ ascii name ∨ (!false) = true := Or.inr rfl
    rw [zNamed, strAt_bind (a := a) rfl, if_pos hbad]
    exact hw

theorem zRemZset_filled (hne : cmd ≠ []) (hname : toLower (cmdName cmd) = ascii "zrem")
    (hw : w.store.Filled) (h : ¬ Empties env w cmd) :
    (outcome env (zRemZset cmd : Cmd F _ _) w).2.Filled := by
  refine filled_zNamed hne hname hw fun hlen => ?_
  obtain ⟨name, key, members, rfl, hmembers⟩ :
      ∃ name key members, cmd = name :: key :: members ∧ members ≠ [] := by
    rcases cmd with _ | ⟨name, _ | ⟨key, _ | ⟨member, rest⟩⟩⟩
    · exact absurd rfl hne
    · exact absurd (of_decide_eq_true hlen) (by simp)
    · exact absurd (of_decide_eq_true hlen) (by simp)
    · exact ⟨name, key, _, rfl, List.cons_ne_nil _ _⟩
  rw [strAt_bind rfl]
  exact filled_live hw fun hdue => (Removal.zrem hname hmembers).filled (fun _ => rfl) hw hdue h _

theorem removingRange_filled {α : Type} {name : String} {bounds : Bytes → Bytes → Except Reply α}
    {remove : ZSet F → α → ZSet F × Int} {names : α → ZSet F → List Bytes} (hne : cmd ≠ [])
    (hname : toLower (cmdName cmd) = ascii name) (hw : w.store.Filled) (h : ¬ Empties env w cmd)
    (heq : ∀ zset range, remove zset range = zset.removeAll (names range zset))
    (hremove : ∀ {name' key first last range}, cmd = [name', key, first, last] →
      bounds (str first) (str last) = .ok range → Removal F cmd (str key) (names range)) :
    (outcome env (removingRange cmd name bounds remove) w).2.Filled := by
  refine filled_zNamed hne hname hw fun hlen => ?_
  obtain ⟨name', key, first, last, rfl⟩ := List.length_eq_four.mp (of_decide_eq_true hlen)
  rw [strAt_bind rfl]
  refine filled_live hw fun hdue => ?_
  rw [strAt_bind rfl, strAt_bind rfl]
  cases hargs : bounds (str first) (str last) with
  | error reply => exact hw
  | ok range => exact (hremove rfl hargs).filled (fun zset => heq zset range) hw hdue h _

/-! ## HDEL -/

omit [FloatText F] in
/-- HDEL on a hash: what is left is written back, and the key deleted when `size`
    is 0. -/
theorem outcome_hDelHash_found {name key : Option Bytes} {fields : List (Option Bytes)}
    {hash : RedisHash} (hname : toLower (str name) = ascii "hdel") (hfields : fields ≠ [])
    (hdue : ¬ w.store.Due (str key) (env.clock w.tick))
    (hdb : w.store.db.lookup (str key) = some ⟨.hash, hash⟩) :
    (outcome env (hDelHash (name :: key :: fields) : Cmd F _ _) w).2 =
      if (hDelLoop hash fields).1.isEmpty then
        (((w.store.update (str key) ⟨.hash, (hDelLoop hash fields).1⟩).delete
          (str key)).2).removeTTL
          (str key)
      else w.store.update (str key) ⟨.hash, (hDelLoop hash fields).1⟩ := by
  have hlen : ¬ (name :: key :: fields).length < 3 := by
    have hpos := List.length_pos_iff.mpr hfields
    simp only [List.length_cons]
    omega
  have hdrop : (name :: key :: fields).drop 2 = fields := rfl
  rw [hDelHash, named_cons hname, if_neg hlen, strAt_bind rfl, outcome_checkTTL hdue,
    if_neg (by decide), withLock, outcome_withLocks, outcome_get, Store.get_eq_found.mpr hdb]
  dsimp only
  rw [hdrop, outcome_update]
  cases (hDelLoop hash fields).1.isEmpty with
  | true => rfl
  | false => rfl

theorem hDelHash_filled (hne : cmd ≠ []) (hname : toLower (cmdName cmd) = ascii "hdel")
    (hw : w.store.Filled) (h : ¬ Empties env w cmd) :
    (outcome env (hDelHash cmd : Cmd F _ _) w).2.Filled := by
  rcases cmd with _ | ⟨name, _ | ⟨key, _ | ⟨field, fields⟩⟩⟩
  · exact absurd rfl hne
  · rw [hDelHash, named_eq hne hname, if_pos (by simp)]
    exact hw
  · rw [hDelHash, named_eq hne hname, if_pos (by simp)]
    exact hw
  have hname' : toLower (str name) = ascii "hdel" := hname
  by_cases hdue : w.store.Due (str key) (env.clock w.tick)
  · rw [hDelHash, named_eq hne hname, if_neg (by simp), strAt_bind rfl,
      outcome_checkTTL_of_due hdue]
    exact hw.checked _ _
  cases hget : w.store.get .hash (str key) with
  | found hash =>
    have hdb := Store.get_eq_found.mp hget
    rw [outcome_hDelHash_found hname' (List.cons_ne_nil _ _) hdue hdb]
    by_cases hempty : (hDelLoop hash (field :: fields)).1.isEmpty = true
    · rw [if_pos hempty]
      exact hw.dropped
    · rw [if_neg hempty]
      refine hw.update ⟨trivial, fun hgone => ?_⟩
      have hsize : hash.excess ≠ 0 := by
        rw [hDelLoop_isEmpty hgone] at hempty
        exact of_decide_eq_false (Bool.eq_false_iff.mpr hempty)
      exact h (.hdel hname' (List.cons_ne_nil _ _) hdue hdb (hDelLoop_gone.mp hgone) hsize)
  | absent =>
    rw [hDelHash, named_eq hne hname, if_neg (by simp), strAt_bind rfl, outcome_checkTTL hdue,
      if_neg (by decide), withLock, outcome_withLocks, outcome_get, hget]
    exact hw
  | wrongType =>
    rw [hDelHash, named_eq hne hname, if_neg (by simp), strAt_bind rfl, outcome_checkTTL hdue,
      if_neg (by decide), withLock, outcome_withLocks, outcome_get, hget]
    exact hw

/-! ## SMOVE -/

omit [FloatText F] in
/-- SMOVE when the source is not due. -/
theorem outcome_sMoveSet {name src des val : Option Bytes} {s : Store F}
    (hname : toLower (str name) = ascii "smove")
    (hs : w.store.checked (str des) (env.clock w.tick) = s)
    (hdue : ¬ s.Due (str src) (env.clock (w.tick + 1))) :
    (outcome env (sMoveSet [name, src, des, val] : Cmd F _ _) w).2 =
      s.moved (str src) (str des) (str val) := by
  have hlen : ¬ [name, src, des, val].length ≠ 4 := not_not.mpr rfl
  rw [sMoveSet, named_cons hname, if_neg hlen, strAt_bind rfl, strAt_bind rfl, strAt_bind rfl,
    outcome_checkTTL_ignored, hs, outcome_checkTTL hdue, if_neg (by decide), outcome_withLocks,
    outcome_get, Store.moved]
  cases s.get .set (str src) with
  | absent => rfl
  | wrongType => rfl
  | found srcSet =>
    dsimp only
    rw [outcome_get]
    cases s.get .set (str des) with
    | wrongType => rfl
    | absent =>
      dsimp only
      split <;> rfl
    | found desSet =>
      dsimp only
      split <;> rfl

theorem sMoveSet_filled (hne : cmd ≠ []) (hname : toLower (cmdName cmd) = ascii "smove")
    (hw : w.store.Filled) (h : ¬ Empties env w cmd) :
    (outcome env (sMoveSet cmd : Cmd F _ _) w).2.Filled := by
  by_cases hlen : cmd.length = 4
  swap
  · rw [sMoveSet, named_eq hne hname, if_pos hlen]
    exact hw
  obtain ⟨name, src, des, val, rfl⟩ := List.length_eq_four.mp hlen
  have hs := hw.checked (str des) (env.clock w.tick)
  by_cases hdue : (w.store.checked (str des) (env.clock w.tick)).Due (str src)
      (env.clock (w.tick + 1))
  · rw [sMoveSet, named_eq hne hname, if_neg (not_not.mpr hlen), strAt_bind rfl, strAt_bind rfl,
      strAt_bind rfl, outcome_checkTTL_ignored, outcome_checkTTL_of_due hdue]
    exact hs.checked _ _
  have hname' : toLower (str name) = ascii "smove" := hname
  rw [outcome_sMoveSet hname' rfl hdue]
  refine hs.moved fun hother set hsrc hval hdes => ?_
  by_contra honly
  obtain ⟨hdb, httl⟩ := w.store.checked_ne (env.clock w.tick) (Ne.symm hother)
  rw [Store.Due, httl] at hdue
  rw [hdb] at hsrc
  refine h (.smove hname' hother hdue hsrc (fun x => ?_) hdes)
  constructor
  · intro hx
    by_contra hne
    exact honly ⟨x, hne, hx⟩
  · rintro rfl
    exact hval

/-! ## ZADD -/

theorem zAddZset_filled (hne : cmd ≠ []) (hname : toLower (cmdName cmd) = ascii "zadd")
    (hw : w.store.Filled) (h : ¬ Empties env w cmd) :
    (outcome env (zAddZset cmd : Cmd F _ _) w).2.Filled := by
  by_cases hlen : cmd.length < 3 ∨ cmd.length % 2 ≠ 0
  · rw [zAddZset, named_eq hne hname, if_pos hlen]
    exact hw
  rw [not_or, not_not] at hlen
  rcases cmd with _ | ⟨name, _ | ⟨key, _ | ⟨score, _ | ⟨member, args⟩⟩⟩⟩
  · exact absurd rfl hne
  · simp at hlen
  · simp at hlen
  · simp at hlen
  have hname' : toLower (str name) = ascii "zadd" := hname
  have heven : args.length % 2 = 0 := by
    have := hlen.2
    simp only [List.length_cons] at this
    omega
  obtain ⟨_, hrun, -⟩ := outcome_zAddZset env w key hname'
    (List.cons_ne_nil score (member :: args)) (by
      simp only [List.length_cons]
      omega)
  rw [hrun]
  refine (hw.checked _ _).zadded fun habsent => ?_
  -- the first score parses, or the command would leave the new set empty
  cases hscore : (FloatText.parse (str score) : Option F) with
  | none =>
    rw [Store.checked_lookup, Option.map_eq_none_iff] at habsent
    exact absurd (.zadd hname' heven habsent hscore) h
  | some x =>
    rw [scorePairs, hscore]
    exact List.cons_ne_nil _ _

/-! ## One command -/

/-- **A command that empties a collection leaves it in the map.** -/
theorem Empties.hasEmpty (hw : w.store.Filled) (h : Empties env w cmd) :
    (execCommand host env cmd w).2.store.HasEmpty := by
  cases h with
  | @hdel name key fields hash hname hfields hdue hdb hall hsize =>
    have hmem : Registered F host "hdel" hDelHash := by simp [Registered, cmdTable]
    have hgone := hDelLoop_gone.mpr hall
    have hkept : ¬ (hDelLoop hash fields).1.isEmpty = true := by
      rw [hDelLoop_isEmpty hgone, decide_eq_true_eq]
      exact hsize
    rw [exec_store hmem (List.cons_ne_nil _ _) hname,
      outcome_hDelHash_found hname hfields hdue hdb, if_neg hkept]
    exact ⟨str key, _, Store.update_lookup hdb, hgone⟩
  | @smove name src des val set hname hother hdue hdb honly hdes =>
    have hmem : Registered F host "smove" sMoveSet := by simp [Registered, cmdTable]
    obtain ⟨hdb', httl⟩ := w.store.checked_ne (env.clock w.tick) (Ne.symm hother)
    rw [← hdb'] at hdb
    rw [Store.Due, ← httl] at hdue
    obtain ⟨v, -, hlookup⟩ := Store.moved_lookup (hw.checked _ _) hother hdb
      ((honly _).mpr rfl) hdes
    rw [exec_store hmem (List.cons_ne_nil _ _) hname, outcome_sMoveSet hname rfl hdue]
    refine ⟨str src, ⟨.set, (set.remove (str val)).1⟩, (hlookup _).trans ?_, fun x => ?_⟩
    · rw [if_neg (Ne.symm hother), if_pos rfl]
    · rw [RedisSet.has_remove, Bool.eq_false_iff, ne_eq, Bool.and_eq_true, decide_eq_true_eq]
      rintro ⟨hne, hx⟩
      exact hne ((honly x).mp hx)
  | @zadd name key score member args hname heven hlive hscore =>
    have hmem : Registered F host "zadd" zAddZset := by simp [Registered, cmdTable]
    have habsent : (w.store.checked (str key) (env.clock w.tick)).get .zset (str key) =
        .absent := by
      rw [Store.get_eq_absent, Store.checked_lookup, hlive]
      rfl
    obtain ⟨_, hrun, -⟩ := outcome_zAddZset env w key hname
      (List.cons_ne_nil score (member :: args)) (by
        simp only [List.length_cons]
        omega)
    rw [exec_store hmem (List.cons_ne_nil _ _) hname, hrun, Store.zadded, habsent]
    refine ⟨str key, ⟨.zset, newZSet⟩, ?_, fun m => rfl⟩
    rw [scorePairs, hscore]
    simp [addPairs]
  | removal hremove hdue hdb horder hall =>
    rw [hremove.exec_store hdue hdb]
    exact ⟨_, _, Store.update_lookup hdb, (hw.removes_all_iff hdb _).mpr (.inl ⟨horder, hall⟩)⟩
  | disorder hremove hdue hdb horder hdrains =>
    rw [hremove.exec_store hdue hdb]
    exact ⟨_, _, Store.update_lookup hdb,
      (hw.removes_all_iff hdb _).mpr (.inr ⟨horder, hdrains⟩)⟩

/-- **Any other command leaves none.** -/
theorem exec_filled (hw : w.store.Filled) (h : ¬ Empties env w cmd) :
    (execCommand host env cmd w).2.store.Filled := by
  rcases execCommand_cases host env cmd w with ⟨reply, heq, -⟩ | ⟨name, e, hmem, hname, -, hne, heq⟩
  · rw [heq]
    exact hw
  by_cases hplain : name ∈ emptying
  swap
  · rw [heq]
    exact (cmdTable_fills host _ hmem hplain cmd).run env hw
  have hexec : ∀ {e : Executor F}, (name, e) ∈ cmdTable host →
      (outcome env (e.body cmd) w).2.Filled → (execCommand host env cmd w).2.store.Filled := by
    intro e' hmem' hfilled
    rw [exec_store hmem' hne hname.symm]
    exact hfilled
  simp only [emptying, List.mem_cons, List.not_mem_nil, or_false] at hplain
  rcases hplain with rfl | rfl | rfl | rfl | rfl | rfl
  · exact hexec (e := ⟨_, hDelHash⟩) (by simp [cmdTable]) (hDelHash_filled hne hname.symm hw h)
  · exact hexec (e := ⟨_, sMoveSet⟩) (by simp [cmdTable]) (sMoveSet_filled hne hname.symm hw h)
  · exact hexec (e := ⟨_, zAddZset⟩) (by simp [cmdTable]) (zAddZset_filled hne hname.symm hw h)
  · exact hexec (e := ⟨_, zRemZset⟩) (by simp [cmdTable]) (zRemZset_filled hne hname.symm hw h)
  · refine hexec (e := ⟨_, zRemRangeByRankZset⟩) (by simp [cmdTable])
      (removingRange_filled hne hname.symm hw h (fun zset _ => zset.remRangeByRank_eq _ _) ?_)
    rintro _ _ _ _ _ rfl hargs
    exact .byRank hname.symm hargs
  · refine hexec (e := ⟨_, zRemRangeByScoreZset⟩) (by simp [cmdTable])
      (removingRange_filled hne hname.symm hw h (fun _ _ => rfl) ?_)
    rintro _ _ _ _ _ rfl hargs
    exact .byScore hname.symm hargs

/-! ## What EXISTS and TYPE report -/

/-- No key maps to a collection with zero elements, and a key that EXISTS counts or
    whose type TYPE tells is the key of a value that is not such a collection. -/
structure NoEmpty (host : Host) (env : Env) (w : World F) : Prop where
  nowhere : ¬ w.store.HasEmpty
  type : ∀ name key kind, toLower (str name) = ascii "type" →
    (execCommand host env [name, key] w).1 = .ok (statusReply (Kind.name kind)) →
    ∃ v, w.store.db.lookup (str key) = some v ∧ v.kind = kind ∧ ¬ v.Empty
  exists_ : ∀ name key, toLower (str name) = ascii "exists" →
    (execCommand host env [name, key] w).1 = .ok (intReply 1) →
    ∃ v, w.store.db.lookup (str key) = some v ∧ ¬ v.Empty

theorem type_reports {name key : Option Bytes} {kind : Kind}
    (hname : toLower (str name) = ascii "type")
    (h : (execCommand host env [name, key] w).1 = .ok (statusReply kind.name)) :
    ∃ v, w.store.db.lookup (str key) = some v ∧ v.kind = kind := by
  have hmem : Registered F host "type" typeKey := by simp [Registered, cmdTable]
  have hpass : ¬ (toLower (str name) ≠ ascii "type" ∨ [name, key].length ≠ 2) := by
    rw [hname]
    simp
  rw [exec_reply hmem (List.cons_ne_nil _ _) hname] at h
  have h : (outcome env (typeKey [name, key] : Cmd F _ _) w).1 = _ := h
  rw [typeKey, strAt_bind rfl, if_neg hpass, strAt_bind rfl] at h
  by_cases hdue : w.store.Due (str key) (env.clock w.tick)
  · rw [outcome_checkTTL_of_due hdue] at h
    cases h
  rw [outcome_checkTTL hdue, if_neg (by decide), withRLock, outcome_withRLocks, typeOf, op_bind,
    outcome_op, Op.step_typeOf, ret_bind] at h
  cases hv : w.store.db.lookup (str key) with
  | none =>
    rw [hv] at h
    exact absurd (statusReply_inj (Except.ok.inj h)) (kind_name_inj kind).1
  | some v =>
    rw [hv] at h
    exact ⟨v, rfl, (kind_name_inj kind).2 v.kind (statusReply_inj (Except.ok.inj h))⟩

theorem exists_reports {name key : Option Bytes} (hname : toLower (str name) = ascii "exists")
    (h : (execCommand host env [name, key] w).1 = .ok (intReply 1)) :
    ∃ v, w.store.db.lookup (str key) = some v := by
  have hmem : Registered F host "exists" existsKey := by simp [Registered, cmdTable]
  have hpass : ¬ (toLower (str name) ≠ ascii "exists" ∨ [name, key].length < 2) := by
    rw [hname]
    simp
  rw [exec_reply hmem (List.cons_ne_nil _ _) hname] at h
  have h : (outcome env (existsKey [name, key] : Cmd F _ _) w).1 = _ := h
  rw [existsKey, strAt_bind rfl, if_neg hpass] at h
  refine Option.isSome_iff_exists.mp ?_
  by_contra hnone
  have hzero : (outcome env (existsLoop [key] 0 >>= fun n => pure (intReply n) : Cmd F reads Reply)
      w).1 = .ok (intReply 0) := by
    rw [existsLoop, bind_bind]
    by_cases hdue : w.store.Due (str key) (env.clock w.tick)
    · rw [outcome_checkTTL_of_due hdue]
      rfl
    · rw [outcome_checkTTL hdue]
      simp [existsLoop, hnone]
  cases hzero.symm.trans h

theorem NoEmpty.of_not_hasEmpty (h : ¬ w.store.HasEmpty) : NoEmpty host env w where
  nowhere := h
  type name key kind hname hreply := by
    obtain ⟨v, hv, hkind⟩ := type_reports hname hreply
    exact ⟨v, hv, hkind, fun hempty => h ⟨_, v, hv, hempty⟩⟩
  exists_ name key hname hreply := by
    obtain ⟨v, hv⟩ := exists_reports hname hreply
    exact ⟨v, hv, fun hempty => h ⟨_, v, hv, hempty⟩⟩

/-! ## Runs -/

/-- No step of the run empties a collection. -/
def NoneEmpties (host : Host) (env : Env) (cmds : List Command) (w : World F) : Prop :=
  ∀ before cmd after, cmds = before ++ cmd :: after → ¬ Empties env (execAll host env before w) cmd

theorem noneEmpties_cons {cmds : List Command} :
    NoneEmpties host env (cmd :: cmds) w ↔
      ¬ Empties env w cmd ∧ NoneEmpties host env cmds (execCommand host env cmd w).2 :=
  forall_steps_cons (fun cmd w => ¬ Empties env w cmd) host env cmd cmds w

/-- **From a store without empty collections**: there is none in any state of the
    run exactly when no step empties one. -/
theorem run_hasEmpty_iff {cmds : List Command} (hw : w.store.Filled) :
    (∀ before after, cmds = before ++ after → ¬ (execAll host env before w).store.HasEmpty) ↔
      NoneEmpties host env cmds w := by
  induction cmds generalizing w with
  | nil =>
    refine ⟨fun _ before cmd after heq => ?_, fun _ before after heq => ?_⟩
    · simp at heq
    · obtain ⟨rfl, -⟩ := List.append_eq_nil_iff.mp heq.symm
      exact hw.not_hasEmpty
  | cons cmd cmds ih =>
    rw [noneEmpties_cons]
    constructor
    · intro h
      have hcmd : ¬ Empties env w cmd := fun hempties => h [cmd] cmds rfl (hempties.hasEmpty hw)
      refine ⟨hcmd, (ih (exec_filled hw hcmd)).mp fun before after heq => ?_⟩
      exact h (cmd :: before) after (by rw [heq]; rfl)
    · rintro ⟨hcmd, hrest⟩ before after heq
      cases before with
      | nil => exact hw.not_hasEmpty
      | cons first before =>
        obtain ⟨rfl, htail⟩ := List.cons.inj heq
        exact (ih (exec_filled hw hcmd)).mpr hrest before after htail

/-- **NO EMPTY CONTAINERS**: in every state of a run from an empty store no key maps
    to a collection with zero elements, and EXISTS and TYPE report none, exactly
    when no step empties a collection. -/
theorem no_empty_containers_iff (host : Host) (env : Env) (cmds : List Command) (tick draws : Nat) :
    (∀ before after, cmds = before ++ after →
        NoEmpty host env (execAll host env before (⟨newMemDb, tick, draws⟩ : World F))) ↔
      NoneEmpties host env cmds (⟨newMemDb, tick, draws⟩ : World F) := by
  have hstart : (newMemDb : Store F).Filled := by
    intro key v hv
    cases hv
  refine Iff.trans ?_ (run_hasEmpty_iff hstart)
  constructor
  · exact fun h before after heq => (h before after heq).nowhere
  · exact fun h before after heq => .of_not_hasEmpty (h before after heq)

end Commands

/-- SMOVE of the only member: the source stays, a set with no members. -/
theorem smove_leaves_empty_set :
    letI := asciiTables
    let w : World IntScore := execAll quietHost stillEnv
      [words ["SADD", "s", "a"], words ["SMOVE", "s", "d", "a"]] emptyWorld
    w.store.HasEmpty ∧
      (execStill (words ["EXISTS", "s"]) w).1 =
        .ok (intReply 1) ∧
      (execStill (words ["SCARD", "s"]) w).1 =
        .ok (intReply 0) :=
  ⟨⟨ascii "s", ⟨.set, newSet⟩, rfl, fun _ => rfl⟩, rfl, rfl⟩

end TinyDb
