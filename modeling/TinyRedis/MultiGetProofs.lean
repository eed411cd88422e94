import TinyRedis.SectionsProofs
import TinyRedis.CommandTableProofs

/-! # MGET while MSET runs

    MSET takes the locks of all its keys and writes them in one section.  MGET
    locks one key at a time: its reads are separate sections, and the whole of
    MSET can fall between two of them.  It then replies with the old values up to
    there and the new ones from there on. -/

namespace TinyDb

open GoString GoFloat GoProgram GoProgram.Prog TinyResp

variable {F : Type}

/-- What each operation does to the key locks. -/
def Op.lockUse {c : Caps} : Op F c → LockUse
  | .lock _ => .take
  | .rLock _ => .take
  | .unLock _ => .giveBack
  | .rUnLock _ => .giveBack
  | _ => .none

/-- What MGET replies for a key: nil if it holds no string. -/
def Store.valueAt (s : Store F) (key : Bytes) : Option Bytes :=
  match s.get .str key with
  | .found val => val
  | _ => none

/-! ## The writer -/

/-- What MSET does to the store. -/
def Store.mSet (s : Store F) (pairs : List (Bytes × Option Bytes)) : Store F :=
  pairs.foldl (fun s p => (s.removeTTL p.1).set p.1 ⟨.str, p.2⟩) s

/-- The value of a key after MSET: the last one given for it, or the old one. -/
def newValue (pairs : List (Bytes × Option Bytes)) (key : Bytes) (old : Option Bytes) :
    Option Bytes :=
  pairs.foldl (fun val p => if p.1 = key then p.2 else val) old

theorem Store.valueAt_mSet (s : Store F) (pairs : List (Bytes × Option Bytes)) (key : Bytes) :
    (s.mSet pairs).valueAt key = newValue pairs key (s.valueAt key) := by
  induction pairs generalizing s with
  | nil => rfl
  | cons pair rest ih =>
    rw [mSet, List.foldl_cons, newValue, List.foldl_cons]
    refine (ih _).trans (congrArg (newValue rest key) ?_)
    by_cases hkey : pair.1 = key
    · have hfound : ((s.removeTTL pair.1).set pair.1 ⟨.str, pair.2⟩).get .str key =
          .found pair.2 := get_eq_found.mpr (by simp [hkey])
      rw [valueAt, hfound, if_pos hkey]
    · have hget : ((s.removeTTL pair.1).set pair.1 ⟨.str, pair.2⟩).get .str key =
          s.get .str key := by
        rw [get, get, set_db, if_neg fun h => hkey h.symm, removeTTL_db]
      rw [valueAt, hget, if_neg hkey]
      rfl

/-- MSET gives no key a deadline. -/
theorem Store.ttl_mSet {s : Store F} {key : Bytes} (h : s.ttl.lookup key = none)
    (pairs : List (Bytes × Option Bytes)) : (s.mSet pairs).ttl.lookup key = none := by
  induction pairs generalizing s with
  | nil => exact h
  | cons pair rest ih => exact ih (by simp [h])

theorem run_mSetLoop (env : Env) (pairs : List (Bytes × Option Bytes)) (w : World F) :
    ∃ t, (mSetLoop pairs).run (Op.step env) w = (.ok (), ⟨w.store.mSet pairs, t, w.draws⟩) := by
  induction pairs generalizing w with
  | nil => exact ⟨w.tick, rfl⟩
  | cons pair rest ih =>
    obtain ⟨k, v⟩ := pair
    exact ih ⟨(w.store.removeTTL k).set k ⟨.str, v⟩, w.tick + 1 + 1, w.draws⟩

theorem mSetLoop_uses (pairs : List (Bytes × Option Bytes)) :
    (mSetLoop pairs : Cmd F _ _).Uses fun o => o.lockUse = .none := by
  induction pairs with
  | nil => trivial
  | cons pair rest ih => exact ⟨rfl, fun _ => ⟨rfl, fun _ => ih⟩⟩

theorem pairsOf_flatMap (args : List (Option Bytes × Option Bytes)) :
    pairsOf (args.flatMap fun p => [p.1, p.2]) = some (args.map fun p => (str p.1, p.2)) := by
  induction args with
  | nil => rfl
  | cons arg rest ih =>
    rw [List.flatMap_cons, List.cons_append, List.cons_append, List.nil_append, pairsOf, ih]
    rfl

/-- MSET is one section. -/
theorem turn_mSetString [UnicodeTables] (env : Env) {name : Option Bytes}
    {args : List (Option Bytes × Option Bytes)} (hname : toLower (str name) = ascii "mset")
    (hne : args ≠ []) (w : World F) :
    ∃ t, (mSetString (name :: args.flatMap fun p => [p.1, p.2])).turn (Op.step env) Op.lockUse
      false w = (.ret (statusReply "OK"),
        ⟨w.store.mSet (args.map fun p => (str p.1, p.2)), t, w.draws⟩) := by
  have hlen : ¬ ((name :: args.flatMap fun p => [p.1, p.2]).length < 3 ∨
      (name :: args.flatMap fun p => [p.1, p.2]).length % 2 ≠ 1) := by
    have hpos := List.length_pos_of_ne_nil hne
    simp only [List.length_cons, List.length_flatMap, List.length_nil, List.map_const',
      List.sum_replicate, smul_eq_mul]
    omega
  rw [mSetString, named_cons hname, if_neg hlen, List.tail_cons, pairsOf_flatMap]
  dsimp only
  generalize args.map (fun p => (str p.1, p.2)) = pairs
  obtain ⟨t, hrun⟩ := run_mSetLoop env pairs ⟨w.store, w.tick + 1, w.draws⟩
  have huses : (do mSetLoop pairs; return statusReply "OK" : Cmd F writes Reply).Uses
      fun o => o.lockUse = .none := (mSetLoop_uses pairs).bind fun _ => trivial
  rw [withLocks, turn_take rfl, Op.step_lock, turn_defer rfl huses, run_bind, hrun]
  exact ⟨t + 1, rfl⟩

/-! ## The reader -/

/-- MGET before the check of a key, with `res` read so far. -/
def mGetFrom (keys res : List (Option Bytes)) : Cmd F reads Reply := do
  return bulksReply (← mGetLoop keys res)

/-- The loop of MGET between the check of a key and its read. -/
def mGetRead (k : Option Bytes) (rest res : List (Option Bytes)) :
    Cmd F reads (List (Option Bytes)) := do
  match ← withRLock (str k) (get .str (str k)) with
  | .found val => mGetLoop rest (res ++ [val])
  | _ => mGetLoop rest (res ++ [none])

/-- MGET between the check of a key and its read. -/
def mGetAt (k : Option Bytes) (rest res : List (Option Bytes)) : Cmd F reads Reply := do
  return bulksReply (← mGetRead k rest res)

/-- The check of a key without a deadline is a turn. -/
theorem turn_mGetFrom (env : Env) {k : Option Bytes} (rest res : List (Option Bytes)) {w : World F}
    (h : w.store.ttl.lookup (str k) = none) :
    (mGetFrom (k :: rest) res).turn (Op.step env) Op.lockUse false w =
      (mGetAt k rest res, ⟨w.store, w.tick + 1, w.draws⟩) := by
  have hcheck : w.store.checkTTL (str k) (env.clock w.tick) = (true, w.store) := by
    rw [Store.checkTTL, Store.popTTL, h]
  simp only [mGetFrom, mGetLoop, checkTTL, op_bind, ret_bind]
  rw [turn_outside rfl, Op.step_checkTTL, hcheck]
  simp only [Bool.not_true, Bool.false_eq_true, if_false]
  rfl

/-- The read is another. -/
theorem turn_mGetAt (env : Env) (k : Option Bytes) (rest res : List (Option Bytes)) (w : World F) :
    (mGetAt k rest res).turn (Op.step env) Op.lockUse false w =
      (mGetFrom rest (res ++ [w.store.valueAt (str k)]),
        ⟨w.store, w.tick + 1 + 1 + 1, w.draws⟩) := by
  simp only [mGetAt, mGetRead, withRLock, withRLocks, get, op_bind, op_defer, ret_defer, ret_bind]
  rw [turn_take rfl, turn_inside rfl, turn_giveBack rfl]
  simp only [Op.step_rLock, Op.step_get, Op.step_rUnLock, Store.valueAt]
  cases w.store.get .str (str k) <;> rfl

/-- MGET after so many turns over the store `s`. -/
def mGetAfter (s : Store F) : Nat → List (Option Bytes) → List (Option Bytes) → Cmd F reads Reply
  | 0, keys, res => mGetFrom keys res
  | _ + 1, [], res => mGetFrom [] res
  | 1, k :: rest, res => mGetAt k rest res
  | n + 2, k :: rest, res => mGetAfter s n rest (res ++ [s.valueAt (str k)])

theorem mGetAfter_nil (s : Store F) (n : Nat) (res : List (Option Bytes)) :
    mGetAfter s n [] res = .ret (bulksReply res) := by
  cases n <;> rfl

/-- Turns in a store whose keys have no deadlines. -/
theorem turns_mGetFrom (env : Env) (n : Nat) {keys : List (Option Bytes)}
    (res : List (Option Bytes)) {w : World F} (h : ∀ k ∈ keys, w.store.ttl.lookup (str k) = none) :
    ∃ t, turns (Op.step env) Op.lockUse n (mGetFrom keys res, w) =
      (mGetAfter w.store n keys res, ⟨w.store, t, w.draws⟩) := by
  induction n using Nat.twoStepInduction generalizing keys res w with
  | zero => exact ⟨w.tick, rfl⟩
  | one =>
    cases keys with
    | nil => exact ⟨w.tick, rfl⟩
    | cons k rest =>
      refine ⟨w.tick + 1, ?_⟩
      rw [turns, turn_mGetFrom env rest res (h k List.mem_cons_self)]
      rfl
  | more n ih _ =>
    cases keys with
    | nil => exact ⟨w.tick, turns_ret (n + 2) (bulksReply res) w⟩
    | cons k rest =>
      rw [turns, turn_mGetFrom env rest res (h k List.mem_cons_self), turns, turn_mGetAt]
      exact ih _ fun k hk => h k (List.mem_cons_of_mem _ hk)

/-- Enough turns bring MGET to its reply. -/
theorem turns_mGetFrom_enough (env : Env) {n : Nat} {keys : List (Option Bytes)}
    (res : List (Option Bytes)) {w : World F} (h : ∀ k ∈ keys, w.store.ttl.lookup (str k) = none)
    (hn : 2 * keys.length ≤ n) :
    (turns (Op.step env) Op.lockUse n (mGetFrom keys res, w)).1 =
      .ret (bulksReply (res ++ keys.map fun k => w.store.valueAt (str k))) := by
  induction keys generalizing n res w with
  | nil =>
    rw [List.map_nil, List.append_nil]
    exact congrArg Prod.fst (turns_ret n (bulksReply res) w)
  | cons k rest ih =>
    rw [List.length_cons] at hn
    obtain ⟨n, rfl⟩ : ∃ m, n = m + 2 := ⟨n - 2, by omega⟩
    have hrest := fun k hk => h k (List.mem_cons_of_mem _ hk)
    rw [turns, turn_mGetFrom env rest res (h k List.mem_cons_self), turns, turn_mGetAt]
    refine Eq.trans (ih _ hrest (by omega)) ?_
    simp

/-- So do they from the middle, with the store changed in between: the values
    read before are those of the store before. -/
theorem turns_mGetAfter (env : Env) (s : Store F) {n m : Nat} {keys : List (Option Bytes)}
    (res : List (Option Bytes)) {w : World F} (h : ∀ k ∈ keys, w.store.ttl.lookup (str k) = none)
    (hn : 2 * keys.length ≤ n + m) :
    (turns (Op.step env) Op.lockUse m (mGetAfter s n keys res, w)).1 =
      .ret (bulksReply (res ++ (keys.take (n / 2)).map (fun k => s.valueAt (str k)) ++
        (keys.drop (n / 2)).map fun k => w.store.valueAt (str k))) := by
  induction n using Nat.twoStepInduction generalizing keys res with
  | zero =>
    rw [mGetAfter, turns_mGetFrom_enough env res h (by omega)]
    simp
  | one =>
    cases keys with
    | nil =>
      rw [mGetAfter_nil, turns_ret]
      simp
    | cons k rest =>
      rw [List.length_cons] at hn
      obtain ⟨m, rfl⟩ : ∃ m', m = m' + 1 := ⟨m - 1, by omega⟩
      have hrest := fun k hk => h k (List.mem_cons_of_mem _ hk)
      rw [mGetAfter, turns, turn_mGetAt]
      refine Eq.trans (turns_mGetFrom_enough env _ hrest (by omega)) ?_
      simp
  | more n ih _ =>
    cases keys with
    | nil =>
      rw [mGetAfter_nil, turns_ret]
      simp
    | cons k rest =>
      rw [List.length_cons] at hn
      rw [mGetAfter, ih _ (fun k hk => h k (List.mem_cons_of_mem _ hk)) (by omega)]
      have hhalf : (n + 2) / 2 = n / 2 + 1 := by omega
      rw [hhalf]
      simp

/-! ## Together -/

section Main

variable [UnicodeTables]

/-- Two clients that run commands over one store. -/
abbrev Race (F : Type) (c c' : Caps) : Type :=
  Clients (Op F c) (Op F c') Op.Res Op.Res (World F) Reply Reply

/-- Their turns in some order. -/
abbrev Race.run {c c' : Caps} (env : Env) (order : List Bool) (x : Race F c c') : Race F c c' :=
  interleave (Op.step env) Op.lockUse (Op.step env) Op.lockUse order x

/-- MSET of these keys and values, and MGET of the keys, over one store. -/
def msetAndMget (name name' : Option Bytes) (args : List (Option Bytes × Option Bytes))
    (w : World F) : Race F writes reads :=
  ⟨mSetString (name :: args.flatMap fun p => [p.1, p.2]),
    mGetString (name' :: args.map Prod.fst), w⟩

/-- How many keys MGET has read when the turn of MSET comes: each takes a turn
    for the check and one for the read. -/
def readsBefore (order : List Bool) : Nat := (order.takeWhile fun who => !who).length / 2

omit [UnicodeTables] in
/-- An order in which the first client has a turn, up to that turn. -/
theorem order_split {order : List Bool} (h : true ∈ order) : ∃ rest,
    order = List.replicate (order.takeWhile fun who => !who).length false ++ true :: rest ∧
      order.count false = (order.takeWhile fun who => !who).length + rest.count false := by
  induction order with
  | nil => exact absurd h List.not_mem_nil
  | cons who order ih =>
    cases who with
    | true => exact ⟨order, by simp, by simp⟩
    | false =>
      obtain ⟨rest, hsplit, hcount⟩ := ih (by simpa using h)
      refine ⟨rest, ?_, ?_⟩
      · simpa [List.replicate_succ] using hsplit
      · simp [hcount]
        omega

/-- **What MGET sees of MSET.** In every order of turns in which both come to
    their end, MGET replies with the old values of the keys it read before MSET's
    turn and the new values of the others. -/
theorem mget_replies (env : Env) {name name' : Option Bytes}
    {args : List (Option Bytes × Option Bytes)} {w : World F}
    (hname : toLower (str name) = ascii "mset") (hname' : toLower (str name') = ascii "mget")
    (hne : args ≠ []) (httl : ∀ p ∈ args, w.store.ttl.lookup (str p.1) = none) {order : List Bool}
    (hwrites : true ∈ order) (hreads : 2 * args.length ≤ order.count false) :
    let x := (msetAndMget name name' args w).run env order
    let old := args.map fun p => w.store.valueAt (str p.1)
    let new := args.map fun p => newValue (args.map fun p => (str p.1, p.2)) (str p.1)
      (w.store.valueAt (str p.1))
    x.first = .ret (statusReply "OK") ∧
      x.second = .ret (bulksReply (old.take (readsBefore order) ++ new.drop
        (readsBefore order))) := by
  intro x old new
  obtain ⟨rest, hsplit, hcount⟩ := order_split hwrites
  have hlen : ¬ (name' :: args.map Prod.fst).length < 2 := by
    have := List.length_pos_of_ne_nil hne
    simp only [List.length_cons, List.length_map]
    omega
  have hmget : (mGetString (name' :: args.map Prod.fst) : Cmd F reads Reply) =
      mGetFrom (args.map Prod.fst) [] := by
    rw [mGetString, named_cons hname', if_neg hlen]
    rfl
  have hkeys : ∀ k ∈ args.map Prod.fst, w.store.ttl.lookup (str k) = none := by
    intro k hk
    obtain ⟨p, hp, rfl⟩ := List.mem_map.mp hk
    exact httl p hp
  have hreadsBefore : readsBefore order = (order.takeWhile fun who => !who).length / 2 := rfl
  generalize (order.takeWhile fun who => !who).length = n at hsplit hcount hreadsBefore
  -- up to the turn of MSET, that turn, and from there on
  obtain ⟨t, hbefore⟩ := turns_mGetFrom env n [] hkeys
  obtain ⟨t', hmset⟩ := turn_mSetString env hname hne ⟨w.store, t, w.draws⟩
  have hclear : ∀ k ∈ args.map Prod.fst,
      (w.store.mSet (args.map fun p => (str p.1, p.2))).ttl.lookup (str k) = none :=
    fun k hk => Store.ttl_mSet (hkeys k hk) _
  have hafter := turns_mGetAfter env w.store []
    (w := ⟨w.store.mSet (args.map fun p => (str p.1, p.2)), t', w.draws⟩) hclear
    (show 2 * (args.map Prod.fst).length ≤ n + rest.count false by rw [List.length_map]; omega)
  have hx : x = Race.run env rest
      ⟨.ret (statusReply "OK"), mGetAfter w.store n (args.map Prod.fst) [],
        ⟨w.store.mSet (args.map fun p => (str p.1, p.2)), t', w.draws⟩⟩ := by
    show interleave _ _ _ _ order _ = _
    rw [hsplit, interleave_append, interleave_second, msetAndMget, hmget, hbefore]
    show interleave _ _ _ _ rest _ = _
    rw [hmset]
  rw [hx, Race.run, interleave_returned]
  refine ⟨rfl, hafter.trans ?_⟩
  rw [hreadsBefore]
  simp only [old, new, List.nil_append, ← List.map_take, ← List.map_drop, List.map_map,
    Store.valueAt_mSet]
  rfl

omit [UnicodeTables] in
theorem bulksReply_injective : Function.Injective bulksReply := by
  intro as bs h
  exact List.map_injective_iff.mpr (fun a b h => RedisData.bulkData.inj h)
    (RedisData.arrayData.inj (Option.some.inj h))

/-- **When MSET is atomic to MGET.** In every order of turns in which both come to
    their end, the reply is entirely old or entirely new exactly when MSET changes
    none of the keys that MGET has read by then, or none of those it has still to
    read. -/
theorem mset_atomic_to_mget_iff (env : Env) (name name' : Option Bytes)
    (args : List (Option Bytes × Option Bytes)) (w : World F)
    (hname : toLower (str name) = ascii "mset") (hname' : toLower (str name') = ascii "mget")
    (hne : args ≠ []) (httl : ∀ p ∈ args, w.store.ttl.lookup (str p.1) = none) (order : List Bool)
    (hwrites : true ∈ order) (hreads : 2 * args.length ≤ order.count false) :
    let x := (msetAndMget name name' args w).run env order
    let old := args.map fun p => w.store.valueAt (str p.1)
    let new := args.map fun p => newValue (args.map fun p => (str p.1, p.2)) (str p.1)
      (w.store.valueAt (str p.1))
    x.first = .ret (statusReply "OK") ∧
      ∃ reply, x.second = .ret reply ∧ ((reply = bulksReply old ∨ reply = bulksReply new) ↔
        old.take (readsBefore order) = new.take (readsBefore order) ∨
          old.drop (readsBefore order) = new.drop (readsBefore order)) := by
  intro x old new
  obtain ⟨hfirst, hsecond⟩ := mget_replies env hname hname' hne httl hwrites hreads
  refine ⟨hfirst, _, hsecond, ?_⟩
  generalize readsBefore order = j
  have hlen : (old.take j).length = (new.take j).length := by simp [old, new]
  have hold : old.take j ++ new.drop j = old ↔ old.drop j = new.drop j := by
    constructor
    · intro h
      have hcat : old.take j ++ new.drop j = old.take j ++ old.drop j :=
        h.trans (List.take_append_drop j old).symm
      exact (List.append_cancel_left hcat).symm
    · intro h
      rw [← h, List.take_append_drop]
  have hnew : old.take j ++ new.drop j = new ↔ old.take j = new.take j := by
    constructor
    · intro h
      have hcat : old.take j ++ new.drop j = new.take j ++ new.drop j :=
        h.trans (List.take_append_drop j new).symm
      exact (List.append_inj hcat hlen).1
    · intro h
      rw [h, List.take_append_drop]
  rw [bulksReply_injective.eq_iff, bulksReply_injective.eq_iff]
  exact (or_congr hold hnew).trans or_comm

end Main

/-- MSET of two keys, after MGET has begun and before its first read; and MSET that
    changes the second key only, between the two reads. -/
theorem mset_atomic_to_mget_two :
    letI := asciiTables
    let w := stateAfter (words ["MSET", "a", "1", "b", "2"])
    let second := fun args order =>
      ((msetAndMget (some (ascii "MSET")) (some (ascii "MGET")) args w).run stillEnv order).second
    let old := bulksReply (words ["1", "2"])
    (∃ reply, second [(some (ascii "a"), some (ascii "5")), (some (ascii "b"), some (ascii "6"))]
        [false, true, false, false, false] = .ret reply ∧
      (reply = old ∨ reply = bulksReply (words ["5", "6"]))) ∧
    ∃ reply, second [(some (ascii "a"), some (ascii "1")), (some (ascii "b"), some (ascii "6"))]
        [false, false, true, false, false] = .ret reply ∧
      (reply = old ∨ reply = bulksReply (words ["1", "6"])) := by
  intro w second old
  obtain ⟨-, reply, hreply, hiff⟩ := @mset_atomic_to_mget_iff IntScore asciiTables stillEnv
    (some (ascii "MSET")) (some (ascii "MGET"))
    [(some (ascii "a"), some (ascii "5")), (some (ascii "b"), some (ascii "6"))] w (by decide)
    (by decide) (by decide) (fun _ _ => rfl) [false, true, false, false, false] (by decide)
    (by decide)
  obtain ⟨-, reply', hreply', hiff'⟩ := @mset_atomic_to_mget_iff IntScore asciiTables stillEnv
    (some (ascii "MSET")) (some (ascii "MGET"))
    [(some (ascii "a"), some (ascii "1")), (some (ascii "b"), some (ascii "6"))] w (by decide)
    (by decide) (by decide) (fun _ _ => rfl) [false, false, true, false, false] (by decide)
    (by decide)
  exact ⟨⟨reply, hreply, hiff.mpr (Or.inl rfl)⟩, reply', hreply', hiff'.mpr (Or.inl rfl)⟩

/-- MSET of two keys, between the reads of the first and the second. -/
theorem mget_sees_half_of_mset :
    letI := asciiTables
    let w := stateAfter (words ["MSET", "a", "1", "b", "2"])
    let args := [(some (ascii "a"), some (ascii "5")), (some (ascii "b"), some (ascii "6"))]
    let x := (msetAndMget (some (ascii "MSET")) (some (ascii "MGET")) args w).run stillEnv
      [false, false, true, false, false]
    x.first = .ret (statusReply "OK") ∧
      x.second = .ret (bulksReply (words ["1", "6"])) ∧
      bulksReply (words ["1", "6"]) ≠
        bulksReply (words ["1", "2"]) ∧
      bulksReply (words ["1", "6"]) ≠
        bulksReply (words ["5", "6"]) :=
  ⟨rfl, rfl, bulksReply_injective.ne (by decide), bulksReply_injective.ne (by decide)⟩

end TinyDb
