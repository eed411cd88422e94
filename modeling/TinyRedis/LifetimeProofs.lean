import TinyRedis.CommandRunsProofs
import TinyRedis.DeadlineProofs

/-! # The lifetimes that SET, SETEX and EXPIRE give

    SET writes, or refuses to, and then updates the deadline of the key on a path
    that both share: a refused SET NX takes the deadline of the key away, or sets a
    new one.  All three commands add the seconds they are given to the clock
    without a look at the result; a sum that leaves the 64 bits is a deadline in
    the past, and the key is gone at once. -/

namespace TinyDb

open GoString GoStrconv GoFloat GoProgram GoProgram.Prog TinyResp

variable {F : Type} {env : Env} {w : World F} {key name secs : Option Bytes} {n : Int64}

/-! ## What SET leaves -/

/-- Whether SET writes, by whether there is an old value. -/
def SetOptions.writes (o : SetOptions) (old : Bool) : Bool :=
  if o.nx then !old else if o.xx then old else true

/-- The store with the value, if it is written, and the deadline of its options. -/
def SetOptions.leaves (o : SetOptions) (s : Store F) (key : Bytes) (val : Option Bytes)
    (write : Bool) (now : Int) : Store F :=
  let s := if write then s.set key ⟨.str, val⟩ else s
  let s := if o.keepttl then s else s.removeTTL key
  if o.ex then (s.setTTL key (int64 (o.exval + now))).2 else s

/-- The part of `setString` behind the test of the old value.  The clock is read
    after the write, if there is one, and the removal of the old deadline. -/
theorem outcome_setEnd (o : SetOptions) (key : Bytes) (val : Option Bytes) (write : Bool)
    (res : Reply) (hkeep : ¬ (o.ex && o.keepttl) = true) :
    outcome env (setEnd o key val write res : Cmd F _ _) w =
      (.ok res, o.leaves w.store key val write
        (env.clock (w.tick + if write then 2 else 1))) := by
  obtain ⟨nx, xx, get, ex, keepttl, exval⟩ := o
  cases write <;> cases ex <;> cases keepttl <;> first | rfl | exact absurd rfl hkeep

section Set

variable [UnicodeTables]

theorem outcome_setString (val : Option Bytes) {opts : List (Option Bytes)} {o : SetOptions}
    (hname : toLower (str name) = ascii "set")
    (hopts : setOptions opts ⟨false, false, false, false, false, 0⟩ = .ok o)
    (hok : ¬ ((o.nx && o.xx) || (o.ex && o.keepttl)) = true) (s : Store F)
    (hs : s = w.store.checked (str key) (env.clock w.tick))
    (hget : s.get .str (str key) ≠ .wrongType) : ∃ res,
    outcome env (setString (name :: key :: val :: opts) : Cmd F _ _) w =
      (.ok res, o.leaves s (str key) val (o.writes (s.db.lookup (str key)).isSome)
        (env.clock (w.tick + 3 + if o.writes (s.db.lookup (str key)).isSome then 2 else 1))) := by
  have hopts' : setOptions ((name :: key :: val :: opts).drop 3)
      ⟨false, false, false, false, false, 0⟩ = .ok o := hopts
  have hkeep : ¬ (o.ex && o.keepttl) = true := fun h => hok (by rw [h, Bool.or_true])
  rw [setString, named_cons hname, if_neg (by simp), strAt_bind rfl, argAt_eq rfl, ret_bind,
    outcome_checkTTL_ignored, ← hs, hopts']
  dsimp only
  rw [if_neg hok, withLock, outcome_withLocks, outcome_get]
  dsimp only
  cases hfound : s.get .str (str key) with
  | wrongType => exact absurd hfound hget
  | absent =>
    rw [Store.get_eq_absent.mp hfound]
    exact ⟨_, outcome_setEnd o (str key) val _ _ hkeep⟩
  | found old =>
    rw [Store.get_eq_found.mp hfound]
    exact ⟨_, outcome_setEnd o (str key) val _ _ hkeep⟩

/-! ## A refused SET -/

/-- The reasons for SET to refuse: NX and a live string, or XX and nothing. -/
def SetOptions.Refused (o : SetOptions) (s : Store F) (key : Bytes) (now : Int) : Prop :=
  (o.nx = true ∧ ∃ v d, s.live now key = some (⟨.str, v⟩, d)) ∨
    (o.xx = true ∧ s.live now key = none)

/-- The options leave the deadline of a key that is not written as it is. -/
def SetOptions.KeepsDeadline (o : SetOptions) (deadline : Option Int) (now : Int) : Prop :=
  o.keepttl = true ∨ (o.ex = false ∧ deadline = none) ∨
    (o.ex = true ∧ deadline = some (int64 (o.exval + now)))

/-- A key has its live value and deadline as before, and all other keys theirs. -/
def Unchanged (s s' : Store F) (key : Bytes) (now : Int) : Prop :=
  s'.live now key = s.live now key ∧
    ∀ k, k ≠ key → s'.db.lookup k = s.db.lookup k ∧ s'.ttl.lookup k = s.ttl.lookup k

section Refused

variable {o : SetOptions} {s : Store F} {key : Bytes} {val : Option Bytes} {now : Int}

omit [UnicodeTables]

theorem SetOptions.leaves_db (k : Bytes) :
    (o.leaves s key val false now).db.lookup k = s.db.lookup k := by
  unfold SetOptions.leaves
  cases o.keepttl <;> cases o.ex <;> simp [Store.setTTL, apply_ite]

theorem SetOptions.leaves_ttl_ne {k : Bytes} (h : k ≠ key) :
    (o.leaves s key val false now).ttl.lookup k = s.ttl.lookup k := by
  unfold SetOptions.leaves Store.setTTL
  cases o.keepttl <;> cases o.ex <;> simp [h] <;> split <;> simp [h]

/-- A string that is not written keeps its deadline only if the options say so. -/
theorem SetOptions.leaves_ttl (val : Option Bytes) (hkeep : ¬ (o.ex && o.keepttl) = true)
    (hs : (s.db.lookup key).isSome = true) :
    (o.leaves s key val false now).ttl.lookup key = s.ttl.lookup key ↔
      o.KeepsDeadline (s.ttl.lookup key) now := by
  unfold SetOptions.leaves Store.setTTL SetOptions.KeepsDeadline
  cases hk : o.keepttl <;> cases he : o.ex
  · simp [eq_comm]
  · simp [hs, eq_comm]
  · simp
  · rw [hk, he] at hkeep
    exact absurd rfl hkeep

end Refused

/-- What a refused SET leaves. -/
theorem refused_set_leaves [FloatText F] (host : Host) {name key val : Option Bytes}
    {opts : List (Option Bytes)} {o : SetOptions} (hname : toLower (str name) = ascii "set")
    (hopts : setOptions opts ⟨false, false, false, false, false, 0⟩ = .ok o)
    (hok : ¬ ((o.nx && o.xx) || (o.ex && o.keepttl)) = true)
    (hrefused : o.Refused w.store (str key) (env.clock w.tick)) :
    (execCommand host env (name :: key :: val :: opts) w).2.store =
      o.leaves (w.store.checked (str key) (env.clock w.tick)) (str key) val false
        (env.clock (w.tick + 4)) := by
  have hmem : Registered F host "set" setString := by simp [Registered, cmdTable]
  have hdb := w.store.checked_lookup (str key) (env.clock w.tick)
  -- what is at the key, and that nothing is written
  obtain ⟨hget, hwrites⟩ : (w.store.checked (str key) (env.clock w.tick)).get .str (str key) ≠
        .wrongType ∧ o.writes ((w.store.checked (str key) (env.clock w.tick)).db.lookup
          (str key)).isSome = false := by
    rcases hrefused with ⟨hnx, v, d, hlive⟩ | ⟨hxx, hlive⟩
    · rw [hlive] at hdb
      rw [hdb, Store.get_eq_found.mpr hdb, SetOptions.writes, if_pos hnx]
      exact ⟨by simp, rfl⟩
    · have hnx : ¬ o.nx = true := fun h => hok (by rw [h, hxx]; rfl)
      rw [hlive] at hdb
      rw [hdb, Store.get_eq_absent.mpr hdb, SetOptions.writes, if_neg hnx, if_pos hxx]
      exact ⟨by simp, rfl⟩
  obtain ⟨res, hset⟩ := outcome_setString val hname hopts hok _ rfl hget
  rw [hwrites] at hset
  exact (exec_of_outcome hmem (List.cons_ne_nil _ _) hname hset).2

/-- **When a refused SET changes nothing.**  In every state, for every option list
    that SET accepts: always for XX, and for NX if the options keep the deadline that
    the key has. -/
theorem refused_set_unchanged_iff [FloatText F] (host : Host) (env : Env) (w : World F)
    (name key val : Option Bytes) (opts : List (Option Bytes)) (o : SetOptions)
    (hname : toLower (str name) = ascii "set")
    (hopts : setOptions opts ⟨false, false, false, false, false, 0⟩ = .ok o)
    (hok : ¬ ((o.nx && o.xx) || (o.ex && o.keepttl)) = true)
    (hrefused : o.Refused w.store (str key) (env.clock w.tick)) :
    Unchanged w.store (execCommand host env (name :: key :: val :: opts) w).2.store (str key)
        (env.clock w.tick) ↔
      o.xx = true ∨
        o.KeepsDeadline (w.store.ttl.lookup (str key)) (env.clock (w.tick + 4)) := by
  have hkeep : ¬ (o.ex && o.keepttl) = true := fun h => hok (by rw [h, Bool.or_true])
  rw [refused_set_leaves host hname hopts hok hrefused]
  have hframe : ∀ k, k ≠ str key →
      (o.leaves (w.store.checked (str key) (env.clock w.tick)) (str key) val false
        (env.clock (w.tick + 4))).db.lookup k = w.store.db.lookup k ∧
      (o.leaves (w.store.checked (str key) (env.clock w.tick)) (str key) val false
        (env.clock (w.tick + 4))).ttl.lookup k = w.store.ttl.lookup k := by
    intro k hk
    obtain ⟨hdb, httl⟩ := w.store.checked_ne (env.clock w.tick) hk
    exact ⟨(SetOptions.leaves_db k).trans hdb, (SetOptions.leaves_ttl_ne hk).trans httl⟩
  rw [Unchanged, and_iff_left hframe]
  rcases hrefused with ⟨hnx, v, d, hlive⟩ | ⟨hxx, hlive⟩
  · have hxx : ¬ o.xx = true := fun h => hok (by rw [h, hnx]; rfl)
    obtain ⟨hdue, hdb, httl⟩ := Store.live_eq_some.mp hlive
    rw [Store.checked_of_not_due hdue, or_iff_right hxx, ← SetOptions.leaves_ttl val hkeep
      (by rw [hdb]; rfl), hlive, Store.live_eq_some, SetOptions.leaves_db, httl]
    constructor
    · rintro ⟨-, -, heq⟩
      exact heq
    · intro heq
      -- the deadline that stays has not come
      have hdue' : ¬ (o.leaves w.store (str key) val false (env.clock (w.tick + 4))).Due (str key)
          (env.clock w.tick) := by
        rintro ⟨t, ht, hle⟩
        exact hdue ⟨t, httl.trans (heq.symm.trans ht), hle⟩
      exact ⟨hdue', hdb, heq⟩
  · have hgone : (w.store.checked (str key) (env.clock w.tick)).db.lookup (str key) = none := by
      rw [Store.checked_lookup, hlive]
      rfl
    refine iff_of_true ?_ (Or.inl hxx)
    rw [hlive, Store.live_eq_none, SetOptions.leaves_db]
    exact Or.inr hgone

end Set

/-- SET k v NX on a string without a deadline. -/
theorem refused_set_unchanged_nx :
    letI := asciiTables
    let w := stateAfter (words ["SET", "k", "u"])
    Unchanged w.store (execStill (words ["SET", "k", "v", "NX"]) w).2.store
      (ascii "k") 0 := by
  intro w
  refine (@refused_set_unchanged_iff IntScore asciiTables _ quietHost stillEnv w
    (some (ascii "SET")) (some (ascii "k")) (some (ascii "v")) (words ["NX"])
    ⟨true, false, false, false, false, 0⟩ (by decide) rfl (by decide) ?_).mpr ?_
  · exact Or.inl ⟨rfl, some (ascii "u"), none, rfl⟩
  · exact Or.inr (Or.inr (Or.inl ⟨rfl, rfl⟩))

/-- SET k v NX on a string with a deadline takes the deadline away. -/
theorem refused_set_drops_deadline :
    letI := asciiTables
    let w := stateAfter (words ["SET", "k", "u", "EX", "100"])
    let r := execStill (words ["SET", "k", "v", "NX"]) w
    r.1 = .ok (bulkReply none) ∧
      w.store.live 0 (ascii "k") = some (⟨.str, some (ascii "u")⟩, some 100) ∧
      r.2.store.live 0 (ascii "k") = some (⟨.str, some (ascii "u")⟩, none) :=
  ⟨rfl, rfl, rfl⟩

/-! ## How long a deadline is honoured -/

section Honoured

variable {s : Store F} {key : Bytes} {now : Int}

/-- What a cleanup leaves of a key. -/
theorem Store.cleanup_db (s : Store F) (now : Int) (key : Bytes) (h : ¬ s.Due key now) :
    (s.cleanup now).db.lookup key = s.db.lookup key := by
  have hfold : ∀ (keys : List Bytes) (s : Store F), key ∉ keys →
      (keys.foldl Store.expire s).db.lookup key = s.db.lookup key := by
    intro keys
    induction keys with
    | nil => exact fun s _ => rfl
    | cons k rest ih =>
      intro s hmem
      rw [List.mem_cons, not_or] at hmem
      rw [List.foldl_cons, ih _ hmem.2, Store.expire_db, if_neg hmem.1]
  refine hfold _ s fun hmem => h ?_
  obtain ⟨-, hany⟩ := List.mem_filter.mp hmem
  cases hd : s.ttl.lookup key with
  | none =>
    rw [hd] at hany
    cases hany
  | some d =>
    rw [hd] at hany
    exact ⟨d, hd, of_decide_eq_true hany⟩

/-- From `t` on and before `stop`, whenever the entry of the key is what it is in
    `s`, `CheckTTL` and a cleanup leave the key there with its value. -/
def Honoured (s : Store F) (key : Bytes) (v : Value F) (t stop : Int) : Prop :=
  ∀ (s' : Store F) (t' : Int), s'.db.lookup key = s.db.lookup key →
    s'.ttl.lookup key = s.ttl.lookup key → t ≤ t' → t' < stop →
      (s'.checkTTL key t').1 = true ∧ (s'.checkTTL key t').2.db.lookup key = some v ∧
        (s'.cleanup t').db.lookup key = some v

/-- The sum of a clock reading and a positive number of seconds wraps to a time
    that has come. -/
theorem int64_add_le {t : Int} (hpos : 0 < n.toInt) (hover : 2 ^ 63 ≤ t + n.toInt) :
    int64 (t + n.toInt) ≤ t := by
  have hmax := n.toInt_lt
  rw [int64, Int64.toInt_ofInt, Int.bmod_def]
  norm_num [Int64.size] at hmax hover ⊢
  split <;> omega

/-- A deadline that was computed from a clock reading and a positive number of
    seconds is honoured exactly if the sum did not wrap. -/
theorem honoured_iff {v : Value F} {t : Int} (ht : -2 ^ 63 ≤ t) (hpos : 0 < n.toInt)
    (hdb : s.db.lookup key = some v) (httl : s.ttl.lookup key = some (int64 (t + n.toInt))) :
    Honoured s key v t (t + n.toInt) ↔ t + n.toInt < 2 ^ 63 := by
  constructor
  · intro h
    by_contra hover
    have hdue : s.Due key t := ⟨_, httl, int64_add_le hpos (not_lt.mp hover)⟩
    obtain ⟨hcheck, -⟩ := h s t rfl rfl le_rfl (by omega)
    rw [Store.checkTTL_of_due hdue] at hcheck
    cases hcheck
  · intro hfits s' t' hdb' httl' hfrom hto
    have hexact : int64 (t + n.toInt) = t + n.toInt := Int64.toInt_ofInt_of_le (by omega) hfits
    have hdue : ¬ s'.Due key t' := by
      rintro ⟨d, hd, hle⟩
      rw [httl', httl, hexact, Option.some_inj] at hd
      omega
    rw [Store.checkTTL_of_not_due hdue, s'.cleanup_db t' key hdue, hdb', hdb]
    exact ⟨rfl, rfl, rfl⟩

end Honoured

/-! ## The commands that give a lifetime -/

/-- The end of EXPIRE, from the deadline that the key has. -/
def expireEnd (opt : Bytes) (currentExpire : Option Int) (key : Bytes) (ttl : Int) :
    Cmd F timedWrites Reply :=
  if opt = ascii "nx" then
    if currentExpire = none then do return intReply (← setTTL key ttl) else return intReply 0
  else if opt = ascii "xx" then
    if currentExpire ≠ none then do return intReply (← setTTL key ttl) else return intReply 0
  else if opt = ascii "gt" then
    if currentExpire.any (fun current => decide (ttl > current)) then
      do return intReply (← setTTL key ttl)
    else return intReply 0
  else if opt = ascii "lt" then
    if currentExpire.any (fun current => decide (ttl < current)) then
      do return intReply (← setTTL key ttl)
    else return intReply 0
  else if opt ≠ [] then
    return some (.errorData (ascii "error: unsupport " ++ opt ++
      ascii ", except nx, xx, gt, lt"))
  else do return intReply (← setTTL key ttl)

/-- The deadline is set, or the reply is not 1. -/
theorem expireEnd_cases (opt : Bytes) (currentExpire : Option Int) (key : Bytes) (ttl : Int) :
    (expireEnd opt currentExpire key ttl : Cmd F _ _) =
        (setTTL key ttl >>= fun r => .ret (intReply r)) ∨
      ∃ reply, (expireEnd opt currentExpire key ttl : Cmd F _ _) = .ret reply ∧
        reply ≠ intReply 1 := by
  have hzero : intReply 0 ≠ intReply 1 := by
    intro h
    cases h
  have herror : ∀ text, (some (.errorData text) : Reply) ≠ intReply 1 := by
    intro text h
    cases h
  unfold expireEnd
  split_ifs
  all_goals first
    | exact Or.inl rfl
    | exact Or.inr ⟨_, rfl, hzero⟩
    | exact Or.inr ⟨_, rfl, herror _⟩

section Grants

variable [UnicodeTables]

/-- The option that EXPIRE is given, "" when there is none. -/
def expireOption : List (Option Bytes) → Bytes
  | [o] => toLower (str o)
  | _ => []

/-- EXPIRE of a number of seconds. -/
theorem expireKey_eq {opt : List (Option Bytes)} (hname : toLower (str name) = ascii "expire")
    (hsecs : parseInt (str secs) = .ok n) (hopt : opt.length ≤ 1) :
    (expireKey (name :: key :: secs :: opt) : Cmd F _ _) =
      timeNow >>= fun now => checkTTL (str key) >>= fun live =>
        if !live then .ret (intReply 0)
        else withLock (str key) (expireAt (str key) >>= fun currentExpire =>
          expireEnd (expireOption opt) currentExpire (str key) (int64 (now + n.toInt))) := by
  have hlen : ¬ (toLower (str name) ≠ ascii "expire" ∨ (name :: key :: secs :: opt).length < 3 ∨
      (name :: key :: secs :: opt).length > 4) := by
    simp [hname]
    omega
  have hoption : optionAt (name :: key :: secs :: opt) =
      (.ret (expireOption opt) : Cmd F _ Bytes) := by
    rcases opt with _ | ⟨a, _ | ⟨b, rest⟩⟩
    · rfl
    · rfl
    · simp at hopt
  rw [expireKey, strAt_bind rfl, if_neg hlen, strAt_bind rfl, hsecs]
  dsimp only
  rw [hoption]
  rfl

/-- What EXPIRE leaves when it replies 1. -/
theorem expireKey_one {opt : List (Option Bytes)} (hname : toLower (str name) = ascii "expire")
    (hsecs : parseInt (str secs) = .ok n) (hopt : opt.length ≤ 1) {x : Except Abort Reply × Store F}
    (hx : outcome env (expireKey (name :: key :: secs :: opt) : Cmd F _ _) w = x)
    (hreply : x.1 = .ok (intReply 1)) :
    (w.store.db.lookup (str key)).isSome = true ∧
      x.2 = w.store.putTTL (str key) (int64 (env.clock w.tick + n.toInt)) := by
  rw [expireKey_eq hname hsecs hopt, outcome_timeNow] at hx
  have hzero : (.ok (intReply 0) : Except Abort Reply) ≠ .ok (intReply 1) := by
    intro h
    cases h
  by_cases hdue : w.store.Due (str key) (env.clock (w.tick + 1))
  · rw [outcome_checkTTL_of_due (w := ⟨w.store, w.tick + 1, w.draws⟩) hdue,
      if_pos Bool.not_false] at hx
    subst hx
    exact absurd hreply hzero
  · rw [outcome_checkTTL (w := ⟨w.store, w.tick + 1, w.draws⟩) hdue,
      if_neg (show ¬ (!true) = true from Bool.false_ne_true), withLock, outcome_withLocks,
        outcome_expireAt] at hx
    rcases expireEnd_cases (F := F) (expireOption opt) (w.store.ttl.lookup (str key)) (str key)
      (int64 (env.clock w.tick + n.toInt)) with hset | ⟨reply, hret, hne⟩
    · rw [hset, outcome_setTTL, outcome_ret, Store.setTTL] at hx
      cases hdb : (w.store.db.lookup (str key)).isSome with
      | true =>
        dsimp only at hx
        rw [if_pos hdb] at hx
        exact ⟨rfl, hx ▸ rfl⟩
      | false =>
        dsimp only at hx
        rw [hdb, if_neg Bool.false_ne_true] at hx
        subst hx
        exact absurd hreply hzero
    · rw [hret, outcome_ret] at hx
      subst hx
      exact absurd (Except.ok.inj hreply) hne

/-- What SETEX leaves. -/
theorem outcome_setExString {name key secs val : Option Bytes}
    (hname : toLower (str name) = ascii "setex") (hsecs : parseInt (str secs) = .ok n) :
    outcome env (setExString [name, key, secs, val] : Cmd F _ _) w =
      (.ok (statusReply "OK"),
        (w.store.set (str key) ⟨.str, val⟩).putTTL (str key)
          (int64 (env.clock w.tick + n.toInt))) := by
  rw [setExString, named_cons hname, if_neg (by simp), strAt_bind rfl, hsecs]
  dsimp only
  rw [outcome_timeNow, strAt_bind rfl, argAt_eq rfl, ret_bind, withLock, outcome_withLocks,
    outcome_set, outcome_setTTL, pure_eq, outcome_ret]
  simp [Store.setTTL]

/-- An accepted command that gives a key, at clock reading `t`, a lifetime of `n`
    seconds, and leaves `v` there: EXPIRE that replies 1, SETEX, and a SET with EX
    that writes. -/
inductive Grants [FloatText F] (host : Host) (env : Env) (w : World F) :
    Command → Bytes → Int64 → Value F → Int → Prop
  | expire {name key secs : Option Bytes} {opt : List (Option Bytes)} {n : Int64} {v : Value F}
      (hname : toLower (str name) = ascii "expire") (hsecs : parseInt (str secs) = .ok n)
      (hopt : opt.length ≤ 1) (hv : w.store.db.lookup (str key) = some v)
      (hreply : (execCommand host env (name :: key :: secs :: opt) w).1 = .ok (intReply 1)) :
      Grants host env w (name :: key :: secs :: opt) (str key) n v (env.clock w.tick)
  | setEx {name key secs val : Option Bytes} {n : Int64}
      (hname : toLower (str name) = ascii "setex") (hsecs : parseInt (str secs) = .ok n) :
      Grants host env w [name, key, secs, val] (str key) n ⟨.str, val⟩ (env.clock w.tick)
  | set {name key val : Option Bytes} {opts : List (Option Bytes)} {o : SetOptions} {n : Int64}
      (hname : toLower (str name) = ascii "set")
      (hopts : setOptions opts ⟨false, false, false, false, false, 0⟩ = .ok o)
      (hok : ¬ ((o.nx && o.xx) || (o.ex && o.keepttl)) = true) (hex : o.ex = true)
      (hn : o.exval = n.toInt)
      (hkind : ∀ v d, w.store.live (env.clock w.tick) (str key) = some (v, d) → v.kind = .str)
      (hwrites : o.writes (w.store.live (env.clock w.tick) (str key)).isSome = true) :
      Grants host env w (name :: key :: val :: opts) (str key) n ⟨.str, val⟩
        (env.clock (w.tick + 5))

/-- Such a command leaves the value, and the deadline as the code computes it. -/
theorem Grants.leaves [FloatText F] {host : Host} {cmd : Command} {key : Bytes} {n : Int64}
    {v : Value F} {t : Int} (h : Grants host env w cmd key n v t) :
    (execCommand host env cmd w).2.store.db.lookup key = some v ∧
      (execCommand host env cmd w).2.store.ttl.lookup key = some (int64 (t + n.toInt)) := by
  cases h with
  | @expire name key secs opt n v hname hsecs hopt hv hreply =>
    have hmem : Registered F host "expire" expireKey := by simp [Registered, cmdTable]
    obtain ⟨hfst, hsnd⟩ := exec_of_outcome hmem (List.cons_ne_nil name (key :: secs :: opt)) hname
      (rfl : outcome env (expireKey (name :: key :: secs :: opt)) w = _)
    obtain ⟨-, hstore⟩ := expireKey_one hname hsecs hopt rfl (hfst.symm.trans hreply)
    rw [hsnd]
    exact ⟨by rw [hstore]; exact hv, by rw [hstore]; simp⟩
  | @setEx name key secs val n hname hsecs =>
    have hmem : Registered F host "setex" setExString := by simp [Registered, cmdTable]
    rw [(exec_of_outcome hmem (List.cons_ne_nil _ _) hname (outcome_setExString hname hsecs)).2]
    simp
  | @set name key val opts o n hname hopts hok hex hn hkind hwrites =>
    have hmem : Registered F host "set" setString := by simp [Registered, cmdTable]
    have hdb := w.store.checked_lookup (str key) (env.clock w.tick)
    have hget : (w.store.checked (str key) (env.clock w.tick)).get .str (str key) ≠ .wrongType := by
      rw [ne_eq, Store.get_eq_wrongType]
      rintro ⟨v, hv, hne⟩
      rw [hv, eq_comm, Option.map_eq_some_iff] at hdb
      obtain ⟨⟨v', d⟩, hlive, rfl⟩ := hdb
      exact hne (hkind _ _ hlive)
    obtain ⟨res, hset⟩ := outcome_setString val hname hopts hok _ rfl hget
    rw [hdb, Option.isSome_map, hwrites] at hset
    have hkeep : o.keepttl = false := by
      cases hk : o.keepttl with
      | false => rfl
      | true => exact absurd (by rw [hex, hk]; simp) hok
    rw [(exec_of_outcome hmem (List.cons_ne_nil _ _) hname hset).2, SetOptions.leaves, hex, hkeep,
      hn, add_comm n.toInt]
    simp [Store.setTTL]

/-- **When a positive lifetime is honoured.**  The commands add the seconds to the
    clock, and the key stays visible for that long exactly if the sum is an int64. -/
theorem lifetime_honoured_iff [FloatText F] (host : Host) (env : Env) (w : World F) (cmd : Command)
    (key : Bytes) (n : Int64) (v : Value F) (t : Int) (hgrants : Grants host env w cmd key n v t)
    (hpos : 0 < n.toInt) (ht : -2 ^ 63 ≤ t) :
    Honoured (execCommand host env cmd w).2.store key v t (t + n.toInt) ↔ t + n.toInt < 2 ^ 63 :=
  honoured_iff ht hpos hgrants.leaves.1 hgrants.leaves.2

end Grants

/-- SETEX k 100 v is honoured. -/
theorem lifetime_honoured_hundred :
    letI := asciiTables
    Honoured (execStill (words ["SETEX", "k", "100", "v"]) emptyWorld).2.store (ascii "k")
      ⟨.str, some (ascii "v")⟩ 0 100 :=
  (@lifetime_honoured_iff IntScore asciiTables _ quietHost stillEnv emptyWorld _ _ 100 _ 0
    (@Grants.setEx IntScore asciiTables _ quietHost stillEnv emptyWorld (some (ascii "SETEX"))
      (some (ascii "k")) (some (ascii "100")) (some (ascii "v")) 100 (by decide) rfl)
    (by decide) (by decide)).mpr (by decide)

/-- EXPIRE k 9223372036854775807: the reply is 1, and the key is gone at the next
    check in the same second. -/
theorem long_lifetime_expires_at_once :
    letI := asciiTables
    let env : Env := { stillEnv with clock := fun _ => 1700000000 }
    let w : World IntScore := (execCommand quietHost env (words ["SET", "k", "v"]) emptyWorld).2
    let r := execCommand quietHost env (words ["EXPIRE", "k", "9223372036854775807"]) w
    r.1 = .ok (intReply 1) ∧ (r.2.store.checkTTL (ascii "k") 1700000000).1 = false ∧
      (r.2.store.cleanup 1700000000).db.lookup (ascii "k") = none :=
  ⟨rfl, rfl, rfl⟩

end TinyDb
