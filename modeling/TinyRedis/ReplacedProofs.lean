import TinyRedis.CountersProofs
import TinyRedis.ErrorAtomicityProofs
import TinyRedis.SetStoresProofs

/-! # The deadline of a replaced value

    SET, MSET, SETEX, RENAME and the three STORE commands put a whole new value
    at a key.  The value map and the TTL index are written by separate calls, so
    each of them has to see to the deadline as well: MSET and a plain SET clear
    it, SETEX and SET EX set it, KEEPTTL leaves it.

    RENAME clears the deadlines of both its keys where it should carry that of
    the source over, and the STORE commands never touch the TTL index, so that a
    deadline of the old value stays with the new one. -/

namespace TinyDb

open GoString GoStrconv GoFloat GoProgram.Prog TinyResp

variable {F : Type} {c : Caps} {env : Env} {w w' : World F}

/-! ## Installed keys -/

/-- The key at which an operation puts a whole value: `m.db.Set`. -/
def Op.installs {c : Caps} : Op F c → Option Bytes
  | .set _ key _ _ _ => some key
  | .setAny key _ _ _ => some key
  | _ => none

/-- The keys at which a run puts whole values. -/
def installed {c : Caps} {α : Type} (env : Env) (p : Cmd F c α) (w : World F) : List Bytes :=
  (p.trace (Op.step env) w).flatMap fun x => x.1.installs.toList

/-- A step that also notes the keys. -/
def Op.noting {c : Caps} (env : Env) (o : Op F c) (x : World F × List Bytes) :
    o.Res × World F × List Bytes :=
  ((o.step env x.1).1, (o.step env x.1).2, x.2 ++ o.installs.toList)

theorem run_noting {α : Type} (env : Env) (p : Cmd F c α) (w : World F) (noted : List Bytes) :
    p.run (Op.noting env) (w, noted) =
      ((p.run (Op.step env) w).1, (p.run (Op.step env) w).2, noted ++ installed env p w) := by
  induction p generalizing w noted with
  | ret a => simp [installed, trace]
  | op o next ih =>
    rw [run_op, Op.noting, ih]
    simp [installed, trace]
  | stop why => simp [installed, trace]

/-- The program ends where `E` holds of the world and of the keys noted. -/
abbrev EndsIn {α : Type} (env : Env) (E : World F × List Bytes → Prop) (x : World F × List Bytes)
    (p : Cmd F c α) : Prop := Follows (machine (Op.noting env)) (fun x _ => E x) x p

/-- What holds of the world and the noted keys can be computed along the program. -/
theorem follows_noting {α : Type} {E : World F × List Bytes → Prop} {p : Cmd F c α}
    (h : EndsIn env E (w, []) p) : E ((p.run (Op.step env) w).2, installed env p w) := by
  rw [EndsIn, follows_machine, run_noting] at h
  exact h

/-! ## The deadline a command specifies -/

/-- What is to become of the deadline of a key whose value is replaced. -/
inductive Deadline where
  /-- there is none -/
  | cleared
  /-- so many seconds from now -/
  | after (seconds : Int)
  /-- that of the old value, if it has not expired -/
  | kept
  /-- that of another key -/
  | ofKey (key : Bytes)
deriving DecidableEq

/-- The options of SET. -/
def SetOptions.deadline (o : SetOptions) : Deadline :=
  if o.ex then .after o.exval else if o.keepttl then .kept else .cleared

/-- `deadline` is as specified after a command that started in `w` and ended at
    tick `stop`; now is a reading of the clock during the command. -/
def Deadline.Holds (env : Env) (w : World F) (stop : Nat) (k : Bytes) (deadline : Option Int) :
    Deadline → Prop
  | cleared => deadline = none
  | after seconds => ∃ t, w.tick ≤ t ∧ t < stop ∧ deadline = some (env.clock t + seconds)
  | kept => deadline =
      if w.store.Due k (env.clock w.tick) then none else w.store.ttl.lookup k
  | ofKey key => deadline = w.store.ttl.lookup key

section Parse

variable [UnicodeTables]

/-- The deadline that SET, MSET, SETEX, RENAME or a STORE command specifies. -/
def deadlineOf (cmd : Command) : Deadline :=
  if toLower (cmdName cmd) = ascii "set" then
    match setOptions (cmd.drop 3) ⟨false, false, false, false, false, 0⟩ with
    | .ok o => o.deadline
    | .error _ => .cleared
  else if toLower (cmdName cmd) = ascii "setex" then
    match parseInt (str (cmd[2]?).join) with
    | .ok seconds => .after seconds.toInt
    | .error _ => .cleared
  else if toLower (cmdName cmd) = ascii "rename" then .ofKey (keyArg cmd)
  else .cleared

theorem deadlineOf_cleared {cmd : Command} {name : String}
    (hname : toLower (cmdName cmd) = ascii name)
    (h : ascii name ≠ ascii "set" ∧ ascii name ≠ ascii "setex" ∧ ascii name ≠ ascii "rename") :
    deadlineOf cmd = .cleared := by
  rw [deadlineOf, hname, if_neg h.1, if_neg h.2.1, if_neg h.2.2]

theorem deadlineOf_rename {cmd : Command} (hname : toLower (cmdName cmd) = ascii "rename") :
    deadlineOf cmd = .ofKey (keyArg cmd) := by
  rw [deadlineOf, hname, if_neg (by decide), if_neg (by decide), if_pos rfl]

end Parse

/-- What the command leaves, with a sum that may wrap; RENAME leaves none. -/
def Deadline.Left (env : Env) (w : World F) (stop : Nat) (k : Bytes) (deadline : Option Int) :
    Deadline → Prop
  | after seconds => ∃ t, w.tick ≤ t ∧ t < stop ∧ deadline = some (int64 (env.clock t + seconds))
  | ofKey _ => deadline = none
  | d => d.Holds env w stop k deadline

/-- It stays while time passes. -/
theorem Deadline.Left.mono {stop stop' : Nat} {k : Bytes} {deadline : Option Int} {d : Deadline}
    (h : d.Left env w stop k deadline) (hle : stop ≤ stop') :
    d.Left env w stop' k deadline := by
  cases d with
  | after seconds =>
    obtain ⟨t, hfrom, hto, hd⟩ := h
    exact ⟨t, hfrom, by omega, hd⟩
  | cleared => exact h
  | kept => exact h
  | ofKey key => exact h

/-- A deadline of so many seconds from now fits into an int64 at every clock reading
    before the tick `stop`. -/
def Deadline.Fits (env : Env) (w : World F) (stop : Nat) (d : Deadline) : Prop :=
  ∀ seconds, d = .after seconds → ∀ t, w.tick ≤ t → t < stop → FitsInt64 (env.clock t + seconds)

/-- Every key that has been installed has the deadline that `d` leaves. -/
def AllHave (env : Env) (w : World F) (d : Deadline) (x : World F × List Bytes) : Prop :=
  ∀ k ∈ x.2, d.Left env w x.1.tick k (x.1.store.ttl.lookup k)

theorem allHave_nil {d : Deadline} : AllHave env w d (w', []) :=
  fun _ hk => absurd hk List.not_mem_nil

/-- Taking and giving back locks makes no difference to that. -/
theorem allHave_withLocks {α : Type} {d : Deadline} {noted : List Bytes} {keys : List Bytes}
    {body : Cmd F c α}
    (h : EndsIn env (AllHave env w d) (⟨w'.store, w'.tick + 1, w'.draws⟩, noted) body) :
    EndsIn env (AllHave env w d) (w', noted) (withLocks keys body) := by
  refine ⟨(⟨w'.store, w'.tick + 1, w'.draws⟩, noted), ?_, fun _ _ => (follows_defer _ _).mpr ?_⟩
  · simp [Op.noting, Op.installs]
  · have hlater : ∀ x : World F × List Bytes, AllHave env w d x →
        AllHave env w d (Op.noting env (.unLock keys : Op F c) x).2 := by
      intro x hx k hk
      exact (hx k (by simpa [Op.noting, Op.installs] using hk)).mono (Nat.le_succ _)
    refine h.mono fun x e hx => ?_
    rcases e with (_ | _) | a
    · exact ⟨_, rfl, fun _ _ => hlater x hx⟩
    · exact hx
    · exact ⟨_, rfl, fun _ _ => hlater x hx⟩

/-! ## SET and SETEX -/

section Strings

/-- What SET leaves, from a world after its check of the key: a key that it
    installs has the deadline that the options say, with a sum that may wrap. -/
def SetEnd (env : Env) (o : SetOptions) (key : Bytes) (w : World F) (x : World F × List Bytes) :
    Prop :=
  x.2 = [] ∨ x.2 = [key] ∧
    (o.ex = true → ∃ t, w.tick ≤ t ∧ t < x.1.tick ∧
      x.1.store.ttl.lookup key = some (int64 (env.clock t + o.exval))) ∧
    (o.ex = false →
      x.1.store.ttl.lookup key = if o.keepttl then w.store.ttl.lookup key else none)

/-- The end of SET, from where it writes or not. -/
theorem setEnd_follows (env : Env) (o : SetOptions) (key : Bytes) (val : Option Bytes)
    (write : Bool) (res : Reply) (w : World F) :
    EndsIn env (SetEnd env o key w) (w, []) (setEnd o key val write res : Cmd F _ _) := by
  obtain ⟨nx, xx, get, ex, keepttl, exval⟩ := o
  cases write with
  | false => cases keepttl <;> cases ex <;> simp [setEnd, Op.noting, Op.installs, SetEnd]
  | true =>
    cases keepttl <;> cases ex <;>
      simp [setEnd, Op.noting, Op.installs, SetEnd, Store.setTTL, add_comm exval]
    · exact ⟨w.tick + 1 + 1, by omega, by omega, rfl⟩
    · exact ⟨w.tick + 1, by omega, by omega, rfl⟩

theorem SetEnd.allHave {o : SetOptions} {key : Bytes} {x : World F × List Bytes}
    (h : SetEnd env o key w' x) (hw : w'.store = (w.store.checkTTL key (env.clock w.tick)).2)
    (htick : w.tick ≤ w'.tick) :
    AllHave env w o.deadline x := by
  intro k hk
  rcases h with hnil | ⟨hkey, hex, hno⟩
  · rw [hnil] at hk
    exact absurd hk List.not_mem_nil
  rw [hkey, List.mem_singleton] at hk
  subst hk
  cases ho : o.ex with
  | true =>
    have hd : o.deadline = .after o.exval := by rw [SetOptions.deadline, if_pos ho]
    obtain ⟨t, hfrom, hto, hlook⟩ := hex ho
    rw [hd]
    exact ⟨t, by omega, hto, hlook⟩
  | false =>
    have hlook := hno ho
    rw [SetOptions.deadline, ho, if_neg Bool.false_ne_true]
    cases hkeep : o.keepttl with
    | true =>
      rw [hkeep, if_pos rfl, hw] at hlook
      rw [if_pos rfl]
      exact hlook.trans (by simp)
    | false =>
      rw [hkeep, if_neg Bool.false_ne_true] at hlook
      rw [if_neg Bool.false_ne_true]
      exact hlook

variable [UnicodeTables]

/-- SET gives the key it installs the deadline that its options specify. -/
theorem setString_deadline (env : Env) {cmd : Command} (w : World F) (hne : cmd ≠ [])
    (hname : toLower (cmdName cmd) = ascii "set") :
    EndsIn env (AllHave env w (deadlineOf cmd)) (w, []) (setString cmd) := by
  have hdeadline : deadlineOf cmd =
      match setOptions (cmd.drop 3) ⟨false, false, false, false, false, 0⟩ with
      | .ok o => o.deadline
      | .error _ => .cleared := if_pos hname
  rw [setString, named_eq hne hname]
  refine (follows_ite _ _ _).mpr ⟨fun _ => allHave_nil, fun hlen => ?_⟩
  obtain ⟨name, key, val, opts, rfl⟩ : ∃ a b c rest, cmd = a :: b :: c :: rest := by
    rcases cmd with _ | ⟨a, _ | ⟨b, _ | ⟨c, rest⟩⟩⟩
    · simp at hlen
    · simp at hlen
    · simp at hlen
    · exact ⟨a, b, c, rest, rfl⟩
  simp only [strAt, argAt, List.getElem?_cons_succ, List.getElem?_cons_zero, ret_bind,
    List.drop_succ_cons, List.drop_zero] at hdeadline ⊢
  refine ⟨_, rfl, fun _ _ => ?_⟩
  cases hopt : setOptions opts ⟨false, false, false, false, false, 0⟩ with
  | error reply => exact allHave_nil
  | ok o =>
    rw [hopt] at hdeadline
    dsimp only at hdeadline ⊢
    rw [hdeadline]
    refine (follows_ite _ _ _).mpr ⟨fun _ => allHave_nil, fun _ => ?_⟩
    refine allHave_withLocks ⟨_, rfl, fun found _ => ?_⟩
    cases found with
    | wrongType => exact allHave_nil
    | absent =>
      exact (setEnd_follows env o (str key) val _ _ _).mono fun x _ hx =>
        hx.allHave rfl (Nat.le_add_right w.tick 3)
    | found old =>
      exact (setEnd_follows env o (str key) val _ _ _).mono fun x _ hx =>
        hx.allHave rfl (Nat.le_add_right w.tick 3)

/-- SETEX sets the deadline. -/
theorem setExString_deadline (env : Env) {cmd : Command} (w : World F) (hne : cmd ≠ [])
    (hname : toLower (cmdName cmd) = ascii "setex") :
    EndsIn env (AllHave env w (deadlineOf cmd)) (w, []) (setExString cmd) := by
  have hset : ¬ toLower (cmdName cmd) = ascii "set" := by
    rw [hname]
    decide
  have hdeadline : deadlineOf cmd = match parseInt (str (cmd[2]?).join) with
      | .ok seconds => .after seconds.toInt
      | .error _ => .cleared := (if_neg hset).trans (if_pos hname)
  rw [setExString, named_eq hne hname]
  refine (follows_ite _ _ _).mpr ⟨fun _ => allHave_nil, fun hlen => ?_⟩
  obtain ⟨name, key, seconds, val, rfl⟩ : ∃ a b c d, cmd = [a, b, c, d] :=
    List.length_eq_four.mp (not_not.mp hlen)
  rw [strAt_bind (a := seconds) rfl]
  rw [show str (([name, key, seconds, val] : Command)[2]?).join = str seconds from rfl] at hdeadline
  cases hparse : parseInt (str seconds) with
  | error e => exact allHave_nil
  | ok ex =>
    rw [hparse] at hdeadline
    dsimp only at hdeadline ⊢
    rw [hdeadline]
    refine ⟨_, rfl, fun now hnow => ?_⟩
    replace hnow : now = env.clock w.tick := hnow
    subst hnow
    simp only [strAt, argAt, List.getElem?_cons_succ, List.getElem?_cons_zero, ret_bind]
    refine allHave_withLocks ⟨_, rfl, fun _ _ => ⟨_, rfl, fun _ _ k hk => ?_⟩⟩
    obtain rfl : k = str key := by simpa [Op.noting, Op.installs] using hk
    refine ⟨w.tick, le_rfl, ?_, ?_⟩
    · simp [Op.noting]
      omega
    · simp [Op.noting, Store.setTTL]

/-! ## MSET -/

omit [UnicodeTables] in
/-- The loop of MSET leaves no deadline at a key that it has installed. -/
theorem mSetLoop_clears (env : Env) (pairs : List (Bytes × Option Bytes)) (w : World F)
    (noted : List Bytes) (h : ∀ k ∈ noted, w.store.ttl.lookup k = none) :
    EndsIn env (fun x => ∀ k ∈ x.2, x.1.store.ttl.lookup k = none) (w, noted) (mSetLoop pairs) := by
  induction pairs generalizing w noted with
  | nil => exact h
  | cons pair rest ih =>
    obtain ⟨k, v⟩ := pair
    refine ⟨_, rfl, fun _ _ => ⟨_, rfl, fun _ _ => ih _ _ fun k' hk' => ?_⟩⟩
    rcases List.mem_append.mp hk' with hk' | hk'
    · have hold : w.store.ttl.lookup k' = none := by
        refine h k' ?_
        simpa [Op.noting, Op.installs] using hk'
      simp [Op.noting, hold]
    · obtain rfl : k' = k := by simpa [Op.noting, Op.installs] using hk'
      simp [Op.noting]

/-- MSET clears the deadlines. -/
theorem mSetString_deadline (env : Env) {cmd : Command} (w : World F) (hne : cmd ≠ [])
    (hname : toLower (cmdName cmd) = ascii "mset") :
    EndsIn env (AllHave env w .cleared) (w, []) (mSetString cmd) := by
  rw [mSetString, named_eq hne hname]
  refine (follows_ite _ _ _).mpr ⟨fun _ => allHave_nil, fun _ => ?_⟩
  cases pairsOf cmd.tail with
  | none => exact allHave_nil
  | some pairs =>
    refine allHave_withLocks ((follows_bind _ _).mpr ?_)
    refine (mSetLoop_clears env pairs _ [] fun k hk => absurd hk List.not_mem_nil).mono ?_
    rintro x (why | u) hx
    · exact hx
    · exact hx

end Strings

/-! ## RENAME -/

section Keys

variable [UnicodeTables]

/-- RENAME clears the deadline. -/
theorem renameKey_deadline (env : Env) {cmd : Command} (w : World F) (hne : cmd ≠ [])
    (key : Bytes) :
    EndsIn env (AllHave env w (.ofKey key)) (w, []) (renameKey cmd) := by
  obtain ⟨name, rest, rfl⟩ := List.exists_cons_of_ne_nil hne
  rw [renameKey, strAt_bind (a := name) rfl]
  refine (follows_ite _ _ _).mpr ⟨fun _ => allHave_nil, fun hlen => ?_⟩
  obtain ⟨a, old, new, heq⟩ : ∃ a b c, name :: rest = [a, b, c] :=
    List.length_eq_three.mp (not_not.mp fun h => hlen (Or.inr h))
  rw [heq]
  simp only [strAt, List.getElem?_cons_succ, List.getElem?_cons_zero, ret_bind]
  refine ⟨_, rfl, fun live _ => (follows_ite _ _ _).mpr
    ⟨fun _ => allHave_nil, fun _ => ?_⟩⟩
  refine allHave_withLocks ⟨_, rfl, fun found _ => ?_⟩
  cases found with
  | none => exact allHave_nil
  | some v =>
    refine ⟨_, rfl, fun _ _ => ⟨_, rfl, fun _ _ => ⟨_, rfl, fun _ _ => ⟨_, rfl, fun _ _ =>
      ⟨_, rfl, fun _ _ k hk => ?_⟩⟩⟩⟩⟩
    obtain rfl : k = str new := by simpa [Op.noting, Op.installs] using hk
    simp [Deadline.Left, Op.noting]

end Keys

/-! ## The STORE commands -/

section Stores

/-- The operations of a STORE command up to its second check. -/
def Op.Looks {c : Caps} : Op F c → Prop
  | .checkTTL _ => True
  | .get _ _ _ => True
  | .rLock _ => True
  | .rUnLock _ => True
  | _ => False

/-- From `x` to `x'` nothing is installed, and the deadline of `des` is gone only if
    a check found it due. -/
structure Waited (env : Env) (des : Bytes) (x x' : World F × List Bytes) : Prop where
  tick : x.1.tick ≤ x'.1.tick
  noted : x'.2 = x.2
  ttl : x'.1.store.ttl.lookup des = x.1.store.ttl.lookup des ∨
    x'.1.store.ttl.lookup des = none ∧
      ∃ t, x.1.tick ≤ t ∧ t < x'.1.tick ∧ x.1.store.Due des (env.clock t)

variable {des : Bytes} {x y z : World F × List Bytes}

theorem Waited.trans (h : Waited env des x y) (h' : Waited env des y z) : Waited env des x z := by
  refine ⟨h.tick.trans h'.tick, h'.noted.trans h.noted, ?_⟩
  rcases h.ttl with hold | ⟨hnone, t, hfrom, hto, hdue⟩
  · refine h'.ttl.imp (fun hsame => hsame.trans hold) fun ⟨hnone, t, hfrom, hto, hdue⟩ => ?_
    rw [Store.Due, hold] at hdue
    exact ⟨hnone, t, h.tick.trans hfrom, hto, hdue⟩
  · refine Or.inr ⟨?_, t, hfrom, hto.trans_le h'.tick, hdue⟩
    exact h'.ttl.elim (fun hsame => hsame.trans hnone) And.left

/-- **One such operation.** -/
theorem Op.Looks.waited {o : Op F c} (h : o.Looks) (x : World F × List Bytes) :
    Waited env des x (o.noting env x).2 := by
  cases o with
  | checkTTL key =>
    refine ⟨Nat.le_succ _, List.append_nil _, ?_⟩
    rw [Op.noting, Op.step_checkTTL]
    dsimp only
    rw [Store.checkTTL_ttl]
    by_cases hkey : des = key ∧ x.1.store.Due key (env.clock x.1.tick)
    · rw [if_pos hkey]
      exact Or.inr ⟨rfl, x.1.tick, le_rfl, Nat.lt_succ_self _, hkey.1 ▸ hkey.2⟩
    · rw [if_neg hkey]
      exact Or.inl rfl
  | get kind key hk => exact ⟨Nat.le_succ _, List.append_nil _, Or.inl rfl⟩
  | rLock keys => exact ⟨Nat.le_succ _, List.append_nil _, Or.inl rfl⟩
  | rUnLock keys => exact ⟨Nat.le_succ _, List.append_nil _, Or.inl rfl⟩
  | _ => exact absurd h id

/-- **A run of them**, before the rest of a command. -/
theorem follows_waited {α β : Type} {E : World F × List Bytes → Prop} {p : Cmd F c α}
    {f : α → Cmd F c β} (hp : p.Uses Op.Looks) (hx : Waited env des (w, []) x)
    (hnil : ∀ y, y.2 = [] → E y)
    (hf : ∀ a y, Waited env des (w, []) y →
      EndsIn env E y (f a)) :
    EndsIn env E x (p >>= f) := by
  have hrun : Waited env des x (p.run (Op.noting env) x).2 :=
    hp.run (R := Waited env des) (fun _ => ⟨le_rfl, rfl, Or.inl rfl⟩) (fun _ _ _ => Waited.trans)
      (fun o x ho => ho.waited x) x
  refine (follows_bind _ _).mpr ((follows_machine _).mpr ?_)
  cases (p.run (Op.noting env) x).1 with
  | ok a => exact hf a _ (hx.trans hrun)
  | error why => exact hnil _ (hrun.noted.trans hx.noted)

/-- What a STORE command leaves that started in `w` and checked its destination: if
    it installs it, it checked it again five operations before its end, in `y`. -/
def StoreEnd (env : Env) (w : World F) (des : Bytes) (x : World F × List Bytes) : Prop :=
  x.2 = [] ∨ x.2 = [des] ∧ ∃ y, Waited env des (w, []) y ∧ x.1.tick = y.1.tick + 5 ∧
    x.1.store.ttl.lookup des = (y.1.store.checked des (env.clock y.1.tick)).ttl.lookup des

theorem holdsSet_looks {key : Bytes} : (holdsSet key : Cmd F _ _).Uses Op.Looks := by
  refine ⟨trivial, fun found => ?_⟩
  cases found <;> trivial

theorem liveKeys_looks (args : List (Option Bytes)) :
    (liveKeys args : Cmd F c _).Uses Op.Looks := by
  induction args with
  | nil => trivial
  | cons arg rest ih => exact ⟨trivial, fun live => ih.bind fun keys => trivial⟩

/-- The write, from a state `v`. -/
theorem storeSet_end (res : RedisSet) (v : World F × List Bytes) :
    Follows (machine (Op.noting env)) (fun x e => (∃ reply, e = .ok reply) ∧ (x.2 = v.2 ∨
      x.2 = v.2 ++ [des] ∧ x.1.tick = v.1.tick + 2 ∧ x.1.store.ttl = v.1.store.ttl)) v
      (storeSet des res : Cmd F _ _) := by
  simp only [storeSet, holdsSet, get, op_bind, ret_bind]
  refine ⟨_, rfl, fun found _ => ?_⟩
  by_cases hlen : res.len = 0
  · cases found with
    | wrongType => exact ⟨⟨_, rfl⟩, Or.inl (List.append_nil _)⟩
    | _ => simp [hlen, Op.noting, Op.installs]
  · cases found with
    | wrongType => exact ⟨⟨_, rfl⟩, Or.inl (List.append_nil _)⟩
    | _ => simp [hlen, Op.noting, Op.installs]

/-- The second check and the write. -/
theorem SetOp.store_end (op : SetOp) (res : RedisSet) (hy : Waited env des (w, []) y) :
    EndsIn env (StoreEnd env w des) y (checkTTL des >>= fun _ => op.store des res) := by
  have hnil : y.2 = [] := hy.noted
  refine ⟨_, rfl, fun _ _ => ?_⟩
  have hlocked : EndsIn env (StoreEnd env w des)
      (Op.noting env (.checkTTL des : Op F writes) y).2 (withLock des (storeSet des res)) := by
    refine ⟨_, rfl, fun _ _ => (follows_defer _ _).mpr ((storeSet_end res _).mono ?_)⟩
    rintro x _ ⟨⟨reply, rfl⟩, hx⟩
    refine ⟨_, rfl, fun _ _ => ?_⟩
    simp only [Op.noting, Op.installs, hnil] at hx ⊢
    rcases hx with hx | ⟨hk, ht, httl⟩
    · exact Or.inl (by simpa using hx)
    · exact Or.inr ⟨by simpa using hk, y, hy, by simp [ht], by simp [httl, Store.checked]⟩
  cases op with
  | union =>
    refine ⟨_, rfl, fun _ _ => ⟨_, rfl, fun _ _ => (storeSet_end res _).mono fun x _ hx => ?_⟩⟩
    simp only [Op.noting, Op.installs, hnil] at hx
    rcases hx.2 with hx | ⟨hk, ht, httl⟩
    · exact Or.inl (by simpa using hx)
    · exact Or.inr ⟨by simpa using hk, y, hy, by simp [ht], by simp [httl, Store.checked]⟩
  | inter => exact hlocked
  | diff => exact hlocked

/-- **A STORE command**, from its first check on. -/
theorem stored_end (op : SetOp) (env : Env) (cmd : Command) (bad : Reply) (w : World F) :
    EndsIn env (StoreEnd env
        ⟨w.store.checked (keyArg cmd) (env.clock w.tick), w.tick + 1, w.draws⟩ (keyArg cmd))
      (w, []) (if cmd.length < 3 then return bad else storing cmd op.compute op.store) := by
  refine (follows_ite _ _ _).mpr ⟨fun _ => Or.inl rfl, fun hlen => ?_⟩
  rcases cmd with _ | ⟨name, _ | ⟨des, sources⟩⟩
  · simp at hlen
  · simp at hlen
  have hstart : ∀ v : World F, Waited env (str des) (v, []) (v, []) :=
    fun v => ⟨le_rfl, rfl, Or.inl rfl⟩
  have hnil : ∀ y : World F × List Bytes, y.2 = [] → StoreEnd env
      ⟨w.store.checked (str des) (env.clock w.tick), w.tick + 1, w.draws⟩ (str des) y :=
    fun _ => Or.inl
  simp only [storing, strAt, List.getElem?_cons_succ, List.getElem?_cons_zero, ret_bind]
  refine ⟨_, rfl, fun _ _ => follows_waited (p := holdsSet (str des)) holdsSet_looks
    (hstart _) hnil fun ok x hx => ?_⟩
  cases ok with
  | false => exact hnil _ hx.noted
  | true =>
    refine follows_waited (liveKeys_looks _) hx hnil fun keys x hx => ?_
    refine (follows_ite _ _ _).mpr ⟨fun _ => hnil _ hx.noted, fun _ => ?_⟩
    refine follows_waited (op.compute_uses (fun _ _ _ => trivial) (fun _ => trivial)
      (fun _ => trivial) keys) hx hnil fun res x hx => ?_
    cases res with
    | error reply => exact hnil _ hx.noted
    | ok res => exact op.store_end res hx

section StoreEnd

variable {s : Store F} {now : Int} {k : Bytes}

theorem checked_ttl_none : (s.checked des now).ttl.lookup des = none ↔
    s.ttl.lookup des = none ∨ s.Due des now := by
  rw [Store.checked, Store.checkTTL_ttl]
  by_cases h : s.Due des now
  · simp [h]
  · simp [h]

/-- The destination has no deadline if it had none after the first check. -/
theorem StoreEnd.cleared (h : StoreEnd env w des x) (hnone : w.store.ttl.lookup des = none)
    (hk : k ∈ x.2) : x.1.store.ttl.lookup k = none := by
  rcases h with hnil | ⟨hkey, y, hy, -, httl⟩
  · rw [hnil] at hk
    cases hk
  rw [hkey, List.mem_singleton] at hk
  rw [hk, httl, checked_ttl_none]
  exact Or.inl (hy.ttl.elim (fun hsame => hsame.trans hnone) And.left)

/-- **While the clock does not go back**, it has none just if it had none, or one
    that has come by the second check. -/
theorem StoreEnd.cleared_iff {d : Nat}
    (h : StoreEnd env ⟨w.store.checked des (env.clock w.tick), w.tick + 1, d⟩ des x)
    (hclock : ∀ t t', w.tick ≤ t → t ≤ t' → t' < x.1.tick → env.clock t ≤ env.clock t')
    (hk : k ∈ x.2) : x.1.store.ttl.lookup k = none ↔
      w.store.ttl.lookup k = none ∨ w.store.Due k (env.clock (x.1.tick - 5)) := by
  rcases h with hnil | ⟨hkey, y, hy, htick, httl⟩
  · rw [hnil] at hk
    cases hk
  rw [hkey, List.mem_singleton] at hk
  have hlate : w.tick ≤ y.1.tick := (Nat.le_succ _).trans hy.tick
  have hdue : ∀ {t}, w.tick ≤ t → t ≤ y.1.tick → w.store.Due des (env.clock t) →
      w.store.Due des (env.clock y.1.tick) := fun hfrom hto ⟨n, hn, hle⟩ =>
    ⟨n, hn, hle.trans (hclock _ _ hfrom hto (by omega))⟩
  rw [hk, httl, checked_ttl_none, htick, Nat.add_sub_cancel]
  by_cases hfirst : (w.store.checked des (env.clock w.tick)).ttl.lookup des = none
  · have hy' : y.1.store.ttl.lookup des = none :=
      hy.ttl.elim (fun hsame => hsame.trans hfirst) And.left
    exact iff_of_true (Or.inl hy') ((checked_ttl_none.mp hfirst).imp_right (hdue le_rfl hlate))
  -- the first check has left the deadline
  rw [checked_ttl_none, not_or] at hfirst
  rw [Store.checked_of_not_due hfirst.2] at hy
  rcases hy.ttl with hsame | ⟨hnone, t, hfrom, hto, hdue'⟩
  · rw [Store.Due, hsame]
    rfl
  · exact iff_of_true (Or.inl hnone) (Or.inr (hdue ((Nat.le_succ _).trans hfrom) hto.le hdue'))

end StoreEnd

end Stores

/-! ## Every command -/

section Main

variable [UnicodeTables] [FloatText F]

/-- The keys at which `ExecCommand` puts whole values. -/
def execInstalls (host : Host) (env : Env) (cmd : Command) (w : World F) : List Bytes :=
  if cmd = [] then []
  else
    match (lookupCmd host (toLower (cmdName cmd)) : Option (Executor F)) with
    | none => []
    | some command => installed env (command.body cmd) w

/-- The commands whose task it is to replace a value. -/
def replacers : List String :=
  ["set", "mset", "setex", "rename", "sunionstore", "sinterstore", "sdiffstore"]

/-- No sum of clock and seconds overflows while the command runs, the source of a
    RENAME has no deadline, and the destination of a STORE command has none that is
    still to come. -/
structure DeadlineSafe (host : Host) (env : Env) (cmd : Command) (w : World F) : Prop where
  fits : (deadlineOf cmd).Fits env w (execCommand host env cmd w).2.tick
  source : ∀ key, deadlineOf cmd = .ofKey key → w.store.ttl.lookup key = none
  destination : (∃ op : SetOp, toLower (cmdName cmd) = ascii op.stored) →
    w.store.ttl.lookup (keyArg cmd) = none ∨ w.store.Due (keyArg cmd) (env.clock w.tick)

/-- The deadline of `k` after the command is the one that the command specifies. -/
def RightDeadline (host : Host) (env : Env) (cmd : Command) (w : World F) (k : Bytes) : Prop :=
  (deadlineOf cmd).Holds env w (execCommand host env cmd w).2.tick k
    ((execCommand host env cmd w).2.store.ttl.lookup k)

/-- When the deadline is right at a key that the command installs: the sum fits at
    some reading, the source has no deadline, and, if the clock does not go back,
    the destination of a STORE command has none that is still to come when it is
    checked again, five operations before the end. -/
structure DeadlineExact (host : Host) (env : Env) (cmd : Command) (w : World F) (k : Bytes) :
    Prop where
  fits : ∀ seconds, deadlineOf cmd = .after seconds → RightDeadline host env cmd w k →
    ∃ t, w.tick ≤ t ∧ t < (execCommand host env cmd w).2.tick ∧ FitsInt64 (env.clock t + seconds)
  source : ∀ key, deadlineOf cmd = .ofKey key →
    (RightDeadline host env cmd w k ↔ w.store.ttl.lookup key = none)
  destination : (∃ op : SetOp, toLower (cmdName cmd) = ascii op.stored) →
    (∀ t t', w.tick ≤ t → t ≤ t' → t' < (execCommand host env cmd w).2.tick →
      env.clock t ≤ env.clock t') →
    (RightDeadline host env cmd w k ↔ w.store.ttl.lookup k = none ∨
      w.store.Due k (env.clock ((execCommand host env cmd w).2.tick - 5)))

section Cases

variable {host : Host} {cmd : Command} {k : Bytes} {name : String}

/-- What the other commands leave is right if they are safe, and only then. -/
theorem Deadline.Left.right (h : (deadlineOf cmd).Left env w (execCommand host env cmd w).2.tick k
      ((execCommand host env cmd w).2.store.ttl.lookup k))
    (hname : toLower (cmdName cmd) = ascii name) (hno : ∀ o : SetOp, ascii name ≠ ascii o.stored) :
    (DeadlineSafe host env cmd w → RightDeadline host env cmd w k) ∧
      DeadlineExact host env cmd w k := by
  refine ⟨fun hsafe => ?_, fun seconds hd hright => ?_, fun key hd => ?_,
    fun ⟨o, ho⟩ => absurd (hname.symm.trans ho) (hno o)⟩
  · rw [RightDeadline]
    cases hd : deadlineOf cmd with
    | after seconds =>
      rw [hd] at h
      obtain ⟨t, hfrom, hto, hleft⟩ := h
      exact ⟨t, hfrom, hto, hleft.trans (by rw [int64_of_fits (hsafe.fits _ hd t hfrom hto)])⟩
    | ofKey key =>
      rw [hd] at h
      exact h.trans (hsafe.source key hd).symm
    | cleared =>
      rw [hd] at h
      exact h
    | kept =>
      rw [hd] at h
      exact h
  · rw [RightDeadline, hd] at hright
    rw [hd] at h
    obtain ⟨t, -, -, hleft⟩ := h
    obtain ⟨t', hfrom, hto, hholds⟩ := hright
    have hsum : int64 (env.clock t + seconds) = env.clock t' + seconds :=
      Option.some.inj (hleft.symm.trans hholds)
    exact ⟨t', hfrom, hto, hsum ▸ fits_int64 _⟩
  · rw [hd] at h
    rw [RightDeadline, hd, h]
    exact eq_comm

theorem StoreEnd.right {o : SetOp} (h : StoreEnd env
      ⟨w.store.checked (keyArg cmd) (env.clock w.tick), w.tick + 1, w.draws⟩ (keyArg cmd)
      ((execCommand host env cmd w).2, execInstalls host env cmd w))
    (hname : toLower (cmdName cmd) = ascii o.stored) (hk : k ∈ execInstalls host env cmd w) :
    (DeadlineSafe host env cmd w → RightDeadline host env cmd w k) ∧
      DeadlineExact host env cmd w k := by
  have hd : deadlineOf cmd = .cleared := deadlineOf_cleared hname (by cases o <;> decide)
  have hright : RightDeadline host env cmd w k ↔
      (execCommand host env cmd w).2.store.ttl.lookup k = none := by
    rw [RightDeadline, hd]
    exact Iff.rfl
  refine ⟨fun hsafe => hright.mpr (h.cleared ?_ hk), fun seconds h => ?_, fun key h => ?_,
    fun _ hclock => hright.trans (h.cleared_iff hclock hk)⟩
  · exact checked_ttl_none.mpr (hsafe.destination ⟨o, hname⟩)
  · cases hd.symm.trans h
  · cases hd.symm.trans h

end Cases

/-- **A replaced value has the deadline its command specifies.** From every
    state, for every key at which SET, MSET, SETEX, RENAME or a STORE command
    puts a new value, if the command is safe, and how far only then. -/
theorem replaced_value_deadline (host : Host) (env : Env) (cmd : Command) (w : World F)
    (hname : ∃ name ∈ replacers, toLower (cmdName cmd) = ascii name) :
    ∀ k ∈ execInstalls host env cmd w,
      (DeadlineSafe host env cmd w → RightDeadline host env cmd w k) ∧
        DeadlineExact host env cmd w k := by
  obtain ⟨name, hmem, hname⟩ := hname
  by_cases hne : cmd = []
  · rw [execInstalls, if_pos hne]
    exact fun k hk => absurd hk List.not_mem_nil
  -- it is enough to follow the executor
  have hrun {E : World F × List Bytes → Prop} {e : Executor F} (he : (name, e) ∈ cmdTable host)
      (h : EndsIn env E (w, []) (e.body cmd)) :
      E ((execCommand host env cmd w).2, execInstalls host env cmd w) := by
    rw [execCommand_of_mem he hne hname, execInstalls, if_neg hne, hname, lookupCmd_of_mem he]
    exact follows_noting h
  have hplain {e : Executor F} (he : (name, e) ∈ cmdTable host)
      (hno : ∀ o : SetOp, ascii name ≠ ascii o.stored)
      (h : EndsIn env (AllHave env w (deadlineOf cmd)) (w, [])
        (e.body cmd)) (k : Bytes) (hk : k ∈ execInstalls host env cmd w) :=
    (hrun he h k hk).right hname hno
  have hstored {e : Executor F} (o : SetOp) (he : (name, e) ∈ cmdTable host) (ho : name = o.stored)
      (h : EndsIn env (StoreEnd env
        ⟨w.store.checked (keyArg cmd) (env.clock w.tick), w.tick + 1, w.draws⟩ (keyArg cmd))
        (w, []) (e.body cmd)) (k : Bytes) (hk : k ∈ execInstalls host env cmd w) :=
    (hrun he h).right (ho ▸ hname) hk
  simp only [replacers, List.mem_cons, List.not_mem_nil, or_false] at hmem
  rcases hmem with rfl | rfl | rfl | rfl | rfl | rfl | rfl
  · exact hplain (e := ⟨_, setString⟩) (by simp [cmdTable]) (by rintro (_ | _ | _) <;> decide)
      (setString_deadline env w hne hname)
  · refine hplain (e := ⟨_, mSetString⟩) (by simp [cmdTable]) (by rintro (_ | _ | _) <;> decide) ?_
    rw [deadlineOf_cleared hname (by decide)]
    exact mSetString_deadline env w hne hname
  · exact hplain (e := ⟨_, setExString⟩) (by simp [cmdTable]) (by rintro (_ | _ | _) <;> decide)
      (setExString_deadline env w hne hname)
  · refine hplain (e := ⟨_, renameKey⟩) (by simp [cmdTable]) (by rintro (_ | _ | _) <;> decide) ?_
    rw [deadlineOf_rename hname]
    exact renameKey_deadline env w hne _
  · refine hstored (e := ⟨_, sUnionStoreSet⟩) .union (by simp [cmdTable]) rfl ?_
    dsimp only
    rw [sUnionStoreSet, named_eq hne hname]
    exact stored_end .union env cmd _ w
  · refine hstored (e := ⟨_, sInterStoreSet⟩) .inter (by simp [cmdTable]) rfl ?_
    dsimp only
    rw [sInterStoreSet, named_eq hne hname]
    exact stored_end .inter env cmd _ w
  · refine hstored (e := ⟨_, sDiffStoreSet⟩) .diff (by simp [cmdTable]) rfl ?_
    dsimp only
    rw [sDiffStoreSet, named_eq hne hname]
    exact stored_end .diff env cmd _ w

end Main

/-- SET k v EX 100 over a value without a deadline. -/
theorem replaced_value_deadline_set_ex :
    letI := asciiTables
    let w := stateAfter (words ["SET", "k", "u"])
    let cmd := words ["SET", "k", "v", "EX", "100"]
    execInstalls quietHost stillEnv cmd w = [ascii "k"] ∧
      deadlineOf cmd = .after 100 ∧
      (Deadline.after 100).Holds stillEnv w (execStill cmd w).2.tick
        (ascii "k")
        ((execStill cmd w).2.store.ttl.lookup (ascii "k")) := by
  intro w cmd
  have hinst : @execInstalls IntScore asciiTables _ quietHost stillEnv cmd w = [ascii "k"] := rfl
  have hdeadline : @deadlineOf asciiTables cmd = .after 100 := rfl
  refine ⟨hinst, hdeadline, ?_⟩
  have hsafe : @DeadlineSafe IntScore asciiTables _ quietHost stillEnv cmd w := by
    refine @DeadlineSafe.mk IntScore asciiTables _ quietHost stillEnv cmd w (fun seconds h => ?_)
      (fun key h => ?_) ?_
    · obtain rfl : 100 = seconds := Deadline.after.inj (hdeadline.symm.trans h)
      exact fun t _ _ => by simp [stillEnv, FitsInt64]
    · cases hdeadline.symm.trans h
    · rintro ⟨op, h⟩
      cases op <;> exact absurd h (by decide)
  have h := (@replaced_value_deadline IntScore asciiTables _ quietHost stillEnv cmd w
    ⟨"set", by simp [replacers], by decide⟩ (ascii "k") (by rw [hinst]; simp)).1 hsafe
  unfold RightDeadline at h
  rwa [hdeadline] at h

/-- RENAME drops the deadline of its source, and SUNIONSTORE leaves that of the
    value it replaces. -/
theorem rename_drops_deadline :
    letI := asciiTables
    let w := stateAfter (words ["SET", "k", "v", "EX", "100"])
    let cmd := words ["RENAME", "k", "n"]
    let w' := stateAfter (words ["SADD", "s", "x"])
    let w' := (execStill
      (words ["EXPIRE", "d", "100"]) (execStill
        (words ["SADD", "d", "y"]) w').2).2
    let cmd' := words ["SUNIONSTORE", "d", "s"]
    w.store.ttl.lookup (ascii "k") = some 100 ∧
      execInstalls quietHost stillEnv cmd w = [ascii "n"] ∧
      (execStill cmd w).1 = .ok (statusReply "OK") ∧
      (execStill cmd w).2.store.ttl.lookup (ascii "n") = none ∧
      execInstalls quietHost stillEnv cmd' w' = [ascii "d"] ∧
      (execStill cmd' w').1 = .ok (intReply 1) ∧
      (execStill cmd' w').2.store.ttl.lookup (ascii "d") = some 100 :=
  ⟨rfl, rfl, rfl, rfl, rfl, rfl, rfl⟩

end TinyDb
