import TinyRedis.CommandRunsProofs
import TinyRedis.CommandSpecsProofs
import TinyRedis.SkipListRowsProofs

/-! # Errors are atomic

    A command that replies with an error should leave the live data as it was:
    the keys that have not expired, their values and their deadlines.  What a
    command can do without writing is expire keys, which is invisible there, and
    by the discipline an executor that has written does not reply with an error.

    ZADD is the exception.  It creates the sorted set before it looks at the
    scores, and adds the members it has read before the score that does not
    parse. -/

namespace TinyDb

open GoString GoFloat GoProgram GoProgram.Prog TinyResp TinyZSet

variable {F : Type} {T : Int} {w w' : World F} {c : Caps}

/-! ## Commands that have not written -/

/-- The two stores have the same live data at `T`. -/
def SameLive (T : Int) (s s' : Store F) : Prop := ∀ k, s'.live T k = s.live T k

/-- Up to `w'` the clock has not been read past `T`, and the live data is the
    same as at `w`. -/
def QuietSince (env : Env) (T : Int) (w w' : World F) : Prop :=
  w.tick ≤ w'.tick ∧
    ((∀ t, w.tick ≤ t → t ≤ w'.tick → env.clock t ≤ T) → SameLive T w.store w'.store)

/-- **One operation** that does not write. -/
theorem Op.step_quiet {env : Env} {q q' : Phase} (o : Op F c) {w₀ w : World F}
    (h : QuietSince env T w₀ w) (hq : q.next o = some q') (hw : q'.wrote = false) :
    QuietSince env T w₀ (o.step env w).2 := by
  have hstore : env.clock w.tick ≤ T → SameLive T w.store (o.step env w).2.store := by
    intro hclock k
    cases o with
    | checkTTL key => exact w.store.checkTTL_live key k hclock
    | set kind key obj hwr hz => simp [← Option.some.inj hq] at hw
    | setAny key v hwr hz => simp [← Option.some.inj hq] at hw
    | update kind key obj hwr hz => simp [← Option.some.inj hq] at hw
    | setIfNotExist key val hwr => simp [← Option.some.inj hq] at hw
    | delete key hwr =>
      simp only [Phase.next, Option.ite_none_right_eq_some, Option.some.injEq] at hq
      simp [← hq.2] at hw
    | setTTL key deadline hwr ht => simp [← Option.some.inj hq] at hw
    | removeTTL key hwr =>
      simp only [Phase.next, Option.ite_none_right_eq_some, Option.some.injEq] at hq
      simp [← hq.2] at hw
    | _ => rfl
  refine ⟨le_trans h.1 (Nat.le_succ _), fun hclock k => ?_⟩
  have hbefore := h.2 fun t ht hle => hclock t ht (Nat.le_succ_of_le hle)
  exact (hstore (hclock w.tick h.1 (Nat.le_succ _)) k).trans (hbefore k)

section ZAdd

variable [FloatText F]

/-- The scores and members of ZADD up to the first score that does not parse,
    and whether there is one. -/
def scorePairs : List (Option Bytes) → List (Bytes × F) × Bool
  | score :: member :: rest =>
    match (FloatText.parse (str score) : Option F) with
    | none => ([], true)
    | some s => ((str member, s) :: (scorePairs rest).1, (scorePairs rest).2)
  | _ => ([], false)

/-- The member is there with this score already. -/
def Holds (zset : ZSet F) (pair : Bytes × F) : Prop :=
  ∃ old, zset.dict pair.1 = some old ∧ eq old pair.2 = true

/-- `Add` of such a member does nothing. -/
theorem add_of_holds {zset : ZSet F} {pair : Bytes × F} (h : Holds zset pair) (level : Nat) :
    zset.add pair.1 pair.2 level = (zset, false) := by
  obtain ⟨old, hold, heq⟩ := h
  simp [ZSet.add, hold, heq]

/-- The loop of ZADD on pairs that have been parsed: the set and how many calls
    of `Add` said that they changed it.  `d` counts the levels drawn. -/
def addPairs (level : Nat → Nat) : List (Bytes × F) → Nat → ZSet F → ZSet F × Int
  | [], _, zset => (zset, 0)
  | (member, score) :: rest, d, zset =>
    let r := zset.add member score (level d)
    let q := addPairs level rest (d + 1) r.1
    (q.1, (if r.2 then 1 else 0) + q.2)

/-- **The loop of ZADD** adds the pairs before the first bad score. -/
theorem zAddLoop_eq (env : Env) (args : List (Option Bytes)) (zset : ZSet F) (res : Int)
    (w : World F) (heven : args.length % 2 = 0) :
    ∃ w', (zAddLoop args zset res).run (Op.step env) w =
        (.ok ((addPairs env.level (scorePairs args).1 w.draws zset).1,
          if (scorePairs args : List (Bytes × F) × Bool).2 then none
          else some (res + (addPairs env.level (scorePairs args).1 w.draws zset).2)), w') ∧
      w'.store = w.store := by
  fun_induction zAddLoop args zset res generalizing w with
  | case1 => simp at heven
  | case2 score member rest zset res hbad =>
    refine ⟨w, ?_, rfl⟩
    simp only [scorePairs, hbad]
    rfl
  | case3 score member rest zset res s hs ih =>
    obtain ⟨w', hrun, hstore⟩ := ih (env.level w.draws) ⟨w.store, w.tick + 1, w.draws + 1⟩ (by
      simp only [List.length_cons] at heven
      omega)
    refine ⟨w', ?_, hstore⟩
    simp only [scorePairs, hs]
    have hsum : ∀ (b : Bool) (n : Int),
        (if b then res + 1 else res) + n = res + ((if b then 1 else 0) + n) := by
      intro b n
      cases b with
      | true => exact Int.add_assoc res 1 n
      | false => exact congrArg (res + ·) (Int.zero_add n).symm
    rw [hsum] at hrun
    exact hrun
  | case4 =>
    refine ⟨w, ?_, rfl⟩
    simp [scorePairs, addPairs]

/-- `deleteNode` leaves the other members in the map. -/
theorem deleteNode_dict_ne (z : ZSet F) {m n : Bytes} (old : F) (hn : n ≠ m) :
    (z.deleteNode m old).dict n = z.dict n := by
  unfold ZSet.deleteNode
  dsimp only
  split
  · rfl
  · split
    · rw [(detach_nodes z _ _ m).2.2.2.2.1, Function.update_of_ne hn]
    · rfl

/-- The map after `Add`: the member has the score given, up to `==`. -/
theorem add_dict (z : ZSet F) (m : Bytes) (s : F) (l : Nat) :
    ∃ v, (z.add m s l).1.dict = Function.update z.dict m (some v) ∧
      (IsNum s → eq v s = true) := by
  have hself : IsNum s → eq s s = true := fun ⟨a, ha⟩ => eq_iff.mpr ⟨a, ha, ha⟩
  unfold ZSet.add
  cases hd : z.dict m with
  | none => exact ⟨s, (insertNode_nodes z m s l).2.2.2.2.2.2.2.1, hself⟩
  | some old =>
    dsimp only
    by_cases heq : eq old s = true
    · rw [if_pos heq]
      exact ⟨old, by rw [← hd, Function.update_eq_self], fun _ => heq⟩
    · rw [if_neg heq]
      refine ⟨s, (insertNode_nodes (z.deleteNode m old) m s l).2.2.2.2.2.2.2.1.trans ?_, hself⟩
      funext n
      by_cases hn : n = m
      · rw [hn, Function.update_self, Function.update_self]
      · rw [Function.update_of_ne hn, Function.update_of_ne hn, deleteNode_dict_ne z old hn]

/-- The scores are equal, to `==` or as they are stored. -/
def SameScore (x y : F) : Prop := x = y ∨ eq x y = true

theorem SameScore.trans_eq {x y z : F} (h : SameScore x y) (hz : eq y z = true) :
    eq x z = true := by
  rcases h with rfl | h
  · exact hz
  · obtain ⟨a, hx, hy⟩ := eq_iff.mp h
    obtain ⟨b, hy', hz⟩ := eq_iff.mp hz
    exact eq_iff.mpr ⟨a, hx, by rw [hz, ← hy', hy]⟩

/-- The end of ZADD: the pairs before the first bad score are written back, and
    only that score makes an error. -/
theorem outcome_zAddLoop (env : Env) (key : Bytes) {args : List (Option Bytes)}
    (heven : args.length % 2 = 0) (zset : ZSet F) (w : World F) :
    ∃ reply, outcome env (do
        let r ← zAddLoop args zset 0
        updateZSet key r.1
        match r.2 with
        | none => return errReply "ERR value is not a valid float"
        | some res => return intReply res : Cmd F sortedWrites Reply) w =
      (.ok reply,
        w.store.update key ⟨.zset, (addPairs env.level (scorePairs args).1 w.draws zset).1⟩) ∧
      (IsError reply → (scorePairs args : List (Bytes × F) × Bool).2 = true) := by
  obtain ⟨w', hrun, hstore⟩ := zAddLoop_eq env args zset 0 w heven
  rw [outcome_bind hrun, ← hstore]
  cases hbad : (scorePairs args : List (Bytes × F) × Bool).2 with
  | true => exact ⟨_, rfl, fun _ => rfl⟩
  | false => exact ⟨_, rfl, fun h => absurd h (by simp)⟩

/-- The store after ZADD, `d` being the number of levels drawn before it. -/
def Store.zadded (level : Nat → Nat) (d : Nat) (s : Store F) (key : Bytes)
    (args : List (Option Bytes)) : Store F :=
  match s.get .zset key with
  | .wrongType => s
  | .absent => (s.set key ⟨.zset, newZSet⟩).update key
      ⟨.zset, (addPairs level (scorePairs args).1 d newZSet).1⟩
  | .found zset => s.update key ⟨.zset, (addPairs level (scorePairs args).1 d zset).1⟩

/-- The two values hold the same data; sorted sets do if they have the same
    members with the same scores. -/
def SameValue : Value F → Value F → Prop
  | ⟨.zset, z⟩, ⟨.zset, z'⟩ => ∀ m, Option.Rel SameScore (z.dict m) (z'.dict m)
  | v, v' => v = v'

/-- The two stores have the same live data at `T`, sorted sets compared as maps. -/
def SameData (T : Int) (s s' : Store F) : Prop :=
  ∀ k, Option.Rel (fun x y => SameValue x.1 y.1 ∧ x.2 = y.2) (s.live T k) (s'.live T k)

theorem SameScore.rel_refl (x : Option F) : Option.Rel SameScore x x := by
  cases x with
  | none => exact .none
  | some x => exact .some (Or.inl rfl)

theorem SameValue.refl (v : Value F) : SameValue v v := by
  obtain ⟨kind, obj⟩ := v
  cases kind with
  | zset => exact fun m => SameScore.rel_refl _
  | _ => rfl

theorem SameData.refl (s : Store F) : SameData T s s := by
  intro k
  cases s.live T k with
  | none => exact .none
  | some x => exact .some ⟨SameValue.refl _, rfl⟩

variable [UnicodeTables]

theorem outcome_zAddZset (env : Env) (w : World F) {name : Option Bytes} (key : Option Bytes)
    {args : List (Option Bytes)}
    (hname : toLower (str name) = ascii "zadd") (hargs : args ≠ []) (heven : args.length % 2 = 0) :
    ∃ reply, outcome env (zAddZset (name :: key :: args) : Cmd F _ _) w = (.ok reply,
        (w.store.checked (str key) (env.clock w.tick)).zadded env.level w.draws (str key) args) ∧
      (IsError reply →
        (w.store.checked (str key) (env.clock w.tick)).get .zset (str key) = .wrongType ∨
          (scorePairs args : List (Bytes × F) × Bool).2 = true) := by
  have hdrop : (name :: key :: args).drop 2 = args := rfl
  rw [zAddZset, named_cons hname, if_neg (zAdd_length hargs heven), strAt_bind rfl,
    outcome_checkTTL_ignored, withLock,
    outcome_withLocks, getOrCreateZSet, bind_bind, getZSet, op_bind, outcome_op, Op.step_get, hdrop,
    Store.zadded]
  cases (w.store.checked (str key) (env.clock w.tick)).get .zset (str key) with
  | wrongType => exact ⟨_, rfl, fun _ => Or.inl rfl⟩
  | absent =>
    obtain ⟨reply, hrun, herr⟩ := outcome_zAddLoop env (str key) heven newZSet
      ⟨(w.store.checked (str key) (env.clock w.tick)).set (str key) ⟨.zset, newZSet⟩, w.tick + 4,
        w.draws⟩
    exact ⟨reply, hrun, fun h => Or.inr (herr h)⟩
  | found zset =>
    obtain ⟨reply, hrun, herr⟩ := outcome_zAddLoop env (str key) heven zset
      ⟨w.store.checked (str key) (env.clock w.tick), w.tick + 3, w.draws⟩
    exact ⟨reply, hrun, fun h => Or.inr (herr h)⟩

/-- The key a command names first. -/
def keyArg (cmd : Command) : Bytes := str (cmd[1]?).join

end ZAdd

end TinyDb
