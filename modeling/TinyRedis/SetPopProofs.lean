import TinyRedis.CommandRunsProofs
import TinyRedis.SetAlgebraProofs

/-! # SPOP: what a set loses and what is reported

    `Set.Pop` removes the first member of an iteration and returns it, and returns
    the empty string when there is none.  The loop of SPOP takes the empty string as
    the end.  A set that has it as a member loses it without a report, and the pops
    that were still to come are not made; a set without members that is left stored
    reports an empty string for a single pop, and is left stored by a pop of none. -/

namespace TinyDb

open GoString GoStrconv GoFloat GoProgram GoProgram.Prog TinyResp

variable {F : Type} {env : Env} {w : World F} {set : RedisSet}
  {key member : Bytes} {rest : List Bytes} {draws : Nat} {s : Store F}

/-! ## The members that are met -/

/-- The members that so many pops take from a set, as its iterations meet them. -/
def drawn (env : Env) : Nat → Nat → RedisSet → List Bytes
  | _, 0, _ => []
  | draws, n + 1, set =>
    match env.order draws set.table.keys with
    | [] => []
    | member :: _ => member :: drawn env (draws + 1) n (set.remove member).1

/-- The set that is left when the members of a list are taken. -/
def RedisSet.without (set : RedisSet) (members : List Bytes) : RedisSet :=
  members.foldl (fun res member => (res.remove member).1) set

theorem drawn_nil {draws n : Nat} (h : env.order draws set.table.keys = []) :
    drawn env draws (n + 1) set = [] := by
  rw [drawn, h]

theorem drawn_cons {draws n : Nat} (h : env.order draws set.table.keys = member :: rest) :
    drawn env draws (n + 1) set = member :: drawn env (draws + 1) n (set.remove member).1 := by
  rw [drawn, h]

theorem has_of_order
    (h : env.order draws set.table.keys = member :: rest) : set.has member = true :=
  RedisSet.has_iff.mpr ((env.order_perm draws _).mem_iff.mp (h ▸ List.mem_cons_self))

theorem keys_eq_nil_of_order (h : env.order draws set.table.keys = []) :
    set.table.keys = [] := by
  have hlen := (env.order_perm draws set.table.keys).length_eq
  rw [h] at hlen
  exact List.eq_nil_of_length_eq_zero hlen.symm

/-- The pops take different members, as many as there are to take. -/
theorem drawn_spec (env : Env) (n draws : Nat) (hsized : set.Sized) :
    (drawn env draws n set).Nodup ∧ (∀ m ∈ drawn env draws n set, set.has m = true) ∧
      (drawn env draws n set).length = min n set.table.keys.length := by
  induction n generalizing draws set with
  | zero => exact ⟨List.nodup_nil, fun m hm => absurd hm List.not_mem_nil, (Nat.zero_min _).symm⟩
  | succ n ih =>
    cases horder : env.order draws set.table.keys with
    | nil =>
      rw [drawn_nil horder, keys_eq_nil_of_order horder]
      exact ⟨List.nodup_nil, fun m hm => absurd hm List.not_mem_nil, rfl⟩
    | cons member rest =>
      have hhas := has_of_order horder
      obtain ⟨hnodup, hin, hlen⟩ := ih (draws + 1) (hsized.remove member)
      have hsize : (set.remove member).1.table.keys.length + 1 = set.table.keys.length := by
        have hleft := hsized.remove member
        have hremove : (set.remove member).1.size = set.size - 1 := by
          rw [RedisSet.remove, if_pos hhas]
        rw [RedisSet.Sized, hremove, hsized] at hleft
        omega
      rw [drawn_cons horder]
      refine ⟨List.nodup_cons.mpr ⟨fun hmem => ?_, hnodup⟩, ?_, ?_⟩
      · have := hin member hmem
        simp at this
      · rintro m (_ | ⟨_, hm⟩)
        · exact hhas
        · have := hin m hm
          rw [RedisSet.has_remove, Bool.and_eq_true] at this
          exact this.2
      · rw [List.length_cons, hlen]
        omega

/-! ## The loop -/

theorem run_pop_nil (h : env.order w.draws set.table.keys = []) :
    (set.pop : Cmd F _ _).run (Op.step env) w =
      (.ok (set, []), ⟨w.store, w.tick + 1, w.draws + 1⟩) := by
  rw [RedisSet.pop, iterate, op_bind, run_op, Op.step_order, h]
  rfl

theorem run_pop_cons
    (h : env.order w.draws set.table.keys = member :: rest) :
    (set.pop : Cmd F _ _).run (Op.step env) w =
      (.ok ((set.remove member).1, member), ⟨w.store, w.tick + 1, w.draws + 1⟩) := by
  rw [RedisSet.pop, iterate, op_bind, run_op, Op.step_order, h]
  rfl

/-- The loop reports what it takes, or stops short at the empty string. -/
theorem run_sPopLoop (env : Env) (n : Nat) (set : RedisSet) (res : List Bytes) (w : World F) :
    ∃ set' l w', (sPopLoop n set res : Cmd F _ _).run (Op.step env) w =
        (.ok (set', res ++ l), w') ∧ w'.store = w.store ∧
      (([] ∉ drawn env w.draws n set ∧ l = drawn env w.draws n set ∧
          set' = set.without (drawn env w.draws n set)) ∨
        ([] ∈ drawn env w.draws n set ∧ l.length < (drawn env w.draws n set).length)) := by
  induction n generalizing set res w with
  | zero => exact ⟨set, [], w, by rw [List.append_nil]; rfl, rfl, .inl ⟨List.not_mem_nil, rfl, rfl⟩⟩
  | succ n ih =>
    cases horder : env.order w.draws set.table.keys with
    | nil =>
      rw [drawn_nil horder, sPopLoop, run_bind, run_pop_nil horder]
      exact ⟨set, [], ⟨w.store, w.tick + 1, w.draws + 1⟩, by rw [List.append_nil]; rfl, rfl,
        .inl ⟨List.not_mem_nil, rfl, rfl⟩⟩
    | cons member rest =>
      rw [drawn_cons horder, sPopLoop, run_bind, run_pop_cons horder]
      dsimp only
      by_cases hempty : member = []
      · rw [if_pos hempty]
        exact ⟨(set.remove member).1, [], ⟨w.store, w.tick + 1, w.draws + 1⟩,
          by rw [List.append_nil]; rfl, rfl, .inr ⟨hempty ▸ List.mem_cons_self, Nat.succ_pos _⟩⟩
      · rw [if_neg hempty]
        obtain ⟨set', l, w', hrun, hstore, hcase⟩ := ih (set.remove member).1 (res ++ [member])
          ⟨w.store, w.tick + 1, w.draws + 1⟩
        refine ⟨set', member :: l, w', by rw [hrun, List.append_assoc]; rfl, hstore, ?_⟩
        rcases hcase with ⟨hno, rfl, rfl⟩ | ⟨hyes, hlt⟩
        · exact .inl ⟨fun hmem => (List.mem_cons.mp hmem).elim (fun h => hempty h.symm) hno,
            rfl, rfl⟩
        · exact .inr ⟨List.mem_cons_of_mem _ hyes, Nat.succ_lt_succ hlt⟩

/-! ## The command -/

/-- A member in an array reply. -/
def memberOf : RedisData → Option Bytes
  | .bulkData member => member
  | _ => none

/-- The members that a reply of SPOP shows: a bulk is one member, and the null array
    is the reply for a count of zero. -/
def shown : Except Abort Reply → Option (List Bytes)
  | .ok (some (.bulkData (some member))) => some [member]
  | .ok (some .nullArray) => some []
  | .ok (some (.arrayData items)) => items.mapM memberOf
  | _ => none

theorem shown_bulksReply (members : List Bytes) :
    shown (.ok (bulksReply (members.map some))) = some members := by
  show ((members.map some).map RedisData.bulkData).mapM memberOf = some members
  induction members with
  | nil => rfl
  | cons member rest ih =>
    rw [List.map_cons, List.map_cons, List.mapM_cons, ih]
    rfl

/-- The calls of SPOP with a count that is not negative. -/
inductive SPopCall (name key : Option Bytes) : Command → Int → Prop
  | one : SPopCall name key [name, key] 1
  | many {amount : Option Bytes} {count : Int} (hcount : atoi (str amount) = .ok count)
      (hnonneg : 0 ≤ count) : SPopCall name key [name, key, amount] count

/-- What is taken is reported: different members of the set, as many as were asked
    for or all, and the set keeps the others; with none left the key is gone, with
    its deadline. -/
def LosesNothing (set : RedisSet) (deadline : Option Int) (count : Int) (key : Bytes)
    (reply : Except Abort Reply) (left : Store F) : Prop :=
  ∃ members, shown reply = some members ∧ members.Nodup ∧ (∀ m ∈ members, set.has m = true) ∧
    (members.length : Int) = min count set.table.keys.length ∧
    ((∀ m, set.has m = true → m ∈ members) →
      left.db.lookup key = none ∧ left.ttl.lookup key = none) ∧
    ((∃ m, set.has m = true ∧ m ∉ members) → left.ttl.lookup key = deadline ∧
      ∃ set', left.db.lookup key = some ⟨.set, set'⟩ ∧
        ∀ m, set'.has m = true ↔ set.has m = true ∧ m ∉ members)

/-- The end of SPOP: a set that is left without members is dropped. -/
def Store.leaveSet (s : Store F) (key : Bytes) (set : RedisSet) : Store F :=
  if set.len = 0 then ((s.update key ⟨.set, set⟩).delete key).2.removeTTL key
  else s.update key ⟨.set, set⟩

theorem outcome_leaveSet (key : Bytes) (reply : Reply) (w : World F) :
    outcome env (update .set key set >>= fun _ => dropIf (set.len = 0) key >>= fun _ =>
      (pure reply : Cmd F randomWrites Reply)) w = (.ok reply, w.store.leaveSet key set) := by
  rw [outcome_update, Store.leaveSet]
  by_cases hlen : set.len = 0
  · rw [if_pos hlen, decide_eq_true hlen]
    rfl
  · rw [if_neg hlen, decide_eq_false hlen]
    rfl

/-- What SPOP can come to. -/
inductive SPopEnd (env : Env) (draws : Nat) (s : Store F) (key : Bytes) (set : RedisSet) :
    Int → Except Abort Reply × Store F → Prop
  | zero : SPopEnd env draws s key set 0 (.ok emptyArrayReply, s)
  | none (hnone : set.table.keys = []) :
      SPopEnd env draws s key set 1 (.ok (bulkReply (some [])), s.leaveSet key set)
  | one {member : Bytes} (hdrawn : drawn env draws 1 set = [member]) :
      SPopEnd env draws s key set 1
        (.ok (bulkReply (some member)), s.leaveSet key (set.without [member]))
  | many {count : Int} (hcount : 1 < count) (hno : [] ∉ drawn env draws count.toNat set) :
      SPopEnd env draws s key set count
        (.ok (bulksReply ((drawn env draws count.toNat set).map some)),
          s.leaveSet key (set.without (drawn env draws count.toNat set)))
  | short {count : Int} {l : List Bytes} {set' : RedisSet} (hcount : 1 < count)
      (hyes : [] ∈ drawn env draws count.toNat set)
      (hlt : l.length < (drawn env draws count.toNat set).length) :
      SPopEnd env draws s key set count (.ok (bulksReply (l.map some)), s.leaveSet key set')

section Command

variable [UnicodeTables] {name key : Option Bytes} {cmd : Command} {count : Int}

/-- The calls share their front: the count, the check of the key, the lock and the
    set. -/
theorem sPopSet_front (hname : toLower (str name) = ascii "spop")
    (hcall : SPopCall name key cmd count) (hdue : ¬ w.store.Due (str key) (env.clock w.tick))
    (hget : w.store.get .set (str key) = .found set) {P : Except Abort Reply × Store F → Prop}
    (h : P (outcome env (if count = 0 then (pure emptyArrayReply : Cmd F randomWrites Reply)
      else if count = 1 then set.pop >>= fun r => update .set (str key) r.1 >>= fun _ =>
        dropIf (r.1.len = 0) (str key) >>= fun _ => pure (bulkReply (some r.2))
      else sPopLoop count.toNat set [] >>= fun r => update .set (str key) r.1 >>= fun _ =>
        dropIf (r.1.len = 0) (str key) >>= fun _ => pure (bulksReply (r.2.map some)))
      ⟨w.store, w.tick + 3, w.draws⟩)) :
    P (outcome env (sPopSet cmd : Cmd F _ _) w) := by
  have hlook : (⟨w.store, w.tick + 2, w.draws⟩ : World F).store.get .set (str key) =
    .found set := hget
  cases hcall with
  | one =>
    rw [sPopSet, named_cons hname, if_neg (by simp), atoiAt, if_neg (by simp), pure_eq, ret_bind]
    dsimp only
    rw [if_neg (by decide), strAt_bind rfl, outcome_checkTTL hdue, if_neg (by simp), withLock,
      outcome_withLocks, outcome_get, hlook]
    exact h
  | many hcount hnonneg =>
    rw [sPopSet, named_cons hname, if_neg (by simp), atoiAt, if_pos (by simp), strAt_bind rfl,
      hcount, pure_eq, ret_bind]
    dsimp only
    rw [if_neg (not_lt.mpr hnonneg), strAt_bind rfl, outcome_checkTTL hdue, if_neg (by simp),
      withLock, outcome_withLocks, outcome_get, hlook]
    exact h

theorem sPopSet_end (hname : toLower (str name) = ascii "spop")
    (hcall : SPopCall name key cmd count) (hdue : ¬ w.store.Due (str key) (env.clock w.tick))
    (hget : w.store.get .set (str key) = .found set) :
    SPopEnd env w.draws w.store (str key) set count (outcome env (sPopSet cmd : Cmd F _ _) w) := by
  have hnonneg : 0 ≤ count := by
    cases hcall with
    | one => decide
    | many _ hnonneg => exact hnonneg
  refine sPopSet_front hname hcall hdue hget ?_
  by_cases hzero : count = 0
  · subst hzero
    exact .zero
  rw [if_neg hzero]
  by_cases hone : count = 1
  · subst hone
    rw [if_pos rfl]
    cases horder : env.order w.draws set.table.keys with
    | nil =>
      rw [outcome_bind (run_pop_nil (w := ⟨w.store, w.tick + 3, w.draws⟩) horder),
        outcome_leaveSet]
      exact .none (keys_eq_nil_of_order horder)
    | cons member rest =>
      rw [outcome_bind (run_pop_cons (w := ⟨w.store, w.tick + 3, w.draws⟩) horder),
        outcome_leaveSet]
      exact .one (drawn_cons horder)
  rw [if_neg hone]
  obtain ⟨set', l, w', hrun, hstore, hcase⟩ := run_sPopLoop env count.toNat set []
    ⟨w.store, w.tick + 3, w.draws⟩
  rw [outcome_bind hrun, outcome_leaveSet, hstore]
  rcases hcase with ⟨hno, rfl, rfl⟩ | ⟨hyes, hlt⟩
  · exact .many (by omega) hno
  · exact .short (by omega) hyes hlt

end Command

/-! ## Conservation -/

/-- What SPOP needs to report all that it takes: a member, when it is asked for one
    or none, and a loop that does not meet the empty string. -/
def Reports (env : Env) (draws : Nat) (set : RedisSet) (count : Int) : Prop :=
  (count ≤ 1 → set.table.keys ≠ []) ∧ (1 < count → [] ∉ drawn env draws count.toNat set)

theorem mem_without (hsized : set.Sized) (members : List Bytes) (m : Bytes) :
    (set.without members).has m = true ↔ set.has m = true ∧ m ∉ members :=
  (RedisSet.foldl_remove members hsized).2 m

/-- The set is dropped just if no member is left. -/
theorem leaveSet_without (hdb : s.db.lookup key = some ⟨.set, set⟩) (hsized : set.Sized)
    (members : List Bytes) :
    ((∀ m, set.has m = true → m ∈ members) →
      (s.leaveSet key (set.without members)).db.lookup key = none ∧
        (s.leaveSet key (set.without members)).ttl.lookup key = none) ∧
    ((∃ m, set.has m = true ∧ m ∉ members) →
      (s.leaveSet key (set.without members)).ttl.lookup key = s.ttl.lookup key ∧
      ∃ set', (s.leaveSet key (set.without members)).db.lookup key = some ⟨.set, set'⟩ ∧
        ∀ m, set'.has m = true ↔ set.has m = true ∧ m ∉ members) := by
  obtain ⟨hleft, hhas⟩ := RedisSet.foldl_remove members hsized
  change (set.without members).Sized at hleft
  have hzero : (set.without members).len = 0 ↔ ∀ m, set.has m = true → m ∈ members := by
    rw [RedisSet.len, hleft, Int.natCast_eq_zero, List.length_eq_zero_iff,
      List.eq_nil_iff_forall_not_mem]
    refine forall_congr' fun m => ?_
    rw [← RedisSet.has_iff, mem_without hsized, not_and_not_right]
  refine ⟨fun hall => ?_, ?_⟩
  · rw [Store.leaveSet, if_pos (hzero.mpr hall)]
    simp
  · rintro ⟨m, hm, hout⟩
    rw [Store.leaveSet, if_neg fun hlen => hout (hzero.mp hlen m hm)]
    exact ⟨by rw [Store.update_ttl], set.without members, by simp [hdb], mem_without hsized members⟩

/-- The members that are drawn are lost and reported. -/
theorem losesNothing_drawn (hdb : s.db.lookup key = some ⟨.set, set⟩) (hsized : set.Sized)
    {draws : Nat} {count : Int} (hnonneg : 0 ≤ count) {reply : Except Abort Reply}
    (hshown : shown reply = some (drawn env draws count.toNat set)) :
    LosesNothing set (s.ttl.lookup key) count key reply
      (s.leaveSet key (set.without (drawn env draws count.toNat set))) := by
  obtain ⟨hnodup, hin, hlen⟩ := drawn_spec env count.toNat draws hsized
  obtain ⟨hall, hsome⟩ := leaveSet_without hdb hsized (drawn env draws count.toNat set)
  exact ⟨_, hshown, hnodup, hin, by rw [hlen]; omega, hall, hsome⟩

theorem SPopEnd.losesNothing_iff {count : Int} {x : Except Abort Reply × Store F}
    (h : SPopEnd env draws s key set count x) (hdb : s.db.lookup key = some ⟨.set, set⟩)
    (hsized : set.Sized) :
    LosesNothing set (s.ttl.lookup key) count key x.1 x.2 ↔ Reports env draws set count := by
  cases h with
  | zero =>
    refine ⟨?_, fun hreports => ?_⟩
    · rintro ⟨members, hshown, -, -, -, hall, -⟩
      obtain rfl : [] = members := Option.some.inj hshown
      refine ⟨fun _ hnil => ?_, fun hlt => absurd hlt (by decide)⟩
      have hgone := hall fun m hm => by
        rw [RedisSet.has_iff, hnil] at hm
        exact absurd hm List.not_mem_nil
      cases hdb.symm.trans hgone.1
    · obtain ⟨member, hmember⟩ := List.exists_mem_of_ne_nil _ (hreports.1 (by decide))
      refine ⟨[], rfl, List.nodup_nil, fun m hm => absurd hm List.not_mem_nil, ?_, fun hall => ?_,
        fun _ => ⟨rfl, set, hdb, fun m => by simp⟩⟩
      · rw [List.length_nil]
        omega
      · exact absurd (hall member (RedisSet.has_iff.mpr hmember)) List.not_mem_nil
  | none hnone =>
    refine iff_of_false ?_ fun hreports => hreports.1 (le_refl 1) hnone
    rintro ⟨members, hshown, -, hin, -⟩
    obtain rfl : [[]] = members := Option.some.inj hshown
    have hmem := RedisSet.has_iff.mp (hin [] List.mem_cons_self)
    rw [hnone] at hmem
    exact List.not_mem_nil hmem
  | one hdrawn =>
    have hone : drawn env draws (1 : Int).toNat set = [_] := hdrawn
    have hlen := (drawn_spec env 1 draws hsized).2.2
    rw [hdrawn] at hlen
    refine iff_of_true (hone ▸ losesNothing_drawn hdb hsized (by decide) (hone ▸ rfl))
      ⟨fun _ hnil => ?_, fun hlt => absurd hlt (by decide)⟩
    rw [hnil] at hlen
    cases hlen
  | many hcount hno =>
    exact iff_of_true (losesNothing_drawn hdb hsized (by omega) (shown_bulksReply _))
      ⟨fun hle => absurd hle (by omega), fun _ => hno⟩
  | short hcount hyes hlt =>
    refine iff_of_false ?_ fun hreports => hreports.2 hcount hyes
    rintro ⟨members, hshown, -, -, hlen, -⟩
    obtain rfl := Option.some.inj ((shown_bulksReply _).symm.trans hshown)
    have hall := (drawn_spec env count.toNat draws hsized).2.2
    omega

/-- **When SPOP loses nothing**: for every stored set and every count that is not
    negative, under the order in which the iterations meet the members, the members
    in the reply are those that the set has lost, as many as asked for or all, just
    if the set has a member when at most one is asked for, and the empty string is
    not met when more are. -/
theorem spop_loses_nothing_iff [UnicodeTables] [FloatText F] (host : Host) (env : Env) (w : World F)
    (name key : Option Bytes) (cmd : Command) (count : Int) (set : RedisSet) (d : Option Int)
    (hname : toLower (str name) = ascii "spop") (hcall : SPopCall name key cmd count)
    (hlive : w.store.live (env.clock w.tick) (str key) = some (⟨.set, set⟩, d))
    (hsized : set.Sized) :
    LosesNothing set d count (str key) (execCommand host env cmd w).1
        (execCommand host env cmd w).2.store ↔ Reports env w.draws set count := by
  obtain ⟨hdue, hdb, rfl⟩ := Store.live_eq_some.mp hlive
  have hmem : Registered F host "spop" sPopSet := by simp [Registered, cmdTable]
  have hne : cmd ≠ [] := by
    cases hcall <;> exact List.cons_ne_nil _ _
  have hcmd : toLower (cmdName cmd) = ascii "spop" := by
    cases hcall <;> exact hname
  rw [exec_reply hmem hne hcmd, exec_store hmem hne hcmd]
  exact (sPopSet_end hname hcall hdue (Store.get_eq_found.mpr hdb)).losesNothing_iff hdb hsized

/-- Two members of three. -/
theorem spop_loses_nothing_two :
    letI := asciiTables
    let w := stateAfter (words ["SADD", "s", "a", "b", "c"])
    LosesNothing (((newSet.add (ascii "a")).1.add (ascii "b")).1.add (ascii "c")).1 none 2
      (ascii "s")
      (execStill (words ["SPOP", "s", "2"]) w).1
      (execStill (words ["SPOP", "s", "2"])
        w).2.store := by
  intro w
  refine (@spop_loses_nothing_iff IntScore asciiTables _ quietHost stillEnv w (some (ascii "SPOP"))
    (some (ascii "s")) _ 2 _ none (by decide) (.many rfl (by decide)) rfl
    (((RedisSet.sized_newSet.add _).add _).add _)).mpr
      ⟨fun hle => absurd hle (by decide), fun _ => ?_⟩
  decide

/-- A set with the empty string: SPOP of two members takes the empty string and
    reports no member. -/
theorem spop_loses_empty_string :
    letI := asciiTables
    let w := stateAfter [some (ascii "SADD"), some (ascii "s"), some (ascii "a"), some []]
    let w' := (execStill (words ["SPOP", "s", "2"]) w)
    (execStill (words ["SCARD", "s"]) w).1 =
        .ok (intReply 2) ∧
      w'.1 = .ok (bulksReply []) ∧
      (execStill (words ["SMEMBERS", "s"]) w'.2).1 =
        .ok (bulksReply (words ["a"])) :=
  ⟨rfl, rfl, rfl⟩

end TinyDb
