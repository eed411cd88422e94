import TinyRedis.SetReadsProofs
import TinyRedis.ChoicesProofs
import TinyRedis.CommandRunsProofs
import TinyRedis.SectionsProofs

/-! # SUNIONSTORE, SINTERSTORE and SDIFFSTORE

    Each of these commands is written apart from the plain command whose result
    it is to store.  The plain command replies with the members of a set `R`; the
    store variant, on the same state, should reply with their number and leave
    `R` at the destination.

    It does so whenever `R` has a member.  An empty result is not stored, so that
    a destination that was there stays; SUNIONSTORE replies with an array when it
    finds no set; and SDIFFSTORE leaves out an expired first key and subtracts
    from the next one. -/

namespace TinyDb

open GoString GoFloat GoProgram GoProgram.Prog TinyResp

variable {F : Type}

/-! ## The ticks of a run -/

/-- The clock of `env` from one tick to another, and `now` before and after. -/
def Env.during (env : Env) (first last : Nat) (now : Int) : Env :=
  { env with clock := fun t => if first ≤ t ∧ t < last then env.clock t else now }

theorem agree_during (env : Env) (first last : Nat) (now : Int) {c : Caps} :
    AgreeBetween World.tick first last (Op.step env : (o : Op F c) → _)
      (Op.step (env.during first last now)) where
  older _ w := Nat.lt_succ_self w.tick
  same o w hfirst hlast := by
    have hclock : (env.during first last now).clock w.tick = env.clock w.tick :=
      if_pos ⟨hfirst, hlast⟩
    have happly : ∀ n, o.apply (env.during first last now) n w.draws w.store =
        o.apply env n w.draws w.store := by
      cases o <;> exact fun _ => rfl
    rw [Op.step, Op.step, hclock, happly]

/-- A run sees the clock at its own ticks only. -/
theorem execCommand_during [UnicodeTables] [FloatText F] (host : Host) (env : Env) (cmd : Command)
    {w : World F} {first last : Nat} (now : Int) (hfirst : first ≤ w.tick)
    (hlast : (execCommand host env cmd w).2.tick ≤ last) :
    execCommand host (env.during first last now) cmd w = execCommand host env cmd w := by
  rw [execCommand_eq_run] at hlast
  rw [execCommand_eq_run, execCommand_eq_run]
  exact ((agree_during env first last now).run_during _ w).2 hfirst hlast

/-! ## Keys while no deadline passes -/

namespace Store

variable {s : Store F} {env : Env} {now : Int} {keys : List Bytes} {checks : List (Bytes × Int)}
  {k : Bytes}

/-- No deadline of these keys passes: at every clock reading they are due, or
    not, as they are at `now`. -/
def Steady (s : Store F) (env : Env) (now : Int) (keys : List Bytes) : Prop :=
  ∀ k ∈ keys, ∀ t, s.Due k (env.clock t) ↔ s.Due k now

/-- No deadline of these keys passes from one tick to another. -/
def SteadyBetween (s : Store F) (env : Env) (first last : Nat) (now : Int) (keys : List Bytes) :
    Prop :=
  ∀ k ∈ keys, ∀ t, first ≤ t → t < last → (s.Due k (env.clock t) ↔ s.Due k now)

theorem SteadyBetween.steady {first last : Nat} (h : s.SteadyBetween env first last now keys) :
    s.Steady (env.during first last now) now keys := by
  intro k hk t
  by_cases ht : first ≤ t ∧ t < last
  · have hclock : (env.during first last now).clock t = env.clock t := if_pos ht
    rw [hclock]
    exact h k hk t ht.1 ht.2
  · have hclock : (env.during first last now).clock t = now := if_neg ht
    rw [hclock]

/-- A live key holds a set. -/
def LiveSet (s : Store F) (now : Int) (k : Bytes) (set : RedisSet) : Prop :=
  ∃ deadline, s.live now k = some (⟨.set, set⟩, deadline)

theorem liveSet_iff {set : RedisSet} :
    s.LiveSet now k set ↔ ¬ s.Due k now ∧ s.get .set k = .found set := by
  have hfound : s.get .set k = .found set ↔ s.db.lookup k = some ⟨.set, set⟩ := get_eq_found
  rw [hfound]
  by_cases hdue : s.Due k now
  · simp [LiveSet, live_of_due hdue, hdue]
  · simp [LiveSet, live_of_not_due hdue, hdue]

/-- The checks were made on the clock of `env`. -/
def OnClock (env : Env) (checks : List (Bytes × Int)) : Prop :=
  ∀ check ∈ checks, ∃ t, check.2 = env.clock t

/-- A steady key is taken out by its check exactly when it is due. -/
theorem Steady.popped_iff (h : s.Steady env now keys) (hclock : OnClock env checks) (hk : k ∈ keys)
    (hmem : k ∈ checks.map Prod.fst) : s.Popped checks k ↔ s.Due k now := by
  constructor
  · rintro ⟨n, hn, hdue⟩
    obtain ⟨t, rfl⟩ := hclock _ hn
    exact (h k hk t).mp hdue
  · intro hdue
    obtain ⟨⟨k', n⟩, hn, rfl⟩ := List.mem_map.mp hmem
    obtain ⟨t, rfl⟩ := hclock _ hn
    exact ⟨_, hn, (h k' hk t).mpr hdue⟩

theorem Steady.setAt_iff (h : s.Steady env now keys) (hclock : OnClock env checks) (hk : k ∈ keys)
    (hmem : k ∈ checks.map Prod.fst) {set : RedisSet} :
    s.SetAt checks k set ↔ s.LiveSet now k set := by
  rw [liveSet_iff, SetAt, h.popped_iff hclock hk hmem]

/-- The keys that a command on `keys` reports as alive, after it has checked
    `seen`: those that are not due, or were checked before. -/
def reported (s : Store F) (now : Int) : List Bytes → List Bytes → List Bytes
  | _, [] => []
  | seen, key :: rest =>
    if s.Due key now ∧ key ∉ seen then reported s now (key :: seen) rest
    else key :: reported s now (key :: seen) rest

theorem mem_of_mem_reported {seen : List Bytes} (h : k ∈ s.reported now seen keys) : k ∈ keys := by
  induction keys generalizing seen with
  | nil => exact h
  | cons key rest ih =>
    rw [reported] at h
    split at h
    · exact List.mem_cons_of_mem _ (ih h)
    · rcases List.mem_cons.mp h with rfl | h
      · exact List.mem_cons_self
      · exact List.mem_cons_of_mem _ (ih h)

theorem mem_reported {seen : List Bytes} (hk : k ∈ keys) (hdue : ¬ s.Due k now) :
    k ∈ s.reported now seen keys := by
  induction keys generalizing seen with
  | nil => exact hk
  | cons key rest ih =>
    rw [reported]
    rcases List.mem_cons.mp hk with rfl | hk
    · rw [if_neg fun h => hdue h.1]
      exact List.mem_cons_self
    · split
      · exact ih hk
      · exact List.mem_cons_of_mem _ (ih hk)

/-- What the checks report, when a key is due exactly until it is checked. -/
theorem kept_eq_reported {t : Store F} {seen : List Bytes}
    (h : ∀ k n, (k, n) ∈ checks → (t.Due k n ↔ s.Due k now ∧ k ∉ seen)) :
    t.kept checks = s.reported now seen (checks.map Prod.fst) := by
  induction checks generalizing t seen with
  | nil => rfl
  | cons check rest ih =>
    obtain ⟨key, n⟩ := check
    have hkey := h key n List.mem_cons_self
    have ih : (t.checkTTL key n).2.kept rest =
        s.reported now (key :: seen) (rest.map Prod.fst) := by
      refine ih fun k n' hmem => ?_
      rw [due_checkTTL, h k n' (List.mem_cons_of_mem _ hmem), hkey, List.mem_cons]
      by_cases hk : k = key
      · subst hk
        tauto
      · tauto
    rw [kept, checkTTL_fst, ih, List.map_cons, reported]
    by_cases hdue : t.Due key n
    · rw [if_pos (hkey.mp hdue), if_neg (by simpa using hdue)]
    · rw [if_neg (mt hkey.mpr hdue), if_pos (by simpa using hdue)]

/-- What checks of steady keys, none of which holds anything but a set, make of a
    store: its live data are the same, and no key that was checked is due. -/
structure Checked (s checked : Store F) (now : Int) (keys : List Bytes) : Prop where
  live : ∀ k, checked.live now k = s.live now k
  notDue : ∀ k ∈ keys, ∀ n, (s.Due k n → s.Due k now) → ¬ checked.Due k n
  named : ∀ k ∈ keys, checked.get .set k ≠ .wrongType
  found : ∀ k ∈ keys, ∀ set, checked.get .set k = .found set ↔ s.LiveSet now k set

theorem Steady.checked (h : s.Steady env now (checks.map Prod.fst)) (hclock : OnClock env checks)
    (hsets : ∀ k ∈ checks.map Prod.fst, s.Due k now ∨ s.get .set k ≠ .wrongType) :
    Checked s (s.checkAll checks) now (checks.map Prod.fst) where
  live k := by
    rcases s.checkAll_lookup checks k with ⟨hpop, hdb, httl⟩ | ⟨-, hdb, httl⟩
    · obtain ⟨n, hmem, -⟩ := id hpop
      have hin : k ∈ checks.map Prod.fst := List.mem_map_of_mem hmem
      rw [live_of_due ((h.popped_iff hclock hin hin).mp hpop)]
      simp [Store.live, hdb, httl]
    · exact live_congr hdb httl
  notDue k hk n hn := by
    rcases s.checkAll_lookup checks k with ⟨-, -, httl⟩ | ⟨hpop, -, httl⟩
    · rintro ⟨d, hd, -⟩
      cases httl.symm.trans hd
    · rw [h.popped_iff hclock hk hk] at hpop
      rw [Due, httl]
      exact mt hn hpop
  named k hk := by
    refine NamesSet.get_checkAll ?_
    rw [NamesSet, h.popped_iff hclock hk hk]
    exact hsets k hk
  found k hk set := get_checkAll_eq_found.trans (h.setAt_iff hclock hk hk)

end Store

theorem onClock_checksFrom (env : Env) (t : Nat) (args : List (Option Bytes)) :
    Store.OnClock env (checksFrom env t args) := by
  induction args generalizing t with
  | nil => exact fun _ h => absurd h List.not_mem_nil
  | cons arg rest ih => exact List.forall_mem_cons.mpr ⟨⟨t, rfl⟩, ih (t + 1)⟩

/-! ## The three operations -/

/-- The set operations that come in a plain and in a store variant. -/
inductive SetOp where
  | union
  | inter
  | diff
deriving DecidableEq

namespace SetOp

/-- The name of the plain command. -/
def plain : SetOp → String
  | union => "sunion"
  | inter => "sinter"
  | diff => "sdiff"

/-- The name of the store variant. -/
def stored : SetOp → String
  | union => "sunionstore"
  | inter => "sinterstore"
  | diff => "sdiffstore"

/-- The strings in the result, when the sets at the keys are those `At` says: a
    key without a set counts as empty, except for the intersection, where it does
    not count. -/
def Result (At : Bytes → RedisSet → Prop) (x : Bytes) : SetOp → List Bytes → Prop
  | union, keys => ∃ k ∈ keys, ∃ set, At k set ∧ set.has x = true
  | inter, keys => ∀ k ∈ keys, ∀ set, At k set → set.has x = true
  | diff, [] => False
  | diff, first :: rest => (∃ set, At first set ∧ set.has x = true) ∧
      ∀ k ∈ rest, ¬ ∃ set, At k set ∧ set.has x = true

theorem result_congr {At At' : Bytes → RedisSet → Prop} {keys : List Bytes}
    (h : ∀ k ∈ keys, ∀ set, At k set ↔ At' k set) (op : SetOp) (x : Bytes) :
    op.Result At x keys ↔ op.Result At' x keys := by
  cases op with
  | union => exact exists_congr fun k => and_congr_right fun hk => by simp only [h k hk]
  | inter => exact forall₂_congr fun k hk => by simp only [h k hk]
  | diff =>
    cases keys with
    | nil => exact Iff.rfl
    | cons first rest =>
      obtain ⟨hfirst, hrest⟩ := List.forall_mem_cons.mp h
      refine and_congr (by simp only [hfirst]) (forall₂_congr fun k hk => ?_)
      simp only [hrest k hk]

/-- Only the union and the intersection of the reported keys are sure to be those
    of all keys. -/
theorem result_reported {s : Store F} {now : Int} {seen keys : List Bytes} {op : SetOp}
    (hop : op ≠ diff) (x : Bytes) :
    op.Result (s.LiveSet now) x (s.reported now seen keys) ↔
      op.Result (s.LiveSet now) x keys := by
  have hkeys : ∀ k, (∃ set, s.LiveSet now k set) →
      (k ∈ s.reported now seen keys ↔ k ∈ keys) := by
    rintro k ⟨set, hset⟩
    exact ⟨Store.mem_of_mem_reported, fun hk => Store.mem_reported hk (Store.liveSet_iff.mp hset).1⟩
  cases op with
  | diff => exact absurd rfl hop
  | union =>
    refine exists_congr fun k => ⟨fun h => ?_, fun h => ?_⟩
    · obtain ⟨hk, set, hset, hx⟩ := h
      exact ⟨(hkeys k ⟨set, hset⟩).mp hk, set, hset, hx⟩
    · obtain ⟨hk, set, hset, hx⟩ := h
      exact ⟨(hkeys k ⟨set, hset⟩).mpr hk, set, hset, hx⟩
  | inter =>
    refine forall_congr' fun k => ⟨fun h hk set hset => ?_, fun h hk set hset => ?_⟩
    · exact h ((hkeys k ⟨set, hset⟩).mpr hk) set hset
    · exact h ((hkeys k ⟨set, hset⟩).mp hk) set hset

/-- The difference of the reported keys is that of all keys when the first is
    live or was checked before; otherwise that of all keys is empty. -/
theorem diff_result_reported {s : Store F} {now : Int} {seen keys : List Bytes} :
    (∀ x, diff.Result (s.LiveSet now) x (s.reported now seen keys) ↔
        diff.Result (s.LiveSet now) x keys) ∨
      ∀ x, ¬ diff.Result (s.LiveSet now) x keys := by
  cases keys with
  | nil => exact Or.inl fun x => Iff.rfl
  | cons first rest =>
    by_cases hfirst : s.Due first now ∧ first ∉ seen
    · refine Or.inr ?_
      rintro x ⟨⟨set, hset, -⟩, -⟩
      exact (Store.liveSet_iff.mp hset).1 hfirst.1
    · refine Or.inl fun x => ?_
      rw [Store.reported, if_neg hfirst]
      refine and_congr_right fun _ => forall_congr' fun k => ?_
      by_cases hk : ∃ set, s.LiveSet now k set ∧ set.has x = true
      · obtain ⟨set, hset, hx⟩ := hk
        have hdue := (Store.liveSet_iff.mp hset).1
        exact imp_congr_left
          ⟨Store.mem_of_mem_reported, fun hk => Store.mem_reported hk hdue⟩
      · exact iff_of_true (fun _ => hk) fun _ => hk

end SetOp

/-! ## The read phase of the store variants -/

theorem getSets_uses {c : Caps} {P : Op F c → Prop} (h : ∀ kind k hk, P (.get kind k hk))
    (keys : List Bytes) : (getSets keys : Cmd F c _).Uses P := by
  induction keys with
  | nil => trivial
  | cons key rest ih =>
    refine ⟨h _ _ _, fun r => ?_⟩
    cases r with
    | absent => exact ih
    | wrongType => trivial
    | found set => exact ih.bind fun _ => trivial

theorem intersectAll_uses {c : Caps} {P : Op F c → Prop} (sets : List RedisSet) :
    (intersectAll sets : Cmd F c _).Uses P := by
  unfold intersectAll
  dsimp only
  cases sets[shortestLoop sets 0 0 (2 ^ 63 - 1)]? <;> trivial

namespace SetOp

/-- How the store variant computes its result. -/
def compute : SetOp → List Bytes → Cmd F writes (Except Reply RedisSet)
  | union => unionOf
  | inter => interOf
  | diff => diffOf

/-- How it stores it. -/
def store : SetOp → Bytes → RedisSet → Cmd F writes Reply
  | union => fun desKey res => do
    withLock desKey (pure ())
    storeSet desKey res
  | inter => fun desKey res => withLock desKey (storeSet desKey res)
  | diff => fun desKey res => withLock desKey (storeSet desKey res)

theorem compute_uses {P : Op F writes → Prop} (hget : ∀ kind k hk, P (.get kind k hk))
    (hlock : ∀ keys, P (.rLock keys)) (hunlock : ∀ keys, P (.rUnLock keys)) (op : SetOp)
    (keys : List Bytes) : (op.compute keys).Uses P := by
  cases op with
  | union =>
    refine ⟨hlock _, fun _ => (getSets_uses hget keys).bind fun sets => ⟨hunlock _, fun _ => ?_⟩⟩
    rcases sets with _ | _ | _ <;> trivial
  | inter =>
    refine ⟨hlock _, fun _ => (getSets_uses hget keys).bind fun sets => ?_⟩
    cases sets with
    | none => exact ⟨hunlock _, fun _ => trivial⟩
    | some sets => exact (intersectAll_uses sets).bind fun _ => ⟨hunlock _, fun _ => trivial⟩
  | diff =>
    cases keys with
    | nil => trivial
    | cons key rest =>
      refine ⟨hlock _, fun _ => ⟨hget _ _ _, fun r => ?_⟩⟩
      cases r with
      | absent => exact ⟨hunlock _, fun _ => trivial⟩
      | wrongType => exact ⟨hunlock _, fun _ => trivial⟩
      | found prim =>
        refine (getSets_uses hget rest).bind fun sets => ⟨hunlock _, fun _ => ?_⟩
        cases sets <;> trivial

/-- A computation gives the set with the result's members. -/
def Gives (op : SetOp) (s : Store F) (keys : List Bytes)
    (out : Except Abort (Except Reply RedisSet)) : Prop :=
  ∃ res, out = .ok (.ok res) ∧ res.Sized ∧
    ∀ x, res.has x = true ↔ op.Result (fun k set => s.get .set k = .found set) x keys

variable {keys : List Bytes}

/-- The union: an array is replied at once when there is no set. -/
theorem run_unionOf (env : Env) (w : World F)
    (hsets : ∀ k ∈ keys, w.store.get .set k ≠ .wrongType) :
    ∃ out t, (unionOf keys).run (Op.step env) w = (out, ⟨w.store, t, w.draws⟩) ∧
      ((∃ k ∈ keys, ∃ set, w.store.get .set k = .found set) → union.Gives w.store keys out) ∧
      ((¬ ∃ k ∈ keys, ∃ set, w.store.get .set k = .found set) →
        out = .ok (.error emptyArrayReply)) := by
  obtain ⟨sets, hat, hmem⟩ := Store.setsAt_spec hsets
  obtain ⟨t, hget⟩ := run_getSets (c := writes) env keys ⟨w.store, w.tick + 1, w.draws⟩
  simp only [unionOf, rLockMulti, rUnLockMulti, op_bind, ret_bind, run_op, Op.step_rLock, run_bind,
    hget, hat]
  cases sets with
  | nil =>
    refine ⟨_, _, rfl, ?_, fun _ => rfl⟩
    rintro ⟨k, hk, set, hset⟩
    exact absurd ((hmem set).mpr ⟨k, hk, hset⟩) List.not_mem_nil
  | cons first sets =>
    refine ⟨_, _, rfl, fun _ => ?_, fun hnone => ?_⟩
    · obtain ⟨hsized, hhas⟩ := first.union_spec sets
      refine ⟨_, rfl, hsized, fun x => (hhas x).trans ?_⟩
      simp only [hmem, Result]
      constructor
      · rintro ⟨set, ⟨k, hk, hset⟩, hx⟩
        exact ⟨k, hk, set, hset, hx⟩
      · rintro ⟨k, hk, set, hset, hx⟩
        exact ⟨set, ⟨k, hk, hset⟩, hx⟩
    · obtain ⟨k, hk, hset⟩ := (hmem first).mp List.mem_cons_self
      exact absurd ⟨k, hk, first, hset⟩ hnone

/-- The intersection, when there is a set. -/
theorem run_interOf_gives (env : Env) (w : World F)
    (hsets : ∀ k ∈ keys, w.store.get .set k ≠ .wrongType)
    (hset : ∃ k ∈ keys, ∃ set, w.store.get .set k = .found set) :
    ∃ out t, (interOf keys).run (Op.step env) w = (out, ⟨w.store, t, w.draws⟩) ∧
      inter.Gives w.store keys out := by
  obtain ⟨sets, hat, hmem⟩ := Store.setsAt_spec hsets
  obtain ⟨t, hget⟩ := run_getSets (c := writes) env keys ⟨w.store, w.tick + 1, w.draws⟩
  obtain ⟨k, hk, set, hset⟩ := hset
  obtain ⟨res, hinter, hsized, hhas⟩ := intersectAll_spec (F := F) (c := writes)
    (List.ne_nil_of_mem ((hmem set).mpr ⟨k, hk, hset⟩))
  simp only [interOf, rLockMulti, rUnLockMulti, op_bind, ret_bind, run_op, Op.step_rLock, run_bind,
    hget, hat, hinter]
  refine ⟨_, _, rfl, res, rfl, hsized, fun x => (hhas x).trans ?_⟩
  simp only [hmem]
  constructor
  · intro h k hk set hset
    exact h set ⟨k, hk, hset⟩
  · rintro h set ⟨k, hk, hset⟩
    exact h k hk set hset

/-- The difference. -/
theorem run_diffOf (env : Env) (w : World F) (hne : keys ≠ [])
    (hsets : ∀ k ∈ keys, w.store.get .set k ≠ .wrongType) :
    ∃ out t, (diffOf keys).run (Op.step env) w = (out, ⟨w.store, t, w.draws⟩) ∧
      diff.Gives w.store keys out := by
  obtain ⟨key, rest, rfl⟩ := List.exists_cons_of_ne_nil hne
  obtain ⟨hkey, hrest⟩ := List.forall_mem_cons.mp hsets
  obtain ⟨sets, hat, hmem⟩ := Store.setsAt_spec hrest
  simp only [diffOf, rLockMulti, rUnLockMulti, get, op_bind, ret_bind, run_op, Op.step_rLock,
    Op.step_get]
  cases hget : w.store.get .set key with
  | wrongType => exact absurd hget hkey
  | absent =>
    refine ⟨_, _, rfl, _, rfl, RedisSet.sized_newSet, fun x => iff_of_false (by simp) ?_⟩
    rintro ⟨⟨set, hset, -⟩, -⟩
    cases hget.symm.trans hset
  | found prim =>
    obtain ⟨t, hrun⟩ := run_getSets (c := writes) env rest ⟨w.store, w.tick + 1 + 1, w.draws⟩
    obtain ⟨hsized, hhas⟩ := prim.difference_spec sets
    simp only [run_bind, hrun, hat]
    refine ⟨_, _, rfl, _, rfl, hsized, fun x => (hhas x).trans (and_congr ?_ ?_)⟩
    · simp [hget]
    · simp only [hmem, ← Bool.not_eq_true]
      constructor
      · rintro h k hk ⟨set, hset, hx⟩
        exact h set ⟨k, hk, hset⟩ hx
      · rintro h set ⟨k, hk, hset⟩ hx
        exact h k hk ⟨set, hset, hx⟩

/-- The read phase, which for the intersection needs a set to start from. -/
theorem run_compute (op : SetOp) (env : Env) (w : World F) (hne : keys ≠ [])
    (hsets : ∀ k ∈ keys, w.store.get .set k ≠ .wrongType)
    (hinter : op = inter → ∃ k ∈ keys, ∃ set, w.store.get .set k = .found set) :
    ∃ out t, (op.compute keys).run (Op.step env) w = (out, ⟨w.store, t, w.draws⟩) ∧
      ((op = diff ∨ ∃ k ∈ keys, ∃ set, w.store.get .set k = .found set) ∧
          op.Gives w.store keys out ∨
        op = union ∧ (¬ ∃ k ∈ keys, ∃ set, w.store.get .set k = .found set) ∧
          out = .ok (.error emptyArrayReply)) := by
  cases op with
  | union =>
    obtain ⟨out, t, hrun, hsome, hnone⟩ := run_unionOf env w hsets
    refine ⟨out, t, hrun, ?_⟩
    by_cases hset : ∃ k ∈ keys, ∃ set, w.store.get .set k = .found set
    · exact Or.inl ⟨Or.inr hset, hsome hset⟩
    · exact Or.inr ⟨rfl, hset, hnone hset⟩
  | inter =>
    obtain ⟨out, t, hrun, hgives⟩ := run_interOf_gives env w hsets (hinter rfl)
    exact ⟨out, t, hrun, Or.inl ⟨Or.inr (hinter rfl), hgives⟩⟩
  | diff =>
    obtain ⟨out, t, hrun, hgives⟩ := run_diffOf env w hne hsets
    exact ⟨out, t, hrun, Or.inl ⟨Or.inl rfl, hgives⟩⟩

/-- Storing a result where nothing but a set is. -/
theorem run_storeSet (env : Env) (des : Bytes) (res : RedisSet) (w : World F)
    (hdes : w.store.get .set des ≠ .wrongType) :
    ∃ t, (storeSet des res).run (Op.step env) w = (.ok (intReply res.len),
      ⟨if res.len ≠ 0 then w.store.set des ⟨.set, res⟩ else w.store, t, w.draws⟩) := by
  have hholds : (holdsSet des).run (Op.step env) w =
      (.ok true, ⟨w.store, w.tick + 1, w.draws⟩) := by
    simp only [holdsSet, get, op_bind, ret_bind, run_op, Op.step_get]
    cases hget : w.store.get .set des with
    | wrongType => exact absurd hget hdes
    | absent => rfl
    | found set => rfl
  rw [storeSet, run_bind, hholds]
  by_cases hlen : res.len ≠ 0
  · rw [if_pos hlen]
    exact ⟨w.tick + 2, by simp [hlen]⟩
  · rw [if_neg hlen]
    exact ⟨w.tick + 1, by simp [hlen]⟩

/-- The write phase: the set replaces what is at the destination, unless it is
    empty. -/
theorem run_store (op : SetOp) (env : Env) (des : Bytes) (res : RedisSet) (w : World F)
    (hdes : w.store.get .set des ≠ .wrongType) :
    ∃ t, (op.store des res).run (Op.step env) w = (.ok (intReply res.len),
      ⟨if res.len ≠ 0 then w.store.set des ⟨.set, res⟩ else w.store, t, w.draws⟩) := by
  have hlocked : ∃ t, (withLock des (storeSet des res)).run (Op.step env) w =
      (.ok (intReply res.len),
        ⟨if res.len ≠ 0 then w.store.set des ⟨.set, res⟩ else w.store, t, w.draws⟩) := by
    obtain ⟨t, hrun⟩ := run_storeSet env des res ⟨w.store, w.tick + 1, w.draws⟩ hdes
    simp only [withLock, withLocks, run_op, Op.step_lock, run_defer, hrun]
    exact ⟨_, rfl⟩
  cases op with
  | union =>
    obtain ⟨t, hrun⟩ := run_storeSet env des res ⟨w.store, w.tick + 1 + 1, w.draws⟩ hdes
    exact ⟨t, hrun⟩
  | inter => exact hlocked
  | diff => exact hlocked

end SetOp

/-! ## The plain commands -/

section Commands

variable [UnicodeTables] [FloatText F]

/-- What the plain commands reply, if they return. -/
theorem plain_lists (op : SetOp) (host : Host) (env : Env) {name : Option Bytes}
    {args : List (Option Bytes)} (w : World F) {now : Int}
    (hname : toLower (str name) = ascii op.plain) (hne : args ≠ [])
    (hsteady : w.store.Steady env now (args.map str))
    (hsets : ∀ k ∈ args.map str, w.store.Due k now ∨ w.store.get .set k ≠ .wrongType)
    {reply : Reply} (hreply : (execCommand host env (name :: args) w).1 = .ok reply) :
    (Lists reply fun x => op.Result (w.store.LiveSet now) x (args.map str)) ∧
      (op = .inter → ∃ k ∈ args.map str, ∃ set, w.store.LiveSet now k set) := by
  have hclock := onClock_checksFrom env w.tick args
  have hfst := map_fst_checksFrom env w.tick args
  have hat : ∀ k ∈ args.map str, ∀ set,
      w.store.SetAt (checksFrom env w.tick args) k set ↔ w.store.LiveSet now k set :=
    fun k hk set => hsteady.setAt_iff hclock hk (hfst ▸ hk)
  have hnames : ∀ k ∈ args.map str, w.store.NamesSet (checksFrom env w.tick args) k := by
    intro k hk
    rw [Store.NamesSet, hsteady.popped_iff hclock hk (hfst ▸ hk)]
    exact hsets k hk
  have hexec : ∀ e : Executor F, (op.plain, e) ∈ (cmdTable host : List (String × Executor F)) →
      ((e.body (name :: args)).run (Op.step env) w).1 = .ok reply := by
    intro e he
    rw [← hreply, execCommand_of_mem he (List.cons_ne_nil _ _) hname]
  cases op with
  | union =>
    obtain ⟨reply', hrun, hlists⟩ := sUnionSet_replies env hname hne w hnames
    obtain rfl : reply' = reply :=
      Except.ok.inj (hrun.symm.trans (hexec ⟨_, sUnionSet⟩ (by simp [cmdTable, SetOp.plain])))
    exact ⟨hlists.congr fun x => SetOp.result_congr hat .union x, fun h => by cases h⟩
  | inter =>
    obtain ⟨hsome, hnone⟩ := sInterSet_replies env hname hne w hnames
    have hrun := hexec ⟨_, sInterSet⟩ (by simp [cmdTable, SetOp.plain])
    by_cases hset : ∃ k ∈ args.map str, ∃ set,
        w.store.SetAt (checksFrom env w.tick args) k set
    · obtain ⟨reply', hrun', hlists⟩ := hsome hset
      obtain rfl : reply' = reply := Except.ok.inj (hrun'.symm.trans hrun)
      refine ⟨hlists.congr fun x => SetOp.result_congr hat .inter x, fun _ => ?_⟩
      obtain ⟨k, hk, set, hset⟩ := hset
      exact ⟨k, hk, set, (hat k hk set).mp hset⟩
    · cases hrun.symm.trans (hnone hset)
  | diff =>
    obtain ⟨first, rest, rfl⟩ := List.exists_cons_of_ne_nil hne
    obtain ⟨reply', hrun, hlists⟩ := sDiffSet_replies env hname w hnames
    obtain rfl : reply' = reply :=
      Except.ok.inj (hrun.symm.trans (hexec ⟨_, sDiffSet⟩ (by simp [cmdTable, SetOp.plain])))
    exact ⟨hlists.congr fun x => SetOp.result_congr hat .diff x, fun h => by cases h⟩

/-! ## The store variants -/

/-- The executor of a store variant. -/
def SetOp.executor : SetOp → Command → Cmd F writes Reply
  | union => sUnionStoreSet
  | inter => sInterStoreSet
  | diff => sDiffStoreSet

theorem SetOp.executor_mem (op : SetOp) (host : Host) :
    (op.stored, (⟨writes, op.executor⟩ : Executor F)) ∈ cmdTable host := by
  cases op <;> simp [cmdTable, stored, executor]

omit [FloatText F] in
/-- A store variant is the frame `storing` around its two phases. -/
theorem SetOp.executor_eq (op : SetOp) {name des : Option Bytes} {args : List (Option Bytes)}
    (hname : toLower (str name) = ascii op.stored) (hne : args ≠ []) :
    (op.executor (name :: des :: args) : Cmd F writes Reply) =
      storing (name :: des :: args) op.compute op.store := by
  have hlen : ¬ (name :: des :: args).length < 3 := by
    have := List.length_pos_of_ne_nil hne
    simp only [List.length_cons]
    omega
  cases op with
  | union => exact (named_cons hname).trans (if_neg hlen)
  | inter => exact (named_cons hname).trans (if_neg hlen)
  | diff => exact (named_cons hname).trans (if_neg hlen)

theorem exec_stored (op : SetOp) (host : Host) (env : Env) {name des : Option Bytes}
    {args : List (Option Bytes)} (w : World F) (hname : toLower (str name) = ascii op.stored)
    (hne : args ≠ []) :
    execCommand host env (name :: des :: args) w =
      (storing (name :: des :: args) op.compute op.store).run (Op.step env) w := by
  rw [execCommand_of_mem (op.executor_mem host) (List.cons_ne_nil _ _) hname]
  exact congrArg (fun p => p.run (Op.step env) w) (op.executor_eq hname hne)

/-- How a store variant ends, by what it finds at the keys that its checks
    report: with nothing to do, with the array, or with the result stored over
    the checked store. -/
inductive StoredEnd (op : SetOp) (s : Store F) (now : Int) (des : Bytes) (keys : List Bytes)
    (checked : Store F) : Except Abort Reply → Store F → Prop
  | nothing (h : keys = []) : StoredEnd op s now des keys checked (.ok (intReply 0)) checked
  | array (h : keys ≠ []) (hop : op = .union)
      (hnone : ¬ ∃ k ∈ keys, ∃ set, s.LiveSet now k set) :
      StoredEnd op s now des keys checked (.ok emptyArrayReply) checked
  | result (h : keys ≠ []) (hsome : op = .diff ∨ ∃ k ∈ keys, ∃ set, s.LiveSet now k set)
      (res : RedisSet) (hsized : res.Sized)
      (hres : ∀ x, res.has x = true ↔ op.Result (s.LiveSet now) x keys) :
      StoredEnd op s now des keys checked (.ok (intReply res.len))
        (if res.len ≠ 0 then checked.set des ⟨.set, res⟩ else checked)

omit [UnicodeTables] [FloatText F] in
/-- The checks of a store variant, of its destination and of its sources. -/
theorem stored_checks (env : Env) (des : Option Bytes) (args : List (Option Bytes)) (w : World F)
    {now : Int} (hsteady : w.store.Steady env now (str des :: args.map str))
    (hsets : ∀ k ∈ str des :: args.map str,
      w.store.Due k now ∨ w.store.get .set k ≠ .wrongType) :
    Store.Checked w.store
        ((w.store.checkTTL (str des) (env.clock w.tick)).2.checkAll
          (checksFrom env (w.tick + 2) args)) now (str des :: args.map str) ∧
      (w.store.checkTTL (str des) (env.clock w.tick)).2.get .set (str des) ≠ .wrongType ∧
      (w.store.checkTTL (str des) (env.clock w.tick)).2.kept (checksFrom env (w.tick + 2) args) =
        w.store.reported now [str des] (args.map str) := by
  have hfst := map_fst_checksFrom env (w.tick + 2) args
  have hclock := onClock_checksFrom env (w.tick + 2) args
  refine ⟨?_, ?_, ?_⟩
  · have hall : ((str des, env.clock w.tick) :: checksFrom env (w.tick + 2) args).map Prod.fst =
        str des :: args.map str := by rw [List.map_cons, hfst]
    rw [← hall] at hsteady hsets ⊢
    exact hsteady.checked (List.forall_mem_cons.mpr ⟨⟨_, rfl⟩, hclock⟩) hsets
  · have hdes : w.store.NamesSet [(str des, env.clock w.tick)] (str des) :=
      (hsets _ List.mem_cons_self).imp_left fun hdue =>
        ⟨_, List.mem_singleton_self _, (hsteady _ List.mem_cons_self _).mpr hdue⟩
    exact hdes.get_checkAll
  · rw [← hfst]
    refine Store.kept_eq_reported fun k n hmem => ?_
    obtain ⟨t, rfl⟩ := hclock _ hmem
    have hk : k ∈ str des :: args.map str :=
      List.mem_cons_of_mem _ (hfst ▸ List.mem_map_of_mem hmem)
    rw [Store.due_checkTTL, hsteady k hk, hsteady _ List.mem_cons_self, List.mem_singleton]
    by_cases hkd : k = str des
    · subst hkd
      tauto
    · tauto

/-- The run of a store variant. -/
theorem stored_run (op : SetOp) (host : Host) (env : Env) {name des : Option Bytes}
    {args : List (Option Bytes)} (w : World F) {now : Int}
    (hname : toLower (str name) = ascii op.stored) (hne : args ≠ [])
    (hsteady : w.store.Steady env now (str des :: args.map str))
    (hsets : ∀ k ∈ str des :: args.map str, w.store.Due k now ∨ w.store.get .set k ≠ .wrongType)
    (hinter : op = .inter → ∃ k ∈ args.map str, ∃ set, w.store.LiveSet now k set) :
    ∃ checked : Store F, (∀ k, checked.live now k = w.store.live now k) ∧
      ¬ checked.Due (str des) now ∧
      StoredEnd op w.store now (str des) (w.store.reported now [str des] (args.map str)) checked
        (execCommand host env (name :: des :: args) w).1
        (execCommand host env (name :: des :: args) w).2.store := by
  obtain ⟨hchecked, hdes, hkept⟩ := stored_checks env des args w hsteady hsets
  rw [exec_stored op host env w hname hne, run_storing]
  dsimp only
  split
  · exact absurd ‹_› hdes
  rw [hkept]
  generalize (w.store.checkTTL (str des) (env.clock w.tick)).2.checkAll
    (checksFrom env (w.tick + 2) args) = checked at hchecked ⊢
  generalize hkeys : w.store.reported now [str des] (args.map str) = keys
  refine ⟨checked, hchecked.live, hchecked.notDue _ List.mem_cons_self _ id, ?_⟩
  by_cases hnil : keys = []
  · rw [if_pos hnil]
    exact .nothing hnil
  rw [if_neg hnil]
  have hin : ∀ k ∈ keys, k ∈ str des :: args.map str :=
    fun k hk => List.mem_cons_of_mem _ (Store.mem_of_mem_reported (hkeys ▸ hk))
  have hsome : (∃ k ∈ keys, ∃ set, checked.get .set k = .found set) ↔
      ∃ k ∈ keys, ∃ set, w.store.LiveSet now k set :=
    exists_congr fun k => and_congr_right fun hk =>
      exists_congr fun set => hchecked.found k (hin k hk) set
  obtain ⟨out, t, hout, hend⟩ := op.run_compute env
    ⟨checked, w.tick + 2 + args.length, w.draws⟩ hnil
    (fun k hk => hchecked.named k (hin k hk)) fun hop => hsome.mpr (by
      obtain ⟨k, hk, set, hset⟩ := hinter hop
      exact ⟨k, hkeys ▸ Store.mem_reported hk (Store.liveSet_iff.mp hset).1, set, hset⟩)
  rw [hout]
  rcases hend with ⟨hfinds, res, rfl, hsized, hhas⟩ | ⟨hop, hnone, rfl⟩
  · -- the second check of the destination finds it not due
    have hcheck := Store.checked_of_not_due (hchecked.notDue _ List.mem_cons_self _
      (hsteady _ List.mem_cons_self t).mp)
    rw [Store.checked] at hcheck
    obtain ⟨t', hstore⟩ := op.run_store env (str des) res ⟨checked, t + 1, w.draws⟩
      (hchecked.named _ List.mem_cons_self)
    dsimp only
    rw [hcheck, hstore]
    refine .result hnil (hfinds.imp_right hsome.mp) res hsized fun x => (hhas x).trans ?_
    exact SetOp.result_congr (fun k hk set => hchecked.found k (hin k hk) set) op x
  · exact .array hnil hop (mt hsome.mpr hnone)

end Commands

/-! ## Agreement -/

/-- The set with the members `R` has been stored: the reply is their number, the
    destination holds exactly them, or is absent when there are none, and every
    other live key is as it was. -/
structure StoresResult (s s' : Store F) (now : Int) (des : Bytes) (R : Bytes → Prop)
    (out : Except Abort Reply) : Prop where
  reply : ∃ members : List Bytes, members.Nodup ∧ (∀ x, x ∈ members ↔ R x) ∧
    out = .ok (intReply members.length)
  holds : (∃ x, R x) → ∃ set, s'.LiveSet now des set ∧ ∀ x, set.has x = true ↔ R x
  absent : (¬ ∃ x, R x) → s'.live now des = none
  others : ∀ k, k ≠ des → s'.live now k = s.live now k

/-- An empty result is replied as it should be: SUNIONSTORE finds a set or no key
    to look at; SDIFFSTORE finds no string that is left from the first key it
    looks at. -/
def SetOp.RepliesEmpty (s : Store F) (now : Int) (keys : List Bytes) : SetOp → Prop
  | union => keys = [] ∨ ∃ k ∈ keys, ∃ set, s.LiveSet now k set
  | inter => True
  | diff => ∀ x, ¬ diff.Result (s.LiveSet now) x keys

section Agreement

variable {s checked : Store F} {now : Int} {des : Bytes} {R : Bytes → Prop}

/-- Nothing is stored for an empty result, so a destination that was there stays. -/
theorem storesResult_empty_iff (hlive : ∀ k, checked.live now k = s.live now k) (hR : ∀ x, ¬ R x) :
    StoresResult s checked now des R (.ok (intReply 0)) ↔ s.live now des = none := by
  refine ⟨fun h => (hlive des).symm.trans (h.absent fun ⟨x, hx⟩ => hR x hx), fun h => ?_⟩
  exact {
    reply := ⟨[], List.nodup_nil, fun x => iff_of_false List.not_mem_nil (hR x), rfl⟩
    holds := fun ⟨x, hx⟩ => absurd hx (hR x)
    absent := fun _ => (hlive des).trans h
    others := fun k _ => hlive k }

/-- A result has been stored, and is the right one. -/
theorem storesResult_set {res : RedisSet} (hlive : ∀ k, checked.live now k = s.live now k)
    (hdue : ¬ checked.Due des now) (hsized : res.Sized) (hres : ∀ x, res.has x = true ↔ R x)
    (hne : ∃ x, R x) :
    StoresResult s (checked.set des ⟨.set, res⟩) now des R (.ok (intReply res.len)) where
  reply := by
    refine ⟨res.table.keys, res.table.keys_nodup, fun x => ?_, ?_⟩
    · rw [← RedisSet.has_iff, hres]
    · rw [RedisSet.len, hsized]
  holds _ := by
    refine ⟨res, ⟨checked.ttl.lookup des, ?_⟩, hres⟩
    rw [Store.live_of_not_due (by simpa [Store.Due] using hdue)]
    simp
  absent h := absurd hne h
  others k hk := by
    rw [← hlive k]
    exact Store.live_congr (by simp [hk]) rfl

/-- Which ends of a store variant have stored the result. -/
theorem StoredEnd.storesResult_iff {op : SetOp} {keys : List Bytes} {out : Except Abort Reply}
    {s' : Store F} (hend : StoredEnd op s now des keys checked out s')
    (hlive : ∀ k, checked.live now k = s.live now k) (hdue : ¬ checked.Due des now)
    (hfits : (∀ x, op.Result (s.LiveSet now) x keys ↔ R x) ∨ op = .diff ∧ ∀ x, ¬ R x)
    (hinter : op = .inter → ∃ k ∈ keys, ∃ set, s.LiveSet now k set) :
    StoresResult s s' now des R out ↔
      (∃ x, R x) ∨ s.live now des = none ∧ op.RepliesEmpty s now keys := by
  cases hend with
  | nothing hnil =>
    subst hnil
    have hempty : ∀ x, ¬ R x := by
      rcases hfits with hfits | ⟨-, hempty⟩
      · intro x hx
        cases op with
        | union => simpa [SetOp.Result] using (hfits x).mpr hx
        | inter => simpa using hinter rfl
        | diff => exact (hfits x).mpr hx
      · exact hempty
    have hreplies : op.RepliesEmpty s now [] := by
      cases op with
      | union => exact Or.inl rfl
      | inter => trivial
      | diff => exact fun x h => h
    rw [storesResult_empty_iff hlive hempty, or_iff_right fun ⟨x, hx⟩ => hempty x hx,
      and_iff_left hreplies]
  | array hkeys hop hnone =>
    subst hop
    have hfits := hfits.resolve_right fun h => by cases h.1
    refine iff_of_false (fun h => ?_) ?_
    · obtain ⟨members, -, -, heq⟩ := h.reply
      cases heq
    · rintro (⟨x, hx⟩ | ⟨-, hnil | hsome⟩)
      · obtain ⟨k, hk, set, hset, -⟩ := (hfits x).mpr hx
        exact hnone ⟨k, hk, set, hset⟩
      · exact hkeys hnil
      · exact hnone hsome
  | result hkeys hsome res hsized hres =>
    by_cases hempty : ∀ x, ¬ R x
    · rw [or_iff_right fun ⟨x, hx⟩ => hempty x hx]
      by_cases hlen : res.len = 0
      · have hnone : ∀ x, ¬ op.Result (s.LiveSet now) x keys := fun x h => by
          have hnot := hsized.len_eq_zero.mp hlen x
          rw [(hres x).mpr h] at hnot
          cases hnot
        have hreplies : op.RepliesEmpty s now keys := by
          cases op with
          | union => exact Or.inr (hsome.resolve_left fun h => by cases h)
          | inter => trivial
          | diff => exact hnone
        rw [if_neg (not_not.mpr hlen), hlen, storesResult_empty_iff hlive hempty,
          and_iff_left hreplies]
      · -- a set is stored though there should be none: SDIFFSTORE only
        obtain ⟨x, hx⟩ : ∃ x, res.has x = true := by
          by_contra hno
          push Not at hno
          exact hlen (hsized.len_eq_zero.mpr fun x => Bool.eq_false_iff.mpr (hno x))
        have hdiff := (hfits.resolve_left fun h => hempty x ((h x).mp ((hres x).mp hx))).1
        subst hdiff
        rw [if_pos hlen]
        refine iff_of_false (fun h => ?_) fun h => h.2 x ((hres x).mp hx)
        have hnone := h.absent fun ⟨x, hx⟩ => hempty x hx
        rw [Store.live_of_not_due (by simpa [Store.Due] using hdue)] at hnone
        simp at hnone
    · push Not at hempty
      obtain ⟨x, hx⟩ := hempty
      have hfits := hfits.resolve_right fun h => h.2 x hx
      have hresR : ∀ x, res.has x = true ↔ R x := fun x => (hres x).trans (hfits x)
      have hlen : res.len ≠ 0 := fun h => by
        have hnot := hsized.len_eq_zero.mp h x
        rw [(hresR x).mpr hx] at hnot
        cases hnot
      rw [if_pos hlen]
      exact iff_of_true (storesResult_set hlive hdue hsized hresR ⟨x, hx⟩) (Or.inl ⟨x, hx⟩)

end Agreement

section Main

variable [UnicodeTables] [FloatText F]

/-- **The store variants agree with the plain commands whenever the result has a
    member**, and for an empty result exactly when the destination is absent and
    the variant replies as it should. -/
theorem stores_agree_iff (op : SetOp) (host : Host) (env : Env) (name name' des : Option Bytes)
    (args : List (Option Bytes)) (w : World F) (now : Int)
    (hname : toLower (str name) = ascii op.plain) (hname' : toLower (str name') = ascii op.stored)
    (hne : args ≠ [])
    (hsteady : w.store.SteadyBetween env w.tick
      (max (execCommand host env (name :: args) w).2.tick
        (execCommand host env (name' :: des :: args) w).2.tick) now (str des :: args.map str))
    (hsets : ∀ k ∈ str des :: args.map str, w.store.Due k now ∨ w.store.get .set k ≠ .wrongType)
    (reply : Reply) (hreply : (execCommand host env (name :: args) w).1 = .ok reply)
    (R : Bytes → Prop) (hR : Lists reply R) :
    StoresResult w.store (execCommand host env (name' :: des :: args) w).2.store now (str des) R
        (execCommand host env (name' :: des :: args) w).1 ↔
      (∃ x, R x) ∨ w.store.live now (str des) = none ∧
        op.RepliesEmpty w.store now (w.store.reported now [str des] (args.map str)) := by
  -- both runs are those under a clock that no deadline ever passes on
  have hsteady := hsteady.steady
  rw [← execCommand_during host env (name :: args) now le_rfl (le_max_left ..)] at hreply
  rw [← execCommand_during host env (name' :: des :: args) now le_rfl (le_max_right ..)]
  obtain ⟨hlists, hinter⟩ := plain_lists op host _ w hname hne
    (fun k hk => hsteady k (List.mem_cons_of_mem _ hk))
    (fun k hk => hsets k (List.mem_cons_of_mem _ hk)) hreply
  obtain ⟨checked, hlive, hdue, hend⟩ := stored_run op host _ w hname' hne hsteady hsets hinter
  have hRes : ∀ x, R x ↔ op.Result (w.store.LiveSet now) x (args.map str) := hR.unique hlists
  -- the reported keys give the result, or the difference starts from another key
  have hfits : (∀ x, op.Result (w.store.LiveSet now) x
        (w.store.reported now [str des] (args.map str)) ↔ R x) ∨ op = .diff ∧ ∀ x, ¬ R x := by
    by_cases hop : op = .diff
    · subst hop
      rcases @SetOp.diff_result_reported F w.store now [str des] (args.map str) with h | h
      · exact Or.inl fun x => (h x).trans (hRes x).symm
      · exact Or.inr ⟨rfl, fun x hx => h x ((hRes x).mp hx)⟩
    · exact Or.inl fun x => (SetOp.result_reported hop x).trans (hRes x).symm
  refine hend.storesResult_iff hlive hdue hfits fun hop => ?_
  obtain ⟨k, hk, set, hset⟩ := hinter hop
  exact ⟨k, Store.mem_reported hk (Store.liveSet_iff.mp hset).1, set, hset⟩

end Main

/-- SUNIONSTORE of two sets with a common member over a third one. -/
theorem sunionstore_agrees_two :
    letI := asciiTables
    let w : World IntScore := execAll quietHost stillEnv
      [words ["SADD", "a", "x", "y"], words ["SADD", "b", "y", "z"],
        words ["SADD", "d", "q"]] emptyWorld
    let r := execStill (words ["SUNIONSTORE", "d", "a", "b"]) w
    StoresResult w.store r.2.store 0 (ascii "d") (· ∈ [ascii "z", ascii "y", ascii "x"]) r.1 := by
  intro w r
  have hdue : ∀ k n, ¬ w.store.Due k n := by
    rintro k n ⟨d, hd, -⟩
    cases hd
  refine (@stores_agree_iff IntScore asciiTables _ .union quietHost stillEnv
    (some (ascii "SUNION")) (some (ascii "SUNIONSTORE")) (some (ascii "d"))
    (words ["a", "b"]) w 0 ?_ ?_ ?_
    (fun k _ t _ _ => iff_of_false (hdue _ _) (hdue _ _)) (fun k hk => Or.inr ?_)
    (bulksReply (words ["z", "y", "x"])) rfl _
    (Or.inr ⟨[ascii "z", ascii "y", ascii "x"], rfl, by decide, fun x => Iff.rfl⟩)).mpr
    (Or.inl ⟨_, List.mem_cons_self⟩)
  · decide
  · decide
  · decide
  · simp only [str, List.map_cons, List.map_nil, List.mem_cons, List.not_mem_nil, or_false] at hk
    rcases hk with rfl | rfl | rfl <;> exact fun h => by cases h

/-- The union of an absent key is empty, and SUNIONSTORE replies with an array
    and leaves the destination. -/
theorem sunionstore_of_absent_key :
    letI := asciiTables
    let w := stateAfter (words ["SADD", "d", "y"])
    let r := execStill (words ["SUNIONSTORE", "d", "s"]) w
    (execStill (words ["SUNION", "s"]) w).1 =
        .ok emptyArrayReply ∧
      r.1 = .ok emptyArrayReply ∧ r.1 ≠ .ok (intReply 0) ∧
      (r.2.store.live 0 (ascii "d")).isSome = true :=
  ⟨rfl, rfl, (by intro h; cases h), rfl⟩

end TinyDb
