import TinyRedis.CommandRunsProofs
import TinyRedis.ReservoirProofs
import TinyRedis.SetAlgebraProofs

/-! # Random members of a set

    `Set.Random` with a positive count returns all members when the count reaches
    the size, and otherwise one reservoir pass over an iteration of the table.  The
    order of the iteration and the random numbers are the environment's, so what
    holds in every environment holds for every order and all draws.

    The loop of the program is a pass of the library, with the environment's
    numbers as draws (`run_reservoir`).  An iteration meets every member once, so
    what the pass keeps is distinct. -/

namespace TinyDb

open GoString GoFloat GoProgram.Prog Reservoir

variable {F : Type} {env : Env}

/-! ## The loop -/

/-- The number drawn for the `k`-th member, when the draws for the members that
    come after the first `count` begin at `first`. -/
def drawFrom (env : Env) (first count k : Nat) : Nat := env.intn (first + (k - count)) (k + 1)

/-- **The loop of `Set.Random`** is a reservoir pass. -/
theorem run_reservoir (env : Env) (count first : Nat) (keys : List Bytes) (i : Nat)
    (res : List Bytes) (w : World F) (hdraws : w.draws = first + (i - count)) :
    ∃ w', (reservoir count keys i res : Cmd F _ _).run (Op.step env) w =
        (.ok (pass count (drawFrom env first count) i keys res), w') ∧ w'.store = w.store := by
  induction keys generalizing i res w with
  | nil => exact ⟨w, rfl, rfl⟩
  | cons key rest ih =>
    rw [reservoir, Reservoir.pass, Reservoir.put]
    by_cases hi : i < count
    · rw [if_pos hi, if_pos hi]
      exact ih (i + 1) _ w (by omega)
    · rw [if_neg hi, if_neg hi]
      obtain ⟨w', hrun, hstore⟩ := ih (i + 1)
        (if drawFrom env first count i < count then res.set (drawFrom env first count i) key
          else res) ⟨w.store, w.tick + 1, w.draws + 1⟩ (by simp only; omega)
      refine ⟨w', ?_, hstore⟩
      have hdraw : env.intn w.draws (i + 1) = drawFrom env first count i := by
        rw [hdraws]
        rfl
      rw [randIntn, op_bind, run_op, Op.step_intn, ret_bind, hdraw]
      exact hrun

/-! ## Set.Random -/

/-- What a random choice of `count` members of a set has to be. -/
structure RandomMembers (s : RedisSet) (count : Int) (res : List Bytes) : Prop where
  distinct : res.Nodup
  members : ∀ m ∈ res, s.has m = true
  length : (res.length : Int) = min count s.len

/-- A sample of an iteration of the table. -/
theorem RandomMembers.of_sample {s : RedisSet} (hsized : s.Sized) {order res : List Bytes}
    {count : Nat} (hperm : order.Perm s.table.keys) (h : Sample count order res) :
    RandomMembers s count res := by
  refine ⟨h.distinct, fun m hm => RedisSet.has_iff.mpr (hperm.mem_iff.mp (h.subset hm)), ?_⟩
  have hlen : s.len = s.table.keys.length := hsized
  rw [h.length, hperm.length_eq, hlen]
  omega

/-- `Set.Random` of more members than there are: all of them. -/
theorem random_all {s : RedisSet} {count : Int} (hlen : s.len ≠ 0) (hcount : 0 < count)
    (hall : s.len ≤ count) : (s.random count : Cmd F _ _) = iterate s.table := by
  rw [RedisSet.random, if_neg (by omega), if_pos hcount, if_pos hall]

/-- `Set.Random` of fewer: a reservoir pass. -/
theorem random_some {s : RedisSet} {count : Int} (hcount : 0 < count) (hsome : count < s.len) :
    (s.random count : Cmd F _ _) =
      iterate s.table >>= fun order => reservoir count.toNat order 0 [] := by
  rw [RedisSet.random, if_neg (by omega), if_pos hcount, if_neg (by omega)]

/-- **`Set.Random` with a positive count**, in every environment. -/
theorem run_random (env : Env) (w : World F) {s : RedisSet} (hsized : s.Sized) {count : Int}
    (hcount : 0 < count) :
    ∃ res w', (s.random count : Cmd F _ _).run (Op.step env) w = (.ok res, w') ∧
      w'.store = w.store ∧ RandomMembers s count res := by
  have hperm := env.order_perm w.draws s.table.keys
  have hnodup : (env.order w.draws s.table.keys).Nodup := hperm.nodup_iff.mpr s.table.keys_nodup
  have hsize : s.len = s.table.keys.length := hsized
  obtain ⟨n, rfl⟩ := Int.eq_ofNat_of_zero_le hcount.le
  by_cases hempty : s.len = 0
  · refine ⟨[], w, ?_, rfl, List.nodup_nil, fun m hm => absurd hm List.not_mem_nil, ?_⟩
    · rw [RedisSet.random, if_pos (Or.inr hempty)]
      rfl
    · rw [hempty, List.length_nil]
      omega
  by_cases hall : s.len ≤ n
  · refine ⟨env.order w.draws s.table.keys, ⟨w.store, w.tick + 1, w.draws + 1⟩, ?_, rfl, ?_⟩
    · rw [random_all hempty hcount hall]
      rfl
    · exact .of_sample hsized hperm (sample_self hnodup (by rw [hperm.length_eq]; omega))
  · obtain ⟨w', hrun, hstore⟩ := run_reservoir env n (w.draws + 1)
      (env.order w.draws s.table.keys) 0 [] ⟨w.store, w.tick + 1, w.draws + 1⟩ (by simp)
    refine ⟨_, w', ?_, hstore, .of_sample hsized hperm
      (sample_pass n (drawFrom env (w.draws + 1) n) hnodup)⟩
    rw [random_some hcount (by omega), iterate, op_bind, run_op, Op.step_order]
    exact hrun

/-- **RANDOM MEMBERS ARE DISTINCT**: for every order of the iteration and all
    draws, `Set.Random` with a positive count returns `min(count, n)` members of a
    set of size `n`, no two of them equal. -/
theorem random_distinct_members (env : Env) (w : World F) {s : RedisSet} (hsized : s.Sized)
    {count : Int} (hcount : 0 < count) :
    ∃ res, ((s.random count : Cmd F _ _).run (Op.step env) w).1 = .ok res ∧
      (res.length : Int) = min count s.len ∧ res.Nodup ∧ ∀ m ∈ res, s.has m = true := by
  obtain ⟨res, w', hrun, -, hres⟩ := run_random env w hsized hcount
  exact ⟨res, by rw [hrun], hres.length, hres.distinct, hres.members⟩

/-- Two of three members. -/
theorem random_distinct_members_two :
    let s := (((newSet.add (ascii "a")).1.add (ascii "b")).1.add (ascii "c")).1
    s.Sized ∧ s.len = 3 ∧
      ∃ res, ((s.random 2 : Cmd IntScore _ _).run (Op.step stillEnv) emptyWorld).1 = .ok res ∧
        (res.length : Int) = min 2 s.len ∧ res.Nodup ∧ ∀ m ∈ res, s.has m = true := by
  intro s
  have hsized : s.Sized := rfl
  exact ⟨hsized, rfl, random_distinct_members stillEnv emptyWorld hsized (by decide)⟩

end TinyDb
