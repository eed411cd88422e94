import TinyRedis.DisciplineProofs

/-! # Runs of CheckTTL

    A command on several keys checks their deadlines one after another, each at
    a clock reading of its own.  A check takes a key out when it is due, and a
    later check of the same key then finds nothing to expire: it reports the key
    as alive.  Here is what a run of checks leaves in the store and which keys
    it reports, in terms of the store before. -/

namespace TinyDb

open GoString GoProgram.Prog

variable {F : Type}

namespace Store

variable {s : Store F} {key k : Bytes} {now t : Int} {checks : List (Bytes × Int)}

instance decidableDue (s : Store F) (key : Bytes) (now : Int) : Decidable (s.Due key now) :=
  decidable_of_iff (∃ d ∈ s.ttl.lookup key, d ≤ now) (by simp [Due])

/-! ## One check -/

@[simp] theorem checkTTL_fst : (s.checkTTL key now).1 = decide (¬ s.Due key now) := by
  rcases s.checkTTL_cases key now with ⟨hdue, h⟩ | ⟨hdue, h⟩
  · simp [h, hdue]
  · simp [h, hdue]

@[simp] theorem checkTTL_db : (s.checkTTL key now).2.db.lookup k =
    if k = key ∧ s.Due key now then none else s.db.lookup k := by
  rcases s.checkTTL_cases key now with ⟨hdue, h⟩ | ⟨hdue, h⟩
  · simp [h, hdue]
  · simp [h, hdue]

@[simp] theorem checkTTL_ttl : (s.checkTTL key now).2.ttl.lookup k =
    if k = key ∧ s.Due key now then none else s.ttl.lookup k := by
  rcases s.checkTTL_cases key now with ⟨hdue, h⟩ | ⟨hdue, h⟩
  · simp [h, hdue]
  · simp [h, hdue]

@[simp] theorem due_checkTTL : (s.checkTTL key now).2.Due k t ↔
    s.Due k t ∧ ¬ (k = key ∧ s.Due key now) := by
  rw [Due, checkTTL_ttl]
  by_cases h : k = key ∧ s.Due key now
  · rw [if_pos h]
    simp [h]
  · rw [if_neg h]
    exact (and_iff_left h).symm

/-! ## A run of checks -/

/-- One of the checks, each of a key at a clock reading, takes `key` out. -/
def Popped (s : Store F) (checks : List (Bytes × Int)) (key : Bytes) : Prop :=
  ∃ now, (key, now) ∈ checks ∧ s.Due key now

/-- What a run of checks leaves. -/
def checkAll : Store F → List (Bytes × Int) → Store F
  | s, [] => s
  | s, (key, now) :: rest => checkAll (s.checkTTL key now).2 rest

/-- The keys that a run of checks reports as alive. -/
def kept : Store F → List (Bytes × Int) → List Bytes
  | _, [] => []
  | s, (key, now) :: rest =>
    if (s.checkTTL key now).1 then key :: kept (s.checkTTL key now).2 rest
    else kept (s.checkTTL key now).2 rest

@[simp] theorem not_popped_nil : ¬ s.Popped [] k := by simp [Popped]

@[simp] theorem popped_cons :
    s.Popped ((key, now) :: checks) k ↔ (k = key ∧ s.Due key now) ∨ s.Popped checks k := by
  constructor
  · rintro ⟨t, hmem, hdue⟩
    rcases List.mem_cons.mp hmem with heq | hmem
    · obtain ⟨rfl, rfl⟩ := Prod.mk.inj heq
      exact Or.inl ⟨rfl, hdue⟩
    · exact Or.inr ⟨t, hmem, hdue⟩
  · rintro (⟨rfl, hdue⟩ | ⟨t, hmem, hdue⟩)
    · exact ⟨now, by simp, hdue⟩
    · exact ⟨t, by simp [hmem], hdue⟩

@[simp] theorem popped_checkTTL : (s.checkTTL key now).2.Popped checks k ↔
    s.Popped checks k ∧ ¬ (k = key ∧ s.Due key now) := by
  simp only [Popped, due_checkTTL]
  constructor
  · rintro ⟨t, hmem, hdue, hout⟩
    exact ⟨⟨t, hmem, hdue⟩, hout⟩
  · rintro ⟨⟨t, hmem, hdue⟩, hout⟩
    exact ⟨t, hmem, hdue, hout⟩

/-- A key that a check takes out is gone from both tables, any other is as it
    was. -/
theorem checkAll_lookup (s : Store F) (checks : List (Bytes × Int)) (k : Bytes) :
    (s.Popped checks k ∧ (s.checkAll checks).db.lookup k = none ∧
        (s.checkAll checks).ttl.lookup k = none) ∨
      (¬ s.Popped checks k ∧ (s.checkAll checks).db.lookup k = s.db.lookup k ∧
        (s.checkAll checks).ttl.lookup k = s.ttl.lookup k) := by
  induction checks generalizing s with
  | nil => exact Or.inr ⟨not_popped_nil, rfl, rfl⟩
  | cons check rest ih =>
    obtain ⟨key, now⟩ := check
    have ih := ih (s.checkTTL key now).2
    simp only [popped_checkTTL, checkTTL_db, checkTTL_ttl] at ih
    by_cases h : k = key ∧ s.Due key now
    · simpa [checkAll, h] using ih
    · simpa [checkAll, h] using ih

theorem checkAll_eq_none :
    (s.checkAll checks).db.lookup k = none ↔ s.Popped checks k ∨ s.db.lookup k = none := by
  rcases s.checkAll_lookup checks k with ⟨hpop, hdb, -⟩ | ⟨hpop, hdb, -⟩
  · simp [hpop, hdb]
  · simp [hpop, hdb]

/-- A key is reported alive by a check that does not find it due, or comes after
    one that has taken it out. -/
theorem mem_kept : k ∈ s.kept checks ↔ ∃ before now after,
    checks = before ++ (k, now) :: after ∧ (¬ s.Due k now ∨ s.Popped before k) := by
  induction checks generalizing s with
  | nil => simp [kept]
  | cons check rest ih =>
    obtain ⟨key, t⟩ := check
    have hstep : k ∈ s.kept ((key, t) :: rest) ↔
        (k = key ∧ ¬ s.Due key t) ∨ k ∈ (s.checkTTL key t).2.kept rest := by
      by_cases h : s.Due key t
      · simp [kept, h]
      · simp [kept, h]
    rw [hstep, ih]
    constructor
    · rintro (⟨rfl, h⟩ | ⟨before, now, after, rfl, h⟩)
      · exact ⟨[], t, rest, rfl, Or.inl h⟩
      · refine ⟨(key, t) :: before, now, after, rfl, ?_⟩
        simp only [due_checkTTL, popped_checkTTL, popped_cons] at h ⊢
        tauto
    · rintro ⟨before, now, after, heq, h⟩
      cases before with
      | nil =>
        obtain ⟨⟨rfl, rfl⟩, rfl⟩ : (key = k ∧ t = now) ∧ rest = after := by simpa using heq
        exact Or.inl ⟨rfl, by simpa using h⟩
      | cons b before =>
        obtain ⟨rfl, rfl⟩ : (key, t) = b ∧ rest = before ++ (k, now) :: after := by
          simpa using heq
        simp only [popped_cons] at h
        by_cases hk : k = key ∧ s.Due key t
        · refine Or.inr ⟨before, now, after, rfl, Or.inl ?_⟩
          simp [hk]
        · refine Or.inr ⟨before, now, after, rfl, ?_⟩
          simp only [due_checkTTL, popped_checkTTL]
          tauto

/-- The same for checks that come after a first one. -/
theorem kept_ne_nil_after : (s.checkTTL key t).2.kept checks ≠ [] ↔ ∃ before k now after,
    checks = before ++ (k, now) :: after ∧ (¬ s.Due k now ∨ s.Popped ((key, t) :: before) k) := by
  rw [ne_eq, List.eq_nil_iff_forall_not_mem, not_forall_not]
  constructor
  · rintro ⟨k, hk⟩
    obtain ⟨before, now, after, rfl, h⟩ := mem_kept.mp hk
    refine ⟨before, k, now, after, rfl, ?_⟩
    simp only [due_checkTTL, popped_checkTTL] at h
    rw [popped_cons]
    tauto
  · rintro ⟨before, k, now, after, rfl, h⟩
    refine ⟨k, mem_kept.mpr ⟨before, now, after, rfl, ?_⟩⟩
    simp only [due_checkTTL, popped_checkTTL]
    rw [popped_cons] at h
    tauto

/-- Every key that was checked is taken out or reported. -/
theorem popped_or_mem_kept (h : (k, now) ∈ checks) : s.Popped checks k ∨ k ∈ s.kept checks := by
  by_cases hdue : s.Due k now
  · exact Or.inl ⟨now, h, hdue⟩
  · obtain ⟨before, after, rfl⟩ := List.mem_iff_append.mp h
    exact Or.inr (mem_kept.mpr ⟨before, now, after, rfl, Or.inl hdue⟩)

end Store

/-! ## The loops over several keys -/

/-- The checks of a loop over `args` that starts at tick `t`. -/
def checksFrom (env : Env) : Nat → List (Option Bytes) → List (Bytes × Int)
  | _, [] => []
  | t, arg :: rest => (str arg, env.clock t) :: checksFrom env (t + 1) rest

theorem map_fst_checksFrom (env : Env) (t : Nat) (args : List (Option Bytes)) :
    (checksFrom env t args).map Prod.fst = args.map str := by
  induction args generalizing t with
  | nil => rfl
  | cons arg rest ih => simp [checksFrom, ih]

theorem exists_mem_checksFrom {env : Env} {t : Nat} {args : List (Option Bytes)} {k : Bytes} :
    (∃ now, (k, now) ∈ checksFrom env t args) ↔ ∃ arg ∈ args, str arg = k := by
  have h : k ∈ (checksFrom env t args).map Prod.fst ↔ k ∈ args.map str := by
    rw [map_fst_checksFrom]
  simpa using h

/-- The loop that drops expired keys. -/
theorem run_liveKeys {c : Caps} (env : Env) (args : List (Option Bytes)) (w : World F) :
    (liveKeys args : Cmd F c _).run (Op.step env) w =
      (.ok (w.store.kept (checksFrom env w.tick args)),
        ⟨w.store.checkAll (checksFrom env w.tick args), w.tick + args.length, w.draws⟩) := by
  induction args generalizing w with
  | nil => rfl
  | cons arg rest ih =>
    obtain ⟨s, t, d⟩ := w
    simp only [liveKeys, checkTTL, op_bind, ret_bind, run_op, run_bind, Op.step_checkTTL, ih,
      pure_eq, run_ret, checksFrom, Store.kept, Store.checkAll, List.length_cons]
    rw [Nat.add_assoc, Nat.add_comm 1]
    rfl

/-- What `getSets` collects. -/
def Store.setsAt (s : Store F) : List Bytes → Option (List RedisSet)
  | [] => some []
  | key :: rest =>
    match s.get .set key with
    | .absent => s.setsAt rest
    | .wrongType => none
    | .found set => (s.setsAt rest).map fun sets => set :: sets

/-- The loop that collects sets only reads. -/
theorem run_getSets {c : Caps} (env : Env) (keys : List Bytes) (w : World F) :
    ∃ t, (getSets keys : Cmd F c _).run (Op.step env) w =
      (.ok (w.store.setsAt keys), ⟨w.store, t, w.draws⟩) := by
  induction keys generalizing w with
  | nil => exact ⟨w.tick, rfl⟩
  | cons key rest ih =>
    obtain ⟨s, t, d⟩ := w
    obtain ⟨t', hrest⟩ := ih ⟨s, t + 1, d⟩
    simp only [getSets, get, op_bind, ret_bind, run_op, Op.step_get, Store.setsAt]
    cases s.get .set key with
    | absent => exact ⟨t', hrest⟩
    | wrongType => exact ⟨t + 1, rfl⟩
    | found set =>
      refine ⟨t', ?_⟩
      dsimp only
      rw [run_bind, hrest]
      rfl

theorem Store.setsAt_eq_nil {s : Store F} {keys : List Bytes} :
    s.setsAt keys = some [] ↔ ∀ k ∈ keys, s.db.lookup k = none := by
  induction keys with
  | nil => simp [setsAt]
  | cons key rest ih =>
    have habsent : s.get .set key = .absent ↔ s.db.lookup key = none := get_eq_absent
    rw [List.forall_mem_cons, ← ih, ← habsent, setsAt]
    cases s.get .set key <;> simp

/-- The keys that are reported hold nothing if no key that was checked does. -/
theorem Store.setsAt_kept_eq_nil {s : Store F} {checks : List (Bytes × Int)} :
    (s.checkAll checks).setsAt (s.kept checks) = some [] ↔
      ∀ k now, (k, now) ∈ checks → s.Popped checks k ∨ s.db.lookup k = none := by
  rw [setsAt_eq_nil]
  constructor
  · intro h k now hmem
    rcases popped_or_mem_kept (s := s) hmem with hpop | hkept
    · exact Or.inl hpop
    · exact checkAll_eq_none.mp (h k hkept)
  · intro h k hk
    obtain ⟨before, now, after, rfl, -⟩ := mem_kept.mp hk
    exact checkAll_eq_none.mpr (h k now (by simp))

/-! ## The STORE commands -/

/-- The frame of the STORE commands, run: the checks, the result of `compute` on
    the keys they report, and `store` after one more check. -/
theorem run_storing (env : Env) (name des : Option Bytes) (sources : List (Option Bytes))
    (compute : List Bytes → Cmd F writes (Except Reply RedisSet))
    (store : Bytes → RedisSet → Cmd F writes Reply) (w : World F) :
    (storing (name :: des :: sources) compute store).run (Op.step env) w =
      let s := (w.store.checkTTL (str des) (env.clock w.tick)).2
      let checks := checksFrom env (w.tick + 2) sources
      let w' : World F := ⟨s.checkAll checks, w.tick + 2 + sources.length, w.draws⟩
      match s.get .set (str des) with
      | .wrongType => (.ok wrongTypeReply, ⟨s, w.tick + 2, w.draws⟩)
      | _ =>
        if s.kept checks = [] then (.ok (intReply 0), w')
        else
          match (compute (s.kept checks)).run (Op.step env) w' with
          | (.error why, w'') => (.error why, w'')
          | (.ok (.error reply), w'') => (.ok reply, w'')
          | (.ok (.ok res), w'') =>
            (store (str des) res).run (Op.step env)
              ⟨(w''.store.checkTTL (str des) (env.clock w''.tick)).2, w''.tick + 1, w''.draws⟩ := by
  have hlive : ∀ (s : Store F) (next : Except Reply RedisSet → Cmd F writes Reply), (do
      let keys ← liveKeys sources
      if keys = [] then
        return intReply 0
      next (← compute keys) : Cmd F writes Reply).run (Op.step env) ⟨s, w.tick + 2, w.draws⟩ =
      let checks := checksFrom env (w.tick + 2) sources
      let w' : World F := ⟨s.checkAll checks, w.tick + 2 + sources.length, w.draws⟩
      if s.kept checks = [] then (.ok (intReply 0), w')
      else (compute (s.kept checks) >>= next).run (Op.step env) w' := by
    intro s next
    rw [run_bind, run_liveKeys]
    dsimp only
    by_cases hnil : s.kept (checksFrom env (w.tick + 2) sources) = []
    · rw [if_pos hnil, if_pos hnil]
      rfl
    · rw [if_neg hnil, if_neg hnil]
  simp only [storing, strAt, List.getElem?_cons_succ, List.getElem?_cons_zero, ret_bind, checkTTL,
    op_bind, run_op, Op.step_checkTTL, holdsSet, get, Op.step_get]
  cases (w.store.checkTTL (str des) (env.clock w.tick)).2.get .set (str des) with
  | wrongType => rfl
  | absent =>
    refine (hlive _ _).trans ?_
    dsimp only
    congr 1
    rw [run_bind]
    rcases (compute _).run (Op.step env) _ with ⟨why | reply | res, w''⟩ <;> rfl
  | found set =>
    refine (hlive _ _).trans ?_
    dsimp only
    congr 1
    rw [run_bind]
    rcases (compute _).run (Op.step env) _ with ⟨why | reply | res, w''⟩ <;> rfl

/-- The loop for the shortest set ends at a set it was given. -/
theorem shortestLoop_lt (sets : List RedisSet) (i best : Nat) (len : Int)
    (hbest : best < i + sets.length) : shortestLoop sets i best len < i + sets.length := by
  induction sets generalizing i best len with
  | nil => exact hbest
  | cons set rest ih =>
    simp only [List.length_cons] at hbest ⊢
    rw [shortestLoop]
    split
    · have h := ih (i + 1) i set.len (by omega)
      omega
    · have h := ih (i + 1) best len (by omega)
      omega

/-- The sets the intersection starts from; none if there are no sets. -/
theorem shortest_eq_none {sets : List RedisSet} :
    sets[shortestLoop sets 0 0 (2 ^ 63 - 1)]? = none ↔ sets = [] := by
  constructor
  · intro h
    cases sets with
    | nil => rfl
    | cons set rest =>
      have hlt := shortestLoop_lt (set :: rest) 0 0 (2 ^ 63 - 1) (by simp)
      rw [List.getElem?_eq_none_iff] at h
      omega
  · rintro rfl
    rfl

/-- The read phase of SINTERSTORE. -/
theorem run_interOf (env : Env) (keys : List Bytes) (w : World F) :
    ∃ t, (interOf keys).run (Op.step env) w =
      (match w.store.setsAt keys with
        | none => .ok (.error wrongTypeReply)
        | some sets =>
          match sets[shortestLoop sets 0 0 (2 ^ 63 - 1)]? with
          | none => .error .panic
          | some primSet =>
            .ok (.ok (primSet.intersect (sets.eraseIdx (shortestLoop sets 0 0 (2 ^ 63 - 1))))),
        ⟨w.store, t, w.draws⟩) := by
  obtain ⟨t, hget⟩ := run_getSets (c := writes) env keys ⟨w.store, w.tick + 1, w.draws⟩
  simp only [interOf, rLockMulti, op_bind, ret_bind, run_op, Op.step_rLock, run_bind, hget]
  cases w.store.setsAt keys with
  | none => exact ⟨_, rfl⟩
  | some sets =>
    simp only [intersectAll, run_bind]
    cases sets[shortestLoop sets 0 0 (2 ^ 63 - 1)]? with
    | none => exact ⟨_, rfl⟩
    | some primSet => exact ⟨_, rfl⟩

end TinyDb
