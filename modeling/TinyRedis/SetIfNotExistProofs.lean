import TinyRedis.ConcurrentMapProofs

/-!
# `SetIfNotExist` among other clients of the map

    `SetIfNotExist` looks the key up under the shard's read lock, lets the
    lock go, and looks again under the write lock before it puts.  Between the
    two any client may insert or delete the key and the shard may change from
    list to tree and back.

    Here any number of clients share one map and take their steps in any
    order: `Set`, `SetIfExist`, `Delete` and `Get` are one step, `SetIfNotExist`
    is one step when its first look finds the key and two when it does not.
    Whatever the order, the answering step of a call does to the map what the
    whole call does alone (`step_answers`), so the order of answers is a
    serial order of the calls.
-/

namespace TinyMap

open GoString

variable {V T C : Type}

/-! ## Clients -/

/-- A call about one key. -/
inductive KeyOp (V : Type) where
  | set (key : Bytes) (value : V)
  | setIfExist (key : Bytes) (value : V)
  | setIfNotExist (key : Bytes) (value : V)
  | delete (key : Bytes)
  | get (key : Bytes)

/-- The call on the map. -/
def KeyOp.mapOp : KeyOp V → MapOp V
  | .set k v => .set k v
  | .setIfExist k v => .setIfExist k v
  | .setIfNotExist k v => .setIfNotExist k v
  | .delete k => .delete k
  | .get k => .get k

/-- What a client does under one lock: enter a call, or go on with the
    `SetIfNotExist` whose first look found nothing. -/
inductive ClientStep (V : Type) where
  | call (op : KeyOp V)
  | put

/-- An answered call, with the numbers of the steps that entered and
    answered it. -/
structure Call (V C : Type) where
  client : C
  op : KeyOp V
  res : MapRes V
  asked : Nat
  answered : Nat

/-- The map, the clients between the two locks of a `SetIfNotExist` (key,
    value, entering step), the number of steps taken, and the answered calls,
    oldest first. -/
structure Shared (V T C : Type) where
  map : ConcurrentMap V T
  waiting : C → Option (Bytes × V × Nat)
  clock : Nat
  calls : List (Call V C)

namespace Shared

/-- A new map, and no client inside a call. -/
def start (size : Int) : Shared V T C := ⟨newConcurrentMap size, fun _ => none, 0, []⟩

/-- A call answered now, leaving `map`. -/
def answer (st : Shared V T C) (c : C) (op : KeyOp V) (asked : Nat)
    (r : ConcurrentMap V T × MapRes V) : Shared V T C :=
  { st with
    map := r.1
    clock := st.clock + 1
    calls := st.calls ++ [⟨c, op, r.2, asked, st.clock⟩] }

/-- Whether the client is between the two locks of a `SetIfNotExist`. -/
def wait [DecidableEq C] (st : Shared V T C) (c : C) (w : Option (Bytes × V × Nat)) :
    Shared V T C :=
  { st with waiting := Function.update st.waiting c w }

end Shared

section Steps

variable [DecidableEq C] (R : RedBlackTree V T) (sum64 : Bytes → UInt64)

/-- The write-locked half of `SetIfNotExist`. -/
def ConcurrentMap.putIfAbsent (m : ConcurrentMap V T) (key : Bytes) (value : V) :
    ConcurrentMap V T × Int :=
  if (m.get R sum64 key).isSome then (m, 0) else ((m.set R sum64 key value).1, 1)

/-- One step of one client.  A step that is not the client's next one (a call
    from inside a call, a put with nothing to put) does not happen. -/
def Shared.step (st : Shared V T C) (c : C) (a : ClientStep V) : Shared V T C :=
  match a, st.waiting c with
  | .call (.setIfNotExist k v), none =>
    -- the read lock: found answers at once, absent goes on to the write lock
    if (st.map.get R sum64 k).isSome then
      st.answer c (.setIfNotExist k v) st.clock (st.map, .num 0)
    else { st.wait c (some (k, v, st.clock)) with clock := st.clock + 1 }
  | .call op, none => st.answer c op st.clock (op.mapOp.apply R sum64 st.map)
  | .put, some (k, v, asked) =>
    (st.wait c none).answer c (.setIfNotExist k v) asked
      ((st.map.putIfAbsent R sum64 k v).1, .num (st.map.putIfAbsent R sum64 k v).2)
  | _, _ => st

/-- The clients' steps, in the order the locks let them through. -/
def runClients (st : Shared V T C) (steps : List (C × ClientStep V)) : Shared V T C :=
  steps.foldl (fun st s => st.step R sum64 s.1 s.2) st

/-- `SetIfNotExist` with nothing between its two locks. -/
theorem setIfNotExist_eq_putIfAbsent (m : ConcurrentMap V T) (k : Bytes) (v : V) :
    m.setIfNotExist R sum64 k v = m.putIfAbsent R sum64 k v := by
  unfold ConcurrentMap.setIfNotExist ConcurrentMap.putIfAbsent
  by_cases hk : (m.get R sum64 k).isSome = true
  · rw [if_pos hk, if_pos hk]
  · rw [if_neg hk]

/-- What a step can be: nothing to the map and no answer, or an answer to a
    call that is, to the map, the whole call. -/
inductive Shared.Stepped (st : Shared V T C) (c : C) : Shared V T C → Prop
  | skip : Stepped st c st
  | look (k : Bytes) (v : V) :
      Stepped st c { st.wait c (some (k, v, st.clock)) with clock := st.clock + 1 }
  | once (op : KeyOp V) :
      Stepped st c (st.answer c op st.clock (op.mapOp.apply R sum64 st.map))
  | late (k : Bytes) (v : V) (asked : Nat) (h : st.waiting c = some (k, v, asked)) :
      Stepped st c ((st.wait c none).answer c (.setIfNotExist k v) asked
        ((KeyOp.setIfNotExist k v).mapOp.apply R sum64 st.map))

/-- **EVERY STEP** is one of these: an early `SetIfNotExist` found the key and
    the whole call would have found it too, a late one does what the whole
    call does. -/
theorem Shared.step_answers (st : Shared V T C) (c : C) (a : ClientStep V) :
    st.Stepped R sum64 c (st.step R sum64 c a) := by
  cases hw : st.waiting c with
  | none =>
    cases a with
    | put => simpa [step, hw] using Stepped.skip
    | call op =>
      cases op with
      | setIfNotExist k v =>
        by_cases hk : (st.map.get R sum64 k).isSome = true
        · have hres : (KeyOp.setIfNotExist k v).mapOp.apply R sum64 st.map
              = (st.map, .num 0) := by
            simp only [KeyOp.mapOp, MapOp.apply, setIfNotExist_eq_putIfAbsent,
              ConcurrentMap.putIfAbsent, if_pos hk]
          have hstep : st.step R sum64 c (.call (.setIfNotExist k v))
              = st.answer c (.setIfNotExist k v) st.clock (st.map, .num 0) := by
            simp only [step, hw, if_pos hk]
          rw [hstep, ← hres]
          exact .once _
        · simpa [step, hw, hk] using Stepped.look k v
      | set k v => simpa [step, hw] using Stepped.once (.set k v)
      | setIfExist k v => simpa [step, hw] using Stepped.once (.setIfExist k v)
      | delete k => simpa [step, hw] using Stepped.once (.delete k)
      | get k => simpa [step, hw] using Stepped.once (.get k)
  | some w =>
    obtain ⟨k, v, asked⟩ := w
    cases a with
    | call op => cases op <;> simpa [step, hw] using Stepped.skip
    | put =>
      have hres : (KeyOp.setIfNotExist k v).mapOp.apply R sum64 st.map
          = ((st.map.putIfAbsent R sum64 k v).1,
            .num (st.map.putIfAbsent R sum64 k v).2) := by
        simp only [KeyOp.mapOp, MapOp.apply, setIfNotExist_eq_putIfAbsent]
      simp only [step, hw]
      rw [← hres]
      exact .late k v asked hw

end Steps

/-! ## Serial histories -/

/-- The plain map after the calls, one after the other. -/
def afterCalls (s : PlainMap V) (calls : List (Call V C)) : PlainMap V :=
  calls.foldl (fun s call => call.op.mapOp.plain s) s

/-- The answers are those of a plain map that takes the calls one after the
    other. -/
def SerialFrom : PlainMap V → List (Call V C) → Prop
  | _, [] => True
  | s, call :: calls => call.op.mapOp.Agrees s call.res ∧ SerialFrom (call.op.mapOp.plain s) calls

theorem serialFrom_append (s : PlainMap V) (xs ys : List (Call V C)) :
    SerialFrom s (xs ++ ys) ↔ SerialFrom s xs ∧ SerialFrom (afterCalls s xs) ys := by
  induction xs generalizing s with
  | nil => simp [SerialFrom, afterCalls]
  | cons x xs ih =>
    show _ ∧ SerialFrom _ (xs ++ ys) ↔ (_ ∧ SerialFrom _ xs) ∧ _
    rw [ih, and_assoc]
    exact Iff.rfl

/-- A `SetIfNotExist` of the key that stored its value. -/
def Call.Stored (call : Call V C) (k : Bytes) : Prop :=
  (∃ v, call.op = .setIfNotExist k v) ∧ call.res = .num 1

/-- A `Delete` of the key that deleted it. -/
def Call.Deleted (call : Call V C) (k : Bytes) : Prop :=
  call.op = .delete k ∧ call.res = .num 1

theorem mem_insert_of_mem {s : PlainMap V} {k : Bytes} (hk : k ∈ s) (k' : Bytes) (v : V) :
    k ∈ s.insert k' v :=
  AList.mem_insert s |>.mpr (.inr hk)

/-- One call on a plain map that holds the key: it deletes the key, or the
    key stays. -/
theorem deleted_or_mem {s : PlainMap V} {k : Bytes} (hk : k ∈ s) (call : Call V C)
    (hag : call.op.mapOp.Agrees s call.res) : call.Deleted k ∨ k ∈ call.op.mapOp.plain s := by
  obtain ⟨client, op, res, asked, answered⟩ := call
  cases op with
  | set k' v => exact .inr (mem_insert_of_mem hk k' v)
  | get k' => exact .inr hk
  | setIfExist k' v =>
    refine .inr ?_
    show k ∈ if k' ∈ s then s.insert k' v else s
    split
    · exact mem_insert_of_mem hk k' v
    · exact hk
  | setIfNotExist k' v =>
    refine .inr ?_
    show k ∈ if k' ∈ s then s else s.insert k' v
    split
    · exact hk
    · exact mem_insert_of_mem hk k' v
  | delete k' =>
    by_cases hkk : k' = k
    · subst hkk
      refine .inl ⟨rfl, ?_⟩
      have hres : res = .num (if k' ∈ s then 1 else 0) := hag
      rw [hres, if_pos hk]
    · exact .inr ((AList.mem_erase).mpr ⟨fun h => hkk h.symm, hk⟩)

/-- A key the plain map holds stays until a `Delete` deletes it. -/
theorem deleted_or_mem_afterCalls {k : Bytes} (calls : List (Call V C)) :
    ∀ s : PlainMap V, k ∈ s → SerialFrom s calls →
      (∃ d ∈ calls, d.Deleted k) ∨ k ∈ afterCalls s calls := by
  induction calls with
  | nil => exact fun s hk _ => .inr hk
  | cons call calls ih =>
    intro s hk hser
    obtain hdel | hmem := deleted_or_mem hk call hser.1
    · exact .inl ⟨call, by simp, hdel⟩
    · obtain ⟨d, hd, hdel⟩ | hk' := ih _ hmem hser.2
      · exact .inl ⟨d, by simp [hd], hdel⟩
      · exact .inr hk'

/-- **BETWEEN TWO STORES OF ONE KEY** by `SetIfNotExist` a `Delete` deleted
    it. -/
theorem deleted_between {s : PlainMap V} {k : Bytes} {before between after : List (Call V C)}
    {a b : Call V C} (hser : SerialFrom s (before ++ a :: (between ++ b :: after)))
    (ha : a.Stored k) (hb : b.Stored k) : ∃ d ∈ between, d.Deleted k := by
  obtain ⟨-, hag, hrest⟩ := (serialFrom_append s before _).mp hser
  obtain ⟨hbetween, hagb, -⟩ := (serialFrom_append _ between _).mp hrest
  obtain ⟨⟨v, hop⟩, -⟩ := ha
  obtain ⟨⟨v', hopb⟩, hresb⟩ := hb
  have hk : k ∈ a.op.mapOp.plain (afterCalls s before) := by
    rw [hop]
    show k ∈ if k ∈ afterCalls s before then _ else _
    split
    · assumption
    · exact (AList.mem_insert _).mpr (.inl rfl)
  obtain hdel | hk' := deleted_or_mem_afterCalls between _ hk hbetween
  · exact hdel
  · rw [hopb] at hagb
    have hres : b.res = .num (if k ∈ afterCalls (a.op.mapOp.plain (afterCalls s before)) between
      then 0 else 1) := hagb
    rw [hresb, if_pos hk'] at hres
    exact absurd hres (by simp)

/-! ## Runs -/

section Runs

variable {R : RedBlackTree V T} {sum64 : Bytes → UInt64}

/-- The keys in the shards. -/
def ConcurrentMap.storedKeys (R : RedBlackTree V T) (m : ConcurrentMap V T) : List Bytes :=
  m.shards.flatMap (DataStructure.keys R)

/-- A call about one key returns what the plain map returns, however many
    keys there are. -/
theorem Simulates.agrees_key (hR : R.Correct) {m : ConcurrentMap V T} {s : PlainMap V}
    (h : Simulates R sum64 m s) (op : KeyOp V) :
    op.mapOp.Agrees s (op.mapOp.apply R sum64 m).2 :=
  h.agrees hR op.mapOp (by cases op <;> simp [KeyOp.mapOp])

/-- The invariant: the answers are serial in the order they were given, the
    map is in step with the plain map of the answered calls, and the times of
    the calls are in order. -/
structure Shared.Serial (R : RedBlackTree V T) (sum64 : Bytes → UInt64) (st : Shared V T C) :
    Prop where
  serial : SerialFrom ∅ st.calls
  simulates : Simulates R sum64 st.map (afterCalls ∅ st.calls)
  waited : ∀ c k v asked, st.waiting c = some (k, v, asked) → asked ≤ st.clock
  past : ∀ call ∈ st.calls, call.asked ≤ call.answered ∧ call.answered < st.clock
  ordered : st.calls.Pairwise fun a b => a.answered < b.answered

theorem Shared.start_serial (size : Int) :
    (Shared.start size : Shared V T C).Serial R sum64 where
  serial := trivial
  simulates := newConcurrentMap_simulates size
  waited := fun _ _ _ _ h => absurd h (by simp [Shared.start])
  past := fun _ h => absurd h (by simp [Shared.start])
  ordered := List.Pairwise.nil

/-- An answer that is the whole call keeps the invariant. -/
theorem Shared.Serial.answer (hR : R.Correct) {st : Shared V T C} (h : st.Serial R sum64) (c : C)
    (op : KeyOp V) {asked : Nat} (hasked : asked ≤ st.clock) :
    (st.answer c op asked (op.mapOp.apply R sum64 st.map)).Serial R sum64 where
  serial := (serialFrom_append _ _ _).mpr ⟨h.serial, h.simulates.agrees_key hR op, trivial⟩
  simulates := by
    have happ := h.simulates.apply hR op.mapOp
    simpa only [Shared.answer, afterCalls, List.foldl_append, List.foldl_cons, List.foldl_nil]
      using happ
  waited := fun c' k v t hw => (h.waited c' k v t hw).trans (Nat.le_succ _)
  past := by
    intro call hcall
    obtain hold | hnew := List.mem_append.mp hcall
    · have := h.past call hold
      exact ⟨this.1, this.2.trans (Nat.lt_succ_self _)⟩
    · obtain rfl := List.mem_singleton.mp hnew
      exact ⟨hasked, Nat.lt_succ_self _⟩
  ordered := by
    refine List.pairwise_append.mpr ⟨h.ordered, List.pairwise_singleton _ _, ?_⟩
    intro a ha b hb
    obtain rfl := List.mem_singleton.mp hb
    exact (h.past a ha).2

/-- A step without an answer. -/
theorem Shared.Serial.tick {st : Shared V T C} (h : st.Serial R sum64) :
    Shared.Serial R sum64 { st with clock := st.clock + 1 } where
  serial := h.serial
  simulates := h.simulates
  waited := fun c k v t hw => (h.waited c k v t hw).trans (Nat.le_succ _)
  past := fun call hcall =>
    ⟨(h.past call hcall).1, (h.past call hcall).2.trans (Nat.lt_succ_self _)⟩
  ordered := h.ordered

variable [DecidableEq C]

/-- A client that goes between the locks, or comes back, changes no call. -/
theorem Shared.Serial.wait {st : Shared V T C} (h : st.Serial R sum64) (c : C)
    (w : Option (Bytes × V × Nat)) (hw : ∀ k v asked, w = some (k, v, asked) → asked ≤ st.clock) :
    (st.wait c w).Serial R sum64 where
  serial := h.serial
  simulates := h.simulates
  waited := by
    intro c' k v asked hwait
    by_cases hc : c' = c
    · subst hc
      exact hw k v asked (by simpa [Shared.wait] using hwait)
    · exact h.waited c' k v asked (by simpa [Shared.wait, hc] using hwait)
  past := h.past
  ordered := h.ordered

/-- **ONE STEP** of any client keeps the invariant. -/
theorem Shared.Serial.step (hR : R.Correct) {st : Shared V T C} (h : st.Serial R sum64) (c : C)
    (a : ClientStep V) : (st.step R sum64 c a).Serial R sum64 := by
  have hstep := st.step_answers R sum64 c a
  generalize st.step R sum64 c a = st' at hstep ⊢
  cases hstep with
  | skip => exact h
  | look k v =>
    refine Shared.Serial.tick (h.wait c (some (k, v, st.clock)) fun k' v' asked hw => ?_)
    cases hw
    exact le_rfl
  | once op => exact h.answer hR c op le_rfl
  | late k v asked hw =>
    have hback : (st.wait c none).Serial R sum64 :=
      h.wait c none fun _ _ _ hnone => absurd hnone (by simp)
    exact hback.answer hR c (.setIfNotExist k v) (h.waited c k v asked hw)

/-- **EVERY RUN** keeps the invariant. -/
theorem runClients_serial (hR : R.Correct) (steps : List (C × ClientStep V)) :
    ∀ st : Shared V T C, st.Serial R sum64 → (runClients R sum64 st steps).Serial R sum64 := by
  induction steps with
  | nil => exact fun _ h => h
  | cons s steps ih => exact fun st h => ih _ (h.step hR s.1 s.2)

end Runs

/-- **`SetIfNotExist` IS ATOMIC** for any number of clients and any order of
    their steps.  The calls in the order they were answered are a serial
    history of a plain map, and no call stands before one that was answered
    before it was made; two `SetIfNotExist` of one key both store only with a
    `Delete` of it between them; and the counter, an `int32`, is the number of
    keys in the shards. -/
theorem setIfNotExist_atomic [DecidableEq C] (R : RedBlackTree V T) (hR : R.Correct)
    (sum64 : Bytes → UInt64) (size : Int) (steps : List (C × ClientStep V)) :
    let st : Shared V T C := runClients R sum64 (.start size) steps
    SerialFrom ∅ st.calls ∧
    (st.calls.Pairwise fun a b => ¬ b.answered < a.asked) ∧
    (∀ (k : Bytes) (before between after : List (Call V C)) (a b : Call V C),
      st.calls = before ++ a :: (between ++ b :: after) → a.Stored k → b.Stored k →
        ∃ d ∈ between, d.Deleted k) ∧
    st.map.count = Int32.ofNat (st.map.storedKeys R).length ∧
    ((st.map.storedKeys R).length < 2 ^ 31 → st.map.len = (st.map.storedKeys R).length) := by
  intro st
  have h : st.Serial R sum64 := runClients_serial hR steps _ (Shared.start_serial size)
  have hstored : (st.map.storedKeys R).length = (afterCalls ∅ st.calls).keys.length :=
    (h.simulates.flatMap_perm fun d hd => (hd.wf.lists hR).1).length_eq
  refine ⟨h.serial, ?_, ?_, ?_, ?_⟩
  · refine List.Pairwise.imp_of_mem ?_ h.ordered
    intro a b ha _ hab hba
    have := (h.past a ha).1
    omega
  · intro k before between after a b hcalls
    exact deleted_between (hcalls ▸ h.serial)
  · rw [hstored]
    exact h.simulates.count
  · rw [hstored]
    exact h.simulates.len

/-- Two clients look before either puts: the first to put stores, the other
    does not. -/
theorem setIfNotExist_atomic_race :
    let st : Shared Nat (SortedEntries Nat) Bool := runClients sortedTree (fun _ => 0) (.start 1)
      [(true, .call (.setIfNotExist [107] 1)), (false, .call (.setIfNotExist [107] 2)),
        (false, .put), (true, .put)]
    st.calls = [⟨false, .setIfNotExist [107] 2, .num 1, 1, 2⟩,
      ⟨true, .setIfNotExist [107] 1, .num 0, 0, 3⟩] ∧ SerialFrom ∅ st.calls :=
  ⟨rfl, (setIfNotExist_atomic sortedTree sortedTree_correct (fun _ => 0) 1
    [(true, .call (.setIfNotExist [107] 1)), (false, .call (.setIfNotExist [107] 2)),
      (false, .put), (true, .put)]).1⟩

end TinyMap
