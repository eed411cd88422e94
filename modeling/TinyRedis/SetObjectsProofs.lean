import TinyRedis.SetAlgebraProofs

/-! # Sets as objects

    `Union`, `Intersect` and `Difference` take pointers, and a set may be given more
    than once, or be its own argument.  `Intersect` compares the pointers: it takes
    the smallest set, and leaves out the lookups in that very object.  Here the sets
    lie in a heap, and the methods change it write by write; the loops over a map
    visit its keys in any order. -/

namespace TinySet

open GoString TinyDb TinyDb.RedisSet

/-! ## The heap -/

/-- The set objects by their pointers, which are the numbers below `fresh`. -/
structure Heap where
  obj : Nat → RedisSet
  fresh : Nat

/-- The orders in which the loops of a call visit the keys of a map, by the number
    of the loop. -/
structure Visits where
  order : Nat → List Bytes → List Bytes
  order_perm : ∀ i l, (order i l).Perm l

namespace Heap

/-- The object at `p` is written. -/
def put (h : Heap) (p : Nat) (s : RedisSet) : Heap :=
  ⟨fun q => if q = p then s else h.obj q, h.fresh⟩

/-- `&Set{…}`: a new object, at `fresh`. -/
def alloc (h : Heap) (s : RedisSet) : Heap :=
  ⟨fun q => if q = h.fresh then s else h.obj q, h.fresh + 1⟩

/-- `set.table[key] = void{}`. -/
def insertKey (h : Heap) (p : Nat) (key : Bytes) : Heap :=
  h.put p ⟨(h.obj p).table.insert key (), (h.obj p).size⟩

/-- `set.table[key] = void{}` and `set.size++`. -/
def pushKey (h : Heap) (p : Nat) (key : Bytes) : Heap :=
  h.put p ⟨(h.obj p).table.insert key (), (h.obj p).size + 1⟩

/-- `Add`. -/
def add (h : Heap) (p : Nat) (key : Bytes) : Heap := h.put p ((h.obj p).add key).1

/-- `Remove`. -/
def remove (h : Heap) (p : Nat) (key : Bytes) : Heap := h.put p ((h.obj p).remove key).1

/-- `for _, set := range sets { for key := range set.table { … } }`, from loop `i` on. -/
def eachKey (v : Visits) (body : Heap → Bytes → Heap) : Nat → List Nat → Heap → Heap
  | _, [], h => h
  | i, set :: sets, h =>
    eachKey v body (i + 1) sets ((v.order i (h.obj set).table.keys).foldl body h)

/-- `Union`.  The total size is a hint for the allocation of the map; the body of the
    second loop tests and writes as `Add` does. -/
def union (v : Visits) (h : Heap) (s : Nat) (sets : List Nat) : Nat × Heap :=
  let res := h.fresh
  let h := h.alloc newSet
  let h := (v.order 0 (h.obj s).table.keys).foldl (fun h key => h.insertKey res key) h
  let h := h.put res ⟨(h.obj res).table, (h.obj res).table.keys.length⟩
  (res, eachKey v (fun h key => h.add res key) 1 sets h)

/-- The pointer of the smallest set. -/
def smallest (h : Heap) (s : Nat) (sets : List Nat) : Nat :=
  sets.foldl (fun best set => if (h.obj set).len < (h.obj best).len then set else best) s

/-- `Intersect`, behind the choice of the smallest set. -/
def intersectFrom (v : Visits) (h : Heap) (smallest s : Nat) (sets : List Nat) : Nat × Heap :=
  let res := h.fresh
  let h := h.alloc newSet
  (res, (v.order 0 (h.obj smallest).table.keys).foldl (fun h key =>
    if smallest ≠ s ∧ ¬ (h.obj s).has key = true then h
    else if sets.all fun set => set = smallest || (h.obj set).has key then h.pushKey res key
    else h) h)

/-- `Intersect`. -/
def intersect (v : Visits) (h : Heap) (s : Nat) (sets : List Nat) : Nat × Heap :=
  if sets = [] then
    let res := h.fresh
    let h := h.alloc ⟨∅, (h.obj s).table.keys.length⟩
    (res, (v.order 0 (h.obj s).table.keys).foldl (fun h key => h.insertKey res key) h)
  else h.intersectFrom v (h.smallest s sets) s sets

/-- `Difference`. -/
def difference (v : Visits) (h : Heap) (s : Nat) (sets : List Nat) : Nat × Heap :=
  let res := h.fresh
  let h := h.alloc newSet
  let h := (v.order 0 (h.obj s).table.keys).foldl (fun h key => h.add res key) h
  (res, eachKey v (fun h key => h.remove res key) 1 sets h)

-- What a write and an allocation leave.

variable {h : Heap} {p : Nat} {x y : RedisSet}

@[simp] theorem put_alloc : (h.alloc x).put h.fresh y = h.alloc y := by
  simp only [put, alloc, mk.injEq, and_true]
  funext q
  split <;> rfl

theorem alloc_obj_of_lt (hp : p < h.fresh) : (h.alloc x).obj p = h.obj p := if_neg hp.ne

theorem alloc_obj_fresh : (h.alloc x).obj h.fresh = x := if_pos rfl

end Heap

/-! ## Loops that write one object -/

section Loops

variable {h : Heap}

/-- A loop whose body writes the new object and nothing else. -/
theorem foldl_alloc {body : Heap → Bytes → Heap} {write : RedisSet → Bytes → RedisSet}
    (hbody : ∀ x key, body (h.alloc x) key = h.alloc (write x key)) (keys : List Bytes)
    (x : RedisSet) : keys.foldl body (h.alloc x) = h.alloc (keys.foldl write x) := by
  induction keys generalizing x with
  | nil => rfl
  | cons key keys ih => rw [List.foldl_cons, List.foldl_cons, hbody, ih]

/-- Loops over some sets whose body writes the new object: a loop over the keys of
    those sets. -/
theorem eachKey_alloc (v : Visits) (body : Heap → Bytes → Heap)
    (write : RedisSet → Bytes → RedisSet)
    (hbody : ∀ x key, body (h.alloc x) key = h.alloc (write x key)) (sets : List Nat)
    (hsets : ∀ p ∈ sets, p < h.fresh) (i : Nat) (x : RedisSet) :
    ∃ keys : List Bytes, Heap.eachKey v body i sets (h.alloc x) = h.alloc (keys.foldl write x) ∧
      ∀ y, y ∈ keys ↔ ∃ p ∈ sets, (h.obj p).has y = true := by
  induction sets generalizing i x with
  | nil => exact ⟨[], rfl, by simp⟩
  | cons set sets ih =>
    obtain ⟨hset, hsets⟩ := List.forall_mem_cons.mp hsets
    rw [Heap.eachKey, Heap.alloc_obj_of_lt hset, foldl_alloc hbody]
    obtain ⟨keys, hrun, hmem⟩ := ih hsets (i + 1) _
    refine ⟨v.order i (h.obj set).table.keys ++ keys, ?_, fun y => ?_⟩
    · rw [hrun, List.foldl_append]
    · rw [List.mem_append, (v.order_perm i _).mem_iff, hmem, ← has_iff,
        List.exists_mem_cons_iff]

/-- `Add` and `Remove` write one object. -/
theorem add_alloc (x : RedisSet) (key : Bytes) :
    (h.alloc x).add h.fresh key = h.alloc (x.add key).1 := by
  rw [Heap.add, Heap.alloc_obj_fresh, Heap.put_alloc]

theorem remove_alloc (x : RedisSet) (key : Bytes) :
    (h.alloc x).remove h.fresh key = h.alloc (x.remove key).1 := by
  rw [Heap.remove, Heap.alloc_obj_fresh, Heap.put_alloc]

theorem insertKey_alloc (x : RedisSet) (key : Bytes) :
    (h.alloc x).insertKey h.fresh key = h.alloc ⟨x.table.insert key (), x.size⟩ := by
  rw [Heap.insertKey, Heap.alloc_obj_fresh, Heap.put_alloc]

theorem pushKey_alloc (x : RedisSet) (key : Bytes) :
    (h.alloc x).pushKey h.fresh key = h.alloc ⟨x.table.insert key (), x.size + 1⟩ := by
  rw [Heap.pushKey, Heap.alloc_obj_fresh, Heap.put_alloc]

end Loops

/-- The first of some keys that are new and distinct: it is added, and the others are
    still new. -/
theorem add_new {key : Bytes} {keys : List Bytes} (hnodup : (key :: keys).Nodup) {x : RedisSet}
    (hnew : ∀ k ∈ key :: keys, x.has k = false) :
    (x.add key).1 = ⟨x.table.insert key (), x.size + 1⟩ ∧
      ∀ k ∈ keys, (x.add key).1.has k = false := by
  constructor
  · rw [RedisSet.add, if_neg (by simp [hnew key List.mem_cons_self])]
  · intro k hk
    have hne : k ≠ key := by
      rintro rfl
      exact (List.nodup_cons.mp hnodup).1 hk
    rw [has_add, decide_eq_false hne, hnew k (List.mem_cons_of_mem key hk)]
    rfl

/-- Keys that are new and distinct are inserted as `Add` inserts them, and the size is
    another matter. -/
theorem foldl_insert {keys : List Bytes} (hnodup : keys.Nodup) {x y : RedisSet}
    (htable : x.table = y.table) (hnew : ∀ key ∈ keys, y.has key = false) :
    keys.foldl (fun x key => (⟨x.table.insert key (), x.size⟩ : RedisSet)) x =
      ⟨(keys.foldl (fun y key => (y.add key).1) y).table, x.size⟩ := by
  induction keys generalizing x y with
  | nil => rw [List.foldl_nil, List.foldl_nil, ← htable]
  | cons key keys ih =>
    obtain ⟨hadd, hrest⟩ := add_new hnodup hnew
    rw [List.foldl_cons, List.foldl_cons, ih hnodup.of_cons (y := (y.add key).1) ?_ hrest]
    rw [hadd, htable]

/-- Keys that are new and distinct are counted as `Add` counts them. -/
theorem foldl_push {keys : List Bytes} (hnodup : keys.Nodup) {x : RedisSet}
    (hnew : ∀ key ∈ keys, x.has key = false) :
    keys.foldl (fun x key => (⟨x.table.insert key (), x.size + 1⟩ : RedisSet)) x =
      keys.foldl (fun x key => (x.add key).1) x := by
  induction keys generalizing x with
  | nil => rfl
  | cons key keys ih =>
    obtain ⟨hadd, hrest⟩ := add_new hnodup hnew
    rw [List.foldl_cons, List.foldl_cons, ← hadd, ih hnodup.of_cons hrest]

/-! ## The methods -/

/-- **Exact**: a new object holds what `P` says and counts it, and no object that was
    there has changed. -/
structure Exact (h : Heap) (r : Nat × Heap) (P : Bytes → Prop) : Prop where
  fresh : h.fresh ≤ r.1
  unchanged : ∀ p < h.fresh, r.2.obj p = h.obj p
  members : ∀ x, (r.2.obj r.1).has x = true ↔ P x
  sized : (r.2.obj r.1).Sized

section Methods

variable {v : Visits} {h : Heap} {s : Nat} {sets : List Nat}

theorem exact_alloc {x : RedisSet} {P : Bytes → Prop} (hsized : x.Sized)
    (hmem : ∀ y, x.has y = true ↔ P y) : Exact h (h.fresh, h.alloc x) P := by
  refine ⟨le_rfl, fun p hp => Heap.alloc_obj_of_lt hp, ?_, ?_⟩
  · rw [Heap.alloc_obj_fresh]
    exact hmem
  · rw [Heap.alloc_obj_fresh]
    exact hsized

/-- The keys of a set, as a loop visits them. -/
theorem visit_nodup (v : Visits) (i : Nat) (x : RedisSet) : (v.order i x.table.keys).Nodup :=
  (v.order_perm i _).nodup_iff.mpr x.table.nodupKeys

theorem mem_visit (v : Visits) (i : Nat) (x : RedisSet) (y : Bytes) :
    y ∈ v.order i x.table.keys ↔ x.has y = true := by
  rw [(v.order_perm i _).mem_iff, has_iff]

/-- Sets with the same members have the same number of keys. -/
theorem length_keys_congr {x y : RedisSet} (hsame : ∀ k, x.has k = true ↔ y.has k = true) :
    x.table.keys.length = y.table.keys.length := by
  refine ((List.perm_ext_iff_of_nodup x.table.nodupKeys y.table.nodupKeys).mpr ?_).length_eq
  intro k
  exact has_iff.symm.trans ((hsame k).trans has_iff)

/-- A copy of a set, its members added one by one. -/
theorem copied (v : Visits) (i : Nat) (x : RedisSet) :
    ((v.order i x.table.keys).foldl (fun res key => (res.add key).1) newSet).Sized ∧
      ∀ y, ((v.order i x.table.keys).foldl (fun res key => (res.add key).1) newSet).has y = true ↔
        x.has y = true := by
  obtain ⟨hsized, hhas⟩ := foldl_add (v.order i x.table.keys) sized_newSet
  refine ⟨hsized, fun y => (hhas y).trans ?_⟩
  rw [mem_visit, not_has_newSet]
  simp

theorem union_exact (hs : s < h.fresh) (hsets : ∀ p ∈ sets, p < h.fresh) :
    Exact h (h.union v s sets) fun x => ∃ p ∈ s :: sets, (h.obj p).has x = true := by
  obtain ⟨-, hhas⟩ := copied v 0 (h.obj s)
  rw [Heap.union, Heap.alloc_obj_of_lt hs, foldl_alloc insertKey_alloc,
    foldl_insert (visit_nodup v 0 _) rfl fun _ _ => not_has_newSet, Heap.alloc_obj_fresh,
    Heap.put_alloc]
  -- the size is counted behind the first loop
  generalize (v.order 0 (h.obj s).table.keys).foldl (fun res key => (res.add key).1) newSet = x
    at hhas
  obtain ⟨keys, hrun, hmem⟩ := eachKey_alloc v (fun g key => g.add h.fresh key)
    (fun res key => (res.add key).1) add_alloc sets hsets 1 x.copy
  obtain ⟨hsized, hhas'⟩ := foldl_add keys x.sized_copy
  refine hrun ▸ exact_alloc hsized fun y => (hhas' y).trans ?_
  rw [hmem, List.exists_mem_cons_iff, ← hhas y]
  rfl

theorem difference_exact (hs : s < h.fresh) (hsets : ∀ p ∈ sets, p < h.fresh) :
    Exact h (h.difference v s sets) fun x =>
      (h.obj s).has x = true ∧ ∀ p ∈ sets, (h.obj p).has x = false := by
  obtain ⟨hsized, hhas⟩ := copied v 0 (h.obj s)
  rw [Heap.difference, Heap.alloc_obj_of_lt hs, foldl_alloc add_alloc]
  obtain ⟨keys, hrun, hmem⟩ := eachKey_alloc v (fun g key => g.remove h.fresh key)
    (fun res key => (res.remove key).1) remove_alloc sets hsets 1
    ((v.order 0 (h.obj s).table.keys).foldl (fun res key => (res.add key).1) newSet)
  obtain ⟨hsized', hhas'⟩ := foldl_remove keys hsized
  refine hrun ▸ exact_alloc hsized' fun y => (hhas' y).trans ?_
  rw [hmem, hhas y]
  simp

/-- The loop of `Intersect`, when the objects do not change, keeps the keys that pass
    the tests. -/
theorem intersectFrom_eq {c : Nat} (hc : c < h.fresh) (hs : s < h.fresh)
    (hsets : ∀ p ∈ sets, p < h.fresh) : h.intersectFrom v c s sets =
      (h.fresh, h.alloc (((v.order 0 (h.obj c).table.keys).filter fun key =>
        (c = s || (h.obj s).has key) && sets.all fun set => set = c || (h.obj set).has key).foldl
          (fun res key => (⟨res.table.insert key (), res.size + 1⟩ : RedisSet)) newSet)) := by
  rw [Heap.intersectFrom, Heap.alloc_obj_of_lt hc, List.foldl_filter]
  refine congrArg (Prod.mk h.fresh) (foldl_alloc (fun x key => ?_) _ _)
  have hall : (sets.all fun set => set = c || ((h.alloc x).obj set).has key) =
      sets.all fun set => set = c || (h.obj set).has key := by
    rw [Bool.eq_iff_iff, List.all_eq_true, List.all_eq_true]
    refine forall₂_congr fun set hset => ?_
    rw [Heap.alloc_obj_of_lt (hsets set hset)]
  rw [Heap.alloc_obj_of_lt hs, hall, pushKey_alloc]
  generalize (sets.all fun set => set = c || (h.obj set).has key) = others
  generalize (h.obj s).has key = receiver
  by_cases hcs : c = s
  · cases others <;> simp [hcs]
  · cases others <;> cases receiver <;> simp [hcs]

/-- Whichever of the sets is taken for the smallest, a key is kept iff all have it:
    where the test is left out, the key is one of that very set. -/
theorem intersectFrom_exact {c : Nat} (hc : c ∈ s :: sets) (hall : ∀ p ∈ s :: sets, p < h.fresh) :
    Exact h (h.intersectFrom v c s sets) fun x => ∀ p ∈ s :: sets, (h.obj p).has x = true := by
  obtain ⟨hs, hsets⟩ := List.forall_mem_cons.mp hall
  rw [intersectFrom_eq (hall c hc) hs hsets,
    foldl_push ((visit_nodup v 0 _).filter _) fun _ _ => not_has_newSet]
  obtain ⟨hsized, hhas⟩ := foldl_add _ sized_newSet
  refine exact_alloc hsized fun y => (hhas y).trans ?_
  simp only [not_has_newSet, Bool.false_eq_true, false_or, List.mem_filter, mem_visit,
    Bool.and_eq_true, Bool.or_eq_true, decide_eq_true_eq, List.all_eq_true, List.forall_mem_cons]
  constructor
  · rintro ⟨hy, hreceiver, hothers⟩
    refine ⟨?_, fun p hp => ?_⟩
    · rcases hreceiver with rfl | hin
      · exact hy
      · exact hin
    · rcases hothers p hp with rfl | hin
      · exact hy
      · exact hin
  · rintro ⟨hreceiver, hothers⟩
    refine ⟨?_, .inr hreceiver, fun p hp => .inr (hothers p hp)⟩
    rcases List.mem_cons.mp hc with rfl | hin
    · exact hreceiver
    · exact hothers c hin

theorem smallest_mem (h : Heap) (s : Nat) (sets : List Nat) : h.smallest s sets ∈ s :: sets :=
  foldl_pick_mem (fun set best => (h.obj set).len < (h.obj best).len) s sets

theorem intersect_exact (hall : ∀ p ∈ s :: sets, p < h.fresh) :
    Exact h (h.intersect v s sets) fun x => ∀ p ∈ s :: sets, (h.obj p).has x = true := by
  rw [Heap.intersect]
  by_cases hnil : sets = []
  · subst hnil
    have hs : s < h.fresh := hall s List.mem_cons_self
    obtain ⟨-, hhas⟩ := copied v 0 (h.obj s)
    rw [if_pos rfl]
    dsimp only
    rw [Heap.alloc_obj_of_lt hs, foldl_alloc insertKey_alloc,
      foldl_insert (x := ⟨∅, (h.obj s).table.keys.length⟩) (y := newSet) (visit_nodup v 0 _) rfl
        fun _ _ => not_has_newSet]
    refine exact_alloc ?_ fun y => (hhas y).trans (by simp)
    exact congrArg Nat.cast (length_keys_congr hhas).symm
  · rw [if_neg hnil]
    exact intersectFrom_exact (smallest_mem h s sets) hall

/-- **The objects follow the values**: what the commands compute with sets as values
    has the members and the size that the methods give the new object. -/
theorem objects_follow_values (hall : ∀ p ∈ s :: sets, p < h.fresh) {r : Nat × Heap}
    {value : RedisSet}
    (hr : (r = h.union v s sets ∧ value = (h.obj s).union (sets.map h.obj)) ∨
      (r = h.intersect v s sets ∧ value = (h.obj s).intersect (sets.map h.obj)) ∨
      (r = h.difference v s sets ∧ value = (h.obj s).difference (sets.map h.obj))) :
    (∀ x, (r.2.obj r.1).has x = true ↔ value.has x = true) ∧ (r.2.obj r.1).size = value.size := by
  obtain ⟨hs, hsets⟩ := List.forall_mem_cons.mp hall
  have hsame : (∀ x, (r.2.obj r.1).has x = true ↔ value.has x = true) ∧
      (r.2.obj r.1).Sized ∧ value.Sized := by
    rcases hr with ⟨rfl, rfl⟩ | ⟨rfl, rfl⟩ | ⟨rfl, rfl⟩
    · have hexact := union_exact (v := v) hs hsets
      obtain ⟨hsized, hhas⟩ := union_spec (h.obj s) (sets.map h.obj)
      refine ⟨fun x => ?_, hexact.sized, hsized⟩
      rw [hexact.members, hhas]
      simp
    · have hexact := intersect_exact (v := v) hall
      obtain ⟨hsized, hhas⟩ := intersect_spec (h.obj s) (sets.map h.obj)
      refine ⟨fun x => ?_, hexact.sized, hsized⟩
      rw [hexact.members, hhas]
      simp
    · have hexact := difference_exact (v := v) hs hsets
      obtain ⟨hsized, hhas⟩ := difference_spec (h.obj s) (sets.map h.obj)
      refine ⟨fun x => ?_, hexact.sized, hsized⟩
      rw [hexact.members, hhas]
      simp
  obtain ⟨hmem, hsized, hsized'⟩ := hsame
  exact ⟨hmem, by rw [hsized, hsized', length_keys_congr hmem]⟩

end Methods

/-- **SET ALGEBRA IS EXACT**: for every receiver and all arguments, however often a
    set is given, the three methods make new sets with exactly the members of the
    union, the intersection and the difference, whose size counts them, and change
    no set that was there; and `Intersect` would have done so with any of the sets
    taken for the smallest. -/
theorem set_algebra_exact (v : Visits) (h : Heap) (s : Nat) (sets : List Nat)
    (hall : ∀ p ∈ s :: sets, p < h.fresh) :
    Exact h (h.union v s sets) (fun x => ∃ p ∈ s :: sets, (h.obj p).has x = true) ∧
    Exact h (h.intersect v s sets) (fun x => ∀ p ∈ s :: sets, (h.obj p).has x = true) ∧
    (∀ c ∈ s :: sets, Exact h (h.intersectFrom v c s sets) fun x =>
      ∀ p ∈ s :: sets, (h.obj p).has x = true) ∧
    Exact h (h.difference v s sets) (fun x =>
      (h.obj s).has x = true ∧ ∀ p ∈ sets, (h.obj p).has x = false) := by
  obtain ⟨hs, hsets⟩ := List.forall_mem_cons.mp hall
  exact ⟨union_exact hs hsets, intersect_exact hall, fun c hc => intersectFrom_exact hc hall,
    difference_exact hs hsets⟩

/-- Three sets, `a b`, `b c` and `c`: the intersection of the first with itself and the
    second, and the difference of the second and the other two. -/
theorem set_algebra_exact_three :
    let h : Heap := ⟨fun p =>
      if p = 0 then ⟨AList.insert [97] () (AList.insert [98] () ∅), 2⟩
      else if p = 1 then ⟨AList.insert [98] () (AList.insert [99] () ∅), 2⟩
      else ⟨AList.insert [99] () ∅, 1⟩, 3⟩
    let v : Visits := ⟨fun _ l => l.reverse, fun _ l => List.reverse_perm l⟩
    Exact h (h.intersect v 0 [0, 1]) (fun x => ∀ p ∈ [0, 0, 1], (h.obj p).has x = true) ∧
      Exact h (h.difference v 1 [0, 2]) fun x =>
        (h.obj 1).has x = true ∧ ∀ p ∈ [0, 2], (h.obj p).has x = false := by
  intro h v
  exact ⟨(set_algebra_exact v h 0 [0, 1] (by decide)).2.1,
    (set_algebra_exact v h 1 [0, 2] (by decide)).2.2.2⟩

end TinySet
