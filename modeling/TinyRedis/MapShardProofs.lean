import TinyRedis.HashKeyProofs

/-! # One shard of the concurrent map

    A shard holds its keys in a linked list or, from eight keys on, in a
    red-black tree; it goes back to a list at six.  The tree is third-party
    code and enters through its operations (`RedBlackTree`), assumed to be
    those of an ordered map (`RedBlackTree.Correct`).

    Whatever it is made of, a shard is viewed as the finite map `get`, and
    every operation is specified by what it does to that view. -/

namespace TinyMap

open GoString

variable {V T : Type} {f : Bytes → Option V} {k : Bytes}

/-- `redblacktree.Tree` with string keys, as far as the map uses it;
    `entries` is what its iterator runs through. -/
structure RedBlackTree (V T : Type) where
  empty : T
  get : T → Bytes → Option V
  put : T → Bytes → V → T
  remove : T → Bytes → T
  size : T → Nat
  entries : T → List (Bytes × V)

/-- The tree is an ordered map. -/
structure RedBlackTree.Correct (R : RedBlackTree V T) : Prop where
  get_empty : ∀ k, R.get R.empty k = none
  get_put : ∀ t k v, R.get (R.put t k v) = Function.update (R.get t) k (some v)
  get_remove : ∀ t k, R.get (R.remove t k) = Function.update (R.get t) k none
  mem_entries : ∀ t k v, (k, v) ∈ R.entries t ↔ R.get t k = some v
  sorted : ∀ t, (R.entries t).Pairwise fun a b => a.1 < b.1
  size_eq : ∀ t, R.size t = (R.entries t).length

/-- `linkedList`: the chain of nodes from `head`, and the counter. -/
structure LinkedList (V : Type) where
  nodes : List (Bytes × V)
  count : Int

namespace LinkedList

/-- `&linkedList{}`. -/
def empty : LinkedList V := ⟨[], 0⟩

/-- The loop of `Get`. -/
def getNode (key : Bytes) : List (Bytes × V) → Option V
  | [] => none
  | node :: rest => if node.1 = key then some node.2 else getNode key rest

/-- `Get`. -/
def get (l : LinkedList V) (key : Bytes) : Option V := getNode key l.nodes

/-- The loop of `Put`: the chain with the key's value replaced, if it is
    there. -/
def setNode (key : Bytes) (value : V) : List (Bytes × V) → Option (List (Bytes × V))
  | [] => none
  | node :: rest =>
    if node.1 = key then some ((node.1, value) :: rest)
    else (setNode key value rest).map (node :: ·)

/-- `Put`: a new key goes to the head. -/
def put (l : LinkedList V) (key : Bytes) (value : V) : LinkedList V × Bool :=
  match setNode key value l.nodes with
  | some nodes => ({ l with nodes := nodes }, false)
  | none => (⟨(key, value) :: l.nodes, l.count + 1⟩, true)

/-- Unlinking the key's node, at the head or behind it. -/
def removeNode (key : Bytes) : List (Bytes × V) → Option (List (Bytes × V))
  | [] => none
  | node :: rest =>
    if node.1 = key then some rest else (removeNode key rest).map (node :: ·)

/-- `Remove`. -/
def remove (l : LinkedList V) (key : Bytes) : LinkedList V × Bool :=
  match removeNode key l.nodes with
  | some nodes => (⟨nodes, l.count - 1⟩, true)
  | none => (l, false)

/-- `Keys`. -/
def keys (l : LinkedList V) : List Bytes := l.nodes.map Prod.fst

end LinkedList

/-- `dataStructure`: a `*linkedList` or a `*treeWrapper`. -/
inductive DataStructure (V T : Type) where
  | linkedList (l : LinkedList V)
  | treeWrapper (t : T)

section Operations

variable (R : RedBlackTree V T)

namespace DataStructure

/-- `Get`. -/
def get : DataStructure V T → Bytes → Option V
  | .linkedList l, key => l.get key
  | .treeWrapper t, key => R.get t key

/-- `Put`: whether the key is new. -/
def put : DataStructure V T → Bytes → V → DataStructure V T × Bool
  | .linkedList l, key, value => (.linkedList (l.put key value).1, (l.put key value).2)
  | .treeWrapper t, key, value => (.treeWrapper (R.put t key value), (R.get t key).isNone)

/-- `Remove`: whether the key was there. -/
def remove : DataStructure V T → Bytes → DataStructure V T × Bool
  | .linkedList l, key => (.linkedList (l.remove key).1, (l.remove key).2)
  | .treeWrapper t, key =>
    if (R.get t key).isSome then (.treeWrapper (R.remove t key), true)
    else (.treeWrapper t, false)

/-- `Size`. -/
def size : DataStructure V T → Int
  | .linkedList l => l.count
  | .treeWrapper t => R.size t

/-- `Keys`. -/
def keys : DataStructure V T → List Bytes
  | .linkedList l => l.keys
  | .treeWrapper t => (R.entries t).map Prod.fst

/-- `drainIntoTree` of a list that has reached `TreeifyThreshold`. -/
def treeify : DataStructure V T → DataStructure V T
  | .linkedList l =>
    if l.count ≥ 8 then
      .treeWrapper (l.nodes.foldl (fun t node => R.put t node.1 node.2) R.empty)
    else .linkedList l
  | .treeWrapper t => .treeWrapper t

/-- A tree that has come down to `UntreeifyThreshold` is put into a list. -/
def untreeify : DataStructure V T → DataStructure V T
  | .linkedList l => .linkedList l
  | .treeWrapper t =>
    if R.size t ≤ 6 then
      .linkedList ((R.entries t).foldl (fun l e => (l.put e.1 e.2).1) LinkedList.empty)
    else .treeWrapper t

/-- What `Set`, and `SetIfNotExist` of a key that is not there, do to the
    key's shard. -/
def insert (d : DataStructure V T) (key : Bytes) (value : V) : DataStructure V T × Bool :=
  let r := d.put R key value
  if r.2 then (r.1.treeify R, true) else (r.1, false)

/-- What `Delete` does to the key's shard. -/
def delete (d : DataStructure V T) (key : Bytes) : DataStructure V T × Bool :=
  let r := d.remove R key
  if r.2 then (r.1.untreeify R, true) else (r.1, false)

end DataStructure

end Operations

/-! ## Key lists of finite maps -/

/-- `keys` lists the domain of `f`, each key once. -/
structure Lists (f : Bytes → Option V) (keys : List Bytes) : Prop where
  nodup : keys.Nodup
  mem : ∀ k, k ∈ keys ↔ f k ≠ none

/-- Two lists of one domain have one length. -/
theorem Lists.length_eq {xs ys : List Bytes} (hx : Lists f xs) (hy : Lists f ys) :
    xs.length = ys.length := by
  refine List.Perm.length_eq ((List.perm_ext_iff_of_nodup hx.nodup hy.nodup).mpr fun k => ?_)
  rw [hx.mem, hy.mem]

/-- A value under a new key adds that key. -/
theorem Lists.cons {xs : List Bytes} (h : Lists f xs) {k : Bytes} (hk : f k = none) (v : V) :
    Lists (Function.update f k (some v)) (k :: xs) := by
  refine ⟨List.nodup_cons.mpr ⟨fun hm => (h.mem k).mp hm hk, h.nodup⟩, fun k' => ?_⟩
  rw [List.mem_cons, h.mem]
  by_cases hkk : k' = k
  · rw [hkk, Function.update_self]
    exact ⟨fun _ => Option.some_ne_none v, fun _ => .inl rfl⟩
  · rw [Function.update_of_ne hkk]
    exact ⟨fun hm => hm.resolve_left hkk, .inr⟩

/-- A value under a key that is there adds none. -/
theorem Lists.replace {xs : List Bytes} (h : Lists f xs) {k : Bytes} (hk : f k ≠ none) (v : V) :
    Lists (Function.update f k (some v)) xs := by
  refine ⟨h.nodup, fun k' => ?_⟩
  rw [h.mem]
  by_cases hkk : k' = k
  · rw [hkk, Function.update_self]
    exact ⟨fun _ => Option.some_ne_none v, fun _ => hk⟩
  · rw [Function.update_of_ne hkk]

/-- Dropping a key removes it from the list. -/
theorem Lists.erase {xs : List Bytes} (h : Lists f xs) (k : Bytes) :
    Lists (Function.update f k none) (xs.erase k) := by
  refine ⟨h.nodup.erase k, fun k' => ?_⟩
  rw [h.nodup.mem_erase_iff, h.mem]
  by_cases hkk : k' = k
  · rw [hkk, Function.update_self]
    exact ⟨fun hm => absurd rfl hm.1, fun hn => absurd rfl hn⟩
  · rw [Function.update_of_ne hkk]
    exact ⟨fun hm => hm.2, fun hn => ⟨hkk, hn⟩⟩

/-! ## The linked list -/

namespace LinkedList

/-- Where the loops of `Get`, `Put` and `Remove` find a key. -/
theorem getNode_ne_none : ∀ {nodes : List (Bytes × V)},
    k ∈ nodes.map Prod.fst ↔ getNode k nodes ≠ none := by
  intro nodes
  induction nodes with
  | nil => exact ⟨fun h => absurd h List.not_mem_nil, fun h => absurd rfl h⟩
  | cons node rest ih =>
    rw [List.map_cons, List.mem_cons, getNode]
    by_cases hk : node.1 = k
    · rw [if_pos hk]
      exact ⟨fun _ => Option.some_ne_none _, fun _ => .inl hk.symm⟩
    · rw [if_neg hk, ← ih]
      exact ⟨fun h => h.resolve_left fun e => hk e.symm, .inr⟩

/-- A loop that stops with a result at the key fails exactly on an absent key. -/
theorem loop_none {W : Type} {loop : List (Bytes × V) → Option W} (hnil : loop [] = none)
    (hcons : ∀ node rest, loop (node :: rest) = none ↔ node.1 ≠ k ∧ loop rest = none) :
    ∀ {nodes}, loop nodes = none ↔ getNode k nodes = none := by
  intro nodes
  induction nodes with
  | nil => exact ⟨fun _ => rfl, fun _ => hnil⟩
  | cons node rest ih =>
    rw [hcons, ih, getNode]
    by_cases hk : node.1 = k
    · simp [hk]
    · simp [hk]

/-- `Put`'s loop. -/
theorem setNode_none {v : V} {nodes : List (Bytes × V)} :
    setNode k v nodes = none ↔ getNode k nodes = none :=
  loop_none rfl fun node rest => by by_cases hk : node.1 = k <;> simp [setNode, hk]

/-- `Put`'s loop changes the value of the key and nothing else. -/
theorem setNode_some {v : V} : ∀ {nodes nodes' : List (Bytes × V)},
    setNode k v nodes = some nodes' →
      nodes'.map Prod.fst = nodes.map Prod.fst ∧
        ∀ k', getNode k' nodes' = if k' = k then some v else getNode k' nodes := by
  intro nodes
  induction nodes with
  | nil => exact fun h => absurd h.symm (Option.some_ne_none _)
  | cons node rest ih =>
    intro nodes' h
    rw [setNode] at h
    by_cases hk : node.1 = k
    · rw [if_pos hk] at h
      obtain rfl := Option.some.inj h
      refine ⟨rfl, fun k' => ?_⟩
      rw [getNode, getNode]
      by_cases hkk : k' = k
      · rw [if_pos (hk.trans hkk.symm), if_pos hkk]
      · have hne : ¬ node.1 = k' := fun e => hkk (e.symm.trans hk)
        rw [if_neg hne, if_neg hkk, if_neg hne]
    · rw [if_neg hk] at h
      obtain ⟨rest', hr, rfl⟩ := Option.map_eq_some_iff.mp h
      obtain ⟨hkeys, hget⟩ := ih hr
      refine ⟨by rw [List.map_cons, List.map_cons, hkeys], fun k' => ?_⟩
      rw [getNode, getNode, hget k']
      by_cases hn : node.1 = k'
      · rw [if_pos hn, if_pos hn, if_neg fun e => hk (hn.trans e)]
      · rw [if_neg hn, if_neg hn]

/-- `Remove`'s loop. -/
theorem removeNode_none {nodes : List (Bytes × V)} :
    removeNode k nodes = none ↔ getNode k nodes = none :=
  loop_none rfl fun node rest => by by_cases hk : node.1 = k <;> simp [removeNode, hk]

/-- `Remove`'s loop takes out the key's node and nothing else. -/
theorem removeNode_some : ∀ {nodes nodes' : List (Bytes × V)},
    (nodes.map Prod.fst).Nodup → removeNode k nodes = some nodes' →
      (nodes'.map Prod.fst).Nodup ∧ nodes.length = nodes'.length + 1 ∧
        ∀ k', getNode k' nodes' = if k' = k then none else getNode k' nodes := by
  intro nodes
  induction nodes with
  | nil => exact fun _ h => absurd h.symm (Option.some_ne_none _)
  | cons node rest ih =>
    intro nodes' hnd h
    obtain ⟨hnot, hrest⟩ := List.nodup_cons.mp hnd
    rw [removeNode] at h
    by_cases hk : node.1 = k
    · rw [if_pos hk] at h
      obtain rfl := Option.some.inj h
      refine ⟨hrest, rfl, fun k' => ?_⟩
      rw [getNode]
      by_cases hkk : k' = k
      · rw [if_pos hkk, hkk, ← hk]
        exact not_not.mp fun hne => hnot (getNode_ne_none.mpr hne)
      · rw [if_neg hkk, if_neg fun e => hkk (e.symm.trans hk)]
    · rw [if_neg hk] at h
      obtain ⟨rest', hr, rfl⟩ := Option.map_eq_some_iff.mp h
      obtain ⟨hnd', hlen, hget⟩ := ih hrest hr
      refine ⟨List.nodup_cons.mpr ⟨fun hm => hnot ?_, hnd'⟩, by simp [hlen], fun k' => ?_⟩
      · have hne := getNode_ne_none.mp hm
        rw [hget, if_neg hk] at hne
        exact getNode_ne_none.mpr hne
      · rw [getNode, getNode, hget k']
        by_cases hn : node.1 = k'
        · rw [if_pos hn, if_pos hn, if_neg fun e => hk (hn.trans e)]
        · rw [if_neg hn, if_neg hn]

/-- Distinct keys, counted. -/
structure Wf (l : LinkedList V) : Prop where
  nodup : l.keys.Nodup
  count : l.count = l.nodes.length

theorem empty_wf : (empty : LinkedList V).Wf := ⟨List.nodup_nil, rfl⟩

theorem Wf.lists {l : LinkedList V} (h : l.Wf) : Lists l.get l.keys :=
  ⟨h.nodup, fun _ => getNode_ne_none⟩

/-- `Put` on a list. -/
theorem Wf.put {l : LinkedList V} (h : l.Wf) (k : Bytes) (v : V) :
    (l.put k v).1.Wf ∧ (l.put k v).1.get = Function.update l.get k (some v) ∧
      ((l.put k v).2 = true ↔ l.get k = none) := by
  unfold LinkedList.put
  cases hs : setNode k v l.nodes with
  | some nodes =>
    obtain ⟨hkeys, hget⟩ := setNode_some hs
    have hne : l.get k ≠ none := fun hn => by
      rw [setNode_none.mpr hn] at hs
      cases hs
    have hlen : nodes.length = l.nodes.length := by
      rw [← List.length_map (f := Prod.fst), hkeys, List.length_map]
    refine ⟨⟨?_, ?_⟩, funext fun k' => ?_, ?_⟩
    · show (nodes.map Prod.fst).Nodup
      rw [hkeys]
      exact h.nodup
    · show l.count = nodes.length
      rw [hlen, h.count]
    · rw [Function.update_apply]
      exact hget k'
    · exact ⟨fun hf => absurd hf Bool.false_ne_true, fun hn => absurd hn hne⟩
  | none =>
    have hn : l.get k = none := setNode_none.mp hs
    refine ⟨⟨(h.lists.cons hn v).nodup, ?_⟩, funext fun k' => ?_, fun _ => hn, fun _ => rfl⟩
    · show l.count + 1 = ((l.nodes.length + 1 : Nat) : Int)
      rw [h.count]
      rfl
    · show (if k = k' then some v else getNode k' l.nodes) = _
      rw [Function.update_apply]
      by_cases hkk : k' = k
      · rw [if_pos hkk.symm, if_pos hkk]
      · rw [if_neg fun e => hkk e.symm, if_neg hkk]
        rfl

/-- `Remove` on a list. -/
theorem Wf.remove {l : LinkedList V} (h : l.Wf) (k : Bytes) :
    (l.remove k).1.Wf ∧ (l.remove k).1.get = Function.update l.get k none ∧
      ((l.remove k).2 = true ↔ l.get k ≠ none) := by
  unfold LinkedList.remove
  cases hr : removeNode k l.nodes with
  | some nodes =>
    obtain ⟨hnd, hlen, hget⟩ := removeNode_some h.nodup hr
    have hne : l.get k ≠ none := fun hn => by
      rw [removeNode_none.mpr hn] at hr
      cases hr
    refine ⟨⟨hnd, ?_⟩, funext fun k' => ?_, fun _ => hne, fun _ => rfl⟩
    · show l.count - 1 = nodes.length
      rw [h.count, hlen]
      omega
    · rw [Function.update_apply]
      exact hget k'
  | none =>
    have hn : l.get k = none := removeNode_none.mp hr
    refine ⟨h, (Function.update_eq_self_iff.mpr hn.symm).symm, ?_⟩
    exact ⟨fun hf => absurd hf Bool.false_ne_true, fun hne => absurd hn hne⟩

end LinkedList

/-! ## Either representation -/

/-- A map with entries put into it one after the other. -/
def overlay (g : Bytes → Option V) (es : List (Bytes × V)) : Bytes → Option V :=
  es.foldl (fun (g : Bytes → Option V) e => Function.update g e.1 (some e.2)) g

/-- Putting all entries of `f`, with distinct keys, makes `f`. -/
theorem overlay_eq : ∀ {es : List (Bytes × V)} {g : Bytes → Option V},
    (es.map Prod.fst).Nodup → (∀ k v, (k, v) ∈ es → f k = some v) →
      (∀ k, k ∉ es.map Prod.fst → g k = f k) →
      overlay g es = f := by
  intro es
  induction es with
  | nil => exact fun _ _ hg => funext fun k => hg k List.not_mem_nil
  | cons e rest ih =>
    intro g hnd hf hg
    obtain ⟨hnot, hrest⟩ := List.nodup_cons.mp hnd
    refine ih hrest (fun k v hm => hf k v (List.mem_cons_of_mem e hm)) fun k hk => ?_
    show Function.update g e.1 (some e.2) k = f k
    by_cases hke : k = e.1
    · rw [hke, Function.update_self, hf e.1 e.2 List.mem_cons_self]
    · rw [Function.update_of_ne hke]
      exact hg k fun hm => (List.mem_cons.mp hm).elim hke hk

theorem getNode_of_mem {v : V} : ∀ {nodes : List (Bytes × V)},
    (nodes.map Prod.fst).Nodup → (k, v) ∈ nodes → LinkedList.getNode k nodes = some v := by
  intro nodes
  induction nodes with
  | nil => exact fun _ h => absurd h List.not_mem_nil
  | cons node rest ih =>
    intro hnd hm
    obtain ⟨hnot, hrest⟩ := List.nodup_cons.mp hnd
    rw [LinkedList.getNode]
    rcases List.mem_cons.mp hm with rfl | hm
    · exact if_pos rfl
    · have hne : node.1 ≠ k := fun e => hnot (e ▸ List.mem_map_of_mem hm)
      rw [if_neg hne]
      exact ih hrest hm

section Data

variable {R : RedBlackTree V T}

/-- The keys the tree's iterator runs through. -/
theorem RedBlackTree.Correct.lists (hR : R.Correct) (t : T) :
    Lists (R.get t) ((R.entries t).map Prod.fst) := by
  refine ⟨?_, fun k => ?_⟩
  · rw [List.nodup_iff_pairwise_ne, List.pairwise_map]
    exact (hR.sorted t).imp fun h => h.ne
  · rw [List.mem_map, Option.ne_none_iff_exists']
    constructor
    · rintro ⟨⟨k', v⟩, hm, rfl⟩
      exact ⟨v, (hR.mem_entries t k' v).mp hm⟩
    · rintro ⟨v, hv⟩
      exact ⟨(k, v), (hR.mem_entries t k v).mpr hv, rfl⟩

namespace DataStructure

/-- A list has distinct keys and counts them; a tree does by itself. -/
def Wf : DataStructure V T → Prop
  | .linkedList l => l.Wf
  | .treeWrapper _ => True

/-- `Keys` lists the keys, and `Size` is their number. -/
theorem Wf.lists (hR : R.Correct) {d : DataStructure V T} (h : d.Wf) :
    Lists (d.get R) (d.keys R) ∧ d.size R = (d.keys R).length := by
  cases d with
  | linkedList l =>
    refine ⟨LinkedList.Wf.lists h, ?_⟩
    show l.count = ((l.nodes.map Prod.fst).length : Int)
    rw [List.length_map]
    exact LinkedList.Wf.count h
  | treeWrapper t =>
    refine ⟨hR.lists t, ?_⟩
    show (R.size t : Int) = (((R.entries t).map Prod.fst).length : Int)
    rw [List.length_map, hR.size_eq]

theorem Wf.put (hR : R.Correct) {d : DataStructure V T} (h : d.Wf) (k : Bytes) (v : V) :
    (d.put R k v).1.Wf ∧ (d.put R k v).1.get R = Function.update (d.get R) k (some v) ∧
      ((d.put R k v).2 = true ↔ d.get R k = none) := by
  cases d with
  | linkedList l => exact LinkedList.Wf.put h k v
  | treeWrapper t => exact ⟨trivial, hR.get_put t k v, Option.isNone_iff_eq_none⟩

theorem Wf.remove (hR : R.Correct) {d : DataStructure V T} (h : d.Wf) (k : Bytes) :
    (d.remove R k).1.Wf ∧ (d.remove R k).1.get R = Function.update (d.get R) k none ∧
      ((d.remove R k).2 = true ↔ d.get R k ≠ none) := by
  cases d with
  | linkedList l => exact LinkedList.Wf.remove h k
  | treeWrapper t =>
    rw [DataStructure.remove]
    by_cases hs : (R.get t k).isSome = true
    · rw [if_pos hs]
      exact ⟨trivial, hR.get_remove t k, fun _ => Option.isSome_iff_ne_none.mp hs, fun _ => rfl⟩
    · rw [if_neg hs]
      have hn : R.get t k = none := Option.not_isSome_iff_eq_none.mp hs
      refine ⟨trivial, (Function.update_eq_self_iff.mpr hn.symm).symm, ?_⟩
      exact ⟨fun hf => absurd hf Bool.false_ne_true, fun hne => absurd hn hne⟩

/-- Draining a list into a tree keeps the map. -/
theorem Wf.treeify (hR : R.Correct) {d : DataStructure V T} (h : d.Wf) :
    (d.treeify R).Wf ∧ (d.treeify R).get R = d.get R := by
  cases d with
  | treeWrapper t => exact ⟨trivial, rfl⟩
  | linkedList l =>
    rw [DataStructure.treeify]
    by_cases hc : l.count ≥ 8
    · rw [if_pos hc]
      refine ⟨trivial, ?_⟩
      have hfold : ∀ (nodes : List (Bytes × V)) (t : T),
          R.get (nodes.foldl (fun t node => R.put t node.1 node.2) t) =
            overlay (R.get t) nodes := by
        intro nodes
        induction nodes with
        | nil => exact fun _ => rfl
        | cons node rest ih =>
          intro t
          rw [List.foldl_cons, ih, hR.get_put]
          rfl
      have hnd : (l.nodes.map Prod.fst).Nodup := LinkedList.Wf.nodup h
      refine (hfold l.nodes R.empty).trans (overlay_eq hnd ?_ fun k hk => ?_)
      · exact fun k v hm => getNode_of_mem hnd hm
      · rw [hR.get_empty]
        exact (not_not.mp fun hne => hk (LinkedList.getNode_ne_none.mpr hne)).symm
    · rw [if_neg hc]
      exact ⟨h, rfl⟩

/-- Putting a tree into a list keeps the map. -/
theorem Wf.untreeify (hR : R.Correct) {d : DataStructure V T} (h : d.Wf) :
    (d.untreeify R).Wf ∧ (d.untreeify R).get R = d.get R := by
  cases d with
  | linkedList l => exact ⟨h, rfl⟩
  | treeWrapper t =>
    rw [DataStructure.untreeify]
    by_cases hc : R.size t ≤ 6
    · rw [if_pos hc]
      have hfold : ∀ (es : List (Bytes × V)) (l : LinkedList V), l.Wf →
          (es.foldl (fun l e => (l.put e.1 e.2).1) l).Wf ∧
            (es.foldl (fun l e => (l.put e.1 e.2).1) l).get =
              overlay l.get es := by
        intro es
        induction es with
        | nil => exact fun l hl => ⟨hl, rfl⟩
        | cons e rest ih =>
          intro l hl
          obtain ⟨hwf, hget, _⟩ := hl.put e.1 e.2
          obtain ⟨hwf', hget'⟩ := ih _ hwf
          exact ⟨hwf', by rw [List.foldl_cons, hget', hget]; rfl⟩
      obtain ⟨hwf, hget⟩ := hfold (R.entries t) LinkedList.empty LinkedList.empty_wf
      refine ⟨hwf, hget.trans (overlay_eq (hR.lists t).nodup ?_ fun k hk => ?_)⟩
      · exact fun k v hm => (hR.mem_entries t k v).mp hm
      · exact (not_not.mp fun hne => hk (((hR.lists t).mem k).mpr hne)).symm
    · rw [if_neg hc]
      exact ⟨trivial, rfl⟩

/-- At most seven keys in a list, at least seven in a tree. -/
def Bounded (R : RedBlackTree V T) : DataStructure V T → Prop
  | .linkedList l => l.count ≤ 7
  | .treeWrapper t => 7 ≤ R.size t

/-- **The shard invariant.** -/
structure Ok (R : RedBlackTree V T) (d : DataStructure V T) : Prop where
  wf : d.Wf
  bounded : d.Bounded R

/-- The size after a put. -/
theorem Wf.size_put (hR : R.Correct) {d : DataStructure V T} (h : d.Wf) (k : Bytes) (v : V) :
    (d.put R k v).1.size R = d.size R + if (d.put R k v).2 then 1 else 0 := by
  obtain ⟨hwf, hget, hnew⟩ := h.put hR k v
  obtain ⟨hl, hsize⟩ := h.lists hR
  obtain ⟨hl', hsize'⟩ := hwf.lists hR
  rw [hget] at hl'
  rw [hsize, hsize']
  by_cases hb : (d.put R k v).2 = true
  · rw [if_pos hb, hl'.length_eq (hl.cons (hnew.mp hb) v), List.length_cons]
    rfl
  · rw [if_neg hb, hl'.length_eq (hl.replace (fun hn => hb (hnew.mpr hn)) v), add_zero]

/-- The size after a removal. -/
theorem Wf.size_remove (hR : R.Correct) {d : DataStructure V T} (h : d.Wf) {k : Bytes}
    (hb : (d.remove R k).2 = true) : (d.remove R k).1.size R + 1 = d.size R := by
  obtain ⟨hwf, hget, hold⟩ := h.remove hR k
  obtain ⟨hl, hsize⟩ := h.lists hR
  obtain ⟨hl', hsize'⟩ := hwf.lists hR
  rw [hget] at hl'
  have hmem := (hl.mem k).mpr (hold.mp hb)
  have hpos := List.length_pos_of_mem hmem
  rw [hsize, hsize', hl'.length_eq (hl.erase k), List.length_erase_of_mem hmem]
  omega

/-- Equal maps have equal sizes. -/
theorem Wf.size_congr (hR : R.Correct) {d d' : DataStructure V T} (h : d.Wf) (h' : d'.Wf)
    (hget : d'.get R = d.get R) : d'.size R = d.size R := by
  obtain ⟨hl, hsize⟩ := h.lists hR
  obtain ⟨hl', hsize'⟩ := h'.lists hR
  rw [hget] at hl'
  rw [hsize, hsize', hl'.length_eq hl]

/-- **`Set` on a shard** stores the value and converts at eight keys. -/
theorem Ok.insert (hR : R.Correct) {d : DataStructure V T} (h : d.Ok R) (k : Bytes) (v : V) :
    (d.insert R k v).1.Ok R ∧
      (d.insert R k v).1.get R = Function.update (d.get R) k (some v) ∧
      ((d.insert R k v).2 = true ↔ d.get R k = none) := by
  obtain ⟨hwf, hget, hnew⟩ := h.wf.put hR k v
  have hsize := h.wf.size_put hR k v
  unfold DataStructure.insert
  by_cases hb : (d.put R k v).2 = true
  · simp only [if_pos hb] at hsize ⊢
    obtain ⟨hwf', hget'⟩ := hwf.treeify hR
    refine ⟨⟨hwf', ?_⟩, hget'.trans hget, fun _ => hnew.mp hb, fun _ => trivial⟩
    have hsize' := hwf.size_congr hR hwf' hget'
    have hold := h.bounded
    cases d with
    | treeWrapper t =>
      show 7 ≤ R.size (R.put t k v)
      have : (R.size (R.put t k v) : Int) = R.size t + 1 := hsize
      have : 7 ≤ R.size t := hold
      omega
    | linkedList l =>
      have hcount : (l.put k v).1.count = l.count + 1 := hsize
      have hle : l.count ≤ 7 := hold
      change (DataStructure.treeify R (.linkedList (l.put k v).1)).Bounded R
      change (DataStructure.treeify R (.linkedList (l.put k v).1)).size R =
        (l.put k v).1.count at hsize'
      rw [DataStructure.treeify] at hsize' ⊢
      by_cases hc : (l.put k v).1.count ≥ 8
      · rw [if_pos hc] at hsize' ⊢
        have hs : (R.size _ : Int) = (l.put k v).1.count := hsize'
        show 7 ≤ R.size _
        omega
      · rw [if_neg hc]
        show (l.put k v).1.count ≤ 7
        omega
  · simp only [if_neg hb] at hsize ⊢
    refine ⟨⟨hwf, ?_⟩, hget, fun hf => absurd hf Bool.false_ne_true,
      fun hn => absurd (hnew.mpr hn) hb⟩
    have hold := h.bounded
    rw [add_zero] at hsize
    cases d with
    | treeWrapper t =>
      show 7 ≤ R.size (R.put t k v)
      have : (R.size (R.put t k v) : Int) = R.size t := hsize
      have : 7 ≤ R.size t := hold
      omega
    | linkedList l =>
      show (l.put k v).1.count ≤ 7
      have : (l.put k v).1.count = l.count := hsize
      have : l.count ≤ 7 := hold
      omega

/-- **`Delete` on a shard** drops the key and converts at six. -/
theorem Ok.delete (hR : R.Correct) {d : DataStructure V T} (h : d.Ok R) (k : Bytes) :
    (d.delete R k).1.Ok R ∧ (d.delete R k).1.get R = Function.update (d.get R) k none ∧
      ((d.delete R k).2 = true ↔ d.get R k ≠ none) := by
  obtain ⟨hwf, hget, hold⟩ := h.wf.remove hR k
  unfold DataStructure.delete
  by_cases hb : (d.remove R k).2 = true
  · simp only [if_pos hb]
    have hsize := h.wf.size_remove hR hb
    obtain ⟨hwf', hget'⟩ := hwf.untreeify hR
    refine ⟨⟨hwf', ?_⟩, hget'.trans hget, fun _ => hold.mp hb, fun _ => trivial⟩
    have hsize' := hwf.size_congr hR hwf' hget'
    have hbd := h.bounded
    cases d with
    | linkedList l =>
      show (l.remove k).1.count ≤ 7
      have : (l.remove k).1.count + 1 = l.count := hsize
      have : l.count ≤ 7 := hbd
      omega
    | treeWrapper t =>
      have hge : 7 ≤ R.size t := hbd
      by_cases hs : (R.get t k).isSome = true
      · rw [DataStructure.remove, if_pos hs] at hsize hsize' ⊢
        change (R.size (R.remove t k) : Int) + 1 = R.size t at hsize
        change _ = (R.size (R.remove t k) : Int) at hsize'
        rw [DataStructure.untreeify] at hsize' ⊢
        by_cases hc : R.size (R.remove t k) ≤ 6
        · rw [if_pos hc] at hsize' ⊢
          show LinkedList.count _ ≤ 7
          change LinkedList.count _ = _ at hsize'
          omega
        · rw [if_neg hc]
          show 7 ≤ R.size (R.remove t k)
          omega
      · rw [DataStructure.remove, if_neg hs] at hb
        exact absurd hb Bool.false_ne_true
  · simp only [if_neg hb]
    have hn : d.get R k = none := not_not.mp fun hne => hb (hold.mpr hne)
    -- an absent key leaves the shard alone
    have hsame : (d.remove R k).1 = d := by
      cases d with
      | linkedList l =>
        show DataStructure.linkedList (l.remove k).1 = .linkedList l
        unfold LinkedList.remove
        rw [LinkedList.removeNode_none.mpr hn]
      | treeWrapper t =>
        rw [DataStructure.remove, if_neg]
        rw [Option.not_isSome_iff_eq_none]
        exact hn
    rw [hsame]
    exact ⟨h, (Function.update_eq_self_iff.mpr hn.symm).symm,
      fun hf => absurd hf Bool.false_ne_true, fun hne => absurd hn hne⟩

/-- **`SetIfExist` on a shard**: replacing a value changes no size. -/
theorem Ok.replace (hR : R.Correct) {d : DataStructure V T} (h : d.Ok R) {k : Bytes} (v : V)
    (hk : d.get R k ≠ none) :
    (d.put R k v).1.Ok R ∧
      (d.put R k v).1.get R = Function.update (d.get R) k (some v) := by
  obtain ⟨hok, hget, hnew⟩ := h.insert hR k v
  have hb : ¬ (d.put R k v).2 = true := fun hb => hk ((h.wf.put hR k v).2.2.mp hb)
  have hsame : (d.insert R k v).1 = (d.put R k v).1 := by
    unfold DataStructure.insert
    simp only [if_neg hb]
  rw [hsame] at hok hget
  exact ⟨hok, hget⟩

end DataStructure

end Data

end TinyMap
