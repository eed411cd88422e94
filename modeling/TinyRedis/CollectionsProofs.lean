import TinyRedis.GoFloatProofs

/-! # Lists, sets and hashes

    The values behind list, set and hash keys, with the methods the commands
    call.  A Go map is an association list with distinct keys; its iteration
    order is not a property of the map and is chosen where a command iterates.

    A list is the sequence of its values from `Head.Next` to `Tail.Prev`.  Sets
    and hashes keep their `size` beside the table, as the source does: `Len`
    and `IsEmpty` answer from it. -/

namespace TinyDb

open GoString GoStrconv GoFloat

/-- A `map[string]V`. -/
abbrev GoMap (V : Type) := AList fun _ : Bytes => V

/-- An `int` or `int64` result, wrapped to 64 bits. -/
def int64 (x : Int) : Int := (Int64.ofInt x).toInt

/-! ## List -/

/-- `List`: the values in order. -/
structure RedisList where
  vals : List (Option Bytes)
deriving DecidableEq

/-- `NewList`. -/
def newList : RedisList := ⟨[]⟩

namespace RedisList

/-- `Len`. -/
def len (l : RedisList) : Int := l.vals.length

/-- `Index`: the value of the node, or none for a nil node. -/
def index (l : RedisList) (index : Int) : Option (Option Bytes) :=
  if index < 0 ∧ int64 (-index) > l.len then none
  else
    let index := if index < 0 then l.len + index else index
    if index ≥ l.len ∨ index < 0 then none else l.vals[index.toNat]?

/-- `Pos`. -/
def pos (l : RedisList) (val : Option Bytes) : Int :=
  match l.vals.findIdx? fun v => str v = str val with
  | some i => i
  | none => -1

/-- `LPush`. -/
def lPush (l : RedisList) (val : Option Bytes) : RedisList := ⟨val :: l.vals⟩

/-- `RPush`. -/
def rPush (l : RedisList) (val : Option Bytes) : RedisList := ⟨l.vals ++ [val]⟩

/-- `LPop`: the popped value, if any. -/
def lPop (l : RedisList) : RedisList × Option (Option Bytes) := (⟨l.vals.tail⟩, l.vals.head?)

/-- `RPop`. -/
def rPop (l : RedisList) : RedisList × Option (Option Bytes) :=
  (⟨l.vals.dropLast⟩, l.vals.getLast?)

/-- `Set`. -/
def set (l : RedisList) (index : Int) (val : Option Bytes) : RedisList × Bool :=
  match l.index index with
  | none => (l, false)
  | some _ => (⟨l.vals.set (if index < 0 then l.len + index else index).toNat val⟩, true)

/-- The window `start..end` as `Range` and `Trim` normalise it; none if it is
    empty. -/
def window (len start stop : Int) : Option (Int × Int) :=
  let start := if start < 0 then len + start else start
  let stop := if stop < 0 then len + stop else stop
  if start > stop ∨ start ≥ len ∨ stop < 0 then none
  else some (if start < 0 then 0 else start, if stop ≥ len then len - 1 else stop)

/-- `Range`; none is a nil slice. -/
def range (l : RedisList) (start stop : Int) : Option (List (Option Bytes)) :=
  (window l.len start stop).map fun (a, b) => (l.vals.take (b + 1).toNat).drop a.toNat

/-- Removal of up to `n` values equal to `val`, from the front; the rest and
    how many went. -/
def dropEqual (val : Bytes) : Int → List (Option Bytes) → List (Option Bytes) × Int
  | _, [] => ([], 0)
  | n, v :: vs =>
    if n ≤ 0 then (v :: vs, 0)
    else if str v = val then
      let r := dropEqual val (n - 1) vs
      (r.1, r.2 + 1)
    else
      let r := dropEqual val n vs
      (v :: r.1, r.2)

/-- `RemoveElement`. -/
def removeElement (l : RedisList) (val : Option Bytes) (count : Int) : RedisList × Int :=
  let count := if count = 0 then l.len else count
  if count ≥ 0 then
    let r := dropEqual (str val) count l.vals
    (⟨r.1⟩, r.2)
  else
    let r := dropEqual (str val) (int64 (-count)) l.vals.reverse
    (⟨r.1.reverse⟩, r.2)

/-- `Trim`. -/
def trim (l : RedisList) (start stop : Int) : RedisList :=
  match window l.len start stop with
  | none => newList
  | some (a, b) => ⟨(l.vals.take (b + 1).toNat).drop a.toNat⟩

end RedisList

/-! ## Set -/

/-- `Set`. -/
structure RedisSet where
  table : GoMap Unit
  size : Int
deriving DecidableEq

/-- `NewSet`. -/
def newSet : RedisSet := ⟨∅, 0⟩

namespace RedisSet

/-- `Has`. -/
def has (s : RedisSet) (key : Bytes) : Bool := (s.table.lookup key).isSome

/-- `Add`. -/
def add (s : RedisSet) (key : Bytes) : RedisSet × Int :=
  if s.has key then (s, 0) else (⟨s.table.insert key (), s.size + 1⟩, 1)

/-- `Remove`. -/
def remove (s : RedisSet) (key : Bytes) : RedisSet × Int :=
  if s.has key then (⟨s.table.erase key, s.size - 1⟩, 1) else (s, 0)

/-- `Len`. -/
def len (s : RedisSet) : Int := s.size

/-- A copy of the table, its size counted. -/
def copy (s : RedisSet) : RedisSet := ⟨s.table, s.table.keys.length⟩

/-- `Union`. -/
def union (s : RedisSet) (sets : List RedisSet) : RedisSet :=
  sets.foldl (fun res set => set.table.keys.foldl (fun res key => (res.add key).1) res) s.copy

/-- The loop that looks for the smallest set. -/
def smallest (s : RedisSet) (sets : List RedisSet) : RedisSet :=
  sets.foldl (fun best set => if set.len < best.len then set else best) s

/-- `Intersect`. A key of the smallest set is looked up in the others; the
    source skips the smallest set itself, which has the key. -/
def intersect (s : RedisSet) (sets : List RedisSet) : RedisSet :=
  if sets = [] then s.copy
  else
    ((s.smallest sets).table.keys.filter fun key => s.has key && sets.all fun set =>
      set.has key).foldl
      (fun res key => (res.add key).1) newSet

/-- `Difference`. -/
def difference (s : RedisSet) (sets : List RedisSet) : RedisSet :=
  sets.foldl (fun res set => set.table.keys.foldl (fun res key => (res.remove key).1) res)
    (s.table.keys.foldl (fun res key => (res.add key).1) newSet)

end RedisSet

/-! ## Hash -/

/-- `Hash`. -/
structure RedisHash where
  table : GoMap (Option Bytes)
  size : Int
deriving DecidableEq

/-- `NewHash`. -/
def newHash : RedisHash := ⟨∅, 0⟩

namespace RedisHash

/-- `Exist`. -/
def exist (h : RedisHash) (key : Bytes) : Bool := (h.table.lookup key).isSome

/-- `Set`. -/
def set (h : RedisHash) (key : Bytes) (value : Option Bytes) : RedisHash :=
  ⟨h.table.insert key value, if h.exist key then h.size else h.size + 1⟩

/-- `Get`: nil for a field that is not there. -/
def get (h : RedisHash) (key : Bytes) : Option Bytes := (h.table.lookup key).join

/-- `Del`. -/
def del (h : RedisHash) (key : Bytes) : RedisHash × Int :=
  if h.exist key then (⟨h.table.erase key, h.size - 1⟩, 1) else (h, 0)

/-- `Len`. -/
def len (h : RedisHash) : Int := h.size

/-- `IsEmpty`. -/
def isEmpty (h : RedisHash) : Bool := decide (h.size = 0)

/-- `StrLen`. -/
def strLen (h : RedisHash) (key : Bytes) : Int := (str (h.get key)).length

section Increments

variable {α : Type} (parse : Bytes → Option α) (add : α → α → α) (format : α → Bytes)
  (h : RedisHash) (key : Bytes) (incr : α)

/-- `IncrBy` and `IncrByFloat`: an empty value counts as a new field. -/
def incrWith : RedisHash × Option α :=
  if str (h.get key) = [] then
    (⟨h.table.insert key (some (format incr)), h.size + 1⟩, some incr)
  else
    match parse (str (h.get key)) with
    | none => (h, none)
    | some value =>
      let value := add value incr
      (⟨h.table.insert key (some (format value)), h.size⟩, some value)

/-- The field is counted as a new one, left, or written without counting. -/
theorem incrWith_cases :
    (str (h.get key) = [] ∧ incrWith parse add format h key incr =
        (⟨h.table.insert key (some (format incr)), h.size + 1⟩, some incr)) ∨
      (str (h.get key) ≠ [] ∧ (incrWith parse add format h key incr = (h, none) ∨
        ∃ v res, incrWith parse add format h key incr =
          (⟨h.table.insert key v, h.size⟩, some res))) := by
  unfold incrWith
  by_cases hempty : str (h.get key) = []
  · rw [if_pos hempty]
    exact Or.inl ⟨hempty, rfl⟩
  · rw [if_neg hempty]
    cases parse (str (h.get key)) with
    | none => exact Or.inr ⟨hempty, Or.inl rfl⟩
    | some value => exact Or.inr ⟨hempty, Or.inr ⟨_, _, rfl⟩⟩

/-- A field of a hash that has just been made is a new field. -/
theorem incrWith_newHash : incrWith parse add format newHash key incr =
    (⟨newHash.table.insert key (some (format incr)), 1⟩, some incr) := rfl

end Increments

/-- `IncrBy`. -/
def incrBy : RedisHash → Bytes → Int → RedisHash × Option Int :=
  incrWith (fun s => (atoi s).toOption) (fun value incr => int64 (value + incr)) itoa

/-- `IncrByFloat`. -/
def incrByFloat {F : Type} [FloatText F] : RedisHash → Bytes → F → RedisHash × Option F :=
  incrWith FloatText.parse Float64.add FloatText.format

end RedisHash

end TinyDb
