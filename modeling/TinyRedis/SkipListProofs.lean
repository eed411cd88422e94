import TinyRedis.GoFloatProofs
import TinyRedis.LinkedChainProofs

/-! # Sorted sets: the skip list

    `ZSet` as the code has it: nodes in memory, each with an array of forward
    pointers and of spans, a header, and a map from members to scores.  A nil
    pointer is `none`; the header is pointer 0.  `randomLevel` enters through
    its outcome.

    Every loop that goes down the levels is `search`, which walks a level as
    far as its condition lets it and starts the next one there. -/

namespace TinyZSet

open GoString GoFloat LinkedChain

/-- `zSetNode`; the arrays are indexed by level. -/
structure ZSetNode (F : Type) where
  member : Bytes
  score : F
  level : Nat
  forward : Nat → Option Nat
  span : Nat → Int

/-- `ZSet`, with the memory its pointers point into; `fresh` bounds the
    pointers handed out. -/
structure ZSet (F : Type) where
  mem : Nat → ZSetNode F
  fresh : Nat
  tail : Option Nat
  level : Nat
  length : Int
  dict : Bytes → Option F

/-- `MaxLevel`. -/
def maxLevel : Nat := 32

/-- The pointer to the header. -/
def header : Nat := 0

variable {F : Type} [Float64 F]

/-- `newZSetNode`. -/
def newZSetNode (level : Nat) (member : Bytes) (score : F) : ZSetNode F :=
  ⟨member, score, level, fun _ => none, fun _ => 0⟩

/-- `NewZSet`. -/
def newZSet : ZSet F where
  mem := fun _ => newZSetNode maxLevel [] Float64.zero
  fresh := 1
  tail := none
  level := 1
  length := 0
  dict := fun _ => none

/-- `n.score < score || (n.score == score && n.member < member)`. -/
def before (score : F) (member : Bytes) (n : ZSetNode F) : Bool :=
  lt n.score score || (eq n.score score && decide (n.member < member))

namespace ZSet

/-- A write to the node at `p`. -/
def setNode (z : ZSet F) (p : Nat) (n : ZSetNode F) : ZSet F :=
  { z with mem := Function.update z.mem p n }

/-- `p.forward[i] = q`. -/
def setForward (z : ZSet F) (p i : Nat) (q : Option Nat) : ZSet F :=
  z.setNode p { z.mem p with forward := Function.update (z.mem p).forward i q }

/-- `p.span[i] = n`. -/
def setSpan (z : ZSet F) (p i : Nat) (n : Int) : ZSet F :=
  z.setNode p { z.mem p with span := Function.update (z.mem p).span i n }

/-- One level of a search: on while `adv` holds of the next node and of the
    rank the step would reach. -/
def walkLevel (z : ZSet F) (adv : ZSetNode F → Int → Bool) (i cur : Nat) (rank : Int) :
    Nat × Int :=
  walk (fun p => (z.mem p).forward i) (fun p r => r + (z.mem p).span i)
    (fun q r => adv (z.mem q) r) z.fresh cur rank

/-- The levels below the given one, downwards: `(update[i], rank[i])` for each
    of them. -/
def search (z : ZSet F) (adv : ZSetNode F → Int → Bool) : Nat → Nat → Int → Nat → Nat × Int
  | 0, cur, rank => fun _ => (cur, rank)
  | i + 1, cur, rank => fun j =>
    if j = i then z.walkLevel adv i cur rank
    else search z adv i (z.walkLevel adv i cur rank).1 (z.walkLevel adv i cur rank).2 j

/-! ## Add -/

/-- The new levels, when the node is taller than the list. -/
def raise (z : ZSet F) (newLevel : Nat) : ZSet F :=
  if newLevel > z.level then
    { (List.range' z.level (newLevel - z.level)).foldl
        (fun z' i => z'.setSpan header i z.length) z with level := newLevel }
  else z

/-- A round of the linking loop, at level `i` behind `u`; `d` is
    `rank[0] - rank[i]`. -/
def link (z : ZSet F) (newNode u i : Nat) (d : Int) : ZSet F :=
  let z := z.setForward newNode i ((z.mem u).forward i)
  let z := z.setForward u i (some newNode)
  let z := z.setSpan newNode i ((z.mem u).span i - d)
  z.setSpan u i (d + 1)

/-- `Add` of a member that is not there: search, link, count. -/
def insertNode (z : ZSet F) (member : Bytes) (score : F) (newLevel : Nat) : ZSet F :=
  let s := z.search (fun n _ => before score member n) z.level header 0
  -- above the list's level `update[i]` is the header and `rank[i]` is 0
  let update := fun i => if i < z.level then (s i).1 else header
  let rank := fun i => if i < z.level then (s i).2 else 0
  let newNode := z.fresh
  let z := z.raise newLevel
  let z := { z.setNode newNode (newZSetNode newLevel member score) with fresh := newNode + 1 }
  let z := (List.range newLevel).foldl
    (fun z i => z.link newNode (update i) i (rank 0 - rank i)) z
  let z := (List.range' newLevel (z.level - newLevel)).foldl
    (fun z i => z.setSpan (update i) i ((z.mem (update i)).span i + 1)) z
  { z with
    tail := if (z.mem newNode).forward 0 = none then some newNode else z.tail
    dict := Function.update z.dict member (some score)
    length := z.length + 1 }

/-! ## deleteNode -/

/-- The unlinking loop, upwards until a level that `current` is not on. -/
def unlink (update : Nat → Nat) (current : Nat) : List Nat → ZSet F → ZSet F
  | [], z => z
  | i :: is, z =>
    if (z.mem (update i)).forward i ≠ some current then z
    else
      let z := z.setSpan (update i) i
        ((z.mem (update i)).span i + ((z.mem current).span i - 1))
      unlink update current is (z.setForward (update i) i ((z.mem current).forward i))

/-- The loop that follows: a span is decremented at every level whose
    `update[i]` points nowhere now. -/
def trimSpans (update : Nat → Nat) (levels : List Nat) (z : ZSet F) : ZSet F :=
  levels.foldl (fun z i =>
    if (z.mem (update i)).forward i = none then
      z.setSpan (update i) i ((z.mem (update i)).span i - 1)
    else z) z

/-- `for z.level > 1 && z.header.forward[z.level-1] == nil`. -/
def shrink (forward : Nat → Option Nat) : Nat → Nat
  | 0 => 0
  | 1 => 1
  | l + 2 => if forward (l + 1) = none then shrink forward (l + 1) else l + 2

/-- What `deleteNode` does to the node it has found. -/
def detach (z : ZSet F) (update : Nat → Nat) (current : Nat) (member : Bytes) : ZSet F :=
  let z := unlink update current (List.range z.level) z
  let z := trimSpans update (List.range z.level).reverse z
  { z with
    tail :=
      if (z.mem current).forward 0 = none then
        if update 0 = header then none else some (update 0)
      else z.tail
    level := shrink (z.mem header).forward z.level
    dict := Function.update z.dict member none
    length := z.length - 1 }

/-- `deleteNode`. -/
def deleteNode (z : ZSet F) (member : Bytes) (score : F) : ZSet F :=
  let update := fun i => (z.search (fun n _ => before score member n) z.level header 0 i).1
  match (z.mem (update 0)).forward 0 with
  | none => z
  | some current =>
    if eq (z.mem current).score score && decide ((z.mem current).member = member) then
      z.detach update current member
    else z

/-- `Add`, when `randomLevel` returns `newLevel`. -/
def add (z : ZSet F) (member : Bytes) (score : F) (newLevel : Nat) : ZSet F × Bool :=
  match z.dict member with
  | some oldScore =>
    if eq oldScore score then (z, false)
    else ((z.deleteNode member oldScore).insertNode member score newLevel, true)
  | none => (z.insertNode member score newLevel, true)

/-- `Get`. -/
def get (z : ZSet F) (member : Bytes) : F := (z.dict member).getD Float64.nan

/-- `Remove`. -/
def remove (z : ZSet F) (member : Bytes) : ZSet F × Bool :=
  match z.dict member with
  | none => (z, false)
  | some score => (z.deleteNode member score, true)

/-- `IncrBy`, when `randomLevel` returns `newLevel`. -/
def incrBy (z : ZSet F) (member : Bytes) (increment : F) (newLevel : Nat) : ZSet F × F :=
  match z.dict member with
  | some oldScore =>
    (((z.deleteNode member oldScore).add member (Float64.add oldScore increment) newLevel).1,
      Float64.add oldScore increment)
  | none => ((z.add member increment newLevel).1, increment)

/-! ## Reading in order -/

/-- The nodes a loop `for current != nil` visits. -/
def nodesFrom (z : ZSet F) : Nat → Option Nat → List Nat
  | 0, _ => []
  | _ + 1, none => []
  | fuel + 1, some p => p :: nodesFrom z fuel ((z.mem p).forward 0)

/-- The nodes of the set, from `header.forward[0]` on. -/
def nodes (z : ZSet F) : List Nat := z.nodesFrom z.fresh ((z.mem header).forward 0)

/-- The loop of `RemRangeByScore` that collects members. -/
def collect (z : ZSet F) (min max : F) : List Nat → List Bytes
  | [] => []
  | p :: ps =>
    if gt (z.mem p).score max then []
    else if ge (z.mem p).score min then (z.mem p).member :: collect z min max ps
    else collect z min max ps

/-- `Count`. -/
def count (z : ZSet F) (min max : F) : Int := (z.collect min max z.nodes).length

/-- The loop of `RangeByScore`, having skipped and taken so many nodes. -/
def rangeByScoreLoop (z : ZSet F) (min max : F) (offset count : Int) :
    List Nat → Int → Int → List Nat
  | [], _, _ => []
  | p :: ps, skipped, taken =>
    if gt (z.mem p).score max then []
    else if ge (z.mem p).score min then
      if skipped ≥ offset then
        if count > 0 ∧ taken + 1 ≥ count then [p]
        else p :: rangeByScoreLoop z min max offset count ps skipped (taken + 1)
      else rangeByScoreLoop z min max offset count ps (skipped + 1) taken
    else rangeByScoreLoop z min max offset count ps skipped taken

/-- `RangeByScore`: the nodes it returns the members and scores of. -/
def rangeByScore (z : ZSet F) (min max : F) (offset count : Int) : List Nat :=
  z.rangeByScoreLoop min max (if offset < 0 then 0 else offset) count z.nodes 0 0

/-- Removing members one after the other, counting those that were there. -/
def removeAll (z : ZSet F) : List Bytes → ZSet F × Int
  | [] => (z, 0)
  | m :: ms =>
    let r := (z.remove m).1.removeAll ms
    (r.1, (if (z.remove m).2 then 1 else 0) + r.2)

/-- `RemRangeByScore`. -/
def remRangeByScore (z : ZSet F) (min max : F) : ZSet F × Int :=
  z.removeAll (z.collect min max z.nodes)

/-- Rank arguments as `Range` and the others normalise them; none if they
    select nothing. -/
def normalise (length start stop : Int) : Option (Int × Int) :=
  let start := if start < 0 then length + start else start
  let stop := if stop < 0 then length + stop else stop
  let start := if start < 0 then 0 else start
  let stop := if stop ≥ length then length - 1 else stop
  if start > stop ∨ start ≥ length then none else some (start, stop)

/-- `Range`: the nodes it returns the members and scores of. -/
def range (z : ZSet F) (start stop : Int) : List Nat :=
  match normalise z.length start stop with
  | none => []
  | some (start, stop) =>
    let current := (z.search (fun _ r => decide (r ≤ start)) z.level header 0 0).1
    (z.nodesFrom z.fresh ((z.mem current).forward 0)).take (stop - start + 1).toNat

/-- `RevRange`. -/
def revRange (z : ZSet F) (start stop : Int) : List Nat :=
  match normalise z.length start stop with
  | none => []
  | some (start, stop) => (z.range (z.length - stop - 1) (z.length - start - 1)).reverse

/-- `RemRangeByRank`. -/
def remRangeByRank (z : ZSet F) (start stop : Int) : ZSet F × Int :=
  match normalise z.length start stop with
  | none => (z, 0)
  | some (start, stop) => z.removeAll ((z.range start stop).map fun p => (z.mem p).member)

/-- `n.score < score || (n.score == score && n.member <= member)`. -/
def upTo (score : F) (member : Bytes) (n : ZSetNode F) : Bool :=
  lt n.score score || (eq n.score score && decide (n.member ≤ member))

/-- `Rank`. -/
def rank (z : ZSet F) (member : Bytes) : Int :=
  match z.dict member with
  | none => -1
  | some score =>
    let s := z.search (fun n _ => upTo score member n) z.level header 0 0
    if (z.mem s.1).member = member then s.2 - 1 else -1

/-- `RevRank`. -/
def revRank (z : ZSet F) (member : Bytes) : Int :=
  if z.rank member = -1 then -1 else z.length - z.rank member - 1

end ZSet

end TinyZSet
