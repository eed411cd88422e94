import TinyRedis.LacedListProofs
import TinyRedis.CollectionsProofs

/-! # Lists: the nodes

    `List` as the code has it: nodes in memory with links to both sides, between
    the sentinels `Head` and `Tail`.  A nil pointer is `none`.  A method returns
    `none` where the code would follow a nil pointer, or where a loop would not
    end within as many rounds as there are nodes.

    Most methods come in pairs that differ in the direction they work in, so a
    link is named by a direction: `forth` is `Next`, `back` is `Prev`. -/

namespace TinyList

open GoString LinkedChain TinyDb

/-- `ListNode`. -/
structure ListNode where
  prev : Option Nat
  next : Option Nat
  val : Option Bytes

/-- `Next` or `Prev`. -/
def ListNode.link (node : ListNode) : Dir → Option Nat
  | .forth => node.next
  | .back => node.prev

theorem ListNode.next_eq (node : ListNode) : node.next = node.link .forth := rfl

theorem ListNode.prev_eq (node : ListNode) : node.prev = node.link .back := rfl

/-- `node.Next = p` or `node.Prev = p`. -/
def ListNode.setLink (node : ListNode) : Dir → Option Nat → ListNode
  | .forth, p => { node with next := p }
  | .back, p => { node with prev := p }

@[simp] theorem ListNode.setLink_link (node : ListNode) (d d' : Dir) (q : Option Nat) :
    (node.setLink d q).link d' = if d' = d then q else node.link d' := by
  cases d <;> cases d' <;> rfl

@[simp] theorem ListNode.setLink_val (node : ListNode) (d : Dir) (q : Option Nat) :
    (node.setLink d q).val = node.val := by
  cases d <;> rfl

/-- `List`, with the memory its pointers point into; `fresh` bounds the pointers
    handed out. -/
structure NodeList where
  mem : Nat → ListNode
  fresh : Nat
  head : Nat
  tail : Nat
  len : Int

namespace NodeList

/-- The sentinel from which a direction starts. -/
def ends (l : NodeList) : Dir → Nat
  | .forth => l.head
  | .back => l.tail

/-- `p.Next = q` or `p.Prev = q`. -/
def setLink (l : NodeList) (p : Nat) (d : Dir) (q : Option Nat) : NodeList :=
  { l with mem := Function.update l.mem p ((l.mem p).setLink d q) }

/-- `p.Val = val`. -/
def setVal (l : NodeList) (p : Nat) (val : Option Bytes) : NodeList :=
  { l with mem := Function.update l.mem p { l.mem p with val := val } }

/-- `atomic.StoreInt64(&l.len, n)`. -/
def setLen (l : NodeList) (n : Int) : NodeList := { l with len := n }

/-- `&ListNode{…}` with value `val`, a link to `p` and one to `q` behind it in
    direction `d`. -/
def alloc (l : NodeList) (d : Dir) (p : Nat) (q : Option Nat) (val : Option Bytes) : NodeList :=
  { l with
    mem := Function.update l.mem l.fresh
      (((⟨none, none, val⟩ : ListNode).setLink d.opp (some p)).setLink d q)
    fresh := l.fresh + 1 }

section Writes

variable (l : NodeList) (p r : Nat) (d d' : Dir) (q : Option Nat) (val : Option Bytes)

@[simp] theorem setLink_link : ((l.setLink p d q).mem r).link d' =
    if r = p ∧ d' = d then q else (l.mem r).link d' := by
  by_cases hr : r = p
  · subst hr
    simp [setLink]
  · simp [setLink, hr]

@[simp] theorem setLink_val : ((l.setLink p d q).mem r).val = (l.mem r).val := by
  by_cases hr : r = p
  · subst hr
    simp [setLink]
  · simp [setLink, hr]

@[simp] theorem setLink_ends : (l.setLink p d q).ends = l.ends := by
  funext d'
  cases d' <;> rfl

@[simp] theorem setLink_head : (l.setLink p d q).head = l.head := rfl

@[simp] theorem setLink_tail : (l.setLink p d q).tail = l.tail := rfl

@[simp] theorem setLink_fresh : (l.setLink p d q).fresh = l.fresh := rfl

@[simp] theorem setLink_len : (l.setLink p d q).len = l.len := rfl

@[simp] theorem setLen_mem (n : Int) : (l.setLen n).mem = l.mem := rfl

@[simp] theorem setLen_ends (n : Int) : (l.setLen n).ends = l.ends := by
  funext d'
  cases d' <;> rfl

@[simp] theorem setLen_fresh (n : Int) : (l.setLen n).fresh = l.fresh := rfl

@[simp] theorem setLen_len (n : Int) : (l.setLen n).len = n := rfl

@[simp] theorem setLen_head (n : Int) : (l.setLen n).head = l.head := rfl

@[simp] theorem setLen_tail (n : Int) : (l.setLen n).tail = l.tail := rfl

@[simp] theorem setVal_link : ((l.setVal p val).mem r).link d = (l.mem r).link d := by
  by_cases hr : r = p
  · subst hr
    cases d <;> simp [setVal, ListNode.link]
  · simp [setVal, hr]

@[simp] theorem setVal_val : ((l.setVal p val).mem r).val =
    if r = p then val else (l.mem r).val := by
  by_cases hr : r = p
  · subst hr
    simp [setVal]
  · simp [setVal, hr]

@[simp] theorem setVal_ends : (l.setVal p val).ends = l.ends := by
  funext d'
  cases d' <;> rfl

@[simp] theorem setVal_fresh : (l.setVal p val).fresh = l.fresh := rfl

@[simp] theorem setVal_len : (l.setVal p val).len = l.len := rfl

@[simp] theorem alloc_link : ((l.alloc d p q val).mem r).link d' =
    if r = l.fresh then if d' = d then q else some p else (l.mem r).link d' := by
  by_cases hr : r = l.fresh
  · subst hr
    cases d <;> cases d' <;> simp [alloc, Dir.opp]
  · simp [alloc, hr]

@[simp] theorem alloc_val : ((l.alloc d p q val).mem r).val =
    if r = l.fresh then val else (l.mem r).val := by
  by_cases hr : r = l.fresh
  · subst hr
    simp [alloc]
  · simp [alloc, hr]

@[simp] theorem alloc_ends : (l.alloc d p q val).ends = l.ends := by
  funext d'
  cases d' <;> rfl

@[simp] theorem alloc_fresh : (l.alloc d p q val).fresh = l.fresh + 1 := rfl

@[simp] theorem alloc_len : (l.alloc d p q val).len = l.len := rfl

end Writes

/-- `NewList`. -/
def newList : NodeList :=
  let l : NodeList := ⟨fun _ => ⟨none, none, none⟩, 2, 0, 1, 0⟩
  (l.setLink l.head .forth (some l.tail)).setLink l.tail .back (some l.head)

/-! ## Pushing and popping -/

/-- A new node behind `p`, in direction `d`. -/
def insertNext (l : NodeList) (d : Dir) (p : Nat) (val : Option Bytes) : Option NodeList := do
  let node := l.fresh
  let l := l.alloc d p ((l.mem p).link d) val
  let l := l.setLink p d (some node)
  let q ← (l.mem node).link d
  let l := l.setLink q d.opp (some node)
  return l.setLen (l.len + 1)

/-- `LPush`. -/
def lPush (l : NodeList) (val : Option Bytes) : Option NodeList := l.insertNext .forth l.head val

/-- `RPush`. -/
def rPush (l : NodeList) (val : Option Bytes) : Option NodeList := l.insertNext .back l.tail val

/-- The first node in direction `d` is taken out; its value. -/
def pop (l : NodeList) (d : Dir) : Option (Option (Option Bytes) × NodeList) := do
  if l.len = 0 then
    return (none, l)
  let node ← (l.mem (l.ends d)).link d
  let l := l.setLink (l.ends d) d ((l.mem node).link d)
  let q ← (l.mem node).link d
  let l := l.setLink q d.opp (some (l.ends d))
  let l := (l.setLink node .back none).setLink node .forth none
  return (some (l.mem node).val, l.setLen (l.len - 1))

/-- `LPop`. -/
def lPop (l : NodeList) : Option (Option (Option Bytes) × NodeList) := l.pop .forth

/-- `RPop`. -/
def rPop (l : NodeList) : Option (Option (Option Bytes) × NodeList) := l.pop .back

/-! ## By index -/

/-- `for … { node = node.Next }` or `node.Prev`, so many rounds. -/
def steps (l : NodeList) (d : Dir) : Nat → Option Nat → Option (Option Nat)
  | 0, node => some node
  | k + 1, node => do steps l d k ((l.mem (← node)).link d)

/-- `Index`: a node, or nil. -/
def index (l : NodeList) (index : Int64) : Option (Option Nat) :=
  let i := index.toInt
  if i < 0 ∧ int64 (-i) > l.len then some none
  else
    let i := if i < 0 then l.len + i else i
    if i ≥ l.len ∨ i < 0 then some none
    else if i ≤ l.len / 2 then l.steps .forth i.toNat (l.mem l.head).next
    else l.steps .back (l.len - 1 - i).toNat (l.mem l.tail).prev

/-- `Set`. -/
def set (l : NodeList) (index : Int64) (val : Option Bytes) : Option (Bool × NodeList) := do
  match ← l.index index with
  | none => return (false, l)
  | some node => return (true, l.setVal node val)

/-! ## By value -/

/-- `for now := l.Head.Next; now != l.Tail; now = now.Next`, until `stop` holds:
    the node it stops at, if any, and the number of those before. -/
def seek (l : NodeList) (stop : ListNode → Bool) : Nat → Option Nat → Int →
    Option (Option Nat × Int)
  | 0, _, _ => none
  | fuel + 1, now, pos =>
    if now = some l.tail then some (none, pos)
    else do
      let p ← now
      if stop (l.mem p) then return (some p, pos)
      else seek l stop fuel (l.mem p).next (pos + 1)

/-- A new node next to the first one that holds `tar`. -/
def insertBy (l : NodeList) (d : Dir) (offset : Int) (val tar : Option Bytes) :
    Option (Int × NodeList) := do
  let (now, pos) ← l.seek (fun node => str node.val = str tar) l.fresh (l.mem l.head).next 0
  match now with
  | none => return (-1, l)
  | some p => return (pos + offset, ← l.insertNext d p val)

/-- `InsertBefore`. -/
def insertBefore (l : NodeList) (val tar : Option Bytes) : Option (Int × NodeList) :=
  l.insertBy .back 0 val tar

/-- `InsertAfter`. -/
def insertAfter (l : NodeList) (val tar : Option Bytes) : Option (Int × NodeList) :=
  l.insertBy .forth 1 val tar

/-- A node is linked past, and its own links are cut. -/
def unlink (l : NodeList) (now : Nat) : Option NodeList := do
  let prev ← (l.mem now).prev
  let l := l.setLink prev .forth (l.mem now).next
  let next ← (l.mem now).next
  let l := l.setLink next .back (l.mem now).prev
  let l := (l.setLink now .back none).setLink now .forth none
  return l.setLen (l.len - 1)

/-- The loop of `RemoveElement`, in direction `d`. -/
def removeLoop (d : Dir) (val : Option Bytes) (count : Int) : Nat → NodeList → Option Nat → Int →
    Option (Int × NodeList)
  | 0, _, _, _ => none
  | fuel + 1, l, now, removed =>
    if now = some (l.ends d.opp) ∨ ¬ removed < count then some (removed, l)
    else do
      let p ← now
      if str (l.mem p).val = str val then
        let tem := (l.mem p).link d
        removeLoop d val count fuel (← l.unlink p) tem (removed + 1)
      else removeLoop d val count fuel l ((l.mem p).link d) removed

/-- `RemoveElement`. -/
def removeElement (l : NodeList) (val : Option Bytes) (count : Int64) : Option (Int × NodeList) :=
  if l.len = 0 then some (0, l)
  else
    let count := if count.toInt = 0 then l.len else count.toInt
    if count ≥ 0 then removeLoop .forth val count l.fresh l (l.mem l.head).next 0
    else removeLoop .back val (int64 (-count)) l.fresh l (l.mem l.tail).prev 0

/-! ## Range, Trim and Clear -/

/-- The loop of `Range`: the values from `start` on, to `stop` or the end. -/
def rangeLoop (l : NodeList) (start stop : Int) : Nat → Option Nat → Int →
    Option (List (Option Bytes))
  | 0, _, _ => none
  | fuel + 1, node, i =>
    if i ≤ stop ∧ node ≠ some l.tail then do
      let p ← node
      let rest ← rangeLoop l start stop fuel (l.mem p).next (i + 1)
      return if i ≥ start then (l.mem p).val :: rest else rest
    else some []

/-- `Range`; none is a nil slice. -/
def range (l : NodeList) (start stop : Int64) : Option (Option (List (Option Bytes))) :=
  match RedisList.window l.len start.toInt stop.toInt with
  | none => some none
  | some (start, stop) => do
    return some (← l.rangeLoop start stop l.fresh (l.mem l.head).next 0)

/-- `Clear`. -/
def clear (l : NodeList) : Option NodeList := do
  if l.len = 0 then
    return l
  let fist := (l.mem l.head).next
  let last := (l.mem l.tail).prev
  let l := l.setLink l.head .forth (some l.tail)
  let l := l.setLink l.tail .back (some l.head)
  let l := l.setLen 0
  let l := l.setLink (← fist) .back none
  return l.setLink (← last) .forth none

/-- The loop of `Trim` that looks for the two ends of the window. -/
def trimLoop (l : NodeList) (start stop : Int) : Nat → Option Nat → Int → Option Nat →
    Option (Option Nat × Option Nat)
  | 0, _, _, _ => none
  | fuel + 1, now, pos, startNode =>
    if now = some l.tail then some (startNode, none)
    else
      let startNode := if pos = start then now else startNode
      if pos = stop then some (startNode, now)
      else do trimLoop l start stop fuel (l.mem (← now)).next (pos + 1) startNode

/-- `p.Next = nil` or `p.Prev = nil`, unless `p` is nil. -/
def cut (l : NodeList) (p : Option Nat) (d : Dir) : NodeList :=
  match p with
  | none => l
  | some p => l.setLink p d none

section Cuts

variable (l : NodeList) (p : Option Nat) (r : Nat) (d d' : Dir)

@[simp] theorem cut_link : ((l.cut p d).mem r).link d' =
    if p = some r ∧ d' = d then none else (l.mem r).link d' := by
  cases p with
  | none => simp [cut]
  | some p => simp [cut, eq_comm]

@[simp] theorem cut_val : ((l.cut p d).mem r).val = (l.mem r).val := by
  cases p <;> simp [cut]

@[simp] theorem cut_ends : (l.cut p d).ends = l.ends := by
  cases p <;> simp [cut]

@[simp] theorem cut_head : (l.cut p d).head = l.head := by
  cases p <;> rfl

@[simp] theorem cut_tail : (l.cut p d).tail = l.tail := by
  cases p <;> rfl

@[simp] theorem cut_fresh : (l.cut p d).fresh = l.fresh := by
  cases p <;> rfl

end Cuts

/-- The links that `Trim` cuts, for the window from `startNode` to `endNode`, and
    the ones it makes. -/
def relink (l : NodeList) (startNode endNode : Nat) : Option NodeList := do
  let l := l.setLink (← (l.mem l.head).next) .back none
  let l := l.setLink (← (l.mem l.tail).prev) .forth none
  let l := l.cut (l.mem startNode).prev .forth
  let l := l.cut (l.mem endNode).next .back
  let l := l.setLink l.head .forth (some startNode)
  let l := l.setLink startNode .back (some l.head)
  let l := l.setLink l.tail .back (some endNode)
  return l.setLink endNode .forth (some l.tail)

/-- `Trim`. -/
def trim (l : NodeList) (start stop : Int64) : Option NodeList :=
  if l.len = 0 then some l
  else
    match RedisList.window l.len start.toInt stop.toInt with
    | none => l.clear
    | some (start, stop) => do
      let (startNode, endNode) ← l.trimLoop start stop l.fresh (l.mem l.head).next 0 none
      return (← l.relink (← startNode) (← endNode)).setLen (stop - start + 1)

end NodeList

end TinyList
