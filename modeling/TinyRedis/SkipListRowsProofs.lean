import TinyRedis.SkipListReprProofs

/-! # What the skip list's loops write

    Every loop of `Add` and `deleteNode` over the levels writes, at level `i`,
    only to the level-`i` entries of the arrays.  A level's entries together
    are a row of the memory; a loop over distinct levels therefore transforms
    each of its rows once (`foldl_row`), and what is left to say of a loop is
    what one round does to one row. -/

namespace TinyZSet

open GoString GoFloat LinkedChain

variable {F : Type}

/-- The forward pointer and the span of every node at one level. -/
abbrev Row := Nat → Option Nat × Int

/-- Level `i` of the memory. -/
def ZSet.row (z : ZSet F) (i : Nat) : Row := fun p => ((z.mem p).forward i, (z.mem p).span i)

/-- `z'` differs from `z` at most in its forward pointers and spans. -/
structure SameNodes (z z' : ZSet F) : Prop where
  member : ∀ p, (z'.mem p).member = (z.mem p).member
  score : ∀ p, (z'.mem p).score = (z.mem p).score
  height : ∀ p, (z'.mem p).level = (z.mem p).level
  fresh : z'.fresh = z.fresh
  tail : z'.tail = z.tail
  level : z'.level = z.level
  length : z'.length = z.length
  dict : z'.dict = z.dict

theorem SameNodes.refl (z : ZSet F) : SameNodes z z :=
  ⟨fun _ => rfl, fun _ => rfl, fun _ => rfl, rfl, rfl, rfl, rfl, rfl⟩

theorem SameNodes.trans {z z' z'' : ZSet F} (h : SameNodes z z') (h' : SameNodes z' z'') :
    SameNodes z z'' :=
  ⟨fun p => (h'.member p).trans (h.member p), fun p => (h'.score p).trans (h.score p),
    fun p => (h'.height p).trans (h.height p), h'.fresh.trans h.fresh, h'.tail.trans h.tail,
    h'.level.trans h.level, h'.length.trans h.length, h'.dict.trans h.dict⟩

/-- A write to one node keeps whatever it keeps of that node. -/
theorem update_field {α : Type} (f : ZSetNode F → α) {mem : Nat → ZSetNode F} {p : Nat}
    {n : ZSetNode F} (h : f n = f (mem p)) (q : Nat) :
    f (Function.update mem p n q) = f (mem q) := by
  rw [Function.update_apply]
  by_cases hq : q = p
  · rw [if_pos hq, h, hq]
  · rw [if_neg hq]

theorem sameNodes_setForward (z : ZSet F) (p i : Nat) (q : Option Nat) :
    SameNodes z (z.setForward p i q) :=
  ⟨update_field ZSetNode.member rfl, update_field ZSetNode.score rfl,
    update_field ZSetNode.level rfl, rfl, rfl, rfl, rfl, rfl⟩

theorem sameNodes_setSpan (z : ZSet F) (p i : Nat) (n : Int) :
    SameNodes z (z.setSpan p i n) :=
  ⟨update_field ZSetNode.member rfl, update_field ZSetNode.score rfl,
    update_field ZSetNode.level rfl, rfl, rfl, rfl, rfl, rfl⟩

theorem sameNodes_foldl {f : ZSet F → Nat → ZSet F} (hf : ∀ z i, SameNodes z (f z i))
    (is : List Nat) : ∀ z, SameNodes z (is.foldl f z) := by
  induction is with
  | nil => exact SameNodes.refl
  | cons i is ih => exact fun z => (hf z i).trans (ih _)

/-! ## Rows -/

/-- A node that differs from the old one at level `i` changes one entry of row `i`. -/
theorem setNode_row (z : ZSet F) {p i : Nat} {node : ZSetNode F}
    (hrest : ∀ j, j ≠ i → (node.forward j, node.span j) = z.row j p) (j : Nat) :
    (z.setNode p node).row j =
      if j = i then Function.update (z.row i) p (node.forward i, node.span i) else z.row j := by
  funext p'
  show ((Function.update z.mem p node p').forward j, (Function.update z.mem p node p').span j) = _
  by_cases hp : p' = p
  · subst hp
    rw [Function.update_self]
    by_cases hj : j = i
    · rw [if_pos hj, Function.update_self, hj]
    · rw [if_neg hj, hrest j hj]
  · rw [Function.update_of_ne hp]
    by_cases hj : j = i
    · rw [if_pos hj, Function.update_of_ne hp, hj]
      rfl
    · rw [if_neg hj]
      rfl

/-- A write to `forward[i]`. -/
theorem setForward_row (z : ZSet F) (p i : Nat) (q : Option Nat) (j : Nat) :
    (z.setForward p i q).row j =
      if j = i then Function.update (z.row i) p (q, (z.row i p).2) else z.row j := by
  rw [ZSet.setForward, setNode_row z (i := i) fun j hj => by simp [hj, ZSet.row]]
  simp [ZSet.row]

/-- A write to `span[i]`. -/
theorem setSpan_row (z : ZSet F) (p i : Nat) (n : Int) (j : Nat) :
    (z.setSpan p i n).row j =
      if j = i then Function.update (z.row i) p ((z.row i p).1, n) else z.row j := by
  rw [ZSet.setSpan, setNode_row z (i := i) fun j hj => by simp [hj, ZSet.row]]
  simp [ZSet.row]

/-- One round at level `i` does `g i` to row `i`, and nothing to the others. -/
def RowStep (f : ZSet F → Nat → ZSet F) (g : Nat → Row → Row) : Prop :=
  ∀ z i j, (f z i).row j = if j = i then g i (z.row i) else z.row j

/-- **A loop over distinct levels** does each level's step to its row. -/
theorem foldl_row {f : ZSet F → Nat → ZSet F} {g : Nat → Row → Row} (hf : RowStep f g)
    {is : List Nat} : ∀ (z : ZSet F), is.Nodup → ∀ j,
      (is.foldl f z).row j = if j ∈ is then g j (z.row j) else z.row j := by
  induction is with
  | nil => exact fun z _ j => (if_neg List.not_mem_nil).symm
  | cons i is ih =>
    intro z hnd j
    obtain ⟨hnot, hnd'⟩ := List.nodup_cons.mp hnd
    rw [List.foldl_cons, ih _ hnd' j, hf z i j]
    by_cases hji : j = i
    · subst hji
      rw [if_neg hnot, if_pos rfl, if_pos List.mem_cons_self]
    · rw [if_neg hji]
      by_cases hj : j ∈ is
      · rw [if_pos hj, if_pos (List.mem_cons_of_mem i hj)]
      · rw [if_neg hj, if_neg fun h => (List.mem_cons.mp h).elim hji hj]

/-! ## The loops of Add -/

/-- Row `i` after linking `n` behind `u`. -/
def linkRow (n u : Nat) (d : Int) (ρ : Row) : Row := fun p =>
  if p = u then (some n, d + 1) else if p = n then ((ρ u).1, (ρ u).2 - d) else ρ p

/-- Row `i` after its span at `u` has been changed. -/
def spanRow (u : Nat) (s : Int) (ρ : Row) : Row := Function.update ρ u ((ρ u).1, s)

theorem link_rowStep (n : Nat) (u : Nat → Nat) (d : Nat → Int) (hu : ∀ i, u i ≠ n) :
    RowStep (fun (z : ZSet F) i => z.link n (u i) i (d i)) fun i => linkRow n (u i) (d i) := by
  intro z i j
  show (ZSet.link z n (u i) i (d i)).row j = _
  unfold ZSet.link
  simp only [setSpan_row, setForward_row]
  by_cases hj : j = i
  · simp only [if_pos hj, if_true]
    funext p
    have hne := hu i
    have hspan : ∀ w : ZSet F, (w.mem (u i)).span i = (w.row i (u i)).2 := fun _ => rfl
    simp only [hspan, setForward_row, if_true, linkRow, Function.update_apply]
    by_cases hp : p = u i
    · simp [hp, hne]
    · by_cases hpn : p = n
      · subst hpn
        simp [hp, hne, ZSet.row]
      · simp [hp, hpn]
  · simp only [if_neg hj]

theorem sameNodes_link (z : ZSet F) (n u i : Nat) (d : Int) : SameNodes z (z.link n u i d) := by
  unfold ZSet.link
  exact (sameNodes_setForward ..).trans ((sameNodes_setForward ..).trans
    ((sameNodes_setSpan ..).trans (sameNodes_setSpan ..)))

theorem bump_rowStep (u : Nat → Nat) (g : Nat → Int → Int) :
    RowStep (fun (z : ZSet F) i => z.setSpan (u i) i (g i ((z.mem (u i)).span i)))
      fun i ρ => spanRow (u i) (g i (ρ (u i)).2) ρ :=
  fun z i j => setSpan_row z (u i) i _ j

/-- `raise` touches only the header's spans at the new levels. -/
theorem raise_row (z : ZSet F) (newLevel i : Nat) :
    (z.raise newLevel).row i =
      if z.level ≤ i ∧ i < newLevel then spanRow header z.length (z.row i) else z.row i := by
  unfold ZSet.raise
  by_cases h : newLevel > z.level
  · rw [if_pos h]
    have hrow := foldl_row (bump_rowStep (fun _ => header) fun _ _ => z.length) z
      (List.nodup_range' (s := z.level) (n := newLevel - z.level)) i
    refine hrow.trans ?_
    have hmem : i ∈ List.range' z.level (newLevel - z.level) ↔ z.level ≤ i ∧ i < newLevel := by
      rw [List.mem_range'_1]
      omega
    by_cases hi : z.level ≤ i ∧ i < newLevel
    · rw [if_pos hi, if_pos (hmem.mpr hi)]
    · rw [if_neg hi, if_neg fun hm => hi (hmem.mp hm)]
  · rw [if_neg h, if_neg (by omega)]

/-- `raise` keeps everything but the level. -/
theorem raise_same (z : ZSet F) (newLevel : Nat) :
    SameNodes { z with level := max z.level newLevel } (z.raise newLevel) := by
  unfold ZSet.raise
  by_cases h : newLevel > z.level
  · rw [if_pos h]
    have hf := sameNodes_foldl (fun (w : ZSet F) i => sameNodes_setSpan w header i z.length)
      (List.range' z.level (newLevel - z.level)) z
    refine ⟨hf.member, hf.score, hf.height, hf.fresh, hf.tail, ?_, hf.length, hf.dict⟩
    exact (max_eq_right (le_of_lt h)).symm
  · rw [if_neg h, max_eq_left (not_lt.mp h)]
    exact SameNodes.refl z

section Insert

variable [Float64 F] (z : ZSet F) (member : Bytes) (score : F) (newLevel : Nat)

/-- `update[i]` of `Add`. -/
def updateAt (i : Nat) : Nat :=
  if i < z.level then (z.search (fun n _ => before score member n) z.level header 0 i).1
  else header

/-- `rank[i]` of `Add`. -/
def rankAt (i : Nat) : Int :=
  if i < z.level then (z.search (fun n _ => before score member n) z.level header 0 i).2 else 0

/-- Row `i` before linking: the new node is in memory, pointing nowhere. -/
def unlinkedRow (i : Nat) : Row :=
  Function.update (if z.level ≤ i ∧ i < newLevel then spanRow header z.length (z.row i)
    else z.row i) z.fresh (none, 0)

/-- Row `i` after `Add` of a new member. -/
theorem insertNode_row (hu : ∀ i, updateAt z member score i ≠ z.fresh) (i : Nat) :
    (z.insertNode member score newLevel).row i =
      if i < newLevel then
        linkRow z.fresh (updateAt z member score i)
          (rankAt z member score 0 - rankAt z member score i) (unlinkedRow z newLevel i)
      else if i < z.level then
        spanRow (updateAt z member score i)
          ((unlinkedRow z newLevel i (updateAt z member score i)).2 + 1)
          (unlinkedRow z newLevel i)
      else unlinkedRow z newLevel i := by
  -- the memory with the new node, then linked, then with the spans above it bumped
  let w : ZSet F :=
    { (z.raise newLevel).setNode z.fresh (newZSetNode newLevel member score) with
      fresh := z.fresh + 1 }
  let w1 : ZSet F := (List.range newLevel).foldl (fun w i =>
    w.link z.fresh (updateAt z member score i) i
      (rankAt z member score 0 - rankAt z member score i)) w
  have hw : ∀ j, w.row j = unlinkedRow z newLevel j := by
    intro j
    have hbase := raise_row z newLevel j
    funext p
    unfold unlinkedRow
    by_cases hp : p = z.fresh
    · have hmem : w.mem z.fresh = newZSetNode newLevel member score := Function.update_self ..
      rw [hp, Function.update_self]
      show ((w.mem z.fresh).forward j, (w.mem z.fresh).span j) = _
      rw [hmem]
      rfl
    · have hmem : w.mem p = (z.raise newLevel).mem p := Function.update_of_ne hp ..
      rw [Function.update_of_ne hp, ← hbase]
      show ((w.mem p).forward j, (w.mem p).span j) = _
      rw [hmem]
      rfl
  have hsame : SameNodes w w1 := sameNodes_foldl (fun v i => sameNodes_link v ..) _ w
  have hlevel : w1.level = max z.level newLevel :=
    hsame.level.trans (raise_same z newLevel).level
  have h1 := foldl_row (link_rowStep z.fresh (updateAt z member score)
    (fun i => rankAt z member score 0 - rankAt z member score i) hu) w
    (List.nodup_range (n := newLevel)) i
  have h2 := foldl_row (bump_rowStep (updateAt z member score) fun _ s => s + 1) w1
    (List.nodup_range' (s := newLevel) (n := w1.level - newLevel)) i
  refine (show (z.insertNode member score newLevel).row i = _ from h2).trans ?_
  have h1' : w1.row i = _ := h1
  rw [h1', hw, hlevel]
  by_cases hi : i < newLevel
  · rw [if_pos hi, if_pos (List.mem_range.mpr hi), if_neg]
    rw [List.mem_range'_1]
    omega
  · rw [if_neg hi, if_neg fun hm => hi (List.mem_range.mp hm)]
    by_cases hl : i < z.level
    · rw [if_pos hl, if_pos]
      rw [List.mem_range'_1]
      omega
    · rw [if_neg hl, if_neg]
      rw [List.mem_range'_1]
      omega

/-- The nodes after `Add`: the old ones, and the new one. -/
theorem insertNode_nodes :
    (∀ p, p ≠ z.fresh →
      ((z.insertNode member score newLevel).mem p).member = (z.mem p).member ∧
      ((z.insertNode member score newLevel).mem p).score = (z.mem p).score ∧
      ((z.insertNode member score newLevel).mem p).level = (z.mem p).level) ∧
    ((z.insertNode member score newLevel).mem z.fresh).member = member ∧
    ((z.insertNode member score newLevel).mem z.fresh).score = score ∧
    ((z.insertNode member score newLevel).mem z.fresh).level = newLevel ∧
    (z.insertNode member score newLevel).fresh = z.fresh + 1 ∧
    (z.insertNode member score newLevel).level = max z.level newLevel ∧
    (z.insertNode member score newLevel).length = z.length + 1 ∧
    (z.insertNode member score newLevel).dict = Function.update z.dict member (some score) ∧
    (z.insertNode member score newLevel).tail =
      if ((z.insertNode member score newLevel).mem z.fresh).forward 0 = none then some z.fresh
      else z.tail := by
  let w : ZSet F :=
    { (z.raise newLevel).setNode z.fresh (newZSetNode newLevel member score) with
      fresh := z.fresh + 1 }
  let w1 : ZSet F := (List.range newLevel).foldl (fun w i =>
    w.link z.fresh (updateAt z member score i) i
      (rankAt z member score 0 - rankAt z member score i)) w
  have hr := raise_same z newLevel
  have hs : SameNodes w ((List.range' newLevel (w1.level - newLevel)).foldl (fun w i =>
      w.setSpan (updateAt z member score i) i
        ((w.mem (updateAt z member score i)).span i + 1)) w1) :=
    (sameNodes_foldl (fun v i => sameNodes_link v ..) _ w).trans
      (sameNodes_foldl (fun v i => sameNodes_setSpan v ..) _ w1)
  have hnew : w.mem z.fresh = newZSetNode newLevel member score := Function.update_self ..
  refine ⟨fun p hp => ?_, ?_, ?_, ?_, hs.fresh, hs.level.trans hr.level, ?_, ?_, ?_⟩
  · have hold : w.mem p = (z.raise newLevel).mem p := Function.update_of_ne hp ..
    exact ⟨(hs.member p).trans ((congrArg ZSetNode.member hold).trans (hr.member p)),
      (hs.score p).trans ((congrArg ZSetNode.score hold).trans (hr.score p)),
      (hs.height p).trans ((congrArg ZSetNode.level hold).trans (hr.height p))⟩
  · exact (hs.member _).trans (congrArg ZSetNode.member hnew)
  · exact (hs.score _).trans (congrArg ZSetNode.score hnew)
  · exact (hs.height _).trans (congrArg ZSetNode.level hnew)
  · exact congrArg (· + 1) (hs.length.trans hr.length)
  · exact congrArg (fun f => Function.update f member (some score)) (hs.dict.trans hr.dict)
  · have htail := hs.tail.trans hr.tail
    exact congrArg (fun t => if ((z.insertNode member score newLevel).mem z.fresh).forward 0 =
      none then some z.fresh else t) htail

end Insert

/-! ## The loops of deleteNode -/

/-- Row `i` after `c`, behind `u`, has been unlinked. -/
def cutRow (u c : Nat) (ρ : Row) : Row :=
  Function.update ρ u ((ρ c).1, (ρ u).2 + ((ρ c).2 - 1))

/-- Row `i` after the loop that follows: the span at `u` is decremented if `u`
    points nowhere. -/
def trimRow (u : Nat) (ρ : Row) : Row :=
  if (ρ u).1 = none then spanRow u ((ρ u).2 - 1) ρ else ρ

/-- One round of the unlinking loop. -/
theorem cut_row (z : ZSet F) {u c : Nat} (hc : u ≠ c) (i j : Nat) :
    ((z.setSpan u i ((z.mem u).span i + ((z.mem c).span i - 1))).setForward u i
        (((z.setSpan u i ((z.mem u).span i + ((z.mem c).span i - 1))).mem c).forward i)).row j =
      if j = i then cutRow u c (z.row i) else z.row j := by
  rw [setForward_row]
  by_cases hj : j = i
  · rw [if_pos hj, if_pos hj]
    have hat : ((z.setSpan u i ((z.mem u).span i + ((z.mem c).span i - 1))).mem c).forward i =
        (z.row i c).1 := by
      show ((z.setSpan u i _).row i c).1 = _
      rw [setSpan_row, if_pos rfl, Function.update_of_ne hc.symm]
    rw [hat, setSpan_row, if_pos rfl]
    unfold cutRow
    rw [Function.update_self, Function.update_idem]
    rfl
  · rw [if_neg hj, if_neg hj, setSpan_row, if_neg hj]

/-- The unlinking loop from level `k` on, when `c` is on the levels below
    `h`: it stops at `h` by itself. -/
theorem unlink_row {u : Nat → Nat} {c h : Nat} (hc : ∀ i, i < h → u i ≠ c) :
    ∀ (n k : Nat) (z : ZSet F),
      (∀ i, k ≤ i → i < k + n → ((z.row i (u i)).1 = some c ↔ i < h)) → ∀ j,
      (ZSet.unlink u c (List.range' k n) z).row j =
        if k ≤ j ∧ j < k + n ∧ j < h then cutRow (u j) c (z.row j) else z.row j := by
  intro n
  induction n with
  | zero =>
    intro k z _ j
    rw [if_neg (by omega)]
    rfl
  | succ n ih =>
    intro k z hon j
    have hk := hon k (Nat.le_refl k) (by omega)
    rw [List.range'_succ, ZSet.unlink]
    by_cases hkh : k < h
    · have hfwd : (z.mem (u k)).forward k = some c := hk.mpr hkh
      rw [if_neg (not_not.mpr hfwd)]
      rw [ih (k + 1) _ ?_ j]
      · rw [cut_row z (hc k hkh)]
        by_cases hjk : j = k
        · subst hjk
          rw [if_neg (by omega), if_pos rfl, if_pos (by omega)]
        · rw [if_neg hjk]
          by_cases hj : k + 1 ≤ j ∧ j < k + 1 + n ∧ j < h
          · rw [if_pos hj, if_pos (by omega)]
          · rw [if_neg hj, if_neg (by omega)]
      · intro i hki hin
        rw [cut_row z (hc k hkh), if_neg (by omega)]
        exact hon i (by omega) (by omega)
    · have hfwd : (z.mem (u k)).forward k ≠ some c := fun e => hkh (hk.mp e)
      rw [if_pos hfwd, if_neg (by omega)]

theorem unlink_same (u : Nat → Nat) (c : Nat) : ∀ (is : List Nat) (z : ZSet F),
    SameNodes z (ZSet.unlink u c is z) := by
  intro is
  induction is with
  | nil => exact SameNodes.refl
  | cons i is ih =>
    intro z
    rw [ZSet.unlink]
    by_cases hf : (z.mem (u i)).forward i ≠ some c
    · rw [if_pos hf]
      exact SameNodes.refl z
    · rw [if_neg hf]
      exact (sameNodes_setSpan ..).trans ((sameNodes_setForward ..).trans (ih _))

theorem trim_rowStep (u : Nat → Nat) :
    RowStep (fun (z : ZSet F) i => if (z.mem (u i)).forward i = none then
        z.setSpan (u i) i ((z.mem (u i)).span i - 1) else z) fun i => trimRow (u i) := by
  intro z i j
  show (if (z.mem (u i)).forward i = none then z.setSpan (u i) i ((z.mem (u i)).span i - 1)
    else z).row j = if j = i then trimRow (u i) (z.row i) else z.row j
  unfold trimRow
  by_cases hn : (z.mem (u i)).forward i = none
  · have hn' : (z.row i (u i)).1 = none := hn
    rw [if_pos hn, if_pos hn', setSpan_row]
    rfl
  · have hn' : ¬ (z.row i (u i)).1 = none := hn
    rw [if_neg hn, if_neg hn']
    by_cases hj : j = i
    · rw [if_pos hj, hj]
    · rw [if_neg hj]

theorem trim_same (u : Nat → Nat) (is : List Nat) (z : ZSet F) :
    SameNodes z (ZSet.trimSpans u is z) := by
  refine sameNodes_foldl (fun z i => ?_) is z
  by_cases hn : (z.mem (u i)).forward i = none
  · rw [if_pos hn]
    exact sameNodes_setSpan ..
  · rw [if_neg hn]
    exact SameNodes.refl z

/-- Row `i` after `c` has been taken out, if it is on the levels below `h`. -/
theorem detach_row {z : ZSet F} {u : Nat → Nat} {c h : Nat} (member : Bytes)
    (hc : ∀ i, i < h → u i ≠ c) (hon : ∀ i, i < z.level → ((z.row i (u i)).1 = some c ↔ i < h))
    (j : Nat) :
    (z.detach u c member).row j =
      if j < z.level then trimRow (u j) (if j < h then cutRow (u j) c (z.row j) else z.row j)
      else z.row j := by
  have h1 := unlink_row hc z.level 0 z (fun i _ hi => hon i (by omega))
  rw [← List.range_eq_range'] at h1
  have hlevel := (unlink_same u c (List.range z.level) z).level
  have h2 := foldl_row (trim_rowStep u) (ZSet.unlink u c (List.range z.level) z)
    (List.nodup_reverse.mpr
      (List.nodup_range (n := (ZSet.unlink u c (List.range z.level) z).level))) j
  refine (show (z.detach u c member).row j = _ from h2).trans ?_
  rw [hlevel, h1 j]
  by_cases hj : j < z.level
  · rw [if_pos hj, if_pos (List.mem_reverse.mpr (List.mem_range.mpr hj))]
    by_cases hjh : j < h
    · rw [if_pos hjh, if_pos (by omega)]
    · rw [if_neg hjh, if_neg (by omega)]
  · rw [if_neg hj, if_neg fun hm => hj (List.mem_range.mp (List.mem_reverse.mp hm)),
      if_neg (by omega)]

/-- The nodes after `c` has been taken out. -/
theorem detach_nodes (z : ZSet F) (u : Nat → Nat) (c : Nat) (member : Bytes) :
    (∀ p, ((z.detach u c member).mem p).member = (z.mem p).member ∧
      ((z.detach u c member).mem p).score = (z.mem p).score ∧
      ((z.detach u c member).mem p).level = (z.mem p).level) ∧
    (z.detach u c member).fresh = z.fresh ∧
    (z.detach u c member).level =
      ZSet.shrink (fun i => ((z.detach u c member).row i header).1) z.level ∧
    (z.detach u c member).length = z.length - 1 ∧
    (z.detach u c member).dict = Function.update z.dict member none ∧
    (z.detach u c member).tail =
      if ((z.detach u c member).row 0 c).1 = none then
        if u 0 = header then none else some (u 0)
      else z.tail := by
  have hs : SameNodes z (ZSet.trimSpans u
      (List.range (ZSet.unlink u c (List.range z.level) z).level).reverse
      (ZSet.unlink u c (List.range z.level) z)) :=
    (unlink_same u c _ z).trans (trim_same u _ _)
  refine ⟨fun p => ⟨hs.member p, hs.score p, hs.height p⟩, hs.fresh, ?_, ?_, ?_, ?_⟩
  · exact congrArg (ZSet.shrink fun i => ((z.detach u c member).row i header).1) hs.level
  · exact congrArg (· - 1) hs.length
  · exact congrArg (fun f => Function.update f member none) hs.dict
  · exact congrArg (fun t => if ((z.detach u c member).row 0 c).1 = none then
      if u 0 = header then none else some (u 0) else t) hs.tail

/-! ## Forward pointers in rows -/

/-- The last node of a level's first part is a node of that part, or the
    header. -/
theorem lastFrom_onLevel_mem (z : ZSet F) (i : Nat) (A : List Nat) :
    lastFrom header (onLevel z i A) ∈ header :: A := by
  rcases List.mem_cons.mp (lastFrom_mem header (onLevel z i A)) with he | hm
  · rw [he]
    exact List.mem_cons_self
  · exact List.mem_cons_of_mem _ (mem_onLevel.mp hm).1

/-- Heights that agree put the same nodes on a level. -/
theorem onLevel_congr {z z' : ZSet F} {i : Nat} {A : List Nat}
    (h : ∀ p ∈ A, (z'.mem p).level = (z.mem p).level) : onLevel z' i A = onLevel z i A :=
  List.filter_congr fun p hp => by rw [h p hp]

theorem forward_eq_row (z : ZSet F) (i p : Nat) : (z.mem p).forward i = (z.row i p).1 := rfl

theorem spanRow_fst (u : Nat) (s : Int) (ρ : Row) (p : Nat) : (spanRow u s ρ p).1 = (ρ p).1 := by
  unfold spanRow
  rw [Function.update_apply]
  by_cases hp : p = u
  · rw [if_pos hp, hp]
  · rw [if_neg hp]

theorem trimRow_fst (u : Nat) (ρ : Row) (p : Nat) : (trimRow u ρ p).1 = (ρ p).1 := by
  unfold trimRow
  by_cases hn : (ρ u).1 = none
  · rw [if_pos hn, spanRow_fst]
  · rw [if_neg hn]

theorem unlinkedRow_fst (z : ZSet F) (newLevel i : Nat) {p : Nat} (hp : p ≠ z.fresh) :
    (unlinkedRow z newLevel i p).1 = (z.mem p).forward i := by
  unfold unlinkedRow
  rw [Function.update_of_ne hp]
  by_cases hi : z.level ≤ i ∧ i < newLevel
  · rw [if_pos hi, spanRow_fst]
    rfl
  · rw [if_neg hi]
    rfl

end TinyZSet
