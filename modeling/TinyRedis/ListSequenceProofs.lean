import TinyRedis.ListRefinementProofs

/-! # Lists: the methods on the sequence

    What each method does to the sequence of values, and that the nodes follow:
    from `NewList` on, whatever is called with whatever arguments, no nil link is
    met, the links stay laced, and values and results are those of the sequence. -/

namespace TinyList

open GoString LinkedChain TinyDb

/-- An index; a negative one counts from the end. -/
def norm (len : Nat) (i : Int64) : Int := if i.toInt < 0 then len + i.toInt else i.toInt

/-- The methods that change a list. -/
inductive ListOp where
  | lPush (val : Option Bytes)
  | rPush (val : Option Bytes)
  | lPop
  | rPop
  | set (index : Int64) (val : Option Bytes)
  | insertBefore (val tar : Option Bytes)
  | insertAfter (val tar : Option Bytes)
  | removeElement (val : Option Bytes) (count : Int64)
  | trim (start stop : Int64)
  | clear

/-- What they return. -/
inductive ListRes where
  | done
  | node (val : Option (Option Bytes))
  | ok (b : Bool)
  | num (n : Int)

namespace ListOp

/-- The call of a method. -/
def run : ListOp → NodeList → Option (ListRes × NodeList)
  | .lPush val, l => do return (.done, ← l.lPush val)
  | .rPush val, l => do return (.done, ← l.rPush val)
  | .lPop, l => do
    let (node, l) ← l.lPop
    return (.node node, l)
  | .rPop, l => do
    let (node, l) ← l.rPop
    return (.node node, l)
  | .set index val, l => do
    let (ok, l) ← l.set index val
    return (.ok ok, l)
  | .insertBefore val tar, l => do
    let (pos, l) ← l.insertBefore val tar
    return (.num pos, l)
  | .insertAfter val tar, l => do
    let (pos, l) ← l.insertAfter val tar
    return (.num pos, l)
  | .removeElement val count, l => do
    let (removed, l) ← l.removeElement val count
    return (.num removed, l)
  | .trim start stop, l => do return (.done, ← l.trim start stop)
  | .clear, l => do return (.done, ← l.clear)

/-- **The sequence**: what a method returns and leaves, given the values. -/
def spec : ListOp → List (Option Bytes) → ListRes × List (Option Bytes)
  | .lPush val, vs => (.done, val :: vs)
  | .rPush val, vs => (.done, vs ++ [val])
  | .lPop, vs => (.node vs.head?, vs.tail)
  | .rPop, vs => (.node vs.getLast?, vs.dropLast)
  | .set index val, vs =>
    let i := norm vs.length index
    if 0 ≤ i ∧ i < vs.length then (.ok true, vs.set i.toNat val) else (.ok false, vs)
  | .insertBefore val tar, vs =>
    match vs.findIdx? fun v => str v = str tar with
    | none => (.num (-1), vs)
    | some i => (.num i, vs.take i ++ val :: vs.drop i)
  | .insertAfter val tar, vs =>
    match vs.findIdx? fun v => str v = str tar with
    | none => (.num (-1), vs)
    | some i => (.num (i + 1), vs.take (i + 1) ++ val :: vs.drop (i + 1))
  | .removeElement val count, vs =>
    let r := RedisList.removeElement ⟨vs⟩ val count.toInt
    (.num r.2, r.1.vals)
  | .trim start stop, vs =>
    (.done, (vs.take (norm vs.length stop + 1).toNat).drop (norm vs.length start).toNat)
  | .clear, _ => (.done, [])

end ListOp

/-! ## The index -/

/-- Negation wraps only at the least integer. -/
theorem int64_neg_le (i : Int64) (hneg : i.toInt < 0) : int64 (-i.toInt) ≤ -i.toInt := by
  have hmin := i.le_toInt
  rw [int64, Int64.toInt_ofInt, Int.bmod_def]
  norm_num [Int64.size] at hmin ⊢
  split <;> omega

namespace Laid

variable {l : NodeList} {ps : List Nat}

theorem vals_length : (l.vals ps).length = ps.length := List.length_map _

/-- There are fewer nodes than pointers. -/
theorem length_lt (h : Laid l .forth ps) : ps.length < l.fresh := by
  have hsub : l.ends .forth :: (ps ++ [l.ends Dir.forth.opp]) ⊆ List.range l.fresh :=
    fun p hp => List.mem_range.mpr (h.bound p hp)
  have hle := (List.subperm_of_subset h.laced.nodup hsub).length_le
  simp only [List.length_cons, List.length_append, List.length_range] at hle
  omega

/-- `Index` finds the node at the normalised index. -/
theorem index (h : Laid l .forth ps) (i : Int64) :
    l.index i = some (if 0 ≤ norm ps.length i ∧ norm ps.length i < ps.length then
      ps[(norm ps.length i).toNat]? else none) := by
  have hout : i.toInt < 0 ∧ int64 (-i.toInt) > l.len → norm ps.length i < 0 := by
    rintro ⟨hneg, hgt⟩
    have hle := int64_neg_le i hneg
    rw [h.len] at hgt
    rw [norm, if_pos hneg]
    omega
  have hnorm : (if i.toInt < 0 then l.len + i.toInt else i.toInt) = norm ps.length i := by
    rw [norm, h.len]
  rw [NodeList.index]
  dsimp only
  rw [hnorm, h.len]
  by_cases hin : 0 ≤ norm ps.length i ∧ norm ps.length i < ps.length
  · rw [if_pos hin, if_neg (fun hc => by have := hout (by rwa [h.len]); omega), if_neg (by omega)]
    split
    · have hforth := steps_eq (k := (norm ps.length i).toNat) h.laced.there (by simp; omega)
      rw [List.getElem?_append_left (by omega)] at hforth
      exact hforth
    · have hback := steps_eq (k := (ps.length - 1 - norm ps.length i).toNat) h.laced.back
        (by simp; omega)
      rw [List.getElem?_append_left (by simp; omega), List.getElem?_reverse (by omega)] at hback
      refine hback.trans (congrArg (fun k => some ps[k]?) ?_)
      omega
  · rw [if_neg hin]
    split
    · rfl
    · rw [if_pos (by omega)]

/-! ## The methods -/

theorem setVal (h : Laid l .forth ps) (p : Nat) (val : Option Bytes) :
    Laid (l.setVal p val) .forth ps := by
  have hlinks : (l.setVal p val).links = l.links := by
    funext d q
    simp
  obtain ⟨hlaced, hbound, hlen⟩ := h
  refine ⟨?_, ?_, hlen⟩
  · rw [hlinks, NodeList.setVal_ends]
    exact hlaced
  · rw [NodeList.setVal_ends]
    exact hbound

theorem nodup (h : Laid l .forth ps) : ps.Nodup :=
  (List.nodup_append.mp (List.nodup_cons.mp h.laced.nodup).2).1

/-- A value set at one node is set at its place in the sequence. -/
theorem vals_setVal (h : Laid l .forth ps) {k p : Nat} (hk : ps[k]? = some p) (val : Option Bytes) :
    (l.setVal p val).vals ps = (l.vals ps).set k val := by
  obtain ⟨hlt, rfl⟩ := List.getElem?_eq_some_iff.mp hk
  refine List.ext_getElem (by simp [vals_length]) fun i hi _ => ?_
  have hi : i < ps.length := by simpa [vals_length] using hi
  simp only [NodeList.vals, List.getElem_map, NodeList.setVal_val, List.getElem_set,
    h.nodup.getElem_inj_iff, eq_comm]

theorem set (h : Laid l .forth ps) (index : Int64) (val : Option Bytes) :
    ∃ l', l.set index val = some
        (decide (0 ≤ norm ps.length index ∧ norm ps.length index < ps.length), l') ∧
      Laid l' .forth ps ∧ l'.vals ps =
        if 0 ≤ norm ps.length index ∧ norm ps.length index < ps.length then
          (l.vals ps).set (norm ps.length index).toNat val else l.vals ps := by
  by_cases hin : 0 ≤ norm ps.length index ∧ norm ps.length index < ps.length
  · have hk : (norm ps.length index).toNat < ps.length := by omega
    refine ⟨l.setVal ps[(norm ps.length index).toNat] val, ?_, h.setVal _ val, ?_⟩
    · rw [NodeList.set, h.index, if_pos hin, List.getElem?_eq_getElem hk, decide_eq_true hin]
      rfl
    · rw [if_pos hin]
      exact h.vals_setVal (List.getElem?_eq_getElem hk) val
  · refine ⟨l, ?_, h, (if_neg hin).symm⟩
    rw [NodeList.set, h.index, if_neg hin, decide_eq_false hin]
    rfl

/-- The node at a place of the sequence. -/
theorem split_at {k : Nat} (hk : k < ps.length) :
    ∃ A c B, ps = A ++ c :: B ∧ A.length = k ∧ ps[k]? = some c := by
  refine ⟨ps.take k, ps[k], ps.drop (k + 1), ?_, by simp; omega, List.getElem?_eq_getElem hk⟩
  rw [List.getElem_cons_drop, List.take_append_drop]

theorem vals_reverse (qs : List Nat) : l.vals qs.reverse = (l.vals qs).reverse := List.map_reverse

theorem lPush (h : Laid l .forth ps) (val : Option Bytes) :
    ∃ l' qs, l.lPush val = some l' ∧ Laid l' .forth qs ∧ l'.vals qs = val :: l.vals ps := by
  obtain ⟨l', hrun, hlaid, hvals⟩ := Laid.insertNext (A := []) h val
  exact ⟨l', _, hrun, hlaid, hvals⟩

theorem rPush (h : Laid l .forth ps) (val : Option Bytes) :
    ∃ l' qs, l.rPush val = some l' ∧ Laid l' .forth qs ∧ l'.vals qs = l.vals ps ++ [val] := by
  obtain ⟨l', hrun, hlaid, hvals⟩ := Laid.insertNext (A := []) h.flip val
  refine ⟨l', ps ++ [l.fresh], hrun, Laid.unflip (by simpa using hlaid), ?_⟩
  have hrev := congrArg List.reverse hvals
  simpa [← vals_reverse] using hrev

theorem lPop (h : Laid l .forth ps) :
    ∃ l' qs, l.lPop = some ((l.vals ps).head?, l') ∧ Laid l' .forth qs ∧
      l'.vals qs = (l.vals ps).tail := by
  cases ps with
  | nil => exact ⟨l, [], by simp [NodeList.lPop, NodeList.pop, h.len], h, rfl⟩
  | cons c B =>
    obtain ⟨l', hrun, hlaid, hvals⟩ := h.pop
    exact ⟨l', B, hrun, hlaid, NodeList.vals_congr fun p _ => hvals p⟩

theorem rPop (h : Laid l .forth ps) :
    ∃ l' qs, l.rPop = some ((l.vals ps).getLast?, l') ∧ Laid l' .forth qs ∧
      l'.vals qs = (l.vals ps).dropLast := by
  rcases List.eq_nil_or_concat ps with rfl | ⟨B, c, rfl⟩
  · exact ⟨l, [], by simp [NodeList.rPop, NodeList.pop, h.len], h, rfl⟩
  · rw [List.concat_eq_append] at h ⊢
    have hflip : Laid l .back (c :: B.reverse) := by
      have hflip := h.flip
      rw [List.reverse_append] at hflip
      exact hflip
    obtain ⟨l', hrun, hlaid, hvals⟩ := hflip.pop
    refine ⟨l', B, ?_, Laid.unflip hlaid, ?_⟩
    · simpa [NodeList.rPop] using hrun
    · simpa using NodeList.vals_congr fun p _ => hvals p

/-- The search for `tar` finds its first occurrence. -/
theorem seek (h : Laid l .forth ps) (tar : Option Bytes) :
    l.seek (fun node => str node.val = str tar) l.fresh (l.mem l.head).next 0 = some
      (match (l.vals ps).findIdx? fun v => str v = str tar with
        | none => (none, ps.length)
        | some i => (ps[i]?, i)) := by
  have htail : l.tail ∉ ps := fun hmem => (h.ne_ends hmem).2 rfl
  refine (seek_eq _ h.laced.there htail h.length_lt).trans ?_
  rw [NodeList.vals, List.findIdx?_map]
  simp only [zero_add]
  rfl

/-- Where the search stops, the list splits. -/
theorem split_findIdx {tar : Option Bytes} {i : Nat}
    (hi : ((l.vals ps).findIdx? fun v => str v = str tar) = some i) :
    ∃ A c B, ps = A ++ c :: B ∧ A.length = i ∧ ps[i]? = some c := by
  obtain ⟨hlt, -⟩ := List.findIdx?_eq_some_iff_getElem.mp hi
  exact split_at (by simpa [vals_length] using hlt)

theorem insertBefore (h : Laid l .forth ps) (val tar : Option Bytes) :
    ∃ l' qs pos, l.insertBefore val tar = some (pos, l') ∧ Laid l' .forth qs ∧
      (ListOp.insertBefore val tar).spec (l.vals ps) = (.num pos, l'.vals qs) := by
  rw [NodeList.insertBefore, NodeList.insertBy, h.seek tar, ListOp.spec]
  cases hi : (l.vals ps).findIdx? fun v => str v = str tar with
  | none => exact ⟨l, ps, -1, rfl, h, rfl⟩
  | some i =>
    obtain ⟨A, c, B, rfl, rfl, hc⟩ := split_findIdx hi
    have hflip : Laid l .back ((B.reverse ++ [c]) ++ A.reverse) := by
      have hflip := h.flip
      rw [List.reverse_append, List.reverse_cons] at hflip
      exact hflip
    obtain ⟨l', hrun, hlaid, hvals⟩ := hflip.insertNext val
    rw [lastFrom_append, lastFrom_cons, lastFrom_nil] at hrun
    refine ⟨l', A ++ l.fresh :: c :: B, A.length, ?_, Laid.unflip (by simpa using hlaid), ?_⟩
    · simp [hrun]
    · have hrev := congrArg List.reverse hvals
      have hlen : (l.vals A).length = A.length := vals_length
      simp only [List.reverse_append, ← vals_reverse, List.reverse_cons, List.reverse_reverse,
        List.append_assoc, List.cons_append, List.nil_append, List.reverse_nil] at hrev
      dsimp only
      rw [hrev, NodeList.vals_append, List.take_left' hlen, List.drop_left' hlen]

theorem insertAfter (h : Laid l .forth ps) (val tar : Option Bytes) :
    ∃ l' qs pos, l.insertAfter val tar = some (pos, l') ∧ Laid l' .forth qs ∧
      (ListOp.insertAfter val tar).spec (l.vals ps) = (.num pos, l'.vals qs) := by
  rw [NodeList.insertAfter, NodeList.insertBy, h.seek tar, ListOp.spec]
  cases hi : (l.vals ps).findIdx? fun v => str v = str tar with
  | none => exact ⟨l, ps, -1, rfl, h, rfl⟩
  | some i =>
    obtain ⟨A, c, B, rfl, rfl, hc⟩ := split_findIdx hi
    have hsplit : A ++ c :: B = (A ++ [c]) ++ B := by simp
    rw [hsplit] at h ⊢
    obtain ⟨l', hrun, hlaid, hvals⟩ := h.insertNext val
    have hlen : (l.vals (A ++ [c])).length = A.length + 1 := by simp [vals_length]
    rw [lastFrom_append, lastFrom_cons, lastFrom_nil] at hrun
    refine ⟨l', _, A.length + 1, ?_, hlaid, ?_⟩
    · simp [hrun]
    · dsimp only
      rw [hvals, NodeList.vals_append l (A ++ [c]), List.take_left' hlen, List.drop_left' hlen]

theorem removeElement (h : Laid l .forth ps) (val : Option Bytes) (count : Int64) :
    ∃ l' qs, l.removeElement val count = some
        ((RedisList.removeElement ⟨l.vals ps⟩ val count.toInt).2, l') ∧
      Laid l' .forth qs ∧
      l'.vals qs = (RedisList.removeElement ⟨l.vals ps⟩ val count.toInt).1.vals := by
  rw [NodeList.removeElement, RedisList.removeElement, RedisList.len, vals_length, h.len]
  dsimp only
  generalize (if count.toInt = 0 then (ps.length : Int) else count.toInt) = n
  by_cases hempty : (ps.length : Int) = 0
  · obtain rfl : ps = [] := List.length_eq_zero_iff.mp (by omega)
    refine ⟨l, [], ?_, h, ?_⟩
    · rw [if_pos hempty]
      split <;> rfl
    · split <;> rfl
  · rw [if_neg hempty]
    split
    · obtain ⟨l', qs, hrun, hlaid, hvals⟩ :=
        removeLoop_spec .forth val n ps [] l l.fresh 0 h h.length_lt
      rw [sub_zero, zero_add] at hrun
      rw [sub_zero] at hvals
      exact ⟨l', qs, hrun, hlaid, hvals⟩
    · obtain ⟨l', qs, hrun, hlaid, hvals⟩ :=
        removeLoop_spec .back val (int64 (-n)) ps.reverse [] l l.fresh 0 h.flip
          (by simpa using h.length_lt)
      rw [sub_zero, zero_add, vals_reverse] at hrun
      rw [sub_zero, vals_reverse] at hvals
      refine ⟨l', qs.reverse, hrun, hlaid.flip, ?_⟩
      rw [vals_reverse, hvals]
      rfl

theorem sentinels (h : Laid l .forth ps) : l.head ≠ l.tail := fun heq =>
  (List.nodup_cons.mp h.laced.nodup).1
    (List.mem_append_right _ (List.mem_singleton.mpr heq))

/-- The first and the last node. -/
theorem outer (h : Laid l .forth ps) (hne : ps ≠ []) :
    ∃ f ∈ ps, ∃ g ∈ ps, (l.mem l.head).next = some f ∧ (l.mem l.tail).prev = some g := by
  have hne' : ps.reverse ≠ [] := by simpa using hne
  refine ⟨lastFrom l.tail ps.reverse, List.mem_reverse.mp (lastFrom_mem_self _ hne'),
    lastFrom l.head ps, lastFrom_mem_self _ hne, ?_, ?_⟩
  · exact (Laid.meet (A := []) h).1
  · exact (Laid.meet (B := []) (by simpa using h)).2.1

theorem clear (h : Laid l .forth ps) : ∃ l', l.clear = some l' ∧ Laid l' .forth [] := by
  rw [NodeList.clear, h.len]
  by_cases hempty : ps = []
  · subst hempty
    exact ⟨l, rfl, h⟩
  · obtain ⟨f, hf, g, hg, hfirst, hlast⟩ := h.outer hempty
    obtain ⟨hf, hf'⟩ : f ≠ l.head ∧ f ≠ l.tail := h.ne_ends hf
    obtain ⟨hg, hg'⟩ : g ≠ l.head ∧ g ≠ l.tail := h.ne_ends hg
    have hend : (l.mem l.tail).link .forth = none := h.laced.next_end
    have hend' : (l.mem l.head).link .back = none := h.flip.laced.next_end
    have hsent := h.sentinels
    refine ⟨((((l.setLink l.head .forth (some l.tail)).setLink l.tail .back
      (some l.head)).setLen 0).setLink f .back none).setLink g .forth none, ?_,
        ⟨?_, ?_, ?_⟩, ?_, rfl⟩
    · simp [hempty, hfirst, hlast]
    · simpa [NodeList.ends] using hsent
    · simp [Chain, NodeList.ends, hf.symm, hf'.symm, hg.symm, hg'.symm, hend, hsent, hsent.symm]
    · simp [Chain, NodeList.ends, hf.symm, hf'.symm, hg.symm, hg'.symm, hend', hsent]
    · intro p hp
      refine h.bound p ?_
      simp only [NodeList.setLink_ends, NodeList.setLen_ends, List.nil_append, List.mem_cons,
        List.mem_append] at hp ⊢
      tauto

/-- The nodes from place `i` to place `j` are kept. -/
theorem trimTo (h : Laid l .forth ps) {i j : Nat} (hij : i ≤ j) (hj : j < ps.length) :
    ∃ l' s e, l.trimLoop i j l.fresh (l.mem l.head).next 0 none = some (some s, some e) ∧
      l.relink s e = some l' ∧
      Laid (l'.setLen (j - i + 1)) .forth ((ps.take (j + 1)).drop i) ∧
      l'.vals ((ps.take (j + 1)).drop i) = ((l.vals ps).take (j + 1)).drop i := by
  have hW : (ps.take (j + 1)).drop i ≠ [] := by
    rw [ne_eq, List.drop_eq_nil_iff, List.length_take]
    omega
  have hps : ps = ps.take i ++ ((ps.take (j + 1)).drop i ++ ps.drop (j + 1)) := by
    have htake : ps.take i = (ps.take (j + 1)).take i := by
      rw [List.take_take, min_eq_left (by omega)]
    rw [htake, ← List.append_assoc, List.take_append_drop, List.take_append_drop]
  have hs : ps[i]? = some (lastFrom l.tail ((ps.take (j + 1)).drop i).reverse) := by
    rw [← head_of_ne_nil l.tail hW, List.head?_drop, List.getElem?_take_of_lt (by omega)]
  have he : ps[j]? = some (lastFrom l.head ((ps.take (j + 1)).drop i)) := by
    have hlast := head_of_ne_nil l.head (W := ((ps.take (j + 1)).drop i).reverse)
      (by simpa using hW)
    rw [List.reverse_reverse, List.head?_reverse] at hlast
    rw [← hlast, List.getLast?_drop, if_neg (by rw [List.length_take]; omega), List.getLast?_take,
      if_neg (by omega), Nat.add_sub_cancel, List.getElem?_eq_getElem hj, Option.some_or]
  have htail : l.tail ∉ ps := fun hmem => (h.ne_ends hmem).2 rfl
  have hloop : l.trimLoop i j l.fresh (l.mem l.head).next 0 none = some (ps[i]?, ps[j]?) := by
    refine (trimLoop_eq h.laced.there htail h.length_lt (by omega) (by omega) (by omega)).trans ?_
    simp
  have hsplit := h
  rw [hps] at hsplit
  obtain ⟨l', hrun, hlaced, hends, hfresh, hvals⟩ := hsplit.relink hW
  refine ⟨l', _, _, hs ▸ he ▸ hloop, hrun, ⟨?_, ?_, ?_⟩, ?_⟩
  · rw [NodeList.setLen_ends, hends]
    exact hlaced
  · intro p hp
    rw [NodeList.setLen_ends, hends] at hp
    rw [NodeList.setLen_fresh, hfresh]
    refine h.bound p ?_
    simp only [List.mem_cons, List.mem_append] at hp ⊢
    have hsub : p ∈ (ps.take (j + 1)).drop i → p ∈ ps := fun hp =>
      List.mem_of_mem_take (List.mem_of_mem_drop hp)
    tauto
  · rw [NodeList.setLen_len, List.length_drop, List.length_take]
    omega
  · rw [NodeList.vals_congr fun p _ => hvals p, NodeList.vals, NodeList.vals, List.map_drop,
      List.map_take]

/-- `Trim` keeps the normalised window. -/
theorem trim (h : Laid l .forth ps) (start stop : Int64) :
    ∃ l' qs, l.trim start stop = some l' ∧ Laid l' .forth qs ∧
      l'.vals qs = ((l.vals ps).take (norm ps.length stop + 1).toNat).drop
        (norm ps.length start).toNat := by
  have hlen : (l.vals ps).length = ps.length := vals_length
  have ha : (if start.toInt < 0 then (ps.length : Int) + start.toInt else start.toInt) =
    norm ps.length start := rfl
  have hb : (if stop.toInt < 0 then (ps.length : Int) + stop.toInt else stop.toInt) =
    norm ps.length stop := rfl
  rw [NodeList.trim, h.len, RedisList.window, ha, hb]
  generalize norm ps.length start = a
  generalize norm ps.length stop = b
  by_cases hempty : (ps.length : Int) = 0
  · obtain rfl : ps = [] := List.length_eq_zero_iff.mp (by omega)
    exact ⟨l, [], if_pos hempty, h, by simp⟩
  · rw [if_neg hempty]
    by_cases hout : a > b ∨ a ≥ ps.length ∨ b < 0
    · obtain ⟨l', hrun, hlaid⟩ := h.clear
      refine ⟨l', [], by simpa [hout] using hrun, hlaid, Eq.symm ?_⟩
      rw [NodeList.vals_nil, List.drop_eq_nil_iff, List.length_take]
      omega
    · have hi : (if a < 0 then 0 else a) = (a.toNat : Int) := by split <;> omega
      obtain ⟨j, hj, hcap⟩ : ∃ j : Nat, (if b ≥ ps.length then (ps.length : Int) - 1 else b) = j ∧
          j + 1 = min (b + 1).toNat ps.length :=
        ⟨(if b ≥ ps.length then (ps.length : Int) - 1 else b).toNat,
          by split <;> omega, by split <;> omega⟩
      obtain ⟨l', s, e, hloop, hrun, hlaid, hvals⟩ :=
        h.trimTo (i := a.toNat) (j := j) (by omega) (by omega)
      refine ⟨_, _, ?_, hlaid, ?_⟩
      · rw [if_neg hout]
        dsimp only
        rw [hi, hj, hloop]
        simp only [Option.bind_eq_bind, Option.bind_some, hrun]
        rfl
      · have htake : (l.vals ps).take (b + 1).toNat = (l.vals ps).take (j + 1) := by
          rw [hcap, ← hlen, List.take_eq_take_min]
        rw [htake, ← hvals]
        rfl

end Laid

/-! ## Runs -/

theorem laid_newList : Laid NodeList.newList .forth [] := by
  refine ⟨⟨by decide, ⟨rfl, rfl⟩, rfl, rfl⟩, by decide, rfl⟩

/-- **One call**: no nil link is met, and the list stays laid out. -/
theorem ListOp.run_spec (op : ListOp) {l : NodeList} {ps : List Nat} (h : Laid l .forth ps) :
    ∃ l' qs, op.run l = some ((op.spec (l.vals ps)).1, l') ∧ Laid l' .forth qs ∧
      l'.vals qs = (op.spec (l.vals ps)).2 := by
  cases op with
  | lPush val =>
    obtain ⟨l', qs, hrun, hlaid, hvals⟩ := h.lPush val
    exact ⟨l', qs, by simp [run, hrun, spec], hlaid, hvals⟩
  | rPush val =>
    obtain ⟨l', qs, hrun, hlaid, hvals⟩ := h.rPush val
    exact ⟨l', qs, by simp [run, hrun, spec], hlaid, hvals⟩
  | lPop =>
    obtain ⟨l', qs, hrun, hlaid, hvals⟩ := h.lPop
    exact ⟨l', qs, by simp [run, hrun, spec], hlaid, hvals⟩
  | rPop =>
    obtain ⟨l', qs, hrun, hlaid, hvals⟩ := h.rPop
    exact ⟨l', qs, by simp [run, hrun, spec], hlaid, hvals⟩
  | set index val =>
    obtain ⟨l', hrun, hlaid, hvals⟩ := h.set index val
    refine ⟨l', ps, ?_, hlaid, hvals.trans ?_⟩
    · simp only [run, hrun, spec, Laid.vals_length]
      split <;> simp_all
    · simp only [spec, Laid.vals_length]
      split <;> rfl
  | insertBefore val tar =>
    obtain ⟨l', qs, pos, hrun, hlaid, hspec⟩ := h.insertBefore val tar
    exact ⟨l', qs, by simp [run, hrun, hspec], hlaid, by rw [hspec]⟩
  | insertAfter val tar =>
    obtain ⟨l', qs, pos, hrun, hlaid, hspec⟩ := h.insertAfter val tar
    exact ⟨l', qs, by simp [run, hrun, hspec], hlaid, by rw [hspec]⟩
  | removeElement val count =>
    obtain ⟨l', qs, hrun, hlaid, hvals⟩ := h.removeElement val count
    exact ⟨l', qs, by simp [run, hrun, spec], hlaid, hvals⟩
  | trim start stop =>
    obtain ⟨l', qs, hrun, hlaid, hvals⟩ := h.trim start stop
    refine ⟨l', qs, by simp [run, hrun, spec], hlaid, hvals.trans ?_⟩
    simp only [spec, Laid.vals_length]
  | clear =>
    obtain ⟨l', hrun, hlaid⟩ := h.clear
    exact ⟨l', [], by simp [run, hrun, spec], hlaid, rfl⟩

/-- A sequence of calls. -/
def ListOp.runAll : List ListOp → NodeList → Option (List ListRes × NodeList)
  | [], l => some ([], l)
  | op :: ops, l => do
    let (res, l) ← op.run l
    let (rest, l) ← runAll ops l
    return (res :: rest, l)

/-- A sequence of calls, on the values. -/
def ListOp.specAll : List ListOp → List (Option Bytes) → List ListRes × List (Option Bytes)
  | [], vs => ([], vs)
  | op :: ops, vs =>
    let r := op.spec vs
    let rest := specAll ops r.2
    (r.1 :: rest.1, rest.2)

theorem ListOp.runAll_spec (ops : List ListOp) {l : NodeList} {ps : List Nat}
    (h : Laid l .forth ps) :
    ∃ l' qs, runAll ops l = some ((specAll ops (l.vals ps)).1, l') ∧ Laid l' .forth qs ∧
      l'.vals qs = (specAll ops (l.vals ps)).2 := by
  induction ops generalizing l ps with
  | nil => exact ⟨l, ps, rfl, h, rfl⟩
  | cons op ops ih =>
    obtain ⟨l₁, qs, hrun, hlaid, hvals⟩ := op.run_spec h
    obtain ⟨l₂, rs, hrest, hlaid', hvals'⟩ := ih hlaid
    rw [hvals] at hrest hvals'
    exact ⟨l₂, rs, by simp [runAll, hrun, hrest, specAll], hlaid', hvals'⟩

/-- **THE LIST REFINES THE SEQUENCE**: any calls with any arguments, from
    `NewList` on, meet no nil link; `Next` from `Head` visits some distinct nodes
    and then `Tail`, `Prev` from `Tail` visits them in reverse, `len` counts them,
    and their values and all results are those of the sequence. -/
theorem list_refines_sequence (ops : List ListOp) :
    ∃ l ps, ListOp.runAll ops NodeList.newList = some ((ListOp.specAll ops []).1, l) ∧
      Laid l .forth ps ∧ l.vals ps = (ListOp.specAll ops []).2 :=
  ListOp.runAll_spec ops laid_newList

end TinyList
