import TinyRedis.ListSequenceProofs

/-! # Lists: occurrences and windows

    `RemoveElement` counts occurrences from one end or the other; `Index`, `Range`
    and `Trim` each normalise their bounds.  Here they are held against what they
    are for: a list cut at the last occurrence that goes, and positions counted
    from the front.  The one count that fails is the least integer, whose negation
    is itself. -/

namespace TinyList

open GoString LinkedChain TinyDb

/-! ## Occurrences -/

/-- `bytes.Equal` with the value that is to go. -/
def occurs (val : Option Bytes) (v : Option Bytes) : Bool := str v = str val

/-- **The right removal**: with `n` occurrences, the first `count`, the last
    `-count`, or all of them go, as far as there are so many; everything else
    stays in order, and the number is returned. -/
structure RemovesRight (val : Option Bytes) (count : Int) (vs vs' : List (Option Bytes))
    (removed : Int) : Prop where
  first : 0 < count → ∃ A B, vs = A ++ B ∧
    (A.countP (occurs val) : Int) = min count (vs.countP (occurs val)) ∧
    vs' = A.filter (fun v => !occurs val v) ++ B ∧ removed = A.countP (occurs val)
  last : count < 0 → ∃ A B, vs = A ++ B ∧
    (B.countP (occurs val) : Int) = min (-count) (vs.countP (occurs val)) ∧
    vs' = A ++ B.filter (fun v => !occurs val v) ∧ removed = B.countP (occurs val)
  all : count = 0 → vs' = vs.filter (fun v => !occurs val v) ∧
    removed = vs.countP (occurs val)

/-- The loop cuts the list behind the last occurrence that it takes. -/
theorem dropEqual_cut (val : Option Bytes) (vs : List (Option Bytes)) (n : Int) :
    ∃ A B, vs = A ++ B ∧ (A.countP (occurs val) : Int) = min (max n 0) (vs.countP (occurs val)) ∧
      RedisList.dropEqual (str val) n vs =
        (A.filter (fun v => !occurs val v) ++ B, (A.countP (occurs val) : Int)) := by
  induction vs generalizing n with
  | nil => exact ⟨[], [], rfl, by simp, by simp [RedisList.dropEqual]⟩
  | cons v vs ih =>
    by_cases hn : n ≤ 0
    · refine ⟨[], v :: vs, rfl, ?_, ?_⟩
      · rw [max_eq_right hn, List.countP_nil]
        omega
      · rw [RedisList.dropEqual, if_pos hn]
        rfl
    · by_cases hv : str v = str val
      · have hocc : occurs val v = true := decide_eq_true hv
        obtain ⟨A, B, rfl, hcount, hdrop⟩ := ih (n - 1)
        refine ⟨v :: A, B, rfl, ?_, ?_⟩
        · rw [List.countP_cons_of_pos hocc, List.countP_cons_of_pos hocc]
          push_cast
          omega
        · rw [RedisList.dropEqual, if_neg hn, if_pos hv, hdrop, List.countP_cons_of_pos hocc]
          simp [hocc]
      · have hocc : ¬ occurs val v = true := by simpa [occurs] using hv
        obtain ⟨A, B, rfl, hcount, hdrop⟩ := ih n
        refine ⟨v :: A, B, rfl, ?_, ?_⟩
        · rw [List.countP_cons_of_neg hocc, List.countP_cons_of_neg hocc]
          exact hcount
        · rw [RedisList.dropEqual, if_neg hn, if_neg hv, hdrop, List.countP_cons_of_neg hocc]
          simp [hocc]

/-- Where all the occurrences are before the cut, none is behind it. -/
theorem filter_of_countP_append {A B : List (Option Bytes)} {p : Option Bytes → Bool}
    (h : (A ++ B).countP p = A.countP p) :
    A.filter (fun v => !p v) ++ B = (A ++ B).filter (fun v => !p v) := by
  rw [List.countP_append] at h
  have hB : ∀ v ∈ B, (!p v) = true := by
    simpa using List.countP_eq_zero.mp (show B.countP p = 0 by omega)
  rw [List.filter_append, List.filter_eq_self.mpr hB]

/-- Negation wraps at the least integer and nowhere else. -/
theorem int64_neg {i : Int64} (hne : i ≠ Int64.minValue) : int64 (-i.toInt) = -i.toInt := by
  have hmin := i.le_toInt
  have hmax := i.toInt_lt
  have hne' : i.toInt ≠ -2 ^ 63 := fun heq => hne (Int64.toInt_inj.mp (heq.trans rfl))
  rw [int64, Int64.toInt_ofInt, Int.bmod_def]
  norm_num [Int64.size] at hmin hmax hne' ⊢
  split <;> omega

theorem int64_neg_minValue : int64 (-Int64.minValue.toInt) = -2 ^ 63 := by decide

/-- The method on the sequence is right for every count but the least. -/
theorem removeElement_right (val : Option Bytes) {count : Int64} (vs : List (Option Bytes))
    (hne : count ≠ Int64.minValue) :
    RemovesRight val count.toInt vs (RedisList.removeElement ⟨vs⟩ val count.toInt).1.vals
      (RedisList.removeElement ⟨vs⟩ val count.toInt).2 := by
  refine ⟨fun hpos => ?_, fun hneg => ?_, fun hzero => ?_⟩
  · obtain ⟨A, B, hvs, hcount, hdrop⟩ := dropEqual_cut val vs count.toInt
    rw [max_eq_left hpos.le] at hcount
    refine ⟨A, B, hvs, hcount, ?_⟩
    rw [RedisList.removeElement, if_neg hpos.ne', if_pos hpos.le, hdrop]
    exact ⟨rfl, rfl⟩
  · -- the loop from the back is the one from the front on the reversed list
    obtain ⟨B, A, hvs, hcount, hdrop⟩ := dropEqual_cut val vs.reverse (-count.toInt)
    rw [max_eq_left (by omega), List.countP_reverse] at hcount
    refine ⟨A.reverse, B.reverse, ?_, ?_, ?_⟩
    · rw [← List.reverse_append, ← hvs, List.reverse_reverse]
    · rw [List.countP_reverse]
      exact hcount
    · rw [RedisList.removeElement, if_neg hneg.ne, if_neg (by omega), int64_neg hne, hdrop]
      dsimp only
      rw [List.reverse_append, List.filter_reverse, List.countP_reverse]
      exact ⟨rfl, rfl⟩
  · obtain ⟨A, B, hvs, hcount, hdrop⟩ := dropEqual_cut val vs (vs.length : Int)
    have hle : vs.countP (occurs val) ≤ vs.length := List.countP_le_length
    have hall : vs.countP (occurs val) = A.countP (occurs val) := by omega
    rw [RedisList.removeElement, if_pos hzero, if_pos (by simp [RedisList.len]), RedisList.len,
      hdrop]
    dsimp only
    rw [hall]
    subst hvs
    exact ⟨filter_of_countP_append hall, rfl⟩

/-- At the least count the loop does not start. -/
theorem removeElement_minValue (val : Option Bytes) (vs : List (Option Bytes)) :
    RedisList.removeElement ⟨vs⟩ val Int64.minValue.toInt = (⟨vs⟩, 0) := by
  have hcount : (if Int64.minValue.toInt = 0 then RedisList.len ⟨vs⟩ else Int64.minValue.toInt) =
    Int64.minValue.toInt := if_neg (by decide)
  rw [RedisList.removeElement, hcount]
  dsimp only
  rw [if_neg (by decide), int64_neg_minValue]
  cases hvs : vs.reverse with
  | nil =>
    rw [List.reverse_eq_nil_iff.mp hvs]
    rfl
  | cons v rest =>
    rw [RedisList.dropEqual, if_pos (by norm_num), ← hvs]
    dsimp only
    rw [List.reverse_reverse]

/-- Where there is nothing to remove, nothing removed is right. -/
theorem removes_nothing {val : Option Bytes} {vs : List (Option Bytes)}
    (hnone : vs.countP (occurs val) = 0) :
    RemovesRight val Int64.minValue.toInt vs vs 0 := by
  refine ⟨fun hpos => absurd hpos (by decide), fun _ => ⟨vs, [], by simp, ?_, by simp, rfl⟩,
    fun hzero => absurd hzero (by decide)⟩
  rw [hnone]
  rfl

/-- **REMOVAL IS RIGHT BUT AT THE LEAST COUNT**: on every list of nodes
    `RemoveElement` runs through, and it takes out the right occurrences and
    returns their number iff the count is not the least integer or there is no
    occurrence. -/
theorem removeElement_right_iff {l : NodeList} {ps : List Nat} (h : Laid l .forth ps)
    (val : Option Bytes) (count : Int64) :
    (∃ removed l' qs, l.removeElement val count = some (removed, l') ∧ Laid l' .forth qs ∧
      RemovesRight val count.toInt (l.vals ps) (l'.vals qs) removed) ↔
    count ≠ Int64.minValue ∨ (l.vals ps).countP (occurs val) = 0 := by
  obtain ⟨l', qs, hrun, hlaid, hvals⟩ := h.removeElement val count
  constructor
  · rintro ⟨removed, l'', rs, hrun', hlaid', hright⟩
    refine or_iff_not_imp_left.mpr fun hmin => ?_
    rw [ne_eq, not_not] at hmin
    subst hmin
    obtain ⟨A, B, -, hcount, -, hremoved⟩ := hright.last (by decide)
    have hzero : removed = 0 := by
      rw [hrun', removeElement_minValue] at hrun
      exact (Prod.mk.inj (Option.some.inj hrun)).1
    have hmin : Int64.minValue.toInt = -2 ^ 63 := rfl
    rw [← hremoved, hzero, hmin] at hcount
    omega
  · intro hcond
    refine ⟨_, l', qs, hrun, hlaid, ?_⟩
    rw [hvals]
    by_cases hmin : count = Int64.minValue
    · subst hmin
      rw [removeElement_minValue]
      exact removes_nothing (hcond.resolve_left (not_not.mpr rfl))
    · exact removeElement_right val _ hmin

/-- The list `a b a a`, from which the last two `a` are to go. -/
theorem removeElement_right_last_two : ∃ l ps, (((NodeList.newList.rPush (some [97])).bind
    (·.rPush (some [98]))).bind (·.rPush (some [97]))).bind (·.rPush (some [97])) = some l ∧
    Laid l .forth ps ∧ l.vals ps = [some [97], some [98], some [97], some [97]] ∧
    ∃ removed l' qs, l.removeElement (some [97]) (-2) = some (removed, l') ∧ Laid l' .forth qs ∧
      RemovesRight (some [97]) (-2) (l.vals ps) (l'.vals qs) removed := by
  obtain ⟨l₁, ps₁, hrun₁, hlaid₁, hvals₁⟩ := laid_newList.rPush (some [97])
  obtain ⟨l₂, ps₂, hrun₂, hlaid₂, hvals₂⟩ := hlaid₁.rPush (some [98])
  obtain ⟨l₃, ps₃, hrun₃, hlaid₃, hvals₃⟩ := hlaid₂.rPush (some [97])
  obtain ⟨l, ps, hrun, hlaid, hvals⟩ := hlaid₃.rPush (some [97])
  refine ⟨l, ps, by simp [hrun₁, hrun₂, hrun₃, hrun], hlaid, ?_,
    (removeElement_right_iff hlaid (some [97]) (-2)).mpr (.inl (by decide))⟩
  rw [hvals, hvals₃, hvals₂, hvals₁]
  rfl

/-- The last occurrence is asked for with the least count, and stays. -/
theorem removeElement_least_count : ∃ l ps, NodeList.newList.rPush (some [97]) = some l ∧
    Laid l .forth ps ∧ l.vals ps = [some [97]] ∧
    l.removeElement (some [97]) Int64.minValue = some (0, l) ∧
    ¬ RemovesRight (some [97]) Int64.minValue.toInt [some [97]] [some [97]] 0 := by
  obtain ⟨l, ps, hrun, hlaid, hvals⟩ := laid_newList.rPush (some [97])
  refine ⟨l, ps, hrun, hlaid, hvals, ?_, fun h => ?_⟩
  · cases hrun
    rfl
  · obtain ⟨A, B, -, hcount, -, hzero⟩ := h.last (by decide)
    rw [← hzero] at hcount
    exact absurd hcount (by decide)

/-! ## Windows -/

section Loops

variable {l : NodeList}

/-- The loop of `Range` keeps the values at the places from `start` to `stop`. -/
theorem rangeLoop_eq {start stop : Int} {q : Nat} {qs : List Nat} {fuel : Nat} {pos : Int}
    (h : Chain (l.links .forth) q (qs ++ [l.tail])) (htail : l.tail ∉ qs)
    (hfuel : qs.length < fuel) :
    l.rangeLoop start stop fuel (l.links .forth q) pos = some
      (((l.vals qs).take (stop + 1 - pos).toNat).drop (start - pos).toNat) := by
  induction qs generalizing q fuel pos with
  | nil =>
    cases fuel with
    | zero => simp at hfuel
    | succ fuel =>
      rw [h.1, NodeList.rangeLoop, if_neg (fun hc => hc.2 rfl)]
      simp
  | cons r qs ih =>
    cases fuel with
    | zero => simp at hfuel
    | succ fuel =>
      obtain ⟨hr, htail⟩ := not_or.mp (fun hor => htail (List.mem_cons.mpr hor))
      have hne : some r ≠ some l.tail := fun heq => hr (Option.some.inj heq).symm
      rw [h.1, NodeList.rangeLoop]
      by_cases hstop : pos ≤ stop
      · have hrest := @ih r fuel (pos + 1) h.2 htail (by simpa using hfuel)
        have htake : (stop + 1 - pos).toNat = (stop + 1 - (pos + 1)).toNat + 1 := by omega
        rw [if_pos ⟨hstop, hne⟩, htake, NodeList.vals, List.map_cons, List.take_succ_cons]
        simp only [Option.bind_eq_bind, Option.bind_some, ListNode.next_eq]
        rw [NodeList.links] at hrest
        rw [hrest]
        by_cases hstart : pos ≥ start
        · have hdrop : (start - pos).toNat = 0 := by omega
          have hdrop' : (start - (pos + 1)).toNat = 0 := by omega
          simp [hstart, hdrop, hdrop', NodeList.vals]
        · have hdrop : (start - pos).toNat = (start - (pos + 1)).toNat + 1 := by omega
          simp [hstart, hdrop, NodeList.vals]
      · have htake : (stop + 1 - pos).toNat = 0 := by omega
        rw [if_neg (fun hc => hstop hc.1), htake]
        simp

end Loops

/-- `Range` returns the normalised window. -/
theorem Laid.range {l : NodeList} {ps : List Nat} (h : Laid l .forth ps) (start stop : Int64) :
    ∃ r, l.range start stop = some r ∧ r.getD [] =
      ((l.vals ps).take (norm ps.length stop + 1).toNat).drop (norm ps.length start).toNat := by
  have hlen : (l.vals ps).length = ps.length := Laid.vals_length
  have htail : l.tail ∉ ps := fun hmem => (h.ne_ends hmem).2 rfl
  have ha : (if start.toInt < 0 then (ps.length : Int) + start.toInt else start.toInt) =
    norm ps.length start := rfl
  have hb : (if stop.toInt < 0 then (ps.length : Int) + stop.toInt else stop.toInt) =
    norm ps.length stop := rfl
  rw [NodeList.range, h.len, RedisList.window, ha, hb]
  generalize norm ps.length start = a
  generalize norm ps.length stop = b
  by_cases hout : a > b ∨ a ≥ ps.length ∨ b < 0
  · refine ⟨none, by rw [if_pos hout], Eq.symm ?_⟩
    rw [Option.getD_none, List.drop_eq_nil_iff, List.length_take]
    omega
  · have hslice : ((l.vals ps).take
        ((if b ≥ ps.length then (ps.length : Int) - 1 else b) + 1 - 0).toNat).drop
          ((if a < 0 then 0 else a) - 0).toNat =
        ((l.vals ps).take (b + 1).toNat).drop a.toNat := by
      have hdrop : ((if a < 0 then 0 else a) - 0).toNat = a.toNat := by split <;> omega
      have htake : min ((if b ≥ ps.length then (ps.length : Int) - 1 else b) + 1 - 0).toNat
          ps.length = min (b + 1).toNat ps.length := by split <;> omega
      rw [hdrop, List.take_eq_take_min, hlen, htake, ← hlen, ← List.take_eq_take_min]
    have hloop : l.rangeLoop (if a < 0 then 0 else a)
        (if b ≥ ps.length then (ps.length : Int) - 1 else b) l.fresh (l.mem l.head).next 0 =
        some _ := rangeLoop_eq h.laced.there htail h.length_lt
    rw [hslice] at hloop
    refine ⟨some (((l.vals ps).take (b + 1).toNat).drop a.toNat), ?_, rfl⟩
    rw [if_neg hout]
    dsimp only
    rw [hloop]
    rfl

/-- **Windows agree**: the positions from `max 0 s'` to `min (n - 1) e'`, as
    `Range` returns them, as `Index` finds them and as `Trim` leaves them. -/
structure WindowsAgree (l : NodeList) (ps : List Nat) (s e : Int64) : Prop where
  index : ∀ i : Int64, l.index i = some (if 0 ≤ norm ps.length i then
    ps[(norm ps.length i).toNat]? else none)
  range : ∃ r, l.range s e = some r ∧
    ((r.getD []).length : Int) =
      max 0 (min ((ps.length : Int) - 1) (norm ps.length e) + 1 - max 0 (norm ps.length s)) ∧
    (∀ j : Int64, max 0 (norm ps.length s) ≤ j.toInt →
      j.toInt ≤ min ((ps.length : Int) - 1) (norm ps.length e) →
      ∃ node, l.index j = some (some node) ∧
        (r.getD [])[(j.toInt - max 0 (norm ps.length s)).toNat]? = some (l.mem node).val) ∧
    ∃ l' qs, l.trim s e = some l' ∧ Laid l' .forth qs ∧ l'.vals qs = r.getD []

/-- **INDEX, RANGE AND TRIM AGREE** on every list of nodes and all bounds. -/
theorem index_range_trim_agree {l : NodeList} {ps : List Nat} (h : Laid l .forth ps) (s e : Int64) :
    WindowsAgree l ps s e := by
  have hindex : ∀ i : Int64, l.index i = some (if 0 ≤ norm ps.length i then
      ps[(norm ps.length i).toNat]? else none) := by
    intro i
    rw [h.index i]
    by_cases hlow : 0 ≤ norm ps.length i
    · by_cases hhigh : norm ps.length i < ps.length
      · rw [if_pos ⟨hlow, hhigh⟩, if_pos hlow]
      · rw [if_neg (fun hc => hhigh hc.2), if_pos hlow, List.getElem?_eq_none (by omega)]
    · rw [if_neg (fun hc => hlow hc.1), if_neg hlow]
  obtain ⟨r, hrange, hr⟩ := h.range s e
  obtain ⟨l', qs, htrim, hlaid, hvals⟩ := h.trim s e
  have hlen : (l.vals ps).length = ps.length := Laid.vals_length
  refine ⟨hindex, r, hrange, ?_, ?_, l', qs, htrim, hlaid, hvals.trans hr.symm⟩
  · rw [hr, List.length_drop, List.length_take, hlen]
    omega
  · intro j hlow hhigh
    have hnorm : norm ps.length j = j.toInt := if_neg (by omega)
    have hj : j.toInt.toNat < ps.length := by omega
    refine ⟨ps[j.toInt.toNat], ?_, ?_⟩
    · rw [hindex, hnorm, if_pos (by omega), List.getElem?_eq_getElem hj]
    · have hplace : (norm ps.length s).toNat + (j.toInt - max 0 (norm ps.length s)).toNat =
        j.toInt.toNat := by omega
      rw [hr, List.getElem?_drop, hplace, List.getElem?_take_of_lt (by omega), NodeList.vals,
        List.getElem?_map, List.getElem?_eq_getElem hj]
      rfl

/-- Three values, of which the last two are asked for. -/
theorem index_range_trim_agree_three : ∃ l ps, ((NodeList.newList.rPush (some [97])).bind
    (·.rPush (some [98]))).bind (·.rPush (some [99])) = some l ∧
    Laid l .forth ps ∧ l.vals ps = [some [97], some [98], some [99]] ∧
    WindowsAgree l ps (-2) 7 := by
  obtain ⟨l₁, ps₁, hrun₁, hlaid₁, hvals₁⟩ := laid_newList.rPush (some [97])
  obtain ⟨l₂, ps₂, hrun₂, hlaid₂, hvals₂⟩ := hlaid₁.rPush (some [98])
  obtain ⟨l₃, ps₃, hrun₃, hlaid₃, hvals₃⟩ := hlaid₂.rPush (some [99])
  refine ⟨l₃, ps₃, by simp [hrun₁, hrun₂, hrun₃], hlaid₃, ?_,
    index_range_trim_agree hlaid₃ (-2) 7⟩
  rw [hvals₃, hvals₂, hvals₁]
  rfl

end TinyList
