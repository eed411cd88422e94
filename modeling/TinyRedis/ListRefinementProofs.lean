import TinyRedis.ListNodesProofs

/-! # Lists: the nodes refine the sequence

    `Laid l d ps`: the nodes between the sentinels of `l`, met in direction `d`,
    are `ps`, and `len` counts them.  Splicing, cutting out and cutting down are
    done once, in `Laced`; a method of the list does one of them at a place that
    its loop has found. -/

namespace TinyList

open GoString LinkedChain TinyDb

/-- The links of a list. -/
@[simp] def NodeList.links (l : NodeList) (d : Dir) (p : Nat) : Option Nat := (l.mem p).link d

/-- The values of some nodes. -/
def NodeList.vals (l : NodeList) (ps : List Nat) : List (Option Bytes) :=
  ps.map fun p => (l.mem p).val

theorem NodeList.vals_congr {l l' : NodeList} {ps : List Nat}
    (h : ∀ p ∈ ps, (l'.mem p).val = (l.mem p).val) : l'.vals ps = l.vals ps :=
  List.map_congr_left h

@[simp] theorem NodeList.vals_append (l : NodeList) (ps qs : List Nat) :
    l.vals (ps ++ qs) = l.vals ps ++ l.vals qs := List.map_append

@[simp] theorem NodeList.vals_cons (l : NodeList) (p : Nat) (ps : List Nat) :
    l.vals (p :: ps) = (l.mem p).val :: l.vals ps := rfl

@[simp] theorem NodeList.vals_nil (l : NodeList) : l.vals [] = [] := rfl

/-- **The representation invariant**, in direction `d`. -/
structure Laid (l : NodeList) (d : Dir) (ps : List Nat) : Prop where
  laced : Laced l.links l.ends d ps
  bound : ∀ p ∈ l.ends d :: (ps ++ [l.ends d.opp]), p < l.fresh
  len : l.len = ps.length

namespace Laid

variable {l : NodeList} {d : Dir} {A B ps : List Nat} {c : Nat}

theorem flip (h : Laid l d ps) : Laid l d.opp ps.reverse where
  laced := h.laced.flip
  bound p hp := h.bound p (by
    simp only [List.mem_cons, List.mem_append, List.mem_reverse, Dir.opp_opp] at hp ⊢
    tauto)
  len := by simpa using h.len

/-- Every direction shows the same list. -/
theorem unflip (h : Laid l d.opp ps.reverse) : Laid l d ps := by
  simpa using h.flip

theorem fresh_notMem (h : Laid l d ps) : l.fresh ∉ l.ends d :: (ps ++ [l.ends d.opp]) :=
  fun hmem => Nat.lt_irrefl _ (h.bound _ hmem)

theorem lastFrom_lt (h : Laid l d (A ++ B)) : lastFrom (l.ends d) A < l.fresh := by
  refine h.bound _ ?_
  have hmem := lastFrom_mem (l.ends d) A
  simp only [List.mem_cons, List.mem_append] at hmem ⊢
  tauto

/-- The two nodes where `A` and `B` meet, and their links. -/
theorem meet (h : Laid l d (A ++ B)) :
    l.links d (lastFrom (l.ends d) A) = some (lastFrom (l.ends d.opp) B.reverse) ∧
      l.links d.opp (lastFrom (l.ends d.opp) B.reverse) = some (lastFrom (l.ends d) A) ∧
      lastFrom (l.ends d) A < l.fresh ∧ lastFrom (l.ends d.opp) B.reverse < l.fresh := by
  have hflip := h.flip
  rw [List.reverse_append] at hflip
  have hback := hflip.laced.next_lastFrom
  rw [Dir.opp_opp, List.reverse_reverse] at hback
  exact ⟨h.laced.next_lastFrom, hback, h.lastFrom_lt, hflip.lastFrom_lt⟩

end Laid

/-! ## Splicing in -/

/-- The list with a new node between `p` and `q`. -/
def NodeList.spliced (l : NodeList) (d : Dir) (p q : Nat) (val : Option Bytes) : NodeList :=
  (((l.alloc d p (some q) val).setLink p d (some l.fresh)).setLink q d.opp
    (some l.fresh)).setLen (l.len + 1)

theorem NodeList.insertNext_eq {l : NodeList} {d : Dir} {p q : Nat} (hlink : l.links d p = some q)
    (hp : p < l.fresh) (val : Option Bytes) :
    l.insertNext d p val = some (l.spliced d p q val) := by
  have hlink : (l.mem p).link d = some q := hlink
  have hne : l.fresh ≠ p := Nat.ne_of_gt hp
  simp [insertNext, spliced, hlink, hne]

namespace Laid

variable {l : NodeList} {d : Dir} {A B ps : List Nat} {c : Nat}

theorem ne_end (h : Laid l d (A ++ c :: B)) : c ≠ l.ends d.opp := by
  have hnd := h.laced.nodup
  rw [List.append_assoc, List.cons_append] at hnd
  intro heq
  have hcons := (List.nodup_append.mp (List.nodup_cons.mp hnd).2).2.1
  exact (List.nodup_cons.mp hcons).1 (by simp [heq])

/-- **A new node** behind the nodes `A`. -/
theorem insertNext (h : Laid l d (A ++ B)) (val : Option Bytes) :
    ∃ l', l.insertNext d (lastFrom (l.ends d) A) val = some l' ∧
      Laid l' d (A ++ l.fresh :: B) ∧
      l'.vals (A ++ l.fresh :: B) = l.vals A ++ val :: l.vals B := by
  obtain ⟨hthere, hback, hu, hv⟩ := h.meet
  have hne : l.fresh ≠ lastFrom (l.ends d) A := Nat.ne_of_gt hu
  have hne' : l.fresh ≠ lastFrom (l.ends d.opp) B.reverse := Nat.ne_of_gt hv
  refine ⟨_, NodeList.insertNext_eq hthere hu val, ⟨?_, ?_, ?_⟩, ?_⟩
  · have hends : (l.spliced d (lastFrom (l.ends d) A)
      (lastFrom (l.ends d.opp) B.reverse) val).ends =
        l.ends := by simp [NodeList.spliced]
    rw [hends]
    refine h.laced.insert h.fresh_notMem ?_ ?_ ?_ ?_ ?_ ?_
    · simp [NodeList.spliced]
    · rw [hthere]
      simp [NodeList.spliced, hne, hne']
    · simp [NodeList.spliced]
    · rw [hback]
      simp [NodeList.spliced, hne, hne']
    · intro q hq hqn
      simp [NodeList.spliced, hq, hqn]
    · intro q hq hqn
      simp [NodeList.spliced, hq, hqn]
  · intro p hp
    have hold := h.bound p
    simp only [NodeList.spliced, NodeList.setLen_ends, NodeList.setLink_ends, NodeList.alloc_ends,
      NodeList.setLen_fresh, NodeList.setLink_fresh, NodeList.alloc_fresh, List.mem_cons,
      List.mem_append] at hp hold ⊢
    have : p = l.fresh ∨ p < l.fresh := by tauto
    omega
  · simp [NodeList.spliced, h.len]
    omega
  · have hold : ∀ p ∈ A ++ B, p ≠ l.fresh := fun p hp =>
      Nat.ne_of_lt (h.bound p (List.mem_cons_of_mem _ (List.mem_append_left _ hp)))
    rw [NodeList.vals_append, NodeList.vals_cons]
    congr 1
    · exact NodeList.vals_congr fun p hp => by
        simp [NodeList.spliced, hold p (List.mem_append_left _ hp)]
    · congr 1
      · simp [NodeList.spliced]
      · exact NodeList.vals_congr fun p hp => by
          simp [NodeList.spliced, hold p (List.mem_append_right _ hp)]

end Laid

/-! ## Cutting out -/

/-- The list with `u` and `v` linked past `c`. -/
def NodeList.unlinked (l : NodeList) (d : Dir) (c u v : Nat) : NodeList :=
  ((((l.setLink u d (some v)).setLink v d.opp (some u)).setLink c .back none).setLink c .forth
    none).setLen (l.len - 1)

theorem NodeList.unlink_eq {l : NodeList} {c u v : Nat} (hprev : l.links .back c = some u)
    (hnext : l.links .forth c = some v) :
    l.unlink c = some (l.unlinked .forth c u v) := by
  have hprev : (l.mem c).link .back = some u := hprev
  have hnext : (l.mem c).link .forth = some v := hnext
  simp [unlink, unlinked, ListNode.next_eq, ListNode.prev_eq, Dir.opp, hprev, hnext]

theorem NodeList.pop_eq {l : NodeList} {d : Dir} {c v : Nat} (hlen : l.len ≠ 0)
    (hfirst : l.links d (l.ends d) = some c) (hnext : l.links d c = some v) :
    l.pop d = some (some (l.mem c).val, l.unlinked d c (l.ends d) v) := by
  have hfirst : (l.mem (l.ends d)).link d = some c := hfirst
  have hnext : (l.mem c).link d = some v := hnext
  simp [pop, unlinked, hlen, hfirst, hnext]

namespace Laid

variable {l : NodeList} {d : Dir} {A B ps : List Nat} {c : Nat}

/-- The neighbours of a node. -/
theorem neighbours (h : Laid l d (A ++ c :: B)) :
    l.links d c = some (lastFrom (l.ends d.opp) B.reverse) ∧
      l.links d.opp c = some (lastFrom (l.ends d) A) ∧
      c ≠ lastFrom (l.ends d) A ∧ c ≠ lastFrom (l.ends d.opp) B.reverse := by
  obtain ⟨-, hback, -, -⟩ := h.meet
  have hmid : Laid l d ((A ++ [c]) ++ B) := by simpa using h
  obtain ⟨hthere, -, -, -⟩ := hmid.meet
  rw [List.reverse_cons, lastFrom_append, lastFrom_cons, lastFrom_nil] at hback
  rw [lastFrom_append, lastFrom_cons, lastFrom_nil] at hthere
  refine ⟨hthere, hback, fun heq => ?_, fun heq => ?_⟩
  · have hnd : ((l.ends d :: A) ++ (c :: (B ++ [l.ends d.opp]))).Nodup := by
      simpa using h.laced.nodup
    exact (List.nodup_append.mp hnd).2.2 _ (lastFrom_mem (l.ends d) A) c List.mem_cons_self heq.symm
  · have hnd : ((l.ends d.opp :: B.reverse) ++ (c :: (A.reverse ++ [l.ends d]))).Nodup := by
      simpa using h.flip.laced.nodup
    exact (List.nodup_append.mp hnd).2.2 _ (lastFrom_mem (l.ends d.opp) B.reverse) c
      List.mem_cons_self heq.symm

theorem unlinked (h : Laid l d (A ++ c :: B)) :
    Laid (l.unlinked d c (lastFrom (l.ends d) A) (lastFrom (l.ends d.opp) B.reverse)) d
      (A ++ B) := by
  obtain ⟨hthere, hback, hu, hv⟩ := h.neighbours
  have hends : (l.unlinked d c (lastFrom (l.ends d) A)
      (lastFrom (l.ends d.opp) B.reverse)).ends = l.ends := by simp [NodeList.unlinked]
  refine ⟨?_, ?_, ?_⟩
  · rw [hends]
    refine h.laced.remove ?_ ?_ ?_ ?_
    · rw [hthere]
      simp [NodeList.unlinked, hu.symm]
    · rw [hback]
      simp [NodeList.unlinked, hv.symm]
    · intro q hq hqc
      simp [NodeList.unlinked, hq, hqc]
    · intro q hq hqc
      simp [NodeList.unlinked, hq, hqc]
  · intro p hp
    have hold := h.bound p
    rw [hends] at hp
    simp only [List.mem_cons, List.mem_append] at hp hold
    simp only [NodeList.unlinked, NodeList.setLen_fresh, NodeList.setLink_fresh]
    tauto
  · simp [NodeList.unlinked, h.len]
    omega

/-- **A node is taken out**, wherever it is. -/
theorem unlink (h : Laid l d (A ++ c :: B)) :
    ∃ l', l.unlink c = some l' ∧ Laid l' d (A ++ B) ∧ l'.ends = l.ends ∧
      ∀ p, (l'.mem p).val = (l.mem p).val := by
  have hforth : ∀ {A B : List Nat}, Laid l .forth (A ++ c :: B) →
      ∃ l', l.unlink c = some l' ∧ Laid l' .forth (A ++ B) ∧ l'.ends = l.ends ∧
        ∀ p, (l'.mem p).val = (l.mem p).val := by
    intro A B h
    obtain ⟨hnext, hprev, -, -⟩ := h.neighbours
    exact ⟨_, NodeList.unlink_eq hprev hnext, h.unlinked, by simp [NodeList.unlinked],
      fun p => by simp [NodeList.unlinked]⟩
  cases d with
  | forth => exact hforth h
  | back =>
    have hflip := h.flip
    rw [List.reverse_append, List.reverse_cons, List.append_assoc] at hflip
    obtain ⟨l', hrun, hlaid, hends, hvals⟩ := hforth hflip
    refine ⟨l', hrun, Laid.unflip ?_, hends, hvals⟩
    rw [List.reverse_append]
    exact hlaid

/-- **The first node** in a direction is taken out. -/
theorem pop (h : Laid l d (c :: B)) :
    ∃ l', l.pop d = some (some (l.mem c).val, l') ∧ Laid l' d B ∧
      ∀ p, (l'.mem p).val = (l.mem p).val := by
  have hlen : l.len ≠ 0 := by
    rw [h.len]
    simp
    omega
  have h : Laid l d ([] ++ c :: B) := h
  obtain ⟨hnext, hprev, -, -⟩ := h.neighbours
  obtain ⟨hfirst, -⟩ := h.meet
  rw [List.reverse_cons, lastFrom_append, lastFrom_cons, lastFrom_nil] at hfirst
  exact ⟨_, NodeList.pop_eq hlen hfirst hnext, h.unlinked, fun p => by simp [NodeList.unlinked]⟩

end Laid

/-! ## The loops -/

section Loops

variable {l : NodeList} {d : Dir} {A B ps : List Nat}

/-- So many steps along a chain. -/
theorem steps_eq {qs : List Nat} {q k : Nat} (h : Chain (l.links d) q qs) (hk : k < qs.length) :
    l.steps d k (l.links d q) = some qs[k]? := by
  induction qs generalizing q k with
  | nil => simp at hk
  | cons r qs ih =>
    rw [h.1]
    cases k with
    | zero => rfl
    | succ k => exact ih h.2 (by simpa using hk)

/-- The search for a node stops at the first one of its kind. -/
theorem seek_eq (stop : ListNode → Bool) {q : Nat} {qs : List Nat} {fuel : Nat} {pos : Int}
    (h : Chain (l.links .forth) q (qs ++ [l.tail])) (htail : l.tail ∉ qs)
    (hfuel : qs.length < fuel) :
    l.seek stop fuel (l.links .forth q) pos = some
      (match qs.findIdx? fun p => stop (l.mem p) with
        | none => (none, pos + qs.length)
        | some i => (qs[i]?, pos + i)) := by
  induction qs generalizing q fuel pos with
  | nil =>
    cases fuel with
    | zero => simp at hfuel
    | succ fuel =>
      rw [h.1, NodeList.seek, if_pos rfl]
      simp
  | cons r qs ih =>
    cases fuel with
    | zero => simp at hfuel
    | succ fuel =>
      obtain ⟨hr, htail⟩ := not_or.mp (fun hor => htail (List.mem_cons.mpr hor))
      have hne : ¬ some r = some l.tail := fun heq => hr (Option.some.inj heq).symm
      rw [h.1, NodeList.seek, if_neg hne, List.findIdx?_cons]
      by_cases hstop : stop (l.mem r)
      · simp [hstop]
      · have ih := @ih r fuel (pos + 1) h.2 htail (by simpa using hfuel)
        simp only [NodeList.links] at ih
        simp only [Option.bind_eq_bind, Option.bind_some, hstop, ListNode.next_eq, ih]
        cases qs.findIdx? fun p => stop (l.mem p) with
        | none => simp; omega
        | some i => simp; omega

/-- The loop of `RemoveElement`, with the nodes `A` behind it and `B` before it:
    it takes out what `dropEqual` drops. -/
theorem removeLoop_spec (d : Dir) (val : Option Bytes) (count : Int) (B : List Nat) :
    ∀ (A : List Nat) (l : NodeList) (fuel : Nat) (removed : Int), Laid l d (A ++ B) →
      B.length < fuel → ∃ l' ps,
        NodeList.removeLoop d val count fuel l (l.links d (lastFrom (l.ends d) A)) removed =
          some (removed +
            (RedisList.dropEqual (str val) (count - removed) (l.vals B)).2, l') ∧
        Laid l' d ps ∧ l'.vals ps =
          l.vals A ++ (RedisList.dropEqual (str val) (count - removed) (l.vals B)).1 := by
  induction B with
  | nil =>
    intro A l fuel removed h hfuel
    cases fuel with
    | zero => simp at hfuel
    | succ fuel =>
      rw [h.meet.1, List.reverse_nil, lastFrom_nil, NodeList.removeLoop, if_pos (Or.inl rfl)]
      refine ⟨l, A, ?_, by simpa using h, ?_⟩
      · simp [RedisList.dropEqual]
      · simp [RedisList.dropEqual]
  | cons c B ih =>
    intro A l fuel removed h hfuel
    cases fuel with
    | zero => simp at hfuel
    | succ fuel =>
      have hfirst := h.meet.1
      rw [List.reverse_cons, lastFrom_append, lastFrom_cons, lastFrom_nil] at hfirst
      rw [hfirst, NodeList.removeLoop, NodeList.vals_cons, RedisList.dropEqual]
      by_cases hgo : removed < count
      · have hend : ¬ (some c = some (l.ends d.opp) ∨ ¬ removed < count) := by
          simpa [hgo] using h.ne_end
        rw [if_neg hend, if_neg (by omega)]
        simp only [Option.bind_eq_bind, Option.bind_some]
        by_cases hval : str (l.mem c).val = str val
        · obtain ⟨l₁, hrun, hlaid, hends, hvals⟩ := h.unlink
          have htem : (l.mem c).link d = l₁.links d (lastFrom (l₁.ends d) A) := by
            rw [hlaid.meet.1, hends]
            exact h.neighbours.1
          obtain ⟨l', ps, hloop, hl', hps⟩ :=
            ih A l₁ fuel (removed + 1) hlaid (by simpa using hfuel)
          rw [if_pos hval, if_pos hval, hrun, htem]
          simp only [Option.bind_some]
          have hB : l₁.vals B = l.vals B := NodeList.vals_congr fun p _ => hvals p
          have hA : l₁.vals A = l.vals A := NodeList.vals_congr fun p _ => hvals p
          have hcount : count - (removed + 1) = count - removed - 1 := by omega
          rw [hB, hcount] at hloop hps
          refine ⟨l', ps, ?_, hl', hA ▸ hps⟩
          rw [hloop]
          simp only [Option.some.injEq, Prod.mk.injEq, and_true]
          omega
        · have hmid : Laid l d ((A ++ [c]) ++ B) := by simpa using h
          obtain ⟨l', ps, hloop, hl', hps⟩ :=
            ih (A ++ [c]) l fuel removed hmid (by simpa using hfuel)
          rw [lastFrom_append, lastFrom_cons, lastFrom_nil] at hloop
          rw [if_neg hval, if_neg hval]
          refine ⟨l', ps, hloop, hl', ?_⟩
          rw [hps]
          simp
      · rw [if_pos (Or.inr hgo), if_pos (by omega)]
        exact ⟨l, A ++ c :: B, by simp, h, by simp⟩

/-- The loop of `Trim` finds the nodes at `start` and at `stop`. -/
theorem trimLoop_eq {start stop : Int} {q : Nat} {qs : List Nat} {fuel : Nat} {pos : Int}
    {startNode : Option Nat} (h : Chain (l.links .forth) q (qs ++ [l.tail])) (htail : l.tail ∉ qs)
    (hfuel : qs.length < fuel) (hle : start ≤ stop) (hpos : pos ≤ stop)
    (hstop : stop < pos + qs.length) :
    l.trimLoop start stop fuel (l.links .forth q) pos startNode = some
      (if pos ≤ start then qs[(start - pos).toNat]? else startNode, qs[(stop - pos).toNat]?) := by
  induction qs generalizing q fuel pos startNode with
  | nil =>
    simp only [List.length_nil, Nat.cast_zero] at hstop
    omega
  | cons r qs ih =>
    cases fuel with
    | zero => simp at hfuel
    | succ fuel =>
      obtain ⟨hr, htail⟩ := not_or.mp (fun hor => htail (List.mem_cons.mpr hor))
      have hne : ¬ some r = some l.tail := fun heq => hr (Option.some.inj heq).symm
      rw [h.1, NodeList.trimLoop, if_neg hne]
      by_cases hend : pos = stop
      · have hstart : pos ≤ start ↔ pos = start := by omega
        subst hend
        simp only [hstart, if_true, sub_self, Int.toNat_zero, List.getElem?_cons_zero]
        by_cases heq : pos = start
        · simp [heq]
        · simp [heq]
      · rw [List.length_cons, Nat.cast_succ] at hstop
        simp only [hend, if_false]
        refine (ih h.2 htail (by simpa using hfuel) (by omega) (by omega)).trans ?_
        have hstop' : (stop - pos).toNat = (stop - (pos + 1)).toNat + 1 := by omega
        rw [hstop', List.getElem?_cons_succ]
        rcases lt_trichotomy pos start with hlt | heq | hgt
        · have hstart' : (start - pos).toNat = (start - (pos + 1)).toNat + 1 := by omega
          rw [if_pos (by omega), if_pos (by omega), hstart', List.getElem?_cons_succ]
        · subst heq
          simp
        · rw [if_neg (by omega), if_neg (by omega), if_neg (by omega)]

end Loops

/-! ## Cutting down -/

/-- The list with the nodes from `s` to `e` between its sentinels, after the
    links of `f`, `g`, `u` and `v` have been cut. -/
def NodeList.relinked (l : NodeList) (f g : Nat) (u v : Option Nat) (s e : Nat) : NodeList :=
  (((((((l.setLink f .back none).setLink g .forth none).cut u .forth).cut v .back).setLink
    l.head .forth (some s)).setLink s .back (some l.head)).setLink l.tail .back (some e)).setLink
    e .forth (some l.tail)

/-- What `Trim` cuts: the outer links of the first and last node, and the links
    from the neighbours of the window unless they are gone already. -/
theorem NodeList.relink_eq {l : NodeList} {f g : Nat} (s e : Nat)
    (hfirst : l.links .forth l.head = some f) (hlast : l.links .back l.tail = some g)
    (hne : l.tail ≠ f) :
    ∃ u v, l.relink s e = some (l.relinked f g u v s e) ∧
      (∀ r, u = some r → l.links .back s = some r) ∧
      ∀ r, v = some r → l.links .forth e = some r := by
  have hfirst : (l.mem l.head).link .forth = some f := hfirst
  have hlast : (l.mem l.tail).link .back = some g := hlast
  have hnil : ∀ {c : Prop} [Decidable c] {o : Option Nat} {r : Nat},
      (if c then none else o) = some r → o = some r := by
    intro c _ o r h
    split at h
    · exact absurd h (by simp)
    · exact h
  let l' := (l.setLink f .back none).setLink g .forth none
  let u := (l'.mem s).link .back
  refine ⟨u, ((l'.cut u .forth).mem e).link .forth, ?_, fun r hr => ?_, fun r hr => ?_⟩
  · have hlast' : ((l.setLink f .back none).mem l.tail).link .back = some g := by
      simp [hne, hlast]
    simp only [relink, relinked, ListNode.next_eq, ListNode.prev_eq, hfirst, Option.bind_eq_bind,
      Option.bind_some, setLink_tail, setLink_head, cut_tail, cut_head, hlast']
    rfl
  · simp only [u, l', setLink_link, reduceCtorEq, and_false, if_false, and_true] at hr
    exact hnil hr
  · simp only [l', cut_link, setLink_link, reduceCtorEq, and_false, if_false, and_true] at hr
    exact hnil (hnil hr)

section Relinked

variable (l : NodeList) (f g s e r : Nat) (u v : Option Nat)

theorem NodeList.relinked_forth : (l.relinked f g u v s e).links .forth r =
    if r = e then some l.tail else if r = l.head then some s
    else if u = some r then none else if r = g then none else l.links .forth r := by
  simp [relinked]

theorem NodeList.relinked_back : (l.relinked f g u v s e).links .back r =
    if r = l.tail then some e else if r = s then some l.head
    else if v = some r then none else if r = f then none else l.links .back r := by
  simp [relinked]

end Relinked

namespace Laid

variable {l : NodeList} {A B W : List Nat}

/-- An inner node is no sentinel. -/
theorem ne_ends {d : Dir} {ps : List Nat} {p : Nat} (h : Laid l d ps) (hp : p ∈ ps) :
    p ≠ l.ends d ∧ p ≠ l.ends d.opp := by
  have hflip := h.flip.laced.nodup
  have hnd := h.laced.nodup
  refine ⟨fun heq => (List.nodup_cons.mp hnd).1 ?_, fun heq => (List.nodup_cons.mp hflip).1 ?_⟩
  · exact List.mem_append_left _ (heq ▸ hp)
  · exact List.mem_append_left _ (List.mem_reverse.mpr (heq ▸ hp))

/-- **The window** `W` is linked to the sentinels. -/
theorem relink (h : Laid l .forth (A ++ (W ++ B))) (hne : W ≠ []) :
    ∃ l', l.relink (lastFrom l.tail W.reverse) (lastFrom l.head W) = some l' ∧
      Laced l'.links l.ends .forth W ∧ l'.ends = l.ends ∧ l'.fresh = l.fresh ∧
      ∀ p, (l'.mem p).val = (l.mem p).val := by
  have hne' : W.reverse ≠ [] := by simpa using hne
  have hfirst : l.links .forth l.head = some (lastFrom l.tail (A ++ (W ++ B)).reverse) :=
    Laid.meet (A := []) h |>.1
  have hlast : l.links .back l.tail = some (lastFrom l.head (A ++ (W ++ B))) :=
    Laid.meet (B := []) (by simpa using h) |>.2.1
  have hbefore : l.links .back (lastFrom l.tail W.reverse) = some (lastFrom l.head A) := by
    have hmeet := h.meet.2.1
    rw [List.reverse_append, lastFrom_append, lastFrom_eq _ l.tail hne'] at hmeet
    exact hmeet
  have hbehind : l.links .forth (lastFrom l.head W) = some (lastFrom l.tail B.reverse) := by
    have hmeet := (Laid.meet (A := A ++ W) (B := B) (by simpa using h)).1
    rw [lastFrom_append, lastFrom_eq _ l.head hne] at hmeet
    exact hmeet
  have hends : ∀ p ∈ W, p ≠ l.head ∧ p ≠ l.tail := fun p hp =>
    h.ne_ends (List.mem_append_right A (List.mem_append_left B hp))
  have hs := hends _ (List.mem_reverse.mp (lastFrom_mem_self l.tail hne'))
  have he := hends _ (lastFrom_mem_self l.head hne)
  have hsent : l.tail ≠ l.head := fun heq => by
    have hnd := (List.nodup_cons.mp h.laced.nodup).1
    exact hnd (List.mem_append_right _ (List.mem_singleton.mpr heq.symm))
  have hf : l.tail ≠ lastFrom l.tail (A ++ (W ++ B)).reverse := by
    have hmem := lastFrom_mem_self l.tail (l := (A ++ (W ++ B)).reverse) (by simp [hne])
    exact (h.ne_ends (List.mem_reverse.mp hmem)).2.symm
  obtain ⟨u, v, hrun, hu, hv⟩ :=
    NodeList.relink_eq (lastFrom l.tail W.reverse) (lastFrom l.head W) hfirst hlast hf
  refine ⟨_, hrun, h.laced.window hne ?_ ?_ ?_ ?_ ?_ ?_ ?_ ?_, by simp [NodeList.relinked],
    by simp [NodeList.relinked], fun p => by simp [NodeList.relinked]⟩
  · refine (NodeList.relinked_forth _ _ _ _ _ l.head _ _).trans ?_
    rw [if_neg he.1.symm, if_pos rfl, head_of_ne_nil l.tail hne]
  · exact (NodeList.relinked_forth ..).trans (if_pos rfl)
  · have hend : l.links .forth l.tail = none := h.laced.next_end
    refine (NodeList.relinked_forth _ _ _ _ _ l.tail _ _).trans ?_
    rw [if_neg he.2.symm, if_neg hsent, hend, ite_self, ite_self]
  · refine (NodeList.relinked_back _ _ _ _ _ l.tail _ _).trans ?_
    rw [if_pos rfl, head_of_ne_nil l.head hne', List.reverse_reverse]
  · refine (NodeList.relinked_back _ _ _ _ _ (lastFrom l.tail W.reverse) _ _).trans ?_
    rw [if_neg hs.2, if_pos rfl]
    rfl
  · have hend : l.links .back l.head = none := h.flip.laced.next_end
    refine (NodeList.relinked_back _ _ _ _ _ l.head _ _).trans ?_
    rw [if_neg hsent.symm, if_neg hs.1.symm, hend, ite_self, ite_self]
  · intro w hw
    obtain ⟨hhead, hlast, hA, hg⟩ := h.laced.mid_ne hw
    have hcut : u ≠ some w := fun heq => hA (Option.some.inj ((hu w heq).symm.trans hbefore))
    refine (NodeList.relinked_forth ..).trans ((if_neg hlast).trans ((if_neg hhead).trans ?_))
    rw [if_neg hcut]
    exact if_neg hg
  · intro w hw
    have hflip := h.flip.laced
    rw [List.reverse_append, List.reverse_append, List.append_assoc] at hflip
    have hw' : w ∈ W.reverse.dropLast := by simpa using hw
    obtain ⟨htail, hfirst, hB, hf⟩ := hflip.mid_ne hw'
    have hcut : v ≠ some w := fun heq => hB (Option.some.inj ((hv w heq).symm.trans hbehind))
    rw [← List.append_assoc, ← List.reverse_append, ← List.reverse_append] at hf
    refine (NodeList.relinked_back ..).trans ((if_neg htail).trans ((if_neg hfirst).trans ?_))
    rw [if_neg hcut]
    exact if_neg hf

end Laid

end TinyList
