import TinyRedis.SkipListRowsProofs

/-! # The skip list operations keep the invariant

    A new node goes between the nodes before it and the others; a deleted one
    leaves the nodes around it as they were.  Both follow level by level from
    the rows the loops write and the splicing lemmas of linked chains; every
    operation is made of these two, so every run keeps the invariant. -/

namespace TinyZSet

open GoString GoFloat LinkedChain

variable {F : Type} {z : ZSet F} {A B ps : List Nat}

/-! ## Levels -/

/-- A level that no node reaches is empty. -/
theorem Towers.onLevel_eq_nil {ps A : List Nat} (h : Towers z ps) (hA : A ⊆ ps) {i : Nat}
    (hi : z.level ≤ i) : onLevel z i A = [] := by
  refine List.filter_eq_nil_iff.mpr fun p hp hlt => ?_
  have := h.level_le p (hA hp)
  have := of_decide_eq_true hlt
  omega

/-- All nodes are on level 0. -/
theorem Towers.onLevel_zero {ps A : List Nat} (h : Towers z ps) (hA : A ⊆ ps) : onLevel z 0 A = A :=
  List.filter_eq_self.mpr fun p hp => decide_eq_true (h.standing p (hA hp))

/-- No pointer repeats on a level. -/
theorem Towers.nodup_onLevel (h : Towers z ps) (i : Nat) : (header :: onLevel z i ps).Nodup :=
  h.nodup.sublist (List.filter_sublist.cons_cons header)

/-- The nodes of `ps` have in `z'` the member, score and height they have in
    `z`. -/
def SameLabels (z z' : ZSet F) (ps : List Nat) : Prop :=
  ∀ p ∈ ps, (z'.mem p).member = (z.mem p).member ∧ (z'.mem p).score = (z.mem p).score ∧
    (z'.mem p).level = (z.mem p).level

theorem SameLabels.trans {z z' z'' : ZSet F} (h : SameLabels z z' ps) (h' : SameLabels z' z'' ps) :
    SameLabels z z'' ps := fun p hp =>
  ⟨(h' p hp).1.trans (h p hp).1, (h' p hp).2.1.trans (h p hp).2.1,
    (h' p hp).2.2.trans (h p hp).2.2⟩

/-- The nodes on a level after a node has been put in. -/
theorem onLevel_insert {z z' : ZSet F} {n newLevel : Nat}
    (hold : ∀ p ∈ A ++ B, (z'.mem p).level = (z.mem p).level) (hnew : (z'.mem n).level = newLevel)
    (i : Nat) :
    onLevel z' i (A ++ n :: B) =
      onLevel z i A ++ ((if i < newLevel then [n] else []) ++ onLevel z i B) := by
  have hA : onLevel z' i A = onLevel z i A :=
    onLevel_congr fun p hp => hold p (List.mem_append_left B hp)
  have hB : onLevel z' i B = onLevel z i B :=
    onLevel_congr fun p hp => hold p (List.mem_append_right A hp)
  rw [onLevel_append, hA, ← hB]
  congr 1
  unfold onLevel
  rw [List.filter_cons, hnew]
  by_cases hi : i < newLevel
  · rw [if_pos hi, if_pos (decide_eq_true hi)]
    rfl
  · rw [if_neg hi, if_neg (by simpa using hi)]
    rfl

variable [Float64 F] {s : F} {m : Bytes}

/-! ## Where searches end -/

/-- What the search for a score and a member passes, and what it stops at. -/
structure Cut (z : ZSet F) (s : F) (m : Bytes) (A B : List Nat) : Prop where
  passed : ∀ q ∈ A, before s m (z.mem q) = true
  behind : ∀ q ∈ B, before s m (z.mem q) = false

/-- The search of `Add` and `deleteNode`, on every level. -/
theorem Towers.search_before (h : Towers z (A ++ B))
    (hcut : Cut z s m A B) {i : Nat} (hi : i < z.level) :
    (z.search (fun n _ => before s m n) z.level header 0 i).1 =
      lastFrom header (onLevel z i A) := by
  have htop : onLevel z z.level A = [] :=
    h.onLevel_eq_nil (List.subset_append_left A B) (Nat.le_refl _)
  exact (h.search_spec (I := fun _ _ => True) (fun _ _ _ _ _ _ _ => trivial)
    (fun q hq _ _ => hcut.passed q hq) (fun q hq _ _ => hcut.behind q hq) z.level header 0
    (by rw [htop]; rfl) trivial i hi).1

/-- `update[i]` of `Add`. -/
theorem Towers.updateAt_eq (h : Towers z (A ++ B)) (hcut : Cut z s m A B) (i : Nat) :
    updateAt z m s i = lastFrom header (onLevel z i A) := by
  unfold updateAt
  by_cases hi : i < z.level
  · rw [if_pos hi]
    exact h.search_before hcut hi
  · rw [if_neg hi, h.onLevel_eq_nil (List.subset_append_left A B) (not_lt.mp hi)]
    rfl

/-- The order looks at members and scores only. -/
theorem before_congr {n n' : ZSetNode F} (hm : n'.member = n.member)
    (hs : n'.score = n.score) : before s m n' = before s m n := by
  unfold before
  rw [hm, hs]

theorem SameLabels.sorted {z z' : ZSet F} (h : SameLabels z z' ps)
    (hs : ps.Pairwise fun p q => before (z.mem q).score (z.mem q).member (z.mem p) = true) :
    ps.Pairwise fun p q => before (z'.mem q).score (z'.mem q).member (z'.mem p) = true := by
  refine hs.imp_of_mem fun {p q} hp hq hpq => ?_
  obtain ⟨hm1, hs1, _⟩ := h p hp
  obtain ⟨hm2, hs2, _⟩ := h q hq
  rw [hm2, hs2, before_congr hm1 hs1]
  exact hpq

/-- The forward pointers after `Add`. -/
theorem insertNode_forward {m : Bytes} {s : F} (newLevel : Nat)
    (hu : ∀ i, updateAt z m s i ≠ z.fresh) (i p : Nat) :
    ((z.insertNode m s newLevel).mem p).forward i =
      if i < newLevel then
        if p = updateAt z m s i then some z.fresh
        else if p = z.fresh then (z.mem (updateAt z m s i)).forward i
        else (z.mem p).forward i
      else if p = z.fresh then none else (z.mem p).forward i := by
  rw [forward_eq_row, insertNode_row z m s newLevel hu i]
  by_cases hi : i < newLevel
  · rw [if_pos hi, if_pos hi]
    unfold linkRow
    by_cases hp : p = updateAt z m s i
    · rw [if_pos hp, if_pos hp]
    · rw [if_neg hp, if_neg hp]
      by_cases hn : p = z.fresh
      · rw [if_pos hn, if_pos hn]
        exact unlinkedRow_fst z newLevel i (hu i)
      · rw [if_neg hn, if_neg hn]
        exact unlinkedRow_fst z newLevel i hn
  · rw [if_neg hi, if_neg hi]
    have hfst : ((z.insertNode m s newLevel).row i p).1 = (unlinkedRow z newLevel i p).1 := by
      rw [insertNode_row z m s newLevel hu i, if_neg hi]
      by_cases hl : i < z.level
      · rw [if_pos hl, spanRow_fst]
      · rw [if_neg hl]
    rw [insertNode_row z m s newLevel hu i, if_neg hi] at hfst
    rw [hfst]
    by_cases hn : p = z.fresh
    · rw [if_pos hn, hn]
      unfold unlinkedRow
      rw [Function.update_self]
    · rw [if_neg hn]
      exact unlinkedRow_fst z newLevel i hn

/-! ## Insertion -/

/-- `update[i]` is the header or a node before the new one. -/
theorem Towers.updateAt_mem (h : Towers z (A ++ B)) (hcut : Cut z s m A B) (i : Nat) :
    updateAt z m s i ∈ header :: A := by
  rw [h.updateAt_eq hcut i]
  exact lastFrom_onLevel_mem z i A

/-- `update[i]` is an old node. -/
theorem Towers.updateAt_ne (h : Towers z (A ++ B))
    (hcut : Cut z s m A B) (i : Nat) : updateAt z m s i ≠ z.fresh :=
  (h.fresh _ (List.mem_append_left B (h.updateAt_mem hcut i))).ne

/-- A new node goes between the others. -/
theorem mem_insert_iff {n p : Nat} : p ∈ A ++ n :: B ↔ p = n ∨ p ∈ A ++ B := by
  simp only [List.mem_append, List.mem_cons]
  tauto

/-- The old nodes keep member, score and height. -/
theorem Towers.insertNode_labels (h : Towers z ps) (m : Bytes) (s : F) (newLevel : Nat) :
    SameLabels z (z.insertNode m s newLevel) ps := fun p hp =>
  (insertNode_nodes z m s newLevel).1 p (h.fresh p (List.mem_cons_of_mem _ hp)).ne

/-- The chain of a level after `Add`. -/
theorem Towers.insertNode_chain (h : Towers z (A ++ B)) (newLevel : Nat)
    (hcut : Cut z s m A B) (i : Nat) :
    Chain (fun p => ((z.insertNode m s newLevel).mem p).forward i) header
      (onLevel (z.insertNode m s newLevel) i (A ++ z.fresh :: B)) := by
  have hfwd := insertNode_forward newLevel (h.updateAt_ne hcut)
  rw [onLevel_insert (fun p hp => (h.insertNode_labels m s newLevel p hp).2.2)
    (insertNode_nodes z m s newLevel).2.2.2.1 i]
  have hchain := h.chains i
  have hnd := h.nodup_onLevel i
  rw [onLevel_append] at hchain hnd
  have hin : ∀ p ∈ header :: (onLevel z i A ++ onLevel z i B), p ≠ z.fresh := by
    intro p hp
    refine (h.fresh p ?_).ne
    rw [← onLevel_append] at hp
    rcases List.mem_cons.mp hp with rfl | hp
    · exact List.mem_cons_self
    · exact List.mem_cons_of_mem _ (mem_onLevel.mp hp).1
  by_cases hi : i < newLevel
  · rw [if_pos hi]
    have hlast := h.updateAt_eq hcut i
    refine hchain.insert hnd (fun hf => hin _ hf rfl) ?_ ?_ fun q hq hqn => ?_
    · rw [hfwd, if_pos hi, if_pos hlast.symm]
    · rw [hfwd, if_pos hi, if_neg (h.updateAt_ne hcut i).symm, if_pos rfl, hlast]
    · rw [hfwd, if_pos hi, if_neg (hlast ▸ hq), if_neg hqn]
  · rw [if_neg hi]
    refine hchain.congr fun q hq => ?_
    rw [hfwd, if_neg hi, if_neg (hin q hq)]

/-- **INSERTION LINKS THE NEW TOWER**, on each of its levels, between the nodes
    before it and the others. -/
theorem Towers.insertNode (h : Towers z (A ++ B)) {newLevel : Nat}
    (hl : 1 ≤ newLevel) (hcut : Cut z s m A B) :
    Towers (z.insertNode m s newLevel) (A ++ z.fresh :: B) := by
  have hchains := h.insertNode_chain newLevel hcut
  have hnode := h.insertNode_labels m s newLevel
  obtain ⟨_, _, _, hnl, hfresh, hlevel, hlength, _⟩ := insertNode_nodes z m s newLevel
  generalize z.insertNode m s newLevel = z' at *
  have hperm : (header :: (A ++ z.fresh :: B)).Perm (z.fresh :: header :: (A ++ B)) :=
    (List.perm_middle.cons header).trans (List.Perm.swap ..)
  refine ⟨?_, ?_, hchains, ?_, ?_, ?_⟩
  · exact hperm.nodup_iff.mpr (List.nodup_cons.mpr ⟨fun hin => (h.fresh _ hin).ne rfl, h.nodup⟩)
  · intro p hp
    rw [hfresh]
    rcases List.mem_cons.mp (hperm.mem_iff.mp hp) with rfl | hp
    · exact Nat.lt_succ_self _
    · exact Nat.lt_succ_of_lt (h.fresh p hp)
  · intro p hp
    rcases mem_insert_iff.mp hp with rfl | hp
    · rw [hnl]
      exact hl
    · rw [(hnode p hp).2.2]
      exact h.standing p hp
  · intro p hp
    rw [hlevel]
    rcases mem_insert_iff.mp hp with rfl | hp
    · rw [hnl]
      exact le_max_right _ _
    · rw [(hnode p hp).2.2]
      exact le_trans (h.level_le p hp) (le_max_left _ _)
  · rw [hlength, h.length]
    simp only [List.length_append, List.length_cons]
    omega

/-- **INSERTION KEEPS THE INVARIANT**: the new node goes between the nodes
    before it and the others, on each of its levels. -/
theorem Repr.insertNode (h : Repr z (A ++ B)) {newLevel : Nat} (hs : IsNum s)
    (hl : 1 ≤ newLevel ∧ newLevel ≤ maxLevel) (hm : z.dict m = none) (hcut : Cut z s m A B) :
    Repr (z.insertNode m s newLevel) (A ++ z.fresh :: B) := by
  have htow := h.towers.insertNode hl.1 hcut
  have hupd := h.towers.updateAt_eq hcut
  have hu := h.towers.updateAt_ne hcut
  have hfwd := insertNode_forward newLevel hu
  -- the old nodes are what they were
  have hnode := h.towers.insertNode_labels m s newLevel
  obtain ⟨_, hnm, hns, hnl, _, hlevel, _, hdict, htail⟩ := insertNode_nodes z m s newLevel
  generalize z.insertNode m s newLevel = z' at *
  have hnotmem : ∀ p ∈ A ++ B, (z.mem p).member ≠ m := by
    intro p hp he
    have := (h.dict m (z.mem p).score).mpr ⟨p, hp, he, rfl⟩
    rw [hm] at this
    cases this
  refine ⟨htow.nodup, htow.fresh, htow.chains, ?_, ?_, ?_, ?_, htow.length, ?_, ?_,
    htow.level_le, ?_⟩
  · intro p hp
    rcases mem_insert_iff.mp hp with rfl | hp
    · rw [hnl]
      exact hl
    · rw [(hnode p hp).2.2]
      exact h.heights p hp
  · obtain ⟨hsA, hsB, hsAB⟩ := List.pairwise_append.mp (SameLabels.sorted hnode h.sorted)
    refine List.pairwise_append.mpr ⟨hsA, List.pairwise_cons.mpr ⟨fun q hq => ?_, hsB⟩, ?_⟩
    · have hqm := List.mem_append_right A hq
      obtain ⟨hm2, hs2, _⟩ := hnode q hqm
      refine before_total hs (by rw [hs2]; exact h.numeric q hqm) hns ?_ ?_
      · rw [hm2, hnm]
        exact hnotmem q hqm
      · rw [hnm, before_congr hm2 hs2]
        exact hcut.behind q hq
    · intro p hp q hq
      rcases List.mem_cons.mp hq with rfl | hq
      · obtain ⟨hm1, hs1, _⟩ := hnode p (List.mem_append_left B hp)
        rw [hns, hnm, before_congr hm1 hs1]
        exact hcut.passed p hp
      · exact hsAB p hp q hq
  · intro p hp
    rcases mem_insert_iff.mp hp with rfl | hp
    · rw [hns]
      exact hs
    · rw [(hnode p hp).2.1]
      exact h.numeric p hp
  · intro k t
    rw [hdict]
    by_cases hk : k = m
    · rw [hk, Function.update_self]
      constructor
      · intro he
        exact ⟨z.fresh, mem_insert_iff.mpr (.inl rfl), hnm, by rw [hns]; exact Option.some.inj he⟩
      · rintro ⟨p, hp, hpm, hps⟩
        rcases mem_insert_iff.mp hp with rfl | hp
        · rw [← hps, hns]
        · rw [(hnode p hp).1] at hpm
          exact absurd hpm (hnotmem p hp)
    · rw [Function.update_of_ne hk, h.dict k t]
      constructor
      · rintro ⟨p, hp, hpm, hps⟩
        exact ⟨p, mem_insert_iff.mpr (.inr hp), by rw [(hnode p hp).1]; exact hpm,
          by rw [(hnode p hp).2.1]; exact hps⟩
      · rintro ⟨p, hp, hpm, hps⟩
        rcases mem_insert_iff.mp hp with rfl | hp
        · exact absurd (hpm.symm.trans hnm) hk
        · rw [(hnode p hp).1] at hpm
          rw [(hnode p hp).2.1] at hps
          exact ⟨p, hp, hpm, hps⟩
  · have hzero := h.towers.onLevel_zero (List.subset_append_left A B)
    have hchain := h.chains 0
    rw [h.towers.onLevel_zero (List.Subset.refl _)] at hchain
    have hnext : (z.mem (updateAt z m s 0)).forward 0 = B.head? := by
      rw [hupd 0, hzero]
      exact hchain.next_lastFrom
    have hbehind : (z'.mem z.fresh).forward 0 = B.head? := by
      rw [hfwd 0 z.fresh, if_pos (show 0 < newLevel from hl.1), if_neg (hu 0).symm,
        if_pos rfl, hnext]
    rw [htail, hbehind]
    cases B with
    | nil => simp
    | cons q B =>
      rw [if_neg (by simp), h.tail]
      simp [List.getLast?_append]
  · rw [hlevel]
    exact le_trans h.level_pos (le_max_left _ _)
  · rw [hlevel]
    by_cases hgt : z.level ≤ newLevel
    · exact .inr ⟨z.fresh, mem_insert_iff.mpr (.inl rfl), by rw [hnl, max_eq_right hgt]⟩
    · rw [max_eq_left (by omega)]
      rcases h.level_max with h1 | ⟨p, hp, hpl⟩
      · omega
      · exact .inr ⟨p, mem_insert_iff.mpr (.inr hp), by rw [(hnode p hp).2.2, hpl]⟩

/-! ## Deletion -/

/-- The level loop stops at 1, or at the highest level in use. -/
theorem shrink_spec (forward : Nat → Option Nat) : ∀ l, 1 ≤ l →
    1 ≤ ZSet.shrink forward l ∧ ZSet.shrink forward l ≤ l ∧
      (∀ i, ZSet.shrink forward l ≤ i → i < l → forward i = none) ∧
      (ZSet.shrink forward l = 1 ∨ forward (ZSet.shrink forward l - 1) ≠ none) := by
  intro l
  induction l with
  | zero => exact fun h => absurd h (Nat.not_succ_le_zero 0)
  | succ l ih =>
    intro _
    cases l with
    | zero => exact ⟨Nat.le_refl 1, Nat.le_refl 1, fun i h1 h2 => by
        simp only [ZSet.shrink] at h1
        omega, .inl rfl⟩
    | succ l =>
      rw [ZSet.shrink]
      by_cases hn : forward (l + 1) = none
      · rw [if_pos hn]
        obtain ⟨h1, h2, h3, h4⟩ := ih (by omega)
        refine ⟨h1, by omega, fun i hi hlt => ?_, h4⟩
        rcases Nat.lt_succ_iff_lt_or_eq.mp hlt with hlt | rfl
        · exact h3 i hi hlt
        · exact hn
      · rw [if_neg hn]
        exact ⟨by omega, Nat.le_refl _, fun i h1 h2 => by omega, .inr hn⟩

/-- The search for a node that is there splits the sequence at it. -/
theorem Repr.cut {c : Nat} (h : Repr z (A ++ c :: B)) :
    Cut z (z.mem c).score (z.mem c).member A (c :: B) := by
  obtain ⟨_, hcB, hAc⟩ := List.pairwise_append.mp h.sorted
  refine ⟨fun q hq => hAc q hq c List.mem_cons_self, fun q hq => ?_⟩
  rcases List.mem_cons.mp hq with rfl | hq
  · exact before_irrefl _
  · refine Bool.eq_false_iff.mpr fun hlt => ?_
    have hself := before_trans ((List.pairwise_cons.mp hcB).1 q hq) hlt
    rw [before_irrefl] at hself
    cases hself

/-- What the deletion loops need to know of `update`: on the levels of `c` it is
    the node `c` follows, and on the others it is not. -/
theorem Repr.update_spec {c : Nat} (h : Repr z (A ++ c :: B)) {u : Nat → Nat}
    (hupd : ∀ i, i < z.level → u i = lastFrom header (onLevel z i A)) :
    (∀ i, i < (z.mem c).level → u i ≠ c) ∧
      ∀ i, i < z.level → ((z.row i (u i)).1 = some c ↔ i < (z.mem c).level) := by
  obtain ⟨hnot, hnd⟩ := List.nodup_cons.mp h.nodup
  have hcA : c ∉ A := fun hin =>
    (List.nodup_append.mp hnd).2.2 c hin c List.mem_cons_self rfl
  have hcB : c ∉ B := (List.nodup_cons.mp (List.nodup_append.mp hnd).2.1).1
  have hcmem : c ∈ A ++ c :: B := List.mem_append_right A List.mem_cons_self
  have hhc := h.level_le c hcmem
  refine ⟨fun i hi he => ?_, fun i hi => ?_⟩
  · rw [hupd i (by omega)] at he
    have hin := lastFrom_onLevel_mem z i A
    rw [he] at hin
    rcases List.mem_cons.mp hin with heq | hin
    · exact hnot (heq ▸ hcmem)
    · exact hcA hin
  · have hchain := h.chains i
    rw [onLevel_insert (fun _ _ => rfl) rfl] at hchain
    have hnext := hchain.next_lastFrom
    rw [← hupd i hi] at hnext
    change (z.row i (u i)).1 = _ at hnext
    rw [hnext]
    by_cases hic : i < (z.mem c).level
    · rw [if_pos hic]
      exact ⟨fun _ => hic, fun _ => rfl⟩
    · rw [if_neg hic]
      refine ⟨fun he => ?_, fun hlt => absurd hlt hic⟩
      have hin : c ∈ onLevel z i B := List.mem_of_head? he
      exact absurd (mem_onLevel.mp hin).1 hcB

/-- **DELETION KEEPS THE INVARIANT**, the node being taken out of every level
    it is on. -/
theorem Repr.detach {c : Nat} (h : Repr z (A ++ c :: B)) {u : Nat → Nat}
    (hupd : ∀ i, i < z.level → u i = lastFrom header (onLevel z i A)) :
    Repr (z.detach u c (z.mem c).member) (A ++ B) := by
  have hsub : A ++ B ⊆ A ++ c :: B := fun p hp => by
    rcases List.mem_append.mp hp with hp | hp
    · exact List.mem_append_left _ hp
    · exact List.mem_append_right _ (List.mem_cons_of_mem c hp)
  have hcmem : c ∈ A ++ c :: B := List.mem_append_right A List.mem_cons_self
  have hperm : (header :: (A ++ c :: B)).Perm (c :: header :: (A ++ B)) :=
    (List.perm_middle.cons header).trans (List.Perm.swap ..)
  obtain ⟨hcnot, hnd⟩ := List.nodup_cons.mp (hperm.nodup_iff.mp h.nodup)
  have hcAB : c ∉ A ++ B := fun hin => hcnot (List.mem_cons_of_mem header hin)
  have hhc := h.level_le c hcmem
  obtain ⟨hc, hon⟩ := h.update_spec hupd
  have hlev : ∀ i, onLevel z i (A ++ c :: B) = onLevel z i A ++
      ((if i < (z.mem c).level then [c] else []) ++ onLevel z i B) :=
    onLevel_insert (fun _ _ => rfl) rfl
  have hrow := detach_row (z.mem c).member hc hon
  have hfwd : ∀ i p, ((z.detach u c (z.mem c).member).mem p).forward i =
      if i < (z.mem c).level ∧ p = u i then (z.mem c).forward i else (z.mem p).forward i := by
    intro i p
    rw [forward_eq_row, hrow i]
    by_cases hi : i < z.level
    · rw [if_pos hi, trimRow_fst]
      by_cases hic : i < (z.mem c).level
      · rw [if_pos hic]
        unfold cutRow
        rw [Function.update_apply]
        by_cases hp : p = u i
        · rw [if_pos hp, if_pos ⟨hic, hp⟩]
          rfl
        · rw [if_neg hp, if_neg fun hh => hp hh.2]
          rfl
      · rw [if_neg hic, if_neg fun hh => hic hh.1]
        rfl
    · rw [if_neg hi, if_neg (by omega)]
      rfl
  obtain ⟨hnodes, hfresh, hlevel, hlength, hdict, htail⟩ :=
    detach_nodes z u c (z.mem c).member
  have hnode : SameLabels z (z.detach u c (z.mem c).member) (A ++ B) := fun p _ => hnodes p
  have hhead : ∀ i, ((z.detach u c (z.mem c).member).row i header).1 =
      ((z.detach u c (z.mem c).member).mem header).forward i := fun _ => rfl
  generalize z.detach u c (z.mem c).member = z' at *
  have hchains : ∀ i, Chain (fun p => (z'.mem p).forward i) header (onLevel z' i (A ++ B)) := by
    intro i
    rw [onLevel_congr fun p hp => (hnode p hp).2.2, onLevel_append]
    have hchain := h.chains i
    have hndl := h.towers.nodup_onLevel i
    rw [hlev i] at hchain hndl
    by_cases hic : i < (z.mem c).level
    · rw [if_pos hic] at hchain hndl
      have hui := hupd i (by omega)
      refine hchain.remove hndl ?_ fun q hq _ => ?_
      · rw [hfwd, if_pos ⟨hic, hui.symm⟩]
      · rw [hfwd, if_neg fun hh => hq (hh.2.trans hui)]
    · rw [if_neg hic] at hchain
      refine hchain.congr fun q _ => ?_
      rw [hfwd, if_neg fun hh => hic hh.1]
  have hfirst : ∀ i, (z'.mem header).forward i = (onLevel z' i (A ++ B)).head? := by
    intro i
    have hchain : Chain (fun p => (z'.mem p).forward i) header
        ([] ++ onLevel z' i (A ++ B)) := hchains i
    exact hchain.next_lastFrom
  obtain ⟨hl1, hl2, hl3, hl4⟩ := shrink_spec (fun i => (z'.row i header).1) z.level h.level_pos
  rw [← hlevel] at hl1 hl2 hl3 hl4
  have hle : ∀ p ∈ A ++ B, (z'.mem p).level ≤ z'.level := by
    intro p hp
    refine not_lt.mp fun hlt => ?_
    have hpl := h.level_le p (hsub hp)
    rw [← (hnode p hp).2.2] at hpl
    have hnone := hl3 z'.level (Nat.le_refl _) (lt_of_lt_of_le hlt hpl)
    rw [hhead, hfirst] at hnone
    have hin : p ∈ onLevel z' z'.level (A ++ B) := mem_onLevel.mpr ⟨hp, hlt⟩
    rw [List.head?_eq_none_iff.mp hnone] at hin
    exact absurd hin List.not_mem_nil
  refine ⟨hnd, ?_, hchains, ?_, ?_, ?_, ?_, ?_, ?_, hl1, hle, ?_⟩
  · intro p hp
    rw [hfresh]
    exact h.fresh p (hperm.mem_iff.mpr (List.mem_cons_of_mem c hp))
  · intro p hp
    rw [(hnode p hp).2.2]
    exact h.heights p (hsub hp)
  · refine hnode.sorted (h.sorted.sublist ?_)
    exact List.Sublist.append_left (List.sublist_cons_self c B) A
  · intro p hp
    rw [(hnode p hp).2.1]
    exact h.numeric p (hsub hp)
  · intro k t
    rw [hdict]
    by_cases hk : k = (z.mem c).member
    · rw [hk, Function.update_self]
      constructor
      · intro he
        cases he
      · -- another node with the member of `c` would share its place in the map
        rintro ⟨p, hp, hpm, _⟩
        rw [(hnode p hp).1] at hpm
        have hp1 := (h.dict _ _).mpr ⟨p, hsub hp, hpm, rfl⟩
        have hc1 := (h.dict _ _).mpr ⟨c, hcmem, rfl, rfl⟩
        have hscore := Option.some.inj (hp1.symm.trans hc1)
        rcases List.mem_append.mp hp with hpA | hpB
        · have hlt := h.cut.passed p hpA
          rw [← hscore, ← hpm, before_irrefl] at hlt
          cases hlt
        · have hlt := (List.pairwise_cons.mp (List.pairwise_append.mp h.sorted).2.1).1 p hpB
          rw [hscore, hpm, before_irrefl] at hlt
          cases hlt
    · rw [Function.update_of_ne hk, h.dict k t]
      constructor
      · rintro ⟨p, hp, hpm, hps⟩
        have hpAB : p ∈ A ++ B := by
          rcases List.mem_append.mp hp with hp | hp
          · exact List.mem_append_left B hp
          · rcases List.mem_cons.mp hp with rfl | hp
            · exact absurd hpm.symm hk
            · exact List.mem_append_right A hp
        exact ⟨p, hpAB, by rw [(hnode p hpAB).1]; exact hpm,
          by rw [(hnode p hpAB).2.1]; exact hps⟩
      · rintro ⟨p, hp, hpm, hps⟩
        rw [(hnode p hp).1] at hpm
        rw [(hnode p hp).2.1] at hps
        exact ⟨p, hsub hp, hpm, hps⟩
  · rw [hlength, h.length]
    simp only [List.length_append, List.length_cons]
    omega
  · have hzero := h.towers.onLevel_zero (List.subset_append_left A (c :: B))
    have hchain := h.chains 0
    rw [h.towers.onLevel_zero (List.Subset.refl _)] at hchain
    have hcnext : (z.mem c).forward 0 = B.head? := hchain.next_mid
    have hbehind : (z'.row 0 c).1 = B.head? := by
      have := hfwd 0 c
      rw [if_neg fun hh => hc 0 hh.1 hh.2.symm, hcnext] at this
      exact this
    have hu0 : u 0 = lastFrom header A := by
      rw [hupd 0 h.level_pos, hzero]
    rw [htail, hbehind]
    cases B with
    | cons q B =>
      rw [if_neg (by simp), h.tail]
      simp [List.getLast?_append]
    | nil =>
      rw [if_pos List.head?_nil, List.append_nil, hu0]
      rcases List.eq_nil_or_concat A with rfl | ⟨L, x, rfl⟩
      · rw [if_pos (lastFrom_nil header)]
        rfl
      · have hx : lastFrom header (L.concat x) = x := by
          rw [List.concat_eq_append, lastFrom_append]
          rfl
        have hxne : x ≠ header := fun e => (List.nodup_cons.mp h.nodup).1
          (List.mem_append_left _ (e ▸ (by simp : x ∈ L.concat x)))
        rw [hx, if_neg hxne]
        simp
  · rcases hl4 with h1 | hne
    · exact .inl h1
    · rw [hhead, hfirst] at hne
      obtain ⟨p, hp⟩ := Option.ne_none_iff_exists'.mp hne
      obtain ⟨hpm, hpl⟩ := mem_onLevel.mp (List.mem_of_head? hp)
      have := hle p hpm
      exact .inr ⟨p, hpm, by omega⟩

/-- **`deleteNode` finds the node the map promises**, and takes it out. -/
theorem Repr.deleteNode (h : Repr z ps) {m : Bytes} {s : F} (hd : z.dict m = some s) :
    ∃ A c B u, ps = A ++ c :: B ∧ (z.mem c).member = m ∧ (z.mem c).score = s ∧
      (∀ i, i < z.level → u i = lastFrom header (onLevel z i A)) ∧
      z.deleteNode m s = z.detach u c m ∧ Repr (z.deleteNode m s) (A ++ B) := by
  obtain ⟨c, hc, hcm, hcs⟩ := (h.dict m s).mp hd
  obtain ⟨A, B, rfl⟩ := List.append_of_mem hc
  have hcut := h.cut
  rw [hcm, hcs] at hcut
  refine ⟨A, c, B, fun i => (z.search (fun n _ => before s m n) z.level header 0 i).1, rfl,
    hcm, hcs, fun i hi => h.towers.search_before hcut hi, ?_⟩
  have hnext : (z.mem (z.search (fun n _ => before s m n) z.level header 0 0).1).forward 0 =
      some c := by
    rw [h.towers.search_before hcut h.level_pos,
      h.towers.onLevel_zero (List.subset_append_left A (c :: B))]
    have hchain := h.chains 0
    rw [h.towers.onLevel_zero (List.Subset.refl _)] at hchain
    exact hchain.next_lastFrom
  have heq : eq (z.mem c).score s = true := by
    obtain ⟨x, hx⟩ := h.numeric c hc
    exact eq_iff.mpr ⟨x, hx, hcs ▸ hx⟩
  have hdel : z.deleteNode m s = z.detach
      (fun i => (z.search (fun n _ => before s m n) z.level header 0 i).1) c m := by
    unfold ZSet.deleteNode
    simp only [hnext, heq, hcm, decide_true, Bool.and_self, if_true]
  refine ⟨hdel, ?_⟩
  rw [hdel, ← hcm]
  refine h.detach fun i hi => ?_
  rw [hcm]
  exact h.towers.search_before hcut hi

/-- Deletion empties the member's place in the map. -/
theorem Repr.deleteNode_dict (h : Repr z ps) {m : Bytes} {s : F} (hd : z.dict m = some s) :
    (z.deleteNode m s).dict = Function.update z.dict m none := by
  obtain ⟨A, c, B, u, _, _, _, _, hdel, _⟩ := h.deleteNode hd
  rw [hdel]
  exact (detach_nodes z u c m).2.2.2.2.1

/-- **`Add` of a new member**: its node goes where the order puts it. -/
theorem Repr.insertNew (h : Repr z ps) {m : Bytes} {s : F} {newLevel : Nat} (hs : IsNum s)
    (hl : 1 ≤ newLevel ∧ newLevel ≤ maxLevel) (hm : z.dict m = none) :
    ∃ A B, ps = A ++ B ∧ Cut z s m A B ∧
      Repr (z.insertNode m s newLevel) (A ++ z.fresh :: B) := by
  obtain ⟨A, B, rfl, hA, hB⟩ := split_of_pairwise
    (fun a b hab (hb : before s m (z.mem b) = true) => before_trans hab hb) h.sorted
  exact ⟨A, B, rfl, ⟨hA, hB⟩, h.insertNode hs hl hm ⟨hA, hB⟩⟩

end TinyZSet
