import TinyRedis.SkipListRunProofs

/-! # Spans

    `SpansOk z ps`: every link of every level carries the distance between its
    two ends in `ps`.  A search that adds up spans then knows the position of
    the node it has reached.

    Insertion keeps the spans exact.  Deletion corrects the link over the node
    on the node's own levels and nowhere else, so it keeps them only when no
    link of a higher level passes over the node, that is, when no later node is
    taller than it (`LastTall`). -/

namespace TinyZSet

open GoString GoFloat LinkedChain

variable {F : Type} {z : ZSet F} {A B ps : List Nat}

/-! ## Positions -/

/-- The position of a node in the set: the header is at 0, `ps` from 1 on. -/
def pos (ps : List Nat) (p : Nat) : Int := (header :: ps).idxOf p

theorem pos_header (ps : List Nat) : pos ps header = 0 := by
  unfold pos
  rw [List.idxOf_cons_self]
  rfl

/-- What is behind does not count. -/
theorem pos_left {A : List Nat} (B : List Nat) {p : Nat} (hp : p ∈ header :: A) :
    pos (A ++ B) p = pos A p := by
  unfold pos
  rw [← List.cons_append, List.idxOf_append_of_mem hp]

/-- A node of the second part has all of the first before it. -/
theorem pos_right (hnd : (header :: (A ++ B)).Nodup) {q : Nat} (hq : q ∈ B) :
    pos (A ++ B) q = A.length + 1 + B.idxOf q := by
  unfold pos
  have hnot : q ∉ header :: A := fun hin =>
    (List.nodup_append.mp (List.cons_append ▸ hnd)).2.2 q hin q hq rfl
  rw [← List.cons_append, List.idxOf_append_of_notMem hnot, List.length_cons]
  push_cast
  ring

/-- The last node of a sequence is at its length. -/
theorem pos_lastFrom {A : List Nat} (hnd : (header :: A).Nodup) :
    pos A (lastFrom header A) = A.length := by
  rcases List.eq_nil_or_concat A with rfl | ⟨L, x, rfl⟩
  · exact pos_header []
  · rw [List.concat_eq_append] at hnd ⊢
    rw [lastFrom_append, lastFrom_cons, lastFrom_nil, pos_right hnd (List.mem_singleton_self x)]
    simp

/-- Behind a node put in between, positions grow by one. -/
theorem pos_insert {n q : Nat} (hnd : (header :: (A ++ n :: B)).Nodup) (hq : q ∈ B) :
    pos (A ++ n :: B) q = pos (A ++ B) q + 1 := by
  have hsub : (header :: (A ++ B)).Nodup :=
    hnd.sublist ((List.Sublist.append_left (List.sublist_cons_self n B) A).cons_cons header)
  have hn : n ∉ B := (List.nodup_cons.mp (List.nodup_append.mp (List.nodup_cons.mp hnd).2).2.1).1
  rw [pos_right hnd (List.mem_cons_of_mem n hq), pos_right hsub hq,
    List.idxOf_cons_ne B (fun e : n = q => hn (e ▸ hq))]
  push_cast
  ring

/-- A node put in between keeps distances within either part. -/
theorem pos_sub_insert {n p q : Nat} (hnd : (header :: (A ++ n :: B)).Nodup)
    (h : p ∈ header :: A ∧ q ∈ header :: A ∨ p ∈ B ∧ q ∈ B) :
    pos (A ++ n :: B) q - pos (A ++ n :: B) p = pos (A ++ B) q - pos (A ++ B) p := by
  rcases h with ⟨hp, hq⟩ | ⟨hp, hq⟩
  · rw [pos_left _ hp, pos_left _ hq, pos_left _ hp, pos_left _ hq]
  · rw [pos_insert hnd hp, pos_insert hnd hq]
    ring

/-- Over a node put in between, distances grow by one. -/
theorem pos_sub_insert_over {n p q : Nat} (hnd : (header :: (A ++ n :: B)).Nodup)
    (hp : p ∈ header :: A) (hq : q ∈ B) :
    pos (A ++ n :: B) q - pos (A ++ n :: B) p = pos (A ++ B) q - pos (A ++ B) p + 1 := by
  rw [pos_left _ hp, pos_left _ hp, pos_insert hnd hq]
  ring

/-- The node put in between comes right behind the first part. -/
theorem pos_inserted {n : Nat} (hnd : (header :: (A ++ n :: B)).Nodup) :
    pos (A ++ n :: B) n = A.length + 1 := by
  rw [pos_right hnd List.mem_cons_self, List.idxOf_cons_self]
  simp

/-- **The spans are exact**: every link carries the distance of its ends. -/
def SpansOk (z : ZSet F) (ps : List Nat) : Prop :=
  ∀ i p q, p ∈ header :: onLevel z i ps → (z.mem p).forward i = some q →
    (z.mem p).span i = pos ps q - pos ps p

/-- A step of a search keeps rank and position equal. -/
theorem SpansOk.step (h : SpansOk z ps) (i u v : Nat) (r : Int) (hu : u ∈ header :: onLevel z i ps)
    (hv : (z.mem u).forward i = some v) (hr : r = pos ps u) : r + (z.mem u).span i = pos ps v := by
  rw [h i u v hu hv, hr]
  ring

/-- **A search that counts spans** knows the position of the node it ends at. -/
theorem Towers.search_pos (h : Towers z (A ++ B)) (hsp : SpansOk z (A ++ B))
    {adv : ZSetNode F → Int → Bool} (hA : ∀ q ∈ A, adv (z.mem q) (pos (A ++ B) q) = true)
    (hB : ∀ q ∈ B, adv (z.mem q) (pos (A ++ B) q) = false) {i : Nat} (hi : i < z.level) :
    z.search adv z.level header 0 i = (lastFrom header (onLevel z i A),
      pos (A ++ B) (lastFrom header (onLevel z i A))) := by
  have htop : onLevel z z.level A = [] :=
    h.onLevel_eq_nil (List.subset_append_left A B) (Nat.le_refl _)
  have hend := h.search_spec (I := fun p r => r = pos (A ++ B) p) hsp.step
    (fun q hq r hr => hr ▸ hA q hq) (fun q hq r hr => hr ▸ hB q hq) z.level header 0
    (by rw [htop]; rfl) (pos_header _).symm i hi
  exact Prod.ext hend.1 hend.2

/-- The links of a level, where the sequence has two parts. -/
theorem onLevel_link {i p q : Nat}
    (h : Chain (fun p => (z.mem p).forward i) header (onLevel z i A ++ onLevel z i B))
    (hp : p ∈ header :: (onLevel z i A ++ onLevel z i B)) (hq : (z.mem p).forward i = some q) :
    (p ∈ header :: A ∧ q ∈ header :: A) ∨
      (p = lastFrom header (onLevel z i A) ∧ (onLevel z i B).head? = some q) ∨
      (p ∈ B ∧ q ∈ B) := by
  rcases h.next_cases hp hq with ⟨h1, h2⟩ | hmid | ⟨h1, h2⟩
  · refine .inl ⟨?_, List.mem_cons_of_mem _ (mem_onLevel.mp h2).1⟩
    rcases List.mem_cons.mp h1 with rfl | h1
    · exact List.mem_cons_self
    · exact List.mem_cons_of_mem _ (mem_onLevel.mp h1).1
  · exact .inr (.inl hmid)
  · exact .inr (.inr ⟨(mem_onLevel.mp h1).1, (mem_onLevel.mp h2).1⟩)

/-- A level with a link is one of the list's. -/
theorem Towers.level_of_link (h : Towers z ps) {i p q : Nat} (hp : p ∈ header :: onLevel z i ps)
    (hq : (z.mem p).forward i = some q) : i < z.level := by
  refine not_le.mp fun hi => ?_
  have hchain := h.chains i
  rw [h.onLevel_eq_nil (List.Subset.refl ps) hi] at hp hchain
  rw [List.mem_singleton.mp hp] at hq
  exact absurd (hchain.symm.trans hq) (by simp)

/-- Where the list has nodes, the spans before linking are the old ones. -/
theorem unlinkedRow_snd (z : ZSet F) (newLevel : Nat) {i p : Nat} (hi : i < z.level)
    (hp : p ≠ z.fresh) : (unlinkedRow z newLevel i p).2 = (z.mem p).span i := by
  unfold unlinkedRow
  rw [Function.update_of_ne hp, if_neg (by omega)]
  rfl

/-- The nodes of a level other than the new one were on it before. -/
theorem onLevel_insert_old {n newLevel i p : Nat}
    (hp : p ∈ header :: (onLevel z i A ++ ((if i < newLevel then [n] else []) ++ onLevel z i B)))
    (hpn : p ≠ n) : p ∈ header :: onLevel z i (A ++ B) := by
  rw [onLevel_append]
  rcases List.mem_cons.mp hp with rfl | hp
  · exact List.mem_cons_self
  · refine List.mem_cons_of_mem _ ?_
    simp only [List.mem_append] at hp ⊢
    rcases hp with hp | hp | hp
    · exact .inl hp
    · by_cases hi : i < newLevel
      · rw [if_pos hi] at hp
        exact absurd (List.mem_singleton.mp hp) hpn
      · rw [if_neg hi] at hp
        exact absurd hp List.not_mem_nil
    · exact .inr hp

variable [Float64 F] {s : F} {m : Bytes}

/-- `rank[i]` of `Add` is the position of `update[i]`. -/
theorem Towers.rankAt_eq (h : Towers z (A ++ B)) (hsp : SpansOk z (A ++ B))
    (hcut : Cut z s m A B) (i : Nat) :
    rankAt z m s i = pos (A ++ B) (lastFrom header (onLevel z i A)) := by
  unfold rankAt
  by_cases hi : i < z.level
  · rw [if_pos hi, h.search_pos hsp hcut.passed hcut.behind hi]
  · rw [if_neg hi, h.onLevel_eq_nil (List.subset_append_left A B) (not_lt.mp hi)]
    exact (pos_header _).symm

/-! ## Insertion -/

/-- The spans of the new links, and of the links over the new node. -/
theorem insertNode_span {m : Bytes} {s : F} (newLevel : Nat) (hu : ∀ i, updateAt z m s i ≠ z.fresh)
    (i : Nat) :
    (i < newLevel → ((z.insertNode m s newLevel).mem (updateAt z m s i)).span i =
      rankAt z m s 0 - rankAt z m s i + 1) ∧
    (i < newLevel → i < z.level → ((z.insertNode m s newLevel).mem z.fresh).span i =
      (z.mem (updateAt z m s i)).span i - (rankAt z m s 0 - rankAt z m s i)) ∧
    (¬ i < newLevel → i < z.level →
      ((z.insertNode m s newLevel).mem (updateAt z m s i)).span i =
        (z.mem (updateAt z m s i)).span i + 1) ∧
    (i < z.level → ∀ p, p ≠ updateAt z m s i → p ≠ z.fresh →
      ((z.insertNode m s newLevel).mem p).span i = (z.mem p).span i) := by
  have hrow := insertNode_row z m s newLevel hu i
  have hspan : ∀ p, ((z.insertNode m s newLevel).mem p).span i =
      ((z.insertNode m s newLevel).row i p).2 := fun _ => rfl
  simp only [hspan, hrow]
  refine ⟨fun hi => ?_, fun hi hl => ?_, fun hi hl => ?_, fun hl p hp hn => ?_⟩
  · rw [if_pos hi, linkRow, if_pos rfl]
  · rw [if_pos hi, linkRow, if_neg (hu i).symm, if_pos rfl, unlinkedRow_snd z _ hl (hu i)]
  · rw [if_neg hi, if_pos hl, spanRow, Function.update_self, unlinkedRow_snd z _ hl (hu i)]
  · by_cases hi : i < newLevel
    · rw [if_pos hi, linkRow, if_neg hp, if_neg hn, unlinkedRow_snd z _ hl hn]
    · rw [if_neg hi, if_pos hl, spanRow, Function.update_of_ne hp, unlinkedRow_snd z _ hl hn]

/-- `rank[0]` counts the nodes before the new one. -/
theorem Towers.rankAt_zero (h : Towers z (A ++ B)) (hsp : SpansOk z (A ++ B))
    (hcut : Cut z s m A B) : rankAt z m s 0 = A.length := by
  have hAnd : (header :: A).Nodup := (List.nodup_append.mp (List.cons_append ▸ h.nodup)).1
  rw [h.rankAt_eq hsp hcut 0, h.onLevel_zero (List.subset_append_left A B),
    pos_left _ (lastFrom_mem header A), pos_lastFrom hAnd]

/-- **INSERTION KEEPS THE SPANS EXACT.** -/
theorem Towers.insertNode_spans (h : Towers z (A ++ B)) (hsp : SpansOk z (A ++ B))
    {newLevel : Nat} (hl : 1 ≤ newLevel) (hcut : Cut z s m A B) :
    SpansOk (z.insertNode m s newLevel) (A ++ z.fresh :: B) := by
  have hnd := (h.insertNode hl hcut).nodup
  have hupd := h.updateAt_eq hcut
  have huA := h.updateAt_mem hcut
  have hu := h.updateAt_ne hcut
  have hrank : ∀ i, rankAt z m s i = pos (A ++ B) (updateAt z m s i) := fun i => by
    rw [hupd i]
    exact h.rankAt_eq hsp hcut i
  have hrank0 := h.rankAt_zero hsp hcut
  intro i p q hp hq
  have hfwd := insertNode_forward (s := s) (m := m) newLevel hu i
  obtain ⟨hspanU, hspanN, hspanOver, hspanOld⟩ := insertNode_span newLevel hu i
  have hlev := onLevel_insert (fun p hp => (h.insertNode_labels m s newLevel p hp).2.2)
    (insertNode_nodes z m s newLevel).2.2.2.1 i
  rw [hlev] at hp
  have hchain := h.chains i
  rw [onLevel_append] at hchain
  have hnext : (z.mem (updateAt z m s i)).forward i = (onLevel z i B).head? := by
    rw [hupd i]
    exact hchain.next_lastFrom
  have hhead : ∀ q, (onLevel z i B).head? = some q → q ∈ B ∧ i < z.level := fun q hq => by
    have hq' := mem_onLevel.mp (List.mem_of_head? hq)
    exact ⟨hq'.1, lt_of_lt_of_le hq'.2 (h.level_le q (List.mem_append_right A hq'.1))⟩
  -- a link that is neither of `update[i]` nor of the new node
  have hold : p ≠ updateAt z m s i → p ≠ z.fresh → (z.mem p).forward i = some q →
      ((z.insertNode m s newLevel).mem p).span i =
        pos (A ++ z.fresh :: B) q - pos (A ++ z.fresh :: B) p := by
    intro hpu hpn hqold
    have hpold := onLevel_insert_old hp hpn
    rw [onLevel_append] at hpold
    have hcases : p ∈ header :: A ∧ q ∈ header :: A ∨ p ∈ B ∧ q ∈ B := by
      rcases onLevel_link hchain hpold hqold with hleft | ⟨hlast, _⟩ | hright
      · exact .inl hleft
      · exact absurd (hlast.trans (hupd i).symm) hpu
      · exact .inr hright
    rw [← onLevel_append] at hpold
    rw [hspanOld (h.level_of_link hpold hqold) p hpu hpn, pos_sub_insert hnd hcases]
    exact hsp i p q hpold hqold
  rw [hfwd] at hq
  have hupos : pos (A ++ B) (updateAt z m s i) =
      pos (A ++ z.fresh :: B) (updateAt z m s i) := by
    rw [pos_left _ (huA i), pos_left _ (huA i)]
  have hulevel : ∀ q, (onLevel z i B).head? = some q →
      updateAt z m s i ∈ header :: onLevel z i (A ++ B) := fun _ _ => by
    rw [hupd i, onLevel_append]
    exact List.mem_append_left _ (lastFrom_mem header (onLevel z i A))
  by_cases hi : i < newLevel
  · rw [if_pos hi] at hq
    by_cases hpu : p = updateAt z m s i
    · rw [if_pos hpu] at hq
      rw [hpu, hspanU hi, ← Option.some.inj hq, pos_inserted hnd, hrank0, hrank i, hupos]
      ring
    · rw [if_neg hpu] at hq
      by_cases hpn : p = z.fresh
      · rw [if_pos hpn, hnext] at hq
        obtain ⟨hqB, hlt⟩ := hhead q hq
        have hover := pos_sub_insert_over hnd (huA i) hqB
        have hlink := hsp i _ q (hulevel q hq) (hnext.trans hq)
        rw [hpn, hspanN hi hlt, hlink, pos_inserted hnd, hrank0, hrank i]
        rw [hupos] at hover ⊢
        omega
      · rw [if_neg hpn] at hq
        exact hold hpu hpn hq
  · rw [if_neg hi] at hq
    by_cases hpn : p = z.fresh
    · rw [if_pos hpn] at hq
      cases hq
    · rw [if_neg hpn] at hq
      by_cases hpu : p = updateAt z m s i
      · rw [hpu, hnext] at hq
        obtain ⟨hqB, hlt⟩ := hhead q hq
        rw [hpu, hspanOver hi hlt, hsp i _ q (hulevel q hq) (hnext.trans hq),
          pos_sub_insert_over hnd (huA i) hqB]
      · exact hold hpu hpn hq

/-! ## The end of a level -/

/-- **The last node of every level** carries the number of nodes behind it. -/
def EndSpans (z : ZSet F) (ps : List Nat) : Prop :=
  ∀ i p, i < z.level → p ∈ header :: onLevel z i ps → (z.mem p).forward i = none →
    (z.mem p).span i = z.length - pos ps p

/-- The last node of a level, where it is not `update[i]`, is behind the new one. -/
theorem Towers.endSpans_behind (h : Towers z (A ++ B)) (hcut : Cut z s m A B)
    {i p : Nat} (hp : p ∈ header :: onLevel z i (A ++ B)) (hnone : (z.mem p).forward i = none)
    (hpu : p ≠ updateAt z m s i) : p ∈ B := by
  have hlast := (h.chains i).eq_lastFrom hp hnone
  rw [onLevel_append, lastFrom_append, ← h.updateAt_eq hcut i] at hlast
  rcases List.mem_cons.mp (lastFrom_mem (updateAt z m s i) (onLevel z i B)) with he | hmem
  · exact absurd (hlast.trans he) hpu
  · exact hlast ▸ (mem_onLevel.mp hmem).1

/-- The span of the new node, where it is the last of its level: on a level
    that `Add` opens the header's span has just been set to the length. -/
theorem Towers.insertNode_endSpan (h : Towers z (A ++ B)) (hsp : SpansOk z (A ++ B))
    (hend : EndSpans z (A ++ B)) {newLevel : Nat} (hcut : Cut z s m A B)
    {i : Nat} (hi : i < newLevel) (hnone : (z.mem (updateAt z m s i)).forward i = none) :
    ((z.insertNode m s newLevel).mem z.fresh).span i = z.length - A.length := by
  have hu := h.updateAt_ne hcut
  have hrank0 := h.rankAt_zero hsp hcut
  by_cases hl : i < z.level
  · have hmem : updateAt z m s i ∈ header :: onLevel z i (A ++ B) := by
      rw [h.updateAt_eq hcut i, onLevel_append]
      exact List.mem_append_left _ (lastFrom_mem header (onLevel z i A))
    rw [(insertNode_span newLevel hu i).2.1 hi hl, hend i _ hl hmem hnone, hrank0,
      h.rankAt_eq hsp hcut i, ← h.updateAt_eq hcut i]
    ring
  · have hspan : ((z.insertNode m s newLevel).mem z.fresh).span i =
        ((z.insertNode m s newLevel).row i z.fresh).2 := rfl
    have hupd : updateAt z m s i = header := if_neg hl
    have hrank : rankAt z m s i = 0 := if_neg hl
    have hraised : (unlinkedRow z newLevel i header).2 = z.length := by
      unfold unlinkedRow
      rw [Function.update_of_ne (h.fresh header List.mem_cons_self).ne,
        if_pos ⟨not_lt.mp hl, hi⟩, spanRow, Function.update_self]
    rw [hspan, insertNode_row z m s newLevel hu i, if_pos hi, linkRow, if_neg (hu i).symm,
      if_pos rfl, hupd, hraised, hrank, hrank0]
    ring

/-- **INSERTION KEEPS THE SPANS AT THE END OF THE LEVELS.** -/
theorem Towers.insertNode_endSpans (h : Towers z (A ++ B)) (hsp : SpansOk z (A ++ B))
    (hend : EndSpans z (A ++ B)) {newLevel : Nat} (hl : 1 ≤ newLevel) (hcut : Cut z s m A B) :
    EndSpans (z.insertNode m s newLevel) (A ++ z.fresh :: B) := by
  have hnd := (h.insertNode hl hcut).nodup
  have hu := h.updateAt_ne hcut
  obtain ⟨_, _, _, hnl, _, hlevel, hlength, _⟩ := insertNode_nodes z m s newLevel
  intro i p hi hp hnone
  rw [hlevel, lt_max_iff] at hi
  obtain ⟨-, -, hspanOver, hspanOld⟩ := insertNode_span newLevel hu i
  rw [insertNode_forward newLevel hu i p] at hnone
  rw [onLevel_insert (fun p hp => (h.insertNode_labels m s newLevel p hp).2.2) hnl i] at hp
  rw [hlength]
  -- the last node of a level, when it was there before
  have hold : p ∈ header :: onLevel z i (A ++ B) → (z.mem p).forward i = none →
      p ≠ updateAt z m s i → i < z.level →
      ((z.insertNode m s newLevel).mem p).span i =
        z.length + 1 - pos (A ++ z.fresh :: B) p := by
    intro hpold hpnone hpu hil
    have hpB := h.endSpans_behind hcut hpold hpnone hpu
    have hpmem := List.mem_append_right A hpB
    have hpn : p ≠ z.fresh := (h.fresh p (List.mem_cons_of_mem header hpmem)).ne
    have hpos := pos_sub_insert_over hnd List.mem_cons_self hpB
    rw [pos_header, pos_header] at hpos
    rw [hspanOld hil p hpu hpn, hend i p hil hpold hpnone]
    omega
  by_cases hpn : p = z.fresh
  · by_cases hin : i < newLevel
    · rw [if_pos hin, hpn, if_neg (hu i).symm, if_pos rfl] at hnone
      rw [hpn, h.insertNode_endSpan hsp hend hcut hin hnone, pos_inserted hnd]
      ring
    · rw [if_neg hin, List.nil_append, ← onLevel_append] at hp
      rcases List.mem_cons.mp hp with he | hp
      · exact absurd (hpn.symm.trans he) (h.fresh header List.mem_cons_self).ne'
      · exact absurd hpn (h.fresh p (List.mem_cons_of_mem _ (mem_onLevel.mp hp).1)).ne
  · have hpold := onLevel_insert_old hp hpn
    have hpnone : p ≠ updateAt z m s i ∨ ¬ i < newLevel → (z.mem p).forward i = none := by
      rintro (hpu | hin)
      · rwa [if_neg hpu, if_neg hpn, if_neg hpn, ite_self] at hnone
      · rwa [if_neg hin, if_neg hpn] at hnone
    by_cases hpu : p = updateAt z m s i
    · have hin : ¬ i < newLevel := by
        intro hin
        rw [if_pos hin, if_pos hpu] at hnone
        cases hnone
      have hil : i < z.level := hi.resolve_right hin
      have huA := h.updateAt_mem hcut i
      have hlast := hend i p hil hpold (hpnone (.inr hin))
      rw [hpu, hspanOver hin hil, ← hpu, hlast, hpu, pos_left _ huA, pos_left _ huA]
      ring
    · refine hold hpold (hpnone (.inl hpu)) hpu (not_le.mp fun hle => hpu ?_)
      -- above the old level only the header was there, and it is `update[i]`
      rw [h.onLevel_eq_nil (List.Subset.refl _) hle] at hpold
      rw [List.mem_singleton.mp hpold]
      exact (if_neg (not_lt.mpr hle)).symm

/-- **Every span is exact**: the span of a node on a level is the distance to
    the next node there, and to the end of the set where there is none. -/
def SpansExact (z : ZSet F) (ps : List Nat) : Prop :=
  ∀ i x, i < z.level → x ∈ header :: onLevel z i ps →
    (z.mem x).span i =
      (match (z.mem x).forward i with
      | some y => pos ps y
      | none => z.length) - pos ps x

omit [Float64 F] in
theorem Towers.spansExact_iff (h : Towers z ps) :
    SpansExact z ps ↔ SpansOk z ps ∧ EndSpans z ps := by
  constructor
  · intro hex
    refine ⟨fun i p q hp hq => ?_, fun i p hi hp hnone => ?_⟩
    · have := hex i p (h.level_of_link hp hq) hp
      rwa [hq] at this
    · have := hex i p hi hp
      rwa [hnone] at this
  · rintro ⟨hsp, hend⟩ i x hi hx
    cases hq : (z.mem x).forward i with
    | none => exact hend i x hi hx hq
    | some q => exact hsp i x q hx hq

/-- **ADD KEEPS EVERY SPAN EXACT**, whatever the level drawn: the towers stand
    linked as before with the new one among them, and each span of each level
    is the distance of its ends. -/
theorem add_keeps_spans_exact {z : ZSet F} {ps : List Nat} (h : Towers z ps)
    (hsorted : ps.Pairwise fun p q => before (z.mem q).score (z.mem q).member (z.mem p) = true)
    (hspans : SpansExact z ps) {m : Bytes} {s : F} {l : Nat} (hm : z.dict m = none)
    (hl : IsLevel l) :
    ∃ A B, ps = A ++ B ∧ Towers (z.add m s l).1 (A ++ z.fresh :: B) ∧
      SpansExact (z.add m s l).1 (A ++ z.fresh :: B) := by
  obtain ⟨hsp, hend⟩ := h.spansExact_iff.mp hspans
  obtain ⟨A, B, rfl, hA, hB⟩ := split_of_pairwise
    (fun a b hab (hb : before s m (z.mem b) = true) => before_trans hab hb) hsorted
  have hcut : Cut z s m A B := ⟨hA, hB⟩
  have hadd : (z.add m s l).1 = z.insertNode m s l := by
    unfold ZSet.add
    rw [hm]
  have htow := h.insertNode hl.1 hcut
  rw [hadd]
  exact ⟨A, B, rfl, htow, htow.spansExact_iff.mpr
    ⟨h.insertNode_spans hsp hl.1 hcut, h.insertNode_endSpans hsp hend hl.1 hcut⟩⟩

/-- A tower of three levels, and a lower one put before it. -/
theorem add_keeps_spans_exact_twice :
    ∃ z : ZSet IntScore, z = (newZSet.add [98] (some 2) 3).1 ∧ SpansExact z [1] ∧
      ∃ A B, [1] = A ++ B ∧ SpansExact (z.add [97] (some 1) 1).1 (A ++ z.fresh :: B) := by
  have hempty : SpansExact (newZSet : ZSet IntScore) [] := by
    intro i x _ hx
    rw [List.mem_singleton.mp hx]
    rfl
  obtain ⟨A, B, hnil, htow, hex⟩ := add_keeps_spans_exact (s := some 2) newZSet_repr.towers
    List.Pairwise.nil hempty (m := [98]) (l := 3) rfl ⟨by decide, by decide⟩
  obtain ⟨rfl, rfl⟩ := List.append_eq_nil_iff.mp hnil.symm
  obtain ⟨A, B, hone, _, hex'⟩ := add_keeps_spans_exact (s := some 1) htow
    (List.pairwise_singleton ..) hex (m := [97]) (l := 1) rfl ⟨by decide, by decide⟩
  exact ⟨_, rfl, hex, A, B, hone, hex'⟩

/-! ## Deletion -/

/-- **DELETION KEEPS THE SPANS EXACT WHEN NO LATER NODE IS TALLER.** -/
theorem Repr.detach_spans {c : Nat} (h : Repr z (A ++ c :: B)) (hsp : SpansOk z (A ++ c :: B))
    (htall : ∀ q ∈ B, (z.mem q).level ≤ (z.mem c).level) {u : Nat → Nat}
    (hupd : ∀ i, i < z.level → u i = lastFrom header (onLevel z i A)) :
    SpansOk (z.detach u c (z.mem c).member) (A ++ B) := by
  obtain ⟨hc, hon⟩ := h.update_spec hupd
  have hrow := detach_row (z.mem c).member hc hon
  have hnodes := (detach_nodes z u c (z.mem c).member).1
  have hchain' := (h.detach hupd).chains
  have hhc := h.level_le c (List.mem_append_right A List.mem_cons_self)
  generalize z.detach u c (z.mem c).member = z' at *
  intro i p q hp hq
  have hlevels : ∀ L, onLevel z' i L = onLevel z i L := fun L =>
    onLevel_congr fun p _ => (hnodes p).2.2
  have hlink := hchain' i
  rw [onLevel_append] at hlink hp
  have hcases := onLevel_link hlink hp hq
  rw [hlevels A, hlevels B] at hcases hp
  have hpz : p ∈ header :: onLevel z i (A ++ c :: B) := by
    rcases List.mem_cons.mp hp with rfl | hp
    · exact List.mem_cons_self
    · refine List.mem_cons_of_mem _ ?_
      rw [onLevel_insert (fun _ _ => rfl) rfl]
      rcases List.mem_append.mp hp with hp | hp
      · exact List.mem_append_left _ hp
      · exact List.mem_append_right _ (List.mem_append_right _ hp)
  have hchain := h.chains i
  have hlev : onLevel z i (A ++ c :: B) = onLevel z i A ++
      ((if i < (z.mem c).level then [c] else []) ++ onLevel z i B) :=
    onLevel_insert (fun _ _ => rfl) rfl i
  rw [hlev] at hchain
  have hrowi := hrow i
  by_cases hi : i < z.level
  · rw [if_pos hi] at hrowi
    by_cases hpu : p = u i
    · by_cases hic : i < (z.mem c).level
      · -- the link over `c` is the two links that met in it
        rw [if_pos hic] at hrowi hchain
        have hcut : cutRow (u i) c (z.row i) (u i) =
            ((z.mem c).forward i, (z.mem (u i)).span i + ((z.mem c).span i - 1)) :=
          Function.update_self ..
        have hq' : (cutRow (u i) c (z.row i) (u i)).1 = some q := by
          have hfst : (z'.row i p).1 = some q := hq
          rw [hrowi, trimRow_fst, hpu] at hfst
          exact hfst
        have hspan : (z'.mem p).span i = (z.mem (u i)).span i + ((z.mem c).span i - 1) := by
          show (z'.row i p).2 = _
          rw [hrowi, trimRow, if_neg (by rw [hq']; exact Option.some_ne_none q), hpu, hcut]
        rw [hcut] at hq'
        have hnext : (z.mem (u i)).forward i = some c := (hon i hi).mpr hic
        have hcon : c ∈ header :: onLevel z i (A ++ c :: B) := by
          rw [hlev, if_pos hic]
          exact List.mem_cons_of_mem _ (List.mem_append_right _ List.mem_cons_self)
        have hcnext : (z.mem c).forward i = (onLevel z i B).head? := hchain.next_mid
        have hqB : q ∈ B :=
          (mem_onLevel.mp (List.mem_of_head? (hcnext.symm.trans hq'))).1
        have huA : u i ∈ header :: A := by
          rw [hupd i hi]
          exact lastFrom_onLevel_mem z i A
        have h1 := hsp i (u i) c (hpu ▸ hpz) hnext
        have h2 := hsp i c q hcon hq'
        have h3 := pos_sub_insert_over h.nodup huA hqB
        rw [hspan, h1, h2, hpu]
        omega
      · -- no later node is on this level, so nothing is linked behind `update[i]`
        rw [if_neg hic] at hrowi hchain
        have hBnil : onLevel z i B = [] := by
          refine List.filter_eq_nil_iff.mpr fun q hq hlt => ?_
          have h1 := htall q hq
          have h2 := of_decide_eq_true hlt
          omega
        have hnone : (z.mem (u i)).forward i = none := by
          rw [hupd i hi]
          have := hchain.next_lastFrom
          rwa [hBnil] at this
        have hfst : (z'.row i p).1 = some q := hq
        rw [hrowi, trimRow_fst, hpu] at hfst
        exact absurd (hnone.symm.trans hfst) (by simp)
    · -- every other link is what it was
      have hsame : z'.row i p = z.row i p := by
        have htrim : ∀ ρ : Row, trimRow (u i) ρ p = ρ p := fun ρ => by
          unfold trimRow spanRow
          by_cases hn : (ρ (u i)).1 = none
          · rw [if_pos hn, Function.update_of_ne hpu]
          · rw [if_neg hn]
        rw [hrowi, htrim]
        by_cases hic : i < (z.mem c).level
        · rw [if_pos hic, cutRow, Function.update_of_ne hpu]
        · rw [if_neg hic]
      have hold : (z.mem p).forward i = some q := (congrArg Prod.fst hsame).symm.trans hq
      have hspan : (z'.mem p).span i = (z.mem p).span i := congrArg Prod.snd hsame
      rw [hspan, hsp i p q hpz hold]
      refine pos_sub_insert h.nodup ?_
      rcases hcases with hleft | ⟨hlast, _⟩ | hright
      · exact .inl hleft
      · exact absurd (hlast.trans (hupd i hi).symm) hpu
      · exact .inr hright
  · rw [if_neg hi] at hrowi
    have hfst : (z'.row i p).1 = some q := hq
    rw [hrowi] at hfst
    exact absurd (h.towers.level_of_link hpz hfst) hi

end TinyZSet
