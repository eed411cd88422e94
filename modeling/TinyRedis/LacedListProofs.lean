import TinyRedis.LinkedChainProofs

/-! # Doubly linked lists

    Pointers with links in two directions, between two sentinels.  Everything is
    stated for a direction `d`, the other one being `d.opp`, so that a fact about
    one end of a list is a fact about the other. -/

namespace LinkedChain

variable {P : Type}

/-- A direction along a doubly linked list. -/
inductive Dir where
  | forth
  | back
deriving DecidableEq

/-- The other direction. -/
def Dir.opp : Dir → Dir
  | .forth => .back
  | .back => .forth

@[simp] theorem Dir.opp_forth : Dir.forth.opp = .back := rfl

@[simp] theorem Dir.opp_back : Dir.back.opp = .forth := rfl

@[simp] theorem Dir.opp_opp (d : Dir) : d.opp.opp = d := by
  cases d <;> rfl

@[simp] theorem Dir.opp_ne (d : Dir) : d.opp ≠ d := by
  cases d <;> decide

@[simp] theorem Dir.ne_opp (d : Dir) : d ≠ d.opp := d.opp_ne.symm

/-- Between two sentinels lie `ps`, as met in direction `d`: the links of that
    direction visit them from the one sentinel to the other, and the links of the
    other direction visit them in reverse. -/
structure Laced (link : Dir → P → Option P) (ends : Dir → P) (d : Dir) (ps : List P) : Prop where
  nodup : (ends d :: (ps ++ [ends d.opp])).Nodup
  there : Chain (link d) (ends d) (ps ++ [ends d.opp])
  back : Chain (link d.opp) (ends d.opp) (ps.reverse ++ [ends d])

/-- The next pointer in the direction of `B`, which is met from the far end last. -/
theorem head_append_end (t : P) (B : List P) :
    (B ++ [t]).head? = some (lastFrom t B.reverse) := by
  cases B with
  | nil => rfl
  | cons b B => simp [lastFrom_append]

theorem head_of_ne_nil (t : P) {W : List P} (hne : W ≠ []) :
    W.head? = some (lastFrom t W.reverse) := by
  rw [← head_append_end, List.head?_append_of_ne_nil W hne]

namespace Laced

variable {link link' : Dir → P → Option P} {ends : Dir → P} {d : Dir} {A B : List P} {n : P}

/-- The same list met the other way. -/
theorem flip {ps : List P} (h : Laced link ends d ps) : Laced link ends d.opp ps.reverse := by
  refine ⟨?_, ?_, ?_⟩
  · have hperm : (ends d.opp :: (ps.reverse ++ [ends d.opp.opp])).Perm
        (ends d :: (ps ++ [ends d.opp])) := by
      rw [Dir.opp_opp, ← List.reverse_cons, ← List.cons_append]
      exact ((List.reverse_perm _).cons _).trans (List.perm_append_singleton _ _).symm
    exact hperm.nodup_iff.mpr h.nodup
  · rw [Dir.opp_opp]
    exact h.back
  · rw [Dir.opp_opp, List.reverse_reverse]
    exact h.there

/-- What is linked where the two parts meet. -/
theorem next_lastFrom (h : Laced link ends d (A ++ B)) :
    link d (lastFrom (ends d) A) = some (lastFrom (ends d.opp) B.reverse) := by
  have hchain := h.there
  rw [List.append_assoc] at hchain
  rw [hchain.next_lastFrom, head_append_end]

/-- Nothing is behind the sentinels. -/
theorem next_end {ps : List P} (h : Laced link ends d ps) : link d (ends d.opp) = none :=
  (chain_append.mp h.there).2.2

/-- **Splicing in** `n` between `A` and `B`, in both directions. -/
theorem insert (h : Laced link ends d (A ++ B)) (hn : n ∉ ends d :: (A ++ B ++ [ends d.opp]))
    (hthere : link' d (lastFrom (ends d) A) = some n)
    (hthere' : link' d n = link d (lastFrom (ends d) A))
    (hback : link' d.opp (lastFrom (ends d.opp) B.reverse) = some n)
    (hback' : link' d.opp n = link d.opp (lastFrom (ends d.opp) B.reverse))
    (hother : ∀ q, q ≠ lastFrom (ends d) A → q ≠ n → link' d q = link d q)
    (hother' : ∀ q, q ≠ lastFrom (ends d.opp) B.reverse → q ≠ n →
      link' d.opp q = link d.opp q) : Laced link' ends d (A ++ n :: B) := by
  obtain ⟨hnd, hc, hcb⟩ := h
  have hflip := (Laced.mk hnd hc hcb).flip.nodup
  simp only [Dir.opp_opp, List.reverse_append, List.append_assoc] at hnd hc hcb hn hflip
  refine ⟨?_, ?_, ?_⟩
  · have hperm : (ends d :: (A ++ n :: B ++ [ends d.opp])).Perm
        (n :: ends d :: (A ++ (B ++ [ends d.opp]))) := by
      rw [List.append_assoc]
      exact (List.perm_middle.cons _).trans (List.Perm.swap _ _ _)
    exact hperm.nodup_iff.mpr (List.nodup_cons.mpr ⟨hn, hnd⟩)
  · rw [List.append_assoc]
    exact hc.insert hnd hn hthere hthere' hother
  · have hn' : n ∉ ends d.opp :: (B.reverse ++ (A.reverse ++ [ends d])) := by
      simp only [List.mem_cons, List.mem_append, List.mem_reverse, List.not_mem_nil,
        or_false] at hn ⊢
      tauto
    simpa using hcb.insert hflip hn' hback hback' hother'

/-- **Cutting out** `n` from between `A` and `B`, in both directions. -/
theorem remove (h : Laced link ends d (A ++ n :: B))
    (hthere : link' d (lastFrom (ends d) A) = link d n)
    (hback : link' d.opp (lastFrom (ends d.opp) B.reverse) = link d.opp n)
    (hother : ∀ q, q ≠ lastFrom (ends d) A → q ≠ n → link' d q = link d q)
    (hother' : ∀ q, q ≠ lastFrom (ends d.opp) B.reverse → q ≠ n →
      link' d.opp q = link d.opp q) : Laced link' ends d (A ++ B) := by
  obtain ⟨hnd, hc, hcb⟩ := h
  have hflip := (Laced.mk hnd hc hcb).flip.nodup
  simp only [Dir.opp_opp, List.reverse_append, List.reverse_cons, List.append_assoc,
    List.cons_append, List.nil_append] at hnd hc hcb hflip
  refine ⟨?_, ?_, ?_⟩
  · rw [List.append_assoc]
    refine hnd.sublist ((List.Sublist.append_left ?_ A).cons_cons _)
    exact List.sublist_cons_self n _
  · rw [List.append_assoc]
    exact hc.remove hnd hthere hother
  · simpa using hcb.remove hflip hback hother'

/-- A pointer of a window before its last one is none of those that delimit it. -/
theorem mid_ne {W : List P} {w : P} (h : Laced link ends d (A ++ (W ++ B))) (hw : w ∈ W.dropLast) :
    w ≠ ends d ∧ w ≠ lastFrom (ends d) W ∧ w ≠ lastFrom (ends d) A ∧
      w ≠ lastFrom (ends d) (A ++ (W ++ B)) := by
  rcases List.eq_nil_or_concat W with rfl | ⟨V, e, rfl⟩
  · exact absurd hw List.not_mem_nil
  · rw [List.concat_eq_append, List.dropLast_concat] at hw
    have hnd : ((ends d :: A) ++ (V ++ (e :: (B ++ [ends d.opp])))).Nodup := by
      simpa using h.nodup
    obtain ⟨-, hrest, hleft⟩ := List.nodup_append.mp hnd
    have hright := (List.nodup_append.mp hrest).2.2 w hw
    have hw' : w ∈ V ++ (e :: (B ++ [ends d.opp])) := List.mem_append_left _ hw
    simp only [List.concat_eq_append, lastFrom_append, lastFrom_cons, lastFrom_nil]
    refine ⟨(hleft _ List.mem_cons_self w hw').symm, hright e List.mem_cons_self,
      (hleft _ (lastFrom_mem _ A) w hw').symm, hright _ ?_⟩
    exact List.mem_append_left [ends d.opp] (lastFrom_mem e B)

/-- **Cutting down** to a window. -/
theorem window {W : List P} (h : Laced link ends d (A ++ (W ++ B))) (hne : W ≠ [])
    (hfirst : link' d (ends d) = W.head?)
    (hlast : link' d (lastFrom (ends d) W) = some (ends d.opp)) (hend : link' d (ends d.opp) = none)
    (hfirst' : link' d.opp (ends d.opp) = W.reverse.head?)
    (hlast' : link' d.opp (lastFrom (ends d.opp) W.reverse) = some (ends d))
    (hend' : link' d.opp (ends d) = none) (hmid : ∀ w ∈ W.dropLast, link' d w = link d w)
    (hmid' : ∀ w ∈ W.tail, link' d.opp w = link d.opp w) : Laced link' ends d W := by
  obtain ⟨hnd, hc, hcb⟩ := h
  simp only [List.reverse_append, List.append_assoc] at hnd hc hcb
  refine ⟨?_, hc.window hne hfirst hlast hend hmid, ?_⟩
  · refine hnd.sublist (List.Sublist.cons_cons _ ?_)
    refine List.Sublist.trans ?_ (List.sublist_append_right A _)
    exact List.Sublist.append_left (List.sublist_append_right B _) W
  · refine hcb.window (by simpa using hne) hfirst' hlast' hend' fun w hw => hmid' w ?_
    rw [List.dropLast_reverse, List.mem_reverse] at hw
    exact hw

end Laced

end LinkedChain
