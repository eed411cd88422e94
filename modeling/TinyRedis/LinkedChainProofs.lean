import Mathlib

/-! # Linked chains

    Pointers with a successor, as a program meets them: `Chain next p l` says
    that following `next` from `p` visits `l` and then ends.  Splicing a
    pointer in, cutting one out, and a loop that walks along a chain while a
    condition holds are specified once here, for any pointers and any
    successor. -/

namespace LinkedChain

variable {P A : Type} {next next' : P → Option P} {l r : List P}

/-- Following `next` from `p` visits `l`, and there is nothing behind. -/
def Chain (next : P → Option P) : P → List P → Prop
  | p, [] => next p = none
  | p, q :: l => next p = some q ∧ Chain next q l

/-- Following `next` from `p` visits `l`, whatever is behind. -/
def Path (next : P → Option P) : P → List P → Prop
  | _, [] => True
  | p, q :: l => next p = some q ∧ Path next q l

/-- Where a path from `p` along `l` ends. -/
def lastFrom (p : P) (l : List P) : P := l.getLastD p

@[simp] theorem lastFrom_nil (p : P) : lastFrom p [] = p := rfl

@[simp] theorem lastFrom_cons (p q : P) (l : List P) : lastFrom p (q :: l) = lastFrom q l := by
  cases l with
  | nil => rfl
  | cons r l =>
    show ((q :: r :: l).getLast?).getD p = ((r :: l).getLast?).getD q
    rw [List.getLast?_cons_cons, List.getLast?_eq_some_getLast (List.cons_ne_nil r l)]
    rfl

theorem lastFrom_mem (p : P) (l : List P) : lastFrom p l ∈ p :: l := by
  induction l generalizing p with
  | nil => exact List.mem_cons_self
  | cons q l ih =>
    rw [lastFrom_cons]
    exact List.mem_cons_of_mem p (ih q)

theorem lastFrom_append (p : P) (l r : List P) :
    lastFrom p (l ++ r) = lastFrom (lastFrom p l) r := by
  induction l generalizing p with
  | nil => rfl
  | cons q l ih =>
    rw [List.cons_append, lastFrom_cons, lastFrom_cons]
    exact ih q

/-- Behind a pointer it does not matter where a path has come from. -/
theorem lastFrom_eq (p q : P) {l : List P} (hne : l ≠ []) : lastFrom p l = lastFrom q l := by
  obtain ⟨r, l, rfl⟩ := List.exists_cons_of_ne_nil hne
  rw [lastFrom_cons, lastFrom_cons]

theorem lastFrom_mem_self (p : P) {l : List P} (hne : l ≠ []) : lastFrom p l ∈ l := by
  obtain ⟨r, l, rfl⟩ := List.exists_cons_of_ne_nil hne
  rw [lastFrom_cons]
  exact lastFrom_mem r l

/-- A chain splits anywhere. -/
theorem chain_append {p : P} :
    Chain next p (l ++ r) ↔ Path next p l ∧ Chain next (lastFrom p l) r := by
  induction l generalizing p with
  | nil => exact ⟨fun h => ⟨trivial, h⟩, fun h => h.2⟩
  | cons q l ih =>
    show next p = some q ∧ Chain next q (l ++ r) ↔
      (next p = some q ∧ Path next q l) ∧ Chain next (lastFrom p (q :: l)) r
    rw [ih, lastFrom_cons, and_assoc]

/-- Behind the first part of a chain comes the second. -/
theorem Chain.next_lastFrom {p : P} (h : Chain next p (l ++ r)) :
    next (lastFrom p l) = r.head? := by
  have hr := (chain_append.mp h).2
  cases r with
  | nil => exact hr
  | cons q r => exact hr.1

/-- Behind a pointer of a chain comes what follows it. -/
theorem Chain.next_mid {p c : P} (h : Chain next p (l ++ c :: r)) :
    next c = r.head? := by
  have hsplit : Chain next p ((l ++ [c]) ++ r) := by
    rw [List.append_assoc]
    exact h
  have hnext := hsplit.next_lastFrom
  rwa [lastFrom_append, lastFrom_cons, lastFrom_nil] at hnext

/-- What a chain links: two pointers of the first part, the two that meet where
    the parts do, or two of the second. -/
theorem Chain.next_cases {p u v : P} (h : Chain next p (l ++ r)) (hu : u ∈ p :: (l ++ r))
    (hv : next u = some v) :
    (u ∈ p :: l ∧ v ∈ l) ∨ (u = lastFrom p l ∧ r.head? = some v) ∨ (u ∈ r ∧ v ∈ r) := by
  induction l generalizing p with
  | nil =>
    rcases List.mem_cons.mp hu with rfl | hu
    · exact .inr (.inl ⟨rfl, (h.next_lastFrom (l := [])).symm.trans hv⟩)
    · refine .inr (.inr ⟨hu, ?_⟩)
      obtain ⟨r1, r2, rfl⟩ := List.append_of_mem hu
      have hnext : r2.head? = some v := h.next_mid.symm.trans hv
      exact List.mem_append_right r1 (List.mem_cons_of_mem u (List.mem_of_head? hnext))
  | cons q l ih =>
    rcases List.mem_cons.mp hu with rfl | hu
    · have hq : v = q := Option.some.inj (hv.symm.trans h.1)
      exact .inl ⟨List.mem_cons_self, hq ▸ List.mem_cons_self⟩
    · rw [lastFrom_cons]
      rcases ih h.2 hu with ⟨h1, h2⟩ | hmid | hright
      · exact .inl ⟨List.mem_cons_of_mem p h1, List.mem_cons_of_mem q h2⟩
      · exact .inr (.inl hmid)
      · exact .inr (.inr hright)

/-- A successor along a chain is on it. -/
theorem Chain.next_mem {p u v : P} (h : Chain next p l) (hu : u ∈ p :: l) (hv : next u = some v) :
    v ∈ l := by
  have hsplit : Chain next p ([] ++ l) := h
  rcases hsplit.next_cases hu hv with ⟨_, h2⟩ | ⟨_, hhead⟩ | ⟨_, h2⟩
  · exact absurd h2 List.not_mem_nil
  · exact List.mem_of_head? hhead
  · exact h2

/-- From any pointer of a chain on, the rest of it is a chain. -/
theorem Chain.rest_of_mem {p u : P} (h : Chain next p l) (hu : u ∈ p :: l) :
    ∃ r, Chain next u r ∧ r.Sublist l := by
  induction l generalizing p with
  | nil =>
    obtain rfl := List.mem_singleton.mp hu
    exact ⟨[], h, List.Sublist.refl _⟩
  | cons q l ih =>
    rcases List.mem_cons.mp hu with rfl | hu
    · exact ⟨q :: l, h, List.Sublist.refl _⟩
    · obtain ⟨r, hr, hsub⟩ := ih h.2 hu
      exact ⟨r, hr, hsub.cons q⟩

/-- A chain ends at its last pointer only. -/
theorem Chain.eq_lastFrom {p u : P} (h : Chain next p l) (hu : u ∈ p :: l) (hnone : next u = none) :
    u = lastFrom p l := by
  induction l generalizing p with
  | nil => exact List.mem_singleton.mp hu
  | cons q l ih =>
    rw [lastFrom_cons]
    rcases List.mem_cons.mp hu with rfl | hu
    · exact absurd (hnone.symm.trans h.1) (by simp)
    · exact ih h.2 hu

/-- A successor changed off the path leaves the path. -/
theorem Path.congr {p : P} (h : Path next p l) (heq : ∀ q ∈ (p :: l).dropLast, next' q = next q) :
    Path next' p l := by
  induction l generalizing p with
  | nil => trivial
  | cons q l ih =>
    refine ⟨(heq p ?_).trans h.1, ih h.2 fun r hr => heq r ?_⟩
    · exact List.mem_cons_self
    · exact List.mem_cons_of_mem p hr

/-- A successor changed off the chain leaves the chain. -/
theorem Chain.congr {p : P} (h : Chain next p l) (heq : ∀ q ∈ p :: l, next' q = next q) :
    Chain next' p l := by
  induction l generalizing p with
  | nil => exact (heq p List.mem_cons_self).trans h
  | cons q l ih =>
    exact ⟨(heq p List.mem_cons_self).trans h.1,
      ih h.2 fun r hr => heq r (List.mem_cons_of_mem p hr)⟩

/-- The part before the end of a path, when no pointer is visited twice. -/
theorem ne_lastFrom_of_mem_dropLast {p : P} (hnd : (p :: l).Nodup) {q : P}
    (hq : q ∈ (p :: l).dropLast) : q ≠ lastFrom p l := by
  induction l generalizing p with
  | nil => exact absurd hq List.not_mem_nil
  | cons r l ih =>
    obtain ⟨hnot, hrest⟩ := List.nodup_cons.mp hnd
    rw [lastFrom_cons]
    rcases List.mem_cons.mp (show q ∈ p :: (r :: l).dropLast from hq) with rfl | hq
    · exact fun e => hnot (e ▸ lastFrom_mem r l)
    · exact ih hrest hq

/-- **Splicing in**: the end of the first part points to `n`, and `n` to what
    was behind. -/
theorem Chain.insert {p n : P} (h : Chain next p (l ++ r)) (hnd : (p :: (l ++ r)).Nodup)
    (hn : n ∉ p :: (l ++ r)) (hlast : next' (lastFrom p l) = some n)
    (hnew : next' n = next (lastFrom p l))
    (hother : ∀ q, q ≠ lastFrom p l → q ≠ n → next' q = next q) :
    Chain next' p (l ++ n :: r) := by
  obtain ⟨hpath, hrest⟩ := chain_append.mp h
  have hmem : ∀ q ∈ (p :: l).dropLast, q ∈ p :: (l ++ r) := fun q hq =>
    List.mem_append_left r (List.mem_of_mem_dropLast hq)
  have hndl : (p :: l).Nodup := (List.nodup_append.mp (List.cons_append ▸ hnd)).1
  refine chain_append.mpr ⟨hpath.congr fun q hq => ?_, hlast, ?_⟩
  · refine hother q (ne_lastFrom_of_mem_dropLast hndl hq) fun e => hn (e ▸ hmem q hq)
  · cases r with
    | nil => exact hnew.trans hrest
    | cons q r =>
      refine ⟨hnew.trans hrest.1, hrest.2.congr fun u hu => hother u ?_ ?_⟩
      · have hdisj := (List.nodup_append.mp (show ((p :: l) ++ (q :: r)).Nodup from hnd)).2.2
        exact (hdisj _ (lastFrom_mem p l) u hu).symm
      · exact fun e => hn (e ▸ List.mem_append_right (p :: l) hu)

/-- **Cutting out**: the end of the first part points to what is behind `n`. -/
theorem Chain.remove {p n : P} (h : Chain next p (l ++ n :: r)) (hnd : (p :: (l ++ n :: r)).Nodup)
    (hlast : next' (lastFrom p l) = next n)
    (hother : ∀ q, q ≠ lastFrom p l → q ≠ n → next' q = next q) : Chain next' p (l ++ r) := by
  obtain ⟨hpath, _, hrest⟩ := chain_append.mp h
  have hnd' : ((p :: l) ++ (n :: r)).Nodup := hnd
  obtain ⟨hndl, hndr, hdisj⟩ := List.nodup_append.mp hnd'
  refine chain_append.mpr ⟨hpath.congr fun q hq => ?_, ?_⟩
  · exact hother q (ne_lastFrom_of_mem_dropLast hndl hq)
      (hdisj q (List.mem_of_mem_dropLast hq) n List.mem_cons_self)
  · cases r with
    | nil => exact hlast.trans hrest
    | cons q r =>
      refine ⟨hlast.trans hrest.1, hrest.2.congr fun u hu => hother u ?_ ?_⟩
      · exact (hdisj _ (lastFrom_mem p l) u (List.mem_cons_of_mem n hu)).symm
      · exact fun e => (List.nodup_cons.mp hndr).1 (e ▸ hu)

/-- **Cutting a window out**: a start that points to the first of `W`, whose end
    points to `t`, where the chain now ends. -/
theorem Chain.window {p q t : P} {A W C : List P} (h : Chain next p (A ++ (W ++ C))) (hne : W ≠ [])
    (hfirst : next' q = W.head?) (hlast : next' (lastFrom q W) = some t) (ht : next' t = none)
    (hmid : ∀ w ∈ W.dropLast, next' w = next w) : Chain next' q (W ++ [t]) := by
  obtain ⟨w, W, rfl⟩ := List.exists_cons_of_ne_nil hne
  have hpath : Path next w W := (chain_append.mp (chain_append.mp h).2.2).1
  exact chain_append.mpr ⟨⟨hfirst, hpath.congr hmid⟩, hlast, ht⟩

/-! ## Successors that do not go round -/

/-- Every step of `next` goes down some measure. -/
def Ranked (next : P → Option P) : Prop :=
  ∃ rank : P → Nat, ∀ p q, next p = some q → rank q < rank p

/-- Splicing a new pointer `n` in behind `u`: the measure of `n` goes between
    that of `u` and that of what was behind it. -/
theorem Ranked.insert [DecidableEq P] {next next' : P → Option P} {u n : P} (h : Ranked next)
    (hn : ∀ p, next p ≠ some n) (hun : u ≠ n) (hlast : next' u = some n) (hnew : next' n = next u)
    (hother : ∀ q, q ≠ u → q ≠ n → next' q = next q) :
    Ranked next' := by
  obtain ⟨rank, hrank⟩ := h
  refine ⟨fun p => if p = n then 2 * rank u + 1 else 2 * rank p + 2, fun p q hpq => ?_⟩
  by_cases hp : p = n
  · rw [hp, hnew] at hpq
    have hq : q ≠ n := fun e => hn u (e ▸ hpq)
    have hlt := hrank u q hpq
    simp only [if_pos hp, if_neg hq]
    omega
  · by_cases hpu : p = u
    · rw [hpu, hlast] at hpq
      have hq : q = n := (Option.some.inj hpq).symm
      simp only [hpu, if_neg hun, if_pos hq]
      omega
    · rw [hother p hpu hp] at hpq
      have hq : q ≠ n := fun e => hn p (e ▸ hpq)
      have hlt := hrank p q hpq
      simp only [if_neg hp, if_neg hq]
      omega

/-- Passing over the pointer behind `u`. -/
theorem Ranked.bypass {u c : P} (h : Ranked next) (hc : next u = some c) (hlast : next' u = next c)
    (hother : ∀ q, q ≠ u → next' q = next q) :
    Ranked next' := by
  obtain ⟨rank, hrank⟩ := h
  refine ⟨rank, fun p q hpq => ?_⟩
  by_cases hp : p = u
  · rw [hp, hlast] at hpq
    rw [hp]
    exact lt_trans (hrank c q hpq) (hrank u c hc)
  · rw [hother p hp] at hpq
    exact hrank p q hpq

/-- A chain starts everywhere, and visits nothing twice. -/
theorem Ranked.chain (h : Ranked next) (p : P) :
    ∃ l, Chain next p l ∧ l.Nodup := by
  obtain ⟨rank, hrank⟩ := h
  suffices hall : ∀ k p, rank p ≤ k →
      ∃ l, Chain next p l ∧ l.Nodup ∧ ∀ q ∈ l, rank q < rank p by
    obtain ⟨l, hl, hnd, -⟩ := hall (rank p) p le_rfl
    exact ⟨l, hl, hnd⟩
  intro k
  induction k with
  | zero =>
    intro p hp
    cases hnext : next p with
    | none => exact ⟨[], hnext, List.nodup_nil, by simp⟩
    | some q => exact absurd (hrank p q hnext) (by omega)
  | succ k ih =>
    intro p hp
    cases hnext : next p with
    | none => exact ⟨[], hnext, List.nodup_nil, by simp⟩
    | some q =>
      have hlt := hrank p q hnext
      obtain ⟨l, hl, hnd, hdown⟩ := ih q (by omega)
      refine ⟨q :: l, ⟨hnext, hl⟩, List.nodup_cons.mpr ⟨fun hq => ?_, hnd⟩, fun r hr => ?_⟩
      · exact lt_irrefl _ (hdown q hq)
      · rcases List.mem_cons.mp hr with rfl | hr
        · exact hlt
        · exact lt_trans (hdown r hr) hlt

/-- What `next` points to is what a chain visits. -/
theorem Chain.forall_mem {I : P → Prop} (hI : ∀ p q, next p = some q → I q) {p : P} {l : List P}
    (h : Chain next p l) :
    ∀ q ∈ l, I q := by
  induction l generalizing p with
  | nil => exact fun q hq => absurd hq List.not_mem_nil
  | cons r l ih =>
    intro q hq
    rcases List.mem_cons.mp hq with rfl | hq
    · exact hI p q h.1
    · exact ih h.2 q hq

/-- Among finitely many pointers, a chain ends after as many steps at most. -/
theorem Ranked.chain_length {next : Nat → Option Nat} {n : Nat} (h : Ranked next)
    (hn : ∀ p q, next p = some q → q < n) (p : Nat) : ∃ l, Chain next p l ∧ l.length ≤ n := by
  obtain ⟨l, hl, hnd⟩ := h.chain p
  have hsub : l ⊆ List.range n := fun q hq => List.mem_range.mpr (hl.forall_mem hn q hq)
  exact ⟨l, hl, by simpa using (List.subperm_of_subset hnd hsub).length_le⟩

/-! ## Walking -/

/-- The loop `for next(p) != nil && adv(next(p), a')`, where `a'` is what the
    step would make of the accumulator; `fuel` bounds its rounds. -/
def walk (next : P → Option P) (acc : P → A → A) (adv : P → A → Bool) :
    Nat → P → A → P × A
  | 0, p, a => (p, a)
  | fuel + 1, p, a =>
    match next p with
    | none => (p, a)
    | some q => if adv q (acc p a) then walk next acc adv fuel q (acc p a) else (p, a)

/-- A walk stays among pointers that are closed under `next`. -/
theorem walk_closed {acc : P → A → A} {adv : P → A → Bool} {I : P → Prop}
    (hI : ∀ p q, I p → next p = some q → I q) (fuel : Nat) {p : P} (hp : I p) (a : A) :
    I (walk next acc adv fuel p a).1 := by
  induction fuel generalizing p a with
  | zero => exact hp
  | succ fuel ih =>
    rw [walk]
    cases hnext : next p with
    | none => exact hp
    | some q =>
      by_cases hadv : adv q (acc p a) = true
      · simp only [if_pos hadv]
        exact ih (hI p q hp hnext) _
      · simp only [if_neg hadv]
        exact hp

/-- **THE WALK RULE**: along a chain whose first part `D` lets the loop
    advance and whose second part `B` stops it, the walk ends at the end of
    `D`, and an invariant `I` of pointer and accumulator that every step keeps
    holds there.  Rounds for `D` are enough. -/
theorem walk_spec {acc : P → A → A} {adv : P → A → Bool} {I : P → A → Prop} {D B : List P} :
    ∀ {fuel : Nat} {p : P} {a : A}, Chain next p (D ++ B) → I p a → D.length ≤ fuel →
      (∀ u v a, u ∈ p :: D → next u = some v → I u a → I v (acc u a)) →
      (∀ q ∈ D, ∀ a, I q a → adv q a = true) →
      (∀ q, B.head? = some q → ∀ a, I q a → adv q a = false) →
      (walk next acc adv fuel p a).1 = lastFrom p D ∧
        I (lastFrom p D) (walk next acc adv fuel p a).2 := by
  induction D with
  | nil =>
    intro fuel p a hc hI _ hstep _ hstop
    have hstay : walk next acc adv fuel p a = (p, a) := by
      cases fuel with
      | zero => rfl
      | succ fuel =>
        cases B with
        | nil =>
          have hp : next p = none := hc
          rw [walk, hp]
        | cons q B =>
          have hp : next p = some q := hc.1
          have hno := hstop q rfl _ (hstep p q a List.mem_cons_self hp hI)
          rw [walk, hp]
          exact if_neg (by rw [hno]; exact Bool.false_ne_true)
    rw [hstay]
    exact ⟨rfl, hI⟩
  | cons q D ih =>
    intro fuel p a hc hI hf hstep hadv hstop
    cases fuel with
    | zero => exact absurd hf (Nat.not_succ_le_zero _)
    | succ fuel =>
      have hp : next p = some q := hc.1
      have hIq := hstep p q a List.mem_cons_self hp hI
      have hgo : walk next acc adv (fuel + 1) p a = walk next acc adv fuel q (acc p a) := by
        rw [walk, hp]
        exact if_pos (hadv q List.mem_cons_self _ hIq)
      rw [hgo, lastFrom_cons]
      exact ih hc.2 hIq (Nat.le_of_succ_le_succ hf)
        (fun u v a hu => hstep u v a (List.mem_cons_of_mem p hu))
        (fun r hr => hadv r (List.mem_cons_of_mem q hr)) hstop

end LinkedChain
