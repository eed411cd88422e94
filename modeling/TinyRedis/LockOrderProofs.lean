import Mathlib

/-! # Ordered locking

    Any number of clients share locks that are linearly ordered.  A client
    issues batches of acquisitions and releases; to acquire a lock it first
    joins the lock's queue and is granted the lock some time later.  When that
    may happen is a parameter: every notion of which holders exclude each other,
    and every policy, whomever it prefers.

    If clients take locks in ascending order (`Ascends`), then in no reachable
    state is there a set of clients each of which waits for a lock that another
    of them holds, or queues behind another of them (`no_deadlock`). -/

namespace LockOrder

/-- One thing a client does to a lock, in some mode. -/
inductive Event (M P : Type) where
  | acquire (m : M) (p : P)
  | release (m : M) (p : P)

/-- The locks a client holds, what is left of the batch it has issued, and
    whether it has joined the queue of the lock it wants next. -/
structure Client (M P : Type) where
  held : Multiset (M × P)
  todo : List (Event M P)
  queued : Bool

/-- The clients, and the queue of every lock, the first to come first. -/
structure System (ι M P : Type) where
  client : ι → Client M P
  queue : P → List ι

variable {ι M P : Type}

namespace System

section Clients

variable [DecidableEq ι] (s : System ι M P) (i : ι) (c : Client M P)

/-- A client changes. -/
def setClient : System ι M P := { s with client := Function.update s.client i c }

@[simp] theorem setClient_self : (s.setClient i c).client i = c :=
  Function.update_self ..

@[simp] theorem setClient_of_ne {j : ι} (h : j ≠ i) : (s.setClient i c).client j = s.client j :=
  Function.update_of_ne h ..

@[simp] theorem setClient_queue : (s.setClient i c).queue = s.queue := rfl

end Clients

section Queues

variable [DecidableEq P] (s : System ι M P) (p : P) (q : List ι)

/-- A queue changes. -/
def setQueue : System ι M P := { s with queue := Function.update s.queue p q }

@[simp] theorem setQueue_client : (s.setQueue p q).client = s.client := rfl

@[simp] theorem setQueue_self : (s.setQueue p q).queue p = q :=
  Function.update_self ..

@[simp] theorem setQueue_of_ne {p' : P} (h : p' ≠ p) : (s.setQueue p q).queue p' = s.queue p' :=
  Function.update_of_ne h ..

end Queues

end System

variable [DecidableEq M] [LinearOrder P]

/-! ## Batches -/

/-- Every lock that is going to be acquired is above those held by then. -/
def Ascends : Multiset (M × P) → List (Event M P) → Prop
  | _, [] => True
  | held, .acquire m p :: rest => (∀ h ∈ held, h.2 < p) ∧ Ascends ((m, p) ::ₘ held) rest
  | held, .release m p :: rest => Ascends (held.erase (m, p)) rest

/-- What is held when the batch is done; none if it releases a lock that is not
    held. -/
def settle : Multiset (M × P) → List (Event M P) → Option (Multiset (M × P))
  | held, [] => some held
  | held, .acquire m p :: rest => settle ((m, p) ::ₘ held) rest
  | held, .release m p :: rest =>
    if (m, p) ∈ held then settle (held.erase (m, p)) rest else none

theorem settle_append (held : Multiset (M × P)) (a b : List (Event M P)) :
    settle held (a ++ b) = (settle held a).bind fun held => settle held b := by
  induction a generalizing held with
  | nil => rfl
  | cons e a ih =>
    cases e with
    | acquire m p => exact ih _
    | release m p =>
      by_cases h : (m, p) ∈ held
      · simp [settle, h, ih]
      · simp [settle, h]

theorem Ascends.append {held held' : Multiset (M × P)} {a b : List (Event M P)}
    (ha : Ascends held a) (hset : settle held a = some held') (hb : Ascends held' b) :
    Ascends held (a ++ b) := by
  induction a generalizing held with
  | nil =>
    obtain rfl := Option.some.inj hset
    exact hb
  | cons e a ih =>
    cases e with
    | acquire m p => exact ⟨ha.1, ih ha.2 hset⟩
    | release m p =>
      rw [settle, Option.ite_none_right_eq_some] at hset
      exact ih ha hset.2

/-- The locks of `l`, all in mode `m`. -/
def locked (m : M) (l : List P) : Multiset (M × P) := ↑(l.map (Prod.mk m))

omit [DecidableEq M] [LinearOrder P] in
@[simp] theorem locked_nil (m : M) : locked m ([] : List P) = 0 := rfl

omit [DecidableEq M] [LinearOrder P] in
@[simp] theorem locked_cons (m : M) (p : P) (l : List P) :
    locked m (p :: l) = (m, p) ::ₘ locked m l := rfl

/-- A batch that acquires locks in ascending order, above those held. -/
theorem ascends_acquire (m : M) {l : List P} (hl : l.Pairwise (· < ·)) {held : Multiset (M × P)}
    (hheld : ∀ h ∈ held, ∀ p ∈ l, h.2 < p) : Ascends held (l.map (.acquire m)) := by
  induction l generalizing held with
  | nil => trivial
  | cons p l ih =>
    obtain ⟨hp, hl⟩ := List.pairwise_cons.mp hl
    refine ⟨fun h hh => hheld h hh p (by simp), ih hl fun h hh q hq => ?_⟩
    rcases Multiset.mem_cons.mp hh with rfl | hh
    · exact hp q hq
    · exact hheld h hh q (by simp [hq])

theorem settle_acquire (m : M) (l : List P) (held : Multiset (M × P)) :
    settle held (l.map (.acquire m)) = some (held + locked m l) := by
  induction l generalizing held with
  | nil => simp [settle]
  | cons p l ih =>
    rw [List.map_cons, settle, ih, locked_cons, Multiset.cons_add, Multiset.add_cons]

/-- Releasing is always allowed. -/
theorem ascends_release (m : M) (l : List P) (held : Multiset (M × P)) :
    Ascends held (l.map (.release m)) := by
  induction l generalizing held with
  | nil => trivial
  | cons p l ih => exact ih _

/-- Locks that are held can be released, and then the others are held. -/
theorem settle_release (m : M) (l : List P) (held : Multiset (M × P)) :
    settle (held + locked m l) (l.map (.release m)) = some held := by
  induction l with
  | nil => simp [settle]
  | cons p l ih =>
    rw [List.map_cons, locked_cons, Multiset.add_cons, settle,
      if_pos (Multiset.mem_cons_self _ _), Multiset.erase_cons_head, ih]

/-! ## Steps -/

section Steps

variable [DecidableEq ι]

/-- A client's turn at a lock: it joins the queue, is granted the lock it queues
    for when it `may` have it, or releases a lock. -/
inductive Turn (may : System ι M P → ι → M → P → Prop) : System ι M P → System ι M P → Prop where
  | request (s : System ι M P) (i : ι) (m : M) (p : P) (rest : List (Event M P))
      (htodo : (s.client i).todo = .acquire m p :: rest) (hnew : (s.client i).queued = false) :
      Turn may s
        ((s.setClient i { s.client i with queued := true }).setQueue p (s.queue p ++ [i]))
  | grant (s : System ι M P) (i : ι) (m : M) (p : P) (rest : List (Event M P))
      (htodo : (s.client i).todo = .acquire m p :: rest) (hqueued : (s.client i).queued = true)
      (hmay : may s i m p) :
      Turn may s ((s.setClient i ⟨(m, p) ::ₘ (s.client i).held, rest, false⟩).setQueue p
        ((s.queue p).erase i))
  | release (s : System ι M P) (i : ι) (m : M) (p : P) (rest : List (Event M P))
      (htodo : (s.client i).todo = .release m p :: rest) :
      Turn may s (s.setClient i ⟨(s.client i).held.erase (m, p), rest, false⟩)

/-- What can happen: a client that is done issues a batch, or has its turn. -/
inductive Step (may : System ι M P → ι → M → P → Prop) : System ι M P → System ι M P → Prop where
  | issue (s : System ι M P) (i : ι) (batch : List (Event M P))
      (hdone : (s.client i).todo = []) (hasc : Ascends (s.client i).held batch) :
      Step may s (s.setClient i ⟨(s.client i).held, batch, false⟩)
  | turn {s t : System ι M P} (h : Turn may s t) : Step may s t

variable {may : System ι M P → ι → M → P → Prop} {s t : System ι M P}

/-- A turn does not change what a client will hold in the end. -/
theorem Turn.settle_eq (hturn : Turn may s t) (i : ι) {held : Multiset (M × P)}
    (h : settle (s.client i).held (s.client i).todo = some held) :
    settle (t.client i).held (t.client i).todo = some held := by
  cases hturn with
  | request j m p rest htodo hnew =>
    by_cases hi : i = j
    · subst hi
      simpa using h
    · simpa [hi] using h
  | grant j m p rest htodo hqueued hmay =>
    by_cases hi : i = j
    · subst hi
      rw [htodo, settle] at h
      simpa using h
    · simpa [hi] using h
  | release j m p rest htodo =>
    by_cases hi : i = j
    · subst hi
      rw [htodo, settle] at h
      split at h
      · simpa using h
      · cases h
    · simpa [hi] using h

end Steps

/-- Nobody holds or wants anything. -/
def System.Idle (s : System ι M P) : Prop :=
  (∀ i, s.client i = ⟨0, [], false⟩) ∧ ∀ p, s.queue p = []

/-! ## The invariant -/

/-- The client has joined the queue of `p`. -/
def WaitsAt (s : System ι M P) (i : ι) (p : P) : Prop :=
  (s.client i).queued = true ∧ ∃ m rest, (s.client i).todo = .acquire m p :: rest

/-- Every client ascends, and the queues list the clients that wait. -/
structure Inv (s : System ι M P) : Prop where
  ascends : ∀ i, Ascends (s.client i).held (s.client i).todo
  waits : ∀ i p, i ∈ s.queue p ↔ WaitsAt s i p
  nodup : ∀ p, (s.queue p).Nodup

omit [DecidableEq M] [LinearOrder P] in
theorem WaitsAt.unique {s : System ι M P} {i : ι} {p p' : P} (h : WaitsAt s i p)
    (h' : WaitsAt s i p') : p = p' := by
  obtain ⟨-, m, rest, htodo⟩ := h
  obtain ⟨-, m', rest', htodo'⟩ := h'
  rw [htodo] at htodo'
  injection htodo' with hhead
  injection hhead

/-- A client that waits holds only locks below the one it waits for. -/
theorem Inv.held_lt {s : System ι M P} (h : Inv s) {i : ι} {p : P} (hw : WaitsAt s i p) {m : M}
    {p' : P} (hheld : (m, p') ∈ (s.client i).held) : p' < p := by
  obtain ⟨-, m', rest, htodo⟩ := hw
  have hasc := h.ascends i
  rw [htodo] at hasc
  exact hasc.1 _ hheld

theorem Inv.of_idle {s : System ι M P} (h : s.Idle) : Inv s where
  ascends i := by
    rw [h.1 i]
    trivial
  waits i p := by
    rw [h.2 p]
    simp [WaitsAt, h.1 i]
  nodup p := by
    rw [h.2 p]
    exact List.nodup_nil

section Steps

variable [DecidableEq ι]

/-- A client that is not queued, before or after, may change as it likes. -/
theorem Inv.setClient {s : System ι M P} (h : Inv s) {i : ι} {held : Multiset (M × P)}
    {todo : List (Event M P)} (hfree : ∀ p, ¬ WaitsAt s i p) (hasc : Ascends held todo) :
    Inv (s.setClient i ⟨held, todo, false⟩) where
  ascends j := by
    by_cases hj : j = i
    · subst hj
      simpa using hasc
    · simpa [hj] using h.ascends j
  waits j p := by
    by_cases hj : j = i
    · subst hj
      have hnot : j ∉ s.queue p := fun hmem => hfree p ((h.waits j p).mp hmem)
      simpa [WaitsAt] using hnot
    · simpa [WaitsAt, hj] using h.waits j p
  nodup p := h.nodup p

variable {may : System ι M P → ι → M → P → Prop} {s t : System ι M P}

theorem Inv.turn (h : Inv s) (hturn : Turn may s t) : Inv t := by
  cases hturn with
  | release i m p rest htodo =>
    have hasc := h.ascends i
    rw [htodo] at hasc
    refine h.setClient (fun p' hw => ?_) hasc
    obtain ⟨-, m', rest', htodo'⟩ := hw
    simp [htodo] at htodo'
  | request i m p rest htodo hnew =>
    have hout : ∀ p', i ∉ s.queue p' := fun p' hmem => by
      simpa [hnew] using ((h.waits i p').mp hmem).1
    refine ⟨fun j => ?_, fun j p' => ?_, fun p' => ?_⟩
    · by_cases hj : j = i
      · subst hj
        simpa using h.ascends j
      · simpa [hj] using h.ascends j
    · by_cases hj : j = i
      · subst hj
        by_cases hp : p' = p
        · subst hp
          simp [WaitsAt, htodo]
        · simp [WaitsAt, hp, htodo, hout, Ne.symm hp]
      · by_cases hp : p' = p
        · subst hp
          simpa [WaitsAt, hj] using h.waits j p'
        · simpa [WaitsAt, hj, hp] using h.waits j p'
    · by_cases hp : p' = p
      · subst hp
        simpa [List.nodup_append, h.nodup p'] using
          fun j hj => ne_of_mem_of_not_mem hj (hout p')
      · simpa [hp] using h.nodup p'
  | grant i m p rest htodo hqueued hmay =>
    have hwait : WaitsAt s i p := ⟨hqueued, m, rest, htodo⟩
    have hasc := h.ascends i
    rw [htodo] at hasc
    refine ⟨fun j => ?_, fun j p' => ?_, fun p' => ?_⟩
    · by_cases hj : j = i
      · subst hj
        simpa using hasc.2
      · simpa [hj] using h.ascends j
    · by_cases hj : j = i
      · subst hj
        by_cases hp : p' = p
        · subst hp
          simpa [WaitsAt] using (h.nodup p').not_mem_erase
        · have hout : j ∉ s.queue p' := fun hmem => hp (((h.waits j p').mp hmem).unique hwait)
          simpa [WaitsAt, hp] using hout
      · by_cases hp : p' = p
        · subst hp
          simpa [WaitsAt, hj, List.mem_erase_of_ne hj] using
            h.waits j p'
        · simpa [WaitsAt, hj, hp] using h.waits j p'
    · by_cases hp : p' = p
      · subst hp
        simpa using (h.nodup p').erase i
      · simpa [hp] using h.nodup p'

/-- **One step** keeps the invariant. -/
theorem Inv.step (h : Inv s) (hstep : Step may s t) : Inv t := by
  cases hstep with
  | issue i batch hdone hasc =>
    refine h.setClient (fun p hw => ?_) hasc
    obtain ⟨-, m, rest, htodo⟩ := hw
    simp [hdone] at htodo
  | turn hturn => exact h.turn hturn

/-- **Every run** from an idle system keeps it. -/
theorem Inv.of_reachable (hs : s.Idle) (h : Relation.ReflTransGen (Step may) s t) : Inv t := by
  induction h with
  | refl => exact Inv.of_idle hs
  | tail _ hstep ih => exact ih.step hstep

end Steps

/-! ## Deadlock -/

/-- `i` waits for a lock that `j` holds, or queues behind `j`. -/
def WaitsFor (s : System ι M P) (i j : ι) : Prop :=
  ∃ p, WaitsAt s i p ∧
    ((∃ m, (m, p) ∈ (s.client j).held) ∨ ∃ l₁ l₂, s.queue p = l₁ ++ i :: l₂ ∧ j ∈ l₁)

/-- Each client of the set waits for another one of the set. -/
def Deadlocked (s : System ι M P) (C : Set ι) : Prop :=
  C.Nonempty ∧ ∀ i ∈ C, ∃ j ∈ C, j ≠ i ∧ WaitsFor s i j

/-- The first client of a set in a queue. -/
theorem exists_first {C : Set ι} {l : List ι} (h : ∃ i ∈ l, i ∈ C) :
    ∃ l₁ i l₂, l = l₁ ++ i :: l₂ ∧ i ∈ C ∧ ∀ j ∈ l₁, j ∉ C := by
  induction l with
  | nil => simp at h
  | cons a l ih =>
    by_cases ha : a ∈ C
    · exact ⟨[], a, l, rfl, ha, by simp⟩
    · obtain ⟨l₁, i, l₂, rfl, hi, hl₁⟩ := ih (by simpa [ha] using h)
      refine ⟨a :: l₁, i, l₂, rfl, hi, fun j hj => ?_⟩
      rcases List.mem_cons.mp hj with rfl | hj
      · exact ha
      · exact hl₁ j hj

/-- **Ordered locking is free of deadlock.** -/
theorem Inv.no_deadlock [WellFoundedGT P] {s : System ι M P} (h : Inv s) (C : Set ι) :
    ¬ Deadlocked s C := by
  rintro ⟨⟨i₀, hi₀⟩, hC⟩
  -- the highest lock that a client of the set waits for, and the first of them in its queue
  let S : Set P := {p | ∃ i ∈ C, WaitsAt s i p}
  have hS : S.Nonempty := by
    obtain ⟨-, -, -, p, hw, -⟩ := hC i₀ hi₀
    exact ⟨p, i₀, hi₀, hw⟩
  obtain ⟨p, ⟨i, hi, hw⟩, hmax⟩ := WellFounded.has_min (wellFounded_gt (α := P)) S hS
  obtain ⟨l₁, a, l₂, hqueue, ha, hfirst⟩ := exists_first ⟨i, (h.waits i p).mpr hw, hi⟩
  have hwa : WaitsAt s a p := (h.waits a p).mp (by simp [hqueue])
  obtain ⟨j, hj, -, p', hw', hfor⟩ := hC a ha
  obtain rfl : p' = p := hw'.unique hwa
  rcases hfor with ⟨m, hheld⟩ | ⟨k₁, k₂, hqueue', hjk⟩
  · -- whoever holds the lock waits for a higher one
    obtain ⟨-, -, -, q, hwj, -⟩ := hC j hj
    exact hmax q ⟨j, hj, hwj⟩ (h.held_lt hwj hheld)
  · -- nobody of the set is ahead in the queue
    have hnodup : (l₁ ++ a :: l₂).Nodup := hqueue ▸ h.nodup p'
    have hout : a ∉ l₁ ∧ a ∉ l₂ := by
      have := List.nodup_middle.mp hnodup
      simpa using (List.nodup_cons.mp this).1
    obtain ⟨rfl, -, -⟩ := (List.append_cons_inj_of_notMem hout.1 hout.2).mp (hqueue ▸ hqueue')
    exact hfirst j hjk hj

end LockOrder
