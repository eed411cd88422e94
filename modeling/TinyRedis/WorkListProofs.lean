import Mathlib

/-! # Work lists

    A queue of items is worked off: an item whose key has been seen is passed over,
    any other is asked, and a miss may name one more item, which goes to the front
    of the queue unless its key has been seen.

    When the answers go by the keys, this is a search of the graph that the hints of
    the missing keys make.  No key is asked twice; the queue may grow with every
    question, but only as often as there are keys that have not been seen; and when
    it is exhausted, what has been seen is closed under the hints. -/

namespace WorkList

variable {α κ β ε : Type}

/-- An answer: an end to the search, or a miss with an error and maybe an item to ask
    next, given with its key. -/
inductive Answer (α κ β ε : Type) where
  | stop (b : β)
  | miss (next : Option (α × κ)) (err : ε)

/-- How a search ends: by an answer, with the last error, or not yet. -/
inductive End (β ε : Type) where
  | stopped (b : β)
  | exhausted (last : Option ε)
  | running

section Loop

variable [DecidableEq κ] (key : α → Option κ) (ask : α → Answer α κ β ε)

/-- The queue after a miss. -/
def pushNew (seen : List κ) (next : Option (α × κ)) (queue : List α) : List α :=
  match next with
  | none => queue
  | some (b, j) => if j ∈ seen then queue else b :: queue

/-- The loop for at most so many turns: the items asked, and the end.  An item
    without a key is passed over. -/
def loop : Nat → List α → List κ → Option ε → List α × End β ε
  | _, [], _, last => ([], .exhausted last)
  | 0, _ :: _, _, _ => ([], .running)
  | fuel + 1, a :: queue, seen, last =>
    match key a with
    | none => loop fuel queue seen last
    | some k =>
      if k ∈ seen then loop fuel queue seen last
      else
        match ask a with
        | .stop b => ([a], .stopped b)
        | .miss next err =>
          let rest := loop fuel (pushNew (k :: seen) next queue) (k :: seen) (some err)
          (a :: rest.1, rest.2)

variable {key ask}

/-- **Induction over the turns**: what holds at the end, and is kept by passing over,
    by stopping and by a miss, holds of the loop. -/
theorem loop_induct {P : Nat → List α → List κ → Option ε → List α × End β ε → Prop}
    (nil : ∀ fuel seen last, P fuel [] seen last ([], .exhausted last))
    (out : ∀ a queue seen last, P 0 (a :: queue) seen last ([], .running))
    (skip : ∀ fuel a queue seen last r, (∀ k, key a = some k → k ∈ seen) →
      P fuel queue seen last r → P (fuel + 1) (a :: queue) seen last r)
    (stop : ∀ fuel a queue seen last k b, key a = some k → k ∉ seen → ask a = .stop b →
      P (fuel + 1) (a :: queue) seen last ([a], .stopped b))
    (miss : ∀ fuel a queue seen last k next err r, key a = some k → k ∉ seen →
      ask a = .miss next err → P fuel (pushNew (k :: seen) next queue) (k :: seen) (some err) r →
      P (fuel + 1) (a :: queue) seen last (a :: r.1, r.2)) (fuel : Nat) (queue : List α)
    (seen : List κ) (last : Option ε) :
    P fuel queue seen last (loop key ask fuel queue seen last) := by
  induction fuel generalizing queue seen last with
  | zero =>
    cases queue with
    | nil => exact nil 0 seen last
    | cons a queue => exact out a queue seen last
  | succ fuel ih =>
    cases queue with
    | nil => exact nil (fuel + 1) seen last
    | cons a queue =>
      rw [loop]
      cases hkey : key a with
      | none => exact skip fuel a queue seen last _ (by simp [hkey]) (ih queue seen last)
      | some k =>
        dsimp only
        by_cases hseen : k ∈ seen
        · rw [if_pos hseen]
          refine skip fuel a queue seen last _ (fun j hj => ?_) (ih queue seen last)
          rw [hkey] at hj
          exact Option.some.inj hj ▸ hseen
        · rw [if_neg hseen]
          cases hask : ask a with
          | stop b => exact stop fuel a queue seen last k b hkey hseen hask
          | miss next err =>
            exact miss fuel a queue seen last k next err _ hkey hseen hask (ih _ _ _)

end Loop

/-! ## The graph of the hints -/

section Graph

variable {accepts : κ → Prop} {step : κ → Option κ} {start start' : κ → Prop} {k : κ}

/-- The keys that are reached by following the hints of those that do not accept. -/
inductive Reach (accepts : κ → Prop) (step : κ → Option κ) (start : κ → Prop) : κ → Prop
  | start {k : κ} (h : start k) : Reach accepts step start k
  | hint {k j : κ} (h : Reach accepts step start k) (hk : ¬ accepts k) (hj : step k = some j) :
      Reach accepts step start j

theorem Reach.trans (h : Reach accepts step start' k)
    (hstart : ∀ j, start' j → Reach accepts step start j) : Reach accepts step start k := by
  induction h with
  | start h => exact hstart _ h
  | hint _ hk hj ih => exact ih.hint hk hj

/-- What holds at the start and is closed under the hints holds of all that is
    reached. -/
theorem Reach.of_closed (h : Reach accepts step start k) {P : κ → Prop}
    (hstart : ∀ j, start j → P j) (hclosed : ∀ k j, P k → step k = some j → P j) : P k := by
  induction h with
  | start h => exact hstart _ h
  | hint _ _ hj ih => exact hclosed _ _ ih hj

end Graph

/-! ## The search -/

/-- The answers go by the keys: an item stops the search iff its key accepts, and
    otherwise its hint is the step of its key. -/
structure Responds (key : α → Option κ) (ask : α → Answer α κ β ε) (accepts : κ → Prop)
    (step : κ → Option κ) : Prop where
  stop : ∀ {a k b}, key a = some k → ask a = .stop b → accepts k
  miss : ∀ {a k next err}, key a = some k → ask a = .miss next err →
    ¬ accepts k ∧ step k = next.map Prod.snd
  next : ∀ {a b j err}, ask a = .miss (some (b, j)) err → key b = some j

/-- The keys in a queue. -/
def Keys (key : α → Option κ) (queue : List α) (k : κ) : Prop := ∃ a ∈ queue, key a = some k

section Search

variable [DecidableEq κ] {key : α → Option κ} {ask : α → Answer α κ β ε} {accepts : κ → Prop}
  {step : κ → Option κ} {fuel : Nat} {queue : List α} {seen : List κ} {last : Option ε}

omit [DecidableEq κ] in
theorem keys_cons {a : α} {k : κ} :
    Keys key (a :: queue) k ↔ key a = some k ∨ Keys key queue k := by
  simp [Keys]

/-- A miss adds the key of its hint to the queue, if that is new. -/
theorem keys_pushNew {next : Option (α × κ)} (hnext : ∀ b j, next = some (b, j) → key b = some j)
    {i : κ} : Keys key (pushNew seen next queue) i ↔
      Keys key queue i ∨ (next.map Prod.snd = some i ∧ i ∉ seen) := by
  cases next with
  | none => simp [pushNew]
  | some x =>
    obtain ⟨b, j⟩ := x
    have hb := hnext b j rfl
    rw [pushNew]
    dsimp only [Option.map_some]
    by_cases hj : j ∈ seen
    · rw [if_pos hj]
      refine ⟨.inl, fun h => h.elim id fun hi => ?_⟩
      exact absurd (Option.some.inj hi.1 ▸ hj) hi.2
    · rw [if_neg hj, keys_cons, hb, or_comm]
      refine or_congr_right ⟨fun h => ⟨h, ?_⟩, fun h => h.1⟩
      exact Option.some.inj h ▸ hj

/-- **Each key once**: the items asked have distinct keys, which had not been seen and
    are reached from the queue. -/
theorem loop_asked (h : Responds key ask accepts step) (fuel : Nat) (queue : List α) (seen : List κ)
    (last : Option ε) :
    (∀ a ∈ (loop key ask fuel queue seen last).1, ∃ k, key a = some k ∧ k ∉ seen ∧
      Reach accepts step (Keys key queue) k) ∧
    ((loop key ask fuel queue seen last).1.filterMap key).Nodup := by
  refine loop_induct (P := fun _ queue seen _ r => (∀ a ∈ r.1, ∃ k, key a = some k ∧ k ∉ seen ∧
    Reach accepts step (Keys key queue) k) ∧ (r.1.filterMap key).Nodup) ?_ ?_ ?_ ?_ ?_
    fuel queue seen last
  · exact fun _ _ _ => ⟨fun _ ha => absurd ha List.not_mem_nil, List.nodup_nil⟩
  · exact fun _ _ _ _ => ⟨fun _ ha => absurd ha List.not_mem_nil, List.nodup_nil⟩
  · rintro _ a queue seen _ r - ⟨hasked, hnodup⟩
    refine ⟨fun b hb => ?_, hnodup⟩
    obtain ⟨k, hk, hnew, hreach⟩ := hasked b hb
    exact ⟨k, hk, hnew, hreach.trans fun j hj => .start (keys_cons.mpr (.inr hj))⟩
  · intro _ a queue seen _ k b hkey hnew hask
    refine ⟨fun x hx => ?_, ?_⟩
    · rw [List.mem_singleton.mp hx]
      exact ⟨k, hkey, hnew, .start (keys_cons.mpr (.inl hkey))⟩
    · simp [hkey]
  · rintro _ a queue seen _ k next err r hkey hnew hask ⟨hasked, hnodup⟩
    obtain ⟨hno, hstep⟩ := h.miss hkey hask
    have hk : Reach accepts step (Keys key (a :: queue)) k := .start (keys_cons.mpr (.inl hkey))
    refine ⟨fun x hx => ?_, ?_⟩
    · rcases List.mem_cons.mp hx with rfl | hx
      · exact ⟨k, hkey, hnew, hk⟩
      · obtain ⟨j, hj, hnew', hreach⟩ := hasked x hx
        refine ⟨j, hj, fun hmem => hnew' (List.mem_cons_of_mem k hmem), hreach.trans fun i hi => ?_⟩
        rcases (keys_pushNew fun b j heq => h.next (heq ▸ hask)).mp hi with hi | ⟨hi, -⟩
        · exact .start (keys_cons.mpr (.inr hi))
        · exact hk.hint hno (hstep.trans hi)
    · rw [List.filterMap_cons_some hkey, List.nodup_cons]
      refine ⟨fun hmem => ?_, hnodup⟩
      obtain ⟨x, hx, hxk⟩ := List.mem_filterMap.mp hmem
      obtain ⟨j, hj, hnew', -⟩ := hasked x hx
      rw [hxk] at hj
      exact hnew' (Option.some.inj hj ▸ List.mem_cons_self)

/-- A search that is stopped is stopped by an item that was asked. -/
theorem loop_stopped {b : β} (hend : (loop key ask fuel queue seen last).2 = .stopped b) :
    ∃ a ∈ (loop key ask fuel queue seen last).1, ask a = .stop b := by
  refine loop_induct (P := fun _ _ _ _ r => r.2 = .stopped b → ∃ a ∈ r.1, ask a = .stop b)
    ?_ ?_ ?_ ?_ ?_ fuel queue seen last hend
  · intro _ _ _ hend
    cases hend
  · intro _ _ _ _ hend
    cases hend
  · exact fun _ _ _ _ _ r _ ih => ih
  · intro _ a _ _ _ _ b' _ _ hask hend
    cases hend
    exact ⟨a, List.mem_cons_self, hask⟩
  · intro _ a _ _ _ _ _ _ r _ _ _ ih hend
    obtain ⟨x, hx, hask⟩ := ih hend
    exact ⟨x, List.mem_cons_of_mem a hx, hask⟩

/-- A search that is exhausted ends with the error of the last item asked. -/
theorem loop_last {e : Option ε} (hend : (loop key ask fuel queue seen last).2 = .exhausted e) :
    ((loop key ask fuel queue seen last).1 = [] ∧ e = last) ∨
      ∃ a next err, (loop key ask fuel queue seen last).1.getLast? = some a ∧
        ask a = .miss next err ∧ e = some err := by
  refine loop_induct (P := fun _ _ _ last r => r.2 = .exhausted e → (r.1 = [] ∧ e = last) ∨
    ∃ a next err, r.1.getLast? = some a ∧ ask a = .miss next err ∧ e = some err)
    ?_ ?_ ?_ ?_ ?_ fuel queue seen last hend
  · intro _ _ last hend
    cases hend
    exact .inl ⟨rfl, rfl⟩
  · intro _ _ _ _ hend
    cases hend
  · exact fun _ _ _ _ _ r _ ih => ih
  · intro _ _ _ _ _ _ _ _ _ _ hend
    cases hend
  · intro _ a _ _ _ _ next err r _ _ hask ih hend
    rcases ih hend with ⟨hnil, he⟩ | ⟨x, next', err', hlast, hask', he⟩
    · refine .inr ⟨a, next, err, ?_, hask, he⟩
      rw [hnil]
      rfl
    · refine .inr ⟨x, next', err', ?_, hask', he⟩
      rw [List.getLast?_cons, hlast]
      rfl

/-- **Nothing is missed**: when the search is exhausted, what was seen and what was in
    the queue lie in a set that is closed under the hints, and in which no key
    accepts. -/
theorem loop_exhausted (h : Responds key ask accepts step)
    (hseen : ∀ k ∈ seen, ¬ accepts k ∧ ∀ j, step k = some j → j ∈ seen ∨ Keys key queue j)
    {e : Option ε} (hend : (loop key ask fuel queue seen last).2 = .exhausted e) :
    ∃ P : κ → Prop, (∀ k ∈ seen, P k) ∧ (∀ k, Keys key queue k → P k) ∧
      ∀ k, P k → ¬ accepts k ∧ ∀ j, step k = some j → P j := by
  refine loop_induct (P := fun _ queue seen _ r =>
    (∀ k ∈ seen, ¬ accepts k ∧ ∀ j, step k = some j → j ∈ seen ∨ Keys key queue j) →
    r.2 = .exhausted e → ∃ P : κ → Prop, (∀ k ∈ seen, P k) ∧ (∀ k, Keys key queue k → P k) ∧
      ∀ k, P k → ¬ accepts k ∧ ∀ j, step k = some j → P j)
    ?_ ?_ ?_ ?_ ?_ fuel queue seen last hseen hend
  · intro _ seen _ hseen _
    have hnone : ∀ k, ¬ Keys key [] k := by
      rintro k ⟨a, ha, -⟩
      exact List.not_mem_nil ha
    refine ⟨(· ∈ seen), fun k hk => hk, fun k hk => absurd hk (hnone k), fun k hk => ?_⟩
    exact ⟨(hseen k hk).1, fun j hj => ((hseen k hk).2 j hj).resolve_right (hnone j)⟩
  · intro _ _ _ _ _ hend
    cases hend
  · intro _ a queue seen _ r hold ih hseen hend
    obtain ⟨P, hP, hqueue, hclosed⟩ := ih (fun k hk => ⟨(hseen k hk).1, fun j hj => by
      rcases (hseen k hk).2 j hj with hin | hin
      · exact .inl hin
      · exact (keys_cons.mp hin).imp_left (hold j)⟩) hend
    refine ⟨P, hP, fun k hk => ?_, hclosed⟩
    exact (keys_cons.mp hk).elim (fun hkey => hP k (hold k hkey)) (hqueue k)
  · intro _ _ _ _ _ _ _ _ _ _ _ hend
    cases hend
  · intro _ a queue seen _ k next err r hkey hnew hask ih hseen hend
    obtain ⟨hno, hstep⟩ := h.miss hkey hask
    have hpush : ∀ {i}, Keys key (pushNew (k :: seen) next queue) i ↔ Keys key queue i ∨
        (next.map Prod.snd = some i ∧ i ∉ k :: seen) :=
      keys_pushNew fun b j heq => h.next (heq ▸ hask)
    have hold : ∀ j, Keys key (a :: queue) j →
        j ∈ k :: seen ∨ Keys key (pushNew (k :: seen) next queue) j := by
      intro j hj
      rcases keys_cons.mp hj with hj | hj
      · rw [hkey] at hj
        exact .inl (Option.some.inj hj ▸ List.mem_cons_self)
      · exact .inr (hpush.mpr (.inl hj))
    obtain ⟨P, hP, hqueue, hclosed⟩ := ih (fun i hi => by
      rcases List.mem_cons.mp hi with rfl | hi
      · refine ⟨hno, fun j hj => ?_⟩
        by_cases hin : j ∈ i :: seen
        · exact .inl hin
        · exact .inr (hpush.mpr (.inr ⟨hstep.symm.trans hj, hin⟩))
      · refine ⟨(hseen i hi).1, fun j hj => ?_⟩
        rcases (hseen i hi).2 j hj with hin | hin
        · exact .inl (List.mem_cons_of_mem k hin)
        · exact hold j hin) hend
    refine ⟨P, fun i hi => hP i (List.mem_cons_of_mem k hi), fun i hi => ?_, hclosed⟩
    exact (hold i hi).elim (hP i) (hqueue i)

theorem length_pushNew_le (seen : List κ) (next : Option (α × κ)) (queue : List α) :
    (pushNew seen next queue).length ≤ queue.length + 1 := by
  cases next with
  | none => exact Nat.le_succ _
  | some x =>
    rw [pushNew]
    split
    · exact Nat.le_succ _
    · exact le_rfl

/-- **The search ends**: with the keys in a finite set that is closed under the hints,
    every turn takes from the queue or from the keys that have not been seen. -/
theorem loop_ends (h : Responds key ask accepts step) {U : Finset κ}
    (hqueue : ∀ k, Keys key queue k → k ∈ U) (hclosed : ∀ k ∈ U, ∀ j, step k = some j → j ∈ U)
    (hfuel : queue.length + (U.filter (· ∉ seen)).card ≤ fuel) :
    (loop key ask fuel queue seen last).2 ≠ .running := by
  refine loop_induct (P := fun fuel queue seen _ r => (∀ k, Keys key queue k → k ∈ U) →
    queue.length + (U.filter (· ∉ seen)).card ≤ fuel → r.2 ≠ .running)
    ?_ ?_ ?_ ?_ ?_ fuel queue seen last hqueue hfuel
  · intro _ _ _ _ _ hend
    cases hend
  · intro a queue seen _ _ hfuel
    rw [List.length_cons] at hfuel
    omega
  · intro _ a queue seen _ r _ ih hqueue hfuel
    rw [List.length_cons] at hfuel
    exact ih (fun k hk => hqueue k (keys_cons.mpr (.inr hk))) (by omega)
  · intro _ _ _ _ _ _ _ _ _ _ _ _ hend
    cases hend
  · intro _ a queue seen _ k next err r hkey hnew hask ih hqueue hfuel
    have hk : k ∈ U := hqueue k (keys_cons.mpr (.inl hkey))
    have hcard : (U.filter (· ∉ k :: seen)).card + 1 ≤ (U.filter (· ∉ seen)).card := by
      refine Finset.card_lt_card ⟨fun j hj => ?_, fun hsub => ?_⟩
      · rw [Finset.mem_filter] at hj ⊢
        exact ⟨hj.1, fun hin => hj.2 (List.mem_cons_of_mem k hin)⟩
      · have hin := hsub (Finset.mem_filter.mpr ⟨hk, hnew⟩)
        exact (Finset.mem_filter.mp hin).2 List.mem_cons_self
    have hlen := length_pushNew_le (k :: seen) next queue
    rw [List.length_cons] at hfuel
    refine ih (fun j hj => ?_) (by omega)
    rcases (keys_pushNew fun b j heq => h.next (heq ▸ hask)).mp hj with hj | ⟨hj, -⟩
    · exact hqueue j (keys_cons.mpr (.inr hj))
    · exact hclosed k hk j ((h.miss hkey hask).2.trans hj)

/-- **The search is complete**: it is stopped iff a key that accepts is reached from
    the queue. -/
theorem loop_stopped_iff (h : Responds key ask accepts step)
    (hend : (loop key ask fuel queue [] last).2 ≠ .running) :
    (∃ b, (loop key ask fuel queue [] last).2 = .stopped b) ↔
      ∃ k, Reach accepts step (Keys key queue) k ∧ accepts k := by
  constructor
  · rintro ⟨b, hb⟩
    obtain ⟨a, ha, hask⟩ := loop_stopped hb
    obtain ⟨k, hkey, -, hreach⟩ := (loop_asked h fuel queue [] last).1 a ha
    exact ⟨k, hreach, h.stop hkey hask⟩
  · rintro ⟨k, hreach, haccepts⟩
    cases hrun : (loop key ask fuel queue [] last).2 with
    | stopped b => exact ⟨b, rfl⟩
    | running => exact absurd hrun hend
    | exhausted e =>
      obtain ⟨P, -, hqueue, hclosed⟩ :=
        loop_exhausted h (fun k hk => absurd hk List.not_mem_nil) hrun
      have hk := hreach.of_closed hqueue fun k j hk hj => (hclosed k hk).2 j hj
      exact absurd haccepts (hclosed k hk).1

end Search

end WorkList
