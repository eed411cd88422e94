import TinyRedis.ErrorAtomicityProofs

/-! # LMOVE

    LMOVE takes an element off one end of a list and puts it at an end of another,
    or of the same one.  The list at `des` is made before the element is popped, and
    the check that drops an empty `src` runs after the push: what follows is that
    exactly one element moves and that nothing else changes, whatever the keys hold
    and whether or not they are equal. -/

namespace TinyDb

open GoString GoFloat GoProgram GoProgram.Prog TinyResp

variable {F : Type}

/-! ## The ends of a list -/

/-- The name of an end. -/
def side (left : Bool) : String := if left then "left" else "right"

/-- Values with one more at an end. -/
def atEnd (left : Bool) (elem : Option Bytes) (vs : List (Option Bytes)) : List (Option Bytes) :=
  if left then elem :: vs else vs ++ [elem]

theorem atEnd_ne_nil (left : Bool) (elem : Option Bytes) (vs : List (Option Bytes)) :
    atEnd left elem vs ≠ [] := by
  cases left with
  | true => exact List.cons_ne_nil elem vs
  | false => exact List.append_ne_nil_of_right_ne_nil vs (List.cons_ne_nil elem [])

/-- What a list with a value has at an end is popped there. -/
theorem pop_atEnd {list : RedisList} (hne : list.vals ≠ []) (left : Bool) :
    ∃ elem rest, list = ⟨atEnd left elem rest⟩ ∧
      (if left then list.lPop else list.rPop) = (⟨rest⟩, some elem) := by
  obtain ⟨vs⟩ := list
  cases left with
  | true =>
    obtain ⟨elem, rest, rfl⟩ := List.exists_cons_of_ne_nil hne
    exact ⟨elem, rest, rfl, rfl⟩
  | false =>
    obtain ⟨rest, elem, rfl⟩ := List.eq_nil_or_concat vs |>.resolve_left hne
    refine ⟨elem, rest, congrArg RedisList.mk List.concat_eq_append, ?_⟩
    simp [RedisList.rPop]

theorem push_atEnd (list : RedisList) (left : Bool) (elem : Option Bytes) :
    (if left then list.lPush elem else list.rPush elem) = ⟨atEnd left elem list.vals⟩ := by
  cases left <;> rfl

/-! ## Under the locks -/

/-- The end of LMOVE: the two lists are there, and `src` goes if its list is
    empty. -/
def Store.leaveMove (s : Store F) (src des : Bytes) (rest list : RedisList) : Store F :=
  let s := (s.update src ⟨.list, rest⟩).update des ⟨.list, list⟩
  if (if des = src then list else rest).len = 0 then (s.delete src).2.removeTTL src else s

/-- What LMOVE comes to in a store in which `src` does not hold an empty list. -/
inductive MoveEnd (s : Store F) (src des : Bytes) (popLeft pushLeft : Bool) :
    Except Abort Reply × Store F → Prop
  | missing (h : s.db.lookup src = none) : MoveEnd s src des popLeft pushLeft
      (.ok (bulkReply none), s)
  | wrongType : MoveEnd s src des popLeft pushLeft (.ok wrongTypeReply, s)
  | moved {elem : Option Bytes} {rest : List (Option Bytes)} {list : RedisList} {s₁ : Store F}
      (hsrc : s.db.lookup src = some ⟨.list, ⟨atEnd popLeft elem rest⟩⟩)
      (hdes : (s.db.lookup des = some ⟨.list, list⟩ ∧ s₁ = s) ∨
        (s.db.lookup des = none ∧ list = newList ∧ s₁ = s.set des ⟨.list, newList⟩)) :
      MoveEnd s src des popLeft pushLeft (.ok (bulkReply elem), s₁.leaveMove src des ⟨rest⟩
        ⟨atEnd pushLeft elem (if des = src then ⟨rest⟩ else list).vals⟩)

section Moving

variable {env : Env} {w : World F} {src des : Bytes} {popLeft pushLeft : Bool}

/-- The deferred check, and the reply. -/
theorem outcome_dropIf (empty : Prop) [Decidable empty] (key : Bytes) (reply : Reply)
    (w : World F) :
    outcome env (dropIf empty key >>= fun _ => (pure reply : Cmd F writes Reply)) w =
      (.ok reply, if empty then (w.store.delete key).2.removeTTL key else w.store) := by
  by_cases hempty : empty
  · rw [if_pos hempty, decide_eq_true hempty]
    rfl
  · rw [if_neg hempty, decide_eq_false hempty]
    rfl

/-- The list at `des`, or a new one, goes to what is behind. -/
theorem outcome_desList (env : Env) (w : World F) (hget : w.store.get .list des ≠ .wrongType) :
    ∃ list s₁ tick, ((w.store.db.lookup des = some ⟨.list, list⟩ ∧ s₁ = w.store) ∨
        (w.store.db.lookup des = none ∧ list = newList ∧
          s₁ = w.store.set des ⟨.list, newList⟩)) ∧
      ∀ f : Found RedisList → Cmd F writes Reply,
        outcome env (getOrCreate .list des newList >>= f) w =
          outcome env (f (.found list)) ⟨s₁, tick, w.draws⟩ := by
  cases hget' : w.store.get .list des with
  | wrongType => exact absurd hget' hget
  | absent =>
    exact ⟨newList, _, _, .inr ⟨Store.get_eq_absent.mp hget', rfl, rfl⟩,
      fun f => outcome_getOrCreate_absent hget' f⟩
  | found list =>
    exact ⟨list, _, _, .inl ⟨Store.get_eq_found.mp hget', rfl⟩,
      fun f => outcome_getOrCreate hget' f⟩

theorem moveElem_end (hfull : ∀ list, w.store.db.lookup src = some ⟨.list, list⟩ → list.vals ≠ []) :
    MoveEnd w.store src des popLeft pushLeft
      (outcome env (moveElem src des popLeft pushLeft : Cmd F writes Reply) w) := by
  rw [moveElem, outcome_get]
  cases hget : w.store.get .list src with
  | absent => exact .missing (Store.get_eq_absent.mp hget)
  | wrongType => exact .wrongType
  | found srcList =>
    have hsrc := Store.get_eq_found.mp hget
    have hne := hfull srcList hsrc
    have hlen : ¬ srcList.len = 0 := by simpa [RedisList.len] using hne
    obtain ⟨elem, rest, rfl, hpop⟩ := pop_atEnd hne popLeft
    dsimp only
    rw [if_neg hlen]
    by_cases hget' : w.store.get .list des = .wrongType
    · rw [getOrCreate, bind_bind, outcome_get, hget']
      exact .wrongType
    · obtain ⟨list, s₁, tick, hdes, hrun⟩ := outcome_desList env
        ⟨w.store, w.tick + 1, w.draws⟩ hget'
      rw [hrun, hpop]
      dsimp only
      rw [push_atEnd, outcome_update, outcome_update, outcome_dropIf]
      exact .moved hsrc hdes

end Moving

/-! ## What moves -/

/-- **One element has moved**, in a store where `src` was checked at `t₀` and `des`
    at `t₁`: off the end of a live list at `src`, and on to the end of the live
    list at `des`, of a new one, or of the rest of `src` itself. -/
structure Moved (s s' : Store F) (t₀ t₁ : Int) (src des : Bytes) (popLeft pushLeft : Bool)
    (elem : Option Bytes) (rest old : List (Option Bytes)) : Prop where
  taken : ∃ d, s.live t₀ src = some (⟨.list, ⟨atEnd popLeft elem rest⟩⟩, d) ∧
    (des = src ∨ rest ≠ [] → s'.ttl.lookup src = d)
  found : des ≠ src → (∃ d, s.live t₁ des = some (⟨.list, ⟨old⟩⟩, d) ∧ s'.ttl.lookup des = d) ∨
    (s.live t₁ des = none ∧ old = [])
  placed : s'.db.lookup des =
    some ⟨.list, ⟨atEnd pushLeft elem (if des = src then rest else old)⟩⟩
  kept : des ≠ src → rest ≠ [] → s'.db.lookup src = some ⟨.list, ⟨rest⟩⟩
  dropped : des ≠ src → rest = [] → s'.db.lookup src = none ∧ s'.ttl.lookup src = none
  others : ∀ k, k ≠ src → k ≠ des →
    s'.db.lookup k = s.db.lookup k ∧ s'.ttl.lookup k = s.ttl.lookup k

section Leaving

variable {s s₁ : Store F} {src des : Bytes} {t₀ t₁ : Int} {popLeft pushLeft : Bool}
  {elem : Option Bytes} {rest : List (Option Bytes)}

/-- On one list: what was popped is pushed, and the list is not empty. -/
theorem moved_same (hdue : ¬ s.Due src t₀)
    (hsrc : s.db.lookup src = some ⟨.list, ⟨atEnd popLeft elem rest⟩⟩) :
    Moved s (s.leaveMove src src ⟨rest⟩ ⟨atEnd pushLeft elem rest⟩) t₀ t₁ src src popLeft pushLeft
      elem rest [] := by
  have hleave : s.leaveMove src src ⟨rest⟩ ⟨atEnd pushLeft elem rest⟩ =
      (s.update src ⟨.list, ⟨rest⟩⟩).update src ⟨.list, ⟨atEnd pushLeft elem rest⟩⟩ := by
    rw [Store.leaveMove, if_pos rfl]
    refine if_neg fun hlen => atEnd_ne_nil pushLeft elem rest ?_
    simpa [RedisList.len] using hlen
  refine ⟨⟨s.ttl.lookup src, ?_, fun _ => ?_⟩, fun hne => absurd rfl hne, ?_,
    fun hne => absurd rfl hne, fun hne => absurd rfl hne, fun k hk _ => ?_⟩
  · rw [Store.live_of_not_due hdue, hsrc]
    rfl
  · rw [hleave]
    simp
  · rw [hleave]
    simp [hsrc]
  · rw [hleave]
    simp [hk]

/-- Between two keys: the rest of `src` stays, or `src` goes. -/
theorem leaveMove_lookup (rest : List (Option Bytes)) (list : RedisList) (hne : des ≠ src)
    (hsrc : (s.db.lookup src).isSome) (hdes : (s.db.lookup des).isSome) (k : Bytes) :
    (s.leaveMove src des ⟨rest⟩ list).db.lookup k =
        (if k = des then some ⟨.list, list⟩ else if k = src then
          (if rest = [] then none else some ⟨.list, ⟨rest⟩⟩) else s.db.lookup k) ∧
      (s.leaveMove src des ⟨rest⟩ list).ttl.lookup k =
        if k = src ∧ rest = [] then none else s.ttl.lookup k := by
  have hdes' : ((s.update src ⟨.list, ⟨rest⟩⟩).db.lookup des).isSome := by simpa [hne] using hdes
  have hempty : RedisList.len ⟨rest⟩ = 0 ↔ rest = [] := by simp [RedisList.len]
  rw [Store.leaveMove, if_neg hne]
  by_cases hrest : rest = []
  · rw [if_pos (hempty.mpr hrest)]
    by_cases hk : k = src
    · subst hk
      simp [hrest, hne.symm]
    · by_cases hk' : k = des
      · subst hk'
        simp [hk, hdes]
      · simp [hk, hk']
  · rw [if_neg (mt hempty.mp hrest)]
    by_cases hk : k = src
    · subst hk
      simp [hrest, hne.symm, hsrc]
    · by_cases hk' : k = des
      · subst hk'
        simp [hk, hdes]
      · simp [hk, hk']

/-- Between two keys one element moves. -/
theorem moved_between {list : RedisList} (hne : des ≠ src) (hdue : ¬ s.Due src t₀)
    (hsrc : (s.checked des t₁).db.lookup src = some ⟨.list, ⟨atEnd popLeft elem rest⟩⟩)
    (hdes : ((s.checked des t₁).db.lookup des = some ⟨.list, list⟩ ∧ s₁ = s.checked des t₁) ∨
      ((s.checked des t₁).db.lookup des = none ∧ list = newList ∧
        s₁ = (s.checked des t₁).set des ⟨.list, newList⟩)) :
    Moved s (s₁.leaveMove src des ⟨rest⟩ ⟨atEnd pushLeft elem list.vals⟩) t₀ t₁ src des popLeft
      pushLeft elem rest list.vals := by
  have hothers : ∀ k, k ≠ des → s₁.db.lookup k = s.db.lookup k ∧
      s₁.ttl.lookup k = s.ttl.lookup k := by
    intro k hk
    obtain ⟨hdb, httl⟩ := s.checked_ne t₁ hk
    rcases hdes with ⟨-, rfl⟩ | ⟨-, -, rfl⟩
    · exact ⟨hdb, httl⟩
    · simpa [hk] using ⟨hdb, httl⟩
  have hthere : (s₁.db.lookup des).isSome := by
    rcases hdes with ⟨hdb, rfl⟩ | ⟨-, -, rfl⟩
    · rw [hdb]
      rfl
    · simp
  rw [(s.checked_ne t₁ hne.symm).1] at hsrc
  have hlook := leaveMove_lookup rest ⟨atEnd pushLeft elem list.vals⟩ hne
    (by rw [(hothers src hne.symm).1, hsrc]; rfl) hthere
  refine ⟨⟨s.ttl.lookup src, ?_, fun hstay => ?_⟩, fun _ => ?_, ?_, fun _ hrest => ?_,
    fun _ hrest => ?_, fun k hk hk' => ?_⟩
  · rw [Store.live_of_not_due hdue, hsrc]
    rfl
  · have hrest : ¬ (src = src ∧ rest = []) := fun h => hstay.elim hne fun hne' => hne' h.2
    rw [(hlook src).2, if_neg hrest, (hothers src hne.symm).2]
  · rw [(hlook des).2, if_neg fun h => hne h.1]
    rcases hdes with ⟨hdb, rfl⟩ | ⟨hdb, rfl, -⟩
    · rw [s.checked_lookup des t₁, Option.map_eq_some_iff] at hdb
      obtain ⟨⟨v, d⟩, hlive, hv⟩ := hdb
      obtain ⟨hnot, -, hd⟩ := Store.live_eq_some.mp hlive
      refine .inl ⟨d, ?_, ?_⟩
      · rw [hlive]
        exact congrArg (fun v => some (v, d)) hv
      · rw [Store.checked_of_not_due hnot, hd]
    · rw [s.checked_lookup des t₁, Option.map_eq_none_iff] at hdb
      exact .inr ⟨hdb, rfl⟩
  · rw [(hlook des).1, if_pos rfl, if_neg hne]
  · rw [(hlook src).1, if_neg hne.symm, if_pos rfl, if_neg hrest]
  · rw [(hlook src).1, (hlook src).2, if_neg hne.symm, if_pos rfl, if_pos hrest,
      if_pos ⟨rfl, hrest⟩]
    exact ⟨rfl, rfl⟩
  · rw [(hlook k).1, (hlook k).2, if_neg hk', if_neg hk, if_neg fun h => hk h.1]
    exact hothers k hk'

end Leaving

/-! ## The command -/

/-- No key holds an empty list. -/
def Store.NoEmptyLists (s : Store F) : Prop :=
  ∀ key list, s.db.lookup key = some ⟨.list, list⟩ → list.vals ≠ []

/-- **LMOVE conserves the elements**: null or an error and the same live data from
    `T` on, or one element moved and returned. -/
def Conserves [UnicodeTables] (T t₀ t₁ : Int) (cmd : Command) (s : Store F)
    (r : Except Abort Reply × Store F) : Prop :=
  (∃ reply, r.1 = .ok reply ∧ (reply = bulkReply none ∨ IsError reply) ∧ SameLive T s r.2) ∨
  ∃ name src des a b popLeft pushLeft elem rest old, cmd = [name, src, des, a, b] ∧
    toLower (str a) = ascii (side popLeft) ∧ toLower (str b) = ascii (side pushLeft) ∧
    r.1 = .ok (bulkReply elem) ∧
    Moved s r.2 t₀ t₁ (str src) (str des) popLeft pushLeft elem rest old

theorem Store.NoEmptyLists.checked {s : Store F} (h : s.NoEmptyLists) (key : Bytes) (now : Int) :
    (s.checked key now).NoEmptyLists := by
  intro k list hk
  by_cases hkey : k = key
  · subst hkey
    by_cases hdue : s.Due k now
    · rw [(Store.checked_of_due hdue).1] at hk
      exact absurd hk (by simp)
    · rw [Store.checked_of_not_due hdue] at hk
      exact h k list hk
  · rw [(s.checked_ne now hkey).1] at hk
    exact h k list hk

/-- A word that names an end, as the executor reads it. -/
theorem side_of_word {a : Bytes} (h : ¬ (a ≠ ascii "left" ∧ a ≠ ascii "right")) :
    a = ascii (side (a = ascii "left")) := by
  by_cases hleft : a = ascii "left"
  · rw [decide_eq_true hleft]
    exact hleft
  · rw [decide_eq_false hleft]
    exact by_contra fun hright => h ⟨hleft, hright⟩

/-- What LMOVE comes to behind its checks is what is wanted. -/
theorem MoveEnd.conserves [UnicodeTables] {s : Store F} {T t₀ t₁ : Int}
    {name src des a b : Option Bytes} {popLeft pushLeft : Bool} {r : Except Abort Reply × Store F}
    (h : MoveEnd (s.checked (str des) t₁) (str src) (str des) popLeft pushLeft r)
    (hdue : ¬ s.Due (str src) t₀) (h₁ : t₁ ≤ T) (ha : toLower (str a) = ascii (side popLeft))
    (hb : toLower (str b) = ascii (side pushLeft)) :
    Conserves T t₀ t₁ [name, src, des, a, b] s r := by
  have hlive : SameLive T s (s.checked (str des) t₁) := fun _ => Store.checkTTL_live _ _ _ h₁
  cases h with
  | missing hnone => exact .inl ⟨_, rfl, .inl rfl, hlive⟩
  | wrongType => exact .inl ⟨_, rfl, .inr ⟨_, rfl⟩, hlive⟩
  | @moved elem rest list s₁ hsrc hdes =>
    by_cases hsame : str des = str src
    · rw [hsame] at hsrc hdes
      have hnot : ¬ s.Due (str src) t₁ := by
        intro hdue'
        rw [(Store.checked_of_due hdue').1] at hsrc
        exact absurd hsrc (by simp)
      rw [Store.checked_of_not_due hnot] at hsrc hdes
      obtain rfl : s₁ = s := by
        rcases hdes with ⟨-, rfl⟩ | ⟨hnone, -⟩
        · rfl
        · rw [hsrc] at hnone
          exact absurd hnone (by simp)
      refine .inr ⟨name, src, des, a, b, popLeft, pushLeft, elem, rest, [], rfl, ha, hb, rfl, ?_⟩
      rw [hsame, if_pos rfl]
      exact moved_same hdue hsrc
    · refine .inr ⟨name, src, des, a, b, popLeft, pushLeft, elem, rest, list.vals, rfl, ha, hb,
        rfl, ?_⟩
      rw [if_neg hsame]
      exact moved_between hsame hdue hsrc hdes

section Command

variable [UnicodeTables] {env : Env} {w : World F} {T : Int}

theorem lMoveList_conserves (cmd : Command) (hne : cmd ≠ [])
    (hname : toLower (cmdName cmd) = ascii "lmove") (hfull : w.store.NoEmptyLists)
    (h₀ : env.clock w.tick ≤ T) (h₁ : env.clock (w.tick + 1) ≤ T) :
    Conserves T (env.clock w.tick) (env.clock (w.tick + 1)) cmd w.store
      (outcome env (lMoveList cmd : Cmd F writes Reply) w) := by
  rw [lMoveList, named_eq hne hname]
  by_cases hlen : cmd.length = 5
  · obtain ⟨name, src, des, a, b, rfl⟩ : ∃ name src des a b, cmd = [name, src, des, a, b] := by
      obtain _ | ⟨name, _ | ⟨src, _ | ⟨des, _ | ⟨a, _ | ⟨b, _ | ⟨c, rest⟩⟩⟩⟩⟩⟩ := cmd
      all_goals simp at hlen
      exact ⟨name, src, des, a, b, rfl⟩
    rw [if_neg (not_not.mpr hlen), strAt_bind rfl, strAt_bind rfl, strAt_bind rfl, strAt_bind rfl]
    by_cases hopt : (toLower (str a) ≠ ascii "left" ∧ toLower (str a) ≠ ascii "right") ∨
        (toLower (str b) ≠ ascii "left" ∧ toLower (str b) ≠ ascii "right")
    · rw [if_pos hopt]
      exact .inl ⟨_, rfl, .inr ⟨_, rfl⟩, fun _ => rfl⟩
    · rw [if_neg hopt]
      obtain ⟨ha, hb⟩ := not_or.mp hopt
      by_cases hdue : w.store.Due (str src) (env.clock w.tick)
      · rw [outcome_checkTTL_of_due hdue]
        exact .inl ⟨_, rfl, .inl rfl, fun k => Store.checkTTL_live _ _ _ h₀⟩
      · rw [outcome_checkTTL hdue, if_neg (by simp), outcome_checkTTL_ignored,
          outcome_withLocks]
        refine MoveEnd.conserves ?_ hdue h₁ (side_of_word ha) (side_of_word hb)
        exact moveElem_end (w := ⟨w.store.checked (str des) (env.clock (w.tick + 1)),
          w.tick + 3, w.draws⟩) fun list => hfull.checked (str des) _ (str src) list
  · rw [if_pos hlen]
    exact .inl ⟨_, rfl, .inr ⟨_, rfl⟩, fun _ => rfl⟩

/-- **LMOVE CONSERVES THE ELEMENTS**, in every store without empty lists, for every
    command line: `src` and `des` equal or not, `des` absent, a list or something
    else, and all four directions. -/
theorem lmove_conserves_elements [FloatText F] (host : Host) (env : Env) (w : World F)
    (cmd : Command) (T : Int) (hne : cmd ≠ []) (hname : toLower (cmdName cmd) = ascii "lmove")
    (hfull : w.store.NoEmptyLists) (h₀ : env.clock w.tick ≤ T) (h₁ : env.clock (w.tick + 1) ≤ T) :
    Conserves T (env.clock w.tick) (env.clock (w.tick + 1)) cmd w.store
      ((execCommand host env cmd w).1, (execCommand host env cmd w).2.store) := by
  have hmem : Registered F host "lmove" lMoveList := by simp [Registered, cmdTable]
  rw [exec_eq_outcome hmem hne hname]
  exact lMoveList_conserves cmd hne hname hfull h₀ h₁

end Command

/-- The last element of a list moves to a key that is not there. -/
theorem lmove_conserves_last :
    letI := asciiTables
    let w : World IntScore := ⟨newMemDb.set (ascii "a") ⟨.list, ⟨[some [120]]⟩⟩, 0, 0⟩
    let cmd := words ["LMOVE", "a", "b", "left", "RIGHT"]
    let r := execStill cmd w
    w.store.NoEmptyLists ∧ r.1 = .ok (bulkReply (some [120])) ∧
      Conserves 0 0 0 cmd w.store (r.1, r.2.store) := by
  intro w cmd r
  have hfull : w.store.NoEmptyLists := by
    intro key list hkey
    rw [Store.set_db] at hkey
    split at hkey
    · cases hkey
      simp
    · exact absurd hkey (by simp [newMemDb])
  exact ⟨hfull, rfl, @lmove_conserves_elements IntScore asciiTables _ quietHost stillEnv w cmd 0
    (List.cons_ne_nil _ _) rfl hfull le_rfl le_rfl⟩

end TinyDb
