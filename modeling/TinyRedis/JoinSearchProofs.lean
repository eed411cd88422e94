import TinyRedis.GoTrimProofs
import TinyRedis.JoinProofs
import TinyRedis.WorkListProofs

/-! # Join as a search

    The loop of `join` is a work list: the targets are the queue, the normalised
    addresses the keys, and a refusal may hint at one more address, which is asked
    next.  With the answers fixed by the normalised addresses, what comes out is
    settled by the addresses that are reached from the targets along the hints. -/

namespace TinyJoin

open GoString

/-! ## The loop as a work list -/

/-- The key of a queued address: a blank one has none. -/
def joinKey (head : Bytes) : Option Bytes :=
  if trimSpace head = [] then none else some (normalizeJoinAddr (trimSpace head))

/-- What `join` makes of the answer to one address. -/
def joinAsk (ask : Bytes → Answer) (head : Bytes) : WorkList.Answer Bytes Bytes JoinEnd JoinErr :=
  match ask (trimSpace head) with
  | .joined hint => .stop (.joined (some (if hint = [] then trimSpace head else hint)))
  | .panicked => .stop .panicked
  | .refused hint err =>
    .miss (if normalizeJoinAddr (trimSpace hint) = [] then none
      else some (trimSpace hint, normalizeJoinAddr (trimSpace hint))) err

/-- The end of `join`, by the end of the loop. -/
def joinEnd : WorkList.End JoinEnd JoinErr → JoinEnd
  | .stopped b => b
  | .exhausted last => .failed (last.getD .noTargets)
  | .running => .running

/-- `Node.join` with the answers of `joinOnce` given, and the targets it contacts. -/
def joinBy (ask : Bytes → Answer) (fuel : Nat) (targets : List Bytes) : List Bytes × JoinEnd :=
  if targets = [] then ([], .joined none)
  else
    let r := WorkList.loop joinKey (joinAsk ask) fuel targets [] none
    (r.1.map trimSpace, joinEnd r.2)

/-- The hint goes to the front of the queue under the tests of the source. -/
theorem pushNew_hint (hint key : Bytes) (seen queue : List Bytes) :
    WorkList.pushNew seen (if key = [] then none else some (hint, key)) queue =
      if key ≠ [] ∧ key ∉ seen then hint :: queue else queue := by
  by_cases hkey : key = []
  · rw [if_pos hkey, if_neg fun h => h.1 hkey]
    rfl
  · rw [if_neg hkey, WorkList.pushNew]
    by_cases hseen : key ∈ seen
    · rw [if_pos hseen, if_neg fun h => h.2 hseen]
    · rw [if_neg hseen, if_pos ⟨hkey, hseen⟩]

/-- The text and the key of an address that is not passed over. -/
theorem joinKey_some {head k : Bytes} (h : joinKey head = some k) :
    trimSpace head ≠ [] ∧ normalizeJoinAddr (trimSpace head) = k := by
  rw [joinKey] at h
  split at h
  · cases h
  · next hblank => exact ⟨hblank, Option.some.inj h⟩

section Network

variable [UnicodeTables] (U : UrlPackage) (net : Net) (nodeID raftAddr : Bytes)
  {ask : Bytes → Answer}

/-- The loop of `join` is the work list's, if the network answers what is asked as
    `ask` does: the requests are those of `joinOnce` for each address in turn. -/
theorem joinLoop_eq (fuel : Nat) (queue seen : List Bytes) (last : Option JoinErr)
    (hask : ∀ a ∈ (WorkList.loop joinKey (joinAsk ask) fuel queue seen last).1,
      (joinOnce U net nodeID raftAddr (trimSpace a)).2 = ask (trimSpace a)) :
    joinLoop U net nodeID raftAddr fuel queue seen last =
      ((WorkList.loop joinKey (joinAsk ask) fuel queue seen last).1.flatMap
          fun a => (joinOnce U net nodeID raftAddr (trimSpace a)).1,
        joinEnd (WorkList.loop joinKey (joinAsk ask) fuel queue seen last).2) := by
  refine WorkList.loop_induct (P := fun fuel queue seen last r =>
    (∀ a ∈ r.1, (joinOnce U net nodeID raftAddr (trimSpace a)).2 = ask (trimSpace a)) →
    joinLoop U net nodeID raftAddr fuel queue seen last =
      (r.1.flatMap fun a => (joinOnce U net nodeID raftAddr (trimSpace a)).1, joinEnd r.2))
    ?_ ?_ ?_ ?_ ?_ fuel queue seen last hask
  · intro fuel seen last _
    cases fuel <;> rfl
  · exact fun _ _ _ _ _ => rfl
  · intro fuel head queue seen last r hold ih hask
    have hpass : trimSpace head = [] ∨ normalizeJoinAddr (trimSpace head) ∈ seen := by
      by_cases hblank : trimSpace head = []
      · exact .inl hblank
      · exact .inr (hold _ (if_neg hblank))
    rw [joinLoop, if_pos hpass]
    exact ih hask
  · intro fuel head queue seen last k b hkey hnew hstop hask
    obtain ⟨hblank, rfl⟩ := joinKey_some hkey
    have honce := hask head List.mem_cons_self
    rw [joinAsk] at hstop
    rw [joinLoop, if_neg (not_or.mpr ⟨hblank, hnew⟩), List.flatMap_singleton]
    dsimp only
    rw [honce]
    cases hans : ask (trimSpace head) with
    | joined hint =>
      rw [hans] at hstop
      cases hstop
      rfl
    | panicked =>
      rw [hans] at hstop
      cases hstop
      rfl
    | refused hint err =>
      rw [hans] at hstop
      cases hstop
  · intro fuel head queue seen last k next err r hkey hnew hmiss ih hask
    obtain ⟨hblank, rfl⟩ := joinKey_some hkey
    obtain ⟨honce, hrest⟩ := List.forall_mem_cons.mp hask
    rw [joinAsk] at hmiss
    rw [joinLoop, if_neg (not_or.mpr ⟨hblank, hnew⟩)]
    dsimp only
    rw [honce]
    cases hans : ask (trimSpace head) with
    | joined hint =>
      rw [hans] at hmiss
      cases hmiss
    | panicked =>
      rw [hans] at hmiss
      cases hmiss
    | refused hint err' =>
      rw [hans] at hmiss
      cases hmiss
      dsimp only
      rw [← pushNew_hint, ih hrest, List.flatMap_cons]

/-- **`join` is the search**: it requests what `joinOnce` does for each address
    contacted, in this order and nothing else, and ends as the search does. -/
theorem join_eq_joinBy (fuel : Nat) (targets : List Bytes)
    (hask : ∀ t ∈ (joinBy ask fuel targets).1, (joinOnce U net nodeID raftAddr t).2 = ask t) :
    join U net fuel nodeID raftAddr targets =
      ((joinBy ask fuel targets).1.flatMap fun t => (joinOnce U net nodeID raftAddr t).1,
        (joinBy ask fuel targets).2) := by
  rw [joinBy] at hask ⊢
  rw [join]
  by_cases hnil : targets = []
  · rw [if_pos hnil, if_pos hnil]
    rfl
  · rw [if_neg hnil] at hask ⊢
    rw [if_neg hnil, List.flatMap_map]
    exact joinLoop_eq U net nodeID raftAddr fuel targets [] none fun a ha =>
      hask _ (List.mem_map_of_mem ha)

end Network

/-! ## Fixed answers -/

/-- What a normalised address answers: it accepts, or it rejects with a hint or
    without. -/
inductive Verdict where
  | accept
  | reject (hint : Option Bytes)

/-- The answers are fixed by the normalised addresses; what a rejection says may
    differ. -/
structure FixedBy (ask : Bytes → Answer) (resp : Bytes → Verdict) : Prop where
  accept : ∀ target, resp (normalizeJoinAddr target) = .accept → ∃ hint, ask target = .joined hint
  reject : ∀ target hint, resp (normalizeJoinAddr target) = .reject hint →
    ∃ err, ask target = .refused (hint.getD []) err

/-- The address a rejecting one leads to; a hint that comes to nothing is ignored. -/
def follow (resp : Bytes → Verdict) (addr : Bytes) : Option Bytes :=
  match resp addr with
  | .accept => none
  | .reject hint =>
    if normalizeJoinAddr (hint.getD []) = [] then none else some (normalizeJoinAddr (hint.getD []))

/-- The addresses reached from the targets that are not blank. -/
def Reachable (resp : Bytes → Verdict) (targets : List Bytes) (addr : Bytes) : Prop :=
  WorkList.Reach (fun k => resp k = .accept) (follow resp)
    (fun k => ∃ t ∈ targets, trimSpace t ≠ [] ∧ normalizeJoinAddr t = k) addr

theorem normalizeJoinAddr_trimSpace (addr : Bytes) :
    normalizeJoinAddr (trimSpace addr) = normalizeJoinAddr addr := by
  rw [normalizeJoinAddr, trimSpace_trimSpace]
  rfl

theorem keys_joinKey (targets : List Bytes) : WorkList.Keys joinKey targets =
    fun k => ∃ t ∈ targets, trimSpace t ≠ [] ∧ normalizeJoinAddr t = k := by
  funext k
  refine propext (exists_congr fun t => and_congr_right fun _ => ?_)
  rw [joinKey, normalizeJoinAddr_trimSpace]
  by_cases hblank : trimSpace t = []
  · simp [hblank]
  · simp [hblank]

section Fixed

variable {ask : Bytes → Answer} {resp : Bytes → Verdict}

/-- An address with a key, and what it answers. -/
theorem FixedBy.ask_cases (h : FixedBy ask resp) {head k : Bytes} (hkey : joinKey head = some k) :
    (resp k = .accept ∧ ∃ hint, ask (trimSpace head) = .joined hint) ∨
      ∃ hint err, resp k = .reject hint ∧ ask (trimSpace head) = .refused (hint.getD []) err := by
  obtain ⟨-, rfl⟩ := joinKey_some hkey
  cases hresp : resp (normalizeJoinAddr (trimSpace head)) with
  | accept => exact .inl ⟨rfl, h.accept _ hresp⟩
  | reject hint =>
    obtain ⟨err, herr⟩ := h.reject _ hint hresp
    exact .inr ⟨hint, err, rfl, herr⟩

/-- The answers go by the keys. -/
theorem FixedBy.responds (h : FixedBy ask resp) :
    WorkList.Responds joinKey (joinAsk ask) (fun k => resp k = .accept) (follow resp) where
  stop := by
    intro head k b hkey hask
    rcases h.ask_cases hkey with ⟨hacc, -⟩ | ⟨hint, err, -, herr⟩
    · exact hacc
    · rw [joinAsk, herr] at hask
      cases hask
  miss := by
    intro head k next err hkey hask
    rcases h.ask_cases hkey with ⟨-, hint, hjoined⟩ | ⟨hint, err', hresp, herr⟩
    · rw [joinAsk, hjoined] at hask
      cases hask
    · rw [joinAsk, herr] at hask
      cases hask
      refine ⟨by rw [hresp]; simp, ?_⟩
      rw [follow, hresp, normalizeJoinAddr_trimSpace]
      dsimp only
      split <;> rfl
  next := by
    intro head b j err hask
    rw [joinAsk] at hask
    cases hans : ask (trimSpace head) with
    | joined hint =>
      rw [hans] at hask
      cases hask
    | panicked =>
      rw [hans] at hask
      cases hask
    | refused hint err' =>
      rw [hans, WorkList.Answer.miss.injEq] at hask
      have hnext := hask.1
      split at hnext
      · cases hnext
      · next hkey =>
          obtain ⟨rfl, rfl⟩ := Prod.mk.inj (Option.some.inj hnext)
          have hblank : ¬ trimSpace (trimSpace hint) = [] := by
            rw [trimSpace_trimSpace]
            intro hnil
            rw [hnil] at hkey
            exact hkey rfl
          rw [joinKey, if_neg hblank, trimSpace_trimSpace]

/-- With finitely many hints the addresses lie in a finite set that is closed under
    them. -/
theorem finite_addresses (hfinite : {h | ∃ a, resp a = .reject (some h)}.Finite)
    (targets : List Bytes) : ∃ U : Finset Bytes, (∀ k, WorkList.Keys joinKey targets k → k ∈ U) ∧
      ∀ k ∈ U, ∀ j, follow resp k = some j → j ∈ U := by
  refine ⟨(targets.map normalizeJoinAddr).toFinset ∪ hfinite.toFinset.image normalizeJoinAddr,
    fun k hk => ?_, fun k _ j hj => ?_⟩
  · rw [keys_joinKey] at hk
    obtain ⟨t, ht, -, rfl⟩ := hk
    exact Finset.mem_union_left _ (List.mem_toFinset.mpr (List.mem_map_of_mem ht))
  · rw [follow] at hj
    cases hresp : resp k with
    | accept =>
      rw [hresp] at hj
      cases hj
    | reject hint =>
      rw [hresp] at hj
      dsimp only at hj
      split at hj
      · cases hj
      · next hne =>
          cases hint with
          | none => exact absurd rfl hne
          | some h =>
            obtain rfl := Option.some.inj hj
            refine Finset.mem_union_right _ (Finset.mem_image_of_mem _ ?_)
            exact hfinite.mem_toFinset.mpr ⟨k, hresp⟩

/-! ## The search -/

/-- **A complete search that asks each node once.** -/
structure Searched (ask : Bytes → Answer) (resp : Bytes → Verdict) (targets : List Bytes)
    (r : List Bytes × JoinEnd) : Prop where
  ended : r.2 ≠ .running
  once : (r.1.map normalizeJoinAddr).Nodup
  success : (∃ addr, r.2 = .joined addr) ↔
    targets = [] ∨ ∃ a, Reachable resp targets a ∧ resp a = .accept
  failure : (¬ ∃ addr, r.2 = .joined addr) → r.1 ≠ [] → ∃ t hint err, r.1.getLast? = some t ∧
    ask t = .refused hint err ∧ r.2 = .failed err

/-- The keys of what was asked are the normalised addresses of what was contacted. -/
theorem map_contacted {asked : List Bytes} (h : ∀ a ∈ asked, ∃ k, joinKey a = some k) :
    (asked.map trimSpace).map normalizeJoinAddr = asked.filterMap joinKey := by
  induction asked with
  | nil => rfl
  | cons a asked ih =>
    obtain ⟨⟨k, hk⟩, hrest⟩ := List.forall_mem_cons.mp h
    rw [List.filterMap_cons_some hk, List.map_cons, List.map_cons, ih hrest,
      (joinKey_some hk).2]

/-- The search stops at an address that accepts. -/
theorem FixedBy.stopped (h : FixedBy ask resp) {fuel : Nat} {targets : List Bytes} {b : JoinEnd}
    (hend : (WorkList.loop joinKey (joinAsk ask) fuel targets [] none).2 = .stopped b) :
    ∃ addr, b = .joined addr := by
  obtain ⟨a, ha, hask⟩ := WorkList.loop_stopped hend
  obtain ⟨k, hkey, -⟩ := (WorkList.loop_asked h.responds fuel targets [] none).1 a ha
  rcases h.ask_cases hkey with ⟨-, hint, hjoined⟩ | ⟨hint, err, -, herr⟩
  · rw [joinAsk, hjoined, WorkList.Answer.stop.injEq] at hask
    exact ⟨_, hask.symm⟩
  · rw [joinAsk, herr] at hask
    cases hask

theorem searched_loop (h : FixedBy ask resp) {targets : List Bytes} (hne : targets ≠ [])
    {fuel : Nat} (hend : (WorkList.loop joinKey (joinAsk ask) fuel targets [] none).2 ≠ .running) :
    Searched ask resp targets (joinBy ask fuel targets) := by
  obtain ⟨hasked, hnodup⟩ := WorkList.loop_asked h.responds fuel targets [] none
  have hfound := WorkList.loop_stopped_iff h.responds hend
  rw [keys_joinKey] at hfound
  have hcontacted := map_contacted fun a ha => (hasked a ha).imp fun k hk => hk.1
  rw [joinBy, if_neg hne]
  dsimp only
  cases hrun : (WorkList.loop joinKey (joinAsk ask) fuel targets [] none).2 with
  | running => exact absurd hrun hend
  | stopped b =>
    obtain ⟨addr, rfl⟩ := h.stopped hrun
    refine ⟨by simp [joinEnd], hcontacted ▸ hnodup, ?_, fun hno => absurd ⟨addr, rfl⟩ hno⟩
    exact ⟨fun _ => .inr (hfound.mp ⟨_, hrun⟩), fun _ => ⟨addr, rfl⟩⟩
  | exhausted e =>
    have hnone : ¬ ∃ b, (WorkList.loop joinKey (joinAsk ask) fuel targets [] none).2 =
        .stopped b := by simp [hrun]
    refine ⟨by simp [joinEnd], hcontacted ▸ hnodup, ?_, fun _ hsome => ?_⟩
    · constructor
      · rintro ⟨addr, haddr⟩
        cases haddr
      · rintro (hnil | hreach)
        · exact absurd hnil hne
        · exact absurd (hfound.mpr hreach) hnone
    · rcases WorkList.loop_last hrun with ⟨hnil, -⟩ | ⟨a, next, err, hlast, hask, rfl⟩
      · rw [hnil] at hsome
        exact absurd rfl hsome
      · rw [joinAsk] at hask
        cases hans : ask (trimSpace a) with
        | joined hint =>
          rw [hans] at hask
          cases hask
        | panicked =>
          rw [hans] at hask
          cases hask
        | refused hint err' =>
          rw [hans, WorkList.Answer.miss.injEq] at hask
          refine ⟨trimSpace a, hint, err', ?_, hans, ?_⟩
          · rw [List.getLast?_map, hlast]
            rfl
          · rw [hask.2]
            rfl

end Fixed

/-- **JOIN IS A COMPLETE SEARCH THAT ASKS EACH NODE ONCE**: for all targets, and
    answers that are fixed by the normalised addresses with finitely many hints, it
    ends; no normalised address is contacted twice; without targets it succeeds, and
    with some it succeeds iff an address accepts that is reached from them along the
    hints; and if it fails with an address contacted, the error is that of the last.
    This is `join` as it is run with any network that gives these answers to what is
    contacted: its requests are those of `joinOnce`, address by address. -/
theorem join_is_complete_search {ask : Bytes → Answer} {resp : Bytes → Verdict}
    (hfixed : FixedBy ask resp) (hfinite : {h | ∃ a, resp a = .reject (some h)}.Finite)
    (targets : List Bytes) :
    ∃ turns, ∀ fuel, turns ≤ fuel → Searched ask resp targets (joinBy ask fuel targets) ∧
      ∀ (_ : UnicodeTables) (U : UrlPackage) (net : Net) (nodeID raftAddr : Bytes),
        (∀ t ∈ (joinBy ask fuel targets).1, (joinOnce U net nodeID raftAddr t).2 = ask t) →
        join U net fuel nodeID raftAddr targets =
          ((joinBy ask fuel targets).1.flatMap fun t => (joinOnce U net nodeID raftAddr t).1,
            (joinBy ask fuel targets).2) := by
  obtain ⟨U, hU, hclosed⟩ := finite_addresses hfinite targets
  refine ⟨targets.length + U.card, fun fuel hfuel => ⟨?_, fun _ V net nodeID raftAddr hask =>
    join_eq_joinBy V net nodeID raftAddr fuel targets hask⟩⟩
  by_cases hne : targets = []
  · subst hne
    refine ⟨by simp [joinBy], by simp [joinBy], ?_, fun hno => absurd ⟨none, rfl⟩ hno⟩
    exact ⟨fun _ => .inl rfl, fun _ => ⟨none, rfl⟩⟩
  -- a turn takes a target off the queue or an address out of the unseen ones
  · refine searched_loop hfixed hne (WorkList.loop_ends hfixed.responds hU hclosed ?_)
    exact (Nat.add_le_add_left (Finset.card_filter_le U _) _).trans hfuel

/-- Two addresses that reject and hint at each other; any other accepts. -/
def cycleResp (addr : Bytes) : Verdict :=
  if addr = ascii "a" then .reject (some (ascii "b"))
  else if addr = ascii "b" then .reject (some (ascii "a"))
  else .accept

/-- What `joinOnce` makes of such answers. -/
def cycleAsk (target : Bytes) : Answer :=
  match cycleResp (normalizeJoinAddr target) with
  | .accept => .joined (trimSpace target)
  | .reject hint => .refused (hint.getD []) (.rejected target 403 [])

/-- A network that gives them. -/
def cycleNet : Net where
  joinServer := fun _ => none
  other := fun _ u =>
    match cycleResp u.host with
    | .accept => some ⟨200, [], [], ascii "ok"⟩
    | .reject hint => some ⟨403, hint.getD [], [], []⟩

theorem cycleAsk_fixed : FixedBy cycleAsk cycleResp where
  accept := fun target h => ⟨_, by rw [cycleAsk, h]⟩
  reject := fun target hint h => ⟨_, by rw [cycleAsk, h]⟩

theorem cycleResp_finite : {h | ∃ a, cycleResp a = .reject (some h)}.Finite := by
  refine (Set.toFinite {ascii "a", ascii "b"}).subset ?_
  rintro h ⟨addr, haddr⟩
  rw [cycleResp] at haddr
  split at haddr
  · cases haddr
    exact .inr rfl
  · split at haddr
    · cases haddr
      exact .inl rfl
    · cases haddr

/-- A target that hints at an address that hints back at it, the target once more, a
    blank one, and one that accepts: three addresses are asked, each once. -/
theorem join_is_complete_search_cycle :
    letI : UnicodeTables := ⟨id, id, id, fun _ => false⟩
    let targets := [ascii " http://a/ ", ascii "a", ascii " ", ascii "c"]
    FixedBy cycleAsk cycleResp ∧ {h | ∃ a, cycleResp a = .reject (some h)}.Finite ∧
    ∃ turns, ∀ fuel, turns ≤ fuel →
      Searched cycleAsk cycleResp targets (joinBy cycleAsk fuel targets) ∧
      join bareUrls cycleNet fuel (ascii "node3") (ascii "127.0.0.1:7002") targets =
        ([joinUrl (ascii "a"), joinUrl (ascii "b"), joinUrl (ascii "c")],
          .joined (some (ascii "c"))) := by
  intro targets
  let tables : UnicodeTables := ⟨id, id, id, fun _ => false⟩
  obtain ⟨turns, hturns⟩ := join_is_complete_search cycleAsk_fixed cycleResp_finite targets
  refine ⟨cycleAsk_fixed, cycleResp_finite, turns + 5, fun fuel hfuel => ?_⟩
  obtain ⟨hsearched, hjoin⟩ := hturns fuel (by omega)
  obtain ⟨rest, rfl⟩ : ∃ rest, fuel = rest + 5 := ⟨fuel - 5, by omega⟩
  have hby : joinBy cycleAsk (rest + 5) targets =
      ([ascii "http://a/", ascii "b", ascii "c"], .joined (some (ascii "c"))) := rfl
  refine ⟨hsearched, ?_⟩
  rw [hjoin tables bareUrls cycleNet (ascii "node3") (ascii "127.0.0.1:7002") ?_, hby]
  · rfl
  · rw [hby]
    simp only [List.forall_mem_cons, List.not_mem_nil, false_imp_iff, implies_true, and_true]
    exact ⟨rfl, rfl, rfl⟩

/-- Without targets `join` succeeds and requests nothing, though no address accepts. -/
theorem join_without_targets :
    letI : UnicodeTables := ⟨id, id, id, fun _ => false⟩
    join bareUrls ⟨fun _ => none, fun _ _ => some ⟨403, [], [], []⟩⟩ 1 (ascii "node3")
        (ascii "127.0.0.1:7002") [] = ([], .joined none) ∧
      ¬ ∃ a, Reachable (fun _ => .reject none) [] a ∧
        (fun _ : Bytes => Verdict.reject none) a = .accept := by
  refine ⟨rfl, ?_⟩
  rintro ⟨a, -, hacc⟩
  cases hacc

end TinyJoin
