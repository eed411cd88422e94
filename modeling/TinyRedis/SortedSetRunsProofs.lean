import TinyRedis.GrowthProofs

/-! # Sorted sets stay sets

    ZADD, ZINCRBY and ZREM on one key, one after the other.  As long as no NaN
    becomes a score, the set at the key keeps the representation invariant, so
    every member has one node: ZRANGE names none twice, ZCARD counts them, and
    after ZREM there is no node left for a member it was given.

    A NaN is equal to nothing, itself included.  `deleteNode` does not find the
    node of a member with that score; the member then gets a second one, and
    ZREM counts a node that stays. -/

namespace TinyZSet

open GoString GoFloat LinkedChain

variable {F : Type} [Float64 F]

omit [Float64 F] in
/-- A search ends on the level it has come down to. -/
theorem Towers.search_mem {z : ZSet F} {ps : List Nat} (h : Towers z ps)
    (adv : ZSetNode F → Int → Bool) : ∀ (l : Nat) {cur : Nat} (r : Int),
      cur ∈ header :: onLevel z l ps → ∀ i, i < l →
        (z.search adv l cur r i).1 ∈ header :: onLevel z i ps := by
  intro l
  induction l with
  | zero => exact fun _ _ i hi => absurd hi (Nat.not_lt_zero i)
  | succ l ih =>
    intro cur r hcur i hi
    have hlow : cur ∈ header :: onLevel z l ps := by
      rcases List.mem_cons.mp hcur with rfl | hcur
      · exact List.mem_cons_self
      · obtain ⟨hp, hlt⟩ := mem_onLevel.mp hcur
        exact List.mem_cons_of_mem _ (mem_onLevel.mpr ⟨hp, by omega⟩)
    have hwalk : (z.walkLevel adv l cur r).1 ∈ header :: onLevel z l ps := by
      refine walk_closed (I := fun p => p ∈ header :: onLevel z l ps) ?_ z.fresh hlow r
      intro p q hp hq
      exact List.mem_cons_of_mem _ ((h.chains l).next_mem hp hq)
    rw [ZSet.search]
    dsimp only
    by_cases hil : i = l
    · rw [if_pos hil, hil]
      exact hwalk
    · rw [if_neg hil]
      exact ih _ hwalk i (by omega)

/-- **`Range` reads along the chain**: whatever the spans are, it names some of
    the nodes, each once and in order. -/
theorem Repr.range_sublist {z : ZSet F} {ps : List Nat} (h : Repr z ps) (start stop : Int) :
    (z.range start stop).Sublist ps := by
  unfold ZSet.range
  cases ZSet.normalise z.length start stop with
  | none => exact List.nil_sublist ps
  | some r =>
    obtain ⟨a, b⟩ := r
    dsimp only
    have hend := h.towers.search_mem (fun _ r => decide (r ≤ a)) z.level 0
      (List.mem_cons_self (a := header)) 0 h.level_pos
    rw [h.towers.onLevel_zero (List.Subset.refl ps)] at hend
    obtain ⟨R, hchain, hsub⟩ := h.chain_zero.rest_of_mem hend
    have hfuel : R.length ≤ z.fresh := le_trans hsub.length_le h.towers.length_le_fresh
    rw [nodesFrom_chain hchain hfuel]
    exact (List.take_sublist _ R).trans hsub

end TinyZSet

namespace TinyDb

open GoString GoFloat GoProgram GoProgram.Prog TinyResp TinyZSet

variable {F : Type}

/-- The sorted set at a key, or a new one. -/
def Store.zsetAt [Float64 F] (s : Store F) (key : Bytes) : ZSet F := (s.get .zset key).orNew newZSet

/-- The key holds nothing, or a sorted set that satisfies the invariant; it has
    no deadline. -/
structure Store.SortedAt [Float64 F] (s : Store F) (key : Bytes) : Prop where
  typed : s.get .zset key ≠ .wrongType
  repr : ∃ ps, Repr (s.zsetAt key) ps
  lasting : s.ttl.lookup key = none

section SortedAt

variable [Float64 F] {s : Store F} {key : Bytes}

theorem Store.SortedAt.not_due (h : s.SortedAt key) (now : Int) : ¬ s.Due key now := by
  rintro ⟨d, hd, _⟩
  rw [h.lasting] at hd
  cases hd

theorem Store.zsetAt_of_lookup {z : ZSet F} (hdb : s.db.lookup key = some ⟨.zset, z⟩) :
    s.zsetAt key = z := by
  unfold Store.zsetAt
  rw [Store.get_eq_found.mpr hdb]
  rfl

/-- A set stored at the key. -/
theorem Store.SortedAt.of_lookup {z : ZSet F} {ps : List Nat}
    (hdb : s.db.lookup key = some ⟨.zset, z⟩) (hrep : Repr z ps) (httl : s.ttl.lookup key = none) :
    s.SortedAt key := by
  refine ⟨?_, ⟨ps, ?_⟩, httl⟩
  · rw [Store.get_eq_found.mpr hdb]
    intro h
    cases h
  · rw [Store.zsetAt_of_lookup hdb]
    exact hrep

theorem Store.SortedAt.of_absent (hdb : s.db.lookup key = none) (httl : s.ttl.lookup key = none) :
    s.SortedAt key := by
  have hget : s.get .zset key = .absent := Store.get_eq_absent.mpr hdb
  refine ⟨?_, ⟨[], ?_⟩, httl⟩
  · rw [hget]
    intro h
    cases h
  · unfold Store.zsetAt
    rw [hget]
    exact newZSet_repr

end SortedAt

/-! ## One command -/

section Commands

variable [FloatText F]

/-- Pairs with numbers for scores keep the invariant. -/
theorem addPairs_repr (env : Env) (pairs : List (Bytes × F)) : ∀ (d : Nat) {z : ZSet F}
    {ps : List Nat}, Repr z ps → (∀ p ∈ pairs, IsNum p.2) →
      ∃ ps', Repr (addPairs env.level pairs d z).1 ps' := by
  induction pairs with
  | nil => exact fun _ {_ ps} h _ => ⟨ps, h⟩
  | cons pair rest ih =>
    intro d z ps h hnum
    obtain ⟨ps', h'⟩ := h.add (hnum pair List.mem_cons_self) (env.level_range d)
    exact ih (d + 1) h' fun p hp => hnum p (List.mem_cons_of_mem pair hp)

/-- The frame of ZADD and ZINCRBY. -/
theorem sortedAt_creating {env : Env} {w : World F} {key : Bytes} {β : Type}
    {P : Except Abort β × Store F → Prop} {f : Found (ZSet F) → Cmd F sortedWrites β}
    (hset : w.store.SortedAt key)
    (hbody : ∀ w' : World F, w'.store.db.lookup key = some ⟨.zset, w.store.zsetAt key⟩ →
      w'.store.ttl = w.store.ttl → P (outcome env (f (.found (w.store.zsetAt key))) w')) :
    P (outcome env (checkTTL key >>= fun _ => withLock key (getOrCreateZSet key >>= f)) w) := by
  have hchecked := Store.checked_of_not_due (hset.not_due (env.clock w.tick))
  have htype : (w.store.checked key (env.clock w.tick)).get .zset key ≠ .wrongType := by
    rw [hchecked]
    exact hset.typed
  have hobj : ((w.store.checked key (env.clock w.tick)).get .zset key).orNew newZSet =
      w.store.zsetAt key := by
    rw [hchecked]
    rfl
  refine outcome_creatingZSet htype hobj ?_
  rw [hchecked]
  exact hbody

/-- The set that has been written back. -/
theorem Store.SortedAt.update {s s' : Store F} {key : Bytes} {z z' : ZSet F} {ps : List Nat}
    (hset : s.SortedAt key) (hdb : s'.db.lookup key = some ⟨.zset, z⟩) (httl : s'.ttl = s.ttl)
    (hrep : Repr z' ps) : (s'.update key ⟨.zset, z'⟩).SortedAt key := by
  refine Store.SortedAt.of_lookup (by simp [hdb]) hrep ?_
  rw [Store.update_ttl, httl]
  exact hset.lasting

variable [UnicodeTables] {env : Env} {w : World F} {name key incr member : Option Bytes}
  {args : List (Option Bytes)}

theorem zAddZset_sortedAt (hname : toLower (str name) = ascii "zadd") (hargs : args ≠ [])
    (heven : args.length % 2 = 0) (hnum : ∀ p ∈ (scorePairs args).1, IsNum (p.2 : F))
    (hset : w.store.SortedAt (str key)) :
    (outcome env (zAddZset (name :: key :: args) : Cmd F _ _) w).2.SortedAt (str key) := by
  have hdrop : (name :: key :: args).drop 2 = args := rfl
  obtain ⟨ps, hrep⟩ := hset.repr
  rw [zAddZset, named_cons hname, if_neg (zAdd_length hargs heven), strAt_bind rfl]
  refine sortedAt_creating (P := fun x => x.2.SortedAt (str key)) hset fun w' hdb httl => ?_
  obtain ⟨w'', hrun, hstore⟩ := zAddLoop_eq env args (w.store.zsetAt (str key)) 0 w' heven
  obtain ⟨ps', hrep'⟩ := addPairs_repr env (scorePairs args).1 w'.draws hrep hnum
  rw [← hstore] at hdb httl
  have hdone := hset.update hdb httl hrep'
  dsimp only
  rw [hdrop, outcome_bind hrun, updateZSet, op_bind, outcome_op, ret_bind]
  dsimp only
  split
  · exact hdone
  · exact hdone

theorem zIncrByZset_sortedAt {d : F} (hname : toLower (str name) = ascii "zincrby")
    (hincr : FloatText.parse (str incr) = some d)
    (hnum : IsNum ((w.store.zsetAt (str key)).incremented (str member) d))
    (hset : w.store.SortedAt (str key)) :
    (outcome env (zIncrByZset [name, key, incr, member] : Cmd F _ _) w).2.SortedAt (str key) := by
  obtain ⟨ps, hrep⟩ := hset.repr
  have hlen : decide ([name, key, incr, member].length = 4) = true := rfl
  rw [zIncrByZset, zNamed_eq (List.cons_ne_nil _ _) hname hlen, strAt_bind rfl, strAt_bind rfl,
    hincr]
  dsimp only
  rw [strAt_bind rfl]
  refine sortedAt_creating (P := fun x => x.2.SortedAt (str key)) hset fun w' hdb httl => ?_
  obtain ⟨ps', hrep'⟩ := hrep.incrBy hnum (env.level_range w'.draws)
  exact hset.update hdb httl hrep'

theorem zRemZset_sortedAt (hname : toLower (str name) = ascii "zrem") (hargs : args ≠ [])
    (hset : w.store.SortedAt (str key)) :
    (outcome env (zRemZset (name :: key :: args) : Cmd F _ _) w).2.SortedAt (str key) ∧
      (outcome env (zRemZset (name :: key :: args) : Cmd F _ _) w).2.zsetAt (str key) =
        ((w.store.zsetAt (str key)).removeAll (args.map str)).1 := by
  have hlen : decide ((name :: key :: args).length ≥ 3) = true := by
    have hpos := List.length_pos_iff.mpr hargs
    simp only [List.length_cons]
    exact decide_eq_true (by omega)
  have hdrop : (name :: key :: args).drop 2 = args := rfl
  obtain ⟨ps, hrep⟩ := hset.repr
  rw [zRemZset, zNamed_eq (List.cons_ne_nil _ _) hname hlen, strAt_bind rfl,
    outcome_checkTTL (hset.not_due _), if_neg (by decide), hdrop, removingFrom, withLock,
    outcome_withLocks, getZSet, op_bind, outcome_op, Op.step_get, ret_bind]
  dsimp only
  cases hget : w.store.get .zset (str key) with
  | wrongType => exact absurd hget hset.typed
  | absent =>
    have hnew : w.store.zsetAt (str key) = newZSet := by
      unfold Store.zsetAt
      rw [hget]
      rfl
    refine ⟨hset, ?_⟩
    rw [hnew, removeAll_of_empty fun _ => rfl]
    exact hnew
  | found zset =>
    have hdb := Store.get_eq_found.mp hget
    have hfound : w.store.zsetAt (str key) = zset := Store.zsetAt_of_lookup hdb
    rw [hfound] at hrep ⊢
    have hdone := hset.update hdb rfl (hrep.removeAll (args.map str)).1
    exact ⟨hdone, Store.zsetAt_of_lookup (by simp [hdb])⟩

/-! ## Runs -/

/-- A command of the run on `key`, every score text of which parses, and what
    must hold of the set before it for no NaN to become a score. -/
inductive Scoring (F : Type) [FloatText F] : Command → Bytes → (ZSet F → Prop) → Prop
  | zadd {name key : Option Bytes} {args : List (Option Bytes)}
      (hname : toLower (str name) = ascii "zadd") (hargs : args ≠ [])
      (heven : args.length % 2 = 0)
      (hscores : (scorePairs args : List (Bytes × F) × Bool).2 = false) :
      Scoring F (name :: key :: args) (str key) fun _ => ∀ p ∈ (scorePairs args).1, IsNum (p.2 : F)
  | zincrby {name key incr member : Option Bytes} {d : F}
      (hname : toLower (str name) = ascii "zincrby")
      (hincr : FloatText.parse (str incr) = some d) :
      Scoring F [name, key, incr, member] (str key) fun z => IsNum (z.incremented (str member) d)
  | zrem {name key : Option Bytes} {args : List (Option Bytes)}
      (hname : toLower (str name) = ascii "zrem") (hargs : args ≠ []) :
      Scoring F (name :: key :: args) (str key) fun _ => True

/-- A run of such commands in which no NaN becomes a score. -/
def NumericRun (host : Host) (env : Env) (key : Bytes) : World F → List Command → Prop
  | _, [] => True
  | w, cmd :: cmds => (∃ C, Scoring F cmd key C ∧ C (w.store.zsetAt key)) ∧
      NumericRun host env key (execCommand host env cmd w).2 cmds

/-- One command of the run. -/
theorem Store.SortedAt.exec {host : Host} {cmd : Command} {key : Bytes} {C : ZSet F → Prop}
    (hcmd : Scoring F cmd key C) (hC : C (w.store.zsetAt key)) (hset : w.store.SortedAt key) :
    (execCommand host env cmd w).2.store.SortedAt key := by
  cases hcmd with
  | zadd hname hargs heven hscores =>
    have hmem : Registered F host "zadd" zAddZset := by simp [Registered, cmdTable]
    rw [exec_store hmem (List.cons_ne_nil _ _) hname]
    exact zAddZset_sortedAt hname hargs heven hC hset
  | zincrby hname hincr =>
    have hmem : Registered F host "zincrby" zIncrByZset := by simp [Registered, cmdTable]
    rw [exec_store hmem (List.cons_ne_nil _ _) hname]
    exact zIncrByZset_sortedAt hname hincr hC hset
  | zrem hname hargs =>
    have hmem : Registered F host "zrem" zRemZset := by simp [Registered, cmdTable]
    rw [exec_store hmem (List.cons_ne_nil _ _) hname]
    exact (zRemZset_sortedAt hname hargs hset).1

/-- **Every run** in which no NaN becomes a score. -/
theorem Store.SortedAt.run {host : Host} {key : Bytes} (cmds : List Command) :
    ∀ {w : World F}, w.store.SortedAt key → NumericRun host env key w cmds →
      (execAll host env cmds w).store.SortedAt key := by
  induction cmds with
  | nil => exact fun h _ => h
  | cons cmd cmds ih =>
    rintro w h ⟨⟨C, hcmd, hC⟩, hrest⟩
    exact ih (h.exec hcmd hC) hrest

/-! ## What the readers see -/

/-- **The sorted set at a key is a set**: ZRANGE 0 -1 names no member twice,
    ZCARD replies with the number of the members, and ZREM leaves no node for a
    member it is given. -/
structure StaysSet (host : Host) (env : Env) (w : World F) (key : Option Bytes) : Prop where
  once : ∀ name, toLower (str name) = ascii "zrange" → ∃ ms : List Bytes, ms.Nodup ∧
    ((execCommand host env [name, key, some (ascii "0"), some (ascii "-1")] w).1 =
        .ok (bulksReply (ms.map some)) ∨
      ms = [] ∧ (execCommand host env [name, key, some (ascii "0"), some (ascii "-1")] w).1 =
        .ok emptyArrayReply)
  card : ∀ name, toLower (str name) = ascii "zcard" →
    (execCommand host env [name, key] w).1 =
      .ok (intReply (Set.ncard {m | ((w.store.zsetAt (str key)).dict m).isSome = true}))
  removed : ∀ name args, toLower (str name) = ascii "zrem" → args ≠ [] →
    ∀ m ∈ args.map str,
      ∀ p ∈ ((execCommand host env (name :: key :: args) w).2.store.zsetAt (str key)).nodes,
        (((execCommand host env (name :: key :: args) w).2.store.zsetAt (str key)).mem p).member ≠ m

omit [UnicodeTables] in
/-- The length of a set is the number of its members. -/
theorem ncard_members {z : ZSet F} {ps : List Nat} (h : Repr z ps) :
    (Set.ncard {m | (z.dict m).isSome = true} : Int) = z.length := by
  have hset : {m | (z.dict m).isSome = true} =
      ((ps.map fun p => (z.mem p).member).toFinset : Set Bytes) := by
    ext m
    rw [Finset.mem_coe, List.mem_toFinset, List.mem_map, Set.mem_ofPred_eq,
      Option.isSome_iff_exists]
    constructor
    · rintro ⟨s, hs⟩
      obtain ⟨p, hp, hm, _⟩ := (h.dict m s).mp hs
      exact ⟨p, hp, hm⟩
    · rintro ⟨p, hp, hm⟩
      exact ⟨_, (h.dict m _).mpr ⟨p, hp, hm, rfl⟩⟩
  rw [hset, Set.ncard_coe_finset, List.toFinset_card_of_nodup h.members_nodup, List.length_map,
    h.length]

/-- ZCARD. -/
theorem zCardZset_reply (hname : toLower (str name) = ascii "zcard")
    (hset : w.store.SortedAt (str key)) :
    (outcome env (zCardZset [name, key] : Cmd F _ _) w).1 =
      .ok (intReply (w.store.zsetAt (str key)).length) := by
  have hlen : decide ([name, key].length = 2) = true := rfl
  rw [zCardZset, zNamed_eq (List.cons_ne_nil _ _) hname hlen, strAt_bind rfl]
  unfold Store.zsetAt
  cases hget : w.store.get .zset (str key) with
  | wrongType => exact absurd hget hset.typed
  | absent =>
    have hlive : w.store.live (env.clock w.tick) (str key) = none :=
      Store.live_eq_none.mpr (.inr (Store.get_eq_absent.mp hget))
    rw [outcome_reading_missing hlive]
    rfl
  | found zset =>
    rw [outcome_reading_found (hset.not_due _) hget]
    rfl

/-- ZRANGE 0 -1, up to the lookup. -/
theorem outcome_zRangeZset (hname : toLower (str name) = ascii "zrange")
    (hdue : ¬ w.store.Due (str key) (env.clock w.tick)) :
    outcome env (zRangeZset [name, key, some (ascii "0"), some (ascii "-1")] : Cmd F _ _) w =
      outcome env (lookingUp .zset (str key) emptyArrayReply fun zset : ZSet F =>
        return nodesReply zset false (zset.range 0 (-1))) ⟨w.store, w.tick + 1, w.draws⟩ := by
  have hlen : decide ([name, key, some (ascii "0"), some (ascii "-1")].length ≥ 4) = true := rfl
  have hargs : rankArgs (str (some (ascii "0"))) (str (some (ascii "-1"))) = .ok (0, -1) := rfl
  have hfour : ¬ [name, key, some (ascii "0"), some (ascii "-1")].length = 5 := by simp
  have hplain : decide (toLower ([] : Bytes) = ascii "withscores") = false := rfl
  rw [zRangeZset, zNamed_eq (List.cons_ne_nil _ _) hname hlen, rangeWith, strAt_bind rfl,
    outcome_checkTTL hdue, if_neg (by decide), strAt_bind rfl, strAt_bind rfl, hargs]
  dsimp only
  rw [if_neg hfour, pure_eq, ret_bind, hplain]

/-- The members in the order of `Range(0, -1)`. -/
def Store.rangeNames (s : Store F) (key : Bytes) : List Bytes :=
  ((s.zsetAt key).range 0 (-1)).map fun p => ((s.zsetAt key).mem p).member

/-- ZRANGE 0 -1 of a set that is there. -/
theorem zRangeZset_found (hname : toLower (str name) = ascii "zrange")
    (hdue : ¬ w.store.Due (str key) (env.clock w.tick))
    (hkind : (w.store.db.lookup (str key)).map Value.kind = some .zset) :
    (outcome env (zRangeZset [name, key, some (ascii "0"), some (ascii "-1")] : Cmd F _ _) w).1 =
      .ok (bulksReply ((w.store.rangeNames (str key)).map some)) := by
  obtain ⟨⟨kind, zset⟩, hdb, rfl⟩ := Option.map_eq_some_iff.mp hkind
  unfold Store.rangeNames
  rw [Store.zsetAt_of_lookup hdb, outcome_zRangeZset hname hdue,
    outcome_lookingUp, Store.get_eq_found.mpr hdb,
    List.map_map, List.map_eq_flatMap]
  rfl

/-- ZRANGE 0 -1 names no member twice. -/
theorem zRangeZset_nodup (hname : toLower (str name) = ascii "zrange")
    (hset : w.store.SortedAt (str key)) :
    ∃ ms : List Bytes, ms.Nodup ∧
      ((outcome env (zRangeZset [name, key, some (ascii "0"), some (ascii "-1")] : Cmd F _ _) w).1 =
        .ok (bulksReply (ms.map some)) ∨
      ms = [] ∧ (outcome env (zRangeZset [name, key, some (ascii "0"), some (ascii "-1")] :
        Cmd F _ _) w).1 = .ok emptyArrayReply) := by
  obtain ⟨ps, hrep⟩ := hset.repr
  cases hget : w.store.get .zset (str key) with
  | wrongType => exact absurd hget hset.typed
  | absent =>
    refine ⟨[], List.nodup_nil, .inr ⟨rfl, ?_⟩⟩
    rw [outcome_zRangeZset hname (hset.not_due _),
      outcome_lookingUp, hget]
  | found zset =>
    have hkind : (w.store.db.lookup (str key)).map Value.kind = some .zset := by
      rw [Store.get_eq_found.mp hget]
      rfl
    exact ⟨w.store.rangeNames (str key),
      hrep.members_nodup.sublist ((hrep.range_sublist 0 (-1)).map _),
      .inl (zRangeZset_found hname (hset.not_due _) hkind)⟩

/-- **SORTED SETS STAY SETS WHILE NO NaN BECOMES A SCORE**: after every sequence of
    ZADD, ZINCRBY and ZREM on a key that was absent, with any score texts that
    parse. -/
theorem sorted_sets_stay_sets {host : Host} (cmds : List Command)
    (hdb : w.store.db.lookup (str key) = none) (httl : w.store.ttl.lookup (str key) = none)
    (hrun : NumericRun host env (str key) w cmds) :
    StaysSet host env (execAll host env cmds w) key := by
  have hset := (Store.SortedAt.of_absent hdb httl).run cmds hrun
  generalize execAll host env cmds w = w' at hset ⊢
  obtain ⟨ps, hrep⟩ := hset.repr
  have hzrange : Registered F host "zrange" zRangeZset := by simp [Registered, cmdTable]
  have hzcard : Registered F host "zcard" zCardZset := by simp [Registered, cmdTable]
  have hzrem : Registered F host "zrem" zRemZset := by simp [Registered, cmdTable]
  refine ⟨fun name hname => ?_, fun name hname => ?_, fun name args hname hargs m hm p hp => ?_⟩
  · rw [exec_reply hzrange (List.cons_ne_nil _ _) hname]
    exact zRangeZset_nodup hname hset
  · rw [exec_reply hzcard (List.cons_ne_nil _ _) hname, ncard_members hrep]
    exact zCardZset_reply hname hset
  · rw [exec_store hzrem (List.cons_ne_nil _ _) hname,
      (zRemZset_sortedAt hname hargs hset).2] at hp ⊢
    obtain ⟨hrep', hlabels⟩ := hrep.removeAll (args.map str)
    rw [hrep'.nodes_eq] at hp
    rw [(hlabels _ p hp).1]
    exact fun he => of_decide_eq_true (List.mem_filter.mp hp).2 (he ▸ hm)

end Commands

/-- Two members, one of which moves up, and then goes. -/
theorem sorted_sets_stay_sets_three :
    letI := asciiTables
    StaysSet quietHost stillEnv (execAll quietHost stillEnv
      [words ["ZADD", "k", "1", "a", "2", "b"], words ["ZINCRBY", "k", "5", "a"],
        words ["ZREM", "k", "a"]]
      (emptyWorld : World IntScore)) (some (ascii "k")) := by
  let _ := asciiTables
  refine sorted_sets_stay_sets _ rfl rfl ⟨⟨_, .zadd (by decide) (by simp) rfl rfl, ?_⟩,
    ⟨_, .zincrby (d := some 5) (by decide) rfl, ?_⟩,
    ⟨_, .zrem (by decide) (by simp), trivial⟩, trivial⟩
  · intro p hp
    have hp : p ∈ [(ascii "a", (some 1 : IntScore)), (ascii "b", some 2)] := hp
    simp only [List.mem_cons, List.not_mem_nil, or_false] at hp
    rcases hp with rfl | rfl
    · exact ⟨(1 : Int), rfl⟩
    · exact ⟨(2 : Int), rfl⟩
  · exact Option.isSome_iff_exists.mp (by decide +kernel)

/-- `ZADD k nan a` twice: ZRANGE names `a` two times, ZCARD says 2, and after a
    ZREM that counts `a` both nodes are still there. -/
theorem zadd_nan_twice :
    letI := asciiTables
    let w : World IntScore := execAll quietHost stillEnv
      [words ["ZADD", "k", "nan", "a"], words ["ZADD", "k", "nan", "a"]] emptyWorld
    let r := execStill (words ["ZREM", "k", "a"]) w
    (execStill (words ["ZRANGE", "k", "0", "-1"]) w).1 =
        .ok (bulksReply (words ["a", "a"])) ∧
      (execStill (words ["ZCARD", "k"]) w).1 =
        .ok (intReply 2) ∧
      r.1 = .ok (intReply 1) ∧
      ((r.2.store.zsetAt (ascii "k")).nodes.map fun p =>
        ((r.2.store.zsetAt (ascii "k")).mem p).member) = [ascii "a", ascii "a"] := by
  let _ := asciiTables
  refine ⟨?_, rfl, rfl, by decide +kernel⟩
  have hmem : Registered IntScore quietHost "zrange" zRangeZset := by simp [Registered, cmdTable]
  have hnames : (execAll quietHost stillEnv
      [words ["ZADD", "k", "nan", "a"], words ["ZADD", "k", "nan", "a"]]
      (emptyWorld : World IntScore)).store.rangeNames (ascii "k") = [ascii "a", ascii "a"] := by
    decide +kernel
  refine (exec_reply hmem (List.cons_ne_nil _ _) (by decide)).trans ?_
  refine (zRangeZset_found (by decide) ?_ rfl).trans ?_
  · rintro ⟨d, hd, -⟩
    cases hd
  · exact congrArg (fun l : List Bytes => (Except.ok (bulksReply (l.map some)) :
      Except Abort Reply)) hnames

end TinyDb
