import TinyRedis.SetAlgebraProofs
import TinyRedis.ExpiryProofs
import TinyRedis.CommandTableProofs

/-! # SUNION, SINTER and SDIFF

    What the three commands reply, in terms of the store before.  They check the
    deadlines of their keys, collect the sets that are still there, and combine
    them; the reply lists the members of the result in some order.

    SUNION and SDIFF take a missing key for the empty set.  SINTER leaves it out,
    and panics when nothing is left. -/

namespace TinyDb

open GoString GoFloat GoProgram.Prog TinyResp

variable {F : Type} {checks : List (Bytes × Int)} {k : Bytes}

/-! ## Reading several sets -/

namespace Store

variable {s : Store F} {keys : List Bytes}

/-- What `getSets` collects when no key holds another type. -/
theorem setsAt_spec (h : ∀ k ∈ keys, s.get .set k ≠ .wrongType) :
    ∃ sets, s.setsAt keys = some sets ∧
      ∀ t, t ∈ sets ↔ ∃ k ∈ keys, s.get .set k = .found t := by
  induction keys with
  | nil => exact ⟨[], rfl, by simp⟩
  | cons key rest ih =>
    obtain ⟨hkey, hrest⟩ := List.forall_mem_cons.mp h
    obtain ⟨sets, hsets, hmem⟩ := ih hrest
    rw [setsAt]
    cases hget : s.get .set key with
    | absent => exact ⟨sets, hsets, fun t => by simp [hmem, hget]⟩
    | wrongType => exact absurd hget hkey
    | found set =>
      refine ⟨set :: sets, by rw [hsets]; rfl, fun t => ?_⟩
      simp [hmem, hget, eq_comm]

/-- What a run of checks leaves to be read at a key. -/
theorem get_checkAll (s : Store F) (checks : List (Bytes × Int)) (kind : Kind) (k : Bytes) :
    (s.Popped checks k → (s.checkAll checks).get kind k = .absent) ∧
      (¬ s.Popped checks k → (s.checkAll checks).get kind k = s.get kind k) := by
  rcases s.checkAll_lookup checks k with ⟨hpop, hdb, -⟩ | ⟨hpop, hdb, -⟩
  · exact ⟨fun _ => get_eq_absent.mpr hdb, fun h => absurd hpop h⟩
  · refine ⟨fun h => absurd h hpop, fun _ => ?_⟩
    rw [get, get, hdb]

/-- The set that a command which makes these checks finds at a key: the key has
    not expired and holds the set. -/
def SetAt (s : Store F) (checks : List (Bytes × Int)) (k : Bytes) (set : RedisSet) : Prop :=
  ¬ s.Popped checks k ∧ s.get .set k = .found set

/-- A key names a set, or is absent or expired. -/
def NamesSet (s : Store F) (checks : List (Bytes × Int)) (k : Bytes) : Prop :=
  s.Popped checks k ∨ s.get .set k ≠ .wrongType

theorem get_checkAll_eq_found {set : RedisSet} :
    (s.checkAll checks).get .set k = .found set ↔ s.SetAt checks k set := by
  by_cases hpop : s.Popped checks k
  · rw [(s.get_checkAll checks .set k).1 hpop]
    exact iff_of_false (fun h => by cases h) fun h => h.1 hpop
  · rw [(s.get_checkAll checks .set k).2 hpop]
    exact (and_iff_right hpop).symm

theorem NamesSet.get_checkAll
    (h : s.NamesSet checks k) : (s.checkAll checks).get .set k ≠ .wrongType := by
  by_cases hpop : s.Popped checks k
  · rw [(s.get_checkAll checks .set k).1 hpop]
    exact fun h => by cases h
  · rw [(s.get_checkAll checks .set k).2 hpop]
    exact h.resolve_left hpop

/-- The sets a command collects after its checks are those at its keys. -/
theorem setsAt_checkAll (h : ∀ k ∈ keys, s.NamesSet checks k) :
    ∃ sets, (s.checkAll checks).setsAt keys = some sets ∧
      ∀ t, t ∈ sets ↔ ∃ k ∈ keys, s.SetAt checks k t := by
  obtain ⟨sets, hsets, hmem⟩ := setsAt_spec fun k hk => (h k hk).get_checkAll
  exact ⟨sets, hsets, fun t => (hmem t).trans
    (exists_congr fun k => and_congr_right fun _ => get_checkAll_eq_found)⟩

/-- A string belongs to the set at a key; an absent or expired key has none. -/
def Has (s : Store F) (checks : List (Bytes × Int)) (k x : Bytes) : Prop :=
  ∃ set, s.SetAt checks k set ∧ set.has x = true

theorem SetAt.has_iff {k x : Bytes} {set : RedisSet} (h : s.SetAt checks k set) :
    s.Has checks k x ↔ set.has x = true := by
  refine ⟨?_, fun hx => ⟨set, h, hx⟩⟩
  rintro ⟨set', h', hx⟩
  have heq : set = set' := Found.found.inj (h.2.symm.trans h'.2)
  rwa [heq]

end Store

/-- The deferred release does not change what a body returns. -/
theorem run_withRLocks_fst {c : Caps} {α : Type} (env : Env) (keys : List Bytes) (body : Cmd F c α)
    (w : World F) :
    ((withRLocks keys body).run (Op.step env) w).1 =
      (body.run (Op.step env) ⟨w.store, w.tick + 1, w.draws⟩).1 := by
  simp only [withRLocks, run_op, Op.step_rLock, run_defer]
  rcases body.run (Op.step env) ⟨w.store, w.tick + 1, w.draws⟩ with ⟨(_ | _) | a, w'⟩ <;> rfl

/-- The keys reported by the checks of a command: arguments of it, and all those
    that have not expired. -/
theorem Store.mem_kept_checksFrom {s : Store F} {env : Env} {t : Nat} {args : List (Option Bytes)} :
    (∀ k ∈ s.kept (checksFrom env t args), k ∈ args.map str) ∧
      ∀ k ∈ args.map str, ¬ s.Popped (checksFrom env t args) k →
        k ∈ s.kept (checksFrom env t args) := by
  constructor
  · intro k hk
    obtain ⟨before, now, after, heq, -⟩ := mem_kept.mp hk
    rw [← map_fst_checksFrom env t args, heq]
    simp
  · intro k hk hpop
    obtain ⟨arg, harg, rfl⟩ := List.mem_map.mp hk
    obtain ⟨now, hmem⟩ := exists_mem_checksFrom.mpr ⟨arg, harg, rfl⟩
    exact (popped_or_mem_kept hmem).resolve_left hpop

/-! ## Replies that list a set -/

/-- A reply that lists, each once, exactly the strings with `P`; the null array
    lists none. -/
def Lists (reply : Reply) (P : Bytes → Prop) : Prop :=
  (reply = emptyArrayReply ∧ ∀ x, ¬ P x) ∨
    ∃ members : List Bytes, reply = bulksReply (members.map some) ∧ members.Nodup ∧
      ∀ x, x ∈ members ↔ P x

theorem Lists.congr {reply : Reply} {P Q : Bytes → Prop} (h : Lists reply P)
    (hPQ : ∀ x, P x ↔ Q x) : Lists reply Q := by
  rwa [← funext fun x => propext (hPQ x)]

/-- Two lists of one reply have the same strings. -/
theorem Lists.unique {reply : Reply} {P Q : Bytes → Prop} (hP : Lists reply P) (hQ : Lists reply Q)
    (x : Bytes) : P x ↔ Q x := by
  rcases hP with ⟨rfl, hP⟩ | ⟨ps, rfl, -, hP⟩
  · rcases hQ with ⟨-, hQ⟩ | ⟨qs, heq, -, hQ⟩
    · exact iff_of_false (hP x) (hQ x)
    · cases heq
  · rcases hQ with ⟨heq, hQ⟩ | ⟨qs, heq, -, hQ⟩
    · cases heq
    · have hbulks : (ps.map some).map RedisData.bulkData = (qs.map some).map RedisData.bulkData :=
        RedisData.arrayData.inj (Option.some.inj heq)
      have hsome : ps.map some = qs.map some :=
        List.map_injective_iff.mpr (fun a b h => RedisData.bulkData.inj h) hbulks
      have hmem : ps = qs := List.map_injective_iff.mpr (Option.some_injective _) hsome
      rw [← hP, ← hQ, hmem]

/-- The members of a set, in whatever order they are visited. -/
theorem lists_members (env : Env) (t : Nat) (set : RedisSet) :
    Lists (bulksReply ((env.order t set.table.keys).map some)) fun x => set.has x = true := by
  refine Or.inr ⟨_, rfl, ?_, fun x => ?_⟩
  · exact (env.order_perm t set.table.keys).nodup_iff.mpr set.table.keys_nodup
  · rw [(env.order_perm t set.table.keys).mem_iff]
    exact RedisSet.has_iff.symm

/-! ## The intersection -/

/-- The intersection of some sets has the members that all of them have, whichever
    is the shortest. -/
theorem intersectAll_spec {c : Caps} {sets : List RedisSet} (hne : sets ≠ []) :
    ∃ inter, (intersectAll sets : Cmd F c RedisSet) = .ret inter ∧ inter.Sized ∧
      ∀ x, inter.has x = true ↔ ∀ t ∈ sets, t.has x = true := by
  have hsome := mt shortest_eq_none.mp hne
  rw [intersectAll]
  generalize shortestLoop sets 0 0 (2 ^ 63 - 1) = i at hsome ⊢
  have hlt : i < sets.length := not_le.mp (mt List.getElem?_eq_none hsome)
  obtain ⟨hsized, hhas⟩ := (sets[i]).intersect_spec (sets.eraseIdx i)
  refine ⟨_, by rw [List.getElem?_eq_getElem hlt]; rfl, hsized, fun x => (hhas x).trans ?_⟩
  have hperm : (sets[i] :: sets.eraseIdx i).Perm sets := List.getElem_cons_eraseIdx_perm hlt
  simp only [hperm.mem_iff]

/-! ## What the commands reply -/

section Replies

variable [UnicodeTables]

/-- What SUNION replies: the strings in any of the sets. -/
theorem sUnionSet_replies (env : Env) {name : Option Bytes} {args : List (Option Bytes)}
    (hname : toLower (str name) = ascii "sunion") (hne : args ≠ []) (w : World F)
    (hsets : ∀ k ∈ args.map str, w.store.NamesSet (checksFrom env w.tick args) k) :
    ∃ reply, ((sUnionSet (name :: args)).run (Op.step env) w).1 = .ok reply ∧
      Lists reply fun x => ∃ k ∈ args.map str, w.store.Has (checksFrom env w.tick args) k x := by
  have hlen : ¬ (name :: args).length < 2 := by
    have := List.length_pos_of_ne_nil hne
    rw [List.length_cons]
    omega
  have hkept := @Store.mem_kept_checksFrom F w.store env w.tick args
  rw [sUnionSet, named_cons hname, if_neg hlen, List.tail_cons, run_bind, run_liveKeys]
  dsimp only
  generalize checksFrom env w.tick args = checks at hsets hkept ⊢
  obtain ⟨sets, hat, hmem⟩ := Store.setsAt_checkAll fun k hk => hsets k (hkept.1 k hk)
  have hhas : ∀ x, (∃ k ∈ args.map str, w.store.Has checks k x) ↔
      ∃ set ∈ sets, set.has x = true := by
    intro x
    constructor
    · rintro ⟨k, hk, set, hset, hx⟩
      exact ⟨set, (hmem set).mpr ⟨k, hkept.2 k hk hset.1, hset⟩, hx⟩
    · rintro ⟨set, hset, hx⟩
      obtain ⟨k, hk, hset⟩ := (hmem set).mp hset
      exact ⟨k, hkept.1 k hk, set, hset, hx⟩
  by_cases hnil : w.store.kept checks = []
  · rw [if_pos hnil]
    refine ⟨_, rfl, Or.inl ⟨rfl, ?_⟩⟩
    rintro x ⟨k, hk, set, hset, -⟩
    have hin := hkept.2 k hk hset.1
    rw [hnil] at hin
    exact absurd hin List.not_mem_nil
  · obtain ⟨t, hget⟩ := run_getSets (c := reads) env (w.store.kept checks)
      ⟨w.store.checkAll checks, w.tick + args.length + 1, w.draws⟩
    rw [if_neg hnil, run_withRLocks_fst, run_bind, hget]
    dsimp only
    rw [hat]
    cases sets with
    | nil => exact ⟨_, rfl, Or.inl ⟨rfl, fun x hx => by simpa using (hhas x).mp hx⟩⟩
    | cons set sets =>
      refine ⟨_, rfl, (lists_members env w.draws (set.union sets)).congr fun x => ?_⟩
      rw [hhas, (set.union_spec sets).2]

/-- What SDIFF replies: the strings in the first set and in none of the others. -/
theorem sDiffSet_replies (env : Env) {name first : Option Bytes} {rest : List (Option Bytes)}
    (hname : toLower (str name) = ascii "sdiff") (w : World F)
    (hsets : ∀ k ∈ (first :: rest).map str,
      w.store.NamesSet (checksFrom env w.tick (first :: rest)) k) :
    ∃ reply, ((sDiffSet (name :: first :: rest)).run (Op.step env) w).1 = .ok reply ∧
      Lists reply fun x => w.store.Has (checksFrom env w.tick (first :: rest)) (str first) x ∧
        ∀ k ∈ rest.map str, ¬ w.store.Has (checksFrom env w.tick (first :: rest)) k x := by
  have hlen : ¬ (name :: first :: rest).length < 2 := by simp
  rw [List.map_cons, List.forall_mem_cons] at hsets
  rw [sDiffSet, named_cons hname, if_neg hlen, List.tail_cons, run_bind, run_liveKeys]
  dsimp only
  generalize checksFrom env w.tick (first :: rest) = checks at hsets ⊢
  obtain ⟨sets, hat, hmem⟩ := Store.setsAt_checkAll hsets.2
  have hnone : ∀ x, (∀ set ∈ sets, set.has x = false) ↔
      ∀ k ∈ rest.map str, ¬ w.store.Has checks k x := by
    intro x
    simp only [hmem, ← Bool.not_eq_true]
    exact ⟨fun h k hk ⟨set, hset, hx⟩ => h set ⟨k, hk, hset⟩ hx,
      fun h set ⟨k, hk, hset⟩ hx => h k hk ⟨set, hset, hx⟩⟩
  rw [run_withRLocks_fst]
  simp only [strAt, List.getElem?_cons_succ, List.getElem?_cons_zero, ret_bind, get, op_bind,
    run_op, Op.step_get]
  cases hget : (w.store.checkAll checks).get .set (str first) with
  | wrongType => exact absurd hget hsets.1.get_checkAll
  | absent =>
    refine ⟨_, rfl, Or.inl ⟨rfl, ?_⟩⟩
    rintro x ⟨⟨set, hset, -⟩, -⟩
    cases hget.symm.trans (Store.get_checkAll_eq_found.mpr hset)
  | found prim =>
    have hprim : w.store.SetAt checks (str first) prim := Store.get_checkAll_eq_found.mp hget
    dsimp only
    by_cases hone : ((first :: rest).map str).length = 1
    · -- there are no other keys
      have hrest : rest = [] := by simpa using hone
      rw [if_pos hone]
      refine ⟨_, rfl, (lists_members env w.draws prim).congr fun x => ?_⟩
      simp [hprim.has_iff, hrest]
    · obtain ⟨t, hrun⟩ := run_getSets (c := reads) env (rest.map str)
        ⟨w.store.checkAll checks, w.tick + (first :: rest).length + 1 + 1, w.draws⟩
      rw [if_neg hone, List.map_cons, List.tail_cons, run_bind, hrun]
      dsimp only
      rw [hat]
      refine ⟨_, rfl, (lists_members env w.draws (prim.difference sets)).congr fun x => ?_⟩
      rw [(prim.difference_spec sets).2, hprim.has_iff, hnone]

/-- What SINTER replies: the strings in all the sets it finds, and a panic when
    it finds none. -/
theorem sInterSet_replies (env : Env) {name : Option Bytes} {args : List (Option Bytes)}
    (hname : toLower (str name) = ascii "sinter") (hne : args ≠ []) (w : World F)
    (hsets : ∀ k ∈ args.map str, w.store.NamesSet (checksFrom env w.tick args) k) :
    ((∃ k ∈ args.map str, ∃ set, w.store.SetAt (checksFrom env w.tick args) k set) →
      ∃ reply, ((sInterSet (name :: args)).run (Op.step env) w).1 = .ok reply ∧
        Lists reply fun x => ∀ k ∈ args.map str, ∀ set,
          w.store.SetAt (checksFrom env w.tick args) k set → set.has x = true) ∧
      ((¬ ∃ k ∈ args.map str, ∃ set, w.store.SetAt (checksFrom env w.tick args) k set) →
        ((sInterSet (name :: args)).run (Op.step env) w).1 = .error .panic) := by
  have hlen : ¬ (name :: args).length < 2 := by
    have := List.length_pos_of_ne_nil hne
    rw [List.length_cons]
    omega
  obtain ⟨sets, hat, hmem⟩ := Store.setsAt_checkAll hsets
  rw [sInterSet, named_cons hname, if_neg hlen, List.tail_cons, run_bind, run_liveKeys]
  dsimp only
  generalize w.store.checkAll (checksFrom env w.tick args) = s at hat ⊢
  obtain ⟨t, hget⟩ := run_getSets (c := reads) env (args.map str)
    ⟨s, w.tick + args.length + 1, w.draws⟩
  rw [run_withRLocks_fst, run_bind, hget]
  dsimp only
  rw [hat]
  dsimp only
  constructor
  · rintro ⟨k, hk, set, hset⟩
    have hsets : sets ≠ [] := List.ne_nil_of_mem ((hmem set).mpr ⟨k, hk, hset⟩)
    obtain ⟨inter, hinter, -, hhas⟩ := intersectAll_spec (F := F) (c := reads) hsets
    rw [hinter, ret_bind]
    refine ⟨_, rfl, (lists_members env w.draws inter).congr fun x => (hhas x).trans ?_⟩
    simp only [hmem]
    exact ⟨fun h k hk set hset => h set ⟨k, hk, hset⟩, fun h set ⟨k, hk, hset⟩ => h k hk set hset⟩
  · intro hnone
    have hnil : sets = [] := List.eq_nil_iff_forall_not_mem.mpr fun set hset => by
      obtain ⟨k, hk, hat⟩ := (hmem set).mp hset
      exact hnone ⟨k, hk, set, hat⟩
    rw [hnil]
    rfl

/-- **SINTER is intersection exactly when it skips nothing that matters.** On keys
    that name sets or are absent or expired, SINTER returns and lists the strings
    that belong to every named set, a missing one being empty, exactly when some
    named key holds a set, and either all do or those that do have no string in
    common. -/
theorem sinter_is_intersection_iff [FloatText F] (host : Host) (env : Env) (name : Option Bytes)
    (args : List (Option Bytes)) (w : World F) (hname : toLower (str name) = ascii "sinter")
    (hne : args ≠ [])
    (hsets : ∀ k ∈ args.map str, w.store.NamesSet (checksFrom env w.tick args) k) :
    (∃ reply, (execCommand host env (name :: args) w).1 = .ok reply ∧
        Lists reply fun x => ∀ k ∈ args.map str, w.store.Has (checksFrom env w.tick args) k x) ↔
      (∃ k ∈ args.map str, ∃ set, w.store.SetAt (checksFrom env w.tick args) k set) ∧
        ((∀ k ∈ args.map str, ∃ set, w.store.SetAt (checksFrom env w.tick args) k set) ∨
          ∀ x, ∃ k ∈ args.map str, ∃ set,
            w.store.SetAt (checksFrom env w.tick args) k set ∧ set.has x = false) := by
  obtain ⟨hsome, hnone⟩ := sInterSet_replies env hname hne w hsets
  have hmem : Registered F host "sinter" sInterSet := by simp [Registered, cmdTable]
  rw [execCommand_of_mem hmem (List.cons_ne_nil _ _) hname]
  dsimp only
  generalize checksFrom env w.tick args = checks at hsome hnone ⊢
  constructor
  · rintro ⟨reply, hreply, hlists⟩
    have hset : ∃ k ∈ args.map str, ∃ set, w.store.SetAt checks k set := by
      by_contra hset
      cases hreply.symm.trans (hnone hset)
    refine ⟨hset, or_iff_not_imp_left.mpr fun hall x => ?_⟩
    obtain ⟨reply', hreply', hlists'⟩ := hsome hset
    obtain rfl : reply = reply' := Except.ok.inj (hreply.symm.trans hreply')
    -- a key without a set has no string, so the reply lists none
    push Not at hall
    obtain ⟨k, hk, hmiss⟩ := hall
    have hempty := mt (hlists.unique hlists' x).mpr fun h => by
      obtain ⟨set, hset, -⟩ := h k hk
      exact hmiss set hset
    push Not at hempty
    obtain ⟨k', hk', set, hset, hx⟩ := hempty
    exact ⟨k', hk', set, hset, Bool.eq_false_iff.mpr hx⟩
  · rintro ⟨hset, hall⟩
    obtain ⟨reply, hreply, hlists⟩ := hsome hset
    refine ⟨reply, hreply, hlists.congr fun x => ?_⟩
    rcases hall with hall | hnone
    · refine forall₂_congr fun k hk => ?_
      obtain ⟨set, hset⟩ := hall k hk
      rw [hset.has_iff]
      refine ⟨fun h => h set hset, fun h set' hset' => ?_⟩
      rw [← hset'.has_iff, hset.has_iff]
      exact h
    · obtain ⟨k, hk, set, hset, hx⟩ := hnone x
      refine iff_of_false (fun h => ?_) fun h => ?_
      · rw [h k hk set hset] at hx
        cases hx
      · rw [hset.has_iff.mp (h k hk)] at hx
        cases hx

end Replies

/-- SINTER of two sets that are there lists their common member. -/
theorem sinter_is_intersection_two :
    letI := asciiTables
    let w : World IntScore := (execStill (words ["SADD", "b", "x", "y"])
      (execStill (words ["SADD", "a", "x"]) emptyWorld).2).2
    let args := words ["a", "b"]
    ∃ reply, (execStill (some (ascii "SINTER") :: args) w).1 = .ok reply ∧
      Lists reply fun x => ∀ k ∈ args.map str,
        w.store.Has (checksFrom stillEnv w.tick args) k x := by
  intro w args
  have hlive : ∀ k, ¬ w.store.Popped (checksFrom stillEnv w.tick args) k := by
    rintro k ⟨now, -, d, hd, -⟩
    cases hd
  have ha : w.store.get .set (ascii "a") = .found ⟨[⟨ascii "x", ()⟩].toAList, 1⟩ := rfl
  have hb : w.store.get .set (ascii "b") =
      .found ⟨[⟨ascii "y", ()⟩, ⟨ascii "x", ()⟩].toAList, 2⟩ := rfl
  have hall : ∀ k ∈ args.map str, ∃ set, w.store.SetAt (checksFrom stillEnv w.tick args) k set := by
    intro k hk
    simp only [args, List.map_cons, List.map_nil, List.mem_cons, List.not_mem_nil, or_false] at hk
    rcases hk with rfl | rfl
    · exact ⟨_, hlive _, ha⟩
    · exact ⟨_, hlive _, hb⟩
  refine (@sinter_is_intersection_iff IntScore asciiTables _ quietHost stillEnv _ args w ?_ ?_
    fun k hk => ?_).mpr ⟨?_, Or.inl hall⟩
  · decide
  · decide
  · obtain ⟨set, -, hset⟩ := hall k hk
    exact Or.inr fun h => by cases h.symm.trans hset
  · exact ⟨ascii "a", by simp [args, str], hall _ (by simp [args, str])⟩

/-- SINTER of a set and an absent key lists the set; SINTER of absent keys only
    panics. -/
theorem sinter_skips_absent_key :
    letI := asciiTables
    let w := stateAfter (words ["SADD", "a", "x"])
    let args := words ["a", "b"]
    (execStill (some (ascii "SINTER") :: args) w).1 =
        .ok (bulksReply (words ["x"])) ∧
      ¬ (∃ x, ∀ k ∈ args.map str, w.store.Has (checksFrom stillEnv w.tick args) k x) ∧
      (execStill (some (ascii "SINTER") :: args) emptyWorld).1 = .error .panic := by
  intro w args
  refine ⟨rfl, ?_, rfl⟩
  rintro ⟨x, hx⟩
  obtain ⟨set, ⟨-, hset⟩, -⟩ := hx (ascii "b") (by simp [args, str])
  cases hset

end TinyDb
