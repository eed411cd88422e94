import TinyRedis.CommandRunsProofs

/-! # The size of a hash

    A hash counts its fields in `size`, beside the table.  `Set` and `Del` look a
    field up in the table before they count; `IncrBy` and `IncrByFloat` look at the
    length of its value, and count a field that is there with an empty value once
    more.  The excess of `size` over the number of fields is the number of such
    increments since the last `Clear`; it never goes away by deleting fields.

    HLEN replies `size`, HDEL removes the key when `size` is 0, and `Random` waits
    for fields of a table that has none as long as `size` says otherwise. -/

namespace TinyDb

open GoString GoFloat GoProgram.Prog TinyResp TinyZSet

variable {F : Type}

/-! ## The operations -/

/-- `Clear`, which no command calls: a new table for a large one, else every key of
    the table is deleted. -/
def RedisHash.clear (h : RedisHash) : RedisHash :=
  ⟨if h.len > 256 then ∅ else h.table.keys.foldl (fun table key => table.erase key) h.table, 0⟩

/-- The operations that change a hash. -/
inductive HashOp (F : Type) where
  | set (field : Bytes) (value : Option Bytes)
  | del (field : Bytes)
  | incrBy (field : Bytes) (incr : Int)
  | incrByFloat (field : Bytes) (incr : F)
  | clear

/-- One operation on a hash. -/
def HashOp.apply [FloatText F] : HashOp F → RedisHash → RedisHash
  | .set field value, h => h.set field value
  | .del field, h => (h.del field).1
  | .incrBy field incr, h => (h.incrBy field incr).1
  | .incrByFloat field incr, h => (h.incrByFloat field incr).1
  | .clear, h => h.clear

/-- A sequence of operations. -/
def applyOps [FloatText F] (ops : List (HashOp F)) (h : RedisHash) : RedisHash :=
  ops.foldl (fun h op => op.apply h) h

/-- An increment of a field that is there with an empty value. -/
def HashOp.Drifts (h : RedisHash) : HashOp F → Prop
  | .incrBy field _ => ∃ v, h.table.lookup field = some v ∧ str v = []
  | .incrByFloat field _ => ∃ v, h.table.lookup field = some v ∧ str v = []
  | _ => False

/-! ## How many keys a map has -/

section Keys

variable {α β : Type} [DecidableEq α] {key : α}

theorem length_keys_insert (m : AList fun _ : α => β) (value : β) :
    (m.insert key value).keys.length =
      if (m.lookup key).isSome then m.keys.length else m.keys.length + 1 := by
  rw [AList.keys_insert, List.length_cons]
  by_cases hkey : (m.lookup key).isSome = true
  · have hin : key ∈ m.keys := AList.mem_keys.mp (AList.lookup_isSome.mp hkey)
    have hpos := List.length_pos_of_mem hin
    rw [if_pos hkey, List.length_erase_of_mem hin]
    omega
  · have hout : key ∉ m.keys :=
      fun hin => hkey (AList.lookup_isSome.mpr (AList.mem_keys.mpr hin))
    rw [if_neg hkey, List.erase_of_not_mem hout]

theorem length_keys_erase (m : AList fun _ : α => β) (hkey : (m.lookup key).isSome = true) :
    (m.erase key).keys.length + 1 = m.keys.length := by
  have hin : key ∈ m.keys := AList.mem_keys.mp (AList.lookup_isSome.mp hkey)
  have hpos := List.length_pos_of_mem hin
  rw [AList.keys_erase, List.length_erase_of_mem hin]
  omega

/-- Deleting every key. -/
theorem keys_foldl_erase (keys : List α) (m : AList fun _ : α => β) (h : ∀ k ∈ m.keys, k ∈ keys) :
    (keys.foldl (fun m key => m.erase key) m).keys = [] := by
  induction keys generalizing m with
  | nil => exact List.eq_nil_iff_forall_not_mem.mpr fun k hk => List.not_mem_nil (h k hk)
  | cons key rest ih =>
    refine ih _ fun k hk => ?_
    obtain ⟨hne, hmem⟩ := AList.mem_erase.mp (AList.mem_keys.mpr hk)
    exact (List.mem_cons.mp (h k (AList.mem_keys.mp hmem))).resolve_left hne

end Keys

/-! ## What each operation counts -/

namespace RedisHash

variable {h : RedisHash} {field : Bytes}

/-- The number of fields. -/
def fields (h : RedisHash) : Int := h.table.keys.length

/-- What `size` counts too many. -/
def excess (h : RedisHash) : Int := h.size - h.fields

theorem excess_set (value : Option Bytes) : (h.set field value).excess = h.excess := by
  unfold excess fields set exist
  dsimp only
  rw [length_keys_insert]
  split
  · rfl
  · push_cast
    omega

theorem excess_del : (h.del field).1.excess = h.excess := by
  unfold del
  by_cases hkey : h.exist field = true
  · have hlen := length_keys_erase h.table hkey
    rw [if_pos hkey]
    unfold excess fields
    dsimp only
    omega
  · rw [if_neg hkey]

theorem excess_clear : h.clear.excess = 0 := by
  unfold clear excess fields
  dsimp only
  split
  · rfl
  · rw [keys_foldl_erase _ _ fun k hk => hk]
    rfl

/-- A value that is not empty is the value of a field. -/
theorem isSome_of_get_ne (hne : str (h.get field) ≠ []) : (h.table.lookup field).isSome = true := by
  unfold get at hne
  cases hl : h.table.lookup field with
  | none =>
    rw [hl] at hne
    exact absurd rfl hne
  | some v => rfl

/-- Writing a field counts nothing too much if `size` goes up for a new one only. -/
theorem excess_insert (value : Option Bytes) (size : Int) :
    excess ⟨h.table.insert field value, size⟩ =
      h.excess + (size - h.size) - if (h.table.lookup field).isSome then 0 else 1 := by
  unfold excess fields
  dsimp only
  rw [length_keys_insert]
  split
  · omega
  · push_cast
    omega

/-- The increments count a field with an empty value again. -/
theorem excess_incrWith {α : Type} (parse : Bytes → Option α) (add : α → α → α)
    (format : α → Bytes) (h : RedisHash) (field : Bytes) (incr : α) :
    ((∃ v, h.table.lookup field = some v ∧ str v = []) →
        (incrWith parse add format h field incr).1.excess = h.excess + 1) ∧
      ((¬ ∃ v, h.table.lookup field = some v ∧ str v = []) →
        (incrWith parse add format h field incr).1.excess = h.excess) := by
  rcases h.incrWith_cases parse add format field incr with ⟨hempty, he⟩ | ⟨hne, hcase⟩
  · rw [he, excess_insert]
    cases hl : h.table.lookup field with
    | none =>
      refine ⟨?_, fun _ => ?_⟩
      · rintro ⟨v, hv, -⟩
        cases hv
      · simp
    | some v' =>
      have hv' : str v' = [] := by rwa [get, hl] at hempty
      refine ⟨fun _ => ?_, fun hno => absurd ⟨v', rfl, hv'⟩ hno⟩
      simp
  · have hsome := isSome_of_get_ne hne
    have hno : ¬ ∃ v, h.table.lookup field = some v ∧ str v = [] := by
      rintro ⟨v, hv, hempty⟩
      rw [get, hv] at hne
      exact hne hempty
    refine ⟨fun hyes => absurd hyes hno, fun _ => ?_⟩
    rcases hcase with he | ⟨v, res, he⟩
    · rw [he]
    · rw [he, excess_insert, if_pos hsome]
      omega

end RedisHash

/-! ## Sequences -/

section Runs

variable [FloatText F]

/-- What one operation does to the excess. -/
inductive CountsAs (h : RedisHash) (op : HashOp F) : Prop
  | cleared (hop : op = .clear) (hexcess : (op.apply h).excess = 0)
  | drifted (hop : op ≠ .clear) (hdrifts : op.Drifts h)
      (hexcess : (op.apply h).excess = h.excess + 1)
  | counted (hop : op ≠ .clear) (hdrifts : ¬ op.Drifts h) (hexcess : (op.apply h).excess = h.excess)

theorem countsAs (h : RedisHash) (op : HashOp F) : CountsAs h op := by
  cases op with
  | set field value => exact .counted (by simp) id (RedisHash.excess_set value)
  | del field => exact .counted (by simp) id RedisHash.excess_del
  | incrBy field incr =>
    by_cases hdrifts : (HashOp.incrBy field incr : HashOp F).Drifts h
    · exact .drifted (by simp) hdrifts ((RedisHash.excess_incrWith ..).1 hdrifts)
    · exact .counted (by simp) hdrifts ((RedisHash.excess_incrWith ..).2 hdrifts)
  | incrByFloat field incr =>
    by_cases hdrifts : (HashOp.incrByFloat field incr).Drifts h
    · exact .drifted (by simp) hdrifts ((RedisHash.excess_incrWith ..).1 hdrifts)
    · exact .counted (by simp) hdrifts ((RedisHash.excess_incrWith ..).2 hdrifts)
  | clear => exact .cleared rfl RedisHash.excess_clear

theorem applyOps_append (ops : List (HashOp F)) (op : HashOp F) (h : RedisHash) :
    applyOps (ops ++ [op]) h = op.apply (applyOps ops h) := by
  rw [applyOps, List.foldl_append]
  rfl

/-- `size` never counts too few. -/
theorem excess_nonneg (ops : List (HashOp F)) : 0 ≤ (applyOps ops newHash).excess := by
  induction ops using List.reverseRecOn with
  | nil => exact le_refl 0
  | append_singleton ops op ih =>
    rw [applyOps_append]
    cases countsAs (applyOps ops newHash) op with
    | cleared _ hexcess => rw [hexcess]
    | drifted _ _ hexcess => omega
    | counted _ _ hexcess => rwa [hexcess]

/-- No increment of an empty value since the last `Clear`. -/
def NeverDrifts (ops : List (HashOp F)) : Prop :=
  ∀ before op after, ops = before ++ op :: after → HashOp.clear ∉ after →
    ¬ op.Drifts (applyOps before newHash)

theorem neverDrifts_append {ops : List (HashOp F)} {op : HashOp F} :
    NeverDrifts (ops ++ [op]) ↔
      ¬ op.Drifts (applyOps ops newHash) ∧ (op ≠ .clear → NeverDrifts ops) := by
  constructor
  · intro h
    refine ⟨h ops op [] rfl List.not_mem_nil, fun hop before op' after hops hclear => ?_⟩
    refine h before op' (after ++ [op]) (by rw [hops]; simp) ?_
    rw [List.mem_append, List.mem_singleton, not_or]
    exact ⟨hclear, hop.symm⟩
  · rintro ⟨hop, hrest⟩ before op' after hops hclear
    -- the last operation is `op'` itself or the last of `after`
    rcases List.eq_nil_or_concat after with rfl | ⟨after', last, rfl⟩
    · obtain ⟨rfl, hlast⟩ := List.append_inj' hops rfl
      obtain ⟨rfl, -⟩ := List.cons.inj hlast
      exact hop
    · rw [List.concat_eq_append, ← List.cons_append, ← List.append_assoc] at hops
      obtain ⟨rfl, hlast⟩ := List.append_inj' hops rfl
      obtain ⟨rfl, -⟩ := List.cons.inj hlast
      rw [List.concat_eq_append, List.mem_append, List.mem_singleton, not_or] at hclear
      exact hrest (Ne.symm hclear.2) before op' after' rfl hclear.1

/-- After a sequence of operations the size is the number of fields just if none of
    them has made it drift. -/
theorem excess_eq_zero_iff (ops : List (HashOp F)) :
    (applyOps ops newHash).excess = 0 ↔ NeverDrifts ops := by
  induction ops using List.reverseRecOn with
  | nil =>
    refine iff_of_true rfl fun before op after hops => ?_
    cases before <;> cases hops
  | append_singleton ops op ih =>
    have hnonneg := excess_nonneg ops
    rw [applyOps_append, neverDrifts_append]
    cases countsAs (applyOps ops newHash) op with
    | cleared hop hexcess =>
      subst hop
      exact iff_of_true hexcess ⟨id, fun h => absurd rfl h⟩
    | drifted hop hdrifts hexcess =>
      exact iff_of_false (by omega) fun h => h.1 hdrifts
    | counted hop hdrifts hexcess =>
      rw [hexcess, ih]
      exact ⟨fun h => ⟨hdrifts, fun _ => h⟩, fun h => h.2 hop⟩

end Runs

/-! ## HLEN, HKEYS and HDEL -/

/-- The hash that HDEL leaves: its fields, and the same excess. -/
theorem hDelLoop_spec (args : List (Option Bytes)) (h : RedisHash) :
    (hDelLoop h args).1.excess = h.excess ∧
      ∀ k, k ∈ (hDelLoop h args).1.table ↔ k ∈ h.table ∧ k ∉ args.map str := by
  induction args generalizing h with
  | nil => exact ⟨rfl, fun k => by simp [hDelLoop]⟩
  | cons a rest ih =>
    obtain ⟨hexcess, hmem⟩ := ih (h.del (str a)).1
    refine ⟨hexcess.trans RedisHash.excess_del, fun k => (hmem k).trans ?_⟩
    have hdel : k ∈ (h.del (str a)).1.table ↔ k ≠ str a ∧ k ∈ h.table := by
      unfold RedisHash.del
      by_cases hkey : h.exist (str a) = true
      · rw [if_pos hkey]
        exact AList.mem_erase
      · rw [if_neg hkey]
        refine ⟨fun hk => ⟨?_, hk⟩, fun hk => hk.2⟩
        rintro rfl
        exact hkey (AList.lookup_isSome.mpr hk)
    rw [hdel, List.map_cons, List.mem_cons, not_or]
    tauto

/-- A hash of exact size all of whose fields are deleted is empty. -/
theorem isEmpty_hDelLoop {h : RedisHash} (hexact : h.excess = 0) {args : List (Option Bytes)}
    (hall : ∀ k ∈ h.table.keys, k ∈ args.map str) : (hDelLoop h args).1.isEmpty = true := by
  obtain ⟨hexcess, hmem⟩ := hDelLoop_spec args h
  have hnone : (hDelLoop h args).1.table.keys = [] := by
    refine List.eq_nil_iff_forall_not_mem.mpr fun k hk => ?_
    obtain ⟨hin, hout⟩ := (hmem k).mp (AList.mem_keys.mpr hk)
    exact hout (hall k (AList.mem_keys.mp hin))
  rw [hexact, RedisHash.excess, RedisHash.fields, hnone] at hexcess
  rw [RedisHash.isEmpty, decide_eq_true_eq]
  simpa using hexcess

section Commands

variable [UnicodeTables] {env : Env} {w : World F} {name key : Option Bytes} {hash : RedisHash}

theorem outcome_hLenHash (hname : toLower (str name) = ascii "hlen")
    (hdue : ¬ w.store.Due (str key) (env.clock w.tick))
    (hget : w.store.get .hash (str key) = .found hash) :
    outcome env (hLenHash [name, key] : Cmd F _ _) w = (.ok (intReply hash.len), w.store) := by
  rw [hLenHash, named_cons hname, if_neg (by simp), strAt_bind rfl, outcome_reading_found hdue hget]
  rfl

theorem outcome_hKeysHash (hname : toLower (str name) = ascii "hkeys")
    (hdue : ¬ w.store.Due (str key) (env.clock w.tick))
    (hget : w.store.get .hash (str key) = .found hash) :
    outcome env (hKeysHash [name, key] : Cmd F _ _) w =
      (.ok (bulksReply ((env.order w.draws hash.table.keys).map some)), w.store) := by
  rw [hKeysHash, named_cons hname, if_neg (by simp), strAt_bind rfl,
    outcome_reading_found hdue hget]
  rfl

/-- HDEL that empties the hash. -/
theorem outcome_hDelHash_all {args : List (Option Bytes)}
    (hname : toLower (str name) = ascii "hdel") (hargs : args ≠ [])
    (hdue : ¬ w.store.Due (str key) (env.clock w.tick))
    (hget : w.store.get .hash (str key) = .found hash)
    (hempty : (hDelLoop hash args).1.isEmpty = true) :
    outcome env (hDelHash (name :: key :: args) : Cmd F _ _) w =
      (.ok (intReply (hDelLoop hash args).2),
        ((w.store.update (str key) ⟨.hash, (hDelLoop hash args).1⟩).delete (str key)).2.removeTTL
          (str key)) := by
  have hlen : ¬ (name :: key :: args).length < 3 := by
    have := List.length_pos_iff.mpr hargs
    simp
    omega
  have hdrop : (name :: key :: args).drop 2 = args := rfl
  have hget' : (⟨w.store, w.tick + 2, w.draws⟩ : World F).store.get .hash (str key) =
    .found hash := hget
  rw [hDelHash, named_cons hname, if_neg hlen, strAt_bind rfl, outcome_checkTTL hdue,
    if_neg (by simp), withLock, outcome_withLocks, outcome_get, hget']
  dsimp only
  rw [outcome_update, hdrop]
  dsimp only
  rw [hempty]
  rfl

/-- **When the size of a hash is exact**: after every sequence of operations from
    `NewHash`, just if no increment since the last `Clear` found its field with an
    empty value.  Then HLEN is the number of the fields that HKEYS lists, and HDEL of
    all of them empties the hash and removes the key with its deadline. -/
theorem hash_size_exact_iff [FloatText F] (host : Host) (env : Env) (w : World F)
    (hlen hkeys hdel key : Option Bytes) (ops : List (HashOp F)) (d : Option Int)
    (hlenName : toLower (str hlen) = ascii "hlen") (hkeysName : toLower (str hkeys) = ascii "hkeys")
    (hdelName : toLower (str hdel) = ascii "hdel")
    (hlive : w.store.live (env.clock w.tick) (str key) =
      some (⟨.hash, applyOps ops newHash⟩, d)) :
    ((applyOps ops newHash).size = (applyOps ops newHash).table.keys.length ↔ NeverDrifts ops) ∧
      (NeverDrifts ops →
        (∃ fields : List Bytes,
          (execCommand host env [hkeys, key] w).1 = .ok (bulksReply (fields.map some)) ∧
            (execCommand host env [hlen, key] w).1 = .ok (intReply fields.length)) ∧
        ∀ args, args ≠ [] →
          (∀ field ∈ (applyOps ops newHash).table.keys, field ∈ args.map str) →
            (hDelLoop (applyOps ops newHash) args).1.isEmpty = true ∧
              (execCommand host env (hdel :: key :: args) w).2.store.db.lookup (str key) = none ∧
              (execCommand host env (hdel :: key :: args) w).2.store.ttl.lookup (str key) =
                none) := by
  obtain ⟨hdue, hdb, -⟩ := Store.live_eq_some.mp hlive
  have hget := Store.get_eq_found.mpr hdb
  have hexcess := excess_eq_zero_iff ops
  refine ⟨Iff.trans ?_ hexcess, fun hnever => ⟨?_, fun args hargs hall => ?_⟩⟩
  · rw [RedisHash.excess, RedisHash.fields, sub_eq_zero]
  · have hsize : (applyOps ops newHash).size = (applyOps ops newHash).table.keys.length := by
      have := hexcess.mpr hnever
      rwa [RedisHash.excess, RedisHash.fields, sub_eq_zero] at this
    have hmem : Registered F host "hkeys" hKeysHash := by simp [Registered, cmdTable]
    have hmem' : Registered F host "hlen" hLenHash := by simp [Registered, cmdTable]
    refine ⟨_, (exec_of_outcome hmem (List.cons_ne_nil _ _) hkeysName
      (outcome_hKeysHash hkeysName hdue hget)).1, ?_⟩
    rw [(exec_of_outcome hmem' (List.cons_ne_nil _ _) hlenName
      (outcome_hLenHash hlenName hdue hget)).1,
        (env.order_perm _ _).length_eq, RedisHash.len, hsize]
  · have hempty := isEmpty_hDelLoop (hexcess.mpr hnever) hall
    have hmem : Registered F host "hdel" hDelHash := by simp [Registered, cmdTable]
    rw [(exec_of_outcome hmem (List.cons_ne_nil _ _) hdelName
      (outcome_hDelHash_all hdelName hargs hdue hget hempty)).2]
    exact ⟨hempty, by simp, by simp⟩

end Commands

/-- Two fields are set, one of them with the empty value, a third is counted up from
    nothing, and the first is deleted. -/
theorem hash_size_exact_three :
    letI := asciiTables
    let w : World IntScore := execAll quietHost stillEnv
      [[some (ascii "HSET"), some (ascii "h"), some (ascii "f"), some (ascii "v"),
          some (ascii "g"), some []],
        words ["HINCRBY", "h", "n", "5"], words ["HDEL", "h", "f"]] emptyWorld
    ∃ fields : List Bytes,
      (execStill (words ["HKEYS", "h"]) w).1 =
        .ok (bulksReply (fields.map some)) ∧
      (execStill (words ["HLEN", "h"]) w).1 =
        .ok (intReply fields.length) := by
  intro w
  refine ((@hash_size_exact_iff IntScore asciiTables _ quietHost stillEnv w (some (ascii "HLEN"))
    (some (ascii "HKEYS")) (some (ascii "HDEL")) (some (ascii "h"))
    [.set (ascii "f") (some (ascii "v")), .set (ascii "g") (some []), .incrBy (ascii "n") 5,
      .del (ascii "f")] none (by decide) (by decide) (by decide) rfl).2 ?_).1
  exact (excess_eq_zero_iff _).mp rfl

/-- HINCRBY of a field with the empty string: one field, of size two, and HDEL of
    the field does not remove the key. -/
theorem hincrby_counts_twice :
    letI := asciiTables
    let w : World IntScore := (execStill (words ["HINCRBY", "h", "f", "1"])
      (execStill
        [some (ascii "HSET"), some (ascii "h"), some (ascii "f"), some []] emptyWorld).2).2
    (execStill (words ["HLEN", "h"]) w).1 =
        .ok (intReply 2) ∧
      (execStill (words ["HKEYS", "h"]) w).1 =
        .ok (bulksReply (words ["f"])) ∧
      (execStill (words ["HDEL", "h", "f"])
        w).2.store.get .hash (ascii "h") = .found ⟨∅, 1⟩ :=
  ⟨rfl, rfl, rfl⟩

/-! ## Random fields -/

section Random

variable (env : Env)

/-- The loop of the negative counts, over a table that has a key. -/
theorem run_repeatKeys {V : Type} {table : GoMap V} (hne : table.keys ≠ []) (fuel need : Nat)
    (hfuel : need ≤ fuel) (res : List Bytes) (w : World F) : ∃ l w',
      (repeatKeys table fuel need res : Cmd F reads _).run (Op.step env) w = (.ok (res ++ l), w') ∧
        l.length = need ∧ ∀ k ∈ l, k ∈ table.keys := by
  induction fuel generalizing need res w with
  | zero =>
    obtain rfl : need = 0 := Nat.le_zero.mp hfuel
    exact ⟨[], w, by rw [List.append_nil]; rfl, rfl, fun k hk => absurd hk List.not_mem_nil⟩
  | succ fuel ih =>
    cases need with
    | zero => exact ⟨[], w, by rw [List.append_nil]; rfl, rfl, fun k hk =>
        absurd hk List.not_mem_nil⟩
    | succ need =>
      have hperm := env.order_perm w.draws table.keys
      have hne' : env.order w.draws table.keys ≠ [] := fun h =>
        hne (List.Perm.eq_nil (h ▸ hperm.symm))
      have hpos := List.length_pos_iff.mpr hne'
      obtain ⟨l, w', hrun, hlen, hmem⟩ := ih (need + 1 - (env.order w.draws table.keys).length)
        (by omega) (res ++ (env.order w.draws table.keys).take (need + 1))
        ⟨w.store, w.tick + 1, w.draws + 1⟩
      have hstep : (repeatKeys table (fuel + 1) (need + 1) res : Cmd F reads _).run
          (Op.step env) w = (repeatKeys table fuel
            (need + 1 - (env.order w.draws table.keys).length)
            (res ++ (env.order w.draws table.keys).take (need + 1)) : Cmd F reads _).run
              (Op.step env) ⟨w.store, w.tick + 1, w.draws + 1⟩ := by
        show (if env.order w.draws table.keys = [] then goHang else repeatKeys table fuel
          (need + 1 - (env.order w.draws table.keys).length)
          (res ++ (env.order w.draws table.keys).take (need + 1)) : Cmd F reads _).run
            (Op.step env) ⟨w.store, w.tick + 1, w.draws + 1⟩ = _
        rw [if_neg hne']
      refine ⟨(env.order w.draws table.keys).take (need + 1) ++ l, w', ?_, ?_, ?_⟩
      · rw [hstep, hrun, List.append_assoc]
      · rw [List.length_append, List.length_take, hlen]
        omega
      · intro k hk
        rcases List.mem_append.mp hk with hk | hk
        · exact hperm.mem_iff.mp (List.mem_of_mem_take hk)
        · exact hmem k hk

/-- Over a table without keys the loop does not end. -/
theorem run_repeatKeys_empty {V : Type} {table : GoMap V} (hnil : table.keys = []) {need : Nat}
    (hneed : 0 < need) (w : World F) :
    ((repeatKeys table need need [] : Cmd F reads _).run (Op.step env) w).1 = .error .hang := by
  obtain ⟨need, rfl⟩ : ∃ n, need = n + 1 := ⟨need - 1, by omega⟩
  have horder : env.order w.draws table.keys = [] :=
    List.Perm.eq_nil (hnil ▸ env.order_perm w.draws table.keys)
  show ((if env.order w.draws table.keys = [] then goHang else repeatKeys table need
    (need + 1 - (env.order w.draws table.keys).length)
    ([] ++ (env.order w.draws table.keys).take (need + 1)) : Cmd F reads _).run
      (Op.step env) ⟨w.store, w.tick + 1, w.draws + 1⟩).1 = _
  rw [if_pos horder]
  rfl

/-- What `Random` and `RandomWithValue` are to take from a hash: as many different
    fields as there are, or `count`, for a positive count; `-count` fields for a
    negative one; and nothing of a hash without fields. -/
structure Taken (h : RedisHash) (count : Int) (l : List Bytes) : Prop where
  exist : ∀ field ∈ l, h.exist field = true
  pos : 0 < count → l.Nodup ∧ (l.length : Int) = min count h.fields
  neg : count < 0 → h.fields ≠ 0 → (l.length : Int) = -count
  none : h.fields = 0 → l = []

/-- The number of fields that room is made for. -/
def room (h : RedisHash) (count : Int) : Int := if 0 < count then min count h.size else -count

/-- When `count` fields, with `words` slice elements of `elemSize` bytes for each, can
    be taken: the size says that there are none; or the slice can be made and, for a
    negative count, there is a field. -/
def CanTake (elemSize words : Nat) (h : RedisHash) (count : Int) : Prop :=
  count = 0 ∨ h.size = 0 ∨
    (elemSize * (words * room h count) ≤ TinyRespStream.maxAlloc ∧ (count < 0 → h.fields ≠ 0))

end Random

section Taken

variable {h : RedisHash} {count : Int} {l : List Bytes}

theorem fields_nonneg (h : RedisHash) : 0 ≤ h.fields := Int.natCast_nonneg _

/-- Nothing is taken for count 0, or of a hash whose size is 0. -/
theorem taken_nil (hle : h.fields ≤ h.size) (hnone : count = 0 ∨ h.size = 0) :
    Taken h count [] := by
  have hnonneg := fields_nonneg h
  refine ⟨fun field hf => absurd hf List.not_mem_nil, fun hpos => ⟨List.nodup_nil, ?_⟩,
    fun hneg hf => ?_, fun _ => rfl⟩
  · rw [List.length_nil]
    omega
  · omega

/-- Part of an iteration of the table is taken for a positive count. -/
theorem taken_take (hpos : 0 < count) (hle : h.fields ≤ h.size) (hperm : l.Perm h.table.keys) :
    Taken h count (l.take (min count h.size).toNat) := by
  have hlen : (l.length : Int) = h.fields := congrArg Int.ofNat hperm.length_eq
  have hnonneg := fields_nonneg h
  refine ⟨fun field hf => ?_, fun _ => ⟨?_, ?_⟩, fun hneg => by omega, fun hzero => ?_⟩
  · exact AList.lookup_isSome.mpr (AList.mem_keys.mpr (hperm.mem_iff.mp (List.mem_of_mem_take hf)))
  · exact (hperm.nodup_iff.mpr h.table.nodupKeys).sublist (List.take_sublist _ _)
  · rw [List.length_take]
    omega
  · have hnil : l = [] := List.eq_nil_of_length_eq_zero (by omega)
    rw [hnil, List.take_nil]

/-- Fields that are there, as many as wanted, are taken for a negative count. -/
theorem taken_repeat (hneg : count < 0) (hf : h.fields ≠ 0) (hlen : (l.length : Int) = -count)
    (hmem : ∀ k ∈ l, k ∈ h.table.keys) : Taken h count l :=
  ⟨fun field hfield => AList.lookup_isSome.mpr (AList.mem_keys.mpr (hmem field hfield)),
    fun hpos => by omega, fun _ _ => hlen, fun hzero => absurd hzero hf⟩

theorem keys_ne_nil (hf : h.fields ≠ 0) : h.table.keys ≠ [] := fun hnil =>
  hf (by rw [RedisHash.fields, hnil]; rfl)

theorem keys_eq_nil (hf : h.fields = 0) : h.table.keys = [] :=
  List.eq_nil_of_length_eq_zero (Int.ofNat.inj hf)

end Taken

section Random

variable {h : RedisHash} {count : Int}

/-- The common shape of `Random` and `RandomWithValue`: the fields that are taken,
    into a slice of `words` elements of `elemSize` bytes for each. -/
def takeFields (elemSize words : Nat) (h : RedisHash) (count : Int) : Cmd F reads (List Bytes) :=
  if count = 0 ∨ h.size = 0 then .ret []
  else if TinyRespStream.makePanics elemSize (words * room h count) then goPanic
  else if 0 < count then
    iterate h.table >>= fun keys => .ret (keys.take (min count h.size).toNat)
  else repeatKeys h.table (-count).toNat (-count).toNat []

/-- Fields are taken if they can be; else the function panics or does not return. -/
theorem takeFields_spec (env : Env) (elemSize words : Nat) (count : Int) (hle : h.fields ≤ h.size)
    (w : World F) :
    (CanTake elemSize words h count ∧ ∃ l w',
      (takeFields elemSize words h count : Cmd F reads _).run
        (Op.step env) w = (.ok l, w') ∧ Taken h count l) ∨
      (¬ CanTake elemSize words h count ∧ ∃ why,
        ((takeFields elemSize words h count : Cmd F reads _).run (Op.step env) w).1 =
          .error why) := by
  have hnonneg := fields_nonneg h
  rw [takeFields]
  by_cases hnone : count = 0 ∨ h.size = 0
  · rw [if_pos hnone]
    exact Or.inl ⟨hnone.imp_right Or.inl, [], w, rfl, taken_nil hle hnone⟩
  have hcan : CanTake elemSize words h count ↔ (elemSize * (words * room h count) ≤
      TinyRespStream.maxAlloc ∧ (count < 0 → h.fields ≠ 0)) := by
    rw [CanTake, ← or_assoc, or_iff_right hnone]
  have hroom : 0 ≤ room h count := by
    unfold room
    split <;> omega
  have hpanics : TinyRespStream.makePanics elemSize (words * room h count) ↔
      ¬ elemSize * (words * room h count) ≤ TinyRespStream.maxAlloc := by
    have hwords : 0 ≤ (words : Int) * room h count := Int.mul_nonneg (Int.natCast_nonneg _) hroom
    rw [TinyRespStream.makePanics, or_iff_right (by omega), not_le]
  obtain ⟨hzero, hsize⟩ := not_or.mp hnone
  rw [if_neg hnone, hcan]
  by_cases hfits : elemSize * (words * room h count) ≤ TinyRespStream.maxAlloc
  · rw [if_neg (fun hp => hpanics.mp hp hfits)]
    rcases lt_or_gt_of_ne hzero with hneg | hpos
    · rw [if_neg (by omega)]
      by_cases hf : h.fields = 0
      · exact Or.inr ⟨fun hboth => hboth.2 hneg hf, _,
          run_repeatKeys_empty env (keys_eq_nil hf) (by omega) w⟩
      · obtain ⟨l, w', hrun, hlen, hmem⟩ := run_repeatKeys env (keys_ne_nil hf)
          (-count).toNat (-count).toNat le_rfl [] w
        refine Or.inl ⟨⟨hfits, fun _ => hf⟩, l, w', hrun, taken_repeat hneg hf (by omega) hmem⟩
    · rw [if_pos hpos]
      exact Or.inl ⟨⟨hfits, fun hneg => by omega⟩, _, _, rfl,
        taken_take hpos hle (env.order_perm w.draws h.table.keys)⟩
  · rw [if_pos (hpanics.mpr hfits)]
    exact Or.inr ⟨fun hboth => hfits hboth.1, _, rfl⟩

/-- The count that is left of a positive one, and the room for it. -/
theorem count_eq_min : (if count > h.len then h.len else count) = min count h.size := by
  rw [RedisHash.len]
  split <;> omega

theorem random_eq (hcount : -2 ^ 63 < count) :
    (h.random count : Cmd F reads _) = takeFields 16 1 h count := by
  rw [RedisHash.random, takeFields]
  refine if_congr Iff.rfl rfl ?_
  by_cases hpos : 0 < count
  · rw [if_pos hpos, if_pos hpos, count_eq_min, room, if_pos hpos]
    simp
  · have hint : int64 (-count) = -count := Int64.toInt_ofInt_of_le (by omega) (by omega)
    rw [if_neg hpos, if_neg hpos, hint, room, if_neg hpos]
    simp

theorem randomWithValue_eq (hcount : -2 ^ 63 < 2 * count ∧ 2 * count < 2 ^ 63)
    (hsize : 0 ≤ h.size) : (h.randomWithValue count : Cmd F reads _) =
      takeFields 24 2 h count >>= fun l => .ret (h.withValues l) := by
  rw [RedisHash.randomWithValue, takeFields]
  by_cases hnone : count = 0 ∨ h.size = 0
  · have hnone' : count = 0 ∨ h.len = 0 := hnone
    rw [if_pos hnone, if_pos hnone']
    rfl
  have hnone' : ¬ (count = 0 ∨ h.len = 0) := hnone
  rw [if_neg hnone, if_neg hnone']
  by_cases hpos : 0 < count
  · have hint : int64 (min count h.size * 2) = (2 : Nat) * min count h.size := by
      rw [mul_comm]
      exact Int64.toInt_ofInt_of_le (by omega) (by omega)
    rw [if_pos hpos, if_pos hpos, count_eq_min, room, if_pos hpos]
    dsimp only
    rw [hint]
    split <;> rfl
  · have hint : int64 (-count * 2) = (2 : Nat) * -count := by
      rw [mul_comm]
      exact Int64.toInt_ofInt_of_le (by omega) (by omega)
    have hhalf : ((2 : Nat) : Int) * -count / 2 = -count :=
      Int.mul_ediv_cancel_left _ (by decide)
    rw [if_neg hpos, if_neg hpos, room, if_neg hpos]
    dsimp only
    rw [hint, hhalf]
    split <;> rfl

/-- **When HRANDFIELD takes what it should**: for every hash that a sequence of
    operations leads to and every order of its table, `Random` and `RandomWithValue`
    return the fields they should, each value behind its field, just if the slice for
    them can be made and, for a negative count, the hash has a field or its size says
    that it has none. -/
theorem random_fields_iff [FloatText F] (env : Env) (w : World F) (ops : List (HashOp F))
    (count : Int) (hcount : -2 ^ 63 < count) :
    let h := applyOps ops newHash
    ((∃ l, ((h.random count : Cmd F reads _).run (Op.step env) w).1 = .ok l ∧ Taken h count l) ↔
        CanTake 16 1 h count) ∧
      (-2 ^ 63 < 2 * count ∧ 2 * count < 2 ^ 63 →
        ((∃ l, ((h.randomWithValue count : Cmd F reads _).run (Op.step env) w).1 =
            .ok (h.withValues l) ∧ Taken h count l) ↔ CanTake 24 2 h count)) := by
  intro h
  have hle : h.fields ≤ h.size := by
    have hexcess := excess_nonneg ops
    rw [RedisHash.excess] at hexcess
    exact sub_nonneg.mp hexcess
  have hnonneg := fields_nonneg h
  refine ⟨?_, fun hdouble => ?_⟩
  · rw [random_eq hcount]
    rcases takeFields_spec env 16 1 count hle w with
      ⟨hcan, l, w', hrun, htaken⟩ | ⟨hcan, why, hrun⟩
    · exact iff_of_true ⟨l, by rw [hrun], htaken⟩ hcan
    · refine iff_of_false ?_ hcan
      rintro ⟨l, hl, -⟩
      cases hrun.symm.trans hl
  · rw [randomWithValue_eq hdouble (by omega), run_bind]
    rcases takeFields_spec env 24 2 count hle w with
      ⟨hcan, l, w', hrun, htaken⟩ | ⟨hcan, why, hrun⟩
    · rw [hrun]
      exact iff_of_true ⟨l, rfl, htaken⟩ hcan
    · refine iff_of_false ?_ hcan
      rintro ⟨l, hl, -⟩
      revert hl hrun
      generalize (takeFields 24 2 h count : Cmd F reads _).run (Op.step env) w = r
      rcases r with ⟨_ | _, w'⟩
      · intro _ hl
        cases hl
      · intro hrun
        cases hrun

end Random

/-- Two of the fields of a hash with one. -/
theorem random_fields_two :
    let h : RedisHash := applyOps [(.set (ascii "f") (some (ascii "v")) : HashOp IntScore)] newHash
    ∃ l, ((h.random (-2) : Cmd IntScore reads _).run (Op.step stillEnv) emptyWorld).1 = .ok l ∧
      Taken h (-2) l :=
  (random_fields_iff stillEnv emptyWorld [.set (ascii "f") (some (ascii "v"))] (-2)
    (by decide)).1.mpr (Or.inr (Or.inr ⟨by decide, fun _ => by decide⟩))

/-- A field with the empty string that was incremented and deleted: HRANDFIELD h -1
    does not return, with the read lock of the key held. -/
theorem hrandfield_hangs :
    letI := asciiTables
    let w : World IntScore := (execStill (words ["HDEL", "h", "f"])
      (execStill (words ["HINCRBY", "h", "f", "1"])
        (execStill
          [some (ascii "HSET"), some (ascii "h"), some (ascii "f"), some []]
            emptyWorld).2).2).2
    (execStill (words ["HRANDFIELD", "h", "-1"]) w).1 = .error .hang :=
  rfl

end TinyDb
