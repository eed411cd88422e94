import TinyRedis.HashReadsProofs
import TinyRedis.CountersProofs
import TinyRedis.ErrorAtomicityProofs
import TinyRedis.SetAlgebraProofs
import TinyRedis.ScoreRangeProofs

/-! # What the adding commands count

    SADD, HSET and ZADD go through their arguments and add up what each call
    returned.  `Set.Add` and the test of HSET say whether the name is new, so
    the sum is the growth of the collection.  `ZSet.Add` says whether anything
    changed: a member that gets another score counts, and the set does not
    grow. -/

namespace TinyDb

open GoString GoFloat GoProgram GoProgram.Prog TinyResp TinyZSet

variable {F : Type}

/-! ## New names -/

/-- How many names of a list, each counted once, are not there yet. -/
def newNames (there : Bytes → Bool) (names : List Bytes) : Nat :=
  (names.toFinset.filter fun name => there name = false).card

/-- What the first name adds, and what the others add to that. -/
theorem newNames_cons (there : Bytes → Bool) (name : Bytes) (rest : List Bytes) :
    newNames there (name :: rest) =
      (if there name then 0 else 1) +
        newNames (fun n => there n || decide (n = name)) rest := by
  have hrest : rest.toFinset.filter (fun n => (there n || decide (n = name)) = false) =
      (rest.toFinset.filter fun n => there n = false).erase name := by
    ext n
    simp only [Finset.mem_filter, Finset.mem_erase, Bool.or_eq_false_iff, decide_eq_false_iff_not]
    tauto
  unfold newNames
  rw [hrest, List.toFinset_cons, Finset.filter_insert]
  cases hname : there name with
  | true =>
    have hout : name ∉ rest.toFinset.filter fun n => there n = false := by
      simp [hname]
    rw [if_neg (by simp), if_pos rfl, Finset.erase_eq_of_notMem hout, Nat.zero_add]
  | false =>
    rw [if_pos rfl, if_neg Bool.false_ne_true, ← Finset.erase_insert_eq_erase,
      Finset.card_erase_of_mem (Finset.mem_insert_self ..)]
    have hpos := Finset.card_pos.mpr
      ⟨name, Finset.mem_insert_self name (rest.toFinset.filter fun n => there n = false)⟩
    omega

theorem newNames_le (there : Bytes → Bool) (names : List Bytes) :
    newNames there names ≤ names.length :=
  le_trans (Finset.card_filter_le ..) (List.toFinset_card_le names)

/-! ## Sets and hashes -/

/-- **The loop of SADD** counts the new members, and the size grows by as many. -/
theorem memberLoop_add (members : List (Option Bytes)) : ∀ set : RedisSet,
    (memberLoop RedisSet.add set members).2 = newNames set.has (members.map str) ∧
      (memberLoop RedisSet.add set members).1.len =
        set.len + newNames set.has (members.map str) := by
  induction members with
  | nil => exact fun set => ⟨rfl, (Int.add_zero _).symm⟩
  | cons member rest ih =>
    intro set
    obtain ⟨hcount, hlen⟩ := ih (set.add (str member)).1
    have hhas : (set.add (str member)).1.has =
        fun n => set.has n || decide (n = str member) := by
      funext n
      rw [RedisSet.has_add, Bool.or_comm]
    rw [hhas] at hcount hlen
    have hstep : (set.add (str member)).2 = (if set.has (str member) then 0 else 1) ∧
        (set.add (str member)).1.len =
          set.len + (if set.has (str member) then 0 else 1) := by
      unfold RedisSet.add RedisSet.len
      by_cases hhas : set.has (str member) = true
      · rw [if_pos hhas, if_pos hhas]
        exact ⟨rfl, (Int.add_zero _).symm⟩
      · rw [if_neg hhas, if_neg hhas]
        exact ⟨rfl, rfl⟩
    rw [List.map_cons, newNames_cons]
    show (set.add (str member)).2 + (memberLoop RedisSet.add (set.add (str member)).1 rest).2 = _ ∧
      (memberLoop RedisSet.add (set.add (str member)).1 rest).1.len = _
    rw [hcount, hlen, hstep.1, hstep.2]
    push_cast
    exact ⟨rfl, by ring⟩

namespace RedisHash

/-- The fields after `Set`. -/
theorem exist_set (h : RedisHash) (field : Bytes) (value : Option Bytes) :
    (h.set field value).exist = fun f => h.exist f || decide (f = field) := by
  funext f
  unfold exist set
  by_cases hf : f = field
  · rw [hf, AList.lookup_insert, decide_eq_true rfl, Bool.or_true]
    rfl
  · rw [AList.lookup_insert_ne hf, decide_eq_false hf, Bool.or_false]

theorem fields_set (h : RedisHash) (field : Bytes) (value : Option Bytes) :
    (h.set field value).fields = h.fields + (if h.exist field then 0 else 1) := by
  unfold fields set exist
  rw [length_keys_insert]
  by_cases hfield : (h.table.lookup field).isSome = true
  · rw [if_pos hfield, if_pos hfield, Int.add_zero]
  · rw [if_neg hfield, if_neg hfield]
    push_cast
    rfl

end RedisHash

/-- **The loop of HSET** counts the new fields, and there are as many more. -/
theorem hSetLoop_count (pairs : List (Bytes × Option Bytes)) : ∀ hash : RedisHash,
    (hSetLoop hash pairs).2 = newNames hash.exist (pairs.map Prod.fst) ∧
      (hSetLoop hash pairs).1.fields =
        hash.fields + newNames hash.exist (pairs.map Prod.fst) := by
  induction pairs with
  | nil => exact fun hash => ⟨rfl, (Int.add_zero _).symm⟩
  | cons pair rest ih =>
    intro hash
    obtain ⟨field, value⟩ := pair
    obtain ⟨hcount, hfields⟩ := ih (hash.set field value)
    rw [RedisHash.exist_set] at hcount hfields
    rw [List.map_cons, newNames_cons]
    show (if hash.exist field then 0 else 1) + (hSetLoop (hash.set field value) rest).2 = _ ∧
      (hSetLoop (hash.set field value) rest).1.fields = _
    rw [hcount, hfields, RedisHash.fields_set]
    push_cast
    exact ⟨rfl, by ring⟩

/-! ## Sorted sets -/

section ZAdd

variable [FloatText F]

/-- The members after `Add`, whatever it had to delete. -/
theorem isSome_dict_add (z : ZSet F) (m : Bytes) (s : F) (l : Nat) :
    (fun n => ((z.add m s l).1.dict n).isSome) =
      fun n => (z.dict n).isSome || decide (n = m) := by
  funext n
  obtain ⟨v, hdict, -⟩ := add_dict z m s l
  rw [hdict]
  by_cases hn : n = m
  · rw [hn, Function.update_self, decide_eq_true rfl, Bool.or_true]
    rfl
  · rw [Function.update_of_ne hn, decide_eq_false hn, Bool.or_false]

/-- No pair gives a member another score: neither than it has in the set, nor
    than an earlier pair gives it. -/
def KeepsScores (dict : Bytes → Option F) (pairs : List (Bytes × F)) : Prop :=
  (∀ p ∈ pairs, ∀ old, dict p.1 = some old → eq old p.2 = true) ∧
    pairs.Pairwise fun p q => p.1 = q.1 → eq p.2 q.2 = true

/-- A pair whose member is new. -/
theorem keepsScores_new {z : ZSet F} {m : Bytes} {s : F} (l : Nat) {rest : List (Bytes × F)}
    (hd : z.dict m = none) :
    KeepsScores z.dict ((m, s) :: rest) ↔ KeepsScores (z.add m s l).1.dict rest := by
  have hdict : (z.add m s l).1.dict = Function.update z.dict m (some s) := by
    unfold ZSet.add
    rw [hd]
    exact (insertNode_nodes z m s l).2.2.2.2.2.2.2.1
  unfold KeepsScores
  rw [hdict, List.pairwise_cons]
  constructor
  · rintro ⟨hset, hfirst, hrest⟩
    refine ⟨fun p hp old hold => ?_, hrest⟩
    by_cases hpm : p.1 = m
    · rw [hpm, Function.update_self] at hold
      exact Option.some.inj hold ▸ hfirst p hp hpm.symm
    · rw [Function.update_of_ne hpm] at hold
      exact hset p (List.mem_cons_of_mem _ hp) old hold
  · rintro ⟨hset, hrest⟩
    refine ⟨fun p hp old hold => ?_, fun p hp hpm => ?_, hrest⟩
    · rcases List.mem_cons.mp hp with rfl | hp
      · exact absurd (hd.symm.trans hold) (by simp)
      · have hpm : p.1 ≠ m := fun e => absurd (hd.symm.trans (e ▸ hold)) (by simp)
        exact hset p hp old (by rw [Function.update_of_ne hpm, hold])
    · have hpm : p.1 = m := hpm.symm
      exact hset p hp s (by rw [hpm, Function.update_self])

/-- A pair whose member has that score already. -/
theorem keepsScores_same {dict : Bytes → Option F} {m : Bytes} {s old : F} {rest : List (Bytes × F)}
    (hd : dict m = some old) (heq : eq old s = true) :
    KeepsScores dict ((m, s) :: rest) ↔ KeepsScores dict rest := by
  unfold KeepsScores
  rw [List.pairwise_cons, List.forall_mem_cons]
  constructor
  · rintro ⟨⟨-, hset⟩, -, hrest⟩
    exact ⟨hset, hrest⟩
  · rintro ⟨hset, hrest⟩
    refine ⟨⟨fun old' hold => ?_, hset⟩, fun p hp hpm => ?_, hrest⟩
    · exact Option.some.inj (hd.symm.trans hold) ▸ heq
    · have hpm : m = p.1 := hpm
      obtain ⟨a, ha, hs⟩ := eq_iff.mp heq
      obtain ⟨b, hb, hp2⟩ := eq_iff.mp (hset p hp old (hpm ▸ hd))
      obtain rfl : a = b := Option.some.inj (ha.symm.trans hb)
      exact eq_iff.mpr ⟨a, hs, hp2⟩

/-- **The loop of ZADD** counts at least the new members, and no more than these
    exactly when it keeps the scores. -/
theorem addPairs_count (level : Nat → Nat) (pairs : List (Bytes × F)) : ∀ (d : Nat) (z : ZSet F),
    (newNames (fun m => (z.dict m).isSome) (pairs.map Prod.fst) : Int) ≤
        (addPairs level pairs d z).2 ∧
      ((addPairs level pairs d z).2 = newNames (fun m => (z.dict m).isSome) (pairs.map Prod.fst) ↔
        KeepsScores z.dict pairs) := by
  induction pairs with
  | nil =>
    intro d z
    exact ⟨le_refl _, iff_of_true rfl
      ⟨fun _ h => absurd h List.not_mem_nil, List.Pairwise.nil⟩⟩
  | cons pair rest ih =>
    intro d z
    obtain ⟨m, s⟩ := pair
    obtain ⟨hle, hiff⟩ := ih (d + 1) (z.add m s (level d)).1
    rw [isSome_dict_add] at hle hiff
    have hstep : (addPairs level ((m, s) :: rest) d z).2 =
        (if (z.add m s (level d)).2 then 1 else 0) +
          (addPairs level rest (d + 1) (z.add m s (level d)).1).2 := rfl
    rw [List.map_cons, newNames_cons, hstep]
    push_cast
    cases hd : z.dict m with
    | none =>
      have hnew : (z.add m s (level d)).2 = true := by
        unfold ZSet.add
        rw [hd]
      rw [hnew, keepsScores_new (level d) hd, ← hiff]
      simp only [Option.isSome_none, Bool.false_eq_true, if_false, if_true]
      constructor
      · omega
      · omega
    | some old =>
      by_cases heq : eq old s = true
      · have hholds : Holds z (m, s) := ⟨old, hd, heq⟩
        have hsame : z.add m s (level d) = (z, false) := add_of_holds hholds _
        rw [hsame] at hle hiff ⊢
        dsimp only at hle hiff ⊢
        rw [keepsScores_same hd heq, ← hiff]
        simp only [Option.isSome_some, Bool.false_eq_true, if_false, if_true]
        constructor
        · omega
        · omega
      · have hchange : (z.add m s (level d)).2 = true := by
          unfold ZSet.add
          simp only [hd, if_neg heq]
        rw [hchange]
        simp only [Option.isSome_some, if_true]
        refine ⟨by omega, iff_of_false (by omega) fun hkeeps => heq ?_⟩
        exact hkeeps.1 (m, s) List.mem_cons_self old hd

/-- No more is counted than there are pairs. -/
theorem addPairs_le (level : Nat → Nat) (pairs : List (Bytes × F)) : ∀ (d : Nat) (z : ZSet F),
    (addPairs level pairs d z).2 ≤ pairs.length := by
  induction pairs with
  | nil => exact fun _ _ => le_refl _
  | cons pair rest ih =>
    intro d z
    have hrest := ih (d + 1) (z.add pair.1 pair.2 (level d)).1
    have hstep : (addPairs level (pair :: rest) d z).2 =
        (if (z.add pair.1 pair.2 (level d)).2 then 1 else 0) +
          (addPairs level rest (d + 1) (z.add pair.1 pair.2 (level d)).1).2 := rfl
    rw [hstep, List.length_cons]
    push_cast
    split
    · omega
    · omega

/-- There are at most as many pairs as arguments. -/
theorem length_scorePairs (args : List (Option Bytes)) :
    (scorePairs args : List (Bytes × F) × Bool).1.length ≤ args.length := by
  fun_induction scorePairs (F := F) args with
  | case1 => exact Nat.zero_le _
  | case2 score member rest s hs ih =>
    simp only [List.length_cons]
    omega
  | case3 => exact Nat.zero_le _

/-- Where the scores are kept, the length grows by what is counted. -/
theorem addPairs_length (level : Nat → Nat) (pairs : List (Bytes × F)) : ∀ (d : Nat) (z : ZSet F),
    KeepsScores z.dict pairs →
      (addPairs level pairs d z).1.length = z.length + (addPairs level pairs d z).2 := by
  induction pairs with
  | nil => exact fun d z _ => (Int.add_zero _).symm
  | cons pair rest ih =>
    intro d z hkeeps
    obtain ⟨m, s⟩ := pair
    show (addPairs level rest (d + 1) (z.add m s (level d)).1).1.length = z.length +
      ((if (z.add m s (level d)).2 then 1 else 0) +
        (addPairs level rest (d + 1) (z.add m s (level d)).1).2)
    cases hd : z.dict m with
    | none =>
      have hadd : z.add m s (level d) = (z.insertNode m s (level d), true) := by
        unfold ZSet.add
        rw [hd]
      have hrest := ih (d + 1) _ ((keepsScores_new (level d) hd).mp hkeeps)
      rw [hadd] at hrest ⊢
      rw [hrest, (insertNode_nodes z m s (level d)).2.2.2.2.2.2.1, if_pos rfl]
      ring
    | some old =>
      have heq := hkeeps.1 (m, s) List.mem_cons_self old hd
      have hrest := ih (d + 1) z ((keepsScores_same hd heq).mp hkeeps)
      have hholds : Holds z (m, s) := ⟨old, hd, heq⟩
      have hsame : z.add m s (level d) = (z, false) := add_of_holds hholds _
      rw [hsame, hrest, if_neg Bool.false_ne_true]
      ring

end ZAdd

/-! ## The collection at a key -/

/-- How many members, fields or scored members a collection has. -/
def Value.card : Value F → Int
  | ⟨.set, set⟩ => set.len
  | ⟨.hash, hash⟩ => hash.fields
  | ⟨.zset, zset⟩ => zset.length
  | _ => 0

/-- The name is a member or a field of the collection. -/
def Value.there : Value F → Bytes → Bool
  | ⟨.set, set⟩ => set.has
  | ⟨.hash, hash⟩ => hash.exist
  | ⟨.zset, zset⟩ => fun name => (zset.dict name).isSome
  | _ => fun _ => false

/-- What SCARD and ZCARD reply, and the number of fields of a hash. -/
def Store.card (s : Store F) (key : Bytes) : Int := ((s.db.lookup key).map Value.card).getD 0

def Store.there (s : Store F) (key : Bytes) : Bytes → Bool :=
  ((s.db.lookup key).map Value.there).getD fun _ => false

/-- The scores of the sorted set at a key. -/
def Store.scores (s : Store F) (key : Bytes) : Bytes → Option F :=
  match s.get .zset key with
  | .found zset => zset.dict
  | _ => fun _ => none

section Creating

variable {env : Env} {w : World F} {c : Caps} {β : Type} {kind : Kind} {key : Bytes}
  {new : kind.Obj F} {s : Store F}

/-- A new collection is like none. -/
theorem card_orNew (new : kind.Obj F) (htype : s.get kind key ≠ .wrongType)
    (hcard : Value.card ⟨kind, new⟩ = 0) (hthere : Value.there ⟨kind, new⟩ = fun _ => false) :
    s.card key = Value.card ⟨kind, (s.get kind key).orNew new⟩ ∧
      s.there key = Value.there ⟨kind, (s.get kind key).orNew new⟩ := by
  unfold Store.card Store.there
  cases hget : s.get kind key with
  | wrongType => exact absurd hget htype
  | absent =>
    rw [Store.get_eq_absent.mp hget]
    exact ⟨hcard.symm, hthere.symm⟩
  | found obj =>
    rw [Store.get_eq_found.mp hget]
    exact ⟨rfl, rfl⟩

/-- The frame `outcome_creating` for sorted sets. -/
theorem outcome_creatingZSet [FloatText F] {P : Except Abort β × Store F → Prop}
    {f : Found (ZSet F) → Cmd F sortedWrites β} {zset : ZSet F}
    (htype : (w.store.checked key (env.clock w.tick)).get .zset key ≠ .wrongType)
    (hobj : ((w.store.checked key (env.clock w.tick)).get .zset key).orNew newZSet = zset)
    (hbody : ∀ w' : World F, w'.store.db.lookup key = some ⟨.zset, zset⟩ →
      w'.store.ttl = (w.store.checked key (env.clock w.tick)).ttl →
      P (outcome env (f (.found zset)) w')) :
    P (outcome env (checkTTL key >>= fun _ => withLock key (getOrCreateZSet key >>= f)) w) := by
  rw [outcome_checkTTL_ignored, withLock, outcome_withLocks]
  generalize w.store.checked key (env.clock w.tick) = s at htype hobj hbody ⊢
  subst hobj
  rw [getOrCreateZSet, bind_bind, getZSet, op_bind, outcome_op, Op.step_get]
  cases hget : s.get .zset key with
  | wrongType => exact absurd hget htype
  | absent =>
    rw [hget] at hbody
    exact hbody ⟨s.set key ⟨.zset, newZSet⟩, w.tick + 4, w.draws⟩ (by simp [Found.orNew]) rfl
  | found obj =>
    rw [hget] at hbody
    exact hbody ⟨s, w.tick + 3, w.draws⟩ (Store.get_eq_found.mp hget) rfl

end Creating

/-! ## The commands -/

section Commands

variable [UnicodeTables] [FloatText F] {host : Host} {env : Env} {w : World F}
  {name key : Option Bytes} {args : List (Option Bytes)}

/-- The command replies with a number and leaves a collection at the key. -/
def Added (key : Bytes) (n : Int) (v : Value F) (x : Except Abort Reply × Store F) : Prop :=
  x.1 = .ok (intReply n) ∧ x.2.db.lookup key = some v

omit [FloatText F] in
/-- SADD with at least one member. -/
theorem sAddSet_added {set : RedisSet} (hname : toLower (str name) = ascii "sadd")
    (hargs : args ≠ [])
    (htype : (w.store.checked (str key) (env.clock w.tick)).get .set (str key) ≠ .wrongType)
    (hset : ((w.store.checked (str key) (env.clock w.tick)).get .set (str key)).orNew newSet =
      set) :
    Added (str key) (memberLoop RedisSet.add set args).2
      ⟨.set, (memberLoop RedisSet.add set args).1⟩
      (outcome env (sAddSet (name :: key :: args) : Cmd F _ _) w) := by
  have hlen : ¬ (name :: key :: args).length < 3 := by
    have hpos := List.length_pos_iff.mpr hargs
    simp only [List.length_cons]
    omega
  rw [sAddSet, named_cons hname, if_neg hlen, strAt_bind rfl]
  refine outcome_creating htype hset fun w' hdb _ => ?_
  dsimp only
  rw [outcome_update, pure_eq, outcome_ret]
  exact ⟨rfl, by simp [hdb]⟩

omit [FloatText F] in
/-- HSET with at least one pair. -/
theorem hSetHash_added {hash : RedisHash} {pairs : List (Bytes × Option Bytes)}
    (hname : toLower (str name) = ascii "hset") (hargs : args ≠ [])
    (hpairs : pairsOf args = some pairs)
    (htype : (w.store.checked (str key) (env.clock w.tick)).get .hash (str key) ≠ .wrongType)
    (hhash : ((w.store.checked (str key) (env.clock w.tick)).get .hash (str key)).orNew newHash =
      hash) :
    Added (str key) (hSetLoop hash pairs).2 ⟨.hash, (hSetLoop hash pairs).1⟩
      (outcome env (hSetHash (name :: key :: args) : Cmd F _ _) w) := by
  have hpairs' : pairsOf ((name :: key :: args).drop 2) = some pairs := hpairs
  rw [hSetHash, named_cons hname, if_neg (hSet_length hargs hpairs), strAt_bind rfl]
  refine outcome_creating htype hhash fun w' hdb _ => ?_
  dsimp only
  rw [hpairs']
  dsimp only
  rw [outcome_update, pure_eq, outcome_ret]
  exact ⟨rfl, by simp [hdb]⟩

/-- ZADD with at least one pair, every score of which parses; the levels it draws
    start at some `d`. -/
theorem zAddZset_added {zset : ZSet F} (hname : toLower (str name) = ascii "zadd")
    (hargs : args ≠ []) (heven : args.length % 2 = 0)
    (hscores : (scorePairs args : List (Bytes × F) × Bool).2 = false)
    (htype : (w.store.checked (str key) (env.clock w.tick)).get .zset (str key) ≠ .wrongType)
    (hzset : ((w.store.checked (str key) (env.clock w.tick)).get .zset (str key)).orNew newZSet =
      zset) :
    ∃ d, Added (str key) (addPairs env.level (scorePairs args).1 d zset).2
      ⟨.zset, (addPairs env.level (scorePairs args).1 d zset).1⟩
      (outcome env (zAddZset (name :: key :: args) : Cmd F _ _) w) := by
  rw [zAddZset, named_cons hname, if_neg (zAdd_length hargs heven), strAt_bind rfl]
  refine outcome_creatingZSet (P := fun x => ∃ d, Added (str key)
    (addPairs env.level (scorePairs args).1 d zset).2
    ⟨.zset, (addPairs env.level (scorePairs args).1 d zset).1⟩ x) htype hzset fun w' hdb _ => ?_
  obtain ⟨w'', hrun, hstore⟩ := zAddLoop_eq env args zset 0 w' heven
  rw [hscores, if_neg Bool.false_ne_true, Int.zero_add] at hrun
  have hdrop : (name :: key :: args).drop 2 = args := rfl
  refine ⟨w'.draws, ?_⟩
  dsimp only
  rw [hdrop, outcome_bind hrun, updateZSet, op_bind, outcome_op, ret_bind]
  dsimp only
  rw [pure_eq, outcome_ret]
  refine ⟨rfl, ?_⟩
  show (w''.store.update (str key) _).db.lookup (str key) = _
  simp [hstore, hdb]

/-- An adding command with valid arguments: the type it works on, its key and
    the names it adds. -/
inductive Adds (F : Type) [FloatText F] : Command → Kind → Bytes → List Bytes → Prop
  | sadd {name key : Option Bytes} {args : List (Option Bytes)}
      (hname : toLower (str name) = ascii "sadd") (hargs : args ≠ []) :
      Adds F (name :: key :: args) .set (str key) (args.map str)
  | hset {name key : Option Bytes} {args : List (Option Bytes)}
      {pairs : List (Bytes × Option Bytes)}
      (hname : toLower (str name) = ascii "hset") (hargs : args ≠ [])
      (hpairs : pairsOf args = some pairs) :
      Adds F (name :: key :: args) .hash (str key) (pairs.map Prod.fst)
  | zadd {name key : Option Bytes} {args : List (Option Bytes)}
      (hname : toLower (str name) = ascii "zadd") (hargs : args ≠ [])
      (heven : args.length % 2 = 0)
      (hscores : (scorePairs args : List (Bytes × F) × Bool).2 = false) :
      Adds F (name :: key :: args) .zset (str key)
        ((scorePairs args : List (Bytes × F) × Bool).1.map Prod.fst)

/-- **The reply is the growth**: the number replied is by how much the
    collection at the key has grown, and the number of names that are new. -/
def CountsGrowth (host : Host) (env : Env) (cmd : Command) (w : World F) (key : Bytes)
    (names : List Bytes) : Prop :=
  ∃ n : Int, (execCommand host env cmd w).1 = .ok (intReply n) ∧
    n = (execCommand host env cmd w).2.store.card key -
      (w.store.checked key (env.clock w.tick)).card key ∧
    n = newNames ((w.store.checked key (env.clock w.tick)).there key) names

omit [UnicodeTables] [FloatText F] in
/-- Replies with numbers of 64 bits differ as the numbers do. -/
theorem intReply_inj {a b : Int} (ha : FitsInt64 a) (hb : FitsInt64 b)
    (h : intReply a = intReply b) : a = b := by
  have hbits : Int64.ofInt a = Int64.ofInt b := RedisData.intData.inj (Option.some.inj h)
  have hint : int64 a = int64 b := congrArg Int64.toInt hbits
  rwa [int64_of_fits ha, int64_of_fits hb] at hint

/-- A command that replies with a number counts growth when the number is right. -/
theorem countsGrowth_iff {cmd : Command} {key : Bytes} {names : List Bytes} {n : Int}
    {v v' : Value F} (hreply : (execCommand host env cmd w).1 = .ok (intReply n))
    (hafter : (execCommand host env cmd w).2.store.db.lookup key = some v')
    (hbefore : (w.store.checked key (env.clock w.tick)).card key = v.card ∧
      (w.store.checked key (env.clock w.tick)).there key = v.there) (hfits : FitsInt64 n)
    (hnames : names.length < 2 ^ 63) :
    CountsGrowth host env cmd w key names ↔
      n = v'.card - v.card ∧ n = newNames v.there names := by
  have hcard : (execCommand host env cmd w).2.store.card key = v'.card := by
    unfold Store.card
    rw [hafter]
    rfl
  unfold CountsGrowth
  rw [hcard, hbefore.1, hbefore.2, hreply]
  constructor
  · rintro ⟨m, hm, hgrowth, hnew⟩
    have hle := newNames_le v.there names
    have hfits' : FitsInt64 m := ⟨by omega, by omega⟩
    obtain rfl : n = m := intReply_inj hfits hfits' (Except.ok.inj hm)
    exact ⟨hgrowth, hnew⟩
  · exact fun h => ⟨n, rfl, h⟩

/-- A command whose executor has added. -/
theorem exec_added {cmdName : String} {e : Executor F} {key' : Bytes} {n : Int} {v : Value F}
    (hmem : (cmdName, e) ∈ cmdTable host) (hname : toLower (str name) = ascii cmdName)
    (h : Added key' n v (outcome env (e.body (name :: key :: args)) w)) :
    (execCommand host env (name :: key :: args) w).1 = .ok (intReply n) ∧
      (execCommand host env (name :: key :: args) w).2.store.db.lookup key' = some v := by
  rw [exec_reply hmem (List.cons_ne_nil _ _) hname, exec_store hmem (List.cons_ne_nil _ _) hname]
  exact h

/-- **THE ADDING COMMANDS COUNT GROWTH EXACTLY WHEN ZADD KEEPS THE SCORES**: SADD
    and HSET always do, ZADD unless a pair gives a member another score than it
    has in the set or got earlier in the command.  The number of arguments is an
    `int`. -/
theorem adds_count_growth_iff {cmd : Command} {kind : Kind} {key : Bytes} {names : List Bytes}
    (hadds : Adds F cmd kind key names) (hlen : cmd.length < 2 ^ 63)
    (htype : (w.store.checked key (env.clock w.tick)).get kind key ≠ .wrongType) :
    CountsGrowth host env cmd w key names ↔
      (kind = .zset → KeepsScores ((w.store.checked key (env.clock w.tick)).scores key)
        (scorePairs (cmd.drop 2)).1) := by
  cases hadds with
  | @sadd name key args hname hargs =>
    have hmem : Registered F host "sadd" sAddSet := by simp [Registered, cmdTable]
    have hbefore := card_orNew newSet htype rfl rfl
    generalize hset : ((w.store.checked (str key) (env.clock w.tick)).get .set
      (str key)).orNew newSet = set at hbefore
    obtain ⟨hreply, hafter⟩ := exec_added hmem hname (sAddSet_added hname hargs htype hset)
    obtain ⟨hcount, hgrown⟩ := memberLoop_add args set
    have hnames : (args.map str).length < 2 ^ 63 := by
      simp only [List.length_map, List.length_cons] at hlen ⊢
      omega
    have hle := newNames_le set.has (args.map str)
    refine iff_of_true ((countsGrowth_iff hreply hafter hbefore ⟨?_, ?_⟩ hnames).mpr ⟨?_, hcount⟩)
      fun h => by cases h
    · omega
    · omega
    · show _ = (memberLoop RedisSet.add set args).1.len - set.len
      omega
  | @hset name key args pairs hname hargs hpairs =>
    have hmem : Registered F host "hset" hSetHash := by simp [Registered, cmdTable]
    have hbefore := card_orNew newHash htype rfl rfl
    generalize hhash : ((w.store.checked (str key) (env.clock w.tick)).get .hash
      (str key)).orNew newHash = hash at hbefore
    obtain ⟨hreply, hafter⟩ :=
      exec_added hmem hname (hSetHash_added hname hargs hpairs htype hhash)
    obtain ⟨hcount, hgrown⟩ := hSetLoop_count pairs hash
    have hnames : (pairs.map Prod.fst).length < 2 ^ 63 := by
      have heven := length_of_pairsOf hpairs
      simp only [List.length_map, List.length_cons] at hlen ⊢
      omega
    have hle := newNames_le hash.exist (pairs.map Prod.fst)
    refine iff_of_true ((countsGrowth_iff hreply hafter hbefore ⟨?_, ?_⟩ hnames).mpr ⟨?_, hcount⟩)
      fun h => by cases h
    · omega
    · omega
    · show _ = (hSetLoop hash pairs).1.fields - hash.fields
      omega
  | @zadd name key args hname hargs heven hscores =>
    have hmem : Registered F host "zadd" zAddZset := by simp [Registered, cmdTable]
    have hbefore := card_orNew newZSet htype rfl rfl
    have hdict : (w.store.checked (str key) (env.clock w.tick)).scores (str key) =
        (((w.store.checked (str key) (env.clock w.tick)).get .zset (str key)).orNew
          newZSet).dict := by
      unfold Store.scores
      cases (w.store.checked (str key) (env.clock w.tick)).get .zset (str key) with
      | found zset => rfl
      | absent => rfl
      | wrongType => rfl
    rw [hdict]
    generalize hzset : ((w.store.checked (str key) (env.clock w.tick)).get .zset
      (str key)).orNew newZSet = zset at hbefore ⊢
    obtain ⟨d, hadded⟩ := zAddZset_added hname hargs heven hscores htype hzset
    obtain ⟨hreply, hafter⟩ := exec_added hmem hname hadded
    obtain ⟨hle, hiff⟩ := addPairs_count env.level (scorePairs args).1 d zset
    have hpairs := length_scorePairs (F := F) args
    have hmost := addPairs_le env.level (scorePairs args).1 d zset
    have hnames : ((scorePairs args : List (Bytes × F) × Bool).1.map Prod.fst).length < 2 ^ 63 := by
      simp only [List.length_map, List.length_cons] at hlen ⊢
      omega
    have hfits : FitsInt64 (addPairs env.level (scorePairs args).1 d zset).2 := by
      simp only [List.length_cons] at hlen
      exact ⟨by omega, by omega⟩
    rw [countsGrowth_iff hreply hafter hbefore hfits hnames]
    show _ = (addPairs env.level (scorePairs args).1 d zset).1.length - zset.length ∧
      _ = (newNames (fun m => (zset.dict m).isSome) _ : Int) ↔ _
    constructor
    · exact fun h _ => hiff.mp h.2
    · intro h
      have hkeeps := h rfl
      have hgrown := addPairs_length env.level (scorePairs args).1 d zset hkeeps
      exact ⟨by omega, hiff.mpr hkeeps⟩

end Commands

/-- A pair given twice counts once. -/
theorem zadd_twice_counts_growth :
    letI := asciiTables
    CountsGrowth quietHost stillEnv (words ["ZADD", "k", "1", "a", "1", "a"])
      (emptyWorld : World IntScore)
      (ascii "k") [ascii "a", ascii "a"] := by
  refine (@adds_count_growth_iff IntScore asciiTables _ quietHost stillEnv emptyWorld
    (words ["ZADD", "k", "1", "a", "1", "a"]) .zset (ascii "k") [ascii "a", ascii "a"]
    (@Adds.zadd asciiTables IntScore _ (some (ascii "ZADD")) (some (ascii "k"))
      (words ["1", "a", "1", "a"])
      (by decide) (by simp) rfl rfl) (by decide) ?_).mpr fun _ => ⟨?_, ?_⟩
  · intro hwrong
    cases hwrong
  · intro p _ old hold
    cases hold
  · refine List.pairwise_pair.mpr fun _ => ?_
    decide

/-- `ZADD k 2 a` where `a` has the score 1: it replies 1, and the set has one
    member as before. -/
theorem zadd_counts_other_score :
    letI := asciiTables
    let w := stateAfter (words ["ZADD", "k", "1", "a"])
    let r := execStill (words ["ZADD", "k", "2", "a"]) w
    r.1 = .ok (intReply 1) ∧ w.store.card (ascii "k") = 1 ∧ r.2.store.card (ascii "k") = 1 :=
  ⟨rfl, rfl, rfl⟩

end TinyDb
