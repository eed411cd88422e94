import TinyRedis.CommandRunsProofs

/-! # The counters

    INCR, DECR, INCRBY and DECRBY count at a key, HINCRBY in a field of a hash.
    Each parses the text that is there, adds, and stores the sum as text again.
    The text of an int64 is parsed back as that int64, so a counter stands at the
    exact sum as long as the sums are int64; none of the five looks whether they
    are, and one that is not is stored and replied modulo 2^64. -/

namespace TinyDb

open GoString GoStrconv GoFloat GoProgram GoProgram.Prog TinyResp

variable {F : Type} {env : Env} {w : World F}

/-! ## Where a counter stands -/

/-- The place of a counter: a key, or a field of the hash at a key. -/
inductive Counter where
  | string (key : Bytes)
  | field (key field : Bytes)

namespace Counter

/-- The key of a counter. -/
def key : Counter → Bytes
  | .string key => key
  | .field key _ => key

/-- What is stored at the place. -/
def value (s : Store F) : Counter → Found (Option Bytes)
  | .string key => s.get .str key
  | .field key name =>
    match s.get .hash key with
    | .absent => .absent
    | .wrongType => .wrongType
    | .found hash =>
      match hash.table.lookup name with
      | none => .absent
      | some val => .found val

/-- The number of a counter, none if it does not have one; what is absent counts
    as 0. -/
def number (s : Store F) (counter : Counter) : Option Int :=
  match counter.value s with
  | .absent => some 0
  | .wrongType => none
  | .found val =>
    match parseInt (str val) with
    | .error _ => none
    | .ok i => some i.toInt

end Counter

/-- The number of a counter is an int64. -/
def FitsInt64 (n : Int) : Prop := -2 ^ 63 ≤ n ∧ n < 2 ^ 63

instance instDecidableFitsInt64 (n : Int) : Decidable (FitsInt64 n) :=
  inferInstanceAs (Decidable (-2 ^ 63 ≤ n ∧ n < 2 ^ 63))

theorem int64_of_fits {n : Int} (h : FitsInt64 n) : int64 n = n :=
  Int64.toInt_ofInt_of_le h.1 h.2

theorem fits_int64 (n : Int) : FitsInt64 (int64 n) :=
  ⟨Int64.le_toInt _, Int64.toInt_lt _⟩

/-- A sum may be wrapped at any time. -/
theorem int64_add_int64 (a b : Int) : int64 (a + int64 b) = int64 (a + b) := by
  simp only [int64, Int64.toInt_ofInt, Int.add_bmod_bmod]

namespace Counter

variable {s : Store F} {counter : Counter} {n : Int}

theorem number_of_absent (h : counter.value s = .absent) : counter.number s = some 0 := by
  rw [number, h]

/-- A counter that was written stands at the number that was written. -/
theorem number_of_itoa (h : counter.value s = .found (some (itoa (int64 n)))) :
    counter.number s = some (int64 n) := by
  have hparse := parseInt_itoa (fits_int64 n).1 (fits_int64 n).2
  rw [number, h]
  dsimp only [str, Option.getD_some]
  rw [hparse]
  dsimp only
  rw [Int64.toInt_ofInt_of_le (fits_int64 n).1 (fits_int64 n).2]

/-- A counter with a number is absent or stored as text. -/
theorem number_cases (h : counter.number s = some n) :
    (counter.value s = .absent ∧ n = 0) ∨
      ∃ val i, counter.value s = .found val ∧ parseInt (str val) = .ok i ∧ n = i.toInt := by
  unfold number at h
  cases hval : counter.value s with
  | absent =>
    rw [hval] at h
    exact Or.inl ⟨rfl, (Option.some.inj h).symm⟩
  | wrongType =>
    rw [hval] at h
    cases h
  | found val =>
    rw [hval] at h
    dsimp only at h
    cases hparse : parseInt (str val) with
    | error e =>
      rw [hparse] at h
      cases h
    | ok i =>
      rw [hparse] at h
      exact Or.inr ⟨val, i, rfl, hparse, (Option.some.inj h).symm⟩

/-- A key that is not there has no value in it. -/
theorem value_of_absent (h : s.db.lookup counter.key = none) : counter.value s = .absent := by
  cases counter with
  | string key =>
    have hget : s.get .str key = .absent := Store.get_eq_absent.mpr h
    exact hget
  | field key name =>
    have hget : s.get .hash key = .absent := Store.get_eq_absent.mpr h
    rw [value, hget]

/-- Expiry leaves a counter a number: what it had, or 0. -/
theorem number_checked (h : (counter.number s).isSome = true) (now : Int) :
    (counter.number (s.checked counter.key now)).isSome = true := by
  by_cases hdue : s.Due counter.key now
  · rw [number_of_absent (value_of_absent (Store.checked_of_due hdue).1)]
    rfl
  · rwa [Store.checked_of_not_due hdue]

end Counter

/-! ## One command -/

/-- The commands that count: the place, and what is added there. -/
inductive Counts [UnicodeTables] : Command → Counter → Int → Prop
  | incr {name key : Option Bytes} (hname : toLower (str name) = ascii "incr") :
      Counts [name, key] (.string (str key)) 1
  | decr {name key : Option Bytes} (hname : toLower (str name) = ascii "decr") :
      Counts [name, key] (.string (str key)) (-1)
  | incrBy {name key amount : Option Bytes} {i : Int64}
      (hname : toLower (str name) = ascii "incrby") (hamount : parseInt (str amount) = .ok i) :
      Counts [name, key, amount] (.string (str key)) i.toInt
  | decrBy {name key amount : Option Bytes} {i : Int64}
      (hname : toLower (str name) = ascii "decrby") (hamount : parseInt (str amount) = .ok i) :
      Counts [name, key, amount] (.string (str key)) (-i.toInt)
  | hIncrBy {name key field amount : Option Bytes} {i : Int64}
      (hname : toLower (str name) = ascii "hincrby") (hamount : parseInt (str amount) = .ok i) :
      Counts [name, key, field, amount] (.field (str key) (str field)) i.toInt

/-- What a counting command leaves: the sum modulo 2^64, as its reply and as the
    text of the counter. -/
def Wraps (x : Except Abort Reply × Store F) (counter : Counter) (sum : Int) : Prop :=
  x.1 = .ok (intReply (int64 sum)) ∧ counter.value x.2 = .found (some (itoa (int64 sum)))

/-- The common part of the four commands on strings. -/
theorem addTo_wraps {key : Bytes} {inc n : Int} {s : Store F}
    (hs : s = w.store.checked key (env.clock w.tick)) (hinc : FitsInt64 inc)
    (hn : (Counter.string key).number s = some n) :
    Wraps (outcome env (addTo key inc) w) (.string key) (n + inc) := by
  rw [addTo, outcome_checkTTL_ignored, ← hs, withLock, outcome_withLocks, outcome_get]
  dsimp only
  rcases Counter.number_cases hn with ⟨hval, rfl⟩ | ⟨val, i, hval, hparse, rfl⟩
  · have hget : s.get .str key = .absent := hval
    rw [hget]
    dsimp only
    rw [outcome_set, pure_eq, outcome_ret, Wraps, zero_add, int64_of_fits hinc]
    exact ⟨rfl, Store.get_eq_found.mpr (by simp)⟩
  · have hget : s.get .str key = .found val := hval
    rw [hget]
    dsimp only
    rw [hparse]
    dsimp only
    rw [outcome_set, pure_eq, outcome_ret]
    exact ⟨rfl, Store.get_eq_found.mpr (by simp)⟩

/-- `IncrBy` of a field that is not there. -/
theorem RedisHash.incrBy_of_absent {hash : RedisHash} {field : Bytes}
    (h : hash.table.lookup field = none) (incr : Int) : hash.incrBy field incr =
      (⟨hash.table.insert field (some (itoa incr)), hash.size + 1⟩, some incr) := by
  have hempty : str (hash.get field) = [] := by rw [RedisHash.get, h]; rfl
  rw [RedisHash.incrBy, RedisHash.incrWith, if_pos hempty]

/-- `IncrBy` of a field with a number. -/
theorem RedisHash.incrBy_of_number {hash : RedisHash} {field : Bytes} {val : Option Bytes}
    {i : Int64} (h : hash.table.lookup field = some val) (hval : parseInt (str val) = .ok i)
    (incr : Int) : hash.incrBy field incr =
      (⟨hash.table.insert field (some (itoa (int64 (i.toInt + incr)))), hash.size⟩,
        some (int64 (i.toInt + incr))) := by
  have hget : hash.get field = val := by rw [RedisHash.get, h]; rfl
  have hne : str val ≠ [] := by
    intro hempty
    rw [hempty] at hval
    cases hval
  have hatoi : atoi (str val) = .ok i.toInt := by rw [atoi, hval]; rfl
  rw [RedisHash.incrBy, RedisHash.incrWith, hget, if_neg hne, hatoi]
  rfl

/-- The value of a field that was stored. -/
theorem Counter.value_field {s : Store F} {key field : Bytes} {hash : RedisHash}
    {val : Option Bytes} (hdb : s.db.lookup key = some ⟨.hash, hash⟩)
    (hf : hash.table.lookup field = some val) : (Counter.field key field).value s = .found val := by
  rw [Counter.value, Store.get_eq_found.mpr hdb]
  dsimp only
  rw [hf]

theorem Counter.value_field_cases {s : Store F} {key field : Bytes} {x : Found (Option Bytes)}
    (h : (Counter.field key field).value s = x) (hx : x ≠ .wrongType) :
    (s.get .hash key = .absent ∧ x = .absent) ∨ ∃ hash, s.get .hash key = .found hash ∧
      ((hash.table.lookup field = none ∧ x = .absent) ∨
        ∃ val, hash.table.lookup field = some val ∧ x = .found val) := by
  rw [Counter.value] at h
  cases hget : s.get .hash key with
  | absent =>
    rw [hget] at h
    exact Or.inl ⟨rfl, h.symm⟩
  | wrongType =>
    rw [hget] at h
    exact absurd h.symm hx
  | found hash =>
    rw [hget] at h
    dsimp only at h
    refine Or.inr ⟨hash, rfl, ?_⟩
    cases hf : hash.table.lookup field with
    | none =>
      rw [hf] at h
      exact Or.inl ⟨rfl, h.symm⟩
    | some val =>
      rw [hf] at h
      exact Or.inr ⟨val, rfl, h.symm⟩

section Step

variable [UnicodeTables] {name key field amount : Option Bytes} {i : Int64}

/-- HINCRBY on a key that holds a hash, or nothing and the hash is new. -/
theorem outcome_hIncrByHash {hash hash' : RedisHash} {res : Int} {s : Store F}
    (hs : s = w.store.checked (str key) (env.clock w.tick))
    (hname : toLower (str name) = ascii "hincrby") (hamount : parseInt (str amount) = .ok i)
    (htype : s.get .hash (str key) ≠ .wrongType)
    (hhash : (s.get .hash (str key)).orNew newHash = hash)
    (hincr : hash.incrBy (str field) i.toInt = (hash', some res)) :
    let x := outcome env (hIncrByHash [name, key, field, amount] : Cmd F _ _) w
    x.1 = .ok (intReply res) ∧ x.2.db.lookup (str key) = some ⟨.hash, hash'⟩ := by
  have hatoi : atoi (str amount) = .ok i.toInt := by rw [atoi, hamount]; rfl
  rw [hIncrByHash, incrHash, named_cons hname, if_neg (by simp), strAt_bind rfl, strAt_bind rfl,
    strAt_bind rfl, hatoi]
  dsimp only [Except.toOption]
  subst hs
  refine outcome_creating (P := fun x => x.1 = .ok (intReply res) ∧
    x.2.db.lookup (str key) = some ⟨.hash, hash'⟩) htype hhash fun w' hdb _ => ?_
  dsimp only
  rw [hincr]
  exact ⟨rfl, by simp [hdb]⟩

theorem hIncrByHash_wraps {n : Int} {s : Store F}
    (hs : s = w.store.checked (str key) (env.clock w.tick))
    (hname : toLower (str name) = ascii "hincrby") (hamount : parseInt (str amount) = .ok i)
    (hn : (Counter.field (str key) (str field)).number s = some n) :
    Wraps (outcome env (hIncrByHash [name, key, field, amount]) w)
      (.field (str key) (str field)) (n + i.toInt) := by
  have hi : int64 i.toInt = i.toInt := int64_of_fits ⟨i.le_toInt, i.toInt_lt⟩
  rcases Counter.number_cases hn with ⟨hval, rfl⟩ | ⟨val, j, hval, hparse, rfl⟩
  · rw [zero_add, Wraps, hi]
    obtain ⟨htype, hf⟩ : s.get .hash (str key) ≠ .wrongType ∧
        ((s.get .hash (str key)).orNew newHash).table.lookup (str field) = none := by
      rcases Counter.value_field_cases hval (by simp) with ⟨hget, -⟩ | ⟨hash, hget, ⟨hf, -⟩ | h⟩
      · rw [hget]
        exact ⟨by simp, AList.lookup_empty _⟩
      · rw [hget]
        exact ⟨by simp, hf⟩
      · cases h.choose_spec.2
    obtain ⟨hreply, hdb⟩ := outcome_hIncrByHash hs hname hamount htype rfl
      (RedisHash.incrBy_of_absent hf _)
    exact ⟨hreply, Counter.value_field hdb (AList.lookup_insert _)⟩
  · rcases Counter.value_field_cases hval (by simp) with ⟨-, hx⟩ | ⟨hash, hget, hfield⟩
    · cases hx
    · rcases hfield with ⟨-, hx⟩ | ⟨val', hf, hx⟩
      · cases hx
      · obtain rfl : val = val' := Found.found.inj hx
        obtain ⟨hreply, hdb⟩ := outcome_hIncrByHash hs hname hamount (by simp [hget])
          (by rw [hget]; rfl) (RedisHash.incrBy_of_number hf hparse _)
        exact ⟨hreply, Counter.value_field hdb (AList.lookup_insert _)⟩

variable [FloatText F] {cmd : Command} {counter : Counter} {n d : Int}

omit [UnicodeTables] [FloatText F] in
theorem Wraps.of_int64 {x : Except Abort Reply × Store F} (h : Wraps x counter (n + int64 d)) :
    Wraps x counter (n + d) := by
  rwa [Wraps, int64_add_int64] at h

/-- A command whose executor comes down to `addTo`. -/
theorem exec_addTo_wraps {host : Host} {name : String} {body : Command → Cmd F writes Reply}
    (hmem : Registered F host name body) (hne : cmd ≠ [])
    (hname : toLower (cmdName cmd) = ascii name) {key : Bytes} {inc : Int}
    (hbody : body cmd = addTo key inc) (hinc : FitsInt64 inc)
    (hn : (Counter.string key).number (w.store.checked key (env.clock w.tick)) = some n) :
    Wraps ((execCommand host env cmd w).1, (execCommand host env cmd w).2.store) (.string key)
      (n + inc) := by
  rw [exec_eq_outcome hmem hne hname]
  dsimp only
  rw [hbody]
  exact addTo_wraps rfl hinc hn

/-- **One counting command**: its reply and the text it leaves are the sum modulo
    2^64. -/
theorem Counts.wraps (host : Host) (h : Counts cmd counter d)
    (hn : counter.number (w.store.checked counter.key (env.clock w.tick)) = some n) :
    Wraps ((execCommand host env cmd w).1, (execCommand host env cmd w).2.store) counter
      (n + d) := by
  cases h with
  | @incr name key hname =>
    have hbody : (incrString [name, key] : Cmd F _ _) = addTo (str key) 1 := by
      rw [incrString, named_cons hname, if_neg (by simp), strAt_bind rfl]
    exact exec_addTo_wraps (by simp [Registered, cmdTable]) (List.cons_ne_nil _ _) hname hbody
      (by decide) hn
  | @decr name key hname =>
    have hbody : (decrString [name, key] : Cmd F _ _) = addTo (str key) (-1) := by
      rw [decrString, named_cons hname, if_neg (by simp), strAt_bind rfl]
    exact exec_addTo_wraps (by simp [Registered, cmdTable]) (List.cons_ne_nil _ _) hname hbody
      (by decide) hn
  | @incrBy name key amount i hname hamount =>
    have hbody : (incrByString [name, key, amount] : Cmd F _ _) = addTo (str key) i.toInt := by
      rw [incrByString, named_cons hname, if_neg (by simp), strAt_bind rfl, hamount]
      dsimp only
      rw [strAt_bind rfl]
    exact exec_addTo_wraps (by simp [Registered, cmdTable]) (List.cons_ne_nil _ _) hname hbody
      ⟨i.le_toInt, i.toInt_lt⟩ hn
  | @decrBy name key amount i hname hamount =>
    have hbody : (decrByString [name, key, amount] : Cmd F _ _) =
        addTo (str key) (int64 (-i.toInt)) := by
      rw [decrByString, named_cons hname, if_neg (by simp), strAt_bind rfl, hamount]
      dsimp only
      rw [strAt_bind rfl]
    -- the negated amount may have wrapped, and that does not matter to the sum
    exact (exec_addTo_wraps (by simp [Registered, cmdTable]) (List.cons_ne_nil _ _) hname hbody
      (fits_int64 _) hn).of_int64
  | @hIncrBy name key field amount i hname hamount =>
    have hmem : Registered F host "hincrby" hIncrByHash := by simp [Registered, cmdTable]
    rw [exec_eq_outcome hmem (List.cons_ne_nil _ _) hname]
    exact hIncrByHash_wraps rfl hname hamount hn

/-! ## Sequences -/

/-- What the command of a step is to do: reply the sum and store it, if it is an
    int64; else reply an error and leave the counter. -/
def ExactStep (host : Host) (env : Env) (counter : Counter) (cmd : Command) (d n : Int)
    (w : World F) : Prop :=
  if FitsInt64 (n + d) then
    (execCommand host env cmd w).1 = .ok (intReply (n + d)) ∧
      counter.value (execCommand host env cmd w).2.store = .found (some (itoa (n + d)))
  else
    (∃ text, (execCommand host env cmd w).1 = .ok (some (.errorData text))) ∧
      counter.value (execCommand host env cmd w).2.store =
        counter.value (w.store.checked counter.key (env.clock w.tick))

/-- A property of every step of a sequence of commands, each with the amount that
    it adds: of the command, the amount, the number that the counter stands at when
    the command has checked the key, and the state. -/
def EachStep (P : Command → Int → Int → World F → Prop) (host : Host) (env : Env)
    (counter : Counter) : List (Command × Int) → World F → Prop
  | [], _ => True
  | (cmd, d) :: rest, w =>
    (∀ n, counter.number (w.store.checked counter.key (env.clock w.tick)) = some n →
      P cmd d n w) ∧ EachStep P host env counter rest (execCommand host env cmd w).2

/-- A step is exact just if its sum is an int64. -/
theorem Counts.exactStep_iff (host : Host) (h : Counts cmd counter d)
    (hn : counter.number (w.store.checked counter.key (env.clock w.tick)) = some n) :
    ExactStep host env counter cmd d n w ↔ FitsInt64 (n + d) := by
  obtain ⟨hreply, hvalue⟩ := h.wraps host hn
  constructor
  · intro hexact
    by_contra hfits
    rw [ExactStep, if_neg hfits] at hexact
    obtain ⟨⟨text, herror⟩, -⟩ := hexact
    cases hreply.symm.trans herror
  · intro hfits
    rw [int64_of_fits hfits] at hreply hvalue
    rw [ExactStep, if_pos hfits]
    exact ⟨hreply, hvalue⟩

/-- **When counters are exact**: in every sequence of counting commands on one
    counter that is absent or a number, every reply and stored value is the exact sum
    just if every sum is an int64. -/
theorem counters_exact_iff (host : Host) (env : Env) (w : World F) (counter : Counter)
    (cmds : List (Command × Int)) (hcounts : ∀ x ∈ cmds, Counts x.1 counter x.2)
    (hstart : (counter.number (w.store.checked counter.key (env.clock w.tick))).isSome = true) :
    EachStep (ExactStep host env counter) host env counter cmds w ↔
      EachStep (fun _ d n _ => FitsInt64 (n + d)) host env counter cmds w := by
  induction cmds generalizing w with
  | nil => exact Iff.rfl
  | cons x rest ih =>
    obtain ⟨cmd, d⟩ := x
    have hcount : Counts cmd counter d := hcounts (cmd, d) List.mem_cons_self
    obtain ⟨n, hn⟩ := Option.isSome_iff_exists.mp hstart
    have hnext : (counter.number (execCommand host env cmd w).2.store).isSome = true := by
      rw [Counter.number_of_itoa (hcount.wraps host hn).2]
      rfl
    refine and_congr (forall_congr' fun m => forall_congr' fun hm =>
      hcount.exactStep_iff host hm) ?_
    exact ih _ (fun y hy => hcounts y (List.mem_cons_of_mem _ hy))
      (Counter.number_checked hnext _)

end Step

/-- INCR, and DECRBY of a negative amount. -/
theorem counters_exact_two :
    letI := asciiTables
    EachStep (ExactStep quietHost stillEnv (.string (ascii "k"))) quietHost stillEnv
      (.string (ascii "k"))
      [(words ["INCR", "k"], 1), (words ["DECRBY", "k", "-2"], 2)]
      (emptyWorld : World IntScore) := by
  refine (@counters_exact_iff IntScore asciiTables _ quietHost stillEnv emptyWorld
    (.string (ascii "k")) _ ?_ rfl).mpr ⟨fun n hn => ?_, fun n hn => ?_, trivial⟩
  · intro x hx
    simp only [List.mem_cons, List.not_mem_nil, or_false] at hx
    rcases hx with rfl | rfl
    · exact @Counts.incr asciiTables (some (ascii "INCR")) (some (ascii "k")) (by decide)
    · exact @Counts.decrBy asciiTables (some (ascii "DECRBY")) (some (ascii "k"))
        (some (ascii "-2")) (-2) (by decide) rfl
  · obtain rfl : 0 = n := Option.some.inj hn
    decide
  · obtain rfl : 1 = n := Option.some.inj hn
    decide

/-- INCR of the greatest int64 replies the least. -/
theorem incr_wraps :
    letI := asciiTables
    let w := stateAfter (words ["SET", "k", "9223372036854775807"])
    let r := execStill (words ["INCR", "k"]) w
    r.1 = .ok (intReply (-9223372036854775808)) ∧
      r.2.store.get .str (ascii "k") = .found (some (ascii "-9223372036854775808")) :=
  ⟨rfl, rfl⟩

end TinyDb
