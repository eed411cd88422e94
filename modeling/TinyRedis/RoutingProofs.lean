import TinyRedis.CommandTableProofs

/-! # Reads leave live data alone

    A command that `IsWriteCommand` does not know is executed on the local
    store, without an entry in the Raft log.  The replicas stay equal only if
    such a command changes nothing that is live.

    What a command without the `write` capability can do to the store is expire
    keys (`frame_of_not_write`), so every such executor has the property, by its
    type.  The rest is about names: which executors write, and which of those
    `IsWriteCommand` recognises.  Twelve are forgotten, and a name outside ASCII
    can be lower-cased to a command without being upper-cased to one. -/

namespace TinyDb

open GoString GoFloat GoProgram TinyResp

variable {F : Type}

/-! ## The frame of a command that cannot write -/

/-- The value and the deadline of a key are the same in both stores. -/
def SameAt (k : Bytes) (s s' : Store F) : Prop :=
  s'.db.lookup k = s.db.lookup k ∧ s'.ttl.lookup k = s.ttl.lookup k

/-- `k` has no deadline, or one after `T`. -/
def LiveAt (k : Bytes) (T : Int) (s : Store F) : Prop := ∀ d, s.ttl.lookup k = some d → T < d

theorem LiveAt.of_same {k : Bytes} {T : Int} {s s' : Store F} (h : LiveAt k T s)
    (hs : SameAt k s s') : LiveAt k T s' := by
  intro d hd
  exact h d (hs.2 ▸ hd)

/-- `CheckTTL` of any key keeps a key that is live. -/
theorem checkTTL_same {k : Bytes} {now : Int} {s : Store F} (h : LiveAt k now s) (key : Bytes) :
    SameAt k s (s.checkTTL key now).2 := by
  rcases s.checkTTL_cases key now with ⟨⟨d, hd, hle⟩, hs⟩ | ⟨-, hs⟩
  · have hne : k ≠ key := by
      rintro rfl
      exact absurd (h d hd) (Int.not_lt.mpr hle)
    rw [hs]
    simp [SameAt, hne]
  · rw [hs]
    exact ⟨rfl, rfl⟩

/-- One operation without the `write` capability. -/
theorem Op.apply_same {c : Caps} (hc : c.write = false) {env : Env} {now : Int} {n : Nat}
    {k : Bytes} {s : Store F} (h : LiveAt k now s) (o : Op F c) :
    SameAt k s (o.apply env now n s).2 := by
  cases o with
  | checkTTL key => exact checkTTL_same h key
  | set kind key obj hw hz => simp [hc] at hw
  | setAny key v hw hz => simp [hc] at hw
  | update kind key obj hw hz => simp [hc] at hw
  | setIfNotExist key val hw => simp [hc] at hw
  | delete key hw => simp [hc] at hw
  | setTTL key deadline hw ht => simp [hc] at hw
  | removeTTL key hw => simp [hc] at hw
  | _ => exact ⟨rfl, rfl⟩

/-- Between two moments of a run, a key that stays live stays as it is. -/
def Framed (env : Env) (k : Bytes) (T : Int) (w w' : World F) : Prop :=
  w.tick ≤ w'.tick ∧
    ((∀ t, w.tick ≤ t → t < w'.tick → env.clock t ≤ T) → LiveAt k T w.store →
      SameAt k w.store w'.store)

theorem Framed.trans {env : Env} {k : Bytes} {T : Int} {w₁ w₂ w₃ : World F}
    (h₁ : Framed env k T w₁ w₂) (h₂ : Framed env k T w₂ w₃) : Framed env k T w₁ w₃ := by
  refine ⟨le_trans h₁.1 h₂.1, fun hclock hlive => ?_⟩
  have hs₁ := h₁.2 (fun t ht hlt => hclock t ht (lt_of_lt_of_le hlt h₂.1)) hlive
  have hs₂ := h₂.2 (fun t ht hlt => hclock t (le_trans h₁.1 ht) hlt) (hlive.of_same hs₁)
  exact ⟨hs₂.1.trans hs₁.1, hs₂.2.trans hs₁.2⟩

/-- **A command that cannot write** leaves every key that is live for its whole
    duration as it was. -/
theorem frame_of_not_write {c : Caps} (hc : c.write = false) {α : Type} (p : Cmd F c α) (env : Env)
    (k : Bytes) (T : Int) (w : World F) : Framed env k T w (p.run (Op.step env) w).2 := by
  have hstep : ∀ (o : Op F c) (w : World F), True → Framed env k T w (o.step env w).2 := by
    intro o w _
    refine ⟨Nat.le_succ _, fun hclock hlive => Op.apply_same hc (fun d hd => ?_) o⟩
    exact lt_of_le_of_lt (hclock w.tick le_rfl (Nat.lt_succ_self _)) (hlive d hd)
  exact Prog.Uses.run (R := Framed env k T) (fun w => ⟨le_rfl, fun _ _ => ⟨rfl, rfl⟩⟩)
    (fun _ _ _ => Framed.trans) hstep (Prog.uses_of_forall (fun _ => trivial) p) w

/-! ## The names of the commands that write -/

/-- Commands that write, and that `IsWriteCommand` lists. -/
def routedWrites : List String :=
  ["set", "setnx", "setex", "del", "incr", "decr", "append", "mset",
    "hset", "hsetnx", "hdel", "hincrby", "hincrbyfloat",
    "lpush", "rpush", "lpop", "rpop", "lrem", "lset", "ltrim",
    "sadd", "srem", "spop", "smove", "zadd", "zrem", "zincrby", "expire", "persist", "rename"]

/-- Commands that write, and that `IsWriteCommand` does not list. -/
def unroutedWrites : List String :=
  ["incrby", "decrby", "incrbyfloat", "setrange", "lpushx", "rpushx", "lmove",
    "sdiffstore", "sinterstore", "sunionstore", "zremrangebyrank", "zremrangebyscore"]

section Names

variable [UnicodeTables] [FloatText F]

/-- Every other executor is unable to write. -/
theorem cmdTable_reads (host : Host) :
    ∀ entry ∈ (cmdTable host : List (String × Executor F)),
      entry.1 ∈ routedWrites ++ unroutedWrites ∨ entry.2.caps.write = false := by
  have hall : (cmdTable host : List (String × Executor F)).all (fun entry =>
      decide (entry.1 ∈ routedWrites ++ unroutedWrites) || !entry.2.caps.write) = true := rfl
  intro entry hmem
  rcases Bool.or_eq_true_iff.mp (List.all_eq_true.mp hall entry hmem) with h | h
  · exact Or.inl (of_decide_eq_true h)
  · exact Or.inr (by simpa using h)

end Names

theorem upperASCII_lowerASCII (c : UInt8) : upperASCII (lowerASCII c) = upperASCII c := by
  revert c
  decide +kernel

/-- The routed names are in the list of `IsWriteCommand`, in upper case. -/
theorem routedWrites_upper : ∀ name ∈ routedWrites,
    ∃ up ∈ writeNames, ascii up = (ascii name).map upperASCII := by
  decide

/-- An ASCII name that selects a routed command is recognised. -/
theorem isWriteCommand_of_ascii [UnicodeTables] {cmd : Command} (hne : cmd ≠ [])
    (hascii : isASCII (cmdName cmd) = true) {name : String} (hn : name ∈ routedWrites)
    (hlow : toLower (cmdName cmd) = ascii name) : isWriteCommand cmd = true := by
  obtain ⟨up, hup, hasc⟩ := routedWrites_upper name hn
  have hupper : toUpper (cmdName cmd) = ascii up := by
    rw [hasc, ← hlow]
    simp [toLower, toUpper, hascii, upperASCII_lowerASCII]
  rw [isWriteCommand, if_neg hne, List.any_eq_true]
  exact ⟨up, hup, by simpa using hupper⟩

/-! ## ExecCommand of a command that is not routed -/

/-- The command writes and `IsWriteCommand` does not know: its name is one of
    the forgotten twelve, or a spelling outside ASCII of a routed one. -/
def Escapes [UnicodeTables] (cmd : Command) : Prop :=
  (∃ name ∈ unroutedWrites, toLower (cmdName cmd) = ascii name) ∨
    (isASCII (cmdName cmd) = false ∧ ∃ name ∈ routedWrites, toLower (cmdName cmd) = ascii name)

/-- Otherwise its executor, if there is one, is unable to write. -/
theorem caps_of_not_escapes [UnicodeTables] [FloatText F] {host : Host} {cmd : Command}
    {command : Executor F} (hne : cmd ≠ []) (hread : isWriteCommand cmd = false)
    (hsafe : ¬ Escapes cmd) (hcmd : lookupCmd host (toLower (cmdName cmd)) = some command) :
    command.caps.write = false := by
  obtain ⟨name, hmem, hname⟩ := lookupCmd_mem hcmd
  rcases cmdTable_reads host (name, command) hmem with hw | hw
  · rcases List.mem_append.mp hw with hr | hu
    · -- a routed name: recognised if it is ASCII, an escape if it is not
      cases hascii : isASCII (cmdName cmd) with
      | true =>
        rw [isWriteCommand_of_ascii hne hascii hr hname.symm] at hread
        exact absurd hread (by simp)
      | false => exact absurd (Or.inr ⟨hascii, name, hr, hname.symm⟩) hsafe
    · exact absurd (Or.inl ⟨name, hu, hname.symm⟩) hsafe
  · exact hw

/-- **Reads leave live data alone.** A command that is not sent through the log,
    and is not one of the escapes, leaves the value and the deadline of every
    key as they were, if no clock reading of the command reaches the key's
    deadline. -/
theorem reads_keep_live_data [UnicodeTables] [FloatText F] (host : Host) (env : Env) (cmd : Command)
    (w : World F) (k : Bytes) (T : Int) (hread : isWriteCommand cmd = false) (hsafe : ¬ Escapes cmd)
    (hclock : ∀ t, w.tick ≤ t → t < (execCommand host env cmd w).2.tick → env.clock t ≤ T)
    (hlive : LiveAt k T w.store) :
    SameAt k w.store (execCommand host env cmd w).2.store := by
  unfold execCommand at hclock ⊢
  by_cases hne : cmd = []
  · rw [if_pos hne]
    exact ⟨rfl, rfl⟩
  · rw [if_neg hne] at hclock ⊢
    cases hcmd : (lookupCmd host (toLower (cmdName cmd)) : Option (Executor F)) with
    | none => exact ⟨rfl, rfl⟩
    | some command =>
      rw [hcmd] at hclock
      have hw := caps_of_not_escapes hne hread hsafe hcmd
      exact (frame_of_not_write hw (command.body cmd) env k T w).2 hclock hlive

/-- GET of a key that SET has just written. -/
theorem reads_keep_live_data_get :
    letI := asciiTables
    let w := stateAfter (words ["SET", "k", "1"])
    SameAt (ascii "k") w.store
      (execStill (words ["GET", "k"]) w).2.store := by
  intro w
  refine @reads_keep_live_data IntScore asciiTables _ quietHost stillEnv _ w _ 0 (by decide) ?_
    (fun _ _ _ => le_rfl) ?_
  · unfold Escapes
    decide
  · intro d hd
    cases hd

/-- INCRBY is not routed, and changes the value of a live key. -/
theorem incrby_changes_live_data :
    letI := asciiTables
    let w := stateAfter (words ["SET", "k", "1"])
    let cmd := words ["INCRBY", "k", "5"]
    isWriteCommand cmd = false ∧ w.store.ttl.lookup (ascii "k") = none ∧
      w.store.db.lookup (ascii "k") = some ⟨.str, some (ascii "1")⟩ ∧
      (execStill cmd w).2.store.db.lookup (ascii "k") =
        some ⟨.str, some (ascii "6")⟩ :=
  ⟨by decide, rfl, rfl, rfl⟩

end TinyDb
