import TinyRedis.HandlerProofs

/-! # A connection that is cut

    A client can go away between any two bytes of what it sends.  The parser then
    has a part of a command, and must not take it for a command.

    What a step of the parser does on some bytes it does on any longer stream, with
    more bytes left over, unless it has run out of them (`parseStep_more`).  So a
    value read from a part of a command would be read from the whole command too,
    with bytes to spare; but reading that leaves none. -/

namespace TinyRespCut

open GoString TinyResp TinyRespStream TinyRespRoundTrip TinyRespHistory

variable {q : Bytes}

/-! ## More bytes -/

/-- The same step, with more bytes left over. -/
def more (q : Bytes) : StepRes → StepRes
  | .next emit c => .next emit ⟨c.state, c.input ++ q⟩
  | r => r

/-- The same read, with more bytes left over. -/
def moreLine (q : Bytes) : LineRes → LineRes
  | .line msg st rest => .line msg st (rest ++ q)
  | .fail e rest => .fail e (rest ++ q)
  | .panic p => .panic p

/-- The read needs bytes that have not come. -/
def Starved : LineRes → Prop
  | .fail .eof _ => True
  | .fail .unexpectedEOF _ => True
  | _ => False

theorem deliver_more (d : RedisData) (st : ReadState) (rest : Bytes) :
    deliver d st (rest ++ q) = more q (deliver d st rest) := by
  rw [deliver, deliver]
  repeat' split
  all_goals rfl

theorem finish_more (r : Res RedisData) (st : ReadState) (rest : Bytes) :
    finish r st (rest ++ q) = more q (finish r st rest) := by
  cases r with
  | ok d => exact deliver_more d st rest
  | err e => rfl
  | panic p => rfl

theorem arrayLine_more (msg : Bytes) (st : ReadState) (rest : Bytes) :
    arrayLine msg st (rest ++ q) = more q (arrayLine msg st rest) := by
  rw [arrayLine, arrayLine]
  repeat' split
  all_goals rfl

theorem bulkLine_more (msg : Bytes) (st : ReadState) (rest : Bytes) :
    bulkLine msg st (rest ++ q) = more q (bulkLine msg st rest) := by
  rw [bulkLine, bulkLine]
  repeat' split
  all_goals first
    | rfl
    | exact deliver_more _ _ rest

theorem messageStep_more (msg : Bytes) (st : ReadState) (rest : Bytes) :
    messageStep msg st (rest ++ q) = more q (messageStep msg st rest) := by
  rw [messageStep, messageStep]
  repeat' split
  · exact finish_more _ _ rest
  · rfl
  · exact arrayLine_more msg st rest
  · exact bulkLine_more msg st rest
  · exact finish_more _ st rest

theorem readBytes_more {s msg rest : Bytes} (h : readBytes s = some (msg, rest)) :
    readBytes (s ++ q) = some (msg, rest ++ q) := by
  obtain ⟨rfl, body, rfl, hbody⟩ := readBytes_spec h
  rw [List.append_assoc, List.append_assoc]
  exact readBytes_body hbody (rest ++ q)

/-- A read that is not starved reads the same of a longer stream. -/
theorem readLine_more (st : ReadState) (p : Bytes) :
    Starved (readLine st p) ∨ readLine st (p ++ q) = moreLine q (readLine st p) := by
  rw [readLine, readLine]
  by_cases hmode : st.multiLine ∧ 0 ≤ st.bulkLen
  · rw [if_pos hmode, if_pos hmode]
    by_cases hmk : makePanics 1 (st.bulkLen + 2).toInt
    · rw [if_pos hmk, if_pos hmk]
      exact .inr rfl
    · rw [if_neg hmk, if_neg hmk]
      by_cases hlt : (p.length : Int) < (st.bulkLen + 2).toInt
      · rw [if_pos hlt]
        refine .inl ?_
        split <;> trivial
      · have hle : (st.bulkLen + 2).toInt.toNat ≤ p.length := by omega
        have hlt' : ¬ ((p ++ q).length : Int) < (st.bulkLen + 2).toInt := by
          rw [List.length_append]
          omega
        rw [if_neg hlt, if_neg hlt', List.take_append_of_le_length hle,
          List.drop_append_of_le_length hle]
        refine .inr ?_
        rw [checkPayload, checkPayload]
        repeat' split
        all_goals rfl
  · rw [if_neg hmode, if_neg hmode]
    cases hread : readBytes p with
    | none => exact .inl trivial
    | some r =>
      obtain ⟨msg, rest⟩ := r
      rw [readBytes_more hread]
      refine .inr ?_
      show checkLine msg st (rest ++ q) = moreLine q (checkLine msg st rest)
      rw [checkLine, checkLine]
      repeat' split
      all_goals rfl

/-- The step has run out of bytes. -/
def Starves : StepRes → Prop
  | .done _ => True
  | .next (some (.err .unexpectedEOF)) _ => True
  | _ => False

/-- **A step that has bytes enough** is the same step on any longer stream. -/
theorem parseStep_more (q : Bytes) (c : Config) :
    Starves (parseStep c) ∨ parseStep ⟨c.state, c.input ++ q⟩ = more q (parseStep c) := by
  rw [parseStep, parseStep]
  rcases readLine_more (q := q) c.state c.input with hstarved | hread
  · refine .inl ?_
    cases hline : readLine c.state c.input with
    | line msg st rest =>
      rw [hline] at hstarved
      exact absurd hstarved id
    | panic p =>
      rw [hline] at hstarved
      exact absurd hstarved id
    | fail e rest =>
      rw [hline] at hstarved
      cases e with
      | eof => trivial
      | unexpectedEOF => trivial
      | _ => exact absurd hstarved id
  · refine .inr ?_
    rw [hread]
    cases readLine c.state c.input with
    | panic p => rfl
    | fail e rest => cases e <;> rfl
    | line msg st rest => exact messageStep_more msg st rest

/-! ## Silent steps -/

/-- A step that sends nothing is in the middle of a value; the last result is EOF. -/
def Midway : StepRes → Prop
  | .next none c => c.state.inArray = true ∨ c.state.multiLine = true
  | .done r => r = .err .eof
  | _ => True

theorem deliver_midway (d : RedisData) (st : ReadState) (rest : Bytes) :
    Midway (deliver d st rest) := by
  rw [deliver]
  by_cases harray : st.inArray = true
  · rw [if_pos harray]
    cases st.arrayData with
    | none => trivial
    | some xs =>
      dsimp only
      split
      · trivial
      · exact .inl harray
  · rw [if_neg harray]
    trivial

theorem finish_midway (r : Res RedisData) (st : ReadState) (rest : Bytes) :
    Midway (finish r st rest) := by
  cases r with
  | ok d => exact deliver_midway d st rest
  | err e => trivial
  | panic p => trivial

theorem messageStep_midway (msg : Bytes) (st : ReadState) (rest : Bytes) :
    Midway (messageStep msg st rest) := by
  rw [messageStep]
  split
  · exact finish_midway _ _ rest
  · split
    · trivial
    · split
      · rw [arrayLine]
        rcases parseArrayHeader_cases msg st with ⟨p, hp⟩ | he | ⟨n, hn⟩
        · rw [hp]
          trivial
        · rw [he]
          trivial
        · rw [hn]
          dsimp only
          repeat' split
          all_goals first
            | trivial
            | exact .inl rfl
      · split
        · rw [bulkLine]
          rcases parseBulkHeader_cases msg st with ⟨p, hp⟩ | he | ⟨n, hn⟩
          · rw [hp]
            trivial
          · rw [he]
            trivial
          · rw [hn]
            dsimp only
            split
            · exact deliver_midway _ _ rest
            · exact .inr rfl
        · exact finish_midway _ st rest

theorem parseStep_midway (c : Config) : Midway (parseStep c) := by
  rw [parseStep]
  cases readLine c.state c.input with
  | panic p => trivial
  | line msg st rest => exact messageStep_midway msg st rest
  | fail e rest => cases e <;> trivial

/-- A silent run that comes back to the initial state has gone nowhere. -/
theorem emits_nil {c c' : Config} {out : List ParsedRes} (h : Emits c out c') (hout : out = []) :
    c = c' ∨ c'.state.inArray = true ∨ c'.state.multiLine = true := by
  induction h with
  | refl c => exact .inl rfl
  | @step c emit c₁ out c' hs _ ih =>
    obtain ⟨hemit, rfl⟩ := List.append_eq_nil_iff.mp hout
    rcases ih rfl with rfl | hmid
    · have hmid := parseStep_midway c
      rw [hs, Option.toList_eq_nil_iff.mp hemit] at hmid
      exact .inr hmid
    · exact .inr hmid

/-! ## The first result -/

/-- The first result, and where the parser is when it has sent it. -/
inductive First : Config → ParsedRes → Config → Prop
  | now {c c' : Config} {r : ParsedRes} (h : parseStep c = .next (some r) c') : First c r c'
  | later {c c₁ c' : Config} {r : ParsedRes} (h : parseStep c = .next none c₁)
      (hrest : First c₁ r c') : First c r c'

theorem first_of_emits {c c' : Config} {out : List ParsedRes} (h : Emits c out c') :
    ∀ {r out'}, out = r :: out' → ∃ c₁, First c r c₁ ∧ Emits c₁ out' c' := by
  induction h with
  | refl c =>
    intro r out' hout
    cases hout
  | @step c emit c₁ out c' hs hrest ih =>
    intro r out' hout
    cases emit with
    | none =>
      obtain ⟨c₂, hfirst, hend⟩ := ih hout
      exact ⟨c₂, .later hs hfirst, hend⟩
    | some r' =>
      obtain ⟨rfl, rfl⟩ := List.cons.inj hout
      exact ⟨c₁, .now hs, hrest⟩

/-- A flat value is read to its end. -/
theorem first_flat {v : RedisData} (hv : Flat v) (ha : Allocatable v) :
    First ⟨{}, toBytes v⟩ (.data v) ⟨{}, []⟩ := by
  have hrun := flat_emits hv ha []
  rw [List.append_nil] at hrun
  obtain ⟨c, hfirst, hend⟩ := first_of_emits hrun rfl
  rcases emits_nil hend rfl with rfl | harray | hmulti
  · exact hfirst
  · cases harray
  · cases hmulti

/-- Results that start with the news that the stream is at its end. -/
inductive Ended : List ParsedRes → Prop
  | nil : Ended []
  | eof (out : List ParsedRes) : Ended (.err .eof :: out)
  | unexpectedEOF (out : List ParsedRes) : Ended (.err .unexpectedEOF :: out)

/-- Until it runs out of bytes, the parser is where it would be with more to come. -/
theorem parseLoop_part (hq : q ≠ []) (n : Nat) {c : Config} {r : ParsedRes} {st : ReadState}
    (h : First ⟨c.state, c.input ++ q⟩ r ⟨st, []⟩) : Ended (parseLoop n c).1 := by
  induction n generalizing c with
  | zero => exact .nil
  | succ n ih =>
    have hmid := parseStep_midway c
    have hmore := parseStep_more q c
    rw [parseLoop]
    cases hs : parseStep c with
    | panic p => exact .nil
    | done r' =>
      rw [hs] at hmid
      obtain rfl : r' = .err .eof := hmid
      exact .eof []
    | next emit c' =>
      rw [hs] at hmore
      rcases hmore with hstarved | hmore
      · cases emit with
        | none => exact absurd hstarved id
        | some r' =>
          cases r' with
          | data d => exact absurd hstarved id
          | err e =>
            cases e with
            | unexpectedEOF => exact .unexpectedEOF _
            | _ => exact absurd hstarved id
      · -- a value would leave the bytes that are still to come
        cases h with
        | now hstep =>
          have hleft := (StepRes.next.inj (hmore.symm.trans hstep)).2
          exact absurd (List.append_eq_nil_iff.mp (Config.mk.inj hleft).2).2 hq
        | later hstep hrest =>
          cases hmore.symm.trans hstep
          exact ih hrest

/-- **A part of a value** gives no value, and no protocol error either. -/
theorem parse_part {v : RedisData} (hv : Flat v) (ha : Allocatable v) {p : Bytes}
    (hpart : toBytes v = p ++ q) (hq : q ≠ []) : Ended (parse p).1 := by
  have hflat := first_flat hv ha
  rw [hpart] at hflat
  exact parseLoop_part hq _ hflat

end TinyRespCut

namespace TinyServer

open GoString GoFloat TinyResp TinyRespStream TinyRespRoundTrip TinyDb

variable {F : Type} [UnicodeTables] [FloatText F]

/-- The commands at the front of a pipeline that are within its first `n` bytes. -/
def wholeCommands : List Command → Nat → List Command
  | [], _ => []
  | cmd :: cmds, n =>
    if (encodeCommand cmd).length ≤ n then
      cmd :: wholeCommands cmds (n - (encodeCommand cmd).length)
    else []

/-- What `Handle` returns when the stream ends. -/
def EndsWith (err : Option ReadErr) : Prop := err = none ∨ err = some .unexpectedEOF

/-- At the end of the stream nothing more is executed or written. -/
theorem handleLoop_ended (host : Host) (env : Env) {results : List ParsedRes} (w : World F)
    (h : TinyRespCut.Ended results) :
    ∃ err, EndsWith err ∧ handleLoop host env results w = ⟨[], none, err, w⟩ := by
  cases h with
  | nil => exact ⟨none, .inl rfl, rfl⟩
  | eof out => exact ⟨none, .inl rfl, rfl⟩
  | unexpectedEOF out => exact ⟨_, .inr rfl, rfl⟩

/-- **A CONNECTION CUT AT ANY BYTE** is served as if the client had sent the commands
    that came whole, and no more: the same bytes are written, a panic is the same, and
    the store is left the same.  For the commands that came whole `Handle` returns
    nil; for the cut connection nil too, or `io.ErrUnexpectedEOF`, and never a protocol
    error. -/
theorem cut_connection (host : Host) (env : Env) {cmds : List Command}
    (hin : ∀ cmd ∈ cmds, AllocatableCommand cmd) (n : Nat) (w : World F) :
    (handle host env (pipeline (wholeCommands cmds n)) w).returned = none ∧
    ∃ err, EndsWith err ∧ handle host env ((pipeline cmds).take n) w =
      { handle host env (pipeline (wholeCommands cmds n)) w with returned := err } := by
  induction cmds generalizing n w with
  | nil =>
    rw [show (pipeline []).take n = [] from List.take_nil]
    exact ⟨rfl, none, .inl rfl, rfl⟩
  | cons cmd cmds ih =>
    have hcmd := hin cmd List.mem_cons_self
    have hpipe : ∀ cmds, pipeline (cmd :: cmds) = encodeCommand cmd ++ pipeline cmds :=
      fun cmds => rfl
    have hparse : ∀ rest, parse (encodeCommand cmd ++ rest) = _ := fun rest =>
      parse_flat (flat_command cmd) hcmd rest
    rw [wholeCommands, hpipe]
    by_cases hwhole : (encodeCommand cmd).length ≤ n
    · have hrest := ih (fun cmd hcmd => hin cmd (List.mem_cons_of_mem _ hcmd))
        (n - (encodeCommand cmd).length)
      rw [if_pos hwhole, hpipe, List.take_append, List.take_of_length_le hwhole, handle, handle,
        hparse, hparse]
      simp only [handle] at hrest
      simp only [handleLoop, commandOf]
      -- the command is executed, and then the rest is served
      generalize (if isWriteCommand _ then LocalNode.applyCommand host env _ w
        else LocalNode.readCommand host env _ w) = r
      obtain ⟨why | resp, w'⟩ := r
      · exact ⟨rfl, none, .inl rfl, rfl⟩
      · obtain ⟨hnil, err, herr, heq⟩ := hrest w'
        refine ⟨hnil, err, herr, ?_⟩
        dsimp only
        rw [heq]
    · have hlt : n < (encodeCommand cmd).length := Nat.not_le.mp hwhole
      have hpart : encodeCommand cmd = (encodeCommand cmd).take n ++ (encodeCommand cmd).drop n :=
        (List.take_append_drop n _).symm
      have hne : (encodeCommand cmd).drop n ≠ [] := by
        rw [Ne, List.drop_eq_nil_iff]
        exact Nat.not_le.mpr hlt
      rw [if_neg hwhole, List.take_append_of_le_length hlt.le]
      obtain ⟨err, herr, heq⟩ := handleLoop_ended host env w
        (TinyRespCut.parse_part (flat_command cmd) hcmd hpart hne)
      exact ⟨rfl, err, herr, heq⟩

omit [UnicodeTables] [FloatText F] in
/-- A SET that came whole and a DEL that is cut in its key: SET is executed and
    answered, and `Handle` returns `io.ErrUnexpectedEOF`. -/
theorem cut_connection_del :
    letI := asciiTables
    let set : Command := words ["SET", "k", "v"]
    let del : Command := words ["DEL", "key"]
    let cut := handle quietHost stillEnv ((pipeline [set, del]).take 45)
      (emptyWorld : World IntScore)
    (∀ cmd ∈ [set, del], AllocatableCommand cmd) ∧ wholeCommands [set, del] 45 = [set] ∧
      cut.returned = some .unexpectedEOF ∧
      ∃ err, EndsWith err ∧ cut =
        { handle quietHost stillEnv (pipeline [set]) emptyWorld with returned := err } := by
  let _ := asciiTables
  intro set del cut
  have hin : ∀ cmd ∈ [set, del], AllocatableCommand cmd := by
    intro cmd hcmd
    rcases List.mem_pair.mp hcmd with rfl | rfl
    · exact (allocatableCommand_iff _).mpr (by decide)
    · exact (allocatableCommand_iff _).mpr (by decide)
  refine ⟨hin, by decide, by decide +kernel, ?_⟩
  exact (cut_connection quietHost stillEnv hin 45 emptyWorld).2

end TinyServer
