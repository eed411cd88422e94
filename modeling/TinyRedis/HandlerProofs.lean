import TinyRedis.QuotedRepliesProofs
import TinyRedis.RespHistoryProofs

/-! # A connection: one reply for each command

    `Handler.Handle` reads what the parser sends, executes every array as a
    command, and writes the reply.  On a `localNode` both ways to execute are
    `ExecCommand`, so a pipeline of commands is answered with the encodings of the
    replies, one after the other (`handle_pipeline`).

    Read back, they are these replies exactly when none quotes a line feed
    (`pipeline_answered_iff`).  A quotation with a line feed in it ends the line
    early, and what follows it is read as the next reply. -/

namespace TinyServer

open GoString GoFloat GoProgram TinyResp TinyRespStream TinyRespRoundTrip TinyRespHistory
  TinyDb

variable {F : Type} [UnicodeTables] [FloatText F]

/-! ## The handler -/

/-- `localNode.ApplyCommand`; it returns no error. -/
def LocalNode.applyCommand (host : Host) (env : Env) (cmd : Command) (w : World F) :
    Except Abort Bytes × World F :=
  let res := execCommand host env cmd w
  (res.1.map replyBytes, res.2)

/-- `localNode.ReadCommand`, which is the same. -/
def LocalNode.readCommand (host : Host) (env : Env) (cmd : Command) (w : World F) :
    Except Abort Bytes × World F :=
  let res := execCommand host env cmd w
  (res.1.map replyBytes, res.2)

/-- The command in a value that the parser sends; only arrays are commands. -/
def commandOf : RedisData → Option Command
  | .arrayData xs => some (toCommand xs)
  | .nullArray => some []
  | _ => none

/-- A connection after `Handle`: the bytes written to it, the panic that ended it
    if one did, the error `Handle` returns (nothing is nil), and the world.  No write
    fails, and the context is not cancelled. -/
structure Served (F : Type) where
  written : Bytes
  panicked : Option Abort
  returned : Option ReadErr
  world : World F

/-- The loop of `Handler.Handle`. -/
def handleLoop (host : Host) (env : Env) : List ParsedRes → World F → Served F
  | [], w => ⟨[], none, none, w⟩
  -- every error ends the loop; the end of the stream is not kept as `lastErr`
  | .err e :: _, w => ⟨[], none, if e = .eof then none else some e, w⟩
  | .data d :: rest, w =>
    match commandOf d with
    | none => handleLoop host env rest w
    | some cmd =>
      let r := if isWriteCommand cmd then LocalNode.applyCommand host env cmd w
        else LocalNode.readCommand host env cmd w
      match r.1 with
      -- recovered: `lastErr` is set, but the result is not named and stays nil
      | .error why => ⟨[], some why, none, r.2⟩
      | .ok resp =>
        let served := handleLoop host env rest r.2
        { served with written := resp ++ served.written }

/-- `Handler.Handle` on a connection that sends `input`. -/
def handle (host : Host) (env : Env) (input : Bytes) (w : World F) : Served F :=
  handleLoop host env (parse input).1 w

/-- The bytes of a pipeline of commands. -/
def pipeline (cmds : List Command) : Bytes :=
  toBytesAll (cmds.map fun cmd => .arrayData (cmd.map .bulkData))

/-- What the commands of a pipeline return, one after the other. -/
def execReplies (host : Host) (env : Env) : List Command → World F → List (Except Abort Reply)
  | [], _ => []
  | cmd :: cmds, w =>
    (execCommand host env cmd w).1 :: execReplies host env cmds (execCommand host env cmd w).2

/-! ## What is written -/

omit [UnicodeTables] in
theorem replyBytes_eq (reply : Reply) : replyBytes reply = toBytes (replyData reply) := by
  cases reply with
  | none => rfl
  | some data => rfl

/-- One command. -/
theorem handleLoop_command (host : Host) (env : Env) (cmd : Command) (rest : List ParsedRes)
    (w : World F) {reply : Reply} (hreply : (execCommand host env cmd w).1 = .ok reply) :
    handleLoop host env (.data (.arrayData (cmd.map .bulkData)) :: rest) w =
      let served := handleLoop host env rest (execCommand host env cmd w).2
      { served with written := toBytes (replyData reply) ++ served.written } := by
  have hrun : (if isWriteCommand cmd then LocalNode.applyCommand host env cmd w
      else LocalNode.readCommand host env cmd w) =
      ((.ok (toBytes (replyData reply)) : Except Abort Bytes), (execCommand host env cmd w).2) := by
    rw [LocalNode.applyCommand, LocalNode.readCommand, ite_self, hreply, ← replyBytes_eq]
    rfl
  rw [handleLoop, commandOf, toCommand_bulkData]
  dsimp only
  rw [hrun]

/-- The first command returns, and so do the others after it. -/
theorem execReplies_cons {host : Host} {env : Env} {cmd : Command} {cmds : List Command}
    {w : World F} {replies : List Reply}
    (hrun : execReplies host env (cmd :: cmds) w = replies.map .ok) :
    ∃ reply rest, replies = reply :: rest ∧ (execCommand host env cmd w).1 = .ok reply ∧
      execReplies host env cmds (execCommand host env cmd w).2 = rest.map .ok := by
  cases replies with
  | nil => cases hrun
  | cons reply rest =>
    obtain ⟨hhead, htail⟩ := List.cons.inj hrun
    exact ⟨reply, rest, rfl, hhead, htail⟩

/-- **A pipeline** whose commands all return: the replies are written in order. -/
theorem handleLoop_pipeline (host : Host) (env : Env) {cmds : List Command} {replies : List Reply}
    (w : World F) (hrun : execReplies host env cmds w = replies.map .ok) :
    handleLoop host env
        (cmds.map (fun cmd => .data (.arrayData (cmd.map .bulkData))) ++ [.err .eof]) w =
      ⟨toBytesAll (replies.map replyData), none, none, execAll host env cmds w⟩ := by
  induction cmds generalizing replies w with
  | nil =>
    obtain rfl : replies = [] := List.map_eq_nil_iff.mp hrun.symm
    rfl
  | cons cmd cmds ih =>
    obtain ⟨reply, rest, rfl, hreply, hrest⟩ := execReplies_cons hrun
    rw [List.map_cons, List.cons_append, handleLoop_command host env cmd _ w hreply, ih _ hrest]
    rfl

theorem handle_pipeline (host : Host) (env : Env) {cmds : List Command} {replies : List Reply}
    (w : World F) (hin : ∀ cmd ∈ cmds, AllocatableCommand cmd)
    (hrun : execReplies host env cmds w = replies.map .ok) :
    handle host env (pipeline cmds) w =
      ⟨toBytesAll (replies.map replyData), none, none, execAll host env cmds w⟩ := by
  have hparse : parse (pipeline cmds) =
      ((cmds.map fun cmd => .arrayData (cmd.map .bulkData)).map .data ++ [.err .eof], .closed) := by
    refine parse_toBytesAll ?_ ?_
    · intro v hv
      obtain ⟨cmd, -, rfl⟩ := List.mem_map.mp hv
      exact flat_command cmd
    · intro v hv
      obtain ⟨cmd, hcmd, rfl⟩ := List.mem_map.mp hv
      exact hin cmd hcmd
  rw [handle, hparse, List.map_map]
  exact handleLoop_pipeline host env w hrun

/-! ## What is read back -/

section Reading

omit [UnicodeTables] [FloatText F]

/-- The first result of the parser. -/
theorem parse_head {input : Bytes} {r : ParsedRes} {c : Config}
    (h : parseStep ⟨{}, input⟩ = .next (some r) c) : ∃ out, (parse input).1 = r :: out := by
  rw [parse, parseLoop, h]
  exact ⟨_, rfl⟩

/-- A line that ends without a carriage return is refused. -/
theorem parseStep_refused (body : Bytes) {c : UInt8} (hbody : (10 : UInt8) ∉ body ++ [c])
    (hc : c ≠ 13) (rest : Bytes) :
    ∃ e c', parseStep ⟨{}, body ++ [c] ++ 10 :: rest⟩ = .next (some (.err e)) c' := by
  have hlast : TinyRespStream.index (body ++ [c] ++ [10]) ((body ++ [c] ++ [10]).length - 2) =
    some c := by
    rw [List.append_assoc]
    exact index_sub_two body c 10
  have hread : readLine {} (body ++ [c] ++ 10 :: rest) =
      .fail (.invalidStream (body ++ [c] ++ [10])) rest := by
    rw [readLine, if_neg (by simp), readBytes_body hbody]
    show checkLine (body ++ [c] ++ [10]) {} rest = _
    rw [checkLine, if_neg (by simp), hlast]
    exact if_pos hc
  refine ⟨.invalidStream (body ++ [c] ++ [10]), ⟨{}, rest⟩, ?_⟩
  rw [parseStep, hread]

/-- **A line with a line feed in its text** is read as something else: an error, or
    a shorter line. -/
theorem parse_cut_line {s : Bytes} (hs : (10 : UInt8) ∈ s) (rest : Bytes) (out : List ParsedRes) :
    (parse (toBytes (.errorData s) ++ rest)).1 ≠ .data (.errorData s) :: out := by
  obtain ⟨line, more, rfl, hline⟩ := List.eq_append_cons_of_mem hs
  have hinput : toBytes (.errorData (line ++ 10 :: more)) ++ rest =
      45 :: line ++ 10 :: (more ++ crlf ++ rest) := by
    simp [toBytes]
  have htyped : (10 : UInt8) ∉ 45 :: line := by
    rw [List.mem_cons, not_or]
    exact ⟨by decide, hline⟩
  rw [hinput]
  rcases List.eq_nil_or_concat line with rfl | ⟨text, c, rfl⟩
  · obtain ⟨e, c', hstep⟩ := parseStep_refused [] htyped (by decide) (more ++ crlf ++ rest)
    obtain ⟨out', hparse⟩ := parse_head hstep
    intro heq
    cases hparse.symm.trans heq
  rw [List.concat_eq_append] at htyped hline ⊢
  by_cases hc : c = 13
  · subst hc
    have hstep : parseStep ⟨{}, 45 :: text ++ crlf ++ (more ++ crlf ++ rest)⟩ = _ :=
      parseStep_line rfl (by decide) (fun h => hline (List.mem_append_left _ h)) _
    rw [if_neg (by decide), if_neg (by decide), parseSingleLine_eq, if_neg (by decide),
      if_pos rfl] at hstep
    have hcut : 45 :: (text ++ [13]) ++ 10 :: (more ++ crlf ++ rest) =
        45 :: text ++ crlf ++ (more ++ crlf ++ rest) := by
      simp [crlf]
    rw [hcut]
    obtain ⟨out', hparse⟩ := parse_head hstep
    intro heq
    have hdata : (.data (.errorData text) : ParsedRes) =
        .data (.errorData (text ++ [13] ++ 10 :: more)) :=
      (List.cons.inj (hparse.symm.trans heq)).1
    have hlen := congrArg List.length (RedisData.errorData.inj (ParsedRes.data.inj hdata))
    simp at hlen
  · obtain ⟨e, c', hstep⟩ := parseStep_refused (45 :: text) htyped hc (more ++ crlf ++ rest)
    obtain ⟨out', hparse⟩ := parse_head hstep
    intro heq
    cases hparse.symm.trans heq

/-- A flat value at the front of a stream. -/
theorem parse_flat {v : RedisData} (hv : Flat v) (ha : Allocatable v) (rest : Bytes) :
    parse (toBytes v ++ rest) = (.data v :: (parse rest).1, (parse rest).2) := by
  rw [parse_emits (flat_emits hv ha rest)]
  rfl

/-- A reply that is flat or an error line. -/
def LineOrFlat (reply : Reply) : Prop := FlatReply reply ∨ ∃ s, reply = some (.errorData s)

/-- **Replies are read back** as they were written exactly when all are flat. -/
theorem replies_read_back_iff {replies : List Reply} (hlines : ∀ reply ∈ replies, LineOrFlat reply)
    (hout : ∀ reply ∈ replies, Allocatable (replyData reply)) :
    parse (toBytesAll (replies.map replyData)) =
        (replies.map (fun reply => .data (replyData reply)) ++ [.err .eof], .closed) ↔
      ∀ reply ∈ replies, FlatReply reply := by
  constructor
  · induction replies with
    | nil => exact fun _ reply hreply => absurd hreply List.not_mem_nil
    | cons reply rest ih =>
      intro hparse
      obtain ⟨hline, hlines⟩ := List.forall_mem_cons.mp hlines
      obtain ⟨ha, hout⟩ := List.forall_mem_cons.mp hout
      rw [List.map_cons, toBytesAll] at hparse
      have hflat : FlatReply reply := by
        rcases hline with hflat | ⟨s, rfl⟩
        · exact hflat
        · rw [flatReply_error_iff]
          exact fun hs => parse_cut_line hs _ _ (congrArg Prod.fst hparse)
      rw [parse_flat hflat ha] at hparse
      obtain ⟨hout', hclosed⟩ := Prod.mk.inj hparse
      refine List.forall_mem_cons.mpr ⟨hflat, ih hlines hout ?_⟩
      exact Prod.ext (List.cons.inj hout').2 hclosed
  · intro hflat
    have hvs : ∀ v ∈ replies.map replyData, Flat v := by
      intro v hv
      obtain ⟨reply, hreply, rfl⟩ := List.mem_map.mp hv
      exact hflat reply hreply
    have has : ∀ v ∈ replies.map replyData, Allocatable v := by
      intro v hv
      obtain ⟨reply, hreply, rfl⟩ := List.mem_map.mp hv
      exact hout reply hreply
    rw [parse_toBytesAll hvs has, List.map_map]
    rfl

end Reading

/-! ## Pipelines -/

/-- No command of the pipeline quotes a line feed. -/
def NoneCut (host : Host) (env : Env) (cmds : List Command) (w : World F) : Prop :=
  ∀ before cmd after, cmds = before ++ cmd :: after →
    QuotesOneLine env cmd (execAll host env before w)

theorem noneCut_cons (host : Host) (env : Env) (cmd : Command) (cmds : List Command) (w : World F) :
    NoneCut host env (cmd :: cmds) w ↔
      QuotesOneLine env cmd w ∧ NoneCut host env cmds (execCommand host env cmd w).2 :=
  forall_steps_cons (QuotesOneLine env) host env cmd cmds w

/-- The replies to a pipeline: flat when no command quotes a line feed, and error
    lines if not. -/
theorem execReplies_flat_iff (host : Host) (env : Env) {cmds : List Command} {replies : List Reply}
    (w : World F) (hrun : execReplies host env cmds w = replies.map .ok) :
    (∀ reply ∈ replies, LineOrFlat reply) ∧
      ((∀ reply ∈ replies, FlatReply reply) ↔ NoneCut host env cmds w) := by
  induction cmds generalizing replies w with
  | nil =>
    obtain rfl : replies = [] := List.map_eq_nil_iff.mp hrun.symm
    refine ⟨fun reply hreply => absurd hreply List.not_mem_nil, fun _ before cmd after heq => ?_,
      fun _ reply hreply => absurd hreply List.not_mem_nil⟩
    simp at heq
  | cons cmd cmds ih =>
    obtain ⟨reply, rest, rfl, hreply, hrest⟩ := execReplies_cons hrun
    obtain ⟨hlines, hiff⟩ := ih _ hrest
    have hanswer := exec_answers host env cmd w reply hreply
    refine ⟨List.forall_mem_cons.mpr ⟨?_, hlines⟩, ?_⟩
    · rcases hanswer with ⟨hflat, -⟩ | ⟨s, hs, -⟩
      · exact Or.inl hflat
      · exact Or.inr ⟨s, hs⟩
    · rw [List.forall_mem_cons, noneCut_cons, hiff, hanswer.flat_iff]

/-- **ONE COMMAND, ONE REPLY**: a pipeline whose commands return is answered by the
    replies, one for each; read back, they are these replies and nothing else
    exactly when no command quotes a line feed. -/
theorem pipeline_answered_iff (host : Host) (env : Env) (w : World F) {cmds : List Command}
    {replies : List Reply} (hin : ∀ cmd ∈ cmds, AllocatableCommand cmd)
    (hrun : execReplies host env cmds w = replies.map .ok)
    (hout : ∀ reply ∈ replies, Allocatable (replyData reply)) :
    (handle host env (pipeline cmds) w).panicked = none ∧
      (handle host env (pipeline cmds) w).written = toBytesAll (replies.map replyData) ∧
      (parse (handle host env (pipeline cmds) w).written =
          (replies.map (fun reply => .data (replyData reply)) ++ [.err .eof], .closed) ↔
        NoneCut host env cmds w) := by
  obtain ⟨hlines, hiff⟩ := execReplies_flat_iff host env w hrun
  rw [handle_pipeline host env w hin hrun]
  exact ⟨rfl, rfl, (replies_read_back_iff hlines hout).trans hiff⟩

omit [UnicodeTables] in
/-- `SET k v x`, whose reply quotes one line, and a PING. -/
theorem pipeline_answered_two :
    letI := asciiTables
    let cmds : List Command := [words ["SET", "k", "v", "x"], words ["PING"]]
    NoneCut quietHost stillEnv cmds (emptyWorld : World IntScore) ∧
      parse (handle quietHost stillEnv (pipeline cmds) (emptyWorld : World IntScore)).written =
        ([.data (.err "Error unsupported option: x"), .data (.status "PONG"), .err .eof],
          .closed) := by
  intro cmds
  have hset : (@execCommand IntScore asciiTables _ quietHost stillEnv
    (words ["SET", "k", "v", "x"]) emptyWorld).1 =
      .ok (errReply "Error unsupported option: x") := rfl
  have hping : ∀ w : World IntScore, (@execCommand IntScore asciiTables _ quietHost stillEnv
      (words ["PING"]) w).1 = .ok (statusReply "PONG") := fun _ => rfl
  let _ := asciiTables
  have hrun : execReplies quietHost stillEnv cmds (emptyWorld : World IntScore) =
      [errReply "Error unsupported option: x", statusReply "PONG"].map .ok := by
    rw [execReplies, execReplies, execReplies, hset, hping]
    rfl
  have hin : ∀ cmd ∈ cmds, AllocatableCommand cmd := by
    simp only [cmds, List.forall_mem_cons, allocatableCommand_iff]
    exact ⟨by decide, by decide, fun cmd hcmd => absurd hcmd List.not_mem_nil⟩
  have hline : NoneCut quietHost stillEnv cmds (emptyWorld : World IntScore) := by
    rw [noneCut_cons, noneCut_cons]
    refine ⟨?_, ?_, fun before cmd after heq => absurd heq (by simp)⟩
    · rw [QuotesOneLine, quoted_set rfl]
      decide
    · rw [QuotesOneLine, quoted_other (by decide)]
      exact oneLine_none
  have hout : ∀ reply ∈ [errReply "Error unsupported option: x", statusReply "PONG"],
      Allocatable (replyData reply) := by
    simp only [List.forall_mem_cons]
    exact ⟨⟨by decide, fun xs h => by cases h⟩, ⟨by decide, fun xs h => by cases h⟩,
      fun reply hreply => absurd hreply List.not_mem_nil⟩
  obtain ⟨-, -, hiff⟩ := pipeline_answered_iff quietHost stillEnv emptyWorld hin hrun hout
  exact ⟨hline, hiff.mpr hline⟩

omit [UnicodeTables] in
/-- `SET k v` with the option `x`, a line break and `+OK`: one command is answered
    with an error and a status. -/
theorem set_option_forges_reply :
    letI := asciiTables
    let cmds : List Command := [words ["SET", "k", "v", "x\r\n+OK"]]
    let served := handle quietHost stillEnv (pipeline cmds) (emptyWorld : World IntScore)
    served.panicked = none ∧ parse served.written =
      ([.data (.err "Error unsupported option: x"), .data (.status "OK"), .err .eof], .closed) := by
  let _ := asciiTables
  intro cmds served
  have hwritten : served.written = ascii "-Error unsupported option: x\r\n+OK\r\n" := by
    decide +kernel
  refine ⟨by decide +kernel, ?_⟩
  rw [hwritten]
  rfl

end TinyServer
