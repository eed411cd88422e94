import TinyRedis.ExpiryProofs
import TinyRedis.LifetimeProofs
import TinyRedis.ReplyFramesProofs

/-! # Replies that quote an argument

    Six executors put bytes of the command into an error line: SET the option or
    the seconds that it does not understand, SETEX and EXPIRE the seconds, EXPIRE
    also its option, RENAME the name of a key that is not there, LPOS and
    HRANDFIELD an option.  `quoted` says what is quoted, from the command and the
    store before it.

    The reply to a command is flat exactly when what it quotes holds no line feed
    (`exec_answers`).  For the other executors that is the previous module; for
    these six it is read off the ways through them. -/

namespace TinyDb

open GoString GoStrconv GoFloat GoProgram GoProgram.Prog TinyResp TinyZSet

variable {F : Type} {c : Caps} {reply : Reply} {a : Option Bytes}

/-! ## What is quoted -/

/-- The text of an argument. -/
def argText (cmd : Command) (i : Nat) : Bytes := str (cmd[i]?).join

/-- The text holds no line feed. -/
def OneLine (q : Bytes) : Prop := (10 : UInt8) ∉ q

instance decidableOneLine (q : Bytes) : Decidable (OneLine q) := inferInstanceAs (Decidable (¬ _))

section Quotes

variable [UnicodeTables]

/-- The options of SET without a value. -/
def setFlags : List Bytes := [ascii "nx", ascii "xx", ascii "get", ascii "keepttl"]

/-- SET quotes an option that it does not know, or seconds that are no integer. -/
def setQuotes : List (Option Bytes) → Option Bytes
  | [] => none
  | a :: rest =>
    if toLower (str a) ∈ setFlags then setQuotes rest
    else if toLower (str a) = ascii "ex" then
      match rest with
      | [] => none
      | v :: rest => if (parseInt (str v)).isOk then setQuotes rest else some (str v)
    else some (str a)

/-- SETEX quotes seconds that are no integer. -/
def setExQuotes (cmd : Command) : Option Bytes :=
  if cmd.length = 4 ∧ (parseInt (argText cmd 2)).isOk = false then some (argText cmd 2) else none

/-- EXPIRE quotes seconds that are no integer, and, of a key that has not
    expired, an option in lower case that it does not know. -/
def expireQuotes (env : Env) (cmd : Command) (w : World F) : Option Bytes :=
  if cmd.length ≠ 3 ∧ cmd.length ≠ 4 then none
  else if (parseInt (argText cmd 2)).isOk = false then some (argText cmd 2)
  else if w.store.Due (argText cmd 1) (env.clock (w.tick + 1)) ∨
      expireOption (cmd.drop 3) ∈ [[], ascii "nx", ascii "xx", ascii "gt", ascii "lt"] then none
  else some (expireOption (cmd.drop 3))

/-- RENAME quotes the name of a key that is not there. -/
def renameQuotes (env : Env) (cmd : Command) (w : World F) : Option Bytes :=
  if cmd.length = 3 ∧ (w.store.live (env.clock w.tick) (argText cmd 1)).isNone then
    some (argText cmd 1)
  else none

/-- Whether LPOS takes a value for an option; none for an option it does not
    know. -/
def lPosTakes (name val : Option Bytes) : Option Bool :=
  if toLower (str name) = ascii "rank" then some ((atoi (str val)).toOption.any (· ≠ 0))
  else if toLower (str name) = ascii "count" then some ((atoi (str val)).toOption.any (0 ≤ ·))
  else if toLower (str name) = ascii "maxlen" then some ((atoi (str val)).toOption.any (0 ≤ ·))
  else none

/-- LPOS quotes an option that it does not know, when it takes the values before
    it. -/
def lPosQuotes : List (Option Bytes) → Option Bytes
  | name :: val :: rest =>
    match lPosTakes name val with
    | some true => lPosQuotes rest
    | some false => none
    | none => some (str name)
  | _ => none

/-- HRANDFIELD quotes an option that it does not know, after a count that is an
    integer. -/
def hRandFieldQuotes (cmd : Command) : Option Bytes :=
  if cmd.length = 4 ∧ (atoi (argText cmd 2)).isOk ∧
    toLower (argText cmd 3) ≠ ascii "withvalues" then
    some (argText cmd 3)
  else none

/-- The text that the reply to a command quotes in a line. -/
def quoted (env : Env) (cmd : Command) (w : World F) : Option Bytes :=
  let name := toLower (cmdName cmd)
  if name = ascii "set" then setQuotes (cmd.drop 3)
  else if name = ascii "setex" then setExQuotes cmd
  else if name = ascii "expire" then expireQuotes env cmd w
  else if name = ascii "rename" then renameQuotes env cmd w
  else if name = ascii "lpos" then if cmd.length % 2 = 1 then lPosQuotes (cmd.drop 3) else none
  else if name = ascii "hrandfield" then hRandFieldQuotes cmd
  else none

section Equations

variable {env : Env} {cmd : Command} {w : World F}

theorem quoted_set (h : toLower (cmdName cmd) = ascii "set") :
    quoted env cmd w = setQuotes (cmd.drop 3) := by
  rw [quoted, h, if_pos rfl]

theorem quoted_setex (h : toLower (cmdName cmd) = ascii "setex") :
    quoted env cmd w = setExQuotes cmd := by
  rw [quoted, h, if_neg (by decide), if_pos rfl]

theorem quoted_expire (h : toLower (cmdName cmd) = ascii "expire") :
    quoted env cmd w = expireQuotes env cmd w := by
  rw [quoted, h, if_neg (by decide), if_neg (by decide), if_pos rfl]

theorem quoted_rename (h : toLower (cmdName cmd) = ascii "rename") :
    quoted env cmd w = renameQuotes env cmd w := by
  rw [quoted, h, if_neg (by decide), if_neg (by decide), if_neg (by decide), if_pos rfl]

theorem quoted_lpos (h : toLower (cmdName cmd) = ascii "lpos") : quoted env cmd w =
    if cmd.length % 2 = 1 then lPosQuotes (cmd.drop 3) else none := by
  rw [quoted, h, if_neg (by decide), if_neg (by decide), if_neg (by decide), if_neg (by decide),
    if_pos rfl]

theorem quoted_hrandfield (h : toLower (cmdName cmd) = ascii "hrandfield") :
    quoted env cmd w = hRandFieldQuotes cmd := by
  rw [quoted, h, if_neg (by decide), if_neg (by decide), if_neg (by decide), if_neg (by decide),
    if_neg (by decide), if_pos rfl]

/-- The executors that quote. -/
def quotingNames : List String := ["set", "setex", "expire", "rename", "lpos", "hrandfield"]

/-- The others quote nothing. -/
theorem quoted_other (h : ∀ n ∈ quotingNames, toLower (cmdName cmd) ≠ ascii n) :
    quoted env cmd w = none := by
  rw [quoted, if_neg (h _ (by simp [quotingNames])), if_neg (h _ (by simp [quotingNames])),
    if_neg (h _ (by simp [quotingNames])), if_neg (h _ (by simp [quotingNames])),
    if_neg (h _ (by simp [quotingNames])), if_neg (h _ (by simp [quotingNames]))]

end Equations

/-- All that a command quotes is one line. -/
def QuotesOneLine (env : Env) (cmd : Command) (w : World F) : Prop :=
  ∀ q ∈ quoted env cmd w, OneLine q

end Quotes

/-! ## Answers -/

/-- A reply that is flat exactly when `P` holds, and an error line if it does
    not. -/
def Answer (P : Prop) (reply : Reply) : Prop :=
  (FlatReply reply ∧ P) ∨ ∃ s, reply = some (.errorData s) ∧ (FlatReply reply ↔ P)

theorem Answer.flat_iff {P : Prop} (h : Answer P reply) : FlatReply reply ↔ P := by
  rcases h with ⟨hflat, hP⟩ | ⟨s, -, hiff⟩
  · exact iff_of_true hflat hP
  · exact hiff

/-- What is returned is an answer. -/
def Answers (P : Prop) (r : Except Abort Reply) : Prop := ∀ reply, r = .ok reply → Answer P reply

theorem answers_ok {P : Prop} (h : Answer P reply) : Answers P (.ok reply) := by
  intro reply' hreply
  rwa [← Except.ok.inj hreply]

theorem answers_panic {P : Prop} (why : Abort) : Answers P (.error why) := by
  intro reply hreply
  cases hreply

/-- Every way through the program that returns, returns a reply that is flat
    exactly when `P` holds. -/
abbrev FramesWhen (P : Prop) (p : Cmd F c Reply) : Prop :=
  Follows anyOps (fun _ e => Answers P e) () p

theorem Frames.when {p : Cmd F c Reply} (h : Frames p) {P : Prop} (hP : P) : FramesWhen P p := by
  refine h.mono fun _ e he => ?_
  cases e with
  | ok reply => exact answers_ok (Or.inl ⟨he, hP⟩)
  | error why => exact answers_panic why

theorem FramesWhen.outcome {P : Prop} {p : Cmd F c Reply} (h : FramesWhen P p) (env : Env)
    (w : World F) : Answers P (outcome env p w).1 := by
  have hstep : ∀ u (o : Op F c) v (w : World F), True → anyOps.next u o = some v →
      anyOps.rely u o (o.step env w).1 ∧ True := fun _ _ _ _ _ _ => ⟨trivial, trivial⟩
  obtain ⟨_, -, hend⟩ := h.run (I := fun (_ : Unit) (_ : World F) => True) hstep trivial
  exact hend

theorem framesWhen_bind {α : Type} {P : Prop} {p : Cmd F c α} {f : α → Cmd F c Reply}
    (h : ∀ a, FramesWhen P (f a)) : FramesWhen P (p >>= f) := by
  refine (follows_bind p f).mpr (follows_anyOps (fun e => ?_) p)
  cases e with
  | ok a => exact h a
  | error why => exact answers_panic why

theorem framesWhen_guard {P p : Prop} [Decidable p] {reply : Reply} {body : Cmd F c Reply}
    (hreply : p → Answer P reply) (h : ¬ p → FramesWhen P body) :
    FramesWhen P (if p then .ret reply else body) :=
  (follows_ite p _ _).mpr ⟨fun hp => answers_ok (hreply hp), h⟩

/-- An argument that is there. -/
theorem strAt_bind_eq {α : Type} {cmd : Command} {i : Nat} (hi : i < cmd.length)
    (f : Bytes → Cmd F c α) : strAt cmd i >>= f = f (argText cmd i) := by
  have hget : cmd[i]? = some cmd[i] := List.getElem?_eq_getElem hi
  rw [strAt_eq hget, argText, hget]
  rfl

/-- Nothing is quoted. -/
theorem oneLine_none : ∀ q ∈ (none : Option Bytes), OneLine q := by
  intro q hq
  cases hq

theorem oneLine_some_iff (q : Bytes) : (∀ b ∈ some q, OneLine b) ↔ OneLine q := by
  constructor
  · exact fun h => h q rfl
  · intro hq b hb
    cases hb
    exact hq

/-- An answer that quotes nothing. -/
theorem answer_flat (h : FlatReply reply) :
    Answer (∀ q ∈ (none : Option Bytes), OneLine q) reply := Or.inl ⟨h, oneLine_none⟩

/-- A line with a quotation in it. -/
theorem answer_quote {before after : String} (q : Bytes) (hbefore : OneLine (ascii before))
    (hafter : OneLine (ascii after)) :
    Answer (∀ b ∈ some q, OneLine b) (some (.errorData (ascii before ++ q ++ ascii after))) := by
  refine Or.inr ⟨_, rfl, ?_⟩
  rw [oneLine_some_iff, flatReply_error_iff]
  simp only [List.mem_append, not_or]
  exact ⟨fun h => h.1.2, fun h => ⟨⟨hbefore, h⟩, hafter⟩⟩

/-- A line that ends with a quotation. -/
theorem answer_quote_end {before : String} (q : Bytes) (hbefore : OneLine (ascii before)) :
    Answer (∀ b ∈ some q, OneLine b) (some (.errorData (ascii before ++ q))) := by
  have hline := @answer_quote before "" q hbefore (ascii_oneLine rfl)
  rwa [show ascii "" = [] from rfl, List.append_nil] at hline

/-! ## The six executors -/

section Executors

variable {cmd : Command} {env : Env} {w : World F}

/-! ## Loops and helpers -/

theorem flatReply_set (written : Bool) : FlatReply (setReply written) :=
  flatReply_ite (flat_status rfl) (flatReply_bulk none)

/-- The end of SET, from where it writes or not. -/
theorem setEnd_frames (o : SetOptions) (key : Bytes) (val : Option Bytes) (write : Bool)
    {res : Reply} (h : FlatReply res) :
    Frames (setEnd o key val write res : Cmd F _ _) := by
  have hex : Frames (do
      if o.ex then
        let _ ← setTTL key (int64 (o.exval + (← timeNow)))
      return res : Cmd F timedWrites Reply) :=
    frames_ite (frames_bind fun _ => frames_bind fun _ => h) h
  unfold setEnd
  exact frames_ite (frames_bind fun _ => frames_ite (frames_bind fun _ => hex) hex)
    (frames_ite (frames_bind fun _ => hex) hex)

/-- The reply of HRANDFIELD, once its arguments are read. -/
theorem randField_frames (key : Bytes) (count : Int) (withValues : Prop) [Decidable withValues] :
    Frames (reading .hash key emptyArrayReply fun hash => do
      if withValues then
        return bulksReply (← hash.randomWithValue count)
      else
        return bulksReply ((← hash.random count).map some) : Cmd F reads Reply) :=
  frames_reading flatReply_emptyArray fun _ => frames_ite
    (frames_bind fun _ => flatReply_bulks _) (frames_bind fun _ => flatReply_bulks _)

theorem flatReply_lPos (list : RedisList) (elem : Option Bytes) (o : LPosOptions) :
    FlatReply (list.lPos elem o) := by
  have hints : ∀ res : List Int,
      FlatReply (some (.arrayData (res.map fun pos => .intData (Int64.ofInt pos)))) := by
    intro res
    refine .array _ fun x hx => ?_
    obtain ⟨pos, -, rfl⟩ := List.mem_map.mp hx
    exact .int _
  rw [RedisList.lPos]
  dsimp only
  refine flatReply_ite (flatReply_ite (flatReply_bulk _) (flatReply_int _))
    (flatReply_ite (flatReply_bulk _) ?_)
  cases o.count with
  | none =>
    dsimp only
    split
    · exact flatReply_int _
    · exact flatReply_bulk _
  | some count => exact flatReply_ite (flatReply_bulk _) (hints _)

/-- EXPIRE ends with an integer, unless it does not know the option. -/
theorem expireEnd_frames {opt : Bytes}
    (hopt : opt ∈ [[], ascii "nx", ascii "xx", ascii "gt", ascii "lt"]) (currentExpire : Option Int)
    (key : Bytes) (ttl : Int) :
    Frames (expireEnd opt currentExpire key ttl : Cmd F _ _) := by
  have hset : Frames (do return intReply (← setTTL key ttl) : Cmd F timedWrites Reply) :=
    frames_bind fun r => flatReply_int r
  have hzero : Frames (pure (intReply 0) : Cmd F timedWrites Reply) := flatReply_int 0
  simp only [List.mem_cons, List.not_mem_nil, or_false] at hopt
  rcases hopt with rfl | rfl | rfl | rfl | rfl
  · exact hset
  · rw [expireEnd, if_pos rfl]
    exact frames_ite hset hzero
  · rw [expireEnd, if_neg (by decide), if_pos rfl]
    exact frames_ite hset hzero
  · rw [expireEnd, if_neg (by decide), if_neg (by decide), if_pos rfl]
    exact frames_ite hset hzero
  · rw [expireEnd, if_neg (by decide), if_neg (by decide), if_neg (by decide), if_pos rfl]
    exact frames_ite hset hzero

theorem expireEnd_unknown {opt : Bytes}
    (hopt : opt ∉ [[], ascii "nx", ascii "xx", ascii "gt", ascii "lt"]) (currentExpire : Option Int)
    (key : Bytes) (ttl : Int) :
    (expireEnd opt currentExpire key ttl : Cmd F _ _) =
      .ret (some (.errorData (ascii "error: unsupport " ++ opt ++ ascii
        ", except nx, xx, gt, lt"))) := by
  simp only [List.mem_cons, List.not_mem_nil, or_false, not_or] at hopt
  obtain ⟨hnil, hnx, hxx, hgt, hlt⟩ := hopt
  rw [expireEnd, if_neg hnx, if_neg hxx, if_neg hgt, if_neg hlt, if_pos hnil]
  rfl

/-- A program behind `m.db.Get(key)` of any type. -/
theorem outcome_getAny {α : Type} (key : Bytes) (f : Option (Value F) → Cmd F anyWrites α) :
    outcome env (getAny key >>= f) w =
      outcome env (f (w.store.db.lookup key)) ⟨w.store, w.tick + 1, w.draws⟩ := rfl

variable [UnicodeTables]

/-- An option loop that ends well quotes nothing; one that does not answers with
    its quotation. -/
def Quoting {α : Type} (r : Except Reply α) (quote : Option Bytes) : Prop :=
  match r with
  | .ok _ => quote = none
  | .error reply => Answer (∀ q ∈ quote, OneLine q) reply

theorem setQuotes_flag {flag : Bytes} (h : toLower (str a) = flag) (hflag : flag ∈ setFlags)
    (rest : List (Option Bytes)) :
    setQuotes (a :: rest) = setQuotes rest := by
  cases rest with
  | nil => simp [setQuotes, h, hflag]
  | cons v rest => rw [setQuotes, if_pos (h ▸ hflag)]

theorem setQuotes_unknown (hflag : toLower (str a) ∉ setFlags) (hex : toLower (str a) ≠ ascii "ex")
    (rest : List (Option Bytes)) :
    setQuotes (a :: rest) = some (str a) := by
  cases rest with
  | nil => rw [setQuotes, if_neg hflag, if_neg hex]
  | cons v rest => rw [setQuotes, if_neg hflag, if_neg hex]

theorem setQuotes_ex (h : toLower (str a) = ascii "ex") (v : Option Bytes)
    (rest : List (Option Bytes)) : setQuotes (a :: v :: rest) =
      if (parseInt (str v)).isOk then setQuotes rest else some (str v) := by
  have hflag : toLower (str a) ∉ setFlags := by
    rw [h]
    decide
  rw [setQuotes, if_neg hflag, if_pos h]

theorem setOptions_quoting (args : List (Option Bytes)) (o : SetOptions) :
    Quoting (setOptions args o) (setQuotes args) := by
  fun_induction setOptions args o with
  | case1 => rfl
  | case2 a rest o name h ih => rwa [setQuotes_flag h (by decide)]
  | case3 a rest o name _ h ih => rwa [setQuotes_flag h (by decide)]
  | case4 a rest o name _ _ h ih => rwa [setQuotes_flag h (by decide)]
  | case5 a rest o name _ _ _ h ih => rwa [setQuotes_flag h (by decide)]
  | case6 a o name _ _ _ _ h =>
    have hnone : setQuotes [a] = none := by
      rw [setQuotes, if_neg (by rw [show toLower (str a) = ascii "ex" from h]; decide), if_pos h]
    rw [hnone]
    exact answer_flat (flat_err rfl)
  | case7 a o name _ _ _ _ h v rest e hv =>
    rw [setQuotes_ex h, hv]
    exact answer_quote _ (ascii_oneLine rfl) (ascii_oneLine rfl)
  | case8 a o name _ _ _ _ h v rest n hv ih =>
    rw [setQuotes_ex h, hv]
    exact ih
  | case9 a rest o name hnx hxx hget hkeep hex =>
    have hflag : toLower (str a) ∉ setFlags := by
      simp only [setFlags, List.mem_cons, List.not_mem_nil, or_false, not_or]
      exact ⟨hnx, hxx, hget, hkeep⟩
    rw [setQuotes_unknown hflag hex]
    exact answer_quote_end _ (ascii_oneLine rfl)

theorem lPosQuotes_taken {name val : Option Bytes} (h : lPosTakes name val = some true)
    (rest : List (Option Bytes)) : lPosQuotes (name :: val :: rest) = lPosQuotes rest := by
  rw [lPosQuotes, h]

theorem lPosQuotes_refused {name val : Option Bytes} (h : lPosTakes name val = some false)
    (rest : List (Option Bytes)) : lPosQuotes (name :: val :: rest) = none := by
  rw [lPosQuotes, h]

theorem lPosOptions_quoting (args : List (Option Bytes)) (o : LPosOptions) :
    Quoting (lPosOptions args o) (lPosQuotes args) := by
  fun_induction lPosOptions args o with
  | case1 name val rest o name' hrank hval =>
    rw [lPosQuotes_refused (by rw [lPosTakes, if_pos hrank, hval]; rfl)]
    exact answer_flat (flat_err rfl)
  | case2 name val rest o name' hrank n hval hn ih =>
    rwa [lPosQuotes_taken (by rw [lPosTakes, if_pos hrank, hval]; simpa [Except.toOption] using hn)]
  | case3 name val rest o name' hrank e hval =>
    rw [lPosQuotes_refused (by rw [lPosTakes, if_pos hrank, hval]; rfl)]
    exact answer_flat (flat_err rfl)
  | case4 name val rest o name' hrank hcount n hval hn =>
    have htakes : lPosTakes name val = some false := by
      rw [lPosTakes, if_neg hrank, if_pos hcount, hval]
      simpa [Except.toOption] using hn
    rw [lPosQuotes_refused htakes]
    exact answer_flat (flat_err rfl)
  | case5 name val rest o name' hrank hcount n hval hn ih =>
    have htakes : lPosTakes name val = some true := by
      rw [lPosTakes, if_neg hrank, if_pos hcount, hval]
      simpa [Except.toOption] using hn
    rwa [lPosQuotes_taken htakes]
  | case6 name val rest o name' hrank hcount e hval =>
    rw [lPosQuotes_refused (by rw [lPosTakes, if_neg hrank, if_pos hcount, hval]; rfl)]
    exact answer_flat (flat_err rfl)
  | case7 name val rest o name' hrank hcount hmax n hval hn =>
    have htakes : lPosTakes name val = some false := by
      rw [lPosTakes, if_neg hrank, if_neg hcount, if_pos hmax, hval]
      simpa [Except.toOption] using hn
    rw [lPosQuotes_refused htakes]
    exact answer_flat (flat_err rfl)
  | case8 name val rest o name' hrank hcount hmax n hval hn ih =>
    have htakes : lPosTakes name val = some true := by
      rw [lPosTakes, if_neg hrank, if_neg hcount, if_pos hmax, hval]
      simpa [Except.toOption] using hn
    rwa [lPosQuotes_taken htakes]
  | case9 name val rest o name' hrank hcount hmax e hval =>
    rw [lPosQuotes_refused
      (by rw [lPosTakes, if_neg hrank, if_neg hcount, if_pos hmax, hval]; rfl)]
    exact answer_flat (flat_err rfl)
  | case10 name val rest o name' hrank hcount hmax =>
    rw [lPosQuotes, show lPosTakes name val = none by
      rw [lPosTakes, if_neg hrank, if_neg hcount, if_neg hmax]]
    exact answer_quote_end _ (ascii_oneLine rfl)
  | case11 args o hshort => rw [lPosQuotes.eq_2 _ hshort]; rfl

theorem setString_quoting (hne : cmd ≠ []) (hname : toLower (cmdName cmd) = ascii "set") :
    Answers (∀ q ∈ setQuotes (cmd.drop 3), OneLine q) (outcome env (setString cmd) w).1 := by
  rw [setString, named_eq hne hname]
  refine FramesWhen.outcome (framesWhen_guard (fun hlen => ?_) fun _ => framesWhen_bind fun key =>
    framesWhen_bind fun val => framesWhen_bind fun _ => ?_) env w
  · rw [List.drop_eq_nil_of_le (Nat.le_of_lt hlen)]
    exact answer_flat (flat_err rfl)
  · have hquote := setOptions_quoting (cmd.drop 3) ⟨false, false, false, false, false, 0⟩
    cases hopt : setOptions (cmd.drop 3) ⟨false, false, false, false, false, 0⟩ with
    | error reply =>
      rw [hopt] at hquote
      exact answers_ok hquote
    | ok o =>
      rw [hopt] at hquote
      have hnone : setQuotes (cmd.drop 3) = none := hquote
      rw [hnone]
      refine Frames.when ?_ oneLine_none
      refine frames_guard (flat_err rfl) (frames_withLocks (frames_found ?_ flatReply_wrongType
        fun old => ?_))
      · exact setEnd_frames o key val _ (flatReply_ite (flatReply_bulk _) (flatReply_set _))
      · exact setEnd_frames o key val _ (flatReply_ite (flatReply_bulk _) (flatReply_set _))

theorem setExString_quoting (hne : cmd ≠ []) (hname : toLower (cmdName cmd) = ascii "setex") :
    Answers (∀ q ∈ setExQuotes cmd, OneLine q) (outcome env (setExString cmd) w).1 := by
  rw [setExString, named_eq hne hname]
  refine FramesWhen.outcome (framesWhen_guard (fun hlen => ?_) fun hlen => ?_) env w
  · rw [setExQuotes, if_neg fun h => hlen h.1]
    exact answer_flat (flat_err rfl)
  · have hlen : cmd.length = 4 := not_not.mp hlen
    rw [strAt_bind_eq (by omega)]
    cases hsecs : parseInt (argText cmd 2) with
    | error e =>
      rw [setExQuotes, if_pos ⟨hlen, by rw [hsecs]; rfl⟩]
      exact answers_ok (answer_quote _ (ascii_oneLine rfl) (ascii_oneLine rfl))
    | ok ex =>
      rw [setExQuotes, if_neg (by rw [hsecs]; exact fun h => Bool.noConfusion h.2)]
      refine Frames.when ?_ oneLine_none
      exact frames_bind fun _ => frames_bind fun _ => frames_bind fun _ =>
        frames_withLocks (frames_bind fun _ => frames_bind fun _ => flat_status rfl)

theorem hRandFieldHash_quoting (hne : cmd ≠ [])
    (hname : toLower (cmdName cmd) = ascii "hrandfield") :
    Answers (∀ q ∈ hRandFieldQuotes cmd, OneLine q) (outcome env (hRandFieldHash cmd) w).1 := by
  rw [hRandFieldHash, named_eq hne hname]
  refine FramesWhen.outcome (framesWhen_guard (fun hlen => ?_) fun _ =>
    framesWhen_bind fun key => ?_) env w
  · rw [hRandFieldQuotes, if_neg fun h => hlen.2.2 h.1]
    exact answer_flat (flat_err rfl)
  by_cases hfour : cmd.length = 4
  · rw [atoiAt, if_pos (by omega), bind_bind, strAt_bind_eq (by omega)]
    cases hcount : atoi (argText cmd 2) with
    | error e =>
      rw [hRandFieldQuotes, if_neg (by rw [hcount]; exact fun h => Bool.noConfusion h.2.1)]
      exact answers_ok (answer_flat (flat_err rfl))
    | ok count =>
      rw [pure_eq, ret_bind]
      dsimp only
      rw [if_pos hfour, strAt_bind_eq (by omega)]
      refine framesWhen_guard (fun hopt => ?_) fun hopt => ?_
      · rw [hRandFieldQuotes, if_pos ⟨hfour, by rw [hcount]; rfl, hopt⟩]
        exact answer_quote _ (ascii_oneLine rfl) (ascii_oneLine rfl)
      · rw [hRandFieldQuotes, if_neg fun h => hopt h.2.2]
        exact (randField_frames key count _).when oneLine_none
  · rw [hRandFieldQuotes, if_neg fun h => hfour h.1]
    refine Frames.when (frames_bind fun count => ?_) oneLine_none
    cases count with
    | error e => exact flat_err rfl
    | ok count =>
      have hdefault : ¬ toLower (ascii "withvalues") ≠ ascii "withvalues" := not_not.mpr rfl
      dsimp only
      rw [if_neg hfour, pure_eq, ret_bind, if_neg hdefault]
      exact randField_frames key count _

theorem lPosList_quoting (hne : cmd ≠ []) (hname : toLower (cmdName cmd) = ascii "lpos") :
    Answers (∀ q ∈ if cmd.length % 2 = 1 then lPosQuotes (cmd.drop 3) else none, OneLine q)
      (outcome env (lPosList cmd) w).1 := by
  rw [lPosList, named_eq hne hname]
  refine FramesWhen.outcome (framesWhen_guard (fun hlen => ?_) fun hlen =>
    framesWhen_bind fun key => framesWhen_bind fun elem => ?_) env w
  · rcases hlen with hshort | heven
    · have hnone : (if cmd.length % 2 = 1 then lPosQuotes (cmd.drop 3) else none) = none := by
        rw [List.drop_eq_nil_of_le (Nat.le_of_lt hshort)]
        exact ite_self none
      rw [hnone]
      exact answer_flat (flat_err rfl)
    · rw [if_neg heven]
      exact answer_flat (flat_err rfl)
  · rw [if_pos (by omega)]
    have hquote := lPosOptions_quoting (cmd.drop 3) ⟨none, none, none⟩
    cases hopt : lPosOptions (cmd.drop 3) ⟨none, none, none⟩ with
    | error reply =>
      rw [hopt] at hquote
      exact answers_ok hquote
    | ok o =>
      rw [hopt] at hquote
      have hnone : lPosQuotes (cmd.drop 3) = none := hquote
      rw [hnone]
      refine Frames.when ?_ oneLine_none
      refine frames_reading (flatReply_bulk none) fun list =>
        frames_guard (flatReply_bulk none) (flatReply_lPos list elem o)

theorem expireKey_quoting (hne : cmd ≠ []) (hname : toLower (cmdName cmd) = ascii "expire") :
    Answers (∀ q ∈ expireQuotes env cmd w, OneLine q) (outcome env (expireKey cmd) w).1 := by
  obtain ⟨name, rest, rfl⟩ := List.exists_cons_of_ne_nil hne
  have hcmd : toLower (str name) = ascii "expire" := hname
  by_cases hlen : (name :: rest).length ≠ 3 ∧ (name :: rest).length ≠ 4
  · rw [expireQuotes, if_pos hlen, expireKey, strAt_bind (a := name) rfl,
      if_pos (Or.inr (by omega))]
    exact answers_ok (answer_flat (flat_err rfl))
  obtain ⟨key, secs, opt, rfl, hopt⟩ :
      ∃ key secs opt, rest = key :: secs :: opt ∧ opt.length ≤ 1 := by
    rcases rest with _ | ⟨key, _ | ⟨secs, opt⟩⟩
    · simp at hlen
    · simp at hlen
    · exact ⟨key, secs, opt, rfl, by simp only [List.length_cons] at hlen; omega⟩
  have hquotes : expireQuotes env (name :: key :: secs :: opt) w =
      if (parseInt (str secs)).isOk = false then some (str secs)
      else if w.store.Due (str key) (env.clock (w.tick + 1)) ∨
          expireOption opt ∈ [[], ascii "nx", ascii "xx", ascii "gt", ascii "lt"] then none
      else some (expireOption opt) := by
    rw [expireQuotes, if_neg hlen]
    rfl
  rw [hquotes]
  cases hsecs : parseInt (str secs) with
  | error e =>
    have hguard : ¬ (toLower (str name) ≠ ascii "expire" ∨
        (name :: key :: secs :: opt).length < 3 ∨ (name :: key :: secs :: opt).length > 4) := by
      simp [hcmd]
      omega
    rw [if_pos (show (Except.error e : Except NumError Int64).isOk = false from rfl), expireKey,
      strAt_bind rfl, if_neg hguard, strAt_bind rfl, hsecs]
    exact answers_ok (answer_quote _ (ascii_oneLine rfl) (ascii_oneLine rfl))
  | ok n =>
    rw [if_neg (fun h => Bool.noConfusion h), expireKey_eq hcmd hsecs hopt, outcome_timeNow]
    by_cases hdue : w.store.Due (str key) (env.clock (w.tick + 1))
    · rw [if_pos (Or.inl hdue),
        outcome_checkTTL_of_due (w := ⟨w.store, w.tick + 1, w.draws⟩) hdue, if_pos Bool.not_false]
      exact answers_ok (answer_flat (flatReply_int 0))
    rw [outcome_checkTTL (w := ⟨w.store, w.tick + 1, w.draws⟩) hdue,
      if_neg (show ¬ (!true) = true from Bool.false_ne_true), withLock, outcome_withLocks,
      outcome_expireAt]
    by_cases hknown : expireOption opt ∈ [[], ascii "nx", ascii "xx", ascii "gt", ascii "lt"]
    · rw [if_pos (Or.inr hknown)]
      exact ((expireEnd_frames hknown _ _ _).when oneLine_none).outcome env _
    · rw [if_neg (fun h => h.elim hdue hknown), expireEnd_unknown hknown]
      exact answers_ok (answer_quote _ (ascii_oneLine rfl) (ascii_oneLine rfl))

theorem renameKey_quoting (hne : cmd ≠ []) (hname : toLower (cmdName cmd) = ascii "rename") :
    Answers (∀ q ∈ renameQuotes env cmd w, OneLine q) (outcome env (renameKey cmd) w).1 := by
  obtain ⟨name, rest, rfl⟩ := List.exists_cons_of_ne_nil hne
  have hname : toLower (str name) = ascii "rename" := hname
  rw [renameKey, strAt_bind (a := name) rfl]
  by_cases hlen : (name :: rest).length = 3
  · obtain ⟨a, old, new, heq⟩ : ∃ a b c, name :: rest = [a, b, c] := List.length_eq_three.mp hlen
    rw [heq] at hlen ⊢
    rw [if_neg (by simp [hname]), strAt_bind rfl, strAt_bind rfl]
    have hmissing : Answers (∀ q ∈ some (str old), OneLine q) (.ok (some (.errorData
        (ascii "error: " ++ str old ++ ascii " not exist")))) :=
      answers_ok (answer_quote _ (ascii_oneLine rfl) (ascii_oneLine rfl))
    by_cases hdue : w.store.Due (str old) (env.clock w.tick)
    · have hlive : (w.store.live (env.clock w.tick) (argText [a, old, new] 1)).isNone := by
        rw [Option.isNone_iff_eq_none]
        exact Store.live_of_due hdue
      rw [renameQuotes, if_pos ⟨hlen, hlive⟩, outcome_checkTTL_of_due hdue, if_pos Bool.not_false]
      exact hmissing
    rw [outcome_checkTTL hdue, if_neg (show ¬ (!true) = true from Bool.false_ne_true),
      outcome_withLocks, outcome_getAny]
    have hlive : w.store.live (env.clock w.tick) (argText [a, old, new] 1) =
        (w.store.db.lookup (str old)).map fun v => (v, w.store.ttl.lookup (str old)) :=
      Store.live_of_not_due hdue
    cases hlookup : w.store.db.lookup (str old) with
    | none =>
      rw [renameQuotes, if_pos ⟨hlen, by rw [hlive, hlookup]; rfl⟩]
      exact hmissing
    | some v =>
      rw [renameQuotes, if_neg (by rw [hlive, hlookup]; exact fun h => Bool.noConfusion h.2)]
      refine FramesWhen.outcome (Frames.when ?_ oneLine_none) env _
      exact frames_bind fun _ => frames_bind fun _ => frames_bind fun _ => frames_bind fun _ =>
        frames_bind fun _ => flat_status rfl
  · rw [renameQuotes, if_neg fun h => hlen h.1, if_pos (Or.inr hlen)]
    exact answers_ok (answer_flat (flat_err rfl))

theorem keysKey_frames (hname : toLower (cmdName cmd) = ascii "keys") :
    Frames (keysKey cmd : Cmd F _ _) := by
  refine (follows_ite _ _ _).mpr ⟨fun _ => (flatReply_error_iff _).mpr ?_, fun hlen => ?_⟩
  · simp only [List.mem_append, not_or]
    exact ⟨ascii_oneLine rfl, fun h => (itoa_not_crlf _ h).1 rfl⟩
  · obtain ⟨name, pattern, rfl⟩ := List.length_eq_two.mp (not_not.mp hlen)
    have hname : toLower (str name) = ascii "keys" := hname
    rw [strAt_bind rfl, if_neg (not_not.mpr hname)]
    exact frames_bind fun _ => frames_bind fun _ => frames_bind fun _ => flatReply_bulks _

end Executors

/-! ## The table -/

section Table

variable [UnicodeTables] [FloatText F]

/-- Run under its name, the executor gives a reply that is flat when what it
    quotes is one line. -/
def Quotable (env : Env) (w : World F) (entry : String × Executor F) : Prop :=
  ∀ cmd, cmd ≠ [] → toLower (cmdName cmd) = ascii entry.1 →
    Answers (QuotesOneLine env cmd w) (outcome env (entry.2.body cmd) w).1

/-- **Every executor** gives a reply that is flat when what it quotes is one
    line. -/
theorem cmdTable_quotable (host : Host) (env : Env) (w : World F) :
    ∀ entry ∈ (cmdTable host : List (String × Executor F)), Quotable env w entry := by
  have quoting : ∀ {name : String} {e : Executor F} {quotes : Command → Option Bytes},
      (∀ {cmd}, toLower (cmdName cmd) = ascii name → quoted env cmd w = quotes cmd) →
      (∀ {cmd}, cmd ≠ [] → toLower (cmdName cmd) = ascii name →
        Answers (∀ q ∈ quotes cmd, OneLine q) (outcome env (e.body cmd) w).1) →
      Quotable env w (name, e) := by
    intro name e quotes hquoted h cmd hne hname
    rw [QuotesOneLine, hquoted hname]
    exact h hne hname
  have other : ∀ {name : String} {cmd : Command},
      (quotingNames.all fun n => ascii name ≠ ascii n) = true →
        toLower (cmdName cmd) = ascii name → quoted env cmd w = none := by
    intro name cmd hother hname
    refine quoted_other ?_
    rw [hname]
    simpa using hother
  have plain : ∀ {name : String} {e : Executor F},
      (quotingNames.all fun n => ascii name ≠ ascii n) = true → (∀ cmd, Frames (e.body cmd)) →
        Quotable env w (name, e) := by
    intro name e hother hframes
    exact quoting (other hother) fun {cmd} _ _ => ((hframes cmd).when oneLine_none).outcome env w
  simp only [cmdTable, List.forall_mem_cons]
  refine ⟨plain (by decide) pingKeys_frames, plain (by decide) delKey_frames,
    plain (by decide) existsKey_frames, ?_, ?_, plain (by decide) persistKey_frames,
    plain (by decide) ttlKey_frames, plain (by decide) typeKey_frames, ?_, ?_,
    plain (by decide) getString_frames, plain (by decide) setRangeString_frames,
    plain (by decide) getRangeString_frames, plain (by decide) mSetString_frames,
    plain (by decide) mGetString_frames, ?_, plain (by decide) setNxString_frames,
    plain (by decide) strLenString_frames, plain (by decide) incrString_frames,
    plain (by decide) incrByString_frames, plain (by decide) decrString_frames,
    plain (by decide) decrByString_frames, plain (by decide) incrByFloatString_frames,
    plain (by decide) appendString_frames, plain (by decide) hDelHash_frames,
    plain (by decide) hExistsHash_frames, plain (by decide) hGetHash_frames,
    plain (by decide) hGetAllHash_frames, plain (by decide) hIncrByHash_frames,
    plain (by decide) hIncrByFloatHash_frames, plain (by decide) hKeysHash_frames,
    plain (by decide) hLenHash_frames, plain (by decide) hMGetHash_frames,
    plain (by decide) hSetHash_frames, plain (by decide) hSetNxHash_frames,
    plain (by decide) hValsHash_frames, plain (by decide) hStrLenHash_frames, ?_,
    plain (by decide) lLenList_frames, plain (by decide) lIndexList_frames, ?_,
    plain (by decide) lPopList_frames, plain (by decide) rPopList_frames,
    plain (by decide) lPushList_frames, plain (by decide) lPushXList_frames,
    plain (by decide) rPushList_frames, plain (by decide) rPushXList_frames,
    plain (by decide) lSetList_frames, plain (by decide) lRemList_frames,
    plain (by decide) lTrimList_frames, plain (by decide) lRangeList_frames,
    plain (by decide) lMoveList_frames, plain (by decide) sAddSet_frames,
    plain (by decide) sCardSet_frames, plain (by decide) sDiffSet_frames,
    plain (by decide) sDiffStoreSet_frames, plain (by decide) sInterSet_frames,
    plain (by decide) sInterStoreSet_frames, plain (by decide) sIsMemberSet_frames,
    plain (by decide) sMembersSet_frames, plain (by decide) sMoveSet_frames,
    plain (by decide) sPopSet_frames, plain (by decide) sRandMemberSet_frames,
    plain (by decide) sRemSet_frames, plain (by decide) sUnionSet_frames,
    plain (by decide) sUnionStoreSet_frames, plain (by decide) zAddZset_frames,
    plain (by decide) zCardZset_frames, plain (by decide) zCountZset_frames,
    plain (by decide) zRangeZset_frames, plain (by decide) zRevRangeZset_frames,
    plain (by decide) zRangeByScoreZset_frames, plain (by decide) zRankZset_frames,
    plain (by decide) zRevRankZset_frames, plain (by decide) zRemZset_frames,
    plain (by decide) zRemRangeByRankZset_frames, plain (by decide) zRemRangeByScoreZset_frames,
    plain (by decide) zScoreZset_frames, plain (by decide) zIncrByZset_frames,
    plain (by decide) fun _ => flatReply_bulk _, plain (by decide) fun cmd =>
      infoConfig_frames cmd host,
    plain (by decide) fun _ => flatReply_bulk _, plain (by decide) fun cmd => info_frames cmd host,
    plain (by decide) fun _ => flatReply_bulk _, by simp⟩
  · exact quoting (other (by decide)) fun _ hname =>
      ((keysKey_frames hname).when oneLine_none).outcome env w
  · exact quoting quoted_expire expireKey_quoting
  · exact quoting quoted_rename renameKey_quoting
  · exact quoting quoted_set setString_quoting
  · exact quoting quoted_setex setExString_quoting
  · exact quoting quoted_hrandfield hRandFieldHash_quoting
  · exact quoting quoted_lpos lPosList_quoting

/-- The executors that quote are registered. -/
theorem quotingNames_registered (host : Host) :
    ∀ n ∈ quotingNames, ∃ e, (n, e) ∈ (cmdTable host : List (String × Executor F)) := by
  intro n hn
  simp only [quotingNames, List.mem_cons, List.not_mem_nil, or_false] at hn
  rcases hn with rfl | rfl | rfl | rfl | rfl | rfl
  · exact ⟨⟨_, setString⟩, by simp [cmdTable]⟩
  · exact ⟨⟨_, setExString⟩, by simp [cmdTable]⟩
  · exact ⟨⟨_, expireKey⟩, by simp [cmdTable]⟩
  · exact ⟨⟨_, renameKey⟩, by simp [cmdTable]⟩
  · exact ⟨⟨_, lPosList⟩, by simp [cmdTable]⟩
  · exact ⟨⟨_, hRandFieldHash⟩, by simp [cmdTable]⟩

/-- **One command**: its reply is flat exactly when what it quotes is one line,
    and an error line if it is not. -/
theorem exec_answers (host : Host) (env : Env) (cmd : Command) (w : World F) :
    Answers (QuotesOneLine env cmd w) (execCommand host env cmd w).1 := by
  by_cases hname : ∀ n ∈ quotingNames, toLower (cmdName cmd) ≠ ascii n
  · rcases execCommand_cases host env cmd w with ⟨r, hrun, hr⟩ | ⟨name, e, hmem, hn, -, hne, hrun⟩
    · -- a command that is refused before any executor runs quotes nothing
      rw [hrun, QuotesOneLine, quoted_other hname]
      rcases hr with rfl | rfl
      · exact answers_ok (answer_flat flatReply_none)
      · exact answers_ok (answer_flat (flat_err rfl))
    · rw [hrun]
      exact cmdTable_quotable host env w _ hmem cmd hne hn.symm
  · simp only [not_forall, not_not] at hname
    obtain ⟨n, hn, hname⟩ := hname
    obtain ⟨e, hmem⟩ := quotingNames_registered (F := F) host n hn
    have hfilled : ∀ n ∈ quotingNames, ascii n ≠ [] := by decide
    have hne : cmd ≠ [] := by
      rintro rfl
      exact hfilled n hn hname.symm
    rw [exec_reply hmem hne hname]
    exact cmdTable_quotable host env w _ hmem cmd hne hname

end Table

end TinyDb
