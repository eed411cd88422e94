import TinyRedis.GoStringProofs

/-!
# The proxy across a failover

    `handleClient` serves one client with one upstream after another.  Each
    `pipeConnections` starts two goroutines, one copying client to upstream
    and one back, and waits for the first of them to report.  When the second
    one reports an upstream error the session goes on with a new leader and
    two new goroutines; nothing stops the copier that still reads the client.

    The client, the session's goroutine, and the two copiers of every
    `pipeConnections` are parties that take steps in any order.  The bytes of
    the client are named by their position in its stream, so that a byte sent
    twice is two bytes.
-/

namespace TinyProxy

open GoString

/-! ## Parties -/

/-- Where the copier from the client is in `io.Copy`: at its `Read`, at the
    `Write` of what it has read, or returned. -/
inductive Copier where
  | reading
  | writing (chunk : List Nat)
  | ended
  deriving DecidableEq

/-- What a copier has read and not written yet. -/
def Copier.inHand : Copier → List Nat
  | .writing chunk => chunk
  | _ => []

/-- What `io.Copy` returned. -/
inductive CopyErr where
  | nil
  | eof
  | other
  deriving DecidableEq

/-- `proxyError`. -/
structure ProxyError where
  fromClient : Bool
  err : CopyErr
  deriving DecidableEq

/-- One call of `pipeConnections`: its copier from the client, whether the one
    back still runs, whether `handleClient` has not closed the upstream yet,
    the channel, and the positions its copier has read from the client and the
    upstream has taken. -/
structure Pipe where
  up : Copier
  down : Bool
  isOpen : Bool
  errCh : List ProxyError
  handed : List Nat
  delivered : List Nat
  deriving DecidableEq

namespace Pipe

/-- The goroutines just started. -/
def fresh : Pipe := ⟨.reading, true, true, [], [], []⟩

/-- Not started yet. -/
def unused : Pipe := ⟨.ended, false, false, [], [], []⟩

/-- The copier's `Read` returned this chunk. -/
def read (p : Pipe) (chunk : List Nat) : Pipe :=
  { p with up := .writing chunk, handed := p.handed ++ chunk }

/-- The copier's `Write` of its chunk returned. -/
def wrote (p : Pipe) (chunk : List Nat) : Pipe :=
  { p with up := .reading, delivered := p.delivered ++ chunk }

/-- The copier from the client returned and reported. -/
def endUp (p : Pipe) (err : CopyErr) : Pipe :=
  { p with up := .ended, errCh := p.errCh ++ [⟨true, err⟩] }

/-- The copier to the client returned and reported. -/
def endDown (p : Pipe) (err : CopyErr) : Pipe :=
  { p with down := false, errCh := p.errCh ++ [⟨false, err⟩] }

end Pipe

/-- What `pipeConnections` returns. -/
inductive PipeErr where
  | nil
  | errClientClose
  | upstream (err : CopyErr)
  deriving DecidableEq

/-- `pipeConnections`, with the report it received. -/
def pipeConnections (e : ProxyError) : PipeErr :=
  if e.err = .nil ∨ e.err = .eof then
    if e.fromClient then .errClientClose else .nil
  else if e.fromClient then .errClientClose
  else .upstream e.err

/-- Where `handleClient` is: looking for a leader, in `pipeConnections`, or
    returned. -/
inductive Phase where
  | dialing
  | piping
  | returned
  deriving DecidableEq

/-- A session: what the client has sent, how many of these bytes some copier
    has read, whether the client has closed its side, `handleClient`, the
    calls of `pipeConnections` (`count` of them so far, the latest the current
    one), and how much the client had sent when the latest started. -/
structure Session where
  sent : Bytes
  taken : Nat
  closed : Bool
  phase : Phase
  count : Nat
  pipes : Nat → Pipe
  mark : Nat

namespace Session

/-- A client just accepted. -/
def start : Session := ⟨[], 0, false, .dialing, 0, fun _ => .unused, 0⟩

/-- The latest `pipeConnections`. -/
def latest (st : Session) : Pipe := st.pipes (st.count - 1)

/-- A step of one goroutine of a `pipeConnections`. -/
def setPipe (st : Session) (i : Nat) (p : Pipe) : Session :=
  { st with pipes := Function.update st.pipes i p }

end Session

variable {st st' : Session}

/-! ## Steps -/

/-- What can happen next. -/
inductive Event where
  /-- the client sends -/
  | send (bytes : Bytes)
  /-- the client closes its side -/
  | shut
  /-- a `Read` of copier `i` returns up to `n` bytes -/
  | read (i n : Nat)
  /-- a `Read` of copier `i` returns the end of the stream, or an error -/
  | readEnds (i : Nat) (err : CopyErr)
  /-- a `Write` of copier `i` returns; on a closed upstream with an error -/
  | write (i : Nat)
  /-- a `Write` of copier `i` fails after `n` bytes -/
  | writeFails (i n : Nat)
  /-- the copier back from upstream `i` returns -/
  | downEnds (i : Nat) (err : CopyErr)
  /-- `pipeConnections` receives a report -/
  | receive
  /-- the context is cancelled -/
  | cancel
  /-- a leader is found and dialled, and `pipeConnections` starts -/
  | dial

/-- `handleClient` after `pipeConnections`: the upstream is closed, and only an
    upstream error goes on to the next leader. -/
def Session.piped (st : Session) (e : ProxyError) (rest : List ProxyError) : Session :=
  { st.setPipe (st.count - 1) { st.latest with isOpen := false, errCh := rest } with
    phase :=
      match pipeConnections e with
      | .upstream _ => .dialing
      | _ => .returned }

/-- One step.  What cannot happen now changes nothing. -/
def Session.step (st : Session) : Event → Session
  | .send bytes => if st.closed then st else { st with sent := st.sent ++ bytes }
  | .shut => { st with closed := true }
  | .read i n =>
    match (st.pipes i).up with
    | .reading =>
      if st.phase = .returned then st
      else
        let m := min n (st.sent.length - st.taken)
        if m = 0 then st
        else
          { st.setPipe i ((st.pipes i).read (List.range' st.taken m)) with
            taken := st.taken + m }
    | _ => st
  | .readEnds i err =>
    match (st.pipes i).up with
    | .reading =>
      -- `io.Copy` turns the end of the stream into nil
      if err = .other ∨ st.closed = true ∧ st.taken = st.sent.length then
        st.setPipe i ((st.pipes i).endUp (if err = .other then .other else .nil))
      else st
    | _ => st
  | .write i =>
    match (st.pipes i).up with
    | .writing chunk =>
      if (st.pipes i).isOpen then st.setPipe i ((st.pipes i).wrote chunk)
      else st.setPipe i ((st.pipes i).endUp .other)
    | _ => st
  | .writeFails i n =>
    match (st.pipes i).up with
    | .writing chunk =>
      let wrote := if (st.pipes i).isOpen then chunk.take n else []
      st.setPipe i
        { (st.pipes i).endUp .other with delivered := (st.pipes i).delivered ++ wrote }
    | _ => st
  | .downEnds i err =>
    if (st.pipes i).down then st.setPipe i ((st.pipes i).endDown err) else st
  | .receive =>
    match st.phase, st.latest.errCh with
    | .piping, e :: rest => st.piped e rest
    | _, _ => st
  | .cancel =>
    { st.setPipe (st.count - 1) { st.latest with isOpen := false } with phase := .returned }
  | .dial =>
    if st.phase = .dialing then
      { st.setPipe st.count .fresh with
        phase := .piping, count := st.count + 1, mark := st.sent.length }
    else st

/-- A run of events. -/
def Session.run (st : Session) (events : List Event) : Session := events.foldl step st

theorem Session.run_append (st : Session) (xs ys : List Event) :
    st.run (xs ++ ys) = (st.run xs).run ys := List.foldl_append

/-! ## What a step does to a pipe -/

/-- What can happen to one `pipeConnections` in a step: nothing; its copier
    reads the next bytes of the client; or something else, after which it has
    been handed the same bytes, is at its `Read` only after a `Write` to an
    open upstream or if it was there before, and has no new upstream. -/
inductive Pipe.Next (taken : Nat) (p : Pipe) : Nat → Pipe → Prop
  | read (m : Nat) (hup : p.up = .reading) :
      Next taken p m (p.read (List.range' taken m))
  | keep (p' : Pipe) (hhanded : p'.handed = p.handed)
      (hreading : p'.up = .reading → p.up = .reading ∨ p.isOpen = true ∧ p.up ≠ .ended)
      (hended : p.up = .ended → p'.up = .ended)
      (hopen : p'.isOpen = true → p.isOpen = true)
      (hheld : p'.up ≠ .ended → p.delivered ++ p.up.inHand = p.handed →
        p'.delivered ++ p'.up.inHand = p.handed) :
      Next taken p 0 p'

theorem Pipe.Next.same (taken : Nat) (p : Pipe) : p.Next taken 0 p :=
  .keep p rfl .inl id id fun _ h => h

theorem Pipe.next_endUp (taken : Nat) (p : Pipe) (err : CopyErr) : p.Next taken 0 (p.endUp err) :=
  .keep _ rfl (fun h => absurd h (by simp [endUp])) (fun _ => rfl) id
    fun h => absurd rfl h

/-- The steps of a session that start no `pipeConnections`: the client sends
    or shuts, and one pipe takes a step. -/
inductive Session.Moved (st : Session) : Session → Prop
  | mk (bytes : Bytes) (closed : Bool) (phase : Phase) (i m : Nat) (p : Pipe)
      (hnext : (st.pipes i).Next st.taken m p)
      (hsent : m ≤ st.sent.length - st.taken)
      (hbytes : st.closed = true → bytes = [] ∧ closed = true)
      -- `handleClient` leaves its phase only with the upstream closed
      (hphase : phase = st.phase ∨ i = st.count - 1 ∧ p.isOpen = false) :
      Moved st { st.setPipe i p with
        sent := st.sent ++ bytes, closed := closed, taken := st.taken + m, phase := phase }

namespace Session

theorem Moved.pipe {i : Nat} {p : Pipe} (h : (st.pipes i).Next st.taken 0 p) :
    st.Moved (st.setPipe i p) := by
  have hmk := Moved.mk [] st.closed st.phase i 0 p h (Nat.zero_le _) (fun hc => ⟨rfl, hc⟩)
    (.inl rfl)
  rw [List.append_nil, Nat.add_zero] at hmk
  exact hmk

theorem Moved.client (st : Session) (bytes : Bytes) (closed : Bool)
    (h : st.closed = true → bytes = [] ∧ closed = true) :
    st.Moved { st with sent := st.sent ++ bytes, closed := closed } := by
  have hmk := Moved.mk bytes closed st.phase 0 0 _ (Pipe.Next.same st.taken (st.pipes 0))
    (Nat.zero_le _) h (.inl rfl)
  simpa [setPipe] using hmk

theorem Moved.refl (st : Session) : st.Moved st := by
  have h := Moved.client st [] st.closed fun hc => ⟨rfl, hc⟩
  rw [List.append_nil] at h
  exact h

/-- `handleClient` leaves `pipeConnections`, closing the upstream. -/
theorem Moved.leave (st : Session) (errCh : List ProxyError) (phase : Phase) :
    st.Moved { st.setPipe (st.count - 1) { st.latest with isOpen := false, errCh := errCh } with
      phase := phase } := by
  have hnext : st.latest.Next st.taken 0 { st.latest with isOpen := false, errCh := errCh } :=
    .keep _ rfl .inl id (fun h => absurd h (by simp)) fun _ h => h
  have hmk := Moved.mk [] st.closed phase (st.count - 1) 0 _ hnext (Nat.zero_le _)
    (fun hc => ⟨rfl, hc⟩) (.inr ⟨rfl, rfl⟩)
  rw [List.append_nil, Nat.add_zero] at hmk
  exact hmk

/-- The session with a new upstream. -/
def dialled (st : Session) : Session :=
  { st.setPipe st.count .fresh with
    phase := .piping, count := st.count + 1, mark := st.sent.length }

/-- **EVERY STEP** moves one pipe, or dials while `handleClient` looks for a
    leader. -/
theorem step_moved (st : Session) (e : Event) :
    st.Moved (st.step e) ∨ e = .dial ∧ st.phase = .dialing ∧ st.step e = st.dialled := by
  cases e with
  | send bytes =>
    refine .inl ?_
    by_cases hc : st.closed = true
    · simpa [step, hc] using Moved.refl st
    · simpa [step, hc] using Moved.client st bytes st.closed fun h => absurd h hc
  | shut =>
    have h := Moved.client st [] true fun _ => ⟨rfl, rfl⟩
    rw [List.append_nil] at h
    exact .inl h
  | read i n =>
    refine .inl ?_
    cases hup : (st.pipes i).up with
    | reading =>
      simp only [step, hup]
      by_cases hret : st.phase = .returned
      · rw [if_pos hret]
        exact Moved.refl st
      · rw [if_neg hret]
        by_cases hm : min n (st.sent.length - st.taken) = 0
        · rw [if_pos hm]
          exact Moved.refl st
        · rw [if_neg hm]
          have hmk := Moved.mk [] st.closed st.phase i _ _
            (Pipe.Next.read (min n (st.sent.length - st.taken)) hup)
            (Nat.min_le_right _ _) (fun hc => ⟨rfl, hc⟩) (.inl rfl)
          rw [List.append_nil] at hmk
          exact hmk
    | writing chunk => simpa [step, hup] using Moved.refl st
    | ended => simpa [step, hup] using Moved.refl st
  | readEnds i err =>
    refine .inl ?_
    cases hup : (st.pipes i).up with
    | reading =>
      simp only [step, hup]
      split
      · exact Moved.pipe (Pipe.next_endUp _ _ _)
      · exact Moved.refl st
    | writing chunk => simpa [step, hup] using Moved.refl st
    | ended => simpa [step, hup] using Moved.refl st
  | write i =>
    refine .inl ?_
    cases hup : (st.pipes i).up with
    | writing chunk =>
      simp only [step, hup]
      by_cases hopen : (st.pipes i).isOpen = true
      · rw [if_pos hopen]
        refine Moved.pipe (.keep _ rfl (fun _ => .inr ⟨hopen, by simp [hup]⟩)
          (fun h => absurd h (by simp [hup])) id fun _ h => ?_)
        simpa [Pipe.wrote, Copier.inHand, hup] using h
      · rw [if_neg hopen]
        exact Moved.pipe (Pipe.next_endUp _ _ _)
    | reading => simpa [step, hup] using Moved.refl st
    | ended => simpa [step, hup] using Moved.refl st
  | writeFails i n =>
    refine .inl ?_
    cases hup : (st.pipes i).up with
    | writing chunk =>
      simp only [step, hup]
      exact Moved.pipe (.keep _ rfl (fun h => absurd h (by simp [Pipe.endUp]))
        (fun _ => rfl) id fun h => absurd rfl h)
    | reading => simpa [step, hup] using Moved.refl st
    | ended => simpa [step, hup] using Moved.refl st
  | downEnds i err =>
    refine .inl ?_
    by_cases hdown : (st.pipes i).down = true
    · simp only [step, if_pos hdown]
      exact Moved.pipe (.keep _ rfl .inl id id fun _ h => h)
    · simpa [step, hdown] using Moved.refl st
  | receive =>
    refine .inl ?_
    simp only [step]
    split
    · exact Moved.leave st _ _
    · exact Moved.refl st
  | cancel => exact .inl (Moved.leave st st.latest.errCh .returned)
  | dial =>
    by_cases hp : st.phase = .dialing
    · exact .inr ⟨rfl, hp, by simp [step, hp, dialled]⟩
    · exact .inl (by simpa [step, hp] using Moved.refl st)

end Session

namespace Pipe.Next

variable {taken m : Nat} {p p' : Pipe}

theorem isOpen (h : p.Next taken m p') (hp : p'.isOpen = true) : p.isOpen = true := by
  cases h with
  | read m hup => exact hp
  | keep _ _ _ _ hopen _ => exact hopen hp

theorem ended (h : p.Next taken m p') (hp : p.up = .ended) : p'.up = .ended := by
  cases h with
  | read m hup => exact absurd (hup.symm.trans hp) (by simp)
  | keep _ _ _ hended _ _ => exact hended hp

theorem reading (h : p.Next taken m p') (hp : p'.up = .reading) :
    p.up = .reading ∨ p.isOpen = true ∧ p.up ≠ .ended := by
  cases h with
  | read m hup => exact .inl hup
  | keep _ _ hreading _ _ _ => exact hreading hp

theorem held (h : p.Next taken m p') (hp : p.up ≠ .ended → p.delivered ++ p.up.inHand = p.handed)
    (hne : p'.up ≠ .ended) : p'.delivered ++ p'.up.inHand = p'.handed := by
  cases h with
  | read m hup =>
    have hd := hp (by simp [hup])
    simp only [hup, Copier.inHand, List.append_nil] at hd
    simp [Pipe.read, Copier.inHand, hd]
  | keep _ hhanded _ hended _ hheld =>
    rw [hhanded]
    exact hheld hne (hp fun he => hne (hended he))

/-- Whoever reads, reads the next bytes. -/
theorem handed (h : p.Next taken m p') : p'.handed = p.handed ++ List.range' taken m := by
  cases h with
  | read m hup => rfl
  | keep _ hhanded _ _ _ _ => simp [hhanded]

/-- Only a copier at its `Read` reads. -/
theorem unread (h : p.Next taken m p') (hp : p.up ≠ .reading) : m = 0 := by
  cases h with
  | read m hup => exact absurd hup hp
  | keep => rfl

end Pipe.Next

/-! ## Reachable sessions -/

namespace Session

/-- What holds in every session: every upstream but the current one is
    closed; a copier that has not returned has written what it has read, but
    for the chunk in its hands; what a copier has read the client had sent. -/
structure Ok (st : Session) : Prop where
  shut : ∀ i < st.count, (st.phase = .piping → i + 1 ≠ st.count) → (st.pipes i).isOpen = false
  held : ∀ i, (st.pipes i).up ≠ .ended →
    (st.pipes i).delivered ++ (st.pipes i).up.inHand = (st.pipes i).handed
  unused : ∀ i, st.count ≤ i → (st.pipes i).up = .ended
  past : ∀ i, ∀ x ∈ (st.pipes i).handed, x < st.taken
  taken_le : st.taken ≤ st.sent.length

theorem start_ok : start.Ok where
  shut := fun _ h => absurd h (Nat.not_lt_zero _)
  held := fun _ h => absurd rfl h
  unused := fun _ _ => rfl
  past := fun _ _ h => absurd h List.not_mem_nil
  taken_le := le_rfl

theorem setPipe_pipes (st : Session) (i j : Nat) (p : Pipe) :
    (st.setPipe i p).pipes j = if j = i then p else st.pipes j := by
  simp [setPipe, Function.update_apply]

theorem Ok.moved (h : st.Ok) (hm : st.Moved st') : st'.Ok := by
  obtain ⟨bytes, closed, phase, i, m, p, hnext, hsent, hbytes, hphase⟩ := hm
  refine ⟨fun j hj hcur => ?_, fun j hne => ?_, fun j hj => ?_, fun j x hx => ?_, ?_⟩
  · show ((st.setPipe i p).pipes j).isOpen = false
    rw [setPipe_pipes]
    obtain hsame | ⟨hi, hclosed⟩ := hphase
    · have hold := h.shut j hj (hsame ▸ hcur)
      split
      · rename_i hji
        subst hji
        exact Bool.eq_false_iff.mpr fun ho => by simp [hnext.isOpen ho] at hold
      · exact hold
    · split
      · exact hclosed
      · rename_i hji
        have hj' : j < st.count := hj
        exact h.shut j hj fun _ => by omega
  · change ((st.setPipe i p).pipes j).up ≠ .ended at hne
    show ((st.setPipe i p).pipes j).delivered ++ ((st.setPipe i p).pipes j).up.inHand
      = ((st.setPipe i p).pipes j).handed
    rw [setPipe_pipes] at hne ⊢
    split at hne
    · rename_i hji
      rw [if_pos hji]
      exact hnext.held (h.held i) hne
    · rename_i hji
      rw [if_neg hji]
      exact h.held j hne
  · show ((st.setPipe i p).pipes j).up = .ended
    rw [setPipe_pipes]
    split
    · rename_i hji
      subst hji
      exact hnext.ended (h.unused j hj)
    · exact h.unused j hj
  · change x ∈ ((st.setPipe i p).pipes j).handed at hx
    show x < st.taken + m
    rw [setPipe_pipes] at hx
    split at hx
    · rw [hnext.handed, List.mem_append, List.mem_range'_1] at hx
      obtain hold | hnew := hx
      · exact Nat.lt_add_right m (h.past i x hold)
      · exact hnew.2
    · exact Nat.lt_add_right m (h.past j x hx)
  · show st.taken + m ≤ (st.sent ++ bytes).length
    have := h.taken_le
    rw [List.length_append]
    omega

theorem Ok.dialled (h : st.Ok) (hp : st.phase = .dialing) : st.dialled.Ok := by
  refine ⟨fun j hj hcur => ?_, fun j hne => ?_, fun j hj => ?_, fun j x hx => ?_, h.taken_le⟩
  · have hj' : j < st.count + 1 := hj
    have hlast : j + 1 ≠ st.count + 1 := hcur rfl
    show ((st.setPipe st.count .fresh).pipes j).isOpen = false
    rw [setPipe_pipes, if_neg (by omega)]
    exact h.shut j (by omega) fun hpip => absurd (hp.symm.trans hpip) (by simp)
  · change ((st.setPipe st.count .fresh).pipes j).up ≠ .ended at hne
    show ((st.setPipe st.count .fresh).pipes j).delivered
      ++ ((st.setPipe st.count .fresh).pipes j).up.inHand
      = ((st.setPipe st.count .fresh).pipes j).handed
    rw [setPipe_pipes] at hne ⊢
    split at hne
    · rename_i hji
      rw [if_pos hji]
      rfl
    · rename_i hji
      rw [if_neg hji]
      exact h.held j hne
  · have hj' : st.count + 1 ≤ j := hj
    show ((st.setPipe st.count .fresh).pipes j).up = .ended
    rw [setPipe_pipes, if_neg (by omega)]
    exact h.unused j (by omega)
  · change x ∈ ((st.setPipe st.count .fresh).pipes j).handed at hx
    rw [setPipe_pipes] at hx
    split at hx
    · exact absurd hx List.not_mem_nil
    · exact h.past j x hx

theorem Ok.step (h : st.Ok) (e : Event) : (st.step e).Ok := by
  obtain hm | ⟨-, hp, heq⟩ := st.step_moved e
  · exact h.moved hm
  · rw [heq]
    exact h.dialled hp

/-- **EVERY RUN** keeps it. -/
theorem Ok.run (events : List Event) : ∀ st : Session, st.Ok → (st.run events).Ok := by
  induction events with
  | nil => exact fun _ h => h
  | cons e events ih => exact fun st h => ih _ (h.step e)

theorem Moved.count_eq (h : st.Moved st') : st'.count = st.count := by
  cases h
  rfl

theorem count_le_run (events : List Event) : ∀ st : Session, st.count ≤ (st.run events).count := by
  induction events with
  | nil => exact fun _ => le_rfl
  | cons e events ih =>
    intro st
    refine le_trans ?_ (ih (st.step e))
    obtain hm | ⟨-, -, heq⟩ := st.step_moved e
    · exact hm.count_eq.ge
    · rw [heq]
      exact Nat.le_succ _

/-- What every step but a dial keeps holds until the next dial. -/
theorem run_until_dial {P : Session → Prop}
    (hP : ∀ st st' : Session, st.Ok → P st → st.Moved st' → P st') (events : List Event) :
    ∀ st : Session, st.Ok → P st → (st.run events).count = st.count → P (st.run events) := by
  induction events with
  | nil => exact fun _ _ h _ => h
  | cons e events ih =>
    intro st hok h hcount
    have hmono := count_le_run events (st.step e)
    change ((st.step e).run events).count = st.count at hcount
    obtain hm | ⟨-, -, heq⟩ := st.step_moved e
    · exact ih _ (hok.moved hm) (hP st _ hok h hm) (hcount.trans hm.count_eq.symm)
    · rw [heq] at hmono hcount
      have : st.dialled.count = st.count + 1 := rfl
      omega

/-! ## A copier left to run -/

/-- The latest copier takes the backlog, byte by byte. -/
def drain (st : Session) : List Event :=
  (List.replicate (st.sent.length - st.taken)
    [Event.read (st.count - 1) 1, .write (st.count - 1)]).flatten

/-- One byte through the latest copier. -/
theorem step_read_write (hphase : st.phase = .piping) (hup : st.latest.up = .reading)
    (hopen : st.latest.isOpen = true) (hlt : st.taken < st.sent.length) :
    (st.step (.read (st.count - 1) 1)).step (.write (st.count - 1))
      = { st.setPipe (st.count - 1) ((st.latest.read [st.taken]).wrote [st.taken]) with
          taken := st.taken + 1 } := by
  have hmin : min 1 (st.sent.length - st.taken) = 1 := by omega
  have hread : st.step (.read (st.count - 1) 1)
      = { st.setPipe (st.count - 1) (st.latest.read [st.taken]) with taken := st.taken + 1 } := by
    have hup' : (st.pipes (st.count - 1)).up = .reading := hup
    simp [step, hup', hphase, hmin, latest]
  rw [hread]
  simp [step, setPipe, Pipe.read, hopen]

/-- **A latest copier at its `Read`, left to run**, hands its upstream the
    whole backlog; the others do nothing meanwhile. -/
theorem run_drain (n : Nat) : ∀ st : Session, st.sent.length - st.taken = n →
    st.taken ≤ st.sent.length → st.phase = .piping → st.latest.up = .reading →
    st.latest.isOpen = true →
      ∃ p : Pipe, st.run st.drain
          = { st.setPipe (st.count - 1) p with taken := st.sent.length } ∧
        p.delivered = st.latest.delivered ++ List.range' st.taken n := by
  induction n with
  | zero =>
    intro st hn hle hphase hup hopen
    refine ⟨st.latest, ?_, by simp⟩
    have hlen : st.sent.length = st.taken := by omega
    rw [drain, hn, hlen]
    simp [run, setPipe, latest]
  | succ n ih =>
    intro st hn hle hphase hup hopen
    have hstep := step_read_write hphase hup hopen (by omega)
    have hdrain : st.run st.drain = Session.run
        { st.setPipe (st.count - 1) ((st.latest.read [st.taken]).wrote [st.taken]) with
          taken := st.taken + 1 }
        (List.replicate n [Event.read (st.count - 1) 1, .write (st.count - 1)]).flatten := by
      rw [drain, hn, List.replicate_succ, List.flatten_cons, run_append, ← hstep]
      rfl
    obtain ⟨p, hrun, hdel⟩ := ih
      { st.setPipe (st.count - 1) ((st.latest.read [st.taken]).wrote [st.taken]) with
          taken := st.taken + 1 } (by show st.sent.length - (st.taken + 1) = n; omega)
      (by show st.taken + 1 ≤ st.sent.length; omega) hphase
      (by simp [latest, setPipe, Pipe.wrote])
      (by simpa [latest, setPipe, Pipe.wrote, Pipe.read] using hopen)
    refine ⟨p, ?_, ?_⟩
    · rw [hdrain]
      have hlen : st.sent.length - (st.taken + 1) = n := by omega
      simp only [drain, setPipe, hlen] at hrun ⊢
      rw [hrun]
      simp
    · rw [hdel]
      simp [latest, setPipe, Pipe.wrote, Pipe.read, List.range'_succ]

/-! ## The bytes after a failover -/

theorem filter_range' {first mark taken : Nat} (h1 : first ≤ mark) (h2 : first ≤ taken) :
    (List.range' first (taken - first)).filter (mark ≤ ·) = List.range' mark (taken - mark) := by
  by_cases hle : taken ≤ mark
  · have hz : taken - mark = 0 := by omega
    rw [hz, List.range'_zero, List.filter_eq_nil_iff]
    intro x hx
    rw [List.mem_range'_1] at hx
    simp only [decide_eq_true_eq]
    omega
  · have hsum : taken - first = mark - first + (taken - mark) := by omega
    have hstart : first + 1 * (mark - first) = mark := by omega
    rw [hsum, ← List.range'_append, hstart, List.filter_append]
    have hbefore : (List.range' first (mark - first)).filter (mark ≤ ·) = [] := by
      rw [List.filter_eq_nil_iff]
      intro x hx
      rw [List.mem_range'_1] at hx
      simp only [decide_eq_true_eq]
      omega
    have hafter : (List.range' mark (taken - mark)).filter (mark ≤ ·)
        = List.range' mark (taken - mark) := by
      rw [List.filter_eq_self]
      intro x hx
      rw [List.mem_range'_1] at hx
      simp only [decide_eq_true_eq]
      exact hx.1
    rw [hbefore, hafter, List.nil_append]

/-- Every byte the client has sent since the latest `pipeConnections` started
    and that some copier has read, the latest copier has read, in order and
    exactly once; it has written to its upstream what it has read, but for the
    chunk in its hands; and left to run it hands its upstream everything the
    client has sent since. -/
structure Forwarded (st : Session) : Prop where
  order : st.latest.handed.filter (st.mark ≤ ·) = List.range' st.mark (st.taken - st.mark)
  upstream : st.latest.up ≠ .ended →
    st.latest.delivered ++ st.latest.up.inHand = st.latest.handed
  arrives : st.phase = .piping → st.latest.up = .reading → st.latest.isOpen = true →
    (st.run st.drain).latest.delivered.filter (st.mark ≤ ·)
      = List.range' st.mark (st.sent.length - st.mark)

/-- What the latest copier reads in order arrives. -/
theorem Ok.forwarded (hok : st.Ok)
    (horder : st.latest.handed.filter (st.mark ≤ ·)
      = List.range' st.mark (st.taken - st.mark)) : st.Forwarded where
  order := horder
  upstream := hok.held _
  arrives := by
    intro hphase hup hopen
    have hle := hok.taken_le
    obtain ⟨p, hrun, hdel⟩ := run_drain _ st rfl hle hphase hup hopen
    have hlatest : (st.run st.drain).latest = p := by
      rw [hrun]
      simp [latest, setPipe]
    have hwritten : st.latest.delivered = st.latest.handed := by
      have hheld := hok.held (st.count - 1)
      change st.latest.up ≠ .ended →
        st.latest.delivered ++ st.latest.up.inHand = st.latest.handed at hheld
      rw [hup] at hheld
      simpa [Copier.inHand] using hheld
    rw [hlatest, hdel, hwritten, List.filter_append, horder]
    by_cases hmark : st.mark ≤ st.taken
    · have hsum : st.sent.length - st.mark
          = st.taken - st.mark + (st.sent.length - st.taken) := by omega
      have hstart : st.mark + 1 * (st.taken - st.mark) = st.taken := by omega
      rw [hsum, ← List.range'_append, hstart]
      congr 1
      rw [List.filter_eq_self]
      intro x hx
      rw [List.mem_range'_1] at hx
      simp only [decide_eq_true_eq]
      omega
    · have hz : st.taken - st.mark = 0 := by omega
      rw [hz, List.range'_zero, List.nil_append]
      exact filter_range' (by omega) hle

/-- No copier but the latest is at its `Read`, and the latest has read
    everything from `first` on. -/
structure Alone (first : Nat) (st : Session) : Prop where
  pos : 0 < st.count
  quiet : ∀ i, i + 1 ≠ st.count → (st.pipes i).up ≠ .reading
  first_le : first ≤ st.mark ∧ first ≤ st.taken
  handed : st.latest.handed = List.range' first (st.taken - first)

theorem Alone.moved {first : Nat} (hok : st.Ok) (h : st.Alone first) (hm : st.Moved st') :
    st'.Alone first := by
  obtain ⟨bytes, closed, phase, i, m, p, hnext, hsent, hbytes, hphase⟩ := hm
  have hpos := h.pos
  refine ⟨h.pos, fun j hj hread => ?_,
    ⟨h.first_le.1, h.first_le.2.trans (Nat.le_add_right _ _)⟩, ?_⟩
  · change ((st.setPipe i p).pipes j).up = .reading at hread
    change j + 1 ≠ st.count at hj
    rw [setPipe_pipes] at hread
    split at hread
    · rename_i hji
      subst hji
      -- a copier left over could come back to its `Read` only through an open upstream
      obtain hr | ⟨hopen, hne⟩ := hnext.reading hread
      · exact h.quiet j hj hr
      · by_cases hlt : j < st.count
        · exact absurd (hok.shut j hlt fun _ => hj) (by simp [hopen])
        · exact hne (hok.unused j (Nat.le_of_not_lt hlt))
    · exact h.quiet j hj hread
  · show ((st.setPipe i p).pipes (st.count - 1)).handed = List.range' first (st.taken + m - first)
    have hle := h.first_le.2
    have hhanded := h.handed
    rw [setPipe_pipes]
    split
    · rename_i hi
      subst hi
      have hsum : st.taken + m - first = st.taken - first + m := by omega
      have hstart : first + 1 * (st.taken - first) = st.taken := by omega
      rw [hnext.handed, hsum, ← List.range'_append, hstart]
      exact congrArg (· ++ List.range' st.taken m) hhanded
    · rename_i hi
      have hm0 : m = 0 := hnext.unread (h.quiet i (by omega))
      rw [hm0, Nat.add_zero]
      exact hhanded

theorem Alone.forwarded {first : Nat} (hok : st.Ok) (h : st.Alone first) :
    st.Forwarded := by
  refine hok.forwarded ?_
  rw [h.handed]
  exact filter_range' h.first_le.1 h.first_le.2

/-- The client had closed its side when the latest `pipeConnections` started,
    so it sends nothing after. -/
structure Silent (st : Session) : Prop where
  closed : st.closed = true
  mark : st.mark = st.sent.length

theorem Silent.moved (h : st.Silent) (hm : st.Moved st') : st'.Silent := by
  obtain ⟨bytes, closed, phase, i, m, p, hnext, hsent, hbytes, hphase⟩ := hm
  obtain ⟨rfl, rfl⟩ := hbytes h.closed
  refine ⟨rfl, ?_⟩
  show st.mark = (st.sent ++ []).length
  rw [List.append_nil]
  exact h.mark

theorem Silent.forwarded (hok : st.Ok) (h : st.Silent) : st.Forwarded := by
  have htaken := hok.taken_le
  have hmark := h.mark
  have hz : st.taken - st.mark = 0 := by omega
  refine hok.forwarded ?_
  rw [hz, List.range'_zero, List.filter_eq_nil_iff]
  intro x hx
  have := hok.past _ x hx
  simp only [decide_eq_true_eq]
  omega

/-- With the backlog read, a copier left over that is at its `Read` can take
    the client's next byte. -/
theorem leftover_takes (hok : st.Ok) (hphase : st.phase = .piping)
    (hmark : st.mark = st.sent.length) (htaken : st.taken = st.sent.length)
    (hclosed : st.closed = false) {i : Nat} (hi : i ≠ st.count - 1)
    (hup : (st.pipes i).up = .reading) :
    ¬ (st.run [.send [0], .read i 1]).Forwarded := by
  have hrun : st.run [.send [0], .read i 1]
      = { st.setPipe i ((st.pipes i).read [st.taken]) with
          sent := st.sent ++ [0], taken := st.taken + 1 } := by
    simp [run, step, hclosed, hup, hphase, htaken, setPipe]
  intro hf
  have horder := hf.order
  rw [hrun] at horder
  have hlatest : (st.setPipe i ((st.pipes i).read [st.taken])).latest = st.latest := by
    simp [latest, setPipe, Function.update_of_ne (Ne.symm hi)]
  change (st.setPipe i ((st.pipes i).read [st.taken])).latest.handed.filter (st.mark ≤ ·)
    = List.range' st.mark (st.taken + 1 - st.mark) at horder
  have hnone : st.latest.handed.filter (st.mark ≤ ·) = [] := by
    rw [List.filter_eq_nil_iff]
    intro x hx
    have := hok.past _ x hx
    simp only [decide_eq_true_eq]
    omega
  have hone : st.taken + 1 - st.mark = 1 := by omega
  rw [hlatest, hnone, hone] at horder
  exact absurd horder (by simp)

end Session

open Session in
/-- **THE PROXY ACROSS A FAILOVER**: in every run that is about to dial, the
    client's bytes after the dial all go to the new upstream, in order and
    exactly once, whatever happens until the next dial, exactly when the
    client has closed its side or no copier of an earlier upstream is still at
    its `Read` of the client. -/
theorem failover_forwards_iff (events : List Event) (hphase : (start.run events).phase = .dialing) :
    (∀ after : List Event,
      (((start.run events).step .dial).run after).count = (start.run events).count + 1 →
        (((start.run events).step .dial).run after).Forwarded) ↔
    (start.run events).closed = true ∨
      ∀ i < (start.run events).count, ((start.run events).pipes i).up ≠ .reading := by
  have hok := Ok.run events start start_ok
  generalize start.run events = st at hphase hok ⊢
  have hdial : st.step .dial = st.dialled := by simp [step, hphase, dialled]
  have hok' := hok.dialled hphase
  rw [hdial]
  constructor
  · intro hall
    by_contra hbad
    rw [not_or, Bool.not_eq_true] at hbad
    obtain ⟨hclosed, hreading⟩ := hbad
    push Not at hreading
    obtain ⟨i, hi, hup⟩ := hreading
    obtain ⟨p, hrun, -⟩ := run_drain _ st.dialled rfl hok'.taken_le rfl
      (by simp [latest, dialled, setPipe, Pipe.fresh])
      (by simp [latest, dialled, setPipe, Pipe.fresh])
    have hokd := Ok.run st.dialled.drain _ hok'
    have hold : ((st.dialled.run st.dialled.drain).pipes i).up = .reading := by
      rw [hrun]
      simpa [dialled, setPipe, Function.update_of_ne hi.ne] using hup
    refine leftover_takes hokd ?_ ?_ ?_ ?_ ?_ hold ?_
    · rw [hrun]; rfl
    · rw [hrun]; rfl
    · rw [hrun]; rfl
    · rw [hrun]; exact hclosed
    · rw [hrun]; exact hi.ne
    · rw [← run_append]
      refine hall _ ?_
      rw [run_append, hrun]
      simp [run, step, dialled, setPipe, hclosed, hup, Function.update_of_ne hi.ne]
  · rintro (hclosed | hquiet) after hcount
    · have hsilent : st.dialled.Silent := ⟨hclosed, rfl⟩
      exact (run_until_dial (fun _ _ _ h hm => h.moved hm) after _ hok' hsilent hcount).forwarded
        (Ok.run after _ hok')
    · have halone : st.dialled.Alone st.taken := by
        refine ⟨Nat.succ_pos _, fun i hi => ?_, ⟨hok.taken_le, le_rfl⟩, ?_⟩
        · change i + 1 ≠ st.count + 1 at hi
          show ((st.setPipe st.count .fresh).pipes i).up ≠ .reading
          rw [setPipe_pipes, if_neg (by omega)]
          by_cases hlt : i < st.count
          · exact hquiet i hlt
          · rw [hok.unused i (Nat.le_of_not_lt hlt)]
            simp
        · simp [latest, dialled, setPipe, Pipe.fresh]
      exact (run_until_dial (fun _ _ ho h hm => h.moved ho hm) after _ hok' halone hcount).forwarded
        (Ok.run after _ hok')

/-- The copier left over was writing when its upstream failed: its `Write`
    fails too and it is gone before the next dial. -/
theorem failover_forwards_after_write :
    (Session.start.run [.dial, .send [80], .read 0 1, .downEnds 0 .other, .receive,
      .write 0]).phase = .dialing ∧
    ∀ after : List Event,
      (((Session.start.run [.dial, .send [80], .read 0 1, .downEnds 0 .other, .receive,
        .write 0]).step .dial).run after).count = 2 →
      (((Session.start.run [.dial, .send [80], .read 0 1, .downEnds 0 .other, .receive,
        .write 0]).step .dial).run after).Forwarded :=
  ⟨by decide, (failover_forwards_iff [.dial, .send [80], .read 0 1, .downEnds 0 .other, .receive,
    .write 0] (by decide)).mpr (.inr (by decide))⟩

/-- The upstream is reset while its copier waits for the client, and a new
    leader is dialled.  The client's next byte goes to the copier left over,
    whose upstream is closed: no upstream gets it. -/
theorem failover_loses_next_byte :
    let st := Session.start.run [.dial, .downEnds 0 .other, .receive, .dial, .send [80],
      .read 0 1, .write 0]
    st.phase = .piping ∧ st.count = 2 ∧ st.mark = 0 ∧ st.sent = [80] ∧ st.taken = 1 ∧
      st.pipes 0 = ⟨.ended, false, false, [⟨true, .other⟩], [0], []⟩ ∧
      st.latest = .fresh ∧ ¬ st.Forwarded := by
  intro st
  refine ⟨by decide, by decide, by decide, by decide, by decide, by decide, by decide, fun h => ?_⟩
  have horder := h.order
  revert horder
  decide

end TinyProxy
