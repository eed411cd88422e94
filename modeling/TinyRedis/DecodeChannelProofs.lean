import TinyRedis.RespHistoryProofs

/-! # decodeCommand and the parser goroutine it starts

    `ParseStream` starts `parse` in a goroutine that sends its results on an
    unbuffered channel, and `decodeCommand` receives one of them.  A send waits
    for a receive.  The two run as a producer and a consumer here; `sends` is
    what a producer has still to send, and each step of the pair takes at most
    the first of it away. -/

namespace TinyRespChannel

open GoString TinyResp TinyRespStream TinyRespRoundTrip

/-- The goroutine of `parse`: in its loop, blocked on a send, or at an end.
    After a send it goes on from a configuration, or closes the channel. -/
inductive Producer where
  | running (c : Config)
  | sending (r : ParsedRes) (next : Option Config)
  | closed
  | crashed (p : Panic)

/-- `decodeCommand`: waiting for the channel, or back at its caller. -/
inductive Consumer where
  | waiting
  | returned (res : Except DecodeErr Command)

/-- The two of them. -/
structure Pair where
  producer : Producer
  consumer : Consumer

/-- What the producer does when its send has been received. -/
def resume : Option Config → Producer
  | none => .closed
  | some c => .running c

/-- `decodeCommand` after its one receive; none is a closed channel. -/
def decodeReceived : Option ParsedRes → Except DecodeErr Command
  | none => .error .emptyEntry
  | some (.err e) => .error (.read e)
  | some (.data (.arrayData xs)) => .ok (toCommand xs)
  | some (.data .nullArray) => .ok []
  | some (.data _) => .error .notArray

/-- One step of the pair. -/
inductive Step : Pair → Pair → Prop where
  | silent {c c' q} : parseStep c = .next none c' → Step ⟨.running c, q⟩ ⟨.running c', q⟩
  | send {c r c' q} : parseStep c = .next (some r) c' →
      Step ⟨.running c, q⟩ ⟨.sending r (some c'), q⟩
  | last {c r q} : parseStep c = .done r → Step ⟨.running c, q⟩ ⟨.sending r none, q⟩
  | crash {c p q} : parseStep c = .panic p → Step ⟨.running c, q⟩ ⟨.crashed p, q⟩
  | handOver {r next} : Step ⟨.sending r next, .waiting⟩
      ⟨resume next, .returned (decodeReceived (some r))⟩
  | drained : Step ⟨.closed, .waiting⟩ ⟨.closed, .returned (decodeReceived none)⟩

/-- `decodeCommand(data)` at its start. -/
def start (data : Bytes) : Pair := ⟨.running ⟨{}, data⟩, .waiting⟩

/-- The states the pair can come to. -/
abbrev Reachable (data : Bytes) (s : Pair) : Prop := Relation.ReflTransGen Step (start data) s

/-- The consumer is gone, and the producer waits for a receive that never comes. -/
def Leaked (s : Pair) : Prop :=
  (∃ res, s.consumer = .returned res) ∧ ∃ r next, s.producer = .sending r next

/-! ## What is still to be sent -/

/-- What a producer has still to send, and how it ends. -/
def sends : Producer → List ParsedRes × Ending
  | .running c => parseLoop (c.input.length + 1) c
  | .sending r none => ([r], .closed)
  | .sending r (some c) =>
    (r :: (parseLoop (c.input.length + 1) c).1, (parseLoop (c.input.length + 1) c).2)
  | .closed => ([], .closed)
  | .crashed p => ([], .panicked p)

theorem sends_resume (r : ParsedRes) (next : Option Config) :
    sends (.sending r next) = (r :: (sends (resume next)).1, (sends (resume next)).2) := by
  cases next <;> rfl

/-- An iteration that goes on takes its result off what is to be sent. -/
theorem sends_next {c c' : Config} {emit : Option ParsedRes} (h : parseStep c = .next emit c') :
    sends (.running c) =
      (emit.toList ++ (sends (.running c')).1, (sends (.running c')).2) := by
  have hless := parseStep_consumes h
  have hfuel : parseLoop c.input.length c' = parseLoop (c'.input.length + 1) c' := by
    have hstable := parseLoop_stable (parseLoop_ends (Nat.lt_succ_self c'.input.length))
      (c.input.length - (c'.input.length + 1))
    rwa [Nat.add_sub_cancel' hless] at hstable
  rw [sends, parseLoop, h, sends]
  dsimp only
  rw [hfuel]

theorem sends_done {c : Config} {r : ParsedRes} (h : parseStep c = .done r) :
    sends (.running c) = ([r], .closed) := by
  rw [sends, parseLoop, h]

theorem sends_panic {c : Config} {p : Panic} (h : parseStep c = .panic p) :
    sends (.running c) = ([], .panicked p) := by
  rw [sends, parseLoop, h]

/-- **The invariant**: before the receive everything is still to be sent, after it
    everything but the first result. -/
def Inv (data : Bytes) (s : Pair) : Prop :=
  match s.consumer with
  | .waiting => sends s.producer = parse data
  | .returned _ => sends s.producer = ((parse data).1.tail, (parse data).2)

theorem Inv.step {data : Bytes} {s s' : Pair} (hi : Inv data s) (h : Step s s') :
    Inv data s' := by
  -- what the producer does alone changes nothing of what is to be sent
  have halone : ∀ {p p' : Producer} {q : Consumer}, sends p = sends p' → Inv data ⟨p, q⟩ →
      Inv data ⟨p', q⟩ := by
    intro p p' q heq hi
    cases q with
    | waiting => exact heq.symm.trans hi
    | returned res => exact heq.symm.trans hi
  cases h with
  | silent hs => exact halone (sends_next hs) hi
  | send hs => exact halone (sends_next hs) hi
  | last hs => exact halone (sends_done hs) hi
  | crash hs => exact halone (sends_panic hs) hi
  | @handOver r next =>
    have hall : sends (.sending r next) = parse data := hi
    rw [sends_resume] at hall
    show sends (resume next) = ((parse data).1.tail, (parse data).2)
    rw [← hall]
    rfl
  | drained =>
    have hall : ([], .closed) = parse data := hi
    show ([], .closed) = ((parse data).1.tail, (parse data).2)
    rw [← hall]
    rfl

theorem Inv.of_reachable {data : Bytes} {s : Pair} (h : Reachable data s) : Inv data s := by
  induction h with
  | refl => exact rfl
  | tail _ hstep ih => exact ih.step hstep

/-! ## Who waits for whom -/

/-- A producer with something to send comes to its send, by itself. -/
theorem reaches_send {r : ParsedRes} {rs : List ParsedRes} {e : Ending} (q : Consumer) :
    ∀ (n : Nat) {c : Config}, c.input.length < n → sends (.running c) = (r :: rs, e) →
      ∃ next, Relation.ReflTransGen Step ⟨.running c, q⟩ ⟨.sending r next, q⟩ ∧
        sends (resume next) = (rs, e) := by
  intro n
  induction n with
  | zero => intro c hlt; omega
  | succ n ih =>
    intro c hlt hsends
    cases hs : parseStep c with
    | panic p =>
      rw [sends_panic hs] at hsends
      cases hsends
    | done r' =>
      rw [sends_done hs] at hsends
      cases hsends
      exact ⟨none, .single (.last hs), rfl⟩
    | next emit c' =>
      have hless := parseStep_consumes hs
      rw [sends_next hs] at hsends
      cases emit with
      | none =>
        obtain ⟨next, hrun, hrest⟩ := ih (by omega) hsends
        exact ⟨next, .head (.silent hs) hrun, hrest⟩
      | some r' =>
        obtain ⟨hhead, he⟩ := Prod.mk.inj hsends
        obtain ⟨rfl, hrs⟩ := List.cons.inj hhead
        exact ⟨some c', .single (.send hs), Prod.ext hrs he⟩

/-- **A leak** can be reached if and only if the parser has more than one result
    to send. -/
theorem leaks_iff (data : Bytes) :
    (∃ s, Reachable data s ∧ Leaked s) ↔ 1 < (parse data).1.length := by
  constructor
  · rintro ⟨⟨p, q⟩, hreach, ⟨res, rfl⟩, r, next, rfl⟩
    have hinv : sends (.sending r next) = ((parse data).1.tail, (parse data).2) :=
      Inv.of_reachable hreach
    rw [sends_resume] at hinv
    have hlen := congrArg (fun x => x.1.length) hinv
    simp only [List.length_cons, List.length_tail] at hlen
    omega
  · intro hlen
    obtain ⟨r, r', rs, hout⟩ : ∃ r r' rs, (parse data).1 = r :: r' :: rs := by
      cases h : (parse data).1 with
      | nil => simp [h] at hlen
      | cons r tail =>
        cases tail with
        | nil => simp [h] at hlen
        | cons r' rs => exact ⟨r, r', rs, rfl⟩
    have hall : sends (.running ⟨{}, data⟩) = (r :: r' :: rs, (parse data).2) :=
      Prod.ext hout rfl
    obtain ⟨next, hrun, hrest⟩ := reaches_send .waiting _ (Nat.lt_succ_self _) hall
    have hreceived := hrun.tail .handOver
    cases next with
    | none => cases hrest
    | some c =>
      obtain ⟨next', hrun', -⟩ :=
        reaches_send (.returned (decodeReceived (some r))) _ (Nat.lt_succ_self _) hrest
      exact ⟨_, hreceived.trans hrun', ⟨_, rfl⟩, r', next', rfl⟩

/-- **EVERY LOG ENTRY LEAKS A GOROUTINE**: the receive of `decodeCommand` takes the
    command, and the EOF behind it is never received.  A state with `decodeCommand`
    back and the parser blocked on its send can be reached, and once `decodeCommand`
    is back the parser never ends. -/
theorem decodeCommand_leaks {cmd : Command} (ha : AllocatableCommand cmd) :
    (∃ s, Reachable (encodeCommand cmd) s ∧ Leaked s) ∧
      ∀ s, Reachable (encodeCommand cmd) s → (∃ res, s.consumer = .returned res) →
        s.producer ≠ .closed := by
  have hparse := parse_encodeCommand ha
  refine ⟨(leaks_iff _).mpr (by rw [hparse]; exact Nat.lt_succ_self 1), ?_⟩
  rintro ⟨p, q⟩ hreach ⟨res, rfl⟩ rfl
  have hinv : ([], .closed) =
      ((parse (encodeCommand cmd)).1.tail, (parse (encodeCommand cmd)).2) :=
    Inv.of_reachable hreach
  rw [hparse] at hinv
  cases hinv

/-- The entry of SET k v. -/
theorem decodeCommand_leaks_set :
    ∃ s, Reachable (encodeCommand (words ["SET", "k", "v"])) s ∧
      Leaked s := by
  refine (decodeCommand_leaks ⟨by decide, ?_⟩).1
  intro xs h
  rw [← RedisData.arrayData.inj h]
  decide

/-- The entry of DEL k: `decodeCommand` is back with the command, and the parser
    is blocked on its EOF. -/
theorem del_entry_leaks :
    Reachable (encodeCommand (words ["DEL", "k"]))
      ⟨.sending (.err .eof) none, .returned (.ok (words ["DEL", "k"]))⟩ := by
  refine .head (.silent rfl) (.head (.silent rfl) (.head (.silent rfl) (.head (.silent rfl) ?_)))
  exact .head (.send rfl) (.head .handOver (.head (.last rfl) .refl))

end TinyRespChannel
