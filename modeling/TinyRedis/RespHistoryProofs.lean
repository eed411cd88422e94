import TinyRedis.RespRoundTripProofs

/-! # The parser carries no history

    Nine places of `parse` send a result, and each resets a part of the state by
    hand.  One invariant of the state between two iterations is enough to see
    that nothing is left behind: outside an array nothing is known of an array,
    outside a payload nothing is known of its length.  From it every step that
    sends a result ends in the initial state, so what follows is what a new
    parser would send on the unread bytes (`parse_forgets`).

    The same invariant says what an array holds while it is read: single values,
    never arrays. -/

namespace TinyRespHistory

open GoString TinyResp TinyRespStream TinyRespRoundTrip

/-- An `*ArrayData`, the null array included. -/
def IsArray : RedisData → Prop
  | .nullArray => True
  | .arrayData _ => True
  | _ => False

/-- A value in which no array lies inside another. -/
def Shallow : RedisData → Prop
  | .arrayData xs => ∀ x ∈ xs, ¬ IsArray x
  | _ => True

/-- **The state between two iterations.** -/
structure Tidy (st : ReadState) : Prop where
  idle : st.inArray = false → st.arrayLen = 0 ∧ st.arrayData = none
  noLen : st.multiLine = false → st.bulkLen = 0
  items : ∀ xs, st.arrayData = some xs → ∀ x ∈ xs, ¬ IsArray x

/-- The results that `parse` sends before the last one. -/
def Sendable : ParsedRes → Prop
  | .data d => Shallow d
  | .err e => e ≠ .eof

/-- What an iteration keeps: the state stays tidy, and a result is sent from the
    initial state only; the last result is EOF. -/
def Keeps : StepRes → Prop
  | .next none c => Tidy c.state
  | .next (some r) c => c.state = {} ∧ Sendable r
  | .done r => r = .err .eof
  | .panic _ => True

theorem tidy_init : Tidy {} := by
  refine ⟨fun _ => ⟨rfl, rfl⟩, fun _ => rfl, ?_⟩
  intro xs hxs
  cases hxs

/-- A tidy state outside arrays and payloads is the initial one. -/
theorem Tidy.eq_init {st : ReadState} (h : Tidy st) (hm : st.multiLine = false)
    (ha : st.inArray = false) : st = {} := by
  obtain ⟨bulkLen, arrayLen, multiLine, arrayData, inArray⟩ := st
  obtain ⟨hlen, hdata⟩ := h.idle ha
  have hbulk := h.noLen hm
  subst hm ha hlen hdata hbulk
  rfl

/-! ## One iteration -/

theorem deliver_keeps {d : RedisData} (hd : ¬ IsArray d) {st : ReadState} (h : Tidy st)
    (hm : st.multiLine = false) (rest : Bytes) : Keeps (deliver d st rest) := by
  rw [deliver]
  cases ha : st.inArray with
  | false =>
    refine ⟨h.eq_init hm ha, ?_⟩
    cases d with
    | arrayData xs => exact absurd trivial hd
    | _ => trivial
  | true =>
    cases hx : st.arrayData with
    | none => trivial
    | some xs =>
      have hall : ∀ x ∈ xs ++ [d], ¬ IsArray x := by
        intro x hmem
        rcases List.mem_append.mp hmem with hin | hlast
        · exact h.items xs hx x hin
        · rw [List.mem_singleton.mp hlast]
          exact hd
      rw [if_pos rfl]
      dsimp only
      by_cases hlen : ((xs ++ [d]).length : Int) = st.arrayLen
      · rw [if_pos hlen]
        exact ⟨rfl, hall⟩
      · rw [if_neg hlen]
        refine ⟨fun hf => Bool.noConfusion hf, h.noLen, ?_⟩
        intro ys hys
        rw [← Option.some.inj hys]
        exact hall

theorem finish_keeps {r : Res RedisData} (hr : ∀ d, r = .ok d → ¬ IsArray d) (he : r ≠ .err .eof)
    {st : ReadState} (h : Tidy st) (hm : st.multiLine = false) (rest : Bytes) :
    Keeps (finish r st rest) := by
  cases r with
  | panic p => trivial
  | err e => exact ⟨rfl, fun heq => he (congrArg Res.err heq)⟩
  | ok d => exact deliver_keeps (hr d rfl) h hm rest

/-- An array header opens an empty array or is refused with its line. -/
theorem parseArrayHeader_cases (msg : Bytes) (st : ReadState) :
    (∃ p, parseArrayHeader msg st = .panic p) ∨
      parseArrayHeader msg st = .err (.protocol msg) ∨
      ∃ n, parseArrayHeader msg st =
        .ok { st with arrayLen := n, inArray := true, arrayData := some [] } := by
  rw [parseArrayHeader]
  repeat' split
  all_goals simp

/-- A bulk header announces a payload or is refused with its line. -/
theorem parseBulkHeader_cases (msg : Bytes) (st : ReadState) :
    (∃ p, parseBulkHeader msg st = .panic p) ∨
      parseBulkHeader msg st = .err (.protocol msg) ∨
      ∃ n, parseBulkHeader msg st = .ok { st with bulkLen := n, multiLine := true } := by
  rw [parseBulkHeader]
  repeat' split
  all_goals simp

theorem arrayLine_keeps (msg : Bytes) {st : ReadState} (h : Tidy st) (rest : Bytes) :
    Keeps (arrayLine msg st rest) := by
  rw [arrayLine]
  rcases parseArrayHeader_cases msg st with ⟨p, hp⟩ | herr | ⟨n, hok⟩
  · rw [hp]
    trivial
  · rw [herr]
    exact ⟨rfl, fun heq => by cases heq⟩
  · rw [hok]
    dsimp only
    by_cases hnull : n = -1
    · rw [if_pos hnull]
      exact ⟨rfl, trivial⟩
    · rw [if_neg hnull]
      by_cases hzero : n = 0
      · rw [if_pos hzero]
        exact ⟨rfl, fun x hx => absurd hx List.not_mem_nil⟩
      · rw [if_neg hzero]
        refine ⟨fun hf => Bool.noConfusion hf, h.noLen, ?_⟩
        intro xs hxs x hx
        rw [← Option.some.inj hxs] at hx
        exact absurd hx List.not_mem_nil

/-- Outside a payload the state is tidy whatever the last length was. -/
theorem Tidy.endPayload {st : ReadState} (h : Tidy st) (n : Int64) :
    Tidy { st with bulkLen := n, multiLine := true } :=
  ⟨h.idle, fun hf => Bool.noConfusion hf, h.items⟩

theorem Tidy.noPayload {st : ReadState} (h : Tidy st) :
    Tidy { st with multiLine := false, bulkLen := 0 } :=
  ⟨h.idle, fun _ => rfl, h.items⟩

theorem bulkLine_keeps (msg : Bytes) {st : ReadState} (h : Tidy st) (rest : Bytes) :
    Keeps (bulkLine msg st rest) := by
  rw [bulkLine]
  rcases parseBulkHeader_cases msg st with ⟨p, hp⟩ | herr | ⟨n, hok⟩
  · rw [hp]
    trivial
  · rw [herr]
    exact ⟨rfl, fun heq => by cases heq⟩
  · rw [hok]
    dsimp only
    by_cases hnull : n = -1
    · rw [if_pos hnull]
      exact deliver_keeps id h.noPayload rfl rest
    · rw [if_neg hnull]
      exact h.endPayload n

theorem messageStep_keeps (msg : Bytes) {st : ReadState} (h : Tidy st) (rest : Bytes) :
    Keeps (messageStep msg st rest) := by
  rw [messageStep]
  cases hm : st.multiLine with
  | true =>
    rw [if_pos rfl]
    refine finish_keeps ?_ ?_ h.noPayload rfl rest
    · rw [parseMultiLine]
      repeat' split
      all_goals simp [IsArray]
    · rw [parseMultiLine]
      repeat' split
      all_goals simp
  | false =>
    rw [if_neg (by decide)]
    cases index msg 0 with
    | none => trivial
    | some c =>
      dsimp only
      by_cases harr : c = 42
      · rw [if_pos harr]
        exact arrayLine_keeps msg h rest
      · rw [if_neg harr]
        by_cases hbulk : c = 36
        · rw [if_pos hbulk]
          exact bulkLine_keeps msg h rest
        · rw [if_neg hbulk]
          refine finish_keeps ?_ ?_ h hm rest
          · rw [parseSingleLine]
            repeat' split
            all_goals simp [IsArray]
          · rw [parseSingleLine]
            repeat' split
            all_goals simp

/-- `readLine` hands on a tidy state; it fails with EOF or otherwise. -/
theorem readLine_keeps {st : ReadState} (h : Tidy st) (input : Bytes) :
    ∀ msg st' rest, readLine st input = .line msg st' rest → Tidy st' := by
  intro msg st' rest hline
  have hsame : st' = st ∨ st' = { st with bulkLen := 0 } := by
    rw [readLine] at hline
    repeat' split at hline
    all_goals try cases hline
    · rw [checkPayload] at hline
      repeat' split at hline
      all_goals cases hline
      exact Or.inr rfl
    · rw [checkLine] at hline
      repeat' split at hline
      all_goals cases hline
      exact Or.inl rfl
  rcases hsame with rfl | rfl
  · exact h
  · exact ⟨h.idle, fun _ => rfl, h.items⟩

/-- **One iteration** keeps the state tidy. -/
theorem parseStep_keeps {c : Config} (h : Tidy c.state) : Keeps (parseStep c) := by
  rw [parseStep]
  cases hr : readLine c.state c.input with
  | panic p => trivial
  | line msg st rest => exact messageStep_keeps msg (readLine_keeps h _ _ _ _ hr) rest
  | fail e rest =>
    cases e with
    | eof => rfl
    | _ => exact ⟨rfl, fun heq => by cases heq⟩

/-! ## Runs -/

/-- **A run** keeps the state tidy, and all it sends is sendable. -/
theorem emits_keeps {c c' : Config} {out : List ParsedRes} (h : Emits c out c')
    (hc : Tidy c.state) : Tidy c'.state ∧ ∀ r ∈ out, Sendable r := by
  induction h with
  | refl c => exact ⟨hc, fun r hr => absurd hr List.not_mem_nil⟩
  | @step c emit c' out c'' hs _ ih =>
    have hstep := parseStep_keeps hc
    rw [hs] at hstep
    cases emit with
    | none => exact ih hstep
    | some r =>
      obtain ⟨hinit, hr⟩ := hstep
      obtain ⟨htidy, hout⟩ := ih (hinit ▸ tidy_init)
      refine ⟨htidy, fun r' hr' => ?_⟩
      rcases List.mem_cons.mp hr' with rfl | hin
      · exact hr
      · exact hout r' hin

/-- With enough fuel the loop sends what is left to send, from any tidy state:
    sendable results, and EOF at the end unless it panics. -/
theorem parseLoop_sends {n : Nat} : ∀ {c : Config}, Tidy c.state → c.input.length < n →
    (∃ p, (parseLoop n c).2 = .panicked p) ∨
      ∃ out, parseLoop n c = (out ++ [.err .eof], .closed) ∧ ∀ r ∈ out, Sendable r := by
  induction n with
  | zero => intro c _ hlt; omega
  | succ n ih =>
    intro c hc hlt
    have hstep := parseStep_keeps hc
    rw [parseLoop]
    cases hs : parseStep c with
    | panic p => exact Or.inl ⟨p, rfl⟩
    | done r =>
      rw [hs] at hstep
      obtain rfl : r = .err .eof := hstep
      exact Or.inr ⟨[], rfl, fun r hr => absurd hr List.not_mem_nil⟩
    | next emit c' =>
      have hless := parseStep_consumes hs
      rw [hs] at hstep
      have hc' : Tidy c'.state ∧ ∀ r ∈ emit.toList, Sendable r := by
        cases emit with
        | none => exact ⟨hstep, fun r hr => absurd hr List.not_mem_nil⟩
        | some r =>
          refine ⟨hstep.1 ▸ tidy_init, fun r' hr' => ?_⟩
          rw [List.mem_singleton.mp hr']
          exact hstep.2
      dsimp only
      rcases ih hc'.1 (by omega) with ⟨p, hp⟩ | ⟨out, hout, hall⟩
      · exact Or.inl ⟨p, hp⟩
      · refine Or.inr ⟨emit.toList ++ out, by rw [hout, List.append_assoc], ?_⟩
        intro r hr
        rcases List.mem_append.mp hr with hin | hin
        · exact hc'.2 r hin
        · exact hall r hin

/-- `parse` follows a run: what is sent later is what the loop sends from where
    the run has come to. -/
theorem parse_emits {input : Bytes} {c : Config} {out : List ParsedRes}
    (h : Emits ⟨{}, input⟩ out c) :
    parse input = (out ++ (parseLoop (c.input.length + 1) c).1,
      (parseLoop (c.input.length + 1) c).2) := by
  obtain ⟨k, hk⟩ := parseLoop_emits h
  have hfuel : (parse input).2 ≠ .outOfFuel := parseLoop_ends (Nat.lt_succ_self _)
  have hfuel' : (parseLoop (c.input.length + 1) c).2 ≠ .outOfFuel :=
    parseLoop_ends (Nat.lt_succ_self _)
  have hend : (parseLoop (c.input.length + 1 + k) ⟨{}, input⟩).2 ≠ .outOfFuel := by
    rw [hk]
    exact hfuel'
  have h1 := parseLoop_stable hfuel (c.input.length + 1 + k)
  have h2 := parseLoop_stable hend (input.length + 1)
  rw [Nat.add_comm, h1] at h2
  rw [← hk]
  exact h2

/-- **THE PARSER FORGETS**: after every result but the last the state is the
    initial one, so all that follows is what a new parser sends on the unread
    bytes; and without a panic the loop ends, with one EOF, as its last result. -/
theorem parse_forgets (input : Bytes) :
    (∀ out c r c', Emits ⟨{}, input⟩ out c → parseStep c = .next (some r) c' →
      c'.state = {} ∧
      parse input = (out ++ r :: (parse c'.input).1, (parse c'.input).2)) ∧
    ((∀ p, (parse input).2 ≠ .panicked p) →
      ∃ out, parse input = (out ++ [.err .eof], .closed) ∧ .err .eof ∉ out) := by
  constructor
  · intro out c r c' hout hstep
    have hkeeps := parseStep_keeps (emits_keeps hout tidy_init).1
    rw [hstep] at hkeeps
    refine ⟨hkeeps.1, ?_⟩
    obtain ⟨st, rest⟩ := c'
    obtain rfl : st = {} := hkeeps.1
    have hrun := hout.trans (Emits.one hstep)
    rw [parse_emits hrun, List.append_assoc]
    rfl
  · intro hpanic
    rcases parseLoop_sends (c := ⟨{}, input⟩) tidy_init (Nat.lt_succ_self _) with
      ⟨p, hp⟩ | ⟨out, hout, hall⟩
    · exact absurd hp (hpanic p)
    · exact ⟨out, hout, fun hmem => hall _ hmem rfl⟩

/-- A truncated payload: the error, then EOF, from a state that has forgotten the
    announced length. -/
theorem parse_forgets_truncated :
    ∃ out, parse (ascii "*2\r\n$5\r\nab") = (out ++ [.err .eof], .closed) ∧ .err .eof ∉ out := by
  refine (parse_forgets (ascii "*2\r\n$5\r\nab")).2 fun p hp => ?_
  have hclosed : (parse (ascii "*2\r\n$5\r\nab")).2 = .closed := by decide
  rw [hclosed] at hp
  cases hp

end TinyRespHistory
