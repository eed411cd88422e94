import TinyRedis.RespStreamProofs

/-! # What can crash the RESP parser

    The parser's index guards are spread over five functions.  Read together
    they let exactly four kinds of line through to a panic (`Hostile`):

    * a bare LF: `readLine` reads `msg[len(msg)-2]` of a one-byte line, its
      guard being `len(msg) == 0`;
    * a bare CRLF: `parseSingleLine` slices `msg[1:0]`;
    * an array header announcing more elements than `make` can serve;
    * a bulk header announcing more bytes than `make` can serve, the `int64`
      overflow of `bulkLen+2` included.

    `parse_safe_iff` closes the case: a stream is parsed without a panic, every
    malformed unit of it ending in an emitted error, exactly when none of the
    lines the parser reads from it is hostile. -/

namespace TinyRespSafety

open GoString GoStrconv TinyResp TinyRespStream

variable {st : ReadState}

/-! ## The specification -/

/-- A bulk header line that announces a payload of `n` bytes. -/
def BulkHeader (msg : Bytes) (n : Int64) : Prop :=
  ∃ num, msg = 36 :: num ++ crlf ∧ parseInt num = .ok n ∧ 0 ≤ n

/-- `ReadsLine s msg`: cutting the stream `s` into lines, and skipping the
    payload behind every bulk header, `msg` is one of the lines. -/
inductive ReadsLine : Bytes → Bytes → Prop where
  | here {s msg rest} : readBytes s = some (msg, rest) → ReadsLine s msg
  | line {s msg rest m} : readBytes s = some (msg, rest) → (∀ n, ¬ BulkHeader msg n) →
      ReadsLine rest m → ReadsLine s m
  | bulk {s msg rest n m} : readBytes s = some (msg, rest) → BulkHeader msg n →
      ReadsLine (rest.drop (n.toInt + 2).toNat) m → ReadsLine s m

/-- The lines that crash the parser. -/
def Hostile (msg : Bytes) : Prop :=
  msg = [10] ∨ msg = crlf
    ∨ (∃ num n, msg = 42 :: num ++ crlf ∧ atoi num = .ok n ∧ (maxAlloc : Int) < interfaceSize * n)
    ∨ ∃ n, BulkHeader msg n ∧ (maxAlloc : Int) < n.toInt + 2

/-- A line outside RESP: not closed by CRLF, without a type byte, or with a
    number that its type byte does not admit. -/
def BadLine (msg : Bytes) : Prop :=
  ¬ crlf <:+ msg ∨ msg = crlf
    ∨ (∃ num, msg = 42 :: num ++ crlf ∧ ∀ n, atoi num = .ok n → n < -1)
    ∨ (∃ num, msg = 36 :: num ++ crlf ∧ ∀ n, parseInt num = .ok n → n < -1)
    ∨ ∃ num e, msg = 58 :: num ++ crlf ∧ parseInt num = .error e

/-- The next unit of the stream, a payload or a line, is malformed. -/
def Malformed (c : Config) : Prop :=
  if c.state.multiLine then
    (0 < c.input.length ∧ (c.input.length : Int) < c.state.bulkLen.toInt + 2)
      ∨ (c.state.bulkLen.toInt + 2 ≤ c.input.length
          ∧ ¬ crlf <:+ c.input.take (c.state.bulkLen.toInt + 2).toNat)
  else ∃ msg rest, readBytes c.input = some (msg, rest) ∧ BadLine msg

/-- The configurations the loop passes through. -/
inductive Reaches : Config → Config → Prop where
  | refl (c) : Reaches c c
  | tail {c c' c'' emit} : Reaches c c' → parseStep c' = .next emit c'' → Reaches c c''

/-- **Memory safety of a run**: the parser closes its channel, no step on the
    way panics, and every malformed unit is answered by an error. -/
def ParserSafe (input : Bytes) : Prop :=
  (parse input).2 = .closed ∧
  ∀ c, Reaches ⟨{}, input⟩ c →
    (∀ p, parseStep c ≠ .panic p) ∧
    (Malformed c → ∃ e c', e ≠ .eof ∧ parseStep c = .next (some (.err e)) c')

/-! ## One line -/

/-- What holds of the state between two iterations: a pending payload can be
    allocated, and an open array has its buffer. -/
structure StateOk (st : ReadState) : Prop where
  bulk : st.multiLine = true → 0 ≤ st.bulkLen ∧ st.bulkLen.toInt + 2 ≤ maxAlloc
  array : st.inArray = true → st.arrayData ≠ none

theorem stateOk_init : StateOk {} := ⟨by simp, by simp⟩

/-- The four shapes of a line behind `ReadBytes`. -/
theorem line_cases {s msg rest : Bytes} (h : readBytes s = some (msg, rest)) :
    msg = [10] ∨ (∃ body c, c ≠ 13 ∧ msg = body ++ [c, 10]) ∨ msg = crlf
      ∨ ∃ t num, t ≠ 10 ∧ (10 : UInt8) ∉ num ∧ msg = t :: num ++ crlf := by
  obtain ⟨-, body, rfl, hbody⟩ := readBytes_spec h
  rcases List.eq_nil_or_concat body with rfl | ⟨b, c, rfl⟩
  · exact Or.inl rfl
  · by_cases hc : c = 13
    · subst hc
      cases b with
      | nil => exact Or.inr (Or.inr (Or.inl rfl))
      | cons t num =>
        refine Or.inr (Or.inr (Or.inr ⟨t, num, ?_, ?_, by simp [crlf]⟩))
        · intro ht
          exact hbody (by simp [ht])
        · intro hn
          exact hbody (by simp [hn])
    · exact Or.inr (Or.inl ⟨b, c, hc, by simp⟩)

private theorem readLine_of_line {st : ReadState} (hm : st.multiLine = false) {s msg rest : Bytes}
    (h : readBytes s = some (msg, rest)) : readLine st s = checkLine msg st rest := by
  rw [readLine, if_neg (by simp [hm]), h]

/-- A bare LF indexes out of range. -/
theorem parseStep_bareLF (hm : st.multiLine = false) {s rest : Bytes}
    (h : readBytes s = some ([10], rest)) :
    parseStep ⟨st, s⟩ = .panic .indexOutOfRange := by
  rw [parseStep, readLine_of_line hm h]
  rfl

/-- A bare CRLF slices out of range. -/
theorem parseStep_bareCRLF (hm : st.multiLine = false) {s rest : Bytes}
    (h : readBytes s = some (crlf, rest)) :
    parseStep ⟨st, s⟩ = .panic .sliceBoundsOutOfRange := by
  rw [parseStep, readLine_of_line hm h]
  show messageStep crlf st rest = _
  rw [messageStep, if_neg (by simp [hm])]
  rfl

/-- A line without its CR is an error. -/
theorem parseStep_noCR (hm : st.multiLine = false) {s body rest : Bytes} {c : UInt8} (hc : c ≠ 13)
    (h : readBytes s = some (body ++ [c, 10], rest)) :
    parseStep ⟨st, s⟩ = .next (some (.err (.invalidStream (body ++ [c, 10])))) ⟨{}, rest⟩ := by
  have hfail : readLine st s = .fail (.invalidStream (body ++ [c, 10])) rest := by
    rw [readLine_of_line hm h, checkLine, if_neg (by simp), index_sub_two]
    exact if_pos hc
  rw [parseStep, hfail]

/-- Delivering an element keeps the state in line mode and never panics. -/
theorem deliver_ok (hst : StateOk st) (hm : st.multiLine = false) (d : RedisData) (rest : Bytes) :
    ∃ emit st', deliver d st rest = .next emit ⟨st', rest⟩ ∧ StateOk st'
      ∧ st'.multiLine = false := by
  rw [deliver]
  by_cases hin : st.inArray = true
  · rw [if_pos hin]
    cases hd : st.arrayData with
    | none => exact absurd hd (hst.array hin)
    | some xs =>
      by_cases hl : ((xs ++ [d]).length : Int) = st.arrayLen
      · exact ⟨_, {}, if_pos hl, stateOk_init, rfl⟩
      · refine ⟨none, { st with arrayData := some (xs ++ [d]) }, if_neg hl, ⟨?_, ?_⟩, hm⟩
        · intro h
          rw [hm] at h
          cases h
        · intro _ h
          cases h
  · rw [if_neg hin]
    exact ⟨_, st, rfl, hst, hm⟩

/-- A line `t num CRLF` determines its type byte and its text. -/
private theorem line_inj {t t' : UInt8} {num num' : Bytes}
    (h : t :: num ++ crlf = t' :: num' ++ crlf) : t = t' ∧ num = num' := by
  have h' := List.append_cancel_right h
  exact ⟨(List.cons.inj h').1, (List.cons.inj h').2⟩

theorem bulkHeader_iff (t : UInt8) (num : Bytes) (n : Int64) :
    BulkHeader (t :: num ++ crlf) n ↔ t = 36 ∧ parseInt num = .ok n ∧ 0 ≤ n := by
  constructor
  · rintro ⟨num', heq, hp, h0⟩
    obtain ⟨rfl, rfl⟩ := line_inj heq
    exact ⟨rfl, hp, h0⟩
  · rintro ⟨rfl, hp, h0⟩
    exact ⟨num, rfl, hp, h0⟩

theorem hostile_iff (t : UInt8) (num : Bytes) :
    Hostile (t :: num ++ crlf) ↔
      (t = 42 ∧ ∃ n, atoi num = .ok n ∧ (maxAlloc : Int) < interfaceSize * n)
        ∨ ∃ n, BulkHeader (t :: num ++ crlf) n ∧ (maxAlloc : Int) < n.toInt + 2 := by
  constructor
  · rintro (h | h | ⟨num', n, heq, ha, hn⟩ | h)
    · exact absurd (congrArg List.length h) (by simp [crlf])
    · exact absurd (congrArg List.length h) (by simp [crlf])
    · obtain ⟨rfl, rfl⟩ := line_inj heq
      exact Or.inl ⟨rfl, n, ha, hn⟩
    · exact Or.inr h
  · rintro (⟨rfl, n, ha, hn⟩ | h)
    · exact Or.inr (Or.inr (Or.inl ⟨num, n, rfl, ha, hn⟩))
    · exact Or.inr (Or.inr (Or.inr h))

theorem badLine_iff (t : UInt8) (num : Bytes) :
    BadLine (t :: num ++ crlf) ↔
      (t = 42 ∧ ∀ n, atoi num = .ok n → n < -1)
        ∨ (t = 36 ∧ ∀ n, parseInt num = .ok n → n < -1)
        ∨ (t = 58 ∧ ∃ e, parseInt num = .error e) := by
  constructor
  · rintro (h | h | ⟨num', heq, hn⟩ | ⟨num', heq, hn⟩ | ⟨num', e, heq, he⟩)
    · exact absurd (List.suffix_append _ _) h
    · exact absurd (congrArg List.length h) (by simp [crlf])
    · obtain ⟨rfl, rfl⟩ := line_inj heq
      exact Or.inl ⟨rfl, hn⟩
    · obtain ⟨rfl, rfl⟩ := line_inj heq
      exact Or.inr (Or.inl ⟨rfl, hn⟩)
    · obtain ⟨rfl, rfl⟩ := line_inj heq
      exact Or.inr (Or.inr ⟨rfl, e, he⟩)
  · rintro (⟨rfl, hn⟩ | ⟨rfl, hn⟩ | ⟨rfl, e, he⟩)
    · exact Or.inr (Or.inr (Or.inl ⟨num, rfl, hn⟩))
    · exact Or.inr (Or.inr (Or.inr (Or.inl ⟨num, rfl, hn⟩)))
    · exact Or.inr (Or.inr (Or.inr (Or.inr ⟨num, e, rfl, he⟩)))

/-- What a line that is not hostile does: the loop goes on behind it, in
    payload mode exactly after a bulk header, and a bad line is answered by an
    error. -/
structure LineOutcome (msg rest : Bytes) (r : StepRes) : Prop where
  next : ∃ emit st', r = .next emit ⟨st', rest⟩ ∧ StateOk st'
    ∧ (∀ n, BulkHeader msg n → st'.multiLine = true ∧ st'.bulkLen = n)
    ∧ ((∀ n, ¬ BulkHeader msg n) → st'.multiLine = false)
    ∧ (BadLine msg → ∃ e, e ≠ .eof ∧ emit = some (.err e))

/-- An error resets the state: the outcome of any line that is no header. -/
private theorem outcome_err {msg rest : Bytes} {e : ReadErr} (he : e ≠ .eof)
    (hb : ∀ n, ¬ BulkHeader msg n) :
    LineOutcome msg rest (.next (some (.err e)) ⟨{}, rest⟩) :=
  ⟨_, {}, rfl, stateOk_init, fun n h => absurd h (hb n), fun _ => rfl, fun _ => ⟨e, he, rfl⟩⟩

/-- A good line that emits or extends the array. -/
private theorem outcome_good {msg rest : Bytes} {emit : Option ParsedRes} {st : ReadState}
    (hst : StateOk st) (hm : st.multiLine = false) (hb : ∀ n, ¬ BulkHeader msg n)
    (hbad : ¬ BadLine msg) : LineOutcome msg rest (.next emit ⟨st, rest⟩) :=
  ⟨emit, st, rfl, hst, fun n h => absurd h (hb n), fun _ => hm, fun h => absurd h hbad⟩

private theorem outcome_deliver {msg rest : Bytes} {st : ReadState} (hst : StateOk st)
    (hm : st.multiLine = false) (d : RedisData) (hb : ∀ n, ¬ BulkHeader msg n)
    (hbad : ¬ BadLine msg) : LineOutcome msg rest (deliver d st rest) := by
  obtain ⟨emit, st', heq, hst', hm'⟩ := deliver_ok hst hm d rest
  rw [heq]
  exact outcome_good hst' hm' hb hbad

/-- An array header that can be allocated. -/
theorem arrayLine_outcome (hm : st.multiLine = false) (num rest : Bytes)
    (hh : ¬ Hostile (42 :: num ++ crlf)) :
    LineOutcome (42 :: num ++ crlf) rest (arrayLine (42 :: num ++ crlf) st rest) := by
  have hb : ∀ n, ¬ BulkHeader (42 :: num ++ crlf) n := by
    intro n h
    exact absurd ((bulkHeader_iff 42 num n).mp h).1 (by decide)
  rw [arrayLine_eq]
  cases ha : atoi num with
  | error e => exact outcome_err (fun h => nomatch h) hb
  | ok n =>
    by_cases h1 : n < -1
    · simp only [if_pos h1]
      exact outcome_err (fun h => nomatch h) hb
    · have hbad : ¬ BadLine (42 :: num ++ crlf) := by
        rw [badLine_iff]
        rintro (⟨-, hn⟩ | ⟨h, -⟩ | ⟨h, -⟩)
        · exact h1 (hn n ha)
        · exact absurd h (by decide)
        · exact absurd h (by decide)
      have h2 : ¬ (0 < n ∧ makePanics interfaceSize n) := by
        rintro ⟨hpos, hneg | hmax⟩
        · omega
        · exact hh ((hostile_iff 42 num).mpr (Or.inl ⟨rfl, n, ha, hmax⟩))
      simp only [if_neg h1, if_neg h2]
      by_cases h3 : n = -1
      · rw [if_pos h3]
        exact outcome_good stateOk_init rfl hb hbad
      · rw [if_neg h3]
        by_cases h4 : n = 0
        · rw [if_pos h4]
          exact outcome_good stateOk_init rfl hb hbad
        · rw [if_neg h4]
          refine outcome_good ⟨?_, ?_⟩ hm hb hbad
          · intro h
            exact absurd (hm.symm.trans h) (by decide)
          · intro _ h
            exact nomatch h

/-- A bulk header whose payload can be allocated. -/
theorem bulkLine_outcome (hst : StateOk st) (num rest : Bytes)
    (hh : ¬ Hostile (36 :: num ++ crlf)) :
    LineOutcome (36 :: num ++ crlf) rest (bulkLine (36 :: num ++ crlf) st rest) := by
  rw [bulkLine_eq]
  cases hp : parseInt num with
  | error e =>
    refine outcome_err (fun h => nomatch h) ?_
    intro n h
    have h2 := ((bulkHeader_iff 36 num n).mp h).2.1
    rw [hp] at h2
    exact nomatch h2
  | ok n =>
    have hval : ∀ n', BulkHeader (36 :: num ++ crlf) n' → n' = n ∧ 0 ≤ n := by
      intro n' h
      obtain ⟨-, hp', h0⟩ := (bulkHeader_iff 36 num n').mp h
      rw [hp] at hp'
      have hn : n = n' := Except.ok.inj hp'
      exact ⟨hn.symm, hn ▸ h0⟩
    by_cases h1 : n < -1
    · simp only [if_pos h1]
      refine outcome_err (fun h => nomatch h) ?_
      intro n' h
      have h0 := (hval n' h).2
      simp only [Int64.lt_iff_toInt_lt, Int64.le_iff_toInt_le] at h1 h0
      have e1 : (-1 : Int64).toInt = -1 := by decide
      have e0 : (0 : Int64).toInt = 0 := by decide
      omega
    · have hbad : ¬ BadLine (36 :: num ++ crlf) := by
        rw [badLine_iff]
        rintro (⟨h, -⟩ | ⟨-, hn⟩ | ⟨h, -⟩)
        · exact absurd h (by decide)
        · exact h1 (hn n hp)
        · exact absurd h (by decide)
      simp only [if_neg h1]
      by_cases h2 : n = -1
      · rw [if_pos h2]
        have hst' : StateOk { st with multiLine := false, bulkLen := 0 } :=
          ⟨by simp, hst.array⟩
        refine outcome_deliver hst' rfl _ ?_ hbad
        intro n' h
        have h0 := (hval n' h).2
        rw [h2] at h0
        exact absurd h0 (by decide)
      · rw [if_neg h2]
        have h0 : 0 ≤ n := by
          have e1 : (-1 : Int64).toInt = -1 := by decide
          have e0 : (0 : Int64).toInt = 0 := by decide
          have hne : n.toInt ≠ -1 := by
            intro h
            exact h2 (Int64.toInt_inj.mp (h.trans e1.symm))
          simp only [Int64.lt_iff_toInt_lt, Int64.le_iff_toInt_le] at h1 ⊢
          omega
        have hhead : BulkHeader (36 :: num ++ crlf) n :=
          (bulkHeader_iff 36 num n).mpr ⟨rfl, hp, h0⟩
        have hmax : n.toInt + 2 ≤ maxAlloc := by
          by_contra hgt
          exact hh ((hostile_iff 36 num).mpr (Or.inr ⟨n, hhead, by omega⟩))
        refine ⟨none, { st with bulkLen := n, multiLine := true }, rfl,
          ⟨fun _ => ⟨h0, hmax⟩, hst.array⟩, ?_, ?_, fun h => absurd h hbad⟩
        · intro n' h
          exact ⟨rfl, (hval n' h).1.symm⟩
        · intro h
          exact absurd hhead (h n)

/-- Any other line. -/
theorem singleLine_outcome (hst : StateOk st) (hm : st.multiLine = false) {t : UInt8} (h42 : t ≠ 42)
    (h36 : t ≠ 36) (num rest : Bytes) :
    LineOutcome (t :: num ++ crlf) rest (finish (parseSingleLine (t :: num ++ crlf)) st rest) := by
  have hb : ∀ n, ¬ BulkHeader (t :: num ++ crlf) n := by
    intro n h
    exact h36 ((bulkHeader_iff t num n).mp h).1
  have hbad : t ≠ 58 ∨ (∃ d, parseInt num = .ok d) → ¬ BadLine (t :: num ++ crlf) := by
    rw [badLine_iff]
    rintro h58 (⟨h, -⟩ | ⟨h, -⟩ | ⟨h, e, he⟩)
    · exact h42 h
    · exact h36 h
    · rcases h58 with hne | ⟨d, hd⟩
      · exact hne h
      · rw [hd] at he
        exact nomatch he
  rw [parseSingleLine_eq]
  by_cases h43 : t = 43
  · rw [if_pos h43]
    exact outcome_deliver hst hm _ hb (hbad (Or.inl (by rw [h43]; decide)))
  · rw [if_neg h43]
    by_cases h45 : t = 45
    · rw [if_pos h45]
      exact outcome_deliver hst hm _ hb (hbad (Or.inl (by rw [h45]; decide)))
    · rw [if_neg h45]
      by_cases h58 : t = 58
      · rw [if_pos h58]
        cases hp : parseInt num with
        | error e => exact outcome_err (fun h => nomatch h) hb
        | ok d => exact outcome_deliver hst hm _ hb (hbad (Or.inr ⟨d, hp⟩))
      · rw [if_neg h58]
        exact outcome_deliver hst hm _ hb (hbad (Or.inl h58))

/-- **One line that is not hostile.** -/
theorem parseStep_outcome (hst : StateOk st) (hm : st.multiLine = false) {s msg rest : Bytes}
    (h : readBytes s = some (msg, rest)) (hh : ¬ Hostile msg) :
    LineOutcome msg rest (parseStep ⟨st, s⟩) := by
  rcases line_cases h with rfl | ⟨body, c, hc, rfl⟩ | rfl | ⟨t, num, ht, hnum, rfl⟩
  · exact absurd (Or.inl rfl) hh
  · rw [parseStep_noCR hm hc h]
    refine outcome_err (fun h => nomatch h) ?_
    rintro n ⟨num, heq, -⟩
    have hlast := congrArg (fun l => l.reverse.drop 1) heq
    simp [crlf] at hlast
    exact hc hlast.1
  · exact absurd (Or.inr (Or.inl rfl)) hh
  · have hs := (readBytes_spec h).1
    rw [hs, parseStep_line hm ht hnum]
    by_cases h42 : t = 42
    · subst h42
      exact arrayLine_outcome hm num rest hh
    · rw [if_neg h42]
      by_cases h36 : t = 36
      · subst h36
        exact bulkLine_outcome hst num rest hh
      · rw [if_neg h36]
        exact singleLine_outcome hst hm h42 h36 num rest

/-! ## One payload -/

/-- A message of at least two bytes has its last two. -/
private theorem split_last_two {msg : Bytes} (h : 2 ≤ msg.length) :
    ∃ d c1 c2, msg = d ++ [c1, c2] := by
  rcases List.eq_nil_or_concat msg with rfl | ⟨m, c2, rfl⟩
  · simp at h
  · rcases List.eq_nil_or_concat m with rfl | ⟨d, c1, rfl⟩
    · simp at h
    · exact ⟨d, c1, c2, by simp⟩

/-- **One payload** that can be allocated: at the end of the stream the parser
    closes, otherwise it goes on behind the payload in line mode. -/
theorem parseStep_payload_outcome (hst : StateOk st) (hm : st.multiLine = true) {s : Bytes}
    (hs : s ≠ []) :
    ∃ emit st', parseStep ⟨st, s⟩ = .next emit ⟨st', s.drop (st.bulkLen.toInt + 2).toNat⟩
      ∧ StateOk st' ∧ st'.multiLine = false
      ∧ (Malformed ⟨st, s⟩ → ∃ e, e ≠ .eof ∧ emit = some (.err e)) := by
  obtain ⟨h0, hmax⟩ := hst.bulk hm
  have hn := toInt_add_two h0 hmax
  have hb0 : 0 ≤ st.bulkLen.toInt := by simpa [Int64.le_iff_toInt_le] using h0
  have hmk : ¬ makePanics 1 (st.bulkLen.toInt + 2) := by
    rw [makePanics]
    omega
  have hread : readLine st s
      = if (s.length : Int) < st.bulkLen.toInt + 2 then .fail .unexpectedEOF []
        else checkPayload (s.take (st.bulkLen.toInt + 2).toNat) st
          (s.drop (st.bulkLen.toInt + 2).toNat) := by
    rw [readLine, if_pos ⟨hm, h0⟩, hn, if_neg hmk, if_neg hs]
  by_cases hlt : (s.length : Int) < st.bulkLen.toInt + 2
  · -- cut off: `io.ErrUnexpectedEOF`, and nothing is left
    refine ⟨some (.err .unexpectedEOF), {}, ?_, stateOk_init, rfl,
      fun _ => ⟨.unexpectedEOF, by simp, rfl⟩⟩
    rw [parseStep, hread, if_pos hlt, List.drop_of_length_le (by omega)]
  · have hlen : (s.take (st.bulkLen.toInt + 2).toNat).length = (st.bulkLen.toInt + 2).toNat := by
      rw [List.length_take]
      omega
    have htwo : 2 ≤ (s.take (st.bulkLen.toInt + 2).toNat).length := by omega
    obtain ⟨d, c1, c2, htake⟩ := split_last_two htwo
    by_cases hcr : c1 = 13 ∧ c2 = 10
    · -- closed by CRLF: this is `parseStep_payload`
      obtain ⟨rfl, rfl⟩ := hcr
      have hsplit : s = d ++ crlf ++ s.drop (st.bulkLen.toInt + 2).toNat := by
        have h := List.take_append_drop (st.bulkLen.toInt + 2).toNat s
        rw [htake] at h
        exact h.symm
      have hd : (d.length : Int) = st.bulkLen.toInt := by
        rw [htake] at hlen
        simp at hlen
        omega
      have hst' : StateOk { st with multiLine := false, bulkLen := 0 } := ⟨by simp, hst.array⟩
      obtain ⟨emit, st', heq, hok, hm'⟩ := deliver_ok hst' rfl (.bulkData (some d))
        (s.drop (st.bulkLen.toInt + 2).toNat)
      refine ⟨emit, st', ?_, hok, hm', ?_⟩
      · rw [← heq, ← parseStep_payload hm h0 hmax hd, ← hsplit]
      · intro hbad
        rw [Malformed, if_pos hm] at hbad
        rcases hbad with ⟨-, h⟩ | ⟨-, h⟩
        · exact absurd h hlt
        · exact absurd (htake ▸ List.suffix_append _ _) h
    · refine ⟨some (.err (.invalidStream (d ++ [c1, c2]))), {}, ?_, stateOk_init, rfl,
        fun _ => ⟨.invalidStream (d ++ [c1, c2]), by simp, rfl⟩⟩
      have hor : c2 ≠ 10 ∨ c1 ≠ 13 := by
        by_contra h
        push Not at h
        exact hcr ⟨h.2, h.1⟩
      rw [parseStep, hread, if_neg hlt, htake, checkPayload, index_sub_one, index_sub_two]
      simp only [if_pos hor]

/-- At the end of the stream a pending payload closes the parser. -/
theorem parseStep_payload_eof (hst : StateOk st) (hm : st.multiLine = true) :
    parseStep ⟨st, []⟩ = .done (.err .eof) := by
  obtain ⟨h0, hmax⟩ := hst.bulk hm
  have hb0 : 0 ≤ st.bulkLen.toInt := by simpa [Int64.le_iff_toInt_le] using h0
  have hmk : ¬ makePanics 1 (st.bulkLen.toInt + 2) := by
    rw [makePanics]
    omega
  rw [parseStep, readLine, if_pos ⟨hm, h0⟩, toInt_add_two h0 hmax, if_neg hmk,
    if_pos (by simp; omega), if_pos rfl]

/-! ## Streams without a hostile line -/

/-- The lines still to be read from a configuration. -/
def PendingLine (c : Config) (m : Bytes) : Prop :=
  if c.state.multiLine then ReadsLine (c.input.drop (c.state.bulkLen.toInt + 2).toNat) m
  else ReadsLine c.input m

/-- The invariant of a safe run: a good state, and no hostile line ahead. -/
def Clean (c : Config) : Prop := StateOk c.state ∧ ∀ m, PendingLine c m → ¬ Hostile m

/-- What one iteration does from a clean configuration. -/
def StepsClean (c : Config) : Prop :=
  (parseStep c = .done (.err .eof) ∧ ¬ Malformed c)
    ∨ ∃ emit c', parseStep c = .next emit c' ∧ Clean c' ∧ c'.input.length < c.input.length
      ∧ (Malformed c → ∃ e, e ≠ .eof ∧ emit = some (.err e))

private theorem stepsClean_payload {st : ReadState} {s : Bytes} (hm : st.multiLine = true)
    (hc : Clean ⟨st, s⟩) : StepsClean ⟨st, s⟩ := by
  obtain ⟨hst, hlines⟩ := hc
  by_cases hs : s = []
  · subst hs
    refine Or.inl ⟨parseStep_payload_eof hst hm, ?_⟩
    rw [Malformed, if_pos hm]
    have hb0 : 0 ≤ st.bulkLen.toInt := by
      simpa [Int64.le_iff_toInt_le] using (hst.bulk hm).1
    rintro (⟨h, -⟩ | ⟨h, -⟩)
    · exact absurd h (by simp)
    · simp at h
      omega
  · obtain ⟨emit, st', heq, hok, hm', hbad⟩ := parseStep_payload_outcome hst hm hs
    refine Or.inr ⟨emit, _, heq, ⟨hok, ?_⟩, ?_, hbad⟩
    · intro m hp
      rw [PendingLine, if_neg (by simp [hm'])] at hp
      refine hlines m ?_
      rw [PendingLine, if_pos hm]
      exact hp
    · have hpos : 0 < s.length := List.length_pos_iff.mpr hs
      have hb0 : 0 ≤ st.bulkLen.toInt := by
        simpa [Int64.le_iff_toInt_le] using (hst.bulk hm).1
      show (s.drop (st.bulkLen.toInt + 2).toNat).length < s.length
      rw [List.length_drop]
      omega

private theorem stepsClean_line {st : ReadState} {s : Bytes} (hm : st.multiLine = false)
    (hc : Clean ⟨st, s⟩) : StepsClean ⟨st, s⟩ := by
  obtain ⟨hst, hlines⟩ := hc
  have hpend : ∀ m, ReadsLine s m → ¬ Hostile m := by
    intro m h
    refine hlines m ?_
    rw [PendingLine, if_neg (by simp [hm])]
    exact h
  cases hr : readBytes s with
  | none =>
    refine Or.inl ⟨?_, ?_⟩
    · rw [parseStep, readLine, if_neg (by simp [hm]), hr]
    · rw [Malformed, if_neg (by simp [hm])]
      rintro ⟨msg, rest, h, -⟩
      rw [hr] at h
      cases h
  | some p =>
    obtain ⟨msg, rest⟩ := p
    obtain ⟨emit, st', heq, hok, hbulk, hline, hbad⟩ :=
      (parseStep_outcome hst hm hr (hpend msg (.here hr))).next
    refine Or.inr ⟨emit, _, heq, ⟨hok, ?_⟩, ?_, ?_⟩
    · -- the lines behind this one are lines of the whole stream
      intro m hp
      refine hpend m ?_
      by_cases hb : ∃ n, BulkHeader msg n
      · obtain ⟨n, hn⟩ := hb
        obtain ⟨hm', hlen⟩ := hbulk n hn
        rw [PendingLine, if_pos hm'] at hp
        rw [← hlen] at hn
        exact .bulk hr hn hp
      · have hb' : ∀ n, ¬ BulkHeader msg n := fun n hn => hb ⟨n, hn⟩
        rw [PendingLine, if_neg (by simp [hline hb'])] at hp
        exact .line hr hb' hp
    · obtain ⟨hs, body, hmsg, -⟩ := readBytes_spec hr
      show rest.length < s.length
      rw [hs, hmsg]
      simp
      omega
    · rw [Malformed, if_neg (by simp [hm])]
      rintro ⟨msg', rest', h, hbl⟩
      rw [hr] at h
      obtain ⟨rfl, -⟩ := Prod.mk.inj (Option.some.inj h)
      exact hbad hbl

/-- **The step lemma**: clean configurations step to clean ones. -/
theorem stepsClean {c : Config} (hc : Clean c) : StepsClean c := by
  obtain ⟨st, s⟩ := c
  cases hm : st.multiLine with
  | true => exact stepsClean_payload hm hc
  | false => exact stepsClean_line hm hc

/-- **The run lemma**: everything reached from a clean configuration is clean. -/
theorem reaches_clean {c c' : Config} (hc : Clean c) (h : Reaches c c') : Clean c' := by
  induction h with
  | refl => exact hc
  | tail _ hstep ih =>
    rcases stepsClean ih with ⟨hd, -⟩ | ⟨emit, c'', hn, hcl, -, -⟩
    · rw [hstep] at hd
      exact nomatch hd
    · rw [hstep] at hn
      obtain ⟨-, rfl⟩ := StepRes.next.inj hn
      exact hcl

/-- From a clean configuration, fuel above the input length reaches the end. -/
theorem parseLoop_clean {n : Nat} : ∀ {c : Config}, Clean c → c.input.length < n →
    (parseLoop n c).2 = .closed := by
  induction n with
  | zero => intro c _ h; omega
  | succ n ih =>
    intro c hc hn
    rw [parseLoop]
    rcases stepsClean hc with ⟨hd, -⟩ | ⟨emit, c', hs, hcl, hlt, -⟩
    · rw [hd]
    · rw [hs]
      exact ih hcl (by omega)

/-! ## Streams with one -/

/-- The parser panics from this configuration. -/
def Crashes (c : Config) : Prop := ∃ c' p, Reaches c c' ∧ parseStep c' = .panic p

private theorem crashes_step {c c' : Config} {emit : Option ParsedRes}
    (h : parseStep c = .next emit c') (hc : Crashes c') : Crashes c := by
  obtain ⟨c'', p, hr, hp⟩ := hc
  refine ⟨c'', p, ?_, hp⟩
  clear hp
  induction hr with
  | refl => exact .tail (.refl c) h
  | tail _ hstep ih => exact .tail ih hstep

/-- A hostile line crashes the parser that reads it. -/
theorem hostile_crashes (hm : st.multiLine = false) {s msg rest : Bytes}
    (h : readBytes s = some (msg, rest)) (hh : Hostile msg) : Crashes ⟨st, s⟩ := by
  have here : ∀ p, parseStep ⟨st, s⟩ = .panic p → Crashes ⟨st, s⟩ :=
    fun p hp => ⟨_, p, .refl _, hp⟩
  have hs := (readBytes_spec h).1
  have hno : ∀ {t : UInt8} {num : Bytes}, msg = t :: num ++ crlf →
      t ≠ 10 ∧ (10 : UInt8) ∉ num := by
    intro t num heq
    obtain ⟨-, body, hb, hnot⟩ := readBytes_spec h
    have hbody : body = t :: num ++ [13] := by
      have h2 : body ++ [10] = (t :: num ++ [13]) ++ [10] := by
        rw [← hb, heq]
        simp [crlf]
      exact List.append_cancel_right h2
    rw [hbody] at hnot
    simp only [List.mem_append, List.mem_cons, not_or] at hnot
    exact ⟨fun h => hnot.1.1 h.symm, hnot.1.2⟩
  rcases hh with rfl | rfl | ⟨num, n, heq, ha, hn⟩ | ⟨n, ⟨num, heq, hp, h0⟩, hmax⟩
  · exact here _ (parseStep_bareLF hm h)
  · exact here _ (parseStep_bareCRLF hm h)
  · obtain ⟨-, hnum⟩ := hno heq
    have hpos : 0 < n := by
      by_contra hle
      have h1 : (0 : Int) ≤ maxAlloc := by decide
      have h2 : (interfaceSize : Int) * n ≤ 0 :=
        Int.mul_nonpos_of_nonneg_of_nonpos (by decide) (by omega)
      omega
    refine here .makesliceLenOutOfRange ?_
    rw [hs, heq, parseStep_line hm (by decide) hnum, if_pos rfl, arrayLine_eq, ha]
    show (if n < -1 then _ else _) = _
    rw [if_neg (by omega), if_pos ⟨hpos, Or.inr hn⟩]
  · obtain ⟨-, hnum⟩ := hno heq
    have e1 : (-1 : Int64).toInt = -1 := by decide
    have hn0 : 0 ≤ n.toInt := by simpa [Int64.le_iff_toInt_le] using h0
    have h1 : ¬ n < -1 := by
      rw [Int64.lt_iff_toInt_lt]
      omega
    have h2 : n ≠ -1 := by
      intro h
      rw [h] at hn0
      omega
    have hstep : parseStep ⟨st, s⟩
        = .next none ⟨{ st with bulkLen := n, multiLine := true }, rest⟩ := by
      rw [hs, heq, parseStep_line hm (by decide) hnum, if_neg (by decide), if_pos rfl,
        bulkLine_eq, hp]
      show (if n < -1 then _ else _) = _
      rw [if_neg h1, if_neg h2]
    -- the header is accepted; `make` panics when the payload is read
    refine crashes_step hstep ⟨_, .makesliceLenOutOfRange, .refl _, ?_⟩
    have hmk : makePanics 1 (n + 2).toInt := by
      have hlt := Int64.toInt_lt n
      have he : (2 : Int64).toInt = 2 := by decide
      have hma : (maxAlloc : Int) = 281474976710656 := by decide
      rw [makePanics, Int64.toInt_add, he, Int.bmod_def]
      omega
    rw [parseStep, readLine, if_pos ⟨rfl, h0⟩, if_pos hmk]

/-- A hostile line anywhere ahead crashes the parser. -/
theorem readsLine_crashes {s m : Bytes} (h : ReadsLine s m) (hh : Hostile m) :
    ∀ {st : ReadState}, StateOk st → st.multiLine = false → Crashes ⟨st, s⟩ := by
  induction h with
  | here hr => intro st _ hm; exact hostile_crashes hm hr hh
  | @line s msg rest m hr hb _ ih =>
    intro st hst hm
    by_cases hmsg : Hostile msg
    · exact hostile_crashes hm hr hmsg
    · obtain ⟨emit, st', heq, hok, -, hline, -⟩ := (parseStep_outcome hst hm hr hmsg).next
      exact crashes_step heq (ih hh hok (hline hb))
  | @bulk s msg rest n m hr hb hrest ih =>
    intro st hst hm
    by_cases hmsg : Hostile msg
    · exact hostile_crashes hm hr hmsg
    · obtain ⟨emit, st', heq, hok, hbulk, -, -⟩ := (parseStep_outcome hst hm hr hmsg).next
      obtain ⟨hm', hlen⟩ := hbulk n hb
      refine crashes_step heq ?_
      have hne : rest ≠ [] := by
        intro hnil
        rw [hnil, List.drop_nil] at hrest
        cases hrest with
        | here h => exact nomatch h
        | line h => exact nomatch h
        | bulk h => exact nomatch h
      obtain ⟨emit', st'', heq', hok', hm'', -⟩ := parseStep_payload_outcome hok hm' hne
      rw [hlen] at heq'
      exact crashes_step heq' (ih hh hok' hm'')

/-! ## The theorem -/

/-- **Exactly the hostile lines crash the parser.** -/
theorem parse_safe_iff (input : Bytes) :
    ParserSafe input ↔ ∀ msg, ReadsLine input msg → ¬ Hostile msg := by
  constructor
  · rintro ⟨-, hsafe⟩ msg hread hh
    obtain ⟨c, p, hr, hp⟩ := readsLine_crashes hread hh stateOk_init rfl
    exact (hsafe c hr).1 p hp
  · intro h
    have hclean : Clean ⟨{}, input⟩ := by
      refine ⟨stateOk_init, ?_⟩
      intro m hp
      rw [PendingLine, if_neg (by simp)] at hp
      exact h m hp
    refine ⟨parseLoop_clean hclean (by simp), ?_⟩
    intro c hr
    rcases stepsClean (reaches_clean hclean hr) with ⟨hd, hbad⟩ | ⟨emit, c', hs, -, -, hbad⟩
    · rw [hd]
      exact ⟨(fun p hp => nomatch hp), fun hm => absurd hm hbad⟩
    · rw [hs]
      refine ⟨(fun p hp => nomatch hp), ?_⟩
      intro hm
      obtain ⟨e, he, rfl⟩ := hbad hm
      exact ⟨e, c', he, rfl⟩

/-- The one-byte stream LF kills the server. -/
theorem parse_bareLF_unsafe :
    ¬ ParserSafe [10] ∧ (parse [10]).2 = .panicked .indexOutOfRange := by
  have h : (parse [10]).2 = .panicked .indexOutOfRange := by decide
  refine ⟨?_, h⟩
  rintro ⟨hclosed, -⟩
  rw [h] at hclosed
  exact nomatch hclosed

end TinyRespSafety
