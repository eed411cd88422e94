import TinyRedis.RespDataProofs

/-! # The RESP stream parser

    `parse` is a loop over `readLine` with a five-field state.  It runs in its
    own goroutine, outside the handler's `recover`, so a run-time panic in any
    of its steps ends the process.  This file embeds the loop with every index,
    slice and `make` expression checked as the Go runtime checks it, and gives
    the equations the later files run it by: what one CRLF line does
    (`parseStep_line`), what one bulk payload does (`parseStep_payload`), and
    that every iteration consumes input (`parseStep_consumes`). -/

namespace TinyRespStream

open GoString GoStrconv TinyResp

/-! ## The Go runtime: slices, indices, allocation -/

/-- The run-time panics a parser step could raise. -/
inductive Panic where
  | indexOutOfRange
  | sliceBoundsOutOfRange
  | makesliceLenOutOfRange
  | nilPointerDereference
deriving DecidableEq, Repr

/-- `maxAlloc` of a 64-bit Go runtime: the address space of an allocation. -/
def maxAlloc : Nat := 2 ^ 48

/-- The size of an interface value, the element type of `[]RedisData`. -/
def interfaceSize : Nat := 16

/-- `make` panics on a negative length and on a size above `maxAlloc`. -/
def makePanics (elemSize : Nat) (len : Int) : Prop := len < 0 ∨ maxAlloc < elemSize * len

instance (elemSize : Nat) (len : Int) : Decidable (makePanics elemSize len) :=
  inferInstanceAs (Decidable (_ ∨ _))

/-- `s[i]`; `none` is an index panic. -/
def index (s : Bytes) (i : Int) : Option UInt8 := if 0 ≤ i then s[i.toNat]? else none

/-- `s[lo:hi]`; `none` is a slice-bounds panic. -/
def slice (s : Bytes) (lo hi : Int) : Option Bytes :=
  if 0 ≤ lo ∧ lo ≤ hi ∧ hi ≤ s.length then some ((s.take hi.toNat).drop lo.toNat) else none

/-! ## The parser -/

/-- The errors that `parse` emits. -/
inductive ReadErr where
  | eof
  | unexpectedEOF
  /-- `Protocol error. Stream message %s is invalid.` -/
  | invalidStream (msg : Bytes)
  /-- `Protocol error: ` and the line. -/
  | protocol (msg : Bytes)
  /-- `protocol error: invalid bulk string`. -/
  | shortBulk
  /-- The `*strconv.NumError` of an integer line. -/
  | numError (num : Bytes) (e : NumError)
deriving DecidableEq, Repr

/-- What a fallible parser function does. -/
inductive Res (α : Type) where
  | ok (a : α)
  | err (e : ReadErr)
  | panic (p : Panic)

/-- A `*ParsedRes` sent on the channel. -/
inductive ParsedRes where
  | data (d : RedisData)
  | err (e : ReadErr)

/-- `readState`; the zero value is the initial state. -/
structure ReadState where
  bulkLen : Int64 := 0
  arrayLen : Int := 0
  multiLine : Bool := false
  arrayData : Option (List RedisData) := none
  inArray : Bool := false

/-- `ReadBytes('\n')`: the bytes through the first LF and the rest, or `none`
    at end of input. -/
def readBytes : Bytes → Option (Bytes × Bytes)
  | [] => none
  | c :: s => if c = 10 then some ([c], s) else (readBytes s).map (fun r => (c :: r.1, r.2))

/-- What `readLine` returns: a message, an error, or a panic; with the state
    it leaves and the unread input. -/
inductive LineRes where
  | line (msg : Bytes) (st : ReadState) (rest : Bytes)
  | fail (e : ReadErr) (rest : Bytes)
  | panic (p : Panic)

/-- The end of a bulk payload must be CRLF; the length is taken back first. -/
def checkPayload (msg : Bytes) (st : ReadState) (rest : Bytes) : LineRes :=
  match index msg (msg.length - 1), index msg (msg.length - 2) with
  | some c1, some c2 =>
    if c1 ≠ 10 ∨ c2 ≠ 13 then .fail (.invalidStream msg) rest
    else .line msg { st with bulkLen := 0 } rest
  | _, _ => .panic .indexOutOfRange

/-- The end of a normal line must be CRLF. -/
def checkLine (msg : Bytes) (st : ReadState) (rest : Bytes) : LineRes :=
  if msg.length = 0 then .fail (.invalidStream msg) rest
  else match index msg (msg.length - 2) with
  | none => .panic .indexOutOfRange
  | some c => if c ≠ 13 then .fail (.invalidStream msg) rest else .line msg st rest

/-- `readLine`: a payload of `bulkLen+2` bytes, an `int64` sum that may wrap,
    or a normal line. -/
def readLine (st : ReadState) (input : Bytes) : LineRes :=
  if st.multiLine ∧ 0 ≤ st.bulkLen then
    if makePanics 1 (st.bulkLen + 2).toInt then .panic .makesliceLenOutOfRange
    else if (input.length : Int) < (st.bulkLen + 2).toInt then
      -- io.ReadFull
      .fail (if input = [] then .eof else .unexpectedEOF) []
    else
      checkPayload (input.take (st.bulkLen + 2).toInt.toNat) st
        (input.drop (st.bulkLen + 2).toInt.toNat)
  else
    match readBytes input with
    | none => .fail .eof []
    | some (msg, rest) => checkLine msg st rest

/-- `parseSingleLine`. -/
def parseSingleLine (msg : Bytes) : Res RedisData :=
  match index msg 0, slice msg 1 (msg.length - 2) with
  | none, _ => .panic .indexOutOfRange
  | some _, none => .panic .sliceBoundsOutOfRange
  | some msgType, some msgData =>
    if msgType = 43 then .ok (.stringData msgData)
    else if msgType = 45 then .ok (.errorData msgData)
    else if msgType = 58 then
      match parseInt msgData with
      | .error e => .err (.numError msgData e)
      | .ok data => .ok (.intData data)
    else .ok (.plainData msgData)

/-- `parseArrayHeader`. -/
def parseArrayHeader (msg : Bytes) (st : ReadState) : Res ReadState :=
  match slice msg 1 (msg.length - 2) with
  | none => .panic .sliceBoundsOutOfRange
  | some num =>
    match atoi num with
    | .error _ => .err (.protocol msg)
    | .ok arrayLen =>
      if arrayLen < -1 then .err (.protocol msg)
      else if 0 < arrayLen ∧ makePanics interfaceSize arrayLen then
        .panic .makesliceLenOutOfRange
      else .ok { st with arrayLen := arrayLen, inArray := true, arrayData := some [] }

/-- `parseBulkHeader`. -/
def parseBulkHeader (msg : Bytes) (st : ReadState) : Res ReadState :=
  match slice msg 1 (msg.length - 2) with
  | none => .panic .sliceBoundsOutOfRange
  | some num =>
    match parseInt num with
    | .error _ => .err (.protocol msg)
    | .ok bulkLen =>
      if bulkLen < -1 then .err (.protocol msg)
      else .ok { st with bulkLen := bulkLen, multiLine := true }

/-- `parseMultiLine`. -/
def parseMultiLine (msg : Bytes) : Res RedisData :=
  if msg.length < 2 then .err .shortBulk
  else match slice msg 0 (msg.length - 2) with
  | none => .panic .sliceBoundsOutOfRange
  | some d => .ok (.bulkData (some d))

/-- The parser between two iterations of its loop. -/
structure Config where
  state : ReadState
  input : Bytes

/-- One iteration of the loop of `parse`. -/
inductive StepRes where
  | next (emit : Option ParsedRes) (c : Config)
  /-- The EOF result, after which the channel is closed. -/
  | done (emit : ParsedRes)
  | panic (p : Panic)

/-- Hand a complete element to the array under construction, or to the
    channel. -/
def deliver (d : RedisData) (st : ReadState) (rest : Bytes) : StepRes :=
  if st.inArray then
    match st.arrayData with
    | none => .panic .nilPointerDereference
    | some xs =>
      if ((xs ++ [d]).length : Int) = st.arrayLen then
        .next (some (.data (.arrayData (xs ++ [d])))) ⟨{}, rest⟩
      else .next none ⟨{ st with arrayData := some (xs ++ [d]) }, rest⟩
  else .next (some (.data d)) ⟨st, rest⟩

/-- The tail of the loop body: an error is emitted and resets the state. -/
def finish (r : Res RedisData) (st : ReadState) (rest : Bytes) : StepRes :=
  match r with
  | .panic p => .panic p
  | .err e => .next (some (.err e)) ⟨{}, rest⟩
  | .ok d => deliver d st rest

/-- The loop body on an array header. -/
def arrayLine (msg : Bytes) (st : ReadState) (rest : Bytes) : StepRes :=
  match parseArrayHeader msg st with
  | .panic p => .panic p
  | .err e => .next (some (.err e)) ⟨{}, rest⟩
  | .ok st' =>
    if st'.arrayLen = -1 then .next (some (.data .nullArray)) ⟨{}, rest⟩
    else if st'.arrayLen = 0 then .next (some (.data (.arrayData []))) ⟨{}, rest⟩
    else .next none ⟨st', rest⟩

/-- The loop body on a bulk header; the null bulk is complete at once. -/
def bulkLine (msg : Bytes) (st : ReadState) (rest : Bytes) : StepRes :=
  match parseBulkHeader msg st with
  | .panic p => .panic p
  | .err e => .next (some (.err e)) ⟨{}, rest⟩
  | .ok st' =>
    if st'.bulkLen = -1 then
      deliver .nullBulk { st' with multiLine := false, bulkLen := 0 } rest
    else .next none ⟨st', rest⟩

/-- The loop body after `readLine` has returned a message. -/
def messageStep (msg : Bytes) (st : ReadState) (rest : Bytes) : StepRes :=
  if st.multiLine then
    finish (parseMultiLine msg) { st with multiLine := false, bulkLen := 0 } rest
  else match index msg 0 with
    | none => .panic .indexOutOfRange
    | some c =>
      if c = 42 then arrayLine msg st rest
      else if c = 36 then bulkLine msg st rest
      else finish (parseSingleLine msg) st rest

/-- The body of the loop of `parse`. -/
def parseStep (c : Config) : StepRes :=
  match readLine c.state c.input with
  | .panic p => .panic p
  | .fail .eof _ => .done (.err .eof)
  | .fail e rest => .next (some (.err e)) ⟨{}, rest⟩
  | .line msg st rest => messageStep msg st rest

/-- How the parser goroutine ends. -/
inductive Ending where
  | closed
  | panicked (p : Panic)
  | outOfFuel
deriving DecidableEq, Repr

/-- The loop of `parse`, with fuel. -/
def parseLoop : Nat → Config → List ParsedRes × Ending
  | 0, _ => ([], .outOfFuel)
  | n + 1, c =>
    match parseStep c with
    | .panic p => ([], .panicked p)
    | .done e => ([e], .closed)
    | .next emit c' => (emit.toList ++ (parseLoop n c').1, (parseLoop n c').2)

/-- `parse` on a finite stream: what it sends on the channel, and how it ends.
    Every iteration that goes on consumes input, so this fuel is enough
    (`parseLoop_ends`). -/
def parse (input : Bytes) : List ParsedRes × Ending :=
  parseLoop (input.length + 1) ⟨{}, input⟩

/-! ## Reading lines -/

/-- `ReadBytes` cuts the input behind its first LF. -/
theorem readBytes_spec {s msg rest : Bytes} (h : readBytes s = some (msg, rest)) :
    s = msg ++ rest ∧ ∃ body, msg = body ++ [10] ∧ (10 : UInt8) ∉ body := by
  induction s generalizing msg with
  | nil => exact nomatch h
  | cons c s ih =>
    rw [readBytes] at h
    by_cases hc : c = 10
    · rw [if_pos hc] at h
      obtain ⟨rfl, rfl⟩ := Prod.mk.inj (Option.some.inj h)
      exact ⟨rfl, [], by rw [hc]; rfl, by simp⟩
    · rw [if_neg hc] at h
      obtain ⟨⟨m, r⟩, hr, heq⟩ := Option.map_eq_some_iff.mp h
      obtain ⟨rfl, rfl⟩ := Prod.mk.inj heq
      obtain ⟨h1, body, h2, h3⟩ := ih hr
      refine ⟨by rw [h1]; rfl, c :: body, by rw [h2]; rfl, ?_⟩
      intro hmem
      rcases List.mem_cons.mp hmem with h10 | hin
      · exact hc h10.symm
      · exact h3 hin

/-- A body without LF, then LF, reads as one line. -/
theorem readBytes_body {body : Bytes} (h : (10 : UInt8) ∉ body) (rest : Bytes) :
    readBytes (body ++ 10 :: rest) = some (body ++ [10], rest) := by
  induction body with
  | nil => rfl
  | cons c body ih =>
    have hc : c ≠ 10 := fun hc => h (by simp [hc])
    rw [List.cons_append, readBytes, if_neg hc, ih (fun hb => h (by simp [hb]))]
    rfl

/-- A CRLF line of the stream: its type byte, its text, and the rest. -/
theorem readBytes_crlf {t : UInt8} {num : Bytes} (ht : t ≠ 10) (hnum : (10 : UInt8) ∉ num)
    (rest : Bytes) :
    readBytes (t :: num ++ crlf ++ rest) = some (t :: num ++ crlf, rest) := by
  have hbody : (10 : UInt8) ∉ t :: num ++ [13] := by
    simp only [List.mem_append, List.mem_cons, List.not_mem_nil, or_false, not_or]
    exact ⟨⟨ht.symm, hnum⟩, by decide⟩
  have h := readBytes_body hbody rest
  simpa [crlf] using h

/-- The byte before the last one. -/
theorem index_sub_two (s : Bytes) (c d : UInt8) :
    index (s ++ [c, d]) ((s ++ [c, d]).length - 2) = some c := by
  have hi : (((s ++ [c, d]).length : Nat) : Int) - 2 = (s.length : Int) := by
    simp
  rw [hi, index, if_pos (by omega)]
  simp

/-- The last byte. -/
theorem index_sub_one (s : Bytes) (c d : UInt8) :
    index (s ++ [c, d]) ((s ++ [c, d]).length - 1) = some d := by
  have hi : (((s ++ [c, d]).length : Nat) : Int) - 1 = ((s.length + 1 : Nat) : Int) := by
    simp
    omega
  rw [hi, index, if_pos (by omega)]
  simp

/-- The text of a CRLF line, without its type byte. -/
theorem slice_text (t : UInt8) (num : Bytes) :
    slice (t :: num ++ crlf) 1 ((t :: num ++ crlf).length - 2) = some num := by
  have hi : (((t :: num ++ crlf).length : Nat) : Int) - 2 = ((num.length + 1 : Nat) : Int) := by
    simp [crlf]
    omega
  rw [hi, slice, if_pos (by simp [crlf])]
  simp

/-- `readLine` outside a bulk payload, on a CRLF line. -/
theorem readLine_crlf {st : ReadState} (hm : st.multiLine = false) {t : UInt8} {num : Bytes}
    (ht : t ≠ 10) (hnum : (10 : UInt8) ∉ num) (rest : Bytes) :
    readLine st (t :: num ++ crlf ++ rest) = .line (t :: num ++ crlf) st rest := by
  have hi : index (t :: num ++ crlf) ((t :: num ++ crlf).length - 2) = some 13 :=
    index_sub_two (t :: num) 13 10
  rw [readLine, if_neg (by simp [hm]), readBytes_crlf ht hnum]
  show checkLine (t :: num ++ crlf) st rest = _
  rw [checkLine, if_neg (by simp), hi]
  rfl

/-- **One CRLF line**: the loop body dispatches on its type byte. -/
theorem parseStep_line {st : ReadState} (hm : st.multiLine = false) {t : UInt8} {num : Bytes}
    (ht : t ≠ 10) (hnum : (10 : UInt8) ∉ num) (rest : Bytes) :
    parseStep ⟨st, t :: num ++ crlf ++ rest⟩
      = if t = 42 then arrayLine (t :: num ++ crlf) st rest
        else if t = 36 then bulkLine (t :: num ++ crlf) st rest
        else finish (parseSingleLine (t :: num ++ crlf)) st rest := by
  rw [parseStep, readLine_crlf hm ht hnum]
  show messageStep (t :: num ++ crlf) st rest = _
  rw [messageStep, if_neg (by simp [hm])]
  rfl

/-! ## The three kinds of line -/

/-- An array header, by the number it announces. -/
theorem arrayLine_eq (num : Bytes) (st : ReadState) (rest : Bytes) :
    arrayLine (42 :: num ++ crlf) st rest =
      match atoi num with
      | .error _ => .next (some (.err (.protocol (42 :: num ++ crlf)))) ⟨{}, rest⟩
      | .ok n =>
        if n < -1 then .next (some (.err (.protocol (42 :: num ++ crlf)))) ⟨{}, rest⟩
        else if 0 < n ∧ makePanics interfaceSize n then .panic .makesliceLenOutOfRange
        else if n = -1 then .next (some (.data .nullArray)) ⟨{}, rest⟩
        else if n = 0 then .next (some (.data (.arrayData []))) ⟨{}, rest⟩
        else .next none
          ⟨{ st with arrayLen := n, inArray := true, arrayData := some [] }, rest⟩ := by
  simp only [arrayLine, parseArrayHeader, slice_text]
  cases atoi num with
  | error e => rfl
  | ok n =>
    by_cases h1 : n < -1
    · simp only [if_pos h1]
    · by_cases h2 : 0 < n ∧ makePanics interfaceSize n
      · simp only [if_neg h1, if_pos h2]
      · simp only [if_neg h1, if_neg h2]

/-- A bulk header, by the number it announces. -/
theorem bulkLine_eq (num : Bytes) (st : ReadState) (rest : Bytes) :
    bulkLine (36 :: num ++ crlf) st rest =
      match parseInt num with
      | .error _ => .next (some (.err (.protocol (36 :: num ++ crlf)))) ⟨{}, rest⟩
      | .ok n =>
        if n < -1 then .next (some (.err (.protocol (36 :: num ++ crlf)))) ⟨{}, rest⟩
        else if n = -1 then
          deliver .nullBulk { st with multiLine := false, bulkLen := 0 } rest
        else .next none ⟨{ st with bulkLen := n, multiLine := true }, rest⟩ := by
  simp only [bulkLine, parseBulkHeader, slice_text]
  cases parseInt num with
  | error e => rfl
  | ok n =>
    by_cases h1 : n < -1
    · simp only [if_pos h1]
    · simp only [if_neg h1]

/-- Any other CRLF line, by its type byte. -/
theorem parseSingleLine_eq (t : UInt8) (num : Bytes) :
    parseSingleLine (t :: num ++ crlf) =
      if t = 43 then .ok (.stringData num)
      else if t = 45 then .ok (.errorData num)
      else if t = 58 then
        match parseInt num with
        | .error e => .err (.numError num e)
        | .ok data => .ok (.intData data)
      else .ok (.plainData num) := by
  rw [parseSingleLine, slice_text]
  rfl

/-! ## Reading payloads -/

/-- `bulkLen + 2` does not wrap while it stays below `maxAlloc`. -/
theorem toInt_add_two {n : Int64} (h0 : 0 ≤ n) (h : n.toInt + 2 ≤ maxAlloc) :
    (n + 2).toInt = n.toInt + 2 := by
  have h0' : 0 ≤ n.toInt := by simpa [Int64.le_iff_toInt_le] using h0
  have hmax : (maxAlloc : Int) = 281474976710656 := by decide
  have h2 : (2 : Int64).toInt = 2 := by decide
  rw [Int64.toInt_add, h2, Int.bmod_def]
  omega

/-- A payload as long as announced and closed by CRLF is one bulk. -/
theorem parseStep_payload {st : ReadState} (hm : st.multiLine = true) (h0 : 0 ≤ st.bulkLen)
    (hmax : st.bulkLen.toInt + 2 ≤ maxAlloc) {d : Bytes} (hd : (d.length : Int) = st.bulkLen.toInt)
    (rest : Bytes) :
    parseStep ⟨st, d ++ crlf ++ rest⟩
      = deliver (.bulkData (some d)) { st with multiLine := false, bulkLen := 0 } rest := by
  have hn := toInt_add_two h0 hmax
  have hlen : ((d ++ crlf).length : Int) = st.bulkLen.toInt + 2 := by simp [crlf, ← hd]
  have htn : (st.bulkLen.toInt + 2).toNat = (d ++ crlf).length := by omega
  have hread : readLine st (d ++ crlf ++ rest)
      = .line (d ++ crlf) { st with bulkLen := 0 } rest := by
    rw [readLine, if_pos ⟨hm, h0⟩, hn]
    have hmk : ¬ makePanics 1 (st.bulkLen.toInt + 2) := by
      rw [makePanics]
      omega
    have hnl : ¬ ((d ++ crlf ++ rest).length : Int) < st.bulkLen.toInt + 2 := by
      have hsum : (d ++ crlf ++ rest).length = (d ++ crlf).length + rest.length :=
        List.length_append
      omega
    rw [if_neg hmk, if_neg hnl, htn, List.take_left, List.drop_left, checkPayload]
    have hi1 : index (d ++ crlf) ((d ++ crlf).length - 1) = some 10 := index_sub_one d 13 10
    have hi2 : index (d ++ crlf) ((d ++ crlf).length - 2) = some 13 := index_sub_two d 13 10
    rw [hi1, hi2]
    rfl
  have hml : parseMultiLine (d ++ crlf) = .ok (.bulkData (some d)) := by
    have hs : slice (d ++ crlf) 0 ((d ++ crlf).length - 2) = some d := by
      have hi : (((d ++ crlf).length : Nat) : Int) - 2 = (d.length : Int) := by
        simp [crlf]
      rw [hi, slice, if_pos (by simp)]
      simp
    rw [parseMultiLine, if_neg (by simp [crlf]), hs]
  rw [parseStep, hread]
  show messageStep (d ++ crlf) { st with bulkLen := 0 } rest = _
  rw [messageStep, if_pos hm, hml]
  rfl

/-! ## Progress -/

/-- A step that goes on leaves `rest` unread. -/
def StepRes.Leaves (rest : Bytes) : StepRes → Prop
  | .next _ c => c.input = rest
  | _ => True

/-- A read that returns leaves `rest` unread. -/
def LineRes.Leaves (rest : Bytes) : LineRes → Prop
  | .line _ _ r => r = rest
  | .fail _ r => r = rest
  | .panic _ => True

theorem deliver_leaves (d : RedisData) (st : ReadState) (rest : Bytes) :
    (deliver d st rest).Leaves rest := by
  rw [deliver]
  repeat' split
  all_goals first
    | rfl
    | trivial

theorem finish_leaves (r : Res RedisData) (st : ReadState) (rest : Bytes) :
    (finish r st rest).Leaves rest := by
  cases r with
  | ok d => exact deliver_leaves d st rest
  | err e => rfl
  | panic p => trivial

theorem arrayLine_leaves (msg : Bytes) (st : ReadState) (rest : Bytes) :
    (arrayLine msg st rest).Leaves rest := by
  rw [arrayLine]
  repeat' split
  all_goals first
    | rfl
    | trivial

theorem bulkLine_leaves (msg : Bytes) (st : ReadState) (rest : Bytes) :
    (bulkLine msg st rest).Leaves rest := by
  rw [bulkLine]
  repeat' split
  all_goals first
    | rfl
    | trivial
    | exact deliver_leaves _ _ rest

theorem messageStep_leaves (msg : Bytes) (st : ReadState) (rest : Bytes) :
    (messageStep msg st rest).Leaves rest := by
  rw [messageStep]
  repeat' split
  · exact finish_leaves _ _ rest
  · trivial
  · exact arrayLine_leaves msg st rest
  · exact bulkLine_leaves msg st rest
  · exact finish_leaves _ st rest

theorem checkPayload_leaves (msg : Bytes) (st : ReadState) (rest : Bytes) :
    (checkPayload msg st rest).Leaves rest := by
  rw [checkPayload]
  repeat' split
  all_goals first
    | rfl
    | trivial

theorem checkLine_leaves (msg : Bytes) (st : ReadState) (rest : Bytes) :
    (checkLine msg st rest).Leaves rest := by
  rw [checkLine]
  repeat' split
  all_goals first
    | rfl
    | trivial

/-- `readLine` panics, reports EOF, or leaves less than it was given. -/
theorem readLine_consumes (st : ReadState) (input : Bytes) :
    (∃ p, readLine st input = .panic p) ∨ (∃ rest, readLine st input = .fail .eof rest)
      ∨ ∃ rest, rest.length < input.length ∧ (readLine st input).Leaves rest := by
  rw [readLine]
  by_cases hmode : st.multiLine ∧ 0 ≤ st.bulkLen
  · rw [if_pos hmode]
    by_cases hmk : makePanics 1 (st.bulkLen + 2).toInt
    · exact Or.inl ⟨_, if_pos hmk⟩
    · rw [if_neg hmk]
      by_cases hlt : (input.length : Int) < (st.bulkLen + 2).toInt
      · rw [if_pos hlt]
        by_cases hnil : input = []
        · rw [if_pos hnil]
          exact Or.inr (Or.inl ⟨[], rfl⟩)
        · rw [if_neg hnil]
          exact Or.inr (Or.inr ⟨[], List.length_pos_iff.mpr hnil, rfl⟩)
      · rw [if_neg hlt]
        have h0 : 0 ≤ st.bulkLen.toInt := by simpa [Int64.le_iff_toInt_le] using hmode.2
        have h2 : (2 : Int64).toInt = 2 := by decide
        have hpos : 0 < (st.bulkLen + 2).toInt := by
          -- a wrapped sum is negative, and `make` has refused it
          have hlt63 := Int64.toInt_lt st.bulkLen
          rw [makePanics, Int64.toInt_add, h2, Int.bmod_def] at hmk
          rw [Int64.toInt_add, h2, Int.bmod_def]
          omega
        refine Or.inr (Or.inr ⟨_, ?_, checkPayload_leaves _ st _⟩)
        rw [List.length_drop]
        omega
  · rw [if_neg hmode]
    cases hr : readBytes input with
    | none => exact Or.inr (Or.inl ⟨[], rfl⟩)
    | some p =>
      obtain ⟨msg, rest⟩ := p
      obtain ⟨hs, body, hb, -⟩ := readBytes_spec hr
      refine Or.inr (Or.inr ⟨rest, ?_, checkLine_leaves msg st rest⟩)
      rw [hs, hb]
      simp
      omega

/-- **Every iteration that goes on consumes input.** -/
theorem parseStep_consumes {c c' : Config} {emit : Option ParsedRes}
    (h : parseStep c = .next emit c') : c'.input.length < c.input.length := by
  rw [parseStep] at h
  rcases readLine_consumes c.state c.input with ⟨p, hp⟩ | ⟨rest, he⟩ | ⟨rest, hlt, hl⟩
  · rw [hp] at h
    exact nomatch h
  · rw [he] at h
    exact nomatch h
  · have hin : c'.input = rest := by
      cases hr : readLine c.state c.input with
      | panic p => rw [hr] at h; exact nomatch h
      | line msg st r =>
        rw [hr] at h hl
        have hm := messageStep_leaves msg st r
        rw [show messageStep msg st r = .next emit c' from h] at hm
        exact hm.trans hl
      | fail e r =>
        rw [hr] at h hl
        by_cases he : e = .eof
        · subst he
          exact nomatch h
        · have hnext : StepRes.next (some (.err e)) ⟨{}, r⟩ = .next emit c' := by
            rw [← h]
            cases e with
            | eof => exact absurd rfl he
            | _ => rfl
          obtain ⟨-, rfl⟩ := StepRes.next.inj hnext
          exact hl
    rw [hin]
    exact hlt

/-- **The loop ends** on every finite stream. -/
theorem parseLoop_ends {n : Nat} : ∀ {c : Config}, c.input.length < n →
    (parseLoop n c).2 ≠ .outOfFuel := by
  induction n with
  | zero => intro c h; omega
  | succ n ih =>
    intro c h
    rw [parseLoop]
    cases hs : parseStep c with
    | panic p => exact fun h => nomatch h
    | done e => exact fun h => nomatch h
    | next emit c' =>
      have hlt := parseStep_consumes hs
      exact ih (by omega)

/-- More fuel changes nothing once the loop has ended. -/
theorem parseLoop_stable {n : Nat} : ∀ {c : Config}, (parseLoop n c).2 ≠ .outOfFuel →
    ∀ m, parseLoop (n + m) c = parseLoop n c := by
  induction n with
  | zero => intro c h; exact absurd rfl h
  | succ n ih =>
    intro c h m
    rw [Nat.add_right_comm, parseLoop, parseLoop]
    rw [parseLoop] at h
    cases hs : parseStep c with
    | panic p => rfl
    | done e => rfl
    | next emit c' =>
      rw [hs] at h
      show (emit.toList ++ (parseLoop (n + m) c').1, (parseLoop (n + m) c').2)
        = (emit.toList ++ (parseLoop n c').1, (parseLoop n c').2)
      rw [ih h m]

end TinyRespStream
