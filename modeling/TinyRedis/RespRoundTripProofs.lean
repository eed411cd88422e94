import TinyRedis.RespStreamProofs

/-! # Decode undoes encode on flat RESP, pipelined

    `ToBytes` writes a value, `parse` reads a stream of them.  On flat RESP
    (scalars, the null array, arrays of scalars) the two are inverse, whatever
    bytes the payloads hold and however many values follow one another: the
    parser emits exactly the values that were written and then EOF
    (`parse_toBytesAll`), and the command codec of the Raft log is the identity
    (`decode_encode`).

    The induction is over the stream.  Its invariant is that between two values
    the five-field state is the initial one, and that inside an array it holds
    exactly the elements read so far. -/

namespace TinyRespRoundTrip

open GoString GoStrconv TinyResp TinyRespStream

/-! ## Runs of the loop -/

/-- `Emits c out c'`: the loop goes from `c` to `c'`, sending `out`. -/
inductive Emits : Config → List ParsedRes → Config → Prop where
  | refl (c) : Emits c [] c
  | step {c emit c' out c''} : parseStep c = .next emit c' → Emits c' out c'' →
      Emits c (emit.toList ++ out) c''

theorem Emits.one {c c' : Config} {emit : Option ParsedRes} (h : parseStep c = .next emit c') :
    Emits c emit.toList c' := by
  have h1 := Emits.step h (.refl c')
  rwa [List.append_nil] at h1

theorem Emits.trans {c c' c'' : Config} {out out' : List ParsedRes} (h : Emits c out c')
    (h' : Emits c' out' c'') : Emits c (out ++ out') c'' := by
  induction h with
  | refl => exact h'
  | step hs _ ih =>
    rw [List.append_assoc]
    exact .step hs (ih h')

/-- A silent step before a run. -/
theorem Emits.silent {c c' c'' : Config} {out : List ParsedRes} (h : parseStep c = .next none c')
    (h' : Emits c' out c'') : Emits c out c'' :=
  .step h h'

/-- `parseLoop` follows a run; `k` counts the iterations it takes. -/
theorem parseLoop_emits {c c' : Config} {out : List ParsedRes} (h : Emits c out c') :
    ∃ k, ∀ n, parseLoop (n + k) c = (out ++ (parseLoop n c').1, (parseLoop n c').2) := by
  induction h with
  | refl c => exact ⟨0, fun n => rfl⟩
  | @step c emit c' out c'' hs _ ih =>
    obtain ⟨k, hk⟩ := ih
    refine ⟨k + 1, ?_⟩
    intro n
    rw [← Nat.add_assoc, parseLoop, hs]
    show (emit.toList ++ (parseLoop (n + k) c').1, (parseLoop (n + k) c').2) = _
    rw [hk n, List.append_assoc]

/-! ## One scalar -/

/-- A value that a Go process can hold.  `make` and `append` serve no slice
    above `maxAlloc`, so neither the encoding nor the element slice of an
    existing value is longer. -/
def Allocatable (d : RedisData) : Prop :=
  (toBytes d).length ≤ maxAlloc ∧
    ∀ xs, d = .arrayData xs → interfaceSize * xs.length ≤ maxAlloc

/-- The decimal text of a length that fits an `int64`. -/
theorem parseInt_length {n : Nat} (h : n < 2 ^ 63) :
    parseInt (itoa n) = .ok (Int64.ofInt n) :=
  parseInt_itoa (by omega) (by omega)

theorem toInt_length {n : Nat} (h : n < 2 ^ 63) : (Int64.ofInt n).toInt = n :=
  Int64.toInt_ofInt_of_le (by omega) (by omega)

theorem lf_not_mem_itoa (i : Int) : (10 : UInt8) ∉ itoa i :=
  fun h => (itoa_not_crlf i h).1 rfl

/-- The state in which a value may start: no payload pending. -/
structure Ready (st : ReadState) : Prop where
  line : st.multiLine = false
  noLen : st.bulkLen = 0

theorem Ready.reset {st : ReadState} (h : Ready st) :
    { st with multiLine := false, bulkLen := 0 } = st := by
  obtain ⟨bulkLen, arrayLen, multiLine, arrayData, inArray⟩ := st
  obtain ⟨hm, hb⟩ := h
  subst hm
  subst hb
  rfl

/-- A bulk header for a payload of `n` bytes puts the parser in payload mode. -/
theorem parseStep_bulkHeader {st : ReadState} (hst : Ready st) {n : Nat} (hn : n < 2 ^ 63)
    (rest : Bytes) :
    parseStep ⟨st, 36 :: itoa n ++ crlf ++ rest⟩
      = .next none ⟨{ st with bulkLen := Int64.ofInt n, multiLine := true }, rest⟩ := by
  have hv := toInt_length hn
  have e1 : (-1 : Int64).toInt = -1 := by decide
  rw [parseStep_line hst.line (by decide) (lf_not_mem_itoa n), if_neg (by decide), if_pos rfl,
    bulkLine_eq, parseInt_length hn]
  show (if Int64.ofInt n < -1 then _ else _) = _
  rw [if_neg (by rw [Int64.lt_iff_toInt_lt]; omega),
    if_neg (by intro h; rw [h] at hv; omega)]

/-- **One scalar**: the parser reads back the value and hands it on. -/
theorem scalar_emits {d : RedisData} (hd : Scalar d) (ha : (toBytes d).length ≤ maxAlloc)
    {st : ReadState} (hst : Ready st) {rest : Bytes} {emit : Option ParsedRes} {c : Config}
    (hdel : deliver d st rest = .next emit c) :
    Emits ⟨st, toBytes d ++ rest⟩ emit.toList c := by
  have hmax : maxAlloc = 281474976710656 := by decide
  cases hd with
  | bulk b =>
    cases b with
    | none =>
      refine .one ?_
      have hb : toBytes (.bulkData none) ++ rest = 36 :: itoa (-1) ++ crlf ++ rest := rfl
      rw [hb, parseStep_line hst.line (by decide) (lf_not_mem_itoa (-1)),
        if_neg (by decide), if_pos rfl, bulkLine_eq]
      have hp : parseInt (itoa (-1)) = .ok (-1) := parseInt_itoa (by decide) (by decide)
      rw [hp]
      show (if (-1 : Int64) < -1 then _ else _) = _
      rw [if_neg (by decide), if_pos rfl, hst.reset]
      exact hdel
    | some b =>
      have hlen : b.length + 2 ≤ maxAlloc := by
        simp [toBytes, crlf] at ha
        omega
      have hb : toBytes (.bulkData (some b)) ++ rest
          = 36 :: itoa b.length ++ crlf ++ (b ++ crlf ++ rest) := by
        simp [toBytes]
      have hv := toInt_length (n := b.length) (by omega)
      rw [hb]
      refine .silent (parseStep_bulkHeader hst (by omega) _) (.one ?_)
      rw [parseStep_payload rfl ?_ ?_ hv.symm rest]
      · show deliver _ { st with bulkLen := 0, multiLine := false } rest = _
        rw [show { st with bulkLen := 0, multiLine := false } = st from hst.reset]
        exact hdel
      · show 0 ≤ Int64.ofInt b.length
        rw [Int64.le_iff_toInt_le, hv]
        exact Int.natCast_nonneg _
      · show (Int64.ofInt b.length).toInt + 2 ≤ maxAlloc
        omega
  | string s hs =>
    refine .one ?_
    have hb : toBytes (.stringData s) ++ rest = 43 :: s ++ crlf ++ rest := by simp [toBytes]
    rw [hb, parseStep_line hst.line (by decide) hs, if_neg (by decide), if_neg (by decide),
      parseSingleLine_eq, if_pos rfl]
    exact hdel
  | error s hs =>
    refine .one ?_
    have hb : toBytes (.errorData s) ++ rest = 45 :: s ++ crlf ++ rest := by simp [toBytes]
    rw [hb, parseStep_line hst.line (by decide) hs, if_neg (by decide), if_neg (by decide),
      parseSingleLine_eq, if_neg (by decide), if_pos rfl]
    exact hdel
  | int i =>
    refine .one ?_
    have hb : toBytes (.intData i) ++ rest = 58 :: formatInt i ++ crlf ++ rest := by
      simp [toBytes]
    have hlf : (10 : UInt8) ∉ formatInt i := lf_not_mem_itoa i.toInt
    rw [hb, parseStep_line hst.line (by decide) hlf,
      if_neg (by decide), if_neg (by decide), parseSingleLine_eq, if_neg (by decide),
      if_neg (by decide), if_pos rfl, parseInt_formatInt]
    exact hdel

/-! ## One array -/

/-- The state inside an array of `n` elements, `acc` of them read. -/
def inArrayState (n : Nat) (acc : List RedisData) : ReadState :=
  { arrayLen := n, inArray := true, arrayData := some acc }

/-- **The elements of an array**: with `acc` read, the rest completes it. -/
theorem elements_emit {n : Nat} (rest : Bytes) : ∀ {xs acc : List RedisData}, xs ≠ [] →
    acc.length + xs.length = n → (∀ x ∈ xs, Scalar x) →
    (∀ x ∈ xs, (toBytes x).length ≤ maxAlloc) →
    Emits ⟨inArrayState n acc, toBytesAll xs ++ rest⟩ [.data (.arrayData (acc ++ xs))]
      ⟨{}, rest⟩ := by
  intro xs
  induction xs with
  | nil => intro acc h; exact absurd rfl h
  | cons x xs ih =>
    intro acc _ hn hs ha
    have hx := hs x (List.mem_cons_self ..)
    have hax := ha x (List.mem_cons_self ..)
    have hready : Ready (inArrayState n acc) := ⟨rfl, rfl⟩
    rw [toBytesAll, List.append_assoc]
    by_cases hnil : xs = []
    · -- the last element completes the array
      subst hnil
      have hstep : deliver x (inArrayState n acc) rest
          = .next (some (.data (.arrayData (acc ++ [x])))) ⟨{}, rest⟩ := by
        show (if ((acc ++ [x]).length : Int) = n then _ else _) = _
        rw [if_pos (by rw [← hn]; simp)]
      exact scalar_emits hx hax hready hstep
    · have hstep : deliver x (inArrayState n acc) (toBytesAll xs ++ rest)
          = .next none ⟨inArrayState n (acc ++ [x]), toBytesAll xs ++ rest⟩ := by
        have hpos : 0 < xs.length := List.length_pos_iff.mpr hnil
        show (if ((acc ++ [x]).length : Int) = n then _ else _) = _
        rw [if_neg (by rw [← hn]; simp; omega)]
        rfl
      have h1 := scalar_emits hx hax hready hstep
      have hn' : (acc ++ [x]).length + xs.length = n := by
        simp at hn ⊢
        omega
      have h2 := ih hnil hn' (fun y hy => hs y (List.mem_cons_of_mem _ hy))
        (fun y hy => ha y (List.mem_cons_of_mem _ hy))
      rw [List.append_assoc, List.singleton_append] at h2
      exact h1.trans h2

/-- An element is encoded no longer than its array. -/
theorem length_toBytes_le {x : RedisData} {xs : List RedisData} (h : x ∈ xs) :
    (toBytes x).length ≤ (toBytesAll xs).length := by
  induction xs with
  | nil => exact nomatch h
  | cons y ys ih =>
    rw [toBytesAll, List.length_append]
    rcases List.mem_cons.mp h with rfl | hin
    · omega
    · have := ih hin
      omega

/-- An array header for `n` elements, as `arrayLine` reads it. -/
theorem parseStep_arrayHeader (n : Int) (hlo : -1 ≤ n) (hhi : interfaceSize * n ≤ maxAlloc)
    (rest : Bytes) :
    parseStep ⟨{}, 42 :: itoa n ++ crlf ++ rest⟩
      = if n = -1 then .next (some (.data .nullArray)) ⟨{}, rest⟩
        else if n = 0 then .next (some (.data (.arrayData []))) ⟨{}, rest⟩
        else .next none ⟨{ arrayLen := n, inArray := true, arrayData := some [] }, rest⟩ := by
  have hmax : maxAlloc = 281474976710656 := by decide
  have hsize : interfaceSize = 16 := rfl
  rw [hsize, hmax] at hhi
  have hpanic : ¬ (0 < n ∧ makePanics interfaceSize n) := by
    rw [makePanics, hsize, hmax]
    omega
  rw [parseStep_line rfl (by decide) (lf_not_mem_itoa n), if_pos rfl, arrayLine_eq,
    atoi_itoa (by omega) (by omega)]
  show (if n < -1 then _ else _) = _
  rw [if_neg (by omega), if_neg hpanic]

/-- **One flat value**, from the initial state back to it. -/
theorem flat_emits {v : RedisData} (hv : Flat v) (ha : Allocatable v) (rest : Bytes) :
    Emits ⟨{}, toBytes v ++ rest⟩ [.data v] ⟨{}, rest⟩ := by
  obtain ⟨hlen, hsize⟩ := ha
  cases hv with
  | scalar hs =>
    have hdel : deliver v {} rest = .next (some (.data v)) ⟨{}, rest⟩ := rfl
    exact scalar_emits hs hlen ⟨rfl, rfl⟩ hdel
  | nullArray =>
    have hb : toBytes .nullArray ++ rest = 42 :: itoa (-1) ++ crlf ++ rest := rfl
    rw [hb]
    have hhead := parseStep_arrayHeader (-1) (by decide) (by decide) rest
    rw [if_pos rfl] at hhead
    exact .one hhead
  | array xs hxs =>
    have hb : toBytes (.arrayData xs) ++ rest
        = 42 :: itoa xs.length ++ crlf ++ (toBytesAll xs ++ rest) := by simp [toBytes]
    have hx := hsize xs rfl
    have hhead := parseStep_arrayHeader xs.length (by omega) (by exact_mod_cast hx)
      (toBytesAll xs ++ rest)
    rw [hb]
    rw [if_neg (by omega)] at hhead
    by_cases hnil : xs = []
    · subst hnil
      rw [if_pos (by simp)] at hhead
      exact .one hhead
    · have hpos : 0 < xs.length := List.length_pos_iff.mpr hnil
      rw [if_neg (by omega)] at hhead
      have hall : ∀ x ∈ xs, (toBytes x).length ≤ maxAlloc := by
        intro x hxmem
        have h1 := length_toBytes_le hxmem
        simp [toBytes] at hlen
        omega
      have hzero : ([] : List RedisData).length + xs.length = xs.length := by simp
      exact .silent hhead (elements_emit rest hnil hzero hxs hall)

/-! ## The stream -/

/-- A pipeline of flat values emits them in order. -/
theorem flat_stream_emits {vs : List RedisData} (hv : ∀ v ∈ vs, Flat v)
    (ha : ∀ v ∈ vs, Allocatable v) :
    Emits ⟨{}, toBytesAll vs⟩ (vs.map .data) ⟨{}, []⟩ := by
  induction vs with
  | nil => exact .refl _
  | cons v vs ih =>
    have h1 := flat_emits (hv v (List.mem_cons_self ..)) (ha v (List.mem_cons_self ..))
      (toBytesAll vs)
    have h2 := ih (fun w hw => hv w (List.mem_cons_of_mem _ hw))
      (fun w hw => ha w (List.mem_cons_of_mem _ hw))
    exact h1.trans h2

/-- **Decode undoes encode**: the parser emits the values of a pipeline in
    order, then EOF, and closes. -/
theorem parse_toBytesAll {vs : List RedisData} (hv : ∀ v ∈ vs, Flat v)
    (ha : ∀ v ∈ vs, Allocatable v) :
    parse (toBytesAll vs) = (vs.map .data ++ [.err .eof], .closed) := by
  obtain ⟨k, hk⟩ := parseLoop_emits (flat_stream_emits hv ha)
  have hend : parseLoop (1 + k) ⟨{}, toBytesAll vs⟩
      = (vs.map .data ++ [.err .eof], .closed) := hk 1
  have hlen : (parse (toBytesAll vs)).2 ≠ .outOfFuel :=
    parseLoop_ends (Nat.lt_succ_self _)
  have h1 := parseLoop_stable hlen (1 + k)
  have hclosed : (parseLoop (1 + k) ⟨{}, toBytesAll vs⟩).2 ≠ .outOfFuel := by
    rw [hend]
    exact fun h => nomatch h
  have h2 := parseLoop_stable hclosed ((toBytesAll vs).length + 1)
  rw [Nat.add_comm, h1, hend] at h2
  exact h2

/-! ## The command codec of the Raft log -/

/-- The errors of `decodeCommand`; the last is a panic of the parser goroutine
    before its first result, which ends the process. -/
inductive DecodeErr where
  /-- `empty raft log entry` -/
  | emptyEntry
  | read (e : ReadErr)
  /-- `raft log entry is not array` -/
  | notArray
  | crashed (p : Panic)
deriving DecidableEq, Repr

/-- `encodeCommand`. -/
def encodeCommand (cmd : Command) : Bytes := toBytes (.arrayData (cmd.map .bulkData))

/-- `decodeCommand`: the first result of the parser decides. -/
def decodeCommand (data : Bytes) : Except DecodeErr Command :=
  match parse data with
  | ([], .panicked p) => .error (.crashed p)
  | ([], _) => .error .emptyEntry
  | (.err e :: _, _) => .error (.read e)
  | (.data (.arrayData xs) :: _, _) => .ok (toCommand xs)
  | (.data .nullArray :: _, _) => .ok []
  | (.data _ :: _, _) => .error .notArray

/-- A command vector whose log entry a Go process can hold. -/
def AllocatableCommand (cmd : Command) : Prop := Allocatable (.arrayData (cmd.map .bulkData))

theorem allocatableCommand_iff (cmd : Command) :
    AllocatableCommand cmd ↔
      (encodeCommand cmd).length ≤ maxAlloc ∧ interfaceSize * cmd.length ≤ maxAlloc := by
  refine and_congr_right fun _ => ⟨fun h => ?_, fun h xs hxs => ?_⟩
  · simpa using h _ rfl
  · rw [← RedisData.arrayData.inj hxs, List.length_map]
    exact h

theorem toCommand_bulkData (cmd : Command) : toCommand (cmd.map .bulkData) = cmd := by
  induction cmd with
  | nil => rfl
  | cons b cmd ih =>
    show byteData (.bulkData b) :: toCommand (cmd.map .bulkData) = b :: cmd
    rw [ih]
    rfl

theorem flat_command (cmd : Command) : Flat (.arrayData (cmd.map .bulkData)) := by
  refine .array _ ?_
  intro x hx
  obtain ⟨b, -, rfl⟩ := List.mem_map.mp hx
  exact .bulk b

/-- On a log entry the parser sends the command, then EOF. -/
theorem parse_encodeCommand {cmd : Command} (ha : AllocatableCommand cmd) :
    parse (encodeCommand cmd) =
      ([.data (.arrayData (cmd.map .bulkData)), .err .eof], .closed) := by
  have hp : parse (toBytesAll [.arrayData (cmd.map .bulkData)]) = _ :=
    parse_toBytesAll (by simpa using flat_command cmd) (by simpa [AllocatableCommand] using ha)
  have hb : toBytesAll [.arrayData (cmd.map .bulkData)] = encodeCommand cmd :=
    List.append_nil _
  rw [hb] at hp
  exact hp

/-- The log codec is the identity; nil and empty arguments stay apart. -/
theorem decode_encode {cmd : Command} (ha : AllocatableCommand cmd) :
    decodeCommand (encodeCommand cmd) = .ok cmd := by
  rw [decodeCommand, parse_encodeCommand ha]
  show Except.ok (toCommand (cmd.map .bulkData)) = .ok cmd
  rw [toCommand_bulkData]

/-- **The flat round trip**, for pipelines and for the command codec. -/
theorem flat_roundtrip :
    (∀ vs : List RedisData, (∀ v ∈ vs, Flat v) → (∀ v ∈ vs, Allocatable v) →
      parse (toBytesAll vs) = (vs.map .data ++ [.err .eof], .closed)) ∧
    ∀ cmd : Command, AllocatableCommand cmd → decodeCommand (encodeCommand cmd) = .ok cmd :=
  ⟨fun _ hv ha => parse_toBytesAll hv ha, fun _ ha => decode_encode ha⟩

/-- A payload that looks like framing, a null bulk inside an array, and a
    command with a nil and an empty argument. -/
theorem flat_roundtrip_tricky :
    parse (toBytesAll [.bulkData (some (ascii "$3\r\n*1\r\n")),
        .arrayData [.bulkData none, .intData (-7)], .nullArray])
      = ([.data (.bulkData (some (ascii "$3\r\n*1\r\n"))),
          .data (.arrayData [.bulkData none, .intData (-7)]), .data .nullArray, .err .eof],
        .closed) ∧
    decodeCommand (encodeCommand [some (ascii "SET"), none, some []])
      = .ok [some (ascii "SET"), none, some []] := by
  refine ⟨flat_roundtrip.1 _ ?_ ?_, flat_roundtrip.2 _ ?_⟩
  · intro v hv
    simp only [List.mem_cons, List.not_mem_nil, or_false] at hv
    rcases hv with rfl | rfl | rfl
    · exact .scalar (.bulk _)
    · refine .array _ ?_
      intro x hx
      simp only [List.mem_cons, List.not_mem_nil, or_false] at hx
      rcases hx with rfl | rfl
      · exact .bulk _
      · exact .int _
    · exact .nullArray
  · intro v hv
    simp only [List.mem_cons, List.not_mem_nil, or_false] at hv
    rcases hv with rfl | rfl | rfl
    · exact ⟨by decide, fun xs h => nomatch h⟩
    · refine ⟨by decide, ?_⟩
      intro xs h
      rw [← RedisData.arrayData.inj h]
      decide
    · exact ⟨by decide, fun xs h => nomatch h⟩
  · refine ⟨by decide, ?_⟩
    intro xs h
    rw [← RedisData.arrayData.inj h]
    decide

end TinyRespRoundTrip
