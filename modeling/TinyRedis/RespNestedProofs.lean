import TinyRedis.RespHistoryProofs

/-! # Decode and encode outside the flat fragment

    `ToBytes` nests arrays, `parse` does not: it keeps one array under
    construction, and a header that arrives inside it opens a new one in its
    place.  An inline line loses its first byte, which `parseSingleLine` takes for
    a type byte.  Nothing beyond the flat fragment comes back
    (`nothing_beyond_flat_roundTrips`). -/

namespace TinyRespNested

open GoString TinyResp TinyRespStream TinyRespRoundTrip TinyRespHistory

/-- An array nested to any depth, with leaves as in flat RESP. -/
inductive Tree : RedisData → Prop where
  | scalar {d : RedisData} : Scalar d → Tree d
  | nullArray : Tree .nullArray
  | array (xs : List RedisData) : (∀ x ∈ xs, Tree x) → Tree (.arrayData xs)

/-- The bytes `+`, `-`, `:`, `$` and `*`. -/
def typeBytes : Bytes := [43, 45, 58, 36, 42]

/-- The text of an inline line: no LF, and no type byte in front. -/
structure Inline (s : Bytes) : Prop where
  noLF : (10 : UInt8) ∉ s
  noType : ∀ c ∈ s.head?, c ∉ typeBytes

/-- The parser reads the value back, alone. -/
def RoundTrips (v : RedisData) : Prop := parse (toBytes v) = ([.data v, .err .eof], .closed)

/-- What the parser reads back holds no array inside another. -/
theorem RoundTrips.shallow {v : RedisData} (h : RoundTrips v) : Shallow v := by
  rcases parseLoop_sends (c := ⟨{}, toBytes v⟩) tidy_init (Nat.lt_succ_self _) with
    ⟨p, hp⟩ | ⟨out, hout, hall⟩
  · have hclosed : (parse (toBytes v)).2 = .closed := by rw [h]
    cases hclosed.symm.trans hp
  · have hsplit : out ++ [.err .eof] = [.data v] ++ [.err .eof] :=
      congrArg Prod.fst (hout.symm.trans h)
    have hv : out = [.data v] := List.append_cancel_right hsplit
    exact hall (.data v) (hv ▸ List.mem_cons_self)

/-- An inline line comes back without its first byte, or not at all. -/
theorem not_roundTrips_plain {s : Bytes} (hs : Inline s) : ¬ RoundTrips (.plainData s) := by
  intro h
  cases s with
  | nil =>
    have hempty : (parse (toBytes (.plainData []))).2 = .panicked .sliceBoundsOutOfRange := by
      decide
    rw [h] at hempty
    cases hempty
  | cons c t =>
    have hc := hs.noType c rfl
    simp only [typeBytes, List.mem_cons, List.not_mem_nil, or_false, not_or] at hc
    obtain ⟨hplus, hminus, hcolon, hbulk, harr⟩ := hc
    obtain ⟨hlf, ht⟩ := not_or.mp fun hor => hs.noLF (List.mem_cons.mpr hor)
    have hstep : parseStep ⟨{}, c :: t ++ crlf ++ []⟩ =
        .next (some (.data (.plainData t))) ⟨{}, []⟩ := by
      rw [parseStep_line rfl (Ne.symm hlf) ht, if_neg harr, if_neg hbulk, parseSingleLine_eq,
        if_neg hplus, if_neg hminus, if_neg hcolon]
      rfl
    have hsent := parse_emits (Emits.one hstep)
    rw [List.append_nil] at hsent
    have hhead := congrArg (fun r => r.1.head?) (h.symm.trans hsent)
    have hdata : RedisData.plainData (c :: t) = .plainData t :=
      ParsedRes.data.inj (Option.some.inj hhead)
    exact absurd (congrArg List.length (RedisData.plainData.inj hdata)) (by simp)

/-- What lies beyond the flat fragment: an array with an array among its
    elements, whatever the depth, and an inline line. -/
inductive BeyondFlat : RedisData → Prop
  | nested (xs : List RedisData) (htree : ∀ x ∈ xs, Tree x) (harray : ∃ x ∈ xs, IsArray x) :
      BeyondFlat (.arrayData xs)
  | line (s : Bytes) (hs : Inline s) : BeyondFlat (.plainData s)

/-- **Nothing outside the flat fragment comes back.** -/
theorem nothing_beyond_flat_roundTrips {v : RedisData} (hv : BeyondFlat v) : ¬ RoundTrips v := by
  cases hv with
  | nested xs _ harray =>
    obtain ⟨x, hx, harr⟩ := harray
    exact fun h => h.shallow x hx harr
  | line s hs => exact not_roundTrips_plain hs

/-- An array of the null array, and an inline line. -/
theorem nothing_beyond_flat_roundTrips_examples :
    ¬ RoundTrips (.arrayData [.nullArray]) ∧ ¬ RoundTrips (.plainData (ascii "PING")) := by
  refine ⟨nothing_beyond_flat_roundTrips (.nested _ ?_ ⟨_, List.mem_cons_self, trivial⟩),
    nothing_beyond_flat_roundTrips (.line _ ⟨by decide, ?_⟩)⟩
  · intro x hx
    rw [List.mem_singleton.mp hx]
    exact .nullArray
  · intro c hc
    cases hc
    decide

/-- An array inside an array comes back without the outer one, an inline line
    without its first byte. -/
theorem nested_and_plain_lost :
    parse (toBytes (.arrayData [.arrayData [.bulkData none]])) =
      ([.data (.arrayData [.bulkData none]), .err .eof], .closed) ∧
    parse (toBytes (.plainData (ascii "PING"))) =
      ([.data (.plainData (ascii "ING")), .err .eof], .closed) := by
  constructor <;> rfl

end TinyRespNested
