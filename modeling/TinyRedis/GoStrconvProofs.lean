import TinyRedis.GoStringProofs

/-! # Decimal integers: `strconv.ParseInt` and `strconv.FormatInt`

    Both at base 10 and 64 bits, which is all the server uses (`strconv.Atoi`
    and `strconv.Itoa` are the same functions on a 64-bit platform).  The
    headline is `parseInt_formatInt`: parsing undoes formatting on every
    `int64`, the fact that RESP lengths and integer replies rest on. -/

namespace GoStrconv

open GoString

/-- The two causes of a `*strconv.NumError`. -/
inductive NumError where
  | invalidSyntax
  | outOfRange
deriving DecidableEq, Repr

/-- The value of a decimal digit. -/
def digitVal (c : UInt8) : Option Nat :=
  if inRange 48 57 c then some (c.toNat - 48) else none

/-- The loop of `strconv.ParseUint(s, 10, 64)`: overflow is reported where it
    happens, before later bytes are looked at. -/
def parseDigits : Nat → Bytes → Except NumError Nat
  | n, [] => .ok n
  | n, c :: s =>
    match digitVal c with
    | none => .error .invalidSyntax
    | some d =>
      if 2 ^ 64 ≤ n * 10 + d then .error .outOfRange
      else parseDigits (n * 10 + d) s

/-- `strconv.ParseUint(s, 10, 64)`. -/
def parseUint (s : Bytes) : Except NumError Nat :=
  if s = [] then .error .invalidSyntax else parseDigits 0 s

/-- The sign that `strconv.ParseInt` strips: whether it is a minus, and the
    rest. -/
def splitSign : Bytes → Bool × Bytes
  | [] => (false, [])
  | c :: s => if c = 43 then (false, s) else if c = 45 then (true, s) else (false, c :: s)

/-- `strconv.ParseInt(s, 10, 64)`. -/
def parseInt (s : Bytes) : Except NumError Int64 :=
  match parseUint (splitSign s).2 with
  | .error e => .error e
  | .ok un =>
    if (splitSign s).1 then
      if 2 ^ 63 < un then .error .outOfRange else .ok (Int64.ofInt (-un))
    else
      if 2 ^ 63 ≤ un then .error .outOfRange else .ok (Int64.ofInt un)

/-- `strconv.Atoi`, whose `int` has 64 bits. -/
def atoi (s : Bytes) : Except NumError Int := (parseInt s).map Int64.toInt

/-- The digits of a natural number, most significant first. -/
def formatNat (n : Nat) : Bytes :=
  if n = 0 then [48] else (Nat.digits 10 n).reverse.map (fun d => (48 + d).toUInt8)

/-- Decimal text of an integer. -/
def itoa (i : Int) : Bytes :=
  if i < 0 then 45 :: formatNat i.natAbs else formatNat i.natAbs

/-- `strconv.FormatInt(i, 10)`. -/
def formatInt (i : Int64) : Bytes := itoa i.toInt

/-! ## Error texts -/

/-- The last `width` hexadecimal digits of `n`. -/
def hex (width n : Nat) : Bytes :=
  (List.range width).reverse.map fun i =>
    let d := n / 16 ^ i % 16
    (if d < 10 then 48 + d else 87 + d).toUInt8

section Quote

variable [UnicodeTables]

/-- `strconv.appendEscapedRune` inside double quotes. -/
def escapeRune (r : Rune) : Bytes :=
  if r = 34 ∨ r = 92 then [92, r.toUInt8]
  else if (if r < 0x80 then 32 ≤ r ∧ r < 127 else UnicodeTables.isPrint r) then encodeRune r
  else if r = 7 then ascii "\\a"
  else if r = 8 then ascii "\\b"
  else if r = 12 then ascii "\\f"
  else if r = 10 then ascii "\\n"
  else if r = 13 then ascii "\\r"
  else if r = 9 then ascii "\\t"
  else if r = 11 then ascii "\\v"
  else if r < 32 ∨ r = 127 then ascii "\\x" ++ hex 2 r
  else if r < 0x10000 then ascii "\\u" ++ hex 4 r
  else ascii "\\U" ++ hex 8 r

/-- The loop of `strconv.Quote`; the length is enough fuel. -/
def quoteAux : Nat → Bytes → Bytes
  | 0, _ => []
  | _ + 1, [] => []
  | n + 1, c :: s =>
    if decodeRune (c :: s) = (runeError, 1) then ascii "\\x" ++ hex 2 c.toNat ++ quoteAux n s
    else
      escapeRune (decodeRune (c :: s)).1 ++ quoteAux n ((c :: s).drop (decodeRune (c :: s)).2)

/-- `strconv.Quote`. -/
def quote (s : Bytes) : Bytes := 34 :: quoteAux s.length s ++ [34]

/-- `(*strconv.NumError).Error` for the function `fn`. -/
def NumError.text (fn : String) (num : Bytes) (e : NumError) : Bytes :=
  ascii "strconv." ++ ascii fn ++ ascii ": parsing " ++ quote num ++ ascii ": " ++
    match e with
    | .invalidSyntax => ascii "invalid syntax"
    | .outOfRange => ascii "value out of range"

end Quote

/-! ## Digits -/

/-- A digit byte reads back as its digit. -/
theorem digitVal_digit {d : Nat} (hd : d < 10) : digitVal (48 + d).toUInt8 = some d := by
  interval_cases d <;> decide

/-- The value that `parseDigits` accumulates over digits `ds`. -/
private def foldDigits (n : Nat) (ds : List Nat) : Nat :=
  ds.foldl (fun acc d => acc * 10 + d) n

private theorem le_foldDigits (ds : List Nat) : ∀ n, n ≤ foldDigits n ds := by
  induction ds with
  | nil => intro n; exact Nat.le_refl n
  | cons d ds ih =>
    intro n
    have h := ih (n * 10 + d)
    show n ≤ foldDigits (n * 10 + d) ds
    omega

/-- Digits whose value stays below 2^64 are accepted, with that value. -/
private theorem parseDigits_map (ds : List Nat) :
    ∀ n, (∀ d ∈ ds, d < 10) → foldDigits n ds < 2 ^ 64 →
      parseDigits n (ds.map (fun d => (48 + d).toUInt8)) = .ok (foldDigits n ds) := by
  induction ds with
  | nil => intro n _ _; rfl
  | cons d ds ih =>
    intro n hd hlt
    have hd0 : digitVal (48 + d).toUInt8 = some d := digitVal_digit (hd d (by simp))
    have hstep : foldDigits n (d :: ds) = foldDigits (n * 10 + d) ds := rfl
    have hle := le_foldDigits ds (n * 10 + d)
    rw [hstep] at hlt ⊢
    rw [List.map_cons, parseDigits, hd0]
    show (if 2 ^ 64 ≤ n * 10 + d then _ else _) = _
    rw [if_neg (by omega)]
    exact ih (n * 10 + d) (fun x hx => hd x (by simp [hx])) hlt

private theorem foldDigits_reverse (ds : List Nat) :
    foldDigits 0 ds.reverse = Nat.ofDigits 10 ds := by
  induction ds with
  | nil => rfl
  | cons d ds ih =>
    rw [List.reverse_cons, foldDigits, List.foldl_append]
    rw [foldDigits] at ih
    rw [ih, Nat.ofDigits_cons]
    show Nat.ofDigits 10 ds * 10 + d = d + 10 * Nat.ofDigits 10 ds
    omega

private theorem foldDigits_digits (n : Nat) :
    foldDigits 0 (Nat.digits 10 n).reverse = n := by
  rw [foldDigits_reverse, Nat.ofDigits_digits]

/-- Formatted naturals are never empty. -/
theorem formatNat_ne_nil (n : Nat) : formatNat n ≠ [] := by
  rw [formatNat]
  by_cases h : n = 0
  · rw [if_pos h]; exact List.cons_ne_nil _ _
  · rw [if_neg h]
    intro hnil
    have h0 : Nat.digits 10 n = [] := by simpa using hnil
    exact h (Nat.digits_eq_nil_iff_eq_zero.mp h0)

/-- Every byte of a formatted natural is a digit byte. -/
theorem mem_formatNat {n : Nat} {c : UInt8} (h : c ∈ formatNat n) :
    ∃ d, d < 10 ∧ c = (48 + d).toUInt8 := by
  rw [formatNat] at h
  by_cases h0 : n = 0
  · rw [if_pos h0] at h
    exact ⟨0, by omega, by simpa using h⟩
  · rw [if_neg h0] at h
    obtain ⟨d, hd, rfl⟩ := List.mem_map.mp h
    exact ⟨d, Nat.digits_lt_base (by omega) (List.mem_reverse.mp hd), rfl⟩

/-- A digit byte is none of the bytes that structure a RESP line. -/
theorem digit_not_control {d : Nat} (hd : d < 10) :
    (48 + d).toUInt8 ≠ 10 ∧ (48 + d).toUInt8 ≠ 13 ∧ (48 + d).toUInt8 ≠ 43
      ∧ (48 + d).toUInt8 ≠ 45 := by
  interval_cases d <;> decide

/-- `ParseUint` undoes `formatNat` below 2^64. -/
theorem parseUint_formatNat {n : Nat} (h : n < 2 ^ 64) : parseUint (formatNat n) = .ok n := by
  rw [parseUint, if_neg (formatNat_ne_nil n), formatNat]
  by_cases h0 : n = 0
  · rw [if_pos h0, h0]; rfl
  · rw [if_neg h0]
    have hd : ∀ d ∈ (Nat.digits 10 n).reverse, d < 10 :=
      fun d hd => Nat.digits_lt_base (by omega) (List.mem_reverse.mp hd)
    have hv := foldDigits_digits n
    rw [parseDigits_map _ 0 hd (by rw [hv]; exact h), hv]

/-! ## Signs -/

/-- A formatted natural starts with no sign. -/
theorem splitSign_formatNat (n : Nat) : splitSign (formatNat n) = (false, formatNat n) := by
  cases hf : formatNat n with
  | nil => rfl
  | cons c s =>
    obtain ⟨d, hd, hc⟩ := mem_formatNat (n := n) (c := c) (by rw [hf]; simp)
    obtain ⟨-, -, h43, h45⟩ := digit_not_control hd
    rw [← hc] at h43 h45
    show (if c = 43 then (false, s) else if c = 45 then (true, s) else (false, c :: s)) = _
    rw [if_neg h43, if_neg h45]

/-- Formatted integers contain neither CR nor LF. -/
theorem itoa_not_crlf (i : Int) {c : UInt8} (h : c ∈ itoa i) : c ≠ 10 ∧ c ≠ 13 := by
  have hnat : ∀ n, c ∈ formatNat n → c ≠ 10 ∧ c ≠ 13 := by
    intro n hn
    obtain ⟨d, hd, rfl⟩ := mem_formatNat hn
    exact ⟨(digit_not_control hd).1, (digit_not_control hd).2.1⟩
  rw [itoa] at h
  by_cases hneg : i < 0
  · rw [if_pos hneg] at h
    rcases List.mem_cons.mp h with rfl | h
    · decide
    · exact hnat _ h
  · rw [if_neg hneg] at h
    exact hnat _ h

/-- `ParseInt` undoes `itoa` on the range of an `int64`. -/
theorem parseInt_itoa {i : Int} (hlo : -2 ^ 63 ≤ i) (hhi : i < 2 ^ 63) :
    parseInt (itoa i) = .ok (Int64.ofInt i) := by
  rw [itoa]
  by_cases hneg : i < 0
  · rw [if_pos hneg, parseInt]
    have hs : splitSign (45 :: formatNat i.natAbs) = (true, formatNat i.natAbs) := rfl
    rw [hs]
    show (match parseUint (formatNat i.natAbs) with
      | .error e => _
      | .ok un => if (true : Bool) then _ else _) = _
    rw [parseUint_formatNat (by omega)]
    show (if 2 ^ 63 < i.natAbs then _ else Except.ok (Int64.ofInt (-(i.natAbs : Int)))) = _
    rw [if_neg (by omega)]
    have hi : -(i.natAbs : Int) = i := by omega
    rw [hi]
  · rw [if_neg hneg, parseInt, splitSign_formatNat]
    show (match parseUint (formatNat i.natAbs) with
      | .error e => _
      | .ok un => if (false : Bool) then _ else _) = _
    rw [parseUint_formatNat (by omega)]
    show (if 2 ^ 63 ≤ i.natAbs then _ else Except.ok (Int64.ofInt (i.natAbs : Int))) = _
    rw [if_neg (by omega)]
    have hi : (i.natAbs : Int) = i := by omega
    rw [hi]

/-- **Parsing undoes formatting** on every `int64`. -/
theorem parseInt_formatInt (i : Int64) : parseInt (formatInt i) = .ok i := by
  rw [formatInt, parseInt_itoa (Int64.le_toInt i) (Int64.toInt_lt i), Int64.ofInt_toInt]

/-- `Atoi` undoes `Itoa` on the range of an `int`. -/
theorem atoi_itoa {i : Int} (hlo : -2 ^ 63 ≤ i) (hhi : i < 2 ^ 63) : atoi (itoa i) = .ok i := by
  rw [atoi, parseInt_itoa hlo hhi]
  show Except.ok (Int64.ofInt i).toInt = Except.ok i
  rw [Int64.toInt_ofInt_of_le hlo hhi]

end GoStrconv
