import Mathlib

/-! # Go strings: bytes, runes and case mapping

    A Go `string` is an immutable sequence of bytes, and so is the content of a
    `[]byte`; both are `Bytes` here.  A `[]byte` can also be nil, which RESP
    tells apart from the empty slice, so a nilable slice is an
    `Option Bytes` wherever the difference is visible.

    `strings.ToLower` and `strings.ToUpper` are not byte maps: a string with a
    byte above 0x7F is decoded rune by rune, mapped through the Unicode tables
    of the Go release, and encoded again.  The tables are a parameter
    (`UnicodeTables`); everything around them is Go's own algorithm. -/

namespace GoString

/-- The content of a Go `string` or of a non-nil `[]byte`. -/
abbrev Bytes := List UInt8

/-- A string literal of the source, all of which are ASCII. -/
def ascii (s : String) : Bytes := s.toList.map (fun c => c.toNat.toUInt8)

/-- `string(b)` of a nilable slice: nil converts to the empty string. -/
def str (b : Option Bytes) : Bytes := b.getD []

@[simp] theorem str_some (b : Bytes) : str (some b) = b := rfl

@[simp] theorem str_none : str none = [] := rfl

/-- Whether a string is in a list. -/
instance instDecidableMemBytes (s : Bytes) (l : List Bytes) : Decidable (s ∈ l) :=
  List.instDecidableMemOfLawfulBEq s l

/-- Bytes compare as unsigned integers, so strings compare bytewise. -/
instance instLinearOrderByte : LinearOrder UInt8 where
  le_refl := UInt8.le_refl
  le_trans := fun _ _ _ => UInt8.le_trans
  le_antisymm := fun _ _ => UInt8.le_antisymm
  le_total := UInt8.le_total
  lt_iff_le_not_ge := by
    intro a b
    simp only [UInt8.lt_iff_toNat_lt, UInt8.le_iff_toNat_le]
    omega
  toDecidableLE := inferInstance
  toDecidableLT := inferInstance

/-! ## Runes -/

/-- A Unicode code point. -/
abbrev Rune := Nat

/-- `utf8.RuneError`, what an invalid byte decodes to. -/
def runeError : Rune := 0xFFFD

/-- A UTF-8 continuation byte inside the range `lo..hi`. -/
def inRange (lo hi b : UInt8) : Bool := lo ≤ b && b ≤ hi

/-- The low six bits of a continuation byte. -/
def low6 (b : UInt8) : Nat := b.toNat % 64

/-- `utf8.DecodeRune`: the first rune and its width; an invalid sequence is
    `runeError` of width one. -/
def decodeRune : Bytes → Rune × Nat
  | [] => (runeError, 0)
  | b0 :: rest =>
    if b0 < 0x80 then (b0.toNat, 1)
    else if inRange 0xC2 0xDF b0 then
      match rest with
      | b1 :: _ =>
        if inRange 0x80 0xBF b1 then ((b0.toNat % 32) * 64 + low6 b1, 2)
        else (runeError, 1)
      | _ => (runeError, 1)
    else if inRange 0xE0 0xEF b0 then
      match rest with
      | b1 :: b2 :: _ =>
        -- E0 excludes overlong forms, ED excludes surrogates
        if inRange (if b0 = 0xE0 then 0xA0 else 0x80)
            (if b0 = 0xED then 0x9F else 0xBF) b1 && inRange 0x80 0xBF b2 then
          ((b0.toNat % 16) * 4096 + low6 b1 * 64 + low6 b2, 3)
        else (runeError, 1)
      | _ => (runeError, 1)
    else if inRange 0xF0 0xF4 b0 then
      match rest with
      | b1 :: b2 :: b3 :: _ =>
        if inRange (if b0 = 0xF0 then 0x90 else 0x80)
            (if b0 = 0xF4 then 0x8F else 0xBF) b1
            && inRange 0x80 0xBF b2 && inRange 0x80 0xBF b3 then
          ((b0.toNat % 8) * 262144 + low6 b1 * 4096 + low6 b2 * 64 + low6 b3, 4)
        else (runeError, 1)
      | _ => (runeError, 1)
    else (runeError, 1)

/-- The runes of a string; every step drops at least one byte, so the length
    is enough fuel. -/
def runesAux : Nat → Bytes → List Rune
  | 0, _ => []
  | _ + 1, [] => []
  | n + 1, s => (decodeRune s).1 :: runesAux n (s.drop (decodeRune s).2)

/-- `[]rune(s)`. -/
def runes (s : Bytes) : List Rune := runesAux s.length s

/-- `utf8.AppendRune`: surrogates and values above the Unicode range encode as
    `runeError`. -/
def encodeRune (r : Rune) : Bytes :=
  if r < 0x80 then [r.toUInt8]
  else if r < 0x800 then [(0xC0 + r / 64).toUInt8, (0x80 + r % 64).toUInt8]
  else if 0x10FFFF < r ∨ (0xD800 ≤ r ∧ r ≤ 0xDFFF) then [0xEF, 0xBF, 0xBD]
  else if r < 0x10000 then
    [(0xE0 + r / 4096).toUInt8, (0x80 + r / 64 % 64).toUInt8, (0x80 + r % 64).toUInt8]
  else
    [(0xF0 + r / 262144).toUInt8, (0x80 + r / 4096 % 64).toUInt8,
      (0x80 + r / 64 % 64).toUInt8, (0x80 + r % 64).toUInt8]

/-- `string(runes)`. -/
def ofRunes (rs : List Rune) : Bytes := rs.flatMap encodeRune

/-! ## Case mapping -/

/-- The generated tables of packages `unicode` and `strconv`, consulted for
    runes above 0x7F only. -/
class UnicodeTables where
  toLower : Rune → Rune
  toUpper : Rune → Rune
  toTitle : Rune → Rune
  isPrint : Rune → Bool

/-- The ASCII half of `unicode.ToLower`. -/
def lowerASCII (c : UInt8) : UInt8 := if inRange 65 90 c then c + 32 else c

/-- The ASCII half of `unicode.ToUpper` and `unicode.ToTitle`. -/
def upperASCII (c : UInt8) : UInt8 := if inRange 97 122 c then c - 32 else c

/-- A string of bytes below 0x80. -/
def isASCII (s : Bytes) : Bool := s.all (fun c => c < 0x80)

section Case

variable [UnicodeTables]

/-- `unicode.ToLower`. -/
def unicodeToLower (r : Rune) : Rune :=
  if r < 0x80 then (lowerASCII r.toUInt8).toNat else UnicodeTables.toLower r

/-- `unicode.ToUpper`. -/
def unicodeToUpper (r : Rune) : Rune :=
  if r < 0x80 then (upperASCII r.toUInt8).toNat else UnicodeTables.toUpper r

/-- `unicode.ToTitle`. -/
def unicodeToTitle (r : Rune) : Rune :=
  if r < 0x80 then (upperASCII r.toUInt8).toNat else UnicodeTables.toTitle r

/-- `strings.ToLower`. -/
def toLower (s : Bytes) : Bytes :=
  if isASCII s then s.map lowerASCII else ofRunes ((runes s).map unicodeToLower)

/-- `strings.ToUpper`. -/
def toUpper (s : Bytes) : Bytes :=
  if isASCII s then s.map upperASCII else ofRunes ((runes s).map unicodeToUpper)

end Case

/-! ## ASCII strings and their runes -/

theorem toUInt8_high {n : Nat} (hlo : 0x80 ≤ n) (hhi : n < 0x100) : ¬ n.toUInt8 < 0x80 := by
  have h80 : (0x80 : UInt8).toNat = 0x80 := rfl
  rw [UInt8.lt_iff_toNat_lt, h80, Nat.toUInt8_eq, UInt8.toNat_ofNat']
  omega

/-- A rune outside ASCII is encoded with a byte outside ASCII. -/
theorem encodeRune_high {r : Nat} (h : 0x80 ≤ r) : ∃ b ∈ encodeRune r, ¬ b < 0x80 := by
  rw [encodeRune, if_neg (Nat.not_lt.mpr h)]
  by_cases h2 : r < 0x800
  · rw [if_pos h2]
    exact ⟨_, List.mem_cons_self, toUInt8_high (by omega) (by omega)⟩
  · rw [if_neg h2]
    by_cases hbad : 0x10FFFF < r ∨ (0xD800 ≤ r ∧ r ≤ 0xDFFF)
    · rw [if_pos hbad]
      exact ⟨_, List.mem_cons_self, by decide⟩
    · rw [if_neg hbad]
      by_cases h3 : r < 0x10000
      · rw [if_pos h3]
        exact ⟨_, List.mem_cons_self, toUInt8_high (by omega) (by omega)⟩
      · rw [if_neg h3]
        exact ⟨_, List.mem_cons_self, toUInt8_high (by omega) (by omega)⟩

/-- What is encoded as ASCII is ASCII. -/
theorem runes_lt_of_isASCII {rs : List Rune} (h : isASCII (ofRunes rs) = true) :
    ∀ r ∈ rs, r < 0x80 := by
  intro r hr
  by_contra hhigh
  obtain ⟨b, hb, hlow⟩ := encodeRune_high (Nat.not_lt.mp hhigh)
  have hmem : b ∈ ofRunes rs := List.mem_flatMap.mpr ⟨r, hr, hb⟩
  exact hlow (by simpa using List.all_eq_true.mp h b hmem)

theorem inRange_toNat {lo hi b : UInt8} (h : inRange lo hi b = true) :
    lo.toNat ≤ b.toNat ∧ b.toNat ≤ hi.toNat := by
  simpa [inRange, UInt8.le_iff_toNat_le] using h

/-- A rune that is decoded or replaced by `runeError`. -/
theorem high_of_ite {p : Prop} [Decidable p] {x : Rune × Nat} (h : p → 0x80 ≤ x.1) :
    0x80 ≤ (if p then x else (runeError, 1)).1 := by
  by_cases hp : p
  · rw [if_pos hp]
    exact h hp
  · rw [if_neg hp]
    decide

/-- A byte outside ASCII starts a rune outside ASCII: overlong forms are
    rejected. -/
theorem decodeRune_high {b : UInt8} (h : ¬ b < 0x80) (rest : Bytes) :
    0x80 ≤ (decodeRune (b :: rest)).1 := by
  have herr : 0x80 ≤ runeError := by decide
  have hlow6 : ∀ c : UInt8, low6 c = c.toNat % 64 := fun _ => rfl
  rw [decodeRune.eq_def]
  dsimp only
  rw [if_neg h]
  by_cases h2 : inRange 0xC2 0xDF b = true
  · rw [if_pos h2]
    have hb : 0xC2 ≤ b.toNat ∧ b.toNat ≤ 0xDF := inRange_toNat h2
    rcases rest with _ | ⟨b1, rest⟩
    · exact herr
    · refine high_of_ite fun _ => ?_
      show 0x80 ≤ b.toNat % 32 * 64 + low6 b1
      omega
  rw [if_neg h2]
  by_cases h3 : inRange 0xE0 0xEF b = true
  · rw [if_pos h3]
    have hb : 0xE0 ≤ b.toNat ∧ b.toNat ≤ 0xEF := inRange_toNat h3
    rcases rest with _ | ⟨b1, _ | ⟨b2, rest⟩⟩
    · exact herr
    · exact herr
    · refine high_of_ite fun hcont => ?_
      show 0x80 ≤ b.toNat % 16 * 4096 + low6 b1 * 64 + low6 b2
      have hb1 := inRange_toNat (Bool.and_eq_true_iff.mp hcont).1
      by_cases he : b = 0xE0
      · rw [if_pos he, if_neg (by rw [he]; decide)] at hb1
        have hb1 : 0xA0 ≤ b1.toNat ∧ b1.toNat ≤ 0xBF := hb1
        rw [hlow6 b1]
        omega
      · have hne : b.toNat ≠ 0xE0 := fun e => he (UInt8.toNat_inj.mp e)
        omega
  rw [if_neg h3]
  by_cases h4 : inRange 0xF0 0xF4 b = true
  · rw [if_pos h4]
    have hb : 0xF0 ≤ b.toNat ∧ b.toNat ≤ 0xF4 := inRange_toNat h4
    rcases rest with _ | ⟨b1, _ | ⟨b2, _ | ⟨b3, rest⟩⟩⟩
    · exact herr
    · exact herr
    · exact herr
    · refine high_of_ite fun hcont => ?_
      show 0x80 ≤ b.toNat % 8 * 262144 + low6 b1 * 4096 + low6 b2 * 64 + low6 b3
      have hb1 := inRange_toNat (Bool.and_eq_true_iff.mp (Bool.and_eq_true_iff.mp hcont).1).1
      by_cases he : b = 0xF0
      · rw [if_pos he, if_neg (by rw [he]; decide)] at hb1
        have hb1 : 0x90 ≤ b1.toNat ∧ b1.toNat ≤ 0xBF := hb1
        rw [hlow6 b1]
        omega
      · have hne : b.toNat ≠ 0xF0 := fun e => he (UInt8.toNat_inj.mp e)
        omega
  · rw [if_neg h4]
    exact herr

/-- A string of ASCII runes is ASCII. -/
theorem isASCII_of_runes (n : Nat) : ∀ s : Bytes, s.length ≤ n → (∀ r ∈ runesAux n s, r < 0x80) →
    isASCII s = true := by
  induction n with
  | zero =>
    intro s hlen _
    rw [List.length_eq_zero_iff.mp (Nat.le_zero.mp hlen)]
    rfl
  | succ n ih =>
    intro s hlen hall
    rcases s with _ | ⟨b, rest⟩
    · rfl
    · have hall' : ∀ r ∈ (decodeRune (b :: rest)).1 ::
          runesAux n ((b :: rest).drop (decodeRune (b :: rest)).2), r < 0x80 := hall
      obtain ⟨hfirst, hothers⟩ := List.forall_mem_cons.mp hall'
      have hb : b < 0x80 := by
        by_contra hhigh
        exact absurd hfirst (Nat.not_lt.mpr (decodeRune_high hhigh rest))
      have hone : decodeRune (b :: rest) = (b.toNat, 1) := by
        rw [decodeRune.eq_def]
        exact if_pos hb
      rw [hone] at hothers
      have hrest := ih rest (Nat.le_of_succ_le_succ hlen) hothers
      simp only [isASCII, List.all_cons, hb, decide_true, Bool.true_and]
      exact hrest

section Apart

variable [UnicodeTables]

/-- A fact of the tables of package `unicode`: no rune outside ASCII has both
    its upper and its lower case inside.  U+0131 and U+017F have ASCII capitals
    and are their own small letters; U+0130 and U+212A are the other way round. -/
def CasesApart : Prop :=
  ∀ r : Rune, 0x80 ≤ r → UnicodeTables.toUpper r < 0x80 → 0x80 ≤ UnicodeTables.toLower r

/-- So a string whose upper and lower case are both ASCII is ASCII. -/
theorem isASCII_of_cases (h : CasesApart) {s : Bytes} (hup : isASCII (toUpper s) = true)
    (hlow : isASCII (toLower s) = true) : isASCII s = true := by
  by_contra hs
  rw [toUpper, if_neg hs] at hup
  rw [toLower, if_neg hs] at hlow
  refine hs (isASCII_of_runes s.length s le_rfl fun r hr => ?_)
  by_contra hhigh
  have hu := runes_lt_of_isASCII hup _ (List.mem_map_of_mem hr)
  have hl := runes_lt_of_isASCII hlow _ (List.mem_map_of_mem hr)
  rw [unicodeToUpper, if_neg hhigh] at hu
  rw [unicodeToLower, if_neg hhigh] at hl
  exact absurd hl (Nat.not_lt.mpr (h r (Nat.not_lt.mp hhigh) hu))

end Apart

/-! ## Trimming and affixes -/

/-- `strings.HasPrefix`. -/
def hasPrefix (s p : Bytes) : Bool := p.isPrefixOf s

/-- `strings.HasSuffix`. -/
def hasSuffix (s p : Bytes) : Bool := p.isSuffixOf s

/-- `unicode.IsSpace`. -/
def isSpace (r : Rune) : Bool :=
  [9, 10, 11, 12, 13, 32, 0x85, 0xA0, 0x1680, 0x2028, 0x2029, 0x202F, 0x205F, 0x3000].contains r ||
    (decide (0x2000 ≤ r) && decide (r ≤ 0x200A))

/-- `strings.TrimSpace(s) == ""`. -/
def isBlank (s : Bytes) : Bool := (runes s).all isSpace

/-- `strings.TrimLeft(s, cutset)` for an ASCII cutset. -/
def trimLeft (s cutset : Bytes) : Bytes := s.dropWhile (fun c => cutset.contains c)

/-- The bytes a string's runes are decoded from, rune by rune. -/
def piecesAux : Nat → Bytes → List Bytes
  | 0, _ => []
  | _ + 1, [] => []
  | n + 1, s => s.take (decodeRune s).2 :: piecesAux n (s.drop (decodeRune s).2)

/-- `strings.TrimSpace`. -/
def trimSpace (s : Bytes) : Bytes :=
  let blank := fun piece => isSpace (decodeRune piece).1
  (((piecesAux s.length s).dropWhile blank).reverse.dropWhile blank).reverse.flatten

/-- `strings.Trim(s, cutset)` for an ASCII cutset. -/
def trim (s cutset : Bytes) : Bytes := (trimLeft (trimLeft s cutset).reverse cutset).reverse

/-- `strings.TrimPrefix`. -/
def trimPrefix (s p : Bytes) : Bytes := if hasPrefix s p then s.drop p.length else s

/-- `strings.TrimSuffix`. -/
def trimSuffix (s p : Bytes) : Bytes :=
  if hasSuffix s p then s.take (s.length - p.length) else s

/-- `strings.Index`. -/
def index (s sub : Bytes) : Option Nat :=
  (List.range (s.length + 1)).find? fun i => hasPrefix (s.drop i) sub

/-- `strings.IndexAny(s, chars)` for ASCII chars. -/
def indexAny (s chars : Bytes) : Option Nat := s.findIdx? fun c => chars.contains c

end GoString
