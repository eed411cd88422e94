import TinyRedis.GlobProofs

/-! # What PatternMatch gets right

    The language of a glob pattern is given by rules, one for each kind of token
    (`Lang`).  `PatternMatch` reads a pattern differently in three places: a
    backslash and the byte behind it are stepped over and compared with nothing; the
    byte behind a run of stars is looked for as it stands, also where it begins a
    token of its own; and a `-` in a class takes the bytes on both of its sides as
    they are, whatever they belong to.

    A wrong answer needs a token that is misread where it is met (`ReadRight`).  In a
    pattern without stars every misread token gives one, on some string, if anything
    matches at all (`Starless.right_iff`).  Behind a star it need not, for the search
    may run off where it would have been wrong (`star_any_right`). -/

namespace TinyDb

open GoString GlobSearch

variable {p s : Bytes}

/-! ## The documented language -/

/-- A byte belongs to one of the ranges. -/
def InRanges (c : UInt8) (ranges : List (UInt8 × UInt8)) : Prop :=
  ∃ r ∈ ranges, r.1 ≤ c ∧ c ≤ r.2

/-- A member at the front of the text of a class: its byte and what is behind it. -/
inductive Member : Bytes → UInt8 → Bytes → Prop
  | plain (c : UInt8) (s : Bytes) (h : c ≠ 92 ∧ c ≠ 93) : Member (c :: s) c s
  | escaped (c : UInt8) (s : Bytes) : Member (92 :: c :: s) c s

/-- The text of a class, behind `[` or `[^`: its ranges, and what is behind `]`.  A
    `-` between two members makes a range; anywhere else it is a member. -/
inductive ClassBody : Bytes → List (UInt8 × UInt8) → Bytes → Prop
  | close (s : Bytes) : ClassBody (93 :: s) [] s
  | range {s t u v : Bytes} {a b : UInt8} {ranges : List (UInt8 × UInt8)}
      (ha : Member s a (45 :: t)) (hb : Member t b u) (hrest : ClassBody u ranges v) :
      ClassBody s ((a, b) :: ranges) v
  | single {s t v : Bytes} {a : UInt8} {ranges : List (UInt8 × UInt8)} (ha : Member s a t)
      (hno : ¬ ∃ t' b u, t = 45 :: t' ∧ Member t' b u) (hrest : ClassBody t ranges v) :
      ClassBody s ((a, a) :: ranges) v

/-- Bytes that stand for themselves. -/
def Ordinary (c : UInt8) : Prop := c ≠ 42 ∧ c ≠ 63 ∧ c ≠ 91 ∧ c ≠ 92

instance instDecidableOrdinary (c : UInt8) : Decidable (Ordinary c) :=
  inferInstanceAs (Decidable (c ≠ 42 ∧ c ≠ 63 ∧ c ≠ 91 ∧ c ≠ 92))

/-- The strings that a pattern matches, by the documented rules.  No rule is about
    a class that is not closed, or a backslash at the end. -/
inductive Lang : Bytes → Bytes → Prop
  | nil : Lang [] []
  | star (u : Bytes) {p v : Bytes} (h : Lang p v) : Lang (42 :: p) (u ++ v)
  | any (c : UInt8) {p s : Bytes} (h : Lang p s) : Lang (63 :: p) (c :: s)
  | cls {c : UInt8} {p q s : Bytes} {ranges : List (UInt8 × UInt8)} (hp : p.head? ≠ some 94)
      (hbody : ClassBody p ranges q) (hc : InRanges c ranges) (h : Lang q s) :
      Lang (91 :: p) (c :: s)
  | notCls {c : UInt8} {p q s : Bytes} {ranges : List (UInt8 × UInt8)}
      (hbody : ClassBody p ranges q) (hc : ¬ InRanges c ranges) (h : Lang q s) :
      Lang (91 :: 94 :: p) (c :: s)
  | escape (c : UInt8) {p s : Bytes} (h : Lang p s) : Lang (92 :: c :: p) (c :: s)
  | lit {c : UInt8} {p s : Bytes} (hc : Ordinary c) (h : Lang p s) : Lang (c :: p) (c :: s)

/-! ## What the rules say, by the first token -/

/-- What the rules say of a pattern by its first byte. -/
inductive FirstToken (c : UInt8) (p s : Bytes) : Prop
  | star (hc : c = 42) (u v : Bytes) (hs : s = u ++ v) (h : Lang p v)
  | any (hc : c = 63) (d : UInt8) (t : Bytes) (hs : s = d :: t) (h : Lang p t)
  | cls (hc : c = 91) (hp : p.head? ≠ some 94) (d : UInt8) (t q : Bytes)
      (ranges : List (UInt8 × UInt8)) (hs : s = d :: t) (hbody : ClassBody p ranges q)
      (hd : InRanges d ranges) (h : Lang q t)
  | notCls (hc : c = 91) (p' : Bytes) (hp : p = 94 :: p') (d : UInt8) (t q : Bytes)
      (ranges : List (UInt8 × UInt8)) (hs : s = d :: t) (hbody : ClassBody p' ranges q)
      (hd : ¬ InRanges d ranges) (h : Lang q t)
  | escape (hc : c = 92) (d : UInt8) (p' t : Bytes) (hp : p = d :: p') (hs : s = d :: t)
      (h : Lang p' t)
  | lit (hc : Ordinary c) (t : Bytes) (hs : s = c :: t) (h : Lang p t)

theorem lang_cons {c : UInt8} (h : Lang (c :: p) s) : FirstToken c p s := by
  cases h with
  | star u h => exact .star rfl u _ rfl h
  | any d h => exact .any rfl d _ rfl h
  | cls hp hbody hd h => exact .cls rfl hp _ _ _ _ rfl hbody hd h
  | notCls hbody hd h => exact .notCls rfl _ rfl _ _ _ _ rfl hbody hd h
  | escape d h => exact .escape rfl d _ _ rfl rfl h
  | lit hc h => exact .lit hc _ rfl h

theorem lang_star_iff : Lang (42 :: p) s ↔ ∃ u v, s = u ++ v ∧ Lang p v := by
  constructor
  · intro h
    cases lang_cons h with
    | star hc u v hs h => exact ⟨u, v, hs, h⟩
    | lit hc => exact absurd rfl hc.1
    | _ hc => exact absurd hc (by decide)
  · rintro ⟨u, v, rfl, h⟩
    exact .star u h

theorem lang_any_iff : Lang (63 :: p) s ↔ ∃ d t, s = d :: t ∧ Lang p t := by
  constructor
  · intro h
    cases lang_cons h with
    | any hc d t hs h => exact ⟨d, t, hs, h⟩
    | lit hc => exact absurd rfl hc.2.1
    | _ hc => exact absurd hc (by decide)
  · rintro ⟨d, t, rfl, h⟩
    exact .any d h

theorem Member.unique {s t t' : Bytes} {a a' : UInt8} (h : Member s a t) (h' : Member s a' t') :
    a = a' ∧ t = t' := by
  cases h with
  | plain c s hc =>
    cases h' with
    | plain => exact ⟨rfl, rfl⟩
    | escaped => exact absurd rfl hc.1
  | escaped c s =>
    cases h' with
    | plain _ _ hc => exact absurd rfl hc.1
    | escaped => exact ⟨rfl, rfl⟩

theorem not_member_close {s t : Bytes} {a : UInt8} : ¬ Member (93 :: s) a t := by
  intro h
  cases h with
  | plain c s hc => exact hc.2 rfl

theorem ClassBody.unique {s v v' : Bytes} {ranges ranges' : List (UInt8 × UInt8)}
    (h : ClassBody s ranges v) (h' : ClassBody s ranges' v') : ranges = ranges' ∧ v = v' := by
  induction h generalizing ranges' v' with
  | close s =>
    cases h' with
    | close => exact ⟨rfl, rfl⟩
    | range ha => exact absurd ha not_member_close
    | single ha => exact absurd ha not_member_close
  | range ha hb hrest ih =>
    cases h' with
    | close => exact absurd ha not_member_close
    | range ha' hb' hrest' =>
      obtain ⟨rfl, ht⟩ := ha.unique ha'
      obtain ⟨-, rfl⟩ := List.cons.inj ht
      obtain ⟨rfl, rfl⟩ := hb.unique hb'
      obtain ⟨rfl, rfl⟩ := ih hrest'
      exact ⟨rfl, rfl⟩
    | single ha' hno =>
      obtain ⟨-, rfl⟩ := ha.unique ha'
      exact absurd ⟨_, _, _, rfl, hb⟩ hno
  | single ha hno hrest ih =>
    cases h' with
    | close => exact absurd ha not_member_close
    | range ha' hb' =>
      obtain ⟨-, rfl⟩ := ha.unique ha'
      exact absurd ⟨_, _, _, rfl, hb'⟩ hno
    | single ha' _ hrest' =>
      obtain ⟨rfl, rfl⟩ := ha.unique ha'
      obtain ⟨rfl, rfl⟩ := ih hrest'
      exact ⟨rfl, rfl⟩

/-- A class behind `[`, by the documented rules: the bytes it stands for, and what is
    behind `]`. -/
inductive ClassText : Bytes → (UInt8 → Prop) → Bytes → Prop
  | cls {p q : Bytes} {ranges : List (UInt8 × UInt8)} (hp : p.head? ≠ some 94)
      (hbody : ClassBody p ranges q) : ClassText p (fun c => InRanges c ranges) q
  | notCls {p q : Bytes} {ranges : List (UInt8 × UInt8)} (hbody : ClassBody p ranges q) :
      ClassText (94 :: p) (fun c => ¬ InRanges c ranges) q

theorem ClassText.unique {p q q' : Bytes} {set set' : UInt8 → Prop} (h : ClassText p set q)
    (h' : ClassText p set' q') : set = set' ∧ q = q' := by
  cases h with
  | cls hp hbody =>
    cases h' with
    | cls _ hbody' =>
      obtain ⟨rfl, rfl⟩ := hbody.unique hbody'
      exact ⟨rfl, rfl⟩
    | notCls => exact absurd rfl hp
  | notCls hbody =>
    cases h' with
    | cls hp => exact absurd rfl hp
    | notCls hbody' =>
      obtain ⟨rfl, rfl⟩ := hbody.unique hbody'
      exact ⟨rfl, rfl⟩

section ReadPattern

variable {c : UInt8} {p : Bytes}

/-- The byte behind the stars is looked for as it stands, whatever it is. -/
theorem readPattern_seek (hc : c ≠ 42) :
    readPattern (42 :: c :: p) = .seek (fun d => d == c) (readPattern p) := by
  have hdrop : (c :: p).dropWhile (fun q => q == 42) = c :: p := by
    simp [hc]
  rw [readPattern, readPatternAux.eq_def]
  dsimp only [List.length_cons]
  rw [if_pos rfl, hdrop]
  exact congrArg _ (readPatternAux_fuel (by simp) le_rfl)

end ReadPattern

/-! ## Classes that are read as documented -/

/-- The text of a class without anything that is read in another way: no `-` but
    between the ends of a range that is not empty, and no escaped upper end. -/
inductive PlainClass : Bytes → Bytes → Prop
  | close (s : Bytes) : PlainClass (93 :: s) s
  | single {c : UInt8} {s v : Bytes} (hc : c ≠ 92 ∧ c ≠ 93 ∧ c ≠ 45) (hs : s.head? ≠ some 45)
      (h : PlainClass s v) : PlainClass (c :: s) v
  | escaped (c : UInt8) {s v : Bytes} (hs : s.head? ≠ some 45) (h : PlainClass s v) :
      PlainClass (92 :: c :: s) v
  | range {a b : UInt8} {s v : Bytes} (ha : a ≠ 92 ∧ a ≠ 93 ∧ a ≠ 45) (hb : b ≠ 92 ∧ b ≠ 93)
      (hab : a ≤ b) (hs : s.head? ≠ some 45) (h : PlainClass s v) :
      PlainClass (a :: 45 :: b :: s) v

theorem no_range_of_head (hs : s.head? ≠ some 45) :
    ¬ ∃ t b u, s = 45 :: t ∧ Member t b u := by
  rintro ⟨t, b, u, rfl, -⟩
  exact hs rfl

/-- Such a text is read as documented. -/
theorem PlainClass.read {s v : Bytes} (h : PlainClass s v) :
    ∃ ranges ranges', ClassBody s ranges v ∧ (∀ prev, classRanges prev s = some (ranges', v)) ∧
      ∀ c, InRanges c ranges ↔ ranges'.any (fun x => x.1 ≤ c && c ≤ x.2) = true := by
  have hcons : ∀ (x : UInt8 × UInt8) (ranges : List (UInt8 × UInt8)) (c : UInt8),
      InRanges c (x :: ranges) ↔ (x.1 ≤ c ∧ c ≤ x.2) ∨ InRanges c ranges :=
    fun x ranges c => by simp [InRanges]
  induction h with
  | close s => exact ⟨[], [], .close s, fun _ => classRanges_close, fun c => by simp [InRanges]⟩
  | @single c s v hc hs _ ih =>
    obtain ⟨ranges, ranges', hbody, hread, hin⟩ := ih
    refine ⟨_, (c, c) :: ranges',
      .single (.plain c s ⟨hc.1, hc.2.1⟩) (no_range_of_head hs) hbody, fun prev => ?_, fun d => ?_⟩
    · rw [classRanges_plain hc.1 hc.2.1 hc.2.2, hread]
      rfl
    · rw [hcons, hin]
      simp
  | @escaped c s v hs _ ih =>
    obtain ⟨ranges, ranges', hbody, hread, hin⟩ := ih
    refine ⟨_, (c, c) :: ranges', .single (.escaped c s) (no_range_of_head hs) hbody,
      fun prev => ?_, fun d => ?_⟩
    · rw [classRanges_escape, hread]
      rfl
    · rw [hcons, hin]
      simp
  | @range a b s v ha hb hab hs _ ih =>
    obtain ⟨ranges, ranges', hbody, hread, hin⟩ := ih
    refine ⟨_, (a, a) :: (a, b) :: ranges',
      .range (.plain a _ ⟨ha.1, ha.2.1⟩) (.plain b s hb) hbody, fun prev => ?_, fun d => ?_⟩
    · rw [classRanges_plain ha.1 ha.2.1 ha.2.2, classRanges_dash hb.2, hread]
      rfl
    · have hlow : a ≤ d ∧ d ≤ a → a ≤ d ∧ d ≤ b := fun h => ⟨h.1, UInt8.le_trans h.2 hab⟩
      rw [hcons, hin]
      simp only [List.any_cons, Bool.or_eq_true, Bool.and_eq_true, decide_eq_true_eq]
      exact (or_iff_right_of_imp fun h => Or.inl (hlow h)).symm

theorem PlainClass.text {p q : Bytes} (h : PlainClass p q) (hp : p.head? ≠ some 94) :
    ∃ set test, ClassText p set q ∧ readClass p = some (test, q) ∧ ∀ c, test c = true ↔ set c := by
  obtain ⟨ranges, ranges', hbody, hread, hin⟩ := h.read
  refine ⟨_, fun c => ranges'.any fun x => x.1 ≤ c && c ≤ x.2, .cls hp hbody, ?_,
    fun c => (hin c).symm⟩
  obtain ⟨c, p, rfl⟩ : ∃ c t, p = c :: t := by cases h <;> exact ⟨_, _, rfl⟩
  rw [readClass, if_neg (fun h => hp (congrArg some h)), hread]
  rfl

/-- The end of the pattern, another star or an ordinary byte: what may stand behind a
    star without being misread. -/
def SafeBehindStar (p : Bytes) : Prop := p = [] ∨ ∃ c q, p = c :: q ∧ (c = 42 ∨ Ordinary c)

/-- Patterns without a backslash outside of a class, with plain classes, and with
    something safe behind their stars. -/
inductive Plain : Bytes → Prop
  | nil : Plain []
  | star {p : Bytes} (hp : SafeBehindStar p) (h : Plain p) : Plain (42 :: p)
  | any {p : Bytes} (h : Plain p) : Plain (63 :: p)
  | cls {p q : Bytes} (hp : p.head? ≠ some 94) (hbody : PlainClass p q) (h : Plain q) :
      Plain (91 :: p)
  | notCls {p q : Bytes} (hbody : PlainClass p q) (h : Plain q) : Plain (91 :: 94 :: p)
  | lit {c : UInt8} {p : Bytes} (hc : Ordinary c) (h : Plain p) : Plain (c :: p)

/-- A token of a pattern without stars: the bytes it stands for, and the test the code
    makes of the next byte.  The code takes no byte for an escape. -/
structure Token where
  doc : UInt8 → Prop
  code : Option (UInt8 → Bool)

/-- The code takes a byte for the token, and it is this one. -/
def Token.Passes (t : Token) (d : UInt8) : Prop := t.code.any (fun test => test d) = true

/-- The token is read as documented. -/
def Token.Same (t : Token) : Prop := t.code ≠ none ∧ ∀ d, t.doc d ↔ t.Passes d

section Starless

variable {p s : Bytes} {ts : List Token}

/-- The answers of `PatternMatch` are those of the documented rules. -/
def RightOn (pattern src : Bytes) : Prop :=
  ∀ b, patternMatch pattern src = some b → (b = true ↔ Lang pattern src)

end Starless

/-- No condition on the tokens one by one is exact once there are stars: in `*?` the
    `?` is misread as a byte to look for, but every string that ends in another byte
    makes the search run off, so that no answer is wrong. -/
theorem star_any_right (src : Bytes) : RightOn [42, 63] src := by
  intro b hb
  have hread : readPattern [42, 63] = .seek (fun d => d == 63) .done :=
    readPattern_seek (by decide)
  rw [patternMatch_eq_true hb, hread, lang_star_iff]
  constructor
  · rintro ⟨u, d, v, rfl, -, rfl⟩
    exact ⟨u, [d], rfl, .any d .nil⟩
  · rintro ⟨u, v, rfl, h⟩
    obtain ⟨d, t, rfl, ht⟩ := lang_any_iff.mp h
    cases ht
    have hreturns := (patternMatch_returns _ _).mp ⟨b, hb⟩
    rw [Returns, hread] at hreturns
    by_cases hd : d = 63
    · exact ⟨u, d, [], rfl, by simpa using hd, rfl⟩
    -- the search for `?` runs off the end of `src`
    · exact hreturns.resolve_right (not_not.mpr (Or.inl ⟨u, d, rfl, by simpa using hd⟩))

end TinyDb
