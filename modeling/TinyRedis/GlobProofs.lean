import TinyRedis.GlobSearchProofs
import TinyRedis.ExpiryProofs
import TinyRedis.CommandRunsProofs

/-! # PatternMatch

    `readPattern` is a glob pattern as `PatternMatch` reads it, and `PatternMatch` is
    the search for it: it returns true exactly on the strings of that pattern.  If the
    byte behind a run of stars is not found any more, the code slices behind the end of
    the source.  Where the code's reading differs from the documented one is the
    subject of `GlobCorrectProofs`. -/

namespace TinyDb

open GoString GoFloat GoProgram.Prog TinyResp GlobSearch

/-! ## The pattern as the code reads it -/

/-- The text of a class as the code reads it: its ranges, and what is behind `]`;
    none if it is not closed or a range is cut short.  `prev` is the byte before. -/
def classRanges : UInt8 → Bytes → Option (List (UInt8 × UInt8) × Bytes)
  | _, [] => none
  | prev, p :: ps =>
    if p = 92 then
      match ps with
      | [] => none
      | q :: qs => (classRanges q qs).map fun r => ((q, q) :: r.1, r.2)
    else if p = 93 then some ([], ps)
    else if p = 45 then
      match ps with
      | [] => none
      | q :: qs =>
        if q = 93 then none
        else (classRanges q qs).map fun r => ((prev, q) :: r.1, r.2)
    else (classRanges p ps).map fun r => ((p, p) :: r.1, r.2)

section ClassRanges

variable {prev p q : UInt8} {ps : Bytes}

theorem classRanges_close : classRanges prev (93 :: ps) = some ([], ps) := by
  rw [classRanges.eq_def]
  rfl

theorem classRanges_escape :
    classRanges prev (92 :: q :: ps) = (classRanges q ps).map fun r => ((q, q) :: r.1, r.2) := by
  rw [classRanges.eq_def]
  rfl

theorem classRanges_dash (hq : q ≠ 93) :
    classRanges prev (45 :: q :: ps) =
      (classRanges q ps).map fun r => ((prev, q) :: r.1, r.2) := by
  rw [classRanges.eq_def]
  exact if_neg hq

theorem classRanges_plain (h : p ≠ 92) (h' : p ≠ 93) (h'' : p ≠ 45) :
    classRanges prev (p :: ps) = (classRanges p ps).map fun r => ((p, p) :: r.1, r.2) := by
  rw [classRanges.eq_def]
  exact (if_neg h).trans ((if_neg h').trans (if_neg h''))

end ClassRanges

/-- The class behind `[` as the code reads it: a test, and what is behind `]`. -/
def readClass : Bytes → Option ((UInt8 → Bool) × Bytes)
  | [] => none
  | q :: qs =>
    if q = 94 then
      (classRanges 94 qs).map fun r => (fun c => !r.1.any fun x => x.1 ≤ c && c ≤ x.2, r.2)
    else
      (classRanges 91 (q :: qs)).map fun r => (fun c => r.1.any fun x => x.1 ≤ c && c ≤ x.2, r.2)

/-- The pattern as the code reads it. -/
def readPatternAux : Nat → Bytes → Pat UInt8
  | _, [] => .done
  | 0, _ => .fail
  | fuel + 1, p :: ps =>
    if p = 42 then
      match ps.dropWhile fun q => q == 42 with
      | [] => .stars
      | q :: qs => .seek (fun c => c == q) (readPatternAux fuel qs)
    else if p = 63 then .one (fun _ => true) (readPatternAux fuel ps)
    else if p = 91 then
      match readClass ps with
      | none => .fail
      | some (test, rest) => .one test (readPatternAux fuel rest)
    else if p = 92 then
      match ps with
      | [] => .fail
      | _ :: qs => .skip (readPatternAux fuel qs)
    else .one (fun c => c == p) (readPatternAux fuel ps)

/-- `readPatternAux` with enough fuel. -/
def readPattern (pattern : Bytes) : Pat UInt8 := readPatternAux pattern.length pattern

/-! ## PatternMatch is the search for it -/

/-- The range from a byte to itself. -/
theorem single_range (q c : UInt8) : (decide (q ≤ c) && decide (c ≤ q)) = (q == c) := by
  rw [Bool.eq_iff_iff]
  simp only [Bool.and_eq_true, decide_eq_true_eq, beq_iff_eq]
  exact ⟨fun h => UInt8.le_antisymm h.1 h.2, fun h => h ▸ ⟨UInt8.le_refl _, UInt8.le_refl _⟩⟩

theorem classLoop_eq (c : UInt8) (ps : Bytes) (prev : UInt8) (matched : Bool) :
    classLoop c prev ps matched = (classRanges prev ps).map fun r =>
      (matched || r.1.any fun x => x.1 ≤ c && c ≤ x.2, r.2) := by
  fun_induction classLoop c prev ps matched with
  | case1 prev matched => rfl
  | case2 prev matched => rfl
  | case3 prev matched q qs ih =>
    rw [ih, classRanges_escape, Option.map_map]
    simp only [Function.comp_def, List.any_cons, single_range, Bool.or_assoc]
  | case4 prev ps matched h =>
    rw [classRanges_close, Option.map_some, List.any_nil, Bool.or_false]
  | case5 prev matched h h' => rfl
  | case6 prev matched qs h h' => rfl
  | case7 prev matched q qs hq h h' ih =>
    rw [ih, classRanges_dash hq, Option.map_map]
    simp only [Function.comp_def, List.any_cons, Bool.or_assoc]
  | case8 prev p ps matched h h' h'' ih =>
    rw [ih, classRanges_plain h h' h'', Option.map_map]
    simp only [Function.comp_def, List.any_cons, single_range, Bool.or_assoc]

theorem starLoop_eq (q : UInt8) (rest : Bytes → Option Bool) (moved : Bool) (s : Bytes) :
    starLoop q rest moved s = Pat.seekLoop (fun c => c == q) rest moved s := by
  induction s generalizing moved with
  | nil => rfl
  | cons c s ih =>
    rw [starLoop, Pat.seekLoop, ih, ih]
    rcases rest s with _ | _ | _ <;> simp only [beq_iff_eq]

/-- The text behind a class is shorter. -/
theorem length_of_classRanges {prev : UInt8} {ps : Bytes} {r : List (UInt8 × UInt8) × Bytes}
    (h : classRanges prev ps = some r) : r.2.length < ps.length := by
  fun_induction classRanges prev ps generalizing r with
  | case1 prev => cases h
  | case2 prev => cases h
  | case3 prev q qs ih =>
    obtain ⟨r', hr', rfl⟩ := Option.map_eq_some_iff.mp h
    have := ih hr'
    simp only [List.length_cons]
    omega
  | case4 prev ps _ =>
    cases h
    simp
  | case5 => cases h
  | case6 => cases h
  | case7 prev q qs _ _ _ ih =>
    obtain ⟨r', hr', rfl⟩ := Option.map_eq_some_iff.mp h
    have := ih hr'
    simp only [List.length_cons]
    omega
  | case8 prev p ps _ _ _ ih =>
    obtain ⟨r', hr', rfl⟩ := Option.map_eq_some_iff.mp h
    have := ih hr'
    simp only [List.length_cons]
    omega

theorem length_of_readClass {ps : Bytes} {r : (UInt8 → Bool) × Bytes} (h : readClass ps = some r) :
    r.2.length < ps.length := by
  cases ps with
  | nil => cases h
  | cons q qs =>
    rw [readClass] at h
    split at h
    · obtain ⟨r', hr', rfl⟩ := Option.map_eq_some_iff.mp h
      have := length_of_classRanges hr'
      simp only [List.length_cons]
      omega
    · obtain ⟨r', hr', rfl⟩ := Option.map_eq_some_iff.mp h
      exact length_of_classRanges hr'

/-- The class in `PatternMatch`, by the test it amounts to. -/
theorem class_read (c q : UInt8) (qs : Bytes) :
    (if q = 94 then classLoop c 94 qs false else classLoop c 91 (q :: qs) false) =
      (readClass (q :: qs)).map fun r => (r.1 c != decide (q = 94), r.2) := by
  rw [readClass, classLoop_eq, classLoop_eq]
  by_cases hq : q = 94
  · simp only [hq, if_true, Option.map_map, Function.comp_def, Bool.false_or, decide_true,
      Bool.bne_true, Bool.not_not]
  · simp only [hq, if_false, Option.map_map, Function.comp_def, Bool.false_or, decide_false,
      Bool.bne_false]

/-- What is left when the source has been consumed must be stars. -/
theorem search_nil (fuel : Nat) (pattern : Bytes) (hfuel : pattern.length ≤ fuel) :
    (readPatternAux fuel pattern).search [] = some (pattern.all fun p => p == 42) := by
  cases pattern with
  | nil => cases fuel <;> rfl
  | cons p ps =>
    obtain ⟨fuel, rfl⟩ : ∃ n, fuel = n + 1 := ⟨fuel - 1, by simp at hfuel; omega⟩
    rw [readPatternAux.eq_def, List.all_cons]
    dsimp only
    by_cases hstar : p = 42
    · rw [if_pos hstar]
      cases hdrop : ps.dropWhile fun q => q == 42 with
      | nil =>
        have hall : ps.all (fun q => q == 42) = true := by
          simpa [List.all_eq_true] using List.dropWhile_eq_nil_iff.mp hdrop
        simp [Pat.search, hstar, hall]
      | cons q qs =>
        have hall : ps.all (fun q => q == 42) = false := by
          rw [← Bool.not_eq_true, List.all_eq_true]
          intro hall
          rw [List.dropWhile_eq_nil_iff.mpr hall] at hdrop
          cases hdrop
        simp [Pat.search, hall]
    · have hp : (p == 42) = false := by simpa using hstar
      rw [if_neg hstar, hp, Bool.false_and]
      by_cases hany : p = 63
      · rw [if_pos hany]
        rfl
      rw [if_neg hany]
      by_cases hclass : p = 91
      · rw [if_pos hclass]
        rcases readClass ps with _ | ⟨test, rest⟩ <;> rfl
      rw [if_neg hclass]
      by_cases hescape : p = 92
      · rw [if_pos hescape]
        cases ps <;> rfl
      · rw [if_neg hescape]
        rfl

/-- **`PatternMatch` searches for the pattern it reads.** -/
theorem patternMatchAux_eq (fuel : Nat) (pattern src : Bytes) (hfuel : pattern.length ≤ fuel) :
    patternMatchAux fuel pattern src = (readPatternAux fuel pattern).search src := by
  induction fuel generalizing pattern src with
  | zero =>
    obtain rfl : pattern = [] := List.eq_nil_of_length_eq_zero (Nat.le_zero.mp hfuel)
    cases src <;> rfl
  | succ fuel ih =>
    cases pattern with
    | nil => cases src <;> rfl
    | cons p ps =>
      rw [List.length_cons] at hfuel
      cases src with
      | nil => exact (search_nil (fuel + 1) (p :: ps) (by rw [List.length_cons]; omega)).symm
      | cons c s =>
        rw [patternMatchAux.eq_def, readPatternAux.eq_def]
        dsimp only
        by_cases hstar : p = 42
        · rw [if_pos hstar, if_pos hstar]
          have hlen : (ps.dropWhile fun q => q == 42).length ≤ ps.length :=
            (List.dropWhile_suffix _).length_le
          cases hdrop : ps.dropWhile fun q => q == 42 with
          | nil => rfl
          | cons q qs =>
            rw [hdrop, List.length_cons] at hlen
            have hrest : patternMatchAux fuel qs = (readPatternAux fuel qs).search :=
              funext fun v => ih qs v (by omega)
            dsimp only
            rw [starLoop_eq, hrest]
            rfl
        rw [if_neg hstar, if_neg hstar]
        by_cases hany : p = 63
        · rw [if_pos hany, if_pos hany, ih ps s (by omega)]
          rfl
        rw [if_neg hany, if_neg hany]
        by_cases hclass : p = 91
        · rw [if_pos hclass, if_pos hclass]
          cases ps with
          | nil => rfl
          | cons q qs =>
            dsimp only
            rw [class_read]
            cases hread : readClass (q :: qs) with
            | none => rfl
            | some r =>
              obtain ⟨test, rest⟩ := r
              have hlen := length_of_readClass hread
              have hrest := ih rest s (by dsimp only at hlen; omega)
              rw [Option.map_some]
              dsimp only [Pat.search]
              rw [hrest]
              by_cases hq : q = 94
              · cases test c <;> simp [hq]
              · cases test c <;> simp [hq]
        rw [if_neg hclass, if_neg hclass]
        by_cases hescape : p = 92
        · rw [if_pos hescape, if_pos hescape]
          cases ps with
          | nil => rfl
          | cons q qs =>
            rw [List.length_cons] at hfuel
            exact ih qs (c :: s) (by omega)
        · rw [if_neg hescape, if_neg hescape, ih ps s (by omega)]
          dsimp only [Pat.search]
          by_cases hc : p = c
          · simp [hc]
          · simp [hc, Ne.symm hc]

theorem patternMatch_eq (pattern src : Bytes) :
    patternMatch pattern src = (readPattern pattern).search src :=
  patternMatchAux_eq _ pattern src le_rfl

/-- When `PatternMatch` returns, its answer is that of the pattern it reads. -/
theorem patternMatch_eq_true {pattern src : Bytes} {b : Bool}
    (h : patternMatch pattern src = some b) : b = true ↔ (readPattern pattern).Matches src := by
  rw [← Pat.search_eq_true, ← patternMatch_eq, h, Option.some_inj]

/-! ## When it returns -/

/-- Fuel beyond the length of the pattern changes nothing. -/
theorem readPatternAux_fuel {fuel fuel' : Nat} {p : Bytes} (h : p.length ≤ fuel)
    (h' : p.length ≤ fuel') : readPatternAux fuel p = readPatternAux fuel' p := by
  induction fuel generalizing fuel' p with
  | zero =>
    obtain rfl : p = [] := List.eq_nil_of_length_eq_zero (Nat.le_zero.mp h)
    cases fuel' <;> rfl
  | succ fuel ih =>
    cases p with
    | nil => cases fuel' <;> rfl
    | cons p ps =>
      rw [List.length_cons] at h h'
      obtain ⟨fuel', rfl⟩ : ∃ n, fuel' = n + 1 := ⟨fuel' - 1, by omega⟩
      have hrest : ∀ qs : Bytes, qs.length ≤ ps.length →
          readPatternAux fuel qs = readPatternAux fuel' qs := by
        intro qs hlen
        exact ih (by omega) (by omega)
      have hdrop : (ps.dropWhile fun q => q == 42).length ≤ ps.length :=
        (List.dropWhile_suffix _).length_le
      have hclass : ∀ r, readClass ps = some r → r.2.length ≤ ps.length :=
        fun r hr => (length_of_readClass hr).le
      rw [readPatternAux.eq_def, readPatternAux.eq_def (fuel' + 1)]
      dsimp only
      rw [hrest ps le_rfl]
      split_ifs
      · cases hstar : ps.dropWhile fun q => q == 42 with
        | nil => rfl
        | cons q qs =>
          rw [hstar, List.length_cons] at hdrop
          dsimp only
          rw [hrest qs (by omega)]
      · rfl
      · cases hr : readClass ps with
        | none => rfl
        | some r => exact congrArg (Pat.one r.1) (hrest r.2 (hclass r hr))
      · cases ps with
        | nil => rfl
        | cons q qs => exact congrArg Pat.skip (hrest qs (Nat.le_succ _))
      · rfl

/-- The fuel of `PatternMatch` does not run out. -/
theorem patternMatchAux_fuel {fuel : Nat} {pattern : Bytes} (h : pattern.length ≤ fuel)
    (src : Bytes) : patternMatchAux fuel pattern src = patternMatch pattern src := by
  rw [patternMatchAux_eq fuel pattern src h, patternMatch_eq, readPatternAux_fuel h le_rfl]
  rfl

/-- The strings on which the search for the pattern comes to an end: those that the
    pattern matches, and those on which it never looks for a byte that is not there. -/
def Returns (pattern src : Bytes) : Prop :=
  (readPattern pattern).Matches src ∨ ¬ (readPattern pattern).RunsOff src

theorem patternMatch_returns (pattern src : Bytes) :
    (∃ b, patternMatch pattern src = some b) ↔ Returns pattern src := by
  rw [patternMatch_eq, ← Option.isSome_iff_exists, ← not_iff_not, Option.not_isSome_iff_eq_none,
    Pat.search_eq_none, Returns, not_or, not_not]

section Keys

variable {F : Type} [UnicodeTables]

omit [UnicodeTables] in
/-- The loop of KEYS returns exactly if `PatternMatch` does on every key that is
    still there when its turn comes. -/
theorem run_keysLoop (env : Env) (pattern : Bytes) (keys res : List Bytes) (w : World F) :
    (∃ found, ((keysLoop pattern keys res : Cmd F reads _).run (Op.step env) w).1 = .ok found) ↔
      ∀ key ∈ w.store.kept (checksFrom env w.tick (keys.map some)), Returns pattern key := by
  induction keys generalizing res w with
  | nil => simp [keysLoop, checksFrom, Store.kept]
  | cons key rest ih =>
    have hkept : w.store.kept (checksFrom env w.tick ((key :: rest).map some)) =
        if (w.store.checkTTL key (env.clock w.tick)).1 then
          key :: (w.store.checkTTL key (env.clock w.tick)).2.kept
            (checksFrom env (w.tick + 1) (rest.map some))
        else (w.store.checkTTL key (env.clock w.tick)).2.kept
          (checksFrom env (w.tick + 1) (rest.map some)) := rfl
    rw [keysLoop, run_checkTTL_bind, hkept]
    by_cases hlive : (w.store.checkTTL key (env.clock w.tick)).1 = true
    · rw [if_pos hlive, if_pos hlive, List.forall_mem_cons, ← patternMatch_returns pattern key]
      rcases hmatch : patternMatch pattern key with _ | _ | _
      · simp [goPanic]
      · simpa using ih res _
      · simpa using ih (res ++ [key]) _
    · rw [if_neg hlive, if_neg hlive]
      exact ih res _

theorem keysKey_eq {name : Option Bytes} (hname : toLower (str name) = ascii "keys")
    (pattern : Option Bytes) : (keysKey [name, pattern] : Cmd F _ Reply) =
      .op (.keys rfl) fun allKeys =>
        keysLoop (str pattern) allKeys [] >>= fun res => .ret (bulksReply (res.map some)) := by
  rw [keysKey, if_neg (by simp), strAt_bind rfl, if_neg (not_not.mpr hname)]
  rfl

/-- **When KEYS and `PatternMatch` return.**  `PatternMatch` comes to an end without
    slicing behind the end of the source exactly on the strings of `Returns`, and KEYS
    replies exactly if these include every key that passes its check. -/
theorem patternMatch_returns_iff [FloatText F] (host : Host) (env : Env) (w : World F)
    (name pattern : Option Bytes) (hname : toLower (str name) = ascii "keys") :
    (∀ pattern src : Bytes,
      (∃ b, ∀ fuel, pattern.length ≤ fuel → patternMatchAux fuel pattern src = some b) ↔
        Returns pattern src) ∧
      ((∃ reply, (execCommand host env [name, pattern] w).1 = .ok reply) ↔
        ∀ key ∈ w.store.kept (checksFrom env (w.tick + 1)
          ((env.order w.draws w.store.db.keys).map some)), Returns (str pattern) key) := by
  constructor
  · intro pattern src
    rw [← patternMatch_returns]
    refine exists_congr fun b => ⟨fun h => h _ le_rfl, fun h fuel hfuel => ?_⟩
    rw [patternMatchAux_fuel hfuel, h]
  · have hmem : Registered F host "keys" keysKey := by simp [Registered, cmdTable]
    rw [execCommand_of_mem hmem (List.cons_ne_nil _ _) hname, ← run_keysLoop env (str pattern) _ []
      ⟨w.store, w.tick + 1, w.draws + 1⟩]
    dsimp only
    rw [keysKey_eq hname, run_op, Op.step_keys, run_bind]
    dsimp only
    generalize (keysLoop (str pattern) (env.order w.draws w.store.db.keys) [] : Cmd F _ _).run
      (Op.step env) ⟨w.store, w.tick + 1, w.draws + 1⟩ = r
    obtain ⟨_ | found, w'⟩ := r
    · exact iff_of_false (by rintro ⟨_, h⟩; cases h) (by rintro ⟨_, h⟩; cases h)
    · exact iff_of_true ⟨_, rfl⟩ ⟨_, rfl⟩

end Keys

/-- KEYS `h*lo` replies over the keys `hello` and `halo`: an `l` is behind each `h`, and
    in the first key the search goes on from the `l` that is not followed by `o`. -/
theorem keys_hello_replies :
    letI := asciiTables
    let w := stateAfter (words ["MSET", "hello", "1", "halo", "2"])
    Returns (ascii "h*lo") (ascii "hello") ∧ Returns (ascii "h*lo") (ascii "halo") ∧
      ∃ reply, (execStill (words ["KEYS", "h*lo"]) w).1 =
        .ok reply := by
  intro w
  have hhello : Returns (ascii "h*lo") (ascii "hello") :=
    (patternMatch_returns _ _).mp ⟨true, rfl⟩
  have hhalo : Returns (ascii "h*lo") (ascii "halo") :=
    (patternMatch_returns _ _).mp ⟨true, rfl⟩
  refine ⟨hhello, hhalo, (@patternMatch_returns_iff IntScore asciiTables _ quietHost stillEnv w
    (some (ascii "KEYS")) (some (ascii "h*lo")) (by decide)).2.mpr fun key hkey => ?_⟩
  have hkept : w.store.kept (checksFrom stillEnv (w.tick + 1)
      ((stillEnv.order w.draws w.store.db.keys).map some)) = [ascii "halo", ascii "hello"] := rfl
  rw [hkept, List.mem_pair] at hkey
  rcases hkey with rfl | rfl
  · exact hhalo
  · exact hhello

/-- KEYS `*a` panics when `b` is the only key: no `a` is behind the star, and the
    source is sliced behind its end. -/
theorem keys_star_panics :
    letI := asciiTables
    let w := stateAfter (words ["SET", "b", "1"])
    patternMatch (ascii "*a") (ascii "b") = none ∧
      (execStill (words ["KEYS", "*a"]) w).1 =
        .error .panic :=
  ⟨rfl, rfl⟩

end TinyDb
