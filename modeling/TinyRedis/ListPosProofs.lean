import TinyRedis.CommandRunsProofs

/-! # LPOS: the positions of an element

    The specification looks at the elements in the order of the scan, from the head or
    from the tail, with their positions: it takes the first MAXLEN of them, keeps the
    matches, skips the first |RANK| - 1 of these and gives the first one or the first
    COUNT.  The code runs one of two rank loops and then one of three loops more, which
    take over a node, its position and what the rank loop has left of MAXLEN. -/

namespace TinyDb

open GoString GoStrconv GoFloat GoProgram.Prog TinyResp TinyZSet

variable {F : Type} {v : Option Bytes} {budget dir r : Int} {k : Nat} {limit : Bool}

/-! ## The specification -/

/-- The positions that are left after the skipped ones, in the order of the scan. -/
def lPosRemaining (vals : List (Option Bytes)) (elem : Bytes) (o : LPosOptions) : List Int :=
  let places := vals.zipIdx.map fun x => (x.1, (x.2 : Int))
  let met := if o.rank.any fun r => decide (r < 0) then places.reverse else places
  let scanned := if o.maxLen.getD 0 = 0 then met else met.take (o.maxLen.getD 0).toNat
  let found := (scanned.filter fun x => str x.1 = elem).map Prod.snd
  found.drop ((o.rank.getD 1).natAbs - 1)

/-- A reply with one position. -/
def positionReply : Option Int → Reply
  | some pos => intReply pos
  | none => bulkReply none

/-- A reply with several. -/
def positionsReply (positions : List Int) : Reply :=
  if positions = [] then bulkReply none
  else some (.arrayData (positions.map fun pos => .intData (Int64.ofInt pos)))

/-- The reply with them: the first one without COUNT, and so many of them or all with
    it; null if there are none. -/
def lPosReply (count : Option Int) (remaining : List Int) : Reply :=
  match count with
  | none => positionReply remaining.head?
  | some count => positionsReply (if count = 0 then remaining else remaining.take count.toNat)

/-- The reply to LPOS. -/
def lPosSpec (vals : List (Option Bytes)) (elem : Bytes) (o : LPosOptions) : Reply :=
  lPosReply o.count (lPosRemaining vals elem o)

/-- The options of a call: pairs of a name and a number, where a later one replaces an
    earlier one of the same name. -/
inductive Asks [UnicodeTables] : List (Option Bytes) → LPosOptions → LPosOptions → Prop
  | done (o : LPosOptions) : Asks [] o o
  | rank {name val : Option Bytes} {rest : List (Option Bytes)} {o o' : LPosOptions} {r : Int}
      (hname : toLower (str name) = ascii "rank") (hval : atoi (str val) = .ok r) (hr : r ≠ 0)
      (h : Asks rest { o with rank := some r } o') : Asks (name :: val :: rest) o o'
  | count {name val : Option Bytes} {rest : List (Option Bytes)} {o o' : LPosOptions} {c : Int}
      (hname : toLower (str name) = ascii "count") (hval : atoi (str val) = .ok c) (hc : 0 ≤ c)
      (h : Asks rest { o with count := some c } o') : Asks (name :: val :: rest) o o'
  | maxLen {name val : Option Bytes} {rest : List (Option Bytes)} {o o' : LPosOptions} {m : Int}
      (hname : toLower (str name) = ascii "maxlen") (hval : atoi (str val) = .ok m) (hm : 0 ≤ m)
      (h : Asks rest { o with maxLen := some m } o') : Asks (name :: val :: rest) o o'

/-! ## The matches along a scan -/

/-- Elements with their positions, which go up or down. -/
def placed (dir : Int) : List (Option Bytes) → Int → List (Option Bytes × Int)
  | [], _ => []
  | v :: vs, pos => (v, pos) :: placed dir vs (pos + dir)

/-- The positions of the matches. -/
def hits (elem : Bytes) (dir : Int) (xs : List (Option Bytes)) (pos : Int) : List Int :=
  ((placed dir xs pos).filter fun x => str x.1 = elem).map Prod.snd

/-- The elements that MAXLEN lets the scan look at. -/
def within (maxLen : Bool) (budget : Int) (xs : List (Option Bytes)) : List (Option Bytes) :=
  if maxLen then xs.take budget.toNat else xs

section Scans

variable {elem : Bytes} {dir pos : Int} {maxLen : Bool}

theorem placed_append (xs ys : List (Option Bytes)) (pos : Int) :
    placed dir (xs ++ ys) pos = placed dir xs pos ++ placed dir ys (pos + dir * xs.length) := by
  induction xs generalizing pos with
  | nil => simp [placed]
  | cons v vs ih =>
    have hpos : pos + dir + dir * vs.length = pos + dir * ((v :: vs).length : Int) := by
      rw [List.length_cons]
      push_cast
      ring
    rw [List.cons_append, placed, ih, hpos]
    rfl

theorem take_placed (n : Nat) (xs : List (Option Bytes)) (pos : Int) :
    (placed dir xs pos).take n = placed dir (xs.take n) pos := by
  induction n generalizing xs pos with
  | zero => rfl
  | succ n ih =>
    cases xs with
    | nil => rfl
    | cons v vs => rw [placed, List.take_succ_cons, List.take_succ_cons, placed, ih]

/-- The elements from the head. -/
theorem zipIdx_placed (vals : List (Option Bytes)) (n : Nat) :
    ((vals.zipIdx n).map fun x => (x.1, (x.2 : Int))) = placed 1 vals n := by
  induction vals generalizing n with
  | nil => rfl
  | cons v vs ih =>
    rw [List.zipIdx_cons, List.map_cons, ih, placed]
    rfl

/-- The elements from the tail. -/
theorem reverse_placed (vals : List (Option Bytes)) (pos : Int) :
    (placed 1 vals pos).reverse = placed (-1) vals.reverse (pos + vals.length - 1) := by
  induction vals generalizing pos with
  | nil => rfl
  | cons v vs ih =>
    have hstart : pos + 1 + vs.length - 1 = pos + ((v :: vs).length : Int) - 1 := by
      rw [List.length_cons]
      push_cast
      ring
    have hlast : pos + ((v :: vs).length : Int) - 1 + -1 * vs.reverse.length = pos := by
      rw [List.length_cons, List.length_reverse]
      push_cast
      ring
    rw [placed, List.reverse_cons, ih, List.reverse_cons, placed_append, hstart, hlast]
    rfl

theorem hits_cons_match (h : str v = elem) (vs : List (Option Bytes)) (pos : Int) :
    hits elem dir (v :: vs) pos = pos :: hits elem dir vs (pos + dir) := by
  rw [hits, placed, List.filter_cons_of_pos (by simpa using h)]
  rfl

theorem hits_cons_other (h : str v ≠ elem) (vs : List (Option Bytes)) (pos : Int) :
    hits elem dir (v :: vs) pos = hits elem dir vs (pos + dir) := by
  rw [hits, placed, List.filter_cons_of_neg (by simpa using h)]
  rfl

theorem hits_append (xs ys : List (Option Bytes)) (pos : Int) :
    hits elem dir (xs ++ ys) pos = hits elem dir xs pos ++ hits elem dir ys
      (pos + dir * xs.length) := by
  rw [hits, placed_append, List.filter_append, List.map_append]
  rfl

theorem hits_cons (v : Option Bytes) (vs : List (Option Bytes)) (pos : Int) :
    hits elem dir (v :: vs) pos = hits elem dir [v] pos ++ hits elem dir vs (pos + dir) := by
  have happend : hits elem dir ([v] ++ vs) pos = _ := hits_append [v] vs pos
  rwa [List.length_singleton, Nat.cast_one, mul_one] at happend

theorem within_cons (h : maxLen = true → 0 ≤ budget) (v : Option Bytes) (vs : List (Option Bytes)) :
    within maxLen (budget + 1) (v :: vs) = v :: within maxLen budget vs := by
  cases maxLen with
  | false => rfl
  | true =>
    have hnat : (budget + 1).toNat = budget.toNat + 1 := by
      have := h rfl
      omega
    rw [within, if_pos rfl, hnat, List.take_succ_cons]
    rfl

theorem within_append {xs ys : List (Option Bytes)}
    (h : maxLen = true → (xs.length : Int) ≤ budget) :
    within maxLen budget (xs ++ ys) = xs ++ within maxLen (budget - xs.length) ys := by
  cases maxLen with
  | false => rfl
  | true =>
    have hle := h rfl
    have hnat : budget.toNat = xs.length + (budget - xs.length).toNat := by omega
    rw [within, if_pos rfl, hnat, List.take_length_add_append]
    rfl

theorem within_nil (budget : Int) : within maxLen budget [] = [] := by
  unfold within
  split
  · exact List.take_nil
  · rfl

theorem within_congr {budget budget' : Int} (h : maxLen = true → budget = budget')
    (xs : List (Option Bytes)) : within maxLen budget xs = within maxLen budget' xs := by
  cases maxLen with
  | false => rfl
  | true => rw [h rfl]

theorem within_zero (xs : List (Option Bytes)) : within true 0 xs = [] := rfl

/-- The loop with COUNT. -/
theorem countScan_eq (xs : List (Option Bytes)) (pos : Int) {count budget : Int}
    (hcount : 0 ≤ count) (hbudget : maxLen = true → 0 ≤ budget) :
    countScan elem maxLen dir xs pos count budget =
      (hits elem dir (within maxLen (budget + 1) xs) pos).take count.toNat := by
  induction xs generalizing pos count budget with
  | nil =>
    rw [within_nil]
    simp [countScan, hits, placed]
  | cons v vs ih =>
    rw [within_cons hbudget]
    by_cases hzero : count = 0
    · rw [countScan, if_pos hzero, hzero]
      rfl
    -- what follows the element: nothing once the budget is spent
    have hrest : ∀ c : Int, 0 ≤ c →
        (if maxLen = true ∧ budget ≤ 0 then []
          else countScan elem maxLen dir vs (pos + dir) c (budget - 1)) =
        (hits elem dir (within maxLen budget vs) (pos + dir)).take c.toNat := by
      intro c hc
      by_cases hspent : maxLen = true ∧ budget ≤ 0
      · obtain rfl := hspent.1
        obtain rfl : budget = 0 := le_antisymm hspent.2 (hbudget rfl)
        rw [if_pos hspent, within_zero]
        simp [hits, placed]
      · have hleft : maxLen = true → 0 ≤ budget - 1 := by
          intro hmax
          have : ¬ budget ≤ 0 := fun hle => hspent ⟨hmax, hle⟩
          omega
        rw [if_neg hspent, ih (pos + dir) hc hleft, Int.sub_add_cancel]
    by_cases hv : str v = elem
    · have hnat : count.toNat = (count - 1).toNat + 1 := by omega
      rw [countScan, if_neg hzero, hits_cons_match hv, hnat, List.take_succ_cons]
      simp only [hv, decide_true, if_true]
      rw [hrest (count - 1) (by omega)]
    · rw [countScan, if_neg hzero, hits_cons_other hv]
      simp only [hv, decide_false, Bool.false_eq_true, if_false]
      exact hrest count hcount

/-- The loop without COUNT. -/
theorem firstScan_eq (xs : List (Option Bytes)) (pos : Int) {budget : Int}
    (hbudget : maxLen = true → 0 ≤ budget) : firstScan elem maxLen xs pos budget =
      (hits elem 1 (within maxLen (budget + 1) xs) pos).head? := by
  induction xs generalizing pos budget with
  | nil =>
    rw [within_nil]
    rfl
  | cons v vs ih =>
    rw [within_cons hbudget]
    by_cases hv : str v = elem
    · rw [firstScan, if_pos hv, hits_cons_match hv]
      rfl
    · rw [firstScan, if_neg hv, hits_cons_other hv]
      by_cases hspent : maxLen = true ∧ budget ≤ 0
      · obtain rfl := hspent.1
        obtain rfl : budget = 0 := le_antisymm hspent.2 (hbudget rfl)
        rw [if_pos hspent, within_zero]
        rfl
      · have hleft : maxLen = true → 0 ≤ budget - 1 := by
          intro hmax
          have : ¬ budget ≤ 0 := fun hle => hspent ⟨hmax, hle⟩
          omega
        rw [if_neg hspent, ih (pos + 1) hleft, Int.sub_add_cancel]

/-- The search without options. -/
theorem findIdx_eq (elem : Bytes) (xs : List (Option Bytes)) (pos : Int) :
    (xs.findIdx? fun v => str v = elem).map (fun i : Nat => pos + (i : Int)) =
      (hits elem 1 xs pos).head? := by
  induction xs generalizing pos with
  | nil => rfl
  | cons v vs ih =>
    by_cases hv : str v = elem
    · rw [hits_cons_match hv, List.findIdx?_cons, if_pos (by simpa using hv)]
      simp
    · rw [hits_cons_other hv, ← ih, List.findIdx?_cons, if_neg (by simpa using hv), Option.map_map]
      congr 1
      funext i
      simp only [Function.comp_apply]
      push_cast
      ring

/-- The state after one turn of the rank loop. -/
def LPosState.turn (elem : Bytes) (maxLen : Bool) (dir : Int) (v : Option Bytes) (st : LPosState) :
    LPosState :=
  ⟨st.now, st.pos + dir, if str v = elem then st.rankVal - dir else st.rankVal,
    if maxLen then st.maxLenVal - 1 else st.maxLenVal⟩

theorem rankScan_cons (v : Option Bytes) (vs : List (Option Bytes)) (st : LPosState) :
    rankScan elem maxLen dir (v :: vs) st =
      if (maxLen = true ∧ (st.turn elem maxLen dir v).maxLenVal = 0) ∨
          (st.turn elem maxLen dir v).rankVal = 0 then st.turn elem maxLen dir v
      else rankScan elem maxLen dir vs
        { st.turn elem maxLen dir v with now := (st.turn elem maxLen dir v).now + dir } := rfl

/-- What a turn takes of MAXLEN. -/
theorem within_turn {st : LPosState} (h : maxLen = true → 1 ≤ st.maxLenVal) (v : Option Bytes)
    (vs : List (Option Bytes)) : within maxLen st.maxLenVal (v :: vs) =
      v :: within maxLen (st.turn elem maxLen dir v).maxLenVal vs := by
  cases maxLen with
  | false => rfl
  | true =>
    have hcons : within true (st.maxLenVal - 1 + 1) (v :: vs) = _ :=
      within_cons (fun _ => Int.sub_nonneg_of_le (h rfl)) v vs
    rwa [Int.sub_add_cancel] at hcons

/-- Where the rank loop stops: at the match of the given rank, or without it. -/
inductive RankEnd (elem : Bytes) (maxLen : Bool) (dir : Int) (xs : List (Option Bytes))
    (st : LPosState) (k : Nat) : LPosState → Prop
  | reached {pre post : List (Option Bytes)} {v : Option Bytes} (hsplit : xs = pre ++ v :: post)
      (hv : str v = elem) (hskipped : (hits elem dir pre (st.pos + dir)).length = k)
      (hbudget : maxLen = true → (pre.length : Int) + 1 ≤ st.maxLenVal) :
      RankEnd elem maxLen dir xs st k
        ⟨st.now + dir * pre.length, st.pos + dir * (pre.length + 1), 0,
          if maxLen then st.maxLenVal - (pre.length + 1) else st.maxLenVal⟩
  | missed {st' : LPosState} (hrank : st'.rankVal ≠ 0)
      (hfew : (hits elem dir (within maxLen st.maxLenVal xs) (st.pos + dir)).length ≤ k) :
      RankEnd elem maxLen dir xs st k st'

/-- One more element before a stop. -/
theorem RankEnd.cons {vs : List (Option Bytes)} {st st' : LPosState} {k k' : Nat}
    (hk : k' + (hits elem dir [v] (st.pos + dir)).length = k)
    (hbudget : maxLen = true → 2 ≤ st.maxLenVal)
    (h : RankEnd elem maxLen dir vs
      { st.turn elem maxLen dir v with now := (st.turn elem maxLen dir v).now + dir } k' st') :
    RankEnd elem maxLen dir (v :: vs) st k st' := by
  cases h with
  | reached hsplit hv hskipped hleft =>
    rename_i pre post v'
    have hstate : (⟨st.now + dir + dir * pre.length, st.pos + dir + dir * (pre.length + 1), 0,
        if maxLen then (if maxLen then st.maxLenVal - 1 else st.maxLenVal) - (pre.length + 1)
        else (if maxLen then st.maxLenVal - 1 else st.maxLenVal)⟩ : LPosState) =
        ⟨st.now + dir * (v :: pre).length, st.pos + dir * ((v :: pre).length + 1), 0,
          if maxLen then st.maxLenVal - ((v :: pre).length + 1) else st.maxLenVal⟩ := by
      rw [List.length_cons, LPosState.mk.injEq]
      push_cast
      refine ⟨by ring, by ring, trivial, ?_⟩
      cases maxLen with
      | false => rfl
      | true =>
        simp only [if_true]
        ring
    refine hstate ▸ .reached (by rw [hsplit]; rfl) hv ?_ fun hmax => ?_
    · rw [hits_cons, List.length_append, ← hk, ← hskipped]
      exact Nat.add_comm _ _
    · have hle : (pre.length : Int) + 1 ≤ st.maxLenVal - 1 := by
        have := hleft hmax
        rwa [hmax] at this
      rw [List.length_cons]
      push_cast
      omega
  | missed hrank hfew =>
    refine .missed hrank ?_
    have hturn : within maxLen st.maxLenVal (v :: vs) =
        v :: within maxLen (st.turn elem maxLen dir v).maxLenVal vs :=
      within_turn (fun hmax => (by decide : (1 : Int) ≤ 2).trans (hbudget hmax)) v vs
    have hrest : (hits elem dir (within maxLen (st.turn elem maxLen dir v).maxLenVal vs)
      (st.pos + dir + dir)).length ≤ k' := hfew
    rw [hturn, hits_cons, List.length_append, ← hk]
    omega

/-- The rank loop. -/
theorem rankScan_end (hdir : dir ≠ 0) (xs : List (Option Bytes)) (st : LPosState) (k : Nat)
    (hrank : st.rankVal = dir * (k + 1)) (hbudget : maxLen = true → 1 ≤ st.maxLenVal) :
    RankEnd elem maxLen dir xs st k (rankScan elem maxLen dir xs st) := by
  have hne : ∀ j : Nat, dir * ((j : Int) + 1) ≠ 0 := fun j => mul_ne_zero hdir (by omega)
  induction xs generalizing st k with
  | nil =>
    refine .missed ?_ ?_
    · exact hrank ▸ hne k
    · rw [within_nil]
      exact Nat.zero_le k
  | cons v vs ih =>
    rw [rankScan_cons]
    -- the loop goes on, or MAXLEN is spent
    have hgo : ∀ j : Nat, (st.turn elem maxLen dir v).rankVal = dir * (j + 1) →
        j + (hits elem dir [v] (st.pos + dir)).length = k →
        RankEnd elem maxLen dir (v :: vs) st k
          (if (maxLen = true ∧ (st.turn elem maxLen dir v).maxLenVal = 0) ∨
              (st.turn elem maxLen dir v).rankVal = 0 then st.turn elem maxLen dir v
          else rankScan elem maxLen dir vs
            { st.turn elem maxLen dir v with now := (st.turn elem maxLen dir v).now + dir }) := by
      intro j hj hk
      have hnz : (st.turn elem maxLen dir v).rankVal ≠ 0 := hj ▸ hne j
      by_cases hspent : maxLen = true ∧ (st.turn elem maxLen dir v).maxLenVal = 0
      · rw [if_pos (.inl hspent)]
        refine .missed hnz ?_
        obtain ⟨rfl, hzero⟩ := hspent
        rw [within_turn hbudget, hzero, within_zero]
        omega
      · rw [if_neg (not_or.mpr ⟨hspent, hnz⟩)]
        have hleft : maxLen = true → 2 ≤ st.maxLenVal := by
          rintro rfl
          have hone := hbudget rfl
          have hmore : st.maxLenVal - 1 ≠ 0 := fun hzero => hspent ⟨rfl, hzero⟩
          omega
        refine RankEnd.cons hk hleft (ih _ j hj fun hmax => ?_)
        subst hmax
        show 1 ≤ st.maxLenVal - 1
        have := hleft rfl
        omega
    by_cases hv : str v = elem
    · have hturn : (st.turn elem maxLen dir v).rankVal = st.rankVal - dir := if_pos hv
      have hone : (hits elem dir [v] (st.pos + dir)).length = 1 := by
        rw [hits_cons_match hv]
        rfl
      cases k with
      | zero =>
        have hzero : (st.turn elem maxLen dir v).rankVal = 0 := by
          rw [hturn, hrank]
          push_cast
          ring
        have hstate : st.turn elem maxLen dir v =
            ⟨st.now + dir * ([] : List (Option Bytes)).length,
              st.pos + dir * (([] : List (Option Bytes)).length + 1), 0,
              if maxLen then st.maxLenVal - (([] : List (Option Bytes)).length + 1)
              else st.maxLenVal⟩ := by
          rw [← hzero]
          simp [LPosState.turn]
        rw [if_pos (.inr hzero), hstate]
        exact .reached rfl hv rfl fun hmax => by simpa using hbudget hmax
      | succ k =>
        refine hgo k ?_ (by rw [hone])
        rw [hturn, hrank]
        push_cast
        ring
    · have hturn : (st.turn elem maxLen dir v).rankVal = st.rankVal := if_neg hv
      have hnone : (hits elem dir [v] (st.pos + dir)).length = 0 := by
        rw [hits_cons_other hv]
        rfl
      exact hgo k (hturn.trans hrank) (by rw [hnone, Nat.add_zero])

end Scans

/-! ## The reply -/

/-- Options as the calls can give them. -/
structure LPosOptions.Valid (o : LPosOptions) : Prop where
  rank : ∀ r, o.rank = some r → r ≠ 0
  count : ∀ c, o.count = some c → 0 ≤ c
  maxLen : ∀ m, o.maxLen = some m → 0 ≤ m

theorem length_hits_le (elem : Bytes) (dir : Int) (maxLen : Bool) (budget : Int)
    (xs : List (Option Bytes)) (pos : Int) :
    (hits elem dir (within maxLen budget xs) pos).length ≤ xs.length := by
  have hplaced : ∀ (ys : List (Option Bytes)) (pos : Int),
      (placed dir ys pos).length = ys.length := by
    intro ys
    induction ys with
    | nil => exact fun _ => rfl
    | cons y ys ih => exact fun pos => congrArg Nat.succ (ih (pos + dir))
  have hwithin : (within maxLen budget xs).length ≤ xs.length := by
    unfold within
    split
    · exact List.length_take_le' _ _
    · exact le_refl _
  rw [hits, List.length_map]
  exact ((List.length_filter_le _ _).trans_eq (hplaced _ pos)).trans hwithin

/-- Positions in number as COUNT says, where 0 is read as the length of the list. -/
theorem take_count {remaining : List Int} {len : Int} (hlen : (remaining.length : Int) ≤ len)
    (count : Int) : remaining.take (if count = 0 then len else count).toNat =
      if count = 0 then remaining else remaining.take count.toNat := by
  by_cases hzero : count = 0
  · rw [if_pos hzero, if_pos hzero]
    exact List.take_of_length_le (by omega)
  · rw [if_neg hzero, if_neg hzero]

section Reply

variable {list : RedisList} {elem : Option Bytes} {count maxLen : Option Int}

/-- MAXLEN as the loops get it. -/
def budgetOf (list : RedisList) (maxLen : Option Int) : Int :=
  if maxLen.getD 0 = 0 then list.len else maxLen.getD 0

theorem budgetOf_pos (hne : list.vals ≠ []) (hmax : ∀ m, maxLen = some m → 0 ≤ m) :
    1 ≤ budgetOf list maxLen := by
  have hlen := List.length_pos_iff.mpr hne
  unfold budgetOf RedisList.len
  split
  · omega
  · cases maxLen with
    | none => simp at *
    | some m =>
      have := hmax m rfl
      simp at *
      omega

/-- MAXLEN 0 and no MAXLEN let the scan look at the whole list. -/
theorem take_within (dir pos : Int) {xs : List (Option Bytes)}
    (hxs : (xs.length : Int) = list.len) :
    (if maxLen.getD 0 = 0 then placed dir xs pos
      else (placed dir xs pos).take (maxLen.getD 0).toNat) =
      placed dir (within maxLen.isSome (budgetOf list maxLen) xs) pos := by
  cases maxLen with
  | none => rfl
  | some m =>
    show (if m = 0 then placed dir xs pos else (placed dir xs pos).take m.toNat) =
      placed dir (xs.take (if m = 0 then list.len else m).toNat) pos
    by_cases hzero : m = 0
    · rw [if_pos hzero, if_pos hzero, List.take_of_length_le (by omega)]
    · rw [if_neg hzero, if_neg hzero, take_placed]

/-- From the head, the specification looks at the matches that the loops look at. -/
theorem lPosRemaining_forward {rank : Option Int} (hrank : ∀ r, rank = some r → 0 < r) :
    lPosRemaining list.vals (str elem) ⟨rank, count, maxLen⟩ =
      (hits (str elem) 1 (within maxLen.isSome (budgetOf list maxLen) list.vals) 0).drop
        ((rank.getD 1).natAbs - 1) := by
  have hany : ¬ (rank.any fun r => decide (r < 0)) = true := by
    cases rank with
    | none => simp
    | some r =>
      have := hrank r rfl
      simp
      omega
  unfold lPosRemaining
  dsimp only
  rw [if_neg hany, zipIdx_placed, take_within 1 _ rfl]
  rfl

/-- From the tail too. -/
theorem lPosRemaining_backward (hr : r < 0) :
    lPosRemaining list.vals (str elem) ⟨some r, count, maxLen⟩ =
      (hits (str elem) (-1) (within maxLen.isSome (budgetOf list maxLen) list.vals.reverse)
        (list.len - 1)).drop (r.natAbs - 1) := by
  have hany : ((some r).any fun r => decide (r < 0)) = true := by simpa using hr
  have hstart : ((0 : Nat) : Int) + list.vals.length - 1 = list.len - 1 := by
    rw [Nat.cast_zero, zero_add]
    rfl
  unfold lPosRemaining
  dsimp only
  rw [if_pos hany, zipIdx_placed, reverse_placed, hstart,
    take_within (-1) _ (by rw [List.length_reverse]; rfl)]
  rfl

theorem len_pos (hne : list.vals ≠ []) : 0 < list.len := by
  have := List.length_pos_iff.mpr hne
  unfold RedisList.len
  omega

/-- The loop with COUNT gives what is to be chosen. -/
theorem countScan_chosen (elem : Option Bytes) (dir pos : Int) {budget c : Int}
    {xs : List (Option Bytes)} {limit : Bool} (hc : 0 ≤ c) (hbudget : limit = true → 0 ≤ budget)
    (hlen : (xs.length : Int) ≤ list.len) (hpos : 0 < list.len) :
    countScan (str elem) limit dir xs pos (if c = 0 then list.len else c) budget =
      if c = 0 then hits (str elem) dir (within limit (budget + 1) xs) pos
      else (hits (str elem) dir (within limit (budget + 1) xs) pos).take c.toNat := by
  have hcount : 0 ≤ (if c = 0 then list.len else c) := by
    split
    · omega
    · exact hc
  have hfew := length_hits_le (str elem) dir limit (budget + 1) xs pos
  rw [countScan_eq xs pos hcount hbudget, take_count (by omega)]

/-- Without RANK the loops begin at the head. -/
theorem lPos_norank (hne : list.vals ≠ []) (hopt : ¬ (count.isNone = true ∧ maxLen.isSome = false))
    (hvalid : (⟨none, count, maxLen⟩ : LPosOptions).Valid) :
    list.lPos elem ⟨none, count, maxLen⟩ = lPosSpec list.vals (str elem) ⟨none, count, maxLen⟩ := by
  have hlen := len_pos hne
  have hpos : 1 ≤ budgetOf list maxLen := budgetOf_pos hne hvalid.maxLen
  have hbudget : maxLen.isSome = true → 0 ≤ budgetOf list maxLen - 1 := fun _ => by omega
  have hsome : ¬ ((none : Option Int).isNone = true ∧ count.isNone = true ∧
      (!maxLen.isSome) = true) := by
    simpa using hopt
  have hwithin : budgetOf list maxLen - 1 + 1 = budgetOf list maxLen := Int.sub_add_cancel _ _
  unfold RedisList.lPos
  dsimp only
  rw [if_neg hsome, if_neg (by simp; omega), lPosSpec, lPosRemaining_forward (by simp)]
  cases count with
  | none =>
    have hfirst : firstScan (str elem) maxLen.isSome list.vals 0 (budgetOf list maxLen - 1) = _ :=
      firstScan_eq list.vals 0 hbudget
    rw [hwithin] at hfirst
    exact congrArg positionReply hfirst
  | some c =>
    have hchosen := countScan_chosen elem 1 0 (hvalid.count c rfl) hbudget (le_refl list.len) hlen
    rw [hwithin] at hchosen
    exact congrArg positionsReply hchosen

/-- The part of `lPosList` behind the rank loop. -/
def lPosEnd (list : RedisList) (elem : Bytes) (limit reverse : Bool) (count : Option Int)
    (st : LPosState) : Reply :=
  match count with
  | none => positionReply (firstScan elem limit (list.vals.drop st.now.toNat) st.pos st.maxLenVal)
  | some c =>
    positionsReply
      (if reverse then
        countScan elem limit (-1) (list.vals.take (st.now + 1).toNat).reverse st.pos
          (if c = 0 then list.len else c) st.maxLenVal
      else
        countScan elem limit 1 (list.vals.drop st.now.toNat) st.pos
          (if c = 0 then list.len else c) st.maxLenVal)

theorem lPos_rank (r : Int) (st : LPosState)
    (hst : (if (some r).any fun r => decide (r < 0) then
        rankScan (str elem) maxLen.isSome (-1) list.vals.reverse
          ⟨list.len - 1, list.len, r, budgetOf list maxLen⟩
      else rankScan (str elem) maxLen.isSome 1 list.vals ⟨0, -1, r, budgetOf list maxLen⟩) = st) :
    list.lPos elem ⟨some r, count, maxLen⟩ =
      if ((some r).isSome = true ∧ st.rankVal ≠ 0) ∨ st.now = list.len ∨ st.now = -1 then
        bulkReply none
      else lPosEnd list (str elem) maxLen.isSome
        ((some r).any fun r => decide (r < 0)) count st := by
  subst hst
  cases count with
  | none => rfl
  | some c => rfl

/-- A rank that is not reached leaves nothing. -/
theorem lPosReply_missed {remaining : List Int} (hfew : remaining.length ≤ k) :
    lPosReply count (remaining.drop k) = bulkReply none := by
  rw [List.drop_of_length_le hfew]
  cases count with
  | none => rfl
  | some c =>
    rw [lPosReply, List.take_nil, ite_self]
    rfl

/-- From a match on, the loops give the remaining positions. -/
theorem lPosEnd_eq {limit reverse : Bool} {st : LPosState} {next post : List (Option Bytes)}
    (hv : str v = str elem) (hnext : list.vals.drop st.now.toNat = v :: next)
    (hdir : dir = if reverse then -1 else 1)
    (hpost : (if reverse then (list.vals.take (st.now + 1).toNat).reverse
      else list.vals.drop st.now.toNat) = v :: post) (hbudget : limit = true → 0 ≤ st.maxLenVal)
    (hcount : ∀ c, count = some c → 0 ≤ c) (hlen : 0 < list.len) :
    lPosEnd list (str elem) limit reverse count st =
      lPosReply count (hits (str elem) dir
        (within limit (st.maxLenVal + 1) (v :: post)) st.pos) := by
  cases count with
  | none =>
    rw [lPosEnd, hnext, firstScan, if_pos hv, lPosReply, within_cons hbudget, hits_cons_match hv]
    rfl
  | some c =>
    have hfew : ((v :: post).length : Int) ≤ list.len := by
      rw [← hpost]
      unfold RedisList.len
      split
      · rw [List.length_reverse]
        exact_mod_cast List.length_take_le' _ _
      · rw [List.length_drop]
        omega
    have hchosen := countScan_chosen elem dir st.pos (hcount c rfl) hbudget hfew hlen
    rw [lPosEnd, lPosReply, ← hchosen, ← hpost, hdir]
    cases reverse with
    | false => rfl
    | true => rfl

/-- The matches from the one of the given rank on. -/
theorem drop_hits {elem : Bytes} {dir budget pos : Int} {pre post : List (Option Bytes)}
    (hskipped : (hits elem dir pre pos).length = k)
    (hbudget : limit = true → (pre.length : Int) + 1 ≤ budget) :
    (hits elem dir (within limit budget (pre ++ v :: post)) pos).drop k =
      hits elem dir (within limit (budget - pre.length) (v :: post)) (pos + dir * pre.length) := by
  rw [within_append fun hlimit => (by have := hbudget hlimit; omega), hits_append, ← hskipped,
    List.drop_left]

/-- Behind a rank loop that has reached its match the loops give the remaining
    positions. -/
theorem lPosEnd_reached {limit reverse : Bool} {start : LPosState}
    {xs pre next post : List (Option Bytes)} (hsplit : xs = pre ++ v :: post)
    (hv : str v = str elem) (hskipped : (hits (str elem) dir pre (start.pos + dir)).length = k)
    (hbudget : limit = true → (pre.length : Int) + 1 ≤ start.maxLenVal)
    (hdir : dir = if reverse then -1 else 1)
    (hnext : list.vals.drop (start.now + dir * pre.length).toNat = v :: next)
    (hpost : (if reverse then (list.vals.take (start.now + dir * pre.length + 1).toNat).reverse
      else list.vals.drop (start.now + dir * pre.length).toNat) = v :: post)
    (hcount : ∀ c, count = some c → 0 ≤ c) (hlen : 0 < list.len) :
    lPosEnd list (str elem) limit reverse count
        ⟨start.now + dir * pre.length, start.pos + dir * (pre.length + 1), 0,
          if limit then start.maxLenVal - (pre.length + 1) else start.maxLenVal⟩ =
      lPosReply count
        ((hits (str elem) dir (within limit start.maxLenVal xs) (start.pos + dir)).drop k) := by
  have hleft : limit = true → 0 ≤ (if limit then
      start.maxLenVal - (pre.length + 1) else start.maxLenVal) := by
    intro hlimit
    rw [if_pos hlimit]
    exact Int.sub_nonneg_of_le (hbudget hlimit)
  have hspent : limit = true → start.maxLenVal - (pre.length : Int) =
      (if limit then start.maxLenVal - (pre.length + 1) else start.maxLenVal) + 1 := by
    intro hlimit
    rw [if_pos hlimit]
    ring
  have hplace : start.pos + dir + dir * pre.length = start.pos + dir * (pre.length + 1) := by ring
  rw [hsplit, drop_hits hskipped hbudget, within_congr hspent, hplace]
  exact lPosEnd_eq hv hnext hdir hpost hleft hcount hlen

/-- With RANK from the head they begin at the match of that rank. -/
theorem lPos_forward (hr : 0 < r) (hne : list.vals ≠ [])
    (hvalid : (⟨some r, count, maxLen⟩ : LPosOptions).Valid) :
    list.lPos elem ⟨some r, count, maxLen⟩ =
      lPosSpec list.vals (str elem) ⟨some r, count, maxLen⟩ := by
  have hlen := len_pos hne
  have hpos : 1 ≤ budgetOf list maxLen := budgetOf_pos hne hvalid.maxLen
  have hneg : ((some r).any fun r => decide (r < 0)) = false := by simpa using hr.le
  have hend : RankEnd (str elem) maxLen.isSome 1 list.vals ⟨0, -1, r, budgetOf list maxLen⟩
      (r.natAbs - 1) _ := rankScan_end one_ne_zero list.vals _ _
        (by dsimp only; omega) fun _ => hpos
  rw [lPos_rank r _ (by rw [hneg, if_neg (by decide)]), hneg, lPosSpec,
    lPosRemaining_forward (by simpa using hr)]
  generalize rankScan (str elem) maxLen.isSome 1 list.vals ⟨0, -1, r, budgetOf list maxLen⟩ = st
    at hend ⊢
  cases hend with
  | missed hrank hfew =>
    rw [if_pos (.inl ⟨rfl, hrank⟩)]
    exact (lPosReply_missed hfew).symm
  | reached hsplit hv hskipped hbudget =>
    rename_i pre post v
    have hdrop : list.vals.drop ((0 : Int) + 1 * pre.length).toNat = v :: post := by
      rw [hsplit, zero_add, one_mul, Int.toNat_natCast, List.drop_left]
    have hin : (pre.length : Int) < list.len := by
      rw [RedisList.len, hsplit, List.length_append, List.length_cons]
      omega
    rw [if_neg (by simp; omega)]
    exact lPosEnd_reached hsplit hv hskipped hbudget rfl hdrop hdrop hvalid.count hlen

/-- With RANK from the tail too, and the loop without COUNT, which turns to the tail
    again, stops at once. -/
theorem lPos_backward (hr : r < 0) (hne : list.vals ≠ [])
    (hvalid : (⟨some r, count, maxLen⟩ : LPosOptions).Valid) :
    list.lPos elem ⟨some r, count, maxLen⟩ =
      lPosSpec list.vals (str elem) ⟨some r, count, maxLen⟩ := by
  have hlen := len_pos hne
  have hpos : 1 ≤ budgetOf list maxLen := budgetOf_pos hne hvalid.maxLen
  have hneg : ((some r).any fun r => decide (r < 0)) = true := by simpa using hr
  have hend : RankEnd (str elem) maxLen.isSome (-1) list.vals.reverse
      ⟨list.len - 1, list.len, r, budgetOf list maxLen⟩ (r.natAbs - 1) _ :=
    rankScan_end (by decide) list.vals.reverse _ _ (by dsimp only; omega) fun _ => hpos
  rw [lPos_rank r _ (by rw [hneg, if_pos rfl]), hneg, lPosSpec, lPosRemaining_backward hr]
  generalize rankScan (str elem) maxLen.isSome (-1) list.vals.reverse
    ⟨list.len - 1, list.len, r, budgetOf list maxLen⟩ = st at hend ⊢
  cases hend with
  | missed hrank hfew =>
    rw [if_pos (.inl ⟨rfl, hrank⟩)]
    exact (lPosReply_missed hfew).symm
  | reached hsplit hv hskipped hbudget =>
    rename_i pre post v
    have hvals : list.vals = post.reverse ++ v :: pre.reverse := by
      rw [← List.reverse_reverse list.vals, hsplit]
      simp
    have hlength : list.len = post.length + (pre.length + 1) := by
      rw [RedisList.len, hvals]
      simp
    have hnow : list.len - 1 + -1 * (pre.length : Int) = post.length := by omega
    have hdrop : list.vals.drop (list.len - 1 + -1 * pre.length).toNat = v :: pre.reverse := by
      rw [hnow, Int.toNat_natCast, hvals]
      exact List.drop_left' (List.length_reverse)
    have htake : (list.vals.take (list.len - 1 + -1 * pre.length + 1).toNat).reverse =
        v :: post := by
      have hnat : ((post.length : Int) + 1).toNat = post.reverse.length + 1 := by
        rw [List.length_reverse]
        omega
      rw [hnow, hnat, hvals, List.take_length_add_append]
      simp
    rw [if_neg (by simp; omega)]
    exact lPosEnd_reached hsplit hv hskipped hbudget rfl hdrop htake hvalid.count hlen

/-- Without options `Pos` gives the first match. -/
theorem lPos_plain :
    list.lPos elem ⟨none, none, none⟩ = lPosSpec list.vals (str elem) ⟨none, none, none⟩ := by
  have hfound := findIdx_eq (str elem) list.vals 0
  have hspec : lPosSpec list.vals (str elem) ⟨none, none, none⟩ =
      positionReply (hits (str elem) 1 list.vals 0).head? := by
    rw [lPosSpec, lPosRemaining_forward (by simp)]
    rfl
  have hpos : list.lPos elem ⟨none, none, none⟩ =
      if list.pos elem = -1 then bulkReply none else intReply (list.pos elem) := rfl
  rw [hspec, hpos, ← hfound, RedisList.pos]
  cases list.vals.findIdx? fun v => str v = str elem with
  | none => rfl
  | some i =>
    have hne : ¬ (i : Int) = -1 := by omega
    dsimp only
    rw [if_neg hne, Option.map_some, zero_add]
    rfl

/-- `lPosList` on a list that is not empty. -/
theorem lPos_eq_spec (hne : list.vals ≠ []) {o : LPosOptions} (hvalid : o.Valid) :
    list.lPos elem o = lPosSpec list.vals (str elem) o := by
  obtain ⟨rank, count, maxLen⟩ := o
  cases rank with
  | some r =>
    rcases lt_or_gt_of_ne (hvalid.rank r rfl) with hr | hr
    · exact lPos_backward hr hne hvalid
    · exact lPos_forward hr hne hvalid
  | none =>
    by_cases hopt : count.isNone = true ∧ maxLen.isSome = false
    · obtain rfl := Option.isNone_iff_eq_none.mp hopt.1
      obtain rfl := Option.isNone_iff_eq_none.mp (Option.isSome_eq_false_iff.mp hopt.2)
      exact lPos_plain
    · exact lPos_norank hne hopt hvalid

end Reply

/-! ## The command -/

section Command

variable [UnicodeTables]

/-- The option loop reads the options, and they are valid. -/
theorem Asks.options {args : List (Option Bytes)} {o o' : LPosOptions} (h : Asks args o o')
    (hvalid : o.Valid) : lPosOptions args o = .ok o' ∧ o'.Valid ∧ args.length % 2 = 0 := by
  induction h with
  | done o => exact ⟨rfl, hvalid, rfl⟩
  | rank hname hval hr _ ih =>
    obtain ⟨hread, hvalid', hlen⟩ := ih
      ⟨fun r h => Option.some.inj h ▸ hr, hvalid.count, hvalid.maxLen⟩
    refine ⟨?_, hvalid', by simp only [List.length_cons]; omega⟩
    rw [lPosOptions, if_pos hname, hval]
    dsimp only
    rw [if_neg hr, hread]
  | count hname hval hc _ ih =>
    obtain ⟨hread, hvalid', hlen⟩ := ih
      ⟨hvalid.rank, fun c h => Option.some.inj h ▸ hc, hvalid.maxLen⟩
    refine ⟨?_, hvalid', by simp only [List.length_cons]; omega⟩
    rw [lPosOptions, if_neg (by rw [hname]; decide), if_pos hname, hval]
    dsimp only
    rw [if_neg (not_lt.mpr hc), hread]
  | maxLen hname hval hm _ ih =>
    obtain ⟨hread, hvalid', hlen⟩ := ih
      ⟨hvalid.rank, hvalid.count, fun m h => Option.some.inj h ▸ hm⟩
    refine ⟨?_, hvalid', by simp only [List.length_cons]; omega⟩
    rw [lPosOptions, if_neg (by rw [hname]; decide), if_neg (by rw [hname]; decide), if_pos hname,
      hval]
    dsimp only
    rw [if_neg (not_lt.mpr hm), hread]

/-- **LPOS meets its specification**: for every list that is not empty, every element
    and all options, given in any order. -/
theorem lpos_correct [FloatText F] (host : Host) (env : Env) (w : World F)
    (name key elem : Option Bytes) (args : List (Option Bytes)) (o : LPosOptions) (list : RedisList)
    (d : Option Int) (hname : toLower (str name) = ascii "lpos")
    (hasks : Asks args ⟨none, none, none⟩ o)
    (hlive : w.store.live (env.clock w.tick) (str key) = some (⟨.list, list⟩, d))
    (hne : list.vals ≠ []) :
    (execCommand host env (name :: key :: elem :: args) w).1 =
      .ok (lPosSpec list.vals (str elem) o) := by
  obtain ⟨hdue, hdb, -⟩ := Store.live_eq_some.mp hlive
  obtain ⟨hread, hvalid, heven⟩ := hasks.options ⟨by simp, by simp, by simp⟩
  have hmem : Registered F host "lpos" lPosList := by simp [Registered, cmdTable]
  have hlen : ¬ ((name :: key :: elem :: args).length < 3 ∨
      (name :: key :: elem :: args).length % 2 ≠ 1) := by
    simp only [List.length_cons]
    omega
  have hdrop : (name :: key :: elem :: args).drop 3 = args := rfl
  have hfull : ¬ list.len = 0 := (len_pos hne).ne'
  rw [exec_reply hmem (List.cons_ne_nil _ _) hname]
  dsimp only
  rw [lPosList, named_cons hname, if_neg hlen, strAt_bind rfl, argAt_eq rfl, ret_bind, hdrop, hread]
  dsimp only
  rw [outcome_reading_found hdue (Store.get_eq_found.mpr hdb), if_neg hfull,
    lPos_eq_spec hne hvalid]
  rfl

end Command

/-- The second match from the tail, and the matches before it, in a list of four. -/
theorem lpos_correct_four :
    letI := asciiTables
    let w := stateAfter (words ["RPUSH", "l", "a", "b", "a", "a"])
    (execStill (words ["LPOS", "l", "a", "RANK", "-2", "COUNT", "0"]) w).1 =
      .ok (some (.arrayData [.intData 2, .intData 0])) := by
  intro w
  refine (@lpos_correct IntScore asciiTables _ quietHost stillEnv w (some (ascii "LPOS"))
    (some (ascii "l")) (some (ascii "a")) _ ⟨some (-2), some 0, none⟩
    ⟨(words ["a", "b", "a", "a"])⟩ none (by decide) ?_ rfl
    (by simp)).trans rfl
  exact @Asks.rank asciiTables _ _ _ _ _ (-2) (by decide) rfl (by decide)
    (@Asks.count asciiTables _ _ _ _ _ 0 (by decide) rfl (by decide) (@Asks.done asciiTables _))

end TinyDb
