import Mathlib

/-! # `container/heap`

    The heap algorithms of the Go standard library, over any implementation of
    `heap.Interface`.  They touch the implementation only through `Less` and
    `Swap`, so what they do to it is a sequence of swaps (`Swaps`): whatever
    a swap preserves, they preserve.  What they achieve is the heap order
    (`Ordered`), shown here for positions carrying keys of a linear order. -/

namespace GoHeap

/-- `heap.Interface`. -/
structure Interface (H E : Type) where
  len : H → Nat
  less : H → Nat → Nat → Bool
  swap : H → Nat → Nat → H
  push : H → E → H
  pop : H → E × H

variable {H E : Type} (I : Interface H E)

/-! ## The algorithms -/

/-- The position above `i`; at the root `(0 - 1) / 2` is the root again. -/
def parent (i : Nat) : Nat := (i - 1) / 2

/-- The loop of `up`, with `fuel` bounding its rounds. -/
def upLoop : Nat → H → Nat → H
  | 0, h, _ => h
  | fuel + 1, h, j =>
    if parent j = j ∨ I.less h j (parent j) = false then h
    else upLoop fuel (I.swap h (parent j) j) (parent j)

/-- `up`: every round moves to a smaller position. -/
def up (h : H) (j : Nat) : H := upLoop I (j + 1) h j

/-- The child `down` compares with: the right one only if it is smaller. -/
def child (h : H) (i n : Nat) : Nat :=
  if 2 * i + 2 < n ∧ I.less h (2 * i + 2) (2 * i + 1) = true then 2 * i + 2
  else 2 * i + 1

/-- The loop of `down`, with `fuel` bounding its rounds; also the position it
    stops at. -/
def downLoop : Nat → H → Nat → Nat → H × Nat
  | 0, h, i, _ => (h, i)
  | fuel + 1, h, i, n =>
    if n ≤ 2 * i + 1 then (h, i)
    else if I.less h (child I h i n) i = false then (h, i)
    else downLoop fuel (I.swap h i (child I h i n)) (child I h i n) n

/-- `down`: whether the element moved, and the heap after it. -/
def down (h : H) (i0 n : Nat) : H × Bool :=
  ((downLoop I n h i0 n).1, decide (i0 < (downLoop I n h i0 n).2))

/-- `down`, and `up` from the same position if nothing moved: the common part
    of `Fix` and `Remove`. -/
def sift (h : H) (i n : Nat) : H :=
  if (down I h i n).2 then (down I h i n).1 else up I (down I h i n).1 i

/-- The rounds `i - 1, …, 0` of `Init`. -/
def initLoop : Nat → H → H
  | 0, h => h
  | i + 1, h => initLoop i (down I h i (I.len h)).1

/-- `Init`. -/
def init (h : H) : H := initLoop I (I.len h / 2) h

/-- `Push`. -/
def push (h : H) (x : E) : H := up I (I.push h x) (I.len (I.push h x) - 1)

/-- `Pop`. -/
def pop (h : H) : E × H :=
  I.pop (down I (I.swap h 0 (I.len h - 1)) 0 (I.len h - 1)).1

/-- `Remove`. -/
def remove (h : H) (i : Nat) : E × H :=
  if I.len h - 1 ≠ i then
    I.pop (sift I (I.swap h i (I.len h - 1)) i (I.len h - 1))
  else I.pop h

/-- `Fix`. -/
def fix (h : H) (i : Nat) : H := sift I h i (I.len h)

/-! ## Positions and their order -/

theorem parent_lt {i : Nat} (h : 0 < i) : parent i < i := by
  unfold parent
  omega

theorem parent_eq_self {i : Nat} : parent i = i ↔ i = 0 := by
  unfold parent
  omega

/-- The children of `i` are `2 i + 1` and `2 i + 2`. -/
theorem parent_eq {k i : Nat} (h : 0 < k) :
    parent k = i ↔ k = 2 * i + 1 ∨ k = 2 * i + 2 := by
  unfold parent
  omega

variable {α : Type}

/-- Two positions exchanged. -/
def swapAt (f : Nat → α) (i j : Nat) : Nat → α :=
  fun k => if k = i then f j else if k = j then f i else f k

theorem swapAt_left (f : Nat → α) (i j : Nat) : swapAt f i j i = f j := if_pos rfl

theorem swapAt_right (f : Nat → α) (i j : Nat) : swapAt f i j j = f i := by
  unfold swapAt
  by_cases h : j = i
  · rw [if_pos h, h]
  · rw [if_neg h, if_pos rfl]

theorem swapAt_other (f : Nat → α) {i j k : Nat} (hi : k ≠ i) (hj : k ≠ j) :
    swapAt f i j k = f k := by
  unfold swapAt
  rw [if_neg hi, if_neg hj]

variable [LinearOrder α]

/-- Heap order on the first `n` positions. -/
def Ordered (f : Nat → α) (n : Nat) : Prop :=
  ∀ k, 0 < k → k < n → f (parent k) ≤ f k

/-- Heap order but for the element at `i`: the pairs away from it are in
    order, and its children are not below its parent. -/
structure Except (f : Nat → α) (n i : Nat) : Prop where
  away : ∀ k, 0 < k → k < n → k ≠ i → parent k ≠ i → f (parent k) ≤ f k
  grand : ∀ k, 0 < k → k < n → parent k = i → 0 < i → f (parent i) ≤ f k

/-- The element at `i` is not above its parent. -/
def Above (f : Nat → α) (i : Nat) : Prop := 0 < i → f (parent i) ≤ f i

/-- The element at `i` is not below its children. -/
def Below (f : Nat → α) (n i : Nat) : Prop :=
  ∀ k, 0 < k → k < n → parent k = i → f i ≤ f k

/-- An ordered heap is ordered but for any element of it. -/
theorem Ordered.except {f : Nat → α} {n i : Nat} (h : Ordered f n) (hi : i < n) :
    Except f n i := by
  refine ⟨fun k hk hkn _ _ => h k hk hkn, ?_⟩
  intro k hk hkn hp hi0
  have hik : f i ≤ f k := by
    have := h k hk hkn
    rwa [hp] at this
  exact le_trans (h i hi0 hi) hik

/-- Changing the key at `i` alone keeps the order but for `i`. -/
theorem Except.congr {f g : Nat → α} {n i : Nat} (h : Except f n i)
    (hfg : ∀ k, k < n → k ≠ i → g k = f k) (hi : i < n) : Except g n i := by
  constructor
  · intro k hk hkn hki hpi
    rw [hfg k hkn hki, hfg _ (lt_trans (parent_lt hk) hkn) hpi]
    exact h.away k hk hkn hki hpi
  · intro k hk hkn hp hi0
    have hki : k ≠ i := by
      intro e
      have := parent_lt hk
      omega
    rw [hfg k hkn hki, hfg _ (lt_trans (parent_lt hi0) hi) (parent_lt hi0).ne]
    exact h.grand k hk hkn hp hi0

/-- An element in order with its parent and its children completes the heap. -/
theorem Except.ordered {f : Nat → α} {n i : Nat} (h : Except f n i) (ha : Above f i)
    (hb : Below f n i) : Ordered f n := by
  intro k hk hkn
  by_cases hki : k = i
  · subst hki
    exact ha hk
  · by_cases hp : parent k = i
    · rw [hp]
      exact hb k hk hkn hp
    · exact h.away k hk hkn hki hp

/-- A round of `up`: the element changes places with its larger parent. -/
theorem Except.up {f : Nat → α} {n j : Nat} (h : Except f n j) (hj : 0 < j) (hjn : j < n)
    (hlt : f j < f (parent j)) :
    Except (swapAt f (parent j) j) n (parent j) ∧
      Below (swapAt f (parent j) j) n (parent j) := by
  have hpj : parent j < j := parent_lt hj
  -- the parent's other children are not below the parent
  have hsib : ∀ k, 0 < k → k < n → parent k = parent j → k ≠ j → f (parent j) ≤ f k := by
    intro k hk hkn hp hkj
    have := h.away k hk hkn hkj (by rw [hp]; exact hpj.ne)
    rwa [hp] at this
  have hup : 0 < parent j → f (parent (parent j)) ≤ f (parent j) := by
    intro h0
    have hpp := parent_lt h0
    exact h.away (parent j) h0 (by omega) hpj.ne (by omega)
  refine ⟨⟨?_, ?_⟩, ?_⟩
  · intro k hk hkn hkp hpk
    by_cases hkj : k = j
    · exact absurd (congrArg parent hkj) hpk
    · rw [swapAt_other f hkp hkj]
      by_cases hpj' : parent k = j
      · rw [hpj', swapAt_right]
        exact h.grand k hk hkn hpj' hj
      · rw [swapAt_other f hpk hpj']
        exact h.away k hk hkn hkj hpj'
  · intro k hk hkn hp h0
    have hpp := parent_lt h0
    rw [swapAt_other f hpp.ne (by omega)]
    by_cases hkj : k = j
    · rw [hkj, swapAt_right]
      exact hup h0
    · rw [swapAt_other f (by have := parent_lt hk; omega) hkj]
      exact le_trans (hup h0) (hsib k hk hkn hp hkj)
  · intro k hk hkn hp
    rw [swapAt_left]
    by_cases hkj : k = j
    · rw [hkj, swapAt_right]
      exact le_of_lt hlt
    · rw [swapAt_other f (by have := parent_lt hk; omega) hkj]
      exact le_trans (le_of_lt hlt) (hsib k hk hkn hp hkj)

/-- A round of `down`: the element changes places with its least child `c`,
    which is smaller. -/
theorem Except.down {f : Nat → α} {n i c : Nat} (h : Except f n i) (hc : 0 < c) (hcn : c < n)
    (hpc : parent c = i) (hleast : ∀ k, 0 < k → k < n → parent k = i → f c ≤ f k)
    (hlt : f c < f i) :
    Except (swapAt f i c) n c ∧ Above (swapAt f i c) c := by
  have hic : i < c := hpc ▸ parent_lt hc
  refine ⟨⟨?_, ?_⟩, ?_⟩
  · intro k hk hkn hkc hpk
    by_cases hki : k = i
    · -- the pair above: `c` was not below the parent of `i`
      rw [hki, swapAt_left]
      have h0 : 0 < i := hki ▸ hk
      have hpi := parent_lt h0
      rw [swapAt_other f hpi.ne (by omega)]
      exact h.grand c hc hcn hpc h0
    · rw [swapAt_other f hki hkc]
      by_cases hpi : parent k = i
      · rw [hpi, swapAt_left]
        exact hleast k hk hkn hpi
      · rw [swapAt_other f hpi hpk]
        exact h.away k hk hkn hki hpi
  · intro k hk hkn hp _
    have hck : c < k := hp ▸ parent_lt hk
    rw [hpc, swapAt_left, swapAt_other f (by omega) (by omega)]
    have := h.away k hk hkn (by omega) (by omega)
    rwa [hp] at this
  · intro _
    rw [hpc, swapAt_left, swapAt_right]
    exact le_of_lt hlt

/-! ## What the algorithms do to an implementation -/

/-- What the algorithms rely on: `less` compares the keys of two positions,
    and `swap` exchanges them. -/
structure Lawful (I : Interface H E) (key : H → Nat → α) : Prop where
  less_iff : ∀ {h i j}, i < I.len h → j < I.len h → (I.less h i j = true ↔ key h i < key h j)
  len_swap : ∀ h i j, I.len (I.swap h i j) = I.len h
  key_swap : ∀ {h i j}, i < I.len h → j < I.len h → key (I.swap h i j) = swapAt (key h) i j
  len_push : ∀ h x, I.len (I.push h x) = I.len h + 1
  key_push : ∀ {h k} x, k < I.len h → key (I.push h x) k = key h k

/-- `h'` comes from `h` by swaps of positions below `n`. -/
inductive Swaps (I : Interface H E) (n : Nat) : H → H → Prop where
  | refl (h : H) : Swaps I n h h
  | swap {h h' : H} {i j : Nat} : i < n → j < n → Swaps I n (I.swap h i j) h' → Swaps I n h h'

/-- **THE SWAP RULE**: what every swap preserves, a sequence of swaps
    preserves. -/
theorem Swaps.preserves {I : Interface H E} {n : Nat} {P : H → Prop}
    (hP : ∀ h i j, i < n → j < n → P h → P (I.swap h i j)) {h h' : H} (hs : Swaps I n h h') :
    P h → P h' := by
  induction hs with
  | refl h => exact id
  | swap hi hj _ ih => exact fun hp => ih (hP _ _ _ hi hj hp)

variable {I} {key : H → Nat → α}

theorem Swaps.len_eq (L : Lawful I key) {n : Nat} {h h' : H} (hs : Swaps I n h h') :
    I.len h' = I.len h := by
  induction hs with
  | refl h => rfl
  | swap _ _ _ ih => rw [ih, L.len_swap]

/-- `up` restores the order when only the pair above `j` may be out of it.
    The induction is on the rounds left, which `j` bounds. -/
theorem upLoop_spec (L : Lawful I key) {n fuel : Nat} :
    ∀ {h : H} {j : Nat}, j < fuel → j < n → n ≤ I.len h →
      Except (key h) n j → Below (key h) n j →
      Swaps I n h (upLoop I fuel h j) ∧ Ordered (key (upLoop I fuel h j)) n := by
  induction fuel with
  | zero => exact fun hj => absurd hj (Nat.not_lt_zero _)
  | succ fuel ih =>
    intro h j hjf hjn hn he hb
    unfold upLoop
    by_cases hstop : parent j = j ∨ I.less h j (parent j) = false
    · rw [if_pos hstop]
      refine ⟨.refl h, he.ordered ?_ hb⟩
      intro h0
      rcases hstop with hroot | hless
      · exact absurd (parent_eq_self.mp hroot) h0.ne'
      · have hpj := parent_lt h0
        refine not_lt.mp fun hlt => ?_
        rw [(L.less_iff (by omega) (by omega)).mpr hlt] at hless
        exact nomatch hless
    · rw [if_neg hstop]
      obtain ⟨hroot, hless⟩ := not_or.mp hstop
      have h0 : 0 < j := Nat.pos_of_ne_zero fun e => hroot (parent_eq_self.mpr e)
      have hpj := parent_lt h0
      have hlt : key h j < key h (parent j) :=
        (L.less_iff (by omega) (by omega)).mp (Bool.of_not_eq_false hless)
      obtain ⟨he', hb'⟩ := he.up h0 hjn hlt
      rw [← L.key_swap (by omega) (by omega)] at he' hb'
      obtain ⟨hs, ho⟩ := ih (by omega) (by omega) (by rw [L.len_swap]; exact hn) he' hb'
      exact ⟨.swap (by omega) hjn hs, ho⟩

theorem up_spec (L : Lawful I key) {n j : Nat} {h : H} (hj : j < n) (hn : n ≤ I.len h)
    (he : Except (key h) n j) (hb : Below (key h) n j) :
    Swaps I n h (up I h j) ∧ Ordered (key (up I h j)) n :=
  upLoop_spec L (Nat.lt_succ_self j) hj hn he hb

/-- `child` is a child of `i`, and no child of `i` is smaller. -/
theorem child_spec (L : Lawful I key) {n i : Nat} {h : H} (hi : 2 * i + 1 < n) (hn : n ≤ I.len h) :
    child I h i n < n ∧ 0 < child I h i n ∧ parent (child I h i n) = i ∧
      ∀ k, 0 < k → k < n → parent k = i → key h (child I h i n) ≤ key h k := by
  unfold child
  by_cases hc : 2 * i + 2 < n ∧ I.less h (2 * i + 2) (2 * i + 1) = true
  · rw [if_pos hc]
    have hlt := (L.less_iff (by omega) (by omega)).mp hc.2
    refine ⟨hc.1, by omega, (parent_eq (by omega)).mpr (.inr rfl), ?_⟩
    intro k hk _ hp
    rcases (parent_eq hk).mp hp with rfl | rfl
    · exact le_of_lt hlt
    · exact le_refl _
  · rw [if_neg hc]
    refine ⟨hi, by omega, (parent_eq (by omega)).mpr (.inl rfl), ?_⟩
    intro k hk hkn hp
    rcases (parent_eq hk).mp hp with rfl | rfl
    · exact le_refl _
    · exact not_lt.mp fun hlt => hc ⟨hkn, (L.less_iff (by omega) (by omega)).mpr hlt⟩

/-- `down` either leaves the heap alone, the element being in order with its
    children, or moves it and restores the order. -/
theorem downLoop_spec (L : Lawful I key) {n fuel : Nat} :
    ∀ {h : H} {i : Nat}, n ≤ fuel + i → i < n → n ≤ I.len h → Except (key h) n i →
      (downLoop I fuel h i n = (h, i) ∧ Below (key h) n i) ∨
      (i < (downLoop I fuel h i n).2 ∧ Swaps I n h (downLoop I fuel h i n).1 ∧
        Ordered (key (downLoop I fuel h i n).1) n) := by
  induction fuel with
  | zero =>
    intro h i hf hi
    omega
  | succ fuel ih =>
    intro h i hf hi hn he
    unfold downLoop
    by_cases hleaf : n ≤ 2 * i + 1
    · rw [if_pos hleaf]
      refine .inl ⟨rfl, ?_⟩
      intro k hk hkn hp
      have := (parent_eq hk).mp hp
      omega
    · rw [if_neg hleaf]
      obtain ⟨hcn, hc0, hpc, hleast⟩ := child_spec L (Nat.lt_of_not_le hleaf) hn
      have hic : i < child I h i n := lt_of_eq_of_lt hpc.symm (parent_lt hc0)
      by_cases hless : I.less h (child I h i n) i = false
      · rw [if_pos hless]
        refine .inl ⟨rfl, ?_⟩
        intro k hk hkn hp
        refine le_trans (not_lt.mp fun hlt => ?_) (hleast k hk hkn hp)
        rw [(L.less_iff (by omega) (by omega)).mpr hlt] at hless
        exact nomatch hless
      · rw [if_neg hless]
        have hlt := (L.less_iff (by omega) (by omega)).mp (Bool.of_not_eq_false hless)
        obtain ⟨he', ha'⟩ := he.down hc0 hcn hpc hleast hlt
        rw [← L.key_swap (by omega) (by omega)] at he' ha'
        refine .inr ?_
        rcases ih (by omega) hcn (by rw [L.len_swap]; exact hn) he' with
          ⟨hr, hb⟩ | ⟨hlt', hs, ho⟩
        · rw [hr]
          exact ⟨hic, .swap hi hcn (.refl _), he'.ordered ha' hb⟩
        · exact ⟨lt_trans hic hlt', .swap hi hcn hs, ho⟩

/-- **`down` then `up`** restores the order around an element out of place. -/
theorem sift_spec (L : Lawful I key) {n i : Nat} {h : H} (hi : i < n) (hn : n ≤ I.len h)
    (he : Except (key h) n i) :
    Swaps I n h (sift I h i n) ∧ Ordered (key (sift I h i n)) n := by
  unfold sift down
  rcases downLoop_spec L (Nat.le_add_right n i) hi hn he with ⟨hr, hb⟩ | ⟨hlt, hs, ho⟩
  · rw [hr, if_neg (by simp)]
    exact up_spec L hi hn he hb
  · rw [if_pos (by simpa using hlt)]
    exact ⟨hs, ho⟩

/-- `Fix` restores the order after the key at `i` has changed. -/
theorem fix_spec (L : Lawful I key) {i : Nat} {h : H} (hi : i < I.len h)
    (he : Except (key h) (I.len h) i) :
    Swaps I (I.len h) h (fix I h i) ∧ Ordered (key (fix I h i)) (I.len h) :=
  sift_spec L hi (le_refl _) he

/-- `Push` keeps the order: the new element has no children yet. -/
theorem push_spec (L : Lawful I key) {h : H} (x : E) (ho : Ordered (key h) (I.len h)) :
    Swaps I (I.len h + 1) (I.push h x) (push I h x) ∧
      Ordered (key (push I h x)) (I.len h + 1) := by
  have hlen := L.len_push h x
  have hnochild : ∀ k, 0 < k → k < I.len h + 1 → parent k ≠ I.len h := by
    intro k hk hkn
    have := parent_lt hk
    omega
  unfold push
  rw [hlen, Nat.add_sub_cancel]
  refine up_spec L (Nat.lt_succ_self _) (le_of_eq hlen.symm) ⟨?_, ?_⟩ ?_
  · intro k hk hkn hke _
    have hpk := parent_lt hk
    rw [L.key_push x (show k < I.len h by omega), L.key_push x (by omega)]
    exact ho k hk (by omega)
  · exact fun k hk hkn hp => absurd hp (hnochild k hk hkn)
  · exact fun k hk hkn hp => absurd hp (hnochild k hk hkn)

/-- With the last element moved to `i`, the rest is ordered but for `i`. -/
theorem except_swap_last (L : Lawful I key) {h : H} {i n : Nat} (hn : I.len h = n + 1) (hi : i < n)
    (ho : Ordered (key h) (I.len h)) : Except (key (I.swap h i n)) n i := by
  have ho' : Ordered (key h) n := fun k hk hkn => ho k hk (by omega)
  rw [L.key_swap (by omega) (by omega)]
  refine (ho'.except hi).congr (fun k hkn hki => ?_) hi
  exact swapAt_other _ hki hkn.ne

/-- `Remove` brings element `i` to the end, the order restored below it, and
    cuts it off. -/
theorem remove_spec (L : Lawful I key) {h : H} {i n : Nat} (hn : I.len h = n + 1) (hi : i ≤ n)
    (ho : Ordered (key h) (I.len h)) :
    ∃ h1 h2, (h1 = h ∧ i = n ∨ h1 = I.swap h i n) ∧ Swaps I n h1 h2 ∧
      Ordered (key h2) n ∧ remove I h i = I.pop h2 := by
  unfold remove
  rw [hn, Nat.add_sub_cancel]
  by_cases hin : n = i
  · rw [if_neg (not_not.mpr hin)]
    exact ⟨h, h, .inl ⟨rfl, hin.symm⟩, .refl h, fun k hk hkn => ho k hk (by omega), rfl⟩
  · rw [if_pos hin]
    have hlt : i < n := lt_of_le_of_ne hi fun e => hin e.symm
    obtain ⟨hs, ho'⟩ := sift_spec L hlt (by rw [L.len_swap]; omega)
      (except_swap_last L hn hlt ho)
    exact ⟨_, _, .inr rfl, hs, ho', rfl⟩

/-- `Pop` brings the first element to the end, the order restored below it,
    and cuts it off. -/
theorem pop_spec (L : Lawful I key) {h : H} {n : Nat} (hn : I.len h = n + 1)
    (ho : Ordered (key h) (I.len h)) :
    ∃ h2, Swaps I n (I.swap h 0 n) h2 ∧ Ordered (key h2) n ∧ pop I h = I.pop h2 := by
  unfold pop down
  rw [hn, Nat.add_sub_cancel]
  rcases Nat.eq_zero_or_pos n with rfl | hpos
  · exact ⟨_, .refl _, fun k _ hkn => absurd hkn (Nat.not_lt_zero k), rfl⟩
  · have he := except_swap_last L hn hpos ho
    have hlen : n ≤ I.len (I.swap h 0 n) := by
      rw [L.len_swap]
      omega
    rcases downLoop_spec L (Nat.le_refl n) hpos hlen he with ⟨hr, hb⟩ | ⟨_, hs, ho'⟩
    · rw [hr]
      exact ⟨_, .refl _, he.ordered (fun h0 => absurd h0 (lt_irrefl 0)) hb, rfl⟩
    · exact ⟨_, hs, ho', rfl⟩

/-- The first element of an ordered heap is a least one. -/
theorem Ordered.root_le {f : Nat → α} {n : Nat} (h : Ordered f n) :
    ∀ k, k < n → f 0 ≤ f k := by
  intro k
  induction k using Nat.strongRecOn with
  | _ k ih =>
    intro hk
    rcases Nat.eq_zero_or_pos k with rfl | hpos
    · exact le_refl _
    · have hp := parent_lt hpos
      exact le_trans (ih (parent k) hp (by omega)) (h k hpos hk)

end GoHeap
