import TinyRedis.GoStringProofs

/-! # `strings.TrimSpace` trims once

    A string is decoded rune by rune, and what stands between two runes of it is
    decoded again as it was: a rune is read from its own bytes, and a byte that
    begins no sequence does not begin one when bytes behind it are cut off.  So
    what is trimmed has no blank at either end. -/

namespace GoString

/-! ## One rune -/

/-- A sequence that is wider than what there is was none. -/
theorem eq_of_short {p : Prop} [Decidable p] {r : Rune} {k n : Nat}
    (h : (if p then (r, k) else (runeError, 1)).2 ≤ n) (hn : n < k) :
    (runeError, 1) = if p then (r, k) else (runeError, 1) := by
  by_cases hp : p
  · rw [if_pos hp] at h
    exact absurd h (Nat.not_le.mpr hn)
  · rw [if_neg hp]

/-- The first rune is decoded from its own bytes: what is cut off behind them does
    not matter. -/
theorem decodeRune_take {s : Bytes} {n : Nat} (hpos : 1 ≤ n) (hn : (decodeRune s).2 ≤ n) :
    decodeRune (s.take n) = decodeRune s := by
  rcases s with _ | ⟨b0, rest⟩
  · rw [List.take_nil]
  obtain ⟨n, rfl⟩ : ∃ m, n = m + 1 := ⟨n - 1, by omega⟩
  rw [List.take_succ_cons]
  rw [decodeRune.eq_def (b0 :: rest)] at hn ⊢
  rw [decodeRune.eq_def]
  dsimp only at hn ⊢
  by_cases h1 : b0 < 0x80
  · rw [if_pos h1, if_pos h1]
  rw [if_neg h1] at hn ⊢
  rw [if_neg h1]
  by_cases h2 : inRange 0xC2 0xDF b0 = true
  · rw [if_pos h2] at hn ⊢
    rw [if_pos h2]
    rcases rest with _ | ⟨b1, rest⟩
    · rw [List.take_nil]
    · rcases n with _ | n
      · exact eq_of_short hn (by omega)
      · rfl
  rw [if_neg h2] at hn ⊢
  rw [if_neg h2]
  by_cases h3 : inRange 0xE0 0xEF b0 = true
  · rw [if_pos h3] at hn ⊢
    rw [if_pos h3]
    rcases rest with _ | ⟨b1, _ | ⟨b2, rest⟩⟩
    · rw [List.take_nil]
    · rcases n with _ | n
      · rfl
      · rw [List.take_succ_cons, List.take_nil]
    · rcases n with _ | _ | n
      · exact eq_of_short hn (by omega)
      · exact eq_of_short hn (by omega)
      · rfl
  rw [if_neg h3] at hn ⊢
  rw [if_neg h3]
  by_cases h4 : inRange 0xF0 0xF4 b0 = true
  · rw [if_pos h4] at hn ⊢
    rw [if_pos h4]
    rcases rest with _ | ⟨b1, _ | ⟨b2, _ | ⟨b3, rest⟩⟩⟩
    · rw [List.take_nil]
    · rcases n with _ | n
      · rfl
      · rw [List.take_succ_cons, List.take_nil]
    · rcases n with _ | _ | n
      · rfl
      · rfl
      · rw [List.take_succ_cons, List.take_succ_cons, List.take_nil]
    · rcases n with _ | _ | _ | n
      · exact eq_of_short hn (by omega)
      · exact eq_of_short hn (by omega)
      · exact eq_of_short hn (by omega)
      · rfl
  · rw [if_neg h4, if_neg h4]

/-- A rune is not wider than the string. -/
theorem decodeRune_width (b : UInt8) (rest : Bytes) :
    1 ≤ (decodeRune (b :: rest)).2 ∧ (decodeRune (b :: rest)).2 ≤ (b :: rest).length := by
  have hwidth : ∀ {p : Prop} [Decidable p] {r : Rune} {k n : Nat}, 1 ≤ k → k ≤ n →
      1 ≤ (if p then (r, k) else (runeError, 1)).2 ∧
        (if p then (r, k) else (runeError, 1)).2 ≤ n := by
    intro p _ r k n hk hn
    split
    · exact ⟨hk, hn⟩
    · exact ⟨le_rfl, hk.trans hn⟩
  have hone : 1 ≤ (1 : Nat) ∧ 1 ≤ (b :: rest).length := ⟨le_rfl, Nat.succ_pos _⟩
  rw [decodeRune.eq_def]
  dsimp only
  by_cases h1 : b < 0x80
  · rw [if_pos h1]
    exact hone
  rw [if_neg h1]
  by_cases h2 : inRange 0xC2 0xDF b = true
  · rw [if_pos h2]
    rcases rest with _ | ⟨b1, rest⟩
    · exact hone
    · exact hwidth (by omega) (by simp)
  rw [if_neg h2]
  by_cases h3 : inRange 0xE0 0xEF b = true
  · rw [if_pos h3]
    rcases rest with _ | ⟨b1, _ | ⟨b2, rest⟩⟩
    · exact hone
    · exact hone
    · exact hwidth (by omega) (by simp)
  rw [if_neg h3]
  by_cases h4 : inRange 0xF0 0xF4 b = true
  · rw [if_pos h4]
    rcases rest with _ | ⟨b1, _ | ⟨b2, _ | ⟨b3, rest⟩⟩⟩
    · exact hone
    · exact hone
    · exact hone
    · exact hwidth (by omega) (by simp)
  · rw [if_neg h4]
    exact hone

/-! ## The pieces of a string -/

theorem piecesAux_nil (n : Nat) : piecesAux n [] = [] := by
  cases n <;> rfl

theorem piecesAux_succ (n : Nat) {s : Bytes} (hne : s ≠ []) : piecesAux (n + 1) s =
    s.take (decodeRune s).2 :: piecesAux n (s.drop (decodeRune s).2) := by
  obtain ⟨b, rest, rfl⟩ := List.exists_cons_of_ne_nil hne
  rfl

/-- A round of the decoding takes at least one byte. -/
theorem length_drop_width (b : UInt8) (rest : Bytes) :
    ((b :: rest).drop (decodeRune (b :: rest)).2).length ≤ rest.length := by
  have hwidth := (decodeRune_width b rest).1
  rw [List.length_drop, List.length_cons]
  omega

/-- The length is enough fuel. -/
theorem piecesAux_fuel {n m : Nat} {s : Bytes} (hn : s.length ≤ n) (hm : s.length ≤ m) :
    piecesAux n s = piecesAux m s := by
  induction n generalizing m s with
  | zero =>
    rw [List.length_eq_zero_iff.mp (Nat.le_zero.mp hn), piecesAux_nil, piecesAux_nil]
  | succ n ih =>
    rcases s with _ | ⟨b, rest⟩
    · rw [piecesAux_nil, piecesAux_nil]
    · obtain ⟨m, rfl⟩ : ∃ k, m = k + 1 := ⟨m - 1, by rw [List.length_cons] at hm; omega⟩
      have hlen := length_drop_width b rest
      rw [List.length_cons] at hn hm
      exact congrArg _ (ih (by omega) (by omega))

/-- The pieces make up the string. -/
theorem flatten_piecesAux {n : Nat} {s : Bytes} (hn : s.length ≤ n) :
    (piecesAux n s).flatten = s := by
  induction n generalizing s with
  | zero =>
    rw [List.length_eq_zero_iff.mp (Nat.le_zero.mp hn)]
    rfl
  | succ n ih =>
    rcases s with _ | ⟨b, rest⟩
    · rfl
    · have hlen := length_drop_width b rest
      rw [List.length_cons] at hn
      rw [piecesAux_succ n (List.cons_ne_nil b rest), List.flatten_cons, ih (by omega),
        List.take_append_drop]

/-- The last pieces of a string are the pieces of its end. -/
theorem piecesAux_right {n m : Nat} {s : Bytes} {A B : List Bytes} (hn : s.length ≤ n)
    (h : piecesAux n s = A ++ B) (hm : B.flatten.length ≤ m) : piecesAux m B.flatten = B := by
  induction A generalizing n s with
  | nil =>
    have hflat := flatten_piecesAux hn
    rw [h, List.nil_append] at hflat
    rw [hflat] at hm ⊢
    rw [piecesAux_fuel hm hn, h, List.nil_append]
  | cons a A ih =>
    rcases n with _ | n
    · exact absurd h (by simp [piecesAux])
    · rcases s with _ | ⟨b, rest⟩
      · exact absurd h (by simp [piecesAux])
      · have hlen := length_drop_width b rest
        rw [List.length_cons] at hn
        rw [piecesAux_succ n (List.cons_ne_nil b rest), List.cons_append, List.cons.injEq] at h
        exact ih (by omega) h.2

/-- The first pieces of a string are the pieces of its beginning. -/
theorem piecesAux_left {n m : Nat} {s : Bytes} {A B : List Bytes} (hn : s.length ≤ n)
    (h : piecesAux n s = A ++ B) (hm : A.flatten.length ≤ m) : piecesAux m A.flatten = A := by
  induction A generalizing n m s with
  | nil => exact piecesAux_nil m
  | cons a A ih =>
    rcases n with _ | n
    · exact absurd h (by simp [piecesAux])
    · rcases s with _ | ⟨b, rest⟩
      · exact absurd h (by simp [piecesAux])
      · have hlen := length_drop_width b rest
        have hwidth := decodeRune_width b rest
        rw [List.length_cons] at hn
        rw [piecesAux_succ n (List.cons_ne_nil b rest), List.cons_append, List.cons.injEq] at h
        obtain ⟨rfl, hrest⟩ := h
        -- what is kept is the string up to the end of the last piece
        have hflat := flatten_piecesAux (n := n) (s := (b :: rest).drop (decodeRune (b :: rest)).2)
          (by omega)
        rw [hrest, List.flatten_append] at hflat
        have hkept : (b :: rest).take (decodeRune (b :: rest)).2 ++ A.flatten =
            (b :: rest).take ((decodeRune (b :: rest)).2 + A.flatten.length) := by
          rw [List.take_add, ← hflat, List.take_left]
        have hsame : decodeRune ((b :: rest).take (decodeRune (b :: rest)).2 ++ A.flatten) =
            decodeRune (b :: rest) := by
          rw [hkept]
          exact decodeRune_take (by omega) (by omega)
        have htake : ((b :: rest).take (decodeRune (b :: rest)).2).length =
            (decodeRune (b :: rest)).2 := by
          rw [List.length_take]
          omega
        rw [List.flatten_cons, List.length_append, htake] at hm
        obtain ⟨m, rfl⟩ : ∃ k, m = k + 1 := ⟨m - 1, by omega⟩
        have hne : (b :: rest).take (decodeRune (b :: rest)).2 ++ A.flatten ≠ [] := by
          rw [ne_eq, List.append_eq_nil_iff, ← List.length_eq_zero_iff, htake]
          omega
        rw [List.flatten_cons, piecesAux_succ m hne, hsame, List.take_left' htake,
          List.drop_left' htake, ih (by omega) hrest (by omega)]

/-- Pieces from the middle of a string are decoded as they were. -/
theorem piecesAux_middle {n m : Nat} {s : Bytes} {A M B : List Bytes} (hn : s.length ≤ n)
    (h : piecesAux n s = A ++ (M ++ B)) (hm : M.flatten.length ≤ m) :
    piecesAux m M.flatten = M :=
  piecesAux_left le_rfl (piecesAux_right hn h le_rfl) hm

/-! ## Trimming -/

/-- Dropping from both ends leaves nothing to drop. -/
theorem dropWhile_rdropWhile {α : Type} (p : α → Bool) (l : List α) :
    ((l.dropWhile p).rdropWhile p).dropWhile p = (l.dropWhile p).rdropWhile p := by
  rw [List.dropWhile_eq_self_iff]
  intro hpos
  have hpre : (l.dropWhile p).rdropWhile p <+: l.dropWhile p :=
    List.rdropWhile_prefix p _
  rw [hpre.getElem hpos]
  exact List.dropWhile_eq_self_iff.mp (List.dropWhile_idempotent p l) _

/-- `strings.TrimSpace` trims once. -/
theorem trimSpace_trimSpace (s : Bytes) : trimSpace (trimSpace s) = trimSpace s := by
  let blank := fun piece => isSpace (decodeRune piece).1
  have hsplit : piecesAux s.length s = (piecesAux s.length s).takeWhile blank ++
      (((piecesAux s.length s).dropWhile blank).rdropWhile blank ++
        ((piecesAux s.length s).dropWhile blank).rtakeWhile blank) := by
    rw [List.rdropWhile_append_rtakeWhile, List.takeWhile_append_dropWhile]
  have hpieces := piecesAux_middle le_rfl hsplit le_rfl
  show (((piecesAux (trimSpace s).length (trimSpace s)).dropWhile blank).rdropWhile blank).flatten =
    trimSpace s
  have htrim : trimSpace s =
    (((piecesAux s.length s).dropWhile blank).rdropWhile blank).flatten := rfl
  rw [htrim, hpieces, dropWhile_rdropWhile, List.rdropWhile_idempotent]

end GoString
