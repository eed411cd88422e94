import TinyRedis.CountersProofs

/-! # SETRANGE and GETRANGE

    SETRANGE lays a value over a string, GETRANGE reads a window of one.  Both are
    held here against the positions of the bytes: which byte stands where after the
    writer, and which positions the chain of bound adjustments of the reader comes
    down to.  What was written is then what is read back. -/

namespace TinyDb

open GoString GoStrconv GoFloat TinyResp

variable {F : Type}

/-! ## Positions -/

/-- An index; a negative one counts from the end. -/
def fromEnd (n i : Int) : Int := if i < 0 then n + i else i

/-- `new` is `old` with `w` laid over it at `offset`: the length is the larger one,
    and a gap behind `old` is filled with zero bytes. -/
structure Spliced (old w new : Bytes) (offset : Nat) : Prop where
  length : new.length = max old.length (offset + w.length)
  written : ∀ i < w.length, new[offset + i]? = w[i]?
  kept : ∀ i < old.length, i < offset ∨ offset + w.length ≤ i → new[i]? = old[i]?
  gap : ∀ i < offset, old.length ≤ i → new[i]? = some 0

/-- `r` is what stands in `v` at the positions from `a` to `b`. -/
structure Window (v r : Bytes) (a b : Int) : Prop where
  length : (r.length : Int) = max 0 (b + 1 - a)
  holds : ∀ j, a ≤ j → j ≤ b → r[(j - a).toNat]? = v[j.toNat]?

theorem overwrite_spliced (old w : Bytes) (offset : Nat) :
    Spliced old w (overwrite old w offset (max old.length (offset + w.length))) offset := by
  have hbase : (old ++ List.replicate (max old.length (offset + w.length) - old.length)
      (0 : UInt8)).length = max old.length (offset + w.length) := by
    rw [List.length_append, List.length_replicate]
    omega
  rw [overwrite]
  generalize hb : old ++ List.replicate (max old.length (offset + w.length) - old.length)
    (0 : UInt8) = base at hbase
  have htake : (base.take offset).length = offset := by
    rw [List.length_take]
    omega
  refine ⟨?_, fun i hi => ?_, fun i hi hout => ?_, fun i hi hold => ?_⟩
  · rw [List.length_append, List.length_append, htake, List.length_drop]
    omega
  · rw [List.append_assoc, List.getElem?_append_right (by omega), htake,
      Nat.add_sub_cancel_left, List.getElem?_append_left hi]
  · have hold : base[i]? = old[i]? := by rw [← hb, List.getElem?_append_left hi]
    rcases hout with hlt | hge
    · rw [List.append_assoc, List.getElem?_append_left (by omega), List.getElem?_take_of_lt hlt,
        hold]
    · have hlen : (base.take offset ++ w).length = offset + w.length := by
        rw [List.length_append, htake]
      rw [List.getElem?_append_right (by omega), hlen, List.getElem?_drop,
        Nat.add_sub_cancel' hge, hold]
  · rw [List.append_assoc, List.getElem?_append_left (by omega), List.getElem?_take_of_lt hi, ← hb,
      List.getElem?_append_right hold, List.getElem?_replicate_of_lt (by omega)]

/-- A slice is a window. -/
theorem slice_window {v : Bytes} {a b : Int} (h0 : 0 ≤ a) (hab : a ≤ b + 1) (hb : b < v.length) :
    ∃ r, TinyRespStream.slice v a (b + 1) = some r ∧ Window v r a b := by
  refine ⟨_, if_pos ⟨h0, hab, by omega⟩, ?_, fun j hj hj' => ?_⟩
  · rw [List.length_drop, List.length_take]
    omega
  · have hplace : a.toNat + (j - a).toNat = j.toNat := by omega
    rw [List.getElem?_drop, hplace, List.getElem?_take_of_lt (by omega)]

/-- A window without positions is empty. -/
theorem window_nil (v : Bytes) {a b : Int} (h : b < a) : Window v [] a b :=
  ⟨by rw [List.length_nil]; omega, fun j hj hj' => by omega⟩

/-- A window that covers what was laid over is what was laid over. -/
theorem Window.eq_written {old w new r : Bytes} {offset : Nat} (h : Spliced old w new offset)
    (hr : Window new r offset (offset + w.length - 1)) : r = w := by
  have hlen : r.length = w.length := by
    have := hr.length
    omega
  refine List.ext_getElem? fun i => ?_
  by_cases hi : i < w.length
  · have hread := hr.holds (offset + i) (by omega) (by omega)
    have hplace : ((offset : Int) + i - offset).toNat = i := by omega
    have hplace' : ((offset : Int) + i).toNat = offset + i := by omega
    rw [hplace, hplace', h.written i hi] at hread
    exact hread
  · rw [List.getElem?_eq_none (by omega), List.getElem?_eq_none (by omega)]

/-! ## The commands -/

/-- The string that is live at a key; the empty one if there is none. -/
inductive OldString (s : Store F) (now : Int) (key : Bytes) : Bytes → Prop
  | found {v : Option Bytes} {d : Option Int} (h : s.live now key = some (⟨.str, v⟩, d)) :
      OldString s now key (str v)
  | absent (h : s.live now key = none) : OldString s now key []

section Commands

variable [UnicodeTables] {env : Env} {w : World F} {name key off val a b : Option Bytes}

/-- SETRANGE stores the old string with the value laid over it. -/
theorem outcome_setRangeString (hname : toLower (str name) = ascii "setrange") {offset : Int}
    (hoff : atoi (str off) = .ok offset) (hpos : 0 ≤ offset)
    (hfit : offset + (str val).length < 2 ^ 63) {old : Bytes}
    (hold : OldString w.store (env.clock w.tick) (str key) old)
    (halloc : ¬ TinyRespStream.makePanics 1 (max (old.length : Int) (offset + (str val).length))) :
    ∃ new, Spliced old (str val) new offset.toNat ∧
      outcome env (setRangeString [name, key, off, val] : Cmd F writes Reply) w =
        (.ok (intReply new.length), (w.store.checked (str key) (env.clock w.tick)).set (str key)
          ⟨.str, some new⟩) := by
  have hsum : int64 (offset + (str val).length) = offset + (str val).length :=
    int64_of_fits (by constructor <;> omega)
  have hreq : (if offset + (str val).length < (old.length : Int) then (old.length : Int)
      else offset + (str val).length) = max (old.length : Int) (offset + (str val).length) := by
    split <;> omega
  have hnat : (max (old.length : Int) (offset + (str val).length)).toNat =
      max old.length (offset.toNat + (str val).length) := by omega
  have hslice : ¬ offset > max (old.length : Int) (offset + (str val).length) := by omega
  refine ⟨_, overwrite_spliced old (str val) offset.toNat, ?_⟩
  rw [setRangeString, named_cons hname, if_neg (by simp), strAt_bind rfl, hoff]
  dsimp only
  rw [if_neg (by omega), strAt_bind rfl, strAt_bind rfl, outcome_checkTTL_ignored, withLock,
    outcome_withLocks, outcome_get, hsum]
  have hlook := w.store.checked_lookup (str key) (env.clock w.tick)
  cases hold with
  | found h =>
    rw [h] at hlook
    dsimp only
    rw [Store.get_eq_found.mpr hlook]
    dsimp only
    rw [hreq, hnat, if_neg (not_or.mpr ⟨halloc, hslice⟩)]
    rfl
  | absent h =>
    rw [h] at hlook
    dsimp only
    rw [Store.get_eq_absent.mpr hlook]
    dsimp only
    rw [hreq, hnat, if_neg (not_or.mpr ⟨halloc, hslice⟩)]
    rfl

/-- GETRANGE returns the window of positions. -/
theorem outcome_getRangeString (hname : toLower (str name) = ascii "getrange") {s e : Int}
    (ha : atoi (str a) = .ok s) (hb : atoi (str b) = .ok e) {v : Option Bytes} {d : Option Int}
    (hlive : w.store.live (env.clock w.tick) (str key) = some (⟨.str, v⟩, d)) :
    ∃ r, (outcome env (getRangeString [name, key, a, b] : Cmd F reads Reply) w).1 =
        .ok (bulkReply (some r)) ∧
      Window (str v) r (max 0 (fromEnd (str v).length s))
        (min (((str v).length : Int) - 1) (fromEnd (str v).length e)) := by
  obtain ⟨hdue, hdb, -⟩ := Store.live_eq_some.mp hlive
  have hstart : (if s < 0 then ((str v).length : Int) + s else s) = fromEnd (str v).length s := rfl
  have hstop : (if e < 0 then ((str v).length : Int) + e else e) = fromEnd (str v).length e := rfl
  rw [getRangeString, named_cons hname, if_neg (by simp), strAt_bind rfl,
    outcome_reading_found hdue (Store.get_eq_found.mpr hdb), strAt_bind rfl, strAt_bind rfl, ha, hb]
  dsimp only
  rw [hstart, hstop]
  generalize fromEnd (str v).length s = s'
  generalize fromEnd (str v).length e = e'
  have hlow : (if s' < 0 then 0 else s') = max 0 s' := by split <;> omega
  have hhigh : (if e' ≥ (str v).length then ((str v).length : Int) - 1 else e') =
      min (((str v).length : Int) - 1) e' := by split <;> omega
  rw [hlow, hhigh]
  by_cases hempty : ((str v).length : Int) = 0
  · rw [if_pos hempty]
    exact ⟨[], rfl, window_nil _ (by omega)⟩
  · rw [if_neg hempty]
    by_cases hbehind : max 0 s' > (str v).length
    · rw [if_pos hbehind]
      exact ⟨[], rfl, window_nil _ (by omega)⟩
    · rw [if_neg hbehind]
      by_cases hnone : min (((str v).length : Int) - 1) e' < max 0 s'
      · rw [if_pos hnone]
        exact ⟨[], rfl, window_nil _ hnone⟩
      · rw [if_neg hnone]
        obtain ⟨r, hslice, hr⟩ := slice_window (v := str v) (a := max 0 s')
          (b := min (((str v).length : Int) - 1) e') (by omega) (by omega) (by omega)
        rw [hslice]
        exact ⟨r, rfl, hr⟩

end Commands

/-- **SETRANGE AND GETRANGE FIT TOGETHER.**  On every string or absent key SETRANGE
    lays the value over at the offset and replies with the length; on every string
    and with all bounds GETRANGE returns the bytes at the window's positions, so
    that it reads back what SETRANGE wrote. -/
theorem setrange_getrange_fit [UnicodeTables] [FloatText F] (host : Host) (key : Option Bytes) :
    (∀ (env : Env) (w : World F) (name off val : Option Bytes) (offset : Int) (old : Bytes),
      toLower (str name) = ascii "setrange" → atoi (str off) = .ok offset → 0 ≤ offset →
      offset + (str val).length < 2 ^ 63 →
      OldString w.store (env.clock w.tick) (str key) old →
      ¬ TinyRespStream.makePanics 1 (max (old.length : Int) (offset + (str val).length)) →
      ∃ new, Spliced old (str val) new offset.toNat ∧
        (execCommand host env [name, key, off, val] w).1 = .ok (intReply new.length) ∧
        (execCommand host env [name, key, off, val] w).2.store.db.lookup (str key) =
          some ⟨.str, some new⟩ ∧
        ∀ (env' : Env) (w' : World F) (name' a b : Option Bytes) (d : Option Int),
          toLower (str name') = ascii "getrange" → atoi (str a) = .ok offset →
          atoi (str b) = .ok (offset + (str val).length - 1) → str val ≠ [] →
          w'.store.live (env'.clock w'.tick) (str key) = some (⟨.str, some new⟩, d) →
          (execCommand host env' [name', key, a, b] w').1 = .ok (bulkReply (some (str val)))) ∧
    ∀ (env : Env) (w : World F) (name a b : Option Bytes) (s e : Int) (v : Option Bytes)
      (d : Option Int), toLower (str name) = ascii "getrange" → atoi (str a) = .ok s →
      atoi (str b) = .ok e → w.store.live (env.clock w.tick) (str key) = some (⟨.str, v⟩, d) →
      ∃ r, (execCommand host env [name, key, a, b] w).1 = .ok (bulkReply (some r)) ∧
        Window (str v) r (max 0 (fromEnd (str v).length s))
          (min (((str v).length : Int) - 1) (fromEnd (str v).length e)) := by
  have hset : Registered F host "setrange" setRangeString := by simp [Registered, cmdTable]
  have hget : Registered F host "getrange" getRangeString := by simp [Registered, cmdTable]
  constructor
  · intro env w name off val offset old hname hoff hpos hfit hold halloc
    obtain ⟨new, hnew, hrun⟩ := outcome_setRangeString hname hoff hpos hfit hold halloc
    refine ⟨new, hnew, ?_, ?_, ?_⟩
    · rw [exec_reply hset (List.cons_ne_nil _ _) hname, hrun]
    · rw [exec_store hset (List.cons_ne_nil _ _) hname, hrun, Store.set_db, if_pos rfl]
    · intro env' w' name' a b d hname' ha hb hval hlive
      obtain ⟨r, hread, hr⟩ := outcome_getRangeString hname' ha hb hlive
      have hlen := hnew.length
      have hlow : max 0 (fromEnd (str (some new)).length offset) = offset.toNat := by
        rw [fromEnd, if_neg (by omega)]
        omega
      have hpos' := List.length_pos_iff.mpr hval
      have hhigh : min (((str (some new)).length : Int) - 1)
          (fromEnd (str (some new)).length (offset + (str val).length - 1)) =
          offset.toNat + (str val).length - 1 := by
        have hnew' : (str (some new)).length = new.length := rfl
        rw [fromEnd, if_neg (by omega), hnew', hlen]
        omega
      rw [hlow, hhigh] at hr
      rw [exec_reply hget (List.cons_ne_nil _ _) hname', hread, hr.eq_written hnew]
  · intro env w name a b s e v d hname ha hb hlive
    rw [exec_reply hget (List.cons_ne_nil _ _) hname]
    exact outcome_getRangeString hname ha hb hlive

/-- A value laid over behind the end of a string of two bytes, and a window of it. -/
theorem setrange_getrange_fit_gap :
    letI := asciiTables
    let w : World IntScore := ⟨newMemDb.set (ascii "k") ⟨.str, some (ascii "ab")⟩, 0, 0⟩
    let cmd := words ["SETRANGE", "k", "3", "xy"]
    let read := words ["GETRANGE", "k", "-1", "9"]
    (∃ new, Spliced (ascii "ab") (ascii "xy") new 3 ∧
      (execStill cmd w).1 = .ok (intReply new.length)) ∧
    ∃ r, (execStill read w).1 = .ok (bulkReply (some r)) ∧
      Window (ascii "ab") r 1 1 := by
  intro w cmd read
  have hlive : w.store.live (stillEnv.clock w.tick) (ascii "k") =
      some (⟨.str, some (ascii "ab")⟩, none) := rfl
  obtain ⟨hset, hget⟩ := @setrange_getrange_fit IntScore asciiTables _ quietHost (some (ascii "k"))
  obtain ⟨new, hnew, hreply, -⟩ := hset stillEnv w (some (ascii "SETRANGE")) (some (ascii "3"))
    (some (ascii "xy")) 3 (ascii "ab") rfl rfl (by decide) (by decide) (.found hlive) (by decide)
  obtain ⟨r, hread, hr⟩ := hget stillEnv w (some (ascii "GETRANGE")) (some (ascii "-1"))
    (some (ascii "9")) (-1) 9 (some (ascii "ab")) none rfl rfl rfl hlive
  have hlow : max 0 (fromEnd (str (some (ascii "ab"))).length (-1)) = 1 := by decide
  have hhigh : min (((str (some (ascii "ab"))).length : Int) - 1)
    (fromEnd (str (some (ascii "ab"))).length 9) = 1 := by decide
  rw [hlow, hhigh] at hr
  exact ⟨⟨new, hnew, hreply⟩, r, hread, hr⟩

end TinyDb
