import TinyRedis.RelatedRunsProofs
import TinyRedis.CommittedProofs
import TinyRedis.GrowthProofs

/-! # Replicas that apply one log

    Each node of a cluster applies the committed entries with `fsm.Apply`, under a
    clock, an order of map iteration and random numbers of its own.  Two replicas
    agree if neither holds a deadline and the values at each key are twins: the
    same value, or two sorted sets of the same members and scores.  The towers of
    their skip lists may differ, as each node draws its own levels.

    Commands that set no deadline, draw no member and store no NaN keep replicas in
    agreement and reply the same on both; so does every log of them. -/

namespace TinyZSet

open GoString GoFloat

variable {F : Type} [Float64 F] {z z' : ZSet F}

/-! ## Twin sorted sets -/

/-- Two well-formed sorted sets with the same scores. -/
structure Twins (z z' : ZSet F) : Prop where
  left : ∃ ps, Repr z ps
  right : ∃ ps, Repr z' ps
  dict : z.dict = z'.dict

/-- The members and scores in order. -/
def ZSet.pairs (z : ZSet F) : List (Bytes × F) :=
  z.nodes.map fun p => ((z.mem p).member, (z.mem p).score)

theorem twins_new : Twins (newZSet : ZSet F) newZSet :=
  ⟨⟨[], newZSet_repr⟩, ⟨[], newZSet_repr⟩, rfl⟩

/-- One member comes before another. -/
def pairBefore (a b : Bytes × F) : Prop := before b.2 b.1 (newZSetNode 1 a.1 a.2) = true

theorem Repr.pairs_sorted {ps : List Nat} (h : Repr z ps) : z.pairs.Pairwise pairBefore := by
  rw [ZSet.pairs, h.nodes_eq, List.pairwise_map]
  refine h.sorted.imp fun {p q} hpq => ?_
  rw [pairBefore, ← hpq]
  exact before_congr rfl rfl

theorem Repr.mem_pairs {ps : List Nat} (h : Repr z ps) (a : Bytes × F) :
    a ∈ z.pairs ↔ z.dict a.1 = some a.2 := by
  rw [ZSet.pairs, h.nodes_eq, List.mem_map, h.dict]
  simp [Prod.ext_iff]

/-- **Twins are read alike**: the same members and scores in the same order. -/
theorem Twins.pairs_eq (h : Twins z z') : z.pairs = z'.pairs := by
  obtain ⟨⟨ps, hz⟩, ⟨ps', hz'⟩, hdict⟩ := h
  have hirrefl : ∀ a : Bytes × F, ¬ pairBefore a a := by
    intro a ha
    have hfalse := before_irrefl (newZSetNode 1 a.1 a.2)
    rw [pairBefore] at ha
    exact absurd (ha.symm.trans hfalse) (by decide)
  have hnodup : ∀ {l : List (Bytes × F)}, l.Pairwise pairBefore → l.Nodup := by
    intro l hl
    refine hl.imp fun {a b} hab => ?_
    rintro rfl
    exact hirrefl a hab
  have hperm : z.pairs.Perm z'.pairs := by
    refine (List.perm_ext_iff_of_nodup (hnodup hz.pairs_sorted) (hnodup hz'.pairs_sorted)).mpr ?_
    intro a
    rw [hz.mem_pairs, hz'.mem_pairs, hdict]
  refine hperm.eq_of_pairwise (fun a b _ _ hab hba => ?_) hz.pairs_sorted hz'.pairs_sorted
  have haa : pairBefore a a := before_trans (b := newZSetNode 1 b.1 b.2) hab hba
  exact absurd haa (hirrefl a)

/-- The map after `Add`, and its result. -/
def entered (dict : Bytes → Option F) (m : Bytes) (s : F) : (Bytes → Option F) × Bool :=
  match dict m with
  | some old => if eq old s then (dict, false) else (Function.update dict m (some s), true)
  | none => (Function.update dict m (some s), true)

theorem Repr.add_entered {ps : List Nat} (h : Repr z ps) (m : Bytes) (s : F) (l : Nat) :
    ((z.add m s l).1.dict, (z.add m s l).2) = entered z.dict m s := by
  have hinsert : ∀ y : ZSet F, (y.insertNode m s l).dict = Function.update y.dict m (some s) :=
    fun y => (insertNode_nodes y m s l).2.2.2.2.2.2.2.1
  unfold ZSet.add entered
  cases hd : z.dict m with
  | none =>
    dsimp only
    rw [hinsert]
  | some old =>
    dsimp only
    by_cases heq : eq old s = true
    · rw [if_pos heq, if_pos heq]
    · rw [if_neg heq, if_neg heq, hinsert, h.deleteNode_dict hd, Function.update_idem]

/-- `Add`, under any two levels. -/
theorem Twins.add (h : Twins z z') {m : Bytes} {s : F} (hs : IsNum s) {l l' : Nat} (hl : IsLevel l)
    (hl' : IsLevel l') :
    Twins (z.add m s l).1 (z'.add m s l').1 ∧ (z.add m s l).2 = (z'.add m s l').2 := by
  obtain ⟨⟨ps, hz⟩, ⟨ps', hz'⟩, hdict⟩ := h
  have hsame := hz.add_entered m s l
  rw [hdict, ← hz'.add_entered m s l'] at hsame
  obtain ⟨hd, hr⟩ := Prod.mk.inj hsame
  exact ⟨⟨hz.add hs hl, hz'.add hs hl', hd⟩, hr⟩

/-- `Remove`. -/
theorem Twins.remove (h : Twins z z') (m : Bytes) :
    Twins (z.remove m).1 (z'.remove m).1 ∧ (z.remove m).2 = (z'.remove m).2 := by
  obtain ⟨⟨ps, hz⟩, ⟨ps', hz'⟩, hdict⟩ := h
  obtain ⟨hd, hr⟩ := hz.remove_dict m
  obtain ⟨hd', hr'⟩ := hz'.remove_dict m
  rw [← hdict] at hd' hr'
  exact ⟨⟨⟨_, (hz.remove m).1⟩, ⟨_, (hz'.remove m).1⟩, hd.trans hd'.symm⟩, hr.trans hr'.symm⟩

/-- `Remove` of several members, and how many were there. -/
theorem Twins.removeAll (ms : List Bytes) : ∀ {z z' : ZSet F}, Twins z z' →
    Twins (z.removeAll ms).1 (z'.removeAll ms).1 ∧ (z.removeAll ms).2 = (z'.removeAll ms).2 := by
  induction ms with
  | nil =>
    intro z z' h
    exact ⟨h, rfl⟩
  | cons m ms ih =>
    intro z z' h
    obtain ⟨hrest, hr⟩ := h.remove m
    obtain ⟨htwins, hcount⟩ := ih hrest
    refine ⟨htwins, ?_⟩
    show (if (z.remove m).2 then 1 else 0) + ((z.remove m).1.removeAll ms).2 =
      (if (z'.remove m).2 then 1 else 0) + ((z'.remove m).1.removeAll ms).2
    rw [hr, hcount]

/-- `IncrBy`, and the score it returns. -/
theorem Twins.incrBy (h : Twins z z') {m : Bytes} {d : F} (hs : IsNum (z.incremented m d))
    {l l' : Nat} (hl : IsLevel l) (hl' : IsLevel l') :
    Twins (z.incrBy m d l).1 (z'.incrBy m d l').1 ∧ (z.incrBy m d l).2 = (z'.incrBy m d l').2 := by
  have hsame := congrFun h.dict m
  unfold ZSet.incremented at hs
  unfold ZSet.incrBy
  rw [← hsame]
  cases hd : z.dict m with
  | none =>
    rw [hd] at hs
    exact ⟨(h.add hs hl hl').1, rfl⟩
  | some old =>
    rw [hd] at hs hsame
    -- `IncrBy` deletes the member as `Remove` does, and adds it anew
    have hremove := (h.remove m).1
    unfold ZSet.remove at hremove
    rw [hd, ← hsame] at hremove
    exact ⟨(hremove.add hs hl hl').1, rfl⟩

end TinyZSet

namespace TinyDb

open GoString GoStrconv GoFloat GoProgram.Prog TinyResp TinyRespRoundTrip TinyZSet

variable {F : Type}

/-! ## Agreement -/

section Stores

variable [Float64 F]

/-- The same value, or twin sorted sets. -/
inductive Twin : Value F → Value F → Prop
  | same (v : Value F) (hv : v.kind ≠ .zset) : Twin v v
  | zsets {z z' : ZSet F} (h : Twins z z') : Twin ⟨.zset, z⟩ ⟨.zset, z'⟩

/-- Two stores without deadlines, with twins at each key. -/
structure Agree (s t : Store F) : Prop where
  lasting : ∀ k, s.ttl.lookup k = none
  lasting' : ∀ k, t.ttl.lookup k = none
  values : ∀ k, Option.Rel Twin (s.db.lookup k) (t.db.lookup k)

/-- What was found, on two replicas. -/
inductive FoundTwins : Found (ZSet F) → Found (ZSet F) → Prop
  | absent : FoundTwins .absent .absent
  | wrongType : FoundTwins .wrongType .wrongType
  | found {z z' : ZSet F} (h : Twins z z') : FoundTwins (.found z) (.found z')

variable {s t : Store F}

/-- A key is absent from both, or at twins. -/
theorem Agree.cases (h : Agree s t) (k : Bytes) :
    (s.db.lookup k = none ∧ t.db.lookup k = none) ∨
      ∃ v v', s.db.lookup k = some v ∧ t.db.lookup k = some v' ∧ Twin v v' := by
  have hk := h.values k
  generalize s.db.lookup k = a at hk ⊢
  generalize t.db.lookup k = b at hk ⊢
  cases hk with
  | none => exact .inl ⟨rfl, rfl⟩
  | some hv => exact .inr ⟨_, _, rfl, rfl, hv⟩

theorem Agree.kinds (h : Agree s t) (k : Bytes) :
    (s.db.lookup k).map Value.kind = (t.db.lookup k).map Value.kind := by
  rcases h.cases k with ⟨hs, ht⟩ | ⟨v, v', hs, ht, hv⟩
  · rw [hs, ht]
  · rw [hs, ht]
    cases hv <;> rfl

theorem Agree.isSome (h : Agree s t) (k : Bytes) :
    (s.db.lookup k).isSome = (t.db.lookup k).isSome := by
  rw [← Option.isSome_map (f := Value.kind), h.kinds k, Option.isSome_map]

theorem Agree.checkTTL (h : Agree s t) (key : Bytes) (now now' : Int) :
    s.checkTTL key now = (true, s) ∧ t.checkTTL key now' = (true, t) := by
  have hlive : ∀ {u : Store F} {n : Int}, u.ttl.lookup key = none →
      u.checkTTL key n = (true, u) := by
    intro u n hu
    rw [Store.checkTTL, Store.popTTL, hu]
  exact ⟨hlive (h.lasting key), hlive (h.lasting' key)⟩

/-- Values that are no sorted sets are found alike. -/
theorem Agree.get (h : Agree s t) {kind : Kind} (hk : kind ≠ .zset) (key : Bytes) :
    s.get kind key = t.get kind key := by
  rw [Store.get, Store.get]
  rcases h.cases key with ⟨hs, ht⟩ | ⟨v, v', hs, ht, hv⟩
  · rw [hs, ht]
  · rw [hs, ht]
    cases hv with
    | same v hv => rfl
    | zsets _ =>
      show Value.as _ kind = Value.as _ kind
      rw [Value.as, Value.as, dif_neg hk.symm, dif_neg hk.symm]

theorem Agree.getZSet (h : Agree s t) (key : Bytes) :
    FoundTwins (s.get .zset key) (t.get .zset key) := by
  rw [Store.get, Store.get]
  rcases h.cases key with ⟨hs, ht⟩ | ⟨v, v', hs, ht, hv⟩
  · rw [hs, ht]
    exact .absent
  · rw [hs, ht]
    cases hv with
    | same v hv =>
      show FoundTwins (v.as .zset) (v.as .zset)
      rw [Value.as, dif_neg hv]
      exact .wrongType
    | zsets htwins => exact .found htwins

theorem Agree.set (h : Agree s t) (key : Bytes) {v v' : Value F} (hv : Twin v v') :
    Agree (s.set key v) (t.set key v') := by
  refine ⟨h.lasting, h.lasting', fun k => ?_⟩
  rw [Store.set_db, Store.set_db]
  by_cases hk : k = key
  · rw [if_pos hk, if_pos hk]
    exact .some hv
  · rw [if_neg hk, if_neg hk]
    exact h.values k

theorem Agree.update (h : Agree s t) (key : Bytes) {v v' : Value F} (hv : Twin v v') :
    Agree (s.update key v) (t.update key v') := by
  rw [Store.update, Store.update, h.isSome key]
  split
  · exact h.set key hv
  · exact h

theorem Agree.setIfNotExist (h : Agree s t) (key : Bytes) {v v' : Value F} (hv : Twin v v') :
    (s.setIfNotExist key v).1 = (t.setIfNotExist key v').1 ∧
      Agree (s.setIfNotExist key v).2 (t.setIfNotExist key v').2 := by
  rw [Store.setIfNotExist, Store.setIfNotExist, h.isSome key]
  split
  · exact ⟨rfl, h⟩
  · exact ⟨rfl, h.set key hv⟩

theorem Agree.delete (h : Agree s t) (key : Bytes) :
    (s.delete key).1 = (t.delete key).1 ∧ Agree (s.delete key).2 (t.delete key).2 := by
  constructor
  · rw [Store.delete, Store.delete, h.isSome key]
    split <;> rfl
  · refine ⟨fun k => ?_, fun k => ?_, fun k => ?_⟩
    · rw [Store.delete_ttl]
      exact h.lasting k
    · rw [Store.delete_ttl]
      exact h.lasting' k
    · rw [Store.delete_db, Store.delete_db]
      by_cases hk : k = key
      · rw [if_pos hk, if_pos hk]
        exact .none
      · rw [if_neg hk, if_neg hk]
        exact h.values k

theorem Agree.removeTTL (h : Agree s t) (key : Bytes) :
    Agree (s.removeTTL key) (t.removeTTL key) := by
  refine ⟨fun k => ?_, fun k => ?_, h.values⟩
  · rw [Store.removeTTL_ttl, h.lasting k, ite_self]
  · rw [Store.removeTTL_ttl, h.lasting' k, ite_self]

end Stores

/-! ## One operation on both -/

/-- Operations that do the same on both: no clock, no choice, no sorted set. -/
def Op.Plain {c : Caps} : Op F c → Prop
  | .get kind _ _ => kind ≠ .zset
  | .set kind _ _ _ _ => kind ≠ .zset
  | .update kind _ _ _ _ => kind ≠ .zset
  | .getAny .. => False
  | .setAny .. => False
  | .keys _ => False
  | .setTTL .. => False
  | .now _ => False
  | .order .. => False
  | .intn .. => False
  | .level _ => False
  | _ => True

/-- Capabilities without clock, choice and sorted sets. -/
def Caps.plain (c : Caps) : Bool := !(c.timed || c.random || c.sorted)

/-- They leave plain operations only. -/
theorem plain_of_caps {c : Caps} (hc : c.plain = true) (o : Op F c) : o.Plain := by
  obtain ⟨write, timed, random, sorted⟩ := c
  obtain ⟨⟨rfl, rfl⟩, rfl⟩ : (timed = false ∧ random = false) ∧ sorted = false := by
    simpa [Caps.plain] using hc
  cases o with
  | get kind key h => exact fun e => absurd (h e) Bool.false_ne_true
  | set kind key obj hw h => exact fun e => absurd (h e) Bool.false_ne_true
  | update kind key obj hw h => exact fun e => absurd (h e) Bool.false_ne_true
  | getAny key h => exact absurd h Bool.false_ne_true
  | setAny key v hw h => exact absurd h Bool.false_ne_true
  | keys h => exact absurd h Bool.false_ne_true
  | setTTL key d hw ht => exact absurd ht Bool.false_ne_true
  | now h => exact absurd h Bool.false_ne_true
  | order l h => exact absurd h Bool.false_ne_true
  | intn n h => exact absurd h Bool.false_ne_true
  | level h => exact absurd h Bool.false_ne_true
  | _ => trivial

/-- Two replicas, with the numbers of their operations and choices. -/
def Abreast [Float64 F] (w v : World F) : Prop := Agree w.store v.store

/-- **A plain operation** gives the same result on both and keeps them in step. -/
theorem step_plain [Float64 F] (env env' : Env) {c : Caps} (o : Op F c) (w v : World F)
    (ho : o.Plain) (h : Abreast w v) :
    (o.step env w).1 = (o.step env' v).1 ∧ Abreast (o.step env w).2 (o.step env' v).2 := by
  cases o with
  | checkTTL key =>
    obtain ⟨hw, hv⟩ := h.checkTTL key (env.clock w.tick) (env'.clock v.tick)
    simp only [Op.step_checkTTL, hw, hv]
    exact ⟨trivial, h⟩
  | has key => exact ⟨h.isSome key, h⟩
  | typeOf key => exact ⟨h.kinds key, h⟩
  | get kind key => exact ⟨h.get ho key, h⟩
  | expireAt key => exact ⟨(h.lasting key).trans (h.lasting' key).symm, h⟩
  | set kind key obj => exact ⟨rfl, h.set key (.same _ ho)⟩
  | update kind key obj => exact ⟨rfl, h.update key (.same _ ho)⟩
  | setIfNotExist key val => exact h.setIfNotExist key (.same _ Kind.str_ne)
  | delete key => exact h.delete key
  | removeTTL key => exact ⟨rfl, h.removeTTL key⟩
  | lock keys => exact ⟨rfl, h⟩
  | unLock keys => exact ⟨rfl, h⟩
  | rLock keys => exact ⟨rfl, h⟩
  | rUnLock keys => exact ⟨rfl, h⟩
  | getAny => exact absurd ho id
  | setAny => exact absurd ho id
  | keys => exact absurd ho id
  | setTTL => exact absurd ho id
  | now => exact absurd ho id
  | order => exact absurd ho id
  | intn => exact absurd ho id
  | level => exact absurd ho id

/-! ## Rules -/

section Rules

variable [Float64 F] {env env' : Env} {c : Caps} {α : Type} {Q : α → α → Prop}

/-- Two programs that are alike on two replicas. -/
abbrev Alike (env env' : Env) (Q : α → α → Prop) (p q : Cmd F c α) : Prop :=
  Related (Op.step env) (Op.step env') Abreast Q p q

/-- A program of plain operations. -/
theorem alike_plain {p : Cmd F c α} (hp : p.Uses Op.Plain) : Alike env env' Eq p p :=
  related_of_uses (fun o w v => step_plain env env' o w v) hp

theorem alike_op {o : Op F c} {next next' : o.Res → Cmd F c α} (ho : o.Plain)
    (h : ∀ r, Alike env env' Q (next r) (next' r)) :
    Alike env env' Q (.op o next) (.op o next') := by
  refine related_op Eq (fun w v => step_plain env env' o w v ho) ?_
  rintro r _ rfl
  exact h r

theorem alike_strAt {cmd : Command} {i : Nat} {f f' : Bytes → Cmd F c α}
    (h : ∀ a, cmd[i]? = some a → Alike env env' Q (f (str a)) (f' (str a))) :
    Alike env env' Q (strAt cmd i >>= f) (strAt cmd i >>= f') := by
  rw [strAt]
  cases ha : cmd[i]? with
  | none => exact related_stop .panic
  | some a => exact h a ha

theorem alike_guard {p : Prop} [Decidable p] {reply : α} {body body' : Cmd F c α}
    (hreply : Q reply reply) (h : ¬ p → Alike env env' Q body body') :
    Alike env env' Q (if p then .ret reply else body) (if p then .ret reply else body') := by
  by_cases hp : p
  · rw [if_pos hp, if_pos hp]
    exact related_ret hreply
  · rw [if_neg hp, if_neg hp]
    exact h hp

theorem alike_withLocks {keys : List Bytes} {body body' : Cmd F c α}
    (h : Alike env env' Q body body') :
    Alike env env' Q (withLocks keys body) (withLocks keys body') :=
  alike_op trivial fun _ => h.defer (alike_plain ⟨trivial, fun _ => trivial⟩)

/-- `m.db.Get(key)` and an assertion to `*ZSet`. -/
theorem alike_getZSet {key : Bytes} {hc : c.sorted = true} {f f' : Found (ZSet F) → Cmd F c α}
    (h : ∀ r r', FoundTwins r r' → Alike env env' Q (f r) (f' r')) :
    Alike env env' Q (getZSet key hc >>= f) (getZSet key hc >>= f') :=
  related_op FoundTwins (fun _ _ hwv => ⟨hwv.getZSet key, hwv⟩) h

/-- A change of the sorted set at `key`, to twins. -/
theorem alike_updateZSet {key : Bytes} {z z' : ZSet F} (hz : Twins z z') {hw : c.write = true}
    {hc : c.sorted = true} {f f' : Unit → Cmd F c α} (h : Alike env env' Q (f ()) (f' ())) :
    Alike env env' Q (updateZSet key z hw hc >>= f) (updateZSet key z' hw hc >>= f') :=
  related_op Eq (fun _ _ hwv => ⟨rfl, hwv.update key (.zsets hz)⟩) fun _ _ _ => h

/-- `randomLevel` on both, each with its own outcome. -/
theorem alike_randomLevel {hc : c.random = true} {f f' : Nat → Cmd F c α}
    (h : ∀ l l', IsLevel l → IsLevel l' → Alike env env' Q (f l) (f' l')) :
    Alike env env' Q (randomLevel hc >>= f) (randomLevel hc >>= f') :=
  related_op (fun l l' => IsLevel l ∧ IsLevel l')
    (fun w v hwv => ⟨⟨env.level_range w.draws, env'.level_range v.draws⟩, hwv⟩)
    fun l l' hl => h l l' hl.1 hl.2

end Rules

/-! ## The commands -/

section Commands

variable [UnicodeTables] [FloatText F] {env env' : Env} {cmd : Command}

omit [FloatText F] in
theorem alike_named [Float64 F] {c : Caps} {cmd : Command} {name : String} {bad : Reply}
    {body body' : Cmd F c Reply} (h : Alike env env' Eq body body') :
    Alike env env' Eq (named cmd name bad body) (named cmd name bad body') :=
  alike_strAt fun _ _ => alike_guard rfl fun _ => h

theorem alike_zNamed {c : Caps} {name : String} {lengthOk : Bool} {body body' : Cmd F c Reply}
    (h : Alike env env' Eq body body') :
    Alike env env' Eq (zNamed cmd name lengthOk body) (zNamed cmd name lengthOk body') :=
  alike_strAt fun _ _ => alike_guard rfl fun _ => h

/-- The options of a SET ask for no deadline. -/
def NoDeadline (cmd : Command) : Prop :=
  ∀ o, setOptions (cmd.drop 3) ⟨false, false, false, false, false, 0⟩ = .ok o → o.ex = false

omit [UnicodeTables] [FloatText F] in
/-- The part of SET behind the test of the old value. -/
theorem setEnd_plain {o : SetOptions} (hex : o.ex = false) (key : Bytes) (val : Option Bytes)
    (write : Bool) (res : Reply) : (setEnd o key val write res : Cmd F _ _).Uses Op.Plain := by
  obtain ⟨nx, xx, get, ex, keepttl, exval⟩ := o
  obtain rfl : ex = false := hex
  cases write <;> cases keepttl <;> simp [setEnd, Uses, Op.Plain]

theorem setString_alike (h : NoDeadline cmd) :
    Alike env env' Eq (setString cmd : Cmd F _ _) (setString cmd) := by
  refine alike_named (alike_guard rfl fun _ => alike_strAt fun key _ => ?_)
  rw [argAt]
  cases cmd[2]? with
  | none => exact related_stop .panic
  | some val =>
    refine alike_op trivial fun _ => ?_
    cases ho : setOptions (cmd.drop 3) ⟨false, false, false, false, false, 0⟩ with
    | error reply => exact related_ret rfl
    | ok o =>
      refine alike_guard rfl fun _ => alike_withLocks (alike_op Kind.str_ne fun old => ?_)
      refine alike_plain ?_
      cases old with
      | wrongType => trivial
      | absent => exact setEnd_plain (h o ho) _ val _ _
      | found old => exact setEnd_plain (h o ho) _ val _ _

theorem renameKey_alike (cmd : Command) :
    Alike env env' Eq (renameKey cmd : Cmd F _ _) (renameKey cmd) := by
  refine alike_strAt fun _ _ => alike_guard rfl fun _ => alike_strAt fun old _ =>
    alike_strAt fun new _ => alike_op trivial fun _ => alike_guard rfl fun _ => alike_withLocks ?_
  refine related_op (Option.Rel Twin) (fun _ _ hwv => ⟨hwv.values (str old), hwv⟩) ?_
  intro a b hab
  cases hab with
  | none => exact related_ret rfl
  | some hv =>
    refine alike_op trivial fun _ => alike_op trivial fun _ => alike_op trivial fun _ =>
      alike_op trivial fun _ => ?_
    exact related_op Eq (fun _ _ hwv => ⟨rfl, hwv.set (str new) hv⟩) fun _ _ _ => related_ret rfl

omit [UnicodeTables] in
/-- The sorted set at a key, made when it is absent. -/
theorem getOrCreateZSet_alike (key : Bytes) :
    Alike env env' FoundTwins (getOrCreateZSet key : Cmd F _ _) (getOrCreateZSet key) := by
  refine alike_getZSet fun r r' hr => ?_
  cases hr with
  | absent =>
    refine related_op Eq (fun _ _ hwv => ⟨rfl, hwv.set key (.zsets twins_new)⟩) fun _ _ _ => ?_
    exact related_ret (.found twins_new)
  | wrongType => exact related_ret .wrongType
  | found h => exact related_ret (.found h)

omit [UnicodeTables] in
/-- The loop of ZADD: the sets stay twins, whatever levels the two draw. -/
theorem zAddLoop_alike (args : List (Option Bytes)) (z z' : ZSet F) (res : Int) (hz : Twins z z')
    (hnum : ∀ pair ∈ (scorePairs args : List (Bytes × F) × Bool).1,
      IsNum pair.2) :
    Alike env env' (fun r r' => Twins r.1 r'.1 ∧ r.2 = r'.2) (zAddLoop args z res)
      (zAddLoop args z' res) := by
  fun_induction zAddLoop args z res generalizing z' with
  | case1 => exact related_stop .panic
  | case2 score member rest z res hbad =>
    rw [zAddLoop, hbad]
    exact related_ret ⟨hz, rfl⟩
  | case3 score member rest z res s hs ih =>
    rw [zAddLoop, hs]
    rw [scorePairs, hs] at hnum
    have hfirst : IsNum s := hnum (str member, s) List.mem_cons_self
    have hrest : ∀ pair ∈ (scorePairs rest : List (Bytes × F) × Bool).1, IsNum pair.2 :=
      fun pair hpair => hnum pair (List.mem_cons_of_mem _ hpair)
    refine alike_randomLevel fun l l' hl hl' => ?_
    obtain ⟨htwins, hadded⟩ := hz.add (m := str member) hfirst hl hl'
    have hloop := ih l (z'.add (str member) s l').1 htwins hrest
    dsimp only at hloop ⊢
    rw [hadded] at hloop ⊢
    exact hloop
  | case4 => exact related_ret ⟨hz, rfl⟩

theorem zAddZset_alike
    (hnum : ∀ pair ∈ (scorePairs (cmd.drop 2) : List (Bytes × F) × Bool).1, IsNum pair.2) :
    Alike env env' Eq (zAddZset cmd : Cmd F _ _) (zAddZset cmd) := by
  refine alike_named (alike_guard rfl fun _ => alike_strAt fun key _ => alike_op trivial fun _ =>
    alike_withLocks ((getOrCreateZSet_alike _).bind fun r r' hr => ?_))
  cases hr with
  | absent => exact related_ret rfl
  | wrongType => exact related_ret rfl
  | found hz =>
    refine (zAddLoop_alike _ _ _ 0 hz hnum).bind fun r r' hr => alike_updateZSet hr.1 ?_
    rw [hr.2]
    cases r'.2 <;> exact related_ret rfl

theorem zRemZset_alike (cmd : Command) :
    Alike env env' Eq (zRemZset cmd : Cmd F _ _) (zRemZset cmd) := by
  refine alike_zNamed (alike_strAt fun key _ => alike_op trivial fun live =>
    alike_guard rfl fun _ =>
    alike_withLocks (alike_getZSet fun r r' hr => ?_))
  cases hr with
  | absent => exact related_ret rfl
  | wrongType => exact related_ret rfl
  | found hz =>
    obtain ⟨htwins, hcount⟩ := hz.removeAll ((cmd.drop 2).map str)
    refine alike_updateZSet htwins ?_
    rw [hcount]
    exact related_ret rfl

/-- An increment that leaves numbers numbers. -/
def Tame (d : F) : Prop := IsNum d ∧ ∀ s : F, IsNum s → IsNum (Float64.add s d)

omit [UnicodeTables] in
theorem Tame.incremented {d : F} (h : Tame d) {z : ZSet F} {ps : List Nat} (hz : Repr z ps)
    (m : Bytes) : IsNum (z.incremented m d) := by
  unfold ZSet.incremented
  cases hd : z.dict m with
  | none => exact h.1
  | some old =>
    obtain ⟨p, hp, -, rfl⟩ := (hz.dict m old).mp hd
    exact h.2 _ (hz.numeric p hp)

theorem zIncrByZset_alike
    (hfinite : ∀ (arg : Option Bytes) (d : F), cmd[2]? = some arg →
      FloatText.parse (str arg) = some d → Tame d) :
    Alike env env' Eq (zIncrByZset cmd : Cmd F _ _) (zIncrByZset cmd) := by
  refine alike_zNamed (alike_strAt fun key _ => alike_strAt fun incr hincr => ?_)
  cases hd : (FloatText.parse (str incr) : Option F) with
  | none => exact related_ret rfl
  | some d =>
    have hd' : Tame d := hfinite incr d hincr hd
    refine alike_strAt fun member _ => alike_op trivial fun _ =>
      alike_withLocks ((getOrCreateZSet_alike _).bind fun r r' hr => ?_)
    cases hr with
    | absent => exact related_ret rfl
    | wrongType => exact related_ret rfl
    | found hz =>
      refine alike_randomLevel fun l l' hl hl' => ?_
      obtain ⟨ps, hps⟩ := hz.left
      obtain ⟨htwins, hscore⟩ := hz.incrBy (hd'.incremented hps (str member)) hl hl'
      refine alike_updateZSet htwins ?_
      rw [hscore]
      exact related_ret rfl

/-! ## Every command of the log -/

/-- Commands that draw a member or set a deadline. -/
def unsteadyNames : List String := ["spop", "expire", "setex"]

variable (F) in
/-- Commands that set no deadline, draw no member and store no NaN. -/
structure Steady (cmd : Command) : Prop where
  names : ∀ name ∈ unsteadyNames, toLower (cmdName cmd) ≠ ascii name
  set : toLower (cmdName cmd) = ascii "set" → NoDeadline cmd
  zadd : toLower (cmdName cmd) = ascii "zadd" →
    ∀ pair ∈ (scorePairs (cmd.drop 2) : List (Bytes × F) × Bool).1, IsNum pair.2
  zincrby : toLower (cmdName cmd) = ascii "zincrby" → ∀ (arg : Option Bytes) (d : F),
    cmd[2]? = some arg → FloatText.parse (str arg) = some d → Tame d

/-- Routed executors that use more than plain operations, steadily. -/
def watchedNames : List String := ["set", "rename", "zadd", "zrem", "zincrby"]

/-- Every other routed executor, but for those that are not steady, is plain. -/
theorem cmdTable_plain (host : Host) : ∀ entry ∈ (cmdTable host : List (String × Executor F)),
    entry.1 ∈ routedWrites →
      entry.1 ∈ watchedNames ∨ entry.1 ∈ unsteadyNames ∨ entry.2.caps.plain = true := by
  have hall : (cmdTable host : List (String × Executor F)).all (fun entry =>
      decide (entry.1 ∈ routedWrites → entry.1 ∈ watchedNames ∨
        entry.1 ∈ unsteadyNames ∨ entry.2.caps.plain = true)) = true := rfl
  exact fun entry hmem => of_decide_eq_true (List.all_eq_true.mp hall entry hmem)

/-- **Every routed executor** is alike on two replicas, on steady commands. -/
theorem cmdTable_alike (host : Host) {name : String} {e : Executor F}
    (hmem : (name, e) ∈ cmdTable host) (hrouted : name ∈ routedWrites) {cmd : Command}
    (hname : toLower (cmdName cmd) = ascii name) (h : Steady F cmd) :
    Alike env env' Eq (e.body cmd) (e.body cmd) := by
  have registered : ∀ e' : Executor F, (name, e') ∈ cmdTable host → e = e' := fun _ hmem' =>
    Option.some.inj ((lookupCmd_of_mem hmem).symm.trans (lookupCmd_of_mem hmem'))
  rcases cmdTable_plain host _ hmem hrouted with hwatched | hsteady | hplain
  · simp only [watchedNames, List.mem_cons, List.not_mem_nil, or_false] at hwatched
    rcases hwatched with rfl | rfl | rfl | rfl | rfl
    · obtain rfl := registered ⟨_, setString⟩ (by simp [cmdTable])
      exact setString_alike (h.set hname)
    · obtain rfl := registered ⟨_, renameKey⟩ (by simp [cmdTable])
      exact renameKey_alike cmd
    · obtain rfl := registered ⟨_, zAddZset⟩ (by simp [cmdTable])
      exact zAddZset_alike (h.zadd hname)
    · obtain rfl := registered ⟨_, zRemZset⟩ (by simp [cmdTable])
      exact zRemZset_alike cmd
    · obtain rfl := registered ⟨_, zIncrByZset⟩ (by simp [cmdTable])
      exact zIncrByZset_alike (h.zincrby hname)
  · exact absurd hname (h.names name hsteady)
  · exact alike_plain (uses_of_forall (plain_of_caps hplain) _)

/-- The executors of write commands do not depend on the node. -/
theorem mem_cmdTable_of_routed (host host' : Host) : ∀ entry : String × Executor F,
    entry ∈ cmdTable host → entry.1 ∈ routedWrites → entry ∈ cmdTable host' := by
  intro entry hmem hrouted
  rw [← List.take_append_drop 79 (cmdTable host)] at hmem
  rcases List.mem_append.mp hmem with hfront | hback
  · have hsame : entry ∈ (cmdTable host').take 79 := hfront
    exact List.mem_of_mem_take hsame
  · have hall : ((cmdTable host : List (String × Executor F)).drop 79).all
        (fun entry => decide (entry.1 ∉ routedWrites)) = true := rfl
    exact absurd hrouted (of_decide_eq_true (List.all_eq_true.mp hall entry hback))

theorem lookupCmd_of_isWriteCommand (hcase : CasesApart) (host host' : Host) {cmd : Command}
    (hwrite : isWriteCommand cmd = true) :
    (lookupCmd host (toLower (cmdName cmd)) : Option (Executor F)) =
      lookupCmd host' (toLower (cmdName cmd)) := by
  have half : ∀ (h h' : Host) (e : Executor F), lookupCmd h (toLower (cmdName cmd)) = some e →
      lookupCmd h' (toLower (cmdName cmd)) = some e := by
    intro h h' e hlook
    obtain ⟨name, hmem, hname⟩ := lookupCmd_mem hlook
    have hrouted := routed_of_isWriteCommand hcase hwrite hmem hname
    rw [← hname]
    exact lookupCmd_of_mem (mem_cmdTable_of_routed h h' _ hmem hrouted)
  exact Option.ext fun e => ⟨half host host' e, half host' host e⟩

/-- **One command of the log** on two replicas. -/
theorem execCommand_abreast (hcase : CasesApart) (host host' : Host) (env env' : Env)
    {cmd : Command} (hwrite : isWriteCommand cmd = true) (hsteady : Steady F cmd) {w v : World F}
    (h : Abreast w v) : (execCommand host env cmd w).1 = (execCommand host' env' cmd v).1 ∧
      Abreast (execCommand host env cmd w).2 (execCommand host' env' cmd v).2 := by
  have hlook := lookupCmd_of_isWriteCommand (F := F) hcase host host' hwrite
  unfold execCommand
  rw [← hlook]
  split
  · exact ⟨rfl, h⟩
  · cases hcmd : (lookupCmd host (toLower (cmdName cmd)) : Option (Executor F)) with
    | none => exact ⟨rfl, h⟩
    | some command =>
      obtain ⟨name, hmem, hname⟩ := lookupCmd_mem hcmd
      have hrouted := routed_of_isWriteCommand hcase hwrite hmem hname
      obtain ⟨hend, hw⟩ := cmdTable_alike host hmem hrouted hname.symm hsteady w v h
      exact ⟨sameEnd_eq hend, hw⟩

/-! ## The log -/

/-- What there is to read of a value: a sorted set by its members and scores in order. -/
inductive Content (F : Type) where
  | plain (v : Value F)
  | sorted (pairs : List (Bytes × F))

/-- The content of a value. -/
def Value.content : Value F → Content F
  | ⟨.zset, z⟩ => .sorted z.pairs
  | v => .plain v

omit [UnicodeTables] in
theorem Twin.content_eq {v v' : Value F} (h : Twin v v') : v.content = v'.content := by
  cases h with
  | same v hv => rfl
  | zsets htwins => exact congrArg Content.sorted htwins.pairs_eq

/-- Two replicas that are abreast stay so along the log. -/
theorem applyLog_abreast (hcase : CasesApart) (host host' : Host) (env env' : Env)
    (log : List Bytes) (hlog : ∀ data ∈ log, ∀ cmd, decodeCommand data = .ok cmd →
      isWriteCommand cmd = true ∧ Steady F cmd) {w v : World F} (h : Abreast w v) :
    (applyLog host env log w).1 = (applyLog host' env' log v).1 ∧
      Abreast (applyLog host env log w).2 (applyLog host' env' log v).2 := by
  induction log generalizing w v with
  | nil => exact ⟨rfl, h⟩
  | cons data log ih =>
    have hentry : (fsmApply host env data w).1 = (fsmApply host' env' data v).1 ∧
        Abreast (fsmApply host env data w).2 (fsmApply host' env' data v).2 := by
      unfold fsmApply
      cases hdecode : decodeCommand data with
      | error e => cases e <;> exact ⟨rfl, h⟩
      | ok cmd =>
        obtain ⟨hwrite, hsteady⟩ := hlog data List.mem_cons_self cmd hdecode
        obtain ⟨hreply, hw⟩ := execCommand_abreast hcase host host' env env' hwrite hsteady h
        exact ⟨congrArg (Except.map replyBytes) hreply, hw⟩
    have hrest : ∀ data ∈ log, ∀ cmd, decodeCommand data = .ok cmd →
        isWriteCommand cmd = true ∧ Steady F cmd :=
      fun data hdata => hlog data (List.mem_cons_of_mem _ hdata)
    rw [applyLog, applyLog]
    rcases hleft : fsmApply host env data w with ⟨r, w₁⟩
    rcases hright : fsmApply host' env' data v with ⟨r', v₁⟩
    rw [hleft, hright] at hentry
    obtain ⟨rfl, hw₁⟩ : r = r' ∧ Abreast w₁ v₁ := hentry
    cases r with
    | error why => exact ⟨rfl, hw₁⟩
    | ok reply =>
      obtain ⟨hreplies, hend⟩ := ih hrest hw₁
      exact ⟨congrArg (Except.ok reply :: ·) hreplies, hend⟩

/-- **REPLICA AGREEMENT ON STEADY LOGS**: two nodes that start empty and apply the
    same entries, whatever their clocks, map orders and random levels are, give the
    same replies and end with the same keys, contents and deadlines. -/
theorem replicas_agree (hcase : CasesApart) (host host' : Host) (env env' : Env) (log : List Bytes)
    (hlog : ∀ data ∈ log, ∀ cmd, decodeCommand data = .ok cmd →
      isWriteCommand cmd = true ∧ Steady F cmd) :
    (applyLog host env log (emptyWorld : World F)).1 =
        (applyLog host' env' log (emptyWorld : World F)).1 ∧
      ∀ k,
        ((applyLog host env log (emptyWorld : World F)).2.store.db.lookup k).map Value.content =
          ((applyLog host' env' log (emptyWorld : World F)).2.store.db.lookup k).map Value.content ∧
        (applyLog host env log (emptyWorld : World F)).2.store.ttl.lookup k =
          (applyLog host' env' log (emptyWorld : World F)).2.store.ttl.lookup k := by
  have hempty : Abreast (emptyWorld : World F) emptyWorld :=
    ⟨fun _ => rfl, fun _ => rfl, fun _ => .none⟩
  obtain ⟨hreplies, hend⟩ := applyLog_abreast hcase host host' env env' log hlog hempty
  refine ⟨hreplies, fun k => ⟨?_, (hend.lasting k).trans (hend.lasting' k).symm⟩⟩
  rcases hend.cases k with ⟨hs, ht⟩ | ⟨a, b, hs, ht, hab⟩
  · rw [hs, ht]
  · rw [hs, ht]
    exact congrArg some hab.content_eq

end Commands

/-- A node with another clock and taller towers. -/
def tallEnv : Env where
  clock _ := 100
  order _ l := l
  order_perm _ l := List.Perm.refl l
  intn _ _ := 0
  intn_lt _ _ h := h
  level _ := 2
  level_range _ := by decide

/-- A ZADD and a RENAME of the sorted set. -/
theorem replicas_agree_zadd :
    letI := asciiTables
    let log := [
      encodeCommand (words ["ZADD", "z", "1", "m"]),
      encodeCommand (words ["rename", "z", "y"])]
    (applyLog quietHost stillEnv log (emptyWorld : World IntScore)).1 =
      (applyLog quietHost tallEnv log (emptyWorld : World IntScore)).1 := by
  let _ := asciiTables
  intro log
  refine (replicas_agree (fun _ hr hup => absurd hup (Nat.not_lt.mpr hr)) quietHost quietHost
    stillEnv tallEnv log ?_).1
  intro data hdata cmd hcmd
  rcases List.mem_pair.mp hdata with rfl | rfl
  · rw [decode_encode ((allocatableCommand_iff _).mpr (by decide))] at hcmd
    obtain rfl := Except.ok.inj hcmd
    refine ⟨by decide, by decide, fun h => absurd h (by decide), fun _ pair hpair => ?_,
      fun h => absurd h (by decide)⟩
    obtain rfl : pair = (ascii "m", some 1) := List.mem_singleton.mp hpair
    exact ⟨(1 : Int), rfl⟩
  · rw [decode_encode ((allocatableCommand_iff _).mpr (by decide))] at hcmd
    obtain rfl := Except.ok.inj hcmd
    exact ⟨by decide, by decide, fun h => absurd h (by decide), fun h => absurd h (by decide),
      fun h => absurd h (by decide)⟩

end TinyDb
