import TinyRedis.GoStrconvProofs

/-! # `float64`

    What the server does with scores: compare them, add them, and mark a
    missing one with NaN.  A `float64` is NaN or has a place in a linear order
    (the extended reals, where the two zeros share a place); Go's comparisons
    are all false on NaN.  Rounding is not modelled: the sum is an arbitrary
    operation. -/

namespace GoFloat

/-- The `float64` type: `place` is none for NaN. -/
class Float64 (F : Type) where
  Place : Type
  order : LinearOrder Place
  place : F → Option Place
  add : F → F → F
  zero : F
  nan : F
  place_nan : place nan = none

attribute [reducible, instance] Float64.order

open Float64

variable {F : Type} [Float64 F]

/-- Go's `x < y`. -/
def lt (x y : F) : Bool :=
  match place x, place y with
  | some a, some b => decide (a < b)
  | _, _ => false

/-- Go's `x == y`. -/
def eq (x y : F) : Bool :=
  match place x, place y with
  | some a, some b => decide (a = b)
  | _, _ => false

/-- Go's `x >= y`. -/
def ge (x y : F) : Bool :=
  match place x, place y with
  | some a, some b => decide (b ≤ a)
  | _, _ => false

/-- Go's `x > y`. -/
def gt (x y : F) : Bool := lt y x

/-- Not NaN. -/
def IsNum (x : F) : Prop := ∃ a, place x = some a

theorem lt_iff {x y : F} : lt x y = true ↔ ∃ a b, place x = some a ∧ place y = some b ∧ a < b := by
  unfold lt
  cases hx : place x with
  | none => simp
  | some a =>
    cases hy : place y with
    | none => simp
    | some b => simp

theorem eq_iff {x y : F} : eq x y = true ↔ ∃ a, place x = some a ∧ place y = some a := by
  unfold eq
  cases hx : place x with
  | none => simp
  | some a =>
    cases hy : place y with
    | none => simp
    | some b => simp [eq_comm]

theorem ge_iff {x y : F} : ge x y = true ↔ ∃ a b, place x = some a ∧ place y = some b ∧ b ≤ a := by
  unfold ge
  cases hx : place x with
  | none => simp
  | some a =>
    cases hy : place y with
    | none => simp
    | some b => simp

/-- The text of floats, as `strconv` and `fmt` read and write it. -/
class FloatText (F : Type) extends Float64 F where
  /-- `strconv.ParseFloat(s, 64)`; none is an error. -/
  parse : GoString.Bytes → Option F
  /-- `strconv.FormatFloat(x, 'f', -1, 64)`. -/
  format : F → GoString.Bytes
  /-- `fmt.Sprintf("%v", x)`. -/
  formatV : F → GoString.Bytes
  /-- `math.Inf(1)`. -/
  inf : F
  /-- `math.Inf(-1)`. -/
  negInf : F

/-- Integers with a NaN: a small number type to run the definitions on. -/
abbrev IntScore := Option Int

instance instFloat64IntScore : Float64 IntScore where
  Place := Int
  order := inferInstance
  place := id
  add x y := x.bind fun a => y.map fun b => a + b
  zero := some 0
  nan := none
  place_nan := rfl

/-- Integers in decimal, with the ends of `int64` for the infinities. -/
instance instFloatTextIntScore : FloatText IntScore where
  parse s :=
    match GoStrconv.atoi s with
    | .ok i => some (some i)
    | .error _ => if s = GoString.ascii "nan" then some none else none
  format x := (x.map GoStrconv.itoa).getD (GoString.ascii "NaN")
  formatV x := (x.map GoStrconv.itoa).getD (GoString.ascii "NaN")
  inf := some (2 ^ 63)
  negInf := some (-2 ^ 63)

end GoFloat
