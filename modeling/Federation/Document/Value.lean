import Federation.Number.Binary64
/-!
# Document — values

Constant values, as they stand in the arguments of directives and as
the defaults of arguments and input fields. Two values are the same
when their canonical forms are equal: floating point numbers compare as
numbers, so the two zeros are one value.
-/

namespace Federation

/-- A constant value. The fields of an object keep their order, and may repeat. -/
inductive Value
  | null
  | int (n : Int)
  | float (x : Binary64)
  | string (s : String)
  | boolean (b : Bool)
  | enum (name : String)
  | list (items : List Value)
  | object (fields : List (String × Value))
  deriving Inhabited, Repr

namespace Value

mutual

/-- Whether two values are equal. -/
def decEq : (a b : Value) → Decidable (a = b)
  | null, b => match b with
    | null => isTrue rfl
    | int _ | float _ | string _ | boolean _ | enum _ | list _ | object _ => isFalse (by simp)
  | int m, b => match b with
    | int n => decidable_of_iff (m = n) (by simp)
    | null | float _ | string _ | boolean _ | enum _ | list _ | object _ => isFalse (by simp)
  | float x, b => match b with
    | float y => decidable_of_iff (x = y) (by simp)
    | null | int _ | string _ | boolean _ | enum _ | list _ | object _ => isFalse (by simp)
  | string s, b => match b with
    | string t => decidable_of_iff (s = t) (by simp)
    | null | int _ | float _ | boolean _ | enum _ | list _ | object _ => isFalse (by simp)
  | boolean p, b => match b with
    | boolean q => decidable_of_iff (p = q) (by simp)
    | null | int _ | float _ | string _ | enum _ | list _ | object _ => isFalse (by simp)
  | enum s, b => match b with
    | enum t => decidable_of_iff (s = t) (by simp)
    | null | int _ | float _ | string _ | boolean _ | list _ | object _ => isFalse (by simp)
  | list as, b => match b with
    | list bs => match decEqList as bs with
      | isTrue h => isTrue (by rw [h])
      | isFalse h => isFalse (by simpa using h)
    | null | int _ | float _ | string _ | boolean _ | enum _ | object _ => isFalse (by simp)
  | object as, b => match b with
    | object bs => match decEqFields as bs with
      | isTrue h => isTrue (by rw [h])
      | isFalse h => isFalse (by simpa using h)
    | null | int _ | float _ | string _ | boolean _ | enum _ | list _ => isFalse (by simp)

/-- Whether two lists of values are equal. -/
def decEqList : (as bs : List Value) → Decidable (as = bs)
  | [], [] => isTrue rfl
  | [], _ :: _ => isFalse (by simp)
  | _ :: _, [] => isFalse (by simp)
  | a :: as, b :: bs =>
    match decEq a b, decEqList as bs with
    | isTrue h, isTrue t => isTrue (by rw [h, t])
    | isFalse h, _ => isFalse (by simp [h])
    | _, isFalse t => isFalse (by simp [t])

/-- Whether two lists of object fields are equal. -/
def decEqFields : (as bs : List (String × Value)) → Decidable (as = bs)
  | [], [] => isTrue rfl
  | [], _ :: _ => isFalse (by simp)
  | _ :: _, [] => isFalse (by simp)
  | (m, a) :: as, (n, b) :: bs =>
    match decEq a b, decEqFields as bs with
    | isTrue h, isTrue t => decidable_of_iff (m = n) (by simp [h, t])
    | isFalse h, _ => isFalse (by simp [h])
    | _, isFalse t => isFalse (by simp [t])

end

instance : DecidableEq Value := decEq

/-- The string that a value is, if it is one. -/
def string? : Value → Option String
  | string s => some s
  | _ => none

/-- The truth value that a value is, if it is one. -/
def boolean? : Value → Option Bool
  | boolean b => some b
  | _ => none

mutual

/-- The value with one zero. -/
def canonical : Value → Value
  | float x => float x.canonical
  | list items => list (canonicalList items)
  | object fields => object (canonicalFields fields)
  | null => null
  | int n => int n
  | string s => string s
  | boolean b => boolean b
  | enum name => enum name

/-- The items of a list with one zero. -/
def canonicalList : List Value → List Value
  | [] => []
  | v :: vs => v.canonical :: canonicalList vs

/-- The fields of an object with one zero. -/
def canonicalFields : List (String × Value) → List (String × Value)
  | [] => []
  | (name, v) :: fs => (name, v.canonical) :: canonicalFields fs

end

end Value

end Federation
