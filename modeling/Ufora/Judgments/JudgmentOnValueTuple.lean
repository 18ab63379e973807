import Mathlib.Data.List.Basic

/-!
# `JudgmentOnValueTuple`

`FORA/Judgment/JudgmentOnValue.Tuple.cppml`: judgments on tuples, made of judgments on their elements, which are a
parameter. A call is null where an assertion fails.
-/

open List

namespace Judgments

/-- The judgments on elements, and what the code asks of them. -/
structure ElementJudgments where
  Symbol : Type
  ImplVal : Type
  JudgmentOnValue : Type
  decidableEqSymbol : DecidableEq Symbol
  /-- `JudgmentOnValue()`. -/
  unknown : JudgmentOnValue
  covers : JudgmentOnValue → JudgmentOnValue → Bool
  disjoint : JudgmentOnValue → JudgmentOnValue → Bool
  /-- The judgments of the `JudgmentOnResult`. -/
  intersectWith : JudgmentOnValue → JudgmentOnValue → List JudgmentOnValue
  smallestCovering : JudgmentOnValue → JudgmentOnValue → JudgmentOnValue
  coversImplVal : JudgmentOnValue → ImplVal → Bool

instance (J : ElementJudgments) : DecidableEq J.Symbol := J.decidableEqSymbol

/-- `JudgmentOnValueTuple`: with `extras` null there are `NoExtras`. -/
structure JudgmentOnValueTuple (J : ElementJudgments) where
  jovs : List J.JudgmentOnValue
  names : List (Option J.Symbol)
  extras : Option J.JudgmentOnValue
  sameSize : names.length = jovs.length

/-- A tuple: its elements with their names. -/
abbrev Tuple (J : ElementJudgments) := List (Option J.Symbol × J.ImplVal)

namespace JudgmentOnValueTuple

variable {J : ElementJudgments} (s : JudgmentOnValueTuple J)

/-- `maxElements`. -/
def maxElements : Option ℕ :=
  match s.extras with
  | none => some s.jovs.length
  | some _ => none

/-- `operator[]`. -/
def get (ix : ℕ) : Option J.JudgmentOnValue :=
  if ix < s.jovs.length then s.jovs[ix]? else s.extras

variable (other : JudgmentOnValueTuple J)

/-- Whether the names at an index are different. -/
def namesDiffer (k : ℕ) : Bool := s.names[k]? ≠ other.names[k]?

/-! ## `covers` -/

/-- `covers(const ImplVal& impl)`. -/
def coversImplVal (s : JudgmentOnValueTuple J) (impl : Tuple J) : Option Bool :=
  if impl.length < s.jovs.length then some false
  else if s.extras.isNone && impl.length ≠ s.jovs.length then some false
  else if (range s.names.length).any fun k => impl[k]?.map Prod.fst ≠ s.names[k]? then some false
  else (range impl.length).allM fun k => do
    return J.coversImplVal (← s.get k) (← impl[k]?).2

/-- The end of `covers`, for judgments with extras. -/
def extrasCover (myExtraJOV : J.JudgmentOnValue) : Bool :=
  if other.maxElements.any fun otherMaxElts => s.jovs.length ≥ otherMaxElts then true
  else if (other.jovs.drop s.jovs.length).any fun jov => !J.covers myExtraJOV jov then false
  else
    match other.extras with
    | some jov => J.covers myExtraJOV jov
    | none => true

/-- `covers(const JudgmentOnValueTuple& other)`. -/
def covers (s other : JudgmentOnValueTuple J) : Option Bool :=
  if s.jovs.length > other.jovs.length then some false
  else if s.maxElements.isSome && other.maxElements.isNone then some false
  else if s.maxElements.any fun maxElts => other.maxElements.any fun otherMaxElts => maxElts < otherMaxElts then
    some false
  else if (range s.jovs.length).any (s.namesDiffer other) then some false
  else do
    if ← (range s.jovs.length).allM fun k => do return J.covers (← s.get k) (← other.get k) then
      match s.extras with
      | some myExtraJOV => return s.extrasCover other myExtraJOV
      | none => return true
    else return false

/-! ## `disjoint` -/

/-- A round of the loop of `disjoint`. -/
def disjointAt (k : ℕ) : Option Bool := do
  return J.disjoint (← s.get k) (← other.get k) ||
    decide (k < s.jovs.length) && decide (k < other.jovs.length) && s.namesDiffer other k

/-- `disjoint(const JudgmentOnValueTuple& other)`. -/
def disjoint (s other : JudgmentOnValueTuple J) : Option Bool :=
  if s.maxElements.any fun maxElts => maxElts < other.jovs.length then some true
  else if other.maxElements.any fun otherMaxElts => otherMaxElts < s.jovs.length then some true
  else do
    if ← (range (max s.jovs.length other.jovs.length)).anyM (s.disjointAt other) then return true
    else
      match s.extras, other.extras with
      | some jov, some otherJOV => return J.disjoint jov otherJOV
      | _, _ => return false

/-! ## `intersectWith` -/

/-- The name that `intersectWith` gives an element; null where it returns no judgments. -/
def nameOf (right : JudgmentOnValueTuple J) (k : ℕ) : Option (Option J.Symbol) :=
  if k < s.names.length ∧ k < right.names.length then
    if s.namesDiffer right k then none else s.names[k]?
  else if k < s.names.length then s.names[k]?
  else right.names[k]?

/-- A round of the loop of `intersectWith`: the judgment and the name of an element; no list where it returns no
judgments. -/
def intersectAt (right : JudgmentOnValueTuple J) (k : ℕ) : Option (Option (J.JudgmentOnValue × Option J.Symbol)) :=
  match s.nameOf right k with
  | none => some none
  | some name => do
    match J.intersectWith (← s.get k) (← right.get k) with
    | [sub] => return some (sub, name)
    | _ => return none

/-- The loop of `intersectWith`. -/
def intersectLoop (s right : JudgmentOnValueTuple J) :
    List ℕ → Option (Option (List (J.JudgmentOnValue × Option J.Symbol)))
  | [] => some (some [])
  | k :: ks => do
    match ← s.intersectAt right k with
    | none => return none
    | some sub => return (← s.intersectLoop right ks).map (sub :: ·)

/-- The judgment on the elements after so many. -/
def extraAfter (size : ℕ) : Option J.JudgmentOnValue :=
  if s.maxElements.all fun max => max > size then s.extras else some J.unknown

/-- `trueMax`. -/
def trueMax (lMax rMax : Option ℕ) (size : ℕ) : Option ℕ :=
  match lMax, rMax with
  | some l, none => some (l - size)
  | none, some r => some (r - size)
  | some l, some r => some (min r l - size)
  | none, none => none

/-- The judgment that `intersectWith` returns. -/
def ofSubs (subs : List (J.JudgmentOnValue × Option J.Symbol)) (extras : Option J.JudgmentOnValue) :
    JudgmentOnValueTuple J where
  jovs := subs.map Prod.fst
  names := subs.map Prod.snd
  extras
  sameSize := by simp

/-- `intersectWith`, of two judgments on tuples: the judgments of the `JudgmentOnResult`. -/
def intersectWith (s right : JudgmentOnValueTuple J) : Option (List (JudgmentOnValueTuple J)) :=
  if s.maxElements.any fun lMax => lMax < right.jovs.length then some []
  else if right.maxElements.any fun rMax => rMax < s.jovs.length then some []
  else do
    match ← s.intersectLoop right (range (max s.jovs.length right.jovs.length)) with
    | none => return []
    | some subs =>
      match J.intersectWith (← s.extraAfter subs.length) (← right.extraAfter subs.length) with
      | [ex] =>
        let extras := if trueMax s.maxElements right.maxElements subs.length = some 0 then none else some ex
        return [ofSubs subs extras]
      | _ => return []

/-! ## `smallestCovering` and `merge` -/

/-- `accumlate`. -/
def accumlate (jov : Option J.JudgmentOnValue) (jov2 : J.JudgmentOnValue) : Option J.JudgmentOnValue :=
  match jov with
  | some jov => some (J.smallestCovering jov jov2)
  | none => some jov2

/-- The number of elements that the judgments have in common. -/
def pairwiseElementCount : ℕ := ((range (min s.jovs.length other.jovs.length)).find? (s.namesDiffer other)).getD
    (min s.jovs.length other.jovs.length)

theorem pairwiseElementCount_le : s.pairwiseElementCount other ≤ min s.jovs.length other.jovs.length := by
  unfold pairwiseElementCount
  cases h : (range (min s.jovs.length other.jovs.length)).find? (s.namesDiffer other) with
  | none => exact Nat.le_refl _
  | some k => exact Nat.le_of_lt (mem_range.1 (mem_of_find?_eq_some h))

/-- `smallestCovering`, of two judgments on tuples. -/
def smallestCovering (s other : JudgmentOnValueTuple J) : JudgmentOnValueTuple J where
  jovs := zipWith J.smallestCovering (s.jovs.take (s.pairwiseElementCount other))
    (other.jovs.take (s.pairwiseElementCount other))
  names := s.names.take (s.pairwiseElementCount other)
  extras := (s.extras.toList ++ other.extras.toList ++ other.jovs.drop (s.pairwiseElementCount other) ++
    s.jovs.drop (s.pairwiseElementCount other)).foldl accumlate none
  sameSize := by
    have hsize := s.sameSize
    have hle := s.pairwiseElementCount_le other
    simp only [length_take, length_zipWith]
    omega

/-- `merge`. -/
def merge (left right : JudgmentOnValueTuple J) : JudgmentOnValueTuple J :=
  match left.extras with
  | none =>
    { jovs := left.jovs ++ right.jovs
      names := left.names ++ right.names
      extras := right.extras
      sameSize := by simp [left.sameSize, right.sameSize] }
  | some jov =>
    { left with extras := some ((right.jovs ++ right.extras.toList).foldl J.smallestCovering jov) }

end JudgmentOnValueTuple

end Judgments
