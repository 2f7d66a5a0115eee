/-!
# Media queries

A media list holds queries, of which one has to match; a query holds conditions, all
of which have to hold. A condition compares a feature of the device or the viewport
with one target, or with two.
-/
namespace StyleCascade

inductive Orientation
  | portrait
  | landscape
deriving DecidableEq, Repr

inductive ColorScheme
  | light
  | dark
  | noPreference
deriving DecidableEq, Repr

/-- What media conditions are evaluated against. Lengths are in density-independent
pixels, the resolution in dots per inch. -/
structure MediaEnvironment where
  viewportWidth : Int32 := 360
  viewportHeight : Int32 := 640
  screenWidth : Int32 := 360
  screenHeight : Int32 := 640
  resolution : Int32 := 480
  orientation : Orientation := .portrait
  colorScheme : ColorScheme := .light
  /-- A card may be laid out before its viewport is known; a viewport dimension of zero
  then says nothing. -/
  cardMode : Bool := false
deriving Repr, Inhabited

inductive MediaFeature
  | width
  | height
  | deviceWidth
  | deviceHeight
  | resolution
  | aspectRatio
  | orientation
  | colorScheme
deriving DecidableEq, Repr

inductive Comparison
  | equal
  | less
  | lessEqual
  | more
  | moreEqual
deriving DecidableEq, Repr

namespace Comparison

/-- The comparison seen from the other operand: `a < b` is `b > a`. -/
def flip : Comparison → Comparison
  | equal => equal
  | less => more
  | lessEqual => moreEqual
  | more => less
  | moreEqual => lessEqual

def isLess : Comparison → Bool
  | less | lessEqual => true
  | _ => false

def isMore : Comparison → Bool
  | more | moreEqual => true
  | _ => false

/-- Whether the comparison holds between two numbers. -/
def holds (c : Comparison) (value target : Int) : Bool :=
  match c with
  | equal => value = target
  | less => value < target
  | lessEqual => value ≤ target
  | more => target < value
  | moreEqual => target ≤ value

theorem holds_flip (c : Comparison) (a b : Int) : c.flip.holds a b = c.holds b a := by
  cases c <;> simp [flip, holds, eq_comm]

end Comparison

namespace MediaFeature

/-- Ratios are compared as integers, scaled by this factor. -/
def ratioScale : Int := 100000

/-- Orientations and colour schemes are compared as numbers. -/
def orientationCode : Orientation → Int
  | .portrait => 0
  | .landscape => 1

def colorSchemeCode : ColorScheme → Int
  | .light | .noPreference => 0
  | .dark => 1

/-- The value of a feature in an environment; `none` when it is not known. The scaled
ratio is cut toward zero. -/
def current? (feature : MediaFeature) (env : MediaEnvironment) : Option Int :=
  match feature with
  | width =>
    if env.cardMode ∧ env.viewportWidth = 0 then none else some env.viewportWidth.toInt
  | height =>
    if env.cardMode ∧ env.viewportHeight = 0 then none else some env.viewportHeight.toInt
  | deviceWidth => some env.screenWidth.toInt
  | deviceHeight => some env.screenHeight.toInt
  | resolution => some env.resolution.toInt
  | aspectRatio =>
    if env.viewportHeight = 0 then none
    else some ((ratioScale * env.viewportWidth.toInt).tdiv env.viewportHeight.toInt)
  | orientation => some (orientationCode env.orientation)
  | colorScheme => some (colorSchemeCode env.colorScheme)

end MediaFeature

/-- A feature and what it is compared with; the feature stands on the left. -/
structure MediaCondition where
  feature : MediaFeature
  comparisons : List (Comparison × Int)
deriving DecidableEq, Repr

/-- Whether every comparison holds. A feature whose value is not known fails them. -/
def MediaCondition.holds (c : MediaCondition) (env : MediaEnvironment) : Bool :=
  match c.feature.current? env with
  | none => false
  | some value => c.comparisons.all fun (comparison, target) => comparison.holds value target

structure MediaQuery where
  negated : Bool
  conditions : List MediaCondition
  /-- Whether every condition could be read. A query that could not be read in full never
  matches, negated or not. -/
  valid : Bool
deriving DecidableEq, Repr

/-- Whether the query matches. -/
def MediaQuery.holds (q : MediaQuery) (env : MediaEnvironment) : Bool :=
  q.valid && (q.conditions.all (·.holds env) != q.negated)

/-- Queries with the text they were read from. -/
structure MediaList where
  text : String
  queries : List MediaQuery
deriving DecidableEq, Repr

/-- Whether some query matches. -/
def MediaList.holds (l : MediaList) (env : MediaEnvironment) : Bool :=
  l.queries.any (·.holds env)

end StyleCascade
