/-
# Conditions

The condition of a directive is a comparison of two operands, or a bare value.

A comparison is recognised by its sign.  Eight signs are tried in a fixed order, and the first that
occurs anywhere in the text counts, split at its first occurrence; since some signs begin with
others, the longer of two must come first.  What stands on both sides is trimmed.

`same` and `notSame` compare texts.  `equal` and `notEqual` compare numbers if both sides are
numbers, and texts otherwise.  The relations of order hold between numbers only.  A bare value holds
unless it is empty, `0` or `false`.

`Text.holds` is `evaluate`: `Condition.read` finds the operator as its search does, `valuesAgree` is
`loose_equals`, and `falseValues` are those that `is_truthy` denies.
-/
import Stencil.Text.Blank
import Stencil.Condition.Number

namespace Stencil

/-! ## 1. Comparisons -/

/-- How two operands are compared. -/
inductive Comparison where
  | atMost
  | below
  | atLeast
  | above
  | notSame
  | notEqual
  | same
  | equal
  deriving DecidableEq, Repr

namespace Comparison

/-- The sign of a comparison. -/
def sign : Comparison → Text
  | atMost => ['<', '=']
  | below => ['<']
  | atLeast => ['>', '=']
  | above => ['>']
  | notSame => ['!', '=', '=']
  | notEqual => ['!', '=']
  | same => ['=', '=', '=']
  | equal => ['=', '=']

/-- The comparisons in the order in which their signs are looked for. -/
def all : List Comparison :=
  [atMost, below, atLeast, above, notSame, notEqual, same, equal]

/-- Both operands are numbers, and these are related. -/
def numbersRelate (relation : Int → Int → Bool) (left right : Text) : Bool :=
  match left.number64?, right.number64? with
  | some a, some b => relation a b
  | _, _ => false

/-- The operands are equal: as numbers if both are numbers, else as texts. -/
def valuesAgree (left right : Text) : Bool :=
  match left.number64?, right.number64? with
  | some a, some b => a == b
  | _, _ => left == right

/-- The comparison holds between two trimmed operands. -/
def holds : Comparison → Text → Text → Bool
  | atMost => numbersRelate fun a b => a ≤ b
  | below => numbersRelate fun a b => a < b
  | atLeast => numbersRelate fun a b => a ≥ b
  | above => numbersRelate fun a b => a > b
  | notSame => fun left right => left != right
  | notEqual => fun left right => !valuesAgree left right
  | same => fun left right => left == right
  | equal => valuesAgree

end Comparison

/-! ## 2. Conditions -/

/-- A condition that has been read. -/
inductive Condition where
  | comparison (relation : Comparison) (left right : Text)
  | bare (value : Text)
  deriving DecidableEq, Repr

namespace Condition

/-- The comparison that a text writes, if the sign of the given one occurs in it. -/
def compared? (t : Text) (relation : Comparison) : Option Condition :=
  (Text.breakOn? relation.sign t).map fun (left, right) =>
    comparison relation (Text.trim left) (Text.trim right)

/-- The condition that a text writes. -/
def read (t : Text) : Condition :=
  (Comparison.all.findSome? (compared? t)).getD (bare t)

/-- The bare values that do not hold. -/
def falseValues : List Text := [[], ['0'], ['f', 'a', 'l', 's', 'e']]

/-- The condition holds. -/
def holds : Condition → Bool
  | comparison relation left right => relation.holds left right
  | bare value => !falseValues.contains value

end Condition

/-- **The condition that a text writes holds.** -/
def Text.holds (t : Text) : Bool := (Condition.read t).holds

end Stencil
