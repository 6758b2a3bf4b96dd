/-!
# Operators

A fixity folds together where an operator stands and how equal operators group; `placement` and
`grouping` take the two apart again. A higher precedence binds tighter. Application, binders and
the "no operator at all" level lie above the range that declarations may use.
-/
namespace Clausal

inductive Placement where
  | beforeOperand
  | betweenOperands
  | afterOperand
  deriving DecidableEq, Repr

inductive Grouping where
  | none
  | left
  | right
  deriving DecidableEq, Repr

inductive Fixity where
  | infixLeft
  | infixRight
  | infixOnly
  | prefixOp
  | postfixOp
  deriving DecidableEq, Repr

namespace Placement

def all : List Placement := [beforeOperand, betweenOperands, afterOperand]

def text : Placement → String
  | .beforeOperand => "prefix"
  | .betweenOperands => "infix"
  | .afterOperand => "postfix"

end Placement

namespace Grouping

def text : Grouping → String
  | .none => "none"
  | .left => "left"
  | .right => "right"

end Grouping

namespace Fixity

def all : List Fixity := [infixLeft, infixRight, infixOnly, prefixOp, postfixOp]

/-- The keyword that declares operators of this fixity. -/
def keyword : Fixity → String
  | infixLeft => "infixl"
  | infixRight => "infixr"
  | infixOnly => "infix"
  | prefixOp => "prefix"
  | postfixOp => "postfix"

def ofKeyword? (text : String) : Option Fixity := all.find? (·.keyword == text)

def placement : Fixity → Placement
  | infixLeft | infixRight | infixOnly => .betweenOperands
  | prefixOp => .beforeOperand
  | postfixOp => .afterOperand

/-- Prefix operators nest to the right and postfix operators to the left. -/
def grouping : Fixity → Grouping
  | infixLeft | postfixOp => .left
  | infixRight | prefixOp => .right
  | infixOnly => .none

theorem ofKeyword?_keyword (f : Fixity) : ofKeyword? f.keyword = some f := by
  cases f <;> decide

theorem keyword_of_ofKeyword? {text : String} {f : Fixity} (h : ofKeyword? text = some f) :
    f.keyword = text := by
  simpa using List.find?_some h

end Fixity

-- The levels of binding strength.
namespace Precedence

/-- A whole term is read at this level. -/
def lowest : Nat := 0
/-- The tightest level that a declaration may use. -/
def tightest : Nat := 256
def application : Nat := tightest + 1
/-- A binder is read at this level, so it may be an argument without parentheses. -/
def binder : Nat := application + 1
/-- No operator binds as tight as this. -/
def atomic : Nat := binder + 1
/-- List elements are read just above the comma. -/
def listElement : Nat := 111
/-- Argument types of a predicate are read strictly above the comma. -/
def predicateArgument : Nat := 110

end Precedence

structure Operator where
  fixity : Fixity
  precedence : Nat
  deriving DecidableEq, Repr

namespace Operator

def placement (o : Operator) : Placement := o.fixity.placement

def grouping (o : Operator) : Grouping := o.fixity.grouping

/-- The words of its declaration, without the name. -/
def render (o : Operator) : String := o.fixity.keyword ++ " " ++ toString o.precedence

end Operator

end Clausal
