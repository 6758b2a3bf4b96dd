import Clausal.Literal
import Clausal.Symbol

/-!
# Terms

Terms are finite trees over symbols. An application keeps its arguments in one list, so `f a b`
is one node; only bare constructions put an application at the head of another.
-/
namespace Clausal

/-- Text taken verbatim from between quotation braces. -/
structure Quotation where
  data : String
  /-- The extent of `data`, without braces and kind. -/
  span : Span
  kind : Option String
  deriving DecidableEq, Repr

inductive Term where
  /-- A constant or a variable. -/
  | const (symbol : Symbol)
  | app (head : Term) (args : List Term)
  /-- An abstraction over one variable. -/
  | lam (binder : Symbol) (body : Term)
  | literal (value : Literal)
  | quoted (quotation : Quotation)
  deriving Repr, Inhabited

namespace Term

mutual

def decEq : (a b : Term) → Decidable (a = b)
  | .const s, .const t => decidable_of_iff (s = t) (by simp)
  | .app f as, .app g bs =>
    match decEq f g, decEqList as bs with
    | .isTrue h, .isTrue k => .isTrue (by rw [h, k])
    | .isFalse h, _ => .isFalse (fun e => h (Term.app.inj e).1)
    | _, .isFalse k => .isFalse (fun e => k (Term.app.inj e).2)
  | .lam x a, .lam y b =>
    match decEq a b with
    | .isTrue h => decidable_of_iff (x = y) (by simp [h])
    | .isFalse h => .isFalse (fun e => h (Term.lam.inj e).2)
  | .literal a, .literal b => decidable_of_iff (a = b) (by simp)
  | .quoted a, .quoted b => decidable_of_iff (a = b) (by simp)
  | .const _, .app _ _ | .const _, .lam _ _ | .const _, .literal _ | .const _, .quoted _
  | .app _ _, .const _ | .app _ _, .lam _ _ | .app _ _, .literal _ | .app _ _, .quoted _
  | .lam _ _, .const _ | .lam _ _, .app _ _ | .lam _ _, .literal _ | .lam _ _, .quoted _
  | .literal _, .const _ | .literal _, .app _ _ | .literal _, .lam _ _ | .literal _, .quoted _
  | .quoted _, .const _ | .quoted _, .app _ _ | .quoted _, .lam _ _ | .quoted _, .literal _ =>
    .isFalse (by simp)

def decEqList : (as bs : List Term) → Decidable (as = bs)
  | [], [] => .isTrue rfl
  | a :: as, b :: bs =>
    match decEq a b, decEqList as bs with
    | .isTrue h, .isTrue k => .isTrue (by rw [h, k])
    | .isFalse h, _ => .isFalse (fun e => h (List.cons.inj e).1)
    | _, .isFalse k => .isFalse (fun e => k (List.cons.inj e).2)
  | [], _ :: _ | _ :: _, [] => .isFalse (by simp)

end

instance : DecidableEq Term := decEq

def nil : Term := const Symbol.nil

/-- The application of a symbol. -/
def node (s : Symbol) (args : List Term) : Term := app (const s) args

def isConst : Term → Bool
  | const _ => true
  | _ => false

def isApp : Term → Bool
  | app _ _ => true
  | _ => false

def symbol? : Term → Option Symbol
  | const s => some s
  | _ => none

/-- The symbol of a constant, or of the constant at the head of an application. -/
def headSymbol? : Term → Option Symbol
  | const s => some s
  | app head _ => head.symbol?
  | _ => none

def args : Term → List Term
  | app _ args => args
  | _ => []

def arity (t : Term) : Nat := t.args.length

def kindName : Term → String
  | const _ => "constant"
  | app _ _ => "application"
  | lam _ _ => "lambda"
  | literal a => a.type.name
  | quoted _ => "quotation"

/-- The arguments of an application of the given symbol. -/
def argsOf? (s : Symbol) : Term → Option (List Term)
  | app head args => if head.symbol? = some s then some args else none
  | _ => none

/-- The list cell that adds `first` in front of `rest`. -/
def cell (first rest : Term) : Term := node Symbol.cons [first, rest]

/-- The terms in front, then the last one as the tail. -/
def listWithTail (front : List Term) (tail : Term) : Term := front.foldr cell tail

/-- `x\ y\ body` for the parameters `[x, y]`. -/
def abstract (parameters : List Symbol) (body : Term) : Term := parameters.foldr lam body

section

variable [Extensions]

mutual

/-- Equality of terms, with literals compared as their types say. -/
def same : Term → Term → Bool
  | const s, const t => s = t
  | app f as, app g bs => same f g && sameList as bs
  | lam x a, lam y b => decide (x = y) && same a b
  | literal a, literal b => a.same b
  | quoted a, quoted b => a = b
  | _, _ => false

def sameList : List Term → List Term → Bool
  | [], [] => true
  | a :: as, b :: bs => same a b && sameList as bs
  | _, _ => false

end

mutual

def feed : Term → List UInt8
  | const s => Feed.tag 0 ++ Feed.little 4 s.index
  | app head args => Feed.tag 1 ++ feed head ++ Feed.word args.length ++ feedList args
  | lam x body => Feed.tag 2 ++ Feed.little 4 x.index ++ feed body
  | literal a => Feed.tag 3 ++ a.feed
  | quoted q =>
    Feed.tag 4 ++ Feed.text q.data ++ Feed.span q.span ++ Feed.optional Feed.text q.kind

def feedList : List Term → List UInt8
  | [] => []
  | t :: ts => feed t ++ feedList ts

end

end

end Term

end Clausal
