import Clausal.Fault
import Clausal.OperatorTable
import Clausal.Term.Display

/-!
# Vocabularies

A vocabulary is what reading a text may add to: the names, the operators and the pooled strings.
Terms hold symbols only, so they are shown with the vocabulary they were built in.
-/
namespace Clausal

structure Vocabulary where
  symbols : SymbolTable
  operators : OperatorTable
  /-- The pooled strings, earliest first. -/
  strings : Array String
  /-- Set as soon as loading of the built-in declarations has begun. -/
  bootstrapped : Bool
  deriving DecidableEq, Repr

namespace Vocabulary

def initial : Vocabulary := ⟨.initial, .empty, #[], false⟩

instance : Inhabited Vocabulary := ⟨initial⟩

def intern (v : Vocabulary) (name : String) : Symbol × Vocabulary :=
  let (s, symbols) := v.symbols.intern name
  (s, { v with symbols })

def lookup (v : Vocabulary) (name : String) : Option Symbol := v.symbols.lookup name

def name (v : Vocabulary) (s : Symbol) : String := v.symbols.name s

/-- The name of a symbol that may belong to another vocabulary. -/
def nameOf (v : Vocabulary) (s : Symbol) : Except Anomaly String :=
  match v.symbols.name? s with
  | some name => .ok name
  | none => .error (.foreignSymbol s.index v.symbols.size)

def render (v : Vocabulary) (t : Term) : String := t.render v.symbols

def freshVariable (v : Vocabulary) : Term × Vocabulary :=
  let (s, symbols) := v.symbols.freshVariable
  (.const s, { v with symbols })

def freshConstant (v : Vocabulary) : Symbol × Vocabulary :=
  let (s, symbols) := v.symbols.freshConstant
  (s, { v with symbols })

def constant (v : Vocabulary) (name : String) : Term × Vocabulary :=
  let (s, v) := v.intern name
  (.const s, v)

def lambda (v : Vocabulary) (binder : String) (body : Term) : Term × Vocabulary :=
  let (s, v) := v.intern binder
  (.lam s body, v)

/-- The pooled string literal of a text. -/
def string (v : Vocabulary) (text : String) : Literal × Vocabulary :=
  (.string text true,
    if v.strings.contains text then v else { v with strings := v.strings.push text })

/-- Applies the first term to the others. An application takes them as further arguments; a
constant or a quotation becomes the head of a new application, unless it stands alone. -/
def apply (v : Vocabulary) (span : Span) : List Term → Except TermError Term
  | [] => .error (.anomaly .emptyApplication)
  | .app head args :: rest => .ok (.app head (args ++ rest))
  | [.const s] => .ok (.const s)
  | .const s :: rest => .ok (.app (.const s) rest)
  | [.quoted q] => .ok (.quoted q)
  | .quoted q :: rest => .ok (.app (.quoted q) rest)
  | head :: _ => .error (.malformed span (.cannotApply head.kindName (v.render head)))

/-- Reads a nonempty list of terms as a list with its tail at the end. -/
def sequence (terms : List Term) : Except Anomaly Term :=
  match terms.getLast? with
  | none => .error .emptySequence
  | some tail => .ok (Term.listWithTail terms.dropLast tail)

def isOperator (v : Vocabulary) (s : Symbol) : Bool := v.operators.isOperator s

/-- The earliest definition of a symbol. -/
def operator (v : Vocabulary) (s : Symbol) : Except TermError Operator :=
  match v.operators.first? s with
  | some o => .ok o
  | none => .error (.unknownFixity (v.name s))

/-- Declares an operator. A definition that is already there is accepted, a different one for the
same placement is refused. -/
def defineOperator (v : Vocabulary) (name : String) (fixity : Fixity) (precedence : Int) :
    Except TermError Symbol × Vocabulary :=
  if precedence < Precedence.lowest ∨ (Precedence.tightest : Int) < precedence then
    (.error (.outOfRange name precedence), v)
  else
    let o : Operator := ⟨fixity, precedence.toNat⟩
    let (s, v) := v.intern name
    match v.operators.define s o with
    | .ok operators => (.ok s, { v with operators })
    | .error old => (.error (.redefinition name old o), v)

end Vocabulary

end Clausal
