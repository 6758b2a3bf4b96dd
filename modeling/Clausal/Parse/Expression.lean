import Clausal.Parse
import Clausal.Term.Quotation

/-!
# Reading terms

Operators are read by precedence climbing. `expression n limit strict earlier` takes operators
that bind tighter than `limit`, or as tight unless `strict`; `earlier` is the operator in front of
the expression, if any. Two operators of one precedence may follow each other only if both group the
same way.

The first argument of the mutually recursive steps bounds how deep they nest. Four levels for
each token are enough, so a reader of a whole term is never stopped by the bound.
-/
namespace Clausal.Parse

open Precedence

/-- The symbol of a kind of token that has a definition as an operator. -/
def operatorSymbol? (v : Vocabulary) (k : TokenKind) : Option Symbol :=
  match k.name? with
  | none => none
  | some name =>
    match v.lookup name with
    | none => none
    | some s => if v.isOperator s then some s else none

/-- The definition of a kind of token as an operator in a placement. -/
def operatorAt? (v : Vocabulary) (p : Placement) (k : TokenKind) : Option (Symbol × Operator) :=
  match operatorSymbol? v k with
  | none => none
  | some s => (v.operators.lookup s p).map (s, ·)

/-- Whether a token can begin an argument of an application. -/
def startsArgument (v : Vocabulary) (k : TokenKind) : Bool :=
  match k with
  | .ident _ | .symbolic _ => k ≠ .symbolic "|" && (operatorSymbol? v k).isNone
  | .macroName _ | .int _ | .float _ | .string _ | .quotation _
  | .leftParen | .leftBracket | .leftBrace => true
  | .rightParen | .rightBracket | .rightBrace | .backslash | .stop | .endOfInput => false

/-- Whether a token can begin a term. -/
def startsTerm (v : Vocabulary) (k : TokenKind) : Bool :=
  startsArgument v k || (operatorAt? v .beforeOperand k).isSome

/-- The operator that a token is after an operand. One that is both infix and postfix is infix if
a term can follow. -/
def operatorAfter? (k : TokenKind) : Parse (Option (Symbol × Operator)) := do
  let v ← vocabulary
  match operatorAt? v .betweenOperands k, operatorAt? v .afterOperand k with
  | some between, some after =>
    let following ← peekAt 1
    pure (some (if startsTerm v following.kind then between else after))
  | some between, none => pure (some between)
  | none, after => pure after

/-- The prefix operator that a token is if a term can follow it. -/
def prefixAt? (k : TokenKind) : Parse (Option (Symbol × Operator)) := do
  let v ← vocabulary
  match operatorAt? v .beforeOperand k with
  | none => pure none
  | some found =>
    let following ← peekAt 1
    pure (if startsTerm v following.kind then some found else none)

/-- Refuses two operators of one precedence that do not group the same way. -/
def checkChain (t : Token) (o : Operator) : Option (Nat × Grouping) → Parse Unit
  | none => pure ()
  | some (precedence, grouping) =>
    if precedence ≠ o.precedence then pure ()
    else if grouping = .none ∨ o.grouping = .none then
      failAt t.span (.nonAssociativeChain t.kind)
    else if grouping ≠ o.grouping then failAt t.span (.mixedChain t.kind grouping)
    else pure ()

/-- The value of a run of digits, if it is at most the greatest allowed. -/
def boundedNat? (greatest : Nat) (digits : String) : Option Nat :=
  let n := Decimal.digitsValue digits.toList
  if n ≤ greatest then some n else none

def integer (span : Span) (digits : String) : Parse Term :=
  match boundedNat? (Nat.pow 2 63 - 1) digits with
  | some n => pure (.literal (.int (Int64.ofNat n)))
  | none => fail (.integer span)

def float (text : String) : Term :=
  .literal (.float ((Decimal.read? text).getD (.nan false)))

def stringLiteral (text : String) : Parse Term := do
  pure (.literal (← change (·.string text)))

/-- A name or an anonymous variable. -/
def variableOrConstant (name : String) : Parse Term :=
  if name = "_" then change (·.freshVariable) else change (·.constant name)

/-- After `(`: the operator that stands alone before `)`, if there is one. -/
def loneOperator? : Parse (Option Symbol) := do
  let t ← peek
  match operatorSymbol? (← vocabulary) t.kind with
  | none => pure none
  | some s =>
    let following ← peekAt 1
    if following.kind = .rightParen then
      let _ ← next
      let _ ← next
      pure (some s)
    else pure none

/-- Whether a name that was just read is the binder of an abstraction, where one may stand. -/
def bindsAt (limit : Nat) : Parse Bool :=
  if limit ≤ binder then do
    let t ← peek
    pure (t.kind = .backslash)
  else pure false

mutual

def expression : Nat → (limit : Nat) → (strict : Bool) → (earlier : Option (Nat × Grouping)) →
    Parse Term
  | 0, _, _, _ => fail (.anomaly .exhausted)
  | n + 1, limit, strict, earlier => do
    let first ← operand n limit
    climb n limit strict earlier first
termination_by structural n => n

/-- Goes on with the operators after an operand; `earlier` is the operator taken last. -/
def climb : Nat → (limit : Nat) → (strict : Bool) → (earlier : Option (Nat × Grouping)) →
    Term → Parse Term
  | 0, _, _, _, _ => fail (.anomaly .exhausted)
  | n + 1, limit, strict, earlier, first => do
    let t ← peek
    match ← operatorAfter? t.kind with
    | none => pure first
    | some (s, o) =>
      if o.precedence < limit ∨ o.precedence = limit ∧ strict then pure first
      else
        checkChain t o earlier
        let _ ← next
        let taken := some (o.precedence, o.grouping)
        if o.placement = .afterOperand then
          climb n limit strict taken (Term.node s [first])
        else
          let second ← expression n o.precedence (o.grouping ≠ .right) taken
          climb n limit strict taken (Term.node s [first, second])
termination_by structural n => n

/-- A prefix operator with its operand, an application, or an atomic term. -/
def operand : Nat → (limit : Nat) → Parse Term
  | 0, _ => fail (.anomaly .exhausted)
  | n + 1, limit => do
    let t ← peek
    match ← prefixAt? t.kind with
    | some (s, o) =>
      if o.precedence < limit then failAt t.span (.looseOperator t.kind o.precedence limit)
      else
        let _ ← next
        let inner ← expression n o.precedence false (some (o.precedence, .right))
        pure (Term.node s [inner])
    | none =>
      let head ← atomic n limit
      if application < limit then pure head
      else
        match ← arguments n with
        | [] => pure head
        | args =>
          let span ← spanFrom t.span
          ofExcept ((← vocabulary).apply span (head :: args))
termination_by structural n => n

/-- The arguments of an application. -/
def arguments : Nat → Parse (List Term)
  | 0 => fail (.anomaly .exhausted)
  | n + 1 => do
    let t ← peek
    if startsArgument (← vocabulary) t.kind then
      let first ← atomic n binder
      let others ← arguments n
      pure (first :: others)
    else pure []
termination_by structural n => n

def atomic : Nat → (limit : Nat) → Parse Term
  | 0, _ => fail (.anomaly .exhausted)
  | n + 1, limit => do
    let t ← next
    match t.kind with
    | .ident name =>
      if ← bindsAt limit then
        let _ ← next
        let body ← expression n lowest false none
        change (·.lambda name body)
      else if (operatorSymbol? (← vocabulary) t.kind).isSome then
        failAt t.span (.unexpectedOperator t.kind)
      else variableOrConstant name
    | .symbolic name =>
      if name = "|" ∨ (operatorSymbol? (← vocabulary) t.kind).isSome then
        failAt t.span (.unexpected t.kind)
      else change (·.constant name)
    | .macroName name => change (·.constant name)
    | .int digits => integer t.span digits
    | .float text => pure (float text)
    | .string text => stringLiteral text
    | .quotation raw => ofExcept (Term.ofQuotation t.span raw)
    | .leftParen =>
      match ← loneOperator? with
      | some s => pure (.const s)
      | none =>
        let inner ← expression n lowest false none
        let _ ← expect .rightParen
        pure inner
    | .leftBracket =>
      if (← peek).kind = .rightBracket then
        let _ ← next
        pure Term.nil
      else
        let cells ← elements n
        let _ ← expect .rightBracket
        pure cells
    | .leftBrace =>
      let inner ← expression n lowest false none
      let _ ← expect .rightBrace
      pure (Term.node Symbol.spill [inner])
    | other => failAt t.span (.unexpected other)
termination_by structural n => n

/-- The elements of a list and its tail, up to the closing bracket. -/
def elements : Nat → Parse Term
  | 0 => fail (.anomaly .exhausted)
  | n + 1 => do
    let first ← expression n listElement false none
    if ← eatSymbol "," then
      let rest ← elements n
      pure (Term.cell first rest)
    else if ← eatSymbol "|" then
      let tail ← expression n listElement false none
      pure (Term.cell first tail)
    else pure (Term.cell first Term.nil)
termination_by structural n => n

end

/-- An expression at a level, with bound enough for all that is ahead. -/
def expressionAt (limit : Nat) (strict : Bool) : Parse Term := fun s =>
  expression (4 * s.ahead.items.length + 4) limit strict none s

/-- A whole term. -/
def term : Parse Term := expressionAt lowest false

/-- A term without operators or application at its top. -/
def closedTerm : Parse Term := expressionAt Precedence.atomic true

end Clausal.Parse
