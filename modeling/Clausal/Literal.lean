import Clausal.Decimal.Shortest
import Clausal.Feed
import Clausal.Span

/-!
# Literals

Data that terms carry without looking into it: numbers, strings, spans, and values of extension
types. A type says how its values print, compare and feed a hash. A malformed value claims a type
but holds no payload of it.

What an extension says of its types is not known here: `Extensions` stands for it.
-/
namespace Clausal

/-- A type that an extension declares. Types are told apart by their descriptors, not by name. -/
structure ExtensionType where
  name : String
  descriptor : Nat
  /-- Whether equal values are expected to share one payload. -/
  pooled : Bool
  deriving DecidableEq, Repr

/-- The payload of an extension value, and what its type prints for it. -/
structure Payload where
  bytes : List UInt8
  shown : String
  deriving DecidableEq, Repr

/-- How the extension types order payloads, and what they feed a hash for them. -/
class Extensions where
  compare : ExtensionType → Payload → Payload → Ordering
  feed : ExtensionType → Payload → List UInt8
  lawful : ∀ t, Std.TransCmp (compare t)
  /-- Payloads that compare equal hash alike. -/
  feed_eq : ∀ {t p q}, compare t p q = .eq → feed t p = feed t q

/-- Payloads are their bytes. -/
@[reducible] def Extensions.byBytes : Extensions where
  compare _ p q := Ord.compare p.bytes q.bytes
  feed _ p := p.bytes
  lawful _ :=
    { eq_swap := Std.OrientedCmp.eq_swap
      isLE_trans := Std.TransCmp.isLE_trans }
  feed_eq h := Std.LawfulEqCmp.eq_of_compare h

inductive LiteralType where
  | int
  | float
  | string
  | span
  | extension (type : ExtensionType)
  deriving DecidableEq, Repr

namespace LiteralType

def name : LiteralType → String
  | int => "int"
  | float => "float"
  | string => "string"
  | span => "loc"
  | extension t => t.name

/-- Whether equal values are expected to share one pooled payload. -/
def isPooled : LiteralType → Bool
  | string => true
  | extension t => t.pooled
  | _ => false

end LiteralType

inductive Literal where
  | int (value : Int64)
  | float (value : Binary64)
  /-- A string, which the pool of a vocabulary may hold. -/
  | string (text : String) (pooled : Bool)
  | span (value : Span)
  | extension (type : ExtensionType) (payload : Payload)
  | malformed (type : LiteralType)
  deriving DecidableEq, Repr

namespace Literal

def type : Literal → LiteralType
  | int _ => .int
  | float _ => .float
  | string _ _ => .string
  | span _ => .span
  | extension t _ => .extension t
  | malformed t => t

def int? : Literal → Option Int64
  | int n => some n
  | _ => none

def float? : Literal → Option Binary64
  | float x => some x
  | _ => none

def string? : Literal → Option String
  | string text _ => some text
  | _ => none

def span? : Literal → Option Span
  | span s => some s
  | _ => none

/-- The payload of an extension type. -/
def payload? (t : ExtensionType) : Literal → Option Payload
  | extension type p => if type = t then some p else none
  | _ => none

def escapeChar : Char → List Char
  | '\\' => ['\\', '\\']
  | '"' => ['\\', '"']
  | '\n' => ['\\', 'n']
  | '\t' => ['\\', 't']
  | c => [c]

/-- A string as the source language writes it. -/
def renderString (text : String) : String :=
  String.ofList ('"' :: text.toList.flatMap escapeChar ++ ['"'])

def render : Literal → String
  | int n => toString n.toInt
  | float x => Decimal.render x
  | string text _ => renderString text
  | span s => s.render
  | extension _ p => p.shown
  | malformed t => "<" ++ t.name ++ "?>"

/-- Missing payloads come before all others. -/
def comparePayload {α : Type} (cmp : α → α → Ordering) : Option α → Option α → Ordering
  | none, none => .eq
  | none, some _ => .lt
  | some _, none => .gt
  | some a, some b => cmp a b

/-- Spans compare by source and extent; their lines do not count. -/
def compareSpans (a b : Span) : Ordering :=
  (compare a.source b.source).then
    ((compare a.start b.start).then (compare a.stop b.stop))

/-- Whether two values hold the very same payload, which only the pool brings about. -/
def shares : Literal → Literal → Bool
  | string a true, string b true => a = b
  | _, _ => false

section

variable [Extensions]

/-- The order of a type. A value that has no payload of this type counts as malformed. -/
def compareAs : LiteralType → Literal → Literal → Ordering
  | .int, a, b => comparePayload (fun x y => compare x.toInt y.toInt) a.int? b.int?
  | .float, a, b => comparePayload (fun x y => compare x.rank y.rank) a.float? b.float?
  | .string, a, b => comparePayload compare a.string? b.string?
  | .span, a, b => comparePayload compareSpans a.span? b.span?
  | .extension t, a, b => comparePayload (Extensions.compare t) (a.payload? t) (b.payload? t)

/-- Equality: of one type, and the same payload or payloads that compare equal. -/
def same (a b : Literal) : Bool :=
  a.type = b.type && ((a.type.isPooled && a.shares b) || compareAs a.type a b == .eq)

def feedPayload : Literal → List UInt8
  | int n => Feed.word n.toUInt64.toNat
  | float x => Feed.word x.bits.toNat
  | string text _ => Feed.text text
  | span s => Feed.span s
  | extension t p => Extensions.feed t p
  | malformed _ => []

def feed (a : Literal) : List UInt8 := Feed.text a.type.name ++ a.feedPayload

end

end Literal

end Clausal
