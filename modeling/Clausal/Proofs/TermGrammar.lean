import Clausal.Proofs.SyntaxTrees
import Clausal.Proofs.TakenOperators

/-!
# The grammar of terms

Which rows of tokens are terms, as rules that neither count steps nor hold places. `Derives v part X a Y`
says that of the tokens `X` those in front of `Y` are a part of a term with the tree `a`. As in the
readers, an operator may stand where it is tight enough for the limit, and what is an operator is for the
vocabulary `v` to say.
-/
namespace Clausal

namespace Parse

/-- The operator that a row of tokens begins with, if it is behind an operand. -/
def operatorAhead? (v : Vocabulary) (kinds : List TokenKind) : Option (Symbol × Operator) :=
  operatorBehind? v (kinds.headD .endOfInput) ((kinds.drop 1).headD .endOfInput)

/-- The prefix operator that a row of tokens begins with. -/
def prefixAhead? (v : Vocabulary) (kinds : List TokenKind) : Option (Symbol × Operator) :=
  operatorBefore? v (kinds.headD .endOfInput) ((kinds.drop 1).headD .endOfInput)

end Parse

namespace Grammar

open Parse Precedence

/-- What is read from a row of tokens. -/
inductive Part where
  | expression (limit : Nat) (strict : Bool) (earlier : Option (Nat × Grouping))
  /-- The operators after an operand; `earlier` is the operator taken last. -/
  | climb (limit : Nat) (strict : Bool) (earlier : Option (Nat × Grouping)) (first : SyntaxTree)
  | operand (limit : Nat)
  | arguments (head : SyntaxTree)
  | atom
  /-- The elements of a list and its tail. -/
  | elements

/-- A token that is a term by itself. -/
inductive Single (v : Vocabulary) : TokenKind → SyntaxTree → Prop
  | name {n : String} (h : operatorSymbol? v (.ident n) = none) : Single v (.ident n) (.ofName n)
  | symbolic {n : String} (hn : n ≠ "|") (h : operatorSymbol? v (.symbolic n) = none) :
      Single v (.symbolic n) (.name n)
  | macroName {n : String} : Single v (.macroName n) (.name n)
  | int {digits : String} {value : Nat} (h : boundedNat? (Nat.pow 2 63 - 1) digits = some value) :
      Single v (.int digits) (.literal (.int (Int64.ofNat value)) rfl)
  | float {text : String} :
      Single v (.float text) (.literal (.float ((Decimal.read? text).getD (.nan false))) rfl)
  | string {text : String} : Single v (.string text) (.string text)
  | quotation {raw : String} {span : Span} {q : Quotation}
      (h : Quotation.ofRaw span raw.toList = .ok q) : Single v (.quotation raw) (.quotation q)

/-- A name in front of a backslash is a binder. -/
def Binds (k : TokenKind) (rest : List TokenKind) : Prop :=
  ∃ n, k = .ident n ∧ rest.headD .endOfInput = .backslash

inductive Derives (v : Vocabulary) : Part → List TokenKind → SyntaxTree → List TokenKind → Prop
  | expression {limit : Nat} {strict : Bool} {earlier : Option (Nat × Grouping)} {X Y Z : List TokenKind}
      {a b : SyntaxTree} (ho : Derives v (.operand limit) X a Y)
      (hc : Derives v (.climb limit strict earlier a) Y b Z) :
      Derives v (.expression limit strict earlier) X b Z
  | stop {limit : Nat} {strict : Bool} {earlier : Option (Nat × Grouping)} {X : List TokenKind}
      {a : SyntaxTree} (h : ∀ e ∈ operatorAhead? v X, ¬ Admits limit strict e.2) :
      Derives v (.climb limit strict earlier a) X a X
  | after {limit : Nat} {strict : Bool} {earlier : Option (Nat × Grouping)} {X Y : List TokenKind}
      {a b : SyntaxTree} {k : TokenKind} {s : Symbol} {o : Operator}
      (h : operatorAhead? v (k :: X) = some (s, o)) (hl : Admits limit strict o)
      (hc : Chains earlier o) (hp : o.placement = .afterOperand)
      (hd : Derives v (.climb limit strict (some (o.precedence, o.grouping)) (.unary s a)) X b Y) :
      Derives v (.climb limit strict earlier a) (k :: X) b Y
  | between {limit : Nat} {strict : Bool} {earlier : Option (Nat × Grouping)} {X Y Z : List TokenKind}
      {a b c : SyntaxTree} {k : TokenKind} {s : Symbol} {o : Operator}
      (h : operatorAhead? v (k :: X) = some (s, o)) (hl : Admits limit strict o)
      (hc : Chains earlier o) (hp : o.placement ≠ .afterOperand)
      (he : Derives v (.expression o.precedence (o.grouping ≠ .right)
        (some (o.precedence, o.grouping))) X b Y)
      (hd : Derives v (.climb limit strict (some (o.precedence, o.grouping)) (.binary s a b)) Y c Z) :
      Derives v (.climb limit strict earlier a) (k :: X) c Z
  | before {limit : Nat} {X Y : List TokenKind} {a : SyntaxTree} {k : TokenKind} {s : Symbol}
      {o : Operator} (h : prefixAhead? v (k :: X) = some (s, o)) (hl : limit ≤ o.precedence)
      (he : Derives v (.expression o.precedence false (some (o.precedence, .right))) X a Y) :
      Derives v (.operand limit) (k :: X) (.unary s a) Y
  | application {limit : Nat} {X Y Z : List TokenKind} {a b : SyntaxTree}
      (h : prefixAhead? v X = none) (ha : Derives v .atom X a Y)
      (hs : Derives v (.arguments a) Y b Z) : Derives v (.operand limit) X b Z
  | noArgument {X : List TokenKind} {a : SyntaxTree}
      (h : startsArgument v (X.headD .endOfInput) = false) : Derives v (.arguments a) X a X
  | argument {X Y Z : List TokenKind} {a b c : SyntaxTree}
      (h : startsArgument v (X.headD .endOfInput) = true) (ha : a.isApplicable = true)
      (hb : Derives v .atom X b Y) (hs : Derives v (.arguments (.apply a b)) Y c Z) :
      Derives v (.arguments a) X c Z
  | single {X : List TokenKind} {a : SyntaxTree} {k : TokenKind} (h : Single v k a)
      (hb : ¬ Binds k X) : Derives v .atom (k :: X) a X
  | lambda {X Y : List TokenKind} {a : SyntaxTree} {x : String}
      (he : Derives v (.expression lowest false none) X a Y) :
      Derives v .atom (.ident x :: .backslash :: X) (.lambda x a) Y
  | lone {X : List TokenKind} {k : TokenKind} {s : Symbol} (h : operatorSymbol? v k = some s) :
      Derives v .atom (.leftParen :: k :: .rightParen :: X) (.symbol s) X
  | group {X Y : List TokenKind} {a : SyntaxTree} (h : operatorSymbol? v (X.headD .endOfInput) = none ∨
        (X.drop 1).headD .endOfInput ≠ .rightParen)
      (he : Derives v (.expression lowest false none) X a (.rightParen :: Y)) :
      Derives v .atom (.leftParen :: X) a Y
  | nil {X : List TokenKind} : Derives v .atom (.leftBracket :: .rightBracket :: X) .nil X
  | list {X Y : List TokenKind} {a : SyntaxTree} (h : X.headD .endOfInput ≠ .rightBracket)
      (he : Derives v .elements X a (.rightBracket :: Y)) : Derives v .atom (.leftBracket :: X) a Y
  | spill {X Y : List TokenKind} {a : SyntaxTree}
      (he : Derives v (.expression lowest false none) X a (.rightBrace :: Y)) :
      Derives v .atom (.leftBrace :: X) (.unary Symbol.spill a) Y
  | more {X Y Z : List TokenKind} {a b : SyntaxTree}
      (he : Derives v (.expression listElement false none) X a (.symbolic "," :: Y))
      (hs : Derives v .elements Y b Z) : Derives v .elements X (.cell a b) Z
  | tail {X Y Z : List TokenKind} {a b : SyntaxTree}
      (he : Derives v (.expression listElement false none) X a (.symbolic "|" :: Y))
      (ht : Derives v (.expression listElement false none) Y b Z) :
      Derives v .elements X (.cell a b) Z
  | last {X Y : List TokenKind} {a : SyntaxTree}
      (he : Derives v (.expression listElement false none) X a Y)
      (hc : Y.headD .endOfInput ≠ .symbolic ",") (hb : Y.headD .endOfInput ≠ .symbolic "|") :
      Derives v .elements X (.cell a .nil) Y

end Grammar

end Clausal
