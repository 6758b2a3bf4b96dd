import Clausal.Parse.Entry

/-!
# The baseline

Every session begins with the built-in operators and the declarations of the built-in names. They
are loaded once: from then on `load` does nothing.
-/
namespace Clausal

/-- The operators that exist before any declaration. -/
def baselineOperators : List (String × Fixity × Nat) :=
  [(":-", .infixOnly, 1), ("?-", .infixOnly, 2), (";", .infixRight, 100), (",", .infixRight, 110),
    ("->", .infixRight, 120), ("=>", .infixRight, 130), (":", .infixRight, 135),
    ("=", .infixOnly, 140), ("==", .infixOnly, 140), ("<", .infixOnly, 140),
    (">", .infixOnly, 140), ("=<", .infixOnly, 140), (">=", .infixOnly, 140),
    ("is", .infixOnly, 140), ("::", .infixRight, 150), ("+", .infixLeft, 160),
    ("-", .infixLeft, 160), ("*", .infixLeft, 170), ("/", .infixLeft, 170),
    ("div", .infixLeft, 170), ("mod", .infixLeft, 170), ("^", .infixRight, 180),
    ("-", .prefixOp, 190), ("~", .prefixOp, 190)]

namespace Vocabulary

/-- Declares operators up to the first that is refused. -/
def defineOperators (v : Vocabulary) :
    List (String × Fixity × Nat) → Except TermError Unit × Vocabulary
  | [] => (.ok (), v)
  | (name, fixity, precedence) :: rest =>
    match v.defineOperator name fixity precedence with
    | (.ok _, v) => v.defineOperators rest
    | (.error e, v) => (.error e, v)

def defineBaseline (v : Vocabulary) : Except TermError Unit × Vocabulary :=
  v.defineOperators baselineOperators

/-- Claims the loading of the baseline; false if it has been claimed before. -/
def beginBootstrap (v : Vocabulary) : Bool × Vocabulary :=
  (!v.bootstrapped, { v with bootstrapped := true })

end Vocabulary

namespace Baseline

/-- The surface grammar; the older one has a few more operators. -/
inductive Variant where
  | standard
  | legacy
  deriving DecidableEq, Repr

def Variant.text : Variant → String
  | standard => "Standard"
  | legacy => "Legacy"

structure Config where
  /-- Whether progress is worth telling. -/
  verbose : Bool
  variant : Variant
  deriving DecidableEq, Repr

def sourceName : String := "<pervasives>"

def declarations : String := "
% Kinds.
kind prop, int, float, string type.
kind list type -> type.

% Logical connectives.
type true, fail, ! prop.
type (,), (;), (:-), (=>) prop -> prop -> prop.
type pi, sigma (A -> prop) -> prop.

% Lists.
type nil list A.
type (::) A -> list A -> list A.

% Comparison and evaluation.
type (=), (==), (is) A -> A -> prop.
type (<), (>), (=<), (>=) A -> A -> prop.
mode (is o i).

% Arithmetic.
type (+), (*), div, mod int -> int -> int.
type (/) float -> float -> float.
type (~) int -> int.
type (^) string -> string -> string.

% Builtins.
external pred print i:A.
external pred halt.
type main prop.
"

def legacyDeclarations : String := "
infixl rem 170.
infixl xor 160.
infix =:= 140.
infix ~= 140.

type rem, xor int -> int -> int.
type (=:=), (~=) A -> A -> prop.
"

def texts : Variant → List String
  | .standard => [declarations]
  | .legacy => [declarations, legacyDeclarations]

/-- Reads the texts one after the other. -/
def parseTexts (v : Vocabulary) : List String → Except ParseError (List Decl) × Vocabulary
  | [] => (.ok [], v)
  | text :: rest =>
    match parseText v .disabled sourceName text with
    | (.error e, v) => (.error e, v)
    | (.ok decls, v) =>
      let (others, v) := parseTexts v rest
      (others.map (decls ++ ·), v)

/-- A message about the loading. -/
structure Notice where
  verbose : Bool
  text : String
  deriving DecidableEq, Repr

/-- What the loading did. -/
structure Outcome where
  result : Except ParseError (List Decl)
  vocabulary : Vocabulary
  notices : List Notice

def loadedText (variant : Variant) (program : List Decl) (v : Vocabulary) : String :=
  "pervasives loaded (" ++ variant.text ++ "): " ++ toString program.length ++
    " declarations, " ++ toString v.operators.size ++ " operators, " ++
    toString v.symbols.size ++ " symbols"

/-- Loads the baseline, unless that has been begun before. -/
def load (v : Vocabulary) (config : Config) : Outcome :=
  match v.beginBootstrap with
  | (false, v) => ⟨.ok [], v, [⟨config.verbose, "pervasives already loaded"⟩]⟩
  | (true, v) =>
    match v.defineBaseline with
    | (.error e, v) => ⟨.error (.term e), v, []⟩
    | (.ok _, v) =>
      match parseTexts v (texts config.variant) with
      | (.error e, v) => ⟨.error e, v, []⟩
      | (.ok program, v) =>
        ⟨.ok program, v, [⟨config.verbose, loadedText config.variant program v⟩]⟩

end Baseline

end Clausal
