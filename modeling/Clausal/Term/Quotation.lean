import Clausal.Fault
import Clausal.Term
import Clausal.Text.Class

/-!
# Reading quotations

The raw text of a quotation is a run of at least two opening braces, the quoted text, and as many
closing braces. The quoted text may begin with `kind:` and a tag; then the data is what follows
the tag, without blanks at its end.
-/
namespace Clausal

/-- The length of a text in UTF-8. -/
def utf8Length (text : List Char) : Nat := text.foldr (fun c n => c.utf8Size + n) 0

namespace Quotation

def openBrace : Char := '\x7b'

def closeBrace : Char := '\x7d'

/-- The text after a word that stands at the beginning. -/
def after? : List Char → List Char → Option (List Char)
  | [], text => some text
  | _ :: _, [] => none
  | w :: word, c :: text => if w = c then after? word text else none

def trimEnd (text : List Char) : List Char :=
  (text.reverse.dropWhile Text.isBlank).reverse

/-- The quotation with the given raw text, delimiters included, at the given span. -/
def ofRaw (span : Span) (raw : List Char) : Except TermFault Quotation :=
  let width := (raw.takeWhile (· == openBrace)).length
  let closing := (raw.reverse.takeWhile (· == closeBrace)).length
  if width < 2 ∨ closing < width ∨ raw.length < 2 * width then .error .quotationDelimiters
  else
    let inner := (raw.drop width).take (raw.length - 2 * width)
    match after? "kind:".toList (inner.dropWhile Text.isBlank) with
    | none => .ok ⟨String.ofList inner, span.strip width width, none⟩
    | some tagged =>
      let kind := tagged.takeWhile fun c => c != ' ' && c != '\n'
      match tagged.dropWhile fun c => c != ' ' && c != '\n' with
      | [] => .error .quotationKindUnterminated
      | _ :: body =>
        if kind.isEmpty then .error .quotationKindEmpty
        else
          let data := trimEnd body
          let front := utf8Length raw - width - utf8Length body
          let back := width + (utf8Length body - utf8Length data)
          .ok ⟨String.ofList data, span.strip front back, some (String.ofList kind)⟩

end Quotation

/-- The term for a quotation in a source text. -/
def Term.ofQuotation (span : Span) (raw : String) : Except TermError Term :=
  match Quotation.ofRaw span raw.toList with
  | .ok q => .ok (.quoted q)
  | .error fault => .error (.malformed span fault)

end Clausal
