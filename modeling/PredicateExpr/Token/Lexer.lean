import PredicateExpr.Error
import PredicateExpr.Text.Utf8
import PredicateExpr.Token.Shape

/-!
# From text to tokens

At every step the patterns of all kinds are searched for in the text that remains and the closest
match is taken, the kind listed first winning a tie. A token starts where the last one ended: text
skipped by the closest match, or left over when nothing matches, belongs to no token and ends the
scan. Separators are recognised and dropped.

`Scan` keeps the tokens read before such a stretch, and `tokenize` turns the stretch into an error.
-/

namespace PredicateExpr

open Text

/-! ## The closest match -/

namespace Token

/-- The nearer of the match found so far and the first match of one more kind. There is no need to
look for a match nearer than one at the beginning. -/
def nearer (cs : List Char) (best : Option (Kind × Pattern.Match)) (kind : Kind) :
    Option (Kind × Pattern.Match) :=
  if best.any (·.2.skipped.isEmpty) then
    best
  else
    match kind.pattern.find? cs with
    | none => best
    | some found =>
      if best.all fun current => found.skipped.length < current.2.skipped.length then
        some (kind, found)
      else
        best

/-- The match closest to the beginning of a text, with its kind. -/
def closest? (cs : List Char) : Option (Kind × Pattern.Match) :=
  Kind.all.foldl (nearer cs) none

/-- The closest match is the first match of its kind. -/
theorem find?_of_closest? {cs : List Char} {kind : Kind} {found : Pattern.Match}
    (h : closest? cs = some (kind, found)) : kind.pattern.find? cs = some found := by
  have step : ∀ (kinds : List Kind) (best : Option (Kind × Pattern.Match)),
      (∀ b, best = some b → b.1.pattern.find? cs = some b.2) →
      ∀ b, kinds.foldl (nearer cs) best = some b → b.1.pattern.find? cs = some b.2 := by
    intro kinds
    induction kinds with
    | nil => intro best hbest b hb; exact hbest b hb
    | cons k kinds ih =>
      intro best hbest
      refine ih _ ?_
      intro b hb
      unfold nearer at hb
      split at hb
      · exact hbest b hb
      · split at hb
        · exact hbest b hb
        · split at hb
          · cases hb; assumption
          · exact hbest b hb
  exact step Kind.all none (by simp) _ h

/-- The closest match leaves less than the text. -/
theorem length_lt_of_closest? {cs : List Char} {kind : Kind} {found : Pattern.Match}
    (h : closest? cs = some (kind, found)) : found.rest.length < cs.length :=
  Pattern.length_lt_of_find? kind.consumes_pattern (find?_of_closest? h)

end Token

/-! ## Scanning a text -/

/-- A stretch of text that belongs to no token. -/
structure Unrecognised where
  /-- The stretch itself. -/
  fragment : List Char
  /-- The byte at which it starts. -/
  offset : Nat
  deriving DecidableEq, Repr

/-- What was read of a text: its tokens, up to the first stretch that belongs to none. -/
structure Scan where
  /-- The tokens read. -/
  tokens : List Token
  /-- What stopped the scan, unless the whole text was read. -/
  stop? : Option Unrecognised
  deriving DecidableEq, Repr

/-- Puts what was read at some place in front of what was read after it. -/
def Scan.prepend (scan : Scan) (kind : Token.Kind) (stretch : List Char) (offset : Nat) : Scan :=
  if kind = .separator then
    scan
  else
    { scan with tokens := ⟨kind, String.ofList (kind.textOf stretch), offset⟩ :: scan.tokens }

/-- Reads a text that starts at a given byte. -/
def scanFrom (offset : Nat) (cs : List Char) : Scan :=
  if cs = [] then
    ⟨[], none⟩
  else
    match _h : Token.closest? cs with
    | none => ⟨[], some ⟨cs, offset⟩⟩
    | some (kind, found) =>
      if found.skipped = [] then
        (scanFrom (offset + utf8Size found.text) found.rest).prepend kind found.text offset
      else
        ⟨[], some ⟨found.skipped, offset⟩⟩
termination_by cs.length
decreasing_by exact Token.length_lt_of_closest? _h

/-- Reads a whole text. -/
def scan (text : String) : Scan :=
  scanFrom 0 text.toList

/-- The outcome of a scan: all tokens, or the stretch that stopped it as an error. -/
def Scan.result (scan : Scan) : Except CompileError (List Token) :=
  match scan.stop? with
  | none => .ok scan.tokens
  | some stop => .error (.unrecognised (String.ofList stop.fragment) stop.offset)

/-- The tokens of a text, without its separators. -/
def tokenize (text : String) : Except CompileError (List Token) :=
  (scan text).result

end PredicateExpr
