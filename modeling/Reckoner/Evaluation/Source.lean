import Reckoner.Grammar.Parse
import Reckoner.Token.Scan

/-!
# Trees of texts

The tree of a text is what parsing makes of its tokens. A text without one is refused by the first
stage that fails.
-/

set_option autoImplicit false

namespace Reckoner

namespace Source

/-- Why a text has no tree. -/
inductive Refusal where
  | scan (e : Scan.Failure)
  | parse (e : Grammar.Failure)
  | halt (h : Grammar.Halt)
  deriving DecidableEq

/-- The tree of a list of tokens. -/
def treeOfTokens (tokens : List Token) : Except Refusal Tree :=
  match Grammar.parse tokens with
  | .error h => .error (.halt h)
  | .ok (r, _) =>
    match r.error with
    | some e => .error (.parse e)
    | none => .ok (r.node.getD .absent)

/-- The tokens of a text. -/
def tokens (file text : String) : Except Refusal (List Token) :=
  (scan file text).mapError .scan

/-- The tree of a text. -/
def tree (file text : String) : Except Refusal Tree := do
  treeOfTokens (← tokens file text)

/-- What the user is told, if there is a way to tell. -/
def Refusal.diagnostic? : Refusal → Option Diagnostic
  | .scan e => e.diagnostic?
  | .parse e => some e.diagnostic
  | .halt _ => none

end Source

end Reckoner
