import Atperson.Outbound.Action
import Atperson.Journal.Types
import Atperson.Core.Tokenize

/-!
# Predicted outcomes

What an autonomous document predicts: a kind by its plan score, a likelihood, and the
first distinct tokens of its text.
-/
namespace Atperson.Outbound
open Wire Journal

/-- The doubles nearest 0.6 and 0.35. -/
def kApproachExpectationFloor : Double := .finite (5404319552844595/9007199254740992)
def kInteractionExpectationFloor : Double := .finite (3152519739159347/9007199254740992)

/-- One emitted token: kept when new, and the scan stops at the bound. -/
def collectToken (maxTokens : ℕ) (out : List Bytes) (token : Core.Token) : List Bytes × Bool :=
  let out := if token.bytes ∈ out then out else out++[token.bytes]
  (out,out.length < maxTokens)

/-- `action::distinct_tokens` with a bound. -/
def distinctTokens (U : Core.Utf8proc) (raw : Bytes) (maxTokens : ℕ) : List Bytes :=
  if raw = [] ∨ maxTokens = 0 then []
  else Core.emitAll (collectToken maxTokens) [] (Core.tokenizeUnicode U (CString.ofRaw raw).bytes)

def deriveActionExpectation (U : Core.Utf8proc) (action : OutboundAction) :
    Option JournalExpectation :=
  action.planScore.map fun score =>
    let planScore := score.clamp (.finite 0) (.finite 1)
    { kind :=
        if ¬planScore.lt kApproachExpectationFloor ∧ planScore ≠ .nan then utf8 "approach"
        else if ¬planScore.lt kInteractionExpectationFloor ∧ planScore ≠ .nan then
          utf8 "interaction"
        else utf8 "action"
      replyLikelihood := planScore.toSingle
      tokens := distinctTokens U action.text kExpectationMaxTokens }

end Atperson.Outbound
