import Atperson.Journal.Types
import Atperson.Outbound.Action

/-!
# Whom an action may be directed at

A person on the do-not-engage list is never engaged. Likes, reposts and follows also need an
invitation unless the operator has opened engagement.
-/
namespace Atperson.Scheduler
open Wire Journal Outbound

inductive EngagementMode where
  | invited | opened
  deriving DecidableEq

inductive EngagementRefusal where
  | none | optedOut | notInvited
  deriving DecidableEq

/-- `at_uri_authority`. -/
def atUriAuthority (uri : Bytes) : Bytes :=
  if (utf8 "at://").isPrefixOf uri then (uri.drop 5).takeWhile (· ≠ 47) else []

def invitedAuthors (journal : JournalContents) : List Bytes :=
  (journal.events.map JournalEvent.authorDid).filter (· ≠ [])

def actionTargetDid (action : OutboundAction) : Bytes :=
  match action.kind with
  | .reply => atUriAuthority action.replyParent
  | .like | .repost => atUriAuthority action.subject
  | .follow => action.subject
  | .post | .unfollow | .moderation => []

def checkEngagement (kind : OutboundActionKind) (targetDid : Bytes) (mode : EngagementMode)
    (invited optedOut : List Bytes) : EngagementRefusal :=
  if targetDid = [] then .none
  else if optedOut.contains targetDid then .optedOut
  else if (kind = .like ∨ kind = .repost ∨ kind = .follow) ∧ mode = .invited ∧
      !invited.contains targetDid then .notInvited
  else .none

end Atperson.Scheduler
