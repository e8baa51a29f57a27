import Atperson.Outbound.Budget
import Atperson.Control.State
import Atperson.Wire.Double

/-!
# Outbound actions

The frozen document of one action: how it is read, written and turned into the body of a
record. Five of the seven kinds are executable.
-/
namespace Atperson.Outbound
open Wire Runs Control

structure OutboundAction where
  kind : OutboundActionKind := .post
  text : Bytes := []
  rkey : Bytes := []
  createdAt : Bytes := []
  digest : Bytes := []
  replyRoot : Bytes := []
  replyParent : Bytes := []
  subject : Bytes := []
  planScore : Option Double := none
  supportScore : Option Double := none
  deriving DecidableEq

def outboundActionIsReply (action : OutboundAction) : Bool := action.kind = .reply

def outboundActionIsSubjectRef (action : OutboundAction) : Bool :=
  action.kind = .like || action.kind = .repost

def outboundActionCollection (action : OutboundAction) : String :=
  match action.kind with
  | .like => "app.bsky.feed.like"
  | .repost => "app.bsky.feed.repost"
  | .follow => "app.bsky.graph.follow"
  | .post | .reply | .unfollow | .moderation => "app.bsky.feed.post"

def outboundActionProposal (action : OutboundAction) : OutboundActionProposal where
  kind := action.kind
  target :=
    if outboundActionIsReply action then action.replyParent
    else if outboundActionIsSubjectRef action || action.kind = .follow then action.subject
    else []
  actionDigest := action.digest

def kOutboundActionFormat : String := "atperson-outbound-action"

/-- A number as it is printed: what is not finite prints as `null`. -/
def jsonNumber : Double → Json Double
  | .finite q => .number (.finite q)
  | _ => .null

def refuse {α : Type} (source message : String) : Except String α :=
  .error (source++": "++message)

def requireField (root : Json Double) (name source : String) : Except String Bytes :=
  match root.get? name with
  | some (.string raw) =>
      let value := (CString.ofRaw raw).bytes
      if value = [] then refuse source ("field '"++name++"' must be a non-empty string")
      else .ok value
  | _ => refuse source ("field '"++name++"' must be a non-empty string")

def executableKind (kind : OutboundActionKind) : Bool :=
  kind ≠ .unfollow && kind ≠ .moderation

/-- `text` and `subject`, of which a kind carries exactly one. -/
def parseBody (root : Json Double) (kind : OutboundActionKind) (kindName source : String) :
    Except String (Bytes × Bytes) :=
  if kind = .like ∨ kind = .repost ∨ kind = .follow then
    match root.get? "text" with
    | none => (requireField root "subject" source).map ([],·)
    | some (.string raw) =>
        if (CString.ofRaw raw).bytes ≠ [] then
          refuse source ("kind '"++kindName++"' must not carry text")
        else (requireField root "subject" source).map ([],·)
    | some _ => refuse source ("kind '"++kindName++"' must not carry text")
  else do
    let body ← requireField root "text" source
    match root.get? "subject" with
    | some _ => refuse source "a post or reply must not carry a subject"
    | none => .ok (body,[])

def parseReply (root : Json Double) (kind : OutboundActionKind) (source : String) :
    Except String (Bytes × Bytes) :=
  match root.get? "reply" with
  | some (.object members) =>
      if kind = .reply then do
        let replyRoot ← requireField (.object members) "root" source
        let replyParent ← requireField (.object members) "parent" source
        .ok (replyRoot,replyParent)
      else refuse source "an original post must not carry reply context"
  | some _ =>
      if kind = .reply then refuse source "a reply requires a 'reply' object"
      else refuse source "an original post must not carry reply context"
  | none =>
      if kind = .reply then refuse source "a reply requires a 'reply' object"
      else .ok ([],[])

def parseScore (root : Json Double) (name source : String) : Except String (Option Double) :=
  match root.get? name with
  | none => .ok none
  | some (.number d) => .ok (some d)
  | some _ => refuse source ("'"++name++"' must be a number")

/-- The root has parsed as JSON; `valueint` saturates, so only the number 1 passes. -/
def parseOutboundAction (root : Json Double) (source : String) :
    Except String OutboundAction :=
  match root with
  | .object _ => do
      let format ← requireField root "format" source
      if format ≠ utf8 kOutboundActionFormat then
        refuse source ("unsupported format '"++Wire.text format++"'")
      else match root.get? "version" with
        | some (.number (.finite version)) =>
            if ¬(1 ≤ version ∧ version < 2) then refuse source "unsupported version (expected 1)"
            else do
              let kindName ← requireField root "kind" source
              match parseOutboundKind (Wire.text kindName) with
              | none => refuse source ("unknown action kind '"++Wire.text kindName++"'")
              | some kind =>
                  if executableKind kind = false then
                    refuse source ("kind '"++Wire.text kindName++"' is not executable yet "++
                      "(post, reply, like, repost and follow are supported)")
                  else do
                    let body ← parseBody root kind (Wire.text kindName) source
                    let rkey ← requireField root "rkey" source
                    let createdAt ← requireField root "created_at" source
                    let digest ← requireField root "digest" source
                    if isControlDigestShape digest = false then
                      refuse source ("'digest' must be the 16-character lowercase hex #22 "++
                        "control digest")
                    else do
                      let reply ← parseReply root kind source
                      let planScore ← parseScore root "plan_score" source
                      let supportScore ← parseScore root "support_score" source
                      .ok {
                        kind := kind, text := body.1, rkey := rkey, createdAt := createdAt
                        digest := digest, replyRoot := reply.1, replyParent := reply.2
                        subject := body.2, planScore := planScore
                        supportScore := supportScore }
        | _ => refuse source "unsupported version (expected 1)"
  | _ => refuse source "document must be a JSON object"

def optionalMember (name : String) (value : Bytes) : List (String × Json Double) :=
  if value = [] then [] else [(name,.ofCString value)]

def scoreMember (name : String) : Option Double → List (String × Json Double)
  | some d => [(name,jsonNumber d)]
  | none => []

def serialiseOutboundAction (action : OutboundAction) : Json Double :=
  .object (
    [("format",.string (utf8 kOutboundActionFormat)),("version",.number (.finite 1)),
      ("kind",.string (utf8 (outboundKindName action.kind)))]++
    optionalMember "text" action.text++optionalMember "subject" action.subject++
    [("rkey",.ofCString action.rkey),("created_at",.ofCString action.createdAt),
      ("digest",.ofCString action.digest)]++
    (if outboundActionIsReply action then
      [("reply",.object [("root",.ofCString action.replyRoot),
        ("parent",.ofCString action.replyParent)])]
    else [])++
    scoreMember "plan_score" action.planScore++
    scoreMember "support_score" action.supportScore)

def strongRef (uri cid : Bytes) : Json Double :=
  .object [("$type",.string (utf8 "com.atproto.repo.strongRef")),("uri",.ofCString uri),
    ("cid",.ofCString cid)]

/-- The body of the record; a reference needs the CID it was resolved to. -/
def buildOutboundRecordJson (action : OutboundAction) (rootCid parentCid subjectCid : Bytes) :
    Except String (Json Double) :=
  if outboundActionIsReply action ∧ (rootCid = [] ∨ parentCid = []) then
    .error "a reply needs both root and parent CIDs"
  else if outboundActionIsSubjectRef action ∧ subjectCid = [] then
    .error "a like/repost needs the subject record CID"
  else .ok (.object (
    [("$type",.string (utf8 (outboundActionCollection action)))]++
    optionalMember "text" action.text++[("createdAt",.ofCString action.createdAt)]++
    (if outboundActionIsReply action then
      [("reply",.object [("root",strongRef action.replyRoot rootCid),
        ("parent",strongRef action.replyParent parentCid)])]
    else [])++
    (if outboundActionIsSubjectRef action then
      [("subject",.object [("subject",strongRef action.subject subjectCid)])]
    else [])++
    (if action.kind = .follow then [("subject",.ofCString action.subject)] else [])))

end Atperson.Outbound
