import Atperson.Control.Remote
import Atperson.Runs.Guarded

/-!
# The remote control channel

One bounded pass over the operator's records, and runs of passes. The control file is saved
first and the watermark after it, so a crash between the two leaves a command carried out
that the watermark does not count. A pass is followed by its acceptances; those, not the
records, say what became of the two files.
-/
namespace Atperson.Control
open Wire Runs

structure ListedRecord where
  uri : Option Bytes
  value : Option (Json Double)

structure Candidate where
  rkey : Bytes
  json : Option (Json Double)

def uriRkey (atUri : Bytes) : Except String Bytes :=
  let rkey := (atUri.reverse.takeWhile (· ≠ 47)).reverse
  if 47 ∉ atUri ∨ rkey = [] then
    .error ("remote control: record at-URI has no record key: "++text atUri)
  else .ok rkey

/-- What follows the first `://`. -/
def afterScheme : Bytes → Option Bytes
  | 58::47::47::rest => some rest
  | _::rest => afterScheme rest
  | [] => none

def uriAuthority (atUri : Bytes) : Bytes :=
  match afterScheme atUri with
  | none => []
  | some rest => if 47 ∈ rest then rest.takeWhile (· ≠ 47) else []

structure RemotePollConfig where
  operatorDid : Bytes
  accountDid : Bytes
  maxRecords : ℕ := 32
  maxApplies : ℕ := 8

structure RemoteRefusal where
  rkey : Bytes
  reason : String
  deriving DecidableEq

structure RemotePollReport where
  enabled : Bool := false
  conflict : Bool := false
  examined : ℕ := 0
  applied : ℕ := 0
  watermark : UInt64 := 0
  lastOp : String := ""
  refusals : List RemoteRefusal := []
  deriving DecidableEq

/-- The operator's own records of a listing, in its order. -/
def readCandidates (operatorDid : Bytes) : List ListedRecord → Except String (List Candidate)
  | [] => .ok []
  | item::rest =>
      match item.uri with
      | none => readCandidates operatorDid rest
      | some uri => do
          let rkey ← uriRkey uri
          let candidates ← readCandidates operatorDid rest
          if uriAuthority uri ≠ operatorDid then .ok candidates
          else .ok ({ rkey := rkey, json := item.value }::candidates)

structure ChannelFiles where
  control : Option (Json ℤ)
  cursor : Option (Json Double)

def ChannelFiles.watermark (files : ChannelFiles) : Except String UInt64 :=
  (loadRemoteControlCursor files.cursor).map (·.lastSeq)

def ChannelFiles.state (path : String) (files : ChannelFiles) : Except String ControlState :=
  loadControlState files.control path

/-- What a pass is given: the answer to its listing, the clock at each of its acceptances,
and the acceptance at which the process dies between the two saves. -/
structure PollInput where
  config : RemotePollConfig
  listing : Except String (List ListedRecord)
  clock : ℕ → ℤ
  crash : Option ℕ

inductive Outcome where
  | returned (report : RemotePollReport)
  | threw (message : String)
  | crashed
  deriving DecidableEq

/-- A command carried out; it is counted once the watermark is saved with it. -/
structure Acceptance where
  request : ControlRequest
  now : Bytes
  counted : Bool

structure Pass where
  files : ChannelFiles
  watermark : UInt64
  report : RemotePollReport
  trace : List Acceptance
  outcome : Option Outcome

namespace Pass

def refuse (p : Pass) (rkey : Bytes) (reason : String) : Pass :=
  { p with report := { p.report with refusals := p.report.refusals++[⟨rkey,reason⟩] } }

def stop (p : Pass) (outcome : Outcome) : Pass := { p with outcome := some outcome }

end Pass

def examineCandidate (path : String) (input : PollInput) (before : Pass)
    (candidate : Candidate) : Pass :=
  let config := input.config
  if before.report.examined ≥ config.maxRecords then
    before.stop (.returned before.report)
  else
    let p := { before with
      report := { before.report with examined := before.report.examined+1 } }
    match parseControlRequest candidate.json with
    | .error error => p.refuse candidate.rkey error
    | .ok request =>
      if request.seq ≤ p.watermark then p
      else if p.report.applied ≥ config.maxApplies then
        let p := p.refuse candidate.rkey
          "apply budget exhausted for this pass; a later pass continues"
        p.stop (.returned p.report)
      else match loadControlState p.files.control path with
      | .error error => p.stop (.threw error)
      | .ok state =>
        let clock := input.clock p.report.applied
        let applied := applyControlRequest state p.watermark request config.operatorDid
          config.operatorDid clock
        if applied.report.applied = false then p.refuse candidate.rkey applied.report.reason
        else match serialiseControlState applied.state with
        | .error error => p.stop (.threw error)
        | .ok json =>
          let files := { p.files with control := some json }
          let now := controlNowRfc3339 clock
          if input.crash = some p.report.applied then
            { p with
              files := files, outcome := some .crashed
              trace := p.trace++[{ request := request, now := now, counted := false }] }
          else
            { p with
              files := { files with
                cursor := some (serialiseCursor { lastSeq := applied.watermark }) }
              watermark := applied.watermark
              trace := p.trace++[{ request := request, now := now, counted := true }]
              report := { p.report with
                applied := p.report.applied+1, lastOp := applied.report.op
                watermark := applied.watermark } }

def pollLoop (path : String) (input : PollInput) : Pass → List Candidate → Pass
  | p, [] => p
  | p, candidate::rest =>
      let p := examineCandidate path input p candidate
      if p.outcome.isSome then p else pollLoop path input p rest

def poll (path : String) (files : ChannelFiles) (input : PollInput) : Pass :=
  let config := input.config
  let idle : Pass :=
    { files := files, watermark := 0, report := {}, trace := [], outcome := none }
  let denial : RemoteRefusal :=
    ⟨[],operatorChannelDenial config.accountDid config.operatorDid⟩
  match checkOperatorChannel config.accountDid config.operatorDid with
  | .conflict => idle.stop (.returned { conflict := true, refusals := [denial] })
  | .disabled => idle.stop (.returned { refusals := [denial] })
  | .ready =>
    match loadRemoteControlCursor files.cursor with
    | .error error => idle.stop (.threw error)
    | .ok cursor =>
      match input.listing.bind (readCandidates config.operatorDid) with
      | .error error => idle.stop (.threw error)
      | .ok newestFirst =>
        let p := pollLoop path input
          { idle with
            watermark := cursor.lastSeq
            report := { enabled := true, watermark := cursor.lastSeq } } newestFirst.reverse
        match p.outcome with
        | some _ => p
        | none => p.stop (.returned p.report)

/-- Passes one after the other, with all acceptances in order. -/
def runPolls (path : String) : ChannelFiles → List PollInput → ChannelFiles × List Acceptance
  | files, [] => (files,[])
  | files, input::rest =>
      let p := poll path files input
      let later := runPolls path p.files rest
      (later.1,p.trace++later.2)

end Atperson.Control
