import Atperson.Journal.Rules

/-!
# The commands that write valence

`journal apply` takes one valence event, `journal map` those that a rule table derives. Each
event is taken by the graph in memory and then written to the journal; the model is saved
behind the last. A process may end anywhere on the way: what it has written to the journal
stays, what its graph has taken is gone.
-/
namespace Atperson.Journal
open Wire
open Atperson.Core (Utf8proc Graph valenceKindFromName)

/-- `atp_graph_has_token`. -/
def hasToken (g : Graph) (token : Bytes) : Bool := (g.findToken (CString.ofRaw token)).isSome

/-- What a command leaves: its graph, the lines it has written, and whether it has saved. -/
structure Written where
  graph : Graph
  lines : List JournalValence
  saved : Bool

/-- The lines a process writes before it ends; none if it goes on to its end. -/
abbrev Ending := Option ℕ

/-! ## One event -/

/-- The arguments of `journal apply`, with the signal that `parse_signal` reads. -/
structure ApplyRequest where
  token : Bytes
  kind : Bytes
  signal : Single
  source : Bytes
  now : ℤ
  time : Bytes

def ApplyRequest.entry (r : ApplyRequest) : JournalValence where
  token := r.token
  kind := r.kind
  signal := r.signal
  source := r.source
  atEpoch := UInt64.ofInt r.now
  time := r.time
  provenance := []

/-- `journal apply`. -/
def runApply (r : ApplyRequest) (ending : Ending) (g : Graph) : Written :=
  match valenceKindFromName r.kind with
  | none => ⟨g,[],false⟩
  | some kind =>
      match g.valenceEvent (CString.ofRaw r.token) kind r.signal (UInt64.ofInt r.now)
        (CString.ofRaw r.source) with
      | (g,.ok) =>
          match ending with
          | none => ⟨g,[r.entry],true⟩
          | some n => ⟨g,[r.entry].take n,false⟩
      | (g,_) => ⟨g,[],false⟩

/-! ## A rule table -/

/-- The unit separator between the parts of a key. -/
def keySeparator : UInt8 := 0x1f

def appliedKey (source provenance token : Bytes) : Bytes :=
  source++[keySeparator]++provenance++[keySeparator]++token

def JournalValence.key (entry : JournalValence) : Bytes :=
  appliedKey entry.source entry.provenance entry.token

def ValenceRule.provenance (rule : ValenceRule) : Bytes := utf8 "map:"++rule.id

/-- A map on its way. -/
structure Mapping where
  graph : Graph
  lines : List JournalValence
  applied : List Bytes
  skippedUnmapped : ℕ
  skippedUnknownTokens : ℕ

section Map
variable (U : Utf8proc) (table : RuleTable) (now : ℤ) (time : Bytes) (ending : Ending)

def mapEntry (action : JournalAction) (rule : ValenceRule) (token : Bytes) : JournalValence where
  token
  kind := utf8 (valenceKindName rule.kind)
  signal := rule.signal
  source := action.id
  atEpoch := UInt64.ofInt now
  time
  provenance := rule.provenance

/-- One more line, unless the process ends before it. -/
def writeLine (m : Mapping) (entry : JournalValence) : Except Mapping Mapping :=
  if ending = some m.lines.length then .error m else .ok {m with lines := m.lines++[entry]}

/-- One token of an action that a rule matches; an error where the process ends. -/
def mapToken (action : JournalAction) (rule : ValenceRule) (m : Mapping) (token : Bytes) :
    Except Mapping Mapping :=
  if !hasToken m.graph token then
    .ok {m with skippedUnknownTokens := m.skippedUnknownTokens+1}
  else
    let entry := mapEntry now time action rule token
    if m.applied.contains entry.key then .ok m
    else
      match m.graph.valenceEvent (CString.ofRaw token) rule.kind rule.signal (UInt64.ofInt now)
        (CString.ofRaw action.id) with
      | (g,.ok) => writeLine ending {m with graph := g, applied := entry.key::m.applied} entry
      | (g,_) => .error {m with graph := g}

def mapAction (journal : JournalContents) (m : Mapping) (action : JournalAction) :
    Except Mapping Mapping :=
  match firstMatchingRule action journal.events now journal.intents table with
  | none => .ok {m with skippedUnmapped := m.skippedUnmapped+1}
  | some rule => (distinctTokens U action.text).foldlM (mapToken now time ending action rule) m

def Mapping.start (journal : JournalContents) (g : Graph) : Mapping :=
  ⟨g,[],journal.valence.map JournalValence.key,0,0⟩

/-- `run_map`. -/
def runMap (journal : JournalContents) (g : Graph) : Written :=
  match journal.actions.foldlM (mapAction U table now time ending journal) (.start journal g) with
  | .error m => ⟨m.graph,m.lines,false⟩
  | .ok m => ⟨m.graph,m.lines,ending.isNone⟩

end Map

end Atperson.Journal
