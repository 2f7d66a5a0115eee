import StyleCascade.NodeId

/-!
# Notices

What a run has to tell its user, as data: each notice has a level, the part of the
engine it comes from, and a wording. A log shows the notices up to a chosen level.
-/
namespace StyleCascade

/-- How much a log shows: the first level nothing, the last one everything. -/
inductive LogLevel
  | off
  | error
  | warn
  | info
  | debug
  | trace
deriving DecidableEq, Repr

namespace LogLevel

def all : List LogLevel := [off, error, warn, info, debug, trace]

def name : LogLevel → String
  | off => "OFF"
  | error => "ERROR"
  | warn => "WARN"
  | info => "INFO"
  | debug => "DEBUG"
  | trace => "TRACE"

/-- The position of a level in `all`. -/
def rank : LogLevel → Nat
  | off => 0
  | error => 1
  | warn => 2
  | info => 3
  | debug => 4
  | trace => 5

end LogLevel

inductive Notice
  | invalidMediaValue (text : String)
  | unsupportedQuery (query list : String)
  | unsupportedAtRule (name : String)
  | noUsableSelector (text : String)
  | sheetRead (rules : Nat)
  | documentSheetAdded (rules : Nat)
  | nodeCreated (node : NodeId) (tag : String)
  | rulesMatched (count : Nat) (node : NodeId)
  | dirtyNodesRestyled (count : Nat)
  | restyled (count : Nat)
  | nodeDumped (node : NodeId)
deriving DecidableEq, Repr

namespace Notice

def level : Notice → LogLevel
  | invalidMediaValue _ | unsupportedQuery .. | noUsableSelector _ => .warn
  | documentSheetAdded _ | restyled _ => .info
  | unsupportedAtRule _ | sheetRead _ | dirtyNodesRestyled _ | nodeDumped _ => .debug
  | nodeCreated .. | rulesMatched .. => .trace

/-- The part of the engine that speaks. -/
def target : Notice → String
  | nodeCreated .. | dirtyNodesRestyled _ => "dom"
  | _ => "css"

def message : Notice → String
  | invalidMediaValue text => s!"Invalid media value '{text}'"
  | unsupportedQuery query list => s!"Unsupported media query '{query}' in '{list}'"
  | unsupportedAtRule name => s!"Skipping unsupported at-rule {name}"
  | noUsableSelector text => s!"No usable selector in '{text}'"
  | sheetRead rules => s!"Parsed style sheet with {rules} rules"
  | documentSheetAdded rules => s!"Loaded document style sheet ({rules} rules)"
  | nodeCreated node tag => s!"Created node {node.text} <{tag}>"
  | rulesMatched count node => s!"{count} rules matched node {node.text}"
  | dirtyNodesRestyled count => s!"Restyled {count} dirty nodes"
  | restyled count => s!"Restyled {count} nodes"
  | nodeDumped node => s!"Dumped node {node.text}"

/-- Whether a log of the given level shows the notice. -/
def shown (limit : LogLevel) (n : Notice) : Bool :=
  n.level.rank ≤ limit.rank

end Notice
end StyleCascade
