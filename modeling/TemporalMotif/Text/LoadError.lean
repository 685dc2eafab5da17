/-! # Why a text is not a graph

Each way reading a text can fail, with the text it reports: the position and the content of the
line at fault where there is one. -/

namespace TemporalMotif

/-- Why a text is not a graph. -/
inductive LoadError where
  | missingNodeCount
  | invalidNodeCount (line : Nat) (value : String)
  | malformedNode (line : Nat) (content : String)
  | malformedEdge (line : Nat) (content : String)
  | invalidInteger (line : Nat) (value : String)
  | truncatedNodeList (expected found : Nat)
  | tooManyLabels (kind : String)
deriving DecidableEq, Repr

namespace LoadError

/-- The error's text. -/
def message : LoadError → String
  | missingNodeCount => "missing node count header"
  | invalidNodeCount n v => s!"line {n}: invalid node count '{v}'"
  | malformedNode n c => s!"line {n}: malformed node line '{c}'"
  | malformedEdge n c => s!"line {n}: malformed edge line '{c}'"
  | invalidInteger n v => s!"line {n}: invalid integer '{v}'"
  | truncatedNodeList e f => s!"expected {e} node lines, found {f}"
  | tooManyLabels k => s!"too many distinct {k} labels for 32-bit label ids"

end LoadError

end TemporalMotif
