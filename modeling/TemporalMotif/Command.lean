import TemporalMotif.Match.Matcher
import TemporalMotif.Text.Reader
import TemporalMotif.Text.Layout
import TemporalMotif.Text.Numeral

/-! # The command line

`-q FILE` names the query and `-t FILE` the target, both in the text form; `-d N` sets the
maximum span (unbounded without it), `-u` reads both as undirected graphs, and `-o` lists every
occurrence on its own line under a `Nodes<TAB>Edges` heading. The target is read with the query
as its pattern and the same label table, and the answer ends with the number of occurrences. -/

namespace TemporalMotif

/-- What the command line asks for. -/
structure Command where
  query : String
  target : String
  span : MaxSpan
  directed : Bool
  dump : Bool
deriving Repr

namespace Command

/-- The settings read so far: query and target file, span, undirected, dump. -/
structure Flags where
  query : Option String := none
  target : Option String := none
  span : MaxSpan := .unbounded
  undirected : Bool := false
  dump : Bool := false

/-- Reads the arguments into `f`. -/
def readFlags (f : Flags) : List String → Except String Flags
  | [] => .ok f
  | a :: rest =>
    if a = "-u" || a = "--undirected" then readFlags { f with undirected := true } rest
    else if a = "-o" || a = "--dump" then readFlags { f with dump := true } rest
    else match rest with
      | v :: rest' =>
        if a = "-q" || a = "--query" then readFlags { f with query := some v } rest'
        else if a = "-t" || a = "--target" then readFlags { f with target := some v } rest'
        else if a = "-d" || a = "--delta" then
          match Numeral.intIn? Stamp.least Stamp.greatest v.toList with
          | some d => readFlags { f with span := .within d } rest'
          | none => .error s!"invalid value '{v}' for '--delta'"
        else .error s!"unexpected argument '{a}'"
      | [] => .error s!"unexpected argument '{a}'"

/-- The command given by the arguments. -/
def parse (args : List String) : Except String Command := do
  let f ← readFlags {} args
  match f.query, f.target with
  | some q, some t => .ok ⟨q, t, f.span, !f.undirected, f.dump⟩
  | none, _ => .error "the argument '--query' was not provided"
  | _, none => .error "the argument '--target' was not provided"

/-- The answer to the command for the query text `qText` and the target text `tText`. -/
def answer (c : Command) (qText tText : String) : Except String String := do
  let (q, tb) ← (Graph.load {} qText none c.directed).mapError LoadError.message
  let (t, tb) ← (Graph.load tb tText (some q) c.directed).mapError LoadError.message
  let run ← (matchGraphs q t c.directed c.span false).mapError MatchError.message
  let listing :=
    if c.dump then "Nodes\tEdges\n" ++ String.join (run.occurrences.map (·.graph.layout (some tb) ++ "\n"))
    else ""
  let n := run.count
  pure (listing ++ s!"Number of occurrences: {n}\n")

end Command

end TemporalMotif
