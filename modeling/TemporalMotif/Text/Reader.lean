import TemporalMotif.Graph.Basic
import TemporalMotif.Text.Blank
import TemporalMotif.Text.Numeral
import TemporalMotif.Text.Labels
import TemporalMotif.Text.LoadError
import TemporalMotif.Time.Stamp

/-! # Reading a graph from text

The text form, line by line (numbered from 1, blank lines skipped but counted):

* a header with the node count;
* that many node lines `id<TAB>label`;
* edge lines `source<TAB>dest<TAB>stamps`, where the stamps are comma-separated `time:label`
  items (empty items are skipped).

Lines end at a line feed, and a carriage return just before it is dropped. Fields are trimmed.
Node ids are unsigned 32-bit numerals, times signed 64-bit numerals. Label names are numbered
through a label table shared by every graph read with it; the table keeps the names read before a
failure. A self-loop line is skipped before its stamps are read. Reading with a pattern graph
drops the nodes and edges whose labels the pattern lacks; an edge whose ends were not both added
is dropped too. -/

namespace TemporalMotif

namespace Reader

/-- The pieces of `cs` between the occurrences of `sep`; there is one more piece than there
are separators. -/
def pieces (sep : Char) : List Char → List (List Char)
  | [] => [[]]
  | c :: cs =>
    match pieces sep cs with
    | [] => [[c]]
    | p :: ps => if c = sep then [] :: p :: ps else (c :: p) :: ps

/-- Drops one carriage return at the end. -/
def dropReturn (cs : List Char) : List Char :=
  if cs.getLast? = some '\r' then cs.dropLast else cs

/-- The lines of a text: the pieces between line feeds, each ended by a line feed losing a
carriage return before it; a final line feed starts no further line. -/
def lines (cs : List Char) : List (List Char) :=
  match (pieces '\n' cs).reverse with
  | [] => []
  | last :: rest => rest.reverse.map dropReturn ++ (if last.isEmpty then [] else [last])

/-- The lines that are not blank, each with its number. -/
def numbered (cs : List Char) : List (Nat × List Char) :=
  ((lines cs).zipIdx.map fun (l, i) => (i + 1, l)).filter fun (_, l) => !(Blank.trim l).isEmpty

/-- The numeral in `field` (trimmed), in the range of an unsigned 32-bit value. -/
def nodeId (line : Nat) (field : List Char) : Except LoadError Nat :=
  let t := Blank.trim field
  match Numeral.natUpTo? Numeral.u32Max t with
  | some v => .ok v
  | none => .error (.invalidInteger line (String.ofList t))

/-- The numeral in `field` (trimmed), in the range of a signed 64-bit value. -/
def time (line : Nat) (field : List Char) : Except LoadError Int :=
  let t := Blank.trim field
  match Numeral.intIn? Stamp.least Stamp.greatest t with
  | some v => .ok v
  | none => .error (.invalidInteger line (String.ofList t))

/-- What is being read: the graph so far and the label table. -/
structure Progress where
  graph : Graph
  labels : LabelTable

/-- Whether reading with `pattern` keeps a node of label `l`. -/
def keepsNode (pattern : Option Graph) (l : Nat) : Bool :=
  match pattern with
  | some p => p.nodeLabels.contains l
  | none => true

/-- Whether reading with `pattern` keeps an edge of label `l`. -/
def keepsEdge (pattern : Option Graph) (l : Nat) : Bool :=
  match pattern with
  | some p => p.edgeLabels.contains l
  | none => true

/-- Reads one node line. -/
def node (keep : Nat → Bool) (p : Progress) : Nat × List Char → Except LoadError Progress
  | (line, text) =>
    match pieces '\t' text with
    | idField :: nameField :: _ => do
      let id ← nodeId line idField
      let (l, labels) ← p.labels.internNode (String.ofList (Blank.trim nameField))
      let graph := if keep l then p.graph.addNode id l else p.graph
      pure ⟨graph, labels⟩
    | _ => .error (.malformedNode line (String.ofList text))

/-- Reads one `time:label` item of an edge line from `source` to `dest`. -/
def stamp (keep : Nat → Bool) (line : Nat) (text : List Char) (source dest : Nat) (p : Progress)
    (item : List Char) : Except LoadError Progress :=
  match item.idxOf? ':' with
  | none => .error (.malformedEdge line (String.ofList text))
  | some k => do
    let t ← time line (item.take k)
    let (l, labels) ← p.labels.internEdge (String.ofList (Blank.trim (item.drop (k + 1))))
    let graph :=
      if keep l && p.graph.containsNode source && p.graph.containsNode dest then
        p.graph.addEdge source dest t l
      else p.graph
    pure ⟨graph, labels⟩

/-- Runs `step` over `xs` from `p`. A failure keeps the label table as the failing step found
it, with every name interned before. -/
def steps {α : Type} (step : Progress → α → Except LoadError Progress) (xs : List α) (p : Progress) :
    Except (LoadError × LabelTable) Progress :=
  xs.foldlM (fun p x => (step p x).mapError (·, p.labels)) p

/-- Reads one edge line; a failure keeps the names of the stamps read before it. -/
def edges (keep : Nat → Bool) (p : Progress) :
    Nat × List Char → Except (LoadError × LabelTable) Progress
  | (line, text) =>
    match pieces '\t' text with
    | sField :: dField :: stamps :: _ => do
      let source ← (nodeId line sField).mapError (·, p.labels)
      let dest ← (nodeId line dField).mapError (·, p.labels)
      if source = dest then pure p
      else
        let items := ((pieces ',' stamps).map Blank.trim).filter (!·.isEmpty)
        steps (stamp keep line text source dest) items p
    | _ => .error (.malformedEdge line (String.ofList text), p.labels)

end Reader

/-- Reads a graph of kind `directed` from `text`, numbering labels through `labels`; with a
pattern, keeps only the nodes and edges whose labels the pattern has. A failure comes with the
label table as far as the reading got. -/
def Graph.readProgress (labels : LabelTable) (text : String) (pattern : Option Graph)
    (directed : Bool) : Except (LoadError × LabelTable) Reader.Progress :=
  match Reader.numbered text.toList with
  | [] => .error (.missingNodeCount, labels)
  | (n, header) :: rest => do
    let h := Blank.trim header
    let expected ← match Numeral.natUpTo? Numeral.u64Max h with
      | some v => pure v
      | none => .error (.invalidNodeCount n (String.ofList h), labels)
    let p ← Reader.steps (Reader.node (Reader.keepsNode pattern)) (rest.take expected)
      ⟨Graph.empty directed, labels⟩
    if rest.length < expected then .error (.truncatedNodeList expected rest.length, p.labels)
    else (rest.drop expected).foldlM (Reader.edges (Reader.keepsEdge pattern)) p

/-- Reads a graph as `Graph.readProgress` does: the graph or the error, and the label table after
the reading, which keeps the names interned before a failure. -/
def Graph.read (labels : LabelTable) (text : String) (pattern : Option Graph) (directed : Bool) :
    Except LoadError Graph × LabelTable :=
  match Graph.readProgress labels text pattern directed with
  | .ok p => (.ok p.graph, p.labels)
  | .error (e, tb) => (.error e, tb)

/-- A reading as a caller that stops at the first failure sees it: the graph with the label table
after it, or the error. -/
def Graph.load (labels : LabelTable) (text : String) (pattern : Option Graph) (directed : Bool) :
    Except LoadError (Graph × LabelTable) :=
  match Graph.read labels text pattern directed with
  | (.ok g, tb) => .ok (g, tb)
  | (.error e, _) => .error e

end TemporalMotif
