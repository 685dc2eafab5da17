import Mathlib
import TemporalMotif.Proofs.Fields
import TemporalMotif.Proofs.Reading

/-!
# The text format, one line after another

`TextFormat.read` is the text format as the loader's documentation states it, written the way a
line reader meets the text. Lines are read up to each line feed (`TextFormat.bufLines`), numbered
from 1 with blank lines counted and then set aside (`TextFormat.significant`), and the header, the
node lines and the edge lines are read in one pass, each phase going on from the line where the
one before stopped (`TextFormat.readNodes`). A field is a piece between tabs (`List.splitOn`), a
stamp splits at its first colon (`TextFormat.splitOnce`), and every field is trimmed before it is
read as a numeral or interned as a name.

`Graph.load` takes the node lines and the edge lines as two blocks; it reads every text as this
reference does, to the same graph and label table or to the same error (`load_follows_format`).
-/

namespace TemporalMotif

namespace TextFormat

/-- A line read backwards into `acc`, put the right way round without one carriage return at its
end. -/
def endLine : List Char → List Char
  | '\r' :: line => line.reverse
  | line => line.reverse

/-- The lines a line reader returns from the rest `cs` of a text, `acc` holding the current line
read so far, backwards: a line ends at a line feed, and the text after the last line feed is a
last line unless it is empty. -/
def bufLinesFrom (acc : List Char) : List Char → List (List Char)
  | [] => if acc = [] then [] else [acc.reverse]
  | c :: cs => if c = '\n' then endLine acc :: bufLinesFrom [] cs else bufLinesFrom (c :: acc) cs

/-- The lines of a text as a line reader returns them. -/
def bufLines (cs : List Char) : List (List Char) := bufLinesFrom [] cs

/-- The lines of a text that are not blank, each with its number among all the lines, from 1. -/
def significant (cs : List Char) : List (Nat × List Char) :=
  ((bufLines cs).zipIdx 1).filterMap fun (l, n) => if l.all Blank.isBlank then none else some (n, l)

/-- The text before the first `sep` and the text after it, if `sep` occurs. -/
def splitOnce (sep : Char) : List Char → Option (List Char × List Char)
  | [] => none
  | c :: cs => if c = sep then some ([], cs) else (splitOnce sep cs).map fun (a, b) => (c :: a, b)

/-- A node line: an unsigned 32-bit id and a label name in its first two tab fields. The name is
interned whether or not `keep` takes its label, and the node is added when it does; a new name
past the last 32-bit label fails the line. -/
def nodeLine (keep : Nat → Bool) (line : Nat) (text : List Char) (acc : Graph × LabelTable) :
    Except LoadError (Graph × LabelTable) :=
  match text.splitOn '\t' with
  | idField :: nameField :: _ =>
    match Numeral.natUpTo? Numeral.u32Max (Blank.trim idField) with
    | none => .error (.invalidInteger line (String.ofList (Blank.trim idField)))
    | some id =>
      match acc.2.internNode (String.ofList (Blank.trim nameField)) with
      | .error e => .error e
      | .ok (l, tb) => .ok (if keep l then acc.1.addNode id l else acc.1, tb)
  | _ => .error (.malformedNode line (String.ofList text))

/-- A stamp `time:label` of an edge line from `source` to `dest`: a signed 64-bit time before the
first colon and a label name after it. The name is interned whether or not the edge is added, a
new name past the last 32-bit label failing the stamp; the edge is added when `keep` takes its
label and both its ends are nodes by then. -/
def stampItem (keep : Nat → Bool) (line : Nat) (text : List Char) (source dest : Nat)
    (acc : Graph × LabelTable) (item : List Char) : Except LoadError (Graph × LabelTable) :=
  match splitOnce ':' item with
  | none => .error (.malformedEdge line (String.ofList text))
  | some (ts, name) =>
    match Numeral.intIn? Stamp.least Stamp.greatest (Blank.trim ts) with
    | none => .error (.invalidInteger line (String.ofList (Blank.trim ts)))
    | some t =>
      match acc.2.internEdge (String.ofList (Blank.trim name)) with
      | .error e => .error e
      | .ok (l, tb) =>
        .ok (if keep l && acc.1.containsNode source && acc.1.containsNode dest then
            acc.1.addEdge source dest t l
          else acc.1, tb)

/-- An edge line: two unsigned 32-bit ends and the stamps, in its first three tab fields. A line
whose ends are equal is skipped before its stamps are looked at; otherwise every stamp that is not
blank is read, in order. -/
def edgeLine (keep : Nat → Bool) (line : Nat) (text : List Char) (acc : Graph × LabelTable) :
    Except LoadError (Graph × LabelTable) :=
  match text.splitOn '\t' with
  | sField :: dField :: stamps :: _ =>
    match Numeral.natUpTo? Numeral.u32Max (Blank.trim sField),
        Numeral.natUpTo? Numeral.u32Max (Blank.trim dField) with
    | none, _ => .error (.invalidInteger line (String.ofList (Blank.trim sField)))
    | some _, none => .error (.invalidInteger line (String.ofList (Blank.trim dField)))
    | some source, some dest =>
      if source = dest then .ok acc
      else (((stamps.splitOn ',').map Blank.trim).filter (· ≠ [])).foldlM
        (stampItem keep line text source dest) acc
  | _ => .error (.malformedEdge line (String.ofList text))

/-- Every line left is an edge line. -/
def readEdges (keep : Nat → Bool) (ls : List (Nat × List Char)) (acc : Graph × LabelTable) :
    Except LoadError (Graph × LabelTable) :=
  ls.foldlM (fun acc (line, text) => edgeLine keep line text acc) acc

/-- The node lines, `found` of the `expected` ones read so far, then the edge lines. -/
def readNodes (keepNode keepEdge : Nat → Bool) (expected : Nat) :
    Nat → List (Nat × List Char) → Graph × LabelTable → Except LoadError (Graph × LabelTable)
  | found, [], acc =>
    if found < expected then .error (.truncatedNodeList expected found) else readEdges keepEdge [] acc
  | found, (line, text) :: rest, acc =>
    if found < expected then
      match nodeLine keepNode line text acc with
      | .error e => .error e
      | .ok acc => readNodes keepNode keepEdge expected (found + 1) rest acc
    else readEdges keepEdge ((line, text) :: rest) acc

/-- A text read with the label table `labels` into a graph of kind `directed`: a header line with
the number of node lines, read as an unsigned 64-bit numeral, then the node lines, then the edge
lines. With a pattern, a node or edge whose label the pattern lacks is left out. -/
def read (labels : LabelTable) (text : String) (pattern : Option Graph) (directed : Bool) :
    Except LoadError (Graph × LabelTable) :=
  match significant text.toList with
  | [] => .error .missingNodeCount
  | (n, header) :: rest =>
    match Numeral.natUpTo? Numeral.u64Max (Blank.trim header) with
    | none => .error (.invalidNodeCount n (String.ofList (Blank.trim header)))
    | some expected =>
      readNodes (fun l => pattern.all fun p => p.nodeLabels.contains l)
        (fun l => pattern.all fun p => p.edgeLabels.contains l) expected 0 rest
        (Graph.empty directed, labels)

end TextFormat

namespace Blank

/-- A line trims to nothing exactly when it is all blanks. -/
theorem isEmpty_trim (cs : List Char) : (trim cs).isEmpty = cs.all isBlank := by
  rw [Bool.eq_iff_iff, List.isEmpty_iff, List.all_eq_true, trim_eq_rdropWhile,
    List.rdropWhile_eq_nil_iff]
  constructor
  · intro h
    -- what is left after the leading blanks would start with a character that is not blank
    refine List.dropWhile_eq_nil_iff.1 ?_
    by_contra hne
    have hhead := List.head_dropWhile_not isBlank hne
    rw [h _ (List.head_mem hne)] at hhead
    cases hhead
  · intro h x hx
    exact h x ((List.dropWhile_suffix isBlank).subset hx)

end Blank

namespace Reader

theorem pieces_eq_splitOn (sep : Char) : ∀ cs : List Char, pieces sep cs = cs.splitOn sep
  | [] => rfl
  | c :: cs => by
    rw [pieces, pieces_eq_splitOn sep cs, List.splitOn_cons_eq_if_modifyHead]
    obtain ⟨p, ps, h⟩ := List.exists_cons_of_ne_nil (List.splitOn_ne_nil sep cs)
    rw [h]
    by_cases hc : c = sep <;> simp [hc]

/-- A line without a line feed, then a line feed, reads as that line and then the rest. -/
theorem lines_append_cons {l : List Char} (hl : ∀ c ∈ l, c ≠ '\n') (r : List Char) :
    lines (l ++ '\n' :: r) = dropReturn l :: lines r := by
  obtain ⟨last, rest, h⟩ :=
    List.exists_cons_of_ne_nil (List.reverse_ne_nil_iff.2 (pieces_ne_nil '\n' r))
  have hp : (pieces '\n' (l ++ '\n' :: r)).reverse = last :: (rest ++ [l]) := by
    rw [pieces_append_cons r hl, List.reverse_cons, h, List.cons_append]
  simp only [lines, hp, h, List.reverse_append, List.reverse_cons, List.reverse_nil,
    List.nil_append, List.map_cons, List.cons_append]

/-- A text without a line feed is one line, unless it is empty. -/
theorem lines_of_forall_ne {l : List Char} (hl : ∀ c ∈ l, c ≠ '\n') :
    lines l = if l = [] then [] else [l] := by
  rw [lines, pieces_of_forall_ne hl]
  by_cases h : l = [] <;> simp [h]

end Reader

namespace TextFormat

theorem endLine_eq (acc : List Char) : endLine acc = Reader.dropReturn acc.reverse := by
  unfold endLine Reader.dropReturn
  split
  · simp
  · rename_i h
    have hhead : acc.reverse.getLast? ≠ some '\r' := by
      rw [List.getLast?_reverse]
      cases acc with
      | nil => simp
      | cons c rest =>
        simp only [List.head?_cons, ne_eq, Option.some.injEq]
        rintro rfl
        exact h rest rfl
    rw [if_neg hhead]

/-- Reading lines char by char from a current line `acc` is splitting what is left, the current
line included, at its line feeds. -/
theorem bufLinesFrom_eq_lines {acc : List Char} (hacc : ∀ c ∈ acc, c ≠ '\n') (cs : List Char) :
    bufLinesFrom acc cs = Reader.lines (acc.reverse ++ cs) := by
  induction cs generalizing acc with
  | nil =>
    rw [List.append_nil, Reader.lines_of_forall_ne (by simpa using hacc), bufLinesFrom]
    simp
  | cons c cs ih =>
    by_cases hc : c = '\n'
    · subst hc
      rw [bufLinesFrom, if_pos rfl, ih (by simp), List.reverse_nil, List.nil_append,
        Reader.lines_append_cons (by simpa using hacc), endLine_eq]
    · rw [bufLinesFrom, if_neg hc, ih (by simp [hc]; exact hacc)]
      simp

theorem lines_eq_bufLines (cs : List Char) : Reader.lines cs = bufLines cs := by
  have h : ∀ c ∈ ([] : List Char), c ≠ '\n' := by simp
  rw [bufLines, bufLinesFrom_eq_lines h]
  rfl

theorem numbered_eq_significant (cs : List Char) : Reader.numbered cs = significant cs := by
  have hfilter : ∀ L : List (List Char × Nat),
      (L.map fun (l, i) => (i + 1, l)).filter (fun (_, l) => !(Blank.trim l).isEmpty) =
        (L.map fun (l, i) => (l, i + 1)).filterMap
          fun (l, n) => if l.all Blank.isBlank then none else some (n, l) := by
    intro L
    induction L with
    | nil => rfl
    | cons x L ih =>
      obtain ⟨l, i⟩ := x
      rw [List.map_cons, List.map_cons, List.filter_cons, List.filterMap_cons, ih]
      by_cases hl : l.all Blank.isBlank = true
      · simp only [Blank.isEmpty_trim, hl, Bool.not_true, Bool.false_eq_true, if_false, if_true]
      · simp only [Blank.isEmpty_trim, hl, Bool.not_false, Bool.false_eq_true, if_false, if_true]
  rw [Reader.numbered, significant, lines_eq_bufLines, List.zipIdx_succ, hfilter]

-- a blank line keeps its number, and a line feed after a carriage return drops it
example : significant "1\n \n0\tA\r\n".toList = [(1, ['1']), (3, ['0', '\t', 'A'])] := by
  decide

theorem splitOnce_eq (sep : Char) :
    ∀ cs : List Char, splitOnce sep cs = (cs.idxOf? sep).map fun k => (cs.take k, cs.drop (k + 1))
  | [] => rfl
  | c :: cs => by
    rw [splitOnce, List.idxOf?_cons, splitOnce_eq sep cs]
    by_cases hc : c = sep
    · simp [hc]
    · simp [hc, Option.map_map, Function.comp_def]

end TextFormat

namespace Reader

/-- What has been read, as the graph and the label table. -/
def Progress.pair (p : Progress) : Graph × LabelTable := (p.graph, p.labels)

/-- A fold that reads into a `Progress` reads into the pair when each of its steps does. -/
theorem foldlM_pair {α : Type} {f : Progress → α → Except LoadError Progress}
    {g : Graph × LabelTable → α → Except LoadError (Graph × LabelTable)}
    (h : ∀ p x, (f p x).map Progress.pair = g p.pair x) :
    ∀ (xs : List α) (p : Progress), (xs.foldlM f p).map Progress.pair = xs.foldlM g p.pair
  | [], p => rfl
  | x :: xs, p => by
    have hx := h p x
    rw [List.foldlM_cons, List.foldlM_cons]
    cases hf : f p x with
    | error e =>
      rw [hf] at hx
      rw [← hx]
      rfl
    | ok p' =>
      rw [hf] at hx
      rw [← hx]
      exact foldlM_pair h xs p'

theorem node_eq_nodeLine (keep : Nat → Bool) (p : Progress) (line : Nat) (text : List Char) :
    (node keep p (line, text)).map Progress.pair = TextFormat.nodeLine keep line text p.pair := by
  simp only [node, TextFormat.nodeLine, pieces_eq_splitOn]
  rcases text.splitOn '\t' with _ | ⟨idField, _ | ⟨nameField, rest⟩⟩
  · rfl
  · rfl
  · simp only [nodeId, Progress.pair]
    cases Numeral.natUpTo? Numeral.u32Max (Blank.trim idField) with
    | none => rfl
    | some id => cases p.labels.internNode (String.ofList (Blank.trim nameField)) <;> rfl

theorem stamp_eq_stampItem (keep : Nat → Bool) (line : Nat) (text : List Char) (source dest : Nat)
    (p : Progress) (item : List Char) :
    (stamp keep line text source dest p item).map Progress.pair =
      TextFormat.stampItem keep line text source dest p.pair item := by
  simp only [stamp, TextFormat.stampItem, TextFormat.splitOnce_eq]
  cases item.idxOf? ':' with
  | none => rfl
  | some k =>
    simp only [Option.map_some, time, Progress.pair]
    cases Numeral.intIn? Stamp.least Stamp.greatest (Blank.trim (item.take k)) with
    | none => rfl
    | some t => cases p.labels.internEdge (String.ofList (Blank.trim (item.drop (k + 1)))) <;> rfl

theorem edges_eq_edgeLine (keep : Nat → Bool) (p : Progress) (line : Nat) (text : List Char) :
    ((edges keep p (line, text)).mapError Prod.fst).map Progress.pair =
      TextFormat.edgeLine keep line text p.pair := by
  simp only [edges, TextFormat.edgeLine, pieces_eq_splitOn]
  rcases text.splitOn '\t' with _ | ⟨sField, _ | ⟨dField, _ | ⟨stamps, rest⟩⟩⟩
  · rfl
  · rfl
  · rfl
  · simp only [nodeId]
    cases Numeral.natUpTo? Numeral.u32Max (Blank.trim sField) with
    | none => rfl
    | some source =>
      cases Numeral.natUpTo? Numeral.u32Max (Blank.trim dField) with
      | none => rfl
      | some dest =>
        by_cases hsd : source = dest
        · simp [hsd, bind, Except.bind, pure, Except.pure, Except.map]
        · have hitems : ((stamps.splitOn ',').map Blank.trim).filter (!·.isEmpty) =
              ((stamps.splitOn ',').map Blank.trim).filter (· ≠ []) := by
            congr 1
            funext x
            cases x <;> simp
          simp only [hsd, Except.mapError_ok, bind, Except.bind, if_false, hitems]
          rw [steps_mapError]
          exact foldlM_pair (stamp_eq_stampItem keep line text source dest) _ p

end Reader

namespace TextFormat

open Reader in
/-- The edge lines, read as a block. -/
theorem readEdges_eq (keep : Nat → Bool) (ls : List (Nat × List Char)) (p : Progress) :
    readEdges keep ls p.pair =
      (ls.foldlM (fun p x => (edges keep p x).mapError Prod.fst) p).map Progress.pair :=
  (foldlM_pair (fun p x => edges_eq_edgeLine keep p x.1 x.2) ls p).symm

open Reader in
/-- The node lines read one after another, stopping at the first missing one, are the first
`expected - found` lines read as a block, then the truncation check, then the rest as edge
lines. -/
theorem readNodes_eq (keepNode keepEdge : Nat → Bool) (expected : Nat) :
    ∀ (ls : List (Nat × List Char)) (found : Nat) (p : Progress), found ≤ expected →
      readNodes keepNode keepEdge expected found ls p.pair =
        ((ls.take (expected - found)).foldlM (node keepNode) p).bind fun p' =>
          if ls.length < expected - found then
            .error (.truncatedNodeList expected (found + ls.length))
          else readEdges keepEdge (ls.drop (expected - found)) p'.pair
  | [], found, p, hle => by
    by_cases hf : found < expected
    · -- no line is left for the missing node lines
      have hlt : 0 < expected - found := by omega
      simp only [readNodes, if_pos hf, List.take_nil, List.foldlM_nil, List.length_nil, Nat.add_zero]
      exact (if_pos hlt).symm
    · obtain rfl : found = expected := by omega
      simp [readNodes, Except.bind, pure, Except.pure]
  | (line, text) :: rest, found, p, hle => by
    by_cases hf : found < expected
    · -- one more node line is read
      obtain ⟨k, hk⟩ : ∃ k, expected - found = k + 1 := ⟨expected - found - 1, by omega⟩
      have h := node_eq_nodeLine keepNode p line text
      rw [readNodes, if_pos hf, hk, List.take_succ_cons, List.foldlM_cons]
      cases hn : node keepNode p (line, text) with
      | error e =>
        rw [hn] at h
        rw [← h]
        rfl
      | ok p' =>
        rw [hn] at h
        rw [← h]
        have hk' : expected - (found + 1) = k := by omega
        simp only [Except.map, Except.bind, bind]
        rw [readNodes_eq keepNode keepEdge expected rest (found + 1) p' (by omega), hk']
        have hlen : found + 1 + rest.length = found + (rest.length + 1) := by omega
        simp only [List.length_cons, List.drop_succ_cons, Nat.add_lt_add_iff_right, hlen]
        rfl
    · -- every node line has been read
      obtain rfl : found = expected := by omega
      simp [readNodes, Except.bind, pure, Except.pure, readEdges_eq]

open Reader in
/-- From the first line after the header: the node lines as a block, the truncation check, then
the edge lines as a block, as the loader reads them. -/
theorem readNodes_zero (keepNode keepEdge : Nat → Bool) (expected : Nat)
    (rest : List (Nat × List Char)) (p : Progress) :
    readNodes keepNode keepEdge expected 0 rest p.pair = (do
      let q ← (rest.take expected).foldlM (node keepNode) p
      if rest.length < expected then .error (.truncatedNodeList expected rest.length)
      else
        let q ← (rest.drop expected).foldlM (fun p x => (edges keepEdge p x).mapError Prod.fst) q
        pure (q.graph, q.labels)) := by
  rw [readNodes_eq keepNode keepEdge expected rest 0 p (Nat.zero_le _), Nat.sub_zero, Nat.zero_add]
  cases (rest.take expected).foldlM (node keepNode) p with
  | error e => rfl
  | ok q =>
    by_cases hlt : rest.length < expected
    · simp only [bind, Except.bind, if_pos hlt]
    · simp only [bind, Except.bind, if_neg hlt, readEdges_eq]
      cases (rest.drop expected).foldlM (fun p x => (edges keepEdge p x).mapError Prod.fst) q <;> rfl

end TextFormat

/-- The loader reads exactly its format. For every text, label table, optional pattern and kind
of graph, loading gives what the line-by-line reading of `TextFormat.read` gives: the same graph
and label table, or the same error. Lines are numbered from 1 as a line reader returns them,
blank ones counted and then skipped; with none left the header is missing; the header, trimmed,
is an unsigned 64-bit node count; that many node lines must follow, each with a 32-bit id and a
label name in its first two tab fields; every later line is an edge line with two 32-bit ends
and its stamps in its first three tab fields, skipped when its ends are equal; each stamp that
is not blank is a signed 64-bit time and a label name on either side of its first colon. Every
name is interned, a new one that would number past the last 32-bit label failing the reading, and
a node or edge is left out when the pattern lacks its label, an edge also when one of its ends is
not a node. -/
theorem Graph.load_follows_format (labels : LabelTable) (text : String) (pattern : Option Graph)
    (directed : Bool) :
    Graph.load labels text pattern directed = TextFormat.read labels text pattern directed := by
  rw [Graph.load_eq_fold, TextFormat.read, ← TextFormat.numbered_eq_significant]
  rcases Reader.numbered text.toList with _ | ⟨⟨n, header⟩, rest⟩
  · rfl
  · dsimp only
    cases Numeral.natUpTo? Numeral.u64Max (Blank.trim header) with
    | none => rfl
    | some expected =>
      -- with or without a pattern, a label is kept by the same test on both sides
      cases pattern <;>
        exact (TextFormat.readNodes_zero _ _ expected rest ⟨Graph.empty directed, labels⟩).symm

end TemporalMotif
