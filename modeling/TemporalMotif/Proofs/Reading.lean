import TemporalMotif.Text.Reader
import TemporalMotif.Proofs.Construction

/-!
# What a text asks the graph for

Reading a text is parsing followed by building. The node lines ask for nodes with labels, the
edge stamps for edges; a pattern only decides which of these reach `addNode` and `addEdge`, and
the label table is numbered from every line whether kept or not. `Graph.readTrace` parses a text
into its requests without building. `load_eq_readTrace` says that loading with any pattern builds
from exactly these requests, so a text reads, or fails with the same error, with a pattern or
without, and the graph read is `Graph.ofOps` of the kept requests (`load_eq_ok_iff`). A failure
comes with the label table as the reading left it; loading drops that table, and is then a fold
that stops at the first failure (`Graph.load_eq_fold`).
-/

namespace TemporalMotif

@[simp] theorem Except.mapError_ok {ε ε' α : Type} (f : ε → ε') (a : α) :
    (Except.ok a : Except ε α).mapError f = .ok a := rfl

@[simp] theorem Except.mapError_error {ε ε' α : Type} (f : ε → ε') (e : ε) :
    (Except.error e : Except ε α).mapError f = .error (f e) := rfl

/-- A computation that succeeds gives the value its option holds. -/
theorem Except.eq_ok_get {ε α : Type} {x : Except ε α} (h : x.toOption.isSome) :
    x = .ok (x.toOption.get h) := by
  cases x with
  | error e => simp [Except.toOption] at h
  | ok a => rfl

namespace Reader

@[simp] theorem keepsNode_none (l : Nat) : keepsNode none l = true := rfl

@[simp] theorem keepsEdge_none (l : Nat) : keepsEdge none l = true := rfl

/-- The node a node line asks for, as a one-element list, with the label table after it. -/
def nodeRequest (labels : LabelTable) : Nat × List Char →
    Except LoadError (List (Nat × Nat) × LabelTable)
  | (line, text) =>
    match pieces '\t' text with
    | idField :: nameField :: _ => do
      let id ← nodeId line idField
      let (l, labels) ← labels.internNode (String.ofList (Blank.trim nameField))
      pure ([(id, l)], labels)
    | _ => .error (.malformedNode line (String.ofList text))

/-- The edge one stamp of an edge line asks for, as a one-element list. -/
def stampRequest (line : Nat) (text : List Char) (source dest : Nat) (labels : LabelTable)
    (item : List Char) : Except LoadError (List Edge × LabelTable) :=
  match item.idxOf? ':' with
  | none => .error (.malformedEdge line (String.ofList text))
  | some k => do
    let t ← time line (item.take k)
    let (l, labels) ← labels.internEdge (String.ofList (Blank.trim (item.drop (k + 1))))
    pure ([⟨source, dest, t, l⟩], labels)

/-- Everything `parse` asks for over `xs`, in order, threading the label table. -/
def collect {α β : Type} (parse : LabelTable → α → Except LoadError (List β × LabelTable))
    (xs : List α) (labels : LabelTable) : Except LoadError (List β × LabelTable) :=
  xs.foldlM (fun r x => (parse r.2 x).map fun r' => (r.1 ++ r'.1, r'.2)) ([], labels)

/-- The edges an edge line asks for, one for each stamp; none for a self-loop line. -/
def edgeRequests (labels : LabelTable) : Nat × List Char →
    Except LoadError (List Edge × LabelTable)
  | (line, text) =>
    match pieces '\t' text with
    | sField :: dField :: stamps :: _ => do
      let source ← nodeId line sField
      let dest ← nodeId line dField
      if source = dest then pure ([], labels)
      else
        let items := ((pieces ',' stamps).map Blank.trim).filter (!·.isEmpty)
        collect (stampRequest line text source dest) items labels
    | _ => .error (.malformedEdge line (String.ofList text))

/-- Adds the requested node when its label is kept. -/
def addKeptNode (keep : Nat → Bool) (g : Graph) (x : Nat × Nat) : Graph :=
  if keep x.2 then g.addNode x.1 x.2 else g

/-- Adds the requested edge when its label is kept and both its ends are nodes. -/
def addKeptEdge (keep : Nat → Bool) (g : Graph) (e : Edge) : Graph :=
  if keep e.label && g.containsNode e.source && g.containsNode e.dest then
    g.addEdge e.source e.dest e.time e.label
  else g

/-- A fold that parses each input and builds from what it parsed is the fold that only parses,
then one build over everything parsed. -/
theorem foldlM_parse_build {α β : Type} {step : Progress → α → Except LoadError Progress}
    {parse : LabelTable → α → Except LoadError (List β × LabelTable)} {build : Graph → β → Graph}
    (hstep : ∀ p x, step p x = (parse p.labels x).map fun r => ⟨r.1.foldl build p.graph, r.2⟩)
    (g : Graph) : ∀ (xs : List α) (acc : List β) (labels : LabelTable),
      xs.foldlM step ⟨acc.foldl build g, labels⟩ =
        (xs.foldlM (fun r x => (parse r.2 x).map fun r' => (r.1 ++ r'.1, r'.2)) (acc, labels)).map
          fun r => ⟨r.1.foldl build g, r.2⟩
  | [], acc, labels => rfl
  | x :: xs, acc, labels => by
    simp only [List.foldlM_cons, hstep]
    cases hx : parse labels x with
    | error e => rfl
    | ok r =>
      have ih := foldlM_parse_build hstep g xs (acc ++ r.1) r.2
      rw [List.foldl_append] at ih
      exact ih

theorem foldlM_eq_collect {α β : Type} {step : Progress → α → Except LoadError Progress}
    {parse : LabelTable → α → Except LoadError (List β × LabelTable)} {build : Graph → β → Graph}
    (hstep : ∀ p x, step p x = (parse p.labels x).map fun r => ⟨r.1.foldl build p.graph, r.2⟩)
    (xs : List α) (p : Progress) :
    xs.foldlM step p = (collect parse xs p.labels).map fun r => ⟨r.1.foldl build p.graph, r.2⟩ :=
  foldlM_parse_build hstep p.graph xs [] p.labels

/-- Renaming the errors of a fold renames the errors of each of its steps. -/
theorem foldlM_mapError {α β ε ε' : Type} (f : β → α → Except ε β) (g : ε → ε') :
    ∀ (xs : List α) (b : β),
      (xs.foldlM f b).mapError g = xs.foldlM (fun b x => (f b x).mapError g) b
  | [], b => rfl
  | x :: xs, b => by
    rw [List.foldlM_cons, List.foldlM_cons]
    cases f b x with
    | error e => rfl
    | ok b' => exact foldlM_mapError f g xs b'

/-- Dropping the table a failure comes with, a run of steps is their fold. -/
theorem steps_mapError {α : Type} (step : Progress → α → Except LoadError Progress) (xs : List α)
    (p : Progress) : (steps step xs p).mapError Prod.fst = xs.foldlM step p := by
  rw [steps, foldlM_mapError]
  congr
  funext p x
  cases step p x <;> rfl

theorem node_eq (keep : Nat → Bool) (p : Progress) (x : Nat × List Char) :
    node keep p x = (nodeRequest p.labels x).map fun r => ⟨r.1.foldl (addKeptNode keep) p.graph, r.2⟩ := by
  obtain ⟨line, text⟩ := x
  simp only [node, nodeRequest]
  rcases pieces '\t' text with _ | ⟨idField, _ | ⟨nameField, rest⟩⟩
  · rfl
  · rfl
  · dsimp only
    cases nodeId line idField with
    | error e => rfl
    | ok id => cases p.labels.internNode (String.ofList (Blank.trim nameField)) <;> rfl

theorem stamp_eq (keep : Nat → Bool) (line : Nat) (text : List Char) (source dest : Nat)
    (p : Progress) (item : List Char) :
    stamp keep line text source dest p item =
      (stampRequest line text source dest p.labels item).map
        fun r => ⟨r.1.foldl (addKeptEdge keep) p.graph, r.2⟩ := by
  simp only [stamp, stampRequest]
  cases item.idxOf? ':' with
  | none => rfl
  | some k =>
    dsimp only
    cases time line (item.take k) with
    | error e => rfl
    | ok t => cases p.labels.internEdge (String.ofList (Blank.trim (item.drop (k + 1)))) <;> rfl

/-- Dropping the table a failure comes with, an edge line builds from the edges it asks for. -/
theorem edges_eq (keep : Nat → Bool) (p : Progress) (x : Nat × List Char) :
    (edges keep p x).mapError Prod.fst =
      (edgeRequests p.labels x).map fun r => ⟨r.1.foldl (addKeptEdge keep) p.graph, r.2⟩ := by
  obtain ⟨line, text⟩ := x
  simp only [edges, edgeRequests]
  rcases pieces '\t' text with _ | ⟨sField, _ | ⟨dField, _ | ⟨stamps, rest⟩⟩⟩
  · rfl
  · rfl
  · rfl
  · dsimp only
    cases nodeId line sField with
    | error e => rfl
    | ok source =>
      cases nodeId line dField with
      | error e => rfl
      | ok dest =>
        by_cases hsd : source = dest
        · simp [hsd, bind, Except.bind, pure, Except.pure, Except.map]
        · simp only [hsd, Except.mapError_ok, bind, Except.bind, if_false]
          rw [steps_mapError]
          exact foldlM_eq_collect (stamp_eq keep line text source dest) _ p

theorem forall_mem_collect {α β : Type} {parse : LabelTable → α → Except LoadError (List β × LabelTable)}
    {P : β → Prop} (hparse : ∀ labels x r, parse labels x = .ok r → ∀ b ∈ r.1, P b) :
    ∀ (xs : List α) (acc : List β) (labels : LabelTable) (r : List β × LabelTable),
      (∀ b ∈ acc, P b) →
      xs.foldlM (fun r x => (parse r.2 x).map fun r' => (r.1 ++ r'.1, r'.2)) (acc, labels) = .ok r →
      ∀ b ∈ r.1, P b
  | [], acc, labels, r, hacc, h => by
    cases h
    exact hacc
  | x :: xs, acc, labels, r, hacc, h => by
    rw [List.foldlM_cons] at h
    cases hx : parse labels x with
    | error e => rw [hx] at h; cases h
    | ok r' =>
      rw [hx] at h
      refine forall_mem_collect hparse xs (acc ++ r'.1) r'.2 r ?_ h
      intro b hb
      rcases List.mem_append.1 hb with hb | hb
      · exact hacc b hb
      · exact hparse labels x r' hx b hb

theorem forall_mem_of_collect {α β : Type}
    {parse : LabelTable → α → Except LoadError (List β × LabelTable)} {P : β → Prop}
    (hparse : ∀ labels x r, parse labels x = .ok r → ∀ b ∈ r.1, P b) {xs : List α}
    {labels : LabelTable} {r : List β × LabelTable} (h : collect parse xs labels = .ok r) :
    ∀ b ∈ r.1, P b :=
  forall_mem_collect hparse xs [] labels r (by simp) h

theorem inRange_of_time {line : Nat} {field : List Char} {t : Int} (h : time line field = .ok t) :
    Stamp.InRange t := by
  simp only [time] at h
  split at h
  · rename_i v hv
    cases h
    obtain ⟨w, -, hw⟩ := Option.bind_eq_some_iff.1 hv
    split at hw
    · cases hw
      assumption
    · cases hw
  · cases h

theorem edge_of_mem_edgeRequests {labels : LabelTable} {x : Nat × List Char}
    {r : List Edge × LabelTable} (h : edgeRequests labels x = .ok r) :
    ∀ e ∈ r.1, e.source ≠ e.dest ∧ Stamp.InRange e.time := by
  obtain ⟨line, text⟩ := x
  simp only [edgeRequests] at h
  match pieces '\t' text, h with
  | sField :: dField :: _ :: _, h =>
    dsimp only at h
    cases hs : nodeId line sField with
    | error e => rw [hs] at h; cases h
    | ok source =>
      cases hd : nodeId line dField with
      | error e => rw [hs, hd] at h; cases h
      | ok dest =>
        simp only [hs, hd, bind, Except.bind] at h
        split at h
        · cases h
          simp
        · rename_i hsd
          refine forall_mem_of_collect (fun labels item r' hr' => ?_) h
          unfold stampRequest at hr'
          split at hr'
          · cases hr'
          · cases ht : time line _ with
            | error e => rw [ht] at hr'; cases hr'
            | ok t =>
              simp only [ht, bind, Except.bind] at hr'
              split at hr'
              · cases hr'
              · cases hr'
                simpa using ⟨hsd, inRange_of_time ht⟩
  | [], h | [_], h | [_, _], h => cases h

theorem foldl_addKeptNode (keep : Nat → Bool) :
    ∀ (nodes : List (Nat × Nat)) (g : Graph), nodes.foldl (addKeptNode keep) g =
      ((nodes.filter fun x => keep x.2).map fun x => GraphOp.addNode x.1 x.2).foldl GraphOp.apply g
  | [], g => rfl
  | x :: nodes, g => by
    by_cases hx : keep x.2 = true
    · simp [addKeptNode, hx, GraphOp.apply, foldl_addKeptNode keep nodes]
    · simp [addKeptNode, hx, foldl_addKeptNode keep nodes]

theorem containsNode_addEdge (g : Graph) (s d : Nat) (t : Int) (l x : Nat) :
    (g.addEdge s d t l).containsNode x = g.containsNode x := by
  simp [Graph.containsNode]

/-- Adding edges never adds nodes, so which edges have both ends is decided by the graph they
start from. -/
theorem foldl_addKeptEdge (keep : Nat → Bool) :
    ∀ (edges : List Edge) (g : Graph), edges.foldl (addKeptEdge keep) g =
      ((edges.filter fun e => keep e.label && g.containsNode e.source && g.containsNode e.dest).map
        fun e => GraphOp.addEdge e.source e.dest e.time e.label).foldl GraphOp.apply g
  | [], g => rfl
  | e :: edges, g => by
    by_cases he : (keep e.label && g.containsNode e.source && g.containsNode e.dest) = true
    · have hsame : (fun f : Edge => keep f.label && (g.addEdge e.source e.dest e.time e.label).containsNode f.source &&
          (g.addEdge e.source e.dest e.time e.label).containsNode f.dest) =
          fun f => keep f.label && g.containsNode f.source && g.containsNode f.dest := by
        simp only [containsNode_addEdge]
      simp only [List.foldl_cons, addKeptEdge, he, if_true, List.filter_cons, List.map_cons,
        GraphOp.apply]
      rw [foldl_addKeptEdge keep edges, hsame]
    · simp only [List.foldl_cons, addKeptEdge, he, List.filter_cons]
      exact foldl_addKeptEdge keep edges g

/-- The calls that building from the requests makes: the kept nodes, then the kept edges whose
ends are among them. -/
def requestOps (pattern : Option Graph) (nodes : List (Nat × Nat)) (edges : List Edge) :
    List GraphOp :=
  let kept := nodes.filter fun x => keepsNode pattern x.2
  kept.map (fun x => .addNode x.1 x.2) ++
    (edges.filter fun e => keepsEdge pattern e.label && decide (e.source ∈ kept.map Prod.fst) &&
      decide (e.dest ∈ kept.map Prod.fst)).map fun e => .addEdge e.source e.dest e.time e.label

theorem addedNodes_requestOps (pattern : Option Graph) (nodes : List (Nat × Nat)) (edges : List Edge) :
    addedNodes (requestOps pattern nodes edges) = nodes.filter fun x => keepsNode pattern x.2 := by
  simp [requestOps, addedNodes, List.filterMap_append, List.filterMap_map, GraphOp.node?,
    Function.comp_def]

theorem addedEdges_requestOps (pattern : Option Graph) (nodes : List (Nat × Nat)) (edges : List Edge) :
    addedEdges (requestOps pattern nodes edges) = edges.filter fun e => keepsEdge pattern e.label &&
      decide (e.source ∈ (nodes.filter fun x => keepsNode pattern x.2).map Prod.fst) &&
      decide (e.dest ∈ (nodes.filter fun x => keepsNode pattern x.2).map Prod.fst) := by
  simp [requestOps, addedEdges, List.filterMap_append, List.filterMap_map, GraphOp.edge?,
    Function.comp_def]

section Requests

variable (directed : Bool) (pattern : Option Graph) (nodes : List (Nat × Nat)) (edges : List Edge)

theorem label?_requestOps (x : Nat) :
    (Graph.ofOps directed (requestOps pattern nodes edges)).label? x =
      (nodes.filter fun y => keepsNode pattern y.2).lookup x := by
  rw [(built_ofOps _ _).label_eq, addedNodes_requestOps]

theorem containsNode_requestOps (x : Nat) :
    (Graph.ofOps directed (requestOps pattern nodes edges)).containsNode x =
      decide (x ∈ (nodes.filter fun y => keepsNode pattern y.2).map Prod.fst) := by
  rw [Bool.eq_iff_iff, decide_eq_true_iff, (built_ofOps _ _).containsNode_iff, addedNodes_requestOps]

theorem edges_requestOps :
    (Graph.ofOps directed (requestOps pattern nodes edges)).edges.toList =
      edges.filter fun e => keepsEdge pattern e.label &&
        decide (e.source ∈ (nodes.filter fun x => keepsNode pattern x.2).map Prod.fst) &&
        decide (e.dest ∈ (nodes.filter fun x => keepsNode pattern x.2).map Prod.fst) := by
  rw [(built_ofOps _ _).edges_eq, addedEdges_requestOps]

end Requests

end Reader

/-- The node and edge requests of a text, in order, and the label table after it: what every
reading of the text builds from, whatever its pattern. -/
def Graph.readTrace (labels : LabelTable) (text : String) :
    Except LoadError (List (Nat × Nat) × List Edge × LabelTable) :=
  match Reader.numbered text.toList with
  | [] => .error .missingNodeCount
  | (n, header) :: rest => do
    let h := Blank.trim header
    let expected ← match Numeral.natUpTo? Numeral.u64Max h with
      | some v => pure v
      | none => .error (.invalidNodeCount n (String.ofList h))
    let (nodes, labels) ← Reader.collect Reader.nodeRequest (rest.take expected) labels
    if rest.length < expected then .error (.truncatedNodeList expected rest.length)
    else
      let (edges, labels) ← Reader.collect Reader.edgeRequests (rest.drop expected) labels
      pure (nodes, edges, labels)

/-- A text reads into requests exactly when its first line is a node count, at least that many
lines follow, the node lines among them parse, and then the edge lines parse. -/
theorem Graph.readTrace_eq_ok_iff {labels : LabelTable} {text : String}
    {nodes : List (Nat × Nat)} {edges : List Edge} {labels' : LabelTable} :
    Graph.readTrace labels text = .ok (nodes, edges, labels') ↔
      ∃ n header rest expected mid, Reader.numbered text.toList = (n, header) :: rest ∧
        Numeral.natUpTo? Numeral.u64Max (Blank.trim header) = some expected ∧
        expected ≤ rest.length ∧
        Reader.collect Reader.nodeRequest (rest.take expected) labels = .ok (nodes, mid) ∧
        Reader.collect Reader.edgeRequests (rest.drop expected) mid = .ok (edges, labels') := by
  unfold Graph.readTrace
  cases hnum : Reader.numbered text.toList with
  | nil => simp
  | cons first rest =>
    obtain ⟨n, header⟩ := first
    cases hv : Numeral.natUpTo? Numeral.u64Max (Blank.trim header) with
    | none => simp [hv, bind, Except.bind]
    | some expected =>
      cases hn : Reader.collect Reader.nodeRequest (rest.take expected) labels with
      | error e => simp [hv, hn, bind, Except.bind, pure, Except.pure]
      | ok r =>
        obtain ⟨nodes', mid⟩ := r
        by_cases hlen : rest.length < expected
        · -- too few lines follow the count
          simp only [hv, hn, hlen, bind, Except.bind, pure, Except.pure, if_true]
          constructor
          · intro h
            cases h
          · rintro ⟨_, _, _, _, _, heq, hv', hle, -, -⟩
            simp only [List.cons.injEq, Prod.mk.injEq] at heq
            obtain ⟨⟨-, rfl⟩, rfl⟩ := heq
            rw [hv] at hv'
            cases hv'
            omega
        · cases he : Reader.collect Reader.edgeRequests (rest.drop expected) mid with
          | error e => simp [hv, hn, hlen, he, bind, Except.bind, pure, Except.pure]
          | ok r' =>
            obtain ⟨edges', labels''⟩ := r'
            simp [hv, hn, hlen, he, bind, Except.bind, pure, Except.pure]
            intros
            omega

theorem Graph.readTrace_eq_ok {labels : LabelTable} {text : String} {nodes : List (Nat × Nat)}
    {edges : List Edge} {labels' : LabelTable} (h : Graph.readTrace labels text = .ok (nodes, edges, labels')) :
    ∃ ys mid, Reader.collect Reader.edgeRequests ys mid = .ok (edges, labels') := by
  obtain ⟨-, -, rest, expected, mid, -, -, -, -, he⟩ := Graph.readTrace_eq_ok_iff.1 h
  exact ⟨_, _, he⟩

/-- Every edge a text asks for joins two different nodes, at a time in range. -/
theorem Graph.edge_of_mem_readTrace {labels : LabelTable} {text : String} {nodes : List (Nat × Nat)}
    {edges : List Edge} {labels' : LabelTable} (h : Graph.readTrace labels text = .ok (nodes, edges, labels')) :
    ∀ e ∈ edges, e.source ≠ e.dest ∧ Stamp.InRange e.time := by
  obtain ⟨ys, mid, he⟩ := Graph.readTrace_eq_ok h
  exact Reader.forall_mem_of_collect (fun _ _ _ hr => Reader.edge_of_mem_edgeRequests hr) he

/-- The graph that the requests `nodes` and then `edges` build, keeping what `pattern` keeps. -/
def Graph.ofRequests (directed : Bool) (pattern : Option Graph) (nodes : List (Nat × Nat))
    (edges : List Edge) : Graph :=
  edges.foldl (Reader.addKeptEdge (Reader.keepsEdge pattern))
    (nodes.foldl (Reader.addKeptNode (Reader.keepsNode pattern)) (Graph.empty directed))

/-- Dropping the table a failure comes with, loading is a fold that stops at the first failure:
the node lines as one block, the check that there were enough of them, then the edge lines as
another block. -/
theorem Graph.load_eq_fold (labels : LabelTable) (text : String) (pattern : Option Graph)
    (directed : Bool) :
    Graph.load labels text pattern directed =
      (match Reader.numbered text.toList with
      | [] => .error .missingNodeCount
      | (n, header) :: rest =>
        match Numeral.natUpTo? Numeral.u64Max (Blank.trim header) with
        | none => .error (.invalidNodeCount n (String.ofList (Blank.trim header)))
        | some expected => do
          let p ← (rest.take expected).foldlM (Reader.node (Reader.keepsNode pattern))
            ⟨Graph.empty directed, labels⟩
          if rest.length < expected then .error (.truncatedNodeList expected rest.length)
          else
            let p ← (rest.drop expected).foldlM
              (fun p x => (Reader.edges (Reader.keepsEdge pattern) p x).mapError Prod.fst) p
            pure (p.graph, p.labels)) := by
  unfold Graph.load Graph.read Graph.readProgress
  rcases Reader.numbered text.toList with _ | ⟨⟨n, header⟩, rest⟩
  · rfl
  · dsimp only
    cases Numeral.natUpTo? Numeral.u64Max (Blank.trim header) with
    | none => rfl
    | some expected =>
      -- the node block fails as its fold does, and so does the edge block
      have hnodes := Reader.steps_mapError (Reader.node (Reader.keepsNode pattern))
        (rest.take expected) ⟨Graph.empty directed, labels⟩
      have hedges := Reader.foldlM_mapError (Reader.edges (Reader.keepsEdge pattern)) Prod.fst
        (rest.drop expected)
      simp only [bind, Except.bind, pure, Except.pure]
      cases hs : Reader.steps (Reader.node (Reader.keepsNode pattern)) (rest.take expected)
          ⟨Graph.empty directed, labels⟩ with
      | error r =>
        rw [hs] at hnodes
        rw [← hnodes]
        rfl
      | ok p =>
        rw [hs] at hnodes
        rw [← hnodes]
        by_cases hlt : rest.length < expected
        · simp only [Except.mapError_ok, hlt, if_true]
        · simp only [Except.mapError_ok, hlt, if_false]
          rw [← hedges p]
          cases (rest.drop expected).foldlM (Reader.edges (Reader.keepsEdge pattern)) p <;> rfl

/-- Reading with a pattern reads the same requests as reading without one, and fails in the same
way; the pattern only filters what is built from them. -/
theorem load_eq_readTrace (labels : LabelTable) (text : String) (pattern : Option Graph)
    (directed : Bool) :
    Graph.load labels text pattern directed = (Graph.readTrace labels text).map
      fun r => (Graph.ofRequests directed pattern r.1 r.2.1, r.2.2) := by
  rw [Graph.load_eq_fold]
  unfold Graph.readTrace
  rcases Reader.numbered text.toList with _ | ⟨⟨n, header⟩, rest⟩
  · rfl
  · dsimp only
    cases Numeral.natUpTo? Numeral.u64Max (Blank.trim header) with
    | none => rfl
    | some expected =>
      simp only [bind, Except.bind, pure, Except.pure]
      rw [Reader.foldlM_eq_collect (fun p x => Reader.node_eq _ p x)]
      cases Reader.collect Reader.nodeRequest (rest.take expected) labels with
      | error e => rfl
      | ok r =>
        simp only [Except.map]
        by_cases hlen : rest.length < expected
        · simp [hlen]
        · simp only [hlen, if_false]
          rw [Reader.foldlM_eq_collect (fun p x => Reader.edges_eq _ p x)]
          cases Reader.collect Reader.edgeRequests (rest.drop expected) r.2 <;> rfl

theorem ofRequests_eq_ofOps (directed : Bool) (pattern : Option Graph) (nodes : List (Nat × Nat))
    (edges : List Edge) :
    Graph.ofRequests directed pattern nodes edges =
      Graph.ofOps directed (Reader.requestOps pattern nodes edges) := by
  -- the node calls declare exactly the kept ids
  have hcontains : ∀ kept : List (Nat × Nat), ∀ x,
      ((kept.map fun x => GraphOp.addNode x.1 x.2).foldl GraphOp.apply (Graph.empty directed)).containsNode x =
        decide (x ∈ kept.map Prod.fst) := by
    intro kept x
    have hadded : addedNodes (kept.map fun x => GraphOp.addNode x.1 x.2) = kept := by
      simp [addedNodes, List.filterMap_map, GraphOp.node?, Function.comp_def]
    have hmem := (built_ofOps directed (kept.map fun x => GraphOp.addNode x.1 x.2)).containsNode_iff x
    rw [Graph.ofOps, hadded] at hmem
    rw [Bool.eq_iff_iff, hmem, decide_eq_true_iff]
  unfold Graph.ofRequests
  rw [Reader.foldl_addKeptNode, Reader.foldl_addKeptEdge]
  simp only [hcontains]
  rw [Reader.requestOps, Graph.ofOps, List.foldl_append]

/-- A text reads, with a pattern or without, exactly when its requests do, into the graph that the
kept requests build. -/
theorem load_eq_ok_iff {labels : LabelTable} {text : String} {pattern : Option Graph}
    {directed : Bool} {g : Graph} {labels' : LabelTable} :
    Graph.load labels text pattern directed = .ok (g, labels') ↔
      ∃ nodes edges, Graph.readTrace labels text = .ok (nodes, edges, labels') ∧
        g = Graph.ofOps directed (Reader.requestOps pattern nodes edges) := by
  rw [load_eq_readTrace]
  cases Graph.readTrace labels text with
  | error e => simp [Except.map]
  | ok r =>
    obtain ⟨nodes, edges, l⟩ := r
    simp only [Except.map, Except.ok.injEq, Prod.mk.injEq, ofRequests_eq_ofOps]
    constructor
    · rintro ⟨rfl, rfl⟩
      exact ⟨nodes, edges, ⟨rfl, rfl, rfl⟩, rfl⟩
    · rintro ⟨nodes', edges', ⟨rfl, rfl, rfl⟩, rfl⟩
      exact ⟨rfl, rfl⟩

/-- Every edge of a graph read from text joins two different nodes of it, at a time in range. -/
theorem Graph.edge_of_load {labels : LabelTable} {text : String} {pattern : Option Graph}
    {directed : Bool} {g : Graph} {labels' : LabelTable}
    (h : Graph.load labels text pattern directed = .ok (g, labels')) :
    ∀ e ∈ g.edges.toList, g.containsNode e.source = true ∧ g.containsNode e.dest = true ∧
      e.source ≠ e.dest ∧ Stamp.InRange e.time := by
  obtain ⟨nodes, edges, ht, rfl⟩ := load_eq_ok_iff.1 h
  intro e he
  rw [Reader.edges_requestOps] at he
  obtain ⟨hmem, hkeep⟩ := List.mem_filter.1 he
  simp only [Bool.and_eq_true, decide_eq_true_eq] at hkeep
  obtain ⟨⟨-, hs⟩, hd⟩ := hkeep
  rw [Reader.containsNode_requestOps, Reader.containsNode_requestOps, decide_eq_true_iff,
    decide_eq_true_iff]
  exact ⟨hs, hd, Graph.edge_of_mem_readTrace ht e hmem⟩

end TemporalMotif
