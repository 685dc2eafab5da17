import TemporalMotif.Proofs.Fields
import TemporalMotif.Proofs.Reading
import TemporalMotif.Proofs.Writing

/-! # Reading printed lines

Reading a text numbers label names through a table that only grows, so every label it asks for
has, in the final table, a name that reads back from the kind of line it came from
(`Reader.named_of_readTrace`). The other way round, a node line or an edge line printed from such
names, and from numbers the numerals fit, asks for exactly what was printed and leaves the table
as it is (`Reader.nodeRequest_line`, `Reader.edgeRequests_line`), and printed lines, each ended by
a line feed, are numbered back in order (`Reader.numbered_join`). -/

namespace TemporalMotif

namespace Reader

/-- Collecting with a parser that only extends the table, each of whose requests satisfies `P`
at the table it leaves, gives requests that all satisfy `P` at the final table, when extending
the table keeps `P`. -/
theorem foldlM_collect_extends {α β : Type}
    {parse : LabelTable → α → Except LoadError (List β × LabelTable)} {P : β → LabelTable → Prop}
    (hmono : ∀ b tb tb', tb'.Extends tb → P b tb → P b tb') :
    ∀ (xs : List α), (∀ x ∈ xs, ∀ tb r, parse tb x = .ok r → r.2.Extends tb ∧ ∀ b ∈ r.1, P b r.2) →
      ∀ (acc : List β) (tb : LabelTable) (r : List β × LabelTable), (∀ b ∈ acc, P b tb) →
        xs.foldlM (fun r x => (parse r.2 x).map fun r' => (r.1 ++ r'.1, r'.2)) (acc, tb) = .ok r →
        r.2.Extends tb ∧ ∀ b ∈ r.1, P b r.2
  | [], _, acc, tb, r, hacc, h => by
    cases h
    exact ⟨.refl _, hacc⟩
  | x :: xs, hparse, acc, tb, r, hacc, h => by
    rw [List.foldlM_cons] at h
    cases hx : parse tb x with
    | error e => rw [hx] at h; cases h
    | ok r' =>
      rw [hx] at h
      obtain ⟨hext, hP⟩ := hparse x List.mem_cons_self tb r' hx
      -- what was collected before still satisfies `P` at the extended table
      have hacc' : ∀ b ∈ acc ++ r'.1, P b r'.2 := by
        intro b hb
        rcases List.mem_append.1 hb with hb | hb
        · exact hmono b tb r'.2 hext (hacc b hb)
        · exact hP b hb
      obtain ⟨hext', hP'⟩ := foldlM_collect_extends hmono xs
        (fun y hy => hparse y (List.mem_cons_of_mem x hy)) (acc ++ r'.1) r'.2 r hacc' h
      exact ⟨hext'.trans hext, hP'⟩

theorem collect_extends {α β : Type}
    {parse : LabelTable → α → Except LoadError (List β × LabelTable)} {P : β → LabelTable → Prop}
    (hmono : ∀ b tb tb', tb'.Extends tb → P b tb → P b tb') {xs : List α}
    (hparse : ∀ x ∈ xs, ∀ tb r, parse tb x = .ok r → r.2.Extends tb ∧ ∀ b ∈ r.1, P b r.2)
    {tb : LabelTable} {r : List β × LabelTable} (h : collect parse xs tb = .ok r) :
    r.2.Extends tb ∧ ∀ b ∈ r.1, P b r.2 :=
  foldlM_collect_extends hmono xs hparse [] tb r (by simp) h

/-- Node `p` has an id that fits the id numerals, and a 32-bit label that `tb` names by a name
that reads back from a node line. -/
def NodeNamed (p : Nat × Nat) (tb : LabelTable) : Prop :=
  p.1 ≤ Numeral.u32Max ∧ p.2 ≤ Numeral.u32Max ∧
    ∃ s, ReadsBack ['\t'] s ∧ tb.nodeNames.idxOf? s = some p.2

/-- Edge `e` has a 32-bit label that `tb` names by a name that reads back from a stamp. -/
def EdgeNamed (e : Edge) (tb : LabelTable) : Prop :=
  e.label ≤ Numeral.u32Max ∧ ∃ s, ReadsBack ['\t', ','] s ∧ tb.edgeNames.idxOf? s = some e.label

theorem NodeNamed.mono {p : Nat × Nat} {tb tb' : LabelTable} (h : tb'.Extends tb)
    (hp : NodeNamed p tb) : NodeNamed p tb' := by
  obtain ⟨hid, hlb, s, hs, hl⟩ := hp
  exact ⟨hid, hlb, s, hs, h.nodeNames hl⟩

theorem EdgeNamed.mono {e : Edge} {tb tb' : LabelTable} (h : tb'.Extends tb)
    (he : EdgeNamed e tb) : EdgeNamed e tb' := by
  obtain ⟨hlb, s, hs, hl⟩ := he
  exact ⟨hlb, s, hs, h.edgeNames hl⟩

theorem le_of_nodeId {line : Nat} {field : List Char} {v : Nat} (h : nodeId line field = .ok v) :
    v ≤ Numeral.u32Max := by
  simp only [nodeId] at h
  split at h
  · rename_i w hw
    cases h
    obtain ⟨u, -, hu⟩ := Option.bind_eq_some_iff.1 hw
    split at hu
    · cases hu
      assumption
    · cases hu
  · cases h

/-- A node line asks for a node whose label its name, which reads back, now names. -/
theorem nodeRequest_named {tb : LabelTable} {x : Nat × List Char} (hx : ∀ c ∈ x.2, c ≠ '\n')
    {r : List (Nat × Nat) × LabelTable} (h : nodeRequest tb x = .ok r) :
    r.2.Extends tb ∧ ∀ p ∈ r.1, NodeNamed p r.2 := by
  obtain ⟨line, text⟩ := x
  simp only [nodeRequest] at h
  split at h
  · rename_i idField nameField rest hp
    cases hid : nodeId line idField with
    | error e => rw [hid] at h; cases h
    | ok id =>
      simp only [hid, bind, Except.bind, pure, Except.pure] at h
      cases hi : tb.internNode (String.ofList (Blank.trim nameField)) with
      | error e => rw [hi] at h; cases h
      | ok v =>
        rw [hi] at h
        cases h
        obtain ⟨hext, hidx, hle⟩ := LabelTable.internNode_eq_ok hi
        refine ⟨hext, fun p hmem => ?_⟩
        rw [List.mem_singleton] at hmem
        subst hmem
        -- the name is a trimmed piece between tabs of a line
        have hname : ∀ c ∈ nameField, c ≠ '\n' ∧ c ∉ ['\t'] := fun c hc => by
          obtain ⟨hct, hne⟩ :=
            mem_of_mem_pieces (hp ▸ List.mem_cons_of_mem _ List.mem_cons_self) c hc
          exact ⟨hx c hct, by simpa using hne⟩
        exact ⟨le_of_nodeId hid, hle, _, readsBack_trim hname, hidx⟩
  · cases h

/-- A stamp asks for an edge whose label its name, which reads back, now names. -/
theorem stampRequest_named {line : Nat} {text : List Char} {source dest : Nat} {tb : LabelTable}
    {item : List Char} (hitem : ∀ c ∈ item, c ≠ '\n' ∧ c ∉ ['\t', ','])
    {r : List Edge × LabelTable} (h : stampRequest line text source dest tb item = .ok r) :
    r.2.Extends tb ∧ ∀ e ∈ r.1, EdgeNamed e r.2 := by
  unfold stampRequest at h
  split at h
  · cases h
  · rename_i k hk
    cases ht : time line (item.take k) with
    | error e => rw [ht] at h; cases h
    | ok t =>
      simp only [ht, bind, Except.bind, pure, Except.pure] at h
      cases hi : tb.internEdge (String.ofList (Blank.trim (item.drop (k + 1)))) with
      | error e => rw [hi] at h; cases h
      | ok v =>
        rw [hi] at h
        cases h
        obtain ⟨hext, hidx, hle⟩ := LabelTable.internEdge_eq_ok hi
        refine ⟨hext, fun e hmem => ?_⟩
        rw [List.mem_singleton] at hmem
        subst hmem
        exact ⟨hle, _, readsBack_trim fun c hc => hitem c (List.mem_of_mem_drop hc), hidx⟩

/-- An edge line asks for edges whose labels their names, which read back, now name. -/
theorem edgeRequests_named {tb : LabelTable} {x : Nat × List Char} (hx : ∀ c ∈ x.2, c ≠ '\n')
    {r : List Edge × LabelTable} (h : edgeRequests tb x = .ok r) :
    r.2.Extends tb ∧ ∀ e ∈ r.1, EdgeNamed e r.2 := by
  obtain ⟨line, text⟩ := x
  simp only [edgeRequests] at h
  split at h
  · rename_i sField dField stamps rest hp
    cases hs : nodeId line sField with
    | error e => rw [hs] at h; cases h
    | ok source =>
      cases hd : nodeId line dField with
      | error e => rw [hs, hd] at h; cases h
      | ok dest =>
        simp only [hs, hd, bind, Except.bind] at h
        split at h
        · cases h
          exact ⟨.refl _, by simp⟩
        · refine collect_extends (fun _ _ _ hext he => he.mono hext) (fun item hitem => ?_) h
          -- an item is a trimmed piece between commas of a piece between tabs of a line
          have hchars : ∀ c ∈ item, c ≠ '\n' ∧ c ∉ ['\t', ','] := by
            intro c hc
            obtain ⟨p, hpc, rfl⟩ := List.mem_map.1 (List.mem_filter.1 hitem).1
            obtain ⟨hcs, hcomma⟩ := mem_of_mem_pieces hpc c (Blank.mem_of_mem_trim hc)
            obtain ⟨hct, htab⟩ := mem_of_mem_pieces
              (hp ▸ List.mem_cons_of_mem _ (List.mem_cons_of_mem _ List.mem_cons_self)) c hcs
            exact ⟨hx c hct, by simp [htab, hcomma]⟩
          exact fun tb r hr => stampRequest_named hchars hr
  · cases h

/-- After reading a text, the final table names every requested node's label, and every
requested edge's label, by a name that reads back. -/
theorem named_of_readTrace {labels : LabelTable} {text : String} {nodes : List (Nat × Nat)}
    {edges : List Edge} {labels' : LabelTable}
    (h : Graph.readTrace labels text = .ok (nodes, edges, labels')) :
    (∀ p ∈ nodes, NodeNamed p labels') ∧ ∀ e ∈ edges, EdgeNamed e labels' := by
  obtain ⟨n, header, rest, expected, mid, hnum, -, -, hn, he⟩ := Graph.readTrace_eq_ok_iff.1 h
  have hline : ∀ x ∈ rest, ∀ c ∈ x.2, c ≠ '\n' := fun x hx c hc =>
    ne_of_mem_numbered (hnum ▸ List.mem_cons_of_mem _ hx) hc
  obtain ⟨-, hnodes⟩ := collect_extends (fun _ _ _ hext hp => hp.mono hext)
    (fun x hx _ _ hr => nodeRequest_named (hline x (List.mem_of_mem_take hx)) hr) hn
  obtain ⟨hext, hedges⟩ := collect_extends (fun _ _ _ hext he => he.mono hext)
    (fun x hx _ _ hr => edgeRequests_named (hline x (List.mem_of_mem_drop hx)) hr) he
  exact ⟨fun p hp => (hnodes p hp).mono hext, hedges⟩

/-- Digits and the minus sign are none of the characters a line is split at. -/
theorem ne_of_numeral_char {c : Char} (h : c.isDigit = true ∨ c = '-') :
    c ≠ '\t' ∧ c ≠ ',' ∧ c ≠ ':' ∧ c ≠ '\n' := by
  rcases h with h | rfl
  · refine ⟨?_, ?_, ?_, ?_⟩ <;> rintro rfl <;> exact absurd h (by decide)
  · decide

theorem ne_sep_of_mem_toString_nat {n : Nat} {c : Char} (hc : c ∈ (toString n).toList) :
    c ≠ '\t' ∧ c ≠ ',' ∧ c ≠ ':' ∧ c ≠ '\n' :=
  ne_of_numeral_char (.inl (Numeral.isDigit_of_mem_toString hc))

theorem ne_sep_of_mem_toString_int {t : Int} {c : Char} (hc : c ∈ (toString t).toList) :
    c ≠ '\t' ∧ c ≠ ',' ∧ c ≠ ':' ∧ c ≠ '\n' :=
  ne_of_numeral_char (Numeral.mem_toString_int hc)

theorem nodeId_toString (line : Nat) {i : Nat} (h : i ≤ Numeral.u32Max) :
    nodeId line (toString i).toList = .ok i := by
  simp only [nodeId, Blank.trim_toString_nat, Numeral.natUpTo?_toString h]

theorem time_toString (line : Nat) {t : Int} (h : Stamp.InRange t) :
    time line (toString t).toList = .ok t := by
  simp only [time, Blank.trim_toString_int, Numeral.intIn?_toString h.1 h.2]

/-- The line of node number `i` with a name that reads back, numbered in `tb` as the 32-bit label
`l`, asks for node `i` of label `l` and leaves the table as it is. -/
theorem nodeRequest_line (tb : LabelTable) {i l : Nat} (hi : i ≤ Numeral.u32Max) {s : String}
    (hs : ReadsBack ['\t'] s) (hl : tb.nodeNames.idxOf? s = some l) (hlb : l ≤ Numeral.u32Max)
    (k : Nat) :
    nodeRequest tb (k, (s!"{i}\t{s}").toList) = .ok ([(i, l)], tb) := by
  have hid : ∀ c ∈ (toString i).toList, c ≠ '\t' := fun c hc =>
    (ne_sep_of_mem_toString_nat hc).1
  have hname : ∀ c ∈ s.toList, c ≠ '\t' := fun c hc h => (hs.2 c hc).2 (by simp [h])
  have hpieces : pieces '\t' (s!"{i}\t{s}").toList = [(toString i).toList, s.toList] := by
    have hline : (s!"{i}\t{s}").toList = (toString i).toList ++ '\t' :: s.toList := by
      show (toString i ++ "\t" ++ s).toList = _
      simp [String.toList_append]
    rw [hline, pieces_append_cons _ hid, pieces_of_forall_ne hname]
  simp only [nodeRequest]
  rw [hpieces]
  simp only [nodeId_toString k hi, hs.1, String.ofList_toList, LabelTable.internNode_of_idxOf? hl hlb,
    bind, Except.bind, pure, Except.pure]

/-- A printed integer, a colon and a name that reads back are one trimmed stamp. -/
theorem trim_stamp (t : Int) {s : String} (hs : ReadsBack ['\t', ','] s) :
    Blank.trim ((toString t).toList ++ ':' :: s.toList) = (toString t).toList ++ ':' :: s.toList := by
  obtain ⟨c, cs, hc, -⟩ := Numeral.exists_toString_int_eq_cons t
  apply Blank.trim_eq_self
  · -- it starts with the integer
    intro d hd
    rw [hc, List.cons_append, List.head?_cons, Option.mem_some_iff] at hd
    exact Blank.isBlank_of_mem_toString (hd ▸ hc ▸ List.mem_cons_self)
  · -- it ends with the name, or with the colon when the name is empty
    intro d hd
    rw [List.getLast?_append, List.getLast?_cons] at hd
    cases hlast : s.toList.getLast? with
    | none =>
      simp only [hlast, Option.getD_none, Option.mem_def, Option.some_or, Option.some.injEq] at hd
      subst hd
      decide
    | some e =>
      simp only [hlast, Option.getD_some, Option.mem_def, Option.some_or, Option.some.injEq] at hd
      subst hd
      exact Blank.isBlank_getLast?_trim (by rw [hs.1, hlast]; rfl)

/-- The line of an edge between two different node numbers that fit the id numerals, at a time
in range, with a label that `tb` names by a name that reads back, asks for that edge and leaves
the table as it is. -/
theorem edgeRequests_line (tb : LabelTable) {w : Edge} (hs : w.source ≤ Numeral.u32Max)
    (hd : w.dest ≤ Numeral.u32Max) (hne : w.source ≠ w.dest) (ht : Stamp.InRange w.time)
    (hw : EdgeNamed w tb) (k : Nat) :
    edgeRequests tb (k, (w.line tb).toList) = .ok ([w], tb) := by
  obtain ⟨hlb, s, hsb, hl⟩ := hw
  have hnat : ∀ n : Nat, ∀ c ∈ (toString n).toList, c ≠ '\t' := fun n c hc =>
    (ne_sep_of_mem_toString_nat hc).1
  -- the stamp holds no tab and no comma, and its first colon follows the time
  have hstamp : ∀ c ∈ (toString w.time).toList ++ ':' :: s.toList, c ≠ '\t' ∧ c ≠ ',' := by
    intro c hc
    rcases List.mem_append.1 hc with hc | hc
    · obtain ⟨htab, hcomma, -⟩ := ne_sep_of_mem_toString_int hc
      exact ⟨htab, hcomma⟩
    · rcases List.mem_cons.1 hc with rfl | hc
      · decide
      · have hsep := (hsb.2 c hc).2
        exact ⟨fun h => hsep (by simp [h]), fun h => hsep (by simp [h])⟩
  have hcolon : ((toString w.time).toList ++ ':' :: s.toList).idxOf? ':' =
      some (toString w.time).toList.length := by
    rw [List.idxOf?_eq_some_iff]
    refine ⟨by simp, by simp, fun j hj => ?_⟩
    rw [List.getElem_append_left hj]
    exact (ne_sep_of_mem_toString_int (List.getElem_mem _)).2.2.1
  have hpieces : pieces '\t' (w.line tb).toList = [(toString w.source).toList,
      (toString w.dest).toList, (toString w.time).toList ++ ':' :: s.toList] := by
    have hline : (w.line tb).toList = (toString w.source).toList ++ '\t' ::
        ((toString w.dest).toList ++ '\t' :: ((toString w.time).toList ++ ':' :: s.toList)) := by
      show (toString w.source ++ "\t" ++ toString w.dest ++ "\t" ++ toString w.time ++ ":" ++
        tb.edgeName w.label).toList = _
      simp [String.toList_append, LabelTable.edgeName_of_idxOf? hl]
    rw [hline, pieces_append_cons _ (hnat _), pieces_append_cons _ (hnat _),
      pieces_of_forall_ne fun c hc => (hstamp c hc).1]
  have hitems : ((pieces ',' ((toString w.time).toList ++ ':' :: s.toList)).map Blank.trim).filter
      (!·.isEmpty) = [(toString w.time).toList ++ ':' :: s.toList] := by
    rw [pieces_of_forall_ne fun c hc => (hstamp c hc).2, List.map_singleton, trim_stamp w.time hsb]
    simp
  simp only [edgeRequests]
  rw [hpieces]
  simp only [nodeId_toString k hs, nodeId_toString k hd, hne, if_false, bind, Except.bind]
  rw [hitems]
  simp only [collect, List.foldlM_cons, List.foldlM_nil, stampRequest, hcolon, List.take_left,
    time_toString k ht]
  simp [hsb.1, LabelTable.internEdge_of_idxOf? hl hlb, Except.map, pure, Except.pure, bind,
    Except.bind]

/-- Lines each asking for their own requests and leaving the table as it is, numbered from
`k + 1` on, collect to all their requests in order. -/
theorem foldlM_collect_numbered {β γ : Type}
    {parse : LabelTable → Nat × List Char → Except LoadError (List β × LabelTable)}
    {tb : LabelTable} (text : γ → List Char) (out : γ → List β) :
    ∀ (ys : List γ), (∀ y ∈ ys, ∀ k, parse tb (k, text y) = .ok (out y, tb)) →
      ∀ (k : Nat) (acc : List β),
        (((ys.map text).zipIdx k).map fun (l, i) => (i + 1, l)).foldlM
          (fun r x => (parse r.2 x).map fun r' => (r.1 ++ r'.1, r'.2)) (acc, tb) =
          .ok (acc ++ ys.flatMap out, tb)
  | [], _, k, acc => by simp [pure, Except.pure]
  | y :: ys, h, k, acc => by
    have ih := foldlM_collect_numbered text out ys (fun y hy => h y (List.mem_cons_of_mem _ hy))
      (k + 1) (acc ++ out y)
    rw [List.map_cons, List.zipIdx_cons, List.map_cons, List.foldlM_cons,
      h y List.mem_cons_self (k + 1)]
    simp only [Except.map, bind, Except.bind] at ih ⊢
    rw [ih, List.flatMap_cons, List.append_assoc]

theorem collect_numbered {β γ : Type}
    {parse : LabelTable → Nat × List Char → Except LoadError (List β × LabelTable)}
    {tb : LabelTable} (text : γ → List Char) (out : γ → List β) {ys : List γ}
    (h : ∀ y ∈ ys, ∀ k, parse tb (k, text y) = .ok (out y, tb)) (k : Nat) :
    collect parse (((ys.map text).zipIdx k).map fun (l, i) => (i + 1, l)) tb =
      .ok (ys.flatMap out, tb) := by
  simpa [collect] using foldlM_collect_numbered text out ys h k []

/-- Characters that read back as one line: no line feed, no carriage return at the end, and not
blank. -/
def IsLine (l : List Char) : Prop :=
  (∀ c ∈ l, c ≠ '\n') ∧ l.getLast? ≠ some '\r' ∧ Blank.trim l ≠ []

/-- A text of lines that read back as lines, each ended by a line feed, is numbered back into
them in order from 1. -/
theorem numbered_join {ls : List String} (h : ∀ l ∈ ls, IsLine l.toList) :
    numbered (String.join (ls.map (· ++ "\n"))).toList =
      (ls.map String.toList).zipIdx.map fun (l, i) => (i + 1, l) := by
  have htext : (String.join (ls.map (· ++ "\n"))).toList =
      (ls.map String.toList).flatMap (· ++ ['\n']) := by
    simp [String.toList_join, List.flatMap_map, String.toList_append]
  rw [htext]
  refine numbered_flatMap ?_ ?_ ?_ <;> simp only [List.mem_map] <;> rintro _ ⟨l, hl, rfl⟩
  · exact (h l hl).1
  · exact (h l hl).2.1
  · exact (h l hl).2.2

theorem trim_toString_append_ne_nil (n : Nat) (rest : List Char) :
    Blank.trim ((toString n).toList ++ rest) ≠ [] := by
  obtain ⟨c, cs, hc, hdig⟩ := Numeral.exists_toDigits_eq_cons n
  have hcs : (toString n).toList = c :: cs := by rw [Nat.toString_eq_repr, Nat.toList_repr, hc]
  rw [hcs, List.cons_append, Blank.trim_eq_rdropWhile,
    List.dropWhile_cons_of_neg (by simp [Blank.isBlank_of_isDigit hdig]), Ne,
    List.rdropWhile_eq_nil_iff]
  intro h
  simpa [Blank.isBlank_of_isDigit hdig] using h c List.mem_cons_self

theorem getLast?_append_cons_ne {A B : List Char} {c : Char} (hc : c ≠ '\r')
    (hB : B.getLast? ≠ some '\r') : (A ++ c :: B).getLast? ≠ some '\r' := by
  rw [List.getLast?_append, List.getLast?_cons]
  cases hlast : B.getLast? with
  | none => simpa using hc
  | some e => simpa [hlast] using hB

theorem isLine_toString (n : Nat) : IsLine (toString n).toList :=
  ⟨fun _ hc => (ne_sep_of_mem_toString_nat hc).2.2.2,
    Blank.getLast?_ne_return (Blank.trim_toString_nat n),
    by simpa using trim_toString_append_ne_nil n []⟩

theorem isLine_node (i : Nat) {s : String} (hs : ReadsBack ['\t'] s) :
    IsLine (s!"{i}\t{s}").toList := by
  have hline : (s!"{i}\t{s}").toList = (toString i).toList ++ '\t' :: s.toList := by
    show (toString i ++ "\t" ++ s).toList = _
    simp [String.toList_append]
  rw [hline]
  refine ⟨fun c hc => ?_, getLast?_append_cons_ne (by decide) (Blank.getLast?_ne_return hs.1),
    trim_toString_append_ne_nil i _⟩
  rcases List.mem_append.1 hc with hc | hc
  · exact (ne_sep_of_mem_toString_nat hc).2.2.2
  · rcases List.mem_cons.1 hc with rfl | hc
    · decide
    · exact (hs.2 c hc).1

theorem isLine_edge (tb : LabelTable) (w : Edge) {s : String} (hs : ReadsBack ['\t', ','] s)
    (hname : tb.edgeName w.label = s) : IsLine (w.line tb).toList := by
  have hline : (w.line tb).toList = ((toString w.source).toList ++ '\t' ::
      ((toString w.dest).toList ++ '\t' :: (toString w.time).toList)) ++ ':' :: s.toList := by
    show (toString w.source ++ "\t" ++ toString w.dest ++ "\t" ++ toString w.time ++ ":" ++
      tb.edgeName w.label).toList = _
    simp [String.toList_append, hname]
  rw [hline]
  refine ⟨fun c hc => ?_, getLast?_append_cons_ne (by decide) (Blank.getLast?_ne_return hs.1),
    by simpa using trim_toString_append_ne_nil w.source _⟩
  simp only [List.mem_append, List.mem_cons] at hc
  rcases hc with ((hc | rfl | hc | rfl | hc) | rfl | hc)
  · exact (ne_sep_of_mem_toString_nat hc).2.2.2
  · decide
  · exact (ne_sep_of_mem_toString_nat hc).2.2.2
  · decide
  · exact (ne_sep_of_mem_toString_int hc).2.2.2
  · decide
  · exact (hs.2 c hc).1

end Reader

end TemporalMotif
