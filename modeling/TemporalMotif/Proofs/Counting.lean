import Mathlib
import TemporalMotif.Graph.Flow

/-! # Counting with early exits

The loops of the degree and flow profiles hand a slot counter a stream of contributions
`(slot, amount)`, each slot's in a fixed order. They skip the contributions of a finished slot,
and they stop once every slot they feed is finished. A skipped contribution would have been
ignored anyway, since adding to a finished slot changes nothing, so each profile is what adding
the whole stream gives (`SlotCounter.loop_eq_addAll`). Adding a stream, each slot counts its own
contributions one by one until its limit is reached (`SlotCounter.Valid.count_addAll`).

Main statements: the profiles are the capped sums of `Tally.profile` over the slots'
contributions (`Graph.degree_eq_profile`, `Graph.flow_eq_profile`). -/

namespace TemporalMotif

namespace Tally

/-- One step of a count under an optional cap: the amount is added unless the cap is reached. -/
def tick (cap : Option Nat) (acc x : Nat) : Nat := if cap.any (· ≤ acc) then acc else acc + x

theorem foldl_tick_none (xs : List Nat) (acc : Nat) : xs.foldl (tick none) acc = acc + xs.sum := by
  induction xs generalizing acc with
  | nil => rfl
  | cons x xs ih => simp [tick, ih, Nat.add_assoc]

theorem foldl_tick_of_le {cap acc : Nat} (h : cap ≤ acc) (xs : List Nat) :
    xs.foldl (tick (some cap)) acc = acc := by
  induction xs with
  | nil => rfl
  | cons x xs ih => simp [tick, h, ih]

theorem foldl_tick_some (cap : Nat) (xs : List Nat) (acc : Nat) :
    xs.foldl (tick (some cap)) acc = runUpTo cap acc xs := by
  induction xs generalizing acc with
  | nil => rfl
  | cons x xs ih =>
    rw [List.foldl_cons, runUpTo]
    by_cases h : cap ≤ acc
    · rw [if_pos h, tick, if_pos (by simpa using h), foldl_tick_of_le h]
    · rw [if_neg h, tick, if_neg (by simpa using h), ih]

theorem capped_eq_foldl (cap : Option Nat) (xs : List Nat) : capped cap xs = xs.foldl (tick cap) 0 := by
  cases cap with
  | none => rw [foldl_tick_none, Nat.zero_add]; rfl
  | some cap => rw [foldl_tick_some]; rfl

end Tally

namespace SlotCounter

variable {c : SlotCounter} {n : Nat}

/-- Counter `c` has `n` slots, `openSlots` counts the unfinished ones, and a slot is finished
exactly when its count has reached its limit. -/
structure Valid (c : SlotCounter) (n : Nat) : Prop where
  counts_length : c.counts.length = n
  finished_length : c.finished.length = n
  openSlots_eq : c.openSlots = c.finished.count false
  finished_eq : ∀ k < n, c.finished.getD k true = c.limits.any fun l => l.get k ≤ c.counts.getD k 0

theorem valid_new (slots : Nat) (limits : Option Profile) : (new slots limits).Valid slots := by
  refine ⟨List.length_replicate, by simp [new], rfl, fun k hk => ?_⟩
  have hcount : (List.replicate slots 0).getD k 0 = 0 := by simp [List.getD_eq_getElem?_getD, hk]
  simp only [new, hcount, List.getD_eq_getElem?_getD, List.getElem?_map, List.getElem?_range hk,
    Option.map_some, Option.getD_some]
  cases limits with
  | none => rfl
  | some l => rw [Option.any_some, Option.any_some, Bool.eq_iff_iff]; simp

theorem add_eq_of_isOpen {s : Nat} (h : c.isOpen s = true) (x : Nat) :
    c.add s x =
      if c.limits.any (fun l => l.get s ≤ c.counts.getD s 0 + x) then
        { c with counts := c.counts.set s (c.counts.getD s 0 + x),
                 finished := c.finished.set s true, openSlots := c.openSlots - 1 }
      else { c with counts := c.counts.set s (c.counts.getD s 0 + x) } := by
  rw [add, if_pos h]

theorem add_of_isOpen_eq_false {s : Nat} (h : c.isOpen s = false) (x : Nat) : c.add s x = c := by
  rw [add, if_neg (by simp [h])]

@[simp] theorem limits_add (c : SlotCounter) (s x : Nat) : (c.add s x).limits = c.limits := by
  unfold add
  split
  · dsimp only
    split <;> rfl
  · rfl

theorem getD_set_ne {α : Type} (l : List α) {i j : Nat} (h : i ≠ j) (a d : α) :
    (l.set i a).getD j d = l.getD j d := by
  simp [List.getD_eq_getElem?_getD, h]

theorem getD_set_self {α : Type} {l : List α} {i : Nat} (h : i < l.length) (a d : α) :
    (l.set i a).getD i d = a := by
  simp [List.getD_eq_getElem?_getD, h]

/-- A finished slot stays finished. -/
theorem isOpen_add_eq_false {s : Nat} (h : c.isOpen s = false) (s' x : Nat) :
    (c.add s' x).isOpen s = false := by
  by_cases ho : c.isOpen s' = true
  · rw [add_eq_of_isOpen ho]
    split
    · by_cases hs : s' = s
      · subst hs
        rw [h] at ho
        cases ho
      · unfold isOpen at h ⊢
        dsimp only
        rw [getD_set_ne _ hs]
        exact h
    · exact h
  · rw [add_of_isOpen_eq_false (by simpa using ho)]
    exact h

theorem isOpen_eq_false_of_length_le {s : Nat} (h : c.finished.length ≤ s) : c.isOpen s = false := by
  simp [isOpen, List.getD_eq_getElem?_getD, List.getElem?_eq_none h]

theorem Valid.add (h : c.Valid n) (s x : Nat) : (c.add s x).Valid n := by
  by_cases ho : c.isOpen s = true
  · have hs : s < n := by
      rcases Nat.lt_or_ge s n with hs | hs
      · exact hs
      · rw [isOpen_eq_false_of_length_le (by rw [h.finished_length]; exact hs)] at ho
        cases ho
    have hsf : s < c.finished.length := by rw [h.finished_length]; exact hs
    have hfs : c.finished[s] = false := by
      simpa [isOpen, List.getD_eq_getElem?_getD, List.getElem?_eq_getElem hsf] using ho
    have hcount : ∀ k, (c.counts.set s (c.counts.getD s 0 + x)).getD k 0 =
        if k = s then c.counts.getD s 0 + x else c.counts.getD k 0 := by
      intro k
      by_cases hk : k = s
      · subst hk
        rw [getD_set_self (by rw [h.counts_length]; exact hs), if_pos rfl]
      · rw [getD_set_ne _ (Ne.symm hk), if_neg hk]
    rw [add_eq_of_isOpen ho]
    split
    · -- the slot reaches its limit and is finished
      rename_i hreach
      refine ⟨by simp [h.counts_length], by simp [h.finished_length], ?_, fun k hk => ?_⟩
      · rw [h.openSlots_eq, List.count_set (by rw [h.finished_length]; exact hs), hfs]
        simp
      · dsimp only
        rw [hcount]
        by_cases hks : k = s
        · subst hks
          rw [getD_set_self (by rw [h.finished_length]; exact hs), if_pos rfl, hreach]
        · rw [getD_set_ne _ (Ne.symm hks), if_neg hks, h.finished_eq k hk]
    · -- the slot stays open
      rename_i hreach
      refine ⟨by simp [h.counts_length], h.finished_length, h.openSlots_eq, fun k hk => ?_⟩
      dsimp only
      rw [hcount]
      by_cases hks : k = s
      · subst hks
        rw [if_pos rfl]
        have hf : c.finished.getD k true = false := by simpa [isOpen] using ho
        rw [hf]
        simpa using hreach
      · rw [if_neg hks, h.finished_eq k hk]
  · rw [add_of_isOpen_eq_false (by simpa using ho)]
    exact h

/-- Adding to a slot takes one step of its count under its cap and leaves the other slots. -/
theorem Valid.count_add (h : c.Valid n) {s : Nat} (hs : s < n) (x k : Nat) :
    (c.add s x).counts.getD k 0 =
      if k = s then Tally.tick (Profile.capOf c.limits s) (c.counts.getD s 0) x
      else c.counts.getD k 0 := by
  have hreached : (Profile.capOf c.limits s).any (· ≤ c.counts.getD s 0) =
      !c.isOpen s := by
    rw [isOpen, h.finished_eq s hs, Bool.not_not, Profile.capOf, Option.any_map]
  by_cases ho : c.isOpen s = true
  · have hcount : ∀ k, (c.counts.set s (c.counts.getD s 0 + x)).getD k 0 =
        if k = s then c.counts.getD s 0 + x else c.counts.getD k 0 := by
      intro k
      by_cases hk : k = s
      · subst hk
        rw [getD_set_self (by rw [h.counts_length]; exact hs), if_pos rfl]
      · rw [getD_set_ne _ (Ne.symm hk), if_neg hk]
    have htick : Tally.tick (Profile.capOf c.limits s) (c.counts.getD s 0) x =
        c.counts.getD s 0 + x := by
      rw [Tally.tick, hreached, ho]
      rfl
    rw [htick, add_eq_of_isOpen ho]
    split <;> exact hcount k
  · have htick : Tally.tick (Profile.capOf c.limits s) (c.counts.getD s 0) x = c.counts.getD s 0 := by
      rw [Tally.tick, hreached]
      simp [ho]
    rw [htick, add_of_isOpen_eq_false (by simpa using ho)]
    split
    · rename_i hk
      rw [hk]
    · rfl

/-- Once no slot is open, every slot is finished. -/
theorem Valid.isOpen_eq_false_of_allFinished (h : c.Valid n) (hf : c.allFinished = true) (k : Nat) :
    c.isOpen k = false := by
  have hzero : c.finished.count false = 0 := by
    rw [← h.openSlots_eq]
    simpa [allFinished] using hf
  rw [List.count_eq_zero] at hzero
  simp only [isOpen, Bool.not_eq_false']
  rw [List.getD_eq_getElem?_getD]
  cases hk : c.finished[k]? with
  | none => rfl
  | some b =>
    cases b with
    | false => exact absurd (List.mem_of_getElem? hk) hzero
    | true => rfl

/-! ### Streams of contributions -/

/-- Adds each `(slot, amount)` of `evs` in order. -/
def addAll (c : SlotCounter) (evs : List (Nat × Nat)) : SlotCounter :=
  evs.foldl (fun c e => c.add e.1 e.2) c

/-- The amounts that `evs` brings to slot `k`, in order. -/
def amountsTo (evs : List (Nat × Nat)) (k : Nat) : List Nat :=
  evs.filterMap fun e => if e.1 = k then some e.2 else none

@[simp] theorem addAll_nil (c : SlotCounter) : c.addAll [] = c := rfl

@[simp] theorem addAll_cons (c : SlotCounter) (e : Nat × Nat) (evs : List (Nat × Nat)) :
    c.addAll (e :: evs) = (c.add e.1 e.2).addAll evs := rfl

@[simp] theorem addAll_append (c : SlotCounter) (evs evs' : List (Nat × Nat)) :
    c.addAll (evs ++ evs') = (c.addAll evs).addAll evs' := List.foldl_append

@[simp] theorem limits_addAll (c : SlotCounter) (evs : List (Nat × Nat)) :
    (c.addAll evs).limits = c.limits := by
  induction evs generalizing c with
  | nil => rfl
  | cons e evs ih => rw [addAll_cons, ih, limits_add]

/-- Contributions to finished slots change nothing. -/
theorem addAll_of_finished {evs : List (Nat × Nat)} (h : ∀ e ∈ evs, c.isOpen e.1 = false) :
    c.addAll evs = c := by
  induction evs with
  | nil => rfl
  | cons e evs ih =>
    rw [addAll_cons, add_of_isOpen_eq_false (h e List.mem_cons_self)]
    exact ih fun e' he' => h e' (List.mem_cons_of_mem _ he')

theorem Valid.addAll (h : c.Valid n) (evs : List (Nat × Nat)) : (c.addAll evs).Valid n := by
  induction evs generalizing c with
  | nil => exact h
  | cons e evs ih => exact ih (h.add e.1 e.2)

@[simp] theorem amountsTo_nil (k : Nat) : amountsTo [] k = [] := rfl

@[simp] theorem amountsTo_cons (e : Nat × Nat) (evs : List (Nat × Nat)) (k : Nat) :
    amountsTo (e :: evs) k = if e.1 = k then e.2 :: amountsTo evs k else amountsTo evs k := by
  unfold amountsTo
  rw [List.filterMap_cons]
  split <;> simp_all

@[simp] theorem amountsTo_append (evs evs' : List (Nat × Nat)) (k : Nat) :
    amountsTo (evs ++ evs') k = amountsTo evs k ++ amountsTo evs' k := List.filterMap_append

theorem amountsTo_flatMap {α : Type} (xs : List α) (f : α → List (Nat × Nat)) (k : Nat) :
    amountsTo (xs.flatMap f) k = xs.flatMap fun x => amountsTo (f x) k := List.filterMap_flatMap

/-- Each slot counts the amounts brought to it, one by one under its cap. -/
theorem Valid.count_addAll (h : c.Valid n) {evs : List (Nat × Nat)} (hevs : ∀ e ∈ evs, e.1 < n)
    (k : Nat) :
    (c.addAll evs).counts.getD k 0 =
      (amountsTo evs k).foldl (Tally.tick (Profile.capOf c.limits k)) (c.counts.getD k 0) := by
  induction evs generalizing c with
  | nil => rfl
  | cons e evs ih =>
    have he := hevs e List.mem_cons_self
    rw [addAll_cons, ih (h.add e.1 e.2) fun e' he' => hevs e' (List.mem_cons_of_mem _ he'),
      limits_add, h.count_add he, amountsTo_cons]
    by_cases hk : e.1 = k
    · subst hk
      rw [if_pos rfl, if_pos rfl, List.foldl_cons]
    · rw [if_neg (Ne.symm hk), if_neg hk]

/-- A fresh counter that takes a stream of contributions to its slots ends with the capped sums
of `Tally.profile` over the amounts each slot receives. -/
theorem counts_new_addAll {n : Nat} (limits : Option Profile) {evs : List (Nat × Nat)}
    (hevs : ∀ e ∈ evs, e.1 < n) {slots : List (List Nat)} (hlen : slots.length = n)
    (hk : ∀ k < n, amountsTo evs k = slots.getD k []) :
    ((new n limits).addAll evs).counts = Tally.profile limits slots := by
  have hv := (valid_new n limits).addAll evs
  apply List.ext_getElem
  · simp [Tally.profile, hv.counts_length, hlen]
  · intro k hk1 _
    have hkn : k < n := hv.counts_length ▸ hk1
    have hs : k < slots.length := hlen ▸ hkn
    have hcount := (valid_new n limits).count_addAll hevs k
    have hzero : (new n limits).counts.getD k 0 = 0 := by simp [new, List.getD_eq_getElem?_getD, hkn]
    rw [hzero, hk k hkn, List.getD_eq_getElem?_getD, List.getElem?_eq_getElem hk1,
      Option.getD_some] at hcount
    rw [hcount, ← Tally.capped_eq_foldl]
    simp [Tally.profile, new, List.getD_eq_getElem?_getD, List.getElem?_eq_getElem hs]

/-! ### Loops that stop early -/

/-- A loop whose every step adds a stream of contributions, and which stops only when the
contributions of every step left are to finished slots, adds the whole stream. -/
theorem loop_eq_addAll {α : Type} (go : SlotCounter → Bool) (body : SlotCounter → α → SlotCounter)
    (evs : α → List (Nat × Nat)) (hbody : ∀ c x, c.Valid n → body c x = c.addAll (evs x))
    (hgo : ∀ c, c.Valid n → go c = false → ∀ x, ∀ e ∈ evs x, c.isOpen e.1 = false) :
    ∀ (xs : List α) (c : SlotCounter), c.Valid n → c.loop go body xs = c.addAll (xs.flatMap evs)
  | [], c, _ => rfl
  | x :: xs, c, h => by
    rw [loop, List.flatMap_cons, addAll_append]
    by_cases hc : go c = true
    · rw [if_pos hc, hbody c x h]
      exact loop_eq_addAll go body evs hbody hgo xs _ (h.addAll _)
    · -- the loop stops: the rest of the stream would change nothing
      rw [if_neg hc]
      have hfin := hgo c h (by simpa using hc)
      rw [addAll_of_finished (hfin x), addAll_of_finished]
      intro e he
      obtain ⟨y, -, hy⟩ := List.mem_flatMap.1 he
      exact hfin y e hy

/-! ### The loops of the profiles -/

theorem addIfOpen_eq (c : SlotCounter) (s x : Nat) :
    (if c.isOpen s then c.add s x else c) = c.addAll [(s, x)] := by
  by_cases h : c.isOpen s = true
  · rw [if_pos h]
    rfl
  · rw [if_neg h, addAll_cons, add_of_isOpen_eq_false (by simpa using h)]
    rfl

/-- What the pairs of links of `m` with each of `ms` bring to slots `three` and `two`. -/
def pairAmounts (three two : Nat) (m : Moment) (ms : List Moment) : List (Nat × Nat) :=
  (ms.map m.pairSplit).flatMap fun p => [(three, p.1), (two, p.2)]

theorem addPairsIfOpen_eq (c : SlotCounter) (three two : Nat) (m : Moment) (ms : List Moment) :
    c.addPairsIfOpen three two m ms = c.addAll (pairAmounts three two m ms) := by
  unfold addPairsIfOpen pairAmounts
  split
  · rw [addAll, List.flatMap_map, List.foldl_flatMap]
    rfl
  · -- both slots are finished, so their pairs change nothing
    rename_i h
    have hclosed : c.isOpen three = false ∧ c.isOpen two = false := by simpa [anyOpen] using h
    refine (addAll_of_finished fun e he => ?_).symm
    obtain ⟨p, -, hp⟩ := List.mem_flatMap.1 he
    simp only [List.mem_cons, List.not_mem_nil, or_false] at hp
    rcases hp with rfl | rfl
    · exact hclosed.1
    · exact hclosed.2

theorem amountsTo_pairs {three two : Nat} (h : three ≠ two) (ps : List (Nat × Nat)) (k : Nat) :
    amountsTo (ps.flatMap fun p => [(three, p.1), (two, p.2)]) k =
      if three = k then ps.map Prod.fst else if two = k then ps.map Prod.snd else [] := by
  induction ps with
  | nil => simp
  | cons p ps ih =>
    rw [List.flatMap_cons, amountsTo_append, ih]
    by_cases h3 : three = k
    · subst h3
      simp [Ne.symm h]
    · by_cases h2 : two = k
      · subst h2
        simp [h3]
      · simp [h3, h2]

theorem amountsTo_map_slot {α : Type} (s : Nat) (f : α → Nat) (xs : List α) (k : Nat) :
    amountsTo (xs.map fun x => (s, f x)) k = if s = k then xs.map f else [] := by
  induction xs with
  | nil => simp
  | cons x xs ih =>
    rw [List.map_cons, amountsTo_cons, ih]
    by_cases hs : s = k <;> simp [hs]

theorem amountsTo_pairAmounts {three two : Nat} (h : three ≠ two) (m : Moment) (ms : List Moment)
    (k : Nat) :
    amountsTo (pairAmounts three two m ms) k =
      if three = k then (ms.map m.pairSplit).map Prod.fst
      else if two = k then (ms.map m.pairSplit).map Prod.snd else [] :=
  amountsTo_pairs h _ k

end SlotCounter

open SlotCounter

namespace Flow

/-- What one step of the loop over incoming links brings, at the incoming moment `m`. -/
def inAmounts (outs : TimeIndex) (span : MaxSpan) (m : Moment) : List (Nat × Nat) :=
  pairAmounts 0 7 m (outs.slice (span.after m.time)) ++
    pairAmounts 1 8 m (outs.slice (span.before m.time)) ++
    pairAmounts 2 9 m (outs.at? m.time).toList ++
    pairAmounts 3 10 m (outs.slice (span.after m.time)) ++ [(4, m.innerPairs)]

/-- What one step of the loop over outgoing links brings, at the outgoing moment `m`. -/
def outAmounts (outs : TimeIndex) (span : MaxSpan) (m : Moment) : List (Nat × Nat) :=
  pairAmounts 5 11 m (outs.slice (span.after m.time)) ++ [(6, m.innerPairs)]

/-- What one step of the undirected loop brings, at the moment `m`. -/
def undirectedAmounts (recips : TimeIndex) (span : MaxSpan) (m : Moment) : List (Nat × Nat) :=
  pairAmounts 0 2 m (recips.slice (span.after m.time)) ++ [(1, m.innerPairs)]

theorem inStep_eq (outs : TimeIndex) (span : MaxSpan) (c : SlotCounter) (m : Moment) :
    inStep outs span c m = c.addAll (inAmounts outs span m) := by
  simp only [inStep, inAmounts, addPairsIfOpen_eq, addIfOpen_eq, addAll_append]

theorem outStep_eq (outs : TimeIndex) (span : MaxSpan) (c : SlotCounter) (m : Moment) :
    outStep outs span c m = c.addAll (outAmounts outs span m) := by
  simp only [outStep, outAmounts, addPairsIfOpen_eq, addIfOpen_eq, addAll_append]

theorem undirectedStep_eq (recips : TimeIndex) (span : MaxSpan) (c : SlotCounter) (m : Moment) :
    undirectedStep recips span c m = c.addAll (undirectedAmounts recips span m) := by
  simp only [undirectedStep, undirectedAmounts, addPairsIfOpen_eq, addIfOpen_eq, addAll_append]

/-- Stopping when the slots a loop feeds are finished skips only contributions to them. -/
theorem isOpen_of_anyOpen {slots : List Nat} {c : SlotCounter} (h : c.anyOpen slots = false)
    {s : Nat} (hs : s ∈ slots) : c.isOpen s = false := by
  simp only [anyOpen, List.any_eq_false, Bool.not_eq_true] at h
  exact h s hs

theorem slot_mem_inDriven {outs : TimeIndex} {span : MaxSpan} {m : Moment} {e : Nat × Nat}
    (he : e ∈ inAmounts outs span m) : e.1 ∈ inDriven := by
  simp only [inAmounts, pairAmounts, List.mem_append, List.mem_flatMap, List.mem_cons,
    List.not_mem_nil, or_false] at he
  rcases he with ((((⟨p, -, rfl | rfl⟩ | ⟨p, -, rfl | rfl⟩) | ⟨p, -, rfl | rfl⟩) |
    ⟨p, -, rfl | rfl⟩) | rfl) <;> simp [inDriven]

theorem slot_mem_outDriven {outs : TimeIndex} {span : MaxSpan} {m : Moment} {e : Nat × Nat}
    (he : e ∈ outAmounts outs span m) : e.1 ∈ outDriven := by
  simp only [outAmounts, pairAmounts, List.mem_append, List.mem_flatMap, List.mem_cons,
    List.not_mem_nil, or_false] at he
  rcases he with (⟨p, -, rfl | rfl⟩ | rfl) <;> simp [outDriven]

theorem slot_lt_of_undirectedAmounts {recips : TimeIndex} {span : MaxSpan} {m : Moment}
    {e : Nat × Nat} (he : e ∈ undirectedAmounts recips span m) : e.1 < 3 := by
  simp only [undirectedAmounts, pairAmounts, List.mem_append, List.mem_flatMap, List.mem_cons,
    List.not_mem_nil, or_false] at he
  rcases he with (⟨p, -, rfl | rfl⟩ | rfl) <;> simp

/-- The directed loops add what their steps bring, in order. -/
theorem directed_eq_addAll (ins outs : TimeIndex) (limits : Option Profile) (span : MaxSpan) :
    directed ins outs limits span =
      ((SlotCounter.new 12 limits).addAll
        (ins.moments.flatMap (inAmounts outs span) ++ outs.moments.flatMap (outAmounts outs span))).counts := by
  have h0 := valid_new 12 limits
  have hin := loop_eq_addAll (n := 12) (·.anyOpen inDriven) _ (inAmounts outs span)
    (fun c m _ => inStep_eq outs span c m)
    (fun c _ hgo m e he => isOpen_of_anyOpen hgo (slot_mem_inDriven he)) ins.moments _ h0
  have hout := loop_eq_addAll (n := 12) (·.anyOpen outDriven) _ (outAmounts outs span)
    (fun c m _ => outStep_eq outs span c m)
    (fun c _ hgo m e he => isOpen_of_anyOpen hgo (slot_mem_outDriven he)) outs.moments
    ((SlotCounter.new 12 limits).addAll (ins.moments.flatMap (inAmounts outs span))) (h0.addAll _)
  rw [directed, hin, hout, addAll_append]

/-- The undirected loop adds what its steps bring, in order. -/
theorem undirected_eq_addAll (recips : TimeIndex) (limits : Option Profile) (span : MaxSpan) :
    undirected recips limits span =
      ((SlotCounter.new 3 limits).addAll (recips.moments.flatMap (undirectedAmounts recips span))).counts := by
  rw [undirected, loop_eq_addAll (n := 3) _ _ (undirectedAmounts recips span)
    (fun c m _ => undirectedStep_eq recips span c m)
    (fun c h hgo _ e _ => h.isOpen_eq_false_of_allFinished (by simpa using hgo) e.1) _ _
    (valid_new 3 limits)]

theorem directed_eq_profile (ins outs : TimeIndex) (limits : Option Profile) (span : MaxSpan) :
    directed ins outs limits span = Tally.profile limits (directedSlots ins outs span) := by
  rw [directed_eq_addAll]
  refine counts_new_addAll limits (fun e he => ?_) rfl fun k hk => ?_
  · rcases List.mem_append.1 he with he | he
    · obtain ⟨m, -, he⟩ := List.mem_flatMap.1 he
      have := slot_mem_inDriven he
      simp only [inDriven, List.mem_cons, List.not_mem_nil, or_false] at this
      omega
    · obtain ⟨m, -, he⟩ := List.mem_flatMap.1 he
      have := slot_mem_outDriven he
      simp only [outDriven, List.mem_cons, List.not_mem_nil, or_false] at this
      omega
  · obtain rfl | rfl | rfl | rfl | rfl | rfl | rfl | rfl | rfl | rfl | rfl | rfl :
        k = 0 ∨ k = 1 ∨ k = 2 ∨ k = 3 ∨ k = 4 ∨ k = 5 ∨ k = 6 ∨ k = 7 ∨ k = 8 ∨ k = 9 ∨ k = 10 ∨
          k = 11 := by omega
    all_goals simp [amountsTo_flatMap, inAmounts, outAmounts, amountsTo_pairAmounts, directedSlots,
      splits, syncSplits, List.map_flatMap, List.filterMap_eq_flatMap_toList, Option.toList_map,
      ← List.map_eq_flatMap]

theorem undirected_eq_profile (recips : TimeIndex) (limits : Option Profile) (span : MaxSpan) :
    undirected recips limits span = Tally.profile limits (undirectedSlots recips span) := by
  rw [undirected_eq_addAll]
  refine counts_new_addAll limits (fun e he => ?_) rfl fun k hk => ?_
  · obtain ⟨m, -, he⟩ := List.mem_flatMap.1 he
    exact slot_lt_of_undirectedAmounts he
  · obtain rfl | rfl | rfl : k = 0 ∨ k = 1 ∨ k = 2 := by omega
    all_goals simp [amountsTo_flatMap, undirectedAmounts, amountsTo_pairAmounts, undirectedSlots,
      splits, List.map_flatMap, ← List.map_eq_flatMap]

end Flow

namespace Graph

theorem degreeStep_eq (g : Graph) (x : Nat) {c : SlotCounter} (h : c.Valid 3) (ds : Direction × Nat) :
    g.degreeStep x c ds = c.addAll ((g.indexOf x ds.1).moments.map fun m => (ds.2, m.links.length)) := by
  unfold degreeStep indexOf
  cases g.adjacency x ds.1 with
  | none => rfl
  | some ix =>
    dsimp only [Option.getD_some]
    rw [loop_eq_addAll (n := 3) _ (fun c m => c.add ds.2 m.links.length)
      (fun m : Moment => [(ds.2, m.links.length)]) (fun c m _ => rfl)
      (fun c _ hgo m e he => ?_) _ _ h, ← List.map_eq_flatMap]
    rw [List.mem_singleton] at he
    subst he
    simpa using hgo

/-- The degree profile holds, slot by slot, the capped sum of the moment sizes of its
direction. -/
theorem degree_eq_profile (g : Graph) (x : Nat) (limits : Option Profile) :
    g.degree x limits =
      Tally.profile limits (Direction.all.map fun d => (g.indexOf x d).moments.map fun m => m.links.length) := by
  rw [degree, loop_eq_addAll (n := 3) _ _
    (fun ds => (g.indexOf x ds.1).moments.map fun m => (ds.2, m.links.length))
    (fun c ds h => g.degreeStep_eq x h ds)
    (fun c h hgo _ e _ => h.isOpen_eq_false_of_allFinished (by simpa using hgo) e.1) _ _
    (valid_new 3 limits)]
  refine counts_new_addAll limits (fun e he => ?_) rfl fun k hk => ?_
  · obtain ⟨ds, hds, he⟩ := List.mem_flatMap.1 he
    obtain ⟨m, -, rfl⟩ := List.mem_map.1 he
    simp only [Direction.all, List.zipIdx_cons, List.zipIdx_nil, List.mem_cons, List.not_mem_nil,
      or_false] at hds
    rcases hds with rfl | rfl | rfl <;> simp
  · obtain rfl | rfl | rfl : k = 0 ∨ k = 1 ∨ k = 2 := by omega
    all_goals simp [amountsTo_map_slot, Direction.all]

/-- The flow profile holds, slot by slot, the capped sum of the slot's contributions. -/
theorem flow_eq_profile (g : Graph) (x : Nat) (limits : Option Profile) (span : MaxSpan) :
    g.flow x limits span =
      Tally.profile limits
        (if g.directed then
          Flow.directedSlots (g.indexOf x .incoming) (g.indexOf x .outgoing) span
        else Flow.undirectedSlots (g.indexOf x .reciprocal) span) := by
  unfold flow
  split
  · exact Flow.directed_eq_profile _ _ _ _
  · exact Flow.undirected_eq_profile _ _ _

end Graph

end TemporalMotif
