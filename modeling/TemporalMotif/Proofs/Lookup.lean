import TemporalMotif.Graph.Basic

/-! # Lookups after linking

One equation per operation: how `Links.link`, `TimeIndex.link` and `IndexTable.link`/`touch`
change the lookups `edgeTo?`, `at?` and `get?`, and what they do to the neighbours of a moment.
Every later statement about a graph's indices goes through these. -/

namespace TemporalMotif

/-- A lookup in a list of pairs with number keys, read as a test of the first key. -/
theorem lookup_cons_ite {β : Type} (a k : Nat) (b : β) (as : List (Nat × β)) :
    ((k, b) :: as).lookup a = if a = k then some b else as.lookup a := by
  have : (a == k) = decide (a = k) := rfl
  by_cases h : a = k <;> simp [List.lookup_cons, h, this]

namespace Links

/-- The neighbours that a list of links reaches, in order. -/
def nbrs (ls : Links) : List Nat := ls.map Prod.fst

@[simp] theorem nbrs_nil : nbrs [] = [] := rfl

theorem edgeTo?_link (ls : Links) (nbr e x : Nat) :
    (ls.link nbr e).edgeTo? x = if x = nbr then some e else ls.edgeTo? x := by
  induction ls with
  | nil => by_cases hx : x = nbr <;> simp [link, edgeTo?, hx]
  | cons p ls ih =>
    obtain ⟨n, f⟩ := p
    by_cases hn : n = nbr
    · subst hn
      by_cases hx : x = n <;> simp [link, edgeTo?, lookup_cons_ite, hx]
    · simp only [link, hn, if_false]
      simp only [edgeTo?] at ih ⊢
      rw [lookup_cons_ite, lookup_cons_ite, ih]
      by_cases hx : x = n
      · subst hx; simp [hn]
      · simp [hx]

theorem nbrs_link (ls : Links) (nbr e : Nat) :
    (ls.link nbr e).nbrs = if nbr ∈ ls.nbrs then ls.nbrs else ls.nbrs ++ [nbr] := by
  induction ls with
  | nil => simp [link, nbrs]
  | cons p ls ih =>
    obtain ⟨n, f⟩ := p
    by_cases hn : n = nbr
    · subst hn; simp [link, nbrs]
    · simp only [nbrs] at ih
      simp only [link, hn, if_false, nbrs, List.map_cons, ih, List.mem_cons]
      by_cases hm : nbr ∈ ls.map Prod.fst
      · simp [hm]
      · simp [hm, Ne.symm hn]

theorem edgeTo?_isSome_iff (ls : Links) (x : Nat) : (ls.edgeTo? x).isSome ↔ x ∈ ls.nbrs := by
  simp [edgeTo?, nbrs]

theorem hasNeighbour_iff (ls : Links) (x : Nat) : ls.hasNeighbour x = true ↔ x ∈ ls.nbrs := by
  simp [hasNeighbour, nbrs]

end Links

namespace TimeIndex

@[simp] theorem at?_empty (t : Int) : empty.at? t = none := rfl

theorem find?_cons_time (m : Moment) (ms : List Moment) (s : Int) :
    (m :: ms).find? (·.time == s) = if m.time = s then some m else ms.find? (·.time == s) := by
  by_cases h : m.time = s <;> simp [h]

/-- The moment at time `s` after `alter` at time `t`, on moments in increasing time. -/
theorem find?_alter {ms : List Moment} (hms : ms.Pairwise fun a b => a.time < b.time) (t s : Int)
    (f : Option Links → Links) :
    (alter ms t f).find? (·.time == s) =
      if s = t then some ⟨t, f ((ms.find? (·.time == t)).map (·.links))⟩
      else ms.find? (·.time == s) := by
  induction ms with
  | nil => by_cases hs : s = t <;> simp [alter, hs, Ne.symm]
  | cons m ms ih =>
    rw [List.pairwise_cons] at hms
    simp only [alter]
    by_cases hmt : m.time = t
    · subst hmt
      by_cases hs : s = m.time
      · subst hs; simp
      · simp [hs, Ne.symm hs]
    · by_cases htm : t < m.time
      · have hnone : ms.find? (·.time == t) = none := by
          simp only [List.find?_eq_none, beq_iff_eq]
          intro x hx hxt; have := hms.1 x hx; omega
        rw [if_neg hmt, if_pos htm, find?_cons_time, find?_cons_time, find?_cons_time]
        by_cases hs : s = t
        · subst hs; simp [hmt, hnone]
        · simp [Ne.symm hs, hs]
      · rw [if_neg hmt, if_neg htm, find?_cons_time, ih hms.2, find?_cons_time, find?_cons_time]
        by_cases hs : s = t
        · subst hs; simp [hmt]
        · by_cases hms' : m.time = s <;> simp [hms', hs]

theorem at?_link (ix : TimeIndex) (t : Int) (nbr e : Nat) (s : Int) :
    (ix.link t nbr e).at? s =
      if s = t then some ⟨t, ((ix.at? t).map (·.links)).elim [(nbr, e)] (·.link nbr e)⟩
      else ix.at? s := by
  unfold at? link
  rw [find?_alter ix.increasing]
  by_cases hs : s = t
  · cases h : ix.moments.find? (·.time == t) <;> simp [hs]
  · simp [hs]

theorem time_of_at? {ix : TimeIndex} {t : Int} {m : Moment} (h : ix.at? t = some m) :
    m.time = t := by
  simpa using List.find?_some h

theorem find?_time_of_mem {ms : List Moment} (hms : ms.Pairwise fun a b => a.time < b.time)
    {m : Moment} (hm : m ∈ ms) : ms.find? (·.time == m.time) = some m := by
  induction ms with
  | nil => simp at hm
  | cons a ms ih =>
    rw [List.pairwise_cons] at hms
    rw [find?_cons_time]
    rcases List.mem_cons.1 hm with rfl | hm
    · simp
    · rw [if_neg (Int.ne_of_lt (hms.1 m hm)), ih hms.2 hm]

/-- Times are distinct in an index, so a moment is in it exactly when it is found at its time. -/
theorem mem_moments_iff (ix : TimeIndex) (m : Moment) : m ∈ ix.moments ↔ ix.at? m.time = some m :=
  ⟨find?_time_of_mem ix.increasing, List.mem_of_find?_eq_some⟩

end TimeIndex

namespace IndexTable

@[simp] theorem get?_nil (x : Nat) : get? [] x = none := rfl

theorem get?_link (tb : IndexTable) (owner : Nat) (t : Int) (nbr e x : Nat) :
    (tb.link owner t nbr e).get? x =
      if x = owner then some (((tb.get? owner).getD TimeIndex.empty).link t nbr e) else tb.get? x := by
  induction tb with
  | nil => by_cases hx : x = owner <;> simp [link, get?, hx]
  | cons p tb ih =>
    obtain ⟨n, ix⟩ := p
    by_cases hn : n = owner
    · subst hn
      by_cases hx : x = n <;> simp [link, get?, lookup_cons_ite, hx]
    · simp only [link, hn, if_false]
      simp only [get?] at ih ⊢
      rw [lookup_cons_ite, lookup_cons_ite, ih]
      by_cases hx : x = n
      · subst hx; simp [hn]
      · simp [hx, lookup_cons_ite, Ne.symm hn]

theorem get?_touch (tb : IndexTable) (node x : Nat) :
    (tb.touch node).get? x = if x = node then some ((tb.get? node).getD TimeIndex.empty) else tb.get? x := by
  unfold touch get?
  by_cases hk : tb.any (·.1 == node) = true
  · rw [if_pos hk]
    by_cases hx : x = node
    · subst hx
      have hs : (tb.lookup x).isSome := List.lookup_isSome_iff.2 (by simpa using hk)
      obtain ⟨ix, hix⟩ := Option.isSome_iff_exists.1 hs
      simp [hix]
    · simp [hx]
  · rw [if_neg hk]
    have hnone : tb.lookup node = none := by
      rw [List.lookup_eq_none_iff]
      simp only [List.any_eq_true, beq_iff_eq, not_exists, not_and] at hk
      intro p hp
      exact bne_iff_ne.2 (Ne.symm (hk p hp))
    by_cases hx : x = node
    · subst hx; simp [List.lookup_append, hnone]
    · simp only [List.lookup_append, lookup_cons_ite, if_neg hx, List.lookup_nil, Option.or_none]

end IndexTable

end TemporalMotif
