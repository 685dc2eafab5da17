import TemporalMotif.Time.Window

/-! # Time indices

A node's time index groups the edges at the node by timestamp. It is a list of moments in
strictly increasing time, an invariant the type carries; a moment lists `(neighbour, edge)`
links in the order the neighbours first arrived. Linking a neighbour that a moment already has
replaces its edge in place, so a later parallel edge with the same timestamp shadows the
earlier one.

A slice of an index by a window is a range query: the moments past the window's lower end, up
to its upper end, and nothing for a window that is not well formed. The range query itself
fails on crossed ends, which a well-formed window never has. -/

namespace TemporalMotif

/-- The links of one node to its neighbours: `(neighbour, edge)` pairs, one per neighbour. -/
abbrev Links := List (Nat × Nat)

namespace Links

/-- Links `nbr` through edge `e`, replacing the edge of an existing link in place. -/
def link : Links → Nat → Nat → Links
  | [], nbr, e => [(nbr, e)]
  | (n, f) :: ls, nbr, e => if n = nbr then (n, e) :: ls else (n, f) :: link ls nbr e

/-- The edge that links to `nbr`, if any. -/
def edgeTo? (ls : Links) (nbr : Nat) : Option Nat := ls.lookup nbr

/-- Some link goes to `nbr`. -/
def hasNeighbour (ls : Links) (nbr : Nat) : Bool := ls.any (·.1 == nbr)

end Links

/-- All links of a node at one timestamp. -/
structure Moment where
  time : Int
  links : Links
deriving DecidableEq, Repr

/-- A node's moments in strictly increasing time. -/
structure TimeIndex where
  moments : List Moment
  increasing : moments.Pairwise fun a b => a.time < b.time

namespace TimeIndex

/-- The index without moments. -/
def empty : TimeIndex := ⟨[], List.Pairwise.nil⟩

/-- Replaces the links at time `t` by `f` of the links there (none if `t` has no moment),
adding the moment in its place. -/
def alter : List Moment → Int → (Option Links → Links) → List Moment
  | [], t, f => [⟨t, f none⟩]
  | m :: ms, t, f =>
    if m.time = t then ⟨t, f (some m.links)⟩ :: ms
    else if t < m.time then ⟨t, f none⟩ :: m :: ms
    else m :: alter ms t f

theorem time_mem_alter {ms : List Moment} {t : Int} {f : Option Links → Links} {m : Moment}
    (h : m ∈ alter ms t f) : m.time = t ∨ ∃ m' ∈ ms, m'.time = m.time := by
  induction ms with
  | nil => simp [alter] at h; simp [h]
  | cons a ms ih =>
    simp only [alter] at h
    split at h
    · rcases List.mem_cons.1 h with rfl | h
      · exact Or.inl rfl
      · exact Or.inr ⟨m, List.mem_cons_of_mem _ h, rfl⟩
    · split at h
      · rcases List.mem_cons.1 h with rfl | h
        · exact Or.inl rfl
        · exact Or.inr ⟨m, h, rfl⟩
      · rcases List.mem_cons.1 h with rfl | h
        · exact Or.inr ⟨m, List.mem_cons_self, rfl⟩
        · rcases ih h with h | ⟨m', hm', he⟩
          · exact Or.inl h
          · exact Or.inr ⟨m', List.mem_cons_of_mem _ hm', he⟩

theorem pairwise_alter {ms : List Moment} (t : Int) (f : Option Links → Links)
    (h : ms.Pairwise fun a b => a.time < b.time) :
    (alter ms t f).Pairwise fun a b => a.time < b.time := by
  induction ms with
  | nil => simp [alter]
  | cons a ms ih =>
    rw [List.pairwise_cons] at h
    simp only [alter]
    split
    · rename_i hat
      refine List.pairwise_cons.2 ⟨fun x hx => ?_, h.2⟩
      rw [← hat]; exact h.1 x hx
    · split
      · rename_i _ hta
        refine List.pairwise_cons.2 ⟨fun x hx => ?_, List.pairwise_cons.2 h⟩
        rcases List.mem_cons.1 hx with rfl | hx
        · exact hta
        · exact Int.lt_trans hta (h.1 x hx)
      · rename_i hat hta
        refine List.pairwise_cons.2 ⟨fun x hx => ?_, ih h.2⟩
        rcases time_mem_alter hx with hx | ⟨m', hm', he⟩
        · rw [hx]; omega
        · rw [← he]; exact h.1 m' hm'

/-- Records a link to `nbr` through edge `e` at time `t`. -/
def link (ix : TimeIndex) (t : Int) (nbr e : Nat) : TimeIndex :=
  let f : Option Links → Links := fun
    | none => [(nbr, e)]
    | some ls => ls.link nbr e
  ⟨alter ix.moments t f, pairwise_alter t f ix.increasing⟩

/-- Adds an empty moment at `t` unless one is there. -/
def touch (ix : TimeIndex) (t : Int) : TimeIndex :=
  let f : Option Links → Links := fun
    | none => []
    | some ls => ls
  ⟨alter ix.moments t f, pairwise_alter t f ix.increasing⟩

/-- An index holding the given times, each with no link. -/
def ofTimes (ts : List Int) : TimeIndex := ts.foldl touch empty

/-- The moment at time `t`, if any. -/
def at? (ix : TimeIndex) (t : Int) : Option Moment := ix.moments.find? (·.time == t)

/-- An ordered map's range query between the ends of `w`: the moments past the lower end, up to
the upper end, or no answer where the query fails on its ends. -/
def range? (ix : TimeIndex) (w : Window) : Option (List Moment) :=
  if w.rangeAccepts then
    some ((ix.moments.dropWhile fun m => !w.lower.admitsAbove m.time).takeWhile
      fun m => w.upper.admitsBelow m.time)
  else none

/-- The moments whose time lies in `w`, in increasing time, by a range query; none when `w` is
not well formed. -/
def slice (ix : TimeIndex) (w : Window) : List Moment :=
  if w.isValid then (ix.range? w).getD [] else []

/-- On moments in increasing time, dropping those below an upward-closed test keeps exactly
those that pass it. -/
theorem dropWhile_eq_filter {p : Int → Bool} (hp : ∀ s t, s ≤ t → p s = true → p t = true)
    {ms : List Moment} (h : ms.Pairwise fun a b => a.time < b.time) :
    ms.dropWhile (fun m => !p m.time) = ms.filter (fun m => p m.time) := by
  induction ms with
  | nil => rfl
  | cons a r ih =>
    rw [List.pairwise_cons] at h
    by_cases ha : p a.time = true
    · have hr : r.filter (fun m => p m.time) = r :=
        List.filter_eq_self.2 fun m hm => hp _ _ (Int.le_of_lt (h.1 m hm)) ha
      simp [ha, hr]
    · simp [ha, ih h.2]

/-- On moments in increasing time, taking those under a downward-closed test keeps exactly
those that pass it. -/
theorem takeWhile_eq_filter {p : Int → Bool} (hp : ∀ s t, s ≤ t → p t = true → p s = true)
    {ms : List Moment} (h : ms.Pairwise fun a b => a.time < b.time) :
    ms.takeWhile (fun m => p m.time) = ms.filter (fun m => p m.time) := by
  induction ms with
  | nil => rfl
  | cons a r ih =>
    rw [List.pairwise_cons] at h
    by_cases ha : p a.time = true
    · simp [ha, ih h.2]
    · have hr : r.filter (fun m => p m.time) = [] :=
        List.filter_eq_nil_iff.2 fun m hm hpm => ha (hp _ _ (Int.le_of_lt (h.1 m hm)) hpm)
      simp [ha, hr]

/-- A slice holds exactly the moments whose time lies in the window, in increasing time. -/
theorem slice_eq_filter (ix : TimeIndex) (w : Window) :
    ix.slice w = ix.moments.filter (fun m => w.contains m.time) := by
  unfold slice
  split
  · rename_i hv
    rw [range?, if_pos (Window.rangeAccepts_of_isValid hv), Option.getD_some,
      dropWhile_eq_filter (Endpoint.admitsAbove_mono w.lower) ix.increasing,
      takeWhile_eq_filter (Endpoint.admitsBelow_anti w.upper) (ix.increasing.filter _), List.filter_filter]
    simp [Window.contains, Bool.and_comm]
  · rename_i hv
    refine (List.filter_eq_nil_iff.2 fun m _ hm => ?_).symm
    rw [Window.contains_eq_false_of_not_isValid (by simpa using hv)] at hm
    exact Bool.false_ne_true hm

/-- The timestamps of the index, increasing. -/
def times (ix : TimeIndex) : List Int := ix.moments.map (·.time)

/-- Some moment links to `nbr`. -/
def hasNeighbour (ix : TimeIndex) (nbr : Nat) : Bool := ix.moments.any (·.links.hasNeighbour nbr)

end TimeIndex

end TemporalMotif
