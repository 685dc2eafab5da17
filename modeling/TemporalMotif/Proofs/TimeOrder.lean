import Mathlib.Data.List.MinMax
import TemporalMotif.Match.Search
import TemporalMotif.Proofs.Order

/-!
# The window of an edge state

When edge state `i` is bound, its time must compare with the times bound so far as the query
times compare, and stay within the maximum span of each of them. The search checks this against
two earlier states only, those its bound names, and through a window widened by the span's
slack. The main statement, `window_contains_iff`, says that this window admits exactly the
times that keep both conditions, for timestamps and spans in the signed 64-bit range.

`TimeBound.Brackets` says what a bound has to name for this; `ofPrefix_brackets` shows that
the bound table names it. `TimeBound.table_names_closest` says more: each bound names exactly the
last earlier state of the closest earlier time on each side.
-/

namespace TemporalMotif

namespace TimeBound

/-- Bound `b` brackets the time `qt i` of edge state `i` among the earlier times `qt j`: its
lower state has the latest earlier time not above it, its upper state the earliest not below
it, a missing side has no such time, and a time met before is named on both sides at once. -/
structure Brackets (qt : Nat → Int) (i : Nat) (b : TimeBound) : Prop where
  lower_some : ∀ l, b.lower = some l → l < i ∧ qt l ≤ qt i ∧ ∀ j < i, qt j ≤ qt i → qt j ≤ qt l
  upper_some : ∀ u, b.upper = some u → u < i ∧ qt i ≤ qt u ∧ ∀ j < i, qt i ≤ qt j → qt u ≤ qt j
  lower_none : b.lower = none → ∀ j < i, qt i < qt j
  upper_none : b.upper = none → ∀ j < i, qt j < qt i
  same : ∀ j < i, qt j = qt i → b.lower = b.upper

theorem mem_take_iff {times : List Int} {i : Nat} (hi : i ≤ times.length) (y : Int) :
    y ∈ times.take i ↔ ∃ j < i, times.getD j 0 = y := by
  rw [List.mem_take_iff_getElem]
  constructor
  · rintro ⟨j, hj, rfl⟩
    have hj' : j < i := by simp at hj; omega
    exact ⟨j, hj', by simp [List.getD_eq_getElem?_getD, List.getElem?_eq_getElem (by omega : j < times.length)]⟩
  · rintro ⟨j, hj, rfl⟩
    refine ⟨j, by simp; omega, ?_⟩
    simp [List.getD_eq_getElem?_getD, List.getElem?_eq_getElem (by omega : j < times.length)]

theorem lastWith_eq_some {times : List Int} {i l : Nat} {t : Int} (h : lastWith times i t = some l) :
    l < i ∧ times.getD l 0 = t := by
  unfold lastWith at h
  obtain ⟨⟨x, l'⟩, hp, rfl⟩ := Option.map_eq_some_iff.1 h
  have hmem := List.mem_filter.1 (List.mem_of_getLast? hp)
  rw [List.mem_zipIdx_iff_getElem?, List.getElem?_take] at hmem
  obtain ⟨hx, hxt⟩ := hmem
  split at hx
  · rename_i hl
    refine ⟨hl, ?_⟩
    simpa [List.getD_eq_getElem?_getD, hx] using hxt
  · cases hx

theorem lastWith_isSome {times : List Int} {i : Nat} {t : Int} (h : t ∈ times.take i) :
    (lastWith times i t).isSome := by
  unfold lastWith
  obtain ⟨j, hj⟩ := List.mem_iff_getElem?.1 h
  have hmem : (t, j) ∈ (times.take i).zipIdx.filter (·.1 == t) :=
    List.mem_filter.2 ⟨List.mem_zipIdx_iff_getElem?.2 hj, by simp⟩
  cases hl : ((times.take i).zipIdx.filter (·.1 == t)).getLast? with
  | none => rw [List.getLast?_eq_none_iff] at hl; rw [hl] at hmem; cases hmem
  | some p => rfl

section Prefix

variable {times : List Int} {i : Nat}

/-- The lower state of a time not met before has the latest earlier time below it. -/
theorem lower_brackets (hi : i < times.length) (hne : ∀ j < i, times.getD j 0 ≠ times.getD i 0) :
    (∀ l, ((times.take i).filter (· < times.getD i 0)).max?.bind (lastWith times i) = some l →
      l < i ∧ times.getD l 0 ≤ times.getD i 0 ∧
        ∀ j < i, times.getD j 0 ≤ times.getD i 0 → times.getD j 0 ≤ times.getD l 0) ∧
    (((times.take i).filter (· < times.getD i 0)).max?.bind (lastWith times i) = none →
      ∀ j < i, times.getD i 0 < times.getD j 0) := by
  have hmem := mem_take_iff (Nat.le_of_lt hi)
  cases hb : ((times.take i).filter (· < times.getD i 0)).max? with
  | none =>
    rw [List.max?_eq_none_iff, List.filter_eq_nil_iff] at hb
    refine ⟨fun l h => (nomatch h), fun _ j hj => ?_⟩
    have := hb _ ((hmem _).2 ⟨j, hj, rfl⟩)
    have := hne j hj
    simp only [decide_eq_true_eq, not_lt] at *
    omega
  | some b =>
    obtain ⟨hbmem, hbmax⟩ := List.max?_eq_some_iff.1 hb
    obtain ⟨hbtake, hblt⟩ := List.mem_filter.1 hbmem
    obtain ⟨l, hl⟩ := Option.isSome_iff_exists.1 (lastWith_isSome hbtake)
    obtain ⟨hli, hlb⟩ := lastWith_eq_some hl
    simp only [Option.bind_some, hl, Option.some.injEq, reduceCtorEq, false_implies, and_true]
    rintro l' rfl
    simp only [decide_eq_true_eq] at hblt
    refine ⟨hli, by omega, fun j hj hle => ?_⟩
    have hlt : times.getD j 0 < times.getD i 0 := lt_of_le_of_ne hle (hne j hj)
    rw [hlb]
    exact hbmax _ (List.mem_filter.2 ⟨(hmem _).2 ⟨j, hj, rfl⟩, by simpa using hlt⟩)

/-- The upper state of a time not met before has the earliest earlier time above it. -/
theorem upper_brackets (hi : i < times.length) (hne : ∀ j < i, times.getD j 0 ≠ times.getD i 0) :
    (∀ u, ((times.take i).filter (times.getD i 0 < ·)).min?.bind (lastWith times i) = some u →
      u < i ∧ times.getD i 0 ≤ times.getD u 0 ∧
        ∀ j < i, times.getD i 0 ≤ times.getD j 0 → times.getD u 0 ≤ times.getD j 0) ∧
    (((times.take i).filter (times.getD i 0 < ·)).min?.bind (lastWith times i) = none →
      ∀ j < i, times.getD j 0 < times.getD i 0) := by
  have hmem := mem_take_iff (Nat.le_of_lt hi)
  cases hb : ((times.take i).filter (times.getD i 0 < ·)).min? with
  | none =>
    rw [List.min?_eq_none_iff, List.filter_eq_nil_iff] at hb
    refine ⟨fun u h => (nomatch h), fun _ j hj => ?_⟩
    have := hb _ ((hmem _).2 ⟨j, hj, rfl⟩)
    have := hne j hj
    simp only [decide_eq_true_eq, not_lt] at *
    omega
  | some b =>
    obtain ⟨hbmem, hbmin⟩ := List.min?_eq_some_iff.1 hb
    obtain ⟨hbtake, hblt⟩ := List.mem_filter.1 hbmem
    obtain ⟨u, hu⟩ := Option.isSome_iff_exists.1 (lastWith_isSome hbtake)
    obtain ⟨hui, hub⟩ := lastWith_eq_some hu
    simp only [Option.bind_some, hu, Option.some.injEq, reduceCtorEq, false_implies, and_true]
    rintro u' rfl
    simp only [decide_eq_true_eq] at hblt
    refine ⟨hui, by omega, fun j hj hle => ?_⟩
    have hlt : times.getD i 0 < times.getD j 0 := lt_of_le_of_ne hle (hne j hj).symm
    rw [hub]
    exact hbmin _ (List.mem_filter.2 ⟨(hmem _).2 ⟨j, hj, rfl⟩, by simpa using hlt⟩)

/-- The bound of each edge state brackets its time among the earlier ones. -/
theorem ofPrefix_brackets (hi : i < times.length) :
    Brackets (fun j => times.getD j 0) i (ofPrefix times i (times.getD i 0)) := by
  unfold ofPrefix
  dsimp only
  by_cases hc : (times.take i).contains (times.getD i 0) = true
  · -- a time met before: both sides name the last state that has it
    rw [if_pos hc]
    obtain ⟨l, hl⟩ := Option.isSome_iff_exists.1 (lastWith_isSome (List.contains_iff_mem.1 hc))
    obtain ⟨hli, hlt⟩ := lastWith_eq_some hl
    rw [hl]
    refine ⟨?_, ?_, fun h => (nomatch h), fun h => (nomatch h), fun _ _ _ => rfl⟩
    · rintro l' ⟨⟩
      exact ⟨hli, le_of_eq hlt, fun j _ hj => by rw [hlt]; exact hj⟩
    · rintro u' ⟨⟩
      exact ⟨hli, ge_of_eq hlt, fun j _ hj => by rw [hlt]; exact hj⟩
  · rw [if_neg hc]
    have hne : ∀ j < i, times.getD j 0 ≠ times.getD i 0 := fun j hj heq =>
      hc (List.contains_iff_mem.2 ((mem_take_iff (Nat.le_of_lt hi) _).2 ⟨j, hj, heq⟩))
    obtain ⟨hls, hln⟩ := lower_brackets hi hne
    obtain ⟨hus, hun⟩ := upper_brackets hi hne
    exact ⟨hls, hus, hln, hun, fun j hj heq => absurd heq (hne j hj)⟩

/-- The bound table gives each edge state the bound of its time among the earlier ones. -/
theorem getD_table (hi : i < times.length) :
    (table times).toArray.getD i ⟨none, none⟩ = ofPrefix times i (times.getD i 0) := by
  have hi' : i < (table times).length := by simp [table, hi]
  rw [Array.getD_eq_getD_getElem?, List.getElem?_toArray, List.getElem?_eq_getElem hi']
  simp [table, List.getElem_zipIdx, List.getD_eq_getElem?_getD, List.getElem?_eq_getElem hi]

end Prefix

section Closest

variable {times : List Int} {i : Nat}

theorem le_of_lastWith_eq_some (hi : i ≤ times.length) {t : Int} {l : Nat}
    (h : lastWith times i t = some l) {k : Nat} (hk : k < i) (hkt : times.getD k 0 = t) :
    k ≤ l := by
  unfold lastWith at h
  obtain ⟨⟨x, l'⟩, hp, rfl⟩ := Option.map_eq_some_iff.1 h
  obtain ⟨ys, hys⟩ := List.getLast?_eq_some_iff.1 hp
  -- the scanned pairs come by increasing state, so the last one has the greatest state
  have hsorted := (MatchingOrder.pairwise_zipIdx_lt (times.take i)).filter (·.1 == t)
  have hmem : (t, k) ∈ (times.take i).zipIdx.filter (·.1 == t) := by
    refine List.mem_filter.2 ⟨List.mem_zipIdx_iff_getElem?.2 ?_, by simp⟩
    rw [List.getElem?_take, if_pos hk, List.getElem?_eq_getElem (by omega)]
    simpa [List.getD_eq_getElem?_getD, List.getElem?_eq_getElem (by omega : k < times.length)] using hkt
  rw [hys] at hsorted hmem
  rcases List.mem_append.1 hmem with hys' | hlast
  · exact Nat.le_of_lt ((List.pairwise_append.1 hsorted).2.2 _ hys' _ List.mem_cons_self)
  · simp only [List.mem_singleton, Prod.mk.injEq] at hlast
    exact Nat.le_of_eq hlast.2

theorem lastWith_eq_some_iff (hi : i ≤ times.length) {t : Int} {l : Nat} :
    lastWith times i t = some l ↔ IsGreatest {k | k < i ∧ times.getD k 0 = t} l := by
  have greatest : ∀ {l}, lastWith times i t = some l → IsGreatest {k | k < i ∧ times.getD k 0 = t} l :=
    fun h => ⟨lastWith_eq_some h, fun k hk => le_of_lastWith_eq_some hi h hk.1 hk.2⟩
  refine ⟨greatest, fun h => ?_⟩
  obtain ⟨l', hl'⟩ := Option.isSome_iff_exists.1 (lastWith_isSome ((mem_take_iff hi t).2 ⟨l, h.1⟩))
  rw [hl', (greatest hl').unique h]

/-- Looking up the last state of an earlier time, when there is one. -/
theorem bind_lastWith_eq_some_iff (hi : i ≤ times.length) (m? : Option Int) (l : Nat) :
    m?.bind (lastWith times i) = some l ↔
      ∃ m, m? = some m ∧ IsGreatest {k | k < i ∧ times.getD k 0 = m} l := by
  rw [Option.bind_eq_some_iff]
  exact exists_congr fun m => and_congr_right fun _ => lastWith_eq_some_iff hi

theorem bind_lastWith_eq_none_iff {m? : Option Int} (hm : ∀ m, m? = some m → m ∈ times.take i) :
    m?.bind (lastWith times i) = none ↔ m? = none := by
  cases m? with
  | none => simp
  | some m =>
    obtain ⟨l, hl⟩ := Option.isSome_iff_exists.1 (lastWith_isSome (hm m rfl))
    simp [hl]

theorem max?_filter_eq_some_iff (hi : i ≤ times.length) {t m : Int} :
    ((times.take i).filter (· < t)).max? = some m ↔
      IsGreatest {u | ∃ k < i, times.getD k 0 = u ∧ u < t} m := by
  rw [List.max?_eq_some_iff]
  simp only [List.mem_filter, mem_take_iff hi, decide_eq_true_eq]
  constructor
  · rintro ⟨⟨⟨k, hk, rfl⟩, hlt⟩, hmax⟩
    exact ⟨⟨k, hk, rfl, hlt⟩, fun u ⟨k', hk', hu, hut⟩ => hmax u ⟨⟨k', hk', hu⟩, hut⟩⟩
  · rintro ⟨⟨k, hk, rfl, hlt⟩, hmax⟩
    exact ⟨⟨⟨k, hk, rfl⟩, hlt⟩, fun u ⟨⟨k', hk', hu⟩, hut⟩ => hmax ⟨k', hk', hu, hut⟩⟩

theorem min?_filter_eq_some_iff (hi : i ≤ times.length) {t m : Int} :
    ((times.take i).filter (t < ·)).min? = some m ↔
      IsLeast {u | ∃ k < i, times.getD k 0 = u ∧ t < u} m := by
  rw [List.min?_eq_some_iff]
  simp only [List.mem_filter, mem_take_iff hi, decide_eq_true_eq]
  constructor
  · rintro ⟨⟨⟨k, hk, rfl⟩, hlt⟩, hmin⟩
    exact ⟨⟨k, hk, rfl, hlt⟩, fun u ⟨k', hk', hu, hut⟩ => hmin u ⟨⟨k', hk', hu⟩, hut⟩⟩
  · rintro ⟨⟨k, hk, rfl, hlt⟩, hmin⟩
    exact ⟨⟨⟨k, hk, rfl⟩, hlt⟩, fun u ⟨⟨k', hk', hu⟩, hut⟩ => hmin ⟨k', hk', hu, hut⟩⟩

theorem getElem?_table (hi : i < times.length) :
    (table times)[i]? = some (ofPrefix times i (times.getD i 0)) := by
  simp [table, List.getD_eq_getElem?_getD, List.getElem?_eq_getElem hi]

/-- Bound `b` of edge state `s` names the closest earlier states in the times `ts`. A time that
an earlier state has is pinned on both sides to the last state that has it. A new time is bounded
below by the last state with the greatest smaller time and above by the last state with the least
larger time; a side is missing exactly when no earlier time lies on it. -/
structure NamesClosest (ts : Nat → Int) (s : Nat) (b : TimeBound) : Prop where
  repeated : (∃ k < s, ts k = ts s) →
    ∃ l, IsGreatest {k | k < s ∧ ts k = ts s} l ∧ b.lower = some l ∧ b.upper = some l
  lower_none : (¬ ∃ k < s, ts k = ts s) → (b.lower = none ↔ ¬ ∃ k < s, ts k < ts s)
  lower_some : (¬ ∃ k < s, ts k = ts s) → ∀ l, b.lower = some l ↔
    ∃ m, IsGreatest {u | ∃ k < s, ts k = u ∧ u < ts s} m ∧ IsGreatest {k | k < s ∧ ts k = m} l
  upper_none : (¬ ∃ k < s, ts k = ts s) → (b.upper = none ↔ ¬ ∃ k < s, ts s < ts k)
  upper_some : (¬ ∃ k < s, ts k = ts s) → ∀ u, b.upper = some u ↔
    ∃ m, IsLeast {v | ∃ k < s, ts k = v ∧ ts s < v} m ∧ IsGreatest {k | k < s ∧ ts k = m} u

/-- Every entry of the bound table names the closest earlier states in time. -/
theorem table_names_closest (times : List Int) {s : Nat} (hs : s < times.length) :
    ∃ b, (table times)[s]? = some b ∧ NamesClosest (fun k => times.getD k 0) s b := by
  have hle : s ≤ times.length := Nat.le_of_lt hs
  refine ⟨ofPrefix times s (times.getD s 0), getElem?_table hs, ?_⟩
  unfold ofPrefix
  by_cases hc : (times.take s).contains (times.getD s 0) = true
  · -- a time met before: both sides name the last state that has it
    have hex : ∃ k < s, times.getD k 0 = times.getD s 0 :=
      (mem_take_iff hle _).1 (List.contains_iff_mem.1 hc)
    obtain ⟨l, hl⟩ := Option.isSome_iff_exists.1 (lastWith_isSome (List.contains_iff_mem.1 hc))
    rw [if_pos hc]
    exact ⟨fun _ => ⟨l, (lastWith_eq_some_iff hle).1 hl, hl, hl⟩, fun hne => absurd hex hne,
      fun hne => absurd hex hne, fun hne => absurd hex hne, fun hne => absurd hex hne⟩
  · -- a new time: each side looks up the nearest earlier time on it
    have hne : ¬ ∃ k < s, times.getD k 0 = times.getD s 0 :=
      fun hex => hc (List.contains_iff_mem.2 ((mem_take_iff hle _).2 hex))
    have hbelow : ∀ m, ((times.take s).filter (· < times.getD s 0)).max? = some m →
        m ∈ times.take s :=
      fun m hm => (List.mem_filter.1 (List.max?_eq_some_iff.1 hm).1).1
    have habove : ∀ m, ((times.take s).filter (times.getD s 0 < ·)).min? = some m →
        m ∈ times.take s :=
      fun m hm => (List.mem_filter.1 (List.min?_eq_some_iff.1 hm).1).1
    rw [if_neg hc]
    refine ⟨fun hex => absurd hex hne, fun _ => ?_, fun _ l => ?_, fun _ => ?_, fun _ u => ?_⟩
    · rw [bind_lastWith_eq_none_iff hbelow, List.max?_eq_none_iff, List.filter_eq_nil_iff]
      simp only [mem_take_iff hle, decide_eq_true_eq]
      exact ⟨fun h ⟨k, hk, hlt⟩ => h _ ⟨k, hk, rfl⟩ hlt,
        fun h u ⟨k, hk, hu⟩ hlt => h ⟨k, hk, by rw [← hu] at hlt; exact hlt⟩⟩
    · rw [bind_lastWith_eq_some_iff hle]
      exact exists_congr fun m => and_congr_left fun _ => max?_filter_eq_some_iff hle
    · rw [bind_lastWith_eq_none_iff habove, List.min?_eq_none_iff, List.filter_eq_nil_iff]
      simp only [mem_take_iff hle, decide_eq_true_eq]
      exact ⟨fun h ⟨k, hk, hlt⟩ => h _ ⟨k, hk, rfl⟩ hlt,
        fun h u ⟨k, hk, hu⟩ hlt => h ⟨k, hk, by rw [← hu] at hlt; exact hlt⟩⟩
    · rw [bind_lastWith_eq_some_iff hle]
      exact exists_congr fun m => and_congr_left fun _ => min?_filter_eq_some_iff hle

/-- Edge states at times 20, 10, 30, 20, 25: the last one lies between the second 20 and 30. -/
theorem table_names_closest_between :
    4 < [20, 10, 30, 20, 25].length ∧ ∃ b, (table [20, 10, 30, 20, 25])[4]? = some b ∧
      NamesClosest (fun k => [20, 10, 30, 20, 25].getD k 0) 4 b :=
  ⟨by decide, table_names_closest _ (by decide)⟩

example : (table [20, 10, 30, 20, 25])[4]? = some ⟨some 3, some 2⟩ := by decide

end Closest

end TimeBound

namespace Assignment

/-- Time `x` may follow the first `i` bound times as the time of edge state `i`: it compares
with each of them as the query time `qt i` compares with theirs, and lies within the span of
each. -/
def Admits (a : Assignment) (qt : Nat → Int) (span : MaxSpan) (i : Nat) (x : Int) : Prop :=
  (∀ j < i, compare x (a.timeAt j) = compare (qt i) (qt j)) ∧
    ∀ v, span = .within v → ∀ j < i, x - a.timeAt j ≤ v ∧ a.timeAt j - x ≤ v

/-- The times bound to the first `i` edge states: timestamps, ordered as their query times
`qt` are, and each within the span of the others. -/
structure TimesFit (a : Assignment) (qt : Nat → Int) (span : MaxSpan) (i : Nat) : Prop where
  size : a.times.size = i
  order : ∀ j < i, ∀ k < i, compare (a.timeAt j) (a.timeAt k) = compare (qt j) (qt k)
  within : ∀ v, span = .within v → ∀ j < i, ∀ k < i, a.timeAt j - a.timeAt k ≤ v
  range : ∀ j < i, Stamp.InRange (a.timeAt j)

theorem mem_times_iff (a : Assignment) (y : Int) :
    y ∈ a.times.toList ↔ ∃ j < a.times.size, a.timeAt j = y := by
  rw [List.mem_iff_getElem]
  simp only [Array.length_toList, Array.getElem_toList, timeAt, Array.getD_eq_getD_getElem?]
  constructor
  · rintro ⟨j, hj, rfl⟩
    exact ⟨j, hj, by simp [hj]⟩
  · rintro ⟨j, hj, rfl⟩
    exact ⟨j, hj, by simp [hj]⟩

theorem span?_eq_none {a : Assignment} (h : a.times.size = 0) : a.span? = none := by
  have : a.times.toList = [] := by simp [Array.toList_eq_nil_iff, ← Array.size_eq_zero_iff, h]
  simp [span?, this]

/-- With a time bound, the span runs from the least bound time to the greatest. -/
theorem span?_eq_some {a : Assignment} (h : 0 < a.times.size) :
    ∃ lo hi, a.span? = some (lo, hi) ∧ (∃ j < a.times.size, a.timeAt j = lo) ∧
      (∀ j < a.times.size, lo ≤ a.timeAt j) ∧ (∃ j < a.times.size, a.timeAt j = hi) ∧
      ∀ j < a.times.size, a.timeAt j ≤ hi := by
  have hne : a.times.toList ≠ [] := by
    rw [ne_eq, Array.toList_eq_nil_iff, ← Array.size_eq_zero_iff]
    omega
  cases hlo : a.times.toList.min? with
  | none => exact absurd (List.min?_eq_none_iff.1 hlo) hne
  | some lo =>
    cases hhi : a.times.toList.max? with
    | none => exact absurd (List.max?_eq_none_iff.1 hhi) hne
    | some hi =>
      obtain ⟨hlomem, hlole⟩ := List.min?_eq_some_iff.1 hlo
      obtain ⟨hhimem, hhile⟩ := List.max?_eq_some_iff.1 hhi
      refine ⟨lo, hi, by simp [span?, hlo, hhi], (mem_times_iff a lo).1 hlomem, fun j hj => ?_,
        (mem_times_iff a hi).1 hhimem, fun j hj => ?_⟩
      · exact hlole _ ((mem_times_iff a _).2 ⟨j, hj, rfl⟩)
      · exact hhile _ ((mem_times_iff a _).2 ⟨j, hj, rfl⟩)

section Fit

variable {a : Assignment} {qt : Nat → Int} {span : MaxSpan} {i : Nat}

theorem TimesFit.le_of_le (h : a.TimesFit qt span i) {j k : Nat} (hj : j < i) (hk : k < i)
    (hq : qt j ≤ qt k) : a.timeAt j ≤ a.timeAt k := by
  by_contra hlt
  have hord := h.order j hj k hk
  rw [Int.compare_eq_gt.2 (Int.not_le.1 hlt)] at hord
  have := Int.compare_eq_gt.1 hord.symm
  omega

/-- A time below every bound time is within the span of each exactly when it is within the
span of the greatest. -/
theorem spanOk_of_below {x hi : Int} (hhi : ∃ j < i, a.timeAt j = hi) (hle : ∀ j < i, a.timeAt j ≤ hi)
    (hx : ∀ j < i, x < a.timeAt j) (hv : ∀ v, span = .within v → 0 ≤ v) :
    (∀ v, span = .within v → ∀ j < i, x - a.timeAt j ≤ v ∧ a.timeAt j - x ≤ v) ↔
      ∀ v, span = .within v → hi - v ≤ x := by
  obtain ⟨jh, hjh, rfl⟩ := hhi
  constructor
  · intro h v hs
    have := (h v hs jh hjh).2
    omega
  · intro h v hs j hj
    have := h v hs
    have := hv v hs
    have := hle j hj
    have := hx j hj
    omega

/-- A time above every bound time is within the span of each exactly when it is within the
span of the least. -/
theorem spanOk_of_above {x lo : Int} (hlo : ∃ j < i, a.timeAt j = lo) (hle : ∀ j < i, lo ≤ a.timeAt j)
    (hx : ∀ j < i, a.timeAt j < x) (hv : ∀ v, span = .within v → 0 ≤ v) :
    (∀ v, span = .within v → ∀ j < i, x - a.timeAt j ≤ v ∧ a.timeAt j - x ≤ v) ↔
      ∀ v, span = .within v → x ≤ lo + v := by
  obtain ⟨jl, hjl, rfl⟩ := hlo
  constructor
  · intro h v hs
    have := (h v hs jl hjl).1
    omega
  · intro h v hs j hj
    have := h v hs
    have := hv v hs
    have := hle j hj
    have := hx j hj
    omega

/-- A time met before is admitted exactly at the time bound to a state that has it. -/
theorem admits_iff_of_same (hfit : a.TimesFit qt span i) {l : Nat} (hl : l < i) (hq : qt l = qt i)
    (x : Int) : a.Admits qt span i x ↔ x = a.timeAt l := by
  constructor
  · rintro ⟨hord, -⟩
    have h := hord l hl
    rw [hq, show compare (qt i) (qt i) = .eq from Int.compare_eq_eq.2 rfl] at h
    exact Int.compare_eq_eq.1 h
  · rintro rfl
    refine ⟨fun j hj => ?_, fun v hs j hj => ⟨hfit.within v hs l hl j hj, hfit.within v hs j hj l hl⟩⟩
    rw [hfit.order l hl j hj, hq]

/-- A new time is admitted exactly strictly between the times bound to its two brackets. -/
theorem admits_iff_of_between (hfit : a.TimesFit qt span i) {l u : Nat} (hl : l < i) (hu : u < i)
    (hql : qt l < qt i) (hqu : qt i < qt u) (hbelow : ∀ j < i, qt j < qt i → qt j ≤ qt l)
    (habove : ∀ j < i, qt i < qt j → qt u ≤ qt j) (hne : ∀ j < i, qt j ≠ qt i) (x : Int) :
    a.Admits qt span i x ↔ a.timeAt l < x ∧ x < a.timeAt u := by
  constructor
  · rintro ⟨hord, -⟩
    have h1 := hord l hl
    have h2 := hord u hu
    rw [Int.compare_eq_gt.2 hql] at h1
    rw [Int.compare_eq_lt.2 hqu] at h2
    exact ⟨Int.compare_eq_gt.1 h1, Int.compare_eq_lt.1 h2⟩
  · rintro ⟨hxl, hxu⟩
    refine ⟨fun j hj => ?_, fun v hs j hj => ?_⟩
    · rcases lt_trichotomy (qt j) (qt i) with h | h | h
      · have := hfit.le_of_le hj hl (hbelow j hj h)
        rw [Int.compare_eq_gt.2 (by omega), Int.compare_eq_gt.2 h]
      · exact absurd h (hne j hj)
      · have := hfit.le_of_le hu hj (habove j hj h)
        rw [Int.compare_eq_lt.2 (by omega), Int.compare_eq_lt.2 h]
    · have := hfit.within v hs u hu j hj
      have := hfit.within v hs j hj l hl
      constructor <;> omega

/-- A time earlier than all bound times is admitted exactly below the earliest of them and
within the span of the latest. -/
theorem admits_iff_of_first (hfit : a.TimesFit qt span i) {u : Nat} (hu : u < i)
    (hfirst : ∀ j < i, qt i < qt j) (hmin : ∀ j < i, qt u ≤ qt j)
    (hv : ∀ v, span = .within v → 0 ≤ v) {hi : Int} (hhi : ∃ j < i, a.timeAt j = hi)
    (hle : ∀ j < i, a.timeAt j ≤ hi) (x : Int) :
    a.Admits qt span i x ↔ x < a.timeAt u ∧ ∀ v, span = .within v → hi - v ≤ x := by
  have hbelow : x < a.timeAt u → ∀ j < i, x < a.timeAt j :=
    fun hx j hj => lt_of_lt_of_le hx (hfit.le_of_le hu hj (hmin j hj))
  have horder : (∀ j < i, compare x (a.timeAt j) = compare (qt i) (qt j)) ↔ x < a.timeAt u := by
    constructor
    · intro h
      have := h u hu
      rw [Int.compare_eq_lt.2 (hfirst u hu)] at this
      exact Int.compare_eq_lt.1 this
    · intro hx j hj
      rw [Int.compare_eq_lt.2 (hfirst j hj), Int.compare_eq_lt.2 (hbelow hx j hj)]
  rw [Admits, horder]
  exact and_congr_right fun hx => spanOk_of_below hhi hle (hbelow hx) hv

/-- A time later than all bound times is admitted exactly above the latest of them and within
the span of the earliest. -/
theorem admits_iff_of_last (hfit : a.TimesFit qt span i) {l : Nat} (hl : l < i)
    (hlast : ∀ j < i, qt j < qt i) (hmax : ∀ j < i, qt j ≤ qt l)
    (hv : ∀ v, span = .within v → 0 ≤ v) {lo : Int} (hlo : ∃ j < i, a.timeAt j = lo)
    (hle : ∀ j < i, lo ≤ a.timeAt j) (x : Int) :
    a.Admits qt span i x ↔ a.timeAt l < x ∧ ∀ v, span = .within v → x ≤ lo + v := by
  have habove : a.timeAt l < x → ∀ j < i, a.timeAt j < x :=
    fun hx j hj => lt_of_le_of_lt (hfit.le_of_le hj hl (hmax j hj)) hx
  have horder : (∀ j < i, compare x (a.timeAt j) = compare (qt i) (qt j)) ↔ a.timeAt l < x := by
    constructor
    · intro h
      have := h l hl
      rw [Int.compare_eq_gt.2 (hlast l hl)] at this
      exact Int.compare_eq_gt.1 this
    · intro hx j hj
      rw [Int.compare_eq_gt.2 (hlast j hj), Int.compare_eq_gt.2 (habove hx j hj)]
  rw [Admits, horder]
  exact and_congr_right fun hx => spanOk_of_above hlo hle (habove hx) hv

theorem timeAt_of_push {x : Int} {a' : Assignment} (ha' : a'.times = a.times.push x) (j : Nat) :
    a'.timeAt j = if j = a.times.size then x else a.timeAt j := by
  simp only [timeAt, Array.getD_eq_getD_getElem?, ha', Array.getElem?_push]
  split <;> rfl

/-- Binding an admitted timestamp to the next edge state keeps the bound times fitting. -/
theorem TimesFit.push (h : a.TimesFit qt span i) (hv : ∀ v, span = .within v → 0 ≤ v) {x : Int}
    (hx : a.Admits qt span i x) (hr : Stamp.InRange x) {a' : Assignment}
    (ha' : a'.times = a.times.push x) : a'.TimesFit qt span (i + 1) := by
  have ht : ∀ j, a'.timeAt j = if j = i then x else a.timeAt j := by
    intro j; rw [timeAt_of_push ha', h.size]
  have hsplit : ∀ j, j < i + 1 → j < i ∨ j = i := fun j hj => Nat.lt_succ_iff_lt_or_eq.1 hj
  refine ⟨by rw [ha', Array.size_push, h.size], fun j hj k hk => ?_, fun v hs j hj k hk => ?_,
    fun j hj => ?_⟩
  · rcases hsplit j hj with hj | rfl <;> rcases hsplit k hk with hk | rfl
    · rw [ht, ht, if_neg (Nat.ne_of_lt hj), if_neg (Nat.ne_of_lt hk)]
      exact h.order j hj k hk
    · rw [ht, ht, if_neg (Nat.ne_of_lt hj), if_pos rfl, ← Int.compare_swap x, ← Int.compare_swap (qt k),
        hx.1 j hj]
    · rw [ht, ht, if_pos rfl, if_neg (Nat.ne_of_lt hk)]
      exact hx.1 k hk
    · rw [ht, if_pos rfl]
      exact (Int.compare_eq_eq.2 rfl).trans (Int.compare_eq_eq.2 rfl).symm
  · rw [ht, ht]
    rcases hsplit j hj with hj | rfl <;> rcases hsplit k hk with hk | rfl
    · rw [if_neg (Nat.ne_of_lt hj), if_neg (Nat.ne_of_lt hk)]
      exact h.within v hs j hj k hk
    · rw [if_neg (Nat.ne_of_lt hj), if_pos rfl]
      exact (hx.2 v hs j hj).2
    · rw [if_pos rfl, if_neg (Nat.ne_of_lt hk)]
      exact (hx.2 v hs k hk).1
    · rw [if_pos rfl, Int.sub_self]
      exact hv v hs
  · rw [ht]
    rcases hsplit j hj with hj | rfl
    · rw [if_neg (Nat.ne_of_lt hj)]
      exact h.range j hj
    · rw [if_pos rfl]
      exact hr

/-- Fitting times stay fitting when fewer states are kept. -/
theorem TimesFit.mono (h : a.TimesFit qt span i) {a' : Assignment} {m : Nat} (hm : m ≤ i)
    (hsize : a'.times.size = m) (hat : ∀ j < m, a'.timeAt j = a.timeAt j) :
    a'.TimesFit qt span m := by
  refine ⟨hsize, fun j hj k hk => ?_, fun v hs j hj k hk => ?_, fun j hj => ?_⟩
  · rw [hat j hj, hat k hk]
    exact h.order j (by omega) k (by omega)
  · rw [hat j hj, hat k hk]
    exact h.within v hs j (by omega) k (by omega)
  · rw [hat j hj]
    exact h.range j (by omega)

/-- The last of fitting times is admitted after the others. -/
theorem TimesFit.admits_of_push {x : Int} {a' : Assignment} (h : a'.TimesFit qt span (i + 1))
    (ha' : a'.times = a.times.push x) (hsize : a.times.size = i) : a.Admits qt span i x := by
  have ht : ∀ j, a'.timeAt j = if j = i then x else a.timeAt j := by
    intro j; rw [timeAt_of_push ha', hsize]
  refine ⟨fun j hj => ?_, fun v hs j hj => ⟨?_, ?_⟩⟩
  · have := h.order i (Nat.lt_succ_self i) j (by omega)
    rwa [ht, ht, if_pos rfl, if_neg (Nat.ne_of_lt hj)] at this
  · have := h.within v hs i (Nat.lt_succ_self i) j (by omega)
    rwa [ht, ht, if_pos rfl, if_neg (Nat.ne_of_lt hj)] at this
  · have := h.within v hs j (by omega) i (Nat.lt_succ_self i)
    rwa [ht, ht, if_pos rfl, if_neg (Nat.ne_of_lt hj)] at this

end Fit

end Assignment

namespace Stamp

/-- With the bound times `lo ≤ hi` inside the span `v`, the earliest time the slack leaves
open is `hi - v`, clamped to the timestamps. -/
theorem le_subSat_slack_iff {lo hi v x : Int} (hlo : InRange lo) (hhi : InRange hi) (hle : lo ≤ hi)
    (hfit : hi - lo ≤ v) (hv : InRange v) (hx : InRange x) :
    subSat lo (subSat v (subSat hi lo)) ≤ x ↔ hi - v ≤ x := by
  unfold subSat clamp
  unfold InRange least greatest at *
  omega

/-- With the bound times `lo ≤ hi` inside the span `v`, the latest time the slack leaves
open is `lo + v`, clamped to the timestamps. -/
theorem addSat_slack_le_iff {lo hi v x : Int} (hlo : InRange lo) (hhi : InRange hi) (hle : lo ≤ hi)
    (hfit : hi - lo ≤ v) (hv : InRange v) (hx : InRange x) :
    x ≤ addSat hi (subSat v (subSat hi lo)) ↔ x ≤ lo + v := by
  unfold addSat subSat clamp
  unfold InRange least greatest at *
  omega

end Stamp

namespace SearchSpace

/-- The window of edge state `i` admits exactly the timestamps that compare with the times
bound so far as the query times compare and stay within the maximum span of each, given that
its bound brackets the query time and that the bound times already do so among themselves. -/
theorem window_contains_iff (sp : SearchSpace) {a : Assignment} {qt : Nat → Int} {i : Nat}
    (hb : TimeBound.Brackets qt i (sp.bounds.getD i ⟨none, none⟩))
    (hfit : a.TimesFit qt sp.span i) (hv : ∀ v, sp.span = .within v → 0 ≤ v ∧ Stamp.InRange v)
    {x : Int} (hx : Stamp.InRange x) :
    (sp.window a i).contains x = true ↔ a.Admits qt sp.span i x := by
  rcases Nat.eq_zero_or_pos i with rfl | hpos
  · -- nothing is bound yet: every time is open
    simp only [window, windowOf, Assignment.bindings, Assignment.span?_eq_none hfit.size]
    simp [Window.all, Window.contains, Endpoint.admitsAbove, Endpoint.admitsBelow, Assignment.Admits]
  obtain ⟨lo, hi, hspan, hlo, hlole, hhi, hhile⟩ :=
    Assignment.span?_eq_some (a := a) (by rw [hfit.size]; exact hpos)
  rw [hfit.size] at hlo hlole hhi hhile
  have hv0 : ∀ v, sp.span = .within v → 0 ≤ v := fun v hs => (hv v hs).1
  simp only [window, windowOf, Assignment.bindings, hspan]
  generalize sp.bounds.getD i ⟨none, none⟩ = b at hb ⊢
  obtain ⟨lower, upper⟩ := b
  -- the range facts that make the saturating slack exact
  obtain ⟨jl, hjl, rfl⟩ := hlo
  obtain ⟨jh, hjh, rfl⟩ := hhi
  have hrlo := hfit.range jl hjl
  have hrhi := hfit.range jh hjh
  have hlohi := hlole jh hjh
  cases lower with
  | none =>
    cases upper with
    | none =>
      -- the first earlier time lies on one side of the new one
      have h1 := hb.lower_none rfl 0 hpos
      have h2 := hb.upper_none rfl 0 hpos
      omega
    | some u =>
      obtain ⟨hu, -, hmin⟩ := hb.upper_some u rfl
      have hfirst := hb.lower_none rfl
      rw [Assignment.admits_iff_of_first hfit hu hfirst
        (fun j hj => hmin j hj (le_of_lt (hfirst j hj))) hv0 ⟨jh, hjh, rfl⟩ hhile]
      cases hs : sp.span with
      | unbounded => simp [MaxSpan.slack, Window.contains, Endpoint.admitsAbove, Endpoint.admitsBelow]
      | within v =>
        obtain ⟨-, hrv⟩ := hv v hs
        have hwin := hfit.within v hs jh hjh jl hjl
        simp only [MaxSpan.slack, Window.contains, Endpoint.admitsAbove, Endpoint.admitsBelow,
          Bool.and_eq_true, decide_eq_true_eq, MaxSpan.within.injEq, forall_eq',
          Stamp.le_subSat_slack_iff hrlo hrhi hlohi hwin hrv hx]
        exact and_comm
  | some l =>
    cases upper with
    | none =>
      obtain ⟨hl, -, hmax⟩ := hb.lower_some l rfl
      have hlast := hb.upper_none rfl
      rw [Assignment.admits_iff_of_last hfit hl hlast
        (fun j hj => hmax j hj (le_of_lt (hlast j hj))) hv0 ⟨jl, hjl, rfl⟩ hlole]
      cases hs : sp.span with
      | unbounded => simp [MaxSpan.slack, Window.contains, Endpoint.admitsAbove, Endpoint.admitsBelow]
      | within v =>
        obtain ⟨-, hrv⟩ := hv v hs
        have hwin := hfit.within v hs jh hjh jl hjl
        simp only [MaxSpan.slack, Window.contains, Endpoint.admitsAbove, Endpoint.admitsBelow,
          Bool.and_eq_true, decide_eq_true_eq, MaxSpan.within.injEq, forall_eq',
          Stamp.addSat_slack_le_iff hrlo hrhi hlohi hwin hrv hx]
    | some u =>
      obtain ⟨hl, hql, hbelow⟩ := hb.lower_some l rfl
      obtain ⟨hu, hqu, habove⟩ := hb.upper_some u rfl
      by_cases hlu : l = u
      · -- a time met before: the window is that time
        subst hlu
        simp only [if_true, Window.contains_exactly, decide_eq_true_eq]
        exact (Assignment.admits_iff_of_same hfit hl (le_antisymm hql hqu) x).symm
      · -- a new time: the window lies strictly between its brackets
        have hne : ∀ j < i, qt j ≠ qt i := fun j hj heq => hlu (by simpa using hb.same j hj heq)
        have hql' : qt l < qt i := lt_of_le_of_ne hql (hne l hl)
        have hqu' : qt i < qt u := lt_of_le_of_ne hqu (hne u hu).symm
        simp only [hlu, if_false, Window.strictlyBetween, Window.contains, Endpoint.admitsAbove,
          Endpoint.admitsBelow, Bool.and_eq_true, decide_eq_true_eq]
        exact (Assignment.admits_iff_of_between hfit hl hu hql' hqu'
          (fun j hj h => hbelow j hj (le_of_lt h)) (fun j hj h => habove j hj (le_of_lt h)) hne x).symm

end SearchSpace

end TemporalMotif
