import Mathlib
import TemporalMotif.Time.Multiset
import TemporalMotif.Match.Search

/-! # The multiset of bound times

A `TimeMultiset` stores a multiset of times as an ordered map from each time to its number of
copies, beside the number of all copies. `TimeMultiset.Holds s M` says that it stores the
multiset `M`: a time with copies maps to their number, no other time is a key, and the length
counts every copy. Each call keeps that (`Holds.insert`, `Holds.remove`), so any sequence of
calls from the empty multiset stores the multiset the calls build (`holds_ofOps`). As no key is
left whose copies are all gone, the least and the greatest key are the least and the greatest
time held. The main statement is `TimeMultiset.ofOps_models`; `Holds.span_eq_span?` says that a
multiset holding the times of an assignment has the span `Assignment.span?`. -/

namespace TemporalMotif

/-- One call on a multiset of times. -/
inductive TimeOp where
  | insert (t : Int)
  | remove (t : Int)
deriving DecidableEq, Repr

namespace TimeOp

/-- Runs one call on `s`, dropping a removal's answer. -/
def apply (s : TimeMultiset) : TimeOp → TimeMultiset
  | insert t => s.insert t
  | remove t => (s.remove t).2

/-- What one call does to a multiset of times: an insertion adds a copy, a removal deletes one
copy if there is one. -/
def step (M : Multiset Int) : TimeOp → Multiset Int
  | insert t => t ::ₘ M
  | remove t => M.erase t

/-- The multiset of times that the calls `ops` build from the empty one. -/
def contents (ops : List TimeOp) : Multiset Int := ops.foldl step 0

end TimeOp

namespace TimeMultiset

/-- The multiset of times after the calls `ops`, run from the empty one. -/
def ofOps (ops : List TimeOp) : TimeMultiset := ops.foldl TimeOp.apply empty

/-- `s` stores the multiset `M`: a time with copies in `M` maps to their number, no other time
is a key, and the length is the number of all copies. -/
structure Holds (s : TimeMultiset) (M : Multiset Int) : Prop where
  get? : ∀ t, s.counts[t]? = if 0 < M.count t then some (M.count t) else none
  len : s.len = Multiset.card M

theorem holds_empty : empty.Holds 0 :=
  ⟨fun t => by simp [empty], rfl⟩

theorem span_eq_some_iff (s : TimeMultiset) (lo hi : Int) :
    s.span = some (lo, hi) ↔ s.counts.minKey? = some lo ∧ s.counts.maxKey? = some hi := by
  simp [span, Option.bind_eq_some_iff]

section Holds

variable {s : TimeMultiset} {M : Multiset Int}

theorem Holds.mem_iff (h : s.Holds M) (t : Int) : t ∈ s.counts ↔ t ∈ M := by
  rw [Std.TreeMap.mem_iff_isSome_getElem?, h.get? t, ← Multiset.count_pos]
  split <;> simp_all

theorem Holds.get?_of_mem (h : s.Holds M) {t : Int} (ht : t ∈ M) :
    s.counts[t]? = some (M.count t) := by
  rw [h.get? t, if_pos (Multiset.count_pos.2 ht)]

theorem Holds.get?_of_not_mem (h : s.Holds M) {t : Int} (ht : t ∉ M) : s.counts[t]? = none := by
  rw [h.get? t, if_neg (by rwa [Multiset.count_pos])]

theorem Holds.getD (h : s.Holds M) (t : Int) : s.counts.getD t 0 = M.count t := by
  rw [Std.TreeMap.getD_eq_getD_getElem?]
  by_cases ht : t ∈ M
  · rw [h.get?_of_mem ht, Option.getD_some]
  · rw [h.get?_of_not_mem ht, Option.getD_none, Multiset.count_eq_zero.2 ht]

/-- The map keeps no time whose copies are all gone. -/
theorem Holds.pos (h : s.Holds M) {t : Int} {c : Nat} (hc : s.counts[t]? = some c) : 0 < c := by
  rw [h.get? t] at hc
  split at hc
  · rename_i hpos
    cases hc
    exact hpos
  · cases hc

theorem Holds.insert (h : s.Holds M) (t : Int) : (s.insert t).Holds (t ::ₘ M) := by
  refine ⟨fun k => ?_, by simp [TimeMultiset.insert, h.len]⟩
  simp only [TimeMultiset.insert, Std.TreeMap.getElem?_insert, compare_eq_iff_eq]
  by_cases hk : t = k
  · subst hk
    simp [h.getD, Multiset.count_cons_self]
  · rw [if_neg hk, h.get? k, Multiset.count_cons_of_ne (Ne.symm hk)]

/-- A removal says whether the time has a copy. -/
theorem Holds.remove_fst (h : s.Holds M) (t : Int) : (s.remove t).1 = decide (t ∈ M) := by
  by_cases ht : t ∈ M
  · simp [TimeMultiset.remove, h.get?_of_mem ht, ht]
  · simp [TimeMultiset.remove, h.get?_of_not_mem ht, ht]

/-- After removing its last copy the time is no key; with copies left it maps to one fewer. -/
theorem Holds.remove (h : s.Holds M) (t : Int) : (s.remove t).2.Holds (M.erase t) := by
  by_cases ht : t ∈ M
  · simp only [TimeMultiset.remove, h.get?_of_mem ht]
    refine ⟨fun k => ?_, by simp [h.len, Multiset.card_erase_of_mem ht]⟩
    -- only the removed time's entry changes: it goes with the last copy, else loses one
    by_cases hk : t = k
    · subst hk
      rw [Multiset.count_erase_self]
      split
      · rename_i hzero
        rw [Std.TreeMap.getElem?_erase_self, if_neg (by omega)]
      · rename_i hleft
        rw [Std.TreeMap.getElem?_insert_self, if_pos (Nat.pos_of_ne_zero hleft)]
    · have hne : compare t k ≠ .eq := by rwa [ne_eq, compare_eq_iff_eq]
      rw [Multiset.count_erase_of_ne (Ne.symm hk), ← h.get? k]
      split
      · rw [Std.TreeMap.getElem?_erase, if_neg hne]
      · rw [Std.TreeMap.getElem?_insert, if_neg hne]
  · simp only [TimeMultiset.remove, h.get?_of_not_mem ht]
    rw [Multiset.erase_of_notMem ht]
    exact h

theorem Holds.apply (h : s.Holds M) (op : TimeOp) : (op.apply s).Holds (op.step M) := by
  cases op with
  | insert t => exact h.insert t
  | remove t => exact h.remove t

theorem Holds.minKey?_eq_some_iff (h : s.Holds M) (lo : Int) :
    s.counts.minKey? = some lo ↔ lo ∈ M ∧ ∀ x ∈ M, lo ≤ x := by
  rw [Std.TreeMap.minKey?_eq_some_iff_mem_and_forall, h.mem_iff]
  simp only [h.mem_iff, Int.isLE_compare]

theorem Holds.maxKey?_eq_some_iff (h : s.Holds M) (hi : Int) :
    s.counts.maxKey? = some hi ↔ hi ∈ M ∧ ∀ x ∈ M, x ≤ hi := by
  rw [Std.TreeMap.maxKey?_eq_some_iff_mem_and_forall, h.mem_iff]
  simp only [h.mem_iff, Int.isLE_compare]

theorem Holds.span_eq_some_iff (h : s.Holds M) (lo hi : Int) :
    s.span = some (lo, hi) ↔ (lo ∈ M ∧ ∀ x ∈ M, lo ≤ x) ∧ (hi ∈ M ∧ ∀ x ∈ M, x ≤ hi) := by
  rw [TimeMultiset.span_eq_some_iff, h.minKey?_eq_some_iff, h.maxKey?_eq_some_iff]

/-- There is no span exactly when no time is held. -/
theorem Holds.span_eq_none_iff (h : s.Holds M) : s.span = none ↔ M = 0 := by
  have hmin : s.counts.minKey? = none ↔ M = 0 := by
    rw [Std.TreeMap.minKey?_eq_none_iff, Std.TreeMap.isEmpty_iff_forall_not_mem,
      Multiset.eq_zero_iff_forall_notMem]
    simp only [h.mem_iff]
  rw [← hmin]
  cases hlo : s.counts.minKey? with
  | none => simp [span, hlo]
  | some lo =>
    -- a least key makes the map non-empty, so there is a greatest key too
    have hmax : s.counts.maxKey?.isSome := by
      rw [Std.TreeMap.isSome_maxKey?_eq_not_isEmpty, ← Std.TreeMap.isSome_minKey?_eq_not_isEmpty,
        hlo]
      rfl
    obtain ⟨hi, hhi⟩ := Option.isSome_iff_exists.1 hmax
    simp [span, hlo, hhi]

end Holds

theorem Holds.foldl {s : TimeMultiset} {M : Multiset Int} (h : s.Holds M) (ops : List TimeOp) :
    (ops.foldl TimeOp.apply s).Holds (ops.foldl TimeOp.step M) := by
  induction ops generalizing s M with
  | nil => exact h
  | cons op ops ih => exact ih (h.apply op)

/-- Every sequence of calls from the empty multiset stores the multiset the calls build. -/
theorem holds_ofOps (ops : List TimeOp) : (ofOps ops).Holds (TimeOp.contents ops) :=
  holds_empty.foldl ops

/-- After any sequence of insertions and removals from the empty multiset, with `M` the multiset
they build: a removal says whether its time is in `M`, the length is the size of `M`, the span
is absent exactly when `M` is empty and is otherwise the least and the greatest time of `M`,
and the map keeps no time without copies. -/
theorem ofOps_models (ops : List TimeOp) :
    let s := ofOps ops
    let M := TimeOp.contents ops
    (∀ t, (s.remove t).1 = decide (t ∈ M)) ∧ s.len = Multiset.card M ∧
      (s.span = none ↔ M = 0) ∧
      (∀ lo hi, s.span = some (lo, hi) ↔ (lo ∈ M ∧ ∀ x ∈ M, lo ≤ x) ∧ (hi ∈ M ∧ ∀ x ∈ M, x ≤ hi)) ∧
      ∀ (t : Int) (c : Nat), s.counts[t]? = some c → 0 < c := by
  intro s M
  have h : s.Holds M := holds_ofOps ops
  exact ⟨h.remove_fst, h.len, h.span_eq_none_iff, h.span_eq_some_iff, fun _ _ => h.pos⟩

/-- A multiset that holds the times bound in an assignment has the assignment's span. -/
theorem Holds.span_eq_span? {s : TimeMultiset} {a : Assignment} (h : s.Holds ↑a.times.toList) :
    s.span = a.span? := by
  refine Option.ext ?_
  rintro ⟨lo, hi⟩
  rw [h.span_eq_some_iff]
  simp only [Multiset.mem_coe, Assignment.span?, Option.bind_eq_bind, Option.bind_eq_some_iff,
    Option.some.injEq, Prod.mk.injEq, List.min?_eq_some_iff, List.max?_eq_some_iff]
  constructor
  · rintro ⟨hlo, hhi⟩
    exact ⟨lo, hlo, hi, hhi, rfl, rfl⟩
  · rintro ⟨lo', hlo, hi', hhi, rfl, rfl⟩
    exact ⟨hlo, hhi⟩

end TimeMultiset

end TemporalMotif
