import Mathlib
import TemporalMotif.Proofs.Extension

/-!
# What the search enumerates

From the step lemmas of `Extension`, by induction over the edge states left: the depth-first
search from a consistent partial occurrence lists each of its complete extensions once and
nothing else (`mem_explore_iff`, `nodup_explore`), and over the roots of the first node state's
domain it lists every complete consistent binding of the query once (`mem_search_iff`,
`nodup_search`).
-/

namespace TemporalMotif

namespace MatchingOrder.Chain

variable {E : List OrderedEdge} {n : Nat}

theorem boundAfter_mono (hc : Chain E n) {m m' : Nat} (hmm : m ≤ m') (hm' : m' ≤ E.length) :
    boundAfter E m ≤ boundAfter E m' := by
  match m, hmm with
  | 0, _ => exact Nat.zero_le _
  | k + 1, hmm =>
    obtain ⟨oe, hoe⟩ : ∃ oe, E[k]? = some oe := ⟨_, List.getElem?_eq_getElem (by omega)⟩
    rw [boundAfter_succ hoe]
    exact hc.source_lt_boundAfter hoe (by omega) hm'

end MatchingOrder.Chain

namespace SearchSpace

variable {sp : SearchSpace} {tops : List GraphOp} {Φ Ψ : List Nat}

variable (sp) in
/-- `Φ` and `Ψ` bind the whole query consistently: every edge state, and so every node
state. -/
def Complete (Φ Ψ : List Nat) : Prop := sp.Consistent Φ Ψ ∧ Ψ.length = sp.order.edges.length

theorem states_drop {j : Nat} {oe : OrderedEdge} (h : sp.order.edges[j]? = some oe) :
    sp.states.drop j = (j, oe) :: sp.states.drop (j + 1) := by
  obtain ⟨hj, rfl⟩ := List.getElem?_eq_some_iff.1 h
  have hj' : j < sp.states.length := by simpa [states] using hj
  rw [List.drop_eq_getElem_cons hj']
  simp [states, List.getElem_zipIdx]

theorem states_drop_length : sp.states.drop sp.order.edges.length = [] := by
  simp [states]

/-- The first edge states of a consistent partial occurrence, with the node states they reach,
are consistent too. -/
theorem Consistent.take (hp : sp.Planned tops) (hc : sp.Consistent Φ Ψ) {m : Nat}
    (hm : m ≤ Ψ.length) :
    sp.Consistent (Φ.take (MatchingOrder.boundAfter sp.order.edges m)) (Ψ.take m) := by
  have hle := hc.length_le
  have hb := hp.chain.boundAfter_mono hm hle
  rw [← hc.bound] at hb
  have hgetD : ∀ {s}, s < MatchingOrder.boundAfter sp.order.edges m →
      (Φ.take (MatchingOrder.boundAfter sp.order.edges m)).getD s 0 = Φ.getD s 0 := by
    intro s hs
    simp [List.getD_eq_getElem?_getD, hs]
  refine ⟨by simp; omega, by rw [List.length_take, List.length_take, Nat.min_eq_left hm,
    Nat.min_eq_left hb], hc.nodes_nodup.sublist (List.take_sublist _ _),
    hc.edges_nodup.sublist (List.take_sublist _ _), fun s v hs => ?_, fun j e oe he hoe => ?_,
    fun j e oe he hoe => ?_, ?_⟩
  · rw [List.getElem?_take] at hs
    split at hs
    · exact hc.domain s v hs
    · cases hs
  · rw [List.getElem?_take] at he
    split at he
    · exact hc.label j e oe he hoe
    · cases he
  · rw [List.getElem?_take] at he
    split at he
    · rename_i hj
      have hsrc := hp.chain.source_lt_boundAfter hoe hj (by omega)
      have hdst := hp.chain.dest_lt oe (List.mem_of_getElem? hoe)
      rw [hgetD hsrc, hgetD (by omega)]
      exact hc.link j e oe he hoe
    · cases he
  · refine hc.times.mono (by simp) (by simp [assign]) fun j hj => ?_
    have hj' : j < m := by simp at hj; omega
    simp [timeAt_assign, hj']

/-- Two consistent partial occurrences that are prefixes of one binding and bind the same
number of edge states are one. -/
theorem eq_of_prefix_of_length_eq {Φ1 Φ2 Ψ1 Ψ2 Φ' Ψ' : List Nat} (hc1 : sp.Consistent Φ1 Ψ1)
    (hc2 : sp.Consistent Φ2 Ψ2) (h1 : Φ1 <+: Φ') (h2 : Φ2 <+: Φ') (k1 : Ψ1 <+: Ψ')
    (k2 : Ψ2 <+: Ψ') (hlen : Ψ1.length = Ψ2.length) : Φ1 = Φ2 ∧ Ψ1 = Ψ2 := by
  have hΦlen : Φ1.length = Φ2.length := by rw [hc1.bound, hc2.bound, hlen]
  exact ⟨(List.prefix_of_prefix_length_le h1 h2 (le_of_eq hΦlen)).eq_of_length hΦlen,
    (List.prefix_of_prefix_length_le k1 k2 (le_of_eq hlen)).eq_of_length hlen⟩

/-- The search from a consistent partial occurrence of at least one edge state lists exactly
its complete consistent extensions. The induction is on the number `r` of edge states left. -/
theorem mem_explore_iff (hp : sp.Planned tops) (r : Nat) :
    ∀ {Φ Ψ : List Nat}, sp.Consistent Φ Ψ → 0 < Ψ.length → Ψ.length + r = sp.order.edges.length →
      ∀ x, x ∈ sp.explore (sp.states.drop Ψ.length) (sp.assign Φ Ψ) ↔
        ∃ Φ' Ψ', sp.Complete Φ' Ψ' ∧ Φ <+: Φ' ∧ Ψ <+: Ψ' ∧ x = sp.assign Φ' Ψ' := by
  induction r with
  | zero =>
    intro Φ Ψ hc hpos hr x
    rw [Nat.add_zero] at hr
    rw [hr, states_drop_length, explore, List.mem_singleton]
    constructor
    · rintro rfl
      exact ⟨Φ, Ψ, ⟨hc, hr⟩, List.prefix_refl Φ, List.prefix_refl Ψ, rfl⟩
    · rintro ⟨Φ', Ψ', ⟨hc', hr'⟩, hΦ, hΨ, rfl⟩
      obtain ⟨rfl, rfl⟩ := eq_of_prefix_of_length_eq hc hc' hΦ (List.prefix_refl Φ') hΨ (List.prefix_refl Ψ')
        (by omega)
      rfl
  | succ r ih =>
    intro Φ Ψ hc hpos hr x
    obtain ⟨oe, hoe⟩ : ∃ oe, sp.order.edges[Ψ.length]? = some oe :=
      ⟨_, List.getElem?_eq_getElem (by omega)⟩
    have hlen : ∀ e : Nat, (Ψ ++ [e]).length = Ψ.length + 1 := fun e => by simp
    rw [states_drop hoe, explore, List.mem_flatMap]
    constructor
    · rintro ⟨c, hcand, hx⟩
      obtain ⟨Φ1, hpre1, hc1, hbind⟩ := extensions_sound hp hc hoe hpos hcand
      rw [hbind, ← hlen c.edge] at hx
      obtain ⟨Φ', Ψ', hcomp, hΦ', hΨ', rfl⟩ :=
        (ih hc1 (by simp) (by rw [hlen]; omega) x).1 hx
      exact ⟨Φ', Ψ', hcomp, hpre1.trans hΦ', (List.prefix_append Ψ [c.edge]).trans hΨ', rfl⟩
    · rintro ⟨Φ', Ψ', hcomp, hΦ', hΨ', rfl⟩
      -- cut the completion one edge state after `Ψ`, and find the candidate that binds it
      obtain ⟨t, rfl⟩ := hΨ'
      obtain ⟨e, t, rfl⟩ : ∃ e t', t = e :: t' := by
        cases t with
        | nil => have := hcomp.2; simp at this; omega
        | cons e t' => exact ⟨e, t', rfl⟩
      have hcut : (Ψ ++ e :: t).take (Ψ.length + 1) = Ψ ++ [e] := by
        rw [List.take_append, List.take_of_length_le (by omega)]
        simp
      have hc1 := hcomp.1.take hp (m := Ψ.length + 1) (by simp)
      rw [hcut] at hc1
      have hpre : Φ <+: Φ'.take (MatchingOrder.boundAfter sp.order.edges (Ψ.length + 1)) := by
        have hle := hp.chain.boundAfter_mono (Nat.le_succ Ψ.length) (by omega)
        rw [← hc.bound] at hle
        obtain ⟨u, rfl⟩ := hΦ'
        rw [List.take_append, List.take_of_length_le hle]
        exact List.prefix_append _ _
      obtain ⟨c, hcand, hbind⟩ := extensions_complete hp hc hoe hpos hc1 hpre
      refine ⟨c, hcand, ?_⟩
      have hdrop : sp.states.drop (Ψ.length + 1) = sp.states.drop (Ψ ++ [e]).length := by
        rw [hlen]
      rw [hbind, hdrop]
      exact (ih hc1 (by simp) (by rw [hlen]; omega) _).2 ⟨Φ', Ψ ++ e :: t, hcomp,
        List.take_prefix _ _, by simp, rfl⟩

/-- The search from a consistent partial occurrence lists no complete extension twice: the
candidates of a step are distinct and bind to different partial occurrences, whose
extensions differ. -/
theorem nodup_explore (hp : sp.Planned tops) (r : Nat) :
    ∀ {Φ Ψ : List Nat}, sp.Consistent Φ Ψ → 0 < Ψ.length → Ψ.length + r = sp.order.edges.length →
      (sp.explore (sp.states.drop Ψ.length) (sp.assign Φ Ψ)).Nodup := by
  induction r with
  | zero =>
    intro Φ Ψ hc hpos hr
    rw [Nat.add_zero] at hr
    rw [hr, states_drop_length, explore]
    exact List.nodup_singleton _
  | succ r ih =>
    intro Φ Ψ hc hpos hr
    obtain ⟨oe, hoe⟩ : ∃ oe, sp.order.edges[Ψ.length]? = some oe :=
      ⟨_, List.getElem?_eq_getElem (by omega)⟩
    have hlen : ∀ e : Nat, (Ψ ++ [e]).length = Ψ.length + 1 := fun e => by simp
    -- each branch is the search from the partial occurrence its candidate binds
    have hbranch : ∀ c ∈ sp.extensions (sp.assign Φ Ψ) Ψ.length oe, ∃ Φ1,
        sp.Consistent Φ1 (Ψ ++ [c.edge]) ∧
        sp.bindCandidate (sp.assign Φ Ψ) oe c = sp.assign Φ1 (Ψ ++ [c.edge]) ∧
        sp.explore (sp.states.drop (Ψ.length + 1)) (sp.bindCandidate (sp.assign Φ Ψ) oe c) =
          sp.explore (sp.states.drop (Ψ ++ [c.edge]).length) (sp.assign Φ1 (Ψ ++ [c.edge])) := by
      intro c hcand
      obtain ⟨Φ1, -, hc1, hbind⟩ := extensions_sound hp hc hoe hpos hcand
      exact ⟨Φ1, hc1, hbind, by rw [hbind, hlen]⟩
    rw [states_drop hoe, explore, List.nodup_flatMap]
    refine ⟨fun c hcand => ?_, (nodup_extensions hp hc hoe hpos).pairwise_of_forall_ne
      fun c hc1 c' hc2 hne => ?_⟩
    · obtain ⟨Φ1, hk, -, heq⟩ := hbranch c hcand
      rw [heq]
      exact ih hk (by simp) (by rw [hlen]; omega)
    · -- a complete extension in both branches would make the two candidates bind alike
      obtain ⟨Φ1, hk1, hb1, heq1⟩ := hbranch c hc1
      obtain ⟨Φ2, hk2, hb2, heq2⟩ := hbranch c' hc2
      rw [Function.onFun, heq1, heq2, List.disjoint_left]
      intro x hx1 hx2
      obtain ⟨Φ', Ψ', -, hΦ1, hΨ1, rfl⟩ :=
        (mem_explore_iff hp r hk1 (by simp) (by rw [hlen]; omega) x).1 hx1
      obtain ⟨Φ'', Ψ'', -, hΦ2, hΨ2, hx⟩ :=
        (mem_explore_iff hp r hk2 (by simp) (by rw [hlen]; omega) _).1 hx2
      obtain ⟨rfl, rfl⟩ := assign_inj hx
      obtain ⟨hΦeq, hΨeq⟩ := eq_of_prefix_of_length_eq hk1 hk2 hΦ1 hΦ2 hΨ1 hΨ2 (by simp)
      exact hne (bindCandidate_injOn hp hc hoe hpos hc1 hc2 (by rw [hb1, hb2, hΦeq, hΨeq]))

theorem exists_cons_of_getElem?_zero {first : OrderedEdge} (h0 : sp.order.edges[0]? = some first) :
    ∃ rest, sp.order.edges = first :: rest := by
  cases hE : sp.order.edges with
  | nil => rw [hE] at h0; cases h0
  | cons a rest => rw [hE] at h0; cases h0; exact ⟨rest, rfl⟩

theorem fromRoot_eq {first : OrderedEdge} (h0 : sp.order.edges[0]? = some first) (root : Nat) :
    sp.fromRoot root = (sp.starts root).flatMap fun c =>
      sp.explore (sp.states.drop [c.edge].length)
        (sp.bindCandidate (Assignment.init sp.order.nodes.length) first c) := by
  obtain ⟨rest, hE⟩ := exists_cons_of_getElem?_zero h0
  simp [fromRoot, hE, List.drop_one]

/-- From a root in the first node state's domain the search lists exactly the complete
consistent bindings that bind node state 0 to that root. -/
theorem mem_fromRoot_iff (hp : sp.Planned tops) {first : OrderedEdge}
    (h0 : sp.order.edges[0]? = some first) {root : Nat}
    (hroot : sp.domains.allows (sp.order.nodeAt 0) root = true) (x : Assignment) :
    x ∈ sp.fromRoot root ↔ ∃ Φ Ψ, sp.Complete Φ Ψ ∧ Φ[0]? = some root ∧ x = sp.assign Φ Ψ := by
  have hlenE := (List.getElem?_eq_some_iff.1 h0).1
  rw [fromRoot_eq h0, List.mem_flatMap]
  constructor
  · rintro ⟨c, hcand, hx⟩
    obtain ⟨far, e, rfl, hc1, hbind⟩ := starts_sound hp h0 hroot hcand
    rw [hbind] at hx
    obtain ⟨Φ', Ψ', hcomp, hΦ', -, rfl⟩ :=
      (mem_explore_iff hp (sp.order.edges.length - 1) hc1 (by simp) (by simp; omega) x).1 hx
    obtain ⟨u, rfl⟩ := hΦ'
    exact ⟨_, Ψ', hcomp, by simp, rfl⟩
  · rintro ⟨Φ, Ψ, hcomp, hΦ0, rfl⟩
    -- the first edge state of the binding is a candidate at its root
    obtain ⟨e, t, rfl⟩ : ∃ e t, Ψ = e :: t := by
      cases Ψ with
      | nil => have := hcomp.2; simp at this; omega
      | cons e t => exact ⟨e, t, rfl⟩
    have hc1 := hcomp.1.take hp (m := 1) (by simp)
    rw [MatchingOrder.boundAfter_succ h0, (hp.chain.first h0).2] at hc1
    simp only [List.take_succ_cons, List.take_zero] at hc1
    obtain ⟨root', far, hΦ2, c, hcand, hbind⟩ := starts_complete hp h0 hc1
    obtain rfl : root = root' := by
      have h := congrArg (·[0]?) hΦ2
      rw [List.getElem?_take, if_pos (by decide), hΦ0] at h
      simpa using h
    refine ⟨c, hcand, ?_⟩
    rw [hbind]
    exact (mem_explore_iff hp (sp.order.edges.length - 1) hc1 (by simp) (by simp; omega) _).2
      ⟨Φ, e :: t, hcomp, List.take_prefix _ _, by simp, rfl⟩

/-- No complete binding is listed twice from one root. -/
theorem nodup_fromRoot (hp : sp.Planned tops) {first : OrderedEdge}
    (h0 : sp.order.edges[0]? = some first) {root : Nat}
    (hroot : sp.domains.allows (sp.order.nodeAt 0) root = true) : (sp.fromRoot root).Nodup := by
  have hlenE := (List.getElem?_eq_some_iff.1 h0).1
  rw [fromRoot_eq h0, List.nodup_flatMap]
  refine ⟨fun c hcand => ?_, (nodup_starts hp h0 root).pairwise_of_forall_ne
    fun c hc1 c' hc2 hne => ?_⟩
  · obtain ⟨far, e, rfl, hk, hbind⟩ := starts_sound hp h0 hroot hcand
    rw [hbind]
    exact nodup_explore hp (sp.order.edges.length - 1) hk (by simp) (by simp; omega)
  · obtain ⟨far, e, rfl, hk1, hb1⟩ := starts_sound hp h0 hroot hc1
    obtain ⟨far', e', rfl, hk2, hb2⟩ := starts_sound hp h0 hroot hc2
    rw [Function.onFun, hb1, hb2, List.disjoint_left]
    intro x hx1 hx2
    obtain ⟨Φ', Ψ', -, hΦ1, hΨ1, rfl⟩ :=
      (mem_explore_iff hp (sp.order.edges.length - 1) hk1 (by simp) (by simp; omega) x).1 hx1
    obtain ⟨Φ'', Ψ'', -, hΦ2, hΨ2, hx⟩ :=
      (mem_explore_iff hp (sp.order.edges.length - 1) hk2 (by simp) (by simp; omega) _).1 hx2
    obtain ⟨rfl, rfl⟩ := assign_inj hx
    obtain ⟨hΦeq, hΨeq⟩ := eq_of_prefix_of_length_eq hk1 hk2 hΦ1 hΦ2 hΨ1 hΨ2 rfl
    simp only [List.cons.injEq, and_true, true_and] at hΦeq hΨeq
    rw [hΦeq, hΨeq] at hne
    exact hne rfl

/-- Over the roots of the first node state's domain, the search lists exactly the complete
consistent bindings of the query. -/
theorem mem_search_iff (hp : sp.Planned tops) (hne : sp.order.edges ≠ []) {roots : List Nat}
    (hroots : ∀ v, v ∈ roots ↔ sp.domains.allows (sp.order.nodeAt 0) v = true) (x : Assignment) :
    x ∈ sp.search roots ↔ ∃ Φ Ψ, sp.Complete Φ Ψ ∧ x = sp.assign Φ Ψ := by
  obtain ⟨first, h0⟩ : ∃ first, sp.order.edges[0]? = some first :=
    ⟨_, List.getElem?_eq_getElem (List.length_pos_iff.2 hne)⟩
  simp only [search, List.mem_flatMap]
  constructor
  · rintro ⟨root, hroot, hx⟩
    obtain ⟨Φ, Ψ, hcomp, -, rfl⟩ := (mem_fromRoot_iff hp h0 ((hroots root).1 hroot) x).1 hx
    exact ⟨Φ, Ψ, hcomp, rfl⟩
  · rintro ⟨Φ, Ψ, hcomp, rfl⟩
    -- the binding's root is the target node of node state 0
    have hlen : 0 < Φ.length := by
      rw [hcomp.1.bound, hcomp.2, MatchingOrder.Chain.boundAfter_length hp.chain hne]
      have := hp.chain.source_lt first (List.mem_of_getElem? h0)
      omega
    have hΦ0 := getElem?_eq_some_getD hlen
    have hroot := hcomp.1.domain 0 _ hΦ0
    exact ⟨_, (hroots _).2 hroot, (mem_fromRoot_iff hp h0 hroot _).2 ⟨Φ, Ψ, hcomp, hΦ0, rfl⟩⟩

/-- Over distinct roots, the search lists no complete binding twice. -/
theorem nodup_search (hp : sp.Planned tops) (hne : sp.order.edges ≠ []) {roots : List Nat}
    (hnd : roots.Nodup)
    (hroots : ∀ v, v ∈ roots ↔ sp.domains.allows (sp.order.nodeAt 0) v = true) :
    (sp.search roots).Nodup := by
  obtain ⟨first, h0⟩ : ∃ first, sp.order.edges[0]? = some first :=
    ⟨_, List.getElem?_eq_getElem (List.length_pos_iff.2 hne)⟩
  rw [search, List.nodup_flatMap]
  refine ⟨fun root hroot => nodup_fromRoot hp h0 ((hroots root).1 hroot),
    hnd.pairwise_of_forall_ne fun r1 h1 r2 h2 hne12 => ?_⟩
  rw [Function.onFun, List.disjoint_left]
  intro x hx1 hx2
  obtain ⟨Φ, Ψ, -, hΦ1, rfl⟩ := (mem_fromRoot_iff hp h0 ((hroots r1).1 h1) x).1 hx1
  obtain ⟨Φ', Ψ', -, hΦ2, hx⟩ := (mem_fromRoot_iff hp h0 ((hroots r2).1 h2) _).1 hx2
  obtain ⟨rfl, rfl⟩ := assign_inj hx
  rw [hΦ1] at hΦ2
  exact hne12 (Option.some.inj hΦ2)

end SearchSpace

end TemporalMotif
