import Mathlib.Data.List.DropRight
import TemporalMotif.Text.Reader

/-! # Printed fields read back

The reader splits a text into lines at line feeds, a line into fields at tabs, the stamps of an
edge line at commas and a stamp at its first colon; it trims the fields and reads numerals.
What is printed comes back through each of these steps: a printed number reads as its value
(`Numeral.natUpTo?_toString`, `Numeral.intIn?_toString`), a name that is trimmed and holds no
separator reads as itself (`Reader.ReadsBack`), and lines that hold no line feed, are not blank
and do not end in a carriage return, each ended by a line feed, are numbered back in order
(`Reader.numbered_flatMap`). A label table numbers a name by its first place, and interning only
appends, so a number once given stays the number of its name (`LabelTable.Extends`); a reading
keeps the old numbers even when it fails, with the names it interned before the failure after
them (`Graph.read_extends`). -/

namespace TemporalMotif

theorem Except.map_eq_ok_iff {ε α β : Type} {x : Except ε α} {f : α → β} {b : β} :
    x.map f = .ok b ↔ ∃ a, x = .ok a ∧ f a = b := by
  cases x <;> simp [Except.map]

namespace Numeral

theorem go_append_singleton (cs : List Char) (c : Char) (acc : Nat) :
    digits?.go (cs ++ [c]) acc =
      (digits?.go cs acc).bind fun v =>
        if c.isDigit then some (10 * v + (c.toNat - '0'.toNat)) else none := by
  induction cs generalizing acc with
  | nil => simp only [List.nil_append, digits?.go, Option.bind_some]
  | cons d cs ih =>
    simp only [List.cons_append, digits?.go]
    split
    · exact ih _
    · rfl

/-- Reading the digits of `n` from zero gives `n`; the digits come off the end, as they are
printed. -/
theorem go_toDigits (n : Nat) : digits?.go (Nat.toDigits 10 n) 0 = some n := by
  induction n using Nat.strongRecOn with
  | ind n ih =>
    rw [Nat.toDigits_eq_if (by decide)]
    split
    · rename_i hn
      simp [digits?.go, Nat.isDigit_digitChar, hn, Nat.toNat_digitChar_sub_48_of_lt_ten hn]
    · rename_i hn
      have hmod : n % 10 < 10 := Nat.mod_lt n (by decide)
      rw [go_append_singleton, ih (n / 10) (by omega)]
      simp [Nat.isDigit_digitChar, hmod, Nat.toNat_digitChar_sub_48_of_lt_ten hmod]
      omega

/-- A printed natural number starts with a digit. -/
theorem exists_toDigits_eq_cons (n : Nat) :
    ∃ c cs, Nat.toDigits 10 n = c :: cs ∧ c.isDigit = true := by
  obtain ⟨c, cs, hc⟩ := List.exists_cons_of_ne_nil (Nat.toDigits_ne_nil (n := n) (b := 10))
  exact ⟨c, cs, hc, Nat.isDigit_of_mem_toDigits (by decide) (by decide) (hc ▸ List.mem_cons_self)⟩

theorem digits?_toDigits (n : Nat) : digits? (Nat.toDigits 10 n) = some n := by
  obtain ⟨c, cs, hc, -⟩ := exists_toDigits_eq_cons n
  have hgo := go_toDigits n
  rw [hc] at hgo ⊢
  exact hgo

theorem natUpTo?_toString {hi n : Nat} (h : n ≤ hi) : natUpTo? hi (toString n).toList = some n := by
  obtain ⟨c, cs, hc, hdig⟩ := exists_toDigits_eq_cons n
  simp only [natUpTo?, Nat.toString_eq_repr, Nat.toList_repr, hc]
  split
  · rename_i heq
    cases heq
    exact absurd hdig (by decide)
  · rw [← hc, digits?_toDigits]
    simp [h]

theorem intIn?_toString {lo hi t : Int} (hlo : lo ≤ t) (hhi : t ≤ hi) :
    intIn? lo hi (toString t).toList = some t := by
  have hrange : (if lo ≤ t ∧ t ≤ hi then some t else none) = some t := if_pos ⟨hlo, hhi⟩
  rw [Int.toString_eq_repr, Int.repr_eq_if]
  split
  · -- a number that is not negative is printed as its digits
    rename_i ht
    obtain ⟨c, cs, hc, hdig⟩ := exists_toDigits_eq_cons t.toNat
    simp only [intIn?, Nat.toList_repr, hc]
    split
    · rename_i heq; cases heq; exact absurd hdig (by decide)
    · rename_i heq; cases heq; exact absurd hdig (by decide)
    · rw [← hc, digits?_toDigits]
      simpa [Int.toNat_of_nonneg ht] using hrange
  · -- a negative number is a minus sign before the digits of its opposite
    rename_i ht
    have hneg : 0 ≤ -t := by omega
    simp only [intIn?, String.toList_append, Nat.toList_repr]
    rw [show "-".toList = ['-'] from rfl, List.singleton_append]
    split
    · rename_i heq; simp at heq
    · rename_i ds heq
      simp only [List.cons.injEq, true_and] at heq
      rw [← heq, digits?_toDigits]
      simpa [Int.toNat_of_nonneg hneg] using hrange
    · rename_i heq; simp at heq

/-- A printed natural number is made of digits. -/
theorem isDigit_of_mem_toString {n : Nat} {c : Char} (h : c ∈ (toString n).toList) :
    c.isDigit = true :=
  Nat.isDigit_of_mem_toDigits (by decide) (by decide)
    (show c ∈ Nat.toDigits 10 n by simpa using h)

/-- A printed integer is made of digits and a minus sign. -/
theorem mem_toString_int {t : Int} {c : Char} (h : c ∈ (toString t).toList) :
    c.isDigit = true ∨ c = '-' := by
  rw [Int.toString_eq_repr, Int.repr_eq_if] at h
  split at h
  · exact .inl (Nat.isDigit_of_mem_toDigits (by decide) (by decide)
      (show c ∈ Nat.toDigits 10 t.toNat by simpa using h))
  · rw [String.toList_append, Nat.toList_repr, List.mem_append] at h
    rcases h with h | h
    · exact .inr (by simpa using h)
    · exact .inl (Nat.isDigit_of_mem_toDigits (by decide) (by decide) h)

/-- A printed integer starts with a digit or a minus sign. -/
theorem exists_toString_int_eq_cons (t : Int) :
    ∃ c cs, (toString t).toList = c :: cs ∧ (c.isDigit = true ∨ c = '-') := by
  obtain ⟨c, cs, hc⟩ : ∃ c cs, (toString t).toList = c :: cs := by
    rw [Int.toString_eq_repr, Int.repr_eq_if]
    split
    · obtain ⟨c, cs, hc, -⟩ := exists_toDigits_eq_cons t.toNat
      exact ⟨c, cs, by rw [Nat.toList_repr, hc]⟩
    · exact ⟨'-', _, by rw [String.toList_append, show "-".toList = ['-'] from rfl]; rfl⟩
  exact ⟨c, cs, hc, mem_toString_int (hc ▸ List.mem_cons_self)⟩

end Numeral

namespace Blank

theorem isBlank_of_isDigit {c : Char} (h : c.isDigit = true) : isBlank c = false := by
  simp only [Char.isDigit, Bool.and_eq_true, decide_eq_true_eq] at h
  obtain ⟨h1, h2⟩ := h
  have h1' : 48 ≤ c.toNat := h1
  have h2' : c.toNat ≤ 57 := h2
  simp only [isBlank, Bool.or_eq_false_iff, Bool.and_eq_false_iff, decide_eq_false_iff_not,
    beq_eq_false_iff_ne, ne_eq]
  omega

/-- No character of a printed integer is blank. -/
theorem isBlank_of_mem_toString {t : Int} {c : Char} (h : c ∈ (toString t).toList) :
    isBlank c = false := by
  rcases Numeral.mem_toString_int h with h | rfl
  · exact isBlank_of_isDigit h
  · rfl

theorem trim_eq_rdropWhile (cs : List Char) :
    trim cs = (cs.dropWhile isBlank).rdropWhile isBlank := rfl

/-- Characters that neither start nor end with a blank are trimmed already. -/
theorem trim_eq_self {cs : List Char} (hh : ∀ c ∈ cs.head?, isBlank c = false)
    (hl : ∀ c ∈ cs.getLast?, isBlank c = false) : trim cs = cs := by
  have hd : cs.dropWhile isBlank = cs := by
    refine List.dropWhile_eq_self_iff.2 fun h => ?_
    simp [hh cs[0] (by simp [List.head?_eq_getElem?, h])]
  rw [trim_eq_rdropWhile, hd, List.rdropWhile_eq_self_iff]
  intro hne
  simp [hl _ (List.getLast_mem_getLast? hne)]

/-- Characters none of which is blank are trimmed already. -/
theorem trim_eq_self_of_forall {cs : List Char} (h : ∀ c ∈ cs, isBlank c = false) : trim cs = cs :=
  trim_eq_self (fun c hc => h c (List.mem_of_mem_head? hc))
    (fun c hc => h c (List.mem_of_mem_getLast? hc))

theorem trim_toString_nat (n : Nat) : trim (toString n).toList = (toString n).toList :=
  trim_eq_self_of_forall fun _ hc => isBlank_of_isDigit (Numeral.isDigit_of_mem_toString hc)

theorem trim_toString_int (t : Int) : trim (toString t).toList = (toString t).toList :=
  trim_eq_self_of_forall fun _ hc => isBlank_of_mem_toString hc

theorem mem_of_mem_trim {cs : List Char} {c : Char} (h : c ∈ trim cs) : c ∈ cs :=
  (List.dropWhile_suffix isBlank).subset ((List.rdropWhile_prefix isBlank _).subset h)

theorem isBlank_head?_trim {cs : List Char} {c : Char} (hc : c ∈ (trim cs).head?) :
    isBlank c = false := by
  obtain ⟨t, ht⟩ := List.rdropWhile_prefix isBlank (cs.dropWhile isBlank)
  have hd := List.head?_dropWhile_not isBlank cs
  rw [← ht, ← trim_eq_rdropWhile] at hd
  obtain ⟨ys, hys⟩ := List.head?_eq_some_iff.1 hc
  rw [hys] at hd
  exact hd

theorem isBlank_getLast?_trim {cs : List Char} {c : Char} (hc : c ∈ (trim cs).getLast?) :
    isBlank c = false := by
  obtain ⟨ys, hys⟩ := List.getLast?_eq_some_iff.1 hc
  have hne : trim cs ≠ [] := by simp [hys]
  have hlast := List.rdropWhile_last_not isBlank (cs.dropWhile isBlank) hne
  simpa [← trim_eq_rdropWhile, hys] using hlast

theorem trim_trim (cs : List Char) : trim (trim cs) = trim cs :=
  trim_eq_self (fun _ => isBlank_head?_trim) (fun _ => isBlank_getLast?_trim)

/-- Trimmed characters do not end in a carriage return. -/
theorem getLast?_ne_return {cs : List Char} (h : trim cs = cs) : cs.getLast? ≠ some '\r' := by
  intro hr
  have hmem : '\r' ∈ (trim cs).getLast? := by rw [h, hr]; rfl
  exact absurd (isBlank_getLast?_trim hmem) (by decide)

end Blank

namespace Reader

theorem pieces_ne_nil (sep : Char) : ∀ cs, pieces sep cs ≠ []
  | [] => by simp [pieces]
  | c :: cs => by
    simp only [pieces]
    split
    · simp
    · split <;> simp

theorem pieces_of_forall_ne {sep : Char} :
    ∀ {cs : List Char}, (∀ c ∈ cs, c ≠ sep) → pieces sep cs = [cs]
  | [], _ => rfl
  | c :: cs, h => by
    rw [pieces, pieces_of_forall_ne fun c hc => h c (List.mem_cons_of_mem _ hc)]
    simp [h c List.mem_cons_self]

/-- A piece without the separator, then the separator, splits off as the first piece. -/
theorem pieces_append_cons {sep : Char} (rest : List Char) :
    ∀ {cs : List Char}, (∀ c ∈ cs, c ≠ sep) → pieces sep (cs ++ sep :: rest) = cs :: pieces sep rest
  | [], _ => by
    obtain ⟨p, ps, h⟩ := List.exists_cons_of_ne_nil (pieces_ne_nil sep rest)
    simp [pieces, h]
  | c :: cs, h => by
    rw [List.cons_append, pieces, pieces_append_cons rest fun c hc => h c (List.mem_cons_of_mem _ hc)]
    simp [h c List.mem_cons_self]

/-- A piece holds characters of the text, none of them the separator. -/
theorem mem_of_mem_pieces {sep : Char} :
    ∀ {cs p : List Char}, p ∈ pieces sep cs → ∀ c ∈ p, c ∈ cs ∧ c ≠ sep
  | [], p, hp, c, hc => by simp [pieces] at hp; simp [hp] at hc
  | x :: cs, p, hp, c, hc => by
    have ih := @mem_of_mem_pieces sep cs
    rw [pieces] at hp
    split at hp
    · rename_i h; exact absurd h (pieces_ne_nil sep cs)
    · rename_i q qs hq
      rw [hq] at ih
      split at hp
      · -- `x` is the separator and starts an empty piece
        simp only [List.mem_cons] at hp
        rcases hp with rfl | rfl | hp
        · simp at hc
        · exact (ih List.mem_cons_self c hc).imp_left (List.mem_cons_of_mem x)
        · exact (ih (List.mem_cons_of_mem q hp) c hc).imp_left (List.mem_cons_of_mem x)
      · -- `x` joins the first piece
        rename_i hx
        simp only [List.mem_cons] at hp
        rcases hp with rfl | hp
        · rcases List.mem_cons.1 hc with rfl | hc
          · exact ⟨List.mem_cons_self, hx⟩
          · exact (ih List.mem_cons_self c hc).imp_left (List.mem_cons_of_mem x)
        · exact (ih (List.mem_cons_of_mem q hp) c hc).imp_left (List.mem_cons_of_mem x)

/-- Lines without line feeds, each ended by one, split back into themselves and an empty
rest. -/
theorem pieces_flatMap {ls : List (List Char)} (h : ∀ l ∈ ls, ∀ c ∈ l, c ≠ '\n') :
    pieces '\n' (ls.flatMap (· ++ ['\n'])) = ls ++ [[]] := by
  induction ls with
  | nil => rfl
  | cons l ls ih =>
    rw [List.flatMap_cons, List.append_assoc, List.singleton_append,
      pieces_append_cons _ (h l List.mem_cons_self),
      ih fun l' hl' => h l' (List.mem_cons_of_mem _ hl')]
    rfl

theorem lines_flatMap {ls : List (List Char)} (h : ∀ l ∈ ls, ∀ c ∈ l, c ≠ '\n') :
    lines (ls.flatMap (· ++ ['\n'])) = ls.map dropReturn := by
  rw [lines, pieces_flatMap h, List.reverse_append]
  simp

theorem dropReturn_of_getLast? {cs : List Char} (h : cs.getLast? ≠ some '\r') :
    dropReturn cs = cs := by
  simp [dropReturn, h]

theorem mem_of_mem_dropReturn {cs : List Char} {c : Char} (h : c ∈ dropReturn cs) : c ∈ cs := by
  unfold dropReturn at h
  split at h
  · exact List.dropLast_subset cs h
  · exact h

theorem ne_of_mem_lines {cs l : List Char} (hl : l ∈ lines cs) {c : Char} (hc : c ∈ l) :
    c ≠ '\n' := by
  unfold lines at hl
  split at hl
  · simp at hl
  · rename_i last rest heq
    have hmem : ∀ p, p ∈ rest ∨ p = last → p ∈ pieces '\n' cs := by
      intro p hp
      rw [← List.mem_reverse, heq]
      rcases hp with hp | rfl
      · exact List.mem_cons_of_mem _ hp
      · exact List.mem_cons_self
    rcases List.mem_append.1 hl with hl | hl
    · obtain ⟨p, hp, rfl⟩ := List.mem_map.1 hl
      exact (mem_of_mem_pieces (hmem p (.inl (List.mem_reverse.1 hp))) c
        (mem_of_mem_dropReturn hc)).2
    · split at hl
      · simp at hl
      · rw [List.mem_singleton] at hl
        subst hl
        exact (mem_of_mem_pieces (hmem _ (.inr rfl)) c hc).2

theorem ne_of_mem_numbered {cs : List Char} {x : Nat × List Char} (hx : x ∈ numbered cs)
    {c : Char} (hc : c ∈ x.2) : c ≠ '\n' := by
  obtain ⟨⟨l, i⟩, hli, rfl⟩ := List.mem_map.1 (List.mem_filter.1 hx).1
  exact ne_of_mem_lines (List.mem_of_getElem? (List.mem_zipIdx_iff_getElem?.1 hli)) hc

/-- Lines without line feeds, not blank and not ending in a carriage return, each ended by a
line feed, are numbered back in order from 1. -/
theorem numbered_flatMap {ls : List (List Char)} (h : ∀ l ∈ ls, ∀ c ∈ l, c ≠ '\n')
    (hret : ∀ l ∈ ls, l.getLast? ≠ some '\r') (hblank : ∀ l ∈ ls, Blank.trim l ≠ []) :
    numbered (ls.flatMap (· ++ ['\n'])) = ls.zipIdx.map fun (l, i) => (i + 1, l) := by
  have hret' : ls.map dropReturn = ls := by
    conv_rhs => rw [← List.map_id ls]
    exact List.map_congr_left fun l hl => dropReturn_of_getLast? (hret l hl)
  rw [numbered, lines_flatMap h, hret', List.filter_eq_self]
  intro p hp
  obtain ⟨⟨l, i⟩, hli, rfl⟩ := List.mem_map.1 hp
  simpa using hblank l (List.mem_of_getElem? (List.mem_zipIdx_iff_getElem?.1 hli))

/-- A name that reads back as itself from a field of a line split at `seps`: it is trimmed,
and holds neither a line feed nor any of `seps`. -/
def ReadsBack (seps : List Char) (s : String) : Prop :=
  Blank.trim s.toList = s.toList ∧ ∀ c ∈ s.toList, c ≠ '\n' ∧ c ∉ seps

/-- A trimmed field of a line, cut from a piece between separators `seps`, reads back. -/
theorem readsBack_trim {seps : List Char} {cs : List Char}
    (h : ∀ c ∈ cs, c ≠ '\n' ∧ c ∉ seps) : ReadsBack seps (String.ofList (Blank.trim cs)) := by
  rw [ReadsBack, String.toList_ofList, Blank.trim_trim]
  exact ⟨rfl, fun c hc => h c (Blank.mem_of_mem_trim hc)⟩

end Reader

namespace LabelTable

theorem idxOf?_eq_toList (names : Array String) (s : String) :
    names.idxOf? s = names.toList.idxOf? s := by
  rcases names with ⟨xs⟩
  exact List.idxOf?_toArray s xs

theorem idxOf?_of_prefix {xs ys : List String} (hp : xs <+: ys) {s : String} {l : Nat}
    (h : xs.idxOf? s = some l) : ys.idxOf? s = some l := by
  obtain ⟨t, rfl⟩ := hp
  obtain ⟨hl, hs, hfirst⟩ := List.idxOf?_eq_some_iff.1 h
  refine List.idxOf?_eq_some_iff.2
    ⟨by simp; omega, by rw [List.getElem_append_left hl]; exact hs, fun j hj => ?_⟩
  rw [List.getElem_append_left (by omega)]
  exact hfirst j hj

theorem getD_of_idxOf? {names : Array String} {s : String} {l : Nat}
    (h : names.idxOf? s = some l) (d : String) : names.getD l d = s := by
  rw [idxOf?_eq_toList] at h
  obtain ⟨hl, hs, -⟩ := List.idxOf?_eq_some_iff.1 h
  have hl' : l < names.size := by simpa using hl
  simp [Array.getD_eq_getD_getElem?, hl', ← hs]

theorem internIn_of_idxOf? {names : Array String} {s : String} {l : Nat}
    (h : names.idxOf? s = some l) : internIn names s = (l, names) := by
  simp [internIn, h]

/-- Interning keeps every name at its number. -/
theorem prefix_internIn (names : Array String) (s : String) :
    names.toList <+: (internIn names s).2.toList := by
  unfold internIn
  split
  · exact List.prefix_refl _
  · simp

/-- The number interning gives a name is the first place of the name afterwards. -/
theorem idxOf?_internIn (names : Array String) (s : String) :
    (internIn names s).2.idxOf? s = some (internIn names s).1 := by
  unfold internIn
  split
  · assumption
  · rename_i hnone
    rw [idxOf?_eq_toList] at hnone ⊢
    have hns : s ∉ names.toList := List.idxOf?_eq_none_iff.1 hnone
    rw [Array.toList_push]
    refine List.idxOf?_eq_some_iff.2 ⟨by simp, by simp, fun j hj => ?_⟩
    rw [List.getElem_append_left (by simpa using hj)]
    exact fun heq => hns (heq ▸ List.getElem_mem _)

/-- `tb'` keeps every name of `tb` at its number, perhaps with more names after them. -/
def Extends (tb' tb : LabelTable) : Prop :=
  tb.nodeNames.toList <+: tb'.nodeNames.toList ∧ tb.edgeNames.toList <+: tb'.edgeNames.toList

theorem Extends.refl (tb : LabelTable) : tb.Extends tb :=
  ⟨List.prefix_refl _, List.prefix_refl _⟩

theorem Extends.trans {tb tb' tb'' : LabelTable} (h' : tb''.Extends tb') (h : tb'.Extends tb) :
    tb''.Extends tb :=
  ⟨h.1.trans h'.1, h.2.trans h'.2⟩

/-- A name interned with a number within the labels gets the number interning gives it. -/
theorem internChecked_eq_ok {kind : String} {names : Array String} {s : String}
    {r : Nat × Array String} (h : internChecked kind names s = .ok r) :
    r = internIn names s ∧ r.1 ≤ Numeral.u32Max := by
  rcases hin : internIn names s with ⟨i, ns⟩
  simp only [internChecked, hin] at h
  split_ifs at h with hle
  cases h
  exact ⟨rfl, hle⟩

/-- Interning a node label name leaves a table extending the old one, in which the number it
gives is the name's first place, within the labels. -/
theorem internNode_eq_ok {tb : LabelTable} {s : String} {r : Nat × LabelTable}
    (h : tb.internNode s = .ok r) :
    r.2.Extends tb ∧ r.2.nodeNames.idxOf? s = some r.1 ∧ r.1 ≤ Numeral.u32Max := by
  obtain ⟨r', hr', rfl⟩ := Except.map_eq_ok_iff.1 h
  obtain ⟨rfl, hle⟩ := internChecked_eq_ok hr'
  exact ⟨⟨prefix_internIn tb.nodeNames s, List.prefix_refl _⟩, idxOf?_internIn _ _, hle⟩

/-- Interning an edge label name leaves a table extending the old one, in which the number it
gives is the name's first place, within the labels. -/
theorem internEdge_eq_ok {tb : LabelTable} {s : String} {r : Nat × LabelTable}
    (h : tb.internEdge s = .ok r) :
    r.2.Extends tb ∧ r.2.edgeNames.idxOf? s = some r.1 ∧ r.1 ≤ Numeral.u32Max := by
  obtain ⟨r', hr', rfl⟩ := Except.map_eq_ok_iff.1 h
  obtain ⟨rfl, hle⟩ := internChecked_eq_ok hr'
  exact ⟨⟨List.prefix_refl _, prefix_internIn tb.edgeNames s⟩, idxOf?_internIn _ _, hle⟩

theorem Extends.nodeNames {tb tb' : LabelTable} (h : tb'.Extends tb) {s : String} {l : Nat}
    (hl : tb.nodeNames.idxOf? s = some l) : tb'.nodeNames.idxOf? s = some l := by
  rw [idxOf?_eq_toList] at hl ⊢
  exact idxOf?_of_prefix h.1 hl

theorem Extends.edgeNames {tb tb' : LabelTable} (h : tb'.Extends tb) {s : String} {l : Nat}
    (hl : tb.edgeNames.idxOf? s = some l) : tb'.edgeNames.idxOf? s = some l := by
  rw [idxOf?_eq_toList] at hl ⊢
  exact idxOf?_of_prefix h.2 hl

theorem internNode_of_idxOf? {tb : LabelTable} {s : String} {l : Nat}
    (h : tb.nodeNames.idxOf? s = some l) (hl : l ≤ Numeral.u32Max) : tb.internNode s = .ok (l, tb) := by
  simp [internNode, internChecked, internIn_of_idxOf? h, hl, Except.map]

theorem internEdge_of_idxOf? {tb : LabelTable} {s : String} {l : Nat}
    (h : tb.edgeNames.idxOf? s = some l) (hl : l ≤ Numeral.u32Max) : tb.internEdge s = .ok (l, tb) := by
  simp [internEdge, internChecked, internIn_of_idxOf? h, hl, Except.map]

theorem nodeName_of_idxOf? {tb : LabelTable} {s : String} {l : Nat}
    (h : tb.nodeNames.idxOf? s = some l) : tb.nodeName l = s :=
  getD_of_idxOf? h _

theorem edgeName_of_idxOf? {tb : LabelTable} {s : String} {l : Nat}
    (h : tb.edgeNames.idxOf? s = some l) : tb.edgeName l = s :=
  getD_of_idxOf? h _

end LabelTable

namespace Reader

/-- The label table a reading leaves, whether it went through or failed. -/
def tableAfter : Except (LoadError × LabelTable) Progress → LabelTable
  | .ok p => p.labels
  | .error (_, tb) => tb

/-- A reading that goes on from what a first part read extends the table when both parts do. -/
theorem tableAfter_bind {x : Except (LoadError × LabelTable) Progress}
    {k : Progress → Except (LoadError × LabelTable) Progress} {tb : LabelTable}
    (hx : (tableAfter x).Extends tb) (hk : ∀ p, x = .ok p → (tableAfter (k p)).Extends p.labels) :
    (tableAfter (x >>= k)).Extends tb := by
  cases x with
  | error r => exact hx
  | ok p => exact (hk p rfl).trans hx

theorem foldlM_extends {α : Type} {f : Progress → α → Except (LoadError × LabelTable) Progress}
    (hf : ∀ p x, (tableAfter (f p x)).Extends p.labels) :
    ∀ (xs : List α) (p : Progress), (tableAfter (xs.foldlM f p)).Extends p.labels
  | [], p => .refl _
  | x :: xs, p => by
    rw [List.foldlM_cons]
    exact tableAfter_bind (hf p x) fun p' _ => foldlM_extends hf xs p'

/-- Steps that each extend the table extend it over a run, up to the step that fails. -/
theorem steps_extends {α : Type} {step : Progress → α → Except LoadError Progress}
    (hstep : ∀ p x p', step p x = .ok p' → p'.labels.Extends p.labels) (xs : List α)
    (p : Progress) : (tableAfter (steps step xs p)).Extends p.labels := by
  refine foldlM_extends (fun p x => ?_) xs p
  -- a failing step hands on the table it was given
  cases h : step p x with
  | error e => exact .refl _
  | ok p' => exact hstep p x p' h

theorem node_extends {keep : Nat → Bool} {p p' : Progress} {x : Nat × List Char}
    (h : node keep p x = .ok p') : p'.labels.Extends p.labels := by
  obtain ⟨line, text⟩ := x
  simp only [node] at h
  split at h
  · rename_i idField nameField _ _
    cases hid : nodeId line idField with
    | error e => rw [hid] at h; cases h
    | ok id =>
      rw [hid] at h
      cases hi : p.labels.internNode (String.ofList (Blank.trim nameField)) with
      | error e => rw [hi] at h; cases h
      | ok v =>
        rw [hi] at h
        cases h
        exact (LabelTable.internNode_eq_ok hi).1
  · cases h

theorem stamp_extends {keep : Nat → Bool} {line : Nat} {text : List Char} {source dest : Nat}
    {p p' : Progress} {item : List Char} (h : stamp keep line text source dest p item = .ok p') :
    p'.labels.Extends p.labels := by
  unfold stamp at h
  split at h
  · cases h
  · rename_i k _
    cases ht : time line (item.take k) with
    | error e => rw [ht] at h; cases h
    | ok t =>
      simp only [ht, bind, Except.bind] at h
      cases hi : p.labels.internEdge (String.ofList (Blank.trim (item.drop (k + 1)))) with
      | error e => rw [hi] at h; cases h
      | ok v =>
        rw [hi] at h
        cases h
        exact (LabelTable.internEdge_eq_ok hi).1

theorem edges_extends (keep : Nat → Bool) (p : Progress) (x : Nat × List Char) :
    (tableAfter (edges keep p x)).Extends p.labels := by
  obtain ⟨line, text⟩ := x
  simp only [edges]
  split
  · rename_i sField dField stamps _ _
    cases nodeId line sField with
    | error e => exact .refl _
    | ok source =>
      cases nodeId line dField with
      | error e => exact .refl _
      | ok dest =>
        show (tableAfter (if source = dest then pure p else _)).Extends p.labels
        split
        · exact .refl _
        · exact steps_extends (fun _ _ _ h => stamp_extends h) _ p
  · exact .refl _

end Reader

/-- A reading keeps every name of the table it starts from at its number, also when it fails:
the table it leaves holds the names interned up to the failure, after the old ones. -/
theorem Graph.read_extends (labels : LabelTable) (text : String) (pattern : Option Graph)
    (directed : Bool) : (Graph.read labels text pattern directed).2.Extends labels := by
  have htable : (Graph.read labels text pattern directed).2 =
      Reader.tableAfter (Graph.readProgress labels text pattern directed) := by
    unfold Graph.read
    rcases Graph.readProgress labels text pattern directed with p | ⟨e, tb⟩ <;> rfl
  rw [htable]
  unfold Graph.readProgress
  rcases Reader.numbered text.toList with _ | ⟨⟨n, header⟩, rest⟩
  · exact .refl _
  · dsimp only
    cases Numeral.natUpTo? Numeral.u64Max (Blank.trim header) with
    | none => exact .refl _
    | some expected =>
      -- the node lines extend the table, then the edge lines extend it further
      refine Reader.tableAfter_bind
        (Reader.steps_extends (fun _ _ _ h => Reader.node_extends h) _ _) fun p _ => ?_
      split
      · exact .refl _
      · exact Reader.foldlM_extends (Reader.edges_extends _) _ p

end TemporalMotif
