import BrilKit.FlowGraph.Merge
import BrilKit.Proofs.Data.Table

/-!
# What merged sets and tables hold

Facts come in over the edges of blocks, each in a cell of its own, and are merged there.
The members of an intersection, and the values of a table in which others are settled: a value comes
from one of them, and a name on which they do not differ keeps its value.
-/

namespace BrilKit

open List Table

/-- What came in over an edge of a block, by the numbers of the block and of the edge. -/
def cell {α : Type} (ins : List (List α)) (b i : Nat) : Option α := ins[b]?.bind fun xs => xs[i]?

section Cells

variable {α : Type} {ins : List (List α)} {xs ys : List α} {b c i j : Nat} {v : α}

lemma cell_of_getElem? (h : ins[b]? = some xs) : cell ins b i = xs[i]? := by
  rw [cell, h, Option.bind_some]

lemma cell_set (h : ins[b]? = some xs) :
    cell (ins.set b ys) c i = if c = b then ys[i]? else cell ins c i := by
  obtain ⟨hb, _⟩ := List.getElem?_eq_some_iff.mp h
  unfold cell
  by_cases hc : c = b
  · subst hc
    simp [hb]
  · rw [getElem?_set_ne (Ne.symm hc), if_neg hc]

lemma cell_set_set (h : ins[b]? = some xs) (hi : i < xs.length) :
    cell (ins.set b (xs.set i v)) c j = if c = b ∧ j = i then some v else cell ins c j := by
  rw [cell_set h]
  by_cases hc : c = b
  · subst hc
    by_cases hj : j = i
    · subst hj
      simp [hi]
    · simp [hj, getElem?_set_ne (Ne.symm hj), cell_of_getElem? h]
  · simp [hc]

end Cells

namespace Merge

open Members

section Sets

variable {α : Type} [BEq α] [LawfulBEq α] {sets : List (List α)} {a : α}

lemma mem_meetSets : a ∈ meetSets false sets ↔ sets ≠ [] ∧ ∀ s ∈ sets, a ∈ s := by
  simp only [meetSets, Bool.false_eq_true, mem_foldl_meet]
  cases h : sets.find? fun s => !s.isEmpty with
  | none =>
    -- No set has a member.
    have hempty : ∀ s ∈ sets, s = [] := by simpa using find?_eq_none.mp h
    constructor
    · rintro ⟨ha, _⟩
      simp at ha
    · rintro ⟨hne, hall⟩
      obtain ⟨s, hs⟩ := exists_mem_of_ne_nil sets hne
      simpa [hempty s hs] using hall s hs
  | some start =>
    have hstart := mem_of_find?_eq_some h
    constructor
    · rintro ⟨_, hall⟩
      exact ⟨ne_nil_of_mem hstart, hall⟩
    · rintro ⟨_, hall⟩
      exact ⟨hall start hstart, hall⟩

end Sets

section Items

variable {α : Type} {same : α → α → Bool} {K : String → α → Prop} {s t : List (String × α)}
  {ts : List (Table String α)} {e : String × α}

/-- Among the values that a name can have, only equal ones count as the same. -/
def Exact (same : α → α → Bool) (K : String → α → Prop) : Prop :=
  ∀ x v w, K x v → K x w → (same v w = true ↔ v = w)

lemma exact_beq [BEq α] [LawfulBEq α] : Exact (α := α) (fun v w => v == w) fun _ _ => True :=
  fun _ _ _ _ _ => beq_iff_eq

lemma any_sameItem (ex : Exact same K) (he : K e.1 e.2) (ht : ∀ a ∈ t, K a.1 a.2) :
    (t.any fun a => e.1 == a.1 && same e.2 a.2) = true ↔ e ∈ t := by
  simp only [any_eq_true, Bool.and_eq_true, beq_iff_eq]
  constructor
  · rintro ⟨a, ha, h1, h2⟩
    rw [ex e.1 e.2 a.2 he (h1 ▸ ht a ha)] at h2
    rwa [Prod.ext h1 h2]
  · intro h
    exact ⟨e, h, rfl, (ex e.1 e.2 e.2 he he).mpr rfl⟩

lemma mem_meetItems (ex : Exact same K) (hs : ∀ a ∈ s, K a.1 a.2) (ht : ∀ a ∈ t, K a.1 a.2) :
    e ∈ meetItems same s t ↔ e ∈ s ∧ e ∈ t := by
  unfold meetItems
  split
  · rw [mem_filter]
    exact and_congr_right fun h => any_sameItem ex (hs e h) ht
  · rw [mem_filter, and_comm (a := e ∈ s)]
    exact and_congr_right fun h => any_sameItem ex (ht e h) hs

lemma mem_foldl_meetItems (ex : Exact same K) (hs : ∀ a ∈ s, K a.1 a.2)
    (hts : ∀ t ∈ ts, ∀ a ∈ t.entries, K a.1 a.2) :
    e ∈ ts.foldl (fun s u => meetItems same s u.entries) s ↔ e ∈ s ∧ ∀ t ∈ ts, e ∈ t.entries := by
  induction ts generalizing s with
  | nil => simp
  | cons t ts ih =>
    have ht := hts t mem_cons_self
    have hst : ∀ a ∈ meetItems same s t.entries, K a.1 a.2 := fun a ha =>
      hs a ((mem_meetItems ex hs ht).mp ha).1
    rw [foldl_cons, ih hst fun u hu => hts u (mem_cons_of_mem t hu),
      mem_meetItems ex hs ht]
    simp [and_assoc]

lemma nodup_meetItems (hs : (s.map Prod.fst).Nodup) (ht : (t.map Prod.fst).Nodup) :
    ((meetItems same s t).map Prod.fst).Nodup := by
  unfold meetItems
  split
  · exact (filter_sublist.map Prod.fst).nodup hs
  · exact (filter_sublist.map Prod.fst).nodup ht

lemma nodup_foldl_meetItems (hs : (s.map Prod.fst).Nodup) (hts : ∀ t ∈ ts, t.keys.Nodup) :
    ((ts.foldl (fun s u => meetItems same s u.entries) s).map Prod.fst).Nodup := by
  induction ts generalizing s with
  | nil => exact hs
  | cons t ts ih => exact ih (nodup_meetItems hs (hts t (by simp))) fun u hu => hts u (by simp [hu])

end Items

section Tables

variable {ts : List (Table String String)} {x v : String} {ks : List String}

lemma mem_foldl_meet_keys :
    x ∈ ts.foldl (fun ks u => meet ks u.keys) ks ↔ x ∈ ks ∧ ∀ t ∈ ts, x ∈ t.keys := by
  induction ts generalizing ks with
  | nil => simp
  | cons t ts ih => simp [ih, and_assoc]

lemma mem_foldl_addAll_keys :
    x ∈ ts.foldl (fun ks u => addAll ks u.keys) ks ↔ x ∈ ks ∨ ∃ t ∈ ts, x ∈ t.keys := by
  induction ts generalizing ks with
  | nil => simp
  | cons t ts ih => simp [ih, or_assoc]

lemma nodup_foldl_addAll_keys (nd : ks.Nodup) :
    (ts.foldl (fun ks u => addAll ks u.keys) ks).Nodup := by
  induction ts generalizing ks with
  | nil => exact nd
  | cons t ts ih => exact ih (nodup_addAll nd)

/-- A name that one of the tables with entries has and another one has not. -/
def Single (ts : List (Table String String)) (x : String) : Prop :=
  (∃ t ∈ ts, x ∈ t.keys) ∧ ∃ t ∈ ts, t.entries ≠ [] ∧ x ∉ t.keys

/-- Tables are settled in their common items and in a value for each name that only some have. -/
lemma exists_settledBy (ts : List (Table String String)) :
    ∃ (items : List (String × String)) (single : List String),
      settledBy (fun x y => x == y) true ts = ⟨items ++ single.filterMap fun k =>
        (ts.findSome? fun t => t.get? k).map fun v => (k, v)⟩ ∧
      (∀ e, e ∈ items ↔
        (∃ t ∈ ts, t.entries ≠ []) ∧ ∀ t ∈ ts, t.entries ≠ [] → e ∈ t.entries) ∧
      (∀ x, x ∈ single ↔ Single ts x) ∧
      ((∀ t ∈ ts, t.keys.Nodup) → (items.map Prod.fst).Nodup ∧ single.Nodup) := by
  -- The table to begin with is one of those with entries, if there are any.
  have first : ∃ start : Table String String,
      (ts.find? fun t => !t.isEmpty).getD .empty = start ∧
      (start ∈ ts ∧ start.entries ≠ [] ∨ start = .empty ∧ ∀ t ∈ ts, t.entries = []) := by
    refine ⟨_, rfl, ?_⟩
    cases h : ts.find? fun t => !t.isEmpty with
    | none => exact .inr ⟨rfl, by simpa [Table.isEmpty] using find?_eq_none.mp h⟩
    | some start => exact .inl ⟨mem_of_find?_eq_some h, by simpa [Table.isEmpty] using find?_some h⟩
  obtain ⟨start, hfind, first⟩ := first
  have hothers : ∀ t, t ∈ ts.filter (fun t => !t.isEmpty) ↔ t ∈ ts ∧ t.entries ≠ [] := by
    simp [Table.isEmpty]
  refine ⟨_, _, rfl, fun e => ?_, fun x => ?_,
    fun nd => ⟨nodup_foldl_meetItems ?_ fun t ht => ?_, ?_⟩⟩
  · rw [hfind, if_pos rfl,
      mem_foldl_meetItems exact_beq (fun _ _ => trivial) fun _ _ _ _ => trivial]
    simp only [hothers, and_imp]
    obtain ⟨hmem, hne⟩ | ⟨rfl, none⟩ := first
    · exact ⟨fun h => ⟨⟨start, hmem, hne⟩, h.2⟩, fun h => ⟨h.2 start hmem hne, h.2⟩⟩
    · constructor
      · rintro ⟨h, _⟩
        cases h
      · rintro ⟨⟨t, ht, hne⟩, _⟩
        exact absurd (none t ht) hne
  · rw [without, mem_filter, mem_foldl_addAll_keys, Bool.not_eq_true',
      ← Bool.not_eq_true, contains_iff_mem, mem_foldl_meet_keys, Single]
    have solid : ∀ t : Table String String, x ∈ t.keys → t.entries ≠ [] := by
      rintro t hx e
      simp [Table.keys, e] at hx
    obtain ⟨hmem, hne⟩ | ⟨rfl, none⟩ := first
    · grind
    · have empty : ∀ t ∈ ts, x ∉ t.keys := fun t ht hx => solid t hx (none t ht)
      grind [keys_empty]
  · rw [hfind]
    obtain ⟨hmem, _⟩ | ⟨rfl, _⟩ := first
    · exact nd start hmem
    · exact .nil
  · exact nd t ((hothers t).mp ht).1
  · refine (nodup_foldl_addAll_keys ?_).filter _
    rw [hfind]
    obtain ⟨hmem, _⟩ | ⟨rfl, _⟩ := first
    · exact nd start hmem
    · exact .nil

lemma settledBy_sound (nd : ∀ t ∈ ts, t.keys.Nodup)
    (h : (settledBy (fun x y => x == y) true ts).get? x = some v) :
    ∃ t ∈ ts, t.get? x = some v := by
  obtain ⟨items, single, e, hitems, _, _⟩ := exists_settledBy ts
  have hmem := mem_of_get? h
  rw [e] at hmem
  obtain hmem | hmem := mem_append.mp hmem
  · obtain ⟨⟨t, ht, hne⟩, all⟩ := (hitems _).mp hmem
    exact ⟨t, ht, get?_of_mem (nd t ht) (all t ht hne)⟩
  · obtain ⟨k, _, hk⟩ := mem_filterMap.mp hmem
    obtain ⟨w, hw, hkw⟩ := Option.map_eq_some_iff.mp hk
    cases hkw
    exact exists_of_findSome?_eq_some hw

/-- A name to which the tables give one value has this value in the settled table. -/
lemma settledBy_complete (nd : ∀ t ∈ ts, t.keys.Nodup) {t : Table String String} (ht : t ∈ ts)
    (hv : t.get? x = some v) (agree : ∀ u ∈ ts, ∀ w, u.get? x = some w → w = v) :
    (settledBy (fun x y => x == y) true ts).get? x = some v := by
  suffices hkey : x ∈ (settledBy (fun x y => x == y) true ts).keys by
    obtain ⟨w, hw⟩ := mem_keys.mp hkey
    obtain ⟨u, hu, hx⟩ := settledBy_sound nd hw
    rw [hw, agree u hu w hx]
  obtain ⟨items, single, e, hitems, hsingle, _⟩ := exists_settledBy ts
  rw [e, Table.keys, map_append, mem_append]
  by_cases hall : ∀ u ∈ ts, u.entries ≠ [] → x ∈ u.keys
  · refine .inl (mem_map.mpr ⟨(x, v), (hitems _).mpr ⟨⟨t, ht, ?_⟩, fun u hu hne => ?_⟩, rfl⟩)
    · exact ne_nil_of_mem (mem_of_get? hv)
    · obtain ⟨w, hw⟩ := mem_keys.mp (hall u hu hne)
      exact agree u hu w hw ▸ mem_of_get? hw
  · push Not at hall
    have hx : x ∈ single := (hsingle x).mpr ⟨⟨t, ht, mem_keys.mpr ⟨v, hv⟩⟩, hall⟩
    obtain ⟨w, hw⟩ : ∃ w, ts.findSome? (fun t => t.get? x) = some w := by
      refine Option.ne_none_iff_exists'.mp fun hnone => ?_
      rw [findSome?_eq_none_iff.mp hnone t ht] at hv
      cases hv
    exact .inr (mem_map.mpr ⟨(x, w), mem_filterMap.mpr ⟨x, hx, by simp [hw]⟩, rfl⟩)

lemma names_filterMap_sublist (names : List String) (o : String → Option String) :
    ((names.filterMap fun k => (o k).map fun v => (k, v)).map Prod.fst).Sublist names := by
  induction names with
  | nil => exact .slnil
  | cons k names ih =>
    cases h : o k with
    | none => simpa [h] using ih.cons k
    | some v => simpa [h] using ih.cons_cons k

lemma nodup_settledBy (nd : ∀ t ∈ ts, t.keys.Nodup) :
    (settledBy (fun x y => x == y) true ts).keys.Nodup := by
  obtain ⟨items, single, e, hitems, hsingle, hnd⟩ := exists_settledBy ts
  obtain ⟨nd₁, nd₂⟩ := hnd nd
  rw [e, Table.keys, map_append, nodup_append]
  refine ⟨nd₁, (names_filterMap_sublist single _).nodup nd₂, ?_⟩
  rintro x hx y hy rfl
  obtain ⟨⟨x, v⟩, hv, rfl⟩ := mem_map.mp hx
  obtain ⟨_, t, ht, hne, hxt⟩ := (hsingle x).mp ((names_filterMap_sublist single _).subset hy)
  exact hxt (mem_keys_of_mem (((hitems _).mp hv).2 t ht hne))

end Tables

end Merge

end BrilKit
