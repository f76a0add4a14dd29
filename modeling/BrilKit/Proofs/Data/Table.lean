import BrilKit.Data.Members
import BrilKit.Proofs.Data.Outcome
import Mathlib.Data.List.Nodup
import Mathlib.Data.List.Perm.Subperm

/-!
# Laws of tables and of lists read as sets

How look-ups, keys and entries of a table change with it, and the members of the sets that
`Members` computes.
-/

namespace BrilKit

open List Outcome

variable {κ α β : Type} {es : List (κ × β)} {t : Table String α} {k : String} {a d : α}

namespace Table

variable {κ α β : Type} {t : Table κ α} {k j : κ} {a b d : α} {f : α → β} {es : List (κ × α)}
  {ks : List κ}

@[simp] lemma keys_empty : (empty : Table κ α).keys = [] := rfl

@[simp] lemma entries_empty : (empty : Table κ α).entries = [] := rfl

@[simp] lemma keys_map : (t.map f).keys = t.keys := by simp [keys, map]

lemma keys_map_keys {f : κ → α} : (⟨ks.map fun k => (k, f k)⟩ : Table κ α).keys = ks := by
  rw [keys, map_map]
  exact map_id _

lemma mem_keys_of_mem (h : (k, a) ∈ t.entries) : k ∈ t.keys := mem_map_of_mem h

@[simp] lemma get?_empty [BEq κ] : (empty : Table κ α).get? k = none := rfl

lemma get?_mapEntries [BEq κ] [LawfulBEq κ] {g : κ → α → β} :
    (⟨t.entries.map fun e => (e.1, g e.1 e.2)⟩ : Table κ β).get? k = (t.get? k).map (g k) := by
  obtain ⟨es⟩ := t
  simp only [get?]
  induction es with
  | nil => rfl
  | cons e es ih =>
    obtain ⟨n, c⟩ := e
    cases h : k == n with
    | false => simp [lookup_cons, h, ih]
    | true =>
      obtain rfl := eq_of_beq h
      simp

lemma get?_map [BEq κ] [LawfulBEq κ] : (t.map f).get? k = (t.get? k).map f :=
  get?_mapEntries (g := fun _ => f)

variable [BEq κ] [LawfulBEq κ]

lemma lookup_cons_ne {e : κ × α} (h : k ≠ e.1) : (e :: es).lookup k = es.lookup k := by
  rw [lookup_cons, beq_eq_false_iff_ne.mpr h]

lemma lookup_putEntry : (putEntry k a es).lookup j = if j == k then some a else es.lookup j := by
  induction es with
  | nil => cases h : j == k <;> simp [putEntry, lookup_cons, h]
  | cons e es ih =>
    obtain ⟨n, c⟩ := e
    by_cases hn : n = k
    · subst hn
      cases h : j == n <;> simp [putEntry, lookup_cons, h]
    · by_cases hj : j = n
      · subst hj
        simp [putEntry, hn]
      · have put : putEntry k a ((n, c) :: es) = (n, c) :: putEntry k a es := by simp [putEntry, hn]
        rw [put, lookup_cons_ne hj, lookup_cons_ne hj, ih]

@[simp] lemma get?_put_same : (t.put k a).get? k = some a := by simp [get?, put, lookup_putEntry]

lemma get?_put_other (h : j ≠ k) : (t.put k a).get? j = t.get? j := by
  simp [get?, put, lookup_putEntry, h]

lemma get?_put [DecidableEq κ] : (t.put k a).get? j = if j = k then some a else t.get? j := by
  simp [get?, put, lookup_putEntry]

lemma get?_erase [DecidableEq κ] : (t.erase k).get? j = if j = k then none else t.get? j := by
  obtain ⟨es⟩ := t
  simp only [get?, erase]
  induction es with
  | nil => simp
  | cons e es ih =>
    by_cases hk : e.1 = k
    · subst hk
      rw [filter_cons_of_neg (by simp), ih]
      split
      · rfl
      · next hj => rw [lookup_cons_ne hj]
    · rw [filter_cons_of_pos (by simpa using hk)]
      by_cases hj : j = e.1
      · rw [lookup_cons, lookup_cons, beq_iff_eq.mpr hj, if_neg (hj ▸ hk)]
      · rw [lookup_cons_ne hj, lookup_cons_ne hj, ih]

lemma get?_foldl_erase [DecidableEq κ] :
    (ks.foldl erase t).get? j = if j ∈ ks then none else t.get? j := by
  induction ks generalizing t with
  | nil => simp
  | cons k ks ih =>
    rw [foldl_cons, ih, get?_erase]
    by_cases hj : j = k
    · simp [hj]
    · simp [hj]

lemma get?_eq_none : t.get? k = none ↔ k ∉ t.keys := by
  simp only [get?, keys, lookup_eq_none_iff, mem_map, not_exists, not_and, bne_iff_ne]
  exact ⟨fun h e he hk => h e he hk.symm, fun h e he hk => h e he hk.symm⟩

lemma mem_keys : k ∈ t.keys ↔ ∃ a, t.get? k = some a := by
  rw [← Option.isSome_iff_exists, Option.isSome_iff_ne_none, Ne, get?_eq_none, not_not]

lemma mem_of_get? (h : t.get? k = some a) : (k, a) ∈ t.entries := by
  obtain ⟨es, es', e, _⟩ := lookup_eq_some_iff.mp h
  simp [e]

lemma get?_of_mem (nd : t.keys.Nodup) (h : (k, a) ∈ t.entries) : t.get? k = some a := by
  obtain ⟨es, es', e⟩ := append_of_mem h
  refine lookup_eq_some_iff.mpr ⟨es, es', e, fun p hp => ?_⟩
  rw [keys, e, map_append, nodup_append] at nd
  simpa using (nd.2.2 p.1 (mem_map_of_mem hp) k (by simp)).symm

lemma get?_of_sameBy {r : α → α → Bool} {u : Table κ α} (nd : t.keys.Nodup)
    (h : t.sameBy r u = true) (k : κ) : t.get? k = none ∧ u.get? k = none ∨
      ∃ a b, t.get? k = some a ∧ u.get? k = some b ∧ r a b = true := by
  simp only [sameBy, Bool.and_eq_true, beq_iff_eq, all_eq_true] at h
  obtain ⟨size, all⟩ := h
  have within : ∀ {k a}, t.get? k = some a → ∃ b, u.get? k = some b ∧ r a b = true := by
    intro k a ha
    have here := all (k, a) (mem_of_get? ha)
    dsimp only at here
    split at here
    · next b hb => exact ⟨b, hb, here⟩
    · cases here
  have sub : t.keys ⊆ u.keys := by
    intro k hk
    obtain ⟨a, ha⟩ := mem_keys.mp hk
    obtain ⟨b, hb, -⟩ := within ha
    exact mem_keys.mpr ⟨b, hb⟩
  have perm : t.keys.Perm u.keys := by
    refine (subperm_of_subset nd sub).perm_of_length_le ?_
    simp only [keys, length_map]
    exact Nat.le_of_eq size.symm
  cases hk : t.get? k with
  | some a =>
    obtain ⟨b, hb, hr⟩ := within hk
    exact .inr ⟨a, b, rfl, hb, hr⟩
  | none =>
    rw [get?_eq_none, perm.mem_iff] at hk
    exact .inl ⟨rfl, get?_eq_none.mpr hk⟩

lemma entries_eq_map_keys (nd : t.keys.Nodup) (d : α) :
    t.entries = t.keys.map fun k => (k, t.getD k d) := by
  rw [keys, map_map]
  refine (map_id _).symm.trans (map_congr_left fun e he => ?_)
  rw [Function.comp_apply, getD, get?_of_mem nd he]
  rfl

lemma eq_of_get? {t' : Table κ α} (d : α) (nd : t.keys.Nodup) (keys : t'.keys = t.keys)
    (get : ∀ k ∈ t.keys, t'.get? k = t.get? k) : t' = t := by
  have entries : t'.entries = t.entries := by
    rw [entries_eq_map_keys nd d, entries_eq_map_keys (keys ▸ nd) d, keys]
    exact map_congr_left fun k hk => by rw [getD, getD, get k hk]
  cases t
  cases t'
  exact congrArg Table.mk entries

lemma keys_put_of_mem (h : k ∈ t.keys) : (t.put k a).keys = t.keys := by
  obtain ⟨es⟩ := t
  simp only [keys, put] at h ⊢
  induction es with
  | nil => simp at h
  | cons e es ih =>
    by_cases he : e.1 = k
    · simp [putEntry, he]
    · have hk : k ∈ es.map Prod.fst := by simpa [Ne.symm he] using h
      simp [putEntry, he, ih hk]

lemma entries_put_of_not_mem (h : k ∉ t.keys) : (t.put k a).entries = t.entries ++ [(k, a)] := by
  obtain ⟨es⟩ := t
  simp only [keys, put] at h ⊢
  induction es with
  | nil => rfl
  | cons e es ih =>
    simp only [map_cons, mem_cons, not_or] at h
    simp [putEntry, Ne.symm h.1, ih h.2]

lemma keys_put_of_not_mem (h : k ∉ t.keys) : (t.put k a).keys = t.keys ++ [k] := by
  simp [keys, entries_put_of_not_mem h]

lemma mem_keys_put : j ∈ (t.put k a).keys ↔ j = k ∨ j ∈ t.keys := by
  by_cases h : k ∈ t.keys
  · rw [keys_put_of_mem h]
    constructor
    · exact .inr
    · rintro (rfl | hj)
      · exact h
      · exact hj
  · simp [keys_put_of_not_mem h, or_comm]

lemma nodup_put (nd : t.keys.Nodup) : (t.put k a).keys.Nodup := by
  by_cases h : k ∈ t.keys
  · rwa [keys_put_of_mem h]
  · rw [keys_put_of_not_mem h, ← concat_eq_append]
    exact nd.concat h

lemma entries_ofList (nd : (es.map Prod.fst).Nodup) : (ofList es).entries = es := by
  have all : ∀ (es : List (κ × α)) (t : Table κ α), (t.keys ++ es.map Prod.fst).Nodup →
      (es.foldl (fun t e => t.put e.1 e.2) t).entries = t.entries ++ es := by
    intro es
    induction es with
    | nil => simp
    | cons e es ih =>
      intro t nd
      have new : e.1 ∉ t.keys := fun h => (nodup_append.mp nd).2.2 e.1 h e.1 (by simp) rfl
      rw [foldl_cons, ih, entries_put_of_not_mem new]
      · simp
      · rw [keys_put_of_not_mem new]
        simpa using nd
  simpa [ofList] using all es empty nd

lemma get?_foldl_put [DecidableEq κ] {f : κ → α} :
    ((ks.map fun k => (k, f k)).foldl (fun t e => t.put e.1 e.2) t).get? k =
      if k ∈ ks then some (f k) else t.get? k := by
  induction ks generalizing t with
  | nil => simp
  | cons j ks ih =>
    rw [map_cons, foldl_cons, ih]
    by_cases hk : k ∈ ks
    · simp [hk]
    · by_cases hj : k = j
      · subst hj
        simp
      · simp [hk, hj, get?_put_other hj]

lemma get?_ofList_map [DecidableEq κ] {f : κ → α} :
    (ofList (ks.map fun k => (k, f k))).get? k = if k ∈ ks then some (f k) else none := by
  rw [ofList, get?_foldl_put, get?_empty]

lemma getD_put_same : (t.put k a).getD k d = a := by simp [getD]

lemma getD_put_other (h : j ≠ k) : (t.put k a).getD j d = t.getD j d := by
  simp [getD, get?_put_other h]

lemma getD_mapEntries {g : κ → α → β} {e : β} (h : g k d = e) :
    (⟨t.entries.map fun e => (e.1, g e.1 e.2)⟩ : Table κ β).getD k e = g k (t.getD k d) := by
  rw [getD, get?_mapEntries, getD]
  cases t.get? k with
  | none => exact h.symm
  | some a => rfl

lemma getD_map_keys {f : κ → α} (h : k ∈ ks) :
    (⟨ks.map fun k => (k, f k)⟩ : Table κ α).getD k d = f k := by
  simp only [getD, get?]
  induction ks with
  | nil => cases h
  | cons j ks ih =>
    by_cases hk : k = j
    · simp [hk]
    · rw [map_cons, lookup_cons_ne hk]
      exact ih ((mem_cons.mp h).resolve_left hk)

@[simp] lemma getD_map_nil : (t.map fun _ => ([] : List β)).getD k [] = [] := by
  rw [getD, get?_map]
  cases t.get? k <;> rfl

lemma getD_alter_append [DecidableEq κ] {t : Table κ (List α)} {a : α} :
    (t.alter k fun as => as.getD [] ++ [a]).getD j [] =
      if j = k then t.getD k [] ++ [a] else t.getD j [] := by
  by_cases h : j = k
  · subst h
    simp [alter, getD]
  · simp [alter, getD, get?_put_other h, h]

end Table

lemma Table.mapM_entries [BEq κ] [LawfulBEq κ] {t : Table κ α} {g : κ × α → Outcome β}
    (h : t.entries.mapM (fun e => do return (e.1, ← g e)) = .ok es) :
    (⟨es⟩ : Table κ β).keys = t.keys ∧ ∀ k a, t.get? k = some a →
      ∃ b, g (k, a) = .ok b ∧ (⟨es⟩ : Table κ β).get? k = some b := by
  obtain ⟨entries⟩ := t
  have all := mapM_eq_ok.mp h
  clear h
  dsimp only at all
  induction all with
  | nil => simp [keys, get?]
  | @cons e e' es es' he _ ih =>
    obtain ⟨j, c⟩ := e
    obtain ⟨b, hb, he⟩ := of_bind he
    obtain rfl := pure_eq_ok.mp he
    refine ⟨by simpa [keys] using ih.1, fun k a hk => ?_⟩
    by_cases hkj : k = j
    · subst hkj
      obtain rfl : c = a := by simpa [get?] using hk
      exact ⟨b, hb, by simp [get?]⟩
    · simp only [get?] at hk ⊢
      rw [lookup_cons_ne hkj] at hk
      rw [lookup_cons_ne (e := (j, b)) hkj]
      exact ih.2 k a hk

lemma Table.fetch_eq_ok : t.fetch k = .ok a ↔ t.get? k = some a := ofOption_eq_ok

lemma Table.getD_of_fetch (h : t.fetch k = .ok a) : t.getD k d = a := by
  rw [Table.getD, Table.fetch_eq_ok.mp h, Option.getD_some]

lemma Table.fetch_of_mem (d : α) (h : k ∈ t.keys) : t.fetch k = .ok (t.getD k d) := by
  obtain ⟨a, ha⟩ := mem_keys.mp h
  rw [fetch_eq_ok, getD, ha, Option.getD_some]

lemma Table.mapM_fetch {ks : List String} (d : α) (h : ∀ k ∈ ks, k ∈ t.keys) :
    ks.mapM t.fetch = .ok (ks.map fun k => t.getD k d) :=
  mapM_ok fun k hk => fetch_of_mem d (h k hk)

namespace Members

variable {α : Type} [BEq α] [LawfulBEq α] {s t : List α} {ss : List (List α)} {a b : α}

@[simp] lemma mem_add : b ∈ add s a ↔ b ∈ s ∨ b = a := by
  unfold add
  split
  · next h =>
    constructor
    · exact .inl
    · rintro (hb | rfl)
      · exact hb
      · simpa using h
  · simp

lemma nodup_add (nd : s.Nodup) : (add s a).Nodup := by
  unfold add
  split
  · exact nd
  · next h =>
    rw [← concat_eq_append]
    exact nd.concat (by simpa using h)

omit [LawfulBEq α] in
lemma length_add_le : (add s a).length ≤ s.length + 1 := by
  unfold add
  split <;> simp

@[simp] lemma mem_addAll : b ∈ addAll s t ↔ b ∈ s ∨ b ∈ t := by
  unfold addAll
  induction t generalizing s with
  | nil => simp
  | cons a t ih => simp [ih, or_assoc]

lemma nodup_addAll (nd : s.Nodup) : (addAll s t).Nodup := by
  induction t generalizing s with
  | nil => exact nd
  | cons a t ih => exact ih (nodup_add nd)

@[simp] lemma mem_meet : b ∈ meet s t ↔ b ∈ s ∧ b ∈ t := by simp [meet]

lemma mem_foldl_meet : b ∈ ss.foldl meet s ↔ b ∈ s ∧ ∀ t ∈ ss, b ∈ t := by
  induction ss generalizing s with
  | nil => simp
  | cons t ss ih => simp [ih, and_assoc]

@[simp] lemma mem_unionAll : b ∈ unionAll ss ↔ ∃ s ∈ ss, b ∈ s := by
  have acc : ∀ s, b ∈ ss.foldl addAll s ↔ b ∈ s ∨ ∃ t ∈ ss, b ∈ t := by
    induction ss with
    | nil => simp
    | cons t ss ih =>
      simp [ih, or_assoc]
  simp [unionAll, acc]

lemma nodup_unionAll : (unionAll ss).Nodup := by
  have acc : ∀ s : List α, s.Nodup → (ss.foldl addAll s).Nodup := by
    induction ss with
    | nil => exact fun _ nd => nd
    | cons t ss ih => exact fun s nd => ih _ (nodup_addAll nd)
  exact acc [] nodup_nil

omit [LawfulBEq α] in
lemma same_comm : same s t = same t s := Bool.and_comm _ _

lemma same_iff : same s t = true ↔ ∀ a, a ∈ s ↔ a ∈ t := by
  simp only [same, Bool.and_eq_true, all_eq_true, contains_iff_mem]
  constructor
  · rintro ⟨h, h'⟩ a
    exact ⟨h a, h' a⟩
  · intro h
    exact ⟨fun a => (h a).mp, fun a => (h a).mpr⟩

end Members

end BrilKit
