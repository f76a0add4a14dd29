import BrilKit.Proofs.Block.Split
import BrilKit.Proofs.Run.Machine

/-!
# Nothing leads to the first block

The blocks of any body with explicit control flow have names of their own, end with their only
terminators, and hold items of the body and the terminators that are added.
-/

namespace BrilKit

open List Outcome Table

/-- The block is made of operations, and its last one is its only terminator. -/
structure Block.Complete (b : Block) : Prop where
  ops : ∀ i ∈ b, i.isOp = true
  ended : ∃ is last, b = is ++ [last] ∧ last.isTerminator = true ∧ ∀ i ∈ is, i.isTerminator = false

namespace NamedBlocks

variable {is : List Instr} {t t₁ : NamedBlocks} {b : Block} {i : Instr} {n r : String}

/-- No jump or branch uses the name that a new first block gets. -/
def EntryUnnamed (is : List Instr) : Prop :=
  ∀ i ∈ is, i.Branches → freshName "entry" (ofBody is).keys ∉ i.labels.getD []

instance : Decidable (EntryUnnamed is) :=
  inferInstanceAs (Decidable (∀ i ∈ is, i.op = some "jmp" ∨ i.op = some "br" → _))

/-- Blocks with names of their own, made of given items. -/
structure MadeOf (is : List Instr) (t : NamedBlocks) : Prop where
  names : t.keys.Nodup
  items : ∀ e ∈ t.entries, ∀ i ∈ e.2, i ∈ is

/-- What holds of the code of every block holds of the blocks that have got names. -/
lemma forall_foldl_addBlock {P : Block → Prop} {bs : List Block} (ne : ∀ b ∈ bs, b ≠ [])
    (hb : ∀ b ∈ bs, P b.code) (nd : t.keys.Nodup) (h : ∀ e ∈ t.entries, P e.2) :
    (bs.foldl addBlock t).keys.Nodup ∧ ∀ e ∈ (bs.foldl addBlock t).entries, P e.2 := by
  induction bs generalizing t with
  | nil => exact ⟨nd, h⟩
  | cons b bs ih =>
    obtain ⟨hne, ne⟩ := forall_mem_cons.mp ne
    obtain ⟨first, rest⟩ := forall_mem_cons.mp hb
    obtain ⟨n, _, put⟩ := addBlock_eq (t := t) hne
    have nd' : (t.put n b.code).keys.Nodup := nodup_put nd
    rw [foldl_cons, put]
    refine ih ne rest nd' fun e he => ?_
    have hget := get?_of_mem nd' he
    rw [get?_put] at hget
    split at hget
    · rwa [← Option.some.inj hget]
    · exact h e (mem_of_get? hget)

lemma forall_ofBody {P : Block → Prop} (h : ∀ b ∈ Block.split is, P b.code) :
    (ofBody is).keys.Nodup ∧ ∀ e ∈ (ofBody is).entries, P e.2 :=
  forall_foldl_addBlock (fun _ hb => (Block.wellCut_of_mem_split hb).nonempty) h nodup_nil (by simp)

lemma madeOf_ofBody : MadeOf is (ofBody is) := by
  obtain ⟨names, items⟩ := forall_ofBody (P := fun c => ∀ i ∈ c, i ∈ is) fun b hb i hi =>
    Block.mem_of_mem_split hb (Block.mem_of_mem_code hi)
  exact ⟨names, items⟩

lemma exists_key_foldl {bs : List Block} (ne : ∀ b ∈ bs, b ≠ []) :
    t.keys ⊆ (bs.foldl addBlock t).keys ∧ ∀ b ∈ bs, ∃ n ∈ (bs.foldl addBlock t).keys, GoesBy b n := by
  induction bs generalizing t with
  | nil => exact ⟨Subset.refl _, by simp⟩
  | cons b bs ih =>
    obtain ⟨hne, ne⟩ := forall_mem_cons.mp ne
    obtain ⟨n, goes, put⟩ := addBlock_eq (t := t) hne
    obtain ⟨sub, rest⟩ := ih (t := t.put n b.code) ne
    rw [foldl_cons, put]
    exact ⟨fun m hm => sub (mem_keys_put.mpr (.inr hm)),
      forall_mem_cons.mpr ⟨⟨n, sub (mem_keys_put.mpr (.inl rfl)), goes⟩, rest⟩⟩

lemma exists_key (hb : b ∈ Block.split is) : ∃ n ∈ (ofBody is).keys, GoesBy b n :=
  (exists_key_foldl fun _ hb => (Block.wellCut_of_mem_split hb).nonempty).2 b hb

lemma mem_keys_of_label (hi : i ∈ is) (ho : i.isOp = false) (hl : i.label = some n) :
    n ∈ (ofBody is).keys := by
  rw [← Block.flatten_split is] at hi
  obtain ⟨b, hb, hi⟩ := mem_flatten.mp hi
  obtain ⟨m, hm, goes⟩ := exists_key hb
  cases b with
  | nil => cases hi
  | cons a r =>
    obtain rfl | hr := mem_cons.mp hi
    · rwa [← Option.some.inj ((goes i (by simp [Block.label?, hl])).symm.trans hl)]
    · rw [(Block.wellCut_of_mem_split hb).tail i hr] at ho
      cases ho

/-- A new block is put in front, or nothing mentions the block that is there. -/
lemma addEntry_cases (h : t.addEntry = .ok t₁) :
    t₁ = ⟨(freshName "entry" t.keys, []) :: t.entries⟩ ∨
      t₁ = t ∧ ∃ r, t.keys.head? = some r ∧ ∀ e ∈ t.entries, ∀ i ∈ e.2, r ∉ i.labels.getD [] := by
  unfold addEntry at h
  split at h
  · cases h
  · next first _ _ hes =>
    split at h
    · cases h
      exact .inl rfl
    · next unused =>
      cases h
      refine .inr ⟨rfl, first, by simp [Table.keys, hes], fun e he i hi hl => unused ?_⟩
      refine any_eq_true.mpr ⟨e.2, mem_map_of_mem he, ?_⟩
      exact any_eq_true.mpr ⟨i, hi, by simpa [mentions] using hl⟩

lemma addEntry_keys (h : t.addEntry = .ok t₁) :
    t.keys ⊆ t₁.keys ∧ ∃ r, t₁.keys.head? = some r := by
  obtain rfl | ⟨rfl, r, hr, _⟩ := addEntry_cases h
  · exact ⟨subset_cons_self _ _, _, rfl⟩
  · exact ⟨Subset.refl _, r, hr⟩

lemma forall_addEntry {P : Block → Prop} (h : (ofBody is).addEntry = .ok t) (hnil : P [])
    (hb : ∀ b ∈ Block.split is, P b.code) : t.keys.Nodup ∧ ∀ e ∈ t.entries, P e.2 := by
  obtain ⟨names, all⟩ := forall_ofBody hb
  obtain rfl | ⟨rfl, _⟩ := addEntry_cases h
  · exact ⟨nodup_cons.mpr ⟨freshName_not_mem, names⟩, forall_mem_cons.mpr ⟨hnil, all⟩⟩
  · exact ⟨names, all⟩

lemma madeOf_addEntry (h : (ofBody is).addEntry = .ok t) : MadeOf is t := by
  obtain ⟨names, items⟩ := forall_addEntry (P := fun c => ∀ i ∈ c, i ∈ is) h (by simp) fun b hb i hi =>
    Block.mem_of_mem_split hb (Block.mem_of_mem_code hi)
  exact ⟨names, items⟩

lemma addEntry_unnamed (h : (ofBody is).addEntry = .ok t) (hr : t.keys.head? = some r)
    {e : String × Block} (he : e ∈ t.entries) (hi : i ∈ e.2)
    (un : i ∈ is → freshName "entry" (ofBody is).keys ∉ i.labels.getD []) :
    r ∉ i.labels.getD [] := by
  have item : i ∈ is := (madeOf_addEntry h).items e he i hi
  obtain rfl | ⟨rfl, first, hf, unused⟩ := addEntry_cases h
  · obtain rfl : freshName "entry" (ofBody is).keys = r := by simpa [Table.keys] using hr
    exact un item
  · rw [← Option.some.inj (hf.symm.trans hr)]
    exact unused e he i hi

/-- What can be added to a block: a return, or a jump to a block that is not the first. -/
def Connects (ns : List String) (i : Instr) : Prop :=
  i = implicitReturn ∨ ∃ n ∈ ns.tail, i = .jump n

lemma Connects.op {ns : List String} (h : Connects ns i) :
    i.label = none ∧ i.dest = none ∧ i.isTerminator = true ∧ ∃ op, i.op = some op ∧ op ≠ "phi" := by
  obtain rfl | ⟨n, _, rfl⟩ := h
  · exact ⟨rfl, rfl, rfl, "ret", rfl, by decide⟩
  · exact ⟨rfl, rfl, rfl, "jmp", rfl, by decide⟩

lemma close_eq {c : Block} (h : close b i = .ok c) :
    c = b ++ if Block.Ended b then [] else [i] := by
  unfold close at h
  unfold Block.Ended
  split at h
  · next hl =>
    cases h
    simp [getLast?_eq_none_iff.mp hl]
  · next j hl =>
    obtain ⟨op, ho, h⟩ := of_bind h
    have hop : j.op = some op := ofOption_eq_ok.mp ho
    rw [← pure_eq_ok.mp h]
    simp only [hl, Option.any_some, Instr.isTerminator, hop]
    split <;> simp

/-- What ends the block of a number if it has no terminator. -/
def bridge (ns : List String) (k : Nat) : Instr := (ns[k + 1]?.map .jump).getD implicitReturn

def ended (ns : List String) (k : Nat) (b : Block) : Block :=
  b ++ if Block.Ended b then [] else [bridge ns k]

/-- Closing blocks keeps their names and puts at most a terminator behind each. -/
lemma closeAll_eq_mapIdx {es es' : List (String × Block)} (h : closeAll es = .ok es') :
    es' = es.mapIdx fun k e => (e.1, ended (es.map Prod.fst) k e.2) := by
  fun_induction closeAll es generalizing es' with
  | case1 =>
    cases h
    rfl
  | case2 n b =>
    obtain ⟨c, hc, h⟩ := of_bind h
    rw [← pure_eq_ok.mp h, close_eq hc]
    rfl
  | case3 n b m c rest ih =>
    obtain ⟨d, hd, h⟩ := of_bind h
    obtain ⟨es'', hes, h⟩ := of_bind h
    rw [← pure_eq_ok.mp h, close_eq hd, ih hes]
    simp only [mapIdx_cons]
    rfl

lemma closeAll_keys {es es' : List (String × Block)} (h : closeAll es = .ok es') :
    es'.map Prod.fst = es.map Prod.fst := by
  rw [closeAll_eq_mapIdx h]
  refine ext_getElem? fun k => ?_
  simp only [getElem?_map, getElem?_mapIdx, Option.map_map]
  rfl

lemma connects_bridge {ns : List String} {k : Nat} : Connects ns (bridge ns k) := by
  unfold bridge
  cases hm : ns[k + 1]? with
  | none => exact .inl rfl
  | some m => exact .inr ⟨m, mem_of_getElem? (i := k) (by rwa [getElem?_tail]), rfl⟩

lemma explicit_cases (h : explicit is = .ok t) : ∃ t₁ : NamedBlocks, (ofBody is).addEntry = .ok t₁ ∧
    t.keys = t₁.keys ∧ ∀ e ∈ t.entries, ∃ e₁ ∈ t₁.entries, ∃ j, Connects t.keys j ∧
      e.2 = e₁.2 ++ if Block.Ended e₁.2 then [] else [j] := by
  obtain ⟨t₁, h₁, h⟩ := of_bind h
  obtain ⟨es, hes, h⟩ := of_bind h
  obtain rfl := pure_eq_ok.mp h
  refine ⟨t₁, h₁, closeAll_keys hes, fun e he => ?_⟩
  rw [closeAll_eq_mapIdx hes] at he
  obtain ⟨k, hk, rfl⟩ := mem_mapIdx.mp he
  refine ⟨t₁.entries[k], getElem_mem hk, _, ?_, rfl⟩
  rw [Table.keys, closeAll_keys hes]
  exact connects_bridge

lemma explicit_items (h : explicit is = .ok t) : ∃ t₁ : NamedBlocks, (ofBody is).addEntry = .ok t₁ ∧
    t.keys = t₁.keys ∧ ∀ n b, t.get? n = some b → ∀ i ∈ b,
      (∃ e₁ ∈ t₁.entries, i ∈ e₁.2) ∨ Connects t.keys i := by
  obtain ⟨t₁, h₁, keys, blocks⟩ := explicit_cases h
  refine ⟨t₁, h₁, keys, fun n b hb i hi => ?_⟩
  obtain ⟨e₁, he₁, j, hj, rfl⟩ := blocks (n, b) (mem_of_get? hb)
  obtain hi | hi := mem_append.mp hi
  · exact .inl ⟨e₁, he₁, hi⟩
  · obtain rfl : i = j := by
      split at hi <;> simp_all
    exact .inr hj

lemma explicit_complete (items : ∀ i ∈ is, i.isOp = true ∨ i.label.isSome = true)
    (h : explicit is = .ok t) {e : String × Block} (he : e ∈ t.entries) : Block.Complete e.2 := by
  obtain ⟨t₁, h₁, -, blocks⟩ := explicit_cases h
  obtain ⟨e₁, he₁, j, hj, hc⟩ := blocks e he
  obtain ⟨ops, unbroken⟩ := (forall_addEntry
    (P := fun c => (∀ i ∈ c, i.isOp = true) ∧ Block.Unbroken c) h₁
    ⟨by simp, by simp [Block.Unbroken]⟩ fun b hb =>
      have cut := Block.wellCut_of_mem_split hb
      ⟨fun i => Block.isOp_of_mem_code cut.tail fun j hj => items j (Block.mem_of_mem_split hb hj),
        Block.Unbroken.code cut.ends⟩).2 e₁ he₁
  obtain ⟨_, _, ht, op, ho, _⟩ := hj.op
  rw [hc]
  refine ⟨forall_mem_append.mpr ⟨ops, fun i hi => ?_⟩, Block.exists_last_close unbroken ht⟩
  obtain rfl : i = j := by split at hi <;> simp_all
  simp [Instr.isOp, ho]

lemma nodup_explicit (h : explicit is = .ok t) : t.keys.Nodup := by
  obtain ⟨t₁, h₁, keys, _⟩ := explicit_cases h
  rw [keys]
  exact (madeOf_addEntry h₁).names

lemma mem_explicit (h : explicit is = .ok t) (hb : t.get? n = some b) (hi : i ∈ b) :
    i ∈ is ∨ Connects t.keys i := by
  obtain ⟨t₁, h₁, _, items⟩ := explicit_items h
  obtain ⟨e, he, hi⟩ | on := items n b hb i hi
  · exact .inl ((madeOf_addEntry h₁).items e he i hi)
  · exact .inr on

lemma explicit_unnamed (h : explicit is = .ok t) (hr : t.keys.head? = some r)
    (hb : t.get? n = some b) (hi : i ∈ b)
    (un : i ∈ is → freshName "entry" (ofBody is).keys ∉ i.labels.getD []) :
    r ∉ i.labels.getD [] := by
  obtain ⟨t₁, h₁, keys, items⟩ := explicit_items h
  obtain ⟨e, he, hi⟩ | rfl | ⟨m, hm, rfl⟩ := items n b hb i hi
  · exact addEntry_unnamed h₁ (keys ▸ hr) he hi un
  · simp [implicitReturn]
  · have nd := nodup_explicit h
    obtain ⟨rest, hrest⟩ : ∃ rest, t.keys = r :: rest := head?_eq_some_iff.mp hr
    rw [hrest] at hm nd
    intro hl
    obtain rfl : r = m := by simpa [Instr.jump] using hl
    exact (nodup_cons.mp nd).1 hm

end NamedBlocks

end BrilKit
