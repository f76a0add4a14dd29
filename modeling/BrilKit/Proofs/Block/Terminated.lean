import BrilKit.Proofs.Block.Ahead
import BrilKit.Proofs.Block.Entry

/-!
# Named blocks with terminators

The blocks of a body under their names, each with a terminator at its end: that of the block, or a
jump to the next block, or a return behind the last one.
-/

namespace BrilKit

open List Outcome Table

variable {b : Block} {i : Instr}

lemma Block.filter_isOp (cut : WellCut b) (items : ∀ j ∈ b, j.IsItem) :
    b.filter Instr.isOp = b.code := by
  have code : b.code.filter Instr.isOp = b.code :=
    filter_eq_self.mpr fun i hi =>
      isOp_of_mem_code cut.tail (fun j hj => (items j hj).isOp_or_label) hi
  have label : b.label?.toList.filter Instr.isOp = [] := by
    rw [filter_eq_nil_iff]
    intro i hi ho
    obtain ⟨mem, hl⟩ : i ∈ b ∧ i.label.isSome = true := by
      obtain ⟨head, hl⟩ := Option.filter_eq_some_iff.mp (Option.mem_toList.mp hi)
      exact ⟨mem_of_head? head, hl⟩
    rw [(items i mem).label_of_isOp ho] at hl
    cases hl
  conv_lhs => rw [← label?_append_code (b := b)]
  rw [filter_append, code, label, nil_append]

lemma Block.getLast?_code (h : b.code ≠ []) : b.code.getLast? = b.getLast? := by
  conv_rhs => rw [← label?_append_code (b := b)]
  obtain ⟨i, hi⟩ := Option.ne_none_iff_exists'.mp (mt getLast?_eq_none_iff.mp h)
  rw [getLast?_append, hi, Option.some_or]

lemma Block.ended_code (cut : WellCut b) (items : ∀ j ∈ b, j.IsItem) : Ended b.code = Ended b := by
  by_cases h : b.code = []
  · have labels : ∀ i ∈ b, i.isTerminator = false := by
      intro i hi
      have none := filter_eq_nil_iff.mp ((filter_isOp cut items).trans h) i hi
      exact Instr.not_isTerminator (by simpa using none)
    rw [not_ended labels, h]
    rfl
  · rw [Ended, Ended, getLast?_code h]

namespace NamedBlocks

variable {is : List Instr} {t : NamedBlocks} {ns : List String} {b : Block} {bs : List Block} {k : Nat}
  {n m : String} {i : Instr} {es es' : List (String × Block)}

lemma targets_branch {ls : List String} (br : i.Branches) (hls : i.labels = some ls) :
    targets i = .ok ls := by
  obtain ho | ho := br <;> simp [targets, Instr.getOp, Instr.getLabels, ho, hls] <;> rfl

lemma targets_return (ho : i.op = some "ret") : targets i = .ok [] := by
  simp [targets, Instr.getOp, ho]
  rfl

lemma exists_close (ops : ∀ j ∈ b, j.isOp = true) : ∃ c, close b i = .ok c := by
  unfold close
  cases last : b.getLast? with
  | none => exact ⟨_, rfl⟩
  | some j =>
    obtain ⟨op, ho⟩ := Option.isSome_iff_exists.mp (ops j (mem_of_getLast? last))
    exact ⟨_, ok_bind (ofOption_eq_ok.mpr ho) rfl⟩

lemma exists_closeAll (ops : ∀ e ∈ es, ∀ i ∈ e.2, i.isOp = true) :
    ∃ es', closeAll es = .ok es' := by
  fun_induction closeAll es with
  | case1 => exact ⟨[], rfl⟩
  | case2 n b =>
    obtain ⟨c, hc⟩ := exists_close (i := implicitReturn) (ops (n, b) (by simp))
    exact ⟨_, ok_bind hc rfl⟩
  | case3 n b m c rest ih =>
    obtain ⟨d, hd⟩ := exists_close (i := .jump m) (ops (n, b) (by simp))
    obtain ⟨es', hes⟩ := ih fun e he => ops e (mem_cons_of_mem _ he)
    exact ⟨_, ok_bind hd (ok_bind hes rfl)⟩

lemma getElem?_closeAll (h : closeAll es = .ok es') (hb : es[k]? = some (n, b)) :
    es'[k]? = some (n, ended (es.map Prod.fst) k b) := by
  rw [closeAll_eq_mapIdx h, getElem?_mapIdx, hb]
  rfl

lemma exists_explicit_of_items (items : ∀ i ∈ is, i.isOp = true ∨ i.label.isSome = true)
    (nonempty : is ≠ []) : ∃ t, explicit is = .ok t := by
  obtain ⟨t₁, h₁⟩ : ∃ t₁, (ofBody is).addEntry = .ok t₁ := by
    unfold addEntry
    split
    · next he =>
      have none : Block.split is = [] := eq_nil_iff_forall_not_mem.mpr fun b hb => by
        obtain ⟨n, hn, _⟩ := exists_key hb
        simp [Table.keys, he] at hn
      have flat := Block.flatten_split is
      rw [none] at flat
      exact absurd flat.symm nonempty
    · split <;> exact ⟨_, rfl⟩
  have ops := (forall_addEntry (P := fun c => ∀ i ∈ c, i.isOp = true) h₁ (by simp) fun b hb i =>
    Block.isOp_of_mem_code (Block.wellCut_of_mem_split hb).tail fun j hj =>
      items j (Block.mem_of_mem_split hb hj)).2
  obtain ⟨es, hes⟩ := exists_closeAll ops
  exact ⟨⟨es⟩, ok_bind h₁ (ok_bind hes rfl)⟩

/-- If the labels of all branches name blocks, all targets of the closed blocks do. -/
lemma targeted_closeAll (h : closeAll es = .ok es')
    (labels : ∀ e ∈ es, ∀ i ∈ e.2, i.Branches →
      ∃ ls, i.labels = some ls ∧ ∀ l ∈ ls, l ∈ es.map Prod.fst) :
    Targeted ⟨es'⟩ := by
  have keys : es'.map Prod.fst = es.map Prod.fst := closeAll_keys h
  intro n b' hb'
  obtain ⟨k, hk⟩ := List.mem_iff_getElem?.mp (mem_of_get? hb')
  obtain ⟨⟨m, b⟩, hb⟩ : ∃ e, es[k]? = some e := by
    have len := congrArg List.length keys
    rw [length_map, length_map] at len
    exact ⟨_, List.getElem?_eq_getElem (len ▸ lt_of_getElem? hk)⟩
  cases hk.symm.trans (getElem?_closeAll h hb)
  show ∃ ls, exits _ = .ok ls ∧ ∀ l ∈ ls, l ∈ es'.map Prod.fst
  rw [keys]
  cases he : Block.Ended b with
  | false =>
    have last : (ended (es.map Prod.fst) k b).getLast? = some (bridge (es.map Prod.fst) k) := by
      simp [ended, he]
    rw [exits, last]
    unfold bridge
    cases hm : (es.map Prod.fst)[k + 1]? with
    | none => exact ⟨[], rfl, by simp⟩
    | some m => exact ⟨[m], rfl, by simpa using mem_of_getElem? hm⟩
  | true =>
    obtain ⟨i, hi, ht⟩ : ∃ i, b.getLast? = some i ∧ i.isTerminator = true := by
      simpa [Block.Ended, Option.any_eq_true] using he
    rw [show ended (es.map Prod.fst) k b = b by simp [ended, he], exits, hi]
    cases ho : i.op with
    | none => simp [Instr.isTerminator, ho] at ht
    | some op =>
      by_cases hr : op = "ret"
      · subst hr
        exact ⟨[], targets_return ho, by simp⟩
      · have br := Instr.branches_of_isTerminator ho ht hr
        obtain ⟨ls, hls, mem⟩ := labels _ (mem_of_getElem? hb) i (mem_of_getLast? hi) br
        exact ⟨ls, targets_branch br hls, mem⟩

def Resolved (is : List Instr) : Prop :=
  ∀ i ∈ is, i.Branches → ∃ ls, i.labels = some ls ∧ ∀ l ∈ ls, ∃ j ∈ is, j.label = some l

/-- The blocks of a body under names of their own. -/
structure Listed (is : List Instr) (ns : List String) : Prop where
  nodup : ns.Nodup
  names : Forall₂ GoesBy (Block.split is) ns
  entries : (ofBody is).entries = ((Block.split is).zip ns).map fun e => (e.2, e.1.code)

lemma exists_listed (named : (ofBody is).size = (Block.split is).length) : ∃ ns, Listed is ns := by
  obtain ⟨ns, go, nd, es⟩ := foldl_addBlock (t := .empty)
    (fun b hb => (Block.wellCut_of_mem_split hb).nonempty) nodup_nil
    (by simpa [ofBody, ofBlocks, Table.size] using named)
  have entries : (ofBody is).entries = ((Block.split is).zip ns).map fun e => (e.2, e.1.code) := by
    simpa [ofBody, ofBlocks] using es
  refine ⟨ns, ?_, go, entries⟩
  rw [Table.keys, ← ofBlocks, ← ofBody, entries, map_map] at nd
  rwa [← map_snd_zip go.length_eq.ge]

namespace Listed

variable {i : Instr} {l : String} (ls : Listed is ns)
include ls

lemma keys : (ofBody is).entries.map Prod.fst = ns := by
  rw [ls.entries, map_map]
  exact map_snd_zip ls.names.length_eq.ge

variable (items : ∀ i ∈ is, i.IsItem)
include items

lemma isOp {e : String × Block} (he : e ∈ (ofBody is).entries) (hi : i ∈ e.2) : i.isOp = true := by
  rw [ls.entries] at he
  obtain ⟨e', he', rfl⟩ := mem_map.mp he
  have hb := (of_mem_zip he').1
  exact Block.isOp_of_mem_code (Block.wellCut_of_mem_split hb).tail
    (fun j hj => (items j (Block.mem_of_mem_split hb hj)).isOp_or_label) hi

lemma label_mem (hi : i ∈ is) (hl : i.label = some l) : l ∈ ns := by
  rw [← ls.keys]
  refine mem_keys_of_label hi ?_ hl
  by_contra ho
  rw [(items i hi).label_of_isOp (by simpa using ho)] at hl
  cases hl

lemma labels_mem (resolved : Resolved is) (hi : i ∈ is) (br : i.Branches) :
    ∃ ms, i.labels = some ms ∧ ∀ l ∈ ms, l ∈ ns := by
  obtain ⟨ms, hms, found⟩ := resolved i hi br
  refine ⟨ms, hms, fun l hl => ?_⟩
  obtain ⟨j, hj, label⟩ := found l hl
  exact ls.label_mem items hj label

end Listed

/-- Blocks under names of their own, with their terminators. -/
structure Terminated (bs : List Block) (t : NamedBlocks) (ns : List String) : Prop where
  nodup : ns.Nodup
  names : Forall₂ GoesBy bs ns
  keys : t.keys = ns
  block : ∀ (k : Nat) b n, bs[k]? = some b → ns[k]? = some n → t.get? n = some (ended ns k b.code)

lemma terminated_of_closeAll (nodup : ns.Nodup) (names : Forall₂ GoesBy bs ns)
    (h : closeAll ((bs.zip ns).map fun e => (e.2, e.1.code)) = .ok es') :
    Terminated bs ⟨es'⟩ ns := by
  have fst : ((bs.zip ns).map fun e => (e.2, e.1.code)).map Prod.fst = ns := by
    rw [map_map]
    exact map_snd_zip names.length_eq.ge
  have keys : (⟨es'⟩ : NamedBlocks).keys = ns := (closeAll_keys h).trans fst
  refine ⟨nodup, names, keys, fun k b n hb hn => ?_⟩
  have here : ((bs.zip ns).map fun e => (e.2, e.1.code))[k]? = some (n, b.code) := by
    rw [getElem?_map, getElem?_zip_eq_some (z := (b, n)) |>.mpr ⟨hb, hn⟩]
    rfl
  have closed := getElem?_closeAll h here
  rw [fst] at closed
  exact get?_of_mem (keys ▸ nodup) (mem_of_getElem? closed)

/-- The blocks of a body that all get names of their own can be given terminators. -/
lemma exists_terminated (items : ∀ i ∈ is, i.IsItem)
    (named : (ofBody is).size = (Block.split is).length) :
    ∃ t ns, (ofBody is).addTerminators = .ok t ∧ Terminated (Block.split is) t ns ∧
      (Resolved is → t.Targeted) := by
  obtain ⟨ns, ls⟩ := exists_listed named
  obtain ⟨es', hes⟩ := exists_closeAll fun e he i => ls.isOp items he
  refine ⟨⟨es'⟩, ns, ok_bind hes rfl, terminated_of_closeAll ls.nodup ls.names (ls.entries ▸ hes),
    fun resolved => targeted_closeAll hes fun e he i hi br => ?_⟩
  rw [ls.keys]
  exact ls.labels_mem items resolved (madeOf_ofBody.items e he i hi) br

/-- With explicit control flow, they may stand behind an empty block. -/
lemma terminated_explicit (named : (ofBody is).size = (Block.split is).length)
    (h : explicit is = .ok t) :
    ∃ d ≤ 1, ∃ ns, Terminated (replicate d [] ++ Block.split is) t ns := by
  obtain ⟨ns, ls⟩ := exists_listed named
  obtain ⟨t₁, h₁, h⟩ := of_bind h
  obtain ⟨es, hes, e⟩ := of_bind h
  obtain rfl := pure_eq_ok.mp e
  obtain rfl | ⟨rfl, -⟩ := addEntry_cases h₁
  · have new : freshName "entry" (ofBody is).keys ∉ ns := by
      rw [← ls.keys]
      exact freshName_not_mem
    refine ⟨1, Nat.le_refl 1, freshName "entry" (ofBody is).keys :: ns,
      terminated_of_closeAll (nodup_cons.mpr ⟨new, ls.nodup⟩) (.cons ?_ ls.names) ?_⟩
    · exact fun i hi => by cases hi
    · rw [ls.entries] at hes
      exact hes
  · exact ⟨0, Nat.zero_le 1, ns, terminated_of_closeAll ls.nodup ls.names (ls.entries ▸ hes)⟩

/-- The blocks of such a body can be given explicit control flow, and nothing leads to the first. -/
lemma exists_explicit (items : ∀ i ∈ is, i.IsItem)
    (named : (ofBody is).size = (Block.split is).length) (resolved : Resolved is)
    (nonempty : is ≠ []) :
    ∃ t r, explicit is = .ok t ∧ t.entry = .ok r ∧ t.Targeted ∧ EntryUnnamed is := by
  obtain ⟨ns, ls⟩ := exists_listed named
  have fresh : EntryUnnamed is := by
    intro i hi br hl
    obtain ⟨ms, hms, mem⟩ := ls.labels_mem items resolved hi br
    rw [hms] at hl
    have key := mem _ hl
    rw [← ls.keys] at key
    exact freshName_not_mem key
  obtain ⟨t, h⟩ := exists_explicit_of_items (fun i hi => (items i hi).isOp_or_label) nonempty
  obtain ⟨t₁, h₁, h₂⟩ := of_bind h
  obtain ⟨es, hes, e⟩ := of_bind h₂
  obtain rfl := pure_eq_ok.mp e
  obtain ⟨sub, r, hr⟩ := addEntry_keys h₁
  have targeted : Targeted ⟨es⟩ := targeted_closeAll hes fun e he i hi br => by
    obtain ⟨ms, hms, mem⟩ := ls.labels_mem items resolved ((madeOf_addEntry h₁).items e he i hi) br
    exact ⟨ms, hms, fun l hl => sub (by rw [Table.keys, ls.keys]; exact mem l hl)⟩
  refine ⟨⟨es⟩, r, h, ?_, targeted, fresh⟩
  obtain ⟨rest, keys⟩ : ∃ rest, (Table.mk es).keys = r :: rest := by
    rw [Table.keys, closeAll_keys hes]
    exact head?_eq_some_iff.mp hr
  rw [entry, keys]

namespace Terminated

variable {i a : Instr} {c : Block} {q : Nat} {l : String} (tm : Terminated bs t ns)
include tm

lemma exists_name (hb : bs[k]? = some b) : ∃ n, ns[k]? = some n := by
  have len := tm.names.length_eq
  have lt := lt_of_getElem? hb
  exact ⟨_, List.getElem?_eq_getElem (len ▸ lt)⟩

lemma name_of_label (hc : bs[q]? = some c) (ha : c.head? = some a)
    (hl : a.label = some l) : ns[q]? = some l := by
  obtain ⟨n, hn⟩ := tm.exists_name hc
  have goes : GoesBy c n := by
    obtain ⟨hq, rfl⟩ := List.getElem?_eq_some_iff.mp hc
    obtain ⟨hq', rfl⟩ := List.getElem?_eq_some_iff.mp hn
    exact (forall₂_iff_get.mp tm.names).2 q hq hq'
  have label := goes a (Option.filter_eq_some_iff.mpr ⟨ha, by simp [hl]⟩)
  rw [hn, ← hl, label]

lemma exists_block (hn : n ∈ t.keys) :
    ∃ k b, bs[k]? = some b ∧ ns[k]? = some n ∧
      t.get? n = some (ended ns k b.code) := by
  obtain ⟨k, hk⟩ := List.mem_iff_getElem?.mp (tm.keys ▸ hn)
  have lt := lt_of_getElem? hk
  have hb := List.getElem?_eq_getElem (tm.names.length_eq ▸ lt)
  exact ⟨k, _, hb, hk, tm.block k _ n hb hk⟩

lemma passes_next (hb : bs[k]? = some b) (hn : ns[k]? = some n)
    (hm : ns[k + 1]? = some m) (open_ : Block.Ended b.code = false) : t.PassesTo n m := by
  refine ⟨_, [m], tm.block k b n hb hn, ?_, by simp⟩
  have last : (ended ns k b.code).getLast? = some (.jump m) := by simp [ended, open_, bridge, hm]
  rw [exits, last]
  rfl

lemma passes_label (hb : bs[k]? = some b) (hn : ns[k]? = some n)
    (hi : b.code.getLast? = some i) (br : i.Branches) (hl : l ∈ i.labels.getD []) :
    t.PassesTo n l := by
  obtain ⟨ls, hls⟩ : ∃ ls, i.labels = some ls := by
    cases h : i.labels with
    | none => simp [h] at hl
    | some ls => exact ⟨ls, rfl⟩
  refine ⟨_, ls, tm.block k b n hb hn, ?_, by simpa [hls] using hl⟩
  have closed : ended ns k b.code = b.code := by
    simp [ended, Block.Ended, hi, Instr.isTerminator_of_branches br]
  rw [closed, exits, hi]
  exact targets_branch br hls

omit tm in
lemma mem_block (tm : Terminated (Block.split is) t ns) (items : ∀ i ∈ is, i.IsItem)
    (hb : t.get? n = some b) (hi : i ∈ b) : i ∈ is ∧ i.isOp = true ∨ i.dest = none := by
  obtain ⟨k, c, hc, -, here⟩ := tm.exists_block (mem_keys.mpr ⟨b, hb⟩)
  obtain rfl := Option.mem_unique hb here
  have mem := mem_of_getElem? hc
  obtain hi | hi := mem_append.mp hi
  · exact .inl ⟨Block.mem_of_mem_split mem (Block.mem_of_mem_code hi),
      Block.isOp_of_mem_code (Block.wellCut_of_mem_split mem).tail
        (fun j hj => (items j (Block.mem_of_mem_split mem hj)).isOp_or_label) hi⟩
  · right
    split at hi
    · cases hi
    · rw [mem_singleton.mp hi, bridge]
      cases ns[k + 1]? <;> rfl

end Terminated

end NamedBlocks

end BrilKit
