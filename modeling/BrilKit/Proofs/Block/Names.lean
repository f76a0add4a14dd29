import BrilKit.Proofs.Block.Terminated

/-!
# Names of blocks

Blocks without a label get names that are new among the names given so far, but not among the labels
still to come. Main statement: if all labels of a body differ, its table keeps every block exactly if
no name that is made up turns out to be the label of a later block.
-/

namespace BrilKit

open List Table

def Block.name? (b : Block) : Option String := b.head?.bind Instr.label

namespace NamedBlocks

variable {t : NamedBlocks} {bs pre post : List Block} {b : Block} {n : String} {is : List Instr}

/-- The name under which a block is added. -/
def nextName (t : NamedBlocks) (b : Block) : String := b.name?.getD (freshName "b" t.keys)

/-- No name that is made up for a block is the label of a block behind it. -/
def Unclaimed (bs : List Block) : Prop :=
  ∀ pre b post, bs = pre ++ b :: post → b.name? = none →
    ∀ c ∈ post, c.name? ≠ some (freshName "b" (ofBlocks pre).keys)

lemma addBlock_nextName (h : b ≠ []) : t.addBlock b = t.put (nextName t b) b.code := by
  obtain ⟨i, js, rfl⟩ := exists_cons_of_ne_nil h
  cases hl : i.label <;> simp [addBlock, nextName, Block.name?, Block.code, Block.label?, hl]

lemma ofBlocks_concat : ofBlocks (bs ++ [b]) = (ofBlocks bs).addBlock b := by simp [ofBlocks]

lemma ofBlocks_append : ofBlocks (bs ++ b :: post) = post.foldl addBlock ((ofBlocks bs).addBlock b) := by
  simp [ofBlocks]

lemma size_put_of_mem {c : Block} (h : n ∈ t.keys) : (t.put n c).size = t.size := by
  simpa [Table.keys, size] using congrArg length (keys_put_of_mem (a := c) h)

lemma size_put_of_not_mem {c : Block} (h : n ∉ t.keys) : (t.put n c).size = t.size + 1 := by
  simp [size, entries_put_of_not_mem h]

/-- Every name has been given to a block. -/
lemma exists_of_mem_keys (ne : ∀ b ∈ bs, b ≠ []) (h : n ∈ (ofBlocks bs).keys) :
    ∃ pre b post, bs = pre ++ b :: post ∧ nextName (ofBlocks pre) b = n := by
  induction bs using reverseRecOn with
  | nil => cases h
  | append_singleton bs b ih =>
    rw [ofBlocks_concat, addBlock_nextName (ne b (by simp)), mem_keys_put] at h
    obtain rfl | h := h
    · exact ⟨bs, b, [], rfl, rfl⟩
    · obtain ⟨pre, c, post, rfl, hc⟩ := ih (fun c hc => ne c (by simp [hc])) h
      exact ⟨pre, c, post ++ [b], by simp, hc⟩

lemma size_ofBlocks (ne : ∀ b ∈ bs, b ≠ [])
    (new : ∀ pre b post, bs = pre ++ b :: post → nextName (ofBlocks pre) b ∉ (ofBlocks pre).keys) :
    (ofBlocks bs).size = bs.length := by
  induction bs using reverseRecOn with
  | nil => rfl
  | append_singleton bs b ih =>
    rw [ofBlocks_concat, addBlock_nextName (ne b (by simp)), size_put_of_not_mem (new bs b [] rfl),
      ih (fun c hc => ne c (by simp [hc])) fun pre c post e => new pre c (post ++ [b]) (by simp [e]),
      length_append, length_singleton]

/-- A block whose name is taken replaces another one. -/
lemma size_ofBlocks_lt (hb : b ≠ []) (old : nextName (ofBlocks bs) b ∈ (ofBlocks bs).keys) :
    (ofBlocks (bs ++ b :: post)).size < (bs ++ b :: post).length := by
  have before : (ofBlocks bs).size ≤ bs.length := by
    simpa [ofBlocks, size] using size_foldl_le .empty bs
  have behind := size_foldl_le ((ofBlocks bs).addBlock b) post
  rw [← ofBlocks_append, addBlock_nextName hb, size_put_of_mem old] at behind
  rw [length_append, length_cons]
  omega

lemma name?_mem (h : b.name? = some n) : n ∈ b.filterMap Instr.label := by
  obtain ⟨i, hi, hl⟩ := Option.bind_eq_some_iff.mp h
  exact mem_filterMap.mpr ⟨i, mem_of_mem_head? hi, hl⟩

lemma zipWith_code {ns : List String} (h : Forall₂ GoesBy bs ns) :
    zipWith (fun b e => b.label?.toList ++ e.2) bs ((bs.zip ns).map fun e => (e.2, e.1.code)) =
      bs := by
  induction h with
  | nil => rfl
  | cons _ _ ih => simp [Block.label?_append_code, ih]

/-- If all labels differ and no name that is made up is a later label, the table has the blocks of a
body in their order, each one under its label if it has one, and the labels put back in front give the
body. Otherwise the table has less entries than there are blocks. -/
theorem ofBody_keeps_blocks (distinct : (is.filterMap Instr.label).Nodup) :
    (Unclaimed (Block.split is) → ∃ ns, Listed is ns ∧
      (zipWith (fun b e => b.label?.toList ++ e.2) (Block.split is) (ofBody is).entries).flatten = is) ∧
    (¬ Unclaimed (Block.split is) → (ofBody is).size < (Block.split is).length) := by
  have ne : ∀ b ∈ Block.split is, b ≠ [] := fun b hb => (Block.wellCut_of_mem_split hb).nonempty
  rw [← Block.flatten_split is, filterMap_flatten] at distinct
  constructor
  · intro free
    have size : (ofBlocks (Block.split is)).size = (Block.split is).length := by
      refine size_ofBlocks ne fun pre b post e old => ?_
      unfold nextName at old
      cases hb : b.name? with
      | none => exact freshName_not_mem (by simpa [hb] using old)
      | some l =>
        have sub : ∀ c ∈ pre, c ∈ Block.split is := fun c hc => by simp [e, hc]
        obtain ⟨pre', c, post', rfl, hc⟩ := exists_of_mem_keys (fun c hc => ne c (sub c hc)) old
        rw [hb, nextName] at hc
        cases hn : c.name? with
        | none => exact free pre' c (post' ++ b :: post) (by simp [e]) hn b (by simp) (by
            simpa [hn, hb] using hc.symm)
        | some m =>
          -- Two blocks with one label.
          obtain rfl : m = l := by simpa [hn] using hc
          rw [e, map_append, flatten_append, map_cons, flatten_cons] at distinct
          refine disjoint_of_nodup_append distinct (a := m) ?_ (mem_append_left _ (name?_mem hb))
          exact mem_flatten.mpr ⟨_, mem_map_of_mem (by simp), name?_mem hn⟩
    obtain ⟨ns, ls⟩ := exists_listed size
    refine ⟨ns, ls, ?_⟩
    rw [ls.entries, zipWith_code ls.names, Block.flatten_split]
  · intro claimed
    simp only [Unclaimed, not_forall, not_not] at claimed
    obtain ⟨pre, b, post, e, hb, c, hc, hn⟩ := claimed
    obtain ⟨mid, post, rfl⟩ := append_of_mem hc
    rw [e] at ne
    have split : pre ++ b :: (mid ++ c :: post) = (pre ++ b :: mid) ++ c :: post := by simp
    rw [ofBody, e, split]
    refine size_ofBlocks_lt (ne c (by simp)) ?_
    rw [nextName, hn, Option.getD_some, ofBlocks_append]
    refine (exists_key_foldl fun d hd => ne d (by simp [hd])).1 ?_
    rw [addBlock_nextName (ne b (by simp)), mem_keys_put, nextName, hb]
    exact .inl rfl

/-- A body whose first block gets the name of the second one. -/
def overtaken : List Instr := [{ op := some "nop" }, .labelled "b1", { op := some "ret" }]

theorem ofBody_keeps_blocks_overtaken :
    (ofBody overtaken).size < (Block.split overtaken).length := by
  refine (ofBody_keeps_blocks (by decide)).2 fun free => ?_
  exact free [] [{ op := some "nop" }] [[.labelled "b1", { op := some "ret" }]] (by decide +kernel)
    rfl _ (mem_singleton_self _) (by decide +kernel)

end NamedBlocks

end BrilKit
