import BrilKit.Block.Named
import BrilKit.Proofs.Data.Table
import Mathlib.Data.List.Chain

/-!
# Blocks of a body

The blocks of a body put together are the body; a label stands only at the start of a block, a
terminator only at the end, and behind a block that does not end with a terminator the next one
starts with a label. The names that the blocks get are those of their labels.
-/

namespace BrilKit

open List Table

def Instr.IsItem (i : Instr) : Prop :=
  (i.op = none ∧ ∃ l, i.label = some l) ∨ (i.label = none ∧ ∃ op, i.op = some op)

instance (i : Instr) : Decidable i.IsItem :=
  decidable_of_iff (i.op = none ∧ i.label.isSome = true ∨ i.label = none ∧ i.op.isSome = true)
    (by simp [Instr.IsItem, Option.isSome_iff_exists])

lemma Instr.IsItem.label_of_isOp {i : Instr} (h : i.IsItem) (ho : i.isOp = true) :
    i.label = none := by
  obtain ⟨hn, _⟩ | ⟨hl, _⟩ := h
  · simp [Instr.isOp, hn] at ho
  · exact hl

lemma Instr.IsItem.isOp_or_label {i : Instr} (h : i.IsItem) :
    i.isOp = true ∨ i.label.isSome = true := by
  obtain ⟨_, l, hl⟩ | ⟨_, op, ho⟩ := h
  · exact .inr (by simp [hl])
  · exact .inl (by simp [Instr.isOp, ho])

lemma Instr.isOp_of_isTerminator {i : Instr} (h : i.isTerminator = true) : i.isOp = true := by
  cases ho : i.op with
  | none => simp [Instr.isTerminator, ho] at h
  | some op => simp [Instr.isOp, ho]

lemma Instr.not_isTerminator {i : Instr} (h : i.isOp = false) : i.isTerminator = false :=
  Bool.eq_false_iff.mpr fun term => Bool.eq_false_iff.mp h (isOp_of_isTerminator term)

namespace Block

variable {is : List Instr} {b c r : Block} {bs : List Block} {i j : Instr}

def Ended (b : Block) : Bool := b.getLast?.any Instr.isTerminator

/-- What is true of every block that `split` gives. -/
structure WellCut (b : Block) : Prop where
  nonempty : b ≠ []
  tail : ∀ i ∈ b.tail, i.isOp = true
  ends : ∀ done i todo, b = done ++ i :: todo → i.isTerminator = true → todo = []

/-- Control falls from one block into the next only where a label stands. -/
def Adjoins (b c : Block) : Prop := Ended b = true ∨ ∃ i, c.head? = some i ∧ i.isOp = false

lemma wellCut_singleton : WellCut [i] where
  nonempty := by simp
  tail := by simp
  ends done j todo h _ := by
    cases done with
    | nil => simpa using (List.cons.inj h).2.symm
    | cons k done => simp at h

lemma wellCut_cons :
    WellCut (i :: j :: r) ↔ i.isTerminator = false ∧ j.isOp = true ∧ WellCut (j :: r) := by
  constructor
  · intro h
    refine ⟨?_, h.tail j (by simp), by simp, fun k hk => h.tail k (mem_of_mem_tail hk), ?_⟩
    · by_contra ht
      exact cons_ne_nil j r (h.ends [] i (j :: r) rfl (by simpa using ht))
    · exact fun done k todo e => h.ends (i :: done) k todo (congrArg (i :: ·) e)
  · rintro ⟨hi, hj, h⟩
    refine ⟨by simp, forall_mem_cons.mpr ⟨hj, h.tail⟩, fun done k todo e ht => ?_⟩
    cases done with
    | nil =>
      obtain ⟨rfl, _⟩ := List.cons.inj e
      rw [hi] at ht
      cases ht
    | cons d done => exact h.ends done k todo (List.cons.inj e).2 ht

/-- Only the last item of the block can be a terminator. -/
def Unbroken (b : Block) : Prop :=
  ∀ done i todo, b = done ++ i :: todo → i.isTerminator = true → todo = []

lemma unbroken_append (hopen : ∀ j ∈ b, j.isTerminator = false) : Unbroken (b ++ [i]) := by
  intro done j todo e ht
  obtain rfl | ⟨todo, k, rfl⟩ := eq_nil_or_concat todo
  · rfl
  · rw [concat_eq_append, ← cons_append, ← append_assoc] at e
    obtain ⟨rfl, _⟩ := append_inj' e rfl
    rw [hopen j (by simp)] at ht
    cases ht

lemma wellCut_append (hopen : ∀ j ∈ b, j.isTerminator = false) (ops : ∀ j ∈ b.tail, j.isOp = true)
    (hi : b ≠ [] → i.isOp = true) : WellCut (b ++ [i]) where
  nonempty := by simp
  tail j hj := by
    cases b with
    | nil => simp at hj
    | cons a b =>
      obtain hj | hj := mem_append.mp hj
      · exact ops j hj
      · rw [mem_singleton.mp hj]
        exact hi (cons_ne_nil a b)
  ends := unbroken_append hopen

lemma adjoins_cons : Adjoins (i :: j :: r) c ↔ Adjoins (j :: r) c := by
  simp [Adjoins, Ended]

/-- The blocks together are the body, and it is cut where it has to be and nowhere else. -/
structure IsPartition (is : List Instr) (bs : List Block) : Prop where
  flatten : bs.flatten = is
  cut : ∀ b ∈ bs, WellCut b
  adjoins : bs.IsChain Adjoins

lemma IsPartition.cons (h : IsPartition is bs) : IsPartition (i :: is) (Block.cons i bs) := by
  obtain ⟨rfl, cut, adjoins⟩ := h
  unfold Block.cons
  split
  · exact ⟨rfl, by simp [wellCut_singleton], .singleton _⟩
  · next b bs =>
    obtain ⟨first, rest⟩ := forall_mem_cons.mp cut
    obtain ⟨j, r, rfl⟩ := exists_cons_of_ne_nil first.nonempty
    dsimp only
    split
    · next hc =>
      refine ⟨rfl, forall_mem_cons.mpr ⟨wellCut_singleton, cut⟩, .cons_cons ?_ adjoins⟩
      obtain ht | hj := by simpa using hc
      · exact .inl (by simpa [Ended] using ht)
      · exact .inr ⟨j, rfl, hj⟩
    · next hc =>
      obtain ⟨hi, hj⟩ : i.isTerminator = false ∧ j.isOp = true := by simpa using hc
      refine ⟨rfl, forall_mem_cons.mpr ⟨wellCut_cons.mpr ⟨hi, hj, first⟩, rest⟩, ?_⟩
      cases adjoins with
      | singleton => exact .singleton _
      | cons_cons had adjoins => exact .cons_cons (adjoins_cons.mpr had) adjoins

lemma isPartition_split (is : List Instr) : IsPartition is (split is) := by
  induction is with
  | nil => exact ⟨rfl, by simp [split], .nil⟩
  | cons i is ih => exact ih.cons

lemma flatten_split (is : List Instr) : (split is).flatten = is := (isPartition_split is).flatten

lemma wellCut_of_mem_split (h : b ∈ split is) : WellCut b := (isPartition_split is).cut b h

lemma adjoins_split : (split is).IsChain Adjoins := (isPartition_split is).adjoins

lemma split_append (hb : WellCut b) (adjoins : ∀ c ∈ (split is).head?, Adjoins b c) :
    split (b ++ is) = b :: split is := by
  induction b with
  | nil => exact absurd rfl hb.nonempty
  | cons i b ih =>
    cases b with
    | nil =>
      rw [cons_append, nil_append, split]
      cases hs : split is with
      | nil => rfl
      | cons c bs =>
        obtain ⟨j, r, rfl⟩ : ∃ j r, c = j :: r :=
          exists_cons_of_ne_nil (wellCut_of_mem_split (hs ▸ mem_cons_self)).nonempty
        have had : i.isTerminator = true ∨ j.isOp = false := by
          simpa [Adjoins, Ended] using adjoins (j :: r) (by rw [hs]; rfl)
        simp [Block.cons, had]
    | cons j b =>
      obtain ⟨hi, hj, hb⟩ := wellCut_cons.mp hb
      rw [cons_append, split, ih hb fun c hc => adjoins_cons.mp (adjoins c hc)]
      simp [Block.cons, hi, hj]

lemma IsPartition.eq_split (h : IsPartition is bs) : bs = split is := by
  obtain ⟨rfl, cut, adjoins⟩ := h
  induction bs with
  | nil => rfl
  | cons b bs ih =>
    obtain ⟨first, rest⟩ := forall_mem_cons.mp cut
    have hs : bs = split bs.flatten := ih rest adjoins.tail
    rw [List.flatten_cons, split_append first, ← hs]
    rw [← hs]
    exact (isChain_cons.mp adjoins).1

lemma split_terminator (hopen : ∀ j ∈ b, j.isTerminator = false) (ops : ∀ j ∈ b.tail, j.isOp = true)
    (ht : i.isTerminator = true) : split (b ++ i :: is) = (b ++ [i]) :: split is := by
  have hop := Instr.isOp_of_isTerminator ht
  rw [append_cons]
  exact split_append (wellCut_append hopen ops fun _ => hop) fun _ _ => .inl (by simpa [Ended] using ht)

lemma wellCut_of_open (hopen : ∀ j ∈ b, j.isTerminator = false) (ops : ∀ j ∈ b.tail, j.isOp = true)
    (hne : b ≠ []) : WellCut b := by
  refine ⟨hne, ops, fun done i todo e ht => ?_⟩
  rw [hopen i (by simp [e])] at ht
  cases ht

lemma split_label (hopen : ∀ j ∈ b, j.isTerminator = false) (ops : ∀ j ∈ b.tail, j.isOp = true)
    (hne : b ≠ []) (hi : i.isOp = false) : split (b ++ i :: is) = b :: split (i :: is) := by
  refine split_append (wellCut_of_open hopen ops hne) fun c hc => .inr ⟨i, ?_, hi⟩
  obtain ⟨bs, hs⟩ := head?_eq_some_iff.mp hc
  have flat := flatten_split (i :: is)
  obtain ⟨j, r, rfl⟩ : ∃ j r, c = j :: r :=
    exists_cons_of_ne_nil (wellCut_of_mem_split (hs ▸ mem_cons_self)).nonempty
  rw [hs] at flat
  exact congrArg some (List.cons.inj flat).1

/-- What is read on is cut as a whole: the block that is open stays in front. -/
lemma foldl_take_blocks {g : Gathered} (hopen : ∀ j ∈ g.current, j.isTerminator = false)
    (ops : ∀ j ∈ g.current.tail, j.isOp = true) :
    (is.foldl Gathered.take g).blocks = g.done ++ split (g.current ++ is) := by
  induction is generalizing g with
  | nil =>
    rw [foldl_nil, append_nil, Gathered.blocks]
    cases hc : g.current with
    | nil => simp [split]
    | cons a b =>
      rw [hc] at hopen ops
      have cut : WellCut (a :: b) := wellCut_of_open hopen ops (cons_ne_nil a b)
      have alone : split (a :: b ++ []) = (a :: b) :: split [] := split_append cut (by simp [split])
      simpa [split] using alone.symm
  | cons i is ih =>
    rw [foldl_cons]
    by_cases hop : i.isOp = true
    · by_cases ht : i.isTerminator = true
      · rw [show g.take i = ⟨g.done ++ [g.current ++ [i]], []⟩ by simp [Gathered.take, hop, ht],
          ih (by simp) (by simp), split_terminator hopen ops ht]
        simp
      · rw [show g.take i = { g with current := g.current ++ [i] } by simp [Gathered.take, hop, ht]]
        rw [ih]
        · simp
        · intro j hj
          obtain hj | hj := mem_append.mp hj
          · exact hopen j hj
          · rw [mem_singleton.mp hj]
            simpa using ht
        · intro j hj
          cases hc : g.current with
          | nil => simp [hc] at hj
          | cons a b =>
            rw [hc] at hj ops
            obtain hj | hj := mem_append.mp hj
            · exact ops j hj
            · rw [mem_singleton.mp hj]
              exact hop
    · have hop : i.isOp = false := by simpa using hop
      have ht := Instr.not_isTerminator hop
      cases hc : g.current with
      | nil =>
        rw [show g.take i = { g with current := [i] } by simp [Gathered.take, hop, hc],
          ih (by simpa using ht) (by simp)]
        simp
      | cons a b =>
        rw [hc] at hopen ops
        rw [show g.take i = ⟨g.done ++ [a :: b], [i]⟩ by simp [Gathered.take, hop, hc],
          ih (by simpa using ht) (by simp), split_label hopen ops (cons_ne_nil a b) hop]
        simp

/-- Blocks that are gathered from the start of a body are those that are put together from its end.
-/
lemma collect_eq_split (is : List Instr) : collect is = split is :=
  foldl_take_blocks (g := {}) (by simp) (by simp)

lemma not_ended (h : ∀ i ∈ b, i.isTerminator = false) : Ended b = false := by
  unfold Ended
  cases hl : b.getLast? with
  | none => rfl
  | some i => simpa using h i (mem_of_getLast? hl)

lemma Unbroken.isOpen (unbroken : Unbroken b) (h : Ended b = false) :
    ∀ i ∈ b, i.isTerminator = false := by
  intro i hi
  cases ht : i.isTerminator with
  | false => rfl
  | true =>
    obtain ⟨done, todo, rfl⟩ := append_of_mem hi
    obtain rfl := unbroken done i todo rfl ht
    simp [Ended, ht] at h

lemma exists_last (h : Ended b = true) (unbroken : Unbroken b) :
    ∃ is last, b = is ++ [last] ∧ last.isTerminator = true ∧ ∀ i ∈ is, i.isTerminator = false := by
  unfold Ended at h
  cases hl : b.getLast? with
  | none => simp [hl] at h
  | some last =>
    obtain ⟨is, rfl⟩ := getLast?_eq_some_iff.mp hl
    refine ⟨is, last, rfl, by simpa using h, fun i hi => ?_⟩
    obtain ⟨done, todo, rfl⟩ := append_of_mem hi
    by_contra ht
    have hnil := unbroken done i (todo ++ [last]) (by simp) (by simpa using ht)
    simp at hnil

lemma exists_last_close (unbroken : Unbroken b) (hj : j.isTerminator = true) :
    ∃ is last, (b ++ if Ended b then [] else [j]) = is ++ [last] ∧ last.isTerminator = true ∧
      ∀ i ∈ is, i.isTerminator = false := by
  cases h : Ended b with
  | true => simpa using exists_last h unbroken
  | false => exact ⟨b, j, rfl, hj, unbroken.isOpen h⟩

def label? (b : Block) : Option Instr := b.head?.filter fun i => i.label.isSome

def code (b : Block) : Block := if b.label?.isSome then b.tail else b

lemma label?_append_code : b.label?.toList ++ b.code = b := by
  cases b with
  | nil => rfl
  | cons i r => cases h : i.label <;> simp [label?, code, Option.filter, h]

lemma mem_of_mem_split (hb : b ∈ split is) (hi : i ∈ b) : i ∈ is := by
  rw [← flatten_split is]
  exact mem_flatten.mpr ⟨b, hb, hi⟩

lemma mem_of_mem_code (hi : i ∈ b.code) : i ∈ b := by
  rw [← label?_append_code (b := b)]
  exact mem_append_right _ hi

lemma Unbroken.code (unbroken : Unbroken b) : Unbroken b.code := by
  intro done i todo hc
  refine unbroken (b.label?.toList ++ done) i todo ?_
  rw [append_assoc, ← hc, label?_append_code]

lemma isOp_of_mem_code (tail : ∀ j ∈ b.tail, j.isOp = true)
    (items : ∀ j ∈ b, j.isOp = true ∨ j.label.isSome = true) (hi : i ∈ b.code) : i.isOp = true := by
  cases b with
  | nil => simp [code] at hi
  | cons j r =>
    cases hl : j.label with
    | some l => exact tail i (by simpa [code, label?, hl] using hi)
    | none =>
      obtain rfl | hr := mem_cons.mp (by simpa [code, label?, hl] using hi)
      · exact (items i mem_cons_self).resolve_right (by simp [hl])
      · exact tail i hr

end Block

lemma toString_nat_inj {m n : Nat} (h : toString m = toString n) : m = n := by
  have e := congrArg (fun s => Nat.ofDigitChars 10 s.toList 0) h
  simpa using e

lemma freshName_not_mem {seed : String} {taken : List String} : freshName seed taken ∉ taken := by
  have inj : Function.Injective fun i : Nat => seed ++ toString (i + 1) := by
    intro i j h
    exact Nat.succ.inj (toString_nat_inj ((String.append_right_inj seed).mp h))
  have nd : ((List.range (taken.length + 1)).map fun i => seed ++ toString (i + 1)).Nodup :=
    nodup_range.map inj
  unfold freshName
  dsimp only
  cases hf : ((List.range (taken.length + 1)).map fun i => seed ++ toString (i + 1)).find?
      (fun n => !taken.contains n) with
  | some n => simpa using find?_some hf
  | none =>
    -- One more candidate than there are names taken, and no two candidates are equal.
    have sub : ((List.range (taken.length + 1)).map fun i => seed ++ toString (i + 1)) ⊆ taken := by
      intro n hn
      simpa using find?_eq_none.mp hf n hn
    have le := (subperm_of_subset nd sub).length_le
    simp only [length_map, length_range] at le
    omega

namespace NamedBlocks

variable {t : NamedBlocks} {bs : List Block}

def GoesBy (b : Block) (n : String) : Prop := ∀ i, b.label? = some i → i.label = some n

lemma addBlock_eq {b : Block} (h : b ≠ []) :
    ∃ n, GoesBy b n ∧ t.addBlock b = t.put n b.code := by
  cases b with
  | nil => exact absurd rfl h
  | cons i r =>
    cases hl : i.label with
    | some l =>
      refine ⟨l, ?_, by simp [addBlock, hl, Block.code, Block.label?]⟩
      intro j hj
      obtain ⟨_, rfl⟩ := by simpa [Block.label?, Option.filter] using hj
      exact hl
    | none =>
      refine ⟨freshName "b" t.keys, ?_, by simp [addBlock, hl, Block.code, Block.label?]⟩
      intro j hj
      simp [Block.label?, hl, Option.filter] at hj

lemma size_put_le {n : String} {b : Block} : (t.put n b).size ≤ t.size + 1 := by
  by_cases h : n ∈ t.keys
  · have e := congrArg List.length (keys_put_of_mem (a := b) h)
    simp only [Table.keys, length_map] at e
    simp only [Table.size]
    omega
  · simp [Table.size, entries_put_of_not_mem h]

lemma size_foldl_le (t : NamedBlocks) (bs : List Block) :
    (bs.foldl addBlock t).size ≤ t.size + bs.length := by
  induction bs generalizing t with
  | nil => simp
  | cons b bs ih =>
    have le : (t.addBlock b).size ≤ t.size + 1 := by
      by_cases hb : b = []
      · simp [hb, addBlock]
      · obtain ⟨n, _, e⟩ := addBlock_eq (t := t) hb
        rw [e]
        exact size_put_le
    have := ih (t := t.addBlock b)
    simp only [foldl_cons, length_cons]
    omega

/-- Blocks that get a name each stand in the table in their order, without their labels. -/
lemma foldl_addBlock (ne : ∀ b ∈ bs, b ≠ []) (nd : t.keys.Nodup)
    (own : (bs.foldl addBlock t).size = t.size + bs.length) :
    ∃ ns, Forall₂ GoesBy bs ns ∧ (bs.foldl addBlock t).keys.Nodup ∧
      (bs.foldl addBlock t).entries = t.entries ++ (bs.zip ns).map fun e => (e.2, e.1.code) := by
  induction bs generalizing t with
  | nil => exact ⟨[], .nil, nd, by simp⟩
  | cons b bs ih =>
    obtain ⟨n, hn, e⟩ := addBlock_eq (t := t) (ne b (by simp))
    rw [foldl_cons, e] at own ⊢
    have new : n ∉ t.keys := by
      intro h
      have e := congrArg List.length (keys_put_of_mem (a := b.code) h)
      simp only [Table.keys, length_map] at e
      have le := size_foldl_le (t.put n b.code) bs
      simp only [Table.size, length_cons] at own le
      omega
    have size : (t.put n b.code).size = t.size + 1 := by
      simp [Table.size, entries_put_of_not_mem new]
    obtain ⟨ns, go, nd', es⟩ := ih (fun c hc => ne c (by simp [hc])) (nodup_put nd)
      (by rw [own, length_cons]; omega)
    refine ⟨n :: ns, .cons hn go, nd', ?_⟩
    rw [es, entries_put_of_not_mem new]
    simp

end NamedBlocks

end BrilKit
