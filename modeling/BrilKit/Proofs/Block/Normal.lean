import BrilKit.Proofs.Block.Reassemble
import BrilKit.Proofs.Block.Terminated

/-!
# Normal form of a body

A body whose control flow has been made explicit is in normal form when it is put together again: every
block has a label and a terminator, and nothing leads to the first one. Doing so again changes nothing.
-/

namespace BrilKit

open List Outcome Table

namespace NamedBlocks

variable {is : List Instr} {t : NamedBlocks} {r : String}

def normalize (is : List Instr) : Outcome (List Instr) := do return (← explicit is).reassemble

/-- Every block starts with a label and ends with its only terminator, and the first label is not
mentioned. -/
structure NormalForm (is : List Instr) : Prop where
  blocks : ∀ b ∈ Block.split is, ∃ l code, b = .labelled l :: code ∧ Block.Complete code
  entry : ∃ l rest, is = .labelled l :: rest ∧ ∀ i ∈ is, l ∉ i.labels.getD []

/-- A body of labels and operations with a label for every one that is mentioned. -/
structure SelfContained (is : List Instr) : Prop where
  nonempty : is ≠ []
  items : ∀ i ∈ is, i.isOp = true ∨ ∃ l, i = .labelled l
  labels : ∀ i ∈ is, ∀ l ∈ i.labels.getD [], .labelled l ∈ is

/-- Named blocks that are in normal form as they stand. -/
structure Normal (t : NamedBlocks) (r : String) : Prop where
  names : t.keys.Nodup
  complete : ∀ e ∈ t.entries, Block.Complete e.2
  first : t.keys.head? = some r
  unnamed : ∀ e ∈ t.entries, ∀ i ∈ e.2, r ∉ i.labels.getD []

lemma SelfContained.exists_normal (sc : SelfContained is) :
    ∃ t r, explicit is = .ok t ∧ Normal t r := by
  have items : ∀ i ∈ is, i.isOp = true ∨ i.label.isSome = true := by
    intro i hi
    obtain ho | ⟨l, rfl⟩ := sc.items i hi
    · exact .inl ho
    · exact .inr rfl
  obtain ⟨t, h⟩ := exists_explicit_of_items items sc.nonempty
  obtain ⟨t₁, h₁, keys, -⟩ := explicit_cases h
  obtain ⟨r, hr⟩ : ∃ r, t.keys.head? = some r := keys ▸ (addEntry_keys h₁).2
  refine ⟨t, r, h, nodup_explicit h, fun e => explicit_complete items h, hr, fun e he i hi => ?_⟩
  -- The name of a new first block is none that a label has.
  refine explicit_unnamed h hr (get?_of_mem (nodup_explicit h) he) hi fun mem hl => ?_
  exact freshName_not_mem (mem_keys_of_label (sc.labels i mem _ hl) rfl rfl)

lemma Normal.exists_entries (nf : Normal t r) : ∃ b rest, t.entries = (r, b) :: rest := by
  obtain ⟨rest, hk⟩ := head?_eq_some_iff.mp nf.first
  obtain ⟨e, es, he, rfl, _⟩ := map_eq_cons_iff.mp hk
  exact ⟨e.2, es, he⟩

lemma Normal.normalize (nf : Normal t r) : normalize t.reassemble = .ok t.reassemble := by
  obtain ⟨b, rest, ht⟩ := nf.exists_entries
  obtain h | ⟨_, _, _, e, he, i, hi, hl⟩ := explicit_reassemble nf.names nf.complete ht
  · exact ok_bind h rfl
  · exact absurd hl (nf.unnamed e he i hi)

lemma Normal.normalForm (nf : Normal t r) : NormalForm t.reassemble where
  blocks b hb := by
    rw [split_reassemble nf.complete] at hb
    obtain ⟨e, he, rfl⟩ := mem_map.mp hb
    exact ⟨e.1, e.2, rfl, nf.complete e he⟩
  entry := by
    obtain ⟨b, rest, ht⟩ := nf.exists_entries
    refine ⟨r, b ++ rest.flatMap fun e => .labelled e.1 :: e.2, by simp [reassemble, ht], ?_⟩
    intro i hi
    obtain ⟨e, he, hi⟩ := mem_flatMap.mp hi
    obtain rfl | hi := mem_cons.mp hi
    · simp [Instr.labelled]
    · exact nf.unnamed e he i hi

/-- Normalising a body gives a normal form, which is kept when it is normalised again. -/
theorem normalize_normalForm (sc : SelfContained is) :
    ∃ out, normalize is = .ok out ∧ NormalForm out ∧ normalize out = .ok out := by
  obtain ⟨t, r, h, nf⟩ := sc.exists_normal
  exact ⟨t.reassemble, ok_bind h rfl, nf.normalForm, nf.normalize⟩

/-- The phi mentions the first label, the operation behind the jump has none, and the last label stands
alone. -/
def untidy : List Instr :=
  [.labelled "a", .labelled "b",
    { op := some "phi", dest := some "x", args := some ["x"], labels := some ["a"] }, .jump "b",
    { op := some "nop" }, .labelled "c"]

theorem normalize_normalForm_untidy : SelfContained untidy ∧
    ∃ out, normalize untidy = .ok out ∧ NormalForm out ∧ normalize out = .ok out := by
  have sc : SelfContained untidy := ⟨by decide, by simp [untidy, Instr.isOp, Instr.jump], by decide⟩
  exact ⟨sc, normalize_normalForm sc⟩

end NamedBlocks

end BrilKit
