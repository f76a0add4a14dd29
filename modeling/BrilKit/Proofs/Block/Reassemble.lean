import BrilKit.Proofs.Block.Entry

/-!
# Blocks of a body that was put together

A body put together from blocks with a terminator each falls apart into the same blocks again. When
its control flow is made explicit, it gets at most a new entry.
-/

namespace BrilKit

open List

namespace Block

variable {is : List Instr} {b : Block} {i : Instr}

lemma split_complete (h : Complete b) (hi : i.isTerminator = false) :
    split (i :: (b ++ is)) = (i :: b) :: split is := by
  obtain ⟨ops, body, last, rfl, hlast, straight⟩ := h
  have hs : split (i :: body ++ last :: is) = (i :: body ++ [last]) :: split is :=
    split_terminator (forall_mem_cons.mpr ⟨hi, straight⟩)
      (fun j hj => ops j (mem_append_left [last] hj)) hlast
  simpa using hs

end Block

namespace NamedBlocks

variable {t : NamedBlocks}

lemma split_reassemble (h : ∀ e ∈ t.entries, Block.Complete e.2) :
    Block.split t.reassemble = t.entries.map fun e => .labelled e.1 :: e.2 := by
  obtain ⟨es⟩ := t
  induction es with
  | nil => rfl
  | cons e es ih =>
    have hs := ih fun e he => h e (by simp [he])
    simp only [reassemble, flatMap_cons, cons_append, map_cons] at hs ⊢
    rw [Block.split_complete (h e (by simp)) rfl, hs]

lemma ofBody_reassemble (nd : t.keys.Nodup) (h : ∀ e ∈ t.entries, Block.Complete e.2) :
    ofBody t.reassemble = t := by
  have fold : ofBlocks (t.entries.map fun e => .labelled e.1 :: e.2) = .ofList t.entries := by
    rw [ofBlocks, foldl_map]
    rfl
  rw [ofBody, split_reassemble h, fold]
  have e := Table.entries_ofList nd
  exact congrArg Table.mk e

lemma close_complete {b : Block} {i : Instr} (h : Block.Complete b) : close b i = .ok b := by
  obtain ⟨ops, is, last, rfl, hlast, _⟩ := h
  cases ho : last.op with
  | none => simp [Instr.isTerminator, ho] at hlast
  | some op =>
    have hc : terminators.contains op = true := by simpa [Instr.isTerminator, ho] using hlast
    have hop : last.getOp = .ok op := Outcome.ofOption_eq_ok.mpr ho
    rw [close, getLast?_concat]
    exact Outcome.ok_bind hop (by rw [if_pos hc]; rfl)

lemma closeAll_complete {es : List (String × Block)} (h : ∀ e ∈ es, Block.Complete e.2) :
    closeAll es = .ok es := by
  induction es with
  | nil => rfl
  | cons e es ih =>
    have hs := ih fun e he => h e (by simp [he])
    have he := close_complete (i := implicitReturn) (h e (by simp))
    cases es with
    | nil =>
      rw [closeAll, he]
      rfl
    | cons e' es =>
      rw [closeAll, close_complete (h e (by simp)), hs]
      rfl

lemma explicit_reassemble {n : String} {b : Block} {rest : List (String × Block)}
    (nd : t.keys.Nodup) (h : ∀ e ∈ t.entries, Block.Complete e.2)
    (ht : t.entries = (n, b) :: rest) :
    explicit t.reassemble = .ok t ∨
      ∃ m, m ∉ t.keys ∧ explicit t.reassemble = .ok ⟨(m, [.jump n]) :: t.entries⟩ ∧
        ∃ e ∈ t.entries, ∃ i ∈ e.2, n ∈ i.labels.getD [] := by
  have closed := closeAll_complete h
  rw [explicit, ofBody_reassemble nd h, addEntry, ht]
  dsimp only
  split
  · next mentioned =>
    refine .inr ⟨freshName "entry" t.keys, freshName_not_mem, ?_, ?_⟩
    · rw [ht] at closed
      change (do return Table.mk (← closeAll ((freshName "entry" t.keys, []) :: (n, b) :: rest))) = _
      rw [closeAll, closed]
      rfl
    · obtain ⟨c, hc, named⟩ := any_eq_true.mp mentioned
      obtain ⟨i, hi, hn⟩ := any_eq_true.mp named
      obtain ⟨e, he, rfl⟩ := mem_map.mp hc
      exact ⟨e, ht ▸ he, i, hi, by simpa [mentions] using hn⟩
  · refine .inl ?_
    change (do return Table.mk (← closeAll t.entries)) = _
    rw [closed]
    rfl

end NamedBlocks

end BrilKit
