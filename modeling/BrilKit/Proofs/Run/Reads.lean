import BrilKit.DataFlow.Facts
import BrilKit.Proofs.Run.Block

/-!
# Variables that a block reads first

An environment that defines what a block reads before it assigns it is all that the block needs: its
run never reads a variable without a value.
-/

namespace BrilKit

open List

namespace Block

open Machine

variable {W : Type} {other : Behaviour Val W}
  {b : Block} {i : Instr} {r : Reads} {op x : String} {e e' : Env Val} {w w' : W}
  {es : List (Event Val)}

lemma mem_found_foldl (h : x ∈ (b.foldl Reads.take r).found) :
    x ∈ r.found ∨ ∃ i ∈ b, x ∈ i.uses := by
  induction b generalizing r with
  | nil => exact .inl h
  | cons i b ih =>
    obtain hx | ⟨j, hj, hx⟩ := ih h
    · obtain hx | hx := Members.mem_addAll.mp hx
      · exact .inl hx
      · exact .inr ⟨i, by simp, (mem_filter.mp hx).1⟩
    · exact .inr ⟨j, by simp [hj], hx⟩

lemma mem_uses_of_readFirst (h : x ∈ readFirst b) : ∃ i ∈ b, x ∈ i.uses := by
  obtain hx | hx := mem_found_foldl h
  · cases hx
  · exact hx

lemma found_subset_foldl (h : x ∈ r.found) : x ∈ (b.foldl Reads.take r).found := by
  induction b generalizing r with
  | nil => exact h
  | cons i b ih => exact ih (Members.mem_addAll.mpr (.inl h))

lemma found_of_use (hx : x ∈ i.uses) (ha : x ∉ r.assigned) : x ∈ (r.take i).found := by
  refine Members.mem_addAll.mpr (.inr (mem_filter.mpr ⟨hx, ?_⟩))
  simpa using ha

lemma assigned_take (h : x ∈ (r.take i).assigned) : x ∈ r.assigned ∨ i.dest = some x := by
  unfold Reads.take at h
  cases hd : i.dest with
  | none =>
    rw [hd] at h
    exact .inl h
  | some d =>
    rw [hd] at h
    obtain h | rfl := Members.mem_add.mp h
    · exact .inl h
    · exact .inr rfl

lemma perform_defines (h : perform other i op e w = .ok (e', w', es))
    (hx : (e x).isSome = true ∨ i.dest = some x) : (e' x).isSome = true := by
  unfold perform at h
  cases heff : effect (.core other) op i.shape (i.uses.map e) w with
  | none =>
    rw [heff] at h
    cases h
  | some result =>
    obtain ⟨result, w₁, es₁⟩ := result
    rw [heff] at h
    cases hd : i.dest with
    | none =>
      rw [hd] at h hx
      cases h
      exact hx.resolve_right nofun
    | some d =>
      rw [hd] at h hx
      cases result with
      | none => cases h
      | some v =>
        cases h
        by_cases hxd : x = d
        · rw [hxd, Env.set_same, Option.isSome_some]
        · rw [Env.set_other hxd]
          exact hx.resolve_right fun eq => hxd (Option.some.inj eq).symm

/-- The run of the items behind those that have been taken in never reads a variable without a
value, if all that will have been found and all that has been assigned is defined. -/
lemma run_ne_undefined (core : ∀ i ∈ b, i.Core)
    (found : ∀ x ∈ (b.foldl Reads.take r).found, (e x).isSome = true)
    (assigned : ∀ x ∈ r.assigned, (e x).isSome = true) :
    (run other b e w).2 ≠ .undefined := by
  induction b generalizing r e w with
  | nil =>
    intro h
    cases h
  | cons i b ih =>
    have operands : (i.uses.map e).all Option.isSome = true := by
      refine all_eq_true.mpr (forall_mem_map.mpr fun x hx => ?_)
      by_cases ha : x ∈ r.assigned
      · exact assigned x ha
      · exact found x (found_subset_foldl (b := b) (found_of_use hx ha))
    have fails : (fault (i.uses.map e) : Ending W) ≠ .undefined := by
      rw [fault, if_pos operands]
      intro h
      cases h
    have rest (e' : Env Val) (w : W)
        (keeps : ∀ x, (e x).isSome = true ∨ i.dest = some x → (e' x).isSome = true) :
        (run other b e' w).2 ≠ .undefined := by
      refine ih (r := r.take i) (fun j hj => core j (by simp [hj])) ?_ ?_
      · exact fun x hx => keeps x (.inl (found x hx))
      · intro x hx
        obtain hx | hx := assigned_take hx
        · exact keeps x (.inl (assigned x hx))
        · exact keeps x (.inr hx)
    rw [run]
    cases ho : i.op with
    | none =>
      obtain ⟨hd, _⟩ := (core i (by simp)).of_not_op ho
      refine rest e w fun x hx => hx.resolve_right fun h => ?_
      rw [hd] at h
      cases h
    | some op =>
      cases ht : i.isTerminator with
      | true =>
        cases hx : leave (.core other) i op e with
        | none => simpa [hx] using fails
        | some exit => simp [hx]
      | false =>
        cases hp : perform other i op e w with
        | ok result =>
          obtain ⟨e', w', es⟩ := result
          simpa [hp] using rest e' w' fun x => perform_defines hp
        | error trap =>
          cases trap with
          | none => simpa [hp] using fails
          | some trap => simp [hp]

lemma proper_of_readFirst (core : ∀ i ∈ b, i.Core)
    (defined : ∀ x ∈ readFirst b, (e x).isSome = true) (typed : (run other b e w).2 ≠ .mistyped) :
    (run other b e w).2.Proper := by
  have read : (run other b e w).2 ≠ .undefined := run_ne_undefined core defined nofun
  revert read typed
  cases (run other b e w).2 with
  | left exit env world => exact fun _ _ => trivial
  | trapped trap => exact fun _ _ => trivial
  | undefined => exact fun _ read => absurd rfl read
  | mistyped => exact fun typed _ => absurd rfl typed

end Block

end BrilKit
