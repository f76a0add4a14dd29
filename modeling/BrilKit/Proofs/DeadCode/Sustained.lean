import BrilKit.Proofs.DeadCode.Confluence

/-!
# What is left when unread assignments are gone

The loop that removes assignments to unread variables ends with the largest part of a body that
sustains itself: whatever one of its instructions assigns, one of its instructions reads.
-/

namespace BrilKit

open List

namespace DeadCode

/-- Every variable that is assigned is read. -/
def Sustained (is : List Instr) : Prop := ∀ i ∈ is, ∀ d, i.dest = some d → ∃ j ∈ is, d ∈ j.uses

variable {is js : List Instr} {n : Nat}

/-- What sustains itself reads its own variables, also as a part of a larger body. -/
lemma Sustained.sublist_dropUnread (h : Sustained js) (sub : js.Sublist is) :
    js.Sublist (dropUnread is) := by
  have kept : ∀ i ∈ js, (!isUnread (is.flatMap Instr.uses) i) = true := by
    intro i hi
    cases hd : i.dest with
    | none => simp [isUnread, hd]
    | some d =>
      obtain ⟨j, hj, use⟩ := h i hi d hd
      simpa [isUnread, hd] using ⟨j, sub.subset hj, use⟩
  rw [← filter_eq_self.mpr kept]
  exact sub.filter _

/-- The bound on the number of rounds has no influence: a body without instructions needs none. -/
lemma dropUnreadWithin_succ (bound : is.length ≤ n) :
    dropUnreadWithin (n + 1) is = dropUnreadWithin n is := by
  induction n generalizing is with
  | zero =>
    obtain rfl := length_eq_zero_iff.mp (Nat.le_zero.mp bound)
    rfl
  | succ n ih =>
    have le := (sieved_dropUnread is).sublist.length_le
    by_cases same : (dropUnread is).length = is.length
    · simp [dropUnreadWithin, same]
    · have rest : dropUnreadWithin (n + 1) (dropUnread is) = dropUnreadWithin n (dropUnread is) :=
        ih (by omega)
      rw [dropUnreadWithin, rest]
      simp [dropUnreadWithin, same]

/-- The parts of a body that sustain themselves stay as long as rounds follow one another. -/
lemma reduces_dropUnread (is : List Instr) : Reduces
    (fun js => js.Sublist is ∧ ∀ ks, ks.Sublist is → Sustained ks → ks.Sublist js)
    (shortening dropUnread) := by
  refine reduces_shortening (fun js h => ⟨?_, fun ks sub own => ?_⟩)
    fun js _ => (sieved_dropUnread js).sublist
  · exact (sieved_dropUnread js).sublist.trans h.1
  · exact own.sublist_dropUnread (h.2 ks sub own)

lemma dropUnreadAll_of_sustained (h : Sustained is) : dropUnreadAll is = is := by
  have same : dropUnread is = is :=
    (sieved_dropUnread is).sublist.antisymm (h.sublist_dropUnread (.refl is))
  rw [dropUnreadAll, ← dropUnreadWithin_succ (Nat.le_refl _), dropUnreadWithin]
  simp [same]

/-- The removal of unread assignments ends. It leaves the largest part of a body that sustains
itself, and nothing more to remove. -/
theorem dropUnreadAll_largest (f : Func) (is : List Instr) :
    Settles (shortening dropUnread) is (dropUnreadAll is) ∧
      (dropUnreadAll is).Sublist is ∧ Sustained (dropUnreadAll is) ∧
      (∀ js, js.Sublist is → Sustained js → js.Sublist (dropUnreadAll is)) ∧
      Pass.onFunc .dropUnreadAll (f.withBody is) = .ok (f.withBody (dropUnreadAll is)) ∧
      Pass.onFunc .dropUnreadAll (f.withBody (dropUnreadAll is)) =
        .ok (f.withBody (dropUnreadAll is)) := by
  have succ : ∀ n js, dropUnreadWithin (n + 1) js = if (shortening dropUnread js).2
      then dropUnreadWithin n (shortening dropUnread js).1 else (shortening dropUnread js).1 := by
    intro n js
    by_cases same : (dropUnread js).length = js.length <;>
      simp [dropUnreadWithin, shortening, same]
  obtain ⟨settles, ⟨sub, largest⟩, ended⟩ := (reduces_dropUnread is).settles dropUnreadWithin succ
    ⟨.refl is, fun _ sub _ => sub⟩ (Nat.lt_succ_self _)
  rw [dropUnreadWithin_succ (Nat.le_refl _), ← dropUnreadAll] at settles sub largest ended
  have own : Sustained (dropUnreadAll is) := fun i hi d hd =>
    mem_flatMap.mp (read_of_dropUnread (by simpa [shortening] using ended) hi hd)
  refine ⟨settles, sub, own, largest, rfl, ?_⟩
  exact congrArg (Except.ok ∘ f.withBody) (dropUnreadAll_of_sustained own)

end DeadCode

end BrilKit
