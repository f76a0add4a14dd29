import BrilKit.Block.Named
import BrilKit.Proofs.Data.Table
import Mathlib.Logic.Relation

/-!
# Reads and assignments along paths

A variable is live at the start of a block if some path from there comes to a read of it before it
comes to an assignment. Blocks and edges are given by functions, so that the notion serves blocks by
name and blocks by number.
-/

namespace BrilKit

namespace Block

variable {i : Instr} {b : Block} {x : String}

def Defines (b : Block) (x : String) : Prop := ∃ i ∈ b, i.dest = some x

def ReadsFirst (b : Block) (x : String) : Prop :=
  ∃ done i todo, b = done ++ i :: todo ∧ x ∈ i.uses ∧ ¬ Defines done x

@[simp] lemma not_defines_nil : ¬ Defines [] x := by simp [Defines]

@[simp] lemma defines_cons : Defines (i :: b) x ↔ i.dest = some x ∨ Defines b x := by simp [Defines]

@[simp] lemma not_readsFirst_nil : ¬ ReadsFirst [] x := by
  rintro ⟨done, i, todo, h, -⟩
  exact absurd h (by simp)

@[simp] lemma readsFirst_cons :
    ReadsFirst (i :: b) x ↔ x ∈ i.uses ∨ i.dest ≠ some x ∧ ReadsFirst b x := by
  constructor
  · rintro ⟨done, j, todo, h, hx, hd⟩
    cases done with
    | nil =>
      cases h
      exact .inl hx
    | cons k done =>
      cases h
      rw [defines_cons, not_or] at hd
      exact .inr ⟨hd.1, done, j, todo, rfl, hx, hd.2⟩
  · rintro (hx | ⟨hi, done, j, todo, rfl, hx, hd⟩)
    · exact ⟨[], i, b, rfl, hx, not_defines_nil⟩
    · refine ⟨i :: done, j, todo, rfl, hx, ?_⟩
      rw [defines_cons, not_or]
      exact ⟨hi, hd⟩

end Block

/-- Some path from the start of a block comes to a read of a variable before any assignment to it. -/
inductive ReadAhead {κ : Type} (block : κ → Option Block) (E : κ → κ → Prop) (x : String) :
    κ → Prop where
  | here {n : κ} {b : Block} : block n = some b → b.ReadsFirst x → ReadAhead block E x n
  | later {n m : κ} {b : Block} :
    block n = some b → ¬ b.Defines x → E n m → ReadAhead block E x m → ReadAhead block E x n

namespace NamedBlocks

/-- Control can pass from the end of a block to another one. -/
def PassesTo (t : NamedBlocks) (n m : String) : Prop :=
  ∃ b ls, t.get? n = some b ∧ exits b = .ok ls ∧ m ∈ ls

/-- Every block ends with a terminator, whose targets are blocks. -/
def Targeted (t : NamedBlocks) : Prop :=
  ∀ n b, t.get? n = some b → ∃ ls, exits b = .ok ls ∧ ∀ l ∈ ls, l ∈ t.keys

/-- A path of at least one edge leads to a block from one that assigns a variable. -/
def AssignedBefore (t : NamedBlocks) (x n : String) : Prop :=
  ∃ m b, t.get? m = some b ∧ b.Defines x ∧ Relation.TransGen t.PassesTo m n

end NamedBlocks

end BrilKit
