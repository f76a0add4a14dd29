import BrilKit.Proofs.FlowGraph.Dominance
import BrilKit.Proofs.Ssa.Naming
import BrilKit.Proofs.Ssa.Numbering

/-!
# Versions that reach a block

Which versions of a variable can be in force at the start and at the end of a block, by the ways that
control can take from the blocks that assign the variable. Main statement: a block without a phi for
a variable is reached by one version of it at most.
-/

namespace BrilKit

open List

namespace Ssa

open FlowGraph

variable {b b' : Block} {i : Instr} {x n m d : String} {ν : Naming}

def IsVersion (x n : String) : Prop := '.' ∉ x.toList ∧ ∃ k, n = versionOf x k

lemma IsVersion.variableOf (h : IsVersion x n) : variableOf n = x := by
  obtain ⟨hx, k, rfl⟩ := h
  exact variableOf_versionOf hx

lemma IsVersion.not_variable (h : IsVersion x n) : ¬ IsVersion n m := by
  obtain ⟨_, k, rfl⟩ := h
  exact fun h => h.1 dot_mem_versionOf

lemma functional_isVersion : Functional IsVersion := by
  rintro x y n ⟨_, j, rfl⟩ ⟨_, k, e⟩
  exact (versionOf_inj e).1

def lastOf (x : String) : Block → Option String
  | [] => none
  | i :: is => (lastOf x is).or (i.dest.filter fun d => variableOf d == x)

lemma lastOf_append : lastOf x (b ++ b') = (lastOf x b').or (lastOf x b) := by
  induction b with
  | nil => simp [lastOf]
  | cons i b ih => rw [cons_append, lastOf, ih, lastOf, Option.or_assoc]

lemma exists_of_lastOf (h : lastOf x b = some d) : variableOf d = x ∧ ∃ i ∈ b, i.dest = some d := by
  induction b with
  | nil => cases h
  | cons i b ih =>
    rw [lastOf, Option.or_eq_some_iff] at h
    obtain h | ⟨_, h⟩ := h
    · obtain ⟨e, j, hj, hd⟩ := ih h
      exact ⟨e, j, by simp [hj], hd⟩
    · obtain ⟨hd, e⟩ := Option.filter_eq_some_iff.mp h
      exact ⟨by simpa using e, i, by simp, hd⟩

lemma lastOf_of_dest (hi : i ∈ b) (hd : i.dest = some d) : ∃ d', lastOf (variableOf d) b = some d' := by
  induction b with
  | nil => simp at hi
  | cons j b ih =>
    rw [lastOf]
    cases h : lastOf (variableOf d) b with
    | some d' => exact ⟨d', rfl⟩
    | none =>
      obtain rfl | hi := mem_cons.mp hi
      · exact ⟨d, by simp [hd]⟩
      · obtain ⟨d', hd'⟩ := ih hi
        rw [h] at hd'
        cases hd'

def Naming.after (ν : Naming) (b : Block) : Naming := fun x n =>
  match lastOf x b with
  | some d => n = d
  | none => ν x n

lemma Naming.after_of_lastOf (h : lastOf x b = some d) : ν.after b x n ↔ n = d := by
  simp [Naming.after, h]

lemma Naming.after_of_none (h : lastOf x b = none) : ν.after b x n ↔ ν x n := by
  simp [Naming.after, h]

lemma Naming.after_append : ν.after (b ++ b') = (ν.after b).after b' := by
  funext x n
  unfold Naming.after
  rw [lastOf_append]
  cases lastOf x b' <;> cases lastOf x b <;> rfl

@[simp] lemma Naming.after_nil : ν.after [] = ν := rfl

lemma Naming.after_plain (h : i.dest = none) : ν.after [i] = ν := by
  funext x n
  simp [Naming.after, lastOf, h]

lemma Naming.after_assign (h : i.dest = some d) : ν.after [i] = ν.set (variableOf d) d := by
  funext x n
  by_cases hx : x = variableOf d
  · simp [Naming.after, lastOf, h, Option.filter, hx]
  · have hd : variableOf d ≠ x := Ne.symm hx
    simp [Naming.after, lastOf, h, Option.filter, Naming.set, hx, hd]

def AllVersions (b : Block) : Prop := ∀ i ∈ b, ∀ d, i.dest = some d → IsVersion (variableOf d) d

lemma AllVersions.lastOf (h : AllVersions b) (hd : lastOf x b = some d) : IsVersion x d := by
  obtain ⟨e, i, hi, hdest⟩ := exists_of_lastOf hd
  exact e ▸ h i hi d hdest

lemma Naming.Proper.after (pr : ν.Proper IsVersion) (h : AllVersions b) :
    (ν.after b).Proper IsVersion := by
  intro x n hn
  cases hd : Ssa.lastOf x b with
  | some d =>
    rw [Naming.after_of_lastOf hd] at hn
    exact hn ▸ h.lastOf hd
  | none => exact pr x n ((Naming.after_of_none hd).mp hn)

section Graph

variable {g : FlowGraph} {bs : List Block} {k p : Nat}

def Assigns (bs : List Block) (x : String) (k : Nat) : Prop :=
  ∃ b d, bs[k]? = some b ∧ lastOf x b = some d

/-- The versions that can be in force where control arrives at a block. -/
def arriving (g : FlowGraph) (bs : List Block) (k : Nat) : Naming := fun x n =>
  ∃ d b, bs[d]? = some b ∧ lastOf x b = some n ∧ Carried g (Assigns bs x) d k

/-- The versions that can be in force where control leaves a block. -/
def leaving (g : FlowGraph) (bs : List Block) (k : Nat) : Naming := fun x n =>
  ∃ b, bs[k]? = some b ∧ (arriving g bs k).after b x n

lemma leaving_eq (h : bs[k]? = some b) : leaving g bs k = (arriving g bs k).after b := by
  funext x n
  simp [leaving, h]

lemma proper_arriving (all : ∀ b ∈ bs, AllVersions b) : (arriving g bs k).Proper IsVersion := by
  rintro x n ⟨d, b, hb, hlast, _⟩
  exact (all b (mem_of_getElem? hb)).lastOf hlast

lemma proper_leaving (all : ∀ b ∈ bs, AllVersions b) : (leaving g bs k).Proper IsVersion := by
  rintro x n ⟨b, hb, hn⟩
  exact (proper_arriving all).after (all b (mem_of_getElem? hb)) x n hn

lemma arriving_of_leaving (live : g.Live p) (e : g.Edge p k) (h : leaving g bs p x n) :
    arriving g bs k x n := by
  obtain ⟨b, hb, hn⟩ := h
  cases hd : lastOf x b with
  | some d =>
    rw [Naming.after_of_lastOf hd] at hn
    exact ⟨p, b, hb, hn ▸ hd, .edge live e⟩
  | none =>
    rw [Naming.after_of_none hd] at hn
    obtain ⟨d, c, hc, hlast, way⟩ := hn
    refine ⟨d, c, hc, hlast, .step way ?_ e⟩
    rintro ⟨b', d', hb', hd'⟩
    rw [hb] at hb'
    cases hb'
    rw [hd] at hd'
    cases hd'

/-- A block without a phi for a variable is reached by one version at most. -/
theorem arriving_unique {s : DomState} (w : Rooted g) (st : Settled g s)
    (closed : ∀ d, Assigns bs x d → ∀ j ∈ (frontier s).getD d [], HasPhi bs x j)
    (sub : ∀ j, HasPhi bs x j → Assigns bs x j) (hk : ¬ HasPhi bs x k)
    (hn : arriving g bs k x n) (hm : arriving g bs k x m) : n = m := by
  obtain ⟨d, b, hb, hlast, way⟩ := hn
  obtain ⟨e, c, hc, hlast', way'⟩ := hm
  obtain rfl : d = e := way.eq_of_closed w st closed sub ⟨b, n, hb, hlast⟩ ⟨c, m, hc, hlast'⟩ way' hk
  rw [hb] at hc
  cases hc
  rw [hlast] at hlast'
  exact Option.some.inj hlast'

end Graph

end Ssa

end BrilKit
