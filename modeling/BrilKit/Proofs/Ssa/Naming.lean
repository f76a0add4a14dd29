import BrilKit.Proofs.Run.Simulation
import Mathlib.Data.List.Forall2

/-!
# Versions of variables

A naming says which versions of a variable are in force: they have the value of the variable.
`Agree` relates the values of the variables with the values of their versions; it is all that a run
of renamed code needs.
-/

namespace BrilKit

namespace Ssa

open Machine (Env)

variable {V : Type} {Ver : String → String → Prop} {e e' : Env V} {x y n d m : String}
  {i i' : Instr}

abbrev Naming := String → String → Prop

variable {ν ν' ν'' : Naming}

/-- The naming in which one version of a variable is in force and no other one. -/
def Naming.set (ν : Naming) (x n : String) : Naming := fun y m => if y = x then m = n else ν y m

/-- The naming in which a further version of a variable is in force. -/
def Naming.add (ν : Naming) (x n : String) : Naming := fun y m => ν y m ∨ y = x ∧ m = n

def Naming.Lacks (ν : Naming) (x : String) : Prop := ∀ n, ¬ ν x n

@[simp] lemma Naming.set_same : ν.set x n x m ↔ m = n := by simp [Naming.set]

lemma Naming.set_other (h : y ≠ x) : ν.set x n y m ↔ ν y m := by simp [Naming.set, h]

/-- A naming in which only versions of a variable are in force for it. -/
def Naming.Proper (Ver : String → String → Prop) (ν : Naming) : Prop := ∀ x n, ν x n → Ver x n

def Functional (Ver : String → String → Prop) : Prop := ∀ x y n, Ver x n → Ver y n → x = y

lemma Naming.Proper.set (pr : ν.Proper Ver) (h : Ver x n) : (ν.set x n).Proper Ver := by
  intro y m e
  by_cases hy : y = x
  · subst hy
    rw [Naming.set_same] at e
    exact e ▸ h
  · rw [Naming.set_other hy] at e
    exact pr y m e

lemma Naming.Proper.add (pr : ν.Proper Ver) (h : Ver x n) : (ν.add x n).Proper Ver := by
  rintro y m (e | ⟨rfl, rfl⟩)
  · exact pr y m e
  · exact h

/-- An operand of renamed code: a version in force, or a name without a value where the variable
has no version in force. -/
def Reads (Ver : String → String → Prop) (ν : Naming) (x x' : String) : Prop :=
  ν x x' ∨ ν.Lacks x ∧ ∀ y, ¬ Ver y x'

/-- The values of the variables are those of their versions in force. A variable without a value has
no version with one, and names that are no versions have none either. -/
structure Agree (Ver : String → String → Prop) (ν : Naming) (e e' : Env V) : Prop where
  named : ∀ x n, ν x n → e' n = e x
  unnamed : ∀ x, ν.Lacks x → e x = none
  absent : ∀ x n, Ver x n → e x = none → e' n = none
  unset : ∀ n, (∀ x, ¬ Ver x n) → e' n = none

namespace Agree

lemma reads (ag : Agree Ver ν e e') {x' : String} (h : Reads Ver ν x x') : e' x' = e x := by
  obtain h | ⟨hn, hu⟩ := h
  · exact ag.named x x' h
  · rw [ag.unset x' hu, ag.unnamed x hn]

lemma operands (ag : Agree Ver ν e e') {xs xs' : List String}
    (h : List.Forall₂ (Reads Ver ν) xs xs') : xs'.map e' = xs.map e := by
  induction h with
  | nil => rfl
  | cons hx _ ih => simp [ag.reads hx, ih]

lemma write (fn : Functional Ver) (pr : ν.Proper Ver) (ag : Agree Ver ν e e') (h : Ver x d) :
    Agree Ver (ν.add x d) e (e'.set d (e x)) where
  named y n hy := by
    by_cases hn : n = d
    · subst hn
      rw [Env.set_same, fn x y n h (pr.add h y n hy)]
    · rw [Env.set_other hn]
      obtain hy | ⟨_, rfl⟩ := hy
      · exact ag.named y n hy
      · exact absurd rfl hn
  unnamed y hy := ag.unnamed y fun n hn => hy n (.inl hn)
  absent y n hy he := by
    by_cases hn : n = d
    · subst hn
      rw [Env.set_same, fn x y n h hy]
      exact he
    · rw [Env.set_other hn]
      exact ag.absent y n hy he
  unset n hn := by
    have hd : n ≠ d := by
      rintro rfl
      exact hn x h
    rw [Env.set_other hd]
    exact ag.unset n hn

lemma assign (fn : Functional Ver) (pr : ν.Proper Ver) (ag : Agree Ver ν e e') (h : Ver x d)
    (v : V) : Agree Ver (ν.set x d) (e.set x (some v)) (e'.set d (some v)) where
  named y n hy := by
    by_cases hx : y = x
    · subst hx
      rw [Naming.set_same] at hy
      simp [hy]
    · rw [Naming.set_other hx] at hy
      have hn : n ≠ d := by
        rintro rfl
        exact hx (fn y x n (pr y n hy) h)
      rw [Env.set_other hn, Env.set_other hx]
      exact ag.named y n hy
  unnamed y hy := by
    have hx : y ≠ x := by
      rintro rfl
      exact hy d (Naming.set_same.mpr rfl)
    rw [Env.set_other hx]
    exact ag.unnamed y fun n hn => hy n ((Naming.set_other hx).mpr hn)
  absent y n hy he := by
    have hx : y ≠ x := by
      rintro rfl
      simp at he
    have hn : n ≠ d := by
      rintro rfl
      exact hx (fn y x n hy h)
    rw [Env.set_other hx] at he
    rw [Env.set_other hn]
    exact ag.absent y n hy he
  unset n hn := by
    have hd : n ≠ d := by
      rintro rfl
      exact hn x h
    rw [Env.set_other hd]
    exact ag.unset n hn

end Agree

/-- A variable keeps one of its versions in force at least; one without any may get any. -/
structure Carries (Ver : String → String → Prop) (ν ν' : Naming) (x : String) : Prop where
  kept : ∀ n, ν' x n → ν x n ∨ ν.Lacks x ∧ Ver x n
  lost : ν'.Lacks x → ν.Lacks x

lemma Agree.carry (ag : Agree Ver ν e e') (h : ∀ x, Carries Ver ν ν' x) : Agree Ver ν' e e' where
  named x n hx := by
    obtain hν | ⟨hν, ver⟩ := (h x).kept n hx
    · exact ag.named x n hν
    · have he := ag.unnamed x hν
      rw [he, ag.absent x n ver he]
  unnamed x hx := ag.unnamed x ((h x).lost hx)
  absent := ag.absent
  unset := ag.unset

/-- Further versions come into force, of variables that have one already. -/
structure Naming.Widens (ν μ : Naming) : Prop where
  kept : ∀ x n, ν x n → μ x n
  lacks : ∀ x, ν.Lacks x → μ.Lacks x

lemma Naming.Widens.refl : ν.Widens ν := ⟨fun _ _ h => h, fun _ h => h⟩

lemma Naming.Widens.trans (h : ν.Widens ν') (h' : ν'.Widens ν'') : ν.Widens ν'' :=
  ⟨fun x n hn => h'.kept x n (h.kept x n hn), fun x hx => h'.lacks x (h.lacks x hx)⟩

lemma Naming.Widens.add (h : ν x n) : ν.Widens (ν.add x d) where
  kept _ _ hy := .inl hy
  lacks y hy m := by
    rintro (hm | ⟨rfl, _⟩)
    · exact hy m hm
    · exact hy n h

/-- How versions are kept: which names are versions of which variable, whether every version in
force has a value, and which instructions must not be reached for that. -/
structure Scheme where
  Version : String → String → Prop
  strict : Prop
  stuck : Instr → Prop

variable {σ : Scheme}

/-- An instruction renamed along a naming, and the naming behind it. -/
structure RenamesInstr (σ : Scheme) (ν : Naming) (i i' : Instr) (ν' : Naming) : Prop where
  shape : i'.shape = i.shape
  uses : List.Forall₂ (Reads σ.Version ν) i.uses i'.uses
  dest : (i.dest = none ∧ ν' = ν) ∨
    ∃ x n, i.dest = some x ∧ i'.dest = some n ∧ σ.Version x n ∧ ν' = ν.set x n

lemma RenamesInstr.widen (h : RenamesInstr σ ν i i' ν') (hd : i.dest = none)
    (wd : ν.Widens ν'') : RenamesInstr σ ν'' i i' ν'' where
  shape := h.shape
  uses := h.uses.imp fun x n hx => hx.imp (wd.kept x n) fun ⟨lack, hn⟩ => ⟨wd.lacks x lack, hn⟩
  dest := .inl ⟨hd, rfl⟩

/-- A copy between versions of a variable. -/
structure CopiesVersion (Ver : String → String → Prop) (ν : Naming) (x d : String) (i : Instr) :
    Prop where
  op : i.op = some "id"
  uses : ∃ n, i.uses = [n] ∧ ν x n
  dest : i.dest = some d
  version : Ver x d

/-- Code that no run gets through: copies, and behind them a transfer of control that is asked for a
result. -/
inductive Ruined : Block → Prop where
  | transfer {i : Instr} {is : Block} :
    i.isTerminator = true →
    i.dest.isSome = true →
    Ruined (i :: is)
  | copy {i : Instr} {is : Block} :
    i.op = some "id" →
    Ruined is →
    Ruined (i :: is)

/-- Code renamed along a naming, and the naming behind it if control can get there. Copies between
versions may stand between the instructions, but not behind a terminator. -/
inductive Renames (σ : Scheme) : Naming → Block → Block → Option Naming → Prop where
  | nil {ν : Naming} : Renames σ ν [] [] (some ν)
  | cons {ν ν' : Naming} {i i' : Instr} {is is' : Block} {final : Option Naming} :
    RenamesInstr σ ν i i' ν' →
    (i.isTerminator = true → is' = []) →
    Renames σ ν' is is' final →
    Renames σ ν (i :: is) (i' :: is') final
  | copy {ν : Naming} {x d : String} {i' : Instr} {is is' : Block} {final : Option Naming} :
    σ.strict →
    CopiesVersion σ.Version ν x d i' →
    Renames σ (ν.add x d) is is' final →
    Renames σ ν is (i' :: is') final
  | stuck {ν : Naming} {i' : Instr} {is is' : Block} :
    σ.stuck i' →
    Renames σ ν is (i' :: is') none
  | ruined {ν : Naming} {i : Instr} {is is' : Block} :
    i.isTerminator = true →
    i.dest.isSome = true →
    Ruined is' →
    Renames σ ν (i :: is) is' none

lemma RenamesInstr.proper (h : RenamesInstr σ ν i i' ν') (pr : ν.Proper σ.Version) :
    ν'.Proper σ.Version := by
  obtain ⟨_, e⟩ | ⟨x, n, _, _, ver, e⟩ := h.dest
  · rwa [e]
  · rw [e]
    exact pr.set ver

end Ssa

end BrilKit
