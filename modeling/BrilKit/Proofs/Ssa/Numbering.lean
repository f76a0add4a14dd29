import BrilKit.Proofs.Data.Table
import BrilKit.Proofs.Ssa.VersionNames
import BrilKit.Ssa.Versions.Number

/-!
# Blocks with numbered versions

What numbering the versions of all variables does to blocks: assignments get versions of their
variables, and phis stand behind the labels. `number_spec` says that the blocks with a phi for a
variable include the frontier of every block that assigns the variable, be it by a phi.

`Numbering` compares a block with what has become of it, and `Advances` the blocks before and behind
a step for one variable. `rename_spec` and `place_spec` are the two kinds of step, `numberSites_spec`
the loop over the sites of a variable, and `numberVars_spec` the loop over variables.
-/

namespace BrilKit

open List Outcome Table

namespace Ssa

variable {b b' : Block} {i i' : Instr} {x y : String} {k j n : Nat} {t : Ty}

/-- The variables that a block has phis for. -/
def phiVars (b : Block) : List String :=
  b.filterMap fun i => if i.hasOp "phi" then i.dest.map variableOf else none

/-- An instruction with a version of its variable as result, or still with the variable. -/
structure Numbers (i i' : Instr) : Prop where
  others : i' = { i with dest := i'.dest }
  dest : i'.dest = i.dest ∨ ∃ x n, i.dest = some x ∧ i'.dest = some (versionOf x n)

/-- A block behind whose first item phis stand, each for a variable of its own. -/
structure Numbering (b b' : Block) : Prop where
  parts : ∃ (i i' : Instr) (is phis is' : Block), b = i :: is ∧ b' = i' :: (phis ++ is') ∧
    Forall₂ Numbers (i :: is) (i' :: is') ∧
    (∀ p ∈ phis, ∃ x n t, '.' ∉ x.toList ∧ p = emptyPhi (versionOf x n) t) ∧
    (phiVars phis).Nodup

/-- A block before it is numbered: it has items, and none of them is a phi. -/
structure Unnumbered (b : Block) : Prop where
  nonempty : b ≠ []
  free : ∀ j ∈ b, j.op ≠ some "phi"

lemma phiVars_append : phiVars (b ++ b') = phiVars b ++ phiVars b' := filterMap_append

lemma phiVars_emptyPhi (hx : '.' ∉ x.toList) : phiVars [emptyPhi (versionOf x n) t] = [x] := by
  simp [phiVars, emptyPhi, Instr.hasOp, variableOf_versionOf hx]

def Clean (x : String) (b : Block) : Prop := ∀ i ∈ b, i.dest ≠ some x

section Block

lemma numberBlock_clean {a : Block} (h : Clean x a) :
    numberBlock x n (a ++ b) = ((numberBlock x n b).1, a ++ (numberBlock x n b).2) := by
  induction a generalizing n with
  | nil => rfl
  | cons i a ih =>
    have hi : (i.dest == some x) = false := by simpa using h i (by simp)
    simp [numberBlock, hi, ih fun j hj => h j (by simp [hj])]

lemma numberBlock_cons : ∃ m, (numberBlock x n (i :: b)).2 =
    (numberBlock x n [i]).2 ++ (numberBlock x m b).2 := by
  simp only [numberBlock]
  split
  · exact ⟨n + 1, rfl⟩
  · exact ⟨n, rfl⟩

/-- Once its versions are numbered, a variable is no result any more. -/
lemma clean_numberBlock (hx : '.' ∉ x.toList) : Clean x (numberBlock x n b).2 := by
  induction b generalizing n with
  | nil => simp [Clean, numberBlock]
  | cons i b ih =>
    intro j hj
    unfold numberBlock at hj
    split at hj
    · obtain rfl | hj := mem_cons.mp hj
      · exact fun e => ne_versionOf hx (Option.some.inj e).symm
      · exact ih j hj
    · next hi =>
      obtain rfl | hj := mem_cons.mp hj
      · simpa using hi
      · exact ih j hj

lemma dest_numberBlock (h : i ∈ (numberBlock x n b).2) :
    (∃ j ∈ b, i.dest = j.dest) ∨ ∃ m, i.dest = some (versionOf x m) := by
  induction b generalizing n with
  | nil => simp [numberBlock] at h
  | cons j b ih =>
    unfold numberBlock at h
    split at h
    · obtain rfl | h := mem_cons.mp h
      · exact .inr ⟨n + 1, rfl⟩
      · exact (ih h).imp_left fun ⟨k, hk, e⟩ => ⟨k, by simp [hk], e⟩
    · obtain rfl | h := mem_cons.mp h
      · exact .inl ⟨i, by simp, rfl⟩
      · exact (ih h).imp_left fun ⟨k, hk, e⟩ => ⟨k, by simp [hk], e⟩

lemma Clean.numberBlock (hy : '.' ∉ y.toList) (h : Clean y b) : Clean y (numberBlock x n b).2 := by
  intro i hi e
  obtain ⟨j, hj, hd⟩ | ⟨m, hd⟩ := dest_numberBlock hi
  · exact h j hj (hd ▸ e)
  · rw [hd] at e
    exact ne_versionOf hy (Option.some.inj e).symm

lemma Numbers.numberBlock {is is' : Block} (hx : '.' ∉ x.toList)
    (h : Forall₂ Numbers is is') : Forall₂ Numbers is (numberBlock x n is').2 := by
  induction h generalizing n with
  | nil => exact .nil
  | @cons i i' is is' hi _ ih =>
    unfold Ssa.numberBlock
    split
    · next hd =>
      refine .cons ⟨?_, .inr ⟨x, n + 1, ?_, rfl⟩⟩ ih
      · rw [hi.others]
      · have hd : i'.dest = some x := by simpa using hd
        obtain e | ⟨y, m, _, e⟩ := hi.dest
        · rw [← e, hd]
        · rw [hd] at e
          exact absurd (Option.some.inj e) (ne_versionOf hx)
    · exact .cons hi ih

lemma Numbers.phiVars_eq {is is' : Block} (h : Forall₂ Numbers is is')
    (free : ∀ i ∈ is, i.op ≠ some "phi") : phiVars is' = [] := by
  induction h with
  | nil => rfl
  | @cons i i' is is' hi _ ih =>
    have ho : i'.hasOp "phi" = false := by
      rw [hi.others]
      simpa [Instr.hasOp] using free i (by simp)
    rw [phiVars, filterMap_cons, ho]
    exact ih fun j hj => free j (by simp [hj])

end Block

namespace Numbering

variable (un : Unnumbered b)
include un

lemma phiVars_eq {is phis is' : Block} (hb : b = i :: is) (hb' : b' = i' :: (phis ++ is'))
    (h : Forall₂ Numbers (i :: is) (i' :: is')) : phiVars b' = phiVars phis := by
  have none := Numbers.phiVars_eq h (hb ▸ un.free)
  rw [← singleton_append, phiVars_append, append_eq_nil_iff] at none
  rw [hb', ← singleton_append, phiVars_append, phiVars_append, none.1, none.2, nil_append, append_nil]

lemma rename (nb : Numbering b b') (hx : '.' ∉ x.toList) :
    Numbering b (numberBlock x n b').2 ∧ phiVars (numberBlock x n b').2 = phiVars b' := by
  obtain ⟨i, i', is, phis, is', rfl, rfl, all, hphis, nd⟩ := nb.parts
  have clean : Clean x phis := by
    intro j hj
    obtain ⟨y, m, t, _, rfl⟩ := hphis j hj
    exact fun e => ne_versionOf hx (Option.some.inj e).symm
  obtain ⟨m, e⟩ := numberBlock_cons (x := x) (n := n) (i := i') (b := phis ++ is')
  rw [numberBlock_clean clean] at e
  obtain ⟨first, rest⟩ := forall₂_cons.mp all
  have head := Numbers.numberBlock (n := n) hx (.cons first .nil)
  generalize (numberBlock x n [i']).2 = js at e head
  obtain ⟨j, _, hj, hjs, rfl⟩ := forall₂_cons_left_iff.mp head
  obtain rfl := forall₂_nil_left_iff.mp hjs
  have all' : Forall₂ Numbers (i :: is) (j :: (numberBlock x m is').2) :=
    .cons hj (Numbers.numberBlock hx rest)
  rw [e]
  refine ⟨⟨i, j, is, phis, _, rfl, rfl, all', hphis, nd⟩, ?_⟩
  exact (phiVars_eq un rfl rfl all').trans (phiVars_eq un rfl rfl all).symm

lemma insert (nb : Numbering b b') (hx : '.' ∉ x.toList) (new : x ∉ phiVars b') :
    Numbering b (insertPhi b' (emptyPhi (versionOf x n) t)) ∧
      phiVars (insertPhi b' (emptyPhi (versionOf x n) t)) = x :: phiVars b' := by
  obtain ⟨i, i', is, phis, is', rfl, rfl, all, hphis, nd⟩ := nb.parts
  rw [phiVars_eq un rfl rfl all] at new ⊢
  have hvars : phiVars (emptyPhi (versionOf x n) t :: phis) = x :: phiVars phis := by
    rw [← singleton_append, phiVars_append, phiVars_emptyPhi hx]
    rfl
  refine ⟨⟨i, i', is, emptyPhi (versionOf x n) t :: phis, is', rfl, rfl, all, fun p hp => ?_, ?_⟩, ?_⟩
  · obtain rfl | hp := mem_cons.mp hp
    · exact ⟨x, n, t, hx, rfl⟩
    · exact hphis p hp
  · rw [hvars]
    exact nodup_cons.mpr ⟨new, nd⟩
  · rw [← hvars]
    exact phiVars_eq un rfl (cons_append ▸ rfl) all

omit un in
lemma Clean.insert (hy : '.' ∉ y.toList) (h : Clean y b') :
    Clean y (insertPhi b' (emptyPhi (versionOf x n) t)) := by
  intro i hi e
  obtain hi | rfl | hi : i ∈ b'.take 1 ∨ i = emptyPhi (versionOf x n) t ∨ i ∈ b'.drop 1 := by
    simpa [insertPhi] using hi
  · exact h i (mem_of_mem_take hi) e
  · exact ne_versionOf hy (Option.some.inj e).symm
  · exact h i (mem_of_mem_drop hi) e

end Numbering

lemma phiPosition_eq_ok {o : Option Nat} (h : phiPosition x k b = .ok o) :
    o.isSome ↔ x ∈ phiVars b := by
  induction b generalizing k with
  | nil =>
    cases h
    simp [phiVars]
  | cons i b ih =>
    unfold phiPosition at h
    split at h
    · next hi =>
      obtain ⟨d, hd, h⟩ := of_bind h
      have hd : i.dest = some d := ofOption_eq_ok.mp hd
      have hv : phiVars (i :: b) = variableOf d :: phiVars b := by simp [phiVars, hi, hd]
      rw [hv, mem_cons]
      split at h
      · next hx =>
        cases h
        have e : x = variableOf d := by simpa using Eq.symm (eq_of_beq hx)
        simp [e]
      · next hx =>
        rw [ih h]
        simp only [beq_iff_eq] at hx
        simp [Ne.symm hx]
    · next hi =>
      have hv : phiVars (i :: b) = phiVars b := by simp [phiVars, hi]
      rw [hv]
      exact ih h

def HasPhi (blocks : List Block) (x : String) (k : Nat) : Prop :=
  ∃ b, blocks[k]? = some b ∧ x ∈ phiVars b

/-- No instruction of a block still has the variable as result. -/
def CleanAt (blocks : List Block) (x : String) (k : Nat) : Prop :=
  ∀ b, blocks[k]? = some b → Clean x b

/-- Blocks with numbered versions, by the blocks that they were made of. -/
structure NumberedBlocks (bs blocks : List Block) : Prop where
  length : blocks.length = bs.length
  each : ∀ (k : Nat) b b', bs[k]? = some b → blocks[k]? = some b' → Numbering b b'

/-- What numbering a variable does: some blocks get a phi for it, and nothing else changes but the
names of its assignments. -/
structure Advances (bs : List Block) (x : String) (new : Nat → Prop) (blocks blocks' : List Block) :
    Prop where
  numbered : NumberedBlocks bs blocks'
  phis : ∀ y k, HasPhi blocks' y k ↔ HasPhi blocks y k ∨ y = x ∧ new k
  clean : ∀ y, '.' ∉ y.toList → ∀ k, CleanAt blocks y k → CleanAt blocks' y k

variable {bs blocks blocks' blocks'' : List Block} {new new' : Nat → Prop}

lemma Advances.refl (nb : NumberedBlocks bs blocks) :
    Advances bs x (fun _ => False) blocks blocks :=
  ⟨nb, by simp, fun _ _ _ h => h⟩

lemma Advances.trans (h : Advances bs x new blocks blocks')
    (h' : Advances bs x new' blocks' blocks'') :
    Advances bs x (fun k => new k ∨ new' k) blocks blocks'' where
  numbered := h'.numbered
  phis y k := by
    rw [h'.phis, h.phis]
    tauto
  clean y hy k hk := h'.clean y hy k (h.clean y hy k hk)

lemma Advances.set {new : Prop} (nb : NumberedBlocks bs blocks) (hb : blocks[k]? = some b)
    (form : ∀ b₀, bs[k]? = some b₀ → Numbering b₀ b')
    (phis : ∀ y, y ∈ phiVars b' ↔ y ∈ phiVars b ∨ y = x ∧ new)
    (clean : ∀ y, '.' ∉ y.toList → Clean y b → Clean y b') :
    Advances bs x (fun j => new ∧ j = k) blocks (blocks.set k b') := by
  obtain ⟨hk, _⟩ := List.getElem?_eq_some_iff.mp hb
  have get : ∀ j, (blocks.set k b')[j]? = if j = k then some b' else blocks[j]? := by
    intro j
    by_cases hj : j = k
    · subst hj
      simp [hk]
    · rw [getElem?_set_ne (Ne.symm hj), if_neg hj]
  exact {
    numbered := {
      length := by simpa using nb.length
      each := fun j c c' hc hc' => by
        rw [get] at hc'
        split at hc'
        · next e =>
          subst e
          cases hc'
          exact form c hc
        · exact nb.each j c c' hc hc' }
    phis := fun y j => by
      unfold HasPhi
      rw [get]
      by_cases hj : j = k
      · subst hj
        simp [hb, phis]
      · simp [hj]
    clean := fun y hy j hj c hc => by
      rw [get] at hc
      split at hc
      · next e =>
        subst e
        cases hc
        exact clean y hy (hj b hb)
      · exact hj c hc }

section Sites

variable {style : Style} {s s' : Numbered} {frontier : Table Nat (List Nat)}
  (un : ∀ b ∈ bs, Unnumbered b) (hx : '.' ∉ x.toList)
include un hx

/-- A block at hand gets versions of the variable for its results. -/
lemma rename_spec (nb : NumberedBlocks bs s.blocks) (h : s.rename x k = .ok s') :
    Advances bs x (fun _ => False) s.blocks s'.blocks ∧ CleanAt s'.blocks x k := by
  obtain ⟨b, hb, h⟩ := of_bind h
  rw [itemAt_eq_ok] at hb
  obtain ⟨hk, _⟩ := List.getElem?_eq_some_iff.mp hb
  have e : s'.blocks = s.blocks.set k (numberBlock x s.count b).2 := by
    cases h
    rfl
  rw [e]
  have form : ∀ b₀, bs[k]? = some b₀ → Numbering b₀ (numberBlock x s.count b).2 ∧
      phiVars (numberBlock x s.count b).2 = phiVars b := fun b₀ hb₀ =>
    (nb.each k b₀ b hb₀ hb).rename (un b₀ (mem_of_getElem? hb₀)) hx
  have hlt : k < bs.length := nb.length ▸ hk
  have adv : Advances bs x (fun j => False ∧ j = k) s.blocks _ :=
    .set nb hb (fun b₀ hb₀ => (form b₀ hb₀).1)
      (fun y => by rw [(form _ (getElem?_eq_getElem hlt)).2]; simp)
      (fun y hy => Clean.numberBlock hy)
  refine ⟨by simpa using adv, fun c hc => ?_⟩
  rw [getElem?_set_self hk] at hc
  cases hc
  exact clean_numberBlock hx

/-- A block gets a phi unless it has one. -/
lemma place_spec {placed : Bool} (nb : NumberedBlocks bs s.blocks)
    (h : s.place style x t k = .ok (s', placed)) :
    Advances bs x (fun j => placed = true ∧ j = k) s.blocks s'.blocks ∧ HasPhi s'.blocks x k := by
  obtain ⟨b, hb, h⟩ := of_bind h
  rw [itemAt_eq_ok] at hb
  obtain ⟨hk, _⟩ := List.getElem?_eq_some_iff.mp hb
  obtain ⟨o, ho, h⟩ := of_bind h
  have found := phiPosition_eq_ok ho
  cases o with
  | some j =>
    cases h
    exact ⟨by simpa using Advances.refl (x := x) nb, b, hb, found.mp rfl⟩
  | none =>
    obtain ⟨ty, hty, h⟩ := of_bind h
    cases h
    have new : x ∉ phiVars b := fun hmem => by simpa using found.mpr hmem
    have hlt : k < bs.length := nb.length ▸ hk
    have form := fun b₀ hb₀ => (nb.each k b₀ b hb₀ hb).insert (n := s.count + 1) (t := ty)
      (un b₀ (mem_of_getElem? hb₀)) hx new
    have vars := (form _ (getElem?_eq_getElem hlt)).2
    refine ⟨.set nb hb (fun b₀ hb₀ => (form b₀ hb₀).1) (fun y => ?_)
      fun y hy => Numbering.Clean.insert hy, _, getElem?_set_self hk, ?_⟩
    · rw [vars, mem_cons]
      simp [or_comm]
    · rw [vars]
      simp

/-- Every block of a list has a phi in the end. -/
lemma placeAll_spec {ks placed : List Nat} (nb : NumberedBlocks bs s.blocks)
    (h : s.placeAll style x t ks = .ok (s', placed)) :
    Advances bs x (· ∈ placed) s.blocks s'.blocks ∧ (∀ k ∈ ks, HasPhi s'.blocks x k) ∧
      ∀ k ∈ placed, k ∈ ks := by
  induction ks generalizing s placed with
  | nil =>
    cases h
    exact ⟨by simpa using Advances.refl (x := x) nb, by simp, by simp⟩
  | cons k ks ih =>
    obtain ⟨⟨s₁, new⟩, h₁, h⟩ := of_bind h
    obtain ⟨⟨s₂, rest⟩, h₂, h⟩ := of_bind h
    cases h
    obtain ⟨adv, here⟩ := place_spec un hx nb h₁
    obtain ⟨adv', all, sub⟩ := ih adv.numbered h₂
    refine ⟨?_, fun j hj => ?_, fun j hj => ?_⟩
    · have both := adv.trans adv'
      refine ⟨both.numbered, fun y j => ?_, both.clean⟩
      rw [both.phis]
      cases new <;> simp
    · obtain rfl | hj := mem_cons.mp hj
      · exact (adv'.phis x j).mpr (.inl here)
      · exact all j hj
    · cases new with
      | true =>
        obtain rfl | hj := mem_cons.mp hj
        · simp
        · simp [sub j hj]
      | false => simp [sub j hj]

/-- Phis stand in the whole frontier of every site, and in that of every phi if the style says so. -/
lemma numberSites_spec {fuel : Nat} {rest : List Site} (nb : NumberedBlocks bs s.blocks)
    (h : numberSites style frontier x fuel s rest = .ok s') :
    ∃ new, Advances bs x new s.blocks s'.blocks ∧
      (∀ k t, (k, t) ∈ rest → CleanAt s'.blocks x k ∧
        ∀ j ∈ frontier.getD k [], HasPhi s'.blocks x j) ∧
      ∀ k, new k → (style.iterated = true → ∀ j ∈ frontier.getD k [], HasPhi s'.blocks x j) ∧
        ∃ d, k ∈ frontier.getD d [] := by
  induction fuel generalizing s rest with
  | zero => cases h
  | succ fuel ih =>
    cases rest with
    | nil =>
      cases h
      exact ⟨_, .refl nb, by simp, by simp⟩
    | cons site rest =>
      obtain ⟨k, t⟩ := site
      obtain ⟨s₁, h₁, h⟩ := of_bind h
      obtain ⟨⟨s₂, placed⟩, h₂, h⟩ := of_bind h
      obtain ⟨adv₁, clean⟩ := rename_spec un hx nb h₁
      obtain ⟨adv₂, all, sub⟩ := placeAll_spec un hx adv₁.numbered h₂
      obtain ⟨new, adv₃, sites, phis⟩ := ih adv₂.numbered h
      refine ⟨_, (adv₁.trans adv₂).trans adv₃, fun j u hj => ?_, fun j hj => ?_⟩
      · obtain hj | hj := mem_cons.mp hj
        · cases hj
          exact ⟨adv₃.clean x hx k (adv₂.clean x hx k clean),
            fun j hj => (adv₃.phis x j).mpr (.inl (all j hj))⟩
        · exact sites j u (mem_append_left _ hj)
      · obtain (hj | hj) | hj := hj
        · exact hj.elim
        · refine ⟨fun hit => (sites j t (mem_append_right _ ?_)).2, k, sub j hj⟩
          rw [if_pos hit]
          exact mem_map.mpr ⟨j, hj, rfl⟩
        · exact phis j hj

end Sites

def Listed (vars : Table String (List Site)) (x : String) (k : Nat) : Prop :=
  ∃ ss t, vars.get? x = some ss ∧ (k, t) ∈ ss

/-- What a table of sites lists after some assignments more. -/
structure Lists (vars vars' : Table String (List Site)) (more : String → Nat → Prop) : Prop where
  kept : ∀ x k, Listed vars x k → Listed vars' x k
  added : ∀ x k, more x k → Listed vars' x k
  keys : ∀ x ∈ vars'.keys, x ∈ vars.keys ∨ ∃ k, more x k
  nodup : vars.keys.Nodup → vars'.keys.Nodup

section Table

variable {vars vars' vars'' : Table String (List Site)} {more more' : String → Nat → Prop}
  {style : Style} {g : FlowGraph}

lemma Lists.trans (h : Lists vars vars' more) (h' : Lists vars' vars'' more') :
    Lists vars vars'' fun x k => more x k ∨ more' x k where
  kept x k hk := h'.kept x k (h.kept x k hk)
  added x k hk := hk.elim (fun hk => h'.kept x k (h.added x k hk)) (h'.added x k)
  keys x hx := by
    obtain hx | ⟨k, hk⟩ := h'.keys x hx
    · exact (h.keys x hx).imp_right fun ⟨k, hk⟩ => ⟨k, .inl hk⟩
    · exact .inr ⟨k, .inr hk⟩
  nodup nd := h'.nodup (h.nodup nd)

lemma lists_refl : Lists vars vars fun _ _ => False :=
  ⟨fun _ _ h => h, fun _ _ h => h.elim, fun _ h => .inl h, id⟩

lemma lists_alter : Lists vars (vars.alter x fun ss => Members.add (ss.getD []) (k, t))
    fun y j => y = x ∧ j = k where
  kept y j := by
    rintro ⟨ss, u, hss, hj⟩
    unfold Listed Table.alter
    by_cases hy : y = x
    · subst hy
      exact ⟨_, u, get?_put_same, by simp [hss, hj]⟩
    · exact ⟨ss, u, by rw [get?_put_other hy, hss], hj⟩
  added y j := by
    rintro ⟨rfl, rfl⟩
    exact ⟨_, t, get?_put_same, by simp⟩
  keys y hy := by
    obtain rfl | hy := mem_keys_put.mp hy
    · exact .inr ⟨k, rfl, rfl⟩
    · exact .inl hy
  nodup := nodup_put

/-- Note the block of an assignment as a site of its variable. -/
def noteSite (style : Style) (k : Nat) (vars : Table String (List Site)) (i : Instr) :
    Outcome (Table String (List Site)) :=
  match i.dest with
  | none => .ok vars
  | some d => do
    let ty ← siteType style (← i.getType)
    return vars.alter d fun ss => Members.add (ss.getD []) (k, ty)

lemma sites_eq :
    sites style g = g.zipIdx.foldlM (fun t (n, k) => n.block.foldlM (noteSite style k) t) .empty := rfl

/-- The assignments of a block are noted one after the other. -/
lemma lists_block (h : b.foldlM (noteSite style k) vars = .ok vars') :
    Lists vars vars' fun x j => j = k ∧ ∃ i ∈ b, i.dest = some x := by
  induction b generalizing vars with
  | nil =>
    cases foldlM_nil_eq_ok.mp h
    simpa using lists_refl
  | cons i b ih =>
    obtain ⟨u, hu, h⟩ := foldlM_cons_eq_ok.mp h
    have first : Lists vars u fun x j => j = k ∧ i.dest = some x := by
      unfold noteSite at hu
      split at hu
      · next hd =>
        cases hu
        simpa [hd] using lists_refl
      · next d hd =>
        obtain ⟨ty, _, hu⟩ := of_bind hu
        obtain ⟨site, _, hu⟩ := of_bind hu
        cases hu
        have one : Lists vars _ _ := lists_alter (x := d) (k := k) (t := site)
        simpa [hd, and_comm, @eq_comm _ d] using one
    have both := first.trans (ih h)
    refine ⟨both.kept, fun x j => ?_, fun x hx => ?_, both.nodup⟩
    · rintro ⟨hj, e, he, hd⟩
      obtain rfl | he := mem_cons.mp he
      · exact both.added x j (.inl ⟨hj, hd⟩)
      · exact both.added x j (.inr ⟨hj, e, he, hd⟩)
    · obtain hx | ⟨j, ⟨hj, hd⟩ | ⟨hj, e, he, hd⟩⟩ := both.keys x hx
      · exact .inl hx
      · exact .inr ⟨j, hj, i, by simp, hd⟩
      · exact .inr ⟨j, hj, e, by simp [he], hd⟩

/-- The sites of a variable are the blocks that assign it. -/
lemma sites_spec (h : sites style g = .ok vars) :
    Lists .empty vars fun x k => ∃ n, g[k]? = some n ∧ ∃ i ∈ n.block, i.dest = some x := by
  have all : ∀ (ns : List (Node × Nat)) (t : Table String (List Site)),
      ns.foldlM (fun t (n, k) => n.block.foldlM (noteSite style k) t) t = .ok vars →
      Lists t vars fun x k => ∃ n, (n, k) ∈ ns ∧ ∃ i ∈ n.block, i.dest = some x := by
    intro ns
    induction ns with
    | nil =>
      intro t h
      cases foldlM_nil_eq_ok.mp h
      simpa using lists_refl
    | cons e ns ih =>
      intro t h
      obtain ⟨u, hu, h⟩ := foldlM_cons_eq_ok.mp h
      have both := (lists_block hu).trans (ih u h)
      refine ⟨both.kept, fun x j => ?_, fun x hx => ?_, both.nodup⟩
      · rintro ⟨n, hn, hi⟩
        obtain rfl | hn := mem_cons.mp hn
        · exact both.added x j (.inl ⟨rfl, hi⟩)
        · exact both.added x j (.inr ⟨n, hn, hi⟩)
      · obtain hx | ⟨j, ⟨rfl, hi⟩ | ⟨n, hn, hi⟩⟩ := both.keys x hx
        · exact .inl hx
        · exact .inr ⟨e.2, e.1, by simp, hi⟩
        · exact .inr ⟨j, n, by simp [hn], hi⟩
  rw [sites_eq] at h
  simpa [mem_zipIdx_iff_getElem?] using all g.zipIdx .empty h

end Table

/-- Blocks in which the versions of all variables are numbered. The phis of a variable stand in the
frontier of every block that assigns it. -/
structure AllNumbered (style : Style) (g : FlowGraph) (frontier : Table Nat (List Nat))
    (blocks : List Block) : Prop where
  numbered : NumberedBlocks g.blocks blocks
  clean : ∀ (k : Nat) n, g[k]? = some n → ∀ i ∈ n.block, ∀ x, i.dest = some x → CleanAt blocks x k
  sites : ∀ (k : Nat) n, g[k]? = some n → ∀ i ∈ n.block, ∀ x, i.dest = some x →
    ∀ j ∈ frontier.getD k [], HasPhi blocks x j
  phis : ∀ x k, HasPhi blocks x k → (style.iterated = true → ∀ j ∈ frontier.getD k [],
    HasPhi blocks x j) ∧ (∃ d, k ∈ frontier.getD d []) ∧ ∃ n ∈ g, ∃ i ∈ n.block, i.dest = some x

/-- An instruction with a version of its variable as result. -/
structure VersionsResult (i i' : Instr) : Prop where
  others : i' = { i with dest := i'.dest }
  dest : i.dest = none ∧ i'.dest = none ∨
    ∃ x n, '.' ∉ x.toList ∧ i.dest = some x ∧ i'.dest = some (versionOf x n)

/-- All results in a block are versions, and phis stand behind its first item. -/
lemma AllNumbered.results {style : Style} {g : FlowGraph} {frontier : Table Nat (List Nat)}
    {n : Node} (an : AllNumbered style g frontier blocks)
    (plain : ∀ j ∈ n.block, ∀ x, j.dest = some x → '.' ∉ x.toList) (hn : g[k]? = some n)
    (hb : blocks[k]? = some b') : ∃ i i' is phis is', n.block = i :: is ∧ b' = i' :: (phis ++ is') ∧
      Forall₂ VersionsResult (i :: is) (i' :: is') ∧
      (∀ p ∈ phis, ∃ x n t, '.' ∉ x.toList ∧ p = emptyPhi (versionOf x n) t) ∧
      (phiVars phis).Nodup := by
  have hblock : g.blocks[k]? = some n.block := by simp [FlowGraph.blocks, hn]
  obtain ⟨i, i', is, phis, is', e, e', code, rest⟩ := (an.numbered.each k _ b' hblock hb).parts
  refine ⟨i, i', is, phis, is', e, e', ?_, rest⟩
  have all : ∀ a a', (a, a') ∈ (i :: is).zip (i' :: is') → Numbers a a' → VersionsResult a a' := by
    intro a a' hmem nb
    have ha : a ∈ n.block := e ▸ (of_mem_zip hmem).1
    have ha' : a' ∈ b' := by
      rw [e', mem_cons, mem_append]
      exact (mem_cons.mp (of_mem_zip hmem).2).imp_right .inr
    refine ⟨nb.others, ?_⟩
    obtain hsame | ⟨x, m, hx, hx'⟩ := nb.dest
    · cases hx : a.dest with
      | none => exact .inl ⟨rfl, hsame.trans hx⟩
      | some x => exact absurd (hsame.trans hx) (an.clean k n hn a ha x hx b' hb a' ha')
    · exact .inr ⟨x, m, plain a ha x hx, hx, hx'⟩
  rw [forall₂_iff_zip] at code ⊢
  exact ⟨code.1, fun hmem => all _ _ hmem (code.2 hmem)⟩

lemma numberedBlocks_refl (un : ∀ b ∈ bs, Unnumbered b) : NumberedBlocks bs bs := by
  refine ⟨rfl, fun k b b' hb hb' => ?_⟩
  rw [hb] at hb'
  cases hb'
  obtain ⟨i, is, rfl⟩ := exists_cons_of_ne_nil (un b (mem_of_getElem? hb)).nonempty
  refine ⟨i, i, is, [], is, rfl, rfl, ?_, by simp, by simp [phiVars]⟩
  exact forall₂_same.mpr fun j _ => ⟨rfl, .inl rfl⟩

/-- No phi is there to begin with. -/
lemma not_hasPhi (un : ∀ b ∈ bs, Unnumbered b) : ¬ HasPhi bs x k := by
  rintro ⟨b, hb, hx⟩
  obtain ⟨j, hj, e⟩ := mem_filterMap.mp hx
  split at e
  · next hphi => exact (un b (mem_of_getElem? hb)).free j hj (by simpa [Instr.hasOp] using hphi)
  · cases e

section Variables

variable {style : Style} {g : FlowGraph} {frontier : Table Nat (List Nat)} {order : SiteOrder}
variable {cs : List Block} {ss : List Site}

/-- Blocks with the versions of a variable at some sites: its phis are in their frontiers. -/
structure VarNumbered (style : Style) (frontier : Table Nat (List Nat)) (x : String)
    (ss : List Site) (blocks : List Block) : Prop where
  sites : ∀ k t, (k, t) ∈ ss → CleanAt blocks x k ∧ ∀ j ∈ frontier.getD k [], HasPhi blocks x j
  phis : ∀ k, HasPhi blocks x k →
    (style.iterated = true → ∀ j ∈ frontier.getD k [], HasPhi blocks x j) ∧
      ∃ d, k ∈ frontier.getD d []

/-- What is known of a variable is kept when others are numbered. -/
lemma VarNumbered.keep (h : VarNumbered style frontier x ss cs)
    (same : ∀ k, HasPhi blocks x k ↔ HasPhi cs x k)
    (clean : ∀ k, CleanAt cs x k → CleanAt blocks x k) :
    VarNumbered style frontier x ss blocks where
  sites k t hk := by
    obtain ⟨hclean, hphis⟩ := h.sites k t hk
    exact ⟨clean k hclean, fun j hj => (same j).mpr (hphis j hj)⟩
  phis k hk := by
    obtain ⟨hphis, hd⟩ := h.phis k ((same k).mp hk)
    exact ⟨fun hit j hj => (same j).mpr (hphis hit j hj), hd⟩

/-- The first numbering of a variable, in whichever order its sites come. -/
lemma numberVar_spec (un : ∀ b ∈ bs, Unnumbered b) (hx : '.' ∉ x.toList)
    (nb : NumberedBlocks bs cs) (none : ∀ k, ¬ HasPhi cs x k)
    (h : numberVar order style g frontier cs (x, ss) = .ok blocks) :
    ∃ new, Advances bs x new cs blocks ∧ VarNumbered style frontier x ss blocks := by
  obtain ⟨r, hr, h⟩ := of_bind h
  obtain rfl : r.blocks = blocks := pure_eq_ok.mp h
  obtain ⟨new, adv, sites, phis⟩ := numberSites_spec un hx nb hr
  refine ⟨new, adv, fun k t hk => sites k t ((order.perm x ss).mem_iff.mpr hk), fun k hk => ?_⟩
  exact phis k (by simpa [none k] using (adv.phis x k).mp hk)

/-- The blocks behind the numbering of some variables more. -/
structure VarsNumbered (style : Style) (frontier : Table Nat (List Nat)) (bs : List Block)
    (es : List (String × List Site)) (cs blocks : List Block) : Prop where
  numbered : NumberedBlocks bs blocks
  clean : ∀ y, '.' ∉ y.toList → ∀ k, CleanAt cs y k → CleanAt blocks y k
  others : ∀ y k, y ∉ es.map Prod.fst → (HasPhi blocks y k ↔ HasPhi cs y k)
  each : ∀ e ∈ es, VarNumbered style frontier e.1 e.2 blocks

/-- The variables are gone through in turn; what is known of one is kept when later ones follow. -/
lemma numberVars_spec {es : List (String × List Site)} (un : ∀ b ∈ bs, Unnumbered b)
    (nb : NumberedBlocks bs cs) (nd : (es.map Prod.fst).Nodup)
    (plain : ∀ e ∈ es, '.' ∉ e.1.toList) (none : ∀ e ∈ es, ∀ k, ¬ HasPhi cs e.1 k)
    (h : es.foldlM (numberVar order style g frontier) cs = .ok blocks) :
    VarsNumbered style frontier bs es cs blocks := by
  induction es generalizing cs with
  | nil =>
    cases foldlM_nil_eq_ok.mp h
    exact ⟨nb, fun _ _ _ h => h, by simp, by simp⟩
  | cons e es ih =>
    obtain ⟨x, ss⟩ := e
    obtain ⟨ds, hds, h⟩ := foldlM_cons_eq_ok.mp h
    obtain ⟨hnew, nd⟩ := nodup_cons.mp nd
    have hx : '.' ∉ x.toList := plain (x, ss) (by simp)
    obtain ⟨new, adv, first⟩ := numberVar_spec un hx nb (none (x, ss) (by simp)) hds
    have none' : ∀ e ∈ es, ∀ k, ¬ HasPhi ds e.1 k := by
      intro e he k hk
      obtain hk | ⟨rfl, _⟩ := (adv.phis e.1 k).mp hk
      · exact none e (by simp [he]) k hk
      · exact hnew (mem_map.mpr ⟨e, he, rfl⟩)
    have rest := ih adv.numbered nd (fun e he => plain e (by simp [he])) none' h
    refine ⟨rest.numbered, fun y hy k hk => rest.clean y hy k (adv.clean y hy k hk),
      fun y k hy => ?_, fun e he => ?_⟩
    · simp only [map_cons, mem_cons, not_or] at hy
      rw [rest.others y k hy.2, adv.phis]
      simp [hy.1]
    · obtain rfl | he := mem_cons.mp he
      · exact first.keep (fun k => rest.others x k hnew) fun k => rest.clean x hx k
      · exact rest.each e he

/-- All variables get their versions one after the other, in whichever order their sites come. -/
theorem number_spec {s : FlowGraph.DomState} (un : ∀ b ∈ g.blocks, Unnumbered b)
    (plain : ∀ n ∈ g, ∀ i ∈ n.block, ∀ x, i.dest = some x → '.' ∉ x.toList)
    (hs : FlowGraph.DomState.settle g = .ok s) (h : numberBy order style g = .ok blocks) :
    AllNumbered style g (FlowGraph.frontier s) blocks := by
  obtain ⟨s', hs', h⟩ := Outcome.of_bind h
  cases hs.symm.trans hs'
  obtain ⟨vars, hvars, h⟩ := Outcome.of_bind h
  have ls := sites_spec hvars
  have keys : ∀ e ∈ vars.entries, '.' ∉ e.1.toList := by
    intro e he
    obtain hx | ⟨k, n, hn, i, hi, hd⟩ := ls.keys e.1 (mem_map_of_mem he)
    · simp at hx
    · exact plain n (mem_of_getElem? hn) i hi e.1 hd
  have all := numberVars_spec un (numberedBlocks_refl un) (ls.nodup (by simp)) keys
    (fun e _ k => not_hasPhi un) h
  have site : ∀ (k : Nat) n, g[k]? = some n → ∀ i ∈ n.block, ∀ x, i.dest = some x →
      CleanAt blocks x k ∧ ∀ j ∈ (FlowGraph.frontier s).getD k [], HasPhi blocks x j := by
    intro k n hn i hi x hd
    obtain ⟨ss, t, hss, ht⟩ := ls.added x k ⟨n, hn, i, hi, hd⟩
    exact (all.each (x, ss) (mem_of_get? hss)).sites k t ht
  refine ⟨all.numbered, fun k n hn i hi x hd => (site k n hn i hi x hd).1,
    fun k n hn i hi x hd => (site k n hn i hi x hd).2, fun x k hk => ?_⟩
  by_cases hx : x ∈ vars.keys
  · obtain ⟨e, he, rfl⟩ := mem_map.mp hx
    obtain ⟨iterated, front⟩ := (all.each e he).phis k hk
    obtain none | ⟨j, n, hn, assigns⟩ := ls.keys e.1 hx
    · simp at none
    · exact ⟨iterated, front, n, mem_of_getElem? hn, assigns⟩
  · exact absurd ((all.others x k hx).mp hk) (not_hasPhi un)

end Variables

end Ssa

end BrilKit
