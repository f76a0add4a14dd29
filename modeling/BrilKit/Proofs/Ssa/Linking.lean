import BrilKit.Proofs.Ssa.Reaching
import BrilKit.Ssa.Versions.Link

/-!
# Uses linked to versions

What linking does to a block, given versions that came in over the edges of the block. Each use is
replaced by a version at most once, since a version has no versions, and a phi gets an operand for
every edge over which a version comes in.
-/

namespace BrilKit

open List Outcome

namespace Ssa

open FlowGraph

variable {g : FlowGraph} {bs : List Block} {k : Nat} {ν : Naming} {b b' b'' : Block}
  {i i' i'' : Instr} {x : String} {pred : List Nat} {tables : List Versions}
  {force force' : Versions}

/-- A phi with operands from some of the edges of its block. -/
structure Collects (g : FlowGraph) (bs : List Block) (k : Nat) (i i' : Instr) : Prop where
  args : i'.args.isSome = true
  others : i' = { i with args := i'.args, labels := i'.labels }
  arity : (i'.labels.getD []).length = i'.uses.length
  operands : ∀ l o, (l, o) ∈ (i'.labels.getD []).zip i'.uses → ∃ p n d, g.Live p ∧ g.Edge p k ∧
    g[p]? = some n ∧ n.label = some l ∧ i.dest = some d ∧ leaving g bs p (variableOf d) o

/-- An instruction some of whose uses have been replaced by versions. -/
structure LinksUses (ν : Naming) (i i' : Instr) : Prop where
  others : i' = { i with args := i'.args }
  bare : i.args = none → i'.args = none
  uses : Forall₂ (fun x x' => x' = x ∨ ν x x') i.uses i'.uses

/-- A block some of whose uses have been linked, with the versions in force in front of it. -/
inductive Linked (g : FlowGraph) (bs : List Block) (k : Nat) : Naming → Block → Block → Prop where
  | nil {ν : Naming} : Linked g bs k ν [] []
  | phi {ν : Naming} {i i' : Instr} {is is' : Block} :
    i.op = some "phi" →
    Collects g bs k i i' →
    Linked g bs k (ν.after [i]) is is' →
    Linked g bs k ν (i :: is) (i' :: is')
  | use {ν : Naming} {i i' : Instr} {is is' : Block} :
    i.op ≠ some "phi" →
    LinksUses ν i i' →
    Linked g bs k (ν.after [i]) is is' →
    Linked g bs k ν (i :: is) (i' :: is')

lemma Linked.refl (h : ∀ i ∈ b, i.op = some "phi" → i.args = some [] ∧ i.labels = some []) :
    Linked g bs k ν b b := by
  induction b generalizing ν with
  | nil => exact .nil
  | cons i b ih =>
    have rest := @ih (ν.after [i]) fun j hj => h j (by simp [hj])
    by_cases ho : i.op = some "phi"
    · obtain ⟨ha, hl⟩ := h i (by simp) ho
      refine .phi ho ⟨by simp [ha], rfl, by simp [Instr.uses, ha, hl], ?_⟩ rest
      simp [hl]
    · exact .use ho ⟨rfl, id, forall₂_same.mpr fun _ _ => .inl rfl⟩ rest

lemma Linked.lastOf_eq (h : Linked g bs k ν b b') : lastOf x b' = lastOf x b := by
  induction h with
  | nil => rfl
  | phi _ c _ ih => rw [lastOf, ih, c.others, lastOf]
  | use _ l _ ih => rw [lastOf, ih, l.others, lastOf]

lemma Linked.append {a : Block} (h : Linked g bs k ν (a ++ b) b'') :
    ∃ a' b', b'' = a' ++ b' ∧ Linked g bs k ν a a' ∧ Linked g bs k (ν.after a) b b' := by
  induction a generalizing ν b'' with
  | nil => exact ⟨[], b'', rfl, .nil, h⟩
  | cons i a ih =>
    rw [← singleton_append (l := a), Naming.after_append]
    cases h with
    | phi ho c h =>
      obtain ⟨a', b', rfl, ha, hb⟩ := ih h
      exact ⟨_ :: a', b', rfl, .phi ho c ha, hb⟩
    | use ho l h =>
      obtain ⟨a', b', rfl, ha, hb⟩ := ih h
      exact ⟨_ :: a', b', rfl, .use ho l ha, hb⟩

/-- Tables for the edges of a block: what is in them leaves the blocks in front. -/
structure Arrived (g : FlowGraph) (bs : List Block) (k : Nat) (pred : List Nat)
    (tables : List Versions) : Prop where
  nodup : ∀ t ∈ tables, t.keys.Nodup
  origin : ∀ (j : Nat) t, tables[j]? = some t → ∀ x v, t.get? x = some v →
    ∃ p, pred[j]? = some p ∧ g.Live p ∧ g.Edge p k ∧ leaving g bs p x v

def Backed (force : Versions) (ν : Naming) : Prop := ∀ x v, force.get? x = some v → ν x v

lemma Arrived.backed (ar : Arrived g bs k pred tables) :
    Backed (inForce tables) (arriving g bs k) := by
  intro x v h
  obtain ⟨t, ht, hv⟩ := Merge.settledBy_sound ar.nodup h
  obtain ⟨j, hj⟩ := mem_iff_getElem?.mp ht
  obtain ⟨p, _, live, e, leaves⟩ := ar.origin j t hj x v hv
  exact arriving_of_leaving live e leaves

section Phi

variable {source j : Nat} {d : String}

/-- A phi takes in an operand from an edge, or its label is there already, or nothing comes in. -/
lemma collect_spec (ar : Arrived g bs k pred tables) (hd : i.dest = some d)
    (hs : pred[j]? = some source) (c : Collects g bs k i i')
    (h : collect g tables (variableOf d) i' (source, j) = .ok i'') :
    Collects g bs k i i'' ∧ i'.labels.getD [] ⊆ i''.labels.getD [] ∧
      ∀ n l t v, g[source]? = some n → n.label = some l → tables[j]? = some t →
        t.get? (variableOf d) = some v → l ∈ i''.labels.getD [] := by
  obtain ⟨n, hn, h⟩ := of_bind h
  rw [itemAt_eq_ok] at hn
  split at h
  · cases h
  next l hl =>
  obtain ⟨ls, hls, h⟩ := of_bind h
  rw [Instr.getLabels, ofOption_eq_ok] at hls
  split at h
  · next hmem =>
    cases h
    refine ⟨c, fun _ h => h, fun n' l' t v hn' hl' _ _ => ?_⟩
    rw [hn] at hn'
    cases hn'
    rw [hl] at hl'
    cases hl'
    simpa [hls] using hmem
  · obtain ⟨t, ht, h⟩ := of_bind h
    rw [itemAt_eq_ok] at ht
    split at h
    · next hnone =>
      cases h
      refine ⟨c, fun _ h => h, fun _ _ t' v _ _ ht' hv => ?_⟩
      rw [ht] at ht'
      cases ht'
      rw [hnone] at hv
      cases hv
    · next v hv =>
      cases h
      have ha := c.arity
      simp only [hls, Option.getD_some] at ha
      refine ⟨⟨rfl, ?_, ?_, fun l' o hlo => ?_⟩, ?_, fun n' l' _ _ hn' hl' _ _ => ?_⟩
      · rw [c.others]
      · simpa [Instr.uses] using ha
      · simp only [Option.getD_some, Instr.uses] at hlo
        rw [zip_append (by simpa [Instr.uses] using ha), mem_append] at hlo
        obtain hlo | hlo := hlo
        · exact c.operands l' o (by simpa [hls, Instr.uses] using hlo)
        · obtain ⟨rfl, rfl⟩ : l' = l ∧ o = v := by simpa using hlo
          obtain ⟨p, hp, live, e, leaves⟩ := ar.origin j t ht _ _ hv
          rw [hs] at hp
          cases hp
          exact ⟨source, n, d, live, e, hn, hl, hd, leaves⟩
      · simp [hls]
      · rw [hn] at hn'
        cases hn'
        rw [hl] at hl'
        cases hl'
        simp

lemma foldlM_collect_spec (ar : Arrived g bs k pred tables) (hd : i.dest = some d)
    {edges : List (Nat × Nat)} (sub : ∀ e ∈ edges, pred[e.2]? = some e.1)
    (c : Collects g bs k i i')
    (h : edges.foldlM (collect g tables (variableOf d)) i' = .ok i'') :
    Collects g bs k i i'' ∧ i'.labels.getD [] ⊆ i''.labels.getD [] ∧
      ∀ e ∈ edges, ∀ n l t v, g[e.1]? = some n → n.label = some l → tables[e.2]? = some t →
        t.get? (variableOf d) = some v → l ∈ i''.labels.getD [] := by
  induction edges generalizing i' with
  | nil =>
    cases foldlM_nil_eq_ok.mp h
    exact ⟨c, fun _ h => h, by simp⟩
  | cons e edges ih =>
    obtain ⟨u, hu, h⟩ := foldlM_cons_eq_ok.mp h
    obtain ⟨c₁, sub₁, here⟩ := collect_spec ar hd (sub e (by simp)) c hu
    obtain ⟨c₂, sub₂, rest⟩ := ih (fun f hf => sub f (by simp [hf])) c₁ h
    refine ⟨c₂, fun l hl => sub₂ (sub₁ hl), fun f hf => ?_⟩
    obtain rfl | hf := mem_cons.mp hf
    · exact fun n l t v hn hl ht hv => sub₂ (here n l t v hn hl ht hv)
    · exact rest f hf

end Phi

/-- A phi has an operand for every edge over which a version comes in. -/
def Complete (g : FlowGraph) (pred : List Nat) (tables : List Versions) (i : Instr) : Prop :=
  ∀ d, i.dest = some d → ∀ (j p : Nat) n l t v, pred[j]? = some p → g[p]? = some n →
    n.label = some l → tables[j]? = some t → t.get? (variableOf d) = some v → l ∈ i.labels.getD []

def behindInstr (force : Versions) (i : Instr) : Versions :=
  match i.dest with
  | some d => force.put (variableOf d) d
  | none => force

lemma get?_behindInstr : (behindInstr force i).get? x = (lastOf x [i]).or (force.get? x) := by
  unfold behindInstr
  cases hd : i.dest with
  | none => simp [lastOf, hd]
  | some d =>
    by_cases hx : variableOf d = x
    · subst hx
      simp [lastOf, hd, Option.filter]
    · simp [lastOf, hd, Option.filter, hx, Table.get?_put_other (Ne.symm hx)]

lemma nodup_behindInstr (nd : force.keys.Nodup) : (behindInstr force i).keys.Nodup := by
  unfold behindInstr
  split
  · exact Table.nodup_put nd
  · exact nd

lemma linkInstr_cases (h : linkInstr g pred tables force i = .ok (force', i')) :
    force' = behindInstr force i' ∧
    (i.args = none ∧ i' = i ∨
      (∃ d, i.op = some "phi" ∧ i.dest = some d ∧
        pred.zipIdx.foldlM (collect g tables (variableOf d)) i = .ok i') ∨
      ∃ xs, i.args = some xs ∧ i.op ≠ some "phi" ∧
        i' = { i with args := some (xs.map fun x => force.getD x x) }) := by
  have last : ∀ j : Instr, (match j.dest with
      | some d => pure (force.put (variableOf d) d, j)
      | none => pure (force, j) : Outcome (Versions × Instr)) = .ok (force', i') →
      i' = j ∧ force' = behindInstr force j := by
    intro j h
    unfold behindInstr
    split at h <;> cases h <;> simp [*]
  unfold linkInstr at h
  dsimp only at h
  split at h
  · next ha =>
    obtain ⟨rfl, hf⟩ := last i h
    exact ⟨hf, .inl ⟨ha, rfl⟩⟩
  · next xs ha =>
    obtain ⟨op, hop, h⟩ := of_bind h
    rw [Instr.getOp, ofOption_eq_ok] at hop
    split at h
    · next hphi =>
      obtain ⟨d, hd, h⟩ := of_bind h
      rw [Instr.getDest, ofOption_eq_ok] at hd
      obtain ⟨j, hj, h⟩ := of_bind h
      obtain ⟨rfl, hf⟩ := last j h
      exact ⟨hf, .inr (.inl ⟨d, by simpa [hop] using hphi, hd, hj⟩)⟩
    · next hphi =>
      obtain ⟨rfl, hf⟩ := last _ h
      exact ⟨hf, .inr (.inr ⟨xs, ha, by simpa [hop] using hphi, rfl⟩)⟩

lemma relink_use {x' : String} (pr : ν.Proper IsVersion) (bk : Backed force ν)
    (h : x' = x ∨ ν x x') : force.getD x' x' = x ∧ force.get? x = none ∨ ν x (force.getD x' x') := by
  unfold Table.getD
  cases hv : force.get? x' with
  | none =>
    obtain rfl | h := h
    · exact .inl ⟨rfl, hv⟩
    · exact .inr h
  | some v =>
    have hν := bk x' v hv
    obtain rfl | h := h
    · exact .inr hν
    · exact absurd (pr x' v hν) (pr x x' h).not_variable

lemma Backed.after (bk : Backed force ν)
    (h : ∀ x, force'.get? x = (lastOf x b).or (force.get? x)) : Backed force' (ν.after b) := by
  intro x v hv
  rw [h] at hv
  cases hl : lastOf x b with
  | some d =>
    rw [hl] at hv
    exact (Naming.after_of_lastOf hl).mpr (Option.some.inj hv).symm
  | none =>
    rw [hl] at hv
    exact (Naming.after_of_none hl).mpr (bk x v hv)

lemma Backed.behind (bk : Backed force ν) (hd : i'.dest = i.dest) :
    Backed (behindInstr force i') (ν.after [i]) :=
  bk.after fun x => by simp only [get?_behindInstr, lastOf, hd]

lemma linkBlock_cons (h : linkBlock g pred tables false force (i :: b) = .ok (force', b'')) :
    ∃ i' b', b'' = i' :: b' ∧
      linkInstr g pred tables force i = .ok (behindInstr force i', i') ∧
      linkBlock g pred tables false (behindInstr force i') b = .ok (force', b') := by
  unfold linkBlock at h
  simp only [Bool.false_eq_true, if_false] at h
  obtain ⟨⟨f, i'⟩, hi, h⟩ := of_bind h
  obtain ⟨⟨f', b'⟩, hb, h⟩ := of_bind h
  cases h
  obtain ⟨rfl, _⟩ := linkInstr_cases hi
  exact ⟨i', b', rfl, hi, hb⟩

lemma linkBlock_append {a : Block}
    (h : linkBlock g pred tables false force (a ++ b) = .ok (force', b'')) :
    ∃ mid a' b', linkBlock g pred tables false force a = .ok (mid, a') ∧
      linkBlock g pred tables false mid b = .ok (force', b') ∧ b'' = a' ++ b' := by
  induction a generalizing force b'' with
  | nil => exact ⟨force, [], b'', rfl, h, rfl⟩
  | cons i a ih =>
    obtain ⟨i', c, rfl, hi, h⟩ := linkBlock_cons h
    obtain ⟨mid, a', b', ha, hb, rfl⟩ := ih h
    refine ⟨mid, i' :: a', b', ?_, hb, rfl⟩
    simp [linkBlock, hi, ha]

lemma linkInstr_dest (h : linkInstr g pred tables force i = .ok (force', i')) :
    i'.dest = i.dest := by
  obtain ⟨_, ⟨_, rfl⟩ | ⟨d, _, hd, h⟩ | ⟨xs, _, _, rfl⟩⟩ := linkInstr_cases h
  · rfl
  · refine foldlM_invariant (fun j => j.dest = i.dest) (fun e _ s t hs h => ?_) h rfl
    obtain ⟨n, _, h⟩ := of_bind h
    split at h
    · cases h
    obtain ⟨ls, _, h⟩ := of_bind h
    split at h
    · cases h
      exact hs
    obtain ⟨t, _, h⟩ := of_bind h
    split at h <;> cases h <;> exact hs
  · rfl

lemma get?_linkBlock (h : linkBlock g pred tables false force b = .ok (force', b')) :
    force'.get? x = (lastOf x b).or (force.get? x) := by
  induction b generalizing force b' with
  | nil =>
    cases h
    simp [lastOf]
  | cons i b ih =>
    obtain ⟨i', c, rfl, hi, h⟩ := linkBlock_cons h
    rw [ih h, get?_behindInstr, lastOf, lastOf, linkInstr_dest hi, lastOf, Option.none_or,
      Option.or_assoc]

lemma nodup_linkBlock (nd : force.keys.Nodup)
    (h : linkBlock g pred tables false force b = .ok (force', b')) : force'.keys.Nodup := by
  induction b generalizing force b' with
  | nil =>
    cases h
    exact nd
  | cons i b ih =>
    obtain ⟨i', c, rfl, hi, h⟩ := linkBlock_cons h
    exact ih (nodup_behindInstr nd) h

lemma Collects.relink (ar : Arrived g bs k pred tables) (ho : i.op = some "phi")
    (c : Collects g bs k i i') (h : linkInstr g pred tables force i' = .ok (force', i'')) :
    Collects g bs k i i'' ∧ Complete g pred tables i'' := by
  have ho' : i'.op = some "phi" := by rw [c.others, ho]
  have hd' : i'.dest = i.dest := by rw [c.others]
  obtain ⟨_, ⟨ha, _⟩ | ⟨d, _, hd, h⟩ | ⟨_, _, hne, _⟩⟩ := linkInstr_cases h
  · simpa [ha] using c.args
  · obtain ⟨c', _, all⟩ := foldlM_collect_spec ar (hd' ▸ hd)
      (fun e he => mem_zipIdx_iff_getElem?.mp he) c h
    refine ⟨c', fun d' hd'' j p n l t v hp hn hl ht hv => ?_⟩
    have e : i''.dest = i.dest := by rw [c'.others]
    rw [e, ← hd', hd] at hd''
    cases hd''
    exact all (p, j) (mem_zipIdx_iff_getElem?.mpr hp) n l t v hn hl ht hv
  · exact absurd ho' hne

lemma LinksUses.relink (pr : ν.Proper IsVersion) (bk : Backed force ν) (ho : i.op ≠ some "phi")
    (l : LinksUses ν i i') (h : linkInstr g pred tables force i' = .ok (force', i'')) :
    i'' = { i with args := i''.args } ∧ (i.args = none → i''.args = none) ∧
      Forall₂ (fun x x' => x' = x ∧ force.get? x = none ∨ ν x x') i.uses i''.uses := by
  have uses : ∀ {xs xs' : List String}, Forall₂ (fun x x' => x' = x ∨ ν x x') xs xs' →
      Forall₂ (fun x x' => x' = x ∧ force.get? x = none ∨ ν x x') xs
        (xs'.map fun x => force.getD x x) := by
    intro xs xs' h
    induction h with
    | nil => exact .nil
    | cons hx _ ih => exact .cons (relink_use pr bk hx) ih
  have ho' : i'.op ≠ some "phi" := by
    rw [l.others]
    exact ho
  have hl := l.uses
  obtain ⟨_, ⟨ha, rfl⟩ | ⟨_, hphi, _⟩ | ⟨xs, ha, _, rfl⟩⟩ := linkInstr_cases h
  · have none : i''.uses = [] := by rw [Instr.uses, ha, Option.getD_none]
    rw [none, forall₂_nil_right_iff] at hl
    rw [none, hl]
    exact ⟨l.others, l.bare, .nil⟩
  · exact absurd hphi ho'
  · have some : i'.uses = xs := by rw [Instr.uses, ha, Option.getD_some]
    rw [some] at hl
    refine ⟨?_, fun h => ?_, uses hl⟩
    · rw [l.others]
    · rw [l.bare h] at ha
      cases ha

lemma Linked.relink (ar : Arrived g bs k pred tables) (all : AllVersions b)
    (lk : Linked g bs k ν b b') (pr : ν.Proper IsVersion) (bk : Backed force ν)
    (h : linkBlock g pred tables false force b' = .ok (force', b'')) :
    Linked g bs k ν b b'' := by
  induction lk generalizing force b'' with
  | nil =>
    cases h
    exact .nil
  | @phi ν i i' is is' ho c _ ih =>
    obtain ⟨j, c', rfl, hi, h⟩ := linkBlock_cons h
    have hd : j.dest = i.dest := by rw [linkInstr_dest hi, c.others]
    have pr' := pr.after (b := [i]) fun e he => all e (by simp_all)
    exact .phi ho (c.relink ar ho hi).1 (ih (fun e he => all e (by simp [he])) pr' (bk.behind hd) h)
  | @use ν i i' is is' ho l _ ih =>
    obtain ⟨j, c', rfl, hi, h⟩ := linkBlock_cons h
    have hd : j.dest = i.dest := by rw [linkInstr_dest hi, l.others]
    have pr' := pr.after (b := [i]) fun e he => all e (by simp_all)
    obtain ⟨others, none, uses⟩ := l.relink pr bk ho hi
    exact .use ho ⟨others, none, uses.imp fun _ _ => Or.imp_left And.left⟩
      (ih (fun e he => all e (by simp [he])) pr' (bk.behind hd) h)

end Ssa

end BrilKit
