import BrilKit.Proofs.Dominance.Compute
import BrilKit.Proofs.Ssa.Renaming

/-!
# The walk down the dominator tree

`rename` visits blocks in the order of the tree. A block that can be reached is visited once, after
its parent and with the versions that its parent leaves.
-/

namespace BrilKit

open List Outcome Table

namespace Ssa

open Renaming

variable {phis succ tree : FlowMap} {s s' : Renaming} {u : Visit} {c x : String}

/-- A visit of a block: the versions in force on arrival, behind the phis and at the end, and the
code found and left. -/
structure Visit where
  block : String
  before : Table String (List String)
  start : Table String (List String)
  final : Table String (List String)
  code : Block
  renamed : Block

def Visit.Hands (phis succ : FlowMap) (u : Visit) (c x : String) (p : String × String) : Prop :=
  succ.Edge u.block c ∧ x ∈ phis.getD c [] ∧ p = (u.block, handed u.final x)

/-- The operands that a visit hands to a phi: one for each edge to its block. -/
def Visit.handing (phis succ : FlowMap) (u : Visit) (c x : String) : Sources :=
  if x ∈ phis.getD c [] then
    List.replicate ((succ.getD u.block []).count c) (u.block, handed u.final x)
  else []

lemma Visit.mem_handing {p : String × String} :
    p ∈ u.handing phis succ c x ↔ u.Hands phis succ c x p := by
  unfold handing Hands FlowMap.Edge
  split <;> simp_all [count_eq_zero]

lemma Visit.handing_ne_nil : u.handing phis succ c x ≠ [] ↔ ∃ p, u.Hands phis succ c x p := by
  simp only [ne_eq, eq_nil_iff_forall_not_mem, mem_handing, not_forall, not_not]

/-- What is known of a visit. -/
structure Enters (phis succ : FlowMap) (s : Renaming) (u : Visit) (s' : Renaming) : Prop where
  before : u.before = s.versions
  final : s'.versions = u.final
  found : s.blocks.get? u.block = some u.code
  blocks : s'.blocks = s.blocks.put u.block u.renamed
  elsewhere : ∀ c, c ≠ u.block → s'.results.get? c = s.results.get? c
  merged : ∀ x ∈ phis.getD u.block [], ∃ k : Nat,
    (u.start.getD x []).head? = some (versionOf x k) ∧
      (s'.results.getD u.block .empty).get? x = some (versionOf x k)
  carried : ∀ x, x ∉ phis.getD u.block [] → u.start.getD x [] = u.before.getD x []
  instrs : ∃ s₁ s₂ : Renaming, s₁.versions = u.start ∧ s₂.versions = u.final ∧
    s₁.instrs u.code = .ok (u.renamed, s₂)
  issues : ∃ names, Issues s s' (names ++ u.renamed.filterMap Instr.dest) ∧
    Forall₂ (fun x n => (s'.results.getD u.block .empty).get? x = some n)
      (phis.getD u.block []) names
  operands : ∀ c x, s'.operands c x = s.operands c x ++ u.handing phis succ c x
  keys : ∀ c x, x ∈ (s'.sources.getD c .empty).keys ↔
    x ∈ (s.sources.getD c .empty).keys ∨ ∃ p, u.Hands phis succ c x p
  nodup : (∀ c, (s.sources.getD c .empty).keys.Nodup) → ∀ c, (s'.sources.getD c .empty).keys.Nodup

/-- Visits of blocks one after the other, each with the visits below it. -/
inductive Walk (phis succ tree : FlowMap) :
    List String → Renaming → List Visit → Renaming → Prop where
  | nil {s : Renaming} : Walk phis succ tree [] s [] s
  | cons {s s₁ s₂ s₃ : Renaming} {u : Visit} {vs ws : List Visit} {rest : List String} :
    Enters phis succ s u s₁ →
    Walk phis succ tree (sortNames (tree.getD u.block [])) s₁ vs s₂ →
    Walk phis succ tree rest { s₂ with versions := s.versions } ws s₃ →
    Walk phis succ tree (u.block :: rest) s (u :: (vs ++ ws)) s₃

lemma Enters.block_mem (en : Enters phis succ s u s') : u.block ∈ s.blocks.keys :=
  mem_keys.mpr ⟨u.code, en.found⟩

lemma Enters.blockKeys (en : Enters phis succ s u s') : s'.blocks.keys = s.blocks.keys := by
  rw [en.blocks]
  exact keys_put_of_mem en.block_mem

section Rename

variable {block : String}

lemma foldlM_feed {ss : List String} (nd : ∀ b, (phis.getD b []).Nodup)
    (h : ss.foldlM (fun (s : Renaming) target => do
      return s.feed block target (← phis.fetch target)) s = .ok s') :
    Fed s s' fun c x => if x ∈ phis.getD c [] then
      List.replicate (ss.count c) (block, handed s.versions x) else [] := by
  induction ss generalizing s with
  | nil =>
    obtain rfl := foldlM_nil_eq_ok.mp h
    exact Fed.refl.congr (by simp)
  | cons c ss ih =>
    obtain ⟨mid, hmid, h⟩ := foldlM_cons_eq_ok.mp h
    obtain ⟨vars, hvars, hmid⟩ := of_bind hmid
    obtain rfl := pure_eq_ok.mp hmid
    have hc : phis.getD c [] = vars := getD_of_fetch hvars
    have fed := feed_fed s block c (hc ▸ nd c)
    refine (fed.trans (ih h)).congr fun d x => ?_
    rw [fed.versions]
    by_cases hd : d = c
    · subst hd
      by_cases hx : x ∈ vars
      · simp [hc, hx, replicate_succ]
      · simp [hc, hx]
    · simp [hd, count_cons_of_ne (Ne.symm hd)]

/-- Every renaming of a block and what is below it is a walk. -/
theorem rename_walk {fuel : Nat} (nd : ∀ b, (phis.getD b []).Nodup)
    (h : rename phis succ tree fuel block s = .ok s') :
    ∃ vs, Walk phis succ tree [block] s vs s' := by
  induction fuel generalizing block s s' with
  | zero => cases h
  | succ fuel ih =>
    obtain ⟨vars, hvars, h⟩ := of_bind h
    obtain ⟨code, hcode, h⟩ := of_bind h
    obtain ⟨⟨renamed, s₁⟩, hrenamed, h⟩ := of_bind h
    obtain ⟨ss, hss, h⟩ := of_bind h
    obtain ⟨s₂, hs₂, h⟩ := of_bind h
    obtain ⟨cs, hcs, h⟩ := of_bind h
    obtain ⟨s₃, hs₃, h⟩ := of_bind h
    obtain rfl := pure_eq_ok.mp h
    have hphis : phis.getD block [] = vars := getD_of_fetch hvars
    have hsucc : succ.getD block [] = ss := getD_of_fetch hss
    have st := startPhis_started s block (hphis ▸ nd block)
    have same := instrs_same hrenamed
    have fed := foldlM_feed nd hs₂
    have hsources : s₁.sources = s.sources := same.sources.trans st.sources
    have enters : Enters phis succ s ⟨block, s.versions, (s.startPhis block vars).versions,
        s₁.versions, code, renamed⟩ s₂ := {
      before := rfl
      final := fed.versions
      found := st.blocks ▸ fetch_eq_ok.mp hcode
      blocks := by rw [fed.blocks, same.blocks, st.blocks]
      elsewhere := fun c hc => by rw [fed.results, same.results, st.elsewhere c hc]
      merged := fun x hx => by
        rw [fed.results, same.results]
        obtain ⟨versions, -, result⟩ := st.phis x (hphis ▸ hx)
        exact ⟨s.counts.getD x 0, congrArg head? versions, result⟩
      carried := fun x hx => st.versions x (hphis ▸ hx)
      instrs := ⟨_, _, rfl, rfl, hrenamed⟩
      issues := by
        obtain ⟨names, iss, all⟩ := st.issues
        refine ⟨names, ?_, ?_⟩
        · have code := iss.trans (instrs_issues hrenamed)
          rw [← append_nil (names ++ _)]
          exact code.trans (.of_counts fed.counts)
        · rw [fed.results, same.results, hphis]
          exact all
      operands := fun c x => by
        rw [fed.operands]
        simp only [operands, hsources, Visit.handing, hsucc]
      keys := fun c x => by
        rw [fed.keys, ← Visit.handing_ne_nil]
        simp only [hsources, Visit.handing, hsucc]
      nodup := fun nd => fed.nodup (by simpa only [hsources] using nd) }
    have hcs' : sortNames cs = sortNames (tree.getD block []) := by rw [getD_of_fetch hcs]
    rw [hcs'] at hs₃
    -- The children are visited one after the other.
    have below : ∀ (cs : List String) (t t' : Renaming),
        cs.foldlM (fun s child => rename phis succ tree fuel child s) t = .ok t' →
        ∃ vs, Walk phis succ tree cs t vs t' := by
      intro cs
      induction cs with
      | nil =>
        intro t t' h
        obtain rfl := foldlM_nil_eq_ok.mp h
        exact ⟨[], .nil⟩
      | cons c cs ih' =>
        intro t t' h
        obtain ⟨mid, hmid, h⟩ := foldlM_cons_eq_ok.mp h
        obtain ⟨vs, walk⟩ := ih hmid
        obtain ⟨ws, walk'⟩ := ih' mid t' h
        cases walk with
        | cons en inner last =>
          cases last
          exact ⟨_, .cons en inner walk'⟩
    obtain ⟨vs, walk⟩ := below _ _ _ hs₃
    exact ⟨_, .cons enters walk .nil⟩

end Rename

namespace Walk

variable {cs roots : List String} {vs : List Visit} {b : String} {t : Table String (List String)}
  {u : Visit}

section Kept

variable (w : Walk phis succ tree cs s vs s')
include w

lemma comes : (∀ b ∈ cs, ∃ u ∈ vs, u.block = b) ∧
    ∀ u ∈ vs, ∀ b ∈ tree.getD u.block [], ∃ v ∈ vs, v.block = b := by
  induction w with
  | nil => simp
  | @cons s s₁ s₂ s₃ u vs ws rest _ _ _ ih ih' =>
    obtain ⟨children, below⟩ := ih
    obtain ⟨roots, behind⟩ := ih'
    constructor
    · intro b hb
      obtain rfl | hb := mem_cons.mp hb
      · exact ⟨u, by simp, rfl⟩
      · obtain ⟨v, hv, e⟩ := roots b hb
        exact ⟨v, by simp [hv], e⟩
    · intro v hv b hb
      obtain rfl | hv := mem_cons.mp hv
      · obtain ⟨v', hv', e⟩ := children b ((mergeSort_perm _ _).mem_iff.mpr hb)
        exact ⟨v', by simp [hv'], e⟩
      obtain hv | hv := mem_append.mp hv
      · obtain ⟨v', hv', e⟩ := below v hv b hb
        exact ⟨v', by simp [hv'], e⟩
      · obtain ⟨v', hv', e⟩ := behind v hv b hb
        exact ⟨v', by simp [hv'], e⟩

lemma versions : s'.versions = s.versions := by
  induction w with
  | nil => rfl
  | cons _ _ _ _ ih => exact ih

lemma operands_eq (c x : String) :
    s'.operands c x = s.operands c x ++ vs.flatMap fun u => u.handing phis succ c x := by
  induction w with
  | nil => simp
  | @cons s s₁ s₂ s₃ u vs ws rest en _ _ ih ih' =>
    have mid : ({ s₂ with versions := s.versions } : Renaming).operands c x = s₂.operands c x := rfl
    rw [ih', mid, ih, en.operands]
    simp

lemma operands (c x : String) (p : String × String) :
    p ∈ s'.operands c x ↔ p ∈ s.operands c x ∨ ∃ u ∈ vs, u.Hands phis succ c x p := by
  rw [w.operands_eq, mem_append, mem_flatMap]
  simp only [Visit.mem_handing]

lemma sourceKeys (c x : String) :
    x ∈ (s'.sources.getD c .empty).keys ↔
      x ∈ (s.sources.getD c .empty).keys ∨ ∃ u ∈ vs, ∃ p, u.Hands phis succ c x p := by
  induction w with
  | nil => simp
  | cons en _ _ ih ih' =>
    rw [ih', ih, en.keys]
    simp only [mem_cons, mem_append, or_and_right, exists_or, exists_eq_left, or_assoc]

lemma nodupSources (nd : ∀ c, (s.sources.getD c .empty).keys.Nodup) :
    ∀ c, (s'.sources.getD c .empty).keys.Nodup := by
  induction w with
  | nil => exact nd
  | cons en _ _ ih ih' => exact ih' (ih (en.nodup nd))

lemma blockKeys : s'.blocks.keys = s.blocks.keys := by
  induction w with
  | nil => rfl
  | cons en _ _ ih ih' => exact ih'.trans (ih.trans en.blockKeys)

lemma visited : ∀ u ∈ vs, u.block ∈ s.blocks.keys := by
  induction w with
  | nil => simp
  | @cons s s₁ s₂ s₃ u vs ws rest en w _ ih ih' =>
    intro v hv
    obtain rfl | hv := mem_cons.mp hv
    · exact en.block_mem
    obtain hv | hv := mem_append.mp hv
    · exact en.blockKeys ▸ ih v hv
    · exact en.blockKeys ▸ w.blockKeys ▸ ih' v hv

lemma shapes {n : String} {b' : Block}
    (h : s'.blocks.get? n = some b') :
    ∃ b, s.blocks.get? n = some b ∧ b'.map Instr.shape = b.map Instr.shape := by
  induction w generalizing b' with
  | nil => exact ⟨b', h, rfl⟩
  | @cons s s₁ s₂ s₃ u vs ws rest en _ _ ih ih' =>
    obtain ⟨b₂, h₂, e₂⟩ := ih' h
    obtain ⟨b₁, h₁, e₁⟩ := ih h₂
    rw [en.blocks, get?_put] at h₁
    split at h₁
    · next hn =>
      subst hn
      cases h₁
      obtain ⟨t₁, t₂, _, _, hi⟩ := en.instrs
      exact ⟨u.code, en.found, by rw [e₂, e₁, instrs_shapes hi]⟩
    · exact ⟨b₁, h₁, e₂.trans e₁⟩

lemma unvisited (hb : ∀ u ∈ vs, u.block ≠ b) :
    s'.blocks.get? b = s.blocks.get? b ∧ s'.results.get? b = s.results.get? b := by
  induction w with
  | nil => exact ⟨rfl, rfl⟩
  | @cons s s₁ s₂ s₃ u vs ws rest en _ _ ih ih' =>
    obtain ⟨h1, h2⟩ := ih fun v hv => hb v (by simp [hv])
    obtain ⟨h1', h2'⟩ := ih' fun v hv => hb v (by simp [hv])
    have hne : b ≠ u.block := (hb u (by simp)).symm
    refine ⟨h1'.trans (h1.trans ?_), h2'.trans (h2.trans (en.elsewhere b hne))⟩
    rw [en.blocks, get?_put_other hne]

/-- What is left of a visit when a block is visited once. -/
structure Once (phis : FlowMap) (s s' : Renaming) (b : String) (u : Visit) : Prop where
  block : u.block = b
  found : s.blocks.get? b = some u.code
  left : s'.blocks.get? b = some u.renamed
  carried : ∀ x, x ∉ phis.getD b [] → u.start.getD x [] = u.before.getD x []
  merged : ∀ x ∈ phis.getD b [], ∃ k : Nat,
    (u.start.getD x []).head? = some (versionOf x k) ∧
      (s'.results.getD b .empty).get? x = some (versionOf x k)
  instrs : ∃ s₁ s₂ : Renaming, s₁.versions = u.start ∧ s₂.versions = u.final ∧
    s₁.instrs u.code = .ok (u.renamed, s₂)

/-- A block that is visited once is left as its visit leaves it. -/
lemma visited_once (hb : vs.countP (fun u => u.block == b) = 1) :
    ∃ u ∈ vs, Once phis s s' b u := by
  induction w with
  | nil => simp at hb
  | @cons s s₁ s₂ s₃ u vs ws rest en w w' ih ih' =>
    rw [countP_cons, countP_append] at hb
    have none_of : ∀ l : List Visit, l.countP (fun u => u.block == b) = 0 →
        ∀ u ∈ l, u.block ≠ b := by
      intro l hl u hu e
      exact countP_eq_zero.mp hl u hu (by simp [e])
    by_cases hu : u.block = b
    · -- The block is the one visited first.
      subst hu
      simp only [beq_self_eq_true, if_true] at hb
      obtain ⟨hbl, hres⟩ := w.unvisited (none_of vs (by omega))
      obtain ⟨hbl', hres'⟩ := w'.unvisited (none_of ws (by omega))
      refine ⟨u, by simp, rfl, en.found, ?_, en.carried, ?_, en.instrs⟩
      · rw [hbl', hbl, en.blocks, get?_put_same]
      · intro x hx
        obtain ⟨k, hk, hr⟩ := en.merged x hx
        refine ⟨k, hk, ?_⟩
        rw [Table.getD, hres']
        exact (congrArg (fun o => (o.getD Table.empty).get? x) hres).trans hr
    · have hne : b ≠ u.block := Ne.symm hu
      simp only [beq_iff_eq, hu, if_false] at hb
      have hfound : s₁.blocks.get? b = s.blocks.get? b := by rw [en.blocks, get?_put_other hne]
      by_cases hvs : vs.countP (fun u => u.block == b) = 0
      · obtain ⟨hbl, _⟩ := w.unvisited (none_of vs hvs)
        obtain ⟨v, hv, on⟩ := ih' (by omega)
        refine ⟨v, by simp [hv], { on with found := ?_ }⟩
        rw [← hfound, ← hbl]
        exact on.found
      · obtain ⟨hbl', hres'⟩ := w'.unvisited (none_of ws (by omega))
        obtain ⟨v, hv, on⟩ := ih (by omega)
        refine ⟨v, by simp [hv], { on with found := ?_, left := ?_, merged := ?_ }⟩
        · rw [← hfound]
          exact on.found
        · rw [hbl']
          exact on.left
        · intro x hx
          obtain ⟨k, hk, hr⟩ := on.merged x hx
          refine ⟨k, hk, ?_⟩
          rw [Table.getD, hres']
          exact hr

end Kept

section Tree

variable {dom : FlowMap} {r b : String} (cp : Dominators.Computed succ r dom)
  (nd : succ.keys.Nodup) (ht : Dominators.tree dom = .ok tree)

open Classical in
include cp nd ht in
/-- A node dominates another one, or it is the node itself, or one child does. -/
lemma count_children (hb : Reach succ.Edge r b) (c : String) :
    (if c = b then 1 else 0) +
      (tree.getD c []).countP (fun d => decide (Dominates succ.Edge r d b)) =
    if Dominates succ.Edge r c b then 1 else 0 := by
  have child : ∀ d ∈ tree.getD c [], Dominates succ.Edge r d b → Dominates succ.Edge r c d ∧ d ≠ c :=
    fun d hd hdb =>
      let ⟨h1, h2, _⟩ := cp.parent_spec nd ht hdb.reach hd
      ⟨h1, h2⟩
  have none_of : (∀ d ∈ tree.getD c [], ¬ Dominates succ.Edge r d b) →
      (tree.getD c []).countP (fun d => decide (Dominates succ.Edge r d b)) = 0 := fun h =>
    countP_eq_zero.mpr fun d hd => by simpa using h d hd
  by_cases hcb : c = b
  · subst hcb
    rw [none_of fun d hd hdc => (child d hd hdc).2 (hdc.antisymm (child d hd hdc).1)]
    simp [Dominates.refl hb]
  · by_cases hdom : Dominates succ.Edge r c b
    · -- There is one child that dominates the node, and only one.
      obtain ⟨d, hd, hdb⟩ := cp.exists_child nd ht hdom hcb
      have count : (tree.getD c []).countP (fun d => decide (Dominates succ.Edge r d b)) =
          (tree.getD c []).count d := by
        refine countP_congr fun x hx => ?_
        simp only [decide_eq_true_eq, beq_iff_eq]
        exact ⟨fun hxb => cp.child_unique nd ht hx hd hxb hdb, fun e => e ▸ hdb⟩
      rw [count, count_eq_one_of_mem ((cp.tree_spec nd ht).nodup _) hd]
      simp [hcb, hdom]
    · rw [none_of fun d hd hdb => hdom ((child d hd hdb).1.trans hdb)]
      simp [hcb, hdom]

open Classical in
include cp nd ht in
/-- A block is visited once for every root of the walk that dominates it. -/
lemma count (w : Walk phis succ tree cs s vs s') (hb : Reach succ.Edge r b) :
    vs.countP (fun u => u.block == b) =
      cs.countP fun c => decide (Dominates succ.Edge r c b) := by
  induction w with
  | nil => rfl
  | @cons s s₁ s₂ s₃ u vs ws rest en _ _ ih ih' =>
    have sorted : (sortNames (tree.getD u.block [])).countP
        (fun c => decide (Dominates succ.Edge r c b)) =
        (tree.getD u.block []).countP fun c => decide (Dominates succ.Edge r c b) :=
      (mergeSort_perm _ _).countP_eq _
    have key := count_children cp nd ht hb u.block
    rw [countP_cons, countP_append, countP_cons, ih]
    simp only [beq_iff_eq, decide_eq_true_eq]
    omega

end Tree

/-- A visit follows from the roots of a walk by visits of children. -/
inductive Rooted (tree : FlowMap) (roots : List String) (versions : Table String (List String))
    (vs : List Visit) : Visit → Prop where
  | root {u : Visit} : u ∈ vs → u.block ∈ roots → u.before = versions →
    Rooted tree roots versions vs u
  | child {u v : Visit} : Rooted tree roots versions vs u → v ∈ vs →
    v.block ∈ tree.getD u.block [] → v.before = u.final → Rooted tree roots versions vs v

lemma Rooted.mem (h : Rooted tree roots t vs u) : u ∈ vs := by
  cases h with
  | root h => exact h
  | child _ h => exact h

lemma Rooted.lift {roots' : List String} {t' : Table String (List String)} {vs vs' : List Visit}
    (h : Rooted tree roots t vs u) (sub : ∀ u ∈ vs, u ∈ vs')
    (base : ∀ u ∈ vs, u.block ∈ roots → u.before = t → Rooted tree roots' t' vs' u) :
    Rooted tree roots' t' vs' u := by
  induction h with
  | root hu hr hb => exact base _ hu hr hb
  | child _ hv hc hb ih => exact .child ih (sub _ hv) hc hb

lemma rooted (w : Walk phis succ tree cs s vs s') : ∀ u ∈ vs, Rooted tree cs s.versions vs u := by
  induction w with
  | nil => simp
  | @cons s s₁ s₂ s₃ u vs ws rest en _ _ ih ih' =>
    intro v hv
    have first : Rooted tree (u.block :: rest) s.versions (u :: (vs ++ ws)) u :=
      .root (by simp) (by simp) en.before
    obtain rfl | hv := mem_cons.mp hv
    · exact first
    obtain hv | hv := mem_append.mp hv
    · refine (ih v hv).lift (by simp +contextual) fun v hv hr hb => ?_
      refine .child first (by simp [hv]) ?_ (hb.trans en.final)
      exact (mergeSort_perm _ _).mem_iff.mp hr
    · refine (ih' v hv).lift (by simp +contextual) fun v hv hr hb => ?_
      exact .root (by simp [hv]) (by simp [hr]) hb

end Walk

end Ssa

end BrilKit
