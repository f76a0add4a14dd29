import BrilKit.Proofs.Dominance.Compute
import BrilKit.Ssa.Placement

/-!
# Where the phis are

The phis of a variable stand in the frontiers of the blocks that assign it and of the blocks that
have a phi for it, and nowhere else: frontiers lead to each from a block that assigns the variable.
-/

namespace BrilKit

open List Outcome Table

namespace Ssa

variable {blocks : NamedBlocks} {fr phis phis₀ defs : FlowMap} {v b d n : String}
  {ds : List String} {s : Placing} {k fuel : Nat}

section Defining

def noteDest (n : String) (defs : FlowMap) (i : Instr) : FlowMap :=
  match i.dest with
  | some d => defs.alter d fun ns => Members.add (ns.getD []) n
  | none => defs

def noteBlock (defs : FlowMap) (e : String × Block) : FlowMap := e.2.foldl (noteDest e.1) defs

lemma definingBlocks_eq : definingBlocks blocks = blocks.entries.foldl noteBlock .empty := rfl

lemma mem_noteDest {m : String} {i : Instr} :
    n ∈ (noteDest m defs i).getD v [] ↔ n ∈ defs.getD v [] ∨ n = m ∧ i.dest = some v := by
  unfold noteDest
  cases hd : i.dest with
  | none => simp
  | some d =>
    by_cases hdv : v = d
    · subst hdv
      simp only [Table.alter, getD_put_same]
      simp [Table.getD]
    · simp [Table.alter, getD_put_other hdv, Ne.symm hdv]

lemma mem_noteBlock {e : String × Block} :
    n ∈ (noteBlock defs e).getD v [] ↔
      n ∈ defs.getD v [] ∨ n = e.1 ∧ ∃ i ∈ e.2, i.dest = some v := by
  obtain ⟨m, b⟩ := e
  unfold noteBlock
  induction b generalizing defs with
  | nil => simp
  | cons i b ih =>
    rw [foldl_cons, ih, mem_noteDest]
    simp only [mem_cons, exists_eq_or_imp]
    tauto

lemma mem_definingBlocks : n ∈ (definingBlocks blocks).getD v [] ↔
    ∃ b, (n, b) ∈ blocks.entries ∧ ∃ i ∈ b, i.dest = some v := by
  have all : ∀ (es : List (String × Block)) (defs : FlowMap),
      n ∈ (es.foldl noteBlock defs).getD v [] ↔
        n ∈ defs.getD v [] ∨ ∃ b, (n, b) ∈ es ∧ ∃ i ∈ b, i.dest = some v := by
    intro es
    induction es with
    | nil => simp
    | cons e es ih =>
      intro defs
      rw [foldl_cons, ih, mem_noteBlock]
      simp only [mem_cons, Prod.ext_iff]
      constructor
      · rintro ((h | ⟨rfl, h⟩) | ⟨b, hb, h⟩)
        · exact .inl h
        · exact .inr ⟨e.2, .inl ⟨rfl, rfl⟩, h⟩
        · exact .inr ⟨b, .inr hb, h⟩
      · rintro (h | ⟨b, ⟨rfl, rfl⟩ | hb, h⟩)
        · exact .inl (.inl h)
        · exact .inl (.inr ⟨rfl, h⟩)
        · exact .inr ⟨b, hb, h⟩
  rw [definingBlocks_eq, all]
  simp [Table.getD]

lemma nodup_definingBlocks : (definingBlocks blocks).keys.Nodup := by
  rw [definingBlocks_eq]
  let Distinct (defs : FlowMap) : Prop := defs.keys.Nodup
  refine List.foldlRecOn (motive := Distinct) _ _ nodup_nil fun defs h e _ => ?_
  refine List.foldlRecOn (motive := Distinct) _ _ h fun defs h i _ => ?_
  unfold noteDest
  split
  · exact nodup_put h
  · exact h

end Defining

/-- What is true while the phis of a variable are being placed. -/
structure Placed (fr phis₀ : FlowMap) (v : String) (ds : List String) (s : Placing) : Prop where
  keys : s.phis.keys = phis₀.keys
  nodup : ∀ b, (s.phis.getD b []).Nodup
  others : ∀ b w, w ≠ v → (w ∈ s.phis.getD b [] ↔ w ∈ phis₀.getD b [])
  sound : ∀ b, v ∈ s.phis.getD b [] → ∃ d ∈ ds, Relation.TransGen fr.Edge d b
  listed : ∀ b, v ∈ s.phis.getD b [] → b ∈ s.blocks
  blocks : ∃ new, s.blocks = ds ++ new ∧ new.Nodup ∧ ∀ b ∈ new, v ∈ s.phis.getD b []

lemma Placed.frontier (pl : Placed fr phis₀ v ds s) (hd : d ∈ s.blocks) (hb : b ∈ fr.getD d []) :
    ∃ e ∈ ds, Relation.TransGen fr.Edge e b := by
  obtain ⟨new, e, -, hnew⟩ := pl.blocks
  rw [e] at hd
  obtain hd | hd := mem_append.mp hd
  · exact ⟨d, hd, .single hb⟩
  · obtain ⟨e, he, path⟩ := pl.sound d (hnew d hd)
    exact ⟨e, he, path.tail hb⟩

lemma Placed.place (pl : Placed fr phis₀ v ds s) (hd : d ∈ s.blocks) (hb : b ∈ fr.getD d [])
    (key : b ∈ phis₀.keys) :
    ∃ s', s.at_ v b = .ok s' ∧ (Placed fr phis₀ v ds s' ∧ s.blocks <+: s'.blocks) ∧
      v ∈ s'.phis.getD b [] ∧ ∀ c, v ∈ s.phis.getD c [] → v ∈ s'.phis.getD c [] := by
  obtain ⟨vs, get⟩ : ∃ vs, s.phis.getD b [] = vs := ⟨_, rfl⟩
  have hvs := get ▸ fetch_of_mem [] (pl.keys ▸ key)
  by_cases hv : v ∈ vs
  · exact ⟨s, ok_bind hvs (if_pos (by simpa using hv)), ⟨pl, prefix_rfl⟩, get ▸ hv, fun _ h => h⟩
  have mem : ∀ c w, w ∈ (s.phis.put b (vs ++ [v])).getD c [] ↔
      w ∈ s.phis.getD c [] ∨ c = b ∧ w = v := by
    intro c w
    by_cases hc : c = b
    · simp [hc, getD_put_same, get]
    · simp [hc, getD_put_other hc]
  refine ⟨_, ok_bind hvs (if_neg (by simpa using hv)), ⟨?_, ?_⟩, (mem b v).mpr (.inr ⟨rfl, rfl⟩),
    fun c h => (mem c v).mpr (.inl h)⟩
  · exact {
      keys := (keys_put_of_mem (pl.keys ▸ key)).trans pl.keys
      nodup := fun c => by
        by_cases hc : c = b
        · rw [hc, getD_put_same, ← concat_eq_append]
          exact (get ▸ pl.nodup b).concat hv
        · rw [getD_put_other hc]
          exact pl.nodup c
      others := fun c w hw => by rw [mem, ← pl.others c w hw, or_iff_left fun h => hw h.2]
      sound := fun c hc => by
        obtain hc | ⟨rfl, -⟩ := (mem c v).mp hc
        · exact pl.sound c hc
        · exact pl.frontier hd hb
      listed := fun c hc => Members.mem_add.mpr (((mem c v).mp hc).imp (pl.listed c) And.left)
      blocks := by
        obtain ⟨new, e, nd, all⟩ := pl.blocks
        have keep : ∀ c ∈ new, v ∈ (s.phis.put b (vs ++ [v])).getD c [] := fun c hc =>
          (mem c v).mpr (.inl (all c hc))
        by_cases hmem : b ∈ s.blocks
        · exact ⟨new, by simpa [Members.add, hmem] using e, nd, keep⟩
        · refine ⟨new ++ [b], ?_, ?_, ?_⟩
          · rw [Members.add, if_neg (by simpa using hmem), e, append_assoc]
          · rw [← concat_eq_append]
            exact nd.concat fun h => hmem (by simp [e, h])
          · exact forall_mem_append.mpr ⟨keep, by simp [mem]⟩ }
  · unfold Members.add
    split
    · exact prefix_rfl
    · exact prefix_append _ _

lemma Placed.length_le (pl : Placed fr phis₀ v ds s) :
    s.blocks.length ≤ ds.length + phis₀.keys.length := by
  obtain ⟨new, e, nd, all⟩ := pl.blocks
  have sub : new ⊆ phis₀.keys := fun b hb => pl.keys ▸ FlowMap.mem_keys_of_edge (all b hb)
  have := (subperm_of_subset nd sub).length_le
  rw [e, length_append]
  omega

/-- The frontiers of the first blocks in the list have a phi. -/
def Closed (fr : FlowMap) (v : String) (k : Nat) (s : Placing) : Prop :=
  ∀ j < k, ∀ d, s.blocks[j]? = some d → ∀ b ∈ fr.getD d [], v ∈ s.phis.getD b []

lemma Closed.all (h : Closed fr v k s) (hk : s.blocks.length ≤ k) :
    ∀ d ∈ s.blocks, ∀ b ∈ fr.getD d [], v ∈ s.phis.getD b [] := by
  intro d hd
  obtain ⟨j, hj⟩ := mem_iff_getElem?.mp hd
  have hlt : j < s.blocks.length := lt_of_getElem? hj
  exact h j (by omega) d hj

/-- All blocks have a frontier, which lies within the blocks. -/
def FrontiersOn (fr : FlowMap) (keys : List String) : Prop :=
  ∀ d ∈ keys, ∃ bs, fr.fetch d = .ok bs ∧ ∀ b ∈ bs, b ∈ keys

lemma frontiersOn {succ dom : FlowMap} {r : String} (nd : succ.keys.Nodup)
    (hdom : Dominators.compute succ r = .ok dom) (h : Dominators.frontiers dom succ = .ok fr) :
    FrontiersOn fr succ.keys := by
  obtain ⟨pred, nodes, inv, bd, -⟩ := Dominators.compute_solved nd hdom
  obtain ⟨keys, all⟩ := Dominators.frontiers_spec (bd.keys ▸ nd) bd.keys h
  intro d hd
  rw [← bd.keys, ← keys] at hd
  refine ⟨_, fetch_of_mem [] hd, fun b hb => ?_⟩
  obtain ⟨⟨p, -, e⟩, -⟩ := ((all d).2 b).mp hb
  exact (FlowMap.invert_eq inv).2.1 p b e

/-- Going through the assigning blocks closes the phis under frontiers: the passes suffice to reach
the end of the list. -/
lemma Placed.placeFrom (on : FrontiersOn fr phis₀.keys) (sub : ∀ d ∈ ds, d ∈ phis₀.keys)
    (pl : Placed fr phis₀ v ds s) (hfuel : ds.length + phis₀.keys.length < fuel + k)
    (hk : k ≤ s.blocks.length) (done : Closed fr v k s) :
    ∃ s', placeFrom fr v fuel k s = .ok s' ∧ Placed fr phis₀ v ds s' ∧ s.blocks <+: s'.blocks ∧
      ∀ d ∈ s'.blocks, ∀ b ∈ fr.getD d [], v ∈ s'.phis.getD b [] := by
  induction fuel generalizing k s with
  | zero =>
    have := pl.length_le
    omega
  | succ fuel ih =>
    rw [Ssa.placeFrom]
    cases hd : s.blocks[k]? with
    | none => exact ⟨s, rfl, pl, prefix_rfl, done.all (getElem?_eq_none_iff.mp hd)⟩
    | some d =>
      have mem := mem_of_getElem? hd
      have key : d ∈ phis₀.keys := by
        obtain ⟨new, e, -, all⟩ := pl.blocks
        rw [e] at mem
        exact (mem_append.mp mem).elim (sub d) fun h =>
          pl.keys ▸ FlowMap.mem_keys_of_edge (all d h)
      obtain ⟨bs, hbs, within⟩ := on d key
      have hfr : fr.getD d [] = bs := getD_of_fetch hbs
      obtain ⟨mid, hmid, ⟨pl', grown⟩, kept, all⟩ := foldlM_marks
        (P := fun u => Placed fr phis₀ v ds u ∧ s.blocks <+: u.blocks)
        (Q := fun b u => v ∈ u.phis.getD b []) (fun b hb u hu => by
          obtain ⟨u', hu', ⟨pl', grown⟩, here, keep⟩ :=
            hu.1.place (hu.2.subset mem) (hfr ▸ hb) (within b hb)
          exact ⟨u', hu', ⟨pl', hu.2.trans grown⟩, here, keep⟩) ⟨pl, prefix_rfl⟩
      have lt : k < s.blocks.length := lt_of_getElem? hd
      have done' : Closed fr v (k + 1) mid := by
        intro j hj d' hd' b hb
        obtain ⟨tl, e⟩ := grown
        rw [← e, getElem?_append_left (by omega)] at hd'
        by_cases hjk : j = k
        · subst hjk
          rw [hd] at hd'
          cases hd'
          exact all b (hfr ▸ hb)
        · exact kept b (done j (by omega) d' hd' b hb)
      have le : k + 1 ≤ mid.blocks.length := Nat.le_trans lt grown.length_le
      obtain ⟨s', hs', pl'', grown', closed⟩ := ih pl' (by omega) le done'
      exact ⟨s', ok_bind hbs (ok_bind hmid hs'), pl'', grown.trans grown', closed⟩

/-- Phis that are closed under frontiers, for the variables with assigning blocks. -/
structure PhisFor (fr : FlowMap) (keys : List String) (defs phis : FlowMap) : Prop where
  keys : phis.keys = keys
  nodup : ∀ b, (phis.getD b []).Nodup
  sound : ∀ v b, v ∈ phis.getD b [] → ∃ d ∈ defs.getD v [], Relation.TransGen fr.Edge d b
  closed : ∀ v d, d ∈ defs.getD v [] ∨ v ∈ phis.getD d [] → ∀ b ∈ fr.getD d [], v ∈ phis.getD b []

lemma PhisFor.add {keys : List String} (on : FrontiersOn fr keys) (sub : ∀ d ∈ ds, d ∈ keys)
    (ph : PhisFor fr keys defs phis) (hv : v ∉ defs.keys) (hfuel : ds.length + keys.length < fuel) :
    ∃ s, placeFrom fr v fuel 0 ⟨phis, ds⟩ = .ok s ∧ PhisFor fr keys (defs.put v ds) s.phis := by
  obtain rfl := ph.keys
  have none : ∀ b, v ∉ phis.getD b [] := by
    intro b hb
    obtain ⟨d, hd, -⟩ := ph.sound v b hb
    exact hv (FlowMap.mem_keys_of_edge hd)
  have start : Placed fr phis v ds ⟨phis, ds⟩ := {
    keys := rfl
    nodup := ph.nodup
    others := fun _ _ _ => .rfl
    sound := fun b hb => absurd hb (none b)
    listed := fun b hb => absurd hb (none b)
    blocks := ⟨[], by simp, nodup_nil, by simp⟩ }
  obtain ⟨s, hs, pl, grown, closed⟩ := start.placeFrom (k := 0) on sub hfuel
    (Nat.zero_le _) (by simp [Closed])
  refine ⟨s, hs, pl.keys, pl.nodup, fun w b hw => ?_, fun w d hd b hb => ?_⟩
  · by_cases hwv : w = v
    · subst hwv
      rw [getD_put_same]
      exact pl.sound b hw
    · rw [getD_put_other hwv]
      exact ph.sound w b ((pl.others b w hwv).mp hw)
  · by_cases hwv : w = v
    · subst hwv
      rw [getD_put_same] at hd
      exact closed d (hd.elim (fun h => grown.subset h) (pl.listed d)) b hb
    · rw [getD_put_other hwv, pl.others d w hwv] at hd
      exact (pl.others b w hwv).mpr (ph.closed w d hd b hb)

/-- Where all frontiers are known and lie within the blocks, the phis of all variables are placed
where they are needed, and each once. -/
theorem exists_placePhis (nd : defs.keys.Nodup) (on : FrontiersOn fr blocks.keys)
    (within : ∀ v, ∀ d ∈ defs.getD v [], d ∈ blocks.keys) :
    ∃ phis, placePhis blocks fr defs = .ok phis ∧ PhisFor fr blocks.keys defs phis := by
  have start : PhisFor fr blocks.keys .empty (blocks.map fun _ => []) := by
    have nothing : ∀ v, (Table.empty : FlowMap).getD v [] = [] := fun _ => rfl
    exact ⟨keys_map, by simp, by simp, by simp [nothing]⟩
  have all : ∀ (es : List (String × List String)) (done ph : FlowMap),
      done.entries ++ es = defs.entries → PhisFor fr blocks.keys done ph →
      ∃ phis, es.foldlM (fun phis e => do
        let s ← Ssa.placeFrom fr e.1 (e.2.length + blocks.size + 1) 0 ⟨phis, e.2⟩
        return s.phis) ph = .ok phis ∧ PhisFor fr blocks.keys defs phis := by
    intro es
    induction es with
    | nil =>
      rintro ⟨done⟩ ph e hph
      obtain rfl : done = defs.entries := by simpa using e
      exact ⟨ph, rfl, hph⟩
    | cons e es ih =>
      intro done ph eq hph
      have hnew : e.1 ∉ done.keys := by
        rw [Table.keys, ← eq, map_append, nodup_append] at nd
        exact fun mem => nd.2.2 e.1 mem e.1 (by simp) rfl
      have get : defs.getD e.1 [] = e.2 := by
        rw [Table.getD, get?_of_mem nd (a := e.2) (by simp [← eq]), Option.getD_some]
      have sub : ∀ d ∈ e.2, d ∈ blocks.keys := get ▸ within e.1
      have room : e.2.length + blocks.keys.length < e.2.length + blocks.size + 1 := by
        simp [Table.size, Table.keys]
      obtain ⟨s, hs, hph'⟩ := hph.add on sub hnew room
      obtain ⟨phis, run, final⟩ := ih _ _ (by simpa [entries_put_of_not_mem hnew] using eq) hph'
      exact ⟨phis, foldlM_cons_eq_ok.mpr ⟨s.phis, ok_bind hs rfl, run⟩, final⟩
  exact all defs.entries .empty _ rfl start

/-- The sets that hold the frontiers of some blocks and of their own members. -/
def frontierClosed (fr : FlowMap) (ds : List String) : Set (Set String) :=
  {S | ∀ d, d ∈ ds ∨ d ∈ S → ∀ b ∈ fr.getD d [], b ∈ S}

/-- The blocks with a phi for a variable are its iterated frontier. -/
lemma PhisFor.isLeast {keys : List String} (ph : PhisFor fr keys defs phis) (v : String) :
    IsLeast (frontierClosed fr (defs.getD v [])) {b | v ∈ phis.getD b []} := by
  refine ⟨fun d hd => ph.closed v d hd, fun S hS b hb => ?_⟩
  obtain ⟨d, hd, path⟩ := ph.sound v b hb
  clear hb
  induction path with
  | single e => exact hS d (.inl hd) _ e
  | tail _ e ih => exact hS _ (.inr ih) _ e

section Blocks

variable {keys : List String} (ph : PhisFor fr keys (definingBlocks blocks) phis)
  (nd : blocks.keys.Nodup)

lemma mem_keys_of_defines (h : d ∈ (definingBlocks blocks).getD v []) : d ∈ blocks.keys := by
  obtain ⟨b, hb, -⟩ := mem_definingBlocks.mp h
  exact mem_keys_of_mem hb

include ph

lemma PhisFor.of_frontier (hb : b ∈ fr.getD d [])
    (h : v ∈ phis.getD d [] ∨ ∃ c, blocks.get? d = some c ∧ c.Defines v) : v ∈ phis.getD b [] := by
  refine ph.closed v d (h.symm.imp_left ?_) b hb
  rintro ⟨c, hc, h⟩
  exact mem_definingBlocks.mpr ⟨c, mem_of_get? hc, h⟩

include nd in
/-- Frontiers lead to a phi from a block that assigns its variable. -/
lemma PhisFor.defined (h : v ∈ phis.getD b []) :
    ∃ d c, blocks.get? d = some c ∧ c.Defines v ∧ Relation.TransGen fr.Edge d b := by
  obtain ⟨d, hd, path⟩ := ph.sound v b h
  obtain ⟨c, hc, assigns⟩ := mem_definingBlocks.mp hd
  exact ⟨d, c, get?_of_mem nd hc, assigns, path⟩

end Blocks

end Ssa

end BrilKit
