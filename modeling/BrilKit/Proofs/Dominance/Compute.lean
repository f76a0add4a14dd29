import BrilKit.Proofs.Dominance.Descent
import BrilKit.Proofs.Dominance.Search

/-!
# The dominators computed

`Dominators.compute` finds exactly the dominators of every node that can be reached from an entry
without predecessors (`compute_spec`): each visit keeps `Bounds` and the sum of the sets' sizes
falls until all are `Solved`. Frontiers and the dominator tree are read off these sets.
-/

namespace BrilKit

open List Outcome Table

variable {α : Type} {sets : List (List α)}

lemma mem_intersectAll [BEq α] [LawfulBEq α] {a : α} :
    a ∈ intersectAll sets ↔ sets ≠ [] ∧ ∀ s ∈ sets, a ∈ s := by
  cases sets with
  | nil => simp [intersectAll]
  | cons s ss => simp [intersectAll, Members.mem_foldl_meet]

lemma nodup_intersectAll [BEq α] (h : ∀ s ∈ sets, s.Nodup) : (intersectAll sets).Nodup := by
  have acc : ∀ (ss : List (List α)) (s : List α), s.Nodup → (ss.foldl Members.meet s).Nodup := by
    intro ss
    induction ss with
    | nil => exact fun _ hs => hs
    | cons t ss ih => exact fun s hs => ih _ (hs.filter _)
  cases sets with
  | nil => exact nodup_nil
  | cons s ss => exact acc ss s (h s (by simp))

namespace Dominators

variable {succ pred dom : FlowMap} {r a b d n : String} {nodes new : List String}

/-- What the equation of a node gives. -/
def admitted (pred dom : FlowMap) (n : String) : List String :=
  Members.add (intersectAll ((pred.getD n []).map fun p => dom.getD p [])) n

lemma mem_admitted : a ∈ admitted pred dom n ↔ Admits (pred.getD · []) (dom.getD · []) n a := by
  simp [admitted, mem_intersectAll, Admits]

lemma nodup_admitted (hd : ∀ n, (dom.getD n []).Nodup) : (admitted pred dom n).Nodup := by
  refine Members.nodup_add (nodup_intersectAll fun s hs => ?_)
  obtain ⟨p, _, rfl⟩ := mem_map.mp hs
  exact hd p

lemma getD_put_eq_update :
    (fun m => (dom.put n new).getD m []) = Function.update (fun m => dom.getD m []) n new := by
  funext m
  by_cases hm : m = n
  · rw [hm, getD_put_same, Function.update_self]
  · rw [getD_put_other hm, Function.update_of_ne hm]

def visitNode (pred : FlowMap) (st : FlowMap × Bool) (node : String) : Outcome (FlowMap × Bool) := do
  let new ← update pred st.1 node
  let old ← st.1.fetch node
  return if Members.same old new then (st.1, st.2) else (st.1.put node new, true)

lemma getD_start (h : n ∈ succ.keys) : (succ.map fun _ => nodes).getD n [] = nodes := by
  obtain ⟨ss, hss⟩ := mem_keys.mp h
  simp [Table.getD, get?_map, hss]

/-- What the sets are between a round and the next. -/
structure Bounds (succ pred : FlowMap) (r : String) (nodes : List String) (dom : FlowMap) : Prop where
  keys : dom.keys = succ.keys
  nodup : ∀ n, (dom.getD n []).Nodup
  descent : Descent succ.Edge r (pred.getD · []) ((succ.map fun _ => nodes).getD · [])
    nodes.toFinset (dom.getD · [])

/-- The set of a node is what its equation lets in. -/
def Solved (pred dom : FlowMap) (n : String) : Prop :=
  ∀ a, a ∈ dom.getD n [] ↔ Admits (pred.getD · []) (dom.getD · []) n a

def total (nodes : List String) (dom : FlowMap) : Nat :=
  ∑ n ∈ nodes.toFinset, (dom.getD n []).toFinset.card

section Rounds

variable (inv : succ.invert = .ok pred) (nd : succ.keys.Nodup) (hr : r ∈ succ.keys)
  (hnodes : ∀ n, n ∈ nodes ↔ Reach succ.Edge r n)

include inv hr in
lemma mem_keys_of_reach (h : Reach succ.Edge r n) : n ∈ succ.keys := by
  cases h with
  | root => exact hr
  | step _ e => exact (FlowMap.invert_eq inv).2.1 _ _ e

include inv nd

lemma update_eq (hk : dom.keys = succ.keys) (hn : n ∈ succ.keys) :
    update pred dom n = .ok (admitted pred dom n) := by
  have known : ∀ p ∈ pred.getD n [], p ∈ dom.keys := fun p hp =>
    hk ▸ FlowMap.mem_keys_of_edge ((FlowMap.mem_invert inv nd).mp hp)
  refine ok_bind (fetch_of_mem [] ?_) (ok_bind (mapM_fetch [] known) rfl)
  rwa [(FlowMap.invert_eq inv).1]

include hr hnodes

/-- An update finds the equation solved, or takes the set down to it. -/
lemma Bounds.visitNode {st : FlowMap × Bool} (bd : Bounds succ pred r nodes st.1) (hn : n ∈ nodes) :
    ∃ st', visitNode pred st n = .ok st' ∧ Bounds succ pred r nodes st'.1 ∧
      (st' = st ∧ Solved pred st.1 n ∨ st'.2 = true ∧ total nodes st'.1 < total nodes st.1) := by
  have key := mem_keys_of_reach inv hr ((hnodes n).mp hn)
  have visited : Dominators.visitNode pred st n = .ok
      (if Members.same (st.1.getD n []) (admitted pred st.1 n) then (st.1, st.2)
        else (st.1.put n (admitted pred st.1 n), true)) :=
    ok_bind (update_eq inv nd bd.keys key) (ok_bind (fetch_of_mem [] (bd.keys ▸ key)) rfl)
  refine ⟨_, visited, ?_⟩
  split
  · next eq =>
    exact ⟨bd, .inl ⟨rfl, fun a => (Members.same_iff.mp eq a).trans mem_admitted⟩⟩
  · next change =>
    have edges : ∀ p n, p ∈ pred.getD n [] ↔ succ.Edge p n := fun _ _ => FlowMap.mem_invert inv nd
    have lost : ∀ p n, succ.Edge p n → ¬ Reach succ.Edge r p → p ∉ nodes.toFinset ∧
        ∀ d, Reach succ.Edge r d → d ∈ (succ.map fun _ => nodes).getD p [] := fun p n e lost => by
      rw [getD_start (FlowMap.mem_keys_of_edge e), mem_toFinset, hnodes]
      exact ⟨lost, fun d => (hnodes d).mpr⟩
    obtain ⟨descent, less⟩ := bd.descent.update edges lost (mem_toFinset.mpr hn)
      (fun a => mem_admitted) (mt Members.same_iff.mpr change)
    rw [← getD_put_eq_update] at descent
    refine ⟨⟨(keys_put_of_mem (bd.keys ▸ key)).trans bd.keys, fun m => ?_, descent⟩, .inr ⟨rfl, ?_⟩⟩
    · rw [congrFun getD_put_eq_update m]
      exact (Function.forall_update_iff (fun m => st.1.getD m []) fun _ s => s.Nodup).mpr
        ⟨nodup_admitted bd.nodup, fun m _ => bd.nodup m⟩ m
    · simpa only [total, ← congrFun getD_put_eq_update] using less

lemma Bounds.settle {fuel : Nat} (bd : Bounds succ pred r nodes dom)
    (enough : total nodes dom < fuel) :
    ∃ dom', settle pred nodes fuel dom = .ok dom' ∧ Bounds succ pred r nodes dom' ∧
      ∀ n ∈ nodes, Solved pred dom' n := by
  induction fuel generalizing dom with
  | zero => omega
  | succ fuel ih =>
    obtain ⟨⟨mid, changed⟩, hround, bd', same | ⟨flag, less⟩⟩ := foldlM_round (s := (dom, false))
      (μ := total nodes) (fun n hn st bd => bd.visitNode inv nd hr hnodes hn) bd
    · obtain ⟨e, all⟩ := same
      cases e
      exact ⟨dom, ok_bind hround rfl, bd, all⟩
    · obtain rfl : changed = true := flag
      have lower : total nodes mid < total nodes dom := less
      have bd' : Bounds succ pred r nodes mid := bd'
      obtain ⟨dom', hdom', rest⟩ := ih bd' (by omega)
      exact ⟨dom', ok_bind hround hdom', rest⟩

/-- From the full sets the rounds come to an end. -/
lemma exists_settle (ndn : nodes.Nodup) :
    ∃ dom, settle pred nodes (nodes.length * nodes.length + 2) (succ.map fun _ => nodes) = .ok dom ∧
      Bounds succ pred r nodes dom ∧ ∀ n ∈ nodes, Solved pred dom n := by
  have full : ∀ n, Reach succ.Edge r n → (succ.map fun _ => nodes).getD n [] = nodes := fun n hn =>
    getD_start (mem_keys_of_reach inv hr hn)
  refine Bounds.settle inv nd hr hnodes ⟨keys_map, fun n => ?_, fun _ _ => rfl, fun n d hd => ?_,
    fun n hn a ha => ?_⟩ ?_
  · by_cases hn : n ∈ succ.keys
    · rwa [getD_start hn]
    · simp [Table.getD, get?_map, get?_eq_none.mpr hn]
  · rw [full n hd.1]
    exact (hnodes d).mpr hd.reach
  · rw [mem_toFinset] at hn
    rw [full n ((hnodes n).mp hn)]
    obtain ⟨some, all⟩ | rfl := ha
    · obtain ⟨p, hp⟩ := exists_mem_of_ne_nil _ some
      have key := FlowMap.mem_keys_of_edge ((FlowMap.mem_invert inv nd).mp hp)
      have start : (succ.map fun _ => nodes).getD p [] = nodes := getD_start key
      exact start ▸ all p hp
    · exact hn
  · have card := toFinset_card_le nodes
    have sum := Finset.sum_le_card_nsmul nodes.toFinset
      (fun n => ((succ.map fun _ => nodes).getD n []).toFinset.card) nodes.length
      (fun n hn => by rwa [full n ((hnodes n).mp (mem_toFinset.mp hn))])
    have product := Nat.mul_le_mul_right nodes.length card
    exact Nat.lt_of_le_of_lt (sum.trans product) (by omega)

end Rounds

lemma exists_compute (nd : succ.keys.Nodup) (closed : succ.Closed) (hr : r ∈ succ.keys) :
    ∃ dom pred nodes, compute succ r = .ok dom ∧ succ.invert = .ok pred ∧
      Bounds succ pred r nodes dom ∧ (∀ n ∈ nodes, Solved pred dom n) ∧
      ∀ n, n ∈ nodes ↔ Reach succ.Edge r n := by
  obtain ⟨pred, inv⟩ := FlowMap.exists_invert nd closed
  obtain ⟨out, hout, ndout, hmem⟩ := FlowMap.exists_postorder closed hr
  have hnodes : ∀ n, n ∈ out.reverse ↔ Reach succ.Edge r n := by simpa using hmem
  obtain ⟨dom, run, bd, solved⟩ := exists_settle inv nd hr hnodes (nodup_reverse.mpr ndout)
  exact ⟨dom, pred, out.reverse, ok_bind inv (ok_bind hout run), inv, bd, solved, hnodes⟩

lemma compute_solved (nd : succ.keys.Nodup) (h : compute succ r = .ok dom) :
    ∃ pred nodes, succ.invert = .ok pred ∧ Bounds succ pred r nodes dom ∧
      (∀ n ∈ nodes, Solved pred dom n) ∧ r ∈ succ.keys ∧ ∀ n, n ∈ nodes ↔ Reach succ.Edge r n := by
  obtain ⟨pred, inv, run⟩ := of_bind h
  obtain ⟨out, hout, _⟩ := of_bind run
  have hr : r ∈ succ.keys := by
    obtain ⟨st, hv, _⟩ := of_bind hout
    rw [FlowMap.visit] at hv
    obtain ⟨ss, hss, _⟩ := of_bind hv
    exact mem_keys.mpr ⟨ss, fetch_eq_ok.mp hss⟩
  obtain ⟨dom', pred, nodes, run, inv, bd, solved, hnodes⟩ :=
    exists_compute nd (FlowMap.invert_eq inv).2.1 hr
  obtain rfl := Except.ok.inj (run.symm.trans h)
  exact ⟨pred, nodes, inv, bd, solved, hr, hnodes⟩

/-- Sets that hold the dominators of every node; for a node that cannot be reached, all that can. -/
structure Computed (succ : FlowMap) (r : String) (dom : FlowMap) : Prop where
  keys : dom.keys = succ.keys
  exact : ∀ n, Reach succ.Edge r n → ∀ d, d ∈ dom.getD n [] ↔ Dominates succ.Edge r d n
  others : ∀ n ∈ succ.keys, ¬ Reach succ.Edge r n → ∀ d, d ∈ dom.getD n [] ↔ Reach succ.Edge r d
  nodup : ∀ n, (dom.getD n []).Nodup
  nodes : ∀ n, Reach succ.Edge r n → n ∈ succ.keys

/-- The dominators computed are the dominators, if nothing leads to the entry. -/
theorem compute_spec (nd : succ.keys.Nodup) (root : ∀ a, ¬ succ.Edge a r)
    (h : compute succ r = .ok dom) : Computed succ r dom := by
  obtain ⟨pred, nodes, inv, bd, solved, hr, hnodes⟩ := compute_solved nd h
  have edges : ∀ p n, p ∈ pred.getD n [] ↔ succ.Edge p n := fun _ _ => FlowMap.mem_invert inv nd
  exact {
    keys := bd.keys
    exact := fun n hn d => by
      refine bd.descent.exact edges (fun n hn => .inr (mem_toFinset.mpr ((hnodes n).mpr hn)))
        (fun d hd => ?_) (fun n hn => solved n (mem_toFinset.mp hn)) hn
      obtain ⟨some, _⟩ | eq := (solved r ((hnodes r).mpr .root) d).mp hd
      · obtain ⟨p, hp⟩ := exists_mem_of_ne_nil _ some
        exact absurd ((edges p r).mp hp) (root p)
      · exact eq
    others := fun n hk hn d => by
      rw [bd.descent.fixed n fun mem => hn ((hnodes n).mp (mem_toFinset.mp mem)), getD_start hk]
      exact hnodes d
    nodup := bd.nodup
    nodes := fun n => mem_keys_of_reach inv hr }

variable {fr tr : FlowMap}

def frontierOf (inv succ : FlowMap) (d : String) : List String :=
  (Members.unionAll ((inv.getD d []).map fun p => succ.getD p [])).filter
    fun b => !(inv.getD d []).contains b || b == d

lemma frontiers_eq {inv : FlowMap} (nd : dom.keys.Nodup) (keys : dom.keys = succ.keys)
    (h : dom.invert = .ok inv) :
    frontiers dom succ = .ok ⟨dom.keys.map fun d => (d, frontierOf inv succ d)⟩ := by
  refine ok_bind h (ok_bind (mapM_ok fun d hd => ?_) rfl)
  have known : ∀ p ∈ inv.getD d [], p ∈ succ.keys := fun p hp =>
    keys ▸ FlowMap.mem_keys_of_edge ((FlowMap.mem_invert h nd).mp hp)
  exact ok_bind (fetch_of_mem [] ((FlowMap.invert_eq h).1 ▸ hd)) (ok_bind (mapM_fetch [] known) rfl)

/-- The frontier of a node has, each once, successors of nodes that it dominates. -/
lemma frontiers_spec (nd : dom.keys.Nodup) (keys : dom.keys = succ.keys)
    (h : frontiers dom succ = .ok fr) : fr.keys = dom.keys ∧ ∀ d, (fr.getD d []).Nodup ∧
      ∀ b, b ∈ fr.getD d [] ↔
        (∃ p, d ∈ dom.getD p [] ∧ succ.Edge p b) ∧ (d ∉ dom.getD b [] ∨ b = d) := by
  obtain ⟨inv, hinv, -⟩ := of_bind h
  obtain rfl := Except.ok.inj ((frontiers_eq nd keys hinv).symm.trans h)
  have mem : ∀ {d p}, p ∈ inv.getD d [] ↔ d ∈ dom.getD p [] := FlowMap.mem_invert hinv nd
  refine ⟨keys_map_keys, fun d => ?_⟩
  by_cases hd : d ∈ dom.keys
  · rw [getD_map_keys hd]
    refine ⟨(Members.nodup_unionAll).filter _, fun b => ?_⟩
    simp [frontierOf, mem, FlowMap.Edge]
  · rw [Table.getD, get?_eq_none.mpr (by rwa [keys_map_keys])]
    refine ⟨nodup_nil, fun b => ⟨by simp, fun e => absurd ?_ hd⟩⟩
    obtain ⟨⟨p, hp, _⟩, _⟩ := e
    exact (FlowMap.invert_eq hinv).2.1 p d hp

/-- The children of a node are what it strictly dominates with nothing in between. -/
structure Children (succ dom tr : FlowMap) : Prop where
  keys : tr.keys = succ.keys
  nodup : ∀ a, (tr.getD a []).Nodup
  mem : ∀ a b, b ∈ tr.getD a [] ↔ (a ∈ dom.getD b [] ∧ b ≠ a) ∧
    ∀ c, a ∈ dom.getD c [] → c ≠ a → c ∈ dom.getD b [] → b = c

namespace Computed

lemma reach (cp : Computed succ r dom) (h : d ∈ dom.getD n []) : Reach succ.Edge r d := by
  by_cases hn : Reach succ.Edge r n
  · exact ((cp.exact n hn d).mp h).reach
  · refine (cp.others n ?_ hn d).mp h
    rw [← cp.keys]
    exact FlowMap.mem_keys_of_edge h

lemma closed (cp : Computed succ r dom) : dom.Closed := by
  intro a d h
  rw [cp.keys]
  exact cp.nodes d (cp.reach h)

lemma mem_frontiers (cp : Computed succ r dom) (nd : succ.keys.Nodup)
    (h : frontiers dom succ = .ok fr) :
    b ∈ fr.getD d [] ↔
      (∃ p, d ∈ dom.getD p [] ∧ succ.Edge p b) ∧ (d ∉ dom.getD b [] ∨ b = d) :=
  ((frontiers_spec (cp.keys ▸ nd) cp.keys h).2 d).2 b

lemma exists_strict (cp : Computed succ r dom) (nd : succ.keys.Nodup) :
    ∃ st, strict dom = .ok st ∧ st.keys = succ.keys ∧
      ∀ a, (st.getD a []).Nodup ∧ ∀ b, b ∈ st.getD a [] ↔ a ∈ dom.getD b [] ∧ b ≠ a := by
  have ndd : dom.keys.Nodup := cp.keys ▸ nd
  obtain ⟨inv, hinv⟩ := FlowMap.exists_invert ndd cp.closed
  have hget : ∀ a, (⟨inv.entries.map fun e => (e.1, e.2.filter fun b => b != e.1)⟩ :
      FlowMap).getD a [] = (inv.getD a []).filter fun b => b != a := fun a =>
    getD_mapEntries (g := fun a (bs : List String) => bs.filter fun b => b != a) rfl
  refine ⟨_, ok_bind hinv rfl, ?_, fun a => ⟨?_, fun b => ?_⟩⟩
  · rw [← cp.keys, ← (FlowMap.invert_eq hinv).1]
    simp [Table.keys]
  · rw [hget]
    exact (FlowMap.nodup_invert hinv ndd cp.nodup).filter _
  · rw [hget, mem_filter, FlowMap.mem_invert hinv ndd]
    simp [FlowMap.Edge]

lemma exists_tree (cp : Computed succ r dom) (nd : succ.keys.Nodup) :
    ∃ tr, tree dom = .ok tr ∧ Children succ dom tr := by
  obtain ⟨st, hst, keys, strict⟩ := cp.exists_strict nd
  have known : ∀ e ∈ st.entries, ∀ b ∈ e.2, b ∈ st.keys := by
    intro e he b hb
    have get : st.getD e.1 [] = e.2 := by
      rw [Table.getD, get?_of_mem (keys ▸ nd) he, Option.getD_some]
    rw [← get, (strict e.1).2] at hb
    rw [keys, ← cp.keys]
    exact FlowMap.mem_keys_of_edge hb.1
  have run : tree dom = .ok ⟨st.entries.map fun e => (e.1, e.2.filter fun b =>
      !(Members.unionAll (e.2.map fun c => st.getD c [])).contains b)⟩ :=
    ok_bind hst (ok_bind (mapM_ok fun e he => ok_bind (mapM_fetch [] (known e he)) rfl) rfl)
  have get : ∀ a, (⟨st.entries.map fun e => (e.1, e.2.filter fun b =>
      !(Members.unionAll (e.2.map fun c => st.getD c [])).contains b)⟩ : FlowMap).getD a [] =
      (st.getD a []).filter fun b =>
        !(Members.unionAll ((st.getD a []).map fun c => st.getD c [])).contains b := fun a =>
    getD_mapEntries (g := fun _ (bs : List String) => bs.filter fun b =>
      !(Members.unionAll (bs.map fun c => st.getD c [])).contains b) rfl
  refine ⟨_, run, ?_, fun a => ?_, fun a b => ?_⟩
  · rw [← keys]
    simp [Table.keys]
  · rw [get]
    exact (strict a).1.filter _
  rw [get, mem_filter]
  simp only [Bool.not_eq_eq_eq_not, Bool.not_true, contains_eq_mem, decide_eq_false_iff_not,
    Members.mem_unionAll, mem_map, exists_exists_and_eq_and, not_exists, not_and,
    (strict _).2]
  refine and_congr_right fun _ => ?_
  constructor
  · intro hb c hc hca hcb
    by_contra hne
    exact hb c ⟨hc, hca⟩ hcb hne
  · intro hb c hc hcb hne
    exact hne (hb c hc.1 hc.2 hcb)

lemma tree_spec (cp : Computed succ r dom) (nd : succ.keys.Nodup) (h : tree dom = .ok tr) :
    Children succ dom tr := by
  obtain ⟨tr', run, spec⟩ := cp.exists_tree nd
  exact Except.ok.inj (run.symm.trans h) ▸ spec

section Tree

variable (cp : Computed succ r dom) (nd : succ.keys.Nodup) (h : tree dom = .ok tr)
include cp nd h

lemma reach_of_child (hb : b ∈ tr.getD a []) : Reach succ.Edge r a :=
  cp.reach (((cp.tree_spec nd h).mem _ b).mp hb).1.1

lemma parent_spec (hr : Reach succ.Edge r b) (hb : b ∈ tr.getD a []) :
    Dominates succ.Edge r a b ∧ b ≠ a ∧
      ∀ x, Dominates succ.Edge r x b → x ≠ b → Dominates succ.Edge r x a := by
  obtain ⟨⟨hab, hne⟩, hmid⟩ := ((cp.tree_spec nd h).mem _ b).mp hb
  rw [cp.exact b hr] at hab
  refine ⟨hab, hne, fun x hx hxb => ?_⟩
  obtain hxa | hax := hx.total hab
  · exact hxa
  · by_cases hxa : x = a
    · rw [hxa]
      exact .refl hab.reach
    · exact absurd (hmid x ((cp.exact x hx.reach a).mpr hax) hxa ((cp.exact b hr x).mpr hx)).symm hxb

lemma exists_child (hab : Dominates succ.Edge r a b) (hne : a ≠ b) :
    ∃ c ∈ tr.getD a [], Dominates succ.Edge r c b := by
  have hr := hab.1
  -- The nodes strictly between, with `b` itself.
  obtain ⟨c, hc, hout⟩ := exists_outermost (E := succ.Edge) (r := r) (n := b)
    (l := (dom.getD b []).filter fun x => decide (x ≠ a ∧ a ∈ dom.getD x []))
    (fun x hx => (cp.exact b hr x).mp (mem_of_mem_filter hx))
    (ne_nil_of_mem (a := b) (by
      simpa [cp.exact b hr, hne.symm, hab] using Dominates.refl hr))
  obtain ⟨hcb, hca⟩ := mem_filter.mp hc
  obtain ⟨hca, hac⟩ := by simpa using hca
  have hcb' := (cp.exact b hr c).mp hcb
  refine ⟨c, ((cp.tree_spec nd h).mem _ c).mpr ⟨⟨hac, hca⟩, fun x hax hxa hxc => ?_⟩, hcb'⟩
  have hxc' := (cp.exact c hcb'.reach x).mp hxc
  have hxb := hxc'.trans hcb'
  have hcx := hout x (mem_filter.mpr ⟨(cp.exact b hr x).mpr hxb, by simp [hxa, hax]⟩)
  exact hcx.antisymm hxc'

lemma child_unique {c c' : String} (hc : c ∈ tr.getD a []) (hc' : c' ∈ tr.getD a [])
    (hb : Dominates succ.Edge r c b) (hb' : Dominates succ.Edge r c' b) : c = c' := by
  obtain ⟨⟨hac, hne⟩, hmid⟩ := ((cp.tree_spec nd h).mem _ c).mp hc
  obtain ⟨⟨hac', hne'⟩, hmid'⟩ := ((cp.tree_spec nd h).mem _ c').mp hc'
  obtain hcc | hcc := hb.total hb'
  · exact (hmid' c hac hne ((cp.exact c' hb'.reach c).mpr hcc)).symm
  · exact hmid c' hac' hne' ((cp.exact c hb.reach c').mpr hcc)

end Tree

end Computed

end Dominators

end BrilKit
