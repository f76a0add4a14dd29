import BrilKit.Proofs.Memory.Alias
import BrilKit.Proofs.Run.Speculation

/-!
# Pointers along runs

Which regions the variables of a running function point into, and where the regions were allocated.
`Does` is what an instruction inside a block does to them, and `Runs` the runs through the blocks,
with the aborts of speculation. `Analysed.seen` says, by induction on a run that does not speculate,
that every pointer is known where control comes to. Main statement, `aliases_sound`: in every such
run, the map of all places tells where the region of a pointer comes from.
-/

namespace BrilKit

open List Outcome Table

namespace Memory

open FlowGraph Machine

variable {f : Func} {g : FlowGraph} {t u map : PointsTo} {start tables : List PointsTo}
  {s : AliasState} {i : Instr} {n : Node} {k j q r : Nat} {a x y d : String} {held : Env Nat}
  {born : Nat → Option (Nat × Nat)}

/-- The result of an instruction can be a pointer into a region, from the regions that the variables
point into. The type of the result of a call is checked when it returns. -/
inductive Gives (held : Env Nat) (i : Instr) (r : Nat) : Prop where
  | copy {x : String} : Copies i x → held x = some r → Gives held i r
  | load : i.op = some "load" → Gives held i r
  | call : i.op = some "call" → Declared i → Gives held i r

/-- The pointers of a running function: the regions that variables point into, where the regions of
this activation were allocated, and what an abort restores, the innermost first. -/
structure Pointers where
  held : Env Nat
  born : Nat → Option (Nat × Nat)
  saved : List (Env Nat)

/-- What an instruction at a place does to pointers, if control goes on behind it. Memory and other
functions can yield any pointer, and only instructions with a property yield one without
allocating. -/
inductive Does (P : Instr → Prop) (place : Nat × Nat) (i : Instr) (h : Pointers) :
    Pointers → Prop where
  | alloc {r : Nat} {d : String} :
    i.op = some "alloc" → i.dest = some d → (∀ e ∈ h.held :: h.saved, ∀ x, e x ≠ some r) →
    Does P place i h
      { h with held := h.held.set d (some r), born := Function.update h.born r (some place) }
  | give {d : String} {v : Option Nat} :
    i.dest = some d → (∀ r, v = some r → Gives h.held i r ∧ P i) →
    Does P place i h { h with held := h.held.set d v }
  | pass : i.dest = none → i.isTerminator = false → i.op ∉ [some "speculate", some "commit"] →
    Does P place i h h
  | speculate : i.op = some "speculate" → Does P place i h { h with saved := h.held :: h.saved }
  | commit : i.op = some "commit" → Does P place i h { h with saved := [] }

/-- The runs of a function through the blocks of its graph, as far as pointers go: the position and
the pointers there. Branches can be taken either way, and guards hold or abort. -/
inductive Runs (f : Func) (g : FlowGraph) (P : Instr → Prop) : Nat → Nat → Pointers → Prop where
  | start {held : Env Nat} :
    (∀ x r, held x = some r → ∃ p ∈ f.params, p.name = some x ∧ p.type.any Ty.isRecord = true) →
    Runs f g P 0 0 ⟨held, fun _ => none, []⟩
  | next {k j : Nat} {n : Node} {i : Instr} {h h' : Pointers} :
    Runs f g P k j h → g[k]? = some n → n.block[j]? = some i → Does P (k, j) i h h' →
    Runs f g P k (j + 1) h'
  | fall {k : Nat} {n : Node} {h : Pointers} :
    Runs f g P k n.block.length h → g[k]? = some n →
    (∀ i ∈ n.block, i.isTerminator = false) → k + 1 < g.length →
    Runs f g P (k + 1) 0 h
  | jump {k j q : Nat} {n m : Node} {i : Instr} {l : String} {h : Pointers} :
    Runs f g P k j h → g[k]? = some n → n.block[j]? = some i →
    i.Branches → l ∈ i.labels.getD [] → g[q]? = some m → m.label = some l →
    Runs f g P q 0 h
  | abort {k j q : Nat} {n m : Node} {i : Instr} {l : String} {h : Pointers} {held : Env Nat}
      {outer : List (Env Nat)} :
    Runs f g P k j h → g[k]? = some n → n.block[j]? = some i →
    i.op = some "guard" → h.saved = held :: outer →
    (i.labels.getD []).head? = some l → g[q]? = some m → m.label = some l →
    Runs f g P q 0 { h with held := held, saved := outer }

/-- The copies and loads that yield pointers declare it. -/
def Honest (i : Instr) : Prop := i.op ∈ [some "id", some "load", some "phi"] → Declared i

/-- A place that a region can come from: anywhere, or the place where it was allocated. -/
def Names (born : Nat → Option (Nat × Nat)) (r : Nat) (a : String) : Prop :=
  a = anywhere ∨ ∃ b i, born r = some (b, i) ∧ a = allocation b i

/-- The analysis does not pass over an instruction that gives a pointer. -/
lemma Gives.assigned {o : Option PointsTo} (gives : Gives held i r) (honest : Honest i)
    (hd : i.dest = some d) (h : aliasStep k t i j = .ok o) :
    ∃ places, Assigned k j t i places (o.getD t) := by
  obtain as | ⟨-, -, no, untyped⟩ := aliasStep_spec h
  · exact as
  have undeclared : i.op ∈ [some "load", some "id", some "phi", some "call"] → ¬ Declared i :=
    fun h => (untyped h).resolve_right (by simp [hd])
  exfalso
  cases gives with
  | copy copies _ =>
    obtain ⟨ho | ho, -⟩ | ⟨ho, -⟩ := copies
    · exact undeclared (by simp [ho]) (honest (by simp [ho]))
    · exact no ho
    · exact undeclared (by simp [ho]) (honest (by simp [ho]))
  | load ho => exact undeclared (by simp [ho]) (honest (by simp [ho]))
  | call ho declared => exact undeclared (by simp [ho]) declared

section Params

lemma paramPlaces_spec (h : paramPlaces f = .ok start) :
    (∀ c ∈ start, c.keys.Nodup ∧ ∀ y, view c y ≠ ⊥ → y ∈ f.params.filterMap Param.name) ∧
      ∀ p ∈ f.params, ∀ x, p.name = some x → p.type.any Ty.isRecord = true →
        ∃ c ∈ start, anywhere ∈ c.getD x [] := by
  unfold paramPlaces at h
  split at h
  · next none =>
    cases h
    simp [none]
  · obtain ⟨t, ht, h⟩ := bind_eq_ok.mp h
    cases h
    have known := foldlM_invariant (fun t : PointsTo =>
      t.keys.Nodup ∧ ∀ y, view t y ≠ ⊥ → y ∈ f.params.filterMap Param.name)
      (fun p hp t u ih h => by
        obtain ⟨ty, hty, h⟩ := bind_eq_ok.mp h
        split at h
        · obtain ⟨x, hx, h⟩ := bind_eq_ok.mp h
          cases h
          refine ⟨nodup_put ih.1, fun y hy => ?_⟩
          rw [view_put] at hy
          split at hy
          · next e => exact mem_filterMap.mpr ⟨p, hp, e ▸ ofOption_eq_ok.mp hx⟩
          · exact ih.2 y hy
        · cases h
          exact ih) ht ⟨by simp, fun y hy => absurd rfl hy⟩
    obtain ⟨-, set⟩ := foldlM_marked
      (Q := fun (p : Param) (t : PointsTo) => ∀ x, p.name = some x → p.type.any Ty.isRecord = true →
        anywhere ∈ t.getD x []) (fun p t u h => by
        obtain ⟨ty, hty, h⟩ := bind_eq_ok.mp h
        rw [Param.getType, ofOption_eq_ok] at hty
        split at h
        · obtain ⟨x, hx, h⟩ := bind_eq_ok.mp h
          cases h
          rw [Param.getName, ofOption_eq_ok] at hx
          refine ⟨fun y hy _ => ?_, fun p' hp' y hy ht => ?_⟩
          · obtain rfl := Option.some.inj (hx.symm.trans hy)
            simp [getD_put_same]
          · by_cases e : y = x
            · simp [e, getD_put_same]
            · rw [getD_put_other e]
              exact hp' y hy ht
        · next no =>
          cases h
          exact ⟨fun y _ hr => absurd (by simpa [hty] using hr) no, fun _ => id⟩) ht
    exact ⟨by simpa using known, fun p hp x hx hr => ⟨t, by simp, set p hp x hx hr⟩⟩

end Params

/-- A function whose analysis has come to its end. -/
structure Analysed (f : Func) (g : FlowGraph) (map : PointsTo) (start : List PointsTo)
    (s : AliasState) : Prop where
  charted : Charted g
  flows : Flows g start [] [] s
  ended : s.pending = []
  combined : combine s.outs = .ok map
  params : paramPlaces f = .ok start
  once : ∀ n ∈ g, (f.params.filterMap Param.name ++ n.block.filterMap Instr.dest).Nodup
  quiet : ∀ n ∈ g, Unspeculative n.block

/-- Every pointer that a variable holds is known in a table, and the map tells its place. -/
def Sees (map t : PointsTo) (held : Env Nat) (born : Nat → Option (Nat × Nat)) : Prop :=
  ∀ x r, held x = some r → view t x ≠ ⊥ ∧ ∃ a, Names born r a ∧ a ∈ map.getD x []

/-- The state of a run at a place of a block. -/
structure SeenAt (g : FlowGraph) (map : PointsTo) (s : AliasState) (k j : Nat) (held : Env Nat)
    (born : Nat → Option (Nat × Nat)) (n : Node) (tables : List PointsTo) (t u : PointsTo) :
    Prop where
  live : g.Live k
  visited : Visited g [] s k n tables t
  behind : aliasBlock k (n.block.take j) (joinAll tables) = .ok u
  sees : Sees map u held born

/-- One item further in a block. -/
lemma SeenAt.next (at_ : SeenAt g map s k j held born n tables t u) (hi : n.block[j]? = some i) :
    ∃ r, aliasStep k u i j = .ok r ∧
      aliasBlock k (n.block.take (j + 1)) (joinAll tables) = .ok (r.getD u) := by
  have through := at_.visited.through
  rw [← take_append_drop (j + 1) n.block] at through
  obtain ⟨v, hv, -⟩ := aliasBlock_append through
  have hlt := (List.getElem?_eq_some_iff.mp hi).1
  have split : n.block.take (j + 1) = n.block.take j ++ [i] := by
    rw [take_add_one, hi]
    rfl
  rw [split] at hv ⊢
  obtain ⟨w, r, hw, hr, rfl⟩ := aliasBlock_concat.mp hv
  obtain rfl := Except.ok.inj (at_.behind.symm.trans hw)
  rw [length_take_of_le hlt.le] at hr
  exact ⟨r, hr, hv⟩

section Sound

variable (an : Analysed f g map start s)
include an

lemma Analysed.nodup (vs : Visited g [] s k n tables t) : ∀ c ∈ tables, c.keys.Nodup := by
  intro c hc
  obtain ⟨i, hi⟩ := mem_iff_getElem?.mp hc
  exact (an.flows.cells k i c n (by rw [cell_of_getElem? vs.arrived, hi]) vs.node).1

/-- At every place of a block, a table says of a variable what the map says, or does not know it. -/
lemma Analysed.agrees (vs : Visited g [] s k n tables t)
    (h : aliasBlock k (n.block.take j) (joinAll tables) = .ok u) :
    view u y = ⊥ ∨ view u y = view map y := by
  have once := an.once n (mem_of_getElem? vs.node)
  by_cases hy : ∃ i ∈ n.block.drop j, i.dest = some y
  · -- The variable is assigned further on, so what is known of it has come in.
    obtain ⟨i, hi, hd⟩ := hy
    rw [← take_append_drop j n.block, filterMap_append, ← append_assoc,
      nodup_append] at once
    have fresh : y ∉ f.params.filterMap Param.name ++ (n.block.take j).filterMap Instr.dest :=
      fun hy => once.2.2 y hy y (mem_filterMap.mpr ⟨i, hi, hd⟩) rfl
    rw [mem_append, not_or] at fresh
    obtain ⟨v, hv, -, same⟩ := aliasBlock_append (b := []) h
    obtain rfl : joinAll tables = v := foldlM_nil_eq_ok.mp hv
    rw [same y fun i hi hd => fresh.2 (mem_filterMap.mpr ⟨i, hi, hd⟩)]
    refine (view_joinAll (an.nodup vs)).2 _ fun c hc => ?_
    obtain ⟨i, hi⟩ := mem_iff_getElem?.mp hc
    obtain ⟨-, origin, left⟩ := an.flows.cells k i c n
      (by rw [cell_of_getElem? vs.arrived, hi]) vs.node
    obtain rfl | hc | ⟨p, hp⟩ := origin
    · exact .inl rfl
    · by_contra no
      exact fresh.1 (((paramPlaces_spec an.params).1 c hc).2 y fun e => no (.inl e))
    · rw [(left p hp).resolve_left (by simp)]
      exact getD_outs an.combined p
  · have through := vs.through
    rw [← take_append_drop j n.block] at through
    obtain ⟨u', hu', -, same⟩ := aliasBlock_append through
    obtain rfl := Except.ok.inj (h.symm.trans hu')
    rw [← same y fun i hi hd => hy ⟨i, hi, hd⟩, vs.left]
    exact getD_outs an.combined k

lemma Analysed.mem_map (vs : Visited g [] s k n tables t)
    (h : aliasBlock k (n.block.take j) (joinAll tables) = .ok u) (ha : a ∈ u.getD x []) :
    view u x ≠ ⊥ ∧ a ∈ map.getD x [] := by
  rw [mem_getD] at ha
  have known : view u x ≠ ⊥ := fun e => by simp [e] at ha
  refine ⟨known, ?_⟩
  rwa [mem_getD, ← (an.agrees vs h).resolve_left known]

/-- Pointers stay known where control passes from a block to another one. -/
lemma Analysed.cross (at_ : SeenAt g map s k j held born n tables t u) (e : g.Edge k q) :
    ∃ n tables t u, SeenAt g map s q 0 held born n tables t u := by
  have live := at_.live.step e
  obtain ⟨m, tables', t', vs⟩ := an.flows.visited an.ended live
  refine ⟨m, tables', t', _, live, vs, rfl, fun x r hx => ?_⟩
  obtain ⟨known, named⟩ := at_.sees x r hx
  refine ⟨fun none => ?_, named⟩
  have through := at_.visited.through
  rw [← take_append_drop j n.block] at through
  obtain ⟨u', hu', more, -⟩ := aliasBlock_append through
  obtain rfl := Except.ok.inj (at_.behind.symm.trans hu')
  obtain ⟨n', hn', hq⟩ := e
  obtain rfl := Option.some.inj (at_.visited.node.symm.trans hn')
  obtain ⟨-, m', i, hm', hi⟩ := (at_.visited.edges q hq).resolve_left (by simp)
  obtain rfl := Option.some.inj (vs.node.symm.trans hm')
  obtain ⟨tables₁, arrived, len, -⟩ := an.flows.tables q m vs.node
  obtain rfl := Option.some.inj (vs.arrived.symm.trans arrived)
  have hlt : i < tables'.length :=
    (List.getElem?_eq_some_iff.mp (getElem?_of_idxOf? hi)).1.trans_le len
  have hc : cell s.ins q i = some (tables'.get ⟨i, hlt⟩) := by
    rw [cell_of_getElem? vs.arrived, getElem?_eq_getElem hlt]
    rfl
  have left := ((an.flows.cells q i _ m hc vs.node).2.2 k hi).resolve_left (by simp)
  have le := (view_joinAll (an.nodup vs) (x := x)).1 _ (get_mem tables' ⟨i, hlt⟩)
  rw [left, ← at_.visited.left, none, le_bot_iff] at le
  exact more x known le

/-- An instruction that gives its result a pointer, or another value. -/
lemma Analysed.assigns {born' : Nat → Option (Nat × Nat)} {v : Option Nat}
    (at_ : SeenAt g map s k j held born n tables t u) (hi : n.block[j]? = some i)
    (hd : i.dest = some d) (old : ∀ x r a, held x = some r → Names born r a → Names born' r a)
    (new : ∀ r o, v = some r → aliasStep k u i j = .ok o → ∃ places a,
      Assigned k j u i places (o.getD u) ∧ Names born' r a ∧ (a ∈ places ∨ a ∈ map.getD d [])) :
    ∃ u, SeenAt g map s k (j + 1) (held.set d v) born' n tables t u := by
  obtain ⟨o, ho, behind⟩ := at_.next hi
  refine ⟨_, at_.live, at_.visited, behind, fun x r hx => ?_⟩
  by_cases e : x = d
  · subst e
    rw [Env.set_same] at hx
    obtain ⟨places, a, as, named, ha⟩ := new r o hx ho
    have here : view (o.getD u) x = ↑{a | a ∈ places} := by
      rw [as.sets.view, view_setPlaces, if_pos hd]
    obtain ha | ha := ha
    · obtain ⟨known, ha⟩ := an.mem_map (a := a) (x := x) at_.visited behind (by
        rw [mem_getD, here]
        simpa using ha)
      exact ⟨known, a, named, ha⟩
    · exact ⟨here ▸ WithBot.coe_ne_bot, a, named, ha⟩
  · rw [Env.set_other e] at hx
    obtain ⟨known, a, named, ha⟩ := at_.sees x r hx
    exact ⟨aliasStep_known ho known, a, old x r a hx named, ha⟩

/-- One step inside a block. -/
lemma Analysed.does {h h' : Pointers} (at_ : SeenAt g map s k j h.held h.born n tables t u)
    (hi : n.block[j]? = some i) (does : Does Honest (k, j) i h h') :
    ∃ u, SeenAt g map s k (j + 1) h'.held h'.born n tables t u := by
  have quiet := an.quiet n (mem_of_getElem? at_.visited.node) i (mem_of_getElem? hi)
  cases does with
  | @alloc r d ho hd fresh =>
    refine an.assigns at_ hi hd (fun x r' a hx => ?_) fun r' o hr hstep => ?_
    · have ne : r' ≠ r := fun e => fresh _ mem_cons_self x (e ▸ hx)
      simpa only [Names, Function.update_of_ne ne] using id
    · obtain rfl := Option.some.inj hr
      obtain ⟨places, as⟩ | ⟨-, no, -⟩ := aliasStep_spec hstep
      · exact ⟨places, allocation k j, as, .inr ⟨k, j, Function.update_self .., rfl⟩,
          .inl (as.alloc ho)⟩
      · exact absurd ho no
  | @give d v hd gives =>
    refine an.assigns at_ hi hd (fun x r' a _ => id) fun r o hr hstep => ?_
    obtain ⟨gives, honest⟩ := gives r hr
    obtain ⟨places, as⟩ := gives.assigned honest hd hstep
    cases gives with
    | @copy x copies hx =>
      obtain ⟨known, a, named, ha⟩ := at_.sees x r hx
      refine ⟨places, a, as, named, ?_⟩
      by_cases e : i.dest = some x
      · rw [hd] at e
        cases e
        exact .inr ha
      · refine .inl (as.copy x copies e a ?_)
        rwa [mem_getD, (an.agrees at_.visited at_.behind).resolve_left known, ← mem_getD]
    | load ho => exact ⟨places, anywhere, as, .inl rfl, .inl (as.unknown (.inl ho))⟩
    | call ho _ => exact ⟨places, anywhere, as, .inl rfl, .inl (as.unknown (.inr ho))⟩
  | pass hd _ _ =>
    obtain ⟨o, ho, behind⟩ := at_.next hi
    refine ⟨_, at_.live, at_.visited, behind, fun x r hx => ?_⟩
    exact ⟨aliasStep_known ho (at_.sees x r hx).1, (at_.sees x r hx).2⟩
  | speculate ho => simp [Instr.speculates, ho] at quiet
  | commit ho => simp [Instr.speculates, ho] at quiet

/-- Wherever a run comes to, its pointers are known. -/
lemma Analysed.seen {h : Pointers} (run : Runs f g Honest k j h) :
    ∃ n tables t u, SeenAt g map s k j h.held h.born n tables t u := by
  induction run with
  | @start held params =>
    obtain ⟨n, tables, t, vs⟩ := an.flows.visited an.ended .root
    refine ⟨n, tables, t, _, .root, vs, rfl, fun x r hx => ?_⟩
    obtain ⟨p, hp, name, type⟩ := params x r hx
    obtain ⟨c, hc, ha⟩ := (paramPlaces_spec an.params).2 p hp x name type
    obtain ⟨tables', arrived, -, first⟩ := an.flows.tables 0 n vs.node
    obtain rfl := Option.some.inj (vs.arrived.symm.trans arrived)
    rw [← first rfl] at hc
    have le := (view_joinAll (an.nodup vs) (x := x)).1 c (mem_of_mem_drop hc)
    obtain ⟨known, ha⟩ := an.mem_map (j := 0) vs rfl (mem_getD.mpr ((mem_getD.mp ha).trans le))
    exact ⟨known, anywhere, .inl rfl, ha⟩
  | @next k j n' i h h' _ hn hi does ih =>
    obtain ⟨n, tables, t, u, at_⟩ := ih
    obtain rfl := Option.some.inj (at_.visited.node.symm.trans hn)
    exact ⟨n, tables, t, an.does at_ hi does⟩
  | @fall k n' h _ hn open_ hk ih =>
    obtain ⟨n, tables, t, u, at_⟩ := ih
    exact an.cross at_ (an.charted.falls k n' hn open_ hk).1
  | @jump k j q n' m i l h _ hn hi br hl hm label ih =>
    obtain ⟨n, tables, t, u, at_⟩ := ih
    exact an.cross at_ (an.charted.jumps k q n' m hn hm i (mem_of_getElem? hi) br l hl label).1
  | @abort k j q n m i l h held outer _ hn hi ho _ _ _ _ _ =>
    have quiet := an.quiet n (mem_of_getElem? hn) i (mem_of_getElem? hi)
    simp [Instr.speculates, ho] at quiet

end Sound

lemma exists_analysed (items : ∀ i ∈ f.instrs.getD [], i.IsItem)
    (ssa : (f.params.filterMap Param.name ++ (f.instrs.getD []).filterMap Instr.dest).Nodup)
    (none : Unspeculative (f.instrs.getD [])) (h : aliases f = .ok (g, map)) :
    ∃ start s, Analysed f g map start s := by
  obtain ⟨g', hg, h⟩ := bind_eq_ok.mp h
  obtain ⟨s, hs, h⟩ := bind_eq_ok.mp h
  obtain ⟨m, hm, h⟩ := bind_eq_ok.mp h
  cases h
  obtain ⟨start, hstart, hs⟩ := bind_eq_ok.mp hs
  obtain ⟨is, his, hg⟩ := bind_eq_ok.mp hg
  obtain ⟨items, dests, none⟩ : (∀ i ∈ is, i.IsItem) ∧
      is.filterMap Instr.dest = (f.instrs.getD []).filterMap Instr.dest ∧ Unspeculative is := by
    obtain ⟨body, hbody, his⟩ := bind_eq_ok.mp his
    obtain ⟨first, -, his⟩ := bind_eq_ok.mp his
    rw [ofOption_eq_ok.mp hbody, Option.getD_some] at items none ⊢
    obtain rfl := pure_eq_ok.mp his
    split
    · exact ⟨forall_mem_cons.mpr ⟨.inl ⟨rfl, "entry", rfl⟩, items⟩, rfl,
        forall_mem_cons.mpr ⟨rfl, none⟩⟩
    · exact ⟨items, rfl, none⟩
  have into : ∀ {p q}, Into g p q → Edge g p q := (into_iff_edge items hg).mp
  obtain ⟨fl, ended⟩ := Iterate.run_invariant (Flows g start [] []) (fun _ _ fl _ => fl.visit into) hs
    (.initial fun c hc => ((paramPlaces_spec hstart).1 c hc).1)
  have sub : ∀ n ∈ g, n.block.Sublist is := by
    intro n hn
    have whole := Block.flatten_split (trimmed true is)
    rw [← blocks_ofBody rfl hg] at whole
    exact (sublist_flatten_of_mem (mem_map_of_mem hn)).trans (whole ▸ trimmed_sublist)
  rw [← dests] at ssa
  exact ⟨start, s, ofBody_charted items hg, fl, isEmpty_iff.mp ended, hm, hstart,
    fun n hn => ssa.sublist ((List.Sublist.refl _).append ((sub n hn).filterMap _)),
    fun n hn i hi => none i ((sub n hn).subset hi)⟩

/-- The places that the analysis gives to a variable tell where a pointer comes from. In every run of
a function that assigns each variable once and does not speculate, in which copies and loads of
pointers declare that they yield pointers, the places of a variable that holds a pointer include the
place where its region was allocated, or anywhere; and anywhere, if the region was allocated
elsewhere. -/
theorem aliases_sound (items : ∀ i ∈ f.instrs.getD [], i.IsItem)
    (ssa : (f.params.filterMap Param.name ++ (f.instrs.getD []).filterMap Instr.dest).Nodup)
    (none : Unspeculative (f.instrs.getD [])) (h : aliases f = .ok (g, map)) {at_ : Pointers}
    (run : Runs f g Honest k j at_) {p : String} (holds : at_.held p = some r) :
    (∀ b i, at_.born r = some (b, i) → allocation b i ∈ map.getD p [] ∨ anywhere ∈ map.getD p []) ∧
      (at_.born r = .none → anywhere ∈ map.getD p []) := by
  obtain ⟨start, s, an⟩ := exists_analysed items ssa none h
  obtain ⟨n, tables, t, u, seen⟩ := an.seen run
  obtain ⟨-, a, rfl | ⟨b', i', here, rfl⟩, ha⟩ := seen.sees p r holds
  · exact ⟨fun _ _ _ => .inr ha, fun _ => ha⟩
  · refine ⟨fun b i hb => .inl ?_, fun none => ?_⟩
    · obtain ⟨rfl, rfl⟩ : b' = b ∧ i' = i := by simpa [here] using hb
      exact ha
    · simp [here] at none

def pointer (op dest : String) (args : List String) : Instr :=
  Sample.compute (.app "ptr" .int) op dest args

/-- Allocates a region and walks along it in a loop. -/
def walking : Func where
  args := some [Sample.wholeParam "n", Sample.truthParam "c"]
  instrs := some [.labelled "top", pointer "alloc" "p" ["n"], .labelled "step",
    { pointer "phi" "q" ["p", "r"] with labels := some ["top", "step"] },
    pointer "ptradd" "r" ["q", "n"], Sample.branch "c" "step" "out", .labelled "out"]

theorem aliases_sound_walking : ∃ g map h, aliases walking = .ok (g, map) ∧
    Runs walking g Honest 1 3 h ∧ h.held "r" = some 0 ∧ h.born 0 = some (0, 1) ∧
      (allocation 0 1 ∈ map.getD "r" [] ∨ anywhere ∈ map.getD "r" []) := by
  obtain ⟨g, map, h, n₀, h₀, b₀, n₁, h₁, b₁⟩ : ∃ g map, aliases walking = .ok (g, map) ∧
      ∃ n₀, g[0]? = some n₀ ∧ n₀.block = (walking.instrs.getD []).take 2 ∧
      ∃ n₁, g[1]? = some n₁ ∧ n₁.block = ((walking.instrs.getD []).drop 2).take 4 :=
    ⟨_, _, rfl, _, rfl, rfl, _, rfl, rfl⟩
  have run : Runs walking g Honest 0 0 ⟨fun _ => none, fun _ => none, []⟩ := .start (by simp)
  have run := run.next h₀ (by rw [b₀]; rfl) (.pass rfl rfl (by decide))
  have run := run.next h₀ (by rw [b₀]; rfl) (.alloc (r := 0) rfl rfl (by simp))
  have run := Runs.fall (n := n₀) (by rw [b₀]; exact run) h₀ (by rw [b₀]; decide)
    (List.getElem?_eq_some_iff.mp h₁).1
  have run := run.next h₁ (by rw [b₁]; rfl) (.pass rfl rfl (by decide))
  have run := run.next h₁ (by rw [b₁]; rfl) (.give (v := some 0) rfl fun r hr =>
    ⟨.copy (x := "p") (by simp [Copies, pointer, Instr.uses]) (by simpa [Env.set] using hr), by
      intro _
      rfl⟩)
  have run := run.next h₁ (by rw [b₁]; rfl) (.give (v := some 0) rfl fun r hr =>
    ⟨.copy (x := "q") (by simp [Copies, pointer, Instr.uses]) (by simpa [Env.set] using hr),
      by simp [Honest, pointer]⟩)
  have sound := aliases_sound (p := "r") (r := 0)
    (by simp [walking, pointer, Instr.IsItem, Instr.labelled]) (by decide) (by decide) h run
    (by simp [Env.set])
  exact ⟨g, map, _, h, run, by simp [Env.set], rfl, sound.1 0 1 rfl⟩

/-- Copies a pointer and declares the copy a number. -/
def disguising : Func where
  instrs := some [.labelled "top", Sample.whole "n" 1, pointer "alloc" "p" ["n"],
    Sample.compute .int "id" "x" ["p"], Sample.effect "free" ["p"]]

/-- Copies a pointer in a block that only an abort leads to. -/
def aborting : Func where
  args := some [Sample.truthParam "c"]
  instrs := some [.labelled "top", Sample.whole "n" 1, pointer "alloc" "p" ["n"],
    Sample.plain "speculate", { op := some "guard", args := some ["c"], labels := some ["lost"] },
    Sample.plain "commit", Sample.plain "ret", .labelled "lost", pointer "id" "x" ["p"]]

/-- A copy that is not declared a pointer is not tracked, and neither is one behind an abort. -/
theorem aliases_misses_copies :
    ((disguising.params.filterMap Param.name ++
        (disguising.instrs.getD []).filterMap Instr.dest).Nodup ∧
      Unspeculative (disguising.instrs.getD []) ∧
      ∃ g map h, aliases disguising = .ok (g, map) ∧ Runs disguising g (fun _ => True) 0 4 h ∧
        h.held "x" = some 0 ∧ h.born 0 = some (0, 2) ∧ map.getD "x" [] = []) ∧
    (aborting.params.filterMap Param.name ++ (aborting.instrs.getD []).filterMap Instr.dest).Nodup ∧
      ∃ g map h, aliases aborting = .ok (g, map) ∧ Runs aborting g Honest 1 2 h ∧
        h.held "x" = some 0 ∧ h.born 0 = some (0, 2) ∧ map.getD "x" [] = [] := by
  refine ⟨⟨by decide, by decide, ?_⟩, by decide, ?_⟩
  · obtain ⟨g, map, h, n₀, h₀, b₀, hx⟩ : ∃ g map, aliases disguising = .ok (g, map) ∧
        ∃ n₀, g[0]? = some n₀ ∧ n₀.block = disguising.instrs.getD [] ∧ map.getD "x" [] = [] :=
      ⟨_, _, rfl, _, rfl, rfl, rfl⟩
    have run : Runs disguising g (fun _ => True) 0 0 ⟨fun _ => none, fun _ => none, []⟩ :=
      .start (by simp)
    have run := run.next h₀ (by rw [b₀]; rfl) (.pass rfl rfl (by decide))
    have run := run.next h₀ (by rw [b₀]; rfl) (.give (v := none) rfl (by simp))
    have run := run.next h₀ (by rw [b₀]; rfl) (.alloc (r := 0) rfl rfl (by simp [Env.set]))
    have run := run.next h₀ (by rw [b₀]; rfl) (.give (v := some 0) rfl fun r hr =>
      ⟨.copy (x := "p") (by simp [Copies, Instr.uses]) (by simpa [Env.set] using hr), trivial⟩)
    exact ⟨g, map, _, h, run, by simp [Env.set], rfl, hx⟩
  · obtain ⟨g, map, h, n₀, h₀, b₀, n₁, h₁, b₁, hx⟩ : ∃ g map, aliases aborting = .ok (g, map) ∧
        ∃ n₀, g[0]? = some n₀ ∧ n₀.block = (aborting.instrs.getD []).take 7 ∧
        ∃ n₁, g[1]? = some n₁ ∧ n₁.block = (aborting.instrs.getD []).drop 7 ∧
          map.getD "x" [] = [] :=
      ⟨_, _, rfl, _, rfl, rfl, _, rfl, rfl, rfl⟩
    have run : Runs aborting g Honest 0 0 ⟨fun _ => none, fun _ => none, []⟩ := .start (by simp)
    have run := run.next h₀ (by rw [b₀]; rfl) (.pass rfl rfl (by decide))
    have run := run.next h₀ (by rw [b₀]; rfl) (.give (v := none) rfl (by simp))
    have run := run.next h₀ (by rw [b₀]; rfl) (.alloc (r := 0) rfl rfl (by simp [Env.set]))
    have run := run.next h₀ (by rw [b₀]; rfl) (.speculate rfl)
    have run := run.abort h₀ (by rw [b₀]; rfl) rfl rfl rfl h₁ (by rw [Node.label, b₁]; rfl)
    have run := run.next h₁ (by rw [b₁]; rfl) (.pass rfl rfl (by decide))
    have run := run.next h₁ (by rw [b₁]; rfl) (.give (v := some 0) rfl fun r hr =>
      ⟨.copy (x := "p") (by simp [Copies, pointer, Instr.uses]) (by simpa [Env.set] using hr), by
        intro _
        rfl⟩)
    exact ⟨g, map, _, h, run, by simp [Env.set], rfl, hx⟩

end Memory

end BrilKit
