import BrilKit.Memory.DeadStore
import BrilKit.Proofs.FlowGraph.Blocks
import BrilKit.Proofs.FlowGraph.Complete
import BrilKit.Proofs.FlowGraph.Dominance
import Mathlib

/-!
# The flow of places

Tables of places flow along the edges of a graph until nothing changes. In the end every block that
control reaches has been gone through with what its predecessors leave, and the map of all places
says of a variable what each table says that knows it.
-/

namespace BrilKit

open List Outcome Table

namespace Memory

open FlowGraph

variable {g : FlowGraph} {t u all : PointsTo} {ts start : List PointsTo} {b c : Block} {i : Instr}
  {k j q : Nat} {a x y d : String}

/-- The places of a variable as a set; a table that does not know the variable has none. -/
def view (t : PointsTo) (x : String) : WithBot (Set String) :=
  (t.get? x).elim ⊥ fun places => ↑{a | a ∈ places}

lemma view_put {places : List String} :
    view (t.put x places) y = if y = x then ↑{a | a ∈ places} else view t y := by
  unfold view
  rw [get?_put]
  split <;> rfl

lemma mem_getD : a ∈ t.getD x [] ↔ ↑({a} : Set String) ≤ view t x := by
  unfold view Table.getD
  cases t.get? x with
  | none => simp
  | some places => simp

lemma view_of_same (nd : t.keys.Nodup) (h : t.same u = true) : view t = view u := by
  funext x
  unfold view
  obtain ⟨ht, hu⟩ | ⟨v, w, ht, hu, same⟩ := get?_of_sameBy nd h x
  · rw [ht, hu]
  · rw [ht, hu]
    exact congrArg _ (Set.ext (Members.same_iff.mp same))

section Join

lemma view_join (nd : u.keys.Nodup) :
    view (u.entries.foldl (fun out e =>
      out.alter e.1 fun old => Members.addAll (old.getD []) e.2) t) x = view t x ⊔ view u x := by
  obtain ⟨es⟩ := u
  induction es generalizing t with
  | nil => simp [view, Table.get?]
  | cons e es ih =>
    obtain ⟨fresh, nd⟩ := nodup_cons.mp nd
    rw [foldl_cons, ih nd, Table.alter, view_put]
    by_cases hx : x = e.1
    · subst hx
      have later : view ⟨es⟩ e.1 = ⊥ := by
        unfold view
        rw [get?_eq_none.mpr fresh]
        rfl
      have here : view ⟨e :: es⟩ e.1 = ↑{a | a ∈ e.2} := by simp [view, Table.get?, List.lookup]
      rw [if_pos rfl, later, here, sup_bot_eq]
      unfold view
      cases t.get? e.1 with
      | none => simp
      | some old =>
        rw [Option.elim_some, ← WithBot.coe_sup]
        exact congrArg _ (Set.ext fun a => by simp)
    · have here : view ⟨e :: es⟩ x = view ⟨es⟩ x := by
        unfold view Table.get?
        rw [lookup_cons_ne hx]
      rw [if_neg hx, here]

/-- A union of tables says of a variable what one of them says, if the others say the same or do
not know it. -/
lemma view_joinAll (nd : ∀ u ∈ ts, u.keys.Nodup) :
    (∀ u ∈ ts, view u x ≤ view (joinAll ts) x) ∧
      ∀ m, (∀ u ∈ ts, view u x = ⊥ ∨ view u x = m) →
        view (joinAll ts) x = ⊥ ∨ view (joinAll ts) x = m := by
  have all : ∀ t : PointsTo, ∃ out : PointsTo, ts.foldl (fun out u => u.entries.foldl (fun out e =>
      out.alter e.1 fun old => Members.addAll (old.getD []) e.2) out) t = out ∧
      view t x ≤ view out x ∧ (∀ u ∈ ts, view u x ≤ view out x) ∧
        ∀ m, view t x = ⊥ ∨ view t x = m → (∀ u ∈ ts, view u x = ⊥ ∨ view u x = m) →
          view out x = ⊥ ∨ view out x = m := by
    induction ts with
    | nil => exact fun t => ⟨t, rfl, le_rfl, by simp, fun m h _ => h⟩
    | cons u ts ih =>
      intro t
      obtain ⟨hu, nd⟩ := forall_mem_cons.mp nd
      obtain ⟨out, hout, le, others, same⟩ := ih nd (u.entries.foldl (fun out e =>
        out.alter e.1 fun old => Members.addAll (old.getD []) e.2) t)
      rw [view_join hu] at le same
      refine ⟨out, hout, le_sup_left.trans le,
        forall_mem_cons.mpr ⟨le_sup_right.trans le, others⟩, fun m ht hm => ?_⟩
      obtain ⟨hu, hm⟩ := forall_mem_cons.mp hm
      refine same m ?_ hm
      obtain ht | ht := ht <;> obtain hu | hu := hu <;> simp [ht, hu]
  obtain ⟨out, rfl, -, others, same⟩ := all .empty
  exact ⟨others, fun m => same m (.inl rfl)⟩

lemma nodup_joinAll : (joinAll ts).keys.Nodup := by
  refine List.foldlRecOn (motive := fun t : PointsTo => t.keys.Nodup) _ _ (by simp) ?_
  intro t nd u _
  exact List.foldlRecOn (motive := fun t : PointsTo => t.keys.Nodup) _ _ nd
    fun t nd e _ => nodup_put nd

end Join

section Block

variable {r : Option PointsTo} {dest : Option String} {places : List String}

lemma view_setPlaces : view (setPlaces t dest places) y =
    if dest = some y then ↑{a | a ∈ places} else view t y := by
  cases dest with
  | none => simp [setPlaces]
  | some d =>
    rw [setPlaces, view_put]
    simp [Members.ofList, eq_comm]

/-- A table in which the result of an instruction has been given places. -/
structure Sets (t : PointsTo) (i : Instr) (places : List String) (u : PointsTo) : Prop where
  view : view u = view (setPlaces t i.dest places)
  nodup : t.keys.Nodup → u.keys.Nodup

lemma sets_once : Sets t i places (setPlaces t i.dest places) := by
  refine ⟨rfl, fun nd => ?_⟩
  cases i.dest with
  | none => exact nd
  | some d => exact nodup_put nd

lemma sets_twice {old : List String} :
    Sets t i places (setPlaces (setPlaces t i.dest old) i.dest places) := by
  refine ⟨funext fun y => ?_, fun nd => sets_once.nodup (sets_once.nodup nd)⟩
  simp only [view_setPlaces]
  split <;> rfl

/-- The result is a pointer by the type that the instruction declares. -/
def Declared (i : Instr) : Prop := i.type.any Ty.isRecord = true

/-- The result is the value of a variable, or a pointer into the same region. -/
def Copies (i : Instr) (x : String) : Prop :=
  (i.op = some "id" ∨ i.op = some "ptradd") ∧ i.uses.head? = some x ∨
    i.op = some "phi" ∧ x ∈ i.uses

/-- The analysis gives places to the result of an instruction. -/
structure Assigned (k j : Nat) (t : PointsTo) (i : Instr) (places : List String)
    (u : PointsTo) : Prop where
  sets : Sets t i places u
  alloc : i.op = some "alloc" → allocation k j ∈ places
  unknown : i.op = some "load" ∨ i.op = some "call" → anywhere ∈ places
  copy : ∀ x, Copies i x → i.dest ≠ some x → ∀ a ∈ t.getD x [], a ∈ places

lemma copyPlaces_spec (h : copyPlaces t i = .ok u) : ∃ places, Sets t i places u ∧
    ∀ x, i.uses.head? = some x → i.dest ≠ some x → ∀ a ∈ t.getD x [], a ∈ places := by
  obtain ⟨xs, hxs, h⟩ := bind_eq_ok.mp h
  obtain ⟨x, hx, h⟩ := bind_eq_ok.mp h
  obtain ⟨places, hp, h⟩ := bind_eq_ok.mp h
  cases h
  refine ⟨places, sets_twice, fun y hy hne a ha => ?_⟩
  rw [itemAt_eq_ok] at hx
  obtain rfl : x = y := by
    rw [Instr.uses, ofOption_eq_ok.mp hxs, Option.getD_some, head?_eq_getElem?, hx] at hy
    exact Option.some.inj hy
  have same : view (setPlaces t i.dest []) x = view t x := by rw [view_setPlaces, if_neg hne]
  rw [mem_getD, ← same, ← mem_getD, Table.getD, fetch_eq_ok.mp hp] at ha
  exact ha

lemma phiPlaces_spec (h : phiPlaces t i = .ok u) : ∃ places, Sets t i places u ∧
    ∀ x ∈ i.uses, i.dest ≠ some x → ∀ a ∈ t.getD x [], a ∈ places := by
  obtain ⟨xs, hxs, h⟩ := bind_eq_ok.mp h
  cases h
  refine ⟨_, sets_twice, fun x hx hne a ha => mem_flatMap.mpr ⟨x, ?_, ?_⟩⟩
  · rwa [Instr.uses, ofOption_eq_ok.mp hxs] at hx
  · rwa [mem_getD, view_setPlaces, if_neg hne, ← mem_getD]

lemma givesPointer_cases {o : Outcome (Option PointsTo)} {old : Option PointsTo}
    (h : (do if ← givesPointer i then o else return old) = .ok r) :
    o = .ok r ∨ ¬ Declared i ∧ old = r := by
  obtain ⟨p, hp, h⟩ := bind_eq_ok.mp h
  obtain ⟨ty, hty, hp⟩ := bind_eq_ok.mp hp
  obtain rfl : ty.isRecord = p := pure_eq_ok.mp hp
  cases hr : ty.isRecord with
  | true =>
    rw [hr] at h
    exact .inl h
  | false =>
    rw [hr] at h
    cases h
    exact .inr ⟨by simp [Declared, ofOption_eq_ok.mp hty, hr], rfl⟩

/-- A step of the analysis gives places to the result, if the instruction can give a pointer. -/
lemma aliasStep_spec (h : aliasStep k t i j = .ok r) :
    (∃ places, Assigned k j t i places (r.getD t)) ∨ r.getD t = t ∧ i.op ≠ some "alloc" ∧
      i.op ≠ some "ptradd" ∧
        (i.op ∈ [some "load", some "id", some "phi", some "call"] → ¬ Declared i ∨ i.dest = none) := by
  unfold aliasStep at h
  split at h
  · next ho =>
    cases h
    exact .inl ⟨_, sets_once, by simp, by simp [ho], by simp [Copies, ho]⟩
  · next ho =>
    obtain ⟨u, hu, h⟩ := bind_eq_ok.mp h
    cases h
    obtain ⟨places, sets, copy⟩ := copyPlaces_spec hu
    exact .inl ⟨places, sets, by simp [ho], by simp [ho], by simpa [Copies, ho] using copy⟩
  · next ho =>
    obtain h | ⟨un, rfl⟩ := givesPointer_cases h
    · cases h
      exact .inl ⟨_, sets_once, by simp [ho], by simp, by simp [Copies, ho]⟩
    · exact .inr ⟨rfl, by simp [ho], by simp [ho], fun _ => .inl un⟩
  · next ho =>
    obtain h | ⟨un, rfl⟩ := givesPointer_cases h
    · obtain ⟨u, hu, h⟩ := bind_eq_ok.mp h
      cases h
      obtain ⟨places, sets, copy⟩ := copyPlaces_spec hu
      exact .inl ⟨places, sets, by simp [ho], by simp [ho], by simpa [Copies, ho] using copy⟩
    · exact .inr ⟨rfl, by simp [ho], by simp [ho], fun _ => .inl un⟩
  · next ho =>
    obtain h | ⟨un, rfl⟩ := givesPointer_cases h
    · obtain ⟨u, hu, h⟩ := bind_eq_ok.mp h
      cases h
      obtain ⟨places, sets, copy⟩ := phiPlaces_spec hu
      exact .inl ⟨places, sets, by simp [ho], by simp [ho], by simpa [Copies, ho] using copy⟩
    · exact .inr ⟨rfl, by simp [ho], by simp [ho], fun _ => .inl un⟩
  · next ho =>
    split at h
    · obtain h | ⟨un, rfl⟩ := givesPointer_cases h
      · cases h
        exact .inl ⟨_, sets_once, by simp [ho], by simp, by simp [Copies, ho]⟩
      · exact .inr ⟨rfl, by simp [ho], by simp [ho], fun _ => .inl un⟩
    · next hd =>
      cases h
      exact .inr ⟨rfl, by simp [ho], by simp [ho], fun _ => .inr (by simpa using hd)⟩
  · cases h
    exact .inr ⟨rfl, by simp_all, by simp_all, by simp_all⟩

lemma aliasStep_other (h : aliasStep k t i j = .ok r) (hx : i.dest ≠ some x) :
    view (r.getD t) x = view t x := by
  obtain ⟨places, as⟩ | ⟨e, -⟩ := aliasStep_spec h
  · rw [as.sets.view, view_setPlaces, if_neg hx]
  · rw [e]

lemma aliasStep_known (h : aliasStep k t i j = .ok r) (hx : view t x ≠ ⊥) :
    view (r.getD t) x ≠ ⊥ := by
  obtain ⟨places, as⟩ | ⟨e, -⟩ := aliasStep_spec h
  · rw [as.sets.view, view_setPlaces]
    split
    · exact WithBot.coe_ne_bot
    · exact hx
  · rwa [e]

lemma aliasBlock_concat : aliasBlock k (b ++ [i]) t = .ok u ↔ ∃ v r, aliasBlock k b t = .ok v ∧
    aliasStep k v i b.length = .ok r ∧ r.getD v = u := by
  unfold aliasBlock
  rw [zipIdx_append, foldlM_append, bind_eq_ok]
  simp only [zipIdx_cons, zipIdx_nil, foldlM_cons_eq_ok, foldlM_nil_eq_ok, bind_eq_ok,
    pure_eq_ok, Nat.zero_add, exists_and_left, exists_eq_right]

lemma nodup_aliasBlock (nd : t.keys.Nodup) (h : aliasBlock k b t = .ok u) : u.keys.Nodup := by
  induction b using List.reverseRecOn generalizing u with
  | nil => exact foldlM_nil_eq_ok.mp h ▸ nd
  | append_singleton b i ih =>
    obtain ⟨v, r, hv, hr, rfl⟩ := aliasBlock_concat.mp h
    obtain ⟨places, as⟩ | ⟨e, -⟩ := aliasStep_spec hr
    · exact as.sets.nodup (ih hv)
    · rw [e]
      exact ih hv

/-- What is known before the end of a block is known at the end, unless the variable is assigned
between. -/
lemma aliasBlock_append (h : aliasBlock k (b ++ c) t = .ok u) : ∃ v, aliasBlock k b t = .ok v ∧
    (∀ y, view v y ≠ ⊥ → view u y ≠ ⊥) ∧
      ∀ y, (∀ i ∈ c, i.dest ≠ some y) → view u y = view v y := by
  induction c using List.reverseRecOn generalizing u with
  | nil => exact ⟨u, by simpa using h, fun _ h => h, fun _ _ => rfl⟩
  | append_singleton c i ih =>
    rw [← append_assoc] at h
    obtain ⟨w, r, hw, hr, rfl⟩ := aliasBlock_concat.mp h
    obtain ⟨v, hv, known, same⟩ := ih hw
    refine ⟨v, hv, fun y hy => aliasStep_known hr (known y hy), fun y hy => ?_⟩
    rw [aliasStep_other hr (hy i (by simp)), same y fun j hj => hy j (by simp [hj])]

end Block

section Flow

variable {s s' : AliasState} {late todo : List (Nat × Nat)} {changed : Bool}

/-- What a block leaves, as far as is known. -/
def left (s : AliasState) (p : Nat) : String → WithBot (Set String) := view (s.outs.getD p .empty)

/-- A block that has been gone through with the tables that have come in last, and has been passed
on over its edges, except for some. -/
structure Visited (g : FlowGraph) (todo : List (Nat × Nat)) (s : AliasState) (k : Nat) (n : Node)
    (tables : List PointsTo) (t : PointsTo) : Prop where
  node : g[k]? = some n
  arrived : s.ins[k]? = some tables
  through : aliasBlock k n.block (joinAll tables) = .ok t
  left : view t = left s k
  edges : ∀ q ∈ n.succ, (k, q) ∈ todo ∨ s.touched[q]? = some true ∧
    ∃ m i, g[q]? = some m ∧ m.pred.idxOf? k = some i

/-- What is known at any time of the flow. Over the edges that are late a block has not yet passed on
what it leaves now. -/
structure Flows (g : FlowGraph) (start : List PointsTo) (late todo : List (Nat × Nat))
    (s : AliasState) : Prop where
  outs : s.outs.length = g.length
  touched : s.touched.length = g.length
  tables : ∀ (b : Nat) n, g[b]? = some n → ∃ tables, s.ins[b]? = some tables ∧
    n.pred.length ≤ tables.length ∧ (b = 0 → tables.drop n.pred.length = start)
  cells : ∀ b i c n, cell s.ins b i = some c → g[b]? = some n → c.keys.Nodup ∧
    (c = .empty ∨ c ∈ start ∨ ∃ p, n.pred.idxOf? p = some i) ∧
      ∀ p, n.pred.idxOf? p = some i → (p, b) ∈ late ∨ view c = left s p
  done : ∀ b, b = 0 ∨ s.touched[b]? = some true →
    b ∈ s.pending ∨ ∃ n tables t, Visited g todo s b n tables t

/-- Once a block has been passed on over an edge, that edge is not to do any more. -/
lemma Visited.passed {m n : Node} {b i : Nat} {tables : List PointsTo}
    (vs : Visited g ((k, q) :: todo) s b n tables t) (arrived : s'.ins[b]? = some tables)
    (outs : s'.outs = s.outs)
    (mono : ∀ p : Nat, s.touched[p]? = some true → s'.touched[p]? = some true)
    (hq : s'.touched[q]? = some true) (hm : g[q]? = some m) (hi : m.pred.idxOf? k = some i) :
    Visited g todo s' b n tables t := by
  refine ⟨vs.node, arrived, vs.through, ?_, fun p hp => ?_⟩
  · rw [vs.left, Memory.left, Memory.left, outs]
  · obtain ht | ⟨ht, slot⟩ := vs.edges p hp
    · obtain e | ht := mem_cons.mp ht
      · cases e
        exact .inr ⟨hq, m, i, hm, hi⟩
      · exact .inl ht
    · exact .inr ⟨mono p ht, slot⟩

/-- Passing on what a block leaves over one edge. -/
lemma Flows.pass (fl : Flows g start (if changed then (k, q) :: todo else []) ((k, q) :: todo) s)
    (nd : t.keys.Nodup) (ht : view t = left s k) (h : passPlaces g k t changed s q = .ok s') :
    Flows g start (if changed then todo else []) todo s' ∧ s'.outs = s.outs := by
  obtain ⟨m, hm, h⟩ := bind_eq_ok.mp h
  obtain ⟨i, hi, h⟩ := bind_eq_ok.mp h
  rw [itemAt_eq_ok] at hm
  rw [slot_eq_ok] at hi
  have hq : q < s.touched.length := fl.touched ▸ (List.getElem?_eq_some_iff.mp hm).1
  split at h
  · obtain ⟨tables, htab, h⟩ := bind_eq_ok.mp h
    rw [itemAt_eq_ok] at htab
    cases h
    obtain ⟨tables', htab', len, first⟩ := fl.tables q m hm
    obtain rfl := Option.some.inj (htab.symm.trans htab')
    have hlt : i < m.pred.length := (List.getElem?_eq_some_iff.mp (getElem?_of_idxOf? hi)).1
    refine ⟨⟨fl.outs, by simpa using fl.touched, fun b n hn => ?_, fun b j c n hc hn => ?_,
      fun b hb => ?_⟩, rfl⟩
    · by_cases hb : b = q
      · subst hb
        obtain rfl := Option.some.inj (hm.symm.trans hn)
        obtain ⟨hlt', -⟩ := List.getElem?_eq_some_iff.mp htab
        refine ⟨_, List.getElem?_set_self hlt', by simpa using len, fun h0 => ?_⟩
        rw [drop_set_of_lt hlt]
        exact first h0
      · obtain ⟨tables', h'⟩ := fl.tables b n hn
        exact ⟨tables', (getElem?_set_ne (Ne.symm hb)).trans h'.1, h'.2⟩
    · rw [cell_set_set htab (hlt.trans_le len)] at hc
      split at hc
      · next e =>
        obtain ⟨rfl, rfl⟩ := e
        cases hc
        obtain rfl := Option.some.inj (hm.symm.trans hn)
        refine ⟨nd, .inr (.inr ⟨k, hi⟩), fun p hp => .inr ?_⟩
        have same := getElem?_of_idxOf? hp
        rw [getElem?_of_idxOf? hi] at same
        obtain rfl := Option.some.inj same
        exact ht
      · next ne =>
        obtain ⟨nd', origin, from_⟩ := fl.cells b j c n hc hn
        refine ⟨nd', origin, fun p hp => (from_ p hp).imp_left fun hl => ?_⟩
        cases changed with
        | false => exact hl
        | true =>
          obtain e | hl := mem_cons.mp hl
          · cases e
            obtain rfl := Option.some.inj (hm.symm.trans hn)
            exact absurd ⟨rfl, Option.some.inj (hp.symm.trans hi)⟩ ne
          · exact hl
    · have mono : ∀ p : Nat, s.touched[p]? = some true →
          (s.touched.set q true)[p]? = some true := by
        intro p hp
        by_cases e : p = q
        · rw [e, List.getElem?_set_self hq]
        · rwa [getElem?_set_ne (Ne.symm e)]
      by_cases e : b = q
      · exact .inl (by simp [e])
      · rw [getElem?_set_ne (Ne.symm e)] at hb
        obtain hb | ⟨n, tables', t', vs⟩ := fl.done b hb
        · exact .inl (by simp [hb])
        · refine .inr ⟨n, tables', t', vs.passed ?_ rfl mono (List.getElem?_set_self hq) hm hi⟩
          exact (getElem?_set_ne (Ne.symm e)).trans vs.arrived
  · next idle =>
    cases h
    simp only [Bool.or_eq_true, Bool.not_eq_true', not_or, Bool.not_eq_false] at idle
    obtain ⟨unchanged, ht⟩ := idle
    rw [Bool.not_eq_true] at unchanged
    subst unchanged
    have ht : s.touched[q]? = some true := by
      rw [getD_eq_getElem?_getD, getElem?_eq_getElem hq, Option.getD_some] at ht
      rw [getElem?_eq_getElem hq, ht]
    refine ⟨{ fl with done := fun b hb => ?_ }, rfl⟩
    obtain hb | ⟨n, tables, t, vs⟩ := fl.done b hb
    · exact .inl hb
    · exact .inr ⟨n, tables, t, vs.passed vs.arrived rfl (fun _ => id) ht hm hi⟩

lemma Flows.passAll {targets : List Nat} (fl : Flows g start
      (if changed then targets.map (Prod.mk k) else []) (targets.map (Prod.mk k)) s)
    (nd : t.keys.Nodup) (ht : view t = left s k)
    (h : targets.foldlM (passPlaces g k t changed) s = .ok s') : Flows g start [] [] s' := by
  induction targets generalizing s with
  | nil =>
    cases foldlM_nil_eq_ok.mp h
    simpa using fl
  | cons q targets ih =>
    obtain ⟨u, hu, h⟩ := foldlM_cons_eq_ok.mp h
    obtain ⟨fl, outs⟩ := fl.pass nd ht hu
    exact ih fl (by rw [ht, left, left, outs]) h

/-- A visit of a block that is pending. -/
lemma Flows.visit (into : ∀ {p q}, Into g p q → Edge g p q) (fl : Flows g start [] [] s)
    (h : visitAlias g s = .ok s') : Flows g start [] [] s' := by
  unfold visitAlias at h
  split at h
  · cases h
    exact fl
  next k rest hp =>
  obtain ⟨n, hn, h⟩ := bind_eq_ok.mp h
  obtain ⟨tables, htab, h⟩ := bind_eq_ok.mp h
  obtain ⟨t, through, h⟩ := bind_eq_ok.mp h
  obtain ⟨old, hold, h⟩ := bind_eq_ok.mp h
  rw [itemAt_eq_ok] at hn htab hold
  dsimp only at h
  have nd : t.keys.Nodup := nodup_aliasBlock nodup_joinAll through
  generalize hch : (!t.same old) = changed at h
  set s₁ : AliasState := { s with pending := rest, outs := if changed then s.outs.set k t else s.outs }
  obtain ⟨hk, hold'⟩ := List.getElem?_eq_some_iff.mp hold
  have here : view t = left s₁ k := by
    cases changed with
    | true => simp [s₁, left, hk]
    | false =>
      rw [view_of_same nd (by simpa using hch)]
      simp [s₁, left, hk, hold']
  have there : ∀ p, p ≠ k ∨ changed = false → left s₁ p = left s p := by
    rintro p (hpk | rfl)
    · cases changed with
      | true => simp [s₁, left, getElem?_set_ne (Ne.symm hpk)]
      | false => rfl
    · rfl
  refine Flows.passAll (s := s₁) ⟨?_, fl.touched, fl.tables, fun b i c m hc hm => ?_,
    fun b hb => ?_⟩ nd here h
  · cases changed with
    | true => simpa [s₁] using fl.outs
    | false => exact fl.outs
  · obtain ⟨nd, origin, from_⟩ := fl.cells b i c m hc hm
    refine ⟨nd, origin, fun p hi => ?_⟩
    have same := (from_ p hi).resolve_left (by simp)
    by_cases hpk : p ≠ k ∨ changed = false
    · exact .inr (same.trans (there p hpk).symm)
    · obtain ⟨rfl, rfl⟩ : p = k ∧ changed = true := by simpa using hpk
      obtain ⟨n', hn', hb⟩ := into ⟨m, hm, mem_of_getElem? (getElem?_of_idxOf? hi)⟩
      obtain rfl := Option.some.inj (hn.symm.trans hn')
      exact .inl (by simpa using hb)
  · by_cases hbk : b = k
    · subst hbk
      exact .inr ⟨n, tables, t, hn, htab, through, here, fun q hq => .inl (by simpa using hq)⟩
    · obtain hb | ⟨m, tables', t', vs⟩ := fl.done b hb
      · rw [hp] at hb
        exact .inl ((mem_cons.mp hb).resolve_left hbk)
      · refine .inr ⟨m, tables', t', vs.node, vs.arrived, vs.through, ?_, fun q hq => ?_⟩
        · rw [vs.left, there b (.inl hbk)]
        · exact .inr ((vs.edges q hq).resolve_left (by simp))

lemma ins_initial {n : Node} (hn : g[k]? = some n) : (AliasState.initial g start).ins[k]? =
    some (n.pred.map (fun _ => .empty) ++ if k = 0 then start else []) := by
  cases g with
  | nil => cases hn
  | cons m g =>
    cases k with
    | zero =>
      cases hn
      simp [AliasState.initial]
    | succ k =>
      have hn : g[k]? = some n := hn
      simp [AliasState.initial, hn]

lemma Flows.initial (nd : ∀ c ∈ start, c.keys.Nodup) : Flows g start [] [] (.initial g start) where
  outs := by simp [AliasState.initial]
  touched := by simp [AliasState.initial]
  tables b n hn := by
    refine ⟨_, ins_initial hn, by simp, fun h0 => ?_⟩
    rw [if_pos h0, drop_append_of_le_length (by simp)]
    simp
  cells b i c n hc hn := by
    have empty : ∀ p, left (.initial g start) p = view .empty := by
      intro p
      simp only [left, AliasState.initial, getD_eq_getElem?_getD, getElem?_map]
      cases g[p]? <;> rfl
    rw [cell_of_getElem? (ins_initial hn), getElem?_append] at hc
    split at hc
    · obtain ⟨_, -, rfl⟩ := mem_map.mp (mem_of_getElem? hc)
      exact ⟨by simp, .inl rfl, fun p _ => .inr (empty p).symm⟩
    · next hi =>
      have hc : c ∈ start := by
        have mem := mem_of_getElem? hc
        split at mem
        · exact mem
        · cases mem
      refine ⟨nd c hc, .inr (.inl hc), fun p hp => absurd ?_ hi⟩
      simpa using (List.getElem?_eq_some_iff.mp (getElem?_of_idxOf? hp)).1
  done b hb := by
    obtain rfl | hb := hb
    · exact .inl (by simp [AliasState.initial])
    · obtain ⟨_, -, e⟩ := mem_map.mp (mem_of_getElem? hb)
      cases e

lemma Flows.visited (fl : Flows g start [] [] s) (ended : s.pending = []) (live : g.Live k) :
    ∃ n tables t, Visited g [] s k n tables t := by
  have done : ∀ b, b = 0 ∨ s.touched[b]? = some true → ∃ n tables t, Visited g [] s b n tables t :=
    fun b hb => (fl.done b hb).resolve_left (by simp [ended])
  induction live with
  | root => exact done 0 (.inl rfl)
  | step _ e ih =>
    obtain ⟨n, tables, t, vs⟩ := ih
    obtain ⟨n', hn', hq⟩ := e
    obtain rfl := Option.some.inj (vs.node.symm.trans hn')
    obtain ⟨touched, -⟩ := (vs.edges _ hq).resolve_left (by simp)
    exact done _ (.inr touched)

end Flow

section Combine

variable {outs : List PointsTo}

/-- The map of all places says what each table says. -/
lemma combine_spec (h : combine outs = .ok all) (ht : t ∈ outs) :
    view t x = ⊥ ∨ view t x = view all x := by
  obtain ⟨-, told⟩ := foldlM_marked
    (Q := fun (t all : PointsTo) => ∀ e ∈ t.entries, view all e.1 = ↑{a | a ∈ e.2})
    (fun t all all' h => by
      obtain ⟨keep, told⟩ := foldlM_marked
        (Q := fun (e : String × List String) (all : PointsTo) => view all e.1 = ↑{a | a ∈ e.2})
        (fun e all all' h => by
          dsimp only at h
          split at h
          · next old hold =>
            obtain ⟨_, hg, h⟩ := bind_eq_ok.mp h
            cases h
            have same : Members.same old e.2 = true := by
              by_contra no
              simp [Outcome.guard, no] at hg
            refine ⟨?_, fun _ => id⟩
            rw [view, hold]
            exact congrArg _ (Set.ext (Members.same_iff.mp same))
          · next new =>
            cases h
            refine ⟨by rw [view_put, if_pos rfl], fun y hy => ?_⟩
            rw [view_put, if_neg]
            · exact hy
            · intro e
              simp [view, e, new] at hy) h
      exact ⟨told, fun u hu e he => keep e (hu e he)⟩) h
  cases hx : t.get? x with
  | none =>
    rw [view, hx]
    exact .inl rfl
  | some places =>
    rw [told t ht _ (mem_of_get? hx), view, hx]
    exact .inr rfl

lemma getD_outs {s : AliasState} (h : combine s.outs = .ok all) (p : Nat) :
    left s p x = ⊥ ∨ left s p x = view all x := by
  unfold left
  rw [getD_eq_getElem?_getD]
  cases hp : s.outs[p]? with
  | none => exact .inl rfl
  | some t => exact combine_spec h (mem_of_getElem? hp)

end Combine

end Memory

end BrilKit
