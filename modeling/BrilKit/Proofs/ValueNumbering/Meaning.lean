import BrilKit.Proofs.Run.Reads
import BrilKit.Proofs.ValueNumbering.Tracking

/-!
# Local value numbering keeps what a block does

The block that value numbering makes of a block prints and calls the same, passes control the same
way or fails with the same error, and leaves the same values in all variables but those it names
itself.
-/

namespace BrilKit

open List Outcome

namespace ValueNumbering

open Machine (Env)
open CoreOp

/-- The tables know two environments, by some values of the numbers. -/
def Linked (s : State) (todo : Block) (e e' : Env Val) : Prop :=
  ∃ val, Tracks s val e e' todo

/-- An operation does in the second environment what another one does in the first, and the tables
know the environments behind. -/
def Mirrors {W : Type}
    (other : Behaviour Val W)
    (s : State) (todo : Block) (e e' : Env Val) (i i' : Instr) (op : String) : Prop :=
  ∃ op', i'.op = some op' ∧ i'.isTerminator = false ∧ ∀ w, Block.Keeps (Linked s todo)
    (Block.perform other i op e w) (Block.perform other i' op' e' w)

variable {W : Type}
  {other : Behaviour Val W}
  {o : Options} {s s' : State} {val : Nat → Option Val} {e e' : Env Val}
  {i i' j : Instr} {todo : Block} {d op : String} {ns : List Nat} {names : List String}
  {last : Bool} {n : Nat} {v : Val} {w : W}

section Step

lemma computation_op : (computation o op ns).op = op := by
  unfold computation
  split
  · exact canonical_op _
  · rfl

lemma computation_div : computation o "div" ns = ⟨"div", ns⟩ := by simp [computation, canonical]

lemma not_gives_div {next : Nat} {a b : Val} (hvs : ns.map val = [some a, some b])
    (hz : b.number = 0) : ¬ Gives next val (computation o "div" ns) v := by
  rw [computation_div]
  rintro ⟨_, vs, hws, hv⟩
  obtain rfl : vs = [a, b] :=
    map_injective_iff.mpr (fun _ _ => Option.some.inj) (hws.symm.trans hvs)
  simp [copyOr, CoreOp.compute, arithmetic, hz] at hv

lemma Tracks.skip (h : Tracks s val e e' (i :: todo)) (hd : i.dest = none) :
    Tracks s val e e' todo where
  numbers := h.numbers
  homes := h.homes
  values := h.values
  consts := h.consts
  rest x hr hx := h.rest x hr (forall_mem_cons.mpr ⟨by simp [hd], hx⟩)

/-- What becomes of an instruction whose value has a number: it gives that value. -/
lemma Tracks.reuse
    (other : Behaviour Val W)
    (h : Tracks s val e e' (i :: todo)) (hd : i.dest = some d) (hr : ¬ Reserved d) (hj : j.dest = some d)
    (hs : reuse (s.clobber (some d)) j d n = .ok (s', i')) :
    ∃ op', i'.op = some op' ∧ i'.isTerminator = false ∧
      ∀ v, n < s.numbers.next ∧ val n = some v →
        Linked s' todo (e.set d (some v)) (e'.set d (some v)) ∧
          ∀ w : W, Block.perform other i' op' e' w = .ok (e'.set d (some v), w, []) := by
  obtain ⟨c, hc, rfl, rfl⟩ | ⟨x, ys, hx, rfl, rfl⟩ := reuse_eq_ok hs
  · refine ⟨"const", rfl, by simp [Instr.isTerminator, Instr.toConst, terminators], ?_⟩
    rintro v ⟨lt, hv⟩
    obtain ⟨_, v', hv', rfl⟩ := h.consts n c hc
    obtain rfl : v' = v := Option.mem_unique hv' hv
    exact ⟨⟨val, h.assign_known hd lt hv⟩, fun w => Block.perform_const hj rfl rfl⟩
  · refine ⟨"id", rfl, by simp [Instr.isTerminator, Instr.toCopy, terminators], ?_⟩
    rintro v ⟨lt, hv⟩
    have held : e' x = some v := by rw [(h.clobber hx).2.2.value x (by simp), hv]
    refine ⟨⟨val, (h.assign_known hd lt hv).addHome hr lt ?_ fun m xs hm => (h.clobber hm).2.1⟩, ?_⟩
    · rw [Env.set_same, hv]
    · exact fun w => Block.perform_copy hj rfl held

section Assignment

variable (h : Tracks s val e e' (i :: todo)) (f : Fetched s i ns names) (hd : i.dest = some d)
include h f hd

lemma Tracks.keep (home : String)
    (link : ∀ v w w' es, Machine.effect (.core other) op i.shape (i.uses.map e) w =
      some (some v, w', es) → Linked s' todo (e.set d (some v)) (e'.set home (some v))) :
    Block.Keeps (Linked s' todo) (Block.perform other i op e w)
      (Block.perform other { renamed i names with dest := some home } op e' w) := by
  obtain ⟨_, _, vals⟩ := h.fetched f
  refine Block.Keeps.of_shape ?_ vals ?_ ?_
  · simp [Instr.shape, renamed, hd]
  · intro hnone
    rw [hnone] at hd
    cases hd
  · intro d₁ d' v w' es hd₁ hd' heff
    obtain rfl : d₁ = d := Option.mem_unique hd₁ hd
    obtain rfl : home = d' := Option.some.inj hd'
    exact link v w w' es heff

lemma Tracks.outcome (ho : i.op = some op) (hop : isValue op = true) :
    (∃ v, Gives s.numbers.next val (computation o op ns) v ∧
        Block.perform other i op e w = .ok (e.set d (some v), w, [])) ∨
      (∃ a b, op = "div" ∧ ns.map val = [some a, some b] ∧ b.number = 0) ∨
      Block.perform other i op e w = .error none := by
  obtain ⟨lt, hns, _⟩ := h.fetched f
  obtain ⟨vs, v, hvs, hv, done⟩ | ⟨a, b, div, hab, hz⟩ | stuck :=
    Block.perform_value (e := e) (w := w) ho hop hd
  · exact .inl ⟨v, .computation lt (hns.trans hvs) hv, done⟩
  · exact .inr (.inl ⟨a, b, div, hns.trans hab, hz⟩)
  · exact .inr (.inr stuck)

variable (hr : ¬ Reserved d)
include hr

lemma Tracks.value_known (ho : i.op = some op) (hop : isValue op = true)
    (known : lookUp o.prop s.values (computation o op ns) = .ok (some n))
    (hs : ValueNumbering.reuse (s.clobber (some d)) (renamed i names) d n = .ok (s', i')) :
    Mirrors other s' todo e e' i i' op := by
  obtain ⟨op', hop', ht', reused⟩ := h.reuse other hd hr hd hs
  refine ⟨op', hop', ht', fun w => ?_⟩
  obtain ⟨v, gives, done⟩ | ⟨a, b, rfl, hab, hz⟩ | stuck := h.outcome (w := w) f hd ho hop
  · obtain ⟨linked, done'⟩ := reused v (h.known known gives)
    rw [done, done' w]
    exact ⟨_, rfl, linked⟩
  · -- a computation that is known has given a value
    obtain ⟨copy, _⟩ | hn := lookUp_eq_some known
    · rw [computation_op] at copy
      exact absurd copy (by decide)
    · obtain ⟨_, v, _, gives⟩ := h.values _ n hn
      exact absurd gives (not_gives_div hab hz)
  · rw [stuck]
    trivial

variable (hlast : (∀ j ∈ todo, j.dest ≠ some d) → last = true)
include hlast

lemma Tracks.value_new (ho : i.op = some op) (hop : isValue op = true)
    (hs : compute o (s.clobber (some d)) (renamed i names) d last (some (computation o op ns)) =
      .ok (s', i')) :
    Mirrors other s' todo e e' i i' op := by
  have hconst : op ≠ "const" := by
    rintro rfl
    exact absurd hop (by decide)
  have fresh (v : Val) := h.assign_new (v := some v) hd hr hlast rfl
  obtain ⟨c, hc, rfl, rfl⟩ | ⟨rfl, rfl⟩ := compute_some (j := renamed i names) ho hconst hs
  · refine ⟨"const", rfl, by simp [Instr.isTerminator, Instr.toConst, terminators], fun w => ?_⟩
    have consts : Known s.consts val := fun n c hn => (h.consts n c hn).2
    obtain ⟨v, gives, done⟩ | ⟨a, b, rfl, hab, hz⟩ | stuck := h.outcome (w := w) f hd ho hop
    · obtain ⟨_, vs, hvs, hv⟩ := gives
      obtain rfl := foldValue_eval consts hc hvs hv
      rw [done, Block.perform_const rfl rfl rfl]
      exact ⟨_, rfl, _, (fresh v).putConst (Nat.lt_succ_self _) (Function.update_self ..)⟩
    · rw [computation_div] at hc
      exact absurd hc (foldValue_div consts hab rfl hz)
    · rw [stuck]
      trivial
  · refine ⟨op, ho, Machine.not_terminator_of_isValue ho hop, fun w => h.keep f hd _ ?_⟩
    intro v w w' es heff
    obtain ⟨lt, hns, _⟩ := h.fetched f
    rw [Machine.effect_value (i := i.shape) ho hop] at heff
    obtain ⟨v', hv', eq⟩ := Option.map_eq_some_iff.mp heff
    cases eq
    obtain ⟨vs, hvs, hv⟩ := Option.bind_eq_some_iff.mp hv'
    have gives := Gives.computation (o := o) lt (hns.trans (Machine.mapM_id_eq_some.mp hvs)) hv
    exact ⟨_, (fresh v).putValue (Nat.lt_succ_self _) (Function.update_self ..) gives.update⟩

lemma Tracks.constant (ho : i.op = some "const") (ht : i.isTerminator = false)
    (hs : compute o (s.clobber (some d)) (renamed i names) d last none = .ok (s', i')) :
    Mirrors other s' todo e e' i i' "const" := by
  obtain ⟨c, hc, rfl, rfl⟩ := compute_const (j := renamed i names) ho hs
  refine ⟨"const", ho, ht, fun w => h.keep f hd _ fun v _ _ _ heff => ?_⟩
  rw [Machine.effect_const (i := i.shape) ho] at heff
  obtain ⟨v', hv', eq⟩ := Option.map_eq_some_iff.mp heff
  cases eq
  obtain ⟨c', hc', hv⟩ := Option.bind_eq_some_iff.mp hv'
  obtain rfl : c' = c := Option.mem_unique hc' hc
  rw [Val.eq_toDatum hv]
  exact ⟨_, (h.assign_new hd hr hlast rfl).putConst (Nat.lt_succ_self _) (Function.update_self ..)⟩

lemma Tracks.unshared (ho : i.op = some op) (hc : op ≠ "const") (ht : i.isTerminator = false)
    (hs : compute o (s.clobber (some d)) (renamed i names) d last none = .ok (s', i')) :
    Mirrors other s' todo e e' i i' op := by
  obtain ⟨rfl, rfl⟩ := compute_none (j := renamed i names) ho hc hs
  refine ⟨op, ho, ht, fun w => h.keep f hd _ ?_⟩
  intro v _ _ _ _
  exact ⟨_, h.assign_new hd hr hlast rfl⟩

end Assignment

/-- What becomes of an instruction that control passes through does the same. -/
lemma Tracks.step
    (other : Behaviour Val W)
    (h : Tracks s val e e' (i :: todo)) (core : i.Core)
    (plain : ∀ d, i.dest = some d → ¬ Reserved d)
    (hlast : ∀ d, i.dest = some d → (∀ j ∈ todo, j.dest ≠ some d) → last = true)
    (ho : i.op = some op) (ht : i.isTerminator = false) (hs : step o s i last = .ok (s', i')) :
    Mirrors other s' todo e e' i i' op := by
  obtain ⟨ns, names, f, ⟨hd, rfl, rfl⟩ | ⟨d, u, hd, hu, hs⟩⟩ := step_eq_ok hs
  · obtain ⟨_, _, vals⟩ := h.fetched f
    refine ⟨op, ho, ht, fun w => Block.Keeps.of_shape rfl vals (fun _ => ⟨val, h.skip hd⟩) ?_⟩
    intro d d' v w' es hd'
    rw [hd] at hd'
    cases hd'
  · have hr := plain d hd
    have hlast := hlast d hd
    have computed (hn : (renamed i names).args = none ∨ op = "call") :
        compute o (s.clobber (some d)) (renamed i names) d last none = .ok (s', i') := by
      rw [shared_none (j := renamed i names) ho hn] at hu
      cases hu
      obtain ⟨_, _, hu, _⟩ | hs := hs
      · cases hu
      · exact hs
    cases core with
    | label _ hop =>
      rw [ho] at hop
      cases hop
    | const hop _ args =>
      obtain rfl : op = "const" := Option.mem_unique ho hop
      exact h.constant f hd hr hlast ho ht (computed (.inl (by simp [renamed, args])))
    | value name hop isValue =>
      obtain rfl : op = name := Option.mem_unique ho hop
      cases args : i.args with
      | none =>
        have hc : op ≠ "const" := by
          rintro rfl
          exact absurd isValue (by decide)
        exact h.unshared f hd hr hlast ho hc ht (computed (.inl (by simp [renamed, args])))
      | some xs =>
        have hcall : op ≠ "call" := by
          rintro rfl
          exact absurd isValue (by decide)
        rw [shared_some (j := renamed i names) ho hd (by simp [renamed, args]) hcall] at hu
        cases hu
        obtain ⟨u, n, hu, known, hs⟩ | hs := hs
        · cases hu
          exact h.value_known f hd hr ho isValue known hs
        · exact h.value_new f hd hr hlast ho isValue hs
    | call hop =>
      obtain rfl : op = "call" := Option.mem_unique ho hop
      exact h.unshared f hd hr hlast ho (by decide) ht (computed (.inr rfl))
    | effect _ _ _ _ dest =>
      rw [dest] at hd
      cases hd

end Step

section Start

variable {b : Block} {xs : List String}

lemma linked_foldl (plain : ∀ x ∈ xs, ¬ Reserved x) (h : Linked s todo e e) :
    Linked (xs.foldl (fun s x => s.fresh x x) s) todo e e := by
  induction xs generalizing s with
  | nil => exact h
  | cons x xs ih =>
    obtain ⟨val, h⟩ := h
    refine ih (fun y hy => plain y (by simp [hy])) ⟨Function.update val s.numbers.next (e x), ?_⟩
    exact Tracks.fresh (fun y n _ => h.numbers y n) h.homes h.values h.consts h.rest rfl rfl
      fun hr => absurd hr (plain x (by simp))

lemma linked_initial (plain : ∀ i ∈ b, ∀ x ∈ i.uses, ¬ Reserved x)
    (order : xs.Perm (Block.readFirst b)) : Linked (State.initial xs) b e e := by
  refine linked_foldl (s := {}) ?_ ⟨fun _ => none, ?_⟩
  · intro x hx
    obtain ⟨i, hi, hx⟩ := Block.mem_uses_of_readFirst (order.subset hx)
    exact plain i hi x hx
  · exact ⟨nofun, nofun, nofun, nofun, fun _ _ _ => rfl⟩

end Start

section Run

variable {b b' : Block}

lemma steps_cons_eq_ok {rest : List (Instr × Bool)}
    (h : steps o s ((i, last) :: rest) = .ok b') :
    ∃ s' i' c, step o s i last = .ok (s', i') ∧ steps o s' rest = .ok c ∧ b' = i' :: c := by
  obtain ⟨r, hr, h⟩ := of_bind h
  obtain ⟨c, hc, h⟩ := of_bind h
  exact ⟨r.1, r.2, c, hr, hc, (pure_eq_ok.mp h).symm⟩

lemma lastWrites_cons (i : Instr) (todo : Block) : ∃ last,
    lastWrites (i :: todo) = last :: lastWrites todo ∧
      ∀ d, i.dest = some d → (∀ j ∈ todo, j.dest ≠ some d) → last = true := by
  rw [lastWrites]
  cases hd : i.dest with
  | none => exact ⟨false, rfl, nofun⟩
  | some d =>
    refine ⟨_, rfl, ?_⟩
    intro d' hd' free
    cases hd'
    simpa using free

lemma Tracks.exit (h : Tracks s val e e' todo) (f : Fetched s i ns names) :
    Block.leave (.core other) (renamed i names) op e' = Block.leave (.core other) i op e := by
  unfold Block.leave
  rw [(h.fetched f).2.2]
  rfl

/-- The run of instructions and of what becomes of them, from environments that the tables know. -/
lemma steps_resembles
    (ends : ∀ done i rest, todo = done ++ i :: rest → i.isTerminator = true → rest = [])
    (core : ∀ i ∈ todo, i.Core) (plain : ∀ i ∈ todo, ∀ d, i.dest = some d → ¬ Reserved d)
    (h : Linked s todo e e') (hs : steps o s (todo.zip (lastWrites todo)) = .ok b')
    (ok : (Block.run other todo e w).2.Proper) :
    Block.Resembles Reserved (Block.run other todo e w) (Block.run other b' e' w) := by
  induction todo generalizing s e e' b' w with
  | nil =>
    obtain ⟨val, h⟩ := h
    cases hs
    exact ⟨rfl, rfl, rfl, fun x hr => h.rest x hr (by simp)⟩
  | cons i todo ih =>
    obtain ⟨last, marks, hlast⟩ := lastWrites_cons i todo
    rw [marks, zip_cons_cons] at hs
    obtain ⟨s', i', c, hi, hc, rfl⟩ := steps_cons_eq_ok hs
    have rest (e e' : Env Val) (w : W) (h : Linked s' todo e e')
        (ok : (Block.run other todo e w).2.Proper) :
        Block.Resembles Reserved (Block.run other todo e w) (Block.run other c e' w) :=
      ih (fun done j rest eq => ends (i :: done) j rest (by rw [eq]; rfl))
        (fun j hj => core j (by simp [hj])) (fun j hj => plain j (by simp [hj])) h hc ok
    obtain ⟨val, h⟩ := h
    have hcore : i.Core := core i (by simp)
    cases ho : i.op with
    | none =>
      -- a label stays as it is
      obtain ⟨hd, args⟩ := hcore.of_not_op ho
      obtain ⟨ns, names, _, ⟨_, rfl, rfl⟩ | ⟨d, _, hd', _⟩⟩ := step_eq_ok hi
      · rw [renamed_eq_self args]
        exact Block.resembles_label ho (rest e e' w ⟨val, h.skip hd⟩) ok
      · rw [hd] at hd'
        cases hd'
    | some op =>
      cases ht : i.isTerminator with
      | false =>
        obtain ⟨op', ho', ht', keeps⟩ := h.step other hcore (plain i (by simp)) hlast ho ht hi
        exact Block.resembles_of_keeps ho ht ho' ht' (keeps w) rest ok
      | true =>
        -- control leaves with the instruction, the last one of the block
        have hd := hcore.dest_of_terminator ht
        obtain rfl := ends [] i todo rfl ht
        obtain ⟨ns, names, f, ⟨_, rfl, rfl⟩ | ⟨d, _, hd', _⟩⟩ := step_eq_ok hi
        · exact Block.resembles_exit ho ht ho ht (h.exit f)
            (fun x hr => h.rest x hr (by simp [hd])) ok
        · rw [hd] at hd'
          cases hd'

/-- A sum that is computed twice, and a product of constants in a variable that is assigned again. -/
def sums : Block :=
  [{ op := some "add", dest := some "a", args := some ["x", "y"] },
    { op := some "const", dest := some "b", value := some (.int 2) },
    { op := some "const", dest := some "c", value := some (.int 3) },
    { op := some "mul", dest := some "b", args := some ["b", "c"] },
    { op := some "add", dest := some "x", args := some ["x", "y"] },
    { op := some "print", args := some ["x", "b"] },
    { op := some "ret", args := some ["a"] }]

def summands : Env Val :=
  Env.set (Env.set (fun _ => none) "x" (some (.int 1))) "y" (some (.int 2))

/-- A disjunction of a number with a constant that decides it. -/
def decided : Block := [Sample.truth "c" true, Sample.compute .bool "or" "y" ["x", "c"]]

end Run

end ValueNumbering

end BrilKit
