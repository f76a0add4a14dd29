import BrilKit.Proofs.Run.Block
import BrilKit.Proofs.ValueNumbering.Computation

/-!
# What the tables of local value numbering say of runs

While a block is rewritten, its run and the run of what it becomes go side by side. Here are the
changes of tables and environments that keep this up, and the ways in which one instruction is
rewritten.
-/

namespace BrilKit

open List Outcome

namespace ValueNumbering

open Machine (Env)
open CoreOp

/-- The variable for the value of a number whose own variable is assigned again. -/
def numbered (n : Nat) : String := "lvn." ++ toString n

/-- The name begins like the variables for the values of numbers. -/
def Reserved (x : String) : Prop := "lvn.".toList <+: x.toList

instance (x : String) : Decidable (Reserved x) :=
  inferInstanceAs (Decidable ("lvn.".toList <+: x.toList))

lemma reserved_numbered (n : Nat) : Reserved (numbered n) := by simp [Reserved, numbered]

lemma numbered_inj {m n : Nat} (h : numbered m = numbered n) : m = n :=
  toString_nat_inj ((String.append_right_inj "lvn.").mp h)

/-- The variables hold a value; those with the name of a number have a number in use. -/
structure Holds (next : Nat) (e : Env Val) (v : Option Val) (xs : List String) :
    Prop where
  nodup : xs.Nodup
  value : ∀ x ∈ xs, e x = v
  named : ∀ x ∈ xs, Reserved x → ∃ k < next, x = numbered k

/-- The computation gives the value, from the values of numbers in use. -/
def Gives (next : Nat) (val : Nat → Option Val) (u : Value) (v : Val) : Prop :=
  (∀ m ∈ u.args, m < next) ∧ ∃ vs, u.args.map val = vs.map some ∧ eval u.op vs = some v

/-- The tables tell the truth of two environments, that of the block and that of the block it
becomes, before the instructions that are still to do. -/
structure Tracks (s : State) (val : Nat → Option Val) (e e' : Env Val)
    (todo : Block) : Prop where
  numbers : ∀ x n, s.numbers.table.get? x = some n → n < s.numbers.next ∧ e x = val n
  homes : ∀ n xs, s.homes.get? n = some xs → n < s.numbers.next ∧ Holds s.numbers.next e' (val n) xs
  values : ∀ u n, s.values.get? u = some n → n < s.numbers.next ∧
    ∃ v, val n = some v ∧ Gives s.numbers.next val u v
  consts : ∀ n c, s.consts.get? n = some c → n < s.numbers.next ∧
    ∃ v, val n = some v ∧ c = v.toDatum
  rest : ∀ x, ¬ Reserved x → (∀ j ∈ todo, j.dest ≠ some x) → e x = e' x

section Holds

variable {next next' : Nat} {e : Env Val} {v w : Option Val} {x : String}
  {xs : List String}

lemma Holds.mono (h : Holds next e v xs) (le : next ≤ next') : Holds next' e v xs where
  nodup := h.nodup
  value := h.value
  named y hy hr := by
    obtain ⟨k, hk, e⟩ := h.named y hy hr
    exact ⟨k, by omega, e⟩

lemma Holds.set (h : Holds next e v xs) (hx : x ∉ xs) : Holds next (e.set x w) v xs where
  nodup := h.nodup
  value y hy := by
    have ne : y ≠ x := by
      rintro rfl
      exact hx hy
    rw [Env.set_other ne, h.value y hy]
  named := h.named

lemma Holds.erase (h : Holds next e v xs) : Holds next e v (xs.erase x) where
  nodup := h.nodup.erase x
  value y hy := h.value y (mem_of_mem_erase hy)
  named y hy := h.named y (mem_of_mem_erase hy)

lemma Holds.concat (h : Holds next e v xs) (hx : x ∉ xs) (hv : e x = v) (hr : ¬ Reserved x) :
    Holds next e v (xs ++ [x]) where
  nodup := by
    rw [← concat_eq_append]
    exact h.nodup.concat hx
  value y hy := by
    obtain hy | rfl := by simpa using hy
    · exact h.value y hy
    · exact hv
  named y hy hy' := by
    obtain hy | rfl := by simpa using hy
    · exact h.named y hy hy'
    · exact absurd hy' hr

end Holds

/-- The state in which a variable has a number of its own, at home in a variable. -/
def State.fresh (s : State) (x home : String) : State :=
  { s with numbers := (s.numbers.add x).2, homes := s.homes.put s.numbers.next [home] }

section Tracks

variable {s : State} {val : Nat → Option Val} {e e' : Env Val} {i : Instr}
  {todo : Block} {d home x : String} {n : Nat} {v : Option Val} {u : Value}
  {w : Val}

lemma Gives.update (h : Gives n val u w) : Gives (n + 1) (Function.update val n v) u w := by
  obtain ⟨lt, vs, hvs, hw⟩ := h
  refine ⟨fun m hm => Nat.lt_succ_of_lt (lt m hm), vs, ?_, hw⟩
  rw [← hvs]
  exact map_congr_left fun m hm => Function.update_of_ne (Nat.ne_of_lt (lt m hm)) _ _

lemma update_of_lt {m : Nat} (lt : m < n) : Function.update val n v m = val m :=
  Function.update_of_ne (Nat.ne_of_lt lt) _ _

/-- A variable gets a number of its own. Nothing has to be known of its old number. -/
lemma Tracks.fresh
    (numbers : ∀ y n, y ≠ x → s.numbers.table.get? y = some n → n < s.numbers.next ∧ e y = val n)
    (homes : ∀ n xs, s.homes.get? n = some xs →
      n < s.numbers.next ∧ Holds s.numbers.next e' (val n) xs)
    (values : ∀ u n, s.values.get? u = some n → n < s.numbers.next ∧
      ∃ v, val n = some v ∧ Gives s.numbers.next val u v)
    (consts : ∀ n c, s.consts.get? n = some c → n < s.numbers.next ∧
      ∃ v, val n = some v ∧ c = v.toDatum)
    (rest : ∀ x, ¬ Reserved x → (∀ j ∈ todo, j.dest ≠ some x) → e x = e' x)
    (hx : e x = v) (hv : e' home = v) (named : Reserved home → home = numbered s.numbers.next) :
    Tracks (s.fresh x home) (Function.update val s.numbers.next v) e e' todo where
  numbers y n hy := by
    change (s.numbers.table.put x s.numbers.next).get? y = some n at hy
    rw [Table.get?_put] at hy
    split at hy
    · next hyx =>
      obtain rfl := Option.some.inj hy
      exact ⟨Nat.lt_succ_self _, by rw [hyx, hx, Function.update_self]⟩
    · next hyx =>
      obtain ⟨lt, hval⟩ := numbers y n hyx hy
      exact ⟨Nat.lt_succ_of_lt lt, by rw [hval, update_of_lt lt]⟩
  homes n xs hn := by
    change (s.homes.put s.numbers.next [home]).get? n = some xs at hn
    rw [Table.get?_put] at hn
    split at hn
    · next hnext =>
      obtain rfl := Option.some.inj hn
      subst hnext
      refine ⟨Nat.lt_succ_self _, by simp, ?_, ?_⟩
      · simpa using hv
      · intro y hy hr
        obtain rfl := mem_singleton.mp hy
        exact ⟨_, Nat.lt_succ_self _, named hr⟩
    · obtain ⟨lt, holds⟩ := homes n xs hn
      rw [update_of_lt lt]
      exact ⟨Nat.lt_succ_of_lt lt, holds.mono (Nat.le_succ _)⟩
  values u n hn := by
    obtain ⟨lt, w, hw, gives⟩ := values u n hn
    exact ⟨Nat.lt_succ_of_lt lt, w, by rw [update_of_lt lt, hw], gives.update⟩
  consts n c hn := by
    obtain ⟨lt, w, hw, hc⟩ := consts n c hn
    exact ⟨Nat.lt_succ_of_lt lt, w, by rw [update_of_lt lt, hw], hc⟩
  rest := rest

lemma Tracks.putValue (h : Tracks s val e e' todo)
    (lt : n < s.numbers.next) (hw : val n = some w) (gives : Gives s.numbers.next val u w) :
    Tracks { s with values := s.values.put u n } val e e' todo where
  numbers := h.numbers
  homes := h.homes
  values u' n' hn := by
    rw [Table.get?_put] at hn
    split at hn
    · next hu =>
      obtain rfl := Option.some.inj hn
      subst hu
      exact ⟨lt, w, hw, gives⟩
    · exact h.values u' n' hn
  consts := h.consts
  rest := h.rest

lemma Tracks.putConst (h : Tracks s val e e' todo) (lt : n < s.numbers.next)
    (hw : val n = some w) : Tracks { s with consts := s.consts.put n w.toDatum } val e e' todo where
  numbers := h.numbers
  homes := h.homes
  values := h.values
  consts n' c hn := by
    rw [Table.get?_put] at hn
    split at hn
    · next hn' =>
      obtain rfl := Option.some.inj hn
      subst hn'
      exact ⟨lt, w, hw, rfl⟩
    · exact h.consts n' c hn
  rest := h.rest

lemma Tracks.clobber (h : Tracks s val e e' todo) {xs : List String}
    (hn : (s.clobber (some d)).homes.get? n = some xs) :
    n < s.numbers.next ∧ d ∉ xs ∧ Holds s.numbers.next e' (val n) xs := by
  change (s.homes.map fun xs => xs.erase d).get? n = some xs at hn
  rw [Table.get?_map] at hn
  obtain ⟨ys, hys, rfl⟩ := Option.map_eq_some_iff.mp hn
  obtain ⟨lt, holds⟩ := h.homes n ys hys
  exact ⟨lt, holds.nodup.not_mem_erase, holds.erase⟩

lemma Tracks.rest_set (h : Tracks s val e e' (i :: todo)) (hd : i.dest = some d)
    (hdest : (∀ j ∈ todo, j.dest ≠ some d) → home = d) (named : home ≠ d → Reserved home)
    (hr : ¬ Reserved x) (hx : ∀ j ∈ todo, j.dest ≠ some x) : e.set d v x = e'.set home v x := by
  by_cases hxd : x = d
  · subst hxd
    rw [hdest hx, Env.set_same, Env.set_same]
  · have hxh : x ≠ home := by
      rintro rfl
      exact hr (named hxd)
    rw [Env.set_other hxd, Env.set_other hxh]
    refine h.rest x hr (forall_mem_cons.mpr ⟨?_, hx⟩)
    rw [hd]
    simpa using Ne.symm hxd

/-- The result of an instruction gets a number of its own. -/
lemma Tracks.assign_new (h : Tracks s val e e' (i :: todo)) (hd : i.dest = some d)
    (hr : ¬ Reserved d) {last : Bool} (hlast : (∀ j ∈ todo, j.dest ≠ some d) → last = true)
    (hh : home = if last then d else numbered s.numbers.next) :
    Tracks ((s.clobber (some d)).fresh d home) (Function.update val s.numbers.next v) (e.set d v)
      (e'.set home v) todo := by
  have home_cases : home = d ∨ home = numbered s.numbers.next := by
    rw [hh]
    cases last with
    | true => exact .inl rfl
    | false => exact .inr rfl
  refine Tracks.fresh (s := s.clobber (some d)) ?_ ?_ h.values h.consts ?_ (Env.set_same ..)
    (Env.set_same ..) ?_
  · intro y n hy hn
    obtain ⟨lt, hval⟩ := h.numbers y n hn
    exact ⟨lt, by rw [Env.set_other hy, hval]⟩
  · intro n xs hn
    obtain ⟨lt, free, holds⟩ := h.clobber hn
    refine ⟨lt, holds.set ?_⟩
    obtain rfl | rfl := home_cases
    · exact free
    · intro mem
      obtain ⟨k, hk, e⟩ := holds.named _ mem (reserved_numbered _)
      exact absurd (numbered_inj e) (by omega)
  · intro x hrx hx
    refine h.rest_set hd (fun none => ?_) ?_ hrx hx
    · rw [hh, hlast none, if_pos rfl]
    · intro hne
      rw [home_cases.resolve_left hne]
      exact reserved_numbered _
  · intro hrh
    exact home_cases.resolve_left fun e => hr (e ▸ hrh)

lemma Tracks.assign_known (h : Tracks s val e e' (i :: todo)) (hd : i.dest = some d)
    (lt : n < s.numbers.next) (hv : val n = v) :
    Tracks { s.clobber (some d) with
        numbers := { s.numbers with table := s.numbers.table.put d n } }
      val (e.set d v) (e'.set d v) todo where
  numbers x m hx := by
    rw [Table.get?_put] at hx
    split at hx
    · next hxd =>
      obtain rfl := Option.some.inj hx
      exact ⟨lt, by rw [hxd, Env.set_same, hv]⟩
    · next hxd =>
      obtain ⟨lt, hval⟩ := h.numbers x m hx
      exact ⟨lt, by rw [Env.set_other hxd, hval]⟩
  homes m xs hm := by
    obtain ⟨lt, free, holds⟩ := h.clobber hm
    exact ⟨lt, holds.set free⟩
  values := h.values
  consts := h.consts
  rest _ hrx hx := h.rest_set hd (fun _ => rfl) (fun hne => absurd rfl hne) hrx hx

lemma Tracks.addHome (h : Tracks s val e e' todo) (hr : ¬ Reserved d) (lt : n < s.numbers.next)
    (hv : e' d = val n) (free : ∀ m xs, s.homes.get? m = some xs → d ∉ xs) :
    Tracks { s with homes := s.homes.alter n fun xs => xs.getD [] ++ [d] } val e e' todo where
  numbers := h.numbers
  homes m xs hm := by
    rw [Table.alter, Table.get?_put] at hm
    split at hm
    · next hmn =>
      obtain rfl := Option.some.inj hm
      subst hmn
      refine ⟨lt, ?_⟩
      cases hxs : s.homes.get? m with
      | none => exact ⟨by simp, by simpa using hv, by simpa using fun hr' => absurd hr' hr⟩
      | some ys => exact (h.homes m ys hxs).2.concat (free m ys hxs) hv hr
    · exact h.homes m xs hm
  values := h.values
  consts := h.consts
  rest := h.rest

end Tracks

section Rewriting

variable {o : Options} {s s' : State} {j j' : Instr} {d : String} {last : Bool} {n : Nat}
  {u : Value} {ns : List Nat}

lemma home_eq_ok {x : String} : s.home n = .ok x ↔ ∃ ys, s.homes.get? n = some (x :: ys) := by
  unfold State.home fetchNumber
  cases s.homes.get? n with
  | none => simp [Outcome.ofOption]
  | some xs =>
    cases xs with
    | nil => simp [Outcome.ofOption]
    | cons y ys => simp [Outcome.ofOption]

/-- The variable in which the result of an instruction is at home. -/
def homeOf (s : State) (d : String) (last : Bool) : String :=
  if last then d else numbered s.numbers.next

lemma reuse_eq_ok (h : reuse s j d n = .ok (s', j')) :
    (∃ c, s.consts.get? n = some c ∧ j' = j.toConst c ∧
        s' = { s with numbers := { s.numbers with table := s.numbers.table.put d n } }) ∨
      ∃ x ys, s.homes.get? n = some (x :: ys) ∧ j' = j.toCopy x ∧
        s' = { s with
          numbers := { s.numbers with table := s.numbers.table.put d n }
          homes := s.homes.alter n fun xs => xs.getD [] ++ [d] } := by
  unfold reuse at h
  dsimp only at h
  split at h
  · next c hc =>
    cases h
    exact .inl ⟨c, hc, rfl, rfl⟩
  · obtain ⟨x, hx, h⟩ := of_bind h
    cases pure_eq_ok.mp h
    obtain ⟨ys, hys⟩ := home_eq_ok.mp hx
    exact .inr ⟨x, ys, hys, rfl, rfl⟩

lemma compute_const (ho : j.op = some "const") (h : compute o s j d last none = .ok (s', j')) :
    ∃ c, j.value = some c ∧ j' = { j with dest := some (homeOf s d last) } ∧
      s' = { s.fresh d (homeOf s d last) with consts := s.consts.put s.numbers.next c } := by
  have hop : j.getOp = .ok "const" := ofOption_eq_ok.mpr ho
  cases hc : j.getValue with
  | error f => simp [compute, hop, hc] at h
  | ok c =>
    simp only [compute, hop, hc, beq_self_eq_true, if_true, Except.ok.injEq, bind_ok, pure_eq] at h
    obtain ⟨rfl, rfl⟩ := h
    exact ⟨c, ofOption_eq_ok.mp hc, rfl, rfl⟩

lemma compute_none {op : String} (ho : j.op = some op) (hc : op ≠ "const")
    (h : compute o s j d last none = .ok (s', j')) :
    j' = { j with dest := some (homeOf s d last) } ∧ s' = s.fresh d (homeOf s d last) := by
  have hop : j.getOp = .ok op := ofOption_eq_ok.mpr ho
  simp only [compute, hop, beq_eq_false_iff_ne.mpr hc,
    Bool.false_eq_true, if_false, Except.ok.injEq, bind_ok, pure_eq] at h
  obtain ⟨rfl, rfl⟩ := h
  exact ⟨rfl, rfl⟩

lemma compute_some {op : String} (ho : j.op = some op) (hc : op ≠ "const")
    (h : compute o s j d last (some u) = .ok (s', j')) :
    (∃ c, foldValue s.consts u = .ok (some c) ∧
        j' = ({ j with dest := some (homeOf s d last) } : Instr).toConst c ∧
        s' = { s.fresh d (homeOf s d last) with consts := s.consts.put s.numbers.next c }) ∨
      j' = { j with dest := some (homeOf s d last) } ∧
        s' = { s.fresh d (homeOf s d last) with values := s.values.put u s.numbers.next } := by
  have hop : j.getOp = .ok op := ofOption_eq_ok.mpr ho
  simp only [compute, hop, beq_eq_false_iff_ne.mpr hc,
    Bool.false_eq_true, if_false, bind_ok, pure_eq] at h
  split at h
  · cases hf : foldValue s.consts u with
    | error f =>
      rw [hf] at h
      cases h
    | ok r =>
      rw [hf] at h
      cases r with
      | some c =>
        cases h
        exact .inl ⟨c, rfl, rfl, rfl⟩
      | none =>
        cases h
        exact .inr ⟨rfl, rfl⟩
  · cases h
    exact .inr ⟨rfl, rfl⟩

def renamed (i : Instr) (names : List String) : Instr := { i with args := i.args.map fun _ => names }

lemma renamed_eq_self {i : Instr} {names : List String} (h : i.args = none) :
    renamed i names = i := by
  unfold renamed
  rw [h, Option.map_none, ← h]

/-- The computation under which the value of an instruction is looked up. -/
def computation (o : Options) (op : String) (numbers : List Nat) : Value :=
  if o.canon then canonical ⟨op, numbers⟩ else ⟨op, numbers⟩

/-- What is looked up before an instruction is rewritten: the numbers of its operands and the first
homes of these numbers. -/
structure Fetched (s : State) (i : Instr) (ns : List Nat) (names : List String) : Prop where
  numbers : Forall₂ (fun x n => s.numbers.table.get? x = some n) i.uses ns
  homes : Forall₂ (fun n y => ∃ ys, s.homes.get? n = some (y :: ys)) ns names

variable {i i' : Instr} {op : String}

lemma step_eq_ok (h : step o s i last = .ok (s', i')) : ∃ ns names, Fetched s i ns names ∧
    ((i.dest = none ∧ s' = s ∧ i' = renamed i names) ∨
      ∃ d v, i.dest = some d ∧ shared o (renamed i names) ns = .ok v ∧
        ((∃ u n, v = some u ∧ lookUp o.prop s.values u = .ok (some n) ∧
            reuse (s.clobber (some d)) (renamed i names) d n = .ok (s', i')) ∨
          compute o (s.clobber (some d)) (renamed i names) d last v = .ok (s', i'))) := by
  obtain ⟨ns, hns, h⟩ := of_bind h
  obtain ⟨names, hnames, h⟩ := of_bind h
  obtain ⟨v, hv, h⟩ := of_bind h
  have fetched : Fetched s i ns names :=
    ⟨(mapM_eq_ok.mp hns).imp fun _ _ => Table.fetch_eq_ok.mp,
      (mapM_eq_ok.mp hnames).imp fun _ _ => home_eq_ok.mp⟩
  refine ⟨ns, names, fetched, ?_⟩
  split at h
  · next hd =>
    obtain ⟨rfl, rfl⟩ := Prod.mk.inj (pure_eq_ok.mp h)
    have hd : i.dest = none := hd
    exact .inl ⟨hd, by simp [State.clobber, hd], rfl⟩
  · next d hd =>
    refine .inr ⟨d, v, hd, hv, ?_⟩
    have clobbers : s.clobber i.dest = s.clobber (some d) := by rw [hd]
    cases v with
    | none =>
      rw [← clobbers]
      exact .inr h
    | some u =>
      obtain ⟨known, hknown, h⟩ := of_bind h
      rw [← clobbers]
      cases known with
      | none => exact .inr h
      | some n =>
        refine .inl ⟨u, n, rfl, ?_, h⟩
        rw [clobbers] at hknown
        exact hknown

lemma shared_none (ho : j.op = some op) (hn : j.args = none ∨ op = "call") :
    shared o j ns = .ok none := by
  have hop : j.getOp = .ok op := ofOption_eq_ok.mpr ho
  obtain ha | rfl := hn
  · simp [shared, ha]
  · cases hc : j.dest.isSome && j.args.isSome <;>
      simp [shared, hop]

lemma shared_some (ho : j.op = some op) (hd : j.dest = some d) (ha : j.args.isSome = true)
    (hc : op ≠ "call") : shared o j ns = .ok (some (computation o op ns)) := by
  have hop : j.getOp = .ok op := ofOption_eq_ok.mpr ho
  simp [shared, hop, hd, ha, hc, computation]

lemma lookUp_eq_some {p : Bool} {values : Table Value Nat} (h : lookUp p values u = .ok (some n)) :
    (u.op = "id" ∧ u.args[0]? = some n) ∨ values.get? u = some n := by
  unfold lookUp at h
  split at h
  · next hp =>
    obtain ⟨m, hm, h⟩ := of_bind h
    cases pure_eq_ok.mp h
    exact .inl ⟨by simpa using (Bool.and_eq_true_iff.mp hp).2, itemAt_eq_ok.mp hm⟩
  · exact .inr (Except.ok.inj h)

end Rewriting

section Sound

variable {o : Options} {s : State} {val : Nat → Option Val} {e e' : Env Val}
  {i : Instr} {todo : Block} {op : String} {ns : List Nat} {names : List String} {n : Nat}
  {u : Value} {v w : Val} {vs : List Val}

lemma Gives.unique {next next' : Nat} (h : Gives next val u v) (h' : Gives next' val u w) :
    v = w := by
  obtain ⟨_, vs, hvs, hv⟩ := h
  obtain ⟨_, ws, hws, hw⟩ := h'
  obtain rfl : vs = ws := map_injective_iff.mpr (fun _ _ => Option.some.inj) (hvs.symm.trans hws)
  exact Option.mem_unique hv hw

lemma Gives.computation {next : Nat} (lt : ∀ m ∈ ns, m < next) (hvs : ns.map val = vs.map some)
    (hv : eval op vs = some v) : Gives next val (computation o op ns) v := by
  unfold ValueNumbering.computation
  split
  · obtain ⟨ws, hws, hw⟩ := canonical_eval (u := ⟨op, ns⟩) hvs hv
    exact ⟨fun m hm => lt m (mem_canonical_args.mp hm), ws, hws, hw⟩
  · exact ⟨lt, vs, hvs, hv⟩

lemma Tracks.known (h : Tracks s val e e' todo) {p : Bool}
    (hu : lookUp p s.values u = .ok (some n)) (gives : Gives s.numbers.next val u v) :
    n < s.numbers.next ∧ val n = some v := by
  obtain ⟨copy, hn⟩ | hn := lookUp_eq_some hu
  · obtain ⟨lt, vs, hvs, hv⟩ := gives
    refine ⟨lt n (mem_of_getElem? hn), ?_⟩
    obtain rfl : vs = [v] := by
      unfold eval copyOr at hv
      rw [if_pos copy] at hv
      split at hv
      · cases hv
        rfl
      · cases hv
    have first := congrArg (fun l => l[0]?) hvs
    simpa [hn] using first
  · obtain ⟨lt, w, hw, gives'⟩ := h.values u n hn
    exact ⟨lt, by rw [hw, gives.unique gives']⟩

lemma Tracks.fetched (h : Tracks s val e e' todo) (f : Fetched s i ns names) :
    (∀ m ∈ ns, m < s.numbers.next) ∧ ns.map val = i.uses.map e ∧
      (renamed i names).uses.map e' = i.uses.map e := by
  have numbers : ns.map val = i.uses.map e ∧ ∀ m ∈ ns, m < s.numbers.next := by
    have all := f.numbers
    generalize i.uses = xs at all
    clear f
    induction all with
    | nil => simp
    | @cons x n xs ns hx _ ih =>
      obtain ⟨lt, hval⟩ := h.numbers x n hx
      exact ⟨by simp [hval, ih.1], forall_mem_cons.mpr ⟨lt, ih.2⟩⟩
  have homes : names.map e' = ns.map val := by
    have all := f.homes
    clear numbers f
    induction all with
    | nil => rfl
    | @cons n y ns names hn _ ih =>
      obtain ⟨ys, hys⟩ := hn
      rw [map_cons, map_cons, ih, (h.homes n _ hys).2.value y (by simp)]
  refine ⟨numbers.2, numbers.1, ?_⟩
  cases ha : i.args with
  | none => simp [renamed, Instr.uses, ha]
  | some xs =>
    have uses : (renamed i names).uses = names := by simp [renamed, Instr.uses, ha]
    rw [uses, homes, numbers.1]

end Sound

end ValueNumbering

end BrilKit
