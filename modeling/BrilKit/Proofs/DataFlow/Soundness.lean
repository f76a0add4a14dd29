import BrilKit.Proofs.Block.Terminated
import BrilKit.Proofs.DataFlow.Constants
import BrilKit.Proofs.Run.Speculation

/-!
# Known constants along runs

What the analysis of constants knows at a place is true of every run that comes there: a variable
that has a value has the one that is known. `Known` is the invariant of a run, kept by one step in
`Known.step` and by all in `Known.steps`; `Monotyped.accounts` shows that a solution satisfies it.
-/

namespace BrilKit

open List Outcome Table

namespace Analysis

open Machine Block

variable {V W : Type} {M : Meaning V W} {den : Datum → Option V}

/-- The machine gives constants the values that they stand for. -/
def Denotes (M : Meaning V W) (den : Datum → Option V) : Prop :=
  ∀ i os w v w', i.op = some "const" → M.act i os w = some (some v, w') → i.value.bind den = some v

/-- What is known is true: a variable with a value is known to have this one, or known to have none
that is known. -/
def Describes (den : Datum → Option V) (known : Table String Datum) (env : Env V) : Prop :=
  ∀ x v, env x = some v → ∃ d, known.get? x = some d ∧ (d ≠ unknown → den d = some v)

section Describes

variable {known known' : Table String Datum} {env env' : Env V} {i : Instr}

lemma Describes.rises (h : Describes den known env) (up : Rises known known') :
    Describes den known' env := by
  intro x v hv
  obtain ⟨d, hd, is⟩ := h x v hv
  have above := up x
  rw [hd] at above
  generalize hq : known'.get? x = q at above
  cases above with
  | refl => exact ⟨d, rfl, is⟩
  | unknown => exact ⟨unknown, rfl, fun ne => absurd rfl ne⟩

lemma Describes.passed (h : Describes den known env) (hc : i.op ≠ some "const")
    (step : constStep known i = .ok known') : Describes den known' env := by
  obtain ⟨-, rfl⟩ | ⟨x, d, notes, rfl⟩ := constStep_eq_ok.mp step
  · exact h
  · apply h.rises
    intro y
    by_cases hy : y = x
    · subst hy
      obtain ⟨ho, -⟩ | ⟨-, rfl⟩ := notes.2
      · exact absurd ho hc
      · rw [get?_put_same]
        exact .unknown
    · rw [get?_put_other hy]
      exact .refl

/-- One instruction of a run is one step of the analysis. -/
lemma Describes.assigns (hM : Denotes M den) (h : Describes den known env)
    (goes : Assigns M i env env') (ho : i.isOp = true) (step : constStep known i = .ok known') :
    Describes den known' env' := by
  obtain ⟨rfl, idle⟩ | ⟨x, v, -, hx, rfl, const⟩ := goes
  · have hd : i.dest = none := idle.resolve_left fun e => by simp [Instr.isOp, e] at ho
    obtain ⟨-, rfl⟩ | ⟨x, d, notes, -⟩ := constStep_eq_ok.mp step
    · exact h
    · exact absurd (hd.symm.trans notes.1) (by simp)
  · obtain ⟨hd, -⟩ | ⟨y, d, notes, rfl⟩ := constStep_eq_ok.mp step
    · exact absurd (hd.symm.trans hx) (by simp)
    · obtain rfl : x = y := Option.mem_unique hx notes.1
      intro y u hu
      by_cases hy : y = x
      · subst hy
        rw [Env.set_same] at hu
        subst hu
        refine ⟨d, get?_put_same, fun ne => ?_⟩
        obtain ⟨hc, hv⟩ | ⟨-, rfl⟩ := notes.2
        · obtain ⟨os, w, w', act⟩ := const hc
          have den := hM i.shape os w u w' hc act
          rwa [show i.shape.value = i.value from rfl, hv] at den
        · exact absurd rfl ne
      · rw [Env.set_other hy] at hu
        rw [get?_put_other hy]
        exact h y u hu

end Describes

section Run

variable {bs : List Block} {facts : Nat → Table String Datum} {known out start : Table String Datum}
variable {s t u : Machine.State V W} {es : List (Event V)} {b c : Block} {i : Instr} {k q j n : Nat}

def Reaches (b : Block) (j : Nat) (start known : Table String Datum) : Prop :=
  ((b.take j).filter Instr.isOp).foldlM constStep start = .ok known

lemma reaches_zero : Reaches b 0 start known ↔ start = known := by
  rw [Reaches, take_zero, filter_nil, foldlM_nil_eq_ok]

lemma reaches_succ (hi : b[j]? = some i) :
    Reaches b (j + 1) start out ↔ ∃ known, Reaches b j start known ∧
      if i.isOp then constStep known i = .ok out else known = out := by
  have here : b.take (j + 1) = b.take j ++ [i] := by
    rw [take_add_one, hi]
    rfl
  rw [Reaches, here, filter_append, foldlM_append, bind_eq_ok]
  refine exists_congr fun known => and_congr_right fun _ => ?_
  cases ho : i.isOp with
  | true => simp [ho, bind_eq_ok]
  | false => simp [ho]

/-- Facts for the start of every block that are kept along the flow: each block can be gone through,
and what is known at its end rises to what is known wherever control passes from there. -/
structure Accounts (bs : List Block) (facts : Nat → Table String Datum) : Prop where
  through : ∀ k b, bs[k]? = some b → ∃ out, Reaches b b.length (facts k) out
  falls : ∀ k b c out, bs[k]? = some b → bs[k + 1]? = some c → Ended b = false →
    Reaches b b.length (facts k) out → Rises out (facts (k + 1))
  jumps : ∀ k q b c i a l out, bs[k]? = some b → b.getLast? = some i → i.Branches →
    l ∈ i.labels.getD [] → bs[q]? = some c → c.head? = some a → a.label = some l →
    Reaches b b.length (facts k) out → Rises out (facts q)

/-- A state at a position of a run, with what is known there. -/
structure KnownAt (bs : List Block) (facts : Nat → Table String Datum) (den : Datum → Option V)
    (k j : Nat) (s : Machine.State V W) : Prop where
  rest : s.rest = ahead bs k j
  known : ∃ b known, bs[k]? = some b ∧ Reaches b j (facts k) known ∧ Describes den known s.env

lemma exists_reaches (j : Nat) (h : Reaches b b.length start out) :
    ∃ known, Reaches b j start known := by
  have parts : b.filter Instr.isOp =
      (b.take j).filter Instr.isOp ++ (b.drop j).filter Instr.isOp := by
    rw [← filter_append, List.take_append_drop]
  rw [Reaches, take_length, parts, foldlM_append, bind_eq_ok] at h
  obtain ⟨known, hk, -⟩ := h
  exact ⟨known, hk⟩

section Step

variable (acc : Accounts bs facts) (hb : bs[k]? = some b)
  (h : KnownAt bs facts den k j s)
include acc hb h

lemma KnownAt.next (hi : b[j]? = some i) (rest : t.rest = ahead bs k (j + 1))
    (hM : Denotes M den) (goes : Assigns M i s.env t.env) : KnownAt bs facts den k (j + 1) t := by
  obtain ⟨b', known, hb', reached, describes⟩ := h.known
  obtain rfl := Option.mem_unique hb hb'
  obtain ⟨out, hout⟩ := acc.through k b hb
  obtain ⟨known', hk'⟩ := exists_reaches (j + 1) hout
  refine ⟨rest, b, known', hb, hk', ?_⟩
  obtain ⟨before, hbefore, step⟩ := (reaches_succ hi).mp hk'
  obtain rfl := Except.ok.inj (reached.symm.trans hbefore)
  cases ho : i.isOp with
  | true =>
    simp only [ho] at step
    exact describes.assigns hM goes ho step
  | false =>
    simp only [ho, Bool.false_eq_true] at step
    subst step
    obtain ⟨e, -⟩ | ⟨_, _, op, -⟩ := goes
    · exact e ▸ describes
    · rw [ho] at op
      cases op

lemma KnownAt.fall (hj : j = b.length) (hc : bs[k + 1]? = some c) (open_ : Ended b = false) :
    KnownAt bs facts den (k + 1) 0 s := by
  obtain ⟨b', known, hb', reached, describes⟩ := h.known
  obtain rfl := Option.mem_unique hb hb'
  subst hj
  refine ⟨h.rest.trans (ahead_length hb), c, _, hc, reaches_zero.mpr rfl, ?_⟩
  exact describes.rises (acc.falls k b c known hb hc open_ reached)

lemma KnownAt.atEnd (hi : b[j]? = some i) (hj : b.length = j + 1) (ht : i.isTerminator = true) :
    ∃ out, Reaches b b.length (facts k) out ∧ Describes den out s.env := by
  obtain ⟨b', known, hb', reached, describes⟩ := h.known
  obtain rfl := Option.mem_unique hb hb'
  obtain ⟨out, hout⟩ := acc.through k b hb
  refine ⟨out, hout, ?_⟩
  rw [hj] at hout
  obtain ⟨before, hbefore, step⟩ := (reaches_succ hi).mp hout
  obtain rfl := Except.ok.inj (reached.symm.trans hbefore)
  cases ho : i.op with
  | none => simp [Instr.isTerminator, ho] at ht
  | some op =>
    have isOp : i.isOp = true := by simp [Instr.isOp, ho]
    simp only [isOp, if_true] at step
    refine describes.passed ?_ step
    intro hc
    simp [Instr.isTerminator, hc, terminators] at ht

end Step

def Known (bs : List Block) (facts : Nat → Table String Datum) (den : Datum → Option V)
    (s : Machine.State V W) : Prop :=
  ∃ k b j, bs[k]? = some b ∧ j < b.length ∧ KnownAt bs facts den k j s

variable (cut : ∀ b ∈ bs, WellCut b) (acc : Accounts bs facts) (hM : Denotes M den)
include cut acc hM

/-- A step keeps true what is known, or leaves the body. -/
lemma Known.step (tails : ∀ b ∈ bs, ∀ i ∈ b.tail, i.label = none) (h : Known bs facts den s)
    (st : step M bs.flatten s = .go t es) : Known bs facts den t ∨ t.rest = [] := by
  obtain ⟨k, b, j, hb, hj, at_⟩ := h
  obtain ⟨i, hi⟩ : ∃ i, b[j]? = some i := ⟨_, getElem?_eq_getElem hj⟩
  have wc := cut b (mem_of_getElem? hb)
  obtain ⟨ht, rest, goes⟩ | ⟨br, -, env, l, hl, a, r, drop, rest⟩ :=
    step_cases (at_.rest.trans (ahead_cons hb hi)) st
  · have next := at_.next acc hb hi rest hM goes
    by_cases more : j + 1 < b.length
    · exact .inl ⟨k, b, j + 1, hb, more, next⟩
    · have end_ : j + 1 = b.length := by omega
      have open_ : Ended b = false := by
        rw [Ended, getLast?_eq_getElem?, ← end_, Nat.add_sub_cancel, hi, Option.any_some, ht]
      cases hc : bs[k + 1]? with
      | none =>
        right
        rw [rest, end_, ahead_length hb, ahead_eq_nil hc]
      | some c =>
        refine .inl ⟨k + 1, c, 0, hc, ?_, next.fall acc hb end_ hc open_⟩
        exact length_pos_of_ne_nil (cut c (mem_of_getElem? hc)).nonempty
  · have ht := Instr.isTerminator_of_branches br
    have split : b = b.take j ++ i :: b.drop (j + 1) := by
      obtain ⟨_, rfl⟩ := List.getElem?_eq_some_iff.mp hi
      rw [← List.drop_eq_getElem_cons hj, List.take_append_drop]
    have last := wc.ends _ _ _ split ht
    have end_ : b.length = j + 1 := by
      have := drop_eq_nil_iff.mp last
      omega
    have getLast : b.getLast? = some i := by rw [getLast?_eq_getElem?, end_, Nat.add_sub_cancel, hi]
    obtain ⟨q, c, hc, head, label, ahead_⟩ := exists_ahead_of_label tails drop
    obtain ⟨out, hout, describes⟩ := at_.atEnd acc hb hi end_ ht
    refine .inl ⟨q, c, 0, hc, ?_, rest.trans ahead_.symm, c, _, hc, reaches_zero.mpr rfl, ?_⟩
    · exact length_pos_of_ne_nil (cut c (mem_of_getElem? hc)).nonempty
    · rw [env]
      exact describes.rises (acc.jumps k q b c i a l out hb getLast br hl hc head label hout)

lemma Known.steps (tails : ∀ b ∈ bs, ∀ i ∈ b.tail, i.label = none)
    (st : Steps M bs.flatten n s es t) (h : Known bs facts den s ∨ s.rest = []) :
    Known bs facts den t ∨ t.rest = [] := by
  induction st with
  | refl => exact h
  | @head n s t u es fs step _ ih =>
    obtain h | h := h
    · exact ih (h.step cut acc hM tails step)
    · simp [Machine.step, h] at step

omit acc hM in
/-- At the start nothing is known and nothing has a value. -/
lemma known_start {f : Func} {args : List V} {world : W} (closed : f.params = [])
    (body : bs.flatten = f.instrs.getD []) :
    Known bs facts den (f.start args world) ∨ (f.start args world).rest = [] := by
  cases bs with
  | nil => exact .inr body.symm
  | cons b bs =>
    have ne := (cut b mem_cons_self).nonempty
    refine .inl ⟨0, b, 0, rfl, length_pos_of_ne_nil ne, body.symm, b, _, rfl,
      reaches_zero.mpr rfl, fun x v hv => ?_⟩
    have none : bindParams f.params args x = none := bindParams_eq_none args (by simp [closed])
    exact absurd (none.symm.trans hv) (by simp)

omit acc hM in
/-- Control that comes to the start of a block is at the position of this start. -/
lemma Known.atStart (h : Known bs facts den s ∨ s.rest = []) (hb : bs[k]? = some b)
    (rest : s.rest = ahead bs k 0) : KnownAt bs facts den k 0 s := by
  obtain ⟨k', b', j, hb', hj, at_⟩ | nil := h
  · obtain ⟨rfl, rfl⟩ := start_of_ahead (fun b hb => (cut b hb).nonempty) hb' hj hb
      (at_.rest.symm.trans rest)
    exact at_
  · obtain ⟨i, r, rfl⟩ := exists_cons_of_ne_nil (cut b (mem_of_getElem? hb)).nonempty
    rw [nil, ahead_cons hb rfl] at rest
    cases rest

omit cut in
lemma KnownAt.steps (hb : bs[k]? = some b) (h : KnownAt bs facts den k j s)
    (st : Steps M bs.flatten n s es t) (room : j + n ≤ b.length)
    (straight : ∀ m i, m < j + n → b[m]? = some i → i.isTerminator = false) :
    KnownAt bs facts den k (j + n) t := by
  induction st generalizing j with
  | refl => exact h
  | @head n s t u es fs step _ ih =>
    obtain ⟨i, hi⟩ : ∃ i, b[j]? = some i := ⟨_, getElem?_eq_getElem (by omega)⟩
    obtain ⟨-, rest, goes⟩ | ⟨br, -⟩ := step_cases (h.rest.trans (ahead_cons hb hi)) step
    · have later := ih (h.next acc hb hi rest hM goes) (by omega) fun m i hm =>
        straight m i (by omega)
      rwa [Nat.add_assoc, Nat.add_comm 1 n] at later
    · have ht := straight j i (by omega) hi
      rw [Instr.isTerminator_of_branches br] at ht
      cases ht

/-- What is known at the end of a block is true when control has gone through the block. -/
lemma KnownAt.finish (hb : bs[k]? = some b) (h : KnownAt bs facts den k 0 s)
    (st : Steps M bs.flatten (b.countP fun i => !i.isTerminator) s es t) :
    ∃ out, Reaches b b.length (facts k) out ∧ Describes den out t.env := by
  have wc := cut b (mem_of_getElem? hb)
  cases he : Ended b with
  | true =>
    obtain ⟨is, last, rfl, ht, straight⟩ := exists_last he wc.ends
    have count : (is ++ [last]).countP (fun i => !i.isTerminator) = is.length := by
      rw [countP_append, countP_eq_length.mpr (by simpa using straight)]
      simp [ht]
    rw [count] at st
    have there := h.steps acc hM hb st (by simp) fun m i hm hi => by
      rw [Nat.zero_add] at hm
      rw [getElem?_append_left hm] at hi
      exact straight i (mem_of_getElem? hi)
    exact there.atEnd acc hb (by simp) (by simp) ht
  | false =>
    have straight : ∀ i ∈ b, i.isTerminator = false := by
      intro i hi
      by_contra ht
      obtain ⟨done, todo, rfl⟩ := append_of_mem hi
      obtain rfl := wc.ends done i todo rfl (by simpa using ht)
      simp [Ended, ht] at he
    rw [countP_eq_length.mpr (by simpa using straight)] at st
    have there := h.steps acc hM hb st (by simp) fun m i _ hi => straight i (mem_of_getElem? hi)
    obtain ⟨b', known, hb', reached, describes⟩ := there.known
    obtain rfl := Option.mem_unique hb hb'
    exact ⟨known, by simpa using reached, describes⟩

end Run

/-- A body in which every variable has one type and every constant is a whole number or a truth
value. Its blocks all get names of their own. -/
structure Monotyped (is : List Instr) : Prop where
  items : ∀ i ∈ is, i.IsItem
  named : (NamedBlocks.ofBody is).size = (Block.split is).length
  typed : ∃ type : String → Ty, ∀ i ∈ is, ∀ x, i.dest = some x → i.type = some (type x)
  consts : ∀ i ∈ is, i.op = some "const" →
    (i.type = some (.name "int") ∧ ∃ n, i.value = some (.int n)) ∨
    (i.type = some (.name "bool") ∧ ∃ b, i.value = some (.bool b))

section Monotyped

variable {is : List Instr} {t : NamedBlocks} {ns : List String} {preds : FlowMap}
variable {before behind : Table String (Table String Datum)}

/-- A constant that the body assigns to the variable, or none that is known. -/
def Suited (is : List Instr) (t : NamedBlocks) (x : String) (d : Datum) : Prop :=
  x ∈ namesIn t ∧ (d = unknown ∨ ∃ i ∈ is, i.dest = some x ∧ i.op = some "const" ∧ i.value = some d)

lemma Monotyped.kinds (mt : Monotyped is) : Kinds (namesIn t) (Suited is t) where
  named _ _ h := h.1
  free _ h := ⟨h, .inl rfl⟩
  alike x d e hd he := by
    obtain ⟨type, typed⟩ := mt.typed
    have fact : ∀ {d}, Suited is t x d →
        d = unknown ∨ type x = .name "int" ∧ IntFact d ∨ type x = .name "bool" ∧ BoolFact d := by
      rintro d ⟨-, rfl | ⟨i, hi, hx, hc, hv⟩⟩
      · exact .inl rfl
      · have ty := typed i hi x hx
        obtain ⟨h, n, hn⟩ | ⟨h, b, hb⟩ := mt.consts i hi hc
        · exact .inr (.inl ⟨Option.mem_unique ty h, .inr ⟨n, by simpa [hv] using hn⟩⟩)
        · exact .inr (.inr ⟨Option.mem_unique ty h, .inr ⟨b, by simpa [hv] using hb⟩⟩)
    obtain rfl | ⟨hi, hd⟩ | ⟨hb, hd⟩ := fact hd
    · obtain rfl | ⟨-, he⟩ | ⟨-, he⟩ := fact he
      · exact .inl ⟨.inl rfl, .inl rfl⟩
      · exact .inl ⟨.inl rfl, he⟩
      · exact .inr ⟨.inl rfl, he⟩
    · obtain rfl | ⟨-, he⟩ | ⟨hb, -⟩ := fact he
      · exact .inl ⟨hd, .inl rfl⟩
      · exact .inl ⟨hd, he⟩
      · exact absurd (hi.symm.trans hb) (by simp)
    · obtain rfl | ⟨hi, -⟩ | ⟨-, he⟩ := fact he
      · exact .inr ⟨hd, .inl rfl⟩
      · exact absurd (hi.symm.trans hb) (by simp)
      · exact .inr ⟨hd, he⟩

lemma Monotyped.reaches_length (mt : Monotyped is) {k : Nat} {b : Block} {start out : Table String Datum}
    (hb : (split is)[k]? = some b) :
    Reaches b b.length start out ↔
      (NamedBlocks.ended ns k b.code).foldlM constStep start = .ok out := by
  have mem := mem_of_getElem? hb
  rw [Reaches, take_length, filter_isOp (wellCut_of_mem_split mem)
    fun i hi => mt.items i (mem_of_mem_split mem hi)]
  unfold NamedBlocks.ended
  split
  · rw [append_nil]
  · have idle : ∀ known, constStep known (NamedBlocks.bridge ns k) = .ok known := by
      intro known
      refine constStep_eq_ok.mpr (.inl ⟨?_, rfl⟩)
      unfold NamedBlocks.bridge
      cases ns[k + 1]? <;> rfl
    rw [foldlM_append, bind_eq_ok]
    simp [idle]

variable (mt : Monotyped is) (tm : NamedBlocks.Terminated (split is) t ns)
include mt tm

lemma Monotyped.tells {n : String} {b : Block} (hb : t.get? n = some b) {i : Instr} (hi : i ∈ b) :
    Tells (Suited is t) i := by
  obtain ⟨mem, ho⟩ | hd := tm.mem_block mt.items hb hi
  · cases hd : i.dest with
    | none => exact .inl hd
    | some x =>
      have named : x ∈ namesIn t :=
        mem_namesIn.mpr ⟨b, mem_map_of_mem (mem_of_get? hb), i, hi, .inl hd⟩
      obtain ⟨op, hop⟩ := Option.isSome_iff_exists.mp ho
      by_cases hc : op = "const"
      · subst hc
        obtain ⟨d, hv⟩ : ∃ d, i.value = some d := by
          obtain ⟨-, n, hn⟩ | ⟨-, b, hb⟩ := mt.consts i mem hop
          · exact ⟨_, hn⟩
          · exact ⟨_, hb⟩
        exact .inr ⟨x, d, ⟨hd, .inl ⟨hop, hv⟩⟩, named, .inr ⟨i, mem, hd, hop, hv⟩⟩
      · exact .inr ⟨x, unknown, ⟨hd, .inr ⟨⟨op, hop, hc⟩, rfl⟩⟩, named, .inl rfl⟩
  · exact .inl hd

/-- What a solution says at the start of the block of a number. -/
def factsAt (before : Table String (Table String Datum)) (ns : List String) (k : Nat) :
    Table String Datum :=
  (ns[k]?.bind before.get?).getD .empty

section Solution

variable (sol : Solution constants t preds (fun _ u => Fitting (Suited is t) u) before behind)
  (mem_preds : ∀ p n, p ∈ preds.getD n [] ↔ t.PassesTo p n) {n : String} {k : Nat} {b : Block}
include sol mem_preds

omit mt tm in
lemma fitting_sources {u : Table String Datum}
    (hu : u ∈ (preds.getD n []).map fun p => behind.getD p .empty) : Fitting (Suited is t) u := by
  obtain ⟨p, hp, rfl⟩ := mem_map.mp hu
  obtain ⟨b, _, hb, -⟩ := (mem_preds p n).mp hp
  obtain ⟨f, hf, fit, -⟩ := sol.behind p (mem_keys.mpr ⟨b, hb⟩)
  rwa [Table.getD, hf]

/-- What a solution says of a block: at the end, what is known behind the items of the block. -/
lemma Monotyped.solved (hb : (split is)[k]? = some b) (hn : ns[k]? = some n) :
    before.get? n = some (factsAt before ns k) ∧
      ∃ out f, Reaches b b.length (factsAt before ns k) out ∧ behind.get? n = some f ∧
        ∀ x, out.get? x = f.get? x := by
  have key : n ∈ t.keys := tm.keys ▸ mem_of_getElem? hn
  have start := sol.before n key
  have facts : before.get? n = some (factsAt before ns k) := by
    rw [factsAt, hn, Option.bind_some, start, Option.getD_some]
  refine ⟨facts, ?_⟩
  obtain ⟨f, hf, fit, g, ⟨c, hc, hg⟩, same⟩ := sol.behind n key
  have fits : Fitting (Suited is t) g := by
    obtain ⟨g', hg', fit'⟩ := exists_foldlM_constStep (fun i => mt.tells tm hc)
      (mt.kinds.fitting_mergeConsts fun u => fitting_sources sol mem_preds (n := n))
    exact Except.ok.inj (hg.symm.trans hg') ▸ fit'
  obtain rfl := Option.some.inj ((tm.block k b n hb hn).symm.trans hc)
  rw [← Option.mem_unique facts start] at hg
  exact ⟨g, f, (mt.reaches_length hb).mpr hg, hf, (mt.kinds.sameBy_iff fits fit).mp same⟩

lemma Monotyped.rises {q : Nat} {m : String} {out : Table String Datum}
    (hb : (split is)[k]? = some b) (hn : ns[k]? = some n) (hm : ns[q]? = some m)
    (passes : t.PassesTo n m) (hout : Reaches b b.length (factsAt before ns k) out) :
    Rises out (factsAt before ns q) := by
  obtain ⟨-, out', f, hout', hf, same⟩ := mt.solved tm sol mem_preds hb hn
  obtain rfl := Except.ok.inj (hout.symm.trans hout')
  have start := sol.before m (tm.keys ▸ mem_of_getElem? hm)
  intro x
  rw [factsAt, hm, Option.bind_some, start, Option.getD_some, same x]
  refine mt.kinds.below_mergeConsts (fun u => fitting_sources sol mem_preds (n := m)) ?_
  refine mem_map.mpr ⟨n, (mem_preds n m).mpr passes, ?_⟩
  rw [Table.getD, hf, Option.getD_some]

lemma Monotyped.accounts : Accounts (split is) (factsAt before ns) := by
  have ended : ∀ b ∈ split is, Ended b.code = Ended b := fun b mem =>
    ended_code (wellCut_of_mem_split mem) fun i hi => mt.items i (mem_of_mem_split mem hi)
  refine ⟨fun k b hb => ?_, fun k b c out hb hc open_ hout => ?_,
    fun k q b c i a l out hb last br hl hc head label hout => ?_⟩
  · obtain ⟨n, hn⟩ := tm.exists_name hb
    obtain ⟨-, out, f, hout, -⟩ := mt.solved tm sol mem_preds hb hn
    exact ⟨out, hout⟩
  · obtain ⟨n, hn⟩ := tm.exists_name hb
    obtain ⟨m, hm⟩ := tm.exists_name hc
    apply mt.rises tm sol mem_preds hb hn hm _ hout
    exact tm.passes_next hb hn hm ((ended b (mem_of_getElem? hb)).trans open_)
  · obtain ⟨n, hn⟩ := tm.exists_name hb
    apply mt.rises tm sol mem_preds hb hn (tm.name_of_label hc head label) _ hout
    have isEnd : Ended b.code = true := by
      rw [ended b (mem_of_getElem? hb), Ended, last]
      exact Instr.isTerminator_of_branches br
    refine tm.passes_label hb hn ?_ br hl
    rwa [getLast?_code]
    intro none
    simp [none, Ended] at isEnd

end Solution

lemma Monotyped.exists_solution (nonempty : t.entries ≠ []) (ht : t.Targeted) :
    ∃ preds before behind, constants.solve t = .ok (before, behind) ∧
      (∀ p n, p ∈ preds.getD n [] ↔ t.PassesTo p n) ∧
      Solution constants t preds (fun _ u => Fitting (Suited is t) u) before behind := by
  have nd : t.keys.Nodup := tm.keys ▸ tm.nodup
  obtain ⟨preds, succs, edges, predKeys, succKeys, mem_preds, mem_succs⟩ :=
    NamedBlocks.exists_edges nd ht
  have wires : Wires t preds succs :=
    ⟨nd, predKeys, succKeys, fun p n => (mem_preds p n).trans (mem_succs p n).symm⟩
  obtain ⟨before, behind, run, sol⟩ := exists_solve (a := constants) nonempty edges wires
    (mt.kinds.ascends fun n b hb i => mt.tells tm hb) (Nat.le_refl _)
  exact ⟨preds, before, behind, run, mem_preds, sol⟩

end Monotyped

open NamedBlocks in
/-- The analysis of constants comes to an end, and in every run of a function that does not speculate
what it knows at the start and at the end of a block is true when control comes there. -/
theorem solve_constants_sound (f : Func) (mt : Monotyped (f.instrs.getD [])) (closed : f.params = []) :
    ∃ t, (ofBody (f.instrs.getD [])).addTerminators = .ok t ∧
      constants.solve t ≠ .error .unsettled ∧
      (f.instrs.getD [] ≠ [] → Resolved (f.instrs.getD []) →
        ∃ start finish, constants.solve t = .ok (start, finish)) ∧
      ∀ start finish, constants.solve t = .ok (start, finish) →
        ∀ k b n, (Block.split (f.instrs.getD []))[k]? = some b → t.keys[k]? = some n →
          ∃ before behind, start.get? n = some before ∧ finish.get? n = some behind ∧
            (Unspeculative (f.instrs.getD []) →
              ∀ (V W : Type) (M : Meaning V W) (den : Datum → Option V), Denotes M den →
                ∀ args world m es s saved,
                  Speculation.Steps M (f.instrs.getD []) m (f.start args world) [] es s saved →
                  s.rest = ((Block.split (f.instrs.getD [])).drop k).flatten →
                  Describes den before s.env ∧
                  ∀ es' u saved', Speculation.Steps M (f.instrs.getD [])
                      (b.countP fun i => !i.isTerminator) s saved es' u saved' →
                    Describes den behind u.env) := by
  obtain ⟨t, ns, ht, tm, targeted⟩ := exists_terminated mt.items mt.named
  have cut : ∀ b ∈ split (f.instrs.getD []), WellCut b := fun _ => wellCut_of_mem_split
  have tails : ∀ b ∈ split (f.instrs.getD []), ∀ i ∈ b.tail, i.label = none := fun b hb i hi =>
    (mt.items i (mem_of_mem_split hb (List.mem_of_mem_tail hi))).label_of_isOp
      ((cut b hb).tail i hi)
  have flat := flatten_split (f.instrs.getD [])
  refine ⟨t, ht, ?_, fun ne resolved => ?_, fun start finish run k b n hb hn => ?_⟩
  · obtain ⟨ne, targeted⟩ | ⟨e, failed, he⟩ := solve_cases constants t
    · obtain ⟨_, _, _, run, -⟩ := mt.exists_solution tm ne targeted
      simp [run]
    · simpa [failed] using he
  · have ne : t.entries ≠ [] := by
      intro none
      have names : ns = [] := by rw [← tm.keys, Table.keys, none, List.map_nil]
      have blocks : split (f.instrs.getD []) = [] :=
        List.forall₂_nil_right_iff.mp (names ▸ tm.names)
      rw [blocks, List.flatten_nil] at flat
      exact ne flat.symm
    obtain ⟨_, start, finish, run, -⟩ := mt.exists_solution tm ne (targeted resolved)
    exact ⟨start, finish, run⟩
  · obtain ⟨ne, targeted⟩ | ⟨e, failed, -⟩ := solve_cases constants t
    · obtain ⟨preds, before, behind, run', mem_preds, sol⟩ := mt.exists_solution tm ne targeted
      cases run.symm.trans run'
      rw [tm.keys] at hn
      obtain ⟨hstart, out, g, hout, hg, same⟩ := mt.solved tm sol mem_preds hb hn
      refine ⟨_, g, hstart, hg, fun none V W M den hM args world m es s saved st rest => ?_⟩
      have begins : ∀ i ∈ (f.start args world).rest, i ∈ f.instrs.getD [] := fun _ => id
      obtain ⟨plain, rfl, inside⟩ := st.plain begins none
      have acc := mt.accounts tm sol mem_preds
      rw [← flat] at plain
      have there := Known.steps cut acc hM tails plain (known_start cut closed flat)
      have at_ := Known.atStart cut there hb rest
      refine ⟨?_, fun es' u saved' st' => ?_⟩
      · obtain ⟨b', known, hb', reached, describes⟩ := at_.known
        exact reaches_zero.mp reached ▸ describes
      · obtain ⟨plain', -, -⟩ := st'.plain inside none
        rw [← flat] at plain'
        obtain ⟨out', hout', describes⟩ := at_.finish cut acc hM hb plain'
        obtain rfl := Except.ok.inj (hout.symm.trans hout')
        intro x v hv
        rw [← same x]
        exact describes x v hv
    · rw [failed] at run
      cases run

lemma denotes_word {W : Type} {other : Behaviour Val W} :
    Denotes (Meaning.word other) Val.ofDatum := by
  intro i os w v w' hc act
  simp only [Meaning.computing, hc, if_true, Option.map_eq_some_iff, Prod.mk.injEq,
    Option.some.injEq] at act
  obtain ⟨u, hu, rfl, -⟩ := act
  exact hu

def repeating : Func where
  instrs := some [.labelled "top", Sample.whole "k" 7, Sample.truth "on" true,
    Sample.branch "on" "top" "out", .labelled "out", Sample.compute .int "id" "x" ["k"],
    Sample.effect "print" ["x"]]

lemma monotyped_repeating : Monotyped (repeating.instrs.getD []) where
  items := by decide
  named := by decide +kernel
  typed := ⟨fun x => if x = "on" then .bool else .int, by
    simp [repeating, Instr.labelled]⟩
  consts := by simp [repeating, Instr.labelled]

theorem solve_constants_sound_repeating :
    Monotyped (repeating.instrs.getD []) ∧ repeating.params = [] ∧
    ∃ t start finish before,
      (NamedBlocks.ofBody (repeating.instrs.getD [])).addTerminators = .ok t ∧
      constants.solve t = .ok (start, finish) ∧ start.get? "out" = some before ∧
      before.get? "k" = some (.int 7) ∧
      ∀ m es s saved, Speculation.Steps Meaning.words (repeating.instrs.getD []) m
          (repeating.start [] ()) [] es s saved →
        s.rest = ((Block.split (repeating.instrs.getD [])).drop 1).flatten →
        ∀ v, s.env "k" = some v → v = .int 7 := by
  obtain ⟨t, ht, -, total, sound⟩ := solve_constants_sound repeating monotyped_repeating rfl
  obtain ⟨start, finish, run⟩ := total (by simp [repeating]) (by
    simp [repeating, NamedBlocks.Resolved, Instr.Branches, Instr.labelled])
  have keys : t.keys[1]? = some "out" := by
    obtain rfl := Except.ok.inj ht
    rfl
  obtain ⟨before, behind, hb, -, runs⟩ := sound start finish run 1 _ "out" rfl keys
  have known : before.get? "k" = some (.int 7) := by
    obtain rfl := Except.ok.inj ht
    cases run
    cases hb
    rfl
  refine ⟨monotyped_repeating, rfl, t, start, finish, before, ht, run, hb, known, ?_⟩
  intro m es s saved st rest v hv
  obtain ⟨d, hd, is⟩ := (runs (by decide) _ _ _ _ denotes_word _ _ m es s saved st rest).1 "k" v hv
  obtain rfl := Option.some.inj (known.symm.trans hd)
  simpa [Val.ofDatum, eq_comm] using is (by simp [unknown])

/-- Behind an abort a variable has the value that it had before, not the last one it was given. -/
theorem solve_constants_mistaken :
    Monotyped (Func.mistaken.instrs.getD []) ∧ Func.mistaken.params = [] ∧
    ∃ t start finish before,
      (NamedBlocks.ofBody (Func.mistaken.instrs.getD [])).addTerminators = .ok t ∧
      constants.solve t = .ok (start, finish) ∧ start.get? "failed" = some before ∧
      before.get? "v" = some (.int 2) ∧
      Denotes Meaning.words Val.ofDatum ∧
      ∃ m es s saved, Speculation.Steps Meaning.words
          (Func.mistaken.instrs.getD []) m (Func.mistaken.start [] ()) [] es s saved ∧
        s.rest = ((Block.split (Func.mistaken.instrs.getD [])).drop 1).flatten ∧
        s.env "v" = some (.int 4) := by
  have typed : Monotyped (Func.mistaken.instrs.getD []) := {
    items := by decide
    named := by decide +kernel
    typed := ⟨fun x => if x = "b" then .bool else .int, by
      simp [Func.mistaken, Func.guess, Instr.labelled]⟩
    consts := by
      simp [Func.mistaken, Func.guess, Instr.labelled] }
  refine ⟨typed, rfl, _, _, _, _, rfl, rfl, rfl, rfl, denotes_word, ?_⟩
  exact ⟨5, _, _, _, .head rfl (.head rfl (.head rfl (.head rfl (.head rfl .refl)))), rfl, rfl⟩

end Analysis

end BrilKit
