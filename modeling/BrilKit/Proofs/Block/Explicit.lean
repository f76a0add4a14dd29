import BrilKit.Proofs.Block.Terminated
import BrilKit.Proofs.Run.Speculation
import Mathlib.Data.List.TakeWhile

/-!
# Bodies with explicit control flow

Giving every block a name and a terminator, and the function an entry that nothing jumps to, changes
only where labels are seen. Main statement: the body reassembled from these blocks runs as it did
before.
-/

namespace BrilKit

open List Outcome

/-- A body whose items are labels and operations, whose blocks all get names of their own, and whose
jumps and branches lead to labels of it. -/
structure Cuttable (is : List Instr) : Prop where
  items : ∀ i ∈ is, i.IsItem
  named : (NamedBlocks.ofBody is).size = (Block.split is).length
  targets : ∀ i ∈ is, i.Branches → ∀ l ∈ i.labels.getD [], ∃ j ∈ is, j.label = some l

/-- Such a body without phis. -/
structure Workable (is : List Instr) : Prop extends Cuttable is where
  phiFree : ∀ i ∈ is, i.op ≠ some "phi"

open NamedBlocks

variable {is : List Instr} {t : NamedBlocks} {n : String} {b : Block}

lemma Cuttable.entryUnnamed (wk : Cuttable is) : EntryUnnamed is := by
  intro i hi hb hl
  obtain ⟨j, hj, hjl⟩ := wk.targets i hi hb _ hl
  refine freshName_not_mem (mem_keys_of_label hj (Bool.eq_false_iff.mpr fun ho => ?_) hjl)
  rw [(wk.items j hj).label_of_isOp ho] at hjl
  cases hjl

/-- The blocks of such a body end with their only terminators and have no labels in them. -/
lemma Cuttable.block (wk : Cuttable is) (h : explicit is = .ok t) (hb : t.get? n = some b) :
    Block.Complete b ∧ ∀ i ∈ b, i.label = none := by
  have complete : Block.Complete b :=
    explicit_complete (fun i hi => (wk.items i hi).isOp_or_label) h (Table.mem_of_get? hb)
  refine ⟨complete, fun i hi => ?_⟩
  obtain mem | on := mem_explicit h hb hi
  · exact (wk.items i mem).label_of_isOp (complete.ops i hi)
  · exact on.op.1

namespace NamedBlocks

/-- Giving blocks names and terminators begins no speculation. -/
lemma unspeculative_explicit (none : Unspeculative is) (h : explicit is = .ok t)
    (hb : t.get? n = some b) : Unspeculative b := by
  intro i hi
  obtain mem | rfl | ⟨_, _, rfl⟩ := mem_explicit h hb hi
  · exact none i mem
  · rfl
  · rfl

lemma unspeculative_reassemble (nd : t.keys.Nodup)
    (none : ∀ n b, t.get? n = some b → Unspeculative b) : Unspeculative t.reassemble := by
  intro i hi
  obtain ⟨e, he, hi⟩ := mem_flatMap.mp hi
  obtain rfl | hi := mem_cons.mp hi
  · rfl
  · exact none _ _ (Table.get?_of_mem nd he) i hi

open Machine

open Block (ahead)

variable {V W : Type} {M : Meaning V W} {bs : List Block} {ns : List String} {m l : String} {i : Instr}
  {s u : State V W} {k d : Nat}

/-- A jump to a block of a body that is put together. -/
lemma jumpTo_reassemble (nd : t.keys.Nodup)
    (plain : ∀ n b, t.get? n = some b → ∀ i ∈ b, i.label = none) (h : t.get? l = some b) :
    ∃ rest, jumpTo t.reassemble s l = .go { s with rest := .labelled l :: (b ++ rest) } [] := by
  obtain ⟨before, behind, split, other⟩ := lookup_eq_some_iff.mp h
  refine ⟨behind.flatMap fun e => .labelled e.1 :: e.2, jumpTo_found ?_⟩
  rw [NamedBlocks.reassemble, split, flatMap_append, dropWhile_append_of_pos]
  · simp [Instr.labelled]
  · intro i hi
    obtain ⟨e, he, hi⟩ := mem_flatMap.mp hi
    obtain rfl | hi := mem_cons.mp hi
    · have ne : l ≠ e.1 := by simpa using other e he
      simp [Instr.labelled, ne.symm]
    · have found : t.get? e.1 = some e.2 := Table.get?_of_mem nd (by simp [split, he])
      simp [plain e.1 e.2 found i hi]

lemma reassemble_eq (h : t.keys.head? = some n) (hb : t.get? n = some b) :
    ∃ rest, t.reassemble = .labelled n :: (b ++ rest) := by
  obtain ⟨es⟩ := t
  cases es with
  | nil => cases h
  | cons e es =>
    obtain ⟨k, c⟩ := e
    obtain rfl : k = n := by simpa [Table.keys] using h
    obtain rfl : c = b := by simpa [Table.get?] using hb
    exact ⟨es.flatMap fun e => .labelled e.1 :: e.2, rfl⟩

/-- Both runs stand before the label of a block. The second one has seen what labels the first one
has seen last, if any. -/
structure Before (bs : List Block) (ns : List String) (k : Nat) (b : Block) (s u : State V W) :
    Prop where
  block : bs[k]? = some b
  head : ∃ i, b.label? = some i
  env : s.env = u.env
  world : s.world = u.world
  label : ∀ l, s.label = some l → u.label = some l
  rest : s.rest = ahead bs k 0
  rest' : ∃ n r, ns[k]? = some n ∧ u.rest = .labelled n :: (ended ns k b.code ++ r)

/-- Both runs stand at the same place in the code of a block. -/
structure Within (bs : List Block) (ns : List String) (k : Nat) (b done todo : Block)
    (s u : State V W) : Prop where
  block : bs[k]? = some b
  nonempty : b ≠ []
  code : b.code = done ++ todo
  done : ∀ i ∈ done, i.isTerminator = false
  env : s.env = u.env
  world : s.world = u.world
  label : ∀ l, s.label = some l → u.label = some l
  previous : ∀ l, s.previous = some l → u.previous = some l
  rest : s.rest = todo ++ ahead bs (k + 1) 0
  rest' : ∃ r, u.rest = todo ++ ((if Block.Ended b.code then [] else [bridge ns k]) ++ r)

def Together (bs : List Block) (ns : List String) (s u : State V W) : Prop :=
  (∃ k b, Before bs ns k b s u) ∨ ∃ k b done todo, Within bs ns k b done todo s u

/-- A body and its blocks, among which empty ones may stand, with their terminators. -/
structure Explicit (is : List Instr) (bs : List Block) (t : NamedBlocks) (ns : List String) : Prop
    extends Terminated bs t ns where
  flat : bs.flatten = is
  cut : ∀ b ∈ bs, b ≠ [] → Block.WellCut b
  adjoins : bs.IsChain fun b c => b ≠ [] → Block.Adjoins b c
  items : ∀ i ∈ is, i.IsItem
  targets : ∀ i ∈ is, i.Branches → ∀ l ∈ i.labels.getD [], ∃ j ∈ is, j.label = some l

namespace Explicit

variable (ex : Explicit is bs t ns)
include ex

lemma mem (hb : bs[k]? = some b) (hi : i ∈ b) : i ∈ is :=
  ex.flat ▸ mem_flatten.mpr ⟨b, mem_of_getElem? hb, hi⟩

lemma code (hb : bs[k]? = some b) (hi : i ∈ b.code) :
    i ∈ is ∧ i.label = none ∧ ∃ op, i.op = some op := by
  have mem := Block.mem_of_mem_code hi
  have cut := ex.cut b (mem_of_getElem? hb) (ne_nil_of_mem mem)
  have ho := Block.isOp_of_mem_code cut.tail (fun j hj => (ex.items j (ex.mem hb hj)).isOp_or_label) hi
  exact ⟨ex.mem hb mem, (ex.items i (ex.mem hb mem)).label_of_isOp ho, Option.isSome_iff_exists.mp ho⟩

lemma head (hb : bs[k]? = some b) (hi : b.label? = some i) :
    b = i :: b.code ∧ i.op = none ∧ ∃ l, i.label = some l ∧ ns[k]? = some l := by
  obtain ⟨first, hl⟩ := Option.filter_eq_some_iff.mp hi
  obtain ⟨l, hl⟩ := Option.isSome_iff_exists.mp hl
  have hcons : b = i :: b.code := by simpa [hi] using (Block.label?_append_code (b := b)).symm
  obtain ⟨ho, -⟩ | ⟨hnone, -⟩ := ex.items i (ex.mem hb (mem_of_head? first))
  · exact ⟨hcons, ho, l, hl, ex.name_of_label hb first hl⟩
  · cases hnone.symm.trans hl

lemma unlabelled (hb : t.get? n = some b) : ∀ i ∈ b, i.label = none := by
  obtain ⟨k, c, hc, -, here⟩ := ex.exists_block (Table.mem_keys.mpr ⟨b, hb⟩)
  obtain rfl := Option.some.inj (hb.symm.trans here)
  refine forall_mem_append.mpr ⟨fun i hi => (ex.code hc hi).2.1, fun i hi => ?_⟩
  split at hi
  · cases hi
  · exact mem_singleton.mp hi ▸ connects_bridge.op.1

/-- The run of the table jumps to a block. -/
lemma jumps (hb : bs[k]? = some b) (hn : ns[k]? = some n) : ∃ r, jumpTo t.reassemble u n =
    .go { u with rest := .labelled n :: (ended ns k b.code ++ r) } [] :=
  jumpTo_reassemble (ex.keys ▸ ex.nodup) (fun _ _ => ex.unlabelled) (ex.block k b n hb hn)

omit ex in
lemma before_answers (ex : Explicit is bs t ns) (h : Before bs ns k b s u) :
    Answers M t.reassemble (Together bs ns) (fun _ => False) u (step M is s) := by
  obtain ⟨i, hi⟩ := h.head
  obtain ⟨n, r, hn, hu⟩ := h.rest'
  obtain ⟨hcons, ho, l, hl, hl'⟩ := ex.head h.block hi
  obtain rfl : l = n := Option.some.inj (hl'.symm.trans hn)
  have hs : s.rest = i :: (b.code ++ ahead bs (k + 1) 0) := by
    rw [h.rest, Block.ahead_eq h.block (Nat.zero_le _), drop_zero, ← cons_append, ← hcons]
  rw [step_label hs ho hl]
  refine .inl ⟨0, _, .single (step_label hu rfl rfl), .inr ⟨k, b, [], b.code, ?_⟩⟩
  exact {
    block := h.block
    nonempty := hcons ▸ cons_ne_nil _ _
    code := rfl
    done := by simp
    env := h.env
    world := h.world
    label := fun _ h => h
    previous := h.label
    rest := rfl
    rest' := ⟨r, append_assoc ..⟩ }

variable {done todo : Block} {op : String}

/-- Behind the code of a block the run of the table gets to the next block, or both return. -/
lemma falls (h : Within bs ns k b done [] s u) :
    Answers M t.reassemble (Together bs ns) (fun _ => False) u (step M is s) := by
  have hcode : b.code = done := by simpa using h.code
  have hopen : Block.Ended b.code = false := Block.not_ended (hcode ▸ h.done)
  obtain ⟨r, hu⟩ := h.rest'
  simp only [hopen, Bool.false_eq_true, if_false, nil_append] at hu
  cases hc : bs[k + 1]? with
  | none =>
    have last : ns[k + 1]? = none := by
      rw [getElem?_eq_none_iff, ← ex.names.length_eq]
      exact getElem?_eq_none_iff.mp hc
    have stop : step M is s = .stop none s.world := by simp [step, h.rest, Block.ahead_eq_nil hc]
    rw [stop]
    refine .inl ⟨0, u, .refl, ?_⟩
    simp [step, hu, bridge, last, h.world, implicitReturn, perform, terminators, transfer,
      Instr.uses, leave]
  | some c =>
    obtain ⟨m, hm⟩ := ex.exists_name hc
    obtain ⟨r', hjump⟩ := ex.jumps hc hm (u := { u with rest := r })
    have hstep : step M t.reassemble u = .go _ [] :=
      (step_jump (by rw [hu, bridge, hm]; rfl)).trans hjump
    have next : Before bs ns (k + 1) c s
        { u with rest := .labelled m :: (ended ns (k + 1) c.code ++ r') } := by
      refine ⟨hc, ?_, h.env, h.world, h.label, h.rest, m, r', hm, rfl⟩
      -- The next block starts with a label, since this one has no terminator.
      have cut := ex.cut b (mem_of_getElem? h.block) h.nonempty
      obtain ⟨hk, rfl⟩ := List.getElem?_eq_some_iff.mp hc
      obtain ⟨hk', rfl⟩ := List.getElem?_eq_some_iff.mp h.block
      obtain hend | ⟨i, hi, ho⟩ := isChain_iff_getElem.mp ex.adjoins k hk h.nonempty
      · rw [← Block.ended_code cut fun i hi => ex.items i (ex.mem h.block hi), hopen] at hend
        cases hend
      · obtain ⟨-, l, hl⟩ | ⟨-, op, hop⟩ := ex.items i (ex.mem hc (mem_of_head? hi))
        · exact ⟨i, Option.filter_eq_some_iff.mpr ⟨hi, by simp [hl]⟩⟩
        · simp [Instr.isOp, hop] at ho
    exact (ex.before_answers next).after (.single hstep)

lemma transfers (h : Within bs ns k b done (i :: todo) s u) (ho : i.op = some op)
    (ht : i.isTerminator = true) :
    Answers M t.reassemble (Together bs ns) (fun _ => False) u (step M is s) := by
  obtain ⟨r, hu⟩ := h.rest'
  refine .transfer h.rest hu rfl ho ht (by rw [h.env]) h.world fun _ hbr l hl => ?_
  obtain ⟨j, hj, hjl⟩ := ex.targets i (ex.code h.block (by simp [h.code])).1 hbr l hl
  have tails : ∀ c ∈ bs, ∀ i ∈ c.tail, i.label = none := fun c hc i hi =>
    have mem := mem_of_mem_tail hi
    (ex.items i (ex.flat ▸ mem_flatten.mpr ⟨c, hc, mem⟩)).label_of_isOp
      ((ex.cut c hc (ne_nil_of_mem mem)).tail i hi)
  obtain ⟨a, r', found⟩ : ∃ a r, is.dropWhile (fun i => i.label != some l) = a :: r := by
    refine exists_cons_of_ne_nil fun none => ?_
    simpa [hjl] using dropWhile_eq_nil_iff.mp none j hj
  obtain ⟨q, c, hc, ha, hal, hahead⟩ := Block.exists_ahead_of_label tails (ex.flat.symm ▸ found)
  have hn := ex.name_of_label hc ha hal
  obtain ⟨r'', hjump⟩ := ex.jumps hc hn
  refine .inr ⟨_, _, jumpTo_found found, hjump, .inl ⟨q, c, ?_⟩⟩
  exact {
    block := hc
    head := ⟨a, Option.filter_eq_some_iff.mpr ⟨ha, by simp [hal]⟩⟩
    env := h.env
    world := h.world
    label := h.label
    rest := hahead.symm
    rest' := ⟨l, r'', hn, rfl⟩ }

omit ex in
lemma next (h : Within bs ns k b done (i :: todo) s u) (ht : i.isTerminator = false) (e : Env V)
    (w : W) (r : List Instr) :
    Together bs ns { s with rest := todo ++ ahead bs (k + 1) 0, env := e, world := w }
      { u with
        rest := todo ++ ((if Block.Ended b.code then [] else [bridge ns k]) ++ r)
        env := e
        world := w } := by
  refine .inr ⟨k, b, done ++ [i], todo, ?_⟩
  exact {
    block := h.block
    nonempty := h.nonempty
    code := by simp [h.code]
    done := forall_mem_append.mpr ⟨h.done, by simpa using ht⟩
    env := rfl
    world := rfl
    label := h.label
    previous := h.previous
    rest := rfl
    rest' := ⟨r, rfl⟩ }

omit ex in
/-- A phi has the same result in both runs, unless it fails in the first one for want of a label. -/
lemma merges (h : Within bs ns k b done (i :: todo) s u) (ho : i.op = some "phi") :
    step M is s = .fail ∨
      Answers M t.reassemble (Together bs ns) (fun _ => False) u (step M is s) := by
  obtain ⟨r, hu⟩ := h.rest'
  have ht : i.isTerminator = false := by simp [Instr.isTerminator, ho, terminators]
  have hs : step M is s = phi { s with rest := todo ++ ahead bs (k + 1) 0 } i := by
    simp [step, h.rest, ho, perform]
  have hstep : step M t.reassemble u = phi { u with
      rest := todo ++ ((if Block.Ended b.code then [] else [bridge ns k]) ++ r) } i := by
    simp only [step, hu, cons_append, ho, perform, if_true]
  rw [hs]
  unfold phi at hstep ⊢
  split at hstep
  · next arity =>
    rw [if_pos arity]
    cases hp : s.previous with
    | none => exact .inl rfl
    | some l =>
      cases hd : i.dest with
      | none => exact .inl rfl
      | some d =>
        simp only [h.previous l hp, hd] at hstep
        refine .inr (.inl ⟨0, _, .single hstep, ?_⟩)
        have same := next h ht (s.env.set d (selected s.env i l)) s.world r
        rw [hp, h.previous l hp] at same
        rwa [← h.env, ← h.world]
  · next arity => exact .inl (if_neg arity)

lemma answers (h : Together bs ns s u) : step M is s = .fail ∧ (∃ i ∈ is, i.op = some "phi") ∨
    Answers M t.reassemble (Together bs ns) (fun _ => False) u (step M is s) := by
  obtain ⟨k, b, h⟩ | ⟨k, b, done, todo, h⟩ := h
  · exact .inr (ex.before_answers h)
  · cases todo with
    | nil => exact .inr (ex.falls h)
    | cons i todo =>
      obtain ⟨mem, -, op, ho⟩ := ex.code h.block (i := i) (by simp [h.code])
      cases ht : i.isTerminator with
      | true => exact .inr (ex.transfers h ho ht)
      | false =>
        by_cases hp : op = "phi"
        · subst hp
          exact (merges h ho).imp_left fun hf => ⟨hf, i, mem, ho⟩
        · obtain ⟨r, hu⟩ := h.rest'
          refine .inr (.straight h.rest hu rfl ho hp ht (by rw [h.env]) h.world ?_ ?_)
          · intro _ w
            rw [h.env]
            exact next h ht _ w r
          · intro d d' hd hd' v w
            cases hd.symm.trans hd'
            rw [h.env]
            exact next h ht _ w r

/-- The run of the table gets to where the body starts, over names that no label of the body has. -/
lemma opens (hd : bs.drop k = replicate d [] ++ Block.split is) (hne : is ≠ []) :
    ∃ names : List String, names.length ≤ d + 1 ∧
      (∀ l ∈ names, ∃ (q : Nat) (c : Block), bs[q]? = some c ∧ c.label? = none ∧ ns[q]? = some l) ∧
      ∀ {V W : Type} (M : Meaning V W) (s u : State V W), s.env = u.env → s.world = u.world →
        s.label = none → s.previous = none → s.rest = is →
        (∃ b n r, bs[k]? = some b ∧ ns[k]? = some n ∧
          u.rest = .labelled n :: (ended ns k b.code ++ r)) →
        ∃ m v, Steps M t.reassemble m u (names.map .enter) v ∧ Together bs ns s v := by
  have hahead : ahead bs k 0 = is := by
    rw [ahead, hd]
    simp [Block.flatten_split]
  have here : ∀ {q : Nat}, ahead bs q 0 = is → ∃ c, bs[q]? = some c := fun {q} h => by
    cases hc : bs[q]? with
    | none => exact absurd (h.symm.trans (Block.ahead_eq_nil hc)) hne
    | some c => exact ⟨c, rfl⟩
  obtain ⟨b, hb⟩ := here hahead
  obtain ⟨n, hn⟩ := ex.exists_name hb
  obtain ⟨hk, hget⟩ := List.getElem?_eq_some_iff.mp hb
  rw [drop_eq_getElem_cons hk, hget] at hd
  induction d generalizing k b n with
  | zero =>
    rw [replicate_zero, nil_append] at hd
    have ne : b ≠ [] := (Block.wellCut_of_mem_split (hd ▸ mem_cons_self)).nonempty
    cases hl : b.label? with
    | some i =>
      refine ⟨[], by simp, by simp, ?_⟩
      rintro V W M s u he hw hs - hr ⟨b', n', r, hb', hn', hu⟩
      cases hb.symm.trans hb'
      exact ⟨0, u, .refl, .inl ⟨k, b, hb, ⟨i, hl⟩, he, hw, by simp [hs], by rw [hr, hahead], n', r, hn',
        hu⟩⟩
    | none =>
      refine ⟨[n], by simp, by simpa using ⟨k, b, hb, hl, hn⟩, ?_⟩
      rintro V W M s u he hw hs hp hr ⟨b', n', r, hb', hn', hu⟩
      cases hb.symm.trans hb'
      cases hn.symm.trans hn'
      refine ⟨1, _, .single (step_label hu rfl rfl), .inr ⟨k, b, [], b.code, ?_⟩⟩
      exact {
        block := hb
        nonempty := ne
        code := rfl
        done := by simp
        env := he
        world := hw
        label := by simp [hs]
        previous := by simp [hp]
        rest := by
          rw [hr, ← hahead, Block.ahead_eq hb (Nat.zero_le _), drop_zero]
          simp [Block.code, hl]
        rest' := ⟨r, append_assoc ..⟩ }
  | succ d ih =>
    obtain ⟨rfl, hd'⟩ := List.cons.inj hd
    have hahead' : ahead bs (k + 1) 0 = is := by
      rw [← hahead, Block.ahead_eq hb (Nat.zero_le _)]
      rfl
    obtain ⟨c, hc⟩ := here hahead'
    obtain ⟨m, hm⟩ := ex.exists_name hc
    obtain ⟨hk', hget'⟩ := List.getElem?_eq_some_iff.mp hc
    rw [drop_eq_getElem_cons hk', hget'] at hd'
    obtain ⟨names, short, new, run⟩ := ih hahead' c hc m hm hk' hd' hget'
    refine ⟨n :: names, by simpa using short, forall_mem_cons.mpr ⟨⟨k, [], hb, rfl, hn⟩, new⟩, ?_⟩
    rintro V W M s u he hw hs hp hr ⟨b', n', r, hb', hn', hu⟩
    cases hb.symm.trans hb'
    cases hn.symm.trans hn'
    have first := Steps.single (step_label (M := M) (B := t.reassemble) hu rfl rfl)
    obtain ⟨r', hjump⟩ := ex.jumps hc hm (u := ⟨r, u.env, u.world, some n, u.label⟩)
    have second := (step_jump (M := M) (s := ⟨ended ns k (Block.code []) ++ r, u.env, u.world, some n,
      u.label⟩) (by simp [ended, Block.code, Block.label?, Block.Ended, bridge, hm])).trans hjump
    obtain ⟨j, v, st, tg⟩ := run M s ⟨_, u.env, u.world, some n, u.label⟩ he hw hs hp hr
      ⟨c, m, r', hc, hm, rfl⟩
    exact ⟨_, v, first.trans ((Steps.single second).trans st), tg⟩

/-- The body reassembled runs as the body does, behind names that no label of the body has. -/
theorem runs (hd : bs = replicate d [] ++ Block.split is) (hne : is ≠ []) :
    ∃ names : List String, names.length ≤ d + 1 ∧
      (∀ i ∈ is, ∀ l, i.label = some l → l ∉ names) ∧
      ∀ {V W : Type} (M : Meaning V W) {s u : State V W}, s.env = u.env → s.world = u.world →
        s.label = none → s.previous = none → s.rest = is → u.rest = t.reassemble →
        ((∀ i ∈ is, i.op ≠ some "phi") →
          Follows M is t.reassemble (fun _ => False) (names.map .enter) s u) ∧
        ∀ n, (observe M is n s).2 ≠ .failed → ∃ m, observe M t.reassemble m u =
          (names.map .enter ++ (observe M is n s).1, (observe M is n s).2) := by
  obtain ⟨names, short, new, run⟩ := ex.opens (k := 0) (by simpa using hd) hne
  refine ⟨names, short, fun i hi l hl hmem => ?_, fun M s u he hw hl hp hs hu => ?_⟩
  · -- A block without a label does not have the name of a label.
    obtain ⟨q, c, hc, none, hq⟩ := new l hmem
    rw [← ex.flat] at hi
    obtain ⟨b, hb, hi⟩ := mem_flatten.mp hi
    obtain ⟨k, hk⟩ := mem_iff_getElem?.mp hb
    rw [← Block.label?_append_code (b := b), mem_append, Option.mem_toList] at hi
    obtain hi | hi := hi
    · obtain ⟨-, -, l', hl', hk'⟩ := ex.head hk hi
      cases hl.symm.trans hl'
      obtain rfl := (getElem?_inj (lt_of_getElem? hk') ex.nodup).mp (hk'.trans hq.symm)
      cases hk.symm.trans hc
      cases hi.symm.trans none
    · rw [(ex.code hk hi).2.1] at hl
      cases hl
  · obtain ⟨b, n, hb, hn⟩ : ∃ b n, bs[0]? = some b ∧ ns[0]? = some n := by
      cases hb : bs[0]? with
      | none =>
        rw [← ex.flat, getElem?_eq_none_iff.mp hb |> length_eq_zero_iff.mp ∘ Nat.le_zero.mp] at hne
        exact absurd rfl hne
      | some b => exact ⟨b, _, rfl, (ex.exists_name hb).choose_spec⟩
    obtain ⟨r, hr⟩ := reassemble_eq (ex.keys ▸ head?_eq_getElem? ▸ hn) (ex.block 0 b n hb hn)
    obtain ⟨k, v, st, tg⟩ := run M s u he hw hl hp hs ⟨b, n, r, hb, hn, hu.trans hr⟩
    refine ⟨fun phiFree => ?_, fun n ok => ?_⟩
    · have follows := Follows.of_simulation (fun _ _ h => (ex.answers (M := M) h).resolve_left
        fun ⟨_, i, hi, ho⟩ => phiFree i hi ho) tg
      simpa using follows.behind st
    · have sim : ∀ s u, Together bs ns s u →
          Matches M t.reassemble (Together bs ns) u (step M is s) := by
        intro s u h
        obtain ⟨fails, -⟩ | h := ex.answers (M := M) h
        · rw [fails]
          trivial
        · exact h.matches
      obtain ⟨m, hm⟩ := observe_of_simulation sim tg ok
      exact ⟨k + m, by rw [st.observe, hm]⟩

/-- The blocks behind a new one that jumps to them. -/
lemma lead (hm : m ∉ t.keys) (hn : t.keys.head? = some n) :
    Explicit is ([] :: bs) ⟨(m, [.jump n]) :: t.entries⟩ (m :: ns) where
  nodup := nodup_cons.mpr ⟨ex.keys ▸ hm, ex.nodup⟩
  names := .cons (fun i hi => by cases hi) ex.names
  keys := congrArg (m :: ·) ex.keys
  block k b l hb hl := by
    rw [ex.keys] at hm hn
    cases k with
    | zero =>
      cases hb
      cases hl
      simp [Table.get?, ended, bridge, Block.code, Block.label?, Block.Ended, ← head?_eq_getElem?, hn]
    | succ k =>
      have ne : l ≠ m := fun e => hm (e ▸ mem_of_getElem? hl)
      exact (Table.lookup_cons_ne ne).trans (ex.block k b l hb hl)
  flat := ex.flat
  cut := forall_mem_cons.mpr ⟨fun h => absurd rfl h, ex.cut⟩
  adjoins := ex.adjoins.cons fun _ _ h => absurd rfl h
  items := ex.items
  targets := ex.targets

end Explicit

end NamedBlocks

/-- The blocks of a body with explicit control flow are the body behind at most one new block. -/
lemma Cuttable.explicit (wk : Cuttable is) (h : NamedBlocks.explicit is = .ok t) :
    is ≠ [] ∧ ∃ d ≤ 1, ∃ ns, Explicit is (replicate d [] ++ Block.split is) t ns := by
  obtain ⟨d, hd, ns, tm⟩ := terminated_explicit wk.named h
  have adjoins : (Block.split is).IsChain fun b c => b ≠ [] → Block.Adjoins b c :=
    Block.adjoins_split.imp fun _ _ h _ => h
  refine ⟨?_, d, hd, ns, tm, by simp [Block.flatten_split], fun b hb ne => ?_, ?_, wk.items, wk.targets⟩
  · rintro rfl
    cases h
  · obtain hb | hb := mem_append.mp hb
    · exact absurd (eq_of_mem_replicate hb) ne
    · exact Block.wellCut_of_mem_split hb
  · cases d with
    | zero => exact adjoins
    | succ d =>
      obtain rfl : d = 0 := by omega
      exact adjoins.cons fun _ _ h => absurd rfl h

end BrilKit
