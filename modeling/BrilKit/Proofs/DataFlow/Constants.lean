import BrilKit.DataFlow.Facts
import BrilKit.Proofs.DataFlow.Solver

/-!
# Known constants settle

Of a variable nothing has come up yet, or one constant is known, or none is: facts rise in this
order, and merged facts are the least ones above all.
-/

namespace BrilKit

open List Outcome Table

namespace Analysis

def IntFact (d : Datum) : Prop := d = unknown ∨ ∃ i, d = .int i

def BoolFact (d : Datum) : Prop := d = unknown ∨ ∃ b, d = .bool b

def Alike (d e : Datum) : Prop := IntFact d ∧ IntFact e ∨ BoolFact d ∧ BoolFact e

section Alike

variable {d e : Datum}

lemma Alike.same_iff (h : Alike d e) : d.same e = true ↔ d = e := by
  obtain ⟨rfl | ⟨i, rfl⟩, rfl | ⟨j, rfl⟩⟩ | ⟨rfl | ⟨b, rfl⟩, rfl | ⟨c, rfl⟩⟩ := h
  · simp [unknown, Datum.same]
  · simp [unknown, Datum.same, Datum.numEqual, Datum.toInt?]
  · simp [unknown, Datum.same, Datum.numEqual, Datum.toInt?]
  · simp [Datum.same, Datum.numEqual, Datum.toInt?]
  · simp [unknown, Datum.same]
  · simp [unknown, Datum.same, Datum.numEqual, Datum.toInt?]
  · simp [unknown, Datum.same, Datum.numEqual, Datum.toInt?]
  · cases b <;> cases c <;> simp [Datum.same, Datum.numEqual, Datum.toInt?]

lemma Alike.equal_iff (h : Alike d e) : d.equal e = true ↔ d = e := by
  rw [← h.same_iff]
  obtain ⟨rfl | ⟨i, rfl⟩, -⟩ | ⟨rfl | ⟨b, rfl⟩, -⟩ := h <;> rfl

end Alike

/-- How facts about a variable rise: from none to a constant, and from there to no known one. -/
inductive Below : Option Datum → Option Datum → Prop where
  | unset {o : Option Datum} : Below none o
  | refl {o : Option Datum} : Below o o
  | unknown {o : Option Datum} : Below o (some unknown)

namespace Below

variable {o p q : Option Datum}

lemma trans (h : Below o p) (h' : Below p q) : Below o q := by
  cases h with
  | unset => exact .unset
  | refl => exact h'
  | unknown =>
    cases h' with
    | refl => exact .unknown
    | unknown => exact .unknown

lemma antisymm (h : Below o p) (h' : Below p o) : o = p := by
  cases h with
  | unset =>
    cases h' with
    | unset => rfl
    | refl => rfl
  | refl => rfl
  | unknown =>
    cases h' with
    | refl => rfl
    | unknown => rfl

end Below

def level : Option Datum → Nat
  | none => 0
  | some (.str _) => 2
  | some _ => 1

lemma level_le {o : Option Datum} : level o ≤ 2 := by
  unfold level
  split <;> omega

lemma level_pos {d : Datum} : 0 < level (some d) := by cases d <;> simp [level]

lemma Below.level_le {o p : Option Datum} (h : Below o p) : level o ≤ level p := by
  cases h with
  | unset => exact Nat.zero_le _
  | refl => exact Nat.le_refl _
  | unknown => exact Analysis.level_le

/-- The least fact above two. -/
structure Join (o p r : Option Datum) : Prop where
  left : Below o r
  right : Below p r
  least : ∀ q, Below o q → Below p q → Below r q

namespace Join

variable {o p r : Option Datum}

lemma none_left : Join none p p := ⟨.unset, .refl, fun _ _ h => h⟩

lemma eq_of_none (h : Join o none r) : o = r := h.left.antisymm (h.least o .refl .unset)

end Join

/-- The facts that can come up, by variable: they are of one type. -/
structure Kinds (names : List String) (Suited : String → Datum → Prop) : Prop where
  named : ∀ x d, Suited x d → x ∈ names
  free : ∀ x ∈ names, Suited x unknown
  alike : ∀ x d e, Suited x d → Suited x e → Alike d e

/-- A table of such facts. -/
structure Fitting (Suited : String → Datum → Prop) (t : Table String Datum) : Prop where
  nodup : t.keys.Nodup
  suited : ∀ x d, t.get? x = some d → Suited x d

variable {names : List String} {Suited : String → Datum → Prop} {t u out : Table String Datum}
  {x : String} {d e v : Datum}

lemma fitting_empty : Fitting Suited .empty := ⟨nodup_nil, fun _ _ h => by cases h⟩

lemma Fitting.put (h : Fitting Suited t) (hd : Suited x d) : Fitting Suited (t.put x d) := by
  refine ⟨nodup_put h.nodup, fun y e he => ?_⟩
  by_cases hy : y = x
  · subst hy
    rw [get?_put_same] at he
    exact Option.some.inj he ▸ hd
  · rw [get?_put_other hy] at he
    exact h.suited y e he

section Merge

variable (ks : Kinds names Suited)
include ks

lemma Kinds.free_of (h : Suited x d) : Suited x unknown := ks.free x (ks.named x d h)

/-- Merging an entry joins what is known of its variable and changes no other. -/
lemma Kinds.mergeEntry (fit : Fitting Suited out) (hv : Suited x v) :
    Fitting Suited (mergeEntry out (x, v)) ∧
      Join (out.get? x) (some v) ((mergeEntry out (x, v)).get? x) ∧
      ∀ y ≠ x, (mergeEntry out (x, v)).get? y = out.get? y := by
  have free := ks.free_of hv
  unfold Analysis.mergeEntry
  dsimp only
  cases unk : v.equal unknown with
  | true =>
    rw [if_pos rfl]
    obtain rfl := (ks.alike x v _ hv free).equal_iff.mp unk
    refine ⟨fit.put free, ?_, fun y hy => get?_put_other hy⟩
    rw [get?_put_same]
    exact ⟨.unknown, .refl, fun _ _ h => h⟩
  | false =>
    rw [if_neg (by simp)]
    cases old : out.get? x with
    | none =>
      refine ⟨fit.put hv, ?_, fun y hy => get?_put_other hy⟩
      rw [get?_put_same]
      exact .none_left
    | some d =>
      have alike := ks.alike x d v (fit.suited x d old) hv
      dsimp only
      cases same : d.equal v with
      | true =>
        rw [if_pos rfl]
        obtain rfl := alike.equal_iff.mp same
        refine ⟨fit, ?_, fun y _ => rfl⟩
        rw [old]
        exact ⟨.refl, .refl, fun _ h _ => h⟩
      | false =>
        rw [if_neg (by simp)]
        refine ⟨fit.put free, ?_, fun y hy => get?_put_other hy⟩
        rw [get?_put_same]
        refine ⟨.unknown, .unknown, fun q hd hv => ?_⟩
        -- Only one fact is above two different constants.
        cases hd with
        | unknown => exact .refl
        | refl =>
          cases hv with
          | unknown => exact .refl
          | refl => simp [alike.equal_iff.mpr rfl] at same

/-- Merging the entries of a table joins what is known of every variable. -/
lemma Kinds.foldl_mergeEntry {es : List (String × Datum)} (fit : Fitting Suited out)
    (nd : (es.map Prod.fst).Nodup) (suited : ∀ e ∈ es, Suited e.1 e.2) :
    Fitting Suited (es.foldl Analysis.mergeEntry out) ∧
      ∀ y, Join (out.get? y) (es.lookup y) ((es.foldl Analysis.mergeEntry out).get? y) := by
  induction es generalizing out with
  | nil => exact ⟨fit, fun y => ⟨.refl, .unset, fun _ h _ => h⟩⟩
  | cons e es ih =>
    obtain ⟨x, v⟩ := e
    rw [map_cons, nodup_cons] at nd
    obtain ⟨fit', here, others⟩ := ks.mergeEntry fit (suited (x, v) (by simp))
    obtain ⟨fit'', join⟩ := ih fit' nd.2 fun e he => suited e (by simp [he])
    refine ⟨fit'', fun y => ?_⟩
    rw [foldl_cons]
    by_cases hy : y = x
    · subst hy
      have gone : (⟨es⟩ : Table String Datum).get? y = none := get?_eq_none.mpr nd.1
      have last := join y
      rw [show es.lookup y = none from gone] at last
      rw [← last.eq_of_none, lookup_cons_self]
      exact here
    · rw [lookup_cons_ne (e := (x, v)) hy, ← others y hy]
      exact join y

/-- Merged tables say of every variable the least that is above what each of them says. -/
lemma Kinds.foldl_merge {ts : List (Table String Datum)} (fit : Fitting Suited out)
    (fits : ∀ t ∈ ts, Fitting Suited t) :
    Fitting Suited (ts.foldl (fun out t => t.entries.foldl Analysis.mergeEntry out) out) ∧
      ∀ y r, (ts.foldl (fun out t => t.entries.foldl Analysis.mergeEntry out) out).get? y = r →
        Below (out.get? y) r ∧ (∀ t ∈ ts, Below (t.get? y) r) ∧
        ∀ q, Below (out.get? y) q → (∀ t ∈ ts, Below (t.get? y) q) → Below r q := by
  induction ts generalizing out with
  | nil =>
    refine ⟨fit, fun y r hr => ?_⟩
    obtain rfl := hr
    exact ⟨.refl, by simp, fun _ h _ => h⟩
  | cons t ts ih =>
    have ft := fits t (by simp)
    obtain ⟨fit', join⟩ := ks.foldl_mergeEntry fit ft.nodup fun e he =>
      ft.suited e.1 e.2 (get?_of_mem ft.nodup he)
    obtain ⟨fit'', all⟩ := ih fit' fun u hu => fits u (by simp [hu])
    refine ⟨fit'', fun y r hr => ?_⟩
    obtain ⟨first, rest, least⟩ := all y r hr
    have here := join y
    refine ⟨here.left.trans first, fun u hu => ?_, fun q ho hq => ?_⟩
    · obtain rfl | hu := mem_cons.mp hu
      · exact here.right.trans first
      · exact rest u hu
    · exact least q (here.least q ho (hq t (by simp))) fun u hu => hq u (by simp [hu])

variable {ts : List (Table String Datum)} (fits : ∀ t ∈ ts, Fitting Suited t)
include fits

lemma Kinds.fitting_mergeConsts : Fitting Suited (mergeConsts ts) :=
  (ks.foldl_merge fitting_empty fits).1

lemma Kinds.below_mergeConsts (ht : t ∈ ts) : Below (t.get? x) ((mergeConsts ts).get? x) :=
  ((ks.foldl_merge fitting_empty fits).2 x _ rfl).2.1 t ht

lemma Kinds.mergeConsts_below {q : Option Datum} (h : ∀ t ∈ ts, Below (t.get? x) q) :
    Below ((mergeConsts ts).get? x) q :=
  ((ks.foldl_merge fitting_empty fits).2 x _ rfl).2.2 q .unset h

end Merge

section Transfer

variable {i : Instr} {b : Block} {known known' t' u' : Table String Datum}

/-- What is known behind an instruction of its result: the constant that it is, if it is one. -/
def Notes (i : Instr) (x : String) (d : Datum) : Prop :=
  i.dest = some x ∧ (i.op = some "const" ∧ i.value = some d ∨
    (∃ op, i.op = some op ∧ op ≠ "const") ∧ d = unknown)

lemma Notes.unique {y : String} (h : Notes i x d) (h' : Notes i y e) : x = y ∧ d = e := by
  obtain ⟨hx, h⟩ := h
  obtain ⟨hy, h'⟩ := h'
  refine ⟨Option.mem_unique hx hy, ?_⟩
  obtain ⟨ho, hd⟩ | ⟨⟨op, ho, hne⟩, rfl⟩ := h
  · obtain ⟨-, he⟩ | ⟨⟨op, ho', hne⟩, -⟩ := h'
    · exact Option.mem_unique hd he
    · exact absurd (Option.mem_unique ho' ho) hne
  · obtain ⟨ho', -⟩ | ⟨-, rfl⟩ := h'
    · exact absurd (Option.mem_unique ho ho') hne
    · rfl

lemma constStep_eq_ok : constStep known i = .ok known' ↔
    i.dest = none ∧ known' = known ∨ ∃ x d, Notes i x d ∧ known' = known.put x d := by
  unfold constStep Notes
  cases hd : i.dest with
  | none => simp [eq_comm]
  | some x =>
    simp only [bind_eq_ok, Instr.getOp, ofOption_eq_ok]
    constructor
    · rintro ⟨op, ho, h⟩
      split at h
      · next const =>
        obtain ⟨d, hv, h⟩ := of_bind h
        obtain rfl : op = "const" := by simpa using const
        exact .inr ⟨x, d, ⟨rfl, .inl ⟨ho, ofOption_eq_ok.mp hv⟩⟩,
          (pure_eq_ok.mp h).symm⟩
      · next other =>
        exact .inr ⟨x, unknown, ⟨rfl, .inr ⟨⟨op, ho, by simpa using other⟩, rfl⟩⟩,
          (pure_eq_ok.mp h).symm⟩
    · rintro (⟨h, -⟩ | ⟨y, d, ⟨hy, ⟨ho, hv⟩ | ⟨⟨op, ho, hne⟩, rfl⟩⟩, rfl⟩)
      · cases h
      · obtain rfl := Option.some.inj hy
        refine ⟨_, ho, ?_⟩
        exact ok_bind (ofOption_eq_ok.mpr hv) rfl
      · obtain rfl := Option.some.inj hy
        refine ⟨op, ho, ?_⟩
        rw [if_neg (by simpa using hne)]
        rfl

/-- The instruction tells of its result, if it has one, what can be known of the variable. -/
def Tells (Suited : String → Datum → Prop) (i : Instr) : Prop :=
  i.dest = none ∨ ∃ x d, Notes i x d ∧ Suited x d

lemma exists_foldlM_constStep (tells : ∀ i ∈ b, Tells Suited i) (fit : Fitting Suited known) :
    ∃ known', b.foldlM constStep known = .ok known' ∧ Fitting Suited known' := by
  apply foldlM_total (Fitting Suited) _ fit
  intro i hi known fit
  obtain none | ⟨x, d, notes, suited⟩ := tells i hi
  · exact ⟨known, constStep_eq_ok.mpr (.inl ⟨none, rfl⟩), fit⟩
  · exact ⟨_, constStep_eq_ok.mpr (.inr ⟨x, d, notes, rfl⟩), fit.put suited⟩

/-- The second table says the same as the first or stands higher, for every variable. -/
def Rises (t u : Table String Datum) : Prop := ∀ x, Below (t.get? x) (u.get? x)

lemma Rises.constStep (h : Rises t u) (ht : constStep t i = .ok t') (hu : constStep u i = .ok u') :
    Rises t' u' := by
  obtain ⟨none, rfl⟩ | ⟨x, d, notes, rfl⟩ := constStep_eq_ok.mp ht
  · obtain ⟨-, rfl⟩ | ⟨x, d, notes, -⟩ := constStep_eq_ok.mp hu
    · exact h
    · exact absurd (none.symm.trans notes.1) (by simp)
  · obtain ⟨none, -⟩ | ⟨y, e, notes', rfl⟩ := constStep_eq_ok.mp hu
    · exact absurd (none.symm.trans notes.1) (by simp)
    · obtain ⟨rfl, rfl⟩ := notes.unique notes'
      intro y
      by_cases hy : y = x
      · subst hy
        rw [get?_put_same, get?_put_same]
        exact .refl
      · rw [get?_put_other hy, get?_put_other hy]
        exact h y

lemma Rises.foldlM_constStep (h : Rises t u) (ht : b.foldlM Analysis.constStep t = .ok t')
    (hu : b.foldlM Analysis.constStep u = .ok u') : Rises t' u' := by
  induction b generalizing t u with
  | nil =>
    obtain rfl := foldlM_nil_eq_ok.mp ht
    obtain rfl := foldlM_nil_eq_ok.mp hu
    exact h
  | cons i b ih =>
    obtain ⟨t₁, ht₁, ht⟩ := foldlM_cons_eq_ok.mp ht
    obtain ⟨u₁, hu₁, hu⟩ := foldlM_cons_eq_ok.mp hu
    exact ih (h.constStep ht₁ hu₁) ht hu

end Transfer

section Same

variable (ks : Kinds names Suited) (ft : Fitting Suited t) (fu : Fitting Suited u)
include ks ft fu

/-- Tables of suited facts are the same when they say the same of every variable. -/
lemma Kinds.sameBy_iff : Table.sameBy Datum.same t u = true ↔ ∀ x, t.get? x = u.get? x := by
  constructor
  · intro same x
    obtain ⟨ht, hu⟩ | ⟨d, e, ht, hu, same⟩ := get?_of_sameBy ft.nodup same x
    · rw [ht, hu]
    · rw [ht, hu, (ks.alike x d e (ft.suited x d ht) (fu.suited x e hu)).same_iff.mp same]
  · intro eq
    simp only [Table.sameBy, Bool.and_eq_true, beq_iff_eq, all_eq_true]
    refine ⟨?_, fun e he => ?_⟩
    · have perm : t.keys.Perm u.keys := by
        refine (perm_ext_iff_of_nodup ft.nodup fu.nodup).mpr fun x => ?_
        rw [Table.mem_keys, Table.mem_keys, eq]
      have len := perm.length_eq
      simp only [Table.keys, length_map] at len
      exact len
    · have here : t.get? e.1 = some e.2 := get?_of_mem ft.nodup he
      have suited := ft.suited e.1 e.2 here
      rw [← eq, here]
      exact (ks.alike e.1 e.2 e.2 suited suited).same_iff.mpr rfl

end Same

def height (names : List String) (t : Table String Datum) : Nat :=
  ∑ x ∈ names.toFinset, level (t.get? x)

lemma height_le : height names t ≤ 2 * names.length := by
  have each : ∑ x ∈ names.toFinset, level (t.get? x) ≤ names.toFinset.card • 2 :=
    Finset.sum_le_card_nsmul _ _ _ fun x _ => level_le
  have card := toFinset_card_le names
  rw [height]
  rw [smul_eq_mul] at each
  omega

/-- A table that rises and is not the same stands higher. -/
lemma Kinds.height_lt (ks : Kinds names Suited) (ft : Fitting Suited t) (fu : Fitting Suited u)
    (rises : Rises t u) (differ : Table.sameBy Datum.same u t = false) :
    height names t < height names u := by
  have some_ : ∃ x, u.get? x ≠ t.get? x := by
    by_contra all
    push Not at all
    rw [(ks.sameBy_iff fu ft).mpr all] at differ
    cases differ
  obtain ⟨x, hx⟩ := some_
  -- The variable in question has a fact at last, and it is no constant that it was before.
  have higher : x ∈ names ∧ level (t.get? x) < level (u.get? x) := by
    have below := rises x
    cases hu : u.get? x with
    | none =>
      rw [hu] at below hx
      exact absurd (below.antisymm .unset).symm hx
    | some e =>
      have he := fu.suited x e hu
      refine ⟨ks.named x e he, ?_⟩
      rw [hu] at below hx
      cases ht : t.get? x with
      | none => exact level_pos
      | some d =>
        rw [ht] at below hx
        have alike := ks.alike x d _ (ft.suited x d ht) (ks.free_of he)
        cases below with
        | refl => exact absurd rfl hx
        | unknown =>
          obtain ⟨rfl | ⟨i, rfl⟩, -⟩ | ⟨rfl | ⟨b, rfl⟩, -⟩ := alike
          · exact absurd rfl hx
          · exact Nat.lt_succ_self 1
          · exact absurd rfl hx
          · exact Nat.lt_succ_self 1
  exact Finset.sum_lt_sum (fun y _ => (rises y).level_le)
    ⟨x, mem_toFinset.mpr higher.1, higher.2⟩

lemma Kinds.ascends {blocks : NamedBlocks} {sources : FlowMap}
    (ks : Kinds (namesIn blocks) Suited)
    (tells : ∀ n b, blocks.get? n = some b → ∀ i ∈ b, Tells Suited i) :
    Ascends constants blocks sources (fun _ t => Fitting Suited t) Rises (height (namesIn blocks))
      (2 * (namesIn blocks).length) where
  refl t x := .refl
  trans t u w h h' x := (h x).trans (h' x)
  init n _ := fitting_empty
  least t x := .unset
  computes n hn facts fits := by
    obtain ⟨b, hb⟩ := Table.mem_keys.mp hn
    have merged : Fitting Suited (constants.merged sources facts n) := by
      apply ks.fitting_mergeConsts
      intro t ht
      obtain ⟨p, hp, rfl⟩ := mem_map.mp ht
      exact fits p hp
    obtain ⟨t, ht, ft⟩ := exists_foldlM_constStep (tells n b hb) merged
    exact ⟨t, ⟨b, hb, ht⟩, ft⟩
  mono n facts facts' t t' fits ht ht' := by
    obtain ⟨b, hb, ht⟩ := ht
    obtain ⟨c, hc, ht'⟩ := ht'
    obtain rfl := Option.mem_unique hb hc
    have rises : Rises (constants.merged sources facts n) (constants.merged sources facts' n) := by
      intro x
      apply ks.mergeConsts_below
      · intro t ht
        obtain ⟨p, hp, rfl⟩ := mem_map.mp ht
        exact (fits p hp).1
      · intro t ht
        obtain ⟨p, hp, rfl⟩ := mem_map.mp ht
        refine ((fits p hp).2.2 x).trans (ks.below_mergeConsts (fun t ht => ?_)
          (mem_map_of_mem hp))
        obtain ⟨q, hq, rfl⟩ := mem_map.mp ht
        exact (fits q hq).2.1
    exact rises.foldlM_constStep ht ht'
  same n t ft := (ks.sameBy_iff ft ft).mpr fun _ => rfl
  rises n t u ft fu rises differ := ks.height_lt ft fu rises differ
  bounded n t _ := height_le

end Analysis

end BrilKit
