import BrilKit.Proofs.Block.Explicit
import BrilKit.Ssa.Leave

/-!
# Phis become copies

Main statement: dissolving all phis takes them out of their blocks and puts a copy for each of their
operands before the last instruction of the block that the operand comes from, in the order in which
the phis and their operands stand.
-/

namespace BrilKit

open List Outcome Table

namespace Ssa

variable {t t' : NamedBlocks} {n m d : String} {ty : Ty} {b : Block} {i last : Instr}
  {adds : List (String × Instr)} {ns : List String}

def copyTo (d : String) (ty : Ty) (x : String) : Instr :=
  { op := some "id", type := some ty, args := some [x], dest := some d }

/-- The copies that an instruction gives rise to, each with the block that it is for. -/
def copies (i : Instr) : List (String × Instr) :=
  match i.hasOp "phi", i.dest, i.type with
  | true, some d, some ty => ((i.labels.getD []).zip i.uses).map fun e => (e.1, copyTo d ty e.2)
  | _, _, _ => []

lemma copies_eq_nil (h : i.hasOp "phi" = false) : copies i = [] := by simp [copies, h]

def into (n : String) (adds : List (String × Instr)) : Block :=
  (adds.filter fun e => e.1 == n).map Prod.snd

@[simp] lemma into_nil : into n [] = [] := rfl

@[simp] lemma into_append {adds' : List (String × Instr)} :
    into n (adds ++ adds') = into n adds ++ into n adds' := by
  simp [into]

lemma mem_into : i ∈ into n adds ↔ (n, i) ∈ adds := by simp [into]

/-- A phi whose parts are all there and whose labels are blocks. -/
structure CompletePhi (keys : List String) (i : Instr) : Prop where
  dest : ∃ d, i.dest = some d
  type : ∃ ty, i.type = some ty
  labels : ∃ ls, i.labels = some ls ∧ ∀ l ∈ ls, l ∈ keys
  args : ∃ xs, i.args = some xs
  arity : (i.labels.getD []).length = i.uses.length

def addTo (t : NamedBlocks) (e : String × Instr) : NamedBlocks :=
  t.put e.1 (insertBeforeLast (t.getD e.1 []) e.2)

section Add

variable {adds : List (String × Instr)} {e : String × Instr}

lemma keys_addTo (h : e.1 ∈ t.keys) : (addTo t e).keys = t.keys :=
  keys_put_of_mem h

lemma keys_foldl_addTo (h : ∀ e ∈ adds, e.1 ∈ t.keys) : (adds.foldl addTo t).keys = t.keys := by
  induction adds generalizing t with
  | nil => rfl
  | cons e adds ih =>
    have he := keys_addTo (h e (by simp))
    rw [foldl_cons, ih (fun e' he' => he ▸ h e' (by simp [he'])), he]

lemma get?_foldl_addTo (h : t.get? n = some (b ++ [last])) :
    (adds.foldl addTo t).get? n = some (b ++ into n adds ++ [last]) := by
  induction adds generalizing t b with
  | nil => simpa using h
  | cons e adds ih =>
    obtain ⟨m, i⟩ := e
    rw [foldl_cons]
    by_cases hm : m = n
    · subst hm
      have hadd : (addTo t (m, i)).get? m = some (b ++ [i] ++ [last]) := by
        simp [addTo, insertBeforeLast, Table.getD, h]
      rw [ih hadd]
      simp [into]
    · have hadd : (addTo t (m, i)).get? n = some (b ++ [last]) := by
        rw [addTo, get?_put_other (Ne.symm hm), h]
      rw [ih hadd]
      simp [into, hm]

/-- The copies of one phi, from a position among its operands on. -/
lemma foldlM_addCopy {ls xs ys : List String} {k : Nat} (hx : xs.drop k = ys)
    (len : ls.length = ys.length) (hl : ∀ l ∈ ls, l ∈ t.keys) :
    (ls.zipIdx k).foldlM (addCopy d ty xs) t =
      .ok (((ls.zip ys).map fun e => (e.1, copyTo d ty e.2)).foldl addTo t) := by
  induction ls generalizing t k ys with
  | nil => rfl
  | cons l ls ih =>
    cases ys with
    | nil => simp at len
    | cons y ys =>
      have hy : xs[k]? = some y := by
        rw [← head?_drop, hx]
        rfl
      have hrest : xs.drop (k + 1) = ys := by
        rw [← drop_drop, hx]
        rfl
      obtain ⟨b, hb⟩ := mem_keys.mp (hl l (by simp))
      have step : addCopy d ty xs t (l, k) = .ok (addTo t (l, copyTo d ty y)) := by
        refine ok_bind (itemAt_eq_ok.mpr hy) ?_
        refine ok_bind (fetch_eq_ok.mpr hb) ?_
        simp [addTo, Table.getD, hb, copyTo]
      have hkeys : (addTo t (l, copyTo d ty y)).keys = t.keys := keys_addTo (hl l (by simp))
      rw [zipIdx_cons]
      refine foldlM_cons_eq_ok.mpr ⟨_, step, ?_⟩
      exact ih hrest (by simpa using len) fun l' hl' => hkeys ▸ hl l' (by simp [hl'])

lemma addCopies_eq (h : i.hasOp "phi" = true → CompletePhi t.keys i) :
    addCopies t i = .ok ((copies i).foldl addTo t) := by
  unfold addCopies
  split
  · next hp =>
    obtain ⟨⟨d, hd⟩, ⟨ty, hty⟩, ⟨ls, hls, hl⟩, ⟨xs, hxs⟩, arity⟩ := h hp
    simp only [hls, Instr.uses, hxs, Option.getD_some] at arity
    refine ok_bind (ofOption_eq_ok.mpr hd) ?_
    refine ok_bind (ofOption_eq_ok.mpr hty) ?_
    refine ok_bind (ofOption_eq_ok.mpr hls) ?_
    have all : ls.zipIdx.foldlM (addCopy d ty xs) t =
        .ok (((ls.zip xs).map fun e => (e.1, copyTo d ty e.2)).foldl addTo t) :=
      foldlM_addCopy rfl arity hl
    have hcopies : copies i = (ls.zip xs).map fun e => (e.1, copyTo d ty e.2) := by
      simp [copies, hp, hd, hty, hls, hxs, Instr.uses]
    rw [hcopies]
    dsimp only
    split
    · next he =>
      have hnil : xs = [] := by
        rw [isEmpty_iff.mp he] at arity
        exact eq_nil_of_length_eq_zero arity.symm
      exact ok_bind rfl (hnil ▸ all)
    · exact ok_bind (ofOption_eq_ok.mpr hxs) all
  · next hp =>
    rw [copies_eq_nil (by simpa using hp)]
    rfl

lemma copies_label {keys : List String} (h : i.hasOp "phi" = true → CompletePhi keys i)
    (he : e ∈ copies i) : e.1 ∈ keys := by
  unfold copies at he
  split at he
  · next hp _ _ =>
    obtain ⟨ls, hls, hl⟩ := (h hp).labels
    obtain ⟨p, hz, rfl⟩ := mem_map.mp he
    exact hl p.1 (by simpa [hls] using (of_mem_zip hz).1)
  · simp at he

lemma foldlM_addCopies {is : Block} (h : ∀ i ∈ is, i.hasOp "phi" = true → CompletePhi t.keys i) :
    is.foldlM addCopies t = .ok ((is.flatMap copies).foldl addTo t) := by
  induction is generalizing t with
  | nil => rfl
  | cons i is ih =>
    have hi := h i (by simp)
    have hkeys : ((copies i).foldl addTo t).keys = t.keys :=
      keys_foldl_addTo fun e he => copies_label hi he
    rw [flatMap_cons, foldl_append]
    refine foldlM_cons_eq_ok.mpr ⟨_, addCopies_eq hi, ih fun j hj => ?_⟩
    rw [hkeys]
    exact h j (by simp [hj])

end Add

/-- Blocks whose phis can be dissolved. -/
structure Dissolvable (t : NamedBlocks) : Prop where
  keys : t.keys.Nodup
  phis : ∀ n b, t.get? n = some b → ∀ i ∈ b, i.hasOp "phi" = true → CompletePhi t.keys i
  last : ∀ n b, t.get? n = some b → ∃ is last, b = is ++ [last] ∧ last.hasOp "phi" = false

/-- All copies that the phis of some blocks give rise to. -/
def allCopies (t : NamedBlocks) (ns : List String) : List (String × Instr) :=
  ns.flatMap fun n => (t.getD n []).flatMap copies

/-- How far dissolving has come: which blocks are without phis. -/
structure Dissolving (t₀ : NamedBlocks) (ns : List String) (t : NamedBlocks) : Prop where
  keys : t.keys = t₀.keys
  done : ∀ n ∈ ns, ∀ is last, t₀.get? n = some (is ++ [last]) →
    t.get? n = some (is.filter (fun i => !i.hasOp "phi") ++ into n (allCopies t₀ ns) ++ [last])
  todo : ∀ n, n ∉ ns → ∀ is last, t₀.get? n = some (is ++ [last]) →
    t.get? n = some (is ++ into n (allCopies t₀ ns) ++ [last])

lemma exists_copyTo (h : i ∈ into n (allCopies t ns)) : ∃ d ty x, i = copyTo d ty x := by
  obtain ⟨m, _, hm⟩ := mem_flatMap.mp (mem_into.mp h)
  obtain ⟨j, _, hj⟩ := mem_flatMap.mp hm
  unfold copies at hj
  split at hj
  · obtain ⟨p, _, e⟩ := mem_map.mp hj
    exact ⟨_, _, _, (Prod.mk.inj e).2.symm⟩
  · simp at hj

lemma not_phi_of_mem_into (h : i ∈ into n (allCopies t ns)) : i.hasOp "phi" = false := by
  obtain ⟨d, ty, x, rfl⟩ := exists_copyTo h
  rfl

lemma label_of_mem_into (h : i ∈ into n (allCopies t ns)) : i.label = none := by
  obtain ⟨d, ty, x, rfl⟩ := exists_copyTo h
  rfl

lemma Dissolving.step {t₀ : NamedBlocks} (ok : Dissolvable t₀) (h : Dissolving t₀ ns t)
    (hm : m ∈ t₀.keys) (new : m ∉ ns) :
    ∃ t', dissolve t m = .ok t' ∧ Dissolving t₀ (ns ++ [m]) t' := by
  obtain ⟨b, hb⟩ := mem_keys.mp hm
  obtain ⟨is, last, rfl, hlast⟩ := ok.last m b hb
  have hfetch := h.todo m new is last hb
  -- Copies give rise to no copies.
  have hcopies : (is ++ into m (allCopies t₀ ns) ++ [last]).flatMap copies =
      (t₀.getD m []).flatMap copies := by
    have hnone : (into m (allCopies t₀ ns)).flatMap copies = [] :=
      flatMap_eq_nil_iff.mpr fun i hi => copies_eq_nil (not_phi_of_mem_into hi)
    simp [Table.getD, hb, hnone]
  have hphis : ∀ i ∈ is ++ into m (allCopies t₀ ns) ++ [last],
      i.hasOp "phi" = true → CompletePhi t.keys i := by
    intro i hi hp
    rw [h.keys]
    by_cases hin : i ∈ into m (allCopies t₀ ns)
    · rw [not_phi_of_mem_into hin] at hp
      cases hp
    · exact ok.phis m _ hb i (by simp_all) hp
  have hall : allCopies t₀ (ns ++ [m]) = allCopies t₀ ns ++ (t₀.getD m []).flatMap copies := by
    simp [allCopies]
  have hadd := foldlM_addCopies hphis
  rw [hcopies] at hadd
  have hkeys : (((t₀.getD m []).flatMap copies).foldl addTo t).keys = t.keys := by
    rw [← hcopies]
    refine keys_foldl_addTo fun e he => ?_
    obtain ⟨i, hi, he⟩ := mem_flatMap.mp he
    exact copies_label (hphis i hi) he
  have hget : ∀ {n is last}, t.get? n = some (is ++ into n (allCopies t₀ ns) ++ [last]) →
      (((t₀.getD m []).flatMap copies).foldl addTo t).get? n =
        some (is ++ into n (allCopies t₀ (ns ++ [m])) ++ [last]) := by
    intro n is last hn
    rw [get?_foldl_addTo hn, hall, into_append]
    simp
  have hblock := hget hfetch
  have hmem : m ∈ (((t₀.getD m []).flatMap copies).foldl addTo t).keys := mem_keys.mpr ⟨_, hblock⟩
  refine ⟨_, ok_bind (fetch_eq_ok.mpr hfetch) (ok_bind hadd
    (ok_bind (fetch_eq_ok.mpr hblock) rfl)), ?_⟩
  have hfilter : ∀ n, (into n (allCopies t₀ (ns ++ [m]))).filter (fun i => !i.hasOp "phi") =
      into n (allCopies t₀ (ns ++ [m])) := fun n =>
    filter_eq_self.mpr fun i hi => by simp [not_phi_of_mem_into hi]
  exact {
    keys := (keys_put_of_mem hmem).trans (hkeys.trans h.keys)
    done := by
      intro n hn is' last' hb'
      by_cases e : n = m
      · subst e
        rw [hb, Option.some.injEq] at hb'
        obtain ⟨rfl, hl⟩ := append_inj' hb' rfl
        cases hl
        simp [hfilter, hlast]
      · have hn : n ∈ ns := by simpa [e] using hn
        rw [get?_put_other e]
        exact hget (h.done n hn is' last' hb')
    todo := by
      intro n hn is' last' hb'
      have e : n ≠ m := by
        rintro rfl
        simp at hn
      rw [get?_put_other e]
      exact hget (h.todo n (fun h => hn (by simp [h])) is' last' hb') }

/-- All phis are dissolved. -/
theorem Dissolvable.dissolve_all (ok : Dissolvable t) :
    ∃ t', t.keys.foldlM dissolve t = .ok t' ∧ Dissolving t t.keys t' := by
  -- By induction on the blocks that are left, behind those that are done.
  have all : ∀ (ms ns : List String) (t' : NamedBlocks), ns ++ ms = t.keys →
      Dissolving t ns t' → ∃ t'', ms.foldlM dissolve t' = .ok t'' ∧ Dissolving t t.keys t'' := by
    intro ms
    induction ms with
    | nil =>
      intro ns t' e h
      rw [append_nil] at e
      exact ⟨t', rfl, e ▸ h⟩
    | cons m ms ih =>
      intro ns t' e h
      have nd := ok.keys
      rw [← e] at nd
      have new : m ∉ ns := fun hm => (nodup_append.mp nd).2.2 m hm m (by simp) rfl
      obtain ⟨t₁, h₁, hd⟩ := h.step ok (m := m) (by simp [← e]) new
      obtain ⟨t₂, h₂, hd⟩ := ih (ns ++ [m]) t₁ (by simp [e]) hd
      exact ⟨t₂, Outcome.foldlM_cons_eq_ok.mpr ⟨t₁, h₁, h₂⟩, hd⟩
  refine all t.keys [] t rfl ⟨rfl, by simp, fun n _ is last h => ?_⟩
  simpa [allCopies] using h

lemma leaveBody_eq {is : List Instr} (h : NamedBlocks.explicit is = .ok t) (ok : Dissolvable t) :
    ∃ t', leaveBody is = .ok t'.reassemble ∧ Dissolving t t.keys t' := by
  obtain ⟨t', ht', hd⟩ := ok.dissolve_all
  exact ⟨t', ok_bind h (ok_bind ht' rfl), hd⟩

lemma Dissolving.unspeculative {is : List Instr} (h : Dissolving t t.keys t') (ok : Dissolvable t)
    (ht : NamedBlocks.explicit is = .ok t) (none : Unspeculative is) :
    Unspeculative t'.reassemble := by
  refine NamedBlocks.unspeculative_reassemble (h.keys ▸ ok.keys) fun n b hb i hi => ?_
  have hn : n ∈ t.keys := h.keys ▸ mem_keys.mpr ⟨b, hb⟩
  obtain ⟨b₀, hb₀⟩ := mem_keys.mp hn
  obtain ⟨is, last, rfl, _⟩ := ok.last n b₀ hb₀
  have quiet := NamedBlocks.unspeculative_explicit none ht hb₀
  obtain rfl : _ = b := Option.some.inj ((h.done n hn is last hb₀).symm.trans hb)
  simp only [mem_append, mem_filter] at hi
  obtain (⟨mem, _⟩ | mem) | mem := hi
  · exact quiet i (mem_append_left _ mem)
  · obtain ⟨d, ty, x, rfl⟩ := exists_copyTo mem
    rfl
  · exact quiet i (mem_append_right _ mem)

end Ssa

end BrilKit
