import BrilKit.Data.Iterate
import Mathlib.Data.List.Forall2
import Mathlib.Tactic.Lemma

/-!
# Computations that succeed

What follows from the success of a computation in `Outcome`: its parts succeed. Loops are covered by
an induction principle for invariants.
-/

namespace BrilKit

open List

variable {α β σ : Type} {as : List α} {bs : List β} {isFinal : σ → Bool} {f : σ → Outcome σ}
  {n : Nat} {s : σ}

namespace Outcome

variable {α β σ : Type} {x : Outcome α} {e : Fault} {a : α} {key : String} {o : Option α}
  {xs : List α} {ys : List β} {s t : σ}

section Bind

variable {f : α → Outcome β} {b : β}

@[simp] lemma bind_ok : ((.ok a : Outcome α) >>= f) = f a := rfl

@[simp] lemma bind_error : ((.error e : Outcome α) >>= f) = .error e := rfl

@[simp] lemma pure_eq : (pure a : Outcome α) = .ok a := rfl

lemma bind_eq_ok : (x >>= f) = .ok b ↔ ∃ a, x = .ok a ∧ f a = .ok b := by
  cases x with
  | error e => simp
  | ok a => simp

lemma exists_of_isOk (h : x.isOk = true) : ∃ a, x = .ok a := by
  cases x with
  | error e => cases h
  | ok a => exact ⟨a, rfl⟩

lemma of_bind (h : (x >>= f) = .ok b) : ∃ a, x = .ok a ∧ f a = .ok b := bind_eq_ok.mp h

lemma ok_bind (hx : x = .ok a) (hf : f a = .ok b) : (x >>= f) = .ok b :=
  bind_eq_ok.mpr ⟨a, hx, hf⟩

lemma bind_eq_error :
    (x >>= f) = .error e ↔ x = .error e ∨ ∃ a, x = .ok a ∧ f a = .error e := by
  cases x with
  | error e => simp
  | ok a => simp

lemma pure_eq_ok {b : α} : (pure a : Outcome α) = .ok b ↔ a = b := by simp

lemma ofOption_eq_ok : Outcome.ofOption key o = .ok a ↔ o = some a := by
  cases o <;> simp [Outcome.ofOption]

lemma ofOption_eq_error : Outcome.ofOption key o = .error e ↔ o = none ∧ e = .missing key := by
  cases o <;> simp [Outcome.ofOption, eq_comm]

lemma itemAt_eq_ok {k : Nat} : itemAt xs k = .ok a ↔ xs[k]? = some a := by
  unfold itemAt
  cases xs[k]? <;> simp

lemma mapM_eq_ok : xs.mapM f = .ok ys ↔ Forall₂ (fun x y => f x = .ok y) xs ys := by
  induction xs generalizing ys with
  | nil => cases ys <;> simp
  | cons x xs ih =>
    simp only [mapM_cons, bind_eq_ok, pure_eq_ok, ih]
    constructor
    · rintro ⟨y, hy, ys, hys, rfl⟩
      exact .cons hy hys
    · rintro (_ | ⟨hy, hys⟩)
      exact ⟨_, hy, _, hys, rfl⟩

lemma mapM_ok {g : α → β} (h : ∀ x ∈ xs, f x = .ok (g x)) :
    xs.mapM f = .ok (xs.map g) := by
  rw [mapM_eq_ok, forall₂_map_right_iff, forall₂_same]
  exact h

lemma mapM_total (h : ∀ x ∈ xs, ∃ y, f x = .ok y) : ∃ ys, xs.mapM f = .ok ys := by
  induction xs with
  | nil => exact ⟨[], rfl⟩
  | cons x xs ih =>
    obtain ⟨y, hy⟩ := h x (by simp)
    obtain ⟨ys, hys⟩ := ih fun x hx => h x (by simp [hx])
    exact ⟨y :: ys, mapM_eq_ok.mpr (.cons hy (mapM_eq_ok.mp hys))⟩

end Bind

lemma mapM_eq_some {f : α → Option β} :
    xs.mapM f = some ys ↔ Forall₂ (fun x y => f x = some y) xs ys := by
  induction xs generalizing ys with
  | nil => cases ys <;> simp
  | cons x xs ih =>
    simp only [mapM_cons, Option.bind_eq_bind, Option.bind_eq_some_iff, ih, Option.pure_def,
      Option.some.injEq]
    constructor
    · rintro ⟨y, hy, ys, hys, rfl⟩
      exact .cons hy hys
    · rintro (_ | ⟨hy, hys⟩)
      exact ⟨_, hy, _, hys, rfl⟩

variable {f : σ → α → Outcome σ}

lemma foldlM_nil_eq_ok : [].foldlM f s = .ok t ↔ s = t := by
  simp

lemma foldlM_cons_eq_ok {x : α} :
    (x :: xs).foldlM f s = .ok t ↔ ∃ u, f s x = .ok u ∧ xs.foldlM f u = .ok t := by
  simp [bind_eq_ok]

lemma foldlM_invariant (P : σ → Prop) (step : ∀ x ∈ xs, ∀ s t, P s → f s x = .ok t → P t)
    (h : xs.foldlM f s = .ok t) (hs : P s) : P t := by
  induction xs generalizing s with
  | nil => exact foldlM_nil_eq_ok.mp h ▸ hs
  | cons x xs ih =>
    obtain ⟨u, hu, h⟩ := foldlM_cons_eq_ok.mp h
    exact ih (fun y hy => step y (by simp [hy])) h (step x (by simp) s u hs hu)

lemma foldlM_total (P : σ → Prop) (step : ∀ x ∈ xs, ∀ s, P s → ∃ t, f s x = .ok t ∧ P t)
    (hs : P s) : ∃ t, xs.foldlM f s = .ok t ∧ P t := by
  induction xs generalizing s with
  | nil => exact ⟨s, rfl, hs⟩
  | cons x xs ih =>
    obtain ⟨u, hu, pu⟩ := step x (by simp) s hs
    obtain ⟨t, ht, pt⟩ := ih (fun y hy => step y (by simp [hy])) pu
    exact ⟨t, foldlM_cons_eq_ok.mpr ⟨u, hu, ht⟩, pt⟩

lemma foldlM_marks {P : σ → Prop} {Q : α → σ → Prop}
    (step : ∀ x ∈ xs, ∀ s, P s → ∃ t, f s x = .ok t ∧ P t ∧ Q x t ∧ ∀ y, Q y s → Q y t)
    (hs : P s) : ∃ t, xs.foldlM f s = .ok t ∧ P t ∧ (∀ y, Q y s → Q y t) ∧ ∀ x ∈ xs, Q x t := by
  induction xs generalizing s with
  | nil => exact ⟨s, rfl, hs, fun _ => id, by simp⟩
  | cons x xs ih =>
    obtain ⟨u, hu, pu, here, keep⟩ := step x (by simp) s hs
    obtain ⟨t, ht, pt, keep', all⟩ := ih (fun y hy => step y (by simp [hy])) pu
    refine ⟨t, foldlM_cons_eq_ok.mpr ⟨u, hu, ht⟩, pt, fun y hy => keep' y (keep y hy), ?_⟩
    exact forall_mem_cons.mpr ⟨keep' x here, all⟩

lemma foldlM_marked {Q : α → σ → Prop} (step : ∀ x s t, f s x = .ok t → Q x t ∧ ∀ y, Q y s → Q y t)
    (h : xs.foldlM f s = .ok t) : (∀ y, Q y s → Q y t) ∧ ∀ x ∈ xs, Q x t := by
  induction xs generalizing s with
  | nil =>
    cases foldlM_nil_eq_ok.mp h
    exact ⟨fun _ => id, by simp⟩
  | cons x xs ih =>
    obtain ⟨u, hu, h⟩ := foldlM_cons_eq_ok.mp h
    obtain ⟨here, keep⟩ := step x s u hu
    obtain ⟨keep', all⟩ := ih h
    exact ⟨fun y hy => keep' y (keep y hy), forall_mem_cons.mpr ⟨keep' x here, all⟩⟩

/-- A round over a list changes nothing, or sets a flag and lowers a measure. -/
lemma foldlM_round {f : σ × Bool → α → Outcome (σ × Bool)} {P : σ → Prop} {Q : σ → α → Prop}
    {μ : σ → Nat} {s : σ × Bool}
    (one : ∀ x ∈ xs, ∀ s, P s.1 → ∃ t, f s x = .ok t ∧ P t.1 ∧
      (t = s ∧ Q s.1 x ∨ t.2 = true ∧ μ t.1 < μ s.1)) (hs : P s.1) :
    ∃ t, xs.foldlM f s = .ok t ∧ P t.1 ∧
      (t = s ∧ (∀ x ∈ xs, Q s.1 x) ∨ t.2 = true ∧ μ t.1 < μ s.1) := by
  induction xs generalizing s with
  | nil => exact ⟨s, rfl, hs, .inl ⟨rfl, by simp⟩⟩
  | cons x xs ih =>
    obtain ⟨here, one⟩ := forall_mem_cons.mp one
    obtain ⟨u, hu, pu, first⟩ := here s hs
    obtain ⟨t, ht, pt, rest⟩ := ih one pu
    refine ⟨t, foldlM_cons_eq_ok.mpr ⟨u, hu, ht⟩, pt, ?_⟩
    obtain ⟨rfl, hx⟩ | ⟨flag, less⟩ := first
    · exact rest.imp_left fun all => ⟨all.1, forall_mem_cons.mpr ⟨hx, all.2⟩⟩
    · obtain ⟨rfl, _⟩ | ⟨flag', less'⟩ := rest
      · exact .inr ⟨flag, less⟩
      · exact .inr ⟨flag', Nat.lt_trans less' less⟩

lemma foldlM_congr {g : σ → α → Outcome σ} (P : σ → Prop)
    (step : ∀ x ∈ xs, ∀ s, P s → f s x = g s x ∧ ∀ t, g s x = .ok t → P t) (hs : P s) :
    xs.foldlM f s = xs.foldlM g s := by
  induction xs generalizing s with
  | nil => rfl
  | cons x xs ih =>
    obtain ⟨same, keep⟩ := step x (by simp) s hs
    rw [List.foldlM_cons, List.foldlM_cons, same]
    cases hx : g s x with
    | error e => rfl
    | ok t => exact ih (fun y hy => step y (by simp [hy])) (keep t hx)

lemma foldlM_ne_error (step : ∀ x ∈ xs, ∀ s, f s x ≠ .error e) : xs.foldlM f s ≠ .error e := by
  induction xs generalizing s with
  | nil => simp
  | cons x xs ih =>
    rw [foldlM_cons, Ne, bind_eq_error]
    rintro (h | ⟨u, -, h⟩)
    · exact step x (by simp) s h
    · exact ih (fun y hy => step y (by simp [hy])) h

lemma forM_eq_ok {f : α → Outcome Unit} : xs.forM f = .ok () ↔ ∀ x ∈ xs, f x = .ok () := by
  induction xs with
  | nil => simp
  | cons x xs ih =>
    show (f x >>= fun _ => xs.forM f) = .ok () ↔ _
    rw [bind_eq_ok, forall_mem_cons, ← ih]
    constructor
    · rintro ⟨_, hx, hxs⟩
      exact ⟨hx, hxs⟩
    · rintro ⟨hx, hxs⟩
      exact ⟨_, hx, hxs⟩

/-- The computation fails with a fault under a condition, and succeeds otherwise. -/
def FailsIff (x : Outcome α) (e : Fault) (P : Prop) : Prop :=
  (P → x = .error e) ∧ (¬ P → ∃ a, x = .ok a)

namespace FailsIff

variable {x : Outcome α} {f : α → Outcome β} {e : Fault} {P Q : Prop} {a : α}

lemma of_ok (h : x = .ok a) : x.FailsIff e False := ⟨False.elim, fun _ => ⟨a, h⟩⟩

lemma congr (h : x.FailsIff e P) (iff : P ↔ Q) : x.FailsIff e Q := propext iff ▸ h

lemma eq_error_iff (h : x.FailsIff e P) : x = .error e ↔ P := by
  refine ⟨fun hx => ?_, h.1⟩
  by_contra hP
  obtain ⟨a, ha⟩ := h.2 hP
  cases hx.symm.trans ha

lemma bind (h : x.FailsIff e P) (hf : ∀ a, x = .ok a → ¬ P → (f a).FailsIff e Q) :
    (x >>= f).FailsIff e (P ∨ Q) := by
  by_cases hP : P
  · exact ⟨fun _ => by rw [h.1 hP]; rfl, fun no => absurd (.inl hP) no⟩
  · obtain ⟨a, rfl⟩ := h.2 hP
    have next := hf a rfl hP
    exact ⟨fun yes => next.1 (yes.resolve_left hP), fun no => next.2 fun hQ => no (.inr hQ)⟩

lemma bind_ok (h : x = .ok a) (hf : (f a).FailsIff e Q) : (x >>= f).FailsIff e Q := by
  subst h
  exact hf

lemma mapM {g : σ → Outcome β} {xs : List σ} {P : σ → Prop}
    (h : ∀ x ∈ xs, (g x).FailsIff e (P x)) : (xs.mapM g).FailsIff e (∃ x ∈ xs, P x) := by
  induction xs with
  | nil => exact (of_ok rfl).congr (by simp)
  | cons x xs ih =>
    rw [mapM_cons]
    refine ((h x (by simp)).bind fun y _ _ =>
      (ih fun z hz => h z (by simp [hz])).bind fun _ _ _ => of_ok rfl).congr ?_
    simp

lemma foldlM {g : σ → β → Outcome σ} {P : β → Prop} (I : List β → σ → Prop)
    (step : ∀ y ys s, I (y :: ys) s → (g s y).FailsIff e (P y) ∧ ∀ s', g s y = .ok s' → I ys s')
    {ys : List β} {s : σ} (start : I ys s) : (ys.foldlM g s).FailsIff e (∃ y ∈ ys, P y) := by
  induction ys generalizing s with
  | nil => exact (of_ok rfl).congr (by simp)
  | cons y ys ih =>
    obtain ⟨here, next⟩ := step y ys s start
    exact (here.bind fun s' hs' _ => ih (next s' hs')).congr (by simp)

end FailsIff

/-- Two computations succeed with related results, or fail with the same fault. -/
inductive Parallel (R : α → β → Prop) : Outcome α → Outcome β → Prop where
  | ok {a : α} {b : β} : R a b → Parallel R (.ok a) (.ok b)
  | error {e : Fault} : Parallel R (.error e) (.error e)

namespace Parallel

variable {γ δ : Type} {R : α → β → Prop} {S : γ → δ → Prop} {x : Outcome α} {y : Outcome β}

lemma bind {f : α → Outcome γ} {g : β → Outcome δ} (h : Parallel R x y)
    (hf : ∀ a b, R a b → Parallel S (f a) (g b)) : Parallel S (x >>= f) (y >>= g) := by
  cases h with
  | ok h => exact hf _ _ h
  | error => exact .error

lemma bind_same {f : α → Outcome γ} {g : α → Outcome δ}
    (hf : ∀ a, x = .ok a → Parallel S (f a) (g a)) : Parallel S (x >>= f) (x >>= g) := by
  cases x with
  | ok a => exact hf a rfl
  | error e => exact .error

lemma eq {y : Outcome α} (h : Parallel Eq x y) : x = y := by
  cases h with
  | ok h => rw [h]
  | error => rfl

lemma foldlM {xs : List σ} {f : α → σ → Outcome α} {g : β → σ → Outcome β} {s : α} {t : β}
    (step : ∀ x s t, R s t → Parallel R (f s x) (g t x)) (h : R s t) :
    Parallel R (xs.foldlM f s) (xs.foldlM g t) := by
  induction xs generalizing s t with
  | nil => exact .ok h
  | cons x xs ih =>
    rw [foldlM_cons, foldlM_cons]
    exact (step x s t h).bind fun _ _ => ih

end Parallel

end Outcome

lemma lt_of_getElem? {a : α} (h : as[n]? = some a) : n < as.length :=
  (List.getElem?_eq_some_iff.mp h).1

lemma exists_zip {R : α → β → Prop} (h : Forall₂ R as bs) {a : α} (ha : a ∈ as) :
    ∃ b, (a, b) ∈ as.zip bs ∧ R a b := by
  induction h with
  | nil => simp at ha
  | @cons _ b _ _ hab _ ih =>
    obtain rfl | ha := mem_cons.mp ha
    · exact ⟨b, by simp, hab⟩
    · obtain ⟨c, hc, h⟩ := ih ha
      exact ⟨c, by simp [hc], h⟩

lemma exists_of_mem_right {R : α → β → Prop} (h : Forall₂ R as bs) {b : β} (hb : b ∈ bs) :
    ∃ a ∈ as, R a b := by
  obtain ⟨a, hz, hab⟩ := exists_zip h.flip hb
  exact ⟨a, (of_mem_zip hz).2, hab⟩

lemma filterMap_eq_of_forall₂ {γ : Type} {f : α → Option γ} {g : β → Option γ}
    (h : Forall₂ (fun a b => f a = g b) as bs) : as.filterMap f = bs.filterMap g := by
  induction h with
  | nil => rfl
  | cons h _ ih => rw [filterMap_cons, filterMap_cons, h, ih]

lemma Iterate.run_invariant {t : σ} (P : σ → Prop)
    (step : ∀ s t, P s → isFinal s = false → f s = .ok t → P t) (h : run isFinal f n s = .ok t)
    (hs : P s) : P t ∧ isFinal t = true := by
  induction n generalizing s with
  | zero => cases h
  | succ n ih =>
    unfold run at h
    split at h
    · next final =>
      cases h
      exact ⟨hs, final⟩
    · next more =>
      obtain ⟨u, hu, h⟩ := Outcome.of_bind h
      exact ih h (step s u hs (by simpa using more) hu)

lemma Iterate.run_total (P : σ → Prop) (μ : σ → Nat)
    (step : ∀ s, P s → isFinal s = false → ∃ t, f s = .ok t ∧ P t ∧ μ t < μ s) (hs : P s)
    (h : μ s < n) : ∃ t, run isFinal f n s = .ok t ∧ P t ∧ isFinal t = true := by
  induction n generalizing s with
  | zero => omega
  | succ n ih =>
    unfold run
    cases final : isFinal s with
    | true => exact ⟨s, rfl, hs, final⟩
    | false =>
      obtain ⟨t, ht, pt, lt⟩ := step s hs final
      obtain ⟨u, hu, pu⟩ := ih pt (by omega)
      exact ⟨u, Outcome.ok_bind ht hu, pu⟩

end BrilKit
