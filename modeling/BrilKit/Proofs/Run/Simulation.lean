import BrilKit.Proofs.Run.Machine

/-!
# Comparing runs

A run follows another one when every observation of the latter is, behind some events that come
first, also an observation of the former after at least as many steps. `Follows.of_simulation`
derives it from a relation between states that single steps keep.
-/

namespace BrilKit

open List

namespace Machine

variable {V W : Type} {M : Meaning V W} {body A B C : List Instr} {s t u : State V W}
  {R : State V W → State V W → Prop} {move : Move V W}
variable {es fs first later : List (Event V)} {bad : State V W → Prop} {m n : Nat}

/-- The state after a number of steps, and the events on the way. -/
inductive Steps (M : Meaning V W) (body : List Instr) :
    Nat → State V W → List (Event V) → State V W → Prop where
  | refl {s : State V W} : Steps M body 0 s [] s
  | head {n : Nat} {s t u : State V W} {es fs : List (Event V)} :
    step M body s = .go t es →
    Steps M body n t fs u →
    Steps M body (n + 1) s (es ++ fs) u

lemma Steps.single (h : step M body s = .go t es) : Steps M body 1 s es t := by
  have st := Steps.head h .refl
  rwa [append_nil] at st

lemma Steps.trans (st1 : Steps M body m s es t) (st2 : Steps M body n t fs u) :
    Steps M body (m + n) s (es ++ fs) u := by
  induction st1 with
  | refl => simpa using st2
  | @head k s r t es fs' h _ ih =>
    rw [append_assoc, show k + 1 + n = k + n + 1 from by omega]
    exact .head h (ih st2)

lemma Steps.observe (st : Steps M body m s es t) (k : Nat) :
    observe M body (m + k) s = (es ++ (observe M body k t).1, (observe M body k t).2) := by
  induction st with
  | refl => simp
  | @head n s r t es fs h _ ih =>
    rw [show n + 1 + k = n + k + 1 from by omega, Machine.observe, h]
    simp [ih]

/-- Every observation of the run of `A` from `s` is, behind the events `first`, an observation of
the run of `B` from `t`, unless the latter comes to a bad state before. -/
def Follows (M : Meaning V W) (A B : List Instr) (bad : State V W → Prop) (first : List (Event V))
    (s t : State V W) : Prop :=
  ∀ n, (∃ m, n ≤ m ∧
      observe M B m t = (first ++ (observe M A n s).1, (observe M A n s).2)) ∨
    ∃ m es u, Steps M B m t es u ∧ bad u ∧ es <+: first ++ (observe M A n s).1

lemma Follows.exact (h : Follows M A B bad first s t) (good : ∀ u, ¬ bad u) (n : Nat) :
    ∃ m, n ≤ m ∧ observe M B m t = (first ++ (observe M A n s).1, (observe M A n s).2) := by
  obtain h | ⟨_, _, u, _, h, _⟩ := h n
  · exact h
  · exact absurd h (good u)

lemma Follows.behind (st : Steps M B m t es u)
    (h : Follows M A B bad first s u) : Follows M A B bad (es ++ first) s t := by
  intro n
  obtain ⟨k, le, e⟩ | ⟨k, fs, v, st', hb, pre⟩ := h n
  · refine .inl ⟨m + k, by omega, ?_⟩
    rw [st.observe, e, append_assoc]
  · refine .inr ⟨m + k, es ++ fs, v, st.trans st', hb, ?_⟩
    rw [append_assoc]
    exact (prefix_append_right_inj es).mpr pre

lemma Follows.trans (h1 : Follows M A B (fun _ => False) first s t)
    (h2 : Follows M B C bad later t u) : Follows M A C bad (later ++ first) s u := by
  intro n
  obtain ⟨m, le, e⟩ := h1.exact (fun _ => id) n
  obtain ⟨k, le', e'⟩ | ⟨k, fs, v, st, hb, pre⟩ := h2 m
  · refine .inl ⟨k, by omega, ?_⟩
    rw [e', e, append_assoc]
  · refine .inr ⟨k, fs, v, st, hb, ?_⟩
    rwa [e, ← append_assoc] at pre

/-- How the run of `B` from `t` answers a move of another run: by one step at least with the same
events to a related state, by the same end, or by a bad state. -/
def Answers (M : Meaning V W) (B : List Instr) (R : State V W → State V W → Prop)
    (bad : State V W → Prop) (t : State V W) : Move V W → Prop
  | .go s' es => (∃ m t', Steps M B (m + 1) t es t' ∧ R s' t') ∨ ∃ m u, Steps M B m t [] u ∧ bad u
  | .stop v w =>
    (∃ m t', Steps M B m t [] t' ∧ step M B t' = .stop v w) ∨ ∃ m u, Steps M B m t [] u ∧ bad u
  | .fail => (∃ m t', Steps M B m t [] t' ∧ step M B t' = .fail) ∨ ∃ m u, Steps M B m t [] u ∧ bad u

section Answers

variable {R : State V W → State V W → Prop} {move : Move V W}

lemma Answers.after (st : Steps M B n t [] u) (h : Answers M B R bad u move) :
    Answers M B R bad t move := by
  have silent : ∀ {k es v}, Steps M B k u es v → Steps M B (n + k) t es v := fun st' => st.trans st'
  -- whatever the move, it is answered in one of the same two ways, later by `n` steps
  cases move
  all_goals
    obtain ⟨m, t', st', h⟩ | ⟨m, v, st', h⟩ := h
    · exact .inl ⟨n + m, t', silent st', h⟩
    · exact .inr ⟨n + m, v, silent st', h⟩

lemma Answers.of_bad (h : bad t) : Answers M B R bad t move := by
  cases move <;> exact .inr ⟨0, t, .refl, h⟩

/-- Two jumps to a label that both fail, or lead to related states. -/
def JumpsAlike (A B : List Instr) (R : State V W → State V W → Prop) (s t : State V W)
    (l : String) : Prop :=
  (jumpTo A s l = .fail ∧ jumpTo B t l = .fail) ∨
    ∃ s' t', jumpTo A s l = .go s' [] ∧ jumpTo B t l = .go t' [] ∧ R s' t'

variable {i i' : Instr} {op : String} {r r' : List Instr}

/-- A transfer of control on operands of the same values is answered if the jumps are. -/
lemma Answers.transfer (hs : s.rest = i :: r) (ht : t.rest = i' :: r') (hi : i'.shape = i.shape)
    (ho : i.op = some op) (term : i.isTerminator = true)
    (vals : i'.uses.map t.env = i.uses.map s.env) (hw : s.world = t.world)
    (jumps : i.dest = none → i.Branches → ∀ l ∈ i.labels.getD [],
      JumpsAlike A B R { s with rest := r } { t with rest := r' } l) :
    Answers M B R bad t (step M A s) := by
  have ho' : i'.op = some op := by rw [Instr.op_of_shape hi, ho]
  have term' : i'.isTerminator = true := by simpa [Instr.isTerminator, ho, ho'] using term
  have hstep := step_transfer (M := M) (B := B) ht ho' term'
  rw [step_transfer hs ho term]
  cases hd : i.dest with
  | some d =>
    have hd' : i'.dest.isSome := by rw [Instr.dest_isSome_of_shape hi, hd, Option.isSome_some]
    simp only [Machine.transfer, hd, hd', Option.isSome_some, if_true] at hstep ⊢
    exact .inl ⟨0, t, .refl, hstep⟩
  | none =>
    have hd' : i'.dest = none := Instr.dest_of_shape hi hd
    simp only [Machine.transfer, hd, hd', vals, Instr.labels_of_shape hi, Option.isSome_none,
      Bool.false_eq_true, if_false] at hstep ⊢
    by_cases hret : op = "ret"
    · simp only [hret, if_true, ← hw] at hstep ⊢
      cases hl : leave (i.uses.map s.env) s.world with
      | go s' es =>
        unfold leave at hl
        split at hl <;> cases hl
      | stop v w => exact .inl ⟨0, t, .refl, by rw [hstep, hl]⟩
      | fail => exact .inl ⟨0, t, .refl, by rw [hstep, hl]⟩
    · have branches := Instr.branches_of_isTerminator ho term hret
      simp only [hret, if_false] at hstep ⊢
      cases hdst : destination M op (i.labels.getD []) (i.uses.map s.env) with
      | none =>
        rw [hdst] at hstep
        exact .inl ⟨0, t, .refl, hstep⟩
      | some l =>
        rw [hdst] at hstep
        obtain ⟨e1, e2⟩ | ⟨s', t', e1, e2, rel⟩ := jumps hd branches l (destination_mem hdst)
        · simp only [e1]
          exact .inl ⟨0, t, .refl, hstep.trans e2⟩
        · simp only [e1]
          exact .inl ⟨0, t', .single (hstep.trans e2), rel⟩

/-- An operation that control passes through is answered by one of the same shape on operands of the
same values. -/
lemma Answers.straight (hs : s.rest = i :: r) (ht : t.rest = i' :: r') (hi : i'.shape = i.shape)
    (ho : i.op = some op) (hp : op ≠ "phi") (straight : i.isTerminator = false)
    (vals : i'.uses.map t.env = i.uses.map s.env) (hw : s.world = t.world)
    (plain : i.dest = none → ∀ w, R { s with rest := r, world := w } { t with rest := r', world := w })
    (assign : ∀ d d', i.dest = some d → i'.dest = some d' → ∀ v w,
      R { s with rest := r, env := s.env.set d (some v), world := w }
        { t with rest := r', env := t.env.set d' (some v), world := w }) :
    Answers M B R bad t (step M A s) := by
  have ho' : i'.op = some op := by rw [Instr.op_of_shape hi, ho]
  have straight' : i'.isTerminator = false := by simpa [Instr.isTerminator, ho, ho'] using straight
  have hstep := step_straight (M := M) (B := B) ht ho' hp straight'
  rw [vals, hi, ← hw] at hstep
  rw [step_straight hs ho hp straight]
  cases heff : effect M op i.shape (i.uses.map s.env) s.world with
  | none =>
    rw [heff] at hstep
    exact .inl ⟨0, t, .refl, hstep⟩
  | some result =>
    obtain ⟨value, world, events⟩ := result
    rw [heff] at hstep
    cases hd : i.dest with
    | none =>
      simp only [Instr.dest_of_shape hi hd, Machine.bind] at hstep ⊢
      exact .inl ⟨0, _, .single hstep, plain hd world⟩
    | some d =>
      have hsome : i'.dest.isSome := by rw [Instr.dest_isSome_of_shape hi, hd, Option.isSome_some]
      obtain ⟨d', hd'⟩ := Option.isSome_iff_exists.mp hsome
      simp only [hd', Machine.bind] at hstep ⊢
      cases value with
      | none => exact .inl ⟨0, t, .refl, hstep⟩
      | some v => exact .inl ⟨0, _, .single hstep, assign d d' hd hd' v world⟩

end Answers

/-- A relation whose moves are answered makes one run follow the other. -/
theorem Follows.of_simulation (sim : ∀ s t, R s t → Answers M B R bad t (step M A s)) (h : R s t) :
    Follows M A B bad [] s t := by
  intro n
  induction n generalizing s t with
  | zero => exact .inl ⟨0, Nat.le_refl 0, rfl⟩
  | succ n ih =>
    have ans := sim s t h
    have stuck : (∃ m u, Steps M B m t [] u ∧ bad u) →
        ∃ m es u, Steps M B m t es u ∧ bad u ∧ es <+: [] ++ (Machine.observe M A (n + 1) s).1 := by
      rintro ⟨m, u, st, hb⟩
      exact ⟨m, [], u, st, hb, nil_prefix⟩
    cases hs : step M A s with
    | go s' es =>
      rw [hs] at ans
      obtain ⟨m, t', st, h'⟩ | hb := ans
      · obtain ⟨k, le, e⟩ | ⟨k, fs, v, st', hb, pre⟩ := ih h'
        · refine .inl ⟨m + 1 + k, by omega, ?_⟩
          rw [st.observe, e]
          simp [Machine.observe, hs]
        · refine .inr ⟨m + 1 + k, es ++ fs, v, st.trans st', hb, ?_⟩
          simp only [Machine.observe, hs, nil_append] at pre ⊢
          exact (prefix_append_right_inj es).mpr pre
      · exact .inr (stuck hb)
    | stop v w =>
      rw [hs] at ans
      obtain ⟨m, t', st, e⟩ | hb := ans
      · refine .inl ⟨m + (n + 1), by omega, ?_⟩
        rw [st.observe]
        simp [Machine.observe, hs, e]
      · exact .inr (stuck hb)
    | fail =>
      rw [hs] at ans
      obtain ⟨m, t', st, e⟩ | hb := ans
      · refine .inl ⟨m + (n + 1), by omega, ?_⟩
        rw [st.observe]
        simp [Machine.observe, hs, e]
      · exact .inr (stuck hb)

/-- How the run of `B` from `t` matches a move of another run, of which only the moves that do not
fail count: by any number of steps with the same events to a related state, or by the same end. -/
def Matches (M : Meaning V W) (B : List Instr) (R : State V W → State V W → Prop)
    (t : State V W) : Move V W → Prop
  | .go s' es => ∃ m t', Steps M B m t es t' ∧ R s' t'
  | .stop v w => ∃ m t', Steps M B m t [] t' ∧ step M B t' = .stop v w
  | .fail => True

lemma Answers.matches (h : Answers M B R (fun _ => False) t move) : Matches M B R t move := by
  cases move with
  | go s' es =>
    obtain ⟨m, t', st, h⟩ | ⟨_, _, _, h⟩ := h
    · exact ⟨m + 1, t', st, h⟩
    · exact h.elim
  | stop v w =>
    obtain h | ⟨_, _, _, h⟩ := h
    · exact h
    · exact h.elim
  | fail => trivial

lemma observe_of_simulation (sim : ∀ s t, R s t → Matches M B R t (step M A s)) (h : R s t)
    (run : (observe M A n s).2 ≠ .failed) : ∃ m, observe M B m t = observe M A n s := by
  induction n generalizing s t with
  | zero => exact ⟨0, rfl⟩
  | succ n ih =>
    have ans := sim s t h
    cases hs : step M A s with
    | go s' fs =>
      rw [hs] at ans
      obtain ⟨m, t', st, h'⟩ := ans
      simp only [Machine.observe, hs] at run ⊢
      obtain ⟨k, e⟩ := ih h' run
      exact ⟨m + k, by rw [st.observe, e]⟩
    | stop v w =>
      rw [hs] at ans
      obtain ⟨m, t', st, e⟩ := ans
      refine ⟨m + 1, ?_⟩
      rw [st.observe]
      simp [Machine.observe, hs, e]
    | fail => simp [Machine.observe, hs] at run

end Machine

end BrilKit
