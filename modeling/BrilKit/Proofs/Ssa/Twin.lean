import BrilKit.Proofs.Ssa.Naming

/-!
# Runs of renamed blocks

A `Twin` is a labelled block together with its form in which phis stand in front and variables are
replaced by their versions. Main statement: the renamed blocks run as the blocks do.
-/

namespace BrilKit

open List

namespace Ssa

open Machine

variable {V W : Type} {M : Meaning V W} {σ : Scheme}

/-- A labelled block in two forms, with the versions in force behind the phis and, if control can get
there, at the end. -/
structure Twin where
  head : Instr
  code : Block
  phis : Block
  renamed : Block
  start : Naming
  final : Option Naming

def source (L : List Twin) : List Instr := L.flatMap fun b => b.head :: b.code

def target (L : List Twin) : List Instr := L.flatMap fun b => b.head :: (b.phis ++ b.renamed)

/-- A phi for a variable selects, for control that comes from a label, the version in force there;
or no version where there is none. -/
structure Selects (Ver : String → String → Prop) (l : String) (ν ν' : Naming) (x : String)
    (i : Instr) : Prop where
  op : i.op = some "phi"
  arity : (i.labels.getD []).length = i.uses.length
  dest : ∃ d, i.dest = some d ∧ Ver x d ∧ ∀ n, ν' x n ↔ n = d
  operand : ∀ o, ((i.labels.getD []).zip i.uses).lookup l = some o → Reads Ver ν x o
  missing : ((i.labels.getD []).zip i.uses).lookup l = none → ν.Lacks x

/-- The phis that stand between the versions at the end of one block and those at the start of the
next. A variable without a phi keeps a version, or gets any if it has none. -/
structure Links (σ : Scheme) (l : String) (ν : Naming) (phis : Block) (ν' : Naming) : Prop where
  phis : ∃ xs : List String, xs.Nodup ∧ Forall₂ (Selects σ.Version l ν ν') xs phis ∧
    ∀ x, x ∉ xs → Carries σ.Version ν ν' x
  strict : σ.strict → ∀ x n, ν' x n → ν x n

/-- Twins that fit together, as far as control can reach them. -/
structure Versioned (σ : Scheme) (live : Twin → Prop) (L : List Twin) : Prop where
  functional : Functional σ.Version
  heads : ∀ b ∈ L, b.head.op = none ∧ ∃ l, b.head.label = some l
  code : ∀ b ∈ L, ∀ i ∈ b.code, i.label = none ∧ ∃ op, i.op = some op ∧ op ≠ "phi"
  renamed : ∀ b ∈ L, ∀ i ∈ b.phis ++ b.renamed, i.label = none
  proper : ∀ b ∈ L, live b → b.start.Proper σ.Version
  renames : ∀ b ∈ L, live b → Renames σ b.start b.code b.renamed b.final
  jumps : ∀ b ∈ L, live b → ∀ i ∈ b.code, i.Branches →
    ∀ l ∈ i.labels.getD [], ∀ c ∈ L, c.head.label = some l → live c ∧
      ∀ p ν, b.head.label = some p → b.final = some ν → Links σ p ν c.phis c.start
  falls : ∀ before b c behind, L = before ++ b :: c :: behind → live b →
    (∀ i ∈ b.code, i.isTerminator = false) → live c ∧
      ∀ p ν, b.head.label = some p → b.final = some ν → Links σ p ν c.phis c.start

def Twin.lead (n l : String) (ν : Naming) : Twin where
  head := .labelled n
  code := [.jump l]
  phis := []
  renamed := [.jump l]
  start := ν
  final := some ν

lemma Versioned.prepend {live : Twin → Prop} {b : Twin} {L : List Twin} {n l : String}
    (vs : Versioned σ live (b :: L)) (lb : live b) (hp : b.phis = []) (hl : b.head.label = some l)
    (unique : ∀ c ∈ L, c.head.label ≠ some l)
    (new : ∀ c ∈ b :: L, live c → ∀ i ∈ c.code, i.Branches → n ∉ i.labels.getD []) (ne : n ≠ l) :
    Versioned σ (fun c => c = .lead n l b.start ∨ c ∈ b :: L ∧ live c) (.lead n l b.start :: b :: L)
    where
  functional := vs.functional
  heads := forall_mem_cons.mpr ⟨⟨rfl, n, rfl⟩, vs.heads⟩
  code := forall_mem_cons.mpr ⟨by simp [Twin.lead, Instr.jump], vs.code⟩
  renamed := forall_mem_cons.mpr ⟨by simp [Twin.lead, Instr.jump], vs.renamed⟩
  proper c _ lc := by
    obtain rfl | ⟨hc, lc⟩ := lc
    · exact vs.proper b (by simp) lb
    · exact vs.proper c hc lc
  renames c _ lc := by
    obtain rfl | ⟨hc, lc⟩ := lc
    · exact .cons ⟨rfl, .nil, .inl ⟨rfl, rfl⟩⟩ (fun _ => rfl) .nil
    · exact vs.renames c hc lc
  jumps c _ lc i hi hbr k hk d hd hdl := by
    obtain rfl | ⟨hc, lc⟩ := lc
    · obtain rfl : i = .jump l := by simpa [Twin.lead] using hi
      obtain rfl : k = l := by simpa [Instr.jump] using hk
      -- The jump leads to the block that was the first.
      obtain rfl | rfl | hd := by simpa using hd
      · exact absurd (Option.some.inj hdl) ne
      · refine ⟨.inr ⟨by simp, lb⟩, fun p ν _ hν => ?_⟩
        obtain rfl := Option.some.inj hν
        rw [hp]
        exact ⟨⟨[], .nil, .nil, fun x _ => ⟨fun _ h => .inl h, fun h => h⟩⟩, fun _ _ _ h => h⟩
      · exact absurd hdl (unique d hd)
    · obtain rfl | hd := mem_cons.mp hd
      · obtain rfl := Option.some.inj hdl
        exact absurd hk (new c hc lc i hi hbr)
      · obtain ⟨ld, lk⟩ := vs.jumps c hc lc i hi hbr k hk d hd hdl
        exact ⟨.inr ⟨hd, ld⟩, lk⟩
  falls before c d behind h lc hopen := by
    have hne : c ≠ .lead n l b.start := by
      rintro rfl
      have hjump := hopen (.jump l) (by simp [Twin.lead])
      simp [Instr.isTerminator, Instr.jump, terminators] at hjump
    cases before with
    | nil => exact absurd (List.cons.inj h).1.symm hne
    | cons e before =>
      have h := (List.cons.inj h).2
      obtain ⟨ld, lk⟩ := vs.falls before c d behind h (lc.resolve_left hne).2 hopen
      exact ⟨.inr ⟨by simp [h], ld⟩, lk⟩

section Phis

variable {Ver : String → String → Prop} {s : State V W} {e : Env V} {r B : List Instr} {l : String}
  {ν ν' μ : Naming} {phis : Block} {xs : List String}

/-- Phis run one after the other; each writes a version of a variable of its own, so none disturbs
the operands of the next. -/
lemma run_phis (fn : Functional Ver) (nd : xs.Nodup)
    (sel : Forall₂ (Selects Ver l ν ν') xs phis) (pr : μ.Proper Ver)
    (same : ∀ x ∈ xs, μ x = ν x) (ag : Agree Ver μ e s.env) (hp : s.previous = some l)
    (hr : s.rest = phis ++ r) :
    ∃ e' : Env V, Steps M B phis.length s [] { s with rest := r, env := e' } ∧
      Agree Ver (fun x n => μ x n ∨ x ∈ xs ∧ ν' x n) e e' := by
  induction sel generalizing s μ with
  | nil =>
    refine ⟨s.env, ?_, by simpa using ag⟩
    have hs : s = { s with rest := r, env := s.env } := by
      rw [nil_append] at hr
      rw [← hr]
    rw [← hs]
    exact .refl
  | @cons x i xs phis hx sel ih =>
    obtain ⟨d, hd, ver, hν'⟩ := hx.dest
    obtain ⟨hxs, nd⟩ := nodup_cons.mp nd
    have hμ : μ x = ν x := same x (by simp)
    -- The operand selected has the value of the variable.
    have hval : selected s.env i l = e x := by
      unfold selected
      cases ho : ((i.labels.getD []).zip i.uses).lookup l with
      | some o =>
        have hreads := hx.operand o ho
        unfold Reads Naming.Lacks at hreads
        rw [← hμ] at hreads
        exact ag.reads hreads
      | none =>
        have hn := hx.missing ho
        unfold Naming.Lacks at hn
        rw [← hμ] at hn
        exact (ag.unnamed x hn).symm
    have hstep : step M B s = .go { s with rest := phis ++ r, env := s.env.set d (e x) } [] := by
      simp [step, hr, hx.op, perform, phi, hx.arity, hp, hd, hval]
    have same' : ∀ y ∈ xs, μ.add x d y = ν y := by
      intro y hy
      have hne : y ≠ x := by
        rintro rfl
        exact hxs hy
      rw [← same y (by simp [hy])]
      funext n
      simp [Naming.add, hne]
    obtain ⟨e', st, ag'⟩ := ih (s := { s with rest := phis ++ r, env := s.env.set d (e x) }) nd
      (pr.add ver) same' (ag.write fn pr ver) hp rfl
    refine ⟨e', .head hstep st, ?_⟩
    have heq : (fun y n => μ y n ∨ y ∈ x :: xs ∧ ν' y n) =
        fun y n => μ.add x d y n ∨ y ∈ xs ∧ ν' y n := by
      funext y n
      by_cases hy : y = x
      · subst hy
        simp [Naming.add, hxs, hν']
      · simp [Naming.add, hy]
    rw [heq]
    exact ag'

lemma Selects.in_force {x : String} (sel : Forall₂ (Selects Ver l ν ν') xs phis)
    (hx : x ∈ xs) : ∃ d, ν' x d := by
  induction sel with
  | nil => simp at hx
  | cons h _ ih =>
    obtain rfl | hx := mem_cons.mp hx
    · obtain ⟨d, _, _, hd⟩ := h.dest
      exact ⟨d, (hd d).mpr rfl⟩
    · exact ih hx

lemma Links.run (fn : Functional σ.Version) (lk : Links σ l ν phis ν') (pr : ν.Proper σ.Version)
    (ag : Agree σ.Version ν e s.env) (hp : s.previous = some l) (hr : s.rest = phis ++ r) :
    ∃ e' : Env V, Steps M B phis.length s [] { s with rest := r, env := e' } ∧
      Agree σ.Version ν' e e' := by
  obtain ⟨xs, nd, sel, others⟩ := lk.phis
  obtain ⟨e', st, ag'⟩ := run_phis fn nd sel pr (fun _ _ => rfl) ag hp hr
  refine ⟨e', st, ag'.carry fun x => ?_⟩
  by_cases hx : x ∈ xs
  · obtain ⟨d, hd⟩ := Selects.in_force sel hx
    exact ⟨fun n hn => .inl (.inr ⟨hx, hn⟩), fun lack => absurd hd (lack d)⟩
  · have same : (fun n => ν x n ∨ x ∈ xs ∧ ν' x n) = ν x := by simp [hx]
    obtain ⟨kept, lost⟩ := others x hx
    unfold Naming.Lacks at kept lost
    rw [← same] at kept lost
    exact ⟨kept, lost⟩

end Phis

section Search

variable {L : List Twin} {l : String}

lemma dropWhile_of_unlabelled {i : Instr} {is js : List Instr} (hi : i.label ≠ some l)
    (h : ∀ i ∈ is, i.label = none) : (i :: (is ++ js)).dropWhile (fun i => i.label != some l) =
      js.dropWhile fun i => i.label != some l := by
  rw [dropWhile_cons_of_pos (by simpa using hi), dropWhile_append_of_pos fun i hi => by simp [h i hi]]

lemma find_label (hc : ∀ b ∈ L, ∀ i ∈ b.code, i.label = none)
    (hr : ∀ b ∈ L, ∀ i ∈ b.phis ++ b.renamed, i.label = none) :
    (∃ before c behind, L = before ++ c :: behind ∧ c.head.label = some l ∧
      (source L).dropWhile (fun i => i.label != some l) = source (c :: behind) ∧
      (target L).dropWhile (fun i => i.label != some l) = target (c :: behind)) ∨
    (source L).dropWhile (fun i => i.label != some l) = [] ∧
      (target L).dropWhile (fun i => i.label != some l) = [] := by
  induction L with
  | nil => exact .inr ⟨rfl, rfl⟩
  | cons b L ih =>
    by_cases hb : b.head.label = some l
    · refine .inl ⟨[], b, L, rfl, hb, ?_, ?_⟩
      · simp [source, hb]
      · simp [target, hb]
    · have hs : (source (b :: L)).dropWhile (fun i => i.label != some l) =
          (source L).dropWhile fun i => i.label != some l :=
        dropWhile_of_unlabelled hb (hc b (by simp))
      have ht : (target (b :: L)).dropWhile (fun i => i.label != some l) =
          (target L).dropWhile fun i => i.label != some l := by
        simp only [target, flatMap_cons, cons_append]
        exact dropWhile_of_unlabelled hb (hr b (by simp))
      rw [hs, ht]
      obtain ⟨before, c, behind, e, hl, h1, h2⟩ | h := ih (fun c m => hc c (by simp [m]))
        (fun c m => hr c (by simp [m]))
      · exact .inl ⟨b :: before, c, behind, by simp [e], hl, h1, h2⟩
      · exact .inr h

end Search

section Simulation

variable {L behind : List Twin} {live : Twin → Prop} {s t : State V W} {ν : Naming} {e : Env V}
  {x d : String}

/-- Versions in force have a value where the scheme asks for it. -/
def Defined (σ : Scheme) (ν : Naming) (e : Env V) : Prop :=
  σ.strict → ∀ x n, ν x n → ∃ v, e x = some v

lemma Defined.assign (h : Defined σ ν e) (v : V) : Defined σ (ν.set x d) (e.set x (some v)) := by
  intro strict y n hy
  by_cases hx : y = x
  · subst hx
    exact ⟨v, Env.set_same _ _ _⟩
  · rw [Naming.set_other hx] at hy
    rw [Env.set_other hx]
    exact h strict y n hy

lemma Defined.add (h : Defined σ ν e) (hx : ∃ v, e x = some v) : Defined σ (ν.add x d) e := by
  rintro strict y n (hy | ⟨rfl, _⟩)
  · exact h strict y n hy
  · exact hx

def Stuck (σ : Scheme) (u : State V W) : Prop := ∃ i rest, u.rest = i :: rest ∧ σ.stuck i

/-- Both runs stand before the head of a block. -/
structure AtHead (σ : Scheme) (live : Twin → Prop) (L before : List Twin) (c : Twin)
    (behind : List Twin) (ν : Naming) (s t : State V W) : Prop where
  split : L = before ++ c :: behind
  live : live c
  link : (∃ p, t.label = some p ∧ Links σ p ν c.phis c.start) ∨ c.phis = [] ∧ c.start = ν
  proper : ν.Proper σ.Version
  agree : Agree σ.Version ν s.env t.env
  defined : Defined σ ν s.env
  world : s.world = t.world
  rest : s.rest = source (c :: behind)
  rest' : t.rest = target (c :: behind)

/-- Both runs stand at the same place inside a block. -/
structure Inside (σ : Scheme) (live : Twin → Prop) (L before : List Twin) (b : Twin)
    (behind : List Twin) (done todo todo' : Block) (ν : Naming) (s t : State V W) : Prop where
  split : L = before ++ b :: behind
  live : live b
  code : b.code = done ++ todo
  done : ∀ i ∈ done, i.isTerminator = false
  renames : Renames σ ν todo todo' b.final
  proper : ν.Proper σ.Version
  agree : Agree σ.Version ν s.env t.env
  defined : Defined σ ν s.env
  world : s.world = t.world
  rest : s.rest = todo ++ source behind
  rest' : t.rest = todo' ++ target behind
  label : t.label = b.head.label

/-- The states that runs of the two bodies go through together. -/
def Related (σ : Scheme) (live : Twin → Prop) (L : List Twin) (s t : State V W) : Prop :=
  (∃ before c behind ν, AtHead σ live L before c behind ν s t) ∨
    ∃ before b behind done todo todo' ν, Inside σ live L before b behind done todo todo' ν s t

/-- From the head of a block both runs go on behind its phis. -/
lemma AtHead.answers {before : List Twin} {c : Twin} (vs : Versioned σ live L)
    (h : AtHead σ live L before c behind ν s t) :
    Answers M (target L) (Related σ live L) (Stuck σ) t (step M (source L) s) := by
  have hc : c ∈ L := by simp [h.split]
  obtain ⟨hop, l, hl⟩ := vs.heads c hc
  have hs : step M (source L) s =
      .go { s with rest := c.code ++ source behind, label := some l, previous := s.label }
        [.enter l] := by
    simp [step, h.rest, source, hop, Machine.pass, hl]
  have ht : step M (target L) t =
      .go { t with rest := c.phis ++ (c.renamed ++ target behind), label := some l,
                   previous := t.label } [.enter l] := by
    simp [step, h.rest', target, hop, Machine.pass, hl]
  have hdef : Defined σ c.start s.env := by
    intro strict x n hn
    obtain ⟨p, _, lk⟩ | ⟨_, hν⟩ := h.link
    · exact h.defined strict x n (lk.strict strict x n hn)
    · exact h.defined strict x n (hν ▸ hn)
  rw [hs]
  obtain ⟨e', st, ag⟩ : ∃ e' : Env V, Steps M (target L) c.phis.length
      { t with rest := c.phis ++ (c.renamed ++ target behind), label := some l,
               previous := t.label } []
      { t with rest := c.renamed ++ target behind, env := e', label := some l,
               previous := t.label } ∧ Agree σ.Version c.start s.env e' := by
    obtain ⟨p, hp, lk⟩ | ⟨hn, hν⟩ := h.link
    · exact lk.run (s := { t with rest := c.phis ++ (c.renamed ++ target behind),
                                  label := some l, previous := t.label })
        vs.functional h.proper h.agree hp rfl
    · refine ⟨t.env, ?_, hν ▸ h.agree⟩
      rw [hn]
      exact .refl
  have run := (Steps.single ht).trans st
  rw [Nat.add_comm] at run
  refine .inl ⟨c.phis.length, _, run, .inr ⟨before, c, behind, [], c.code, c.renamed, c.start, ?_⟩⟩
  exact {
    split := h.split
    live := h.live
    code := rfl
    done := by simp
    renames := vs.renames c hc h.live
    proper := vs.proper c hc h.live
    agree := ag
    defined := hdef
    world := h.world
    rest := rfl
    rest' := rfl
    label := hl.symm }

section Inside

variable {before behind : List Twin} {b : Twin} {done todo todo' : Block} {ν ν' : Naming}
  {i i' : Instr}

lemma Inside.falls (vs : Versioned σ live L)
    (h : Inside σ live L before b behind done [] [] ν s t) (hf : b.final = some ν) :
    Answers M (target L) (Related σ live L) (Stuck σ) t (step M (source L) s) := by
  have hb : b ∈ L := by simp [h.split]
  have hcode := h.code
  rw [append_nil] at hcode
  cases behind with
  | nil =>
    have hs : step M (source L) s = .stop none s.world := by simp [step, h.rest, source]
    have ht : step M (target L) t = .stop none t.world := by simp [step, h.rest', target]
    rw [hs]
    exact .inl ⟨0, t, .refl, by rw [ht, h.world]⟩
  | cons c behind =>
    obtain ⟨lc, lk⟩ := vs.falls before b c behind h.split h.live (hcode ▸ h.done)
    obtain ⟨_, p, hp⟩ := vs.heads b hb
    have hh : AtHead σ live L (before ++ [b]) c behind ν s t := {
      split := by simp [h.split]
      live := lc
      link := .inl ⟨p, by rw [h.label, hp], lk p ν hp hf⟩
      proper := h.proper
      agree := h.agree
      defined := h.defined
      world := h.world
      rest := h.rest
      rest' := h.rest' }
    exact hh.answers vs

lemma Inside.jumps {l : String} {r r' : List Instr} (vs : Versioned σ live L)
    (h : Inside σ live L before b behind done [i] todo' ν s t) (hf : b.final = some ν)
    (hbr : i.Branches) (hl : l ∈ i.labels.getD []) :
    JumpsAlike (source L) (target L) (Related σ live L) { s with rest := r } { t with rest := r' }
      l := by
  have hb : b ∈ L := by simp [h.split]
  have hi : i ∈ b.code := by simp [h.code]
  obtain ⟨_, p, hp⟩ := vs.heads b hb
  obtain ⟨pre, c, post, hsplit, hc, hs, htg⟩ | ⟨hs, htg⟩ :=
    find_label (l := l) (fun b m i hi => (vs.code b m i hi).1) vs.renamed
  · obtain ⟨lc, lk⟩ := vs.jumps b hb h.live i hi hbr l hl c (by simp [hsplit]) hc
    refine .inr ⟨{ s with rest := source (c :: post) }, { t with rest := target (c :: post) },
      jumpTo_found hs, jumpTo_found htg, .inl ⟨pre, c, post, ν, ?_⟩⟩
    exact {
      split := hsplit
      live := lc
      link := .inl ⟨p, by rw [← hp]; exact h.label, lk p ν hp hf⟩
      proper := h.proper
      agree := h.agree
      defined := h.defined
      world := h.world
      rest := rfl
      rest' := rfl }
  · exact .inl ⟨jumpTo_missing hs, jumpTo_missing htg⟩

lemma Inside.transfers {op : String} (vs : Versioned σ live L)
    (h : Inside σ live L before b behind done [i] [i'] ν s t) (hi : RenamesInstr σ ν i i' ν')
    (hf : b.final = some ν') (ho : i.op = some op) (ht : i.isTerminator = true) :
    Answers M (target L) (Related σ live L) (Stuck σ) t (step M (source L) s) := by
  refine .transfer h.rest h.rest' hi.shape ho ht (h.agree.operands hi.uses) h.world ?_
  intro hd hbr l hl
  obtain ⟨_, rfl⟩ | ⟨x, n, hd', _⟩ := hi.dest
  · exact h.jumps vs hf hbr hl
  · rw [hd] at hd'
    cases hd'

/-- An operation that control passes through is the same in both bodies. -/
lemma Inside.passes {op : String} (vs : Versioned σ live L)
    (h : Inside σ live L before b behind done (i :: todo) (i' :: todo') ν s t)
    (hi : RenamesInstr σ ν i i' ν') (hn : Renames σ ν' todo todo' b.final)
    (ho : i.op = some op) (hp : op ≠ "phi") (ht : i.isTerminator = false) :
    Answers M (target L) (Related σ live L) (Stuck σ) t (step M (source L) s) := by
  -- Where the two runs are once the operation has taken effect.
  have next : ∀ (e e' : Env V) (w : W), Agree σ.Version ν' e e' → Defined σ ν' e →
      Related σ live L { s with rest := todo ++ source behind, env := e, world := w }
        { t with rest := todo' ++ target behind, env := e', world := w } := by
    intro e e' w ag df
    refine .inr ⟨before, b, behind, done ++ [i], todo, todo', ν', ?_⟩
    exact {
      split := h.split
      live := h.live
      code := by simp [h.code]
      done := by
        intro j hj
        obtain hj | rfl := by simpa using hj
        · exact h.done j hj
        · exact ht
      renames := hn
      proper := hi.proper h.proper
      agree := ag
      defined := df
      world := rfl
      rest := rfl
      rest' := rfl
      label := h.label }
  refine .straight h.rest h.rest' hi.shape ho hp ht (h.agree.operands hi.uses) h.world ?_ ?_
  · intro hd w
    obtain ⟨_, rfl⟩ | ⟨x, n, hd', _⟩ := hi.dest
    · exact next _ _ w h.agree h.defined
    · rw [hd] at hd'
      cases hd'
  · intro d d' hd hd' v w
    obtain ⟨hx, _⟩ | ⟨x, n, hx, hx', ver, rfl⟩ := hi.dest
    · rw [hd] at hx
      cases hx
    · rw [hd] at hx
      rw [hd'] at hx'
      cases hx
      cases hx'
      exact next _ _ w (h.agree.assign vs.functional h.proper ver v) (h.defined.assign v)

lemma Inside.copies {x d : String} (vs : Versioned σ live L)
    (h : Inside σ live L before b behind done todo (i' :: todo') ν s t) (strict : σ.strict)
    (cp : CopiesVersion σ.Version ν x d i') (hn : Renames σ (ν.add x d) todo todo' b.final) :
    ∃ u, Steps M (target L) 1 t [] u ∧
      Inside σ live L before b behind done todo todo' (ν.add x d) s u := by
  obtain ⟨n, hu, hx⟩ := cp.uses
  obtain ⟨v, hv⟩ := h.defined strict x n hx
  have hval : t.env n = some v := by rw [h.agree.named x n hx, hv]
  have ht : i'.isTerminator = false := by simp [Instr.isTerminator, cp.op, terminators]
  have hstep := step_straight (M := M) (B := target L) h.rest' cp.op (by decide) ht
  simp only [hu, map_cons, hval, cp.dest] at hstep
  refine ⟨_, .single hstep, ?_⟩
  exact {
    split := h.split
    live := h.live
    code := h.code
    done := h.done
    renames := hn
    proper := h.proper.add cp.version
    agree := hv ▸ h.agree.write vs.functional h.proper cp.version
    defined := h.defined.add ⟨v, hv⟩
    world := h.world
    rest := h.rest
    rest' := rfl
    label := h.label }

lemma Ruined.fails {B is r : List Instr} (h : Ruined is) (ht : t.rest = is ++ r) :
    ∃ m u, Steps M B m t [] u ∧ step M B u = .fail := by
  induction h generalizing t with
  | @transfer i is hi hd =>
    cases ho : i.op with
    | none => simp [Instr.isTerminator, ho] at hi
    | some op => exact ⟨0, t, .refl, by rw [step_transfer ht ho hi, Machine.transfer, if_pos hd]⟩
  | @copy i is ho _ ih =>
    have hi : i.isTerminator = false := by simp [Instr.isTerminator, ho, terminators]
    have hstep := step_straight (M := M) (B := B) ht ho (by decide) hi
    simp only [effect] at hstep
    split at hstep
    · next v w es he =>
      -- The copy is made, and the code behind it is ruined too.
      have hgo : ∃ e, step M B t = .go { t with rest := is ++ r, env := e } [] := by
        split at he
        · cases he
          cases hd : i.dest with
          | none => exact ⟨t.env, by rw [hstep, hd]; rfl⟩
          | some d => exact ⟨t.env.set d _, by rw [hstep, hd]; rfl⟩
        · cases he
      obtain ⟨e, hgo⟩ := hgo
      obtain ⟨m, u, st, hu⟩ := ih (t := { t with rest := is ++ r, env := e }) rfl
      exact ⟨m + 1, u, .head hgo st, hu⟩
    · exact ⟨0, t, .refl, hstep⟩

/-- Both runs go on together inside a block; the run of the renamed block makes the copies that are
next before it answers. -/
lemma Inside.answers (vs : Versioned σ live L)
    (h : Inside σ live L before b behind done todo todo' ν s t) :
    Answers M (target L) (Related σ live L) (Stuck σ) t (step M (source L) s) := by
  have hb : b ∈ L := by simp [h.split]
  have hr := h.renames
  generalize hf : b.final = final at hr
  induction hr generalizing t with
  | nil => exact h.falls vs hf
  | @cons ν ν₁ i i' is is' final hi hend hn _ =>
    obtain ⟨_, op, ho, hp⟩ := vs.code b hb i (by simp [h.code])
    cases ht : i.isTerminator with
    | false => exact h.passes vs hi (hf ▸ hn) ho hp ht
    | true =>
      obtain rfl := hend ht
      cases hn with
      | nil => exact h.transfers vs hi hf ho ht
      | ruined _ _ ruin => cases ruin
  | copy strict cp hn ih =>
    obtain ⟨u, st, hu⟩ := h.copies (M := M) vs strict cp (hf ▸ hn)
    exact (ih hu hf).after st
  | @stuck _ i' _ is' hi => exact .of_bad ⟨i', is' ++ target behind, h.rest', hi⟩
  | @ruined _ i is is' ht hd ruin =>
    obtain ⟨_, op, ho, _⟩ := vs.code b hb i (by simp [h.code])
    rw [step_transfer h.rest ho ht, transfer, if_pos hd]
    obtain ⟨m, u, st, hu⟩ := ruin.fails h.rest'
    exact .inl ⟨m, u, st, hu⟩

end Inside

/-- Renamed blocks that fit together run as the blocks do. The first block has no phis, and the
versions in force at its start have the values that the variables start with. -/
theorem Versioned.follows {b : Twin} (vs : Versioned σ live (b :: behind)) (lb : live b)
    (hp : b.phis = []) (ag : Agree σ.Version b.start s.env t.env) (df : Defined σ b.start s.env)
    (hw : s.world = t.world) (hs : s.rest = source (b :: behind))
    (ht : t.rest = target (b :: behind)) :
    Follows M (source (b :: behind)) (target (b :: behind)) (Stuck σ) [] s t := by
  have start : AtHead σ live (b :: behind) [] b behind b.start s t := {
    split := rfl
    live := lb
    link := .inr ⟨hp, rfl⟩
    proper := vs.proper b (by simp) lb
    agree := ag
    defined := df
    world := hw
    rest := hs
    rest' := ht }
  refine Follows.of_simulation (R := Related σ live (b :: behind)) (fun s t h => ?_)
    (.inl ⟨[], b, behind, b.start, start⟩)
  obtain ⟨_, _, _, _, h⟩ | ⟨_, _, _, _, _, _, _, h⟩ := h
  · exact h.answers vs
  · exact h.answers vs

end Simulation

end Ssa

end BrilKit
