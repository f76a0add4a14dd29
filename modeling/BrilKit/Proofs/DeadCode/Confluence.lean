import BrilKit.Pass
import BrilKit.Proofs.DeadCode.Overwritten
import Mathlib.Logic.Relation

/-!
# Removing dead assignments in any order

The removal of one dead assignment does not bring another one back to life: of two assignments that
can be removed, either can go first. So both loops of passes end with the same body.
-/

namespace BrilKit

open List

namespace DeadCode

/-- One dead assignment is removed. -/
inductive Removal : List Instr → List Instr → Prop where
  | mk {done todo : List Instr} {i : Instr} {d : String} : i.dest = some d →
    Dead ((done ++ i :: todo).flatMap Instr.uses) d todo → Removal (done ++ i :: todo) (done ++ todo)

abbrev Removals : List Instr → List Instr → Prop := Relation.ReflTransGen Removal

/-- Wherever the block stands, dead assignments are removed from it. -/
def Replaces (b c : Block) : Prop :=
  ∀ done todo, Removals (done ++ (b ++ todo)) (done ++ (c ++ todo))

/-- No assignment is dead. -/
structure Tidy (is : List Instr) : Prop where
  read : ∀ i ∈ is, ∀ d, i.dest = some d → d ∈ is.flatMap Instr.uses
  needed : Needed is

section Removal

variable {is js ks done mid todo : List Instr} {i j : Instr} {d e : String} {read : List String}

lemma Dead.mono {read' : List String} (h : Dead read d is) (sub : read' ⊆ read) :
    Dead read' d is :=
  h.imp_left fun hd hd' => hd (sub hd')

lemma uses_subset (h : js.Sublist is) : js.flatMap Instr.uses ⊆ is.flatMap Instr.uses := by
  intro x hx
  obtain ⟨i, hi, hx⟩ := mem_flatMap.mp hx
  exact mem_flatMap.mpr ⟨i, h.subset hi, hx⟩

lemma Dead.remove (h : Dead read d (mid ++ j :: todo)) (he : j.dest = some e)
    (dead : Dead read e todo) : Dead read d (mid ++ todo) := by
  obtain unread | again := h
  · exact .inl unread
  · obtain again | ⟨_, again, through⟩ := overwritten_of_append again
    · exact .inr (overwritten_append_left again)
    · obtain ⟨_, _, hd | ⟨_, again⟩⟩ := overwritten_cons.mp again
      · -- The assignment that goes is the one that overwrites: what makes it dead makes the
        -- earlier one dead.
        obtain rfl := Option.mem_unique hd he
        exact dead.imp_right (through todo)
      · exact .inr (through todo again)

lemma removal_swap (hd : i.dest = some d) (he : j.dest = some e)
    (dead : Dead ((done ++ i :: (mid ++ j :: todo)).flatMap Instr.uses) d (mid ++ j :: todo))
    (dead' : Dead ((done ++ i :: (mid ++ j :: todo)).flatMap Instr.uses) e todo) :
    Removal (done ++ (mid ++ j :: todo)) (done ++ (mid ++ todo)) ∧
      Removal (done ++ i :: (mid ++ todo)) (done ++ (mid ++ todo)) := by
  constructor
  · rw [← append_assoc, ← append_assoc]
    refine .mk he (dead'.mono (uses_subset ?_))
    simp
  · refine Removal.mk hd ((dead.remove he dead').mono (uses_subset ?_))
    simp

lemma removal_diamond (h : Removal is js) (h' : Removal is ks) :
    js = ks ∨ ∃ ms, Removal js ms ∧ Removal ks ms := by
  obtain @⟨done, todo, i, d, hd, dead⟩ := h
  generalize parts : done ++ i :: todo = is at h'
  obtain @⟨done', todo', j, d', hd', dead'⟩ := h'
  obtain ⟨_ | ⟨k, mid⟩, rfl, e⟩ | ⟨_ | ⟨k, mid⟩, rfl, e⟩ := append_eq_append_iff.mp parts
  · obtain ⟨rfl, rfl⟩ := List.cons.inj e
    exact .inl (by simp)
  · obtain ⟨rfl, rfl⟩ := List.cons.inj e
    obtain ⟨first, second⟩ := removal_swap hd hd' dead (by simpa using dead')
    exact .inr ⟨_, first, by simpa using second⟩
  · obtain ⟨rfl, rfl⟩ := List.cons.inj e
    exact .inl (by simp)
  · obtain ⟨rfl, rfl⟩ := List.cons.inj e
    obtain ⟨first, second⟩ := removal_swap hd' hd dead' (by simpa using dead)
    exact .inr ⟨_, by simpa using second, first⟩

lemma Tidy.no_removal (tidy : Tidy is) (h : Removal is js) : False := by
  obtain @⟨done, todo, i, d, hd, unread | again⟩ := h
  · exact unread (tidy.read i (by simp) d hd)
  · rw [tidy.needed done i todo d rfl hd] at again
    cases again

lemma Removals.unique (h : Removals is js) (h' : Removals is ks) (tidy : Tidy js)
    (tidy' : Tidy ks) : js = ks := by
  have diamond : ∀ a b c, Removal a b → Removal a c →
      ∃ d, Relation.ReflGen Removal b d ∧ Removals c d := by
    intro a b c hb hc
    obtain rfl | ⟨d, hb, hc⟩ := removal_diamond hb hc
    · exact ⟨b, .refl, .refl⟩
    · exact ⟨d, .single hb, .single hc⟩
  obtain ⟨ms, hj, hk⟩ := Relation.church_rosser diamond h h'
  have stays : ∀ {as}, Tidy as → Removals as ms → as = ms := by
    intro as tidy h
    obtain rfl | ⟨_, first, _⟩ := h.cases_head
    · rfl
    · exact (tidy.no_removal first).elim
  exact (stays tidy hj).trans (stays tidy' hk).symm

lemma Removals.sublist (h : Removals is js) : js.Sublist is := by
  induction h with
  | refl => exact .refl is
  | tail _ h ih =>
    obtain ⟨_, _⟩ := h
    exact List.Sublist.trans (by simp) ih

lemma Sieved.removals (h : Sieved read is js) (done : List Instr)
    (uses : (done ++ is).flatMap Instr.uses ⊆ read) : Removals (done ++ is) (done ++ js) := by
  induction h generalizing done with
  | nil => exact .refl
  | @keep i is js _ ih => simpa using ih (done ++ [i]) (by simpa using uses)
  | @drop i is js d hd dead _ ih =>
    refine .head (.mk hd (dead.mono uses)) (ih done fun x hx => uses ?_)
    exact uses_subset (by simp) hx

end Removal

/-- A loop that ends: rounds follow one another as long as they report a change. -/
inductive Settles (round : List Instr → List Instr × Bool) : List Instr → List Instr → Prop where
  | stop {is js : List Instr} : round is = (js, false) → Settles round is js
  | again {is js ks : List Instr} : round is = (js, true) → Settles round js ks →
    Settles round is ks

/-- A round keeps a property, makes the body shorter when it reports a change, and leaves it as it
is when it reports none. -/
structure Reduces (P : List Instr → Prop) (round : List Instr → List Instr × Bool) : Prop where
  keeps {is : List Instr} : P is → P (round is).1
  shrinks {is : List Instr} : P is → (round is).2 = true → (round is).1.length < is.length
  stays {is : List Instr} : P is → (round is).2 = false → (round is).1 = is

/-- A pass as a round that reports whether it removed something. -/
def shortening (t : List Instr → List Instr) (is : List Instr) : List Instr × Bool :=
  (t is, (t is).length != is.length)

def counting (once : List Instr → List Instr × Nat) (is : List Instr) : List Instr × Bool :=
  ((once is).1, (once is).2 != 0)

/-- Two rounds as one: the second runs only when the first reports no change. -/
def either (first second : List Instr → List Instr × Bool) (is : List Instr) : List Instr × Bool :=
  if (first is).2 then ((first is).1, true) else second (first is).1

section Loops

variable {P : List Instr → Prop} {round first second : List Instr → List Instr × Bool}
  {is : List Instr} {n : Nat}

lemma Reduces.settles (h : Reduces P round) (loop : Nat → List Instr → List Instr)
    (succ : ∀ n is, loop (n + 1) is = if (round is).2 then loop n (round is).1 else (round is).1)
    (hp : P is) (bound : is.length < n) :
    Settles round is (loop n is) ∧ P (loop n is) ∧ (round (loop n is)).2 = false := by
  induction n generalizing is with
  | zero => omega
  | succ n ih =>
    rw [succ]
    cases changed : (round is).2 with
    | false =>
      have same := h.stays hp changed
      have e : round is = (is, false) := Prod.ext same changed
      simpa [same] using And.intro (Settles.stop e) ⟨hp, changed⟩
    | true =>
      have lt := h.shrinks hp changed
      obtain ⟨settles, rest⟩ := ih (h.keeps hp) (by omega)
      have e : round is = ((round is).1, true) := Prod.ext rfl changed
      simpa using And.intro (Settles.again e settles) rest

lemma Reduces.le (h : Reduces P round) (hp : P is) : (round is).1.length ≤ is.length := by
  cases changed : (round is).2 with
  | false => exact Nat.le_of_eq (congrArg _ (h.stays hp changed))
  | true => exact Nat.le_of_lt (h.shrinks hp changed)

lemma reduces_shortening {t : List Instr → List Instr} (keeps : ∀ is, P is → P (t is))
    (sub : ∀ is, P is → (t is).Sublist is) : Reduces P (shortening t) where
  keeps {is} := keeps is
  shrinks {is} hp changed := by
    have ne : (t is).length ≠ is.length := by simpa [shortening] using changed
    exact Nat.lt_of_le_of_ne (sub is hp).length_le ne
  stays {is} hp same := by
    have eq : (t is).length = is.length := by simpa [shortening] using same
    exact (sub is hp).eq_of_length eq

lemma reduces_either (h : Reduces P first)
    (h' : Reduces P second) : Reduces P (either first second) where
  keeps {is} hp := by
    unfold either
    split
    · exact h.keeps hp
    · exact h'.keeps (h.keeps hp)
  shrinks {is} hp changed := by
    unfold either at changed ⊢
    split at changed
    · next hc => rw [if_pos hc]; exact h.shrinks hp hc
    · next hc =>
      rw [if_neg hc]
      have same := h.stays hp (by simpa using hc)
      rw [same] at changed ⊢
      exact h'.shrinks hp changed
  stays {is} hp same := by
    unfold either at same ⊢
    split at same
    · cases same
    · next hc =>
      rw [if_neg hc]
      have eq := h.stays hp (by simpa using hc)
      rw [eq] at same ⊢
      exact h'.stays hp same

lemma Reduces.of_either (h : Reduces P first) (hp : P is)
    (same : (either first second is).2 = false) : (first is).2 = false ∧ (second is).2 = false := by
  unfold either at same
  split at same
  · cases same
  · next hc =>
    have none : (first is).2 = false := by simpa using hc
    rw [h.stays hp none] at same
    exact ⟨none, same⟩

lemma Reduces.length_le {js : List Instr} (h : Reduces P round) (settles : Settles round is js)
    (hp : P is) : js.length ≤ is.length := by
  induction settles with
  | @stop is js e => simpa [e] using h.le hp
  | @again is js ks e _ ih =>
    have first := h.le hp
    have keeps := h.keeps hp
    rw [e] at first keeps
    exact Nat.le_trans (ih keeps) first

end Loops

/-- A loop over a pass that counts, which counts the rounds that found something. -/
def CountsRounds (once : List Instr → List Instr × Nat)
    (loop : Nat → List Instr → List Instr × Nat) : Prop :=
  ∀ n is, loop (n + 1) is =
    if (once is).2 = 0 then ((once is).1, 0)
    else ((loop n (once is).1).1, (loop n (once is).1).2 + 1)

section Counting

variable {P : List Instr → Prop} {once : List Instr → List Instr × Nat}
  {loop : Nat → List Instr → List Instr × Nat} {is : List Instr}

lemma countsRounds_sweep : CountsRounds sweepOnce sweepWithin := fun _ _ => rfl

lemma countsRounds_sweepBlock : CountsRounds sweepBlockOnce sweepBlockWithin := fun _ _ => rfl

lemma CountsRounds.settles (counts : CountsRounds once loop) (h : Reduces P (counting once))
    (hp : P is) : Settles (counting once) is (loop (is.length + 1) is).1 ∧
      P (loop (is.length + 1) is).1 := by
  have succ : ∀ n is, (loop (n + 1) is).1 = if (counting once is).2
      then (loop n (counting once is).1).1 else (counting once is).1 := by
    intro n is
    rw [counts, counting]
    by_cases none : (once is).2 = 0
    · simp [none]
    · simp [none]
  obtain ⟨settles, hp, _⟩ := h.settles (fun n is => (loop n is).1) succ hp (Nat.lt_succ_self _)
  exact ⟨settles, hp⟩

lemma CountsRounds.eq_zero_iff (counts : CountsRounds once loop) {n : Nat} :
    (loop (n + 1) is).2 = 0 ↔ (once is).2 = 0 := by
  rw [counts]
  by_cases none : (once is).2 = 0
  · simp [none]
  · simp [none]

lemma CountsRounds.reduces (counts : CountsRounds once loop) (h : Reduces P (counting once)) :
    Reduces P (counting fun is => loop (is.length + 1) is) where
  keeps hp := (counts.settles h hp).2
  shrinks {is} hp changed := by
    have some := mt counts.eq_zero_iff.mpr (by simpa [counting] using changed)
    have changed : (counting once is).2 = true := by simpa [counting] using some
    have lt := h.shrinks hp changed
    -- The first round makes the body shorter, and the others do not make it longer.
    cases (counts.settles h hp).1 with
    | stop e => simp [e] at changed
    | again e settles =>
      have le := h.length_le settles (by simpa [e] using h.keeps hp)
      rw [e] at lt
      exact Nat.lt_of_le_of_lt le lt
  stays {is} hp same := by
    have none := counts.eq_zero_iff.mp (by simpa [counting] using same)
    rw [counting, counts, if_pos none]
    exact h.stays hp (by simpa [counting] using none)

end Counting

section Rounds

variable {is js : List Instr} {b : Block}

lemma mem_unreadVars {x : String} : x ∈ unreadVars is ↔
    (∃ i ∈ is, i.dest = some x) ∧ x ∉ is.flatMap Instr.uses := by
  simp only [unreadVars, Members.without, Members.ofList, mem_filter, Members.mem_addAll,
    mem_filterMap, not_mem_nil, false_or, Bool.not_eq_true', contains_eq_mem,
    decide_eq_false_iff_not]

lemma isUnread_iff {i : Instr} (hi : i ∈ is) : isUnread (is.flatMap Instr.uses) i = true ↔
    ∃ x ∈ unreadVars is, i.dest = some x := by
  simp only [mem_unreadVars]
  cases hd : i.dest with
  | none => simp [isUnread, hd]
  | some d =>
    simp only [isUnread, hd, Bool.not_eq_true', contains_eq_mem, decide_eq_false_iff_not]
    constructor
    · exact fun unread => ⟨d, ⟨⟨i, hi, hd⟩, unread⟩, rfl⟩
    · rintro ⟨x, ⟨_, unread⟩, e⟩
      rwa [Option.some.inj e]

lemma sweepOnce_fst (is : List Instr) : (sweepOnce is).1 = dropUnread is := by
  refine filter_congr fun i hi => congrArg _ (Bool.eq_iff_iff.mpr ?_)
  rw [isUnread_iff hi]
  cases hd : i.dest with
  | none => simp
  | some d => simp

lemma sweepOnce_snd (is : List Instr) :
    (sweepOnce is).2 = 0 ↔ (dropUnread is).length = is.length := by
  rw [sweepOnce, length_eq_zero_iff, dropUnread, length_filter_eq_length_iff,
    eq_nil_iff_forall_not_mem]
  constructor
  · intro none i hi
    by_contra unread
    obtain ⟨x, hx, _⟩ := (isUnread_iff hi).mp (by simpa using unread)
    exact none x hx
  · intro kept x hx
    obtain ⟨i, hi, hd⟩ := (mem_unreadVars.mp hx).1
    have unread := (isUnread_iff hi).mpr ⟨x, hx, hd⟩
    simpa [unread] using kept i hi

lemma reduces_sweepOnce (is : List Instr) : Reduces (Removals is) (counting sweepOnce) where
  keeps {js} h := by
    rw [counting, sweepOnce_fst]
    exact h.trans ((sieved_dropUnread js).removals [] (List.Subset.refl _))
  shrinks {js} _ changed := by
    have le := (sieved_dropUnread js).sublist.length_le
    have ne := mt (sweepOnce_snd js).mpr (by simpa [counting] using changed)
    rw [counting, sweepOnce_fst]
    omega
  stays {js} _ same := by
    have e := (sweepOnce_snd js).mp (by simpa [counting] using same)
    rw [counting, sweepOnce_fst]
    exact (sieved_dropUnread js).sublist.eq_of_length e

/-- What a block is left as by passes that find overwritten assignments. -/
structure Shortens (b c : Block) : Prop where
  straight : Straight c
  regular : ∀ i ∈ c, i.Regular
  replaces : Replaces b c

lemma counting_sweepBlockOnce (b : Block) : counting sweepBlockOnce b =
    (withoutPositions b (Overwritten.tracker.out b), (Overwritten.tracker.out b).length != 0) := rfl

lemma withoutPositions_nil (b : Block) : withoutPositions b [] = b := by simp [withoutPositions]

lemma reduces_sweepBlockOnce (b : Block) : Reduces (Shortens b) (counting sweepBlockOnce) where
  keeps {c} h := by
    have sieved := fun read => Overwritten.tracker.sieved_out read h.straight h.regular
    have sub := (sieved []).sublist
    refine ⟨h.straight.sublist sub, fun i hi => h.regular i (sub.subset hi), fun done todo => ?_⟩
    exact (h.replaces done todo).trans
      (((sieved _).append (.refl _ todo)).removals done (List.Subset.refl _))
  shrinks {c} h changed := by
    rw [counting_sweepBlockOnce] at changed ⊢
    exact Overwritten.tracker.length_out_lt h.straight h.regular (by simpa using changed)
  stays {c} _ same := by
    rw [counting_sweepBlockOnce] at same ⊢
    have none : Overwritten.tracker.out c = [] := by simpa using same
    rw [none, withoutPositions_nil]

lemma sweepBlocks_fst (is : List Instr) :
    (sweepBlocks is).1 = (Block.split is).flatMap fun b => (sweepBlock b).1 := by
  rw [sweepBlocks, Block.collect_eq_split, flatMap_map]

lemma sweepBlocks_snd (is : List Instr) :
    (sweepBlocks is).2 = 0 ↔ ∀ b ∈ Block.split is, (sweepBlock b).2 = 0 := by
  have sum : ∀ (bs : List Block) (n : Nat), (bs.map sweepBlock).foldl (fun n r => n + r.2) n = 0 ↔
      n = 0 ∧ ∀ b ∈ bs, (sweepBlock b).2 = 0 := by
    intro bs
    induction bs with
    | nil => simp
    | cons b bs ih =>
      intro n
      rw [map_cons, foldl_cons, ih, forall_mem_cons, Nat.add_eq_zero_iff, and_assoc]
  rw [sweepBlocks, Block.collect_eq_split, sum]
  simp

lemma removals_flatMap {f : Block → Block} {bs : List Block} (h : ∀ b ∈ bs, Replaces b (f b))
    (done : List Instr) : Removals (done ++ bs.flatten) (done ++ bs.flatMap f) := by
  induction bs generalizing done with
  | nil => exact .refl
  | cons b bs ih =>
    have rest := ih (fun c hc => h c (by simp [hc])) (done ++ f b)
    exact (h b (by simp) done bs.flatten).trans (by simpa using rest)

lemma reduces_sweepBlock (b : Block) : Reduces (Shortens b) (counting sweepBlock) :=
  countsRounds_sweepBlock.reduces (reduces_sweepBlockOnce b)

lemma shortens_self (regular : ∀ i ∈ is, i.Regular) (hb : b ∈ Block.split is) : Shortens b b :=
  ⟨straight_of_mem_split hb, regular_of_mem_split regular hb, fun _ _ => .refl⟩

lemma Removals.regular (h : Removals is js) (regular : ∀ i ∈ is, i.Regular) :
    ∀ i ∈ js, i.Regular :=
  fun i hi => regular i (h.sublist.subset hi)

lemma reduces_sweepBlocks (regular : ∀ i ∈ is, i.Regular) :
    Reduces (Removals is) (counting sweepBlocks) where
  keeps {js} h := by
    have blocks := removals_flatMap (f := fun b => (sweepBlock b).1) (fun b hb =>
      ((reduces_sweepBlock b).keeps (shortens_self (h.regular regular) hb)).replaces) []
    rw [Block.flatten_split, ← sweepBlocks_fst] at blocks
    exact h.trans blocks
  shrinks {js} h changed := by
    obtain ⟨b, hb, found⟩ : ∃ b ∈ Block.split js, (sweepBlock b).2 ≠ 0 := by
      simpa using mt (sweepBlocks_snd js).mpr (by simpa [counting] using changed)
    have own : ∀ b ∈ Block.split js, Shortens b b := fun b hb =>
      shortens_self (h.regular regular) hb
    have lt := length_flatMap_lt (fun b hb => (reduces_sweepBlock b).le (own b hb)) hb
      ((reduces_sweepBlock b).shrinks (own b hb) (by simpa [counting] using found))
    rw [Block.flatten_split] at lt
    rwa [counting, sweepBlocks_fst]
  stays {js} h same := by
    have none := (sweepBlocks_snd js).mp (by simpa [counting] using same)
    have each : ∀ b ∈ Block.split js, (sweepBlock b).1 = b := fun b hb =>
      (reduces_sweepBlock b).stays (shortens_self (h.regular regular) hb)
        (by simpa [counting] using none b hb)
    rw [counting, sweepBlocks_fst, flatMap_congr each, flatMap_id', Block.flatten_split]

lemma needed_of_sweepBlocks (regular : ∀ i ∈ is, i.Regular) (none : (sweepBlocks is).2 = 0) :
    Needed is := by
  refine needed_split regular fun b hb => ?_
  have nothing := countsRounds_sweepBlock.eq_zero_iff.mp ((sweepBlocks_snd is).mp none b hb)
  exact Overwritten.tracker.needed_of_out_eq_nil (regular_of_mem_split regular hb)
    (length_eq_zero_iff.mp nothing)

end Rounds

/-- One round of `clean`. -/
def cleanRound : List Instr → List Instr × Bool :=
  either (shortening dropUnread) (shortening dropKilled)

/-- One round of `sweepAll`. -/
def sweepRound : List Instr → List Instr × Bool := either (counting sweep) (counting sweepBlocks)

section Ends

variable {is : List Instr}

lemma removals_dropUnread (is : List Instr) : Removals is (dropUnread is) :=
  (sieved_dropUnread is).removals [] (List.Subset.refl _)

lemma removals_dropKilled (regular : ∀ i ∈ is, i.Regular) : Removals is (dropKilled is) :=
  (sieved_dropKilled _ regular).removals [] (List.Subset.refl _)

/-- `clean` ends, and leaves no dead assignment. -/
lemma clean_spec (regular : ∀ i ∈ is, i.Regular) :
    Settles cleanRound is (clean is) ∧ Removals is (clean is) ∧ Tidy (clean is) := by
  have unread : Reduces (Removals is) (shortening dropUnread) :=
    reduces_shortening (fun js h => h.trans (removals_dropUnread js))
      fun js _ => (sieved_dropUnread js).sublist
  have killed : Reduces (Removals is) (shortening dropKilled) :=
    reduces_shortening (fun js h => h.trans (removals_dropKilled (h.regular regular)))
      fun js h => (removals_dropKilled (h.regular regular)).sublist
  have succ : ∀ n js, cleanWithin (n + 1) js =
      if (cleanRound js).2 then cleanWithin n (cleanRound js).1 else (cleanRound js).1 := by
    intro n js
    by_cases h : (dropUnread js).length = js.length
    · simp [cleanWithin, cleanRound, either, shortening, h]
    · simp [cleanWithin, cleanRound, either, shortening, h]
  obtain ⟨settles, reached, same⟩ : Settles cleanRound is (clean is) ∧ Removals is (clean is) ∧
      (cleanRound (clean is)).2 = false :=
    (reduces_either unread killed).settles cleanWithin succ .refl (Nat.lt_succ_self _)
  obtain ⟨same, same'⟩ := unread.of_either reached same
  refine ⟨settles, reached, ?_, ?_⟩
  · intro i hi d hd
    exact read_of_dropUnread (by simpa [shortening] using same) hi hd
  · exact needed_of_dropKilled (reached.regular regular) (by simpa [shortening] using same')

/-- `sweepAll` ends, and leaves no dead assignment. -/
lemma sweepAll_spec (regular : ∀ i ∈ is, i.Regular) :
    Settles sweepRound is (sweepAll is) ∧ Removals is (sweepAll is) ∧ Tidy (sweepAll is) := by
  have unread : Reduces (Removals is) (counting sweep) :=
    countsRounds_sweep.reduces (reduces_sweepOnce is)
  have killed := reduces_sweepBlocks regular
  have succ : ∀ n js, sweepAllWithin (n + 1) js =
      if (sweepRound js).2 then sweepAllWithin n (sweepRound js).1 else (sweepRound js).1 := by
    intro n js
    by_cases h : (sweep js).2 = 0
    · simp [sweepAllWithin, sweepRound, either, counting, h]
    · simp [sweepAllWithin, sweepRound, either, counting, h]
  obtain ⟨settles, reached, same⟩ : Settles sweepRound is (sweepAll is) ∧
      Removals is (sweepAll is) ∧ (sweepRound (sweepAll is)).2 = false :=
    (reduces_either unread killed).settles sweepAllWithin succ .refl (Nat.lt_succ_self _)
  obtain ⟨same, same'⟩ := unread.of_either reached same
  refine ⟨settles, reached, ?_, ?_⟩
  · intro i hi d hd
    have none : (sweep (sweepAll is)).2 = 0 := by simpa [counting] using same
    exact read_of_dropUnread ((sweepOnce_snd _).mp (countsRounds_sweep.eq_zero_iff.mp none)) hi hd
  · exact needed_of_sweepBlocks (reached.regular regular) (by simpa [counting] using same')

/-- Both ways of removing dead assignments end, with all their inner loops, and leave the same
function. -/
theorem sweepAll_eq_clean {f : Func} (body : f.body = .ok is) (regular : ∀ i ∈ is, i.Regular) :
    Settles cleanRound is (clean is) ∧ Settles sweepRound is (sweepAll is) ∧
      (∀ js, Settles (counting sweepOnce) js (sweep js).1) ∧
      (∀ js, (∀ i ∈ js, i.Regular) → ∀ b ∈ Block.split js,
        Settles (counting sweepBlockOnce) b (sweepBlock b).1) ∧
      sweepAll is = clean is ∧ Pass.onFunc .sweepAll f = .ok (f.withBody (clean is)) ∧
      Pass.onFunc .clean f = .ok (f.withBody (clean is)) := by
  obtain ⟨cleans, removed, tidy⟩ := clean_spec regular
  obtain ⟨sweeps, removed', tidy'⟩ := sweepAll_spec regular
  have same : sweepAll is = clean is := removed'.unique removed tidy' tidy
  refine ⟨cleans, sweeps, fun js => ?_, fun js hjs b hb => ?_, same, ?_, ?_⟩
  · exact (countsRounds_sweep.settles (reduces_sweepOnce js) .refl).1
  · exact (countsRounds_sweepBlock.settles (reduces_sweepBlockOnce b) (shortens_self hjs hb)).1
  · rw [← same]
    exact Outcome.bind_eq_ok.mpr ⟨is, body, rfl⟩
  · exact Outcome.bind_eq_ok.mpr ⟨is, body, rfl⟩

theorem sweepAll_eq_clean_wasteful :
    (∀ i ∈ Func.wasteful.instrs.getD [], i.Regular) ∧
      sweepAll (Func.wasteful.instrs.getD []) = clean (Func.wasteful.instrs.getD []) ∧
      clean (Func.wasteful.instrs.getD []) =
        (Func.wasteful.instrs.getD []).filter fun i => i.dest.isNone || i.value == some (.int 2) := by
  have regular : ∀ i ∈ Func.wasteful.instrs.getD [], i.Regular := by decide
  obtain ⟨_, _, _, _, same, _⟩ := sweepAll_eq_clean (f := .wasteful) rfl regular
  exact ⟨regular, same, by decide⟩

end Ends

end DeadCode

end BrilKit
