import BrilKit.DeadCode.Sweep
import BrilKit.Proofs.Block.Split
import BrilKit.Sample.Programs
import Mathlib.Data.List.Basic

/-!
# Dead assignments

An assignment is dead when its variable is never read, or is assigned again in the same block before
it is read. `Tracker` is what the passes that find the latter have in common.
-/

namespace BrilKit

open List Table

/-- An item that is not an operation reads and assigns nothing, and one that ends a block assigns
nothing. -/
structure Instr.Regular (i : Instr) : Prop where
  label : i.isOp = false → i.dest = none ∧ i.uses = []
  terminator : i.isTerminator = true → i.dest = none

instance (i : Instr) : Decidable i.Regular :=
  decidable_of_iff ((i.isOp = false → i.dest = none ∧ i.uses = []) ∧
    (i.isTerminator = true → i.dest = none)) ⟨fun h => ⟨h.1, h.2⟩, fun h => ⟨h.1, h.2⟩⟩

namespace DeadCode

/-- The variable is assigned again before it is read, in the block that goes on with these items. -/
def overwritten (x : String) : List Instr → Bool
  | [] => false
  | i :: is =>
    i.isOp && !i.uses.contains x && (i.dest == some x || !i.isTerminator && overwritten x is)

/-- The variable is not among those that are read anywhere, or is overwritten by the items behind. -/
def Dead (read : List String) (x : String) (behind : List Instr) : Prop :=
  x ∉ read ∨ overwritten x behind = true

/-- Some of the assignments to variables that are dead behind them are left out. -/
inductive Sieved (read : List String) : List Instr → List Instr → Prop where
  | nil : Sieved read [] []
  | keep {i : Instr} {is js : List Instr} : Sieved read is js → Sieved read (i :: is) (i :: js)
  | drop {i : Instr} {is js : List Instr} {d : String} :
    i.dest = some d → Dead read d is → Sieved read is js → Sieved read (i :: is) js

/-- Behind the first item of the block stand only operations, and a terminator stands last. -/
structure Straight (b : Block) : Prop where
  tail : ∀ i ∈ b.tail, i.isOp = true
  ends : ∀ done i todo, b = done ++ i :: todo → i.isTerminator = true → todo = []

def Needed (is : List Instr) : Prop :=
  ∀ done i todo d, is = done ++ i :: todo → i.dest = some d → overwritten d todo = false

section Overwritten

variable {x : String} {i : Instr} {is js : List Instr}

lemma overwritten_cons : overwritten x (i :: is) = true ↔ i.isOp = true ∧ x ∉ i.uses ∧
    (i.dest = some x ∨ i.isTerminator = false ∧ overwritten x is = true) := by
  simp [overwritten, and_assoc]

lemma overwritten_append_left (h : overwritten x is = true) : overwritten x (is ++ js) = true := by
  induction is with
  | nil => cases h
  | cons i is ih =>
    obtain ⟨op, unread, h⟩ := overwritten_cons.mp h
    exact overwritten_cons.mpr ⟨op, unread, h.imp_right (And.imp_right ih)⟩

lemma overwritten_of_append (h : overwritten x (is ++ js) = true) : overwritten x is = true ∨
    (∀ i ∈ is, i.isTerminator = false) ∧ overwritten x js = true ∧
      ∀ ks, overwritten x ks = true → overwritten x (is ++ ks) = true := by
  induction is with
  | nil => exact .inr ⟨by simp, h, fun _ hk => hk⟩
  | cons i is ih =>
    obtain ⟨op, unread, hd | ⟨ht, h⟩⟩ := overwritten_cons.mp h
    · exact .inl (overwritten_cons.mpr ⟨op, unread, .inl hd⟩)
    · obtain h | ⟨hopen, h, through⟩ := ih h
      · exact .inl (overwritten_cons.mpr ⟨op, unread, .inr ⟨ht, h⟩⟩)
      · refine .inr ⟨forall_mem_cons.mpr ⟨ht, hopen⟩, h, fun ks hk => ?_⟩
        exact overwritten_cons.mpr ⟨op, unread, .inr ⟨ht, through ks hk⟩⟩

end Overwritten

section Straight

variable {b c : Block}

lemma Straight.of_wellCut (h : Block.WellCut b) : Straight b := ⟨h.tail, h.ends⟩

lemma Straight.sublist (h : Straight b) (sub : c.Sublist b) : Straight c where
  tail i hi := h.tail i (sub.tail.subset hi)
  ends done i todo e ht := by
    subst e
    obtain ⟨front, back, rfl, _, sub⟩ := append_sublist_iff.mp sub
    obtain ⟨mid, back, rfl, hi, behind⟩ := cons_sublist_iff.mp sub
    obtain ⟨p, q, rfl⟩ := append_of_mem hi
    have last := h.ends (front ++ p) i (q ++ back) (by simp) ht
    obtain rfl := (append_eq_nil_iff.mp last).2
    exact sublist_nil.mp behind

end Straight

section Sieved

variable {read : List String} {is js is' js' : List Instr}

lemma Sieved.refl (read : List String) (is : List Instr) : Sieved read is is := by
  induction is with
  | nil => exact .nil
  | cons i is ih => exact .keep ih

lemma Sieved.sublist (h : Sieved read is js) : js.Sublist is := by
  induction h with
  | nil => exact .slnil
  | keep _ ih => exact ih.cons_cons _
  | drop _ _ _ ih => exact ih.cons _

lemma Sieved.append (h : Sieved read is js) (h' : Sieved read is' js') :
    Sieved read (is ++ is') (js ++ js') := by
  induction h with
  | nil => exact h'
  | keep _ ih => exact .keep ih
  | drop hd dead _ ih => exact .drop hd (dead.imp_right overwritten_append_left) ih

lemma sieved_withoutPositions {out : List Nat} {n : Nat}
    (h : ∀ k i, is[k]? = some i → n + k ∈ out →
      ∃ d, i.dest = some d ∧ Dead read d (is.drop (k + 1))) :
    Sieved read is (((is.zipIdx n).filter fun p => !out.contains p.2).map Prod.fst) := by
  induction is generalizing n with
  | nil => exact .nil
  | cons i is ih =>
    have rest := ih (n := n + 1) fun k j hj hout =>
      h (k + 1) j hj (by rwa [Nat.add_right_comm] at hout)
    by_cases hout : n ∈ out
    · obtain ⟨d, hd, dead⟩ := h 0 i rfl hout
      simpa [hout] using Sieved.drop hd dead rest
    · simpa [hout] using Sieved.keep rest

end Sieved

/-- What is asked of a pass over the items of a block that looks for overwritten assignments: it
remembers an unread assignment of each variable, and finds those that a further assignment meets. -/
structure Laws {σ : Type} (start : σ) (take : σ → Instr × Nat → σ) (pending : σ → String → Option Nat)
    (found : σ → List Nat) : Prop where
  pending_start {x : String} : pending start x = none
  found_start : found start = []
  pending_take {s : σ} {i : Instr} {n m : Nat} {x : String} : i.Regular →
    pending (take s (i, n)) x = some m →
      i.dest = some x ∧ m = n ∨ x ∉ i.uses ∧ pending s x = some m
  found_take {s : σ} {i : Instr} {n m : Nat} : i.Regular → (m ∈ found (take s (i, n)) ↔
    m ∈ found s ∨ ∃ x, i.dest = some x ∧ x ∉ i.uses ∧ pending s x = some m)
  pending_assigned {s : σ} {i : Instr} {n : Nat} {x : String} : i.Regular →
    i.dest = some x → (pending (take s (i, n)) x).isSome = true
  pending_unread {s : σ} {i : Instr} {n : Nat} {x : String} : i.Regular →
    x ∉ i.uses → (pending s x).isSome = true → (pending (take s (i, n)) x).isSome = true

/-- A pass over the items of a block that looks for overwritten assignments: the unread assignment
it remembers of a variable, and the positions it found. -/
structure Tracker (σ : Type) where
  start : σ
  take : σ → Instr × Nat → σ
  pending : σ → String → Option Nat
  found : σ → List Nat
  laws : Laws start take pending found

namespace Tracker

variable {σ : Type} {T : Tracker σ} {s : σ} {is : List Instr} {b : Block} {x : String} {n m : Nat}

def out (T : Tracker σ) (b : Block) : List Nat := T.found (b.zipIdx.foldl T.take T.start)

/-- A position that is found belongs to an assignment that the items behind it overwrite. -/
lemma overwritten_of_found (regular : ∀ i ∈ is, i.Regular) (ops : ∀ i ∈ is, i.isOp = true)
    (hopen : ∀ done i todo, is = done ++ i :: todo → i.isTerminator = true → todo = [])
    (h : m ∈ T.found ((is.zipIdx n).foldl T.take s)) :
    m ∈ T.found s ∨ (∃ x, T.pending s x = some m ∧ overwritten x is = true) ∨
      ∃ k i d, is[k]? = some i ∧ m = n + k ∧ i.dest = some d ∧
        overwritten d (is.drop (k + 1)) = true := by
  induction is generalizing s n with
  | nil => exact .inl h
  | cons i is ih =>
    have hi := regular i (by simp)
    have op := ops i (by simp)
    have goes : ∀ y, overwritten y is = true → i.isTerminator = false := by
      intro y hy
      by_contra ht
      obtain rfl := hopen [] i is rfl (by simpa using ht)
      cases hy
    obtain h | ⟨y, hy, again⟩ | ⟨k, j, d, hj, rfl, hd, again⟩ :=
      ih (n := n + 1) (fun j hj => regular j (by simp [hj])) (fun j hj => ops j (by simp [hj]))
        (fun done j todo e => hopen (i :: done) j todo (by rw [e]; rfl)) h
    · obtain h | ⟨y, hd, unread, hy⟩ := (T.laws.found_take hi).mp h
      · exact .inl h
      · exact .inr (.inl ⟨y, hy, overwritten_cons.mpr ⟨op, unread, .inl hd⟩⟩)
    · obtain ⟨hd, rfl⟩ | ⟨unread, hy⟩ := T.laws.pending_take hi hy
      · exact .inr (.inr ⟨0, i, y, rfl, rfl, hd, again⟩)
      · exact .inr (.inl ⟨y, hy, overwritten_cons.mpr ⟨op, unread, .inr ⟨goes y again, again⟩⟩⟩)
    · exact .inr (.inr ⟨k + 1, j, d, hj, by omega, hd, again⟩)

/-- What a pass over a block finds are its overwritten assignments. -/
lemma overwritten_of_mem_out (straight : Straight b) (regular : ∀ i ∈ b, i.Regular)
    (h : m ∈ T.out b) :
    ∃ i d, b[m]? = some i ∧ i.dest = some d ∧ overwritten d (b.drop (m + 1)) = true := by
  cases b with
  | nil => simp [out, T.laws.found_start] at h
  | cons i r =>
    -- The first item may be a label. Nothing is pending before it, so only the rest has to be
    -- made of operations.
    have hi := regular i (by simp)
    have rest : ∀ j ∈ r, j.Regular := fun j hj => regular j (by simp [hj])
    obtain h | ⟨y, hy, again⟩ | ⟨k, j, d, hj, rfl, hd, again⟩ :=
      overwritten_of_found (n := 1) rest straight.tail
        (fun done j todo e => straight.ends (i :: done) j todo (by rw [e]; rfl)) h
    · obtain h | ⟨y, _, _, hy⟩ := (T.laws.found_take hi).mp h
      · simp [T.laws.found_start] at h
      · simp [T.laws.pending_start] at hy
    · obtain ⟨hd, rfl⟩ | ⟨_, hy⟩ := T.laws.pending_take hi hy
      · exact ⟨i, y, rfl, hd, again⟩
      · simp [T.laws.pending_start] at hy
    · exact ⟨j, d, by rwa [Nat.add_comm], hd, by rwa [Nat.add_comm 1]⟩

lemma sieved_out (read : List String) (straight : Straight b) (regular : ∀ i ∈ b, i.Regular) :
    Sieved read b (withoutPositions b (T.out b)) := by
  refine sieved_withoutPositions fun k i hi hk => ?_
  rw [Nat.zero_add] at hk
  obtain ⟨j, d, hj, hd, again⟩ := T.overwritten_of_mem_out straight regular hk
  obtain rfl : i = j := Option.mem_unique hi hj
  exact ⟨d, hd, .inr again⟩

lemma length_out_lt (straight : Straight b) (regular : ∀ i ∈ b, i.Regular) (h : T.out b ≠ []) :
    (withoutPositions b (T.out b)).length < b.length := by
  obtain ⟨m, hm⟩ := exists_mem_of_ne_nil _ h
  obtain ⟨i, _, hi, _⟩ := T.overwritten_of_mem_out straight regular hm
  have mem : (i, m) ∈ b.zipIdx := mem_zipIdx_iff_getElem?.mpr hi
  have lt : (b.zipIdx.filter fun p => !(T.out b).contains p.2).length < b.zipIdx.length :=
    length_filter_lt_length_iff_exists.mpr ⟨(i, m), mem, by simpa using hm⟩
  simpa [withoutPositions] using lt

lemma found_foldl (regular : ∀ i ∈ is, i.Regular) (h : m ∈ T.found s) :
    m ∈ T.found ((is.zipIdx n).foldl T.take s) := by
  induction is generalizing s n with
  | nil => exact h
  | cons i is ih =>
    exact ih (fun j hj => regular j (by simp [hj])) ((T.laws.found_take (regular i (by simp))).mpr (.inl h))

lemma found_ne_nil (regular : ∀ i ∈ is, i.Regular) (hx : (T.pending s x).isSome = true)
    (h : overwritten x is = true) : T.found ((is.zipIdx n).foldl T.take s) ≠ [] := by
  induction is generalizing s n with
  | nil => cases h
  | cons i is ih =>
    have hi := regular i (by simp)
    have rest : ∀ j ∈ is, j.Regular := fun j hj => regular j (by simp [hj])
    obtain ⟨_, unread, hd | ⟨_, h⟩⟩ := overwritten_cons.mp h
    · obtain ⟨m, hm⟩ := Option.isSome_iff_exists.mp hx
      have found := found_foldl (n := n + 1) rest
        ((T.laws.found_take (n := n) hi).mpr (.inr ⟨x, hd, unread, hm⟩))
      exact ne_nil_of_mem found
    · exact ih rest (T.laws.pending_unread hi unread hx) h

lemma needed_of_out_eq_nil (regular : ∀ i ∈ b, i.Regular) (h : T.out b = []) : Needed b := by
  rintro done i todo d rfl hd
  by_contra again
  rw [out, zipIdx_append, foldl_append, zipIdx_cons] at h
  exact found_ne_nil (fun j hj => regular j (by simp [hj]))
    (T.laws.pending_assigned (regular i (by simp)) hd) (by simpa using again) h

end Tracker

section Trackers

variable {k : Killed} {o : Overwritten} {i : Instr} {n m : Nat} {x : String}

lemma Killed.pending_take : (k.take (i, n)).pending.get? x =
    if i.dest = some x then some n else if x ∈ i.uses then none else k.pending.get? x := by
  cases hd : i.dest with
  | none => simp [take, hd, get?_foldl_erase]
  | some d =>
    have put : (k.take (i, n)).pending = (i.uses.foldl Table.erase k.pending).put d n := by
      simp only [take, hd]
      split <;> rfl
    rw [put, get?_put, get?_foldl_erase]
    simp [eq_comm]

lemma Killed.mem_dropped_take : m ∈ (k.take (i, n)).dropped ↔
    m ∈ k.dropped ∨ ∃ x, i.dest = some x ∧ x ∉ i.uses ∧ k.pending.get? x = some m := by
  cases hd : i.dest with
  | none => simp [take, hd]
  | some d =>
    simp only [take, hd, get?_foldl_erase]
    by_cases read : d ∈ i.uses
    · simp [read]
    · cases hk : k.pending.get? d <;> simp [read, hk, or_comm, eq_comm]

lemma Overwritten.unread_take (hi : i.Regular) : (o.take (i, n)).unread.get? x =
    (if x ∈ i.uses then none else o.unread.get? x).or
      (if i.dest = some x then some n else none) := by
  cases op : i.isOp with
  | false =>
    obtain ⟨hd, hu⟩ := hi.label op
    simp [take, hd, hu]
  | true =>
    rw [← get?_foldl_erase]
    cases hd : i.dest with
    | none => simp [take, op, hd]
    | some d =>
      cases old : (i.uses.foldl Table.erase o.unread).get? d with
      | some m =>
        by_cases hx : d = x
        · subst hx
          simp [take, op, hd, old]
        · simp [take, op, hd, old, hx]
      | none =>
        by_cases hx : d = x
        · subst hx
          simp [take, op, hd, old]
        · simp [take, op, hd, old, hx, get?_put_other (Ne.symm hx)]

lemma Overwritten.mem_dead_take (hi : i.Regular) : m ∈ (o.take (i, n)).dead ↔
    m ∈ o.dead ∨ ∃ x, i.dest = some x ∧ x ∉ i.uses ∧ o.unread.get? x = some m := by
  cases op : i.isOp with
  | false => simp [take, hi.label op]
  | true =>
    cases hd : i.dest with
    | none => simp [take, op, hd]
    | some d =>
      simp only [take, op, hd, get?_foldl_erase]
      by_cases read : d ∈ i.uses
      · simp [read]
      · cases hk : o.unread.get? d <;> simp [read, hk, eq_comm]

lemma Killed.laws : Laws (Killed.mk .empty []) take (fun k => k.pending.get?) dropped where
  pending_start := rfl
  found_start := rfl
  pending_take {s i n m x} _ h := by
    rw [Killed.pending_take] at h
    split at h
    · next hd => exact .inl ⟨hd, (Option.some.inj h).symm⟩
    · exact .inr (by simpa using h)
  found_take _ := mem_dropped_take
  pending_assigned _ hd := by simp [Killed.pending_take, hd]
  pending_unread {s i n x} _ unread h := by
    rw [Killed.pending_take]
    split
    · rfl
    · exact h

lemma Overwritten.laws : Laws (Overwritten.mk .empty []) take (fun o => o.unread.get?) dead where
  pending_start := rfl
  found_start := rfl
  pending_take {s i n m x} hi h := by
    rw [unread_take hi] at h
    obtain old | ⟨_, new⟩ := Option.or_eq_some_iff.mp h
    · exact .inr (by simpa using old)
    · exact .inl (by simpa [eq_comm] using new)
  found_take := mem_dead_take
  pending_assigned {s i n x} hi hd := by
    rw [unread_take hi, if_pos hd]
    simp
  pending_unread {s i n x} hi unread h := by
    rw [unread_take hi, if_neg unread, Option.isSome_or, h, Bool.true_or]

end Trackers

/-- The pass that remembers the latest unread assignment of a variable. -/
def Killed.tracker : Tracker Killed := ⟨{}, take, fun k => k.pending.get?, dropped, laws⟩

/-- The pass that remembers the first unread assignment of a variable. -/
def Overwritten.tracker : Tracker Overwritten := ⟨{}, take, fun o => o.unread.get?, dead, laws⟩

section Passes

variable {is : List Instr} {bs : List Block} {read : List String} {f : Block → Block} {i : Instr}
  {d : String} {b : Block}

lemma Sieved.blocks (h : ∀ b ∈ bs, Sieved read b (f b)) :
    Sieved read bs.flatten (bs.flatMap f) := by
  induction bs with
  | nil => exact .nil
  | cons b bs ih => exact (h b (by simp)).append (ih fun c hc => h c (by simp [hc]))

lemma not_ended_of_dest {done back : List Instr} (hi : i.Regular) (hd : i.dest = some d)
    (hopen : ∀ j ∈ back, j.isTerminator = false) : Block.Ended (done ++ i :: back) = false := by
  have hi : i.isTerminator = false := by
    by_contra ht
    simp [hi.terminator (by simpa using ht)] at hd
  rw [Block.Ended, getLast?_append_cons]
  exact Block.not_ended (forall_mem_cons.mpr ⟨hi, hopen⟩)

/-- No assignment of a body is overwritten if none is in its block. -/
lemma needed_flatten (chain : bs.IsChain Block.Adjoins) (regular : ∀ i ∈ bs.flatten, i.Regular)
    (h : ∀ b ∈ bs, Needed b) : Needed bs.flatten := by
  induction bs with
  | nil => simp [Needed]
  | cons b bs ih =>
    have rest := ih chain.of_cons (fun j hj => regular j (by simp [hj]))
      fun c hc => h c (by simp [hc])
    intro done i todo d parts hd
    obtain ⟨front, rfl, e⟩ | ⟨_ | ⟨j, back⟩, rfl, e⟩ := append_eq_append_iff.mp parts
    · exact rest front i todo d e hd
    · exact rest [] i todo d e.symm hd
    · obtain ⟨rfl, rfl⟩ := List.cons.inj e
      by_contra again
      obtain again | ⟨hopen, again, _⟩ := overwritten_of_append (by simpa using again)
      · rw [h _ (by simp) done i back d rfl hd] at again
        cases again
      · -- The block lets the variable through, so it runs into a block that starts with a label.
        cases chain with
        | singleton => cases again
        | @cons_cons _ c bs adjoins _ =>
          obtain ended | ⟨k, hk, op⟩ := adjoins
          · rw [not_ended_of_dest (regular i (by simp)) hd hopen] at ended
            cases ended
          · obtain ⟨c, rfl⟩ := head?_eq_some_iff.mp hk
            rw [(overwritten_cons.mp again).1] at op
            cases op

lemma straight_of_mem_split (hb : b ∈ Block.split is) : Straight b :=
  .of_wellCut (Block.wellCut_of_mem_split hb)

lemma regular_of_mem_split (regular : ∀ i ∈ is, i.Regular) (hb : b ∈ Block.split is) :
    ∀ i ∈ b, i.Regular := by
  intro i hi
  refine regular i ?_
  rw [← Block.flatten_split is]
  exact mem_flatten_of_mem hb hi

lemma sieved_split (regular : ∀ i ∈ is, i.Regular)
    (h : ∀ b, Straight b → (∀ i ∈ b, i.Regular) → Sieved read b (f b)) :
    Sieved read is ((Block.split is).flatMap f) := by
  conv => arg 2; rw [← Block.flatten_split is]
  exact .blocks fun b hb => h b (straight_of_mem_split hb) (regular_of_mem_split regular hb)

lemma needed_split (regular : ∀ i ∈ is, i.Regular) (h : ∀ b ∈ Block.split is, Needed b) :
    Needed is := by
  have all := needed_flatten Block.adjoins_split (by rwa [Block.flatten_split]) h
  rwa [Block.flatten_split] at all

lemma length_flatMap_le (le : ∀ b ∈ bs, (f b).length ≤ b.length) :
    (bs.flatMap f).length ≤ bs.flatten.length := by
  induction bs with
  | nil => simp
  | cons b bs ih =>
    have first := le b (by simp)
    have rest := ih fun c hc => le c (by simp [hc])
    simp only [flatMap_cons, flatten_cons, length_append]
    omega

lemma length_flatMap_lt (le : ∀ b ∈ bs, (f b).length ≤ b.length) (hb : b ∈ bs)
    (lt : (f b).length < b.length) : (bs.flatMap f).length < bs.flatten.length := by
  obtain ⟨before, behind, rfl⟩ := append_of_mem hb
  have h := length_flatMap_le (f := f) fun c (hc : c ∈ before) => le c (by simp [hc])
  have h' := length_flatMap_le (f := f) fun c (hc : c ∈ behind) => le c (by simp [hc])
  simp only [flatMap_append, flatMap_cons, flatten_append, flatten_cons,
    length_append]
  omega

lemma sieved_filter (read : List String) (is : List Instr) :
    Sieved read is (is.filter fun i => !isUnread read i) := by
  induction is with
  | nil => exact .nil
  | cons i is ih =>
    cases hd : i.dest with
    | none => simpa [isUnread, hd] using Sieved.keep ih
    | some d =>
      by_cases hread : d ∈ read
      · simpa [isUnread, hd, hread] using Sieved.keep ih
      · simpa [isUnread, hd, hread] using Sieved.drop hd (.inl hread) ih

lemma sieved_dropUnread (is : List Instr) : Sieved (is.flatMap Instr.uses) is (dropUnread is) :=
  sieved_filter _ is

lemma read_of_dropUnread (h : (dropUnread is).length = is.length) (hi : i ∈ is)
    (hd : i.dest = some d) : d ∈ is.flatMap Instr.uses := by
  have kept := length_filter_eq_length_iff.mp h i hi
  simpa [isUnread, hd] using kept

lemma sieved_dropKilled (read : List String) (regular : ∀ i ∈ is, i.Regular) :
    Sieved read is (dropKilled is) :=
  sieved_split regular fun _ straight hb => Killed.tracker.sieved_out read straight hb

lemma needed_of_dropKilled (regular : ∀ i ∈ is, i.Regular)
    (h : (dropKilled is).length = is.length) : Needed is := by
  refine needed_split regular fun b hb => ?_
  have shorter : ∀ c ∈ Block.split is, (dropKilledBlock c).length ≤ c.length := fun c hc =>
    (Killed.tracker.sieved_out [] (straight_of_mem_split hc)
      (regular_of_mem_split regular hc)).sublist.length_le
  refine Killed.tracker.needed_of_out_eq_nil (regular_of_mem_split regular hb) ?_
  by_contra found
  have lt := length_flatMap_lt shorter hb
    (Killed.tracker.length_out_lt (straight_of_mem_split hb)
      (regular_of_mem_split regular hb) found)
  rw [Block.flatten_split] at lt
  exact absurd h (Nat.ne_of_lt lt)

end Passes

end DeadCode

/-- Prints the number two. The first assignment is overwritten, the one before the jump is never
read, and once that is gone neither is the one before it. -/
def Func.wasteful : Func where
  name := some "main"
  instrs := some [
    Sample.whole "a" 1,
    Sample.whole "a" 2,
    Sample.compute .int "add" "b" ["a", "a"],
    Sample.compute .int "id" "c" ["b"],
    .jump "end",
    .labelled "end",
    Sample.effect "print" ["a"]]

end BrilKit
