import BrilKit.Proofs.Block.Split
import BrilKit.Proofs.Run.Simulation

/-!
# Positions of a run in blocks

A body that is cut into blocks is run block by block: control goes through a block item by item,
falls into the next block behind the last item, or jumps to the start of the block of a label. A
position is told by the items that are still ahead.
-/

namespace BrilKit

open List

namespace Block

variable {b c : Block} {bs : List Block} {l : String} {i : Instr} {k j q : Nat} {r : List Instr}

def ahead (bs : List Block) (k j : Nat) : List Instr := (bs.drop k).flatten.drop j

lemma ahead_eq (hb : bs[k]? = some b) (hj : j ≤ b.length) :
    ahead bs k j = b.drop j ++ ahead bs (k + 1) 0 := by
  obtain ⟨hk, rfl⟩ := List.getElem?_eq_some_iff.mp hb
  rw [ahead, List.drop_eq_getElem_cons hk, List.flatten_cons, List.drop_append_of_le_length hj]
  rfl

lemma ahead_length (hb : bs[k]? = some b) : ahead bs k b.length = ahead bs (k + 1) 0 := by
  rw [ahead_eq hb (Nat.le_refl _), drop_length, nil_append]

lemma ahead_cons (hb : bs[k]? = some b) (hi : b[j]? = some i) :
    ahead bs k j = i :: ahead bs k (j + 1) := by
  obtain ⟨hj, rfl⟩ := List.getElem?_eq_some_iff.mp hi
  rw [ahead_eq hb (Nat.le_of_lt hj), ahead_eq hb hj, List.drop_eq_getElem_cons hj, List.cons_append]

lemma ahead_eq_nil (hk : bs[k]? = none) : ahead bs k j = [] := by
  rw [ahead, drop_eq_nil_of_le (getElem?_eq_none_iff.mp hk), flatten_nil,
    drop_nil]

lemma length_ahead_add_le (hb : bs[k]? = some b) (hq : k < q) :
    (ahead bs q 0).length + b.length ≤ (ahead bs k 0).length := by
  have suffix : (ahead bs q 0).length ≤ (ahead bs (k + 1) 0).length := by
    have eq : bs.drop q = (bs.drop (k + 1)).drop (q - (k + 1)) := by
      rw [drop_drop]
      congr 1
      omega
    obtain ⟨passed, e⟩ := drop_suffix (q - (k + 1)) (bs.drop (k + 1))
    rw [ahead, ahead, drop_zero, drop_zero, ← e, eq, flatten_append,
      length_append]
    exact Nat.le_add_left _ _
  rw [ahead_eq hb (Nat.zero_le _), drop_zero, length_append]
  omega

lemma start_of_ahead (nonempty : ∀ b ∈ bs, b ≠ []) (hb : bs[k]? = some b) (hj : j < b.length)
    (hc : bs[q]? = some c) (h : ahead bs k j = ahead bs q 0) : k = q ∧ j = 0 := by
  have fewer : (ahead bs k j).length = (ahead bs k 0).length - j := by
    simp only [ahead, length_drop, Nat.sub_zero]
  have enough : b.length ≤ (ahead bs k 0).length := by
    rw [ahead_eq hb (Nat.zero_le _), drop_zero, length_append]
    omega
  rw [h] at fewer
  obtain lt | rfl | gt := Nat.lt_trichotomy k q
  · have le := length_ahead_add_le hb lt
    omega
  · exact ⟨rfl, by omega⟩
  · have le := length_ahead_add_le hc gt
    have pos := length_pos_of_ne_nil (nonempty c (mem_of_getElem? hc))
    omega

/-- The items from a label on are those from the start of a block on that has this label. -/
lemma exists_ahead_of_label (tails : ∀ b ∈ bs, ∀ i ∈ b.tail, i.label = none)
    (h : bs.flatten.dropWhile (fun i => i.label != some l) = i :: r) :
    ∃ q c, bs[q]? = some c ∧ c.head? = some i ∧ i.label = some l ∧ ahead bs q 0 = i :: r := by
  induction bs with
  | nil => simp at h
  | cons b bs ih =>
    have later : bs.flatten.dropWhile (fun i => i.label != some l) = i :: r →
        ∃ q c, (b :: bs)[q]? = some c ∧ c.head? = some i ∧ i.label = some l ∧
          ahead (b :: bs) q 0 = i :: r := by
      intro h
      obtain ⟨q, c, hc, found⟩ := ih (fun c hc => tails c (mem_cons_of_mem b hc)) h
      exact ⟨q + 1, c, hc, found⟩
    rw [List.flatten_cons] at h
    cases b with
    | nil => exact later h
    | cons a b =>
      by_cases hl : a.label = some l
      · rw [List.cons_append, dropWhile_cons, if_neg (by simp [hl])] at h
        obtain ⟨rfl, rfl⟩ := List.cons.inj h
        exact ⟨0, a :: b, rfl, rfl, hl, rfl⟩
      · have skip : ∀ j ∈ a :: b, (j.label != some l) = true := by
          intro j hj
          obtain rfl | hj := mem_cons.mp hj
          · simpa using hl
          · simp [tails _ mem_cons_self j hj]
        rw [dropWhile_append_of_pos skip] at h
        exact later h

end Block

namespace Machine

open Block

variable {V W : Type} {M : Meaning V W} {bs : List Block} {B : List Instr}
variable {s t : State V W} {es : List (Event V)} {b : Block} {i : Instr} {r : List Instr}
variable {k j : Nat}

/-- What going over an item does to the variables: the result of an operation gets a value or none,
that of a constant the one that the machine gives to it. -/
def Assigns (M : Meaning V W) (i : Instr) (env env' : Env V) : Prop :=
  env' = env ∧ (i.op = none ∨ i.dest = none) ∨
    ∃ x v, i.isOp = true ∧ i.dest = some x ∧ env' = env.set x v ∧
      (i.op = some "const" → ∃ os w w', M.act i.shape os w = some (v, w'))

lemma assigns_of_bind {op : String} {result : Option V} {w : W} {fs : List (Event V)}
    (ho : i.op = some op) (h : bind s i.dest result w fs = .go t es)
    (const : op = "const" → ∃ os w w', M.act i.shape os w = some (result, w')) :
    t.rest = s.rest ∧ Assigns M i s.env t.env := by
  cases hd : i.dest with
  | none =>
    rw [hd] at h
    cases h
    exact ⟨rfl, .inl ⟨rfl, .inr hd⟩⟩
  | some d =>
    rw [hd] at h
    cases result with
    | none => cases h
    | some v =>
      cases h
      refine ⟨rfl, .inr ⟨d, some v, by simp [Instr.isOp, ho], hd, rfl, fun hc => const ?_⟩⟩
      exact Option.mem_unique ho hc

/-- A step goes over an item, or jumps to one of the labels of a terminator. -/
lemma step_cases (hs : s.rest = i :: r) (h : step M B s = .go t es) :
    (i.isTerminator = false ∧ t.rest = r ∧ Assigns M i s.env t.env) ∨
      (i.Branches ∧ i.dest = none ∧ t.env = s.env ∧ ∃ l ∈ i.labels.getD [], ∃ a rest,
        B.dropWhile (fun j => j.label != some l) = a :: rest ∧ t.rest = a :: rest) := by
  cases ho : i.op with
  | none =>
    refine .inl ⟨by simp [Instr.isTerminator, ho], ?_⟩
    simp only [step, hs, ho, pass] at h
    split at h
    · cases h
      exact ⟨rfl, .inl ⟨rfl, .inl ho⟩⟩
    · cases h
      exact ⟨rfl, .inl ⟨rfl, .inl ho⟩⟩
  | some op =>
    cases ht : i.isTerminator with
    | true =>
      rw [step_transfer hs ho ht, transfer] at h
      split at h
      · cases h
      · next hd =>
        split at h
        · unfold leave at h
          split at h <;> cases h
        · next hr =>
          split at h
          · next l hl =>
            unfold jumpTo at h
            split at h
            · cases h
            · next rest ne =>
              cases h
              obtain ⟨a, rest, e⟩ := exists_cons_of_ne_nil ne
              refine .inr ⟨Instr.branches_of_isTerminator ho ht hr, by simpa using hd, rfl, l,
                destination_mem hl, a, rest, e, e⟩
          · cases h
    | false =>
      refine .inl ⟨rfl, ?_⟩
      by_cases hp : op = "phi"
      · subst hp
        simp only [step, hs, ho, perform, if_true, phi] at h
        split at h
        · split at h
          · next l d _ hd =>
            cases h
            refine ⟨rfl, .inr ⟨d, _, by simp [Instr.isOp, ho], hd, rfl, fun hc => ?_⟩⟩
            simp [ho] at hc
          · cases h
        · cases h
      · rw [step_straight hs ho hp ht] at h
        split at h
        · next result w fs he =>
          refine assigns_of_bind ho h ?_
          rintro rfl
          obtain ⟨⟨v, w'⟩, hv, e⟩ := Option.bind_eq_some_iff.mp he
          cases e
          exact ⟨_, _, _, hv⟩
        · cases h

end Machine

end BrilKit
