import BrilKit.Proofs.ValueNumbering.ReadBack

/-!
# Value numbering of single assignments keeps what a block does

In a block of single assignments a register says of every number which value it is: that of the
variables that hold it, at the end of the run, and that for which its text stands. The texts must
read back, and what is carried out ahead must be exact.
-/

namespace BrilKit

open List Outcome Table

namespace ValueNumbering

open Machine (Env)
open Words (write)

namespace Register

variable {r : Register} {f : Env Val} {n m : Nat} {v : Val} {t d x : String}
  {c : Option Val}

def worth (r : Register) (f : Env Val) (n : Nat) : Option Val :=
  match r.holder n with
  | .ok (some y) => f y
  | _ => none

lemma worth_of_holder {y : String} (h : r.holder n = .ok (some y)) : r.worth f n = f y := by
  rw [worth, h]

lemma worth_eq_some : r.worth f n = some v ↔ ∃ y, r.holder n = .ok (some y) ∧ f y = some v := by
  unfold worth
  split
  · next y hy => simp [hy]
  · next hy => simpa using fun y h => absurd h (hy y)

lemma worth_enter (h : r.worth f n = some v) (old : n ≠ r.next) :
    (r.enter (some d) t).worth f n = some v := by
  obtain ⟨y, hy, hv⟩ := worth_eq_some.mp h
  exact worth_eq_some.mpr ⟨y, holder_enter.mpr (.inr ⟨old, hy⟩), hv⟩

lemma worth_enter_next : (r.enter (some d) t).worth f r.next = f d :=
  worth_of_holder (holder_enter.mpr (.inl ⟨rfl, rfl⟩))

lemma worth_assign {z : Option String} (hm : r.holder m = .ok z) :
    (r.assign (some d) m).worth f = r.worth f := by
  funext n
  refine Option.ext fun v => ?_
  rw [worth_eq_some, worth_eq_some]
  simp only [holder_assign hm]

lemma holdsConst_enter (older : ∀ n, r.numbers.get? (some x) = some n → n ≠ r.next) :
    (r.enter (some d) t).HoldsConst x v ↔
      if x = d then t = textOfConst v.toDatum else r.HoldsConst x v := by
  simp only [HoldsConst, enter, get?_put, Option.some.injEq]
  split
  · simp
  · constructor
    · rintro ⟨n, hn, ht⟩
      rw [if_neg (older n hn)] at ht
      exact ⟨n, hn, ht⟩
    · rintro ⟨n, hn, ht⟩
      exact ⟨n, hn, by rw [if_neg (older n hn), ht]⟩

lemma holdsConst_assign : (r.assign (some d) n).HoldsConst x v ↔
    if x = d then r.texts.get? n = some (textOfConst v.toDatum) else r.HoldsConst x v := by
  simp only [HoldsConst, assign, get?_put, Option.some.injEq]
  split
  · simp
  · rfl

/-- The text is that of this constant, or without the word for constants. -/
inductive Tells : String → Option Val → Prop where
  | const (v : Val) : Tells (textOfConst v.toDatum) (some v)
  | other {t : String} (h : contains t "const" = false) : Tells t none

lemma Tells.eq_some_iff (h : Tells t c) : c = some v ↔ t = textOfConst v.toDatum := by
  cases h with
  | const u => rw [textOfConst_inj, Option.some.injEq]
  | other h =>
    constructor
    · exact nofun
    · rintro rfl
      rw [contains_textOfConst] at h
      cases h

lemma Tells.constant (h : Tells t c) (word : contains t "const" = true) :
    ∃ v : Val, t = textOfConst v.toDatum := by
  cases h with
  | const v => exact ⟨v, rfl⟩
  | other h =>
    rw [h] at word
    cases word

end Register

namespace Versioned

open Register

/-- The constant that an operation gives by what is known of its operands. -/
def constantOf (known : Env Val) (i : Instr) (op : String) : Option Val :=
  if op = "const" then i.value.bind Val.ofDatum
  else (i.uses.mapM known).bind (WordOp.eval op)

def learn (known : Env Val) (i : Instr) : Env Val :=
  match i.op, i.dest with
  | some op, some d => if skips .pure i op then known else known.set d (constantOf known i op)
  | _, _ => known

/-- Operations on constants are exact, and a constant that is read beside an operand that is not one
cannot be taken for a number below the bound. -/
def Faithful (bound : Nat) : Env Val → Block → Prop
  | _, [] => True
  | known, i :: is =>
    (∀ op ∈ i.op, op ≠ "const" → skips .pure i op = false →
      (∀ vs ∈ i.uses.mapM known, WordOp.Exact op vs) ∧
        (i.uses.mapM known = none →
          ∀ x ∈ i.uses, ∀ v ∈ known x, Apart bound v)) ∧
      Faithful bound (learn known i) is

instance decidableFaithful (bound : Nat) :
    (known : Env Val) → (b : Block) → Decidable (Faithful bound known b)
  | _, [] => .isTrue trivial
  | known, i :: is =>
    have := decidableFaithful bound (learn known i) is
    inferInstanceAs (Decidable (_ ∧ _))

/-- The register is right about the values that variables have at the end, for what is still to be
done. -/
structure Follows (bound : Nat) (f : Env Val) (r : Register) (known : Env Val)
    (todo : Block) : Prop where
  coherent : r.Coherent
  numbers : ∀ x n, r.numbers.get? (some x) = some n →
    f x = r.worth f n ∧ ∃ t, r.texts.get? n = some t
  texts : ∀ n t, r.texts.get? n = some t → n < r.next ∧
    (∃ v, r.worth f n = some v ∧ Register.meaning bound (r.worth f) f t = some v) ∧
    (Register.contains t "const" = true → ∃ v : Val, t = textOfConst v.toDatum)
  holders : ∀ n y, r.holder n = .ok y → n < r.next ∧
    ∃ x, y = some x ∧ ∀ j ∈ todo, j.dest ≠ some x
  known : ∀ x v, known x = some v ↔ r.HoldsConst x v
  room : r.next + todo.length ≤ bound

/-- What stands for an instruction that gives a variable a value: the instruction, the constant, or
a copy of a variable that is not assigned any more. -/
inductive Replaces (f : Env Val) (todo : Block) (i : Instr) (d : String)
    (v : Val) : Instr → Prop where
  | same : Replaces f todo i d v i
  | const {j : Instr} (op : j.op = some "const") (dest : j.dest = some d)
    (value : j.value = some v.toDatum) : Replaces f todo i d v j
  | copy {j : Instr} {y : String} (op : j.op = some "id") (dest : j.dest = some d)
    (uses : j.uses = [y]) (value : f y = some v) (free : ∀ k ∈ todo, k.dest ≠ some y) :
    Replaces f todo i d v j

variable {bound n : Nat} {f e : Env Val} {r r' : Register} {known : Env Val}
  {todo rest : Block} {i i' j : Instr} {op d x t : String} {v : Val}

section Entries

lemma Follows.start (f : Env Val) (b : Block) :
    Follows b.length f {} (fun _ => none) b where
  coherent := nofun
  numbers := nofun
  texts := nofun
  holders := nofun
  known x v := by
    constructor
    · exact nofun
    · rintro ⟨n, hn, _⟩
      cases hn
  room := by simp

lemma Follows.tail (h : Follows bound f r known (i :: rest)) : Follows bound f r known rest where
  coherent := h.coherent
  numbers := h.numbers
  texts := h.texts
  holders n y hy := by
    obtain ⟨lt, x, hx, free⟩ := h.holders n y hy
    exact ⟨lt, x, hx, fun j hj => free j (mem_cons_of_mem i hj)⟩
  known := h.known
  room := by
    have := h.room
    simp only [length_cons] at this
    omega

variable {c : Option Val} (h : Follows bound f r known (i :: rest))
include h

lemma Follows.enter (fresh : ∀ j ∈ rest, j.dest ≠ some d) (fd : f d = some v)
    (meaning : Register.meaning bound (r.worth f) f t = some v) (ht : Tells t c) :
    Follows bound f (r.enter (some d) t) (known.set d c) rest := by
  have older : ∀ n t, r.texts.get? n = some t → n ≠ r.next :=
    fun n t hn => Nat.ne_of_lt (h.texts n t hn).1
  have more : ∀ n v, r.worth f n = some v → (r.enter (some d) t).worth f n = some v := by
    intro n v hv
    obtain ⟨y, hy, _⟩ := worth_eq_some.mp hv
    exact worth_enter hv (Nat.ne_of_lt (h.holders n _ hy).1)
  refine ⟨h.coherent.enter _ _, ?_, ?_, ?_, ?_, ?_⟩
  · intro x n hn
    simp only [Register.enter, get?_put, Option.some.injEq] at hn ⊢
    split at hn
    · next hx =>
      cases hn
      rw [hx]
      exact ⟨worth_enter_next.symm, t, by simp⟩
    · obtain ⟨hx, s, hs⟩ := h.numbers x n hn
      obtain ⟨_, ⟨v, hv, _⟩, _⟩ := h.texts n s hs
      refine ⟨?_, s, by simp [older n s hs, hs]⟩
      rw [hx, hv]
      exact (more n v hv).symm
  · intro n s hs
    simp only [Register.enter, get?_put] at hs
    split at hs
    · next hn =>
      cases hs
      subst hn
      refine ⟨Nat.lt_succ_self _, ⟨v, worth_enter_next.trans fd, ?_⟩, ht.constant⟩
      exact meaning_mono more meaning
    · obtain ⟨lt, ⟨u, hu, hm⟩, const⟩ := h.texts n s hs
      exact ⟨Nat.lt_succ_of_lt lt, ⟨u, more n u hu, meaning_mono more hm⟩, const⟩
  · intro n y hy
    obtain ⟨rfl, rfl⟩ | ⟨_, hy⟩ := holder_enter.mp hy
    · exact ⟨Nat.lt_succ_self _, d, rfl, fresh⟩
    · obtain ⟨lt, x, hx, free⟩ := h.tail.holders n y hy
      exact ⟨Nat.lt_succ_of_lt lt, x, hx, free⟩
  · intro x u
    have unused : ∀ n, r.numbers.get? (some x) = some n → n ≠ r.next := by
      intro n hn
      obtain ⟨_, s, hs⟩ := h.numbers x n hn
      exact older n s hs
    rw [holdsConst_enter unused, Env.set]
    split
    · exact ht.eq_some_iff
    · exact h.known x u
  · have := h.room
    simp only [length_cons, Register.enter] at this ⊢
    omega

lemma Follows.assign (number : r.texts.get? n = some t) (fd : r.worth f n = f d) (ht : Tells t c) :
    Follows bound f (r.assign (some d) n) (known.set d c) rest := by
  obtain ⟨_, ⟨v, hv, _⟩, _⟩ := h.texts n t number
  obtain ⟨y, hy, _⟩ := worth_eq_some.mp hv
  have same := worth_assign (d := d) (f := f) hy
  refine ⟨h.coherent.assign _ hy, ?_, ?_, ?_, ?_, h.tail.room⟩
  · intro x m hm
    rw [same]
    simp only [Register.assign, get?_put, Option.some.injEq] at hm ⊢
    split at hm
    · next hx =>
      cases hm
      rw [hx]
      exact ⟨fd.symm, t, number⟩
    · exact h.numbers x m hm
  · intro m s hs
    rw [same]
    exact h.texts m s hs
  · intro m z hz
    exact h.tail.holders m z ((holder_assign hy).mp hz)
  · intro x u
    rw [holdsConst_assign, Env.set]
    split
    · rw [ht.eq_some_iff, number, Option.some.injEq]
    · exact h.known x u

/-- A variable is given the value for which a text stands. It gets a new number, or it is a copy of
the holder of the number that the text has. -/
lemma Follows.record (hj : Replaces f (i :: rest) i d v j) (hd : j.dest = some d)
    (fresh : ∀ k ∈ rest, k.dest ≠ some d) (fd : f d = some v)
    (meaning : Register.meaning bound (r.worth f) f t = some v) (ht : Tells t c)
    (hs : Versioned.record r j t (r.byText.get? t) = .ok (r', i')) :
    Follows bound f r' (known.set d c) rest ∧ Replaces f (i :: rest) i d v i' := by
  obtain ⟨_, rfl, rfl⟩ | ⟨n, y, found, hy, rfl, rfl⟩ := record_eq_ok hs
  · rw [hd]
    exact ⟨h.enter fresh fd meaning ht, hj⟩
  · obtain ⟨_, number, _⟩ := h.coherent t n found
    obtain ⟨_, ⟨u, hu, hm⟩, _⟩ := h.texts n t number
    obtain rfl : u = v := Option.mem_unique hm meaning
    obtain ⟨_, x, rfl, free⟩ := h.holders n y hy
    rw [hd]
    refine ⟨h.assign number (hu.trans fd.symm) ht, .copy rfl hd rfl ?_ free⟩
    exact (worth_of_holder hy).symm.trans hu

end Entries

section Operands

variable {w : String} {c : Bool} {xs : List String} {os : List (String × Bool)}
  (h : Follows bound f r known todo)
include h

/-- The word for an operand: a constant that is known, an unknown variable, or the number of a value
that is not constant. -/
lemma Follows.operand (ho : r.operand x = .ok (w, c)) :
    (∃ v, known x = some v ∧ f x = some v ∧ w = write v ∧ c = true) ∨
      known x = none ∧ c = false ∧ (w = x ∨ ∃ n t, w = toString n ∧ r.texts.get? n = some t ∧
        Register.contains t "const" = false ∧ r.worth f n = f x) := by
  unfold Register.operand at ho
  split at ho
  · next none =>
    cases ho
    refine .inr ⟨?_, rfl, .inl rfl⟩
    rw [Option.eq_none_iff_forall_ne_some]
    intro v hv
    obtain ⟨n, hn, _⟩ := (h.known x v).mp hv
    rw [none] at hn
    cases hn
  · next n hn =>
    obtain ⟨t, ht, ho⟩ := of_bind ho
    have ht := ofOption_eq_ok.mp ht
    obtain ⟨hx, _⟩ := h.numbers x n hn
    obtain ⟨_, ⟨u, hu, hm⟩, const⟩ := h.texts n t ht
    split at ho
    · next constant =>
      obtain ⟨v, rfl⟩ := const constant
      rw [constText_textOfConst] at ho
      cases ho
      obtain rfl : u = v := Option.some.inj (hm.symm.trans (meaning_textOfConst v))
      exact .inl ⟨u, (h.known x u).mpr ⟨n, hn, ht⟩, hx.trans hu, rfl, rfl⟩
    · next constant =>
      cases ho
      refine .inr ⟨?_, rfl, .inr ⟨n, t, rfl, ht, by simpa using constant, hx.symm⟩⟩
      rw [Option.eq_none_iff_forall_ne_some]
      intro v hv
      obtain ⟨m, hm, hs⟩ := (h.known x v).mp hv
      obtain rfl : m = n := Option.mem_unique hm hn
      rw [Option.mem_unique ht hs] at constant
      exact constant (contains_textOfConst v)

lemma Follows.word (proper : Proper x) (apart : ∀ v ∈ known x, Apart bound v)
    (ho : r.operand x = .ok (w, c)) :
    Register.word bound (r.worth f) f w = f x ∧ ' ' ∉ w.toList ∧
      Register.contains w "const" = false := by
  obtain ⟨v, hk, hf, rfl, _⟩ | ⟨_, _, rfl | ⟨n, t, rfl, ht, _, hn⟩⟩ := h.operand ho
  · rw [hf]
    exact ⟨word_write (apart v hk), Words.blank_not_mem_write v, contains_write v⟩
  · exact ⟨proper.word, proper.blank_not_mem, proper.2.2.2⟩
  · have lt : n < bound := by
      have := (h.texts n t ht).1
      have := h.room
      omega
    refine ⟨(word_toString lt).trans hn, ?_, contains_toString n⟩
    exact Words.blank_not_mem_write (.int n)

variable (hos : Forall₂ (fun x o => r.operand x = .ok o) xs os)
include hos

lemma Follows.constants (all : os.all Prod.snd = true) :
    ∃ vs, Forall₂ (fun x v => known x = some v) xs vs ∧
      Forall₂ (fun x v => f x = some v) xs vs ∧ os.map Prod.fst = vs.map write := by
  induction hos with
  | nil => exact ⟨[], .nil, .nil, rfl⟩
  | @cons x o xs os ho _ ih =>
    obtain ⟨hc, all⟩ := Bool.and_eq_true_iff.mp all
    obtain ⟨vs, hk, hf, hw⟩ := ih all
    obtain ⟨v, hkx, hfx, hwx, _⟩ | ⟨_, hc', _⟩ := h.operand ho
    · exact ⟨v :: vs, .cons hkx hk, .cons hfx hf, by rw [map_cons, map_cons, hw, hwx]⟩
    · rw [hc] at hc'
      cases hc'

lemma Follows.mixed (all : os.all Prod.snd = false) : xs.mapM known = none := by
  rw [Option.eq_none_iff_forall_ne_some]
  intro vs hvs
  rw [mapM_eq_some] at hvs
  induction hos generalizing vs with
  | nil => cases all
  | @cons x o xs os ho _ ih =>
    cases hvs with
    | cons hv hvs =>
      obtain ⟨_, _, _, _, hc⟩ | ⟨none, _⟩ := h.operand ho
      · refine ih ?_ _ hvs
        simpa [show o.2 = true from hc] using all
      · rw [hv] at none
        cases none

lemma Follows.words {vs : List Val} (proper : ∀ x ∈ xs, Proper x)
    (apart : ∀ x ∈ xs, ∀ v ∈ known x, Apart bound v)
    (reads : Forall₂ (fun x v => f x = some v) xs vs) :
    Forall₂ (fun w v => Register.word bound (r.worth f) f w = some v) (os.map Prod.fst) vs ∧
      ∀ w ∈ os.map Prod.fst, ' ' ∉ w.toList ∧ Register.contains w "const" = false := by
  induction hos generalizing vs with
  | nil =>
    cases reads
    exact ⟨.nil, nofun⟩
  | cons ho _ ih =>
    cases reads with
    | cons hx reads =>
      obtain ⟨properHead, proper⟩ := forall_mem_cons.mp proper
      obtain ⟨apartHead, apart⟩ := forall_mem_cons.mp apart
      obtain ⟨word, plain⟩ := h.word properHead apartHead ho
      obtain ⟨words, plains⟩ := ih proper apart reads
      exact ⟨.cons (word.trans hx) words, forall_mem_cons.mpr ⟨plain, plains⟩⟩

end Operands

section Step

variable {W : Type}
  {other : Behaviour Val W} {w : W}
  {ws : List String} {allConst : Bool} {vs : List Val}

lemma Replaces.pass (h : Replaces f todo i d v i') (ho : i.op = some op)
    (ht : i.isTerminator = false)
    (passed : Block.pass (.word other) i op e w = some ([], e.set d (some v), w))
    (final : ∀ y, (∀ k ∈ todo, k.dest ≠ some y) → f y = e y) :
    ∃ op', i'.op = some op' ∧ i'.isTerminator = false ∧
      Block.pass (.word other) i' op' e w = some ([], e.set d (some v), w) := by
  cases h with
  | same => exact ⟨op, ho, ht, passed⟩
  | const hop hd value =>
    refine ⟨"const", hop, by simp [Instr.isTerminator, hop, terminators], ?_⟩
    rw [Block.pass_const hop hd, value]
    simp
  | copy hop hd uses value free =>
    refine ⟨"id", hop, by simp [Instr.isTerminator, hop, terminators], ?_⟩
    exact Block.pass_copy hop hd uses ((final _ free).symm.trans value)

lemma eval_exact {type : Option Ty} {c : Datum} (run : WordOp.eval op vs = some v)
    (exact : WordOp.Exact op vs) (h : Words.eval op type (vs.map write) = .ok c) :
    c = v.toDatum := by
  unfold WordOp.eval CoreOp.copyOr at run
  split at run
  · next copy =>
    subst copy
    split at run
    · next u =>
      cases run
      exact Words.valueAt_write h
    · cases run
  · obtain ⟨u, hu, same⟩ := WordOp.compute_core run
    rw [Words.eval_compute run hu] at h
    cases h
    rw [same.mpr exact]

section Assignment

variable (h : Follows bound f r known (i :: rest)) (hd : i.dest = some d)
  (fresh : ∀ k ∈ rest, k.dest ≠ some d) (fd : f d = some v)
include h hd fresh fd

lemma Follows.const (ho : i.op = some "const") (hv : i.value = some v.toDatum)
    (hops : r.operands i = .ok (some (ws, allConst)))
    (hj : evaluate .pure i "const" ws allConst = .ok (j, t))
    (hs : Versioned.record r j t (Versioned.known r j t) = .ok (r', i')) :
    Follows bound f r' (known.set d (some v)) rest ∧ Replaces f (i :: rest) i d v i' := by
  rw [Register.operands, hv] at hops
  cases hops
  cases hj
  rw [Versioned.known, if_neg (by simp [Instr.hasOp, ho])] at hs
  exact h.record .same hd fresh fd (meaning_textOfConst v) (.const v) hs

lemma Follows.folded (run : WordOp.eval op vs = some v) (exact : WordOp.Exact op vs)
    (hj : evaluate .pure i op (vs.map write) true = .ok (j, t))
    (hs : Versioned.record r j t (Versioned.known r j t) = .ok (r', i')) :
    Follows bound f r' (known.set d (some v)) rest ∧ Replaces f (i :: rest) i d v i' := by
  obtain ⟨c, hc, hj⟩ := of_bind hj
  cases hj
  obtain rfl := eval_exact run exact hc
  have dest : (i.toConst v.toDatum).dest = some d := hd
  refine h.record (.const rfl dest rfl) dest fresh fd ?_ (.const v) hs
  exact meaning_textOfConst v

lemma Follows.copied (proper : Proper x) (ho : i.op = some "id") (fx : f x = some v)
    (hx : r.operand x = .ok (t, false))
    (hs : Versioned.record r i t (Versioned.known r i t) = .ok (r', i')) :
    Follows bound f r' (known.set d none) rest ∧ Replaces f (i :: rest) i d v i' := by
  have copy : i.hasOp "id" = true := by simp [Instr.hasOp, ho]
  obtain ⟨_, _, _, _, hc⟩ | ⟨_, _, rfl | ⟨n, s, rfl, hn, const, worth⟩⟩ := h.operand hx
  · cases hc
  · rw [Versioned.known, copy, Numeral.not_isPlain_name proper.1] at hs
    exact h.record .same hd fresh fd (proper.meaning.trans fx) (.other proper.2.2.2) hs
  · have number : Versioned.known r i (toString n) = some n := by
      rw [Versioned.known, copy, Numeral.isPlain_toString, Decimal.toList_toString,
        Decimal.digitsValue_digitsOf]
      rfl
    rw [number] at hs
    obtain ⟨none, _⟩ | ⟨m, y, same, hy, rfl, rfl⟩ := record_eq_ok hs
    · cases none
    · cases same
      obtain ⟨_, y, rfl, free⟩ := h.holders n y hy
      rw [hd]
      refine ⟨h.assign hn (worth.trans (fx.trans fd.symm)) (.other const), ?_⟩
      exact .copy rfl hd rfl ((worth_of_holder hy).symm.trans (worth.trans fx)) free

lemma Follows.computed (ho : i.op = some op) (copy : op ≠ "id")
    (run : WordOp.compute op vs = some v)
    (words : Forall₂ (fun w v => Register.word bound (r.worth f) f w = some v) ws vs)
    (plain : ∀ w ∈ ws, ' ' ∉ w.toList ∧ Register.contains w "const" = false)
    (hs : Versioned.record r i (textOf Scope.pure.commutative op ws)
      (Versioned.known r i (textOf Scope.pure.commutative op ws)) = .ok (r', i')) :
    Follows bound f r' (known.set d none) rest ∧ Replaces f (i :: rest) i d v i' := by
  have named := WordOp.mem_names (WordOp.takes_of_compute run)
  have names : ∀ op ∈ WordOp.names, op ≠ "const" ∧ ' ' ∉ op.toList ∧
      Register.contains op "const" = false := by decide
  obtain ⟨notConst, solid, clean⟩ := names op named
  have nonempty : ws ≠ [] := by
    rintro rfl
    cases words
    cases run
  have const : Register.contains (textOf Scope.pure.commutative op ws) "const" = false :=
    contains_textOf nonempty clean fun w hw => (plain w hw).2
  rw [Versioned.known, if_neg (by simp [Instr.hasOp, ho, copy])] at hs
  refine h.record .same hd fresh fd ?_ (.other const) hs
  refine meaning_textOf nonempty notConst ?_ words run
  exact forall_mem_cons.mpr ⟨solid, fun w hw => (plain w hw).1⟩

lemma Follows.value (proper : ∀ x ∈ i.uses, Proper x) (ho : i.op = some op) (hv : i.value = none)
    (reads : Forall₂ (fun x v => f x = some v) i.uses vs) (run : WordOp.eval op vs = some v)
    (exact : ∀ vs ∈ i.uses.mapM known, WordOp.Exact op vs)
    (apart : i.uses.mapM known = none →
      ∀ x ∈ i.uses, ∀ v ∈ known x, Apart bound v)
    (hops : r.operands i = .ok (some (ws, allConst)))
    (hj : evaluate .pure i op ws allConst = .ok (j, t))
    (hs : Versioned.record r j t (Versioned.known r j t) = .ok (r', i')) :
    Follows bound f r' (known.set d ((i.uses.mapM known).bind (WordOp.eval op))) rest ∧
      Replaces f (i :: rest) i d v i' := by
  cases ha : i.args with
  | none =>
    rw [Register.operands, hv, ha] at hops
    cases hops
  | some xs =>
    have uses : i.uses = xs := by rw [Instr.uses, ha]; rfl
    rw [uses] at proper reads exact apart ⊢
    rw [Register.operands, hv, ha] at hops
    obtain ⟨os, hos, hops⟩ := of_bind hops
    cases hops
    have hos := mapM_eq_ok.mp hos
    cases all : os.all Prod.snd with
    | true =>
      obtain ⟨us, hk, hf, hw⟩ := h.constants hos all
      have hf := mapM_eq_some.mpr hf
      rw [mapM_eq_some.mpr reads] at hf
      cases hf
      have hk := mapM_eq_some.mpr hk
      rw [all, hw] at hj
      rw [hk, Option.bind_some, run]
      exact h.folded hd fresh fd run (exact vs hk) hj hs
    | false =>
      have none := h.mixed hos all
      rw [none]
      rw [all, evaluate, if_neg Bool.false_ne_true] at hj
      by_cases copy : op = "id"
      · subst copy
        -- the run has copied one value, so there is one operand
        unfold WordOp.eval CoreOp.copyOr at run
        rw [if_pos rfl] at run
        split at run
        · cases run
          rcases reads with _ | ⟨fx, _ | _⟩
          rcases hos with _ | ⟨hx, _ | _⟩
          cases hj
          refine h.copied hd fresh fd (proper _ mem_cons_self) ho fx ?_ hs
          rw [hx]
          simpa [Prod.ext_iff] using all
        · cases run
      · rw [if_neg (by simpa using copy)] at hj
        cases hj
        unfold WordOp.eval CoreOp.copyOr at run
        rw [if_neg copy] at run
        obtain ⟨words, plain⟩ := h.words hos proper (apart none) reads
        exact h.computed hd fresh fd ho copy run words plain hs

end Assignment

lemma learn_skipped (ho : i.op = some op) (hs : skips .pure i op = true) :
    learn known i = known := by
  unfold learn
  rw [ho]
  cases i.dest with
  | none => rfl
  | some d => exact if_pos hs

lemma learn_counted (ho : i.op = some op) (hd : i.dest = some d) (hs : skips .pure i op = false) :
    learn known i = known.set d (constantOf known i op) := by
  simp only [learn, ho, hd, hs, Bool.false_eq_true, if_false]

/-- What is not passed over is a constant, a copy or an operation on words or truth values. -/
lemma numbered (core : i.Core ∨ i.op = some "phi") (value : i.value ≠ none → i.op = some "const")
    (ho : i.op = some op) (hs : skips .pure i op = false) :
    ∃ d, i.dest = some d ∧
      (op = "const" ∨ op ≠ "const" ∧ CoreOp.isValue op = true ∧ i.value = none) := by
  simp only [skips, Bool.or_eq_false_iff, Scope.pure] at hs
  obtain ⟨⟨_, counted⟩, hd⟩ := hs
  obtain ⟨d, hd⟩ := Option.isSome_iff_exists.mp (show i.dest.isSome = true by simpa using hd)
  refine ⟨d, hd, ?_⟩
  have skipped : ∀ {name : String}, i.op = some name →
      name ∉ ["call", "ret", "print", "store", "load", "alloc", "phi"] := by
    intro name hn
    cases ho.symm.trans hn
    simpa using counted
  obtain core | phi := core
  · cases core with
    | label _ hop =>
      rw [ho] at hop
      cases hop
    | const hop => exact .inl (Option.mem_unique ho hop)
    | value name hop isValue =>
      cases ho.symm.trans hop
      have notConst : op ≠ "const" := by
        rintro rfl
        exact absurd isValue (by decide)
      refine .inr ⟨notConst, isValue, ?_⟩
      by_contra some
      exact notConst (Option.some.inj (ho.symm.trans (value some)))
    | call hop => exact absurd (by decide) (skipped hop)
    | effect _ _ _ _ dest =>
      rw [dest] at hd
      cases hd
  · exact absurd (by decide) (skipped phi)

lemma operands_ne_none
    (kind : op = "const" ∨ op ≠ "const" ∧ CoreOp.isValue op = true ∧ i.value = none)
    (ho : i.op = some op) (hd : i.dest = some d)
    (passed : Block.pass (.word other) i op e w ≠ none) : r.operands i ≠ .ok none := by
  intro hops
  unfold Register.operands at hops
  split at hops
  · cases hops
  · obtain ⟨_, _, hops⟩ := of_bind hops
    cases hops
  · next value args =>
    obtain rfl | ⟨_, isValue, _⟩ := kind
    · rw [Block.pass_const ho hd, value] at passed
      exact passed rfl
    · have stuck : WordOp.eval op [] = none := by
        unfold WordOp.eval CoreOp.copyOr
        split <;> rfl
      rw [Block.pass_value ho isValue hd, Instr.uses, args] at passed
      refine passed ?_
      show (WordOp.eval op []).map _ = none
      rw [stuck]
      rfl

/-- What becomes of an operation that control passes through does the same. -/
lemma Follows.step {es : List (Event Val)} {e' : Env Val} {w' : W}
    (h : Follows bound f r known (i :: rest)) (core : i.Core ∨ i.op = some "phi")
    (value : i.value ≠ none → i.op = some "const") (proper : ∀ x ∈ i.uses, Proper x)
    (once : Block.AssignsOnce (i :: rest)) (faithful : Faithful bound known (i :: rest))
    (ho : i.op = some op) (ht : i.isTerminator = false)
    (hs : Versioned.step .pure r i = .ok (r', i'))
    (passed : Block.pass (.word other) i op e w = some (es, e', w'))
    (final : ∀ x, (∀ k ∈ rest, k.dest ≠ some x) → f x = e' x) :
    Follows bound f r' (learn known i) rest ∧ ∃ op', i'.op = some op' ∧
      i'.isTerminator = false ∧ Block.pass (.word other) i' op' e w = some (es, e', w') := by
  cases skipped : skips .pure i op with
  | true =>
    obtain ⟨_, rfl, rfl⟩ | ⟨_, _, _, _, counted, _⟩ := step_eq_ok ho hs
    · rw [learn_skipped ho skipped]
      exact ⟨h.tail, op, ho, ht, passed⟩
    · rw [skipped] at counted
      cases counted
  | false =>
    have before : ∀ y, (∀ k ∈ i :: rest, k.dest ≠ some y) → f y = e y := by
      intro y free
      obtain ⟨head, free⟩ := forall_mem_cons.mp free
      exact (final y free).trans (Block.pass_other passed head)
    obtain ⟨d, hd, kind⟩ := numbered core value ho skipped
    have fresh : ∀ k ∈ rest, k.dest ≠ some d := once.1 d hd
    have assigned : ∀ v, e' = e.set d (some v) → f d = some v := by
      rintro v rfl
      rw [final d fresh, Env.set_same]
    rw [learn_counted ho hd skipped, constantOf]
    obtain ⟨unread, _⟩ | ⟨ws, allConst, j, t, _, hops, hj, hs⟩ := step_eq_ok ho hs
    · have hops : r.operands i = .ok none := by simpa [skipped] using unread
      exact absurd hops (operands_ne_none kind ho hd (by rw [passed]; exact nofun))
    · obtain rfl | ⟨notConst, isValue, hv⟩ := kind
      · have did := passed
        rw [Block.pass_const ho hd] at did
        obtain ⟨v, hv, same⟩ := Option.map_eq_some_iff.mp did
        cases same
        obtain ⟨c, hc, hv⟩ := Option.bind_eq_some_iff.mp hv
        have hc : i.value = some v.toDatum := by rw [hc, Val.eq_toDatum hv]
        obtain ⟨follows, replaces⟩ := h.const hd fresh (assigned v rfl) ho hc hops hj hs
        rw [hc, Option.bind_some, Val.ofDatum_toDatum]
        exact ⟨follows, replaces.pass ho ht passed before⟩
      · have did := passed
        rw [Block.pass_value ho isValue hd] at did
        obtain ⟨v, hv', same⟩ := Option.map_eq_some_iff.mp did
        cases same
        obtain ⟨vs, hvs, run⟩ := Option.bind_eq_some_iff.mp hv'
        have quiet : i.op ≠ some "phi" := by
          rw [ho]
          rintro ⟨⟩
          exact absurd isValue (by decide)
        have reads : Forall₂ (fun x v => f x = some v) i.uses vs := by
          have same : i.uses.map f = i.uses.map e :=
            map_congr_left fun x hx => before x (once.2.1 quiet x hx)
          rw [← mapM_eq_some, ← Block.mapM_operands, same, Block.mapM_operands, hvs]
        obtain ⟨exact, apart⟩ := faithful.1 op ho notConst skipped
        obtain ⟨follows, replaces⟩ :=
          h.value hd fresh (assigned v rfl) proper ho hv reads run exact apart hops hj hs
        rw [if_neg notConst]
        exact ⟨follows, replaces.pass ho ht passed before⟩

end Step

section Run

variable {W : Type}
  {other : Behaviour Val W} {w : W}
  {b b' : Block}

lemma steps_cons_eq_ok (h : steps .pure r (i :: rest) = .ok b') :
    ∃ r' i' c, step .pure r i = .ok (r', i') ∧ steps .pure r' rest = .ok c ∧ b' = i' :: c := by
  obtain ⟨⟨r', i'⟩, hi, h⟩ := of_bind h
  obtain ⟨c, hc, h⟩ := of_bind h
  exact ⟨r', i', c, hi, hc, (pure_eq_ok.mp h).symm⟩

lemma step_effect (hd : i.dest = none) : step .pure r i = .ok (r, i) := by
  unfold step
  split
  · rfl
  · simp [skips, hd, Scope.pure]

/-- Items and what becomes of them, from a register that is right about the end of the run. -/
lemma steps_exec {es : List (Event Val)} {exit : Exit} {w' : W}
    (h : Follows bound f r known todo) (core : ∀ i ∈ todo, i.Core ∨ i.op = some "phi")
    (value : ∀ i ∈ todo, i.value ≠ none → i.op = some "const")
    (proper : ∀ i ∈ todo, ∀ x ∈ i.uses, Proper x) (once : Block.AssignsOnce todo)
    (faithful : Faithful bound known todo) (hs : steps .pure r todo = .ok b')
    (run : Block.exec (.word other) todo e w = some (es, exit, f, w')) :
    Block.exec (.word other) b' e w = some (es, exit, f, w') := by
  -- the environment at the end is fixed: what the register says of it is never taken back
  induction todo generalizing r known e w b' es with
  | nil =>
    cases hs
    exact run
  | cons i rest ih =>
    obtain ⟨r', i', c, hi, hc, rfl⟩ := steps_cons_eq_ok hs
    obtain ⟨coreHead, core⟩ := forall_mem_cons.mp core
    obtain ⟨valueHead, value⟩ := forall_mem_cons.mp value
    obtain ⟨properHead, proper⟩ := forall_mem_cons.mp proper
    cases ho : i.op with
    | none =>
      cases (step_label ho).symm.trans hi
      have known : learn known i = known := by
        unfold learn
        rw [ho]
      rw [Block.exec, ho] at run ⊢
      obtain ⟨⟨es, last⟩, onward, same⟩ := Option.map_eq_some_iff.mp run
      cases same
      have faithful := faithful.2
      rw [known] at faithful
      rw [ih h.tail core value proper once.2.2 faithful hc onward]
      rfl
    | some op =>
      cases ht : i.isTerminator with
      | true =>
        have hd : i.dest = none := by
          rw [Block.exec, ho] at run
          simp only [ht, Block.leave] at run
          by_contra some
          rw [if_pos (Option.isSome_iff_ne_none.mpr some)] at run
          cases run
        cases (step_effect hd).symm.trans hi
        rw [Block.exec, ho] at run ⊢
        simp only [ht] at run ⊢
        exact run
      | false =>
        obtain ⟨es₁, e₁, w₁, ⟨es₂, last⟩, passed, onward, same⟩ := Block.exec_pass_eq_some ho ht run
        cases same
        have final : ∀ x, (∀ k ∈ rest, k.dest ≠ some x) → f x = e₁ x :=
          fun x free => Block.exec_unassigned onward free
        obtain ⟨follows, op', ho', ht', passed'⟩ :=
          h.step coreHead valueHead properHead once faithful ho ht hi passed final
        have rest := ih follows core value proper once.2.2 faithful.2 hc onward
        rw [Block.exec, ho']
        simp only [ht', Bool.false_eq_true, if_false, passed', Option.bind_some, rest,
          Option.map_some]

/-- Value numbering of single assignments keeps what a block of a core program does on words: if no
name can be taken for a part of a text, operations on constants are exact, and no constant that
stands beside an unknown operand can be taken for a number, every run that meets no error is the run
of the block that it makes. -/
theorem exec_block (core : ∀ i ∈ b, i.Core ∨ i.op = some "phi")
    (value : ∀ i ∈ b, i.value ≠ none → i.op = some "const")
    (proper : ∀ i ∈ b, ∀ x ∈ i.uses, Register.Proper x) (once : Block.AssignsOnce b)
    (faithful : Faithful b.length (fun _ => none) b) (h : block .pure b = .ok b')
    (other : Behaviour Val W)
    (e : Env Val) (w : W)
    {res : List (Event Val) × Exit × Env Val × W}
    (run : Block.exec (.word other) b e w = some res) :
    Block.exec (.word other) b' e w = some res := by
  obtain ⟨es, exit, f, w'⟩ := res
  exact steps_exec (.start f b) core value proper once faithful h run

/-- Values of unknown variables that are computed twice, and a difference of constants. -/
def repeating : Block :=
  [Sample.compute .int "sub" "x" ["a", "b"],
    Sample.whole "k" 400,
    Sample.whole "n" 9,
    Sample.compute .int "sub" "m" ["k", "n"],
    Sample.compute .int "sub" "y" ["a", "b"],
    Sample.compute .int "sub" "z" ["y", "m"],
    Sample.effect "print" ["z", "y"],
    Sample.plain "ret"]

def repeated : Block :=
  [Sample.compute .int "sub" "x" ["a", "b"],
    Sample.whole "k" 400,
    Sample.whole "n" 9,
    Sample.whole "m" 391,
    Sample.compute .int "id" "y" ["x"],
    Sample.compute .int "sub" "z" ["y", "m"],
    Sample.effect "print" ["z", "y"],
    Sample.plain "ret"]

def oneTwo : Env Val :=
  Env.set (Env.set (fun _ => none) "a" (some (.int 1))) "b" (some (.int 2))

theorem exec_block_repeating : block .pure repeating = .ok repeated ∧
    ∃ res, Block.exec .words repeating oneTwo () = some res ∧
      res.1 = [.print [.int (-392), .int (-1)]] ∧
      Block.exec .words repeated oneTwo () = some res := by
  have numbered : block .pure repeating = .ok repeated := by decide +kernel
  refine ⟨numbered, _, rfl, rfl, ?_⟩
  exact exec_block (by decide) (by decide) (by decide) (by decide) (by decide) numbered _ oneTwo () rfl

def clashing : Block :=
  [Sample.whole "x" 1,
    Sample.compute .int "sub" "y" ["a", "b"],
    Sample.compute .int "sub" "p" ["a", "x"],
    Sample.compute .int "sub" "q" ["a", "y"]]

/-- The difference of `a` and `y` is taken for that of `a` and one. -/
theorem exec_block_clashing : ∃ b', block .pure clashing = .ok b' ∧
    (Block.exec .words clashing oneTwo ()).map (·.2.2.1 "q") =
      some (some (.int 2)) ∧
    (Block.exec .words b' oneTwo ()).map (·.2.2.1 "q") = some (some (.int 0)) :=
  ⟨_, rfl, rfl, rfl⟩

end Run

end Versioned

end ValueNumbering

end BrilKit
