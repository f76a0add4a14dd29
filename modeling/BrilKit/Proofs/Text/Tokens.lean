import BrilKit.Proofs.Data.Digits
import BrilKit.Text.Parser

/-!
# Reading tokens

What the readers of names and words take from the front of a text. A reader of positions gives the
same value wherever a text stands, so all statements are about the text behind a cursor.
-/

namespace BrilKit

open List

namespace Cursor

variable {c : Cursor} {ch : Char} {cs : List Char}

@[simp] lemma rest_advance (n : Nat) (c : Cursor) : (c.advance n).rest = c.rest.drop n := by
  induction n generalizing c with
  | zero => rfl
  | succ n ih =>
    rw [advance]
    cases h : c.rest with
    | nil => rw [drop_nil, h]
    | cons ch cs =>
      rw [ih]
      split <;> rfl

/-- A text from the first character on that is neither blank nor in a comment. -/
def trim (cs : List Char) : List Char := (skipFrom false cs 1 1).rest

lemma rest_skipFrom (comment : Bool) (cs : List Char) (row col row' col' : Nat) :
    (skipFrom comment cs row col).rest = (skipFrom comment cs row' col').rest := by
  induction cs generalizing comment row col row' col' with
  | nil => rfl
  | cons ch cs ih =>
    simp only [skipFrom]
    split
    · exact ih ..
    · split
      · exact ih ..
      · split
        · exact ih ..
        · split
          · exact ih ..
          · rfl

@[simp] lemma rest_skip (c : Cursor) : c.skip.rest = trim c.rest := rest_skipFrom ..

@[simp] lemma trim_nil : trim [] = [] := rfl

lemma trim_blank (h : isBlank ch = true) (cs : List Char) : trim (ch :: cs) = trim cs := by
  simp only [trim, skipFrom, Bool.false_eq_true, h]
  split <;> exact rest_skipFrom ..

@[simp] lemma trim_space (cs : List Char) : trim (' ' :: cs) = trim cs := trim_blank (by decide) cs

@[simp] lemma trim_newline (cs : List Char) : trim ('\n' :: cs) = trim cs :=
  trim_blank (by decide) cs

def isSolid (ch : Char) : Bool := !isBlank ch && ch != '#'

lemma trim_solid (h : isSolid ch = true) (cs : List Char) : trim (ch :: cs) = ch :: cs := by
  simp only [isSolid, Bool.and_eq_true, Bool.not_eq_true', bne_iff_ne] at h
  obtain ⟨hb, hc⟩ := h
  have hn : ch ≠ '\n' := by
    rintro rfl
    exact absurd hb (by decide)
  simp [trim, skipFrom, hn, hb, hc]

lemma length_trim_le (cs : List Char) : (trim cs).length ≤ cs.length := by
  suffices h : ∀ comment row col, (skipFrom comment cs row col).rest.length ≤ cs.length from h ..
  induction cs with
  | nil => exact fun _ _ _ => Nat.le_refl _
  | cons ch cs ih =>
    intro comment row col
    simp only [skipFrom, length_cons]
    split
    · exact Nat.le_succ_of_le (ih ..)
    · split
      · exact Nat.le_succ_of_le (ih ..)
      · split
        · exact Nat.le_succ_of_le (ih ..)
        · split
          · exact Nat.le_succ_of_le (ih ..)
          · exact Nat.le_refl _

lemma isSolid_of {p : Char → Bool} (h : p ch = true)
    (none : [' ', '\t', '\n', '\r', Char.ofNat 12, '#'].any p = false) : isSolid ch = true := by
  by_contra hb
  have mem : ch ∈ [' ', '\t', '\n', '\r', Char.ofNat 12, '#'] := by
    simpa [isSolid, isBlank, or_assoc, imp_iff_not_or] using hb
  rw [any_eq_true.mpr ⟨ch, mem, h⟩] at none
  cases none

end Cursor

namespace Parser

open Cursor

variable {c : Cursor} {cs rest ws : List Char} {n w : String} {ch mark : Char}

def isName (s : String) : Bool :=
  match s.toList with
  | ch :: cs => isNameStart ch && cs.all isNamePart
  | [] => false

lemma isName_cons (h : isName n = true) :
    ∃ ch cs, n.toList = ch :: cs ∧ isNameStart ch = true ∧ ∀ d ∈ cs, isNamePart d = true := by
  rw [isName] at h
  split at h
  · next ch cs hn =>
    rw [Bool.and_eq_true, all_eq_true] at h
    exact ⟨ch, cs, hn, h.1, h.2⟩
  · cases h

lemma isSolid_of_isNameStart (h : isNameStart ch = true) : isSolid ch = true :=
  isSolid_of (p := isNameStart) h (by decide)

lemma nameChars_append (h : isName n = true) (stop : StopsBefore isNamePart rest) :
    nameChars (n.toList ++ rest) = some n.toList := by
  obtain ⟨ch, cs, hn, hch, hcs⟩ := isName_cons h
  rw [hn, cons_append, nameChars, if_pos hch, takeWhile_run hcs stop]

lemma name_eq (h : isName n = true) (stop : StopsBefore isNamePart rest)
    (hc : c.rest = n.toList ++ rest) : ∃ c', name c = some (n, c') ∧ c'.rest = rest := by
  refine ⟨c.advance n.toList.length, ?_, ?_⟩
  · simp [name, hc, nameChars_append h stop]
  · rw [rest_advance, hc, drop_left]

lemma trim_name (h : isName n = true) (rest : List Char) :
    trim (n.toList ++ rest) = n.toList ++ rest := by
  obtain ⟨ch, cs, hn, hch, _⟩ := isName_cons h
  rw [hn, cons_append, trim_solid (isSolid_of_isNameStart hch)]

lemma markedName_eq (h : isName n = true) (stop : StopsBefore isNamePart rest)
    (hc : c.rest = mark :: (n.toList ++ rest)) :
    ∃ c', markedName mark c = some (n, c') ∧ c'.rest = rest := by
  rw [markedName, hc]
  simp only [if_true]
  exact name_eq h stop (by rw [rest_advance, hc, drop_one, tail_cons])

lemma word_eq (hc : c.rest = w.toList ++ rest) : ∃ c', word w c = some c' ∧ c'.rest = rest := by
  refine ⟨c.advance w.length, ?_, ?_⟩
  · rw [word, hc, if_pos ( isPrefixOf_iff_prefix.mpr (prefix_append ..))]
  · rw [rest_advance, hc, ← String.length_toList, drop_left]

lemma nextWord_eq (hc : trim c.rest = w.toList ++ rest) :
    ∃ c', nextWord w c = some c' ∧ c'.rest = rest :=
  word_eq (by rw [rest_skip, hc])

def Lacks (ch : Char) (cs : List Char) : Prop := ∀ d ∈ cs.head?, d ≠ ch

lemma lacks_cons {d : Char} : Lacks ch (d :: cs) ↔ d ≠ ch := by simp [Lacks]

lemma markedName_eq_none (h : Lacks mark c.rest) : markedName mark c = none := by
  rw [markedName]
  cases hc : c.rest with
  | nil => rfl
  | cons d cs =>
    rw [hc, lacks_cons] at h
    exact if_neg h

lemma word_eq_none (hw : w.toList = ch :: ws) (h : Lacks ch c.rest) : word w c = none := by
  rw [word, hw]
  cases hc : c.rest with
  | nil => rfl
  | cons d cs =>
    rw [hc, lacks_cons] at h
    simp [Ne.symm h]

lemma nextWord_eq_none (hw : w.toList = ch :: ws) (h : Lacks ch (trim c.rest)) :
    nextWord w c = none :=
  word_eq_none hw (by rwa [rest_skip])

lemma lacks_name (hm : isNameStart ch = false) (h : isName n = true) (rest : List Char) :
    Lacks ch (n.toList ++ rest) := by
  obtain ⟨d, cs, hn, hd, _⟩ := isName_cons h
  rw [hn, cons_append, lacks_cons]
  rintro rfl
  rw [hm] at hd
  cases hd

end Parser

end BrilKit
