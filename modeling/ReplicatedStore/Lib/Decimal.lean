/-
Integers as decimal text, and the text split at a separator.

`parse` reads what the usual `int(text)` of a scripting language reads: blanks
around the number, a sign, digits, and single underscores between digits.  What
`toString` writes is read back as the number it was written from.
-/
import Mathlib.Data.List.Basic

namespace ReplicatedStore
namespace Lib
namespace Decimal

/-- The decimal digits of an integer. -/
def text (i : Int) : List Char := (toString i).toList

def strip (cs : List Char) : List Char :=
  ((cs.dropWhile Char.isWhitespace).reverse.dropWhile Char.isWhitespace).reverse

/-- A number without its sign: groups of digits, separated by single underscores. -/
def parseDigits (cs : List Char) : Option Nat :=
  if (cs.splitOn '_').all fun g => g ≠ [] && g.all Char.isDigit then
    some (Nat.ofDigitChars 10 (cs.filter (· ≠ '_')) 0)
  else none

def parse (cs : List Char) : Option Int :=
  match strip cs with
  | '-' :: ds => (parseDigits ds).map fun n : Nat => -(n : Int)
  | '+' :: ds => (parseDigits ds).map fun n : Nat => (n : Int)
  | ds => (parseDigits ds).map fun n : Nat => (n : Int)

/-! ## Reading back -/

/-- The characters that an integer is written with. -/
def Plain (c : Char) : Prop := c.isDigit = true ∨ c = '-'

theorem toDigits_plain {n : Nat} {c : Char} (hc : c ∈ Nat.toDigits 10 n) : c.isDigit = true :=
  Nat.isDigit_of_mem_toDigits (by decide) (by decide) hc

theorem text_eq (i : Int) : text i =
    if 0 ≤ i then Nat.toDigits 10 i.toNat else '-' :: Nat.toDigits 10 (-i).toNat := by
  rw [text, Int.toString_eq_repr, Int.repr_eq_if]
  split <;> simp

theorem text_plain {i : Int} {c : Char} (hc : c ∈ text i) : Plain c := by
  rw [text_eq] at hc
  split at hc
  · exact .inl (toDigits_plain hc)
  · rcases List.mem_cons.mp hc with rfl | hc
    · exact .inr rfl
    · exact .inl (toDigits_plain hc)

theorem Plain.not_isWhitespace {c : Char} (h : Plain c) : c.isWhitespace = false := by
  rcases h with h | rfl
  · simp only [Char.isDigit, Bool.and_eq_true, decide_eq_true_eq] at h
    simp only [Char.isWhitespace, Bool.or_eq_false_iff, decide_eq_false_iff_not]
    refine ⟨⟨⟨?_, ?_⟩, ?_⟩, ?_⟩ <;> rintro rfl <;> exact absurd h (by decide)
  · rfl

/-- A separator that is neither a digit nor a sign does not occur in a number. -/
theorem not_mem_text {i : Int} {sep : Char} (h : ¬ Plain sep) : sep ∉ text i :=
  fun hc => h (text_plain hc)

instance (c : Char) : Decidable (Plain c) := instDecidableOr

theorem strip_of_plain {cs : List Char} (h : ∀ c ∈ cs, Plain c) : strip cs = cs := by
  have hdrop : ∀ {ds : List Char}, (∀ c ∈ ds, Plain c) →
      ds.dropWhile Char.isWhitespace = ds := by
    intro ds hds
    cases ds with
    | nil => rfl
    | cons d ds =>
      rw [List.dropWhile_cons_of_neg]
      simp [(hds d List.mem_cons_self).not_isWhitespace]
  rw [strip, hdrop h, hdrop fun c hc => h c (List.mem_reverse.mp hc), List.reverse_reverse]

theorem parseDigits_toDigits (n : Nat) : parseDigits (Nat.toDigits 10 n) = some n := by
  have hno : '_' ∉ Nat.toDigits 10 n := Nat.underscore_not_in_toDigits
  have hfilter : (Nat.toDigits 10 n).filter (· ≠ '_') = Nat.toDigits 10 n := by
    refine List.filter_eq_self.mpr fun c hc => ?_
    simp only [ne_eq, decide_not, Bool.not_eq_eq_eq_not, Bool.not_true, decide_eq_false_iff_not]
    rintro rfl
    exact hno hc
  have hall : (Nat.toDigits 10 n).all Char.isDigit = true :=
    List.all_eq_true.mpr fun c hc => toDigits_plain hc
  rw [parseDigits, List.splitOn_eq_singleton hno, hfilter, Nat.ofDigitChars_ten_toDigits]
  simp [hall, Nat.toDigits_ne_nil]

/-- What is written for an integer is read back as that integer. -/
theorem parse_text (i : Int) : parse (text i) = some i := by
  have hstrip : strip (text i) = text i := strip_of_plain fun c hc => text_plain hc
  rw [parse, hstrip, text_eq]
  by_cases hi : 0 ≤ i
  · rw [if_pos hi]
    cases hds : Nat.toDigits 10 i.toNat with
    | nil => exact absurd hds Nat.toDigits_ne_nil
    | cons d ds =>
      have hd : d.isDigit = true := toDigits_plain (hds ▸ List.mem_cons_self)
      have hminus : d ≠ '-' := by
        rintro rfl
        exact absurd hd (by decide)
      have hplus : d ≠ '+' := by
        rintro rfl
        exact absurd hd (by decide)
      have hparse := parseDigits_toDigits i.toNat
      rw [hds] at hparse
      split
      · rename_i e
        exact absurd (List.cons.inj e).1 hminus
      · rename_i e
        exact absurd (List.cons.inj e).1 hplus
      · rw [hparse, Option.map_some, Int.toNat_of_nonneg hi]
  · rw [if_neg hi]
    have hneg : ((-i).toNat : Int) = -i := Int.toNat_of_nonneg (by omega)
    simp only [parseDigits_toDigits, Option.map_some, hneg, Int.neg_neg]

/-! ## Pairs -/

/-- Two integers with a separator between them. -/
theorem splitOn_pair {i j : Int} {sep : Char} (h : ¬ Plain sep) :
    (text i ++ sep :: text j).splitOn sep = [text i, text j] := by
  rw [List.splitOn_append_cons_self, List.splitOn_eq_singleton (not_mem_text h),
    List.splitOn_eq_singleton (not_mem_text h)]
  rfl

/-- Reads two integers with `sep` between them. -/
def parsePair (sep : Char) (cs : List Char) : Option (Int × Int) :=
  match cs.splitOn sep with
  | [a, b] => (parse a).bind fun i => (parse b).map fun j => (i, j)
  | _ => none

theorem parsePair_text {i j : Int} {sep : Char} (h : ¬ Plain sep) :
    parsePair sep (text i ++ sep :: text j) = some (i, j) := by
  rw [parsePair, splitOn_pair h]
  simp only [parse_text, Option.bind_some, Option.map_some]

/-- Lines that all end in `nl` are split into themselves and what follows the last one. -/
theorem splitOn_lines {nl : Char} {ls : List (List Char)} (h : ∀ l ∈ ls, nl ∉ l) :
    (ls.flatMap fun l => l ++ [nl]).splitOn nl = ls ++ [[]] := by
  induction ls with
  | nil => rfl
  | cons l ls ih =>
    have hl : nl ∉ l := h l List.mem_cons_self
    have hls := ih fun l' hl' => h l' (List.mem_cons_of_mem _ hl')
    rw [List.flatMap_cons, List.append_assoc, List.singleton_append, List.splitOn_append_cons_self,
      List.splitOn_eq_singleton hl, hls]
    rfl

/-- Reads pairs line by line.  The text ends with the last line. -/
def parsePairs (sep nl : Char) (cs : List Char) : Option (List (Int × Int)) :=
  ((cs.splitOn nl).dropLast).mapM (parsePair sep)

/-- Pairs that are written line by line are read back. -/
theorem parsePairs_lines {sep nl : Char} (hsep : ¬ Plain sep) (hnl : ¬ Plain nl) (hne : nl ≠ sep)
    (es : List (Int × Int)) :
    parsePairs sep nl (es.flatMap fun e => text e.1 ++ sep :: text e.2 ++ [nl]) = some es := by
  have hlines : (es.flatMap fun e => text e.1 ++ sep :: text e.2 ++ [nl]) =
      (es.map fun e => text e.1 ++ sep :: text e.2).flatMap fun l => l ++ [nl] := by
    rw [List.flatMap_map]
  have hno : ∀ l ∈ es.map fun e => text e.1 ++ sep :: text e.2, nl ∉ l := by
    intro l hl
    obtain ⟨e, -, rfl⟩ := List.mem_map.mp hl
    simp [not_mem_text hnl, hne]
  have hread : (parsePair sep ∘ fun e : Int × Int => text e.1 ++ sep :: text e.2) = pure ∘ id :=
    funext fun e => parsePair_text hsep
  rw [parsePairs, hlines, splitOn_lines hno, List.dropLast_concat, List.mapM_map, hread]
  exact (List.mapM_pure (f := id)).trans (congrArg some (List.map_id es))

/-! ## Lists -/

/-- Integers with separators between them. -/
def joined (sep : Char) (is : List Int) : List Char := [sep].intercalate (is.map text)

theorem not_mem_joined {sep c : Char} (hc : ¬ Plain c) (hne : c ≠ sep) (is : List Int) :
    c ∉ joined sep is := by
  induction is with
  | nil => exact List.not_mem_nil
  | cons i is ih =>
    cases is with
    | nil => simpa [joined] using not_mem_text hc
    | cons j is =>
      rw [joined, List.map_cons, List.map_cons, List.intercalate_cons_cons]
      simp only [List.mem_append, List.mem_singleton, not_or]
      exact ⟨⟨not_mem_text hc, hne⟩, ih⟩

/-- A list that is split where it was joined gives its numbers. -/
theorem splitOn_joined {sep : Char} (h : ¬ Plain sep) {is : List Int} (hne : is ≠ []) :
    (joined sep is).splitOn sep = is.map text := by
  refine List.splitOn_intercalate sep (fun l hl => ?_) (by simpa using hne)
  obtain ⟨i, -, rfl⟩ := List.mem_map.mp hl
  exact not_mem_text h

/-- A list that is split elsewhere stays in one piece. -/
theorem splitOn_joined_of_ne {sep c : Char} (hc : ¬ Plain c) (hne : c ≠ sep) (is : List Int) :
    (joined sep is).splitOn c = [joined sep is] :=
  List.splitOn_eq_singleton (not_mem_joined hc hne is)

end Decimal
end Lib
end ReplicatedStore
