import Echofront.Lib.Split
import Mathlib.Data.List.DropRight

/-!
# Text

The functions of `str` that the source reads and cuts text with.  A Rust string is a
sequence of Unicode scalar values, so they work on `List Char`; a `String` of the
model is read through `toList`.

`splitWhitespace_append` is the one equation that all of `splitWhitespace` follows
from.
-/

namespace Echofront

/-- The UTF-8 bytes of a string, `str::as_bytes`. -/
def asBytes (s : String) : List UInt8 := s.toList.flatMap String.utf8EncodeChar

/-- `char::is_whitespace`, the characters of the Unicode property `White_Space`. -/
def isWhitespace (c : Char) : Bool :=
  let n := c.toNat
  (0x09 ≤ n && n ≤ 0x0D) || n == 0x20 || n == 0x85 || n == 0xA0 || n == 0x1680 ||
    (0x2000 ≤ n && n ≤ 0x200A) || n == 0x2028 || n == 0x2029 || n == 0x202F ||
    n == 0x205F || n == 0x3000

/-- `str::trim_end_matches` for a character. -/
def trimEndMatches (c : Char) (s : List Char) : List Char := s.rdropWhile (· == c)

/-- `str::trim`. -/
def trim (s : List Char) : List Char := (s.dropWhile isWhitespace).rdropWhile isWhitespace

/-- `str::split_whitespace`. -/
def splitWhitespace (s : List Char) : List (List Char) :=
  (s.splitOnP isWhitespace).filter (fun w => !w.isEmpty)

/-! ## Trimming -/

theorem trimEndMatches_concat (c : Char) (s : List Char) :
    trimEndMatches c (s ++ [c]) = trimEndMatches c s :=
  List.rdropWhile_concat_pos _ _ _ (by simp)

theorem trimEndMatches_of_getLast? {c : Char} {s : List Char} (h : s.getLast? ≠ some c) :
    trimEndMatches c s = s := by
  refine List.rdropWhile_eq_self_iff.mpr (fun hne => ?_)
  have hlast : s.getLast hne ≠ c := fun he => h (by rw [List.getLast?_eq_some_getLast hne, he])
  simpa using hlast

theorem trimEndMatches_of_not_mem {c : Char} {s : List Char} (h : c ∉ s) :
    trimEndMatches c s = s :=
  trimEndMatches_of_getLast? (fun he => h (List.mem_of_getLast? he))

/-- Text without whitespace at either end. -/
def Trimmed (s : List Char) : Prop :=
  (∀ c ∈ s.head?, isWhitespace c = false) ∧ ∀ c ∈ s.getLast?, isWhitespace c = false

instance (s : List Char) : Decidable (Trimmed s) :=
  decidable_of_iff (s.head?.all (fun c => !isWhitespace c) = true ∧
      s.getLast?.all (fun c => !isWhitespace c) = true)
    (by simp [Trimmed, Option.all_eq_true])

theorem trim_of_trimmed {s : List Char} (h : Trimmed s) : trim s = s := by
  have hdrop : s.dropWhile isWhitespace = s := by
    cases s with
    | nil => rfl
    | cons c s => exact List.dropWhile_cons_of_neg (by simp [h.1 c rfl])
  rw [trim, hdrop]
  refine List.rdropWhile_eq_self_iff.mpr (fun hne => ?_)
  simp [h.2 _ (List.getLast?_eq_some_getLast hne)]

theorem trimmed_trim (s : List Char) : Trimmed (trim s) := by
  refine ⟨fun c hc => ?_, fun c hc => ?_⟩
  · -- the first character that is left is one that the first pass stopped at
    have hpre : trim s <+: s.dropWhile isWhitespace := List.rdropWhile_prefix _ _
    obtain ⟨t, ht⟩ := hpre
    have hhead : (s.dropWhile isWhitespace).head? = some c := by
      rw [← ht, List.head?_append, show (trim s).head? = some c from hc]
      rfl
    have hnot := List.head?_dropWhile_not isWhitespace s
    rw [hhead] at hnot
    simpa using hnot
  · have hne : trim s ≠ [] := by
      rintro hnil
      simp [hnil] at hc
    have hnot : ¬ isWhitespace ((trim s).getLast hne) = true :=
      List.rdropWhile_last_not isWhitespace _ hne
    rw [List.getLast?_eq_some_getLast hne] at hc
    obtain rfl := Option.some.inj hc
    simpa using hnot

theorem trim_subset (s : List Char) : trim s ⊆ s := by
  have hpre : trim s <+: s.dropWhile isWhitespace := List.rdropWhile_prefix _ _
  exact List.Subset.trans hpre.subset (List.dropWhile_subset _)

theorem trim_cons {c : Char} (h : isWhitespace c = true) (s : List Char) :
    trim (c :: s) = trim s := by
  rw [trim, List.dropWhile_cons_of_pos h, trim]

/-! ## Words -/

theorem splitWhitespace_append {c : Char} (h : isWhitespace c = true) (s t : List Char) :
    splitWhitespace (s ++ c :: t) = splitWhitespace s ++ splitWhitespace t := by
  unfold splitWhitespace
  rw [List.splitOnP_append_cons s t h, List.filter_append]

theorem splitWhitespace_word {s : List Char} (hne : s ≠ [])
    (h : ∀ c ∈ s, isWhitespace c = false) : splitWhitespace s = [s] := by
  rw [splitWhitespace, List.splitOnP_eq_singleton h]
  simp [hne]

/-- A word is not empty and has no whitespace. -/
theorem mem_splitWhitespace {s w : List Char} (h : w ∈ splitWhitespace s) :
    w ≠ [] ∧ ∀ c ∈ w, isWhitespace c = false := by
  obtain ⟨hmem, hne⟩ := List.mem_filter.mp h
  exact ⟨by simpa using hne, Lib.not_of_mem_splitOnP hmem⟩

/-- Text that is empty after trimming has no words. -/
theorem splitWhitespace_of_trim {s : List Char} (h : trim s = []) :
    splitWhitespace s = [] := by
  induction s with
  | nil => rfl
  | cons c s ih =>
    cases hc : isWhitespace c with
    | true =>
      rw [trim_cons hc] at h
      exact (splitWhitespace_append hc [] s).trans (by rw [ih h]; rfl)
    | false =>
      rw [trim, List.dropWhile_cons_of_neg (by simp [hc]), List.rdropWhile_eq_nil_iff] at h
      rw [h c List.mem_cons_self] at hc
      exact absurd hc (by decide)

/-- Text with a character that is not whitespace has a word. -/
theorem splitWhitespace_ne_nil {s : List Char} {c : Char} (hmem : c ∈ s)
    (h : isWhitespace c = false) : splitWhitespace s ≠ [] := by
  induction s with
  | nil => simp at hmem
  | cons d s ih =>
    cases hd : isWhitespace d with
    | true =>
      have hs : c ∈ s := (List.mem_cons.mp hmem).resolve_left (fun he => by simp [← he, h] at hd)
      have hcons : splitWhitespace (d :: s) = splitWhitespace s := splitWhitespace_append hd [] s
      rw [hcons]
      exact ih hs
    | false =>
      obtain ⟨w, ws, heq⟩ := List.exists_cons_of_ne_nil (List.splitOnP_ne_nil isWhitespace s)
      have hcons : (d :: s).splitOnP isWhitespace = (d :: w) :: ws := by
        rw [List.splitOnP_cons_eq_if_modifyHead, heq]
        simp [hd]
      simp [splitWhitespace, hcons]

/-- The texts without words are those that are empty after trimming. -/
theorem splitWhitespace_eq_nil_iff {s : List Char} : splitWhitespace s = [] ↔ trim s = [] := by
  refine ⟨fun h => ?_, splitWhitespace_of_trim⟩
  by_contra hne
  obtain ⟨c, t, heq⟩ := List.exists_cons_of_ne_nil hne
  have hmem : c ∈ trim s := heq ▸ List.mem_cons_self
  have hnot := (trimmed_trim s).1 c (by rw [heq]; rfl)
  exact splitWhitespace_ne_nil (trim_subset s hmem) hnot h

/-! ## Bytes -/

theorem asBytes_append (s t : List Char) :
    asBytes (String.ofList (s ++ t)) = asBytes (String.ofList s) ++ asBytes (String.ofList t) := by
  simp [asBytes]

/-- Text in front makes more bytes. -/
theorem length_asBytes_lt {s : List Char} (hne : s ≠ []) (t : List Char) :
    (asBytes (String.ofList t)).length < (asBytes (String.ofList (s ++ t))).length := by
  obtain ⟨c, s, rfl⟩ := List.exists_cons_of_ne_nil hne
  have hchar : 0 < (String.utf8EncodeChar c).length := by
    rw [String.length_utf8EncodeChar]
    exact Char.utf8Size_pos c
  rw [asBytes_append, List.length_append]
  simp only [asBytes, String.toList_ofList, List.flatMap_cons, List.length_append]
  omega

end Echofront
