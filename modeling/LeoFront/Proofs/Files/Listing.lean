import LeoFront.Resolution.Entry
import Mathlib.Data.List.Sort
import Mathlib.Order.Bounds.Basic

namespace LeoFront

namespace Text
variable {text suffix shorter : List Char}

theorem dropSuffix?_eq_some (dropped : dropSuffix? text suffix = some shorter) :
    text = shorter ++ suffix := by
  unfold dropSuffix? at dropped
  split at dropped
  · rename_i ends
    cases dropped
    rw [Bool.and_eq_true, List.isSuffixOf_iff_suffix] at ends
    obtain ⟨front, rfl⟩ := ends.2
    simp
  · cases dropped

theorem dropSuffix?_append (nonempty : suffix ≠ []) (text : List Char) :
    dropSuffix? (text ++ suffix) suffix = some text := by
  simp [dropSuffix?, nonempty]

theorem dropSuffix?_eq_none (nonempty : suffix ≠ []) :
    dropSuffix? text suffix = none ↔ ¬ suffix <:+ text := by
  simp [dropSuffix?, nonempty]

theorem trimWithin_append {bound copies : Nat} (nonempty : suffix ≠ []) (enough : copies ≤ bound)
    (bare : ¬ suffix <:+ text) :
    trimWithin suffix bound (text ++ (List.replicate copies suffix).flatten) = text := by
  induction copies generalizing bound with
  | zero =>
    have still := (dropSuffix?_eq_none nonempty).mpr bare
    cases bound <;> simp [trimWithin, still]
  | succ copies ih =>
    obtain ⟨bound, rfl⟩ : ∃ less, bound = less + 1 := ⟨bound - 1, by omega⟩
    rw [List.replicate_succ', List.flatten_concat, ← List.append_assoc, trimWithin,
      dropSuffix?_append nonempty]
    exact ih (by omega)

theorem exists_trimWithin {bound : Nat} (nonempty : suffix ≠ []) (enough : text.length ≤ bound) :
    ¬ suffix <:+ trimWithin suffix bound text ∧
      ∃ copies, text = trimWithin suffix bound text ++ (List.replicate copies suffix).flatten := by
  induction bound generalizing text with
  | zero =>
    obtain rfl := List.eq_nil_of_length_eq_zero (Nat.le_zero.mp enough)
    exact ⟨by simpa [trimWithin] using nonempty, 0, by simp [trimWithin]⟩
  | succ bound ih =>
    rw [trimWithin]
    cases dropped : dropSuffix? text suffix with
    | none => exact ⟨(dropSuffix?_eq_none nonempty).mp dropped, 0, by simp⟩
    | some shorter =>
      obtain rfl := dropSuffix?_eq_some dropped
      have positive := List.length_pos_iff.mpr nonempty
      rw [List.length_append] at enough
      have shortened : shorter.length ≤ bound := by omega
      obtain ⟨bare, copies, whole⟩ := ih shortened
      refine ⟨bare, copies + 1, ?_⟩
      rw [List.replicate_succ', List.flatten_concat, ← List.append_assoc, ← whole]

theorem copies_le_length {rest : List Char} {copies : Nat} (nonempty : suffix ≠ [])
    (whole : text = rest ++ (List.replicate copies suffix).flatten) : copies ≤ text.length := by
  have positive := List.length_pos_iff.mpr nonempty
  calc copies ≤ copies * suffix.length := Nat.le_mul_of_pos_right _ positive
    _ ≤ text.length := by simp [whole]

theorem trimWithin_eq_iff {bound : Nat} {rest : List Char} (nonempty : suffix ≠ [])
    (enough : text.length ≤ bound) : trimWithin suffix bound text = rest ↔
      ¬ suffix <:+ rest ∧ ∃ copies, text = rest ++ (List.replicate copies suffix).flatten := by
  constructor
  · rintro rfl
    exact exists_trimWithin nonempty enough
  · rintro ⟨bare, copies, whole⟩
    have few := (copies_le_length nonempty whole).trans enough
    rw [whole, trimWithin_append nonempty few bare]

theorem trimEndMatches_eq_iff {text suffix rest : String} (nonempty : suffix.toList ≠ []) :
    trimEndMatches text suffix = rest ↔ ¬ suffix.toList <:+ rest.toList ∧
      ∃ copies, text.toList = rest.toList ++ (List.replicate copies suffix.toList).flatten := by
  rw [← trimWithin_eq_iff nonempty (Nat.le_of_eq String.length_toList), ← String.toList_inj,
    trimEndMatches, String.toList_ofList]

def copies (count : Nat) (text : String) : String := String.join (List.replicate count text)

theorem toList_copies (count : Nat) (text : String) :
    (copies count text).toList = (List.replicate count text.toList).flatten := by
  rw [copies, String.toList_join, List.flatMap_replicate]

theorem copies_zero (text : String) : copies 0 text = "" := rfl

theorem copies_add (first second : Nat) (text : String) :
    copies (first + second) text = copies first text ++ copies second text := by
  apply String.toList_inj.mp
  rw [String.toList_append, toList_copies, toList_copies, toList_copies, ← List.flatten_append,
    List.replicate_append_replicate]

section
variable {text suffix rest : String}

theorem toList_ne_nil (nonempty : suffix ≠ "") : suffix.toList ≠ [] :=
  fun none => nonempty (String.toList_eq_nil_iff.mp none)

theorem trimEndMatches_eq_iff_copies (nonempty : suffix ≠ "") :
    trimEndMatches text suffix = rest ↔
      ¬ suffix.toList <:+ rest.toList ∧ ∃ count, text = rest ++ copies count suffix := by
  simp only [trimEndMatches_eq_iff (toList_ne_nil nonempty), ← toList_copies,
    ← String.toList_append, String.toList_inj]

theorem trimEndMatches_parts (text : String) (nonempty : suffix ≠ "") :
    ¬ suffix.toList <:+ (trimEndMatches text suffix).toList ∧
      ∃ count, text = trimEndMatches text suffix ++ copies count suffix :=
  (trimEndMatches_eq_iff_copies nonempty).mp rfl

theorem trimEndMatches_append_copies (nonempty : suffix ≠ "") (count : Nat) :
    trimEndMatches (text ++ copies count suffix) suffix = trimEndMatches text suffix := by
  obtain ⟨bare, taken, whole⟩ := trimEndMatches_parts text nonempty
  refine (trimEndMatches_eq_iff_copies nonempty).mpr ⟨bare, taken + count, ?_⟩
  rw [copies_add, ← String.append_assoc, ← whole]

theorem trimEndMatches_eq_self_iff (nonempty : suffix ≠ "") :
    trimEndMatches text suffix = text ↔ ¬ suffix.toList <:+ text.toList := by
  rw [trimEndMatches_eq_iff_copies nonempty, and_iff_left]
  exact ⟨0, by rw [copies_zero, String.append_empty]⟩

theorem trimWithin_of_le {bound : Nat} (nonempty : suffix ≠ "") (enough : text.length ≤ bound) :
    trimWithin suffix.toList bound text.toList = (trimEndMatches text suffix).toList := by
  rw [← String.length_toList] at enough
  rw [trimWithin_eq_iff (toList_ne_nil nonempty) enough,
    ← trimEndMatches_eq_iff (toList_ne_nil nonempty)]

theorem trimEndMatches_empty (text : String) : trimEndMatches text "" = text := by
  have still (bound : Nat) (text : List Char) : trimWithin [] bound text = text := by
    cases bound <;> rfl
  rw [trimEndMatches]
  exact (congrArg String.ofList (still ..)).trans String.ofList_toList

end

/-- A text is what is left of it and copies of the suffix, and what is left does not end with the suffix.
There are no more rounds than characters, so a greater bound changes nothing. Trimming again changes
nothing either, nor do further copies behind the text. -/
theorem trimEndMatches_strips (text suffix : String) :
    (suffix ≠ "" →
      (∃ count, text = trimEndMatches text suffix ++ copies count suffix) ∧
      ¬ suffix.toList <:+ (trimEndMatches text suffix).toList ∧
      (∀ bound, text.length ≤ bound →
        trimWithin suffix.toList bound text.toList = (trimEndMatches text suffix).toList) ∧
      trimEndMatches (trimEndMatches text suffix) suffix = trimEndMatches text suffix ∧
      (∀ count, trimEndMatches (text ++ copies count suffix) suffix = trimEndMatches text suffix) ∧
      (trimEndMatches text suffix = text ↔ ¬ suffix.toList <:+ text.toList)) ∧
    trimEndMatches text "" = text := by
  refine ⟨fun nonempty => ?_, trimEndMatches_empty text⟩
  obtain ⟨bare, whole⟩ := trimEndMatches_parts text nonempty
  exact ⟨whole, bare, fun bound => trimWithin_of_le nonempty,
    (trimEndMatches_eq_self_iff nonempty).mpr bare, trimEndMatches_append_copies nonempty,
    trimEndMatches_eq_self_iff nonempty⟩

theorem overlapping_strips : "aa" ≠ "" ∧ trimEndMatches "caaaaa" "aa" = "ca" ∧
    (∃ count, "caaaaa" = "ca" ++ copies count "aa") ∧ ¬ "aa".toList <:+ "ca".toList := by
  have nonempty : "aa" ≠ "" := by decide
  have left : trimEndMatches "caaaaa" "aa" = "ca" := by decide +kernel
  obtain ⟨whole, bare, -⟩ := (trimEndMatches_strips "caaaaa" "aa").1 nonempty
  rw [left] at whole bare
  exact ⟨nonempty, left, whole, bare⟩

end Text

/-- The name of a package with any number of extensions; the package's name itself has none. -/
def FileName.OfPackage (name : FileName) (package : String) : Prop :=
  ¬ sourceExtension.toList <:+ package.toList ∧ ∃ copies, (Text.Utf8.decodeLossy name).toList =
    package.toList ++ (List.replicate copies sourceExtension.toList).flatten

theorem Entry.packageName_eq_iff {entry : Entry} {package : String} :
    entry.packageName = package ↔ entry.rawName.OfPackage package :=
  Text.trimEndMatches_eq_iff (by decide)

instance (name : FileName) (package : String) : Decidable (name.OfPackage package) :=
  decidable_of_iff ((Entry.mk "" name).packageName = package) Entry.packageName_eq_iff

namespace FileName
variable {name : FileName} {names other : List FileName}

theorem before_iff (first second : FileName) : before first second = true ↔ first < second := by
  induction first generalizing second with
  | nil => cases second <;> simp [before]
  | cons byte rest ih =>
    cases second with
    | nil => simp [before]
    | cons byte' rest' => simp [before, ih, List.cons_lt_cons_iff]

theorem insertSorted_eq (name : FileName) (names : List FileName) :
    insertSorted name names = names.orderedInsert (· ≤ ·) name := by
  induction names with
  | nil => rfl
  | cons first rest ih =>
    rw [insertSorted, List.orderedInsert_cons, ih]
    by_cases least : name ≤ first
    · have behind : before first name = false := by simp [← Bool.not_eq_true, before_iff, least]
      simp [least, behind]
    · have ahead : before first name = true := by simpa [before_iff] using least
      simp [least, ahead]

theorem sort_eq (names : List FileName) : sort names = names.insertionSort (· ≤ ·) := by
  induction names with
  | nil => rfl
  | cons first rest ih =>
    rw [List.insertionSort_cons, ← ih, ← insertSorted_eq]
    rfl

theorem sort_perm (names : List FileName) : (sort names).Perm names := by
  rw [sort_eq]
  exact List.perm_insertionSort _ names

theorem sort_pairwise (names : List FileName) : (sort names).Pairwise (· ≤ ·) := by
  rw [sort_eq]
  exact List.pairwise_insertionSort _ names

theorem eq_sort (ordered : names.Pairwise (· ≤ ·)) (perm : names.Perm other) :
    names = sort other := by
  apply List.Perm.eq_of_pairwise _ ordered (sort_pairwise other)
  · exact perm.trans (sort_perm other).symm
  · intro first second _ _ le ge
    exact List.le_antisymm le ge

theorem sort_eq_of_perm (perm : names.Perm other) : sort names = sort other :=
  eq_sort (sort_pairwise names) ((sort_perm names).trans perm)

theorem filter_sort (keep : FileName → Bool) (names : List FileName) :
    (sort names).filter keep = sort (names.filter keep) :=
  eq_sort ((sort_pairwise names).filter keep) ((sort_perm names).filter keep)

theorem isLeast_head {rest : List FileName} (ordered : (name :: rest).Pairwise (· ≤ ·)) :
    IsLeast {other | other ∈ name :: rest} name := by
  obtain ⟨least, -⟩ := List.pairwise_cons.mp ordered
  refine ⟨List.mem_cons_self, fun other member => ?_⟩
  rcases List.mem_cons.mp member with rfl | later
  · exact List.le_refl _
  · exact least other later

theorem isLeast_find? {wanted : FileName → Bool} (ordered : names.Pairwise (· ≤ ·))
    (found : names.find? wanted = some name) :
    IsLeast {other | other ∈ names ∧ wanted other = true} name := by
  obtain ⟨isWanted, earlier, later, rfl, unwanted⟩ := List.find?_eq_some_iff_append.mp found
  refine ⟨⟨by simp, isWanted⟩, ?_⟩
  rintro other ⟨member, otherWanted⟩
  rcases List.mem_append.mp member with before | behind
  · have skipped := unwanted other before
    simp [otherWanted] at skipped
  · apply (isLeast_head (List.pairwise_append.mp ordered).2.1).2
    exact behind

end FileName

end LeoFront
