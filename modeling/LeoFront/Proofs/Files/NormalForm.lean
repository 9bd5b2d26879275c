import LeoFront.Resolution.Entry
import Mathlib.Data.List.Basic

/-!
# Paths in normal form

Joining takes the components of two paths one after the other. What comes out is in normal form: taken
once more, its components are all kept. So joining a directory in normal form with a plain name only
puts the name behind it.

* `Path.Settled` says of the components of a path that none of them would be taken away.
* `Path.NormalForm` is a path with its settled components.
* `Path.tidy_source`, `Path.Tidy.join_name`, `Path.Tidy.join_source`: the source directory of any
  directory is in normal form, and so are the entries and the source directories below.
-/

namespace LeoFront.Path
variable {absolute : Bool} {kept : List (List Char)} {component : List Char}

section
variable {α : Type} [DecidableEq α] {separator : α}

theorem splitAt_ne_nil (text : List α) : splitAt separator text ≠ [] := by
  cases text with
  | nil => simp [splitAt]
  | cons a rest =>
    rw [splitAt]
    split
    · simp
    · split <;> simp

theorem splitAt_of_not_mem {text : List α} (absent : separator ∉ text) :
    splitAt separator text = [text] := by
  induction text with
  | nil => rfl
  | cons a rest ih =>
    obtain ⟨here, later⟩ := List.ne_and_not_mem_of_not_mem_cons absent
    rw [splitAt, if_neg (Ne.symm here), ih later]

theorem splitAt_append (first second : List α) :
    splitAt separator (first ++ separator :: second) =
      splitAt separator first ++ splitAt separator second := by
  induction first with
  | nil => simp [splitAt]
  | cons a rest ih =>
    rw [List.cons_append, splitAt, splitAt, ih]
    split
    · rfl
    · cases pieces : splitAt separator rest with
      | nil => exact absurd pieces (splitAt_ne_nil rest)
      | cons piece pieces => rfl

theorem not_mem_of_mem_splitAt (text : List α) :
    ∀ piece ∈ splitAt separator text, separator ∉ piece := by
  induction text with
  | nil => simp [splitAt]
  | cons a rest ih =>
    rw [splitAt]
    split
    · simpa using ih
    · rename_i other
      split
      · rename_i first others same
        rw [same] at ih
        obtain ⟨here, later⟩ := List.forall_mem_cons.mp ih
        exact List.forall_mem_cons.mpr
          ⟨List.not_mem_cons_of_ne_of_not_mem (Ne.symm other) here, later⟩
      · simpa using Ne.symm other

end

theorem joined_concat (nonempty : kept ≠ []) (last : List Char) :
    joined (kept ++ [last]) = joined kept ++ '/' :: last := by
  induction kept with
  | nil => exact absurd rfl nonempty
  | cons first rest ih =>
    cases rest with
    | nil => rfl
    | cons second rest =>
      change first ++ '/' :: joined (second :: rest ++ [last]) =
        first ++ '/' :: joined (second :: rest) ++ '/' :: last
      rw [ih (List.cons_ne_nil _ _), List.append_assoc, List.cons_append]

theorem splitAt_joined (nonempty : kept ≠ []) (plain : ∀ part ∈ kept, '/' ∉ part) :
    splitAt '/' (joined kept) = kept := by
  induction kept with
  | nil => exact absurd rfl nonempty
  | cons first rest ih =>
    obtain ⟨here, later⟩ := List.forall_mem_cons.mp plain
    cases rest with
    | nil => exact splitAt_of_not_mem here
    | cons second rest =>
      change splitAt '/' (first ++ '/' :: joined (second :: rest)) = _
      rw [splitAt_append, splitAt_of_not_mem here, ih (List.cons_ne_nil _ _) later,
        List.singleton_append]

/-- Components, the last one first, each of which was kept when it was taken. -/
def Settled (absolute : Bool) : List (List Char) → Prop
  | [] => True
  | last :: before => reduceStep absolute before last = last :: before ∧ Settled absolute before

theorem Settled.of_suffix {shorter : List (List Char)} (settled : Settled absolute kept)
    (suffix : shorter <:+ kept) : Settled absolute shorter := by
  induction kept with
  | nil => rwa [List.suffix_nil.mp suffix]
  | cons last before ih =>
    rcases List.suffix_cons_iff.mp suffix with rfl | within
    · exact settled
    · exact ih settled.2 within

theorem reduceStep_cases (absolute : Bool) (kept : List (List Char)) (component : List Char) :
    reduceStep absolute kept component = component :: kept ∨
      reduceStep absolute kept component <:+ kept := by
  unfold reduceStep
  split
  · exact .inr (List.suffix_refl kept)
  split
  · split
    · split
      · exact .inr (List.suffix_refl _)
      · exact .inl rfl
    · split
      · exact .inl rfl
      · exact .inr (List.suffix_cons _ _)
  · exact .inl rfl

theorem Settled.step (settled : Settled absolute kept) (component : List Char) :
    Settled absolute (reduceStep absolute kept component) := by
  rcases reduceStep_cases absolute kept component with same | shorter
  · rw [same]
    exact ⟨same, settled⟩
  · exact settled.of_suffix shorter

theorem Settled.fold (settled : Settled absolute kept) (components : List (List Char)) :
    Settled absolute (components.foldl (reduceStep absolute) kept) := by
  induction components generalizing kept with
  | nil => exact settled
  | cons first rest ih => exact ih (settled.step first)

theorem mem_fold {components : List (List Char)} :
    ∀ part ∈ components.foldl (reduceStep absolute) kept, part ∈ components ∨ part ∈ kept := by
  induction components generalizing kept with
  | nil => exact fun part member => .inr member
  | cons first rest ih =>
    intro part member
    rcases ih part member with later | here
    · exact .inl (List.mem_cons_of_mem _ later)
    · rcases reduceStep_cases absolute kept first with same | shorter
      · rw [same] at here
        rcases List.mem_cons.mp here with rfl | before
        · exact .inl List.mem_cons_self
        · exact .inr before
      · exact .inr (shorter.mem here)

theorem Settled.fold_reverse (settled : Settled absolute kept) :
    kept.reverse.foldl (reduceStep absolute) [] = kept := by
  induction kept with
  | nil => rfl
  | cons last before ih =>
    rw [List.reverse_cons, List.foldl_concat, ih settled.2, settled.1]

theorem Settled.ne_nil (settled : Settled absolute kept) : ∀ part ∈ kept, part ≠ [] := by
  induction kept with
  | nil => simp
  | cons last before ih =>
    refine List.forall_mem_cons.mpr ⟨?_, ih settled.2⟩
    rintro rfl
    exact absurd settled.1 List.ne_cons_self

theorem Settled.begins (settled : Settled absolute kept) (nonempty : kept ≠ [])
    (plain : ∀ part ∈ kept, '/' ∉ part) :
    ∃ c rest, joined kept.reverse = c :: rest ∧ c ≠ '/' := by
  obtain ⟨first, others, split⟩ :=
    List.exists_cons_of_ne_nil (List.reverse_ne_nil_iff.mpr nonempty)
  have member : first ∈ kept := List.mem_reverse.mp (split ▸ List.mem_cons_self)
  obtain ⟨c, rest, rfl⟩ := List.exists_cons_of_ne_nil (settled.ne_nil first member)
  have other : c ≠ '/' := fun same => plain _ member (same ▸ List.mem_cons_self)
  rw [split]
  cases others with
  | nil => exact ⟨c, rest, rfl, other⟩
  | cons second others => exact ⟨c, rest ++ '/' :: joined (second :: others), rfl, other⟩

def lead (absolute : Bool) : List Char := if absolute then ['/'] else []

def trail (trailing : Bool) : List Char := if trailing then ['/'] else []

/-- A path with at least one component and none to take away. The last component is the first of
`kept`. -/
structure NormalForm (path : String) (absolute : Bool) (kept : List (List Char))
    (trailing : Bool) : Prop where
  settled : Settled absolute kept
  nonempty : kept ≠ []
  plain : ∀ part ∈ kept, '/' ∉ part
  text : path.toList = lead absolute ++ joined kept.reverse ++ trail trailing

theorem components_append (first second : String) :
    components (first ++ "/" ++ second) = components first ++ components second := by
  rw [components, String.toList_append, String.toList_append, List.append_assoc]
  exact splitAt_append first.toList second.toList

theorem normalForm_normalize {path : String}
    (folded : (components path).foldl (reduceStep (isAbsolute path)) [] = kept)
    (nonempty : kept ≠ []) :
    NormalForm (normalize path) (isAbsolute path) kept (endsWithSeparator path) := by
  have settled : Settled (isAbsolute path) kept := by
    have start : Settled (isAbsolute path) [] := trivial
    rw [← folded]
    exact start.fold _
  have plain : ∀ part ∈ kept, '/' ∉ part := by
    intro part member
    rw [← folded] at member
    rcases mem_fold part member with among | none
    · exact not_mem_of_mem_splitAt _ part among
    · cases none
  refine ⟨settled, nonempty, plain, ?_⟩
  have some : path ≠ "" := by
    rintro rfl
    exact nonempty folded.symm
  obtain ⟨c, rest, body, -⟩ := settled.begins nonempty plain
  have visible : joined kept.reverse ≠ [] := body ▸ List.cons_ne_nil c rest
  rw [normalize, if_neg some]
  simp only [reduce, folded]
  rw [if_neg visible, String.toList_ofList]
  rfl

theorem normalForm_join {directory path : String} (some : directory ≠ "") (below : path ≠ "")
    (folded : (components path).foldl (reduceStep (isAbsolute directory))
      ((components directory).foldl (reduceStep (isAbsolute directory)) []) = kept)
    (nonempty : kept ≠ []) :
    NormalForm (join directory path) (isAbsolute directory) kept (endsWithSeparator path) := by
  have begins : isAbsolute (directory ++ "/" ++ path) = isAbsolute directory := by
    rw [isAbsolute, isAbsolute, String.append_assoc, String.toList_append, List.head?_append_of_ne_nil]
    exact fun none => some (String.toList_eq_nil_iff.mp none)
  have ends : endsWithSeparator (directory ++ "/" ++ path) = endsWithSeparator path := by
    rw [endsWithSeparator, endsWithSeparator, String.toList_append, List.getLast?_append_of_ne_nil]
    exact fun none => below (String.toList_eq_nil_iff.mp none)
  rw [join, if_neg some, if_neg below, ← begins, ← ends]
  apply normalForm_normalize _ nonempty
  rw [begins, components_append, List.foldl_append, folded]

namespace NormalForm
variable {path name : String} {trailing : Bool}

theorem isAbsolute_eq (form : NormalForm path absolute kept trailing) :
    isAbsolute path = absolute := by
  obtain ⟨c, rest, body, visible⟩ := form.settled.begins form.nonempty form.plain
  rw [isAbsolute, form.text, body]
  cases absolute <;> simp [lead, visible]

theorem ne_empty (form : NormalForm path absolute kept trailing) : path ≠ "" := by
  obtain ⟨c, rest, body, -⟩ := form.settled.begins form.nonempty form.plain
  rintro rfl
  have none := form.text
  rw [body] at none
  simp at none

theorem fold (form : NormalForm path absolute kept trailing) :
    (components path).foldl (reduceStep absolute) [] = kept := by
  have inner : splitAt '/' (joined kept.reverse) = kept.reverse :=
    splitAt_joined (List.reverse_ne_nil_iff.mpr form.nonempty)
      fun part member => form.plain part (List.mem_reverse.mp member)
  -- A separator at either end only adds an empty component, which is not taken.
  have folded : (splitAt '/' (lead absolute ++ joined kept.reverse)).foldl (reduceStep absolute) [] =
      kept := by
    cases absolute with
    | false =>
      change (splitAt '/' (joined kept.reverse)).foldl _ _ = _
      rw [inner, form.settled.fold_reverse]
    | true =>
      change (splitAt '/' ([] ++ '/' :: joined kept.reverse)).foldl _ _ = _
      rw [splitAt_append, inner, List.foldl_append]
      exact form.settled.fold_reverse
  rw [components, form.text]
  cases trailing with
  | false => simpa [trail] using folded
  | true =>
    change (splitAt '/' (_ ++ '/' :: [])).foldl _ _ = _
    rw [splitAt_append, List.foldl_append, folded]
    rfl

theorem below (form : NormalForm path absolute kept trailing) {next : String}
    {component : List Char} (some : next ≠ "")
    (taken : (components next).foldl (reduceStep absolute) kept = component :: kept) :
    NormalForm (join path next) absolute (component :: kept) (endsWithSeparator next) := by
  rw [← form.isAbsolute_eq]
  apply normalForm_join form.ne_empty some _ (List.cons_ne_nil _ _)
  rw [form.isAbsolute_eq, form.fold, taken]

theorem text_cons {component : List Char}
    (form : NormalForm path absolute (component :: kept) trailing) (nonempty : kept ≠ []) :
    path.toList =
      lead absolute ++ joined kept.reverse ++ '/' :: component ++ trail trailing := by
  rw [form.text, List.reverse_cons, joined_concat (List.reverse_ne_nil_iff.mpr nonempty)]
  simp

end NormalForm

structure IsPlain (name : String) : Prop where
  nonempty : name ≠ ""
  notSelf : name ≠ "."
  notParent : name ≠ ".."
  noSeparator : '/' ∉ name.toList

theorem IsPlain.toList_ne_nil {name : String} (plain : IsPlain name) : name.toList ≠ [] :=
  fun none => plain.nonempty (String.toList_eq_nil_iff.mp none)

theorem IsPlain.ne_dots {name : String} (plain : IsPlain name) :
    name.toList ≠ ['.'] ∧ name.toList ≠ ['.', '.'] :=
  ⟨fun same => plain.notSelf (String.toList_injective same),
    fun same => plain.notParent (String.toList_injective same)⟩

def Tidy (directory : String) : Prop := ∃ absolute kept, NormalForm directory absolute kept true

theorem reduceStep_plain {name : String} (plain : IsPlain name) (absolute : Bool)
    (kept : List (List Char)) : reduceStep absolute kept name.toList = name.toList :: kept := by
  obtain ⟨onward, down⟩ := plain.ne_dots
  unfold reduceStep
  rw [if_neg (by simp [plain.toList_ne_nil, onward]), if_neg down]

theorem components_plain {name : String} (plain : IsPlain name) :
    components name = [name.toList] :=
  splitAt_of_not_mem plain.noSeparator

theorem endsWithSeparator_plain {name : String} (plain : IsPlain name) :
    endsWithSeparator name = false :=
  decide_eq_false fun last => plain.noSeparator (List.mem_of_getLast? last)

theorem fold_source (absolute : Bool) (kept : List (List Char)) :
    (components sourceDirectory).foldl (reduceStep absolute) kept = "src".toList :: kept := rfl

theorem tidy_source (directory : String) : Tidy (join directory sourceDirectory) := by
  by_cases none : directory = ""
  · rw [join, if_pos none, if_neg (by decide)]
    exact ⟨_, _, normalForm_normalize (fold_source _ _) (List.cons_ne_nil _ _)⟩
  · exact ⟨_, _, normalForm_join none (by decide) (fold_source _ _) (List.cons_ne_nil _ _)⟩

theorem NormalForm.name {directory name : String} (form : NormalForm directory absolute kept true)
    (plain : IsPlain name) :
    NormalForm (join directory name) absolute (name.toList :: kept) false := by
  rw [← endsWithSeparator_plain plain]
  apply form.below plain.nonempty
  rw [components_plain plain]
  exact reduceStep_plain plain absolute kept

namespace Tidy
variable {directory name : String}

theorem endsWithSeparator_eq (tidy : Tidy directory) : endsWithSeparator directory = true := by
  obtain ⟨absolute, kept, form⟩ := tidy
  rw [endsWithSeparator, form.text]
  simp [trail]

theorem join_name (tidy : Tidy directory) (plain : IsPlain name) :
    join directory name = directory ++ name := by
  obtain ⟨absolute, kept, form⟩ := tidy
  have below := form.name plain
  apply String.toList_injective
  rw [below.text_cons form.nonempty, String.toList_append, form.text]
  simp [trail]

theorem join_source (tidy : Tidy directory) (plain : IsPlain name) :
    join (directory ++ name) sourceDirectory = directory ++ name ++ "/" ++ sourceDirectory := by
  obtain ⟨absolute, kept, form⟩ := tidy
  have entry := form.name plain
  rw [join_name ⟨absolute, kept, form⟩ plain] at entry
  have below := entry.below (by decide) (fold_source absolute _)
  apply String.toList_injective
  rw [below.text_cons entry.nonempty, String.toList_append, String.toList_append, entry.text]
  simp [trail, endsWithSeparator, sourceDirectory]

end Tidy

end LeoFront.Path
