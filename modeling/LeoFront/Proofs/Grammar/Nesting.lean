import LeoFront.Grammar.SyntaxError
import LeoFront.Proofs.Grammar.Advance

namespace LeoFront

mutual

def Access.packages : Access → Nat
  | .star _ | .symbol _ => 0
  | .subPackage _ access _ => access.packages + 1
  | .multiple accesses _ => packagesOfAll accesses

def packagesOfAll : List Access → Nat
  | [] => 0
  | first :: rest => max first.packages (packagesOfAll rest)

end

theorem packages_le_of_mem {access : Access} {accesses : List Access} (member : access ∈ accesses) :
    access.packages ≤ packagesOfAll accesses := by
  induction accesses with
  | nil => cases member
  | cons first rest ih =>
    rw [packagesOfAll]
    rcases List.mem_cons.mp member with rfl | among
    · exact Nat.le_max_left ..
    · exact Nat.le_trans (ih among) (Nat.le_max_right ..)

theorem packagesOfAll_lt {accesses : List Access} {bound : Nat} (positive : 0 < bound)
    (each : ∀ access ∈ accesses, access.packages < bound) : packagesOfAll accesses < bound := by
  induction accesses with
  | nil => exact positive
  | cons first rest ih =>
    obtain ⟨head, tail⟩ := List.forall_mem_cons.mp each
    rw [packagesOfAll]
    exact Nat.max_lt.mpr ⟨head, ih tail⟩

namespace Grammar
open LeoFront.Parser
variable {α : Type} {cursor after : Cursor} {bound : List Char}

def ReadBehind (p : Parser α) (cursor : Cursor) (value : α) : Prop :=
  ∃ here onward, cursor.Reaches here ∧ (p here).result = some (value, onward)

theorem ReadBehind.of_reaches {p : Parser α} {middle : Cursor} {value : α}
    (reaches : cursor.Reaches middle) (read : ReadBehind p middle value) :
    ReadBehind p cursor value := by
  obtain ⟨here, onward, further, read⟩ := read
  exact ⟨here, onward, reaches.trans further, read⟩

theorem readBehind_bind {β : Type} {p : Parser β} {next : β → Parser α} [Advances p] {value : α}
    (read : ((p >>= next) cursor).result = some (value, after)) :
    ∃ first middle, cursor.Reaches middle ∧ (next first middle).result = some (value, after) := by
  obtain ⟨first, middle, here, onward⟩ := bind_some.mp read
  exact ⟨first, middle, Advances.reaches _ _ _ here, onward⟩

theorem mem_separated {item : Parser α} [Advances item] {values : List α}
    (read : (separated item cursor).result = some (values, after)) {value : α}
    (member : value ∈ values) : ReadBehind item cursor value := by
  obtain ⟨first, middle, head, read⟩ := bind_some.mp read
  obtain ⟨rest, last, tail, read⟩ := bind_some.mp read
  cases read
  rcases List.mem_cons.mp member with rfl | among
  · exact ⟨cursor, middle, .refl cursor, head⟩
  · obtain ⟨place, onward, reaches, read⟩ := mem_many tail among
    obtain ⟨_, _, blank, read⟩ := readBehind_bind read
    obtain ⟨_, _, comma, read⟩ := readBehind_bind read
    obtain ⟨_, here, blank', read⟩ := readBehind_bind read
    have before := (Advances.reaches _ _ _ head).trans reaches
    exact ⟨here, onward, ((before.trans blank).trans comma).trans blank', read⟩

theorem separated_ne_nil {item : Parser α} {values : List α}
    (read : (separated item cursor).result = some (values, after)) : values ≠ [] := by
  obtain ⟨first, _, _, read⟩ := bind_some.mp read
  obtain ⟨rest, _, _, read⟩ := bind_some.mp read
  cases read
  exact List.cons_ne_nil first rest

theorem packageOver_access {access : Parser Access} {package : Package}
    (read : (packageOver access cursor).result = some (package, after)) :
    ReadBehind access cursor package.access := by
  obtain ⟨make, read, made⟩ := spanned_some.mp read
  obtain ⟨name, _, named, read⟩ := readBehind_bind read
  obtain ⟨_, _, blank, read⟩ := readBehind_bind read
  obtain ⟨_, _, dot, read⟩ := readBehind_bind read
  obtain ⟨_, here, blank', read⟩ := readBehind_bind read
  obtain ⟨value, onward, within, read⟩ := bind_some.mp read
  cases read
  cases made
  exact ⟨here, _, ((named.trans blank).trans dot).trans blank', within⟩

theorem accessOver_cases {access : Parser Access} [Advances access] {value : Access}
    (read : (accessOver access cursor).result = some (value, after)) :
    (∃ span, value = .star span) ∨ (∃ symbol, value = .symbol symbol) ∨
      (∃ accesses span, value = .multiple accesses span ∧ accesses ≠ [] ∧
        ∀ inner ∈ accesses, ReadBehind access cursor inner) ∨
      ∃ name inner span, value = .subPackage name inner span ∧ ReadBehind access cursor inner := by
  rcases or_some read with star | read
  · obtain ⟨make, read, made⟩ := spanned_some.mp star
    obtain ⟨_, _, _, read⟩ := bind_some.mp read
    cases read
    exact .inl ⟨_, made.symm⟩
  rcases or_some read with multiple | read
  · obtain ⟨make, read, made⟩ := spanned_some.mp multiple
    obtain ⟨_, _, opened, read⟩ := readBehind_bind read
    obtain ⟨_, _, blank, read⟩ := readBehind_bind read
    obtain ⟨accesses, _, within, read⟩ := bind_some.mp read
    obtain ⟨_, _, _, read⟩ := bind_some.mp read
    obtain ⟨_, _, _, read⟩ := bind_some.mp read
    obtain ⟨_, _, _, read⟩ := bind_some.mp read
    obtain ⟨_, _, _, read⟩ := bind_some.mp read
    cases read
    exact .inr (.inr (.inl ⟨accesses, _, made.symm, separated_ne_nil within, fun inner member =>
      (mem_separated within member).of_reaches (opened.trans blank)⟩))
  rcases or_some read with package | read
  · obtain ⟨package, _, within, read⟩ := bind_some.mp package
    cases read
    exact .inr (.inr (.inr ⟨_, _, _, rfl, packageOver_access within⟩))
  rcases or_some read with one | none
  · obtain ⟨symbol, _, _, read⟩ := bind_some.mp one
    cases read
    exact .inr (.inl ⟨symbol, rfl⟩)
  · cases none

theorem accessWithin_packages {value : Access}
    (read : (accessWithin bound cursor).result = some (value, after)) :
    value.packages < bound.length := by
  induction bound generalizing cursor value after with
  | nil => cases read
  | cons c bound ih =>
    rw [accessWithin] at read
    have inside (inner : Access) (read : ReadBehind (accessWithin bound) cursor inner) :
        inner.packages < bound.length := by
      obtain ⟨here, onward, -, read⟩ := read
      exact ih read
    rw [List.length_cons]
    obtain ⟨span, rfl⟩ | ⟨symbol, rfl⟩ | ⟨accesses, span, rfl, -, each⟩ |
      ⟨name, inner, span, rfl, within⟩ := accessOver_cases read
    · exact Nat.succ_pos _
    · exact Nat.succ_pos _
    · exact packagesOfAll_lt (Nat.succ_pos _) fun inner member =>
        Nat.lt_succ_of_lt (inside inner (each inner member))
    · exact Nat.succ_lt_succ (inside inner within)

theorem word_length {text : String} {value : Unit}
    (read : (word text cursor).result = some (value, after)) :
    text.toList.length + after.rest.length ≤ cursor.rest.length := by
  obtain ⟨_, middle, here, onward⟩ := bind_some.mp read
  unfold literal at here
  split at here
  · rename_i begins
    cases here
    obtain ⟨rest, split⟩ := List.isPrefixOf_iff_prefix.mp begins
    have shorter := (Advances.reaches _ _ _ onward).length_le
    simp only [Cursor.skip, ← split, List.drop_left] at shorter
    rw [← split, List.length_append]
    omega
  · cases here

theorem importStatement_access {statement : Import}
    (read : (importStatement cursor).result = some (statement, after)) :
    ReadBehind access cursor statement.package.access := by
  obtain ⟨make, read, made⟩ := spanned_some.mp read
  obtain ⟨_, _, word, read⟩ := readBehind_bind read
  obtain ⟨_, _, blank, read⟩ := readBehind_bind read
  obtain ⟨package, _, within, read⟩ := bind_some.mp read
  obtain ⟨_, _, _, read⟩ := bind_some.mp read
  obtain ⟨_, _, _, read⟩ := bind_some.mp read
  cases read
  cases made
  exact (packageOver_access within).of_reaches (word.trans blank)

theorem importStatement_packages {statement : Import}
    (read : (importStatement cursor).result = some (statement, after)) :
    statement.package.access.packages < cursor.rest.length := by
  obtain ⟨make, read, made⟩ := spanned_some.mp read
  obtain ⟨_, _, word, read⟩ := bind_some.mp read
  obtain ⟨_, _, blank, read⟩ := readBehind_bind read
  obtain ⟨package, _, within, read⟩ := bind_some.mp read
  obtain ⟨_, _, _, read⟩ := bind_some.mp read
  obtain ⟨_, _, _, read⟩ := bind_some.mp read
  cases read
  cases made
  obtain ⟨here, _, further, inside⟩ := packageOver_access within
  have nested : package.access.packages < here.rest.length + 1 := accessWithin_packages inside
  have left := word_length word
  have blanks := blank.length_le
  have onward := further.length_le
  have keyword : "import".toList.length = 6 := rfl
  dsimp only
  omega

theorem item_import {item : Item} {statement : Import}
    (read : (Grammar.item cursor).result = some (item, after))
    (imports : item.statement? = some statement) :
    ∃ onward, (importStatement cursor).result = some (statement, onward) := by
  rcases or_some read with imported | read
  · obtain ⟨_, _, within, read⟩ := bind_some.mp imported
    cases read
    cases imports
    exact ⟨_, within⟩
  rcases or_some read with circuit | read
  · obtain ⟨_, _, _, read⟩ := bind_some.mp circuit
    cases read
    cases imports
  rcases or_some read with function | none
  · obtain ⟨_, _, _, read⟩ := bind_some.mp function
    cases read
    cases imports
  · cases none

theorem file_import {file : File} (read : (Grammar.file cursor).result = some (file, after)) :
    ∀ statement ∈ file.imports, ReadBehind importStatement cursor statement := by
  obtain ⟨make, read, made⟩ := spanned_some.mp read
  obtain ⟨_, _, blank, read⟩ := readBehind_bind read
  obtain ⟨items, _, repeated, read⟩ := bind_some.mp read
  cases read
  cases made
  intro statement member
  obtain ⟨item, among, imports⟩ := List.mem_filterMap.mp member
  obtain ⟨here, _, further, read⟩ := mem_many repeated among
  obtain ⟨_, _, inside, read⟩ := bind_some.mp read
  obtain ⟨_, _, _, read⟩ := bind_some.mp read
  cases read
  obtain ⟨onward, within⟩ := item_import inside imports
  exact ⟨here, onward, blank.trans further, within⟩

end Grammar

theorem File.parse_import {text : String} {name : Option String} {file : File}
    (parsed : File.parse text name = .ok file) : ∀ statement ∈ file.imports,
      Grammar.ReadBehind Grammar.importStatement (.ofSource text.toList) statement := by
  unfold File.parse File.parseChars Parser.run at parsed
  dsimp only at parsed
  split at parsed
  · rename_i read
    cases parsed
    exact Grammar.file_import read
  · cases parsed
  · cases parsed

theorem File.parse_packages {text : String} {name : Option String} {file : File}
    (parsed : File.parse text name = .ok file) :
    ∀ statement ∈ file.imports, statement.package.access.packages < text.toList.length := by
  intro statement member
  obtain ⟨here, onward, reaches, read⟩ := File.parse_import parsed statement member
  exact Nat.lt_of_lt_of_le (Grammar.importStatement_packages read) reaches.length_le

end LeoFront
