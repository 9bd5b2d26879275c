import LeoFront.Proofs.Check.SymbolTable
import Mathlib.Data.Set.Card

/-!
# What names stand for, told by history

A table keeps a stack of scopes and forgets how it came about. But a name never stands in two scopes,
so nothing is hidden in the stack, and what a name stands for can be told from the history of the table:
by the last declaration of the name that was accepted, as long as the scope it went to is open.

* `SymbolTable.after` is the table after a history of operations.
* `SymbolTable.StandsAt` says that a history holds an accepted declaration whose scope is open.
* `SymbolTable.holds_after`: those are the variables in the scopes of the table.
* `SymbolTable.after_unhidden`: what can be found in a table after any history.
-/

namespace LeoFront.SymbolTable

inductive Operation where
  | insertVariable (name : String) (declared : Variable) (filePath : Option String)
  | lookupVariable (name : String)
  | enterScope
  | exitScope
  | clearVariables
  | insertCircuit (name : String) (circuit : Option Circuit)

def perform (table : SymbolTable) : Operation → SymbolTable
  | .insertVariable name declared filePath =>
    match table.insertVariable name declared filePath with
    | .ok changed => changed
    | .error _ => table
  | .lookupVariable _ => table
  | .enterScope => table.enterScope
  | .exitScope => table.exitScope
  | .clearVariables => table.clearVariables
  | .insertCircuit name circuit => table.insertCircuit name circuit

def after (history : List Operation) : SymbolTable := history.foldl perform empty

def Operation.nest (depth : Nat) : Operation → Nat
  | .enterScope => depth + 1
  | .exitScope => if depth ≤ 1 then depth else depth - 1
  | .clearVariables => 1
  | .insertVariable .. | .lookupVariable _ | .insertCircuit .. => depth

def nestAfter (depth : Nat) (operations : List Operation) : Nat :=
  operations.foldl Operation.nest depth

def Accepts (table : SymbolTable) (name : String) (declared : Variable)
    (filePath : Option String) : Prop :=
  ∃ changed, table.insertVariable name declared filePath = .ok changed

/-- While some operations are done, the variables are not cleared and the scope at a depth is not
closed: at no moment fewer scopes are open. -/
structure StaysOpen (depth : Nat) (operations : List Operation) : Prop where
  uncleared : .clearVariables ∉ operations
  unclosed : ∀ moment, moment <+: operations → depth ≤ nestAfter depth moment

/-- A declaration of a name was accepted in a scope that is still open. -/
def StandsAt (history : List Operation) (depth : Nat) (name : String) (declared : Variable) : Prop :=
  ∃ before filePath later, history = before ++ .insertVariable name declared filePath :: later ∧
    (after before).Accepts name declared filePath ∧ depth = nestAfter 1 before ∧
    StaysOpen depth later

/-- The last declaration of a name that was accepted went to a scope that is still open. -/
def LastStands (history : List Operation) (name : String) (declared : Variable) : Prop :=
  ∃ before filePath later, history = before ++ .insertVariable name declared filePath :: later ∧
    (after before).Accepts name declared filePath ∧ StaysOpen (nestAfter 1 before) later ∧
    ∀ between declared' filePath' rest,
      later = between ++ .insertVariable name declared' filePath' :: rest →
        ¬ (after (before ++ .insertVariable name declared filePath :: between)).Accepts name
          declared' filePath'

variable {table : SymbolTable} {name other : String} {declared : Variable}
  {filePath : Option String} {operation : Operation} {history : List Operation} {depth : Nat}

theorem after_concat (history : List Operation) (operation : Operation) :
    after (history ++ [operation]) = (after history).perform operation := by
  simp [after]

theorem nestAfter_append (depth : Nat) (first second : List Operation) :
    nestAfter depth (first ++ second) = nestAfter (nestAfter depth first) second := by
  simp [nestAfter]

theorem accepts_iff :
    table.Accepts name declared filePath ↔ table.lookupVariable name = none := by
  unfold Accepts insertVariable
  cases table.lookupVariable name <;> simp

theorem perform_accepted (free : table.lookupVariable name = none) :
    table.perform (.insertVariable name declared filePath) =
      { table with innermost := table.innermost.insert name declared } := by
  simp only [perform, insertVariable, free]

theorem perform_refused (taken : table.lookupVariable name ≠ none) :
    table.perform (.insertVariable name declared filePath) = table := by
  obtain ⟨earlier, found⟩ := Option.ne_none_iff_exists'.mp taken
  simp only [perform, insertVariable, found]

theorem length_perform (table : SymbolTable) (operation : Operation) :
    (table.perform operation).scopes.length = operation.nest table.scopes.length := by
  cases operation with
  | insertVariable name declared filePath =>
    by_cases free : table.lookupVariable name = none
    · rw [perform_accepted free]
      rfl
    · rw [perform_refused free]
      rfl
  | exitScope =>
    obtain ⟨circuits, innermost, enclosing⟩ := table
    cases enclosing <;> simp [perform, exitScope, scopes, Operation.nest]
  | lookupVariable name => rfl
  | enterScope => rfl
  | clearVariables => rfl
  | insertCircuit name circuit => rfl

theorem length_after (history : List Operation) :
    (after history).scopes.length = nestAfter 1 history := by
  induction history using List.reverseRecOn with
  | nil => rfl
  | append_singleton history operation ih =>
    rw [after_concat, length_perform, ih, nestAfter_append]
    rfl

def Unhidden (table : SymbolTable) : Prop :=
  table.scopes.Pairwise fun inner outer => ∀ name, ¬ (name ∈ inner.keys ∧ name ∈ outer.keys)

theorem lookupVariable_eq_none :
    table.lookupVariable name = none ↔ ∀ scope ∈ table.scopes, name ∉ scope.keys := by
  simp only [lookupVariable, List.findSome?_eq_none_iff, ← Table.contains_iff, Table.contains,
    Option.isSome_iff_ne_none, ne_eq, not_not]

theorem Unhidden.insert (unhidden : table.Unhidden) (free : table.lookupVariable name = none)
    (declared : Variable) :
    Unhidden { table with innermost := table.innermost.insert name declared } := by
  obtain ⟨apart, around⟩ := List.pairwise_cons.mp unhidden
  refine List.pairwise_cons.mpr ⟨fun outer among other ⟨inside, outside⟩ => ?_, around⟩
  have known : other ∈ table.innermost.keys ∨ other = name := by
    rw [Table.keys_insert] at inside
    split at inside <;> grind
  rcases known with before | rfl
  · exact apart outer among other ⟨before, outside⟩
  · exact lookupVariable_eq_none.mp free outer (List.mem_cons_of_mem _ among) outside

theorem Unhidden.perform (unhidden : table.Unhidden) (operation : Operation) :
    (table.perform operation).Unhidden := by
  cases operation with
  | insertVariable name declared filePath =>
    by_cases free : table.lookupVariable name = none
    · rw [perform_accepted free]
      exact unhidden.insert free declared
    · rw [perform_refused free]
      exact unhidden
  | enterScope =>
    exact List.pairwise_cons.mpr ⟨fun outer _ name inside => List.not_mem_nil inside.1, unhidden⟩
  | exitScope =>
    obtain ⟨circuits, innermost, enclosing⟩ := table
    cases enclosing with
    | nil => exact unhidden
    | cons outer others => exact (List.pairwise_cons.mp unhidden).2
  | clearVariables => exact List.pairwise_singleton _ _
  | lookupVariable name => exact unhidden
  | insertCircuit name circuit => exact unhidden

theorem unhidden_after (history : List Operation) : (after history).Unhidden := by
  induction history using List.reverseRecOn with
  | nil => exact List.pairwise_singleton _ _
  | append_singleton history operation ih =>
    rw [after_concat]
    exact ih.perform operation

theorem length_names (scopes : List Scope) (count : Nat) :
    scopes.foldl (fun count scope => count + scope.size) count =
      count + (scopes.flatMap Table.keys).length := by
  induction scopes generalizing count with
  | nil => rfl
  | cons scope outer ih =>
    rw [List.foldl_cons, ih, List.flatMap_cons, List.length_append, Table.keys, List.length_map,
      Nat.add_assoc]
    rfl

theorem Unhidden.encard_visible (unhidden : table.Unhidden) :
    {name | (table.lookupVariable name).isSome}.encard = table.variableCount := by
  have nodup : (table.scopes.flatMap Table.keys).Nodup := by
    refine List.nodup_flatMap.mpr ⟨fun scope _ => scope.nodup, unhidden.imp ?_⟩
    exact fun apart name inside outside => apart name ⟨inside, outside⟩
  have visible : {name | (table.lookupVariable name).isSome} =
      (table.scopes.flatMap Table.keys).toFinset := by
    ext name
    rw [Set.mem_ofPred_eq, Option.isSome_iff_ne_none, Ne, lookupVariable_eq_none]
    simp
  rw [visible, Set.encard_coe_eq_coe_finsetCard, List.toFinset_card_of_nodup nodup, variableCount,
    length_names, Nat.zero_add]

/-- A variable is in a scope, the outermost scope being at depth one. -/
def Holds : List Scope → Nat → String → Variable → Prop
  | [], _, _, _ => False
  | scope :: outer, depth, name, declared =>
    depth = outer.length + 1 ∧ scope.get? name = some declared ∨ Holds outer depth name declared

theorem Holds.le {scopes : List Scope} (holds : Holds scopes depth name declared) :
    depth ≤ scopes.length := by
  induction scopes with
  | nil => cases holds
  | cons scope outer ih =>
    rcases holds with ⟨rfl, -⟩ | further
    · exact Nat.le_refl _
    · exact Nat.le_succ_of_le (ih further)

theorem Holds.mem_keys {scopes : List Scope} (holds : Holds scopes depth name declared) :
    ∃ scope ∈ scopes, name ∈ scope.keys := by
  induction scopes with
  | nil => cases holds
  | cons scope outer ih =>
    rcases holds with ⟨-, here⟩ | further
    · exact ⟨scope, List.mem_cons_self, scope.mem_keys_iff.mpr ⟨_, here⟩⟩
    · obtain ⟨scope', among, inside⟩ := ih further
      exact ⟨scope', List.mem_cons_of_mem _ among, inside⟩

theorem findSome?_iff_holds {scopes : List Scope}
    (unhidden : scopes.Pairwise fun inner outer =>
      ∀ name, ¬ (name ∈ inner.keys ∧ name ∈ outer.keys)) :
    scopes.findSome? (·.get? name) = some declared ↔ ∃ depth, Holds scopes depth name declared := by
  induction scopes with
  | nil => simp [Holds]
  | cons scope outer ih =>
    obtain ⟨apart, around⟩ := List.pairwise_cons.mp unhidden
    rw [List.findSome?_cons]
    cases found : scope.get? name with
    | none => simp [Holds, found, ih around]
    | some earlier =>
      have only (depth : Nat) : ¬ Holds outer depth name declared := by
        intro holds
        obtain ⟨scope', among, inside⟩ := holds.mem_keys
        exact apart scope' among name ⟨scope.mem_keys_iff.mpr ⟨_, found⟩, inside⟩
      simp [Holds, found, only]

theorem Unhidden.lookupVariable_iff (unhidden : table.Unhidden) :
    table.lookupVariable name = some declared ↔ ∃ depth, Holds table.scopes depth name declared :=
  findSome?_iff_holds unhidden

theorem holds_insert (free : table.lookupVariable other = none) (value : Variable) :
    Holds (scopes { table with innermost := table.innermost.insert other value }) depth name
        declared ↔
      Holds table.scopes depth name declared ∨
        depth = table.scopes.length ∧ other = name ∧ value = declared := by
  simp only [scopes, Holds, Table.get?_insert, List.length_cons]
  by_cases same : other = name
  · subst same
    have absent : table.innermost.get? other = none := by
      simpa [lookupVariable, scopes] using (List.findSome?_eq_none_iff.mp free) _ List.mem_cons_self
    simp [absent, or_comm]
  · simp [same]

theorem holds_exitScope (table : SymbolTable) :
    Holds table.exitScope.scopes depth name declared ↔
      Holds table.scopes depth name declared ∧
        depth ≤ Operation.exitScope.nest table.scopes.length := by
  obtain ⟨circuits, innermost, enclosing⟩ := table
  cases enclosing with
  | nil =>
    exact ⟨fun holds => ⟨holds, holds.le⟩, And.left⟩
  | cons outer others =>
    simp only [exitScope, scopes, Operation.nest, List.length_cons]
    constructor
    · intro holds
      exact ⟨.inr holds, by simpa using holds.le⟩
    · rintro ⟨⟨rfl, -⟩ | further, open_⟩
      · simp at open_
      · exact further

theorem holds_perform (table : SymbolTable) (operation : Operation) :
    Holds (table.perform operation).scopes depth name declared ↔
      (Holds table.scopes depth name declared ∧ operation ≠ .clearVariables ∧
        depth ≤ operation.nest table.scopes.length) ∨
      depth = table.scopes.length ∧ ∃ filePath,
        operation = .insertVariable name declared filePath ∧
        table.Accepts name declared filePath := by
  have within {more : Nat} (enough : table.scopes.length ≤ more) :
      Holds table.scopes depth name declared ↔
        Holds table.scopes depth name declared ∧ depth ≤ more :=
    ⟨fun holds => ⟨holds, Nat.le_trans holds.le enough⟩, And.left⟩
  cases operation with
  | insertVariable other value filePath =>
    by_cases free : table.lookupVariable other = none
    · rw [perform_accepted free, holds_insert free, within (Nat.le_refl _)]
      simp only [accepts_iff, Operation.nest, Operation.insertVariable.injEq]
      grind
    · rw [perform_refused free, within (Nat.le_refl _)]
      simp only [accepts_iff, Operation.nest, Operation.insertVariable.injEq]
      grind
  | enterScope =>
    have opened : Holds table.enterScope.scopes depth name declared ↔
        Holds table.scopes depth name declared := by simp [enterScope, scopes, Holds]
    simpa [perform, opened, Operation.nest] using within (Nat.le_succ _)
  | exitScope => simp [perform, holds_exitScope]
  | clearVariables => simp [perform, clearVariables, scopes, Holds]
  | lookupVariable name => simpa [perform, Operation.nest] using within (Nat.le_refl _)
  | insertCircuit name circuit =>
    have kept : (table.insertCircuit name circuit).scopes = table.scopes := rfl
    simpa [perform, kept, Operation.nest] using within (Nat.le_refl _)

theorem staysOpen_concat (operations : List Operation) (operation : Operation) :
    StaysOpen depth (operations ++ [operation]) ↔ StaysOpen depth operations ∧
      operation ≠ .clearVariables ∧ depth ≤ operation.nest (nestAfter depth operations) := by
  have last : nestAfter depth (operations ++ [operation]) =
      operation.nest (nestAfter depth operations) := nestAfter_append ..
  constructor
  · rintro ⟨uncleared, unclosed⟩
    simp only [List.mem_append, List.mem_singleton, not_or] at uncleared
    refine ⟨⟨uncleared.1, fun moment early => ?_⟩, Ne.symm uncleared.2, ?_⟩
    · exact unclosed moment (early.trans (List.prefix_append ..))
    · exact last ▸ unclosed _ (List.prefix_refl _)
  · rintro ⟨⟨uncleared, unclosed⟩, other, open_⟩
    refine ⟨by simp [uncleared, Ne.symm other], fun moment early => ?_⟩
    rcases List.prefix_concat_iff.mp early with rfl | before
    · exact last ▸ open_
    · exact unclosed moment before

theorem staysOpen_nil (depth : Nat) : StaysOpen depth [] :=
  ⟨List.not_mem_nil, fun _ early => by rw [List.prefix_nil.mp early]; exact Nat.le_refl _⟩

theorem StaysOpen.of_prefix {operations moment : List Operation}
    (staysOpen : StaysOpen depth operations) (early : moment <+: operations) :
    StaysOpen depth moment :=
  ⟨fun cleared => staysOpen.uncleared (early.subset cleared),
    fun before earlier => staysOpen.unclosed before (earlier.trans early)⟩

theorem nestAfter_from (before later : List Operation) :
    nestAfter 1 (before ++ .insertVariable name declared filePath :: later) =
      nestAfter (nestAfter 1 before) later := nestAfter_append ..

theorem standsAt_concat (history : List Operation) (operation : Operation) :
    StandsAt (history ++ [operation]) depth name declared ↔
      (StandsAt history depth name declared ∧ operation ≠ .clearVariables ∧
        depth ≤ operation.nest (nestAfter 1 history)) ∨
      depth = nestAfter 1 history ∧ ∃ filePath,
        operation = .insertVariable name declared filePath ∧
        (after history).Accepts name declared filePath := by
  constructor
  · rintro ⟨before, filePath, later, split, accepted, rfl, staysOpen⟩
    -- The last operation is the declaration itself, or one behind it.
    rcases List.eq_nil_or_concat later with rfl | ⟨later, last, rfl⟩
    · obtain ⟨rfl, same⟩ := List.append_inj' split rfl
      cases same
      exact .inr ⟨rfl, filePath, rfl, accepted⟩
    · rw [List.concat_eq_append, ← List.cons_append, ← List.append_assoc] at split
      obtain ⟨rfl, same⟩ := List.append_inj' split rfl
      cases same
      rw [List.concat_eq_append, staysOpen_concat] at staysOpen
      rw [nestAfter_from]
      exact .inl ⟨⟨before, filePath, later, rfl, accepted, rfl, staysOpen.1⟩, staysOpen.2⟩
  · rintro (⟨⟨before, filePath, later, rfl, accepted, rfl, staysOpen⟩, others⟩ |
      ⟨rfl, filePath, rfl, accepted⟩)
    · rw [nestAfter_from] at others
      exact ⟨before, filePath, later ++ [operation], by simp, accepted, rfl,
        (staysOpen_concat ..).mpr ⟨staysOpen, others⟩⟩
    · exact ⟨history, filePath, [], rfl, accepted, rfl, staysOpen_nil _⟩

theorem holds_after (history : List Operation) :
    Holds (after history).scopes depth name declared ↔ StandsAt history depth name declared := by
  induction history using List.reverseRecOn with
  | nil =>
    have nothing : ¬ StandsAt [] depth name declared := by
      rintro ⟨before, filePath, later, split, -⟩
      simp at split
    simp [after, empty, scopes, Holds, nothing]
  | append_singleton history operation ih =>
    rw [after_concat, holds_perform, standsAt_concat, ih, length_after]

theorem lookupVariable_after (history : List Operation) :
    (after history).lookupVariable name = some declared ↔
      ∃ depth, StandsAt history depth name declared := by
  rw [(unhidden_after history).lookupVariable_iff]
  simp only [holds_after]

theorem exists_standsAt_iff :
    (∃ depth, StandsAt history depth name declared) ↔ LastStands history name declared := by
  constructor
  · rintro ⟨depth, before, filePath, later, rfl, accepted, rfl, staysOpen⟩
    refine ⟨before, filePath, later, rfl, accepted, staysOpen, ?_⟩
    rintro between declared' filePath' rest rfl again
    -- At that moment the declaration stands, so the name is found and nothing is accepted.
    have stands : StandsAt (before ++ .insertVariable name declared filePath :: between)
        (nestAfter 1 before) name declared :=
      ⟨before, filePath, between, rfl, accepted, rfl,
        staysOpen.of_prefix (List.prefix_append ..)⟩
    have found := (lookupVariable_after _).mpr ⟨_, stands⟩
    rw [accepts_iff.mp again] at found
    cases found
  · rintro ⟨before, filePath, later, split, accepted, staysOpen, -⟩
    exact ⟨_, before, filePath, later, split, accepted, rfl, staysOpen⟩

/-- After any history there is a scope, and none hides what another one holds. So variables are counted
as they are found, a declaration is refused just where its name is found, and a name stands for the
accepted declaration of it whose scope is open: there is none but the last one. -/
theorem after_unhidden (history : List Operation) :
    let table := after history
    (0 < table.scopes.length ∧ table.scopes.length = nestAfter 1 history) ∧
    table.Unhidden ∧
    {name | (table.lookupVariable name).isSome}.encard = table.variableCount ∧
    (∀ name declared filePath,
      ((∃ diagnostic, table.insertVariable name declared filePath = .error diagnostic) ↔
        (table.lookupVariable name).isSome) ∧
      ∀ diagnostic, table.insertVariable name declared filePath = .error diagnostic →
        diagnostic = ⟨.duplicateVariable name, declared.span, filePath⟩ ∧
          table.perform (.insertVariable name declared filePath) = table) ∧
    ∀ name declared,
      (table.lookupVariable name = some declared ↔ LastStands history name declared) ∧
      (LastStands history name declared ↔ ∃ depth, StandsAt history depth name declared) := by
  intro table
  have unhidden := unhidden_after history
  refine ⟨⟨Nat.succ_pos _, length_after history⟩, unhidden, unhidden.encard_visible,
    fun name declared filePath => ?_, fun name declared => ?_⟩
  · cases found : table.lookupVariable name with
    | none => simp [insertVariable, found]
    | some earlier => simp [insertVariable, perform, found, eq_comm]
  · refine ⟨?_, exists_standsAt_iff.symm⟩
    rw [lookupVariable_after, exists_standsAt_iff]

example (a b : Variable) : (after [.insertVariable "a" a none, .enterScope,
    .insertVariable "b" b none, .exitScope, .exitScope, .insertVariable "b" a none]).innermost.entries =
      [("a", a), ("b", a)] := rfl

end LeoFront.SymbolTable
