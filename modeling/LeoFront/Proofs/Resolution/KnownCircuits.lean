import LeoFront.Proofs.Check.Program
import LeoFront.Proofs.Resolution.Installation

namespace LeoFront

namespace DefinitionStore

/-- Every key qualifies a name by the owner, for circuits their local name. -/
structure OwnedBy (store : DefinitionStore) (owner : String) : Prop where
  keys : ∀ key ∈ store.keys, ∃ name, key = qualify owner name
  circuits : ∀ key localName circuit, store.get? key = some (.circuit localName circuit) →
    key = qualify owner localName

def HasCircuit (store : DefinitionStore) (key : String) : Prop :=
  ∃ localName circuit, store.get? key = some (.circuit localName circuit)

theorem ownedBy_of_get? {store : DefinitionStore} {owner : String}
    (stored : ∀ key definition, store.get? key = some definition → ∃ name,
      key = qualify owner name ∧ ∀ localName ∈ definition.circuitName?, localName = name) :
    store.OwnedBy owner where
  keys key member := by
    obtain ⟨definition, found⟩ := store.mem_keys_iff.mp member
    obtain ⟨name, same, -⟩ := stored key definition found
    exact ⟨name, same⟩
  circuits key localName circuit found := by
    obtain ⟨name, rfl, localNames⟩ := stored key _ found
    rw [localNames localName rfl]

variable {store : DefinitionStore} {owner : String}

theorem mem_circuitNames {name : String} : name ∈ circuitNames store ↔
    ∃ key circuit, store.get? key = some (.circuit name circuit) := by
  simp only [circuitNames, List.mem_filterMap, Table.mem_values_iff]
  constructor
  · rintro ⟨definition, ⟨key, found⟩, named⟩
    cases definition with
    | circuit localName circuit =>
      cases named
      exact ⟨key, circuit, found⟩
    | function boundCircuit function => cases named
  · rintro ⟨key, circuit, found⟩
    exact ⟨_, ⟨key, found⟩, rfl⟩

theorem OwnedBy.mem_circuitNames_iff (owned : store.OwnedBy owner) (name : String) :
    name ∈ circuitNames store ↔ store.HasCircuit (qualify owner name) := by
  rw [mem_circuitNames]
  constructor
  · rintro ⟨key, circuit, found⟩
    exact ⟨name, circuit, owned.circuits key name circuit found ▸ found⟩
  · rintro ⟨localName, circuit, found⟩
    cases qualify_injective (owned.circuits _ localName circuit found)
    exact ⟨_, circuit, found⟩

theorem OwnedBy.nodup_circuitNames (owned : store.OwnedBy owner) : (circuitNames store).Nodup := by
  have key {entry : String × Definition} (member : entry ∈ store.entries) {name : String}
      (named : entry.2.circuitName? = some name) : entry.1 = qualify owner name := by
    obtain ⟨key, definition⟩ := entry
    cases definition with
    | circuit localName circuit =>
      cases named
      exact owned.circuits key _ circuit (store.get?_eq_some_iff.mpr member)
    | function boundCircuit function => cases named
  have distinct : store.entries.Pairwise fun first second => first.1 ≠ second.1 :=
    List.pairwise_map.mp store.nodup
  rw [circuitNames, Table.values, List.filterMap_map, List.Nodup, List.pairwise_filterMap]
  refine distinct.imp_of_mem fun {first second} here there different name named other named' => ?_
  rintro rfl
  exact different ((key here named).trans (key there named').symm)

end DefinitionStore

namespace Resolver
open Resolution

/-- The store that the resolution of a main program leaves, whether it succeeds or fails. -/
def storeOf (resolver : Resolver) (program : Program) (path : Option String) : DefinitionStore :=
  (sessionAfter (resolver.resolveProgram program path (.start .empty))).store

theorem storeOf_ownedBy (resolver : Resolver) (program : Program) (path : Option String) :
    (resolver.storeOf program path).OwnedBy program.name := by
  refine DefinitionStore.ownedBy_of_get? fun key definition found => ?_
  rw [storeOf, sessionAfter_store] at found
  rcases DefinitionStore.stored_of_get? found with before | does
  · cases before
  · rcases stored_of_resolveProgram does with declared | ⟨name, incoming⟩
    · obtain ⟨name, -, same, localName⟩ := Program.of_mem_definitions declared
      exact ⟨name, same, localName⟩
    · exact ⟨name, incoming.key_eq, incoming.localName⟩

/-- Whether the resolution of a main program succeeds or fails, the store belongs to the program and
holds no two circuits of one local name; and the check of the program reports a written type if and
only if the program declares no circuit of that name and none is stored under its qualified name. -/
theorem resolveProgram_circuitNames (resolver : Resolver) (program : Program)
    (path : Option String) :
    (resolver.storeOf program path).OwnedBy program.name ∧
    (circuitNames (resolver.storeOf program path)).Nodup ∧
    ∀ name,
      ((SymbolTable.ofProgram program (circuitNames (resolver.storeOf program path))).hasCircuit
        name = true ↔ name ∈ program.circuits.keys ∨
          (resolver.storeOf program path).HasCircuit (qualify program.name name)) ∧
      ∀ span filePath, (⟨.unknownSymbol "circuit" name, span, filePath⟩ : Diagnostic) ∈
          program.typecheck (circuitNames (resolver.storeOf program path)) filePath ↔
        program.Writes ⟨name, span⟩ ∧ ¬ (name ∈ program.circuits.keys ∨
          (resolver.storeOf program path).HasCircuit (qualify program.name name)) := by
  have owned := resolver.storeOf_ownedBy program path
  refine ⟨owned, owned.nodup_circuitNames, fun name => ⟨?_, fun span filePath => ?_⟩⟩
  · rw [SymbolTable.hasCircuit_ofProgram, owned.mem_circuitNames_iff]
  · rw [Program.mem_typecheck_unknownSymbol, owned.mem_circuitNames_iff]

end Resolver

end LeoFront
