import LeoFront.Proofs.Resolution.Taking
import Mathlib.Logic.Relation

namespace LeoFront

namespace Resolver
open Resolution
variable {resolver : Resolver} {depth : Nat} {scope : String} {active : List String}
  {statements source : List Import} {program : Program} {path : Option String}

def Onward (resolver : Resolver) (source target : List Import) : Prop :=
  ∃ entry span file, resolver.Imported source entry span ∧
    resolver.workspace.parseFile entry.path = .ok file ∧ target = file.imports

def Reaches (resolver : Resolver) (source target : List Import) : Prop :=
  Relation.ReflTransGen resolver.Onward source target

/-- A name comes in by one of some import statements: by a star from a file that declares it, or by a
symbol with this local name. -/
def BringsIn (resolver : Resolver) (statements : List Import) (name : String) : Prop :=
  (∃ entry span file, resolver.ImportTakes statements entry (.everything span) ∧
    resolver.workspace.parseFile entry.path = .ok file ∧ file.Declares name) ∨
  ∃ entry symbol, resolver.ImportTakes statements entry (.symbol symbol) ∧ name = symbol.localName

theorem bringsIn_of_takes {entry : Entry} {taking : Taking} {file : File} {name : String}
    (takes : resolver.ImportTakes statements entry taking)
    (parsed : resolver.workspace.parseFile entry.path = .ok file)
    (brings : taking.Brings file name) : resolver.BringsIn statements name := by
  cases taking with
  | everything span => exact .inl ⟨entry, span, file, takes, parsed, brings⟩
  | symbol symbol => exact .inr ⟨entry, symbol, takes, brings⟩

theorem onward_of_takes {entry : Entry} {taking : Taking} {file : File}
    (takes : resolver.ImportTakes statements entry taking)
    (parsed : resolver.workspace.parseFile entry.path = .ok file) :
    resolver.Onward statements file.imports :=
  ⟨entry, taking.span, file, imported_iff.mpr ⟨taking, rfl, takes⟩, parsed, rfl⟩

/-- What imports store comes in on the way, and a circuit knows the name that it comes in by. -/
structure Incoming (resolver : Resolver) (statements : List Import) (scope key : String)
    (definition : Definition) (name : String) : Prop where
  key_eq : key = qualify scope name
  localName : ∀ localName ∈ definition.circuitName?, localName = name
  bringsIn : ∃ source, resolver.Reaches statements source ∧ resolver.BringsIn source name

theorem importsWithin_incoming {key : String} {definition : Definition}
    (does : (resolver.importsWithin depth scope statements).Does active
      (.stored key definition)) :
    ∃ name, resolver.Incoming statements scope key definition name := by
  induction depth generalizing statements active with
  | zero => cases does
  | succ depth ih =>
    obtain ⟨entry, taking, takes, does⟩ := takes_of_importsWithin_does does
    obtain ⟨file, parsed, ⟨name, _, stored, brings, localName⟩ | ⟨path, -, -, does⟩⟩ :=
      does_of_take does
    · cases stored
      exact ⟨name, rfl, localName, statements, .refl, bringsIn_of_takes takes parsed brings⟩
    · rcases does with entered | left | nested
      · cases entered
      · cases left
      · obtain ⟨name, key_eq, localName, source, reaches, brings⟩ := ih nested
        exact ⟨name, key_eq, localName, source,
          .head (onward_of_takes takes parsed) reaches, brings⟩

theorem stores_of_bringsIn {name : String} (brings : resolver.BringsIn statements name)
    (ok : (resolver.importsWithin depth scope statements).outcome active = .ok ()) :
    ∃ definition, (resolver.importsWithin depth scope statements).Does active
      (.stored (qualify scope name) definition) := by
  cases depth with
  | zero => cases ok
  | succ depth =>
    rcases brings with ⟨entry, span, file, takes, parsed, declares⟩ | ⟨entry, symbol, takes, rfl⟩
    · obtain ⟨taken, within⟩ := importsWithin_takes ok takes
      obtain ⟨file', _, parsed', -, -, stores⟩ := take_does taken
      cases parsed.symm.trans parsed'
      obtain ⟨definition, does⟩ := stores name declares
      exact ⟨definition, within _ does⟩
    · obtain ⟨taken, within⟩ := importsWithin_takes ok takes
      obtain ⟨_, _, -, -, -, stores⟩ := take_does taken
      obtain ⟨definition, does⟩ := stores symbol.localName rfl
      exact ⟨definition, within _ does⟩

theorem stores_of_reaches {name : String} (reaches : resolver.Reaches statements source)
    (brings : resolver.BringsIn source name)
    (ok : (resolver.importsWithin depth scope statements).outcome active = .ok ()) :
    ∃ definition, (resolver.importsWithin depth scope statements).Does active
      (.stored (qualify scope name) definition) := by
  induction reaches using Relation.ReflTransGen.head_induction_on generalizing depth active with
  | refl => exact stores_of_bringsIn brings ok
  | head onward _ ih =>
    obtain ⟨entry, span, file, imported, parsed, rfl⟩ := onward
    obtain ⟨taking, -, takes⟩ := imported_iff.mp imported
    cases depth with
    | zero => cases ok
    | succ depth =>
      obtain ⟨taken, within⟩ := importsWithin_takes ok takes
      obtain ⟨file', path, parsed', nestedOk, nested, -⟩ := take_does taken
      cases parsed.symm.trans parsed'
      obtain ⟨definition, does⟩ := ih nestedOk
      exact ⟨definition, within _ (nested _ does)⟩

theorem resolveProgram_define (resolver : Resolver) (program : Program) (path : Option String) :
    (∃ failure, (resolver.resolveProgram program path).effect [] = ⟨.error failure, []⟩) ∨
    ∃ active before after, (∀ event ∈ before ++ after, ∀ name definition,
        event ≠ .stored name definition) ∧
      (resolver.resolveProgram program path).effect [] =
        ⟨(define resolver.imports program).outcome active,
          before ++ ((define resolver.imports program).effect active).events ++ after⟩ := by
  cases path with
  | none =>
    refine .inr ⟨[], [], [], by simp, ?_⟩
    simp only [List.nil_append, List.append_nil, ← effect_outcome]
    rfl
  | some path =>
    rw [resolveProgram, resolveDefinitions, effect_inside]
    cases resolved : resolver.workspace.resolve path with
    | error error => exact .inl ⟨_, rfl⟩
    | ok key =>
      refine .inr ⟨[key], [.entered key], [.left key], by simp, ?_⟩
      simp

theorem stored_of_resolveProgram {key : String} {definition : Definition}
    (does : (resolver.resolveProgram program path).Does [] (.stored key definition)) :
    (key, definition) ∈ program.definitions ∨
      ∃ name, resolver.Incoming program.imports program.name key definition name := by
  obtain ⟨failure, effect⟩ | ⟨active, before, after, quiet, effect⟩ :=
    resolveProgram_define resolver program path
  · rw [Does, effect] at does
    cases does
  · rw [Does, effect, List.mem_append, List.mem_append] at does
    have outside (member : Event.stored key definition ∈ before ++ after) : False :=
      quiet _ member _ _ rfl
    rcases does with (first | defined) | last
    · exact (outside (List.mem_append_left _ first)).elim
    · rcases (does_define program).mp defined with imported | ⟨-, entry, member, stored⟩
      · exact .inr (importsWithin_incoming imported)
      · cases stored
        exact .inl member
    · exact (outside (List.mem_append_right _ last)).elim

theorem resolveProgram_stores (ok : (resolver.resolveProgram program path).outcome [] = .ok ()) :
    (∀ entry ∈ program.definitions,
      (resolver.resolveProgram program path).Does [] (.stored entry.1 entry.2)) ∧
    ∀ source name, resolver.Reaches program.imports source → resolver.BringsIn source name →
      ∃ definition, (resolver.resolveProgram program path).Does []
        (.stored (qualify program.name name) definition) := by
  obtain ⟨failure, effect⟩ | ⟨active, before, after, -, effect⟩ :=
    resolveProgram_define resolver program path
  · rw [← effect_outcome, effect] at ok
    cases ok
  · rw [← effect_outcome, effect] at ok
    change (define resolver.imports program).outcome active = .ok () at ok
    rw [outcome_define] at ok
    have within (event : Event) (does : (define resolver.imports program).Does active event) :
        (resolver.resolveProgram program path).Does [] event := by
      rw [Does, effect]
      exact List.mem_append_left _ (List.mem_append_right _ does)
    constructor
    · intro entry member
      exact within _ ((does_define program).mpr (.inr ⟨ok, entry, member, rfl⟩))
    · intro source name reaches brings
      obtain ⟨definition, does⟩ := stores_of_reaches reaches brings ok
      exact ⟨definition, within _ ((does_define program).mpr (.inl does))⟩

theorem resolveProgram_install {session after : Session} (outside : session.active = [])
    (run : resolver.resolveProgram program path session = .ok () after) :
    ∃ brought, after.store = program.install brought := by
  have ok := outcome_of_ok run
  have stored := sessionAfter_store (resolver.resolveProgram program path) session
  rw [run, outside] at stored
  rw [outside] at ok
  change after.store = _ at stored
  obtain ⟨failure, effect⟩ | ⟨active, before, last, quiet, effect⟩ :=
    resolveProgram_define resolver program path
  · rw [← effect_outcome, effect] at ok
    cases ok
  rw [← effect_outcome, effect] at ok
  have nothing : ∀ event ∈ last, ∀ name definition, event ≠ .stored name definition :=
    fun event member => quiet event (List.mem_append_right _ member)
  rw [effect, List.foldl_append, List.foldl_append, DefinitionStore.apply_quiet nothing] at stored
  obtain ⟨brought, installed⟩ :=
    define_install (before.foldl DefinitionStore.apply session.store) ok
  exact ⟨brought, stored.trans installed⟩

/-- After a success the names in the store are those that the program declares and those that come in
by the imports of the program and of the files that these lead to. What the program declares stands
under its name; of a circuit and a function with one name it is the function. -/
theorem resolveProgram_keys (resolver : Resolver) (program : Program) (path : Option String)
    (after : Session)
    (run : resolver.resolveProgram program path (.start .empty) = .ok () after) :
    (∀ key, key ∈ after.store.keys ↔ ∃ name, key = qualify program.name name ∧
      (program.Declares name ∨ ∃ source, resolver.Reaches program.imports source ∧
        resolver.BringsIn source name)) ∧
    (∀ name function, program.functions.get? name = some function →
      after.store.get? (qualify program.name name) = some (.function none function)) ∧
    ∀ name circuit, program.circuits.get? name = some circuit →
      name ∉ program.functions.keys →
      after.store.get? (qualify program.name name) = some (.circuit name circuit) := by
  obtain ⟨definesAll, bringsAll⟩ := resolveProgram_stores (outcome_of_ok run)
  obtain ⟨brought, installed⟩ := resolveProgram_install rfl run
  have keys (key : String) : key ∈ after.store.keys ↔ ∃ definition,
      (resolver.resolveProgram program path).Does [] (.stored key definition) := by
    have stored := sessionAfter_store (resolver.resolveProgram program path) (.start .empty)
    rw [run] at stored
    change after.store = _ at stored
    rw [stored, DefinitionStore.mem_keys_apply]
    exact or_iff_right List.not_mem_nil
  refine ⟨fun key => (keys key).trans ⟨?_, ?_⟩, ?_, ?_⟩
  · rintro ⟨definition, does⟩
    rcases stored_of_resolveProgram does with declared | ⟨name, incoming⟩
    · obtain ⟨name, declares, same, -⟩ := Program.of_mem_definitions declared
      exact ⟨name, same, .inl declares⟩
    · exact ⟨name, incoming.key_eq, .inr incoming.bringsIn⟩
  · rintro ⟨name, rfl, declares | ⟨source, reaches, brings⟩⟩
    · obtain ⟨definition, member⟩ := Program.mem_definitions declares
      exact ⟨definition, definesAll _ member⟩
    · exact bringsAll source name reaches brings
  · intro name function declared
    rw [installed, Program.get?_install, declared]
    rfl
  · intro name circuit declared noFunction
    have absent : program.functions.get? name = none := by
      rw [← Option.not_isSome_iff_eq_none, Option.isSome_iff_exists, ← Table.mem_keys_iff]
      exact noFunction
    rw [installed, Program.get?_install, absent, declared]
    rfl

def renamingImports : Resolver := .ofSources
  [("foo.leo", "import bar.Inner as I;\ncircuit Point \x7b x: u8 \x7d"),
    ("bar.leo", "circuit Inner \x7b v: u8 \x7d\ncircuit Hidden \x7b v: u8 \x7d")]

def renamingProgram : Program :=
  .ofText "import foo.*;\nfunction main() -> u8 \x7b return 1u8; \x7d" "main"

def renamingRun : EStateM.Result Failure Session Unit :=
  renamingImports.resolveProgram renamingProgram none (.start .empty)

def storedKeys? : EStateM.Result Failure Session Unit → Option (List String)
  | .ok _ after => some after.store.keys
  | .error _ _ => none

theorem renamingRun_keys :
    storedKeys? renamingRun = some ["main_I", "main_Point", "main_main"] ∧
    ∀ key, key ∈ ["main_I", "main_Point", "main_main"] ↔ ∃ name, key = qualify "main" name ∧
      (renamingProgram.Declares name ∨ ∃ source,
        renamingImports.Reaches renamingProgram.imports source ∧
          renamingImports.BringsIn source name) := by
  have keys : storedKeys? renamingRun = some ["main_I", "main_Point", "main_main"] := by
    decide +kernel
  refine ⟨keys, ?_⟩
  cases run : renamingRun with
  | error failure after =>
    rw [run] at keys
    cases keys
  | ok value after =>
    rw [run] at keys
    have named : renamingProgram.name = "main" := by decide +kernel
    have brought := (resolveProgram_keys renamingImports renamingProgram none after run).1
    rw [Option.some.inj keys, named] at brought
    exact brought

end Resolver

end LeoFront
