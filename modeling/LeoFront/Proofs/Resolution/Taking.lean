import LeoFront.Proofs.Program.Declarations
import LeoFront.Proofs.Resolution.Route

namespace LeoFront

def Taking.Brings (file : File) (name : String) : Taking → Prop
  | .everything _ => file.Declares name
  | .symbol wanted => name = wanted.localName

namespace Resolver
open Resolution
variable {resolver : Resolver} {imports : Imports} {scope : String} {active : List String}
  {entry : Entry} {taking : Taking} {span : Span} {event : Event} {result : Except Failure Unit}

theorem Missing.not_ofDescent {statements : List Import} {failure : Failure}
    (missing : resolver.Missing statements failure) : ¬ failure.OfDescent := by
  rcases missing with ⟨statement, -, missing⟩ | ⟨directory, name, -, missing⟩
  · exact rootOf_not_ofDescent missing
  · exact candidatesOf_not_ofDescent missing

/-- Going into the file behind an entry comes to a result. -/
def Descends (resolver : Resolver) (imports : Imports) (scope : String) (active : List String)
    (entry : Entry) (span : Span) (result : Except Failure Unit) : Prop :=
  ∃ file path, resolver.workspace.parseFile entry.path = .ok file ∧
    resolver.workspace.resolve entry.path = .ok path ∧
    result = if path ∈ active then .error (.ofCycle (cycleThrough active path) (some span))
      else (imports scope file.imports).outcome (path :: active)

/-- The results that are told from all others: success, and a failure behind the file. -/
def Telling (result : Except Failure Unit) : Prop :=
  result = .ok () ∨ ∃ failure, failure.OfDescent ∧ result = .error failure

theorem Telling.ofDescent {failure : Failure} (telling : Telling (.error failure)) :
    failure.OfDescent := by
  rcases telling with done | ⟨_, ofDescent, same⟩
  · cases done
  · cases same
    exact ofDescent

theorem does_inside (workspace : Workspace) (path : String) (span : Span) (body : Resolution Unit)
    [Oblivious body] : (inside workspace path span body).Does active event ↔
      ∃ key, workspace.resolve path = .ok key ∧ key ∉ active ∧
        (event = .entered key ∨ event = .left key ∨ body.Does (key :: active) event) := by
  rw [Does, effect_inside]
  cases workspace.resolve path with
  | error error => simp
  | ok key =>
    by_cases within : key ∈ active
    · simp [within]
    · simp [within, Does, or_comm]

theorem inside_ok_iff (workspace : Workspace) (path : String) (span : Span)
    (body : Resolution Unit) [Oblivious body] :
    (inside workspace path span body).outcome active = .ok () ↔
      ∃ key, workspace.resolve path = .ok key ∧ key ∉ active ∧
        body.outcome (key :: active) = .ok () := by
  rw [outcome_inside]
  cases workspace.resolve path with
  | error error => simp
  | ok key => by_cases within : key ∈ active <;> simp [within]

theorem descends_of_inside {program : Program} {body : Resolution Unit} [Oblivious body]
    (loaded : resolver.workspace.loadOf entry span = .ok program)
    (imported : ∀ active, body.outcome active = (imports scope program.imports).outcome active)
    (taken : (inside resolver.workspace entry.path span body).outcome active = result) :
    (∃ error, resolver.workspace.resolve entry.path = .error error ∧
      result = .error (.system error)) ∨
    resolver.Descends imports scope active entry span result := by
  obtain ⟨file, name, parsed, rfl⟩ := Workspace.loadOf_ok loaded
  rw [outcome_inside] at taken
  cases resolved : resolver.workspace.resolve entry.path with
  | error error =>
    rw [resolved] at taken
    exact .inl ⟨error, rfl, taken.symm⟩
  | ok path =>
    rw [resolved] at taken
    have same := imported (path :: active)
    rw [Program.imports_ofFile] at same
    exact .inr ⟨file, path, parsed, resolved, by rw [← taken, ← same]⟩

variable [∀ scope statements, Oblivious (imports scope statements)]

theorem effect_define (program : Program) : (define imports program).effect active =
    ((imports program.name program.imports).effect active).bind fun _ =>
      ⟨.ok (), program.definitions.map fun entry => .stored entry.1 entry.2⟩ := by
  have stored (definitions : List (String × Definition)) :
      (definitions.forM fun entry => store entry.1 entry.2).effect active =
        ⟨.ok (), definitions.map fun entry => .stored entry.1 entry.2⟩ := by
    induction definitions with
    | nil => rfl
    | cons first rest ih =>
      have others := oblivious_forM rest fun entry => oblivious_store entry.1 entry.2
      change (store first.1 first.2 >>= fun _ => _).effect active = _
      rw [effect_bind, ih]
      rfl
  have others := oblivious_forM program.definitions fun entry => oblivious_store entry.1 entry.2
  rw [define, effect_bind]
  simp only [stored]

theorem outcome_define (program : Program) (active : List String) :
    (define imports program).outcome active =
      (imports program.name program.imports).outcome active := by
  rw [← effect_outcome, effect_define, ← effect_outcome, Account.bind]
  cases ((imports program.name program.imports).effect active).outcome <;> rfl

theorem does_define (program : Program) : (define imports program).Does active event ↔
    (imports program.name program.imports).Does active event ∨
      (imports program.name program.imports).outcome active = .ok () ∧
        ∃ entry ∈ program.definitions, event = .stored entry.1 entry.2 := by
  rw [Does, effect_define, Account.bind, ← effect_outcome]
  cases done : ((imports program.name program.imports).effect active).outcome with
  | error failure => simp [Does]
  | ok value => simp [Does, eq_comm]

theorem define_install {program : Program} (store : DefinitionStore)
    (ok : (define imports program).outcome active = .ok ()) :
    ∃ brought, ((define imports program).effect active).events.foldl DefinitionStore.apply store =
      program.install brought := by
  rw [outcome_define, ← effect_outcome] at ok
  rw [effect_define, Account.bind, ok]
  simp only [List.foldl_append, List.foldl_map]
  exact ⟨_, rfl⟩

theorem effect_takeAll (resolver : Resolver) (scope : String) (entry : Entry) (span : Span) :
    (resolver.takeAll imports scope entry span).effect active =
      Account.bind ⟨resolver.workspace.loadOf entry span, []⟩ fun program =>
        (inside resolver.workspace entry.path span
          (define imports (program.rename scope))).effect active := by
  rw [takeAll, effect_bind, effect_loadEntry]
  congr 1
  funext program
  exact effect_bind_ok _ (effect_log ..)

theorem effect_takeSymbol (resolver : Resolver) (scope : String) (entry : Entry)
    (symbol : ImportSymbol) : (resolver.takeSymbol imports scope entry symbol).effect active =
      Account.bind ⟨resolver.workspace.loadOf entry symbol.span, []⟩ fun program =>
        match program.definition? symbol.symbol.name symbol.localName with
        | none => ⟨.error (.badImport
            ⟨.unknownSymbol symbol.symbol.name scope entry.path, some symbol.span⟩), []⟩
        | some definition =>
          Account.bind ⟨.ok (), [.stored (qualify scope symbol.localName) definition]⟩ fun _ =>
            (inside resolver.workspace entry.path symbol.span
              (imports scope program.imports)).effect active := by
  have afterwards (program : Program) :
      Oblivious (match program.definition? symbol.symbol.name symbol.localName with
        | none => fault (.unknownSymbol symbol.symbol.name scope entry.path) symbol.span
        | some definition => do
          let name := qualify scope symbol.localName
          log .debug (String.join
            ["storing ", symbol.symbol.name, " from ", entry.path, " as ", name])
          store name definition
          inside resolver.workspace entry.path symbol.span (imports scope program.imports)) := by
    split <;> infer_instance
  rw [takeSymbol, effect_bind, effect_loadEntry]
  dsimp only
  congr 1
  funext program
  cases program.definition? symbol.symbol.name symbol.localName with
  | none => rfl
  | some definition => exact (effect_bind_ok _ (effect_log ..)).trans (effect_bind ..)

/-- Why nothing comes to be taken from an entry, before its file is gone into. -/
inductive Refuses (resolver : Resolver) (scope : String) (entry : Entry) : Taking → Failure → Prop
  | load {taking : Taking} {failure : Failure}
      (failed : resolver.workspace.loadOf entry taking.span = .error failure) :
      Refuses resolver scope entry taking failure
  | symbol {symbol : ImportSymbol} {program : Program}
      (loaded : resolver.workspace.loadOf entry symbol.span = .ok program)
      (undeclared : program.definition? symbol.symbol.name symbol.localName = none) :
      Refuses resolver scope entry (.symbol symbol)
        (.badImport ⟨.unknownSymbol symbol.symbol.name scope entry.path, some symbol.span⟩)
  | path {taking : Taking} {error : OsError}
      (failed : resolver.workspace.resolve entry.path = .error error) :
      Refuses resolver scope entry taking (.system error)

theorem Refuses.not_ofDescent {failure : Failure}
    (refuses : resolver.Refuses scope entry taking failure) : ¬ failure.OfDescent := by
  cases refuses with
  | load failed => exact Workspace.loadOf_not_ofDescent failed
  | symbol loaded undeclared => simp [Failure.OfDescent]
  | path failed => simp [Failure.OfDescent]

theorem take_cases (taken : (resolver.take imports scope entry taking).outcome active = result) :
    (∃ failure, resolver.Refuses scope entry taking failure ∧ result = .error failure) ∨
      resolver.Descends imports scope active entry taking.span result := by
  have refused {failure : Failure} (refuses : resolver.Refuses scope entry taking failure)
      (failed : .error failure = result) :
      (∃ failure, resolver.Refuses scope entry taking failure ∧ result = .error failure) ∨
        resolver.Descends imports scope active entry taking.span result :=
    .inl ⟨failure, refuses, failed.symm⟩
  cases taking with
  | everything span =>
    change (resolver.takeAll imports scope entry span).outcome active = result at taken
    rw [← effect_outcome, effect_takeAll] at taken
    cases loaded : resolver.workspace.loadOf entry span with
    | error failure =>
      rw [loaded] at taken
      exact refused (.load loaded) taken
    | ok program =>
      rw [loaded] at taken
      exact (descends_of_inside loaded (outcome_define (program.rename scope)) taken).imp_left
        fun ⟨error, failed, same⟩ => ⟨_, .path failed, same⟩
  | symbol symbol =>
    change (resolver.takeSymbol imports scope entry symbol).outcome active = result at taken
    rw [← effect_outcome, effect_takeSymbol] at taken
    cases loaded : resolver.workspace.loadOf entry symbol.span with
    | error failure =>
      rw [loaded] at taken
      exact refused (.load loaded) taken
    | ok program =>
      rw [loaded, Account.bind_pure] at taken
      cases declared : program.definition? symbol.symbol.name symbol.localName with
      | none =>
        rw [declared] at taken
        exact refused (.symbol loaded declared) taken
      | some definition =>
        rw [declared] at taken
        exact (descends_of_inside loaded (fun _ => rfl) taken).imp_left
          fun ⟨error, failed, same⟩ => ⟨_, .path failed, same⟩

theorem take_descends (taken : (resolver.take imports scope entry taking).outcome active = result)
    (telling : Telling result) :
    resolver.Descends imports scope active entry taking.span result := by
  rcases take_cases taken with ⟨failure, refuses, rfl⟩ | descends
  · exact absurd telling.ofDescent refuses.not_ofDescent
  · exact descends

theorem takeAll_ok_iff {span : Span} :
    (resolver.takeAll imports scope entry span).outcome active = .ok () ↔
      ∃ program, resolver.workspace.loadOf entry span = .ok program ∧
        (inside resolver.workspace entry.path span
          (define imports (program.rename scope))).outcome active = .ok () := by
  rw [← effect_outcome, effect_takeAll]
  cases resolver.workspace.loadOf entry span with
  | error failure => simp [Account.bind]
  | ok program => simp [Account.bind_pure, effect_outcome]

theorem takeSymbol_ok_iff {symbol : ImportSymbol} :
    (resolver.takeSymbol imports scope entry symbol).outcome active = .ok () ↔
      ∃ program definition, resolver.workspace.loadOf entry symbol.span = .ok program ∧
        program.definition? symbol.symbol.name symbol.localName = some definition ∧
        (inside resolver.workspace entry.path symbol.span
          (imports scope program.imports)).outcome active = .ok () := by
  rw [← effect_outcome, effect_takeSymbol]
  cases resolver.workspace.loadOf entry symbol.span with
  | error failure => simp [Account.bind]
  | ok program =>
    rw [Account.bind_pure]
    cases declared : program.definition? symbol.symbol.name symbol.localName with
    | none => simp [declared]
    | some definition => simp [declared, Account.bind, effect_outcome]

theorem does_takeAll {span : Span} :
    (resolver.takeAll imports scope entry span).Does active event ↔
      ∃ program, resolver.workspace.loadOf entry span = .ok program ∧
        (inside resolver.workspace entry.path span
          (define imports (program.rename scope))).Does active event := by
  rw [Does, effect_takeAll]
  cases resolver.workspace.loadOf entry span with
  | error failure => simp [Account.bind]
  | ok program => simp [Account.bind_pure, Does]

theorem does_takeSymbol {symbol : ImportSymbol} :
    (resolver.takeSymbol imports scope entry symbol).Does active event ↔
      ∃ program definition, resolver.workspace.loadOf entry symbol.span = .ok program ∧
        program.definition? symbol.symbol.name symbol.localName = some definition ∧
        (event = .stored (qualify scope symbol.localName) definition ∨
          (inside resolver.workspace entry.path symbol.span
            (imports scope program.imports)).Does active event) := by
  rw [Does, effect_takeSymbol]
  cases resolver.workspace.loadOf entry symbol.span with
  | error failure => simp [Account.bind]
  | ok program =>
    rw [Account.bind_pure]
    cases declared : program.definition? symbol.symbol.name symbol.localName with
    | none => simp [declared]
    | some definition => simp [declared, Account.bind, Does]

theorem does_of_take (does : (resolver.take imports scope entry taking).Does active event) :
    ∃ file, resolver.workspace.parseFile entry.path = .ok file ∧
      ((∃ name definition, event = .stored (qualify scope name) definition ∧
          taking.Brings file name ∧ ∀ localName ∈ definition.circuitName?, localName = name) ∨
        ∃ path, resolver.workspace.resolve entry.path = .ok path ∧ path ∉ active ∧
          (event = .entered path ∨ event = .left path ∨
            (imports scope file.imports).Does (path :: active) event)) := by
  cases taking with
  | everything span =>
    obtain ⟨program, loaded, does⟩ := does_takeAll.mp does
    obtain ⟨file, name, parsed, rfl⟩ := Workspace.loadOf_ok loaded
    refine ⟨file, parsed, ?_⟩
    rw [← Program.imports_ofFile file name]
    obtain ⟨path, resolved, fresh, entered | left | does⟩ := (does_inside ..).mp does
    · exact .inr ⟨path, resolved, fresh, .inl entered⟩
    · exact .inr ⟨path, resolved, fresh, .inr (.inl left)⟩
    rcases (does_define _).mp does with nested | ⟨_, ⟨key, definition⟩, member, rfl⟩
    · exact .inr ⟨path, resolved, fresh, .inr (.inr nested)⟩
    · obtain ⟨declared, declares, rfl, localName⟩ := Program.of_mem_definitions member
      exact .inl ⟨declared, definition, rfl, (Program.declares_ofFile ..).mp declares, localName⟩
  | symbol symbol =>
    obtain ⟨program, definition, loaded, declared, does⟩ := does_takeSymbol.mp does
    obtain ⟨file, name, parsed, rfl⟩ := Workspace.loadOf_ok loaded
    refine ⟨file, parsed, ?_⟩
    rw [← Program.imports_ofFile file name]
    rcases does with rfl | does
    · exact .inl ⟨_, definition, rfl, rfl, Program.circuitName_definition? declared⟩
    · exact .inr ((does_inside ..).mp does)

theorem take_does (ok : (resolver.take imports scope entry taking).outcome active = .ok ()) :
    ∃ file path, resolver.workspace.parseFile entry.path = .ok file ∧
      (imports scope file.imports).outcome (path :: active) = .ok () ∧
      (∀ event, (imports scope file.imports).Does (path :: active) event →
        (resolver.take imports scope entry taking).Does active event) ∧
      ∀ name, taking.Brings file name → ∃ definition,
        (resolver.take imports scope entry taking).Does active
          (.stored (qualify scope name) definition) := by
  obtain ⟨file, path, parsed, resolved, ended⟩ := take_descends ok (.inl rfl)
  by_cases again : path ∈ active
  · rw [if_pos again] at ended
    cases ended
  rw [if_neg again] at ended
  refine ⟨file, path, parsed, ended.symm, ?_⟩
  have behind {span : Span} {body : Resolution Unit} [Oblivious body] {event : Event}
      (does : body.Does (path :: active) event) :
      (inside resolver.workspace entry.path span body).Does active event :=
    (does_inside ..).mpr ⟨path, resolved, again, .inr (.inr does)⟩
  cases taking with
  | everything span =>
    obtain ⟨program, loaded, -⟩ := takeAll_ok_iff.mp ok
    obtain ⟨file', name, parsed', rfl⟩ := Workspace.loadOf_ok loaded
    cases parsed.symm.trans parsed'
    rw [← Program.imports_ofFile file name] at ended ⊢
    refine ⟨fun event does => does_takeAll.mpr ⟨_, loaded, behind ?_⟩, fun declared brings => ?_⟩
    · exact (does_define ((Program.ofFile file name).rename scope)).mpr (.inl does)
    · have declares : ((Program.ofFile file name).rename scope).Declares declared :=
        (Program.declares_ofFile ..).mpr brings
      obtain ⟨definition, member⟩ := Program.mem_definitions declares
      refine ⟨definition, does_takeAll.mpr ⟨_, loaded, behind ?_⟩⟩
      exact (does_define _).mpr (.inr ⟨ended.symm, _, member, rfl⟩)
  | symbol symbol =>
    obtain ⟨program, definition, loaded, declared, -⟩ := takeSymbol_ok_iff.mp ok
    obtain ⟨file', name, parsed', rfl⟩ := Workspace.loadOf_ok loaded
    cases parsed.symm.trans parsed'
    rw [← Program.imports_ofFile file name]
    refine ⟨fun event does => does_takeSymbol.mpr ?_, ?_⟩
    · exact ⟨_, definition, loaded, declared, .inr (behind does)⟩
    · rintro _ rfl
      exact ⟨definition, does_takeSymbol.mpr ⟨_, definition, loaded, declared, .inl rfl⟩⟩

theorem resolveProgram_error {program : Program} {path : Option String} {failure : Failure}
    (failed : (resolver.resolveProgram program path).outcome active = .error failure) :
    (∃ error, failure = .system error) ∨
    (∃ main ∈ active, failure = .ofCycle (cycleThrough active main) (some .none)) ∨
    ∃ within, (resolver.imports program.name program.imports).outcome within = .error failure := by
  cases path with
  | none => exact .inr (.inr ⟨active, (outcome_define program active).symm.trans failed⟩)
  | some path =>
    rw [resolveProgram, outcome_inside] at failed
    split at failed
    · rename_i error _
      cases failed
      exact .inl ⟨error, rfl⟩
    rename_i main _
    split at failed
    · rename_i again
      cases failed
      exact .inr (.inl ⟨main, again, rfl⟩)
    · exact .inr (.inr ⟨main :: active, (outcome_define program _).symm.trans failed⟩)

end Resolver

end LeoFront
