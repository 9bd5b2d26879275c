import LeoFront.Proofs.Resolution.Depth
import Mathlib.Data.Set.Finite.List

/-!
# Resolution ends

The journal of a resolution tells at every moment which files are active. They are all different, and
but for the main file they are targets of imports in the program and in the sources of the tree, of
which there are finitely many. So a resolution cannot go deeper and deeper.

* `Balanced`: entering and leaving files comes in pairs, and no file is entered twice.
* `Resolver.resolveProgram_ends`: every resolution of a main program comes to an end.
-/

namespace LeoFront

def Event.activate (active : List String) : Event → List String
  | .entered path => path :: active
  | .left _ => active.tail
  | .listed _ | .inspected _ | .opened _ | .logged _ | .stored .. => active

def activeAfter (active : List String) (events : List Event) : List String :=
  events.foldl Event.activate active

theorem activeAfter_append (active : List String) (first second : List Event) :
    activeAfter active (first ++ second) = activeAfter (activeAfter active first) second :=
  List.foldl_append

/-- The journal tells which files are active. -/
def Session.Told (session : Session) : Prop :=
  session.active = activeAfter [] session.journal.reverse

theorem Session.Told.entered {session : Session} (told : session.Told) (path : String) :
    Session.Told { session with
      active := path :: session.active
      journal := .entered path :: session.journal } := by
  rw [Told, List.reverse_cons, activeAfter_append, ← told]
  rfl

/-- It does where something inside of a file begins. -/
theorem Session.Told.inside {session : Session} (told : session.Told) {workspace : Workspace}
    {path : String} {span : Span} {body other : Resolution Unit}
    (alike : ∀ entered : Session, entered.Told → body entered = other entered) :
    Resolution.inside workspace path span body session =
      Resolution.inside workspace path span other session := by
  unfold Resolution.inside
  cases workspace.resolve path with
  | error error => rfl
  | ok key =>
    change (if key ∈ session.active then _ else _ : Resolution Unit) session =
      (if key ∈ session.active then _ else _ : Resolution Unit) session
    by_cases within : key ∈ session.active
    · rw [if_pos within, if_pos within]
    · let entered : Session :=
        ⟨session.store, key :: session.active, .entered key :: session.journal⟩
      have begun : body entered = other entered := alike entered (told.entered key)
      rw [if_neg within, if_neg within]
      change tryFinally body _ entered = tryFinally other _ entered
      simp only [tryFinally, tryFinally', Functor.map, EStateM.map, begun]

theorem activeAfter_changes (active : List String) (events : List Event) :
    activeAfter active (events.filter Event.isChange) = activeAfter active events := by
  induction events generalizing active with
  | nil => rfl
  | cons event rest ih => cases event <;> exact ih _

theorem mem_activeAfter {active : List String} {events : List Event} {path : String}
    (member : path ∈ activeAfter active events) : path ∈ active ∨ .entered path ∈ events := by
  induction events generalizing active with
  | nil => exact .inl member
  | cons event rest ih =>
    rcases ih member with before | later
    · cases event with
      | entered other =>
        rcases List.mem_cons.mp before with rfl | before
        · exact .inr List.mem_cons_self
        · exact .inl before
      | left other => exact .inl (List.mem_of_mem_tail before)
      | listed _ => exact .inl before
      | inspected _ => exact .inl before
      | opened _ => exact .inl before
      | logged _ => exact .inl before
      | stored _ _ => exact .inl before
    · exact .inr (List.mem_cons_of_mem _ later)

theorem prefix_append {α : Type} {first second moment : List α} (early : moment <+: first ++ second) :
    moment <+: first ∨ ∃ onward, moment = first ++ onward ∧ onward <+: second := by
  rcases List.prefix_or_prefix_of_prefix early (List.prefix_append first second) with
    within | ⟨onward, rfl⟩
  · exact .inl within
  · exact .inr ⟨onward, rfl, (List.prefix_append_right_inj first).mp early⟩

/-- Events after which the same files are active as before, and at no moment a file twice. -/
structure Balanced (active : List String) (events : List Event) : Prop where
  back : activeAfter active events = active
  nodup : ∀ moment, moment <+: events → (activeAfter active moment).Nodup

namespace Balanced
variable {active : List String} {events first second : List Event} {path : String}

theorem distinct (balanced : Balanced active events) : active.Nodup :=
  balanced.nodup [] List.nil_prefix

theorem append (earlier : Balanced active first) (later : Balanced active second) :
    Balanced active (first ++ second) where
  back := by rw [activeAfter_append, earlier.back, later.back]
  nodup moment early := by
    rcases prefix_append early with within | ⟨onward, rfl, within⟩
    · exact earlier.nodup moment within
    · rw [activeAfter_append, earlier.back]
      exact later.nodup onward within

theorem of_quiet (distinct : active.Nodup)
    (quiet : ∀ event ∈ events, ∀ active, event.activate active = active) :
    Balanced active events := by
  have still {some : List Event} (among : ∀ event ∈ some, event ∈ events) :
      activeAfter active some = active := by
    induction some with
    | nil => rfl
    | cons event rest ih =>
      obtain ⟨here, later⟩ := List.forall_mem_cons.mp among
      rw [activeAfter, List.foldl_cons, quiet event here]
      exact ih later
  exact ⟨still fun _ => id, fun moment early => by
    rw [still fun _ member => early.subset member]
    exact distinct⟩

theorem nil (distinct : active.Nodup) : Balanced active [] :=
  .of_quiet distinct fun _ member => by cases member

theorem inside (body : Balanced (path :: active) events) :
    Balanced active (.entered path :: (events ++ [.left path])) := by
  have ended : activeAfter (path :: active) (events ++ [.left path]) = active := by
    rw [activeAfter_append, body.back]
    rfl
  have outside : active.Nodup := body.distinct.of_cons
  refine ⟨ended, fun moment early => ?_⟩
  rcases List.prefix_cons_iff.mp early with rfl | ⟨onward, rfl, within⟩
  · exact outside
  change (activeAfter (path :: active) onward).Nodup
  rcases prefix_append within with here | ⟨last, rfl, leaving⟩
  · exact body.nodup onward here
  rcases List.prefix_cons_iff.mp leaving with rfl | ⟨rest, rfl, none⟩
  · rw [List.append_nil, body.back]
    exact body.distinct
  · rw [List.prefix_nil.mp none, ended]
    exact outside

end Balanced

namespace Resolution
variable {α β ι : Type}

def KeepsBalance (step : Resolution α) : Prop :=
  ∀ active, active.Nodup → Balanced active (step.effect active).events

theorem KeepsBalance.bind {step : Resolution α} {next : α → Resolution β} [Oblivious step]
    [∀ value, Oblivious (next value)] (first : KeepsBalance step)
    (onward : ∀ value, KeepsBalance (next value)) : KeepsBalance (step >>= next) := by
  intro active distinct
  rw [effect_bind, Account.bind]
  have here := first active distinct
  cases (step.effect active).outcome with
  | error failure => exact here
  | ok value => exact here.append (onward value active distinct)

theorem KeepsBalance.forM {step : ι → Resolution Unit} [∀ item, Oblivious (step item)]
    (each : ∀ item, KeepsBalance (step item)) (items : List ι) :
    KeepsBalance (items.forM step) := by
  induction items with
  | nil => exact fun _ distinct => .nil distinct
  | cons first rest ih =>
    have others := oblivious_forM rest fun item => (inferInstance : Oblivious (step item))
    exact (each first).bind fun _ => ih

theorem KeepsBalance.inside {workspace : Workspace} {path : String} {span : Span}
    {body : Resolution Unit} [Oblivious body] (keeps : KeepsBalance body) :
    KeepsBalance (inside workspace path span body) := by
  intro active distinct
  rw [effect_inside]
  cases workspace.resolve path with
  | error error => exact .nil distinct
  | ok key =>
    by_cases within : key ∈ active
    · simp only [if_pos within]
      exact .nil distinct
    · simp only [if_neg within]
      exact (keeps (key :: active) (List.nodup_cons.mpr ⟨within, distinct⟩)).inside

end Resolution

/-- It does behind a step, however that ends. -/
theorem Session.Told.after {α : Type} {session : Session} (told : session.Told)
    (step : Resolution α) [Oblivious step] (keeps : Resolution.KeepsBalance step)
    (distinct : session.active.Nodup) : (Resolution.sessionAfter (step session)).Told := by
  have back : activeAfter session.active (step.account session.active).events = session.active := by
    rw [← activeAfter_changes]
    exact (keeps session.active distinct).back
  rw [Told, Resolution.sessionAfter_run, Session.replay_active, Session.replay,
    List.reverse_append, List.reverse_reverse, activeAfter_append, ← told, back]

namespace Resolver
open Resolution
variable {resolver : Resolver} {imports : Imports}
  [∀ scope statements, Oblivious (imports scope statements)]

theorem keepsBalance_define (keeps : ∀ scope statements, KeepsBalance (imports scope statements))
    (program : Program) : KeepsBalance (define imports program) := by
  intro active distinct
  have nested := keeps program.name program.imports active distinct
  rw [effect_define, Account.bind]
  cases ((imports program.name program.imports).effect active).outcome with
  | error failure => exact nested
  | ok value =>
    refine nested.append (.of_quiet distinct fun event member active => ?_)
    obtain ⟨entry, -, rfl⟩ := List.mem_map.mp member
    rfl

theorem keepsBalance_take (keeps : ∀ scope statements, KeepsBalance (imports scope statements))
    (scope : String) (entry : Entry) (taking : Taking) :
    KeepsBalance (resolver.take imports scope entry taking) := by
  intro active distinct
  cases taking with
  | everything span =>
    change Balanced active ((resolver.takeAll imports scope entry span).effect active).events
    rw [effect_takeAll]
    cases resolver.workspace.loadOf entry span with
    | error failure => exact .nil distinct
    | ok program =>
      rw [Account.bind_pure]
      exact (keepsBalance_define keeps (program.rename scope)).inside active distinct
  | symbol symbol =>
    change Balanced active ((resolver.takeSymbol imports scope entry symbol).effect active).events
    rw [effect_takeSymbol]
    cases resolver.workspace.loadOf entry symbol.span with
    | error failure => exact .nil distinct
    | ok program =>
      rw [Account.bind_pure]
      cases program.definition? symbol.symbol.name symbol.localName with
      | none => exact .nil distinct
      | some definition =>
        have stored : Balanced active
            [.stored (qualify scope symbol.localName) definition] := by
          refine .of_quiet distinct ?_
          rintro event (_ | ⟨_, ⟨⟩⟩) active
          rfl
        exact stored.append ((keeps scope program.imports).inside active distinct)

theorem keepsBalance_follow (keeps : ∀ scope statements, KeepsBalance (imports scope statements))
    (scope : String) (route : Route) : KeepsBalance (resolver.follow imports scope route) := by
  have all := oblivious_leaves resolver imports scope
  refine KeepsBalance.bind (KeepsBalance.forM (fun leaf => ?_) route.leaves) fun _ => ?_
  · exact keepsBalance_take keeps scope leaf.1 leaf.2
  · intro active distinct
    cases route.stop <;> exact .nil distinct

omit [∀ scope statements, Oblivious (imports scope statements)]

theorem keepsBalance_importsWithin (resolver : Resolver) (depth : Nat) (scope : String)
    (statements : List Import) : KeepsBalance (resolver.importsWithin depth scope statements) := by
  induction depth generalizing scope statements with
  | zero => exact fun _ distinct => .nil distinct
  | succ depth ih =>
    intro active distinct
    rw [effect_importsWithin]
    exact keepsBalance_follow ih scope (resolver.routeOfAll statements) active distinct

theorem keepsBalance_resolveProgram (resolver : Resolver) (program : Program)
    (path : Option String) : KeepsBalance (resolver.resolveProgram program path) := by
  have defined : KeepsBalance (define resolver.imports program) :=
    keepsBalance_define (keepsBalance_importsWithin resolver _) program
  cases path with
  | none => exact defined
  | some path => exact defined.inside

/-- The paths that imports of a program and of the sources of the tree lead to. -/
def importedPaths (resolver : Resolver) (program : Program) : Set String :=
  {path | ∃ statements entry span,
    (statements = program.imports ∨
      ∃ file, resolver.workspace.tree.HasSource file ∧ statements = file.imports) ∧
    resolver.Imported statements entry span ∧ resolver.workspace.resolve entry.path = .ok path}

variable {resolver : Resolver} {program : Program}

theorem importedPaths_finite (resolver : Resolver) (program : Program) :
    (resolver.importedPaths program).Finite := by
  let packages := max resolver.workspace.tree.longestFile
    (packagesOfAll (program.imports.map fun statement => statement.package.access) + 1)
  refine (resolver.targets packages).finite_toSet.subset ?_
  rintro path ⟨statements, entry, span, own | ⟨file, source, rfl⟩, imported, resolved⟩
  · refine mem_targets (fun statement member => ?_) imported resolved
    rw [own] at member
    have within := packages_le_of_mem (List.mem_map_of_mem
      (f := fun statement : Import => statement.package.access) member)
    exact Nat.lt_of_lt_of_le (Nat.lt_succ_of_le within) (Nat.le_max_right ..)
  · refine mem_targets (fun statement member => ?_) imported resolved
    exact Nat.lt_of_lt_of_le (Tree.packages_of_hasSource source statement member)
      (Nat.le_max_left ..)

theorem entered_of_importsWithin {depth : Nat} {scope path : String} {active : List String}
    {statements : List Import}
    (known : statements = program.imports ∨
      ∃ file, resolver.workspace.tree.HasSource file ∧ statements = file.imports)
    (does : (resolver.importsWithin depth scope statements).Does active (.entered path)) :
    path ∈ resolver.importedPaths program := by
  induction depth generalizing statements active with
  | zero => cases does
  | succ depth ih =>
    obtain ⟨entry, taking, takes, does⟩ := takes_of_importsWithin_does does
    obtain ⟨file, parsed, ⟨_, _, stored, _⟩ | ⟨key, resolved, -, entered | left | nested⟩⟩ :=
      does_of_take does
    · cases stored
    · cases entered
      exact ⟨statements, entry, taking.span, known, imported_iff.mpr ⟨taking, rfl, takes⟩, resolved⟩
    · cases left
    · exact ih (.inr ⟨file, Workspace.parseFile_ok parsed, rfl⟩) nested

theorem entered_of_resolveProgram {path : Option String} {entered : String}
    (does : (resolver.resolveProgram program path).Does [] (.entered entered)) :
    path.map resolver.workspace.resolve = some (.ok entered) ∨
      entered ∈ resolver.importedPaths program := by
  have of_define {active : List String}
      (does : (define resolver.imports program).Does active (.entered entered)) :
      entered ∈ resolver.importedPaths program := by
    rcases (does_define program).mp does with imported | ⟨_, _, _, stored⟩
    · exact entered_of_importsWithin (.inl rfl) imported
    · cases stored
  cases path with
  | none => exact .inr (of_define does)
  | some path =>
    obtain ⟨key, resolved, -, main | left | within⟩ := (does_inside ..).mp does
    · cases main
      exact .inl (congrArg some resolved)
    · cases left
    · exact .inr (of_define within)

theorem resolveProgram_not_tooDeep (resolver : Resolver) (program : Program)
    (path : Option String) (active : List String) :
    (resolver.resolveProgram program path).outcome active ≠ .error .tooDeep := by
  intro failed
  obtain ⟨_, system⟩ | ⟨_, -, cycle⟩ | ⟨within, imported⟩ := resolveProgram_error failed
  · cases system
  · cases cycle
  · exact importsWithin_not_tooDeep (Nat.le_refl _) imported

theorem active_of_moment {path : Option String} {moment : List Event}
    (early : moment <+: ((resolver.resolveProgram program path).account []).events) :
    (activeAfter [] moment).Nodup ∧ ∀ active ∈ activeAfter [] moment,
      path.map resolver.workspace.resolve = some (.ok active) ∨
        active ∈ resolver.importedPaths program := by
  -- what is only asked and logged leaves the files active that are
  have changes : moment.filter Event.isChange <+:
      ((resolver.resolveProgram program path).effect []).events := early.filter _
  rw [← activeAfter_changes]
  refine ⟨(keepsBalance_resolveProgram resolver program path [] List.nodup_nil).nodup _ changes, ?_⟩
  intro active member
  rcases mem_activeAfter member with before | entered
  · cases before
  · exact entered_of_resolveProgram (changes.subset entered)

/-- Every resolution of a main program ends with success or with a failure, and the bound on its
depth has no part in that. The journal tells which files are active. At every moment they are all different, and but for the main
file they are among the finitely many that imports of the program and of the tree lead to. -/
theorem resolveProgram_ends (resolver : Resolver) (program : Program) (path : Option String)
    (store : DefinitionStore) :
    (∀ depth, resolver.workspace.tree.importDepth ≤ depth →
      resolver.importsWithin depth = resolver.imports) ∧
    (∃ after,
      (resolver.resolveProgram program path (.start store) = .ok () after ∨
        ∃ failure, failure ≠ .tooDeep ∧
          resolver.resolveProgram program path (.start store) = .error failure after) ∧
      after.Told ∧
      ∀ moment, moment <+: after.journal.reverse →
        (activeAfter [] moment).Nodup ∧
        ∀ active ∈ activeAfter [] moment,
          path.map resolver.workspace.resolve = some (.ok active) ∨
            active ∈ resolver.importedPaths program) ∧
    (resolver.importedPaths program).Finite := by
  refine ⟨fun depth deep => importsWithin_eq_imports deep, ?_, importedPaths_finite resolver program⟩
  let run := resolver.resolveProgram program path (.start store)
  have journal : (sessionAfter run).journal.reverse =
      ((resolver.resolveProgram program path).account []).events := by
    rw [sessionAfter_run]
    simp [Session.replay, Session.start]
  have started : (Session.start store).Told := rfl
  have keeps := keepsBalance_resolveProgram resolver program path
  refine ⟨sessionAfter run, ?_, started.after (resolver.resolveProgram program path) keeps List.nodup_nil,
    fun moment early => active_of_moment (journal ▸ early)⟩
  cases ended : resolver.resolveProgram program path (.start store) with
  | ok value after => exact .inl (congrArg _ (congrArg sessionAfter ended).symm)
  | error failure after =>
    refine .inr ⟨failure, ?_, congrArg _ (congrArg sessionAfter ended).symm⟩
    rintro rfl
    exact resolveProgram_not_tooDeep resolver program path _ (outcome_of_error ended)

/-- A package whose source directory has a link to the root, and in it a source that imports itself
through the link. -/
def linkedPackage : Resolver :=
  let source := Text.Utf8.encode "src"
  let sources := Resolver.ofSources [("foo.leo", "import again.foo.*;")]
  { sources with workspace := { sources.workspace with
      tree := sources.workspace.tree.insert [source, Text.Utf8.encode "again"]
        (.link (Text.Utf8.encode "/")) } }

def linkedProgram : Program := .ofText "import foo.*;" "main"

def linkedRun : EStateM.Result Failure Session Unit :=
  linkedPackage.resolveProgram linkedProgram none (.start .empty)

def hasFailed : EStateM.Result Failure Session Unit → Bool
  | .ok _ _ => false
  | .error _ _ => true

theorem linkedRun_ends :
    ∃ after failure, linkedRun = .error failure after ∧ failure ≠ .tooDeep ∧
      ∃ moment, moment <+: after.journal.reverse ∧
        activeAfter [] moment = ["/src/again/src/foo.leo", "/src/foo.leo"] ∧
        ∀ active ∈ ["/src/again/src/foo.leo", "/src/foo.leo"],
          active ∈ linkedPackage.importedPaths linkedProgram := by
  have twice : activeAfter [] ((sessionAfter linkedRun).journal.reverse.take 14) =
      ["/src/again/src/foo.leo", "/src/foo.leo"] := by
    decide +kernel
  have fails : hasFailed linkedRun = true := by
    decide +kernel
  obtain ⟨-, ⟨after, ended, -, moments⟩, -⟩ :=
    resolveProgram_ends linkedPackage linkedProgram none .empty
  rcases ended with run | ⟨failure, possible, run⟩
  · change linkedRun = _ at run
    rw [run] at fails
    cases fails
  · change linkedRun = _ at run
    rw [run] at twice
    refine ⟨after, failure, run, possible, _, List.take_prefix 14 _, twice, fun active member => ?_⟩
    rw [← twice] at member
    rcases (moments _ (List.take_prefix 14 _)).2 active member with main | imported
    · cases main
    · exact imported

end Resolver

end LeoFront
