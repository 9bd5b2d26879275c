import LeoFront.Proofs.Resolution.ImportGraph
import LeoFront.Proofs.Resolution.Targets

namespace LeoFront

namespace Resolver
open Resolution
variable {resolver : Resolver} {depth : Nat} {scope : String} {active : List String}
  {statements : List Import}

theorem descends_of_tooDeep
    (failed : (resolver.importsWithin (depth + 1) scope statements).outcome active =
      .error .tooDeep) :
    ∃ entry span file path, resolver.Imported statements entry span ∧
      resolver.workspace.parseFile entry.path = .ok file ∧
      resolver.workspace.resolve entry.path = .ok path ∧ path ∉ active ∧
      (resolver.importsWithin depth scope file.imports).outcome (path :: active) =
        .error .tooDeep := by
  obtain ⟨entry, span, imported, file, path, parsed, resolved, ended⟩ :=
    importsWithin_error (.inr rfl) failed
  refine ⟨entry, span, file, path, imported, parsed, resolved, ?_⟩
  split at ended
  · cases ended
  · rename_i fresh
    exact ⟨fresh, ended.symm⟩

theorem targets_of_tooDeep
    (short : ∀ statement ∈ statements,
      statement.package.access.packages < resolver.workspace.tree.longestFile)
    (failed : (resolver.importsWithin depth scope statements).outcome active = .error .tooDeep) :
    ∃ paths : List String, paths.length = depth ∧ paths.Nodup ∧ (∀ path ∈ paths, path ∉ active) ∧
      paths ⊆ resolver.targets resolver.workspace.tree.longestFile := by
  induction depth generalizing statements active with
  | zero => exact ⟨[], rfl, List.nodup_nil, by simp, by simp⟩
  | succ depth ih =>
    obtain ⟨entry, span, file, path, imported, parsed, resolved, fresh, failed⟩ :=
      descends_of_tooDeep failed
    obtain ⟨paths, deep, distinct, apart, targets⟩ :=
      ih (Tree.packages_of_hasSource (Workspace.parseFile_ok parsed)) failed
    refine ⟨path :: paths, by rw [List.length_cons, deep], List.nodup_cons.mpr ⟨?_, distinct⟩, ?_, ?_⟩
    · intro again
      exact apart path again List.mem_cons_self
    · rintro other (_ | ⟨_, member⟩)
      · exact fresh
      · exact fun within => apart other member (List.mem_cons_of_mem _ within)
    · exact List.cons_subset.mpr ⟨mem_targets short imported resolved, targets⟩

theorem importsWithin_not_tooDeep (deep : resolver.workspace.tree.importDepth ≤ depth) :
    (resolver.importsWithin depth scope statements).outcome active ≠ .error .tooDeep := by
  intro failed
  rw [Tree.importDepth] at deep
  obtain ⟨inner, rfl⟩ : ∃ inner, depth = inner + 1 := ⟨depth - 1, by omega⟩
  -- the first file may be imported by a program that is not in the tree, the others are not
  obtain ⟨_, _, file, path, _, parsed, _, _, failed⟩ := descends_of_tooDeep failed
  obtain ⟨paths, length, distinct, -, targets⟩ :=
    targets_of_tooDeep (Tree.packages_of_hasSource (Workspace.parseFile_ok parsed)) failed
  have few : paths.length ≤
      Nat.pow (resolver.workspace.tree.size + 1) resolver.workspace.tree.longestFile :=
    Nat.le_trans (distinct.length_le_of_subset targets)
      (resolver.length_targets resolver.workspace.tree.longestFile)
  omega

end Resolver

namespace Resolution
variable {α β ι : Type}

/-- A step does what another does, unless it is too deep. -/
def Refines (step larger : Resolution α) : Prop :=
  ∀ session, (∃ after, step session = .error .tooDeep after) ∨ larger session = step session

theorem Refines.refl (step : Resolution α) : Refines step step := fun _ => .inr rfl

theorem Refines.bind {step larger : Resolution α} {next next' : α → Resolution β}
    (first : Refines step larger) (onward : ∀ value, Refines (next value) (next' value)) :
    Refines (step >>= next) (larger >>= next') := by
  intro session
  change (∃ after, EStateM.bind step next session = _) ∨
    EStateM.bind larger next' session = EStateM.bind step next session
  unfold EStateM.bind
  rcases first session with ⟨after, failed⟩ | same
  · exact .inl ⟨after, by rw [failed]⟩
  · rw [same]
    cases step session with
    | ok value middle => exact onward value middle
    | error failure after => exact .inr rfl

theorem Refines.forM {step larger : ι → Resolution Unit}
    (each : ∀ item, Refines (step item) (larger item)) (items : List ι) :
    Refines (items.forM step) (items.forM larger) := by
  induction items with
  | nil => exact .refl _
  | cons first rest ih => exact (each first).bind fun _ => ih

theorem Refines.inside {workspace : Workspace} {path : String} {span : Span}
    {body larger : Resolution Unit} (refines : Refines body larger) :
    Refines (inside workspace path span body) (inside workspace path span larger) := by
  intro session
  unfold Resolution.inside
  cases workspace.resolve path with
  | error error => exact .inr rfl
  | ok key =>
    change (∃ after, (if key ∈ session.active then _ else _ : Resolution Unit) session = _) ∨
      (if key ∈ session.active then _ else _ : Resolution Unit) session =
        (if key ∈ session.active then _ else _ : Resolution Unit) session
    by_cases within : key ∈ session.active
    · simp only [if_pos within, or_true]
    · simp only [if_neg within]
      let entered : Session :=
        ⟨session.store, key :: session.active, .entered key :: session.journal⟩
      change (∃ after, tryFinally body _ entered = _) ∨
        tryFinally larger _ entered = tryFinally body _ entered
      simp only [tryFinally, tryFinally', Functor.map, EStateM.map]
      rcases refines entered with ⟨after, failed⟩ | same
      · rw [failed]
        exact .inl ⟨_, rfl⟩
      · rw [same]
        exact .inr rfl

end Resolution

namespace Resolver
open Resolution
variable {resolver : Resolver} {imports larger : Imports} {depth : Nat}

abbrev Imports.Refines (imports larger : Imports) : Prop :=
  ∀ scope statements, Resolution.Refines (imports scope statements) (larger scope statements)

theorem refines_define (refines : imports.Refines larger) (program : Program) :
    Refines (define imports program) (define larger program) :=
  (refines program.name program.imports).bind fun _ => .refl _

theorem refines_takeAll (refines : imports.Refines larger) (scope : String) (entry : Entry)
    (span : Span) : Refines (resolver.takeAll imports scope entry span)
      (resolver.takeAll larger scope entry span) :=
  (Refines.refl _).bind fun program => (Refines.refl _).bind fun _ =>
    (refines_define refines (program.rename scope)).inside

theorem refines_takeSymbol (refines : imports.Refines larger) (scope : String) (entry : Entry)
    (symbol : ImportSymbol) : Refines (resolver.takeSymbol imports scope entry symbol)
      (resolver.takeSymbol larger scope entry symbol) := by
  refine (Refines.refl _).bind fun program => ?_
  dsimp only
  cases program.definition? symbol.symbol.name symbol.localName with
  | none => exact .refl _
  | some definition =>
    exact (Refines.refl _).bind fun _ => (Refines.refl _).bind fun _ =>
      (refines scope program.imports).inside

mutual

theorem refines_takeFrom (refines : imports.Refines larger) (scope : String) (name : Identifier)
    (candidates : Candidates) (access : Access) :
    Refines (resolver.takeFrom imports scope name candidates access)
      (resolver.takeFrom larger scope name candidates access) := by
  cases access with
  | star span =>
    rw [takeFrom, takeFrom]
    exact (Refines.refl _).bind fun entry => refines_takeAll refines scope entry span
  | symbol symbol =>
    rw [takeFrom, takeFrom]
    exact (Refines.refl _).bind fun entry => refines_takeSymbol refines scope entry symbol
  | subPackage inner access span =>
    rw [takeFrom, takeFrom]
    exact (Refines.refl _).bind fun entry => (Refines.refl _).bind fun inside =>
      refines_takeFrom refines scope inner inside access
  | multiple accesses span =>
    rw [takeFrom, takeFrom]
    exact refines_takeEachFrom refines scope name candidates accesses

theorem refines_takeEachFrom (refines : imports.Refines larger) (scope : String)
    (name : Identifier) (candidates : Candidates) (accesses : List Access) :
    Refines (resolver.takeEachFrom imports scope name candidates accesses)
      (resolver.takeEachFrom larger scope name candidates accesses) := by
  cases accesses with
  | nil => exact .refl _
  | cons first rest =>
    rw [takeEachFrom, takeEachFrom]
    exact (refines_takeFrom refines scope name candidates first).bind fun _ =>
      refines_takeEachFrom refines scope name candidates rest

end

theorem refines_importsWithin (resolver : Resolver) (depth : Nat) (scope : String)
    (statements : List Import) : Refines (resolver.importsWithin depth scope statements)
      (resolver.importsWithin (depth + 1) scope statements) := by
  induction depth generalizing scope statements with
  | zero => exact fun session => .inl ⟨session, rfl⟩
  | succ depth ih =>
    rw [importsWithin, importsWithin]
    refine Refines.forM (fun statement => ?_) statements
    exact (Refines.refl _).bind fun root => (Refines.refl _).bind fun candidates =>
      refines_takeFrom ih scope statement.package.name candidates statement.package.access

/-- A bound from `Tree.importDepth` on is no bound. -/
theorem importsWithin_eq_imports (deep : resolver.workspace.tree.importDepth ≤ depth) :
    resolver.importsWithin depth = resolver.imports := by
  induction deep with
  | refl => rfl
  | @step depth deep ih =>
    rw [← ih]
    funext scope statements session
    rcases refines_importsWithin resolver depth scope statements session with ⟨after, failed⟩ | same
    · exact absurd (outcome_of_error failed) (importsWithin_not_tooDeep deep)
    · exact same

end Resolver

end LeoFront
