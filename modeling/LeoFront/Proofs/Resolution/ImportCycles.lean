import LeoFront.Proofs.Resolution.ImportGraph
import Mathlib.Data.List.Chain
import Mathlib.Data.List.Nodup

namespace LeoFront

namespace Resolver
open Resolution
variable {resolver : Resolver} {main source target : SourceFile} {outer : List SourceFile}
  {chain : List String} {place : Option Span} {span : Span}

/-- Files each of which is imported by the next, the innermost first, back to the main file. -/
inductive Trail (resolver : Resolver) (main : SourceFile) : List SourceFile → Prop
  | start : Trail resolver main [main]
  | step {source target : SourceFile} {outer : List SourceFile}
      (trail : Trail resolver main (source :: outer)) (leads : resolver.Leads main source target)
      (fresh : target.path ∉ (source :: outer).map SourceFile.path) :
      Trail resolver main (target :: source :: outer)

namespace Trail
variable {files : List SourceFile}

theorem main_mem (trail : resolver.Trail main files) :
    main.path ∈ files.map SourceFile.path := by
  induction trail with
  | start => simp
  | step trail leads fresh ih => exact List.mem_cons_of_mem _ ih

theorem nodup (trail : resolver.Trail main files) : (files.map SourceFile.path).Nodup := by
  induction trail with
  | start => simp
  | step trail leads fresh ih => exact List.nodup_cons.mpr ⟨fresh, ih⟩

theorem isChain (trail : resolver.Trail main files) :
    files.reverse.IsChain (resolver.Leads main) := by
  induction trail with
  | start => simp
  | step trail leads fresh ih =>
    rw [List.reverse_cons] at ih
    rw [List.reverse_cons, List.reverse_cons, List.append_assoc]
    exact List.isChain_split.mpr ⟨ih, List.isChain_pair.mpr leads⟩

theorem reachable (trail : resolver.Trail main files) :
    ∀ file ∈ files, resolver.Reachable main file := by
  induction trail with
  | start =>
    rintro file (_ | ⟨_, ⟨⟩⟩)
    exact .refl
  | step trail leads fresh ih =>
    rintro file (_ | ⟨_, member⟩)
    · exact (ih _ List.mem_cons_self).tail leads
    · exact ih file member

end Trail

theorem Trail.edge {entry : Entry} {file : File} {path : String} {files : List SourceFile}
    (trail : resolver.Trail main files) (imported : resolver.Imported source.imports entry span)
    (parsed : resolver.workspace.parseFile entry.path = .ok file)
    (resolved : resolver.workspace.resolve entry.path = .ok path)
    (fresh : path ∉ files.map SourceFile.path) :
    resolver.Edge main source ⟨path, file.imports⟩ span := by
  refine ⟨entry, imported, resolved, ?_⟩
  have other : path ≠ main.path := fun same => fresh (same ▸ trail.main_mem)
  simp only [importsAt, if_neg other, parsed]

/-- A chain of paths follows imports from a file back to the same file, and comes to no other file
twice. The span is that of the import that closes the chain. -/
structure ClosedChain (resolver : Resolver) (main : SourceFile) (chain : List String)
    (span : Span) : Prop where
  long : 2 ≤ chain.length
  closed : chain.head? = chain.getLast?
  distinct : chain.dropLast.Nodup
  followed : ∃ before last again, chain = (before ++ [last, again]).map SourceFile.path ∧
    (∀ file ∈ before ++ [last], resolver.Reachable main file) ∧
    (before ++ [last, again]).IsChain (resolver.Leads main) ∧ resolver.Edge main last again span

theorem ClosedChain.hasCycle (closedChain : resolver.ClosedChain main chain span) :
    resolver.HasCycle main := by
  obtain ⟨before, last, again, rfl, reachable, walk, closing⟩ := closedChain.followed
  obtain ⟨first, rest, same⟩ : ∃ first rest, before ++ [last, again] = first :: rest ++ [again] := by
    cases before with
    | nil => exact ⟨last, [], rfl⟩
    | cons first rest => exact ⟨first, rest ++ [last], by simp⟩
  have known : resolver.Reachable main first := by
    apply reachable
    cases before <;> simp_all
  have along : (first :: (rest ++ [again])).Pairwise (Relation.TransGen (resolver.Leads main)) := by
    rw [same] at walk
    exact List.isChain_iff_pairwise.mp (walk.imp fun _ _ => .single)
  have ends := closedChain.closed
  rw [same, List.map_append, List.map_singleton, List.getLast?_concat] at ends
  exact ⟨first, again, known, List.rel_of_pairwise_cons along (by simp),
    (Option.some.inj ends).symm⟩

theorem cycleThrough_eq {before after : List String} {path : String} (first : path ∉ before) :
    cycleThrough (before ++ path :: after) path = (before ++ [path]).reverse ++ [path] := by
  have until_path : (before ++ path :: after).takeWhile (· ≠ path) = before := by
    rw [List.takeWhile_append_of_pos, List.takeWhile_cons_of_neg (by simp), List.append_nil]
    intro other member
    simpa using fun same : other = path => first (same ▸ member)
  rw [cycleThrough, until_path]

/-- The trail is cut where it comes to the target for the first time: the cycle goes from there to the
source, and to the target again. -/
theorem cycleThrough_trail (again : target.path ∈ (source :: outer).map SourceFile.path) :
    ∃ hit rest beyond, source :: outer = source :: rest ++ beyond ∧
      (rest.reverse ++ [source]).head? = some hit ∧ hit.path = target.path ∧
      cycleThrough ((source :: outer).map SourceFile.path) target.path =
        (rest.reverse ++ [source, target]).map SourceFile.path := by
  obtain ⟨innerPaths, outerPaths, split, first⟩ := List.eq_append_cons_of_mem again
  obtain ⟨inner, back, files, rfl, backPaths⟩ := List.map_eq_append_iff.mp split
  obtain ⟨hit, beyond, rfl, samePath, rfl⟩ := List.map_eq_cons_iff.mp backPaths
  obtain ⟨rest, around⟩ : ∃ rest, inner ++ [hit] = source :: rest := by
    cases inner with
    | nil => exact ⟨[], by cases files; rfl⟩
    | cons head tail => exact ⟨tail ++ [hit], by cases files; rfl⟩
  have paths : inner.map SourceFile.path ++ [target.path] =
      (source :: rest).map SourceFile.path := by simp [← around, samePath]
  refine ⟨hit, rest, beyond, by simp [files, ← around], ?_, samePath, ?_⟩
  · rw [← List.reverse_cons, ← around]
    simp
  · rw [split, cycleThrough_eq first, paths]
    simp

theorem Trail.closedChain (trail : resolver.Trail main (source :: outer))
    (edge : resolver.Edge main source target span)
    (again : target.path ∈ (source :: outer).map SourceFile.path) :
    resolver.ClosedChain main
      (cycleThrough ((source :: outer).map SourceFile.path) target.path) span := by
  obtain ⟨hit, rest, beyond, whole, back, samePath, chainEq⟩ := cycleThrough_trail again
  have walked : (rest.reverse ++ [source]).IsChain (resolver.Leads main) := by
    have reversed := trail.isChain
    rw [whole, List.reverse_append, List.reverse_cons] at reversed
    exact reversed.right_of_append
  have distinct := trail.nodup
  rw [whole, List.map_append] at distinct
  rw [chainEq]
  constructor
  case long => simp
  case closed =>
    have ends : rest.reverse ++ [source, target] = rest.reverse ++ [source] ++ [target] := by simp
    rw [ends, List.map_append, List.map_singleton, List.getLast?_concat, List.head?_append,
      List.head?_map, back]
    simp [samePath]
  case distinct =>
    have inside : ((rest.reverse ++ [source, target]).map SourceFile.path).dropLast =
        ((source :: rest).map SourceFile.path).reverse := by
      simp
    rw [inside, List.nodup_reverse]
    exact distinct.of_append_left
  case followed =>
    refine ⟨rest.reverse, source, target, rfl, ?_, ?_, edge⟩
    · intro file member
      apply trail.reachable
      rw [whole]
      rw [← List.reverse_cons, List.mem_reverse] at member
      exact List.mem_append_left _ member
    · exact List.isChain_split.mpr ⟨walked, List.isChain_pair.mpr ⟨span, edge⟩⟩

theorem importsWithin_closedChain {depth : Nat} {scope : String}
    (trail : resolver.Trail main (source :: outer))
    (failed : (resolver.importsWithin depth scope source.imports).outcome
      ((source :: outer).map SourceFile.path) = .error (.ofCycle chain place)) :
    ∃ span, place = some span ∧ resolver.ClosedChain main chain span := by
  induction depth generalizing source outer scope with
  | zero =>
    rw [importsWithin] at failed
    cases failed
  | succ depth ih =>
    obtain ⟨entry, span, imported, file, path, parsed, resolved, ended⟩ :=
      importsWithin_error (.inl ⟨chain, place, rfl⟩) failed
    -- either the import comes back to the trail, or the cycle is found one file further in
    by_cases again : path ∈ (source :: outer).map SourceFile.path
    · rw [if_pos again] at ended
      cases ended
      have edge : resolver.Edge main source ⟨path, resolver.importsAt main entry path⟩ span :=
        ⟨entry, imported, resolved, rfl⟩
      exact ⟨span, rfl, trail.closedChain edge again⟩
    · rw [if_neg again] at ended
      have edge := trail.edge imported parsed resolved again
      exact ih (trail.step ⟨span, edge⟩ again) ended.symm

/-- The imports of a file are resolved with success while some files around it are active. -/
def Settled (resolver : Resolver) (main file : SourceFile) (around : List String) : Prop :=
  main.path ∈ file.path :: around ∧ ∃ depth scope,
    (resolver.importsWithin depth scope file.imports).outcome (file.path :: around) = .ok ()

theorem Settled.leads {around : List String} (settled : resolver.Settled main source around)
    (leads : resolver.Leads main source target) :
    target.path ∉ source.path :: around ∧ resolver.Settled main target (source.path :: around) := by
  obtain ⟨known, depth, scope, ok⟩ := settled
  obtain ⟨span, entry, imported, resolved, imports⟩ := leads
  cases depth with
  | zero =>
    rw [importsWithin] at ok
    cases ok
  | succ depth =>
    obtain ⟨file, path, parsed, resolvedTo, ended⟩ := importsWithin_ok ok imported
    cases resolved.symm.trans resolvedTo
    by_cases again : target.path ∈ source.path :: around
    · rw [if_pos again] at ended
      cases ended
    · rw [if_neg again] at ended
      have other : target.path ≠ main.path := fun same => again (same ▸ known)
      simp only [importsAt, if_neg other, parsed] at imports
      exact ⟨again, List.mem_cons_of_mem _ known, depth, scope, by rw [imports, ← ended]⟩

theorem Settled.reachable (settled : resolver.Settled main main [])
    (reachable : resolver.Reachable main source) : ∃ around, resolver.Settled main source around := by
  induction reachable with
  | refl => exact ⟨[], settled⟩
  | tail _ leads ih =>
    obtain ⟨around, settled⟩ := ih
    exact ⟨_, (settled.leads leads).2⟩

theorem Settled.not_again {around : List String} (settled : resolver.Settled main source around)
    (along : Relation.TransGen (resolver.Leads main) source target) :
    ∃ around, resolver.Settled main target around ∧ source.path ∈ around ∧
      target.path ∉ around := by
  -- the active files only grow along the way, so the first one stays among them
  induction along with
  | single leads =>
    obtain ⟨fresh, settled⟩ := settled.leads leads
    exact ⟨_, settled, List.mem_cons_self, fresh⟩
  | tail _ leads ih =>
    obtain ⟨around, settled, inside, _⟩ := ih
    obtain ⟨fresh, settled⟩ := settled.leads leads
    exact ⟨_, settled, List.mem_cons_of_mem _ inside, fresh⟩

theorem Settled.acyclic (settled : resolver.Settled main main []) : ¬ resolver.HasCycle main := by
  rintro ⟨source, again, reachable, along, same⟩
  obtain ⟨around, settled⟩ := settled.reachable reachable
  obtain ⟨around, _, inside, fresh⟩ := settled.not_again along
  exact fresh (same ▸ inside)

theorem outcome_resolveProgram (resolver : Resolver) (program : Program) {path main : String}
    (resolved : resolver.workspace.resolve path = .ok main) :
    (resolver.resolveProgram program (some path)).outcome [] =
      (resolver.imports program.name program.imports).outcome [main] := by
  rw [resolveProgram, outcome_inside, resolved]
  simp only [List.not_mem_nil, if_false]
  exact outcome_define program [main]

/-- Cycles are caught exactly. A reported chain goes around a cycle, and the import at its span closes
it; without a cycle none is reported; with a cycle the resolution fails. -/
theorem resolveProgram_cycles (resolver : Resolver) (program : Program) (path main : String)
    (session : Session) (resolved : resolver.workspace.resolve path = .ok main)
    (outside : session.active = []) :
    (∀ chain place after,
      resolver.resolveProgram program (some path) session = .error (.ofCycle chain place) after →
        ∃ span, place = some span ∧ resolver.ClosedChain ⟨main, program.imports⟩ chain span) ∧
    (¬ resolver.HasCycle ⟨main, program.imports⟩ → ∀ chain place after,
      resolver.resolveProgram program (some path) session ≠ .error (.ofCycle chain place) after) ∧
    (resolver.HasCycle ⟨main, program.imports⟩ → ∀ after,
      resolver.resolveProgram program (some path) session ≠ .ok () after) := by
  have ends := outcome_resolveProgram resolver program resolved
  have reported : ∀ chain place after,
      resolver.resolveProgram program (some path) session = .error (.ofCycle chain place) after →
        ∃ span, place = some span ∧ resolver.ClosedChain ⟨main, program.imports⟩ chain span := by
    intro chain place after run
    have failed := outcome_of_error run
    rw [outside, ends] at failed
    exact importsWithin_closedChain .start failed
  refine ⟨reported, ?_, ?_⟩
  · intro acyclic chain place after run
    obtain ⟨span, _, closedChain⟩ := reported chain place after run
    exact acyclic closedChain.hasCycle
  · intro cyclic after run
    have ok := outcome_of_ok run
    rw [outside, ends] at ok
    have settled : resolver.Settled ⟨main, program.imports⟩ ⟨main, program.imports⟩ [] :=
      ⟨List.mem_cons_self, _, _, ok⟩
    exact settled.acyclic cyclic

def reportedChain? : EStateM.Result Failure Session Unit → Option (List String)
  | .error (.badImport ⟨.cycle chain, _⟩) _ => some chain
  | _ => none

def mutualImports : Resolver := .ofSources [("a.leo", "import b.*;"), ("b.leo", "import a.*;")]

def mutualRun : EStateM.Result Failure Session Unit :=
  mutualImports.resolveProgram (.ofText "import b.*;" "a") (some "/src/a.leo") (.start .empty)

theorem mutualImports_closedChain :
    reportedChain? mutualRun = some ["/src/a.leo", "/src/b.leo", "/src/a.leo"] ∧
    ∃ span, mutualImports.ClosedChain ⟨"/src/a.leo", (Program.ofText "import b.*;" "a").imports⟩
      ["/src/a.leo", "/src/b.leo", "/src/a.leo"] span := by
  have chain : reportedChain? mutualRun = some ["/src/a.leo", "/src/b.leo", "/src/a.leo"] := by
    decide +kernel
  refine ⟨chain, ?_⟩
  obtain ⟨place, after, run⟩ : ∃ place after, mutualRun =
      .error (.ofCycle ["/src/a.leo", "/src/b.leo", "/src/a.leo"] place) after := by
    unfold reportedChain? at chain
    split at chain
    · rename_i run
      cases chain
      exact ⟨_, _, run⟩
    · cases chain
  obtain ⟨span, _, closedChain⟩ := (resolveProgram_cycles mutualImports
    (.ofText "import b.*;" "a") "/src/a.leo" "/src/a.leo" (.start .empty) (by decide +kernel)
    rfl).1 _ place after run
  exact ⟨span, closedChain⟩

end Resolver

end LeoFront
