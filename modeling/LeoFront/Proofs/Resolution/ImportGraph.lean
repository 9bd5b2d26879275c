import LeoFront.Proofs.Resolution.Taking
import Mathlib.Logic.Relation

namespace LeoFront

structure SourceFile where
  path : String
  imports : List Import

namespace Resolver

/-- The import statements behind an entry at a path. Those of the main file are given; a source that
cannot be read has none. -/
def importsAt (resolver : Resolver) (main : SourceFile) (entry : Entry) (path : String) :
    List Import :=
  if path = main.path then main.imports
  else
    match resolver.workspace.parseFile entry.path with
    | .ok file => file.imports
    | .error _ => []

/-- One file imports another; the span is that of the leaf of the import. -/
def Edge (resolver : Resolver) (main source target : SourceFile) (span : Span) : Prop :=
  ∃ entry, resolver.Imported source.imports entry span ∧
    resolver.workspace.resolve entry.path = .ok target.path ∧
    target.imports = resolver.importsAt main entry target.path

def Leads (resolver : Resolver) (main source target : SourceFile) : Prop :=
  ∃ span, resolver.Edge main source target span

def Reachable (resolver : Resolver) (main source : SourceFile) : Prop :=
  Relation.ReflTransGen (resolver.Leads main) main source

def HasCycle (resolver : Resolver) (main : SourceFile) : Prop :=
  ∃ source again, resolver.Reachable main source ∧
    Relation.TransGen (resolver.Leads main) source again ∧ again.path = source.path

open Resolution
variable {resolver : Resolver} {active : List String} {entry : Entry} {span : Span} {depth : Nat}
  {scope : String} {statements : List Import}

theorem importsWithin_ok
    (ok : (resolver.importsWithin (depth + 1) scope statements).outcome active = .ok ())
    (imported : resolver.Imported statements entry span) :
    resolver.Descends (resolver.importsWithin depth) scope active entry span (.ok ()) := by
  obtain ⟨taking, rfl, takes⟩ := imported_iff.mp imported
  exact take_descends (importsWithin_takes ok takes).1 (.inl rfl)

theorem importsWithin_error {failure : Failure} (ofDescent : failure.OfDescent)
    (failed : (resolver.importsWithin (depth + 1) scope statements).outcome active =
      .error failure) :
    ∃ entry span, resolver.Imported statements entry span ∧
      resolver.Descends (resolver.importsWithin depth) scope active entry span
        (.error failure) := by
  rcases takes_of_importsWithin_error failed with missing | ⟨entry, taking, takes, failed⟩
  · exact absurd ofDescent missing.not_ofDescent
  · exact ⟨entry, taking.span, imported_iff.mpr ⟨taking, rfl, takes⟩,
      take_descends failed (.inr ⟨failure, ofDescent, rfl⟩)⟩

end Resolver

end LeoFront
