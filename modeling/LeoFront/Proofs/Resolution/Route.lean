import LeoFront.Proofs.Resolution.Effect

/-!
# Where imports lead

An access is a tree, and a package may have to be searched for at each of its branches. What comes of
it is a list of leaves in their order: the entries to take something from, up to the first package
that is not found.

* `Resolver.Takes` says that an access has a leaf, `Resolver.route` lists the leaves.
* `Resolver.Seeks` says that an access looks for a package on its way to a leaf.
* `effect_takeFrom`, `effect_importsWithin`: resolving is to follow the route.
-/

namespace LeoFront

inductive Taking where
  | everything (span : Span)
  | symbol (symbol : ImportSymbol)

def Taking.span : Taking → Span
  | .everything span => span
  | .symbol wanted => wanted.span

/-- The leaves that are come to, and what keeps one from coming to more. -/
structure Route where
  leaves : List (Entry × Taking)
  stop : Option Failure

namespace Route

def stopped (failure : Failure) : Route := ⟨[], some failure⟩

def append (first second : Route) : Route :=
  match first.stop with
  | some _ => first
  | none => ⟨first.leaves ++ second.leaves, second.stop⟩

instance : Append Route := ⟨append⟩

theorem append_of_stop {first second : Route} {failure : Failure}
    (stop : first.stop = some failure) : first ++ second = first := by
  change append first second = first
  simp only [append, stop]

theorem append_of_open {first second : Route} (stop : first.stop = none) :
    first ++ second = ⟨first.leaves ++ second.leaves, second.stop⟩ := by
  change append first second = _
  simp only [append, stop]

theorem mem_append {first second : Route} {leaf : Entry × Taking}
    (member : leaf ∈ (first ++ second).leaves) : leaf ∈ first.leaves ∨ leaf ∈ second.leaves := by
  cases stop : first.stop with
  | none =>
    rw [append_of_open stop] at member
    exact List.mem_append.mp member
  | some failure =>
    rw [append_of_stop stop] at member
    exact .inl member

theorem stop_append {first second : Route} {failure : Failure}
    (stop : (first ++ second).stop = some failure) :
    first.stop = some failure ∨ second.stop = some failure := by
  cases earlier : first.stop with
  | none =>
    rw [append_of_open earlier] at stop
    exact .inr stop
  | some _ =>
    rw [append_of_stop earlier] at stop
    exact .inl (earlier.symm.trans stop)

theorem open_append {first second : Route} (stop : (first ++ second).stop = none) :
    first.stop = none ∧ second.stop = none ∧
      (first ++ second).leaves = first.leaves ++ second.leaves := by
  cases earlier : first.stop with
  | none =>
    rw [append_of_open earlier] at stop ⊢
    exact ⟨rfl, stop, rfl⟩
  | some failure =>
    rw [append_of_stop earlier] at stop
    exact absurd (earlier.symm.trans stop) (by simp)

end Route

namespace Resolver
open Resolution

/-! ## The leaves of an access -/

inductive Takes (resolver : Resolver) : Candidates → Access → Entry → Taking → Prop
  | star {candidates : Candidates} {span : Span} :
      Takes resolver candidates (.star span) (resolver.selected candidates false)
        (.everything span)
  | symbol {candidates : Candidates} {symbol : ImportSymbol} :
      Takes resolver candidates (.symbol symbol) (resolver.selected candidates false)
        (.symbol symbol)
  | subPackage {candidates inside : Candidates} {name : Identifier} {access : Access}
      {whole : Span} {entry : Entry} {taking : Taking}
      (found : resolver.candidatesOf (resolver.selected candidates true).path name = .ok inside)
      (takes : Takes resolver inside access entry taking) :
      Takes resolver candidates (.subPackage name access whole) entry taking
  | multiple {candidates : Candidates} {accesses : List Access} {access : Access}
      {whole : Span} {entry : Entry} {taking : Taking} (member : access ∈ accesses)
      (takes : Takes resolver candidates access entry taking) :
      Takes resolver candidates (.multiple accesses whole) entry taking

theorem leaf_iff_takes {resolver : Resolver} {candidates : Candidates} {access : Access}
    {entry : Entry} {span : Span} : resolver.Leaf candidates access entry span ↔
      ∃ taking, taking.span = span ∧ resolver.Takes candidates access entry taking := by
  constructor
  · intro leaf
    induction leaf with
    | star => exact ⟨_, rfl, .star⟩
    | symbol => exact ⟨_, rfl, .symbol⟩
    | subPackage found _ ih =>
      obtain ⟨taking, same, takes⟩ := ih
      exact ⟨taking, same, .subPackage found takes⟩
    | multiple member _ ih =>
      obtain ⟨taking, same, takes⟩ := ih
      exact ⟨taking, same, .multiple member takes⟩
  · rintro ⟨taking, rfl, takes⟩
    induction takes with
    | star => exact .star
    | symbol => exact .symbol
    | subPackage found _ ih => exact .subPackage found ih
    | multiple member _ ih => exact .multiple member ih

def ImportTakes (resolver : Resolver) (statements : List Import) (entry : Entry)
    (taking : Taking) : Prop :=
  ∃ statement ∈ statements, ∃ root candidates, resolver.rootOf statement.span = .ok root ∧
    resolver.candidatesOf root statement.package.name = .ok candidates ∧
    resolver.Takes candidates statement.package.access entry taking

theorem imported_iff {resolver : Resolver} {statements : List Import} {entry : Entry}
    {span : Span} : resolver.Imported statements entry span ↔
      ∃ taking, taking.span = span ∧ resolver.ImportTakes statements entry taking := by
  constructor
  · rintro ⟨statement, member, root, candidates, rooted, found, leaf⟩
    obtain ⟨taking, same, takes⟩ := leaf_iff_takes.mp leaf
    exact ⟨taking, same, statement, member, root, candidates, rooted, found, takes⟩
  · rintro ⟨taking, same, statement, member, root, candidates, rooted, found, takes⟩
    exact ⟨statement, member, root, candidates, rooted, found,
      leaf_iff_takes.mpr ⟨taking, same, takes⟩⟩

/-! ## Routes -/

mutual

def route (resolver : Resolver) (candidates : Candidates) : Access → Route
  | .star span => ⟨[(resolver.selected candidates false, .everything span)], none⟩
  | .symbol symbol => ⟨[(resolver.selected candidates false, .symbol symbol)], none⟩
  | .subPackage name access _ =>
    match resolver.candidatesOf (resolver.selected candidates true).path name with
    | .error failure => .stopped failure
    | .ok inside => route resolver inside access
  | .multiple accesses _ => routeEach resolver candidates accesses

def routeEach (resolver : Resolver) (candidates : Candidates) : List Access → Route
  | [] => ⟨[], none⟩
  | first :: rest => route resolver candidates first ++ routeEach resolver candidates rest

end

def routeOf (resolver : Resolver) (statement : Import) : Route :=
  match resolver.rootOf statement.span with
  | .error failure => .stopped failure
  | .ok root =>
    match resolver.candidatesOf root statement.package.name with
    | .error failure => .stopped failure
    | .ok candidates => resolver.route candidates statement.package.access

def routeOfAll (resolver : Resolver) : List Import → Route
  | [] => ⟨[], none⟩
  | first :: rest => resolver.routeOf first ++ resolver.routeOfAll rest

variable {resolver : Resolver} {candidates : Candidates} {access : Access} {entry : Entry}
  {taking : Taking} {statements : List Import} {failure : Failure}

mutual

theorem takes_of_mem_route {candidates : Candidates} (access : Access)
    (member : (entry, taking) ∈ (resolver.route candidates access).leaves) :
    resolver.Takes candidates access entry taking := by
  cases access with
  | star span =>
    rw [route] at member
    cases List.mem_singleton.mp member
    exact .star
  | symbol symbol =>
    rw [route] at member
    cases List.mem_singleton.mp member
    exact .symbol
  | subPackage name access span =>
    rw [route] at member
    split at member
    · cases member
    · exact .subPackage ‹_› (takes_of_mem_route access member)
  | multiple accesses span =>
    rw [route] at member
    obtain ⟨access, among, takes⟩ := takes_of_mem_routeEach accesses member
    exact .multiple among takes

theorem takes_of_mem_routeEach {candidates : Candidates} (accesses : List Access)
    (member : (entry, taking) ∈ (resolver.routeEach candidates accesses).leaves) :
    ∃ access ∈ accesses, resolver.Takes candidates access entry taking := by
  cases accesses with
  | nil => cases member
  | cons first rest =>
    rw [routeEach] at member
    rcases Route.mem_append member with here | later
    · exact ⟨first, List.mem_cons_self, takes_of_mem_route first here⟩
    · obtain ⟨access, among, takes⟩ := takes_of_mem_routeEach rest later
      exact ⟨access, List.mem_cons_of_mem _ among, takes⟩

end

theorem route_open_of_mem {accesses : List Access}
    (stop : (resolver.routeEach candidates accesses).stop = none) (member : access ∈ accesses) :
    (resolver.route candidates access).stop = none ∧
      ∀ leaf ∈ (resolver.route candidates access).leaves,
        leaf ∈ (resolver.routeEach candidates accesses).leaves := by
  induction accesses with
  | nil => cases member
  | cons first rest ih =>
    rw [routeEach] at stop ⊢
    obtain ⟨here, later, leaves⟩ := Route.open_append stop
    rw [leaves]
    rcases List.mem_cons.mp member with rfl | among
    · exact ⟨here, fun leaf => List.mem_append_left _⟩
    · obtain ⟨open_, inside⟩ := ih later among
      exact ⟨open_, fun leaf member => List.mem_append_right _ (inside leaf member)⟩

theorem mem_route_of_takes (takes : resolver.Takes candidates access entry taking)
    (stop : (resolver.route candidates access).stop = none) :
    (entry, taking) ∈ (resolver.route candidates access).leaves := by
  induction takes with
  | star => simp [route]
  | symbol => simp [route]
  | subPackage found _ ih =>
    simp only [route, found] at stop ⊢
    exact ih stop
  | multiple member _ ih =>
    rw [route] at stop ⊢
    obtain ⟨here, inside⟩ := route_open_of_mem stop member
    exact inside _ (ih here)

theorem importTakes_of_mem_route
    (member : (entry, taking) ∈ (resolver.routeOfAll statements).leaves) :
    resolver.ImportTakes statements entry taking := by
  induction statements with
  | nil => cases member
  | cons first rest ih =>
    rw [routeOfAll] at member
    rcases Route.mem_append member with here | later
    · unfold routeOf at here
      split at here
      · cases here
      · rename_i root rooted
        split at here
        · cases here
        · rename_i candidates found
          exact ⟨first, List.mem_cons_self, root, candidates, rooted, found,
            takes_of_mem_route _ here⟩
    · obtain ⟨statement, among, takes⟩ := ih later
      exact ⟨statement, List.mem_cons_of_mem _ among, takes⟩

theorem mem_route_of_importTakes (takes : resolver.ImportTakes statements entry taking)
    (stop : (resolver.routeOfAll statements).stop = none) :
    (entry, taking) ∈ (resolver.routeOfAll statements).leaves := by
  obtain ⟨statement, member, root, candidates, rooted, found, takes⟩ := takes
  induction statements with
  | nil => cases member
  | cons first rest ih =>
    rw [routeOfAll] at stop ⊢
    obtain ⟨here, later, leaves⟩ := Route.open_append stop
    rw [leaves]
    rcases List.mem_cons.mp member with rfl | among
    · simp only [routeOf, rooted, found] at here ⊢
      exact List.mem_append_left _ (mem_route_of_takes takes here)
    · exact List.mem_append_right _ (ih later among)

/-! ## Following a route -/

variable {imports : Imports} {scope : String} {active : List String} {event : Event}

def take (resolver : Resolver) (imports : Imports) (scope : String) (entry : Entry) :
    Taking → Resolution Unit
  | .everything span => resolver.takeAll imports scope entry span
  | .symbol symbol => resolver.takeSymbol imports scope entry symbol

def halt : Option Failure → Resolution Unit
  | none => pure ()
  | some failure => throw failure

instance oblivious_halt (stop : Option Failure) : Oblivious (halt stop) := by
  cases stop <;> unfold halt <;> infer_instance

def follow (resolver : Resolver) (imports : Imports) (scope : String) (route : Route) :
    Resolution Unit := do
  route.leaves.forM fun leaf => resolver.take imports scope leaf.1 leaf.2
  halt route.stop

variable [∀ scope statements, Oblivious (imports scope statements)]

instance oblivious_take (entry : Entry) (taking : Taking) :
    Oblivious (resolver.take imports scope entry taking) := by
  cases taking with
  | everything span => exact oblivious_takeAll resolver imports scope entry span
  | symbol symbol => exact oblivious_takeSymbol resolver imports scope entry symbol

theorem oblivious_leaves (resolver : Resolver) (imports : Imports) (scope : String)
    [∀ scope statements, Oblivious (imports scope statements)] (leaves : List (Entry × Taking)) :
    Oblivious (leaves.forM fun leaf => resolver.take imports scope leaf.1 leaf.2) :=
  oblivious_forM leaves fun _ => inferInstance

theorem effect_follow (route : Route) : (resolver.follow imports scope route).effect active =
    ((route.leaves.forM fun leaf => resolver.take imports scope leaf.1 leaf.2).effect active).bind
      fun _ => (halt route.stop).effect active := by
  have all := oblivious_leaves resolver imports scope
  rw [follow, effect_bind]

theorem effect_follow_leaf (entry : Entry) (taking : Taking) :
    (resolver.follow imports scope ⟨[(entry, taking)], none⟩).effect active =
      (resolver.take imports scope entry taking).effect active := by
  have leaf : ([(entry, taking)].forM fun leaf =>
      resolver.take imports scope leaf.1 leaf.2).effect active =
        (resolver.take imports scope entry taking).effect active := by
    change (resolver.take imports scope entry taking >>= fun _ => pure ()).effect active = _
    simp only [effect_bind, effect_pure, Account.bind_unit]
  rw [effect_follow, leaf]
  exact Account.bind_unit _

theorem effect_follow_append (first second : Route) :
    (resolver.follow imports scope (first ++ second)).effect active =
      ((resolver.follow imports scope first).effect active).bind fun _ =>
        (resolver.follow imports scope second).effect active := by
  simp only [effect_follow]
  cases stop : first.stop with
  | none =>
    rw [Route.append_of_open stop, effect_forM_append _ _ fun _ => inferInstance,
      Account.bind_assoc, Account.bind_assoc]
    rfl
  | some failure =>
    rw [Route.append_of_stop stop, stop, Account.bind_assoc]
    rfl

mutual

theorem effect_takeFrom (name : Identifier) (candidates : Candidates) (access : Access) :
    (resolver.takeFrom imports scope name candidates access).effect active =
      (resolver.follow imports scope (resolver.route candidates access)).effect active := by
  cases access with
  | star span =>
    rw [takeFrom, effect_bind_ok _ (effect_choose ..), route, effect_follow_leaf]
    rfl
  | symbol symbol =>
    rw [takeFrom, effect_bind_ok _ (effect_choose ..), route, effect_follow_leaf]
    rfl
  | subPackage inner access span =>
    rw [takeFrom, effect_bind_ok _ (effect_choose ..), route]
    cases found : resolver.candidatesOf (resolver.selected candidates true).path inner with
    | error failure =>
      rw [effect_bind_error _ ((effect_candidates ..).trans (by rw [found]))]
      rfl
    | ok inside =>
      rw [effect_bind_ok _ ((effect_candidates ..).trans (by rw [found]))]
      exact effect_takeFrom inner inside access
  | multiple accesses span =>
    rw [takeFrom, route]
    exact effect_takeEachFrom name candidates accesses

theorem effect_takeEachFrom (name : Identifier) (candidates : Candidates)
    (accesses : List Access) :
    (resolver.takeEachFrom imports scope name candidates accesses).effect active =
      (resolver.follow imports scope (resolver.routeEach candidates accesses)).effect active := by
  cases accesses with
  | nil => rfl
  | cons first rest =>
    rw [takeEachFrom, routeEach, effect_follow_append, effect_bind,
      effect_takeFrom name candidates first]
    simp only [effect_takeEachFrom name candidates rest]

end

/-! ## What comes of a route -/

theorem outcome_follow (route : Route) : (resolver.follow imports scope route).outcome active =
    match (route.leaves.forM fun leaf =>
        resolver.take imports scope leaf.1 leaf.2).outcome active, route.stop with
    | .error failure, _ => .error failure
    | .ok _, some failure => .error failure
    | .ok _, none => .ok () := by
  have all := oblivious_leaves resolver imports scope
  rw [follow, outcome_bind]
  cases (route.leaves.forM fun leaf => resolver.take imports scope leaf.1 leaf.2).outcome active with
  | error failure => rfl
  | ok value => cases route.stop <;> rfl

theorem follow_ok {route : Route}
    (ok : (resolver.follow imports scope route).outcome active = .ok ()) : route.stop = none ∧
      ∀ leaf ∈ route.leaves, (resolver.take imports scope leaf.1 leaf.2).outcome active = .ok () := by
  rw [outcome_follow] at ok
  split at ok
  · cases ok
  · cases ok
  · rename_i leaves stop
    exact ⟨stop, outcome_forM_ok (fun _ => inferInstance) leaves⟩

theorem follow_error {route : Route}
    (failed : (resolver.follow imports scope route).outcome active = .error failure) :
    route.stop = some failure ∨ ∃ leaf ∈ route.leaves,
      (resolver.take imports scope leaf.1 leaf.2).outcome active = .error failure := by
  rw [outcome_follow] at failed
  split at failed
  · rename_i leaves
    cases failed
    exact .inr (outcome_forM_error (fun _ => inferInstance) leaves)
  · rename_i stop
    cases failed
    exact .inl stop
  · cases failed

theorem not_does_halt {stop : Option Failure} : ¬ (halt stop).Does active event := by
  cases stop <;> exact List.not_mem_nil

theorem does_of_follow {route : Route}
    (does : (resolver.follow imports scope route).Does active event) :
    ∃ leaf ∈ route.leaves, (resolver.take imports scope leaf.1 leaf.2).Does active event := by
  have all := oblivious_leaves resolver imports scope
  rw [follow, does_bind] at does
  rcases does with taken | ⟨_, _, halted⟩
  · exact does_of_forM (fun _ => inferInstance) taken
  · exact absurd halted not_does_halt

theorem follow_does {route : Route} {leaf : Entry × Taking}
    (ok : (resolver.follow imports scope route).outcome active = .ok ())
    (member : leaf ∈ route.leaves)
    (does : (resolver.take imports scope leaf.1 leaf.2).Does active event) :
    (resolver.follow imports scope route).Does active event := by
  have all := oblivious_leaves resolver imports scope
  rw [outcome_follow] at ok
  split at ok
  · cases ok
  · cases ok
  · rename_i leaves _
    rw [follow, does_bind]
    exact .inl (forM_does (fun _ => inferInstance) leaves member does)

/-! ## Packages that are missing -/

inductive Seeks (resolver : Resolver) : Candidates → Access → String → Identifier → Prop
  | here {candidates : Candidates} {name : Identifier} {access : Access} {whole : Span} :
      Seeks resolver candidates (.subPackage name access whole)
        (resolver.selected candidates true).path name
  | subPackage {candidates inside : Candidates} {name sought : Identifier} {access : Access}
      {whole : Span} {directory : String}
      (found : resolver.candidatesOf (resolver.selected candidates true).path name = .ok inside)
      (seeks : Seeks resolver inside access directory sought) :
      Seeks resolver candidates (.subPackage name access whole) directory sought
  | multiple {candidates : Candidates} {accesses : List Access} {access : Access} {whole : Span}
      {directory : String} {sought : Identifier} (member : access ∈ accesses)
      (seeks : Seeks resolver candidates access directory sought) :
      Seeks resolver candidates (.multiple accesses whole) directory sought

def ImportSeeks (resolver : Resolver) (statements : List Import) (directory : String)
    (name : Identifier) : Prop :=
  ∃ statement ∈ statements, ∃ root, resolver.rootOf statement.span = .ok root ∧
    (directory = root ∧ name = statement.package.name ∨
      ∃ candidates, resolver.candidatesOf root statement.package.name = .ok candidates ∧
        resolver.Seeks candidates statement.package.access directory name)

/-- A package is not found, or there is no directory to search for it. -/
def Missing (resolver : Resolver) (statements : List Import) (failure : Failure) : Prop :=
  (∃ statement ∈ statements, resolver.rootOf statement.span = .error failure) ∨
    ∃ directory name, resolver.ImportSeeks statements directory name ∧
      resolver.candidatesOf directory name = .error failure

mutual

theorem seeks_of_route {candidates : Candidates} (access : Access)
    (stop : (resolver.route candidates access).stop = some failure) :
    ∃ directory name, resolver.Seeks candidates access directory name ∧
      resolver.candidatesOf directory name = .error failure := by
  cases access with
  | star span => cases stop
  | symbol symbol => cases stop
  | subPackage name access span =>
    rw [route] at stop
    split at stop
    · rename_i earlier missing
      cases stop
      exact ⟨_, name, .here, missing⟩
    · rename_i inside found
      obtain ⟨directory, sought, seeks, missing⟩ := seeks_of_route access stop
      exact ⟨directory, sought, .subPackage found seeks, missing⟩
  | multiple accesses span =>
    obtain ⟨access, member, directory, sought, seeks, missing⟩ := seeks_of_routeEach accesses stop
    exact ⟨directory, sought, .multiple member seeks, missing⟩

theorem seeks_of_routeEach {candidates : Candidates} (accesses : List Access)
    (stop : (resolver.routeEach candidates accesses).stop = some failure) :
    ∃ access ∈ accesses, ∃ directory name, resolver.Seeks candidates access directory name ∧
      resolver.candidatesOf directory name = .error failure := by
  cases accesses with
  | nil => cases stop
  | cons first rest =>
    rcases Route.stop_append stop with here | later
    · exact ⟨first, List.mem_cons_self, seeks_of_route first here⟩
    · obtain ⟨access, among, seeks⟩ := seeks_of_routeEach rest later
      exact ⟨access, List.mem_cons_of_mem _ among, seeks⟩

end

theorem missing_of_routeOf {statement : Import} (member : statement ∈ statements)
    (stop : (resolver.routeOf statement).stop = some failure) :
    resolver.Missing statements failure := by
  unfold routeOf at stop
  split at stop
  · rename_i earlier missing
    cases stop
    exact .inl ⟨statement, member, missing⟩
  · rename_i root rooted
    split at stop
    · rename_i earlier missing
      cases stop
      exact .inr ⟨root, _, ⟨statement, member, root, rooted, .inl ⟨rfl, rfl⟩⟩, missing⟩
    · rename_i candidates found
      obtain ⟨directory, name, seeks, missing⟩ := seeks_of_route _ stop
      exact .inr ⟨directory, name,
        ⟨statement, member, root, rooted, .inr ⟨candidates, found, seeks⟩⟩, missing⟩

theorem stop_of_routeOfAll (stop : (resolver.routeOfAll statements).stop = some failure) :
    ∃ statement ∈ statements, (resolver.routeOf statement).stop = some failure := by
  induction statements with
  | nil => cases stop
  | cons first rest ih =>
    rcases Route.stop_append stop with here | later
    · exact ⟨first, List.mem_cons_self, here⟩
    · obtain ⟨statement, among, stop⟩ := ih later
      exact ⟨statement, List.mem_cons_of_mem _ among, stop⟩

/-! ## Import statements -/

omit [∀ scope statements, Oblivious (imports scope statements)]

variable {depth : Nat}

theorem effect_statement (statement : Import) :
    (do
      let root ← resolver.rootPath statement.span
      resolver.takePackage (resolver.importsWithin depth) scope root statement.package.name
        statement.package.access : Resolution Unit).effect active =
      (resolver.follow (resolver.importsWithin depth) scope (resolver.routeOf statement)).effect
        active := by
  rw [routeOf]
  cases rooted : resolver.rootOf statement.span with
  | error failure => rw [effect_bind_error _ ((effect_rootPath ..).trans (by rw [rooted]))]; rfl
  | ok root =>
    rw [effect_bind_ok _ ((effect_rootPath ..).trans (by rw [rooted])), takePackage]
    cases found : resolver.candidatesOf root statement.package.name with
    | error failure =>
      rw [effect_bind_error _ ((effect_candidates ..).trans (by rw [found]))]
      simp only [found]
      rfl
    | ok candidates =>
      rw [effect_bind_ok _ ((effect_candidates ..).trans (by rw [found]))]
      simp only [found]
      exact effect_takeFrom ..

theorem effect_importsWithin (statements : List Import) :
    (resolver.importsWithin (depth + 1) scope statements).effect active =
      (resolver.follow (resolver.importsWithin depth) scope
        (resolver.routeOfAll statements)).effect active := by
  rw [importsWithin]
  induction statements with
  | nil => rfl
  | cons first rest ih =>
    have others : Oblivious (rest.forM fun statement => do
        let root ← resolver.rootPath statement.span
        resolver.takePackage (resolver.importsWithin depth) scope root statement.package.name
          statement.package.access) :=
      oblivious_forM rest fun _ => inferInstance
    rw [routeOfAll, effect_follow_append, ← effect_statement, ← ih]
    exact effect_bind _ _

theorem importsWithin_takes
    (ok : (resolver.importsWithin (depth + 1) scope statements).outcome active = .ok ())
    (takes : resolver.ImportTakes statements entry taking) :
    (resolver.take (resolver.importsWithin depth) scope entry taking).outcome active = .ok () ∧
      ∀ event, (resolver.take (resolver.importsWithin depth) scope entry taking).Does active event →
        (resolver.importsWithin (depth + 1) scope statements).Does active event := by
  rw [← effect_outcome, effect_importsWithin] at ok
  obtain ⟨stop, each⟩ := follow_ok ok
  have member := mem_route_of_importTakes takes stop
  refine ⟨each _ member, fun event does => ?_⟩
  rw [Does, effect_importsWithin]
  exact follow_does ok member does

theorem takes_of_importsWithin_error
    (failed : (resolver.importsWithin (depth + 1) scope statements).outcome active =
      .error failure) :
    resolver.Missing statements failure ∨ ∃ entry taking, resolver.ImportTakes statements entry taking ∧
      (resolver.take (resolver.importsWithin depth) scope entry taking).outcome active =
        .error failure := by
  rw [← effect_outcome, effect_importsWithin] at failed
  rcases follow_error failed with stop | ⟨⟨entry, taking⟩, member, failed⟩
  · obtain ⟨statement, member, stop⟩ := stop_of_routeOfAll stop
    exact .inl (missing_of_routeOf member stop)
  · exact .inr ⟨entry, taking, importTakes_of_mem_route member, failed⟩

theorem takes_of_importsWithin_does
    (does : (resolver.importsWithin (depth + 1) scope statements).Does active event) :
    ∃ entry taking, resolver.ImportTakes statements entry taking ∧
      (resolver.take (resolver.importsWithin depth) scope entry taking).Does active event := by
  rw [Does, effect_importsWithin] at does
  obtain ⟨⟨entry, taking⟩, member, does⟩ := does_of_follow does
  exact ⟨entry, taking, importTakes_of_mem_route member, does⟩

end Resolver

end LeoFront
