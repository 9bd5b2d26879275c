import LeoFront.Proofs.Resolution.Account

namespace LeoFront

def Event.isChange : Event → Bool
  | .stored .. | .entered _ | .left _ => true
  | .listed _ | .inspected _ | .opened _ | .logged _ => false

namespace Account
variable {α β : Type}

/-- The account of the same step without what is only asked and logged. -/
def effect (account : Account α) : Account α :=
  ⟨account.outcome, account.events.filter Event.isChange⟩

theorem effect_bind (first : Account α) (next : α → Account β) :
    (first.bind next).effect = first.effect.bind fun value => (next value).effect := by
  unfold bind effect
  cases first.outcome <;> simp

theorem bind_pure (next : α → Account β) (value : α) :
    bind ⟨.ok value, []⟩ next = next value := rfl

theorem bind_unit (account : Account Unit) : (account.bind fun _ => ⟨.ok (), []⟩) = account := by
  obtain ⟨outcome | value, events⟩ := account <;> simp [bind]

theorem bind_assoc {γ : Type} (first : Account α) (next : α → Account β) (last : β → Account γ) :
    (first.bind next).bind last = first.bind fun value => (next value).bind last := by
  obtain ⟨outcome | value, events⟩ := first
  · rfl
  · simp only [bind]
    cases (next value).outcome <;> simp

end Account

namespace Resolution
variable {α β ι : Type} {active : List String} {event : Event}

def effect (step : Resolution α) (active : List String) : Account α :=
  (step.account active).effect

theorem effect_outcome (step : Resolution α) (active : List String) :
    (step.effect active).outcome = step.outcome active := rfl

theorem effect_bind (step : Resolution α) (next : α → Resolution β) [Oblivious step]
    [∀ value, Oblivious (next value)] : (step >>= next).effect active =
      (step.effect active).bind fun value => (next value).effect active := by
  rw [effect, account_bind, Account.effect_bind]
  rfl

theorem effect_bind_ok {step : Resolution α} {value : α} (next : α → Resolution β) [Oblivious step]
    [∀ value, Oblivious (next value)] (done : step.effect active = ⟨.ok value, []⟩) :
    (step >>= next).effect active = (next value).effect active := by
  rw [effect_bind, done, Account.bind_pure]

theorem effect_bind_error {step : Resolution α} {failure : Failure} (next : α → Resolution β)
    [Oblivious step] [∀ value, Oblivious (next value)]
    (failed : step.effect active = ⟨.error failure, []⟩) :
    (step >>= next).effect active = ⟨.error failure, []⟩ := by
  rw [effect_bind, failed]
  rfl

theorem effect_pure (value : α) :
    (pure value : Resolution α).effect active = ⟨.ok value, []⟩ := rfl

theorem effect_log (level : LogLevel) (message : String) :
    (log level message).effect active = ⟨.ok (), []⟩ := rfl

theorem effect_inside (workspace : Workspace) (path : String) (span : Span) (body : Resolution Unit)
    [Oblivious body] : (inside workspace path span body).effect active =
      match workspace.resolve path with
      | .error error => ⟨.error (.system error), []⟩
      | .ok key =>
        if key ∈ active then
          ⟨.error (.badImport ⟨.cycle (cycleThrough active key), some span⟩), []⟩
        else ⟨body.outcome (key :: active),
          .entered key :: (body.effect (key :: active)).events ++ [.left key]⟩ := by
  rw [effect, account_inside, insideAccount]
  cases workspace.resolve path with
  | error error => rfl
  | ok key =>
    by_cases within : key ∈ active
    · simp only [if_pos within]
      rfl
    · simp only [if_neg within, Account.effect, List.filter_append]
      rfl

theorem effect_forM_append {step : ι → Resolution Unit} (first second : List ι)
    (each : ∀ item, Oblivious (step item)) : ((first ++ second).forM step).effect active =
      ((first.forM step).effect active).bind fun _ => (second.forM step).effect active := by
  induction first with
  | nil => rfl
  | cons item rest ih =>
    have others := oblivious_forM rest each
    have all := oblivious_forM (rest ++ second) each
    change (step item >>= fun _ => (rest ++ second).forM step).effect active =
      ((step item >>= fun _ => rest.forM step).effect active).bind _
    rw [effect_bind, effect_bind, ih, Account.bind_assoc]

def Does (step : Resolution α) (active : List String) (event : Event) : Prop :=
  event ∈ (step.effect active).events

theorem does_bind (step : Resolution α) (next : α → Resolution β) [Oblivious step]
    [∀ value, Oblivious (next value)] :
    (step >>= next).Does active event ↔ step.Does active event ∨
      ∃ value, step.outcome active = .ok value ∧ (next value).Does active event := by
  rw [← effect_outcome]
  simp only [Does, effect_bind, Account.bind]
  cases (step.effect active).outcome <;> simp

theorem does_of_forM {step : ι → Resolution Unit} {items : List ι}
    (each : ∀ item, Oblivious (step item)) (does : (items.forM step).Does active event) :
    ∃ item ∈ items, (step item).Does active event := by
  induction items with
  | nil => cases does
  | cons first rest ih =>
    have others := oblivious_forM rest each
    rcases (does_bind (step first) fun _ => rest.forM step).mp does with here | ⟨_, _, later⟩
    · exact ⟨first, List.mem_cons_self, here⟩
    · obtain ⟨item, member, does⟩ := ih later
      exact ⟨item, List.mem_cons_of_mem _ member, does⟩

theorem forM_does {step : ι → Resolution Unit} {items : List ι} {item : ι}
    (each : ∀ item, Oblivious (step item)) (ok : (items.forM step).outcome active = .ok ())
    (member : item ∈ items) (does : (step item).Does active event) :
    (items.forM step).Does active event := by
  induction items with
  | nil => cases member
  | cons first rest ih =>
    have others := oblivious_forM rest each
    have head := outcome_forM_ok each ok first List.mem_cons_self
    refine (does_bind (step first) fun _ => rest.forM step).mpr ?_
    rcases List.mem_cons.mp member with rfl | later
    · exact .inl does
    · change (step first >>= fun _ => rest.forM step).outcome active = _ at ok
      rw [outcome_bind, head] at ok
      exact .inr ⟨(), head, ih ok later⟩

def sessionAfter : EStateM.Result Failure Session α → Session
  | .ok _ session | .error _ session => session

theorem sessionAfter_run (step : Resolution α) [Oblivious step] (session : Session) :
    sessionAfter (step session) = session.replay (step.account session.active).events := by
  rw [run_eq step, Account.resume]
  cases (step.account session.active).outcome <;> rfl

end Resolution

namespace DefinitionStore

theorem write?_eq_some_iff {event : Event} {key : String} {definition : Definition} :
    event.write? = some (key, definition) ↔ event = .stored key definition := by
  cases event <;> simp [Event.write?]

theorem apply_changes (events : List Event) (store : DefinitionStore) :
    (events.filter Event.isChange).foldl apply store = events.foldl apply store := by
  rw [apply_eq_write, apply_eq_write, List.filterMap_filter]
  refine congrArg store.write (List.filterMap_congr fun event _ => ?_)
  cases event <;> rfl

theorem apply_quiet {events : List Event} (quiet : ∀ event ∈ events, ∀ name definition,
    event ≠ .stored name definition) (store : DefinitionStore) :
    events.foldl apply store = store := by
  have unwritten : events.filterMap Event.write? = [] := by
    refine List.filterMap_eq_nil_iff.mpr fun event member => ?_
    refine Option.eq_none_iff_forall_ne_some.mpr fun entry written => ?_
    exact quiet event member _ _ (write?_eq_some_iff.mp written)
  rw [apply_eq_write, unwritten]
  rfl

theorem stored_of_get? {events : List Event} {store : DefinitionStore} {key : String}
    {definition : Definition} (found : (events.foldl apply store).get? key = some definition) :
    store.get? key = some definition ∨ .stored key definition ∈ events := by
  rw [apply_eq_write, Table.get?_write, Option.or_eq_some_iff, Option.map_eq_some_iff] at found
  rcases found with ⟨⟨name, value⟩, last, rfl⟩ | ⟨-, before⟩
  · obtain ⟨among, same⟩ := List.mem_filter.mp (List.mem_of_getLast? last)
    obtain rfl : name = key := of_decide_eq_true same
    obtain ⟨event, member, written⟩ := List.mem_filterMap.mp among
    exact .inr (write?_eq_some_iff.mp written ▸ member)
  · exact .inl before

theorem mem_keys_apply {events : List Event} {store : DefinitionStore} {key : String} :
    key ∈ (events.foldl apply store).keys ↔
      key ∈ store.keys ∨ ∃ definition, .stored key definition ∈ events := by
  rw [apply_eq_write, Table.keys_write, List.mem_eraseDups, List.mem_append]
  simp only [List.mem_map, List.mem_filterMap, Prod.exists, write?_eq_some_iff]
  grind

end DefinitionStore

theorem Resolution.sessionAfter_store {α : Type} (step : Resolution α) [Oblivious step]
    (session : Session) : (sessionAfter (step session)).store =
      (step.effect session.active).events.foldl DefinitionStore.apply session.store := by
  rw [sessionAfter_run, effect, Account.effect, DefinitionStore.apply_changes]
  rfl

namespace Resolver
open Resolution
variable {active : List String}

theorem effect_loadEntry (workspace : Workspace) (entry : Entry) (span : Span) :
    (loadEntry workspace entry span).effect active = ⟨workspace.loadOf entry span, []⟩ := by
  rw [effect, account_loadEntry, loadEvents]
  split <;> rfl

theorem effect_candidates (resolver : Resolver) (directory : String) (name : Identifier) :
    (resolver.candidates directory name).effect active =
      ⟨resolver.candidatesOf directory name, []⟩ := by
  rw [effect, account_candidates]
  rfl

theorem changes_inspections (resolver : Resolver) (wantDirectory : Bool) (entries : List Entry) :
    (resolver.inspections wantDirectory entries).filter Event.isChange = [] := by
  induction entries with
  | nil => rfl
  | cons entry rest ih =>
    rw [inspections, List.filter_cons_of_neg (by simp [Event.isChange])]
    split
    · rfl
    · exact ih

theorem effect_choose (resolver : Resolver) (name : Identifier) (candidates : Candidates)
    (wantDirectory : Bool) : (resolver.choose name candidates wantDirectory).effect active =
      ⟨.ok (resolver.selected candidates wantDirectory), []⟩ := by
  rw [effect, account_choose, Account.effect, selectionEvents]
  split <;> simp [changes_inspections, Event.isChange]

theorem effect_rootPath (resolver : Resolver) (span : Span) :
    (resolver.rootPath span).effect active = ⟨resolver.rootOf span, []⟩ := by
  rw [effect, account_rootPath]
  rfl

end Resolver

end LeoFront
