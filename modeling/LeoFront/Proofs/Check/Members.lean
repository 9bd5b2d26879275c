import LeoFront.Proofs.Check.Program

namespace LeoFront

namespace Circuit

def memberNames (circuit : Circuit) : List String := circuit.members.map (·.identifier.name)

def First (circuit : Circuit) (name : String) (member : Member) : Prop :=
  ∃ before after, circuit.members = before ++ member :: after ∧ member.identifier.name = name ∧
    ∀ earlier ∈ before, earlier.identifier.name ≠ name

def Declares (circuit : Circuit) (name : String) (type : Ty) : Prop :=
  ∃ member ∈ circuit.members, member.identifier.name = name ∧ member.type = type

inductive Requires (record : Circuit) (filePath : Option String) (name : String) (type : Ty) :
    List Diagnostic → Prop
  | missing (absent : name ∉ record.memberNames) :
    Requires record filePath name type
      [⟨.requiredRecordVariable name type.text, record.span, filePath⟩]
  | mistyped {member : Member} (first : record.First name member)
      (other : type.eqFlat member.type = false) :
    Requires record filePath name type
      [⟨.recordVarWrongType name type.text, record.span, filePath⟩]
  | present {member : Member} (first : record.First name member)
      (same : type.eqFlat member.type = true) :
    Requires record filePath name type []

variable {circuit record : Circuit} {filePath : Option String} {name : String} {type : Ty}
  {primitive : Primitive} {diagnostics : List Diagnostic}

theorem allUnused_iff {used names : List String} :
    allUnused used names = true ↔ names.Nodup ∧ ∀ name ∈ names, name ∉ used := by
  induction names generalizing used with
  | nil => simp [allUnused]
  | cons first rest ih =>
    simp only [allUnused, Bool.and_eq_true, Bool.not_eq_true', List.contains_eq_mem,
      decide_eq_false_iff_not, ih, List.nodup_cons, List.mem_cons, not_or]
    grind

theorem find_eq_some_iff {member : Member} :
    circuit.members.find? (·.identifier.name = name) = some member ↔ circuit.First name member := by
  rw [List.find?_eq_some_iff_append]
  simp only [decide_eq_true_eq, Bool.not_eq_true', decide_eq_false_iff_not, First]
  grind

theorem find_eq_none_iff :
    circuit.members.find? (·.identifier.name = name) = none ↔ name ∉ circuit.memberNames := by
  simp [memberNames]

theorem requires_diagnostics (record : Circuit) (filePath : Option String) (name : String) (type : Ty) :
    record.Requires filePath name type (record.requiredDiagnostics filePath (name, type)) := by
  unfold requiredDiagnostics
  dsimp only
  cases found : record.members.find? (·.identifier.name = name) with
  | none => exact .missing (find_eq_none_iff.mp found)
  | some member =>
    have first : record.First name member := find_eq_some_iff.mp found
    have named : member.identifier.name = name := by simpa using List.find?_some found
    dsimp only
    cases same : type.eqFlat member.type with
    | false =>
      rw [named]
      exact .mistyped first same
    | true => exact .present first same

theorem diagnostics_eq (circuit : Circuit) (filePath : Option String) :
    circuit.diagnostics filePath = (if circuit.memberNames.Nodup then [] else
      [⟨if circuit.isRecord then .duplicateRecordVariable circuit.identifier.name
        else .duplicateCircuitMember circuit.identifier.name, circuit.span, filePath⟩]) ++
      if circuit.isRecord then circuit.requiredDiagnostics filePath ("owner", addressType) ++
        circuit.requiredDiagnostics filePath ("balance", u64Type) else [] := by
  have unused : allUnused [] (circuit.members.map (·.identifier.name)) = true ↔
      circuit.memberNames.Nodup := by simp [allUnused_iff, memberNames]
  unfold diagnostics
  simp only [unused]
  cases circuit.isRecord <;> simp [requiredRecordFields]

theorem eqFlat_primitive : Ty.eqFlat (.primitive primitive) type = true ↔ type = .primitive primitive := by
  cases type <;> simp [Ty.eqFlat, eq_comm]

theorem first_of_mem {member : Member} (distinct : circuit.memberNames.Nodup)
    (among : member ∈ circuit.members) : circuit.First member.identifier.name member := by
  obtain ⟨before, after, same⟩ := List.append_of_mem among
  refine ⟨before, after, same, rfl, fun earlier member' clash => ?_⟩
  rw [memberNames, same, List.map_append, List.nodup_append] at distinct
  exact distinct.2.2 _ (List.mem_map_of_mem member') _ (by simp) clash

theorem Requires.eq_nil_iff (requires : record.Requires filePath name (.primitive primitive) diagnostics)
    (distinct : record.memberNames.Nodup) :
    diagnostics = [] ↔ record.Declares name (.primitive primitive) := by
  have unique {member other : Member} (first : record.First name member)
      (among : other ∈ record.members) (named : other.identifier.name = name) : other = member := by
    have first' := first_of_mem distinct among
    rw [named] at first'
    exact Option.some.inj ((find_eq_some_iff.mpr first').symm.trans (find_eq_some_iff.mpr first))
  cases requires with
  | missing absent =>
    refine iff_of_false nofun ?_
    rintro ⟨member, among, rfl, -⟩
    exact absent (List.mem_map_of_mem among)
  | mistyped first other =>
    refine iff_of_false nofun ?_
    rintro ⟨member, among, named, typed⟩
    rw [← unique first among named, eqFlat_primitive.mpr typed] at other
    cases other
  | @present member first same =>
    refine iff_of_true rfl ?_
    obtain ⟨before, after, members, named, -⟩ := first
    exact ⟨member, by simp [members], named, eqFlat_primitive.mp same⟩

end Circuit

namespace Checker
variable {σ : Type}

/-- A checker reports of a circuit, once, that two of its members share a name, and then of a record
what it lacks of an owner and of a balance, whether names are shared or not. That is all it does. So
nothing is reported exactly where all members are named differently and a record has an owner and a
balance of the right types among them. -/
theorem visitCircuit_members (circuit : Circuit) (checker : Checker σ) :
    ∃ owner balance,
      circuit.Requires checker.filePath "owner" addressType owner ∧
      circuit.Requires checker.filePath "balance" u64Type balance ∧
      let shared := if circuit.memberNames.Nodup then [] else
        [⟨if circuit.isRecord then .duplicateRecordVariable circuit.identifier.name
          else .duplicateCircuitMember circuit.identifier.name, circuit.span, checker.filePath⟩]
      let emitted := shared ++ if circuit.isRecord then owner ++ balance else []
      visitCircuit circuit checker =
        { checker with handler := emitted.foldl Handler.emit checker.handler } ∧
      (visitCircuit circuit checker).handler.errors = checker.handler.errors ++ emitted ∧
      (emitted = [] ↔ circuit.memberNames.Nodup ∧ (circuit.isRecord = true →
        circuit.Declares "owner" addressType ∧ circuit.Declares "balance" u64Type)) := by
  have owner := circuit.requires_diagnostics checker.filePath "owner" addressType
  have balance := circuit.requires_diagnostics checker.filePath "balance" u64Type
  refine ⟨_, _, owner, balance, ?_, ?_, ?_⟩
  · rw [visitCircuit_eq, emitAll, Circuit.diagnostics_eq]
  · rw [visitCircuit_eq, emitAll_errors, Circuit.diagnostics_eq]
  · by_cases distinct : circuit.memberNames.Nodup
    · have owned : _ ↔ circuit.Declares "owner" addressType := owner.eq_nil_iff distinct
      have balanced : _ ↔ circuit.Declares "balance" u64Type := balance.eq_nil_iff distinct
      rw [if_pos distinct, List.nil_append, and_iff_right distinct, ← owned, ← balanced]
      cases circuit.isRecord <;> simp
    · simp [distinct]

example : (visitCircuit ⟨⟨"r", .none⟩, [⟨⟨"owner", .none⟩, addressType⟩, ⟨⟨"owner", .none⟩, u64Type⟩],
    true, .none⟩ (.new .empty .unobserved none)).handler.errors =
      [⟨.duplicateRecordVariable "r", .none, none⟩,
        ⟨.requiredRecordVariable "balance" "u64", .none, none⟩] := by decide

end Checker

end LeoFront
