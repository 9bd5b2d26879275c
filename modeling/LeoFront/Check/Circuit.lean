import LeoFront.Check.Checker

namespace LeoFront

def addressType : Ty := .primitive .address

def u64Type : Ty := .primitive (.integer ⟨false, .bits64⟩)

def requiredRecordFields : List (String × Ty) := [("owner", addressType), ("balance", u64Type)]

def allUnused (used : List String) : List String → Bool
  | [] => true
  | name :: rest => !used.contains name && allUnused (name :: used) rest

namespace Checker
variable {σ : Type}

def visitRequired (record : Circuit) (checker : Checker σ) (required : String × Ty) : Checker σ :=
  match record.members.find? (·.identifier.name = required.1) with
  | none => checker.report (.requiredRecordVariable required.1 required.2.text) record.span
  | some member =>
    if required.2.eqFlat member.type then checker
    else
      checker.report (.recordVarWrongType member.identifier.name required.2.text) record.span

/-- Checks a circuit or record. However many names collide, that is one fault. -/
def visitCircuit (circuit : Circuit) (checker : Checker σ) : Checker σ :=
  let name := circuit.identifier.name
  let checked :=
    if allUnused [] (circuit.members.map (·.identifier.name)) then checker
    else
      checker.report
        (if circuit.isRecord then .duplicateRecordVariable name else .duplicateCircuitMember name)
        circuit.span
  if circuit.isRecord then requiredRecordFields.foldl (visitRequired circuit) checked else checked

end Checker

end LeoFront
