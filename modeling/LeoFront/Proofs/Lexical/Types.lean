import LeoFront.Proofs.Lexical.Usage

namespace LeoFront.Ty
open LeoFront.Parser

/-- Somewhere in some source, a type is read. -/
def Written (type : Ty) : Prop :=
  ∃ cursor after, (Grammar.type cursor).result = some (type, after)

variable {type left middle right : Ty}

theorem eqFlat_comm (left right : Ty) : left.eqFlat right = right.eqFlat left := by
  cases left <;> cases right <;> simp [eqFlat, eq_comm]

theorem eqFlat_trans (first : left.eqFlat middle = true) (second : middle.eqFlat right = true) :
    left.eqFlat right = true := by
  cases left <;> cases middle <;> cases right <;> simp_all [eqFlat]

theorem eqFlat_self (type : Ty) : type.eqFlat type = true ↔ type ≠ .unresolved := by
  cases type <;> simp [eqFlat]

theorem text_of_eqFlat (same : left.eqFlat right = true) : left.text = right.text := by
  cases left <;> cases right <;> simp_all [eqFlat, text]

theorem accepts_text (written : type.Written) :
    Accepts Grammar.type type.text.toList (fun read => type.eqFlat read = true) [] := by
  obtain ⟨cursor, after, read⟩ := written
  have wellFormed := Grammar.type_wellFormed read
  cases type with
  | primitive type =>
    refine (Grammar.reads_primitive type).imp fun read same => ?_
    rw [same]
    exact (eqFlat_self _).mpr nofun
  | named identifier =>
    refine (Grammar.reads_circuitName wellFormed.1 wellFormed.2).imp fun read made => ?_
    obtain ⟨span, rfl⟩ := made
    simp [eqFlat]
  | unresolved => exact wellFormed.elim

theorem eqFlat_of_text (written : left.Written) (written' : right.Written)
    (same : left.text = right.text) : left.eqFlat right = true := by
  obtain ⟨type, _, read, first⟩ := accepts_text written .start
  obtain ⟨type', _, read', second⟩ := accepts_text written' .start
  -- one text is read as one type
  rw [← same] at read'
  cases read.symm.trans read'
  exact eqFlat_trans first ((eqFlat_comm _ _).trans second)

/-- The text of a type that was read is read, to its end, as the same type. Two types that were read are
the same exactly if their texts are, and places have no part in that. Of all types, sameness is symmetric
and transitive, and only a type that was left out is not the same as itself. -/
theorem eqFlat_written :
    (∀ type : Ty, type.Written →
      Accepts Grammar.type type.text.toList (fun read => type.eqFlat read = true) []) ∧
    (∀ left right : Ty, left.Written → right.Written →
      (left.eqFlat right = true ↔ left.text = right.text)) ∧
    (∀ left right : Ty, left.erase.eqFlat right.erase = left.eqFlat right) ∧
    (∀ left right : Ty, left.eqFlat right = true → right.eqFlat left = true) ∧
    (∀ left middle right : Ty, left.eqFlat middle = true → middle.eqFlat right = true →
      left.eqFlat right = true) ∧
    ∀ type : Ty, type.eqFlat type = true ↔ type ≠ .unresolved := by
  refine ⟨fun type => accepts_text, fun left right written written' => ?_, fun left right => ?_,
    fun left right same => (eqFlat_comm right left).trans same,
    fun left middle right => eqFlat_trans, eqFlat_self⟩
  · exact ⟨text_of_eqFlat, eqFlat_of_text written written'⟩
  · cases left <;> cases right <;> rfl

def fields : Ty := .named ⟨"fields", ⟨.start, ⟨1, 7, 6⟩⟩⟩

theorem fields_written :
    fields.Written ∧ (primitive .field).Written ∧
    Accepts Grammar.type "fields".toList (fun read => fields.eqFlat read = true) [] ∧
    fields.eqFlat (primitive .field) = false := by
  have written : fields.Written := ⟨.ofSource "fields".toList, _, rfl⟩
  have field : (primitive .field).Written := ⟨.ofSource "field".toList, _, rfl⟩
  obtain ⟨reads, alike, -⟩ := eqFlat_written
  have apart : fields.text ≠ (primitive .field).text := by decide
  refine ⟨written, field, reads fields written, ?_⟩
  exact Bool.eq_false_iff.mpr fun same => apart ((alike _ _ written field).mp same)

end LeoFront.Ty
