import LeoFront.Proofs.Check.Scoping
import LeoFront.Proofs.Lexical.Files

namespace LeoFront

def Site.names (site : Site) : List Identifier := site.name :: site.type.toList.flatMap Ty.names

mutual

theorem sites_named_statement (statement : Statement) (after : Nat) :
    ∀ site ∈ statement.sites after, site.names ⊆ statement.names := by
  cases statement with
  | binding definition =>
    intro site member
    obtain rfl := List.mem_singleton.mp member
    exact List.cons_subset_cons _ (List.subset_append_left _ _)
  | loop head body span =>
    refine List.forall_mem_cons.mpr ⟨?_, fun site member => ?_⟩
    · refine List.subset_append_of_subset_left _ (List.cons_subset_cons _ ?_)
      simp [List.subset_append_of_subset_left]
    · exact List.subset_append_of_subset_right _ (sites_named_block body site member)
  | conditional conditional => exact sites_named_conditional conditional
  | block block => exact sites_named_block block
  | ret expression span => exact nofun
  | assign op place value span => exact nofun
  | console function arguments span => exact nofun
  | expression expression span => exact nofun

theorem sites_named_statements (statements : List Statement) :
    ∀ site ∈ Statement.sitesOfAll statements, site.names ⊆ Statement.namesOfEach statements := by
  cases statements with
  | nil => exact nofun
  | cons first rest =>
    refine List.forall_mem_append.mpr ⟨fun site member => ?_, fun site member => ?_⟩
    · exact List.subset_append_of_subset_left _ (sites_named_statement first _ site member)
    · exact List.subset_append_of_subset_right _ (sites_named_statements rest site member)

theorem sites_named_block (block : Block) : ∀ site ∈ block.sites, site.names ⊆ block.names := by
  cases block with
  | mk statements span => exact sites_named_statements statements

theorem sites_named_conditional (conditional : Conditional) :
    ∀ site ∈ conditional.sites, site.names ⊆ conditional.names := by
  cases conditional with
  | mk condition body otherwise span =>
    refine List.forall_mem_append.mpr ⟨fun site member => ?_, fun site member => ?_⟩
    · exact List.subset_append_of_subset_right _
        (List.subset_append_of_subset_left _ (sites_named_block body site member))
    · exact List.subset_append_of_subset_right _
        (List.subset_append_of_subset_right _ (sites_named_otherwise otherwise site member))

theorem sites_named_otherwise (otherwise : Otherwise) :
    ∀ site ∈ otherwise.sites, site.names ⊆ otherwise.names := by
  cases otherwise with
  | nothing => exact nofun
  | block block => exact sites_named_block block
  | chain conditional => exact sites_named_conditional conditional

end

theorem sites_named_inputs (body : Nat) (inputs : List Input) :
    ∀ site ∈ Input.sites body inputs, site.names ⊆ inputs.flatMap Input.names := by
  induction inputs with
  | nil => exact nofun
  | cons input rest ih =>
    refine List.forall_mem_cons.mpr ⟨?_, fun site member => ?_⟩
    · refine List.subset_append_of_subset_left _ (List.cons_subset_cons _ ?_)
      simp
    · exact List.subset_append_of_subset_right _ (ih site member)

theorem FunctionDecl.sites_named (function : FunctionDecl) :
    ∀ site ∈ function.sites, site.names ⊆ function.names := by
  refine List.forall_mem_append.mpr ⟨fun site member => ?_, fun site member => ?_⟩
  · exact List.subset_cons_of_subset _
      (List.subset_append_of_subset_left _ (sites_named_inputs _ _ site member))
  · exact List.subset_cons_of_subset _ (List.subset_append_of_subset_right _
      (List.subset_append_of_subset_right _ (sites_named_block _ site member)))

/-- The variables that a declaration declares: its inputs, and by definitions and loops at any
depth. -/
def Declaration.variables : Declaration → List Identifier
  | .circuit _ => []
  | .function declared => declared.sites.map (·.name)

def Declaration.circuits : Declaration → List Identifier
  | .circuit declared => [declared.identifier]
  | .function _ => []

/-- Some file that is read has a name among those that its declarations declare. -/
def Declared (declares : Declaration → List Identifier) (name : String) : Prop :=
  ∃ text sourceName file, File.parse text sourceName = .ok file ∧
    ∃ declaration ∈ file.declarations, ∃ identifier ∈ declares declaration, identifier.name = name

variable {name : String} {declares : Declaration → List Identifier}

theorem variables_named (declaration : Declaration) :
    ∀ identifier ∈ declaration.variables, identifier ∈ declaration.names := by
  cases declaration with
  | circuit circuit => exact nofun
  | function function =>
    intro identifier member
    obtain ⟨site, among, rfl⟩ := List.mem_map.mp member
    exact function.sites_named site among List.mem_cons_self

theorem circuits_named (declaration : Declaration) :
    ∀ identifier ∈ declaration.circuits, identifier ∈ declaration.names := by
  cases declaration with
  | circuit circuit => exact List.forall_mem_singleton.mpr List.mem_cons_self
  | function function => exact nofun

theorem Declared.isName (declared : Declared declares name)
    (named : ∀ declaration, ∀ identifier ∈ declares declaration, identifier ∈ declaration.names) :
    Grammar.IsName name := by
  obtain ⟨text, sourceName, file, parsed, declaration, among, identifier, member, rfl⟩ := declared
  refine ((File.parse_sound parsed).2 identifier (List.mem_append_right _ ?_)).isName
  exact List.mem_flatMap.mpr ⟨declaration, among, named declaration identifier member⟩

theorem declared_of_parse (text : String) (found : (File.parse text none).toOption.any
      (fun file => file.declarations.any fun declaration =>
        (declares declaration).any (·.name = name)) = true) : Declared declares name := by
  cases parsed : File.parse text none with
  | error problem =>
    rw [parsed] at found
    cases found
  | ok file =>
    rw [parsed] at found
    simp only [Except.toOption, Option.any_some, List.any_eq_true, decide_eq_true_eq] at found
    exact ⟨text, none, file, parsed, found⟩

namespace Grammar
open LeoFront.Parser
variable {α : Type} {p : Parser α} {text : List Char}

theorem accepts_none (rejects : Rejects p text) : Accepts p.many text (· = []) text := by
  have once (c : Char) (bound : List Char) : Accepts (manyWithin p (c :: bound)) text (· = []) text :=
    rejects.bind.or_right (accepts_pure rfl)
  exact fun position => once _ _ position

theorem accepts_blanks_end : Accepts blanks [] (fun _ => True) [] :=
  fun position => ⟨(), position, rfl, trivial⟩

theorem accepts_leftChain_end {operand : Parser Expression} {operator : Parser BinaryOp}
    {good : Expression → Prop} (reads : Accepts operand text good [])
    (stop : Rejects operator []) : Accepts (leftChain operand operator) text good [] := by
  refine reads.bind fun first known => ?_
  refine (accepts_none (accepts_blanks_end.bind_rejects fun _ _ => stop.bind)).bind
    fun rest none => accepts_pure ?_
  rw [none]
  exact known

theorem accepts_expression_end {t : Token} (run : IsRun t) {good : Expression → Prop}
    (reads : ∀ inner, Accepts (primary inner) t good []) :
    Accepts Grammar.expression t good [] := by
  have target (inner : Parser Expression) : Accepts (suffixed inner) t good [] := by
    have noSuffix : Rejects (suffix inner) [] := fun _ => rfl
    refine (reads inner).bind fun value known => ?_
    refine (accepts_none (accepts_blanks_end.bind_rejects fun _ _ => noSuffix)).bind
      fun rest none => accepts_pure ?_
    rw [none]
    exact known
  have noPrefix : Rejects (oneText [("!", UnaryOp.not), ("-", .negate)]) t := by
    have rejects := rejects_unaryOperator run.unprefixed []
    rwa [spaced, gap, List.append_nil] at rejects
  have unary (c : Char) (bound : List Char) : Accepts (unaryWithin (c :: bound)) t good [] :=
    noPrefix.bind.spanned.firstOf_tail (Accepts.firstOf_head (target _))
  intro position
  refine accepts_leftChain_end (accepts_leftChain_end (accepts_leftChain_end
    (accepts_leftChain_end (accepts_leftChain_end (accepts_leftChain_end (unary _ _)
    ?_) ?_) ?_) ?_) ?_) ?_ position
  all_goals exact fun _ => rfl

theorem reads_variable (isName : IsName name) (free : ¬ StartsAddress name) :
    Accepts Grammar.expression name.toList (fun read => ∃ span, read = .var name span) [] := by
  refine accepts_expression_end (IsWord.run isName.word) fun inner => ?_
  have reads : Accepts (primary inner) (spaced [name.toList]) (·.erase = .var name .none) [] :=
    accepts_var isName free inner
  rw [spaced, gap, List.append_nil] at reads
  refine reads.imp fun read same => ?_
  cases read with
  | var other span =>
    cases same
    exact ⟨span, rfl⟩
  | _ => cases same

theorem reads_address {run : List Char} (same : name.toList = "aleo1".toList ++ run)
    (nonempty : run ≠ []) (parts : ∀ c ∈ run, addressPart.contains c = true) :
    Accepts Grammar.expression name.toList
      (fun read => ∃ span, read = .literal name .address span) [] := by
  have isRun : IsRun name.toList := same ▸ isRun_address parts
  refine accepts_expression_end isRun fun inner => ?_
  have reads : Accepts (primary inner) (spaced [name.toList])
      (·.erase = .literal name .address .none) [] := accepts_address same nonempty parts inner
  rw [spaced, gap, List.append_nil] at reads
  refine reads.imp fun read same => ?_
  cases read with
  | literal value type span =>
    cases same
    exact ⟨span, rfl⟩
  | _ => cases same

theorem reads_circuitName (isName : IsName name) (free : ∀ type : Primitive, type.text ≠ name) :
    Accepts Grammar.type name.toList (fun read => ∃ span, read = .named ⟨name, span⟩) [] := by
  have wellFormed : Ty.WellFormed (.named ⟨name, .none⟩) := ⟨isName, free⟩
  have reads := accepts_type wellFormed []
  rw [List.append_nil, Ty.tokens, spaced, gap, List.append_nil] at reads
  refine reads.imp fun read same => ?_
  cases read with
  | named other =>
    obtain ⟨text, span⟩ := other
    cases same
    exact ⟨span, rfl⟩
  | _ => cases same

theorem reads_primitive (type : Primitive) :
    Accepts Grammar.type type.text.toList (· = .primitive type) [] := by
  have reads : Accepts Grammar.type (type.text.toList ++ []) (· = .primitive type) [] :=
    accepts_primitiveText type nofun
  rwa [List.append_nil] at reads

/-- A name that some file declares as a variable is read as that variable, unless it begins like an
address, and a name that some file declares as a circuit or record is read as that type, unless it is a
word for a primitive. The names that are addresses are read as addresses instead, and the words for
primitives as primitives. -/
theorem declared_used (name : String) :
    (Declared Declaration.variables name →
      (¬ StartsAddress name →
        Accepts Grammar.expression name.toList (fun read => ∃ span, read = .var name span) []) ∧
      ∀ run ≠ [], (∀ c ∈ run, addressPart.contains c = true) →
        name.toList = "aleo1".toList ++ run →
        Accepts Grammar.expression name.toList
          (fun read => ∃ span, read = .literal name .address span) []) ∧
    (Declared Declaration.circuits name →
      ((∀ type : Primitive, type.text ≠ name) →
        Accepts Grammar.type name.toList (fun read => ∃ span, read = .named ⟨name, span⟩) []) ∧
      ∀ type : Primitive, type.text = name →
        Accepts Grammar.type name.toList (· = .primitive type) []) := by
  refine ⟨fun declared => ⟨fun free => ?_, fun run nonempty parts same => ?_⟩,
    fun declared => ⟨fun free => ?_, fun type same => ?_⟩⟩
  · exact reads_variable (declared.isName variables_named) free
  · exact reads_address same nonempty parts
  · exact reads_circuitName (declared.isName circuits_named) free
  · rw [← same]
    exact reads_primitive type

def strangeNames : String :=
  "circuit fields \x7b \x7d record u8 \x7b \x7d function f(fields: fields) \x7b let aleo1x = 1u8; \x7d"

theorem fields_used :
    Declared Declaration.variables "fields" ∧ Declared Declaration.circuits "fields" ∧
    Accepts Grammar.expression "fields".toList (fun read => ∃ span, read = .var "fields" span) [] ∧
    Accepts Grammar.type "fields".toList
      (fun read => ∃ span, read = .named ⟨"fields", span⟩) [] := by
  have asVariable : Declared Declaration.variables "fields" :=
    declared_of_parse strangeNames (by decide +kernel)
  have asCircuit : Declared Declaration.circuits "fields" :=
    declared_of_parse strangeNames (by decide +kernel)
  obtain ⟨used, named⟩ := declared_used "fields"
  have noAddress : ¬ StartsAddress "fields" := by
    rintro ⟨c, rest, same, _⟩
    cases same
  have noPrimitive : ∀ type : Primitive, type.text ≠ "fields" := by
    rintro (_ | _ | _ | _ | _ | _ | ⟨_ | _, _ | _ | _ | _ | _⟩) <;> decide
  exact ⟨asVariable, asCircuit, (used asVariable).1 noAddress, (named asCircuit).1 noPrimitive⟩

/-- Not every declared variable can be used, and not every declared circuit. -/
theorem declared_unusable :
    (¬ ∀ name, Declared Declaration.variables name →
      Accepts Grammar.expression name.toList (fun read => ∃ span, read = .var name span) []) ∧
    ¬ ∀ name, Declared Declaration.circuits name →
      Accepts Grammar.type name.toList (fun read => ∃ span, read = .named ⟨name, span⟩) [] := by
  constructor
  · intro used
    have declared : Declared Declaration.variables "aleo1x" :=
      declared_of_parse strangeNames (by decide +kernel)
    have same : "aleo1x".toList = "aleo1".toList ++ ['x'] := rfl
    have address := reads_address same (by decide) (by decide)
    obtain ⟨_, _, read, span, rfl⟩ := used "aleo1x" declared .start
    obtain ⟨_, _, other, span', rfl⟩ := address .start
    cases read.symm.trans other
  · intro used
    have declared : Declared Declaration.circuits "u8" :=
      declared_of_parse strangeNames (by decide +kernel)
    obtain ⟨_, _, read, span, rfl⟩ := used "u8" declared .start
    obtain ⟨_, _, other, rfl⟩ := reads_primitive (.integer ⟨false, .bits8⟩) .start
    cases read.symm.trans other

end Grammar

end LeoFront
