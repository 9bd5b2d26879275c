import LeoFront.Proofs.Check.SymbolTable

/-!
# Which declarations clash

The checker keeps a stack of scopes and leaves out what it refuses. Here the same diagnostics are
read off the source alone: `FunctionDecl.sites` lists the declarations of a function in source order,
each with how far its scope reaches, and a declaration clashes if an earlier one of its name, refused
or not, reaches it.

* `visitFunction_errors`: the checker emits exactly `FunctionDecl.scopingDiagnostics`, in order.
-/

namespace LeoFront

structure Site where
  name : Identifier
  type : Option Ty
  /-- How many of the declarations after this one are in its scope; they follow it directly. -/
  reach : Nat

/-! ## The declarations of a function -/

mutual

/-- The declarations in a statement, with `after` more declarations behind it in its block. -/
def Statement.sites (after : Nat) : Statement → List Site
  | .binding binding => [⟨binding.name, binding.type, after⟩]
  | .loop head body _ => ⟨head.name, some head.type, body.sites.length⟩ :: body.sites
  | .conditional conditional => conditional.sites
  | .block block => block.sites
  | .ret .. | .assign .. | .console .. | .expression .. => []

def Statement.sitesOfAll : List Statement → List Site
  | [] => []
  | first :: rest => first.sites (Statement.sitesOfAll rest).length ++ Statement.sitesOfAll rest

def Block.sites : Block → List Site
  | .mk statements _ => Statement.sitesOfAll statements

def Conditional.sites : Conditional → List Site
  | .mk _ body otherwise _ => body.sites ++ otherwise.sites

def Otherwise.sites : Otherwise → List Site
  | .nothing => []
  | .block block => block.sites
  | .chain conditional => conditional.sites

end

def Input.sites (body : Nat) : List Input → List Site
  | [] => []
  | input :: rest => ⟨input.identifier, some input.type, rest.length + body⟩ :: sites body rest

/-- The declarations of a function in source order. The scope of an input is all that follows. -/
def FunctionDecl.sites (function : FunctionDecl) : List Site :=
  Input.sites function.body.sites.length function.inputs ++ function.body.sites

mutual

def Statement.everything : Statement → List Statement
  | .loop head body span => .loop head body span :: body.everything
  | .conditional conditional => .conditional conditional :: conditional.everything
  | .block block => .block block :: block.everything
  | statement => [statement]

def Statement.everythingOfAll : List Statement → List Statement
  | [] => []
  | first :: rest => first.everything ++ Statement.everythingOfAll rest

def Block.everything : Block → List Statement
  | .mk statements _ => Statement.everythingOfAll statements

def Conditional.everything : Conditional → List Statement
  | .mk _ body otherwise _ => body.everything ++ otherwise.everything

def Otherwise.everything : Otherwise → List Statement
  | .nothing => []
  | .block block => block.everything
  | .chain conditional => conditional.everything

end

def Statement.isReturn : Statement → Bool
  | .ret .. => true
  | _ => false

/-! ## The diagnostics of a function -/

/-- A name is taken at a place if one of the earlier declarations has it and reaches that far. Places
are counted in declarations. -/
def Taken (earlier : List Site) (place : Nat) (name : String) : Prop :=
  ∃ index < earlier.length, ∃ site ∈ earlier[index]?,
    site.name.name = name ∧ place ≤ index + site.reach

instance (earlier : List Site) (place : Nat) (name : String) :
    Decidable (Taken earlier place name) :=
  inferInstanceAs (Decidable (∃ index < earlier.length, ∃ site ∈ earlier[index]?,
    site.name.name = name ∧ place ≤ index + site.reach))

def siteDiagnostics (known : String → Bool) (filePath : Option String) (earlier : List Site) :
    List Site → List Diagnostic
  | [] => []
  | site :: rest =>
    Checker.typeDiagnostics known filePath site.type ++
    (if Taken earlier earlier.length site.name.name then
      [⟨.duplicateVariable site.name.name, site.name.span, filePath⟩]
    else []) ++
    siteDiagnostics known filePath (earlier ++ [site]) rest

def FunctionDecl.scopingDiagnostics (function : FunctionDecl) (known : String → Bool)
    (filePath : Option String) : List Diagnostic :=
  siteDiagnostics known filePath [] function.sites ++
  if function.body.everything.any Statement.isReturn then []
  else [⟨.functionHasNoReturn function.identifier.name, function.span, filePath⟩]

/-! ## Scopes end with their blocks -/

def ReachWithin (sites : List Site) (after : Nat) : Prop :=
  ∀ index site, sites[index]? = some site → index + site.reach < sites.length + after

theorem ReachWithin.append {first second : List Site} {after : Nat}
    (left : ReachWithin first (second.length + after)) (right : ReachWithin second after) :
    ReachWithin (first ++ second) after := by
  intro index site at_index
  rw [List.length_append]
  by_cases inside : index < first.length
  · rw [List.getElem?_append_left inside] at at_index
    have := left index site at_index
    omega
  · rw [List.getElem?_append_right (Nat.le_of_not_lt inside)] at at_index
    have := right _ site at_index
    omega

theorem ReachWithin.mono {sites : List Site} {after more : Nat} (within : ReachWithin sites after)
    (le : after ≤ more) : ReachWithin sites more :=
  fun index site at_index => Nat.lt_of_lt_of_le (within index site at_index) (by omega)

theorem ReachWithin.cons {site : Site} {rest : List Site} {after : Nat}
    (first : site.reach ≤ rest.length + after) (others : ReachWithin rest after) :
    ReachWithin (site :: rest) after := by
  intro index other at_index
  cases index with
  | zero =>
    cases at_index
    simp only [List.length_cons]
    omega
  | succ index =>
    have := others index other at_index
    simp only [List.length_cons]
    omega

theorem reachWithin_nil (after : Nat) : ReachWithin [] after := by
  intro index site at_index
  cases at_index

mutual

theorem reachWithin_statement (statement : Statement) (after : Nat) :
    ReachWithin (statement.sites after) after := by
  cases statement with
  | binding binding => exact (reachWithin_nil after).cons (by simp)
  | loop head body span =>
    rw [Statement.sites]
    exact ((reachWithin_block body).mono (Nat.zero_le after)).cons (by simp)
  | conditional conditional =>
    exact (reachWithin_conditional conditional).mono (Nat.zero_le after)
  | block block => exact (reachWithin_block block).mono (Nat.zero_le after)
  | ret expression span => exact reachWithin_nil after
  | assign op place value span => exact reachWithin_nil after
  | console function arguments span => exact reachWithin_nil after
  | expression expression span => exact reachWithin_nil after

theorem reachWithin_statements (statements : List Statement) :
    ReachWithin (Statement.sitesOfAll statements) 0 := by
  cases statements with
  | nil => exact reachWithin_nil 0
  | cons first rest =>
    exact (reachWithin_statement first _).append (reachWithin_statements rest)

theorem reachWithin_block (block : Block) : ReachWithin block.sites 0 := by
  cases block with
  | mk statements span => exact reachWithin_statements statements

theorem reachWithin_conditional (conditional : Conditional) :
    ReachWithin conditional.sites 0 := by
  cases conditional with
  | mk condition body otherwise span =>
    exact ((reachWithin_block body).mono (Nat.zero_le _)).append (reachWithin_otherwise otherwise)

theorem reachWithin_otherwise (otherwise : Otherwise) : ReachWithin otherwise.sites 0 := by
  cases otherwise with
  | nothing => exact reachWithin_nil 0
  | block block => exact reachWithin_block block
  | chain conditional => exact reachWithin_conditional conditional

end

theorem taken_append {earlier new : List Site} {place : Nat} {name : String} :
    Taken (earlier ++ new) place name ↔ Taken earlier place name ∨
      ∃ index site, new[index]? = some site ∧ site.name.name = name ∧
        place ≤ earlier.length + index + site.reach := by
  constructor
  · rintro ⟨index, inside, site, at_index, same, reaches⟩
    rw [Option.mem_def] at at_index
    by_cases before : index < earlier.length
    · rw [List.getElem?_append_left before] at at_index
      exact .inl ⟨index, before, site, at_index, same, reaches⟩
    · rw [List.getElem?_append_right (Nat.le_of_not_lt before)] at at_index
      exact .inr ⟨_, site, at_index, same, by omega⟩
  · rintro (⟨index, inside, site, at_index, same, reaches⟩ | ⟨index, site, at_index, same, reaches⟩)
    · refine ⟨index, by simp; omega, site, ?_, same, reaches⟩
      rw [Option.mem_def, List.getElem?_append_left inside]
      exact at_index
    · obtain ⟨inside, -⟩ := List.getElem?_eq_some_iff.mp at_index
      refine ⟨earlier.length + index, by simp; omega, site, ?_, same, reaches⟩
      rw [Option.mem_def, List.getElem?_append_right (Nat.le_add_right _ _), Nat.add_sub_cancel_left]
      exact at_index

theorem taken_append_of_reachWithin {earlier new : List Site} {name : String} (gap : Nat)
    (within : ReachWithin new 0) :
    Taken (earlier ++ new) ((earlier ++ new).length + gap) name ↔
      Taken earlier (earlier.length + (new.length + gap)) name := by
  rw [taken_append, List.length_append, Nat.add_assoc]
  refine or_iff_left ?_
  -- a new declaration would have to reach past the end of the block
  rintro ⟨index, site, at_index, -, reaches⟩
  have := within index site at_index
  omega

theorem siteDiagnostics_append (known : String → Bool) (filePath : Option String)
    (earlier first second : List Site) :
    siteDiagnostics known filePath earlier (first ++ second) =
      siteDiagnostics known filePath earlier first ++
        siteDiagnostics known filePath (earlier ++ first) second := by
  induction first generalizing earlier with
  | nil => simp [siteDiagnostics]
  | cons site rest ih => simp [siteDiagnostics, ih]

section
variable {known : String → Bool} {filePath : Option String} {diagnostic : Diagnostic}

inductive Site.Reports (known : String → Bool) (filePath : Option String) (site : Site) :
    Diagnostic → Prop
  | unknown {identifier : Identifier} (written : site.type = some (.named identifier))
      (isUnknown : known identifier.name = false) :
      Reports known filePath site
        ⟨.unknownSymbol "circuit" identifier.name, identifier.span, filePath⟩
  | taken : Reports known filePath site
      ⟨.duplicateVariable site.name.name, site.name.span, filePath⟩

theorem of_mem_siteDiagnostics {earlier sites : List Site}
    (reported : diagnostic ∈ siteDiagnostics known filePath earlier sites) :
    ∃ site ∈ sites, site.Reports known filePath diagnostic := by
  induction sites generalizing earlier with
  | nil => cases reported
  | cons site rest ih =>
    rw [siteDiagnostics, List.mem_append, List.mem_append] at reported
    rcases reported with (type | clash) | later
    · unfold Checker.typeDiagnostics at type
      split at type
      · rename_i identifier written
        split at type
        · cases type
        · rename_i isUnknown
          cases List.mem_singleton.mp type
          exact ⟨site, List.mem_cons_self, .unknown written (eq_false_of_ne_true isUnknown)⟩
      · cases type
    · split at clash
      · cases List.mem_singleton.mp clash
        exact ⟨site, List.mem_cons_self, .taken⟩
      · cases clash
    · obtain ⟨site, member, reports⟩ := ih later
      exact ⟨site, List.mem_cons_of_mem _ member, reports⟩

theorem mem_siteDiagnostics_of_unknown {earlier sites : List Site} {site : Site}
    {identifier : Identifier} (member : site ∈ sites)
    (written : site.type = some (.named identifier)) (isUnknown : known identifier.name = false) :
    ⟨.unknownSymbol "circuit" identifier.name, identifier.span, filePath⟩ ∈
      siteDiagnostics known filePath earlier sites := by
  induction sites generalizing earlier with
  | nil => cases member
  | cons first rest ih =>
    rw [siteDiagnostics, List.mem_append, List.mem_append]
    rcases List.mem_cons.mp member with rfl | later
    · refine .inl (.inl ?_)
      rw [written, Checker.typeDiagnostics, isUnknown]
      exact List.mem_singleton_self _
    · exact .inr (ih later)

theorem FunctionDecl.of_mem_scopingDiagnostics {function : FunctionDecl}
    (reported : diagnostic ∈ function.scopingDiagnostics known filePath) :
    (∃ site ∈ function.sites, site.Reports known filePath diagnostic) ∨
      diagnostic = ⟨.functionHasNoReturn function.identifier.name, function.span, filePath⟩ := by
  rcases List.mem_append.mp reported with scoping | returning
  · exact .inl (of_mem_siteDiagnostics scoping)
  · split at returning
    · cases returning
    · exact .inr (List.mem_singleton.mp returning)

end

/-! ## The scope stack knows which names are taken -/

def Sees (table : SymbolTable) (earlier : List Site) (count : Nat) : Prop :=
  ∀ gap < count, ∀ name,
    (table.lookupVariable name).isSome = true ↔ Taken earlier (earlier.length + gap) name

theorem Sees.mono {table : SymbolTable} {earlier : List Site} {count fewer : Nat}
    (sees : Sees table earlier count) (le : fewer ≤ count) : Sees table earlier fewer :=
  fun gap lt => sees gap (Nat.lt_of_lt_of_le lt le)

theorem Sees.enterScope {table : SymbolTable} {earlier : List Site} {count : Nat}
    (sees : Sees table earlier count) : Sees table.enterScope earlier count := by
  intro gap lt name
  rw [SymbolTable.lookupVariable_enterScope]
  exact sees gap lt name

theorem Sees.after {table : SymbolTable} {earlier new : List Site} {after : Nat}
    (sees : Sees table earlier (new.length + after)) (within : ReachWithin new 0) :
    Sees table (earlier ++ new) after := by
  intro gap lt name
  rw [taken_append_of_reachWithin gap within]
  exact sees (new.length + gap) (by omega) name

theorem Sees.taken_snoc {table : SymbolTable} {earlier : List Site} {site : Site}
    (sees : Sees table earlier (1 + site.reach)) {gap : Nat} (within : gap < site.reach)
    (name : String) : Taken (earlier ++ [site]) ((earlier ++ [site]).length + gap) name ↔
      site.name.name = name ∨ (table.lookupVariable name).isSome = true := by
  rw [taken_append, sees (1 + gap) (by omega) name, List.length_append, List.length_singleton,
    Nat.add_assoc, or_comm]
  refine or_congr_left ⟨?_, ?_⟩
  · rintro ⟨index, other, at_index, same, -⟩
    rw [List.getElem?_singleton] at at_index
    split at at_index
    · cases at_index
      exact same
    · cases at_index
  · intro same
    exact ⟨0, site, rfl, same, by omega⟩

namespace Checker
variable {σ : Type}

theorem declare_site (checker : Checker σ) {earlier : List Site} (site : Site)
    (declared : Variable) (span : declared.span = site.name.span)
    (sees : Sees checker.symbols earlier (1 + site.reach)) :
    (checker.declare site.name.name declared).handler = (checker.emitAll
      (if Taken earlier earlier.length site.name.name then
        [⟨.duplicateVariable site.name.name, site.name.span, checker.filePath⟩] else [])).handler ∧
    Sees (checker.declare site.name.name declared).symbols (earlier ++ [site]) site.reach := by
  have here := sees 0 (by omega) site.name.name
  by_cases taken : Taken earlier earlier.length site.name.name
  -- a refused name is visible through the declaration that took it
  · have found := here.mpr taken
    rw [declare_refused declared found, if_pos taken, span]
    refine ⟨rfl, fun gap lt name => ?_⟩
    rw [sees.taken_snoc lt name, emitAll_symbols]
    refine ⟨.inr, ?_⟩
    rintro (rfl | seen)
    · exact found
    · exact seen
  · have free : checker.symbols.lookupVariable site.name.name = none := by
      rw [← Option.not_isSome_iff_eq_none, here]
      exact taken
    rw [declare_accepted declared free, if_neg taken]
    refine ⟨rfl, fun gap lt name => ?_⟩
    rw [sees.taken_snoc lt name]
    simp only [SymbolTable.lookupVariable_insert]
    by_cases same : site.name.name = name
    · simp [same]
    · simp [same]

/-! ## Visits report what the source shows -/

def Reported (before after : Checker σ) (earlier new : List Site) : Prop :=
  after.handler = (before.emitAll
    (siteDiagnostics before.symbols.hasCircuit before.filePath earlier new)).handler

theorem reported_nil (checker : Checker σ) (earlier : List Site) :
    Reported checker checker earlier [] := rfl

theorem Reported.trans {first second third : Checker σ} {earlier new newer : List Site}
    (frame : Frame first second) (left : Reported first second earlier new)
    (right : Reported second third (earlier ++ new) newer) :
    Reported first third earlier (new ++ newer) := by
  have circuits : second.symbols.hasCircuit = first.symbols.hasCircuit := by
    funext name
    simp only [SymbolTable.hasCircuit, frame.circuits]
  unfold Reported at left right ⊢
  rw [right, siteDiagnostics_append, circuits, frame.filePath]
  simp only [emitAll_handler, List.foldl_append, left]

theorem reported_site (checker : Checker σ) {earlier : List Site} (site : Site)
    (declared : Variable) (span : declared.span = site.name.span)
    (sees : Sees checker.symbols earlier (1 + site.reach)) :
    Reported checker ((checker.checkType? site.type).declare site.name.name declared)
      earlier [site] ∧
    Sees ((checker.checkType? site.type).declare site.name.name declared).symbols
      (earlier ++ [site]) site.reach := by
  rw [checkType?_eq]
  obtain ⟨handler, seen⟩ := declare_site (checker.emitAll _) site declared span sees
  refine ⟨?_, seen⟩
  unfold Reported
  rw [handler]
  simp only [siteDiagnostics, List.append_nil, emitAll_handler, emitAll_filePath, List.foldl_append]

mutual

theorem visitStatement_reported (statement : Statement) (checker : Checker σ) (earlier : List Site)
    (after : Nat) (sees : Sees checker.symbols earlier ((statement.sites after).length + after)) :
    Reported checker (visitStatement statement checker) earlier (statement.sites after) ∧
      Sees (visitStatement statement checker).symbols (earlier ++ statement.sites after) after := by
  cases statement with
  | binding binding =>
    exact reported_site checker ⟨binding.name, binding.type, after⟩ (bindingVariable binding) rfl
      sees
  | loop head body span =>
    let site : Site := ⟨head.name, some head.type, body.sites.length⟩
    let declared : Variable := ⟨head.type, head.name.span, .constant⟩
    have opened : (checker.checkType head.type).enterScope =
        checker.enterScope.checkType? (some head.type) := by
      rw [checkType_eq, checkType?_eq]
      rfl
    have frame : Frame checker.enterScope
        ((checker.enterScope.checkType? site.type).declare site.name.name declared) := by
      rw [checkType?_eq]
      exact (frame_emitAll _ _).trans (frame_declare _ _ _)
    obtain ⟨reported, seen⟩ := reported_site checker.enterScope site declared rfl
      (sees.enterScope.mono (by simp [site, Statement.sites]; omega))
    have inside := reported.trans frame (visitBlock_reported body _ (earlier ++ [site]) seen)
    rw [visitStatement, opened]
    refine ⟨inside, ?_⟩
    rw [(frame.trans (frame_visitBlock body _)).exitScope_symbols]
    exact sees.after (reachWithin_statement (.loop head body span) 0)
  | conditional conditional =>
    have inside := sees.mono (show conditional.sites.length ≤ _ by simp [Statement.sites])
    refine ⟨visitConditional_reported conditional checker earlier inside, ?_⟩
    rw [visitStatement, visitConditional_symbols]
    exact sees.after (reachWithin_conditional conditional)
  | block block =>
    refine ⟨visitBlock_reported block checker earlier (sees.mono (by simp [Statement.sites])), ?_⟩
    rw [visitStatement, visitBlock_symbols]
    exact sees.after (reachWithin_block block)
  | ret expression span => exact ⟨rfl, sees.after (reachWithin_nil 0)⟩
  | assign op place value span => exact ⟨rfl, sees.after (reachWithin_nil 0)⟩
  | console function arguments span => exact ⟨rfl, sees.after (reachWithin_nil 0)⟩
  | expression expression span => exact ⟨rfl, sees.after (reachWithin_nil 0)⟩

theorem visitStatements_reported (statements : List Statement) (checker : Checker σ)
    (earlier : List Site)
    (sees : Sees checker.symbols earlier (Statement.sitesOfAll statements).length) :
    Reported checker (visitStatements statements checker) earlier
      (Statement.sitesOfAll statements) := by
  cases statements with
  | nil => exact reported_nil checker earlier
  | cons first rest =>
    rw [Statement.sitesOfAll, List.length_append] at sees
    obtain ⟨reported, seen⟩ := visitStatement_reported first checker earlier _ sees
    exact reported.trans (frame_visitStatement first checker)
      (visitStatements_reported rest _ _ seen)

theorem visitBlock_reported (block : Block) (checker : Checker σ) (earlier : List Site)
    (sees : Sees checker.symbols earlier block.sites.length) :
    Reported checker (visitBlock block checker) earlier block.sites := by
  cases block with
  | mk statements span =>
    exact visitStatements_reported statements checker.enterScope earlier sees.enterScope

theorem visitConditional_reported (conditional : Conditional) (checker : Checker σ)
    (earlier : List Site) (sees : Sees checker.symbols earlier conditional.sites.length) :
    Reported checker (visitConditional conditional checker) earlier conditional.sites := by
  cases conditional with
  | mk condition body otherwise span =>
    rw [Conditional.sites, List.length_append] at sees
    have seen : Sees (visitBlock body checker).symbols (earlier ++ body.sites)
        otherwise.sites.length := by
      rw [visitBlock_symbols]
      exact sees.after (reachWithin_block body)
    exact (visitBlock_reported body checker earlier (sees.mono (Nat.le_add_right _ _))).trans
      (frame_visitBlock body checker) (visitOtherwise_reported otherwise _ _ seen)

theorem visitOtherwise_reported (otherwise : Otherwise) (checker : Checker σ)
    (earlier : List Site) (sees : Sees checker.symbols earlier otherwise.sites.length) :
    Reported checker (visitOtherwise otherwise checker) earlier otherwise.sites := by
  cases otherwise with
  | nothing => exact reported_nil checker earlier
  | block block => exact visitBlock_reported block checker earlier sees
  | chain conditional => exact visitConditional_reported conditional checker earlier sees

end

/-! ## Returns -/

mutual

theorem visitStatement_hasReturn (statement : Statement) (checker : Checker σ) :
    (visitStatement statement checker).hasReturn =
      (checker.hasReturn || statement.everything.any Statement.isReturn) := by
  cases statement with
  | ret expression span => simp [visitStatement, Statement.everything, Statement.isReturn]
  | binding binding =>
    rw [visitStatement, declare_hasReturn, checkType?_eq, emitAll_hasReturn]
    simp [Statement.everything, Statement.isReturn]
  | assign op place value span =>
    simp [visitStatement, Statement.everything, Statement.isReturn]
  | conditional conditional =>
    rw [visitStatement, visitConditional_hasReturn]
    simp [Statement.everything, Statement.isReturn]
  | loop head body span =>
    rw [visitStatement, exitScope_hasReturn, visitBlock_hasReturn, declare_hasReturn, checkType_eq]
    simp [Statement.everything, Statement.isReturn, enterScope]
  | console function arguments span =>
    simp [visitStatement, Statement.everything, Statement.isReturn]
  | expression expression span =>
    simp [visitStatement, Statement.everything, Statement.isReturn]
  | block block =>
    rw [visitStatement, visitBlock_hasReturn]
    simp [Statement.everything, Statement.isReturn]

theorem visitStatements_hasReturn (statements : List Statement) (checker : Checker σ) :
    (visitStatements statements checker).hasReturn =
      (checker.hasReturn || (Statement.everythingOfAll statements).any Statement.isReturn) := by
  cases statements with
  | nil => simp [visitStatements, Statement.everythingOfAll]
  | cons first rest =>
    rw [visitStatements, visitStatements_hasReturn rest, visitStatement_hasReturn first,
      Statement.everythingOfAll, List.any_append, Bool.or_assoc]

theorem visitBlock_hasReturn (block : Block) (checker : Checker σ) :
    (visitBlock block checker).hasReturn =
      (checker.hasReturn || block.everything.any Statement.isReturn) := by
  cases block with
  | mk statements span => exact visitStatements_hasReturn statements checker.enterScope

theorem visitConditional_hasReturn (conditional : Conditional) (checker : Checker σ) :
    (visitConditional conditional checker).hasReturn =
      (checker.hasReturn || conditional.everything.any Statement.isReturn) := by
  cases conditional with
  | mk condition body otherwise span =>
    rw [visitConditional, visitOtherwise_hasReturn otherwise, visitBlock_hasReturn body,
      Conditional.everything, List.any_append, Bool.or_assoc]

theorem visitOtherwise_hasReturn (otherwise : Otherwise) (checker : Checker σ) :
    (visitOtherwise otherwise checker).hasReturn =
      (checker.hasReturn || otherwise.everything.any Statement.isReturn) := by
  cases otherwise with
  | nothing => simp [visitOtherwise, Otherwise.everything]
  | block block => exact visitBlock_hasReturn block checker
  | chain conditional => exact visitConditional_hasReturn conditional checker

end

/-! ## Functions -/

theorem visitInputs_reported (inputs : List Input) (body : Nat) (checker : Checker σ)
    (earlier : List Site) (sees : Sees checker.symbols earlier (inputs.length + body)) :
    Frame checker (inputs.foldl visitInput checker) ∧
      Reported checker (inputs.foldl visitInput checker) earlier (Input.sites body inputs) ∧
      Sees (inputs.foldl visitInput checker).symbols (earlier ++ Input.sites body inputs) body := by
  induction inputs generalizing checker earlier with
  | nil => exact ⟨Frame.refl checker, reported_nil checker earlier, sees.after (reachWithin_nil 0)⟩
  | cons input rest ih =>
    let site : Site := ⟨input.identifier, some input.type, rest.length + body⟩
    obtain ⟨reported, seen⟩ := reported_site checker site
      ⟨input.type, input.identifier.span, .input input.mode⟩ rfl
      (sees.mono (by simp [site]; omega))
    have frame : Frame checker (visitInput checker input) := by
      rw [visitInput, checkType_eq]
      exact (frame_emitAll _ _).trans (frame_declare _ _ _)
    obtain ⟨restFrame, restReported, restSeen⟩ := ih (visitInput checker input) _ seen
    refine ⟨frame.trans restFrame, reported.trans frame restReported, ?_⟩
    rw [List.append_assoc] at restSeen
    exact restSeen

theorem visitInputs_hasReturn (inputs : List Input) (checker : Checker σ) :
    (inputs.foldl visitInput checker).hasReturn = checker.hasReturn := by
  induction inputs generalizing checker with
  | nil => rfl
  | cons input rest ih =>
    rw [List.foldl_cons, ih, visitInput, declare_hasReturn, checkType_eq, emitAll_hasReturn]

theorem visitFunction_handler (function : FunctionDecl) (checker : Checker σ) :
    (visitFunction function checker).handler = (checker.emitAll (function.scopingDiagnostics
      checker.symbols.hasCircuit checker.filePath)).handler := by
  let fresh : Checker σ := { checker with
    hasReturn := false
    symbols := checker.symbols.clearVariables
    parent := some function.identifier.name }
  let visited := visitBlock function.body (function.inputs.foldl visitInput fresh)
  have sees : Sees fresh.symbols [] (function.inputs.length + function.body.sites.length) := by
    intro gap lt name
    simp [fresh, Taken]
  obtain ⟨frame, reported, seen⟩ := visitInputs_reported function.inputs _ fresh [] sees
  have all : Reported fresh visited [] function.sites :=
    reported.trans frame (visitBlock_reported function.body _ _ seen)
  have returned : visited.hasReturn = function.body.everything.any Statement.isReturn := by
    simp only [visited, visitBlock_hasReturn, visitInputs_hasReturn, fresh, Bool.false_or]
  have labels : visited.filePath = checker.filePath :=
    (frame.trans (frame_visitBlock function.body _)).filePath
  have unfolded : visitFunction function checker =
      if visited.hasReturn then visited
      else visited.report (.functionHasNoReturn function.identifier.name) function.span := rfl
  rw [unfolded, returned, FunctionDecl.scopingDiagnostics, emitAll_handler, List.foldl_append]
  split
  · exact all
  · rw [report, labels, all]
    rfl

/-- The checker emits, in source order, an unknown type for every written type that names no known
circuit and a clash for every declaration whose name is taken, and at the end the missing `return`. -/
theorem visitFunction_errors (function : FunctionDecl) (checker : Checker σ) :
    (visitFunction function checker).handler.errors = checker.handler.errors ++
      function.scopingDiagnostics checker.symbols.hasCircuit checker.filePath := by
  rw [visitFunction_handler, emitAll_errors]

end Checker

end LeoFront
