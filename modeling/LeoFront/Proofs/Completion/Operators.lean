import LeoFront.Proofs.Completion.Lists
import LeoFront.Proofs.RoundTrip.Operators

namespace LeoFront.Grammar
open LeoFront.Parser
variable {C : Comparison} {level : Nat} {text rest : List Char}

def Stops (level : Nat) (text : List Char) : Prop :=
  (∀ inner, Rejects (suffix inner) text) ∧
    ∀ tighter, level ≤ tighter → tighter ≤ 5 → Rejects (operatorAt tighter) text

theorem Stops.mono {tighter : Nat} (stops : Stops level text) (le : level ≤ tighter) :
    Stops tighter text :=
  ⟨stops.1, fun other le' => stops.2 other (Nat.le_trans le le')⟩

theorem rejects_suffix_dots (inner : Parser Expression) (rest : List Char) :
    Rejects (suffix inner) ('.' :: '.' :: rest) := by
  have noCall : Rejects (literal "(") ('.' :: '.' :: rest) := fun _ => rfl
  have dot : Accepts (literal ".") ('.' :: '.' :: rest) (fun _ => True) ('.' :: rest) :=
    accepts_text "." ('.' :: rest)
  have noName : Rejects identifier ('.' :: rest) := fun _ => rfl
  have bare : blankRun ('.' :: rest) = 0 := blankRun_visible rfl (by decide)
  have noMember : Rejects (do
      blanks
      let member ← identifier
      return fun span : Span => (Suffix.access member, span.stop)) ('.' :: rest) := by
    intro position
    rw [blanks_bind, bare]
    exact noName.bind _
  exact .or noCall.bind.spanned (.or (dot.bind_rejects fun _ _ => noMember).spanned fun _ => rfl)

theorem stops_closer {closer : String} (member : closer ∈ closers) (other : closer ≠ "=")
    (rest : List Char) : Stops 0 (closer.toList ++ rest) := by
  simp only [closers, List.mem_cons, List.not_mem_nil, or_false] at member
  constructor
  · rcases member with rfl | rfl | rfl | rfl | rfl | rfl | rfl | rfl | rfl | rfl
    case inr.inr.inr.inr.inl => exact fun inner => rejects_suffix_dots inner rest
    all_goals exact fun _ _ => rfl
  · intro tighter _ _ position
    rcases member with rfl | rfl | rfl | rfl | rfl | rfl | rfl | rfl | rfl | rfl
    case inr.inr.inr.inr.inr.inl => exact absurd rfl other
    all_goals rcases tighter with _ | _ | _ | _ | _ | tighter <;> rfl

theorem stops_equals (alone : rest.head? ≠ some '=') : Stops 0 ('=' :: rest) := by
  refine ⟨fun _ _ => rfl, fun tighter _ _ position => ?_⟩
  have noOperator : (literal "==" ⟨'=' :: rest, position⟩).result = none := by
    refine literal_none ?_
    rintro ⟨behind, same⟩
    obtain rfl := (List.cons.inj same).2
    exact alone rfl
  rcases tighter with _ | _ | _ | _ | _ | tighter
  case succ.succ.zero =>
    refine (result_or _ _ _).trans ?_
    rw [bind_fails noOperator]
    rfl
  all_goals rfl

theorem operator_text (below : level ≤ 5) {position : Position} {op : BinaryOp}
    (taken : Takes (operatorAt level) position text op rest) :
    op.level = level ∧ text = op.text.toList := by
  have spelled (choices : List (String × BinaryOp)) (taken : Takes (oneText choices) position text op rest)
      (known : ∀ choice ∈ choices, choice.2.level = level ∧ choice.1 = choice.2.text) :
      op.level = level ∧ text = op.text.toList := by
    obtain ⟨choice, member, rfl, rfl⟩ := takes_oneText taken
    obtain ⟨same, spelled⟩ := known choice member
    exact ⟨same, by rw [spelled]⟩
  rcases level with _ | _ | _ | _ | _ | _ | level
  · exact spelled _ taken (by decide)
  · exact spelled _ taken (by decide)
  · exact spelled _ taken (by decide)
  · exact spelled _ taken (by decide)
  · rcases or_some taken with plus | taken
    · obtain ⟨_, _, here, read⟩ := bind_some.mp plus
      obtain ⟨_, _, guarded, read⟩ := bind_some.mp read
      cases read
      have written := literal_rest here
      rw [guardRest_rest guarded] at written
      exact ⟨rfl, List.append_cancel_right written⟩
    rcases or_some taken with minus | none
    · obtain ⟨_, _, here, read⟩ := bind_some.mp minus
      obtain ⟨_, _, guarded, read⟩ := bind_some.mp read
      obtain ⟨_, _, guarded', read⟩ := bind_some.mp read
      cases read
      have written := literal_rest here
      rw [guardRest_rest guarded, guardRest_rest guarded'] at written
      exact ⟨rfl, List.append_cancel_right written⟩
    · cases none
  · obtain ⟨op, _, here, read⟩ := bind_some.mp taken
    obtain ⟨_, _, guarded, read⟩ := bind_some.mp read
    cases read
    obtain ⟨choice, member, rfl, written⟩ := oneText_rest here
    rw [guardRest_rest guarded] at written
    have known : ∀ choice ∈ [("*", BinaryOp.mul), ("/", .div)],
        choice.2.level = 5 ∧ choice.1 = choice.2.text := by decide
    obtain ⟨same, spelled⟩ := known choice member
    exact ⟨same, by rw [← spelled]; exact List.append_cancel_right written⟩
  · omega

theorem stops_operator (op : BinaryOp) (rest : List Char) :
    Stops (op.level + 1) (op.text.toList ++ rest) := by
  refine ⟨?_, fun tighter le top position => ?_⟩
  · cases op <;> exact fun _ _ => rfl
  · rcases tighter with _ | _ | _ | _ | _ | _ | tighter <;> cases op <;>
      first
        | rfl
        | (simp [BinaryOp.level] at le; done)
        | omega

theorem takes_operator (op : BinaryOp) {position : Position}
    (apart : ∀ c ∈ rest.head?, c ≠ '=' ∧ c ≠ '>') :
    Takes (operatorAt op.level) position op.text.toList op rest := by
  have longer {text : String} (begun : List Char) (same : text.toList = begun ++ ['=']) :
      (literal text ⟨begun ++ rest, position⟩).result = none := by
    refine literal_none fun begins => ?_
    rw [same, List.prefix_append_right_inj] at begins
    obtain ⟨behind, rfl⟩ := begins
    exact (apart '=' rfl).1 rfl
  have guarded {text : String} {c : Char} (single : text.toList = [c]) (position : Position)
      (other : c = '=' ∨ c = '>') : Takes (notBefore text) position [] () rest := by
    refine takes_guardRest ?_
    cases rest with
    | nil => simp [single]
    | cons c rest =>
      have := apart c rfl
      simp [single]
      grind
  have noEquals (position : Position) : Takes (notBefore "=") position [] () rest :=
    guarded rfl position (.inl rfl)
  cases op
  case lt =>
    exact .or_right (bind_fails (longer ['<'] rfl)) (.or_right rfl
      (.or_left ((takes_literal "<" position rest).ended takes_pure)))
  case gt =>
    exact .or_right rfl (.or_right (bind_fails (longer ['>'] rfl)) (.or_right rfl
      (.or_left ((takes_literal ">" position rest).ended takes_pure))))
  case add =>
    exact .or_left ((takes_literal "+" position rest).ended ((noEquals _).ended takes_pure))
  case sub =>
    exact .or_right rfl (.or_left ((takes_literal "-" position rest).ended
      ((noEquals _).ended ((guarded rfl _ (.inr rfl)).ended takes_pure))))
  case mul =>
    have times : Takes (oneText [("*", BinaryOp.mul), ("/", .div)]) position "*".toList .mul rest :=
      .or_left ((takes_literal "*" position rest).ended takes_pure)
    exact times.ended ((noEquals _).ended takes_pure)
  case div =>
    have divides : Takes (oneText [("*", BinaryOp.mul), ("/", .div)]) position "/".toList .div rest :=
      .or_right rfl (.or_left ((takes_literal "/" position rest).ended takes_pure))
    exact divides.ended ((noEquals _).ended takes_pure)
  all_goals rfl

instance advances_operatorAt (level : Nat) : Advances (operatorAt level) := by
  rcases level with _ | _ | _ | _ | _ | level
  case succ.succ.succ.succ.zero => exact advances_additiveOperator
  case succ.succ.succ.succ.succ => exact advances_multiplicativeOperator
  all_goals exact advances_oneText _

theorem consumes_operatorAt (level : Nat) : Consumes (operatorAt level) := by
  rcases level with _ | _ | _ | _ | _ | level
  case succ.succ.succ.succ.zero => exact consumes_additiveOperator
  case succ.succ.succ.succ.succ => exact consumes_multiplicativeOperator
  all_goals exact consumes_oneText (by decide)

theorem silent_notBefore {α : Type} {text : String} {next : Unit → Parser α}
    (silent : ∀ value cursor, (next value cursor).furthest = .none) (_ : Unit) (cursor : Cursor) :
    ((notBefore text >>= next) cursor).furthest = .none := by
  unfold notBefore
  rw [guardRest_bind]
  split
  · exact silent () cursor
  · rfl

theorem failsAtStart_operatorAt (level : Nat) : FailsAtStart (operatorAt level) := by
  rcases level with _ | _ | _ | _ | _ | level
  case succ.succ.succ.succ.zero =>
    refine .or (failsAtStart_literal.bind fun _ => silent_notBefore (fun _ _ => rfl) ())
      (.or (failsAtStart_literal.bind fun _ => silent_notBefore
        (silent_notBefore fun _ _ => rfl) ()) .fail)
  case succ.succ.succ.succ.succ =>
    exact failsAtStart_oneText.bind fun _ => silent_notBefore (fun _ _ => rfl) ()
  all_goals exact failsAtStart_oneText

def Opens (text : List Char) : Prop := ∃ c ∈ text.head?, Calm c

theorem head_before {heads : Char → Prop} (opens : ∃ c ∈ (rest.drop (blankRun rest)).head?, heads c) :
    ∀ c ∈ rest.head?, isBlank c = true ∨ c = '/' ∨ heads c := by
  intro c head
  by_cases skips : blankRun rest = 0
  · rw [skips] at opens
    obtain ⟨_, head', known⟩ := opens
    rw [Option.mem_unique head head']
    exact .inr (.inr known)
  · exact (head_of_blankRun skips c head).imp id .inl

theorem bare_operator {rest' : List Char} (op : BinaryOp)
    (bare : blankRun (op.text.toList ++ rest) = 0) (like : BeginsLike rest rest')
    (opens : Opens (rest'.drop (blankRun rest'))) : blankRun (op.text.toList ++ rest') = 0 := by
  by_cases visible : Place.Visible op.text.toList
  · exact visible.bare rest'
  -- only the slash can begin a comment, with what comes behind it
  obtain rfl : op = .div := by
    cases op
    case div => rfl
    all_goals exact absurd (by decide) visible
  refine blankRun_bare rfl fun _ => ⟨fun slash => ?_, fun star => ?_⟩
  · rcases like with same | blank
    · obtain ⟨rest, rfl⟩ := List.head?_eq_some_iff.mp (same.symm.trans slash)
      change blankRun ('/' :: '/' :: rest) = 0 at bare
      rw [blankRun.eq_1] at bare
      omega
    · exact absurd (blank _ slash) (by decide)
  · have known := head_before opens '*' star
    revert known
    decide

theorem sampled_operatorAt (op : BinaryOp) (visible : Place.Visible op.text.toList) :
    Sampled C (.solid (Stops (op.level + 1))) op.text.toList (operatorAt op.level)
      (operatorAt op.level) (· = ·) (.loose Opens) := by
  have apart {rest : List Char} (opens : Opens (rest.drop (blankRun rest))) :
      ∀ c ∈ rest.head?, c ≠ '=' ∧ c ≠ '>' := by
    intro c head
    have known := head_before opens c head
    constructor <;>
      · rintro rfl
        revert known
        decide
  refine sampled_leaf Place.behind_loose (failsAtStart_operatorAt op.level) ?_
    (Place.leads_solid visible fun rest _ => stops_operator op rest)
    fun position rest fresh => ⟨op, takes_operator op (apart fresh.1)⟩
  intro position text op' rest bare taken position' rest' related
  have below : op.level ≤ 5 := by cases op <;> decide
  obtain ⟨same, rfl⟩ := operator_text below taken
  obtain ⟨opens, like⟩ := related
  have nonempty : op'.text.toList ≠ [] := by cases op' <;> decide
  refine ⟨⟨⟨bare_operator op' bare like opens, ?_⟩, ?_⟩, ?_⟩
  · rw [← same]
    exact stops_operator op' rest'
  · rw [List.head?_append_of_ne_nil _ nonempty, List.head?_append_of_ne_nil _ nonempty]
  · rw [← same]
    exact takes_operator op' (apart opens)

instance : Nonempty BinaryOp := ⟨.or⟩

instance : Nonempty Expression := ⟨.var "" .none⟩

theorem exists_operator (below : level ≤ 5) :
    ∃ op : BinaryOp, op.level = level ∧ Place.Visible op.text.toList := by
  rcases level with _ | _ | _ | _ | _ | _ | level
  · exact ⟨.or, rfl, by decide⟩
  · exact ⟨.and, rfl, by decide⟩
  · exact ⟨.eq, rfl, by decide⟩
  · exact ⟨.lt, rfl, by decide⟩
  · exact ⟨.add, rfl, by decide⟩
  · exact ⟨.mul, rfl, by decide⟩
  · omega

def joined (operand : Parser Expression) (level : Nat) : Parser (BinaryOp × Expression) := do
  blanks
  let op ← operatorAt level
  blanks
  let right ← operand
  return (op, right)

def joinAll (first : Expression) (rest : List (BinaryOp × Expression)) : Expression :=
  rest.foldl (fun left next => .binary next.1 left next.2 (left.span.through next.2.span)) first

def chainWithin (operand : Parser Expression) (level : Nat) (bound : List Char) :
    Parser Expression := do
  let first ← operand
  let rest ← manyWithin (joined operand level) bound
  return joinAll first rest

section
variable {operand operand' : Parser Expression} {sample : List Char}

instance advances_joined [Advances operand] : Advances (joined operand level) := by
  unfold joined
  infer_instance

theorem consumes_joined [Advances operand] : Consumes (joined operand level) :=
  consumes_operand (consumes_operatorAt level)

theorem rejects_joined (below : level ≤ 5) (position : Position) (rest : List Char)
    (allows : (Place.loose (Stops level)).Allows rest) :
    (joined operand level ⟨rest, position⟩).result = none :=
  rejects_behind_blanks (fun _ (stops : Stops level _) => (stops.2 _ (Nat.le_refl _) below).bind)
    position rest allows

section
variable (below : level ≤ 5) (operands : Sampled C .token sample operand operand'
    (C.Agree Expression.move) (.loose (Stops (level + 1))))
  (first : Heads Calm operand')
include below operands first

theorem viable_joined : Viable C (.loose (Stops (level + 1))) (joined operand level)
    (joined operand' level)
    (fun next next' => (next.1, next.2.move C.left) = (next'.1, next'.2.move C.right))
    (.loose (Stops (level + 1))) := by
  obtain ⟨op, rfl, visible⟩ := exists_operator below
  have right : Sampled C (.solid Opens) sample operand operand' (C.Agree Expression.move)
      (.loose (Stops (op.level + 1))) := operands.opening fun taken _ => first _ _ _ taken
  exact sampled_blanks.toViable.skip fun _ _ => (sampled_operatorAt op visible).bind fun op op' =>
    sampled_blanks.skip fun _ _ => right.bind fun right right' =>
      .pure (fun same same' => congrArg₂ Prod.mk same' same) (.refl _)

theorem sampled_leftChain [Advances operand'] : Sampled C .token sample (leftChain operand (operatorAt level))
    (leftChain operand' (operatorAt level)) (C.Agree Expression.move) (.loose (Stops level)) := by
  have next := viable_joined below operands first
  refine .cast (operands.bind fun head head' => ?_) (List.append_nil _)
  exact (Sampled.many consumes_joined next (Place.within_loose fun _ stops =>
    stops.mono (Nat.le_succ _)) (rejects_joined below)).map fun _ _ each same =>
      agree_foldl_binary same each

theorem sampled_chainWithin [Advances operand'] (bound : List Char) : Sampled C .token sample
    (chainWithin operand level bound) (leftChain operand' (operatorAt level))
    (C.Agree Expression.move) (.loose (Stops level)) := by
  have next := viable_joined below operands first
  refine .cast (operands.bind fun head head' => ?_) (List.append_nil _)
  exact (Sampled.manyWithin consumes_joined next (Place.within_loose fun _ stops =>
    stops.mono (Nat.le_succ _)) (rejects_joined below) bound).map fun _ _ each same =>
      agree_foldl_binary same each

end

instance advances_chains [Advances operand] (levels : Nat) : Advances (chains operand levels) := by
  induction levels with
  | zero => assumption
  | succ levels ih =>
    rw [chains]
    infer_instance

theorem begins_chains {good : List Char → Prop} (begins : Begins good operand) (levels : Nat) :
    Begins good (chains operand levels) := by
  induction levels with
  | zero => exact begins
  | succ levels ih => exact ih.bind

theorem sampled_chains [Advances operand']
    (operands : Sampled C .token sample operand operand' (C.Agree Expression.move)
      (.loose (Stops 6)))
    (first : Heads Calm operand') (levels : Nat) (below : levels ≤ 6) :
    Sampled C .token sample (chains operand levels) (chains operand' levels)
      (C.Agree Expression.move) (.loose (Stops (6 - levels))) := by
  induction levels with
  | zero => exact operands
  | succ levels ih =>
    have inner := ih (Nat.le_of_succ_le below)
    have lower : 6 - levels = 5 - levels + 1 := by omega
    have here : 6 - (levels + 1) = 5 - levels := by omega
    rw [lower] at inner
    rw [here, chains, chains]
    exact sampled_leftChain (Nat.sub_le 5 levels) inner (begins_chains first levels)

end

end LeoFront.Grammar
