import LeoFront.Proofs.RoundTrip.Lists
import LeoFront.Proofs.RoundTrip.Writing

namespace LeoFront.Grammar
open LeoFront.Parser
variable {level : Nat} {expression : Expression} {tokens ts : List Token}

def closers : List String :=
  [")", ",", ";", "\x7b", "..", "=", "+=", "-=", "*=", "/="]

/-- The tokens go on with something that cannot belong to an expression of a level. -/
def Follows (level : Nat) (ts : List Token) : Prop :=
  ∃ text rest, ts = String.toList text :: rest ∧
    (text ∈ closers ∨ ∃ op : BinaryOp, op.text = text ∧ op.level < level)

theorem Follows.mono {tighter : Nat} (follows : Follows level ts) (le : level ≤ tighter) :
    Follows tighter ts := by
  obtain ⟨text, rest, same, closer | ⟨op, sameText, weaker⟩⟩ := follows
  · exact ⟨text, rest, same, .inl closer⟩
  · exact ⟨text, rest, same, .inr ⟨op, sameText, Nat.lt_of_lt_of_le weaker le⟩⟩

theorem follows_closer {text : String} (closer : text ∈ closers) (level : Nat)
    (rest : List Token) : Follows level (text.toList :: rest) :=
  ⟨text, rest, rfl, .inl closer⟩

theorem solid_operator (op : BinaryOp) (ts : List Token) : Solid (op.text.toList :: ts) := by
  cases op <;> cases ts <;> rfl

theorem Follows.solid (follows : Follows level ts) : Solid ts := by
  obtain ⟨text, rest, rfl, closer | ⟨op, rfl, _⟩⟩ := follows
  · simp only [closers, List.mem_cons, List.not_mem_nil, or_false] at closer
    rcases closer with rfl | rfl | rfl | rfl | rfl | rfl | rfl | rfl | rfl | rfl <;> rfl
  · exact solid_operator op rest

def operatorAt : (level : Nat) → Parser BinaryOp
  | 0 => orOperator
  | 1 => andOperator
  | 2 => equalityOperator
  | 3 => comparisonOperator
  | 4 => additiveOperator
  | _ => multiplicativeOperator

theorem accepts_operator (op : BinaryOp) (ts : List Token) :
    Accepts (operatorAt op.level) (spaced (op.text.toList :: ts)) (· = op) (gap ts) := by
  intro position
  cases op <;> cases ts <;> exact ⟨_, _, rfl, rfl⟩

theorem rejects_closer {text : String} (closer : text ∈ closers) (level : Nat)
    (rest : List Token) : Rejects (operatorAt level) (spaced (text.toList :: rest)) := by
  intro position
  simp only [closers, List.mem_cons, List.not_mem_nil, or_false] at closer
  rcases level with _ | _ | _ | _ | _ | level <;>
    rcases closer with rfl | rfl | rfl | rfl | rfl | rfl | rfl | rfl | rfl | rfl <;>
    cases rest <;> rfl

theorem rejects_weaker {op : BinaryOp} (weaker : op.level < level) (top : level ≤ 5)
    (rest : List Token) : Rejects (operatorAt level) (spaced (op.text.toList :: rest)) := by
  intro position
  -- an operator that is read has the level itself, so it is not weaker
  rcases level with _ | _ | _ | _ | _ | _ | level <;> cases op <;>
    first
      | omega
      | (cases rest <;> rfl)
      | simp [BinaryOp.level] at weaker

theorem rejects_operator {tighter : Nat} (follows : Follows level ts) (le : level ≤ tighter)
    (top : tighter ≤ 5) : Rejects (operatorAt tighter) (spaced ts) := by
  obtain ⟨text, rest, rfl, closer | ⟨op, rfl, weaker⟩⟩ := follows
  · exact rejects_closer closer tighter rest
  · exact rejects_weaker (Nat.lt_of_lt_of_le weaker le) top rest

def chains (unary : Parser Expression) : (levels : Nat) → Parser Expression
  | 0 => unary
  | levels + 1 => leftChain (chains unary levels) (operatorAt (5 - levels))

theorem expressionOver_eq (unary : Parser Expression) : expressionOver unary = chains unary 6 := rfl

def Reads (p : Parser Expression) (level limit : Nat) : Prop :=
  ∀ expression tokens ts, Written level expression tokens → tokens.length ≤ limit →
    Follows level ts → Accepts p (spaced (tokens ++ ts)) (·.erase = expression.erase) (gap ts)

theorem follows_operands {operands : List Operand}
    (each : ∀ operand ∈ operands, operand.op.level = level) (follows : Follows level ts) :
    Follows (level + 1) (operands.flatMap Operand.all ++ ts) := by
  cases operands with
  | nil => exact follows.mono (Nat.le_succ level)
  | cons operand rest =>
    have same := each operand List.mem_cons_self
    exact ⟨operand.op.text, _, rfl, .inr ⟨operand.op, rfl, same ▸ Nat.lt_succ_self _⟩⟩

theorem foldl_binary_erase {operands : List Operand} {values : List (BinaryOp × Expression)}
    (all : List.Forall₂ (fun operand value => value.1 = operand.op ∧
      value.2.erase = operand.right.erase) operands values)
    {first other : Expression} (same : other.erase = first.erase) :
    (values.foldl (fun left next => Expression.binary next.1 left next.2
      (left.span.through next.2.span)) other).erase =
      (operands.foldl Operand.join first).erase := by
  induction all generalizing first other with
  | nil => exact same
  | @cons operand value _ _ known _ ih =>
    obtain ⟨op, right⟩ := value
    obtain ⟨rfl, sameRight⟩ := known
    refine ih ?_
    rw [Operand.join, Expression.erase, Expression.erase, same, sameRight]

theorem accepts_joined {operand : Parser Expression} {limit : Nat} {next : Operand}
    (reads : Reads operand (level + 1) limit) (same : next.op.level = level)
    (written : Written (level + 1) next.right next.tokens) (short : next.tokens.length ≤ limit)
    (follows : Follows (level + 1) ts) :
    Accepts (do
      blanks
      let op ← operatorAt level
      blanks
      let right ← operand
      return (op, right)) (gap (next.all ++ ts))
      (fun value => value.1 = next.op ∧ value.2.erase = next.right.erase) (gap ts) := by
  refine (accepts_blanks (solid_operator next.op _)).bind fun _ _ => ?_
  rw [← same]
  refine (accepts_operator next.op _).bind fun op sameOp => ?_
  refine (accepts_blanks (written.solid _)).bind fun _ _ => ?_
  refine (reads _ _ _ written short follows).bind fun right sameRight => ?_
  exact accepts_pure ⟨sameOp, sameRight⟩

theorem reads_leftChain {operand : Parser Expression} {limit : Nat} (below : level ≤ 5)
    (reads : Reads operand (level + 1) limit) :
    Reads (leftChain operand (operatorAt level)) level limit := by
  intro expression tokens ts written within follows
  -- each operand is read up to the next operator of the level, or up to what follows the whole
  obtain ⟨first, firstTokens, operands, head, each, rfl, same⟩ :=
    written.spine (Nat.lt_succ_of_le below)
  rw [List.length_append] at within
  have following {rest : List Operand} (suffix : rest <:+ operands) :
      Follows (level + 1) (rest.flatMap Operand.all ++ ts) :=
    follows_operands (fun operand member => (each operand (suffix.subset member)).1) follows
  have stop : Rejects (do
      blanks
      let op ← operatorAt level
      blanks
      let right ← operand
      return (op, right)) (gap ts) :=
    (accepts_blanks follows.solid).bind_rejects fun _ _ =>
      (rejects_operator follows (Nat.le_refl level) below).bind
  have short : firstTokens.length ≤ limit := by omega
  rw [List.append_assoc]
  refine (reads _ _ _ head short (following List.suffix_rfl)).bind fun value known => ?_
  refine (accepts_many_gap (fun _ _ => List.cons_ne_nil _ _) (fun next rest suffix => ?_) stop).bind
    fun values all => accepts_pure ((foldl_binary_erase all known).trans same.symm)
  have member := suffix.subset List.mem_cons_self
  obtain ⟨sameLevel, writtenRight⟩ := each next member
  have short : next.tokens.length ≤ limit := by
    have le := length_le_flatMap Operand.all member
    rw [Operand.all, List.length_cons] at le
    omega
  exact accepts_joined reads sameLevel writtenRight short
    (following ((List.suffix_cons next rest).trans suffix))

theorem reads_chains {unary : Parser Expression} {limit : Nat} (reads : Reads unary 6 limit)
    (levels : Nat) (below : levels ≤ 6) : Reads (chains unary levels) (6 - levels) limit := by
  induction levels with
  | zero => exact reads
  | succ levels ih =>
    have inner := ih (Nat.le_of_succ_le below)
    have lower : 6 - levels = 5 - levels + 1 := by omega
    have same : 6 - (levels + 1) = 5 - levels := by omega
    rw [lower] at inner
    rw [same]
    exact reads_leftChain (Nat.sub_le 5 levels) inner

end LeoFront.Grammar
