import LeoFront.Proofs.Completion.Openings
import LeoFront.Proofs.Spacing.Items

namespace LeoFront.Grammar
open LeoFront.Parser
variable {C : Comparison} {good : List Char → Prop}

instance : Nonempty Access := ⟨.star .none⟩

instance : Nonempty ImportSymbol := ⟨⟨⟨"", .none⟩, none, .none⟩⟩

instance : Nonempty Package := ⟨⟨⟨"", .none⟩, .star .none, .none⟩⟩

def Unnamed (text : List Char) : Prop := String.ofList (opener text) ∉ [".", "as"]

theorem unnamed_mark {mark : Char} (other : wordStart.contains mark = false) (apart : mark ≠ '.')
    (rest : List Char) : Unnamed (mark :: rest) := by
  rw [Unnamed, opener_mark other]
  intro member
  rcases List.mem_pair.mp member with dot | as
  · exact apart (List.singleton_inj.mp (String.ofList_injective dot))
  · have length := congrArg List.length (String.ofList_injective as)
    cases length

theorem sampled_importSymbol : Sampled C .token "a".toList importSymbol importSymbol Unasked
    (.loose Unnamed) := by
  have visible : Place.Visible "as".toList := by decide
  have other : Viable C (.loose fun _ => True) (do
      blanks
      word "as"
      blanks
      identifier) (do
      blanks
      word "as"
      blanks
      identifier) Unasked (.loose Unnamed) :=
    sampled_blanks.toViable.skip fun _ _ => (sampled_word visible).spaced fun _ _ =>
      sampled_identifier.unasked
  have as : BeginsWith ["as"] (word "as") := begins_word (by decide)
  refine .spanned_unasked (.cast (sampled_identifier.skip fun _ _ => (Sampled.optional other
    (Place.within_loose fun _ _ => trivial) (rejects_behind_blanks fun text known => ?_)).skip
      fun _ _ => .pure trivial (.refl _)) (List.append_nil _))
  exact (as.rejects fun renamed => known (List.mem_cons_of_mem _ renamed)).bind

section
variable {access access' : Parser Access} {sample : List Char}

theorem sampled_packageOver (accesses : Sampled C .token sample access access' Unasked (.loose good)) :
    Sampled C .token ("a".toList ++ ("\n".toList ++ (".".toList ++ ("\n".toList ++ sample))))
      (packageOver access) (packageOver access') Unasked (.loose good) := by
  have visible : Place.Visible ".".toList := by decide
  have last {α : Type} {make make' : Access → α} : Sampled C .token sample
      (access >>= fun value => Pure.pure (make value))
      (access' >>= fun value => Pure.pure (make' value)) Unasked (.loose good) :=
    .cast (accesses.skip fun _ _ => .pure trivial (.refl _)) (List.append_nil sample)
  exact .spanned_unasked (sampled_identifier.spaced fun _ _ =>
    (sampled_fixed visible Place.behind_loose).spaced fun _ _ => last)

theorem packageOver_symbol {cursor after : Cursor} {symbol : ImportSymbol}
    (read : (importSymbol cursor).result = some (symbol, after))
    (ends : Unnamed (after.rest.drop (blankRun after.rest))) :
    (packageOver access cursor).result = none := by
  rcases package : (packageOver access cursor).result with _ | ⟨value, behind⟩
  · rfl
  obtain ⟨_, package, -⟩ := spanned_some.mp package
  obtain ⟨name, middle, named, package⟩ := bind_some.mp package
  obtain ⟨_, there, skipped, package⟩ := bind_some.mp package
  obtain ⟨_, _, dot, -⟩ := bind_some.mp package
  have dots : BeginsWith ["."] (literal ".") := begins_mark rfl (by decide)
  obtain ⟨_, read, -⟩ := spanned_some.mp read
  obtain ⟨name', middle', named', read⟩ := bind_some.mp read
  cases named.symm.trans named'
  obtain ⟨renamed, _, option, read⟩ := bind_some.mp read
  cases read
  rcases or_some option with another | nothing
  · obtain ⟨_, _, another, -⟩ := bind_some.mp another
    obtain ⟨_, there', skipped', another⟩ := bind_some.mp another
    cases skipped.symm.trans skipped'
    obtain ⟨_, _, again, -⟩ := bind_some.mp another
    have words : BeginsWith ["as"] (word "as") := begins_word (by decide)
    cases (dots.told (words.without (by decide)) again).symm.trans dot
  · cases nothing
    cases skipped
    have dotted := List.mem_singleton.mp (dots _ _ _ dot)
    exact absurd (dotted ▸ List.mem_cons_self ..) ends

theorem sampled_lastAccess {make make' : Span → Access} (first : BeginsWithout [")"] access') :
    Sampled C (.solid (Lasts Unnamed access')) (",".toList ++ ("\n".toList ++ (")".toList ++ []))) (do
      let _ ← optional (literal ",")
      blanks
      literal ")"
      return make) (do
      let _ ← optional (literal ",")
      blanks
      literal ")"
      return make') Unasked (.loose good) := by
  have visible : Place.Visible ")".toList := by decide
  have close : Sampled C (.solid (Closed ")")) ")".toList (literal ")") (literal ")") (· = ·)
      (.loose good) := sampled_close visible Place.behind_loose
  have comma : Sampled C (.solid (Lasts Unnamed access')) ",".toList (literal ",") (literal ",")
      (· = ·) (.loose (Closed ")")) :=
    sampled_lastComma (unnamed_mark rfl (by decide)) (first.rejects_closed rfl (by decide))
  have commas : BeginsWith [","] (literal ",") := begins_mark rfl (by decide)
  have closes : BeginsWith [")"] (literal ")") := begins_mark rfl (by decide)
  have lasts (text : List Char) (closes : Closed ")" text) : Lasts Unnamed access' text := by
    have other : Rejects (literal ",") text :=
      (commas.without (by decide)).rejects_closed rfl (by decide) text closes
    refine ⟨?_, other.bind⟩
    obtain ⟨rest, rfl⟩ := closes
    exact unnamed_mark rfl (by decide) rest
  refine .option comma (fun _ _ => sampled_blanks.skip fun _ _ => close.skip fun _ _ =>
    .pure trivial (.refl _)) ?_ fun allows taken _ => ?_
  · have nothing : Viable C (.solid (Closed ")")) (do
        blanks
        literal ")"
        return make) (do
        blanks
        literal ")"
        return make') Unasked (.loose good) :=
      sampled_no_blanks.toViable.skip fun _ _ => close.skip fun _ _ => .pure trivial (.refl _)
    exact nothing.imp (fun _ _ => id) (Place.within_solid lasts) (.refl _)
  · rw [Takes, blanks_bind, allows.1] at taken
    obtain ⟨_, _, here, -⟩ := bind_some.mp taken
    exact commas.told (closes.without (by decide)) here

def multiple (access : Parser Access) : Parser Access :=
  spanned do
    literal "("
    blanks
    let accesses ← separated access
    blanks
    let _ ← optional (literal ",")
    blanks
    literal ")"
    return Access.multiple accesses

theorem viable_multiple [Advances access'] (first : BeginsWithout [")"] access')
    (accesses : Sampled C .token sample access access' Unasked (.loose Unnamed)) :
    Viable C .token (multiple access) (multiple access') Unasked (.loose good) := by
  have visible : Place.Visible "(".toList := by decide
  have items : Sampled C .token sample access access' (fun _ _ => () = ()) (.loose Unnamed) :=
    accesses.imp (fun _ _ _ => rfl) (.refl _) (.refl _)
  have list : Sampled C .token sample (separated access) (separated access') Unasked
      (.loose (Lasts Unnamed access')) :=
    (sampled_separated items (fun _ known => known.1) (unnamed_mark rfl (by decide))
      fun _ known => known.2).unasked
  exact .spanned_unasked ((sampled_fixed visible Place.behind_loose).toViable.spaced fun _ _ =>
    list.spaced fun _ _ => sampled_lastAccess first)

theorem sampled_accessOver [Advances access'] (first : BeginsWithout [")"] access')
    (accesses : Sampled C .token sample access access' Unasked (.loose Unnamed)) :
    Sampled C .token "*".toList (accessOver access) (accessOver access') Unasked (.loose Unnamed) := by
  have visible : Place.Visible "*".toList := by decide
  have star : Sampled C .token "*".toList (spanned do
      literal "*"
      return Access.star) (spanned do
      literal "*"
      return Access.star) Unasked (.loose Unnamed) :=
    .spanned_unasked ((sampled_fixed visible Place.behind_loose).map fun _ _ _ => trivial)
  have stars : BeginsWith ["*"] (literal "*") := begins_mark rfl (by decide)
  have opens : BeginsWith ["("] (literal "(") := begins_mark rfl (by decide)
  have name : BeginsWithout ["(", "*"] identifier := begins_identifier (by decide)
  have named : Later C .token ["(", "*"] ((do
      let package ← packageOver access
      return Access.subPackage package.name package.access package.span).or
        ((do return Access.symbol (← importSymbol)).or fail)) ((do
      let package ← packageOver access'
      return Access.subPackage package.name package.access package.span).or
        ((do return Access.symbol (← importSymbol)).or fail)) (.loose Unnamed) := by
    refine ⟨.or ((sampled_packageOver accesses).map fun _ _ _ => trivial).toViable
      (sampled_importSymbol.map fun _ _ _ => trivial).or_fail.toViable ?_,
      .or name.bind.spanned.bind (.or name.bind.spanned.bind .fail)⟩
    intro position text value rest _ taken allows
    rcases or_some taken with symbol | none
    · obtain ⟨symbol, taken, -⟩ := takes_map symbol
      exact bind_fails (packageOver_symbol taken allows)
    · cases none
  have later : Later C .token ["*"] _ _ (.loose Unnamed) :=
    .or (viable_multiple first accesses) opens.bind.spanned (by decide) named
  exact star.or later.viable fun _ taken _ => stars.bind.spanned.told later.begins taken

end

theorem result_access (cursor : Cursor) : (accessOver access cursor).result = (access cursor).result := by
  have inner : Steps .itself cursor.rest.length.succ cursor.rest.length 0 access
      (accessWithin cursor.rest) (Comparison.itself.Agree Access.move) := fun here there _ below =>
    steps_accessWithin here.bound cursor.rest here there (Nat.lt_succ_self _) below
  exact result_eq_of_steps 0 (steps_accessOver inner) Access.move_id
    (Nat.lt_succ_of_lt (Nat.lt_succ_self _)) (Nat.lt_succ_self _)

theorem begins_access : BeginsWithout [")"] access := by
  have stars : BeginsWith ["*"] (literal "*") := begins_mark rfl (by decide)
  have opens : BeginsWith ["("] (literal "(") := begins_mark rfl (by decide)
  have name : BeginsWithout [")"] identifier := begins_identifier (by decide)
  intro cursor value after read
  rw [← result_access] at read
  exact Begins.or (stars.without (by decide)).bind.spanned (.or (opens.without (by decide)).bind.spanned
    (.or name.bind.spanned.bind (.or name.bind.spanned.bind .fail))) _ _ _ read

theorem samples_access : Samples .token "*".toList access (.loose Unnamed) := by
  have visible : Place.Visible "*".toList := by decide
  intro rest fresh
  refine ⟨⟨visible.bare rest, trivial⟩, fun position => ?_⟩
  have star : Takes (accessOver access) position "*".toList (.star ⟨position, _⟩) rest :=
    .or_left (.spanned (.ended (takes_literal "*" position rest) takes_pure))
  exact ⟨_, (result_access _).symm.trans star⟩

theorem sampled_accessWithin (bound : List Char) : Sampled C .token "*".toList (accessWithin bound)
    access Unasked (.loose Unnamed) := by
  refine ⟨?_, samples_access⟩
  induction bound with
  | nil => exact .fail
  | cons _ bound ih =>
    have inner : Sampled C .token "*".toList (accessWithin bound) access Unasked (.loose Unnamed) :=
      ⟨ih, samples_access⟩
    exact (sampled_accessOver begins_access inner).toViable.congr result_access

theorem sampled_access : Sampled C .token "*".toList access access Unasked (.loose Unnamed) :=
  .bounded sampled_accessWithin

theorem viable_importStatement :
    Viable C .token importStatement importStatement Unasked (.loose good) := by
  have visible : Place.Visible "import".toList ∧ Place.Visible ";".toList := by decide
  have semicolon : Sampled C (.solid Unnamed) ";".toList (literal ";") (literal ";") (· = ·)
      (.loose good) :=
    sampled_literal (Place.leads_solid visible.2 fun rest _ => unnamed_mark rfl (by decide) rest)
      Place.behind_loose
  exact .spanned_unasked ((sampled_word visible.1).toViable.spaced fun _ _ =>
    (sampled_packageOver sampled_access).spaced fun _ _ =>
    semicolon.skip fun _ _ => .pure trivial (.refl _))

end LeoFront.Grammar
