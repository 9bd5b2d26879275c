import LeoFront.Proofs.Completion.Tokens

namespace LeoFront.Grammar
open LeoFront.Parser
open Text (units16)
variable {α β γ : Type} {C : Comparison} {P M Q : Place} {p q : Parser α} {agree : α → α → Prop}
  {good better : List Char → Prop} {sample sample' : List Char}

theorem Viable.opening (viable : Viable C .token p q agree Q)
    (opens : ∀ {position text value rest}, Takes q position text value rest → Q.Allows rest →
      better (text ++ rest)) : Viable C (.solid better) p q agree Q where
  advances := viable.advances
  honest := viable.honest
  ends := viable.ends
  keeps := by
    intro position text value rest position' stands read same
    obtain ⟨value', again⟩ := viable.keeps position' stands read same
    refine ⟨value', fun rest' related => ?_⟩
    obtain ⟨⟨⟨bare, -⟩, head⟩, taken, known⟩ := again rest' related
    exact ⟨⟨⟨bare, opens taken (Q.allows_of_relates related)⟩, head⟩, taken, known⟩
  completes := by
    intro position text offset position' stands noted same
    refine (viable.completes position' stands noted same).imp id ?_
    rintro ⟨read, unread, more, rfl, units, goesOn⟩
    refine ⟨read, unread, more, rfl, units, fun rest fresh => ?_⟩
    obtain ⟨⟨⟨bare, -⟩, head⟩, value, taken⟩ := goesOn rest fresh
    exact ⟨⟨⟨bare, opens taken (Q.allows_of_fresh fresh)⟩, head⟩, value, taken⟩

theorem Sampled.opening (sampled : Sampled C .token sample p q agree Q)
    (opens : ∀ {position text value rest}, Takes q position text value rest → Q.Allows rest →
      better (text ++ rest)) : Sampled C (.solid better) sample p q agree Q := by
  refine ⟨sampled.toViable.opening opens, fun rest fresh => ?_⟩
  obtain ⟨⟨bare, -⟩, reads⟩ := sampled.samples rest fresh
  obtain ⟨value, taken⟩ := reads .start
  exact ⟨⟨bare, opens taken (Q.allows_of_fresh fresh)⟩, reads⟩

theorem Place.within_token : (solid good).Within .token := within_solid fun _ _ => trivial

theorem Viable.anywhere (viable : Viable C (.solid good) p q agree Q) :
    Viable C .token p q agree Q :=
  viable.imp (fun _ _ => id) Place.within_token (.refl Q)

theorem blanks_bind (next : Unit → Parser α) (text : List Char) (position : Position) :
    ((blanks >>= next) ⟨text, position⟩).result =
      (next () ⟨text.drop (blankRun text), position.after (text.take (blankRun text))⟩).result := by
  rw [result_bind]
  rfl

theorem rejects_behind_blanks {next : Unit → Parser α}
    (rejects : ∀ text, better text → Rejects (next ()) text) (position : Position)
    (rest : List Char) (allows : (Place.loose better).Allows rest) :
    ((blanks >>= next) ⟨rest, position⟩).result = none := by
  rw [blanks_bind]
  exact rejects _ allows _

section
variable [Nonempty α] [Advances q] {f g : α → γ}
  (items : Sampled C .token sample p q (fun value value' => f value = g value') (.loose good))
  (within : ∀ text, better text → good text) (comma : ∀ rest, good (',' :: rest))
include items within comma

theorem sampled_separated (stops : ∀ text, better text → Rejects (do
      literal ","
      blanks
      q) text) :
    Sampled C .token sample (separated p) (separated q)
      (fun values values' => values.map f = values'.map g) (.loose better) := by
  have visible : Place.Visible ",".toList := by decide
  have comma : Sampled C (.solid good) ",".toList (literal ",") (literal ",") (· = ·)
      (.loose fun _ => True) :=
    sampled_literal (Place.leads_solid visible fun rest _ => comma rest) Place.behind_loose
  have another := comma.spaced fun _ _ => items
  have more : Viable C (.loose good) (do
      blanks
      literal ","
      blanks
      p) (do
      blanks
      literal ","
      blanks
      q) (fun value value' => f value = g value') (.loose good) :=
    sampled_blanks.toViable.skip fun _ _ => another
  have consumes : Consumes (do
      blanks
      literal ","
      blanks
      q) := .guarded fun _ => (consumes_literal (by decide)).bind
  refine .cast (items.bind fun first first' => ?_) (List.append_nil _)
  refine (Sampled.many consumes more (Place.within_loose within)
    (rejects_behind_blanks stops)).map fun rest rest' same' same => ?_
  rw [List.map_cons, List.map_cons, same, same']

abbrev Lasts (good : List Char → Prop) (q : Parser α) (text : List Char) : Prop :=
  good text ∧ Rejects (do
    literal ","
    blanks
    q) text

omit items within comma [Nonempty α] in
theorem rejects_comma {text : List Char} (other : text.head? ≠ some ',') :
    Rejects (literal ",") text := by
  intro position
  refine literal_none ?_
  rintro ⟨rest, rfl⟩
  exact other rfl

omit items within [Nonempty α] [Advances q] in
theorem sampled_lastComma (ends : ∀ text, better text → Rejects q text) :
    Sampled C (.solid (Lasts good q)) ",".toList (literal ",") (literal ",") (· = ·)
      (.loose better) := by
  have visible : Place.Visible ",".toList := by decide
  refine sampled_literal (Place.leads_solid visible fun rest allows => ⟨comma rest, ?_⟩)
    Place.behind_loose
  intro position
  rw [result_bind, takes_literal "," position rest]
  exact rejects_behind_blanks ends _ rest allows

theorem sampled_separatedTrailing (others : ∀ text, better text → text.head? ≠ some ',')
    (ends : ∀ text, better text → Rejects q text) :
    Sampled C .token sample (separatedTrailing p) (separatedTrailing q) (fun _ _ => True)
      (.loose better) := by
  have lasts (text : List Char) (known : better text) : Lasts good q text :=
    ⟨within text known, (rejects_comma (others text known)).bind⟩
  have trailing : Viable C (.loose (Lasts good q)) (do
      blanks
      literal ",") (do
      blanks
      literal ",") (· = ·) (.loose better) :=
    sampled_blanks.toViable.skip fun _ _ => sampled_lastComma comma ends
  have list : Sampled C .token sample (separated p) (separated q)
      (fun values values' => values.map f = values'.map g) (.loose (Lasts good q)) :=
    sampled_separated items (fun _ known => known.1) comma fun _ known => known.2
  refine .cast (list.skip fun _ _ => ?_) (List.append_nil sample)
  refine Sampled.map (.optional trailing (Place.within_loose lasts) ?_) fun _ _ _ => trivial
  exact rejects_behind_blanks fun text known => rejects_comma (others text known)

end

theorem possiblyEmpty_bind (items : Parser (List α)) (next : List α → Parser β) :
    possiblyEmpty items >>= next = commit items next (next []) := by
  funext cursor
  have same : possiblyEmpty items = commit items Pure.pure (Pure.pure []) := optional_bind items _
  rw [same]
  rcases here : (items cursor).result with _ | ⟨values, after⟩
  · have skipped : commit items Pure.pure (Pure.pure []) cursor =
        ⟨some ([], cursor), (items cursor).furthest⟩ :=
      (commit_none here).trans (congrArg (Reply.mk _) (Furthest.merge_none _))
    rw [bind_of_some (congrArg Reply.result skipped), skipped, commit_none here]
  · have read : commit items Pure.pure (Pure.pure []) cursor =
        ⟨some (values, after), (items cursor).furthest⟩ :=
      (commit_some here).trans (congrArg (Reply.mk _) (Furthest.merge_none _))
    rw [bind_of_some (congrArg Reply.result read), read, commit_some here]

theorem Sampled.listed {items items' : Parser (List α)} {agree : List α → List α → Prop}
    {next next' : List α → Parser β} {agree' : β → β → Prop}
    (first : Sampled C .token sample items items' agree (.loose better))
    (onward : ∀ values values', Sampled C (.loose better) sample' (next values) (next' values')
      (fun made made' => agree values values' → agree' made made') Q)
    (others : Viable C (.solid better) (next []) (next' []) agree' Q)
    (rejects : ∀ text, better text → Rejects items' text)
    (opens : ∀ {position text value rest}, blankRun (text ++ rest) = 0 →
      Takes (next' []) position text value rest → better (text ++ rest)) :
    Sampled C .token (sample ++ sample') (possiblyEmpty items >>= next)
      (possiblyEmpty items' >>= next') agree' Q := by
  rw [possiblyEmpty_bind, possiblyEmpty_bind]
  exact first.commit onward others.anywhere fun allows taken _ =>
    rejects _ (opens allows.1 taken) _

def Closed (closer : String) (text : List Char) : Prop := closer.toList <+: text

theorem sampled_close {closer : String} (visible : Place.Visible closer.toList) (behind : Q.Behind) :
    Sampled C (.solid (Closed closer)) closer.toList (literal closer) (literal closer) (· = ·) Q :=
  sampled_literal (Place.leads_solid visible fun rest _ => List.prefix_append _ rest) behind

theorem Sampled.closed {closer : String} {items items' : Parser (List α)}
    {agree : List α → List α → Prop} {next next' : List α → Parser β} {agree' : β → β → Prop}
    (visible : Place.Visible closer.toList) (behind : M.Behind)
    (first : Sampled C .token sample items items' agree (.loose (Closed closer)))
    (rejects : ∀ text, Closed closer text → Rejects items' text) (nothing : agree [] [])
    (onward : ∀ values values', Sampled C M sample' (next values) (next' values')
      (fun made made' => agree values values' → agree' made made') Q) :
    Sampled C .token (sample ++ (['\n'] ++ (closer.toList ++ sample'))) (do
      let values ← possiblyEmpty items
      blanks
      literal closer
      next values) (do
      let values ← possiblyEmpty items'
      blanks
      literal closer
      next' values) agree' Q := by
  have close : Sampled C (.solid (Closed closer)) closer.toList (literal closer) (literal closer)
      (· = ·) M := sampled_close visible behind
  refine .listed first (fun values values' => sampled_blanks.skip fun _ _ =>
    close.skip fun _ _ => onward values values') ?_ rejects ?_
  · refine (sampled_no_blanks.skip fun _ _ => close.skip fun _ _ => onward [] []).toViable.imp ?_
      (.refl _) (.refl Q)
    exact fun _ _ known => known nothing
  · intro position text value rest bare taken
    rw [Takes, blanks_bind, bare] at taken
    obtain ⟨_, _, here, -⟩ := bind_some.mp taken
    exact ⟨_, (literal_rest here).symm⟩

end LeoFront.Grammar
