import LeoFront.Proofs.RoundTrip.Words

namespace LeoFront.Grammar
open LeoFront.Parser
variable {α ι : Type} {ts : List Token}

theorem gap_append (first second : List Token) : gap (first ++ second) = gap first ++ gap second := by
  induction first with
  | nil => simp [gap]
  | cons t rest ih => simp [gap, ih]

theorem gap_ne_nil {tokens : List Token} (nonempty : tokens ≠ []) : gap tokens ≠ [] := by
  obtain ⟨t, rest, rfl⟩ := List.exists_cons_of_ne_nil nonempty
  exact List.cons_ne_nil _ _

theorem length_gap_lt {first : List Token} (nonempty : first ≠ []) (second : List Token) :
    (gap second).length < (gap (first ++ second)).length := by
  have positive := List.length_pos_of_ne_nil (gap_ne_nil nonempty)
  rw [gap_append, List.length_append]
  omega

theorem spaced_append (first : List Token) {second : List Token} (nonempty : first ≠ []) :
    spaced (first ++ second) = spaced first ++ gap second := by
  obtain ⟨t, rest, rfl⟩ := List.exists_cons_of_ne_nil nonempty
  rw [List.cons_append, spaced, spaced, gap_append, List.append_assoc]

theorem length_spaced_le (ts : List Token) : (spaced ts).length ≤ (gap ts).length := by
  cases ts with
  | nil => exact Nat.le_refl 0
  | cons t rest => exact Nat.le_succ _

theorem spaced_ne_nil {tokens : List Token} (solid : ∀ ts, Solid (tokens ++ ts)) :
    spaced tokens ≠ [] := by
  intro empty
  have blank := solid [" ".toList]
  cases tokens with
  | nil => cases blank
  | cons t rest =>
    obtain ⟨rfl, none⟩ := List.append_eq_nil_iff.mp empty
    cases rest with
    | nil => cases blank
    | cons => cases none

theorem length_spaced_lt {first : List Token} (solid : ∀ ts, Solid (first ++ ts))
    (second : List Token) : (spaced second).length < (spaced (first ++ second)).length := by
  have visible := spaced_ne_nil solid
  have nonempty : first ≠ [] := by
    rintro rfl
    exact visible rfl
  have positive := List.length_pos_of_ne_nil visible
  have le := length_spaced_le second
  rw [spaced_append first nonempty, List.length_append]
  omega

theorem length_le_gap (ts : List Token) : ts.length ≤ (gap ts).length := by
  induction ts with
  | nil => simp
  | cons t rest ih =>
    simp only [gap, List.length_cons, List.length_append]
    omega

theorem length_le_bound (ts : List Token) (position : Position) :
    ts.length ≤ (Cursor.bound ⟨spaced ts, position⟩).length := by
  cases ts with
  | nil => simp
  | cons t rest => exact length_le_gap (t :: rest)

theorem length_le_flatMap (tokens : ι → List Token) {item : ι} {items : List ι}
    (member : item ∈ items) : (tokens item).length ≤ (items.flatMap tokens).length := by
  obtain ⟨before, after, rfl⟩ := List.append_of_mem member
  simp only [List.flatMap_append, List.flatMap_cons, List.length_append]
  omega

theorem length_le_commas {tokens : List Token} {lists : List (List Token)}
    (member : tokens ∈ lists) : tokens.length ≤ (commas lists).length := by
  cases lists with
  | nil => cases member
  | cons first rest =>
    rw [commas, List.length_append]
    rcases List.mem_cons.mp member with rfl | later
    · exact Nat.le_add_right _ _
    · have le := length_le_flatMap (fun tokens : List Token => ",".toList :: tokens) later
      rw [List.length_cons] at le
      exact Nat.le_trans (Nat.le_of_succ_le le) (Nat.le_add_left _ _)

section
variable {p : Parser α} {reads : ι → α → Prop} {items : List ι} {tokens : ι → List Token}

theorem accepts_many_gap (nonempty : ∀ item ∈ items, tokens item ≠ [])
    (each : ∀ item rest, item :: rest <:+ items →
      Accepts p (gap (tokens item ++ (rest.flatMap tokens ++ ts))) (reads item)
        (gap (rest.flatMap tokens ++ ts)))
    (stop : Rejects p (gap ts)) :
    Accepts p.many (gap (items.flatMap tokens ++ ts)) (List.Forall₂ reads items) (gap ts) := by
  have cut (item : ι) (rest : List ι) : (item :: rest).flatMap tokens ++ ts =
      tokens item ++ (rest.flatMap tokens ++ ts) := by
    rw [List.flatMap_cons, List.append_assoc]
  refine accepts_many (fun rest => gap (rest.flatMap tokens ++ ts)) items ?_ stop ?_
  · intro item rest suffix
    rw [cut]
    exact each item rest suffix
  · intro item rest suffix
    rw [cut]
    exact length_gap_lt (nonempty item (suffix.subset List.mem_cons_self)) _

theorem accepts_many_spaced (solid : ∀ item ∈ items, ∀ ts, Solid (tokens item ++ ts))
    (each : ∀ item rest, item :: rest <:+ items →
      Accepts p (spaced (tokens item ++ (rest.flatMap tokens ++ ts))) (reads item)
        (spaced (rest.flatMap tokens ++ ts)))
    (stop : Rejects p (spaced ts)) :
    Accepts p.many (spaced (items.flatMap tokens ++ ts)) (List.Forall₂ reads items)
      (spaced ts) := by
  have cut (item : ι) (rest : List ι) : (item :: rest).flatMap tokens ++ ts =
      tokens item ++ (rest.flatMap tokens ++ ts) := by
    rw [List.flatMap_cons, List.append_assoc]
  refine accepts_many (fun rest => spaced (rest.flatMap tokens ++ ts)) items ?_ stop ?_
  · intro item rest suffix
    rw [cut]
    exact each item rest suffix
  · intro item rest suffix
    rw [cut]
    exact length_spaced_lt (solid item (suffix.subset List.mem_cons_self)) _

end

theorem accepts_no_blanks (solid : Solid ts) :
    Accepts blanks (spaced ts) (fun _ => True) (spaced ts) := by
  intro position
  refine ⟨(), position, ?_, trivial⟩
  simp only [blanks]
  rw [solid]
  rfl

def AfterItem (ts after : List Token) : Prop := after = ts ∨ ∃ more, after = ",".toList :: more

structure Readable (item : Parser α) (reads : ι → α → Prop) (ts : List Token)
    (pieces : List (ι × List Token)) : Prop where
  solid : ∀ piece ∈ pieces, ∀ after, Solid (piece.2 ++ after)
  accepts : ∀ piece ∈ pieces, ∀ after, AfterItem ts after →
    Accepts item (spaced (piece.2 ++ after)) (reads piece.1) (gap after)

theorem solid_commas {pieces : List (ι × List Token)}
    (each : ∀ piece ∈ pieces, ∀ after, Solid (piece.2 ++ after)) (solid : Solid ts) :
    Solid (commas (pieces.map Prod.snd) ++ ts) := by
  cases pieces with
  | nil => exact solid
  | cons first rest =>
    rw [List.map_cons, commas, List.append_assoc]
    exact each first List.mem_cons_self _

theorem accepts_separated {item : Parser α} {reads : ι → α → Prop}
    {pieces : List (ι × List Token)} (readable : Readable item reads ts pieces)
    (nonempty : pieces ≠ []) (solid : Solid ts) (stop : Rejects (literal ",") (spaced ts)) :
    Accepts (separated item) (spaced (commas (pieces.map Prod.snd) ++ ts))
      (fun values => List.Forall₂ reads (pieces.map Prod.fst) values) (gap ts) := by
  obtain ⟨first, rest, rfl⟩ := List.exists_cons_of_ne_nil nonempty
  let tokens (piece : ι × List Token) : List Token := ",".toList :: piece.2
  have following (later : List (ι × List Token)) : AfterItem ts (later.flatMap tokens ++ ts) := by
    cases later with
    | nil => exact .inl rfl
    | cons next later => exact .inr ⟨_, rfl⟩
  have each : ∀ piece (later : List (ι × List Token)), piece :: later <:+ rest →
      Accepts (do
        blanks
        literal ","
        blanks
        item) (gap (tokens piece ++ (later.flatMap tokens ++ ts))) (reads piece.1)
        (gap (later.flatMap tokens ++ ts)) := by
    intro piece later suffix
    have member : piece ∈ first :: rest :=
      List.mem_cons_of_mem _ (suffix.subset List.mem_cons_self)
    refine accepts_past "," _ rfl ?_
    refine (accepts_blanks (readable.solid piece member _)).bind fun _ _ => ?_
    exact readable.accepts piece member _ (following later)
  have ends : Rejects (do
      blanks
      literal ","
      blanks
      item) (gap ts) :=
    (accepts_blanks solid).bind_rejects fun _ _ => stop.bind
  have whole : commas ((first :: rest).map Prod.snd) ++ ts =
      first.2 ++ (rest.flatMap tokens ++ ts) := by
    simp [commas, tokens, List.flatMap_map]
  rw [whole]
  refine (readable.accepts first List.mem_cons_self _ (following rest)).bind fun value known => ?_
  refine (accepts_many_gap (fun _ _ => List.cons_ne_nil _ _) each ends).bind fun values all => ?_
  exact accepts_pure (.cons known (List.forall₂_map_left_iff.mpr all))

theorem accepts_separatedTrailing {item : Parser α} {reads : ι → α → Prop}
    {pieces : List (ι × List Token)} (readable : Readable item reads ts pieces)
    (nonempty : pieces ≠ []) (solid : Solid ts) (stop : Rejects (literal ",") (spaced ts)) :
    Accepts (separatedTrailing item) (spaced (commas (pieces.map Prod.snd) ++ ts))
      (fun values => List.Forall₂ reads (pieces.map Prod.fst) values) (gap ts) := by
  have noComma : Rejects (do
      blanks
      literal ",") (gap ts) :=
    (accepts_blanks solid).bind_rejects fun _ _ => stop
  refine (accepts_separated readable nonempty solid stop).bind fun _ all => ?_
  exact noComma.optional.bind fun _ _ => accepts_pure all

theorem accepts_possiblyEmpty {items : Parser (List α)} {reads : ι → α → Prop}
    {pieces : List (ι × List Token)} (solid : Solid ts)
    (some : pieces ≠ [] → Accepts items (spaced (commas (pieces.map Prod.snd) ++ ts))
      (fun values => List.Forall₂ reads (pieces.map Prod.fst) values) (gap ts))
    (none : Rejects items (spaced ts)) :
    ∃ rest, Accepts (possiblyEmpty items) (spaced (commas (pieces.map Prod.snd) ++ ts))
        (fun values => List.Forall₂ reads (pieces.map Prod.fst) values) rest ∧
      Accepts blanks rest (fun _ => True) (spaced ts) := by
  by_cases empty : pieces = []
  · subst empty
    refine ⟨spaced ts, none.optional.bind fun _ same => ?_, accepts_no_blanks solid⟩
    rw [same]
    exact accepts_pure .nil
  · refine ⟨gap ts, (some empty).optional.bind fun _ known => ?_, accepts_blanks solid⟩
    obtain ⟨values, rfl, all⟩ := known
    exact accepts_pure all

end LeoFront.Grammar
