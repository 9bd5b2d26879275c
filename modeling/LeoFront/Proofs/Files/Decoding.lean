import LeoFront.Text.Utf8
import Mathlib.Data.List.Basic

namespace LeoFront.Text.Utf8
variable {byte : Nat} {pending : Pending} {bytes : List UInt8}

def IsAscii (c : Char) : Prop := c.toNat < 0x80

instance (c : Char) : Decidable (IsAscii c) := inferInstanceAs (Decidable (c.toNat < 0x80))

def ShownAscii (found : Option Char) : Prop := IsAscii (found.getD '\uFFFD')

theorem not_shownAscii_none : ¬ ShownAscii none := by
  change ¬ IsAscii '\uFFFD'
  decide

def CompletesOutside : (missing low high bits : Nat) → Prop
  | 0, _, _, _ => True
  | 1, low, high, bits => ∀ byte, low ≤ byte → byte ≤ high →
      (bits * 0x40 + byte % 0x40).isValidChar ∧ 0x80 ≤ bits * 0x40 + byte % 0x40
  | missing + 2, low, high, bits => ∀ byte, low ≤ byte → byte ≤ high →
      CompletesOutside (missing + 1) 0x80 0xBF (bits * 0x40 + byte % 0x40)

def Pending.Outside (pending : Pending) : Prop :=
  CompletesOutside pending.missing pending.low pending.high pending.bits

theorem Pending.outside_idle : Pending.idle.Outside := trivial

theorem first_outside (byte : Nat) : (first byte).2.Outside := by
  -- The bounds of the second byte leave out overlong forms, surrogates and what is above all characters.
  unfold first
  split
  · exact Pending.outside_idle
  split
  · exact Pending.outside_idle
  split
  · intro second least greatest
    dsimp only at least greatest ⊢
    simp only [Nat.isValidChar]
    omega
  split
  · intro second least greatest third
    dsimp only at least greatest ⊢
    simp only [Nat.isValidChar]
    split at least <;> split at greatest <;> omega
  split
  · intro second least greatest third _ _ fourth
    dsimp only at least greatest ⊢
    simp only [Nat.isValidChar]
    split at least <;> split at greatest <;> omega
  · exact Pending.outside_idle

theorem toNat_ofNat {code : Nat} (valid : code.isValidChar) : (Char.ofNat code).toNat = code := by
  rw [Char.ofNat, dif_pos valid]
  rfl

theorem not_shownAscii_ofNat {code : Nat} (valid : code.isValidChar) (outside : 0x80 ≤ code) :
    ¬ ShownAscii (some (Char.ofNat code)) := by
  change ¬ (Char.ofNat code).toNat < 0x80
  rw [toNat_ofNat valid]
  exact Nat.not_lt.mpr outside

theorem first_of_not_ascii (outside : ¬ byte < 0x80) :
    (first byte).1 = [none] ∨ ((first byte).1 = [] ∧ (first byte).2.missing ≠ 0) := by
  unfold first
  rw [if_neg outside]
  split
  · exact .inl rfl
  split
  · exact .inr ⟨rfl, Nat.one_ne_zero⟩
  split
  · exact .inr ⟨rfl, Nat.succ_ne_zero 1⟩
  split
  · exact .inr ⟨rfl, Nat.succ_ne_zero 2⟩
  · exact .inl rfl

theorem step_of_pending (held : pending.missing ≠ 0) (outside : pending.Outside) (byte : Nat) :
    (∃ found ∈ (step pending byte).1, ¬ ShownAscii found) ∨
      ((step pending byte).1 = [] ∧ (step pending byte).2.missing ≠ 0 ∧
        (step pending byte).2.Outside) := by
  obtain ⟨missing, low, high, bits⟩ := pending
  unfold step
  rw [if_neg held]
  split
  · rename_i fits
    rw [Bool.and_eq_true, decide_eq_true_eq, decide_eq_true_eq] at fits
    obtain ⟨least, greatest⟩ := fits
    match missing, held, outside with
    | 1, _, outside =>
      obtain ⟨valid, beyond⟩ := outside byte least greatest
      exact .inl ⟨_, List.mem_singleton_self _, not_shownAscii_ofNat valid beyond⟩
    | missing + 2, _, outside =>
      exact .inr ⟨rfl, Nat.succ_ne_zero missing, outside byte least greatest⟩
  · exact .inl ⟨none, List.mem_cons_self, not_shownAscii_none⟩

theorem decodeFrom_of_pending (held : pending.missing ≠ 0) (outside : pending.Outside)
    (bytes : List UInt8) : ∃ found ∈ decodeFrom pending bytes, ¬ ShownAscii found := by
  induction bytes generalizing pending with
  | nil => exact ⟨none, by simp [decodeFrom, held], not_shownAscii_none⟩
  | cons byte rest ih =>
    rcases step_of_pending held outside byte.toNat with ⟨found, member, marked⟩ | ⟨-, still, beyond⟩
    · exact ⟨found, List.mem_append_left _ member, marked⟩
    · obtain ⟨found, member, marked⟩ := ih still beyond
      exact ⟨found, List.mem_append_right _ member, marked⟩

theorem decode_cons (byte : UInt8) (rest : List UInt8) :
    decode (byte :: rest) = (first byte.toNat).1 ++ decodeFrom (first byte.toNat).2 rest := rfl

theorem decode_cons_ascii {byte : UInt8} (ascii : byte.toNat < 0x80) (rest : List UInt8) :
    decode (byte :: rest) = some (Char.ofNat byte.toNat) :: decode rest := by
  rw [decode_cons, first, if_pos ascii]
  rfl

theorem decode_of_ascii (ascii : ∀ found ∈ decode bytes, ShownAscii found) :
    (∀ byte ∈ bytes, byte.toNat < 0x80) ∧
      decode bytes = bytes.map fun byte => some (Char.ofNat byte.toNat) := by
  induction bytes with
  | nil => exact ⟨by simp, rfl⟩
  | cons byte rest ih =>
    by_cases here : byte.toNat < 0x80
    · rw [decode_cons_ascii here] at ascii ⊢
      obtain ⟨others, decoded⟩ := ih (List.forall_mem_cons.mp ascii).2
      exact ⟨List.forall_mem_cons.mpr ⟨here, others⟩, by rw [decoded, List.map_cons]⟩
    · exfalso
      rw [decode_cons] at ascii
      rcases first_of_not_ascii here with fault | ⟨-, held⟩
      · rw [fault] at ascii
        exact not_shownAscii_none (ascii none List.mem_cons_self)
      · obtain ⟨found, member, marked⟩ := decodeFrom_of_pending held (first_outside _) rest
        exact marked (ascii found (List.mem_append_right _ member))

theorem utf8EncodeChar_ofNat {byte : UInt8} (ascii : byte.toNat < 0x80) :
    String.utf8EncodeChar (Char.ofNat byte.toNat) = [byte] := by
  have code : (Char.ofNat byte.toNat).val.toNat = byte.toNat :=
    toNat_ofNat (.inl (by omega))
  have small : byte.toNat ≤ 0x7F := by omega
  simp [String.utf8EncodeChar, code, small]

theorem shownAscii_of_ascii (ascii : ∀ c ∈ (decodeLossy bytes).toList, IsAscii c) :
    ∀ found ∈ decode bytes, ShownAscii found := by
  rw [decodeLossy, String.toList_ofList] at ascii
  exact fun found member => ascii _ (List.mem_map_of_mem member)

theorem decodeLossy_of_ascii (ascii : ∀ c ∈ (decodeLossy bytes).toList, IsAscii c) :
    (∀ byte ∈ bytes, byte.toNat < 0x80) ∧
      (decodeLossy bytes).toList = bytes.map fun byte => Char.ofNat byte.toNat := by
  obtain ⟨all, decoded⟩ := decode_of_ascii (shownAscii_of_ascii ascii)
  refine ⟨all, ?_⟩
  rw [decodeLossy, String.toList_ofList, decoded, List.map_map]
  rfl

theorem bytes_of_ascii (ascii : ∀ c ∈ (decodeLossy bytes).toList, IsAscii c) :
    bytes = encode (decodeLossy bytes) := by
  obtain ⟨all, shown⟩ := decodeLossy_of_ascii ascii
  have each : ∀ byte ∈ bytes, String.utf8EncodeChar (Char.ofNat byte.toNat) = [byte] :=
    fun byte member => utf8EncodeChar_ofNat (all byte member)
  rw [encode, shown, List.flatMap_map, List.flatMap_congr each, List.flatMap_singleton']

/-- Bytes whose text is in ASCII have no fault and no byte order mark. -/
theorem decodeStrict_of_ascii (ascii : ∀ c ∈ (decodeLossy bytes).toList, IsAscii c) :
    decodeStrict bytes = some (decodeLossy bytes) := by
  obtain ⟨all, shown⟩ := decodeLossy_of_ascii ascii
  have text : (decode bytes).mapM id = some (decodeLossy bytes).toList := by
    rw [(decode_of_ascii (shownAscii_of_ascii ascii)).2, List.mapM_map, shown]
    exact List.mapM_pure
  rw [decodeStrict, text, Option.map_some]
  split
  · rename_i same
    have mark : IsAscii '\uFEFF' := ascii _ (same ▸ List.mem_cons_self)
    exact absurd mark (by decide)
  · rw [String.ofList_toList]

end LeoFront.Text.Utf8
