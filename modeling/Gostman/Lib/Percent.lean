import Gostman.Lib.Utf8
/-!
# Percent-encoding

Bytes that are not kept are written as `%` and two hexadecimal digits.  When
`%` itself is not kept, what was written is read back.
-/

namespace Gostman.Lib.Percent

def mark : UInt8 := 0x25

/-- The upper-case hexadecimal digit of a number below 16. -/
def hexDigit (n : Nat) : UInt8 :=
  UInt8.ofNat (if n < 10 then 0x30 + n else 0x37 + n)

def digitValue (b : UInt8) : Option Nat :=
  let n := b.toNat
  if 0x30 ≤ n ∧ n ≤ 0x39 then some (n - 0x30)
  else if 0x61 ≤ n ∧ n ≤ 0x66 then some (n - 0x57)
  else if 0x41 ≤ n ∧ n ≤ 0x46 then some (n - 0x37)
  else none

def escapeByte (keep : UInt8 → Bool) (b : UInt8) : Bytes :=
  if keep b then [b] else [mark, hexDigit (b.toNat / 16), hexDigit (b.toNat % 16)]

def escape (keep : UInt8 → Bool) (bytes : Bytes) : Bytes :=
  bytes.flatMap (escapeByte keep)

/-- The bytes that were written, if every `%` is followed by two digits. -/
def unescape : Bytes → Option Bytes
  | [] => some []
  | b :: rest =>
      if b = mark then
        match rest with
        | high :: low :: rest =>
            match digitValue high, digitValue low with
            | some h, some l => (unescape rest).map (UInt8.ofNat (h * 16 + l) :: ·)
            | _, _ => none
        | _ => none
      else (unescape rest).map (b :: ·)

theorem digitValue_hexDigit {n : Nat} (h : n < 16) : digitValue (hexDigit n) = some n := by
  have hall : ∀ m : Fin 16, digitValue (hexDigit m.val) = some m.val := by decide
  exact hall ⟨n, h⟩

theorem unescape_escapeByte {keep : UInt8 → Bool} (hmark : keep mark = false) (b : UInt8) (rest : Bytes) :
    unescape (escapeByte keep b ++ rest) = (unescape rest).map (b :: ·) := by
  unfold escapeByte
  split_ifs with hkeep
  · have hne : b ≠ mark := by
      intro heq
      rw [heq, hmark] at hkeep
      exact Bool.false_ne_true hkeep
    rw [List.singleton_append, unescape.eq_def]
    simp only [hne, if_false]
  · have hlt : b.toNat < 256 := b.toNat_lt
    have hbyte : UInt8.ofNat (b.toNat / 16 * 16 + b.toNat % 16) = b := by
      rw [Nat.div_add_mod', UInt8.ofNat_toNat]
    simp only [List.cons_append, List.nil_append, unescape, if_true,
      digitValue_hexDigit (show b.toNat / 16 < 16 by omega), digitValue_hexDigit (Nat.mod_lt b.toNat (by decide)), hbyte]

theorem unescape_escape {keep : UInt8 → Bool} (hmark : keep mark = false) (bytes : Bytes) :
    unescape (escape keep bytes) = some bytes := by
  induction bytes with
  | nil => rfl
  | cons b rest ih =>
      rw [escape, List.flatMap_cons, unescape_escapeByte hmark, ← escape, ih]
      rfl

theorem escape_injective {keep : UInt8 → Bool} (hmark : keep mark = false) {first second : Bytes}
    (h : escape keep first = escape keep second) : first = second := by
  have hread := congrArg unescape h
  rw [unescape_escape hmark, unescape_escape hmark] at hread
  exact Option.some.inj hread

/-- What is written holds kept bytes, `%` and digits only. -/
theorem mem_escape {keep : UInt8 → Bool} {bytes : Bytes} {b : UInt8} (h : b ∈ escape keep bytes) :
    keep b = true ∨ b = mark ∨ ∃ n < 16, b = hexDigit n := by
  obtain ⟨source, -, hb⟩ := List.mem_flatMap.1 h
  unfold escapeByte at hb
  split_ifs at hb with hkeep
  · rw [List.mem_singleton.1 hb]
    exact .inl hkeep
  · have hlt : source.toNat < 256 := source.toNat_lt
    simp only [List.mem_cons, List.not_mem_nil, or_false] at hb
    rcases hb with rfl | rfl | rfl
    · exact .inr (.inl rfl)
    · exact .inr (.inr ⟨_, by omega, rfl⟩)
    · exact .inr (.inr ⟨_, by omega, rfl⟩)

theorem escape_ne_nil {keep : UInt8 → Bool} {bytes : Bytes} (h : bytes ≠ []) : escape keep bytes ≠ [] := by
  obtain ⟨b, rest, rfl⟩ := List.exists_cons_of_ne_nil h
  rw [escape, List.flatMap_cons, escapeByte]
  split_ifs <;> simp

/-- Reading leaves something of what is not empty. -/
theorem unescape_ne_nil {bytes decoded : Bytes} (h : unescape bytes = some decoded) (hne : bytes ≠ []) :
    decoded ≠ [] := by
  obtain ⟨b, rest, rfl⟩ := List.exists_cons_of_ne_nil hne
  rw [unescape.eq_def] at h
  rintro rfl
  dsimp only at h
  split at h
  · split at h
    · split at h <;> simp at h
    · cases h
  · simp at h

end Gostman.Lib.Percent
