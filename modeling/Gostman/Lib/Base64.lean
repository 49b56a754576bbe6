import Gostman.Lib.Utf8
/-!
# Base64

Three bytes are four symbols of six bits each.  A symbol that takes its bits
from some of the bytes only does not depend on the others, so the symbols
inside a piece of the bytes are the same wherever the piece begins at the same
place of a group of three.
-/

namespace Gostman.Lib

variable {β : Type*}

/-- The symbols of bytes; `pad` stands for the symbols missing in the last
group. -/
def base64 (symbol : Nat → β) (pad : Nat → List β) : Bytes → List β
  | [] => []
  | [a] => symbol (a.toNat / 4) :: symbol (a.toNat % 4 * 16) :: pad 2
  | [a, b] =>
      symbol (a.toNat / 4) :: symbol (a.toNat % 4 * 16 + b.toNat / 16) :: symbol (b.toNat % 16 * 4) :: pad 1
  | a :: b :: c :: rest =>
      symbol (a.toNat / 4) :: symbol (a.toNat % 4 * 16 + b.toNat / 16) ::
        symbol (b.toNat % 16 * 4 + c.toNat / 64) :: symbol (c.toNat % 64) :: base64 symbol pad rest

def unpadded (_missing : Nat) : List β :=
  []

theorem map_base64 {γ : Type*} (f : β → γ) (symbol : Nat → β) (pad : Nat → List β) (bytes : Bytes) :
    (base64 symbol pad bytes).map f = base64 (f ∘ symbol) (fun missing => (pad missing).map f) bytes := by
  fun_induction base64 symbol pad bytes with
  | case1 => rfl
  | case2 a => rfl
  | case3 a b => rfl
  | case4 a b c rest ih =>
      simp only [List.map_cons, ih]
      rfl

theorem filter_base64 {keep : β → Bool} (symbol : Nat → β) (pad : Nat → List β) (hsymbol : ∀ n, keep (symbol n) = true)
    (hpad : ∀ missing, (pad missing).filter keep = []) (bytes : Bytes) :
    (base64 symbol pad bytes).filter keep = base64 symbol unpadded bytes := by
  fun_induction base64 symbol pad bytes with
  | case1 => rfl
  | case2 a => simp [hsymbol, hpad, base64, unpadded]
  | case3 a b => simp [hsymbol, hpad, base64, unpadded]
  | case4 a b c rest ih => simp [hsymbol, ih, base64]

section Symbols

variable (symbol : Nat → β) (pad : Nat → List β)

theorem length_base64_unpadded (bytes : Bytes) :
    (base64 symbol unpadded bytes).length = (8 * bytes.length + 5) / 6 := by
  fun_induction base64 symbol (unpadded (β := β)) bytes with
  | case1 => rfl
  | case2 a => simp [unpadded]
  | case3 a b => simp [unpadded]
  | case4 a b c rest ih =>
      simp only [List.length_cons, ih]
      omega

theorem base64_append {lead : Bytes} (h : lead.length % 3 = 0) (rest : Bytes) :
    base64 symbol pad (lead ++ rest) = base64 symbol pad lead ++ base64 symbol pad rest := by
  fun_induction base64 symbol pad lead with
  | case1 => rfl
  | case2 a => simp at h
  | case3 a b => simp at h
  | case4 a b c more ih =>
      have hmore : more.length % 3 = 0 := by
        simp only [List.length_cons] at h
        omega
      rw [List.cons_append, List.cons_append, List.cons_append, base64, ih hmore]
      rfl

/-- The symbols that lie in the first bytes whole do not depend on the others,
nor on the padding. -/
theorem take_base64_append (other : Nat → List β) (lead rest : Bytes) :
    (base64 symbol pad (lead ++ rest)).take (8 * lead.length / 6) =
      (base64 symbol other lead).take (8 * lead.length / 6) := by
  fun_induction base64 symbol other lead with
  | case1 => simp
  | case2 a =>
      have hone : 8 * [a].length / 6 = 1 := by simp
      rw [hone]
      match rest with
      | [] => rfl
      | [_] => rfl
      | _ :: _ :: _ => rfl
  | case3 a b =>
      have htwo : 8 * [a, b].length / 6 = 2 := by simp
      rw [htwo]
      match rest with
      | [] => rfl
      | _ :: _ => rfl
  | case4 a b c more ih =>
      have hcount : 8 * (a :: b :: c :: more).length / 6 = 8 * more.length / 6 + 4 := by
        simp only [List.length_cons]
        omega
      rw [hcount, List.cons_append, List.cons_append, List.cons_append, base64]
      simp only [List.take_succ_cons, ih]

/-- Behind one byte, the third symbol is the first that does not depend on it. -/
theorem drop_base64_cons (a b : UInt8) (rest : Bytes) :
    (base64 symbol pad (a :: rest)).drop 2 = (base64 symbol pad (b :: rest)).drop 2 := by
  match rest with
  | [] => rfl
  | [_] => rfl
  | _ :: _ :: _ => rfl

theorem drop_base64_cons_cons (a b c d : UInt8) (rest : Bytes) :
    (base64 symbol pad (a :: b :: rest)).drop 3 = (base64 symbol pad (c :: d :: rest)).drop 3 := by
  cases rest <;> rfl

/-- The symbols inside a piece of the bytes, which begins behind `offset` bytes
of a group. -/
def inside (piece : Bytes) (offset : Nat) : List β :=
  let shifted := List.replicate offset 0 ++ piece
  let first := (8 * offset + 6 - 1) / 6
  let last := 8 * shifted.length / 6
  ((base64 symbol unpadded shifted).take last).drop first

theorem length_inside (piece : Bytes) (offset : Nat) :
    (inside symbol piece offset).length = 8 * (offset + piece.length) / 6 - (8 * offset + 5) / 6 := by
  unfold inside
  simp only [List.length_drop, List.length_take, length_base64_unpadded, List.length_append, List.length_replicate]
  omega

/-- There are at least as many of them as bytes. -/
theorem le_length_inside {piece : Bytes} (h : 2 ≤ piece.length) (offset : Nat) :
    piece.length ≤ (inside symbol piece offset).length := by
  rw [length_inside]
  omega

/-- What stands before the piece in its group does not matter. -/
theorem drop_base64_lead {lead : Bytes} (h : lead.length < 3) (rest : Bytes) :
    (base64 symbol pad (lead ++ rest)).drop ((8 * lead.length + 5) / 6) =
      (base64 symbol pad (List.replicate lead.length 0 ++ rest)).drop ((8 * lead.length + 5) / 6) := by
  match lead with
  | [] => rfl
  | [a] =>
      have htwo : (8 * [a].length + 5) / 6 = 2 := by simp
      rw [htwo]
      exact drop_base64_cons symbol pad a 0 rest
  | [a, b] =>
      have hthree : (8 * [a, b].length + 5) / 6 = 3 := by simp
      rw [hthree]
      exact drop_base64_cons_cons symbol pad a b 0 0 rest
  | _ :: _ :: _ :: _ =>
      simp only [List.length_cons] at h
      omega

theorem inside_eq {lead : Bytes} (h : lead.length < 3) (piece rest : Bytes) :
    inside symbol piece lead.length =
      ((base64 symbol pad (lead ++ piece ++ rest)).take (8 * (lead ++ piece).length / 6)).drop
        ((8 * lead.length + 5) / 6) := by
  rw [take_base64_append symbol pad unpadded (lead ++ piece) rest]
  unfold inside
  dsimp only
  have hfirst : (8 * lead.length + 6 - 1) / 6 = (8 * lead.length + 5) / 6 := by omega
  rw [hfirst, List.drop_take, List.drop_take, drop_base64_lead symbol unpadded h piece, List.length_append,
    List.length_append, List.length_replicate]

/-- Bytes are whole groups of three and at most two more. -/
theorem exists_groups (bytes : Bytes) :
    ∃ groups lead, bytes = groups ++ lead ∧ groups.length % 3 = 0 ∧ lead.length = bytes.length % 3 := by
  refine ⟨bytes.take (bytes.length - bytes.length % 3), bytes.drop (bytes.length - bytes.length % 3), ?_, ?_, ?_⟩
  · exact (List.take_append_drop _ bytes).symm
  · rw [List.length_take]
    omega
  · rw [List.length_drop]
    omega

/-- The symbols inside a piece stand in the base64 of any bytes around it. -/
theorem inside_infix_base64 (before piece after : Bytes) :
    inside symbol piece (before.length % 3) <:+: base64 symbol pad (before ++ piece ++ after) := by
  obtain ⟨groups, lead, hbefore, hgroups, hlead⟩ := exists_groups before
  have hlt : lead.length < 3 := by
    rw [hlead]
    exact Nat.mod_lt _ (by decide)
  rw [← hlead, hbefore, List.append_assoc, List.append_assoc, base64_append symbol pad hgroups,
    ← List.append_assoc lead, inside_eq symbol pad hlt piece after]
  have hinside := (List.drop_suffix ((8 * lead.length + 5) / 6)
    ((base64 symbol pad (lead ++ piece ++ after)).take (8 * (lead ++ piece).length / 6))).isInfix
  exact (hinside.trans (List.take_prefix _ _).isInfix).trans (List.suffix_append _ _).isInfix

end Symbols

end Gostman.Lib
