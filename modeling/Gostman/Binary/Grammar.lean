import Gostman.Binary.Tree
import Gostman.Lib.Grammar
/-!
# How trees are written

The grammar of the items that the decoder goes on with, major type by major
type: each as CBOR writes it, or looser.
-/

namespace Gostman.Binary.Cbor

open Gostman.Lib

def firstByte (major info : Nat) : UInt8 :=
  UInt8.ofNat (major * 32 + info)

/-- An argument, by the additional information of the first byte: in that byte or
in the 1, 2, 4 or 8 bytes after it. -/
inductive Argument : Nat → Nat → Bytes → Prop where
  | short {info} (h : info < 24) : Argument info info []
  | wide {power argument} (hpower : power < 4) (h : argument < 256 ^ 2 ^ power) :
      Argument (24 + power) argument (bigEndian (2 ^ power) argument)

/-- Members up to something that the decoder takes for a break. -/
def Members (written : Node → Bytes → Prop) : List Node × Ending → Bytes → Prop :=
  UpTo (Ended breakEnds written)

/-- Keys and values up to a key that the decoder takes for a break. -/
def Entries (written : Node → Bytes → Prop) : List (Node × Node) × Ending → Bytes → Prop :=
  UpTo (EndedPair breakEnds written written)

def Definite (written : Node → Bytes → Prop) (argument : Nat) : Nat → Node → Bytes → Prop
  | 0, node, body => node = .integer 0 argument ∧ body = []
  | 1, node, body => node = .integer 1 argument ∧ body = []
  | 2, node, body => node = .bytes body ∧ body.length = argument
  | 3, node, body => node = .text body ∧ body.length = argument
  | 4, node, body => ∃ items, node = .array items none ∧ items.length = argument ∧ InRow written items body
  | 5, node, body =>
      ∃ entries, node = .map entries none ∧ entries.length = argument ∧ InRow (Paired written written) entries body
  | 6, node, body => ∃ content, node = .tag (some argument) content ∧ written content body
  | _, _, _ => False

/-- What follows the first byte of an item of indefinite length. -/
def Indefinite (written : Node → Bytes → Prop) : Nat → Node → Bytes → Prop
  | 2, node, body => ∃ found, node = .chunks 2 found.1 found.2 ∧ Members written found body
  | 3, node, body => ∃ found, node = .chunks 3 found.1 found.2 ∧ Members written found body
  | 4, node, body => ∃ found, node = .array found.1 (some found.2) ∧ Members written found body
  | 5, node, body => ∃ found, node = .map found.1 (some found.2) ∧ Entries written found body
  | 6, node, body => ∃ content, node = .tag none content ∧ written content body
  | _, _, _ => False

/-- A break, a simple value or a float, by the additional information. -/
inductive Simple : Nat → Node → Bytes → Prop where
  | stop : Simple 31 .stop []
  | narrow {info} (h : info < 24 ∨ 28 ≤ info ∧ info < 31) : Simple info (.simple info 0) []
  | wide {power bits} (hpower : power < 4) (h : bits < 256 ^ 2 ^ power) :
      Simple (24 + power) (.simple (24 + power) bits) (bigEndian (2 ^ power) bits)

/-- An item, where `written` says how the items in it are written. -/
inductive EncodesWith (written : Node → Bytes → Prop) : Node → Bytes → Prop where
  | definite {major info argument node head body} (hmajor : major < 7) (hhead : Argument info argument head)
      (hbody : Definite written argument major node body) :
      EncodesWith written node (firstByte major info :: (head ++ body))
  | indefinite {major node body} (hmajor : major < 7) (hbody : Indefinite written major node body) :
      EncodesWith written node (firstByte major 31 :: body)
  | simple {info node body} (h : Simple info node body) : EncodesWith written node (firstByte 7 info :: body)

/-- The bytes are written for the tree, whose items nest so many levels deep at
most. -/
def Encodes : Nat → Node → Bytes → Prop
  | 0 => fun _ _ => False
  | levels + 1 => EncodesWith (Encodes levels)

/-! ## Trees are cut as they are written -/

theorem firstByte_div_mod (b : UInt8) : firstByte (b.toNat / 32) (b.toNat % 32) = b := by
  rw [firstByte, Nat.div_add_mod']
  simp

theorem toNat_firstByte {major info : Nat} (hmajor : major < 8) (hinfo : info < 32) :
    (firstByte major info).toNat / 32 = major ∧ (firstByte major info).toNat % 32 = info := by
  have hbyte : (firstByte major info).toNat = major * 32 + info := by
    rw [firstByte, UInt8.toNat_ofNat', Nat.mod_eq_of_lt (by omega)]
  omega

theorem info_of_argument {info argument : Nat} {head : Bytes} (h : Argument info argument head) : info < 28 := by
  cases h <;> omega

theorem readArgument_wide {power : Nat} (h : power < 4) :
    readArgument (24 + power) = unsigned (2 ^ power) := by
  have hpower : power = 0 ∨ power = 1 ∨ power = 2 ∨ power = 3 := by omega
  rcases hpower with rfl | rfl | rfl | rfl <;> rfl

theorem reads_readArgument (info : Nat) : Reads (readArgument info) (Argument info) := by
  by_cases hshort : info < 24
  · have hread : readArgument info = fun bytes => some (info, bytes) := by
      funext bytes
      exact if_pos hshort
    rw [hread]
    refine (reads_pure info).congr fun argument head => ⟨?_, ?_⟩
    · rintro ⟨rfl, rfl⟩
      exact .short hshort
    · intro h
      cases h with
      | short => exact ⟨rfl, rfl⟩
      | wide => omega
  by_cases hwide : info < 28
  · obtain ⟨power, rfl⟩ : ∃ power, info = 24 + power := ⟨info - 24, by omega⟩
    rw [readArgument_wide (by omega)]
    refine (reads_unsigned _).congr fun argument head => ⟨?_, ?_⟩
    · rintro ⟨hargument, rfl⟩
      exact .wide (by omega) hargument
    · generalize hinfo : 24 + power = info
      intro h
      cases h with
      | short => omega
      | @wide other _ _ hargument =>
          obtain rfl : other = power := by omega
          exact ⟨hargument, rfl⟩
  · have hread : readArgument info = fun _ => none := by
      funext bytes
      unfold readArgument
      simp only [hshort, show info ≠ 24 by omega, show info ≠ 25 by omega, show info ≠ 26 by omega,
        show info ≠ 27 by omega, if_false]
    rw [hread]
    exact reads_none.congr fun argument head => ⟨False.elim, fun h => hwide (info_of_argument h)⟩

theorem reads_cutSimple {info : Nat} (hinfo : info < 32) : Reads (cutSimple info) (Simple info) := by
  by_cases hstop : info = 31
  · subst hstop
    refine (reads_pure Node.stop).congr fun node body => ⟨?_, ?_⟩
    · rintro ⟨rfl, rfl⟩
      exact .stop
    · intro h
      generalize hinfo : 31 = info at h
      cases h with
      | stop => exact ⟨rfl, rfl⟩
      | narrow h => omega
      | wide => omega
  by_cases hnarrow : info < 24 ∨ 28 ≤ info
  · have hread : cutSimple info = fun bytes => some (.simple info 0, bytes) := by
      funext bytes
      rw [cutSimple, if_neg hstop, if_pos hnarrow]
    rw [hread]
    refine (reads_pure (Node.simple info 0)).congr fun node body => ⟨?_, ?_⟩
    · rintro ⟨rfl, rfl⟩
      exact .narrow (by omega)
    · intro h
      cases h with
      | stop => exact absurd rfl hstop
      | narrow => exact ⟨rfl, rfl⟩
      | wide => omega
  · obtain ⟨power, rfl⟩ : ∃ power, info = 24 + power := ⟨info - 24, by omega⟩
    have hread : cutSimple (24 + power) =
        through (unsigned (2 ^ power)) fun bits => some (.simple (24 + power) bits) := by
      funext bytes
      rw [cutSimple, if_neg hstop, if_neg hnarrow, Nat.add_sub_cancel_left]
    rw [hread]
    refine ((reads_unsigned _).map fun bits => Node.simple (24 + power) bits).congr fun node body => ⟨?_, ?_⟩
    · rintro ⟨bits, rfl, hbits, rfl⟩
      exact .wide (by omega) hbits
    · generalize hinfo : 24 + power = info
      intro h
      cases h with
      | stop => omega
      | narrow h => omega
      | @wide other bits _ hbits =>
          obtain rfl : other = power := by omega
          exact ⟨bits, rfl, hbits, rfl⟩

section Nested

variable {nested : Reading Node} {written : Node → Bytes → Prop} (h : Reads nested written)
  (hpos : ∀ {node front}, written node front → front ≠ [])

include h

theorem reads_definite (argument : Nat) : ∀ {major : Nat}, major < 7 →
    Reads (cutBody nested major (some argument)) (Definite written argument major)
  | 0, _ => reads_pure _
  | 1, _ => reads_pure _
  | 2, _ => by
      refine ((reads_takeBytes argument).map Node.bytes).congr fun node body => ⟨?_, ?_⟩
      · rintro ⟨front, rfl, rfl, hlength⟩
        exact ⟨rfl, hlength⟩
      · rintro ⟨rfl, hlength⟩
        exact ⟨body, rfl, rfl, hlength⟩
  | 3, _ => by
      refine ((reads_takeBytes argument).map Node.text).congr fun node body => ⟨?_, ?_⟩
      · rintro ⟨front, rfl, rfl, hlength⟩
        exact ⟨rfl, hlength⟩
      · rintro ⟨rfl, hlength⟩
        exact ⟨body, rfl, rfl, hlength⟩
  | 4, _ => (h.times argument).map fun items => Node.array items none
  | 5, _ => ((h.inTurn h).times argument).map fun entries => Node.map entries none
  | 6, _ => h.map fun content => Node.tag (some argument) content
  | _ + 7, hmajor => absurd hmajor (by omega)

include hpos

theorem reads_members : Reads (cutUntil nested) (Members written) := by
  refine (h.orEnd breakEnds).toEnd ?_
  rintro (stop | value) front
  · rintro ⟨node, -, hwritten⟩
    exact hpos hwritten
  · rintro ⟨-, hwritten⟩
    exact hpos hwritten

theorem reads_entries : Reads (cutEntriesUntil nested) (Entries written) := by
  refine (h.inTurnOrEnd h breakEnds).toEnd ?_
  rintro (stop | pair) front
  · rintro ⟨node, -, hwritten⟩
    exact hpos hwritten
  · rintro ⟨-, key, value, hkey, -, rfl⟩
    exact fun hnil => hpos hkey (List.append_eq_nil_iff.1 hnil).1

theorem reads_indefinite : ∀ {major : Nat}, major < 7 →
    Reads (if major ≤ 1 then fun _ => none else cutBody nested major none) (Indefinite written major)
  | 0, _ | 1, _ => reads_none
  | 2, _ | 3, _ => (reads_members h hpos).map fun found => Node.chunks _ found.1 found.2
  | 4, _ => (reads_members h hpos).map fun found => Node.array found.1 (some found.2)
  | 5, _ => (reads_entries h hpos).map fun found => Node.map found.1 (some found.2)
  | 6, _ => h.map fun content => Node.tag none content
  | _ + 7, hmajor => absurd hmajor (by omega)

/-- An item is cut as it is written when the items in it are. -/
theorem reads_cutWith : Reads (cutWith nested) (EncodesWith written) := by
  intro bytes node rest
  constructor
  · intro hcut
    cases bytes with
    | nil => exact absurd hcut (Option.some_ne_none _).symm
    | cons initial bytes =>
        obtain ⟨major, info, hmajor, hinfo, rfl⟩ : ∃ major info, major < 8 ∧ info < 32 ∧
            initial = firstByte major info := by
          have hbyte := initial.toNat_lt
          exact ⟨_, _, by omega, Nat.mod_lt _ (by decide), (firstByte_div_mod initial).symm⟩
        obtain ⟨hdiv, hmod⟩ := toNat_firstByte hmajor hinfo
        unfold cutWith at hcut
        simp only [hdiv, hmod] at hcut
        by_cases hseven : major = 7
        · subst hseven
          rw [if_pos rfl] at hcut
          obtain ⟨body, hbody, rfl⟩ := (reads_cutSimple hinfo _ _ _).1 hcut
          exact ⟨firstByte 7 info :: body, .simple hbody, rfl⟩
        rw [if_neg hseven] at hcut
        by_cases hopen : info = 31
        · subst hopen
          rw [if_pos rfl] at hcut
          have hread : (if major ≤ 1 then fun _ => none else cutBody nested major none) bytes =
              some (node, rest) := by
            rw [← hcut]
            split <;> rfl
          obtain ⟨body, hbody, rfl⟩ := (reads_indefinite h hpos (by omega) _ _ _).1 hread
          exact ⟨firstByte major 31 :: body, .indefinite (by omega) hbody, rfl⟩
        · rw [if_neg hopen] at hcut
          obtain ⟨⟨argument, bytes'⟩, hargument, hcutBody⟩ := Option.bind_eq_some_iff.1 hcut
          obtain ⟨head, hhead, rfl⟩ := (reads_readArgument info _ _ _).1 hargument
          obtain ⟨body, hbody, rfl⟩ := (reads_definite h argument (by omega) _ _ _).1 hcutBody
          exact ⟨firstByte major info :: (head ++ body), .definite (by omega) hhead hbody, by simp⟩
  · rintro ⟨front, hfront, rfl⟩
    cases hfront with
    | @definite major info argument _ head body hmajor hhead hbody =>
        have hinfo := info_of_argument hhead
        obtain ⟨hdiv, hmod⟩ := toNat_firstByte (show major < 8 by omega) (show info < 32 by omega)
        rw [List.cons_append, List.append_assoc, cutWith]
        simp only [hdiv, hmod]
        rw [if_neg (by omega), if_neg (by omega),
          (reads_readArgument info _ _ (body ++ rest)).2 ⟨head, hhead, rfl⟩]
        exact (reads_definite h argument hmajor _ _ rest).2 ⟨body, hbody, rfl⟩
    | @indefinite major _ body hmajor hbody =>
        obtain ⟨hdiv, hmod⟩ := toNat_firstByte (show major < 8 by omega) (show 31 < 32 by omega)
        have hread := (reads_indefinite h hpos hmajor _ _ rest).2 ⟨body, hbody, rfl⟩
        rw [List.cons_append, cutWith]
        simp only [hdiv, hmod]
        rw [if_neg (by omega), if_pos trivial, ← hread]
        split <;> rfl
    | @simple info _ body hbody =>
        have hinfo : info < 32 := by cases hbody <;> omega
        obtain ⟨hdiv, hmod⟩ := toNat_firstByte (show 7 < 8 by omega) hinfo
        rw [List.cons_append, cutWith]
        simp only [hdiv, hmod]
        rw [if_pos trivial]
        exact (reads_cutSimple hinfo _ _ rest).2 ⟨body, hbody, rfl⟩

end Nested

theorem ne_nil_of_encodes {levels : Nat} {node : Node} {front : Bytes} (h : Encodes levels node front) :
    front ≠ [] := by
  cases levels with
  | zero => exact h.elim
  | succ levels => cases h <;> exact List.cons_ne_nil _ _

theorem reads_cut (levels : Nat) : Reads (cut levels) (Encodes levels) := by
  induction levels with
  | zero => exact reads_none
  | succ levels ih => exact reads_cutWith ih ne_nil_of_encodes

theorem cut_eq_some_nil {levels : Nat} {bytes : Bytes} {node : Node} :
    cut levels bytes = some (node, []) ↔ Encodes levels node bytes := by
  rw [reads_cut levels]
  constructor
  · rintro ⟨front, hfront, rfl⟩
    rwa [List.append_nil]
  · intro h
    exact ⟨bytes, h, (List.append_nil bytes).symm⟩

/-! ## What trees are written for -/

variable {runtime : Runtime}

mutual

def Node.binary : Node → Option Bytes
  | .bytes front => some front
  | .chunks major parts _ => if major = 3 then none else Node.binaries parts
  | .tag number content => if number = some 55799 then content.binary else none
  | _ => none

def Node.binaries : List Node → Option Bytes
  | [] => some []
  | part :: rest => part.binary.bind fun bytes => (Node.binaries rest).map (bytes ++ ·)

end

/-- The number of an integer or a float that JavaScript does not hold as a
`BigInt`. -/
def Node.number : Node → Option Number
  | .integer major argument =>
      if argument ≤ maxSafeInteger then
        some (.finite ((if major = 0 then (argument : Int) else -1 - argument) * one))
      else none
  | .simple info bits =>
      if info = 25 then some (float16 bits)
      else if info = 26 then some (float32 bits)
      else if info = 27 then some (float64 bits)
      else none
  | .tag number content =>
      if number = some 55799 then content.number
      else if number = some 2 ∨ number = some 3 then
        content.binary.bind fun bytes =>
          let value : Int := if number = some 3 then -1 - ofBigEndian bytes else ofBigEndian bytes
          if bytes.length ≤ maxBignumBytes ∧ value.natAbs ≤ maxSafeInteger then
            some (.finite (value * one))
          else none
      else none
  | _ => none

/-- Whether a tree is written for a text: one of the decoder's texts is the date
of a number. -/
def Node.isText : Node → Bool
  | .text _ => true
  | .chunks major _ _ => major == 3
  | .tag number content =>
      (number == some 55799 || number == some 0) && content.isText ||
        number == some 1 && content.number.isSome
  | _ => false

def bytesOf : Item → Option Bytes
  | .binary bytes => some bytes
  | _ => none

def numberOf : Item → Option Number
  | .number number => some number
  | _ => none

def isTextual : Item → Bool
  | .text _ => true
  | _ => false

structure Given (node : Node) (item : Item) : Prop where
  bytes : bytesOf item = node.binary
  number : numberOf item = node.number
  text : isTextual item = node.isText

theorem numberOf_fromBigInt (value : Int) : numberOf (fromBigInt value) =
    if value.natAbs ≤ maxSafeInteger then some (.finite (value * one)) else none := by
  unfold fromBigInt integer
  split <;> rfl

theorem joinBytes_eq {items : List Item} {parts : List Node}
    (h : List.Forall₂ Given parts items) : joinBytes items = Node.binaries parts := by
  induction h with
  | nil => rfl
  | @cons part item parts items hgiven hrest ih =>
      have hbytes := hgiven.bytes
      rw [Node.binaries, ← hbytes, ← ih]
      cases item <;> rfl

section Tagged

variable {tag : Option Nat} {content : Node} {value item : Item}

theorem binary_tag (h : tag ≠ some 55799) : (Node.tag tag content).binary = none := by
  rw [Node.binary, if_neg h]

theorem number_tag (h : tag ≠ some 55799) (hcontent : content.binary = none) :
    (Node.tag tag content).number = none := by
  rw [Node.number, if_neg h, hcontent]
  exact ite_self none

theorem isText_tag (h : tag ≠ some 55799) :
    (Node.tag tag content).isText = (tag == some 0 && content.isText || tag == some 1 && content.number.isSome) := by
  have hself : (tag == some 55799) = false := by simpa using h
  rw [Node.isText, hself, Bool.false_or]

theorem given_bignum {bytes : Bytes} (negative : Bool) (hcontent : content.binary = some bytes)
    (hnumber : content.number = none) (hlength : bytes.length ≤ maxBignumBytes) :
    Given (.tag (some (if negative then 3 else 2)) content) (bignum bytes negative) where
  bytes := by
    have hscalar := isScalar_fromBigInt (if negative then -1 - (ofBigEndian bytes : Int) else ofBigEndian bytes)
    rw [binary_tag (by cases negative <;> simp), bignum]
    cases hitem : fromBigInt (if negative then -1 - (ofBigEndian bytes : Int) else ofBigEndian bytes) with
    | binary => rw [hitem] at hscalar; exact absurd hscalar Bool.false_ne_true
    | _ => rfl
  number := by
    have hself : some (if negative then 3 else 2) ≠ some 55799 := by cases negative <;> decide
    have hbig : some (if negative then 3 else 2) = some 2 ∨ some (if negative then 3 else 2) = some 3 := by
      cases negative <;> decide
    rw [bignum, numberOf_fromBigInt, Node.number, if_neg hself, if_pos hbig, hcontent, Option.bind_some]
    simp only [hlength, true_and]
    cases negative <;> rfl
  text := by
    rw [isText_tag (by cases negative <;> simp), hnumber, bignum]
    unfold fromBigInt
    cases negative <;> simp <;> split <;> rfl

theorem given_tagged (hgiven : Given content value) (h : tagged runtime tag value = some item) :
    Given (.tag tag content) item := by
  obtain ⟨hbytes, hnumber, htext⟩ := hgiven
  by_cases hself : tag = some 55799
  · subst hself
    obtain rfl : value = item := by simpa [tagged] using h
    exact ⟨by simpa [Node.binary] using hbytes, by simpa [Node.number] using hnumber,
      by simpa [Node.isText] using htext⟩
  unfold tagged at h
  rw [if_neg hself] at h
  cases value with
  | text text =>
      obtain rfl := Option.some.inj h
      have hother : (Node.tag tag content).isText = (tag == some 0) := by
        rw [isText_tag hself, ← htext, ← hnumber]
        simp [isTextual, numberOf]
      refine ⟨?_, ?_, ?_⟩
      · rw [binary_tag hself]
        split_ifs <;> rfl
      · rw [number_tag hself hbytes.symm]
        split_ifs <;> rfl
      · rw [hother]
        split_ifs with hzero <;> simp [hzero, isTextual]
  | number number =>
      have hother : (Node.tag tag content).isText = (tag == some 1) := by
        rw [isText_tag hself, ← htext, ← hnumber]
        simp [isTextual, numberOf]
      simp only at h
      split_ifs at h with hone
      · obtain ⟨text, -, rfl⟩ := Option.map_eq_some_iff.1 h
        exact ⟨(binary_tag hself).symm, (number_tag hself hbytes.symm).symm, by
          rw [hother]; simp [hone, isTextual]⟩
      · obtain rfl := Option.some.inj h
        exact ⟨(binary_tag hself).symm, (number_tag hself hbytes.symm).symm, by
          rw [hother]; simp [hone, isTextual]⟩
  | binary bytes =>
      simp only at h
      split_ifs at h with htwo hthree
      · obtain rfl := Option.some.inj h
        obtain ⟨rfl, hlength⟩ := htwo
        exact given_bignum false hbytes.symm hnumber.symm hlength
      · obtain rfl := Option.some.inj h
        obtain ⟨rfl, hlength⟩ := hthree
        exact given_bignum true hbytes.symm hnumber.symm hlength
      · obtain rfl := Option.some.inj h
        refine ⟨(binary_tag hself).symm, ?_, ?_⟩
        · have hlong : tag = some 2 ∨ tag = some 3 → ¬ bytes.length ≤ maxBignumBytes :=
            fun hbig hlength => hbig.elim (fun h => htwo ⟨h, hlength⟩) fun h => hthree ⟨h, hlength⟩
          rw [Node.number, if_neg hself, ← hbytes]
          by_cases hbig : tag = some 2 ∨ tag = some 3
          · rw [if_pos hbig]
            exact (if_neg fun h => hlong hbig h.1).symm
          · rw [if_neg hbig]
            rfl
        · rw [isText_tag hself, ← htext, ← hnumber]
          simp [isTextual, numberOf]
  | _ =>
      obtain rfl := Option.some.inj h
      refine ⟨(binary_tag hself).symm, (number_tag hself hbytes.symm).symm, ?_⟩
      rw [isText_tag hself, ← htext, ← hnumber]
      simp [isTextual, numberOf]

end Tagged

/-- What is read of a tree is what the tree is written for. -/
theorem given_of_value {node : Node} {item : Item} (h : node.value runtime = some item) : Given node item := by
  induction node using Node.induct generalizing item with
  | integer major argument =>
    obtain rfl := Option.some.inj h
    unfold argumentItem
    by_cases hsafe : argument ≤ maxSafeInteger
    · simp only [if_pos hsafe]
      exact ⟨rfl, by rw [Node.number, if_pos hsafe]; rfl, rfl⟩
    · simp only [if_neg hsafe]
      exact ⟨rfl, by rw [Node.number, if_neg hsafe]; rfl, rfl⟩
  | bytes front =>
    obtain rfl := Option.some.inj h
    exact ⟨rfl, rfl, rfl⟩
  | text front =>
    obtain rfl := Option.some.inj h
    exact ⟨rfl, rfl, rfl⟩
  | chunks major parts ending ih =>
    obtain ⟨items, hitems, hjoined⟩ := Option.bind_eq_some_iff.1 h
    rw [values_eq] at hitems
    unfold joined at hjoined
    by_cases hmajor : major = 3
    · rw [if_pos hmajor] at hjoined
      obtain ⟨text, -, rfl⟩ := Option.map_eq_some_iff.1 hjoined
      exact ⟨by rw [Node.binary, if_pos hmajor]; rfl, rfl, by simp [Node.isText, hmajor, isTextual]⟩
    · rw [if_neg hmajor] at hjoined
      obtain ⟨bytes, hbytes, rfl⟩ := Option.map_eq_some_iff.1 hjoined
      rw [joinBytes_eq (forall₂_of_mapM hitems ih)] at hbytes
      exact ⟨by rw [Node.binary, if_neg hmajor, hbytes]; rfl, rfl, by simp [Node.isText, hmajor, isTextual]⟩
  | array items ending =>
    obtain ⟨values, -, harray⟩ := Option.bind_eq_some_iff.1 h
    obtain rfl := Option.some.inj harray
    exact ⟨rfl, rfl, rfl⟩
  | map entries ending =>
    obtain ⟨values, -, hobject⟩ := Option.bind_eq_some_iff.1 h
    obtain ⟨named, -, rfl⟩ := Option.map_eq_some_iff.1 hobject
    exact ⟨rfl, rfl, rfl⟩
  | tag number content ih =>
    obtain ⟨value, hvalue, htagged⟩ := Option.bind_eq_some_iff.1 h
    exact given_tagged (ih hvalue) htagged
  | simple info bits =>
    obtain rfl := Option.some.inj h
    unfold simpleItem
    split_ifs with hfalse htrue hnull hhalf hsingle hdouble hnext
    · subst hfalse; exact ⟨rfl, rfl, rfl⟩
    · subst htrue; exact ⟨rfl, rfl, rfl⟩
    · rcases hnull with rfl | rfl <;> exact ⟨rfl, rfl, rfl⟩
    · subst hhalf; exact ⟨rfl, rfl, rfl⟩
    · subst hsingle; exact ⟨rfl, rfl, rfl⟩
    · subst hdouble; exact ⟨rfl, rfl, rfl⟩
    · subst hnext; exact ⟨rfl, rfl, rfl⟩
    · exact ⟨rfl, by simp [Node.number, hhalf, hsingle, hdouble, numberOf], rfl⟩
  | stop =>
    obtain rfl := Option.some.inj h
    exact ⟨rfl, rfl, rfl⟩

/-! ## Keys -/

mutual

def Node.holdsMap : Node → Bool
  | .map _ _ => true
  | .array items _ => Node.anyHoldsMap items
  | .tag number content => number == some 55799 && content.holdsMap
  | _ => false

def Node.anyHoldsMap : List Node → Bool
  | [] => false
  | item :: rest => item.holdsMap || Node.anyHoldsMap rest

end

mutual

/-- Whether `String()` gives a text of a key that holds no map: it throws where a list
has a break for a member. -/
def Node.prints : Node → Bool
  | .array items _ => Node.allPrint items
  | .tag number content => number != some 55799 || content.prints
  | _ => true

def Node.allPrint : List Node → Bool
  | [] => true
  | item :: rest => !item.isBreak && item.prints && Node.allPrint rest

end

theorem anyHoldsMap_eq (items : List Node) : Node.anyHoldsMap items = items.any Node.holdsMap := by
  induction items with
  | nil => rfl
  | cons item items ih => rw [Node.anyHoldsMap, ih, List.any_cons]

theorem isSome_bind_bind {α β γ : Type} (first : Option α) (second : Option β) (f : α → β → γ) :
    (first.bind fun value => second.bind fun other => some (f value other)).isSome =
      (first.isSome && second.isSome) := by
  cases first <;> cases second <;> rfl

theorem isSome_strings_cons (item : Item) (items : List Item) :
    (Item.strings runtime (item :: items)).isSome =
      (!isMark item && (item.string runtime).isSome && (Item.strings runtime items).isSome) := by
  cases item with
  | null => simp [Item.strings, isMark, Item.string]
  | mark => rfl
  | _ =>
      rw [Item.strings, isMark, Bool.not_false, Bool.true_and]
      · exact isSome_bind_bind _ _ _
      all_goals simp

theorem isSome_string_of_isScalar {item : Item} (h : isScalar item = true) :
    (item.string runtime).isSome = true := by
  cases item with
  | text | number | bigint => rfl
  | _ => exact absurd h Bool.false_ne_true

theorem isSome_strings {nodes : List Node} {items : List Item}
    (h : List.Forall₂ (fun node item => isMark item = node.isBreak ∧ (item.string runtime).isSome = node.prints)
      nodes items) : (Item.strings runtime items).isSome = Node.allPrint nodes := by
  induction h with
  | nil => rfl
  | cons hfirst hrest ih => rw [isSome_strings_cons, ih, hfirst.1, hfirst.2, Node.allPrint]

/-- A key that holds no map has a text unless a break in a list keeps it from one. -/
theorem isSome_string {node : Node} {item : Item} (h : node.value runtime = some item)
    (hmap : node.holdsMap = false) : (item.string runtime).isSome = node.prints := by
  induction node using Node.induct generalizing item with
  | integer major argument =>
    obtain rfl := Option.some.inj h
    unfold argumentItem
    simp only
    split <;> rfl
  | bytes | text =>
    obtain rfl := Option.some.inj h
    rfl
  | chunks major parts ending =>
    obtain ⟨items, -, hjoined⟩ := Option.bind_eq_some_iff.1 h
    unfold joined at hjoined
    split at hjoined
    · obtain ⟨text, -, rfl⟩ := Option.map_eq_some_iff.1 hjoined
      rfl
    · obtain ⟨bytes, -, rfl⟩ := Option.map_eq_some_iff.1 hjoined
      rfl
  | array items ending ih =>
    obtain ⟨values, hvalues, harray⟩ := Option.bind_eq_some_iff.1 h
    obtain rfl := Option.some.inj harray
    rw [values_eq] at hvalues
    rw [Node.holdsMap, anyHoldsMap_eq, List.any_eq_false] at hmap
    rw [Item.string, Option.isSome_map, Node.prints]
    refine isSome_strings (forall₂_of_mapM hvalues fun node hnode item hitem => ?_)
    exact ⟨isMark_of_value hitem, ih node hnode hitem (by simpa using hmap node hnode)⟩
  | map entries ending => exact absurd hmap Bool.noConfusion
  | tag number content ih =>
    obtain ⟨value, hvalue, htagged⟩ := Option.bind_eq_some_iff.1 h
    rw [Node.holdsMap] at hmap
    rw [Node.prints]
    rcases tagged_cases htagged with ⟨rfl, rfl⟩ | ⟨htag, rfl | hscalar⟩
    · simpa using ih hvalue (by simpa using hmap)
    · simp [htag, Item.string]
    · simp [htag, isSome_string_of_isScalar hscalar]
  | simple info bits =>
    obtain rfl := Option.some.inj h
    unfold simpleItem
    split_ifs <;> rfl
  | stop =>
    obtain rfl := Option.some.inj h
    rfl

theorem keyOf_eq (item : Item) : keyOf runtime item = item.string runtime := by
  cases item <;> rfl

end Gostman.Binary.Cbor
