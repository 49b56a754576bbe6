import Gostman.Lib.EcmaRead
/-!
# Texts that `JSON.parse` reads back

A written list of written values is read as the values, whatever blanks stand
between them.
-/

namespace Gostman.Lib.EcmaJson

/-! ## Values that were read -/

/-- The numbers of a value are number texts, the properties of its objects are
in order. -/
inductive Good : Value Units → Prop
  | null : Good .null
  | bool (value : Bool) : Good (.bool value)
  | num {text : Units} (number : isNumber text = true) (units : ∀ u ∈ text, isNumberUnit u = true) : Good (.num text)
  | str (units : Units) : Good (.str units)
  | arr {items : List (Value Units)} (items_good : ∀ item ∈ items, Good item) : Good (.arr items)
  | obj {fields : List (Units × Value Units)} (ordered : Ordered fields) (fields_good : ∀ field ∈ fields, Good field.2) :
      Good (.obj fields)

section Lists

variable {α : Type} {item : Units → Option (α × Units)} {close : UInt16} {P : α → Prop}

theorem forall_of_readItems (h : ∀ text value left, item text = some (value, left) → P value) {fuel : Nat} {text left : Units}
    {values : List α} (hread : readItems item close fuel text = some (values, left)) : ∀ value ∈ values, P value := by
  induction fuel generalizing text left values with
  | zero => cases hread
  | succ fuel ih =>
    obtain ⟨value, rest, hitem, hmore⟩ := exists_of_readItems hread
    intro found hfound
    rcases hmore with ⟨more, others, -, hothers, rfl⟩ | ⟨-, -, rfl⟩
    · rcases List.mem_cons.1 hfound with rfl | hin
      · exact h text found rest hitem
      · exact ih hothers found hin
    · rw [List.mem_singleton.1 hfound]
      exact h text value rest hitem

theorem forall_of_readList (h : ∀ text value left, item text = some (value, left) → P value) {text left : Units}
    {values : List α} (hread : readList item close text = some (values, left)) : ∀ value ∈ values, P value := by
  rcases exists_of_readList hread with ⟨-, rfl⟩ | ⟨u, rest, -, -, hitems⟩
  · exact fun value hvalue => absurd hvalue List.not_mem_nil
  · exact forall_of_readItems h hitems

theorem forall_ofMembers {members : List (Units × α)} (h : ∀ member ∈ members, P member.2) :
    ∀ field ∈ ofMembers members, P field.2 := by
  have hset : ∀ (fields : List (Units × α)) (key : Units) (value : α), (∀ field ∈ fields, P field.2) → P value →
      ∀ field ∈ setOwn fields key value, P field.2 := by
    intro fields key value hfields hvalue field hfield
    unfold setOwn at hfield
    split_ifs at hfield
    · obtain ⟨source, hsource, rfl⟩ := List.mem_map.1 hfield
      split_ifs
      · exact hvalue
      · exact hfields source hsource
    · rcases List.mem_append.1 hfield with hbefore | hbehind
      · exact hfields field ((List.takeWhile_prefix _).subset hbefore)
      · rcases List.mem_cons.1 hbehind with rfl | hin
        · exact hvalue
        · exact hfields field ((List.dropWhile_suffix _).subset hin)
  have hall : ∀ (members fields : List (Units × α)), (∀ member ∈ members, P member.2) → (∀ field ∈ fields, P field.2) →
      ∀ field ∈ members.foldl (fun fields member => setOwn fields member.1 member.2) fields, P field.2 := by
    intro members
    induction members with
    | nil => exact fun fields _ hfields => hfields
    | cons member rest ih =>
      intro fields hmembers hfields
      rw [List.foldl_cons]
      apply ih _ fun other hother => hmembers other (List.mem_cons_of_mem _ hother)
      exact hset fields member.1 member.2 hfields (hmembers member List.mem_cons_self)
  exact hall members [] h fun field hfield => absurd hfield List.not_mem_nil

end Lists

theorem good_of_readValue {fuel : Nat} {text left : Units} {value : Value Units}
    (h : readValue id fuel text = some (value, left)) : Good value := by
  induction fuel generalizing text left value with
  | zero => cases h
  | succ fuel ih =>
    obtain ⟨u, rest, -, hkind⟩ := exists_of_readValue h
    rcases hkind with ⟨-, members, hread, rfl⟩ | ⟨-, items, hread, rfl⟩ | ⟨-, units, -, rfl⟩ | ⟨-, -, rfl⟩ | ⟨-, -, rfl⟩ |
      ⟨-, -, rfl⟩ | ⟨-, hnumber, rfl⟩
    · have hmembers : ∀ member ∈ members, Good member.2 := by
        apply forall_of_readList (P := fun member : Units × Value Units => Good member.2) _ hread
        intro inner member behind hmember
        obtain ⟨-, -, after, -, -, -, hvalue⟩ := exists_of_readMember hmember
        exact ih hvalue
      exact .obj (ordered_ofMembers members) (forall_ofMembers hmembers)
    · exact .arr (forall_of_readList (fun inner item behind hitem => ih hitem) hread)
    · exact .str units
    · exact .bool true
    · exact .bool false
    · exact .null
    · exact .num hnumber fun u hu => List.mem_takeWhile_imp hu

/-! ## Written lists -/

def Separate (rest : Units) : Prop :=
  ∀ u more, rest = u :: more → isNumberUnit u = false

theorem separate_nil : Separate [] := by
  intro u more h
  cases h

theorem separate_cons {u : UInt16} (h : isNumberUnit u = false) (rest : Units) : Separate (u :: rest) := by
  intro v more heq
  cases heq
  exact h

theorem isNumberUnit_of_isSpace {u : UInt16} (h : isSpace u = true) : isNumberUnit u = false := by
  cases hunit : isNumberUnit u with
  | false => rfl
  | true =>
    rw [isSpace_of_isNumberUnit hunit] at h
    cases h

theorem separate_blanks {blanks : Units} (h : ∀ u ∈ blanks, isSpace u = true) {rest : Units} (hrest : Separate rest) :
    Separate (blanks ++ rest) := by
  cases blanks with
  | nil => exact hrest
  | cons u blanks => exact separate_cons (isNumberUnit_of_isSpace (h u List.mem_cons_self)) _

structure Closes (close : UInt16) : Prop where
  ne_comma : close ≠ comma
  isSpace : isSpace close = false
  isNumberUnit : isNumberUnit close = false

/-- A part is read as a value, in a text that is no longer than the bound. -/
structure Part {α : Type} (item : Units → Option (α × Units)) (close : UInt16) (bound : Nat) (part : Units) (value : α) : Prop where
  head : ∃ u rest, part = u :: rest ∧ isSpace u = false ∧ u ≠ close
  reads : ∀ more, Separate more → (part ++ more).length ≤ bound → item (part ++ more) = some (value, more)

section Written

variable {α : Type} {item : Units → Option (α × Units)} {close : UInt16} {bound : Nat} {gap ending rest : Units}

theorem Part.skip_append {part : Units} {value : α} (h : Part item close bound part value) (more : Units) :
    skip (part ++ more) = part ++ more := by
  obtain ⟨u, behind, rfl, hspace, -⟩ := h.head
  exact skip_of_head hspace _

theorem skip_intercalate {parts : List Units} {values : List α} (h : List.Forall₂ (Part item close bound) parts values)
    (hne : parts ≠ []) (more : Units) :
    ∃ u behind, List.intercalate (comma :: gap) parts ++ more = u :: behind ∧ isSpace u = false ∧ u ≠ close := by
  cases h with
  | nil => exact absurd rfl hne
  | cons hpart hrest =>
    obtain ⟨u, behind, rfl, hspace, hclose⟩ := hpart.head
    cases hrest with
    | nil => exact ⟨u, behind ++ more, by rw [List.intercalate_singleton]; rfl, hspace, hclose⟩
    | cons _ _ => exact ⟨u, _, by rw [List.intercalate_cons_cons]; rfl, hspace, hclose⟩

theorem readItems_intercalate (hclose : Closes close) (hgap : ∀ u ∈ gap, isSpace u = true)
    (hending : ∀ u ∈ ending, isSpace u = true) {parts : List Units} {values : List α}
    (h : List.Forall₂ (Part item close bound) parts values) (hne : parts ≠ [])
    (hbound : (List.intercalate (comma :: gap) parts ++ (ending ++ close :: rest)).length ≤ bound) {fuel : Nat}
    (hfuel : parts.length ≤ fuel) :
    readItems item close fuel (List.intercalate (comma :: gap) parts ++ (ending ++ close :: rest)) = some (values, rest) := by
  induction h generalizing fuel with
  | nil => exact absurd rfl hne
  | @cons part value parts values hpart hparts ih =>
    cases fuel with
    | zero => exact absurd hfuel (Nat.not_succ_le_zero _)
    | succ fuel =>
      have hend : Separate (ending ++ close :: rest) := separate_blanks hending (separate_cons hclose.isNumberUnit rest)
      cases hparts with
      | nil =>
        rw [List.intercalate_singleton] at hbound ⊢
        apply readItems_last fuel hclose.ne_comma (hpart.reads _ hend hbound)
        rw [EcmaJson.skip_append hending, skip_of_head hclose.isSpace]
      | @cons next other parts values hnext hothers =>
        have hall := List.Forall₂.cons hnext hothers
        rw [List.intercalate_cons_cons, List.append_assoc, List.append_assoc] at hbound ⊢
        have hitem := hpart.reads _ (separate_cons (by decide) _) hbound
        obtain ⟨u, behind, hhead, hspace, -⟩ := @skip_intercalate _ _ _ _ gap _ _ hall (List.cons_ne_nil _ _) (ending ++ close :: rest)
        refine readItems_more hitem (skip_of_head (by decide)
          (gap ++ (List.intercalate (comma :: gap) (next :: parts) ++ (ending ++ close :: rest)))) ?_
        rw [EcmaJson.skip_append hgap, hhead, skip_of_head hspace, ← hhead]
        apply ih (List.cons_ne_nil _ _) _ (Nat.le_of_succ_le_succ hfuel)
        rw [List.length_append, List.length_append] at hbound
        omega

theorem length_le_intercalate {parts : List Units} {values : List α} (h : List.Forall₂ (Part item close bound) parts values) :
    parts.length ≤ (List.intercalate (comma :: gap) parts).length := by
  induction h with
  | nil => exact Nat.zero_le _
  | @cons part value parts values hpart hparts ih =>
    obtain ⟨u, behind, rfl, -, -⟩ := hpart.head
    cases hparts with
    | nil =>
      rw [List.intercalate_singleton]
      simp only [List.length_cons, List.length_nil]
      omega
    | cons _ _ =>
      rw [List.intercalate_cons_cons]
      simp only [List.length_append, List.length_cons] at ih ⊢
      omega

theorem readList_written (hclose : Closes close) {lead : Units} (hlead : ∀ u ∈ lead, isSpace u = true)
    (hgap : ∀ u ∈ gap, isSpace u = true) (hending : ∀ u ∈ ending, isSpace u = true) {parts : List Units} {values : List α}
    (h : List.Forall₂ (Part item close bound) parts values) (hne : parts ≠ [])
    (hbound : (List.intercalate (comma :: gap) parts ++ (ending ++ close :: rest)).length ≤ bound) :
    readList item close (lead ++ (List.intercalate (comma :: gap) parts ++ (ending ++ close :: rest))) = some (values, rest) := by
  obtain ⟨u, behind, hhead, hspace, hu⟩ := @skip_intercalate _ _ _ _ gap _ _ h hne (ending ++ close :: rest)
  have hlength := @length_le_intercalate _ _ _ _ gap _ _ h
  have hskip : skip (lead ++ (List.intercalate (comma :: gap) parts ++ (ending ++ close :: rest))) = u :: behind := by
    rw [EcmaJson.skip_append hlead, hhead, skip_of_head hspace]
  apply readList_items hskip hu
  rw [← hhead]
  apply readItems_intercalate hclose hgap hending h hne hbound
  have htotal := congrArg List.length hhead
  rw [List.length_append, List.length_cons] at htotal
  omega

end Written

end Gostman.Lib.EcmaJson
