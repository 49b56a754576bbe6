import Mathlib.Data.List.Basic
/-!
# Deciding along a list

What is asked of every item of a list can be decided by going through the list, or,
where there are finitely many values, by going through those.  Modules that open this
namespace go through the list.
-/

namespace Gostman.Lib.Decided

variable {α : Type*}

scoped instance (priority := 2000) decidableForallMem (p : α → Prop) [DecidablePred p] (items : List α) :
    Decidable (∀ item ∈ items, p item) :=
  List.decidableBAll p items

end Gostman.Lib.Decided
