import ConsLisp.Proofs.Reference
import Mathlib.Data.Set.Defs

/-!
# Names that a form asks for

A form asks for the values of the symbols in it that are evaluated, and it may assign to a name.
The head of a special form is neither: it is never looked up.

A form may avoid a set of names: then no evaluation of it looks one of them up, unless in the body
of a closure that was made elsewhere.
-/

namespace ConsLisp.Datum

mutual

/-- The form asks for none of these names. -/
def Avoids (names : Set String) : Datum → Prop
  | sym name => name ∉ names
  | pair _ head args => (head.special?.isSome ∨ head.Avoids names) ∧ args.AllAvoid names
  | _ => True

/-- No form of the list asks for one of these names. -/
def AllAvoid (names : Set String) : Datum → Prop
  | pair _ form rest => form.Avoids names ∧ rest.AllAvoid names
  | _ => True

end

variable {names : Set String} {v : Datum}

theorem AllAvoid.car (h : v.AllAvoid names) : v.car.Avoids names := by
  cases v with
  | pair => exact h.1
  | _ => trivial

theorem AllAvoid.cdr (h : v.AllAvoid names) : v.cdr.AllAvoid names := by
  cases v with
  | pair => exact h.2
  | _ => trivial

/-- Every form avoids no name at all. -/
theorem avoids_empty (v : Datum) : v.Avoids ∅ ∧ v.AllAvoid ∅ := by
  induction v with
  | pair n a d iha ihd => exact ⟨⟨.inr iha.1, ihd.2⟩, iha.1, ihd.2⟩
  | sym name => exact ⟨id, trivial⟩
  | _ => exact ⟨trivial, trivial⟩

end ConsLisp.Datum
