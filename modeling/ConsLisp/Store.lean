import ConsLisp.Value

/-!
# Stores

A store holds the cells of all pairs and hands out serial numbers to the objects
that are not pairs.  There are three operations on cells: `cons` makes a new one,
`setCar` and `setCdr` overwrite one field.  All else is said through the view
`cell?`, which is `none` on every value that is no pair.

Main statements: how each operation changes the view (`cell?_cons`,
`cell?_setCar`, `cell?_setCdr`).
-/

namespace ConsLisp

/-- The two fields of a pair. -/
structure Cell where
  car : Value
  cdr : Value
  deriving DecidableEq, Repr

/-- The cells of all pairs, and the number of serials handed out. -/
structure Store where
  cells : Array Cell := #[]
  serial : Nat := 0
  deriving Repr

namespace Store

instance : Inhabited Store := ⟨{}⟩

/-- The number of cells; no chain without a repetition is longer. -/
def size (s : Store) : Nat :=
  s.cells.size

/-- The fields of a pair; nothing for an atom. -/
def cell? (s : Store) : Value → Option Cell
  | .pair place => s.cells[place]?
  | _ => none

/-- Is the value a pair of this store? -/
def isPair (s : Store) (v : Value) : Bool :=
  (s.cell? v).isSome

/-- The first field of a pair; `nil` for an atom. -/
def car (s : Store) (v : Value) : Value :=
  ((s.cell? v).map Cell.car).getD .nil

/-- The second field of a pair; `nil` for an atom. -/
def cdr (s : Store) (v : Value) : Value :=
  ((s.cell? v).map Cell.cdr).getD .nil

/-- A new pair. -/
def cons (s : Store) (a d : Value) : Value × Store :=
  (.pair s.cells.size, { s with cells := s.cells.push ⟨a, d⟩ })

/-- Overwrites the first field of a pair; an atom has none. -/
def setCar (s : Store) (v a : Value) : Store :=
  match v with
  | .pair place => { s with cells := s.cells.modify place fun c => { c with car := a } }
  | _ => s

/-- Overwrites the second field of a pair; an atom has none. -/
def setCdr (s : Store) (v d : Value) : Store :=
  match v with
  | .pair place => { s with cells := s.cells.modify place fun c => { c with cdr := d } }
  | _ => s

/-- A new object for a number. -/
def number (s : Store) (n : Int) : Value × Store :=
  (.num n (some s.serial), { s with serial := s.serial + 1 })

/-- A new error value. -/
def error (s : Store) (fault : Fault) : Value × Store :=
  (.error s.serial fault, { s with serial := s.serial + 1 })

/-- A new function object for a primitive. -/
def primitive (s : Store) (p : Primitive) (name : String) : Value × Store :=
  (.primitive s.serial p name, { s with serial := s.serial + 1 })

/-- A new closure. -/
def closure (s : Store) (params body env : Value) : Value × Store :=
  (.closure s.serial params body env, { s with serial := s.serial + 1 })

/-! ## The view after each operation -/

theorem cell?_eq_some_iff {s : Store} {v : Value} {c : Cell} :
    s.cell? v = some c ↔ ∃ place, v = .pair place ∧ s.cells[place]? = some c := by
  cases v <;> simp [cell?]

/-- A pair of the store lies among its cells. -/
theorem lt_size_of_cell? {s : Store} {place : Nat} {c : Cell}
    (h : s.cell? (.pair place) = some c) : place < s.size := by
  simp only [cell?] at h
  exact (Array.getElem?_eq_some_iff.mp h).1

theorem car_of_cell? {s : Store} {v : Value} {c : Cell} (h : s.cell? v = some c) :
    s.car v = c.car := by
  rw [car, h]
  rfl

theorem cdr_of_cell? {s : Store} {v : Value} {c : Cell} (h : s.cell? v = some c) :
    s.cdr v = c.cdr := by
  rw [cdr, h]
  rfl

/-- A new pair has the given fields, and every older pair keeps its own. -/
theorem cell?_cons (s : Store) (a d v : Value) :
    (s.cons a d).2.cell? v = if v = (s.cons a d).1 then some ⟨a, d⟩ else s.cell? v := by
  cases v <;> simp [cell?, cons, Array.getElem?_push]

/-- The new pair is the one behind all others. -/
theorem cell?_cons_self (s : Store) (a d : Value) :
    (s.cons a d).2.cell? (.pair s.size) = some ⟨a, d⟩ := by
  simp [cell?, cons, size]

/-- The pair that `cons` makes is none of the store. -/
theorem cell?_cons_fresh (s : Store) (a d : Value) : s.cell? (s.cons a d).1 = none := by
  simp [cell?, cons]

@[simp] theorem size_cons (s : Store) (a d : Value) : (s.cons a d).2.size = s.size + 1 := by
  simp [size, cons]

/-- `setCar` changes the first field of one pair and nothing else. -/
theorem cell?_setCar (s : Store) (v a w : Value) :
    (s.setCar v a).cell? w =
      if w = v then (s.cell? w).map fun c => { c with car := a } else s.cell? w := by
  cases v <;> cases w <;> simp [cell?, setCar, Array.getElem?_modify, eq_comm]

/-- `setCdr` changes the second field of one pair and nothing else. -/
theorem cell?_setCdr (s : Store) (v d w : Value) :
    (s.setCdr v d).cell? w =
      if w = v then (s.cell? w).map fun c => { c with cdr := d } else s.cell? w := by
  cases v <;> cases w <;> simp [cell?, setCdr, Array.getElem?_modify, eq_comm]

/-- A pair with a new first field, beside the others. -/
theorem cell?_setCar_pair {s : Store} {place : Nat} {c : Cell}
    (hcell : s.cell? (.pair place) = some c) (a : Value) (other : Nat) :
    (s.setCar (.pair place) a).cell? (.pair other) =
      if other = place then some { c with car := a } else s.cell? (.pair other) := by
  rw [cell?_setCar]
  by_cases heq : other = place
  · simp [heq, hcell]
  · simp [heq]

/-- A pair with a new second field, beside the others. -/
theorem cell?_setCdr_pair {s : Store} {place : Nat} {c : Cell}
    (hcell : s.cell? (.pair place) = some c) (d : Value) (other : Nat) :
    (s.setCdr (.pair place) d).cell? (.pair other) =
      if other = place then some { c with cdr := d } else s.cell? (.pair other) := by
  rw [cell?_setCdr]
  by_cases heq : other = place
  · simp [heq, hcell]
  · simp [heq]

@[simp] theorem size_setCar (s : Store) (v a : Value) : (s.setCar v a).size = s.size := by
  cases v <;> simp [size, setCar]

@[simp] theorem size_setCdr (s : Store) (v d : Value) : (s.setCdr v d).size = s.size := by
  cases v <;> simp [size, setCdr]

@[simp] theorem serial_cons (s : Store) (a d : Value) : (s.cons a d).2.serial = s.serial := rfl

@[simp] theorem serial_setCar (s : Store) (v a : Value) : (s.setCar v a).serial = s.serial := by
  cases v <;> rfl

@[simp] theorem serial_setCdr (s : Store) (v d : Value) : (s.setCdr v d).serial = s.serial := by
  cases v <;> rfl

end Store

end ConsLisp
