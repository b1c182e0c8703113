import ConsLisp.Store

/-!
# Reversal in place

A chain is reversed by turning each second field back to the pair before.  The
atom that ends the chain is dropped.  The walk may meet a pair whose field it has
already turned: it then walks back over the stem and ends, so twice the number of
cells bounds the steps on every store, cyclic ones included.
-/

namespace ConsLisp.Store

/-- Turns the chain of `rest` back in front of `done`, for at most `fuel` pairs; with
the answer missing if pairs are left over. -/
def reverseOnto : Nat → Value → Value → Store → Option Value × Store
  | fuel, done, rest, s =>
    match s.cell? rest with
    | none => (some done, s)
    | some c =>
      match fuel with
      | 0 => (none, s)
      | fuel + 1 => reverseOnto fuel rest c.cdr (s.setCdr rest done)

/-- Reverses the chain of a value in place. -/
def reverse (s : Store) (v : Value) : Option Value × Store :=
  reverseOnto (2 * s.size) .nil v s

@[simp] theorem size_reverseOnto (fuel : Nat) (done rest : Value) (s : Store) :
    (reverseOnto fuel done rest s).2.size = s.size := by
  induction fuel generalizing done rest s with
  | zero => unfold reverseOnto; split <;> rfl
  | succ fuel ih =>
    unfold reverseOnto
    split
    · rfl
    · simp [ih]

@[simp] theorem size_reverse (s : Store) (v : Value) : (s.reverse v).2.size = s.size :=
  size_reverseOnto ..

end ConsLisp.Store
