import ConsLisp.Application
import ConsLisp.Proofs.Store.Links
import Mathlib.Data.Rat.Floor
import Mathlib.Tactic.Linarith

/-!
# The laws of arithmetic

The quotient and the remainder are made of the sizes of two numbers and their signs.  They are the
only numbers that share out the dividend so that the remainder is smaller than the divisor and has
the sign of the dividend, and the quotient is the fraction without its part behind the point.

Sums and products are taken over all arguments, the other operations over the first two.  Whatever
is no number is refused before anything else is looked at, a divisor of zero included.

Main statement: the result of each operation on every list of arguments (`applyTo_arithmetic`).
-/

namespace ConsLisp

namespace Arithmetic

/-- The dividend `x` is shared out by `y` into `q` whole parts and a rest `r`, which is smaller than
the divisor and has the sign of the dividend. -/
structure Shares (x y q r : Int) : Prop where
  whole : x = y * q + r
  smaller : |r| < |y|
  signed : r = 0 ∨ r.sign = x.sign

variable {x y q r q' r' : Int}

/-! ## The quotient and the remainder -/

/-- The remainder is that of the sizes, with the sign of the dividend. -/
theorem remainderOf_eq (x y : Int) :
    remainderOf x y =
      if x < 0 then -((x.natAbs % y.natAbs : Nat) : Int) else (x.natAbs % y.natAbs : Nat) := by
  have hsizes : (y.natAbs : Int) * (x.natAbs / y.natAbs : Nat) + (x.natAbs % y.natAbs : Nat) =
      x.natAbs := by
    exact_mod_cast Nat.div_add_mod x.natAbs y.natAbs
  have hnegative {z : Int} (hz : z < 0) : (z.natAbs : Int) = -z :=
    Int.ofNat_natAbs_of_nonpos hz.le
  have hpositive {z : Int} (hz : 0 ≤ z) : (z.natAbs : Int) = z := Int.natAbs_of_nonneg hz
  unfold remainderOf quotientOf
  -- The sizes are the numbers themselves up to their signs, of which there are four cases.
  rcases lt_or_ge x 0 with hx | hx <;> rcases lt_or_ge y 0 with hy | hy
  · rw [hnegative hx, hnegative hy] at hsizes
    simp only [hx, hy, if_true]
    linarith
  · rw [hnegative hx, hpositive hy] at hsizes
    simp only [hx, hy.not_gt, iff_false, not_true, if_true, if_false]
    linarith
  · rw [hpositive hx, hnegative hy] at hsizes
    simp only [hx.not_gt, hy, iff_true, if_false]
    linarith
  · rw [hpositive hx, hpositive hy] at hsizes
    simp only [hx.not_gt, hy.not_gt, if_true, if_false]
    linarith

/-- The quotient and the remainder share out the dividend. -/
theorem shares_quotientOf (hy : y ≠ 0) : Shares x y (quotientOf x y) (remainderOf x y) := by
  have hlt : x.natAbs % y.natAbs < y.natAbs := Nat.mod_lt _ (Int.natAbs_pos.mpr hy)
  have hle : x.natAbs % y.natAbs ≤ x.natAbs := Nat.mod_le _ _
  refine ⟨?_, ?_, ?_⟩
  · unfold remainderOf
    omega
  · rw [remainderOf_eq, Int.abs_eq_natAbs, Int.abs_eq_natAbs]
    split <;> omega
  · rw [remainderOf_eq]
    rcases Nat.eq_zero_or_pos (x.natAbs % y.natAbs) with hzero | hpos
    · exact .inl (by simp [hzero])
    · right
      split
      · next hx => rw [Int.sign_eq_neg_one_of_neg hx, Int.sign_eq_neg_one_of_neg (by omega)]
      · next hx => rw [Int.sign_eq_one_of_pos (by omega), Int.sign_eq_one_of_pos (by omega)]

namespace Shares

theorem nonneg (h : Shares x y q r) (hx : 0 ≤ x) : 0 ≤ r := by
  rcases h.signed with hzero | hsign
  · exact hzero.ge
  · rwa [← Int.sign_nonneg_iff, hsign, Int.sign_nonneg_iff]

theorem nonpos (h : Shares x y q r) (hx : x ≤ 0) : r ≤ 0 := by
  rcases h.signed with hzero | hsign
  · exact hzero.le
  · rwa [← Int.sign_nonpos_iff, hsign, Int.sign_nonpos_iff]

/-- The dividend is shared out in one way only: two rests with the sign of the dividend differ by
less than the divisor, which divides their difference. -/
theorem unique (h : Shares x y q r) (h' : Shares x y q' r') : q' = q ∧ r' = r := by
  have hdifference : y * (q - q') = r' - r := by
    rw [mul_sub]
    linarith [h.whole, h'.whole]
  have hclose : (r' - r).natAbs < y.natAbs := by
    have hsmaller := h.smaller
    have hsmaller' := h'.smaller
    rw [Int.abs_eq_natAbs, Int.abs_eq_natAbs] at hsmaller hsmaller'
    rcases le_total 0 x with hx | hx
    · have hr := h.nonneg hx
      have hr' := h'.nonneg hx
      omega
    · have hr := h.nonpos hx
      have hr' := h'.nonpos hx
      omega
  have hrest : r' - r = 0 :=
    Int.eq_zero_of_dvd_of_natAbs_lt_natAbs ⟨q - q', hdifference.symm⟩ hclose
  have hy : y ≠ 0 := by
    rintro rfl
    simp at hclose
  have hwhole : q - q' = 0 := by
    rw [hrest] at hdifference
    exact (mul_eq_zero.mp hdifference).resolve_left hy
  omega

end Shares

/-- A fraction without its part behind the point. -/
def towardZero (f : ℚ) : Int :=
  if 0 ≤ f then ⌊f⌋ else ⌈f⌉

/-- What is left of the fraction has the sign of the fraction. -/
theorem Shares.part_signed (h : Shares x y q r) :
    (0 ≤ (x : ℚ) / y → 0 ≤ (r : ℚ) / y) ∧ ((x : ℚ) / y ≤ 0 → (r : ℚ) / y ≤ 0) := by
  have hnonneg (hx : 0 ≤ (x : ℚ)) : 0 ≤ (r : ℚ) := by exact_mod_cast h.nonneg (by exact_mod_cast hx)
  have hnonpos (hx : (x : ℚ) ≤ 0) : (r : ℚ) ≤ 0 := by exact_mod_cast h.nonpos (by exact_mod_cast hx)
  constructor
  · intro hf
    rcases div_nonneg_iff.mp hf with ⟨hx, hy⟩ | ⟨hx, hy⟩
    · exact div_nonneg (hnonneg hx) hy
    · exact div_nonneg_of_nonpos (hnonpos hx) hy
  · intro hf
    rcases div_nonpos_iff.mp hf with ⟨hx, hy⟩ | ⟨hx, hy⟩
    · exact div_nonpos_of_nonneg_of_nonpos (hnonneg hx) hy
    · exact div_nonpos_of_nonpos_of_nonneg (hnonpos hx) hy

/-- The number of whole parts is the fraction, rounded toward zero. -/
theorem Shares.eq_towardZero (h : Shares x y q r) : q = towardZero (x / y) := by
  have hsmaller : |(r : ℚ)| < |(y : ℚ)| := by exact_mod_cast h.smaller
  have hy : (0 : ℚ) < |(y : ℚ)| := lt_of_le_of_lt (abs_nonneg _) hsmaller
  have hfraction : (x : ℚ) / y = q + r / y := by
    have hwhole : (x : ℚ) = y * q + r := by exact_mod_cast h.whole
    field_simp [abs_pos.mp hy]
    linarith
  have hpart : |(r : ℚ) / y| < 1 := by
    rw [abs_div]
    exact (div_lt_one hy).mpr hsmaller
  obtain ⟨hlow, hhigh⟩ := abs_lt.mp hpart
  unfold towardZero
  split
  · next hf =>
    have hpart' : 0 ≤ (r : ℚ) / y := h.part_signed.1 hf
    rw [eq_comm, Int.floor_eq_iff, hfraction]
    constructor <;> linarith
  · next hf =>
    have hpart' : (r : ℚ) / y ≤ 0 := h.part_signed.2 (le_of_not_ge hf)
    rw [eq_comm, Int.ceil_eq_iff, hfraction]
    constructor <;> linarith

theorem mapM_num? {values : List Value} {ns : List Int}
    (h : values.map Value.num? = ns.map some) : values.mapM Value.num? = some ns := by
  induction values generalizing ns with
  | nil =>
    obtain rfl : ns = [] := by simpa using h.symm
    rfl
  | cons v values ih =>
    obtain ⟨n, ns, rfl⟩ : ∃ n ns', ns = n :: ns' := by
      cases ns with
      | nil => simp at h
      | cons n ns => exact ⟨n, ns, rfl⟩
    obtain ⟨hv, hvalues⟩ := List.cons.inj h
    rw [List.mapM_cons, hv, ih hvalues]
    rfl

/-- Numbers have a sum. -/
theorem sum?_eq {values : List Value} {ns : List Int} (h : values.map Value.num? = ns.map some) :
    sum? values = some ns.sum := by
  rw [sum?, mapM_num? h, List.sum_eq_foldl]
  rfl

/-- Numbers have a product. -/
theorem product?_eq {values : List Value} {ns : List Int}
    (h : values.map Value.num? = ns.map some) : product? values = some ns.prod := by
  rw [product?, mapM_num? h, List.prod_eq_foldl]
  rfl

end Arithmetic

/-! ## The operations on arguments -/

namespace Store

variable {s : Store} {v tail : Value} {places : List Nat} {elements : List Value}

theorem Links.car_eq (h : s.Links v places elements tail) : s.car v = elements.headD .nil := by
  cases h with
  | done hcell => simp [car, hcell]
  | next hcell _ => exact car_of_cell? hcell

/-- The second argument is the first one of the rest. -/
theorem Links.car_cdr_eq (h : s.Links v places elements tail) :
    s.car (s.cdr v) = elements.tail.headD .nil := by
  cases h with
  | done hcell =>
    have hcdr : s.cdr v = .nil := by simp [cdr, hcell]
    rw [hcdr]
    rfl
  | next hcell hrest =>
    rw [cdr_of_cell? hcell, hrest.car_eq]
    rfl

end Store

namespace Action

open Arithmetic

variable {s : Store} {args tail : Value} {places : List Nat} {elements : List Value}

theorem ask_ok {α β : Type} {q : Store → Except Abort α} {state : State} {a : α}
    (h : q state.store = .ok a) (f : α → Action β) :
    (ask q >>= f : Action β) state = f a state := by
  unfold ask
  simp only [Bind.bind, EStateM.bind, Machine.look, h]
  rfl

theorem ask_error {α β : Type} {q : Store → Except Abort α} {state : State} {abort : Abort}
    (h : q state.store = .error abort) (f : α → Action β) :
    (ask q >>= f : Action β) state = .error abort state := by
  unfold ask
  simp only [Bind.bind, EStateM.bind, Machine.look, h]
  rfl

/-- A sum or a product is taken of all arguments, unless one of them is no number. -/
theorem total_eq (h : s.Links args places elements tail) (operation : List Value → Option Int)
    (log : Log) :
    (total operation args : Action Value) ⟨s, log⟩ =
      if elements.any (·.num?.isNone) then (fail .wrongType : Action Value) ⟨s, log⟩
      else (number (operation elements) : Action Value) ⟨s, log⟩ := by
  unfold total
  rw [ask_ok (h.hasElement_eq _)]
  split
  · rfl
  · rw [ask_ok h.elements_eq]

/-- The primitives whose operation is between two numbers. -/
def binary : List (Primitive × Operation) :=
  [(.sub, .difference), (.div, .quotient), (.mod, .remainder)]

/-- Their operands are the first two arguments. -/
theorem applyTo_binary {p : Primitive} {op : Operation} (hp : (p, op) ∈ binary)
    (h : s.Links args places elements tail) (log : Log) :
    (p.applyTo args : Action Value) ⟨s, log⟩ =
      (ask (fun _ => op.onValues (elements.headD .nil) (elements.tail.headD .nil)) >>= number :
        Action Value) ⟨s, log⟩ := by
  rw [← h.car_eq, ← h.car_cdr_eq]
  simp only [binary, List.mem_cons, Prod.mk.injEq, List.not_mem_nil, or_false] at hp
  rcases hp with ⟨rfl, rfl⟩ | ⟨rfl, rfl⟩ | ⟨rfl, rfl⟩
  · rfl
  · rfl
  · rfl

/-- Operands that are not both numbers are refused. -/
theorem applyTo_of_others {p : Primitive} {op : Operation} (hp : (p, op) ∈ binary)
    (h : s.Links args places elements tail)
    (hother : (elements.headD .nil).num? = none ∨ (elements.tail.headD .nil).num? = none)
    (log : Log) :
    (p.applyTo args : Action Value) ⟨s, log⟩ = (fail .wrongType : Action Value) ⟨s, log⟩ := by
  have hnone : op.onValues (elements.headD .nil) (elements.tail.headD .nil) = .ok none := by
    unfold Operation.onValues
    split
    · next m _ n _ hm hn =>
      rw [hm, hn] at hother
      simp at hother
    · rfl
  rw [applyTo_binary hp h, ask_ok hnone]
  rfl

/-- Two numbers have a result, unless the operation aborts. -/
theorem applyTo_of_numbers {p : Primitive} {op : Operation} (hp : (p, op) ∈ binary)
    (h : s.Links args places elements tail) {m n : Int}
    (hm : (elements.headD .nil).num? = some m) (hn : (elements.tail.headD .nil).num? = some n)
    (log : Log) :
    (∀ k, op.result m n = .ok k →
        (p.applyTo args : Action Value) ⟨s, log⟩ = .ok (.num k) ⟨s, log⟩) ∧
      ∀ abort, op.result m n = .error abort →
        (p.applyTo args : Action Value) ⟨s, log⟩ = .error abort ⟨s, log⟩ := by
  obtain ⟨i, hm⟩ := Value.num?_eq_some_iff.mp hm
  obtain ⟨j, hn⟩ := Value.num?_eq_some_iff.mp hn
  rw [applyTo_binary hp h, hm, hn]
  refine ⟨fun k hresult => ?_, fun abort hresult => ?_⟩
  · have hvalue : op.onValues (.num m i) (.num n j) = .ok (some k) := by
      rw [Operation.onValues, hresult]
      rfl
    rw [ask_ok hvalue]
    rfl
  · have habort : op.onValues (.num m i) (.num n j) = .error abort := by
      rw [Operation.onValues, hresult]
      rfl
    rw [ask_error habort]

/-- The arithmetic of primitives on a list of arguments, of any length.  A sum and a product are
taken of all arguments, if all are numbers.  The other operations are between the first two, where
`nil` stands for one that is missing.  A quotient or a remainder over zero aborts.  Over any other
number they share out the dividend in the one way that there is. -/
theorem applyTo_arithmetic (h : s.Links args places elements tail) (log : Log) :
    let run (p : Primitive) := (p.applyTo args : Action Value) ⟨s, log⟩
    let answers (n : Int) : EStateM.Result Abort State Value := .ok (.num n) ⟨s, log⟩
    let wrong : EStateM.Result Abort State Value :=
      .ok (.error s.serial .wrongType) ⟨{ s with serial := s.serial + 1 }, log⟩
    let x := elements.headD .nil
    let y := elements.tail.headD .nil
    Fault.wrongType.message = "wrong type" ∧
      (∀ ns : List Int, elements.map Value.num? = ns.map some →
        run .add = answers ns.sum ∧ run .mul = answers ns.prod) ∧
      ((∃ element ∈ elements, element.num? = none) → run .add = wrong ∧ run .mul = wrong) ∧
      (x.num? = none ∨ y.num? = none → run .sub = wrong ∧ run .div = wrong ∧ run .mod = wrong) ∧
      ∀ m n, x.num? = some m → y.num? = some n →
        run .sub = answers (m - n) ∧
        (run .div = .error .divisionByZero ⟨s, log⟩ ↔ n = 0) ∧
        (run .mod = .error .divisionByZero ⟨s, log⟩ ↔ n = 0) ∧
        (n ≠ 0 → ∃ q r, run .div = answers q ∧ run .mod = answers r ∧ Shares m n q r ∧
          q = towardZero (m / n) ∧ ∀ q' r', Shares m n q' r' → q' = q ∧ r' = r) := by
  intro run answers wrong x y
  have hadd : run .add = _ := total_eq h sum? log
  have hmul : run .mul = _ := total_eq h product? log
  have hsub : (.sub, .difference) ∈ binary := by simp [binary]
  have hdiv : (.div, .quotient) ∈ binary := by simp [binary]
  have hmod : (.mod, .remainder) ∈ binary := by simp [binary]
  refine ⟨rfl, ?_, ?_, fun hother => ?_, fun m n hx hy => ?_⟩
  case refine_1 =>
    intro ns hns
    have hall : elements.any (·.num?.isNone) = false := by
      have hmap : (elements.map Value.num?).any Option.isNone = false := by simp [hns]
      rwa [List.any_map] at hmap
    rw [hadd, hmul, hall, sum?_eq hns, product?_eq hns]
    exact ⟨rfl, rfl⟩
  case refine_2 =>
    rintro ⟨element, hmem, hnum⟩
    have hany : elements.any (·.num?.isNone) = true :=
      List.any_eq_true.mpr ⟨element, hmem, by rw [hnum]; rfl⟩
    rw [hadd, hmul, hany]
    exact ⟨rfl, rfl⟩
  case refine_3 =>
    exact ⟨applyTo_of_others hsub h hother log, applyTo_of_others hdiv h hother log,
      applyTo_of_others hmod h hother log⟩
  case refine_4 =>
    obtain ⟨hdiv, hdiv'⟩ := applyTo_of_numbers hdiv h hx hy log
    obtain ⟨hmod, hmod'⟩ := applyTo_of_numbers hmod h hx hy log
    refine ⟨(applyTo_of_numbers hsub h hx hy log).1 _ rfl, ?_⟩
    by_cases hn : n = 0
    · subst hn
      have hdiv := hdiv' .divisionByZero rfl
      have hmod := hmod' .divisionByZero rfl
      exact ⟨iff_of_true hdiv rfl, iff_of_true hmod rfl, fun hne => absurd rfl hne⟩
    · have hdiv : run .div = answers (quotientOf m n) := hdiv _ (if_neg hn)
      have hmod : run .mod = answers (remainderOf m n) := hmod _ (if_neg hn)
      have hshares := shares_quotientOf (x := m) hn
      rw [hdiv, hmod]
      refine ⟨by simp [answers, hn], by simp [answers, hn], fun _ => ?_⟩
      exact ⟨_, _, rfl, rfl, hshares, hshares.eq_towardZero, fun q r => hshares.unique⟩

/-- Of -7 over 2 the quotient is -3 and the remainder -1: they share out -7. -/
theorem applyTo_arithmetic_negative :
    let s : Store := ⟨#[⟨.num (-7) (some 0), .pair 1⟩, ⟨.num 2, .nil⟩], 1⟩
    s.Links (.pair 0) [0, 1] [.num (-7) (some 0), .num 2] .nil ∧
      (Primitive.add.applyTo (.pair 0) : Action Value) ⟨s, {}⟩ = .ok (.num (-5)) ⟨s, {}⟩ ∧
      (Primitive.mul.applyTo (.pair 0) : Action Value) ⟨s, {}⟩ = .ok (.num (-14)) ⟨s, {}⟩ ∧
      (Primitive.div.applyTo (.pair 0) : Action Value) ⟨s, {}⟩ = .ok (.num (-3)) ⟨s, {}⟩ ∧
      (Primitive.mod.applyTo (.pair 0) : Action Value) ⟨s, {}⟩ = .ok (.num (-1)) ⟨s, {}⟩ := by
  intro s
  have hlinks : s.Links (.pair 0) [0, 1] [.num (-7) (some 0), .num 2] .nil :=
    .next rfl (.next rfl (.done rfl))
  obtain ⟨-, htotal, -, -, htwo⟩ := applyTo_arithmetic hlinks {}
  obtain ⟨hadd, hmul⟩ := htotal [-7, 2] rfl
  obtain ⟨-, -, -, hshared⟩ := htwo (-7) 2 rfl rfl
  obtain ⟨q, r, hdiv, hmod, -, -, hunique⟩ := hshared (by decide)
  obtain ⟨rfl, rfl⟩ := hunique (-3) (-1) ⟨by decide, by decide, by decide⟩
  exact ⟨hlinks, hadd, hmul, hdiv, hmod⟩

end Action

end ConsLisp
