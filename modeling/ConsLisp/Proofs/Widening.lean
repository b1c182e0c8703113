import ConsLisp.Proofs.Chronicle.Held
import Mathlib.Data.Set.Defs

/-!
# Interpreters with extra bindings

Two interpreters may be the same apart from extra bindings of the second one.  Then each pair that
the first one uses as a value or as a binding has a twin in the store of the second, and so has each
object with a serial number.  Twins have the same fields up to twins.  A frame of the second one
lists the twins of the bindings, in their order, and extra bindings anywhere between them; their
names are symbols of a given set, and their values are arbitrary.  An environment of the second one
has the twins of the frames, in their order, and anywhere before the global one it may have frames
of extra bindings only.

Main statements: whether an interpreter widens another can be computed (`Twins.widens_of_check`),
and so can whether a name is mentioned by none of its closures (`Interpreter.unmentioned_of_check`).
-/

namespace ConsLisp

/-- The serial number of an object. -/
def Value.serial? : Value → Option Nat
  | error n _ | primitive n _ _ | closure n .. => some n
  | num _ serial => serial
  | _ => none

/-- Pairs of one store with their twins in another, and serial numbers of the one with the objects
of the other that stand for those that have them.  Nothing has two twins or is the twin of two. -/
structure Twins where
  pairs : List (Nat × Nat)
  objects : List (Nat × Value)
  pairs_fst : (pairs.map Prod.fst).Nodup
  pairs_snd : (pairs.map Prod.snd).Nodup
  objects_fst : (objects.map Prod.fst).Nodup
  objects_snd : (objects.map (·.2.serial?)).Nodup

namespace Twins

/-- The pair is the twin of none. -/
def Own (T : Twins) (place : Nat) : Prop :=
  place ∉ T.pairs.map Prod.snd

instance (T : Twins) (place : Nat) : Decidable (T.Own place) :=
  inferInstanceAs (Decidable (place ∉ _))

section

variable (T : Twins) (hidden : Set String) (i i' : Interpreter)

/-- The second frame lists the twins of the bindings of the first, and extra bindings between
them. -/
inductive Frame : Value → Value → Prop
  | nil : Frame .nil .nil
  | cons {place place' binding binding' : Nat} {rest rest' : Value}
      (hcell : i.state.store.cell? (.pair place) = some ⟨.pair binding, rest⟩)
      (hcell' : i'.state.store.cell? (.pair place') = some ⟨.pair binding', rest'⟩)
      (hown : T.Own place') (hbinding : (binding, binding') ∈ T.pairs) (hrest : Frame rest rest') :
      Frame (.pair place) (.pair place')
  | extra {place' binding' : Nat} {name : String} {v value rest' : Value}
      (hcell' : i'.state.store.cell? (.pair place') = some ⟨.pair binding', rest'⟩)
      (hown : T.Own place') (hname : name ∈ hidden)
      (hbinding' : i'.state.store.cell? (.pair binding') = some ⟨.sym name, value⟩)
      (hown' : T.Own binding') (hrest : Frame v rest') : Frame v (.pair place')

/-- The second environment has the frames of the first with extra bindings, and frames of extra
bindings before or between them. -/
inductive Env : Value → Value → Prop
  | globals : Env i.globals i'.globals
  | cons {place place' : Nat} {frame frame' outer outer' : Value}
      (hcell : i.state.store.cell? (.pair place) = some ⟨frame, outer⟩)
      (hcell' : i'.state.store.cell? (.pair place') = some ⟨frame', outer'⟩)
      (hown : T.Own place') (hframe : T.Frame hidden i i' frame frame')
      (houter : Env outer outer') : Env (.pair place) (.pair place')
  | extra {place' : Nat} {v frame' outer' : Value}
      (hcell' : i'.state.store.cell? (.pair place') = some ⟨frame', outer'⟩)
      (hown : T.Own place') (hframe : T.Frame hidden i i' .nil frame')
      (houter : Env v outer') : Env v (.pair place')

/-- The two are the same atom, or twins. -/
inductive Alike : Value → Value → Prop
  | nil : Alike .nil .nil
  | num (n : Int) : Alike (.num n) (.num n)
  | number {n : Int} {k k' : Nat} (h : (k, .num n (some k')) ∈ T.objects) :
      Alike (.num n (some k)) (.num n (some k'))
  | sym (name : String) : Alike (.sym name) (.sym name)
  | pair {place place' : Nat} (h : (place, place') ∈ T.pairs) : Alike (.pair place) (.pair place')
  | error {n n' : Nat} {fault : Fault} (h : (n, .error n' fault) ∈ T.objects) :
      Alike (.error n fault) (.error n' fault)
  | primitive {n n' : Nat} {p : Primitive} {name : String}
      (h : (n, .primitive n' p name) ∈ T.objects) :
      Alike (.primitive n p name) (.primitive n' p name)
  | closure {n n' : Nat} {params params' body body' env env' : Value}
      (h : (n, .closure n' params' body' env') ∈ T.objects) (hparams : Alike params params')
      (hbody : Alike body body') (henv : T.Env hidden i i' env env') :
      Alike (.closure n params body env) (.closure n' params' body' env')

/-- The second interpreter is the first with extra bindings of these names.  Its global frame may
have some, and so may the environments of its closures. -/
structure Widens : Prop where
  threshold : i'.state.log.threshold = i.state.log.threshold
  globals : ∃ home home' frame frame', i.globals = .pair home ∧ i'.globals = .pair home' ∧
    i.state.store.cell? (.pair home) = some ⟨frame, .nil⟩ ∧
    i'.state.store.cell? (.pair home') = some ⟨frame', .nil⟩ ∧ T.Own home' ∧
    T.Frame hidden i i' frame frame'
  fields {place place' : Nat} (h : (place, place') ∈ T.pairs) :
    ∃ c c', i.state.store.cell? (.pair place) = some c ∧
      i'.state.store.cell? (.pair place') = some c' ∧
      T.Alike hidden i i' c.car c'.car ∧ T.Alike hidden i i' c.cdr c'.cdr
  serials {n n' : Nat} {v : Value} (h : (n, v) ∈ T.objects) (hserial : v.serial? = some n') :
    n' < i'.state.store.serial

end

end Twins

namespace Interpreter

/-- What the lines of an interpreter can get hold of. -/
def Holds (i : Interpreter) : Sense → Value → Prop :=
  i.state.store.Held (Moment.shown i.globals [])

/-- None of these names occurs in the body of a closure that the interpreter holds. -/
def Unmentioned (i : Interpreter) (names : Set String) : Prop :=
  ∀ n params body env, i.Holds .value (.closure n params body env) →
    ∀ name ∈ names, ¬i.state.store.Part body (.sym name)

end Interpreter

/-! ## Computing it -/

namespace Twins

section

variable (T : Twins) (names : List String) (i i' : Interpreter)

/-- Does the second frame list the twins of the bindings of the first, and extra bindings between
them, if it is no longer than this? -/
def frame? : Nat → Value → Value → Bool
  | _, v, .nil => v = .nil
  | fuel + 1, v, .pair place' =>
    match i'.state.store.cell? (.pair place') with
    | some ⟨.pair binding', rest'⟩ =>
      T.Own place' &&
        if T.Own binding' then
          match i'.state.store.cell? (.pair binding') with
          | some ⟨.sym name, _⟩ => name ∈ names && frame? fuel v rest'
          | _ => false
        else
          match i.state.store.cell? v with
          | some ⟨.pair binding, rest⟩ => (binding, binding') ∈ T.pairs && frame? fuel rest rest'
          | _ => false
    | _ => false
  | _, _, _ => false

/-- Does the second environment have the frames of the first with extra bindings, and frames of
extra bindings, if it has no more frames than this? -/
def env? : Nat → Value → Value → Bool
  | 0, v, v' => v = i.globals && v' = i'.globals
  | fuel + 1, v, v' =>
    v = i.globals && v' = i'.globals ||
      match v', i'.state.store.cell? v' with
      | .pair place', some ⟨frame', outer'⟩ =>
        T.Own place' &&
          (T.frame? names i i' i'.state.store.size .nil frame' && env? fuel v outer' ||
            match i.state.store.cell? v with
            | some ⟨frame, outer⟩ =>
              T.frame? names i i' i'.state.store.size frame frame' && env? fuel outer outer'
            | none => false)
      | _, _ => false

/-- Are the two the same atom, or twins? -/
def alike? : Value → Value → Bool
  | .pair place, .pair place' => (place, place') ∈ T.pairs
  | .error n fault, .error n' fault' => fault = fault' && (n, .error n' fault') ∈ T.objects
  | .primitive n p name, .primitive n' p' name' =>
    p = p' && name = name' && (n, .primitive n' p' name') ∈ T.objects
  | .closure n params body env, .closure n' params' body' env' =>
    (n, .closure n' params' body' env') ∈ T.objects && alike? params params' &&
      alike? body body' && T.env? names i i' i'.state.store.size env env'
  | .nil, .nil => true
  | .num n none, .num n' none => n = n'
  | .num n (some k), .num n' (some k') => n = n' && (k, .num n' (some k')) ∈ T.objects
  | .sym name, .sym name' => name = name'
  | _, _ => false

/-- Is the second interpreter the first with extra bindings of these names? -/
def widens? : Bool :=
  i'.state.log.threshold = i.state.log.threshold &&
  (match i.globals, i'.globals with
    | .pair home, .pair home' =>
      match i.state.store.cell? (.pair home), i'.state.store.cell? (.pair home') with
      | some ⟨frame, .nil⟩, some ⟨frame', .nil⟩ =>
        T.Own home' && T.frame? names i i' i'.state.store.size frame frame'
      | _, _ => false
    | _, _ => false) &&
  (T.pairs.all fun (place, place') =>
    match i.state.store.cell? (.pair place), i'.state.store.cell? (.pair place') with
    | some c, some c' => T.alike? names i i' c.car c'.car && T.alike? names i i' c.cdr c'.cdr
    | _, _ => false) &&
  T.objects.all fun (_, v) => v.serial?.all (· < i'.state.store.serial)

end

variable {T : Twins} {names : List String} {i i' : Interpreter}

theorem frame_of_check {fuel : Nat} {v v' : Value} (h : T.frame? names i i' fuel v v' = true) :
    T.Frame {name | name ∈ names} i i' v v' := by
  induction fuel generalizing v v' with
  | zero =>
    cases v' with
    | nil =>
      obtain rfl : v = .nil := by simpa [frame?] using h
      exact .nil
    | _ => simp [frame?] at h
  | succ fuel ih =>
    cases v' with
    | nil =>
      obtain rfl : v = .nil := by simpa [frame?] using h
      exact .nil
    | pair place' =>
      unfold frame? at h
      split at h
      · next binding' rest' hcell' =>
        obtain ⟨hown, h⟩ := Bool.and_eq_true_iff.mp h
        have hown := of_decide_eq_true hown
        split at h
        · next hown' =>
          split at h
          · next name value hbinding' =>
            obtain ⟨hname, hrest⟩ := Bool.and_eq_true_iff.mp h
            have hname : name ∈ names := of_decide_eq_true hname
            exact .extra hcell' hown hname hbinding' hown' (ih hrest)
          · simp at h
        · split at h
          · next binding rest hcell =>
            obtain ⟨hbinding, hrest⟩ := Bool.and_eq_true_iff.mp h
            obtain ⟨place, rfl, -⟩ := Store.cell?_eq_some_iff.mp hcell
            exact .cons hcell hcell' hown (of_decide_eq_true hbinding) (ih hrest)
          · simp at h
      · simp at h
    | _ => simp [frame?] at h

theorem env_of_check {fuel : Nat} {v v' : Value} (h : T.env? names i i' fuel v v' = true) :
    T.Env {name | name ∈ names} i i' v v' := by
  induction fuel generalizing v v' with
  | zero =>
    obtain ⟨rfl, rfl⟩ : _ ∧ _ := by simpa [env?] using h
    exact .globals
  | succ fuel ih =>
    rcases Bool.or_eq_true_iff.mp h with h | h
    · obtain ⟨rfl, rfl⟩ : _ ∧ _ := by simpa using h
      exact .globals
    · split at h
      · next place' frame' outer' hcell' =>
        obtain ⟨hown, h⟩ := Bool.and_eq_true_iff.mp h
        have hown := of_decide_eq_true hown
        rcases Bool.or_eq_true_iff.mp h with h | h
        · obtain ⟨hframe, houter⟩ := Bool.and_eq_true_iff.mp h
          exact .extra hcell' hown (frame_of_check hframe) (ih houter)
        · split at h
          · next frame outer hcell =>
            obtain ⟨hframe, houter⟩ := Bool.and_eq_true_iff.mp h
            obtain ⟨place, rfl, -⟩ := Store.cell?_eq_some_iff.mp hcell
            exact .cons hcell hcell' hown (frame_of_check hframe) (ih houter)
          · simp at h
      · simp at h

theorem alike_of_check {v v' : Value} (h : T.alike? names i i' v v' = true) :
    T.Alike {name | name ∈ names} i i' v v' := by
  induction v generalizing v' with
  | closure n params body env ihparams ihbody _ =>
    cases v' with
    | closure n' params' body' env' =>
      simp only [alike?, Bool.and_eq_true, decide_eq_true_eq] at h
      obtain ⟨⟨⟨hobject, hparams⟩, hbody⟩, henv⟩ := h
      exact .closure hobject (ihparams hparams) (ihbody hbody) (env_of_check henv)
    | _ => simp [alike?] at h
  | nil => cases v' <;> simp_all [alike?, Alike.nil]
  | num n serial =>
    cases v' with
    | num n' serial' =>
      cases serial <;> cases serial' <;> simp_all [alike?, Alike.num, Alike.number]
    | _ => simp [alike?] at h
  | sym name => cases v' <;> simp_all [alike?, Alike.sym]
  | pair place => cases v' <;> simp_all [alike?, Alike.pair]
  | error n fault => cases v' <;> simp_all [alike?, Alike.error]
  | primitive n p name => cases v' <;> simp_all [alike?, Alike.primitive]
  | foreign object => cases v' <;> simp [alike?] at h

/-- An interpreter widens another if it is computed to do so. -/
theorem widens_of_check (h : T.widens? names i i' = true) :
    T.Widens {name | name ∈ names} i i' := by
  simp only [widens?, Bool.and_eq_true, List.all_eq_true] at h
  obtain ⟨⟨⟨hthreshold, hglobals⟩, hfields⟩, hserials⟩ := h
  constructor
  case threshold => exact of_decide_eq_true hthreshold
  case globals =>
    split at hglobals
    · next home home' hhome hhome' =>
      split at hglobals
      · next frame frame' hcell hcell' =>
        obtain ⟨hown, hframe⟩ := Bool.and_eq_true_iff.mp hglobals
        exact ⟨home, home', frame, frame', hhome, hhome', hcell, hcell', of_decide_eq_true hown,
          frame_of_check hframe⟩
      · simp at hglobals
    · simp at hglobals
  case fields =>
    intro place place' hmem
    have h := hfields _ hmem
    dsimp only at h
    split at h
    · next c c' hcell hcell' =>
      obtain ⟨hcar, hcdr⟩ := Bool.and_eq_true_iff.mp h
      exact ⟨c, c', hcell, hcell', alike_of_check hcar, alike_of_check hcdr⟩
    · simp at h
  case serials =>
    intro n n' v hmem hserial
    simpa [hserial] using hserials _ hmem

end Twins

/-- Does the value show the name, without a look at the store? -/
def Value.mentions (name : String) : Value → Bool
  | sym other => other = name
  | closure _ params body env => params.mentions name || body.mentions name || env.mentions name
  | _ => false

/-- Does a field of a pair show the name? -/
def Store.mentions (name : String) (s : Store) : Bool :=
  s.cells.any fun c => c.car.mentions name || c.cdr.mentions name

namespace Store

variable {s : Store} {name : String}

theorem mentions_cell (h : s.mentions name = false) {v : Value} {c : Cell}
    (hcell : s.cell? v = some c) : c.car.mentions name = false ∧ c.cdr.mentions name = false := by
  obtain ⟨place, -, hplace⟩ := cell?_eq_some_iff.mp hcell
  simp only [mentions, Array.any_eq_false', Bool.not_eq_true, Bool.or_eq_false_iff] at h
  exact h c (Array.mem_of_getElem? hplace)

theorem mentions_car (h : s.mentions name = false) (v : Value) :
    (s.car v).mentions name = false := by
  unfold car
  cases hcell : s.cell? v with
  | none => rfl
  | some c => exact (mentions_cell h hcell).1

theorem mentions_cdr (h : s.mentions name = false) (v : Value) :
    (s.cdr v).mentions name = false := by
  unfold cdr
  cases hcell : s.cell? v with
  | none => rfl
  | some c => exact (mentions_cell h hcell).2

/-- What is held shows no name that no field shows. -/
theorem Held.mentions (h : s.mentions name = false) {globals v : Value} {sense : Sense}
    (hheld : s.Held (Moment.shown globals []) sense v) (hsense : sense = .value) :
    v.mentions name = false := by
  induction hheld with
  | shown hshown =>
    subst hsense
    obtain ⟨m, hmem, -⟩ := hshown
    simp at hmem
  | car hcell => exact (mentions_cell h hcell).1
  | cdr hcell => exact (mentions_cell h hcell).2
  | params _ ih =>
    have := ih rfl
    simp only [Value.mentions, Bool.or_eq_false_iff] at this
    exact this.1.1
  | body _ ih =>
    have := ih rfl
    simp only [Value.mentions, Bool.or_eq_false_iff] at this
    exact this.1.2
  | captured => simp at hsense
  | name => exact mentions_car h _
  | contents => exact mentions_cdr h _

theorem Part.mentions (h : s.mentions name = false) {v w : Value} (hpart : s.Part v w)
    (hv : v.mentions name = false) : w.mentions name = false := by
  cases hpart with
  | refl => exact hv
  | car _ hcell => exact (mentions_cell h hcell).1
  | cdr _ hcell => exact (mentions_cell h hcell).2

end Store

/-- No closure mentions names that no field shows. -/
theorem Interpreter.unmentioned_of_check {i : Interpreter} {names : List String}
    (h : names.all fun name => !i.state.store.mentions name) :
    i.Unmentioned {name | name ∈ names} := by
  intro n params body env hheld name hname hpart
  have hcells : i.state.store.mentions name = false := by
    simpa using List.all_eq_true.mp h name hname
  have hbody := hpart.mentions hcells (Store.Held.mentions hcells (.body hheld) rfl)
  simp [Value.mentions] at hbody

end ConsLisp
