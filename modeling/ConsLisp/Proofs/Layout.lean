import ConsLisp.Decimal
import ConsLisp.Proofs.Store.Acyclic
import Mathlib.Logic.Function.Basic
import Mathlib.Order.Basic

/-!
# What the cells of a store are for

All pairs lie in one store: program text and data, the bindings, frames and environments of
variables, and the lists that are still being built.  A layout gives every cell one of these
roles, with the fields that do not change while it has the role.  Values and environments are
described by a layout alone, so what is known of them stays known for as long as the layout
only grows.

A draft is a cell of a list under construction.  It is the only role that ends: `settle` turns
drafts into cells of the finished list.  The drafts behind a draft are a chain that ends, if it
does not lead to a cell of another role.

A layout also holds the forms that have been read.  Program text is a part of one of these and
free of errors; what the reader makes may be an error, or hold one behind a quote.
-/

namespace ConsLisp

/-- What a cell is used for, with the fields that stay as they are. -/
inductive Role where
  /-- A pair of program text or of a value. -/
  | data (car cdr : Value)
  /-- A pair of a list that is still being built. -/
  | draft (car cdr : Value)
  /-- A name and its value, which may be overwritten. -/
  | binding (name : Value)
  /-- A pair of the list of bindings of a frame. -/
  | frame (binding rest : Value)
  /-- A local frame in front of an environment. -/
  | scope (frame outer : Value)
  /-- The last cell of all environments; its frame grows. -/
  | globals
  deriving DecidableEq

/-- Is the cell part of a list under construction? -/
def Role.isDraft : Role → Bool
  | draft .. => true
  | _ => false

/-- Is the value a pair? -/
def Value.isPlace : Value → Bool
  | .pair _ => true
  | _ => false

/-- Is the value an atom that stands in texts? -/
def Value.IsToken : Value → Prop
  | .nil | .sym _ => True
  | .num n _ => n.natAbs < Decimal.bound
  | _ => False

/-- The atoms that may occur in program text. -/
structure Vocabulary where
  word : Value → Prop
  token {v : Value} (hword : word v) : v.IsToken
  nil : word .nil
  t : word .t
  quote : word (.sym "quote")
  name (p : Primitive) : word (.sym p.name)

/-- A role for each cell, with the place of the cell that all environments share and the forms
that have been read. -/
structure Layout where
  vocabulary : Vocabulary
  home : Nat
  form : Value → Prop
  role : Nat → Option Role

namespace Layout

/-! ## Growth -/

/-- Every cell keeps its role. -/
instance : Preorder Layout where
  le L M := L.vocabulary = M.vocabulary ∧ L.home = M.home ∧ (∀ v, L.form v → M.form v) ∧
    ∀ place role, L.role place = some role → M.role place = some role
  le_refl _ := ⟨rfl, rfl, fun _ h => h, fun _ _ h => h⟩
  le_trans _ _ _ h h' := ⟨h.1.trans h'.1, h.2.1.trans h'.2.1,
    fun v hform => h'.2.2.1 v (h.2.2.1 v hform),
    fun place role hrole => h'.2.2.2 place role (h.2.2.2 place role hrole)⟩

/-- A chain of drafts that ends, or leads to a cell of another role. -/
inductive Ends (L : Layout) : Value → Prop
  | nil : Ends L .nil
  | other {place : Nat} {role : Role} (hrole : L.role place = some role)
      (hdraft : role.isDraft = false) : Ends L (.pair place)
  | draft {place : Nat} {a d : Value} (hrole : L.role place = some (.draft a d))
      (hrest : Ends L d) : Ends L (.pair place)

/-- Every cell keeps its role, drafts apart. -/
structure Settles (L M : Layout) : Prop where
  vocabulary : L.vocabulary = M.vocabulary
  home : L.home = M.home
  form {v : Value} (hform : L.form v) : M.form v
  role {place : Nat} {role : Role} (hrole : L.role place = some role)
    (hdraft : role.isDraft = false) : M.role place = some role
  ends {v : Value} (hends : L.Ends v) : M.Ends v

variable {L M : Layout}

theorem role_of_le (h : L ≤ M) {place : Nat} {role : Role} (hrole : L.role place = some role) :
    M.role place = some role :=
  h.2.2.2 place role hrole

theorem Ends.of_le {v : Value} (h : L ≤ M) (hv : L.Ends v) : M.Ends v := by
  induction hv with
  | nil => exact .nil
  | other hrole hdraft => exact .other (role_of_le h hrole) hdraft
  | draft hrole _ ih => exact .draft (role_of_le h hrole) ih

theorem settles_of_le (h : L ≤ M) : L.Settles M :=
  ⟨h.1, h.2.1, h.2.2.1 _, fun hrole _ => role_of_le h hrole, fun hends => hends.of_le h⟩

theorem settles_refl : L.Settles L :=
  settles_of_le le_rfl

/-- Gives a cell a role. -/
def set (L : Layout) (place : Nat) (role : Role) : Layout :=
  { L with role := Function.update L.role place (some role) }

theorem role_set (place other : Nat) (role : Role) :
    (L.set place role).role other = if other = place then some role else L.role other := by
  simp [set, Function.update_apply]

@[simp] theorem role_set_self (place : Nat) (role : Role) :
    (L.set place role).role place = some role := by
  simp [role_set]

/-- A cell without a role may be given any, whatever the layout below knows. -/
theorem le_set {B : Layout} (h : B ≤ L) {place : Nat} (hfree : B.role place = none) (role : Role) :
    B ≤ L.set place role := by
  refine ⟨h.1, h.2.1, h.2.2.1, fun other r hrole => ?_⟩
  have hne : other ≠ place := by
    rintro rfl
    simp [hfree] at hrole
  rw [role_set, if_neg hne]
  exact role_of_le h hrole

/-- A draft may be turned to another pair behind which the drafts end. -/
theorem settles_set {place : Nat} {a d d' : Value} (hrole : L.role place = some (.draft a d))
    (hends : (L.set place (.draft a d')).Ends d') : L.Settles (L.set place (.draft a d')) := by
  have hother : ∀ {other : Nat} {r : Role}, L.role other = some r → r.isDraft = false →
      (L.set place (.draft a d')).role other = some r := by
    intro other r hr hdraft
    have hne : other ≠ place := by
      rintro rfl
      obtain rfl := Option.some.inj (hrole.symm.trans hr)
      simp [Role.isDraft] at hdraft
    rw [role_set, if_neg hne, hr]
  refine ⟨rfl, rfl, id, hother, fun {v} hv => ?_⟩
  -- A chain that meets the turned pair goes on behind it in the new way.
  induction hv with
  | nil => exact .nil
  | other hr hdraft => exact .other (hother hr hdraft) hdraft
  | @draft other _ _ hr _ ih =>
    by_cases heq : other = place
    · subst heq
      exact .draft (role_set_self ..) hends
    · exact .draft (by rw [role_set, if_neg heq, hr]) ih

/-- Turns the drafts at these places into cells of another role. -/
def settle (L : Layout) (places : List Nat) (turn : Value → Value → Role) : Layout :=
  { L with
    role := fun place =>
      match L.role place with
      | some (.draft a d) => if place ∈ places then some (turn a d) else some (.draft a d)
      | role => role }

theorem role_settle_of_draft {places : List Nat} {turn : Value → Value → Role} {place : Nat}
    {a d : Value} (hrole : L.role place = some (.draft a d)) (hmem : place ∈ places) :
    (L.settle places turn).role place = some (turn a d) := by
  simp [settle, hrole, hmem]

theorem role_settle_of_not_mem {places : List Nat} {turn : Value → Value → Role} {place : Nat}
    (hmem : place ∉ places) : (L.settle places turn).role place = L.role place := by
  unfold settle
  dsimp only
  split
  · next hrole => rw [if_neg hmem, hrole]
  · rfl

theorem settles_settle (places : List Nat) {turn : Value → Value → Role}
    (hturn : ∀ a d, (turn a d).isDraft = false) : L.Settles (L.settle places turn) := by
  have hother : ∀ {place : Nat} {role : Role}, L.role place = some role → role.isDraft = false →
      (L.settle places turn).role place = some role := by
    intro place role hrole hdraft
    cases role <;> simp_all [settle, Role.isDraft]
  refine ⟨rfl, rfl, id, hother, fun {v} hv => ?_⟩
  induction hv with
  | nil => exact .nil
  | other hrole hdraft => exact .other (hother hrole hdraft) hdraft
  | @draft place a d hrole _ ih =>
    by_cases hmem : place ∈ places
    · exact .other (role_settle_of_draft hrole hmem) (hturn a d)
    · exact .draft ((role_settle_of_not_mem hmem).trans hrole) ih

theorem le_settle {B : Layout} (h : B ≤ L) {places : List Nat}
    (hfree : ∀ p ∈ places, B.role p = none) (turn : Value → Value → Role) :
    B ≤ L.settle places turn := by
  refine ⟨h.1, h.2.1, h.2.2.1, fun place role hrole => ?_⟩
  -- The drafts that are turned are unknown below.
  have hmem : place ∉ places := fun hmem => by simp [hfree place hmem] at hrole
  have hrole' := role_of_le h hrole
  cases role <;> simp [settle, hrole', hmem]

/-- One more form has been read. -/
def learn (L : Layout) (form : Value) : Layout :=
  { L with form := fun v => L.form v ∨ v = form }

theorem le_learn (L : Layout) (form : Value) : L ≤ L.learn form :=
  ⟨rfl, rfl, fun _ h => .inl h, fun _ _ h => h⟩

/-! ## Values -/

/-- A finite tree of data pairs over atoms of a sort. -/
inductive Tree (L : Layout) (atom : Value → Prop) : Value → Prop
  | atom {v : Value} (hplace : v.isPlace = false) (hatom : atom v) : Tree L atom v
  | pair {place : Nat} {a d : Value} (hrole : L.role place = some (.data a d))
      (hcar : Tree L atom a) (hcdr : Tree L atom d) : Tree L atom (.pair place)

theorem Tree.mono {atom atom' : Value → Prop} {v : Value} (h : L.Settles M)
    (hatom : ∀ v, atom v → atom' v) (hv : L.Tree atom v) : M.Tree atom' v := by
  induction hv with
  | atom hplace ha => exact .atom hplace (hatom _ ha)
  | pair hrole _ _ ihcar ihcdr => exact .pair (h.role hrole rfl) ihcar ihcdr

/-- The elements along pairs of data, and the atom behind the last pair. -/
inductive Chain (L : Layout) : Value → List Value → Value → Prop
  | done {v : Value} (hplace : v.isPlace = false) : Chain L v [] v
  | next {place : Nat} {a d tail : Value} {elements : List Value}
      (hrole : L.role place = some (.data a d)) (hrest : Chain L d elements tail) :
      Chain L (.pair place) (a :: elements) tail

theorem Chain.mono {v tail : Value} {elements : List Value} (h : L.Settles M)
    (hv : L.Chain v elements tail) : M.Chain v elements tail := by
  induction hv with
  | done hplace => exact .done hplace
  | next hrole _ ih => exact .next (h.role hrole rfl) ih

/-- A tree is a chain of trees. -/
theorem Tree.chain {atom : Value → Prop} {v : Value} (hv : L.Tree atom v) :
    ∃ elements tail, L.Chain v elements tail ∧
      (∀ element ∈ elements, L.Tree atom element) ∧ tail.isPlace = false ∧ atom tail := by
  -- Only the second field of a pair is followed; the first is an element as it stands.
  induction hv with
  | @atom v hplace hatom => exact ⟨[], v, .done hplace, by simp, hplace, hatom⟩
  | @pair place a d hrole hcar _ _ ih =>
    obtain ⟨elements, tail, hchain, helements, htail⟩ := ih
    refine ⟨a :: elements, tail, .next hrole hchain, ?_, htail⟩
    simpa [hcar] using helements

/-- A chain of trees is a tree. -/
theorem Chain.tree {atom : Value → Prop} {v tail : Value} {elements : List Value}
    (hv : L.Chain v elements tail) (helements : ∀ element ∈ elements, L.Tree atom element)
    (htail : atom tail) : L.Tree atom v := by
  induction hv with
  | done hplace => exact .atom hplace htail
  | @next place a d tail elements hrole _ ih =>
    have hrest := ih (fun element hmem => helements element (List.mem_cons_of_mem a hmem)) htail
    exact .pair hrole (helements a List.mem_cons_self) hrest

/-- The list of bindings of a frame. -/
inductive Frame (L : Layout) : Value → List Nat → Prop
  | nil : Frame L .nil []
  | cons {place binding : Nat} {rest name : Value} {bindings : List Nat}
      (hrole : L.role place = some (.frame (.pair binding) rest))
      (hbinding : L.role binding = some (.binding name)) (hrest : Frame L rest bindings) :
      Frame L (.pair place) (binding :: bindings)

/-- An environment, with the bindings of its local frames. -/
inductive Scope (L : Layout) : Value → List (List Nat) → Prop
  | globals : Scope L (.pair L.home) []
  | cons {place : Nat} {frame outer : Value} {bindings : List Nat} {frames : List (List Nat)}
      (hrole : L.role place = some (.scope frame outer)) (hframe : Frame L frame bindings)
      (houter : Scope L outer frames) : Scope L (.pair place) (bindings :: frames)

/-- The value is met from the whole along pairs of data. -/
inductive Within (L : Layout) (whole : Value) : Value → Prop
  | refl : Within L whole whole
  | car {place : Nat} {a d : Value} (hrole : L.role place = some (.data a d))
      (h : Within L whole (.pair place)) : Within L whole a
  | cdr {place : Nat} {a d : Value} (hrole : L.role place = some (.data a d))
      (h : Within L whole (.pair place)) : Within L whole d

/-- The value is part of a form that has been read. -/
def Given (L : Layout) (v : Value) : Prop :=
  ∃ whole, L.form whole ∧ L.Within whole v

/-- An atom of the sort, or an error. -/
def OrError (atom : Value → Prop) (v : Value) : Prop :=
  atom v ∨ v.isError = true

/-- What the reader makes. -/
def Script (L : Layout) (v : Value) : Prop :=
  L.Tree (OrError L.vocabulary.word) v

/-- Program text: a part of a form, free of errors. -/
def Code (L : Layout) (v : Value) : Prop :=
  L.Tree L.vocabulary.word v ∧ L.Given v

/-- An environment, whatever its frames. -/
def Env (L : Layout) (v : Value) : Prop :=
  ∃ frames, L.Scope v frames

/-- An atom of a value.  A closure holds program text and an environment. -/
def DataAtom (L : Layout) : Value → Prop
  | .num .. | .primitive .. => True
  | .closure _ params body env => L.Code params ∧ L.Code body ∧ L.Env env
  | v => L.vocabulary.word v

/-- A value that a program computes with. -/
def Data (L : Layout) (v : Value) : Prop :=
  L.Tree L.DataAtom v

/-- What an evaluation may result in, and what a variable may hold. -/
def Outcome (L : Layout) (v : Value) : Prop :=
  L.Data v ∨ v.isError = true

/-- What may be met at all: a value with errors in it, if it is quoted text. -/
def Matter (L : Layout) (v : Value) : Prop :=
  L.Tree (OrError L.DataAtom) v

theorem Frame.mono {v : Value} {bindings : List Nat} (h : L.Settles M) (hv : L.Frame v bindings) :
    M.Frame v bindings := by
  induction hv with
  | nil => exact .nil
  | cons hrole hbinding _ ih => exact .cons (h.role hrole rfl) (h.role hbinding rfl) ih

/-- A list of bindings is no error. -/
theorem Frame.isError {v : Value} {bindings : List Nat} (hv : L.Frame v bindings) :
    v.isError = false := by
  cases hv with
  | nil | cons => rfl

theorem Scope.mono {v : Value} {frames : List (List Nat)} (h : L.Settles M)
    (hv : L.Scope v frames) : M.Scope v frames := by
  induction hv with
  | globals => exact h.home ▸ .globals
  | cons hrole hframe _ ih => exact .cons (h.role hrole rfl) (hframe.mono h) ih

/-- An environment is no error. -/
theorem Env.isError {v : Value} (hv : L.Env v) : v.isError = false := by
  obtain ⟨frames, hscope⟩ := hv
  cases hscope with
  | globals | cons => rfl

theorem Env.mono {v : Value} (h : L.Settles M) (hv : L.Env v) : M.Env v :=
  hv.imp fun _ hscope => hscope.mono h

theorem Within.mono {whole v : Value} (h : L.Settles M) (hv : L.Within whole v) :
    M.Within whole v := by
  induction hv with
  | refl => exact .refl
  | car hrole _ ih => exact .car (h.role hrole rfl) ih
  | cdr hrole _ ih => exact .cdr (h.role hrole rfl) ih

theorem Within.trans {u v w : Value} (h : L.Within u v) (h' : L.Within v w) : L.Within u w := by
  induction h' with
  | refl => exact h
  | car hrole _ ih => exact .car hrole ih
  | cdr hrole _ ih => exact .cdr hrole ih

/-- Only within a pair there is a pair. -/
theorem Within.isPlace {whole v : Value} (h : L.Within whole v) (hv : v.isPlace = true) :
    whole.isPlace = true := by
  induction h with
  | refl => exact hv
  | car _ _ ih | cdr _ _ ih => exact ih rfl

theorem Given.mono {v : Value} (h : L.Settles M) : L.Given v → M.Given v := by
  rintro ⟨whole, hform, hwithin⟩
  exact ⟨whole, h.form hform, hwithin.mono h⟩

theorem Given.car {place : Nat} {a d : Value} (hrole : L.role place = some (.data a d)) :
    L.Given (.pair place) → L.Given a := by
  rintro ⟨whole, hform, hwithin⟩
  exact ⟨whole, hform, hwithin.car hrole⟩

theorem Given.cdr {place : Nat} {a d : Value} (hrole : L.role place = some (.data a d)) :
    L.Given (.pair place) → L.Given d := by
  rintro ⟨whole, hform, hwithin⟩
  exact ⟨whole, hform, hwithin.cdr hrole⟩

theorem Script.mono {v : Value} (h : L.Settles M) (hv : L.Script v) : M.Script v :=
  Tree.mono h (fun _ hatom => h.vocabulary ▸ hatom) hv

theorem Code.mono {v : Value} (h : L.Settles M) (hv : L.Code v) : M.Code v :=
  ⟨Tree.mono h (fun _ hatom => h.vocabulary ▸ hatom) hv.1, hv.2.mono h⟩

theorem dataAtom_of_word {v : Value} (h : L.vocabulary.word v) : L.DataAtom v := by
  have htoken := L.vocabulary.token h
  cases v with
  | num | primitive => trivial
  | closure => exact htoken.elim
  | _ => exact h

theorem DataAtom.mono {v : Value} (h : L.Settles M) (hv : L.DataAtom v) : M.DataAtom v := by
  cases v with
  | num | primitive => trivial
  | closure serial params body env =>
    obtain ⟨hparams, hbody, henv⟩ := hv
    exact ⟨hparams.mono h, hbody.mono h, henv.mono h⟩
  | _ => simpa only [DataAtom, h.vocabulary] using hv

theorem Data.mono {v : Value} (h : L.Settles M) (hv : L.Data v) : M.Data v :=
  Tree.mono h (fun _ hatom => hatom.mono h) hv

theorem Outcome.mono {v : Value} (h : L.Settles M) (hv : L.Outcome v) : M.Outcome v :=
  hv.imp_left (·.mono h)

theorem Matter.mono {v : Value} (h : L.Settles M) (hv : L.Matter v) : M.Matter v :=
  Tree.mono h (fun _ hatom => hatom.imp_left (·.mono h)) hv

theorem Code.data {v : Value} (hv : L.Code v) : L.Data v :=
  Tree.mono settles_refl (fun _ hatom => dataAtom_of_word hatom) hv.1

theorem Code.script {v : Value} (hv : L.Code v) : L.Script v :=
  Tree.mono settles_refl (fun _ hatom => .inl hatom) hv.1

theorem Code.outcome {v : Value} (hv : L.Code v) : L.Outcome v :=
  .inl hv.data

theorem Script.matter {v : Value} (hv : L.Script v) : L.Matter v :=
  Tree.mono settles_refl (fun _ hatom => hatom.imp_left dataAtom_of_word) hv

theorem Data.matter {v : Value} (hv : L.Data v) : L.Matter v :=
  Tree.mono settles_refl (fun _ hatom => .inl hatom) hv

theorem Outcome.matter {v : Value} (hv : L.Outcome v) : L.Matter v := by
  rcases hv with hv | herror
  · exact hv.matter
  · obtain ⟨serial, fault, rfl⟩ := Value.isError_iff.mp herror
    exact .atom rfl (.inr rfl)

theorem Data.nil (L : Layout) : L.Data .nil :=
  .atom rfl L.vocabulary.nil

/-- A value that a program computes with is no error. -/
theorem Data.isError {v : Value} (hv : L.Data v) : v.isError = false := by
  cases hv with
  | pair => rfl
  | @atom v _ hatom =>
    cases v with
    | error => exact (L.vocabulary.token hatom).elim
    | _ => rfl

/-- The elements of program text are program text. -/
theorem Code.chain {v : Value} (hv : L.Code v) :
    ∃ elements tail, L.Chain v elements tail ∧ ∀ element ∈ elements, L.Code element := by
  obtain ⟨htree, hgiven⟩ := hv
  induction htree with
  | atom hplace => exact ⟨[], _, .done hplace, by simp⟩
  | @pair place a d hrole hcar _ _ ih =>
    obtain ⟨elements, tail, hchain, helements⟩ := ih (.cdr hrole hgiven)
    have ha : L.Code a := ⟨hcar, .car hrole hgiven⟩
    refine ⟨a :: elements, tail, .next hrole hchain, ?_⟩
    simpa [ha] using helements

end Layout

end ConsLisp
