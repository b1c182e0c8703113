import ConsLisp.Proofs.Reference.Tokens
import ConsLisp.Proofs.RoundTrip

/-!
# What values are spelled with

A value shows text in two ways: by the names of its symbols, and by the messages of its errors.
Given the characters that occur, among them the plain ones, this module says when a value and a
store are spelled with these characters, and with names that the reader would take for names again.

Main statement: such a value in such a store is printed with the same characters
(`Store.Spelled.print`).
-/

namespace ConsLisp

/-- A visible character of ASCII, or the blank. -/
def Text.isPlain (c : Char) : Bool :=
  ' ' ≤ c && c ≤ '~'

/-- Characters that may occur in texts, the plain ones among them. -/
structure Alphabet where
  has : Char → Prop
  plain {c : Char} (h : Text.isPlain c = true) : has c

namespace Alphabet

/-- The text is written in these characters. -/
def Spells (A : Alphabet) (text : List Char) : Prop :=
  ∀ c ∈ text, A.has c

variable {A : Alphabet}

theorem spells_of_plain {text : List Char} (h : text.all Text.isPlain = true) : A.Spells text :=
  fun c hc => A.plain (List.all_eq_true.mp h c hc)

theorem Spells.append {text more : List Char} (h : A.Spells text) (hmore : A.Spells more) :
    A.Spells (text ++ more) := by
  intro c hc
  rcases List.mem_append.mp hc with hc | hc
  · exact h c hc
  · exact hmore c hc

theorem Spells.append_plain {text more : String} (h : A.Spells text.toList)
    (hmore : more.toList.all Text.isPlain = true) : A.Spells (text ++ more).toList := by
  rw [String.toList_append]
  exact h.append (spells_of_plain hmore)

/-- What is part of the text is written in the same characters. -/
theorem Spells.sublist {text part : List Char} (h : A.Spells text) (hpart : part.Sublist text) :
    A.Spells part :=
  fun c hc => h c (hpart.subset hc)

theorem Spells.skipBlanks {text : List Char} (h : A.Spells text) :
    A.Spells (Text.skipBlanks text) :=
  h.sublist (List.dropWhile_sublist _)

/-- What stands behind the first character that is no blank. -/
theorem Spells.behind {text rest : List Char} {c : Char} (h : A.Spells text)
    (hskip : Text.skipBlanks text = c :: rest) : A.Spells rest :=
  (hskip ▸ h.skipBlanks).sublist (List.sublist_cons_self c rest)

theorem spells_digits (n : Int) : A.Spells (Decimal.digits n) := by
  have hdigits : ∀ c ∈ Nat.toDigits 10 n.natAbs, A.has c := by
    intro c hc
    have hdigit := Nat.isDigit_of_mem_toDigits (by decide) (by decide) hc
    refine A.plain ?_
    simp only [Char.isDigit, Text.isPlain, Bool.and_eq_true, decide_eq_true_eq] at hdigit ⊢
    exact ⟨Char.le_trans (by decide) hdigit.1, Char.le_trans hdigit.2 (by decide)⟩
  unfold Decimal.digits
  split
  · exact List.forall_mem_cons.mpr ⟨A.plain (by decide), hdigits⟩
  · exact hdigits

theorem spells_intercalate {texts : List String} (h : ∀ text ∈ texts, A.Spells text.toList) :
    A.Spells (" ".intercalate texts).toList := by
  rw [String.toList_intercalate]
  unfold List.intercalate
  induction texts with
  | nil => exact nofun
  | cons text texts ih =>
    rw [List.forall_mem_cons] at h
    cases texts with
    | nil => simpa using h.1
    | cons next texts =>
      have hblank : A.Spells " ".toList := spells_of_plain (by decide)
      simpa using h.1.append (hblank.append (ih h.2))

end Alphabet

open Alphabet

/-! ## Values and stores -/

/-- The names and the messages that a value shows are written in these characters, and the names
would be read as names. -/
def Value.Spelled (A : Alphabet) : Value → Prop
  | .sym name => Grammar.IsName name ∧ A.Spells name.toList
  | .error _ fault => A.Spells fault.message.toList
  | .closure _ params body env => params.Spelled A ∧ body.Spelled A ∧ env.Spelled A
  | .nil | .num .. | .pair _ | .primitive .. | .foreign _ => True

/-- All fields of pairs are spelled with these characters. -/
def Store.Spelled (A : Alphabet) (s : Store) : Prop :=
  ∀ v c, s.cell? v = some c → c.car.Spelled A ∧ c.cdr.Spelled A

variable {A : Alphabet} {s : Store}

/-- A token without delimiters that is read as no number, and is not `nil`, is a name. -/
theorem Grammar.isName_of_read {name : String} (hne : name.toList ≠ [])
    (hchars : name.toList.all (!Atom.isDelimiter ·) = true) (hnil : name ≠ "nil")
    (hread : Decimal.read? name.toList = none) : IsName name :=
  ⟨hne, by simpa using hchars, hnil, (read?_eq_none_iff _).mp hread⟩

theorem spelled_nil (A : Alphabet) : Value.nil.Spelled A :=
  trivial

theorem spelled_t (A : Alphabet) : Value.t.Spelled A :=
  ⟨Grammar.isName_of_read (by decide) (by decide) (by decide) (by decide),
    spells_of_plain (by decide)⟩

theorem spelled_quote (A : Alphabet) : (Value.sym "quote").Spelled A :=
  ⟨Grammar.isName_of_read (by decide) (by decide) (by decide) (by decide),
    spells_of_plain (by decide)⟩

theorem spelled_name (A : Alphabet) (p : Primitive) : (Value.ofName p.name).Spelled A := by
  cases p <;> exact ⟨Grammar.isName_of_read (by decide) (by decide) (by decide) (by decide),
    spells_of_plain (by decide)⟩

/-- An atom denotes a value that is spelled with its characters. -/
theorem Grammar.AtomDenotes.spelled {token : List Char} {v : Value} (h : AtomDenotes token v)
    (hne : token ≠ []) (hchars : ∀ c ∈ token, Atom.isDelimiter c = false)
    (htoken : A.Spells token) : v.Spelled A := by
  cases h with
  | nil => trivial
  | number => trivial
  | symbol hnil hnumber =>
    rw [Value.Spelled, String.toList_ofList]
    refine ⟨⟨?_, ?_, fun heq => hnil ?_, ?_⟩, htoken⟩
    · rwa [String.toList_ofList]
    · rwa [String.toList_ofList]
    · simpa using congrArg String.toList heq
    · rwa [String.toList_ofList]

namespace Store

theorem Spelled.car (h : s.Spelled A) (v : Value) : (s.car v).Spelled A := by
  unfold Store.car
  cases hcell : s.cell? v with
  | none => trivial
  | some c => exact (h v c hcell).1

theorem Spelled.cdr (h : s.Spelled A) (v : Value) : (s.cdr v).Spelled A := by
  unfold Store.cdr
  cases hcell : s.cell? v with
  | none => trivial
  | some c => exact (h v c hcell).2

/-- The parts of a spelled value are spelled. -/
theorem Spelled.part (h : s.Spelled A) {v w : Value} (hv : v.Spelled A) (hpart : s.Part v w) :
    w.Spelled A := by
  induction hpart with
  | refl => exact hv
  | car _ hcell _ => exact (h _ _ hcell).1
  | cdr _ hcell _ => exact (h _ _ hcell).2

theorem Spelled.cons (h : s.Spelled A) {a d : Value} (ha : a.Spelled A) (hd : d.Spelled A) :
    (s.cons a d).2.Spelled A := by
  intro v c hcell
  rw [cell?_cons] at hcell
  split at hcell
  · obtain rfl := Option.some.inj hcell
    exact ⟨ha, hd⟩
  · exact h v c hcell

theorem Spelled.setCar (h : s.Spelled A) (v : Value) {a : Value} (ha : a.Spelled A) :
    (s.setCar v a).Spelled A := by
  intro w c hcell
  rw [cell?_setCar] at hcell
  split at hcell
  · obtain ⟨c', hcell', rfl⟩ := Option.map_eq_some_iff.mp hcell
    exact ⟨ha, (h w c' hcell').2⟩
  · exact h w c hcell

theorem Spelled.setCdr (h : s.Spelled A) (v : Value) {d : Value} (hd : d.Spelled A) :
    (s.setCdr v d).Spelled A := by
  intro w c hcell
  rw [cell?_setCdr] at hcell
  split at hcell
  · obtain ⟨c', hcell', rfl⟩ := Option.map_eq_some_iff.mp hcell
    exact ⟨(h w c' hcell').1, hd⟩
  · exact h w c hcell

/-- A store with the same cells is spelled alike. -/
theorem Spelled.of_cells (h : s.Spelled A) {s' : Store} (hcells : s'.cells = s.cells) :
    s'.Spelled A := by
  intro v c hcell
  refine h v c ?_
  rw [← hcell]
  unfold Store.cell?
  rw [hcells]

theorem Spelled.define (h : s.Spelled A) {name value : Value} (hname : name.Spelled A)
    (hvalue : value.Spelled A) (env : Value) : (s.define name value env).Spelled A := by
  have hbinding := h.cons hname hvalue
  have hframe := hbinding.cons (a := .pair s.cells.size) trivial (hbinding.car env)
  exact hframe.setCar env (a := .pair _) trivial

theorem Spelled.value? (h : s.Spelled A) {name env : Value} {found : Option Value}
    (hfound : s.value? name env = .ok found) : ∀ v ∈ found, v.Spelled A := by
  unfold Store.value? at hfound
  cases hbinding : s.binding? name env with
  | error abort =>
    rw [hbinding] at hfound
    cases hfound
  | ok binding =>
    rw [hbinding] at hfound
    obtain rfl := Except.ok.inj hfound
    intro v hv
    -- The value of a binding is the second field of a pair.
    obtain ⟨pair, -, rfl⟩ := Option.map_eq_some_iff.mp hv
    exact h.cdr pair

/-! ## Printed forms -/

/-- What a fold along a chain makes of spelled values, and what it ends at. -/
theorem Spelled.foldWithin (h : s.Spelled A) {α : Type} {P : α → Prop}
    {step : α → Value → Except Abort α}
    (hstep : ∀ a v b, P a → v.Spelled A → step a v = .ok b → P b) (fuel : Nat) {a b : α}
    {v tail : Value} (ha : P a) (hv : v.Spelled A)
    (hfold : s.foldWithin step fuel a v = .ok (b, tail)) : P b ∧ tail.Spelled A := by
  induction fuel generalizing a v with
  | zero =>
    unfold Store.foldWithin at hfold
    cases hcell : s.cell? v with
    | none =>
      simp only [hcell, Except.ok.injEq, Prod.mk.injEq] at hfold
      obtain ⟨rfl, rfl⟩ := hfold
      exact ⟨ha, hv⟩
    | some c => simp [hcell] at hfold
  | succ fuel ih =>
    unfold Store.foldWithin at hfold
    cases hcell : s.cell? v with
    | none =>
      simp only [hcell, Except.ok.injEq, Prod.mk.injEq] at hfold
      obtain ⟨rfl, rfl⟩ := hfold
      exact ⟨ha, hv⟩
    | some c =>
      obtain ⟨hcar, hcdr⟩ := h v c hcell
      simp only [hcell] at hfold
      cases hnext : step a c.car with
      | error abort => simp [hnext] at hfold
      | ok a' =>
        rw [hnext] at hfold
        exact ih (hstep a c.car a' ha hcar hnext) hcdr hfold

theorem Spelled.print (h : s.Spelled A) (depth : Nat) :
    (∀ v text, v.Spelled A → s.print depth v = .ok text → A.Spells text.toList) ∧
      ∀ v text, v.Spelled A → s.printList depth v = .ok text → A.Spells text.toList := by
  induction depth with
  | zero => exact ⟨nofun, nofun⟩
  | succ depth ih =>
    constructor
    · intro v text hv hprint
      unfold Store.print at hprint
      cases v with
      | num n =>
        obtain ⟨-, rfl⟩ := Decimal.write_eq_ok_iff.mp hprint
        rw [String.toList_ofList]
        exact spells_digits n
      | sym name =>
        obtain rfl := Except.ok.inj hprint
        exact hv.2
      | error serial fault =>
        obtain rfl := Except.ok.inj hprint
        refine Spells.append_plain ?_ (by decide)
        rw [String.toList_append]
        exact (spells_of_plain (by decide)).append hv
      | pair place => exact ih.2 (.pair place) text hv hprint
      | foreign object => cases hprint
      | nil | primitive | closure =>
        obtain rfl := Except.ok.inj hprint
        exact spells_of_plain (by decide)
    · intro v text hv hprint
      obtain ⟨texts, tail, ending, hfold, rfl, hending⟩ := exists_of_printList_ok hprint
      have hcollect : ∀ texts element more, (∀ text ∈ texts, A.Spells text.toList) →
          element.Spelled A → (do return (← s.print depth element) :: texts) = .ok more →
          ∀ text ∈ more, A.Spells text.toList := by
        intro texts element more htexts helement hstep
        cases htext : s.print depth element with
        | error abort => simp [htext, bind, Except.bind] at hstep
        | ok text =>
          simp only [htext, bind, Except.bind, pure, Except.pure, Except.ok.injEq] at hstep
          subst hstep
          exact List.forall_mem_cons.mpr ⟨ih.1 element text helement htext, htexts⟩
      obtain ⟨htexts, htail⟩ :=
        h.foldWithin hcollect s.size (fun _ hnone => absurd hnone List.not_mem_nil) hv hfold
      have hending' : A.Spells ending.toList := by
        rcases hending with ⟨-, rfl⟩ | ⟨last, -, hlast, rfl⟩
        · exact spells_of_plain (by decide)
        · rw [String.toList_append]
          exact (spells_of_plain (by decide)).append (ih.1 tail last htail hlast)
      refine Spells.append_plain ?_ (by decide)
      simp only [String.toList_append]
      refine (Spells.append ?_ ?_).append hending'
      · exact spells_of_plain (by decide)
      · exact spells_intercalate fun text hmem => htexts text (List.mem_reverse.mp hmem)

end Store

end ConsLisp
