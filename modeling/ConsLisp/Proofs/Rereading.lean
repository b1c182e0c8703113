import ConsLisp.Proofs.Errors
import ConsLisp.Proofs.Spelling.Programs

/-!
# Printed results are stable

A result of a line may have parts that cannot be read back: functions, and ends of lists behind a
dot.  Its printed form says an expression all the same, in which a dot and the words for functions
are names.  What that expression denotes is another value with the same printed form, which takes
the same number of nested calls.

Main statements: a printed form says an expression that prints alike (`Grammar.exists_rereads`), and
every printed result of a session is read back as a value that is printed alike
(`Interpreter.print_reread`).
-/

namespace ConsLisp

/-! ## Values without errors -/

namespace Store

variable {s : Store}

theorem ErrorFree.atom {v : Value} (hcell : s.cell? v = none) (hv : v.isError = false) :
    s.ErrorFree v := by
  have hself {w : Value} (hpart : s.Part v w) : w = v := by
    induction hpart with
    | refl => rfl
    | car _ hfield ih | cdr _ hfield ih => simp [ih, hcell] at hfield
  intro w hpart
  rwa [hself hpart]

theorem ErrorFree.pair {place : Nat} {a d : Value} (hcell : s.cell? (.pair place) = some ⟨a, d⟩)
    (ha : s.ErrorFree a) (hd : s.ErrorFree d) : s.ErrorFree (.pair place) := by
  have hfields {w : Value} (hpart : s.Part (.pair place) w) :
      w = .pair place ∨ s.Part a w ∨ s.Part d w := by
    induction hpart with
    | refl => exact .inl rfl
    | car _ hfield ih =>
      rcases ih with rfl | ih | ih
      · obtain rfl := Option.some.inj (hcell.symm.trans hfield)
        exact .inr (.inl .refl)
      · exact .inr (.inl (ih.car hfield))
      · exact .inr (.inr (ih.car hfield))
    | cdr _ hfield ih =>
      rcases ih with rfl | ih | ih
      · obtain rfl := Option.some.inj (hcell.symm.trans hfield)
        exact .inr (.inr .refl)
      · exact .inr (.inl (ih.cdr hfield))
      · exact .inr (.inr (ih.cdr hfield))
  intro w hpart
  rcases hfields hpart with rfl | hpart | hpart
  · rfl
  · exact ha w hpart
  · exact hd w hpart

end Store

namespace Grammar

variable {s : Store} {own : Nat → Prop}

/-- What is denoted holds no errors. -/
theorem Denotes.errorFree {phrase : Phrase} {v : Value} (h : Denotes s own phrase v) :
    s.ErrorFree v := by
  induction h with
  | atom h => cases h <;> exact .atom rfl rfl
  | list _ ih => exact ih
  | quote _ ih => exact ih
  | nil => exact .atom rfl rfl
  | cons _ hcell _ _ ihcar ihcdr => exact .pair hcell ihcar ihcdr

/-- What the items of a list denote are the elements of a chain. -/
theorem Denotes.links {items : List Expression} {v : Value} (h : Denotes s own (.many items) v) :
    ∃ places values, s.Links v places values .nil ∧
      List.Forall₂ (fun e value => Denotes s own (.one e) value) items values := by
  induction items generalizing v with
  | nil =>
    cases h with
    | nil => exact ⟨[], [], .done rfl, .nil⟩
  | cons e items ih =>
    cases h with
    | cons _ hcell hcar hcdr =>
      obtain ⟨places, values, hlinks, hvalues⟩ := ih hcdr
      exact ⟨_, _, .next hcell hlinks, .cons hcar hvalues⟩

/-! ## Texts that are printed again -/

/-- The text says the expression, and all that the expression denotes has the text as its printed
form, given this many nested calls. -/
structure Rereads (depth : Nat) (item : String × Expression) : Prop where
  stands : Stands item
  prints {s : Store} {own : Nat → Prop} {v : Value} (h : Denotes s own (.one item.2) v) :
    s.print depth v = .ok item.1

variable {depth : Nat}

/-- The printed form of a number does not say which object it is. -/
theorem print_plain (s : Store) (depth : Nat) (v : Value) :
    s.print depth v.plain = s.print depth v := by
  cases v with
  | num n serial =>
    cases depth with
    | zero => rfl
    | succ depth => rw [Value.plain, Store.print, Store.print]
  | _ => rfl

/-- A token that denotes an atom of which it is the printed form. -/
theorem Rereads.atom {text : String} (hne : text.toList ≠ [])
    (hchars : ∀ c ∈ text.toList, Atom.isDelimiter c = false)
    (hprint : ∀ s : Store, s.print depth (Atom.denote text.toList) = .ok text) :
    Rereads depth (text, .atom text.toList) where
  stands _ hnext := .atom hne hchars hnext
  prints {s} _ _ h := by
    cases h with
    | atom h =>
      rw [← print_plain, h.plain_eq]
      exact hprint s

theorem Rereads.name {name : String} (h : IsName name) (depth : Nat) :
    Rereads (depth + 1) (name, .atom name.toList) := by
  refine .atom h.nonempty h.atom fun s => ?_
  rw [h.denote, Store.print]

theorem Rereads.nil (depth : Nat) : Rereads (depth + 1) ("nil", .atom "nil".toList) := by
  refine .atom (by decide) (by simp [Atom.isDelimiter, Text.isBlank]) fun s => ?_
  rw [show Atom.denote "nil".toList = .nil by decide, Store.print]

theorem Rereads.num {n : Int} {text : String} (h : Decimal.write n = .ok text) (depth : Nat) :
    Rereads (depth + 1) (text, .atom text.toList) := by
  have hread := Decimal.read?_of_write h
  obtain ⟨-, rfl⟩ := Decimal.write_eq_ok_iff.mp h
  rw [String.toList_ofList] at hread
  refine .atom ?_ ?_ fun s => ?_
  · rw [String.toList_ofList]
    exact digits_ne_nil n
  · rw [String.toList_ofList]
    exact fun c => isDelimiter_of_mem_digits
  · rw [String.toList_ofList, Atom.denote, hread]
    exact h

/-- What the items of a list denote is printed as their texts. -/
theorem prints_each {written : List (String × Expression)} {values : List Value}
    (h : ∀ item ∈ written, Rereads depth item)
    (hvalues : List.Forall₂ (fun e v => Denotes s own (.one e) v) (written.map Prod.snd) values) :
    List.Forall₂ (fun v text => s.print depth v = .ok text) values (written.map Prod.fst) := by
  induction written generalizing values with
  | nil =>
    cases hvalues
    exact .nil
  | cons item written ih =>
    obtain ⟨hitem, hrest⟩ := List.forall_mem_cons.mp h
    cases hvalues with
    | cons hvalue hvalues => exact .cons (hitem.prints hvalue) (ih hrest hvalues)

theorem Rereads.list {item : String × Expression} {written : List (String × Expression)}
    (h : ∀ other ∈ item :: written, Rereads depth other) :
    Rereads (depth + 2) ("(" ++ " ".intercalate ((item :: written).map Prod.fst) ++ ")",
      .list ((item :: written).map Prod.snd)) where
  stands := .list fun other hmem => (h other hmem).stands
  prints h' := by
    cases h' with
    | list h' =>
      obtain ⟨places, values, hlinks, hvalues⟩ := h'.links
      have htexts := prints_each h hvalues
      cases hlinks with
      | done => cases hvalues
      | next hcell hrest => exact Store.print_list (.next hcell hrest) htexts

/-! ## Printed values -/

/-- No part of the value is an error, and all its names are names to the reader. -/
def Presentable (s : Store) (v : Value) : Prop :=
  ∀ w, s.Part v w → w.isError = false ∧ ∀ name, w = .sym name → IsName name

theorem Presentable.mono {v w : Value} (h : Presentable s v) (hpart : s.Part v w) :
    Presentable s w :=
  fun _ hpart' => h _ (hpart.trans hpart')

theorem isName_dot : IsName "." :=
  isName_of_read (by decide) (by decide) (by decide) (by decide)

theorem isName_subr : IsName "<subr>" :=
  isName_of_read (by decide) (by decide) (by decide) (by decide)

theorem isName_expr : IsName "<expr>" :=
  isName_of_read (by decide) (by decide) (by decide) (by decide)

/-- What stands behind a dot is written like two more elements. -/
theorem written_dotted (item last : String × Expression)
    (written : List (String × Expression)) :
    "(" ++ " ".intercalate ((item :: written).map Prod.fst) ++ (" . " ++ last.1) ++ ")" =
      "(" ++ " ".intercalate
        ((item :: (written ++ [(".", .atom ".".toList), last])).map Prod.fst) ++ ")" := by
  refine String.toList_inj.mp ?_
  simp only [String.toList_append, toList_intercalate]
  simp [others]

/-- Texts of values that are printed say expressions, if those of all single values do. -/
theorem exists_rereads_each {elements : List Value} {texts : List String}
    (htexts : List.Forall₂ (fun v text => s.print depth v = .ok text) elements texts)
    (h : ∀ v ∈ elements, ∀ text, s.print depth v = .ok text → ∃ e, Rereads depth (text, e)) :
    ∃ written : List (String × Expression), written.map Prod.fst = texts ∧
      ∀ item ∈ written, Rereads depth item := by
  induction htexts with
  | nil => exact ⟨[], rfl, nofun⟩
  | @cons v text _ _ htext _ ih =>
    obtain ⟨hfirst, hrest⟩ := List.forall_mem_cons.mp h
    obtain ⟨e, he⟩ := hfirst text htext
    obtain ⟨written, rfl, hwritten⟩ := ih hrest
    exact ⟨(text, e) :: written, rfl, List.forall_mem_cons.mpr ⟨he, hwritten⟩⟩

/-- The printed form of a pair says a list, if those of its elements and of its end say
expressions. -/
theorem exists_rereads_pair (hs : s.Founded) {place : Nat} {text : String}
    (hprint : s.print (depth + 2) (.pair place) = .ok text)
    (ih : ∀ v, s.Part (.pair place) v → ∀ text, s.print depth v = .ok text →
      ∃ e, Rereads depth (text, e)) :
    ∃ e, Rereads (depth + 2) (text, e) := by
  obtain ⟨places, elements, tail, hlinks⟩ := hs.links (.pair place)
  obtain ⟨texts, ending, htexts, rfl, hending⟩ := Store.exists_of_print_ok hlinks hprint
  have hparts := hlinks.part
  obtain ⟨written, rfl, hwritten⟩ :=
    exists_rereads_each htexts fun v hmem => ih v (hparts.1 v hmem)
  cases written with
  | nil =>
    -- Without elements, the store does not have the pair.
    cases hlinks with
    | done hcell => simp [Store.print_of_cell_none hcell] at hprint
    | next => cases htexts
  | cons item written =>
    rcases hending with ⟨-, rfl⟩ | ⟨last, -, hlast, rfl⟩
    · rw [String.append_empty]
      exact ⟨_, .list hwritten⟩
    · obtain ⟨e, he⟩ := ih tail hparts.2 last hlast
      have hdot : Rereads depth (".", .atom ".".toList) := by
        cases depth with
        | zero => cases hlast
        | succ depth => exact .name isName_dot depth
      rw [written_dotted item (last, e) written]
      obtain ⟨hfirst, hrest⟩ := List.forall_mem_cons.mp hwritten
      refine ⟨_, .list (List.forall_mem_cons.mpr ⟨hfirst, fun other hmem => ?_⟩)⟩
      simp only [List.mem_append, List.mem_cons, List.not_mem_nil, or_false] at hmem
      rcases hmem with hmem | rfl | rfl
      · exact hrest other hmem
      · exact hdot
      · exact he

/-- The printed form of a value says an expression that prints alike. -/
theorem exists_rereads (hs : s.Founded) {v : Value} (hv : Presentable s v) {text : String}
    (hprint : s.print depth v = .ok text) : ∃ e, Rereads depth (text, e) := by
  -- A pair takes two nested calls, so its parts have two less.
  induction depth using Nat.strong_induction_on generalizing v text with
  | _ depth ih =>
    cases depth with
    | zero => cases hprint
    | succ depth =>
      have hatom := hprint
      unfold Store.print at hatom
      cases v with
      | nil =>
        obtain rfl := Except.ok.inj hatom
        exact ⟨_, .nil depth⟩
      | num n => exact ⟨_, .num hatom depth⟩
      | sym name =>
        obtain rfl := Except.ok.inj hatom
        exact ⟨_, .name ((hv _ .refl).2 name rfl) depth⟩
      | error => simpa [Value.isError] using (hv _ .refl).1
      | primitive =>
        obtain rfl := Except.ok.inj hatom
        exact ⟨_, .name isName_subr depth⟩
      | closure =>
        obtain rfl := Except.ok.inj hatom
        exact ⟨_, .name isName_expr depth⟩
      | foreign object => cases hatom
      | pair place =>
        cases depth with
        | zero => cases hatom
        | succ depth =>
          exact exists_rereads_pair hs hprint fun w hpart text htext =>
            ih depth (by omega) (hv.mono hpart) htext

end Grammar

/-! ## Sessions -/

/-- All characters. -/
def Alphabet.all : Alphabet :=
  ⟨fun _ => True, fun _ => trivial⟩

theorem Store.Spelled.presentable {A : Alphabet} {s : Store} (h : s.Spelled A) {v : Value}
    (hv : v.Spelled A) (hfree : s.ErrorFree v) : Grammar.Presentable s v := by
  intro w hpart
  refine ⟨hfree w hpart, fun name hname => ?_⟩
  have hw := h.part hv hpart
  rw [hname] at hw
  exact hw.1

namespace Interpreter

/-- After every line of a session no chain of the store goes on for ever. -/
theorem founded_eval (log : Log) (limit : Nat) (texts : List (List Char)) (line : List Char) :
    (((Interpreter.new log).evalAll limit texts).2.eval limit line).2.state.store.Founded := by
  obtain ⟨o, L, -, -, rfl, -, hfull, henv, hsound⟩ :=
    Chronicle.session_sound_within log limit texts
  obtain ⟨L', -, hline, -⟩ := hsound.line hfull henv line
  have heq := Chronicle.session_line log o.limit texts line
  have hstate := (Chronicle.line_eq_eval o.limit line
    ((Interpreter.new log).evalAll o.limit texts).2
    (Chronicle.session log o.limit texts).2.moments).2
  rw [← hstate, ← heq]
  exact hline.kept.founded

/-- In every session: if the value of a line holds no error and has a printed form, then this is
read up to its end, in any state, as a value that holds no error and has the same printed form. -/
theorem print_reread {log : Log} {limit : Nat} {texts : List (List Char)} {line : List Char}
    {v : Value} {i : Interpreter}
    (heval : ((Interpreter.new log).evalAll limit texts).2.eval limit line = (.ok v, i))
    (hfree : i.state.store.ErrorFree v) {depth : Nat} {text : String}
    (hprint : i.state.store.print depth v = .ok text) (state : State) :
    ∃ v' state', Grammar.Reads text.toList state v' [] state' ∧ state'.store.ErrorFree v' ∧
      state'.store.print depth v' = .ok text := by
  have hall (line : List Char) : Alphabet.all.Spells line := fun _ _ => trivial
  have hlines : ∀ line ∈ texts, Alphabet.all.Spells line := fun line _ => hall line
  obtain ⟨-, hglobals⟩ := spelled_new .all log
  have hspelled := (Chronicle.session_spelled log limit hlines).store
  rw [(Chronicle.session_eq_evalAll log limit texts).2] at hspelled
  rw [← Chronicle.globals_evalAll limit texts] at hglobals
  obtain ⟨hstore, hvalue⟩ := eval_spelled hspelled hglobals limit (hall line)
  have hfounded := founded_eval log limit texts line
  rw [heval] at hstore hvalue hfounded
  obtain ⟨e, hrereads⟩ :=
    Grammar.exists_rereads hfounded (hstore.presentable (hvalue v rfl) hfree) hprint
  obtain ⟨v', state', hreads, hdenotes, -⟩ :=
    (hrereads.stands [] nofun).reads (w := []) nofun state
  rw [List.nil_append, List.append_nil] at hreads
  exact ⟨v', state', hreads, hdenotes.errorFree, hrereads.prints hdenotes⟩

/-- A pair of a symbol and a function is printed with a dot and a word, and is read back as a list
of three symbols. -/
theorem print_reread_function :
    ∃ v i, ((Interpreter.new {}).evalAll 100 ["(defun f (x) x)".toList]).2.eval 100
        "(cons 'a f)".toList = (.ok v, i) ∧
      i.state.store.ErrorFree v ∧ i.state.store.print 100 v = .ok "(a . <expr>)" ∧
      ∀ state : State, ∃ v' state', Grammar.Reads "(a . <expr>)".toList state v' [] state' ∧
        state'.store.ErrorFree v' ∧ state'.store.print 100 v' = .ok "(a . <expr>)" := by
  have hdecided : ∀ answered, ((Interpreter.new {}).evalAll 100 ["(defun f (x) x)".toList]).2.eval
      100 "(cons 'a f)".toList = answered → answered.1 = .ok (.pair 41) ∧
        answered.2.state.store.cell? (.pair 41) =
          some ⟨.sym "a", .closure 12 (.pair 29) (.pair 31) (.pair 0)⟩ ∧
        answered.2.state.store.print 100 (.pair 41) = .ok "(a . <expr>)" := by
    rintro _ rfl
    decide +kernel
  generalize heval : ((Interpreter.new {}).evalAll 100 ["(defun f (x) x)".toList]).2.eval 100
    "(cons 'a f)".toList = answered
  obtain ⟨hvalue, hcell, hprint⟩ := hdecided answered heval
  obtain ⟨result, i⟩ := answered
  obtain rfl : result = .ok (.pair 41) := hvalue
  have hfree : i.state.store.ErrorFree (.pair 41) := .pair hcell (.atom rfl rfl) (.atom rfl rfl)
  exact ⟨_, i, rfl, hfree, hprint, print_reread heval hfree hprint⟩

end Interpreter

end ConsLisp
