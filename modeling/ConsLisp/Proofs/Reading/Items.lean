import ConsLisp.Proofs.Reading.Verdict
import ConsLisp.Proofs.Sequence

/-!
# How the reader makes a list

The elements of a list are read one after the other, each in the state in which the one before has
left off, and each value is put in front of those before it by a new pair.  At the closing
parenthesis the new pairs are turned around.  An element that aborts or is an error ends this, and
so does the end of the text.  Nothing else can happen: each element takes at least one character, so
the reader does not give up early.  In no case does a pair change that was there before.

Main statements: what becomes of every list (`Form.readUntilClose_cases`), and that reading changes
no pair (`Form.keeps_read`).
-/

namespace ConsLisp

namespace Action

/-- The state after a run. -/
def stateAfter {α : Type} : EStateM.Result Abort State α → State
  | .ok _ state => state
  | .error _ state => state

/-- The program changes no pair that was there before, whether it answers or aborts. -/
def Keeps {α : Type} (a : Action α) : Prop :=
  ∀ state : State, Store.KeepsExcept [] state.store (stateAfter (a state)).store

namespace Keeps

variable {α β : Type}

theorem pure (x : α) : Keeps (Pure.pure x) :=
  fun state => .refl [] state.store

theorem bind {a : Action α} {f : α → Action β} (ha : Keeps a) (hf : ∀ x, Keeps (f x)) :
    Keeps (a >>= f) := by
  intro state
  have hfirst := ha state
  simp only [Bind.bind, EStateM.bind]
  cases hrun : a state with
  | error abort between =>
    rw [hrun] at hfirst
    exact hfirst
  | ok x between =>
    rw [hrun] at hfirst
    exact hfirst.trans (hf x between) (by simp)

theorem cons (a d : Value) : Keeps (Action.cons a d) :=
  fun state => .cons state.store a d

theorem objectOf (atom : Value) : Keeps (Form.objectOf atom) := by
  intro state
  rw [Form.objectOf_eq]
  exact state.store.keeps_objectOf atom

/-- An error is no pair. -/
theorem refuse (fault : Fault) : Keeps (Form.refuse fault) :=
  fun _ => ⟨Nat.le_refl _, fun _ _ => rfl⟩

end Keeps

end Action

namespace Form

open ConsLisp.Action

/-- One more element begins here, after blanks. -/
def BeginsItem (text : List Char) : Prop :=
  ∃ c rest, Text.skipBlanks text = c :: rest ∧ c ≠ ')'

/-- Elements are read one after the other, to values of which none is an error.  After each a new
pair puts its value in front of `done`; these are their places.  In the end this text is left. -/
inductive Scans (readOne : List Char → Action (Value × List Char)) :
    Value → State → List Char → List Value → List Nat → State → List Char → Prop
  | nil {done : Value} {state : State} {text : List Char} :
      Scans readOne done state text [] [] state text
  | cons {done value : Value} {text rest left : List Char} {values : List Value}
      {places : List Nat} {state between after : State} (hitem : BeginsItem text)
      (hrun : readOne (Text.skipBlanks text) state = .ok (value, rest) between)
      (hvalue : value.isError = false)
      (hrest : Scans readOne (.pair between.store.size)
        ⟨(between.store.cons value done).2, between.log⟩ rest values places after left) :
      Scans readOne done state text (value :: values) (between.store.size :: places) after left

/-- What becomes of the rest of a list, if the values so far are a list of these pairs. -/
inductive Gathers (readOne : List Char → Action (Value × List Char)) (done : Value)
    (front : List Nat) (elements : List Value) (first : State) (text : List Char) :
    EStateM.Result Abort State (Value × List Char) → Prop
  | aborts {values : List Value} {places : List Nat} {left : List Char} {abort : Abort}
      {between after : State} (hscan : Scans readOne done first text values places between left)
      (hitem : BeginsItem left)
      (hrun : readOne (Text.skipBlanks left) between = .error abort after) :
      Gathers readOne done front elements first text (.error abort after)
  | error {values : List Value} {places : List Nat} {left rest : List Char} {error : Value}
      {between after : State} (hscan : Scans readOne done first text values places between left)
      (hitem : BeginsItem left)
      (hrun : readOne (Text.skipBlanks left) between = .ok (error, rest) after)
      (herror : error.isError = true) :
      Gathers readOne done front elements first text (.ok (error, rest) after)
  | unfinished {values : List Value} {places : List Nat} {left : List Char} {between : State}
      (hscan : Scans readOne done first text values places between left)
      (hend : Text.skipBlanks left = []) :
      Gathers readOne done front elements first text
        ((refuse .unfinishedParenthesis : Action (Value × List Char)) between)
  | closed {all : Value} {values : List Value} {places : List Nat} {left rest : List Char}
      {between : State} (hscan : Scans readOne done first text values places between left)
      (hclose : Text.skipBlanks left = ')' :: rest)
      (hfresh : ∀ place ∈ places, first.store.size ≤ place)
      (hall : between.store.Links all (places.reverse ++ front) (values.reverse ++ elements) .nil) :
      Gathers readOne done front elements first text
        ((do return (← reverse all, rest) : Action (Value × List Char)) between)

/-- One more element is read before. -/
theorem Gathers.next {readOne : List Char → Action (Value × List Char)} {done value : Value}
    {front : List Nat} {elements : List Value} {first between : State} {text rest : List Char}
    {result : EStateM.Result Abort State (Value × List Char)} (hitem : BeginsItem text)
    (hrun : readOne (Text.skipBlanks text) first = .ok (value, rest) between)
    (hvalue : value.isError = false) (hsize : first.store.size ≤ between.store.size)
    (h : Gathers readOne (.pair between.store.size) (between.store.size :: front)
      (value :: elements) ⟨(between.store.cons value done).2, between.log⟩ rest result) :
    Gathers readOne done front elements first text result := by
  cases h with
  | aborts hscan hitem' hrun' => exact .aborts (.cons hitem hrun hvalue hscan) hitem' hrun'
  | error hscan hitem' hrun' herror =>
    exact .error (.cons hitem hrun hvalue hscan) hitem' hrun' herror
  | unfinished hscan hend => exact .unfinished (.cons hitem hrun hvalue hscan) hend
  | closed hscan hclose hfresh hall =>
    refine .closed (.cons hitem hrun hvalue hscan) hclose (List.forall_mem_cons.mpr ⟨hsize, ?_⟩) ?_
    · intro place hmem
      have hlonger : (between.store.cons value done).2.size = between.store.size + 1 :=
        Store.size_cons ..
      have hle := hfresh place hmem
      simp only [hlonger] at hle
      omega
    · simpa using hall

/-- A list is read element by element, if each element takes at least one character and changes no
pair. -/
theorem readEach_gathers {readOne : List Char → Action (Value × List Char)}
    (hkeeps : ∀ text, Keeps (readOne text))
    (hshort : ∀ c text state value rest after, readOne (c :: text) state = .ok (value, rest) after →
      rest.length ≤ text.length)
    {fuel : Nat} {done : Value} {front : List Nat} {elements : List Value} {s : Store}
    (hdone : s.Links done front elements .nil) {text : List Char} (hfuel : text.length ≤ fuel)
    (log : Log) :
    Gathers readOne done front elements ⟨s, log⟩ text
      (readEach readOne fuel done text ⟨s, log⟩) := by
  -- By induction on the fuel, which is enough as long as the text is no longer.
  induction fuel generalizing s log done front elements text with
  | zero =>
    obtain rfl := List.eq_nil_of_length_eq_zero (Nat.le_zero.mp hfuel)
    exact .unfinished .nil rfl
  | succ fuel ih =>
    cases hskip : Text.skipBlanks text with
    | nil =>
      unfold readEach
      rw [hskip]
      exact .unfinished .nil hskip
    | cons c after =>
      by_cases hclose : c = ')'
      · subst hclose
        unfold readEach
        rw [hskip]
        exact .closed .nil hskip (by simp) (by simpa using hdone)
      · have hitem : BeginsItem text := ⟨c, after, hskip, hclose⟩
        have hlength := Grammar.length_rest_lt hskip
        rw [readEach_item hskip hclose]
        simp only [Bind.bind, EStateM.bind]
        have hfirst := hkeeps (c :: after) ⟨s, log⟩
        cases hrun : readOne (c :: after) ⟨s, log⟩ with
        | error abort between => exact .aborts .nil hitem (hskip ▸ hrun)
        | ok x between =>
          obtain ⟨value, rest⟩ := x
          rw [hrun] at hfirst
          dsimp only
          cases hvalue : value.isError with
          | true => exact .error .nil hitem (hskip ▸ hrun) hvalue
          | false =>
            have hrest := hshort c after _ value rest between hrun
            have hlonger : Store.KeepsExcept [] s (between.store.cons value done).2 :=
              hfirst.trans (.cons ..) (by simp)
            refine .next hitem (hskip ▸ hrun) hvalue hfirst.size ?_
            exact ih (.next (Store.cell?_cons_self ..) (hdone.keep hlonger (by simp) rfl))
              (by omega) between.log

/-- What is left of a text is shorter. -/
theorem length_rest_le {depth : Nat} {c : Char} {text rest : List Char} {state after : State}
    {value : Value} (hrun : read depth (c :: text) state = .ok (value, rest) after) :
    rest.length ≤ text.length := by
  by_cases h : Grammar.Accepts (c :: text)
  · obtain ⟨w, e, front, next, hw, htext, hderives⟩ := h
    obtain ⟨hreads, -⟩ := Grammar.read_grammar (c :: text) state
    obtain ⟨v, state', hreads, -, -, hlt⟩ := hreads w e front next hw htext hderives
    obtain ⟨-, rfl, -⟩ := Grammar.eq_of_reads hrun hreads
    rw [List.length_cons] at hlt
    omega
  · obtain ⟨v, state', hreads, -⟩ := Grammar.refused_of_not_accepts h state
    obtain ⟨-, rfl, -⟩ := Grammar.eq_of_reads hrun hreads
    exact Nat.zero_le _

/-- What becomes of the rest of a list behind its opening parenthesis.  Each element may have this
many nested calls. -/
inductive ReadsItems (depth : Nat) (text : List Char) (first : State) :
    EStateM.Result Abort State (Value × List Char) → Prop
  /-- An element aborts.  Those before it have been read, and none behind it is. -/
  | aborts {values : List Value} {places : List Nat} {left : List Char} {abort : Abort}
      {between after : State}
      (hscan : Scans (read depth) .nil first text values places between left)
      (hitem : BeginsItem left)
      (hrun : read depth (Text.skipBlanks left) between = .error abort after) :
      ReadsItems depth text first (.error abort after)
  /-- An element is an error, which is the result. -/
  | error {values : List Value} {places : List Nat} {left rest : List Char} {error : Value}
      {between after : State}
      (hscan : Scans (read depth) .nil first text values places between left)
      (hitem : BeginsItem left)
      (hrun : read depth (Text.skipBlanks left) between = .ok (error, rest) after)
      (herror : error.isError = true) :
      ReadsItems depth text first (.ok (error, rest) after)
  /-- The text ends before the list does. -/
  | unfinished {values : List Value} {places : List Nat} {left : List Char} {between : State}
      (hscan : Scans (read depth) .nil first text values places between left)
      (hend : Text.skipBlanks left = []) :
      ReadsItems depth text first
        (.ok (.error between.store.serial .unfinishedParenthesis, [])
          ⟨(between.store.error .unfinishedParenthesis).2,
            between.log.note (.readFailed .unfinishedParenthesis)⟩)
  /-- All elements up to the closing parenthesis have values.  The new pairs are turned into the
  list of these, and nothing else changes. -/
  | list {list : Value} {values : List Value} {places : List Nat} {left rest : List Char}
      {between : State} {s : Store}
      (hscan : Scans (read depth) .nil first text values places between left)
      (hclose : Text.skipBlanks left = ')' :: rest)
      (hfresh : ∀ place ∈ places, first.store.size ≤ place)
      (hlist : s.Links list places values .nil)
      (hkeeps : Store.KeepsExcept places between.store s) (hsize : s.size = between.store.size)
      (hserial : s.serial = between.store.serial) :
      ReadsItems depth text first (.ok (list, rest) ⟨s, between.log⟩)

variable {depth : Nat} {text : List Char} {first : State}
  {result : EStateM.Result Abort State (Value × List Char)}

/-- The pairs of the values are turned around, and then they are the list in order. -/
theorem Gathers.readsItems (h : Gathers (read depth) .nil [] [] first text result) :
    ReadsItems depth text first result := by
  cases h with
  | aborts hscan hitem hrun => exact .aborts hscan hitem hrun
  | error hscan hitem hrun herror => exact .error hscan hitem hrun herror
  | unfinished hscan hend => exact .unfinished hscan hend
  | closed hscan hclose hfresh hall =>
    obtain ⟨list, s, hreverse, hlist, hkeeps, hserial⟩ := Action.reverse_of_links hall
    rw [Action.bind_ok hreverse]
    rw [List.append_nil, List.append_nil, List.reverse_reverse, List.reverse_reverse] at hlist
    refine .list hscan hclose hfresh hlist ⟨hkeeps.size, fun hlt hplace => ?_⟩
      (Action.size_of_reverse hreverse) hserial
    exact hkeeps.cell hlt (by simpa using hplace)

theorem Scans.keeps {readOne : List Char → Action (Value × List Char)}
    (hkeeps : ∀ text, Keeps (readOne text)) {done : Value} {values : List Value}
    {places : List Nat} {between : State} {left : List Char}
    (h : Scans readOne done first text values places between left) :
    Store.KeepsExcept [] first.store between.store := by
  induction h with
  | nil => exact .refl [] _
  | @cons done value text _ _ _ _ state between _ _ hrun _ _ ih =>
    have hone := hkeeps (Text.skipBlanks text) state
    rw [hrun] at hone
    exact (hone.trans (.cons between.store value done) (by simp)).trans ih (by simp)

/-- Whatever becomes of a list, no pair changes that was there before. -/
theorem ReadsItems.keeps (hkeeps : ∀ text, Keeps (read depth text))
    (h : ReadsItems depth text first result) :
    Store.KeepsExcept [] first.store (stateAfter result).store := by
  cases h with
  | @aborts _ _ left _ between _ hscan _ hrun | @error _ _ left _ _ between _ hscan _ hrun =>
    have hone := hkeeps (Text.skipBlanks left) between
    rw [hrun] at hone
    exact (hscan.keeps hkeeps).trans hone (by simp)
  | @unfinished _ _ _ between hscan =>
    have herror := Keeps.refuse .unfinishedParenthesis between
    exact (hscan.keeps hkeeps).trans herror (by simp)
  | list hscan _ hfresh _ hkeeps' =>
    refine (hscan.keeps hkeeps).trans hkeeps' fun place hlt hmem => ?_
    exact absurd hlt (Nat.not_lt.mpr (hfresh place hmem))

/-- If reading an element changes no pair, every list has a result of one of these kinds. -/
theorem readsItems_of_keeps (hkeeps : ∀ text, Keeps (read depth text)) (text : List Char)
    (first : State) :
    ReadsItems depth text first
      ((readUntilClose (depth + 1) text : Action (Value × List Char)) first) := by
  obtain ⟨s, log⟩ := first
  rw [readUntilClose_succ]
  refine (readEach_gathers hkeeps ?_ (.done rfl) (Nat.le_refl _) log).readsItems
  exact fun c text state value rest after => length_rest_le

/-- Reading changes no pair that was there before. -/
theorem keeps_read (depth : Nat) :
    (∀ text, Keeps (read depth text)) ∧
      ∀ text, Keeps (readUntilClose depth text : Action (Value × List Char)) := by
  induction depth with
  | zero => exact ⟨fun _ state => .refl [] state.store, fun _ state => .refl [] state.store⟩
  | succ depth ih =>
    obtain ⟨hone, hmany⟩ := ih
    refine ⟨fun text => ?_, fun text state => (readsItems_of_keeps hone text state).keeps hone⟩
    rw [read_succ]
    split
    · exact .refuse _
    · exact .refuse _
    · exact hmany _
    · exact .bind (hone _) fun form => .bind (.cons _ _) fun rest => .bind (.cons _ _) fun quoted =>
        .pure _
    · exact .bind (.objectOf _) fun object => .pure _

/-- What becomes of the rest of a list, in every state. -/
theorem readUntilClose_cases (depth : Nat) (text : List Char) (first : State) :
    ReadsItems depth text first
      ((readUntilClose (depth + 1) text : Action (Value × List Char)) first) :=
  readsItems_of_keeps (keeps_read depth).1 text first

end Form

end ConsLisp
