import ConsLisp.Proofs.Reference.Session

/-!
# Interpreters beside each other

The interpreters of a workspace share one store, one log and one supply of serial numbers, and their
cells lie between each other in the order in which they were made.  Each of them agrees with an
interpreter on values of its own, by a bridge of its own, and no cell has a use in two of these
bridges.  A line changes no cell but those that have a use in the bridge of its interpreter, and new
ones, so all other bridges stay as they are.

Main statement: `isolated`: whatever is sent to the other interpreters in between, the results of
the lines of one, and its global frame in the end, are those of an interpreter that receives these
lines only and has a store and a log of its own.
-/

namespace ConsLisp

/-- What a workspace may be asked for: an interpreter, or the printed result of a line. -/
inductive Message where
  | make (name : String)
  | line (name : String) (text : List Char)

/-- The lines for the interpreter of a name. -/
def linesTo (name : String) : List Message → List (List Char)
  | [] => []
  | .make _ :: rest => linesTo name rest
  | .line name' text :: rest =>
    if name' = name then text :: linesTo name rest else linesTo name rest

namespace Workspace

/-- The printed results of the lines, each with the name of its interpreter, and the workspace after
all messages. -/
def evalPrintAll (limit : Nat) :
    List Message → Workspace → List (String × Except Abort String) × Workspace
  | [], w => ([], w)
  | .make name :: rest, w => (w.enter name).2.evalPrintAll limit rest
  | .line name text :: rest, w =>
    let (result, w) := w.evalPrint limit name text
    let (results, w) := w.evalPrintAll limit rest
    ((name, result) :: results, w)

/-- The results that the interpreter of a name has given. -/
def resultsOf (name : String) : List (String × Except Abort String) → List (Except Abort String)
  | [] => []
  | (name', result) :: rest =>
    if name' = name then result :: resultsOf name rest else resultsOf name rest

end Workspace

/-- The two bindings, each in its store, have names that print alike and values that print alike, in
full and cut off at every depth. -/
structure Binding.Alike (s s' : Store) (b b' : Binding) : Prop where
  name (depth : Nat) : s.print depth b.name = s'.print depth b'.name
  value (depth : Nat) : s.print depth b.value = s'.print depth b'.value

open Bridge

variable {B₀ B B' : Bridge} {state state' : State} {r r' : Reference.State} {log : Log}

/-! ## Members -/

/-- The terms of an interpreter that shares the log and the store with others: its frames have no
spare bindings. -/
structure Terms.Shared (log : Log) (terms : Terms) : Prop where
  hidden : terms.hidden = ∅
  threshold : terms.threshold = log.threshold
  alone : ¬terms.alone

theorem Terms.Shared.of_le (h : B.toTerms.Shared log) (hle : B ≤ B') : B'.toTerms.Shared log :=
  hle.1 ▸ h

namespace Workspace

variable {w : Workspace} {name : String} {m : Member} {bridges : String → Bridge}
  {states : String → Reference.State}

theorem enter_of_member (h : w.members.lookup name = some m) : w.enter name = (m, w) := by
  unfold enter
  rw [h]

theorem enter_of_absent (h : w.members.lookup name = none) :
    w.enter name =
      (⟨(Interpreter.newIn w.state).globals, (Interpreter.newIn w.state).initial⟩,
        ⟨(Interpreter.newIn w.state).state, w.members ++
          [(name, ⟨(Interpreter.newIn w.state).globals,
            (Interpreter.newIn w.state).initial⟩)]⟩) := by
  unfold enter
  rw [h]

theorem lookup_append_self {members : List (String × Member)} (h : members.lookup name = none) :
    (members ++ [(name, m)]).lookup name = some m := by
  simp [List.lookup_append, h]

theorem lookup_append_of_ne {members : List (String × Member)} {other : String}
    (hne : other ≠ name) : (members ++ [(name, m)]).lookup other = members.lookup other := by
  simp [List.lookup_append, List.lookup_cons, beq_eq_false_iff_ne.mpr hne]

/-- Each interpreter of the workspace agrees with the one on values that has its name, by the bridge
of its name; those that have not been made have new ones.  No cell has a use in two bridges. -/
structure Apart (log : Log) (bridges : String → Bridge) (states : String → Reference.State)
    (w : Workspace) : Prop where
  threshold : w.state.log.threshold = log.threshold
  shared (name : String) : (bridges name).toTerms.Shared log
  joins {name : String} {m : Member} (h : w.members.lookup name = some m) :
    (bridges name).Joins (w.view m) (states name)
  absent {name : String} (h : w.members.lookup name = none) :
    states name = Reference.new log ∧ ∀ place, (bridges name).use place = none
  disjoint {name name' : String} (hne : name ≠ name') : (bridges name).Disjoint (bridges name')

theorem apart_new (log : Log) :
    Apart log (fun _ => blank ⟨0, ∅, log.threshold, False⟩) (fun _ => Reference.new log)
      { state := { log := log } } :=
  ⟨rfl, fun _ => ⟨rfl, rfl, id⟩, nofun, fun _ => ⟨rfl, fun _ => rfl⟩, fun _ _ => .inl rfl⟩

/-- Only one interpreter has done anything. -/
theorem Apart.update (h : w.Apart log bridges states) {w' : Workspace}
    (hmember : w'.members.lookup name = some m)
    (hothers : ∀ other ≠ name, w'.members.lookup other = w.members.lookup other)
    (hbeside : ∀ other ≠ name, (bridges other).Disjoint B₀)
    (hevolves : Evolves [] B₀ B' w.state.store w'.state.store) (hshared : B₀.toTerms.Shared log)
    (hjoins : B'.Joins (w'.view m) r') :
    w'.Apart log (Function.update bridges name B') (Function.update states name r') := by
  have hshared' := hshared.of_le hevolves.le
  have hlog : w'.state.log.threshold = log.threshold :=
    hjoins.agrees.threshold.1.trans hshared'.threshold
  -- Whether it has been made or not, another one has no use for what has changed.
  have hdisjoint : ∀ other ≠ name, (bridges other).Disjoint B' := by
    intro other hne
    cases hlookup : w.members.lookup other with
    | none => exact fun place => .inl ((h.absent hlookup).2 place)
    | some m => exact hevolves.disjoint (h.joins hlookup).agrees (hbeside other hne)
  constructor
  case threshold => exact hlog
  case shared =>
    intro other
    by_cases heq : other = name
    · subst heq
      rwa [Function.update_self]
    · rw [Function.update_of_ne heq]
      exact h.shared other
  case joins =>
    intro other m' hlookup
    by_cases heq : other = name
    · subst heq
      obtain rfl := Option.some.inj (hmember.symm.trans hlookup)
      rwa [Function.update_self, Function.update_self]
    · rw [Function.update_of_ne heq, Function.update_of_ne heq]
      obtain ⟨hglobals, hagrees⟩ := h.joins ((hothers other heq).symm.trans hlookup)
      exact ⟨hglobals, hagrees.beside (h.shared other).alone hevolves (hbeside other heq)
        (hlog.trans h.threshold.symm)⟩
  case absent =>
    intro other hlookup
    have hne : other ≠ name := by
      rintro rfl
      simp [hmember] at hlookup
    rw [Function.update_of_ne hne, Function.update_of_ne hne]
    exact h.absent ((hothers other hne).symm.trans hlookup)
  case disjoint =>
    intro other other' hne
    by_cases heq : other = name <;> by_cases heq' : other' = name
    · exact absurd (heq.trans heq'.symm) hne
    · subst heq
      rw [Function.update_self, Function.update_of_ne heq']
      exact (hdisjoint other' heq').symm
    · subst heq'
      rw [Function.update_self, Function.update_of_ne heq]
      exact hdisjoint other heq
    · rw [Function.update_of_ne heq, Function.update_of_ne heq']
      exact h.disjoint hne

/-! ## Messages -/

/-- No interpreter notices that another is made. -/
theorem Apart.enter (h : w.Apart log bridges states) (name : String) :
    (w.enter name).2.members.lookup name = some (w.enter name).1 ∧
      ∃ bridges', (w.enter name).2.Apart log bridges' states := by
  cases hlookup : w.members.lookup name with
  | some m =>
    rw [enter_of_member hlookup]
    exact ⟨hlookup, bridges, h⟩
  | none =>
    rw [enter_of_absent hlookup]
    obtain ⟨B', hevolves, hjoins⟩ := joins_newIn w.state False h.threshold False.elim
    rw [← (h.absent hlookup).1] at hjoins
    generalize Interpreter.newIn w.state = i at hevolves hjoins ⊢
    let m : Member := ⟨i.globals, i.initial⟩
    let w' : Workspace := ⟨i.state, w.members ++ [(name, m)]⟩
    have hmember : w'.members.lookup name = some m := lookup_append_self hlookup
    have happart := h.update hmember (fun _ hne => lookup_append_of_ne hne)
      (fun _ _ _ => .inr rfl) hevolves ⟨rfl, rfl, id⟩ hjoins
    rw [Function.update_eq_self] at happart
    exact ⟨hmember, _, happart⟩

/-- An interpreter that has performed an action is a view of the workspace that has. -/
theorem view_evalPrint (w : Workspace) (limit : Nat) (name : String) (line : List Char) :
    (w.evalPrint limit name line).2.view (w.enter name).1 =
      (((w.enter name).2.view (w.enter name).1).evalPrint limit line).2 := by
  unfold evalPrint perform Interpreter.evalPrint Interpreter.perform view
  simp only
  split <;> rfl

/-- A line has the result that it has for the interpreter on values, and no other interpreter
notices it. -/
theorem Apart.evalPrint (h : w.Apart log bridges states) (limit : Nat) (name : String)
    (line : List Char) :
    (w.evalPrint limit name line).1 =
        (Reference.perform (Reference.evalPrint limit line) (states name)).1 ∧
      ∃ bridges', (w.evalPrint limit name line).2.Apart log bridges' (Function.update states name
        (Reference.perform (Reference.evalPrint limit line) (states name)).2) := by
  obtain ⟨hmember, bridges₁, h₁⟩ := h.enter name
  have hline : Reference.Avoids (bridges₁ name).hidden line :=
    (h₁.shared name).hidden ▸ Reference.avoids_empty line
  obtain ⟨hresult, B', hevolves, hjoins⟩ := (h₁.joins hmember).evalPrint limit hline
  rw [← view_evalPrint] at hevolves hjoins
  exact ⟨hresult, _, h₁.update hmember (fun _ _ => rfl) (fun other hne => h₁.disjoint hne)
    hevolves (h₁.shared name) hjoins⟩

theorem evalPrintAll_line (limit : Nat) (name : String) (text : List Char)
    (rest : List Message) (w : Workspace) :
    w.evalPrintAll limit (.line name text :: rest) =
      ((name, (w.evalPrint limit name text).1) ::
          ((w.evalPrint limit name text).2.evalPrintAll limit rest).1,
        ((w.evalPrint limit name text).2.evalPrintAll limit rest).2) :=
  rfl

/-- A line comes before the others of its own interpreter, and changes nothing for any other. -/
theorem reference_line (limit : Nat) (name other : String) (text : List Char)
    (rest : List Message) (states : String → Reference.State) :
    Reference.evalPrintAll limit (linesTo other (.line name text :: rest)) (states other) =
      let (result, state) :=
        Reference.perform (Reference.evalPrint limit text) (states name)
      let (results, last) := Reference.evalPrintAll limit (linesTo other rest)
        (Function.update states name state other)
      (if name = other then result :: results else results, last) := by
  by_cases heq : name = other
  · subst heq
    simp [linesTo, Reference.evalPrintAll]
  · simp [linesTo, heq, Function.update_of_ne (Ne.symm heq)]

/-- The lines of each interpreter have the results that they have for one on values that receives
these lines only. -/
theorem Apart.evalPrintAll (h : w.Apart log bridges states) (limit : Nat)
    (messages : List Message) :
    (∀ name, resultsOf name (w.evalPrintAll limit messages).1 =
        (Reference.evalPrintAll limit (linesTo name messages) (states name)).1) ∧
      ∃ bridges', (w.evalPrintAll limit messages).2.Apart log bridges' fun name =>
        (Reference.evalPrintAll limit (linesTo name messages) (states name)).2 := by
  induction messages generalizing w bridges states with
  | nil => exact ⟨fun _ => rfl, bridges, h⟩
  | cons message rest ih =>
    cases message with
    | make name =>
      obtain ⟨-, bridges₁, h₁⟩ := h.enter name
      exact ih h₁
    | line name text =>
      obtain ⟨hresult, bridges₁, h₁⟩ := h.evalPrint limit name text
      obtain ⟨hresults, bridges₂, h₂⟩ := ih h₁
      rw [evalPrintAll_line]
      -- The line is the next one of its own interpreter, and is none of any other.
      refine ⟨fun other => ?_, bridges₂, ?_⟩
      · rw [reference_line, resultsOf, hresult, hresults]
      · convert h₂ using 2 with other
        rw [reference_line]

/-- Both bindings show the same variable. -/
theorem alike_of_same {b b' : Binding} {x : Reference.Variable} (h : B.Agrees state r)
    (h' : B'.Agrees state' r') (hsame : B.SameBinding b x) (hsame' : B'.SameBinding b' x) :
    Binding.Alike state.store state'.store b b' :=
  ⟨fun depth => ((hsame.1.depicts h).print_eq depth).trans
      ((hsame'.1.depicts h').print_eq depth).symm,
    fun depth => ((hsame.2.depicts h).print_eq depth).trans
      ((hsame'.2.depicts h').print_eq depth).symm⟩

/-- Two interpreters that agree with the same one on values have global frames that print alike. -/
theorem alike_bindings {i i' : Interpreter} (h : B.Joins i r) (h' : B'.Joins i' r)
    (hnone : B.hidden = ∅) (hnone' : B'.hidden = ∅) :
    ∃ bindings bindings', i.bindings = .ok bindings ∧ i'.bindings = .ok bindings' ∧
      List.Forall₂ (Binding.Alike i.state.store i'.state.store) bindings bindings' := by
  obtain ⟨bindings, hbindings, hsame⟩ := h.bindings hnone
  obtain ⟨bindings', hbindings', hsame'⟩ := h'.bindings hnone'
  refine ⟨bindings, bindings', hbindings, hbindings', ?_⟩
  generalize r.frame = frame at hsame hsame'
  clear hbindings hbindings'
  induction hsame generalizing bindings' with
  | nil =>
    cases hsame'
    exact .nil
  | cons hfirst _ ih =>
    cases hsame' with
    | cons hfirst' hrest' =>
      exact .cons (alike_of_same h.agrees h'.agrees hfirst hfirst') (ih _ hrest')

/-- Interpreters that share a store and a log do not notice each other: whatever is sent to the
others in between, the lines of one have the results that they have when it receives these lines
only and is alone, and in the end its global frame holds names and values that print as they do
then, in the same order. -/
theorem isolated (log : Log) (limit : Nat) (messages : List Message) (name : String) :
    let (results, w) := Workspace.evalPrintAll limit messages { state := { log := log } }
    let (results', own) := (Interpreter.new log).evalPrintAll limit (linesTo name messages)
    resultsOf name results = results' ∧
      ∃ bindings bindings', (w.interpreter name).bindings = .ok bindings ∧
        own.bindings = .ok bindings' ∧
        List.Forall₂ (Binding.Alike (w.interpreter name).state.store own.state.store)
          bindings bindings' := by
  obtain ⟨hresults, bridges, happart⟩ := (apart_new log).evalPrintAll limit messages
  obtain ⟨B, hnone, -, hjoins⟩ := joins_new log
  have hlines : ∀ line ∈ linesTo name messages, Reference.Avoids B.hidden line :=
    fun line _ => hnone ▸ Reference.avoids_empty line
  obtain ⟨hresults', B', hle, hjoins'⟩ := hjoins.evalPrintAll limit hlines
  obtain ⟨hmember, bridges₁, h₁⟩ := happart.enter name
  exact ⟨(hresults name).trans hresults'.symm,
    alike_bindings (h₁.joins hmember) hjoins' (h₁.shared name).hidden
      ((hidden_eq hle).symm.trans hnone)⟩

end Workspace

end ConsLisp
