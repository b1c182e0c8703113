import ConsLisp.Proofs.Chronicle.Builders
import ConsLisp.Proofs.Outline.Session
import ConsLisp.Proofs.Reading.Items
import ConsLisp.Proofs.Store.Frames
import ConsLisp.Proofs.Store.Lists

/-!
# The lists that programs build

Four programs build lists: one pairs up two chains, one puts given elements before a value, one
evaluates a list of forms, and one reads a list.  Each puts new pairs in front of each other and
turns them around in the end.  The last two run other programs in between, which make and overwrite
pairs themselves; but nothing that these meet leads to the list, until it is answered.

Main statement: what each of the four makes, and that its pairs are secluded until it answers
(`Builder.builds`).
-/

namespace ConsLisp

variable {α : Type}

/-- The result of a run, without what has been written down. -/
def Watched.unwatched : EStateM.Result Abort Chronicle α → EStateM.Result Abort State α
  | .ok x c => .ok x c.state
  | .error abort c => .error abort c.state

theorem Watches.unwatched_eq {a : Watched α} {b : Action α} (h : Watches a b)
    (callers : List Caller) (c : Chronicle) :
    Watched.unwatched (a callers c) = b c.state := by
  have hrun := h.run callers c
  cases hanswer : a callers c with
  | ok x c' =>
    rw [hanswer] at hrun
    exact hrun.symm
  | error abort c' =>
    rw [hanswer] at hrun
    exact hrun.symm

section Nested

variable (call : Call) (value : α → Value) (a : Watched α) (callers : List Caller) (c : Chronicle)

theorem Watched.unwatched_nested :
    Watched.unwatched (Machine.nested call value a callers c) =
      Watched.unwatched (a (⟨call, c.state.store⟩ :: callers) (c.record callers (.call call))) := by
  simp only [Machine.nested]
  cases a (⟨call, c.state.store⟩ :: callers) (c.record callers (.call call)) with
  | ok | error => rfl

/-- After a nested call at most its answer is written down. -/
theorem Watched.moments_nested :
    (after (Machine.nested call value a callers c)).moments =
      (after (a (⟨call, c.state.store⟩ :: callers) (c.record callers (.call call)))).moments ∨
    ∃ m v, m.callers = callers ∧ m.deed = .answer call v ∧
      (after (Machine.nested call value a callers c)).moments =
        m :: (after (a (⟨call, c.state.store⟩ :: callers)
          (c.record callers (.call call)))).moments := by
  simp only [Machine.nested]
  cases a (⟨call, c.state.store⟩ :: callers) (c.record callers (.call call)) with
  | ok x c' => exact .inr ⟨_, _, rfl, rfl, rfl⟩
  | error abort c' => exact .inl rfl

end Nested

/-- A proper list is no error. -/
theorem Store.Links.isError {s : Store} {v : Value} {places : List Nat} {elements : List Value}
    (h : s.Links v places elements .nil) : v.isError = false := by
  cases h with
  | done | next => rfl

/-- The places of the pairs of the list that is answered, if a list is. -/
def Action.listed (value : α → Value) (result : EStateM.Result Abort State α) : Set Nat :=
  {place | ∃ x state places elements, result = .ok x state ∧
    state.store.Links (value x) places elements .nil ∧ place ∈ places}

namespace Builder

/-- The program of the builder, run below these calls, has this result.  These pairs are its own,
and until it answers or aborts, nothing but the builder has to do with its pairs. -/
structure Works (b : Builder) (callers : List Caller) (log : Log) (program : Watched α)
    (result : EStateM.Result Abort State α) (pairs : Set Nat) : Prop where
  unwatched : Watched.unwatched (program callers ⟨⟨b.store, log⟩, []⟩) = result
  made : pairs ⊆ b.made (Watched.after (program callers ⟨⟨b.store, log⟩, []⟩)).moments
  secluded {m : Moment} {earlier : List Moment}
    (hpoint : m :: earlier <:+ (Watched.after (program callers ⟨⟨b.store, log⟩, []⟩)).moments)
    (hcallers : b.callers <:+ m.callers) : b.Secludes m earlier

/-- The builder that runs inside of this call. -/
def inCall (callers : List Caller) (call : Call) (s : Store) : Builder :=
  ⟨⟨call, s⟩ :: callers, s⟩

/-- All pairs of the region are older than the builder. -/
def IsOld (b : Builder) (region : Set Nat) : Prop :=
  ∀ place ∈ region, place < b.store.size

variable {b : Builder} {log : Log}

/-- At the beginning the list is empty, and nothing has been made. -/
theorem holds_start {R : Set Nat → Prop} (hR : R {place | place < b.store.size}) {c : Chronicle}
    (hstore : c.state.store = b.store) (hmade : b.made c.moments = ∅) : b.Holds R .nil c := by
  refine ⟨⟨[], [], .done rfl, by simp⟩, ?_⟩
  rwa [outside, hmade, hstore, Store.outside_empty]

namespace Guides

variable {pre : Chronicle → Prop} {post : α → Chronicle → Prop} {a : Watched α} {c c' : Chronicle}
  {x : α} {state : State}

theorem encloses (h : b.Guides pre a post) (hc : b.Encloses c) (hpre : pre c) :
    b.Encloses (Watched.after (a b.callers c)) := by
  have hrun := h.run c hc hpre
  cases hanswer : a b.callers c with
  | ok x c' =>
    rw [hanswer] at hrun
    exact hrun.1
  | error abort c' =>
    rw [hanswer] at hrun
    exact hrun

theorem answers (h : b.Guides pre a post) (hc : b.Encloses c) (hpre : pre c)
    (hanswer : a b.callers c = .ok x c') : post x c' := by
  have hrun := h.run c hc hpre
  rw [hanswer] at hrun
  exact hrun.2

/-- A builder that makes all new pairs itself. -/
theorem works {a' : Action α} {pairs : Set Nat}
    (h : b.Guides (b.Holds b.IsOld .nil) a fun _ c => b.IsOld (b.outside c))
    (hwatch : Watches a a') (hsealed : b.store.Sealed) (hrun : a' ⟨b.store, log⟩ = .ok x state)
    (hpairs : ∀ place ∈ pairs, b.store.size ≤ place ∧ place < state.store.size) :
    b.Works b.callers log a (.ok x state) pairs := by
  have hstart := Encloses.start hsealed log
  have hholds : b.Holds b.IsOld .nil ⟨⟨b.store, log⟩, []⟩ :=
    holds_start (fun _ hplace => hplace) rfl b.made_nil
  have hencloses := h.encloses hstart hholds
  have hsame := (hwatch.unwatched_eq b.callers ⟨⟨b.store, log⟩, []⟩).trans hrun
  refine ⟨hsame, fun place hplace => ?_, fun hpoint _ => hencloses.past _ _ hpoint⟩
  cases hanswer : a b.callers ⟨⟨b.store, log⟩, []⟩ with
  | error abort c' => simp [hanswer, Watched.unwatched] at hsame
  | ok y c' =>
    obtain ⟨rfl, rfl⟩ : y = x ∧ c'.state = state := by
      simpa [hanswer, Watched.unwatched] using hsame
    -- A new pair outside would be an old one.
    obtain ⟨hnew, hlt⟩ := hpairs place hplace
    by_contra hnot
    exact Nat.not_lt.mpr hnew (h.answers hstart hholds hanswer place ⟨hlt, hnot⟩)

/-- The pairs of the list that is answered are those of the builder. -/
theorem listed_subset {value : α → Value} {R : Set Nat → Prop}
    (h : b.Guides pre a fun x c => (value x).isError = true ∨ b.Holds R (value x) c)
    (hc : b.Encloses c) (hpre : pre c) :
    Action.listed value (Watched.unwatched (a b.callers c)) ⊆
      b.made (Watched.after (a b.callers c)).moments := by
  rintro place ⟨x, state, places, elements, hresult, hlinks, hmem⟩
  cases hanswer : a b.callers c with
  | error abort c' => simp [hanswer, Watched.unwatched] at hresult
  | ok y c' =>
    obtain ⟨rfl, rfl⟩ : y = x ∧ c'.state = state := by
      simpa [hanswer, Watched.unwatched] using hresult
    rcases h.answers hc hpre hanswer with herror | hlist
    · simp [hlinks.isError] at herror
    · obtain ⟨places', elements', hlinks', hmade⟩ := hlist.chain
      obtain ⟨rfl, -, -⟩ := hlinks.functional hlinks'
      exact hmade place hmem

/-- A builder in a nested call, whose list is its answer. -/
theorem works_nested {callers : List Caller} {call : Call} {s : Store} {value : α → Value}
    {R R' : Set Nat → Prop} {a' : Action α}
    (h : (inCall callers call s).Guides ((inCall callers call s).Holds R .nil) a
      fun x c => (value x).isError = true ∨ (inCall callers call s).Holds R' (value x) c)
    (hwatch : Watches a a') (hsealed : s.Sealed) (hcall : ∀ v ∈ call.values ++ call.envs, s.Knows v)
    (hR : R {place | place < s.size}) :
    (inCall callers call s).Works callers log (Machine.nested call value a) (a' ⟨s, log⟩)
      (Action.listed value (a' ⟨s, log⟩)) := by
  let b := inCall callers call s
  let c : Chronicle := (⟨⟨s, log⟩, []⟩ : Chronicle).record callers (.call call)
  have hmade : b.made c.moments = ∅ := (made_of_not_cons (by simp)).trans b.made_nil
  have hstart : b.Encloses c := by
    refine (Encloses.start hsealed log).record callers (by simp) fun v hv => ?_
    rw [outside, made_nil, Store.outside_empty]
    exact hcall v hv
  have hholds : b.Holds R .nil c := holds_start hR rfl hmade
  have hsame : Watched.unwatched (a b.callers c) = a' ⟨s, log⟩ := hwatch.unwatched_eq b.callers c
  have hlisted := h.listed_subset hstart hholds
  have hencloses := h.encloses hstart hholds
  have hmoments := Watched.moments_nested call value a callers ⟨⟨s, log⟩, []⟩
  constructor
  case unwatched => exact (Watched.unwatched_nested ..).trans hsame
  case made =>
    rw [← hsame]
    rcases hmoments with heq | ⟨m, v, -, hdeed, heq⟩
    · exact heq ▸ hlisted
    · -- The answer is no new pair.
      show _ ⊆ b.made (Watched.after (Machine.nested call value a callers ⟨⟨s, log⟩, []⟩)).moments
      rw [heq, made_of_not_cons (by simp [hdeed])]
      exact hlisted
  case secluded =>
    intro m earlier hpoint hcallers
    rcases hmoments with heq | ⟨answer, v, hanswer, -, heq⟩
    · exact hencloses.past m earlier (heq ▸ hpoint)
    · rcases List.suffix_cons_iff.mp (heq ▸ hpoint) with hlast | hpoint
      · -- At the answer the call is over.
        cases hlast
        rw [hanswer] at hcallers
        exact absurd hcallers.length_le (Nat.not_succ_le_self _)
      · exact hencloses.past m earlier hpoint

end Guides

/-! ## The four builders -/

variable {s : Store}

theorem works_zip (hsealed : s.Sealed) {keys values list : Value} {s' : Store} {log : Log}
    {places bindings : List Nat} {pairs : List (Value × Value)}
    (hrun : (Action.zip keys values : Action Value) ⟨s, log⟩ = .ok list ⟨s', log⟩)
    (hlist : s.NewFrame s' list places bindings pairs) (callers : List Caller) :
    (⟨callers, s⟩ : Builder).Works callers log (Action.zip keys values) (.ok list ⟨s', log⟩)
      {place | place ∈ places ++ bindings} :=
  ((Guides.zip keys values).imp (fun _ _ h => h) fun _ _ h => h.region).works
    (Watches.relation.zip keys values) hsealed hrun fun place hmem =>
      ⟨hlist.fresh place hmem, hlist.lt_size hmem⟩

theorem works_listBefore (hsealed : s.Sealed) {elements : List Value} {tail list : Value}
    {s' : Store} {log : Log} {places : List Nat}
    (hrun : (Action.listBefore elements tail : Action Value) ⟨s, log⟩ = .ok list ⟨s', log⟩)
    (hlist : s.NewList s' list places elements tail) (callers : List Caller) :
    (⟨callers, s⟩ : Builder).Works callers log (Action.listBefore elements tail)
      (.ok list ⟨s', log⟩) {place | place ∈ places} := by
  refine (Guides.listBefore elements tail).works (Watches.relation.listBefore elements tail) hsealed
    hrun fun place hmem => ⟨hlist.fresh place hmem, ?_⟩
  obtain ⟨c, hcell⟩ := hlist.stretch.isPair hmem
  exact Store.lt_size_of_cell? hcell

theorem works_evaluateAll (hsealed : s.Sealed) {forms env : Value} (hforms : s.Knows forms)
    (henv : s.Knows env) (depth : Nat) (log : Log) (callers : List Caller) :
    (inCall callers (.evaluateAll forms env) s).Works callers log
      (ConsLisp.evaluateAll (depth + 1) forms env)
      ((ConsLisp.evaluateAll (depth + 1) forms env : Action Value) ⟨s, log⟩)
      (Action.listed id
        ((ConsLisp.evaluateAll (depth + 1) forms env : Action Value) ⟨s, log⟩)) := by
  let b := inCall callers (.evaluateAll forms env) s
  have hcollect (size : Nat) : b.Guides (b.Holds (Includes [forms, env]) .nil)
      (ConsLisp.collect (fun form => evaluate depth form env) (size + patience) .nil forms)
      fun v c => v.isError = true ∨ b.Holds (Includes [env]) v c := by
    refine Guides.collect (fun c n form hform hvs => ?_) (size + patience) .nil forms
    exact (Pause.Ensures.evaluation ⟨b, c⟩ depth).evaluate hform (hvs env (by simp))
  have hwatch (size : Nat) := Watches.relation.collect
    (fun form => (Watches.relation.evaluation_self depth).evaluate form env) (size + patience) .nil
    forms
  rw [ConsLisp.evaluateAll, ConsLisp.evaluateAll, Action.nested_eq]
  refine Guides.works_nested (Guides.bind Guides.look fun size =>
    (hcollect size).imp (fun _ _ h => h.1) fun _ _ h => h)
    (Watches.bind (.look _) hwatch) hsealed (by simp [Call.values, Call.envs, hforms, henv]) ?_
  exact List.forall_mem_cons.mpr ⟨hforms, List.forall_mem_singleton.mpr henv⟩

theorem works_readUntilClose (hsealed : s.Sealed) (depth : Nat) (text : List Char) (log : Log)
    (callers : List Caller) :
    (inCall callers (.readUntilClose text) s).Works callers log
      (Form.readUntilClose (depth + 1) text)
      ((Form.readUntilClose (depth + 1) text : Action (Value × List Char)) ⟨s, log⟩)
      (Action.listed Prod.fst
        ((Form.readUntilClose (depth + 1) text : Action (Value × List Char)) ⟨s, log⟩)) := by
  let b := inCall callers (.readUntilClose text) s
  have hreads : b.Guides (b.Holds (Includes []) .nil)
      (Form.readEach (fun text => Form.readForm depth text) text.length .nil text)
      fun x c => x.1.isError = true ∨ b.Holds (Includes []) x.1 c :=
    .readEach (fun c n text => (Pause.Ensures.reading ⟨b, c⟩ depth).form n text) ..
  have hwatch := Watches.relation.readEach (Watches.relation.reading_self depth).form text.length
    .nil text
  rw [Form.readUntilClose, Form.readUntilClose, Action.nested_eq]
  exact Guides.works_nested hreads hwatch hsealed (by simp [Call.values, Call.envs])
    (List.forall_mem_nil _)

/-- What each of the four builders makes, and that its pairs are secluded until it answers.

Two chains that end are paired up to a new list of new pairs, as long as both go on.  Given elements
are put before any value in new pairs.  At any point of a session the elements of any list that is
held may be evaluated in any environment that is held, and the values make up a new list, if none is
an error; so do the values of the elements that are read up to a closing parenthesis. -/
theorem builds :
    (∀ (s : Store) (log : Log) (keys values keysEnd valuesEnd : Value)
        (names arguments : List Value) (keyPlaces valuePlaces : List Nat),
      s.Sealed → s.Knows keys → s.Knows values → s.Links keys keyPlaces names keysEnd →
      s.Links values valuePlaces arguments valuesEnd →
      ∃ list s' places bindings,
        (Action.zip keys values : Action Value) ⟨s, log⟩ = .ok list ⟨s', log⟩ ∧
        s.NewFrame s' list places bindings (names.zip arguments) ∧
        ∀ callers, (⟨callers, s⟩ : Builder).Works callers log (Action.zip keys values)
          (.ok list ⟨s', log⟩) {place | place ∈ places ++ bindings}) ∧
    (∀ (s : Store) (log : Log) (elements : List Value) (tail : Value), s.Sealed →
      ∃ list s' places,
        (Action.listBefore elements tail : Action Value) ⟨s, log⟩ = .ok list ⟨s', log⟩ ∧
        s.NewList s' list places elements tail ∧
        ∀ callers, (⟨callers, s⟩ : Builder).Works callers log (Action.listBefore elements tail)
          (.ok list ⟨s', log⟩) {place | place ∈ places}) ∧
    (∀ (log : Log) (limit : Nat) (texts : List (List Char)) (m : Moment) (earlier : List Moment)
        (forms env : Value), m :: earlier <:+ (Chronicle.session log limit texts).2.moments →
      m.Holds (Interpreter.new log).globals earlier .value forms →
      m.Holds (Interpreter.new log).globals earlier .environment env →
      ∃ places elements tail, m.store.Links forms places elements tail ∧ ∀ depth noted,
        let result := (evaluateAll (depth + 1) forms env : Action Value) ⟨m.store, noted⟩
        Action.EvaluatesAll depth env elements ⟨m.store, noted⟩ result ∧
        ∀ callers, (inCall callers (.evaluateAll forms env) m.store).Works callers noted
          (evaluateAll (depth + 1) forms env) result (Action.listed id result)) ∧
    ∀ (s : Store) (log : Log) (depth : Nat) (text : List Char), s.Sealed →
      let result := (Form.readUntilClose (depth + 1) text : Action (Value × List Char)) ⟨s, log⟩
      Form.ReadsItems depth text ⟨s, log⟩ result ∧
      Store.KeepsExcept [] s (Action.stateAfter result).store ∧
      ∀ callers, (inCall callers (.readUntilClose text) s).Works callers log
        (Form.readUntilClose (depth + 1) text) result (Action.listed Prod.fst result) := by
  refine ⟨?_, ?_, ?_, ?_⟩
  · intro s log keys values keysEnd valuesEnd names arguments keyPlaces valuePlaces hsealed
      hknowsKeys hknowsValues hkeys hvalues
    have hkeysEnd := Store.Knows.cell?_eq_none (hsealed.tail hkeys hknowsKeys) hkeys.tail_eq_none
    have hvaluesEnd :=
      Store.Knows.cell?_eq_none (hsealed.tail hvalues hknowsValues) hvalues.tail_eq_none
    obtain ⟨list, s', places, bindings, hrun, hlist⟩ :=
      Action.zip_of_chains hkeys hkeysEnd hvalues hvaluesEnd log
    exact ⟨list, s', places, bindings, hrun, hlist, works_zip hsealed hrun hlist⟩
  · intro s log elements tail hsealed
    obtain ⟨list, s', places, hrun, hlist⟩ := Action.listBefore_of_elements elements tail s log
    exact ⟨list, s', places, hrun, hlist, works_listBefore hsealed hrun hlist⟩
  · intro log limit texts m earlier forms env hpoint hforms henv
    obtain ⟨L, -, hready, hshown⟩ := Chronicle.session_ready log limit texts hpoint
    have hmatter : L.Matter forms := hready.kept.held hshown hforms
    have henv : L.Env env := hready.kept.held hshown henv
    obtain ⟨places, elements, tail, hlinks, hall⟩ := hready.evaluatesAll hmatter henv
    refine ⟨places, elements, tail, hlinks, fun depth noted => ⟨hall depth noted, ?_⟩⟩
    exact works_evaluateAll hready.kept.sealed (hmatter.grasps hready.kept).knows
      (henv.grasps hready.kept).knows depth noted
  · intro s log depth text hsealed
    have hitems := Form.readUntilClose_cases depth text ⟨s, log⟩
    exact ⟨hitems, (Form.keeps_read (depth + 1)).2 text ⟨s, log⟩,
      works_readUntilClose hsealed depth text log⟩

/-- An improper chain of two elements, and a proper one of three. -/
def chains : Store :=
  ⟨#[⟨.sym "a", .pair 1⟩, ⟨.sym "b", .num 0⟩, ⟨.num 1, .pair 3⟩, ⟨.num 2, .pair 4⟩, ⟨.num 3, .nil⟩],
    0⟩

theorem chains_sealed : chains.Sealed := by
  intro place c _ hcell
  have hmem : c ∈ chains.cells := Array.mem_of_getElem? hcell
  simp only [chains, List.mem_toArray, List.mem_cons, List.not_mem_nil, or_false] at hmem
  rcases hmem with rfl | rfl | rfl | rfl | rfl <;> simp [Value.Within, Store.size, chains]

/-- The text behind an opening parenthesis, and what follows the list. -/
def items : List Char :=
  "a (b c) d) e".toList

theorem chains_items :
    ∃ list after, (Form.readUntilClose 8 items : Action (Value × List Char)) ⟨chains, {}⟩ =
        .ok (list, " e".toList) after ∧
      after.store.elements list = .ok [.sym "a", .pair 6, .sym "d"] := by
  have hanswer : (match (Form.readUntilClose 8 items : Action (Value × List Char)) ⟨chains, {}⟩ with
      | .ok (list, rest) after => some (rest, after.store.elements list)
      | .error .. => none) = some (" e".toList, .ok [.sym "a", .pair 6, .sym "d"]) := by
    decide +kernel
  cases hrun : (Form.readUntilClose 8 items : Action (Value × List Char)) ⟨chains, {}⟩ with
  | error abort after => simp [hrun] at hanswer
  | ok x after =>
    obtain ⟨list, rest⟩ := x
    rw [hrun] at hanswer
    obtain ⟨rfl, helements⟩ := Prod.mk.inj (Option.some.inj hanswer)
    exact ⟨list, after, rfl, helements⟩

theorem sampleStore_operands :
    ∃ list after, (evaluateAll 8 (.pair 37) (.pair 46) : Action Value)
        ⟨Chronicle.sampleStore, {}⟩ = .ok list after ∧
      after.store.elements list = .ok [.num 2, .num 2] := by
  have hanswer : (match (evaluateAll 8 (.pair 37) (.pair 46) : Action Value)
        ⟨Chronicle.sampleStore, {}⟩ with
      | .ok list after => some (after.store.elements list)
      | .error .. => none) = some (.ok [.num 2, .num 2]) := by decide +kernel
  cases hrun : (evaluateAll 8 (.pair 37) (.pair 46) : Action Value) ⟨Chronicle.sampleStore, {}⟩ with
  | error abort after => simp [hrun] at hanswer
  | ok list after =>
    rw [hrun] at hanswer
    exact ⟨list, after, rfl, Option.some.inj hanswer⟩

/-- Both chains are paired up as far as the shorter one goes, and it stands behind other elements.
The operands in the body of a closure are evaluated, and a list with a list in it is read. -/
theorem builds_chains :
    (∃ list s' places bindings,
      (Action.zip (.pair 0) (.pair 2) : Action Value) ⟨chains, {}⟩ = .ok list ⟨s', {}⟩ ∧
      chains.NewFrame s' list places bindings [(.sym "a", .num 1), (.sym "b", .num 2)] ∧
      (⟨[], chains⟩ : Builder).Works [] {} (Action.zip (.pair 0) (.pair 2))
        (.ok list ⟨s', {}⟩) {place | place ∈ places ++ bindings}) ∧
    (∃ list s' places,
      (Action.listBefore [.num 4, .pair 2] (.pair 0) : Action Value) ⟨chains, {}⟩ =
        .ok list ⟨s', {}⟩ ∧
      chains.NewList s' list places [.num 4, .pair 2] (.pair 0) ∧
      (⟨[], chains⟩ : Builder).Works [] {} (Action.listBefore [.num 4, .pair 2] (.pair 0))
        (.ok list ⟨s', {}⟩) {place | place ∈ places}) ∧
    (∃ list after, after.store.elements list = .ok [.num 2, .num 2] ∧
      Action.EvaluatesAll 7 (.pair 46) [.sym "x", .sym "x"] ⟨Chronicle.sampleStore, {}⟩
        (.ok list after) ∧
      (inCall [] (.evaluateAll (.pair 37) (.pair 46)) Chronicle.sampleStore).Works [] {}
        (evaluateAll 8 (.pair 37) (.pair 46)) (.ok list after)
        (Action.listed id (.ok list after))) ∧
    ∃ list after, after.store.elements list = .ok [.sym "a", .pair 6, .sym "d"] ∧
      Form.ReadsItems 7 items ⟨chains, {}⟩ (.ok (list, " e".toList) after) ∧
      Store.KeepsExcept [] chains after.store ∧
      (inCall [] (.readUntilClose items) chains).Works [] {} (Form.readUntilClose 8 items)
        (.ok (list, " e".toList) after)
        (Action.listed Prod.fst (.ok (list, " e".toList) after)) := by
  have hkeys : chains.Links (.pair 0) [0, 1] [.sym "a", .sym "b"] (.num 0) :=
    .next rfl (.next rfl (.done rfl))
  have hvalues : chains.Links (.pair 2) [2, 3, 4] [.num 1, .num 2, .num 3] .nil :=
    .next rfl (.next rfl (.next rfl (.done rfl)))
  have hknows (place : Nat) (hlt : place < 5) : chains.Knows (.pair place) := hlt
  refine ⟨?_, ?_, ?_, ?_⟩
  · obtain ⟨list, s', places, bindings, hrun, hlist, hworks⟩ := builds.1 chains {} _ _ _ _ _ _ _ _
      chains_sealed (hknows 0 (by decide)) (hknows 2 (by decide)) hkeys hvalues
    exact ⟨list, s', places, bindings, hrun, hlist, hworks []⟩
  · obtain ⟨list, s', places, hrun, hlist, hworks⟩ :=
      builds.2.1 chains {} [.num 4, .pair 2] (.pair 0) chains_sealed
    exact ⟨list, s', places, hrun, hlist, hworks []⟩
  · obtain ⟨m, earlier, hpoint, hstore, -, happly⟩ := Chronicle.sample_poses
    obtain ⟨hform, hfirst, hsecond⟩ :
        Chronicle.sampleStore.cell? (.pair 36) = some ⟨.sym "cons", .pair 37⟩ ∧
        Chronicle.sampleStore.cell? (.pair 37) = some ⟨.sym "x", .pair 38⟩ ∧
        Chronicle.sampleStore.cell? (.pair 38) = some ⟨.sym "x", .nil⟩ := by decide +kernel
    have hforms : m.Holds (Interpreter.new {}).globals earlier .value (.pair 37) := by
      rw [← hstore] at hform
      exact .cdr hform happly.held
    obtain ⟨places, elements, tail, hlinks, hall⟩ := builds.2.2.1 {} 100 [Chronicle.sample] m
      earlier (.pair 37) (.pair 46) hpoint hforms happly.environment
    rw [hstore] at hlinks hall
    obtain ⟨-, rfl, -⟩ := hlinks.functional (.next hfirst (.next hsecond (.done rfl)))
    obtain ⟨hevaluates, hworks⟩ := hall 7 {}
    obtain ⟨list, after, hrun, helements⟩ := sampleStore_operands
    rw [hrun] at hevaluates hworks
    exact ⟨list, after, helements, hevaluates, hworks []⟩
  · obtain ⟨hreads, hkeeps, hworks⟩ := builds.2.2.2 chains {} 7 items chains_sealed
    obtain ⟨list, after, hrun, helements⟩ := chains_items
    rw [hrun] at hreads hkeeps hworks
    exact ⟨list, after, helements, hreads, hkeeps, hworks []⟩

end Builder

end ConsLisp
