import ConsLisp.Proofs.Rebindings

/-!
# Raising the nesting limit

A run with more nested calls left does the same as one with fewer, moment by moment, until the one
with fewer has none left where it needs one.  Nothing catches that abort on its way out, so a run
that ends in any other way is the same run under every higher limit; and one that is cut off is the
beginning of the longer one.

Main statement: results, bindings and the changes of bindings of a line under two limits
(`Interpreter.evalPrint_of_le`).
-/

namespace ConsLisp

/-! ## Printing -/

/-- The second result is the first, unless that says that no nested call was left. -/
def Deepens {α : Type} (e e' : Except Abort α) : Prop :=
  e' = e ∨ e = .error .tooDeep

namespace Deepens

variable {α β : Type}

theorem refl (e : Except Abort α) : Deepens e e :=
  .inl rfl

theorem bind {e e' : Except Abort α} {f f' : α → Except Abort β} (h : Deepens e e')
    (hf : ∀ x, Deepens (f x) (f' x)) : Deepens (e >>= f) (e' >>= f') := by
  rcases h with rfl | rfl
  · cases e' with
    | ok x => exact hf x
    | error abort => exact .refl _
  · exact .inr rfl

theorem foldWithin {s : Store} {step step' : α → Value → Except Abort α}
    (h : ∀ a v, Deepens (step a v) (step' a v)) (fuel : Nat) (a : α) (v : Value) :
    Deepens (s.foldWithin step fuel a v) (s.foldWithin step' fuel a v) := by
  induction fuel generalizing a v with
  | zero =>
    unfold Store.foldWithin
    exact .refl _
  | succ fuel ih =>
    unfold Store.foldWithin
    cases s.cell? v with
    | none => exact .refl _
    | some c =>
      rcases h a c.car with heq | heq
      · simp only [heq]
        cases step a c.car with
        | ok a => exact ih a c.cdr
        | error abort => exact .refl _
      · exact .inr (by simp only [heq])

/-- More nested calls change no printed form. -/
theorem print (s : Store) (depth more : Nat) :
    (∀ v, Deepens (s.print depth v) (s.print (depth + more) v)) ∧
      ∀ v, Deepens (s.printList depth v) (s.printList (depth + more) v) := by
  induction depth with
  | zero => exact ⟨fun _ => .inr rfl, fun _ => .inr rfl⟩
  | succ depth ih =>
    rw [Nat.succ_add]
    refine ⟨fun v => ?_, fun v => ?_⟩
    · unfold Store.print
      cases v with
      | pair place => exact ih.2 _
      | _ => exact .refl _
    · unfold Store.printList
      apply bind (foldWithin (fun texts element => bind (ih.1 element) fun _ => .refl _) ..)
      rintro ⟨texts, tail⟩
      dsimp only
      split
      · exact .refl _
      · exact bind (ih.1 tail) fun _ => .refl _

end Deepens

/-! ## Watched programs -/

namespace Watched

/-- The second program does what the first does, and more where the first has no nested call left.
It keeps what has been written down. -/
structure Continues {α : Type} (a b : Watched α) : Prop where
  grows (callers : List Caller) (c : Chronicle) : c.moments <:+ (after (b callers c)).moments
  run (callers : List Caller) (c : Chronicle) :
    b callers c = a callers c ∨
      ∃ c', a callers c = .error .tooDeep c' ∧ c'.moments <:+ (after (b callers c)).moments

namespace Continues

variable {α β : Type}

/-- A step that both take, and that writes down no more than itself. -/
theorem step {a : Watched α}
    (h : ∀ callers c, c.moments <:+ (after (a callers c)).moments) : Continues a a :=
  ⟨h, fun _ _ => .inl rfl⟩

/-- Without a nested call left, nothing more is written down. -/
theorem throw_tooDeep {b : Watched α}
    (h : ∀ callers c, c.moments <:+ (after (b callers c)).moments) :
    Continues (throw .tooDeep) b :=
  ⟨h, fun callers c => .inr ⟨c, rfl, h callers c⟩⟩

theorem bind {a b : Watched α} {f g : α → Watched β} (h : Continues a b)
    (hf : ∀ x, Continues (f x) (g x)) : Continues (a >>= f) (b >>= g) := by
  have hlast : ∀ callers c, (after (b callers c)).moments <:+
      (after ((b >>= g) callers c)).moments := by
    intro callers c
    simp only [Bind.bind, ReaderT.bind, EStateM.bind]
    cases b callers c with
    | ok x c' => exact (hf x).grows callers c'
    | error abort c' => exact List.suffix_rfl
  refine ⟨fun callers c => (h.grows callers c).trans (hlast callers c), fun callers c => ?_⟩
  rcases h.run callers c with heq | ⟨c', hrun, hsuffix⟩
  · simp only [Bind.bind, ReaderT.bind, EStateM.bind, heq]
    cases a callers c with
    | ok x c' => exact (hf x).run callers c'
    | error abort c' => exact .inl rfl
  · refine .inr ⟨c', ?_, hsuffix.trans (hlast callers c)⟩
    simp only [Bind.bind, ReaderT.bind, EStateM.bind, hrun]

theorem nested (call : Call) (value : α → Value) {a b : Watched α} (h : Continues a b) :
    Continues (Machine.nested call value a) (Machine.nested call value b) := by
  have hlast : ∀ callers c,
      (after (b (⟨call, c.state.store⟩ :: callers) (c.record callers (.call call)))).moments <:+
        (after ((Machine.nested call value b : Watched α) callers c)).moments := by
    intro callers c
    simp only [Machine.nested]
    cases b (⟨call, c.state.store⟩ :: callers) (c.record callers (.call call)) with
    | ok x c' => exact List.suffix_cons ..
    | error abort c' => exact List.suffix_rfl
  refine ⟨fun callers c => ?_, fun callers c => ?_⟩
  · exact (List.suffix_cons ..).trans ((h.grows _ _).trans (hlast callers c))
  · rcases h.run (⟨call, c.state.store⟩ :: callers) (c.record callers (.call call)) with
      heq | ⟨c', hrun, hsuffix⟩
    · exact .inl (by simp only [Machine.nested, heq])
    · refine .inr ⟨c', ?_, hsuffix.trans (hlast callers c)⟩
      simp only [Machine.nested, hrun]

/-- The steps of which programs are made keep what the first program does. -/
def relation : Machine.Relation Watched Watched where
  Rel := Continues
  pure _ := step fun _ _ => List.suffix_rfl
  throw _ := step fun _ _ => List.suffix_rfl
  bind := bind
  look _ := step fun _ _ => List.suffix_rfl
  change _ := step fun _ _ => List.suffix_cons ..
  note _ := step fun _ _ => List.suffix_rfl
  keeps _ := step fun _ _ => List.suffix_rfl
  nested := nested

theorem print (depth more : Nat) (v : Value) :
    Continues (Action.print depth v) (Action.print (depth + more) v) := by
  refine ⟨(relation.ask _).grows, fun callers c => ?_⟩
  have hgrows := (relation.ask (·.print (depth + more) v)).grows callers c
  rcases (Deepens.print c.state.store depth more).1 v with heq | hdeep
  · left
    simp only [Action.print, Action.ask, Bind.bind, ReaderT.bind, EStateM.bind, Machine.look, heq]
  · refine .inr ⟨c, ?_, hgrows⟩
    simp only [Action.print, Action.ask, Bind.bind, ReaderT.bind, EStateM.bind, Machine.look, hdeep]
    rfl

theorem evalLine (limit more : Nat) (env : Value) (line : List Char) :
    Continues (Action.evalLine limit env line) (Action.evalLine (limit + more) env line) := by
  -- Where the first run has no nested call left, the second keeps what has been written down.
  have hreading := relation.reading_self more
  have hevaluation := relation.evaluation_self more
  refine relation.evalLine (relation.reading ⟨?_, ?_⟩ limit) (relation.evaluation
    ⟨?_, ?_, ?_, ?_, ?_, ?_, ?_⟩ (fun depth v => print depth more v) limit) env line
  · exact fun text => throw_tooDeep (hreading.form text).grows
  · exact fun text => throw_tooDeep (hreading.rest text).grows
  · exact fun form env => throw_tooDeep (hevaluation.evaluate form env).grows
  · exact fun forms env => throw_tooDeep (hevaluation.evaluateAll forms env).grows
  · exact fun special args env => throw_tooDeep (hevaluation.special special args env).grows
  · exact fun fn args => throw_tooDeep (hevaluation.apply fn args).grows
  · exact fun params body env args =>
      throw_tooDeep (hevaluation.enter params body env args).grows
  · exact fun forms env => throw_tooDeep (hevaluation.body forms env).grows
  · exact fun v => Nat.zero_add more ▸ print 0 more v

end Continues

end Watched

/-! ## Lines -/

namespace Chronicle

/-- The end of a line changes no binding. -/
theorem rebindings_line (limit : Nat) (globals : Value) (text : List Char) (c : Chronicle) :
    Moment.rebindings (line limit globals text c).2.moments =
      Moment.rebindings (Watched.after ((Action.evalLine limit globals text : Watched Value) []
        (c.record [] (.line text)))).moments := by
  unfold line
  cases (Action.evalLine limit globals text : Watched Value) [] (c.record [] (.line text)) with
  | ok v c' => exact Moment.rebindings_cons (Moment.rebinding?_eq_none nofun nofun)
  | error abort c' => exact Moment.rebindings_cons (Moment.rebinding?_eq_none nofun nofun)

/-- With more nested calls left a line is the same, or it was cut off and now goes on. -/
theorem line_add (limit more : Nat) (globals : Value) (text : List Char) (c : Chronicle) :
    line (limit + more) globals text c = line limit globals text c ∨
      (line limit globals text c).1 = .error .tooDeep ∧
        Moment.rebindings (line limit globals text c).2.moments <+:
          Moment.rebindings (line (limit + more) globals text c).2.moments := by
  have hcontinues := Watched.Continues.evalLine limit more globals text
  rcases hcontinues.run [] (c.record [] (.line text)) with heq | ⟨c', hrun, hsuffix⟩
  · left
    unfold line
    rw [heq]
  · right
    refine ⟨by simp only [line, hrun], ?_⟩
    rw [rebindings_line, rebindings_line, hrun]
    exact (List.reverse_prefix.mpr hsuffix).filterMap _

end Chronicle

namespace Interpreter

/-- A line that does not run out of nested calls has the same result under every higher limit,
leaves the same state, and makes the same changes of bindings.  One that does has begun to make the
changes that it makes under a higher limit. -/
theorem evalPrint_of_le (i : Interpreter) (text : List Char) {limit limit' : Nat}
    (h : limit ≤ limit') :
    ((i.evalPrint limit text).1 ≠ .error .tooDeep →
        i.evalPrint limit' text = i.evalPrint limit text ∧
          i.rebindings limit' text = i.rebindings limit text) ∧
      i.rebindings limit text <+: i.rebindings limit' text := by
  obtain ⟨more, rfl⟩ := Nat.exists_eq_add_of_le h
  obtain ⟨hstate, hresult⟩ := Chronicle.line_eq_evalPrint limit text i []
  obtain ⟨hstate', hresult'⟩ := Chronicle.line_eq_evalPrint (limit + more) text i []
  rcases Chronicle.line_add limit more i.globals text ⟨i.state, []⟩ with heq | ⟨hdeep, hprefix⟩
  · have hrebindings : i.rebindings (limit + more) text = i.rebindings limit text := by
      unfold rebindings
      rw [heq]
    rw [heq] at hstate' hresult'
    refine ⟨fun hends => ⟨Prod.ext ?_ ?_, hrebindings⟩, hrebindings ▸ List.prefix_rfl⟩
    · -- The value is the same, and so is its printed form, unless printing has been cut off.
      rw [← hresult] at hends ⊢
      rw [← hresult']
      generalize Chronicle.line limit i.globals text ⟨i.state, []⟩ = watched at hends ⊢
      have hprint := (Deepens.refl watched.1).bind
        (Deepens.print watched.2.state.store limit more).1
      exact hprint.resolve_right hends
    · rw [evalPrint_snd, evalPrint_snd limit, ← hstate, ← hstate']
  · refine ⟨fun hends => absurd ?_ hends, hprefix⟩
    rw [← hresult, hdeep]
    rfl

/-- An assignment is the same under both limits; a recursion without end is cut off later under the
higher one. -/
theorem evalPrint_of_le_recursion :
    let i := (new {}).after [(40, "(defun f (x) (setq a x) (f x))".toList)]
    let ending := "(setq a 2)".toList
    let endless := "(f 1)".toList
    ((i.evalPrint 20 ending).1 = .ok "2" ∧ i.evalPrint 40 ending = i.evalPrint 20 ending) ∧
      (i.evalPrint 20 endless).1 = .error .tooDeep ∧
      i.rebindings 20 endless <+: i.rebindings 40 endless ∧
      (i.rebindings 20 endless).length = 4 ∧ (i.rebindings 40 endless).length = 9 := by
  intro i ending endless
  have hle : 20 ≤ 40 := by decide
  have hends : (i.evalPrint 20 ending).1 = .ok "2" := by decide +kernel
  have hsame := (evalPrint_of_le i ending hle).1 (by simp [hends])
  exact ⟨⟨hends, hsame.1⟩, by decide +kernel, (evalPrint_of_le i endless hle).2,
    by decide +kernel, by decide +kernel⟩

end Interpreter

end ConsLisp
