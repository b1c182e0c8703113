import ConsLisp.Proofs.Programs
import ConsLisp.Proofs.Reading

/-!
# What an answer of the reader says of the text

The reader answers with few nested calls as it does with many, if it answers at all.  So one
answer decides whether an expression stands in front of the text.  Where none does, the answer is
an error or a quoted one, and an error stands inside of what is quoted only if the text begins with
two quotes.

Main statements: more nested calls change no answer (`Form.yields_of_le`), and what the answer is
where an expression stands and where none does (`Grammar.verdict`, `Grammar.Explains.cases`).
-/

namespace ConsLisp

/-- The second action gives every answer of the first. -/
def Action.Yields {α : Type} (a b : Action α) : Prop :=
  ∀ state x state', a state = .ok x state' → b state = .ok x state'

namespace Action.Yields

variable {α β : Type}

theorem refl (a : Action α) : Yields a a :=
  fun _ _ _ h => h

theorem throw (abort : Abort) (b : Action α) : Yields (MonadExcept.throw abort) b :=
  nofun

theorem bind {a b : Action α} {f g : α → Action β} (h : Yields a b)
    (hf : ∀ x, Yields (f x) (g x)) : Yields (a >>= f) (b >>= g) := by
  intro state y state' hrun
  simp only [Bind.bind, EStateM.bind] at hrun ⊢
  cases ha : a state with
  | ok x state₁ =>
    rw [ha] at hrun
    rw [h state x state₁ ha]
    exact hf x state₁ y state' hrun
  | error abort state₁ => simp [ha] at hrun

/-- The steps of which programs are made keep every answer. -/
def relation : Machine.Relation Action Action where
  Rel := Yields
  pure x := refl (Pure.pure x)
  throw abort := throw abort _
  bind := bind
  look f := refl (Machine.look f)
  change d := refl (Machine.change d)
  note event := refl (Machine.note event)
  keeps level := refl (Machine.keeps level)
  nested _ _ _ _ h := h

end Action.Yields

/-- More nested calls change no answer. -/
theorem Form.yields_of_le {depth depth' : Nat} (h : depth ≤ depth') (text : List Char) :
    Action.Yields (read depth text) (read depth' text) := by
  obtain ⟨more, rfl⟩ := Nat.exists_eq_add_of_le h
  have hzero : Action.Yields.relation.Reading 0 more :=
    ⟨fun _ => .throw _ _, fun _ => .throw _ _⟩
  exact (Action.Yields.relation.reading hzero depth).form text

namespace Grammar

variable {text : List Char} {state state' : State} {v : Value} {rest : List Char}

/-- An answer is what the text is read as, given nested calls enough. -/
theorem eq_of_reads {depth : Nat} (hrun : Form.read depth text state = .ok (v, rest) state')
    {v' : Value} {rest' : List Char} {state'' : State} (h : Reads text state v' rest' state'') :
    v = v' ∧ rest = rest' ∧ state' = state'' := by
  -- Nested calls that are enough for both.
  have hmore := Form.yields_of_le (Nat.le_add_right depth (2 * text.length + 1)) text _ _ _ hrun
  rw [h _ (by omega)] at hmore
  simp only [EStateM.Result.ok.injEq, Prod.mk.injEq] at hmore
  obtain ⟨⟨rfl, rfl⟩, rfl⟩ := hmore
  exact ⟨rfl, rfl, rfl⟩

/-- An answer is what an expression denotes, or says why there is none. -/
theorem verdict {depth : Nat} (hrun : Form.read depth text state = .ok (v, rest) state') :
    (∃ e, Denotes state'.store (state.store.size ≤ ·) (.one e) v) ∨
      ¬Accepts text ∧ Explains text state v state' := by
  by_cases h : Accepts text
  · obtain ⟨w, e, front, next, hw, rfl, hderives⟩ := h
    obtain ⟨v', state'', hreads, hdenotes, -⟩ := hderives.reads hw state
    obtain ⟨rfl, -, rfl⟩ := eq_of_reads hrun hreads
    exact .inl ⟨e, hdenotes⟩
  · obtain ⟨v', state'', hreads, hexplains⟩ := refused_of_not_accepts h state
    obtain ⟨rfl, -, rfl⟩ := eq_of_reads hrun hreads
    exact .inr ⟨h, hexplains⟩

/-- The text begins with this many quotes, and the rest stands behind them. -/
inductive Quotes : Nat → List Char → List Char → Prop
  | zero (text : List Char) : Quotes 0 text text
  | succ {n : Nat} {text after rest : List Char} (hskip : Text.skipBlanks text = '\'' :: after)
      (h : Quotes n after rest) : Quotes (n + 1) text rest

theorem Quotes.accepts {n : Nat} {text rest : List Char} (h : Quotes n text rest)
    (hrest : Accepts rest) : Accepts text := by
  induction h with
  | zero => exact hrest
  | succ hskip _ ih => exact accepts_quote hskip (ih hrest)

/-- What says why there is no expression is an error itself, or quoted.  What is quoted is an
error itself, or the text begins with two quotes. -/
theorem Explains.cases (h : Explains text state v state') (hnot : ¬Accepts text) :
    v.isError = true ∨ ∃ x inner, state'.store.cell? v = some ⟨.sym "quote", inner⟩ ∧
      state'.store.cell? inner = some ⟨x, .nil⟩ ∧
      (x.isError = true ∨ ∃ rest, Quotes 2 text rest ∧ ¬Accepts rest) := by
  have hfailure {w : Value} {message : String} (hw : IsFailure w message) : w.isError = true := by
    obtain ⟨serial, fault, rfl, -⟩ := hw
    rfl
  unfold Explains at h
  split at h
  · exact .inl (hfailure h)
  · exact .inl (hfailure h)
  · exact .inl (hfailure h)
  · next after hskip =>
    obtain ⟨x, inner, state₁, hreads, hcell, hinner⟩ := h
    refine .inr ⟨x, inner, hcell, hinner, ?_⟩
    have hafter : ¬Accepts after := fun haccepts => hnot (accepts_quote hskip haccepts)
    -- What stands behind the quote has no expression either, and its answer says why.
    obtain ⟨x', state₂, hreads', hexplains⟩ := refused_of_not_accepts hafter state
    obtain ⟨rfl, -, -⟩ := eq_of_reads (hreads _ (Nat.lt_succ_self _)) hreads'
    unfold Explains at hexplains
    split at hexplains
    · exact .inl (hfailure hexplains)
    · exact .inl (hfailure hexplains)
    · exact .inl (hfailure hexplains)
    · next rest hskip' =>
      have hquotes : Quotes 2 text rest := .succ hskip (.succ hskip' (.zero _))
      exact .inr ⟨rest, hquotes, fun hrest => hnot (hquotes.accepts hrest)⟩
    · exact hexplains.elim
  · exact h.elim

end Grammar

end ConsLisp
