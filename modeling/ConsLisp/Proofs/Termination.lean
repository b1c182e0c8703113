import ConsLisp.Proofs.Chronicle.Held
import ConsLisp.Proofs.Layout.Founded

/-!
# Lines end

What could go on for ever is a loop along a chain, or calls inside each other.  No pair of a store
that is reached is shown by itself at any distance, so every chain ends; and the calls in progress
stay within the limit.  So a line ends with a text or with one of three aborts, and never because a
chain has no end.

Main statement: all of this for any line after any lines (`Interpreter.line_ends`).
-/

namespace ConsLisp

/-- No pair is shown by itself at any distance, and every chain ends, after no more pairs than
there are cells. -/
structure Store.Loopless (s : Store) : Prop where
  acyclic : s.Acyclic
  links (v : Value) : ∃ places elements tail,
    s.Links v places elements tail ∧ places.length ≤ s.size

theorem Store.Founded.loopless {s : Store} (h : s.Founded) : s.Loopless := by
  refine ⟨h.acyclic, fun v => ?_⟩
  obtain ⟨places, elements, tail, hlinks⟩ := h.links v
  exact ⟨places, elements, tail, hlinks, hlinks.length_le_size⟩

/-- A sound chronicle has met only stores without loops, and its calls have stayed within the
limit. -/
theorem Accounted.loopless {o : Opening} {moments : List Moment} (h : Accounted o moments)
    {m : Moment} (hmem : m ∈ moments) :
    m.store.Loopless ∧ m.callersAfter.length ≤ o.limit := by
  obtain ⟨before, earlier, rfl⟩ := List.append_of_mem hmem
  obtain ⟨-, ⟨L, hvouches, -⟩, hjustified, -⟩ := h.of_suffix (List.suffix_append before _)
  exact ⟨hvouches.kept.founded.loopless, hjustified.within⟩

namespace Layout.Suits

variable {L : Layout} {i : Interpreter}

/-- A line leaves an interpreter with a store of the same sort. -/
theorem evalPrint (h : L.Suits i) (limit : Nat) (text : List Char) :
    ∃ L' : Layout, L'.Suits (i.evalPrint limit text).2 := by
  obtain ⟨L', hle, hsound, -⟩ := (h.sound limit).line h.full h.env text
  obtain ⟨-, hstate⟩ := Chronicle.line_eq_eval limit text i []
  rw [(Interpreter.evalPrint_eq limit text i).1]
  refine ⟨L', hle.1 ▸ h.full, ?_, hstate ▸ hsound.kept, hsound.oversees.lists⟩
  rw [Chronicle.globals_eval, h.globals, hle.2.1]

/-- A line ends with a text or with an abort that programs can bring about. -/
theorem ordinary (h : L.Suits i) {limit : Nat} {text : List Char} {abort : Abort}
    (hend : (i.evalPrint limit text).1 = .error abort) : abort.Ordinary :=
  ((h.sound limit).aborts h.full h.env text
    ((Chronicle.line_eq_evalPrint limit text i []).2.trans hend)).ordinary

end Layout.Suits

namespace Interpreter

/-- The interpreter after lines, each with a nesting limit of its own. -/
def after (i : Interpreter) : List (Nat × List Char) → Interpreter
  | [] => i
  | (limit, text) :: lines => (i.evalPrint limit text).2.after lines

theorem exists_suits_after {L : Layout} {i : Interpreter} (h : L.Suits i)
    (lines : List (Nat × List Char)) : ∃ L' : Layout, L'.Suits (i.after lines) := by
  induction lines generalizing L i with
  | nil => exact ⟨L, h⟩
  | cons line lines ih =>
    obtain ⟨L', hsuits⟩ := h.evalPrint line.1 line.2
    exact ih hsuits

/-- After any lines the store has no loops.  Whatever the next line and its limit are, none of the
stores on its way has one, and the calls in progress stay within the limit.  So the line ends, with
a text or with an abort that programs can bring about, which is never that a chain has no end; and
then there is no loop either. -/
theorem line_ends (log : Log) (lines : List (Nat × List Char)) (limit : Nat) (text : List Char) :
    let i := (new log).after lines
    let watched := Chronicle.line limit i.globals text ⟨i.state, []⟩
    let printed := i.evalPrint limit text
    i.state.store.Loopless ∧
      (watched.2.state = printed.2.state ∧
        watched.1.bind (watched.2.state.store.print limit) = printed.1) ∧
      (∀ m ∈ watched.2.moments, m.store.Loopless ∧ m.callersAfter.length ≤ limit) ∧
      ((∃ answer, printed.1 = .ok answer) ∨ ∃ abort, printed.1 = .error abort ∧ abort.Ordinary) ∧
      printed.2.state.store.Loopless := by
  intro i watched printed
  obtain ⟨L, hnew, -⟩ := Layout.suits_new log
  obtain ⟨M, hsuits⟩ := exists_suits_after hnew lines
  obtain ⟨M', hsuits'⟩ := hsuits.evalPrint limit text
  obtain ⟨M'', -, hsound, -⟩ := (hsuits.sound limit).line hsuits.full hsuits.env text
  have hprinted := Chronicle.line_eq_evalPrint limit text i []
  refine ⟨hsuits.kept.founded.loopless, hprinted, fun m hmem => hsound.accounted.loopless hmem,
    ?_, hsuits'.kept.founded.loopless⟩
  cases hend : printed.1 with
  | ok answer => exact .inl ⟨answer, rfl⟩
  | error abort =>
    have habort := hprinted.2.trans hend
    exact .inr ⟨abort, rfl,
      ((hsuits.sound limit).aborts hsuits.full hsuits.env text habort).ordinary⟩

end Interpreter

end ConsLisp
