import ConsLisp.Dialogue
import ConsLisp.Proofs.Reference.Session
import ConsLisp.Proofs.Termination

/-!
# What a dialogue survives

A dialogue puts events of its own into the log, which no result depends on.  So its lines have the
results that they have in a session: its interpreter and that of the session agree with the same one
on values, by two bridges.

A division by zero and too many nested calls are answered like any error.  A number that is too long
to be written is the one abort that gets through: the dialogue ends at that line, without an answer,
and no later line is evaluated.

Main statement: the output of a dialogue and the abort that ends it, if one does (`run_eq`).
-/

namespace ConsLisp

open Bridge

/-- No line of a session aborts for a reason that programs cannot bring about. -/
theorem Layout.Suits.ordinary_of_mem {L : Layout} {i : Interpreter} (h : L.Suits i) {limit : Nat}
    {lines : List (List Char)} {abort : Abort}
    (hmem : .error abort ∈ (i.evalPrintAll limit lines).1) : abort.Ordinary := by
  induction lines generalizing L i with
  | nil => simp [Interpreter.evalPrintAll] at hmem
  | cons line lines ih =>
    rcases List.mem_cons.mp hmem with heq | hmem
    · exact h.ordinary heq.symm
    · obtain ⟨L', h'⟩ := h.evalPrint limit line
      exact ih h' hmem

namespace Dialogue

variable {B : Bridge} {i : Interpreter} {r : Reference.State} {limit : Nat}

/-- An event in the log changes no agreement, where the log may differ. -/
theorem joins_note (h : B.Joins i r) (hshared : ¬B.alone) (event : Event) :
    B.Joins (i.note event) r := by
  obtain ⟨⟨store, log⟩, globals, initial⟩ := i
  exact ⟨h.globals, h.agrees.beside hshared (.refl [] (blank B.toTerms) store)
    (fun _ => .inr rfl) (Log.threshold_note log event)⟩

theorem length_evalPrintAll (limit : Nat) (lines : List (List Char)) (i : Interpreter) :
    (i.evalPrintAll limit lines).1.length = lines.length := by
  induction lines generalizing i with
  | nil => rfl
  | cons line lines ih => exact congrArg Nat.succ (ih _)

/-- What a dialogue writes for a result: its text, or the message of the abort as that of an error.
-/
def reply : Except Abort String → String
  | .ok text => text
  | .error abort => "<error: " ++ abort.message ++ ">"

/-- The replies to these results, each in a line of its own and with the prompt after it. -/
def replies (prompt : String) (results : List (Except Abort String)) : String :=
  String.join (results.map fun result => reply result ++ "\n" ++ prompt)

theorem replies_cons (prompt : String) (result : Except Abort String)
    (results : List (Except Abort String)) :
    replies prompt (result :: results) =
      reply result ++ "\n" ++ prompt ++ replies prompt results := by
  simp [replies]

/-- A dialogue replies to every result of a line, unless a number is too long. -/
theorem answer_eq (hshared : ¬B.alone) {line : List Char} {i' : Interpreter}
    {result : Except Abort String} (heval : i.evalPrint limit line = (result, i'))
    (hjoins : B.Joins i' r) (hordinary : ∀ abort, result = .error abort → abort.Ordinary)
    (hshort : result ≠ .error .numberTooLong) :
    ∃ i'', answer limit line i = (.ok (reply result), i'') ∧ B.Joins i'' r := by
  unfold answer
  rw [heval]
  cases result with
  | ok text => exact ⟨i', rfl, hjoins⟩
  | error abort =>
    obtain rfl | rfl | rfl := (hordinary abort rfl).cases
    · exact ⟨_, rfl, joins_note hjoins hshared _⟩
    · exact absurd rfl hshort
    · exact ⟨_, rfl, joins_note hjoins hshared _⟩

/-- A dialogue replies to the results of its lines in order, up to the first number that is too
long. -/
theorem answerAll_eq (h : B.Joins i r) (hnone : B.hidden = ∅) (hshared : ¬B.alone)
    (prompt written : String) (lines : List (List Char))
    (hordinary : ∀ abort,
      .error abort ∈ (Reference.evalPrintAll limit (lines.map Text.chomp) r).1 → abort.Ordinary) :
    let results := (Reference.evalPrintAll limit (lines.map Text.chomp) r).1
    let (escaped, output, _) := answerAll limit prompt written lines i
    output = written ++ replies prompt (results.takeWhile (· ≠ .error .numberTooLong)) ∧
      escaped = if .error .numberTooLong ∈ results then some .numberTooLong else none := by
  induction lines generalizing i r B written with
  | nil => simp [answerAll, Reference.evalPrintAll, replies]
  | cons line lines ih =>
    have hline : Reference.Avoids B.hidden (Text.chomp line) := hnone ▸ Reference.avoids_empty _
    obtain ⟨hresult, B', hevolves, hjoins⟩ := h.evalPrint limit hline
    have hnone' : B'.hidden = ∅ := (hidden_eq hevolves.le).symm.trans hnone
    have hshared' : ¬B'.alone := hevolves.le.1 ▸ hshared
    simp only [List.map_cons, Reference.evalPrintAll] at hordinary ⊢
    cases hperform : Reference.perform (Reference.evalPrint limit (Text.chomp line)) r with
    | mk result' r' =>
    cases heval : i.evalPrint limit (Text.chomp line) with
    | mk result i' =>
      simp only [hperform, heval, List.mem_cons] at hresult hjoins hordinary ⊢
      subst hresult
      by_cases hlong : result = .error .numberTooLong
      · subst hlong
        simp [answerAll, answer, heval, Abort.answer?, replies]
      · obtain ⟨i'', hanswer, hjoins'⟩ :=
          answer_eq hshared' heval hjoins (fun abort heq => hordinary abort (.inl heq.symm)) hlong
        obtain ⟨houtput, hescaped⟩ := ih hjoins' hnone' hshared'
          (written ++ reply result ++ "\n" ++ prompt) fun abort hmem => hordinary abort (.inr hmem)
        rw [answerAll, hanswer, List.takeWhile_cons_of_pos (by simpa using hlong), replies_cons]
        refine ⟨houtput.trans ?_, hescaped.trans ?_⟩
        · simp only [String.append_assoc]
        · simp [Ne.symm hlong]

/-- A dialogue replies to the results that its lines have in a session, each in a line of its own
and with the prompt after it.  It ends at the first line for which a number would have to be written
that is too long, without a reply, and with that abort; if there is no such line, it replies to all.
-/
theorem run_eq (limit : Nat) (prompt : String) (log : Log) (input : List Char) :
    let lines := (Text.lines input).map Text.chomp
    let results := ((Interpreter.new log).evalPrintAll limit lines).1
    let transcript := run limit prompt log input
    results.length = lines.length ∧
      transcript.output =
        prompt ++ replies prompt (results.takeWhile (· ≠ .error .numberTooLong)) ∧
      transcript.escaped =
        if .error .numberTooLong ∈ results then some .numberTooLong else none := by
  intro lines results transcript
  obtain ⟨B, hevolves, hjoins⟩ := joins_newIn { log := log } False rfl False.elim
  have hnone : B.hidden = ∅ := (hidden_eq hevolves.le).symm
  have hshared : ¬B.alone := hevolves.le.1 ▸ id
  have hresults : results = (Reference.evalPrintAll limit lines (Reference.new log)).1 :=
    (hjoins.evalPrintAll limit fun line _ => hnone ▸ Reference.avoids_empty line).1
  obtain ⟨L, hsuits, -⟩ := Layout.suits_new log
  obtain ⟨houtput, hescaped⟩ := answerAll_eq (joins_note hjoins hshared .sessionStarted) hnone
    hshared prompt prompt (Text.lines input) fun abort hmem =>
      hsuits.ordinary_of_mem (hresults.symm ▸ hmem)
  rw [← hresults] at houtput hescaped
  exact ⟨length_evalPrintAll .., houtput, hescaped⟩

/-- A number of 10001 digits ends a dialogue: its line has no reply, and the line after it is not
evaluated. -/
theorem run_of_long_number :
    let transcript := run 10000 "> " {}
      "(defun p (x) (* x x x x x x x x x x))\n(p (p (p (p 10))))\n1\n".toList
    transcript.escaped = some .numberTooLong ∧ transcript.output = "> p\n> " := by
  decide +kernel

end Dialogue

end ConsLisp
