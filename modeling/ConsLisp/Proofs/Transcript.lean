import ConsLisp.Proofs.Dialogue
import ConsLisp.Proofs.Verbosity

/-!
# Dialogues line by line

The input of a dialogue is cut into whole lines, each with its line feed, and what stands behind the
last line feed.  A dialogue is the session over these lines, written down: what it reports beside is
seen by no line.  So the output of whole lines stands at the beginning of the output of every longer
input, and a carriage return before a line feed is of no account.

Main statements: the lines of an input (`Text.lines_of_cut`), and what a dialogue over them writes
(`Dialogue.run_line_by_line`).
-/

namespace ConsLisp

namespace Text

/-- Whole lines, each with a line feed behind it. -/
def joined (lines : List (List Char)) : List Char :=
  lines.flatMap (· ++ ['\n'])

/-- The text consists of whole lines, and what stands behind the last line feed. -/
structure Cut (text : List Char) (whole : List (List Char)) (last : List Char) : Prop where
  eq : text = joined whole ++ last
  whole : ∀ line ∈ whole, '\n' ∉ line
  last : '\n' ∉ last

/-- Carriage returns stand before some more of the line feeds of the second text. -/
inductive Returned : List Char → List Char → Prop
  | nil : Returned [] []
  | keep (c : Char) {a b : List Char} (h : Returned a b) : Returned (c :: a) (c :: b)
  | turn {a b : List Char} (h : Returned a b) : Returned ('\n' :: a) ('\r' :: '\n' :: b)

theorem exists_cut (text : List Char) : ∃ whole last, Cut text whole last := by
  induction text with
  | nil => exact ⟨[], [], rfl, nofun, nofun⟩
  | cons c text ih =>
    obtain ⟨whole, last, rfl, hwhole, hlast⟩ := ih
    by_cases hc : c = '\n'
    · subst hc
      refine ⟨[] :: whole, last, rfl, ?_, hlast⟩
      simpa using hwhole
    · -- The character belongs to the first line, which may be the last one.
      cases whole with
      | nil => exact ⟨[], c :: last, rfl, nofun, by simp [Ne.symm hc, hlast]⟩
      | cons line whole =>
        rw [List.forall_mem_cons] at hwhole
        refine ⟨(c :: line) :: whole, last, rfl, ?_, hlast⟩
        rw [List.forall_mem_cons]
        exact ⟨by simp [Ne.symm hc, hwhole.1], hwhole.2⟩

theorem linesFrom_of_not_mem {text : List Char} (h : '\n' ∉ text) {current : List Char}
    (hne : current ++ text ≠ []) : linesFrom current text = [current.reverse ++ text] := by
  induction text generalizing current with
  | nil =>
    cases current with
    | nil => exact absurd rfl hne
    | cons c current => simp [linesFrom]
  | cons c text ih =>
    have hc : c ≠ '\n' := fun e => h (e ▸ List.mem_cons_self)
    have htext : '\n' ∉ text := fun m => h (List.mem_cons_of_mem _ m)
    simp [linesFrom, ih htext]

/-- The lines of a text are its whole lines, and what stands behind the last line feed if that is
something. -/
theorem lines_of_cut {text last : List Char} {whole : List (List Char)}
    (h : Cut text whole last) : lines text = whole ++ if last = [] then [] else [last] := by
  obtain ⟨rfl, hwhole, hlast⟩ := h
  induction whole with
  | nil =>
    by_cases hnone : last = []
    · subst hnone
      rfl
    · rw [if_neg hnone]
      exact linesFrom_of_not_mem hlast hnone
  | cons line whole ih =>
    rw [List.forall_mem_cons] at hwhole
    have hline : joined (line :: whole) ++ last = line ++ '\n' :: (joined whole ++ last) := by
      simp [joined]
    rw [hline, lines_append hwhole.1, ih hwhole.2, List.cons_append]

theorem linesFrom_split (current front rest : List Char) :
    linesFrom current (front ++ '\n' :: rest) =
      linesFrom current (front ++ ['\n']) ++ linesFrom [] rest := by
  fun_induction linesFrom current front with
  | case1 => simp [linesFrom]
  | case2 current => simp [linesFrom]
  | case3 current front ih => simp [linesFrom, ih]
  | case4 current c front hc ih => simp [linesFrom, ih]

/-- Whole lines are lines, whatever stands behind them. -/
theorem lines_joined_append (whole : List (List Char)) (rest : List Char) :
    lines (joined whole ++ rest) = lines (joined whole) ++ lines rest := by
  induction whole with
  | nil => rfl
  | cons line whole ih =>
    have hline (rest : List Char) : joined (line :: whole) ++ rest =
        line ++ '\n' :: (joined whole ++ rest) := by
      simp [joined]
    have hnone := hline []
    rw [List.append_nil, List.append_nil] at hnone
    unfold lines at ih ⊢
    rw [hline, hnone, linesFrom_split, linesFrom_split [] line (joined whole), ih,
      List.append_assoc]

/-- A carriage return at the end of a line is dropped. -/
theorem chomp_concat_return (line : List Char) : chomp (line ++ ['\r']) = chomp line := by
  simp [chomp, trimEnd]

/-- What is dropped at the end of a line are the characters that end lines, all of them. -/
theorem chomp_eq (line : List Char) :
    ∃ ends, line = chomp line ++ ends ∧ (∀ c ∈ ends, c = '\r' ∨ c = '\n') ∧
      ∀ c, (chomp line).getLast? = some c → c ≠ '\r' ∧ c ≠ '\n' := by
  let dropped (c : Char) : Bool := c == '\r' || c == '\n'
  refine ⟨(line.reverse.takeWhile dropped).reverse, ?_, fun c hc => ?_, fun c hc => ?_⟩
  · change line = (line.reverse.dropWhile dropped).reverse ++ _
    rw [← List.reverse_append, List.takeWhile_append_dropWhile, List.reverse_reverse]
  · simpa [dropped] using List.mem_takeWhile_imp (List.mem_reverse.mp hc)
  · change (line.reverse.dropWhile dropped).reverse.getLast? = some c at hc
    rw [List.getLast?_reverse] at hc
    have hlast := List.head?_dropWhile_not dropped line.reverse
    rw [hc] at hlast
    simpa [dropped] using hlast

/-- Carriage returns before line feeds change no line, but for what is dropped. -/
theorem Returned.lines {a b : List Char} (h : Returned a b) :
    (lines b).map chomp = (lines a).map chomp := by
  have hfrom : ∀ current, (linesFrom current b).map chomp = (linesFrom current a).map chomp := by
    induction h with
    | nil => exact fun _ => rfl
    | keep c _ ih =>
      intro current
      by_cases hc : c = '\n'
      · subst hc
        simp [linesFrom, ih]
      · simp [linesFrom, ih]
    | turn _ ih =>
      intro current
      simp [linesFrom, ih, chomp_concat_return]
  exact hfrom []

end Text

/-! ## Answers -/

theorem Layout.Suits.note {L : Layout} {i : Interpreter} (h : L.Suits i) (event : Event) :
    L.Suits (i.note event) :=
  ⟨h.full, h.globals, h.kept, h.lists⟩

namespace Dialogue

/-- The abort that a dialogue does not survive, if the result of a line is one. -/
def escape? : Except Abort String → Option Abort
  | .ok _ | .error .divisionByZero | .error .tooDeep => none
  | .error abort => some abort

/-- What a dialogue makes of the result of a line: a reply, or the abort that ends it. -/
def outcome (result : Except Abort String) : Except Abort String :=
  match escape? result with
  | none => .ok (reply result)
  | some abort => .error abort

/-- The interpreter after the warning that the result of a line gives rise to, if it does. -/
def warned (line : List Char) (result : Except Abort String) (i : Interpreter) : Interpreter :=
  match result with
  | .ok _ => i
  | .error abort =>
    match abort.answer? line with
    | some (_, event) => i.note event
    | none => i

variable {i j : Interpreter} {limit : Nat}

/-- A line is answered by its result, and with a warning if that is an abort which is survived. -/
theorem answer_eq_outcome (limit : Nat) (line : List Char) (i : Interpreter) :
    answer limit line i = (outcome (i.evalPrint limit line).1,
      warned line (i.evalPrint limit line).1 (i.evalPrint limit line).2) := by
  unfold answer
  cases i.evalPrint limit line with
  | mk result i' =>
    cases result with
    | ok text => rfl
    | error abort => cases abort <;> rfl

/-- What the events of a log do not matter for, a warning does not matter for. -/
theorem warned_of_note {P : Interpreter → Prop} (h : P i) (hnote : ∀ event, P (i.note event))
    (line : List Char) (result : Except Abort String) : P (warned line result i) := by
  unfold warned
  cases result with
  | ok text => exact h
  | error abort =>
    dsimp only
    split
    · exact hnote _
    · exact h

/-- A line of a dialogue leaves an interpreter with a store of the same sort. -/
theorem exists_suits_answer {L : Layout} (h : L.Suits i) (limit : Nat) (line : List Char) :
    ∃ L' : Layout, L'.Suits (answer limit line i).2 := by
  obtain ⟨L', h'⟩ := h.evalPrint limit line
  rw [answer_eq_outcome]
  exact ⟨L', warned_of_note h' h'.note line _⟩

end Dialogue

/-! ## Transcripts -/

theorem Interpreter.evalPrintAll_append (limit : Nat) (lines more : List (List Char))
    (i : Interpreter) :
    (i.evalPrintAll limit (lines ++ more)).1 = (i.evalPrintAll limit lines).1 ++
      ((i.evalPrintAll limit lines).2.evalPrintAll limit more).1 := by
  induction lines generalizing i with
  | nil => rfl
  | cons line lines ih => exact congrArg (_ :: ·) (ih _)

namespace Dialogue

variable {i j : Interpreter} {limit : Nat}

theorem replies_append (prompt : String) (results more : List (Except Abort String)) :
    replies prompt (results ++ more) = replies prompt results ++ replies prompt more := by
  simp [replies]

/-- The results up to the first one that escapes. -/
def survived (results : List (Except Abort String)) : List (Except Abort String) :=
  results.takeWhile fun result => (escape? result).isNone

theorem survived_append (results more : List (Except Abort String)) :
    ∃ rest, survived (results ++ more) = survived results ++ rest := by
  unfold survived
  rw [List.takeWhile_append]
  split
  · next hall =>
    rw [(List.takeWhile_sublist _).eq_of_length hall]
    exact ⟨_, rfl⟩
  · exact ⟨[], (List.append_nil _).symm⟩

/-- A dialogue writes the replies to the results that its lines have in a session, up to the first
one that escapes, and ends by that abort. -/
theorem answerAll_replies (hbeside : i.Beside j) {L : Layout} (hsuits : L.Suits i)
    (prompt written : String) (lines : List (List Char)) :
    let results := (j.evalPrintAll limit (lines.map Text.chomp)).1
    let ended := answerAll limit prompt written lines i
    ended.1 = results.findSome? escape? ∧
      ended.2.1 = written ++ replies prompt (survived results) := by
  induction lines generalizing L i j written with
  | nil => simp [answerAll, Interpreter.evalPrintAll, replies, survived]
  | cons line lines ih =>
    obtain ⟨hresult, hbeside'⟩ := hbeside.evalPrint hsuits limit (Text.chomp line)
    obtain ⟨L', hsuits'⟩ := exists_suits_answer hsuits limit (Text.chomp line)
    rw [answer_eq_outcome] at hsuits'
    unfold answerAll
    rw [answer_eq_outcome]
    simp only [List.map_cons, Interpreter.evalPrintAll, ← hresult, survived]
    generalize (i.evalPrint limit (Text.chomp line)).1 = result at *
    cases hescape : escape? result with
    | some abort => simp [outcome, hescape, replies]
    | none =>
      have hwarned := warned_of_note (P := (·.Beside _)) hbeside' hbeside'.note
        (Text.chomp line) result
      obtain ⟨hescaped, houtput⟩ := ih hwarned hsuits' (written ++ reply result ++ "\n" ++ prompt)
      simp only [outcome, hescape]
      rw [List.takeWhile_cons_of_pos (by simp [hescape]), replies_cons]
      refine ⟨?_, houtput.trans ?_⟩
      · simpa [hescape] using hescaped
      · simp only [String.append_assoc]
        rfl

/-- A dialogue writes its prompt and the replies to the results of its lines, up to the first one
that escapes, and ends by that abort. -/
theorem run_replies (limit : Nat) (prompt : String) (log : Log) (input : List Char) :
    let results :=
      ((Interpreter.new log).evalPrintAll limit ((Text.lines input).map Text.chomp)).1
    let transcript := run limit prompt log input
    transcript.escaped = results.findSome? escape? ∧
      transcript.output = prompt ++ replies prompt (survived results) := by
  obtain ⟨L, hsuits, -⟩ := Layout.suits_new log
  have hbeside : (opening log).Beside (Interpreter.new log) :=
    Interpreter.Beside.note ⟨rfl, rfl, rfl⟩ .sessionStarted
  exact answerAll_replies hbeside (hsuits.note .sessionStarted) prompt prompt (Text.lines input)

/-- What a dialogue does depends on its lines without what is dropped at their ends. -/
theorem answerAll_congr (limit : Nat) (prompt written : String) {lines lines' : List (List Char)}
    (h : lines'.map Text.chomp = lines.map Text.chomp) (i : Interpreter) :
    answerAll limit prompt written lines' i = answerAll limit prompt written lines i := by
  induction lines generalizing lines' written i with
  | nil =>
    obtain rfl := List.map_eq_nil_iff.mp h
    rfl
  | cons line lines ih =>
    obtain ⟨line', rest, rfl, hline, hrest⟩ := List.map_eq_cons_iff.mp h
    unfold answerAll
    rw [hline]
    cases answer limit (Text.chomp line) i with
    | mk result i' =>
      cases result with
      | error abort => rfl
      | ok text => exact ih _ hrest i'

/-- A dialogue is the session over its lines.  These are the whole lines of the input, and what
stands behind the last line feed if that is something, each without the carriage returns and the
line feeds at its end, of which all are dropped and nothing else is.  The output is the
prompt, and for each line up to the first that escapes the reply to its result in the session, a
line feed and the prompt; that abort ends the dialogue.  So what is written for whole lines stands
at the beginning of what is written for a longer input, and carriage returns before line feeds are
of no account. -/
theorem run_line_by_line (limit : Nat) (prompt : String) (log : Log) (input : List Char) :
    let lines := (Text.lines input).map Text.chomp
    let results := ((Interpreter.new log).evalPrintAll limit lines).1
    let transcript := run limit prompt log input
    (∃ whole last, Text.Cut input whole last ∧
        lines = (whole ++ if last = [] then [] else [last]).map Text.chomp) ∧
      (∀ line : List Char, ∃ ends, line = Text.chomp line ++ ends ∧
        (∀ c ∈ ends, c = '\r' ∨ c = '\n') ∧
        ∀ c, (Text.chomp line).getLast? = some c → c ≠ '\r' ∧ c ≠ '\n') ∧
      results.length = lines.length ∧
      transcript.escaped = results.findSome? escape? ∧
      transcript.output = prompt ++ replies prompt (survived results) ∧
      (∀ whole rest, input = Text.joined whole ++ rest →
        ∃ more, transcript.output = (run limit prompt log (Text.joined whole)).output ++ more) ∧
      ∀ other, Text.Returned input other → run limit prompt log other = transcript := by
  intro lines results transcript
  obtain ⟨hescaped, houtput⟩ := run_replies limit prompt log input
  refine ⟨?_, Text.chomp_eq, length_evalPrintAll .., hescaped, houtput, ?_, ?_⟩
  · obtain ⟨whole, last, hcut⟩ := Text.exists_cut input
    exact ⟨whole, last, hcut, congrArg _ (Text.lines_of_cut hcut)⟩
  · intro whole rest hinput
    have hwhole := (run_replies limit prompt log (Text.joined whole)).2
    change transcript.output = _ at houtput
    rw [houtput, hwhole, hinput, Text.lines_joined_append, List.map_append,
      Interpreter.evalPrintAll_append]
    obtain ⟨survivors, hsurvived⟩ := survived_append _ _
    rw [hsurvived, replies_append]
    exact ⟨_, String.append_assoc.symm⟩
  · intro other hreturned
    unfold transcript run
    rw [answerAll_congr limit prompt prompt hreturned.lines (opening log)]

end Dialogue

end ConsLisp
