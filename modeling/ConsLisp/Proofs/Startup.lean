import ConsLisp.CommandLine
import ConsLisp.Proofs.Transcript

/-!
# The start of a run

The settings that stand on a command line, with any values, are taken up in order, unless a value of
its own looks like an option.  What they give is laid over the variables, and these over the
defaults.  A run then has nothing to refuse and begins its session, or it shows one message; no line
is read before.

Two things are found out too late for a message: a limit that has been read but cannot be put into
effect, and a prompt that was given with the separator for its value.  Such a run is cut off before
the first prompt.

Main statements: how a run begins (`run_begins`), and a run that is cut off (`run_of_large_limit`).
-/

namespace ConsLisp

/-- What options give for a setting. -/
def Options.get (options : Options) : CommandLine.Setting → Option (Option String)
  | .prompt => options.prompt
  | .logLevel => options.logLevel
  | .recursionLimit => options.recursionLimit

namespace CommandLine

/-! ## Settings on the command line -/

/-- A setting as it is given on the command line: with an equals sign before its value, or with the
value as a word of its own. -/
structure Given where
  setting : Setting
  value : String
  joined : Bool

namespace Given

/-- The words that give it. -/
def words (g : Given) : List String :=
  if g.joined then [g.setting.name ++ "=" ++ g.value] else [g.setting.name, g.value]

/-- A value that is a word of its own must not look like an option. -/
def Accepted (g : Given) : Prop :=
  g.joined = true ∨ Word.ofString g.value = .plain

instance (g : Given) : Decidable g.Accepted :=
  inferInstanceAs (Decidable (_ ∨ _))

/-- The value, which is dropped if it is the separator. -/
def value? (g : Given) : Option String :=
  if g.joined = true ∧ g.value = separatorText then none else some g.value

end Given

/-- A name, an equals sign and a value are the option with that value. -/
theorem Word.ofLong_append (s : Switch) (value : List Char) (hname : '=' ∉ s.name.toList) :
    Word.ofLong (s.name.toList ++ '=' :: value) = .optionTo s (String.ofList value) := by
  have hall : ∀ c ∈ s.name.toList, (c != '=') = true := fun c hmem =>
    bne_iff_ne.mpr fun heq => hname (heq ▸ hmem)
  rw [Word.ofLong, List.span_eq_takeWhile_dropWhile, List.takeWhile_append_of_pos hall,
    List.dropWhile_append_of_pos hall]
  simp [Switch.startingWith_name]

/-- A setting with an equals sign and any text is that setting with that value. -/
theorem Word.ofString_append (s : Setting) (value : String) :
    Word.ofString (s.name ++ "=" ++ value) = .optionTo (.setting s) value := by
  have htext : (s.name ++ "=" ++ value).toList = s.name.toList ++ '=' :: value.toList := by simp
  have hequals : '=' ∉ s.name.toList := by cases s <;> decide
  have hdashes : ∃ name, s.name.toList = '-' :: '-' :: name := by
    cases s <;> exact ⟨_, rfl⟩
  have hne : s.name ++ "=" ++ value ≠ separatorText := by
    intro heq
    have hmem : '=' ∈ separatorText.toList := by
      rw [← heq, htext]
      simp
    exact absurd hmem (by decide)
  obtain ⟨name, hname⟩ := hdashes
  have hlong := Word.ofLong_append (.setting s) value.toList hequals
  rw [String.ofList_toList] at hlong
  rw [Word.ofString, if_neg hne, htext]
  change Word.ofLong (s.name.toList ++ '=' :: value.toList) = _ at hlong
  rw [hname] at hlong ⊢
  exact hlong

/-! ## What the words ask for -/

theorem get_put (s other : Setting) (value : Option String) (options : Options) :
    (s.put value options).get other = if s = other then some value else options.get other := by
  cases s <;> cases other <;> rfl

/-- The options after these have been given as well. -/
def Given.putAll (given : List Given) (options : Options) : Options :=
  given.foldl (fun options g => g.setting.put g.value? options) options

/-- How a setting is given the last time. -/
def Given.last? (s : Setting) (given : List Given) : Option Given :=
  given.reverse.find? (·.setting = s)

/-- The last time counts. -/
theorem Given.get_putAll (s : Setting) (given : List Given) (options : Options) :
    (putAll given options).get s = ((last? s given).map value?).or (options.get s) := by
  induction given generalizing options with
  | nil => rfl
  | cons g given ih =>
    have hfold : putAll (g :: given) options = putAll given (g.setting.put g.value? options) := rfl
    rw [hfold, ih, get_put, last?, last?, List.reverse_cons, List.find?_append]
    cases given.reverse.find? (·.setting = s) with
    | some g' => rfl
    | none =>
      by_cases hs : g.setting = s <;> simp [hs]

/-- A setting at the front is taken up, or refused as one without its value. -/
theorem parseFrom_words (g : Given) (options : Options) (rest : List String) :
    parseFrom options [] (g.words ++ rest) =
      if g.Accepted then parseFrom (g.setting.put g.value? options) [] rest
      else .error (.expectedArgument g.setting) := by
  obtain ⟨s, value, joined⟩ := g
  cases joined with
  | true =>
    rw [if_pos (.inl rfl), Given.words, if_pos rfl, List.singleton_append, parseFrom,
      Word.ofString_append]
    simp [Given.value?]
  | false =>
    have haccepted : Given.Accepted ⟨s, value, false⟩ ↔ Word.ofString value = .plain :=
      or_iff_right Bool.false_ne_true
    have hname : Word.ofString s.name = .option (.setting s) := Word.ofString_name (.setting s)
    simp only [haccepted]
    rw [Given.words, if_neg Bool.false_ne_true, List.cons_append, List.singleton_append, parseFrom,
      hname]
    rfl

/-- Settings are taken up in order, up to the first one that is refused. -/
theorem parseFrom_given (given : List Given) (options : Options) :
    parseFrom options [] (given.flatMap Given.words) =
      match given.find? (¬·.Accepted) with
      | none => .ok (.converse (Given.putAll given options))
      | some g => .error (.expectedArgument g.setting) := by
  induction given generalizing options with
  | nil => rfl
  | cons g given ih =>
    rw [List.flatMap_cons, parseFrom_words]
    by_cases hg : g.Accepted
    · rw [if_pos hg, ih, List.find?_cons_of_neg (by simpa using hg)]
      rfl
    · rw [if_neg hg, List.find?_cons_of_pos (by simpa using hg)]

/-- No word of a setting whose value is accepted could be several options. -/
theorem ambiguity?_of_accepted {g : Given} (h : g.Accepted) {word : String}
    (hmem : word ∈ g.words) : ambiguity? word = none := by
  obtain ⟨s, value, joined⟩ := g
  cases joined with
  | true =>
    rw [Given.words, if_pos rfl, List.mem_singleton] at hmem
    rw [hmem, ambiguity?, Word.ofString_append]
  | false =>
    have hplain : Word.ofString value = .plain := h.resolve_left Bool.false_ne_true
    have hname : Word.ofString s.name = .option (.setting s) := Word.ofString_name (.setting s)
    rw [Given.words, if_neg Bool.false_ne_true, List.mem_pair] at hmem
    rcases hmem with rfl | rfl
    · rw [ambiguity?, hname]
    · rw [ambiguity?, hplain]

theorem parse_of_accepted {given : List Given} (h : ∀ g ∈ given, g.Accepted) :
    parse (given.flatMap Given.words) = .ok (.converse (Given.putAll given {})) := by
  have hclear : ((given.flatMap Given.words).takeWhile (· ≠ separatorText)).findSome? ambiguity? =
      none := by
    rw [List.findSome?_eq_none_iff]
    intro word hword
    obtain ⟨g, hg, hmem⟩ := List.mem_flatMap.mp ((List.takeWhile_subset _) hword)
    exact ambiguity?_of_accepted (h g hg) hmem
  have hfind : given.find? (¬·.Accepted) = none := by
    simpa using h
  rw [parse, hclear]
  dsimp only
  rw [parseFrom_given, hfind]

theorem parse_of_not_accepted {given : List Given} {g : Given} (hmem : g ∈ given)
    (h : ¬g.Accepted) : ∃ e, parse (given.flatMap Given.words) = .error e := by
  unfold parse
  split
  · exact ⟨_, rfl⟩
  · rw [parseFrom_given]
    split
    · next hfind =>
      rw [List.find?_eq_none] at hfind
      exact absurd (hfind g hmem) (by simpa using h)
    · exact ⟨_, rfl⟩

/-! ## Effective settings -/

/-- The text that options give for a setting. -/
def Given.text? (s : Setting) (given : List Given) : Option String :=
  (last? s given).bind (·.value?)

/-- The threshold of the log: an option that is not empty counts before the variable, and the
variable before the default. -/
def Given.level (given : List Given) (vars : GivenSettings) : Except SettingError Level :=
  Level.parse (((text? .logLevel given).filter (· ≠ "")).getD
    (vars.logLevel.getD GivenSettings.defaultLogLevel))

/-- The limit of nested calls: an option counts before the variable, and the variable before the
default, where they are not empty. -/
def Given.limit (given : List Given) (vars : GivenSettings) : Except SettingError Nat :=
  match ((text? .recursionLimit given).filter (· ≠ "")).or
      (vars.recursionLimit.filter (· ≠ "")) with
  | none => .ok GivenSettings.defaultLimit
  | some raw => Settings.parseLimit raw

/-- The prompt: an option counts before the variable even if it is empty or has lost its value. -/
def Given.prompt? (given : List Given) (vars : GivenSettings) : Option String :=
  match last? .prompt given with
  | none => some (vars.prompt.getD GivenSettings.defaultPrompt)
  | some g => g.value?

/-- The effective settings.  The level is looked at before the limit. -/
def Given.settings (given : List Given) (vars : GivenSettings) : Except SettingError Settings := do
  let level ← Given.level given vars
  let limit ← Given.limit given vars
  return ⟨prompt? given vars, level, limit⟩

section Resolve

variable {α : Type} {vars : GivenSettings}

/-- A text counts unless it is missing or empty. -/
theorem filter_cases (text? : Option String) :
    (text? = none ∨ text? = some "") ∧ text?.filter (· ≠ "") = none ∨
      ∃ raw ≠ "", text? = some raw ∧ text?.filter (· ≠ "") = some raw := by
  cases text? with
  | none => exact .inl ⟨.inl rfl, rfl⟩
  | some raw =>
    by_cases hraw : raw = ""
    · subst hraw
      exact .inl ⟨.inr rfl, rfl⟩
    · exact .inr ⟨raw, hraw, rfl, Option.filter_some_pos (decide_eq_true hraw)⟩

/-- The level, as the settings are made of it. -/
theorem threshold_bind (text? : Option String) (next : Level → Except SettingError α) :
    (match text? with
      | none | some "" => vars.threshold >>= next
      | some raw => Level.parse raw >>= next) =
      Level.parse ((text?.filter (· ≠ "")).getD
        (vars.logLevel.getD GivenSettings.defaultLogLevel)) >>= next := by
  obtain ⟨rfl | rfl, hfilter⟩ | ⟨raw, hraw, rfl, hfilter⟩ := filter_cases text?
  · rfl
  · rfl
  · rw [hfilter]
    simp only
    rfl

theorem limit_eq (vars : GivenSettings) :
    vars.limit = match vars.recursionLimit.filter (· ≠ "") with
      | none => .ok GivenSettings.defaultLimit
      | some raw => Settings.parseLimit raw := by
  unfold GivenSettings.limit
  obtain ⟨h | h, hfilter⟩ | ⟨raw, hraw, h, hfilter⟩ := filter_cases vars.recursionLimit
  · rw [hfilter, h]
  · rw [hfilter, h]
    rfl
  · rw [hfilter, h]
    simp only

/-- The limit, as the settings are made of it. -/
theorem limit_bind (text? : Option String) (next : Nat → Except SettingError α) :
    (match text? with
      | none | some "" => vars.limit >>= next
      | some raw => Settings.parseLimit raw >>= next) =
      (match (text?.filter (· ≠ "")).or (vars.recursionLimit.filter (· ≠ "")) with
        | none => .ok GivenSettings.defaultLimit
        | some raw => Settings.parseLimit raw) >>= next := by
  obtain ⟨rfl | rfl, hfilter⟩ | ⟨raw, hraw, rfl, hfilter⟩ := filter_cases text?
  · rw [limit_eq]
    rfl
  · rw [limit_eq]
    rfl
  · rw [hfilter]
    simp only
    rfl

end Resolve

theorem Given.join_get_putAll (s : Setting) (given : List Given) :
    ((putAll given {}).get s).join = text? s given := by
  have hnone : ({} : Options).get s = none := by cases s <;> rfl
  rw [get_putAll, hnone, Option.or_none, text?]
  cases last? s given with
  | none => rfl
  | some g => rfl

theorem Given.prompt_putAll (given : List Given) (vars : GivenSettings) :
    (putAll given {}).prompt.getD (some vars.promptText) = prompt? given vars := by
  have hget := get_putAll .prompt given {}
  change (putAll given {}).prompt = _ at hget
  rw [hget, prompt?]
  cases last? .prompt given with
  | none => rfl
  | some g => rfl

/-- Options and variables come to the effective settings. -/
theorem Given.resolve_putAll (given : List Given) (vars : GivenSettings) :
    Settings.resolve (putAll given {}) vars = settings given vars := by
  unfold settings level limit
  rw [← join_get_putAll, ← join_get_putAll, ← prompt_putAll]
  exact (threshold_bind _ _).trans (bind_congr fun level => limit_bind _ _)

/-! ## How a run begins -/

/-- The log of a run when its first line is read. -/
def firstLog (level : Level) (limit : Nat) : Log :=
  ({ threshold := level } : Log).note (.limitSet limit)

/-- The results that the lines of an input have in a session. -/
def results (level : Level) (limit : Nat) (input : List Char) : List (Except Abort String) :=
  ((Interpreter.new (firstLog level limit)).evalPrintAll limit
    ((Text.lines (Text.unifyLineEnds input)).map Text.chomp)).1

/-- The run of a session ends in order, unless an abort escapes. -/
def endingOf (escaped : Option Abort) : Ending :=
  escaped.elim (.exit 0) .escaped

/-- The outcome is that of a session with these settings: the prompt is written, then for each line
up to the first one that escapes the reply to its result, a line feed and the prompt. -/
structure IsSession (level : Level) (limit : Nat) (prompt : String) (input : List Char)
    (outcome : Outcome) : Prop where
  output : outcome.output =
    prompt ++ Dialogue.replies prompt (Dialogue.survived (results level limit input))
  ending : outcome.ending = endingOf ((results level limit input).findSome? Dialogue.escape?)
  report : outcome.report =
    (Dialogue.run limit prompt (firstLog level limit) (Text.unifyLineEnds input)).log.lines

/-- How a run goes on from its settings, as a function of the standard input: no line is read where
that is constant.  The nested calls before the first prompt are `start`, by the threshold of the
log. -/
inductive Begins (start : Level → Nat) (given : List Given) (vars : GivenSettings) :
    (List Char → Outcome) → Prop
  /-- A value that is a word of its own looks like an option. -/
  | usage (g : Given) (message : String) (hmem : g ∈ given) (h : ¬g.Accepted) :
    Begins start given vars fun _ => refused message
  | invalid (e : SettingError) (haccepted : ∀ g ∈ given, g.Accepted)
    (h : Given.settings given vars = .error e) :
    Begins start given vars fun _ => refused e.message
  /-- The limit is read, but it cannot be put into effect. -/
  | obstructed (settings : Settings) (abort : Abort) (haccepted : ∀ g ∈ given, g.Accepted)
    (hsettings : Given.settings given vars = .ok settings)
    (h : maxLimit < settings.limit ∧ abort = .limitOutOfRange ∨
      settings.limit ≤ start settings.threshold ∧ abort = .tooDeep) :
    Begins start given vars fun _ => ⟨.escaped abort, "", []⟩
  /-- The prompt is given with an equals sign and the separator, and so has lost its value. -/
  | promptless (level : Level) (limit : Nat) (haccepted : ∀ g ∈ given, g.Accepted)
    (hsettings : Given.settings given vars = .ok ⟨none, level, limit⟩)
    (hlow : start level < limit) (hhigh : limit ≤ maxLimit) :
    Begins start given vars fun _ =>
      ⟨.escaped .noPrompt, "", (Dialogue.opening (firstLog level limit)).state.log.lines⟩
  | session (level : Level) (limit : Nat) (prompt : String) (outcome : List Char → Outcome)
    (haccepted : ∀ g ∈ given, g.Accepted)
    (hsettings : Given.settings given vars = .ok ⟨some prompt, level, limit⟩)
    (hlow : start level < limit) (hhigh : limit ≤ maxLimit)
    (h : ∀ input, IsSession level limit prompt input (outcome input)) :
    Begins start given vars outcome

theorem converse_eq {start limit : Nat} (h : obstacle? start limit = none) (prompt : String)
    (level : Level) (input : List Char) :
    let transcript := Dialogue.run limit prompt (firstLog level limit) (Text.unifyLineEnds input)
    converse start ⟨some prompt, level, limit⟩ input =
      ⟨endingOf transcript.escaped, transcript.output, transcript.log.lines⟩ := by
  unfold firstLog
  simp only [converse, h]
  cases (Dialogue.run limit prompt (({ threshold := level } : Log).note (.limitSet limit))
    (Text.unifyLineEnds input)).escaped <;> rfl

/-- A dialogue under a limit that can be put into effect is a session. -/
theorem isSession_converse {start limit : Nat} (h : obstacle? start limit = none) (prompt : String)
    (level : Level) (input : List Char) :
    IsSession level limit prompt input (converse start ⟨some prompt, level, limit⟩ input) := by
  obtain ⟨hescaped, houtput⟩ :=
    Dialogue.run_replies limit prompt (firstLog level limit) (Text.unifyLineEnds input)
  rw [converse_eq h]
  exact ⟨houtput, congrArg endingOf hescaped, rfl⟩

/-- A limit has an obstacle if it is too large or too small. -/
theorem obstacle?_cases (start limit : Nat) :
    (obstacle? start limit = none ∧ start < limit ∧ limit ≤ maxLimit) ∨
      ∃ abort, obstacle? start limit = some abort ∧
        (maxLimit < limit ∧ abort = .limitOutOfRange ∨ limit ≤ start ∧ abort = .tooDeep) := by
  by_cases hhigh : maxLimit < limit
  · exact .inr ⟨_, if_pos hhigh, .inl ⟨hhigh, rfl⟩⟩
  · by_cases hlow : limit ≤ start
    · exact .inr ⟨_, (if_neg hhigh).trans (if_pos hlow), .inr ⟨hlow, rfl⟩⟩
    · exact .inl ⟨(if_neg hhigh).trans (if_neg hlow), by omega, by omega⟩

section Accepted

variable {start : Level → Nat} {given : List Given} {vars : GivenSettings}

theorem runFrom_of_error {e : SettingError} (haccepted : ∀ g ∈ given, g.Accepted)
    (h : Given.settings given vars = .error e) :
    runFrom start (given.flatMap Given.words) vars = fun _ => refused e.message := by
  funext input
  simp only [runFrom, parse_of_accepted haccepted, Given.resolve_putAll, h]

/-- If all values are accepted, the effective settings are put into effect. -/
theorem runFrom_of_ok {settings : Settings} (haccepted : ∀ g ∈ given, g.Accepted)
    (h : Given.settings given vars = .ok settings) :
    runFrom start (given.flatMap Given.words) vars =
      fun input => converse (start settings.threshold) settings input := by
  funext input
  simp only [runFrom, parse_of_accepted haccepted, Given.resolve_putAll, h]

end Accepted

/-- A run shows one message and nothing else, or it is the session that its effective settings ask
for.  Otherwise it is cut off before the first prompt: a limit that has been read cannot be put into
effect, or the prompt is missing.  This holds whatever nested calls the start takes. -/
theorem run_begins (start : Level → Nat) (given : List Given) (vars : GivenSettings) :
    Begins start given vars (runFrom start (given.flatMap Given.words) vars) := by
  by_cases haccepted : ∀ g ∈ given, g.Accepted
  · cases hsettings : Given.settings given vars with
    | error e =>
      rw [runFrom_of_error haccepted hsettings]
      exact .invalid e haccepted hsettings
    | ok settings =>
      rw [runFrom_of_ok haccepted hsettings]
      obtain ⟨prompt?, level, limit⟩ := settings
      rcases obstacle?_cases (start level) limit with ⟨hnone, hlow, hhigh⟩ | ⟨abort, hsome, hcases⟩
      · cases prompt? with
        | none =>
          simp only [converse, hnone]
          exact .promptless level limit haccepted hsettings hlow hhigh
        | some prompt =>
          exact .session level limit prompt _ haccepted hsettings hlow hhigh
            (isSession_converse hnone prompt level)
      · simp only [converse, hsome]
        exact .obstructed _ abort haccepted hsettings hcases
  · simp only [not_forall] at haccepted
    obtain ⟨g, hmem, hg⟩ := haccepted
    obtain ⟨e, hparse⟩ := parse_of_not_accepted hmem hg
    have hrun : runFrom start (given.flatMap Given.words) vars =
        fun _ => refused e.message := by
      funext input
      rw [runFrom, hparse]
    rw [hrun]
    exact .usage g e.message hmem hg

/-- A limit that has been read and is too large cuts a run off. -/
theorem run_of_large_limit :
    let outcome := run ["--recursion-limit", "2147483648"] {} "1\n".toList
    Settings.parseLimit "2147483648" = .ok 2147483648 ∧ outcome.ending = .escaped .limitOutOfRange ∧
      outcome.output = "" ∧ outcome.report = [] := by
  decide +kernel

end CommandLine

end ConsLisp
