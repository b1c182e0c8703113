import ConsLisp.Decimal.Liberal
import ConsLisp.Log
import ConsLisp.Text.Capital

/-!
# Settings

A session has a prompt, a threshold of its log and a limit of nested calls.  Each
can be given as an option or as a variable, and has a default.  An option that is
given counts before the variable; an empty one counts for the prompt only.  An option
can also be given without a value: then the variable counts for the threshold and the
limit, while the prompt is missing.
-/

namespace ConsLisp

/-- Why a setting is refused. -/
inductive SettingError where
  | unknownLevel (raw : String)
  | limitNotInteger (raw : String)
  | limitNotPositive (limit : Int)
  deriving DecidableEq, Repr

/-- The message a refused setting is reported with. -/
def SettingError.message : SettingError → String
  | unknownLevel raw => "Unknown log level: " ++ Text.quotedString raw
  | limitNotInteger raw => "Recursion limit must be an integer, got " ++ Text.quotedString raw
  | limitNotPositive limit =>
    "Recursion limit must be positive, got " ++ String.ofList (Decimal.digits limit)

/-- The level of a name in capitals. -/
def Level.ofName? : String → Option Level
  | "CRITICAL" | "FATAL" => some critical
  | "ERROR" => some error
  | "WARNING" | "WARN" => some warning
  | "INFO" => some info
  | "DEBUG" => some debug
  | "NOTSET" => some notset
  | _ => none

theorem Level.ofName?_name (level : Level) : Level.ofName? level.name = some level := by
  cases level <;> decide

/-- Reads a level, in letters of any case and with spaces around. -/
def Level.parse (raw : String) : Except SettingError Level :=
  let name := String.ofList (Text.capitals (Text.trim Text.isSpace raw.toList))
  match Level.ofName? name with
  | some level => .ok level
  | none => .error (.unknownLevel raw)

namespace Settings

/-- Reads a limit of nested calls. -/
def parseLimit (raw : String) : Except SettingError Nat :=
  match Decimal.readLiberal? raw.toList with
  | none => .error (.limitNotInteger raw)
  | some n => if n ≤ 0 then .error (.limitNotPositive n) else .ok n.toNat

/-- A limit that is read allows at least one call. -/
theorem pos_of_parseLimit {raw : String} {limit : Nat} (h : parseLimit raw = .ok limit) :
    0 < limit := by
  unfold parseLimit at h
  split at h
  · cases h
  · split at h
    · cases h
    · cases h
      omega

end Settings

/-- Settings as options give them.  Each option is absent, given without a value, or
given with one. -/
structure Options where
  prompt : Option (Option String) := none
  logLevel : Option (Option String) := none
  recursionLimit : Option (Option String) := none
  deriving DecidableEq, Repr

/-- Settings as variables give them, each of them optional. -/
structure GivenSettings where
  prompt : Option String := none
  logLevel : Option String := none
  recursionLimit : Option String := none
  deriving DecidableEq, Repr

namespace GivenSettings

/-- The prompt if none is given. -/
def defaultPrompt : String := "> "

/-- The name of the level if none is given. -/
def defaultLogLevel : String := "WARNING"

/-- The limit of nested calls if none is given. -/
def defaultLimit : Nat := 10000

/-- The prompt that variables give. -/
def promptText (vars : GivenSettings) : String :=
  vars.prompt.getD defaultPrompt

/-- The threshold that variables give. -/
def threshold (vars : GivenSettings) : Except SettingError Level :=
  Level.parse (vars.logLevel.getD defaultLogLevel)

/-- The limit that variables give; an empty variable counts as none. -/
def limit (vars : GivenSettings) : Except SettingError Nat :=
  match vars.recursionLimit with
  | none | some "" => .ok defaultLimit
  | some raw => Settings.parseLimit raw

end GivenSettings

/-- The settings a session runs with; the prompt may be missing. -/
structure Settings where
  prompt : Option String
  threshold : Level
  limit : Nat
  deriving DecidableEq, Repr

/-- The settings that options and variables give.  The level is looked at before the
limit. -/
def Settings.resolve (options : Options) (vars : GivenSettings) :
    Except SettingError Settings := do
  let threshold ← match options.logLevel.join with
    | none | some "" => vars.threshold
    | some raw => Level.parse raw
  let limit ← match options.recursionLimit.join with
    | none | some "" => vars.limit
    | some raw => Settings.parseLimit raw
  return ⟨options.prompt.getD (some vars.promptText), threshold, limit⟩

end ConsLisp
