import ConsLisp.Text.Quoted
import ConsLisp.Value.Fault

/-!
# The log

What a session reports beside its answers.  An event says what happened; its level,
its channel and its wording follow from that.  A log keeps the events whose level
reaches its threshold.
-/

namespace ConsLisp

/-- How much an event matters. -/
inductive Level where
  | notset | debug | info | warning | error | critical
  deriving DecidableEq, Repr

namespace Level

/-- The rank of a level; an event is kept if its rank reaches the threshold's. -/
def severity : Level → Nat
  | notset => 0
  | debug => 10
  | info => 20
  | warning => 30
  | error => 40
  | critical => 50

/-- The name of a level in the log. -/
def name : Level → String
  | notset => "NOTSET"
  | debug => "DEBUG"
  | info => "INFO"
  | warning => "WARNING"
  | error => "ERROR"
  | critical => "CRITICAL"

theorem severity_injective {a b : Level} (h : a.severity = b.severity) : a = b := by
  cases a <;> cases b <;> simp_all [severity]

end Level

/-- Something that happens in a session. -/
inductive Event where
  | limitSet (limit : Nat)
  | environmentReady
  | sessionStarted
  | sessionEnded
  | readFailed (fault : Fault)
  | closureCreated (params : String)
  | functionDefined (name : String)
  | globalDefined (name : String)
  | divisionFailed (line : String) (message : String)
  | depthExhausted (line : String)
  deriving DecidableEq, Repr

namespace Event

/-- Only a line that ends by an abort is a warning; all else is detail. -/
def level : Event → Level
  | divisionFailed .. | depthExhausted _ => .warning
  | _ => .debug

/-- The part of the program that an event comes from. -/
def channel : Event → String
  | environmentReady => "minilisp.interpreter"
  | readFailed _ => "minilisp.reader.parser"
  | closureCreated _ => "minilisp.evaluation.special_forms.lambda_form"
  | functionDefined _ => "minilisp.evaluation.special_forms.defun_form"
  | globalDefined _ => "minilisp.evaluation.special_forms.setq_form"
  | _ => "minilisp.repl"

/-- The wording of an event. -/
def message : Event → String
  | limitSet limit => "recursion limit set to " ++ toString limit
  | environmentReady => "global environment initialised"
  | sessionStarted => "session started"
  | sessionEnded => "session ended: input closed"
  | readFailed fault => "read error: " ++ fault.message
  | closureCreated params => "Closure created: params=" ++ params
  | functionDefined name => "defun " ++ name
  | globalDefined name => "setq defines global " ++ name
  | divisionFailed line message =>
    "host arithmetic error in " ++ Text.quotedString line ++ ": " ++ message
  | depthExhausted line => "stack exhausted evaluating " ++ Text.quotedString line

/-- An event as a line of the log. -/
def render (e : Event) : String :=
  e.level.name ++ " " ++ e.channel ++ ": " ++ e.message

end Event

/-- The events kept so far, newest first. -/
structure Log where
  threshold : Level := .warning
  events : List Event := []
  deriving Repr

namespace Log

/-- Is an event of this level kept? -/
def keeps (log : Log) (level : Level) : Bool :=
  log.threshold.severity ≤ level.severity

/-- Adds an event, if its level reaches the threshold. -/
def note (log : Log) (event : Event) : Log :=
  if log.keeps event.level then { log with events := event :: log.events } else log

/-- The lines of a log, oldest first. -/
def lines (log : Log) : List String :=
  log.events.reverse.map Event.render

/-- An event adds at most one line, at the end. -/
theorem lines_note (log : Log) (event : Event) :
    (log.note event).lines =
      if log.keeps event.level then log.lines ++ [event.render] else log.lines := by
  unfold note lines
  split <;> simp

@[simp] theorem threshold_note (log : Log) (event : Event) :
    (log.note event).threshold = log.threshold := by
  unfold note; split <;> rfl

end Log

end ConsLisp
