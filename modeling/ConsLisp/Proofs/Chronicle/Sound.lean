import ConsLisp.Proofs.Chronicle
import ConsLisp.Proofs.Layout.Walks

/-!
# Sound chronicles

A chronicle is sound under a layout if its store keeps to the layout, each moment so far had a
layout that knew all it showed and allowed its change, and each layout of the past has settled
into the later ones.  The calls in progress stay within the nesting limit, a line that ends by an
abort has a cause for it, and every form of the layout has been read.

Main statements: a deed without a change leaves a chronicle sound (`Sound.record`), and so do a
change that the layout allows (`Sound.change`), a new call (`Sound.call`) and a form that has been
read (`Sound.learn`).
-/

namespace ConsLisp

/-! ## What a moment shows -/

/-- The values that a call is made on. -/
def Call.values : Call → List Value
  | .read _ | .readUntilClose _ => []
  | .evaluate form _ => [form]
  | .evaluateAll forms _ => [forms]
  | .special _ args _ => [args]
  | .apply fn args => [fn, args]
  | .enter params code _ args => [params, code, args]
  | .body forms _ => [forms]

/-- The environments that a call is made in. -/
def Call.envs : Call → List Value
  | .evaluate _ env | .evaluateAll _ env | .special _ _ env | .enter _ _ env _ | .body _ env =>
    [env]
  | .read _ | .readUntilClose _ | .apply .. => []

/-- The values that a deed shows. -/
def Deed.values : Deed → List Value
  | .call made => made.values
  | .answer _ v => [v]
  | .ended (.ok v) => [v]
  | _ => []

/-- The environments that a deed shows. -/
def Deed.envs : Deed → List Value
  | .call made => made.envs
  | _ => []

namespace Moment

/-- The innermost call in progress. -/
def current (m : Moment) : Option Call :=
  m.callers.head?.map Caller.call

/-- The calls in progress after the moment. -/
def callersAfter (m : Moment) : List Caller :=
  match m.deed with
  | .call made => ⟨made, m.store⟩ :: m.callers
  | _ => m.callers

/-- The calls in progress after these moments, newest first. -/
def inProgress : List Moment → List Caller
  | [] => []
  | m :: _ => m.callersAfter

/-- Calls are in progress, and the pair did not exist when any of them began. -/
def Fresh (m : Moment) (place : Nat) : Prop :=
  m.callers ≠ [] ∧ ∀ caller ∈ m.callers, caller.store.size ≤ place

/-- An assignment is in progress, and this pair is the binding of its name. -/
def Assigns (m : Moment) (binding : Value) : Prop :=
  ∃ args env, m.current = some (.special .assign args env) ∧
    m.store.binding? (m.store.car args) env = .ok (some binding)

/-- A definition of this name is in progress, or an assignment to this name, which has no
binding. -/
def Defines (m : Moment) (name : Value) : Prop :=
  ∃ args env, name = m.store.car args ∧
    (m.current = some (.special .define args env) ∨
      m.current = some (.special .assign args env) ∧ m.store.binding? name env = .ok none)

theorem Defines.called {m : Moment} {name : Value} (h : m.Defines name) : m.callers ≠ [] := by
  intro hnone
  obtain ⟨args, env, -, hcurrent | ⟨hcurrent, -⟩⟩ := h
  · simp [current, hnone] at hcurrent
  · simp [current, hnone] at hcurrent

end Moment

/-! ## Why a line aborts -/

/-- Is the value a primitive or a closure? -/
def Value.isFunction : Value → Bool
  | .primitive .. | .closure .. => true
  | _ => false

/-- The value that a call prints: the name or the parameters in a message to the log, or what
stands in the place of a function and is none. -/
def Call.Prints (s : Store) : Call → Value → Prop
  | .special .lambda args _, v | .special .define args _, v | .special .assign args _, v =>
    v = s.car args
  | .apply fn args, v =>
    v = fn ∧ fn.isError = false ∧ args.isError = false ∧ fn.isFunction = false
  | _, _ => False

/-- Why a line aborts in a store, with these calls in progress, innermost first.  The nesting
limit is reached, by the calls or in printing; a quotient or a remainder by zero is asked for; or
a number is too long to be printed in the place of a function. -/
inductive Cause (limit : Nat) (s : Store) : List Call → Abort → Prop
  | calls {calls : List Call} (hlimit : limit ≤ calls.length) : Cause limit s calls .tooDeep
  | nesting {call : Call} {calls : List Call} {v : Value} (hprints : call.Prints s v)
      (hnests : s.Nests (limit - (calls.length + 1)) v) : Cause limit s (call :: calls) .tooDeep
  | division {serial : Nat} {p : Primitive} {name : String} {args : Value} {calls : List Call}
      {x : Int} (hp : p = .div ∨ p = .mod) (hx : (s.car args).num? = some x)
      (hy : (s.car (s.cdr args)).num? = some 0) :
      Cause limit s (.apply (.primitive serial p name) args :: calls) .divisionByZero
  | digits {fn args : Value} {calls : List Call} {n : Int} {serial : Option Nat}
      (hprints : (Call.apply fn args).Prints s fn) (hpart : s.Part fn (.num n serial))
      (hlong : Decimal.bound ≤ n.natAbs) : Cause limit s (.apply fn args :: calls) .numberTooLong

/-- An abort that programs can bring about. -/
def Abort.Ordinary : Abort → Prop
  | tooDeep | divisionByZero | numberTooLong => True
  | _ => False

theorem Abort.Ordinary.cases {abort : Abort} (h : abort.Ordinary) :
    abort = .divisionByZero ∨ abort = .numberTooLong ∨ abort = .tooDeep := by
  cases abort with
  | tooDeep | divisionByZero | numberTooLong => simp
  | _ => exact h.elim

theorem Cause.ordinary {limit : Nat} {s : Store} {calls : List Call} {abort : Abort}
    (h : Cause limit s calls abort) : abort.Ordinary := by
  cases h with
  | calls | nesting | division | digits => trivial

/-- The calls in progress stay within the limit, and an abort that ends a line has a cause. -/
structure Moment.Justified (limit : Nat) (m : Moment) (earlier : List Moment) : Prop where
  within : m.callersAfter.length ≤ limit
  cause : ∀ abort, m.deed = .ended (.error abort) →
    Cause limit m.store ((Moment.inProgress earlier).map Caller.call) abort

namespace Layout

variable {L M : Layout} {s : Store}

/-- The second list is a tail of the first, which is the list of bindings of a frame. -/
inductive Tail (L : Layout) : Value → Value → Prop
  | refl (v : Value) : Tail L v v
  | cons {place : Nat} {binding rest v : Value} (hrole : L.role place = some (.frame binding rest))
      (htail : Tail L rest v) : Tail L (.pair place) v

theorem Tail.mono {v w : Value} (h : L.Settles M) (htail : L.Tail v w) : M.Tail v w := by
  induction htail with
  | refl v => exact .refl v
  | cons hrole _ ih => exact .cons (h.role hrole rfl) ih

theorem Tail.trans {u v w : Value} (h : L.Tail u v) (h' : L.Tail v w) : L.Tail u w := by
  induction h with
  | refl => exact h'
  | cons hrole _ ih => exact .cons hrole (ih h')

theorem Settles.trans {K : Layout} (h : K.Settles L) (h' : L.Settles M) : K.Settles M :=
  ⟨h.vocabulary.trans h'.vocabulary, h.home.trans h'.home, fun hform => h'.form (h.form hform),
    fun hrole hdraft => h'.role (h.role hrole hdraft) hdraft, fun hends => h'.ends (h.ends hends)⟩

/-- A local environment, the first frame of which binds values and no errors. -/
def Bound (L : Layout) (s : Store) (env : Value) : Prop :=
  ∃ place frame outer bindings, env = .pair place ∧ L.role place = some (.scope frame outer) ∧
    L.Frame frame bindings ∧ L.Env outer ∧ ∀ binding ∈ bindings, L.Data (s.cdr (.pair binding))

theorem Bound.env {env : Value} (h : L.Bound s env) : L.Env env := by
  obtain ⟨place, frame, outer, bindings, rfl, hrole, hframe, ⟨frames, houter⟩, -⟩ := h
  exact ⟨bindings :: frames, .cons hrole hframe houter⟩

/-- What the layout knows of the values and the environment that a call is made on. -/
def Takes (L : Layout) (s : Store) : Call → Prop
  | .read _ | .readUntilClose _ => True
  | .evaluate form env => (L.Script form ∧ L.Given form) ∧ L.Env env
  | .evaluateAll forms env => L.Code forms ∧ L.Env env
  | .special _ args env => (L.Script args ∧ L.Given args) ∧ L.Env env
  | .apply fn args => L.Outcome fn ∧ L.Outcome args
  | .enter params body env args => L.Code params ∧ L.Code body ∧ L.Env env ∧ L.Data args
  | .body forms env => L.Code forms ∧ L.Bound s env

/-- What the layout knows of the answer of a call.  What is read and what is quoted may hold
errors. -/
def Gives (L : Layout) : Call → Value → Prop
  | .apply .., v => L.Outcome v
  | _, v => L.Matter v

/-- What the layout knows of a deed. -/
def Knows (L : Layout) (s : Store) : Deed → Prop
  | .call made => L.Takes s made
  | .answer made v => L.Gives made v
  | .ended (.ok v) => L.Matter v
  | _ => True

theorem Gives.matter {made : Call} {v : Value} (h : L.Gives made v) : L.Matter v := by
  cases made with
  | apply => exact Outcome.matter h
  | _ => exact h

theorem Takes.values {made : Call} (h : L.Takes s made) {v : Value} (hv : v ∈ made.values) :
    L.Matter v := by
  cases made with
  | read | readUntilClose => simp [Call.values] at hv
  | evaluate | special =>
    obtain rfl := List.mem_singleton.mp hv
    exact h.1.1.matter
  | evaluateAll | body =>
    obtain rfl := List.mem_singleton.mp hv
    exact h.1.data.matter
  | apply fn args =>
    rcases hv with _ | ⟨_, _ | ⟨_, ⟨⟩⟩⟩
    · exact h.1.matter
    · exact h.2.matter
  | enter params body env args =>
    rcases hv with _ | ⟨_, _ | ⟨_, _ | ⟨_, ⟨⟩⟩⟩⟩
    · exact h.1.data.matter
    · exact h.2.1.data.matter
    · exact h.2.2.2.matter

theorem Takes.envs {made : Call} (h : L.Takes s made) {env : Value} (henv : env ∈ made.envs) :
    L.Env env := by
  cases made with
  | read | readUntilClose | apply => simp [Call.envs] at henv
  | evaluate | special | evaluateAll =>
    obtain rfl := List.mem_singleton.mp henv
    exact h.2
  | body =>
    obtain rfl := List.mem_singleton.mp henv
    exact h.2.env
  | enter =>
    obtain rfl := List.mem_singleton.mp henv
    exact h.2.2.1

theorem Knows.values {d : Deed} (h : L.Knows s d) {v : Value} (hv : v ∈ d.values) :
    L.Matter v := by
  cases d with
  | call made => exact Takes.values h hv
  | answer made w =>
    obtain rfl := List.mem_singleton.mp hv
    exact Gives.matter h
  | ended result =>
    cases result with
    | ok w =>
      obtain rfl := List.mem_singleton.mp hv
      exact h
    | error => simp [Deed.values] at hv
  | line | change => simp [Deed.values] at hv

theorem Knows.envs {d : Deed} (h : L.Knows s d) {env : Value} (henv : env ∈ d.envs) :
    L.Env env := by
  cases d with
  | call made => exact Takes.envs h henv
  | line | change | answer | ended => simp [Deed.envs] at henv

/-- The changes that may be made: a new binding in front of the global frame, by a definition
or by an assignment to a name without a binding; a new value of a binding, by an assignment;
and another turn of a draft that is younger than the calls in progress.  An error is put into a
pair only by the reader, to quote it, and by an assignment, as the value of the name. -/
def Allows (L : Layout) (m : Moment) : Change → Prop
  | .cons a d =>
    (a.isError = true → ∃ text, m.current = some (.read text)) ∧
      (d.isError = true → ∃ args env, m.current = some (.special .assign args env) ∧
        a = m.store.car args)
  | .setCar v frame =>
    v = .pair L.home ∧ ∃ place binding name value,
      frame = .pair place ∧ m.Fresh place ∧ m.Fresh binding ∧
      m.store.cell? frame = some ⟨.pair binding, m.store.car v⟩ ∧
      m.store.cell? (.pair binding) = some ⟨name, value⟩ ∧ m.Defines name
  | .setCdr v w =>
    (∃ place name, v = .pair place ∧ L.role place = some (.binding name) ∧ m.Assigns v) ∨
      ∃ place a d, v = .pair place ∧ L.role place = some (.draft a d) ∧ m.Fresh place ∧
        w.isError = false
  | .error fault => ∀ printed, fault ≠ .notEvaluable printed
  | .number _ | .closure .. => True

/-- A pair without errors in its fields may be made at any time. -/
theorem allows_cons {m : Moment} {a d : Value} (ha : a.isError = false) (hd : d.isError = false) :
    L.Allows m (.cons a d) := by
  constructor
  · simp [ha]
  · simp [hd]

/-- What a layout says of a moment. -/
structure Vouches (L : Layout) (m : Moment) : Prop where
  kept : L.Kept m.store
  knows : L.Knows m.store m.deed
  allows : ∀ change, m.deed = .change change → L.Allows m change

/-- The layout `old` of an earlier store has settled into this one, and the global frame has
only grown since. -/
structure Recalls (L : Layout) (frame : Value) (s : Store) (old : Layout) : Prop where
  settles : old.Settles L
  kept : old.Kept s
  tail : L.Tail frame (old.globalFrame s)

theorem Recalls.mono {frame frame' : Value} {s : Store} {old : Layout} (h : L.Settles M)
    (htail : M.Tail frame' frame) (hold : L.Recalls frame s old) : M.Recalls frame' s old :=
  ⟨hold.settles.trans h, hold.kept, htail.trans (hold.tail.mono h)⟩

end Layout

/-- How a session begins, and the nesting limit of its lines. -/
structure Opening where
  layout : Layout
  store : Store
  limit : Nat

/-- The form has been read for a line. -/
def Moment.Answered (moments : List Moment) (form : Value) : Prop :=
  ∃ m ∈ moments, m.callers = [] ∧ ∃ text, m.deed = .answer (.read text) form

/-- Every form that is a pair is a list: `nil` stands at its end. -/
def Layout.ReadsLists (L : Layout) : Prop :=
  ∀ place, L.form (.pair place) → L.Within (.pair place) .nil

/-- The layout of a store recalls the opening and the moments before. -/
structure Layout.Oversees (L : Layout) (o : Opening) (s : Store) (earlier : List Moment) :
    Prop where
  kept : L.Kept s
  opening : L.Recalls (L.globalFrame s) o.store o.layout
  past : ∀ m ∈ earlier, ∃ old : Layout, old.Vouches m ∧ L.Recalls (L.globalFrame s) m.store old
  forms : ∀ form, L.form form → o.layout.form form ∨ Moment.Answered earlier form
  lists : L.ReadsLists

/-- Each moment begins in the store that the one before has left, has a layout of its own and is
justified. -/
def Accounted (o : Opening) : List Moment → Prop
  | [] => True
  | m :: earlier =>
    m.store = Moment.storeAfter o.store earlier ∧
      (∃ L : Layout, L.Vouches m ∧ L.Oversees o m.store earlier) ∧
      m.Justified o.limit earlier ∧ Accounted o earlier

theorem Moment.Answered.cons {earlier : List Moment} {form : Value}
    (h : Moment.Answered earlier form) (m : Moment) : Moment.Answered (m :: earlier) form := by
  obtain ⟨m', hmem, hanswer⟩ := h
  exact ⟨m', List.mem_cons_of_mem m hmem, hanswer⟩

namespace Layout

variable {L M : Layout} {o : Opening}

/-- A layout that has settled without new forms recalls what the layout before recalls. -/
theorem Oversees.mono {s s' : Store} {earlier : List Moment} (h : L.Oversees o s earlier)
    (hsettles : L.Settles M) (hform : M.form = L.form) (hkept : M.Kept s')
    (htail : M.Tail (M.globalFrame s') (M.globalFrame s)) : M.Oversees o s' earlier := by
  rw [globalFrame_eq hsettles s] at htail
  refine ⟨hkept, h.opening.mono hsettles htail, fun m hmem => ?_, hform ▸ h.forms,
    fun place hplace => (h.lists place (hform ▸ hplace)).mono hsettles⟩
  obtain ⟨old, hvouches, hrecalls⟩ := h.past m hmem
  exact ⟨old, hvouches, hrecalls.mono hsettles htail⟩

theorem Oversees.cons {m : Moment} {earlier : List Moment} (h : L.Oversees o m.store earlier)
    (hm : L.Vouches m) : L.Oversees o m.store (m :: earlier) := by
  refine ⟨h.kept, h.opening, fun m' hmem => ?_,
    fun form hform => (h.forms form hform).imp_right (·.cons m), h.lists⟩
  rcases List.mem_cons.mp hmem with rfl | hmem
  · exact ⟨L, hm, settles_refl, hm.kept, .refl _⟩
  · exact h.past m' hmem

/-- A form that has been read is learned. -/
theorem Oversees.learn {s : Store} {earlier : List Moment} (h : L.Oversees o s earlier)
    {form : Value} (hform : Moment.Answered earlier form)
    (hlist : form.isPlace = true → L.Within form .nil) : (L.learn form).Oversees o s earlier := by
  have hsettles := settles_of_le (L.le_learn form)
  refine ⟨h.kept.learn form, h.opening.mono hsettles (.refl _), fun m hmem => ?_, ?_, ?_⟩
  · obtain ⟨old, hvouches, hrecalls⟩ := h.past m hmem
    exact ⟨old, hvouches, hrecalls.mono hsettles (.refl _)⟩
  · rintro v (hv | rfl)
    · exact h.forms v hv
    · exact .inr hform
  · rintro place (hv | rfl)
    · exact (h.lists place hv).mono hsettles
    · exact (hlist rfl).mono hsettles

/-- Where a pair is given, `nil` is: the form that it is part of is a list. -/
theorem Given.nil (h : L.ReadsLists) {place : Nat} (hv : L.Given (.pair place)) :
    L.Given .nil := by
  obtain ⟨whole, hform, hwithin⟩ := hv
  cases whole with
  | pair place => exact ⟨_, hform, h place hform⟩
  | _ => simpa [Value.isPlace] using hwithin.isPlace rfl

end Layout

namespace Chronicle

/-- The chronicle agrees with a layout now and has agreed with one at each moment. -/
structure Sound (c : Chronicle) (o : Opening) (L : Layout) (callers : List Caller) : Prop where
  oversees : L.Oversees o c.state.store c.moments
  now : c.state.store = Moment.storeAfter o.store c.moments
  accounted : Accounted o c.moments
  older : ∀ caller ∈ callers, caller.store.size ≤ c.state.store.size
  current : Moment.inProgress c.moments = callers
  within : callers.length ≤ o.limit

variable {L M : Layout} {o : Opening} {c : Chronicle} {callers : List Caller}

theorem Sound.kept (h : c.Sound o L callers) : L.Kept c.state.store :=
  h.oversees.kept

/-- A moment without a change is added, and some of the calls may have come to their end. -/
theorem Sound.record (h : c.Sound o L callers) {fewer : List Caller} (hfewer : fewer <:+ callers)
    {d : Deed} (hknows : L.Knows c.state.store d) (hcall : ∀ made, d ≠ .call made)
    (hchange : ∀ change, d ≠ .change change)
    (hcause : ∀ abort, d = .ended (.error abort) →
      Cause o.limit c.state.store (callers.map Caller.call) abort) :
    (c.record fewer d).Sound o L fewer := by
  have hvouches : L.Vouches ⟨fewer, c.state.store, d⟩ :=
    ⟨h.kept, hknows, fun change hd => absurd hd (hchange change)⟩
  have hafter : c.state.store = d.after c.state.store := by
    cases d with
    | change d => exact absurd rfl (hchange d)
    | line | call | answer | ended => rfl
  have hcallers : Moment.callersAfter ⟨fewer, c.state.store, d⟩ = fewer := by
    cases d with
    | call made => exact absurd rfl (hcall made)
    | line | change | answer | ended => rfl
  have hwithin := Nat.le_trans hfewer.length_le h.within
  have hjustified : Moment.Justified o.limit ⟨fewer, c.state.store, d⟩ c.moments := by
    constructor
    · rw [hcallers]
      exact hwithin
    · rw [h.current]
      exact hcause
  exact ⟨h.oversees.cons hvouches, hafter, ⟨h.now, ⟨L, hvouches, h.oversees⟩, hjustified,
    h.accounted⟩, fun caller hmem => h.older caller (hfewer.subset hmem), hcallers, hwithin⟩

/-- A change that the layout allows is made. -/
theorem Sound.change (h : c.Sound o L callers) {d : Change}
    (hallows : L.Allows ⟨callers, c.state.store, .change d⟩ d) (hsettles : L.Settles M)
    (hform : M.form = L.form) (hkept : M.Kept (d.perform c.state.store).2)
    (htail : M.Tail (M.globalFrame (d.perform c.state.store).2) (M.globalFrame c.state.store))
    (hsize : c.state.store.size ≤ (d.perform c.state.store).2.size) :
    ((c.record callers (.change d)).withStore (d.perform c.state.store).2).Sound o M callers := by
  have hvouches : L.Vouches ⟨callers, c.state.store, .change d⟩ := by
    refine ⟨h.kept, trivial, fun change hchange => ?_⟩
    obtain rfl := Deed.change.inj hchange
    exact hallows
  -- The moment keeps the layout before the change; the chronicle goes on with the one after it.
  exact ⟨(h.oversees.cons hvouches).mono hsettles hform hkept htail, rfl,
    ⟨h.now, ⟨L, hvouches, h.oversees⟩, ⟨h.within, nofun⟩, h.accounted⟩,
    fun caller hmem => Nat.le_trans (h.older caller hmem) hsize, rfl, h.within⟩

/-- The layout may settle at any time. -/
theorem Sound.settles (h : c.Sound o L callers) (hsettles : L.Settles M) (hform : M.form = L.form)
    (hkept : M.Kept c.state.store) : c.Sound o M callers :=
  ⟨h.oversees.mono hsettles hform hkept (.refl _), h.now, h.accounted, h.older, h.current,
    h.within⟩

/-- The layout may learn a form that has been read. -/
theorem Sound.learn (h : c.Sound o L callers) {form : Value}
    (hform : Moment.Answered c.moments form)
    (hlist : form.isPlace = true → L.Within form .nil) : c.Sound o (L.learn form) callers :=
  ⟨h.oversees.learn hform hlist, h.now, h.accounted, h.older, h.current, h.within⟩

theorem Sound.withLog (h : c.Sound o L callers) (log : Log) :
    Sound { c with state.log := log } o L callers :=
  ⟨h.oversees, h.now, h.accounted, h.older, h.current, h.within⟩

/-- A call begins. -/
theorem Sound.call (h : c.Sound o L callers) {made : Call}
    (hknows : L.Knows c.state.store (.call made)) (hlimit : callers.length < o.limit) :
    (c.record callers (.call made)).Sound o L (⟨made, c.state.store⟩ :: callers) := by
  have hvouches : L.Vouches ⟨callers, c.state.store, .call made⟩ := ⟨h.kept, hknows, nofun⟩
  refine ⟨h.oversees.cons hvouches, rfl,
    ⟨h.now, ⟨L, hvouches, h.oversees⟩, ⟨hlimit, nofun⟩, h.accounted⟩, fun caller hmem => ?_, rfl,
    hlimit⟩
  -- The new call begins in the store of now, and the others have begun before.
  rcases List.mem_cons.mp hmem with rfl | hmem
  · exact Nat.le_refl _
  · exact h.older caller hmem

end Chronicle

end ConsLisp
