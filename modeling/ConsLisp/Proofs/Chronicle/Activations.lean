import ConsLisp.Proofs.Chronicle
import ConsLisp.Proofs.Store.Frames

/-!
# Activations of closures

Whenever a closure is called, a frame of new pairs is made, and the body begins in an environment
with this frame in front.  Between the beginning of the call and that of the body nothing else is
called, so the frame is newer than all that has been made for earlier calls.

Main statements: the chronicle of a session is ordered (`session_ordered`), and in an ordered
chronicle no two bodies begin with a binding in common (`Ordered.disjoint`).
-/

namespace ConsLisp

/-- No change makes a store smaller. -/
theorem Change.size_perform (d : Change) (s : Store) : s.size ≤ (d.perform s).2.size := by
  cases d with
  | cons a d => exact (Store.KeepsExcept.cons s a d).size
  | setCar v a => exact Nat.le_of_eq (s.size_setCar v a).symm
  | setCdr v d => exact Nat.le_of_eq (s.size_setCdr v d).symm
  | number | error | closure => exact Nat.le_refl _

/-- The body of a closure begins. -/
def Moment.IsBody (m : Moment) : Prop :=
  ∃ forms env, m.deed = .call (.body forms env)

/-- The first frame of an environment is a list of bindings, all of them made after every body so
far has begun. -/
def Store.NewSince (s : Store) (earlier : List Moment) (env : Value) : Prop :=
  ∃ bindings : List Nat, s.IsList (s.car env) (bindings.map .pair) ∧
    ∀ binding ∈ bindings, binding < s.size ∧
      ∀ m ∈ earlier, m.IsBody → m.store.size ≤ binding

/-- A frame that has been made since then, in front of an environment. -/
theorem Store.NewFrame.newSince {first s : Store} {frame : Value} {places bindings : List Nat}
    {pairs : List (Value × Value)} (h : first.NewFrame s frame places bindings pairs) (env : Value)
    {earlier : List Moment} (hearlier : ∀ m ∈ earlier, m.IsBody → m.store.size ≤ first.size) :
    (s.cons frame env).2.NewSince earlier (.pair s.size) := by
  have hkeeps : KeepsExcept [] s (s.cons frame env).2 := .cons ..
  have hcar : (s.cons frame env).2.car (.pair s.size) = frame := by
    rw [car, cell?_cons_self]
    rfl
  refine ⟨bindings, hcar.symm ▸ ⟨places, h.links.keep hkeeps (by simp) rfl⟩,
    fun binding hmem => ?_⟩
  have hmem' : binding ∈ places ++ bindings := List.mem_append_right _ hmem
  refine ⟨Nat.lt_of_lt_of_le (h.lt_size hmem') hkeeps.size, fun m hm hbody => ?_⟩
  exact Nat.le_trans (hearlier m hm hbody) (h.fresh binding hmem')

namespace Chronicle

open Watched

/-- The store has only grown, and each body has begun with a new frame. -/
structure Ordered (c : Chronicle) : Prop where
  size : ∀ m ∈ c.moments, m.store.size ≤ c.state.store.size
  frames : ∀ m earlier, m :: earlier <:+ c.moments → ∀ forms env,
    m.deed = .call (.body forms env) → m.store.NewSince earlier env

namespace Ordered

variable {c : Chronicle}

/-- A moment is written down; if a body begins, then with a new frame. -/
theorem record (h : c.Ordered) (callers : List Caller) {d : Deed}
    (hframe : ∀ forms env, d = .call (.body forms env) →
      c.state.store.NewSince c.moments env) : (c.record callers d).Ordered := by
  constructor
  case size => exact List.forall_mem_cons.mpr ⟨Nat.le_refl _, h.size⟩
  case frames =>
    intro m earlier hsuffix
    rcases List.suffix_cons_iff.mp hsuffix with heq | hsuffix
    · obtain ⟨rfl, rfl⟩ := List.cons_eq_cons.mp heq
      exact hframe
    · exact h.frames m earlier hsuffix

theorem withStore (h : c.Ordered) {s : Store} (hsize : c.state.store.size ≤ s.size) :
    (c.withStore s).Ordered :=
  ⟨fun m hmem => Nat.le_trans (h.size m hmem) hsize, h.frames⟩

/-- No two bodies begin with a binding in common. -/
theorem disjoint (h : c.Ordered) {m m' : Moment} {earlier : List Moment}
    (hsuffix : m :: earlier <:+ c.moments) (hmem : m' ∈ earlier) {forms env forms' env' : Value}
    (hbody : m.deed = .call (.body forms env)) (hbody' : m'.deed = .call (.body forms' env')) :
    ∃ bindings bindings', m.store.IsList (m.store.car env) bindings ∧
      m'.store.IsList (m'.store.car env') bindings' ∧ bindings.Disjoint bindings' := by
  obtain ⟨between, before, rfl⟩ := List.append_of_mem hmem
  have hsuffix' : m' :: before <:+ c.moments := by
    have hrest : m' :: before <:+ m :: (between ++ m' :: before) :=
      (List.suffix_append ..).trans (List.suffix_cons ..)
    exact hrest.trans hsuffix
  obtain ⟨bindings, hlist, hnew⟩ := h.frames m _ hsuffix forms env hbody
  obtain ⟨bindings', hlist', hold⟩ := h.frames m' _ hsuffix' forms' env' hbody'
  refine ⟨_, _, hlist, hlist', fun binding hin hin' => ?_⟩
  -- What the earlier body begins with is older than what the later one begins with.
  obtain ⟨place, hplace, rfl⟩ := List.mem_map.mp hin
  obtain ⟨place', hplace', heq⟩ := List.mem_map.mp hin'
  obtain rfl := Value.pair.inj heq
  have hle := (hnew _ hplace).2 m' hmem ⟨forms', env', hbody'⟩
  have hlt := (hold _ hplace').1
  omega

end Ordered

theorem after_bind {α β : Type} (a : Watched α) (f : α → Watched β) (callers : List Caller)
    (c : Chronicle) :
    after ((a >>= f) callers c) =
      match a callers c with
      | .ok x c' => after (f x callers c')
      | .error _ c' => c' := by
  simp only [Bind.bind, ReaderT.bind, EStateM.bind]
  cases a callers c with
  | ok x c' => rfl
  | error abort c' => rfl

/-! ## Programs in which no body begins -/

/-- While the program runs, no body begins. -/
def Quiet {α : Type} (a : Watched α) : Prop :=
  ∀ callers c, ∀ m ∈ (after (a callers c)).moments, m.IsBody → m ∈ c.moments

namespace Quiet

variable {α β : Type}

theorem bind {a : Watched α} {f : α → Watched β} (ha : Quiet a) (hf : ∀ x, Quiet (f x)) :
    Quiet (a >>= f) := by
  intro callers c m hmem hbody
  have hac := ha callers c m
  rw [after_bind] at hmem
  cases hrun : a callers c with
  | ok x c' =>
    simp only [hrun, after] at hmem hac
    exact hac (hf x callers c' m hmem hbody) hbody
  | error abort c' =>
    simp only [hrun, after] at hmem hac
    exact hac hmem hbody

theorem change (d : Change) : Quiet (Machine.change d) := by
  intro callers c m hmem hbody
  rcases List.mem_cons.mp hmem with rfl | hmem
  · obtain ⟨forms, env, hdeed⟩ := hbody
    cases hdeed
  · exact hmem

/-- The steps that programs take one after the other. -/
def steps : Machine.Steps Watched Watched where
  Rel a _ := Quiet a
  pure _ _ _ _ hmem _ := hmem
  throw _ _ _ _ hmem _ := hmem
  bind := bind
  look _ _ _ _ hmem _ := hmem
  change := change
  note _ _ _ _ hmem _ := hmem

end Quiet

/-! ## Programs that keep a chronicle ordered -/

/-- The program leads from an ordered chronicle to an ordered one. -/
def Orderly {α : Type} (a : Watched α) : Prop :=
  ∀ callers c, c.Ordered → (after (a callers c)).Ordered

/-- The program does so if the first frame of the environment is new. -/
def OrderlyIn (env : Value) (a : Watched Value) : Prop :=
  ∀ callers c, c.Ordered → c.state.store.NewSince c.moments env → (after (a callers c)).Ordered

namespace Orderly

variable {α β : Type} {depth : Nat}

theorem bind {a : Watched α} {f : α → Watched β} (ha : Orderly a) (hf : ∀ x, Orderly (f x)) :
    Orderly (a >>= f) := by
  intro callers c h
  have hac := ha callers c h
  rw [after_bind]
  cases hrun : a callers c with
  | ok x c' =>
    rw [hrun] at hac
    exact hf x callers c' hac
  | error abort c' =>
    rw [hrun] at hac
    exact hac

theorem change (d : Change) : Orderly (Machine.change d) :=
  fun callers _ h => (h.record callers (d := .change d) nofun).withStore (d.size_perform _)

/-- The steps that programs take one after the other. -/
def steps : Machine.Steps Watched Watched where
  Rel a _ := Orderly a
  pure _ _ _ h := h
  throw _ _ _ h := h
  bind := bind
  look _ _ _ h := h
  change := change
  note _ _ _ h := ⟨h.size, h.frames⟩

theorem after_nested {call : Call} {value : α → Value} {a : Watched α} {callers : List Caller}
    {c : Chronicle}
    (h : (after (a (⟨call, c.state.store⟩ :: callers) (c.record callers (.call call)))).Ordered) :
    (after ((Machine.nested call value a : Watched α) callers c)).Ordered := by
  simp only [Machine.nested]
  cases hrun : a (⟨call, c.state.store⟩ :: callers) (c.record callers (.call call)) with
  | ok x c' =>
    rw [hrun] at h
    exact h.record callers nofun
  | error abort c' =>
    rw [hrun] at h
    exact h

/-- A nested call that is not the beginning of a body. -/
theorem nested {call : Call} {value : α → Value} {a : Watched α} (ha : Orderly a)
    (hcall : ∀ forms env, call ≠ .body forms env) : Orderly (Machine.nested call value a) := by
  intro callers c h
  refine after_nested (ha _ _ (h.record callers fun forms env hd => ?_))
  exact absurd (Deed.call.inj hd) (hcall forms env)

/-- A body begins with a new frame. -/
theorem nestedBody {forms env : Value} {a : Watched Value} (ha : Orderly a) :
    OrderlyIn env (Machine.nested (.body forms env) id a) := by
  intro callers c h hnew
  refine after_nested (ha _ _ (h.record callers fun forms' env' hd => ?_))
  obtain ⟨rfl, rfl⟩ := Call.body.inj (Deed.call.inj hd)
  exact hnew

theorem noteValue (depth : Nat) (event : String → Event) (v : Value) :
    Orderly (noteValue depth event v) := by
  refine bind (fun _ _ h => h) fun kept => ?_
  cases kept with
  | false => exact steps.pure ()
  | true => exact bind (steps.ask _) fun _ => steps.note _

/-- The frame is made, and then the body begins with it. -/
theorem enter {params body env args : Value}
    (hbody : ∀ inner, OrderlyIn inner (evaluateBody depth body inner)) :
    Orderly (enter (depth + 1) params body env args) := by
  unfold ConsLisp.enter
  refine nested (fun callers c h => ?_) (by simp)
  have hzip := steps.zip params args callers c h
  have hquiet := Quiet.steps.zip params args callers c
  have hwatch := (Watches.relation.zip params args).run callers c
  rw [after_bind]
  cases hrun : (Action.zip params args : Watched Value) callers c with
  | error abort c₁ =>
    rw [hrun] at hzip
    exact hzip
  | ok frame c₁ =>
    simp only [hrun, after] at hzip hquiet hwatch
    obtain ⟨places, bindings, pairs, hframe⟩ := Action.zip_fresh hwatch
    let s₂ := (c₁.state.store.cons frame env).2
    let c₂ := (c₁.record callers (.change (.cons frame env))).withStore s₂
    have hordered : c₂.Ordered :=
      (hzip.record callers (d := .change (.cons frame env)) (by simp)).withStore
        (Change.size_perform (.cons frame env) _)
    refine hbody (.pair c₁.state.store.size) callers c₂ hordered
      (hframe.newSince env fun m hmem hmbody => ?_)
    -- No body has begun since the call.
    rcases List.mem_cons.mp hmem with rfl | hmem
    · obtain ⟨forms, env, hdeed⟩ := hmbody
      cases hdeed
    · exact h.size m (hquiet m hmem hmbody)

/-! ## The evaluator -/

/-- The evaluator is orderly with this number of nested calls left. -/
structure Evaluation (depth : Nat) : Prop where
  evaluate (form env : Value) : Orderly (ConsLisp.evaluate depth form env)
  evaluateAll (forms env : Value) : Orderly (ConsLisp.evaluateAll depth forms env)
  special (special : Special) (args env : Value) : Orderly (evaluateSpecial depth special args env)
  apply (fn args : Value) : Orderly (ConsLisp.apply depth fn args)
  enter (params body env args : Value) : Orderly (ConsLisp.enter depth params body env args)
  body (forms env : Value) : OrderlyIn env (evaluateBody depth forms env)

theorem evaluation (depth : Nat) : Evaluation depth := by
  induction depth with
  | zero =>
    exact ⟨fun _ _ => steps.throw _, fun _ _ => steps.throw _, fun _ _ _ => steps.throw _,
      fun _ _ => steps.throw _, fun _ _ _ _ => steps.throw _, fun _ _ _ _ h _ => h⟩
  | succ depth ih =>
    have hprint (v : Value) : Orderly (Action.print depth v) := steps.ask _
    constructor
    case evaluate =>
      exact fun form env => steps.evaluate depth depth (fun h => nested h nofun) (ih.evaluate · env)
        (ih.evaluateAll · env) (ih.special · · env) ih.apply hprint
    case evaluateAll =>
      exact fun forms env =>
        steps.evaluateAll depth depth (fun h => nested h nofun) (ih.evaluate · env)
    case special =>
      exact fun special args env => steps.special depth depth (P := fun a _ => Orderly a)
        (fun h => nested h nofun) (ih.evaluate · env) fun _ event v _ => noteValue depth event v
    case apply =>
      exact fun fn args =>
        steps.apply depth depth (fun h => nested h nofun) (ih.enter · · · args) hprint
    case enter => exact fun params body env args => enter (ih.body body)
    case body =>
      exact fun forms env => steps.body depth depth (P := fun a _ => OrderlyIn env a) nestedBody
        (ih.evaluate · env)

theorem reading (depth : Nat) :
    (∀ text, Orderly (Form.readForm depth text)) ∧
      ∀ text, Orderly (Form.readUntilClose depth text) := by
  induction depth with
  | zero => exact ⟨fun _ => steps.throw _, fun _ => steps.throw _⟩
  | succ depth ih =>
    exact ⟨fun _ => steps.readForm depth depth (fun h => nested h nofun) ih.1 ih.2,
      fun _ => steps.readUntilClose depth depth (fun h => nested h nofun) ih.1⟩

theorem evalLine (limit : Nat) (env : Value) (text : List Char) :
    Orderly (Action.evalLine limit env text) :=
  bind ((reading limit).1 text) fun (form, _) => (evaluation limit).evaluate form env

end Orderly

/-! ## Sessions -/

variable {c : Chronicle}

theorem Ordered.line (h : c.Ordered) (limit : Nat) (globals : Value) (text : List Char) :
    (c.line limit globals text).2.Ordered := by
  have hrun := Orderly.evalLine limit globals text [] _ (h.record [] (d := .line text) nofun)
  unfold Chronicle.line
  cases hanswer : (Action.evalLine limit globals text : Watched Value) []
      (c.record [] (.line text)) with
  | ok v c' =>
    rw [hanswer] at hrun
    exact hrun.record [] nofun
  | error abort c' =>
    rw [hanswer] at hrun
    exact hrun.record [] nofun

theorem Ordered.lines (h : c.Ordered) (limit : Nat) (globals : Value)
    (texts : List (List Char)) : (c.lines limit globals texts).2.Ordered := by
  induction texts generalizing c with
  | nil => exact h
  | cons text texts ih => exact ih (h.line limit globals text)

/-- In a session each body begins with a new frame. -/
theorem session_ordered (log : Log) (limit : Nat) (texts : List (List Char)) :
    (session log limit texts).2.Ordered := by
  have hstart : Ordered ⟨(Interpreter.new log).state, []⟩ :=
    ⟨fun m hmem => absurd hmem List.not_mem_nil, fun m earlier hsuffix => by simp at hsuffix⟩
  exact hstart.lines limit _ texts

end Chronicle

end ConsLisp
