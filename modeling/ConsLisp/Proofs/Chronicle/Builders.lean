import ConsLisp.Proofs.Chronicle.Pauses

/-!
# The builders of lists

A builder puts each new pair in front of a chain of its own, and at the end it turns this chain
around.  It overwrites no other pairs then, since a chain of its own pairs leads to no others.

Main statements: each of the four builders keeps its chronicle enclosed, and answers with a chain of
pairs of its own (`Guides.zip`, `Guides.listBefore`, `Guides.collect`, `Guides.readEach`).
-/

namespace ConsLisp

namespace Builder

/-- The value is a list of pairs that the builder has made, and the region outside is as `R`
says. -/
structure Holds (b : Builder) (R : Set Nat → Prop) (v : Value) (c : Chronicle) : Prop where
  chain : ∃ places elements, c.state.store.Links v places elements .nil ∧
    ∀ place ∈ places, place ∈ b.made c.moments
  region : R (b.outside c)

/-- All of these values lie in the region. -/
def Includes (vs : List Value) (region : Set Nat) : Prop :=
  ∀ v ∈ vs, v.Within region

/-- From a chronicle that encloses the builder, in which `pre` holds, the builder leads by this
program to one of the same kind, and then its answer is as `post` says. -/
structure Guides (b : Builder) {α : Type} (pre : Chronicle → Prop) (a : Watched α)
    (post : α → Chronicle → Prop) : Prop where
  run (c : Chronicle) (h : b.Encloses c) (hpre : pre c) :
    match a b.callers c with
    | .ok x c' => b.Encloses c' ∧ post x c'
    | .error _ c' => b.Encloses c'

variable {b : Builder} {R : Set Nat → Prop} {α β : Type} {pre pre' : Chronicle → Prop}
  {post post' : α → Chronicle → Prop}

/-- A pair in front of the list, which has been the end of it. -/
theorem Holds.cons {done : Value} {c : Chronicle} (h : b.Holds R done c) (a : Value) :
    b.Holds R (.pair c.state.store.size) (b.perform (.cons a done) c) := by
  obtain ⟨⟨places, elements, hlinks, hmade⟩, hregion⟩ := h
  have hkeeps : Store.KeepsExcept [] c.state.store (c.state.store.cons a done).2 := .cons ..
  have hlonger : (c.state.store.cons a done).2.Links (.pair c.state.store.size)
      (c.state.store.size :: places) (a :: elements) .nil :=
    .next (Store.cell?_cons_self ..) (hlinks.keep hkeeps (by simp) rfl)
  refine ⟨⟨_, _, hlonger, fun place hplace => ?_⟩, ?_⟩
  · rw [made_makes, Set.mem_insert_iff]
    exact (List.mem_cons.mp hplace).imp_right (hmade place)
  · rwa [outside_makes]

/-- A pair beside the list. -/
theorem Holds.beside {done : Value} {c : Chronicle} (h : b.Holds R done c) (a d : Value) :
    b.Holds R done (b.perform (.cons a d) c) := by
  obtain ⟨⟨places, elements, hlinks, hmade⟩, hregion⟩ := h
  have hkeeps : Store.KeepsExcept [] c.state.store (c.state.store.cons a d).2 := .cons ..
  refine ⟨⟨places, elements, hlinks.keep hkeeps (by simp) rfl, fun place hplace => ?_⟩, ?_⟩
  · rw [made_makes]
    exact .inr (hmade place hplace)
  · rwa [outside_makes]

namespace Guides

open Machine

/-! ## Single steps -/

theorem pure {x : α} (hx : ∀ c, pre c → post x c) : b.Guides pre (Pure.pure x) post :=
  ⟨fun c h hpre => ⟨h, hx c hpre⟩⟩

theorem throw (abort : Abort) : b.Guides pre (MonadExcept.throw abort : Watched α) post :=
  ⟨fun _ h _ => h⟩

theorem bind {a : Watched α} {f : α → Watched β} {post' : β → Chronicle → Prop}
    (ha : b.Guides pre a post) (hf : ∀ x, b.Guides (post x) (f x) post') :
    b.Guides pre (a >>= f) post' := by
  refine ⟨fun c h hpre => ?_⟩
  have hrun := ha.run c h hpre
  simp only [Bind.bind, ReaderT.bind, EStateM.bind]
  cases hanswer : a b.callers c with
  | error abort c' =>
    simp only [hanswer] at hrun
    exact hrun
  | ok x c' =>
    simp only [hanswer] at hrun
    exact (hf x).run c' hrun.1 hrun.2

theorem imp {a : Watched α} (ha : b.Guides pre a post)
    (hpre : ∀ c, b.Encloses c → pre' c → pre c) (hpost : ∀ x c, post x c → post' x c) :
    b.Guides pre' a post' := by
  refine ⟨fun c h hpre' => ?_⟩
  have hrun := ha.run c h (hpre c h hpre')
  cases hanswer : a b.callers c with
  | error abort c' =>
    simp only [hanswer] at hrun
    exact hrun
  | ok x c' =>
    simp only [hanswer] at hrun
    exact ⟨hrun.1, hpost x c' hrun.2⟩

theorem look {f : Store → α} :
    b.Guides pre (look f) fun x c => pre c ∧ x = f c.state.store :=
  ⟨fun _ h hpre => ⟨h, hpre, rfl⟩⟩

theorem ask {f : Store → Except Abort α} :
    b.Guides pre (Action.ask f) fun x c => pre c ∧ f c.state.store = .ok x := by
  apply bind look
  intro result
  cases result with
  | ok x => exact pure fun _ ⟨hpre, hx⟩ => ⟨hpre, hx.symm⟩
  | error abort => exact throw abort

/-- A pair in front of the list. -/
theorem cons (a : Value) {done : Value} :
    b.Guides (b.Holds R done) (Action.cons a done) (b.Holds R) :=
  ⟨fun _ h hdone => ⟨h.makes a done, hdone.cons a⟩⟩

/-- Any pair beside the list. -/
theorem cons_beside (a d : Value) {done : Value} :
    b.Guides (b.Holds R done) (Action.cons a d) fun _ => b.Holds R done :=
  ⟨fun _ h hdone => ⟨h.makes a d, hdone.beside a d⟩⟩

/-- The second field of an own pair is overwritten. -/
theorem setCdr {v : Value} (d : Value)
    (hv : ∀ c, pre c → ∃ place ∈ b.made c.moments, v = .pair place)
    (hregion : ∀ c, pre c → R (b.outside c)) :
    b.Guides pre (Action.setCdr v d) fun _ c => R (b.outside c) := by
  refine ⟨fun c h hpre => ?_⟩
  obtain ⟨place, hplace, rfl⟩ := hv c hpre
  have hregion' := hregion c hpre
  rw [← outside_overwrites b c (.pair place) d] at hregion'
  exact ⟨h.overwrites hplace d, hregion'⟩

/-- Turning a chain of own pairs makes no pair and overwrites no others. -/
theorem reverseOnto (region hidden : Set Nat) (fuel : Nat) (done rest : Value) :
    b.Guides (fun c => b.outside c = region ∧ b.made c.moments = hidden ∧
        ∃ places elements tail, c.state.store.Links rest places elements tail ∧
          ∀ place ∈ places, place ∈ hidden)
      (Action.reverseOnto fuel done rest)
      fun _ c => b.outside c = region ∧ b.made c.moments = hidden := by
  induction fuel generalizing done rest with
  | zero =>
    unfold Action.reverseOnto
    refine bind look fun cell => ?_
    cases cell with
    | none => exact pure fun c hpre => ⟨hpre.1.1, hpre.1.2.1⟩
    | some cell => exact throw _
  | succ fuel ih =>
    constructor
    rintro c h ⟨hregion, hmade, places, elements, tail, hlinks, hown⟩
    unfold Action.reverseOnto
    cases hlinks with
    | done hcell =>
      simp only [Bind.bind, ReaderT.bind, EStateM.bind, Machine.look, hcell]
      exact ⟨h, hregion, hmade⟩
    | @next place a d _ places elements hcell hrest =>
      simp only [Bind.bind, ReaderT.bind, EStateM.bind, Machine.look, hcell]
      have hplace : place ∈ b.made c.moments := hmade ▸ hown place List.mem_cons_self
      have hnot : place ∉ places := (List.nodup_cons.mp (Store.Links.next hcell hrest).nodup).1
      -- The turned pair is not met again, so the rest of the chain stays as it is.
      have hrest' := hrest.keep (.setCdr c.state.store place done)
        (fun other hmem heq => hnot (List.mem_singleton.mp heq ▸ hmem))
        (Store.cell?_setCdr_eq_none hrest.tail_eq_none)
      refine (ih (.pair place) d).run (b.perform (.setCdr (.pair place) done) c)
        (h.overwrites hplace done) ⟨?_, ?_, places, elements, tail, hrest', fun other hmem => ?_⟩
      · rwa [outside_overwrites]
      · rwa [made_overwrites]
      · exact hown other (List.mem_cons_of_mem _ hmem)

/-- The list is turned around, and is one of own pairs again. -/
theorem reverse {v : Value} : b.Guides (b.Holds R v) (Action.reverse v) (b.Holds R) := by
  refine ⟨fun c h ⟨⟨places, elements, hlinks, hmade⟩, hregion⟩ => ?_⟩
  have hturned : b.Guides _ (Action.reverse v) _ := bind look fun size =>
    (reverseOnto (b.outside c) (b.made c.moments) (2 * size) .nil v).imp (fun _ _ h => h.1)
      fun _ _ h => h
  have hrun := hturned.run c h ⟨rfl, rfl, places, elements, .nil, hlinks, hmade⟩
  have hwatch := (Watches.relation.reverse v).run b.callers c
  obtain ⟨list, s', hreverse, hreversed, -⟩ := Action.reverse_of_links hlinks
  cases hanswer : (Action.reverse v : Watched Value) b.callers c with
  | error abort c' =>
    simp only [hanswer] at hrun
    exact hrun
  | ok x c' =>
    simp only [hanswer, hreverse, EStateM.Result.ok.injEq] at hrun hwatch
    obtain ⟨rfl, hstate⟩ := hwatch
    obtain ⟨hencloses, houtside, hmade'⟩ := hrun
    refine ⟨hencloses, ⟨places.reverse, elements.reverse, ?_, fun place hplace => ?_⟩, ?_⟩
    · rw [← hstate]
      exact hreversed
    · rw [hmade']
      exact hmade place (List.mem_reverse.mp hplace)
    · rwa [houtside]

/-- The builder waits for a program that stays outside if these values do. -/
theorem wait {vs : List Value} {done : Value} {a : Watched α} (value : α → Value)
    (ha : ∀ (c : Chronicle) (n : Nat), (∀ v ∈ vs, (⟨b, c⟩ : Pause).Stays n v) →
      (⟨b, c⟩ : Pause).Around n a fun k x => (⟨b, c⟩ : Pause).Stays k (value x)) :
    b.Guides (b.Holds (Includes vs) done) a fun x => b.Holds (Includes (value x :: vs)) done := by
  refine ⟨fun c h ⟨⟨places, elements, hlinks, hmade⟩, hregion⟩ => ?_⟩
  have hrun := (ha c c.state.store.size hregion).run b.callers c (Nat.le_refl _)
    ⟨h, rfl, fun _ _ => rfl⟩ (Nat.le_refl _)
  cases hanswer : a b.callers c with
  | error abort c' =>
    simp only [hanswer] at hrun
    exact hrun
  | ok x c' =>
    simp only [hanswer] at hrun
    obtain ⟨hlasts, hsize, hx⟩ := hrun
    refine ⟨hlasts.encloses, ⟨places, elements, ?_, fun place hplace => ?_⟩, fun v hv => ?_⟩
    · exact hlinks.congr (fun place hplace => hlasts.cell place (hmade place hplace)) rfl
    · rw [hlasts.made]
      exact hmade place hplace
    · rcases List.mem_cons.mp hv with rfl | hv
      · exact hlasts.within hx (Nat.le_refl _)
      · exact hlasts.within (hregion v hv) hsize

/-! ## The builders -/

theorem zipOnto (fuel : Nat) (done keys values : Value) :
    b.Guides (b.Holds R done) (Action.zipOnto fuel done keys values) (b.Holds R) := by
  have hreverse (done keys values : Value) (key value : Option Cell) :
      b.Guides (fun c => (b.Holds R done c ∧ key = c.state.store.cell? keys) ∧
        value = c.state.store.cell? values) (Action.reverse done) (b.Holds R) :=
    reverse.imp (fun _ _ h => h.1.1) fun _ _ h => h
  induction fuel generalizing done keys values with
  | zero =>
    unfold Action.zipOnto
    refine bind look fun key => bind look fun value => ?_
    -- Out of fuel, the walk ends with either list or gives up.
    cases key <;> cases value <;> first | exact throw _ | exact hreverse ..
  | succ fuel ih =>
    unfold Action.zipOnto
    refine bind look fun key => bind look fun value => ?_
    cases key with
    | none => exact hreverse ..
    | some key =>
      cases value with
      | none => exact hreverse ..
      | some value =>
        exact bind ((cons_beside _ _).imp (fun _ _ h => h.1.1) fun _ _ h => h) fun binding =>
          bind (cons binding) fun done => ih done ..

theorem zip (keys values : Value) :
    b.Guides (b.Holds R .nil) (Action.zip keys values) (b.Holds R) :=
  bind look fun size => (zipOnto size .nil keys values).imp (fun _ _ h => h.1) fun _ _ h => h

theorem listOf (elements : List Value) :
    b.Guides (b.Holds R .nil) (Action.listOf elements) (b.Holds R) := by
  have hfold (done : Value) : b.Guides (b.Holds R done)
      (elements.foldlM (fun done element => Action.cons element done) done) (b.Holds R) := by
    induction elements generalizing done with
    | nil => exact pure fun _ h => h
    | cons element elements ih =>
      rw [List.foldlM_cons]
      exact bind (cons element) ih
  exact bind (hfold .nil) fun reversed => reverse

theorem listBefore (elements : List Value) (tail : Value) :
    b.Guides (b.Holds R .nil) (Action.listBefore elements tail) fun _ c => R (b.outside c) := by
  refine bind (listOf elements) fun head => ?_
  split
  · exact pure fun _ h => h.region
  · split
    · exact pure fun _ h => h.region
    · next hhead =>
      refine bind ask fun last => bind (setCdr tail (fun c ⟨⟨hchain, _⟩, hlast⟩ => ?_)
        fun c h => h.1.region) fun _ => pure fun _ h => h
      -- The last pair of the list is one of its own.
      obtain ⟨places, elements, hlinks, hmade⟩ := hchain
      cases hlinks with
      | done => exact absurd rfl hhead
      | next hcell hrest =>
        have hlast' := (Store.Links.next hcell hrest).last_eq
        exact ⟨_, hmade _ (List.getLast_mem _), Except.ok.inj (hlast.symm.trans hlast')⟩

theorem collect {vs : List Value} {valueOf : Value → Watched Value}
    (hvalue : ∀ (c : Chronicle) (n : Nat) (form : Value), (⟨b, c⟩ : Pause).Stays n form →
      (∀ v ∈ vs, (⟨b, c⟩ : Pause).Stays n v) →
      (⟨b, c⟩ : Pause).Around n (valueOf form) (⟨b, c⟩ : Pause).Stays)
    (fuel : Nat) (done forms : Value) :
    b.Guides (b.Holds (Includes (forms :: vs)) done) (ConsLisp.collect valueOf fuel done forms)
      fun v c => v.isError = true ∨ b.Holds (Includes vs) v c := by
  have hreverse (done forms : Value) (cell : Option Cell) :
      b.Guides (fun c => b.Holds (Includes (forms :: vs)) done c ∧
          cell = c.state.store.cell? forms)
        (Action.reverse done) fun v c => v.isError = true ∨ b.Holds (Includes vs) v c :=
    (reverse (R := Includes vs)).imp
      (fun _ _ h => ⟨h.1.chain, (List.forall_mem_cons.mp h.1.region).2⟩) fun _ _ => .inr
  induction fuel generalizing done forms with
  | zero =>
    unfold ConsLisp.collect
    refine bind look fun cell => ?_
    cases cell with
    | none => exact hreverse ..
    | some cell => exact throw _
  | succ fuel ih =>
    unfold ConsLisp.collect
    refine bind look fun cell => ?_
    cases cell with
    | none => exact hreverse ..
    | some cell =>
      -- The form is part of the list of forms, so it lies outside as well.
      have hwait : b.Guides (b.Holds (Includes (cell.car :: forms :: vs)) done) (valueOf cell.car)
          fun value => b.Holds (Includes (value :: cell.car :: forms :: vs)) done :=
        wait id fun c n hstays => by
          obtain ⟨hform, -, hvs⟩ : _ ∧ _ ∧ _ := by simpa using hstays
          exact hvalue c n cell.car hform hvs
      refine bind (hwait.imp (fun c h hpre => ⟨hpre.1.chain, ?_⟩) fun _ _ h => h) fun value => ?_
      · obtain ⟨hholds, hcell⟩ := hpre
        refine List.forall_mem_cons.mpr ⟨?_, hholds.region⟩
        exact (h.closed.cell (hholds.region forms List.mem_cons_self) hcell.symm).1
      · cases hvalue' : value.isError with
        | true => exact pure fun _ _ => .inl hvalue'
        | false =>
          refine bind (cons value) fun done => bind look fun rest => ?_
          refine (ih done rest).imp (fun c h hpre => ⟨hpre.1.chain, ?_⟩) fun _ _ h => h
          obtain ⟨hholds, hrest⟩ := hpre
          obtain ⟨-, -, hforms, hvs⟩ : _ ∧ _ ∧ _ ∧ _ := by simpa [Includes] using hholds.region
          exact List.forall_mem_cons.mpr ⟨hrest ▸ h.closed.cdr hforms, hvs⟩

theorem refuse (fault : Fault) :
    b.Guides pre (Form.refuse fault) fun x _ => x.1.isError = true := by
  have hnote : b.Guides pre (note (.readFailed fault)) fun _ _ => True :=
    ⟨fun c h _ => ⟨⟨h.size, h.made, h.closed, h.mentioned, h.past⟩, trivial⟩⟩
  have hfail : b.Guides (fun _ => True) (Action.fail fault) fun v _ => v.isError = true :=
    ⟨fun c h _ => ⟨h.fails fault, rfl⟩⟩
  exact bind hnote fun _ => bind hfail fun _ => pure fun _ h => h

theorem readEach {readOne : List Char → Watched (Value × List Char)}
    (hread : ∀ (c : Chronicle) (n : Nat) (text : List Char),
      (⟨b, c⟩ : Pause).Around n (readOne text) (⟨b, c⟩ : Pause).ReadStays)
    (fuel : Nat) (done : Value) (text : List Char) :
    b.Guides (b.Holds (Includes []) done) (Form.readEach readOne fuel done text)
      fun x c => x.1.isError = true ∨ b.Holds (Includes []) x.1 c := by
  have hreverse (done : Value) (rest : List Char) :
      b.Guides (b.Holds (Includes []) done) (do return (← Action.reverse done, rest))
        fun x c => x.1.isError = true ∨ b.Holds (Includes []) x.1 c :=
    bind reverse fun _ => pure fun _ h => .inr h
  induction fuel generalizing done text with
  | zero =>
    unfold Form.readEach
    split
    · exact (refuse _).imp (fun _ _ h => h) fun _ _ => .inl
    · exact hreverse done _
    · exact throw _
  | succ fuel ih =>
    unfold Form.readEach
    split
    · exact (refuse _).imp (fun _ _ h => h) fun _ _ => .inl
    · exact hreverse done _
    · refine bind (wait Prod.fst fun c n _ => hread c n _) fun (form, rest) => ?_
      dsimp only
      cases hform : form.isError with
      | true => exact pure fun _ _ => .inl hform
      | false =>
        refine bind ((cons form).imp (fun _ _ h => ⟨h.chain, ?_⟩) fun _ _ h => h) fun done =>
          ih done rest
        exact List.forall_mem_nil _

end Guides

end Builder

end ConsLisp
