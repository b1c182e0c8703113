import ConsLisp.Proofs.Chronicle.Leads

/-!
# Builders of lists and environments

A program that builds a list owns its pairs as drafts: the layout of its caller does not know
them, and they are younger than the calls in progress.  So turning them around is allowed, and
nobody else notices.  When the list is finished, the drafts become data or a frame.

Main statements: the result of a reversal (`Leads.reverse`, `Leads.reverse_data`), the frame of
a call (`Leads.zip`), and the two changes of variables (`Leads.defineGlobal`, `Leads.assign`).
-/

namespace ConsLisp.Chronicle

open Layout

variable {o : Opening} {base L M : Layout} {callers : List Caller} {c : Chronicle}

/-- A chain of drafts that belongs to a program: its caller does not know them. -/
structure Owns (base L : Layout) (callers : List Caller) (v : Value)
    (drafts : List (Nat × Value)) : Prop where
  chain : L.Drafts v drafts
  nodup : (drafts.map Prod.fst).Nodup
  free : ∀ place ∈ drafts.map Prod.fst, base.role place = none
  called : callers ≠ []
  fresh : ∀ place ∈ drafts.map Prod.fst, ∀ caller ∈ callers, caller.store.size ≤ place

namespace Owns

theorem nil (hcalled : callers ≠ []) : Owns base L callers .nil [] :=
  ⟨.nil, List.nodup_nil, by simp, hcalled, by simp⟩

theorem of_le {v : Value} {drafts : List (Nat × Value)} (h : Owns base L callers v drafts)
    (hle : L ≤ M) : Owns base M callers v drafts :=
  ⟨h.chain.of_le hle, h.nodup, h.free, h.called, h.fresh⟩

/-- Places of drafts are not those of a role that is no draft. -/
theorem cons {v a : Value} {drafts : List (Nat × Value)} (h : Owns base L callers v drafts)
    {place : Nat} (hrole : L.role place = none) (hfree : base.role place = none)
    (hfresh : ∀ caller ∈ callers, caller.store.size ≤ place) :
    Owns base (L.set place (.draft a v)) callers (.pair place) ((place, a) :: drafts) := by
  -- The places of the chain have roles, so the new one is none of them.
  have hchain := h.chain.of_le (le_set le_rfl hrole (.draft a v))
  have hnot : place ∉ drafts.map Prod.fst := by
    intro hmem
    obtain ⟨entry, hentry, rfl⟩ := List.mem_map.mp hmem
    obtain ⟨d, hdraft⟩ := h.chain.role hentry
    rw [hrole] at hdraft
    exact absurd hdraft (by simp)
  refine ⟨.cons (role_set_self ..) hchain, List.nodup_cons.mpr ⟨hnot, h.nodup⟩, ?_, h.called, ?_⟩
  · intro other hmem
    rcases List.mem_cons.mp hmem with rfl | hmem
    · exact hfree
    · exact h.free other hmem
  · intro other hmem
    rcases List.mem_cons.mp hmem with rfl | hmem
    · exact hfresh
    · exact h.fresh other hmem

end Owns

/-- The bindings that the layout knows have the same values in both stores. -/
def KeepsValues (L : Layout) (s s' : Store) : Prop :=
  ∀ place name, L.role place = some (.binding name) → s'.cdr (.pair place) = s.cdr (.pair place)

theorem KeepsValues.trans {s s' s'' : Store} (h : KeepsValues L s s') (hsettles : L.Settles M)
    (h' : KeepsValues M s' s'') : KeepsValues L s s'' := fun place name hrole =>
  (h' place name (hsettles.role hrole rfl)).trans (h place name hrole)

/-- A new pair is none of the bindings. -/
theorem keepsValues_cons {s : Store} (h : L.Kept s) (a d : Value) :
    KeepsValues L s (s.cons a d).2 := by
  intro place name hrole
  have hne : (.pair place : Value) ≠ (s.cons a d).1 := by
    have hlt := h.lt_size hrole
    simp only [Store.cons, ne_eq, Value.pair.injEq]
    exact Nat.ne_of_lt hlt
  simp [Store.cdr, Store.cell?_cons, hne]

namespace Leads

/-- A new pair of data. -/
theorem consData (h : c.Sound o L callers) (hbase : base ≤ L) {a d : Value} (ha : L.Matter a)
    (hd : L.Matter d)
    (hallows : L.Allows ⟨callers, c.state.store, .change (.cons a d)⟩ (.cons a d)) :
    Leads o base callers c (Action.cons a d) fun L' _ v =>
      L ≤ L' ∧ ∃ place, v = .pair place ∧ L'.role place = some (.data a d) := by
  apply imp (cons h hbase (.data a d) (by simp) ⟨rfl, ha, hd⟩ hallows)
  rintro L' s v - - ⟨rfl, rfl, -⟩
  exact ⟨le_set le_rfl h.kept.role_size _, _, rfl, role_set_self ..⟩

/-- A draft is put in front of a chain. -/
theorem consDraft (h : c.Sound o L callers) (hbase : base ≤ L) {v a : Value}
    {drafts : List (Nat × Value)} (howns : Owns base L callers v drafts)
    (ha : L.Matter a ∨ L.IsBinding a) (herror : a.isError = false) :
    Leads o base callers c (Action.cons a v) fun L' s v' =>
      L ≤ L' ∧ KeepsValues L c.state.store s ∧
        ∃ place, Owns base L' callers v' ((place, a) :: drafts) := by
  have hfits : L.Fits (.draft a v) ⟨a, v⟩ := ⟨rfl, ha, howns.chain.ends⟩
  apply imp (cons h hbase (.draft a v) (by simp) hfits (allows_cons herror howns.chain.isError))
  rintro L' s v' - - ⟨rfl, rfl, rfl⟩
  have hrole := h.kept.role_size
  refine ⟨le_set le_rfl hrole _, keepsValues_cons h.kept a v, c.state.store.size,
    howns.cons hrole ?_ h.older⟩
  exact h.kept.role_eq_none hbase (Nat.le_refl _)

/-- A pair of a list under construction is turned to another one. -/
theorem setCdr_draft (h : c.Sound o L callers) (hbase : base ≤ L) {place : Nat} {a d d' : Value}
    (hrole : L.role place = some (.draft a d)) (hends : (L.set place (.draft a d')).Ends d')
    (herror : d'.isError = false) (hfree : base.role place = none) (hcalled : callers ≠ [])
    (hfresh : ∀ caller ∈ callers, caller.store.size ≤ place) :
    Leads o base callers c (Action.setCdr (.pair place) d') fun L' s _ =>
      L' = L.set place (.draft a d') ∧ KeepsValues L c.state.store s := by
  have hsettles : L.Settles (L.set place (.draft a d')) := settles_set hrole hends
  have hframe : (L.set place (.draft a d')).globalFrame (c.state.store.setCdr (.pair place) d') =
      (L.set place (.draft a d')).globalFrame c.state.store := globalFrame_setCdr ..
  refine bind (change (d := .setCdr (.pair place) d') h (le_set hbase hfree _) ?_ hsettles rfl
    (h.kept.setCdr_draft hrole hends) (hframe ▸ .refl _) ?_) ?_
  · exact .inr ⟨place, a, d, rfl, hrole, ⟨hcalled, hfresh⟩, herror⟩
  · exact Nat.le_of_eq (Store.size_setCdr ..).symm
  · rintro L' c' v hle hsound ⟨rfl, -, hstore⟩
    refine pure hsound hle ⟨rfl, fun other name hbinding => ?_⟩
    -- A draft is no binding.
    have hne : (.pair other : Value) ≠ .pair place := by
      rintro heq
      obtain rfl := Value.pair.inj heq
      simp [hrole] at hbinding
    rw [hstore]
    simp [Change.perform, Store.cdr, Store.cell?_setCdr, hne]

/-- Turning a chain back leaves the pairs of both chains, those of the first in the other
order. -/
theorem reverseOnto {fuel : Nat} {done rest : Value} {front back : List (Nat × Value)}
    (h : c.Sound o L callers) (hbase : base ≤ L) (hdone : L.Drafts done front)
    (hrest : L.Drafts rest back) (hnodup : (back.map Prod.fst ++ front.map Prod.fst).Nodup)
    (hfree : ∀ place ∈ back.map Prod.fst, base.role place = none) (hcalled : callers ≠ [])
    (hfresh : ∀ place ∈ back.map Prod.fst, ∀ caller ∈ callers, caller.store.size ≤ place)
    (hfuel : back.length ≤ fuel) :
    Leads o base callers c (Action.reverseOnto fuel done rest) fun L' s v =>
      L.Settles L' ∧ KeepsValues L c.state.store s ∧ L'.Drafts v (back.reverse ++ front) := by
  -- By induction on what is still to be turned; what is turned already may be any chain.
  induction back generalizing fuel done rest front L c with
  | nil =>
    cases hrest
    unfold Action.reverseOnto
    apply look
    exact pure h hbase ⟨settles_refl, fun _ _ _ => rfl, hdone⟩
  | cons entry back ih =>
    obtain ⟨place, a⟩ := entry
    obtain ⟨d, hrole, hback⟩ : ∃ d, L.role place = some (.draft a d) ∧ L.Drafts d back := by
      cases hrest with
      | cons hrole hback => exact ⟨_, hrole, hback⟩
    obtain rfl : rest = .pair place := by
      cases hrest
      rfl
    cases fuel with
    | zero => simp at hfuel
    | succ fuel =>
      unfold Action.reverseOnto
      apply look
      rw [h.kept.cell_draft hrole]
      -- The turned pair is none of the others, so these are what they were.
      rw [List.map_cons, List.cons_append, List.nodup_cons] at hnodup
      obtain ⟨hnot, hnodup⟩ := hnodup
      have hsame : ∀ entry ∈ back ++ front,
          (L.set place (.draft a done)).role entry.1 = L.role entry.1 := by
        intro entry hmem
        have hplace := List.mem_map_of_mem (f := Prod.fst) hmem
        rw [List.map_append] at hplace
        rw [role_set, if_neg]
        intro heq
        exact hnot (heq ▸ hplace)
      have hfront := hdone.mono fun entry hmem => hsame entry (List.mem_append_right _ hmem)
      have hback' := hback.mono fun entry hmem => hsame entry (List.mem_append_left _ hmem)
      have hnodup' : (back.map Prod.fst ++ ((place, a) :: front).map Prod.fst).Nodup :=
        List.perm_middle.nodup_iff.mpr (List.nodup_cons.mpr ⟨hnot, hnodup⟩)
      have hsettles : L.Settles (L.set place (.draft a done)) := settles_set hrole hfront.ends
      apply bind (setCdr_draft h hbase hrole hfront.ends hdone.isError (hfree place (by simp))
        hcalled (hfresh place (by simp)))
      rintro L' c' - hle hsound ⟨rfl, hvalues⟩
      refine imp (ih hsound hle (.cons (role_set_self ..) hfront) hback' hnodup'
        (fun other hmem => hfree other (List.mem_cons_of_mem _ hmem))
        (fun other hmem => hfresh other (List.mem_cons_of_mem _ hmem))
        (Nat.le_of_succ_le_succ hfuel)) ?_
      rintro L' s v - - ⟨hsettles', hvalues', hdrafts⟩
      refine ⟨hsettles.trans hsettles', hvalues.trans hsettles hvalues', ?_⟩
      rw [List.reverse_cons, List.append_assoc]
      exact hdrafts

/-- A chain of drafts is reversed. -/
theorem reverse (h : c.Sound o L callers) (hbase : base ≤ L) {v : Value}
    {drafts : List (Nat × Value)} (howns : Owns base L callers v drafts) :
    Leads o base callers c (Action.reverse v) fun L' s v' =>
      L.Settles L' ∧ KeepsValues L c.state.store s ∧ L'.Drafts v' drafts.reverse := by
  unfold Action.reverse
  apply look
  -- The drafts are different cells of the store, so the fuel of the walk is enough.
  have hlength : drafts.length ≤ 2 * c.state.store.size := by
    have hle := (howns.chain.links h.kept).length_le_size
    rw [List.length_map] at hle
    omega
  have hnodup := howns.nodup
  rw [← List.append_nil (drafts.map Prod.fst)] at hnodup
  have hturned := reverseOnto h hbase .nil howns.chain hnodup howns.free howns.called howns.fresh
    hlength
  rw [List.append_nil] at hturned
  exact hturned

/-- A list of data is finished by reversing it. -/
theorem reverse_data (h : c.Sound o L callers) (hbase : base ≤ L) {v : Value}
    {drafts : List (Nat × Value)} (howns : Owns base L callers v drafts)
    (hdata : ∀ entry ∈ drafts, L.Matter entry.2) :
    Leads o base callers c (Action.reverse v) fun L' _ v' =>
      L.Settles L' ∧ L'.Chain v' (drafts.map Prod.snd).reverse .nil := by
  apply settle (reverse h hbase howns)
  rintro L' c' v' hle hsound ⟨hsettles, -, hdrafts⟩
  have hdata' : ∀ entry ∈ drafts.reverse, L'.Matter entry.2 := fun entry hmem =>
    (hdata entry (List.mem_reverse.mp hmem)).mono hsettles
  have hsettled : L'.Settles (L'.settle (drafts.reverse.map Prod.fst) .data) :=
    settles_settle _ fun _ _ => rfl
  have hchain := hdrafts.chain (fun entry hmem => List.mem_map_of_mem hmem)
  have hkept := hsound.kept.settle_data hdrafts hdata'
  rw [← List.map_reverse]
  -- The caller knows none of these pairs, so they may settle behind its back.
  refine ⟨_, le_settle hle ?_ _, hsound.settles hsettled rfl hkept, hsettles.trans hsettled, hchain⟩
  intro place hmem
  rw [List.map_reverse, List.mem_reverse] at hmem
  exact howns.free place hmem

/-- The value is a binding, and what it binds is no error. -/
def BindsData (L : Layout) (s : Store) (v : Value) : Prop :=
  L.IsBinding v ∧ L.Data (s.cdr v)

theorem BindsData.keep {s s' : Store} {v : Value} (h : BindsData L s v) (hsettles : L.Settles M)
    (hvalues : KeepsValues L s s') : BindsData M s' v := by
  obtain ⟨⟨place, name, rfl, hrole⟩, hdata⟩ := h
  refine ⟨⟨place, name, rfl, hsettles.role hrole rfl⟩, ?_⟩
  rw [hvalues place name hrole]
  exact hdata.mono hsettles

/-- A frame is finished by reversing its list. -/
theorem reverse_frame (h : c.Sound o L callers) (hbase : base ≤ L) {v : Value}
    {drafts : List (Nat × Value)} (howns : Owns base L callers v drafts)
    (hbinds : ∀ entry ∈ drafts, BindsData L c.state.store entry.2) :
    Leads o base callers c (Action.reverse v) fun L' s v' =>
      ∃ bindings, L'.Frame v' bindings ∧ ∀ binding ∈ bindings, L'.Data (s.cdr (.pair binding)) := by
  apply settle (reverse h hbase howns)
  rintro L' c' v' hle hsound ⟨hsettles, hvalues, hdrafts⟩
  have hbinds' : ∀ entry ∈ drafts.reverse, BindsData L' c'.state.store entry.2 := fun entry hmem =>
    (hbinds entry (List.mem_reverse.mp hmem)).keep hsettles hvalues
  have hbinding : ∀ entry ∈ drafts.reverse, L'.IsBinding entry.2 :=
    fun entry hmem => (hbinds' entry hmem).1
  have hsettled : L'.Settles (L'.settle (drafts.reverse.map Prod.fst) .frame) :=
    settles_settle _ fun _ _ => rfl
  obtain ⟨bindings, hframe, hmap⟩ :=
    hdrafts.frame (fun entry hmem => List.mem_map_of_mem hmem) hbinding
  refine ⟨_, le_settle hle ?_ _,
    hsound.settles hsettled rfl (hsound.kept.settle_frame hdrafts hbinding), bindings, hframe, ?_⟩
  · intro place hmem
    rw [List.map_reverse, List.mem_reverse] at hmem
    exact howns.free place hmem
  · intro binding hmem
    have hentry := List.mem_map_of_mem (f := Value.pair) hmem
    rw [hmap] at hentry
    obtain ⟨entry, hentry, heq⟩ := List.mem_map.mp hentry
    rw [← heq]
    exact (hbinds' entry hentry).2.mono hsettled

/-- The pairs of names and values of a call are a frame. -/
theorem zipOnto {fuel : Nat} {done keys values : Value} {drafts : List (Nat × Value)}
    {names arguments : List Value} {keysEnd valuesEnd : Value} (h : c.Sound o L callers)
    (hbase : base ≤ L) (howns : Owns base L callers done drafts)
    (hbinds : ∀ entry ∈ drafts, BindsData L c.state.store entry.2)
    (hkeys : base.Chain keys names keysEnd) (hvalues : base.Chain values arguments valuesEnd)
    (hnames : ∀ name ∈ names, base.Code name)
    (harguments : ∀ argument ∈ arguments, base.Data argument)
    (hfuel : names.length ≤ fuel) :
    Leads o base callers c (Action.zipOnto fuel done keys values) fun L' s v =>
      ∃ bindings, L'.Frame v bindings ∧ ∀ binding ∈ bindings, L'.Data (s.cdr (.pair binding)) := by
  -- By induction on the names; the shorter of the two lists decides where the frame ends.
  induction hkeys generalizing fuel done drafts values arguments L c with
  | done hplace =>
    unfold Action.zipOnto
    refine look (look ?_)
    rw [cell?_of_isPlace hplace]
    exact reverse_frame h hbase howns hbinds
  | @next place name rest keysEnd names hrole _ ih =>
    have hcell := h.kept.cell_data (role_of_le hbase hrole)
    cases hvalues with
    | done hplace =>
      unfold Action.zipOnto
      refine look (look ?_)
      rw [cell?_of_isPlace hplace, hcell]
      exact reverse_frame h hbase howns hbinds
    | @next place' argument _ _ arguments hrole' hrest' =>
      cases fuel with
      | zero => simp at hfuel
      | succ fuel =>
        unfold Action.zipOnto
        refine look (look ?_)
        rw [hcell, h.kept.cell_data (role_of_le hbase hrole')]
        have hsettles := settles_of_le hbase
        have hname := ((hnames name List.mem_cons_self).mono hsettles).data
        have hargument := (harguments argument List.mem_cons_self).mono hsettles
        apply bind (cons h hbase (.binding name) (by simp) ⟨rfl, hname, .inl hargument⟩
          (allows_cons hname.isError hargument.isError))
        rintro L₁ c₁ binding hle₁ hsound₁ ⟨rfl, rfl, hstore₁⟩
        have hgrows₁ := le_set (le_refl L) h.kept.role_size (.binding name)
        have hvalues₁ : KeepsValues L c.state.store c₁.state.store :=
          hstore₁ ▸ keepsValues_cons h.kept name argument
        have hnew : BindsData (L.set c.state.store.size (.binding name)) c₁.state.store
            (.pair c.state.store.size) := by
          refine ⟨⟨_, name, rfl, role_set_self ..⟩, ?_⟩
          rw [hstore₁, Store.cdr, Store.cell?_cons_self]
          exact hargument.mono (settles_of_le hgrows₁)
        apply bind (consDraft hsound₁ hle₁ (howns.of_le hgrows₁) (.inr hnew.1) rfl)
        rintro L₂ c₂ v hle₂ hsound₂ ⟨hgrows₂, hvalues₂, place₂, howns₂⟩
        refine ih hsound₂ hle₂ howns₂ ?_ hrest'
          (fun other hmem => hnames other (List.mem_cons_of_mem _ hmem))
          (fun other hmem => harguments other (List.mem_cons_of_mem _ hmem))
          (Nat.le_of_succ_le_succ hfuel)
        intro entry hmem
        rcases List.mem_cons.mp hmem with rfl | hmem
        · exact hnew.keep (settles_of_le hgrows₂) hvalues₂
        · exact (hbinds entry hmem).keep (settles_of_le (hgrows₁.trans hgrows₂))
            (hvalues₁.trans (settles_of_le hgrows₁) hvalues₂)

/-- The frame of a call. -/
theorem zip {keys values : Value} (h : c.Sound o L callers) (hcalled : callers ≠ [])
    (hkeys : L.Code keys) (hvalues : L.Data values) :
    Leads o L callers c (Action.zip keys values) fun L' s v =>
      ∃ bindings, L'.Frame v bindings ∧ ∀ binding ∈ bindings, L'.Data (s.cdr (.pair binding)) := by
  obtain ⟨names, keysEnd, hnames, hcode⟩ := hkeys.chain
  obtain ⟨arguments, valuesEnd, harguments, hdata, -⟩ := Tree.chain hvalues
  unfold Action.zip
  apply look
  exact zipOnto h le_rfl (.nil hcalled) (by simp) hnames harguments hcode hdata
    (hnames.length_le_size h.kept)

/-! ## Variables -/

/-- The global frame is extended by one binding. -/
theorem setCar_home (h : c.Sound o L callers) (hbase : base ≤ L) {place binding : Nat}
    {name : Value} {bindings : List Nat}
    (hrole : L.role place = some (.frame (.pair binding) (L.globalFrame c.state.store)))
    (hbinding : L.role binding = some (.binding name))
    (hframe : L.Frame (L.globalFrame c.state.store) bindings)
    (hfresh : ∀ caller ∈ callers, caller.store.size ≤ place ∧ caller.store.size ≤ binding)
    (hdefines : ∀ d, Moment.Defines ⟨callers, c.state.store, d⟩ name) :
    Leads o base callers c (Action.setCar (.pair L.home) (.pair place)) fun _ _ _ => True := by
  obtain ⟨value, hcell, -⟩ := h.kept.cell_binding hbinding
  have hframe' : L.Frame (.pair place) (binding :: bindings) := .cons hrole hbinding hframe
  refine bind (change (d := .setCar (.pair L.home) (.pair place)) h hbase ?_ settles_refl rfl
    (h.kept.setCar_home hframe') ?_ ?_) ?_
  · have hcalled : callers ≠ [] :=
      (hdefines (.change (.setCar (.pair L.home) (.pair place)))).called
    exact ⟨rfl, place, binding, name, value, rfl,
      ⟨hcalled, fun caller hmem => (hfresh caller hmem).1⟩,
      ⟨hcalled, fun caller hmem => (hfresh caller hmem).2⟩, h.kept.cell_frame hrole, hcell,
      hdefines _⟩
  · -- The frame so far is what stands behind the new pair.
    change L.Tail (L.globalFrame (c.state.store.setCar (.pair L.home) (.pair place))) _
    rw [h.kept.globalFrame_setCar]
    exact .cons hrole (.refl _)
  · exact Nat.le_of_eq (Store.size_setCar ..).symm
  · intro L' c' v hle hsound _
    exact pure hsound hle trivial

/-- A new binding is put in front of the global frame, if that is allowed whatever pairs are
made for it. -/
theorem defineGlobal {name value env : Value} (h : c.Sound o L callers) (hname : L.Data name)
    (hvalue : L.Outcome value) (henv : L.Env env)
    (hallows : L.Allows ⟨callers, c.state.store, .change (.cons name value)⟩ (.cons name value))
    (hdefines : ∀ (M : Layout) s d, L ≤ M → M.Kept s →
      M.globalFrame s = L.globalFrame c.state.store → Moment.Defines ⟨callers, s, d⟩ name) :
    Leads o L callers c (Action.defineGlobal name value env) fun _ _ _ => True := by
  obtain ⟨frames, hscope⟩ := henv
  have hglobal := hscope.globalOf_eq h.kept
  -- Two pairs are made, the binding and the one that holds it; then the global cell is turned to
  -- the second.
  unfold Action.defineGlobal
  refine ask h le_rfl (fun abort habort => by simp [hglobal] at habort) fun cell hcell => ?_
  obtain rfl : .pair L.home = cell := Except.ok.inj (hglobal.symm.trans hcell)
  unfold Action.define
  apply bind (cons h le_rfl (.binding name) (by simp) ⟨rfl, hname, hvalue⟩ hallows)
  rintro L₁ c₁ binding hle₁ hsound₁ ⟨hL₁, rfl, hstore₁⟩
  have hframe₁ : L₁.globalFrame c₁.state.store = L.globalFrame c.state.store := by
    rw [globalFrame_eq (settles_of_le hle₁), hstore₁, h.kept.globalFrame_cons]
  have hbinding : L₁.role c.state.store.size = some (.binding name) := by
    rw [hL₁, role_set_self]
  apply look
  obtain ⟨bindings, hframe⟩ := hsound₁.kept.frame_home
  rw [globalFrame, ← hle₁.2.1] at hframe
  refine bind (cons hsound₁ hle₁ (.frame (.pair c.state.store.size) _) (by simp)
    ⟨rfl, ⟨_, name, rfl, hbinding⟩, bindings, hframe⟩ (allows_cons rfl hframe.isError)) ?_
  rintro L₂ c₂ frame hle₂ hsound₂ ⟨hL₂, rfl, hstore₂⟩
  have hgrows : L₁ ≤ L₂ := by
    rw [hL₂]
    exact le_set le_rfl hsound₁.kept.role_size _
  have hframe₂ : L₂.globalFrame c₂.state.store = L₁.globalFrame c₁.state.store := by
    rw [globalFrame_eq (settles_of_le hgrows), hstore₂, hsound₁.kept.globalFrame_cons]
  have hrole₂ : L₂.role c₁.state.store.size =
      some (.frame (.pair c.state.store.size) (L₂.globalFrame c₂.state.store)) := by
    rw [hframe₂, hL₂, role_set_self, globalFrame, ← hle₁.2.1]
  have hbindings : L₂.Frame (L₂.globalFrame c₂.state.store) bindings := by
    rw [hframe₂, globalFrame, ← hle₁.2.1]
    exact hframe.mono (settles_of_le hgrows)
  rw [hle₂.2.1]
  refine setCar_home hsound₂ hle₂ hrole₂ (role_of_le hgrows hbinding) hbindings ?_ ?_
  · exact fun caller hmem => ⟨hsound₁.older caller hmem, h.older caller hmem⟩
  · exact fun d => hdefines L₂ c₂.state.store d hle₂ hsound₂.kept (hframe₂.trans hframe₁)

/-- A variable gets a new value by an assignment. -/
theorem setCdr_binding (h : c.Sound o L callers) (hbase : base ≤ L) {place : Nat}
    {name value : Value} (hrole : L.role place = some (.binding name)) (hvalue : L.Outcome value)
    (hassigns : ∀ d, Moment.Assigns ⟨callers, c.state.store, d⟩ (.pair place)) :
    Leads o base callers c (Action.setCdr (.pair place) value) fun _ _ _ => True := by
  have hframe : L.globalFrame (c.state.store.setCdr (.pair place) value) =
      L.globalFrame c.state.store := globalFrame_setCdr ..
  refine bind (change (d := .setCdr (.pair place) value) h hbase ?_ settles_refl rfl
    (h.kept.setCdr_binding hrole hvalue) (hframe ▸ .refl _) ?_) ?_
  · exact .inl ⟨place, name, rfl, hrole, hassigns _⟩
  · exact Nat.le_of_eq (Store.size_setCdr ..).symm
  · intro L' c' v hle hsound _
    exact pure hsound hle trivial

/-- A name that has a binding gets a new value.  A name without one changes nothing. -/
theorem assign {name value env : Value} (h : c.Sound o L callers) (hvalue : L.Outcome value)
    (henv : L.Env env)
    (hassigns : ∀ d binding, c.state.store.binding? name env = .ok (some binding) →
      Moment.Assigns ⟨callers, c.state.store, d⟩ binding) :
    Leads o L callers c (Action.assign name value env) fun L' s found =>
      found = false → L' = L ∧ s = c.state.store ∧ s.binding? name env = .ok none := by
  obtain ⟨found, hfound, hbinding⟩ := henv.binding?_ok h.kept name
  unfold Action.assign
  refine ask h le_rfl (fun abort habort => by simp [hfound] at habort) fun result hresult => ?_
  cases result with
  | none => exact pure h le_rfl fun _ => ⟨rfl, rfl, hresult⟩
  | some binding =>
    obtain rfl : found = some binding := Except.ok.inj (hfound.symm.trans hresult)
    obtain ⟨place, rfl, hrole⟩ := hbinding binding rfl
    apply bind (setCdr_binding h le_rfl hrole hvalue fun d => hassigns d _ hfound)
    intro L' c' _ hle hsound _
    exact pure hsound hle (by simp)

end Leads

end ConsLisp.Chronicle
