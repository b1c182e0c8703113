import ConsLisp.Environment
import ConsLisp.Proofs.Layout

/-!
# Stores that keep to a layout

A store keeps to a layout if each of its cells has a role and holds what the role asks for.
Each change that evaluation makes leads from a kept store to a kept store, with a layout that
has grown by one cell, has turned one draft to another pair, or is the same.

Main statements: one lemma for each change (`Kept.cons`, `Kept.setCdr_binding`,
`Kept.setCdr_draft`, `Kept.setCar_home`), and the end of a list under construction
(`Kept.settle_data`, `Kept.settle_frame`).
-/

namespace ConsLisp.Layout

variable {L M : Layout} {s : Store}

/-- Is the value a pair of a name and its value? -/
def IsBinding (L : Layout) (v : Value) : Prop :=
  ∃ place name, v = .pair place ∧ L.role place = some (.binding name)

/-- What a cell of each role holds. -/
def Fits (L : Layout) : Role → Cell → Prop
  | .data a d, c => c = ⟨a, d⟩ ∧ L.Matter a ∧ L.Matter d
  | .draft a d, c => c = ⟨a, d⟩ ∧ (L.Matter a ∨ L.IsBinding a) ∧ L.Ends d
  | .binding name, c => c.car = name ∧ L.Data name ∧ L.Outcome c.cdr
  | .frame binding rest, c => c = ⟨binding, rest⟩ ∧ L.IsBinding binding ∧ ∃ bs, L.Frame rest bs
  | .scope frame outer, c => c = ⟨frame, outer⟩ ∧ (∃ bs, L.Frame frame bs) ∧ L.Env outer
  | .globals, c => c.cdr = .nil ∧ ∃ bs, L.Frame c.car bs

theorem IsBinding.mono {v : Value} (h : L.Settles M) (hv : L.IsBinding v) : M.IsBinding v := by
  obtain ⟨place, name, rfl, hrole⟩ := hv
  exact ⟨place, name, rfl, h.role hrole rfl⟩

theorem Fits.mono {role : Role} {c : Cell} (h : L.Settles M) (hfits : L.Fits role c) :
    M.Fits role c := by
  cases role with
  | data => exact ⟨hfits.1, hfits.2.1.mono h, hfits.2.2.mono h⟩
  | draft => exact ⟨hfits.1, hfits.2.1.imp (·.mono h) (·.mono h), h.ends hfits.2.2⟩
  | binding => exact ⟨hfits.1, hfits.2.1.mono h, hfits.2.2.mono h⟩
  | frame => exact ⟨hfits.1, hfits.2.1.mono h, hfits.2.2.imp fun _ hbs => hbs.mono h⟩
  | scope =>
    exact ⟨hfits.1, hfits.2.1.imp fun _ hbs => hbs.mono h, hfits.2.2.mono h⟩
  | globals => exact ⟨hfits.1, hfits.2.imp fun _ hbs => hbs.mono h⟩

/-- Each cell of the store has a role and holds what the role asks for. -/
structure Kept (L : Layout) (s : Store) : Prop where
  fits {place : Nat} {c : Cell} (hcell : s.cell? (.pair place) = some c) :
    ∃ role, L.role place = some role ∧ L.Fits role c
  lt_size {place : Nat} {role : Role} (hrole : L.role place = some role) : place < s.size
  home : L.role L.home = some .globals
  only_home {place : Nat} (hrole : L.role place = some .globals) : place = L.home

theorem Kept.cell (h : L.Kept s) {place : Nat} {role : Role} (hrole : L.role place = some role) :
    ∃ c, s.cell? (.pair place) = some c ∧ L.Fits role c := by
  have hlt := h.lt_size hrole
  have hcell : s.cell? (.pair place) = some s.cells[place] := Array.getElem?_eq_getElem hlt
  obtain ⟨role', hrole', hfits⟩ := h.fits hcell
  obtain rfl : role = role' := Option.some.inj (hrole.symm.trans hrole')
  exact ⟨_, hcell, hfits⟩

theorem Kept.isPair (h : L.Kept s) {place : Nat} {role : Role} (hrole : L.role place = some role) :
    s.isPair (.pair place) = true := by
  obtain ⟨c, hcell, -⟩ := h.cell hrole
  simp [Store.isPair, hcell]

/-- The place of the next pair has no role yet. -/
theorem Kept.role_size (h : L.Kept s) : L.role s.size = none := by
  cases hrole : L.role s.size with
  | none => rfl
  | some role => exact absurd (h.lt_size hrole) (Nat.lt_irrefl _)

theorem Kept.role_eq_none {B : Layout} (h : L.Kept s) (hle : B ≤ L) {place : Nat}
    (hsize : s.size ≤ place) : B.role place = none := by
  cases hrole : B.role place with
  | none => rfl
  | some role => exact absurd (h.lt_size (role_of_le hle hrole)) (Nat.not_lt.mpr hsize)

/-! ## What the cells hold -/

theorem Kept.cell_data (h : L.Kept s) {place : Nat} {a d : Value}
    (hrole : L.role place = some (.data a d)) : s.cell? (.pair place) = some ⟨a, d⟩ := by
  obtain ⟨c, hcell, rfl, -⟩ := h.cell hrole
  exact hcell

theorem Kept.car_data (h : L.Kept s) {place : Nat} {a d : Value}
    (hrole : L.role place = some (.data a d)) : s.car (.pair place) = a := by
  simp [Store.car, h.cell_data hrole]

theorem Kept.cdr_data (h : L.Kept s) {place : Nat} {a d : Value}
    (hrole : L.role place = some (.data a d)) : s.cdr (.pair place) = d := by
  simp [Store.cdr, h.cell_data hrole]

theorem Kept.cell_draft (h : L.Kept s) {place : Nat} {a d : Value}
    (hrole : L.role place = some (.draft a d)) : s.cell? (.pair place) = some ⟨a, d⟩ := by
  obtain ⟨c, hcell, rfl, -⟩ := h.cell hrole
  exact hcell

theorem Kept.cell_binding (h : L.Kept s) {place : Nat} {name : Value}
    (hrole : L.role place = some (.binding name)) :
    ∃ value, s.cell? (.pair place) = some ⟨name, value⟩ ∧ L.Data name ∧ L.Outcome value := by
  obtain ⟨c, hcell, rfl, hname, hvalue⟩ := h.cell hrole
  exact ⟨c.cdr, hcell, hname, hvalue⟩

theorem Kept.cell_frame (h : L.Kept s) {place : Nat} {binding rest : Value}
    (hrole : L.role place = some (.frame binding rest)) :
    s.cell? (.pair place) = some ⟨binding, rest⟩ := by
  obtain ⟨c, hcell, rfl, -⟩ := h.cell hrole
  exact hcell

theorem Kept.cell_scope (h : L.Kept s) {place : Nat} {frame outer : Value}
    (hrole : L.role place = some (.scope frame outer)) :
    s.cell? (.pair place) = some ⟨frame, outer⟩ := by
  obtain ⟨c, hcell, rfl, -⟩ := h.cell hrole
  exact hcell

/-- The global frame is a list of bindings, and no environment lies behind it. -/
theorem Kept.cell_home (h : L.Kept s) :
    ∃ frame bindings, s.cell? (.pair L.home) = some ⟨frame, .nil⟩ ∧ L.Frame frame bindings := by
  obtain ⟨c, hcell, hcdr, bindings, hframe⟩ := h.cell h.home
  exact ⟨c.car, bindings, by simp [hcell, ← hcdr], hframe⟩

/-! ## Changes -/

/-- Only the cells count. -/
theorem Kept.of_cells {s' : Store} (h : L.Kept s) (hcells : s'.cells = s.cells) : L.Kept s' where
  fits hcell := h.fits (by simpa [Store.cell?, hcells] using hcell)
  lt_size hrole := by simpa [Store.size, hcells] using h.lt_size hrole
  home := h.home
  only_home := h.only_home

/-- Another form has been read. -/
theorem Kept.learn (h : L.Kept s) (form : Value) : (L.learn form).Kept s where
  fits hcell := by
    obtain ⟨role, hrole, hfits⟩ := h.fits hcell
    exact ⟨role, hrole, hfits.mono (settles_of_le (L.le_learn form))⟩
  lt_size := h.lt_size
  home := h.home
  only_home := h.only_home

/-- A new pair of any role but one. -/
theorem Kept.cons (h : L.Kept s) {a d : Value} (role : Role) (hrole : role ≠ .globals)
    (hfits : L.Fits role ⟨a, d⟩) : (L.set s.size role).Kept (s.cons a d).2 := by
  have hsettles : L.Settles (L.set s.size role) := settles_of_le (le_set le_rfl h.role_size role)
  constructor
  case fits =>
    intro place c hcell
    rw [Store.cell?_cons] at hcell
    by_cases hplace : place = s.size
    · subst hplace
      obtain rfl : ⟨a, d⟩ = c := by simpa [Store.cons, Store.size] using hcell
      exact ⟨role, role_set_self .., hfits.mono hsettles⟩
    · have hne : (.pair place : Value) ≠ (s.cons a d).1 := by
        simpa [Store.cons, Store.size] using hplace
      obtain ⟨r, hr, hr'⟩ := h.fits (by simpa [hne] using hcell)
      exact ⟨r, by rw [role_set, if_neg hplace, hr], hr'.mono hsettles⟩
  case lt_size =>
    intro place r hr
    rw [role_set] at hr
    rw [Store.size_cons]
    split at hr
    · omega
    · exact Nat.lt_succ_of_lt (h.lt_size hr)
  case home => exact hsettles.role h.home rfl
  case only_home =>
    intro place hr
    rw [role_set] at hr
    split at hr
    · exact absurd (Option.some.inj hr) hrole
    · exact h.only_home hr

/-- One cell is overwritten, in a layout that differs there at most. -/
theorem Kept.overwrite {s' : Store} (h : L.Kept s) (hsettles : L.Settles M) {place : Nat}
    {role : Role} {c : Cell} (hother : ∀ other, other ≠ place → M.role other = L.role other)
    (hrole : M.role place = some role) (hglobals : role = .globals → place = L.home)
    (hfits : M.Fits role c) (hsize : s'.size = s.size) (hlt : place < s.size)
    (hcell : ∀ other, s'.cell? (.pair other) =
      if other = place then some c else s.cell? (.pair other)) : M.Kept s' := by
  -- The other cells keep their fields and their roles, so only the one that is overwritten counts.
  constructor
  case fits =>
    intro other c' hc
    rw [hcell] at hc
    split at hc
    · next heq =>
      obtain rfl := Option.some.inj hc
      exact ⟨role, heq ▸ hrole, hfits⟩
    · next hne =>
      obtain ⟨r, hr, hr'⟩ := h.fits hc
      exact ⟨r, (hother other hne).trans hr, hr'.mono hsettles⟩
  case lt_size =>
    intro other r hr
    rw [hsize]
    by_cases heq : other = place
    · rwa [heq]
    · exact h.lt_size ((hother other heq).symm.trans hr)
  case home =>
    rw [← hsettles.home]
    exact hsettles.role h.home rfl
  case only_home =>
    intro other hr
    rw [← hsettles.home]
    by_cases heq : other = place
    · subst heq
      exact hglobals (Option.some.inj (hrole.symm.trans hr))
    · exact h.only_home ((hother other heq).symm.trans hr)

/-- A variable gets a new value. -/
theorem Kept.setCdr_binding (h : L.Kept s) {place : Nat} {name v : Value}
    (hrole : L.role place = some (.binding name)) (hv : L.Outcome v) :
    L.Kept (s.setCdr (.pair place) v) := by
  obtain ⟨value, hcell, hname, -⟩ := h.cell_binding hrole
  exact h.overwrite settles_refl (fun _ _ => rfl) hrole (by simp) ⟨rfl, hname, hv⟩
    (Store.size_setCdr ..) (h.lt_size hrole) (Store.cell?_setCdr_pair hcell v)

/-- A pair of a list under construction is turned to another one. -/
theorem Kept.setCdr_draft (h : L.Kept s) {place : Nat} {a d d' : Value}
    (hrole : L.role place = some (.draft a d)) (hends : (L.set place (.draft a d')).Ends d') :
    (L.set place (.draft a d')).Kept (s.setCdr (.pair place) d') := by
  obtain ⟨c, hcell, rfl, ha, -⟩ := h.cell hrole
  have hsettles : L.Settles (L.set place (.draft a d')) := settles_set hrole hends
  have hother : ∀ other, other ≠ place → (L.set place (.draft a d')).role other = L.role other := by
    intro other hne
    rw [role_set, if_neg hne]
  exact h.overwrite hsettles hother (role_set_self ..) (by simp)
    ⟨rfl, ha.imp (·.mono hsettles) (·.mono hsettles), hends⟩ (Store.size_setCdr ..)
    (h.lt_size hrole) (Store.cell?_setCdr_pair hcell d')

/-- The global frame is replaced by another list of bindings. -/
theorem Kept.setCar_home (h : L.Kept s) {frame : Value} {bindings : List Nat}
    (hframe : L.Frame frame bindings) : L.Kept (s.setCar (.pair L.home) frame) := by
  obtain ⟨old, _, hcell, -⟩ := h.cell_home
  exact h.overwrite settles_refl (fun _ _ => rfl) h.home (fun _ => rfl) ⟨rfl, bindings, hframe⟩
    (Store.size_setCar ..) (h.lt_size h.home) (Store.cell?_setCar_pair hcell frame)

/-! ## Lists under construction -/

/-- A chain of drafts: the places of its pairs with their elements. -/
inductive Drafts (L : Layout) : Value → List (Nat × Value) → Prop
  | nil : Drafts L .nil []
  | cons {place : Nat} {a d : Value} {rest : List (Nat × Value)}
      (hrole : L.role place = some (.draft a d)) (hrest : Drafts L d rest) :
      Drafts L (.pair place) ((place, a) :: rest)

theorem Drafts.mono {v : Value} {drafts : List (Nat × Value)} (h : L.Drafts v drafts)
    (hsame : ∀ entry ∈ drafts, M.role entry.1 = L.role entry.1) : M.Drafts v drafts := by
  induction h with
  | nil => exact .nil
  | cons hrole _ ih =>
    exact .cons ((hsame _ List.mem_cons_self).trans hrole)
      (ih fun entry hmem => hsame entry (List.mem_cons_of_mem _ hmem))

theorem Drafts.of_le {v : Value} {drafts : List (Nat × Value)} (h : L.Drafts v drafts)
    (hle : L ≤ M) : M.Drafts v drafts := by
  induction h with
  | nil => exact .nil
  | cons hrole _ ih => exact .cons (role_of_le hle hrole) ih

theorem Drafts.ends {v : Value} {drafts : List (Nat × Value)} (h : L.Drafts v drafts) :
    L.Ends v := by
  induction h with
  | nil => exact .nil
  | cons hrole _ ih => exact .draft hrole ih

theorem Drafts.isError {v : Value} {drafts : List (Nat × Value)} (h : L.Drafts v drafts) :
    v.isError = false := by
  cases h with
  | nil | cons => rfl

theorem Drafts.role {v : Value} {drafts : List (Nat × Value)} (h : L.Drafts v drafts)
    {entry : Nat × Value} (hmem : entry ∈ drafts) :
    ∃ d, L.role entry.1 = some (.draft entry.2 d) := by
  induction h with
  | nil => simp at hmem
  | cons hrole _ ih =>
    rcases List.mem_cons.mp hmem with rfl | hmem
    · exact ⟨_, hrole⟩
    · exact ih hmem

theorem Drafts.links (h : L.Kept s) {v : Value} {drafts : List (Nat × Value)}
    (hdrafts : L.Drafts v drafts) :
    s.Links v (drafts.map Prod.fst) (drafts.map Prod.snd) .nil := by
  induction hdrafts with
  | nil => exact .done rfl
  | cons hrole _ ih => exact .next (h.cell_draft hrole) ih

/-- A store is kept when drafts turn into cells of a role that they fit. -/
theorem Kept.settle (h : L.Kept s) {places : List Nat} {turn : Value → Value → Role}
    (hturn : ∀ a d, turn a d ≠ .globals ∧ (turn a d).isDraft = false)
    (hfits : ∀ place ∈ places, ∀ a d, L.role place = some (.draft a d) →
      (L.settle places turn).Fits (turn a d) ⟨a, d⟩) : (L.settle places turn).Kept s := by
  have hsettles := L.settles_settle places fun a d => (hturn a d).2
  constructor
  case fits =>
    intro place c hcell
    obtain ⟨role, hrole, hrole'⟩ := h.fits hcell
    by_cases hmem : role.isDraft = true ∧ place ∈ places
    · -- A draft that turns has the fields of its new role already.
      obtain ⟨hdraft, hmem⟩ := hmem
      cases role with
      | draft a d =>
        obtain ⟨rfl, -⟩ := hrole'
        exact ⟨turn a d, role_settle_of_draft hrole hmem, hfits place hmem a d hrole⟩
      | _ => simp [Role.isDraft] at hdraft
    · refine ⟨role, ?_, hrole'.mono hsettles⟩
      cases role <;> simp_all [Layout.settle, Role.isDraft]
  case lt_size =>
    intro place r hr
    cases hrole : L.role place with
    | none => simp [Layout.settle, hrole] at hr
    | some role => exact h.lt_size hrole
  case home => exact hsettles.role h.home rfl
  case only_home =>
    intro place hr
    cases hrole : L.role place with
    | none => simp [Layout.settle, hrole] at hr
    | some role =>
      cases role with
      | globals => exact h.only_home hrole
      | draft a d =>
        by_cases hmem : place ∈ places
        · rw [role_settle_of_draft hrole hmem] at hr
          exact absurd (Option.some.inj hr) (hturn a d).1
        · simp [Layout.settle, hrole, hmem] at hr
      | _ => simp [Layout.settle, hrole] at hr

/-- Behind each draft of a chain stands the chain of the drafts after it. -/
theorem Drafts.rest {v : Value} {drafts : List (Nat × Value)} (h : L.Drafts v drafts)
    {entry : Nat × Value} (hmem : entry ∈ drafts) :
    ∃ d rest, L.role entry.1 = some (.draft entry.2 d) ∧ L.Drafts d rest ∧ rest ⊆ drafts := by
  induction h with
  | nil => simp at hmem
  | cons hrole hrest ih =>
    rcases List.mem_cons.mp hmem with rfl | hmem
    · exact ⟨_, _, hrole, hrest, List.subset_cons_self ..⟩
    · obtain ⟨d, rest, hrole, hdrafts, hsubset⟩ := ih hmem
      exact ⟨d, rest, hrole, hdrafts, List.Subset.trans hsubset (List.subset_cons_self ..)⟩

/-- A chain of drafts turned into data is a chain with the same elements. -/
theorem Drafts.chain {places : List Nat} {v : Value} {drafts : List (Nat × Value)}
    (h : L.Drafts v drafts) (hplaces : ∀ entry ∈ drafts, entry.1 ∈ places) :
    (L.settle places .data).Chain v (drafts.map Prod.snd) .nil := by
  induction h with
  | nil => exact .done rfl
  | cons hrole _ ih =>
    refine .next (role_settle_of_draft hrole (hplaces _ List.mem_cons_self)) (ih ?_)
    exact fun entry hmem => hplaces entry (List.mem_cons_of_mem _ hmem)

/-- A chain of drafts turned into the pairs of a frame is a frame, if its elements are
bindings. -/
theorem Drafts.frame {places : List Nat} {v : Value} {drafts : List (Nat × Value)}
    (h : L.Drafts v drafts) (hplaces : ∀ entry ∈ drafts, entry.1 ∈ places)
    (hbinding : ∀ entry ∈ drafts, L.IsBinding entry.2) :
    ∃ bindings, (L.settle places .frame).Frame v bindings ∧
      bindings.map .pair = drafts.map Prod.snd := by
  induction h with
  | nil => exact ⟨[], .nil, rfl⟩
  | @cons place a d rest hrole _ ih =>
    obtain ⟨b, name, rfl, hb⟩ := hbinding _ List.mem_cons_self
    obtain ⟨bindings, hframe, hmap⟩ :=
      ih (fun entry hmem => hplaces entry (List.mem_cons_of_mem _ hmem))
        (fun entry hmem => hbinding entry (List.mem_cons_of_mem _ hmem))
    refine ⟨b :: bindings, .cons ?_ ((settles_settle places fun _ _ => rfl).role hb rfl) hframe, ?_⟩
    · exact role_settle_of_draft hrole (hplaces _ List.mem_cons_self)
    · simp [hmap]

/-- A list of data is finished: its drafts become data. -/
theorem Kept.settle_data (h : L.Kept s) {v : Value} {drafts : List (Nat × Value)}
    (hdrafts : L.Drafts v drafts) (hdata : ∀ entry ∈ drafts, L.Matter entry.2) :
    (L.settle (drafts.map Prod.fst) .data).Kept s := by
  have hsettles : L.Settles (L.settle (drafts.map Prod.fst) .data) :=
    settles_settle _ fun _ _ => rfl
  refine h.settle (by simp [Role.isDraft]) fun place hplace a d hrole => ?_
  obtain ⟨entry, hentry, rfl⟩ := List.mem_map.mp hplace
  obtain ⟨d', rest, hrole', hrest, hsubset⟩ := hdrafts.rest hentry
  obtain ⟨rfl, rfl⟩ : entry.2 = a ∧ d' = d := by simpa [hrole] using hrole'.symm
  -- Behind the draft stand drafts of the same list, and they are data from now on.
  have hchain := hrest.chain fun e he => List.mem_map_of_mem (hsubset he)
  refine ⟨rfl, (hdata entry hentry).mono hsettles, hchain.tree (fun element hmem => ?_) ?_⟩
  · obtain ⟨e, he, rfl⟩ := List.mem_map.mp hmem
    exact (hdata e (hsubset he)).mono hsettles
  · exact .inl L.vocabulary.nil

/-- A frame is finished: its drafts become the pairs of its list. -/
theorem Kept.settle_frame (h : L.Kept s) {v : Value} {drafts : List (Nat × Value)}
    (hdrafts : L.Drafts v drafts) (hbinding : ∀ entry ∈ drafts, L.IsBinding entry.2) :
    (L.settle (drafts.map Prod.fst) .frame).Kept s := by
  have hsettles : L.Settles (L.settle (drafts.map Prod.fst) .frame) :=
    settles_settle _ fun _ _ => rfl
  refine h.settle (by simp [Role.isDraft]) fun place hplace a d hrole => ?_
  obtain ⟨entry, hentry, rfl⟩ := List.mem_map.mp hplace
  obtain ⟨d', rest, hrole', hrest, hsubset⟩ := hdrafts.rest hentry
  obtain ⟨rfl, rfl⟩ : entry.2 = a ∧ d' = d := by simpa [hrole] using hrole'.symm
  obtain ⟨bindings, hframe, -⟩ :=
    hrest.frame (fun e he => List.mem_map_of_mem (hsubset he)) (fun e he => hbinding e (hsubset he))
  exact ⟨rfl, (hbinding entry hentry).mono hsettles, bindings, hframe⟩

end ConsLisp.Layout
