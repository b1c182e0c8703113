import ConsLisp.Proofs.Layout.Founded
import ConsLisp.Proofs.Store.Lookup
import ConsLisp.Proofs.Store.Printing

/-!
# Walks in a kept store

In a store that keeps to a layout every chain ends, so no walk along data, a frame or an
environment gives up.  Here is what the walks find: the elements of a list, the binding of a
name, the last cell of an environment, a printed form.

Main statements: a lookup is a search in the local frames and then in the global one
(`Scope.binding?_eq`), no part of a value is an error (`Data.isError_of_part`), and printing fails
only on numbers and nesting (`Matter.unprintable`).
-/

namespace ConsLisp

namespace Layout

variable {L : Layout} {s : Store}

theorem cell?_of_isPlace {v : Value} (h : v.isPlace = false) : s.cell? v = none := by
  cases v <;> first | rfl | simp [Value.isPlace] at h

/-! ## Data -/

theorem Tree.car (h : L.Kept s) {atom : Value → Prop} {v : Value} (hnil : atom .nil)
    (hv : L.Tree atom v) : L.Tree atom (s.car v) := by
  cases hv with
  | atom hplace => simpa [Store.car, cell?_of_isPlace hplace] using .atom rfl hnil
  | pair hrole hcar _ => simpa [Store.car, h.cell_data hrole] using hcar

theorem Tree.cdr (h : L.Kept s) {atom : Value → Prop} {v : Value} (hnil : atom .nil)
    (hv : L.Tree atom v) : L.Tree atom (s.cdr v) := by
  cases hv with
  | atom hplace => simpa [Store.cdr, cell?_of_isPlace hplace] using .atom rfl hnil
  | pair hrole _ hcdr => simpa [Store.cdr, h.cell_data hrole] using hcdr

/-- The fields of a given pair are given, and so are those of an atom if `nil` is. -/
theorem Given.fields (h : L.Kept s) {atom : Value → Prop} {v : Value} (htree : L.Tree atom v)
    (hnil : L.Given .nil) (hv : L.Given v) : L.Given (s.car v) ∧ L.Given (s.cdr v) := by
  cases htree with
  | atom hplace => simpa [Store.car, Store.cdr, cell?_of_isPlace hplace] using hnil
  | pair hrole =>
    simp only [Store.car, Store.cdr, h.cell_data hrole]
    exact ⟨.car hrole hv, .cdr hrole hv⟩

theorem Code.car (h : L.Kept s) (hnil : L.Given .nil) {v : Value} (hv : L.Code v) :
    L.Code (s.car v) :=
  ⟨Tree.car h L.vocabulary.nil hv.1, (Given.fields h hv.1 hnil hv.2).1⟩

theorem Code.cdr (h : L.Kept s) (hnil : L.Given .nil) {v : Value} (hv : L.Code v) :
    L.Code (s.cdr v) :=
  ⟨Tree.cdr h L.vocabulary.nil hv.1, (Given.fields h hv.1 hnil hv.2).2⟩

theorem Data.car (h : L.Kept s) {v : Value} (hv : L.Data v) : L.Data (s.car v) :=
  Tree.car h L.vocabulary.nil hv

theorem Data.cdr (h : L.Kept s) {v : Value} (hv : L.Data v) : L.Data (s.cdr v) :=
  Tree.cdr h L.vocabulary.nil hv

/-- The pairs of a chain of data are met in the store. -/
theorem Chain.links (h : L.Kept s) {v tail : Value} {elements : List Value}
    (hv : L.Chain v elements tail) : ∃ places, s.Links v places elements tail := by
  induction hv with
  | done hplace => exact ⟨[], .done (cell?_of_isPlace hplace)⟩
  | next hrole _ ih =>
    obtain ⟨places, hlinks⟩ := ih
    exact ⟨_ :: places, .next (h.cell_data hrole) hlinks⟩

theorem Chain.length_le_size (h : L.Kept s) {v tail : Value} {elements : List Value}
    (hv : L.Chain v elements tail) : elements.length ≤ s.size := by
  obtain ⟨places, hlinks⟩ := hv.links h
  rw [hlinks.length_eq]
  exact hlinks.length_le_size

/-- The chain of a tree ends, and its elements are trees. -/
theorem Tree.links (h : L.Kept s) {atom : Value → Prop} {v : Value} (hv : L.Tree atom v) :
    ∃ places elements tail, s.Links v places elements tail ∧
      (∀ element ∈ elements, L.Tree atom element) ∧ tail.isPlace = false ∧ atom tail := by
  obtain ⟨elements, tail, hchain, helements, htail⟩ := hv.chain
  obtain ⟨places, hlinks⟩ := hchain.links h
  exact ⟨places, elements, tail, hlinks, helements, htail⟩

/-- The fields of data are never changed. -/
theorem Tree.car_eq {M : Layout} {s' : Store} (h : L.Kept s) (h' : M.Kept s')
    (hsettles : L.Settles M) {atom : Value → Prop} {v : Value} (hv : L.Tree atom v) :
    s'.car v = s.car v := by
  cases hv with
  | atom hplace => simp [Store.car, cell?_of_isPlace hplace]
  | pair hrole =>
    simp [Store.car, h.cell_data hrole, h'.cell_data (hsettles.role hrole rfl)]

/-! ## Environments -/

/-- The global frame of a store. -/
def globalFrame (L : Layout) (s : Store) : Value :=
  s.car (.pair L.home)

theorem globalFrame_eq {M : Layout} (h : L.Settles M) (s : Store) :
    M.globalFrame s = L.globalFrame s := by
  rw [globalFrame, globalFrame, h.home]

/-- A new pair is not the global cell. -/
theorem Kept.globalFrame_cons (h : L.Kept s) (a d : Value) :
    L.globalFrame (s.cons a d).2 = L.globalFrame s := by
  have hne : (.pair L.home : Value) ≠ (s.cons a d).1 := by
    -- The new pair lies behind all cells that have a role.
    have hlt := h.lt_size h.home
    simp only [Store.cons, ne_eq, Value.pair.injEq]
    exact Nat.ne_of_lt hlt
  simp [globalFrame, Store.car, Store.cell?_cons, hne]

/-- A second field that is overwritten is no frame. -/
theorem globalFrame_setCdr (v d : Value) : L.globalFrame (s.setCdr v d) = L.globalFrame s := by
  simp only [globalFrame, Store.car, Store.cell?_setCdr]
  split
  · cases s.cell? (.pair L.home) <;> rfl
  · rfl

/-- The global frame is what the global cell is overwritten with. -/
theorem Kept.globalFrame_setCar (h : L.Kept s) (frame : Value) :
    L.globalFrame (s.setCar (.pair L.home) frame) = frame := by
  obtain ⟨old, _, hhome, -⟩ := h.cell_home
  simp [globalFrame, Store.car, Store.cell?_setCar, hhome]

/-- The chain of a frame meets the same pairs in every later store. -/
theorem Frame.links_of_settles {v : Value} {bindings : List Nat} (hv : L.Frame v bindings) :
    ∃ places, ∀ (M : Layout) (s : Store), L.Settles M → M.Kept s →
      s.Links v places (bindings.map .pair) .nil := by
  induction hv with
  | nil => exact ⟨[], fun _ _ _ _ => .done rfl⟩
  | cons hrole _ _ ih =>
    obtain ⟨places, hlinks⟩ := ih
    exact ⟨_ :: places, fun M s hsettles hkept =>
      .next (hkept.cell_frame (hsettles.role hrole rfl)) (hlinks M s hsettles hkept)⟩

/-- The chain of a frame ends, and its elements are the bindings. -/
theorem Frame.links (h : L.Kept s) {v : Value} {bindings : List Nat} (hv : L.Frame v bindings) :
    ∃ places, s.Links v places (bindings.map .pair) .nil := by
  obtain ⟨places, hlinks⟩ := hv.links_of_settles
  exact ⟨places, hlinks L s settles_refl h⟩

theorem Frame.isList (h : L.Kept s) {v : Value} {bindings : List Nat} (hv : L.Frame v bindings) :
    s.IsList v (bindings.map .pair) :=
  hv.links h

theorem Frame.isBinding {v : Value} {bindings : List Nat} (hv : L.Frame v bindings) {binding : Nat}
    (hmem : binding ∈ bindings) : ∃ name, L.role binding = some (.binding name) := by
  induction hv with
  | nil => simp at hmem
  | cons _ hbinding _ ih =>
    rcases List.mem_cons.mp hmem with rfl | hmem
    · exact ⟨_, hbinding⟩
    · exact ih hmem

/-- The chain of an environment ends behind the global cell.  Its elements are the local frames
and the global one. -/
theorem Scope.links (h : L.Kept s) {env : Value} {frames : List (List Nat)}
    (henv : L.Scope env frames) :
    ∃ places locals, s.Links env (places ++ [L.home]) (locals ++ [L.globalFrame s]) .nil ∧
      List.Forall₂ L.Frame locals frames := by
  induction henv with
  | globals =>
    obtain ⟨frame, bindings, hcell, -⟩ := h.cell_home
    exact ⟨[], [], by simpa [globalFrame, Store.car, hcell] using .next hcell (.done rfl), .nil⟩
  | cons hrole hframe _ ih =>
    obtain ⟨places, locals, hlinks, hlocals⟩ := ih
    exact ⟨_ :: places, _ :: locals, .next (h.cell_scope hrole) hlinks, .cons hframe hlocals⟩

theorem Scope.isBinding {env : Value} {frames : List (List Nat)} (henv : L.Scope env frames)
    {binding : Nat} (hmem : binding ∈ frames.flatten) :
    ∃ name, L.role binding = some (.binding name) := by
  induction henv with
  | globals => simp at hmem
  | cons _ hframe _ ih =>
    rw [List.flatten_cons, List.mem_append] at hmem
    rcases hmem with hmem | hmem
    · exact hframe.isBinding hmem
    · exact ih hmem

/-- The global cell is the last of every environment. -/
theorem Scope.globalOf_eq (h : L.Kept s) {env : Value} {frames : List (List Nat)}
    (henv : L.Scope env frames) : s.globalOf env = .ok (.pair L.home) := by
  obtain ⟨places, locals, hlinks, -⟩ := henv.links h
  cases places with
  | nil => exact hlinks.last_eq
  | cons place places =>
    rw [List.cons_append] at hlinks
    have hlast := hlinks.last_eq
    simpa [Store.globalOf] using hlast

/-- The first of these bindings that binds a name. -/
def bindingOf (L : Layout) (name : Value) (bindings : List Nat) : Option Nat :=
  bindings.find? fun binding => L.role binding = some (.binding name)

/-- A layout that grows finds the same among bindings that it knows. -/
theorem bindingOf_eq_of_settles {M : Layout} (h : L.Settles M) {bindings : List Nat}
    (hbindings : ∀ binding ∈ bindings, ∃ name, L.role binding = some (.binding name))
    (name : Value) : M.bindingOf name bindings = L.bindingOf name bindings := by
  induction bindings with
  | nil => rfl
  | cons binding bindings ih =>
    obtain ⟨name', hrole⟩ := hbindings binding List.mem_cons_self
    have hrest := ih fun other hmem => hbindings other (List.mem_cons_of_mem _ hmem)
    rw [bindingOf, bindingOf, List.find?_cons, List.find?_cons, hrole, h.role hrole rfl]
    split
    · rfl
    · exact hrest

theorem Kept.findSome?_bindingAt (h : L.Kept s) {bindings : List Nat}
    (hbindings : ∀ binding ∈ bindings, ∃ name, L.role binding = some (.binding name))
    (name : Value) :
    (bindings.map .pair).findSome? (s.bindingAt name) = (L.bindingOf name bindings).map .pair := by
  induction bindings with
  | nil => rfl
  | cons binding bindings ih =>
    obtain ⟨name', hrole⟩ := hbindings binding List.mem_cons_self
    obtain ⟨value, hcell, -⟩ := h.cell_binding hrole
    have hrest := ih fun other hmem => hbindings other (List.mem_cons_of_mem _ hmem)
    rw [List.map_cons, List.findSome?_cons, hrest, bindingOf, bindingOf, List.find?_cons, hrole]
    by_cases hname : name' = name <;> simp [Store.bindingAt, hcell, hname]

/-- The bindings of an environment are those of its local frames and the global ones. -/
theorem Scope.isBinding_append {env : Value} {frames : List (List Nat)} (henv : L.Scope env frames)
    {globals : List Nat} (hglobals : L.Frame (L.globalFrame s) globals) :
    ∀ binding ∈ frames.flatten ++ globals, ∃ name, L.role binding = some (.binding name) := by
  intro binding hmem
  rcases List.mem_append.mp hmem with hmem | hmem
  · exact henv.isBinding hmem
  · exact hglobals.isBinding hmem

/-- A name is looked up in the local frames, innermost first, and then in the global one. -/
theorem Scope.binding?_eq (h : L.Kept s) {env : Value} {frames : List (List Nat)}
    (henv : L.Scope env frames) {globals : List Nat} (hglobals : L.Frame (L.globalFrame s) globals)
    (name : Value) :
    s.binding? name env = .ok ((L.bindingOf name (frames.flatten ++ globals)).map .pair) := by
  obtain ⟨places, locals, hlinks, hlocals⟩ := henv.links h
  have hall : List.Forall₂ L.Frame (locals ++ [L.globalFrame s]) (frames ++ [globals]) :=
    List.rel_append hlocals (.cons hglobals .nil)
  have hlists : List.Forall₂ s.Lists (locals ++ [L.globalFrame s])
      ((frames ++ [globals]).map (List.map .pair)) := by
    rw [List.forall₂_map_right_iff]
    exact hall.imp fun frame bindings hframe => (hframe.isList h).lists
  rw [Store.binding?_of_links hlinks hlists, ← List.map_flatten, List.flatten_append,
    List.flatten_singleton, h.findSome?_bindingAt (henv.isBinding_append hglobals)]

theorem Kept.frame_home (h : L.Kept s) : ∃ globals, L.Frame (L.globalFrame s) globals := by
  obtain ⟨frame, globals, hcell, hglobals⟩ := h.cell_home
  exact ⟨globals, by simpa [globalFrame, Store.car, hcell] using hglobals⟩

/-- What a lookup finds is a binding of the name. -/
theorem Env.binding?_ok (h : L.Kept s) {env : Value} (henv : L.Env env) (name : Value) :
    ∃ found, s.binding? name env = .ok found ∧
      ∀ binding, found = some binding → ∃ place, binding = .pair place ∧
        L.role place = some (.binding name) := by
  obtain ⟨frames, hscope⟩ := henv
  obtain ⟨globals, hglobals⟩ := h.frame_home
  refine ⟨_, hscope.binding?_eq h hglobals name, fun binding hbinding => ?_⟩
  obtain ⟨place, hfind, rfl⟩ := Option.map_eq_some_iff.mp hbinding
  exact ⟨place, rfl, by simpa using List.find?_some hfind⟩

/-- As long as the global frame stays, a lookup finds the same. -/
theorem Env.binding?_congr {M : Layout} {s' : Store} (h : L.Kept s) (h' : M.Kept s')
    (hsettles : L.Settles M) (hglobal : M.globalFrame s' = L.globalFrame s) {env : Value}
    (henv : L.Env env) (name : Value) : s'.binding? name env = s.binding? name env := by
  obtain ⟨frames, hscope⟩ := henv
  obtain ⟨globals, hglobals⟩ := h.frame_home
  -- The same list of bindings is searched, and their names have not changed.
  have hglobals' : M.Frame (M.globalFrame s') globals := hglobal ▸ hglobals.mono hsettles
  rw [(hscope.mono hsettles).binding?_eq h' hglobals', hscope.binding?_eq h hglobals,
    bindingOf_eq_of_settles hsettles (hscope.isBinding_append hglobals)]

/-- The value of a variable is an outcome. -/
theorem Env.value?_ok (h : L.Kept s) {env : Value} (henv : L.Env env) (name : Value) :
    ∃ found, s.value? name env = .ok found ∧ ∀ value, found = some value → L.Outcome value := by
  obtain ⟨found, hfound, hbinding⟩ := henv.binding?_ok h name
  refine ⟨found.map s.cdr, by rw [Store.value?, hfound]; rfl, fun value hvalue => ?_⟩
  obtain ⟨binding, rfl, rfl⟩ := Option.map_eq_some_iff.mp hvalue
  obtain ⟨place, rfl, hrole⟩ := hbinding binding rfl
  obtain ⟨value, hcell, -, hvalue⟩ := h.cell_binding hrole
  simpa [Store.cdr, hcell] using hvalue

/-! ## Parts -/

/-- A pair of a tree is a pair of data, and its fields are trees. -/
theorem Tree.cell (h : L.Kept s) {atom : Value → Prop} {v : Value} {c : Cell}
    (hv : L.Tree atom v) (hcell : s.cell? v = some c) :
    ∃ place, v = .pair place ∧ L.role place = some (.data c.car c.cdr) ∧ L.Tree atom c.car ∧
      L.Tree atom c.cdr := by
  cases hv with
  | atom hplace => simp [cell?_of_isPlace hplace] at hcell
  | @pair place a d hrole hcar hcdr =>
    obtain rfl := Option.some.inj ((h.cell_data hrole).symm.trans hcell)
    exact ⟨place, rfl, hrole, hcar, hcdr⟩

theorem Tree.part (h : L.Kept s) {atom : Value → Prop} {v w : Value} (hv : L.Tree atom v)
    (hpart : s.Part v w) : L.Tree atom w := by
  induction hpart with
  | refl => exact hv
  | car _ hcell ih =>
    obtain ⟨place, -, -, hcar, -⟩ := ih.cell h hcell
    exact hcar
  | cdr _ hcell ih =>
    obtain ⟨place, -, -, -, hcdr⟩ := ih.cell h hcell
    exact hcdr

/-- What lies within a value is a part of it. -/
theorem Within.part (h : L.Kept s) {whole v : Value} (hv : L.Within whole v) :
    s.Part whole v := by
  induction hv with
  | refl => exact .refl
  | car hrole _ ih => exact ih.car (h.cell_data hrole)
  | cdr hrole _ ih => exact ih.cdr (h.cell_data hrole)

/-- No part of a value that a program computes with is an error. -/
theorem Data.isError_of_part (h : L.Kept s) {v w : Value} (hv : L.Data v) (hpart : s.Part v w) :
    w.isError = false :=
  Data.isError (Tree.part h hv hpart)

/-- Printing fails only on too many nested calls and on a number that is too long. -/
theorem Matter.unprintable (h : L.Kept s) {v : Value} (hv : L.Matter v) {depth : Nat}
    {abort : Abort} (hprint : s.print depth v = .error abort) :
    abort = .tooDeep ∧ s.Nests depth v ∨
      abort = .numberTooLong ∧ ∃ n serial, s.Part v (.num n serial) ∧ Decimal.bound ≤ n.natAbs := by
  cases h.founded.unprintable hprint with
  | tooDeep hnests => exact .inl ⟨rfl, hnests⟩
  | number hpart hlong => exact .inr ⟨rfl, _, _, hpart, hlong⟩
  | foreign hpart =>
    -- A host object is neither an atom of a value nor an error.
    cases Tree.part h hv hpart with
    | atom _ hatom =>
      rcases hatom with hatom | herror
      · exact (L.vocabulary.token hatom).elim
      · simp [Value.isError] at herror

/-- Printing program text fails only on too many nested calls: its numbers have been read. -/
theorem Code.unprintable (h : L.Kept s) {v : Value} (hv : L.Code v) {depth : Nat} {abort : Abort}
    (hprint : s.print depth v = .error abort) : abort = .tooDeep ∧ s.Nests depth v := by
  refine (hv.data.matter.unprintable h hprint).resolve_right ?_
  rintro ⟨-, n, serial, hpart, hlong⟩
  cases Tree.part h hv.1 hpart with
  | atom _ hword => exact absurd (L.vocabulary.token hword) (Nat.not_lt.mpr hlong)

end Layout

end ConsLisp
