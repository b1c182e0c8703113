import ConsLisp.Proofs.Reading
import ConsLisp.Proofs.Store.Printing

/-!
# Printed forms are read back

The values that can be written down are the empty list, numbers of at most 4300 digits, symbols
with a name that is an atom and no numeral, and lists of such values.  The printed form of each is
an expression of the grammar, whatever stands behind it, as long as that begins with a delimiter.
So it is read back as a value of the same structure, and so is a sequence of printed forms with
blanks between.

Main statement: both, for every store that the values are printed in and every state that they are
read in (`read_print`).
-/

namespace ConsLisp

open Grammar Store

/-- The name is an atom that denotes a symbol: it is not empty, has no delimiter, and is neither
`nil` nor a numeral of at most 4300 digits. -/
structure Grammar.IsName (name : String) : Prop where
  nonempty : name.toList ≠ []
  atom : ∀ c ∈ name.toList, Atom.isDelimiter c = false
  not_nil : name ≠ "nil"
  not_numeral : ∀ sign digits, IsNumeral sign digits → name.toList ≠ sign ++ digits

namespace Store

/-- The value can be written down: it is made of the empty list, numbers, symbols and lists. -/
inductive Readable (s : Store) : Value → Prop
  | nil : Readable s .nil
  | num {n : Int} {serial : Option Nat} (hdigits : (Nat.toDigits 10 n.natAbs).length ≤ 4300) :
      Readable s (.num n serial)
  | sym {name : String} (hname : IsName name) : Readable s (.sym name)
  | list {v : Value} {places : List Nat} {elements : List Value}
      (hlinks : s.Links v places elements .nil) (helements : ∀ v ∈ elements, Readable s v) :
      Readable s v

/-- The values are of the same structure, each in its store: pairs of values of the same
structure, the same number, or the same atom. -/
inductive Alike (s s' : Store) : Value → Value → Prop
  | atom {v : Value} (hatom : ∀ place, v ≠ .pair place) : Alike s s' v v
  | num {n : Int} {serial serial' : Option Nat} : Alike s s' (.num n serial) (.num n serial')
  | pair {place place' : Nat} {a a' d d' : Value} (hcell : s.cell? (.pair place) = some ⟨a, d⟩)
      (hcell' : s'.cell? (.pair place') = some ⟨a', d'⟩) (hcar : Alike s s' a a')
      (hcdr : Alike s s' d d') : Alike s s' (.pair place) (.pair place')

end Store

namespace Value

/-- The value as it is written: a number is the same, whatever object it is. -/
def plain : Value → Value
  | num n _ => num n
  | v => v

@[simp] theorem num?_plain (v : Value) : v.plain.num? = v.num? := by
  cases v <;> rfl

theorem plain_of_num?_eq_none {v : Value} (h : v.num? = none) : v.plain = v := by
  cases v with
  | num => simp at h
  | _ => rfl

end Value

/-- Atoms that are written alike are of the same structure. -/
theorem Store.Alike.of_plain {s s' : Store} {v v' : Value} (hatom : ∀ place, v ≠ .pair place)
    (h : v.plain = v'.plain) : s.Alike s' v v' := by
  have hnum : v'.num? = v.num? := by rw [← v'.num?_plain, ← h, v.num?_plain]
  cases hn : v.num? with
  | some n =>
    obtain ⟨serial, rfl⟩ := Value.num?_eq_some_iff.mp hn
    obtain ⟨serial', rfl⟩ := Value.num?_eq_some_iff.mp (hnum.trans hn)
    exact .num
  | none =>
    rw [Value.plain_of_num?_eq_none hn, Value.plain_of_num?_eq_none (hnum.trans hn)] at h
    exact h ▸ .atom hatom

namespace Grammar

/-- The forms of the text are read one after the other up to its end; these are their values. -/
inductive ReadsInTurn : List Char → State → List Value → State → Prop
  | done {text : List Char} {state : State} (hend : Text.skipBlanks text = []) :
      ReadsInTurn text state [] state
  | next {text rest : List Char} {state state' state'' : State} {v : Value} {vs : List Value}
      (hmore : Text.skipBlanks text ≠ []) (hread : Reads text state v rest state')
      (hrest : ReadsInTurn rest state' vs state'') : ReadsInTurn text state (v :: vs) state''

/-! ## Printed forms as expressions -/

/-- An atom denotes one value, or one number. -/
theorem AtomDenotes.plain_eq {token : List Char} {v : Value} (h : AtomDenotes token v) :
    v.plain = Atom.denote token := by
  cases h with
  | nil => decide
  | @number sign digits _ h =>
    have hall : digits.all Char.isDigit = true := List.all_eq_true.mpr h.decimal
    have hlength : digits.length ≤ Decimal.maxDigits := h.bounded
    have hread : Decimal.read? (sign ++ digits) = some (Decimal.value (sign ++ digits)) := by
      simp [Decimal.read?, Decimal.isNumeral, splitSign_append h, hall, hlength, h.nonempty]
    simp [Value.plain, Atom.denote, hread, Decimal.value, splitSign_append h]
  | symbol hnil hnumber =>
    have hname : String.ofList token ≠ "nil" := by
      intro heq
      exact hnil (by simpa using congrArg String.toList heq)
    rw [Atom.denote, (read?_eq_none_iff token).mpr hnumber]
    simp [Value.plain, Value.ofName, hname]

/-- The text is the printed form of the value and says the expression, which nothing but the
structure of the value is denoted by. -/
structure Writes (s : Store) (v : Value) (written : String × Expression) : Prop where
  prints : s.PrintsAs v written.1
  derives {next : List Char} (hnext : EndsAtom next) :
    Derives written.1.toList (.one written.2) next
  alike {s' : Store} {own : Nat → Prop} {v' : Value} (h : Denotes s' own (.one written.2) v') :
    s.Alike s' v v'

/-- The text says the expression, wherever an atom may end behind it. -/
def Stands (item : String × Expression) : Prop :=
  ∀ next, EndsAtom next → Derives item.1.toList (.one item.2) next

variable {s : Store}

theorem Writes.stands {v : Value} {item : String × Expression} (h : Writes s v item) :
    Stands item :=
  fun _ hnext => h.derives hnext

/-- An atom that prints as a token without delimiters and is what the token denotes. -/
theorem Writes.atom {v : Value} {text : String} (hatom : ∀ place, v ≠ .pair place)
    (hprint : ∀ depth, s.print (depth + 1) v = .ok text) (hne : text.toList ≠ [])
    (hchars : ∀ c ∈ text.toList, Atom.isDelimiter c = false)
    (hv : Atom.denote text.toList = v.plain) :
    Writes s v (text, .atom text.toList) where
  prints := by
    refine ⟨1, fun depth hdepth => ?_⟩
    obtain ⟨depth, rfl⟩ : ∃ d, depth = d + 1 := ⟨depth - 1, by omega⟩
    exact hprint depth
  derives hnext := .atom hne hchars hnext
  alike h := by
    cases h with
    | atom h => exact .of_plain hatom (h.plain_eq.trans hv).symm

theorem isDelimiter_of_isDigit {c : Char} (h : c.isDigit = true) : Atom.isDelimiter c = false := by
  -- Every delimiter is a character that is no digit.
  have hne (d : Char) (hd : d.isDigit = false) : (c == d) = false := by
    rw [beq_eq_false_iff_ne]
    rintro rfl
    simp [h] at hd
  simp [Atom.isDelimiter, Text.isBlank, hne]

theorem lt_pow_of_length_le {m k : Nat} (hk : 0 < k) (h : (Nat.toDigits 10 m).length ≤ k) :
    m < Nat.pow 10 k :=
  (Nat.length_toDigits_le_iff (by decide) hk).mp h

theorem digits_ne_nil (n : Int) : Decimal.digits n ≠ [] := by
  unfold Decimal.digits
  split
  · simp
  · exact Nat.toDigits_ne_nil

theorem isDelimiter_of_mem_digits {n : Int} {c : Char} (h : c ∈ Decimal.digits n) :
    Atom.isDelimiter c = false := by
  have htoDigits (hmem : c ∈ Nat.toDigits 10 n.natAbs) : Atom.isDelimiter c = false :=
    isDelimiter_of_isDigit (Nat.isDigit_of_mem_toDigits (by decide) (by decide) hmem)
  unfold Decimal.digits at h
  split at h
  · rcases List.mem_cons.mp h with rfl | hmem
    · decide
    · exact htoDigits hmem
  · exact htoDigits h

/-- A number with digits few enough is written. -/
theorem write_of_length_le {n : Int} (hdigits : (Nat.toDigits 10 n.natAbs).length ≤ 4300) :
    Decimal.write n = .ok (String.ofList (Decimal.digits n)) := by
  have hbound : n.natAbs < Decimal.bound := by
    unfold Decimal.bound
    exact lt_pow_of_length_le (by decide) hdigits
  exact Decimal.write_eq_ok_iff.mpr ⟨hbound, rfl⟩

theorem Writes.num {n : Int} (hdigits : (Nat.toDigits 10 n.natAbs).length ≤ 4300)
    (serial : Option Nat) : ∃ written, Writes s (.num n serial) written := by
  have hwrite := write_of_length_le hdigits
  have hread := Decimal.read?_of_write hwrite
  refine ⟨_, .atom (by simp) (fun depth => by rw [Store.print]; exact hwrite) ?_ ?_ ?_⟩
  · rw [String.toList_ofList]
    exact digits_ne_nil n
  · rw [String.toList_ofList]
    exact fun c => isDelimiter_of_mem_digits
  · rw [Atom.denote, hread, Value.plain]

/-- A name denotes the symbol of that name. -/
theorem IsName.denote {name : String} (h : IsName name) : Atom.denote name.toList = .sym name := by
  rw [Atom.denote, (read?_eq_none_iff _).mpr h.not_numeral]
  simp [Value.ofName, h.not_nil]

theorem Writes.sym {name : String} (h : IsName name) :
    Writes s (.sym name) (name, .atom name.toList) :=
  .atom (by simp) (fun depth => by rw [Store.print]) h.nonempty h.atom h.denote

theorem Writes.nil : Writes s .nil ("nil", .atom "nil".toList) :=
  .atom (by simp) (fun depth => by rw [Store.print]) (by decide)
    (by simp [Atom.isDelimiter, Text.isBlank]) (by decide)

/-- What stands behind the first element of a list up to the closing parenthesis. -/
def others (written : List (String × Expression)) : List Char :=
  written.flatMap fun item => ' ' :: item.1.toList

theorem endsAtom_others {next : List Char} (hnext : EndsAtom next)
    (written : List (String × Expression)) : EndsAtom (others written ++ next) := by
  cases written with
  | nil => exact hnext
  | cons item written =>
    intro c hmem
    obtain rfl : ' ' = c := by simpa [others] using hmem
    decide

theorem endsAtom_close (next : List Char) : EndsAtom (')' :: next) := by
  intro c hmem
  obtain rfl : ')' = c := by simpa using hmem
  decide

theorem toList_intercalate (item : String × Expression) (written : List (String × Expression)) :
    (" ".intercalate ((item :: written).map Prod.fst)).toList =
      item.1.toList ++ others written := by
  induction written generalizing item with
  | nil => simp [others]
  | cons other written ih =>
    have hrest := ih other
    simp only [String.toList_intercalate, List.map_cons, List.intercalate,
      List.intersperse_cons_cons, List.flatten_cons] at hrest ⊢
    rw [hrest]
    simp [others]

theorem blanks_blank : Blanks [' '] := by
  intro c hmem
  rw [List.mem_singleton.mp hmem]
  decide

/-- The texts behind the first one are the rest of a list. -/
theorem derives_others {written : List (String × Expression)}
    (h : ∀ item ∈ written, Stands item) (next : List Char) :
    Derives (others written ++ [')']) (.many (written.map Prod.snd)) next := by
  induction written with
  | nil => exact .close (w := []) (by simp [Blanks])
  | cons item written ih =>
    have hitem := h item List.mem_cons_self
    have hrest := ih fun other hmem => h other (List.mem_cons_of_mem item hmem)
    have hends : EndsAtom (others written ++ [')'] ++ next) := by
      rw [List.append_assoc]
      exact endsAtom_others (endsAtom_close next) written
    have hderives := Derives.item blanks_blank (hitem _ hends) hrest
    simpa [others] using hderives

/-- Texts of expressions, with blanks between and in parentheses, are the text of a list. -/
theorem Stands.list {item : String × Expression} {written : List (String × Expression)}
    (h : ∀ other ∈ item :: written, Stands other) :
    Stands ("(" ++ " ".intercalate ((item :: written).map Prod.fst) ++ ")",
      .list ((item :: written).map Prod.snd)) := by
  intro next _
  obtain ⟨hfirst, hrest⟩ := List.forall_mem_cons.mp h
  have hends : EndsAtom (others written ++ [')'] ++ next) := by
    rw [List.append_assoc]
    exact endsAtom_others (endsAtom_close next) written
  have hderives := Derives.item (w := []) (by simp [Blanks]) (hfirst _ hends)
    (derives_others hrest next)
  have htext : ("(" ++ " ".intercalate ((item :: written).map Prod.fst) ++ ")").toList =
      '(' :: ([] ++ (item.1.toList ++ (others written ++ [')']))) := by
    rw [String.toList_append, String.toList_append, toList_intercalate]
    simp
  rw [htext]
  exact .list hderives

/-- Values that are denoted by the expressions of a list are a list of the same structure. -/
theorem alike_of_denotes {s' : Store} {own : Nat → Prop} {v v' : Value} {places : List Nat}
    {elements : List Value} {written : List (String × Expression)}
    (hlinks : s.Links v places elements .nil) (hwritten : List.Forall₂ (Writes s) elements written)
    (h : Denotes s' own (.many (written.map Prod.snd)) v') : s.Alike s' v v' := by
  induction hwritten generalizing v places v' with
  | nil =>
    cases hlinks with
    | done =>
      cases h with
      | nil => exact .atom (by simp)
  | cons hitem _ ih =>
    cases hlinks with
    | next hcell hrest =>
      cases h with
      | cons _ hcell' hcar hcdr => exact .pair hcell hcell' (hitem.alike hcar) (ih hrest hcdr)

theorem Writes.list {place : Nat} {places : List Nat} {elements : List Value}
    {written : List (String × Expression)} (hlinks : s.Links (.pair place) places elements .nil)
    (hwritten : List.Forall₂ (Writes s) elements written) :
    Writes s (.pair place) ("(" ++ " ".intercalate (written.map Prod.fst) ++ ")",
      .list (written.map Prod.snd)) where
  prints := by
    refine .list hlinks ?_
    rw [List.forall₂_map_right_iff]
    exact hwritten.imp fun _ _ hitem => hitem.prints
  derives {next} hnext := by
    cases hwritten with
    | nil => cases hlinks
    | @cons _ item _ written hfirst hrest =>
      have hsays : ∀ other ∈ item :: written, Stands other := by
        intro other hmem
        obtain ⟨i, hi, rfl⟩ := List.getElem_of_mem hmem
        have hwritten := List.Forall₂.cons hfirst hrest
        exact (hwritten.get (hwritten.length_eq ▸ hi) hi).stands
      exact Stands.list hsays next hnext
  alike h := by
    cases h with
    | list h => exact alike_of_denotes hlinks hwritten h

/-- Values that are written one by one are written as a list. -/
theorem exists_writes_each {elements : List Value}
    (h : ∀ v ∈ elements, ∃ written, Writes s v written) :
    ∃ written, List.Forall₂ (Writes s) elements written := by
  induction elements with
  | nil => exact ⟨[], .nil⟩
  | cons element elements ih =>
    obtain ⟨item, hitem⟩ := h element List.mem_cons_self
    obtain ⟨written, hwritten⟩ := ih fun v hmem => h v (List.mem_cons_of_mem element hmem)
    exact ⟨item :: written, .cons hitem hwritten⟩

/-- Every value that can be written down has an expression that says it. -/
theorem exists_writes {v : Value} (h : s.Readable v) : ∃ written, Writes s v written := by
  induction h with
  | nil => exact ⟨_, .nil⟩
  | num hdigits => exact Writes.num hdigits _
  | sym hname => exact ⟨_, .sym hname⟩
  | @list v places elements hlinks _ ih =>
    obtain ⟨written, hwritten⟩ := exists_writes_each ih
    cases places with
    | nil =>
      cases hlinks
      exact ⟨_, .nil⟩
    | cons place places =>
      obtain rfl : v = .pair place := by
        cases hlinks
        rfl
      exact ⟨_, .list hlinks hwritten⟩

/-! ## Reading back -/

theorem skipBlanks_derives {w text next : List Char} {e : Expression} (hw : Blanks w)
    (h : Derives text (.one e) next) : Text.skipBlanks (w ++ (text ++ next)) ≠ [] := by
  obtain ⟨c, rest, rfl, hblank, -⟩ := h.head
  rw [skipBlanks_append hw, List.cons_append, skipBlanks_cons hblank]
  simp

/-- The text is read in turn, in every state, as values of the structure of these. -/
def ReadsBack (s : Store) (text : List Char) (elements : List Value) : Prop :=
  ∀ state : State, ∃ vs state', ReadsInTurn text state vs state' ∧
    List.Forall₂ (s.Alike state'.store) elements vs ∧ KeepsExcept [] state.store state'.store

/-- An expression in front of what is read in turn.  Its value stays while the rest is read. -/
theorem ReadsBack.cons {v : Value} {item : String × Expression} {elements : List Value}
    {w text : List Char} (hw : Blanks w) (hitem : Writes s v item) (htext : EndsAtom text)
    (h : ReadsBack s text elements) :
    ReadsBack s (w ++ (item.1.toList ++ text)) (v :: elements) := by
  intro state
  obtain ⟨v', state', hread, hdenotes, hkeeps⟩ := (hitem.derives htext).reads hw state
  obtain ⟨vs, state'', hrest, halike, hkeeps'⟩ := h state'
  have hfinal : Denotes state''.store (state.store.size ≤ ·) (.one item.2) v' :=
    hdenotes.keep hkeeps' (Nat.le_refl _) (by simp)
  exact ⟨v' :: vs, state'', .next (skipBlanks_derives hw (hitem.derives htext)) hread hrest,
    .cons (hitem.alike hfinal) halike, hkeeps.trans hkeeps' (by simp)⟩

/-- Texts with a blank before each are read back. -/
theorem readsBack_others {elements : List Value} {written : List (String × Expression)}
    (h : List.Forall₂ (Writes s) elements written) : ReadsBack s (others written) elements := by
  induction h with
  | nil => exact fun state => ⟨[], state, .done rfl, .nil, .refl [] _⟩
  | @cons v item elements written hitem _ ih =>
    have hends : EndsAtom (others written ++ []) := endsAtom_others (by simp [EndsAtom]) written
    rw [List.append_nil] at hends
    have hback := ih.cons blanks_blank hitem hends
    simpa [others] using hback

/-- Texts with blanks between are read back. -/
theorem readsBack_joined {elements : List Value} {written : List (String × Expression)}
    (h : List.Forall₂ (Writes s) elements written) :
    ReadsBack s (" ".intercalate (written.map Prod.fst)).toList elements := by
  cases h with
  | nil => exact fun state => ⟨[], state, .done rfl, .nil, .refl [] _⟩
  | @cons _ item _ written hitem hrest =>
    have hnone : Blanks [] := by simp [Blanks]
    have hends : EndsAtom (others written ++ []) := endsAtom_others (by simp [EndsAtom]) written
    rw [List.append_nil] at hends
    rw [toList_intercalate]
    exact (readsBack_others hrest).cons hnone hitem hends

/-- A value that can be written down is read back from its printed form: the value that is read is
of the same structure, and exactly the text behind the printed form is left.  The printed forms of
such values with blanks between are read back one by one, up to the end of the text. -/
theorem read_print (s : Store) :
    (∀ v, s.Readable v → ∃ text, s.PrintsAs v text ∧
      ∀ next, EndsAtom next → ∀ state : State, ∃ v' state',
        Reads (text.toList ++ next) state v' next state' ∧ s.Alike state'.store v v') ∧
    ∀ vs, (∀ v ∈ vs, s.Readable v) → ∃ texts, List.Forall₂ s.PrintsAs vs texts ∧
      ∀ state : State, ∃ vs' state',
        ReadsInTurn (" ".intercalate texts).toList state vs' state' ∧
        List.Forall₂ (s.Alike state'.store) vs vs' := by
  constructor
  · intro v hv
    obtain ⟨written, hwrites⟩ := exists_writes hv
    refine ⟨written.1, hwrites.prints, fun next hnext state => ?_⟩
    have hempty : Blanks [] := by simp [Blanks]
    obtain ⟨v', state', hreads, hdenotes, -⟩ := (hwrites.derives hnext).reads hempty state
    exact ⟨v', state', hreads, hwrites.alike hdenotes⟩
  · intro vs hvs
    obtain ⟨written, hwritten⟩ := exists_writes_each fun v hmem => exists_writes (hvs v hmem)
    refine ⟨written.map Prod.fst, ?_, fun state => ?_⟩
    · rw [List.forall₂_map_right_iff]
      exact hwritten.imp fun _ _ hitem => hitem.prints
    · obtain ⟨vs', state', hread, halike, -⟩ := readsBack_joined hwritten state
      exact ⟨vs', state', hread, halike⟩

/-- The cells of the list `(a (-12 nil))`. -/
def sample : Store :=
  { cells := #[⟨.sym "a", .pair 1⟩, ⟨.pair 2, .nil⟩, ⟨.num (-12), .pair 3⟩, ⟨.nil, .nil⟩] }

theorem readable_sample : sample.Readable (.pair 0) := by
  have hname : IsName "a" :=
    ⟨by decide, by simp [Atom.isDelimiter, Text.isBlank], by decide,
      (read?_eq_none_iff _).mp (by decide)⟩
  have hinner : sample.Readable (.pair 2) := by
    have hlinks : sample.Links (.pair 2) [2, 3] [.num (-12), .nil] .nil :=
      .next rfl (.next rfl (.done rfl))
    refine .list hlinks fun v hmem => ?_
    simp only [List.mem_cons, List.not_mem_nil, or_false] at hmem
    rcases hmem with rfl | rfl
    · exact .num (by decide)
    · exact .nil
  have hlinks : sample.Links (.pair 0) [0, 1] [.sym "a", .pair 2] .nil :=
    .next rfl (.next rfl (.done rfl))
  refine .list hlinks fun v hmem => ?_
  simp only [List.mem_cons, List.not_mem_nil, or_false] at hmem
  rcases hmem with rfl | rfl
  · exact .sym hname
  · exact hinner

/-- A nested list is read back with a closing parenthesis behind it, and twice in a row. -/
theorem read_print_nested :
    (∃ text, sample.PrintsAs (.pair 0) text ∧ ∀ state : State, ∃ v' state',
      Reads (text.toList ++ [')']) state v' [')'] state' ∧ sample.Alike state'.store (.pair 0) v') ∧
    ∃ texts, List.Forall₂ sample.PrintsAs [.pair 0, .pair 0] texts ∧ ∀ state : State,
      ∃ vs' state', ReadsInTurn (" ".intercalate texts).toList state vs' state' ∧
        List.Forall₂ (sample.Alike state'.store) [.pair 0, .pair 0] vs' := by
  constructor
  · obtain ⟨text, hprints, hreads⟩ := (read_print sample).1 (.pair 0) readable_sample
    exact ⟨text, hprints, hreads [')'] (endsAtom_close [])⟩
  · refine (read_print sample).2 [.pair 0, .pair 0] fun v hmem => ?_
    obtain rfl : v = .pair 0 := by simpa using hmem
    exact readable_sample

end Grammar

end ConsLisp
