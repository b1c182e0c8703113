import ConsLisp.Proofs.Chronicle.Evaluation
import ConsLisp.Proofs.Reading.Verdict

/-!
# The reader keeps a chronicle sound

The reader makes lists of plain atoms and errors, and takes at least one character for each form,
so it never gives up on a list.  What it makes of a line is learned as a form.  If an expression
stands in front of the line, the form is program text.  If none does, the form is an error or
quotes what the reader made, and evaluating it does no more than to take off the quote.

Main statements: one lemma for the functions of the reader (`Leads.reading`), and what a line leads
to (`Leads.evalLine`).
-/

namespace ConsLisp

/-! ## Atoms -/

/-- All atoms that can be read are words. -/
def Vocabulary.IsFull (V : Vocabulary) : Prop :=
  ∀ v, v.IsToken → V.word v

/-- The vocabulary of all atoms that can be read. -/
def Vocabulary.full : Vocabulary where
  word := Value.IsToken
  token hword := hword
  nil := trivial
  t := trivial
  quote := trivial
  name _ := trivial

theorem Value.isPlace_of_isToken {v : Value} (h : v.IsToken) : v.isPlace = false := by
  cases v with
  | pair => exact h.elim
  | _ => rfl

/-- A text of digits is a number with no more digits. -/
theorem Decimal.ofDigitChars_lt {digits : List Char} (h : ∀ c ∈ digits, c.isDigit = true) :
    Nat.ofDigitChars 10 digits 0 < Nat.pow 10 digits.length := by
  induction digits with
  | nil => exact Nat.one_pos
  | cons c digits ih =>
    have hc : c.toNat - '0'.toNat ≤ 9 := by
      have hdigit := h c List.mem_cons_self
      simp only [Char.isDigit, Bool.and_eq_true, decide_eq_true_eq] at hdigit
      have hle : c.toNat ≤ 57 := hdigit.2
      have hzero : '0'.toNat = 48 := rfl
      omega
    have hrest := ih fun other hmem => h other (List.mem_cons_of_mem c hmem)
    have hfirst : Nat.pow 10 digits.length * (10 * 0 + (c.toNat - '0'.toNat)) ≤
        Nat.pow 10 digits.length * 9 :=
      Nat.mul_le_mul_left _ (by omega)
    have hpow : Nat.pow 10 (c :: digits).length = Nat.pow 10 digits.length * 10 := rfl
    rw [Nat.ofDigitChars_cons, Nat.ofDigitChars_eq_ofDigitChars_zero, ← Nat.pow_eq, hpow]
    omega

theorem Decimal.ofDigitChars_lt_pow {digits : List Char} {k : Nat}
    (h : ∀ c ∈ digits, c.isDigit = true) (hlength : digits.length ≤ k) :
    Nat.ofDigitChars 10 digits 0 < Nat.pow 10 k :=
  (ofDigitChars_lt h).trans_le (Nat.pow_le_pow_right (by decide) hlength)

/-- The reader makes tokens of atoms. -/
theorem Value.isToken_denote (token : List Char) : (Atom.denote token).IsToken := by
  have hdenotes := Grammar.AtomDenotes.denote token
  generalize Atom.denote token = v at hdenotes ⊢
  cases hdenotes with
  | nil | symbol => trivial
  | @number sign digits _ h =>
    have hlt : Nat.ofDigitChars 10 digits 0 < Decimal.bound := by
      unfold Decimal.bound
      exact Decimal.ofDigitChars_lt_pow h.decimal h.bounded
    simp only [IsToken]
    split <;> simpa using hlt

namespace Layout

variable {L : Layout} {s : Store}

/-- What denotes an expression is free of errors. -/
theorem Script.words (h : L.Kept s) {own : Nat → Prop} {phrase : Grammar.Phrase} {v : Value}
    (hdenotes : Grammar.Denotes s own phrase v) (hv : L.Script v) :
    L.Tree L.vocabulary.word v := by
  induction hdenotes with
  | atom hatom =>
    cases hv with
    | atom hplace hword =>
      have hone : Grammar.Denotes s own (.one (.atom _)) _ := .atom hatom
      exact .atom hplace (hword.resolve_right (by simp [hone.isError]))
    | pair => cases hatom
  | list _ ih => exact ih hv
  | quote _ ih => exact ih hv
  | nil => exact .atom rfl L.vocabulary.nil
  | cons _ hcell _ _ ihcar ihcdr =>
    obtain ⟨place, hplace, hrole, hcar, hcdr⟩ := Tree.cell h hv hcell
    rw [hplace]
    exact .pair hrole (ihcar hcar) (ihcdr hcdr)

/-- What denotes an expression is a list, if it is a pair. -/
theorem within_nil_of_denotes (h : L.Kept s) {own : Nat → Prop} {phrase : Grammar.Phrase}
    {v : Value} (hdenotes : Grammar.Denotes s own phrase v) (hv : L.Script v)
    (hplace : v.isPlace = true) : L.Within v .nil := by
  induction hdenotes with
  | atom hatom => cases hatom <;> simp [Value.isPlace] at hplace
  | list _ ih => exact ih hv hplace
  | quote _ ih => exact ih hv hplace
  | nil => simp [Value.isPlace] at hplace
  | @cons place a d _ _ _ hcell _ hrest _ ihcdr =>
    obtain ⟨other, hother, hrole, -, hcdr⟩ := Tree.cell h hv hcell
    obtain rfl := Value.pair.inj hother
    -- The chain ends here, or it ends behind the next pair.
    cases hrest with
    | nil => exact .cdr hrole .refl
    | cons => exact (Within.cdr hrole .refl).trans (ihcdr hcdr rfl)

/-- What has been read is a list, if it is a pair. -/
theorem within_nil_of_read {depth : Nat} {text rest : List Char} {state state' : State} {v : Value}
    (hrun : Form.read depth text state = .ok (v, rest) state') (h : L.Kept state'.store)
    (hv : L.Script v) (hplace : v.isPlace = true) : L.Within v .nil := by
  rcases Grammar.verdict hrun with ⟨e, hdenotes⟩ | ⟨hnot, hexplains⟩
  · exact within_nil_of_denotes h hdenotes hv hplace
  · rcases hexplains.cases hnot with herror | ⟨x, inner, hcell, hinner, -⟩
    · obtain ⟨serial, fault, rfl⟩ := Value.isError_iff.mp herror
      simp [Value.isPlace] at hplace
    · obtain ⟨place, rfl, hrole, -, hargs⟩ := Tree.cell h hv hcell
      obtain ⟨args, rfl, hrole', -, -⟩ := Tree.cell h hargs hinner
      exact .cdr hrole' (.cdr hrole .refl)

end Layout

namespace Chronicle

open Layout

variable {o : Opening} {base L : Layout} {callers : List Caller} {c : Chronicle}

namespace Leads

/-- What reading leads to: what the reader makes and a rest, which is shorter than what is read
unless the form is an error. -/
def Read (text : List Char) (L : Layout) (r : Value × List Char) : Prop :=
  L.Script r.1 ∧ r.2.length ≤ text.length ∧ (r.1.isError = false → r.2.length < text.length)

theorem refuse (h : c.Sound o L callers) (hbase : base ≤ L) {fault : Fault}
    (hfault : ∀ printed, fault ≠ .notEvaluable printed) (text : List Char) :
    Leads o base callers c (Form.refuse fault) fun L' _ r => Read text L' r := by
  unfold Form.refuse
  apply bind (note h hbase _)
  rintro L₁ c₁ - hle₁ hsound₁ ⟨rfl, -⟩
  refine bind (object (d := .error fault) hsound₁ hle₁ hfault rfl) ?_
  rintro L₂ c₂ v hle₂ hsound₂ ⟨rfl, rfl, -⟩
  exact pure hsound₂ hle₂ ⟨.atom rfl (.inr rfl), Nat.zero_le _, nofun⟩

/-- The forms up to a closing parenthesis are a list. -/
theorem readEach {readOne : List Char → Watched (Value × List Char)}
    (hread : ∀ (L : Layout) (c : Chronicle) text, base ≤ L → c.Sound o L callers →
      Leads o L callers c (readOne text) fun L' _ r => Read text L' r)
    {fuel : Nat} {done : Value} {drafts : List (Nat × Value)} {text : List Char}
    (h : c.Sound o L callers) (hbase : base ≤ L) (howns : Owns base L callers done drafts)
    (hscript : ∀ entry ∈ drafts, L.Script entry.2) (hfuel : text.length ≤ fuel) :
    Leads o base callers c (Form.readEach readOne fuel done text) fun L' _ r =>
      L'.Script r.1 ∧ r.2.length ≤ text.length := by
  -- Each form takes a character at least, so a text without fuel is empty.
  induction fuel generalizing done drafts text L c with
  | zero =>
    obtain rfl : text = [] := List.length_eq_zero_iff.mp (Nat.le_zero.mp hfuel)
    exact imp (refuse h hbase (by simp) []) fun L' s r _ _ hr => ⟨hr.1, hr.2.1⟩
  | succ fuel ih =>
    have hskip := Text.length_skipBlanks_le text
    unfold Form.readEach
    split
    · refine imp (refuse h hbase (by simp) text) fun L' s r _ _ hr => ⟨hr.1, hr.2.1⟩
    · next rest hrest =>
      apply bind (reverse_data h hbase howns fun entry hmem => (hscript entry hmem).matter)
      rintro L₁ c₁ v hle₁ hsound₁ ⟨hsettles, hchain⟩
      refine pure hsound₁ hle₁ ⟨hchain.tree (fun element hmem => ?_) (.inl L₁.vocabulary.nil), ?_⟩
      · obtain ⟨entry, hentry, rfl⟩ := List.mem_map.mp (List.mem_reverse.mp hmem)
        exact (hscript entry hentry).mono hsettles
      · rw [hrest, List.length_cons] at hskip
        exact Nat.le_of_succ_le hskip
    · next =>
      apply bind_of_le hbase (hread L c (Text.skipBlanks text) hbase h)
      rintro L₁ c₁ ⟨form, rest⟩ hle₁ hsound₁ ⟨hform, hlength, hshorter⟩
      have hbase₁ := hbase.trans hle₁
      dsimp only
      split
      · exact pure hsound₁ hbase₁ ⟨hform, Nat.le_trans hlength hskip⟩
      · next hnot =>
        have herror := Bool.eq_false_iff.mpr hnot
        apply bind (consDraft hsound₁ hbase₁ (howns.of_le hle₁) (.inl hform.matter) herror)
        rintro L₂ c₂ v hbase₂ hsound₂ ⟨hle₂, -, place, howns₂⟩
        have hless : rest.length < (Text.skipBlanks text).length :=
          hshorter herror
        have hrest : rest.length < text.length := Nat.lt_of_lt_of_le hless hskip
        refine imp (ih hsound₂ hbase₂ howns₂ ?_ ?_) fun L' s r _ _ hr => ⟨hr.1, ?_⟩
        · intro entry hmem
          rcases List.mem_cons.mp hmem with rfl | hmem
          · exact hform.mono (settles_of_le hle₂)
          · exact (hscript entry hmem).mono (settles_of_le (hle₁.trans hle₂))
        · omega
        · exact Nat.le_trans hr.2 (Nat.le_of_lt hrest)

/-- An atom takes at least one character. -/
theorem length_atomAt_lt {text rest : List Char} {first : Char}
    (hskip : Text.skipBlanks text = first :: rest) (hopen : first ≠ '(') (hclose : first ≠ ')')
    (hquote : first ≠ '\'') :
    (Form.atomAt (first :: rest)).2.length < (first :: rest).length := by
  have hblank := Text.isBlank_of_skipBlanks_eq_cons hskip
  have hdelimiter : Atom.isDelimiter first = false := by
    simp [Atom.isDelimiter, hblank, hopen, hclose, hquote]
  have hdrop : (Form.atomAt (first :: rest)).2 = rest.dropWhile (!Atom.isDelimiter ·) := by
    simp [Form.atomAt, Atom.split, hdelimiter]
  rw [hdrop, List.length_cons]
  exact Nat.lt_succ_of_le (List.dropWhile_sublist _).length_le

/-- The object of an atom is a token as the atom is. -/
theorem objectOf (h : c.Sound o L callers) (hbase : base ≤ L) {atom : Value}
    (htoken : atom.IsToken) :
    Leads o base callers c (Form.objectOf atom) fun L' _ v => L' = L ∧ v.IsToken := by
  unfold Form.objectOf
  cases hn : atom.unshared? with
  | none => exact pure h hbase ⟨rfl, htoken⟩
  | some n =>
    obtain ⟨serial, rfl⟩ := Value.num?_eq_some_iff.mp (Value.unshared?_eq_some_iff.mp hn).1
    refine imp (object (d := .number n) h hbase trivial rfl) ?_
    rintro L' s v - - ⟨rfl, rfl, -⟩
    exact ⟨rfl, htoken⟩

/-- At every depth the reader leads to scripts. -/
structure Reading (depth : Nat) : Prop where
  form {o : Opening} {L : Layout} {callers : List Caller} {c : Chronicle} {text : List Char}
    (h : c.Sound o L callers) (hdepth : callers.length + depth = o.limit)
    (hfull : L.vocabulary.IsFull) :
    Leads o L callers c (Form.readForm depth text) fun L' _ r => Read text L' r
  untilClose {o : Opening} {L : Layout} {callers : List Caller} {c : Chronicle} {text : List Char}
    (h : c.Sound o L callers) (hdepth : callers.length + depth = o.limit)
    (hfull : L.vocabulary.IsFull) :
    Leads o L callers c (Form.readUntilClose depth text) fun L' _ r =>
      L'.Script r.1 ∧ r.2.length ≤ text.length

theorem form_succ {depth : Nat} (ih : Reading depth) {text : List Char} (h : c.Sound o L callers)
    (hdepth : callers.length + (depth + 1) = o.limit) (hfull : L.vocabulary.IsFull) :
    Leads o L callers c (Form.readForm (depth + 1) text) fun L' _ r => Read text L' r := by
  have hskip := Text.length_skipBlanks_le text
  unfold Form.readForm
  refine nested h trivial (by omega) (fun c' hsound => ?_) fun _ _ _ hr => hr.1.matter
  have hdepth :
      (⟨.read text, c.state.store⟩ :: callers : List Caller).length + depth = o.limit := by
    rw [List.length_cons]
    omega
  split
  · exact refuse hsound le_rfl (by simp) text
  · exact refuse hsound le_rfl (by simp) text
  · next rest hrest =>
    rw [hrest, List.length_cons] at hskip
    refine imp (ih.untilClose hsound hdepth hfull) fun L' s r _ _ hr => ⟨hr.1, ?_, fun _ => ?_⟩
    · omega
    · omega
  · next rest hrest =>
    rw [hrest, List.length_cons] at hskip
    apply bind (ih.form hsound hdepth hfull)
    rintro L₁ c₁ ⟨form, rest'⟩ hle₁ hsound₁ ⟨hform, hlength, -⟩
    -- Here an error may get into a pair.
    apply bind (consData hsound₁ hle₁ hform.matter (Data.nil L₁).matter
      ⟨fun _ => ⟨text, rfl⟩, by simp [Value.isError]⟩)
    rintro L₂ c₂ v hle₂ hsound₂ ⟨hgrows₂, place₂, rfl, hrole₂⟩
    have hinner : L₂.Script (.pair place₂) :=
      .pair hrole₂ (hform.mono (settles_of_le hgrows₂)) (.atom rfl (.inl L₂.vocabulary.nil))
    have hword : L₂.Script (.sym "quote") := .atom rfl (.inl L₂.vocabulary.quote)
    apply bind (consData hsound₂ hle₂ hword.matter hinner.matter (allows_cons rfl rfl))
    rintro L₃ c₃ v hle₃ hsound₃ ⟨hgrows₃, place₃, rfl, hrole₃⟩
    have hsettles₃ := settles_of_le hgrows₃
    have hquoted : L₃.Script (.pair place₃) :=
      .pair hrole₃ (hword.mono hsettles₃) (hinner.mono hsettles₃)
    simp only at hlength
    exact pure hsound₃ hle₃ ⟨hquoted, by dsimp only; omega, fun _ => by dsimp only; omega⟩
  · next hempty hclose hopen hquote =>
    cases hrest : Text.skipBlanks text with
    | nil => exact absurd hrest hempty
    | cons first rest =>
      have hless := length_atomAt_lt hrest (fun heq => hopen rest (heq ▸ hrest))
        (fun heq => hclose rest (heq ▸ hrest)) fun heq => hquote rest (heq ▸ hrest)
      rw [hrest] at hskip
      have hatom := Value.isToken_denote (Atom.split (first :: rest)).1
      apply bind (objectOf hsound le_rfl hatom)
      rintro L₁ c₁ v hle₁ hsound₁ ⟨rfl, htoken⟩
      refine pure hsound₁ hle₁ ⟨?_, Nat.le_trans (Nat.le_of_lt hless) hskip,
        fun _ => Nat.lt_of_lt_of_le hless hskip⟩
      exact .atom (Value.isPlace_of_isToken htoken) (.inl (hfull _ htoken))

/-- At every depth the reader leads to scripts. -/
theorem reading (depth : Nat) : Reading depth := by
  induction depth with
  | zero =>
    exact ⟨fun h hdepth _ => throw_tooDeep h hdepth, fun h hdepth _ => throw_tooDeep h hdepth⟩
  | succ depth ih =>
    constructor
    · exact form_succ ih
    intro o L callers c text h hdepth hfull
    unfold Form.readUntilClose
    refine nested h trivial (by omega) (fun c' hsound => ?_) fun _ _ _ hr => hr.1.matter
    refine readEach ?_ hsound le_rfl (.nil (by simp)) (by simp) (Nat.le_refl _)
    intro L' c' text' hle hsound'
    refine ih.form hsound' ?_ (hle.1 ▸ hfull)
    rw [List.length_cons]
    omega

/-! ## Lines -/

/-- The answer of the reader is written down last. -/
theorem answered_of_read {depth : Nat} {text : List Char} {r : Value × List Char} {c' : Chronicle}
    (hrun : (Form.readForm depth text : Watched (Value × List Char)) [] c = .ok r c') :
    Moment.Answered c'.moments r.1 := by
  cases depth with
  | zero => cases hrun
  | succ depth =>
    unfold Form.readForm at hrun
    simp only [Machine.nested] at hrun
    split at hrun
    · next c'' _ =>
      simp only [EStateM.Result.ok.injEq] at hrun
      obtain ⟨rfl, rfl⟩ := hrun
      exact ⟨_, List.mem_cons_self, rfl, text, rfl⟩
    · simp at hrun

/-- What the reader answers to a watched session it answers to any. -/
theorem read_of_watched {depth : Nat} {text : List Char} {r : Value × List Char} {c' : Chronicle}
    (hrun : (Form.readForm depth text : Watched (Value × List Char)) callers c = .ok r c') :
    Form.read depth text c.state = .ok r c'.state := by
  have hwatch := ((Watches.relation.reading_self depth).form text).run callers c
  rwa [hrun] at hwatch

/-- An error evaluates to itself. -/
theorem evaluate_error {depth : Nat} {form env : Value} (h : c.Sound o L callers)
    (hdepth : callers.length + depth = o.limit) (hform : L.Script form) (hgiven : L.Given form)
    (henv : L.Env env) (herror : form.isError = true) :
    Leads o L callers c (ConsLisp.evaluate depth form env) fun L' _ v => L'.Outcome v := by
  cases depth with
  | zero => exact throw_tooDeep h hdepth
  | succ depth =>
    obtain ⟨serial, fault, rfl⟩ := Value.isError_iff.mp herror
    unfold ConsLisp.evaluate
    apply nested_outcome h hdepth
    · exact ⟨⟨hform, hgiven⟩, henv⟩
    intro c' hsound _
    exact pure hsound le_rfl (.inr rfl)

/-- A quoted value evaluates to the value. -/
theorem evaluate_quoted {depth place rest : Nat} {x env : Value} (h : c.Sound o L callers)
    (hdepth : callers.length + depth = o.limit)
    (hrole : L.role place = some (.data (.sym "quote") (.pair rest)))
    (hrest : L.role rest = some (.data x .nil)) (hx : L.Script x) (hgiven : L.Given (.pair place))
    (henv : L.Env env) :
    Leads o L callers c (ConsLisp.evaluate depth (.pair place) env) fun L' _ v =>
      v = x ∧ L'.Script v := by
  have hargs : L.Script (.pair rest) := .pair hrest hx (.atom rfl (.inl L.vocabulary.nil))
  have hform : L.Script (.pair place) := .pair hrole (.atom rfl (.inl L.vocabulary.quote)) hargs
  cases depth with
  | zero => exact throw_tooDeep h hdepth
  | succ depth =>
    unfold ConsLisp.evaluate
    refine nested h ⟨⟨hform, hgiven⟩, henv⟩ (by omega) (fun c₁ hsound₁ => ?_)
      fun _ _ _ hv => hv.2.matter
    refine look (look ?_)
    simp only [Store.car, Store.cdr, hsound₁.kept.cell_data hrole]
    -- The head is the name of a special form, which takes one more nested call.
    cases depth with
    | zero =>
      refine throw_tooDeep hsound₁ ?_
      rw [List.length_cons]
      omega
    | succ depth =>
      change Leads o L _ c₁ (evaluateSpecial (depth + 1) .quote (.pair rest) env) _
      unfold evaluateSpecial
      refine nested hsound₁ ⟨⟨hargs, .cdr hrole hgiven⟩, henv⟩ ?_ (fun c₂ hsound₂ => ?_)
        fun _ _ _ hv => hv.2.matter
      · rw [List.length_cons]
        omega
      · have hcar : c₂.state.store.car (.pair rest) = x := by
          simp [Store.car, hsound₂.kept.cell_data hrest]
        exact look_last hsound₂ le_rfl ⟨hcar, hcar ▸ hx⟩

/-- A line leads to an outcome, or to what stands behind its first quote if it has two quotes and
no expression behind them. -/
theorem evalLine (h : c.Sound o L []) (hfull : L.vocabulary.IsFull) {globals : Value}
    (henv : L.Env globals) (text : List Char) :
    Leads o L [] c (Action.evalLine o.limit globals text) fun L' _ v => L'.Matter v ∧
      (L'.Outcome v ∨ ∃ rest, Grammar.Quotes 2 text rest ∧ ¬Grammar.Accepts rest) := by
  have hdepth : ([] : List Caller).length + o.limit = o.limit := Nat.zero_add _
  apply bind_run ((reading o.limit).form h hdepth hfull)
  rintro L₁ c₁ ⟨form, rest⟩ hle₁ hsound₁ ⟨hform, -, -⟩ hrun
  -- From here on the layout counts what has been read as a form.
  have hread := read_of_watched hrun
  have hsound₂ := hsound₁.learn (answered_of_read hrun)
    (within_nil_of_read hread hsound₁.kept hform)
  have hle₂ := L₁.le_learn form
  have hform₂ := hform.mono (settles_of_le hle₂)
  have hgiven : (L₁.learn form).Given form := ⟨form, .inr rfl, .refl⟩
  have henv₂ := henv.mono (settles_of_le (hle₁.trans hle₂))
  refine of_le (hle₁.trans hle₂) ?_
  rcases Grammar.verdict hread with ⟨e, hdenotes⟩ | ⟨hnot, hexplains⟩
  · have hcode : (L₁.learn form).Code form := ⟨Script.words hsound₂.kept hdenotes hform₂, hgiven⟩
    exact imp ((evaluation o.limit).evaluate hsound₂ hdepth hcode henv₂)
      fun _ _ _ _ _ hv => ⟨hv.matter, .inl hv⟩
  · rcases hexplains.cases hnot with herror | ⟨x, inner, hcell, hinner, hx⟩
    · exact imp (evaluate_error hsound₂ hdepth hform₂ hgiven henv₂ herror)
        fun _ _ _ _ _ hv => ⟨hv.matter, .inl hv⟩
    · obtain ⟨place, rfl, hrole, -, hargs⟩ := Tree.cell hsound₂.kept hform₂ hcell
      obtain ⟨args, rfl, hrole', hscript, -⟩ := Tree.cell hsound₂.kept hargs hinner
      apply imp (evaluate_quoted hsound₂ hdepth hrole hrole' hscript hgiven henv₂)
      rintro L₃ s v - - ⟨rfl, hv⟩
      exact ⟨hv.matter, hx.imp_left .inr⟩

end Leads

end Chronicle

end ConsLisp
