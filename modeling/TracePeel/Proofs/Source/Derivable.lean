import TracePeel.Proofs.Source.Statements

/-! Just the scripts are read.

A text is accepted if and only if its tokens spell a script that is allowed, and it gives the trace
that the script denotes (`Trace.parse_iff`). Since the tokens are all that the script is about, texts
that differ in their layout alone give the same trace. -/
namespace TracePeel

open Grammar

/-! ### Inputs -/

namespace Grammar

/-- The name of an input, which is defined here. -/
def Phrase.input : Phrase String Box where
  spells := Named
  allowed s name := (boxKind? name).isSome = true ∧ name ∉ s.names
  value := Scope.box
  after := Scope.defining
  stop _ := True

theorem idxOf_append_cons_self {names rest : List String} {name : String} :
    (names ++ name :: rest).idxOf name = (names ++ [name]).idxOf name := by
  by_cases hmem : name ∈ names
  · rw [List.idxOf_append_of_mem hmem, List.idxOf_append_of_mem hmem]
  · rw [List.idxOf_append_of_notMem hmem, List.idxOf_append_of_notMem hmem, List.idxOf_cons_self,
      List.idxOf_cons_self]

variable {s : Scope} {names : List String}

theorem afterAll_input : Phrase.input.afterAll s names = { s with names := s.names ++ names } := by
  induction names generalizing s with
  | nil => simp [Phrase.afterAll]
  | cons name names ih =>
    show Phrase.input.afterAll (s.defining name) names = _
    simp [ih, Scope.defining]

theorem allAllowed_input : Phrase.input.AllAllowed s names ↔
    names.Nodup ∧ (∀ name ∈ names, (boxKind? name).isSome = true) ∧ ∀ name ∈ names, name ∉ s.names := by
  induction names generalizing s with
  | nil => exact iff_of_true trivial ⟨List.nodup_nil, nofun, nofun⟩
  | cons name names ih =>
    rw [Phrase.AllAllowed, show Phrase.input.after s name = s.defining name from rfl, ih]
    simp only [Phrase.input, Scope.defining, List.mem_append, List.mem_singleton, List.nodup_cons,
      List.forall_mem_cons, not_or]
    constructor
    · rintro ⟨⟨hkind, hnew⟩, hnodup, hkinds, hnews⟩
      exact ⟨⟨fun hmem => (hnews name hmem).2 rfl, hnodup⟩, ⟨hkind, hkinds⟩, hnew,
        fun other hother => (hnews other hother).1⟩
    · rintro ⟨⟨hname, hnodup⟩, ⟨hkind, hkinds⟩, hnew, hnews⟩
      exact ⟨⟨hkind, hnew⟩, hnodup, hkinds, fun other hother =>
        ⟨hnews other hother, fun heq => hname (heq ▸ hother)⟩⟩

/-- Each input stands for the same box when all of them are in scope. -/
theorem values_input (h : Phrase.input.AllAllowed s names) :
    Phrase.input.values s names = names.map { s with names := s.names ++ names : Scope }.box := by
  induction names generalizing s with
  | nil => rfl
  | cons name names ih =>
    have hrest : { s with names := s.names ++ name :: names : Scope } =
        { s.defining name with names := (s.defining name).names ++ names } := by
      simp [Scope.defining]
    have hvalues : Phrase.input.values (s.defining name) names = _ := ih h.2
    show s.box name :: Phrase.input.values (s.defining name) names = _
    rw [hvalues, ← hrest, List.map_cons]
    refine congrArg (· :: _) ?_
    simp only [Scope.box, idxOf_append_cons_self]
    rw [idxOf_append_new (List.mem_append_right _ (List.mem_singleton_self name))]

end Grammar

namespace Parse

variable {r r' : Reader} {s : Scope} {ts us vs : List Token}

theorem input_derives (s : Scope) :
    Derives (do defineBox (← expectName)) Phrase.input s := by
  constructor
  · intro r r' ts b hr h
    obtain ⟨name, hname, h⟩ := takes_name.1 h
    obtain ⟨ts, rfl, h₁⟩ := hr.past hname nofun
    obtain ⟨hkind, hnew, rfl, rfl⟩ := (takes_defineBox h₁).1 h
    exact ⟨name, [.name name], ts, rfl, .mk name, ⟨hkind, hnew⟩, rfl, stands_defining h₁ hkind hnew⟩
  · rintro r name _ vs v hr ⟨-⟩ ⟨hkind, hnew⟩ -
    have h₁ := hr.next (List.cons_ne_nil _ _)
    exact ⟨_, takes_name.2 ⟨name, hr.here, (takes_defineBox h₁).2 ⟨hkind, hnew, rfl, rfl⟩⟩,
      stands_defining h₁ hkind hnew⟩

theorem inputs_derives (s : Scope) : Derives (items .rbracket do defineBox (← expectName))
    (Phrase.input.separated .rbracket) s := by
  refine items_derives input_derives ?_ ⟨trivial, trivial⟩ nofun
  rintro name _ ⟨-⟩
  exact ⟨_, _, rfl, nofun⟩

/-! ### The header -/

/-- The name of a trace, if it has one. -/
def possibleTitle : Parse String := do
  if ← accept .loop then expectName else pure "Loop0"

theorem takes_possibleTitle {title : String} : Takes possibleTitle r title r' ↔
    r.Goes [.loop, .name title] r' ∨ r.here.token ≠ .loop ∧ title = "Loop0" ∧ r' = r := by
  unfold possibleTitle
  rw [takes_accept]
  simp only [if_true, Bool.false_eq_true, if_false, takes_expectName, takes_pure]
  exact Iff.rfl

/-- The reader with a name for the trace itself. -/
def entitled (r : Reader) (title : String) : Reader :=
  { r with loops := r.loops.set title r.self }

theorem header_eq : header = (do
    let title ← possibleTitle
    modify (entitled · title)
    expect .lbracket
    let inputs ← items .rbracket (do defineBox (← expectName))
    expect .rbracket
    return (title, inputs)) := by
  rw [header, possibleTitle, bind_assoc]
  refine bind_congr fun taken => ?_
  split <;> rfl

theorem takes_header {title : String} {inputs : List Box} :
    Takes header r (title, inputs) r' ↔ ∃ r₁, Takes possibleTitle r title r₁ ∧
      r₁.here.token = .lbracket ∧
      ∃ r₂, Takes (items .rbracket do defineBox (← expectName)) (entitled r₁ title).next inputs r₂ ∧
        r₂.here.token = .rbracket ∧ r' = r₂.next := by
  rw [header_eq, takes_bind]
  constructor
  · rintro ⟨title', r₁, htitle, h⟩
    rw [takes_modify, takes_expect .lbracket nofun, takes_bind] at h
    obtain ⟨hopen, inputs', r₂, hinputs, h⟩ := h
    rw [takes_expect .rbracket nofun, takes_pure] at h
    obtain ⟨hclose, heq, rfl⟩ := h
    obtain ⟨rfl, rfl⟩ := Prod.mk.inj heq
    exact ⟨r₁, htitle, hopen, r₂, hinputs, hclose, rfl⟩
  · rintro ⟨r₁, htitle, hopen, r₂, hinputs, hclose, rfl⟩
    refine ⟨title, r₁, htitle, ?_⟩
    rw [takes_modify, takes_expect .lbracket nofun, takes_bind]
    refine ⟨hopen, inputs, r₂, hinputs, ?_⟩
    rw [takes_expect .rbracket nofun, takes_pure]
    exact ⟨hclose, rfl, rfl⟩

/-- The reader knows of nothing but the trace itself, which has no name yet. -/
structure Untitled (r : Reader) : Prop where
  ended : r.Ended
  pool : r.pool = { nextToken := 1 }
  boxes : r.boxes = {}
  loops : r.loops = {}
  self : r.self = ⟨0⟩

theorem Untitled.goes (h : Untitled r) (hgoes : r.Goes us r') : Untitled r' := by
  have hbehind := Reader.goes_behind hgoes
  exact ⟨h.ended.goes hgoes, hbehind.pool.trans h.pool, hbehind.boxes.trans h.boxes,
    hbehind.loops.trans h.loops, hbehind.self.trans h.self⟩

theorem Untitled.entitled (h : Untitled r) (title : String) :
    (entitled r title).Stands { loops := [title] } r.tokens := by
  refine ⟨rfl, h.ended, h.pool, fun name => ?_, fun name => ?_, h.self, nofun⟩
  · show r.boxes.get? name = _
    rw [h.boxes]
    rfl
  · show (r.loops.set title r.self).get? name = _
    rw [Bindings.get?_set, h.loops, h.self]
    by_cases hname : title = name <;>
      simp [hname, Scope.token, eq_comm]

theorem untitled_start (source : String) : Untitled (Reader.start source) := by
  have htokens := Reader.tokens_start source
  rw [Lexer.tokens_eq_sentence] at htokens
  have hended : (Reader.start source).Ended :=
    ⟨_, htokens, Lexer.eof_notMem_sentence source⟩
  have hstate : (Reader.start source).pool = { nextToken := 1 } ∧
      (Reader.start source).boxes = {} ∧ (Reader.start source).loops = {} ∧
        (Reader.start source).self = ⟨0⟩ := by
    simp only [Reader.start, Pool.freshToken]
    cases Lexer.tokens source <;> exact ⟨rfl, rfl, rfl, rfl⟩
  exact ⟨hended, hstate.1, hstate.2.1, hstate.2.2.1, hstate.2.2.2⟩

/-- The scope behind a header. -/
def headed (name : Option String) (names : List String) : Scope where
  names
  loops := [name.getD "Loop0"]

theorem header_sound (h : Untitled r) {title : String} {inputs : List Box}
    (htakes : Takes header r (title, inputs) r') :
    ∃ name names us vs ws, r.tokens = us ++ .lbracket :: (vs ++ .rbracket :: ws) ∧
      Possible Titled name us ∧ Separated Named names vs ∧ names.Nodup ∧
      (∀ n ∈ names, (boxKind? n).isSome = true) ∧ title = name.getD "Loop0" ∧
      inputs = names.map (headed name names).box ∧ r'.Stands (headed name names) ws := by
  obtain ⟨r₁, htitle, hopen, r₂, hinputs, hclose, rfl⟩ := takes_header.1 htakes
  obtain ⟨name, us, hname, rfl, htokens, h₁⟩ : ∃ name us, Possible Titled name us ∧
      title = name.getD "Loop0" ∧ r.tokens = us ++ r₁.tokens ∧ Untitled r₁ := by
    rcases takes_possibleTitle.1 htitle with hgoes | ⟨-, rfl, rfl⟩
    · exact ⟨some title, _, .some (.mk title), rfl, h.ended.tokens_of_goes (by simp) hgoes,
        h.goes hgoes⟩
    · exact ⟨none, [], .none, rfl, rfl, h⟩
  obtain ⟨ts, hts, h₂⟩ := (h₁.entitled (name.getD "Loop0")).past hopen nofun
  obtain ⟨names, vs, ts, rfl, hnames, hallowed, rfl, h₃⟩ := (inputs_derives _).sound h₂ hinputs
  obtain ⟨ws, rfl, h₄⟩ := h₃.past hclose nofun
  obtain ⟨hnodup, hkinds, -⟩ := allAllowed_input.1 hallowed
  refine ⟨name, names, us, vs, ws, by rw [htokens, hts], hname, hnames, hnodup, hkinds, rfl,
    values_input hallowed, ?_⟩
  rwa [show (Phrase.input.separated .rbracket).after _ names = _ from afterAll_input] at h₄

theorem header_complete (h : Untitled r) {name : Option String} {names : List String}
    (htokens : r.tokens = us ++ .lbracket :: (vs ++ .rbracket :: ts)) (hts : ts ≠ [])
    (hname : Possible Titled name us) (hnames : Separated Named names vs) (hnodup : names.Nodup)
    (hkinds : ∀ n ∈ names, (boxKind? n).isSome = true) :
    ∃ r', Takes header r (name.getD "Loop0", names.map (headed name names).box) r' ∧
      r'.Stands (headed name names) ts := by
  have hallowed : Phrase.input.AllAllowed { loops := [name.getD "Loop0"] } names :=
    allAllowed_input.2 ⟨hnodup, hkinds, nofun⟩
  obtain ⟨r₁, hgoes, htokens₁⟩ := Reader.exists_goes (List.cons_ne_nil _ _) htokens
  have htitle : Takes possibleTitle r (name.getD "Loop0") r₁ := by
    cases hname with
    | none =>
      obtain rfl := hgoes
      refine takes_possibleTitle.2 (.inr ⟨?_, rfl, rfl⟩)
      rw [Reader.here_token htokens]
      nofun
    | some hname =>
      obtain ⟨-⟩ := hname
      exact takes_possibleTitle.2 (.inl hgoes)
  have h₁ := (h.goes hgoes).entitled (name.getD "Loop0")
  rw [htokens₁] at h₁
  obtain ⟨r₂, hinputs, h₂⟩ :=
    (inputs_derives _).complete (h₁.next (by simp)) hnames hallowed rfl
  rw [show (Phrase.input.separated .rbracket).after _ names = _ from afterAll_input] at h₂
  rw [show (Phrase.input.separated .rbracket).value _ names = _ from values_input hallowed] at hinputs
  exact ⟨r₂.next, takes_header.2 ⟨r₁, htitle, h₁.here, r₂, hinputs, h₂.here, rfl⟩, h₂.next hts⟩

end Parse

/-! ### Whole texts -/

/-- A text is accepted just if its tokens spell a script that is allowed, and it gives the trace
that the script denotes. -/
theorem Trace.parse_iff (source : String) (t : Trace) : Trace.parse source = .ok t ↔
    ∃ script : Script, script.Spells (Lexer.sentence source) ∧ script.Allowed ∧
      t = script.trace := by
  have hstart := Parse.untitled_start source
  have htokens := Reader.tokens_start source
  rw [Lexer.tokens_eq_sentence] at htokens
  have hfuel {r : Reader} {s : Scope} {ts : List Token} (hr : r.Stands s ts) :
      ts.length = r.rest.length + 1 := by
    rw [← hr.tokens]
    simp [Reader.tokens]
  unfold Trace.parse
  constructor
  · intro h
    rcases hheader : Parse.header.run.run (Reader.start source) with ⟨e | ⟨title, inputs⟩, r⟩
    · simp [hheader] at h
    rcases hops : r.operations (r.rest.length + 1) with ⟨ops, _ | ⟨e, _ | _⟩, last⟩ <;>
      simp only [hheader, hops, reduceCtorEq, Except.ok.injEq] at h
    obtain ⟨name, names, us, vs, ws, hwords, hname, hnames, hnodup, hkinds, rfl, rfl, hr⟩ :=
      Parse.header_sound hstart hheader
    obtain ⟨sts, us', rfl, hsts, hall, rfl, hlast⟩ :=
      Reader.operations_sound hr (Nat.le_of_eq (hfuel hr)) hops
    have hsentence : Lexer.sentence source = us ++ .lbracket :: (vs ++ .rbracket :: us') := by
      rw [htokens] at hwords
      exact List.append_cancel_right (hwords.trans (by simp))
    refine ⟨⟨name, names, sts⟩, hsentence ▸ .mk hname hnames hsts, ⟨hnodup, hkinds, hall⟩, ?_⟩
    rw [← h, hlast.self, hlast.pool]
    rfl
  · rintro ⟨⟨name, names, sts⟩, hspells, ⟨hnodup, hkinds, hall⟩, rfl⟩
    generalize Lexer.sentence source = words at hspells htokens
    obtain ⟨hname, hnames, hsts⟩ := hspells
    rename_i us vs ws
    have hwords : (Reader.start source).tokens =
        us ++ .lbracket :: (vs ++ .rbracket :: (ws ++ [.eof])) := htokens.trans (by simp)
    obtain ⟨r, hheader, hr⟩ :=
      Parse.header_complete hstart hwords (by simp) hname hnames hnodup hkinds
    have hlength := hfuel hr
    rw [List.length_append, List.length_singleton] at hlength
    have hlong : ws.length < r.rest.length + 1 := by omega
    obtain ⟨last, hops, hlast⟩ := Reader.operations_complete hr hsts hall hlong
    have hrun : Parse.header.run.run (Reader.start source) = _ := hheader
    simp only [hrun, hops, hlast.self, hlast.pool]
    rfl

end TracePeel
