import TracePeel.Proofs.Source.Parsing

/-! Reading the lines of a dump.

Between two operations the reader knows the boxes defined so far and the loops named so
far. Reading a line gives the operation written there (`Operation.ReadAs`) and leads to
the next such place (`operation_ends`); so all lines are read, one after the other
(`operations_eq`). -/
namespace TracePeel

open Dump (separated listTokens framesTokens)

/-! ### What is known between two operations -/

namespace Pool

theorem chainOf_entries (p : Pool) (frames : List (List Operand)) :
    (p.chainOf frames).1.map (·.entries) = frames := by
  induction frames with
  | nil => rfl
  | cons entries outer ih => simp [chainOf, pushFrame, ih]

/-- New frames take no other name. -/
theorem chainOf_pool (p : Pool) (frames : List (List Operand)) :
    (p.chainOf frames).2.nextBox = p.nextBox ∧ (p.chainOf frames).2.nextGuard = p.nextGuard ∧
      (p.chainOf frames).2.nextToken = p.nextToken := by
  induction frames with
  | nil => exact ⟨rfl, rfl, rfl⟩
  | cons entries outer ih => simpa [chainOf, pushFrame] using ih

end Pool

namespace Reader

/-- The name of the trace stands for the trace itself, and every name for a token of its
own. -/
structure Names (r : Reader) (own : String) : Prop where
  own : r.loops.get? own = some r.self
  apart : ∀ a b t, r.loops.get? a = some t → r.loops.get? b = some t → a = b
  below : ∀ a t, r.loops.get? a = some t → t.number < r.pool.nextToken

/-- What the names of `r` stand for, they stand for in `r'`. -/
def Keeps (r r' : Reader) : Prop :=
  r'.self = r.self ∧ ∀ name t, r.loops.get? name = some t → r'.loops.get? name = some t

theorem Keeps.refl (r : Reader) : r.Keeps r :=
  ⟨rfl, fun _ _ h => h⟩

theorem Keeps.trans {r r' r'' : Reader} (h : r.Keeps r') (h' : r'.Keeps r'') : r.Keeps r'' :=
  ⟨h'.1.trans h.1, fun name t ht => h'.2 name t (h.2 name t ht)⟩

/-- `r'` is `r` gone on to where the tokens `ts` are left, new frames made on the way. -/
structure Past (r : Reader) (ts : List Token) (r' : Reader) : Prop where
  tokens : r'.tokens = ts
  nextBox : r'.pool.nextBox = r.pool.nextBox
  nextGuard : r'.pool.nextGuard = r.pool.nextGuard
  nextToken : r'.pool.nextToken = r.pool.nextToken
  boxes : r'.boxes = r.boxes
  loops : r'.loops = r.loops
  self : r'.self = r.self

theorem Behind.past {r r' : Reader} {ts : List Token} (h : r.Behind ts r') : r.Past ts r' :=
  ⟨h.tokens, by rw [h.pool], by rw [h.pool], by rw [h.pool], h.boxes, h.loops, h.self⟩

theorem Knows.of_eq {r r' : Reader} {defined : List Box} (h : r.Knows defined)
    (hboxes : r'.boxes = r.boxes) (hnext : r'.pool.nextBox = r.pool.nextBox) :
    r'.Knows defined where
  next := hnext.trans h.next
  place := h.place
  known b hb := by rw [hboxes, h.known b hb]
  named name b hb := h.named name b (by rwa [hboxes] at hb)

theorem Names.of_eq {r r' : Reader} {own : String} (h : r.Names own) (hloops : r'.loops = r.loops)
    (hself : r'.self = r.self) (hnext : r'.pool.nextToken = r.pool.nextToken) :
    r'.Names own where
  own := by rw [hloops, hself, h.own]
  apart a b t ha hb := by
    rw [hloops] at ha hb
    exact h.apart a b t ha hb
  below a t ha := by
    rw [hloops] at ha
    rw [hnext]
    exact h.below a t ha

theorem keeps_of_eq {r r' : Reader} (hloops : r'.loops = r.loops) (hself : r'.self = r.self) :
    r.Keeps r' :=
  ⟨hself, fun name t ht => by rwa [hloops]⟩

end Reader

/-- What the descriptor of an operation is read as. -/
inductive Descr.ReadAs (d : Dump) (loops : Bindings String LoopToken) (number : Nat) :
    Option Descr → Option Descr → Prop
  | none : ReadAs d loops number .none .none
  | field (name : String) : ReadAs d loops number (some (.field name)) (some (.field name))
  | size (name : String) : ReadAs d loops number (some (.size name)) (some (.size name))
  | loop {t t' : LoopToken} (h : loops.get? (if t = d.token then d.name else t.text) = some t') :
    ReadAs d loops number (some (.loop t)) (some (.loop t'))
  | guard {n : Nat} {s s' : Snapshot}
    (h : d.options.snapshots = true → s ≠ [] → s'.map (·.entries) = s.map (·.entries)) :
    ReadAs d loops number (some (.guard n s)) (some (.guard number s'))

/-- What an operation is read as: itself, up to loops, the number of a guard and the
identities of frames. -/
structure Operation.ReadAs (d : Dump) (loops : Bindings String LoopToken) (number : Nat)
    (op op' : Operation) : Prop where
  opcode : op'.opcode = op.opcode
  args : op'.args = op.args
  result : op'.result = op.result
  failArgs : op'.failArgs = op.failArgs
  descr : Descr.ReadAs d loops number op.descr op'.descr

theorem Operation.ReadAs.keep {d : Dump} {loops loops' : Bindings String LoopToken} {n : Nat}
    {op op' : Operation} (h : op.ReadAs d loops n op')
    (hkeep : ∀ name t, loops.get? name = some t → loops'.get? name = some t) :
    op.ReadAs d loops' n op' := by
  obtain ⟨hopcode, hargs, hresult, hfail, hdescr⟩ := h
  refine ⟨hopcode, hargs, hresult, hfail, ?_⟩
  generalize op.descr = descr at hdescr ⊢
  generalize op'.descr = descr' at hdescr ⊢
  cases hdescr with
  | none => exact .none
  | field name => exact .field name
  | size name => exact .size name
  | loop ht => exact .loop (hkeep _ _ ht)
  | guard hframes => exact .guard hframes

/-- The operation can be read back where `defined` are the boxes known. -/
structure Operation.Stands (E : ParseError → Reader → Prop) (defined : List Box) (op : Operation) :
    Prop where
  form : op.InForm
  args : Parse.Readable E defined op.args
  failArgs : ∀ fs, op.failArgs = some fs → Parse.Readable E defined fs
  frames : ∀ frame ∈ op.snapshot, Parse.Readable E defined frame.entries
  arity : ∀ n, op.opcode.arity? = some n → op.args.length = n
  produced : ∀ b, op.result = some b → op.opcode.hasResult = true ∧
    (∀ k, op.opcode.resultKind? = some k → k = b.kind) ∧ b.id = defined.length
  unproduced : op.result = none → op.opcode.needsResult = false

namespace Parse

variable {α : Type} {E : ParseError → Reader → Prop} {r r' : Reader} {d : Dump}
  {defined : List Box} {op : Operation} {ts : List Token}

/-! ### Behind the parentheses -/

/-- The next token does not go on with the operation in front of it. -/
def Fresh (ts : List Token) : Prop :=
  ∃ t rest, ts = t :: rest ∧ t ≠ .lbracket ∧ t ≠ .atSign

theorem framesWithin_gives (hr : r.Knows defined) {s : Snapshot}
    (hs : ∀ frame ∈ s, Readable E defined frame.entries) {fuel : Nat} (hfuel : s.length ≤ fuel)
    (hts : Fresh ts) (h : r.Behind (framesTokens s ++ ts) r') :
    Ends E (framesWithin fuel) r' fun frames r'' =>
      frames = s.map (·.entries) ∧ r.Behind ts r'' := by
  obtain ⟨t, rest, rfl, hbracket, -⟩ := hts
  induction s generalizing fuel r' with
  | nil =>
    cases fuel with
    | zero => exact ends_pure.2 ⟨rfl, h⟩
    | succ fuel =>
      have hhere : r'.here.token ≠ .lbracket := by rwa [Reader.here_token h.tokens]
      simp only [framesWithin, ends_bind, ends_token, if_neg hhere, ends_pure]
      exact ⟨rfl, h⟩
  | cons frame outer ih =>
    obtain ⟨hframe, houter⟩ := List.forall_mem_cons.1 hs
    obtain ⟨fuel, rfl⟩ : ∃ n, fuel = n + 1 := Nat.exists_eq_succ_of_ne_zero (by
      rintro rfl
      cases hfuel)
    have hhere : r'.here.token = .lbracket := Reader.here_token h.tokens
    rw [framesTokens, List.append_assoc] at h
    simp only [framesWithin, ends_bind, ends_token, hhere, if_true]
    refine (operandList_gives hr hframe _ _ (by simp) h).mono ?_
    rintro _ r'' ⟨rfl, h''⟩
    refine (ih houter (Nat.le_of_succ_le_succ hfuel) h'').mono ?_
    rintro _ r''' ⟨rfl, h'''⟩
    exact ⟨rfl, h'''⟩

theorem snapshotOf_ends {frames : List (List Operand)} {Q : Snapshot → Reader → Prop} :
    Ends E (snapshotOf frames) r Q ↔
      Q (r.pool.chainOf frames).1 { r with pool := (r.pool.chainOf frames).2 } :=
  Iff.rfl

theorem length_le_framesTokens (s : Snapshot) : s.length ≤ (framesTokens s).length := by
  induction s with
  | nil => exact Nat.zero_le _
  | cons frame outer ih =>
    simp only [framesTokens, listTokens, List.length_append, List.length_cons] at ih ⊢
    omega

/-- Making the frames of a snapshot leaves all else as it is. -/
theorem past_chainOf (h : r.Behind ts r') (frames : List (List Operand)) :
    r.Past ts { r' with pool := (r'.pool.chainOf frames).2 } := by
  obtain ⟨hbox, hguard, htoken⟩ := r'.pool.chainOf_pool frames
  exact ⟨h.tokens, by rw [hbox, h.pool], by rw [hguard, h.pool], by rw [htoken, h.pool], h.boxes,
    h.loops, h.self⟩

/-- The fail-args of a guard are read back, and so is its snapshot where it is written. -/
theorem guardTail_ends (hr : r.Knows defined) (hop : op.Stands E defined) {fs : List Operand}
    (hfs : op.failArgs = some fs) (hts : Fresh ts)
    (h : r.Behind (listTokens fs ++ (d.snapshotTokens op ++ ts)) r') :
    Ends E guardTail r' fun guard r'' => guard.1 = fs ∧ r.Past ts r'' ∧
      (d.options.snapshots = true → op.snapshot ≠ [] →
        guard.2.map (·.entries) = op.snapshot.map (·.entries)) := by
  have hne : ts ≠ [] := by
    obtain ⟨t, rest, rfl, -⟩ := hts
    exact List.cons_ne_nil _ _
  have hhere : r'.here.token = .lbracket := Reader.here_token h.tokens
  simp only [guardTail, ends_bind, ends_token, hhere, if_true]
  refine (operandList_gives hr (hop.failArgs fs hfs) _ _ (by simp [hne]) h).mono ?_
  rintro _ r₁ ⟨rfl, h₁⟩
  cases hshown : d.options.snapshots && !op.snapshot.isEmpty with
  | true =>
    rw [Dump.snapshotTokens, hshown] at h₁
    have hnext : r.Behind (framesTokens op.snapshot ++ ts) r₁.next := h₁.next (by simp [hne])
    have hfuel : op.snapshot.length ≤ r₁.next.rest.length + 1 := by
      have hlen : r₁.next.rest.length + 1 = (framesTokens op.snapshot ++ ts).length := by
        rw [← hnext.tokens]
        simp [Reader.tokens]
      have := length_le_framesTokens op.snapshot
      rw [hlen, List.length_append]
      omega
    simp only [ends_bind, accept_ends_true h₁.tokens, if_true, ends_get]
    refine (framesWithin_gives hr hop.frames hfuel hts hnext).mono ?_
    rintro _ r₂ ⟨rfl, h₂⟩
    simp only [snapshotOf_ends, ends_pure]
    exact ⟨trivial, past_chainOf h₂ _, fun _ _ => Pool.chainOf_entries _ _⟩
  | false =>
    rw [Dump.snapshotTokens, hshown] at h₁
    have hat : r₁.here.token ≠ .atSign := by
      obtain ⟨t, rest, rfl, -, hsign⟩ := hts
      rwa [Reader.here_token h₁.tokens]
    simp only [ends_bind, accept_ends_false hat, Bool.false_eq_true, if_false, ends_pure,
      snapshotOf_ends]
    refine ⟨trivial, past_chainOf h₁ _, fun hsnapshots hsome => ?_⟩
    simp [hsnapshots, hsome] at hshown

/-! ### Descriptors -/

/-- The loop of a jump is the one that its name stands for from now on. -/
theorem loopNamed_ends {own : String} (hnames : r.Names own) (name : String) :
    Ends E (loopNamed (some name)) r fun t r' => r'.loops.get? name = some t ∧ r'.Names own ∧
      r.Keeps r' ∧ r'.tokens = r.tokens ∧ r'.boxes = r.boxes ∧
      r'.pool.nextBox = r.pool.nextBox ∧ r'.pool.nextGuard = r.pool.nextGuard := by
  simp only [loopNamed, ends_bind, ends_get]
  split
  case h_1 t ht => exact ends_pure.2 ⟨ht, hnames, .refl r, rfl, rfl, rfl, rfl⟩
  case h_2 hnone =>
    have hother {a : String} {t : LoopToken} (ha : r.loops.get? a = some t) : name ≠ a := by
      rintro rfl
      rw [hnone] at ha
      cases ha
    simp only [Pool.freshToken, ends_bind, ends_modify, ends_pure]
    refine ⟨Bindings.get?_set_self _ _ _, ⟨?_, ?_, ?_⟩, ⟨rfl, ?_⟩, rfl, rfl, rfl, rfl⟩
    · rw [Bindings.get?_set, if_neg (hother hnames.own)]
      exact hnames.own
    · intro a b t ha hb
      rw [Bindings.get?_set] at ha hb
      split at ha <;> split at hb
      · rename_i ha' hb'
        exact ha'.symm.trans hb'
      · cases ha
        exact absurd (hnames.below b _ hb) (lt_irrefl _)
      · cases hb
        exact absurd (hnames.below a _ ha) (lt_irrefl _)
      · exact hnames.apart a b t ha hb
    · intro a t ha
      rw [Bindings.get?_set] at ha
      split at ha
      · cases ha
        exact Nat.lt_succ_self _
      · exact Nat.lt_succ_of_lt (hnames.below a t ha)
    · intro a t ha
      rw [Bindings.get?_set, if_neg (hother ha)]
      exact ha

/-- What is left to know behind the descriptor of an operation. -/
structure Described (r : Reader) (op : Operation) (own : String) (r' : Reader) : Prop where
  names : r'.Names own
  keeps : r.Keeps r'
  tokens : r'.tokens = r.tokens
  boxes : r'.boxes = r.boxes
  nextBox : r'.pool.nextBox = r.pool.nextBox
  nextGuard : r'.pool.nextGuard = r.pool.nextGuard + if op.isGuard then 1 else 0

theorem descrOf_ends (hnames : r.Names d.name) (hdescr : op.opcode.Carries op.descr)
    {guard : Option (List Operand × Snapshot)} (hguard : guard.isSome = op.isGuard)
    (hframes : ∀ g, guard = some g → d.options.snapshots = true → op.snapshot ≠ [] →
      g.2.map (·.entries) = op.snapshot.map (·.entries)) (start : Span) :
    Ends E (descrOf start op.opcode (op.descr.bind d.written?) guard) r fun descr r' =>
      Descr.ReadAs d r'.loops r.pool.nextGuard op.descr descr ∧ Described r op d.name r' := by
  obtain ⟨opcode, args, result, descr, failArgs⟩ := op
  have hsame (h : opcode.isGuard = false) :
      Described r ⟨opcode, args, result, descr, failArgs⟩ d.name r :=
    ⟨hnames, .refl r, rfl, rfl, rfl, by simp [Operation.isGuard, h]⟩
  cases hdescr with
  | @guard number snapshot h =>
    obtain ⟨g, rfl⟩ := Option.isSome_iff_exists.1 (hguard.trans h)
    simp only [descrOf, Pool.freshGuard, ends_bind, ends_get, ends_modify, ends_pure]
    refine ⟨.guard (hframes g rfl), ⟨?_, ?_, ?_⟩, ⟨rfl, fun _ _ h => h⟩, rfl, rfl, rfl, ?_⟩
    · exact hnames.own
    · exact hnames.apart
    · exact hnames.below
    · simp [Operation.isGuard, h]
  | @loop token h =>
    have h : opcode = .jump := h
    subst h
    obtain rfl : guard = none := by simpa [Operation.isGuard, Opcode.isGuard] using hguard
    simp only [descrOf, Option.bind_some, Dump.written?, ends_bind]
    refine (loopNamed_ends hnames _).mono ?_
    rintro t r' ⟨ht, hnames', hkeeps, htokens, hboxes, hbox, hguard'⟩
    exact ends_pure.2 ⟨.loop ht, hnames', hkeeps, htokens, hboxes, hbox, hguard'⟩
  | @field name h hname =>
    have h : opcode.isAccess = true := h
    have hng : opcode.isGuard = false := by revert h; cases opcode <;> decide
    obtain rfl : guard = none := by simpa [Operation.isGuard, hng] using hguard
    have haccess : opcode = .setfieldGc ∨ opcode = .getfieldGc ∨ opcode = .getfieldGcPure := by
      simpa [Opcode.isAccess, or_assoc] using h
    rcases haccess with rfl | rfl | rfl <;> exact ends_pure.2 ⟨.field name, hsame rfl⟩
  | @size name hg hj ha hname =>
    have hg : opcode.isGuard = false := hg
    have hj : opcode ≠ .jump := hj
    have ha : opcode.isAccess = false := ha
    obtain rfl : guard = none := by simpa [Operation.isGuard, hg] using hguard
    simp only [descrOf]
    split
    · exact absurd rfl hj
    · cases ha
    · cases ha
    · cases ha
    · exact ends_pure.2 ⟨.size name, hsame hg⟩
    · exact ends_pure.2 ⟨.size name, hsame hg⟩
  | none hg hj ha hn =>
    have hg : opcode.isGuard = false := hg
    have hj : opcode ≠ .jump := hj
    have ha : opcode.isAccess = false := ha
    have hn : opcode ≠ .new := hn
    obtain rfl : guard = none := by simpa [Operation.isGuard, hg] using hguard
    simp only [descrOf]
    split
    · exact absurd rfl hj
    · cases ha
    · cases ha
    · cases ha
    · exact absurd rfl hn
    · exact ends_pure.2 ⟨.none, hsame hg⟩

/-! ### Results -/

/-- A box whose name was not read yet gets the next place. -/
theorem defineBox_ends (hr : r.Knows defined) {b : Box} (hb : b.id = defined.length) :
    Ends E (defineBox b.name) r fun b' r' => b' = b ∧ r'.Knows (defined ++ [b]) ∧
      r'.tokens = r.tokens ∧ r'.loops = r.loops ∧ r'.self = r.self ∧
      r'.pool.nextToken = r.pool.nextToken ∧ r'.pool.nextGuard = r.pool.nextGuard := by
  have hkind : b.name.toList.head?.bind Kind.ofLetter? = some b.kind := by
    rw [box_name_toList]
    exact Kind.ofLetter?_letter b.kind
  have hnew : b ∉ defined := fun hmem => absurd (hr.place b hmem) (by rw [hb]; exact lt_irrefl _)
  have hfresh : r.boxes.contains b.name = false := by
    rw [Bindings.contains]
    cases hget : r.boxes.get? b.name with
    | none => rfl
    | some b' =>
      obtain ⟨hname, hmem⟩ := hr.named _ _ hget
      exact absurd (box_name_inj hname ▸ hmem) hnew
  have hbox : (⟨r.pool.nextBox, b.kind⟩ : Box) = b := by
    rw [hr.next, ← hb]
  simp only [defineBox, ends_bind, ends_span, hkind, ends_get, hfresh, Bool.false_eq_true,
    if_false, Pool.freshBox, ends_modify, ends_pure, hbox]
  refine ⟨trivial, ⟨?_, ?_, ?_, ?_⟩, rfl, trivial, trivial, trivial, trivial⟩
  · simp [hr.next]
  · intro c hc
    rw [List.length_append, List.length_singleton]
    rcases List.mem_append.1 hc with hc | hc
    · exact Nat.lt_succ_of_lt (hr.place c hc)
    · rw [List.mem_singleton.1 hc, hb]
      exact Nat.lt_succ_self _
  · intro c hc
    rw [Bindings.get?_set]
    rcases List.mem_append.1 hc with hc | hc
    · have hne : b.name ≠ c.name := by
        intro hname
        rw [box_name_inj hname] at hnew
        exact hnew hc
      rw [if_neg hne]
      exact hr.known c hc
    · rw [List.mem_singleton.1 hc, if_pos rfl]
  · intro name c hc
    rw [Bindings.get?_set] at hc
    split at hc
    case isTrue hname =>
      obtain rfl := Option.some.inj hc
      exact ⟨hname.symm, by simp⟩
    case isFalse =>
      obtain ⟨hname, hmem⟩ := hr.named name c hc
      exact ⟨hname, List.mem_append_left _ hmem⟩

theorem resultOf_ends (hr : r.Knows defined) (hop : op.Stands E defined) (start : Span) :
    Ends E (resultOf start op.opcode (op.result.map Box.name)) r fun result r' =>
      result = op.result ∧ r'.Knows (defined ++ op.result.toList) ∧ r'.tokens = r.tokens ∧
      r'.loops = r.loops ∧ r'.self = r.self ∧ r'.pool.nextToken = r.pool.nextToken ∧
      r'.pool.nextGuard = r.pool.nextGuard := by
  cases hresult : op.result with
  | none =>
    have hneeds := hop.unproduced hresult
    simp only [resultOf, Option.map_none, hneeds, Bool.false_eq_true, if_false,
      ends_pure]
    exact ⟨trivial, by simpa using hr, trivial, trivial, trivial, trivial, trivial⟩
  | some b =>
    obtain ⟨hhas, hkind, hid⟩ := hop.produced b hresult
    simp only [resultOf, Option.map_some, hhas, Bool.not_true, Bool.false_eq_true, if_false,
      ends_bind]
    refine (defineBox_ends hr hid).mono ?_
    rintro _ r' ⟨rfl, h'⟩
    cases hk : op.opcode.resultKind? with
    | none => exact ends_pure.2 ⟨rfl, h'⟩
    | some k =>
      simp only [hkind k hk, ne_eq, not_true_eq_false, if_false, ends_pure]
      exact ⟨trivial, h'⟩

/-! ### Lines -/

theorem resultName?_ends_some {name : String} (h : r.Behind (.name name :: .assign :: ts) r')
    (hts : ts ≠ []) :
    Ends E resultName? r' fun name' r'' => name' = some name ∧ r.Behind ts r'' := by
  have hnext := h.next (by simp)
  simp only [resultName?, ends_bind, ends_token, ends_lookahead, Reader.here_token h.tokens,
    lookahead_eq h.tokens, ends_advance, ends_pure]
  exact ⟨trivial, hnext.next hts⟩

theorem resultName?_ends_none {name : String} {u : Token} (h : r.Behind (.name name :: u :: ts) r')
    (hu : u ≠ .assign) :
    Ends E resultName? r' fun name' r'' => name' = none ∧ r'' = r' := by
  simp only [resultName?, ends_bind, ends_token, ends_lookahead, Reader.here_token h.tokens,
    lookahead_eq h.tokens]
  split
  · exact absurd rfl hu
  · exact ends_pure.2 ⟨rfl, rfl⟩

theorem ofName?_name (o : Opcode) : Opcode.ofName? o.name = some o := by
  have hall : ∀ o ∈ Opcode.all, Opcode.ofName? o.name = some o := by decide +kernel
  exact hall o (Opcode.mem_all o)

theorem opcode_ends {o : Opcode} (h : r.Behind (.name o.name :: ts) r') (hts : ts ≠ []) :
    Ends E Parse.opcode r' fun o' r'' => o' = o ∧ r.Behind ts r'' := by
  simp only [Parse.opcode, ends_bind, ends_span, expectName_ends h.tokens, ofName?_name, ends_pure]
  exact ⟨trivial, h.next hts⟩

/-- What is read behind the parentheses, for a guard its fail-args and its frames. -/
structure Tail (d : Dump) (op : Operation) (r : Reader) (ts : List Token)
    (guard : Option (List Operand × Snapshot)) (r' : Reader) : Prop where
  isSome : guard.isSome = op.isGuard
  failArgs : guard.map (·.1) = op.failArgs
  past : r.Past ts r'
  frames : ∀ g, guard = some g → d.options.snapshots = true → op.snapshot ≠ [] →
    g.2.map (·.entries) = op.snapshot.map (·.entries)

/-- Only a guard has anything behind the parentheses. -/
theorem tail_ends (hr : r.Knows defined) (hop : op.Stands E defined) (hts : Fresh ts)
    (h : r.Behind (Dump.failTokens op ++ (d.snapshotTokens op ++ ts)) r')
    {rest : Option (List Operand × Snapshot) → Parse α} {Q : α → Reader → Prop}
    (hrest : ∀ guard r'', Tail d op r ts guard r'' → Ends E (rest guard) r'' Q) :
    Ends E (if op.opcode.isGuard then do
        let guard ← pure (some (← guardTail))
        rest guard
      else do
        let guard ← pure none
        rest guard) r' Q := by
  have hfail := hop.form.failArgs
  cases hguard : op.opcode.isGuard with
  | true =>
    obtain ⟨fs, hfs⟩ := Option.isSome_iff_exists.1 (hfail.trans hguard)
    rw [Dump.failTokens, hfs] at h
    simp only [if_true, ends_bind, ends_pure]
    refine (guardTail_ends hr hop hfs hts h).mono ?_
    rintro guard r'' ⟨rfl, hpast, hframes⟩
    refine hrest _ _ ⟨hguard.symm, hfs.symm, hpast, ?_⟩
    rintro _ ⟨⟩
    exact hframes
  | false =>
    have hnone : op.failArgs = none := by
      simpa [Operation.isGuard, hguard] using hfail
    have hsnap : op.snapshot = [] := by
      have hdescr := hop.form.descr
      revert hdescr
      obtain ⟨opcode, args, result, descr, failArgs⟩ := op
      rintro (⟨h⟩ | _ | _ | _ | _) <;> first | rfl | cases h.symm.trans hguard
    have hnothing : (d.options.snapshots && !List.isEmpty ([] : Snapshot)) = false := by simp
    rw [Dump.failTokens, hnone, Dump.snapshotTokens, hsnap, hnothing] at h
    simp only [Bool.false_eq_true, if_false, ends_bind, ends_pure]
    exact hrest _ _ ⟨hguard.symm, hnone.symm, h.past, by rintro _ ⟨⟩⟩

theorem lineTokens_head (d : Dump) (op : Operation) :
    ∃ name rest, d.lineTokens op = .name name :: rest := by
  rw [Dump.lineTokens, Dump.resultTokens]
  split <;> exact ⟨_, _, rfl⟩

/-- What reading the line of an operation ends with. -/
structure Line (d : Dump) (defined : List Box) (op : Operation) (r : Reader) (ts : List Token)
    (op' : Operation) (r' : Reader) : Prop where
  read : op.ReadAs d r'.loops r.pool.nextGuard op'
  knows : r'.Knows (defined ++ op.result.toList)
  names : r'.Names d.name
  keeps : r.Keeps r'
  tokens : r'.tokens = ts
  nextGuard : r'.pool.nextGuard = r.pool.nextGuard + if op.isGuard then 1 else 0

/-- Nothing is refused where the number of operands is the one asked for, if one is. -/
theorem arity_ends {opcode : Opcode} {n : Nat} {start : Span} {rest : Parse α}
    {Q : α → Reader → Prop} (harity : ∀ m, opcode.arity? = some m → n = m)
    (hrest : Ends E rest r Q) :
    Ends E (match opcode.arity? with
      | some expected => if n ≠ expected then do
          failAt start (.badArity opcode expected n)
          rest
        else rest
      | none => rest) r Q := by
  split
  · rename_i m hm
    rwa [if_neg (not_not.2 (harity m hm))]
  · exact hrest

theorem operation_ends (hr : r.Knows defined) (hnames : r.Names d.name)
    (hop : op.Stands E defined) (hts : Fresh ts) (h : r.tokens = d.lineTokens op ++ ts) :
    Ends E operation r (Line d defined op r ts) := by
  have hlater : ts ≠ [] := by
    obtain ⟨t, rest, rfl, -⟩ := hts
    exact List.cons_ne_nil _ _
  have hopens : IsLexed .lparen := by rintro _ ⟨⟩
  have hcloses : IsLexed .rparen := by rintro _ ⟨⟩
  -- What is left behind the result.
  generalize htail : Token.name op.opcode.name :: .lparen :: (separated (d.itemTokens op) ++
    .rparen :: (Dump.failTokens op ++ (d.snapshotTokens op ++ ts))) = tail
  have hself : r.Behind (Dump.resultTokens op ++ tail) r := by
    refine Reader.behind_self (h.trans ?_)
    simp [Dump.lineTokens, ← htail]
  have hlexed : IsLexed r.here.token := by
    obtain ⟨name, rest, hname⟩ := lineTokens_head d op
    rw [hname] at h
    rw [Reader.here_token h]
    rintro _ ⟨⟩
  have hresult : Ends E resultName? r fun name r' =>
      name = op.result.map Box.name ∧ r.Behind tail r' := by
    cases hresult : op.result with
    | none =>
      rw [Dump.resultTokens, hresult, List.nil_append, ← htail] at hself
      refine (resultName?_ends_none hself (by simp)).mono ?_
      rintro _ _ ⟨rfl, rfl⟩
      exact ⟨rfl, htail ▸ hself⟩
    | some b =>
      rw [Dump.resultTokens, hresult] at hself
      exact resultName?_ends_some hself (by rw [← htail]; exact List.cons_ne_nil _ _)
  simp only [operation, ends_bind, checkLexed_ends hlexed, ends_span]
  refine hresult.mono ?_
  rintro _ r₁ ⟨rfl, h₁⟩
  rw [← htail] at h₁
  refine (opcode_ends h₁ (by simp)).mono ?_
  rintro _ r₂ ⟨rfl, h₂⟩
  simp only [expect_ends h₂.tokens hopens]
  refine (opItems_ends hr d hop.args (h₂.next (by simp))).mono ?_
  rintro _ r₃ ⟨rfl, h₃⟩
  simp only [expect_ends h₃.tokens hcloses, args_of_readItems, descr_of_readItems]
  have h₄ := h₃.next (by simp [hlater])
  refine arity_ends hop.arity (tail_ends hr hop hts h₄ fun guard r₅ htail => ?_)
  have hpast := htail.past
  have hnames₅ := hnames.of_eq hpast.loops hpast.self hpast.nextToken
  simp only [ends_bind]
  refine (descrOf_ends hnames₅ hop.form.descr htail.isSome htail.frames _).mono ?_
  rintro descr r₆ ⟨hdescr, hdescribed⟩
  have hr₆ : r₆.Knows defined := hr.of_eq (hdescribed.boxes.trans hpast.boxes)
    (hdescribed.nextBox.trans hpast.nextBox)
  refine (resultOf_ends hr₆ hop _).mono ?_
  rintro _ r₇ ⟨rfl, hknows, htokens, hloops, hself', hnextToken, hnextGuard⟩
  refine ends_pure.2 ⟨⟨rfl, rfl, rfl, htail.failArgs, ?_⟩, hknows, ?_, ?_, ?_, ?_⟩
  · rwa [hloops, ← hpast.nextGuard]
  · exact hdescribed.names.of_eq hloops hself' hnextToken
  · exact ((Reader.keeps_of_eq hpast.loops hpast.self).trans hdescribed.keeps).trans
      (Reader.keeps_of_eq hloops hself')
  · rw [htokens, hdescribed.tokens, hpast.tokens]
  · rw [hnextGuard, hdescribed.nextGuard, hpast.nextGuard]

/-! ### All lines -/

/-- Each operation can be read back behind those in front of it. -/
def StandAll (E : ParseError → Reader → Prop) : List Box → List Operation → Prop
  | _, [] => True
  | defined, op :: rest =>
    op.Stands E defined ∧ StandAll E (defined ++ op.result.toList) rest

/-- Each operation is read as itself, the guards numbered one after the other. -/
def ReadAll (d : Dump) (loops : Bindings String LoopToken) :
    Nat → List Operation → List Operation → Prop
  | _, [], [] => True
  | n, op :: ops, op' :: ops' =>
    op.ReadAs d loops n op' ∧ ReadAll d loops (n + if op.isGuard then 1 else 0) ops ops'
  | _, _, _ => False

theorem fresh_lines (d : Dump) (ops : List Operation) : Fresh (d.linesTokens ops ++ [.eof]) := by
  cases ops with
  | nil => exact ⟨.eof, [], rfl, by simp, by simp⟩
  | cons op rest =>
    obtain ⟨name, tail, hname⟩ := lineTokens_head d op
    rw [Dump.linesTokens, hname]
    exact ⟨_, _, rfl, by simp, by simp⟩

/-- Where no line fails, every operation is read as itself; a line fails only if it is
allowed to. -/
theorem operations_eq {ops : List Operation} {fuel : Nat} (hfuel : ops.length ≤ fuel)
    (hr : r.Knows defined) (hnames : r.Names d.name) (hops : StandAll E defined ops)
    (h : r.tokens = d.linesTokens ops ++ [.eof]) :
    ∃ ops' errors last, r.operations fuel = (ops', errors, last) ∧
      ((∀ e r', ¬E e r') → errors = []) ∧
      (errors = [] → ReadAll d last.loops r.pool.nextGuard ops ops' ∧ last.Names d.name ∧
        r.Keeps last) := by
  induction ops generalizing r defined fuel with
  | nil =>
    have hhere : r.here.token = .eof := Reader.here_token h
    refine ⟨[], [], r, ?_, fun _ => rfl, fun _ => ⟨trivial, hnames, .refl r⟩⟩
    cases fuel with
    | zero => rfl
    | succ fuel => rw [Reader.operations, if_pos hhere]
  | cons op rest ih =>
    obtain ⟨fuel, rfl⟩ : ∃ n, fuel = n + 1 := Nat.exists_eq_succ_of_ne_zero (by
      rintro rfl
      cases hfuel)
    have hline := operation_ends hr hnames hops.1 (fresh_lines d rest)
      (h.trans (by rw [Dump.linesTokens, List.append_assoc]))
    have hhere : r.here.token ≠ .eof := by
      obtain ⟨name, tail, hname⟩ := lineTokens_head d op
      rw [Dump.linesTokens, hname] at h
      simp [Reader.here_token h]
    rw [Reader.operations, if_neg hhere]
    unfold Ends at hline
    unfold Reader.round
    split at hline
    case h_1 op' r' hrun =>
      obtain ⟨ops', errors, last, hrest, hnone, hread⟩ := ih (Nat.le_of_succ_le_succ hfuel)
        hline.knows hline.names hops.2 hline.tokens
      rw [hrun]
      refine ⟨op' :: ops', errors, last, by simp only [hrest], hnone, fun he => ?_⟩
      obtain ⟨hall, hlast, hkeeps⟩ := hread he
      rw [hline.nextGuard] at hall
      exact ⟨⟨hline.read.keep hkeeps.2, hall⟩, hlast, hline.keeps.trans hkeeps⟩
    case h_2 e r' hrun =>
      rw [hrun]
      exact ⟨_, _, _, rfl, fun hE => absurd hline (hE e r'), by simp⟩

end Parse
end TracePeel
