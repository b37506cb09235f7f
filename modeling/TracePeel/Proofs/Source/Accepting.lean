import TracePeel.Proofs.Source.SameTrace

/-! What an accepted text gives.

Here the parser is followed over every text, whatever it says: where a part does not fail,
its value has the form that the rest of the program relies on, and the reader goes on with
all that was defined on the way (`Reader.Sound`). So a text that is accepted gives a trace
that can be written and read again (`Trace.legible_of_parse`). -/
namespace TracePeel

/-! ### Names -/

namespace Lexer

theorem isName_of_nameToken {text name : String} (h : nameToken text = .name name)
    (hchars : nameChars text.toList = true) : IsName name := by
  unfold nameToken at h
  split at h
  · cases h
  · obtain rfl := Token.name.inj h
    exact ⟨hchars, by assumption⟩

theorem isName_of_scan {c : Char} {rest : List Char} {name : String}
    (h : (scan c rest).1 = .name name) : IsName name := by
  unfold scan at h
  split at h
  case isTrue hc =>
    refine isName_of_nameToken h ?_
    have hword : (c :: rest).takeWhile continuesName = c :: rest.takeWhile continuesName := by
      rw [List.takeWhile_cons, if_pos (continuesName_of_startsName hc)]
    rw [String.toList_ofList, hword]
    simp only [nameChars, hc, Bool.true_and, List.all_eq_true]
    exact List.all_eq_true.1 List.all_takeWhile
  case isFalse =>
    split at h
    · have hnumeral := isNumeral_scan (c :: rest)
      rw [h] at hnumeral
      exact hnumeral.elim
    · unfold charToken at h
      split at h <;> cases h

/-- The names among the tokens of a text are names. -/
theorem isName_of_mem_tokensFrom {fuel : Nat} {p : Position} {cs : List Char} {name : String}
    (h : .name name ∈ (tokensFrom fuel p cs).map (·.token)) : IsName name := by
  induction fuel generalizing p cs with
  | zero =>
    unfold tokensFrom at h
    simp at h
  | succ fuel ih =>
    unfold tokensFrom at h
    cases hrest : cs.drop (gap false cs).length with
    | nil => simp [hrest] at h
    | cons c rest =>
      simp only [hrest] at h
      rcases List.mem_cons.1 h with h | h
      · exact isName_of_scan h.symm
      · exact ih h

end Lexer

/-! ### Readers -/

namespace Reader

/-- `r'` is `r` gone on; nothing was defined or named on the way. -/
structure Onto (r r' : Reader) : Prop where
  tokens : r'.tokens ⊆ r.tokens
  nextBox : r'.pool.nextBox = r.pool.nextBox
  nextGuard : r'.pool.nextGuard = r.pool.nextGuard
  nextToken : r'.pool.nextToken = r.pool.nextToken
  boxes : r'.boxes = r.boxes
  loops : r'.loops = r.loops
  self : r'.self = r.self

/-- The names in front of the reader are names, its boxes are those defined, numbered in their
order, and its loops have numbers that the pool gave out. -/
structure Sound (r : Reader) (defined : List Box) : Prop where
  names : ∀ name, .name name ∈ r.tokens → Lexer.IsName name
  nextBox : r.pool.nextBox = defined.length
  places : defined.map (·.id) = List.range defined.length
  boxes : ∀ name b, r.boxes.get? name = some b → b ∈ defined
  loops : ∀ name k, r.loops.get? name = some k → k.number < r.pool.nextToken
  self : r.self.number < r.pool.nextToken

variable {r r' r'' : Reader} {defined : List Box}

theorem Onto.refl (r : Reader) : r.Onto r :=
  ⟨List.Subset.refl _, rfl, rfl, rfl, rfl, rfl, rfl⟩

theorem Onto.trans (h : r.Onto r') (h' : r'.Onto r'') : r.Onto r'' where
  tokens := List.Subset.trans h'.tokens h.tokens
  nextBox := h'.nextBox.trans h.nextBox
  nextGuard := h'.nextGuard.trans h.nextGuard
  nextToken := h'.nextToken.trans h.nextToken
  boxes := h'.boxes.trans h.boxes
  loops := h'.loops.trans h.loops
  self := h'.self.trans h.self

theorem onto_next (r : Reader) : r.Onto r.next := by
  obtain ⟨here, rest, pool, boxes, loops, self⟩ := r
  cases rest with
  | nil => exact .refl _
  | cons next rest => exact ⟨List.subset_cons_self _ _, rfl, rfl, rfl, rfl, rfl, rfl⟩

theorem Onto.next (h : r.Onto r') : r.Onto r'.next :=
  h.trans (onto_next r')

/-- New frames define nothing else. -/
theorem Onto.chainOf (h : r.Onto r') (frames : List (List Operand)) :
    r.Onto { r' with pool := (r'.pool.chainOf frames).2 } := by
  obtain ⟨hbox, hguard, htoken⟩ := r'.pool.chainOf_pool frames
  exact ⟨h.tokens, hbox.trans h.nextBox, hguard.trans h.nextGuard, htoken.trans h.nextToken,
    h.boxes, h.loops, h.self⟩

theorem here_mem_tokens (r : Reader) : r.here.token ∈ r.tokens :=
  List.mem_cons_self ..

theorem Sound.onto (h : r.Sound defined) (h' : r.Onto r') : r'.Sound defined where
  names name hname := h.names name (h'.tokens hname)
  nextBox := h'.nextBox.trans h.nextBox
  places := h.places
  boxes name b hb := h.boxes name b (by rwa [← h'.boxes])
  loops name k hk := by
    rw [h'.nextToken]
    exact h.loops name k (by rwa [← h'.loops])
  self := by
    rw [h'.self, h'.nextToken]
    exact h.self

theorem Sound.nodup (h : r.Sound defined) : defined.Nodup :=
  List.Nodup.of_map _ (h.places ▸ List.nodup_range)

/-- A box with the next number is new. -/
theorem Sound.fresh (h : r.Sound defined) (kind : Kind) : ⟨r.pool.nextBox, kind⟩ ∉ defined := by
  intro hmem
  have hid := List.mem_map_of_mem (f := Box.id) hmem
  rw [h.places, List.mem_range, h.nextBox] at hid
  exact lt_irrefl _ hid

end Reader

theorem Operation.guard?_eq_some {op : Operation} {n : Nat} {s : Snapshot} :
    op.guard? = some (n, s) ↔ op.descr = some (.guard n s) := by
  obtain ⟨opcode, args, result, descr, failArgs⟩ := op
  rcases descr with _ | ⟨_ | _ | _ | _⟩ <;> simp [Operation.guard?]

theorem Operation.token?_eq_some {op : Operation} {k : LoopToken} :
    op.token? = some k ↔ op.descr = some (.loop k) := by
  obtain ⟨opcode, args, result, descr, failArgs⟩ := op
  rcases descr with _ | ⟨_ | _ | _ | _⟩ <;> simp [Operation.token?]

namespace Parse

/-- Any failure is allowed. -/
def Lenient : ParseError → Reader → Prop :=
  fun _ _ => True

variable {α : Type} {r : Reader} {defined : List Box}

theorem fail_lenient {cause : ParseCause} {Q : α → Reader → Prop} :
    Ends Lenient (fail cause) r Q :=
  trivial

theorem failAt_lenient {span : Span} {cause : ParseCause} {Q : α → Reader → Prop} :
    Ends Lenient (failAt span cause) r Q :=
  trivial

/-! ### Tokens -/

theorem checkLexed_lenient {Q : Unit → Reader → Prop} (h : Q () r) :
    Ends Lenient checkLexed r Q := by
  simp only [checkLexed, ends_bind, ends_token]
  split
  · exact fail_lenient
  · exact h

theorem expect_lenient {wanted : Token} {Q : Unit → Reader → Prop} (h : Q () r.next) :
    Ends Lenient (expect wanted) r Q := by
  simp only [expect, ends_bind, ends_token]
  refine checkLexed_lenient ?_
  split
  · exact h
  · exact fail_lenient

theorem expectName_lenient {Q : String → Reader → Prop}
    (h : ∀ name, .name name ∈ r.tokens → Q name r.next) : Ends Lenient expectName r Q := by
  simp only [expectName, ends_bind, ends_token]
  refine checkLexed_lenient ?_
  split
  case h_1 name hname => exact h name (hname ▸ r.here_mem_tokens)
  case h_2 => exact fail_lenient

theorem accept_lenient {wanted : Token} {Q : Bool → Reader → Prop}
    (h : ∀ taken r', r.Onto r' → Q taken r') : Ends Lenient (accept wanted) r Q := by
  simp only [accept, ends_bind, ends_token]
  split
  · exact h true _ r.onto_next
  · exact h false _ (.refl r)

/-- A list of items keeps what each item and each separator keeps. -/
theorem itemsWithin_lenient {close : Token} {item : Parse α} {P : List α → Reader → Prop}
    (hitem : ∀ as r, P as r → Ends Lenient item r fun a r' => P (as ++ [a]) r')
    (honto : ∀ as r r', P as r → r.Onto r' → P as r') {as : List α} (h : P as r) (fuel : Nat) :
    Ends Lenient (itemsWithin close item fuel) r fun bs r' => P (as ++ bs) r' := by
  have hnil {as : List α} {r : Reader} (h : P as r) : P (as ++ []) r := by
    rwa [List.append_nil]
  induction fuel generalizing as r with
  | zero => exact hnil h
  | succ fuel ih =>
    simp only [itemsWithin, ends_bind, ends_token]
    split
    · exact hnil h
    · simp only [ends_bind]
      refine (hitem as r h).mono fun a r' h' => accept_lenient fun taken r'' honto' => ?_
      have h'' := honto _ _ _ h' honto'
      split
      · simp only [ends_bind, ends_pure]
        refine (ih h'').mono fun bs r''' hbs => ?_
        rwa [List.append_assoc] at hbs
      · exact h''

theorem items_lenient {close : Token} {item : Parse α} {P : List α → Reader → Prop}
    (hitem : ∀ as r, P as r → Ends Lenient item r fun a r' => P (as ++ [a]) r')
    (honto : ∀ as r r', P as r → r.Onto r' → P as r') (h : P [] r) :
    Ends Lenient (items close item) r P := by
  simp only [items, ends_bind, ends_get]
  exact (itemsWithin_lenient hitem honto h _).mono fun _ _ h => h

/-- Items of which each satisfies `A`. -/
theorem items_all_lenient {close : Token} {item : Parse α} {A : α → Prop}
    (hitem : ∀ r', r.Onto r' → Ends Lenient item r' fun a r'' => A a ∧ r'.Onto r'') :
    Ends Lenient (items close item) r fun as r' => (∀ a ∈ as, A a) ∧ r.Onto r' := by
  refine items_lenient (P := fun as r' => (∀ a ∈ as, A a) ∧ r.Onto r') ?_ ?_ ⟨nofun, .refl r⟩
  · rintro as r' ⟨has, h⟩
    refine (hitem r' h).mono ?_
    rintro a r'' ⟨ha, h'⟩
    refine ⟨fun b hb => ?_, h.trans h'⟩
    rcases List.mem_append.1 hb with hb | hb
    · exact has b hb
    · rwa [List.mem_singleton.1 hb]
  · rintro as r' r'' ⟨has, h⟩ h'
    exact ⟨has, h.trans h'⟩

/-! ### Operands -/

theorem address_lenient : Ends Lenient address r fun a r' =>
    (∃ v : UInt64, a = .const (.ref v) ∧ v.toNat < 2 ^ 63) ∧ r.Onto r' := by
  simp only [address, ends_bind]
  refine expect_lenient ?_
  simp only [ends_token]
  split
  case h_1 value _ =>
    split
    · exact fail_lenient
    · rename_i hpos
      simp only [ends_bind, ends_advance]
      refine expect_lenient ⟨⟨_, rfl, ?_⟩, r.onto_next.next.next⟩
      have hbound : 2 * value.toBitVec.toNat < 2 ^ 64 := by
        rw [← BitVec.toInt_pos_iff]
        exact Int.not_lt.1 hpos
      show value.toBitVec.toNat < 2 ^ 63
      omega
  case h_2 => exact fail_lenient

/-- The operand is a box that is defined, or a constant that has a literal. -/
structure Within (defined : List Box) (a : Operand) : Prop where
  box : ∀ b, a = .box b → b ∈ defined
  literal : a.Literal

theorem operand_lenient (hr : r.Sound defined) :
    Ends Lenient operand r fun a r' => Within defined a ∧ r.Onto r' := by
  simp only [operand, ends_bind]
  refine checkLexed_lenient ?_
  simp only [ends_token]
  split
  case h_1 value _ => exact ⟨⟨by rintro _ ⟨⟩, trivial⟩, r.onto_next⟩
  case h_2 bits _ => exact ⟨⟨by rintro _ ⟨⟩, trivial⟩, r.onto_next⟩
  case h_3 name _ =>
    split
    · simp only [ends_bind, ends_advance]
      refine address_lenient.mono ?_
      rintro _ r' ⟨⟨v, rfl, hv⟩, h⟩
      exact ⟨⟨by rintro _ ⟨⟩, hv⟩, r.onto_next.trans h⟩
    · simp only [ends_bind, ends_get]
      split
      · rename_i b hb
        refine ⟨⟨?_, trivial⟩, r.onto_next⟩
        rintro _ ⟨⟩
        exact hr.boxes name b hb
      · exact fail_lenient
  case h_4 => exact fail_lenient

theorem operandList_lenient (hr : r.Sound defined) :
    Ends Lenient operandList r fun args r' => (∀ a ∈ args, Within defined a) ∧ r.Onto r' := by
  simp only [operandList, ends_bind]
  refine expect_lenient ?_
  have hitem (r' : Reader) (h : r.next.Onto r') :
      Ends Lenient operand r' fun a r'' => Within defined a ∧ r'.Onto r'' :=
    operand_lenient (hr.onto (r.onto_next.trans h))
  refine (items_all_lenient hitem).mono ?_
  rintro args r' ⟨hargs, h⟩
  refine expect_lenient ?_
  exact ⟨hargs, (r.onto_next.trans h).next⟩

/-! ### Items and guards -/

theorem descrName_lenient : Ends Lenient descrName r fun name r' =>
    .name name ∈ r.tokens ∧ r.Onto r' := by
  simp only [descrName, ends_bind]
  refine accept_lenient fun taken r₁ h₁ => ?_
  split
  · simp only [ends_bind]
    refine expectName_lenient fun name hname => expect_lenient ?_
    exact ⟨h₁.tokens hname, h₁.next.next⟩
  · exact expectName_lenient fun name hname => ⟨h₁.tokens hname, h₁.next⟩

/-- What an item of an operation is. -/
def ItemWithin (defined : List Box) : Item → Prop
  | .operand a => Within defined a
  | .descr name => Lexer.IsName name

theorem item_lenient (hr : r.Sound defined) :
    Ends Lenient item r fun i r' => ItemWithin defined i ∧ r.Onto r' := by
  simp only [item, ends_bind, ends_token, ends_lookahead]
  split
  · simp only [ends_bind, ends_advance, ends_pure]
    refine descrName_lenient.mono ?_
    rintro name r' ⟨hname, h⟩
    have hnext := r.onto_next.next
    exact ⟨hr.names name (hnext.tokens hname), hnext.trans h⟩
  · simp only [ends_bind, ends_pure]
    exact operand_lenient hr

theorem framesWithin_lenient (hr : r.Sound defined) (fuel : Nat) :
    Ends Lenient (framesWithin fuel) r fun frames r' =>
      (∀ entries ∈ frames, ∀ a ∈ entries, Within defined a) ∧ r.Onto r' := by
  induction fuel generalizing r with
  | zero => exact ⟨nofun, .refl r⟩
  | succ fuel ih =>
    simp only [framesWithin, ends_bind, ends_token]
    split
    · simp only [ends_bind, ends_pure]
      refine (operandList_lenient hr).mono ?_
      rintro entries r' ⟨hentries, h⟩
      refine (ih (hr.onto h)).mono ?_
      rintro frames r'' ⟨hframes, h'⟩
      exact ⟨List.forall_mem_cons.2 ⟨hentries, hframes⟩, h.trans h'⟩
    · exact ⟨nofun, .refl r⟩

theorem snapshotOf_lenient {frames : List (List Operand)}
    (hframes : ∀ entries ∈ frames, ∀ a ∈ entries, Within defined a) :
    Ends Lenient (snapshotOf frames) r fun s r' =>
      (∀ a ∈ s.operands, Within defined a) ∧ r.Onto r' := by
  rw [snapshotOf_ends]
  refine ⟨fun a ha => ?_, (Reader.Onto.refl r).chainOf frames⟩
  obtain ⟨frame, hframe, hentry⟩ := List.mem_flatMap.1 ha
  refine hframes frame.entries ?_ a hentry
  rw [← r.pool.chainOf_entries frames]
  exact List.mem_map_of_mem hframe

theorem guardTail_lenient (hr : r.Sound defined) :
    Ends Lenient guardTail r fun guard r' => (∀ a ∈ guard.1, Within defined a) ∧
      (∀ a ∈ guard.2.operands, Within defined a) ∧ r.Onto r' := by
  -- Behind the fail-args, whether they were written or left out.
  have hbehind (failArgs : List Operand) (hfail : ∀ a ∈ failArgs, Within defined a) (r₁ : Reader)
      (h₁ : r.Onto r₁) : Ends Lenient (do
        let frames ←
          if ← accept .atSign then framesWithin ((← get).rest.length + 1) else pure [failArgs]
        return (failArgs, ← snapshotOf frames)) r₁ fun guard r' =>
        (∀ a ∈ guard.1, Within defined a) ∧ (∀ a ∈ guard.2.operands, Within defined a) ∧
          r.Onto r' := by
    have hframes (frames : List (List Operand))
        (hframes : ∀ entries ∈ frames, ∀ a ∈ entries, Within defined a) (r₂ : Reader)
        (h₂ : r.Onto r₂) : Ends Lenient (snapshotOf frames) r₂ fun s r' =>
          (∀ a ∈ failArgs, Within defined a) ∧ (∀ a ∈ s.operands, Within defined a) ∧
            r.Onto r' :=
      (snapshotOf_lenient hframes).mono fun s r' h => ⟨hfail, h.1, h₂.trans h.2⟩
    simp only [ends_bind]
    refine accept_lenient fun taken r₂ h₂ => ?_
    split
    · simp only [ends_bind, ends_get, ends_pure]
      refine (framesWithin_lenient (hr.onto (h₁.trans h₂)) _).mono ?_
      rintro frames r₃ ⟨hentries, h₃⟩
      exact hframes frames hentries r₃ ((h₁.trans h₂).trans h₃)
    · simp only [ends_bind, ends_pure]
      refine hframes [failArgs] ?_ r₂ (h₁.trans h₂)
      rintro _ hmem
      rwa [List.mem_singleton.1 hmem]
  simp only [guardTail]
  rw [ends_bind, ends_token]
  split
  · rw [ends_bind]
    refine (operandList_lenient hr).mono ?_
    rintro failArgs r₁ ⟨hfail, h₁⟩
    exact hbehind failArgs hfail r₁ h₁
  · exact hbehind [] (List.forall_mem_nil _) r (.refl r)

/-! ### Descriptors and results -/

theorem loopNamed_lenient (hr : r.Sound defined) (name : Option String) :
    Ends Lenient (loopNamed name) r fun k r' => k.number < r'.pool.nextToken ∧
      r'.Sound defined ∧ r'.pool.nextGuard = r.pool.nextGuard ∧
      r.pool.nextToken ≤ r'.pool.nextToken := by
  cases name with
  | none => exact ⟨hr.self, hr, rfl, le_rfl⟩
  | some name =>
    simp only [loopNamed, ends_bind, ends_get]
    split
    · rename_i k hk
      exact ⟨hr.loops name k hk, hr, rfl, le_rfl⟩
    · simp only [Pool.freshToken, ends_bind, ends_modify, ends_pure]
      refine ⟨Nat.lt_succ_self _, ⟨hr.names, hr.nextBox, hr.places, hr.boxes, ?_, ?_⟩, rfl,
        Nat.le_succ _⟩
      · intro a k hk
        rw [Bindings.get?_set] at hk
        split at hk
        · cases hk
          exact Nat.lt_succ_self _
        · exact Nat.lt_succ_of_lt (hr.loops a k hk)
      · exact Nat.lt_succ_of_lt hr.self

/-- What a descriptor is that was just made, and what is known behind it. -/
structure Labelled (r : Reader) (defined : List Box) (opcode : Opcode)
    (guard : Option (List Operand × Snapshot)) (descr : Option Descr) (r' : Reader) : Prop where
  carries : opcode.Carries descr
  guard : ∀ n s, descr = some (.guard n s) → n = r.pool.nextGuard ∧ ∃ fs, guard = some (fs, s)
  loop : ∀ k, descr = some (.loop k) → k.number < r'.pool.nextToken
  sound : r'.Sound defined
  nextGuard : r'.pool.nextGuard = r.pool.nextGuard + if opcode.isGuard then 1 else 0
  nextToken : r.pool.nextToken ≤ r'.pool.nextToken

theorem descrOf_lenient (hr : r.Sound defined) {opcode : Opcode} {name : Option String}
    (hname : ∀ s, name = some s → Lexer.IsName s) {guard : Option (List Operand × Snapshot)}
    (hguard : guard.isSome = opcode.isGuard) (start : Span) :
    Ends Lenient (descrOf start opcode name guard) r (Labelled r defined opcode guard) := by
  cases guard with
  | some g =>
    obtain ⟨failArgs, snapshot⟩ := g
    have hopcode : opcode.isGuard = true := hguard.symm
    simp only [descrOf, Pool.freshGuard, ends_bind, ends_get, ends_modify, ends_pure]
    refine ⟨.guard hopcode, ?_, by rintro _ ⟨⟩, ⟨hr.names, hr.nextBox, hr.places, hr.boxes, hr.loops,
      hr.self⟩, by rw [hopcode]; rfl, le_rfl⟩
    rintro n s ⟨⟩
    exact ⟨rfl, failArgs, rfl⟩
  | none =>
    have hopcode : opcode.isGuard = false := hguard.symm
    have hplain {descr : Option Descr} (hcarries : opcode.Carries descr)
        (hnone : ∀ n s, descr ≠ some (.guard n s)) (hloop : ∀ k, descr ≠ some (.loop k)) :
        Labelled r defined opcode none descr r :=
      ⟨hcarries, fun n s h => absurd h (hnone n s), fun k h => absurd h (hloop k), hr,
        by rw [hopcode]; rfl, le_rfl⟩
    simp only [descrOf]
    split
    · simp only [ends_bind, ends_pure]
      refine (loopNamed_lenient hr name).mono ?_
      rintro k r' ⟨hk, hr', hnextGuard, hnextToken⟩
      refine ⟨.loop rfl, by rintro _ _ ⟨⟩, ?_, hr', hnextGuard, hnextToken⟩
      rintro _ ⟨⟩
      exact hk
    iterate 3
      split
      · exact hplain (.field rfl (hname _ rfl)) (by simp) (by simp)
      · exact failAt_lenient
    · refine hplain (.size rfl (by decide) rfl ?_) (by simp) (by simp)
      cases name with
      | none => decide
      | some s => exact hname s rfl
    · rename_i hjump hset hget hpure hnew
      have haccess : opcode.isAccess = false := by
        simp only [Opcode.isAccess, Bool.or_eq_false_iff, beq_eq_false_iff_ne]
        exact ⟨⟨hset, hget⟩, hpure⟩
      cases name with
      | none => exact hplain (.none hopcode hjump haccess hnew) (by simp) (by simp)
      | some s => exact hplain (.size hopcode hjump haccess (hname s rfl)) (by simp) (by simp)

/-- `r'` is `r` with the boxes known of a box more. -/
structure Produced (r : Reader) (defined : List Box) (b : Box) (r' : Reader) : Prop where
  fresh : b ∉ defined
  sound : r'.Sound (defined ++ [b])
  nextGuard : r'.pool.nextGuard = r.pool.nextGuard
  nextToken : r'.pool.nextToken = r.pool.nextToken

theorem defineBox_lenient (hr : r.Sound defined) (name : String) :
    Ends Lenient (defineBox name) r (Produced r defined) := by
  simp only [defineBox, ends_bind, ends_span]
  split
  · exact failAt_lenient
  · rename_i kind _
    simp only [ends_bind, ends_get]
    split
    · exact failAt_lenient
    · simp only [Pool.freshBox, ends_bind, ends_get, ends_modify, ends_pure]
      refine ⟨hr.fresh kind, ⟨hr.names, ?_, ?_, ?_, hr.loops, hr.self⟩, rfl, rfl⟩
      · show r.pool.nextBox + 1 = _
        rw [hr.nextBox, List.length_append, List.length_singleton]
      · rw [List.map_append, hr.places, List.length_append, List.length_singleton,
          List.range_succ, List.map_singleton, hr.nextBox]
      · intro a b hb
        rw [Bindings.get?_set] at hb
        split at hb
        · cases hb
          exact List.mem_append_right _ (List.mem_singleton_self _)
        · exact List.mem_append_left _ (hr.boxes a b hb)

theorem resultOf_lenient (hr : r.Sound defined) (start : Span) (opcode : Opcode)
    (name : Option String) :
    Ends Lenient (resultOf start opcode name) r fun result r' =>
      (∀ b, result = some b → opcode.hasResult = true ∧
        (∀ k, opcode.resultKind? = some k → k = b.kind) ∧ b ∉ defined) ∧
      (result = none → opcode.needsResult = false) ∧
      r'.Sound (defined ++ result.toList) ∧ r'.pool.nextGuard = r.pool.nextGuard ∧
      r'.pool.nextToken = r.pool.nextToken := by
  cases name with
  | none =>
    simp only [resultOf]
    split
    · exact failAt_lenient
    · rename_i hneeds
      exact ⟨by rintro _ ⟨⟩, fun _ => Bool.eq_false_iff.2 hneeds, by simpa using hr, rfl, rfl⟩
  | some name =>
    simp only [resultOf]
    split
    · exact failAt_lenient
    · rename_i hhas
      simp only [ends_bind]
      refine (defineBox_lenient hr name).mono ?_
      rintro b r' ⟨hfresh, hsound, hnextGuard, hnextToken⟩
      have hdone (hkind : ∀ k, opcode.resultKind? = some k → k = b.kind) :
          (∀ b', some b = some b' → opcode.hasResult = true ∧
            (∀ k, opcode.resultKind? = some k → k = b'.kind) ∧ b' ∉ defined) ∧
          (some b = none → opcode.needsResult = false) ∧ r'.Sound (defined ++ [b]) ∧
          r'.pool.nextGuard = r.pool.nextGuard ∧ r'.pool.nextToken = r.pool.nextToken := by
        refine ⟨?_, by rintro ⟨⟩, hsound, hnextGuard, hnextToken⟩
        rintro _ ⟨⟩
        exact ⟨by simpa using hhas, hkind, hfresh⟩
      split
      · rename_i kind hkind
        split
        · exact failAt_lenient
        · rename_i hsame
          refine hdone fun k hk => ?_
          rw [hkind] at hk
          exact (Option.some.inj hk).symm.trans (not_not.1 hsame)
      · rename_i hkind
        refine hdone fun k hk => ?_
        rw [hkind] at hk
        cases hk

/-! ### Operations -/

theorem resultName?_lenient {Q : Option String → Reader → Prop}
    (h : ∀ name r', r.Onto r' → Q name r') : Ends Lenient resultName? r Q := by
  simp only [resultName?, ends_bind, ends_token, ends_lookahead]
  split
  · exact h _ _ r.onto_next.next
  · exact h _ _ (.refl r)

theorem opcode_lenient {Q : Opcode → Reader → Prop} (h : ∀ o r', r.Onto r' → Q o r') :
    Ends Lenient Parse.opcode r Q := by
  simp only [Parse.opcode, ends_bind, ends_span]
  refine expectName_lenient fun name _ => ?_
  split
  · exact h _ _ r.onto_next
  · exact failAt_lenient

/-- What an operation is that was just read, and what is known behind it. -/
structure Taken (r : Reader) (defined : List Box) (op : Operation) (r' : Reader) : Prop where
  legible : op.Legible Lenient defined
  sound : r'.Sound (defined ++ op.result.toList)
  number : ∀ n s, op.descr = some (.guard n s) → n = r.pool.nextGuard
  token : ∀ k, op.descr = some (.loop k) → k.number < r'.pool.nextToken
  nextGuard : r'.pool.nextGuard = r.pool.nextGuard + if op.isGuard then 1 else 0
  nextToken : r.pool.nextToken ≤ r'.pool.nextToken

/-- Only a guard has anything behind the parentheses. -/
theorem tail_lenient (hr : r.Sound defined) (opcode : Opcode)
    {rest : Option (List Operand × Snapshot) → Parse α} {Q : α → Reader → Prop}
    (hrest : ∀ guard r', guard.isSome = opcode.isGuard →
      (∀ fs s, guard = some (fs, s) → ∀ a ∈ fs ++ s.operands, Within defined a) → r.Onto r' →
        Ends Lenient (rest guard) r' Q) :
    Ends Lenient (if opcode.isGuard then do
        let guard ← pure (some (← guardTail))
        rest guard
      else do
        let guard ← pure none
        rest guard) r Q := by
  cases hguard : opcode.isGuard with
  | true =>
    simp only [if_true, ends_bind, ends_pure]
    refine (guardTail_lenient hr).mono ?_
    rintro ⟨fs, s⟩ r' ⟨hfs, hs, h⟩
    refine hrest _ r' hguard.symm ?_ h
    rintro _ _ ⟨⟩ a ha
    exact (List.mem_append.1 ha).elim (hfs a) (hs a)
  | false =>
    simp only [Bool.false_eq_true, if_false, ends_bind, ends_pure]
    exact hrest none r hguard.symm nofun (.refl r)

theorem arity_lenient {opcode : Opcode} {n : Nat} {start : Span} {rest : Parse α}
    {Q : α → Reader → Prop}
    (hrest : (∀ m, opcode.arity? = some m → n = m) → Ends Lenient rest r Q) :
    Ends Lenient (match opcode.arity? with
      | some expected => if n ≠ expected then do
          failAt start (.badArity opcode expected n)
          rest
        else rest
      | none => rest) r Q := by
  split
  · rename_i expected hexpected
    split
    · exact failAt_lenient
    · rename_i hsame
      exact hrest fun m hm => (not_not.1 hsame).trans (Option.some.inj (hexpected.symm.trans hm))
  · rename_i hnone
    exact hrest fun m hm => absurd (hnone.symm.trans hm) nofun

/-- What a line reads is within, where its operands are and what is alive at its guard. -/
theorem usedArgs_within (opcode : Opcode) {args : List Operand} (result : Option Box)
    {descr : Option Descr} {guard : Option (List Operand × Snapshot)}
    (hargs : ∀ a ∈ args, Within defined a)
    (hwithin : ∀ fs s, guard = some (fs, s) → ∀ a ∈ fs ++ s.operands, Within defined a)
    (hdescr : ∀ n s, descr = some (.guard n s) → ∃ fs, guard = some (fs, s)) :
    ∀ a ∈ Operation.usedArgs ⟨opcode, args, result, descr, guard.map (·.1)⟩, Within defined a := by
  simp only [Operation.usedArgs, List.mem_append]
  rintro a ((ha | ha) | ha)
  · exact hargs a ha
  · cases hg : guard with
    | none =>
      rw [hg] at ha
      cases ha
    | some g =>
      rw [hg] at ha
      exact hwithin g.1 g.2 hg a (List.mem_append_left _ ha)
  · unfold Operation.snapshot at ha
    split at ha
    next n s hs =>
      obtain ⟨fs, hg⟩ := hdescr n s hs
      exact hwithin fs s hg a (List.mem_append_right _ ha)
    next => cases ha

theorem operation_lenient (hr : r.Sound defined) :
    Ends Lenient operation r (Taken r defined) := by
  simp only [operation, ends_bind, ends_span]
  refine checkLexed_lenient ?_
  refine resultName?_lenient fun name r₁ h₁ => ?_
  refine opcode_lenient fun opcode r₂ h₂ => ?_
  refine expect_lenient ?_
  have h₃ := (h₁.trans h₂).next
  refine (items_all_lenient (A := ItemWithin defined) fun r' h => ?_).mono ?_
  · exact item_lenient (hr.onto (h₃.trans h))
  rintro items r₄ ⟨hitems, h₄⟩
  refine expect_lenient ?_
  have h₅ := (h₃.trans h₄).next
  have hargs : ∀ a ∈ items.filterMap Item.operand?, Within defined a := fun a ha => by
    obtain ⟨i, hi, hoperand⟩ := List.mem_filterMap.1 ha
    have := hitems i hi
    cases i <;> cases hoperand
    exact this
  have hdescr : ∀ s, (items.filterMap Item.descr?).getLast? = some s → Lexer.IsName s :=
    fun s hs => by
      obtain ⟨i, hi, hname⟩ := List.mem_filterMap.1 (List.mem_of_getLast? hs)
      have := hitems i hi
      cases i <;> cases hname
      exact this
  refine arity_lenient fun harity => tail_lenient (hr.onto h₅) opcode ?_
  intro guard r₆ hguard hwithin h₆
  have h₆ := h₅.trans h₆
  simp only [ends_bind]
  refine (descrOf_lenient (hr.onto h₆) hdescr hguard _).mono fun descr r₇ h₇ => ?_
  refine (resultOf_lenient h₇.sound _ opcode name).mono ?_
  rintro result r₈ ⟨hproduced, hunproduced, hsound, hnextGuard, hnextToken⟩
  rw [ends_pure]
  have hused := usedArgs_within opcode result hargs hwithin
    fun n s hs => (h₇.guard n s hs).2
  refine ⟨⟨⟨h₇.carries, Option.isSome_map.trans hguard, fun a ha => (hused a ha).literal⟩,
    fun b hb => (hused _ hb).box b rfl, fun _ _ => .inr fun _ _ => trivial, harity, hproduced,
    hunproduced⟩, hsound, fun n s hs => ?_, fun k hk => ?_, ?_, ?_⟩
  · exact (h₇.guard n s hs).1.trans h₆.nextGuard
  · rw [hnextToken]
    exact h₇.loop k hk
  · rw [hnextGuard, h₇.nextGuard, h₆.nextGuard]
    rfl
  · rw [hnextToken, ← h₆.nextToken]
    exact h₇.nextToken

/-! ### Whole texts -/

/-- What the operations are that were read without an error, and what is known behind them. -/
structure TakenAll (r : Reader) (defined : List Box) (ops : List Operation) (last : Reader) :
    Prop where
  legible : Legible Lenient defined ops
  sound : last.Sound (defined ++ results ops)
  numbers : guardNumbers ops = List.range' r.pool.nextGuard (guardNumbers ops).length
  nextGuard : last.pool.nextGuard = r.pool.nextGuard + (guardNumbers ops).length
  tokens : ∀ k ∈ loopTokens ops, k.number < last.pool.nextToken
  nextToken : r.pool.nextToken ≤ last.pool.nextToken

theorem TakenAll.nil (hr : r.Sound defined) : TakenAll r defined [] r :=
  ⟨trivial, by simpa using hr, rfl, rfl, nofun, le_rfl⟩

theorem TakenAll.cons {op : Operation} {r' last : Reader} {ops : List Operation}
    (h : TakenAll r' (defined ++ op.result.toList) ops last) (hop : Taken r defined op r') :
    TakenAll r defined (op :: ops) last := by
  -- A guard takes the next number, and nothing else takes one.
  have hnumbers : ∃ n, (op.guard?.map (·.1)).toList = List.range' r.pool.nextGuard n ∧
      r'.pool.nextGuard = r.pool.nextGuard + n := by
    have hnext := hop.nextGuard
    rw [← hop.legible.form.isSome_guard?] at hnext
    cases hg : op.guard? with
    | none =>
      rw [hg] at hnext
      exact ⟨0, rfl, hnext⟩
    | some g =>
      rw [hg] at hnext
      refine ⟨1, ?_, hnext⟩
      rw [← hop.number g.1 g.2 (Operation.guard?_eq_some.1 hg)]
      rfl
  obtain ⟨n, hown, hnext⟩ := hnumbers
  have hlength : (guardNumbers (op :: ops)).length = n + (guardNumbers ops).length := by
    rw [guardNumbers_cons, hown, List.length_append, List.length_range']
  refine ⟨⟨hop.legible, h.legible⟩, ?_, ?_, ?_, ?_, hop.nextToken.trans h.nextToken⟩
  · have := h.sound
    rwa [List.append_assoc, ← results_cons] at this
  · rw [hlength, guardNumbers_cons, hown, ← List.range'_append_1, ← hnext, ← h.numbers]
  · rw [h.nextGuard, hnext, hlength, Nat.add_assoc]
  · intro k hk
    obtain ⟨op', hop', htoken⟩ := List.mem_filterMap.1 hk
    rcases List.mem_cons.1 hop' with rfl | hop'
    · exact (hop.token k (Operation.token?_eq_some.1 htoken)).trans_le h.nextToken
    · exact h.tokens k (List.mem_filterMap.2 ⟨op', hop', htoken⟩)

theorem operations_taken {fuel : Nat} {ops : List Operation} {last : Reader}
    (hr : r.Sound defined) (h : r.operations fuel = (ops, [], last)) :
    TakenAll r defined ops last := by
  induction fuel generalizing r defined ops with
  | zero =>
    cases h
    exact .nil hr
  | succ fuel ih =>
    rw [Reader.operations] at h
    split at h
    · cases h
      exact .nil hr
    · have hop := operation_lenient hr
      unfold Ends at hop
      unfold Reader.round at h
      split at hop
      · rename_i op r' hrun
        rw [hrun] at h
        obtain ⟨rest, errors, last', hrest⟩ : ∃ rest errors last',
          r'.operations fuel = (rest, errors, last') := ⟨_, _, _, rfl⟩
        simp only [hrest] at h
        cases h
        exact (ih hop.sound hrest).cons hop
      · rename_i e r' hrun
        rw [hrun] at h
        cases h

theorem sound_start (source : String) : (Reader.start source).Sound [] := by
  have hstarts := starts_start source
  refine ⟨fun name hname => ?_, hstarts.nextBox, rfl, ?_, ?_, hstarts.self⟩
  · simp only [Reader.start, Pool.freshToken] at hname
    split at hname
    · rename_i here rest hsource
      have hmem : .name name ∈ (Lexer.tokens source).map (·.token) := hsource ▸ hname
      exact Lexer.isName_of_mem_tokensFrom hmem
    · simp [Reader.tokens] at hname
  · simp [hstarts.boxes]
  · simp [hstarts.loops]

theorem inputs_lenient (hr : r.Sound []) :
    Ends Lenient (items .rbracket (do defineBox (← expectName))) r fun inputs r' =>
      r'.Sound inputs ∧ r'.pool.nextGuard = r.pool.nextGuard := by
  refine items_lenient (P := fun inputs r' => r'.Sound inputs ∧
    r'.pool.nextGuard = r.pool.nextGuard) ?_ ?_ ⟨hr, rfl⟩
  · rintro inputs r₁ ⟨hr₁, hguard⟩
    simp only [ends_bind]
    refine expectName_lenient fun name _ => ?_
    have hnext := r₁.onto_next
    refine (defineBox_lenient (hr₁.onto hnext) name).mono fun b r₂ h₂ => ?_
    exact ⟨h₂.sound, (h₂.nextGuard.trans hnext.nextGuard).trans hguard⟩
  · rintro inputs r₁ r₂ ⟨hr₁, hguard⟩ h
    exact ⟨hr₁.onto h, h.nextGuard.trans hguard⟩

theorem header_lenient (hr : r.Sound []) :
    Ends Lenient header r fun read r' => Lexer.IsName read.1 ∧ r'.Sound read.2 ∧
      r'.pool.nextGuard = r.pool.nextGuard := by
  have hbehind (name : String) (hname : Lexer.IsName name) (r₁ : Reader) (h₁ : r.Onto r₁) :
      Ends Lenient (do
        modify fun r => { r with loops := r.loops.set name r.self }
        expect .lbracket
        let inputs ← items .rbracket (do defineBox (← expectName))
        expect .rbracket
        pure (name, inputs)) r₁ fun read r' => Lexer.IsName read.1 ∧ r'.Sound read.2 ∧
          r'.pool.nextGuard = r.pool.nextGuard := by
    simp only [ends_bind, ends_modify]
    have hr₁ := hr.onto h₁
    -- The name stands for the trace itself.
    have hnamed : Reader.Sound { r₁ with loops := r₁.loops.set name r₁.self } [] := by
      refine ⟨hr₁.names, hr₁.nextBox, hr₁.places, hr₁.boxes, fun a k hk => ?_, hr₁.self⟩
      rw [Bindings.get?_set] at hk
      split at hk
      · cases hk
        exact hr₁.self
      · exact hr₁.loops a k hk
    refine expect_lenient ?_
    have hnext := Reader.onto_next { r₁ with loops := r₁.loops.set name r₁.self }
    refine (inputs_lenient (hnamed.onto hnext)).mono ?_
    rintro inputs r₂ ⟨hr₂, hguard⟩
    refine expect_lenient ?_
    have hlast := r₂.onto_next
    exact ⟨hname, hr₂.onto hlast,
      hlast.nextGuard.trans (hguard.trans (hnext.nextGuard.trans h₁.nextGuard))⟩
  simp only [header]
  rw [ends_bind]
  refine accept_lenient fun taken r₁ h₁ => ?_
  split
  · rw [ends_bind]
    refine expectName_lenient fun name hname => ?_
    exact hbehind name (hr.names name (h₁.tokens hname)) _ h₁.next
  · exact hbehind "Loop0" (by decide) r₁ h₁

end Parse

/-- What a text that is accepted gives: a trace that can be written and read again, whose boxes,
guards and loops have the numbers that its pool gave out. -/
structure Trace.Accepted (t : Trace) : Prop where
  name : Lexer.IsName t.name
  inputs : t.inputs.Nodup
  legible : Legible Parse.Lenient t.inputs t.ops
  places : (t.inputs ++ results t.ops).map (·.id) = List.range t.pool.nextBox
  numbers : guardNumbers t.ops = List.range t.pool.nextGuard
  token : t.token.number < t.pool.nextToken
  tokens : ∀ k ∈ loopTokens t.ops, k.number < t.pool.nextToken

theorem Trace.accepted_of_parse {source : String} {t : Trace} (h : Trace.parse source = .ok t) :
    t.Accepted := by
  have hheader := Parse.header_lenient (Parse.sound_start source)
  rw [(Parse.starts_start source).nextGuard] at hheader
  unfold Trace.parse at h
  generalize Reader.start source = r at h hheader
  unfold Parse.Ends at hheader
  split at hheader
  case h_2 e r' hrun =>
    rw [hrun] at h
    cases h
  case h_1 read r' hrun =>
    obtain ⟨name, inputs⟩ := read
    obtain ⟨hname, hsound, hguard⟩ := hheader
    obtain ⟨ops, errors, last, hrest⟩ : ∃ ops errors last,
      r'.operations (r'.rest.length + 1) = (ops, errors, last) := ⟨_, _, _, rfl⟩
    simp only [hrun, hrest] at h
    rcases errors with _ | ⟨e, _ | ⟨e', errors⟩⟩
    · obtain rfl := Except.ok.inj h
      have hall := Parse.operations_taken hsound hrest
      refine ⟨hname, hsound.nodup, hall.legible, ?_, ?_, hall.sound.self, hall.tokens⟩
      · rw [hall.sound.places, hall.sound.nextBox]
      · rw [hall.numbers, hall.nextGuard, hguard, Nat.zero_add, List.range_eq_range']
    · cases h
    · cases h

end TracePeel
