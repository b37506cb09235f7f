import TracePeel.Proofs.Positions
import TracePeel.Proofs.Source.Deriving

/-! Operations and the statements they take.

An operation is read in three parts: what stands in front of the closing parenthesis (`head`), what
a guard has behind it (`possibleTail`), and what is made of both, for which no token is read. It is
read where a statement is allowed and nowhere else (`operation_sound`, `operation_complete`), and so
are operations one behind the other, up to the end. -/
namespace TracePeel

open Grammar

namespace Grammar

/-- What is in scope behind the descriptor of a statement. -/
def Scope.labelled (s : Scope) (st : Statement) : Scope :=
  { s with loops := (s.after st).loops, guards := (s.after st).guards }

/-- The scope with a box more. -/
def Scope.defining (s : Scope) (name : String) : Scope :=
  { s with names := s.names ++ [name] }

/-- What was named keeps its number, and a new name has the next. -/
theorem idxOf_append_new {names : List String} {name other : String}
    (hother : other ∈ names ++ [name]) : (names ++ [name]).idxOf other = names.idxOf other := by
  by_cases hmem : other ∈ names
  · exact List.idxOf_append_of_mem hmem
  · obtain rfl := List.mem_singleton.1 ((List.mem_append.1 hother).resolve_left hmem)
    rw [List.idxOf_append_of_notMem hmem, List.idxOf_eq_length hmem, List.idxOf_cons_self,
      Nat.add_zero]

namespace Phrase

/-- What stands in front of the closing parenthesis of a statement. -/
def head : Phrase (Option String × Opcode × List Entry) (Option String × Opcode × List Parse.Item) where
  spells x us := ∃ vs ws, us = vs ++ .name x.2.1.name :: .lparen :: (ws ++ [.rparen]) ∧
    Possible Assigned x.1 vs ∧ Separated Entry.Spells x.2.2 ws
  allowed s x := ∀ e ∈ x.2.2, entry.allowed s e
  value s x := (x.1, x.2.1, x.2.2.map (entry.value s))
  after s _ := s
  stop _ := True

/-- What stands behind it: nothing, but for guards. -/
def behind (o : Opcode) : Phrase (Option (List Term) × Option (List (List Term)))
    (Option (List Operand × Snapshot)) where
  spells := tail.spells
  allowed s x := (o.isGuard = false → x.1 = none ∧ x.2 = none) ∧ tail.allowed s x
  value s x := if o.isGuard then some (tail.value s x) else none
  after s x := if o.isGuard then tail.after s x else s
  stop := tail.stop

end Phrase
end Grammar

namespace Parse

variable {α β : Type} {r r' : Reader} {s : Scope} {ts us vs : List Token}

/-! ### In front of the closing parenthesis -/

theorem takes_resultName? {name : Option String} : Takes resultName? r name r' ↔
    (∃ given, name = some given ∧ r.Goes [.name given, .assign] r') ∨
      (name = none ∧ r' = r ∧
        ∀ given, r.here.token = .name given → r.next.here.token ≠ .assign) := by
  unfold resultName?
  rw [takes_token, takes_lookahead]
  split
  case h_1 given hname hassign =>
    rw [takes_advance, takes_advance, takes_pure]
    constructor
    · rintro ⟨rfl, rfl⟩
      exact .inl ⟨given, rfl, hname, hassign, rfl⟩
    · rintro (⟨given', rfl, hname', -, rfl⟩ | ⟨-, -, hnone⟩)
      · exact ⟨congrArg some (Token.name.inj (hname'.symm.trans hname)), rfl⟩
      · exact absurd hassign (hnone given hname)
  case h_2 hnone =>
    rw [takes_pure]
    constructor
    · rintro ⟨rfl, rfl⟩
      exact .inr ⟨rfl, rfl, fun given hname hassign => hnone given hname hassign⟩
    · rintro (⟨given, rfl, hname, hassign, -⟩ | ⟨rfl, rfl, -⟩)
      · exact absurd hassign (hnone given hname)
      · exact ⟨rfl, rfl⟩

theorem ofName?_eq_some {name : String} {o : Opcode} :
    Opcode.ofName? name = some o ↔ name = o.name := by
  constructor
  · intro h
    have hfound := List.find?_some (show Opcode.all.find? (·.name == name) = some o from h)
    exact (beq_iff_eq.1 hfound).symm
  · rintro rfl
    exact ofName?_name o

theorem takes_opcode {o : Opcode} :
    Takes Parse.opcode r o r' ↔ r.Goes [.name o.name] r' := by
  unfold Parse.opcode
  rw [takes_span, takes_name]
  constructor
  · rintro ⟨name, hname, h⟩
    split at h
    · rename_i o' ho
      obtain ⟨rfl, rfl⟩ := takes_pure.1 h
      exact ⟨ofName?_eq_some.1 ho ▸ hname, rfl⟩
    · exact absurd h takes_failAt
  · rintro ⟨hname, rfl⟩
    refine ⟨o.name, hname, ?_⟩
    rw [ofName?_name]
    exact takes_pure.2 ⟨rfl, rfl⟩

/-- The name of the result, the operation and what stands between its parentheses. -/
def head : Parse (Option String × Opcode × List Item) := do
  let name ← resultName?
  let opcode ← opcode
  expect .lparen
  let items ← items .rparen item
  expect .rparen
  return (name, opcode, items)

theorem head_derives (s : Scope) : Derives head Phrase.head s := by
  have hitems : Derives (items .rparen item) (Phrase.entry.inside .rparen) s :=
    items_derives_of_still item_derives (fun _ _ => rfl) (fun _ _ => opens_of_entry)
      ⟨trivial, trivial⟩ nofun
  constructor
  · intro r r' ts x hr h
    unfold head at h
    rw [takes_bind] at h
    obtain ⟨name, r₁, hname, h⟩ := h
    rw [takes_bind] at h
    obtain ⟨opcode, r₂, hopcode, h⟩ := h
    rw [takes_expect .lparen nofun, takes_bind] at h
    obtain ⟨hopen, items, r₃, hlist, h⟩ := h
    rw [takes_expect .rparen nofun, takes_pure] at h
    obtain ⟨hclose, rfl, rfl⟩ := h
    obtain ⟨us, hus, ts, rfl, h₁⟩ : ∃ us, Possible Assigned name us ∧
        ∃ vs, ts = us ++ vs ∧ r₁.Stands s vs := by
      rcases takes_resultName?.1 hname with ⟨given, rfl, hgoes⟩ | ⟨rfl, rfl, -⟩
      · exact ⟨_, .some (.mk given), hr.behind (by simp) hgoes⟩
      · exact ⟨[], .none, ts, rfl, hr⟩
    obtain ⟨ts, rfl, h₂⟩ := h₁.behind (by simp) (takes_opcode.1 hopcode)
    obtain ⟨ts, rfl, h₃⟩ := h₂.past hopen nofun
    obtain ⟨entries, ws, ts, rfl, hentries, hallowed, rfl, h₄⟩ := hitems.sound h₃ hlist
    obtain ⟨ts, rfl, h₅⟩ := h₄.past hclose nofun
    exact ⟨(name, opcode, entries), _, ts, by simp, ⟨us, ws, rfl, hus, hentries⟩, hallowed, rfl, h₅⟩
  · rintro r ⟨name, opcode, entries⟩ _ vs v hr ⟨us, ws, rfl, hus, hentries⟩ hallowed -
    simp only [List.append_assoc, List.cons_append, List.nil_append] at hr
    obtain ⟨r₁, hgoes, h₁⟩ := hr.exists_goes
    have h₂ := h₁.next (List.cons_ne_nil _ _)
    have h₃ := h₂.next (by simp)
    obtain ⟨r₂, hlist, h₄⟩ := hitems.complete h₃ hentries hallowed rfl
    have hname : Takes resultName? r name r₁ := by
      cases hus with
      | none =>
        obtain rfl := hgoes
        refine takes_resultName?.2 (.inr ⟨rfl, rfl, fun _ _ => ?_⟩)
        rw [h₂.here]
        nofun
      | some h =>
        obtain ⟨-⟩ := h
        exact takes_resultName?.2 (.inl ⟨_, rfl, hgoes⟩)
    refine ⟨r₂.next, ?_, h₄.next (List.cons_ne_nil _ _)⟩
    unfold head
    rw [takes_bind]
    refine ⟨name, r₁, hname, ?_⟩
    rw [takes_bind]
    refine ⟨opcode, r₁.next, takes_opcode.2 ⟨h₁.here, rfl⟩, ?_⟩
    rw [takes_expect .lparen nofun, takes_bind]
    refine ⟨h₂.here, _, r₂, hlist, ?_⟩
    rw [takes_expect .rparen nofun, takes_pure]
    exact ⟨h₄.here, rfl, rfl⟩

/-! ### Behind it -/

/-- What a guard has behind the closing parenthesis. -/
def possibleTail (opcode : Opcode) : Parse (Option (List Operand × Snapshot)) := do
  if opcode.isGuard then return some (← guardTail) else return none

theorem possibleTail_derives (opcode : Opcode) (s : Scope) :
    Derives (possibleTail opcode) (Phrase.behind opcode) s := by
  cases hguard : opcode.isGuard with
  | true =>
    constructor
    · intro r r' ts guard hr h
      simp only [possibleTail, hguard, if_true, takes_bind, takes_pure] at h
      obtain ⟨_, _, h, rfl, rfl⟩ := h
      obtain ⟨x, us, vs, rfl, hx, hallowed, rfl, hr'⟩ := (guardTail_derives s).sound hr h
      refine ⟨x, us, vs, rfl, hx, ⟨by simp [hguard], hallowed⟩, ?_, ?_⟩
      · simp only [Phrase.behind, hguard, if_true]
      · simpa only [Phrase.behind, hguard, if_true] using hr'
    · rintro r x us vs v hr hx ⟨-, hallowed⟩ hv
      obtain ⟨r', h, hr'⟩ := (guardTail_derives s).complete hr hx hallowed hv
      refine ⟨r', ?_, ?_⟩
      · simp only [possibleTail, Phrase.behind, hguard, if_true, takes_bind, takes_pure]
        exact ⟨_, r', h, rfl, rfl⟩
      · simpa only [Phrase.behind, hguard, if_true] using hr'
  | false =>
    constructor
    · intro r r' ts guard hr h
      simp only [possibleTail, hguard, Bool.false_eq_true, if_false, takes_pure] at h
      obtain ⟨rfl, rfl⟩ := h
      refine ⟨(none, none), [], ts, rfl, ⟨[], [], rfl, .none, .none⟩, ⟨fun _ => ⟨rfl, rfl⟩, ?_⟩,
        ?_, ?_⟩
      · exact ⟨nofun, List.forall_mem_singleton.2 nofun⟩
      · simp only [Phrase.behind, hguard, Bool.false_eq_true, if_false]
      · simpa only [Phrase.behind, hguard, Bool.false_eq_true, if_false] using hr
    · rintro r ⟨failArgs, frames⟩ _ vs v hr ⟨us, us', rfl, hus, hus'⟩ ⟨hnone, -⟩ -
      obtain ⟨rfl, rfl⟩ := hnone hguard
      obtain ⟨-⟩ := hus
      obtain ⟨-⟩ := hus'
      rw [List.nil_append, List.nil_append] at hr
      refine ⟨r, ?_, ?_⟩
      · simp only [possibleTail, Phrase.behind, hguard, Bool.false_eq_true, if_false, takes_pure,
          and_self]
      · simpa only [Phrase.behind, hguard, Bool.false_eq_true, if_false] using hr

/-! ### Descriptors and results -/

theorem stands_newLoop (hr : r.Stands s ts) {name : String} (hnew : name ∉ s.loops) :
    { r with pool := r.pool.freshToken.2, loops := r.loops.set name (s.token name) : Reader }.Stands
      { s with loops := s.loops ++ [name] } ts := by
  refine ⟨hr.tokens, hr.ended, ?_, hr.boxes, fun other => ?_, hr.self, hr.kinds⟩
  · show r.pool.freshToken.2 = _
    rw [hr.pool]
    simp [Pool.freshToken, Scope.pool]
  · show (r.loops.set name (s.token name)).get? other = _
    rw [Bindings.get?_set, hr.loops, Scope.token, Scope.token, Scope.token]
    split_ifs <;> simp_all [idxOf_append_new]

theorem loopNamed_sound (hr : r.Stands s ts) {name : String} {k : LoopToken}
    (h : Takes (loopNamed (some name)) r k r') : k = s.token name ∧
      r'.Stands { s with
        loops := if name ∈ s.loops then s.loops else s.loops ++ [name] } ts := by
  rw [loopNamed, takes_get, hr.loops] at h
  split_ifs at h with hmem
  · obtain ⟨rfl, rfl⟩ := takes_pure.1 h
    rw [if_pos hmem]
    exact ⟨rfl, hr⟩
  · simp only [takes_get, takes_modify, takes_pure] at h
    obtain ⟨rfl, rfl⟩ := h
    have hnext : r.pool.freshToken.1 = s.token name := by
      rw [hr.pool]
      simp [Pool.freshToken, Scope.pool, Scope.token, List.idxOf_eq_length hmem]
    rw [if_neg hmem, hnext]
    exact ⟨rfl, stands_newLoop hr hmem⟩

theorem isAccess_eq_false_of_isGuard {o : Opcode} (h : o.isGuard = true) : o.isAccess = false := by
  cases o <;> first | rfl | cases h

/-- What a descriptor is made of: a guard has its snapshot. -/
structure Supplied (s : Scope) (st : Statement) (guard : Option (List Operand × Snapshot)) : Prop where
  isSome : guard.isSome = st.opcode.isGuard
  snapshot : ∀ failArgs snapshot, guard = some (failArgs, snapshot) → snapshot = st.snapshot s

/-- A guard is numbered, and its snapshot is the one that was read behind it. -/
theorem descrOf_guard_sound {st : Statement} {n : Nat} {failArgs : List Operand} {start : Span}
    {descr : Option Descr} (hr : r.Stands { s with frames := n } ts)
    (hopcode : st.opcode.isGuard = true)
    (h : Takes (descrOf start st.opcode st.descr? (some (failArgs, st.snapshot s))) r descr r') :
    descr = st.descr s ∧ r'.Stands { s.labelled st with frames := n } ts := by
  simp only [descrOf, takes_get, takes_modify, takes_pure] at h
  obtain ⟨rfl, rfl⟩ := h
  have hjump : st.opcode ≠ .jump := by
    rintro hjump
    rw [hjump] at hopcode
    cases hopcode
  have hloops : (s.after st).loops = s.loops := by simp [Scope.after, hjump]
  have hguards : (s.after st).guards = s.guards + 1 := by simp [Scope.after, hopcode]
  refine ⟨?_, hr.tokens, hr.ended, ?_, hr.boxes, ?_, hr.self, hr.kinds⟩
  · simp only [Statement.descr, hopcode, if_true, Pool.freshGuard, hr.pool, Scope.pool]
  · simp [Scope.labelled, Scope.pool, Pool.freshGuard, hr.pool, hloops, hguards]
  · simpa [Scope.labelled, Scope.token, hloops] using hr.loops

/-- Where an operation is no guard and names no loop for the first time, nothing is numbered. -/
theorem stands_unlabelled {st : Statement} {n : Nat}
    (hr : r.Stands { s with frames := n } ts) (hopcode : st.opcode.isGuard = false)
    (hloops : (s.after st).loops = s.loops) : r.Stands { s.labelled st with frames := n } ts := by
  have hguards : (s.after st).guards = s.guards := by simp [Scope.after, hopcode]
  rw [Scope.labelled, hloops, hguards]
  exact hr

theorem descrOf_sound {st : Statement} {n : Nat} {guard : Option (List Operand × Snapshot)}
    {start : Span} {descr : Option Descr} (hr : r.Stands { s with frames := n } ts)
    (hguard : Supplied s st guard)
    (h : Takes (descrOf start st.opcode st.descr? guard) r descr r') :
    (st.opcode.isAccess = true → st.descr?.isSome = true) ∧ descr = st.descr s ∧
      r'.Stands { s.labelled st with frames := n } ts := by
  cases guard with
  | some g =>
    obtain ⟨failArgs, snapshot⟩ := g
    have hopcode : st.opcode.isGuard = true := hguard.isSome.symm
    obtain rfl := hguard.snapshot failArgs snapshot rfl
    refine ⟨fun haccess => ?_, descrOf_guard_sound hr hopcode h⟩
    rw [isAccess_eq_false_of_isGuard hopcode] at haccess
    cases haccess
  | none =>
    have hopcode : st.opcode.isGuard = false := hguard.isSome.symm
    have hplain := stands_unlabelled hr hopcode
    simp only [descrOf] at h
    split at h
    case h_1 hjump =>
      rw [takes_bind] at h
      obtain ⟨k, r₁, hk, h⟩ := h
      obtain ⟨rfl, rfl⟩ := takes_pure.1 h
      cases hname : st.descr? with
      | none =>
        rw [hname] at hk
        obtain ⟨rfl, rfl⟩ := takes_pure.1 hk
        refine ⟨by simp [hjump, Opcode.isAccess], ?_, hplain ?_⟩
        · simp [Statement.descr, hjump, hname, hr.self, Opcode.isGuard]
        · simp [Scope.after, hname]
      | some name =>
        rw [hname] at hk
        obtain ⟨rfl, hr'⟩ := loopNamed_sound hr hk
        refine ⟨by simp [hjump, Opcode.isAccess], ?_, ?_⟩
        · simp [Statement.descr, hjump, hname, Opcode.isGuard, Scope.token]
        · simpa [Scope.labelled, Scope.after, hjump, hname, Opcode.isGuard] using hr'
    case h_5 hnew =>
      obtain ⟨rfl, rfl⟩ := takes_pure.1 h
      refine ⟨by simp [hnew, Opcode.isAccess], ?_, hplain (by simp [Scope.after, hnew])⟩
      cases hname : st.descr? <;>
        simp [Statement.descr, hnew, hname, Opcode.isGuard, Opcode.isAccess]
    case h_6 hjump hset hget hpure hnew =>
      obtain ⟨rfl, rfl⟩ := takes_pure.1 h
      have hjump : st.opcode ≠ .jump := hjump
      have hnew : st.opcode ≠ .new := hnew
      have haccess : st.opcode.isAccess = false := by
        simp only [Opcode.isAccess, Bool.or_eq_false_iff, beq_eq_false_iff_ne]
        exact ⟨⟨hset, hget⟩, hpure⟩
      refine ⟨by simp [haccess], ?_, hplain (by simp [Scope.after, hjump])⟩
      cases hname : st.descr? with
      | none => simp [Statement.descr, hopcode, hname]
      | some name => simp [Statement.descr, hopcode, hname, haccess]
    all_goals
      rename_i hfield
      cases hname : st.descr? with
      | none =>
        rw [hname] at h
        exact absurd h takes_failAt
      | some field =>
        rw [hname] at h
        obtain ⟨rfl, rfl⟩ := takes_pure.1 h
        refine ⟨fun _ => rfl, ?_, hplain (by simp [Scope.after, hfield])⟩
        simp [Statement.descr, hfield, hname, Opcode.isGuard, Opcode.isAccess]

theorem descrOf_complete {st : Statement} {guard : Option (List Operand × Snapshot)} (start : Span)
    (hguard : guard.isSome = st.opcode.isGuard)
    (hfield : st.opcode.isAccess = true → st.descr?.isSome = true) (r : Reader) :
    ∃ descr r', Takes (descrOf start st.opcode st.descr? guard) r descr r' := by
  cases guard with
  | some g => exact ⟨_, _, rfl⟩
  | none =>
    simp only [descrOf]
    split
    case h_1 =>
      cases st.descr? with
      | none => exact ⟨_, _, rfl⟩
      | some name =>
        obtain ⟨k, r', hk⟩ : ∃ k r', Takes (loopNamed (some name)) r k r' := by
          simp only [loopNamed, takes_get]
          cases r.loops.get? name <;> exact ⟨_, _, rfl⟩
        exact ⟨_, r', takes_bind.2 ⟨k, r', hk, takes_pure.2 ⟨rfl, rfl⟩⟩⟩
    case h_5 | h_6 => exact ⟨_, _, rfl⟩
    all_goals
      rename_i hcode
      rw [hcode] at hfield
      cases hname : st.descr? with
      | none =>
        rw [hname] at hfield
        cases hfield rfl
      | some field => exact ⟨_, _, rfl⟩

theorem stands_defining (hr : r.Stands s ts) {name : String} (hkind : (boxKind? name).isSome = true)
    (hnew : name ∉ s.names) :
    { r with
      pool := { r.pool with nextBox := r.pool.nextBox + 1 }
      boxes := r.boxes.set name (s.box name) : Reader }.Stands (s.defining name) ts := by
  refine ⟨hr.tokens, hr.ended, ?_, fun other => ?_, hr.loops, hr.self, fun other hother => ?_⟩
  · simp [hr.pool, Scope.pool, Scope.defining]
  · show (r.boxes.set name (s.box name)).get? other = _
    rw [Bindings.get?_set, hr.boxes, Scope.box, Scope.box, Scope.box]
    split_ifs <;> simp_all [idxOf_append_new, Scope.defining]
  · rcases List.mem_append.1 hother with hother | hother
    · exact hr.kinds other hother
    · rwa [List.mem_singleton.1 hother]

theorem takes_defineBox (hr : r.Stands s ts) {name : String} {b : Box} :
    Takes (defineBox name) r b r' ↔ (boxKind? name).isSome = true ∧ name ∉ s.names ∧
      b = s.box name ∧ r' = { r with
        pool := { r.pool with nextBox := r.pool.nextBox + 1 }, boxes := r.boxes.set name b } := by
  unfold defineBox
  rw [takes_span]
  split
  case h_1 hnone =>
    have hkind : boxKind? name = none := hnone
    simp [hkind, takes_failAt]
  case h_2 kind hkind =>
    have hkind : boxKind? name = some kind := hkind
    rw [takes_get]
    by_cases hmem : name ∈ s.names
    · simp only [Bindings.contains, hr.boxes, Option.isSome_some, if_true, hkind,
        hmem, not_true, false_and, and_false, iff_false]
      exact takes_failAt
    · have hbox : (r.pool.freshBox kind).1 = s.box name := by
        rw [hr.pool]
        simp [Pool.freshBox, Scope.pool, Scope.box, List.idxOf_eq_length hmem, hkind]
      simp only [Bindings.contains, hr.boxes, Option.isSome_none, Bool.false_eq_true, if_false, takes_get, takes_modify, takes_pure, hbox, hkind, Option.isSome_some, hmem,
        not_false_iff, true_and]
      exact and_congr_right fun hb => by rw [hb]; rfl

/-- The statement may have this name in front of it, or none. -/
structure Yields (s : Scope) (o : Opcode) (name : Option String) : Prop where
  produced : ∀ given, name = some given → o.hasResult = true ∧ given ∉ s.names ∧
    ∃ kind, boxKind? given = some kind ∧ ∀ k, o.resultKind? = some k → k = kind
  unproduced : name = none → o.hasResult = false ∨ o = .call ∨ o = .callPure

theorem kindOf_box {name : String} {kind : Kind} (h : boxKind? name = some kind) :
    (s.box name).kind = kind := by
  simp [Scope.box, h]

theorem takes_kind {o : Opcode} {given : String} {b₀ : Box} {b : Option Box} {start : Span} :
    Takes (match o.resultKind? with
      | some kind => if kind ≠ b₀.kind then do
          failAt start (.wrongKind o kind given b₀.kind)
          pure (some b₀)
        else pure (some b₀)
      | none => pure (some b₀)) r b r' ↔
      (∀ k, o.resultKind? = some k → k = b₀.kind) ∧ b = some b₀ ∧ r' = r := by
  split <;> rename_i hkind
  · simp only [takes_check, takes_pure, not_not, hkind, Option.some.injEq, forall_eq']
  · simp only [takes_pure, hkind, reduceCtorEq, false_implies, implies_true, true_and]

theorem takes_resultOf (hr : r.Stands s ts) {start : Span} {o : Opcode} {name : Option String}
    {b : Option Box} : Takes (resultOf start o name) r b r' ↔
      Yields s o name ∧ b = name.map s.box ∧ r' = name.elim r fun given =>
        { r with
          pool := { r.pool with nextBox := r.pool.nextBox + 1 }
          boxes := r.boxes.set given (s.box given) } := by
  cases name with
  | none =>
    simp only [resultOf, takes_check, takes_pure, Bool.not_eq_true,
      Verify.needsResult_eq_false_iff]
    exact and_congr_left fun _ => ⟨fun h => ⟨by rintro _ ⟨⟩, fun _ => h⟩, fun h => h.unproduced rfl⟩
  | some given =>
    simp only [resultOf, takes_check, takes_bind, takes_defineBox hr, Bool.not_eq_true',
      Bool.not_eq_false]
    constructor
    · rintro ⟨hhas, _, _, ⟨hsome, hnew, rfl, rfl⟩, h⟩
      obtain ⟨hkind, rfl, rfl⟩ := takes_kind.1 h
      obtain ⟨kind, hgiven⟩ := Option.isSome_iff_exists.1 hsome
      rw [kindOf_box hgiven] at hkind
      refine ⟨⟨?_, by rintro ⟨⟩⟩, rfl, rfl⟩
      rintro _ ⟨⟩
      exact ⟨hhas, hnew, kind, hgiven, hkind⟩
    · rintro ⟨hyields, rfl, rfl⟩
      obtain ⟨hhas, hnew, kind, hgiven, hkind⟩ := hyields.produced given rfl
      rw [← kindOf_box (s := s) hgiven] at hkind
      exact ⟨hhas, _, _, ⟨Option.isSome_iff_exists.2 ⟨kind, hgiven⟩, hnew, rfl, rfl⟩,
        takes_kind.2 ⟨hkind, rfl, rfl⟩⟩

theorem stands_yielding (hr : r.Stands s ts) {o : Opcode} {name : Option String}
    (hname : Yields s o name) :
    (name.elim r fun given => { r with
      pool := { r.pool with nextBox := r.pool.nextBox + 1 }
      boxes := r.boxes.set given (s.box given) }).Stands
        { s with names := s.names ++ name.toList } ts := by
  cases name with
  | none => simpa using hr
  | some given =>
    obtain ⟨-, hnew, kind, hgiven, -⟩ := hname.produced given rfl
    exact stands_defining hr (Option.isSome_iff_exists.2 ⟨kind, hgiven⟩) hnew

/-! ### Operations -/

theorem takes_head {f : Option String → Opcode → List Item → Parse β} {b : β} : Takes (do
      let name ← resultName?
      let opcode ← opcode
      expect .lparen
      let items ← items .rparen item
      expect .rparen
      f name opcode items) r b r' ↔
    ∃ x r₁, Takes head r x r₁ ∧ Takes (f x.1 x.2.1 x.2.2) r₁ b r' := by
  rw [← takes_bind (p := head) (f := fun x => f x.1 x.2.1 x.2.2)]
  simp only [head, bind_assoc, pure_bind]

theorem takes_arity {opcode : Opcode} {n : Nat} {start : Span} {p : Parse β} {b : β} :
    Takes (match opcode.arity? with
      | some expected => if n ≠ expected then do
          failAt start (.badArity opcode expected n)
          p
        else p
      | none => p) r b r' ↔ (∀ m, opcode.arity? = some m → n = m) ∧ Takes p r b r' := by
  split <;> rename_i harity
  · simp only [takes_check, not_not, harity, Option.some.injEq, forall_eq']
  · simp only [harity, reduceCtorEq, false_implies, implies_true, true_and]

theorem takes_tail {opcode : Opcode} {f : Option (List Operand × Snapshot) → Parse β} {b : β} :
    Takes (if opcode.isGuard then do
        let guard ← pure (some (← guardTail))
        f guard
      else do
        let guard ← pure none
        f guard) r b r' ↔
      ∃ guard r₁, Takes (possibleTail opcode) r guard r₁ ∧ Takes (f guard) r₁ b r' := by
  rw [← takes_bind, possibleTail]
  split <;> simp only [bind_assoc, pure_bind]

theorem takes_operation {op : Operation} : Takes operation r op r' ↔
    IsLexed r.here.token ∧ ∃ x r₁, Takes head r x r₁ ∧
      (∀ n, x.2.1.arity? = some n → (x.2.2.filterMap Item.operand?).length = n) ∧
      ∃ guard r₂, Takes (possibleTail x.2.1) r₁ guard r₂ ∧
      ∃ descr r₃, Takes (descrOf r.here.span x.2.1 (x.2.2.filterMap Item.descr?).getLast? guard)
        r₂ descr r₃ ∧
      ∃ result r₄, Takes (resultOf r.here.span x.2.1 x.1) r₃ result r₄ ∧
        op = { opcode := x.2.1, args := x.2.2.filterMap Item.operand?, result, descr,
               failArgs := guard.map (·.1) } ∧ r' = r₄ := by
  unfold operation
  rw [takes_checkLexed, takes_span, takes_head]
  refine and_congr_right fun _ => exists_congr fun x => exists_congr fun r₁ =>
    and_congr_right fun _ => takes_arity.trans (and_congr_right fun _ => takes_tail.trans ?_)
  simp only [takes_bind, takes_pure]

theorem operands_of_entries (s : Scope) (entries : List Entry) :
    (entries.map (Phrase.entry.value s)).filterMap Item.operand? =
      (entries.filterMap Entry.term?).map s.operand := by
  induction entries with
  | nil => rfl
  | cons e entries ih =>
    cases e with
    | term t => exact congrArg (s.operand t :: ·) ih
    | descr name => exact ih

theorem descrs_of_entries (s : Scope) (entries : List Entry) :
    (entries.map (Phrase.entry.value s)).filterMap Item.descr? =
      entries.filterMap Entry.descr? := by
  induction entries with
  | nil => rfl
  | cons e entries ih =>
    cases e with
    | term t => exact ih
    | descr name => exact congrArg (name :: ·) ih

theorem entries_allowed_iff {entries : List Entry} :
    (∀ e ∈ entries, Phrase.entry.allowed s e) ↔
      ∀ t ∈ entries.filterMap Entry.term?, t.Allowed s := by
  constructor
  · intro h t ht
    obtain ⟨e, he, hterm⟩ := List.mem_filterMap.1 ht
    have := h e he
    cases e <;> cases hterm
    exact this
  · intro h e he
    cases e with
    | term t => exact h t (List.mem_filterMap.2 ⟨.term t, he, rfl⟩)
    | descr name => trivial

/-- What stands behind the parentheses of a statement only counts frames. -/
theorem behind_after (s : Scope) (st : Statement) :
    (Phrase.behind st.opcode).after s (st.failArgs, st.frames) =
      { s with frames := (s.after st).frames } := by
  simp only [Phrase.behind, Scope.after]
  split <;> rfl

theorem supplied_behind (s : Scope) (st : Statement) :
    Supplied s st ((Phrase.behind st.opcode).value s (st.failArgs, st.frames)) := by
  simp only [Phrase.behind]
  split
  · rename_i hguard
    refine ⟨hguard.symm, ?_⟩
    rintro _ _ ⟨⟩
    rfl
  · rename_i hguard
    exact ⟨(Bool.eq_false_iff.2 hguard).symm, nofun⟩

theorem failArgs_behind (s : Scope) (st : Statement) :
    ((Phrase.behind st.opcode).value s (st.failArgs, st.frames)).map (·.1) =
      (st.operation s).failArgs := by
  simp only [Phrase.behind, Statement.operation]
  split <;> rfl

theorem operation_sound {op : Operation} (hr : r.Stands s ts) (h : Takes operation r op r') :
    ∃ st us vs, ts = us ++ vs ∧ Statement.Spells st us ∧ st.Allowed s ∧ op = st.operation s ∧
      r'.Stands (s.after st) vs := by
  obtain ⟨-, ⟨name, opcode, items⟩, r₁, hhead, harity, guard, r₂, htail, descr, r₃, hdescr, result,
    r₄, hresult, rfl, rfl⟩ := takes_operation.1 h
  obtain ⟨⟨name', opcode', entries⟩, _, ts, rfl, ⟨us, ws, rfl, hus, hws⟩, hentries, hvalue, h₁⟩ :=
    (head_derives s).sound hr hhead
  obtain ⟨rfl, rfl, rfl⟩ : name = name' ∧ opcode = opcode' ∧
      items = entries.map (Phrase.entry.value s) := by simpa [Phrase.head] using hvalue
  obtain ⟨⟨failArgs, frames⟩, _, ts, rfl, ⟨us', ws', rfl, hus', hws'⟩, ⟨hnone, hallowed⟩, rfl, h₂⟩ :=
    (possibleTail_derives opcode s).sound h₁ htail
  let st : Statement := ⟨name, opcode, entries, failArgs, frames⟩
  replace h₂ : r₂.Stands { s with frames := (s.after st).frames } ts := behind_after s st ▸ h₂
  simp only [operands_of_entries, List.length_map] at harity
  simp only [descrs_of_entries] at hdescr
  obtain ⟨hfield, rfl, h₃⟩ := descrOf_sound h₂ (supplied_behind s st) hdescr
  obtain ⟨hyields, rfl, rfl⟩ := (takes_resultOf h₃).1 hresult
  refine ⟨st, _, ts, ?_, .mk hus hws hus' hws', ?_, ?_, stands_yielding h₃ hyields⟩
  · simp [st]
  · exact ⟨entries_allowed_iff.1 hentries, harity, hnone, hallowed.1, hallowed.2, hfield,
      hyields.produced, hyields.unproduced⟩
  · simp only [operands_of_entries]
    rw [failArgs_behind s st]
    rfl

theorem starts_with_name {st : Statement} {us : List Token} (h : st.Spells us) :
    ∃ name rest, us = .name name :: rest := by
  obtain ⟨hresult, -, -, -⟩ := h
  generalize st.result = name at hresult
  cases hresult with
  | none => exact ⟨_, _, rfl⟩
  | some h =>
    obtain ⟨-⟩ := h
    exact ⟨_, _, rfl⟩

theorem operation_complete {st : Statement} {us vs : List Token} {v : Token}
    (hr : r.Stands s (us ++ v :: vs)) (hspells : st.Spells us) (hallowed : st.Allowed s)
    (hv : v ≠ .lbracket ∧ v ≠ .atSign) :
    ∃ r', Takes operation r (st.operation s) r' ∧ r'.Stands (s.after st) (v :: vs) := by
  obtain ⟨hresult, hentries, hfailArgs, hframes⟩ := hspells
  rename_i result entries failArgs frames
  -- Behind the parenthesis there is something: what a guard has or what follows the statement.
  obtain ⟨w, ws, hw⟩ := List.exists_cons_of_ne_nil (show failArgs ++ frames ++ v :: vs ≠ [] by simp)
  have htokens : (result ++ .name st.opcode.name :: .lparen ::
      (entries ++ .rparen :: (failArgs ++ frames))) ++ v :: vs =
      (result ++ .name st.opcode.name :: .lparen :: (entries ++ [.rparen])) ++ w :: ws := by
    rw [← hw]
    simp
  have hlexed : IsLexed r.here.token := by
    obtain ⟨name, rest, hus⟩ := starts_with_name (.mk hresult hentries hfailArgs hframes)
    rw [hus] at hr
    rw [hr.here]
    nofun
  rw [htokens] at hr
  obtain ⟨r₁, hhead, h₁⟩ := (head_derives s).complete (x := (st.result, st.opcode, st.entries)) hr
    ⟨_, _, rfl, hresult, hentries⟩ (entries_allowed_iff.2 hallowed.terms) trivial
  rw [← hw] at h₁
  obtain ⟨r₂, htail, h₂⟩ := (possibleTail_derives st.opcode s).complete
    (x := (st.failArgs, st.frames)) h₁ ⟨_, _, rfl, hfailArgs, hframes⟩
    ⟨hallowed.tail, hallowed.failArgs, hallowed.frames⟩ hv
  rw [behind_after] at h₂
  have hsupplied := supplied_behind s st
  obtain ⟨descr, r₃, hdescr⟩ :=
    descrOf_complete r.here.span hsupplied.isSome hallowed.field r₂
  obtain ⟨-, rfl, h₃⟩ := descrOf_sound h₂ hsupplied hdescr
  have hyields : Yields { s.labelled st with frames := (s.after st).frames } st.opcode st.result :=
    ⟨hallowed.produced, hallowed.unproduced⟩
  refine ⟨_, takes_operation.2 ⟨hlexed, _, r₁, hhead, ?_, _, r₂, htail, st.descr s, r₃, ?_, _, _,
    (takes_resultOf h₃).2 ⟨hyields, rfl, rfl⟩, ?_, rfl⟩, stands_yielding h₃ hyields⟩
  · simp only [Phrase.head, operands_of_entries, List.length_map]
    exact hallowed.arity
  · simp only [Phrase.head, descrs_of_entries]
    exact hdescr
  · simp only [Phrase.head, operands_of_entries]
    rw [failArgs_behind s st]
    rfl

end Parse

/-! ### Operations one behind the other -/

namespace Reader

variable {r last : Reader} {s : Scope} {ts us : List Token} {ops : List Operation}

theorem Stands.eof (h : r.Stands s ts) (hhere : r.here.token = .eof) : ts = [.eof] := by
  obtain ⟨us, hus, hnone⟩ := h.ended
  rw [h.tokens] at hus
  cases us with
  | nil => exact hus
  | cons t us =>
    rw [hus] at h
    exact absurd (h.here.symm.trans hhere ▸ List.mem_cons_self ..) hnone

theorem round_eq_ok {r' : Reader} {op : Operation} :
    r.round = (.ok op, r') ↔ Parse.Takes Parse.operation r op r' := by
  unfold Reader.round Parse.Takes
  rcases Parse.operation.run.run r with ⟨_ | _, _⟩
  · exact ⟨nofun, nofun⟩
  · exact Iff.rfl

theorem operations_sound {fuel : Nat} (hr : r.Stands s ts) (hfuel : ts.length ≤ fuel)
    (h : r.operations fuel = (ops, [], last)) :
    ∃ sts us, ts = us ++ [.eof] ∧ Successive Statement.Spells sts us ∧ AllAllowed s sts ∧
      ops = Grammar.operations s sts ∧ last.Stands (sts.foldl Scope.after s) [.eof] := by
  induction fuel generalizing r s ts ops with
  | zero =>
    obtain rfl := List.length_eq_zero_iff.1 (Nat.le_zero.1 hfuel)
    cases hr.tokens
  | succ fuel ih =>
    unfold Reader.operations at h
    split at h
    case isTrue hhere =>
      obtain ⟨rfl, -, rfl⟩ : ops = [] ∧ True ∧ last = r := by simpa [eq_comm] using h
      obtain rfl := hr.eof hhere
      exact ⟨[], [], rfl, .nil, trivial, rfl, hr⟩
    case isFalse =>
      rcases hround : r.round with ⟨e | op, r₁⟩ <;>
        rcases hrest : r₁.operations fuel with ⟨ops', errors, last'⟩ <;>
        simp only [hround, hrest, Prod.mk.injEq, reduceCtorEq, false_and, and_false] at h
      obtain ⟨rfl, rfl, rfl⟩ := h
      obtain ⟨st, us, vs, rfl, hspells, hallowed, rfl, h₁⟩ :=
        Parse.operation_sound hr (round_eq_ok.1 hround)
      obtain ⟨name, us, rfl⟩ := Parse.starts_with_name hspells
      simp only [List.cons_append, List.length_cons, List.length_append] at hfuel
      obtain ⟨sts, ws, rfl, hsts, hall, rfl, hlast⟩ := ih h₁ (by omega) hrest
      exact ⟨st :: sts, _, by simp, .cons hspells hsts, ⟨hallowed, hall⟩, rfl, hlast⟩

theorem operations_complete {fuel : Nat} {sts : List Statement} (hr : r.Stands s (us ++ [.eof]))
    (hspells : Successive Statement.Spells sts us) (hallowed : AllAllowed s sts)
    (hfuel : us.length < fuel) :
    ∃ last, r.operations fuel = (Grammar.operations s sts, [], last) ∧
      Reader.Stands last (sts.foldl Scope.after s) [.eof] := by
  induction hspells generalizing r s fuel with
  | nil =>
    obtain ⟨fuel, rfl⟩ := Nat.exists_eq_succ_of_ne_zero (Nat.ne_of_gt hfuel)
    refine ⟨r, ?_, hr⟩
    rw [Reader.operations, if_pos hr.here]
    rfl
  | @cons st sts us us' hst hsts ih =>
    obtain ⟨fuel, rfl⟩ := Nat.exists_eq_succ_of_ne_zero (Nat.ne_of_gt (Nat.zero_lt_of_lt hfuel))
    obtain ⟨name, rest, rfl⟩ := Parse.starts_with_name hst
    have hhere : r.here.token ≠ .eof := by simp [hr.here]
    -- Behind the statement there is another one, which begins with a name, or the end.
    obtain ⟨v, vs, hv, hstop⟩ : ∃ v vs, us' ++ [Token.eof] = v :: vs ∧
        v ≠ .lbracket ∧ v ≠ .atSign := by
      cases hsts with
      | nil => exact ⟨_, _, rfl, by simp, by simp⟩
      | cons h =>
        obtain ⟨_, _, rfl⟩ := Parse.starts_with_name h
        exact ⟨_, _, rfl, by simp, by simp⟩
    rw [List.append_assoc, hv] at hr
    obtain ⟨r₁, hop, h₁⟩ := Parse.operation_complete hr hst hallowed.1 hstop
    rw [← hv] at h₁
    rw [List.length_append, List.length_cons] at hfuel
    have hlong : us'.length < fuel := by omega
    obtain ⟨last, hrest, hlast⟩ := ih h₁ hallowed.2 hlong
    refine ⟨last, ?_, hlast⟩
    simp only [Reader.operations, if_neg hhere, round_eq_ok.2 hop, hrest]
    rfl

end Reader
end TracePeel
