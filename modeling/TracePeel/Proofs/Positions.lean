import TracePeel.Proofs.Verified

/-! Well-formed lists, position by position.

`Verify.WellFormed` says what a list of operations has to be, each condition of the
operation at one position and of what stands in front of it. The checks go through a list
once and stop at the first thing that is wrong; `verify_iff` shows that they pass on just
the well-formed lists, and on just the loops whose two lists are well formed. -/
namespace TracePeel
namespace Verify

/-! ### The conditions -/

/-- The box is an input or the result of an operation in front of the position. -/
def Available (inputs : List Box) (ops : List Operation) (k : Nat) (b : Box) : Prop :=
  b ∈ inputs ∨ ∃ j op, j < k ∧ ops[j]? = some op ∧ op.result = some b

/-- What is asked of an operation when the boxes `defined` are available to it. -/
structure Placed (defined : Box → Prop) (op : Operation) : Prop where
  arity : ∀ n, op.opcode.arity? = some n → op.args.length = n
  args : ∀ b, .box b ∈ op.args → defined b
  failArgs : ∀ fs, op.failArgs = some fs → ∀ b, .box b ∈ fs → defined b
  frames : ∀ frame ∈ op.snapshot, ∀ b, .box b ∈ frame.entries → defined b
  guardValue : op.opcode = .guardValue → ∀ a b, op.args = [a, b] → a.kind = b.kind
  sameAs : op.opcode = .sameAs → ∀ a r, op.args = [a] → op.result = some r → a.kind = r.kind
  guarded : op.isGuard = true →
    (∃ number snapshot, op.descr = some (.guard number snapshot)) ∧ op.failArgs.isSome = true
  produced : ∀ r, op.result = some r → op.opcode.hasResult = true ∧
    (∀ kind, op.opcode.resultKind? = some kind → r.kind = kind) ∧ ¬defined r
  unproduced : op.result = none →
    op.opcode.hasResult = false ∨ op.opcode = .call ∨ op.opcode = .callPure

/-- What is asked of a list with its inputs; a jump to `token` lands on `target`. -/
structure WellFormed (inputs : List Box) (ops : List Operation) (token : LoopToken)
    (target : List Box) : Prop where
  distinct : inputs.Nodup
  nonempty : ops ≠ []
  final : ∀ k op, ops[k]? = some op →
    (op.opcode = .jump ∨ op.opcode = .finish ↔ k + 1 = ops.length)
  placed : ∀ k op, ops[k]? = some op → Placed (Available inputs ops k) op
  jump : ∀ op, ops.getLast? = some op → op.opcode = .jump →
    ∃ t, op.descr = some (.loop t) ∧ (t = token → op.args.map (·.kind) = target.map (·.kind))

end Verify

/-- Both lists of a loop are well formed, jumps to the loop land on the inputs of the list that
goes round, and that list defines nothing again that the preamble defines. -/
structure Loop.WellFormed (l : Loop) : Prop where
  preamble : ∀ p, l.preamble = some p → Verify.WellFormed p.inputs p.ops l.token l.inputs
  apart : ∀ p, l.preamble = some p → ∀ op ∈ l.ops, ∀ op' ∈ p.ops, ∀ r, op.result = some r →
    op'.result ≠ some r
  body : Verify.WellFormed l.inputs l.ops l.token l.inputs

namespace Verify

/-! ### One operation -/

variable {inputs target defined : List Box} {ops : List Operation} {op : Operation}
  {token : LoopToken}

theorem kindsAgree_iff : kindsAgree op = true ↔
    (op.opcode = .guardValue → ∀ a b, op.args = [a, b] → a.kind = b.kind) ∧
    (op.opcode = .sameAs → ∀ a r, op.args = [a] → op.result = some r → a.kind = r.kind) := by
  unfold kindsAgree
  split
  case h_1 a b hcode hargs =>
    simp only [hcode, hargs, beq_iff_eq, reduceCtorEq, false_implies, and_true, true_implies]
    constructor
    · rintro h _ _ ⟨⟩
      exact h
    · exact fun h => h a b rfl
  case h_2 a r hcode hargs hresult =>
    simp only [hcode, hargs, hresult, beq_iff_eq, reduceCtorEq, false_implies, true_and,
      true_implies]
    constructor
    · rintro h _ _ ⟨⟩ ⟨⟩
      exact h
    · exact fun h => h a r rfl rfl
  case h_3 hguard hsame =>
    refine iff_of_true rfl ⟨fun hcode a b hargs => ?_, fun hcode a r hargs hresult => ?_⟩
    · exact (hguard a b hcode hargs).elim
    · exact (hsame a r hcode hargs hresult).elim

theorem needsResult_eq_false_iff {o : Opcode} :
    o.needsResult = false ↔ o.hasResult = false ∨ o = .call ∨ o = .callPure := by
  cases o <;> decide

theorem guard?_isSome_iff :
    op.guard?.isSome = true ↔ ∃ number snapshot, op.descr = some (.guard number snapshot) := by
  unfold Operation.guard?
  split <;> simp_all

theorem mem_operands {s : Snapshot} {a : Operand} :
    a ∈ s.operands ↔ ∃ frame ∈ s, a ∈ frame.entries :=
  List.mem_flatMap

theorem mem_usedArgs {a : Operand} : a ∈ op.usedArgs ↔
    a ∈ op.args ∨ (∃ fs, op.failArgs = some fs ∧ a ∈ fs) ∨
      ∃ frame ∈ op.snapshot, a ∈ frame.entries := by
  simp only [Operation.usedArgs, List.mem_append, mem_operands, or_assoc]
  cases op.failArgs <;> simp

theorem fits_iff_placed : op.Fits defined ↔ Placed (· ∈ defined) op := by
  constructor
  · intro h
    have hkinds := kindsAgree_iff.1 h.kinds
    refine ⟨h.arity, fun b hb => h.reads b (mem_usedArgs.2 (.inl hb)),
      fun fs hfs b hb => h.reads b (mem_usedArgs.2 (.inr (.inl ⟨fs, hfs, hb⟩))),
      fun frame hframe b hb => h.reads b (mem_usedArgs.2 (.inr (.inr ⟨frame, hframe, hb⟩))),
      hkinds.1, hkinds.2, fun hguard => ?_, fun r hr => ?_,
      fun hnone => needsResult_eq_false_iff.1 (h.unproduced hnone)⟩
    · exact (h.guarded hguard).imp_left guard?_isSome_iff.1
    · obtain ⟨hhas, hkind, hfresh⟩ := h.produced r hr
      exact ⟨hhas, fun kind hk => (hkind kind hk).symm, hfresh⟩
  · intro h
    refine ⟨h.arity, fun b hb => ?_, kindsAgree_iff.2 ⟨h.guardValue, h.sameAs⟩, fun hguard => ?_,
      fun r hr => ?_, fun hnone => needsResult_eq_false_iff.2 (h.unproduced hnone)⟩
    · rcases mem_usedArgs.1 hb with hb | ⟨fs, hfs, hb⟩ | ⟨frame, hframe, hb⟩
      · exact h.args b hb
      · exact h.failArgs fs hfs b hb
      · exact h.frames frame hframe b hb
    · exact (h.guarded hguard).imp_left guard?_isSome_iff.2
    · obtain ⟨hhas, hkind, hfresh⟩ := h.produced r hr
      exact ⟨hhas, fun kind hk => (hkind kind hk).symm, hfresh⟩

theorem isFinal_iff {o : Opcode} : o.isFinal = true ↔ o = .jump ∨ o = .finish := by
  cases o <;> decide

theorem lands_iff : op.Lands token target ↔
    (op.opcode = .jump ∨ op.opcode = .finish) ∧ (op.opcode = .jump → ∃ t,
      op.descr = some (.loop t) ∧
        (t = token → op.args.map (·.kind) = target.map (·.kind))) := by
  have hkinds : List.Forall₂ (fun (a : Operand) (b : Box) => a.kind = b.kind) op.args target ↔
      op.args.map (·.kind) = target.map (·.kind) := by
    rw [← List.forall₂_eq_eq_eq, List.forall₂_map_left_iff, List.forall₂_map_right_iff]
  have htoken (t : LoopToken) : op.token? = some t ↔ op.descr = some (.loop t) := by
    unfold Operation.token?
    split <;> simp_all
  unfold Operation.Lands
  simp only [hkinds, htoken]
  constructor
  · rintro (h | ⟨h, hjump⟩)
    · exact ⟨.inr h, fun hjump => absurd (h.symm.trans hjump) nofun⟩
    · exact ⟨.inl h, fun _ => hjump⟩
  · rintro ⟨h | h, hjump⟩
    · exact .inr ⟨h, hjump h⟩
    · exact .inl h

/-! ### A list -/

theorem mem_results_take {k : Nat} {b : Box} :
    b ∈ results (ops.take k) ↔ ∃ j op, j < k ∧ ops[j]? = some op ∧ op.result = some b := by
  rw [mem_results]
  constructor
  · rintro ⟨op, hop, hb⟩
    obtain ⟨j, hj⟩ := List.mem_iff_getElem?.1 hop
    rw [List.getElem?_take] at hj
    split at hj
    · exact ⟨j, op, ‹_›, hj, hb⟩
    · cases hj
  · rintro ⟨j, op, hlt, hj, hb⟩
    refine ⟨op, List.mem_iff_getElem?.2 ⟨j, ?_⟩, hb⟩
    rwa [List.getElem?_take, if_pos hlt]

theorem fits_take_iff {k : Nat} :
    op.Fits (inputs ++ results (ops.take k)) ↔ Placed (Available inputs ops k) op := by
  have hdefined : (· ∈ inputs ++ results (ops.take k)) = Available inputs ops k := by
    funext b
    rw [List.mem_append, mem_results_take, Available]
  rw [fits_iff_placed, hdefined]

/-- Operations that are accepted one behind the other, and each where it stands. -/
theorem accepts_iff : Accepts inputs ops ↔ ∀ (k : Nat) (op : Operation), ops[k]? = some op →
    op.Fits (inputs ++ results (ops.take k)) ∧ op.opcode.isFinal = false := by
  refine ⟨fun h k op hop => h.fits_take hop, fun h => ?_⟩
  induction ops generalizing inputs with
  | nil => trivial
  | cons op rest ih =>
    obtain ⟨hop, hfinal⟩ := h 0 op rfl
    refine ⟨by simpa using hop, hfinal, ih fun k op' hop' => ?_⟩
    obtain ⟨hfits, hfinal'⟩ := h (k + 1) op' hop'
    rw [List.take_succ_cons] at hfits
    exact ⟨hfits.congr fun _ => mem_append_results_cons, hfinal'⟩

theorem ops_iff_wellFormed {u : Unit} :
    Verify.ops inputs ops token target = .ok u ↔ WellFormed inputs ops token target := by
  rw [ops_ok_iff]
  constructor
  · rintro ⟨hinputs, body, last, rfl, hbody, hlast, hlands⟩
    obtain ⟨hfinal, hjump⟩ := lands_iff.1 hlands
    have htake {k : Nat} (hk : k ≤ body.length) : (body ++ [last]).take k = body.take k :=
      List.take_append_of_le_length hk
    -- A position is one of the body or that of the last operation.
    have hcases {k : Nat} {op : Operation} (hop : (body ++ [last])[k]? = some op) :
        body[k]? = some op ∨ k = body.length ∧ op = last := by
      rw [List.getElem?_append] at hop
      split at hop
      · exact .inl hop
      · obtain ⟨hk, rfl⟩ := List.getElem?_eq_some_iff.1 hop
        simp only [List.length_singleton] at hk
        exact .inr ⟨by omega, by simp⟩
    refine ⟨hinputs, by simp, fun k op hop => ?_, fun k op hop => ?_, fun op hop => ?_⟩
    · rw [List.length_append, List.length_singleton, Nat.add_right_cancel_iff, ← isFinal_iff]
      rcases hcases hop with hop | ⟨rfl, rfl⟩
      · have hk := (List.getElem?_eq_some_iff.1 hop).1
        simp [(hbody.fits_take hop).2, Nat.ne_of_lt hk]
      · simpa using isFinal_iff.2 hfinal
    · rw [← fits_take_iff]
      rcases hcases hop with hop | ⟨rfl, rfl⟩
      · rw [htake (Nat.le_of_lt (List.getElem?_eq_some_iff.1 hop).1)]
        exact (hbody.fits_take hop).1
      · rwa [htake (Nat.le_refl _), List.take_length]
    · rw [List.getLast?_concat] at hop
      exact Option.some.inj hop ▸ hjump
  · intro h
    obtain ⟨body, last, rfl⟩ : ∃ body last, ops = body ++ [last] :=
      ⟨_, _, (List.dropLast_append_getLast h.nonempty).symm⟩
    have hlast : (body ++ [last])[body.length]? = some last := by simp
    have hbody {k : Nat} {op : Operation} (hop : body[k]? = some op) :
        (body ++ [last])[k]? = some op ∧ k < body.length :=
      have hk := (List.getElem?_eq_some_iff.1 hop).1
      ⟨by rwa [List.getElem?_append_left hk], hk⟩
    refine ⟨h.distinct, body, last, rfl, accepts_iff.2 fun k op hop => ?_, ?_, lands_iff.2 ⟨?_, ?_⟩⟩
    · obtain ⟨hwhole, hk⟩ := hbody hop
      have hfits := fits_take_iff.2 (h.placed k op hwhole)
      rw [List.take_append_of_le_length (Nat.le_of_lt hk)] at hfits
      refine ⟨hfits, Bool.eq_false_iff.2 fun hfinal => ?_⟩
      have := (h.final k op hwhole).1 (isFinal_iff.1 hfinal)
      simp at this
      omega
    · have hfits := fits_take_iff.2 (h.placed _ _ hlast)
      rwa [List.take_append_of_le_length (Nat.le_refl _), List.take_length] at hfits
    · exact (h.final _ _ hlast).2 (by simp)
    · exact h.jump last List.getLast?_concat

/-! ### Lists and loops -/

theorem loop_iff_wellFormed {l : Loop} : l.verify = .ok () ↔ l.WellFormed := by
  unfold Loop.verify
  cases hp : l.preamble with
  | none =>
    simp only [ops_iff_wellFormed]
    exact ⟨fun h => ⟨by simp [hp], by simp [hp], h⟩, fun h => h.body⟩
  | some p =>
    have hsame {q : Preamble} (hq : l.preamble = some q) : p = q :=
      Option.some.inj (hp.symm.trans hq)
    simp only [bind_ok, exists_and_left, exists_const, ops_iff_wellFormed, checkDisjoint_ok]
    constructor
    · rintro ⟨hpreamble, hapart, hbody⟩
      refine ⟨fun q hq => hsame hq ▸ hpreamble, fun q hq op hop op' hop' r hr hr' => ?_, hbody⟩
      obtain rfl := hsame hq
      exact hapart r (mem_results.2 ⟨op, hop, hr⟩) (mem_results.2 ⟨op', hop', hr'⟩)
    · intro h
      refine ⟨h.preamble p hp, fun r hr hr' => ?_, h.body⟩
      obtain ⟨op, hop, hr⟩ := mem_results.1 hr
      obtain ⟨op', hop', hr'⟩ := mem_results.1 hr'
      exact h.apart p hp op hop op' hop' r hr hr'

/-- The checks pass on just the well-formed lists and loops. -/
theorem verify_iff :
    (∀ inputs list token target,
      Verify.ops inputs list token target = .ok () ↔ WellFormed inputs list token target) ∧
    ∀ l : Loop, l.verify = .ok () ↔ l.WellFormed :=
  ⟨fun _ _ _ _ => ops_iff_wellFormed, fun _ => loop_iff_wellFormed⟩

end Verify
end TracePeel
