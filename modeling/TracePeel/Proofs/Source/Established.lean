import TracePeel.Proofs.Positions
import TracePeel.Proofs.Source.Accepting

/-! What reading establishes.

A text that is accepted gives a trace in which every condition of a well-formed list holds but
two: that the last operation, and no other, ends the list and fits the inputs it goes back to,
and that the operands of an operation agree in kind (`Trace.Established`). So the checks of such a
trace fail, if they do, for one of these reasons alone (`VerifyError.isLeftOpen`). -/
namespace TracePeel

/-! ### The conditions -/

/-- What reading establishes of an operation to which the boxes `available` can be read. -/
structure Operation.Established (available : Box → Prop) (op : Operation) : Prop where
  reads : ∀ b, .box b ∈ op.usedArgs → available b
  arity : ∀ n, op.opcode.arity? = some n → op.args.length = n
  produced : ∀ r, op.result = some r → op.opcode.hasResult = true ∧
    (∀ kind, op.opcode.resultKind? = some kind → kind = r.kind) ∧ ¬available r
  unproduced : op.result = none → op.opcode.needsResult = false
  guarded : op.isGuard = true ↔ ∃ number snapshot, op.descr = some (.guard number snapshot)
  failArgs : op.isGuard = true ↔ op.failArgs.isSome = true
  targeted : op.opcode = .jump → ∃ token, op.descr = some (.loop token)

/-- What reading establishes of a trace. Boxes and guards have the numbers from zero on, in the order
in which they are defined, and the numbers of loops are among those given out. -/
structure Trace.Established (t : Trace) : Prop where
  inputs : t.inputs.Nodup
  ops : ∀ (k : Nat) (op : Operation), t.ops[k]? = some op → op.Established (Verify.Available t.inputs t.ops k)
  once : (t.inputs ++ results t.ops).Nodup
  boxes : (t.inputs ++ results t.ops).map (·.id) = List.range t.pool.nextBox
  guards : guardNumbers t.ops = List.range t.pool.nextGuard
  token : t.token.number < t.pool.nextToken
  tokens : ∀ k ∈ loopTokens t.ops, k.number < t.pool.nextToken

/-- Whether the error is about where a list ends, about what its jump hands over or about the
kinds of operands: what reading leaves open. -/
def VerifyError.isLeftOpen : VerifyError → Bool
  | .missingTerminator | .misplacedTerminator _ | .argKind .. | .jumpArity .. | .jumpKind .. => true
  | _ => false

/-! ### The checks of what is established -/

namespace Verify

variable {d : List Box} {op : Operation} {ops : List Operation} {e : VerifyError}

theorem ensure_left {ok : Bool} {e' : VerifyError} (h : ensure ok e' = .error e)
    (hleft : e'.isLeftOpen = true) : e.isLeftOpen = true := by
  cases ok with
  | true => cases h
  | false =>
    obtain rfl := Except.error.inj h
    exact hleft

/-- The first error of two checks is one of the first or one of the second. -/
theorem bind_error {ε α β : Type} {x : Except ε α} {f : α → Except ε β} {e : ε}
    (h : x >>= f = .error e) : x = .error e ∨ ∃ a, x = .ok a ∧ f a = .error e := by
  cases x with
  | error e' => exact .inl (by simpa [bind, Except.bind] using h)
  | ok a => exact .inr ⟨a, rfl, h⟩

/-- Behind a check that passes, the error is one of what follows. -/
theorem error_of_ok {ε α β : Type} {x : Except ε α} {f : α → Except ε β} {e : ε} {a : α}
    (hx : x = .ok a) (h : x >>= f = .error e) : f a = .error e := by
  rw [hx] at h
  exact h

theorem checkOp_left {index : Nat} {isLast : Bool} (hop : op.Established (· ∈ d))
    (h : checkOp d index isLast op = .error e) : e.isLeftOpen = true := by
  have harity : checkArity index op = .ok () := checkArity_ok.2 hop.arity
  have huses : checkUses d index op.usedArgs = .ok () := checkUses_ok.2 hop.reads
  have hguard : checkGuard index op = .ok () := checkGuard_ok.2 fun hg =>
    ⟨guard?_isSome_iff.2 (hop.guarded.1 hg), hop.failArgs.1 hg⟩
  have hresult : checkResult d index op = .ok _ :=
    checkResult_ok.2 ⟨hop.produced, hop.unproduced, rfl⟩
  unfold checkOp at h
  rcases bind_error h with h | ⟨_, -, h⟩
  · exact ensure_left h rfl
  have h := error_of_ok harity h
  have h := error_of_ok huses h
  rcases bind_error h with h | ⟨_, -, h⟩
  · exact ensure_left h rfl
  have h := error_of_ok hguard h
  exact absurd (hresult.symm.trans h) nofun

theorem checkJumpKinds_left {position : Nat} {args : List Operand} {target : List Box}
    (h : checkJumpKinds position args target = .error e) : e.isLeftOpen = true := by
  induction args generalizing position target with
  | nil => cases h
  | cons a args ih =>
    cases target with
    | nil => cases h
    | cons b target =>
      unfold checkJumpKinds at h
      split at h
      · exact ih h
      · obtain rfl := Except.error.inj h
        rfl

theorem checkTerminator_left {index : Nat} {token : LoopToken} {target : List Box}
    (hop : op.opcode = .jump → ∃ k, op.descr = some (.loop k))
    (h : checkTerminator index token target op = .error e) : e.isLeftOpen = true := by
  unfold checkTerminator at h
  split at h
  · cases h
  · rename_i hjump
    obtain ⟨k, hk⟩ := hop hjump
    simp only [Operation.token?, hk] at h
    split at h
    · split at h
      · exact checkJumpKinds_left h
      · obtain rfl := Except.error.inj h
        rfl
    · cases h
  · obtain rfl := Except.error.inj h
    rfl

theorem checkOps_left {token : LoopToken} {target : List Box} {index : Nat}
    (hops : ∀ (k : Nat) (op : Operation), ops[k]? = some op → op.Established (Available d ops k))
    (h : checkOps token target d index ops = .error e) : e.isLeftOpen = true := by
  induction ops generalizing d index with
  | nil =>
    obtain rfl := Except.error.inj h
    rfl
  | cons op rest ih =>
    have hop : op.Established (· ∈ d) := by
      have hfirst := hops 0 op rfl
      have hsame : Available d (op :: rest) 0 = (· ∈ d) := by
        funext b
        simp [Available]
      rwa [hsame] at hfirst
    cases rest with
    | nil =>
      simp only [checkOps] at h
      rcases bind_error h with h | ⟨_, -, h⟩
      · cases hcheck : checkOp d index true op with
        | error e' =>
          rw [hcheck] at h
          obtain rfl : e' = e := Except.error.inj h
          exact checkOp_left hop hcheck
        | ok defined =>
          rw [hcheck] at h
          cases h
      · exact checkTerminator_left hop.targeted h
    | cons next rest =>
      simp only [checkOps] at h
      rcases bind_error h with h | ⟨_, hcheck, h⟩
      · exact checkOp_left hop h
      · obtain ⟨-, -, rfl⟩ := checkOp_ok.1 hcheck
        refine ih (fun k op' hop' => ?_) h
        have hsame : Available d (op :: next :: rest) (k + 1) =
            Available (op.result.toList ++ d) (next :: rest) k := by
          funext b
          simp only [Available, ← mem_results_take, List.take_succ_cons, results_cons,
            List.mem_append]
          exact propext ⟨by tauto, by tauto⟩
        exact hsame ▸ hops (k + 1) op' hop'

end Verify

theorem Trace.Established.verify {t : Trace} (ht : t.Established) {e : VerifyError}
    (h : t.verify = .error e) : e.isLeftOpen = true := by
  have hinputs : Verify.checkInputs [] t.inputs = .ok _ :=
    Verify.checkInputs_ok.2 ⟨ht.inputs, nofun, rfl⟩
  unfold Trace.verify Verify.ops at h
  rw [hinputs] at h
  refine Verify.checkOps_left (fun k op hop => ?_) h
  have hsame : Verify.Available (t.inputs.reverse ++ []) t.ops k =
      Verify.Available t.inputs t.ops k := by
    funext b
    simp [Verify.Available]
  exact hsame ▸ ht.ops k op hop

/-! ### Accepted texts -/

theorem Opcode.Carries.guard_iff {o : Opcode} {descr : Option Descr} (h : o.Carries descr) :
    o.isGuard = true ↔ ∃ number snapshot, descr = some (.guard number snapshot) := by
  cases h with
  | guard hguard => exact iff_of_true hguard ⟨_, _, rfl⟩
  | loop hjump => subst hjump; exact iff_of_false nofun nofun
  | field haccess => 
    refine iff_of_false (fun hguard => ?_) nofun
    revert hguard haccess
    cases o <;> decide
  | size hguard => exact iff_of_false (by simp [hguard]) nofun
  | none hguard => exact iff_of_false (by simp [hguard]) nofun

theorem Opcode.Carries.exists_loop {o : Opcode} {descr : Option Descr} (h : o.Carries descr)
    (hjump : o = .jump) : ∃ token, descr = some (.loop token) := by
  subst hjump
  cases h with
  | guard hguard => cases hguard
  | loop => exact ⟨_, rfl⟩
  | field haccess => cases haccess
  | size _ hne => exact absurd rfl hne
  | none _ hne => exact absurd rfl hne

variable {E : ParseError → Reader → Prop} {defined : List Box} {op : Operation}
  {ops : List Operation}

theorem Legible.at {k : Nat} (h : Legible E defined ops) (hop : ops[k]? = some op) :
    op.Legible E (defined ++ results (ops.take k)) := by
  induction ops generalizing defined k with
  | nil => cases hop
  | cons first rest ih =>
    cases k with
    | zero =>
      cases hop
      simpa using h.1
    | succ k =>
      have hat := ih h.2 hop
      rwa [List.append_assoc, ← results_cons, ← List.take_succ_cons] at hat

theorem Operation.Legible.established {available : Box → Prop} (h : op.Legible E defined)
    (havailable : ∀ b, b ∈ defined ↔ available b) : op.Established available where
  reads b hb := (havailable b).1 (h.reads b hb)
  arity := h.arity
  produced r hr := by
    obtain ⟨hhas, hkind, hfresh⟩ := h.produced r hr
    exact ⟨hhas, hkind, fun hr => hfresh ((havailable r).2 hr)⟩
  unproduced := h.unproduced
  guarded := h.form.descr.guard_iff
  failArgs := by rw [h.form.failArgs]
  targeted := h.form.descr.exists_loop

/-- A text that is accepted gives a trace of which all is established but where it ends and the
kinds of operands, so its checks fail for no other reason. -/
theorem Trace.parse_establishes {source : String} {t : Trace} (h : Trace.parse source = .ok t) :
    t.Established ∧ ∀ e, t.verify = .error e → e.isLeftOpen = true := by
  have ht := accepted_of_parse h
  have hestablished : t.Established := by
    refine ⟨ht.inputs, fun k op hop => (ht.legible.at hop).established fun b => ?_, ?_, ht.places,
      ht.numbers, ht.token, ht.tokens⟩
    · rw [List.mem_append, Verify.mem_results_take, Verify.Available]
    · exact List.Nodup.of_map _ (ht.places ▸ List.nodup_range)
  exact ⟨hestablished, fun _ => hestablished.verify⟩

/-- A guard on values of two kinds, in a list that no operation ends. -/
theorem parse_establishes_guarded : ∃ t,
    Trace.parse "[i0, p1]\ni2 = int_add(i0, 1)\nguard_value(i2, 1.5) [p1] @ [i0] [p1]\n" = .ok t ∧
    t.verify = .error (.argKind 1 .guardValue) ∧ t.Established := by
  obtain ⟨t, ht, hverify⟩ : ∃ t,
      Trace.parse "[i0, p1]\ni2 = int_add(i0, 1)\nguard_value(i2, 1.5) [p1] @ [i0] [p1]\n" = .ok t ∧
      decide (t.verify = .error (.argKind 1 .guardValue)) = true :=
    exists_ok_of_any (by decide +kernel)
  exact ⟨t, ht, of_decide_eq_true hverify, (Trace.parse_establishes ht).1⟩

end TracePeel
