import Mathlib.Data.List.Forall2
import Mathlib.Data.List.Nodup
import TracePeel.Verify

/-! What it means that a list is well formed.

`Accepts` and `Lands` say of a list what the checks ask of it, without positions and
errors, so a list that grows at its end can be followed. `ops_ok_iff` shows that the
checks pass on just those lists. -/
namespace TracePeel

/-- The boxes that some operations define, in their order. -/
def results (ops : List Operation) : List Box :=
  ops.filterMap (·.result)

@[simp] theorem results_nil : results [] = [] := rfl

@[simp] theorem results_append (xs ys : List Operation) :
    results (xs ++ ys) = results xs ++ results ys := by
  simp [results]

@[simp] theorem results_cons (op : Operation) (ops : List Operation) :
    results (op :: ops) = op.result.toList ++ results ops := by
  cases h : op.result <;> simp [results, h]

/-- A list that grows at its end loses no result. -/
theorem results_subset {xs ys : List Operation} (h : xs <+: ys) : results xs ⊆ results ys := by
  obtain ⟨new, hnew⟩ := h
  rw [← hnew, results_append]
  exact List.subset_append_left ..

theorem mem_results {ops : List Operation} {r : Box} :
    r ∈ results ops ↔ ∃ op ∈ ops, op.result = some r := by
  simp [results]

/-- What an operation produces may be counted to the list or to what is in front of it. -/
theorem mem_append_results_cons {bs : List Box} {op : Operation} {ops : List Operation} {b : Box} :
    b ∈ bs ++ results (op :: ops) ↔ b ∈ op.result.toList ++ bs ++ results ops := by
  simp only [List.mem_append, results_cons]
  tauto

namespace Operation

/-- The operation may stand where just the given boxes are defined. -/
structure Fits (defined : List Box) (op : Operation) : Prop where
  arity : ∀ n, op.opcode.arity? = some n → op.args.length = n
  reads : ∀ b, .box b ∈ op.usedArgs → b ∈ defined
  kinds : Verify.kindsAgree op = true
  guarded : op.isGuard = true → op.guard?.isSome = true ∧ op.failArgs.isSome = true
  produced : ∀ r, op.result = some r → op.opcode.hasResult = true ∧
    (∀ k, op.opcode.resultKind? = some k → k = r.kind) ∧ r ∉ defined
  unproduced : op.result = none → op.opcode.needsResult = false

/-- The operation ends a list whose jumps to `token` land on `target`. -/
def Lands (token : LoopToken) (target : List Box) (op : Operation) : Prop :=
  op.opcode = .finish ∨ op.opcode = .jump ∧ ∃ t, op.token? = some t ∧
    (t = token → List.Forall₂ (fun a b => a.kind = b.kind) op.args target)

theorem Fits.congr {d d' : List Box} (h : ∀ b, b ∈ d ↔ b ∈ d') {op : Operation}
    (hop : op.Fits d) : op.Fits d' where
  arity := hop.arity
  reads b hb := (h b).1 (hop.reads b hb)
  kinds := hop.kinds
  guarded := hop.guarded
  produced r hr := by
    obtain ⟨h₁, h₂, h₃⟩ := hop.produced r hr
    exact ⟨h₁, h₂, fun hr => h₃ ((h r).2 hr)⟩
  unproduced := hop.unproduced

theorem closes_iff {token : LoopToken} {op : Operation} :
    op.closes token = true ↔ op.opcode = .jump ∧ op.token? = some token := by
  simp only [closes, Bool.and_eq_true, beq_iff_eq]

theorem isGuard_of_jump {op : Operation} (h : op.opcode = .jump) : op.isGuard = false := by
  rw [isGuard, h]
  rfl

/-- Only an operation that ends a list closes a loop. -/
theorem closes_of_not_final {op : Operation} (h : op.opcode.isFinal = false) (token : LoopToken) :
    op.closes token = false := by
  unfold closes
  cases hcode : op.opcode <;> simp_all [Opcode.isFinal]

theorem Lands.isFinal {token : LoopToken} {target : List Box} {op : Operation}
    (h : op.Lands token target) : op.opcode.isFinal = true := by
  rcases h with h | ⟨h, _⟩ <;> simp [h, Opcode.isFinal]

theorem Fits.no_result {defined : List Box} {op : Operation} (h : op.Fits defined)
    (hno : op.opcode.hasResult = false) : op.result = none := by
  cases hr : op.result with
  | none => rfl
  | some r => exact absurd (h.produced r hr).1 (by simp [hno])

/-- What ends a list produces nothing. -/
theorem Fits.result_of_isFinal {defined : List Box} {op : Operation} (h : op.Fits defined)
    (hfinal : op.opcode.isFinal = true) : op.result = none := by
  refine h.no_result ?_
  revert hfinal
  cases op.opcode <;> simp [Opcode.hasResult, Opcode.isFinal]

end Operation

/-- Each operation may stand behind those in front of it, and none ends the list. -/
def Accepts : List Box → List Operation → Prop
  | _, [] => True
  | defined, op :: rest =>
    op.Fits defined ∧ op.opcode.isFinal = false ∧ Accepts (op.result.toList ++ defined) rest

theorem Accepts.congr {d d' : List Box} (h : ∀ b, b ∈ d ↔ b ∈ d') {ops : List Operation}
    (hops : Accepts d ops) : Accepts d' ops := by
  induction ops generalizing d d' with
  | nil => trivial
  | cons op rest ih =>
    obtain ⟨hop, hfinal, hrest⟩ := hops
    exact ⟨hop.congr h, hfinal, ih (by simp [h]) hrest⟩

theorem accepts_append {d : List Box} {xs ys : List Operation} :
    Accepts d (xs ++ ys) ↔ Accepts d xs ∧ Accepts (d ++ results xs) ys := by
  induction xs generalizing d with
  | nil => simp [Accepts]
  | cons op rest ih =>
    simp only [List.cons_append, Accepts, ih, results_cons, and_assoc]
    have hmem : ∀ b, b ∈ op.result.toList ++ d ++ results rest ↔
        b ∈ d ++ (op.result.toList ++ results rest) := by
      intro b
      simp only [List.mem_append]
      tauto
    have hcongr : Accepts _ ys → Accepts _ ys := Accepts.congr hmem
    have hcongr' : Accepts _ ys → Accepts _ ys := Accepts.congr fun b => (hmem b).symm
    tauto

theorem accepts_singleton {d : List Box} {op : Operation} :
    Accepts d [op] ↔ op.Fits d ∧ op.opcode.isFinal = false := by
  simp [Accepts]

/-- A list that is accepted defines no box twice and none that was defined before. -/
theorem Accepts.nodup {d : List Box} {ops : List Operation} (h : Accepts d ops) :
    (results ops).Nodup ∧ ∀ r ∈ results ops, r ∉ d := by
  induction ops generalizing d with
  | nil => simp
  | cons op rest ih =>
    obtain ⟨hop, _, hrest⟩ := h
    obtain ⟨hn, hd⟩ := ih hrest
    rw [results_cons]
    cases hr : op.result with
    | none =>
      rw [hr] at hd
      exact ⟨hn, hd⟩
    | some r =>
      rw [hr] at hd
      refine ⟨List.nodup_cons.2 ⟨fun h => hd r h (by simp), hn⟩, fun b hb => ?_⟩
      rcases List.mem_cons.1 hb with rfl | hb
      · exact (hop.produced _ hr).2.2
      · exact fun h => hd b hb (by simp [h])

/-- Each operation of a list fits where it stands and ends nothing. -/
theorem Accepts.exists_fits {d : List Box} {ops : List Operation} (h : Accepts d ops)
    {op : Operation} (hop : op ∈ ops) :
    (∃ defined, op.Fits defined) ∧ op.opcode.isFinal = false := by
  induction ops generalizing d with
  | nil => cases hop
  | cons op' ops ih =>
    obtain ⟨hfits, hfinal, hrest⟩ := h
    rcases List.mem_cons.1 hop with rfl | hop
    · exact ⟨⟨d, hfits⟩, hfinal⟩
    · exact ih hrest hop

/-- Each operation of a list fits behind those in front of it. -/
theorem Accepts.fits_take {d : List Box} {ops : List Operation} (h : Accepts d ops) {k : Nat}
    {op : Operation} (hop : ops[k]? = some op) :
    op.Fits (d ++ results (ops.take k)) ∧ op.opcode.isFinal = false := by
  induction ops generalizing d k with
  | nil => cases hop
  | cons op' ops ih =>
    obtain ⟨hfits, hfinal, hrest⟩ := h
    cases k with
    | zero =>
      cases hop
      exact ⟨by simpa using hfits, hfinal⟩
    | succ k =>
      obtain ⟨hfits', hfinal'⟩ := ih hrest hop
      refine ⟨hfits'.congr fun b => ?_, hfinal'⟩
      simp only [List.take_succ_cons, results_cons, List.mem_append]
      tauto

theorem Accepts.isFinal {d : List Box} {ops : List Operation} (h : Accepts d ops)
    {op : Operation} (hop : op ∈ ops) : op.opcode.isFinal = false :=
  (h.exists_fits hop).2

/-- What a result was found to be when it was computed. -/
theorem exists_ok_of_any {ε α : Type} {x : Except ε α} {p : α → Bool}
    (h : x.toOption.any p = true) : ∃ a, x = .ok a ∧ p a = true := by
  cases x with
  | error e => cases h
  | ok a => exact ⟨a, rfl, h⟩

/-! ### The checks pass on just these lists -/

namespace Verify

theorem bind_ok {ε α β : Type} {x : Except ε α} {f : α → Except ε β} {b : β} :
    (x >>= f) = .ok b ↔ ∃ a, x = .ok a ∧ f a = .ok b := by
  cases x with
  | error e => simp [bind, Except.bind]
  | ok a => simp [bind, Except.bind]

@[simp] theorem ensure_ok {ok : Bool} {e : VerifyError} {u : Unit} :
    ensure ok e = .ok u ↔ ok = true := by
  cases ok <;> simp [ensure]

theorem checkInputs_ok {d inputs defined : List Box} :
    checkInputs d inputs = .ok defined ↔
      inputs.Nodup ∧ (∀ b ∈ inputs, b ∉ d) ∧ defined = inputs.reverse ++ d := by
  induction inputs generalizing d with
  | nil => simp [checkInputs, eq_comm]
  | cons b rest ih =>
    unfold checkInputs
    split
    next hb => simp [hb]
    next hb =>
      rw [ih]
      simp only [List.nodup_cons, List.mem_cons, List.reverse_cons, List.append_assoc,
        List.cons_append, List.nil_append, not_or, forall_eq_or_imp]
      constructor
      · rintro ⟨hn, hd, he⟩
        exact ⟨⟨fun h => (hd b h).1 rfl, hn⟩, ⟨hb, fun c hc => (hd c hc).2⟩, he⟩
      · rintro ⟨⟨hbr, hn⟩, ⟨_, hd⟩, he⟩
        exact ⟨hn, fun c hc => ⟨fun h => hbr (h ▸ hc), hd c hc⟩, he⟩

theorem checkUses_ok {d : List Box} {index : Nat} {as : List Operand} {u : Unit} :
    checkUses d index as = .ok u ↔ ∀ b, .box b ∈ as → b ∈ d := by
  induction as with
  | nil => simp [checkUses]
  | cons a rest ih =>
    cases a with
    | const c => simp [checkUses, ih]
    | box b =>
      unfold checkUses
      split
      next hb =>
        rw [ih]
        simp only [List.mem_cons, Operand.box.injEq, forall_eq_or_imp]
        exact ⟨fun h => ⟨hb, h⟩, fun h => h.2⟩
      next hb =>
        simp only [List.mem_cons, Operand.box.injEq, reduceCtorEq, false_iff, not_forall]
        exact ⟨b, .inl rfl, hb⟩

theorem checkArity_ok {index : Nat} {op : Operation} {u : Unit} :
    checkArity index op = .ok u ↔ ∀ n, op.opcode.arity? = some n → op.args.length = n := by
  unfold checkArity
  split
  next n h => simp [h]
  next h => simp [h]

theorem checkGuard_ok {index : Nat} {op : Operation} {u : Unit} :
    checkGuard index op = .ok u ↔
      (op.isGuard = true → op.guard?.isSome = true ∧ op.failArgs.isSome = true) := by
  unfold checkGuard
  split
  next h => simp [h, bind_ok]
  next h => simp [h, pure, Except.pure]

theorem checkResult_ok {d defined : List Box} {index : Nat} {op : Operation} :
    checkResult d index op = .ok defined ↔
      (∀ r, op.result = some r → op.opcode.hasResult = true ∧
        (∀ k, op.opcode.resultKind? = some k → k = r.kind) ∧ r ∉ d) ∧
      (op.result = none → op.opcode.needsResult = false) ∧
      defined = op.result.toList ++ d := by
  unfold checkResult
  cases hr : op.result with
  | none =>
    simp only [bind_ok, ensure_ok, pure, Except.pure, Except.ok.injEq, eq_comm (a := d),
      Bool.not_eq_true', exists_and_left, exists_const]
    simp
  | some r =>
    by_cases hd : r ∈ d
    · cases op.opcode.resultKind? <;>
        simp [bind_ok, hd, pure, Except.pure, throw, throwThe, MonadExceptOf.throw]
    · cases op.opcode.resultKind? with
      | none => simp [bind_ok, hd, pure, Except.pure, eq_comm (a := r :: d)]
      | some k =>
        simp [bind_ok, hd, pure, Except.pure, eq_comm (a := r :: d)]
        tauto

theorem checkOp_ok {d defined : List Box} {index : Nat} {isLast : Bool} {op : Operation} :
    checkOp d index isLast op = .ok defined ↔
      op.Fits d ∧ (op.opcode.isFinal = true → isLast = true) ∧
        defined = op.result.toList ++ d := by
  unfold checkOp
  simp only [bind_ok, ensure_ok, checkArity_ok, checkUses_ok, checkGuard_ok, checkResult_ok,
    Bool.or_eq_true, Bool.not_eq_true', exists_and_left, exists_const]
  constructor
  · rintro ⟨hfinal, harity, hreads, hkinds, hguard, hproduced, hunproduced, he⟩
    refine ⟨⟨harity, hreads, hkinds, hguard, hproduced, hunproduced⟩, fun h => ?_, he⟩
    exact hfinal.resolve_left (by simp [h])
  · rintro ⟨hop, hfinal, he⟩
    refine ⟨?_, hop.arity, hop.reads, hop.kinds, hop.guarded, hop.produced, hop.unproduced, he⟩
    cases h : op.opcode.isFinal with
    | false => exact .inl rfl
    | true => exact .inr (hfinal h)

theorem checkJumpKinds_ok {position : Nat} {args : List Operand} {target : List Box} {u : Unit}
    (hlen : args.length = target.length) :
    checkJumpKinds position args target = .ok u ↔
      List.Forall₂ (fun a b => a.kind = b.kind) args target := by
  induction args generalizing position target with
  | nil =>
    cases target with
    | nil => simp [checkJumpKinds]
    | cons => simp at hlen
  | cons a args ih =>
    cases target with
    | nil => simp at hlen
    | cons b target =>
      unfold checkJumpKinds
      split
      next h => simp [ih (by simpa using hlen), h]
      next h => simp [h]

theorem checkTerminator_ok {index : Nat} {token : LoopToken} {target : List Box}
    {op : Operation} {u : Unit} :
    checkTerminator index token target op = .ok u ↔ op.Lands token target := by
  unfold checkTerminator Operation.Lands
  split
  next h => simp [h]
  next h =>
    simp only [h, reduceCtorEq, false_or, true_and]
    split
    next ht => simp [ht]
    next t ht =>
      simp only [ht, Option.some.injEq, exists_eq_left']
      by_cases he : t = token
      · by_cases hlen : op.args.length = target.length
        · simp [he, hlen, checkJumpKinds_ok hlen]
        · simp only [he, hlen, if_true, if_false, reduceCtorEq, forall_const, false_iff]
          exact fun h => hlen h.length_eq
      · simp [he]
  next hf hj => simp [show op.opcode ≠ .finish from hf, show op.opcode ≠ .jump from hj]

theorem checkOps_ok {token : LoopToken} {target d : List Box} {index : Nat}
    {list : List Operation} {u : Unit} :
    checkOps token target d index list = .ok u ↔
      ∃ body last, list = body ++ [last] ∧ Accepts d body ∧
        last.Fits (d ++ results body) ∧ last.Lands token target := by
  induction list generalizing d index with
  | nil => simp [checkOps]
  | cons op rest ih =>
    cases rest with
    | nil =>
      simp only [checkOps, bind_ok, checkTerminator_ok, discard, Functor.discard]
      constructor
      · rintro ⟨_, h, hlands⟩
        obtain ⟨d', h, _⟩ : ∃ d', checkOp d index true op = .ok d' ∧ True := by
          cases hc : checkOp d index true op with
          | error e => simp [hc, Functor.mapConst, Except.map] at h
          | ok d' => exact ⟨d', rfl, trivial⟩
        refine ⟨[], op, rfl, trivial, ?_, hlands⟩
        simpa using (checkOp_ok.1 h).1
      · rintro ⟨body, last, he, _, hop, hlands⟩
        cases body with
        | cons b body => simp at he
        | nil =>
          simp only [List.nil_append, List.cons.injEq, and_true] at he
          subst he
          refine ⟨(), ?_, hlands⟩
          have hc : checkOp d index true op = .ok _ :=
            checkOp_ok.2 ⟨by simpa using hop, fun _ => rfl, rfl⟩
          simp [hc, Functor.mapConst, Except.map]
    | cons next rest =>
      simp only [checkOps, bind_ok, checkOp_ok, ih]
      constructor
      · rintro ⟨_, ⟨hop, hfinal, rfl⟩, body, last, he, hbody, hlast, hlands⟩
        refine ⟨op :: body, last, by simp [he], ⟨hop, ?_, hbody⟩, ?_, hlands⟩
        · simpa using hfinal
        · refine hlast.congr fun b => ?_
          simp only [List.mem_append, results_cons]
          tauto
      · rintro ⟨body, last, he, hbody, hlast, hlands⟩
        cases body with
        | nil => simp at he
        | cons b body =>
          simp only [List.cons_append, List.cons.injEq] at he
          obtain ⟨rfl, he⟩ := he
          obtain ⟨hop, hfinal, hbody⟩ := hbody
          refine ⟨_, ⟨hop, by simp [hfinal], rfl⟩, body, last, he, hbody, ?_, hlands⟩
          refine hlast.congr fun b => ?_
          simp only [List.mem_append, results_cons]
          tauto

/-- A list is well formed if its inputs are distinct, its operations are accepted one
behind the other, and the last one, and no other, ends it. -/
theorem ops_ok_iff {inputs target : List Box} {list : List Operation} {token : LoopToken}
    {u : Unit} :
    ops inputs list token target = .ok u ↔
      inputs.Nodup ∧ ∃ body last, list = body ++ [last] ∧ Accepts inputs body ∧
        last.Fits (inputs ++ results body) ∧ last.Lands token target := by
  unfold ops
  simp only [bind_ok, checkInputs_ok, checkOps_ok, List.append_nil, List.not_mem_nil,
    not_false_eq_true, implies_true, true_and]
  have hmem : ∀ b, b ∈ inputs.reverse ↔ b ∈ inputs := fun _ => List.mem_reverse
  constructor
  · rintro ⟨_, ⟨hn, rfl⟩, body, last, he, hbody, hlast, hlands⟩
    exact ⟨hn, body, last, he, hbody.congr hmem, hlast.congr (by simp), hlands⟩
  · rintro ⟨hn, body, last, he, hbody, hlast, hlands⟩
    exact ⟨_, ⟨hn, rfl⟩, body, last, he, hbody.congr fun b => (hmem b).symm,
      hlast.congr (by simp), hlands⟩

theorem checkDisjoint_ok {d : List Box} {index : Nat} {list : List Operation} {u : Unit} :
    checkDisjoint d index list = .ok u ↔ ∀ r ∈ results list, r ∉ d := by
  induction list generalizing index with
  | nil => simp [checkDisjoint]
  | cons op rest ih =>
    unfold checkDisjoint
    split
    next r hr =>
      split
      next hd => simp [hr, hd]
      next hd => simp [hr, hd, ih]
    next hr => simp [hr, ih]

end Verify
end TracePeel
