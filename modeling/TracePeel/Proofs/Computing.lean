import TracePeel.Proofs.Dealing

/-! Each computation is made once.

Whatever rewriting writes as a computation it remembers, with its operands as they are written,
and it remembers that on both ways through the trace. So the preamble and the list that goes round
have no computation in common and none twice, whatever else is known of its operands in between:
`computed_once`. What can be computed at once is not written at all. -/
namespace TracePeel

/-- What a computation depends on, as it is written, and the kind of its result. -/
def Operation.key? (op : Operation) : Option PureKey :=
  if op.opcode.isAlwaysPure then op.result.map (Rewrite.keyOf op op.args) else none

/-- No operation just gives another name to a value, no two make the same computation, and none
computes what is known from its opcode and operands alone. -/
structure Economical (ops : List Operation) : Prop where
  copies : ∀ op ∈ ops, op.opcode ≠ .sameAs
  once : (ops.filterMap Operation.key?).Nodup
  folded : ∀ op ∈ ops, op.opcode.isAlwaysPure = true → ∀ cs : List Const,
    op.args = cs.map .const → fold op.opcode cs = none

/-- The list is economical, and what it computes is remembered. -/
structure Remembering (ops : List Operation) (known : Bindings PureKey ValueId) : Prop where
  economical : Economical ops
  known : ∀ op ∈ ops, ∀ key, op.key? = some key → known.get? key ≠ none

theorem remembering_nil (known : Bindings PureKey ValueId) : Remembering [] known :=
  ⟨⟨List.forall_mem_nil _, .nil, List.forall_mem_nil _⟩, List.forall_mem_nil _⟩

namespace Remembering
variable {ops : List Operation} {known known' : Bindings PureKey ValueId} {op : Operation}

/-- An operation is written whose computation, if it is one, was not remembered and is now. -/
theorem append (h : Remembering ops known) (hcopy : op.opcode ≠ .sameAs)
    (hfold : op.opcode.isAlwaysPure = true → ∀ cs : List Const, op.args = cs.map .const →
      fold op.opcode cs = none)
    (hnew : ∀ key, op.key? = some key → known.get? key = none ∧ known'.get? key ≠ none)
    (hmore : ∀ key, known.get? key ≠ none → known'.get? key ≠ none) :
    Remembering (ops ++ [op]) known' := by
  have hall : ∀ {P : Operation → Prop}, (∀ op ∈ ops, P op) → P op → ∀ op' ∈ ops ++ [op], P op' := by
    intro P hops hop op' hop'
    rcases List.mem_append.1 hop' with hop' | hop'
    · exact hops op' hop'
    · exact List.mem_singleton.1 hop' ▸ hop
  refine ⟨⟨hall h.economical.copies hcopy, ?_, hall h.economical.folded hfold⟩,
    hall (fun op' hop' key hkey => hmore key (h.known op' hop' key hkey))
      fun key hkey => (hnew key hkey).2⟩
  rw [List.filterMap_append, List.nodup_append]
  refine ⟨h.economical.once, ?_, ?_⟩
  · cases hkey : op.key? <;> simp [hkey]
  · -- A computation made before would have been remembered.
    rintro key hold key' hkey' rfl
    obtain ⟨op', hop', hkey⟩ := List.mem_filterMap.1 hold
    obtain ⟨op₀, hop₀, hkey₀⟩ := List.mem_filterMap.1 hkey'
    rw [List.mem_singleton.1 hop₀] at hkey₀
    exact h.known op' hop' key hkey (hnew key hkey₀).1

/-- An operation is written that computes nothing. -/
theorem append_unremembered (h : Remembering ops known) (hop : op.Unremembered) :
    Remembering (ops ++ [op]) known := by
  refine h.append hop.ne_sameAs (fun hpure cs _ => ?_) (fun key hkey => ?_) fun _ hkey => hkey
  · cases hfold : fold op.opcode cs with
    | none => rfl
    | some c =>
      have hkind := kind_fold hfold
      rw [(hop hpure).1] at hkind
      cases hkind
  · unfold Operation.key? at hkey
    split at hkey
    next hpure =>
      rw [(hop hpure).2] at hkey
      cases hkey
    next => cases hkey

/-- Dealing with an operation keeps the lists economical. -/
theorem dealt {front : List Operation} {l l' : Ledger}
    (h : Remembering (front ++ l.out) l.known) (hd : Dealt op l l') :
    Remembering (front ++ l'.out) l'.known := by
  cases hd with
  | aliased | spared => exact h
  | @written op' hop hcode hresult =>
    rw [← List.append_assoc]
    refine h.append_unremembered fun hpure => ?_
    rw [hcode, hresult]
    exact hop (hcode ▸ hpure)
  | @computed ks r id hcopy hr hnone hfold =>
    have hkey : ∀ key, Operation.key? {op with args := ks} = some key →
        Rewrite.keyOf op ks r = key := by
      intro key hkey
      unfold Operation.key? at hkey
      split at hkey
      · rw [hr] at hkey
        exact Option.some.inj hkey
      · cases hkey
    rw [← List.append_assoc]
    refine h.append hcopy (fun _ => hfold) (fun key hk => ?_) fun key hk => ?_
    · rw [← hkey key hk, Bindings.get?_set, if_pos rfl]
      exact ⟨hnone, nofun⟩
    · rw [Bindings.get?_set]
      split
      · exact nofun
      · exact hk

theorem deals {front : List Operation} {l l' : Ledger}
    (h : Remembering (front ++ l.out) l.known) (hd : Deals ops l l') :
    Remembering (front ++ l'.out) l'.known := by
  induction hd with
  | nil => exact h
  | cons hop _ ih => exact ih (h.dealt hop)

end Remembering

/-- The operations of the preamble, if there is one, and those of the list that goes round. -/
def Loop.written (l : Loop) : List Operation :=
  (l.preamble.map (·.ops)).getD [] ++ l.ops

namespace Config
open Optimizer

/-- The loop has no copies, makes no computation twice, be it in the preamble and again in the
list that goes round, and leaves nothing to compute that is known beforehand. -/
theorem computed_once {c : Config} {t : Trace} {l : Loop} (hrewrite : c.rewrite = true)
    (hvirtual : c.virtualize = false) (ht : t.Drawn) (h : c.optimizeLoop t = .ok l) :
    Economical l.written ∧ ∀ p, l.preamble = some p → ∀ op ∈ p.ops, ∀ op' ∈ l.ops,
      op.key?.isSome = true → op'.key? ≠ op.key? := by
  have hbehind : c.behind = [.rewrite] := by simp [behind, hrewrite, hvirtual]
  obtain ⟨-, o', hrun, rfl⟩ := run_of_ok h
  have hbegin : Remembering ([] ++ (c.begin t).ledger.out) (c.begin t).ledger.known :=
    remembering_nil _
  have hwritten : Economical (o'.loop t.name).written := by
    cases dealtWith_of_run hbehind ht hrun with
    | straight hpreamble hdeals =>
      have hend := hbegin.deals hdeals
      show Economical ((o'.preamble.map (·.ops)).getD [] ++ o'.out.toList)
      rw [hpreamble]
      exact hend.economical
    | @peeled body again jump l added o _ _ _ hdeals hlooped =>
      obtain ⟨last, hlast, hledger⟩ := hlooped.ends
      obtain ⟨exit, hexit, hpreamble⟩ := hlooped.preamble
      have hfinal : ∀ {op : Operation}, op.opcode = .jump → op.Unremembered := fun hop =>
        Operation.unremembered_of_isFinal (by rw [hop]; rfl)
      have hfirst := hbegin.deals hdeals
      -- What the preamble computes is still remembered when the list that goes round begins.
      have hturn : Remembering (o.ledger.out ++ [exit] ++ []) o.ledger.known := by
        rw [List.append_nil]
        exact hfirst.append_unremembered (hfinal hexit)
      have hend := (hturn.deals hlooped.deals).append_unremembered (hfinal hlast)
      show Economical ((o'.preamble.map (·.ops)).getD [] ++ o'.ledger.out)
      rw [hpreamble, hledger]
      simpa using hend.economical
  refine ⟨hwritten, fun p hp op hop op' hop' hsome hsame => ?_⟩
  obtain ⟨key, hkey⟩ := Option.isSome_iff_exists.1 hsome
  have honce := hwritten.once
  rw [Loop.written, hp, Option.map_some, Option.getD_some, List.filterMap_append,
    List.nodup_append] at honce
  exact honce.2.2 key (List.mem_filterMap.2 ⟨op, hop, hkey⟩) key
    (List.mem_filterMap.2 ⟨op', hop', hsame.trans hkey⟩) rfl

/-- The multiple that `scaling` counts on by is computed in the preamble alone. -/
theorem scaling_computed_once : ∃ l, optimizeLoop { virtualize := false } scaling = .ok l ∧
    l.isPeeled = true ∧ l.written.countP (·.opcode == .intMul) = 1 ∧ Economical l.written := by
  obtain ⟨l, hl, hmore⟩ : ∃ l, optimizeLoop { virtualize := false } scaling = .ok l ∧
      (l.isPeeled && l.written.countP (·.opcode == .intMul) == 1) = true :=
    exists_ok_of_any (by decide +kernel)
  rw [Bool.and_eq_true, beq_iff_eq] at hmore
  exact ⟨l, hl, hmore.1, hmore.2, (computed_once rfl rfl (by decide : scaling.Drawn) hl).1⟩

end Config
end TracePeel
