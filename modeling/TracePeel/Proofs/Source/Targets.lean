import TracePeel.Proofs.Source.Accepting

/-! Where the jumps of a dump go.

A dump writes the loop itself under its name and every other loop under a name made from its
number. As long as no other loop is written under the name of the trace, the jumps that are
read from a dump go where those go that were written (`Trace.targets_read_back`). A name of
that form can be given to a trace, though, and then a jump elsewhere is read as one to the
trace itself (`Trace.targets_not_always_read_back`). -/
namespace TracePeel

namespace Trace

/-- The loop that the `k`-th operation jumps to. -/
def target? (t : Trace) (k : Nat) : Option LoopToken :=
  t.ops[k]?.bind fun op => if op.opcode = .jump then op.token? else none

/-- The same operations jump, those that jump to the trace itself go on to do so, and two jumps
have one target in both traces or in none. -/
structure SameTargets (t t' : Trace) : Prop where
  jumps : ∀ k, (t.target? k).isSome = (t'.target? k).isSome
  own : ∀ k, t.target? k = some t.token ↔ t'.target? k = some t'.token
  others : ∀ j k, t.target? j = t.target? k ↔ t'.target? j = t'.target? k

theorem target?_mem {t : Trace} {k : Nat} {token : LoopToken} (h : t.target? k = some token) :
    token ∈ loopTokens t.ops := by
  obtain ⟨op, hop, htoken⟩ := Option.bind_eq_some_iff.1 h
  split at htoken
  · exact List.mem_filterMap.2 ⟨op, List.mem_of_getElem? hop, htoken⟩
  · cases htoken

/-- Renaming the loops keeps the targets as long as it keeps different loops apart. -/
theorem sameTargets_of_map {t t' : Trace} {g : LoopToken → LoopToken}
    (hmap : ∀ k, t'.target? k = (t.target? k).map g) (hown : g t.token = t'.token)
    (hinj : Set.InjOn g {k | k = t.token ∨ k ∈ loopTokens t.ops}) : t.SameTargets t' where
  jumps k := by rw [hmap, Option.isSome_map]
  own k := by
    rw [hmap, Option.map_eq_some_iff, ← hown]
    constructor
    · intro h
      exact ⟨_, h, rfl⟩
    · rintro ⟨token, htarget, he⟩
      rwa [← hinj (.inr (target?_mem htarget)) (.inl rfl) he]
  others j k := by
    rw [hmap, hmap]
    constructor
    · exact congrArg (Option.map g)
    · intro h
      cases hj : t.target? j with
      | none =>
        rw [hj] at h
        exact (Option.map_eq_none_iff.1 h.symm).symm
      | some a =>
        rw [hj, Option.map_some] at h
        obtain ⟨b, hk, he⟩ := Option.map_eq_some_iff.1 h.symm
        rw [hk, hinj (.inr (target?_mem hk)) (.inr (target?_mem hj)) he]

/-- Where no loop that the trace jumps to is written under its name, the jumps read from the
dump of a trace that was read go where those of the trace go. -/
theorem targets_read_back {source : String} {t t' : Trace} (h : Trace.parse source = .ok t)
    (hforeign : ∀ k ∈ loopTokens t.ops, k ≠ t.token → k.text ≠ t.name)
    (h' : Trace.parse t.dump = .ok t') : t.SameTargets t' := by
  have ht := accepted_of_parse h
  obtain ⟨loops, hback⟩ := (parse_dump ht.name ht.inputs ht.legible {}).2 t' h'
  let f := numbered (t.inputs ++ results t.ops)
  have hops : List.Forall₂ (fun op op' => op'.opcode = op.opcode ∧
      op'.token? = op.token?.map (Dump.readLoop ⟨t.name, t.token, {}⟩ loops)) t.ops t'.ops :=
    forall₂_readAll hback.ops fun op _ n op' hread => ⟨hread.opcode, hread.token?⟩
  refine sameTargets_of_map (fun k => ?_) hback.readLoop_token (hback.readLoop_injOn hforeign)
  obtain ⟨hlength, hget⟩ := List.forall₂_iff_get.1 hops
  by_cases hk : k < t.ops.length
  · obtain ⟨hopcode, htoken⟩ := hget k hk (hlength ▸ hk)
    simp only [List.get_eq_getElem] at hopcode htoken
    simp only [target?, List.getElem?_eq_getElem hk, List.getElem?_eq_getElem (hlength ▸ hk),
      Option.bind_some, hopcode, htoken]
    split <;> rfl
  · have hk' : t'.ops.length ≤ k := hlength ▸ Nat.le_of_not_lt hk
    rw [target?, target?, List.getElem?_eq_none (Nat.le_of_not_lt hk), List.getElem?_eq_none hk']
    rfl

/-- A jump to another loop, in a trace that has a name of its own. -/
theorem targets_read_back_named : ∃ t t',
    Trace.parse "loop Main\n[i0]\njump(i0, descr=Loop1)\n" = .ok t ∧
    Trace.parse t.dump = .ok t' ∧ t.target? 0 ≠ some t.token ∧ t.SameTargets t' := by
  obtain ⟨t, ht, hall⟩ : ∃ t, Trace.parse "loop Main\n[i0]\njump(i0, descr=Loop1)\n" = .ok t ∧
      (decide (∀ k ∈ loopTokens t.ops, k ≠ t.token → k.text ≠ t.name) &&
        decide (t.target? 0 ≠ some t.token) && (Trace.parse t.dump).toOption.any fun _ => true) =
        true :=
    exists_ok_of_any (by decide +kernel)
  simp only [Bool.and_eq_true, decide_eq_true_eq] at hall
  obtain ⟨⟨hforeign, hother⟩, hback⟩ := hall
  obtain ⟨t', ht', -⟩ := exists_ok_of_any hback
  exact ⟨t, t', ht, ht', hother, targets_read_back ht hforeign ht'⟩

/-- A loop that is written under the name of the trace is read as the trace itself. -/
theorem targets_not_always_read_back : ¬∀ source t t', Trace.parse source = .ok t →
    Trace.parse t.dump = .ok t' → t.SameTargets t' := by
  intro hall
  obtain ⟨t, ht, hread⟩ : ∃ t, Trace.parse "loop Loop1\n[i0]\njump(descr=Foo)\n" = .ok t ∧
      (decide (t.target? 0 ≠ some t.token) && (Trace.parse t.dump).toOption.any fun t' =>
        decide (t'.target? 0 = some t'.token)) = true :=
    exists_ok_of_any (by decide +kernel)
  simp only [Bool.and_eq_true, decide_eq_true_eq] at hread
  obtain ⟨hother, hback⟩ := hread
  obtain ⟨t', ht', hown⟩ := exists_ok_of_any hback
  exact hother (((hall _ t t' ht ht').own 0).2 (of_decide_eq_true hown))

end Trace
end TracePeel
