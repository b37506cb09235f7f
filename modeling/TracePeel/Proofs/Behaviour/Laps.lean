import TracePeel.Proofs.Behaviour.Honesty
import TracePeel.Proofs.Compiled

/-! Lap by lap.

A lap ends where a guard fails or where the list ends, and only at the jump back another
begins. So two lists that go round do the same for any number of laps if each lap of one
is left as the lap of the other is, or both go on from points that are related again. -/
namespace TracePeel

/-- The values that a lap begins with are of the kinds of the inputs. -/
def Point.Fits (p : Point) (inputs : List Box) : Prop :=
  p.values.map (·.kind) = inputs.map (·.kind)

namespace Env
variable {inputs : List Box}

theorem kinds_enter {values : List Const}
    (h : values.map (·.kind) = inputs.map (·.kind)) : (enter inputs values).Kinds := by
  intro b
  unfold enter
  cases hb : (Bindings.ofList (inputs.zip values)).get? b with
  | none => exact Const.kind_zero b.kind
  | some c =>
    have hmem := (Bindings.get?_foldl.1 b c hb).resolve_right (by rintro ⟨⟩)
    obtain ⟨i, hi, he⟩ := List.mem_iff_getElem.1 hmem
    rw [List.getElem_zip, Prod.mk.injEq] at he
    rw [List.length_zip] at hi
    have hkind := List.getElem_of_eq h (i := i) (by rw [List.length_map]; omega)
    rw [List.getElem_map, List.getElem_map, he.1, he.2] at hkind
    exact hkind

/-- Inputs that are handed what they hold hold it. -/
theorem enter_map (hn : inputs.Nodup) (V : Env) {b : Box} (hb : b ∈ inputs) :
    enter inputs (inputs.map V) b = V b := by
  obtain ⟨i, hi, rfl⟩ := List.mem_iff_getElem.1 hb
  have hget : (Bindings.ofList (inputs.zip (inputs.map V))).get? inputs[i] = some (V inputs[i]) := by
    refine (Bindings.get?_ofList ?_).2 (List.mem_iff_getElem.2 ⟨i, by simpa using hi, by simp⟩)
    rwa [List.map_fst_zip (by simp)]
  rw [enter, hget]
  rfl

/-- And what is handed over is what they hold. -/
theorem map_enter (hn : inputs.Nodup) {values : List Const}
    (hlen : values.length = inputs.length) : inputs.map (enter inputs values) = values := by
  refine List.ext_getElem (by simp [hlen]) fun i hi hi' => ?_
  rw [List.length_map] at hi
  have hget : (Bindings.ofList (inputs.zip values)).get? inputs[i] = some values[i] := by
    refine (Bindings.get?_ofList ?_).2
      (List.mem_iff_getElem.2 ⟨i, by simpa using ⟨hi, hi'⟩, by simp⟩)
    rwa [List.map_fst_zip (Nat.le_of_eq hlen.symm)]
  rw [List.getElem_map, enter, hget]
  rfl

end Env

namespace World
variable {w : World} {V V' : Env} {token : LoopToken}

/-- A list that holds no final operation is not left by a jump back. -/
theorem again?_of_runAt {ops : List Operation} {defined : List Box} (h : Accepts defined ops)
    {s : Course} {e : Exit} (he : w.runAt V ops s = .error e) (token : LoopToken) :
    e.again? token = none := by
  induction ops generalizing defined s with
  | nil => cases he
  | cons op ops ih =>
    obtain ⟨_, hfinal, hrest⟩ := h
    unfold runAt at he
    cases hs : w.outcome V op s with
    | ok s' =>
      rw [hs] at he
      exact ih hrest he
    | error e' =>
      rw [hs] at he
      cases he
      unfold outcome at hs
      split at hs
      next hguard =>
        split at hs
        · cases hs
        · cases hs
          refine if_neg fun hjump => ?_
          have hopcode : op.opcode = .jump := hjump.1
          rw [Operation.isGuard, hopcode] at hguard
          cases hguard
      next =>
        rw [hfinal] at hs
        cases hs

/-! ### Two lists that go round -/

/-- Two laps are left in the same way, or go on from related points. -/
inductive Together (token : LoopToken) (R : Point → Point → Prop) :
    Except Exit (Env × Course) → Except Exit (Env × Course) → Prop
  | left {e : Exit} : e.again? token = none → Together token R (.error e) (.error e)
  | onward {e e' : Exit} {p p' : Point} : e.again? token = some p → e'.again? token = some p' →
      R p p' → Together token R (.error e) (.error e')

section
variable {inputs inputs' : List Box} {ops ops' : List Operation} {p p' : Point}

/-- What comes after the laps decides. -/
theorem Together.around {R : Point → Point → Prop} {f g : Point → Except Exit Point}
    (h : Together token R (w.lap inputs ops p) (w.lap inputs' ops' p'))
    (hfg : ∀ q q', R q q' → (f q).map (·.course) = (g q').map (·.course)) :
    (w.around token inputs ops f p).map (·.course) =
      (w.around token inputs' ops' g p').map (·.course) := by
  unfold World.around
  generalize w.lap inputs ops p = x, w.lap inputs' ops' p' = y at h
  cases h with
  | left hnone => simp only [hnone]
  | onward hp hp' hR =>
    simp only [hp, hp']
    exact hfg _ _ hR

/-- Lists whose laps go together do the same for any number of laps. -/
theorem laps_together {R : Nat → Point → Point → Prop}
    (hcourse : ∀ p p', R 0 p p' → p.course = p'.course)
    (h : ∀ n p p', R (n + 1) p p' →
      Together token (R n) (w.lap inputs ops p) (w.lap inputs' ops' p'))
    {n : Nat} (hR : R n p p') :
    (w.laps token inputs ops n p).map (·.course) =
      (w.laps token inputs' ops' n p').map (·.course) := by
  induction n generalizing p p' with
  | zero => exact congrArg Except.ok (hcourse p p' hR)
  | succ n ih => exact (h n p p' hR).around fun _ _ => ih

/-- Laps that run a list with the same outcome and end in jumps back that hand over related
points. -/
theorem together_of_jumps {R : Point → Point → Prop} {x : Except Exit Course}
    {f g : Course → Exit} (hleft : ∀ e, x = .error e → e.again? token = none)
    (hjump : ∀ s, x = .ok s → ∃ q q', (f s).again? token = some q ∧
      (g s).again? token = some q' ∧ R q q') :
    Together token R (x >>= fun s => .error (f s)) (x >>= fun s => .error (g s)) := by
  cases x with
  | error e => exact .left (hleft e rfl)
  | ok s =>
    obtain ⟨q, q', hq, hq', hR⟩ := hjump s rfl
    exact .onward hq hq' hR

end

/-- What a jump back hands over. -/
theorem again?_leave {op : Operation} (hop : op.opcode = .jump) (htoken : op.token? = some token)
    (s : Course) : (leave V op s).again? token = some ⟨op.args.map V.value, s⟩ :=
  if_pos ⟨hop, htoken⟩

end World

/-- A lap in an environment that explains it. -/
theorem Trace.Split.lap {t : Trace} {body : List Operation} {last : Operation}
    (h : t.Split body last) {w : World} {V : Env} {p : Point}
    (hV : ∀ b ∈ t.inputs, Env.enter t.inputs p.values b = V b)
    (he : w.Explains V body p.course) :
    w.lap t.inputs t.ops p =
      w.runAt V body p.course >>= fun s => .error (World.leave V last s) := by
  unfold World.lap
  rw [h.ops]
  exact World.run_final h.accepts h.fits h.lands.isFinal hV he

end TracePeel
