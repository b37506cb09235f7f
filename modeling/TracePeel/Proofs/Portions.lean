import TracePeel.Proofs.Peeling.Recasting
import TracePeel.Proofs.Releasing
import TracePeel.Proofs.Sealing

/-! Where the operations of a list come from.

A list that was written falls into portions: an operation that was sent, and in front of it
what was forced when it came. What is forced is not any allocation or field write, but what
forcing writes for objects that the state held back in which the operation was sent
(`Supplies`). `Attributed` says so of a list, with the place that each operation comes from:
only guards, pure operations and accesses to objects held back may have none. -/
namespace TracePeel

/-- A piece of a list: the operation written for the one at a place, behind what was forced
for it. -/
structure Portion where
  place : Nat
  forced : List Operation
  op : Operation

def Portion.ops (p : Portion) : List Operation :=
  p.forced ++ [p.op]

/-- Where the operations of a list come from: its portions are written for operations of
another list, in their order, and what was forced in front of them is supplied. Only what may
vanish has no portion. -/
structure Attributed (written : Nat → Operation → Operation → Prop)
    (supplied : Nat → List Operation → Prop) (ops : List Operation) (portions : List Portion) :
    Prop where
  ordered : (portions.map (·.place)).Pairwise (· < ·)
  written : ∀ p ∈ portions, ∃ op, ops[p.place]? = some op ∧ written p.place op p.op
  supplied : ∀ p ∈ portions, supplied p.place p.forced
  complete : ∀ k op, ops[k]? = some op → op.opcode.mayVanish = false →
    ∃ p ∈ portions, p.place = k

namespace Attributed
variable {written written' : Nat → Operation → Operation → Prop}
  {supplied supplied' : Nat → List Operation → Prop} {ops : List Operation}
  {portions : List Portion}

theorem nil : Attributed written supplied [] [] where
  ordered := .nil
  written _ hmem := absurd hmem List.not_mem_nil
  supplied _ hmem := absurd hmem List.not_mem_nil
  complete k _ hop := by
    rw [List.getElem?_nil] at hop
    cases hop

theorem mono (hw : ∀ k op op', ops[k]? = some op → written k op op' → written' k op op')
    (hs : ∀ k forced, supplied k forced → supplied' k forced)
    (h : Attributed written supplied ops portions) :
    Attributed written' supplied' ops portions where
  ordered := h.ordered
  written p hp := (h.written p hp).imp fun op hop => ⟨hop.1, hw _ op _ hop.1 hop.2⟩
  supplied p hp := hs _ _ (h.supplied p hp)
  complete := h.complete

theorem lt_length (h : Attributed written supplied ops portions) {p : Portion}
    (hp : p ∈ portions) : p.place < ops.length := by
  obtain ⟨op, hop, -⟩ := h.written p hp
  exact (List.getElem?_eq_some_iff.1 hop).1

/-- What holds at the places that there were, and at one behind. -/
theorem complete_snoc {op : Operation}
    (hcomplete : ∀ k op, ops[k]? = some op → op.opcode.mayVanish = false →
      ∃ p ∈ portions, p.place = k)
    (hlast : op.opcode.mayVanish = false → ∃ p ∈ portions, p.place = ops.length) :
    ∀ k op', (ops ++ [op])[k]? = some op' → op'.opcode.mayVanish = false →
      ∃ p ∈ portions, p.place = k := by
  intro k op' hk hvanish
  rcases Nat.lt_or_ge k ops.length with hlt | hge
  · rw [List.getElem?_append_left hlt] at hk
    exact hcomplete k op' hk hvanish
  · have hlen := (List.getElem?_eq_some_iff.1 hk).1
    obtain rfl : k = ops.length := by
      rw [List.length_append, List.length_singleton] at hlen
      omega
    rw [List.getElem?_concat_length] at hk
    cases hk
    exact hlast hvanish

theorem written_append (h : Attributed written supplied ops portions) (more : List Operation)
    {p : Portion} (hp : p ∈ portions) :
    ∃ op, (ops ++ more)[p.place]? = some op ∧ written p.place op p.op := by
  rw [List.getElem?_append_left (h.lt_length hp)]
  exact h.written p hp

/-- An operation vanished. -/
theorem vanish (h : Attributed written supplied ops portions) {op : Operation}
    (hop : op.opcode.mayVanish = true) : Attributed written supplied (ops ++ [op]) portions where
  ordered := h.ordered
  written _ hp := h.written_append [op] hp
  supplied := h.supplied
  complete := complete_snoc h.complete fun hno => by
    rw [hop] at hno
    cases hno

/-- An operation is written behind the list. -/
theorem write (h : Attributed written supplied ops portions) {op op' : Operation}
    {forced : List Operation} (hforced : supplied ops.length forced)
    (hw : written ops.length op op') :
    Attributed written supplied (ops ++ [op]) (portions ++ [⟨ops.length, forced, op'⟩]) := by
  refine ⟨?_, fun p hp => ?_, fun p hp => ?_, complete_snoc (fun k op hk hvanish => ?_) fun _ => ?_⟩
  · rw [List.map_append, List.pairwise_append]
    refine ⟨h.ordered, List.pairwise_singleton .., fun k hk j hj => ?_⟩
    obtain ⟨p, hp, rfl⟩ := List.mem_map.1 hk
    cases List.mem_singleton.1 hj
    exact h.lt_length hp
  · rcases List.mem_append.1 hp with hp | hp
    · exact h.written_append [op] hp
    · cases List.mem_singleton.1 hp
      exact ⟨op, List.getElem?_concat_length .., hw⟩
  · rcases List.mem_append.1 hp with hp | hp
    · exact h.supplied p hp
    · cases List.mem_singleton.1 hp
      exact hforced
  · obtain ⟨p, hp, hk⟩ := h.complete k op hk hvanish
    exact ⟨p, List.mem_append_left _ hp, hk⟩
  · exact ⟨_, List.mem_append_right _ (List.mem_singleton_self _), rfl⟩

end Attributed

/-- The operation with what it reads replaced by what it stands for, and its result by its
name. -/
structure Operation.Restates (name stands : Box → Operand) (op op' : Operation) : Prop where
  opcode : op'.opcode = op.opcode
  args : op'.args = op.args.map (·.mapBox stands)
  failArgs : op'.failArgs = op.failArgs.map (·.map (·.mapBox stands))
  result : op'.result.map .box = op.result.map name
  descr : op.guard? = none → op'.descr = op.descr

/-- A copy of an operation is restated as the operation is. -/
theorem Operation.Restates.of_mapped {s stands : Box → Operand} {op op₁ op' : Operation}
    (h : op₁.Restates .box stands op') (hm : op.Mapped s op₁) :
    op.Restates s (fun b => (s b).mapBox stands) op' := by
  have hguard : op.guard? = none → op₁.guard? = none := by
    intro hno
    have := hm.guarded
    rw [hno] at this
    exact Option.isNone_iff_eq_none.1 (Option.isSome_eq_false_iff.1 this)
  refine ⟨h.opcode.trans hm.opcode, ?_, ?_, h.result.trans hm.result, fun hno =>
    (h.descr (hguard hno)).trans (hm.descr hno)⟩
  · rw [h.args, hm.args, Operand.map_mapBox_mapBox]
  · rw [h.failArgs, hm.failArgs, Option.map_map]
    exact congrArg (fun f => op.failArgs.map f) (funext (Operand.map_mapBox_mapBox _ _))

/-- What is written when objects are forced that a table holds back, one after the other.
`source` are the operations that allocate them and write their fields. Without allocation removal
there are none. -/
structure Supplies (c : Config) (source : List Operation) (v : Values) (forced : List Operation) :
    Prop where
  held : ∃ ids, (∀ id ∈ ids, (v.slot id).isVirtual = true) ∧
    forced = (Values.forceEach ids (v, #[])).2.toList
  source : ∀ op ∈ forced, op.SuppliedBy source
  enabled : forced ≠ [] → c.virtualize = true

theorem Supplies.mono {c : Config} {source source' : List Operation} {v : Values}
    {forced : List Operation} (hsub : source ⊆ source') (h : Supplies c source v forced) :
    Supplies c source' v forced :=
  ⟨h.held, fun op hop => (h.source op hop).mono hsub, h.enabled⟩

/-- What is forced produces nothing that the operations do not. -/
theorem Supplies.results_subset {c : Config} {source : List Operation} {v : Values}
    {forced : List Operation} (h : Supplies c source v forced) :
    results forced ⊆ results source := by
  intro r hr
  obtain ⟨f, hf, hresult⟩ := mem_results.1 hr
  exact (h.source f hf).result_mem hresult

namespace Optimizer
variable {c : Config} {source sent : List Operation} {o o' : Optimizer} {op : Operation}

theorem guard?_relinkDescr (op : Operation) (map : Box → Operand) (s : Relinker.Supply) :
    (op.guard? = none → (relinkDescr map s op.descr).1 = op.descr) ∧
      ({op with descr := (relinkDescr map s op.descr).1} : Operation).guard?.map Prod.fst =
        op.guard?.map Prod.fst := by
  unfold Operation.guard? relinkDescr
  cases op.descr with
  | none => exact ⟨fun _ => rfl, rfl⟩
  | some d =>
    cases d with
    | guard => exact ⟨fun h => (nomatch h), rfl⟩
    | loop | field | size => exact ⟨fun _ => rfl, rfl⟩

theorem writes_restates (o : Optimizer) (op : Operation) :
    op.Restates .box o.standsFor (o.writes op) ∧
      (o.writes op).guard?.map Prod.fst = op.guard?.map Prod.fst := by
  obtain ⟨hdescr, hnumber⟩ := guard?_relinkDescr op o.standsFor o.supply
  exact ⟨⟨rfl, rfl, rfl, rfl, hdescr⟩, hnumber⟩

theorem standsFor_congr (h : o'.values = o.values) : o'.standsFor = o.standsFor := by
  funext b
  unfold standsFor
  rw [h]

/-! ### What is forced -/

/-- All that was written since a state comes of forcing objects of that state, which some
operations allocate and write to. -/
structure Gathers (source : List Operation) (o : Optimizer) (ids : List ValueId) (o' : Optimizer) :
    Prop extends Releases o ids o' where
  source : ∀ f ∈ (Values.forceEach ids (o.values, #[])).2.toList, f.SuppliedBy source

namespace Gathers
variable {ids ids' : List ValueId} {o₁ o₂ : Optimizer}

/-- Only the list and the table matter. -/
theorem congr (h : Gathers source o ids o₁) (hout : o₂.out = o₁.out)
    (hvalues : o₂.values = o₁.values) : Gathers source o ids o₂ :=
  ⟨h.widens hout (hvalues ▸ .refl _), h.source⟩

theorem trans (h₁ : Gathers source o ids o₁) (h₂ : Gathers source o₁ ids' o₂) (hi : o.Intact) :
    Gathers source o (ids ++ ids') o₂ := by
  have hboth := h₁.toReleases.trans h₂.toReleases hi
  refine ⟨hboth, fun f hf => ?_⟩
  have hout := hboth.out
  rw [h₂.out, h₁.out, List.append_assoc] at hout
  rw [← List.append_cancel_left hout] at hf
  exact (List.mem_append.1 hf).elim (h₁.source f) (h₂.source f)

theorem supplies (h : Gathers source o ids o₁) (hu : c.virtualize = false → o.values.Unheld) :
    Supplies c source o.values (Values.forceEach ids (o.values, #[])).2.toList := by
  refine ⟨⟨ids, h.held, rfl⟩, h.source, fun hne => ?_⟩
  by_contra hoff
  have hout := h.out
  rw [h.idle (hu (Bool.eq_false_iff.2 hoff))] at hout
  exact hne (List.self_eq_append_right.1 hout)

end Gathers

/-- Where all that is written was supplied, it comes of forcing objects. -/
theorem Releases.gathers {ids : List ValueId} (h : Releases o ids o')
    (hsupplied : ∃ forced, o'.out.toList = o.out.toList ++ forced ∧
      ∀ f ∈ forced, f.SuppliedBy source) : Gathers source o ids o' := by
  obtain ⟨forced, hout, hforced⟩ := hsupplied
  refine ⟨h, ?_⟩
  rwa [← List.append_cancel_left (hout.symm.trans h.out)]

/-- What becomes of an operation that comes next: it vanishes, or it is written as the state
writes it in which it was sent, behind what objects write that this state holds back. -/
theorem Handled.gathers {stale : ValueId → Prop} {seen : Box → Prop}
    (h : Handled c.behind op o o') (hi : o.Intact) (ho : o.Sealed stale seen source)
    (hop : Expects stale seen source op o) (hunmet : Unmet op o) :
    Stays stale seen source o o' ∧ (op.opcode.mayVanish = true ∧ o'.out = o.out ∨ ∃ ids o₁,
      Gathers source o ids o₁ ∧ o'.out = o₁.out.push (o.writes op) ∧
        (op.isGuard = false → o'.values = o₁.values)) := by
  obtain ⟨hstays, hsent⟩ := h.sends hi ho hop hunmet
  refine ⟨hstays, hsent.imp_right ?_⟩
  rintro ⟨forced, hforced, hout⟩
  rcases (settled_handled _ _ _ _ hi h).2.releases hi with hlist | ⟨ids, o₁, hr, hpush, hvalues⟩
  · rw [hlist.out] at hout
    simp at hout
  · rw [hpush, Array.toList_push] at hout
    exact ⟨ids, o₁, hr.gathers ⟨forced, (List.append_inj' hout rfl).1, hforced⟩, hpush, hvalues⟩

/-! ### Operations that are sent -/

/-- Where the operations of a list come from that was written for some operations, each sent
in the state at its place. -/
def Told (c : Config) (states : Nat → Optimizer) (sent : List Operation)
    (portions : List Portion) : Prop :=
  Attributed (fun k op op' => op.Restates .box (states k).standsFor op' ∧
      op'.guard?.map Prod.fst = op.guard?.map Prod.fst)
    (fun k => Supplies c sent (states k).values) sent portions

variable {states : Nat → Optimizer} {portions : List Portion}

/-- One more operation is sent. -/
theorem Told.step (h : Told c states sent portions)
    (hlist : portions.flatMap (·.ops) = o.out.toList)
    (hstate : (states sent.length).values = o.values)
    (hu : c.virtualize = false → o.values.Unheld)
    (hs : op.opcode.mayVanish = true ∧ o'.out = o.out ∨ ∃ ids o₁,
      Gathers (sent ++ [op]) o ids o₁ ∧ o'.out = o₁.out.push (o.writes op) ∧
        (op.isGuard = false → o'.values = o₁.values)) :
    ∃ portions', Told c states (sent ++ [op]) portions' ∧
      portions'.flatMap (·.ops) = o'.out.toList := by
  have hsupplied : ∀ k forced, Supplies c sent (states k).values forced →
      Supplies c (sent ++ [op]) (states k).values forced :=
    fun _ _ hforced => hforced.mono (List.subset_append_left _ _)
  have hbefore := h.mono (fun _ _ _ _ => id) hsupplied
  rcases hs with ⟨hvanish, hout⟩ | ⟨ids, o₁, hgathers, hout, -⟩
  · exact ⟨portions, hbefore.vanish hvanish, hout ▸ hlist⟩
  · have hwritten := writes_restates o op
    rw [← standsFor_congr hstate] at hwritten
    have hforced := hgathers.supplies hu
    rw [← hstate] at hforced
    refine ⟨_, hbefore.write hforced hwritten, ?_⟩
    rw [List.flatMap_append, hlist, hout, Array.toList_push, hgathers.out, hstate]
    simp [Portion.ops]

/-- What a list produces was produced by the operations that were sent. -/
theorem Told.results (h : Told c states sent portions) :
    TracePeel.results (portions.flatMap (·.ops)) ⊆ TracePeel.results sent := by
  intro r hr
  obtain ⟨op', hop', hr'⟩ := mem_results.1 hr
  obtain ⟨p, hp, hop'⟩ := List.mem_flatMap.1 hop'
  rcases List.mem_append.1 hop' with hforced | hwritten
  · exact ((h.supplied p hp).source op' hforced).result_mem hr'
  · cases List.mem_singleton.1 hwritten
    obtain ⟨op, hop, hw, -⟩ := h.written p hp
    have hresult := hw.result
    rw [hr'] at hresult
    obtain ⟨r', hr', he⟩ := Option.map_eq_some_iff.1 hresult.symm
    cases he
    exact mem_results.2 ⟨op, List.mem_of_getElem? hop, hr'⟩

/-- What was written for copies of some operations was written for those. -/
theorem Told.of_mapped {s : Box → Operand} {ops casts : List Operation}
    (h : Told c states casts portions) (hm : List.Forall₂ (Operation.Mapped s) ops casts) :
    Attributed (fun k => Operation.Restates s fun b => (s b).mapBox (states k).standsFor)
      (fun k => Supplies c casts (states k).values) ops portions := by
  refine ⟨h.ordered, fun p hp => ?_, h.supplied, fun k op hop hvanish => ?_⟩
  · obtain ⟨op₁, hop₁, hw, -⟩ := h.written p hp
    have hk : p.place < ops.length := hm.length_eq ▸ h.lt_length hp
    have hop := List.getElem?_eq_getElem hk
    exact ⟨ops[p.place], hop, hw.of_mapped (rel_of_getElem? hm hop hop₁)⟩
  · have hk : k < casts.length := hm.length_eq ▸ (List.getElem?_eq_some_iff.1 hop).1
    have hop₁ := List.getElem?_eq_getElem hk
    exact h.complete k _ hop₁ (by rw [(rel_of_getElem? hm hop hop₁).opcode]; exact hvanish)

end Optimizer
end TracePeel
