import TracePeel.Proofs.Completed
import TracePeel.Proofs.Peeling.Recasting

/-! What a guard leaves for resuming keeps its shape.

A guard lists what must be alive where it leaves, and holds the chain of the frames to
resume. When it is written, each entry is replaced by what it stands for at that time; a
frame that an earlier guard holds as well was rebuilt for that guard and is shared, so its
entries are what they stood for then. `Guarding` says this of a whole list, and
`Trace.Guarded` adds that all that a guard names was there by the time at which it was sent. -/
namespace TracePeel

/-- In the next iteration each input is what the jump at the end hands over for it, and each
result in front of the jump a new box of its kind. -/
structure Trace.Renews (t : Trace) (s : Box → Operand) : Prop where
  handed : t.inputs.map s = (t.ops.getLast?.map (·.args)).getD []
  produced : ∃ fresh : List Box, (results t.ops.dropLast).map s = fresh.map .box ∧
    fresh.map (·.kind) = (results t.ops.dropLast).map (·.kind) ∧ fresh.Nodup ∧
    ∀ b ∈ fresh, t.pool.nextBox ≤ b.id

/-- A frame as it was rebuilt for the `j`-th operation of a list, which holds it: each entry is
what the entry in its place stood for when that operation was sent. -/
structure Frame.Rebuilt (stands : Nat → Box → Operand) (ops : List Operation) (j : Nat)
    (frame frame' : Frame) : Prop where
  held : ∃ holder, ops[j]? = some holder ∧ frame ∈ holder.snapshot
  entries : frame'.entries = frame.entries.map (·.mapBox (stands j))

/-- A guard that is written for the `k`-th operation of a list: what it tests and each of its
fail-args is what the source's stands for. Each of its frames was rebuilt for it, or for an
earlier guard that holds the frame too; `places` are those of the guards that were written. -/
structure Operation.Resumes (stands : Nat → Box → Operand) (ops : List Operation)
    (places : List Nat) (k : Nat) (op op' : Operation) : Prop where
  opcode : op'.opcode = op.opcode
  args : op'.args = op.args.map (·.mapBox (stands k))
  failArgs : op'.failArgs = op.failArgs.map (·.map (·.mapBox (stands k)))
  guarded : op'.guard?.isSome = op.guard?.isSome
  snapshot : List.Forall₂ (fun frame frame' => ∃ j ∈ places, j ≤ k ∧
    frame.Rebuilt stands ops j frame') op.snapshot op'.snapshot

/-- The guards of a written list, each with the place of the operation that it comes from. -/
structure Guarding (stands : Nat → Box → Operand) (ops list : List Operation)
    (kept : List (Nat × Operation)) : Prop where
  guards : kept.map Prod.snd = list.filter (·.isGuard)
  ordered : (kept.map Prod.fst).Pairwise (· < ·)
  resumes : ∀ p ∈ kept, ∃ op, ops[p.1]? = some op ∧
    op.Resumes stands ops (kept.map Prod.fst) p.1 p.2
  shares : ∀ p ∈ kept, ∀ q ∈ kept, ∀ op₁ op₂, ops[p.1]? = some op₁ → ops[q.1]? = some op₂ →
    Snapshot.SharesAs op₁.snapshot op₂.snapshot p.2.snapshot q.2.snapshot

/-- The guards of a list that was written for a trace. All that a guard names was an input or
produced before it, so each entry is what it stood for when it was there. -/
structure Trace.Guarded (t : Trace) (stands : Nat → Box → Operand) (list : List Operation)
    (kept : List (Nat × Operation)) : Prop extends Guarding stands t.ops list kept where
  known : ∀ p ∈ kept, ∀ op, t.ops[p.1]? = some op → ∀ b, .box b ∈ op.usedArgs →
    b ∈ t.inputs ++ results (t.ops.take p.1)

theorem Frame.Rebuilt.append {stands : Nat → Box → Operand} {ops : List Operation} {j : Nat}
    {frame frame' : Frame} (h : frame.Rebuilt stands ops j frame') (more : List Operation) :
    frame.Rebuilt stands (ops ++ more) j frame' := by
  obtain ⟨⟨holder, hop, hframe⟩, hentries⟩ := h
  refine ⟨⟨holder, ?_, hframe⟩, hentries⟩
  rw [List.getElem?_append_left (List.getElem?_eq_some_iff.1 hop).1, hop]

/-- More operations come behind, and more guards are written. -/
theorem Operation.Resumes.append {stands : Nat → Box → Operand} {ops : List Operation}
    {places places' : List Nat} {k : Nat} {op op' : Operation}
    (h : op.Resumes stands ops places k op') (hplaces : places ⊆ places')
    (more : List Operation) : op.Resumes stands (ops ++ more) places' k op' :=
  {h with
    snapshot := h.snapshot.imp fun _ _ ⟨j, hj, hle, hr⟩ => ⟨j, hplaces hj, hle, hr.append more⟩}

namespace Guarding
variable {stands : Nat → Box → Operand} {ops list : List Operation} {kept : List (Nat × Operation)}

/-- Only the guards of the list matter. -/
theorem congr (h : Guarding stands ops list kept) {list' : List Operation}
    (hlist : list'.filter (·.isGuard) = list.filter (·.isGuard)) : Guarding stands ops list' kept :=
  {h with guards := h.guards.trans hlist.symm}

theorem lt_length (h : Guarding stands ops list kept) {p : Nat × Operation} (hp : p ∈ kept) :
    p.1 < ops.length := by
  obtain ⟨op, hop, -⟩ := h.resumes p hp
  exact (List.getElem?_eq_some_iff.1 hop).1

theorem exists_kept (h : Guarding stands ops list kept) {g : Operation} (hg : g ∈ list)
    (hguard : g.isGuard = true) : ∃ p ∈ kept, p.2 = g := by
  refine List.mem_map.1 ?_
  rw [h.guards]
  exact List.mem_filter.2 ⟨hg, hguard⟩

/-- Nothing was written for the operations behind. -/
theorem append (h : Guarding stands ops list kept) (more : List Operation) :
    Guarding stands (ops ++ more) list kept where
  guards := h.guards
  ordered := h.ordered
  resumes p hp := by
    rw [List.getElem?_append_left (h.lt_length hp)]
    exact (h.resumes p hp).imp fun _ ⟨hop, hr⟩ => ⟨hop, hr.append (List.Subset.refl _) more⟩
  shares p hp q hq := by
    rw [List.getElem?_append_left (h.lt_length hp), List.getElem?_append_left (h.lt_length hq)]
    exact h.shares p hp q hq

/-- What an operation of a well-formed trace names is there when it comes. -/
theorem guarded {t : Trace} (h : Guarding stands t.ops list kept) (ht : t.verify = .ok ()) :
    t.Guarded stands list kept where
  toGuarding := h
  known _ _ _ hop _ hb := (Trace.fits_at ht hop).reads _ hb

end Guarding

namespace Optimizer
open Relinker

/-- Guards are the operations with a chain. -/
def Chained (op : Operation) : Prop :=
  op.isGuard = op.guard?.isSome

theorem chained {defined : List Box} {op : Operation} (hfits : op.Fits defined)
    (hplain : op.Plain) : Chained op := by
  unfold Chained
  cases hguard : op.isGuard with
  | true => exact (hfits.guarded hguard).1.symm
  | false => rw [(hplain hguard).2]; rfl

theorem guards_forcing {ops : List Operation} (h : ∀ op ∈ ops, op.isForcing = true) :
    ops.filter (·.isGuard) = [] := by
  rw [List.filter_eq_nil_iff]
  intro op hop
  have hf := h op hop
  unfold Operation.isForcing at hf
  unfold Operation.isGuard
  cases hcode : op.opcode <;> simp_all [Opcode.isGuard]

/-- A chain that is remembered: the frame of that number was rebuilt to the head of the chain,
for one of the guards that were written. -/
def Origin (T : FrameTable) (stands : Nat → Box → Operand) (sent : List Operation)
    (places : List Nat) (k : Nat) (chain : Snapshot) : Prop :=
  ∃ frame outer head outer', T k = some (frame :: outer) ∧ chain = head :: outer' ∧
    ∃ j ∈ places, frame.Rebuilt stands sent j head

/-- A guard that was written, and the operation that it was written for. Its frames have numbers
from `first` on. -/
structure Sourced (T : FrameTable) (first : Nat) (stands : Nat → Box → Operand)
    (sent : List Operation) (places : List Nat) (r : Relinker) (p : Nat × Operation)
    (op : Operation) : Prop where
  place : sent[p.1]? = some op
  resumes : op.Resumes stands sent places p.1 p.2
  remembers : r.Remembers op.snapshot p.2.snapshot
  chain : p.2.snapshot.In T
  fresh : ∀ frame ∈ p.2.snapshot, first ≤ frame.id

/-- The invariant while a list is written: `sent` was sent, `kept` are the guards written, and
the operation behind `j` others was sent where a box stood for `stands j`. The frames of the
list have numbers from `first` on. -/
structure Sinking (T : FrameTable) (own : Nat → Prop) (first : Nat) (stands : Nat → Box → Operand)
    (sent : List Operation) (o : Optimizer) (kept : List (Nat × Operation)) : Prop where
  sound : Sound (fun _ _ => True) T o.supply
  faithful : Faithful T own o.supply
  fresh : From first o.supply
  origins : ∀ k chain, o.sink.memo.get? k = some chain →
    Origin T stands sent (kept.map Prod.fst) k chain
  guards : kept.map Prod.snd = o.out.toList.filter (·.isGuard)
  ordered : (kept.map Prod.fst).Pairwise (· < ·)
  sources : ∀ p ∈ kept, ∃ op, Sourced T first stands sent (kept.map Prod.fst) o.sink p op

section
variable {T T' : FrameTable} {first : Nat} {stands : Nat → Box → Operand}
  {sent : List Operation} {places places' : List Nat}

theorem Origin.append {k : Nat} {chain : Snapshot} (h : Origin T stands sent places k chain)
    (hT : T.Extends T') (hplaces : places ⊆ places') (more : List Operation) :
    Origin T' stands (sent ++ more) places' k chain := by
  obtain ⟨frame, outer, head, outer', hk, hchain, j, hj, hr⟩ := h
  exact ⟨frame, outer, head, outer', hT _ _ hk, hchain, j, hplaces hj, hr.append more⟩

theorem Sourced.append {r r' : Relinker} {p : Nat × Operation} {op : Operation}
    (h : Sourced T first stands sent places r p op) (hT : T.Extends T')
    (hplaces : places ⊆ places') (hgrows : r.Grows r') (more : List Operation) :
    Sourced T' first stands (sent ++ more) places' r' p op where
  place := by
    rw [List.getElem?_append_left (List.getElem?_eq_some_iff.1 h.place).1, h.place]
  resumes := h.resumes.append hplaces more
  remembers := h.remembers.mono hgrows
  chain := h.chain.mono hT
  fresh := h.fresh

/-- A chain that is remembered frame by frame was rebuilt frame by frame. -/
theorem rebuilt_of_remembers {r : Relinker} {s chain : Snapshot} (h : r.Remembers s chain)
    (hs : s.In T)
    (horigins : ∀ k chain, r.memo.get? k = some chain → Origin T stands sent places k chain) :
    List.Forall₂ (fun frame frame' => ∃ j ∈ places, frame.Rebuilt stands sent j frame')
      s chain := by
  induction s generalizing chain with
  | nil =>
    rw [h]
    exact .nil
  | cons frame rest ih =>
    obtain ⟨hk, head, outer, rfl, hrest⟩ := h
    obtain ⟨_, _, _, _, hT, ⟨⟩, hrebuilt⟩ := horigins _ _ hk
    rw [hs.1] at hT
    cases hT
    exact .cons hrebuilt (ih hrest hs.2)

end

namespace Sinking
variable {T : FrameTable} {own : Nat → Prop} {first : Nat} {stands : Nat → Box → Operand}
  {sent : List Operation} {o o' : Optimizer} {kept : List (Nat × Operation)} {op : Operation}

theorem lt_length (h : Sinking T own first stands sent o kept) {p : Nat × Operation}
    (hp : p ∈ kept) : p.1 < sent.length := by
  obtain ⟨op, hsource⟩ := h.sources p hp
  exact (List.getElem?_eq_some_iff.1 hsource.place).1

theorem guarding (h : Sinking T own first stands sent o kept) :
    Guarding stands sent o.out.toList kept where
  guards := h.guards
  ordered := h.ordered
  resumes p hp := by
    obtain ⟨op, hsource⟩ := h.sources p hp
    exact ⟨op, hsource.place, hsource.resumes⟩
  shares p hp q hq op₁ op₂ h₁ h₂ := by
    obtain ⟨_, hsource₁⟩ := h.sources p hp
    obtain ⟨_, hsource₂⟩ := h.sources q hq
    obtain rfl := Option.some.inj (h₁.symm.trans hsource₁.place)
    obtain rfl := Option.some.inj (h₂.symm.trans hsource₂.place)
    exact h.faithful.sharesAs hsource₁.remembers hsource₂.remembers

/-- Nothing was written. -/
theorem empty {n : Nat} (hT : T.Below n) (hown : ∀ k, own k → k < n) (hn : first ≤ n)
    (hsupply : o.supply = ⟨.keeping, n⟩) (hout : o.out.toList.filter (·.isGuard) = []) :
    Sinking T own first stands [] o [] := by
  have hsink : o.sink = .keeping := congrArg Supply.relinker hsupply
  refine ⟨hsupply ▸ .empty hT true, hsupply ▸ .empty hown true, ?_, ?_, ?_, .nil,
    by rintro _ ⟨⟩⟩
  · rw [hsupply]
    exact ⟨hn, by rintro _ _ ⟨⟩⟩
  · rw [hsink]
    rintro _ _ ⟨⟩
  · rw [hout]
    rfl

/-- The same list, with other numbers given out. -/
theorem extends_ (h : Sinking T own first stands sent o kept) {T' : FrameTable}
    {own' : Nat → Prop} (hT : T.Extends T') (hown : ∀ k, own k → own' k)
    (hnew : ∀ k, own' k → own k ∨ o.pool.nextFrame ≤ k) (hbelow : T'.Below o'.pool.nextFrame)
    (hown' : ∀ k, own' k → k < o'.pool.nextFrame) (hframe : o.pool.nextFrame ≤ o'.pool.nextFrame)
    (hsink : o'.sink = o.sink)
    (hguards : o'.out.toList.filter (·.isGuard) = o.out.toList.filter (·.isGuard)) :
    Sinking T' own' first stands sent o' kept := by
  have hsupply : o'.supply = ⟨o.sink, o'.pool.nextFrame⟩ := by rw [supply, hsink]
  refine ⟨?_, ?_, ?_, fun k chain hk => ?_, hguards ▸ h.guards, h.ordered, fun p hp => ?_⟩
  · rw [hsupply]
    exact h.sound.extends_ hT hbelow
  · rw [hsupply]
    exact h.faithful.mono hframe hT hown hnew hown'
  · rw [hsupply]
    exact ⟨Nat.le_trans h.fresh.1 hframe, h.fresh.2⟩
  · have horigin := (h.origins k chain (hsink ▸ hk)).append hT (List.Subset.refl _) []
    rwa [List.append_nil] at horigin
  · obtain ⟨op, hsource⟩ := h.sources p hp
    have hsource' := hsource.append hT (List.Subset.refl _) (.refl _) []
    rw [List.append_nil] at hsource'
    exact ⟨op, hsink ▸ hsource'⟩

/-- An operation is sent, and no guard is written for it. -/
theorem pass (h : Sinking T own first stands sent o kept) (op : Operation)
    (hsupply : o'.supply = o.supply)
    (hguards : o'.out.toList.filter (·.isGuard) = o.out.toList.filter (·.isGuard)) :
    Sinking T own first stands (sent ++ [op]) o' kept := by
  have hsink : o'.sink = o.sink := congrArg Supply.relinker hsupply
  refine ⟨hsupply ▸ h.sound, hsupply ▸ h.faithful, hsupply ▸ h.fresh, fun k chain hk => ?_,
    hguards ▸ h.guards, h.ordered, fun p hp => ?_⟩
  · exact (h.origins k chain (hsink ▸ hk)).append (.refl T) (List.Subset.refl _) [op]
  · obtain ⟨op', hsource⟩ := h.sources p hp
    exact ⟨op', hsource.append (.refl T) (List.Subset.refl _) (hsink ▸ .refl _) [op]⟩

/-- A guard is sent and written. What is remembered from now on was rebuilt for it, if it was not
for another guard before. -/
theorem guard (h : Sinking T own first stands sent o kept)
    (hstands : stands sent.length = o.standsFor) {n : Nat} {chain : Snapshot}
    (hd : op.descr = some (.guard n chain)) (hin : chain.In T)
    (hown : ∀ frame ∈ chain, own frame.id) (hfirst : ∀ frame ∈ chain, first ≤ frame.id)
    (hsupply : o'.supply = (relink (m := Id) o.standsFor chain o.supply).2)
    (hguards : o'.out.toList.filter (·.isGuard) =
      o.out.toList.filter (·.isGuard) ++ [o.writes op]) :
    ∃ T', T.Extends T' ∧
      Sinking T' own first stands (sent ++ [op]) o' (kept ++ [(sent.length, o.writes op)]) := by
  have hsnap : op.snapshot = chain := by simp [Operation.snapshot, hd]
  have hsnap' : (o.writes op).snapshot = (relink (m := Id) o.standsFor chain o.supply).1 := by
    simp [Operation.snapshot, writes, relinkDescr, hd]
  have hsink : o'.sink = (relink (m := Id) o.standsFor chain o.supply).2.relinker :=
    congrArg Supply.relinker hsupply
  obtain ⟨T', hT, hsound, hin', -⟩ := h.sound.relink o.standsFor (fun _ => trivial) hin
    fun _ _ => trivial
  obtain ⟨hfaithful, hremembers, hgrows⟩ := h.faithful.relink o.standsFor hin hown
  obtain ⟨hfresh, hfirst'⟩ := h.fresh.relink o.standsFor (.inr hfirst)
  have hkept : Faithful T' own (relink (m := Id) o.standsFor chain o.supply).2 :=
    hfaithful.mono (Nat.le_refl _) hT (fun _ => id) (fun _ => .inl) hfaithful.below
  set kept' := kept ++ [(sent.length, o.writes op)] with hkept'
  have hplaces : kept.map Prod.fst ⊆ kept'.map Prod.fst :=
    List.map_subset _ (List.subset_append_left _ _)
  have horigins : ∀ k found, o'.sink.memo.get? k = some found →
      Origin T' stands (sent ++ [op]) (kept'.map Prod.fst) k found := by
    intro k found hk
    rw [hsink] at hk
    rcases memo_relink_cases o.standsFor hk with hk | ⟨frame, hf, rfl, head, outer, rfl, hes⟩
    · exact (h.origins k found hk).append hT hplaces [op]
    · obtain ⟨rest, hframe⟩ := hin.head hf
      refine ⟨frame, rest, head, outer, hT _ _ hframe, rfl, sent.length, by simp [hkept'],
        ⟨op, by simp, hsnap ▸ hf⟩, ?_⟩
      rw [hes, hstands]
  have hremembers' : o'.sink.Remembers op.snapshot (o.writes op).snapshot := by
    rw [hsnap, hsnap', hsink]
    exact hremembers
  have hlast : ∀ j ∈ kept'.map Prod.fst, j ≤ sent.length := by
    intro j hj
    obtain ⟨p, hp, rfl⟩ := List.mem_map.1 hj
    rcases List.mem_append.1 hp with hp | hp
    · exact Nat.le_of_lt (h.lt_length hp)
    · rw [List.mem_singleton.1 hp]
  refine ⟨T', hT, hsupply ▸ hsound, hsupply ▸ hkept, hsupply ▸ hfresh, horigins, ?_, ?_,
    fun p hp => ?_⟩
  · rw [hkept', List.map_append, h.guards, hguards]
    rfl
  · rw [hkept', List.map_append, List.pairwise_append]
    refine ⟨h.ordered, List.pairwise_singleton .., fun k hk m hm => ?_⟩
    obtain ⟨p, hp, rfl⟩ := List.mem_map.1 hk
    cases List.mem_singleton.1 hm
    exact h.lt_length hp
  · rcases List.mem_append.1 hp with hp | hp
    · obtain ⟨op', hsource⟩ := h.sources p hp
      exact ⟨op', hsource.append hT hplaces (hsink ▸ hgrows) [op]⟩
    · cases List.mem_singleton.1 hp
      refine ⟨op, by simp, ⟨rfl, ?_, ?_, ?_, ?_⟩, hremembers', ?_, ?_⟩
      · show op.args.map _ = _
        rw [hstands]
      · show op.failArgs.map _ = _
        rw [hstands]
      · simp [Operation.guard?, writes, relinkDescr, hd]
      · refine (rebuilt_of_remembers hremembers' (hsnap ▸ hin.mono hT) horigins).imp ?_
        rintro _ _ ⟨j, hj, hr⟩
        exact ⟨j, hj, hlast j hj, hr⟩
      · rw [hsnap']
        exact hin'
      · rw [hsnap']
        exact hfirst'

/-- An operation that comes next is sent. -/
theorem step (h : Sinking T own first stands sent o kept)
    (hstands : stands sent.length = o.standsFor) (hchained : Chained op) (hin : op.snapshot.In T)
    (hown : ∀ frame ∈ op.snapshot, own frame.id) (hfirst : ∀ frame ∈ op.snapshot, first ≤ frame.id)
    (hw : Written op o o') :
    ∃ T' kept', T.Extends T' ∧ Sinking T' own first stands (sent ++ [op]) o' kept' := by
  rcases hw.list with hlist | ⟨forced, hforced, hout, hsupply⟩
  · exact ⟨T, kept, .refl T, h.pass op (by rw [supply, hlist.sink, hlist.pool]; rfl)
      (by rw [hlist.out])⟩
  have hguards : o'.out.toList.filter (·.isGuard) =
      o.out.toList.filter (·.isGuard) ++ [o.writes op].filter (·.isGuard) := by
    rw [hout, List.filter_append, List.filter_append, guards_forcing hforced, List.append_nil]
  have hwrites : (o.writes op).isGuard = op.guard?.isSome := hchained
  cases hguard : op.guard? with
  | none =>
    rw [hguard] at hwrites
    have hno : ∀ n chain, op.descr ≠ some (.guard n chain) := by
      intro n chain hd
      simp [Operation.guard?, hd] at hguard
    rw [relinkDescr_of_plain _ _ hno] at hsupply
    rw [List.filter_cons_of_neg (by simp [hwrites]), List.filter_nil, List.append_nil] at hguards
    exact ⟨T, kept, .refl T, h.pass op hsupply hguards⟩
  | some found =>
    obtain ⟨n, chain⟩ := found
    have hd : op.descr = some (.guard n chain) := by
      unfold Operation.guard? at hguard
      split at hguard
      next hd =>
        cases hguard
        exact hd
      next => cases hguard
    have hsnap : op.snapshot = chain := by simp [Operation.snapshot, hd]
    rw [hguard] at hwrites
    rw [hd] at hsupply
    rw [hsnap] at hin hown hfirst
    rw [List.filter_cons_of_pos (by simp [hwrites]), List.filter_nil] at hguards
    obtain ⟨T', hT, hsinking⟩ := h.guard hstands hd hin hown hfirst hsupply hguards
    exact ⟨T', _, hT, hsinking⟩

end Sinking

theorem Written.nextFrame_le {op : Operation} {o o' : Optimizer} (h : Written op o o') :
    o.pool.nextFrame ≤ o'.pool.nextFrame := by
  rcases h.list with hlist | ⟨_, -, -, hsupply⟩
  · exact Nat.le_of_eq (by rw [hlist.pool])
  · show o.supply.nextFrame ≤ o'.supply.nextFrame
    rw [hsupply]
    unfold relinkDescr
    split
    · exact nextFrame_le_relink _ _ _
    · exact Nat.le_refl _

/-- No guard is written for an operation that is none. -/
theorem Written.guards {op : Operation} {o o' : Optimizer} (h : Written op o o')
    (hop : op.isGuard = false) :
    o'.out.toList.filter (·.isGuard) = o.out.toList.filter (·.isGuard) := by
  rcases h.list with hlist | ⟨forced, hforced, hout, -⟩
  · rw [hlist.out]
  · have hwrites : (o.writes op).isGuard = false := hop
    rw [hout, List.filter_append, List.filter_append, guards_forcing hforced,
      List.filter_cons_of_neg (by simp [hwrites]), List.filter_nil, List.append_nil,
      List.append_nil]

theorem Grown.guards {o o' : Optimizer} (h : Grown o o') (ho : o.Intact) :
    o'.out.toList.filter (·.isGuard) = o.out.toList.filter (·.isGuard) := by
  obtain ⟨ops, hout, hops⟩ := h.forcing ho
  rw [hout, List.filter_append, guards_forcing hops, List.append_nil]

/-! ### The first way -/

section
variable {c : Config} {t : Trace} {o : Optimizer}

/-- What was sent up to an operation, as long as none of them closed the loop. -/
structure Before (c : Config) (t : Trace) (k : Nat) : Prop where
  ready : Ready c (c.after t k)
  intact : (c.after t k).Intact
  token : (c.after t k).token = t.token
  inputs : (c.after t k).inputs = t.inputs
  frames : t.pool.nextFrame ≤ (c.after t k).pool.nextFrame
  sinking : ∃ T kept, t.frameTable.Extends T ∧
    Sinking T (· < t.pool.nextFrame) 0 (fun j => (c.after t j).standsFor) (t.ops.take k)
      (c.after t k) kept

/-- Each operation of a well-formed trace stands where it fits. -/
theorem exists_fits_of_verify (ht : t.verify = .ok ()) {op : Operation} (hop : op ∈ t.ops) :
    ∃ defined, op.Fits defined := by
  obtain ⟨body, last, hsplit⟩ := Trace.exists_split ht
  rw [hsplit.ops, List.mem_append, List.mem_singleton] at hop
  rcases hop with hop | rfl
  · exact (hsplit.accepts.exists_fits hop).1
  · exact ⟨_, hsplit.fits⟩

theorem before_begin (c : Config) (ht : t.Drawn) : Before c t 0 where
  ready := ready_begin c t
  intact := intact_begin c t
  token := rfl
  inputs := rfl
  frames := Nat.le_refl _
  sinking := ⟨t.frameTable, [], .refl _,
    .empty ht.below (fun _ h => h) (Nat.zero_le _) rfl rfl⟩

/-- One operation that does not close the loop is sent. -/
theorem Before.step {k : Nat} (h : Before c t k) (ht : t.Drawn) {op : Operation}
    (hop : t.ops[k]? = some op) (hopen : c.peel = true → op.closes t.token = false)
    (hrun : (sendTo 0 op).run.run (c.after t k) = (.ok (), c.after t (k + 1))) :
    Before c t (k + 1) := by
  have hmem := List.mem_of_getElem? hop
  have hlt := (List.getElem?_eq_some_iff.1 hop).1
  obtain ⟨defined, hfits⟩ := exists_fits_of_verify ht.verified hmem
  have hs : Handled c.behind op (c.after t k) (c.after t (k + 1)) :=
    (sendTo_ends (C := fun _ => True) (fun _ _ _ => trivial) h.ready h.intact.values.inRange
      (h.token ▸ hopen)).of_run hrun
  obtain ⟨hi, hw⟩ := settled_handled _ _ _ _ h.intact hs
  have hk := hs.keeps
  obtain ⟨T, kept, hT, hsinking⟩ := h.sinking
  have hin := ht.snapshot_in hmem
  have hlen : (t.ops.take k).length = k := List.length_take_of_le (Nat.le_of_lt hlt)
  obtain ⟨T', kept', hT', hsinking'⟩ := hsinking.step (by rw [hlen])
    (chained hfits (ht.plain op hmem)) (hin.mono hT) (fun _ hf => hin.id_lt ht.below hf)
    (fun _ _ => Nat.zero_le _) hw
  refine ⟨by rw [Ready, hk.chain]; exact h.ready, hi, hk.token.trans h.token,
    hk.inputs.trans h.inputs, Nat.le_trans h.frames hw.nextFrame_le, T', kept', hT.trans hT', ?_⟩
  rw [List.take_add_one, hop]
  exact hsinking'

/-- What holds at the beginning, and is kept by sending one operation that does not close the
loop, holds whenever the next one is sent, and the invariant with it. -/
theorem before_along (ht : t.Drawn) {m : Nat}
    (hopen : ∀ op ∈ t.ops.take m, c.peel = true → op.closes t.token = false)
    (hrun : ((t.ops.take m).forM (sendTo 0)).run.run (c.begin t) = (.ok (), o))
    {P : Nat → Prop} (hbegin : P 0)
    (hstep : ∀ k op, Before c t k → P k → t.ops[k]? = some op →
      (c.peel = true → op.closes t.token = false) →
      (sendTo 0 op).run.run (c.after t k) = (.ok (), c.after t (k + 1)) → P (k + 1)) :
    ∀ k ≤ m, k ≤ t.ops.length → Before c t k ∧ P k := by
  intro k hkm hk
  induction k with
  | zero => exact ⟨before_begin c ht, hbegin⟩
  | succ k ih =>
    obtain ⟨hbefore, hP⟩ := ih (Nat.le_of_succ_le hkm) (Nat.le_of_succ_le hk)
    have hop : t.ops[k]? = some t.ops[k] := List.getElem?_eq_getElem hk
    have hop' : (t.ops.take m)[k]? = some t.ops[k] := by
      rw [List.getElem?_take_of_lt hkm, hop]
    have hafter : ∀ j ≤ m, stateAfter (sendTo 0) (t.ops.take m) (c.begin t) j = c.after t j := by
      intro j hj
      rw [stateAfter, List.take_take, Nat.min_eq_left hj]
      rfl
    have hsent := run_step_ok hrun hop'
    rw [hafter k (Nat.le_of_succ_le hkm), hafter (k + 1) hkm] at hsent
    have hclose := hopen _ (List.mem_of_getElem? hop')
    exact ⟨hbefore.step ht hop hclose hsent, hstep k _ hbefore hP hop hclose hsent⟩

theorem before_of_run (ht : t.Drawn) {m : Nat}
    (hopen : ∀ op ∈ t.ops.take m, c.peel = true → op.closes t.token = false)
    (hrun : ((t.ops.take m).forM (sendTo 0)).run.run (c.begin t) = (.ok (), o)) :
    ∀ k ≤ m, k ≤ t.ops.length → Before c t k := fun k hkm hk =>
  (before_along ht hopen hrun (P := fun _ => True) trivial (fun _ _ _ _ _ _ _ => trivial)
    k hkm hk).1

/-- The guards of the preamble, when it ends. -/
theorem RanTwice.sinking {body : List Operation} {jump : Operation} {o' : Optimizer} {w : Passage}
    (h : RanTwice c t body jump o w o') (ht : t.Drawn) :
    ∃ T kept, t.frameTable.Extends T ∧ Sinking T (· < t.pool.nextFrame) 0
        (fun j => (c.after t j).standsFor) body w.captured kept ∧
      t.pool.nextFrame ≤ w.captured.pool.nextFrame := by
  have hi := h.intact
  have hbefore := before_of_run ht h.open_ (by rw [h.take]; exact h.run) _ (Nat.le_refl _)
    (by simp [h.split.ops])
  obtain ⟨T, kept, hT, hsinking⟩ := hbefore.sinking
  have hframes := hbefore.frames
  rw [h.after, h.take] at hsinking
  rw [h.after] at hframes
  have hsame := h.traversed.captured.same
  have hpool : w.captured.pool = o.pool := by rw [hsame]
  refine ⟨T, kept, hT, hsinking.extends_ (.refl T) (fun _ => id) (fun _ => .inl)
    (hpool ▸ hsinking.sound.below) (hpool ▸ hsinking.faithful.below)
    (Nat.le_of_eq (by rw [hpool])) (by rw [hsame]) ?_, hpool ▸ hframes⟩
  exact h.traversed.captured.guards ⟨hi.values, hi.known⟩

end

/-! ### The second way -/

end Optimizer

namespace Config
open Optimizer

/-- The way through the recorded operations once more, up to the first `k` of them. -/
def secondWay (c : Config) (t : Trace) (k : Nat) : Optimize Unit := do
  setPass 0 none
  setCursor 0
  let loopInputs ← turn 0 t.inputs ((t.ops.getLast?.map (·.args)).getD [])
  Peel.replay (send c.behind.length) 0 loopInputs (t.ops.take k)

/-- The state in which the `k`-th operation is gone through once more. -/
def around (c : Config) (t : Trace) (k : Nat) : Optimizer :=
  ((c.secondWay t k).run.run (c.after t (t.ops.length - 1))).2

/-- What a box is in the next iteration, when all operations were gone through. -/
def next (c : Config) (t : Trace) : Box → Operand :=
  (((c.around t (t.ops.length - 1)).chain[0]?.map Stage.peeling).getD {}).rename

end Config

namespace Optimizer
open Relinker Peel

section
variable {c : Config} {t : Trace} {body : List Operation} {jump : Operation}

/-- The step that goes through one recorded operation once more. -/
def retrace (c : Config) (loopInputs : List Box) (op : Operation) : Optimize Unit := do
  let op ← rename 0 loopInputs op
  tell (.inlined op.opcode)
  send c.behind.length op

/-- What was gone through once more, up to the `k`-th operation, from the state `start` on. -/
structure Around (c : Config) (t : Trace) (first : Nat) (states : Nat → Optimizer) (k : Nat)
    (T : FrameTable) (n : Peeling) (casts : List Operation) (kept : List (Nat × Operation)) :
    Prop where
  at_ : At (stagesBehind c) n (states k)
  intact : (states k).Intact
  frames : t.frameTable.Extends T
  casting : Casting T (· < first) first (t.inputs ++ results (t.ops.take k)) n (states k).pool
  recopied : Recopied T first (t.ops.take k) casts
    (startingNotes t.inputs ((t.ops.getLast?.map (·.args)).getD [])) n t.pool (states k).pool
  sinking : Sinking T n.relinker.Made first (fun j => (states j).standsFor) casts (states k) kept

theorem made_mono {r r' : Relinker} (h : r.Grows r') {id : Nat} (hid : r.Made id) : r'.Made id := by
  obtain ⟨k, frame, outer, hk, rfl⟩ := hid
  exact ⟨k, frame, outer, h _ _ hk, rfl⟩

/-- One recorded operation is gone through once more. -/
theorem Around.step {first : Nat} {states : Nat → Optimizer} {k : Nat} {T : FrameTable}
    {n : Peeling} {casts : List Operation} {kept : List (Nat × Operation)}
    (h : Around c t first states k T n casts kept) (ht : t.Drawn) (hsplit : t.Split body jump)
    (hfirst : t.pool.nextFrame ≤ first) {op : Operation} (hop : body[k]? = some op)
    {loopInputs : List Box}
    (hrun : (retrace c loopInputs op).run.run (states k) = (.ok (), states (k + 1))) :
    ∃ T' kept', Around c t first states (k + 1) T' (recast n (states k).pool op).2.1
      (casts ++ [(recast n (states k).pool op).1]) kept' := by
  have hlt := (List.getElem?_eq_some_iff.1 hop).1
  have hmem : op ∈ t.ops := by simp [hsplit.ops, List.mem_of_getElem? hop]
  have htake : ∀ j ≤ body.length, t.ops.take j = body.take j := fun j hj => by
    rw [hsplit.ops, List.take_append_of_le_length hj]
  have hsucc : t.ops.take (k + 1) = t.ops.take k ++ [op] := by
    rw [htake _ hlt, htake _ (Nat.le_of_lt hlt), List.take_add_one, hop]
    rfl
  obtain ⟨hfits, hordinary⟩ := hsplit.accepts.fits_take hop
  rw [← htake k (Nat.le_of_lt hlt)] at hfits
  have hin := ht.snapshot_in hmem
  obtain ⟨T₁, hT₁, hcasting, hcast, hlater, htakes⟩ := h.casting.recast hfits (ht.plain op hmem)
    (hin.mono h.frames) fun frame hf => Nat.lt_of_lt_of_le (hin.id_lt ht.below hf) hfirst
  obtain ⟨events, hs⟩ := (retrace_ends (c := c) (map_pass_stagesBehind c)
    h.at_ h.intact h.casting.named hfits hordinary).of_run hrun
  obtain ⟨hat, hi⟩ := hs.retraced h.intact
  set n₁ := (recast n (states k).pool op).2.1
  set p₁ := (recast n (states k).pool op).2.2
  set op' := (recast n (states k).pool op).1
  -- The operation is sent in a state with other notes, which nothing stands for anything else in.
  set o₁ : Optimizer := {(states k).noting (stagesBehind c) n₁ p₁ with events} with ho₁
  have hnoting : Sinking T₁ n₁.relinker.Made first (fun j => (states j).standsFor) casts o₁ kept :=
    h.sinking.extends_ hT₁ (fun _ => made_mono hlater.grows) htakes.made hcasting.sound.below
      (fun _ hk => hcasting.faithful.made_lt hk) htakes.nextFrame rfl rfl
  have hi₁ : o₁.Intact := ⟨h.intact.values, h.intact.known⟩
  have hw : Written op' o₁ (states (k + 1)) := (settled_handled _ _ _ _ hi₁ hs).2
  have hlen : casts.length = k := by
    rw [← h.recopied.cast.length_eq, List.length_take_of_le]
    simp only [hsplit.ops, List.length_append]
    omega
  have hchained : Chained op' := by
    have := chained hfits (ht.plain op hmem)
    rw [Chained] at this ⊢
    rw [hcast.renders.isGuard, hcast.renders.guard?_isSome, this]
  obtain ⟨T₂, kept', hT₂, hsinking⟩ := hnoting.step (by rw [hlen]; rfl) hchained
    hcast.renders.snapshot_in (fun _ => hcast.remembers.made) hcast.fresh hw
  have hcasting' := hcasting.extends_ hT₂ hw.nextFrame_le hsinking.sound.below
  refine ⟨T₂, kept', hat, hi, h.frames.trans (hT₁.trans hT₂),
    hcasting'.congr fun b => ?_, ?_, hsinking⟩
  · rw [hsucc, results_append]
    simp only [List.mem_append, results_cons, results_nil]
    tauto
  · rw [hsucc]
    exact ((h.recopied.append hT₁ (.one hcast hlater htakes)).extends_ hT₂).repool
      hs.keeps.nextBox hs.keeps.nextGuard

/-- Before any operation is gone through once more. -/
theorem around_begin {T : FrameTable} {o o' : Optimizer} {w : Passage} {states : Nat → Optimizer}
    (h : Traversed c (stagesBehind c) body jump o w o') (hsplit : t.Split body jump) (ho : o.Intact)
    (hinputs : o.inputs = t.inputs) (hbox : o.pool.nextBox = t.pool.nextBox)
    (hguard : o.pool.nextGuard = t.pool.nextGuard) (hT : t.frameTable.Extends T)
    (hbelow : T.Below w.captured.pool.nextFrame) (hstart : states 0 = w.entered) :
    Around c t w.captured.pool.nextFrame states 0 T (startingNotes t.inputs jump.args) [] [] := by
  obtain ⟨events, hmet⟩ := h.met
  have hmarked : Intact {w.met with values := w.met.values.markFromStart} :=
    (h.intact_met ho).markFromStart
  have hsupply : w.entered.supply = ⟨.keeping, w.captured.pool.nextFrame⟩ := by
    rw [supply, h.entered.same]
    show (⟨w.met.sink, w.met.pool.nextFrame⟩ : Supply) = _
    rw [hmet.eq_values]
  have hframe : w.entered.pool.nextFrame = w.captured.pool.nextFrame :=
    congrArg Supply.nextFrame hsupply
  have hpool : w.entered.pool = o.pool := by
    rw [h.entered.same]
    show w.met.pool = _
    rw [hmet.eq_values, h.captured.same]
  have hlast : (t.ops.getLast?.map (·.args)).getD [] = jump.args := by simp [hsplit.ops]
  have hlength : t.inputs.length = jump.args.length := hinputs ▸ h.length
  have hnone : ∀ k, ¬ (startingNotes t.inputs jump.args).relinker.Made k := by
    rintro k ⟨_, _, _, ⟨⟩, _⟩
  refine ⟨?_, ?_, hT, ⟨?_, ?_, ?_, rfl, ?_⟩, ?_, ?_⟩
  · rw [hstart, ← hinputs]
    refine h.entered.at_ ?_
    show w.met.chain = _
    rw [hmet.chain]
  · rw [hstart]
    exact h.entered.intact hmarked
  · simpa using named_startingNotes hsplit.nodup hlength
  · rw [hstart, Peeling.supply, hframe]
    exact .empty hbelow false
  · rw [hstart, Peeling.supply, hframe]
    exact .empty (fun _ hk => hk) false
  · rw [hstart, Peeling.supply, hframe]
    exact ⟨Nat.le_refl _, by rintro _ _ ⟨⟩⟩
  · rw [hstart, hpool, hlast, List.take_zero]
    exact (Recopied.nil _ t.pool).repool hbox hguard
  · rw [hstart]
    refine .empty hbelow (fun k hk => absurd hk (hnone k)) (Nat.le_refl _) hsupply ?_
    rw [h.entered.guards hmarked]
    show w.met.out.toList.filter _ = []
    rw [hmet.eq_values]
    rfl

/-- The second way begins with the turn. -/
theorem secondWay_run {n : Peeling} {rest : List Stage} {o entered : Optimizer}
    {inputs loopInputs : List Box} (hchain : o.chain = (⟨some .peel, n⟩ :: rest).toArray)
    (hinputs : inputs = t.inputs) (hlast : t.ops.getLast? = some jump)
    (hturn : (turn 0 inputs jump.args).run.run {o with
      chain := (⟨none, n⟩ :: rest).toArray, cursor := 0} = (.ok loopInputs, entered)) (k : Nat) :
    (c.secondWay t k).run.run o =
      (replay (send c.behind.length) 0 loopInputs (t.ops.take k)).run.run entered := by
  have hmodify : (o.chain.modify 0 fun s => {s with pass := none}) =
      (⟨none, n⟩ :: rest).toArray := by
    rw [hchain]
    rfl
  have hargs : (t.ops.getLast?.map (·.args)).getD [] = jump.args := by rw [hlast]; rfl
  unfold Config.secondWay
  rw [run_bind, run_lift_ok (m := setPass 0 none) rfl]
  show (_ >>= _ : Optimize Unit).run.run {o with chain := o.chain.modify 0 _} = _
  rw [hmodify, run_bind, run_lift_ok (m := setCursor 0) rfl]
  show (_ >>= _ : Optimize Unit).run.run {o with chain := _, cursor := 0} = _
  rw [run_bind, hargs, ← hinputs, hturn]

/-- The states of the second way are those that the run went through. -/
theorem RanTwice.around_eq {o o' : Optimizer} {w : Passage} (h : RanTwice c t body jump o w o') :
    ∃ loopInputs, (body.forM (retrace c loopInputs)).run.run w.entered = (.ok (), w.replayed) ∧
      ∀ k ≤ body.length, c.around t k = stateAfter (retrace c loopInputs) body w.entered k := by
  obtain ⟨loopInputs, hturn, hreplay⟩ := h.traversed.turned
  refine ⟨loopInputs, hreplay, fun k hk => ?_⟩
  have htake : t.ops.take k = body.take k := by
    rw [h.split.ops, List.take_append_of_le_length hk]
  have hchain : o.chain = (⟨some .peel, { recorded := t.ops }⟩ :: stagesBehind c).toArray := by
    rw [h.sent.keeps.chain]
    simp [Config.begin, Config.chain, h.peel, stagesBehind]
  rw [Config.around, h.length, h.after, secondWay_run hchain h.sent.keeps.inputs h.getLast? hturn,
    htake]
  rfl

theorem RanTwice.around_zero {o o' : Optimizer} {w : Passage} (h : RanTwice c t body jump o w o') :
    c.around t 0 = w.entered := by
  obtain ⟨loopInputs, -, hstates⟩ := h.around_eq
  rw [hstates 0 (Nat.zero_le _)]
  rfl

theorem RanTwice.around_length {o o' : Optimizer} {w : Passage}
    (h : RanTwice c t body jump o w o') : c.around t body.length = w.replayed := by
  obtain ⟨loopInputs, hreplay, hstates⟩ := h.around_eq
  exact (hstates _ (Nat.le_refl _)).trans (stateAfter_length hreplay)

/-- What holds when the second way begins, and is kept by going through one operation once more,
holds whenever the next one is gone through, and the invariant with it. -/
theorem RanTwice.along {T : FrameTable} {o o' : Optimizer} {w : Passage}
    (h : RanTwice c t body jump o w o') (ht : t.Drawn) (hT : t.frameTable.Extends T)
    (hbelow : T.Below w.captured.pool.nextFrame)
    (hfirst : t.pool.nextFrame ≤ w.captured.pool.nextFrame)
    {P : Nat → Peeling → List Operation → Prop} (hbegin : P 0 (startingNotes t.inputs jump.args) [])
    (hstep : ∀ k T n casts kept op loopInputs,
      Around c t w.captured.pool.nextFrame (c.around t) k T n casts kept → P k n casts →
      body[k]? = some op →
      (retrace c loopInputs op).run.run (c.around t k) = (.ok (), c.around t (k + 1)) →
      P (k + 1) (recast n (c.around t k).pool op).2.1
        (casts ++ [(recast n (c.around t k).pool op).1])) :
    ∀ k ≤ body.length, ∃ T n casts kept,
      Around c t w.captured.pool.nextFrame (c.around t) k T n casts kept ∧ P k n casts := by
  obtain ⟨loopInputs, hreplay, hstates⟩ := h.around_eq
  intro k hk
  induction k with
  | zero =>
    have hkeeps := h.sent.keeps
    have hi := h.intact
    exact ⟨T, _, _, _, around_begin h.traversed h.split ⟨hi.values, hi.known⟩ hkeeps.inputs
      hkeeps.nextBox hkeeps.nextGuard hT hbelow h.around_zero, hbegin⟩
  | succ k ih =>
    obtain ⟨T', n, casts, kept, haround, hP⟩ := ih (Nat.le_of_succ_le hk)
    have hop : body[k]? = some body[k] := List.getElem?_eq_getElem hk
    have hrun := run_step_ok hreplay hop
    rw [← hstates k (Nat.le_of_succ_le hk), ← hstates (k + 1) hk] at hrun
    obtain ⟨T'', kept', hnext⟩ := haround.step ht h.split hfirst hop hrun
    exact ⟨T'', _, _, kept', hnext, hstep k T' n casts kept _ loopInputs haround hP hop hrun⟩

/-- The names that are there when all operations were gone through. -/
theorem RanTwice.next_eq {o o' : Optimizer} {w : Passage} (h : RanTwice c t body jump o w o')
    {first : Nat} {T : FrameTable} {n : Peeling} {casts : List Operation}
    {kept : List (Nat × Operation)}
    (haround : Around c t first (c.around t) body.length T n casts kept) :
    c.next t = n.rename := by
  rw [Config.next, h.length, show (c.around t body.length).chain = _ from haround.at_]
  rfl

theorem RanTwice.renews {o o' : Optimizer} {w : Passage} (h : RanTwice c t body jump o w o')
    {first : Nat} {T : FrameTable} {n : Peeling} {casts : List Operation}
    {kept : List (Nat × Operation)}
    (haround : Around c t first (c.around t) body.length T n casts kept) :
    t.Renews (c.next t) := by
  have hrecopied := haround.recopied
  have hargs : (t.ops.getLast?.map (·.args)).getD [] = jump.args := by rw [h.getLast?]; rfl
  have hlen : t.inputs.length = jump.args.length := (h.split.kinds h.closes).length_eq.symm
  rw [h.take, hargs] at hrecopied
  obtain ⟨hnodup, hnew⟩ := hrecopied.fresh
  rw [h.next_eq haround]
  refine ⟨?_, results casts, ?_, ?_, hnodup, hnew⟩
  · rw [hargs]
    exact hrecopied.handed h.split.nodup hlen
  · rw [h.dropLast]
    exact results_mapped hrecopied.mapped
  · rw [h.dropLast]
    exact hrecopied.kinds

end

theorem guards_jump {op : Operation} (hop : op.opcode = .jump) :
    [op].filter (·.isGuard) = [] := by
  rw [List.filter_cons_of_neg (by simp [Operation.isGuard_of_jump hop]), List.filter_nil]

/-- Behind the last recorded operation no guard is written any more. -/
theorem Traversed.guards {c : Config} {rest : List Stage} {body : List Operation}
    {jump : Operation} {o o' : Optimizer} {w : Passage} (h : Traversed c rest body jump o w o')
    (hreplayed : w.replayed.Intact) (hjump : jump.opcode = .jump) :
    o'.out.toList.filter (·.isGuard) = w.replayed.out.toList.filter (·.isGuard) := by
  obtain ⟨events, hhandled⟩ := h.handled
  obtain ⟨stats, hends⟩ := h.ends
  have hnot : jump.isGuard = false := Operation.isGuard_of_jump hjump
  have hasked : w.asked.Intact := h.asked.intact hreplayed
  have hsent : Intact {w.asked with events} := ⟨hasked.values, hasked.known⟩
  obtain ⟨hwritten, hw⟩ := settled_handled _ _ _ _ hsent hhandled
  have hsearched : Intact {w.written with out := w.out} := ⟨hwritten.values, hwritten.known⟩
  have hlast : ({w.last with args := w.last.args ++ w.handed} : Operation).opcode = .jump := h.last
  calc o'.out.toList.filter (·.isGuard)
      = w.searched.out.toList.filter (·.isGuard) := by
        rw [hends]
        show (w.searched.out.push {w.last with args := w.last.args ++ w.handed}).toList.filter _ = _
        rw [Array.toList_push, List.filter_append, guards_jump hlast, List.append_nil]
    _ = w.out.toList.filter (·.isGuard) := h.searched.guards hsearched
    _ = w.written.out.toList.filter (·.isGuard) := by
        rw [h.out, Array.toList_push, List.filter_append, guards_jump h.last, List.append_nil]
    _ = w.asked.out.toList.filter (·.isGuard) := hw.guards hnot
    _ = w.replayed.out.toList.filter (·.isGuard) := h.asked.guards hreplayed

/-- A frame of the next iteration that two chains hold was copied from a frame that both of the
recorded chains hold. -/
theorem Cast.holds {T T' : FrameTable} {own : Nat → Prop} {first nextFrame : Nat} {n : Peeling}
    {op op' holder holder' : Operation} (h : Cast T first n op op')
    (hholder : Cast T first n holder holder') (hfaithful : Faithful T own ⟨n.relinker, nextFrame⟩)
    (hin : op.snapshot.In T') (hin' : holder.snapshot.In T') {i : Nat} {frame copy : Frame}
    (hframe : op.snapshot[i]? = some frame) (hcopy : op'.snapshot[i]? = some copy)
    (hmem : copy ∈ holder'.snapshot) : frame ∈ holder.snapshot := by
  obtain ⟨k, hk, rfl⟩ := List.mem_iff_getElem.1 hmem
  have hk' : k < holder.snapshot.length := hholder.remembers.length_eq ▸ hk
  obtain ⟨hid, -⟩ := hfaithful.sharesAs h.remembers hholder.remembers i k _ _ _ _ hframe
    (List.getElem?_eq_getElem hk') hcopy (List.getElem?_eq_getElem hk)
  rw [hin.eq_of_id hin' (List.mem_of_getElem? hframe) (List.getElem_mem hk') (hid.1 rfl)]
  exact List.getElem_mem hk'

/-- Guards written for the operations of the next iteration are guards of those recorded. -/
theorem guarding_recast {T T' : FrameTable} {own : Nat → Prop} {first nextFrame : Nat}
    {n : Peeling} {stands : Nat → Box → Operand} {ops casts list : List Operation}
    {kept : List (Nat × Operation)} (h : Guarding stands casts list kept)
    (hcasts : List.Forall₂ (Cast T first n) ops casts) (hin : ∀ op ∈ ops, op.snapshot.In T')
    (hfaithful : Faithful T own ⟨n.relinker, nextFrame⟩) :
    Guarding (fun k b => (n.rename b).mapBox (stands k)) ops list kept := by
  have hsource : ∀ {k : Nat} {op'}, casts[k]? = some op' → ∃ op, ops[k]? = some op := by
    intro k op' hop'
    have hk := (List.getElem?_eq_some_iff.1 hop').1
    exact ⟨_, List.getElem?_eq_getElem (hcasts.length_eq ▸ hk)⟩
  refine ⟨h.guards, h.ordered, fun p hp => ?_, fun p hp q hq op₁ op₂ h₁ h₂ => ?_⟩
  · obtain ⟨op', hop', hresumes⟩ := h.resumes p hp
    obtain ⟨op, hop⟩ := hsource hop'
    have hc := rel_of_getElem? hcasts hop hop'
    have hmapped := hc.mapped
    refine ⟨op, hop, hresumes.opcode.trans hmapped.opcode, ?_, ?_,
      hresumes.guarded.trans hmapped.guarded, ?_⟩
    · rw [hresumes.args, hmapped.args, Operand.map_mapBox_mapBox]
    · rw [hresumes.failArgs, hmapped.failArgs, Option.map_map]
      exact congrArg (fun f => op.failArgs.map f) (funext (Operand.map_mapBox_mapBox _ _))
    · have hdepth := hc.remembers.length_eq
      refine List.forall₂_iff_get.2 ⟨hdepth ▸ hresumes.snapshot.length_eq, fun i hi hi' => ?_⟩
      have hi'' : i < op'.snapshot.length := hdepth ▸ hi
      obtain ⟨j, hj, hle, ⟨holder', hholder', hmem⟩, hentries⟩ := hresumes.snapshot.get hi'' hi'
      obtain ⟨holder, hholder⟩ := hsource hholder'
      have hheld := hc.holds (rel_of_getElem? hcasts hholder hholder') hfaithful
        (hin _ (List.mem_of_getElem? hop)) (hin _ (List.mem_of_getElem? hholder))
        (List.getElem?_eq_getElem hi) (List.getElem?_eq_getElem hi'') hmem
      refine ⟨j, hj, hle, ⟨holder, hholder, hheld⟩, ?_⟩
      have hcopied : op'.snapshot[i].entries = op.snapshot[i].entries.map (·.mapBox n.rename) :=
        eq_map_of_forall₂ (hmapped.snapshot.get hi hi'')
      rw [hentries, List.get_eq_getElem, hcopied, Operand.map_mapBox_mapBox]
      rfl
  · obtain ⟨op₁', hop₁, -⟩ := h.resumes p hp
    obtain ⟨op₂', hop₂, -⟩ := h.resumes q hq
    have hc₁ := rel_of_getElem? hcasts h₁ hop₁
    have hc₂ := rel_of_getElem? hcasts h₂ hop₂
    exact (hfaithful.sharesAs hc₁.remembers hc₂.remembers).trans
      (h.shares p hp q hq _ _ hop₁ hop₂) hc₁.remembers.length_eq hc₂.remembers.length_eq

end Optimizer

namespace Config
open Optimizer

variable {c : Config} {t : Trace} {l : Loop}

theorem exists_guarded {o : Optimizer} (h : RanOnce c t o) (ht : t.Drawn) :
    ∃ kept, t.Guarded (fun k => (c.after t k).standsFor) o.out.toList kept := by
  have hopen : ∀ op ∈ t.ops.take t.ops.length, c.peel = true → op.closes t.token = false :=
    fun op hop => h.open_ op (List.mem_of_mem_take hop)
  obtain ⟨T, kept, -, hsinking⟩ := (before_of_run ht hopen (by rw [List.take_length]; exact h.run) _
    (Nat.le_refl _) (Nat.le_refl _)).sinking
  rw [h.after, List.take_length] at hsinking
  exact ⟨kept, hsinking.guarding.guarded ht.verified⟩

theorem exists_guarded_twice {body : List Operation} {jump : Operation} {o o' : Optimizer}
    {w : Passage} (h : RanTwice c t body jump o w o') (ht : t.Drawn) {front : List Operation}
    (hfront : front.filter (·.isGuard) = w.captured.out.toList.filter (·.isGuard)) :
    t.Renews (c.next t) ∧ ∃ kept kept',
      t.Guarded (fun k => (c.after t k).standsFor) front kept ∧
      t.Guarded (fun k b => (c.next t b).mapBox (c.around t k).standsFor) o'.out.toList kept' ∧
      ∀ g ∈ o'.out.toList, g.isGuard = true → ∀ g' ∈ front ++ t.ops, g'.isGuard = true →
        ∀ frame ∈ g.snapshot, ∀ frame' ∈ g'.snapshot, frame.id ≠ frame'.id := by
  obtain ⟨T, kept, hT, hsinking, hfirst⟩ := h.sinking ht
  obtain ⟨T', n, casts, kept', haround, -⟩ := h.along ht hT hsinking.sound.below hfirst
    (P := fun _ _ _ => True) trivial (fun _ _ _ _ _ _ _ _ _ _ _ => trivial) _ (Nat.le_refl _)
  have hjump := (Operation.closes_iff.1 h.closes).1
  have hguarding := haround.sinking.guarding
  have hcast := haround.recopied.cast
  have hreplayed := haround.intact
  rw [h.around_length] at hguarding hreplayed
  rw [h.take] at hcast
  have hin : ∀ op ∈ body, op.snapshot.In t.frameTable := fun op hop =>
    ht.snapshot_in (by simp [h.split.ops, hop])
  have hopened : Guarding (fun k => (c.after t k).standsFor) t.ops front kept := by
    rw [h.split.ops]
    exact (hsinking.guarding.append [jump]).congr hfront
  have hclosed : Guarding (fun k b => (c.next t b).mapBox (c.around t k).standsFor) t.ops
      o'.out.toList kept' := by
    rw [h.next_eq haround, h.split.ops]
    exact ((guarding_recast hguarding hcast hin haround.casting.faithful).append [jump]).congr
      (h.traversed.guards hreplayed hjump)
  refine ⟨h.renews haround, kept, kept', hopened.guarded ht.verified, hclosed.guarded ht.verified,
    fun g hg hguard g' hg' hguard' frame hframe frame' hframe' => ?_⟩
  -- The frames of the list were made behind those of the preamble and of the trace.
  have habove : w.captured.pool.nextFrame ≤ frame.id := by
    obtain ⟨p, hp, rfl⟩ := hclosed.exists_kept hg hguard
    obtain ⟨_, hsource⟩ := haround.sinking.sources p hp
    exact hsource.fresh frame hframe
  have hbelow : frame'.id < w.captured.pool.nextFrame := by
    rcases List.mem_append.1 hg' with hg' | hg'
    · obtain ⟨p, hp, rfl⟩ := hopened.exists_kept hg' hguard'
      obtain ⟨_, hsource⟩ := hsinking.sources p hp
      exact hsource.chain.id_lt hsinking.sound.below hframe'
    · exact Nat.lt_of_lt_of_le ((ht.snapshot_in hg').id_lt ht.below hframe') hfirst
  omega

/-- Every guard that is kept resumes as the recorded one does: what it keeps alive is of the
same shape, with constants in their places, and each frame holds what its entries stood for when
this guard was sent, or an earlier guard of the list that holds the same frame. Guards of one list
share frames where the recorded guards do, and those of the list that goes round share none with
the preamble or with the trace. In that list a box goes by its name in the next iteration. -/
theorem guards_resume (ht : t.Drawn) (h : c.optimizeLoop t = .ok l) :
    (l.preamble = none →
      ∃ kept, t.Guarded (fun k => (c.after t k).standsFor) l.ops kept) ∧
    ∀ p, l.preamble = some p → t.Renews (c.next t) ∧ ∃ kept kept',
      t.Guarded (fun k => (c.after t k).standsFor) p.ops kept ∧
      t.Guarded (fun k b => (c.next t b).mapBox (c.around t k).standsFor) l.ops kept' ∧
      ∀ g ∈ l.ops, g.isGuard = true → ∀ g' ∈ p.ops ++ t.ops, g'.isGuard = true →
        ∀ frame ∈ g.snapshot, ∀ frame' ∈ g'.snapshot, frame.id ≠ frame'.id := by
  obtain ⟨hverify, o, hran, rfl⟩ := ran_of_ok h
  rcases hran.once_or_twice hverify with honce | ⟨body, jump, o, w, o', _, _, htwice, rfl⟩
  · have hnone : (o.loop t.name).preamble = none := honce.sent.keeps.preamble
    exact ⟨fun _ => exists_guarded honce ht, fun p hp => by rw [hnone] at hp; cases hp⟩
  · have hpreamble := htwice.preamble
    refine ⟨fun hnone => ?_, fun p hp => ?_⟩
    · rw [show Loop.preamble _ = o'.preamble from rfl, hpreamble] at hnone
      cases hnone
    · rw [show Loop.preamble _ = o'.preamble from rfl, hpreamble] at hp
      cases hp
      refine exists_guarded_twice htwice ht ?_
      rw [List.filter_append, guards_jump rfl, List.append_nil]

/-- Counts on between two bounds. The guards of both resume in the same outer frame, which holds a
copy of the count; the inner frame of the second holds a sum that was computed before. -/
def betweenBounds : Trace :=
  let (i, t) := (Trace.start "between").input .int
  let (copy, t) := t.record .sameAs [.box i] .int
  let (outer, pool) := t.pool.pushFrame [.box copy, .const (.int 7)] []
  let (less, t) := {t with pool}.record .intLt [.box i, .const (.int 100)] .int
  let (inner, pool) := t.pool.pushFrame [.box less] outer
  let t := {t with pool}.recordGuardWith .guardTrue [.box less] [.box i] inner
  let (next, t) := t.record .intAdd [.box i, .const (.int 1)] .int
  let (again, t) := t.record .intAdd [.box i, .const (.int 1)] .int
  let (more, t) := t.record .intGt [.box next, .const (.int 0)] .int
  let (inner, pool) := t.pool.pushFrame [.box again] outer
  let t := {t with pool}.recordGuardWith .guardTrue [.box more] [.box next] inner
  t.close [.box next]

/-- Both guards are kept, in the preamble and in the loop, and go on sharing their frame. The copy
and the second sum are not computed any more, and no guard asks for them. -/
theorem betweenBounds_resume : ∃ l p, optimizeLoop {} betweenBounds = .ok l ∧
    l.preamble = some p ∧ l.ops.countP (·.isGuard) = 2 ∧
    (∀ b ∈ [⟨1, .int⟩, ⟨4, .int⟩], (∃ g ∈ betweenBounds.ops, .box b ∈ g.snapshot.operands) ∧
      b ∉ results p.ops ∧ ∀ g ∈ p.ops, .box b ∉ g.snapshot.operands) ∧
    betweenBounds.Renews (next {} betweenBounds) ∧ ∃ kept kept',
      betweenBounds.Guarded (fun k => (after {} betweenBounds k).standsFor) p.ops kept ∧
      betweenBounds.Guarded
        (fun k b => (next {} betweenBounds b).mapBox (around {} betweenBounds k).standsFor)
        l.ops kept' := by
  obtain ⟨l, hl, hshape⟩ : ∃ l, optimizeLoop {} betweenBounds = .ok l ∧
      (l.ops.countP (·.isGuard) == 2 && l.preamble.any fun p => decide
        (∀ b ∈ [⟨1, .int⟩, ⟨4, .int⟩],
          b ∉ results p.ops ∧ ∀ g ∈ p.ops, .box b ∉ g.snapshot.operands)) = true :=
    exists_ok_of_any (by decide +kernel)
  simp only [Bool.and_eq_true, beq_iff_eq, Option.any_eq_true, decide_eq_true_eq] at hshape
  obtain ⟨hcount, p, hp, hforwarded⟩ := hshape
  have hheld : ∀ b ∈ ([⟨1, .int⟩, ⟨4, .int⟩] : List Box),
      ∃ g ∈ betweenBounds.ops, .box b ∈ g.snapshot.operands := by decide
  obtain ⟨hrenews, kept, kept', hopened, hclosed, -⟩ :=
    (guards_resume (by decide : betweenBounds.Drawn) hl).2 p hp
  exact ⟨l, p, hl, hp, hcount, fun b hb => ⟨hheld b hb, hforwarded b hb⟩, hrenews, kept, kept',
    hopened, hclosed⟩

end Config
end TracePeel
