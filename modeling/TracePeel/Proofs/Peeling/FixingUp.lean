import Mathlib.Data.List.Nodup
import TracePeel.Proofs.Peeling.Replaying

/-! No value of the preamble is left out.

The list that goes round may read what the preamble made available, and only what it
was handed over may be read. Going through all that the list reads finds every box that
is missing; `Searching` is the invariant of that search, and a box added to the inputs
is one of the boxes that exist since before the list goes round, so the search ends. -/
namespace TracePeel

/-- No more distinct keys are bound than there are entries. -/
theorem Bindings.length_le_size {κ ν : Type} [DecidableEq κ] {m : Bindings κ ν} {ks : List κ}
    (hn : ks.Nodup) (h : ∀ k ∈ ks, ∃ v, m.get? k = some v) : ks.length ≤ m.size := by
  have hsub : ks ⊆ m.entries.map (·.1) := by
    intro k hk
    obtain ⟨v, hv⟩ := h k hk
    exact List.mem_map.2 ⟨_, Bindings.mem_of_get? hv, rfl⟩
  calc ks.length ≤ (m.entries.map (·.1)).length := (hn.subperm hsub).length_le
    _ = m.size := List.length_map ..

theorem Accepts.reads {d : List Box} {ops : List Operation} (h : Accepts d ops) {op : Operation}
    (hop : op ∈ ops) {b : Box} (hb : .box b ∈ op.usedArgs) : b ∈ d ++ results ops := by
  induction ops generalizing d with
  | nil => cases hop
  | cons op' rest ih =>
    obtain ⟨hfits, _, hrest⟩ := h
    rcases List.mem_cons.1 hop with rfl | hop
    · exact List.mem_append_left _ (hfits.reads b hb)
    · exact mem_append_results_cons.2 (ih hrest hop)

/-- A list is accepted behind just those boxes that it reads. -/
theorem Accepts.restrict {d d' : List Box} {ops : List Operation} (h : Accepts d ops)
    (hsub : d' ⊆ d) (hreads : ∀ op ∈ ops, ∀ b, .box b ∈ op.usedArgs → b ∈ d → b ∈ d') :
    Accepts d' ops := by
  induction ops generalizing d d' with
  | nil => trivial
  | cons op rest ih =>
    obtain ⟨hop, hfinal, hrest⟩ := h
    have hhead := hreads op (List.mem_cons_self ..)
    refine ⟨⟨hop.arity, fun b hb => hhead b hb (hop.reads b hb), hop.kinds, hop.guarded,
      fun r hr => ?_, hop.unproduced⟩, hfinal, ih hrest (fun b hb => ?_) fun op' hop' b hb hd => ?_⟩
    · obtain ⟨h₁, h₂, h₃⟩ := hop.produced r hr
      exact ⟨h₁, h₂, fun hm => h₃ (hsub hm)⟩
    · rcases List.mem_append.1 hb with hb | hb
      · exact List.mem_append_left _ hb
      · exact List.mem_append_right _ (hsub hb)
    · rcases List.mem_append.1 hd with hd | hd
      · exact List.mem_append_left _ hd
      · exact List.mem_append_right _ (hreads op' (.tail _ hop') b hb hd)

namespace Peel

theorem mem_boxesRead {ops : List Operation} {b : Box} :
    b ∈ boxesRead ops ↔ ∃ op ∈ ops, .box b ∈ op.usedArgs := by
  simp only [boxesRead, List.mem_filterMap, List.mem_flatMap]
  constructor
  · rintro ⟨a, ⟨op, hop, ha⟩, hb⟩
    cases a <;> cases hb
    exact ⟨op, hop, ha⟩
  · rintro ⟨op, hop, hb⟩
    exact ⟨_, ⟨op, hop, hb⟩, rfl⟩

theorem boxesRead_append (xs ys : List Operation) :
    boxesRead (xs ++ ys) = boxesRead xs ++ boxesRead ys := by
  simp [boxesRead]

end Peel

namespace Optimizer
open Peel

/-- What the jump hands over for an input of the loop: what the input is in the next
iteration, as it is emitted. -/
def Hands (next : Bindings Box Operand) (base : List Box) (o : Optimizer) (b : Box)
    (a' : Operand) : Prop :=
  ∃ a, next.get? b = some a ∧ a.kind = b.kind ∧ Delivers base base o a a'

theorem Hands.kind {next : Bindings Box Operand} {base : List Box} {o : Optimizer} {b : Box}
    {a' : Operand} (h : Hands next base o b a') : a'.kind = b.kind :=
  let ⟨_, _, hk, hd⟩ := h
  hd.stands.1.trans hk

theorem Grown.hands {next : Bindings Box Operand} {base : List Box} {o o' : Optimizer}
    (h : Grown o o') {b : Box} {a' : Operand} (ha : Hands next base o b a') :
    Hands next base o' b a' :=
  let ⟨a, hb, hk, hd⟩ := ha
  ⟨a, hb, hk, h.delivers hd⟩

theorem Grown.at_ {rest : List Stage} {n : Peeling} {o o' : Optimizer} (h : Grown o o')
    (hat : At rest n o) : At rest n o' := by
  rw [At, h.same]
  exact hat

section
variable {E : OptError → Prop} {N : Nat} {T : FrameTable} {base defined walked : List Box}
  {rest : List Stage} {n : Peeling}

theorem ends_forceValue {a : Operand} {o : Optimizer} {Q : Operand → Optimizer → Prop} :
    Ends E (do force (← valueOf a)) o Q ↔ Yields (do force (← valueOf a)) o Q := by
  rw [ends_bind, ends_lift]
  rfl

/-- What one input is in the next iteration is forced. -/
theorem hand_ends {o : Optimizer} {nextFrame : Nat} (hat : At rest n o)
    (hnames : Renaming T defined walked n nextFrame) {b : Box} (hb : b ∈ walked)
    (h : Built N T base base defined o.values o.out.toList) :
    Ends E (do force (← valueOf (← nextOf 0 b))) o fun a' o' =>
      (Built N T base base defined o'.values o'.out.toList ∧ At rest n o') ∧ Grown o o' ∧
        Hands n.next base o' b a' := by
  obtain ⟨a, ha, hk, hd⟩ := hnames.next b hb
  rw [ends_bind, ends_nextOf hat ha, ends_forceValue]
  exact (forceValue_yields hd h).mono fun a' o' ⟨hbuilt, hg, hdel⟩ =>
    ⟨⟨hbuilt, hg.at_ hat⟩, hg, a, ha, hk, hdel⟩

/-- What the inputs are in the next iteration is forced for the jump. -/
theorem jumpArgs_ends {o : Optimizer} {nextFrame : Nat} (hat : At rest n o)
    (hnames : Renaming T defined walked n nextFrame) {inputs : List Box}
    (hinputs : inputs ⊆ walked) (h : Built N T base base defined o.values o.out.toList) :
    Ends E (jumpArgs 0 inputs) o fun as o' =>
      Built N T base base defined o'.values o'.out.toList ∧ Grown o o' ∧
        List.Forall₂ (Hands n.next base o') inputs as := by
  have hp : Persists Grown (Hands n.next base) := ⟨fun _ => .refl, Grown.trans, fun h => h.hands⟩
  refine (ends_mapM hp (I := fun o => Built N T base base defined o.values o.out.toList ∧
    At rest n o) (fun b hb o ho => hand_ends ho.2 hnames (hinputs hb) ho.1) ⟨h, hat⟩).mono
    fun as o' ⟨ho', hg, has⟩ => ⟨ho'.1, hg, has⟩

/-! ### The search -/

/-- What the list reads is ready at its end. -/
theorem ready_of_read {v : Values} {out : List Operation} {start : List Box}
    (h : Built N T base start defined v out) {b : Box} (hb : b ∈ boxesRead out) :
    v.Ready (base ++ results out) start (.box b) := by
  obtain ⟨op, hop, hread⟩ := mem_boxesRead.1 hb
  rintro _ ⟨⟩
  exact ⟨h.accepts.reads hop hread, h.marked op hop b hread⟩

/-- The invariant of the search: each box that the list or the jump reads of those that the
list begins with is an input or still to be looked at. -/
structure Searching (base inputs work : List Box) (args : List Operand) (o : Optimizer) :
    Prop where
  nodup : inputs.Nodup
  subset : inputs ⊆ base
  covered : ∀ b ∈ base, b ∈ boxesRead o.out.toList ∨ .box b ∈ args → b ∈ inputs ∨ b ∈ work
  work : ∀ b ∈ work, o.values.Ready (base ++ results o.out.toList) base (.box b)

/-- What is found among the boxes to be looked at: the first that the list begins with and that
is no input yet, and the boxes behind it. -/
def Found (base inputs work : List Box) : Option (Box × List Box) → Prop
  | none => ∀ b ∈ work, b ∈ base → b ∈ inputs
  | some (b, later) => b ∈ work ∧ b ∈ base ∧ b ∉ inputs ∧ later ⊆ work ∧
    ∀ c ∈ work, c ∈ base → c ∈ inputs ∨ c = b ∨ c ∈ later

/-- A box that needs no input is passed over. -/
theorem Found.skip {inputs work : List Box} {found : Option (Box × List Box)} {b : Box}
    (h : Found base inputs work found) (hb : b ∈ base → b ∈ inputs) :
    Found base inputs (b :: work) found := by
  cases found with
  | none =>
    intro c hc hcb
    rcases List.mem_cons.1 hc with rfl | hc
    · exact hb hcb
    · exact h c hc hcb
  | some found =>
    obtain ⟨hmem, hbase, hin, hsub, hcov⟩ := h
    refine ⟨.tail _ hmem, hbase, hin, List.subset_cons_of_subset _ hsub, fun c hc hcb => ?_⟩
    rcases List.mem_cons.1 hc with rfl | hc
    · exact .inl (hb hcb)
    · exact hcov c hc hcb

/-- A value that can be read and exists since before the list goes round needs no forcing, and
it was emitted as its box, if not as a constant. -/
theorem input_of_fromStart {v : Values} {out : List Operation}
    (h : Built N T base base defined v out) {b : Box}
    (hb : v.Ready (base ++ results out) base (.box b)) {id : ValueId}
    (hid : v.index.get? (.box b) = some id) (hfrom : (v.slot id).fromStart = true) :
    b ∈ base ∧ (v.slot id).virtual = none ∧ (v.slot id).operand.box?.getD b = b := by
  have hmem : b ∈ base := (h.table.isFromStart_iff hb).1 ⟨id, hid, hfrom⟩
  have hslot := h.table.slots id (h.table.inRange _ id hid)
  obtain ⟨id', hid', _, hr⟩ := (hb b rfl).2 hmem
  cases hid.symm.trans hid'
  refine ⟨hmem, ?_, ?_⟩
  · cases hv : (v.slot id).virtual with
    | none => rfl
    | some object =>
      obtain ⟨r, hr, _, hn⟩ := hslot.held object hv
      exact absurd (List.mem_append_left _ ((hslot.fromStart r hr).1 hfrom)) hn
  · cases hop : (v.slot id).operand with
    | const c => rfl
    | box r => exact hr r hop

/-- A box found by the search is one of those that the list begins with and no input yet. -/
theorem nextInput_yields {inputs work : List Box} {o : Optimizer}
    (h : Built N T base base defined o.values o.out.toList)
    (hwork : ∀ b ∈ work, o.values.Ready (base ++ results o.out.toList) base (.box b)) :
    Yields (nextInput inputs work) o fun found o' => o' = o ∧ Found base inputs work found := by
  induction work with
  | nil => exact ⟨rfl, List.forall_mem_nil _⟩
  | cons b work ih =>
    have hready := hwork b (List.mem_cons_self ..)
    have hskip (hb : b ∈ base → b ∈ inputs) : Yields (nextInput inputs work) o fun found o' =>
        o' = o ∧ Found base inputs (b :: work) found :=
      (ih fun c hc => hwork c (.tail _ hc)).mono fun _ _ ⟨ho', hfound⟩ => ⟨ho', hfound.skip hb⟩
    -- A box of the list's beginning is the key of a marked value.
    have hmarked (hb : b ∈ base) : o.values.IsFromStart b :=
      (h.table.isFromStart_iff hready).2 hb
    unfold nextInput
    rw [yields_bind, yields_get]
    cases hlookup : o.values.lookup b with
    | none =>
      refine hskip fun hb => ?_
      obtain ⟨id, hid, -⟩ := hmarked hb
      rw [hid] at hlookup
      cases hlookup
    | some id =>
      simp only [yields_bind, yields_slot]
      split
      next hfrom =>
        obtain ⟨hb, hvirtual, hinput⟩ := input_of_fromStart h hready hlookup hfrom
        simp only [force, yields_bind, yields_modifyGet, Values.force_of_real hvirtual, hinput]
        split
        next hin => exact hskip fun _ => hin
        next hin =>
          refine ⟨rfl, List.mem_cons_self .., hb, hin, List.subset_cons_self .., fun c hc _ => ?_⟩
          rcases List.mem_cons.1 hc with rfl | hc
          · exact .inr (.inl rfl)
          · exact .inr (.inr hc)
      next hfrom =>
        refine hskip fun hb => ?_
        obtain ⟨id', hid', hfrom'⟩ := hmarked hb
        cases hlookup.symm.trans hid'
        exact absurd hfrom' hfrom

/-- The search went on from a state and is done. -/
structure Searched (N : Nat) (T : FrameTable) (base defined : List Box)
    (next : Bindings Box Operand) (inputs added : List Box) (args handed : List Operand)
    (o o' : Optimizer) : Prop where
  built : Built N T base base defined o'.values o'.out.toList
  grown : Grown o o'
  nodup : (inputs ++ added).Nodup
  subset : inputs ++ added ⊆ base
  closed : ∀ b ∈ base, b ∈ boxesRead o'.out.toList ∨ .box b ∈ args ++ handed →
    b ∈ inputs ++ added
  hands : List.Forall₂ (Hands next base o') added handed

/-- What an added box is in the next iteration was forced, and the search goes on behind it. -/
theorem Searching.more {inputs work later : List Box} {args : List Operand} {o o' : Optimizer}
    {next : Bindings Box Operand} (h : Searching base inputs work args o)
    (hbuilt : Built N T base base defined o.values o.out.toList) (hg : Grown o o')
    (hbuilt' : Built N T base base defined o'.values o'.out.toList) {b : Box} {a' : Operand}
    (hb : b ∈ base) (hin : b ∉ inputs) (hlater : later ⊆ work)
    (hcov : ∀ c ∈ work, c ∈ base → c ∈ inputs ∨ c = b ∨ c ∈ later)
    (ha' : Hands next base o' b a') :
    Searching base (inputs ++ [b])
      (later ++ a'.box?.toList ++ boxesRead (o'.out.toList.drop o.out.toList.length))
      (args ++ [a']) o' := by
  obtain ⟨new, hnew⟩ := hg.out_grows
  have hread : ∀ c, c ∈ boxesRead o'.out.toList ↔
      c ∈ boxesRead o.out.toList ∨ c ∈ boxesRead new := fun c => by
    rw [← hnew, boxesRead_append, List.mem_append]
  rw [show o'.out.toList.drop o.out.toList.length = new by rw [← hnew]; simp]
  refine ⟨?_, List.append_subset.2 ⟨h.subset, by simpa using hb⟩, fun c hc hread' => ?_,
    fun c hc => ?_⟩
  · rw [List.nodup_append]
    refine ⟨h.nodup, List.nodup_singleton b, ?_⟩
    rintro x hx y hy rfl
    rw [List.mem_singleton] at hy
    exact hin (hy ▸ hx)
  · have hold : c ∈ inputs ∨ c ∈ work → c ∈ inputs ∨ c = b ∨ c ∈ later :=
      fun hw => hw.elim .inl fun hw => hcov c hw hc
    have hbox : ∀ a : Operand, .box c = a → a.box? = some c := by
      rintro _ rfl
      rfl
    simp only [List.mem_append, List.mem_singleton, Option.mem_toList] at hread' ⊢
    rcases hread' with hr | hr | hr
    · rcases (hread c).1 hr with hr | hr
      · have := hold (h.covered c hc (.inl hr))
        tauto
      · exact .inr (.inr hr)
    · have := hold (h.covered c hc (.inr hr))
      tauto
    · exact .inr (.inl (.inr (hbox a' hr)))
  · obtain ⟨a, _, _, hdel⟩ := ha'
    simp only [List.mem_append, Option.mem_toList] at hc
    rcases hc with (hc | hc) | hc
    · exact (h.work c (hlater hc)).mono hbuilt.table.inRange (hg.extends_.available base)
        hg.later
    · have hbox : a' = .box c := by
        cases a' <;> cases hc
        rfl
      exact hbox ▸ hdel.stands.2
    · exact ready_of_read hbuilt' ((hread c).2 (.inr hc))

/-- The list reads the box, or the jump does with these operands. -/
def Read (args : List Operand) (o : Optimizer) (b : Box) : Prop :=
  b ∈ boxesRead o.out.toList ∨ .box b ∈ args

theorem Read.mono {args args' : List Operand} {o o' : Optimizer} {b : Box} (h : Read args o b)
    (hout : o.out.toList <+: o'.out.toList) (hargs : args ⊆ args') : Read args' o' b := by
  refine h.imp (fun hb => ?_) fun hb => hargs hb
  obtain ⟨op, hop, hb⟩ := mem_boxesRead.1 hb
  exact mem_boxesRead.2 ⟨op, hout.subset hop, hb⟩

/-- What is looked at after a round is read: what was left over, what is handed over now, and
what the operations read that were forced for it. -/
theorem read_later {later : List Box} {args : List Operand} {o o' : Optimizer} {a : Operand}
    {c : Box} (hout : o.out.toList <+: o'.out.toList) (hlater : ∀ c ∈ later, Read args o c)
    (hc : c ∈ later ++ a.box?.toList ++ boxesRead (o'.out.toList.drop o.out.toList.length)) :
    Read (args ++ [a]) o' c := by
  simp only [List.mem_append, Option.mem_toList] at hc
  rcases hc with (hc | hc) | hc
  · exact (hlater c hc).mono hout (List.subset_append_left ..)
  · cases a <;> cases hc
    exact .inr (by simp)
  · obtain ⟨op, hop, hc⟩ := mem_boxesRead.1 hc
    exact .inl (mem_boxesRead.2 ⟨op, List.drop_subset _ _ hop, hc⟩)

/-- The search finds every box that is missing, and only boxes that are read. -/
theorem addInputs_ends {bound fuel nextFrame : Nat} {inputs work : List Box}
    {args : List Operand} {o : Optimizer} (hat : At rest n o)
    (hnames : Renaming T defined walked n nextFrame) (hbase : base ⊆ walked)
    (h : Built N T base base defined o.values o.out.toList) (hs : Searching base inputs work args o)
    (hread : ∀ b ∈ work, Read args o b)
    (hbound : ∀ bs : List Box, bs.Nodup → bs ⊆ base → bs.length ≤ bound)
    (hfuel : bound < fuel + inputs.length) :
    Ends E (addInputs 0 fuel inputs args work o.out.toList.length) o fun r o' =>
      ∃ added handed, r = (inputs ++ added, args ++ handed) ∧
        Searched N T base defined n.next inputs added args handed o o' ∧
        ∀ b ∈ added, Read (args ++ handed) o' b := by
  induction fuel generalizing inputs work args o with
  | zero =>
    have := hbound inputs hs.nodup hs.subset
    omega
  | succ fuel ih =>
    unfold addInputs
    rw [ends_bind, ends_lift]
    refine (nextInput_yields h hs.work).mono fun found o' ⟨ho', hfound⟩ => ?_
    rw [ho']
    cases found with
    | none =>
      refine ⟨[], [], by simp, ⟨h, .refl, by simpa using hs.nodup, by simpa using hs.subset,
        fun b hb hread => ?_, .nil⟩, List.forall_mem_nil _⟩
      rw [List.append_nil] at hread ⊢
      exact (hs.covered b hb hread).elim id fun hw => hfound b hw hb
    | some found =>
      obtain ⟨b, later⟩ := found
      obtain ⟨hmem, hb, hin, hlater, hcov⟩ := hfound
      have hhand := hand_ends (E := E) hat hnames (hbase hb) h
      rw [ends_bind] at hhand
      show Ends E (nextOf 0 b >>= _) _ _
      rw [ends_bind]
      refine hhand.mono fun a o₁ hhand => ?_
      rw [ends_bind] at hhand ⊢
      refine hhand.mono fun id o₂ hhand => ?_
      rw [ends_bind]
      refine hhand.mono fun a' o₃ ⟨⟨hbuilt, hat₃⟩, hg, ha'⟩ => ?_
      rw [ends_bind, ends_lift, yields_tell, ends_bind, ends_get]
      set o₄ : Optimizer := {o₃ with events := o₃.events.push (.inputAdded b a')} with ho₄
      have hg₄ : Grown o o₄ := hg.told _
      have hs₄ := hs.more h hg₄ hbuilt hb hin hlater hcov ((Grown.refl.told _).hands ha')
      have hread₄ : ∀ c ∈ later ++ a'.box?.toList ++
          boxesRead (o₄.out.toList.drop o.out.toList.length), Read (args ++ [a']) o₄ c :=
        fun c hc => read_later hg₄.out_grows (fun c hc => hread c (hlater hc)) hc
      refine (ih (o := o₄) hat₃ hbuilt hs₄ hread₄ ?_).mono
        fun r o' ⟨added, handed, hr, hd, hadded⟩ => ?_
      · rw [List.length_append, List.length_singleton]
        omega
      have hargs : args ++ a' :: handed = args ++ [a'] ++ handed := by simp
      refine ⟨b :: added, a' :: handed, by simp [hr], ⟨hd.built, hg₄.trans hd.grown, ?_, ?_, ?_,
        .cons (hd.grown.hands ((Grown.refl.told _).hands ha')) hd.hands⟩, fun c hc => ?_⟩
      · simpa using hd.nodup
      · simpa using hd.subset
      · simpa using hd.closed
      · rcases List.mem_cons.1 hc with rfl | hc
        · exact (hread c hmem).mono (hg₄.trans hd.grown).out_grows (List.subset_append_left ..)
        · exact hargs ▸ hadded c hc

/-! ### Behind the jump -/

/-- The jump stands behind what the search wrote, and hands over what was added. -/
structure FixedUp (N : Nat) (T : FrameTable) (base defined : List Box)
    (next : Bindings Box Operand) (inputs inputs' : List Box) (jump : Operation)
    (out : Array Operation) (o o' : Optimizer) : Prop where
  searched : ∃ added handed o₁ stats, inputs' = inputs ++ added ∧
    Searched N T base defined next inputs added jump.args handed {o with out} o₁ ∧
    o' = {o₁ with
      stats
      out := o₁.out.push {jump with args := jump.args ++ handed}}

/-- The jump that the list ends in is taken off. -/
theorem ends_takeJump {o : Optimizer} {out : Array Operation} {jump : Operation}
    (hout : o.out = out.push jump) (hjump : jump.opcode = .jump)
    {Q : Operation → Optimizer → Prop} : Ends E takeJump o Q ↔ Q jump {o with out} := by
  unfold takeJump
  rw [ends_bind, ends_get, hout]
  simp only [Array.back?_push]
  rw [ends_bind, ends_modify, if_pos hjump, hout, Array.pop_push]
  exact ends_pure

/-- The search begins with what the list and the jump read, and each box that the list begins
with is a key of the table. -/
theorem searching_begin {inputs : List Box} {o : Optimizer} {out : Array Operation}
    {jump : Operation} (h : Built N T base base defined o.values out.toList)
    (hargs : ∀ a ∈ jump.args, o.values.Ready (base ++ results out.toList) base a)
    (hnodup : inputs.Nodup) (hsub : inputs ⊆ base) :
    Searching base inputs (boxesRead out.toList ++ jump.args.filterMap Operand.box?) jump.args
        {o with out} ∧
      (∀ b ∈ boxesRead out.toList ++ jump.args.filterMap Operand.box?,
        Read jump.args {o with out} b) ∧
      ∀ bs : List Box, bs.Nodup → bs ⊆ base → bs.length ≤ o.values.index.size := by
  have hread : ∀ b, b ∈ jump.args.filterMap Operand.box? → .box b ∈ jump.args := by
    intro b hb
    obtain ⟨a, ha, hb⟩ := List.mem_filterMap.1 hb
    cases a <;> cases hb
    exact ha
  refine ⟨⟨hnodup, hsub, fun b _ hb => .inr (List.mem_append.2 ?_), fun b hb => ?_⟩,
    fun b hb => (List.mem_append.1 hb).imp id (hread b), fun bs hn hbs => ?_⟩
  · exact hb.imp id fun hb => List.mem_filterMap.2 ⟨_, hb, rfl⟩
  · rcases List.mem_append.1 hb with hb | hb
    · exact ready_of_read h hb
    · exact hargs _ (hread b hb)
  · have hinj : Function.Injective Operand.box := fun _ _ h => Operand.box.inj h
    rw [← List.length_map (f := Operand.box)]
    refine Bindings.length_le_size (hn.map hinj) fun k hk => ?_
    obtain ⟨b, hb, rfl⟩ := List.mem_map.1 hk
    exact h.table.begun b (hbs hb)

/-- The list ends in the jump, so the search begins and no box is missing afterwards. -/
theorem fixUp_ends {nextFrame : Nat} {inputs : List Box} {o : Optimizer} {out : Array Operation}
    {jump : Operation} (hat : At rest n o) (hnames : Renaming T defined walked n nextFrame)
    (hbase : base ⊆ walked) (hout : o.out = out.push jump) (hjump : jump.opcode = .jump)
    (h : Built N T base base defined o.values out.toList)
    (hargs : ∀ a ∈ jump.args, o.values.Ready (base ++ results out.toList) base a)
    (hnodup : inputs.Nodup) (hsub : inputs ⊆ base) :
    Ends E (fixUp 0 inputs) o fun inputs' o' =>
      FixedUp N T base defined n.next inputs inputs' jump out o o' := by
  unfold fixUp
  rw [ends_bind, ends_takeJump hout hjump, ends_bind, ends_get, ends_bind]
  obtain ⟨hs, hread, hbound⟩ := searching_begin (o := o) h hargs hnodup hsub
  refine (addInputs_ends (o := {o with out}) hat hnames hbase h hs hread hbound (by
    show o.values.index.size < o.values.slots.size + o.values.index.size + 1 + inputs.length
    omega)).mono fun r o₁ ⟨added, handed, hr, hd, _⟩ => ?_
  subst hr
  exact ⟨added, handed, o₁, _, rfl, hd, rfl⟩

end
end Optimizer
end TracePeel
