import TracePeel.Proofs.Peeling.Retracing
import TracePeel.Proofs.Sharing

/-! What the recorded operations are in the next iteration.

`Casting` is the invariant of the notes while the recorded operations are gone through:
all boxes walked have a name, and the chains of the guards were copied frame by frame. An
operation becomes itself with every box mapped to its name (`Operation.Mapped`). Names once
given stay, so at the end one mapping serves for all operations. -/
namespace TracePeel

/-- The operation with every box that it reads or produces mapped, and a chain of its own. -/
structure Operation.Mapped (s : Box → Operand) (op op' : Operation) : Prop where
  opcode : op'.opcode = op.opcode
  args : op'.args = op.args.map (·.mapBox s)
  failArgs : op'.failArgs = op.failArgs.map (·.map (·.mapBox s))
  result : op'.result.map .box = op.result.map s
  descr : op.guard? = none → op'.descr = op.descr
  guarded : op'.guard?.isSome = op.guard?.isSome
  snapshot : Snapshot.Image (fun a a' => a' = a.mapBox s) op.snapshot op'.snapshot

/-- The numbers of the guards, in their order. -/
def guardNumbers (ops : List Operation) : List Nat :=
  ops.filterMap fun op => op.guard?.map (·.1)

@[simp] theorem guardNumbers_nil : guardNumbers [] = [] := rfl

@[simp] theorem guardNumbers_cons (op : Operation) (ops : List Operation) :
    guardNumbers (op :: ops) = (op.guard?.map (·.1)).toList ++ guardNumbers ops := by
  cases h : op.guard? <;> simp [guardNumbers, h]

theorem guardNumbers_append (xs ys : List Operation) :
    guardNumbers (xs ++ ys) = guardNumbers xs ++ guardNumbers ys := by
  simp [guardNumbers, List.filterMap_append]

/-- Operands are replaced by what others stand for that they were replaced by. -/
theorem Operand.map_mapBox_mapBox (s f : Box → Operand) (as : List Operand) :
    (as.map (·.mapBox s)).map (·.mapBox f) = as.map (·.mapBox fun b => (s b).mapBox f) := by
  rw [List.map_map]
  refine List.map_congr_left fun a _ => ?_
  cases a <;> rfl

theorem results_mapped {s : Box → Operand} {ops ops' : List Operation}
    (h : List.Forall₂ (Operation.Mapped s) ops ops') :
    (results ops).map s = (results ops').map .box := by
  induction h with
  | nil => rfl
  | @cons op op' ops ops' hop _ ih =>
    have hr := hop.result
    rw [results_cons, results_cons, List.map_append, List.map_append, ih]
    cases h₁ : op.result <;> cases h₂ : op'.result <;> simp_all

namespace Peeling
variable {n : Peeling}

/-- The relinker of the next iteration, and the next free frame number. -/
def supply (n : Peeling) (p : Pool) : Relinker.Supply :=
  ⟨n.relinker, p.nextFrame⟩

theorem next_rename {b : Box} (h : n.next.get? b ≠ none) : Next n.next (.box b) (n.rename b) := by
  obtain ⟨a, ha⟩ := Option.ne_none_iff_exists'.1 h
  show n.next.get? b = some (n.rename b)
  rw [rename, ha]
  rfl

theorem eq_mapBox {a a' : Operand} (h : Next n.next a a') : a' = a.mapBox n.rename := by
  cases a with
  | const c => exact h
  | box b =>
    have hb : n.next.get? b = some a' := h
    show a' = n.rename b
    rw [rename, hb]
    rfl

theorem eq_map {as as' : List Operand} (h : List.Forall₂ (Next n.next) as as') :
    as' = as.map (·.mapBox n.rename) :=
  eq_map_of_forall₂ (h.imp fun _ _ => eq_mapBox)

/-- What reads and produces the names of what the operation does is the operation mapped. -/
theorem mapped {T : FrameTable} {op op' : Operation} (h : op.Renders (Next n.next) T op')
    (hresult : Option.Rel (fun r r' => Next n.next (.box r) (.box r')) op.result op'.result) :
    op.Mapped n.rename op' where
  opcode := h.opcode
  args := eq_map h.args
  failArgs := by
    have hfail := h.failArgs
    generalize op.failArgs = fs, op'.failArgs = fs' at hfail ⊢
    cases hfail with
    | none => rfl
    | some hf => exact congrArg some (eq_map hf)
  result := by
    generalize op.result = r, op'.result = r' at hresult ⊢
    cases hresult with
    | none => rfl
    | some hr => exact congrArg some (eq_mapBox hr)
  descr hguard := by
    have hdescr := h.descr
    unfold Operation.guard? at hguard
    generalize op.descr = d, op'.descr = d' at hdescr hguard ⊢
    cases hdescr with
    | same => rfl
    | guard => cases hguard
  guarded := h.guard?_isSome
  snapshot := h.snapshot.mono fun _ _ => eq_mapBox

end Peeling

namespace Peel
variable {n : Peeling} {p : Pool} {op : Operation}

theorem recast_of_plain (h : op.guard? = none) :
    recast n p op = ({op with
      args := op.args.map (·.mapBox n.rename)
      failArgs := op.failArgs.map (·.map (·.mapBox n.rename))
      result := (recastResult n p op.result).1}, (recastResult n p op.result).2) := by
  have hdescr : ∀ n p, recastDescr n p op.descr = (op.descr, n, p) := by
    intro n p
    unfold Operation.guard? at h
    unfold recastDescr
    split
    next hd => rw [hd] at h; cases h
    next => rfl
  simp only [recast, hdescr]

theorem recast_of_guard {number : Nat} {chain : Snapshot}
    (hd : op.descr = some (.guard number chain)) (hr : op.result = none) :
    recast n p op = ({op with
      args := op.args.map (·.mapBox n.rename)
      failArgs := op.failArgs.map (·.map (·.mapBox n.rename))
      descr := some (.guard p.nextGuard
        (Relinker.relink (m := Id) n.rename chain (n.supply p)).1)},
      {n with relinker := (Relinker.relink (m := Id) n.rename chain (n.supply p)).2.relinker},
      {p with
        nextFrame := (Relinker.relink (m := Id) n.rename chain (n.supply p)).2.nextFrame
        nextGuard := p.nextGuard + 1}) := by
  obtain ⟨opcode, args, result, descr, failArgs⟩ := op
  cases hd
  cases hr
  rfl

end Peel

namespace Optimizer
open Peel Relinker

/-- The notes while recorded operations are gone through, from a time on at which the next
free frame was `first`. -/
structure Casting (T : FrameTable) (own : Nat → Prop) (first : Nat) (walked : List Box)
    (n : Peeling) (p : Pool) : Prop where
  named : Named walked n
  sound : Sound (Next n.next) T (n.supply p)
  faithful : Faithful T own (n.supply p)
  copying : n.relinker.sharing = false
  fresh : From first (n.supply p)

/-- One operation and what it is in the next iteration, by the names there are. -/
structure Cast (T : FrameTable) (first : Nat) (n : Peeling) (op op' : Operation) : Prop where
  renders : op.Renders (Next n.next) T op'
  named : Option.Rel (fun r r' => Next n.next (.box r) (.box r')) op.result op'.result
  remembers : n.relinker.Remembers op.snapshot op'.snapshot
  fresh : ∀ frame ∈ op'.snapshot, first ≤ frame.id

/-- Later notes: no name and no copy of a frame is lost. -/
structure Later (n n' : Peeling) : Prop where
  keeps : ∀ a a', Next n.next a a' → Next n'.next a a'
  grows : n.relinker.Grows n'.relinker

theorem Later.refl (n : Peeling) : Later n n :=
  ⟨fun _ _ h => h, .refl _⟩

theorem Later.trans {n₁ n₂ n₃ : Peeling} (h₁ : Later n₁ n₂) (h₂ : Later n₂ n₃) :
    Later n₁ n₃ :=
  ⟨fun a a' h => h₂.keeps a a' (h₁.keeps a a' h), h₁.grows.trans h₂.grows⟩

theorem Cast.later {T T' : FrameTable} {first : Nat} {n n' : Peeling} {op op' : Operation}
    (h : Cast T first n op op') (hT : T.Extends T') (hn : Later n n') :
    Cast T' first n' op op' where
  renders := (h.renders.mono hn.keeps).extends_ hT
  named := optionRel_imp (fun _ _ => hn.keeps _ _) h.named
  remembers := h.remembers.mono hn.grows
  fresh := h.fresh

theorem Cast.mapped {T : FrameTable} {first : Nat} {n : Peeling} {op op' : Operation}
    (h : Cast T first n op op') : op.Mapped n.rename op' :=
  Peeling.mapped h.renders h.named

/-- What an operation reads are the names that there were; the numbers that it takes from the
pool for the next iteration, and which frames that makes. -/
structure Takes (T : FrameTable) (n n' : Peeling) (p p' : Pool) (op op' : Operation) : Prop where
  reads : op.Renders (Next n.next) T op'
  result : op'.result = op.result.map fun r => ⟨p.nextBox, r.kind⟩
  number : op'.guard?.map (·.1) = op.guard?.map fun _ => p.nextGuard
  nextBox : p'.nextBox = p.nextBox + op.result.toList.length
  nextGuard : p'.nextGuard = p.nextGuard + op.guard?.toList.length
  nextFrame : p.nextFrame ≤ p'.nextFrame
  made : ∀ id, n'.relinker.Made id → n.relinker.Made id ∨ p.nextFrame ≤ id

/-- A guard produces nothing. -/
theorem result_of_guard {walked : List Box} {op : Operation} (hfits : op.Fits walked)
    (hplain : op.Plain) (hguard : op.guard?.isSome = true) : op.result = none := by
  cases hr : op.result with
  | none => rfl
  | some r =>
    have hres := (hfits.produced r hr).1
    have hg : op.isGuard = true := by
      by_contra hno
      rw [(hplain (by simpa using hno)).2] at hguard
      cases hguard
    revert hres hg
    unfold Operation.isGuard
    cases op.opcode <;> simp [Opcode.hasResult, Opcode.isGuard]

namespace Casting
variable {T : FrameTable} {own : Nat → Prop} {first : Nat} {walked : List Box} {n : Peeling}
  {p : Pool} {op : Operation}

theorem next (h : Casting T own first walked n p) {as : List Operand}
    (has : ∀ b, .box b ∈ as → b ∈ walked) :
    List.Forall₂ (Next n.next) as (as.map (·.mapBox n.rename)) := by
  refine List.forall₂_map_right_iff.2 (List.forall₂_same.2 fun a ha => ?_)
  cases a with
  | const c => rfl
  | box b => exact Peeling.next_rename ((h.named b).2 (has b ha))

theorem nextFailArgs (h : Casting T own first walked n p) (hfits : op.Fits walked) :
    Option.Rel (List.Forall₂ (Next n.next)) op.failArgs
      (op.failArgs.map (·.map (·.mapBox n.rename))) := by
  cases hf : op.failArgs with
  | none => exact .none
  | some as => exact .some (h.next fun b hb => hfits.reads b (by simp [Operation.usedArgs, hf, hb]))

/-- An operation that is no guard gives its result a name, and no chain is copied. -/
theorem recast_plain (h : Casting T own first walked n p) (hfits : op.Fits walked)
    (hguard : op.guard? = none) :
    Casting T own first (op.result.toList ++ walked) (recast n p op).2.1 (recast n p op).2.2 ∧
      Cast T first (recast n p op).2.1 op (recast n p op).1 ∧ Later n (recast n p op).2.1 ∧
      Takes T n (recast n p op).2.1 p (recast n p op).2.2 op (recast n p op).1 := by
  have hnamed := h.named.recast p op
  have hempty := Operation.snapshot_of_guard?_eq_none hguard
  have hno : ∀ k c, op.descr ≠ some (.guard k c) := by
    intro k c hd
    simp [Operation.guard?, hd] at hguard
  have hargs := h.next fun b hb =>
    hfits.reads b (List.mem_append_left _ (List.mem_append_left _ hb))
  have hfail := h.nextFailArgs hfits
  rw [recast_of_plain hguard] at hnamed ⊢
  obtain ⟨opcode, args, result, descr, failArgs⟩ := op
  have hrenders : ∀ result', Operation.Renders (Next n.next) T
      ⟨opcode, args, result, descr, failArgs⟩
      ⟨opcode, args.map (·.mapBox n.rename), result', descr,
        failArgs.map (·.map (·.mapBox n.rename))⟩ := fun _ => ⟨rfl, hargs, hfail, .same hno⟩
  have hremembers : ∀ r : Relinker, r.Remembers (Operation.snapshot ⟨opcode, args, result, descr,
      failArgs⟩) (Operation.snapshot ⟨opcode, args, result, descr, failArgs⟩) := by
    intro r
    rw [hempty]
    rfl
  have hfresh : ∀ frame ∈ Operation.snapshot ⟨opcode, args, result, descr, failArgs⟩,
      first ≤ frame.id := by
    rw [hempty]
    rintro _ ⟨⟩
  have hnumber : (Operation.guard? ⟨opcode, args, result, descr, failArgs⟩).map (·.1) =
      (Operation.guard? ⟨opcode, args, result, descr, failArgs⟩).map fun _ => p.nextGuard := by
    rw [hguard]
    rfl
  have hcount : p.nextGuard = p.nextGuard +
      (Operation.guard? ⟨opcode, args, result, descr, failArgs⟩).toList.length := by
    rw [hguard]
    rfl
  cases result with
  | none =>
    exact ⟨⟨hnamed, h.sound, h.faithful, h.copying, h.fresh⟩,
      ⟨hrenders none, .none, hremembers _, hfresh⟩, .refl n, hrenders none,
      rfl, hnumber, rfl, hcount, Nat.le_refl _, fun _ => .inl⟩
  | some r =>
    have hkeeps : ∀ a a', Next n.next a a' →
        Next (n.next.set r (.box ⟨p.nextBox, r.kind⟩)) a a' := by
      intro a a' ha
      refine ha.mono ?_
      by_contra hne
      exact (hfits.produced r rfl).2.2 ((h.named r).1 hne)
    exact ⟨⟨hnamed, h.sound.mono hkeeps, h.faithful, h.copying, h.fresh⟩,
      ⟨(hrenders _).mono hkeeps, .some (Bindings.get?_set_self ..), hremembers _, hfresh⟩,
      ⟨hkeeps, .refl _⟩, hrenders _, rfl, hnumber, rfl, hcount, Nat.le_refl _, fun _ => .inl⟩

/-- A guard has its chain copied, and gets a number of its own. -/
theorem recast_guard (h : Casting T own first walked n p) (hfits : op.Fits walked)
    (hplain : op.Plain) (hframes : op.snapshot.In T) (hown : ∀ frame ∈ op.snapshot, own frame.id)
    (hguard : op.guard?.isSome = true) :
    ∃ T', T.Extends T' ∧
      Casting T' own first (op.result.toList ++ walked) (recast n p op).2.1 (recast n p op).2.2 ∧
      Cast T' first (recast n p op).2.1 op (recast n p op).1 ∧ Later n (recast n p op).2.1 ∧
      Takes T' n (recast n p op).2.1 p (recast n p op).2.2 op (recast n p op).1 := by
  have hnone := result_of_guard hfits hplain hguard
  obtain ⟨number, chain, hd⟩ : ∃ number chain, op.descr = some (.guard number chain) := by
    unfold Operation.guard? at hguard
    split at hguard
    next number chain hd => exact ⟨number, chain, hd⟩
    next => cases hguard
  have hsnap : op.snapshot = chain := by simp [Operation.snapshot, hd]
  rw [hsnap] at hframes hown
  have hmap : ∀ b, .box b ∈ chain.operands → Next n.next (.box b) (n.rename b) := fun b hb =>
    Peeling.next_rename ((h.named b).2 (hfits.reads b (by simp [Operation.usedArgs, hsnap, hb])))
  obtain ⟨T', hT, hsound, hin, himage⟩ := h.sound.relink n.rename (fun _ => rfl) hframes hmap
  obtain ⟨hfaithful, hremembers, hgrows⟩ := h.faithful.relink n.rename hframes hown
  obtain ⟨hfresh, hframes'⟩ := h.fresh.relink n.rename (s := chain) (.inl h.copying)
  have hle := nextFrame_le_relink n.rename chain (n.supply p)
  have hnamed := h.named.recast p op
  have hargs := h.next fun b hb =>
    hfits.reads b (List.mem_append_left _ (List.mem_append_left _ hb))
  rw [recast_of_guard hd hnone] at hnamed ⊢
  have hbelow : ∀ k, own k → k < (relink (m := Id) n.rename chain (n.supply p)).2.nextFrame :=
    hfaithful.below
  have hkept : Faithful T' own (relink (m := Id) n.rename chain (n.supply p)).2 :=
    hfaithful.mono (Nat.le_refl _) hT (fun _ => id) (fun _ => .inl) hbelow
  have hcopying := (sharing_relink n.rename chain (n.supply p)).trans h.copying
  have hdescr : Descr.Image (Next n.next) T' op.descr
      (some (.guard p.nextGuard (relink (m := Id) n.rename chain (n.supply p)).1)) := by
    rw [hd]
    exact .guard himage hin
  refine ⟨T', hT, ⟨hnamed, hsound, hkept, hcopying, hfresh⟩,
    ⟨⟨rfl, hargs, h.nextFailArgs hfits, hdescr⟩, ?_, ?_, hframes'⟩, ⟨fun _ _ ha => ha, hgrows⟩,
    ⟨rfl, hargs, h.nextFailArgs hfits, hdescr⟩, ?_, ?_, ?_, ?_, hle,
    fun id => made_relink n.rename h.copying⟩
  · show Option.Rel _ op.result op.result
    rw [hnone]
    exact .none
  · rw [hsnap]
    exact hremembers
  · rw [hnone]
    rfl
  · simp [Operation.guard?, hd]
  · rw [hnone]
    rfl
  · simp [Operation.guard?, hd]

theorem recast (h : Casting T own first walked n p) (hfits : op.Fits walked)
    (hplain : op.Plain) (hframes : op.snapshot.In T) (hown : ∀ frame ∈ op.snapshot, own frame.id) :
    ∃ T', T.Extends T' ∧
      Casting T' own first (op.result.toList ++ walked) (Peel.recast n p op).2.1
        (Peel.recast n p op).2.2 ∧
      Cast T' first (Peel.recast n p op).2.1 op (Peel.recast n p op).1 ∧
      Later n (Peel.recast n p op).2.1 ∧
      Takes T' n (Peel.recast n p op).2.1 p (Peel.recast n p op).2.2 op (Peel.recast n p op).1 := by
  cases hguard : op.guard? with
  | none => exact ⟨T, .refl T, h.recast_plain hfits hguard⟩
  | some => exact h.recast_guard hfits hplain hframes hown (by rw [hguard]; rfl)

theorem congr {walked' : List Box} (hw : ∀ b, b ∈ walked ↔ b ∈ walked')
    (h : Casting T own first walked n p) : Casting T own first walked' n p :=
  {h with named := fun b => (h.named b).trans (hw b)}

/-- More frames were made by others. -/
theorem extends_ (h : Casting T own first walked n p) {T' : FrameTable} (hT : T.Extends T')
    {p' : Pool} (hp : p.nextFrame ≤ p'.nextFrame) (hbelow : T'.Below p'.nextFrame) :
    Casting T' own first walked n p' where
  named := h.named
  sound := h.sound.extends_ hT hbelow
  faithful := h.faithful.mono hp hT (fun _ => id) (fun _ => .inl) fun k hk =>
    Nat.lt_of_lt_of_le (h.faithful.below k hk) hp
  copying := h.copying
  fresh := ⟨Nat.le_trans h.fresh.1 hp, h.fresh.2⟩

end Casting

/-- What a list is in the next iteration, and the numbers that it takes. -/
structure Recopied (T : FrameTable) (first : Nat) (ops casts : List Operation) (n n' : Peeling)
    (p p' : Pool) : Prop where
  later : Later n n'
  cast : List.Forall₂ (Cast T first n') ops casts
  kinds : (results casts).map (·.kind) = (results ops).map (·.kind)
  ids : (results casts).map (·.id) = List.range' p.nextBox (results ops).length
  nextBox : p'.nextBox = p.nextBox + (results ops).length
  numbers : guardNumbers casts = List.range' p.nextGuard (guardNumbers ops).length
  nextGuard : p'.nextGuard = p.nextGuard + (guardNumbers ops).length

namespace Recopied
variable {T T' : FrameTable} {first : Nat} {ops ops' casts casts' : List Operation}
  {n n₁ n' : Peeling} {p p₁ p' : Pool}

theorem nil (n : Peeling) (p : Pool) : Recopied T first [] [] n n p p :=
  ⟨.refl n, .nil, rfl, rfl, rfl, rfl, rfl⟩

theorem one {op op' : Operation} (hcast : Cast T first n₁ op op') (hlater : Later n n₁)
    (htakes : Takes T n n₁ p p₁ op op') : Recopied T first [op] [op'] n n₁ p p₁ := by
  refine ⟨hlater, .cons hcast .nil, ?_, ?_, ?_, ?_, ?_⟩
  · rw [results_cons, results_cons, htakes.result]
    cases op.result <;> rfl
  · rw [results_cons, results_cons, htakes.result]
    cases op.result <;> rfl
  · simpa using htakes.nextBox
  · rw [guardNumbers_cons, guardNumbers_cons, htakes.number]
    cases op.guard? <;> rfl
  · rw [htakes.nextGuard, guardNumbers_cons]
    cases op.guard? <;> rfl

/-- One list behind another. -/
theorem append (h : Recopied T first ops casts n n₁ p p₁) (hT : T.Extends T')
    (h' : Recopied T' first ops' casts' n₁ n' p₁ p') :
    Recopied T' first (ops ++ ops') (casts ++ casts') n n' p p' := by
  refine ⟨h.later.trans h'.later,
    List.rel_append (h.cast.imp fun _ _ hc => hc.later hT h'.later) h'.cast, ?_, ?_, ?_, ?_, ?_⟩
  · simp only [results_append, List.map_append, h.kinds, h'.kinds]
  · rw [results_append, results_append, List.map_append, List.length_append, h.ids, h'.ids,
      h.nextBox, List.range'_append_1]
  · rw [h'.nextBox, h.nextBox, results_append, List.length_append, Nat.add_assoc]
  · rw [guardNumbers_append, guardNumbers_append, List.length_append, h.numbers, h'.numbers,
      h.nextGuard, List.range'_append_1]
  · rw [h'.nextGuard, h.nextGuard, guardNumbers_append, List.length_append, Nat.add_assoc]

/-- What happens to the frames of the pool does not matter. -/
theorem repool (h : Recopied T first ops casts n n' p p') {q : Pool}
    (hbox : q.nextBox = p'.nextBox) (hguard : q.nextGuard = p'.nextGuard) :
    Recopied T first ops casts n n' p q :=
  {h with nextBox := hbox.trans h.nextBox, nextGuard := hguard.trans h.nextGuard}

theorem extends_ (h : Recopied T first ops casts n n' p p') (hT : T.Extends T') :
    Recopied T' first ops casts n n' p p' :=
  {h with cast := h.cast.imp fun _ _ hc => hc.later hT (.refl _)}

theorem mapped (h : Recopied T first ops casts n n' p p') :
    List.Forall₂ (Operation.Mapped n'.rename) ops casts :=
  h.cast.imp fun _ _ hc => hc.mapped

/-- What is produced has new numbers, each once. -/
theorem fresh (h : Recopied T first ops casts n n' p p') :
    (results casts).Nodup ∧ ∀ b ∈ results casts, p.nextBox ≤ b.id := by
  refine ⟨.of_map Box.id ?_, fun b hb => ?_⟩
  · rw [h.ids]
    exact List.nodup_range'
  · have hid : b.id ∈ (results casts).map (·.id) := List.mem_map_of_mem hb
    rw [h.ids] at hid
    exact (List.mem_range'_1.1 hid).1

/-- Each input is named after what the jump hands over for it. -/
theorem handed {inputs : List Box} {args : List Operand}
    (h : Recopied T first ops casts (startingNotes inputs args) n' p p') (hnodup : inputs.Nodup)
    (hlen : inputs.length = args.length) : inputs.map n'.rename = args := by
  refine List.ext_getElem (by simpa using hlen) fun i hi hi' => ?_
  rw [List.getElem_map]
  have hi'' : i < inputs.length := by simpa using hi
  have hnext : Next (startingNotes inputs args).next (.box inputs[i]) args[i] :=
    (next_inputs hnodup hlen).2 (List.mem_iff_getElem.2 ⟨i, by simpa using ⟨hi'', hi'⟩, by simp⟩)
  exact (Peeling.eq_mapBox (h.later.keeps _ _ hnext)).symm

end Recopied

end Optimizer
end TracePeel
