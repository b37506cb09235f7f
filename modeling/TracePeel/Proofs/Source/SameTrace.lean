import Mathlib.Data.List.Forall2
import Mathlib.Data.Set.Function
import TracePeel.Proofs.Source.Renaming

/-! A dump read back is the same trace.

Two traces are the same up to names if the boxes of one are those of the other under new
names of their kinds, if so are the loops that it jumps to, and if nothing else differs but
the numbers of guards and the identities of frames (`Trace.Renamed`). A well-formed trace
that can be written in full is read back as one that is the same
(`Trace.dump_reads_back`). -/
namespace TracePeel

/-! ### The same up to names -/

/-- The descriptor is the same up to the names of boxes and loops, the number of a guard and
the identities of its frames. -/
inductive Descr.Renamed (f : Box → Box) (g : LoopToken → LoopToken) : Descr → Descr → Prop
  | loop (t : LoopToken) : Renamed f g (.loop t) (.loop (g t))
  | guard (m n : Nat) {s s' : Snapshot}
    (h : s'.map (·.entries) = s.map (·.entries.map (·.rename f))) :
    Renamed f g (.guard m s) (.guard n s')
  | field (name : String) : Renamed f g (.field name) (.field name)
  | size (name : String) : Renamed f g (.size name) (.size name)

structure Operation.Renamed (f : Box → Box) (g : LoopToken → LoopToken) (op op' : Operation) :
    Prop where
  opcode : op'.opcode = op.opcode
  args : op'.args = op.args.map (·.rename f)
  result : op'.result = op.result.map f
  descr : Option.Rel (Descr.Renamed f g) op.descr op'.descr
  failArgs : op'.failArgs = op.failArgs.map (·.map (·.rename f))

/-- The loops that some operations name. -/
def loopTokens (ops : List Operation) : List LoopToken :=
  ops.filterMap (·.token?)

/-- The traces are the same up to the names of boxes and loops, the numbers of guards and the
identities of frames. New names keep boxes of different names apart, and so they do with
loops; guards are numbered in their order. -/
structure Trace.Renamed (f : Box → Box) (g : LoopToken → LoopToken) (t t' : Trace) : Prop where
  name : t'.name = t.name
  token : t'.token = g t.token
  inputs : t'.inputs = t.inputs.map f
  ops : List.Forall₂ (Operation.Renamed f g) t.ops t'.ops
  kinds : ∀ b, (f b).kind = b.kind
  boxes : Set.BijOn f {b | b ∈ t.boxes} {b | b ∈ t'.boxes}
  loops : Set.InjOn g {k | k = t.token ∨ k ∈ loopTokens t.ops}
  guards : guardNumbers t'.ops = List.range (guardNumbers t.ops).length

section Renamed
variable {f : Box → Box} {g : LoopToken → LoopToken} {op op' : Operation}
  {ops ops' : List Operation}

theorem Operation.Renamed.snapshot (h : op.Renamed f g op') :
    op'.snapshot.operands = op.snapshot.operands.map (·.rename f) := by
  have hdescr := h.descr
  unfold Operation.snapshot
  generalize op.descr = descr at hdescr ⊢
  generalize op'.descr = descr' at hdescr ⊢
  rcases hdescr with ⟨_ | ⟨m, n, hentries⟩ | _ | _⟩ | _ <;> try rfl
  simp only [Snapshot.operands, List.flatMap_def, hentries, List.map_flatten, List.map_map]
  rfl

theorem Operation.Renamed.usedArgs (h : op.Renamed f g op') :
    op'.usedArgs = op.usedArgs.map (·.rename f) := by
  have hfail : op'.failArgs.getD [] = (op.failArgs.getD []).map (·.rename f) := by
    rw [h.failArgs]
    cases op.failArgs <;> rfl
  rw [Operation.usedArgs, Operation.usedArgs, h.args, hfail, h.snapshot, List.map_append,
    List.map_append]

theorem Operation.Renamed.token? (h : op.Renamed f g op') : op'.token? = op.token?.map g := by
  have hdescr := h.descr
  unfold Operation.token?
  generalize op.descr = descr at hdescr ⊢
  generalize op'.descr = descr' at hdescr ⊢
  rcases hdescr with ⟨_ | _ | _ | _⟩ | _ <;> rfl

theorem results_renamed (h : List.Forall₂ (Operation.Renamed f g) ops ops') :
    results ops' = (results ops).map f := by
  induction h with
  | nil => rfl
  | @cons op op' _ _ hop _ ih =>
    rw [results_cons, results_cons, ih, hop.result, List.map_append]
    cases op.result <;> rfl

/-- The boxes read are those read under their new names. -/
theorem boxesRead_renamed (h : List.Forall₂ (Operation.Renamed f g) ops ops') :
    ops'.flatMap (·.usedArgs.filterMap Operand.box?) =
      (ops.flatMap (·.usedArgs.filterMap Operand.box?)).map f := by
  have hargs (args : List Operand) : (args.map (·.rename f)).filterMap Operand.box? =
      (args.filterMap Operand.box?).map f := by
    rw [List.filterMap_map, List.map_filterMap]
    refine List.filterMap_congr fun a _ => ?_
    cases a <;> rfl
  induction h with
  | nil => rfl
  | cons hop _ ih =>
    rw [List.flatMap_cons, List.flatMap_cons, ih, hop.usedArgs, hargs, List.map_append]

/-- The boxes of a trace are those of the other under their new names. -/
theorem boxes_renamed {t t' : Trace} (hinputs : t'.inputs = t.inputs.map f)
    (h : List.Forall₂ (Operation.Renamed f g) t.ops t'.ops) : t'.boxes = t.boxes.map f := by
  rw [Trace.boxes, Trace.boxes, hinputs, results_renamed h, boxesRead_renamed h, List.map_append,
    List.map_append]

end Renamed

/-! ### What is read is the same -/

/-- The name that a loop is written under. -/
def Dump.loopName (d : Dump) (t : LoopToken) : String :=
  if t = d.token then d.name else t.text

theorem LoopToken.text_inj {a b : LoopToken} (h : a.text = b.text) : a = b := by
  have hlist := congrArg String.toList h
  simp only [LoopToken.text, String.toList_append, Nat.toString_eq_ofList_toDigits,
    String.toList_ofList, List.append_cancel_left_eq] at hlist
  have hnumber := congrArg (Number.digitsValue 10) hlist
  simp only [Number.digitsValue_toDigits] at hnumber
  cases a
  cases b
  exact congrArg LoopToken.mk hnumber

/-- Loops are written under names of their own where no other loop has the name of the trace. -/
theorem Dump.loopName_inj {d : Dump} {a b : LoopToken} (ha : a ≠ d.token → a.text ≠ d.name)
    (hb : b ≠ d.token → b.text ≠ d.name) (h : d.loopName a = d.loopName b) : a = b := by
  unfold Dump.loopName at h
  split at h <;> split at h
  · rename_i ha' hb'
    rw [ha', hb']
  · rename_i hb'
    exact absurd h.symm (hb hb')
  · rename_i ha' _
    exact absurd h (ha ha')
  · exact LoopToken.text_inj h

section ReadAs
variable {d : Dump} {loops : Bindings String LoopToken} {f : Box → Box} {n : Nat}

/-- The loop that the reader took the name of a loop for. -/
def Dump.readLoop (d : Dump) (loops : Bindings String LoopToken) (t : LoopToken) : LoopToken :=
  (loops.get? (d.loopName t)).getD t

theorem Dump.readLoop_eq {t t' : LoopToken} (h : loops.get? (d.loopName t) = some t') :
    d.readLoop loops t = t' := by
  rw [Dump.readLoop, h, Option.getD_some]

/-- A loop that some operation names has its name read. -/
theorem Descr.ReadAs.loop_eq {k : LoopToken} {descr : Option Descr}
    (h : Descr.ReadAs d loops n (some (.loop k)) descr) :
    loops.get? (d.loopName k) = some (d.readLoop loops k) ∧
      descr = some (.loop (d.readLoop loops k)) := by
  cases h with
  | loop h =>
    rw [Dump.readLoop_eq h]
    exact ⟨h, rfl⟩

theorem Operation.ReadAs.token? {op op' : Operation} (h : (op.rename f).ReadAs d loops n op') :
    op'.token? = op.token?.map (d.readLoop loops) := by
  have hdescr := h.descr
  simp only [Operation.rename] at hdescr
  unfold Operation.token?
  generalize op.descr = descr at hdescr ⊢
  generalize op'.descr = descr' at hdescr ⊢
  rcases descr with _ | ⟨k | _ | _ | _⟩
  case some.loop => rw [hdescr.loop_eq.2]; rfl
  all_goals
    cases hdescr
    rfl

theorem Operation.ReadAs.known {op op' : Operation} (h : (op.rename f).ReadAs d loops n op')
    {k : LoopToken} (hk : op.token? = some k) :
    loops.get? (d.loopName k) = some (d.readLoop loops k) := by
  obtain ⟨opcode, args, result, descr, failArgs⟩ := op
  rcases descr with _ | ⟨k' | _ | _ | _⟩ <;> try cases hk
  exact h.descr.loop_eq.1

/-- Where the snapshot is shown, all of the operation is read. -/
theorem Operation.ReadAs.renamed {op op' : Operation} (h : (op.rename f).ReadAs d loops n op')
    (hshown : d.options.snapshots = true) (hsnapshot : op.guard?.isSome = true → op.snapshot ≠ []) :
    op.Renamed f (d.readLoop loops) op' := by
  refine ⟨h.opcode, h.args, h.result, ?_, h.failArgs⟩
  obtain ⟨opcode, args, result, descr, failArgs⟩ := op
  have hdescr := h.descr
  simp only [Operation.rename] at hdescr ⊢
  generalize op'.descr = descr' at hdescr ⊢
  rcases descr with _ | ⟨k | ⟨m, s⟩ | name | name⟩
  · cases hdescr
    exact .none
  · rw [hdescr.loop_eq.2]
    exact .some (.loop k)
  · cases hdescr with
    | guard hentries =>
      have hne : s.rename f ≠ [] := by
        simpa [Snapshot.rename] using show s ≠ [] from hsnapshot rfl
      refine .some (.guard m n ((hentries hshown hne).trans ?_))
      rw [Snapshot.rename, List.map_map]
      rfl
  · cases hdescr
    exact .some (.field name)
  · cases hdescr
    exact .some (.size name)

theorem Operation.InForm.isSome_guard? {op : Operation} (h : op.InForm) :
    op.guard?.isSome = op.isGuard := by
  obtain ⟨opcode, args, result, descr, failArgs⟩ := op
  obtain ⟨hdescr, -, -⟩ := h
  cases hdescr with
  | guard h => exact h.symm
  | loop h =>
    obtain rfl : opcode = .jump := h
    rfl
  | field h hname =>
    have h : opcode.isAccess = true := h
    cases opcode <;> first | rfl | cases h
  | size h => exact h.symm
  | none h => exact h.symm

/-- A guard is read under the next number. -/
theorem Operation.ReadAs.guard? {op op' : Operation} (h : (op.rename f).ReadAs d loops n op') :
    op'.guard?.map (·.1) = op.guard?.map fun _ => n := by
  obtain ⟨opcode, args, result, descr, failArgs⟩ := op
  have hdescr := h.descr
  simp only [Operation.rename] at hdescr
  unfold Operation.guard?
  generalize op'.descr = descr' at hdescr ⊢
  rcases descr with _ | ⟨_ | _ | _ | _⟩ <;> cases hdescr <;> rfl

/-- The guards are read in their order. -/
theorem guardNumbers_readAll {ops ops' : List Operation}
    (h : Parse.ReadAll d loops n (ops.map (·.rename f)) ops') (hform : ∀ op ∈ ops, op.InForm) :
    guardNumbers ops' = List.range' n (guardNumbers ops).length := by
  induction ops generalizing n ops' with
  | nil =>
    cases ops' with
    | nil => rfl
    | cons => exact h.elim
  | cons op rest ih =>
    cases ops' with
    | nil => exact h.elim
    | cons op' rest' =>
      obtain ⟨hop, hrest⟩ := h
      obtain ⟨hform, hforms⟩ := List.forall_mem_cons.1 hform
      have hnext := ih hrest hforms
      have hguard := hform.isSome_guard?
      rw [guardNumbers_cons, guardNumbers_cons, hnext, hop.guard?,
        show (op.rename f).isGuard = op.isGuard from rfl, ← hguard]
      cases op.guard? with
      | none => rfl
      | some p => simp [List.range'_succ]

theorem forall₂_readAll {ops ops' : List Operation} {R : Operation → Operation → Prop}
    (h : Parse.ReadAll d loops n (ops.map (·.rename f)) ops')
    (hR : ∀ op ∈ ops, ∀ m op', (op.rename f).ReadAs d loops m op' → R op op') :
    List.Forall₂ R ops ops' := by
  induction ops generalizing n ops' with
  | nil =>
    cases ops' with
    | nil => exact .nil
    | cons => exact h.elim
  | cons op rest ih =>
    cases ops' with
    | nil => exact h.elim
    | cons op' rest' =>
      obtain ⟨hop, hrest⟩ := h
      obtain ⟨hfirst, hR⟩ := List.forall_mem_cons.1 hR
      exact .cons (hfirst _ _ hop) (ih hrest hR)

/-- A loop that the trace is or that one of its operations names has its name read. -/
theorem known_readAll {ops ops' : List Operation}
    (h : Parse.ReadAll d loops n (ops.map (·.rename f)) ops') {k : LoopToken}
    (hk : k ∈ loopTokens ops) : loops.get? (d.loopName k) = some (d.readLoop loops k) := by
  obtain ⟨op, hop, htoken⟩ := List.mem_filterMap.1 hk
  have hall := forall₂_readAll (R := fun op _ => ∀ k, op.token? = some k →
    loops.get? (d.loopName k) = some (d.readLoop loops k)) h fun _ _ _ _ hread _ => hread.known
  obtain ⟨i, hi, rfl⟩ := List.mem_iff_getElem.1 hop
  exact (List.forall₂_iff_get.1 hall).2 i hi (hall.length_eq ▸ hi) k htoken

end ReadAs

section Trace
variable {t t' : Trace} {options : DumpOptions} {loops : Bindings String LoopToken}
  {inputs : List Box} {f : Box → Box}

theorem Trace.ReadAs.readLoop_token
    (h : Trace.ReadAs ⟨t.name, t.token, options⟩ inputs (t.ops.map (·.rename f)) loops t') :
    Dump.readLoop ⟨t.name, t.token, options⟩ loops t.token = t'.token := by
  refine Dump.readLoop_eq ?_
  rw [Dump.loopName, if_pos rfl]
  exact h.own

/-- Different loops are read as different loops. -/
theorem Trace.ReadAs.readLoop_injOn
    (h : Trace.ReadAs ⟨t.name, t.token, options⟩ inputs (t.ops.map (·.rename f)) loops t')
    (hforeign : ∀ k ∈ loopTokens t.ops, k ≠ t.token → k.text ≠ t.name) :
    Set.InjOn (Dump.readLoop ⟨t.name, t.token, options⟩ loops)
      {k | k = t.token ∨ k ∈ loopTokens t.ops} := by
  let d : Dump := ⟨t.name, t.token, options⟩
  have hread (k : LoopToken) (hk : k = t.token ∨ k ∈ loopTokens t.ops) :
      loops.get? (d.loopName k) = some (d.readLoop loops k) := by
    rcases hk with rfl | hk
    · rw [show d.readLoop loops t.token = t'.token from h.readLoop_token, Dump.loopName,
        if_pos rfl]
      exact h.own
    · exact known_readAll h.ops hk
  have hother (k : LoopToken) (hk : k = t.token ∨ k ∈ loopTokens t.ops) :
      k ≠ d.token → k.text ≠ d.name :=
    fun hne => hk.elim (absurd · hne) fun hmem => hforeign k hmem hne
  intro a ha b hb he
  have hnames : d.loopName a = d.loopName b := by
    refine h.apart _ _ _ (hread a ha) ?_
    rw [show d.readLoop loops a = d.readLoop loops b from he]
    exact hread b hb
  exact Dump.loopName_inj (hother a ha) (hother b hb) hnames

end Trace

/-! ### Reading back a well-formed trace -/

/-- The operation can be written in full, with its snapshot: its names are names, its constants
have literals, and a guard has frames to show. -/
structure Operation.Writable (op : Operation) : Prop where
  descr : op.opcode.Carries op.descr
  failArgs : op.failArgs.isSome = true → op.isGuard = true
  snapshot : op.isGuard = true → op.snapshot ≠ []
  finite : ∀ a ∈ op.usedArgs, a.Finite
  literal : ∀ a ∈ op.usedArgs, a.Literal

instance (op : Operation) : Decidable op.Writable :=
  decidable_of_iff (op.opcode.Carries op.descr ∧ (op.failArgs.isSome = true → op.isGuard = true) ∧
    (op.isGuard = true → op.snapshot ≠ []) ∧ (∀ a ∈ op.usedArgs, a.Finite) ∧
    ∀ a ∈ op.usedArgs, a.Literal)
    ⟨fun ⟨hd, hf, hs, hn, hl⟩ => ⟨hd, hf, hs, hn, hl⟩,
      fun h => ⟨h.descr, h.failArgs, h.snapshot, h.finite, h.literal⟩⟩

/-- The trace can be written in full, and no loop that it jumps to has its name. -/
structure Trace.Writable (t : Trace) : Prop where
  name : Lexer.IsName t.name
  ops : ∀ op ∈ t.ops, op.Writable
  foreign : ∀ k ∈ loopTokens t.ops, k ≠ t.token → k.text ≠ t.name

instance (t : Trace) : Decidable t.Writable :=
  decidable_of_iff (Lexer.IsName t.name ∧ (∀ op ∈ t.ops, op.Writable) ∧
    ∀ k ∈ loopTokens t.ops, k ≠ t.token → k.text ≠ t.name)
    ⟨fun ⟨hn, ho, hf⟩ => ⟨hn, ho, hf⟩, fun h => ⟨h.name, h.ops, h.foreign⟩⟩

theorem Operation.Writable.legible {E : ParseError → Reader → Prop} {defined : List Box}
    {op : Operation} (h : op.Writable) (hfits : op.Fits defined) : op.Legible E defined where
  form := by
    refine ⟨h.descr, ?_, h.literal⟩
    cases hguard : op.isGuard with
    | true => exact (hfits.guarded hguard).2
    | false => exact Bool.eq_false_iff.2 fun hsome => by simp [h.failArgs hsome] at hguard
  reads := hfits.reads
  finite a ha := .inl (h.finite a ha)
  arity := hfits.arity
  produced := hfits.produced
  unproduced := hfits.unproduced

theorem legible_of_accepts {E : ParseError → Reader → Prop} {defined : List Box}
    {body : List Operation} {last : Operation} (h : Accepts defined body)
    (hlast : last.Fits (defined ++ results body)) (hops : ∀ op ∈ body ++ [last], op.Writable) :
    Legible E defined (body ++ [last]) := by
  induction body generalizing defined with
  | nil =>
    rw [results_nil, List.append_nil] at hlast
    exact ⟨(hops last (List.mem_cons_self ..)).legible hlast, trivial⟩
  | cons op rest ih =>
    obtain ⟨hop, -, hrest⟩ := h
    obtain ⟨hfirst, hops⟩ := List.forall_mem_cons.1 hops
    refine ⟨hfirst.legible hop, ih (hrest.congr fun b => ?_) ?_ hops⟩
    · rw [List.mem_append, List.mem_append, or_comm]
    · rwa [List.append_assoc, ← results_cons]

/-- Every box that occurs is defined. -/
theorem Legible.defined {E : ParseError → Reader → Prop} {t : Trace} (h : Legible E t.inputs t.ops)
    {b : Box} (hb : b ∈ t.boxes) : b ∈ t.inputs ++ results t.ops := by
  rcases List.mem_append.1 hb with hb | hb
  · exact hb
  · obtain ⟨op, hop, hused⟩ := List.mem_flatMap.1 hb
    obtain ⟨a, ha, hbox⟩ := List.mem_filterMap.1 hused
    cases a with
    | box c =>
      obtain rfl : c = b := Option.some.inj hbox
      exact h.reads op hop c ha
    | const c => cases hbox

/-- The dump of a well-formed trace that can be written in full is read without an error, and
what is read is the same trace up to names. -/
theorem Trace.dump_reads_back {t : Trace} (hverified : t.verify = .ok ()) (ht : t.Writable)
    (showNumbers : Bool) :
    ∃ t' f g, Trace.parse (t.dumpWith ⟨showNumbers, true⟩) = .ok t' ∧ t.Renamed f g t' := by
  obtain ⟨hnodup, body, last, hsplit, hbody, hlast, -⟩ := Verify.ops_ok_iff.1 hverified
  have hops : Legible (fun _ _ => False) t.inputs t.ops := by
    have hwritable := ht.ops
    rw [hsplit] at hwritable ⊢
    exact legible_of_accepts hbody hlast hwritable
  obtain ⟨hparse, hread⟩ := parse_dump ht.name hnodup hops ⟨showNumbers, true⟩
  obtain ⟨t', ht'⟩ := hparse fun _ _ => id
  obtain ⟨loops, hback⟩ := hread t' ht'
  have hsame : List.Forall₂ (Operation.Renamed (numbered (t.inputs ++ results t.ops))
      (Dump.readLoop ⟨t.name, t.token, ⟨showNumbers, true⟩⟩ loops)) t.ops t'.ops := by
    refine forall₂_readAll hback.ops fun op hop n op' hread => ?_
    refine hread.renamed rfl fun hguard => (ht.ops op hop).snapshot ?_
    rwa [← (hops.inForm op hop).isSome_guard?]
  have hboxes := boxes_renamed hback.inputs hsame
  refine ⟨t', _, _, ht', hback.name, hback.readLoop_token.symm, hback.inputs, hsame, fun _ => rfl,
    ⟨fun b hb => ?_, fun a ha b hb he => ?_, fun b hb => ?_⟩, hback.readLoop_injOn ht.foreign, ?_⟩
  · show _ ∈ t'.boxes
    rw [hboxes]
    exact List.mem_map_of_mem hb
  · exact numbered_inj (hops.defined ha) he
  · have hmem : b ∈ t'.boxes := hb
    rw [hboxes] at hmem
    exact List.mem_map.1 hmem
  · rw [guardNumbers_readAll hback.ops hops.inForm, List.range_eq_range']

/-- Stores into a field, with a constant of each kind and frames of two guards. -/
def storing : Trace where
  name := "storing"
  token := ⟨3⟩
  inputs := [⟨7, .int⟩, ⟨2, .ref⟩]
  ops := [
    { opcode := .getfieldGc, args := [.box ⟨2, .ref⟩], result := some ⟨9, .float⟩,
      descr := some (.field "level") },
    { opcode := .guardTrue, args := [.box ⟨7, .int⟩], failArgs := some [.box ⟨2, .ref⟩],
      descr := some (.guard 8 [⟨4, [.box ⟨7, .int⟩]⟩, ⟨1, [.box ⟨9, .float⟩, .const (.int (-1))]⟩]) },
    { opcode := .setfieldGc, args := [.box ⟨2, .ref⟩, .const (.float 0x3ff8000000000000)],
      descr := some (.field "level") },
    { opcode := .call, args := [.const (.ref 4096)] },
    .jumpTo ⟨3⟩ [.box ⟨7, .int⟩, .box ⟨2, .ref⟩]]
  pool := { nextBox := 10, nextGuard := 9, nextToken := 4, nextFrame := 5 }

theorem storing_reads_back : ∃ t' f g,
    Trace.parse (storing.dumpWith ⟨true, true⟩) = .ok t' ∧ storing.Renamed f g t' :=
  Trace.dump_reads_back (by decide) (by decide) true

end TracePeel
