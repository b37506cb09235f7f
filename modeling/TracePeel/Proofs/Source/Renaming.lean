import TracePeel.Proofs.Copying
import TracePeel.Proofs.Recorded
import TracePeel.Proofs.Source.RoundTrip

/-! The trace that a dump is read as.

What is read is the trace that was written with its boxes renamed to their places and its
loops renamed by what the reader took their names for. `Legible` says which operations can
be written and read, and `parse_dump` what reading the dump of such a trace gives. -/
namespace TracePeel

/-! ### The dump of a trace -/

namespace Trace

/-- The text of the trace with what the options ask for. -/
def dumpWith (t : Trace) (options : DumpOptions) : String :=
  (((⟨t.name, t.token, options⟩ : Dump).all t.inputs t.ops).run {}).1

theorem dumpWith_default (t : Trace) : t.dumpWith {} = t.dump := rfl

end Trace

theorem Loop.dumpWith_toTrace (l : Loop) (options : DumpOptions) :
    l.toTrace.dumpWith options = l.dumpBody options := rfl

/-! ### Renamed operations -/

section Rename
variable (f : Box → Box)

theorem Operand.literal_rename {a : Operand} : (a.rename f).Literal ↔ a.Literal := by
  cases a <;> exact Iff.rfl

theorem Operand.finite_rename {a : Operand} : (a.rename f).Finite ↔ a.Finite := by
  cases a <;> exact Iff.rfl

theorem Snapshot.operands_rename (s : Snapshot) :
    (s.rename f).operands = s.operands.map (·.rename f) := by
  simp only [Snapshot.operands, Snapshot.rename, List.flatMap_map, List.map_flatMap]

theorem Operation.usedArgs_rename (op : Operation) :
    (op.rename f).usedArgs = op.usedArgs.map (·.rename f) := by
  have hfail : (op.rename f).failArgs.getD [] = (op.failArgs.getD []).map (·.rename f) := by
    simp only [Operation.rename]
    cases op.failArgs <;> rfl
  rw [Operation.usedArgs, Operation.usedArgs, hfail, op.snapshot_rename, Snapshot.operands_rename,
    List.map_append, List.map_append]
  rfl

theorem Opcode.Carries.rename {o : Opcode} {descr : Option Descr} (h : o.Carries descr) :
    o.Carries (descr.map (·.rename f)) := by
  cases h with
  | guard h => exact .guard h
  | loop h => exact .loop h
  | field h hname => exact .field h hname
  | size hguard hjump haccess hname => exact .size hguard hjump haccess hname
  | none hguard hjump haccess hnew => exact .none hguard hjump haccess hnew

theorem Operation.InForm.rename {op : Operation} (h : op.InForm) : (op.rename f).InForm where
  descr := h.descr.rename f
  failArgs := by
    rw [show (op.rename f).isGuard = op.isGuard from rfl, ← h.failArgs]
    exact Option.isSome_map
  literal a ha := by
    rw [Operation.usedArgs_rename] at ha
    obtain ⟨a', ha', rfl⟩ := List.mem_map.1 ha
    exact (Operand.literal_rename f).2 (h.literal a' ha')

theorem reads_rename {defined : List Box} {args : List Operand} (h : Dump.Reads defined args) :
    Dump.Reads (defined.map f) (args.map (·.rename f)) := by
  intro b hb
  obtain ⟨a, ha, he⟩ := List.mem_map.1 hb
  cases a with
  | box c =>
    obtain rfl : f c = b := Operand.box.inj he
    exact List.mem_map_of_mem (h c ha)
  | const c => cases he

end Rename

/-! ### What can be written and read -/

/-- Where the boxes `defined` are known, the operation can be written and read back. What no
literal denotes may stand in it only if `E` lets everything fail. -/
structure Operation.Legible (E : ParseError → Reader → Prop) (defined : List Box)
    (op : Operation) : Prop where
  form : op.InForm
  reads : Dump.Reads defined op.usedArgs
  finite : ∀ a ∈ op.usedArgs, a.Finite ∨ ∀ e r, E e r
  arity : ∀ n, op.opcode.arity? = some n → op.args.length = n
  produced : ∀ r, op.result = some r → op.opcode.hasResult = true ∧
    (∀ k, op.opcode.resultKind? = some k → k = r.kind) ∧ r ∉ defined
  unproduced : op.result = none → op.opcode.needsResult = false

/-- Each operation can be written and read back behind those in front of it. -/
def Legible (E : ParseError → Reader → Prop) : List Box → List Operation → Prop
  | _, [] => True
  | defined, op :: rest => op.Legible E defined ∧ Legible E (defined ++ op.result.toList) rest

section Legible
variable {E : ParseError → Reader → Prop} {defined : List Box} {op : Operation}
  {ops : List Operation}

theorem Legible.inForm (h : Legible E defined ops) : ∀ op ∈ ops, op.InForm := by
  induction ops generalizing defined with
  | nil => exact List.forall_mem_nil _
  | cons op rest ih => exact List.forall_mem_cons.2 ⟨h.1.form, ih h.2⟩

theorem Legible.scoped (h : Legible E defined ops) : Dump.Scoped defined ops := by
  induction ops generalizing defined with
  | nil => trivial
  | cons op rest ih => exact ⟨h.1.reads, fun r hr => (h.1.produced r hr).2.2, ih h.2⟩

/-- Every box that is read is defined somewhere. -/
theorem Legible.reads (h : Legible E defined ops) :
    ∀ op ∈ ops, Dump.Reads (defined ++ results ops) op.usedArgs := by
  induction ops generalizing defined with
  | nil => exact List.forall_mem_nil _
  | cons op rest ih =>
    rw [results_cons, ← List.append_assoc]
    refine List.forall_mem_cons.2 ⟨fun b hb => ?_, ih h.2⟩
    exact List.mem_append_left _ (List.mem_append_left _ (h.1.reads b hb))

theorem Operation.Legible.readable (h : op.Legible E defined) {args : List Operand}
    (hargs : ∀ a ∈ args, a ∈ op.usedArgs) (f : Box → Box) :
    Parse.Readable E (defined.map f) (args.map (·.rename f)) where
  reads := reads_rename f fun b hb => h.reads b (hargs _ hb)
  literal a ha := by
    obtain ⟨a', ha', rfl⟩ := List.mem_map.1 ha
    exact (Operand.literal_rename f).2 (h.form.literal a' (hargs a' ha'))
  finite a ha := by
    obtain ⟨a', ha', rfl⟩ := List.mem_map.1 ha
    exact (h.finite a' (hargs a' ha')).imp_left (Operand.finite_rename f).2

/-- With its boxes renamed to their places the operation stands among those renamed. -/
theorem Operation.Legible.stands (h : op.Legible E defined) {f : Box → Box}
    (hkind : ∀ b, (f b).kind = b.kind)
    (hplace : ∀ r, op.result = some r → (f r).id = defined.length) :
    (op.rename f).Stands E (defined.map f) where
  form := h.form.rename f
  args := h.readable (fun _ ha => List.mem_append_left _ (List.mem_append_left _ ha)) f
  failArgs fs hfs := by
    obtain ⟨fs', hfs', rfl⟩ := Option.map_eq_some_iff.1
      (show op.failArgs.map (·.map (·.rename f)) = some fs from hfs)
    refine h.readable (fun a ha => ?_) f
    refine List.mem_append_left _ (List.mem_append_right _ ?_)
    rwa [hfs']
  frames frame hframe := by
    rw [op.snapshot_rename] at hframe
    obtain ⟨frame', hframe', rfl⟩ := List.mem_map.1 hframe
    refine h.readable (fun a ha => ?_) f
    exact List.mem_append_right _ (List.mem_flatMap.2 ⟨frame', hframe', ha⟩)
  arity n hn := (List.length_map _).trans (h.arity n hn)
  produced b hb := by
    obtain ⟨r, hr, rfl⟩ := Option.map_eq_some_iff.1 (show op.result.map f = some b from hb)
    obtain ⟨hhas, hfit, -⟩ := h.produced r hr
    exact ⟨hhas, by rwa [hkind], by rw [hplace r hr, List.length_map]⟩
  unproduced hnone := h.unproduced (Option.map_eq_none_iff.1 hnone)

theorem Legible.standAll (h : Legible E defined ops) :
    Parse.StandAll E (defined.map (numbered (defined ++ results ops)))
      (ops.map (·.rename (numbered (defined ++ results ops)))) := by
  -- The places are those among all boxes, however many of them are known already.
  generalize hall : defined ++ results ops = all
  induction ops generalizing defined with
  | nil => trivial
  | cons op rest ih =>
    rw [results_cons, ← List.append_assoc] at hall
    have hrest := ih h.2 hall
    rw [List.map_append] at hrest
    refine ⟨h.1.stands (fun _ => rfl) fun r hr => ?_, ?_⟩
    · have hnew := (h.1.produced r hr).2.2
      rw [← hall, hr, Option.toList_some, List.append_assoc, List.singleton_append,
        numbered_new hnew]
    · rwa [show (op.rename (numbered all)).result.toList = op.result.toList.map (numbered all) by
        simp only [Operation.rename]
        cases op.result <;> rfl]

end Legible

/-- The places of distinct inputs are one after the other. -/
theorem placed_inputs {inputs : List Box} (hn : inputs.Nodup) (more : List Box) :
    Parse.Placed (inputs.map (numbered (inputs ++ more))) := by
  intro done b rest h
  obtain ⟨done', rest', hsplit, rfl, hrest⟩ := List.map_eq_append_iff.1 h
  obtain ⟨b', rest'', rfl, rfl, rfl⟩ := List.map_eq_cons_iff.1 hrest
  have hnew : b' ∉ done' := by
    rw [hsplit] at hn
    exact fun hmem => (List.nodup_append.1 hn).2.2 b' hmem b' (List.mem_cons_self ..) rfl
  rw [hsplit, List.append_assoc, List.cons_append, numbered_new hnew, List.length_map]

/-! ### Reading a dump -/

/-- The dump of a trace that can be written and read is read as the trace with its boxes
renamed to their places. -/
theorem parse_dump {E : ParseError → Reader → Prop} {t : Trace} (hname : Lexer.IsName t.name)
    (hinputs : t.inputs.Nodup) (hops : Legible E t.inputs t.ops) (options : DumpOptions) :
    ((∀ e r, ¬E e r) → ∃ t', Trace.parse (t.dumpWith options) = .ok t') ∧
      ∀ t', Trace.parse (t.dumpWith options) = .ok t' →
        ∃ loops, Trace.ReadAs ⟨t.name, t.token, options⟩
          (t.inputs.map (numbered (t.inputs ++ results t.ops)))
          (t.ops.map (·.rename (numbered (t.inputs ++ results t.ops)))) loops t' := by
  rw [Trace.dumpWith, Dump.dump_eq _ hinputs hops.scoped]
  exact parse_text hname (placed_inputs hinputs _) hops.standAll

end TracePeel
