import TracePeel.Dump
import TracePeel.Proofs.Source.Lexing
import TracePeel.Proofs.Verified

/-! What a dump writes.

A dump numbers the boxes in the order in which it meets them. Where every box is
defined before it is read, that is the order of the definitions, so the text is that of
the operations with each box numbered by its place (`dump_eq`). -/
namespace TracePeel

/-! ### Boxes by their places -/

/-- The box with its place among the boxes defined as its number. -/
def numbered (defined : List Box) (b : Box) : Box :=
  ⟨defined.idxOf b, b.kind⟩

@[simp] theorem kind_numbered (defined : List Box) (b : Box) :
    (numbered defined b).kind = b.kind := rfl

theorem numbered_append {defined : List Box} {b : Box} (h : b ∈ defined) (more : List Box) :
    numbered (defined ++ more) b = numbered defined b := by
  rw [numbered, List.idxOf_append_of_mem h, numbered]

theorem numbered_new {defined : List Box} {b : Box} (h : b ∉ defined) (more : List Box) :
    numbered (defined ++ b :: more) b = ⟨defined.length, b.kind⟩ := by
  simp [numbered, List.idxOf_append_of_notMem h]

theorem numbered_inj {defined : List Box} {a b : Box} (ha : a ∈ defined)
    (h : numbered defined a = numbered defined b) : a = b :=
  (List.idxOf_inj ha).1 (congrArg Box.id h)

/-- The operand with its box renamed. -/
def Operand.rename (f : Box → Box) (a : Operand) : Operand :=
  a.mapBox fun b => .box (f b)

/-- The chain with its boxes renamed. -/
def Snapshot.rename (f : Box → Box) (s : Snapshot) : Snapshot :=
  s.map fun frame => { frame with entries := frame.entries.map (·.rename f) }

def Descr.rename (f : Box → Box) : Descr → Descr
  | .guard number snapshot => .guard number (snapshot.rename f)
  | d => d

/-- The operation with all of its boxes renamed. -/
def Operation.rename (f : Box → Box) (op : Operation) : Operation where
  opcode := op.opcode
  args := op.args.map (·.rename f)
  result := op.result.map f
  descr := op.descr.map (·.rename f)
  failArgs := op.failArgs.map (·.map (·.rename f))

theorem Operation.snapshot_rename (f : Box → Box) (op : Operation) :
    (op.rename f).snapshot = op.snapshot.rename f := by
  obtain ⟨opcode, args, result, descr, failArgs⟩ := op
  rcases descr with _ | ⟨_ | _ | _ | _⟩ <;> rfl

/-! ### The text of one operation -/

namespace Dump

/-- Operands in brackets. -/
def listText (args : List Operand) : String :=
  "[" ++ ", ".intercalate (args.map Operand.text) ++ "]"

/-- What stands between the parentheses: the operands and the descriptor. -/
def itemTexts (d : Dump) (op : Operation) : List String :=
  op.args.map Operand.text ++ ((op.descr.bind d.descr?).map ("descr=" ++ ·)).toList

def framesText : Snapshot → String
  | [] => ""
  | frame :: outer => " " ++ listText frame.entries ++ framesText outer

def resultText (op : Operation) : String :=
  match op.result with
  | none => ""
  | some r => r.name ++ " = "

def failText (op : Operation) : String :=
  match op.failArgs with
  | none => ""
  | some failArgs => " " ++ listText failArgs

def snapshotText (d : Dump) (op : Operation) : String :=
  if d.options.snapshots && !op.snapshot.isEmpty then " @" ++ framesText op.snapshot else ""

/-- The line of an operation whose boxes keep their numbers. -/
def lineText (d : Dump) (op : Operation) : String :=
  resultText op ++ op.opcode.name ++ "(" ++ ", ".intercalate (d.itemTexts op) ++ ")"
    ++ failText op ++ d.snapshotText op

/-! ### Naming in the order of the definitions -/

/-- The boxes met are those defined, in this order. -/
structure Met (naming : Naming) (defined : List Box) : Prop where
  size : naming.size = defined.length
  get? : ∀ b, naming.get? b = if b ∈ defined then some (defined.idxOf b) else none

theorem met_nil : Met {} [] where
  size := rfl
  get? _ := rfl

variable {naming : Naming} {defined : List Box}

theorem Met.define (h : Met naming defined) {b : Box} (hb : b ∉ defined) :
    Met (naming.set b naming.size) (defined ++ [b]) where
  size := by
    have hnew : naming.contains b = false := by
      rw [Bindings.contains, h.get?, if_neg hb]
      rfl
    rw [Bindings.size_set, hnew, h.size]
    simp
  get? c := by
    rw [Bindings.get?_set, h.get?, h.size]
    by_cases hbc : b = c
    · subst hbc
      simp [List.idxOf_append_of_notMem hb]
    · by_cases hc : c ∈ defined
      · simp [hbc, hc, List.idxOf_append_of_mem hc]
      · simp [hbc, hc, Ne.symm hbc]

/-- A step whose end is known, and what comes behind it. -/
theorem run_bind {α β : Type} {x : StateM Naming α} {f : α → StateM Naming β} {s s' : Naming}
    {a : α} (h : x.run s = (a, s')) : (x >>= f).run s = (f a).run s' := by
  show (fun p : α × Naming => (f p.1).run p.2) (x.run s) = _
  rw [h]

theorem box_known (h : Met naming defined) {b : Box} (hb : b ∈ defined) :
    (box b).run naming = ((numbered defined b).name, naming) := by
  have hget : naming.get? b = some (defined.idxOf b) := by rw [h.get?, if_pos hb]
  simp only [box, StateT.run_bind, StateT.run_get, pure_bind, hget]
  rfl

theorem box_new (h : Met naming defined) {b : Box} (hb : b ∉ defined) :
    (box b).run naming = ((numbered (defined ++ [b]) b).name, naming.set b naming.size) := by
  have hget : naming.get? b = none := by rw [h.get?, if_neg hb]
  simp only [box, StateT.run_bind, StateT.run_get, pure_bind, hget, numbered_new hb, ← h.size]
  rfl

/-- The boxes that the operands read are defined. -/
def Reads (defined : List Box) (args : List Operand) : Prop :=
  ∀ b, .box b ∈ args → b ∈ defined

theorem operand_run (h : Met naming defined) {a : Operand} (ha : Reads defined [a]) :
    (operand a).run naming = ((a.rename (numbered defined)).text, naming) := by
  cases a with
  | box b => exact box_known h (ha b (List.mem_singleton_self _))
  | const c => rfl

theorem operands_run (h : Met naming defined) {args : List Operand} (ha : Reads defined args) :
    (operands args).run naming =
      (", ".intercalate ((args.map (·.rename (numbered defined))).map Operand.text), naming) := by
  have hmap : (args.mapM operand).run naming =
      ((args.map (·.rename (numbered defined))).map Operand.text, naming) := by
    induction args with
    | nil => rfl
    | cons a args ih =>
      have hhead := operand_run h (a := a) fun b hb => ha b (by
        rw [List.mem_singleton.1 hb]
        exact List.mem_cons_self ..)
      have htail := ih fun b hb => ha b (List.mem_cons_of_mem _ hb)
      rw [List.mapM_cons, run_bind hhead, run_bind htail]
      rfl
  rw [operands, run_bind hmap]
  rfl

theorem bracketed_run (h : Met naming defined) {args : List Operand} (ha : Reads defined args) :
    (bracketed args).run naming =
      (listText (args.map (·.rename (numbered defined))), naming) := by
  rw [bracketed, run_bind (operands_run h ha)]
  rfl

theorem frames_run (h : Met naming defined) {s : Snapshot} (hs : Reads defined s.operands) :
    (frames s).run naming = (framesText (s.rename (numbered defined)), naming) := by
  induction s with
  | nil => rfl
  | cons frame outer ih =>
    have hframe : Reads defined frame.entries := fun b hb =>
      hs b (List.mem_append_left _ hb)
    have houter : Reads defined (Snapshot.operands outer) := fun b hb =>
      hs b (List.mem_append_right _ hb)
    rw [frames, run_bind (bracketed_run h hframe), run_bind (ih houter)]
    rfl

theorem descr?_rename (d : Dump) (f : Box → Box) (op : Operation) :
    (op.rename f).descr.bind d.descr? = op.descr.bind d.descr? := by
  obtain ⟨opcode, args, result, descr, failArgs⟩ := op
  rcases descr with _ | ⟨_ | _ | _ | _⟩ <;> rfl

theorem text_ne_empty (a : Operand) : a.text ≠ "" := by
  have hspells {text : String} {token : Token} (h : Number.Spells text.toList token) :
      text ≠ "" := by
    rintro rfl
    obtain ⟨c, cs, hcs, -⟩ := h.begins
    cases hcs
  rcases a with b | v | a | bits
  · rw [← String.toList_eq_nil_iff.ne]
    simp [Operand.text, Box.name]
  · exact hspells (Number.spells_int v)
  · rw [← String.toList_eq_nil_iff.ne]
    simp [Operand.text, Const.text]
  · by_cases hfinite : Binary64.magnitude bits < Binary64.infinity
    · exact hspells (Number.spells_float hfinite)
    · simp only [Operand.text, Const.text]
      rw [Number.write_of_not_finite hfinite]
      split_ifs <;> decide

theorem intercalate_ne_empty {as : List Operand} (h : as ≠ []) :
    ", ".intercalate (as.map Operand.text) ≠ "" := by
  obtain ⟨a, rest, rfl⟩ := List.exists_cons_of_ne_nil h
  have ha := text_ne_empty a
  cases rest with
  | nil => simpa using ha
  | cons b rest => simp [ha]

/-- The separators in front of a descriptor are those between operands. -/
theorem arguments_run (d : Dump) (h : Met naming defined) {op : Operation}
    (ha : Reads defined op.args) :
    (d.arguments op).run naming =
      (", ".intercalate (d.itemTexts (op.rename (numbered defined))), naming) := by
  rw [arguments, run_bind (operands_run h ha), itemTexts, descr?_rename]
  have hargs : (op.rename (numbered defined)).args = op.args.map (·.rename (numbered defined)) :=
    rfl
  rw [hargs]
  generalize op.args.map (·.rename (numbered defined)) = args
  cases op.descr.bind d.descr? with
  | none =>
    rw [Option.map_none, Option.toList_none, List.append_nil]
    rfl
  | some text =>
    rw [Option.map_some, Option.toList_some]
    by_cases hnil : args = []
    · rw [hnil, List.map_nil, List.nil_append, String.intercalate_singleton]
      rfl
    · have hfull : (", ".intercalate (args.map Operand.text)).isEmpty = false :=
        Bool.eq_false_iff.2 fun he => intercalate_ne_empty hnil (String.isEmpty_iff.1 he)
      rw [String.intercalate_append_of_ne_nil (by simpa using hnil) (by simp),
        String.intercalate_singleton, ← String.append_assoc]
      simp only [hfull]
      rfl

theorem rename_later {args : List Operand} (ha : Reads defined args) (more : List Box) :
    args.map (·.rename (numbered (defined ++ more))) = args.map (·.rename (numbered defined)) := by
  refine List.map_congr_left fun a hmem => ?_
  cases a with
  | box b => simp [Operand.rename, Operand.mapBox, numbered_append (ha b hmem)]
  | const c => rfl

theorem rename_snapshot_later {s : Snapshot} (hs : Reads defined s.operands) (more : List Box) :
    s.rename (numbered (defined ++ more)) = s.rename (numbered defined) := by
  refine List.map_congr_left fun frame hmem => ?_
  have hframe : Reads defined frame.entries := fun b hb =>
    hs b (List.mem_flatMap.2 ⟨frame, hmem, hb⟩)
  simp only [rename_later hframe more]

/-- The end of a line, whatever stands in front of the snapshot. -/
theorem snapshot_run (h : Met naming defined) {s : Snapshot} (hs : Reads defined s.operands)
    (shown : Bool) (text : String) :
    (if shown && !s.isEmpty then do
        let snapshot ← pure (" @" ++ (← frames s))
        pure (text ++ snapshot)
      else do
        let snapshot ← pure ""
        pure (text ++ snapshot) : StateM Naming String).run naming =
      (text ++ if shown && !s.isEmpty then " @" ++ framesText (s.rename (numbered defined)) else "",
        naming) := by
  split
  case isTrue => exact run_bind (frames_run h hs)
  case isFalse => rfl

/-- A line is that of the operation with its boxes numbered. -/
theorem operation_run (d : Dump) (h : Met naming defined) {op : Operation}
    (hreads : Reads defined op.usedArgs) (hresult : ∀ r, op.result = some r → r ∉ defined) :
    ∃ naming', (d.operation op).run naming =
        (d.lineText (op.rename (numbered (defined ++ op.result.toList))), naming') ∧
      Met naming' (defined ++ op.result.toList) := by
  have hargs : Reads defined op.args := fun b hb =>
    hreads b (List.mem_append_left _ (List.mem_append_left _ hb))
  have hfail : Reads (defined ++ op.result.toList) (op.failArgs.getD []) := fun b hb =>
    List.mem_append_left _ (hreads b (List.mem_append_left _ (List.mem_append_right _ hb)))
  have hsnap : Reads (defined ++ op.result.toList) op.snapshot.operands := fun b hb =>
    List.mem_append_left _ (hreads b (List.mem_append_right _ hb))
  have hitems : d.itemTexts (op.rename (numbered defined)) =
      d.itemTexts (op.rename (numbered (defined ++ op.result.toList))) := by
    simp only [itemTexts, descr?_rename]
    simp only [Operation.rename, rename_later hargs]
  have hrun := arguments_run d h hargs
  rw [hitems] at hrun
  obtain ⟨naming', hmet, hnamed⟩ : ∃ naming', Met naming' (defined ++ op.result.toList) ∧
      (op.result = none → naming' = naming) ∧ ∀ r, op.result = some r → (box r).run naming =
        ((numbered (defined ++ op.result.toList) r).name, naming') := by
    cases hr : op.result with
    | none => exact ⟨naming, by simpa using h, fun _ => rfl, nofun⟩
    | some r =>
      refine ⟨_, h.define (hresult r hr), nofun, ?_⟩
      rintro _ ⟨⟩
      exact box_new h (hresult r hr)
  refine ⟨naming', ?_, hmet⟩
  generalize defined ++ op.result.toList = later at *
  have hend := snapshot_run hmet hsnap d.options.snapshots
  have hempty : (op.snapshot.rename (numbered later)).isEmpty = op.snapshot.isEmpty := by
    cases op.snapshot <;> rfl
  unfold operation lineText snapshotText
  rw [Operation.snapshot_rename, hempty]
  refine (run_bind hrun).trans ?_
  obtain ⟨opcode, args, result, descr, failArgs⟩ := op
  have hbrackets (fs : List Operand) (he : failArgs = some fs) :
      (bracketed fs).run naming' = (listText (fs.map (·.rename (numbered later))), naming') := by
    subst he
    exact bracketed_run hmet hfail
  rcases result with _ | r
  · obtain rfl := hnamed.1 rfl
    rcases failArgs with _ | fs
    · exact hend _
    · simp only [pure_bind]
      refine (run_bind (hbrackets fs rfl)).trans ?_
      exact hend _
  · dsimp only
    refine (run_bind (hnamed.2 r rfl)).trans ?_
    rcases failArgs with _ | fs
    · exact hend _
    · simp only [pure_bind]
      refine (run_bind (hbrackets fs rfl)).trans ?_
      exact hend _

/-- Each operation reads what is defined in front of it and defines a new box. -/
def Scoped : List Box → List Operation → Prop
  | _, [] => True
  | defined, op :: rest =>
    Reads defined op.usedArgs ∧ (∀ r, op.result = some r → r ∉ defined) ∧
      Scoped (defined ++ op.result.toList) rest

def linesText (d : Dump) : List Operation → String
  | [] => ""
  | op :: rest => d.lineText op ++ "\n" ++ d.linesText rest

theorem rename_op_later {op : Operation} (hreads : Reads defined op.usedArgs)
    (hresult : ∀ r, op.result = some r → r ∈ defined) (more : List Box) :
    op.rename (numbered (defined ++ more)) = op.rename (numbered defined) := by
  have hargs : Reads defined op.args := fun b hb =>
    hreads b (List.mem_append_left _ (List.mem_append_left _ hb))
  have hfail : Reads defined (op.failArgs.getD []) := fun b hb =>
    hreads b (List.mem_append_left _ (List.mem_append_right _ hb))
  have hsnap : Reads defined op.snapshot.operands := fun b hb =>
    hreads b (List.mem_append_right _ hb)
  obtain ⟨opcode, args, result, descr, failArgs⟩ := op
  simp only [Operation.rename, Operation.mk.injEq, true_and]
  refine ⟨rename_later hargs more, ?_, ?_, ?_⟩
  · cases result with
    | none => rfl
    | some r => simp only [Option.map_some, numbered_append (hresult r rfl)]
  · rcases descr with _ | ⟨_ | ⟨number, snapshot⟩ | _ | _⟩ <;> try rfl
    exact congrArg (fun s => some (Descr.guard number s)) (rename_snapshot_later hsnap more)
  · cases failArgs with
    | none => rfl
    | some fs => exact congrArg some (rename_later hfail more)

/-- The lines are those of the operations with their boxes numbered by their places among
all that are defined. -/
theorem lines_run (d : Dump) (h : Met naming defined) {ops : List Operation}
    (hops : Scoped defined ops) :
    ((d.lines ops).run naming).1 =
      d.linesText (ops.map (·.rename (numbered (defined ++ results ops)))) := by
  induction ops generalizing naming defined with
  | nil => rfl
  | cons op rest ih =>
    obtain ⟨hreads, hresult, hrest⟩ := hops
    obtain ⟨naming', hrun, hmet⟩ := operation_run d h hreads hresult
    have hop : op.rename (numbered (defined ++ results (op :: rest))) =
        op.rename (numbered (defined ++ op.result.toList)) := by
      rw [results_cons, ← List.append_assoc]
      refine rename_op_later (fun b hb => List.mem_append_left _ (hreads b hb)) ?_ _
      intro r hr
      simp [hr]
    rw [List.map_cons, linesText, hop, results_cons, ← List.append_assoc, ← ih hmet hrest, lines,
      run_bind hrun]
    rfl

theorem inputs_run (h : Met naming defined) {inputs : List Box} (hn : inputs.Nodup)
    (hnew : ∀ b ∈ inputs, b ∉ defined) :
    ∃ naming', (inputs.mapM box).run naming =
        (inputs.map fun b => (numbered (defined ++ inputs) b).name, naming') ∧
      Met naming' (defined ++ inputs) := by
  induction inputs generalizing naming defined with
  | nil => exact ⟨naming, rfl, by simpa using h⟩
  | cons b rest ih =>
    obtain ⟨hb, hn⟩ := List.nodup_cons.1 hn
    have hbnew := hnew b (List.mem_cons_self ..)
    obtain ⟨naming', hrun, hmet⟩ := ih (h.define hbnew) hn fun c hc => by
      rw [List.mem_append, List.mem_singleton, not_or]
      exact ⟨hnew c (List.mem_cons_of_mem _ hc), fun hcb => hb (hcb ▸ hc)⟩
    rw [List.append_assoc, List.singleton_append] at hrun hmet
    refine ⟨naming', ?_, hmet⟩
    have hname : numbered (defined ++ b :: rest) b = numbered (defined ++ [b]) b := by
      rw [numbered_new hbnew, numbered_new hbnew]
    rw [List.mapM_cons, run_bind (box_new h hbnew), run_bind hrun, List.map_cons, hname]
    rfl

/-- The text of a section whose boxes keep their numbers. -/
def text (d : Dump) (inputs : List Box) (ops : List Operation) : String :=
  "loop " ++ d.name ++ "\n[" ++ ", ".intercalate (inputs.map Box.name) ++ "]\n" ++ d.linesText ops

/-- The dump of a list whose boxes are defined before they are read is its text with the
boxes numbered by their places among those defined. -/
theorem dump_eq (d : Dump) {inputs : List Box} {ops : List Operation} (hn : inputs.Nodup)
    (hops : Scoped inputs ops) :
    ((d.all inputs ops).run {}).1 =
      d.text (inputs.map (numbered (inputs ++ results ops)))
        (ops.map (·.rename (numbered (inputs ++ results ops)))) := by
  obtain ⟨naming, hrun, hmet⟩ := inputs_run met_nil hn fun _ _ => List.not_mem_nil
  have hinputs : (inputs.map fun b => (numbered inputs b).name) =
      (inputs.map (numbered (inputs ++ results ops))).map Box.name := by
    rw [List.map_map]
    exact List.map_congr_left fun b hb => by rw [Function.comp, numbered_append hb]
  rw [List.nil_append] at hrun hmet
  rw [text, ← lines_run d hmet hops, all, run_bind hrun, hinputs]
  rfl

end Dump
end TracePeel
