import StackBytecode.Tool.Command

/-!
# Listing several inputs

Listing several inputs is listing each of them alone, one after the other, up to the first that
fails. What was written for the inputs before it stays, its own messages follow, and the inputs
behind it are not even read.

An output is a list of pieces with a status, so the statement is first about outputs that follow
one another: the pieces are those of the outputs up to the first failure. That listing several
inputs is such a sequence is then seen stage by stage. Settings that cannot be loaded fail the
first input alone just as they fail all of them together.
-/

namespace StackBytecode.Tool

/-! ## Outputs in order -/

namespace Output

/-- Whether an output ends with the status of a failure. -/
def fails (o : Output) : Bool := o.status = 1

/-- Whether an output ends with the status of a command that did its work, well or not. -/
def Ended (o : Output) : Prop := o.status = 0 ∨ o.status = 1

/-- Outputs one after the other, up to the first failure. -/
def inOrder : List Output → Output
  | [] => .of []
  | o :: rest => o.andThen (inOrder rest)

/-- The outputs up to the first failure. -/
def reached (outputs : List Output) : List Output := outputs.take (outputs.findIdx fails + 1)

/-- An output that ends well is followed by the next one. -/
theorem andThen_of_status {o : Output} (h : o.status = 0) (next : Output) :
    o.andThen next = ⟨o.pieces ++ next.pieces, next.status⟩ := if_pos h

/-- Nothing follows a failure. -/
theorem andThen_of_fails {o : Output} (h : o.fails = true) (next : Output) : o.andThen next = o := by
  have hstatus : o.status = 1 := of_decide_eq_true h
  exact if_neg (by omega)

/-- An output with nothing behind it stays as it is. -/
theorem andThen_of_nil (o : Output) : o.andThen (.of []) = o := by
  by_cases h : o.status = 0
  · rw [andThen_of_status h, of, List.append_nil, ← h]
  · exact if_neg h

/-- An output that ended without a failure ended well. -/
theorem Ended.status_eq {o : Output} (h : o.Ended) (hfails : o.fails = false) : o.status = 0 :=
  h.resolve_right (of_decide_eq_false hfails)

/-- The outputs up to the first failure are the first one and, unless it fails, those of the rest. -/
theorem reached_cons (o : Output) (rest : List Output) :
    reached (o :: rest) = o :: if o.fails then [] else reached rest := by
  rw [reached, List.findIdx_cons, List.take_succ_cons]
  cases o.fails <;> rfl

/-- Outputs in order write the pieces of those up to the first failure. -/
theorem pieces_inOrder {outputs : List Output} (h : ∀ o ∈ outputs, o.Ended) :
    (inOrder outputs).pieces = (reached outputs).flatMap pieces := by
  induction outputs with
  | nil => rfl
  | cons o rest ih =>
    obtain ⟨ho, hrest⟩ := List.forall_mem_cons.mp h
    rw [inOrder, reached_cons]
    cases hfails : o.fails with
    | true => rw [andThen_of_fails hfails, if_pos rfl, List.flatMap_singleton]
    | false =>
      rw [andThen_of_status (ho.status_eq hfails), if_neg Bool.false_ne_true, List.flatMap_cons, ih hrest]

/-- Outputs in order fail if one of them does, and end well otherwise. -/
theorem status_inOrder {outputs : List Output} (h : ∀ o ∈ outputs, o.Ended) :
    (inOrder outputs).status = if outputs.any fails then 1 else 0 := by
  induction outputs with
  | nil => rfl
  | cons o rest ih =>
    obtain ⟨ho, hrest⟩ := List.forall_mem_cons.mp h
    rw [inOrder, List.any_cons]
    cases hfails : o.fails with
    | true =>
      rw [andThen_of_fails hfails, Bool.true_or, if_pos rfl]
      exact of_decide_eq_true hfails
    | false => rw [andThen_of_status (ho.status_eq hfails), ih hrest, Bool.false_or]

/-- Outputs behind the first failure change nothing. -/
theorem inOrder_reached_append {outputs : List Output} (h : ∀ o ∈ outputs, o.Ended)
    (hfails : outputs.any fails = true) (more : List Output) :
    inOrder (reached outputs ++ more) = inOrder outputs := by
  induction outputs with
  | nil => cases hfails
  | cons o rest ih =>
    obtain ⟨ho, hrest⟩ := List.forall_mem_cons.mp h
    rw [reached_cons, List.cons_append, inOrder, inOrder]
    cases hfirst : o.fails with
    | true => rw [andThen_of_fails hfirst, andThen_of_fails hfirst]
    | false =>
      rw [List.any_cons, hfirst, Bool.false_or] at hfails
      rw [if_neg Bool.false_ne_true, ih hrest hfails]

/-- Texts in groups are joined group by group. -/
theorem join_flatMap {α : Type} (texts : α → List String) (list : List α) :
    String.join (list.flatMap texts) = String.join (list.map fun a => String.join (texts a)) := by
  induction list with
  | nil => rfl
  | cons a rest ih => rw [List.flatMap_cons, String.join_append, ih, List.map_cons, String.join_cons]

/-- What an output made of the pieces of others writes to the standard output. -/
theorem stdout_of_pieces {o : Output} {outputs : List Output} (h : o.pieces = outputs.flatMap pieces) :
    o.stdout = String.join (outputs.map stdout) := by
  rw [stdout, h, List.map_flatMap, join_flatMap]
  rfl

/-- What an output made of the pieces of others writes to the error output. -/
theorem stderr_of_pieces {o : Output} {outputs : List Output} (h : o.pieces = outputs.flatMap pieces)
    (time : String) : o.stderr time = String.join (outputs.map fun other => other.stderr time) := by
  rw [stderr, h, List.map_flatMap, join_flatMap]
  rfl

/-- Whether no piece of an output waits for the time that has passed. -/
def IsTimeless (o : Output) : Prop := ∀ before, .elapsed before ∉ o.pieces

/-- The error output of such an output is the same at any time. -/
theorem IsTimeless.stderr_eq {o : Output} (h : o.IsTimeless) (time other : String) :
    o.stderr time = o.stderr other := by
  rw [stderr, stderr]
  refine congrArg String.join (List.map_congr_left fun piece hpiece => ?_)
  cases piece with
  | elapsed before => exact absurd hpiece (h before)
  | out text => rfl
  | err text => rfl
  | log record => rfl

end Output

/-! ## Inputs in order -/

namespace ListCommand

/-- The output of the command for an input alone, with the same options. -/
def alone (cmd : ListCommand) (s : Surroundings) (input : String) : Output :=
  { cmd with inputs := [input] }.output s

/-- The inputs up to the first that fails alone. -/
def reached (cmd : ListCommand) (s : Surroundings) : List String :=
  cmd.inputs.take (cmd.inputs.findIdx (fun input => (cmd.alone s input).status = 1) + 1)

/-- The work of the command on an input alone, without the log records before it. -/
def part (cmd : ListCommand) (s : Surroundings) (input : String) : Output :=
  { cmd with inputs := [input] }.work s

/-- The output for one input ends well or with a failure. -/
theorem outputFor_ended (cmd : ListCommand) (s : Surroundings) (colors : Bool) (input : String) :
    (cmd.outputFor s colors input).Ended := by
  unfold outputFor
  split
  · exact .inr rfl
  · dsimp only
    split
    · exact .inr rfl
    · split
      · exact .inr rfl
      · exact .inl rfl

/-- Without the time option no piece of the output for one input waits for the time. -/
theorem outputFor_isTimeless {cmd : ListCommand} (h : cmd.common.time = false) (s : Surroundings)
    (colors : Bool) (input : String) : (cmd.outputFor s colors input).IsTimeless := by
  intro before hbefore
  unfold outputFor at hbefore
  split at hbefore
  · simp [failure] at hbefore
  · dsimp only at hbefore
    split at hbefore
    · simp [failure] at hbefore
    · split at hbefore
      · simp [failure] at hbefore
      · simp [Output.of, h] at hbefore

/-- Settings that cannot be loaded fail the command, in colour. -/
theorem work_of_load_error {cmd : ListCommand} {s : Surroundings} {fault : Settings.LoadFault}
    (h : s.load cmd.common.config = .error fault) : cmd.work s = failure true fault.chain := by
  rw [work, h]

/-- With settings, inputs that may be given together are listed in order. -/
theorem work_of_load {cmd : ListCommand} {s : Surroundings} {settings : Settings}
    (h : s.load cmd.common.config = .ok settings) (hinputs : inputsAgree cmd.inputs = true) :
    cmd.work s =
      cmd.outputForAll s (showsColors (cmd.common.color.getD settings.color)) cmd.inputs := by
  rw [work, h]
  exact if_pos hinputs

/-- With settings, an input alone has its own output. -/
theorem part_of_load {cmd : ListCommand} {s : Surroundings} {settings : Settings}
    (h : s.load cmd.common.config = .ok settings) (input : String) :
    cmd.part s input =
      cmd.outputFor s (showsColors (cmd.common.color.getD settings.color)) input := by
  have hagree : inputsAgree [input] = true := rfl
  rw [part, @work_of_load { cmd with inputs := [input] } s settings h hagree]
  exact Output.andThen_of_nil _

/-- Listing in order is having the outputs for the inputs in order. -/
theorem outputForAll_eq_inOrder (cmd : ListCommand) (s : Surroundings) (colors : Bool)
    (inputs : List String) :
    cmd.outputForAll s colors inputs = .inOrder (inputs.map (cmd.outputFor s colors)) := by
  induction inputs with
  | nil => rfl
  | cons input rest ih => rw [outputForAll, ih, List.map_cons, Output.inOrder]

/-- The work on several inputs is the work on each alone, in order, up to the first failure. -/
theorem work_eq_inOrder {cmd : ListCommand} (hinputs : cmd.inputs ≠ []) (hmark : stdinMark ∉ cmd.inputs)
    (s : Surroundings) : cmd.work s = .inOrder (cmd.inputs.map (cmd.part s)) := by
  cases hload : s.load cmd.common.config with
  | error fault =>
    obtain ⟨first, rest, hcons⟩ := List.exists_cons_of_ne_nil hinputs
    have hpart : cmd.part s first = failure true fault.chain := work_of_load_error hload
    rw [work_of_load_error hload, hcons, List.map_cons, Output.inOrder, hpart]
    rfl
  | ok settings =>
    have hagree : inputsAgree cmd.inputs = true := by simp [inputsAgree, hmark]
    rw [work_of_load hload hagree, outputForAll_eq_inOrder]
    exact congrArg Output.inOrder (List.map_congr_left fun input _ => (part_of_load hload input).symm)

/-- The work on an input alone ends well or with a failure. -/
theorem part_ended (cmd : ListCommand) (s : Surroundings) (input : String) : (cmd.part s input).Ended := by
  cases hload : s.load cmd.common.config with
  | error fault =>
    rw [show cmd.part s input = _ from work_of_load_error hload]
    exact .inr rfl
  | ok settings =>
    rw [part_of_load hload]
    exact outputFor_ended ..

/-- Without the time option no piece of the work on an input alone waits for the time. -/
theorem part_isTimeless {cmd : ListCommand} (h : cmd.common.time = false) (s : Surroundings)
    (input : String) : (cmd.part s input).IsTimeless := by
  cases hload : s.load cmd.common.config with
  | error fault =>
    rw [show cmd.part s input = _ from work_of_load_error hload]
    intro before hbefore
    simp [failure] at hbefore
  | ok settings =>
    rw [part_of_load hload]
    exact outputFor_isTimeless h s _ input

/-- The inputs up to the first that fails alone have the work up to the first failure. -/
theorem map_part_reached (cmd : ListCommand) (s : Surroundings) :
    (cmd.reached s).map (cmd.part s) = Output.reached (cmd.inputs.map (cmd.part s)) := by
  rw [reached, Output.reached, List.map_take, List.findIdx_map]
  rfl

/-- Listing several inputs, none of them the standard input, without the time option does what
listing each of them alone does, up to the first that fails alone. The status is that of a failure
exactly if one of them fails alone; what is written to the standard output and to the error
output is what the inputs up to the first failure write there alone, one after the other, whatever
time each run takes; and after a failure other inputs could follow as well. -/
theorem listing_is_single_listings_in_order {cmd : ListCommand} (s : Surroundings) (hinputs : cmd.inputs ≠ [])
    (hmark : stdinMark ∉ cmd.inputs) (htime : cmd.common.time = false) :
    (cmd.output s).status = (if ∃ input ∈ cmd.inputs, (cmd.alone s input).status = 1 then 1 else 0) ∧
      (cmd.output s).stdout =
        String.join ((cmd.reached s).map fun input => (cmd.alone s input).stdout) ∧
      (∀ (time : String) (times : String → String),
        (cmd.output s).stderr time =
          String.join ((cmd.reached s).map fun input => (cmd.alone s input).stderr (times input))) ∧
      ∀ others, stdinMark ∉ others → (∃ input ∈ cmd.inputs, (cmd.alone s input).status = 1) →
        ({ cmd with inputs := cmd.reached s ++ others } : ListCommand).output s = cmd.output s := by
  have hwork := work_eq_inOrder hinputs hmark s
  have hended : ∀ o ∈ cmd.inputs.map (cmd.part s), o.Ended :=
    List.forall_mem_map.mpr fun input _ => cmd.part_ended s input
  have hany : (cmd.inputs.map (cmd.part s)).any Output.fails = true ↔
      ∃ input ∈ cmd.inputs, (cmd.alone s input).status = 1 := by
    rw [List.any_map, List.any_eq_true]
    exact exists_congr fun input => and_congr_right fun _ => decide_eq_true_iff
  have hpieces : (cmd.work s).pieces = ((cmd.reached s).map (cmd.part s)).flatMap Output.pieces := by
    rw [hwork, Output.pieces_inOrder hended, map_part_reached]
  -- the records in front of the work, of all inputs or of one alone, are not part of any output
  refine ⟨?_, ?_, fun time times => ?_, fun others hothers hfails => ?_⟩
  · rw [output, Output.status_logs_andThen, hwork, Output.status_inOrder hended]
    simp only [hany]
  · rw [output, Output.stdout_logs_andThen, Output.stdout_of_pieces hpieces, List.map_map]
    refine congrArg String.join (List.map_congr_left fun input _ => ?_)
    rw [alone, output, Output.stdout_logs_andThen]
    rfl
  · rw [output, Output.stderr_logs_andThen, Output.stderr_of_pieces hpieces, List.map_map]
    refine congrArg String.join (List.map_congr_left fun input _ => ?_)
    rw [alone, output, Output.stderr_logs_andThen]
    exact (part_isTimeless htime s input).stderr_eq time _
  · have hreached : cmd.reached s ++ others ≠ [] := by
      simp [reached, hinputs]
    have hmarks : stdinMark ∉ cmd.reached s ++ others := by
      rw [List.mem_append, not_or]
      exact ⟨fun h => hmark (List.mem_of_mem_take h), hothers⟩
    have hpart : part { cmd with inputs := cmd.reached s ++ others } s = cmd.part s := rfl
    have hsame : work { cmd with inputs := cmd.reached s ++ others } s = cmd.work s := by
      rw [work_eq_inOrder hreached hmarks, hpart, List.map_append, map_part_reached, hwork]
      exact Output.inOrder_reached_append hended (hany.mpr hfails) _
    exact congrArg (Output.logs (s.opening tool cmd.common.config)).andThen hsame

/-- Of three inputs the second does not assemble and the third does not exist: the listing of the first
is followed by the failure of the second. -/
theorem listing_is_single_listings_malformed :
    let cmd : ListCommand := ⟨⟨"<stdin>", false, none, none, 0⟩, {}, ["a", "b", "c"]⟩
    let s : Surroundings :=
      ⟨.ofReadings [("a", .ok "RETURN".toUTF8), ("b", .ok "NOPE".toUTF8)], .empty, .ok "d"⟩
    (cmd.inputs ≠ [] ∧ stdinMark ∉ cmd.inputs ∧ cmd.common.time = false) ∧
      (cmd.output s).status = 1 ∧ (cmd.output s).stdout = "== a ==\n0000    1 OP_RETURN\n" := by
  intro cmd s
  have hinputs : cmd.inputs ≠ [] := by decide
  have hmark : stdinMark ∉ cmd.inputs := by decide
  obtain ⟨hstatus, hstdout, -⟩ := listing_is_single_listings_in_order s hinputs hmark rfl
  refine ⟨⟨hinputs, hmark, rfl⟩, hstatus.trans ?_, hstdout.trans ?_⟩
  · exact if_pos ⟨"b", by decide, by decide +kernel⟩
  · decide +kernel

end ListCommand

end StackBytecode.Tool
