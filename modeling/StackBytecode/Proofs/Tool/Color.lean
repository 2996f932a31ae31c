import StackBytecode.Duration
import StackBytecode.Proofs.Tool.CommandLine
import StackBytecode.Proofs.Tool.Messages

/-!
# Commands without colour

A command line can ask for output without colour. From then on that the settings are in force, the
commands keep to it: whatever comes of reading, assembling, validating, showing or running a source, no
piece of the output has styles, if the command line and what is read hold none themselves. The
settings are loaded before, though, and a failure to do so is told in colour, whatever was asked for. So
output without colour is had exactly if the settings come into force.

Every piece of an output is considered by itself, and log records are left out, which are not the
command's own words.
-/

namespace StackBytecode

/-- The text of a duration has no styles. -/
theorem Duration.isColorless_text (d : Duration) : Text.IsColorless d.text := by
  have hfixed (r : Number.Ratio) (places : Nat) : Text.IsColorless (String.ofList (r.fixed places)) := by
    refine (Text.isShown_of_isVisible ?_).isColorless
    rw [String.toList_ofList]
    exact r.isVisible_of_mem_fixed places
  have hrepr (n : Nat) : Text.IsColorless n.repr := (Text.isShown_repr n).isColorless
  rw [text]
  split
  · exact (hrepr _).append (by decide)
  dsimp only
  split
  · exact (hfixed _ _).append (by decide)
  refine Text.IsColorless.append (.append (.append (.append (hrepr _) ?_) ?_) (hfixed _ _)) ?_
  · decide
  · split <;> decide
  · decide

namespace Tool

open Assembly (bind_eq_ok_iff bind_eq_error_iff)
open Text (isColorless_append_iff)

/-! ## Outputs -/

/-- Whether a piece has no styles. A log record is no text yet. -/
def Piece.IsColorless : Piece → Prop
  | .out text | .err text | .elapsed text => Text.IsColorless text
  | .log _ => True

/-- Whether no piece of an output has styles. -/
def Output.IsColorless (o : Output) : Prop := ∀ piece ∈ o.pieces, piece.IsColorless

namespace Output

variable {o next : Output}

theorem IsColorless.stdout (h : o.IsColorless) : Text.IsColorless o.stdout := by
  refine Text.isColorless_join (List.forall_mem_map.mpr fun piece hpiece => ?_)
  cases piece with
  | out text => exact h _ hpiece
  | err _ | elapsed _ | log _ => exact (by decide : Text.IsColorless "")

theorem IsColorless.stderr (h : o.IsColorless) {time : String} (htime : Text.IsColorless time) :
    Text.IsColorless (o.stderr time) := by
  refine Text.isColorless_join (List.forall_mem_map.mpr fun piece hpiece => ?_)
  cases piece with
  | err text => exact h _ hpiece
  | elapsed before =>
    have hbefore : Text.IsColorless before := h _ hpiece
    exact (hbefore.append htime).append (by decide)
  | out _ | log _ => exact (by decide : Text.IsColorless "")

theorem IsColorless.andThen (h : o.IsColorless) (hnext : next.IsColorless) :
    (o.andThen next).IsColorless := by
  unfold Output.andThen
  split
  · exact List.forall_mem_append.mpr ⟨h, hnext⟩
  · exact h

/-- Log records alone show no styles. -/
theorem isColorless_logs (records : List Log.Record) : (Output.logs records).IsColorless :=
  List.forall_mem_map.mpr fun _ _ => trivial

/-- A failure without colours has no styles if its messages have none. -/
theorem isColorless_failure {chain : List String} (h : ∀ message ∈ chain, Text.IsColorless message) :
    (failure false chain).IsColorless := by
  refine List.forall_mem_singleton.mpr ?_
  have hlabel : Text.IsColorless (paint false errorStyle "error:" ++ " ") := by decide
  exact (hlabel.append (Text.isColorless_intercalate (by decide) h)).append (by decide)

/-- A failure in colour has styles, whatever its messages are. -/
theorem not_isColorless_stderr_failure (chain : List String) (time : String) :
    ¬ Text.IsColorless ((failure true chain).stderr time) := by
  rw [stderr, failure, List.map_singleton, String.join_cons]
  simp only [isColorless_append_iff]
  rintro ⟨⟨⟨⟨hlabel, -⟩, -⟩, -⟩, -⟩
  exact absurd hlabel (by decide)

end Output

/-- The line about time has no styles under a name without them. -/
theorem isColorless_timeLine {name : String} (h : Text.IsColorless name) :
    (timeLine false name).IsColorless := by
  have hlabel : Text.IsColorless (paint false dimStyle "time" ++ " ") := by decide
  exact (hlabel.append h).append (by decide)

/-! ## Sources -/

/-- A reading without styles: there are none in its text, and none in the words for why there is no
text. -/
structure IsColorlessReading (reading : Except ReadFault ByteArray) : Prop where
  text : ∀ text, reading >>= decodeText = .ok text → Text.IsColorless text
  reason : ∀ reason, reading = .error reason → Text.IsColorless reason.message

/-- Surroundings without styles in what can be read. -/
structure Surroundings.IsColorless (s : Surroundings) : Prop where
  files : ∀ path, IsColorlessReading (s.files path)
  stdin : IsColorlessReading (.ok s.stdin)

/-- A source without styles in its text and its name. -/
structure Source.IsColorless (source : Source) : Prop where
  text : Text.IsColorless source.text
  name : Text.IsColorless source.name

/-- The reason why there is no text is told without styles. -/
theorem IsColorlessReading.message {reading : Except ReadFault ByteArray} (h : IsColorlessReading reading)
    {reason : ReadFault} (hreason : reading >>= decodeText = .error reason) :
    Text.IsColorless reason.message := by
  rcases bind_eq_error_iff.mp hreason with hread | ⟨bytes, -, hdecode⟩
  · exact h.reason reason hread
  · unfold decodeText at hdecode
    split at hdecode
    · cases hdecode
    · obtain rfl := Except.error.inj hdecode
      decide

/-- Contents of a text without styles have none. -/
theorem isColorlessReading_of_decodeText {bytes : ByteArray} {text : String} (h : decodeText bytes = .ok text)
    (htext : Text.IsColorless text) : IsColorlessReading (.ok bytes) := by
  refine ⟨fun other hother => ?_, fun reason hreason => (by cases hreason)⟩
  obtain rfl := Except.ok.inj (h.symm.trans hother)
  exact htext

/-- Files as they were found have no styles if none is in a reading. -/
theorem isColorlessReading_ofReadings {readings : List (String × Except ReadFault ByteArray)}
    (h : ∀ reading ∈ readings, IsColorlessReading reading.2) (path : String) :
    IsColorlessReading (Files.ofReadings readings path) := by
  unfold Files.ofReadings
  cases hlookup : readings.lookup path with
  | none =>
    refine ⟨fun text htext => (by cases htext), fun reason hreason => ?_⟩
    obtain rfl := Except.error.inj hreason
    exact (by decide : Text.IsColorless ReadFault.missing.message)
  | some reading =>
    obtain ⟨before, after, hsplit, -⟩ := List.lookup_eq_some_iff.mp hlookup
    exact h (path, reading) (by simp [hsplit])

section Reading

variable {s : Surroundings} {stdinName input : String}

/-- A source that is read has no styles, under a name without them. -/
theorem isColorless_of_readSource_eq_ok (hs : s.IsColorless) (hname : Text.IsColorless stdinName)
    (hinput : Text.IsColorless input) {source : Source}
    (h : readSource s.files s.stdin stdinName input = .ok source) : source.IsColorless := by
  unfold readSource at h
  split at h
  · split at h
    case h_1 text htext =>
      obtain rfl := Except.ok.inj h
      exact ⟨hs.stdin.text text htext, hname⟩
    case h_2 => cases h
  · split at h
    case h_1 text htext =>
      obtain rfl := Except.ok.inj h
      exact ⟨(hs.files input).text text htext, hinput⟩
    case h_2 => cases h

/-- That a source cannot be read is told without styles. -/
theorem isColorless_of_readSource_eq_error (hs : s.IsColorless) (hinput : Text.IsColorless input)
    {fault : SourceFault} (h : readSource s.files s.stdin stdinName input = .error fault) :
    ∀ message ∈ fault.chain, Text.IsColorless message := by
  unfold readSource at h
  split at h
  · split at h
    · cases h
    · obtain rfl := Except.error.inj h
      have hreason := hs.stdin.message ‹_›
      exact List.forall_mem_cons.mpr ⟨by decide, List.forall_mem_singleton.mpr hreason⟩
  · split at h
    · cases h
    · obtain rfl := Except.error.inj h
      have hreason := (hs.files input).message ‹_›
      exact List.forall_mem_cons.mpr
        ⟨(by decide : Text.IsColorless "reading ").append hinput, List.forall_mem_singleton.mpr hreason⟩

/-- That a source does not assemble is told without styles. -/
theorem isColorless_of_assembleSource_eq_error {source : Source} (hsource : source.IsColorless)
    {fault : SourceFault} (h : assembleSource source = .error fault) :
    ∀ message ∈ fault.chain, Text.IsColorless message := by
  unfold assembleSource at h
  cases hassemble : assemble source.text with
  | ok c =>
    rw [hassemble] at h
    cases h
  | error cause =>
    rw [hassemble] at h
    obtain rfl := Except.error.inj h
    have hcause := Assembly.isColorless_of_assemble_eq_error hassemble hsource.text
    exact List.forall_mem_cons.mpr
      ⟨(by decide : Text.IsColorless "assembling ").append hsource.name, List.forall_mem_singleton.mpr hcause⟩

/-- That a run fails is told without styles. -/
theorem isColorless_of_runChunk_eq_error {settings : Settings} {name : String}
    (hname : Text.IsColorless name) {c : Chunk} {fault : SourceFault}
    (h : runChunk settings name c = .error fault) : ∀ message ∈ fault.chain, Text.IsColorless message := by
  unfold runChunk at h
  cases hrun : (Machine.runOf settings.machine c).result with
  | ok result =>
    rw [hrun] at h
    cases h
  | error cause =>
    rw [hrun] at h
    obtain rfl := Except.error.inj h
    exact List.forall_mem_cons.mpr
      ⟨(by decide : Text.IsColorless "running ").append hname, cause.isColorless_of_mem_chain⟩

end Reading

/-! ## Commands -/

/-- What holds of a piece holds of each piece that is written on a condition. -/
theorem forall_mem_ite_nil {P : Piece → Prop} (condition : Bool) {piece : Piece} (h : P piece) :
    ∀ other ∈ (if condition then [piece] else []), P other := by
  cases condition
  · exact fun _ hmem => absurd hmem List.not_mem_nil
  · exact List.forall_mem_singleton.mpr h

namespace Arguments

variable {usage : Usage} {a : Arguments}

/-- A command line without styles is read as values and operands without them. -/
theorem Over.of_isColorless {arguments : List String}
    (harguments : ∀ argument ∈ arguments, Text.IsColorless argument)
    (h : Arguments.read usage arguments = .ok a) : a.Over (· ≠ Text.escape) :=
  .read (fun argument hargument _ hc heq => harguments argument hargument (heq ▸ hc)) h

theorem Over.isColorless_operands (h : a.Over (· ≠ Text.escape)) :
    ∀ operand ∈ a.operands, Text.IsColorless operand :=
  fun operand hoperand hescape => h.operands operand hoperand Text.escape hescape rfl

/-- The name of the standard input has no styles if the arguments have none. -/
theorem Over.isColorless_stdinName (h : a.Over (· ≠ Text.escape)) :
    Text.IsColorless (CommonOptions.ofArguments a).stdinName := by
  unfold CommonOptions.ofArguments
  cases hname : a.value? "stdin-name" with
  | none => exact (by decide : Text.IsColorless "<stdin>")
  | some name => exact fun hescape => h.value? hname Text.escape hescape rfl

end Arguments

namespace ListCommand

variable {cmd : ListCommand} {s : Surroundings}

/-- The output for an input without styles has none. -/
theorem isColorless_outputFor (hs : s.IsColorless) (hname : Text.IsColorless cmd.common.stdinName)
    {input : String} (hinput : Text.IsColorless input) : (cmd.outputFor s false input).IsColorless := by
  unfold outputFor
  split
  case h_1 fault hread =>
    exact Output.isColorless_failure (isColorless_of_readSource_eq_error hs hinput hread)
  case h_2 source hread =>
    have hsource := isColorless_of_readSource_eq_ok hs hname hinput hread
    dsimp only
    split
    case h_1 fault hassemble =>
      exact (Output.isColorless_logs _).andThen
        (Output.isColorless_failure (isColorless_of_assembleSource_eq_error hsource hassemble))
    case h_2 c hassemble =>
      split
      case h_1 fault hrender =>
        exact (Output.isColorless_logs _).andThen
          (Output.isColorless_failure (Chunk.isColorless_of_mem_renderChain hsource.name fault))
      case h_2 text hrender =>
        have htext : Text.IsColorless text := Chunk.isColorless_of_render_eq_ok hsource.name hrender
        refine (Output.isColorless_logs _).andThen ?_
        refine List.forall_mem_append.mpr ⟨List.forall_mem_append.mpr ⟨?_, ?_⟩, ?_⟩
        · refine forall_mem_ite_nil _ ?_
          have hlabel : Text.IsColorless (paint false successStyle "verified" ++ " ") := by decide
          exact (hlabel.append hsource.name).append (by decide)
        · exact List.forall_mem_singleton.mpr htext
        · exact forall_mem_ite_nil _ (isColorless_timeLine hsource.name)

/-- The outputs for inputs without styles have none. -/
theorem isColorless_outputForAll (hs : s.IsColorless) (hname : Text.IsColorless cmd.common.stdinName)
    {inputs : List String} (hinputs : ∀ input ∈ inputs, Text.IsColorless input) :
    (cmd.outputForAll s false inputs).IsColorless := by
  induction inputs with
  | nil => exact fun _ h => absurd h List.not_mem_nil
  | cons input rest ih =>
    obtain ⟨hinput, hrest⟩ := List.forall_mem_cons.mp hinputs
    exact (isColorless_outputFor hs hname hinput).andThen (ih hrest)

/-- The names that a command line of the listing command gives have no styles if it has none. -/
theorem isColorless_of_read {arguments : List String} (h : read arguments = .ok cmd)
    (harguments : ∀ argument ∈ arguments, Text.IsColorless argument) :
    Text.IsColorless cmd.common.stdinName ∧ ∀ input ∈ cmd.inputs, Text.IsColorless input := by
  obtain ⟨a, ha, h⟩ := bind_eq_ok_iff.mp h
  have hover := Arguments.Over.of_isColorless harguments ha
  split at h
  · cases h
  · obtain rfl := Except.ok.inj h
    exact ⟨hover.isColorless_stdinName, hover.isColorless_operands⟩

end ListCommand

namespace RunCommand

variable {cmd : RunCommand} {s : Surroundings}

/-- A result is shown without styles. -/
theorem isColorless_resultText (result : Option Value) : Text.IsColorless (resultText false result) := by
  cases result with
  | none => exact (by decide : Text.IsColorless "nil")
  | some v => exact v.isShown_text.isColorless

/-- With settings that ask for no colour the output for an input without styles has none. -/
theorem isColorless_outputWith (hs : s.IsColorless) (hname : Text.IsColorless cmd.common.stdinName)
    (hinput : Text.IsColorless cmd.input) {settings : Settings} (hcolor : settings.color = .never) :
    (cmd.outputWith s settings).IsColorless := by
  have hshows : showsColors settings.color = false := by rw [hcolor]; rfl
  unfold outputWith
  rw [hshows]
  dsimp only
  split
  case h_1 fault hread =>
    exact Output.isColorless_failure (isColorless_of_readSource_eq_error hs hinput hread)
  case h_2 source hread =>
    have hsource := isColorless_of_readSource_eq_ok hs hname hinput hread
    split
    case h_1 fault hassemble =>
      exact (Output.isColorless_logs _).andThen
        (Output.isColorless_failure (isColorless_of_assembleSource_eq_error hsource hassemble))
    case h_2 c hassemble =>
      have hlogged := (Output.isColorless_logs (assemblyRecords source.text)).andThen
        (Output.isColorless_logs (Machine.records settings.machine c))
      split
      case h_1 fault hrun =>
        exact hlogged.andThen
          (Output.isColorless_failure (isColorless_of_runChunk_eq_error hsource.name hrun))
      case h_2 result hrun =>
        refine hlogged.andThen (List.forall_mem_cons.mpr ⟨?_, ?_⟩)
        · exact (isColorless_resultText result).append (by decide)
        · exact forall_mem_ite_nil _ (isColorless_timeLine hsource.name)

/-- The names that a command line of the running command gives have no styles if it has none. -/
theorem isColorless_of_read {arguments : List String} (h : read arguments = .ok cmd)
    (harguments : ∀ argument ∈ arguments, Text.IsColorless argument) :
    Text.IsColorless cmd.common.stdinName ∧ Text.IsColorless cmd.input := by
  obtain ⟨a, ha, h⟩ := bind_eq_ok_iff.mp h
  have hover := Arguments.Over.of_isColorless harguments ha
  split at h
  case h_1 input hoperands =>
    obtain rfl := Except.ok.inj h
    exact ⟨hover.isColorless_stdinName, hover.isColorless_operands _ (by simp [hoperands])⟩
  case h_2 => cases h

/-- A command line passes its colour on to the settings. -/
theorem overrides_color_of_read {arguments : List String} (h : read arguments = .ok cmd) :
    cmd.overrides.color = cmd.common.color := by
  obtain ⟨a, -, h⟩ := bind_eq_ok_iff.mp h
  split at h
  · obtain rfl := Except.ok.inj h
    rfl
  · cases h

/-- A colour that is asked for is that of the settings. -/
theorem color_of_settings {settings : Settings} (h : cmd.settings s = .ok settings) {color : ColorMode}
    (hcolor : cmd.overrides.color = some color) : settings.color = color := by
  unfold RunCommand.settings at h
  split at h
  · cases h
  · split at h
    · cases h
    case h_2 loaded _ _ hoverride =>
      obtain rfl := Except.ok.inj h
      unfold Settings.override? at hoverride
      dsimp only at hoverride
      split at hoverride
      · cases hoverride
      · obtain rfl := Option.some.inj hoverride
        simp [hcolor]

end RunCommand

/-! ## Command lines -/

/-- Whether an output has no styles exactly if a condition holds, and none on the standard output
anyway. Any duration can have passed. -/
def Output.IsColorlessIff (o : Output) (condition : Prop) : Prop :=
  Text.IsColorless o.stdout ∧ ∀ d : Duration, Text.IsColorless (o.stderr d.text) ↔ condition

/-- An output without styles meets any condition that holds. -/
theorem Output.IsColorless.iff_of_holds {o : Output} (h : o.IsColorless) {condition : Prop}
    (hcondition : condition) : o.IsColorlessIff condition :=
  ⟨h.stdout, fun d => iff_of_true (h.stderr d.isColorless_text) hcondition⟩

/-- A failure in colour meets any condition that does not hold. -/
theorem Output.isColorlessIff_failure (chain : List String) {condition : Prop} (h : ¬ condition) :
    (failure true chain).IsColorlessIff condition :=
  ⟨(by decide : Text.IsColorless ""),
    fun d => iff_of_false (Output.not_isColorless_stderr_failure chain d.text) h⟩

/-- Log records in front are not part of either output. -/
theorem Output.IsColorlessIff.after_logs (records : List Log.Record) {o : Output} {condition : Prop}
    (h : o.IsColorlessIff condition) : ((logs records).andThen o).IsColorlessIff condition := by
  refine ⟨?_, fun d => ?_⟩
  · rw [stdout_logs_andThen]
    exact h.1
  · rw [stderr_logs_andThen]
    exact h.2 d

/-- With a listing that asks for no colour there is none exactly if the settings can be loaded. -/
theorem ListCommand.output_isColorlessIff {cmd : ListCommand} {s : Surroundings} (hs : s.IsColorless)
    (hname : Text.IsColorless cmd.common.stdinName) (hinputs : ∀ input ∈ cmd.inputs, Text.IsColorless input)
    (hcolor : cmd.common.color = some .never) :
    (cmd.output s).IsColorlessIff
      (∃ settings, s.load cmd.common.config = .ok settings) := by
  refine Output.IsColorlessIff.after_logs _ ?_
  unfold work
  split
  case h_1 fault hload =>
    exact Output.isColorlessIff_failure _ (by simp [hload])
  case h_2 settings hload =>
    have hshows : showsColors (cmd.common.color.getD settings.color) = false := by rw [hcolor]; rfl
    rw [hshows]
    refine Output.IsColorless.iff_of_holds ?_ ⟨settings, hload⟩
    dsimp only
    split
    · exact isColorless_outputForAll hs hname hinputs
    · refine Output.isColorless_failure (List.forall_mem_singleton.mpr ?_)
      decide

/-- With a run that asks for no colour there is none exactly if the settings come into force. -/
theorem RunCommand.output_isColorlessIff {cmd : RunCommand} {s : Surroundings} (hs : s.IsColorless)
    (hname : Text.IsColorless cmd.common.stdinName) (hinput : Text.IsColorless cmd.input)
    (hcolor : cmd.overrides.color = some .never) :
    (cmd.output s).IsColorlessIff (∃ settings, cmd.settings s = .ok settings) := by
  refine Output.IsColorlessIff.after_logs _ ?_
  unfold work
  split
  case h_1 chain hsettings =>
    exact Output.isColorlessIff_failure _ (by simp [hsettings])
  case h_2 settings hsettings =>
    have hnever := color_of_settings hsettings hcolor
    exact (isColorless_outputWith hs hname hinput hnever).iff_of_holds ⟨settings, hsettings⟩

/-- When a command line of either command asks for no colour, and nothing in it and nothing that can
be read has styles, then the standard output has none, and the error output has none exactly if the settings
come into force: for a listing, if they can be loaded, and for a run, if besides they allow a stack
that can hold something. -/
theorem colorless_iff_settings_in_force {arguments : List String} {s : Surroundings}
    (harguments : ∀ argument ∈ arguments, Text.IsColorless argument) (hs : s.IsColorless) :
    (∀ cmd, ListCommand.read arguments = .ok cmd → cmd.common.color = some .never →
      (listOutput arguments s).IsColorlessIff
        (∃ settings, s.load cmd.common.config = .ok settings)) ∧
    ∀ cmd, RunCommand.read arguments = .ok cmd → cmd.common.color = some .never →
      (runOutput arguments s).IsColorlessIff (∃ settings, cmd.settings s = .ok settings) := by
  refine ⟨fun cmd hread hcolor => ?_, fun cmd hread hcolor => ?_⟩
  · obtain ⟨hname, hinputs⟩ := ListCommand.isColorless_of_read hread harguments
    rw [listOutput, hread]
    exact ListCommand.output_isColorlessIff hs hname hinputs hcolor
  · obtain ⟨hname, hinput⟩ := RunCommand.isColorless_of_read hread harguments
    rw [runOutput, hread]
    exact RunCommand.output_isColorlessIff hs hname hinput
      ((RunCommand.overrides_color_of_read hread).trans hcolor)

/-- A source with an unknown instruction is refused without colour by both commands. -/
theorem colorless_iff_settings_in_force_unknown_instruction :
    let arguments := ["a", "--color=never"]
    let s : Surroundings := ⟨.ofReadings [("a", .ok "NOPE".toUTF8)], "NOPE".toUTF8, .ok "d"⟩
    (∀ argument ∈ arguments, Text.IsColorless argument) ∧ s.IsColorless ∧
      (∀ d : Duration, Text.IsColorless ((listOutput arguments s).stderr d.text)) ∧
      ∀ d : Duration, Text.IsColorless ((runOutput arguments s).stderr d.text) := by
  intro arguments s
  let common : CommonOptions := ⟨"<stdin>", false, some .never, none, 0⟩
  have harguments : ∀ argument ∈ arguments, Text.IsColorless argument := by decide
  have hdecode : decodeText "NOPE".toUTF8 = .ok "NOPE" := by decide +kernel
  have hreading := isColorlessReading_of_decodeText hdecode (by decide)
  have hs : s.IsColorless :=
    ⟨isColorlessReading_ofReadings (List.forall_mem_singleton.mpr hreading), hreading⟩
  have hlisting : ListCommand.read arguments = .ok ⟨common, {}, ["a"]⟩ := by decide +kernel
  have hrunning : RunCommand.read arguments = .ok ⟨common, ⟨none, false, some .never⟩, "a"⟩ := by
    decide +kernel
  have hload : s.load none = .ok {} := by decide +kernel
  obtain ⟨hlist, hrun⟩ := colorless_iff_settings_in_force harguments hs
  refine ⟨harguments, hs, fun d => ?_, fun d => ?_⟩
  · exact ((hlist _ hlisting rfl).2 d).mpr ⟨{}, hload⟩
  · refine ((hrun _ hrunning rfl).2 d).mpr ⟨{ color := .never }, ?_⟩
    rw [RunCommand.settings, hload]
    rfl

/-- That the settings of a run cannot be read is told in colour, though the run asks for none. -/
theorem missing_settings_in_color :
    let arguments := ["-", "--config", "zz.toml", "--color", "never"]
    let s : Surroundings := ⟨.ofReadings [], .empty, .ok "d"⟩
    (∀ argument ∈ arguments, Text.IsColorless argument) ∧ s.IsColorless ∧
      (∃ cmd, RunCommand.read arguments = .ok cmd ∧ cmd.common.color = some .never) ∧
      ∀ time, ¬ Text.IsColorless ((runOutput arguments s).stderr time) := by
  intro arguments s
  have hdecode : decodeText .empty = .ok "" := by decide +kernel
  have hempty := isColorlessReading_of_decodeText hdecode (by decide)
  have hfiles := @isColorlessReading_ofReadings [] (fun _ h => absurd h List.not_mem_nil)
  exact ⟨by decide, ⟨hfiles, hempty⟩, ⟨_, rfl, rfl⟩, Output.not_isColorless_stderr_failure _⟩

end Tool

end StackBytecode
