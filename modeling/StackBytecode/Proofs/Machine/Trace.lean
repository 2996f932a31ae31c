import StackBytecode.Proofs.Listing.Lines
import StackBytecode.Proofs.Machine.Atomicity
import StackBytecode.Proofs.Machine.Dispatch

/-!
# Runs do not remember, and their trace is the listing

A run begins with an empty stack, whatever the machine ran before, and logging it changes
nothing. What is logged are the instructions that the instruction pointer comes to, each
with the stack that the code before it leaves. They are the first instructions of the
chunk, all of them unless one stops the run, so their texts are the first lines of the
full listing.

The text of an instruction is written like an entry of the listing and loses the blanks at
its end. That takes off the line feed and nothing else.
-/

namespace StackBytecode.Machine

open Listing (Entry)

/-! ## What a run comes to -/

section Visits

variable {limit : Nat} {pool : Buffer Value}

/-- A run comes to what it runs on in order, leaving nothing out. -/
theorem isPrefix_visits (stack : Stack) (found : List Decoding.Found) :
    ((run limit pool stack found).visits.map fun v => Except.ok v.found) <+: found := by
  induction found generalizing stack with
  | nil => exact List.nil_prefix
  | cons head rest ih =>
    cases head with
    | error fault => exact List.nil_prefix
    | ok head =>
      rw [run]
      cases step limit pool stack head.item with
      | stop result left => exact List.cons_prefix_cons.mpr ⟨rfl, List.nil_prefix⟩
      | next stack' => exact List.cons_prefix_cons.mpr ⟨rfl, ih stack'⟩

/-- A run comes to every instruction before the end or a fault of the code, unless the last one that
it comes to stops it. -/
theorem visits_complete (stack : Stack) (found : List (Placed Instruction)) {rest : List Decoding.Found}
    (hrest : ∀ head ∈ rest.head?, ∃ fault, head = .error fault) :
    (run limit pool stack (found.map .ok ++ rest)).visits.map Visit.found = found ∨
      ∃ last result left, (run limit pool stack (found.map .ok ++ rest)).visits.getLast? = some last ∧
        step limit pool last.stack last.found.item = .stop result left := by
  induction found generalizing stack with
  | nil =>
    cases rest with
    | nil => exact .inl rfl
    | cons head rest =>
      obtain ⟨fault, rfl⟩ := hrest head rfl
      exact .inl rfl
  | cons head found ih =>
    rw [List.map_cons, List.cons_append, run]
    cases hstep : step limit pool stack head.item with
    | stop result left => exact .inr ⟨_, result, left, rfl, hstep⟩
    | next stack' =>
      rcases ih stack' with hall | ⟨last, result, left, hlast, hstop⟩
      · exact .inl (congrArg (head :: ·) hall)
      · refine .inr ⟨last, result, left, ?_, hstop⟩
        rw [List.getLast?_cons, hlast]
        rfl

/-- The stack before an instruction that a run comes to is what the instructions before it leave. -/
theorem exists_run_of_mem_visits {stack : Stack} {found : List Decoding.Found} {v : Visit}
    (h : v ∈ (run limit pool stack found).visits) :
    ∃ (before : List (Placed Instruction)) (after : List Decoding.Found),
      found = before.map .ok ++ .ok v.found :: after ∧
      (run limit pool stack (before.map .ok)).result = .ok none ∧
      (run limit pool stack (before.map .ok)).stack = v.stack := by
  induction found generalizing stack with
  | nil => simp [run] at h
  | cons head rest ih =>
    cases head with
    | error fault => simp [run] at h
    | ok head =>
      rw [run] at h
      cases hstep : step limit pool stack head.item with
      | stop result left =>
        rw [hstep] at h
        rw [List.mem_singleton.mp h]
        exact ⟨[], rest, rfl, rfl, rfl⟩
      | next stack' =>
        rw [hstep] at h
        rcases List.mem_cons.mp h with rfl | h
        · exact ⟨[], rest, rfl, rfl, rfl⟩
        · obtain ⟨before, after, rfl, hresult, hstack⟩ := ih h
          refine ⟨head :: before, after, rfl, ?_, ?_⟩
          · rw [List.map_cons, run, hstep]
            exact hresult
          · rw [List.map_cons, run, hstep]
            exact hstack

end Visits

/-- Code that is cut off behind some instructions runs these. -/
theorem runOf_cut (config : Config) {c : Chunk} {stop : Nat} {found : List (Placed Instruction)}
    (h : c.Reads 0 found stop) :
    runOf config (c.cut stop) = run config.stackMax c.pool .empty (found.map .ok) := by
  rw [runOf, h.decode_cut]
  rfl

/-- The stack before an instruction is the one that interpreting the code before it leaves. -/
theorem runOf_cut_of_mem_visits {config : Config} {c : Chunk} {v : Visit}
    (h : v ∈ (runOf config c).visits) :
    (runOf config (c.cut v.found.offset)).result = .ok none ∧
      (runOf config (c.cut v.found.offset)).stack = v.stack := by
  obtain ⟨before, after, hdecode, hresult, hstack⟩ := exists_run_of_mem_visits h
  have hiterates := c.iterates_decode
  rw [hdecode] at hiterates
  have hreads := hiterates.reads_of_append.1
  rw [Decoding.offsetOf] at hreads
  rw [runOf_cut config hreads]
  exact ⟨hresult, hstack⟩

/-- The instructions that a run of a chunk comes to are the first ones of the chunk. -/
theorem isPrefix_found_visits (config : Config) (c : Chunk) :
    (runOf config c).visits.map Visit.found <+: c.instructions := by
  have hvisits : ((runOf config c).visits.map fun v => Except.ok v.found) <+: c.decode :=
    isPrefix_visits .empty c.decode
  have hfound := hvisits.filterMap Except.toOption
  rw [List.filterMap_map] at hfound
  exact List.filterMap_eq_map (f := Visit.found) ▸ hfound

/-- A run of a chunk comes to all of its instructions, unless the last one that it comes to stops
it. -/
theorem found_visits_complete (config : Config) (c : Chunk) :
    (runOf config c).visits.map Visit.found = c.instructions ∨
      ∃ last result left, (runOf config c).visits.getLast? = some last ∧
        step config.stackMax c.pool last.stack last.found.item = .stop result left := by
  rw [runOf]
  obtain ⟨stop, -, ⟨-, hdecode, -⟩ | ⟨fault, -, hdecode, -⟩⟩ := c.reads_instructions
  · rw [hdecode, ← List.append_nil (c.instructions.map Except.ok)]
    exact visits_complete .empty c.instructions (by simp)
  · rw [hdecode]
    exact visits_complete .empty c.instructions (by simp)

/-! ## What a run logs -/

/-- The text of a stack is that of its values, bottom first and each in brackets. -/
theorem stackText_eq (stack : Stack) :
    stackText stack = String.join (stack.values.reverse.map fun v => "[ " ++ v.text ++ " ]") := by
  rw [stackText, ← String.empty_append (s := String.join _), ← Text.foldl_append_eq_join]
  simp only [String.append_assoc]

/-- The text that is logged of an instruction is what `listAt` writes, without the blanks at its
end. -/
theorem trimEnd_listAt (c : Chunk) (offset : Nat) :
    Text.trimEnd (c.listAt offset "").1 = (c.entryAt offset).full := by
  rw [Chunk.listAt, String.empty_append]
  exact (c.entryAt offset).endsPlain_full.trimEnd_append_newline

/-- Runs keep the settings of a machine. -/
theorem config_foldl_interpret (m : Machine) (history : List Chunk) :
    (history.foldl (fun m d => (m.interpret d).2) m).config = m.config := by
  induction history generalizing m with
  | nil => rfl
  | cons d rest ih => rw [List.foldl_cons, ih, interpret]

/-- The record of an instruction that a run comes to holds the text that `listAt` writes at its
offset, without the blanks at its end, and the text of the stack before it. -/
theorem record_eq (c : Chunk) (v : Visit) :
    v.record c = .instruction (Text.trimEnd (c.listAt v.found.offset "").1)
      (String.join (v.stack.values.reverse.map fun x => "[ " ++ x.text ++ " ]")) := by
  rw [Visit.record, trimEnd_listAt, stackText_eq]

/-- The texts of the instructions that a run comes to are the first lines of the listing. -/
theorem exists_linesOf_visits (config : Config) (c : Chunk) :
    ∃ rest, Chunk.linesOf Entry.full c.listing =
      String.join ((runOf config c).visits.map fun v =>
        Text.trimEnd (c.listAt v.found.offset "").1 ++ "\n") ++ rest := by
  obtain ⟨entries, hentries⟩ :=
    ((isPrefix_found_visits config c).map fun p => c.entryAt p.offset).trans c.map_entryAt_prefix_listing
  refine ⟨Chunk.linesOf Entry.full entries, ?_⟩
  rw [← hentries, Chunk.linesOf, List.map_append, String.join_append, List.map_map, List.map_map]
  simp only [trimEnd_listAt]
  rfl

/-- Neither tracing nor what a machine ran before influences a run, and the trace is the listing.
After any runs, a machine interprets a chunk with the result and to the stack that a fresh one
with the same limit and without tracing does, and as dispatching by an instruction pointer from
an empty stack does. If it traces, it logs one record for each instruction that dispatching
comes to and decodes: the first instructions of the chunk, and all of them unless the last one
that is logged stops the run. A record shows the text that `listAt` writes, without the blanks at
its end, and the stack that the code before the instruction leaves when it is interpreted, each
value in brackets. The texts, with a line feed behind each, are the beginning of the full listing
under its header. -/
theorem interpret_unaffected_and_trace_listed (config : Config) (history : List Chunk) (c : Chunk)
    (name : String) :
    let m : Machine := history.foldl (fun m d => (m.interpret d).2) { config }
    let fresh : Machine := { config := { stackMax := config.stackMax, trace := false } }
    (m.interpret c).1 = (fresh.interpret c).1 ∧
    (m.interpret c).2.stack = (fresh.interpret c).2.stack ∧
    ∃ visits : List Visit,
      Dispatches config.stackMax c 0 .empty
        ⟨visits, (m.interpret c).1, (m.interpret c).2.stack⟩ ∧
      (records m.config c = .interpreting c.size ::
        if config.trace then visits.map fun v =>
          .instruction (Text.trimEnd (c.listAt v.found.offset "").1)
            (String.join (v.stack.values.reverse.map fun x => "[ " ++ x.text ++ " ]"))
        else []) ∧
      visits.map Visit.found <+: c.instructions ∧
      (visits.map Visit.found = c.instructions ∨
        ∃ last result left, visits.getLast? = some last ∧
          step config.stackMax c.pool last.stack last.found.item = .stop result left) ∧
      (∀ v ∈ visits, (m.interpret (c.cut v.found.offset)).1 = .ok none ∧
        (m.interpret (c.cut v.found.offset)).2.stack = v.stack) ∧
      ∃ rest, c.fullListing name = "== " ++ name ++ " ==\n" ++
        (String.join (visits.map fun v => Text.trimEnd (c.listAt v.found.offset "").1 ++ "\n") ++
          rest) := by
  intro m fresh
  have hconfig : m.config = config := config_foldl_interpret _ history
  have hrun (d : Chunk) : (m.interpret d).1 = (runOf config d).result ∧
      (m.interpret d).2.stack = (runOf config d).stack := by
    rw [interpret, hconfig]
    exact ⟨rfl, rfl⟩
  rw [(hrun c).1, (hrun c).2, hconfig]
  refine ⟨rfl, rfl, (runOf config c).visits, dispatches_iff_runOf.mpr rfl, ?_,
    isPrefix_found_visits config c, found_visits_complete config c, ?_, ?_⟩
  · rw [records, List.map_congr_left fun v _ => record_eq c v]
  · intro v hv
    rw [(hrun _).1, (hrun _).2]
    exact runOf_cut_of_mem_visits hv
  · obtain ⟨rest, hrest⟩ := exists_linesOf_visits config c
    exact ⟨rest, by rw [c.fullListing_eq, hrest]⟩

end StackBytecode.Machine
