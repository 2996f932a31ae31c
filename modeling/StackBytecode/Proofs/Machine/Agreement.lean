import StackBytecode.Proofs.Decoding.Layout
import StackBytecode.Proofs.Machine.Step
import StackBytecode.Validation

/-!
# Validation agrees with running

Validation reads all of the code and runs none of it; a run reads code only as far as it
comes. Whatever the bytes are, the two agree on the first fault: a run that meets a fault
of the code meets the one that validation reports, and otherwise it was ended before by an
instruction of its own, a return or a stack that is too low or too high.

The two are compared along the list of what decoding finds, so the comparison is one
induction over that list. Its offsets grow, which is why an instruction that ends a run
early stands before the fault.
-/

namespace StackBytecode

/-- A fault of code, as a run reports it. -/
def ValidationCause.toRuntime : ValidationCause → RuntimeCause
  | .decode cause => .decode cause
  | .constantOutOfRange index size => .constantOutOfRange index size

/-- A run reports different faults of code differently. -/
theorem ValidationCause.toRuntime_inj {a b : ValidationCause} (h : a.toRuntime = b.toRuntime) :
    a = b := by
  cases a <;> cases b <;> simp_all [toRuntime]

/-- A validation fault has the offset of what it was found in. -/
theorem ValidationFault.offset_of? {size : Nat} {found : Decoding.Found} {fault : ValidationFault}
    (h : ValidationFault.of? size found = some fault) : fault.offset = Decoding.offsetOf found := by
  unfold ValidationFault.of? at h
  split at h
  · obtain rfl := Option.some.inj h
    rfl
  · split at h
    · cases h
    · obtain rfl := Option.some.inj h
      rfl
  · cases h

/-- An instruction has no fault if it is no constant, or if its constant is in the pool. -/
theorem ValidationFault.of?_eq_none {size : Nat} {found : Placed Instruction}
    (h : ∀ index, found.item = .constant index → index.toNat < size) :
    ValidationFault.of? size (.ok found) = none := by
  obtain ⟨offset, line, item⟩ := found
  cases item with
  | constant index => exact if_pos (h index rfl)
  | ret => rfl
  | arith f => rfl
  | negate => rfl

/-- A chunk that is laid out from instructions is valid if their constants are in its pool. -/
theorem Chunk.validationFault?_of_encode {c : Chunk} {program : List (UInt32 × Instruction)}
    (hcells : c.cells.toList = Decoding.encode program)
    (hpool : ∀ line index, (line, .constant index) ∈ program → index.toNat < c.poolSize) :
    c.validationFault? = none := by
  rw [Chunk.validationFault?, Chunk.decode_of_encode hcells, List.findSome?_eq_none_iff,
    List.forall_mem_map]
  intro found hfound
  apply ValidationFault.of?_eq_none
  intro index hindex
  have hmem := List.mem_map_of_mem (f := fun found => (found.line, found.item)) hfound
  rw [Decoding.map_place, hindex] at hmem
  exact hpool found.line index hmem

namespace Machine

/-- An instruction ends a run of its own accord, with the given result: it returns, or the stack
is too low for it, or it is a constant and the stack is full. -/
inductive Visit.Ends (limit : Nat) (visit : Visit) : Except RuntimeFault (Option Value) → Prop
  | returns (hitem : visit.found.item = .ret) : visit.Ends limit (.ok visit.stack.values.head?)
  | underflows (hstack : visit.stack.depth < visit.found.item.arity) :
      visit.Ends limit (.error (visit.found.map fun i => .stackUnderflow i.opcode))
  | overflows {index : UInt8} (hitem : visit.found.item = .constant index)
      (hstack : limit ≤ visit.stack.depth) :
      visit.Ends limit (.error (visit.found.map fun _ => .stackOverflow limit))

/-- A run agrees with the first fault of the code that it runs on. -/
inductive Run.Agrees (limit : Nat) (run : Run) : Option ValidationFault → Prop
  | runsOff (hresult : run.result = .ok none) : run.Agrees limit none
  | faults {fault : ValidationFault} (hresult : run.result = .error (fault.map ValidationCause.toRuntime)) :
      run.Agrees limit (some fault)
  | ends {first : Option ValidationFault} {visit : Visit} (hlast : run.visits.getLast? = some visit)
      (hends : visit.Ends limit run.result) (hbefore : ∀ fault ∈ first, visit.found.offset < fault.offset) :
      run.Agrees limit first

/-- An instruction that a run passes first does not change how the run agrees. -/
theorem Run.Agrees.cons {limit : Nat} {run : Run} {first : Option ValidationFault}
    (h : run.Agrees limit first) (visit : Visit) :
    Run.Agrees limit { run with visits := visit :: run.visits } first := by
  cases h with
  | runsOff hresult => exact .runsOff hresult
  | faults hresult => exact .faults hresult
  | ends hlast hends hbefore =>
    refine .ends ?_ hends hbefore
    rw [List.getLast?_cons, hlast]
    rfl

/-- An instruction goes on only if its constant, should it have one, is in the pool. -/
theorem Acts.lt_size {limit : Nat} {pool : Buffer Value} {stack stack' : Stack} {index : UInt8}
    (h : Acts limit pool stack (.constant index) (.next stack')) : index.toNat < pool.size := by
  cases h with
  | pushes hv hroom => exact Buffer.lt_size_of_get?_eq_some hv

/-- An instruction that stops ends the run of its own accord, unless its constant is not in the
pool. -/
theorem Acts.ends {limit : Nat} {pool : Buffer Value} {stack left : Stack} {found : Placed Instruction}
    {result : Except RuntimeCause (Option Value)}
    (h : Acts limit pool stack found.item (.stop result left))
    (hpool : ∀ index, found.item = .constant index → index.toNat < pool.size) :
    Visit.Ends limit ⟨found, stack⟩ (result.mapError (found.map fun _ => ·)) := by
  obtain ⟨offset, line, item⟩ := found
  cases h with
  | dangles hindex => exact absurd (hpool _ rfl) (Nat.not_lt.mpr hindex)
  | overflows hv hfull => exact .overflows rfl hfull
  | returns hstack =>
    have hreturns : Visit.Ends limit ⟨⟨offset, line, .ret⟩, stack⟩ (.ok stack.values.head?) :=
      .returns rfl
    rwa [hstack] at hreturns
  | leaves hstack =>
    have hreturns : Visit.Ends limit ⟨⟨offset, line, .ret⟩, stack⟩ (.ok stack.values.head?) :=
      .returns rfl
    rwa [hstack] at hreturns
  | underflows hstack => exact .underflows hstack

/-- A constant that is not in the pool stops the run with that fault. -/
theorem step_constant_of_size_le {limit : Nat} {pool : Buffer Value} {stack : Stack} {index : UInt8}
    (h : pool.size ≤ index.toNat) : step limit pool stack (.constant index) =
      .stop (.error (.constantOutOfRange index.toNat pool.size)) stack := by
  rw [step, Buffer.get?_eq_none_iff.mpr h]

/-- A run agrees with the first fault among what it runs on, from any stack within the limit. -/
theorem agrees_run {limit : Nat} (pool : Buffer Value) {stack : Stack} {found : List Decoding.Found}
    (hdepth : stack.depth ≤ limit)
    (hoffsets : found.Pairwise fun a b => Decoding.offsetOf a < Decoding.offsetOf b) :
    (run limit pool stack found).Agrees limit
      (found.findSome? (ValidationFault.of? pool.size)) := by
  induction found generalizing stack with
  | nil => exact .runsOff rfl
  | cons head rest ih =>
    cases head with
    | error fault => exact .faults rfl
    | ok head =>
      obtain ⟨hhead, hrest⟩ := List.pairwise_cons.mp hoffsets
      have hbefore : ∀ fault ∈ rest.findSome? (ValidationFault.of? pool.size),
          head.offset < fault.offset := by
        intro fault hfault
        obtain ⟨other, hother, hof⟩ := List.exists_of_findSome?_eq_some hfault
        rw [ValidationFault.offset_of? hof]
        exact hhead other hother
      rw [run, List.findSome?_cons]
      have hacts := acts_step pool hdepth head.item
      cases hstep : step limit pool stack head.item with
      | next stack' =>
        rw [hstep] at hacts
        rw [ValidationFault.of?_eq_none fun index h => (h ▸ hacts).lt_size]
        exact (ih (hacts.depth_le hdepth) hrest).cons _
      | stop result left =>
        rw [hstep] at hacts
        by_cases hpool : ∀ index, head.item = .constant index → index.toNat < pool.size
        · rw [ValidationFault.of?_eq_none hpool]
          exact .ends rfl (hacts.ends hpool) hbefore
        · -- the constant is not in the pool: validation and the run both say so
          obtain ⟨index, hindex⟩ := Classical.not_forall.mp hpool
          obtain ⟨hitem, hsize⟩ := Classical.not_imp.mp hindex
          obtain ⟨offset, line, item⟩ := head
          obtain rfl : item = .constant index := hitem
          rw [step_constant_of_size_le (Nat.le_of_not_lt hsize)] at hstep
          obtain ⟨rfl, rfl⟩ := Outcome.stop.inj hstep
          simp only [ValidationFault.of?, if_neg hsize]
          exact .faults rfl

/-- A run comes only to instructions that it runs on. -/
theorem found_mem_of_mem_visits {limit : Nat} {pool : Buffer Value} {stack : Stack}
    {found : List Decoding.Found} {visit : Visit}
    (h : visit ∈ (run limit pool stack found).visits) : .ok visit.found ∈ found := by
  induction found generalizing stack with
  | nil => simp [run] at h
  | cons head rest ih =>
    cases head with
    | error fault => simp [run] at h
    | ok head =>
      rw [run] at h
      cases hstep : step limit pool stack head.item with
      | stop result left =>
        rw [hstep] at h
        rw [List.mem_singleton.mp h]
        exact List.mem_cons_self ..
      | next stack' =>
        rw [hstep] at h
        rcases List.mem_cons.mp h with rfl | h
        · exact List.mem_cons_self ..
        · exact List.mem_cons_of_mem _ (ih h)

/-- Every instruction that the run of a chunk comes to stands in its code. -/
theorem decodeAt_of_mem_visits {config : Config} {c : Chunk} {visit : Visit}
    (h : visit ∈ (runOf config c).visits) :
    c.decodeAt visit.found.offset = some (.ok visit.found) :=
  (c.iterates_decode.decodeAt_of_mem (found_mem_of_mem_visits h)).1

/-- The run of a chunk agrees with its first fault. -/
theorem agrees_runOf (config : Config) (c : Chunk) :
    (runOf config c).Agrees config.stackMax c.validationFault? :=
  agrees_run c.pool (Nat.zero_le _) c.iterates_decode.pairwise

/-- Running a valid chunk ends in a value, in none, or in a fault of the stack. -/
theorem result_of_valid (config : Config) {c : Chunk} (h : c.validationFault? = none) :
    (∃ value, (runOf config c).result = .ok value) ∨
      ∃ fault, (runOf config c).result = .error fault ∧
        ((∃ op, fault.item = .stackUnderflow op) ∨ fault.item = .stackOverflow config.stackMax) := by
  have hagrees := agrees_runOf config c
  rw [h] at hagrees
  cases hagrees with
  | runsOff hresult => exact .inl ⟨none, hresult⟩
  | ends hlast hends hbefore =>
    generalize (runOf config c).result = result at hends
    cases hends with
    | returns hitem => exact .inl ⟨_, rfl⟩
    | underflows hstack => exact .inr ⟨_, rfl, .inl ⟨_, rfl⟩⟩
    | overflows hitem hstack => exact .inr ⟨_, rfl, .inr rfl⟩

/-- A fault that is not one of the stack is the fault of the code. -/
theorem validationFault?_of_result {config : Config} {c : Chunk} {fault : RuntimeFault}
    {cause : ValidationCause} (hresult : (runOf config c).result = .error fault)
    (hcause : fault.item = cause.toRuntime) :
    c.validationFault? = some (fault.map fun _ => cause) := by
  have hagrees := agrees_runOf config c
  generalize c.validationFault? = first at hagrees ⊢
  cases hagrees with
  | runsOff hnone => simp [hresult] at hnone
  | @faults found hfound =>
    obtain rfl : fault = found.map ValidationCause.toRuntime := by simpa [hresult] using hfound
    have hitem : found.item = cause := ValidationCause.toRuntime_inj hcause
    rw [← hitem]
    rfl
  | ends hlast hends hbefore =>
    -- an instruction that ends a run of its own accord gives no fault of the code
    rw [hresult] at hends
    cases hends with
    | underflows hstack => cases cause <;> cases hcause
    | overflows hitem hstack => cases cause <;> cases hcause

/-- On any chunk the run and validation agree about faults of the code. A valid chunk runs into
no other faults than those of the stack, a fault of the code that a run meets is the one that
validation reports, and before a fault that validation reports a run either meets it or is
ended at a smaller offset by the instruction standing there. -/
theorem validation_agrees_with_run (m : Machine) (c : Chunk) :
    (c.validationFault? = none →
      (∃ value, (m.interpret c).1 = .ok value) ∨
        ∃ fault, (m.interpret c).1 = .error fault ∧
          ((∃ op, fault.item = .stackUnderflow op) ∨
            fault.item = .stackOverflow m.config.stackMax)) ∧
    (∀ fault, (m.interpret c).1 = .error fault →
      (∀ cause, fault.item = .decode cause →
        c.validationFault? = some (fault.map fun _ => .decode cause)) ∧
      ∀ index size, fault.item = .constantOutOfRange index size →
        c.validationFault? = some (fault.map fun _ => .constantOutOfRange index size)) ∧
    ∀ fault, c.validationFault? = some fault →
      (m.interpret c).1 = .error (fault.map ValidationCause.toRuntime) ∨
        ∃ visit, (runOf m.config c).visits.getLast? = some visit ∧
          c.decodeAt visit.found.offset = some (.ok visit.found) ∧
          visit.found.offset < fault.offset ∧ visit.Ends m.config.stackMax (m.interpret c).1 := by
  refine ⟨result_of_valid m.config, ?_, ?_⟩
  · intro fault hfault
    exact ⟨fun cause hcause => validationFault?_of_result hfault hcause,
      fun index size hcause => validationFault?_of_result hfault hcause⟩
  · intro fault hfault
    have hagrees := agrees_runOf m.config c
    rw [hfault] at hagrees
    cases hagrees with
    | faults hresult => exact .inl hresult
    | ends hlast hends hbefore =>
      exact .inr ⟨_, hlast, decodeAt_of_mem_visits (List.mem_of_getLast? hlast), hbefore fault rfl,
        hends⟩

/-- A byte that is no opcode is a fault of the code also behind a return, where no run comes. -/
theorem validation_agrees_with_run_behind_return :
    ∃ c : Chunk, c.validationFault? = some ⟨1, 2, .decode (.unknownOpcode 255)⟩ ∧
      ∃ visit, (runOf {} c).visits.getLast? = some visit ∧ visit.found.offset < 1 ∧
        visit.Ends 256 (({} : Machine).interpret c).1 := by
  have hfault : ((Chunk.empty.writeOpcode .ret 1).write 255 2).validationFault? =
      some ⟨1, 2, .decode (.unknownOpcode 255)⟩ := by decide
  have hagrees := validation_agrees_with_run {} ((Chunk.empty.writeOpcode .ret 1).write 255 2)
  rcases hagrees.2.2 _ hfault with hrun | ⟨visit, hlast, -, hbefore, hends⟩
  · have hreturned : Except.ok none = (({} : Machine).interpret
        ((Chunk.empty.writeOpcode .ret 1).write 255 2)).1 := rfl
    cases hreturned.trans hrun
  · exact ⟨_, hfault, visit, hlast, hbefore, hends⟩

end Machine

end StackBytecode
