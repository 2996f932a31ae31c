import StackBytecode.Proofs.Machine.Atomicity

/-!
# Runs under different limits

A greater limit on the stack changes a run only where the smaller one is exceeded. Up to
there the two runs do the same: an instruction that pops before it pushes finds room under
both limits, since the depth is within the smaller one before it, and a constant finds room
under the greater limit wherever it does under the smaller one. So the runs are the same, or
the one under the smaller limit overflows, and then the other fails no earlier.
-/

namespace StackBytecode.Machine

/-- A push that finds room under a limit does the same under a greater one. -/
theorem push_of_le {limit greater : Nat} (hle : limit ≤ greater) {stack : Stack} (v : Value)
    (h : stack.depth < limit) : push greater stack v = push limit stack v := by
  rw [push_of_lt v h, push_of_lt v (h.trans_le hle)]

/-- On a stack within a limit, an instruction does the same under a greater one, or it overflows. -/
theorem step_of_le {limit greater : Nat} (hle : limit ≤ greater) (pool : Buffer Value) {stack : Stack}
    (hdepth : stack.depth ≤ limit) (i : Instruction) :
    step greater pool stack i = step limit pool stack i ∨
      step limit pool stack i = .stop (.error (.stackOverflow limit)) stack := by
  cases i with
  | constant index =>
    rw [step, step]
    cases hv : pool.get? index.toNat with
    | none => exact .inl rfl
    | some v =>
      by_cases hroom : stack.depth < limit
      · exact .inl (push_of_le hle v hroom)
      · exact .inr (if_neg hroom)
  | ret => exact .inl rfl
  | arith f =>
    left
    rw [step, step]
    cases hpop : stack.popTwo? with
    | none => rfl
    | some popped =>
      obtain ⟨b, a, rest⟩ := popped
      have hpopped := Stack.depth_of_popTwo? hpop
      exact push_of_le hle _ (by omega)
  | negate =>
    left
    rw [step, step]
    cases hpop : stack.pop? with
    | none => rfl
    | some popped =>
      obtain ⟨a, rest⟩ := popped
      have hpopped := Stack.depth_of_pop? hpop
      exact push_of_le hle _ (by omega)

/-- A run fails at the offset of something it runs on. -/
theorem exists_offset_of_run_eq_error {limit : Nat} {pool : Buffer Value} {stack : Stack}
    {found : List Decoding.Found} {fault : RuntimeFault} (hdepth : stack.depth ≤ limit)
    (h : (run limit pool stack found).result = .error fault) :
    ∃ last ∈ found, fault.offset = Decoding.offsetOf last := by
  obtain ⟨before, last, after, rfl, -, -, hfails⟩ := run_eq_error hdepth h
  exact ⟨last, List.mem_append_right _ (List.mem_cons_self ..), hfails.offset_eq⟩

/-- From a stack within a limit, a run is the same under a greater one, or it overflows under the
smaller limit and fails no earlier under the greater one. -/
theorem run_of_le {limit greater : Nat} (hle : limit ≤ greater) (pool : Buffer Value) {stack : Stack}
    {found : List Decoding.Found} (hdepth : stack.depth ≤ limit)
    (hoffsets : found.Pairwise fun a b => Decoding.offsetOf a < Decoding.offsetOf b) :
    run greater pool stack found = run limit pool stack found ∨
      ∃ fault, (run limit pool stack found).result = .error fault ∧
        fault.item = .stackOverflow limit ∧
        ∀ later, (run greater pool stack found).result = .error later → fault.offset ≤ later.offset := by
  induction found generalizing stack with
  | nil => exact .inl rfl
  | cons head rest ih =>
    cases head with
    | error fault => exact .inl rfl
    | ok head =>
      obtain ⟨hhead, hrest⟩ := List.pairwise_cons.mp hoffsets
      rcases step_of_le hle pool hdepth head.item with hsame | hover
      · have hacts := acts_step pool hdepth head.item
        rw [run, run, hsame]
        cases hstep : step limit pool stack head.item with
        | stop result left => exact .inl rfl
        | next stack' =>
          rw [hstep] at hacts
          rcases ih (hacts.depth_le hdepth) hrest with hrun | hfault
          · left
            simp only [hrun]
          · exact .inr hfault
      · right
        refine ⟨head.map fun _ => .stackOverflow limit, ?_, rfl, fun later hlater => ?_⟩
        · rw [run, hover]
          rfl
        · -- whatever the other run fails at is this instruction or stands behind it
          obtain ⟨last, hlast, hoffset⟩ := exists_offset_of_run_eq_error (hdepth.trans hle) hlater
          rw [hoffset]
          rcases List.mem_cons.mp hlast with rfl | hlast
          · exact Nat.le_refl _
          · exact (hhead last hlast).le

/-- The limit that an overflow of a run names is the one of the machine. -/
theorem max_eq_of_stackOverflow {config : Config} {c : Chunk} {fault : RuntimeFault} {max : Nat}
    (h : (runOf config c).result = .error fault) (hitem : fault.item = .stackOverflow max) :
    max = config.stackMax := by
  obtain ⟨before, last, after, -, -, -, hfails⟩ := run_eq_error (Nat.zero_le _) h
  cases hfails with
  | decodes => cases hitem
  | dangles => cases hitem
  | overflows => exact (RuntimeCause.stackOverflow.inj hitem).symm
  | underflows => cases hitem

/-- Runs are monotone in the limit on the stack. If a machine does not overflow on a chunk, one with
the same limit or a greater one has the same result and leaves the same stack. If the machine with
the greater limit overflows, the other one does so too, at the same offset or before. -/
theorem interpret_monotone_in_limit (m n : Machine) (c : Chunk)
    (hle : m.config.stackMax ≤ n.config.stackMax) :
    ((∀ fault max, (m.interpret c).1 = .error fault → fault.item ≠ .stackOverflow max) →
      (n.interpret c).1 = (m.interpret c).1 ∧ (n.interpret c).2.stack = (m.interpret c).2.stack) ∧
    ∀ fault max, (n.interpret c).1 = .error fault → fault.item = .stackOverflow max →
      ∃ earlier, (m.interpret c).1 = .error earlier ∧
        earlier.item = .stackOverflow m.config.stackMax ∧ earlier.offset ≤ fault.offset := by
  have hempty : Stack.empty.depth ≤ m.config.stackMax := Nat.zero_le _
  have hruns := run_of_le hle c.pool hempty c.iterates_decode.pairwise
  constructor
  · intro hfits
    rcases hruns with hrun | ⟨fault, hfault, hitem, -⟩
    · exact ⟨congrArg Run.result hrun, congrArg Run.stack hrun⟩
    · exact absurd hitem (hfits fault _ hfault)
  · intro fault max hfault hitem
    rcases hruns with hrun | ⟨earlier, hearlier, hitem', hbefore⟩
    · have hsame : (runOf m.config c).result = .error fault := by
        rw [← hfault]
        exact (congrArg Run.result hrun).symm
      rw [max_eq_of_stackOverflow hsame hitem] at hitem
      exact ⟨fault, hsame, hitem, Nat.le_refl _⟩
    · exact ⟨earlier, hearlier, hitem', hbefore fault hfault⟩

/-- Three constants overflow at the third with room for two values, and so do not come further with
room for one. Two constants, an addition and a subtraction underflow with room for two values, and
so they do with room for three. -/
theorem interpret_monotone_in_limit_constants :
    ∃ c d : Chunk,
      (({ config := { stackMax := 2 } } : Machine).interpret c).1 = .error ⟨4, 1, .stackOverflow 2⟩ ∧
      (∃ earlier, (({ config := { stackMax := 1 } } : Machine).interpret c).1 = .error earlier ∧
        earlier.item = .stackOverflow 1 ∧ earlier.offset ≤ 4) ∧
      (({ config := { stackMax := 3 } } : Machine).interpret d).1 =
        .error ⟨5, 1, .stackUnderflow (.arith .subtract)⟩ := by
  let push (c : Chunk) : Chunk := (c.writeOpcode .constant 1).write 0 1
  let c := push (push (push (Chunk.empty.addConstant (.ofNat 7))))
  let d := ((push (push (Chunk.empty.addConstant (.ofNat 7)))).writeOpcode (.arith .add) 1).writeOpcode
    (.arith .subtract) 1
  have hover : (({ config := { stackMax := 2 } } : Machine).interpret c).1 =
      .error ⟨4, 1, .stackOverflow 2⟩ := rfl
  have hunder : (({ config := { stackMax := 2 } } : Machine).interpret d).1 =
      .error ⟨5, 1, .stackUnderflow (.arith .subtract)⟩ := rfl
  have hless := interpret_monotone_in_limit { config := { stackMax := 1 } }
    { config := { stackMax := 2 } } c (by decide)
  have hmore := interpret_monotone_in_limit { config := { stackMax := 2 } }
    { config := { stackMax := 3 } } d (by decide)
  refine ⟨c, d, hover, hless.2 _ _ hover rfl, ?_⟩
  rw [← hunder]
  refine (hmore.1 fun fault max hfault hitem => ?_).1
  obtain rfl := Except.error.inj (hunder.symm.trans hfault)
  cases hitem

end StackBytecode.Machine
