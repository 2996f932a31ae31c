import StackBytecode.Proofs.Machine.Agreement
import StackBytecode.SumProgram

/-!
# Summing programs run as sums

A summing program is laid out term by term: the constant of the term and, but for the first one,
an addition. Pool and operand count the terms up to the size of a byte, so the constant that a
term finds is its number modulo that size, whether the pool has stopped growing or not.

Two invariants carry this. The builder appends the instructions of one term after the other and
leaves the pool as it is. The machine comes to each term with nothing but the sum of the terms
before it on its stack, and with nothing at all to the first; a term and the sum are the two
values that it ever holds.
-/

namespace StackBytecode.SumProgram

open Decoding (encode encode_cons place)
open Machine (run runOf step)

/-- The number that a term adds. -/
def termValue (term : Nat) : Value := Value.ofNat (term % 256)

/-- The numbers that so many terms add, in order. -/
def values (terms : Nat) : List Value := (List.range terms).map termValue

/-- The sum of numbers, added from left to right; without numbers there is none. -/
def sum? : List Value → Option Value
  | [] => none
  | v :: rest => some (rest.foldl Value.add v)

/-- One more number is added to the sum of those before it, if there are any. -/
theorem sum?_concat (before : List Value) (v : Value) :
    sum? (before ++ [v]) = some ((sum? before).elim v (·.add v)) := by
  cases before with
  | nil => rfl
  | cons first rest => rw [List.cons_append, sum?, List.foldl_append, sum?, Option.elim_some]; rfl

theorem values_succ (terms : Nat) : values (terms + 1) = values terms ++ [termValue terms] := by
  rw [values, List.range_succ, List.map_append]
  rfl

/-- There is a sum from the first term on. -/
theorem sum?_values_succ (terms : Nat) :
    sum? (values (terms + 1)) = some ((sum? (values terms)).elim (termValue terms) (·.add (termValue terms))) := by
  rw [values_succ, sum?_concat]

/-! ## The builder -/

/-- The instructions of a term: its constant, and an addition unless it is the first. -/
def termProgram (term : Nat) : List (UInt32 × Instruction) :=
  (termLine term, .constant (UInt8.ofNat (term % 256))) ::
    if term = 0 then [] else [(termLine term, .arith .add)]

/-- The line of the instruction that returns the sum. -/
def lastLine : UInt32 := UInt32.ofNat (UInt32.size - 1)

/-- The instructions of so many terms from one on, and the return behind them. -/
def programFrom (term count : Nat) : List (UInt32 × Instruction) :=
  (List.range' term count).flatMap termProgram ++ [(lastLine, .ret)]

/-- Cells of instructions laid out in two groups are those of one group after the other. -/
theorem encode_append (first second : List (UInt32 × Instruction)) :
    encode (first ++ second) = encode first ++ encode second := List.flatMap_append

/-- Writing a term appends the cells of its instructions and leaves the pool. -/
theorem writeTerm_eq (c : Chunk) (term : Nat) :
    (writeTerm c term).cells.toList = c.cells.toList ++ encode (termProgram term) ∧
      (writeTerm c term).pool = c.pool := by
  unfold writeTerm termProgram
  by_cases hfirst : term = 0
  · simp only [if_pos hfirst]
    refine ⟨?_, rfl⟩
    simp [Chunk.writeOpcode, Chunk.write]
    rfl
  · simp only [if_neg hfirst]
    refine ⟨?_, rfl⟩
    simp [Chunk.writeOpcode, Chunk.write]
    rfl

/-- Writing terms appends the cells of their instructions and leaves the pool. -/
theorem foldl_writeTerm (c : Chunk) (terms : List Nat) :
    (terms.foldl writeTerm c).cells.toList = c.cells.toList ++ encode (terms.flatMap termProgram) ∧
      (terms.foldl writeTerm c).pool = c.pool := by
  induction terms generalizing c with
  | nil => simp
  | cons term rest ih =>
    obtain ⟨hcells, hpool⟩ := writeTerm_eq c term
    obtain ⟨hrest, hkept⟩ := ih (writeTerm c term)
    refine ⟨?_, hkept.trans hpool⟩
    rw [List.foldl_cons, hrest, hcells, List.flatMap_cons, encode_append, List.append_assoc]

/-- Adding constants appends them to the pool and leaves the cells. -/
theorem foldl_addConstant (c : Chunk) (numbers : List Nat) :
    (numbers.foldl (fun c n => c.addConstant (Value.ofNat n)) c).cells = c.cells ∧
      (numbers.foldl (fun c n => c.addConstant (Value.ofNat n)) c).pool.toList =
        c.pool.toList ++ numbers.map Value.ofNat := by
  induction numbers generalizing c with
  | nil => simp
  | cons n rest ih =>
    obtain ⟨hcells, hpool⟩ := ih (c.addConstant (Value.ofNat n))
    refine ⟨hcells, ?_⟩
    rw [List.foldl_cons, hpool]
    simp [Chunk.addConstant]

/-- A summing program holds the cells of its terms and of the return. -/
theorem cells_chunk (terms : Nat) : (chunk terms).cells.toList = encode (programFrom 0 terms) := by
  rw [chunk, Chunk.writeOpcode, Chunk.write, Buffer.toList_push, (foldl_writeTerm _ _).1, constants,
    (foldl_addConstant _ _).1, programFrom, encode_append, List.range_eq_range']
  rfl

/-- Its pool holds the numbers from zero on, one for each term that is no repetition. -/
theorem pool_chunk (terms : Nat) :
    (chunk terms).pool.toList = (List.range (min terms 256)).map Value.ofNat := by
  rw [chunk, Chunk.writeOpcode, Chunk.write, (foldl_writeTerm _ _).2, constants,
    (foldl_addConstant _ _).2]
  rfl

theorem poolSize_chunk (terms : Nat) : (chunk terms).poolSize = min terms 256 := by
  rw [Chunk.poolSize, ← Buffer.length_toList, pool_chunk, List.length_map, List.length_range]

/-- Each term finds its number under its operand. -/
theorem get?_pool_chunk {terms term : Nat} (h : term < terms) :
    (chunk terms).pool.get? (UInt8.ofNat (term % 256)).toNat = some (termValue term) := by
  have hindex : term % 256 < 256 := Nat.mod_lt _ (by decide)
  have hle : term % 256 ≤ term := Nat.mod_le _ _
  rw [UInt8.toNat_ofNat_of_lt' hindex, Buffer.get?_eq, pool_chunk, List.getElem?_map,
    List.getElem?_range (by omega)]
  rfl

/-! ## The machine -/

/-- The stack between two terms: the sum so far, if there is one. -/
def holding (sum : Option Value) : Stack := sum.elim .empty Stack.empty.push

/-- A run returns, leaves nothing and never holds a third value. -/
structure Returns (result : Option Value) (run : Machine.Run) : Prop where
  result_eq : run.result = .ok result
  stack_eq : run.stack = .empty
  depth_le : ∀ visit ∈ run.visits, visit.stack.depth ≤ 2

/-- An instruction that goes on before such a run, on two values at most, makes another. -/
theorem Returns.cons {limit : Nat} {pool : Buffer Value} {stack stack' : Stack} {result : Option Value}
    {found : Placed Instruction} {rest : List Decoding.Found}
    (h : Returns result (run limit pool stack' rest)) (hdepth : stack.depth ≤ 2)
    (hstep : step limit pool stack found.item = .next stack') :
    Returns result (run limit pool stack (.ok found :: rest)) := by
  rw [run, hstep]
  exact ⟨h.result_eq, h.stack_eq, List.forall_mem_cons.mpr ⟨hdepth, h.depth_le⟩⟩

/-- A constant that is in the pool is pushed where there is room. -/
theorem step_constant {limit : Nat} {pool : Buffer Value} {stack : Stack} {index : UInt8} {v : Value}
    (hv : pool.get? index.toNat = some v) (hroom : stack.depth < limit) :
    step limit pool stack (.constant index) = .next (stack.push v) := by
  rw [step, hv]
  exact Machine.push_of_lt v hroom

/-- The machine comes from the sum before a term to the sum with that term. -/
theorem Returns.term {limit : Nat} {pool : Buffer Value} (hlimit : 2 ≤ limit) {term : Nat}
    (hv : pool.get? (UInt8.ofNat (term % 256)).toNat = some (termValue term))
    {result : Option Value} {program : List (UInt32 × Instruction)}
    (h : ∀ offset, Returns result
      (run limit pool (holding (sum? (values (term + 1)))) ((place offset program).map .ok)))
    (offset : Nat) :
    Returns result
      (run limit pool (holding (sum? (values term))) ((place offset (termProgram term ++ program)).map .ok)) := by
  cases term with
  | zero =>
    have hroom : Stack.empty.depth < limit := Nat.lt_of_lt_of_le Nat.zero_lt_two hlimit
    exact (h _).cons (Nat.zero_le 2) (step_constant hv hroom)
  | succ term =>
    rw [sum?_values_succ (term + 1), sum?_values_succ term] at h
    rw [sum?_values_succ term]
    generalize (sum? (values term)).elim (termValue term) (·.add (termValue term)) = sum at h ⊢
    have hroom : Stack.empty.depth < limit := Nat.lt_of_lt_of_le Nat.zero_lt_two hlimit
    have hadd : step limit pool ((Stack.empty.push sum).push (termValue (term + 1))) (.arith .add) =
        .next (Stack.empty.push (sum.add (termValue (term + 1)))) := Machine.push_of_lt _ hroom
    exact ((h _).cons (Nat.le_refl 2) hadd).cons (Nat.le_succ 1) (step_constant hv hlimit)

/-- The return behind the last term ends the run with the sum that is left. -/
theorem returns_ret (limit : Nat) (pool : Buffer Value) (offset : Nat) (line : UInt32) (sum : Option Value) :
    Returns sum (run limit pool (holding sum) ((place offset [(line, .ret)]).map .ok)) := by
  cases sum with
  | none => exact ⟨rfl, rfl, List.forall_mem_singleton.mpr (Nat.zero_le 2)⟩
  | some sum => exact ⟨rfl, rfl, List.forall_mem_singleton.mpr (Nat.le_succ 1)⟩

/-- With room for two values a run of terms from one on returns the sum of all terms. -/
theorem returns_programFrom {limit : Nat} {pool : Buffer Value} (hlimit : 2 ≤ limit) {term count : Nat}
    (hpool : ∀ t, t < term + count → pool.get? (UInt8.ofNat (t % 256)).toNat = some (termValue t))
    (offset : Nat) :
    Returns (sum? (values (term + count)))
      (run limit pool (holding (sum? (values term))) ((place offset (programFrom term count)).map .ok)) := by
  induction count generalizing term offset with
  | zero => exact returns_ret limit pool offset lastLine _
  | succ count ih => 
    have hterm : term + (count + 1) = term + 1 + count := by omega
    rw [hterm] at hpool ⊢
    rw [programFrom, List.range'_succ, List.flatMap_cons, List.append_assoc]
    exact Returns.term hlimit (hpool term (by omega)) (ih hpool) offset

/-- A summing program returns the sum of its terms on every machine with room for two values. -/
theorem returns_chunk {config : Machine.Config} (h : 2 ≤ config.stackMax) (terms : Nat) :
    Returns (sum? (values terms)) (runOf config (chunk terms)) := by
  rw [runOf, Chunk.decode_of_encode (cells_chunk terms)]
  have hpool (t : Nat) (ht : t < 0 + terms) :
      (chunk terms).pool.get? (UInt8.ofNat (t % 256)).toNat = some (termValue t) :=
    get?_pool_chunk (by omega)
  have hrun := returns_programFrom h hpool 0
  rwa [Nat.zero_add] at hrun

/-! ## The layout -/

/-- A term takes three bytes, the first one two. -/
theorem length_encode_termProgram (term : Nat) :
    (encode (termProgram term)).length = if term = 0 then 2 else 3 := by
  cases term <;> rfl

/-- Terms take three bytes each, less one for the addition that the first does without. -/
theorem length_encode_terms (terms : Nat) :
    (encode ((List.range terms).flatMap termProgram)).length = 3 * terms - 1 := by
  induction terms with
  | zero => rfl
  | succ terms ih =>
    rw [List.range_succ, List.flatMap_append, encode_append, List.length_append, ih,
      List.flatMap_singleton, length_encode_termProgram]
    split <;> omega

/-- A summing program takes three bytes for each term; without terms it only returns. -/
theorem size_chunk (terms : Nat) : (chunk terms).size = if terms = 0 then 1 else 3 * terms := by
  have hlast : (encode [(lastLine, .ret)]).length = 1 := rfl
  rw [Chunk.size, ← Buffer.length_toList, cells_chunk, programFrom, encode_append, List.length_append,
    ← List.range_eq_range', length_encode_terms, hlast]
  split <;> omega

/-- Later terms have no smaller lines. -/
theorem termLine_mono {first second : Nat} (h : first ≤ second) : termLine first ≤ termLine second := by
  have hsize : UInt32.size - 1 < UInt32.size := by decide
  rw [UInt32.le_iff_toNat_le, termLine, termLine, UInt32.toNat_ofNat_of_lt' (by omega),
    UInt32.toNat_ofNat_of_lt' (by omega)]
  omega

theorem le_lastLine (line : UInt32) : line ≤ lastLine := by
  rw [UInt32.le_iff_toNat_le]
  exact Nat.le_sub_one_of_lt line.toNat_lt_size

/-- The instructions of a term are on the line of the term. -/
theorem line_of_mem_termProgram {term : Nat} {entry : UInt32 × Instruction}
    (h : entry ∈ termProgram term) : entry.1 = termLine term := by
  cases term with
  | zero => rw [List.mem_singleton.mp h]
  | succ term =>
    rcases List.mem_cons.mp h with rfl | h
    · rfl
    · rw [List.mem_singleton.mp h]

/-- The lines of a summing program never decrease from one instruction to the next. -/
theorem pairwise_programFrom (terms : Nat) :
    (programFrom 0 terms).Pairwise fun a b => a.1 ≤ b.1 := by
  rw [programFrom, List.pairwise_append, List.pairwise_flatMap, ← List.range_eq_range']
  refine ⟨⟨fun term _ => ?_, ?_⟩, List.pairwise_singleton _ _, ?_⟩
  · refine List.Pairwise.imp_of_mem (fun ha hb _ => ?_) (List.pairwise_of_forall fun _ _ => trivial)
    rw [line_of_mem_termProgram ha, line_of_mem_termProgram hb]
    exact UInt32.le_refl _
  · refine List.pairwise_le_range.imp fun hle a ha b hb => ?_
    rw [line_of_mem_termProgram ha, line_of_mem_termProgram hb]
    exact termLine_mono hle
  · intro a _ b hb
    rw [List.mem_singleton.mp hb]
    exact le_lastLine a.1

/-- Cells have the lines of the instructions that they are laid out from. -/
theorem pairwise_line_encode {program : List (UInt32 × Instruction)}
    (h : program.Pairwise fun a b => a.1 ≤ b.1) : ((encode program).map Cell.line).Pairwise (· ≤ ·) := by
  rw [List.pairwise_map, encode, List.pairwise_flatMap]
  have hline {line : UInt32} {i : Instruction} {cell : Cell} (hcell : cell ∈ i.cells line) :
      cell.line = line := by
    obtain ⟨byte, -, rfl⟩ := List.mem_map.mp hcell
    rfl
  refine ⟨fun entry _ => ?_, h.imp fun hle a ha b hb => ?_⟩
  · exact List.Pairwise.imp_of_mem (fun ha hb _ => by rw [hline ha, hline hb]; exact UInt32.le_refl _)
      (List.pairwise_of_forall fun _ _ => trivial)
  · rw [hline ha, hline hb]
    exact hle

/-- The line table of a summing program never decreases. -/
theorem pairwise_lines_chunk (terms : Nat) : (chunk terms).lines.Pairwise (· ≤ ·) := by
  rw [Chunk.lines, cells_chunk]
  exact pairwise_line_encode (pairwise_programFrom terms)

/-- Every operand of a summing program is the index of a constant. -/
theorem operand_lt_poolSize {terms : Nat} {line : UInt32} {index : UInt8}
    (h : (line, .constant index) ∈ programFrom 0 terms) : index.toNat < (chunk terms).poolSize := by
  rcases List.mem_append.mp h with h | h
  · obtain ⟨term, hterm, h⟩ := List.mem_flatMap.mp h
    have hlt : term < terms := by simpa using (List.mem_range'_1.mp hterm).2
    have hindex : index = UInt8.ofNat (term % 256) := by
      cases term with
      | zero => exact And.right (by simpa [termProgram] using h)
      | succ term => exact And.right (by simpa [termProgram] using h)
    rw [hindex]
    exact Buffer.lt_size_of_get?_eq_some (get?_pool_chunk hlt)
  · simp at h

/-- A summing program of any size is valid, has a constant for each term up to 256 of them, three
bytes for each term, or one without terms, and lines that never decrease. Every machine with room
for two values runs it without a fault, whatever it ran before: it returns the numbers of the
terms modulo 256, added from left to right, and nothing without terms; the stack is
empty at the end and holds two values at most before every instruction. -/
theorem sum_program_of_any_size (terms : Nat) :
    (chunk terms).validationFault? = none ∧
      (chunk terms).constants.length = min terms 256 ∧
      (chunk terms).code.length = (if terms = 0 then 1 else 3 * terms) ∧
      (chunk terms).lines.Pairwise (· ≤ ·) ∧
      ∀ m : Machine, 2 ≤ m.config.stackMax →
        (m.interpret (chunk terms)).1 =
            .ok (sum? ((List.range terms).map fun term => Value.ofNat (term % 256))) ∧
          (m.interpret (chunk terms)).2.stack = .empty ∧
          ∀ visit ∈ (runOf m.config (chunk terms)).visits, visit.stack.depth ≤ 2 := by
  refine ⟨?_, ?_, ?_, pairwise_lines_chunk terms, fun m hroom => ?_⟩
  · exact Chunk.validationFault?_of_encode (cells_chunk terms) fun _ _ => operand_lt_poolSize
  · rw [Chunk.constants, Buffer.length_toList]
    exact poolSize_chunk terms
  · rw [Chunk.length_code, size_chunk]
  · have hreturns := returns_chunk hroom terms
    exact ⟨hreturns.result_eq, hreturns.stack_eq, hreturns.depth_le⟩

/-- Four terms sum to six with room for two values; 258 terms share 256 constants. -/
theorem sum_program_of_four_terms :
    2 ≤ (⟨⟨2, false⟩, .empty⟩ : Machine).config.stackMax ∧
      ((⟨⟨2, false⟩, .empty⟩ : Machine).interpret (chunk 4)).1 = .ok (some (Value.ofNat 6)) ∧
      (chunk 258).constants.length = 256 ∧ (chunk 258).code.length = 774 := by
  have hsum : sum? ((List.range 4).map fun term => Value.ofNat (term % 256)) =
      some (Value.ofNat 6) := by decide +kernel
  have hrun := (sum_program_of_any_size 4).2.2.2.2 ⟨⟨2, false⟩, .empty⟩ (Nat.le_refl 2)
  obtain ⟨-, hconstants, hcode, -⟩ := sum_program_of_any_size 258
  exact ⟨Nat.le_refl 2, hrun.1.trans (congrArg Except.ok hsum), hconstants, hcode⟩

end StackBytecode.SumProgram
