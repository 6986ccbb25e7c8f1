import GraphAccelerator.Accelerator.Pe

/-!
# Buffers and bursts

A buffer of values is copied into the data of a burst and back by their bytes.  What a
write burst stores, read bursts of the same range return, however the range is split
into them.  `none` stands for an access outside a vector, an empty buffer, or the exit of
the source on a burst that is not a whole number of values.
-/

namespace GraphAccelerator.Memory

open CheckedLoop

/-- A type whose values are copied as `sizeof` bytes. -/
structure Layout (Value : Type) where
  sizeof : Nat
  positive : 0 < sizeof
  toBytes : Value → List Byte
  ofBytes : List Byte → Value
  length_toBytes : ∀ value, (toBytes value).length = sizeof
  ofBytes_toBytes : ∀ value, ofBytes (toBytes value) = value

def Layout.char : Layout Byte where
  sizeof := 1
  positive := Nat.one_pos
  toBytes byte := [byte]
  ofBytes bytes := bytes.headD 0
  length_toBytes _ := rfl
  ofBytes_toBytes _ := rfl

def Layout.int : Layout (BitVec 32) where
  sizeof := 4
  positive := by decide
  toBytes word := intBytes word.toInt
  ofBytes
    | [b0, b1, b2, b3] => b3 ++ b2 ++ b1 ++ b0
    | _ => 0
  length_toBytes _ := rfl
  ofBytes_toBytes word := by
    simp only [intBytes, BitVec.ofInt_toInt, word_of_bytes]

variable {Value : Type} (layout : Layout Value)

namespace BurstOp

/-- The inner loop of `burstReqToBuffer`: the bytes of one value, and the index behind
them. -/
def readValue (op : BurstOp) (i : Nat) : Option (List Byte × Nat) :=
  (List.range layout.sizeof).foldlM (fun (p, i) _ => do
    let byte ← op.data[i]?
    return (p ++ [byte], i + 1)) ([], i)

def burstReqToBuffer (op : BurstOp) (buffer : List Value) : Option (List Value) := do
  if op.length % layout.sizeof ≠ 0 then none
  else
    let (_, buffer) ← whileDo (fun (i, _) => i < op.length)
      (fun (i, buffer) => do
        let (p, i) ← op.readValue layout i
        return (i, buffer ++ [layout.ofBytes p]))
      (op.length + 1) (0, buffer)
    return buffer

def pushValue (p : List Byte) (data : List Byte) : Option (List Byte) :=
  (List.range layout.sizeof).foldlM (fun data j => do return data ++ [← p[j]?]) data

def moveValue (state : BurstOp × List Value) : Option (BurstOp × List Value) :=
  match state with
  | (_, []) => none
  | (op, value :: buffer) => do
      let data ← pushValue layout (layout.toBytes value) op.data
      return ({ op with data }, buffer)

def bufferToBurstReq (op : BurstOp) (buffer : List Value) : Option (BurstOp × List Value) :=
  (List.range (op.length / layout.sizeof)).foldlM (fun state _ => moveValue layout state)
    (op, buffer)

end BurstOp

variable {layout}

/-! ### The bytes of a list of values -/

theorem flatMap_toBytes_length (values : List Value) :
    (values.flatMap layout.toBytes).length = values.length * layout.sizeof := by
  induction values with
  | nil => simp
  | cons value values inductionHypothesis =>
      rw [List.flatMap_cons, List.length_append, inductionHypothesis, layout.length_toBytes,
        List.length_cons, Nat.succ_mul, Nat.add_comm]

def BytesAt (ramData : List Byte) (addr : Nat) (bytes : List Byte) : Prop :=
  ∀ i, i < bytes.length → ramData[addr + i]? = bytes[i]?

theorem BytesAt.append {ramData left right : List Byte} {addr : Nat} :
    BytesAt ramData addr (left ++ right) ↔
      BytesAt ramData addr left ∧ BytesAt ramData (addr + left.length) right := by
  constructor
  · intro stored
    constructor
    · intro i bound
      rw [stored i (by rw [List.length_append]; omega), List.getElem?_append_left bound]
    · intro i bound
      rw [Nat.add_assoc, stored (left.length + i) (by rw [List.length_append]; omega),
        List.getElem?_append_right (Nat.le_add_right ..), Nat.add_sub_cancel_left]
  · rintro ⟨first, second⟩ i bound
    rw [List.length_append] at bound
    by_cases inLeft : i < left.length
    · rw [first i inLeft, List.getElem?_append_left inLeft]
    · rw [List.getElem?_append_right (by omega), ← second (i - left.length) (by omega)]
      congr 1
      omega

/-! ### The four loops -/

theorem range_split {count i : Nat} {done rest : List Nat}
    (split : List.range count = done ++ i :: rest) : i = done.length ∧ done.length < count := by
  have here := congrArg (·[done.length]?) split
  simp only [List.getElem?_append_right (Nat.le_refl _), Nat.sub_self, List.getElem?_cons_zero,
    List.getElem?_eq_some_iff, List.getElem_range, List.length_range] at here
  exact ⟨here.2.symm, here.1⟩

theorem pushValue_eq (value : Value) (data : List Byte) :
    BurstOp.pushValue layout (layout.toBytes value) data = some (data ++ layout.toBytes value) := by
  obtain ⟨final, ran, pushed⟩ := foldlM_total
    (fun (data : List Byte) j => do return data ++ [← (layout.toBytes value)[j]?])
    (fun done state => state = data ++ (layout.toBytes value).take done.length)
    (List.range layout.sizeof) data (by simp) (by
      rintro done j rest state split rfl
      obtain ⟨rfl, bound⟩ := range_split split
      rw [← layout.length_toBytes value] at bound
      refine ⟨_, by rw [List.getElem?_eq_getElem bound]; rfl, ?_⟩
      rw [List.length_append, List.length_singleton, List.append_assoc, List.take_add_one,
        List.getElem?_eq_getElem bound]
      rfl)
  rw [BurstOp.pushValue, ran, pushed, List.length_range, ← layout.length_toBytes value,
    List.take_length]

theorem bufferToBurstReq_eq {op : BurstOp} {values : List Value}
    (length : op.length = values.length * layout.sizeof) (rest : List Value) :
    op.bufferToBurstReq layout (values ++ rest) =
      some ({ op with data := op.data ++ values.flatMap layout.toBytes }, rest) := by
  have moved : ∀ (values : List Value) (rounds : List Nat), rounds.length = values.length →
      ∀ op : BurstOp, rounds.foldlM (fun state _ => BurstOp.moveValue layout state)
          (op, values ++ rest) =
        some ({ op with data := op.data ++ values.flatMap layout.toBytes }, rest) := by
    intro values
    induction values with
    | nil =>
        intro rounds none op
        obtain rfl := List.length_eq_zero_iff.mp none
        simp
    | cons value values inductionHypothesis =>
        intro rounds count op
        cases rounds with
        | nil => simp at count
        | cons round rounds =>
            have first : BurstOp.moveValue layout (op, value :: values ++ rest) =
                some ({ op with data := op.data ++ layout.toBytes value }, values ++ rest) := by
              simp only [List.cons_append, BurstOp.moveValue, pushValue_eq]
              rfl
            rw [List.foldlM_cons, first, Option.bind_eq_bind, Option.bind_some,
              inductionHypothesis rounds (by simpa using count), List.flatMap_cons,
              ← List.append_assoc]
  exact moved values _ (by
    rw [List.length_range, length, Nat.mul_div_cancel _ layout.positive]) op

theorem reqToRam_total {op : BurstOp} {ramData : List Byte} (length : op.data.length = op.length)
    (inside : op.addr + op.length ≤ ramData.length) :
    ∃ written, op.reqToRam ramData = some written ∧ written.length = ramData.length ∧
      BytesAt written op.addr op.data ∧
      ∀ addr, addr < op.addr ∨ op.addr + op.length ≤ addr → written[addr]? = ramData[addr]? := by
  obtain ⟨written, ran, size, stored, kept⟩ := foldlM_total
    (fun (ramData : List Byte) i => do
      let byte ← op.data[i]?
      let _ ← ramData[op.addr + i]?
      return ramData.set (op.addr + i) byte)
    (fun done written => written.length = ramData.length ∧
      (∀ i, i < done.length → written[op.addr + i]? = op.data[i]?) ∧
      ∀ addr, addr < op.addr ∨ op.addr + done.length ≤ addr → written[addr]? = ramData[addr]?)
    (List.range op.length) ramData (by simp) (by
      rintro done i rest written split ⟨size, stored, kept⟩
      obtain ⟨rfl, bound⟩ := range_split split
      have inData : done.length < op.data.length := length ▸ bound
      have inRam : op.addr + done.length < written.length := by omega
      refine ⟨written.set (op.addr + done.length) op.data[done.length], ?_, ?_, ?_, ?_⟩
      · simp [List.getElem?_eq_getElem inData, List.getElem?_eq_getElem inRam]
      · rw [List.length_set, size]
      · intro i within
        rw [List.length_append, List.length_singleton] at within
        rcases Nat.lt_succ_iff_lt_or_eq.mp within with before | rfl
        · rw [List.getElem?_set_ne (by omega), stored i before]
        · rw [List.getElem?_set_self inRam, List.getElem?_eq_getElem inData]
      · intro addr outside
        rw [List.length_append, List.length_singleton] at outside
        rw [List.getElem?_set_ne (by omega), kept addr (by omega)])
  rw [List.length_range] at stored kept
  exact ⟨written, ran, size, fun i bound => stored i (by omega), kept⟩

theorem ramToReq_total {op : BurstOp} {ramData bytes : List Byte} (length : bytes.length = op.length)
    (stored : BytesAt ramData op.addr bytes) :
    op.ramToReq ramData = some { op with data := op.data ++ bytes } := by
  have reads := mapM_eq_some_map (fun i => ramData[op.addr + i]?) (fun i => bytes.getD i 0)
    (List.range op.length) (by
      intro i membership
      have bound : i < bytes.length := length ▸ List.mem_range.mp membership
      rw [stored i bound]
      simp [bound])
  have same : (List.range op.length).map (fun i => bytes.getD i 0) = bytes := by
    apply List.ext_getElem
    · simp [length]
    · intro i _ bound
      simp [bound]
  rw [BurstOp.ramToReq, reads, same]
  rfl

theorem readValue_eq {op : BurstOp} {before after : List Byte} {value : Value}
    (data : op.data = before ++ layout.toBytes value ++ after) :
    op.readValue layout before.length =
      some (layout.toBytes value, before.length + layout.sizeof) := by
  obtain ⟨⟨p, i⟩, ran, bytes, index⟩ := foldlM_total
    (fun (state : List Byte × Nat) (_ : Nat) => do
      let byte ← op.data[state.2]?
      return (state.1 ++ [byte], state.2 + 1))
    (fun done state => state.1 = (layout.toBytes value).take done.length ∧
      state.2 = before.length + done.length)
    (List.range layout.sizeof) ([], before.length) (by simp) (by
      rintro done j rest ⟨p, i⟩ split ⟨rfl, rfl⟩
      have bound := (range_split split).2
      rw [← layout.length_toBytes value] at bound
      have read : op.data[before.length + done.length]? =
          some (layout.toBytes value)[done.length] := by
        rw [data, List.append_assoc, List.getElem?_append_right (Nat.le_add_right ..),
          Nat.add_sub_cancel_left, List.getElem?_append_left bound, List.getElem?_eq_getElem bound]
      refine ⟨_, by rw [read]; rfl, ?_, ?_⟩
      · rw [List.length_append, List.length_singleton, List.take_add_one,
          List.getElem?_eq_getElem bound]
        rfl
      · rw [List.length_append, List.length_singleton, Nat.add_assoc])
  rw [List.length_range] at bytes index
  rw [← layout.length_toBytes value, List.take_length] at bytes
  simp only at bytes index
  rw [bytes, index] at ran
  exact ran

theorem burstReqToBuffer_eq {op : BurstOp} {values : List Value} {after : List Byte}
    (length : op.length = values.length * layout.sizeof)
    (data : op.data = values.flatMap layout.toBytes ++ after) (buffer : List Value) :
    op.burstReqToBuffer layout buffer = some (buffer ++ values) := by
  obtain ⟨⟨i, final⟩, ran, stopped, holds⟩ := whileDo_total
    (fun (state : Nat × List Value) => decide (state.1 < op.length))
    (fun state => do
      let (p, i) ← op.readValue layout state.1
      return (i, state.2 ++ [layout.ofBytes p]))
    (fun index state => state.1 = index * layout.sizeof ∧ index ≤ values.length ∧
      state.2 = buffer ++ values.take index)
    values.length (0, buffer) (by simp) (by
      rintro index ⟨i, filled⟩ ⟨rfl, within, rfl⟩ entered
      have entered : index * layout.sizeof < values.length * layout.sizeof := by
        rw [← length]
        simpa using entered
      have bound : index < values.length := Nat.lt_of_mul_lt_mul_right entered
      have split : op.data = (values.take index).flatMap layout.toBytes ++
          layout.toBytes values[index] ++
          ((values.drop (index + 1)).flatMap layout.toBytes ++ after) := by
        rw [data, ← List.append_assoc, List.append_assoc (_ ++ _), ← List.append_assoc,
          List.append_assoc (List.flatMap ..), ← List.flatMap_cons,
          ← List.drop_eq_getElem_cons bound, ← List.flatMap_append, List.take_append_drop]
      have read := readValue_eq split
      rw [flatMap_toBytes_length, List.length_take, Nat.min_eq_left within] at read
      refine ⟨bound, _, by rw [read]; rfl, by rw [Nat.succ_mul], bound, ?_⟩
      rw [layout.ofBytes_toBytes, List.append_assoc, List.take_add_one,
        List.getElem?_eq_getElem bound]
      rfl)
  obtain ⟨index, here, within, filled⟩ := holds
  have done : ¬ i < op.length := by simpa using stopped
  have all : index = values.length := by
    refine Nat.le_antisymm within (Nat.le_of_mul_le_mul_right ?_ layout.positive)
    rw [← here, ← length]
    omega
  have whole : op.length % layout.sizeof = 0 := by rw [length, Nat.mul_mod_left]
  have enough : values.length < op.length + 1 := by
    rw [length]
    have := Nat.le_mul_of_pos_right values.length layout.positive
    omega
  rw [BurstOp.burstReqToBuffer, if_neg (by rw [whole]; simp), ran _ enough]
  rw [all, List.take_length] at filled
  exact congrArg some filled

/-! ### Round trips -/

/-- Read bursts without data that follow each other from `addr` on. -/
inductive Consecutive (sizeof : Nat) : Nat → List BurstOp → Prop where
  | nil {addr : Nat} : Consecutive sizeof addr []
  | cons {op : BurstOp} {ops : List BurstOp} (fresh : op.data = [])
      (whole : sizeof ∣ op.length) (rest : Consecutive sizeof (op.addr + op.length) ops) :
      Consecutive sizeof op.addr (op :: ops)

/-- Consecutive reads of stored values have these values in their buffers, one after the
other. -/
theorem consecutive_reads {ramData : List Byte} {addr : Nat} {ops : List BurstOp}
    (consecutive : Consecutive layout.sizeof addr ops) {values : List Value}
    (covered : (ops.map (·.length)).sum = values.length * layout.sizeof)
    (stored : BytesAt ramData addr (values.flatMap layout.toBytes)) :
    ∃ buffers, ops.mapM (fun op => do (← op.ramToReq ramData).burstReqToBuffer layout []) =
      some buffers ∧ buffers.flatten = values := by
  induction consecutive generalizing values with
  | nil =>
      refine ⟨[], rfl, ?_⟩
      have empty : values.length = 0 := by
        rcases Nat.mul_eq_zero.mp covered.symm with empty | zero
        · exact empty
        · exact absurd layout.positive (by omega)
      rw [List.length_eq_zero_iff.mp empty, List.flatten_nil]
  | @cons op ops fresh whole rest inductionHypothesis =>
      obtain ⟨count, length⟩ := whole
      rw [Nat.mul_comm] at length
      rw [List.map_cons, List.sum_cons, length] at covered
      have within : count ≤ values.length :=
        Nat.le_of_mul_le_mul_right (by omega) layout.positive
      have size : (values.take count).length = count := List.length_take_of_le within
      rw [← List.take_append_drop count values, List.flatMap_append, BytesAt.append,
        flatMap_toBytes_length, size, ← length] at stored
      obtain ⟨buffers, ran, same⟩ := inductionHypothesis
        (by rw [List.length_drop, Nat.sub_mul]; omega) stored.2
      have read := ramToReq_total (by rw [flatMap_toBytes_length, size, length]) stored.1
      have copied := @burstReqToBuffer_eq _ layout
        { op with data := op.data ++ (values.take count).flatMap layout.toBytes }
        (values.take count) [] (by rw [size, length])
        (by rw [fresh, List.nil_append, List.append_nil]) []
      refine ⟨values.take count :: buffers, ?_, ?_⟩
      · rw [List.mapM_cons, ran, read]
        simp only [Option.bind_eq_bind, Option.bind_some, copied]
        rfl
      · rw [List.flatten_cons, same, List.take_append_drop]

/-- Values that are moved to a write burst, stored, and read back by a burst of the same
range, or by several that split it, are the values of the buffer; no other byte of the image
changes. -/
theorem burst_roundTrip (layout : Layout Value) (values rest buffer : List Value)
    (write read : BurstOp) (ramData : List Byte) (freshWrite : write.data = [])
    (freshRead : read.data = [])
    (length : write.length = values.length * layout.sizeof)
    (sameRange : read.addr = write.addr ∧ read.length = write.length)
    (inside : write.addr + values.length * layout.sizeof ≤ ramData.length) :
    ∃ filled written copied,
      write.bufferToBurstReq layout (values ++ rest) = some (filled, rest) ∧
      filled.reqToRam ramData = some written ∧ written.length = ramData.length ∧
      (∀ addr, addr < write.addr ∨ write.addr + values.length * layout.sizeof ≤ addr →
        written[addr]? = ramData[addr]?) ∧
      read.ramToReq written = some copied ∧
      copied.burstReqToBuffer layout buffer = some (buffer ++ values) ∧
      ∀ ops, Consecutive layout.sizeof write.addr ops →
        (ops.map (·.length)).sum = values.length * layout.sizeof →
        ∃ buffers, ops.mapM (fun op => do (← op.ramToReq written).burstReqToBuffer layout []) =
          some buffers ∧ buffers.flatten = values := by
  have moved := bufferToBurstReq_eq length rest
  rw [freshWrite, List.nil_append] at moved
  obtain ⟨written, ran, size, stored, kept⟩ := @reqToRam_total
    { write with data := values.flatMap layout.toBytes } ramData
    (by rw [flatMap_toBytes_length, length]) (by rw [length]; exact inside)
  have copied := @ramToReq_total read written (values.flatMap layout.toBytes)
    (by rw [flatMap_toBytes_length, sameRange.2, length]) (by rw [sameRange.1]; exact stored)
  rw [freshRead, List.nil_append] at copied
  refine ⟨_, written, _, moved, ran, size, length ▸ kept, copied, ?_, ?_⟩
  · exact @burstReqToBuffer_eq _ layout { read with data := values.flatMap layout.toBytes }
      values [] (sameRange.2.trans length) (List.append_nil _).symm buffer
  · exact fun ops consecutive covered => consecutive_reads consecutive covered stored

theorem burst_roundTrip_pair : ∃ filled written copied,
    (BurstOp.mk .write 7 0 0 3 8 [] [] 0 0 0 0 []).bufferToBurstReq Layout.int [1, 2, 3] =
      some (filled, [3]) ∧
    filled.reqToRam (List.replicate 12 0) = some written ∧
    (BurstOp.mk .read 0 1 0 3 8 [] [] 0 0 0 0 []).ramToReq written = some copied ∧
    copied.burstReqToBuffer Layout.int [] = some [1, 2] := by
  obtain ⟨filled, written, copied, moved, ran, _, _, read, buffered, _⟩ := burst_roundTrip
    Layout.int [1, 2] [3] [] (BurstOp.mk .write 7 0 0 3 8 [] [] 0 0 0 0 [])
    (BurstOp.mk .read 0 1 0 3 8 [] [] 0 0 0 0 []) (List.replicate 12 0) rfl rfl rfl ⟨rfl, rfl⟩
    (by decide)
  exact ⟨filled, written, copied, moved, ran, read, buffered⟩

/-! ### The buffers of the pipeline -/

theorem toBytes_eq {op : BurstOp} {bytes : List Byte} (reads : Pe.toBytes op = some bytes)
    (buffer : List Byte) :
    op.burstReqToBuffer Layout.char buffer = some (buffer ++ bytes) := by
  obtain ⟨same, length⟩ := @mapM_range_getElem? _ op.data bytes 0 op.length
    (by simpa [Pe.toBytes] using reads)
  refine @burstReqToBuffer_eq _ Layout.char op bytes (op.data.drop op.length) ?_ ?_ buffer
  · rw [length]
    exact (Nat.mul_one _).symm
  · have bytewise : bytes.flatMap Layout.char.toBytes = bytes := List.flatMap_singleton' bytes
    rw [bytewise, same, List.drop_zero, List.take_append_drop]

theorem int_toBytes (b0 b1 b2 b3 : Byte) :
    Layout.int.toBytes (b3 ++ b2 ++ b1 ++ b0 : BitVec 32) = [b0, b1, b2, b3] := by
  have bytes : Layout.int.toBytes (b3 ++ b2 ++ b1 ++ b0 : BitVec 32) =
      intBytes (b3 ++ b2 ++ b1 ++ b0 : BitVec 32).toInt := rfl
  rw [bytes, intBytes, BitVec.ofInt_toInt]
  simp only [List.cons.injEq, and_true]
  refine ⟨?_, ?_, ?_, ?_⟩ <;>
  · ext i bound
    simp only [BitVec.getElem_extractLsb', BitVec.getLsbD_append]
    grind

theorem toInts_words {bytes : List Byte} (whole : 4 ∣ bytes.length) :
    ∃ words : List (BitVec 32), bytes = words.flatMap Layout.int.toBytes ∧
      toInts bytes = words.map BitVec.toInt := by
  obtain ⟨count, length⟩ := whole
  induction count generalizing bytes with
  | zero =>
      obtain rfl := List.length_eq_zero_iff.mp length
      exact ⟨[], rfl, rfl⟩
  | succ count inductionHypothesis =>
      match bytes, length with
      | b0 :: b1 :: b2 :: b3 :: rest, length =>
          obtain ⟨words, same, ints⟩ := @inductionHypothesis rest (by simp at length; omega)
          refine ⟨(b3 ++ b2 ++ b1 ++ b0 : BitVec 32) :: words, ?_, ?_⟩
          · rw [List.flatMap_cons, ← same, int_toBytes]
            rfl
          · rw [toInts, ints, List.map_cons]

theorem toWords_eq {op : BurstOp} {ints : List Int} (reads : Pe.toWords op = some ints)
    (buffer : List (BitVec 32)) : ∃ words : List (BitVec 32), ints = words.map BitVec.toInt ∧
      op.burstReqToBuffer Layout.int buffer = some (buffer ++ words) := by
  rw [Pe.toWords] at reads
  split at reads
  · cases reads
  · rename_i whole
    obtain ⟨bytes, copied, rfl⟩ := Option.map_eq_some_iff.mp reads
    obtain ⟨same, length⟩ := @mapM_range_getElem? _ op.data bytes 0 op.length
      (by simpa [Pe.toBytes] using copied)
    obtain ⟨words, rfl, ints⟩ := toInts_words (Nat.dvd_of_mod_eq_zero
      (show bytes.length % 4 = 0 by rw [length]; omega))
    refine ⟨words, ints, @burstReqToBuffer_eq _ Layout.int op words (op.data.drop op.length) ?_ ?_
      buffer⟩
    · rw [← length, flatMap_toBytes_length]
    · rw [same, List.drop_zero, List.take_append_drop]

theorem fillBurst_eq {burstIdx : Nat} {pe : Pe} {op : BurstOp}
    (present : pe.bursts[burstIdx]? = some op) (single : op.length = 1) :
    pe.fillBurst burstIdx = (op.bufferToBurstReq Layout.char pe.depthBuffer2).map
      fun (op, rest) => { pe.setBurst burstIdx op with depthBuffer2 := rest } := by
  rw [Pe.fillBurst, present]
  cases buffer : pe.depthBuffer2 with
  | nil =>
      simp [BurstOp.bufferToBurstReq, single, Layout.char, BurstOp.moveValue, List.range_one]
  | cons byte rest =>
      rw [← List.singleton_append, @bufferToBurstReq_eq _ Layout.char op [byte] single rest]
      rfl

end GraphAccelerator.Memory
