import GraphAccelerator.Library.Radix
import GraphAccelerator.Dram.Channel
import GraphAccelerator.Dram.Ddr3

/-!
# The memory

`Memory<T, Controller>` slices an address into the indices of its levels, hands a request to
the controller of its channel, and ticks its controllers together.  Every address names one
place of the memory, and every place has one transaction below `maxAddress`.
-/

namespace GraphAccelerator.Dram

inductive Mapping where
  | chRaBaRoCo
  | roBaRaCoCh
  deriving DecidableEq, Repr

/-- The statistics of a memory, summed over the cores. -/
structure MemoryStats where
  numDramCycles : Nat := 0
  numIncomingRequests : Nat := 0
  numReadRequests : Nat := 0
  numWriteRequests : Nat := 0
  incomingRequestsPerChannel : List Nat
  incomingReadReqsPerChannel : List Nat
  ramulatorActiveCycles : Nat := 0
  inQueueReqNumSum : Nat := 0
  inQueueReadReqNumSum : Nat := 0
  inQueueWriteReqNumSum : Nat := 0
  deriving DecidableEq, Repr

structure Memory (Command State : Type) where
  type : Mapping := .roBaRaCoCh
  ctrls : List (Controller Command State)
  addrBits : List Nat
  txBits : Nat
  maxAddress : Nat
  stats : MemoryStats

def calcLog2 (val : Nat) : Nat :=
  if val >>> 1 = 0 then 0 else calcLog2 (val >>> 1) + 1
termination_by val
decreasing_by
  rw [Nat.shiftRight_one] at *
  omega

def sliceLowerBits (addr bits : Nat) : Nat × Nat :=
  (addr &&& ((1 <<< bits) - 1), addr >>> bits)

def clearLowerBits (addr bits : Nat) : Nat := addr >>> bits

/-- The levels in the order in which `send` slices the address. -/
def Mapping.order (levels row : Nat) : Mapping → List Nat
  | .chRaBaRoCo => (List.range levels).reverse
  | .roBaRaCoCh => 0 :: (levels - 1) :: List.range' 1 row

def sliceLevel (addrBits : List Nat) (sliced : List Int × Nat) (lev : Nat) : List Int × Nat :=
  let (lbits, addr) := sliceLowerBits sliced.2 (addrBits.getD lev 0)
  (sliced.1.set lev lbits, addr)

namespace MemoryStats

def countIncoming (type : GraphAccelerator.Memory.RequestType) (channel : Nat)
    (stats : MemoryStats) : MemoryStats :=
  let stats := { stats with numIncomingRequests := stats.numIncomingRequests + 1 }
  let stats := if type = .read then { stats with
      numReadRequests := stats.numReadRequests + 1
      incomingReadReqsPerChannel := stats.incomingReadReqsPerChannel.modify channel (· + 1) }
    else stats
  let stats := if type = .write then { stats with
      numWriteRequests := stats.numWriteRequests + 1 } else stats
  { stats with
    incomingRequestsPerChannel := stats.incomingRequestsPerChannel.modify channel (· + 1) }

end MemoryStats

def Controller.isActive {Command State : Type} (c : Controller Command State) : Bool :=
  c.channel.cell.service.curServingRequests > 0

namespace Memory

variable {Command State : Type} (spec : Standard Command State)

/-- The constructor; the numbers of channels and ranks and the size of a transaction have
to be powers of two. -/
def new (type : Mapping) : Option (Memory Command State) :=
  let sz := spec.count
  let tx := spec.prefetchSize * spec.channelWidth / 8
  if sz 0 &&& (sz 0 - 1) = 0 ∧ sz 1 &&& (sz 1 - 1) = 0 ∧ 1 <<< calcLog2 tx = tx then
    some {
      type
      ctrls := (List.range (sz 0)).map fun c : Nat => { channel := DRAM.channel spec c }
      addrBits := ((List.range spec.levels).map fun lev => calcLog2 (sz lev)).modify
        (spec.levels - 1) (· - calcLog2 spec.prefetchSize)
      txBits := calcLog2 tx
      maxAddress := (List.range spec.levels).foldl (fun max lev => max * sz lev)
        (spec.channelWidth / 8)
      stats := {
        incomingRequestsPerChannel := List.replicate (sz 0) 0
        incomingReadReqsPerChannel := List.replicate (sz 0) 0 } }
  else none

def addrVec (m : Memory Command State) (addr : Nat) : List Int :=
  ((m.type.order m.addrBits.length spec.row).foldl (sliceLevel m.addrBits)
    (List.replicate m.addrBits.length 0, clearLowerBits addr m.txBits)).1

def send (req : GraphAccelerator.Memory.Request) (m : Memory Command State) :
    Option (Memory Command State × Bool) := do
  let addrVec := m.addrVec spec req.addr
  let channel := (← addrVec[0]?).toNat
  let c ← m.ctrls[channel]?
  let (c, accepted) := c.enqueue { toRequest := req, addrVec }
  let m := { m with ctrls := m.ctrls.set channel c }
  return if accepted then ({ m with stats := m.stats.countIncoming req.type channel }, true)
    else (m, false)

def sumQueues (m : Memory Command State) : MemoryStats :=
  let total (length : Controller Command State → Nat) := (m.ctrls.map length).sum
  { m.stats with
    numDramCycles := m.stats.numDramCycles + 1
    inQueueReqNumSum := m.stats.inQueueReqNumSum +
      total fun c => c.readq.length + c.writeq.length + c.pending.length
    inQueueReadReqNumSum := m.stats.inQueueReadReqNumSum +
      total fun c => c.readq.length + c.pending.length
    inQueueWriteReqNumSum := m.stats.inQueueWriteReqNumSum + total fun c => c.writeq.length }

def tick [DecidableEq Command] (policy : Policy) (m : Memory Command State) :
    Option (Memory Command State × List Request) := do
  let stats := m.sumQueues
  let ticked ← m.ctrls.mapM fun c => c.tick spec policy
  let stats := if m.ctrls.any Controller.isActive then
      { stats with ramulatorActiveCycles := stats.ramulatorActiveCycles + 1 }
    else stats
  return ({ m with ctrls := ticked.map Prod.fst, stats }, ticked.flatMap Prod.snd)

end Memory

section Mapping

theorem calcLog2_eq (val : Nat) : calcLog2 val = val.log2 := by
  induction val using Nat.strong_induction_on with
  | _ val inductionHypothesis =>
      rw [calcLog2, Nat.log2_def, Nat.shiftRight_one]
      by_cases small : 2 ≤ val
      · rw [if_neg (by omega), if_pos small, inductionHypothesis _ (by omega)]
      · rw [if_pos (by omega), if_neg small]

theorem sliceLowerBits_eq (addr bits : Nat) :
    sliceLowerBits addr bits = (addr % 2 ^ bits, addr / 2 ^ bits) := by
  rw [sliceLowerBits, Nat.one_shiftLeft, Nat.and_two_pow_sub_one_eq_mod,
    Nat.shiftRight_eq_div_pow]

theorem slices_digits (addrBits order : List Nat) (nodup : order.Nodup) (addrVec : List Int)
    (inside : ∀ lev ∈ order, lev < addrVec.length) (addr : Nat) :
    let sliced := (order.foldl (sliceLevel addrBits) (addrVec, addr)).1
    sliced.length = addrVec.length ∧ (∀ lev ∉ order, sliced[lev]? = addrVec[lev]?) ∧
      (∀ lev ∈ order, ∃ i : Nat, i < 2 ^ addrBits.getD lev 0 ∧ sliced[lev]? = some (i : Int)) ∧
      order.map (sliced[·]?) =
        (Radix.digits (order.map fun lev => 2 ^ addrBits.getD lev 0) addr).map
          fun digit : Nat => some (digit : Int) := by
  induction order generalizing addrVec addr with
  | nil => exact ⟨rfl, fun _ _ => rfl, by simp, rfl⟩
  | cons lev order inductionHypothesis =>
      obtain ⟨fresh, nodup⟩ := List.nodup_cons.mp nodup
      obtain ⟨here, inside⟩ := List.forall_mem_cons.mp inside
      dsimp only
      rw [List.foldl_cons, sliceLevel, sliceLowerBits_eq]
      obtain ⟨length, others, within, digits⟩ := inductionHypothesis nodup
        (addrVec.set lev ((addr % 2 ^ addrBits.getD lev 0 : Nat) : Int)) (by simpa using inside)
        (addr / 2 ^ addrBits.getD lev 0)
      have own := (others lev fresh).trans (List.getElem?_set_self here)
      refine ⟨by simpa using length, fun other notIn => ?_, ?_, ?_⟩
      · rw [List.mem_cons, not_or] at notIn
        rw [others other notIn.2, List.getElem?_set_ne (Ne.symm notIn.1)]
      · exact List.forall_mem_cons.mpr ⟨⟨_, Nat.mod_lt _ (Nat.two_pow_pos _), own⟩, within⟩
      · rw [List.map_cons, List.map_cons, Radix.digits, List.map_cons, digits, own]

end Mapping

namespace Memory

section Places

variable {Command State : Type} {spec : Standard Command State} {m : Memory Command State}

def order (spec : Standard Command State) (m : Memory Command State) : List Nat :=
  m.type.order m.addrBits.length spec.row

def sizes (m : Memory Command State) : List Nat := m.addrBits.map (2 ^ ·)

structure Sliced (spec : Standard Command State) (m : Memory Command State) (addr : Nat)
    (addrVec : List Int) : Prop where
  length : addrVec.length = m.addrBits.length
  within : ∀ lev < m.addrBits.length,
    ∃ i : Nat, i < 2 ^ m.addrBits.getD lev 0 ∧ addrVec[lev]? = some (i : Int)
  digits : (m.order spec).map (addrVec[·]?) =
    (Radix.digits ((m.order spec).map fun lev => 2 ^ m.addrBits.getD lev 0)
      (addr / 2 ^ m.txBits)).map fun digit : Nat => some (digit : Int)

theorem addrVec_sliced (covers : (m.order spec).Perm (List.range m.addrBits.length))
    (addr : Nat) : Sliced spec m addr (m.addrVec spec addr) := by
  obtain ⟨length, _, within, digits⟩ := slices_digits m.addrBits (m.order spec)
    (covers.nodup_iff.mpr List.nodup_range) (List.replicate m.addrBits.length 0)
    (fun lev known => by simpa using covers.mem_iff.mp known) (addr / 2 ^ m.txBits)
  have sliced : m.addrVec spec addr = ((m.order spec).foldl (sliceLevel m.addrBits)
      (List.replicate m.addrBits.length 0, addr / 2 ^ m.txBits)).1 := by
    rw [addrVec, clearLowerBits, Nat.shiftRight_eq_div_pow]
    rfl
  rw [← sliced] at length within digits
  exact ⟨by simpa using length,
    fun lev bound => within lev (covers.mem_iff.mpr (List.mem_range.mpr bound)), digits⟩

theorem Sliced.exists_place {addr : Nat} {addrVec : List Int}
    (sliced : Sliced spec m addr addrVec) :
    ∃ place : List Nat, List.Forall₂ (· < ·) place m.sizes ∧ addrVec = place.map (↑) := by
  have entries : ∀ lev (bound : lev < addrVec.length), ∃ i : Nat,
      i < 2 ^ m.addrBits.getD lev 0 ∧ addrVec[lev] = i := by
    intro lev bound
    obtain ⟨i, inside, found⟩ := sliced.within lev (sliced.length ▸ bound)
    exact ⟨i, inside, by rwa [List.getElem?_eq_getElem bound, Option.some.injEq] at found⟩
  refine ⟨addrVec.map Int.toNat, List.forall₂_iff_get.mpr ⟨?_, fun lev bound _ => ?_⟩, ?_⟩
  · simpa [sizes] using sliced.length
  · obtain ⟨i, inside, found⟩ := entries lev (by simpa using bound)
    have bound : lev < m.addrBits.length := sliced.length ▸ (by simpa using bound)
    simp only [List.get_eq_getElem, List.getElem_map, found, Int.toNat_natCast, sizes]
    simpa [bound] using inside
  · refine List.ext_getElem (by simp) fun lev bound _ => ?_
    obtain ⟨i, _, found⟩ := entries lev bound
    simp [found]

theorem ext_order (covers : (m.order spec).Perm (List.range m.addrBits.length))
    {place other : List Int} (sameLength : place.length = m.addrBits.length)
    (otherLength : other.length = m.addrBits.length)
    (same : (m.order spec).map (place[·]?) = (m.order spec).map (other[·]?)) : place = other := by
  refine List.ext_getElem? fun lev => ?_
  by_cases bound : lev < m.addrBits.length
  · exact List.map_inj_left.mp same lev (covers.mem_iff.mpr (List.mem_range.mpr bound))
  · rw [List.getElem?_eq_none (by omega), List.getElem?_eq_none (by omega)]

theorem prod_order (covers : (m.order spec).Perm (List.range m.addrBits.length)) :
    ((m.order spec).map fun lev => 2 ^ m.addrBits.getD lev 0).prod = m.sizes.prod := by
  rw [(covers.map _).prod_eq, sizes]
  congr 1
  refine List.ext_getElem (by simp) fun lev _ bound => ?_
  have bound : lev < m.addrBits.length := by simpa using bound
  simp [bound]

/-- Two addresses name the same place when their transactions differ by a multiple of the
size of the memory. -/
theorem addrVec_eq_iff (covers : (m.order spec).Perm (List.range m.addrBits.length))
    (addr other : Nat) : m.addrVec spec addr = m.addrVec spec other ↔
      addr / 2 ^ m.txBits % m.sizes.prod = other / 2 ^ m.txBits % m.sizes.prod := by
  have sliced := addrVec_sliced covers addr
  have otherSliced := addrVec_sliced covers other
  have positive : ∀ radix ∈ (m.order spec).map fun lev => 2 ^ m.addrBits.getD lev 0, 0 < radix := by
    simp
  rw [← prod_order covers, ← Radix.digits_eq_iff positive]
  have inj : Function.Injective fun digit : Nat => some (digit : Int) := fun _ _ same => by
    simpa using same
  rw [← (List.map_injective_iff.mpr inj).eq_iff, ← sliced.digits, ← otherSliced.digits]
  exact ⟨fun same => by rw [same], ext_order covers sliced.length otherSliced.length⟩

theorem exists_addr (covers : (m.order spec).Perm (List.range m.addrBits.length))
    {place : List Nat} (within : List.Forall₂ (· < ·) place m.sizes) :
    ∃ transaction < m.sizes.prod,
      m.addrVec spec (2 ^ m.txBits * transaction) = place.map (↑) := by
  have length : place.length = m.addrBits.length := by simpa [sizes] using within.length_eq
  have bounded : List.Forall₂ (· < ·) ((m.order spec).map (place.getD · 0))
      ((m.order spec).map fun lev => 2 ^ m.addrBits.getD lev 0) := by
    rw [List.forall₂_map_left_iff, List.forall₂_map_right_iff, List.forall₂_same]
    intro lev known
    have bound : lev < m.addrBits.length := List.mem_range.mp (covers.mem_iff.mp known)
    have inside := List.Forall₂.get within (by omega : lev < place.length) (by simpa [sizes])
    simpa [sizes, bound, length] using inside
  refine ⟨Radix.value _ _, prod_order covers ▸ Radix.value_lt bounded, ?_⟩
  have sliced := addrVec_sliced covers (2 ^ m.txBits * Radix.value
    ((m.order spec).map fun lev => 2 ^ m.addrBits.getD lev 0) ((m.order spec).map (place.getD · 0)))
  refine ext_order covers sliced.length (by simpa using length) ?_
  rw [sliced.digits, Nat.mul_div_cancel_left _ (Nat.two_pow_pos _), Radix.digits_value bounded,
    List.map_map]
  refine List.map_congr_left fun lev known => ?_
  have bound : lev < m.addrBits.length := List.mem_range.mp (covers.mem_iff.mp known)
  simp [length, bound]

end Places

section Ddr3

open Ddr3 (Org Speed orgTable)

variable {org : Org} {speed : Speed} {channels ranks : Nat} {type : Mapping}
  {m : Memory Ddr3.Command Ddr3.State}

theorem two_pow_calcLog2 {val : Nat} (positive : 0 < val) (power : val &&& (val - 1) = 0) :
    2 ^ calcLog2 val = val := by
  rw [calcLog2_eq]
  obtain ⟨bits, rfl⟩ := (Nat.and_sub_one_eq_zero_iff_isPowerOfTwo positive.ne').mp power
  rw [Nat.log2_two_pow]

structure Made (org : Org) (speed : Speed) (channels ranks : Nat)
    (m : Memory Ddr3.Command Ddr3.State) : Prop where
  levels : m.addrBits.length = 5
  sizes : m.sizes = [channels, ranks, (orgTable org).bank, (orgTable org).row,
    (orgTable org).column / 8]
  maxAddress : m.maxAddress = 2 ^ m.txBits * m.sizes.prod

theorem new_made (made : new (ddr3 org speed channels ranks) type = some m)
    (someChannels : 0 < channels) (someRanks : 0 < ranks) : Made org speed channels ranks m := by
  unfold new at made
  dsimp only at made
  split at made
  · rename_i asserted
    obtain ⟨powerChannels, powerRanks, _⟩ := asserted
    obtain rfl := Option.some.inj made
    have channelBits := two_pow_calcLog2 someChannels powerChannels
    have rankBits := two_pow_calcLog2 someRanks powerRanks
    have prefetchBits : calcLog2 8 = 3 := by
      rw [calcLog2_eq]
      decide
    have txBits : calcLog2 64 = 6 := by
      rw [calcLog2_eq]
      decide
    have inBank : 2 ^ calcLog2 (orgTable org).bank = (orgTable org).bank ∧
        2 ^ calcLog2 (orgTable org).row = (orgTable org).row ∧
        2 ^ (calcLog2 (orgTable org).column - 3) = (orgTable org).column / 8 ∧
        8 * ((orgTable org).column / 8) = (orgTable org).column := by
      rw [calcLog2_eq, calcLog2_eq, calcLog2_eq]
      cases org <;> decide
    obtain ⟨bank, row, column, columns⟩ := inBank
    refine ⟨rfl, ?_, ?_⟩
    · simp [sizes, ddr3, List.range_succ, prefetchBits, channelBits, rankBits, bank, row, column]
    · simp [sizes, ddr3, List.range_succ, prefetchBits, txBits, channelBits, rankBits, bank, row, column]
      conv_lhs => rw [← columns]
      ring
  · cases made

theorem new_fresh (made : new (ddr3 org speed channels ranks) type = some m) :
    m.ctrls = (List.range channels).map (fun c : Nat =>
        { channel := DRAM.channel (ddr3 org speed channels ranks) c }) ∧
      m.stats.numDramCycles = 0 := by
  unfold new at made
  dsimp only at made
  split at made
  · obtain rfl := Option.some.inj made
    exact ⟨rfl, rfl⟩
  · cases made

theorem covers_order (made : Made org speed channels ranks m) :
    (m.order (ddr3 org speed channels ranks)).Perm (List.range m.addrBits.length) := by
  rw [order, made.levels]
  show (m.type.order 5 3).Perm (List.range 5)
  cases m.type <;> decide

theorem exists_new (org : Org) (speed : Speed) (type : Mapping)
    (powerChannels : channels &&& (channels - 1) = 0) (powerRanks : ranks &&& (ranks - 1) = 0) :
    ∃ m, new (ddr3 org speed channels ranks) type = some m := by
  refine ⟨_, if_pos ⟨powerChannels, powerRanks, ?_⟩⟩
  rw [calcLog2_eq]
  show 1 <<< Nat.log2 (8 * 64 / 8) = 8 * 64 / 8
  decide

/-- The memory of the configuration that comes with the program. -/
def shipped : Memory Ddr3.Command Ddr3.State where
  ctrls := [{ channel := DRAM.channel (ddr3 .ddr3_2Gb_x8 .ddr3_1600K 1 1) 0 }]
  addrBits := [0, 0, 3, 15, 7]
  txBits := 6
  maxAddress := 2 ^ 31
  stats := { incomingRequestsPerChannel := [0], incomingReadReqsPerChannel := [0] }

theorem new_shipped : new (ddr3 .ddr3_2Gb_x8 .ddr3_1600K 1 1) .roBaRaCoCh = some shipped := by
  unfold new
  simp only [calcLog2_eq]
  rfl

/-- The mapping is a bijection between the transactions below `maxAddress` and the places of
the memory; above `maxAddress` it repeats itself. -/
theorem addrVec_bijective (made : new (ddr3 org speed channels ranks) type = some m)
    (someChannels : 0 < channels) (someRanks : 0 < ranks) :
    let sizes := [channels, ranks, (orgTable org).bank, (orgTable org).row,
      (orgTable org).column / 8]
    let addrVec := m.addrVec (ddr3 org speed channels ranks)
    (∀ addr, ∃ place : List Nat, List.Forall₂ (· < ·) place sizes ∧
        addrVec addr = place.map (↑)) ∧
      (∀ addr other, addrVec addr = addrVec other ↔
        addr / 2 ^ m.txBits % (m.maxAddress / 2 ^ m.txBits) =
          other / 2 ^ m.txBits % (m.maxAddress / 2 ^ m.txBits)) ∧
      ∀ place : List Nat, List.Forall₂ (· < ·) place sizes →
        ∃! addr, addr < m.maxAddress ∧ 2 ^ m.txBits ∣ addr ∧ addrVec addr = place.map (↑) := by
  have memory := new_made made someChannels someRanks
  have covers := covers_order memory
  have capacity : m.maxAddress / 2 ^ m.txBits = m.sizes.prod := by
    rw [memory.maxAddress, Nat.mul_div_cancel_left _ (Nat.two_pow_pos _)]
  dsimp only
  rw [← memory.sizes, capacity]
  refine ⟨fun addr => ?_, addrVec_eq_iff covers, fun place within => ?_⟩
  · exact (addrVec_sliced covers addr).exists_place
  · obtain ⟨transaction, bound, named⟩ := exists_addr covers within
    refine ⟨2 ^ m.txBits * transaction, ⟨?_, Nat.dvd_mul_right _ _, named⟩, ?_⟩
    · rw [memory.maxAddress]
      exact Nat.mul_lt_mul_of_pos_left bound (Nat.two_pow_pos _)
    · rintro addr ⟨inside, ⟨other, rfl⟩, sameName⟩
      have otherBound : other < m.sizes.prod := by
        rw [memory.maxAddress] at inside
        exact Nat.lt_of_mul_lt_mul_left inside
      have same := (addrVec_eq_iff covers _ _).mp (sameName.trans named.symm)
      rw [Nat.mul_div_cancel_left _ (Nat.two_pow_pos _),
        Nat.mul_div_cancel_left _ (Nat.two_pow_pos _), Nat.mod_eq_of_lt otherBound,
        Nat.mod_eq_of_lt bound] at same
      rw [same]

theorem addrVec_bijective_shipped :
    shipped.addrVec (ddr3 .ddr3_2Gb_x8 .ddr3_1600K 1 1) (2 ^ 16 + 3 * 2 ^ 13) = [0, 0, 3, 1, 0] ∧
      ∃! addr, addr < 2 ^ 31 ∧ 2 ^ 6 ∣ addr ∧
        shipped.addrVec (ddr3 .ddr3_2Gb_x8 .ddr3_1600K 1 1) addr = [0, 0, 3, 1, 0] :=
  ⟨by decide, (addrVec_bijective new_shipped one_pos one_pos).2.2 [0, 0, 3, 1, 0] (by decide)⟩

end Ddr3

end Memory

end GraphAccelerator.Dram
