import GraphAccelerator.Memory.Burst

/-!
# The blocks of a burst

`getReqNum` counts the basic requests of a burst by divisions, `updateAddrVec`
enumerates their addresses with a loop.  Both start at the address aligned to
`2 ^ burstAddrWidth` and advance by `burstLen`, so they agree and cover the burst for
any two of these.  The width is computed once, at start-up, and is one more than the
logarithm of the length; a burst then has a request for a block that it does not touch
as soon as its offset reaches `burstLen`.
-/

namespace GraphAccelerator.Memory

open CheckedLoop

/-- `GL::burstLen` at start-up, before the wrapper sets it. -/
def startBurstLen : Nat := 64

def burstAddrWidthLoop (burstLen : Nat) : Nat → Nat → Nat → Option Nat
  | 0, _, _ => none
  | rounds + 1, width, val =>
      if val = burstLen then some width
      else burstAddrWidthLoop burstLen rounds (width + 1) (val * 2)

/-- The number of address bits of a basic request; `none` is the exit for a length that
is no power of two. -/
def getBurstAddrWidth (burstLen : Nat) : Option Nat := burstAddrWidthLoop burstLen 11 1 1

example : getBurstAddrWidth startBurstLen = some 7 := by decide

section

variable {cfg : BurstCfg}

theorem getAlignedAddr_eq (op : BurstOp) :
    op.getAlignedAddr cfg = 2 ^ cfg.burstAddrWidth * (op.addr / 2 ^ cfg.burstAddrWidth) := by
  rw [BurstOp.getAlignedAddr, Nat.shiftRight_eq_div_pow, Nat.shiftLeft_eq, Nat.mul_comm]

theorem ceil_spec {length burstLen : Int} (someByte : 0 < length) (positive : 0 < burstLen) :
    let blocks := if length.tmod burstLen = 0 then length.tdiv burstLen
      else length.tdiv burstLen + 1
    1 ≤ blocks ∧ length ≤ blocks * burstLen ∧ (blocks - 1) * burstLen < length := by
  rw [Int.tmod_eq_emod_of_nonneg (Int.le_of_lt someByte),
    Int.tdiv_eq_ediv_of_nonneg (Int.le_of_lt someByte)]
  have split := Int.mul_ediv_add_emod length burstLen
  have small := Int.emod_lt_of_pos length positive
  have low := Int.emod_nonneg length (Int.ne_of_gt positive)
  have quotient : 0 ≤ length / burstLen := Int.ediv_nonneg (by omega) (by omega)
  have commuted := Int.mul_comm (length / burstLen) burstLen
  dsimp only
  split
  · rename_i divides
    refine ⟨?_, by omega, by rw [Int.sub_mul]; omega⟩
    rcases Int.le_iff_lt_or_eq.mp quotient with someBlock | none
    · omega
    · rw [← none, Int.mul_zero] at split
      omega
  · rename_i remains
    rw [Int.add_mul, Int.add_sub_cancel]
    omega

theorem first_block {condition : Prop} [Decidable condition] (quotient : Int) :
    (if condition then 1 + quotient else 1 + quotient + 1) =
      1 + if condition then quotient else quotient + 1 := by
  split <;> omega

theorem getReqNum_spec (op : BurstOp) (someByte : 1 ≤ op.length) :
    1 ≤ op.getReqNum cfg ∧
      ((op.addr + op.length : Nat) : Int) ≤
        op.getAlignedAddr cfg + op.getReqNum cfg * cfg.burstLen ∧
      (op.getReqNum cfg = 1 ∨ op.getAlignedAddr cfg + (op.getReqNum cfg - 1) * cfg.burstLen <
        ((op.addr + op.length : Nat) : Int)) := by
  have positive : (0 : Int) < cfg.burstLen := by have := cfg.positive; omega
  have origin : (op.addr : Int) = op.getAlignedAddr cfg + op.getOffset cfg := by
    rw [BurstOp.getOffset]
    omega
  simp only [BurstOp.getReqNum]
  split
  · rename_i aligned
    obtain ⟨someBlock, covered, needed⟩ := @ceil_spec op.length cfg.burstLen (by omega) positive
    generalize (if (op.length : Int).tmod cfg.burstLen = 0 then _ else _ : Int) = blocks at *
    push_cast
    exact ⟨someBlock, by omega, .inr (by omega)⟩
  · split
    · rename_i exceeds
      obtain ⟨someBlock, covered, needed⟩ := @ceil_spec
        (op.length - (cfg.burstLen - op.getOffset cfg)) cfg.burstLen (by omega) positive
      rw [first_block]
      generalize (if Int.tmod _ _ = 0 then _ else _ : Int) = blocks at *
      rw [Int.add_mul, Int.one_mul, add_sub_cancel_left]
      rw [Int.sub_mul, Int.one_mul] at needed
      exact ⟨by omega, by omega, .inr (by omega)⟩
    · exact ⟨Int.le_refl 1, by omega, .inl rfl⟩

theorem addrLoop_contents {arith : Int → Int} {length rounds reqAddr : Nat} {reqLen : Int}
    {addrVec : List Nat} {final : Nat × Int × List Nat}
    (ran : BurstOp.addrLoop arith cfg length rounds (reqAddr, reqLen, addrVec) = some final) :
    ∃ index, final.2.2 =
      addrVec ++ (List.range index).map fun i => reqAddr + (i + 1) * cfg.burstLen := by
  obtain ⟨index, _, contents⟩ := whileDo_invariant
    (fun index (state : Nat × Int × List Nat) => state.1 = reqAddr + index * cfg.burstLen ∧
      state.2.2 = addrVec ++ (List.range index).map fun i => reqAddr + (i + 1) * cfg.burstLen)
    ran (by simp) (by
      rintro index ⟨beforeAddr, _, _⟩ after ⟨rfl, rfl⟩ stepped
      obtain rfl := Option.some.inj stepped
      have next : reqAddr + index * cfg.burstLen + cfg.burstLen =
          reqAddr + (index + 1) * cfg.burstLen := by ring
      dsimp only
      rw [next, List.range_succ, List.map_append, List.append_assoc]
      exact ⟨rfl, rfl⟩)
  exact ⟨index, contents⟩

theorem updateAddrVecIn_contents {arith : Int → Int} {op after : BurstOp} (fresh : op.addrVec = [])
    (updated : op.updateAddrVecIn arith cfg = some after) :
    (∃ number, after.addrVec =
        (List.range number).map fun i => op.getAlignedAddr cfg + i * cfg.burstLen) ∧
      (op.getOffset cfg ≠ 0 → op.getAlignedAddr cfg ∈ after.addrVec) := by
  rw [BurstOp.updateAddrVecIn] at updated
  split at updated
  · rename_i aligned
    have same : op.addr = op.getAlignedAddr cfg := by
      rw [BurstOp.getOffset] at aligned
      omega
    obtain rfl := Option.some.inj updated
    dsimp only
    rw [fresh, List.nil_append, same]
    exact ⟨⟨_, rfl⟩, fun unaligned => absurd aligned unaligned⟩
  · rw [Option.bind_eq_bind, Option.bind_eq_some_iff] at updated
    obtain ⟨final, ran, updated⟩ := updated
    obtain ⟨index, contents⟩ := addrLoop_contents ran
    obtain rfl := Option.some.inj updated
    dsimp only
    rw [contents, fresh]
    refine ⟨⟨index + 1, ?_⟩, fun _ => by simp⟩
    rw [List.range_succ_eq_map, List.map_cons, List.map_map]
    simp [Function.comp_def]

/-- As long as nothing overflows, `updateAddrVec` pushes the counted number of blocks. -/
theorem updateAddrVecIn_eq {arith : Int → Int} {op : BurstOp}
    (exact : op.getOffset cfg ≠ 0 → AddrExact arith cfg op.length (cfg.burstLen - op.getOffset cfg))
    (fresh : op.addrVec = []) :
    op.updateAddrVecIn arith cfg = some { op with
      addrVec := (List.range (op.getReqNum cfg).toNat).map fun i =>
        op.getAlignedAddr cfg + i * cfg.burstLen } := by
  obtain ⟨addrVec, updated, count⟩ := updateAddrVecIn_total exact fresh
  obtain ⟨⟨number, contents⟩, _⟩ := updateAddrVecIn_contents fresh updated
  dsimp only at contents
  rw [contents, List.length_map, List.length_range] at count
  rw [updated, contents, count]

theorem updateAddrVec_eq (op : BurstOp) (fresh : op.addrVec = []) :
    op.updateAddrVec cfg = some { op with
      addrVec := (List.range (op.getReqNum cfg).toNat).map fun i =>
        op.getAlignedAddr cfg + i * cfg.burstLen } :=
  updateAddrVecIn_eq (fun _ _ _ => rfl) fresh

/-- `addrVec` holds exactly the blocks that the burst touches, in increasing order. -/
structure TouchesExactly (cfg : BurstCfg) (op : BurstOp) (addrVec : List Nat) : Prop where
  increasing : addrVec.Pairwise (· < ·)
  blocks : ∀ a, a ∈ addrVec ↔
    cfg.burstLen ∣ a ∧ a < op.addr + op.length ∧ op.addr < a + cfg.burstLen
  single : op.length = 1 → addrVec.length = 1

theorem blocks_increasing (cfg : BurstCfg) (base number : Nat) :
    ((List.range number).map fun i => base + i * cfg.burstLen).Pairwise (· < ·) := by
  refine List.pairwise_map.mpr (List.pairwise_lt_range.imp fun {i j} less => ?_)
  exact Nat.add_lt_add_left (Nat.mul_lt_mul_of_pos_right less cfg.positive) base

theorem block_touches (op : BurstOp) (someByte : 1 ≤ op.length)
    (near : op.addr % 2 ^ cfg.burstAddrWidth < cfg.burstLen) {i : Nat}
    (counted : i < (op.getReqNum cfg).toNat) :
    op.getAlignedAddr cfg + i * cfg.burstLen < op.addr + op.length ∧
      op.addr < op.getAlignedAddr cfg + i * cfg.burstLen + cfg.burstLen := by
  have split := Nat.div_add_mod op.addr (2 ^ cfg.burstAddrWidth)
  rw [← getAlignedAddr_eq] at split
  obtain ⟨_, _, single | needed⟩ := @getReqNum_spec cfg op someByte
  · obtain rfl : i = 0 := by omega
    omega
  · have most : (i : Int) * cfg.burstLen ≤ (op.getReqNum cfg - 1) * cfg.burstLen :=
      Int.mul_le_mul_of_nonneg_right (by omega) (by omega)
    have bound : ((i * cfg.burstLen : Nat) : Int) = (i : Int) * cfg.burstLen := by push_cast; rfl
    exact ⟨by omega, by omega⟩

theorem mem_of_touches (op : BurstOp) (someByte : 1 ≤ op.length)
    (aligned : cfg.burstLen ∣ op.getAlignedAddr cfg) {a : Nat} (divides : cfg.burstLen ∣ a)
    (inside : a < op.addr + op.length) (touching : op.addr < a + cfg.burstLen) :
    ∃ i, i < (op.getReqNum cfg).toNat ∧ op.getAlignedAddr cfg + i * cfg.burstLen = a := by
  have below : op.getAlignedAddr cfg ≤ op.addr := by
    rw [getAlignedAddr_eq]
    exact Nat.mul_div_le _ _
  obtain ⟨first, base⟩ := aligned
  obtain ⟨last, rfl⟩ := divides
  obtain ⟨_, covered, _⟩ := @getReqNum_spec cfg op someByte
  have ordered : first ≤ last := by
    by_contra behind
    have : cfg.burstLen * (last + 1) ≤ cfg.burstLen * first := Nat.mul_le_mul_left _ (by omega)
    rw [Nat.mul_add, Nat.mul_one] at this
    omega
  refine ⟨last - first, ?_, ?_⟩
  · by_contra more
    have nonneg := getReqNum_nonneg cfg op
    have : op.getReqNum cfg * cfg.burstLen ≤ ((last : Int) - first) * cfg.burstLen :=
      Int.mul_le_mul_of_nonneg_right (by omega) (by omega)
    rw [Int.sub_mul, Int.mul_comm last, Int.mul_comm first] at this
    have start : (op.getAlignedAddr cfg : Int) = cfg.burstLen * first := by
      rw [base]
      push_cast
      rfl
    have final : ((cfg.burstLen * last : Nat) : Int) = cfg.burstLen * last := by push_cast; rfl
    omega
  · rw [base, Nat.sub_mul, Nat.mul_comm last, Nat.mul_comm first]
    have : cfg.burstLen * first ≤ cfg.burstLen * last := Nat.mul_le_mul_left _ ordered
    omega

theorem burstLen_dvd_getAlignedAddr {k : Nat} (power : cfg.burstLen = 2 ^ k)
    (narrow : k ≤ cfg.burstAddrWidth) (op : BurstOp) :
    cfg.burstLen ∣ op.getAlignedAddr cfg := by
  rw [power, getAlignedAddr_eq]
  exact Nat.dvd_mul_right_of_dvd (pow_dvd_pow 2 narrow) _

theorem getOffset_eq (cfg : BurstCfg) (op : BurstOp) :
    op.getOffset cfg = (op.addr % 2 ^ cfg.burstAddrWidth : Nat) := by
  have split := Nat.div_add_mod op.addr (2 ^ cfg.burstAddrWidth)
  rw [BurstOp.getOffset, getAlignedAddr_eq]
  omega

/-- When its address lies in the first block of its aligned unit, the requests of a burst are
exactly the blocks it touches. -/
theorem touchesExactly_of_near (op : BurstOp) (someByte : 1 ≤ op.length)
    (aligned : cfg.burstLen ∣ op.getAlignedAddr cfg)
    (near : op.addr % 2 ^ cfg.burstAddrWidth < cfg.burstLen) :
    TouchesExactly cfg op ((List.range (op.getReqNum cfg).toNat).map fun i =>
      op.getAlignedAddr cfg + i * cfg.burstLen) := by
  obtain ⟨someBlock, _⟩ := @getReqNum_spec cfg op someByte
  refine ⟨blocks_increasing .., fun a => ⟨?_, ?_⟩, fun oneByte => ?_⟩
  · rintro membership
    obtain ⟨i, counted, rfl⟩ := List.mem_map.mp membership
    exact ⟨Nat.dvd_add aligned (Nat.dvd_mul_left ..),
      block_touches op someByte near (List.mem_range.mp counted)⟩
  · rintro ⟨divides, inside, touching⟩
    obtain ⟨i, counted, same⟩ := mem_of_touches op someByte aligned divides inside touching
    exact List.mem_map.mpr ⟨i, List.mem_range.mpr counted, same⟩
  · rw [List.length_map, List.length_range]
    by_contra several
    have last := block_touches op someByte near
      (show (op.getReqNum cfg).toNat - 1 < (op.getReqNum cfg).toNat by omega)
    have first := block_touches op someByte near (show 0 < (op.getReqNum cfg).toNat by omega)
    have : 1 * cfg.burstLen ≤ ((op.getReqNum cfg).toNat - 1) * cfg.burstLen :=
      Nat.mul_le_mul_right _ (by omega)
    omega

/-- The first request of an unaligned burst touches it only in the first block of the unit. -/
theorem near_of_touchesExactly {arith : Int → Int} {op after : BurstOp} (fresh : op.addrVec = [])
    (updated : op.updateAddrVecIn arith cfg = some after)
    (exactly : TouchesExactly cfg op after.addrVec) :
    op.addr % 2 ^ cfg.burstAddrWidth < cfg.burstLen := by
  have positive := cfg.positive
  have offset := getOffset_eq cfg op
  by_cases unaligned : op.getOffset cfg = 0
  · omega
  · have requested := (updateAddrVecIn_contents fresh updated).2 unaligned
    have touching := ((exactly.blocks _).mp requested).2.2
    have split := Nat.div_add_mod op.addr (2 ^ cfg.burstAddrWidth)
    rw [← getAlignedAddr_eq] at split
    omega

section Overflow

variable {k : Nat} {offset length : Nat}

theorem blocks_le (power : cfg.burstLen = 2 ^ k) (small : k ≤ 31) {bytes : Int}
    (whole : (cfg.burstLen : Int) ∣ bytes) (below : bytes < 2 ^ 31 + cfg.burstLen) :
    bytes ≤ 2 ^ 31 := by
  obtain ⟨blocks, range⟩ : (cfg.burstLen : Int) ∣ 2 ^ 31 := by
    exact_mod_cast power ▸ pow_dvd_pow 2 small
  obtain ⟨number, rfl⟩ := whole
  rw [range] at below ⊢
  refine Int.mul_le_mul_of_nonneg_left (Int.le_of_lt_add_one ?_) (by omega)
  refine Int.lt_of_mul_lt_mul_left (a := cfg.burstLen) ?_ (by omega)
  rwa [Int.mul_add, Int.mul_one]

theorem addrExact_int (power : cfg.burstLen = 2 ^ k) (small : k ≤ 31) (unaligned : 0 < offset)
    (fits : offset + length ≤ 2 ^ 31) :
    AddrExact (fun sum => Int.bmod sum (2 ^ 32)) cfg length (cfg.burstLen - (offset : Int)) := by
  intro index short
  have next := @blocks_le cfg k power small ((index + 2 : Nat) * cfg.burstLen)
    (Int.dvd_mul_left ..) (by push_cast; rw [Int.add_mul]; omega)
  push_cast at next
  rw [Int.add_mul] at next
  have nonneg : 0 ≤ (index : Int) * cfg.burstLen := Int.mul_nonneg (by omega) (by omega)
  exact Int.bmod_eq_of_le (by omega) (by omega)

/-- Beyond the range of `int` the lengths wrap around, and none of them reaches the end of the
burst. -/
theorem addrLoop_overflows (power : cfg.burstLen = 2 ^ k) (small : k < 31)
    (near : offset < cfg.burstLen) (long : 2 ^ 31 < offset + length)
    (rounds reqAddr : Nat) (addrVec : List Nat) :
    BurstOp.addrLoop (fun sum => Int.bmod sum (2 ^ 32)) cfg length rounds
      (reqAddr, cfg.burstLen - (offset : Int), addrVec) = none := by
  have short : ∀ reqLen : Int, (cfg.burstLen : Int) ∣ reqLen + offset → reqLen < 2 ^ 31 →
      reqLen < length := by
    intro reqLen whole int
    have := blocks_le power (by omega) whole (by omega)
    omega
  refine whileDo_diverges (fun (state : Nat × Int × List Nat) =>
    (cfg.burstLen : Int) ∣ state.2.1 + offset ∧ state.2.1 < 2 ^ 31) ?_ ?_ rounds ?_
  · rintro ⟨_, reqLen, _⟩ ⟨whole, int⟩
    exact decide_eq_true (short reqLen whole int)
  · rintro ⟨_, reqLen, _⟩ after ⟨whole, int⟩ stepped
    obtain rfl := Option.some.inj stepped
    dsimp only at whole int ⊢
    have below := @Int.bmod_lt (reqLen + cfg.burstLen) (2 ^ 32) (by decide)
    have range : (cfg.burstLen : Int) ∣ (2 ^ 32 : Nat) := by
      rw [power]
      exact Int.natCast_dvd_natCast.mpr (pow_dvd_pow 2 (by omega))
    have wrapped : (cfg.burstLen : Int) ∣
        Int.bmod (reqLen + cfg.burstLen) (2 ^ 32) - (reqLen + cfg.burstLen) :=
      Int.dvd_trans range Int.dvd_bmod_sub_self
    have next : (cfg.burstLen : Int) ∣ Int.bmod (reqLen + cfg.burstLen) (2 ^ 32) + offset := by
      have sum := Int.dvd_add (Int.dvd_add wrapped whole) (Int.dvd_refl cfg.burstLen)
      ring_nf at sum ⊢
      exact sum
    rw [if_pos (Int.le_of_lt (short _ next (by omega)))]
    exact ⟨next, by omega⟩
  · exact ⟨⟨1, by ring⟩, by
      have := Nat.pow_lt_pow_right (show 1 < 2 by decide) small
      dsimp only
      omega⟩

end Overflow

/-- With the width of the start-up, a burst generates a request for exactly the blocks
that it touches if and only if its offset in a unit of 128 bytes is less than
`burstLen` and its loop does not overflow. -/
theorem updateAddrVec_exact_iff {k : Nat} (power : cfg.burstLen = 2 ^ k) (small : k ≤ 6)
    (width : getBurstAddrWidth startBurstLen = some cfg.burstAddrWidth) (op : BurstOp)
    (fresh : op.addrVec = []) (someByte : 1 ≤ op.length) (int : op.length < 2 ^ 31) :
    (∃ after, op.updateAddrVecInt cfg = some after ∧ TouchesExactly cfg op after.addrVec) ↔
      op.addr % 128 < cfg.burstLen ∧ op.addr % 128 + op.length ≤ 2 ^ 31 := by
  have seven : cfg.burstAddrWidth = 7 := (Option.some.inj width).symm
  have aligned := burstLen_dvd_getAlignedAddr power (by omega) op
  have offset := getOffset_eq cfg op
  have unit : 128 = 2 ^ cfg.burstAddrWidth := by
    rw [seven]
    rfl
  rw [unit]
  constructor
  · rintro ⟨after, updated, exactly⟩
    have near := near_of_touchesExactly fresh updated exactly
    refine ⟨near, ?_⟩
    by_contra long
    have unaligned : op.getOffset cfg ≠ 0 := by omega
    rw [BurstOp.updateAddrVecInt, BurstOp.updateAddrVecIn, if_neg unaligned] at updated
    simp only [offset, Option.bind_eq_bind, Option.bind_eq_some_iff] at updated
    obtain ⟨final, ran, _⟩ := updated
    rw [addrLoop_overflows power (by omega) near (by omega)] at ran
    cases ran
  · rintro ⟨near, fits⟩
    refine ⟨_, updateAddrVecIn_eq (fun unaligned => ?_) fresh,
      touchesExactly_of_near op someByte aligned near⟩
    rw [offset]
    exact addrExact_int power (by omega) (by omega) fits

def depthByteBurst : BurstOp where
  type := .read
  portIdx := 6
  burstIdx := 0
  peIdx := 0
  addr := 64
  length := 1

/-- `burstLen` 64 with the width of the start-up. -/
def startCfg : BurstCfg := ⟨64, 7, by decide⟩

theorem updateAddrVec_exact_first :
    (∃ after, { depthByteBurst with addr := 130 }.updateAddrVecInt startCfg = some after ∧
        TouchesExactly startCfg { depthByteBurst with addr := 130 } after.addrVec) ↔
      130 % 128 < 64 ∧ 130 % 128 + 1 ≤ 2 ^ 31 :=
  @updateAddrVec_exact_iff startCfg 6 rfl (by decide) rfl _ rfl (by decide) (by decide)

/-- The byte at address 64 costs two requests, and the first one does not touch it. -/
theorem updateAddrVec_surplus : depthByteBurst.updateAddrVecInt startCfg =
      some { depthByteBurst with addrVec := [0, 64] } ∧
    ¬ ∃ after, depthByteBurst.updateAddrVecInt startCfg = some after ∧
      TouchesExactly startCfg depthByteBurst after.addrVec := by
  have split : depthByteBurst.updateAddrVecInt startCfg =
      some { depthByteBurst with addrVec := [0, 64] } := by decide
  refine ⟨split, ?_⟩
  rintro ⟨after, updated, exactly⟩
  obtain rfl := Option.some.inj (split.symm.trans updated)
  exact absurd (exactly.single rfl) (by decide)

/-- Counting, numbering and enumerating agree, the blocks are consecutive and cover the
burst, and all requests are queued. -/
theorem newBurst_covers {k : Nat} (power : cfg.burstLen = 2 ^ k) (narrow : k ≤ cfg.burstAddrWidth)
    (op : BurstOp) (noReqs : op.reqVec = []) (noAddrs : op.addrVec = [])
    (someByte : 1 ≤ op.length) (reqIdx : Nat) :
    ∃ created next, newBurst cfg op reqIdx = some (created, next) ∧
      (created.addrVec.length : Int) = created.getReqNum cfg ∧
      (created.reqVec.length : Int) = created.getReqNum cfg ∧
      1 ≤ created.getReqNum cfg ∧
      (∃ base, cfg.burstLen ∣ base ∧ created.addrVec =
        (List.range created.addrVec.length).map fun i => base + i * cfg.burstLen) ∧
      (∀ x, op.addr ≤ x → x < op.addr + op.length →
        ∃ a ∈ created.addrVec, a ≤ x ∧ x < a + cfg.burstLen) ∧
      ∃ reqs, created.convertToReq cfg = some reqs ∧
        (reqs.length : Int) = created.getReqNum cfg := by
  obtain ⟨someBlock, covered, _⟩ := @getReqNum_spec cfg op someByte
  have nonneg := getReqNum_nonneg cfg op
  have aligned := burstLen_dvd_getAlignedAddr power narrow op
  have created : newBurst cfg op reqIdx = some ({ op with
      reqVec := List.range' reqIdx (op.getReqNum cfg).toNat
      addrVec := (List.range (op.getReqNum cfg).toNat).map fun i =>
        op.getAlignedAddr cfg + i * cfg.burstLen }, reqIdx + (op.getReqNum cfg).toNat) := by
    simp only [newBurst, BurstOp.updateReqVec, noReqs, List.nil_append, Option.bind_eq_bind]
    rw [updateAddrVec_eq _ (by exact noAddrs)]
    rfl
  have counted : ∀ number : Nat, number = (op.getReqNum cfg).toNat → (number : Int) =
      op.getReqNum cfg := by omega
  have wellFormed : BurstOp.WellFormed cfg { op with
      reqVec := List.range' reqIdx (op.getReqNum cfg).toNat
      addrVec := (List.range (op.getReqNum cfg).toNat).map fun i =>
        op.getAlignedAddr cfg + i * cfg.burstLen } :=
    ⟨(List.length_map ..).trans List.length_range, List.length_range'⟩
  refine ⟨_, _, created, counted _ wellFormed.addrs, counted _ wellFormed.reqs, someBlock,
    ⟨_, aligned, by simp⟩, fun x least bound => ?_, ?_⟩
  · have below : op.getAlignedAddr cfg ≤ op.addr := by
      rw [getAlignedAddr_eq]
      exact Nat.mul_div_le _ _
    obtain ⟨divides, inside, touching⟩ : cfg.burstLen ∣ x / cfg.burstLen * cfg.burstLen ∧
        x / cfg.burstLen * cfg.burstLen ≤ x ∧
        x < x / cfg.burstLen * cfg.burstLen + cfg.burstLen :=
      ⟨Nat.dvd_mul_left .., Nat.div_mul_le_self .., Nat.lt_div_mul_add cfg.positive⟩
    obtain ⟨i, bound, same⟩ := mem_of_touches op someByte aligned divides (by omega) (by omega)
    exact ⟨_, List.mem_map.mpr ⟨i, List.mem_range.mpr bound, same⟩, inside, touching⟩
  · obtain ⟨reqs, converted, count, _⟩ := convertToReq_spec wellFormed
    exact ⟨reqs, converted, count⟩

theorem newBurst_covers_depthByte : ∃ created next,
    newBurst startCfg depthByteBurst 0 = some (created, next) ∧
      (created.addrVec.length : Int) = created.getReqNum startCfg ∧
      (created.reqVec.length : Int) = created.getReqNum startCfg ∧
      1 ≤ created.getReqNum startCfg ∧
      (∃ base, startCfg.burstLen ∣ base ∧ created.addrVec =
        (List.range created.addrVec.length).map fun i => base + i * startCfg.burstLen) ∧
      (∀ x, depthByteBurst.addr ≤ x → x < depthByteBurst.addr + depthByteBurst.length →
        ∃ a ∈ created.addrVec, a ≤ x ∧ x < a + startCfg.burstLen) ∧
      ∃ reqs, created.convertToReq startCfg = some reqs ∧
        (reqs.length : Int) = created.getReqNum startCfg :=
  @newBurst_covers startCfg 6 rfl (by decide) depthByteBurst rfl rfl (by decide) 0

end

end GraphAccelerator.Memory
