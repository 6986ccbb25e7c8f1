import Mathlib.Algebra.BigOperators.Group.Finset.Piecewise
import Mathlib.Algebra.Order.BigOperators.Group.Finset
import GraphAccelerator.Memory.Accounting

/-!
# The logs of the wrapper

`completed` and `copied` are what a run has done.  The first is what was pushed to the
response queues: a burst of this log waits in the queue of its port or was answered, and
nothing else is there.  The second is the order in which bytes were moved: the memory image
is what the bursts of this log leave when they are carried out one after the other, and a
read burst holds what it finds at its place in this order.
-/

namespace GraphAccelerator.Memory

open CheckedLoop

section Frames

variable {Mem : Type} {cfg : BurstCfg} {w after : MemWrapper} {memClkCycle : Int}

theorem getBurstReq_frame {burstReq : Port → Option Nat}
    (ran : w.getBurstReq cfg burstReq = some after) :
    ∃ burstReqQueue totalReqNum processedReqNum reqQueue received converted, after = { w with
      burstReqQueue, totalReqNum, processedReqNum, reqQueue, received, converted } := by
  refine foldlM_invariant (fun _ next => ∃ burstReqQueue totalReqNum processedReqNum reqQueue
    received converted, next = { w with
      burstReqQueue, totalReqNum, processedReqNum, reqQueue, received, converted })
    ran ⟨_, _, _, _, _, _, rfl⟩ ?_
  rintro _ i _ before next _ ⟨_, _, _, _, _, _, rfl⟩ stepped
  unfold MemWrapper.getBurstReqPort at stepped
  cases arrives : burstReq i with
  | none =>
      rw [arrives] at stepped
      obtain rfl := Option.some.inj stepped
      exact ⟨_, _, _, _, _, _, rfl⟩
  | some idx =>
      rw [arrives] at stepped
      simp only [Option.bind_eq_bind, Option.bind_eq_some_iff] at stepped
      obtain ⟨_, _, _, _, stepped⟩ := stepped
      obtain rfl := Option.some.inj stepped
      exact ⟨_, _, _, _, _, _, rfl⟩

theorem SendPhase.keeps {ram : Ramulator Mem} {now : Int} {s next : MemSystem Mem}
    (phase : SendPhase ram now s next) {kept : MemWrapper → Prop} (holds : kept s.w)
    (queued : ∀ w reqQueue, kept w → kept { w with reqQueue })
    (counted : ∀ w udf after, MemWrapper.account udf w = some after → kept w → kept after) :
    kept next.w := by
  have fetched : kept (getMemReq now s).w := by
    unfold getMemReq
    split
    · exact holds
    · split
      · exact holds
      · exact queued _ _ holds
  cases phase with
  | idle _ => exact fetched
  | send _ _ outcome =>
      rcases afterSend_cases outcome with ⟨_, rfl⟩ | ⟨_, _, w, accounted, rfl⟩ | ⟨_, _, rfl⟩
      · exact fetched
      · exact counted _ _ _ accounted fetched
      · exact fetched

theorem TickPhase.keeps {ram : Ramulator Mem} {s next : MemSystem Mem}
    (phase : TickPhase ram memClkCycle s next) {kept : MemWrapper → Prop} (holds : kept s.w)
    (counted : ∀ w udf after, MemWrapper.account udf w = some after → kept w → kept after) :
    kept next.w := by
  cases phase with
  | tick _ ran =>
      exact foldlM_invariant (fun _ => kept) ran holds
        fun _ _ _ _ _ _ before stepped => counted _ _ _ stepped before

end Frames

section Responses

variable {Mem : Type} {cfg : BurstCfg} {w after : MemWrapper} {memClkCycle : Int}

/-- What was pushed to the response queues waits there or was answered. -/
structure Logged (w : MemWrapper) : Prop where
  pushed : ((w.completed.map (·.2) : List Nat) : Multiset Nat) =
    (∑ i, (w.burstRespQueue i : Multiset Nat)) + (w.copied : Multiset Nat)
  onPort : ∀ i, ∀ idx ∈ w.burstRespQueue i, (i, idx) ∈ w.completed

theorem sum_queues_update (queues : Port → List Nat) (i : Port) (queue : List Nat) :
    (∑ j, (Function.update queues i queue j : Multiset Nat)) + (queues i : Multiset Nat) =
      (∑ j, (queues j : Multiset Nat)) + (queue : Multiset Nat) := by
  have replaced : (fun j => (Function.update queues i queue j : Multiset Nat)) =
      Function.update (fun j => (queues j : Multiset Nat)) i (queue : Multiset Nat) := by
    funext j
    exact Function.apply_update (fun _ => Multiset.ofList) queues i queue j
  rw [replaced, Finset.sum_update_of_mem (Finset.mem_univ i), Finset.sdiff_singleton_eq_erase,
    ← Finset.add_sum_erase _ (fun j => (queues j : Multiset Nat)) (Finset.mem_univ i)]
  ac_rfl

theorem Logged.account {udf : UDF} (logged : Logged w) (accounted : w.account udf = some after) :
    Logged after := by
  obtain ⟨_, _, _, _, ⟨_, _, rfl⟩ | ⟨_, _, rfl⟩⟩ := account_cases accounted
  · refine ⟨?_, fun i idx waiting => ?_⟩
    · have queues := sum_queues_update w.burstRespQueue udf.portIdx
        (w.burstRespQueue udf.portIdx ++ [udf.burstIdx])
      rw [← Multiset.coe_add, ← add_assoc, add_right_comm, add_left_inj] at queues
      show ((w.completed ++ [(udf.portIdx, udf.burstIdx)]).map (·.2) : Multiset Nat) = _
      rw [List.map_append, ← Multiset.coe_add, logged.pushed, queues]
      exact add_right_comm _ _ _
    · dsimp only at waiting
      by_cases same : i = udf.portIdx
      · subst same
        rw [Function.update_self, List.mem_append] at waiting
        rcases waiting with earlier | new
        · exact List.mem_append_left _ (logged.onPort _ idx earlier)
        · rw [List.mem_singleton.mp new]
          exact List.mem_append_right _ (List.mem_singleton_self _)
      · rw [Function.update_of_ne same] at waiting
        exact List.mem_append_left _ (logged.onPort i idx waiting)
  · exact ⟨logged.pushed, logged.onPort⟩

theorem Logged.sendBurstRespPort {now : Int} {i : Port} {written : Option (Option Nat)}
    (logged : Logged w) (ran : w.sendBurstRespPort now i = some (after, written)) :
    Logged after := by
  rcases sendBurstRespPort_cases ran with ⟨rfl, _⟩ | ⟨idx, _, _, _, waits, _, _, answer, _⟩ |
    ⟨_, _, _, _, _, _, _, rfl, _⟩
  · exact logged
  · obtain ⟨_, _, _, _, _, rfl⟩ := answer_cases answer
    refine ⟨?_, fun j other waiting => ?_⟩
    · have queues := sum_queues_update w.burstRespQueue i ((w.burstRespQueue i).erase idx)
      have waiting : (w.burstRespQueue i : Multiset Nat) =
          ((w.burstRespQueue i).erase idx : Multiset Nat) + ([idx] : List Nat) := by
        rw [← Multiset.coe_erase, Multiset.coe_singleton, Multiset.add_comm, Multiset.singleton_add,
          Multiset.cons_erase (Multiset.mem_coe.mpr waits)]
      rw [waiting, ← add_assoc, add_right_comm, add_left_inj] at queues
      show (w.completed.map (·.2) : Multiset Nat) = _ + ((w.copied ++ [idx] : List Nat) : Multiset Nat)
      rw [logged.pushed, ← Multiset.coe_add, ← queues, add_assoc, add_comm ([idx] : Multiset Nat)]
    · dsimp only at waiting
      by_cases same : j = i
      · subst same
        rw [Function.update_self] at waiting
        exact logged.onPort j other (List.mem_of_mem_erase waiting)
      · rw [Function.update_of_ne same] at waiting
        exact logged.onPort j other waiting
  · exact logged

theorem Logged.waiting (logged : Logged w) (tallied : Tallied w) (i : Port) :
    (w.burstRespQueue i).Nodup ∧
      ∀ idx, idx ∈ w.burstRespQueue i ↔ (i, idx) ∈ w.completed ∧ idx ∉ w.copied := by
  have apart : ∀ {i j idx}, (i, idx) ∈ w.completed → (j, idx) ∈ w.completed → i = j :=
    fun one other => OnPort.unique ((tallied.completed _ _).mp one).2
      ((tallied.completed _ _).mp other).2
  have once : ((w.completed.map (·.2) : List Nat) : Multiset Nat).Nodup := by
    refine Multiset.coe_nodup.mpr (List.Nodup.map_on ?_ tallied.once)
    rintro ⟨i, idx⟩ one ⟨j, _⟩ other rfl
    rw [apart one other]
  have pushed := logged.pushed
  rw [pushed, Multiset.nodup_add] at once
  obtain ⟨queues, _, disjoint⟩ := once
  have inside : (w.burstRespQueue i : Multiset Nat) ≤ ∑ j, (w.burstRespQueue j : Multiset Nat) :=
    Finset.single_le_sum (fun _ _ => Multiset.zero_le _) (Finset.mem_univ i)
  refine ⟨Multiset.coe_nodup.mp (Multiset.nodup_of_le inside queues), fun idx => ?_⟩
  constructor
  · intro waiting
    exact ⟨logged.onPort i idx waiting, fun copied => Multiset.disjoint_left.mp disjoint
      (Multiset.mem_of_le inside (Multiset.mem_coe.mpr waiting)) (Multiset.mem_coe.mpr copied)⟩
  · rintro ⟨completed, notCopied⟩
    have somewhere : idx ∈ ((w.completed.map (·.2) : List Nat) : Multiset Nat) :=
      Multiset.mem_coe.mpr (List.mem_map_of_mem completed)
    rw [pushed, Multiset.mem_add] at somewhere
    obtain ⟨j, _, waiting⟩ := Multiset.mem_sum.mp
      (somewhere.resolve_right fun copied => notCopied (Multiset.mem_coe.mp copied))
    rw [apart completed (logged.onPort j idx waiting)]
    exact waiting

theorem Logged.completed_of_copied (logged : Logged w) {idx : Nat} (copied : idx ∈ w.copied) :
    ∃ i, (i, idx) ∈ w.completed := by
  have known : idx ∈ ((w.completed.map (·.2) : List Nat) : Multiset Nat) := by
    rw [logged.pushed]
    exact Multiset.mem_add.mpr (.inr copied)
  obtain ⟨⟨i, _⟩, completed, rfl⟩ := List.mem_map.mp (Multiset.mem_coe.mp known)
  exact ⟨i, completed⟩

variable {ram : Ramulator Mem} {s next : MemSystem Mem}

theorem Logged.step (logged : Logged s.w) (stepped : MemStep cfg ram memClkCycle s next) :
    Logged next.w := by
  cases stepped with
  | create _ _ _ _ _ => exact ⟨logged.pushed, logged.onPort⟩
  | getBurstReq _ ran =>
      obtain ⟨_, _, _, _, _, _, rfl⟩ := getBurstReq_frame ran
      exact ⟨logged.pushed, logged.onPort⟩
  | sendBurstResp ran => exact logged.sendBurstRespPort ran
  | send phase =>
      exact phase.keeps logged (fun _ _ logged => ⟨logged.pushed, logged.onPort⟩)
        fun _ _ _ accounted logged => logged.account accounted
  | tick phase => exact phase.keeps logged fun _ _ _ accounted logged => logged.account accounted

theorem MemStep.logs (stepped : MemStep cfg ram memClkCycle s next) :
    s.w.completed <+: next.w.completed ∧ s.w.copied <+: next.w.copied ∧
      (next.w.completed = s.w.completed ∨ next.w.copied = s.w.copied) := by
  have counts : ∀ w udf after, MemWrapper.account udf w = some after →
      s.w.completed <+: w.completed ∧ w.copied = s.w.copied →
      s.w.completed <+: after.completed ∧ after.copied = s.w.copied := by
    rintro w udf after accounted ⟨grown, same⟩
    obtain ⟨_, _, _, _, ⟨_, _, rfl⟩ | ⟨_, _, rfl⟩⟩ := account_cases accounted
    · exact ⟨grown.trans (List.prefix_append _ _), same⟩
    · exact ⟨grown, same⟩
  have completes : s.w.completed <+: next.w.completed ∧ next.w.copied = s.w.copied →
      s.w.completed <+: next.w.completed ∧ s.w.copied <+: next.w.copied ∧
        (next.w.completed = s.w.completed ∨ next.w.copied = s.w.copied) :=
    fun ⟨grown, same⟩ => ⟨grown, same ▸ List.prefix_refl _, .inr same⟩
  cases stepped with
  | create _ _ _ _ _ => exact ⟨List.prefix_refl _, List.prefix_refl _, .inl rfl⟩
  | getBurstReq _ ran =>
      obtain ⟨_, _, _, _, _, _, rfl⟩ := getBurstReq_frame ran
      exact ⟨List.prefix_refl _, List.prefix_refl _, .inl rfl⟩
  | sendBurstResp ran =>
      rcases sendBurstRespPort_cases ran with ⟨rfl, _⟩ | ⟨_, _, _, _, _, _, _, answer, _⟩ |
        ⟨_, _, _, _, _, _, _, rfl, _⟩
      · exact ⟨List.prefix_refl _, List.prefix_refl _, .inl rfl⟩
      · obtain ⟨_, _, _, _, _, rfl⟩ := answer_cases answer
        exact ⟨List.prefix_refl _, List.prefix_append _ _, .inl rfl⟩
      · exact ⟨List.prefix_refl _, List.prefix_refl _, .inl rfl⟩
  | send phase =>
      exact completes (phase.keeps ⟨List.prefix_refl _, rfl⟩ (fun _ _ => id) counts)
  | tick phase => exact completes (phase.keeps ⟨List.prefix_refl _, rfl⟩ counts)

/-- A burst enters a response queue in the step that logs its completion. -/
theorem Logged.enters (logged : Logged s.w) (tallied : Tallied s.w) (nextTallied : Tallied next.w)
    (stepped : MemStep cfg ram memClkCycle s next) (i : Port) (idx : Nat) :
    (idx ∈ next.w.burstRespQueue i ∧ idx ∉ s.w.burstRespQueue i) ↔
      ((i, idx) ∈ next.w.completed ∧ (i, idx) ∉ s.w.completed) := by
  obtain ⟨completedGrows, copiedGrows, one⟩ := stepped.logs
  rw [((logged.step stepped).waiting nextTallied i).2, (logged.waiting tallied i).2]
  constructor
  · rintro ⟨⟨completed, notCopied⟩, notWaiting⟩
    exact ⟨completed, fun before => notWaiting ⟨before, fun copied =>
      notCopied (copiedGrows.subset copied)⟩⟩
  · rintro ⟨completed, fresh⟩
    refine ⟨⟨completed, fun copied => ?_⟩, fun before => fresh before.1⟩
    rcases one with same | same
    · exact fresh (same ▸ completed)
    · obtain ⟨j, before⟩ := logged.completed_of_copied (same ▸ copied)
      obtain rfl := OnPort.unique ((nextTallied.completed _ _).mp (completedGrows.subset before)).2
        ((nextTallied.completed _ _).mp completed).2
      exact fresh before

end Responses

section Copies

variable {w after : MemWrapper} {image : List Byte}

def BurstOp.serve (op : BurstOp) (image : List Byte) : Option (List Byte) :=
  if op.type = .write then op.reqToRam image
  else do
    let bytes ← (List.range op.length).mapM fun i => image[op.addr + i]?
    if bytes <:+ op.data then some image else none

def serveBurst (bursts : List BurstOp) (image : List Byte) (idx : Nat) : Option (List Byte) := do
  (← bursts[idx]?).serve image

/-- The image is what the bursts of the log make of the first one, in their order. -/
def Serial (image : List Byte) (w : MemWrapper) : Prop :=
  w.copied.foldlM (serveBurst w.bursts) image = some w.ramData

def BurstOp.content (op : BurstOp) : BurstOp := { op.shape with data := op.data }

theorem serve_content {op other : BurstOp} (same : other.content = op.content) :
    other.serve image = op.serve image := by
  show other.content.serve image = op.content.serve image
  rw [same]

theorem Serial.frame (serial : Serial image w) (copied : after.copied = w.copied)
    (ramData : after.ramData = w.ramData)
    (kept : ∀ idx ∈ w.copied, ∀ op, w.bursts[idx]? = some op →
      ∃ other, after.bursts[idx]? = some other ∧ other.content = op.content) :
    Serial image after := by
  obtain ⟨final, served, rfl⟩ := foldlM_simulation (serveBurst after.bursts)
    (serveBurst w.bursts) (fun _ image other => image = other) w.copied rfl (by
      rintro done idx rest image _ next split rfl served
      rw [serveBurst, Option.bind_eq_bind, Option.bind_eq_some_iff] at served
      obtain ⟨op, present, served⟩ := served
      obtain ⟨other, found, same⟩ := kept idx (by simp [split]) op present
      refine ⟨next, ?_, rfl⟩
      rw [serveBurst, found, ← served]
      exact serve_content same) serial
  rw [Serial, copied, ramData]
  exact served

theorem serve_copied {op copied : BurstOp} {ramData : List Byte}
    (moved : op.type = .write ∧ copied = op ∧ op.reqToRam image = some ramData ∨
      op.type ≠ .write ∧ op.ramToReq image = some copied ∧ ramData = image) :
    copied.serve image = some ramData := by
  rcases moved with ⟨isWrite, rfl, written⟩ | ⟨isRead, read, rfl⟩
  · rw [BurstOp.serve, if_pos isWrite, written]
  · rw [BurstOp.ramToReq, Option.bind_eq_bind, Option.bind_eq_some_iff] at read
    obtain ⟨bytes, found, read⟩ := read
    obtain rfl := Option.some.inj read
    rw [BurstOp.serve, if_neg isRead, found]
    exact if_pos (List.suffix_append _ _)

theorem Serial.answer {i : Port} {idx : Nat} {op : BurstOp} (serial : Serial image w)
    (fresh : idx ∉ w.copied) (present : w.bursts[idx]? = some op)
    (answered : w.answer i idx op = some after) : Serial image after := by
  obtain ⟨copied, ramData, _, _, moved, rfl⟩ := answer_cases answered
  have bound := (List.getElem?_eq_some_iff.mp present).1
  have before : Serial image { w with bursts := w.bursts.set idx copied } := by
    refine serial.frame rfl rfl fun other earlier op present => ⟨op, ?_, rfl⟩
    rw [List.getElem?_set_ne (by rintro rfl; exact fresh earlier), present]
  rw [Serial] at before ⊢
  have last : serveBurst (w.bursts.set idx copied) w.ramData idx = some ramData := by
    rw [serveBurst, List.getElem?_set_self bound]
    exact serve_copied moved
  rw [List.foldlM_append, before, Option.bind_eq_bind, Option.bind_some, List.foldlM_cons, last]
  rfl

/-- Changing the bursts that were not answered, and the time stamps of the others. -/
theorem Serial.set {idx : Nat} {op other : BurstOp} (serial : Serial image w)
    (present : w.bursts[idx]? = some op) (shape : other.shape = op.shape)
    (data : idx ∈ w.copied → other.data = op.data) :
    Serial image { w with bursts := w.bursts.set idx other } := by
  refine serial.frame rfl rfl fun k earlier old found => ?_
  by_cases same : k = idx
  · subst same
    refine ⟨other, List.getElem?_set_self (List.getElem?_eq_some_iff.mp present).1, ?_⟩
    obtain rfl := Option.some.inj (present.symm.trans found)
    rw [BurstOp.content, shape, data earlier, BurstOp.content]
  · exact ⟨old, by rw [List.getElem?_set_ne (Ne.symm same), found], rfl⟩

theorem Serial.account {udf : UDF} (serial : Serial image w)
    (accounted : w.account udf = some after) : Serial image after := by
  simp only [MemWrapper.account, Option.bind_eq_bind, Option.bind_eq_some_iff] at accounted
  obtain ⟨op, present, accounted⟩ := accounted
  split at accounted <;> obtain rfl := Option.some.inj accounted
  · exact serial.set present rfl fun _ => rfl
  · exact serial.set present rfl fun _ => rfl

end Copies

end GraphAccelerator.Memory
