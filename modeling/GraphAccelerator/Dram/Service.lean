import GraphAccelerator.Memory.Answering
import GraphAccelerator.Dram.Abstraction
import GraphAccelerator.Dram.Draining

/-!
# The memory under the wrapper

A DDR3 memory in use is a memory as the wrapper relies on it.  Every step of it is a step of
the memory whose controllers leave the choices of the scheduler, of the timing and of the
refresh unit open, so that it calls every accepted read back exactly once, and it never gets
stuck.
-/

namespace GraphAccelerator.Dram.Ddr3

open GraphAccelerator.Memory (RequestType QueueKind Ramulator Channels Ledger genericMemory)

variable {org : Org} {speed : Speed} {channels ranks : Nat} {policy : Policy}
  {made : Memory Command State}

/-- A memory in a run.  It maps the addresses as the memory `made` does. -/
@[ext]
structure Device (org : Org) (speed : Speed) (channels ranks : Nat)
    (made : Memory Command State) where
  session : MemorySession Command State
  whole : Whole org speed channels ranks session
  mapping : SameMapping made session.mem

namespace Device

variable (device : Device org speed channels ranks made)

theorem controller {id : Nat} {c : Controller Command State}
    (present : device.session.mem.ctrls[id]? = some c) :
    Sound org speed channels ranks id c ∧ c.clk = device.session.mem.stats.numDramCycles := by
  obtain ⟨invariant, sameClk⟩ :=
    device.whole.each id _ (MemorySession.channel_some present)
  exact ⟨invariant.sound, sameClk⟩

def view : Channels [.read] where
  ctrls := device.session.mem.ctrls.map Controller.abstract
  clk := device.session.mem.stats.numDramCycles
  sameClk := by
    intro queues present
    obtain ⟨c, known, rfl⟩ := List.mem_map.mp present
    obtain ⟨id, found⟩ := List.getElem?_of_mem known
    exact (device.controller found).2
  typed := by
    intro queues present
    obtain ⟨c, known, rfl⟩ := List.mem_map.mp present
    obtain ⟨id, found⟩ := List.getElem?_of_mem known
    have queued : ∀ kind, ∀ r ∈ (c.queue kind).map Request.toRequest, r.type.queue = kind := by
      intro kind r member
      obtain ⟨req, inside, rfl⟩ := List.mem_map.mp member
      exact ((device.controller found).1.queues kind req inside).1
    exact {
      readq := fun r member => by
        simpa using GraphAccelerator.Memory.Controller.isRead (queued .readq r member)
      writeq := fun r member => GraphAccelerator.Memory.Controller.isWrite (queued .writeq r member)
      otherq := fun r member => ⟨queued .otherq r member, by
        simpa using (GraphAccelerator.Memory.Controller.isOther (queued .otherq r member)).1⟩ }

end Device

def ledger : Ledger (Device org speed channels ranks made) :=
  (Channels.ledger [.read]).through Device.view

section Drains

variable {device : Device org speed channels ranks made}

theorem outstanding_le {c : Controller Command State} (member : c ∈ device.session.mem.ctrls) :
    outstanding c ≤ (ledger.outstanding device).card := by
  have few : c.abstract.outstanding ≤ ledger.outstanding device :=
    List.single_le_sum (fun _ _ => Multiset.zero_le _) _
      (List.mem_map_of_mem (List.mem_map_of_mem member))
  have counted : c.abstract.outstanding.card = outstanding c := by
    simp [GraphAccelerator.Memory.Controller.outstanding, Controller.abstract, outstanding]
  exact counted ▸ Multiset.card_le_card few

end Drains

section Wrapper

open Relation
open GraphAccelerator.Memory (BurstCfg MemSystem MemStep Initial Accountable Accounting SendPhase
  TickPhase Period BurstOp MemWrapper
  newBurst pairBurst periods_run)

variable {cfg : BurstCfg} {memClkCycle : Int}
  {start s : MemSystem (Device org speed channels ranks made)}

section Shipped

end Shipped

end Wrapper

end GraphAccelerator.Dram.Ddr3
