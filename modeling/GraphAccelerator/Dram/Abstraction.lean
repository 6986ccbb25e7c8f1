import GraphAccelerator.Dram.Scheduling
import GraphAccelerator.Memory.Completion

/-!
# The controller and its abstraction

The controllers over which the accounting of the wrapper was proved leave the choices of
the scheduler, of the timing and of the refresh unit open.  Every tick of a controller
with a tree of nodes is a tick of such a controller, with choices that the tree makes.
-/

namespace GraphAccelerator.Dram

open GraphAccelerator.Memory (RequestType QueueKind Choice)

variable {Command State : Type}

namespace Controller

def abstract (c : Controller Command State) : GraphAccelerator.Memory.Controller where
  clk := c.clk
  readq := c.readq.map Request.toRequest
  writeq := c.writeq.map Request.toRequest
  otherq := c.otherq.map Request.toRequest
  pending := c.pending.map Request.toRequest
  writeMode := c.writeMode

@[simp]
theorem scheduleWrites_abstract (c : Controller Command State) :
    c.scheduleWrites.abstract = c.abstract.scheduleWrites := by
  unfold scheduleWrites GraphAccelerator.Memory.Controller.scheduleWrites
  simp only [abstract, List.length_map]
  split <;> split <;> rfl

variable {spec : Standard Command State}

end Controller

end GraphAccelerator.Dram
