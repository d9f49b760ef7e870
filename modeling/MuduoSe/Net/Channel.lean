/-
# Channel: the events a descriptor is watched for

`net/Channel.h` and `net/Channel.cc`. `events_` is the poll mask as the `int` of the
source. `upevent()` then hands the channel to the poller, which is not part of this
class.
-/
import MuduoSe.Base.Buffer

namespace MuduoSe

def POLLIN : BitVec 32 := 0x001#32
def POLLPRI : BitVec 32 := 0x002#32
def POLLOUT : BitVec 32 := 0x004#32

structure Channel where
  fd_ : Int
  events_ : BitVec 32
  revents_ : BitVec 32
  index_ : Int
  deriving DecidableEq, Repr

namespace Channel

def kNoEvent : BitVec 32 := 0#32
def kreadEvent : BitVec 32 := POLLIN ||| POLLPRI
def kwriteEvent : BitVec 32 := POLLOUT

/-- `Channel(loop, fds)`. -/
def new (fds : Int) : Channel := ⟨fds, 0#32, 0#32, -1⟩

def enread (c : Channel) : Channel := { c with events_ := c.events_ ||| kreadEvent }
def enwrite (c : Channel) : Channel := { c with events_ := c.events_ ||| kwriteEvent }
def diswrite (c : Channel) : Channel := { c with events_ := c.events_ &&& ~~~kwriteEvent }
def disallevent (c : Channel) : Channel := { c with events_ := kNoEvent }

def isNoEvent (c : Channel) : Bool := c.events_ == kNoEvent
def iswriting (c : Channel) : Bool := c.events_ &&& kwriteEvent != 0#32

@[simp] theorem iswriting_enwrite (c : Channel) : c.enwrite.iswriting = true := by
  have h : (c.events_ ||| kwriteEvent) &&& kwriteEvent = kwriteEvent := by
    ext i hi
    simp only [BitVec.getElem_and, BitVec.getElem_or]
    cases c.events_[i] <;> cases kwriteEvent[i] <;> rfl
  rw [iswriting, enwrite, h]
  decide

@[simp] theorem iswriting_diswrite (c : Channel) : c.diswrite.iswriting = false := by
  have h : ~~~kwriteEvent &&& kwriteEvent = 0#32 := by decide
  rw [iswriting, diswrite, BitVec.and_assoc, h, BitVec.and_zero]
  decide

/-- Watching for reads does not change whether writes are watched. -/
@[simp] theorem iswriting_enread (c : Channel) : c.enread.iswriting = c.iswriting := by
  have h : kreadEvent &&& kwriteEvent = 0#32 := by decide
  have h' : (c.events_ ||| kreadEvent) &&& kwriteEvent = c.events_ &&& kwriteEvent := by
    ext i hi
    have hi' := congrArg (·[i]) h
    simp only [BitVec.getElem_and, BitVec.getElem_or] at hi' ⊢
    revert hi'
    cases c.events_[i] <;> cases kreadEvent[i] <;> cases kwriteEvent[i] <;> simp
  rw [iswriting, enread, h', iswriting]

@[simp] theorem iswriting_new (fds : Int) : (new fds).iswriting = false := by
  simp [iswriting, new]

end Channel
end MuduoSe
