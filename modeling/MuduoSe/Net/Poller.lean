/-
# Poller: what an event loop watches its channels with

`net/Poller.h`: the abstract class with `upChannel` and `removeChannel`, and the calls of a
channel (`net/Channel.h`) that reach it through its loop. A `Channel*` is a value of `ι`;
`Polled` is a poller and the channels it is used with, which both functions write.

`Interest` says what a poller is for: the channels that were handed to it and not removed
since, each with the events it is to be watched for.

Key definitions: `Change`, `PollerCall`, `Poller.call`, `Interest.step`, `Interest.watched`.
-/
import MuduoSe.Net.Channel
import Mathlib.Logic.Function.Basic
import Mathlib.Data.Set.Basic

namespace MuduoSe

/-- The calls of a channel that end in `upevent()`. -/
inductive Change
  | enread
  | enwrite
  | diswrite
  | disallevent
  deriving DecidableEq, Repr

namespace Change

/-- What a call does to `events_`. -/
def mask (ch : Change) (events : BitVec 32) : BitVec 32 :=
  match ch with
  | .enread => events ||| Channel.kreadEvent
  | .enwrite => events ||| Channel.kwriteEvent
  | .diswrite => events &&& ~~~Channel.kwriteEvent
  | .disallevent => Channel.kNoEvent

/-- What a call does to its channel, before `upevent()`. -/
def apply (ch : Change) (c : Channel) : Channel :=
  match ch with
  | .enread => c.enread
  | .enwrite => c.enwrite
  | .diswrite => c.diswrite
  | .disallevent => c.disallevent

theorem apply_eq (ch : Change) (c : Channel) : ch.apply c = { c with events_ := ch.mask c.events_ } := by
  cases ch <;> rfl

end Change

/-- The calls of a channel that reach the poller. -/
inductive PollerCall (ι : Type)
  | upevent (ch : Change) (c : ι)
  | remove (c : ι)
  deriving DecidableEq, Repr

/-- A poller of type `ρ` and the channels it is used with. -/
structure Polled (ρ ι : Type) where
  channel : ι → Channel
  poller : ρ

namespace Polled

variable {ρ ι : Type} [DecidableEq ι]

/-- The channels before their first call: one for each descriptor. -/
def start (fd : ι → ℤ) (p : ρ) : Polled ρ ι := ⟨fun c => Channel.new (fd c), p⟩

/-- `c->setindex(ind)`. -/
def setindex (s : Polled ρ ι) (c : ι) (ind : ℤ) : Polled ρ ι :=
  { s with channel := Function.update s.channel c { s.channel c with index_ := ind } }

/-- `c->set_revents(revt)`. -/
def set_revents (s : Polled ρ ι) (c : ι) (revt : BitVec 32) : Polled ρ ι :=
  { s with channel := Function.update s.channel c { s.channel c with revents_ := revt } }

theorem set_revents_channel (s : Polled ρ ι) (c d : ι) (r : BitVec 32) :
    (s.set_revents c r).channel d =
      { s.channel d with revents_ := if d = c then r else (s.channel d).revents_ } := by
  unfold set_revents
  by_cases hd : d = c
  · subst hd; simp
  · simp [hd]

/-- A change of a channel's mask, before `upevent()`. -/
def change (s : Polled ρ ι) (ch : Change) (c : ι) : Polled ρ ι :=
  { s with channel := Function.update s.channel c (ch.apply (s.channel c)) }

end Polled

/-- The virtual functions of `Poller`. -/
structure Poller (ρ ι : Type) where
  upChannel : Polled ρ ι → ι → Res (Polled ρ ι)
  removeChannel : Polled ρ ι → ι → Res (Polled ρ ι)

/-- A call of a channel, up to and including what its poller does. -/
def Poller.call {ρ ι : Type} [DecidableEq ι] (P : Poller ρ ι) (s : Polled ρ ι) :
    PollerCall ι → Res (Polled ρ ι)
  | .upevent ch c => P.upChannel (s.change ch c) c
  | .remove c => P.removeChannel s c

/-! ### What a poller is for -/

/-- The registered channels and the events of every channel. -/
structure Interest (ι : Type) where
  registered : ι → Bool
  events : ι → BitVec 32

namespace Interest

variable {ι : Type}

def empty : Interest ι := ⟨fun _ => false, fun _ => 0#32⟩

/-- The pairs of a descriptor and a mask that are to be watched. -/
def watched (s : Interest ι) (fd : ι → ℤ) : Set (ℤ × BitVec 32) :=
  {p | ∃ c, s.registered c = true ∧ s.events c ≠ 0#32 ∧ p = (fd c, s.events c)}

variable [DecidableEq ι]

def step (s : Interest ι) : PollerCall ι → Interest ι
  | .upevent ch c => ⟨Function.update s.registered c true, Function.update s.events c (ch.mask (s.events c))⟩
  | .remove c => ⟨Function.update s.registered c false, s.events⟩

end Interest
end MuduoSe
