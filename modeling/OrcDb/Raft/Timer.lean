import OrcDb.Raft.Wakeups

/-!
# The election timer

`ElectionLoop` of `src/raft/RaftNode.cpp` with a clock. A round draws a timeout, takes `mu_` and
waits until the last sign of a leader is that old, the node leads, or the timeout has passed
since the wait began. A leader then sleeps until it is deposed. Anybody else reads the clock
once more, and if the silence is long enough gives `mu_` back and calls `StartElection`.

The predicate is tested on entry, when something wakes the thread and at the deadline, not
whenever it becomes true.

Time is a step of its own and may pass at any point, also between the predicate's reading of
the clock and the one after it (`late`). The other threads run their sections as in
`Raft/Section.lean`. A section that calls `ResetElectionTimer`, and the first section of
`StartElection`, store the time in `lastHeartbeat_`.

`running_` is left out: the node is not stopped.
-/

set_option autoImplicit false

namespace OrcDb

open Lib

/-- `config_.electionTimeoutMin` and `config_.electionTimeoutMax`, in milliseconds. -/
structure ElectionTimeouts where
  min : Nat := 150
  max : Nat := 300

/-- Where the thread is in `ElectionLoop`, with the time it came there. -/
inductive ElectionThread where
  /-- Between two rounds. -/
  | top (since : Nat)
  /-- In `wait_for`. -/
  | waiting (timeout deadline : Nat)
  /-- In the `wait` of a leader. -/
  | leading
  /-- Past `lock.unlock()`, in front of the first section of `StartElection`. -/
  | calling (since : Nat)
  | electing (since : Nat)
deriving DecidableEq

/-- The thread runs the sections of `StartElection`, and those only there. -/
def ElectionThread.admits : ElectionThread → Section → Bool
  | .calling _, .startElection _ => true
  | .electing _, .startElection _ => false
  | .electing _, _ => true
  | _, sec => sec.owner ≠ some .election

def ElectionThread.after (th : ElectionThread) (now : Nat) : Section → ElectionThread
  | .startElection _ => .electing now
  | _ => th

/-- The section sets `lastHeartbeat_`. -/
def Section.hears (n : RaftNode) : Section → Bool
  | .startElection _ => true
  | sec => sec.resetsTimer n

structure TimedNode where
  node : RaftNode
  now : Nat := 0
  lastHeartbeat : Nat := 0
  thread : ElectionThread := .top 0

inductive TimerEvent where
  | tick (d : Nat)
  | act (sec : Section)
  /-- A round begins with this timeout. -/
  | enter (timeout late : Nat)
  /-- The thread in `wait_for` runs: notified, at its deadline or for no reason. -/
  | wake (late : Nat)
  | wakeLeading
  /-- `StartElection` has returned. -/
  | back

namespace TimedNode

/-- `elapsed >= timeout`. -/
def Elapsed (s : TimedNode) (timeout : Nat) : Prop := s.lastHeartbeat + timeout ≤ s.now

instance (s : TimedNode) (timeout : Nat) : Decidable (s.Elapsed timeout) :=
  inferInstanceAs (Decidable (_ ≤ _))

/-- The predicate handed to `wait_for`. -/
def Due (s : TimedNode) (timeout : Nat) : Prop := s.Elapsed timeout ∨ s.node.role = .Leader

instance (s : TimedNode) (timeout : Nat) : Decidable (s.Due timeout) :=
  inferInstanceAs (Decidable (_ ∨ _))

/-- What follows the wait, up to the next time `mu_` is free. -/
def afterWait (s : TimedNode) (timeout : Nat) : TimedNode :=
  if s.node.role = .Leader then { s with thread := .leading }
  else if s.Elapsed timeout then { s with thread := .calling s.now }
  else { s with thread := .top s.now }

def step (J : Json.Codec) (cfg : RaftConfig) (T : ElectionTimeouts) (s : TimedNode) :
    TimerEvent → Option TimedNode
  | .tick d => some { s with now := s.now + d }
  | .act sec =>
      if s.thread.admits sec then
        (sec.run J cfg s.node).map fun node =>
          { s with
            node
            lastHeartbeat := if sec.hears s.node then s.now else s.lastHeartbeat
            thread := s.thread.after s.now sec }
      else none
  | .enter timeout late =>
      match s.thread with
      | .top _ =>
          if T.min ≤ timeout ∧ timeout ≤ T.max then
            if s.Due timeout then some (afterWait { s with now := s.now + late } timeout)
            else some { s with thread := .waiting timeout (s.now + timeout) }
          else none
      | _ => none
  | .wake late =>
      match s.thread with
      | .waiting timeout deadline =>
          if s.Due timeout ∨ deadline ≤ s.now then
            some (afterWait { s with now := s.now + late } timeout)
          else some s
      | _ => none
  | .wakeLeading =>
      match s.thread with
      | .leading => if s.node.role = .Leader then some s else some { s with thread := .top s.now }
      | _ => none
  | .back =>
      match s.thread with
      | .electing _ => if s.node.election = none then some { s with thread := .top s.now } else none
      | _ => none

end TimedNode

/-! ## How late a thread may be -/

/-- `lag` bounds how long a thread that could run is kept from running, `mu_` included, and
    `election` how long `StartElection` takes. -/
structure Pace where
  lag : Nat
  election : Nat

/-- The time by which the thread has moved on, if it is to move at all. -/
def TimedNode.limit (p : Pace) (s : TimedNode) : Option Nat :=
  match s.thread with
  | .top since => some (since + p.lag)
  | .waiting _ deadline => some (deadline + p.lag)
  -- a deposed leader was notified when `lastHeartbeat_` was set
  | .leading => if s.node.role = .Leader then none else some (s.lastHeartbeat + p.lag)
  | .calling since => some (since + p.lag)
  | .electing since => some (since + p.election)

/-- Time does not pass the limit. -/
def TimerEvent.Prompt (p : Pace) (s : TimedNode) : TimerEvent → Prop
  | .tick d => ∀ t ∈ s.limit p, s.now + d ≤ t
  | .enter _ late => ∀ t ∈ s.limit p, s.now + late ≤ t
  | .wake late => ∀ t ∈ s.limit p, s.now + late ≤ t
  | _ => True

instance (p : Pace) (s : TimedNode) (ev : TimerEvent) : Decidable (ev.Prompt p s) :=
  match ev with
  | .tick _ => inferInstanceAs (Decidable (∀ t ∈ s.limit p, _))
  | .enter _ _ => inferInstanceAs (Decidable (∀ t ∈ s.limit p, _))
  | .wake _ => inferInstanceAs (Decidable (∀ t ∈ s.limit p, _))
  | .act _ => inferInstanceAs (Decidable True)
  | .wakeLeading => inferInstanceAs (Decidable True)
  | .back => inferInstanceAs (Decidable True)

end OrcDb
