import Concord.Universe.Worker

/-!
A backend and the workers that observe it, in pools of one kind each. Workers act only while
whoever drives them waits: then every worker that was woken runs, in the order in which they were
woken, until it has nothing to do. A worker handles what it was told before it retries, and
retries before it takes changes. Times are whole milliseconds.
-/

namespace Concord

/-- What a worker may be told. -/
inductive WorkerCommand where
  /-- To apply what is queued. -/
  | settle
  /-- To rebuild its tree. -/
  | reset
deriving DecidableEq, Repr

/-- A worker in its pool: what it was told and has not done yet, each with a number to reply to,
and the replies that it gave. There is no worker any more where it broke down; what it showed last
is kept. -/
structure Slot where
  worker : Worker
  alive : Bool := true
  started : Bool := false
  stopping : Bool := false
  inbox : List (Nat × WorkerCommand) := []
  replies : List (Nat × Except BackendError Unit) := []

namespace Slot

/-- The slot with a reply to a command. -/
def reply (s : Slot) (ticket : Nat) (result : Except BackendError Unit) : Slot :=
  { s with replies := s.replies ++ [(ticket, result)] }

/-- The slot of a worker that is gone. -/
def lose (s : Slot) : Slot :=
  { s with alive := false, inbox := [] }

/-- The slot after an attempt to hydrate. -/
def afterAttempt (s : Slot) : Option Worker → Slot
  | some worker => { s with worker }
  | none => s.lose

/-- Carries a command out. -/
def obey [Backend β] (s : Slot) (ticket : Nat) (command : WorkerCommand) (b : β) : Slot × β :=
  match command with
  | .settle =>
      let (worker, b) := s.worker.drain (s.worker.queued b) b
      ({ s with worker }.reply ticket (.ok ()), b)
  | .reset =>
      match s.worker.hydrate b with
      | (.fresh worker, b) => ({ s with worker }.reply ticket (.ok ()), b)
      | (.refused e, b) => (s.reply ticket (.error e), b)
      | (.lost, b) => (s.lose, b)

/-- The next thing that a worker does at `now`, if there is any. -/
def turn [Backend β] (s : Slot) (now : Nat) (b : β) : Option (Slot × β) :=
  if !s.alive then none
  else if !s.started then
    let (worker, b) := s.worker.tryHydrate 0 now b
    some ({ s with started := true }.afterAttempt worker, b)
  else if s.stopping then some (s.lose, s.worker.hangUp b)
  else
    match s.inbox with
    | (ticket, command) :: inbox => some ({ s with inbox }.obey ticket command b)
    | [] =>
        match s.worker.retry.filter fun r => r.due ≤ now with
        | some retry =>
            let (worker, b) := s.worker.tryHydrate retry.attempt now b
            some (s.afterAttempt worker, b)
        | none =>
            match s.worker.stream with
            | none => none
            | some stream =>
                match Backend.receive stream b with
                | (.event e, b) => some ({ s with worker := s.worker.apply e }, b)
                | (.ended, b) =>
                    let (worker, b) := s.worker.streamEnded now b
                    some ({ s with worker }, b)
                | (.waiting, _) => none

/-- Takes turns until there is nothing to do, but no more than a number of them. -/
def run [Backend β] (now : Nat) : Nat → Slot → β → Slot × β
  | 0, s, b => (s, b)
  | fuel + 1, s, b =>
      match s.turn now b with
      | some (s, b) => run now fuel s b
      | none => (s, b)

/-- The most turns that a worker can take: one for every command and every change, and those of
starting and stopping, of a stream that ends, and of the retry after that. -/
def maxTurns [Backend β] (s : Slot) (b : β) : Nat :=
  s.inbox.length + s.worker.queued b + 5

end Slot

/-- A backend, the workers that observe it in the order of their roots, those that were woken, the
order in which workers came to rest last, and the time. -/
structure Site (β : Type) where
  backend : β
  slots : List Slot := []
  woken : List (TreeKind × String) := []
  rested : List (TreeKind × String) := []
  now : Nat := 0
  nextTicket : Nat := 0

namespace Site

/-- The slot of a root in the pool of a kind. -/
def slot? (s : Site β) (kind : TreeKind) (root : String) : Option Slot :=
  s.slots.find? fun slot => slot.worker.kind = kind && slot.worker.root = root

/-- The slots in the pool of a kind, in the order of their roots. -/
def pool (s : Site β) (kind : TreeKind) : List Slot :=
  s.slots.filter fun slot => slot.worker.kind = kind

/-- Puts a slot in the place of the one for the same root and kind. -/
def setSlot (s : Site β) (slot : Slot) : Site β :=
  { s with
    slots := s.slots.map fun old =>
      if old.worker.kind = slot.worker.kind && old.worker.root = slot.worker.root then slot
      else old }

/-- Wakes the worker of a root, unless it was woken already. -/
def wake (s : Site β) (kind : TreeKind) (root : String) : Site β :=
  if s.woken.contains (kind, root) then s else { s with woken := s.woken ++ [(kind, root)] }

/-- Runs the worker of a root until it has nothing to do. -/
def runSlot [Backend β] (s : Site β) (id : TreeKind × String) : Site β :=
  match s.slot? id.1 id.2 with
  | none => s
  | some slot =>
      let (slot, backend) := slot.run s.now (slot.maxTurns s.backend) s.backend
      { s.setSlot slot with backend, rested := s.rested.filter (· ≠ id) ++ [id] }

/-- Waits until no worker has anything to do: those that were woken run. -/
def rest [Backend β] (s : Site β) : Site β :=
  s.woken.foldl runSlot { s with woken := [] }

/-- Wakes the workers that listen to changes of a root. -/
def wakeListeners (s : Site β) (root : String) : Site β :=
  (s.slots.filter fun slot => slot.worker.root = root && slot.worker.stream.isSome).foldl
    (fun s slot => s.wake slot.worker.kind root) s

/-- Wakes all workers. -/
def wakeAll (s : Site β) : Site β :=
  s.slots.foldl (fun s slot => s.wake slot.worker.kind slot.worker.root) s

/-- When the next retry of any worker is due. -/
def nextRetry? (s : Site β) : Option Nat :=
  (s.slots.filterMap fun slot =>
    if slot.alive then slot.worker.retry.map Retry.due else none).min?

/-- Whether the retry of a worker is due. -/
def isDue (s : Site β) (id : TreeKind × String) : Bool :=
  (s.slot? id.1 id.2).any fun slot =>
    slot.alive && slot.worker.retry.any fun r => r.due ≤ s.now

/-- Wakes the workers whose retry is due, in the order in which they came to rest. -/
def wakeDue (s : Site β) : Site β :=
  (s.rested.filter s.isDue).foldl (fun s id => s.wake id.1 id.2) s

/-- Lets time pass up to an instant, from one retry to the next, but no more than a number of
them. Workers whose retry is due at that instant are woken, and run when someone waits again. -/
def sleepUntil [Backend β] (target : Nat) : Nat → Site β → Site β
  | 0, s => { s with now := target }
  | fuel + 1, s =>
      let s := s.rest
      match s.nextRetry? with
      | some due =>
          if due < target then
            sleepUntil target fuel ({ s with now := max s.now due }).wakeDue
          else ({ s with now := target }).wakeDue
      | none => { s with now := target }

/-- Lets a number of milliseconds pass. No worker retries twice within the base delay, and a pause
of no time is no wait. -/
def sleep [Backend β] (s : Site β) (millis : Nat) : Site β :=
  if millis = 0 then s
  else
    let pause := pauseOf millis
    let retries := pause / Worker.baseBackoff.millis + 2
    sleepUntil (s.now + pause) ((s.slots.length + 1) * retries) s

/-- Tells the worker of a root something. A worker that is gone cannot be told anything. -/
def tell (s : Site β) (slot : Slot) (command : WorkerCommand) : Site β :=
  if slot.alive then
    ({ s.setSlot { slot with inbox := slot.inbox ++ [(s.nextTicket, command)] } with
      nextTicket := s.nextTicket + 1 }).wake slot.worker.kind slot.worker.root
  else { s with nextTicket := s.nextTicket + 1 }

/-- The reply of the worker of a root: none if it has yet to reply, and an error if it is gone. -/
def replyOf? (s : Site β) (kind : TreeKind) (root : String) (ticket : Nat)
    : Option (Except BackendError Unit) :=
  match s.slot? kind root with
  | none => some (.error (.workerStopped root))
  | some slot =>
      match slot.replies.lookup ticket with
      | some result => some result
      | none => if slot.alive then none else some (.error (.workerStopped root))

/-- Waits for replies one after the other, up to the first that is an error. -/
def await [Backend β] (kind : TreeKind) : List (String × Nat) → Site β
    → Except BackendError Unit × Site β
  | [], s => (.ok (), s)
  | (root, ticket) :: others, s =>
      let (reply, s) :=
        match s.replyOf? kind root ticket with
        | some reply => (reply, s)
        | none =>
            let s := s.rest
            ((s.replyOf? kind root ticket).getD (.error (.workerStopped root)), s)
      match reply with
      | .ok _ => await kind others s
      | .error e => (.error e, s)

/-- Tells the workers of some slots something: the numbers to reply to, and the site. -/
def tellAll (s : Site β) (command : WorkerCommand) (slots : List Slot)
    : List (String × Nat) × Site β :=
  slots.foldl
    (fun (tickets, s) slot =>
      (tickets ++ [(slot.worker.root, s.nextTicket)], s.tell slot command))
    ([], s)

/-- Waits until every worker of a pool has applied what is queued. -/
def settle [Backend β] (s : Site β) (kind : TreeKind) : Except BackendError Unit × Site β :=
  let (tickets, s) := s.tellAll .settle (s.pool kind)
  s.await kind tickets

/-- Has the trees of some roots rebuilt. Roots that are not served, or whose worker is gone, are
left out. -/
def reset [Backend β] (s : Site β) (kind : TreeKind) (roots : List String)
    : Except BackendError Unit × Site β :=
  let slots := roots.filterMap fun root => (s.slot? kind root).filter Slot.alive
  let (tickets, s) := s.tellAll .reset slots
  s.await kind tickets

/-- Stops the worker of a root and waits until it is gone. A worker that has not started yet does so
before it sees that it is to stop. -/
def stop [Backend β] (kind : TreeKind) (s : Site β) (root : String) : Site β :=
  let s :=
    match (s.slot? kind root).filter Slot.alive with
    | some slot => ((s.setSlot { slot with stopping := true }).wake kind root).rest
    | none => s
  { s with
    slots := s.slots.filter fun slot => !(slot.worker.kind = kind && slot.worker.root = root) }

/-- Whether a slot comes before the one of a root and kind. -/
def precedes (slot : Slot) (root : String) : Bool :=
  compare slot.worker.root root = .lt

/-- Starts a worker for a root, which runs as soon as someone waits. -/
def start (s : Site β) (kind : TreeKind) (root : String) : Site β :=
  let slot : Slot := { worker := { root, kind } }
  ({ s with
    slots := s.slots.takeWhile (precedes · root) ++ slot :: s.slots.dropWhile (precedes · root) }
  ).wake kind root

/-- The roots of a pool, with or without a tree. -/
def served (s : Site β) (kind : TreeKind) : List String :=
  (s.pool kind).map fun slot => slot.worker.root

/-- Serves exactly these roots in the pool of a kind: stops the workers of others, and starts
those that are missing. -/
def serve [Backend β] (s : Site β) (kind : TreeKind) (roots : List String) : Site β :=
  let stopped := (s.served kind).filter fun root => !roots.contains root
  let s := stopped.foldl (stop kind) s
  let missing := roots.filter fun root => (s.slot? kind root).isNone
  missing.foldl (fun s root => s.start kind root) s

/-- The roots of a pool that have a tree. -/
def roots (s : Site β) (kind : TreeKind) : List String :=
  ((s.pool kind).filter fun slot => slot.worker.snapshot.isSome).map fun slot => slot.worker.root

/-- The latest tree of a root, if it is served and was ever hydrated. -/
def snapshot? (s : Site β) (kind : TreeKind) (root : String) : Option HashTree :=
  (s.slot? kind root).bind fun slot => slot.worker.snapshot

end Site

end Concord
