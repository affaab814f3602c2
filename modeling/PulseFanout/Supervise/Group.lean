import PulseFanout.Framework.Machine
import PulseFanout.Framework.Processes
import PulseFanout.Supervise.Readiness

/-!
# A group of services and its registration (`supervise_services.py`, `discovery.py`)

The supervisor starts its services in order and waits for those that have a needle. When all are
started and none has exited it writes a state file that lists them, by number and time of start,
and watches them. Whatever ends this, a service that exits or an exception, the services are
terminated and waited for, and the state file is removed if it is still the one of this run. `main`
then starts the group again, a limited number of times. `do_GET` of the discovery server reads the
state file and answers with it only if every process it lists is still there.

`System` is the supervisor, the handler of one request after the other, the table of processes and
the file. `Phase` is the program counter of the supervisor, with one step for each system call:
between two of them any process may exit, other processes come and go, and a number that has become
free is given to someone else. The processes the supervisor has started are waited for by it alone.
An exception, which is a signal to stop or an error of the system, may come at any step
(`Move.fail`).

Left out are the names in the commands, the endpoints, the lines that are printed again and the
directory of a run, which no step depends on, and the texts of the exceptions. An epoch is a number
no run before it had.

`runs`, `started`, `signalled` and `requests` are history.
-/

namespace PulseFanout
namespace Supervise

open Framework

/-! ### The configuration -/

/-- An entry of `services`; `argv` if it is an array of strings. -/
structure Job where
  service : Service
  argv : Option (List String)

/-- The name of the service. -/
def Job.name (job : Job) : String := job.service.name

/-- `argv` is a nonempty array of strings. -/
def Job.runnable (job : Job) : Bool :=
  match job.argv with
  | some (_ :: _) => true
  | _ => false

/-- `service.get("ready")` is true. -/
def Job.awaited (job : Job) : Bool :=
  match job.service.ready with
  | some (_ :: _) => true
  | _ => false

/-- An entry of the state file. -/
structure Registration where
  name : String
  pid : ℕ
  startTicks : ℕ
deriving DecidableEq

/-- The process that is meant. -/
def Registration.process (v : Registration) : Process := ⟨v.pid, v.startTicks⟩

/-- The state that is published. -/
structure Record where
  epoch : ℕ
  services : List Registration
deriving DecidableEq

/-- The file it is published in: its length, and the state if it is one with an epoch. -/
structure Content where
  length : ℕ
  value : Option Record

/-- The configuration and the arguments, as `run` and `main` have checked them. -/
structure Plan where
  jobs : List Job
  size : 1 ≤ jobs.length ∧ jobs.length ≤ 64
  unique : (jobs.map Job.name).Nodup
  completion : Option String
  restarts : ℕ
  /-- There is a `--state-file`. -/
  publishes : Bool
  /-- The length of what `json.dumps` makes of a state. -/
  length : Record → ℕ

/-- The part of it that `drain` uses. -/
def Plan.config (plan : Plan) : Config where
  services := plan.jobs.map Job.service
  size := by
    rw [List.length_map]
    exact plan.size
  unique := by
    rw [List.map_map]
    exact plan.unique

/-- `not completion` -/
def Plan.openEnded (plan : Plan) : Bool := plan.completion == none || plan.completion == some ""

/-- `completion` is none, or one of the names. -/
def Plan.completable (plan : Plan) : Bool :=
  plan.openEnded || (plan.jobs.map Job.name).any fun name => plan.completion == some name

/-! ### The supervisor -/

/-- What an exception is, as far as `main` tells them apart. -/
inductive Error
  | value
  | runtime
  | timeout
  | os
  /-- `KeyboardInterrupt` -/
  | interrupt
deriving DecidableEq

/-- How a call of `run` ends. -/
inductive Outcome
  | returned
  | raised (e : Error)
deriving DecidableEq

/-- An entry of `children`, with what its `Popen` remembers. -/
structure Child where
  name : String
  process : Process
  returncode : Option ℤ := none

/-- What the state file says of it. -/
def Child.registration (c : Child) : Registration := ⟨c.name, c.process.pid, c.process.start⟩

/-- Where `run` is in its `try`; numbers are places in `children`. -/
inductive Stage
  | launch (rest : List Job)
  /-- `Popen` has returned. -/
  | launched (job : Job) (p : Process) (rest : List Job)
  /-- The child is in `children`. -/
  | listed (job : Job) (rest : List Job)
  | await (job : Job) (rest : List Job)
  /-- `any(child.poll() not in (None,0) …)` -/
  | scan (job : Job) (rest : List Job) (i : ℕ)
  /-- `p.poll() is not None or …` -/
  | own (job : Job) (rest : List Job)
  /-- The loop over the children before the state is made. -/
  | check (i : ℕ)
  | describe (i : ℕ) (services : List Registration)
  | publish (r : Record)
  | watch
  /-- The loop over the children after `drain`. -/
  | survey (i : ℕ)

/-- Where it is in its `finally`. -/
inductive Cleanup
  | terminate (i : ℕ)
  | signalTerm (i : ℕ)
  /-- `any(p.poll() is None …)` -/
  | grace (i : ℕ)
  | graceClock
  | graceDrain
  | reap (i : ℕ)
  | signalKill (i : ℕ)
  | wait (i : ℕ)
  /-- `state_path.exists()` -/
  | lookup
  /-- `state_path.read_text()` -/
  | read
  | unlink

/-- Where `main` is. -/
inductive Phase
  /-- Before `run`. -/
  | begin
  | body (stage : Stage)
  | cleanup (step : Cleanup) (o : Outcome)
  /-- After the `finally` of `run`. -/
  | leaving (o : Outcome)
  | sleeping
  | exited (code : ℕ)

/-- What the server has answered. -/
inductive Response
  | notFound
  | unavailable
  | ok (r : Record)
deriving DecidableEq

/-- Where `do_GET` is. -/
inductive Handler
  | idle
  | reading
  | checking (r : Record) (rest : List Registration)
  | answered (response : Response)
deriving DecidableEq

/-- The state of everything. -/
structure System where
  table : ProcessTable
  file : Option Content
  phase : Phase := .begin
  attempt : ℕ := 0
  epoch : ℕ := 0
  children : List Child := []
  out : State := {}
  handler : Handler := .idle
  /-- The epochs there were. -/
  runs : List ℕ := []
  /-- What `Popen` has started, with the epoch. -/
  started : List (ℕ × Process) := []
  /-- Who was sent a signal. -/
  signalled : List Process := []
  requests : ℕ := 0

/-- The state in the file. -/
def System.record (s : System) : Option Record := s.file.bind Content.value

/-- `Popen.poll`: a `returncode` that is there stays, and else the child is waited for if it has
exited. -/
def poll (T : ProcessTable) (c : Child) : ProcessTable × Child :=
  match c.returncode with
  | some _ => (T, c)
  | none =>
    match T.life c.process with
    | some .running => (T, c)
    | some (.zombie code) => (T.bury c.process, { c with returncode := some code })
    -- `ECHILD`
    | none => (T, { c with returncode := some 0 })

/-- Poll a child. -/
def System.poll (s : System) (i : ℕ) : Option (System × Child) :=
  match s.children[i]? with
  | none => none
  | some c =>
    let polled := Supervise.poll s.table c
    some ({ s with table := polled.1, children := s.children.set i polled.2 }, polled.2)

/-- `os.kill`: the signal goes to the process that has the number. -/
def System.kill (s : System) (pid : ℕ) : System :=
  match s.table.entry pid with
  | some (start, _) => { s with signalled := ⟨pid, start⟩ :: s.signalled }
  -- `ProcessLookupError`
  | none => s

/-- `Popen.send_signal`, which polls first. -/
def System.sendSignal (s : System) (i : ℕ) : System :=
  match s.poll i with
  | none => s
  | some (s, c) => if c.returncode = none then s.kill c.process.pid else s

/-- Go to another phase. -/
def System.to (s : System) (phase : Phase) : System := { s with phase }

/-- Leave the `try`. -/
def System.leave (s : System) (o : Outcome) : System := s.to (.cleanup (.terminate 0) o)

/-- A stage that needs nothing from outside. -/
def bodyStep (plan : Plan) (s : System) : Stage → Option System
  | .launch [] =>
    some (if plan.completable then s.to (.body (.check 0)) else s.leave (.raised .value))
  | .launch (job :: _) => if job.runnable then none else some (s.leave (.raised .value))
  | .launched job p rest =>
    some { s with
      children := s.children ++ [⟨job.name, p, none⟩]
      phase := .body (.listed job rest) }
  | .listed job rest => some (s.to (.body (if job.awaited then .await job rest else .launch rest)))
  | .await job rest => if job.name ∈ s.out.ready then some (s.to (.body (.launch rest))) else none
  | .scan job rest i =>
    match s.poll i with
    | none => some (s.to (.body (.own job rest)))
    | some (s, c) =>
      some (if c.returncode = none ∨ c.returncode = some 0 then
          s.to (.body (.scan job rest (i + 1)))
        else s.leave (.raised .runtime))
  | .own _ _ => none
  | .check i =>
    match s.poll i with
    | none => some (s.to (.body (.describe 0 [])))
    | some (s, c) =>
      some (if c.returncode = none then s.to (.body (.check (i + 1)))
        else if c.returncode = some 0 ∧ plan.completion = some c.name then s.leave .returned
        else s.leave (.raised .runtime))
  | .describe i services =>
    match s.children[i]? with
    | none => some (s.to (.body (.publish ⟨s.epoch, services⟩)))
    | some c =>
      some (match s.table.entry c.process.pid with
        | some (start, _) =>
          s.to (.body (.describe (i + 1) (services ++ [⟨c.name, c.process.pid, start⟩])))
        | none => s.leave (.raised .os))
  | .publish r =>
    let s := if plan.publishes then { s with file := some ⟨plan.length r, some r⟩ } else s
    some (if plan.completable then s.to (.body .watch) else s.leave (.raised .value))
  | .watch => none
  | .survey i =>
    match s.poll i with
    | none => some (s.to (.body .watch))
    | some (s, c) =>
      some (match c.returncode with
        | none => s.to (.body (.survey (i + 1)))
        | some code =>
          if code ≠ 0 then s.leave (.raised .runtime)
          else if plan.completion = some c.name then s.leave .returned
          else if plan.openEnded then s.leave (.raised .runtime)
          else s.to (.body (.survey (i + 1))))

/-- A step of the `finally` that needs nothing from outside. -/
def cleanupStep (plan : Plan) (s : System) (o : Outcome) : Cleanup → Option System
  | .terminate i =>
    match s.poll i with
    | none => some (s.to (.cleanup (.grace 0) o))
    | some (s, c) =>
      some (s.to (.cleanup (if c.returncode = none then .signalTerm i else .terminate (i + 1)) o))
  | .signalTerm i => some ((s.sendSignal i).to (.cleanup (.terminate (i + 1)) o))
  | .grace i =>
    match s.poll i with
    | none => some (s.to (.cleanup (.reap 0) o))
    | some (s, c) =>
      some (s.to (.cleanup (if c.returncode = none then .graceClock else .grace (i + 1)) o))
  | .graceClock => none
  | .graceDrain => none
  | .reap i =>
    match s.poll i with
    | none => some (s.to (if plan.publishes then .cleanup .lookup o else .leaving o))
    | some (s, c) =>
      some (s.to (.cleanup (if c.returncode = none then .signalKill i else .wait i) o))
  | .signalKill i => some ((s.sendSignal i).to (.cleanup (.wait i) o))
  | .wait i =>
    match s.poll i with
    | none => none
    -- `p.wait()` blocks while the child runs
    | some (s, c) =>
      if c.returncode = none then none else some (s.to (.cleanup (.reap (i + 1)) o))
  | .lookup => some (s.to (if s.file.isSome then .cleanup .read o else .leaving o))
  | .read =>
    some (s.to
      (if s.record.map Record.epoch = some s.epoch then .cleanup .unlink o else .leaving o))
  | .unlink => some { s with file := none, phase := .leaving o }

/-- What `main` does when `run` has ended. -/
def Outcome.next (attempt restarts : ℕ) : Outcome → Phase
  | .returned => .exited 0
  | .raised .interrupt => .exited 130
  | .raised .value => .exited 1
  | .raised _ => if attempt = restarts then .exited 1 else .sleeping

/-- Where an exception leads. -/
def Phase.fail (e : Error) : Phase → Option Phase
  | .begin => some (.leaving (.raised e))
  | .body _ => some (.cleanup (.terminate 0) (.raised e))
  | .cleanup .lookup _ => some (.leaving (.raised e))
  -- here `OSError` and `ValueError` are ignored
  | .cleanup .read o => some (.leaving (if e = .os ∨ e = .value then o else .raised e))
  | .cleanup .unlink o => some (.leaving (if e = .os ∨ e = .value then o else .raised e))
  | .cleanup _ _ => some (.leaving (.raised e))
  | .leaving _ => some (.leaving (.raised e))
  | .sleeping => some (.exited (if e = .interrupt then 130 else 1))
  | .exited _ => none

/-- What the supervisor does next, with what it gets from outside. -/
inductive Move (cfg : Config)
  /-- `run` is called and takes an epoch. -/
  | begin (epoch : ℕ)
  | go
  /-- `Popen` returns this process. -/
  | popen (p : Process)
  | drain (chunks : List (Chunk cfg))
  /-- The deadline has passed, or not. -/
  | clock (late : Bool)
  | fail (e : Error)

/-- A call of `drain`, on what was kept. -/
def drainAll {cfg : Config} (S : State) (chunks : List (Chunk cfg)) : State :=
  chunks.foldl (fun S chunk => drainOne chunk.service chunk.bytes S) S

/-- There are some for all chunks to come from. -/
def System.readable {cfg : Config} (s : System) (chunks : List (Chunk cfg)) : Bool :=
  chunks.all fun chunk => (s.children.map Child.name).contains chunk.service.name

/-- The supervisor takes a step; `taken` are the epochs of others. -/
def supervise (plan : Plan) (taken : List ℕ) (s : System) : Move plan.config → Option System
  | .begin epoch =>
    match s.phase with
    | .begin =>
      if epoch ∉ s.runs ∧ epoch ∉ taken then
        some { s with epoch, runs := epoch :: s.runs, children := [], out := {},
                      phase := .body (.launch plan.jobs) }
      else none
    | _ => none
  | .go =>
    match s.phase with
    | .body stage => bodyStep plan s stage
    | .cleanup step o => cleanupStep plan s o step
    | .leaving o => some (s.to (o.next s.attempt plan.restarts))
    | .sleeping => some { s with attempt := s.attempt + 1, phase := .begin }
    | _ => none
  | .popen p =>
    match s.phase with
    | .body (.launch (job :: rest)) =>
      if job.runnable then
        (s.table.spawn p).map fun T =>
          { s with table := T, started := (s.epoch, p) :: s.started,
                   phase := .body (.launched job p rest) }
      else none
    | _ => none
  | .drain chunks =>
    if s.readable chunks then
      match s.phase with
      | .body (.await job rest) =>
        if job.name ∈ s.out.ready then none
        else some { s with out := drainAll s.out chunks, phase := .body (.scan job rest 0) }
      | .body .watch => some { s with out := drainAll s.out chunks, phase := .body (.survey 0) }
      | .cleanup .graceDrain o =>
        some { s with out := drainAll s.out chunks, phase := .cleanup (.grace 0) o }
      | _ => none
    else none
  | .clock late =>
    match s.phase with
    | .body (.own job rest) =>
      match s.poll (s.children.length - 1) with
      | none => none
      | some (s, c) =>
        some (if c.returncode ≠ none ∨ late then s.leave (.raised .timeout)
          else s.to (.body (.await job rest)))
    | .cleanup .graceClock o =>
      some (s.to (.cleanup (if late then .reap 0 else .graceDrain) o))
    | _ => none
  | .fail e => (s.phase.fail e).map s.to

/-! ### Discovery -/

/-- The limit of a state file. -/
def stateLimit : ℕ := 1024 * 1024

/-- `do_GET` takes a step. -/
def serve (s : System) : Option System :=
  match s.handler with
  | .idle => none
  | .reading =>
    some { s with handler :=
      match s.file with
      | none => .answered .unavailable
      | some content =>
        if stateLimit < content.length then .answered .unavailable
        else match content.value with
          | none => .answered .unavailable
          | some r => .checking r r.services }
  | .checking r [] => some { s with handler := .answered (.ok r) }
  | .checking r (v :: rest) =>
    some { s with handler :=
      match s.table.entry v.pid with
      | some (start, .running) =>
        if start = v.startTicks then .checking r rest else .answered .unavailable
      | _ => .answered .unavailable }
  | .answered _ => none

/-! ### The system -/

/-- What the supervisor finds: a file, perhaps, of an earlier supervisor, which it wrote after it
had started its services. -/
structure Setup where
  plan : Plan
  table : ProcessTable
  file : Option Content
  registered : ∀ r, file.bind Content.value = some r → ∀ v ∈ r.services, v.process ∈ table.used

/-- Who acts. -/
inductive Action (cfg : Config)
  /-- Some other process is started. -/
  | spawn (p : Process)
  /-- A process exits. -/
  | exit (p : Process) (code : ℤ)
  /-- Someone waits for a process of their own. -/
  | bury (p : Process)
  | supervise (move : Move cfg)
  /-- A request for the services, or for something else, when the last one is answered. -/
  | request (found : Bool)
  | serve

/-- A step of the system. -/
def System.step (S : Setup) (s : System) : Action S.plan.config → Option System
  | .spawn p => (s.table.spawn p).map fun T => { s with table := T }
  | .exit p code => (s.table.exit p code).map fun T => { s with table := T }
  | .bury p =>
    -- a zombie of someone else
    if p ∉ s.started.map Prod.snd ∧ s.table.Present p ∧ ¬s.table.Alive p then
      some { s with table := s.table.bury p }
    else none
  | .supervise move =>
    supervise S.plan ((S.file.bind Content.value).map Record.epoch).toList s move
  | .request found =>
    match s.handler with
    | .reading => none
    | .checking _ _ => none
    | _ => some { s with handler := if found then .reading else .answered .notFound,
                         requests := s.requests + 1 }
  | .serve => serve s

/-- The machine of a group. -/
def Setup.machine (S : Setup) : Machine System (Action S.plan.config) where
  start := { table := S.table, file := S.file }
  step := System.step S

/-- Where an exception loses sight of a child: `Popen` has returned it but it is not in `children`
yet, or it is not waited for yet. -/
def Phase.exposed : Phase → Bool
  | .body (.launched _ _ _) => true
  | .cleanup .lookup _ => false
  | .cleanup .read _ => false
  | .cleanup .unlink _ => false
  | .cleanup _ _ => true
  | _ => false

/-- No exception comes there. -/
def Orderly {cfg : Config} (s : System) : Action cfg → Bool
  | .supervise (.fail _) => !s.phase.exposed
  | _ => true

/-- The runs in which no exception comes there. -/
def Setup.orderly (S : Setup) : Machine System (Action S.plan.config) :=
  S.machine.only fun s a => Orderly s a = true

end Supervise
end PulseFanout
