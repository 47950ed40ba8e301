import Codebase.Session
/-!
# The worker

A worker owns a session and serves the calls of any number of clients, one at a time and in the
order in which they came.  Calls wait in a queue of bounded length.  A client may stop waiting for
its reply; its call is served all the same.  After a shutdown the worker serves nothing: the calls
in the queue and all later ones are answered with `Reply.stopped`.

`Worker.step` makes one step, `Worker.run` a history of steps.  `Worker.ask` is what a client sees
that is alone.
-/

namespace Codebase

/-- What a client asks for. -/
inductive Call where
  | request (request : Request)
  | openFile (path : Path) (content : String)
  | closeFile (path : Path)
  | editFile (path : Path) (change : TextChange) (version : Nat)
  | fileEvent (event : FileEvent)
  | listProjects
  | filesOf (id : ProjectId)
  /-- Ends the service and hands the session out. -/
  | shutdown

inductive Reply where
  | response (response : Response)
  | project (result : Except Error ProjectId)
  | done (result : Except Error Unit)
  | projects (summaries : List Project.Summary)
  | files (result : Except Error (List Path))
  | session (session : Session)
  /-- The service has stopped. -/
  | stopped

namespace Session

/-- The session with the workspace of an answer. -/
def answered {α : Type} (session : Session) (reply : Except Error α → Reply) (answer : Answer α) :
    Reply × Session :=
  (reply answer.1, { session with workspace := answer.2 })

/-- Serves one call. -/
def handle (session : Session) (service : LanguageService) (host : Host) :
    Call → Reply × Session
  | .request request =>
    let (response, next) := session.answer service host request
    (.response response, next)
  | .openFile path content =>
    session.answered .project (session.workspace.openFile host path content)
  | .closeFile path => session.answered .done (session.workspace.closeFile path)
  | .editFile path change version =>
    session.answered .done (session.workspace.editFile path change version)
  | .fileEvent event => session.answered .done (session.workspace.noticeFile host event)
  | .listProjects => (.projects session.workspace.summaries, session)
  | .filesOf id => session.answered .files (session.workspace.filesOf host id)
  | .shutdown => (.session session, session)

end Session

/-- A call that has been accepted, under its number. -/
structure Ticket where
  number : Nat
  call : Call

structure Worker where
  session : Session
  isRunning : Bool
  /-- The calls that wait, oldest first. -/
  queue : List Ticket
  /-- The number of calls so far, refused ones included. -/
  lastNumber : Nat
  /-- The calls whose clients have stopped waiting. -/
  abandoned : List Nat

/-- A reply and the number of the call that it answers. -/
structure Delivery where
  number : Nat
  reply : Reply

namespace Worker

/-- The length of a full queue. -/
def capacity : Nat := 64

def new (session : Session) : Worker := ⟨session, true, [], 0, []⟩

/-- The deliveries that somebody waits for. -/
def awaited (worker : Worker) (deliveries : List Delivery) : List Delivery :=
  deliveries.filter fun d => d.number ∉ worker.abandoned

/-- A client calls: the call enters the queue, or it is answered at once when the worker has
stopped.  While the queue is full the client waits outside and nothing happens. -/
def send (worker : Worker) (call : Call) : List Delivery × Worker :=
  let number := worker.lastNumber + 1
  if !worker.isRunning then ([⟨number, .stopped⟩], { worker with lastNumber := number })
  else if worker.queue.length < capacity then
    ([], { worker with queue := worker.queue ++ [⟨number, call⟩], lastNumber := number })
  else ([], worker)

/-- A client stops waiting for the reply to a call. -/
def cancel (worker : Worker) (number : Nat) : Worker :=
  { worker with abandoned := number :: worker.abandoned }

/-- Serves the oldest call of the queue. -/
def serve (worker : Worker) (service : LanguageService) (host : Host) : List Delivery × Worker :=
  match worker.queue with
  | [] => ([], worker)
  | ticket :: rest =>
    let (reply, session) := worker.session.handle service host ticket.call
    match ticket.call with
    | .shutdown =>
      (worker.awaited (⟨ticket.number, reply⟩ :: rest.map fun t => ⟨t.number, .stopped⟩),
        { worker with session, isRunning := false, queue := [] })
    | _ => (worker.awaited [⟨ticket.number, reply⟩], { worker with session, queue := rest })

/-- What can happen next. -/
inductive Event where
  | send (call : Call)
  | cancel (number : Nat)
  /-- The worker serves a call and finds the host as it is at that moment. -/
  | serve (host : Host)

def step (service : LanguageService) (worker : Worker) : Event → List Delivery × Worker
  | .send call => worker.send call
  | .cancel number => ([], worker.cancel number)
  | .serve host => worker.serve service host

/-- The deliveries of a history, in order, and the worker after it. -/
def run (service : LanguageService) (worker : Worker) : List Event → List Delivery × Worker
  | [] => ([], worker)
  | event :: rest =>
    let (now, next) := worker.step service event
    let (later, last) := next.run service rest
    (now ++ later, last)

/-- A call whose client waits for the reply while nobody else calls. -/
def ask (worker : Worker) (service : LanguageService) (host : Host) (call : Call) :
    Reply × Worker :=
  let number := worker.lastNumber + 1
  let (deliveries, next) := worker.run service [.send call, .serve host]
  (((deliveries.find? fun d => d.number = number).map Delivery.reply).getD .stopped, next)

end Worker

end Codebase
