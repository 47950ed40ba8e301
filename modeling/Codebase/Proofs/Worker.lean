import Codebase.Host.Memory
import Codebase.Worker
import Mathlib.Data.List.Nodup
/-!
# Calls are served one after the other

A worker takes the calls of any number of clients, who may stop waiting at any time.  Whatever the
order of sends, cancellations and services, it does what a session does that handles the calls of
the queue one after the other.  `accepted` lists the calls that have entered the queue, `served`
those that have left it for the session, and `Session.handleAll` is the sequential session.

* `Does`: what an event does, one constructor for each way through `step`.
* `Serial`: how the calls accepted, the calls served, the deliveries and the worker fit together.
  `Serial.does` is one event and `Serial.run` a history.
* `run_of_stopped`: after a shutdown nothing is served and every call is refused.
* `attended_run`: clients that stop waiting change nothing in what is served.
* `serves_in_turn`: all this of a worker from its start.

A client that finds the queue full waits outside.  It has no number yet: a `send` that changes
nothing is its attempt, and it enters the queue by another one.
-/

namespace Codebase

/-- Handles the calls of a list one after the other: the replies under the numbers of the calls,
and the session after the last one. -/
def Session.handleAll (service : LanguageService) (session : Session) :
    List (Host × Ticket) → List Delivery × Session
  | [] => ([], session)
  | (host, ticket) :: rest =>
    let (reply, next) := session.handle service host ticket.call
    let (later, last) := next.handleAll service rest
    (⟨ticket.number, reply⟩ :: later, last)

namespace Session

variable {service : LanguageService} {session : Session}

theorem handleAll_concat (calls : List (Host × Ticket)) (host : Host) (ticket : Ticket) :
    session.handleAll service (calls ++ [(host, ticket)]) =
      ((session.handleAll service calls).1 ++ [⟨ticket.number,
          ((session.handleAll service calls).2.handle service host ticket.call).1⟩],
        ((session.handleAll service calls).2.handle service host ticket.call).2) := by
  induction calls generalizing session with
  | nil => rfl
  | cons pair calls ih => simp [handleAll, ih]

/-- Every call gets one reply, in the order of the calls. -/
theorem handleAll_numbers (service : LanguageService) (session : Session)
    (calls : List (Host × Ticket)) :
    (session.handleAll service calls).1.map Delivery.number = calls.map (·.2.number) := by
  induction calls generalizing session with
  | nil => rfl
  | cons pair calls ih => simp [handleAll, ih]

end Session

namespace Worker

variable {service : LanguageService} {worker : Worker} {start : Session}

/-! ## What enters the queue and what leaves it -/

/-- The call that an event puts into the queue. -/
def enqueued (worker : Worker) : Event → List Ticket
  | .send call =>
    if worker.isRunning ∧ worker.queue.length < capacity then [⟨worker.lastNumber + 1, call⟩]
    else []
  | .cancel _ | .serve _ => []

/-- The call that an event hands to the session, with the host that the session finds. -/
def dequeued (worker : Worker) : Event → List (Host × Ticket)
  | .serve host => (worker.queue.take 1).map fun ticket => (host, ticket)
  | .send _ | .cancel _ => []

theorem enqueued_of_stopped (hstopped : worker.isRunning = false) (call : Call) :
    worker.enqueued (.send call) = [] := by
  simp [enqueued, hstopped]

theorem enqueued_of_room (hrunning : worker.isRunning = true)
    (hroom : worker.queue.length < capacity) (call : Call) :
    worker.enqueued (.send call) = [⟨worker.lastNumber + 1, call⟩] := by
  simp [enqueued, hrunning, hroom]

theorem enqueued_of_full (hfull : ¬ worker.queue.length < capacity) (call : Call) :
    worker.enqueued (.send call) = [] := by
  simp [enqueued, hfull]

theorem dequeued_of_cons {ticket : Ticket} {rest : List Ticket}
    (hqueue : worker.queue = ticket :: rest) (host : Host) :
    worker.dequeued (.serve host) = [(host, ticket)] := by
  simp [dequeued, hqueue]

/-- The calls that enter the queue over a history, in the order of the queue. -/
def accepted (service : LanguageService) (worker : Worker) : List Event → List Ticket
  | [] => []
  | event :: rest => worker.enqueued event ++ (worker.step service event).2.accepted service rest

/-- The calls that are served over a history, in the order in which they are served. -/
def served (service : LanguageService) (worker : Worker) : List Event → List (Host × Ticket)
  | [] => []
  | event :: rest => worker.dequeued event ++ (worker.step service event).2.served service rest

/-- What an event does, one case for each way through `step`. -/
inductive Does (service : LanguageService) (worker : Worker) :
    Event → List Delivery → Worker → Prop where
  /-- A call after the shutdown. -/
  | refuse (call : Call) (hstopped : worker.isRunning = false) :
    Does service worker (.send call) [⟨worker.lastNumber + 1, .stopped⟩]
      { worker with lastNumber := worker.lastNumber + 1 }
  | accept (call : Call) (hrunning : worker.isRunning = true)
    (hroom : worker.queue.length < capacity) :
    Does service worker (.send call) []
      { worker with
        queue := worker.queue ++ [⟨worker.lastNumber + 1, call⟩]
        lastNumber := worker.lastNumber + 1 }
  /-- The queue is full and the client waits outside. -/
  | hold (call : Call) (hrunning : worker.isRunning = true)
    (hfull : ¬ worker.queue.length < capacity) : Does service worker (.send call) [] worker
  | cancel (number : Nat) : Does service worker (.cancel number) [] (worker.cancel number)
  | idle (host : Host) (hempty : worker.queue = []) : Does service worker (.serve host) [] worker
  | stop (host : Host) {ticket : Ticket} {rest : List Ticket}
    (hqueue : worker.queue = ticket :: rest) (hshutdown : ticket.call = .shutdown) :
    Does service worker (.serve host)
      (worker.awaited (⟨ticket.number, .session worker.session⟩ ::
        rest.map fun t => ⟨t.number, .stopped⟩))
      { worker with isRunning := false, queue := [] }
  | handle (host : Host) {ticket : Ticket} {rest : List Ticket}
    (hqueue : worker.queue = ticket :: rest) (hother : ticket.call ≠ .shutdown) :
    Does service worker (.serve host)
      (worker.awaited [⟨ticket.number, (worker.session.handle service host ticket.call).1⟩])
      { worker with
        session := (worker.session.handle service host ticket.call).2, queue := rest }

theorem step_does (event : Event) :
    Does service worker event (worker.step service event).1 (worker.step service event).2 := by
  cases event with
  | send call =>
    simp only [step, send]
    split
    · exact .refuse call (by simp_all)
    · split
      · exact .accept call (by simp_all) ‹_›
      · exact .hold call (by simp_all) ‹_›
  | cancel number => exact .cancel number
  | serve host =>
    simp only [step, serve]
    split
    · exact .idle host ‹_›
    · rename_i ticket rest hqueue
      split
      · rename_i hshutdown
        rw [hshutdown]
        exact .stop host hqueue hshutdown
      · exact .handle host hqueue ‹_›

/-! ## The order of the queue -/

/-- The calls that have entered the queue and those that have left it fit the worker. -/
structure InLine (accepted : List Ticket) (served : List (Host × Ticket)) (worker : Worker) :
    Prop where
  /-- The numbers grow along the queue. -/
  numbered : (accepted.map Ticket.number).Pairwise (· < ·)
  bounded : ∀ ticket ∈ accepted, 0 < ticket.number ∧ ticket.number ≤ worker.lastNumber
  /-- The calls that have been served are the first ones that were accepted. -/
  inTurn : served.map Prod.snd <+: accepted
  /-- Until the shutdown the other calls wait. -/
  waiting : worker.isRunning = true → accepted = served.map Prod.snd ++ worker.queue
  emptied : worker.isRunning = false → worker.queue = []
  running : worker.isRunning = true ↔ ∀ pair ∈ served, pair.2.call ≠ .shutdown

namespace InLine

variable {accepted : List Ticket} {served : List (Host × Ticket)}

theorem new (session : Session) : InLine [] [] (Worker.new session) := by
  constructor <;> simp [Worker.new]

theorem isRunning_of_queue (h : InLine accepted served worker) {ticket : Ticket}
    {rest : List Ticket} (hqueue : worker.queue = ticket :: rest) : worker.isRunning = true := by
  cases hrunning : worker.isRunning with
  | true => rfl
  | false => simp [h.emptied hrunning] at hqueue

/-- Until the shutdown no call is both served and waiting, and no number is used twice. -/
theorem nodup (h : InLine accepted served worker) (hrunning : worker.isRunning = true) :
    (served.map (·.2.number) ++ worker.queue.map Ticket.number).Nodup := by
  have hnumbered := h.numbered
  rw [h.waiting hrunning, List.map_append, List.map_map] at hnumbered
  exact hnumbered.imp Nat.ne_of_lt

theorem served_number_le (h : InLine accepted served worker) {number : Nat}
    (hmem : number ∈ served.map (·.2.number)) : number ≤ worker.lastNumber := by
  obtain ⟨pair, hpair, rfl⟩ := List.mem_map.1 hmem
  exact (h.bounded pair.2 (h.inTurn.subset (List.mem_map_of_mem hpair))).2

theorem queued_number_le (h : InLine accepted served worker)
    (hrunning : worker.isRunning = true) {number : Nat}
    (hmem : number ∈ worker.queue.map Ticket.number) : number ≤ worker.lastNumber := by
  obtain ⟨ticket, hwaits, rfl⟩ := List.mem_map.1 hmem
  exact (h.bounded ticket (h.waiting hrunning ▸ List.mem_append_right _ hwaits)).2

/-- The oldest call leaves the queue. -/
theorem dequeue (h : InLine accepted served worker) {ticket : Ticket} {rest : List Ticket}
    (hqueue : worker.queue = ticket :: rest) (host : Host) :
    accepted = (served ++ [(host, ticket)]).map Prod.snd ++ rest := by
  simpa [hqueue] using h.waiting (h.isRunning_of_queue hqueue)

theorem does (h : InLine accepted served worker) {event : Event} {now : List Delivery}
    {next : Worker} (hdoes : Does service worker event now next) :
    InLine (accepted ++ worker.enqueued event) (served ++ worker.dequeued event) next := by
  cases hdoes with
  | refuse call hstopped =>
    rw [enqueued_of_stopped hstopped, List.append_nil, dequeued, List.append_nil]
    exact { h with bounded := fun ticket hmem => (h.bounded ticket hmem).imp_right .step }
  | accept call hrunning hroom =>
    rw [enqueued_of_room hrunning hroom, dequeued, List.append_nil]
    refine { h with numbered := ?_, bounded := ?_, inTurn := ?_, waiting := ?_, emptied := ?_ }
    · rw [List.map_append, List.pairwise_append]
      refine ⟨h.numbered, List.pairwise_singleton _ _, fun m hbefore n hnew => ?_⟩
      obtain ⟨ticket, hmem, rfl⟩ := List.mem_map.1 hbefore
      obtain rfl := List.mem_singleton.1 hnew
      exact Nat.lt_succ_of_le (h.bounded ticket hmem).2
    · rw [List.forall_mem_append, List.forall_mem_singleton]
      exact ⟨fun ticket hmem => (h.bounded ticket hmem).imp_right .step,
        Nat.succ_pos _, Nat.le_refl _⟩
    · exact h.inTurn.trans (List.prefix_append ..)
    · intro _
      rw [← List.append_assoc, ← h.waiting hrunning]
    · intro hstopped
      simp [hrunning] at hstopped
  | hold call hrunning hfull =>
    rwa [enqueued_of_full hfull, List.append_nil, dequeued, List.append_nil]
  | cancel number =>
    rw [enqueued, List.append_nil, dequeued, List.append_nil]
    exact { h with }
  | idle host hempty =>
    simpa [enqueued, dequeued, hempty] using h
  | @stop host ticket rest hqueue hshutdown =>
    rw [enqueued, List.append_nil, dequeued_of_cons hqueue]
    refine { h with inTurn := ?_, waiting := nofun, emptied := fun _ => rfl, running := ?_ }
    · exact h.dequeue hqueue host ▸ List.prefix_append _ _
    · simp only [Bool.false_eq_true, false_iff, not_forall]
      exact ⟨(host, ticket), by simp, by simpa using hshutdown⟩
  | @handle host ticket rest hqueue hother =>
    have hrunning := h.isRunning_of_queue hqueue
    rw [enqueued, List.append_nil, dequeued_of_cons hqueue]
    refine { h with inTurn := ?_, waiting := fun _ => h.dequeue hqueue host, emptied := ?_,
                    running := ?_ }
    · exact h.dequeue hqueue host ▸ List.prefix_append _ _
    · simp [hrunning]
    · rw [h.running, List.forall_mem_append]
      simp [hother]

end InLine

/-! ## What the clients receive -/

theorem mem_awaited {deliveries : List Delivery} {d : Delivery} :
    d ∈ worker.awaited deliveries ↔ d ∈ deliveries ∧ d.number ∉ worker.abandoned := by
  simp [awaited]

/-- What has been delivered fits the calls that were served, one after the other. -/
structure Serial (service : LanguageService) (start : Session) (accepted : List Ticket)
    (served : List (Host × Ticket)) (delivered : List Delivery) (worker : Worker) : Prop
    extends InLine accepted served worker where
  session : worker.session = (start.handleAll service served).2
  /-- A client receives the answer to its call, or it learns that the worker has stopped and its
  call has not been served. -/
  answers : ∀ d ∈ delivered, d ∈ (start.handleAll service served).1 ∨
    d.reply = .stopped ∧ worker.isRunning = false ∧ d.number ∉ served.map (·.2.number)
  known : ∀ d ∈ delivered, d.number ≤ worker.lastNumber
  /-- No call is answered twice. -/
  once : (delivered.map Delivery.number).Nodup
  /-- Every call is answered unless it waits or its client has stopped waiting. -/
  accounted : ∀ number, 0 < number → number ≤ worker.lastNumber →
    number ∈ worker.queue.map Ticket.number ∨ number ∈ worker.abandoned ∨
      number ∈ delivered.map Delivery.number

namespace Serial

variable {accepted : List Ticket} {served : List (Host × Ticket)} {delivered : List Delivery}

theorem new (service : LanguageService) (session : Session) :
    Serial service session [] [] [] (Worker.new session) :=
  { InLine.new session with
    session := rfl
    answers := by simp
    known := by simp
    once := by simp
    accounted := fun _ hpositive hle => absurd hle (Nat.not_le.2 hpositive) }

/-- Until the shutdown only calls that have been served are answered. -/
theorem mem_answers (h : Serial service start accepted served delivered worker)
    (hrunning : worker.isRunning = true) {d : Delivery} (hmem : d ∈ delivered) :
    d ∈ (start.handleAll service served).1 := by
  rcases h.answers d hmem with hanswer | ⟨-, hstopped, -⟩
  · exact hanswer
  · simp [hrunning] at hstopped

/-- A call that waits has not been answered. -/
theorem once_awaited (h : Serial service start accepted served delivered worker)
    (hrunning : worker.isRunning = true) {now : List Delivery}
    (hqueued : (now.map Delivery.number).Sublist (worker.queue.map Ticket.number)) :
    ((delivered ++ worker.awaited now).map Delivery.number).Nodup := by
  obtain ⟨-, hdistinct, hapart⟩ := List.nodup_append.1 (h.nodup hrunning)
  have hfewer : ((worker.awaited now).map Delivery.number).Sublist
      (worker.queue.map Ticket.number) := (List.filter_sublist.map _).trans hqueued
  rw [List.map_append, List.nodup_append]
  refine ⟨h.once, hdistinct.sublist hfewer, fun m hbefore n hnew => ?_⟩
  obtain ⟨d, hmem, rfl⟩ := List.mem_map.1 hbefore
  refine hapart _ ?_ _ (hfewer.subset hnew)
  rw [← Session.handleAll_numbers service start]
  exact List.mem_map_of_mem (h.mem_answers hrunning hmem)

/-- A call that leaves the queue is answered unless its client has stopped waiting. -/
theorem accounted_awaited (h : Serial service start accepted served delivered worker)
    {now : List Delivery} {rest : List Ticket}
    (hleft : ∀ number ∈ worker.queue.map Ticket.number,
      number ∈ rest.map Ticket.number ∨ number ∈ now.map Delivery.number)
    {number : Nat} (hpositive : 0 < number) (hle : number ≤ worker.lastNumber) :
    number ∈ rest.map Ticket.number ∨ number ∈ worker.abandoned ∨
      number ∈ (delivered ++ worker.awaited now).map Delivery.number := by
  rw [List.map_append, List.mem_append]
  rcases h.accounted number hpositive hle with hqueued | habandoned | hanswered
  · rcases hleft number hqueued with hstays | hleaves
    · exact .inl hstays
    · by_cases habandoned : number ∈ worker.abandoned
      · exact .inr (.inl habandoned)
      · obtain ⟨d, hmem, rfl⟩ := List.mem_map.1 hleaves
        exact .inr (.inr (.inr (List.mem_map_of_mem (mem_awaited.2 ⟨hmem, habandoned⟩))))
  · exact .inr (.inl habandoned)
  · exact .inr (.inr (.inl hanswered))

/-- A call after the shutdown is answered at once. -/
theorem refuse (h : Serial service start accepted served delivered worker)
    (hstopped : worker.isRunning = false)
    (hline : InLine accepted served { worker with lastNumber := worker.lastNumber + 1 }) :
    Serial service start accepted served (delivered ++ [⟨worker.lastNumber + 1, .stopped⟩])
      { worker with lastNumber := worker.lastNumber + 1 } := by
  refine { hline with session := h.session, answers := ?_, known := ?_, once := ?_,
                      accounted := ?_ }
  · rw [List.forall_mem_append, List.forall_mem_singleton]
    exact ⟨h.answers, .inr ⟨rfl, hstopped, fun hmem => Nat.lt_irrefl _ (h.served_number_le hmem)⟩⟩
  · rw [List.forall_mem_append, List.forall_mem_singleton]
    exact ⟨fun d hmem => Nat.le_succ_of_le (h.known d hmem), Nat.le_refl _⟩
  · rw [List.map_append, List.nodup_append]
    refine ⟨h.once, List.nodup_singleton _, fun m hbefore n hnew => ?_⟩
    obtain ⟨d, hmem, rfl⟩ := List.mem_map.1 hbefore
    obtain rfl := List.mem_singleton.1 hnew
    exact Nat.ne_of_lt (Nat.lt_succ_of_le (h.known d hmem))
  · intro number hpositive hle
    rw [List.map_append, List.mem_append]
    rcases Nat.le_succ_iff.1 hle with hle | rfl
    · have haccounted := h.accounted number hpositive hle
      tauto
    · simp

/-- A call that enters the queue waits under the next number. -/
theorem accept (h : Serial service start accepted served delivered worker) {ticket : Ticket}
    (hnext : ticket.number = worker.lastNumber + 1)
    (hline : InLine (accepted ++ [ticket]) served
      { worker with queue := worker.queue ++ [ticket], lastNumber := worker.lastNumber + 1 }) :
    Serial service start (accepted ++ [ticket]) served delivered
      { worker with queue := worker.queue ++ [ticket], lastNumber := worker.lastNumber + 1 } := by
  refine { hline with session := h.session, answers := h.answers, once := h.once, known := ?_,
                      accounted := ?_ }
  · exact fun d hmem => Nat.le_succ_of_le (h.known d hmem)
  · intro number hpositive hle
    rw [List.map_append, List.mem_append]
    rcases Nat.le_succ_iff.1 hle with hle | rfl
    · have haccounted := h.accounted number hpositive hle
      tauto
    · simp [hnext]

/-- The oldest call is served.  Of the calls behind it, some are refused because it was the
shutdown, and the others wait on. -/
theorem advance (h : Serial service start accepted served delivered worker) {ticket : Ticket}
    (refused waiting : List Ticket) (hqueue : worker.queue = ticket :: (refused ++ waiting))
    (host : Host) {running : Bool} (hstopped : running = false ∨ refused = [])
    (hline : InLine accepted (served ++ [(host, ticket)])
      { worker with
        session := (worker.session.handle service host ticket.call).2
        isRunning := running, queue := waiting }) :
    Serial service start accepted (served ++ [(host, ticket)])
      (delivered ++ worker.awaited
        (⟨ticket.number, (worker.session.handle service host ticket.call).1⟩ ::
          refused.map fun t => ⟨t.number, .stopped⟩))
      { worker with
        session := (worker.session.handle service host ticket.call).2
        isRunning := running, queue := waiting } := by
  have hrunning := h.isRunning_of_queue hqueue
  have hleave : ((⟨ticket.number, (worker.session.handle service host ticket.call).1⟩ ::
      refused.map fun t => (⟨t.number, .stopped⟩ : Delivery)).map Delivery.number).Sublist
      (worker.queue.map Ticket.number) := by
    rw [hqueue]
    simp [Function.comp_def]
  refine { hline with session := ?_, answers := ?_, known := ?_, once := ?_, accounted := ?_ }
  · rw [Session.handleAll_concat, ← h.session]
  · intro d hmem
    rw [Session.handleAll_concat, ← h.session, List.mem_append]
    rcases List.mem_append.1 hmem with hold | hnew
    · exact .inl (.inl (h.mem_answers hrunning hold))
    · rcases List.mem_cons.1 (mem_awaited.1 hnew).1 with rfl | htold
      · exact .inl (.inr (List.mem_singleton_self _))
      · obtain ⟨t, hbehind, rfl⟩ := List.mem_map.1 htold
        refine .inr ⟨rfl, hstopped.resolve_right (List.ne_nil_of_mem hbehind), ?_⟩
        have hdistinct := h.nodup hrunning
        simp only [hqueue, List.map_cons, List.map_append] at hdistinct ⊢
        grind
  · intro d hmem
    rcases List.mem_append.1 hmem with hold | hnew
    · exact h.known d hold
    · exact h.queued_number_le hrunning
        (hleave.subset (List.mem_map_of_mem (mem_awaited.1 hnew).1))
  · exact h.once_awaited hrunning hleave
  · intro number hpositive hle
    refine h.accounted_awaited (fun number hqueued => ?_) hpositive hle
    rw [hqueue] at hqueued
    simp only [List.map_cons, List.map_append, List.map_map, List.mem_cons, List.mem_append,
      Function.comp_def] at hqueued ⊢
    tauto

/-- **One event keeps the worker in step with the sequential session.** -/
theorem does (h : Serial service start accepted served delivered worker) {event : Event}
    {now : List Delivery} {next : Worker} (hdoes : Does service worker event now next) :
    Serial service start (accepted ++ worker.enqueued event) (served ++ worker.dequeued event)
      (delivered ++ now) next := by
  have hline := h.toInLine.does hdoes
  cases hdoes with
  | refuse call hstopped =>
    rw [enqueued_of_stopped hstopped, List.append_nil, dequeued, List.append_nil] at hline ⊢
    exact h.refuse hstopped hline
  | accept call hrunning hroom =>
    rw [enqueued_of_room hrunning hroom, dequeued, List.append_nil] at hline ⊢
    rw [List.append_nil]
    exact h.accept rfl hline
  | hold call hrunning hfull =>
    rwa [enqueued_of_full hfull, List.append_nil, dequeued, List.append_nil, List.append_nil]
  | cancel number =>
    rw [enqueued, dequeued, List.append_nil, List.append_nil] at hline ⊢
    rw [List.append_nil]
    refine { hline with session := h.session, answers := h.answers, known := h.known,
                        once := h.once, accounted := fun n hpositive hle => ?_ }
    have haccounted := h.accounted n hpositive hle
    simp only [Worker.cancel, List.mem_cons]
    tauto
  | idle host hempty =>
    simpa [enqueued, dequeued, hempty] using h
  | @stop host ticket rest hqueue hshutdown =>
    rw [enqueued, List.append_nil, dequeued_of_cons hqueue] at hline ⊢
    have hadvance := h.advance rest [] (by rwa [List.append_nil]) host (.inl rfl)
      (by rwa [hshutdown])
    rwa [hshutdown] at hadvance
  | @handle host ticket rest hqueue hother =>
    rw [enqueued, List.append_nil, dequeued_of_cons hqueue] at hline ⊢
    exact h.advance [] rest hqueue host (.inr rfl) hline

theorem run (h : Serial service start accepted served delivered worker) (events : List Event) :
    Serial service start (accepted ++ worker.accepted service events)
      (served ++ worker.served service events) (delivered ++ (worker.run service events).1)
      (worker.run service events).2 := by
  induction events generalizing accepted served delivered worker with
  | nil => simpa [Worker.accepted, Worker.served, Worker.run] using h
  | cons event events ih =>
    have hlater := ih (h.does (step_does event))
    simpa only [Worker.accepted, Worker.served, Worker.run, List.append_assoc] using hlater

/-- After the shutdown a call that has not been served is refused. -/
theorem refused (h : Serial service start accepted served delivered worker)
    (hstopped : worker.isRunning = false) {ticket : Ticket} (hmem : ticket ∈ accepted)
    (hunserved : ticket.number ∉ served.map (·.2.number)) :
    ticket.number ∈ worker.abandoned ∨ ⟨ticket.number, .stopped⟩ ∈ delivered := by
  obtain ⟨hpositive, hle⟩ := h.bounded ticket hmem
  rcases h.accounted ticket.number hpositive hle with hqueued | habandoned | hanswered
  · simp [h.emptied hstopped] at hqueued
  · exact .inl habandoned
  · obtain ⟨⟨number, reply⟩, hmem, rfl⟩ := List.mem_map.1 hanswered
    rcases h.answers _ hmem with hanswer | ⟨rfl, -, -⟩
    · have hserved := List.mem_map_of_mem (f := Delivery.number) hanswer
      rw [Session.handleAll_numbers] at hserved
      exact absurd hserved hunserved
    · exact .inr hmem

end Serial

/-! ## After the shutdown -/

def Event.isSend : Event → Bool
  | .send _ => true
  | .cancel _ | .serve _ => false

/-- **After the shutdown nothing is served, and every call is refused at once.** -/
theorem run_of_stopped (service : LanguageService) (worker : Worker)
    (hstopped : worker.isRunning = false) (hempty : worker.queue = [])
    (events : List Event) :
    worker.served service events = [] ∧
      (worker.run service events).2.session = worker.session ∧
      (worker.run service events).1 =
        (List.range' (worker.lastNumber + 1) (events.countP Event.isSend)).map
          (⟨·, .stopped⟩) := by
  induction events generalizing worker with
  | nil => exact ⟨rfl, rfl, rfl⟩
  | cons event events ih =>
    cases event with
    | send call =>
      have hsend : worker.step service (.send call) =
          ([⟨worker.lastNumber + 1, .stopped⟩],
            { worker with lastNumber := worker.lastNumber + 1 }) := by
        simp [step, send, hstopped]
      obtain ⟨hserved, hsession, hrefused⟩ :=
        ih { worker with lastNumber := worker.lastNumber + 1 } hstopped hempty
      simp only [served, run, hsend, dequeued, hserved, hsession, hrefused]
      simp [Event.isSend, List.range'_succ, List.countP_cons]
    | cancel number =>
      obtain ⟨hserved, hsession, hrefused⟩ := ih (worker.cancel number) hstopped hempty
      simp only [served, run, step, dequeued, hserved, hsession, hrefused]
      simp [Event.isSend, cancel]
    | serve host =>
      have hidle : worker.step service (.serve host) = ([], worker) := by
        simp [step, serve, hempty]
      obtain ⟨hserved, hsession, hrefused⟩ := ih worker hstopped hempty
      simp only [served, run, hidle, dequeued, hempty, hserved, hsession, hrefused]
      simp [Event.isSend]

/-! ## Clients that stop waiting -/

def Event.isCancel : Event → Bool
  | .cancel _ => true
  | .send _ | .serve _ => false

/-- The worker as if every client waited. -/
def attended (worker : Worker) : Worker := { worker with abandoned := [] }

theorem dequeued_attended (event : Event) :
    worker.attended.dequeued event = worker.dequeued event := by
  cases event <;> rfl

theorem attended_step (event : Event) :
    (worker.step service event).2.attended = (worker.attended.step service event).2.attended := by
  cases event with
  | send call =>
    by_cases hrunning : worker.isRunning <;> by_cases hroom : worker.queue.length < capacity <;>
      simp [step, send, attended, hrunning, hroom]
  | cancel number => rfl
  | serve host =>
    rcases hqueue : worker.queue with _ | ⟨ticket, rest⟩
    · simp [step, serve, attended, hqueue]
    · simp only [step, serve, attended, hqueue]
      split <;> rfl

/-- **Clients that stop waiting change nothing in what is served.** -/
theorem attended_run (service : LanguageService) {worker other : Worker}
    (halike : worker.attended = other.attended) (events : List Event) :
    worker.served service events = other.served service (events.filter (!·.isCancel)) ∧
      (worker.run service events).2.attended =
        (other.run service (events.filter (!·.isCancel))).2.attended := by
  induction events generalizing worker other with
  | nil => exact ⟨rfl, halike⟩
  | cons event events ih =>
    by_cases hcancel : event.isCancel
    · rw [List.filter_cons_of_neg (by simp [hcancel])]
      cases event with
      | cancel number =>
        have hcancelled : (worker.cancel number).attended = other.attended := halike
        exact ih hcancelled
      | send call | serve host => simp [Event.isCancel] at hcancel
    · rw [List.filter_cons_of_pos (by simp [hcancel])]
      have hnext : (worker.step service event).2.attended =
          (other.step service event).2.attended := by
        rw [attended_step, halike, ← attended_step]
      have hnow : worker.dequeued event = other.dequeued event := by
        rw [← dequeued_attended, halike, dequeued_attended]
      obtain ⟨hlater, hlast⟩ := ih hnext
      exact ⟨by simp only [served, hnow, hlater], hlast⟩

/-! ## A worker from its start -/

/-- **A worker does what a session does that handles the calls of the queue one after the other.**
After every history of sends, cancellations and services the calls served are the first ones
accepted, each once; the session is the sequential one after these calls; a client receives the
reply that the sequential session gives to its call, or learns that the worker has stopped without
serving it; no client that waits is forgotten.  Without the cancellations the same calls are served
and the session is the same.  Once a shutdown has been served, every other call that was accepted
is refused, and whatever happens later, nothing is served, the session stays as it is, and every
call is refused. -/
theorem serves_in_turn (service : LanguageService) (start : Session) (events : List Event) :
    let first := new start
    let (delivered, worker) := first.run service events
    Serial service start (first.accepted service events) (first.served service events) delivered
        worker ∧
      (first.served service (events.filter (!·.isCancel)) = first.served service events ∧
        (first.run service (events.filter (!·.isCancel))).2.session = worker.session) ∧
      ((∃ pair ∈ first.served service events, pair.2.call = .shutdown) →
        (∀ ticket ∈ first.accepted service events,
          ticket.number ∉ (first.served service events).map (·.2.number) →
            ticket.number ∈ worker.abandoned ∨ ⟨ticket.number, .stopped⟩ ∈ delivered) ∧
        ∀ later, worker.served service later = [] ∧
          (worker.run service later).2.session = worker.session ∧
          (worker.run service later).1 =
            (List.range' (worker.lastNumber + 1) (later.countP Event.isSend)).map
              (⟨·, .stopped⟩)) := by
  have hserial : Serial service start ((new start).accepted service events)
      ((new start).served service events) ((new start).run service events).1
      ((new start).run service events).2 := by
    simpa using (Serial.new service start).run events
  obtain ⟨hserved, hlast⟩ := attended_run service (rfl : (new start).attended = _) events
  refine ⟨hserial, ⟨hserved.symm, (congrArg Worker.session hlast).symm⟩, fun hshutdown => ?_⟩
  have hstopped : ((new start).run service events).2.isRunning = false := by
    rw [← Bool.not_eq_true, hserial.running]
    obtain ⟨pair, hmem, hcall⟩ := hshutdown
    exact fun h => h pair hmem hcall
  exact ⟨fun ticket hmem hunserved => hserial.refused hstopped hmem hunserved,
    run_of_stopped service _ hstopped (hserial.emptied hstopped)⟩

/-- Three calls, of which the second one is the shutdown.  The first client does not wait. -/
def hasty : List Event :=
  [.send .listProjects, .send .shutdown, .send .listProjects, .cancel 1,
    .serve Memory.empty.host, .serve Memory.empty.host]

/-- The third call waits behind the shutdown and is refused. -/
theorem hasty_call_is_refused :
    let first := new (Session.new .default)
    (∃ pair ∈ first.served .echo hasty, pair.2.call = .shutdown) ∧
      ⟨3, .stopped⟩ ∈ (first.run .echo hasty).1 := by
  have hshutdown : ∃ pair ∈ (new (Session.new .default)).served .echo hasty,
      pair.2.call = .shutdown := ⟨_, .tail _ (.head _), rfl⟩
  obtain ⟨hrefused, -⟩ := (serves_in_turn .echo (Session.new .default) hasty).2.2 hshutdown
  have hthird : ⟨3, .listProjects⟩ ∈ (new (Session.new .default)).accepted .echo hasty :=
    .tail _ (.tail _ (.head _))
  exact ⟨hshutdown, (hrefused _ hthird (by decide)).resolve_left (by decide)⟩

end Worker
end Codebase
