import Rosbridge.Listen.Consumer

/-!
# What a service server answers (`ServiceServer::listener`)

`payload()`, the callback, `id()` and the push of the response stand in one `try`, and whatever is
thrown there skips the rest of it. The `pop` behind it is for the same message in either case. So the
responses are those of the requests that succeeded, in the order of the queue.
-/

namespace Rosbridge.Listen

open Unserializer

/-- What the `try` makes of a request: the object that the callback returned, or nothing when
`payload` or the callback threw. -/
abbrev Trial := Letter × Option Object

def tried (s : State) : Event → Option Trial
  | .listener returned =>
    match s.pc with
    | .payload x => if (x.msg.payload).1.isOk then none else some (x, none)
    | .callback x _ => some (x, returned)
    | _ => none
  | _ => none

def handled (kind : Kind) : State → List Event → List Trial
  | _, [] => []
  | s, e :: rest => (tried s e).toList ++ handled kind (step kind s e) rest

def answer (service : Bytes) (o : Trial) : Option Serializer :=
  o.2.map fun values => .serviceResponse service values true o.1.msg.idOf

def Entry.responded? : Entry → Option Serializer
  | .responded _ msg => some msg
  | _ => none

def responses (log : List Entry) : List Serializer := log.filterMap Entry.responded?

def State.untried (s : State) : List Letter :=
  match s.pc with
  | .pop _ => s.queue.q.tail
  | _ => s.queue.q

theorem response_eq (service : Bytes) (x : Letter) (values : Object) :
    response service x values = .ok (.serviceResponse service values true x.msg.idOf) := by
  have id : ((x.msg.payload).2.id).1 = .ok (x.msg.payload).2.idOf := (id_yields _).1
  have same : (x.msg.payload).2.idOf = x.msg.idOf := by
    have read := (payload_yields x.msg).2 (ascii "id")
    rw [idOf, read]
    rfl
  rw [response, id, same]
  rfl

/-! ### One step -/

/-- The thread holds the front of its queue, and has nothing to end it but the shutdown. -/
structure Serving (s : State) : Prop where
  front : ∀ x, s.pc.taken = some x → s.queue.q.head? = some x
  stocked : s.pc = .next → s.queue.q ≠ []
  runs : s.pc ≠ .terminated ∧ s.pc ≠ .undefined
  stopped : s.pc = .done → s.shutdown_requested = true

/-- Steps of the thread from here until it has removed the front of its queue. -/
def Pc.rank : Pc → Nat
  | .check => 6
  | .empty => 5
  | .next => 4
  | .payload _ => 3
  | .callback _ _ => 2
  | .pop _ => 1
  | _ => 0

/-- At most so many steps of the thread until the queue is empty. -/
def State.debt (s : State) : Nat :=
  match s.queue.q with
  | [] => 0
  | _ :: rest => 6 * rest.length + s.pc.rank

structure Serves (service : Bytes) (s t : State) (o : Option Trial) : Prop where
  serving : Serving t
  untried : s.untried = o.toList.map Prod.fst ++ t.untried
  responded : responses t.log = responses s.log ++ o.toList.filterMap (answer service)
  debt : t.shutdown_requested = true ∨ t.debt ≤ s.debt - 1

/-- Nothing is owed only when nothing is queued, as long as the thread runs. -/
theorem empty_of_debt {s : State} (serving : Serving s) (running : s.shutdown_requested = false)
    (paid : s.debt = 0) : s.queue.q = [] := by
  have working : 0 < s.pc.rank := by
    cases pc : s.pc with
    | done => simp [serving.stopped pc] at running
    | terminated => exact absurd pc serving.runs.1
    | undefined => exact absurd pc serving.runs.2
    | _ => simp [Pc.rank]
  unfold State.debt at paid
  split at paid
  · assumption
  · omega

theorem responses_append (log new : List Entry) : responses (log ++ new) = responses log ++ responses new :=
  List.filterMap_append

theorem debt_of_rank {s : State} {pc : Pc} {log : List Entry} (closer : pc.rank < s.pc.rank) :
    State.debt { s with pc := pc, log := log } ≤ s.debt - 1 := by
  unfold State.debt
  cases s.queue.q with
  | nil => exact Nat.zero_le _
  | cons x rest =>
    dsimp only
    omega

/-- The thread goes on, within the `try` or outside it. -/
theorem serves_call {service : Bytes} {s : State} {pc : Pc} {new : List Entry}
    (serving : Serving { s with pc := pc }) (untried : State.untried { s with pc := pc } = s.untried)
    (silent : responses new = [])
    (debt : s.shutdown_requested = true ∨ State.debt { s with pc := pc } ≤ s.debt - 1) :
    Serves service s { s with pc := pc, log := s.log ++ new } none where
  serving := ⟨serving.front, serving.stocked, serving.runs, serving.stopped⟩
  untried := untried.symm
  responded := by
    rw [responses_append, silent]
    rfl
  debt := debt

theorem serves_moves {service : Bytes} {s : State} {pc : Pc} (serving : Serving { s with pc := pc })
    (untried : State.untried { s with pc := pc } = s.untried)
    (debt : s.shutdown_requested = true ∨ State.debt { s with pc := pc } ≤ s.debt - 1) :
    Serves service s { s with pc := pc } none := by
  have moved : Serves service s { s with pc := pc, log := s.log ++ [] } none :=
    serves_call serving untried rfl debt
  rwa [List.append_nil] at moved

/-- The thread leaves the `try`, with a response or without. -/
theorem serves_tried {service : Bytes} {s : State} {x : Letter} {returned : Option Object}
    {new : List Entry} (serving : Serving s) (taken : s.pc.taken = some x) (untried : s.untried = s.queue.q)
    (responded : responses new = (answer service (x, returned)).toList) (closer : 1 < s.pc.rank) :
    Serves service s { s with pc := .pop x, log := s.log ++ new } (some (x, returned)) where
  serving := by
    refine ⟨fun y held => ?_, by simp, by simp, by simp⟩
    obtain rfl : x = y := by simpa [Pc.taken] using held
    exact serving.front x taken
  untried := by
    obtain ⟨rest, contents⟩ := List.head?_eq_some_iff.mp (serving.front x taken)
    rw [untried]
    simp [State.untried, contents]
  responded := by
    rw [responses_append, responded]
    cases answered : answer service (x, returned) <;> simp [answered]
  debt := .inr (debt_of_rank closer)

theorem serves_thrown {service : Bytes} {s : State} {x : Letter} (serving : Serving s)
    (taken : s.pc.taken = some x) (untried : s.untried = s.queue.q) (closer : 1 < s.pc.rank) :
    Serves service s { s with pc := .pop x } (some (x, none)) := by
  have thrown : Serves service s { s with pc := .pop x, log := s.log ++ [] } (some (x, none)) :=
    serves_tried serving taken untried rfl closer
  rwa [List.append_nil] at thrown

/-- The `pop` takes off the request that was tried. -/
theorem serves_pop {service : Bytes} {s : State} {x : Letter} {queue : ListenerQueue Letter}
    {removed : Letter} (pc : s.pc = .pop x) (pop : s.queue.pop = some queue) :
    Serves service s
      { s with queue := queue, pc := .check, log := s.log ++ [.popped removed x] } none := by
  obtain ⟨y, rest, contents, rfl⟩ := ListenerQueue.pop_cases pop
  refine ⟨⟨by simp [Pc.taken], by simp, by simp, by simp⟩, ?_, ?_, .inr ?_⟩
  · simp [State.untried, pc, contents]
  · rw [responses_append]
    rfl
  · simp only [State.debt, pc, contents, Pc.rank]
    cases rest with
    | nil => exact Nat.zero_le _
    | cons z rest =>
      simp only [List.length_cons]
      omega

theorem serves_listener {service : Bytes} {s : State} (serving : Serving s) (returned : Option Object) :
    Serves service s (listener (.serviceServer service) s returned) (tried s (.listener returned)) := by
  have front := serving.front
  unfold listener tried
  cases pc : s.pc with
  | check =>
    dsimp only
    split
    · rename_i shutdown
      exact serves_moves ⟨by simp [Pc.taken], by simp, by simp, fun _ => shutdown⟩ (by simp [State.untried, pc])
        (.inl shutdown)
    · exact serves_moves ⟨by simp [Pc.taken], by simp, by simp, by simp⟩ (by simp [State.untried, pc])
        (.inr (debt_of_rank (by simp [pc, Pc.rank])))
  | empty =>
    dsimp only
    split
    · rename_i nothing
      have contents : s.queue.q = [] := by simpa [ListenerQueue.empty] using nothing
      exact serves_moves ⟨by simp [Pc.taken], by simp, by simp, by simp⟩ (by simp [State.untried, pc])
        (.inr (by simp [State.debt, contents]))
    · rename_i nonempty
      refine serves_moves ⟨by simp [Pc.taken], fun _ => ?_, by simp, by simp⟩ (by simp [State.untried, pc])
        (.inr (debt_of_rank (by simp [pc, Pc.rank])))
      simpa [ListenerQueue.empty] using nonempty
  | next =>
    obtain ⟨x, rest, contents⟩ := List.exists_cons_of_ne_nil (serving.stocked pc)
    have next : s.queue.next = some x := by rw [ListenerQueue.next, contents, List.head?_cons]
    dsimp only
    rw [next]
    refine serves_moves ⟨fun y held => ?_, by simp, by simp, by simp⟩ (by simp [State.untried, pc])
      (.inr (debt_of_rank (by simp [pc, Pc.rank])))
    obtain rfl : x = y := by simpa [Pc.taken] using held
    exact next
  | payload x =>
    dsimp only
    cases value : (x.msg.payload).1 with
    | error e =>
      exact serves_thrown serving (by rw [pc]; rfl) (by simp [State.untried, pc]) (by simp [pc, Pc.rank])
    | ok payload =>
      refine serves_call ⟨fun y held => ?_, by simp, by simp, by simp⟩ (by simp [State.untried, pc]) rfl
        (.inr (debt_of_rank (by simp [pc, Pc.rank])))
      obtain rfl : x = y := by simpa [Pc.taken] using held
      exact front x (by rw [pc]; rfl)
  | callback x payload =>
    dsimp only
    cases returned with
    | none =>
      exact serves_thrown serving (by rw [pc]; rfl) (by simp [State.untried, pc]) (by simp [pc, Pc.rank])
    | some values =>
      simp only [response_eq]
      exact serves_tried serving (by rw [pc]; rfl) (by simp [State.untried, pc]) rfl (by simp [pc, Pc.rank])
  | pop x =>
    have next : s.queue.next = some x := front x (by rw [pc]; rfl)
    obtain ⟨rest, contents⟩ := List.head?_eq_some_iff.mp next
    have pop : s.queue.pop = some { s.queue with q := rest } := by simp [ListenerQueue.pop, contents]
    dsimp only
    rw [next, pop]
    exact serves_pop pc pop
  | done =>
    exact ⟨serving, rfl, (List.append_nil _).symm, .inl (serving.stopped pc)⟩
  | terminated => exact absurd pc serving.runs.1
  | undefined => exact absurd pc serving.runs.2

theorem serves_step (service : Bytes) {s : State} (serving : Serving s) {e : Event}
    (alone : ∀ msg, e ≠ .push msg) :
    Serves service s (step (.serviceServer service) s e) (tried s e) := by
  have alive : s.pc ≠ .terminated := serving.runs.1
  cases e with
  | push msg => exact absurd rfl (alone msg)
  | shutdown =>
    rw [show step (.serviceServer service) s .shutdown = { s with shutdown_requested := true } by
      unfold step
      split <;> simp_all]
    exact ⟨⟨serving.front, serving.stocked, serving.runs, fun _ => rfl⟩, rfl, (List.append_nil _).symm,
      .inl rfl⟩
  | listener returned =>
    rw [show step (.serviceServer service) s (.listener returned) =
        listener (.serviceServer service) s returned by
      unfold step
      split <;> simp_all]
    exact serves_listener serving returned

theorem shutdown_step {kind : Kind} {s : State} (shutdown : s.shutdown_requested = true) (e : Event) :
    (step kind s e).shutdown_requested = true := by
  unfold step
  split
  · exact shutdown
  · exact shutdown
  · rfl
  · rwa [listener_shutdown]

/-! ### Every run -/

theorem serves_run (service : Bytes) {s : State} (serving : Serving s) {events : List Event}
    (alone : ∀ e ∈ events, ∀ msg, e ≠ .push msg) :
    Serving (run (.serviceServer service) s events) ∧
      s.untried = (handled (.serviceServer service) s events).map Prod.fst ++
        (run (.serviceServer service) s events).untried ∧
      responses (run (.serviceServer service) s events).log =
        responses s.log ++ (handled (.serviceServer service) s events).filterMap (answer service) ∧
      ((run (.serviceServer service) s events).shutdown_requested = true ∨
        (run (.serviceServer service) s events).debt ≤ s.debt - events.length) := by
  induction events generalizing s with
  | nil => exact ⟨serving, rfl, (List.append_nil _).symm, .inr (Nat.le_refl _)⟩
  | cons e rest ih =>
    have one := serves_step service serving (alone e List.mem_cons_self)
    obtain ⟨serving', untried, responded, debt⟩ :=
      ih one.serving fun d member => alone d (List.mem_cons_of_mem _ member)
    rw [run, Machine.run, handled, List.map_append, List.filterMap_append]
    refine ⟨serving', ?_, ?_, ?_⟩
    · rw [List.append_assoc, ← untried, one.untried]
    · rw [← List.append_assoc, ← one.responded, responded]
    · rcases one.debt with shutdown | paid
      · have keep : ∀ t d, t.shutdown_requested = true →
            (step (.serviceServer service) t d).shutdown_requested = true :=
          fun t d shutdown => shutdown_step shutdown d
        exact .inl (Machine.invariant_run keep shutdown rest)
      · refine debt.imp_right fun left => left.trans ?_
        rw [List.length_cons]
        omega

/-- A server tries its requests in the order of the queue and removes each; its responses are those
of the requests whose `payload` and callback succeeded. No exception ends the thread, and unless it is
shut down, six steps for every request are enough. -/
theorem server_answers_in_order (service : Bytes) (s : State) (events : List Event)
    (idle : s.pc = .check) (alone : ∀ e ∈ events, ∀ msg, e ≠ .push msg) :
    s.queue.q = (handled (.serviceServer service) s events).map Prod.fst ++
        (run (.serviceServer service) s events).untried ∧
      responses (run (.serviceServer service) s events).log =
        responses s.log ++ (handled (.serviceServer service) s events).filterMap (answer service) ∧
      (run (.serviceServer service) s events).pc ≠ .terminated ∧
      (run (.serviceServer service) s events).pc ≠ .undefined ∧
      ((run (.serviceServer service) s events).shutdown_requested = false →
        6 * s.queue.q.length ≤ events.length →
        (run (.serviceServer service) s events).queue.q = []) := by
  have serving : Serving s := by
    constructor <;> simp [idle, Pc.taken]
  obtain ⟨serving', untried, responded, debt⟩ := serves_run service serving alone
  refine ⟨?_, responded, serving'.runs.1, serving'.runs.2, fun running enough => ?_⟩
  · rw [← untried, State.untried, idle]
  · have owed : s.debt ≤ 6 * s.queue.q.length := by
      unfold State.debt
      cases s.queue.q with
      | nil => exact Nat.zero_le _
      | cons x rest =>
        simp only [idle, Pc.rank, List.length_cons]
        omega
    have paid := debt.resolve_left (by simp [running])
    exact empty_of_debt serving' running (by omega)

/-- Four requests: the second has no `op`, and the callback throws for the third. -/
def requests : State :=
  run server (start 10) [.push request, .push { json := .empty }, .push request, .push request]

def mixed : List Event := listens 11 ++ listens 4 ++ .listener none :: listens 8

theorem server_answers_in_order_despite_failures :
    (handled server requests mixed).map (fun o => (o.1.ticket, o.2.isSome)) =
        [(0, true), (1, false), (2, false), (3, true)] ∧
      responses (run server requests mixed).log =
        responses requests.log ++ (handled server requests mixed).filterMap (answer (ascii "/add")) ∧
      (run server requests mixed).queue.q = [] := by
  have alone : ∀ e ∈ mixed, ∀ msg, e ≠ .push msg := by simp [mixed, listens]
  obtain ⟨-, responded, -, -, emptied⟩ :=
    server_answers_in_order (ascii "/add") requests mixed rfl alone
  exact ⟨by decide +kernel, responded, emptied rfl (by decide +kernel)⟩

end Rosbridge.Listen
