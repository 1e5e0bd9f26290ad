import Nghttp2Asio.ServerSupervision
import Nghttp2Asio.Library.RoundRobin

/-!
A `server` with its pool of io_services, its acceptors and the connections they have
accepted (asio_server.cc, asio_io_service_pool.cc). Handlers run one at a time and in any
order; what the resolver and the system answer is part of each action.
-/
namespace Nghttp2Asio.Server
open RoundRobin

/-! The pool of io_services, which are known by their position. -/

abbrev IoServicePool := Cursor

/-- The constructor throws for a pool without io_services. -/
def ioServicePool (poolSize : Nat) : Option IoServicePool :=
  if h : poolSize = 0 then none else some ⟨poolSize, 0, Nat.pos_of_ne_zero h⟩

def getIoService (pool : IoServicePool) : Nat × IoServicePool := pool.pick

/-! Acceptors. -/

inductive Waiting where
  | pending | ready (failed : Bool)
  deriving DecidableEq, Repr

structure Accept where
  ioService : Nat
  state : Waiting
  deriving DecidableEq, Repr

structure Acceptor where
  ioService : Nat
  isOpen : Bool
  accepts : List Accept

/-- The handler of an operation that is under way will be told that it was aborted. -/
def Accept.abort (op : Accept) : Accept :=
  match op.state with
  | .pending => { op with state := .ready true }
  | .ready _ => op

def Acceptor.close (acc : Acceptor) : Acceptor :=
  { acc with isOpen := false, accepts := acc.accepts.map Accept.abort }

abbrev ErrorCode := Option Int

structure Endpoint where
  opened : ErrorCode
  bound : ErrorCode
  listening : ErrorCode

def Endpoint.error (e : Endpoint) : ErrorCode :=
  if e.opened.isSome then e.opened
  else if e.bound.isSome then e.bound
  else e.listening

/-! The server. -/

structure Hosted where
  ioService : Nat
  service : Service

structure Timeouts where
  tlsHandshake : Option Int
  read : Option Int

/-- `made` lists the io_services of all connections made so far, those included whose accept
    is under way or has failed. -/
structure Listener where
  pool : IoServicePool
  tls : Bool
  timeouts : Timeouts
  acceptors : List Acceptor
  connections : List Hosted
  made : List Nat

namespace Listener
variable {α : Type}

def bindEndpoint (st : ErrorCode × IoServicePool × List Acceptor) (e : Endpoint) :
    ErrorCode × IoServicePool × List Acceptor :=
  let (_, pool, acceptors) := st
  let (ioService, pool) := getIoService pool
  match e.error with
  | some failure => (some failure, pool, acceptors)
  | none => (none, pool, acceptors ++ [⟨ioService, true, []⟩])

/-- `resolved` is what the resolver answers. One bound endpoint is enough. -/
def bindAndListen (pool : IoServicePool) (resolved : Except Int (List Endpoint)) :
    ErrorCode × IoServicePool × List Acceptor :=
  let (_, pool) := getIoService pool
  match resolved with
  | .error failure => (some failure, pool, [])
  | .ok endpoints =>
    let (ec, pool, acceptors) := endpoints.foldl bindEndpoint (none, pool, [])
    if acceptors.isEmpty then (ec, pool, acceptors) else (none, pool, acceptors)

def startAccept (s : Listener) (i : Nat) : Listener :=
  match s.acceptors[i]? with
  | none => s
  | some acc =>
    if !acc.isOpen then s
    else
      let (ioService, pool) := getIoService s.pool
      { s with
        pool := pool
        acceptors := s.acceptors.set i { acc with accepts := acc.accepts ++ [⟨ioService, .pending⟩] }
        made := s.made ++ [ioService] }

def listenAndServe (poolSize : Nat) (tls : Bool) (timeouts : Timeouts)
    (resolved : Except Int (List Endpoint)) : Option (ErrorCode × Listener) := do
  let pool ← ioServicePool poolSize
  let (ec, pool, acceptors) := bindAndListen pool resolved
  let s : Listener := ⟨pool, tls, timeouts, acceptors, [], []⟩
  if ec.isSome then some (ec, s)
  else some (ec, (List.range acceptors.length).foldl startAccept s)

def takeIn (s : Listener) (op : Accept) (failed : Bool) (now : Int) (a : Answers) : List Hosted :=
  if failed then s.connections
  else
    s.connections ++
      [⟨op.ioService, .accepted s.tls now s.timeouts.tlsHandshake s.timeouts.read a⟩]

def acceptDone (s : Listener) (i k : Nat) (now : Int) (a : Answers) : Option Listener := do
  let acc ← s.acceptors[i]?
  let op ← acc.accepts[k]?
  match op.state with
  | .pending => none
  | .ready failed =>
    let s := { s with
      acceptors := s.acceptors.set i { acc with accepts := acc.accepts.eraseIdx k }
      connections := s.takeIn op failed now a }
    if s.tls then some (s.startAccept i)
    -- the handler for plain sockets asks before `start_accept` does
    else if acc.isOpen then some (s.startAccept i)
    else some s

def stop (s : Listener) : Listener := { s with acceptors := s.acceptors.map Acceptor.close }

inductive Action where
  | incoming (i k : Nat) (failed : Bool)
  | accept (i k : Nat) (now : Int) (a : Answers)
  | connection (j : Nat) (act : Service.Action)
  | stop

def incoming (s : Listener) (i k : Nat) (failed : Bool) : Option Listener := do
  let acc ← s.acceptors[i]?
  let op ← acc.accepts[k]?
  match op.state with
  | .ready _ => none
  | .pending =>
    some { s with
      acceptors := s.acceptors.set i
        { acc with accepts := acc.accepts.set k { op with state := .ready failed } } }

def serve (app : App α) (s : Listener) (j : Nat) (act : Service.Action) : Option Listener := do
  let c ← s.connections[j]?
  let service ← c.service.step app act
  some { s with connections := s.connections.set j { c with service := service } }

def step (app : App α) (s : Listener) : Action → Option Listener
  | .incoming i k failed => s.incoming i k failed
  | .accept i k now a => s.acceptDone i k now a
  | .connection j act => s.serve app j act
  | .stop => some s.stop

def run (app : App α) (s : Listener) (actions : List Action) : Option Listener :=
  actions.foldlM (step app) s

/-! What holds between any two handlers. -/

end Listener

/-- An open acceptor waits for one connection; a closed one has at most a handler left, which
    is ready. -/
structure Acceptor.Served (acc : Acceptor) : Prop where
  single : acc.isOpen = true → acc.accepts.length = 1
  last : acc.isOpen = false → acc.accepts.length ≤ 1 ∧ ∀ op ∈ acc.accepts, op.state ≠ .pending

theorem Acceptor.Served.short {acc : Acceptor} (served : acc.Served) : acc.accepts.length ≤ 1 := by
  cases isOpen : acc.isOpen with
  | true => exact Nat.le_of_eq (served.single isOpen)
  | false => exact (served.last isOpen).1

theorem Acceptor.Served.only {acc : Acceptor} {op : Accept} {k : Nat} (served : acc.Served)
    (here : acc.accepts[k]? = some op) : acc.accepts = [op] ∧ k = 0 := by
  have short := served.short
  obtain ⟨inside, value⟩ := List.getElem?_eq_some_iff.mp here
  obtain rfl : k = 0 := by omega
  obtain ⟨first, only⟩ := List.length_eq_one_iff.mp (Nat.le_antisymm short inside)
  simp only [only, List.getElem_cons_zero] at value
  exact ⟨value ▸ only, rfl⟩

theorem Acceptor.Served.close {acc : Acceptor} (served : acc.Served) : acc.close.Served := by
  constructor
  · intro reopened
    cases reopened
  · intro _
    constructor
    · simpa [Acceptor.close] using served.short
    · intro op member
      obtain ⟨old, _, rfl⟩ := List.mem_map.mp member
      unfold Accept.abort
      split
      · simp
      · rename_i ready
        simp [ready]

namespace Listener
variable {α : Type} {s t : Listener}

def Serves (except : Nat → Bool) (acceptors : List Acceptor) : Prop :=
  ∀ i acc, acceptors[i]? = some acc → if except i then acc.accepts = [] else acc.Served

theorem Serves.set {except now : Nat → Bool} {acceptors : List Acceptor}
    (serves : Serves except acceptors) {i : Nat} (others : ∀ j, j ≠ i → now j = except j)
    {acc : Acceptor} (here : if now i then acc.accepts = [] else acc.Served) :
    Serves now (acceptors.set i acc) := by
  intro j other found
  by_cases same : i = j
  · subst same
    obtain ⟨inside, value⟩ := List.getElem?_eq_some_iff.mp found
    rw [List.getElem_set_self] at value
    exact value ▸ here
  · rw [List.getElem?_set_ne same] at found
    rw [others j (Ne.symm same)]
    exact serves j other found

theorem startAccept_serves {except now : Nat → Bool} {i : Nat} (serves : Serves except s.acceptors)
    (bare : except i = true) (others : ∀ j, j ≠ i → now j = except j) (armed : now i = false) :
    Serves now (s.startAccept i).acceptors := by
  unfold startAccept
  split
  · rename_i outside
    intro j acc found
    have apart : j ≠ i := by
      rintro rfl
      rw [outside] at found
      contradiction
    rw [others j apart]
    exact serves j acc found
  · rename_i acc here
    have empty := serves i acc here
    rw [if_pos bare] at empty
    split
    · rename_i closed
      have closed : acc.isOpen = false := by simpa using closed
      intro j other found
      by_cases same : j = i
      · subst same
        obtain rfl : acc = other := Option.some.inj (here.symm.trans found)
        rw [if_neg (by simp [armed])]
        exact ⟨fun isOpen => absurd isOpen (by simp [closed]), fun _ => by simp [empty]⟩
      · rw [others j same]
        exact serves j other found
    · rename_i isOpen
      have isOpen : acc.isOpen = true := by simpa using isOpen
      apply serves.set others
      rw [if_neg (by simp [armed])]
      exact ⟨fun _ => by simp [empty], fun closed => absurd closed (by simp [isOpen])⟩

def AllServed (s : Listener) : Prop := Serves (fun _ => false) s.acceptors

theorem AllServed.acceptor (served : s.AllServed) {i : Nat} {acc : Acceptor}
    (here : s.acceptors[i]? = some acc) : acc.Served := by
  simpa using served i acc here

theorem AllServed.incoming {i k : Nat} {failed : Bool} (served : s.AllServed)
    (made : s.incoming i k failed = some t) : t.AllServed := by
  obtain ⟨acc, here, made⟩ := Option.bind_eq_some_iff.mp made
  obtain ⟨op, waits, made⟩ := Option.bind_eq_some_iff.mp made
  have before := served.acceptor here
  obtain ⟨only, rfl⟩ := before.only waits
  split at made
  · contradiction
  · rename_i pending
    obtain rfl := Option.some.inj made
    refine Serves.set served (fun _ _ => rfl) ?_
    rw [if_neg (by simp)]
    refine ⟨fun _ => by simp [only], fun closed => ?_⟩
    exact absurd pending ((before.last closed).2 op (by simp [only]))

theorem AllServed.stop (served : s.AllServed) : s.stop.AllServed := by
  intro i acc found
  simp only [Listener.stop, List.getElem?_map, Option.map_eq_some_iff] at found
  obtain ⟨before, here, rfl⟩ := found
  rw [if_neg (by simp)]
  exact (served.acceptor here).close

theorem acceptDone_some {i k : Nat} {now : Int} {a : Answers} (made : s.acceptDone i k now a = some t) :
    ∃ acc op failed, s.acceptors[i]? = some acc ∧ acc.accepts[k]? = some op ∧
      op.state = .ready failed ∧
      t = Listener.startAccept { s with
        acceptors := s.acceptors.set i { acc with accepts := acc.accepts.eraseIdx k }
        connections := s.takeIn op failed now a } i := by
  obtain ⟨acc, here, made⟩ := Option.bind_eq_some_iff.mp made
  obtain ⟨op, waits, made⟩ := Option.bind_eq_some_iff.mp made
  split at made
  · contradiction
  · rename_i failed ready
    refine ⟨acc, op, failed, here, waits, ready, ?_⟩
    simp only at made
    split at made
    · exact (Option.some.inj made).symm
    · split at made
      · exact (Option.some.inj made).symm
      · rename_i closed
        rw [← Option.some.inj made]
        have inside := (List.getElem?_eq_some_iff.mp here).1
        simp [startAccept, List.getElem?_set_self inside, closed]

theorem AllServed.accept {i k : Nat} {now : Int} {a : Answers} (served : s.AllServed)
    (made : s.acceptDone i k now a = some t) : t.AllServed := by
  obtain ⟨acc, op, failed, here, waits, _, rfl⟩ := acceptDone_some made
  obtain ⟨only, rfl⟩ := (served.acceptor here).only waits
  have bare : Serves (· = i) (s.acceptors.set i { acc with accepts := acc.accepts.eraseIdx 0 }) := by
    refine Serves.set served (fun j apart => by simp [apart]) ?_
    simp [only]
  exact startAccept_serves bare (by simp) (fun j apart => by simp [apart]) rfl

/-! What has been accepted. -/

theorem startAccept_cases (s : Listener) (i : Nat) : s.startAccept i = s ∨
    ∃ acc, s.acceptors[i]? = some acc ∧ acc.isOpen = true ∧ s.startAccept i = { s with
      pool := s.pool.pick.2
      acceptors := s.acceptors.set i
        { acc with accepts := acc.accepts ++ [⟨s.pool.pick.1, .pending⟩] }
      made := s.made ++ [s.pool.pick.1] } := by
  cases here : s.acceptors[i]? with
  | none => exact .inl (by simp [startAccept, here])
  | some acc =>
    cases isOpen : acc.isOpen with
    | false => exact .inl (by simp [startAccept, here, isOpen])
    | true => exact .inr ⟨acc, rfl, isOpen, by simp [startAccept, here, isOpen, getIoService]⟩

def waiting (p : Accept → Bool) (acceptors : List Acceptor) : Nat :=
  (acceptors.map (fun acc => acc.accepts.countP p)).sum

theorem waiting_set {p : Accept → Bool} {acceptors : List Acceptor} {i : Nat} {acc : Acceptor}
    (here : acceptors[i]? = some acc) (now : Acceptor) :
    waiting p (acceptors.set i now) + acc.accepts.countP p =
      waiting p acceptors + now.accepts.countP p := by
  unfold waiting
  induction acceptors generalizing i with
  | nil => simp at here
  | cons first rest ih =>
    cases i with
    | zero =>
      obtain rfl : first = acc := by simpa using here
      simp only [List.set_cons_zero, List.map_cons, List.sum_cons]
      omega
    | succ i =>
      have rest_set := ih (by simpa using here)
      simp only [List.set_cons_succ, List.map_cons, List.sum_cons]
      omega

theorem waiting_idle (p : Accept → Bool) {acceptors : List Acceptor}
    (idle : ∀ acc ∈ acceptors, acc.accepts = []) : waiting p acceptors = 0 := by
  induction acceptors with
  | nil => rfl
  | cons acc rest ih =>
    have others := ih (fun acc member => idle acc (List.mem_cons_of_mem _ member))
    unfold waiting at others ⊢
    simp [others, idle acc List.mem_cons_self]

theorem countP_replace {β : Type} {p : β → Bool} {l : List β} {k : Nat} {old now : β}
    (here : l[k]? = some old) (same : p now = p old) : (l.set k now).countP p = l.countP p := by
  induction l generalizing k with
  | nil => simp at here
  | cons first rest ih =>
    cases k with
    | zero =>
      obtain rfl : first = old := by simpa using here
      rw [List.set_cons_zero, List.countP_cons, List.countP_cons, same]
    | succ k => rw [List.set_cons_succ, List.countP_cons, List.countP_cons, ih (by simpa using here)]

theorem countP_eraseIdx {p : Accept → Bool} {accepts : List Accept} {k : Nat} {op : Accept}
    (here : accepts[k]? = some op) :
    (accepts.eraseIdx k).countP p + (if p op then 1 else 0) = accepts.countP p := by
  induction accepts generalizing k with
  | nil => simp at here
  | cons first rest ih =>
    cases k with
    | zero =>
      obtain rfl : first = op := by simpa using here
      rw [List.eraseIdx_cons_zero, List.countP_cons]
    | succ k =>
      have erased := ih (by simpa using here)
      rw [List.eraseIdx_cons_succ, List.countP_cons, List.countP_cons]
      omega

theorem waiting_append {p : Accept → Bool} {acceptors : List Acceptor} {i : Nat} {acc : Acceptor}
    (here : acceptors[i]? = some acc) (op : Accept) :
    waiting p (acceptors.set i { acc with accepts := acc.accepts ++ [op] }) =
      waiting p acceptors + if p op then 1 else 0 := by
  have moved := waiting_set (p := p) here { acc with accepts := acc.accepts ++ [op] }
  simp only [List.countP_append, List.countP_singleton] at moved
  omega

theorem waiting_erase {p : Accept → Bool} {acceptors : List Acceptor} {i k : Nat} {acc : Acceptor}
    {op : Accept} (here : acceptors[i]? = some acc) (waits : acc.accepts[k]? = some op) :
    waiting p (acceptors.set i { acc with accepts := acc.accepts.eraseIdx k }) +
      (if p op then 1 else 0) = waiting p acceptors := by
  have moved := waiting_set (p := p) here { acc with accepts := acc.accepts.eraseIdx k }
  have erased := countP_eraseIdx (p := p) waits
  simp only at moved
  omega

def Reached (app : App α) (tls : Bool) (timeouts : Timeouts) (c : Hosted) : Prop :=
  ∃ now a actions, (Service.accepted tls now timeouts.tlsHandshake timeouts.read a).run app actions =
    some c.service

def onService (ioService : Nat) (op : Accept) : Bool := op.ioService = ioService

structure Accounts (app : App α) (size start : Nat) (tls : Bool) (timeouts : Timeouts)
    (s : Listener) : Prop where
  kind : s.tls = tls
  limits : s.timeouts = timeouts
  turned : s.pool.Turned size start s.made.length
  made : s.made = turns size start s.made.length
  kept : ∀ ioService, s.connections.countP (fun c => c.ioService = ioService) +
    waiting (onService ioService) s.acceptors ≤ s.made.count ioService
  reached : ∀ c ∈ s.connections, Reached app tls timeouts c

section Accounts
variable {app : App α} {size start : Nat} {tls : Bool} {timeouts : Timeouts}

theorem Accounts.startAccept (accounts : Accounts app size start tls timeouts s) (i : Nat) :
    Accounts app size start tls timeouts (s.startAccept i) := by
  rcases startAccept_cases s i with same | ⟨acc, here, _, started⟩
  · rwa [same]
  · obtain ⟨slot, turned⟩ := accounts.turned.pick
    rw [started]
    refine ⟨accounts.kind, accounts.limits, ?_, ?_, ?_, accounts.reached⟩
    · simpa using turned
    · rw [List.length_append, List.length_singleton, turns_succ, ← slot, ← accounts.made]
    · intro ioService
      have before := accounts.kept ioService
      rw [waiting_append here, List.count_append, List.count_singleton]
      simp only [onService, decide_eq_true_eq, beq_iff_eq]
      omega

theorem Accounts.takeIn (accounts : Accounts app size start tls timeouts s) {i k : Nat}
    {acc : Acceptor} {op : Accept} (here : s.acceptors[i]? = some acc)
    (waits : acc.accepts[k]? = some op) (failed : Bool) (now : Int) (a : Answers) :
    Accounts app size start tls timeouts { s with
      acceptors := s.acceptors.set i { acc with accepts := acc.accepts.eraseIdx k }
      connections := s.takeIn op failed now a } := by
  refine ⟨accounts.kind, accounts.limits, accounts.turned, accounts.made, ?_, ?_⟩
  · intro ioService
    have before := accounts.kept ioService
    have erased := waiting_erase (p := onService ioService) here waits
    simp only [Listener.takeIn]
    split
    · omega
    · simp only [List.countP_append, List.countP_singleton, onService, decide_eq_true_eq] at erased ⊢
      omega
  · intro c member
    simp only [Listener.takeIn] at member
    split at member
    · exact accounts.reached c member
    · rcases List.mem_append.mp member with old | young
      · exact accounts.reached c old
      · obtain rfl := List.mem_singleton.mp young
        refine ⟨now, a, [], ?_⟩
        rw [accounts.kind, accounts.limits]
        rfl

theorem Accounts.acceptDone (accounts : Accounts app size start tls timeouts s) {i k : Nat}
    {now : Int} {a : Answers} (made : s.acceptDone i k now a = some t) :
    Accounts app size start tls timeouts t := by
  obtain ⟨acc, op, failed, here, waits, _, rfl⟩ := acceptDone_some made
  exact (accounts.takeIn here waits failed now a).startAccept i

theorem Accounts.setAcceptors (accounts : Accounts app size start tls timeouts s)
    {acceptors : List Acceptor} (same : ∀ ioService,
      waiting (onService ioService) acceptors = waiting (onService ioService) s.acceptors) :
    Accounts app size start tls timeouts { s with acceptors := acceptors } :=
  { accounts with
    kept := fun ioService => by
      rw [same]
      exact accounts.kept ioService }

theorem incoming_some {i k : Nat} {failed : Bool} (made : s.incoming i k failed = some t) :
    ∃ acc op, s.acceptors[i]? = some acc ∧ acc.accepts[k]? = some op ∧ op.state = .pending ∧
      t = { s with
        acceptors := s.acceptors.set i
          { acc with accepts := acc.accepts.set k { op with state := .ready failed } } } := by
  obtain ⟨acc, here, made⟩ := Option.bind_eq_some_iff.mp made
  obtain ⟨op, waits, made⟩ := Option.bind_eq_some_iff.mp made
  split at made
  · contradiction
  · rename_i pending
    exact ⟨acc, op, here, waits, pending, (Option.some.inj made).symm⟩

def Fixed (p : Accept → Bool) : Prop := ∀ (op : Accept) state, p { op with state := state } = p op

theorem waiting_incoming {p : Accept → Bool} (fixed : Fixed p) {i k : Nat} {failed : Bool}
    (made : s.incoming i k failed = some t) : waiting p t.acceptors = waiting p s.acceptors := by
  obtain ⟨acc, op, here, waits, _, rfl⟩ := incoming_some made
  have moved := waiting_set (p := p) here
    { acc with accepts := acc.accepts.set k { op with state := .ready failed } }
  have counted := countP_replace (p := p) waits (fixed op (.ready failed))
  simp only at moved ⊢
  omega

theorem waiting_stop {p : Accept → Bool} (fixed : Fixed p) (s : Listener) :
    waiting p s.stop.acceptors = waiting p s.acceptors := by
  have aborted : ∀ op, p (Accept.abort op) = p op := by
    intro op
    unfold Accept.abort
    split
    · exact fixed op (.ready true)
    · rfl
  have closed : ∀ acc : Acceptor, acc.close.accepts.countP p = acc.accepts.countP p := by
    intro acc
    rw [Acceptor.close, List.countP_map]
    exact congrArg (List.countP · acc.accepts) (funext aborted)
  unfold waiting Listener.stop
  rw [List.map_map]
  exact congrArg (fun f => (s.acceptors.map f).sum) (funext closed)

theorem Accounts.serve (accounts : Accounts app size start tls timeouts s) {j : Nat}
    {act : Service.Action} (made : s.serve app j act = some t) :
    Accounts app size start tls timeouts t := by
  obtain ⟨c, here, made⟩ := Option.bind_eq_some_iff.mp made
  obtain ⟨service, stepped, made⟩ := Option.bind_eq_some_iff.mp made
  obtain rfl := Option.some.inj made
  refine ⟨accounts.kind, accounts.limits, accounts.turned, accounts.made, ?_, ?_⟩
  · intro ioService
    have same : (s.connections.set j { c with service := service }).countP
        (fun c => c.ioService = ioService) = s.connections.countP (fun c => c.ioService = ioService) :=
      countP_replace here rfl
    have before := accounts.kept ioService
    simp only at same ⊢
    rwa [same]
  · intro d member
    rcases List.mem_or_eq_of_mem_set member with old | rfl
    · exact accounts.reached d old
    · obtain ⟨now, a, actions, ran⟩ := accounts.reached c (List.mem_of_getElem? here)
      refine ⟨now, a, actions ++ [act], ?_⟩
      rw [Service.run, List.foldlM_append]
      exact Option.bind_eq_some_iff.mpr ⟨c.service, ran, by simp [stepped]⟩

theorem Accounts.step {act : Action} (accounts : Accounts app size start tls timeouts s)
    (made : s.step app act = some t) : Accounts app size start tls timeouts t := by
  cases act with
  | incoming i k failed =>
    have same := fun ioService =>
      waiting_incoming (p := onService ioService) (fun _ _ => rfl) made
    obtain ⟨acc, op, _, _, _, rfl⟩ := incoming_some made
    exact accounts.setAcceptors same
  | accept i k now a => exact accounts.acceptDone made
  | connection j act => exact accounts.serve made
  | stop =>
    obtain rfl := Option.some.inj made
    exact accounts.setAcceptors (fun ioService =>
      waiting_stop (p := onService ioService) (fun _ _ => rfl) s)

end Accounts

/-! Listening. -/

theorem ioServicePool_turned {size : Nat} {pool : IoServicePool} (made : ioServicePool size = some pool) :
    pool.Turned size 0 0 := by
  unfold ioServicePool at made
  split at made
  · contradiction
  · obtain rfl := Option.some.inj made
    exact ⟨rfl, (Nat.zero_mod size).symm⟩

/-- The io_services of the acceptors of the endpoints that could be bound, when the turns of
    all endpoints start at `first`. -/
def boundOn (size first : Nat) (endpoints : List Endpoint) : List Nat :=
  ((endpoints.zip (turns size first endpoints.length)).filter (fun x => x.1.error.isNone)).map Prod.snd

theorem boundOn_concat (size first : Nat) (endpoints : List Endpoint) (e : Endpoint) :
    boundOn size first (endpoints ++ [e]) = boundOn size first endpoints ++
      if e.error.isNone then [(first + endpoints.length) % size] else [] := by
  unfold boundOn
  rw [List.length_append, List.length_singleton, turns_succ,
    List.zip_append (by simp), List.filter_append, List.map_append]
  congr 1
  cases failed : e.error <;> simp [failed]

structure Bound (size first : Nat) (endpoints : List Endpoint)
    (st : ErrorCode × IoServicePool × List Acceptor) : Prop where
  error : st.1 = endpoints.getLast?.bind Endpoint.error
  pool : st.2.1.Turned size first endpoints.length
  idle : ∀ acc ∈ st.2.2, acc.isOpen = true ∧ acc.accepts = []
  places : st.2.2.map Acceptor.ioService = boundOn size first endpoints

theorem bind_loop {size first : Nat} {pool : IoServicePool} (turned : pool.Turned size first 0)
    (endpoints : List Endpoint) :
    Bound size first endpoints (endpoints.foldl bindEndpoint (none, pool, [])) := by
  induction endpoints using List.reverseRecOn with
  | nil => exact ⟨rfl, turned, by simp, rfl⟩
  | append_singleton endpoints e ih =>
    rw [List.foldl_append]
    obtain ⟨slot, next⟩ := ih.pool.pick
    generalize endpoints.foldl bindEndpoint (none, pool, []) = st at *
    obtain ⟨ec, pool, acceptors⟩ := st
    simp only [List.foldl_cons, List.foldl_nil, bindEndpoint, getIoService]
    cases failed : e.error with
    | some failure =>
      refine ⟨by simp [failed], by simpa using next, ih.idle, ?_⟩
      rw [boundOn_concat, failed]
      simpa using ih.places
    | none =>
      refine ⟨by simp [failed], by simpa using next, ?_, ?_⟩
      · intro acc member
        rcases List.mem_append.mp member with old | young
        · exact ih.idle acc old
        · obtain rfl := List.mem_singleton.mp young
          exact ⟨rfl, rfl⟩
      · rw [boundOn_concat, failed, List.map_append, ih.places]
        simpa using slot

theorem startAccept_places (s : Listener) (i : Nat) :
    (s.startAccept i).acceptors.map (fun acc => (acc.ioService, acc.isOpen)) =
      s.acceptors.map (fun acc => (acc.ioService, acc.isOpen)) := by
  rcases startAccept_cases s i with same | ⟨acc, here, _, started⟩
  · rw [same]
  · obtain ⟨inside, value⟩ := List.getElem?_eq_some_iff.mp here
    rw [started, List.map_set]
    apply List.ext_getElem
    · simp
    · intro j _ _
      simp only [List.getElem_set, List.getElem_map]
      split
      · rename_i same
        subst same
        rw [value]
      · rfl

theorem start_all {s : Listener} (idle : ∀ acc ∈ s.acceptors, acc.accepts = []) (n : Nat) :
    Serves (fun i => n ≤ i) ((List.range n).foldl startAccept s).acceptors ∧
      ((List.range n).foldl startAccept s).acceptors.map (fun acc => (acc.ioService, acc.isOpen)) =
        s.acceptors.map (fun acc => (acc.ioService, acc.isOpen)) := by
  induction n with
  | zero =>
    refine ⟨?_, rfl⟩
    intro i acc found
    rw [if_pos (by simp)]
    exact idle acc (List.mem_of_getElem? found)
  | succ n ih =>
    rw [List.range_succ, List.foldl_append, List.foldl_cons, List.foldl_nil]
    constructor
    · apply startAccept_serves ih.1
      · simp
      · intro j apart
        simp only [decide_eq_decide]
        omega
      · simp
    · exact (startAccept_places _ n).trans ih.2

theorem Accounts.startAll {app : App α} {size start : Nat} {tls : Bool} {timeouts : Timeouts}
    (accounts : Accounts app size start tls timeouts s) (is : List Nat) :
    Accounts app size start tls timeouts (is.foldl Listener.startAccept s) := by
  induction is generalizing s with
  | nil => exact accounts
  | cons i is ih => exact ih (accounts.startAccept i)

theorem accounts_new (app : App α) {size start : Nat} (tls : Bool) (timeouts : Timeouts)
    {pool : IoServicePool} (turned : pool.Turned size start 0) {acceptors : List Acceptor}
    (idle : ∀ acc ∈ acceptors, acc.accepts = []) :
    Accounts app size start tls timeouts ⟨pool, tls, timeouts, acceptors, [], []⟩ := by
  refine ⟨rfl, rfl, turned, rfl, ?_, by simp⟩
  intro ioService
  simp [waiting_idle (onService ioService) idle]

def firstTurn (endpoints : List Endpoint) : Nat := 1 + endpoints.length

theorem boundOn_isEmpty (size first : Nat) (endpoints : List Endpoint) :
    (boundOn size first endpoints).isEmpty = !endpoints.any (fun e => e.error.isNone) := by
  induction endpoints using List.reverseRecOn with
  | nil => rfl
  | append_singleton endpoints e ih =>
    rw [boundOn_concat, List.any_append]
    cases failed : e.error <;> simp [failed, ← ih]

def endpointsOf : Except Int (List Endpoint) → List Endpoint
  | .error _ => []
  | .ok endpoints => endpoints

/-- What comes of listening: the error of the resolver, and that of the last endpoint where
    none could be bound. -/
def listenError : Except Int (List Endpoint) → ErrorCode
  | .error failure => some failure
  | .ok endpoints =>
    if endpoints.any (fun e => e.error.isNone) then none else endpoints.getLast?.bind Endpoint.error

theorem listenError_unbound {resolved : Except Int (List Endpoint)} (size first : Nat)
    (failed : (listenError resolved).isSome) : boundOn size first (endpointsOf resolved) = [] := by
  cases resolved with
  | error => rfl
  | ok endpoints =>
    apply List.isEmpty_iff.mp
    rw [endpointsOf, boundOn_isEmpty]
    by_contra bound
    rw [listenError, if_pos (by simpa using bound)] at failed
    contradiction

theorem bind_spec {size : Nat} {pool : IoServicePool} (made : ioServicePool size = some pool)
    (resolved : Except Int (List Endpoint)) :
    (bindAndListen pool resolved).1 = listenError resolved ∧
      (bindAndListen pool resolved).2.1.Turned size (firstTurn (endpointsOf resolved)) 0 ∧
      (∀ acc ∈ (bindAndListen pool resolved).2.2, acc.isOpen = true ∧ acc.accepts = []) ∧
      (bindAndListen pool resolved).2.2.map Acceptor.ioService =
        boundOn size 1 (endpointsOf resolved) := by
  have second : (getIoService pool).2.Turned size 1 0 := (ioServicePool_turned made).pick.2.shift
  cases resolved with
  | error failure => exact ⟨rfl, second, by simp [bindAndListen], rfl⟩
  | ok endpoints =>
    have bound := bind_loop second endpoints
    have empty := boundOn_isEmpty size 1 endpoints
    rw [← bound.places, List.isEmpty_map] at empty
    unfold bindAndListen listenError endpointsOf
    simp only
    generalize endpoints.foldl bindEndpoint (none, (getIoService pool).2, []) = st at *
    obtain ⟨ec, pool, acceptors⟩ := st
    have shifted := bound.pool.shift
    simp only at empty ⊢
    split
    · rename_i failed
      refine ⟨?_, shifted, bound.idle, bound.places⟩
      rw [failed] at empty
      rw [if_neg (by simpa using empty.symm)]
      exact bound.error
    · rename_i some_
      refine ⟨?_, shifted, bound.idle, bound.places⟩
      rw [Bool.eq_false_of_not_eq_true some_] at empty
      rw [if_pos (by simpa using empty.symm)]

theorem listen_spec (app : App α) {size : Nat} {tls : Bool} {timeouts : Timeouts}
    {resolved : Except Int (List Endpoint)} {ec : ErrorCode} {s : Listener}
    (listening : listenAndServe size tls timeouts resolved = some (ec, s)) :
    ec = listenError resolved ∧
      s.acceptors.map Acceptor.ioService = boundOn size 1 (endpointsOf resolved) ∧
      (∀ acc ∈ s.acceptors, acc.isOpen = true) ∧ s.AllServed ∧
      Accounts app size (firstTurn (endpointsOf resolved)) tls timeouts s := by
  obtain ⟨pool, made, listening⟩ := Option.bind_eq_some_iff.mp listening
  obtain ⟨error, turned, fresh, places⟩ := bind_spec made resolved
  generalize bindAndListen pool resolved = st at *
  obtain ⟨ec', pool', acceptors⟩ := st
  have idle : ∀ acc ∈ acceptors, acc.accepts = [] := fun acc member => (fresh acc member).2
  have accounts := accounts_new app tls timeouts turned idle
  simp only at listening error turned fresh places
  split at listening
  · rename_i failed
    obtain ⟨rfl, rfl⟩ := Prod.mk.inj (Option.some.inj listening)
    refine ⟨error, places, fun acc member => (fresh acc member).1, ?_, accounts⟩
    rw [error] at failed
    rw [listenError_unbound size 1 failed, List.map_eq_nil_iff] at places
    intro i acc found
    simp [places] at found
  · obtain ⟨rfl, rfl⟩ := Prod.mk.inj (Option.some.inj listening)
    obtain ⟨served, same⟩ := @start_all ⟨pool', tls, timeouts, acceptors, [], []⟩ idle acceptors.length
    have first := congrArg (List.map Prod.fst) same
    simp only [List.map_map, Function.comp_def] at first
    refine ⟨error, first.trans places, fun acc member => ?_, ?_, accounts.startAll _⟩
    · have known := List.mem_map_of_mem (f := fun acc : Acceptor => (acc.ioService, acc.isOpen)) member
      rw [same] at known
      obtain ⟨old, there, alike⟩ := List.mem_map.mp known
      rw [← (Prod.mk.inj alike).2]
      exact (fresh old there).1
    intro i acc found
    have inside := (List.getElem?_eq_some_iff.mp found).1
    have length := congrArg List.length same
    simp only [List.length_map] at length
    have here := served i acc found
    rw [if_neg (by simp only [decide_eq_true_eq]; omega)] at here
    simpa using here

/-! Whole runs. -/

theorem AllServed.step {app : App α} {act : Action} (served : s.AllServed)
    (made : s.step app act = some t) : t.AllServed := by
  cases act with
  | incoming i k failed => exact served.incoming made
  | accept i k now a => exact served.accept made
  | connection j act =>
    obtain ⟨c, _, made⟩ := Option.bind_eq_some_iff.mp made
    obtain ⟨service, _, made⟩ := Option.bind_eq_some_iff.mp made
    obtain rfl := Option.some.inj made
    exact served
  | stop =>
    obtain rfl := Option.some.inj made
    exact served.stop

/-- Whatever is accepted, refused, served and stopped, and in whatever order: an open acceptor
    always waits for exactly one connection; connections are made on the io_services in turn,
    so that none has more than one more than another; those that are served are among them and
    in states of their own runs. One endpoint that can be bound is enough to listen. -/
theorem accept_loop {app : App α} {size : Nat} {tls : Bool} {timeouts : Timeouts}
    {resolved : Except Int (List Endpoint)} {ec : ErrorCode} {first : Listener}
    (listening : listenAndServe size tls timeouts resolved = some (ec, first)) :
    ec = listenError resolved ∧
      first.acceptors.map Acceptor.ioService = boundOn size 1 (endpointsOf resolved) ∧
      (∀ acc ∈ first.acceptors, acc.isOpen = true) ∧
      ∀ (actions : List Action) (s : Listener), first.run app actions = some s →
        (∀ acc ∈ s.acceptors, acc.Served) ∧
          s.made = turns size (firstTurn (endpointsOf resolved)) s.made.length ∧
          (∀ a b, a < size → b < size → s.made.count a ≤ s.made.count b + 1) ∧
          (∀ ioService, s.connections.countP (fun c => c.ioService = ioService) +
            waiting (onService ioService) s.acceptors ≤ s.made.count ioService) ∧
          ∀ c ∈ s.connections, Reached app tls timeouts c := by
  obtain ⟨error, places, listens, served, accounts⟩ := listen_spec app listening
  refine ⟨error, places, listens, ?_⟩
  intro actions s ran
  have served := Trace.foldlM_preserves AllServed actions (fun _ => AllServed.step) served ran
  have accounts := Trace.foldlM_preserves
    (Accounts app size (firstTurn (endpointsOf resolved)) tls timeouts) actions
    (fun _ => Accounts.step) accounts ran
  refine ⟨?_, accounts.made, ?_, accounts.kept, accounts.reached⟩
  · intro acc member
    obtain ⟨i, here⟩ := List.mem_iff_getElem?.mp member
    exact served.acceptor here
  · intro a b a_inside b_inside
    rw [accounts.made]
    exact turns_balanced a_inside b_inside _

def twoOfThree : Option (ErrorCode × Listener) :=
  listenAndServe 2 false ⟨some 60, some 60⟩
    (.ok [⟨none, none, none⟩, ⟨none, some 98, none⟩, ⟨none, none, none⟩])

def twoComeIn : List Action :=
  [.incoming 0 0 false, .incoming 1 0 true, .accept 1 0 3 Service.quiet,
    .accept 0 0 5 Service.quiet, .connection 0 (.complete .read true)]

theorem accept_loop_two : ∃ ec first s, twoOfThree = some (ec, first) ∧
    first.run Service.emptyApp twoComeIn = some s ∧ ∀ acc ∈ s.acceptors, acc.Served := by
  have reached : twoOfThree.any (fun r => (r.2.run Service.emptyApp twoComeIn).isSome) = true := by
    decide +kernel
  obtain ⟨⟨ec, first⟩, listening, ran⟩ := (Option.any_eq_true _ _).mp reached
  obtain ⟨s, ran⟩ := Option.isSome_iff_exists.mp ran
  exact ⟨ec, first, s, listening, ran, ((accept_loop listening).2.2.2 twoComeIn s ran).1⟩

/-! After `stop`. -/

def Closed (s : Listener) : Prop := ∀ acc ∈ s.acceptors, acc.isOpen = false

def Action.isAccept : Action → Bool
  | .accept .. => true
  | _ => false

def Action.acceptsAt (i : Nat) : Action → Bool
  | .accept j .. => i = j
  | _ => false

def anyAccept (_ : Accept) : Bool := true

def left (i : Nat) (acceptors : List Acceptor) : Nat :=
  (acceptors[i]?.map (fun acc => acc.accepts.length)).getD 0

theorem left_set {acceptors : List Acceptor} {i : Nat} {acc : Acceptor}
    (here : acceptors[i]? = some acc) (now : Acceptor) (j : Nat) :
    left j (acceptors.set i now) = if i = j then now.accepts.length else left j acceptors := by
  have inside := (List.getElem?_eq_some_iff.mp here).1
  unfold left
  split
  · rename_i same
    rw [← same, List.getElem?_set_self inside]
    rfl
  · rename_i apart
    rw [List.getElem?_set_ne apart]

theorem left_some {acceptors : List Acceptor} {i : Nat} {acc : Acceptor}
    (here : acceptors[i]? = some acc) : left i acceptors = acc.accepts.length := by
  simp [left, here]

theorem left_stop (s : Listener) (i : Nat) : left i s.stop.acceptors = left i s.acceptors := by
  simp only [left, Listener.stop, List.getElem?_map, Option.map_map, Function.comp_def,
    Acceptor.close, List.length_map]

theorem AllServed.left_short (served : s.AllServed) (i : Nat) : left i s.acceptors ≤ 1 := by
  cases here : s.acceptors[i]? with
  | none => simp [left, here]
  | some acc =>
    rw [left_some here]
    exact (served.acceptor here).short

structure Closing (s t : Listener) (actions : List Action) : Prop where
  closed : Closed t
  made : t.made = s.made
  fewer : waiting anyAccept t.acceptors + actions.countP Action.isAccept =
    waiting anyAccept s.acceptors
  each : ∀ i, left i t.acceptors + actions.countP (Action.acceptsAt i) = left i s.acceptors
  admitted : t.connections.length ≤ s.connections.length + actions.countP Action.isAccept

theorem Closing.trans {u : Listener} {front back : List Action} (first : Closing s t front)
    (second : Closing t u back) : Closing s u (front ++ back) where
  closed := second.closed
  made := second.made.trans first.made
  fewer := by
    have one := first.fewer
    have two := second.fewer
    rw [List.countP_append]
    omega
  each := fun i => by
    have one := first.each i
    have two := second.each i
    rw [List.countP_append]
    omega
  admitted := by
    have one := first.admitted
    have two := second.admitted
    rw [List.countP_append]
    omega

theorem Closed.startAccept (closed : Closed s) (i : Nat) : s.startAccept i = s := by
  rcases startAccept_cases s i with same | ⟨acc, here, isOpen, _⟩
  · exact same
  · rw [closed acc (List.mem_of_getElem? here)] at isOpen
    contradiction

theorem Closed.set (closed : Closed s) {i : Nat} {acc : Acceptor} (shut : acc.isOpen = false) :
    ∀ other ∈ s.acceptors.set i acc, other.isOpen = false := by
  intro other member
  rcases List.mem_or_eq_of_mem_set member with old | rfl
  · exact closed other old
  · exact shut

theorem Closed.step {app : App α} {act : Action} (closed : Closed s)
    (made : s.step app act = some t) : Closing s t [act] := by
  cases act with
  | incoming i k failed =>
    have same := waiting_incoming (p := anyAccept) (fun _ _ => rfl) made
    obtain ⟨acc, op, here, _, _, rfl⟩ := incoming_some made
    refine ⟨closed.set (closed acc (List.mem_of_getElem? here)), rfl, same, fun j => ?_, Nat.le_refl _⟩
    rw [left_set here]
    split
    · rename_i mine
      rw [← mine, left_some here, List.length_set]
      rfl
    · rfl
  | accept i k now a =>
    obtain ⟨acc, op, failed, here, waits, _, rfl⟩ := acceptDone_some made
    have shut : Closed { s with
        acceptors := s.acceptors.set i { acc with accepts := acc.accepts.eraseIdx k }
        connections := s.takeIn op failed now a } :=
      closed.set (closed acc (List.mem_of_getElem? here))
    rw [shut.startAccept i]
    refine ⟨shut, rfl, waiting_erase (p := anyAccept) here waits, fun j => ?_, ?_⟩
    · have inside := (List.getElem?_eq_some_iff.mp waits).1
      rw [left_set here]
      split
      · rename_i mine
        subst mine
        rw [left_some here, List.length_eraseIdx_of_lt inside]
        simp [Action.acceptsAt]
        omega
      · rename_i apart
        simp [Action.acceptsAt, Ne.symm apart]
    · simp only [takeIn]
      split <;> simp [Action.isAccept]
  | connection j act =>
    obtain ⟨c, _, made⟩ := Option.bind_eq_some_iff.mp made
    obtain ⟨service, _, made⟩ := Option.bind_eq_some_iff.mp made
    obtain rfl := Option.some.inj made
    exact ⟨closed, rfl, rfl, fun _ => rfl, by simp⟩
  | stop =>
    obtain rfl := Option.some.inj made
    refine ⟨?_, rfl, waiting_stop (p := anyAccept) (fun _ _ => rfl) s, left_stop s, Nat.le_refl _⟩
    intro acc member
    obtain ⟨before, _, rfl⟩ := List.mem_map.mp member
    rfl

theorem Closed.run {app : App α} {actions : List Action} (closed : Closed s)
    (ran : s.run app actions = some t) : Closing s t actions := by
  induction actions generalizing s with
  | nil =>
    obtain rfl := Option.some.inj ran
    exact ⟨closed, rfl, rfl, fun _ => rfl, Nat.le_refl _⟩
  | cons act actions ih =>
    obtain ⟨next, made, rest⟩ := Option.bind_eq_some_iff.mp ran
    have first := closed.step made
    exact first.trans (ih first.closed rest)

theorem stop_closed (s : Listener) : Closed s.stop := by
  intro acc member
  obtain ⟨before, _, rfl⟩ := List.mem_map.mp member
  rfl

theorem waiting_short {acceptors : List Acceptor} (short : ∀ acc ∈ acceptors, acc.accepts.length ≤ 1) :
    waiting anyAccept acceptors ≤ acceptors.length := by
  induction acceptors with
  | nil => exact Nat.le_refl _
  | cons acc rest ih =>
    have others := ih (fun acc member => short acc (List.mem_cons_of_mem _ member))
    have here : acc.accepts.countP anyAccept ≤ 1 :=
      Nat.le_trans List.countP_le_length (short acc List.mem_cons_self)
    unfold waiting at others ⊢
    rw [List.map_cons, List.sum_cons, List.length_cons]
    omega

theorem last_accept {app : App α} (served : s.AllServed) (closed : Closed s) {i : Nat} {acc : Acceptor}
    (here : s.acceptors[i]? = some acc) (some_ : acc.accepts ≠ []) (now : Int) (a : Answers) :
    ∃ t, s.step app (.accept i 0 now a) = some t ∧ left i t.acceptors = 0 := by
  obtain ⟨op, rest, listed⟩ := List.exists_cons_of_ne_nil some_
  have done := ((served.acceptor here).last (closed acc (List.mem_of_getElem? here))).2 op
    (by simp [listed])
  have runs : (s.step app (.accept i 0 now a)).isSome = true := by
    cases state : op.state with
    | pending => contradiction
    | ready failed =>
      simp only [Listener.step, acceptDone, here, Option.bind_eq_bind, Option.bind_some, listed,
        List.getElem?_cons_zero, state]
      split
      · rfl
      · split <;> rfl
  obtain ⟨t, made⟩ := Option.isSome_iff_exists.mp runs
  refine ⟨t, made, ?_⟩
  have fewer := (closed.step made).each i
  have one := (served.acceptor here).short
  rw [left_some here, List.countP_singleton] at fewer
  simp only [Action.acceptsAt, decide_true, ↓reduceIte] at fewer
  omega

/-- After `stop` no connection is made any more. Each acceptor has at most one handler left,
    which can run and after which there is none; at most that many connections still come. -/
theorem accept_drains {app : App α} {size : Nat} {tls : Bool} {timeouts : Timeouts}
    {resolved : Except Int (List Endpoint)} {ec : ErrorCode} {first s t : Listener}
    {actions more : List Action}
    (listening : listenAndServe size tls timeouts resolved = some (ec, first))
    (ran : first.run app actions = some s) (after : s.stop.run app more = some t) :
    t.made = s.made ∧
      waiting anyAccept t.acceptors + more.countP Action.isAccept = waiting anyAccept s.acceptors ∧
      waiting anyAccept s.acceptors ≤ s.acceptors.length ∧
      t.connections.length ≤ s.connections.length + more.countP Action.isAccept ∧
      ∀ i acc, t.acceptors[i]? = some acc → acc.isOpen = false ∧
        acc.accepts.length + more.countP (Action.acceptsAt i) ≤ 1 ∧
        (∀ op ∈ acc.accepts, op.state ≠ .pending) ∧
        (acc.accepts ≠ [] → ∀ now a, ∃ u, t.step app (.accept i 0 now a) = some u ∧
          left i u.acceptors = 0) := by
  obtain ⟨_, _, _, served, _⟩ := listen_spec app listening
  have before := Trace.foldlM_preserves AllServed actions (fun _ => AllServed.step) served ran
  have later := Trace.foldlM_preserves AllServed more (fun _ => AllServed.step) before.stop after
  have closing := (stop_closed s).run after
  refine ⟨closing.made, ?_, ?_, closing.admitted, fun i acc here => ?_⟩
  · rw [closing.fewer]
    exact waiting_stop (p := anyAccept) (fun _ _ => rfl) s
  · apply waiting_short
    intro acc member
    obtain ⟨i, here⟩ := List.mem_iff_getElem?.mp member
    exact (before.acceptor here).short
  · have shut := closing.closed acc (List.mem_of_getElem? here)
    have each := closing.each i
    rw [left_some here] at each
    refine ⟨shut, ?_, ((later.acceptor here).last shut).2, last_accept later closing.closed here⟩
    rw [each]
    exact before.stop.left_short i

theorem accept_drains_two : ∃ ec first s t, twoOfThree = some (ec, first) ∧
    first.run Service.emptyApp [.incoming 0 0 false] = some s ∧
      s.stop.run Service.emptyApp [.accept 0 0 3 Service.quiet] = some t ∧ t.made = s.made ∧
      waiting anyAccept t.acceptors + 1 = waiting anyAccept s.acceptors := by
  have reached : twoOfThree.any (fun r => (r.2.run Service.emptyApp [.incoming 0 0 false]).any
      (fun s => (s.stop.run Service.emptyApp [.accept 0 0 3 Service.quiet]).isSome)) = true := by
    decide +kernel
  obtain ⟨⟨ec, first⟩, listening, ran⟩ := (Option.any_eq_true _ _).mp reached
  obtain ⟨s, ran, after⟩ := (Option.any_eq_true _ _).mp ran
  obtain ⟨t, after⟩ := Option.isSome_iff_exists.mp after
  obtain ⟨made, fewer, _⟩ := accept_drains listening ran after
  exact ⟨ec, first, s, t, listening, ran, after, made, fewer⟩

end Listener
end Nghttp2Asio.Server
