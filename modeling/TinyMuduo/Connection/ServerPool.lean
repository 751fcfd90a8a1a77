import TinyMuduo.Connection.ConnectionMap
import TinyMuduo.Library.RoundRobin
import TinyMuduo.Poller.Channel

/-!
# How a server starts and where its connections run

`TcpServer::start` (`resoure/Tcpserver.cpp`) starts the threads of its pool and makes the acceptor
listen, once; `newConnection` takes the next loop of the pool for each connection. This file embeds
these functions with `resoure/Acceptor.cpp` and `resoure/EventLoopThreadPool.cpp`, over the map of
`TinyMuduo.Connection.ConnectionMap`. `EventLoopThread::startloop` returns when the thread has
called the init callback and published its loop, so starting a thread of the pool is one step. The
setters and `start` are called by the user at any time and any number of times. `started` is an
atomic `int` and wraps; `next_` and the number of threads are of type `int`.

The loops of the connections in the order of acceptance, the number of threads that the first start
found with whether the init callback was set, and the loops for which it was called are recorded in
the states and read by nothing.

## Main definitions

* `EventLoopThreadPoll`, `Acceptor`, `ServerPool`, with one definition for each member function.
* `ServerPool.step`, `ServerPool.NoWrap`: what happens to a server, and that `started` does not
  wrap.

## Main results

* `ServerPool.distributed_of_reaches`: in every run the loops of the pool are those asked for at the
  first start, and the connections go to them in turn.
-/

namespace TinyMuduo

/-- An event loop: that of the server, or one in a thread of its pool, in the order of their
creation. -/
inductive LoopId
  | base
  | sub (i : ℕ)
  deriving DecidableEq

/-! ### The pool -/

/-- The class `EventLoopThreadPoll`, with the names for its threads. -/
structure EventLoopThreadPoll where
  started_ : Bool
  numThread_ : ℤ
  next_ : ℤ
  name_ : List UInt8
  threads_ : List (List UInt8)
  loops_ : List LoopId
  baseloop_ : LoopId
  initialised : List LoopId

namespace EventLoopThreadPoll

/-- The constructor. -/
def new (name : List UInt8) : EventLoopThreadPoll :=
  ⟨false, 0, 0, name, [], [], .base, []⟩

variable (p : EventLoopThreadPoll)

def setThreadNum (number : ℤ) : EventLoopThreadPoll := { p with numThread_ := number }

/-- The name of a thread: `snprintf` prints `"%s%d"` into a buffer that is longer than the name of
the pool by 32 bytes. -/
def threadName (i : ℕ) : List UInt8 :=
  cString ((cString p.name_ ++ integerText i).take (p.name_.length + 31))

/-- One iteration of the loop of `start`: a thread, whose loop calls `cb` if it is set. -/
def startThread (cb : Bool) (i : ℕ) : EventLoopThreadPoll :=
  let loop := LoopId.sub p.loops_.length
  { p with
    threads_ := p.threads_ ++ [p.threadName i]
    loops_ := p.loops_ ++ [loop]
    initialised := p.initialised ++ if cb then [loop] else [] }

def start (cb : Bool) : EventLoopThreadPoll :=
  let p := (List.range p.numThread_.toNat).foldl (fun p i => p.startThread cb i)
    { p with started_ := true }
  if p.numThread_ = 0 ∧ cb = true then { p with initialised := p.initialised ++ [p.baseloop_] }
  else p

/-- `getNextLoop`: the loop and the pool after it. An index that is out of range is undefined. -/
def getNextLoop : Option (LoopId × EventLoopThreadPoll) :=
  if p.loops_ = [] then some (p.baseloop_, p)
  else if 0 ≤ p.next_ then
    p.loops_[p.next_.toNat]?.map fun loop =>
      let next := p.next_ + 1
      (loop, { p with next_ := if next ≥ castInt p.loops_.length then 0 else next })
  else none

def getALLloops : List LoopId := if p.loops_ = [] then [p.baseloop_] else p.loops_

end EventLoopThreadPoll

/-! ### The acceptor -/

/-- The class `Acceptor`. Its callback is set by the constructor of the server. -/
structure Acceptor where
  listening_ : Bool
  acceptChannel_ : Registration
  deriving DecidableEq

namespace Acceptor

/-- The constructor. -/
def new : Acceptor := ⟨false, Registration.init⟩

def listen (a : Acceptor) : Acceptor := ⟨true, a.acceptChannel_.enableReading⟩

/-- The poller may report the channel of the listening socket. -/
def mayReport (a : Acceptor) : Bool := a.acceptChannel_.interest.any (·.isReadingEvent)

end Acceptor

/-! ### The server -/

/-- A `TcpServer`: its map, its pool, its acceptor, and the functors `Acceptor::listen` in its
loop. -/
structure ServerPool where
  map : ServerMap
  threadPoll_ : EventLoopThreadPoll
  threadInetCallback_ : Bool
  started : UInt32
  acceptor_ : Acceptor
  listens : ℕ
  asked : Option (ℤ × Bool)
  ioloops : List LoopId

namespace ServerPool

/-- The constructor. -/
def new (listenaddr : InetAddress) (nameArg : List UInt8) : ServerPool :=
  ⟨.new listenaddr nameArg, .new nameArg, false, 0, .new, 0, none, []⟩

variable (s : ServerPool)

/-- `start`, called by the thread of the loop or by another one. -/
def start (isInLoopThread : Bool) : ServerPool :=
  let s' := { s with started := s.started + 1 }
  if s.started = 0 then
    let s' := { s' with
      threadPoll_ := s.threadPoll_.start s.threadInetCallback_
      asked := s.asked <|> some (s.threadPoll_.numThread_, s.threadInetCallback_) }
    if isInLoopThread then { s' with acceptor_ := s.acceptor_.listen }
    else { s' with listens := s.listens + 1 }
  else s'

/-- `newConnection`, by which the connection gets its loop. -/
def newConnection : Option ServerPool :=
  s.threadPoll_.getNextLoop.bind fun (ioloop, threadPoll) =>
    s.map.newConnection.map fun map =>
      { s with map := map, threadPoll_ := threadPoll, ioloops := s.ioloops ++ [ioloop] }

/-- What happens to a server: the calls of the user; in its loop, a functor `Acceptor::listen`,
`Acceptor::handleRead_` with the result of `accept`, and `removeConnectionInLoop`, which the loop of
a connection queues there. -/
inductive Action
  | setThreadNum (number : ℤ) (h : -2 ^ 31 ≤ number ∧ number < 2 ^ 31)
  | setThreadInitCallback (isSet : Bool)
  | start (isInLoopThread : Bool)
  | listen
  | handleRead_ (accepted : Bool)
  | removeConnection (tmp : TcpConnectionPtr) (isInLoopThread : Bool)
  | removeConnectionInLoop

def step (NDEBUG : Bool) : Action → Option ServerPool
  | .setThreadNum number _ =>
    some { s with threadPoll_ := s.threadPoll_.setThreadNum number }
  | .setThreadInitCallback isSet => some { s with threadInetCallback_ := isSet }
  | .start isInLoopThread => some (s.start isInLoopThread)
  | .listen =>
    if 0 < s.listens then
      some { s with acceptor_ := s.acceptor_.listen, listens := s.listens - 1 }
    else none
  | .handleRead_ accepted =>
    if s.acceptor_.mayReport then if accepted then s.newConnection else some s else none
  | .removeConnection tmp isInLoopThread =>
    (s.map.step NDEBUG (.removeConnection tmp isInLoopThread)).map fun map => { s with map }
  | .removeConnectionInLoop => (s.map.step NDEBUG .functor).map fun map => { s with map }

/-- A call of `start` does not make `started` wrap. -/
def NoWrap (s : ServerPool) : Action → Prop
  | .start _ => s.started + 1 ≠ 0
  | _ => True

instance (s : ServerPool) (a : Action) : Decidable (s.NoWrap a) := by
  cases a <;> unfold NoWrap <;> infer_instance

end ServerPool

/-! ### The threads that `start` makes -/

namespace EventLoopThreadPoll

variable {p : EventLoopThreadPoll}

/-- The name of a thread is not truncated. -/
theorem threadName_eq {i : ℕ} (hi : i < 2 ^ 31) :
    p.threadName i = cString p.name_ ++ Decimal.digits i := by
  have htext : integerText i = Decimal.digits i := by
    rw [integerText, if_neg (by omega)]
    rfl
  have hname : (cString p.name_).length ≤ p.name_.length :=
    (List.takeWhile_sublist _).length_le
  have hdigits : (Decimal.digits i).length ≤ 10 :=
    (Decimal.length_digits_le_iff (by decide)).mpr (by omega)
  have hzero : 0 ∉ cString p.name_ ++ Decimal.digits i := by
    rw [List.mem_append, not_or]
    refine ⟨fun hmem => ?_, Decimal.zero_not_mem_digits i⟩
    simpa using List.mem_takeWhile_imp hmem
  rw [threadName, htext, List.take_of_length_le, cString_eq_self hzero]
  rw [List.length_append]
  omega

/-- The pool after its loop has started `n` threads. -/
theorem foldl_startThread (cb : Bool) (p : EventLoopThreadPoll) (hempty : p.loops_ = []) (n : ℕ) :
    (List.range n).foldl (fun p i => p.startThread cb i) p =
      { p with
        threads_ := p.threads_ ++ (List.range n).map p.threadName
        loops_ := (List.range n).map .sub
        initialised := p.initialised ++ if cb then (List.range n).map .sub else [] } := by
  induction n with
  | zero =>
    obtain ⟨_, _, _, _, _, _, _, _⟩ := p
    obtain rfl := hempty
    simp
  | succ n ih =>
    rw [List.range_succ, List.foldl_append, ih]
    simp only [List.foldl_cons, List.foldl_nil, startThread, threadName, List.length_map,
      List.length_range, List.map_append, List.append_assoc, List.map_cons, List.map_nil]
    cases cb <;> rfl

variable {nameArg : List UInt8} {asked : Option (ℤ × Bool)}

/-- The pool of a server, before and after its first start. -/
structure Pooled (p : EventLoopThreadPoll) (nameArg : List UInt8) (asked : Option (ℤ × Bool)) :
    Prop where
  name_eq : p.name_ = nameArg
  base_eq : p.baseloop_ = .base
  number_lt : p.numThread_ < 2 ^ 31
  before : asked = none → p.loops_ = [] ∧ p.threads_ = [] ∧ p.initialised = []
  after : ∀ n cb, asked = some (n, cb) →
    n < 2 ^ 31 ∧ p.loops_ = (List.range n.toNat).map .sub ∧
      p.threads_ = (List.range n.toNat).map (fun i => cString nameArg ++ Decimal.digits i) ∧
      p.initialised = if cb = true ∧ 0 ≤ n then p.getALLloops else []

private theorem pooled_new (nameArg : List UInt8) : (new nameArg).Pooled nameArg none :=
  ⟨rfl, rfl, (by decide : (0 : ℤ) < 2 ^ 31), fun _ => ⟨rfl, rfl, rfl⟩, nofun⟩

/-- All effects of the first start. -/
theorem Pooled.start_eq (h : p.Pooled nameArg none) (cb : Bool) :
    p.start cb = { p with
      started_ := true
      threads_ := (List.range p.numThread_.toNat).map fun i => cString nameArg ++ Decimal.digits i
      loops_ := (List.range p.numThread_.toNat).map .sub
      initialised := if cb = true ∧ 0 ≤ p.numThread_ then
        if p.numThread_ = 0 then [p.baseloop_] else (List.range p.numThread_.toNat).map .sub
        else [] } := by
  obtain ⟨hloops, hthreads, hinitialised⟩ := h.before rfl
  have hnumber := h.number_lt
  have hfold := foldl_startThread cb { p with started_ := true } hloops p.numThread_.toNat
  have hnames : (List.range p.numThread_.toNat).map
      (threadName { p with started_ := true }) =
      (List.range p.numThread_.toNat).map fun i => cString nameArg ++ Decimal.digits i := by
    refine List.map_congr_left fun i hi => ?_
    have hi : i < p.numThread_.toNat := List.mem_range.mp hi
    rw [threadName_eq (by omega)]
    exact congrArg (cString · ++ Decimal.digits i) h.name_eq
  rw [EventLoopThreadPoll.start, hfold, hnames]
  rcases lt_trichotomy p.numThread_ 0 with hneg | hzero | hpos
  · have hnat : p.numThread_.toNat = 0 := by omega
    simp [hneg.ne, hneg.not_ge, hnat, hthreads, hinitialised]
  · cases cb <;> simp [hzero, hthreads, hinitialised]
  · cases cb <;> simp [hpos.ne', hpos.le, hthreads, hinitialised]

theorem Pooled.start (h : p.Pooled nameArg none) (cb : Bool) :
    (p.start cb).Pooled nameArg (some (p.numThread_, cb)) := by
  rw [h.start_eq]
  refine ⟨h.name_eq, h.base_eq, h.number_lt, nofun, fun n cb' heq => ?_⟩
  obtain ⟨rfl, rfl⟩ := Prod.mk.inj (Option.some.inj heq)
  refine ⟨h.number_lt, rfl, rfl, ?_⟩
  simp only [getALLloops, List.map_eq_nil_iff, List.range_eq_nil, Int.toNat_eq_zero]
  split_ifs <;> first | rfl | omega

/-- The cursor of the pool, and the loops that it gave out. -/
structure Turn (p : EventLoopThreadPoll) (ioloops : List LoopId) : Prop where
  next_eq : p.next_ = if p.loops_ = [] then 0 else ((ioloops.length % p.loops_.length : ℕ) : ℤ)
  ioloops_eq : ioloops = RoundRobin.picks p.getALLloops ioloops.length

/-- The next loop is the one whose turn it is, and the index of the vector is in range. -/
theorem Turn.exists_getNextLoop {ioloops : List LoopId} (h : p.Turn ioloops)
    (hsmall : p.loops_.length < 2 ^ 31) :
    ∃ loop next, p.getNextLoop = some (loop, { p with next_ := next }) ∧
      { p with next_ := next }.Turn (ioloops ++ [loop]) := by
  have hpicks {loop : LoopId}
      (hloop : p.getALLloops[ioloops.length % p.getALLloops.length]? = some loop) :
      ioloops ++ [loop] = RoundRobin.picks p.getALLloops (ioloops ++ [loop]).length := by
    rw [List.length_append, List.length_singleton, RoundRobin.picks_succ_of_ne hloop,
      ← h.ioloops_eq]
  by_cases hempty : p.loops_ = []
  · have hnext : p.next_ = 0 := by rw [h.next_eq, if_pos hempty]
    have hall : p.getALLloops = [p.baseloop_] := if_pos hempty
    refine ⟨p.baseloop_, p.next_, by rw [getNextLoop, if_pos hempty], ?_, hpicks ?_⟩
    · simpa [hempty] using hnext
    · rw [hall, List.length_singleton, Nat.mod_one]
      rfl
  · have hpos : 0 < p.loops_.length := List.length_pos_iff.mpr hempty
    have hlt : ioloops.length % p.loops_.length < p.loops_.length := Nat.mod_lt _ hpos
    have hnext : p.next_ = ((ioloops.length % p.loops_.length : ℕ) : ℤ) := by
      rw [h.next_eq, if_neg hempty]
    have hall : p.getALLloops = p.loops_ := if_neg hempty
    have hget : p.loops_[ioloops.length % p.loops_.length]? =
        some p.loops_[ioloops.length % p.loops_.length] := List.getElem?_eq_getElem hlt
    refine ⟨p.loops_[ioloops.length % p.loops_.length],
      if p.next_ + 1 ≥ castInt p.loops_.length then 0 else p.next_ + 1, ?_, ?_, hpicks ?_⟩
    · rw [getNextLoop, if_neg hempty, hnext, if_pos (Int.natCast_nonneg _), Int.toNat_natCast, hget,
        Option.map_some]
    · have hadvance := RoundRobin.advance_mod hpos ioloops.length
      rw [RoundRobin.advance] at hadvance
      simp only [hempty, if_false, List.length_append, List.length_singleton, ← hadvance,
        castInt_of_lt hsmall]
      split_ifs <;> omega
    · rw [hall, hget]

end EventLoopThreadPoll

/-! ### Runs of a server -/

namespace ServerPool

open EventLoopThreadPoll

variable {s t : ServerPool} {nameArg : List UInt8}

/-- The pool and its cursor, and no connection before the first start. -/
structure Inv (s : ServerPool) (nameArg : List UInt8) : Prop where
  pooled : s.threadPoll_.Pooled nameArg s.asked
  turn : s.threadPoll_.Turn s.ioloops
  added : s.map.added.length = s.ioloops.length
  unstarted : s.started = 0 → s.asked = none
  idle : s.asked = none → s.acceptor_ = .new ∧ s.listens = 0 ∧ s.ioloops = []

theorem inv_new (listenaddr : InetAddress) (nameArg : List UInt8) :
    (new listenaddr nameArg).Inv nameArg :=
  ⟨pooled_new nameArg, ⟨rfl, rfl⟩, rfl, fun _ => rfl, fun _ => ⟨rfl, rfl, rfl⟩⟩

/-- The vector of loops is as long as an `int` can say. -/
theorem Inv.length_loops_lt (h : s.Inv nameArg) : s.threadPoll_.loops_.length < 2 ^ 31 := by
  cases hasked : s.asked with
  | none => simp [(h.pooled.before hasked).1]
  | some asked =>
    obtain ⟨hlt, hloops, -⟩ := h.pooled.after asked.1 asked.2 hasked
    rw [hloops, List.length_map, List.length_range]
    omega

theorem Inv.start (h : s.Inv nameArg) (hwrap : s.started + 1 ≠ 0) (isInLoopThread : Bool) :
    (s.start isInLoopThread).Inv nameArg := by
  by_cases hfirst : s.started = 0
  · have hasked := h.unstarted hfirst
    obtain ⟨-, -, hioloops⟩ := h.idle hasked
    have hpooled : s.threadPoll_.Pooled nameArg none := hasked ▸ h.pooled
    have hturn : (s.threadPoll_.start s.threadInetCallback_).Turn s.ioloops := by
      have hnext := h.turn.next_eq
      rw [(hpooled.before rfl).1, if_pos rfl] at hnext
      rw [hioloops]
      refine ⟨?_, rfl⟩
      rw [hpooled.start_eq]
      simpa using hnext
    have hstarted := hpooled.start s.threadInetCallback_
    have hor : (s.asked <|> some (s.threadPoll_.numThread_, s.threadInetCallback_)) =
        some (s.threadPoll_.numThread_, s.threadInetCallback_) := by rw [hasked]; rfl
    simp only [ServerPool.start, if_pos hfirst, hor]
    split_ifs <;> exact ⟨hstarted, hturn, h.added, fun hzero => absurd hzero hwrap, nofun⟩
  · simp only [ServerPool.start, if_neg hfirst]
    exact ⟨h.pooled, h.turn, h.added, fun hzero => absurd hzero hwrap, h.idle⟩

theorem Inv.newConnection (h : s.Inv nameArg) (hasked : s.asked ≠ none)
    (hs : s.newConnection = some t) : t.Inv nameArg := by
  obtain ⟨loop, next, hnext, hturn⟩ := h.turn.exists_getNextLoop h.length_loops_lt
  rw [ServerPool.newConnection, hnext, Option.bind_some] at hs
  obtain ⟨map, hmap, rfl⟩ := Option.map_eq_some_iff.mp hs
  have hadded : map.added.length = s.map.added.length + 1 := by
    rw [ServerMap.newConnection] at hmap
    split_ifs at hmap
    obtain rfl := Option.some.inj hmap
    exact List.length_append
  refine ⟨?_, hturn, ?_, h.unstarted, fun hnone => absurd hnone hasked⟩
  · exact ⟨h.pooled.name_eq, h.pooled.base_eq, h.pooled.number_lt, h.pooled.before,
      h.pooled.after⟩
  · rw [hadded, h.added, List.length_append]
    rfl

/-- A removal adds no connection. -/
theorem added_of_step {NDEBUG : Bool} {m m' : ServerMap} {a : ServerMap.Action}
    (ha : a ≠ .newConnection) (hm : m.step NDEBUG a = some m') : m'.added = m.added := by
  have hremove {m m' : ServerMap} {cc : TcpConnectionPtr}
      (hm : m.removeConnectionInLoop NDEBUG cc = some m') : m'.added = m.added := by
    obtain ⟨-, hm⟩ := Option.ite_none_right_eq_some.mp hm
    obtain rfl := Option.some.inj hm
    rfl
  cases a with
  | newConnection => exact absurd rfl ha
  | removeConnection tmp isInLoopThread =>
    simp only [ServerMap.step] at hm
    split_ifs at hm
    · exact hremove hm
    · obtain rfl := Option.some.inj hm
      rfl
  | functor =>
    cases hfunctors : m.functors with
    | nil => simp [ServerMap.step, hfunctors] at hm
    | cons cc functors =>
      simp only [ServerMap.step, hfunctors] at hm
      have hadded := hremove hm
      exact hadded

/-- Nothing is accepted before the first start. -/
theorem Inv.asked_of_mayReport (h : s.Inv nameArg) (hreport : s.acceptor_.mayReport = true) :
    s.asked ≠ none := by
  intro hnone
  rw [(h.idle hnone).1] at hreport
  exact absurd hreport (by decide)

theorem Inv.step {NDEBUG : Bool} {a : Action} (h : s.Inv nameArg) (hc : s.NoWrap a)
    (hs : s.step NDEBUG a = some t) : t.Inv nameArg := by
  cases a with
  | setThreadNum number hnumber =>
    obtain rfl := Option.some.inj hs
    exact ⟨⟨h.pooled.name_eq, h.pooled.base_eq, hnumber.2, h.pooled.before, h.pooled.after⟩,
      ⟨h.turn.next_eq, h.turn.ioloops_eq⟩, h.added, h.unstarted, h.idle⟩
  | setThreadInitCallback isSet =>
    obtain rfl := Option.some.inj hs
    exact ⟨h.pooled, h.turn, h.added, h.unstarted, h.idle⟩
  | start isInLoopThread =>
    obtain rfl := Option.some.inj hs
    exact h.start hc isInLoopThread
  | listen =>
    obtain ⟨hpos, hs⟩ := Option.ite_none_right_eq_some.mp hs
    obtain rfl := Option.some.inj hs
    refine ⟨h.pooled, h.turn, h.added, h.unstarted, fun hnone => ?_⟩
    exact absurd (h.idle hnone).2.1 hpos.ne'
  | handleRead_ accepted =>
    obtain ⟨hreport, hs⟩ := Option.ite_none_right_eq_some.mp hs
    cases accepted with
    | true => exact h.newConnection (h.asked_of_mayReport hreport) hs
    | false =>
      obtain rfl := Option.some.inj hs
      exact h
  | removeConnection tmp isInLoopThread =>
    obtain ⟨map, hmap, rfl⟩ := Option.map_eq_some_iff.mp hs
    have hadded := added_of_step (by simp) hmap
    exact ⟨h.pooled, h.turn, hadded ▸ h.added, h.unstarted, h.idle⟩
  | removeConnectionInLoop =>
    obtain ⟨map, hmap, rfl⟩ := Option.map_eq_some_iff.mp hs
    have hadded := added_of_step (by simp) hmap
    exact ⟨h.pooled, h.turn, hadded ▸ h.added, h.unstarted, h.idle⟩

theorem Inv.nodup_getALLloops (h : s.Inv nameArg) : s.threadPoll_.getALLloops.Nodup := by
  rw [getALLloops]
  split_ifs with hempty
  · exact List.nodup_singleton _
  · cases hasked : s.asked with
    | none => exact absurd (h.pooled.before hasked).1 hempty
    | some asked =>
      obtain ⟨-, hloops, -⟩ := h.pooled.after asked.1 asked.2 hasked
      rw [hloops]
      exact List.nodup_range.map fun i j hij => LoopId.sub.inj hij

/-- In every run of a server in which `started` does not wrap, with calls of the setters and of
`start` at any time: the threads of the pool and their names are those of the first start, whose
loops have all called the init callback if it was set, and so has the loop of the server if there
are none (but not for a negative number). The connections go to the loops in turn, in the order of
acceptance, so that no loop gets more than one connection more than another; none is accepted before
the first start; and accepting one never indexes the vector of loops out of its range. -/
theorem distributed_of_reaches {NDEBUG : Bool} {listenaddr : InetAddress}
    (h : Transition.Reaches (Transition.ofStep (step · NDEBUG)) NoWrap (new listenaddr nameArg) s) :
    (∀ n cb, s.asked = some (n, cb) →
      s.threadPoll_.getALLloops =
          (if 0 < n then (List.range n.toNat).map .sub else [.base]) ∧
        s.threadPoll_.threads_ =
          (List.range n.toNat).map (fun i => cString nameArg ++ Decimal.digits i) ∧
        s.threadPoll_.initialised =
          if cb = true ∧ 0 ≤ n then s.threadPoll_.getALLloops else []) ∧
      (s.asked = none → s.map.added = []) ∧
      s.ioloops = RoundRobin.picks s.threadPoll_.getALLloops s.map.added.length ∧
      (∀ loop ∈ s.threadPoll_.getALLloops, ∀ loop' ∈ s.threadPoll_.getALLloops,
        s.ioloops.count loop ≤ s.ioloops.count loop' + 1) ∧
      (s.acceptor_.mayReport = true → s.map.nextConnId_ < 2 ^ 31 - 1 →
        ∃ t, s.step NDEBUG (.handleRead_ true) = some t) := by
  have hinv : s.Inv nameArg := h.invariant (I := (Inv · nameArg)) (inv_new listenaddr nameArg)
    fun _ _ _ hu hc hs => hu.step hc hs
  have hioloops := hinv.turn.ioloops_eq
  refine ⟨fun n cb hasked => ?_, fun hnone => ?_, hinv.added ▸ hioloops, ?_, fun hreport hid => ?_⟩
  · obtain ⟨-, hloops, hthreads, hinitialised⟩ := hinv.pooled.after n cb hasked
    refine ⟨?_, hthreads, hinitialised⟩
    rw [getALLloops, hloops, hinv.pooled.base_eq]
    simp only [List.map_eq_nil_iff, List.range_eq_nil, Int.toNat_eq_zero]
    split_ifs <;> first | rfl | omega
  · rw [← List.length_eq_zero_iff, hinv.added, (hinv.idle hnone).2.2]
    rfl
  · intro loop hloop loop' hloop'
    rw [hioloops]
    exact RoundRobin.count_picks_le hinv.nodup_getALLloops hloop hloop' _
  · obtain ⟨loop, next, hnext, -⟩ := hinv.turn.exists_getNextLoop hinv.length_loops_lt
    refine Option.isSome_iff_exists.mp ?_
    simp only [ServerPool.step, if_pos hreport, if_true, ServerPool.newConnection, hnext,
      Option.bind_some, ServerMap.newConnection, if_pos hid]
    rfl

/-- Two threads, three connections, and a second start with another number. -/
theorem distributed_of_two_threads : ∃ s : ServerPool, s.ioloops = [.sub 0, .sub 1, .sub 0] ∧
    s.ioloops = RoundRobin.picks s.threadPoll_.getALLloops s.map.added.length := by
  obtain ⟨s, hreach, hioloops⟩ := Transition.Reaches.exists_of_run (C := NoWrap)
    (s := new ⟨(127, 0, 0, 1), 8080⟩ (bytesOf "server"))
    (P := fun s => s.ioloops = [.sub 0, .sub 1, .sub 0]) (step · false)
    [.setThreadNum 2 (by decide), .start false, .listen, .handleRead_ true,
      .setThreadNum 5 (by decide), .start true, .handleRead_ true, .handleRead_ false,
      .handleRead_ true] (by decide +kernel)
  exact ⟨s, hioloops, (distributed_of_reaches hreach).2.2.1⟩

end ServerPool

end TinyMuduo
