import Mathlib.Data.List.Nodup
import Mathlib.Logic.Function.Basic
import TinyMuduo.Base.LogStream
import TinyMuduo.Library.Transition

/-!
# The connections of a server

`TcpServer` keeps its connections in a map from their names. A name consists of the name of the
server, its address and port, and the number of the connection, which `newConnection` counts in an
`int`. This file embeds the functions of `resoure/Tcpserver.cpp` that use the map, and `get_ip_port`
of `resoure/Inetaddress.cpp`. `removeConnection` may be called for any connection of the server, in
the thread of its loop or in another one, where the functor is queued. With `NDEBUG` the assertion
that an entry was erased is not checked. An increment of the counter that overflows is not a step.

The connections that were added and those that were removed are recorded in the state and read by
nothing but the number of the next object.

## Main definitions

* `InetAddress`, `ServerMap`, `ServerMap.step`: addresses, and what happens to the map.
* `ServerMap.Exact`: the names are distinct and in full, and the map holds exactly the connections
  that were added and not removed.

## Main results

* `ServerMap.exact_of_reaches`: the map is exact in every run.
-/

namespace TinyMuduo

/-- The class `InetAddress`: an address of IPv4 and a port. -/
structure InetAddress where
  sin_addr : UInt8 × UInt8 × UInt8 × UInt8
  sin_port : UInt16

namespace InetAddress

/-- `inet_ntop`: the bytes of the address with dots between them. -/
def inet_ntop : UInt8 × UInt8 × UInt8 × UInt8 → List UInt8
  | (a, b, c, d) =>
    Decimal.digits a.toNat ++ bytesOf "." ++ Decimal.digits b.toNat ++ bytesOf "." ++
      Decimal.digits c.toNat ++ bytesOf "." ++ Decimal.digits d.toNat

def get_ip_port (address : InetAddress) : List UInt8 :=
  cString (inet_ntop address.sin_addr ++ bytesOf ":" ++ Decimal.digits address.sin_port.toNat)

end InetAddress

/-- A `TcpConnectionPtr`: an object and its name. -/
structure TcpConnectionPtr where
  object : ℕ
  name : List UInt8
  deriving DecidableEq

/-- The members of the class `TcpServer` around its map, and the functors queued in its loop. -/
structure ServerMap where
  ipPort : List UInt8
  name_ : List UInt8
  nextConnId_ : ℤ
  connections_ : List UInt8 → Option TcpConnectionPtr
  functors : List TcpConnectionPtr
  added : List TcpConnectionPtr
  removed : List TcpConnectionPtr

namespace ServerMap

/-- The constructor. -/
def new (listenaddr : InetAddress) (nameArg : List UInt8) : ServerMap where
  ipPort := listenaddr.get_ip_port
  name_ := nameArg
  nextConnId_ := 1
  connections_ := fun _ => none
  functors := []
  added := []
  removed := []

variable (s : ServerMap)

/-- What the format `"-%s#%d"` stands for. -/
def suffix (id : ℤ) : List UInt8 := bytesOf "-" ++ cString s.ipPort ++ bytesOf "#" ++ integerText id

/-- The name of the next connection. `snprintf` prints into a buffer of 64 bytes. -/
def connName : List UInt8 := s.name_ ++ cString ((s.suffix s.nextConnId_).take 63)

/-- The connection that `newConnection` creates. -/
def conn : TcpConnectionPtr := ⟨s.added.length, s.connName⟩

def newConnection : Option ServerMap :=
  if s.nextConnId_ < 2 ^ 31 - 1 then
    some { s with
      nextConnId_ := s.nextConnId_ + 1
      connections_ := Function.update s.connections_ s.connName (some s.conn)
      added := s.added ++ [s.conn] }
  else none

def removeConnectionInLoop (NDEBUG : Bool) (cc : TcpConnectionPtr) : Option ServerMap :=
  let n := if (s.connections_ cc.name).isSome then 1 else 0
  if n = 1 ∨ NDEBUG = true then
    some { s with
      connections_ := Function.update s.connections_ cc.name none
      removed := s.removed ++ [cc] }
  else none

/-- What happens to the map: a connection is accepted, a connection of the server is to be removed,
or the loop calls the first functor of its queue. -/
inductive Action
  | newConnection
  | removeConnection (tmp : TcpConnectionPtr) (isInLoopThread : Bool)
  | functor

def step (NDEBUG : Bool) : Action → Option ServerMap
  | .newConnection => s.newConnection
  | .removeConnection tmp isInLoopThread =>
    if tmp ∈ s.added then
      if isInLoopThread then s.removeConnectionInLoop NDEBUG tmp
      else some { s with functors := s.functors ++ [tmp] }
    else none
  | .functor =>
    match s.functors with
    | [] => none
    | cc :: functors => { s with functors }.removeConnectionInLoop NDEBUG cc

/-- The name of the connection with a given number, of which nothing is cut off. -/
def fullName (listenaddr : InetAddress) (nameArg : List UInt8) (id : ℕ) : List UInt8 :=
  nameArg ++ (bytesOf "-" ++ (InetAddress.inet_ntop listenaddr.sin_addr ++ bytesOf ":" ++
    Decimal.digits listenaddr.sin_port.toNat) ++ bytesOf "#" ++ Decimal.digits id)

/-- The names of the connections are distinct and in full, the next one is new, and the map holds
exactly the connections that were added and not removed. -/
structure Exact (listenaddr : InetAddress) (nameArg : List UInt8) : Prop where
  distinct : (s.added.map (·.name)).Nodup
  full : ∀ (i : ℕ) conn, s.added[i]? = some conn → conn.name = fullName listenaddr nameArg (i + 1)
  fresh : s.connections_ s.connName = none
  held : ∀ name conn, s.connections_ name = some conn ↔
    conn ∈ s.added ∧ conn ∉ s.removed ∧ conn.name = name

/-! ### The names -/

variable {listenaddr : InetAddress} {nameArg : List UInt8}

private theorem length_digits_toNat_le (b : UInt8) : (Decimal.digits b.toNat).length ≤ 3 :=
  (Decimal.length_digits_le_iff (by decide)).mpr (by have := b.toNat_lt; omega)

/-- The text of an address and a port has at most 21 bytes, none of which is zero. -/
theorem get_ip_port_spec (address : InetAddress) :
    address.get_ip_port = InetAddress.inet_ntop address.sin_addr ++ bytesOf ":" ++
      Decimal.digits address.sin_port.toNat ∧
    address.get_ip_port.length ≤ 21 ∧ 0 ∉ address.get_ip_port := by
  obtain ⟨⟨a, b, c, d⟩, port⟩ := address
  have hport : (Decimal.digits port.toNat).length ≤ 5 :=
    (Decimal.length_digits_le_iff (by decide)).mpr (by have := port.toNat_lt; omega)
  have hdot : bytesOf "." = [46] := rfl
  have hcolon : bytesOf ":" = [58] := rfl
  have hzero : 0 ∉ InetAddress.inet_ntop (a, b, c, d) ++ bytesOf ":" ++
      Decimal.digits port.toNat := by
    simp [InetAddress.inet_ntop, Decimal.zero_not_mem_digits, hdot, hcolon]
  have htext := cString_eq_self hzero
  refine ⟨htext, ?_, ?_⟩
  · have ha := length_digits_toNat_le a
    have hb := length_digits_toNat_le b
    have hc := length_digits_toNat_le c
    have hd := length_digits_toNat_le d
    rw [InetAddress.get_ip_port, htext]
    simp only [InetAddress.inet_ntop, hdot, hcolon, List.length_append, List.length_singleton]
    omega
  · rw [InetAddress.get_ip_port, htext]
    exact hzero

private theorem fullName_injective : Function.Injective (fullName listenaddr nameArg) := by
  intro id id' h
  exact Decimal.digits_injective (List.append_cancel_left (List.append_cancel_left h))

/-- The members that do not change, the counter, and the connections that were added. -/
structure Counted (s : ServerMap) (listenaddr : InetAddress) (nameArg : List UInt8) : Prop where
  ipPort : s.ipPort = listenaddr.get_ip_port
  name_ : s.name_ = nameArg
  next : s.nextConnId_ = s.added.length + 1
  next_lt : s.nextConnId_ < 2 ^ 31
  added : s.added =
    (List.range s.added.length).map fun i => ⟨i, fullName listenaddr nameArg (i + 1)⟩
  functors : ∀ conn ∈ s.functors, conn ∈ s.added
  removed : ∀ conn ∈ s.removed, conn ∈ s.added
  held : ∀ name conn, s.connections_ name = some conn ↔
    conn ∈ s.added ∧ conn ∉ s.removed ∧ conn.name = name

variable {s} {t : ServerMap} {conn conn' : TcpConnectionPtr}

/-- The next name is not truncated. -/
theorem Counted.connName_eq (h : s.Counted listenaddr nameArg) :
    s.connName = fullName listenaddr nameArg (s.added.length + 1) := by
  obtain ⟨hip, hlen, hzero⟩ := get_ip_port_spec listenaddr
  have hid : (Decimal.digits (s.added.length + 1)).length ≤ 10 :=
    (Decimal.length_digits_le_iff (by decide)).mpr (by have := h.next_lt; have := h.next; omega)
  have hdash : bytesOf "-" = [45] := rfl
  have hnumber : bytesOf "#" = [35] := rfl
  have hsuffix : s.suffix s.nextConnId_ = bytesOf "-" ++ listenaddr.get_ip_port ++ bytesOf "#" ++
      Decimal.digits (s.added.length + 1) := by
    have htext : integerText s.nextConnId_ = Decimal.digits (s.added.length + 1) := by
      rw [h.next, integerText, if_neg (by omega)]
      rfl
    rw [suffix, h.ipPort, cString_eq_self hzero, htext]
  have hshort : (s.suffix s.nextConnId_).length ≤ 63 := by
    rw [hsuffix]
    simp only [hdash, hnumber, List.length_append, List.length_singleton]
    omega
  have hnonzero : 0 ∉ s.suffix s.nextConnId_ := by
    rw [hsuffix]
    simp [Decimal.zero_not_mem_digits, hdash, hnumber, hzero]
  rw [connName, List.take_of_length_le hshort, cString_eq_self hnonzero, hsuffix, h.name_, hip]
  rfl

theorem Counted.mem_added_iff (h : s.Counted listenaddr nameArg) : conn ∈ s.added ↔
    ∃ i < s.added.length, conn = ⟨i, fullName listenaddr nameArg (i + 1)⟩ := by
  rw [h.added]
  simp [eq_comm]

/-- Connections with the same name are the same. -/
theorem Counted.eq_of_name_eq (h : s.Counted listenaddr nameArg) (hconn : conn ∈ s.added)
    (hconn' : conn' ∈ s.added) (hname : conn.name = conn'.name) : conn = conn' := by
  obtain ⟨i, -, rfl⟩ := h.mem_added_iff.mp hconn
  obtain ⟨i', -, rfl⟩ := h.mem_added_iff.mp hconn'
  obtain rfl : i = i' := Nat.succ_injective (fullName_injective hname)
  rfl

/-- No connection has the next name. -/
theorem Counted.name_ne (h : s.Counted listenaddr nameArg) (hconn : conn ∈ s.added) :
    conn.name ≠ s.connName := by
  obtain ⟨i, hi, rfl⟩ := h.mem_added_iff.mp hconn
  rw [h.connName_eq]
  exact fun hname => absurd (Nat.succ_injective (fullName_injective hname)) hi.ne

/-! ### The map -/

private theorem counted_new (listenaddr : InetAddress) (nameArg : List UInt8) :
    (new listenaddr nameArg).Counted listenaddr nameArg := by
  constructor <;> simp [new]

/-- A new connection gets an entry of its own. -/
theorem Counted.newConnection (h : s.Counted listenaddr nameArg) (hs : s.newConnection = some t) :
    t.Counted listenaddr nameArg := by
  rw [ServerMap.newConnection] at hs
  split_ifs at hs with hlt
  obtain rfl := Option.some.inj hs
  have hnew : s.conn ∉ s.added := fun hmem => h.name_ne hmem rfl
  have hlen : (s.added ++ [s.conn]).length = s.added.length + 1 := List.length_append
  refine ⟨h.ipPort, h.name_, ?_, Int.add_lt_of_lt_sub_right hlt, ?_, ?_, ?_, fun name conn => ?_⟩
  · rw [hlen, Nat.cast_add, h.next]
    rfl
  · change s.added ++ [s.conn] = (List.range (s.added ++ [s.conn]).length).map _
    rw [hlen, List.range_succ, List.map_append, ← h.added, conn, h.connName_eq]
    rfl
  · exact fun conn hconn => List.mem_append_left _ (h.functors conn hconn)
  · exact fun conn hconn => List.mem_append_left _ (h.removed conn hconn)
  · change Function.update s.connections_ s.connName (some s.conn) name = some conn ↔
      conn ∈ s.added ++ [s.conn] ∧ conn ∉ s.removed ∧ conn.name = name
    rw [List.mem_append, List.mem_singleton]
    rcases eq_or_ne name s.connName with rfl | hne
    · rw [Function.update_self, Option.some.injEq]
      constructor
      · rintro rfl
        exact ⟨.inr rfl, fun hmem => hnew (h.removed _ hmem), rfl⟩
      · rintro ⟨hmem | hmem, -, hname⟩
        · exact absurd hname (h.name_ne hmem)
        · exact hmem.symm
    · rw [Function.update_of_ne hne, h.held]
      refine and_congr_left fun hrest => (or_iff_left ?_).symm
      rintro rfl
      exact hne hrest.2.symm

/-- The entry of a connection of the server is erased, if it is still there. -/
theorem Counted.removeConnectionInLoop {NDEBUG : Bool} (h : s.Counted listenaddr nameArg)
    (hconn : conn ∈ s.added) (hs : s.removeConnectionInLoop NDEBUG conn = some t) :
    t.Counted listenaddr nameArg := by
  obtain ⟨-, hs⟩ := Option.ite_none_right_eq_some.mp hs
  obtain rfl := Option.some.inj hs
  refine ⟨h.ipPort, h.name_, h.next, h.next_lt, h.added, h.functors, ?_, fun name other => ?_⟩
  · exact List.forall_mem_append.mpr ⟨h.removed, List.forall_mem_singleton.mpr hconn⟩
  · change Function.update s.connections_ conn.name none name = some other ↔
      other ∈ s.added ∧ other ∉ s.removed ++ [conn] ∧ other.name = name
    rw [List.mem_append, List.mem_singleton, not_or]
    rcases eq_or_ne name conn.name with rfl | hne
    · rw [Function.update_self]
      refine iff_of_false (by simp) ?_
      rintro ⟨hmem, ⟨-, hother⟩, hname⟩
      exact hother (h.eq_of_name_eq hmem hconn hname)
    · rw [Function.update_of_ne hne, h.held]
      refine and_congr_right fun _ => and_congr_left fun hname => (and_iff_left ?_).symm
      rintro rfl
      exact hne hname.symm

theorem Counted.step {NDEBUG : Bool} {a : Action} (h : s.Counted listenaddr nameArg)
    (hs : s.step NDEBUG a = some t) : t.Counted listenaddr nameArg := by
  cases a with
  | newConnection => exact h.newConnection hs
  | removeConnection tmp isInLoopThread =>
    simp only [ServerMap.step] at hs
    split_ifs at hs with hmem hthread
    · exact h.removeConnectionInLoop hmem hs
    · obtain rfl := Option.some.inj hs
      have hfunctors : ∀ conn ∈ s.functors ++ [tmp], conn ∈ s.added :=
        List.forall_mem_append.mpr ⟨h.functors, List.forall_mem_singleton.mpr hmem⟩
      exact { h with functors := hfunctors }
  | functor =>
    cases hfunctors : s.functors with
    | nil => simp [ServerMap.step, hfunctors] at hs
    | cons cc functors =>
      simp only [ServerMap.step, hfunctors] at hs
      have hall : ∀ conn ∈ cc :: functors, conn ∈ s.added := hfunctors ▸ h.functors
      obtain ⟨hcc, hrest⟩ := List.forall_mem_cons.mp hall
      have h' : { s with functors }.Counted listenaddr nameArg := { h with functors := hrest }
      exact h'.removeConnectionInLoop hcc hs

theorem Counted.exact (h : s.Counted listenaddr nameArg) : s.Exact listenaddr nameArg where
  distinct := by
    rw [h.added, List.map_map]
    exact List.Nodup.map (fullName_injective.comp Nat.succ_injective) List.nodup_range
  full i conn hconn := by
    rw [h.added, List.getElem?_map] at hconn
    obtain ⟨j, hj, rfl⟩ := Option.map_eq_some_iff.mp hconn
    obtain ⟨hi, rfl⟩ := List.getElem?_eq_some_iff.mp hj
    rw [List.getElem_range]
  fresh := by
    by_contra hsome
    obtain ⟨conn, hconn⟩ := Option.ne_none_iff_exists'.mp hsome
    obtain ⟨hmem, -, hname⟩ := (h.held _ _).mp hconn
    exact h.name_ne hmem hname
  held := h.held

/-- In every run of a server, in which connections are added and removed in any order, the names are
distinct and in full, `newConnection` overwrites no entry, and the map holds exactly the connections
that were added and not removed. While fewer than `2 ^ 31 - 2` connections were accepted, there can
be one more. -/
theorem exact_of_reaches (NDEBUG : Bool)
    (h : Transition.Reaches (Transition.ofStep (step · NDEBUG)) Transition.anyLabel
      (new listenaddr nameArg) s) :
    s.Exact listenaddr nameArg ∧
      (s.added.length + 1 < 2 ^ 31 - 1 → ∃ t, s.step NDEBUG .newConnection = some t) := by
  have hcounted : s.Counted listenaddr nameArg :=
    h.invariant (I := (Counted · listenaddr nameArg)) (counted_new listenaddr nameArg)
      fun _ _ _ hu _ hstep => hu.step hstep
  refine ⟨hcounted.exact, fun hlt => ?_⟩
  have hnext : s.nextConnId_ < 2 ^ 31 - 1 := by
    rw [hcounted.next]
    omega
  exact ⟨_, if_pos hnext⟩

/-- Two connections are accepted, the first one is removed by the loop, and a third one follows. -/
theorem exact_three_connections : ∃ s : ServerMap, s.added.length = 3 ∧ s.removed.length = 1 ∧
    s.Exact ⟨(127, 0, 0, 1), 8080⟩ (bytesOf "server") := by
  let conn : TcpConnectionPtr := ⟨0, bytesOf "server-127.0.0.1:8080#1"⟩
  obtain ⟨s, hreach, hadded, hremoved⟩ := Transition.Reaches.exists_of_run
    (C := Transition.anyLabel) (s := new ⟨(127, 0, 0, 1), 8080⟩ (bytesOf "server"))
    (P := fun s => s.added.length = 3 ∧ s.removed.length = 1) (step · false)
    [.newConnection, .newConnection, .removeConnection conn false, .functor, .newConnection]
    (by decide +kernel)
  exact ⟨s, hadded, hremoved, (exact_of_reaches false hreach).1⟩

end ServerMap

end TinyMuduo
